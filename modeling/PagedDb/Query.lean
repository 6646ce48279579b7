import PagedDb.Binary64
import PagedDb.HeapFile

namespace PagedDb

@[simp] theorem run_liftExcept_ok {σ α : Type} (a : α) (s : σ) :
    (liftExcept (.ok a : Except Error α) : EStateM Error σ α) s = .ok a s := rfl

@[simp] theorem run_liftExcept_error {σ α : Type} (e : Error) (s : σ) :
    (liftExcept (.error e : Except Error α) : EStateM Error σ α) s = .error e s := rfl

@[simp] theorem except_ok_bind {ε α β : Type} (a : α) (f : α → Except ε β) : (Except.ok a >>= f) = f a := rfl

@[simp] theorem except_error_bind {ε α β : Type} (e : ε) (f : α → Except ε β) : (Except.error e >>= f) = .error e :=
  rfl

@[simp] theorem except_pure {ε α : Type} (a : α) : (pure a : Except ε α) = .ok a := rfl

-- PredicateOp
inductive PredicateOp where
  | eq | ne | lt | le | gt | ge
  deriving DecidableEq, Repr

-- The `cmp` lambda of compare_fields, from `==`, `<` and `<=` both ways.
def PredicateOp.test (op : PredicateOp) (eq lt le gt ge : Bool) : Bool :=
  match op with
  | .eq => eq
  | .ne => !eq
  | .lt => lt
  | .le => le
  | .gt => gt
  | .ge => ge

def orderEq : Option (WithBot (WithTop Int)) → Option (WithBot (WithTop Int)) → Bool
  | some x, some y => decide (x = y)
  | _, _ => false

def orderLt : Option (WithBot (WithTop Int)) → Option (WithBot (WithTop Int)) → Bool
  | some x, some y => decide (x < y)
  | _, _ => false

def orderLe : Option (WithBot (WithTop Int)) → Option (WithBot (WithTop Int)) → Bool
  | some x, some y => decide (x ≤ y)
  | _, _ => false

def compareDoubles (op : PredicateOp) (a b : Option (WithBot (WithTop Int))) : Bool :=
  op.test (orderEq a b) (orderLt a b) (orderLe a b) (orderLt b a) (orderLe b a)

-- `std::string` operator<: unsigned bytes, a proper prefix first.
def bytesLt : List UInt8 → List UInt8 → Bool
  | [], _ :: _ => true
  | a :: as, b :: bs => a < b || (a == b && bytesLt as bs)
  | _, [] => false

-- compare_fields: an int and a double compare as doubles; other mixed pairs never hold.
def compareFields (lhs rhs : Field) (op : PredicateOp) : Bool :=
  match lhs, rhs with
  | .int a, .int b => op.test (a.toInt == b.toInt) (a.toInt < b.toInt) (a.toInt ≤ b.toInt) (b.toInt < a.toInt)
      (b.toInt ≤ a.toInt)
  | .int a, .double b => compareDoubles op (doubleOrder (intToDouble a)) (doubleOrder b)
  | .double a, .int b => compareDoubles op (doubleOrder a) (doubleOrder (intToDouble b))
  | .double a, .double b => compareDoubles op (doubleOrder a) (doubleOrder b)
  | .char a, .char b => op.test (a == b) (bytesLt a b) (!bytesLt b a) (bytesLt b a) (!bytesLt a b)
  | _, _ => false

-- TupleDesc::index_of through the name-to-index map the constructor fills.
def TupleDesc.indexOf {c : Nat} (td : TupleDesc c) (name : String) : Except Error Nat :=
  match td.names.indexOf? name with
  | some i => .ok i
  | none => .error (.outOfRange ("TupleDesc::index_of: field not found: " ++ name))

-- Tuple::get_field: `fields_.at(i)`.
def getField (t : Tuple) (i : Nat) : Except Error Field :=
  match t[i]? with
  | some f => .ok f
  | none => .error (.outOfRange "Tuple::get_field: out of range")

structure FilterPredicate where
  fieldName : String
  op : PredicateOp
  value : Field

structure JoinPredicate where
  left : String
  op : PredicateOp
  right : String

structure CachedPred where
  fieldIdx : Nat
  op : PredicateOp
  value : Field

def TupleDesc.cachePred {c : Nat} (td : TupleDesc c) (p : FilterPredicate) : Except Error CachedPred := do
  pure ⟨← td.indexOf p.fieldName, p.op, p.value⟩

def satisfies (t : Tuple) : List CachedPred → Except Error Bool
  | [] => pure true
  | p :: rest => do
    if compareFields (← getField t p.fieldIdx) p.value p.op then satisfies t rest else pure false

-- join's new tuple: the left fields, then the right ones, without the join column for EQ.
def joinFields (op : PredicateOp) (rightIdx : Nat) (left right : Tuple) : Tuple :=
  left ++ if op = .eq then right.eraseIdx rightIdx else right

namespace World
variable {c : Nat} (td : TupleDesc c) (name : String)

-- `for (auto it = in.begin(); it != in.end(); ++it) acc = body(acc, *it);` from `it` on;
-- the loops of Query.cpp keep their state in locals, passed here as the accumulator.
def foldFrom {σ : Type} (body : σ → Tuple → EStateM Error World σ) (it : Iterator) : σ → Nat → EStateM Error World σ
  | _, 0 => throw (.undefined "the scan did not reach end()")
  | acc, fuel + 1 => do
    if it = (← heapEnd name) then pure acc
    else
      let acc ← body acc (← heapGetTuple td name it)
      foldFrom body (← heapNext td name it) acc fuel

def foldRecords {σ : Type} (body : σ → Tuple → EStateM Error World σ) (init : σ) (fuel : Nat) :
    EStateM Error World σ := do
  foldFrom td name body (← heapBegin td name) init fuel

def forEachRecord (body : Tuple → EStateM Error World Unit) (fuel : Nat) : EStateM Error World Unit :=
  foldRecords td name (fun _ t => body t) () fuel

end World

namespace Query
variable {c : Nat}

-- db::projection
def projection (input : String) (inTd : TupleDesc c) (output : String) (outTd : TupleDesc c)
    (fieldNames : List String) (fuel : Nat) : EStateM Error World Unit := do
  let indices ← liftExcept (fieldNames.mapM inTd.indexOf)
  World.forEachRecord inTd input (fun t => do
    World.heapInsert outTd output (← liftExcept (indices.mapM (getField t)))) fuel

-- db::filter
def filter (input : String) (inTd : TupleDesc c) (output : String) (outTd : TupleDesc c)
    (preds : List FilterPredicate) (fuel : Nat) : EStateM Error World Unit := do
  let cached ← liftExcept (preds.mapM inTd.cachePred)
  World.forEachRecord inTd input (fun t => do
    if ← liftExcept (satisfies t cached) then World.heapInsert outTd output t) fuel

def joinMatches (right : String) (rightTd : TupleDesc c) (output : String) (outTd : TupleDesc c)
    (pred : JoinPredicate) (rightIdx : Nat) (l : Tuple) (leftVal : Field) (fuel : Nat) : EStateM Error World Unit :=
  World.forEachRecord rightTd right (fun r => do
    let rightVal ← liftExcept (getField r rightIdx)
    if compareFields leftVal rightVal pred.op then
      World.heapInsert outTd output (joinFields pred.op rightIdx l r)) fuel

-- db::join: for each left record, a scan of the right file.
def join (left : String) (leftTd : TupleDesc c) (right : String) (rightTd : TupleDesc c) (output : String)
    (outTd : TupleDesc c) (pred : JoinPredicate) (fuel : Nat) : EStateM Error World Unit := do
  let leftIdx ← liftExcept (leftTd.indexOf pred.left)
  let rightIdx ← liftExcept (rightTd.indexOf pred.right)
  World.forEachRecord leftTd left (fun l => do
    joinMatches right rightTd output outTd pred rightIdx l (← liftExcept (getField l leftIdx)) fuel) fuel

end Query

end PagedDb
