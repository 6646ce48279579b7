import PagedDb.Query

namespace PagedDb

-- AggregateOp, in the order get_result's switch lists it.
inductive AggregateOp where
  | count | avg | sum | min | max
  deriving DecidableEq, Repr

structure Aggregate where
  field : String
  op : AggregateOp
  group : Option String

-- TupleDesc::field_type
def TupleDesc.fieldType {c : Nat} (td : TupleDesc c) (i : Nat) : Except Error FieldType :=
  match td.types[i]? with
  | some ty => .ok ty
  | none => .error (.outOfRange "TupleDesc::field_type: index out of range")

-- Query.cpp's Aggregator. `count` is an int: add throws before it would pass INT_MAX.
structure Aggregator where
  op : AggregateOp
  count : Nat
  sum : BitVec 64
  minVal : Field
  maxVal : Field
  isInitialized : Bool
  sourceIsInt : Bool
  deriving DecidableEq, Repr

-- The Aggregator `groups[key]` value-initialises: the member initialisers and int 0.
def Aggregator.fresh : Aggregator := ⟨.count, 0, 0, .int 0, .int 0, false, false⟩

def Field.numVal : Field → BitVec 64
  | .int v => intToDouble v
  | .double d => d
  | .char _ => 0

-- Aggregator::add, its `count++` being defined.
def Aggregator.accumulate (ag : Aggregator) (val : Field) : Aggregator :=
  let ag := { ag with count := ag.count + 1 }
  let ag := if ag.isInitialized then ag
    else { ag with sourceIsInt := val.fieldType = .int, minVal := val, maxVal := val, isInitialized := true }
  let ag := { ag with sum := doubleAdd ag.sum val.numVal }
  let ag := if ag.op = .min ∧ compareFields val ag.minVal .lt then { ag with minVal := val } else ag
  if ag.op = .max ∧ compareFields val ag.maxVal .gt then { ag with maxVal := val } else ag

-- `count++` on an int already at INT_MAX.
def countOverflow : Error := .undefined "count++ of an int already at INT_MAX"

-- Aggregator::add
def Aggregator.add (ag : Aggregator) (val : Field) : Except Error Aggregator :=
  if ag.count < 2 ^ 31 - 1 then pure (ag.accumulate val) else throw countOverflow

-- aggregate's round for a record: `if (ag.count == 0) ag.op = agg.op; ag.add(...)`.
def Aggregator.push (op : AggregateOp) (ag : Aggregator) (val : Field) : Except Error Aggregator :=
  (if ag.count = 0 then { ag with op := op } else ag).add val

def Aggregator.tally (op : AggregateOp) (vals : List Field) : Except Error Aggregator :=
  vals.foldlM (Aggregator.push op) .fresh

-- push and tally where every `count++` is defined.
def Aggregator.feed (op : AggregateOp) (ag : Aggregator) (val : Field) : Aggregator :=
  (if ag.count = 0 then { ag with op := op } else ag).accumulate val

def Aggregator.feedAll (op : AggregateOp) (vals : List Field) : Aggregator :=
  vals.foldl (Aggregator.feed op) .fresh

-- Aggregator::get_result. SUM's `source_is_int ? static_cast<int>(sum) : sum` has type
-- double; `static_cast<int>` of a sum outside int's range is undefined.
def Aggregator.result (ag : Aggregator) : Except Error Field :=
  match ag.op with
  | .count => pure (.int (BitVec.ofNat 32 ag.count))
  | .avg => pure (.double (if ag.count = 0 then 0 else doubleDiv ag.sum (intToDouble (BitVec.ofNat 32 ag.count))))
  | .sum =>
    if ag.sourceIsInt then
      match doubleToInt ag.sum with
      | some v => pure (.double (intToDouble v))
      | none => throw (.undefined "static_cast<int> of a double outside int's range")
    else pure (.double ag.sum)
  | .min => pure ag.minVal
  | .max => pure ag.maxVal

def Field.index : Field → Nat
  | .int _ => 0
  | .double _ => 1
  | .char _ => 2

-- std::variant's operator<, the map's key order: the alternatives' indices, then the values.
def fieldLt : Field → Field → Bool
  | .int a, .int b => a.toInt < b.toInt
  | .double a, .double b => orderLt (doubleOrder a) (doubleOrder b)
  | .char a, .char b => bytesLt a b
  | a, b => a.index < b.index

def Field.isNaN : Field → Bool
  | .double bits => (doubleOrder bits).isNone
  | _ => false

-- std::map<field_t, Aggregator>::operator[] with a change of the entry it returns.
def updateGroup (key : Field) (change : Aggregator → Aggregator) :
    List (Field × Aggregator) → List (Field × Aggregator)
  | [] => [(key, change .fresh)]
  | (k, ag) :: rest =>
    if fieldLt k key then (k, ag) :: updateGroup key change rest
    else if fieldLt key k then (key, change .fresh) :: (k, ag) :: rest
    else (k, change ag) :: rest

-- The entry operator[] returns: the one whose key orders neither way, or a fresh one.
def groupAt (key : Field) : List (Field × Aggregator) → Aggregator
  | [] => .fresh
  | (k, ag) :: rest => if fieldLt k key then groupAt key rest else if fieldLt key k then .fresh else ag

-- aggregate's round for the record `t`.
def aggregateRecord (agg : Aggregate) (aggIdx groupIdx : Nat) (groups : List (Field × Aggregator)) (t : Tuple) :
    Except Error (List (Field × Aggregator)) := do
  let key ← if agg.group.isSome then getField t groupIdx else pure (.int 0)
  let ag ← (groupAt key groups).push agg.op (← getField t aggIdx)
  pure (updateGroup key (fun _ => ag) groups)

-- aggregate's last loop: a row for each group, in key order.
def insertGroups {c : Nat} (output : String) (outTd : TupleDesc c) (hasGroup : Bool) :
    List (Field × Aggregator) → EStateM Error World Unit
  | [] => pure ()
  | (key, ag) :: rest => do
    World.heapInsert outTd output ((if hasGroup then [key] else []) ++ [← liftExcept ag.result])
    insertGroups output outTd hasGroup rest

def emptyRow (op : AggregateOp) (srcIsInt : Bool) : Tuple :=
  if op = .count then [.int 0]
  else if op = .avg then [.double 0]
  else if srcIsInt then [.int 0] else [.double 0]

namespace Query
variable {c : Nat}

-- db::aggregate
def aggregate (input : String) (inTd : TupleDesc c) (output : String) (outTd : TupleDesc c) (agg : Aggregate)
    (fuel : Nat) : EStateM Error World Unit := do
  let aggIdx ← liftExcept (inTd.indexOf agg.field)
  let srcIsInt := (← liftExcept (inTd.fieldType aggIdx)) = .int
  let groupIdx ← match agg.group with
    | some name => liftExcept (inTd.indexOf name)
    | none => pure 0
  let groups ← World.foldRecords inTd input
    (fun groups t => liftExcept (aggregateRecord agg aggIdx groupIdx groups t)) [] fuel
  if groups.isEmpty ∧ agg.group.isNone then World.heapInsert outTd output (emptyRow agg.op srcIsInt)
  else insertGroups output outTd agg.group.isSome groups

end Query

end PagedDb
