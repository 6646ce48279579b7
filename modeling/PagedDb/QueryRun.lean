import PagedDb.QueryScan

namespace PagedDb

def pickFields {α : Type} (names wanted : List String) (xs : List α) : List α :=
  wanted.filterMap fun name => (names.zip xs).lookup name

def dropField {α : Type} (names : List String) (name : String) (xs : List α) : List α :=
  ((names.zip xs).filter fun e => e.1 != name).map Prod.snd

def FilterPredicate.holds {c : Nat} (td : TupleDesc c) (t : Tuple) (p : FilterPredicate) : Bool :=
  match (td.names.zip t).lookup p.fieldName with
  | some f => compareFields f p.value p.op
  | none => false

def JoinPredicate.holds {c : Nat} (leftTd rightTd : TupleDesc c) (pred : JoinPredicate) (l r : Tuple) : Bool :=
  match (leftTd.names.zip l).lookup pred.left, (rightTd.names.zip r).lookup pred.right with
  | some a, some b => compareFields a b pred.op
  | _, _ => false

def selectRecords {c : Nat} (td : TupleDesc c) (preds : List FilterPredicate) (records : List Tuple) : List Tuple :=
  records.filter fun t => preds.all (·.holds td t)

def projectRecords {c : Nat} (td : TupleDesc c) (wanted : List String) (records : List Tuple) : List Tuple :=
  records.map (pickFields td.names wanted)

-- The joined record: an equi-join keeps one copy of the join column.
def joinRecord {c : Nat} (rightTd : TupleDesc c) (pred : JoinPredicate) (l r : Tuple) : Tuple :=
  l ++ if pred.op = .eq then dropField rightTd.names pred.right r else r

def joinRecords {c : Nat} (leftTd rightTd : TupleDesc c) (pred : JoinPredicate) (lefts rights : List Tuple) :
    List Tuple :=
  lefts.flatMap fun l => (rights.filter (pred.holds leftTd rightTd l)).map (joinRecord rightTd pred l)

section Snoc
variable {c : Nat} (td : TupleDesc c) (records : List Tuple) (t : Tuple)

theorem joinRecords_snoc (rightTd : TupleDesc c) (pred : JoinPredicate) (rights : List Tuple) :
    joinRecords td rightTd pred (records ++ [t]) rights =
      joinRecords td rightTd pred records rights ++ (rights.filter (pred.holds td rightTd t)).map (joinRecord rightTd pred t) := by
  simp [joinRecords]

end Snoc

section Names
variable {α β : Type}

theorem lookup_zip_indexOf {names : List String} {xs : List α} {name : String} {i : Nat}
    (found : names.indexOf? name = some i) (long : names.length ≤ xs.length) :
    ∃ x, xs[i]? = some x ∧ (names.zip xs).lookup name = some x := by
  induction names generalizing xs i with
  | nil => simp at found
  | cons a as ih =>
    obtain ⟨x, rest, rfl⟩ := List.exists_cons_of_length_pos (Nat.lt_of_lt_of_le (Nat.succ_pos _) long)
    rw [List.indexOf?_cons] at found
    by_cases same : a = name
    · subst same
      obtain rfl : 0 = i := by simpa using found
      exact ⟨x, by simp, by simp [List.lookup_cons]⟩
    · rw [if_neg (by simpa using same)] at found
      obtain ⟨j, found', rfl⟩ := Option.map_eq_some'.mp found
      obtain ⟨y, at', look⟩ := ih found' (by simpa using long)
      have other : (name == a) = false := by simpa using Ne.symm same
      exact ⟨y, by simpa using at', by simp [List.lookup_cons, other, look]⟩

theorem lookup_zip_map (g : α → β) (names : List String) (xs : List α) (name : String) :
    (names.zip (xs.map g)).lookup name = ((names.zip xs).lookup name).map g := by
  induction names generalizing xs with
  | nil => rfl
  | cons a as ih =>
    cases xs with
    | nil => rfl
    | cons x rest =>
      simp only [List.map_cons, List.zip_cons_cons, List.lookup_cons]
      split <;> simp_all

theorem pickFields_map (g : α → β) (names wanted : List String) (xs : List α) :
    (pickFields names wanted xs).map g = pickFields names wanted (xs.map g) := by
  induction wanted with
  | nil => rfl
  | cons name rest ih =>
    simp only [pickFields, List.filterMap_cons, lookup_zip_map] at ih ⊢
    cases (names.zip xs).lookup name <;> simp [ih]

theorem dropField_map (g : α → β) (names : List String) (name : String) (xs : List α) :
    (dropField names name xs).map g = dropField names name (xs.map g) := by
  simp [dropField, List.zip_map_right, List.filter_map, Function.comp_def]

theorem dropField_eraseIdx {names : List String} (nodup : names.Nodup) {name : String} {i : Nat}
    (found : names.indexOf? name = some i) {xs : List α} (same : xs.length = names.length) :
    dropField names name xs = xs.eraseIdx i := by
  induction names generalizing xs i with
  | nil => simp at found
  | cons a as ih =>
    obtain ⟨x, rest, rfl⟩ := List.exists_cons_of_length_pos (by rw [same]; exact Nat.succ_pos _)
    rw [List.indexOf?_cons] at found
    simp only [List.length_cons, Nat.add_right_cancel_iff] at same
    by_cases here : a = name
    · subst here
      obtain rfl : 0 = i := by simpa using found
      have absent : ∀ e ∈ as.zip rest, (e.1 != a) = true := fun e member => by
        have fresh : e.1 ≠ a := fun equal => (List.nodup_cons.mp nodup).1 (equal ▸ (List.of_mem_zip member).1)
        simpa using fresh
      simp [dropField, List.filter_eq_self.mpr absent, List.map_snd_zip _ _ (le_of_eq same)]
    · rw [if_neg (by simpa using here)] at found
      obtain ⟨j, found', rfl⟩ := Option.map_eq_some'.mp found
      have rest' := ih (List.nodup_cons.mp nodup).2 found' same
      simp only [dropField, List.zip_cons_cons, List.filter_cons, bne_iff_ne, ne_eq, here, not_false_eq_true,
        decide_True, if_true, List.map_cons] at rest' ⊢
      rw [rest', List.eraseIdx_cons_succ]

theorem lookup_zip_absent {names : List String} {xs : List α} {name : String} (unknown : name ∉ names) :
    (names.zip xs).lookup name = none := by
  induction names generalizing xs with
  | nil => rfl
  | cons a as ih =>
    cases xs with
    | nil => rfl
    | cons x rest =>
      rw [List.zip_cons_cons, List.lookup_cons]
      have differs : name ≠ a := fun same => unknown (same ▸ List.mem_cons_self a as)
      have other : (name == a) = false := by simpa using differs
      simp only [other]
      exact ih fun member => unknown (List.mem_cons_of_mem a member)

end Names

section Fields
variable {c : Nat} {td : TupleDesc c}

theorem TupleDesc.indexOf_absent {name : String} (unknown : name ∉ td.names) :
    td.indexOf name = .error (.outOfRange ("TupleDesc::index_of: field not found: " ++ name)) := by
  have none : td.names.indexOf? name = none :=
    List.indexOf?_eq_none_iff.mpr fun x member same => unknown (by simpa [(beq_iff_eq).mp same] using member)
  simp [TupleDesc.indexOf, none]

theorem TupleDesc.indexOf_getField {name : String} (known : name ∈ td.names) :
    ∃ i, td.indexOf name = .ok i ∧ td.names.indexOf? name = some i ∧
      ∀ t, Decoded td t → ∃ f, getField t i = .ok f ∧ (td.names.zip t).lookup name = some f := by
  obtain ⟨i, found⟩ := Option.ne_none_iff_exists'.mp fun none =>
    List.indexOf?_eq_none_iff.mp none name known (beq_self_eq_true name)
  refine ⟨i, by simp [TupleDesc.indexOf, found], found, fun t decoded => ?_⟩
  obtain ⟨f, at', look⟩ := lookup_zip_indexOf found (le_of_eq decoded.length.symm)
  exact ⟨f, by simp [getField, at'], look⟩

theorem cachePred_satisfies {preds : List FilterPredicate} (known : ∀ p ∈ preds, p.fieldName ∈ td.names) :
    ∃ cached, preds.mapM td.cachePred = .ok cached ∧
      ∀ t, Decoded td t → satisfies t cached = .ok (preds.all (·.holds td t)) := by
  induction preds with
  | nil => exact ⟨[], rfl, fun _ _ => rfl⟩
  | cons p rest ih =>
    obtain ⟨i, found, -, field⟩ := td.indexOf_getField (known p (List.mem_cons_self p rest))
    obtain ⟨cached, mapped, passes⟩ := ih fun q member => known q (List.mem_cons_of_mem p member)
    refine ⟨⟨i, p.op, p.value⟩ :: cached,
      by simp only [List.mapM_cons, mapped, TupleDesc.cachePred, found, except_ok_bind, except_pure], fun t decoded => ?_⟩
    obtain ⟨f, got, look⟩ := field t decoded
    have holds : p.holds td t = compareFields f p.value p.op := by simp [FilterPredicate.holds, look]
    simp only [satisfies, got, except_ok_bind, List.all_cons, holds]
    cases compareFields f p.value p.op <;> simp [passes t decoded]

theorem indexOf_pickFields {wanted : List String} (known : ∀ name ∈ wanted, name ∈ td.names) :
    ∃ indices, wanted.mapM td.indexOf = .ok indices ∧
      ∀ t, Decoded td t → indices.mapM (getField t) = .ok (pickFields td.names wanted t) := by
  induction wanted with
  | nil => exact ⟨[], rfl, fun _ _ => rfl⟩
  | cons name rest ih =>
    obtain ⟨i, found, -, field⟩ := td.indexOf_getField (known name (List.mem_cons_self name rest))
    obtain ⟨indices, mapped, fetched⟩ := ih fun q member => known q (List.mem_cons_of_mem name member)
    refine ⟨i :: indices, by simp only [List.mapM_cons, mapped, found, except_ok_bind, except_pure],
      fun t decoded => ?_⟩
    obtain ⟨f, got, look⟩ := field t decoded
    have picked := fetched t decoded
    simp only [pickFields] at picked
    simp only [List.mapM_cons, got, picked, except_ok_bind, except_pure, pickFields, List.filterMap_cons, look]

theorem joinRecord_stable {rightTd : TupleDesc c} {pred : JoinPredicate} {l r : Tuple}
    (left : l.map (Field.stored c) = l) (right : r.map (Field.stored c) = r) :
    (joinRecord rightTd pred l r).map (Field.stored c) = joinRecord rightTd pred l r := by
  rw [joinRecord, List.map_append, left]
  split <;> simp only [dropField_map, right]

end Fields

theorem mapM_error {α β : Type} {f : α → Except Error β} {front : List α} {a : α} {e : Error} (back : List α)
    (known : ∃ bs, front.mapM f = .ok bs) (fails : f a = .error e) : (front ++ a :: back).mapM f = .error e := by
  obtain ⟨bs, mapped⟩ := known
  simp only [List.mapM_append, mapped, except_ok_bind, List.mapM_cons, fails, except_error_bind]

section Operators
variable {N c : Nat} {w : World} {latest : PageId → Page} {outTd : TupleDesc c} {output : String}
  {l : List Tuple} {fuel : Nat}

def rowSchema : TupleDesc 1000 := ⟨[.char], ["body"], rfl, by decide⟩

def pairSchema : TupleDesc 1000 := ⟨[.char, .char], ["k", "v"], rfl, by decide⟩

def rowsPage : Page := fun i => if i = 0 then 0xC0 else if i = 1 then 97 else if i = 1001 then 98 else 0

def pairPage : Page := fun i => if i = 0 then 0x80 else if i = 1 then 97 else if i = 1001 then 120 else 0

def onePage (page : Page) : DiskFile := ⟨fun id => if id = 0 then page else zeroPage, defaultPageSize, fun id past => by
  have : 1 ≤ id := Nat.le_of_mul_le_mul_right (by simpa using past) (by decide)
  simp [show id ≠ 0 by omega]⟩

def queryWorld : World where
  pool := BufferPool.init 1
  files := fun name => if name = "t" ∨ name = "p" then some ⟨1, [], []⟩ else if name = "out" then some ⟨0, [], []⟩
    else none
  disk := fun name => if name = "t" then onePage rowsPage else if name = "p" then onePage pairPage
    else ⟨fun _ => zeroPage, 0, fun _ _ => rfl⟩
  faults := fun _ => none
  trace := []

theorem queryWorld_healthy : Healthy 1 queryWorld queryWorld.stored :=
  ⟨init_accounting 1, Coherent.init rfl rfl, by decide, fun _ => rfl⟩

theorem queryWorld_out : Appending rowSchema "out" 1 queryWorld queryWorld.stored [] :=
  .empty queryWorld_healthy rfl rfl fun _ => rfl

-- A field name the schema lacks throws out_of_range, with the process as it was.
theorem unknown_field_throws {c : Nat} (w : World) (fuel : Nat) (output : String) (outTd : TupleDesc c) :
    (∀ (input : String) (inTd : TupleDesc c) (front : List FilterPredicate) (p : FilterPredicate) (back : List FilterPredicate),
      (∀ q ∈ front, q.fieldName ∈ inTd.names) → p.fieldName ∉ inTd.names →
      Query.filter input inTd output outTd (front ++ p :: back) fuel w =
        .error (.outOfRange ("TupleDesc::index_of: field not found: " ++ p.fieldName)) w) ∧
    (∀ (input : String) (inTd : TupleDesc c) (front : List String) (name : String) (back : List String),
      (∀ q ∈ front, q ∈ inTd.names) → name ∉ inTd.names →
      Query.projection input inTd output outTd (front ++ name :: back) fuel w =
        .error (.outOfRange ("TupleDesc::index_of: field not found: " ++ name)) w) ∧
    ∀ (left : String) (leftTd : TupleDesc c) (right : String) (rightTd : TupleDesc c) (pred : JoinPredicate),
      (pred.left ∉ leftTd.names → Query.join left leftTd right rightTd output outTd pred fuel w =
        .error (.outOfRange ("TupleDesc::index_of: field not found: " ++ pred.left)) w) ∧
      (pred.left ∈ leftTd.names → pred.right ∉ rightTd.names →
        Query.join left leftTd right rightTd output outTd pred fuel w =
          .error (.outOfRange ("TupleDesc::index_of: field not found: " ++ pred.right)) w) := by
  refine ⟨fun input inTd front p back known unknown => ?_, fun input inTd front name back known unknown => ?_,
    fun left leftTd right rightTd pred => ⟨fun unknown => ?_, fun known unknown => ?_⟩⟩
  · obtain ⟨cached, mapped, -⟩ := cachePred_satisfies known
    have fails : inTd.cachePred p = .error (.outOfRange ("TupleDesc::index_of: field not found: " ++ p.fieldName)) := by
      rw [TupleDesc.cachePred, inTd.indexOf_absent unknown]; rfl
    simp only [Query.filter, run_bind, mapM_error back ⟨cached, mapped⟩ fails, run_liftExcept_error]
  · obtain ⟨indices, mapped, -⟩ := indexOf_pickFields known
    simp only [Query.projection, run_bind, mapM_error back ⟨indices, mapped⟩ (inTd.indexOf_absent unknown),
      run_liftExcept_error]
  · simp only [Query.join, run_bind, leftTd.indexOf_absent unknown, run_liftExcept_error]
  · obtain ⟨leftIdx, found, -⟩ := leftTd.indexOf_getField known
    simp only [Query.join, run_bind, found, run_liftExcept_ok, rightTd.indexOf_absent unknown, run_liftExcept_error]

theorem unknown_field_rows :
    Query.filter "t" rowSchema "out" rowSchema [⟨"name", .eq, .char []⟩] 3 queryWorld =
      .error (.outOfRange "TupleDesc::index_of: field not found: name") queryWorld :=
  (unknown_field_throws queryWorld 3 "out" rowSchema).1 "t" rowSchema [] ⟨"name", .eq, .char []⟩ []
    (fun _ member => absurd member (List.not_mem_nil _)) (by decide)

end Operators

end PagedDb
