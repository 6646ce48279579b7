import PagedDb.AggregateValue
import PagedDb.QueryRun

namespace PagedDb

-- The (group key, value) pair of each record; with no GROUP BY the key is int 0.
def keyedValues {c : Nat} (td : TupleDesc c) (agg : Aggregate) (records : List Tuple) : List (Field × Field) :=
  records.filterMap fun t =>
    ((td.names.zip t).lookup agg.field).bind fun v =>
      match agg.group with
      | some g => ((td.names.zip t).lookup g).map (·, v)
      | none => some (.int 0, v)

def groupRow (hasGroup : Bool) (g : Field × Aggregator) : Except Error Tuple := do
  pure ((if hasGroup then [g.1] else []) ++ [← g.2.result])

-- The type of get_result's value for a source column of type `ty`.
def resultType (op : AggregateOp) (ty : FieldType) : FieldType :=
  match op with
  | .count => .int
  | .avg | .sum => .double
  | .min | .max => ty

section Schema
variable {c : Nat} {td : TupleDesc c}

theorem known_of_lookup {α : Type} {names : List String} {xs : List α} {name : String} {x : α}
    (look : (names.zip xs).lookup name = some x) : name ∈ names := by
  by_contra unknown
  rw [lookup_zip_absent unknown] at look
  cases look

theorem Decoded.lookup {t : Tuple} (decoded : Decoded td t) {name : String} {f : Field} {ty : FieldType}
    (look : (td.names.zip t).lookup name = some f) (typed : (td.names.zip td.types).lookup name = some ty) :
    f.fieldType = ty ∧ f.stored c = f := by
  have types := lookup_zip_map Field.fieldType td.names t name
  have stored := lookup_zip_map (Field.stored c) td.names t name
  rw [(compatible_iff td t).mp decoded.typed, typed, look, Option.map_some'] at types
  rw [decoded.stable, look, Option.map_some'] at stored
  exact ⟨(Option.some.inj types).symm, (Option.some.inj stored).symm⟩

theorem TupleDesc.fieldType_ok {name : String} {i : Nat} {ty : FieldType} (found : td.names.indexOf? name = some i)
    (typed : (td.names.zip td.types).lookup name = some ty) : td.fieldType i = .ok ty := by
  obtain ⟨x, at', look⟩ := lookup_zip_indexOf found (le_of_eq td.sameLength.symm)
  rw [typed] at look
  simp [TupleDesc.fieldType, at', Option.some.inj look]

theorem keyedValues_append (agg : Aggregate) (front back : List Tuple) :
    keyedValues td agg (front ++ back) = keyedValues td agg front ++ keyedValues td agg back := by
  rw [keyedValues, keyedValues, keyedValues, List.filterMap_append]

theorem mem_keyedValues {agg : Aggregate} {records : List Tuple} {p : Field × Field}
    (member : p ∈ keyedValues td agg records) :
    ∃ t ∈ records, (td.names.zip t).lookup agg.field = some p.2 ∧
      (∀ g, agg.group = some g → (td.names.zip t).lookup g = some p.1) ∧ (agg.group = none → p.1 = .int 0) := by
  obtain ⟨t, inside, made⟩ := List.mem_filterMap.mp member
  refine ⟨t, inside, ?_⟩
  cases lookV : (td.names.zip t).lookup agg.field with
  | none => simp [lookV] at made
  | some v =>
    cases grouped : agg.group with
    | none =>
      simp only [lookV, grouped, Option.some_bind, Option.some.injEq] at made
      subst made; simp
    | some g =>
      cases lookK : (td.names.zip t).lookup g with
      | none => simp [lookV, grouped, lookK] at made
      | some k =>
        simp only [lookV, grouped, lookK, Option.some_bind, Option.map_some', Option.some.injEq] at made
        subst made; simp [lookK]

theorem keyedValues_typed {agg : Aggregate} {records : List Tuple} (decoded : ∀ t ∈ records, Decoded td t)
    {ty : FieldType} (valTyped : (td.names.zip td.types).lookup agg.field = some ty) {p : Field × Field}
    (member : p ∈ keyedValues td agg records) :
    (∀ g keyTy, agg.group = some g → (td.names.zip td.types).lookup g = some keyTy →
      p.1.fieldType = keyTy ∧ p.1.stored c = p.1) ∧ (p.2.fieldType = ty ∧ p.2.stored c = p.2) := by
  obtain ⟨t, inside, lookV, lookK, -⟩ := mem_keyedValues member
  exact ⟨fun g _ grouped keyTyped => (decoded t inside).lookup (lookK g grouped) keyTyped,
    (decoded t inside).lookup lookV valTyped⟩

theorem push_update (op : AggregateOp) (key v : Field) (groups : List (Field × Aggregator)) :
    ((groupAt key groups).push op v >>= fun ag => pure (updateGroup key (fun _ => ag) groups)) =
      if (groupAt key groups).count < 2 ^ 31 - 1 then .ok (updateGroup key (Aggregator.feed op · v) groups)
      else .error countOverflow := by
  by_cases room : (groupAt key groups).count < 2 ^ 31 - 1
  · rw [push_eq, if_pos room, if_pos room, except_ok_bind, except_pure]
    exact congrArg Except.ok (updateGroup_groupAt (Aggregator.feed op · v) groups)
  · rw [push_eq, if_neg room, if_neg room]
    rfl

theorem aggregateRecord_decoded {agg : Aggregate} {aggIdx : Nat} (groupIdx : Nat)
    (field : ∀ t, Decoded td t → ∃ f, getField t aggIdx = .ok f ∧ (td.names.zip t).lookup agg.field = some f)
    (group : ∀ g, agg.group = some g → ∀ t, Decoded td t →
      ∃ f, getField t groupIdx = .ok f ∧ (td.names.zip t).lookup g = some f)
    {t : Tuple} (decoded : Decoded td t) :
    ∃ p, keyedValues td agg [t] = [p] ∧ ∀ groups,
      aggregateRecord agg aggIdx groupIdx groups t = if (groupAt p.1 groups).count < 2 ^ 31 - 1 then
        .ok (updateGroup p.1 (Aggregator.feed agg.op · p.2) groups) else .error countOverflow := by
  obtain ⟨v, gotV, lookV⟩ := field t decoded
  cases grouped : agg.group with
  | none =>
    exact ⟨(.int 0, v), by simp [keyedValues, lookV, grouped], fun groups => by
      rw [← push_update]; simp [aggregateRecord, grouped, gotV]⟩
  | some g =>
    obtain ⟨k, gotK, lookK⟩ := group g grouped t decoded
    exact ⟨(k, v), by simp [keyedValues, lookV, grouped, lookK], fun groups => by
      rw [← push_update]; simp [aggregateRecord, grouped, gotK, gotV]⟩

end Schema

section Counts
variable {op : AggregateOp} {key : Field}

theorem groupAll_count_le (pairs : List (Field × Field)) : ∀ g ∈ groupAll op pairs, g.2.count ≤ pairs.length := by
  induction pairs using List.reverseRecOn with
  | nil => simp [groupAll]
  | append_singleton front p ih =>
    intro g member
    rw [groupAll_append] at member
    rw [List.length_append, List.length_singleton]
    rcases mem_updateGroup_groupAt member with old | changed
    · exact (ih g old).trans (Nat.le_succ _)
    · rw [changed, feed_count]
      rcases @groupAt_mem p.1 (groupAll op front) with fresh | ⟨k, inside⟩
      · rw [fresh]; exact Nat.succ_le_succ (Nat.zero_le _)
      · exact Nat.succ_le_succ (ih _ inside)

theorem groupAt_count_le (pairs : List (Field × Field)) : (groupAt key (groupAll op pairs)).count ≤ pairs.length := by
  rcases groupAt_mem (groupAll op pairs) with fresh | ⟨k, inside⟩
  · rw [fresh]; exact Nat.zero_le _
  · exact groupAll_count_le pairs _ inside

theorem counts_update {groups : List (Field × Aggregator)} (counts : ∀ g ∈ groups, g.2.count < 2 ^ 31) {v : Field}
    (room : (groupAt key groups).count < 2 ^ 31 - 1) :
    ∀ g ∈ updateGroup key (Aggregator.feed op · v) groups, g.2.count < 2 ^ 31 := fun g member =>
  (mem_updateGroup_groupAt member).elim (counts g) fun changed => by rw [changed, feed_count]; omega

end Counts

section Rows
variable {c : Nat} {outTd : TupleDesc c}

theorem mapM_ok_cons {α β : Type} {f : α → Except Error β} {a : α} {rest : List α} {bs : List β}
    (mapped : (a :: rest).mapM f = .ok bs) : ∃ b bs', f a = .ok b ∧ rest.mapM f = .ok bs' ∧ bs = b :: bs' := by
  simp only [List.mapM_cons] at mapped
  cases fa : f a with
  | error e => simp only [fa, except_error_bind] at mapped; cases mapped
  | ok b =>
    cases frest : rest.mapM f with
    | error e => simp only [fa, frest, except_ok_bind, except_error_bind] at mapped; cases mapped
    | ok bs' =>
      simp only [fa, frest, except_ok_bind, except_pure, Except.ok.injEq] at mapped
      exact ⟨b, bs', rfl, rfl, mapped.symm⟩

theorem groupRow_ok {hasGroup : Bool} {g : Field × Aggregator} {row : Tuple} (made : groupRow hasGroup g = .ok row) :
    ∃ v, g.2.result = .ok v ∧ row = (if hasGroup then [g.1] else []) ++ [v] := by
  cases r : g.2.result with
  | error e => simp [groupRow, r] at made
  | ok v =>
    simp only [groupRow, r, except_ok_bind, except_pure, Except.ok.injEq] at made
    exact ⟨v, rfl, made.symm⟩

theorem feedAll_result_typed {op : AggregateOp} {vals : List Field} {ty : FieldType} (nonempty : vals ≠ [])
    (typed : ∀ v ∈ vals, v.fieldType = ty ∧ v.stored c = v) {r : Field}
    (result : (Aggregator.feedAll op vals).result = .ok r) : r.fieldType = resultType op ty ∧ r.stored c = r := by
  rw [Aggregator.result, feedAll_op op nonempty] at result
  cases op with
  | count => cases result; exact ⟨rfl, rfl⟩
  | avg => cases result; exact ⟨rfl, rfl⟩
  | sum =>
    dsimp only at result
    split at result
    · split at result <;> cases result
      exact ⟨rfl, rfl⟩
    · cases result; exact ⟨rfl, rfl⟩
  | min =>
    cases result
    exact typed _ (feedAll_minVal nonempty).1
  | max =>
    cases result
    exact typed _ (feedAll_maxVal nonempty).1

end Rows

-- A fresh pool over "p", a page holding the pair ("a", "x"), and empty "none" and "out".
def aggWorld : World where
  pool := BufferPool.init 1
  files := fun name => if name = "p" then some ⟨1, [], []⟩
    else if name = "none" ∨ name = "out" then some ⟨0, [], []⟩ else none
  disk := fun name => if name = "p" then onePage pairPage else ⟨fun _ => zeroPage, 0, fun _ _ => rfl⟩
  faults := fun _ => none
  trace := []

theorem aggWorld_healthy : Healthy 1 aggWorld aggWorld.stored :=
  ⟨init_accounting 1, Coherent.init rfl rfl, by decide, fun _ => rfl⟩

def countSchema : TupleDesc 1000 := ⟨[.char, .int], ["k", "n"], rfl, by decide⟩

def countOnly : TupleDesc 1000 := ⟨[.int], ["n"], rfl, by decide⟩

def countAll : Aggregate := ⟨"v", .count, none⟩

def minBody : Aggregate := ⟨"body", .min, none⟩

-- A file "s" of two countSchema records, ("", 2147483647) and ("", 1), beside an empty "out".
def sumPage : Page := fun i =>
  if i = 0 then 0xC0 else if i = 1001 ∨ i = 1002 ∨ i = 1003 then 0xFF else if i = 1004 then 0x7F
  else if i = 2005 then 1 else 0

def sumWorld : World where
  pool := BufferPool.init 1
  files := fun name => if name = "s" then some ⟨1, [], []⟩ else if name = "out" then some ⟨0, [], []⟩ else none
  disk := fun name => if name = "s" then onePage sumPage else ⟨fun _ => zeroPage, 0, fun _ _ => rfl⟩
  faults := fun _ => none
  trace := []

theorem sumWorld_healthy : Healthy 1 sumWorld sumWorld.stored :=
  ⟨init_accounting 1, Coherent.init rfl rfl, by decide, fun _ => rfl⟩

def sumAll : Aggregate := ⟨"n", .sum, none⟩

section Run
variable {N c : Nat} {inTd outTd : TupleDesc c} {input output : String} {agg : Aggregate} {pages : Nat → Page}
  {n : Nat} {fuel : Nat}

-- aggregate's scan either builds the map with every count++ defined or throws once a
-- group holds INT_MAX values; the output file is left as it was.
theorem aggregate_scan {aggIdx groupIdx : Nat} {w : World} {latest : PageId → Page} {l : List Tuple}
    (reading : Reading N input pages n w latest) (appending : Appending outTd output N w latest l)
    (fetch : ∀ t, Decoded inTd t → ∃ p, keyedValues inTd agg [t] = [p] ∧ ∀ groups,
      aggregateRecord agg aggIdx groupIdx groups t = if (groupAt p.1 groups).count < 2 ^ 31 - 1 then
        .ok (updateGroup p.1 (Aggregator.feed agg.op · p.2) groups) else .error countOverflow)
    (enough : (HeapFile.records inTd pages n).length < fuel) :
    (∃ w' latest', World.foldRecords inTd input (fun groups t => liftExcept (aggregateRecord agg aggIdx groupIdx groups t))
        [] fuel w = .ok (groupAll agg.op (keyedValues inTd agg (HeapFile.records inTd pages n))) w' ∧
      (∀ g ∈ groupAll agg.op (keyedValues inTd agg (HeapFile.records inTd pages n)), g.2.count < 2 ^ 31) ∧
      Appending outTd output N w' latest' l ∧ Reading N input pages n w' latest') ∨
    (2 ^ 31 ≤ (keyedValues inTd agg (HeapFile.records inTd pages n)).length ∧ ∃ w' latest',
      World.foldRecords inTd input (fun groups t => liftExcept (aggregateRecord agg aggIdx groupIdx groups t))
        [] fuel w = .error countOverflow w' ∧ Appending outTd output N w' latest' l ∧ Reading N input pages n w' latest') := by
  let Inv := fun (done : List Tuple) (groups : List (Field × Aggregator)) w latest =>
    groups = groupAll agg.op (keyedValues inTd agg done) ∧ (∀ g ∈ groups, g.2.count < 2 ^ 31) ∧
      Appending outTd output N w latest l
  let Fail := fun (e : Error) w' => e = countOverflow ∧
    2 ^ 31 ≤ (keyedValues inTd agg (HeapFile.records inTd pages n)).length ∧
      ∃ latest', Appending outTd output N w' latest' l ∧ Reading N input pages n w' latest'
  have step : ∀ done t rest groups w latest, done ++ t :: rest = HeapFile.records inTd pages n → Decoded inTd t →
      Inv done groups w latest → Reading N input pages n w latest →
      (∃ groups' w' latest', (liftExcept (aggregateRecord agg aggIdx groupIdx groups t) :
          EStateM Error World (List (Field × Aggregator))) w = .ok groups' w' ∧
        Inv (done ++ [t]) groups' w' latest' ∧ Reading N input pages n w' latest') ∨
      ∃ e w', (liftExcept (aggregateRecord agg aggIdx groupIdx groups t) :
          EStateM Error World (List (Field × Aggregator))) w = .error e w' ∧ Fail e w' := by
    rintro done t rest groups w latest position decoded ⟨rfl, counts, appending⟩ reading
    obtain ⟨p, single, round⟩ := fetch t decoded
    by_cases room : (groupAt p.1 (groupAll agg.op (keyedValues inTd agg done))).count < 2 ^ 31 - 1
    · exact .inl ⟨_, w, latest, by rw [round, if_pos room, run_liftExcept_ok],
        ⟨by rw [keyedValues_append, single, groupAll_append], counts_update counts room, appending⟩, reading⟩
    · have before : (groupAt p.1 (groupAll agg.op (keyedValues inTd agg done))).count ≤
          (keyedValues inTd agg done).length := groupAt_count_le _
      have whole : (keyedValues inTd agg (HeapFile.records inTd pages n)).length =
          (keyedValues inTd agg done).length + 1 + (keyedValues inTd agg rest).length := by
        rw [← position, ← List.singleton_append, keyedValues_append, keyedValues_append, single]
        simp only [List.length_append, List.length_singleton]
        omega
      exact .inr ⟨_, w, by rw [round, if_neg room, run_liftExcept_error], rfl, by omega, latest, appending, reading⟩
  rcases foldRecords_outcome inTd input pages n _ Inv Fail
    (fun _ _ _ _ _ inv healthy frame => ⟨inv.1, inv.2.1, inv.2.2.framed healthy frame⟩) step reading
    ⟨rfl, fun _ member => absurd member (List.not_mem_nil _), appending⟩ enough with
    ⟨groups, w', latest', ran, ⟨rfl, counts, appending'⟩, reading'⟩ | ⟨e, w', ran, rfl, big, latest', appending', reading'⟩
  · exact .inl ⟨w', latest', ran, counts, appending', reading'⟩
  · exact .inr ⟨big, w', latest', ran, appending', reading'⟩

theorem aggregate_scan_returns {aggIdx groupIdx : Nat} {w : World} {latest : PageId → Page} {l : List Tuple}
    (reading : Reading N input pages n w latest) (appending : Appending outTd output N w latest l)
    (fetch : ∀ t, Decoded inTd t → ∃ p, keyedValues inTd agg [t] = [p] ∧ ∀ groups,
      aggregateRecord agg aggIdx groupIdx groups t = if (groupAt p.1 groups).count < 2 ^ 31 - 1 then
        .ok (updateGroup p.1 (Aggregator.feed agg.op · p.2) groups) else .error countOverflow)
    (enough : (HeapFile.records inTd pages n).length < fuel)
    (small : (keyedValues inTd agg (HeapFile.records inTd pages n)).length < 2 ^ 31) :
    ∃ w' latest', World.foldRecords inTd input (fun groups t => liftExcept (aggregateRecord agg aggIdx groupIdx groups t))
        [] fuel w = .ok (groupAll agg.op (keyedValues inTd agg (HeapFile.records inTd pages n))) w' ∧
      Appending outTd output N w' latest' l ∧ Reading N input pages n w' latest' :=
  (aggregate_scan reading appending fetch enough).elim
    (fun ⟨w', latest', ran, _, appending', reading'⟩ => ⟨w', latest', ran, appending', reading'⟩)
    fun ⟨big, _⟩ => absurd small (not_lt.mpr big)

theorem insertGroups_appends {hasGroup : Bool} (apart : input ≠ output) (fits : 0 < heapCapacity outTd.length) :
    ∀ {groups : List (Field × Aggregator)} {rows : List Tuple} {w : World} {latest : PageId → Page} {l : List Tuple},
      groups.mapM (groupRow hasGroup) = .ok rows → (∀ row ∈ rows, Decoded outTd row) →
      Appending outTd output N w latest l → Reading N input pages n w latest →
      ∃ w' latest', insertGroups output outTd hasGroup groups w = .ok () w' ∧
        Appending outTd output N w' latest' (l ++ rows) ∧ Reading N input pages n w' latest'
  | [], rows, w, latest, l, built, _, appending, reading => by
    simp only [List.mapM_nil, except_pure, Except.ok.injEq] at built
    subst built
    exact ⟨w, latest, rfl, by simpa using appending, reading⟩
  | (key, ag) :: rest, rows, w, latest, l, built, decoded, appending, reading => by
    obtain ⟨row, rows', made, built', rfl⟩ := mapM_ok_cons built
    obtain ⟨v, result, rfl⟩ := groupRow_ok made
    have decodedRow := decoded _ (List.mem_cons_self _ _)
    obtain ⟨w₁, inserted⟩ := appending.insert_returns decodedRow.typed fits
    obtain ⟨latest₁, appending₁, keeps⟩ := appending.insert inserted
    rw [decodedRow.roundTrip] at appending₁
    obtain ⟨w', latest', ran, appending', reading'⟩ := insertGroups_appends apart fits built'
      (fun r member => decoded r (List.mem_cons_of_mem _ member)) appending₁ (keeps apart reading)
    refine ⟨w', latest', ?_, by simpa using appending', reading'⟩
    simp only [insertGroups, run_bind, result, run_liftExcept_ok, inserted, ran]

theorem insertGroups_throws {hasGroup : Bool} (apart : input ≠ output) (fits : 0 < heapCapacity outTd.length)
    {g : Field × Aggregator} {e : Error} (fails : g.2.result = .error e) (back : List (Field × Aggregator)) :
    ∀ {front : List (Field × Aggregator)} {rows : List Tuple} {w : World} {latest : PageId → Page} {l : List Tuple},
      front.mapM (groupRow hasGroup) = .ok rows → (∀ row ∈ rows, Decoded outTd row) →
      Appending outTd output N w latest l → Reading N input pages n w latest →
      ∃ w' latest', insertGroups output outTd hasGroup (front ++ g :: back) w = .error e w' ∧
        Appending outTd output N w' latest' (l ++ rows) ∧ Reading N input pages n w' latest'
  | [], rows, w, latest, l, built, _, appending, reading => by
    simp only [List.mapM_nil, except_pure, Except.ok.injEq] at built
    subst built
    exact ⟨w, latest, by simp [insertGroups, fails], by simpa using appending, reading⟩
  | (key, ag) :: rest, rows, w, latest, l, built, decoded, appending, reading => by
    obtain ⟨row, rows', made, built', rfl⟩ := mapM_ok_cons built
    obtain ⟨v, result, rfl⟩ := groupRow_ok made
    have decodedRow := decoded _ (List.mem_cons_self _ _)
    obtain ⟨w₁, inserted⟩ := appending.insert_returns decodedRow.typed fits
    obtain ⟨latest₁, appending₁, keeps⟩ := appending.insert inserted
    rw [decodedRow.roundTrip] at appending₁
    obtain ⟨w', latest', ran, appending', reading'⟩ := insertGroups_throws apart fits fails back built'
      (fun r member => decoded r (List.mem_cons_of_mem _ member)) appending₁ (keeps apart reading)
    refine ⟨w', latest', ?_, by simpa using appending', reading'⟩
    rw [List.cons_append]
    simp only [insertGroups, run_bind, result, run_liftExcept_ok, inserted, ran]

theorem groupAll_one_key {op : AggregateOp} {pairs : List (Field × Field)} {k : Field} (same : ∀ p ∈ pairs, p.1 = k)
    (nonempty : pairs ≠ []) : groupAll op pairs = [(k, Aggregator.feedAll op (pairs.map Prod.snd))] := by
  induction pairs using List.reverseRecOn with
  | nil => exact absurd rfl nonempty
  | append_singleton front p ih =>
    rw [groupAll_append, same p (by simp)]
    rcases eq_or_ne front [] with rfl | front'
    · rfl
    · rw [ih (fun q member => same q (by simp [member])) front']
      simp [updateGroup, fieldLt_irrefl, feedAll_append]

theorem aggregate_total_run {w : World} {latest : PageId → Page} {l : List Tuple} {ty : FieldType}
    (reading : Reading N input pages n w latest) (appending : Appending outTd output N w latest l)
    (ungrouped : agg.group = none) (valTyped : (inTd.names.zip inTd.types).lookup agg.field = some ty)
    (nonempty : HeapFile.records inTd pages n ≠ []) (enough : (HeapFile.records inTd pages n).length < fuel) :
    ∃ w₁ latest₁, Appending outTd output N w₁ latest₁ l ∧ Reading N input pages n w₁ latest₁ ∧
      (keyedValues inTd agg (HeapFile.records inTd pages n)).map Prod.snd ≠ [] ∧
      Query.aggregate input inTd output outTd agg fuel w =
        if ((keyedValues inTd agg (HeapFile.records inTd pages n)).map Prod.snd).length < 2 ^ 31 then
          insertGroups output outTd false [(.int 0,
            Aggregator.feedAll agg.op ((keyedValues inTd agg (HeapFile.records inTd pages n)).map Prod.snd))] w₁
        else .error countOverflow w₁ := by
  obtain ⟨i, found, foundIdx, field⟩ := inTd.indexOf_getField (known_of_lookup valTyped)
  have fetch := fun t (decoded : Decoded inTd t) => aggregateRecord_decoded 0 field
    (fun g' same => by rw [ungrouped] at same; cases same) decoded
  obtain ⟨t, rest, records⟩ := List.exists_cons_of_ne_nil nonempty
  obtain ⟨p, single, -⟩ := fetch t (decoded_records (records ▸ List.mem_cons_self t rest))
  have some : keyedValues inTd agg (HeapFile.records inTd pages n) ≠ [] := by
    rw [records, ← List.singleton_append, keyedValues_append, single]
    exact List.cons_ne_nil _ _
  have keys : ∀ p ∈ keyedValues inTd agg (HeapFile.records inTd pages n), p.1 = .int 0 := fun p member => by
    obtain ⟨-, -, -, -, zero⟩ := mem_keyedValues member
    exact zero ungrouped
  have scan := aggregate_scan reading appending fetch enough
  rw [groupAll_one_key keys some] at scan
  rcases scan with ⟨w₁, latest₁, scanned, counts, appending₁, reading₁⟩ | ⟨big, w₁, latest₁, scanned, appending₁, reading₁⟩
  · have small := counts _ (List.mem_singleton_self _)
    rw [feedAll_count] at small
    refine ⟨w₁, latest₁, appending₁, reading₁, by simpa using some, ?_⟩
    rw [if_pos small]
    simp only [Query.aggregate, run_bind, found, run_liftExcept_ok, inTd.fieldType_ok foundIdx valTyped, ungrouped,
      run_pure, scanned]
    simp
  · refine ⟨w₁, latest₁, appending₁, reading₁, by simpa using some, ?_⟩
    rw [if_neg (by rw [List.length_map]; omega)]
    simp only [Query.aggregate, run_bind, found, run_liftExcept_ok, inTd.fieldType_ok foundIdx valTyped, ungrouped,
      run_pure, scanned]

-- db::aggregate with no GROUP BY over records whose result is defined appends its row.
theorem aggregate_total_appends {w : World} {latest : PageId → Page} {l : List Tuple} {ty : FieldType} {r : Field}
    (apart : input ≠ output) (reading : Reading N input pages n w latest)
    (appending : Appending outTd output N w latest l) (ungrouped : agg.group = none)
    (valTyped : (inTd.names.zip inTd.types).lookup agg.field = some ty)
    (typed : outTd.types = [resultType agg.op ty]) (fits : 0 < heapCapacity outTd.length)
    (nonempty : HeapFile.records inTd pages n ≠ []) (enough : (HeapFile.records inTd pages n).length < fuel)
    (result : (Aggregator.tally agg.op ((keyedValues inTd agg (HeapFile.records inTd pages n)).map Prod.snd) >>=
      Aggregator.result) = .ok r) :
    ∃ w' latest', Query.aggregate input inTd output outTd agg fuel w = .ok () w' ∧
      Appending outTd output N w' latest' (l ++ [[r]]) ∧ Reading N input pages n w' latest' := by
  obtain ⟨w₁, latest₁, appending₁, reading₁, values, ran⟩ :=
    aggregate_total_run reading appending ungrouped valTyped nonempty enough
  rw [tally_bind_result] at result
  split at result
  · rename_i small
    rw [if_pos small] at ran
    obtain ⟨rType, rStored⟩ := feedAll_result_typed values (fun v member => by
      obtain ⟨q, member', rfl⟩ := List.mem_map.mp member
      exact (keyedValues_typed (fun _ inside => decoded_records inside) valTyped member').2) result
    have decoded : Decoded outTd [r] := ⟨(compatible_iff outTd _).mpr (by simp [typed, rType]), by simp [rStored]⟩
    have built : [(Field.int 0, Aggregator.feedAll agg.op ((keyedValues inTd agg (HeapFile.records inTd pages n)).map
        Prod.snd))].mapM (groupRow false) = .ok [[r]] := by
      simp only [List.mapM_cons, List.mapM_nil, groupRow, result, except_ok_bind, except_pure, Bool.false_eq_true,
        if_false, List.nil_append]
    obtain ⟨w', latest', inserted, appending', reading'⟩ := insertGroups_appends apart fits built
      (by simpa using decoded) appending₁ reading₁
    exact ⟨w', latest', ran.trans inserted, appending', reading'⟩
  · cases result

theorem aggregate_total_count :
    ∃ w' latest', Query.aggregate "p" pairSchema "out" countOnly countAll 3 aggWorld = .ok () w' ∧
      Appending countOnly "out" 1 w' latest' ([] ++ [[.int 1]]) ∧
      Reading 1 "p" (World.pagesOf aggWorld.stored "p") 1 w' latest' :=
  aggregate_total_appends (by decide) ⟨aggWorld_healthy, rfl, rfl⟩ (.empty aggWorld_healthy rfl rfl fun _ => rfl)
    rfl rfl rfl (by decide) (by decide) (by decide) rfl

-- db::aggregate with no GROUP BY over records whose Aggregator throws (count++ past
-- INT_MAX, or a SUM outside int's range) throws it with nothing appended.
theorem aggregate_total_throws {w : World} {latest : PageId → Page} {l : List Tuple} {ty : FieldType} {e : Error}
    (apart : input ≠ output) (reading : Reading N input pages n w latest)
    (appending : Appending outTd output N w latest l) (ungrouped : agg.group = none)
    (valTyped : (inTd.names.zip inTd.types).lookup agg.field = some ty) (fits : 0 < heapCapacity outTd.length)
    (nonempty : HeapFile.records inTd pages n ≠ []) (enough : (HeapFile.records inTd pages n).length < fuel)
    (fails : (Aggregator.tally agg.op ((keyedValues inTd agg (HeapFile.records inTd pages n)).map Prod.snd) >>=
      Aggregator.result) = .error e) :
    ∃ w' latest', Query.aggregate input inTd output outTd agg fuel w = .error e w' ∧
      Appending outTd output N w' latest' l ∧ Reading N input pages n w' latest' := by
  obtain ⟨w₁, latest₁, appending₁, reading₁, -, ran⟩ :=
    aggregate_total_run reading appending ungrouped valTyped nonempty enough
  rw [tally_bind_result] at fails
  split at fails
  · rename_i small
    rw [if_pos small] at ran
    have none : ([] : List (Field × Aggregator)).mapM (groupRow false) = .ok [] := rfl
    obtain ⟨w', latest', stopped, appending', reading'⟩ := insertGroups_throws apart fits
      (g := (.int 0, Aggregator.feedAll agg.op ((keyedValues inTd agg (HeapFile.records inTd pages n)).map Prod.snd)))
      fails [] none (fun _ member => by cases member) appending₁ reading₁
    exact ⟨w', latest', ran.trans stopped, by simpa using appending', reading'⟩
  · rename_i big
    rw [if_neg big] at ran
    cases fails
    exact ⟨w₁, latest₁, ran, appending₁, reading₁⟩

theorem aggregate_sum_overflows :
    ∃ w' latest', Query.aggregate "s" countSchema "out" countOnly sumAll 3 sumWorld =
        .error (.undefined "static_cast<int> of a double outside int's range") w' ∧
      Appending countOnly "out" 1 w' latest' [] ∧ Reading 1 "s" (World.pagesOf sumWorld.stored "s") 1 w' latest' := by
  have values : (keyedValues countSchema sumAll (HeapFile.records countSchema (World.pagesOf sumWorld.stored "s") 1)).map
      Prod.snd = [.int 0x7FFFFFFF, .int 1] := by decide
  have fails : (Aggregator.tally sumAll.op ((keyedValues countSchema sumAll
      (HeapFile.records countSchema (World.pagesOf sumWorld.stored "s") 1)).map Prod.snd) >>= Aggregator.result) =
      .error (.undefined "static_cast<int> of a double outside int's range") := by
    rw [values]
    set_option exponentiation.threshold 2000 in set_option maxRecDepth 100000 in rfl
  exact aggregate_total_throws (by decide) ⟨sumWorld_healthy, rfl, rfl⟩ (.empty sumWorld_healthy rfl rfl fun _ => rfl)
    rfl rfl (by decide) (by decide) (by decide) fails

theorem emptyRow_decoded {op : AggregateOp} {ty : FieldType}
    (plain : ¬((op = .min ∨ op = .max) ∧ ty = .char ∨ op = .sum ∧ ty = .int))
    (typed : outTd.types = [resultType op ty]) : Decoded outTd (emptyRow op (ty = .int)) := by
  refine ⟨(compatible_iff outTd _).mpr ?_, ?_⟩ <;> cases op <;> cases ty <;>
    simp_all [emptyRow, resultType, Field.fieldType, Field.stored]

theorem emptyRow_incompatible {op : AggregateOp} {ty : FieldType}
    (refused : (op = .min ∨ op = .max) ∧ ty = .char ∨ op = .sum ∧ ty = .int)
    (typed : outTd.types = [resultType op ty]) : outTd.compatible (emptyRow op (ty = .int)) = false := by
  rw [Bool.eq_false_iff, ne_eq, compatible_iff, typed]
  rcases refused with ⟨extreme | extreme, rfl⟩ | ⟨rfl, rfl⟩
  all_goals first | subst extreme | skip
  all_goals simp [emptyRow, resultType, Field.fieldType]

theorem aggregate_empty_run {w : World} {latest : PageId → Page} {l : List Tuple} {ty : FieldType}
    (reading : Reading N input pages n w latest) (appending : Appending outTd output N w latest l)
    (ungrouped : agg.group = none) (valTyped : (inTd.names.zip inTd.types).lookup agg.field = some ty)
    (empty : HeapFile.records inTd pages n = []) (enough : 0 < fuel) :
    ∃ w₁ latest₁, Appending outTd output N w₁ latest₁ l ∧ Reading N input pages n w₁ latest₁ ∧
      Query.aggregate input inTd output outTd agg fuel w = World.heapInsert outTd output (emptyRow agg.op (ty = .int)) w₁ := by
  obtain ⟨i, found, foundIdx, field⟩ := inTd.indexOf_getField (known_of_lookup valTyped)
  obtain ⟨w₁, latest₁, scanned, appending₁, reading₁⟩ := aggregate_scan_returns reading appending
    (fun t decoded => aggregateRecord_decoded 0 field (fun g' same => by rw [ungrouped] at same; cases same) decoded)
    (by rw [empty]; exact enough) (by rw [empty]; exact Nat.two_pow_pos 31)
  rw [empty] at scanned
  refine ⟨w₁, latest₁, appending₁, reading₁, ?_⟩
  simp only [Query.aggregate, run_bind, found, run_liftExcept_ok, inTd.fieldType_ok foundIdx valTyped, ungrouped,
    run_pure, scanned]
  rfl

-- db::aggregate with no GROUP BY over no records appends the default row, but for MIN and
-- MAX over strings and SUM over ints, whose default rows the output refuses.
theorem aggregate_empty_input {w : World} {latest : PageId → Page} {l : List Tuple} {ty : FieldType}
    (apart : input ≠ output) (reading : Reading N input pages n w latest)
    (appending : Appending outTd output N w latest l) (ungrouped : agg.group = none)
    (valTyped : (inTd.names.zip inTd.types).lookup agg.field = some ty)
    (typed : outTd.types = [resultType agg.op ty]) (fits : 0 < heapCapacity outTd.length)
    (empty : HeapFile.records inTd pages n = []) (enough : 0 < fuel) :
    if (agg.op = .min ∨ agg.op = .max) ∧ ty = .char ∨ agg.op = .sum ∧ ty = .int then
      ∃ w', Query.aggregate input inTd output outTd agg fuel w =
        .error (.logic "HeapFile::insertTuple: tuple not compatible with schema") w'
    else ∃ w' latest', Query.aggregate input inTd output outTd agg fuel w = .ok () w' ∧
      Appending outTd output N w' latest' (l ++ [emptyRow agg.op (ty = .int)]) ∧ Reading N input pages n w' latest' := by
  obtain ⟨w₁, latest₁, appending₁, reading₁, run⟩ := aggregate_empty_run reading appending ungrouped valTyped empty enough
  split_ifs with refused
  · exact ⟨w₁, by rw [run, heapInsert_incompatible (emptyRow_incompatible refused typed)]⟩
  · have decoded := emptyRow_decoded refused typed
    obtain ⟨w', inserted⟩ := appending₁.insert_returns decoded.typed fits
    obtain ⟨latest', appending', keeps⟩ := appending₁.insert inserted
    rw [decoded.roundTrip] at appending'
    exact ⟨w', latest', by rw [run, inserted], appending', keeps apart reading₁⟩

theorem aggregate_empty_min_string :
    if (minBody.op = .min ∨ minBody.op = .max) ∧ FieldType.char = .char ∨ minBody.op = .sum ∧ FieldType.char = .int then
      ∃ w', Query.aggregate "none" rowSchema "out" rowSchema minBody 3 aggWorld =
        .error (.logic "HeapFile::insertTuple: tuple not compatible with schema") w'
    else ∃ w' latest', Query.aggregate "none" rowSchema "out" rowSchema minBody 3 aggWorld = .ok () w' ∧
      Appending rowSchema "out" 1 w' latest' ([] ++ [emptyRow minBody.op (FieldType.char = .int)]) ∧
      Reading 1 "none" (World.pagesOf aggWorld.stored "none") 0 w' latest' :=
  aggregate_empty_input (by decide) ⟨aggWorld_healthy, rfl, rfl⟩ (.empty aggWorld_healthy rfl rfl fun _ => rfl)
    rfl rfl rfl (by decide) rfl (by decide)

end Run

end PagedDb
