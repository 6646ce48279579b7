import PagedDb.QueryRun

namespace PagedDb

theorem takeWhile_stop {α : Type} {p : α → Bool} {front : List α} {a : α} (back : List α)
    (kept : ∀ x ∈ front, p x) (stop : p a = false) : (front ++ a :: back).takeWhile p = front := by
  rw [List.takeWhile_append_of_pos kept, List.takeWhile_cons_of_neg (by simp [stop]), List.append_nil]

section Stop
variable {c : Nat}

-- Where a query stops at the first row its output refuses, the rows before it appended.
def Stopped (outTd : TupleDesc c) (output : String) (N : Nat) (l rows : List Tuple) (e : Error) (w : World)
    (latest : PageId → Page) : Prop :=
  e = .logic "HeapFile::insertTuple: tuple not compatible with schema" ∧ (∃ t ∈ rows, outTd.compatible t = false) ∧
    Appending outTd output N w latest (l ++ rows.takeWhile outTd.compatible)

theorem stopped_at {outTd : TupleDesc c} {output : String} {N : Nat} {w : World} {latest : PageId → Page}
    {l front back : List Tuple} {t : Tuple} (appending : Appending outTd output N w latest (l ++ front))
    (refused : outTd.compatible t = false) :
    Stopped outTd output N l (front ++ t :: back) (.logic "HeapFile::insertTuple: tuple not compatible with schema") w
      latest := by
  refine ⟨rfl, ⟨t, by simp, refused⟩, ?_⟩
  rwa [takeWhile_stop back (fun x member => appending.compatible (List.mem_append_right l member)) refused]

-- A query's rows share one list of types: the output takes all of them or the first throws.
theorem outcome_uniform {outTd : TupleDesc c} {output : String} {N : Nat} {l rows : List Tuple}
    {run : EStateM.Result Error World Unit} {Q : World → (PageId → Page) → Prop} {typed : Prop} [Decidable typed]
    (same : ∀ t ∈ rows, outTd.compatible t = decide typed)
    (stops : ∃ w' latest', run = (if rows.all outTd.compatible then .ok () w'
        else .error (.logic "HeapFile::insertTuple: tuple not compatible with schema") w') ∧
      Appending outTd output N w' latest' (l ++ rows.takeWhile outTd.compatible) ∧ Q w' latest') :
    ∃ w' latest', run = (if typed ∨ rows = [] then .ok () w'
        else .error (.logic "HeapFile::insertTuple: tuple not compatible with schema") w') ∧
      Appending outTd output N w' latest' (if typed then l ++ rows else l) ∧ Q w' latest' := by
  obtain ⟨w', latest', ran, appending, holds⟩ := stops
  refine ⟨w', latest', ?_, ?_, holds⟩
  all_goals by_cases accepted : typed
  · have all : ∀ t ∈ rows, outTd.compatible t := fun t member => by simp [same t member, accepted]
    rw [ran, if_pos (List.all_eq_true.mpr all), if_pos (.inl accepted)]
  · cases rows with
    | nil => simpa using ran
    | cons r rest => simpa [accepted, same r (List.mem_cons_self r rest)] using ran
  · rwa [if_pos accepted, List.takeWhile_eq_self_iff.mpr fun t member => by simp [same t member, accepted]] at *
  · cases rows with
    | nil => simpa [accepted] using appending
    | cons r rest => simpa [accepted, same r (List.mem_cons_self r rest)] using appending

theorem Decoded.compatible_eq {td outTd : TupleDesc c} {t : Tuple} (decoded : Decoded td t) :
    outTd.compatible t = decide (outTd.types = td.types) := by
  rw [Bool.eq_iff_iff, decide_eq_true_iff, compatible_iff, (compatible_iff td t).mp decoded.typed, eq_comm]

end Stop

def insertRows {c : Nat} (td : TupleDesc c) (name : String) : List Tuple → EStateM Error World Unit
  | [] => pure ()
  | t :: rest => do
    World.heapInsert td name t
    insertRows td name rest

theorem insertRows_single {c : Nat} (td : TupleDesc c) (name : String) (t : Tuple) (w : World) :
    insertRows td name [t] w = World.heapInsert td name t w := by
  simp only [insertRows, run_bind, run_pure]
  split <;> simp_all

section Rows
variable {N c : Nat} {w : World} {latest : PageId → Page} {outTd : TupleDesc c} {output : String}
  {l : List Tuple} {fuel : Nat}

theorem insertRows_outcome (fits : 0 < heapCapacity outTd.length) {other : String} {pages : Nat → Page} {n : Nat}
    (apart : other ≠ output) (rows : List Tuple) (stable : ∀ r ∈ rows, r.map (Field.stored c) = r)
    {prior : List Tuple} (appending : Appending outTd output N w latest (l ++ prior))
    (reading : Reading N other pages n w latest) :
    (∃ w' latest', insertRows outTd output rows w = .ok () w' ∧
      Appending outTd output N w' latest' (l ++ prior ++ rows) ∧ Reading N other pages n w' latest') ∨
    ∃ w', insertRows outTd output rows w = .error (.logic "HeapFile::insertTuple: tuple not compatible with schema") w' ∧
      (∃ t ∈ rows, outTd.compatible t = false) ∧ ∃ latest',
        Appending outTd output N w' latest' (l ++ prior ++ rows.takeWhile outTd.compatible) ∧
        Reading N other pages n w' latest' := by
  induction rows generalizing prior w latest with
  | nil => exact .inl ⟨w, latest, rfl, by simpa using appending, reading⟩
  | cons r rest ih =>
    cases accepted : outTd.compatible r
    · exact .inr ⟨w, by simp [insertRows, heapInsert_incompatible accepted], ⟨r, List.mem_cons_self r rest, accepted⟩,
        latest, by simpa [accepted] using appending, reading⟩
    obtain ⟨w₁, inserted⟩ := appending.insert_returns accepted fits
    obtain ⟨latest₁, appending₁, keeps⟩ := appending.insert inserted
    rw [roundTrip_eq accepted, stable r (List.mem_cons_self r rest), List.append_assoc] at appending₁
    rcases ih (fun x member => stable x (List.mem_cons_of_mem r member)) appending₁ (keeps apart reading) with
      ⟨w', latest', ran, appending', reading'⟩ | ⟨w', ran, ⟨t, member, refused⟩, latest', appending', reading'⟩
    · exact .inl ⟨w', latest', by simp [insertRows, inserted, ran], by simpa using appending', reading'⟩
    · exact .inr ⟨w', by simp [insertRows, inserted, ran], ⟨t, List.mem_cons_of_mem r member, refused⟩, latest',
        by simpa [accepted] using appending', reading'⟩

theorem forEachRecord_inserts {input : String} {inTd : TupleDesc c} {pages : Nat → Page} {n : Nat}
    (apart : input ≠ output) (reading : Reading N input pages n w latest) (appending : Appending outTd output N w latest l)
    (fits : 0 < heapCapacity outTd.length) {body : Tuple → EStateM Error World Unit} (rowsOf : Tuple → List Tuple)
    (runs : ∀ t, Decoded inTd t → ∀ w, body t w = insertRows outTd output (rowsOf t) w)
    (stable : ∀ t, Decoded inTd t → ∀ r ∈ rowsOf t, r.map (Field.stored c) = r)
    (enough : (HeapFile.records inTd pages n).length < fuel) :
    ∃ w' latest', World.forEachRecord inTd input body fuel w =
        (if ((HeapFile.records inTd pages n).flatMap rowsOf).all outTd.compatible then .ok () w'
          else .error (.logic "HeapFile::insertTuple: tuple not compatible with schema") w') ∧
      Appending outTd output N w' latest' (l ++ ((HeapFile.records inTd pages n).flatMap rowsOf).takeWhile outTd.compatible) ∧
      Reading N input pages n w' latest' := by
  have loop := forEachRecord_outcome inTd input pages n body
    (fun done w latest => Appending outTd output N w latest (l ++ done.flatMap rowsOf))
    (fun e w' => ∃ latest', Stopped outTd output N l ((HeapFile.records inTd pages n).flatMap rowsOf) e w' latest' ∧
      Reading N input pages n w' latest')
    (fun _ _ _ _ appending healthy frame => appending.framed healthy frame) ?_ reading (by simpa using appending) enough
  · rcases loop with ⟨w', latest', ran, appending', reading'⟩ |
      ⟨e, w', ran, latest', ⟨rfl, ⟨t, member, refused⟩, appending'⟩, reading'⟩
    · have kept : ∀ t ∈ (HeapFile.records inTd pages n).flatMap rowsOf, outTd.compatible t :=
        fun t member => appending'.compatible (List.mem_append_right l member)
      exact ⟨w', latest', by rw [ran, if_pos (List.all_eq_true.mpr kept)], by rwa [List.takeWhile_eq_self_iff.mpr kept],
        reading'⟩
    · have refusing : ((HeapFile.records inTd pages n).flatMap rowsOf).all outTd.compatible = false :=
        List.all_eq_false.mpr ⟨t, member, by simp [refused]⟩
      exact ⟨w', latest', by rw [ran, if_neg (by simp [refusing])], appending', reading'⟩
  rintro done t rest w latest position decoded appending reading
  dsimp only
  rw [runs t decoded]
  rcases insertRows_outcome fits apart (rowsOf t) (stable t decoded) appending reading with
    ⟨w', latest', ran, appending', reading'⟩ | ⟨w', ran, ⟨r, member, refused⟩, latest', appending', reading'⟩
  · exact .inl ⟨w', latest', ran, by simpa using appending', reading'⟩
  · refine .inr ⟨_, w', ran, latest', ⟨rfl, ⟨r, ?_, refused⟩, ?_⟩, reading'⟩
    · rw [← position]; simp only [List.flatMap_append, List.flatMap_cons, List.mem_append]; exact .inr (.inl member)
    · have short : ((rowsOf t).takeWhile outTd.compatible).length ≠ (rowsOf t).length := fun same =>
        absurd ((List.takeWhile_eq_self_iff).mp ((List.takeWhile_prefix _).eq_of_length same) r member)
          (by simp [refused])
      rw [← position, List.flatMap_append, List.takeWhile_append_of_pos fun x inside =>
        appending.compatible (List.mem_append_right l inside), List.flatMap_cons, List.takeWhile_append, if_neg short,
        ← List.append_assoc]
      exact appending'

theorem flatMap_selected {c : Nat} (td : TupleDesc c) (preds : List FilterPredicate) (records : List Tuple) :
    records.flatMap (fun t => if preds.all (·.holds td t) then [t] else []) = selectRecords td preds records := by
  induction records with
  | nil => rfl
  | cons t rest ih => by_cases holds : preds.all (·.holds td t) <;> simp_all [selectRecords, List.filter_cons]

theorem filter_stops {input : String} {inTd : TupleDesc c} {pages : Nat → Page} {n : Nat}
    {preds : List FilterPredicate} (apart : input ≠ output) (reading : Reading N input pages n w latest)
    (appending : Appending outTd output N w latest l) (fits : 0 < heapCapacity outTd.length)
    (known : ∀ p ∈ preds, p.fieldName ∈ inTd.names) (enough : (HeapFile.records inTd pages n).length < fuel) :
    ∃ w' latest', Query.filter input inTd output outTd preds fuel w =
        (if (selectRecords inTd preds (HeapFile.records inTd pages n)).all outTd.compatible then .ok () w'
          else .error (.logic "HeapFile::insertTuple: tuple not compatible with schema") w') ∧
      Appending outTd output N w' latest'
        (l ++ (selectRecords inTd preds (HeapFile.records inTd pages n)).takeWhile outTd.compatible) ∧
      Reading N input pages n w' latest' := by
  obtain ⟨cached, mapped, passes⟩ := cachePred_satisfies known
  simp only [Query.filter, run_bind, mapped, run_liftExcept_ok]
  rw [← flatMap_selected]
  refine forEachRecord_inserts apart reading appending fits _ (fun t decoded w => ?_) (fun t decoded r member => ?_) enough
  · cases holds : preds.all (·.holds inTd t)
    · simp [passes t decoded, holds, insertRows]
    · simp [passes t decoded, holds, insertRows_single]
  · split at member
    · obtain rfl := List.mem_singleton.mp member
      exact decoded.stable
    · cases member

-- db::filter into an output of the input's types appends the records that meet every
-- predicate, in scan order.
theorem filter_appends {input : String} {inTd : TupleDesc c} {pages : Nat → Page} {n : Nat}
    {preds : List FilterPredicate} (apart : input ≠ output) (reading : Reading N input pages n w latest)
    (appending : Appending outTd output N w latest l) (typed : outTd.types = inTd.types)
    (fits : 0 < heapCapacity outTd.length) (known : ∀ p ∈ preds, p.fieldName ∈ inTd.names)
    (enough : (HeapFile.records inTd pages n).length < fuel) :
    ∃ w' latest', Query.filter input inTd output outTd preds fuel w = .ok () w' ∧
      Appending outTd output N w' latest' (l ++ selectRecords inTd preds (HeapFile.records inTd pages n)) ∧
      Reading N input pages n w' latest' := by
  obtain ⟨w', latest', ran, appending', reading'⟩ :=
    outcome_uniform (fun _ member => (decoded_records (List.mem_filter.mp member).1).compatible_eq)
      (filter_stops apart reading appending fits known enough)
  rw [if_pos (.inl typed)] at ran
  rw [if_pos typed] at appending'
  exact ⟨w', latest', ran, appending', reading'⟩

theorem filter_appends_rows :
    ∃ w' latest', Query.filter "t" rowSchema "out" rowSchema [⟨"body", .eq, .char [98]⟩] 3 queryWorld = .ok () w' ∧
      Appending rowSchema "out" 1 w' latest' [[.char [98]]] ∧
      Reading 1 "t" (World.pagesOf queryWorld.stored "t") 1 w' latest' := by
  have selected : [] ++ selectRecords rowSchema [⟨"body", .eq, .char [98]⟩]
      (HeapFile.records rowSchema (World.pagesOf queryWorld.stored "t") 1) = [[.char [98]]] := by decide
  rw [← selected]
  exact filter_appends (by decide) ⟨queryWorld_healthy, rfl, rfl⟩ queryWorld_out rfl (by decide) (by decide) (by decide)

-- db::filter into any output: the selected records are appended if the types match,
-- else the first selected one throws with nothing appended.
theorem filter_outcome {input : String} {inTd : TupleDesc c} {pages : Nat → Page} {n : Nat}
    {preds : List FilterPredicate} (apart : input ≠ output) (reading : Reading N input pages n w latest)
    (appending : Appending outTd output N w latest l) (fits : 0 < heapCapacity outTd.length)
    (known : ∀ p ∈ preds, p.fieldName ∈ inTd.names) (enough : (HeapFile.records inTd pages n).length < fuel) :
    ∃ w' latest', Query.filter input inTd output outTd preds fuel w =
        (if outTd.types = inTd.types ∨ selectRecords inTd preds (HeapFile.records inTd pages n) = [] then .ok () w'
          else .error (.logic "HeapFile::insertTuple: tuple not compatible with schema") w') ∧
      Appending outTd output N w' latest'
        (if outTd.types = inTd.types then l ++ selectRecords inTd preds (HeapFile.records inTd pages n) else l) ∧
      Reading N input pages n w' latest' :=
  outcome_uniform (fun _ member => (decoded_records (List.mem_filter.mp member).1).compatible_eq)
    (filter_stops apart reading appending fits known enough)

def numberSchema : TupleDesc 1000 := ⟨[.int], ["n"], rfl, by decide⟩

theorem filter_into_numbers :
    ∃ w' latest', Query.filter "t" rowSchema "out" numberSchema [⟨"body", .eq, .char [98]⟩] 3 queryWorld =
        .error (.logic "HeapFile::insertTuple: tuple not compatible with schema") w' ∧
      Appending numberSchema "out" 1 w' latest' [] ∧ Reading 1 "t" (World.pagesOf queryWorld.stored "t") 1 w' latest' := by
  obtain ⟨w', latest', ran, appending, reading⟩ := @filter_outcome 1 1000 queryWorld queryWorld.stored numberSchema
    "out" [] 3 "t" rowSchema (World.pagesOf queryWorld.stored "t") 1 [⟨"body", .eq, .char [98]⟩] (by decide)
    ⟨queryWorld_healthy, rfl, rfl⟩ (.empty queryWorld_healthy rfl rfl fun _ => rfl) (by decide) (by decide) (by decide)
  rw [if_neg (by decide)] at ran appending
  exact ⟨w', latest', ran, appending, reading⟩

theorem flatMap_picked {c : Nat} (td : TupleDesc c) (wanted : List String) (records : List Tuple) :
    records.flatMap (fun t => [pickFields td.names wanted t]) = projectRecords td wanted records := by
  induction records with
  | nil => rfl
  | cons t rest ih => simp_all [projectRecords]

theorem projected_compatible_eq {inTd : TupleDesc c} {wanted : List String} {records : List Tuple}
    (decoded : ∀ t ∈ records, Decoded inTd t) :
    ∀ r ∈ projectRecords inTd wanted records,
      outTd.compatible r = decide (outTd.types = pickFields inTd.names wanted inTd.types) := fun r member => by
  obtain ⟨t, recorded, rfl⟩ := List.mem_map.mp member
  rw [Bool.eq_iff_iff, decide_eq_true_iff, compatible_iff, pickFields_map,
    (compatible_iff inTd t).mp (decoded t recorded).typed, eq_comm]

theorem projection_stops {input : String} {inTd : TupleDesc c} {pages : Nat → Page} {n : Nat}
    {wanted : List String} (apart : input ≠ output) (reading : Reading N input pages n w latest)
    (appending : Appending outTd output N w latest l) (fits : 0 < heapCapacity outTd.length)
    (known : ∀ name ∈ wanted, name ∈ inTd.names) (enough : (HeapFile.records inTd pages n).length < fuel) :
    ∃ w' latest', Query.projection input inTd output outTd wanted fuel w =
        (if (projectRecords inTd wanted (HeapFile.records inTd pages n)).all outTd.compatible then .ok () w'
          else .error (.logic "HeapFile::insertTuple: tuple not compatible with schema") w') ∧
      Appending outTd output N w' latest'
        (l ++ (projectRecords inTd wanted (HeapFile.records inTd pages n)).takeWhile outTd.compatible) ∧
      Reading N input pages n w' latest' := by
  obtain ⟨indices, mapped, fetched⟩ := indexOf_pickFields known
  simp only [Query.projection, run_bind, mapped, run_liftExcept_ok]
  rw [← flatMap_picked]
  refine forEachRecord_inserts apart reading appending fits _ (fun t decoded w => ?_) (fun t decoded r member => ?_) enough
  · simp only [run_bind, fetched t decoded, run_liftExcept_ok, insertRows_single]
  · obtain rfl := List.mem_singleton.mp member
    rw [pickFields_map, decoded.stable]

-- db::projection appends each record cut to the named fields, in scan order.
theorem projection_appends {input : String} {inTd : TupleDesc c} {pages : Nat → Page} {n : Nat}
    {wanted : List String} (apart : input ≠ output) (reading : Reading N input pages n w latest)
    (appending : Appending outTd output N w latest l) (typed : outTd.types = pickFields inTd.names wanted inTd.types)
    (fits : 0 < heapCapacity outTd.length) (known : ∀ name ∈ wanted, name ∈ inTd.names)
    (enough : (HeapFile.records inTd pages n).length < fuel) :
    ∃ w' latest', Query.projection input inTd output outTd wanted fuel w = .ok () w' ∧
      Appending outTd output N w' latest' (l ++ projectRecords inTd wanted (HeapFile.records inTd pages n)) ∧
      Reading N input pages n w' latest' := by
  obtain ⟨w', latest', ran, appending', reading'⟩ :=
    outcome_uniform (projected_compatible_eq fun _ member => decoded_records member)
      (projection_stops apart reading appending fits known enough)
  rw [if_pos (.inl typed)] at ran
  rw [if_pos typed] at appending'
  exact ⟨w', latest', ran, appending', reading'⟩

theorem projection_appends_swapped :
    ∃ w' latest', Query.projection "p" pairSchema "out" (⟨[.char, .char], ["v", "k"], rfl, by decide⟩ : TupleDesc 1000)
        ["v", "k"] 3 queryWorld = .ok () w' ∧
      Appending (⟨[.char, .char], ["v", "k"], rfl, by decide⟩ : TupleDesc 1000) "out" 1 w' latest'
        [[.char [120], .char [97]]] ∧
      Reading 1 "p" (World.pagesOf queryWorld.stored "p") 1 w' latest' := by
  have projected : [] ++ projectRecords pairSchema ["v", "k"]
      (HeapFile.records pairSchema (World.pagesOf queryWorld.stored "p") 1) = [[.char [120], .char [97]]] := by decide
  rw [← projected]
  exact projection_appends (by decide) ⟨queryWorld_healthy, rfl, rfl⟩ (.empty queryWorld_healthy rfl rfl fun _ => rfl)
    rfl (by decide) (by decide) (by decide)

-- db::projection into any output: the cut records are appended if the types match, else
-- the first one throws with nothing appended.
theorem projection_outcome {input : String} {inTd : TupleDesc c} {pages : Nat → Page} {n : Nat}
    {wanted : List String} (apart : input ≠ output) (reading : Reading N input pages n w latest)
    (appending : Appending outTd output N w latest l) (fits : 0 < heapCapacity outTd.length)
    (known : ∀ name ∈ wanted, name ∈ inTd.names) (enough : (HeapFile.records inTd pages n).length < fuel) :
    ∃ w' latest', Query.projection input inTd output outTd wanted fuel w =
        (if outTd.types = pickFields inTd.names wanted inTd.types ∨
            projectRecords inTd wanted (HeapFile.records inTd pages n) = [] then .ok () w'
          else .error (.logic "HeapFile::insertTuple: tuple not compatible with schema") w') ∧
      Appending outTd output N w' latest' (if outTd.types = pickFields inTd.names wanted inTd.types then
        l ++ projectRecords inTd wanted (HeapFile.records inTd pages n) else l) ∧
      Reading N input pages n w' latest' :=
  outcome_uniform (projected_compatible_eq fun _ member => decoded_records member)
    (projection_stops apart reading appending fits known enough)

theorem projection_into_rows :
    ∃ w' latest', Query.projection "p" pairSchema "out" rowSchema ["v", "k"] 3 queryWorld =
        .error (.logic "HeapFile::insertTuple: tuple not compatible with schema") w' ∧
      Appending rowSchema "out" 1 w' latest' [] ∧ Reading 1 "p" (World.pagesOf queryWorld.stored "p") 1 w' latest' := by
  obtain ⟨w', latest', ran, appending, reading⟩ := @projection_outcome 1 1000 queryWorld queryWorld.stored rowSchema
    "out" [] 3 "p" pairSchema (World.pagesOf queryWorld.stored "p") 1 ["v", "k"] (by decide)
    ⟨queryWorld_healthy, rfl, rfl⟩ queryWorld_out (by decide) (by decide) (by decide)
  rw [if_neg (by decide)] at ran appending
  exact ⟨w', latest', ran, appending, reading⟩

end Rows

section Join
variable {N c : Nat} {w : World} {latest : PageId → Page} {outTd : TupleDesc c} {output : String}
  {l : List Tuple} {fuel : Nat} {left right : String} {leftTd rightTd : TupleDesc c} {pred : JoinPredicate}
  {leftPages rightPages : Nat → Page} {leftN rightN : Nat}

theorem joinRecords_around {doneL restL doneR restR : List Tuple} {lrec r : Tuple}
    (matched : pred.holds leftTd rightTd lrec r = true) :
    joinRecords leftTd rightTd pred (doneL ++ lrec :: restL) (doneR ++ r :: restR) =
      (joinRecords leftTd rightTd pred doneL (doneR ++ r :: restR) ++
        (doneR.filter (pred.holds leftTd rightTd lrec)).map (joinRecord rightTd pred lrec)) ++
      joinRecord rightTd pred lrec r :: ((restR.filter (pred.holds leftTd rightTd lrec)).map (joinRecord rightTd pred lrec) ++
        joinRecords leftTd rightTd pred restL (doneR ++ r :: restR)) := by
  simp [joinRecords, List.filter_append, List.filter_cons, matched]

theorem joinMatches_outcome (apartLeft : left ≠ output) (apartRight : right ≠ output)
    (fits : 0 < heapCapacity outTd.length) {rightIdx : Nat} (foundRight : rightTd.names.indexOf? pred.right = some rightIdx)
    (fieldRight : ∀ r, Decoded rightTd r → ∃ b, getField r rightIdx = .ok b ∧ (rightTd.names.zip r).lookup pred.right = some b)
    {doneL restL : List Tuple} {lrec : Tuple}
    (position : doneL ++ lrec :: restL = HeapFile.records leftTd leftPages leftN) {leftVal : Field}
    (lookLeft : (leftTd.names.zip lrec).lookup pred.left = some leftVal)
    (readingRight : Reading N right rightPages rightN w latest) (readingLeft : Reading N left leftPages leftN w latest)
    (appending : Appending outTd output N w latest
      (l ++ joinRecords leftTd rightTd pred doneL (HeapFile.records rightTd rightPages rightN)))
    (enough : (HeapFile.records rightTd rightPages rightN).length < fuel) :
    (∃ w' latest', Query.joinMatches right rightTd output outTd pred rightIdx lrec leftVal fuel w = .ok () w' ∧
      (Appending outTd output N w' latest'
        (l ++ joinRecords leftTd rightTd pred (doneL ++ [lrec]) (HeapFile.records rightTd rightPages rightN)) ∧
        Reading N left leftPages leftN w' latest') ∧ Reading N right rightPages rightN w' latest') ∨
    ∃ e w', Query.joinMatches right rightTd output outTd pred rightIdx lrec leftVal fuel w = .error e w' ∧
      ∃ latest', Stopped outTd output N l (joinRecords leftTd rightTd pred (HeapFile.records leftTd leftPages leftN)
        (HeapFile.records rightTd rightPages rightN)) e w' latest' ∧
        Reading N left leftPages leftN w' latest' ∧ Reading N right rightPages rightN w' latest' := by
  have decodedLeft : Decoded leftTd lrec := decoded_records (position ▸ List.mem_append_right doneL (List.mem_cons_self _ _))
  unfold Query.joinMatches
  refine (forEachRecord_outcome rightTd right rightPages rightN _
    (fun done w latest => Appending outTd output N w latest
      (l ++ joinRecords leftTd rightTd pred doneL (HeapFile.records rightTd rightPages rightN) ++
        (done.filter (pred.holds leftTd rightTd lrec)).map (joinRecord rightTd pred lrec)) ∧
      Reading N left leftPages leftN w latest)
    (fun e w' => ∃ latest', Stopped outTd output N l (joinRecords leftTd rightTd pred
      (HeapFile.records leftTd leftPages leftN) (HeapFile.records rightTd rightPages rightN)) e w' latest' ∧
        Reading N left leftPages leftN w' latest' ∧ Reading N right rightPages rightN w' latest')
    (fun _ _ _ _ ⟨appending, reading⟩ healthy frame => ⟨appending.framed healthy frame, reading.framed healthy frame⟩)
    ?_ readingRight ⟨by simpa using appending, readingLeft⟩ enough).imp
    (fun ⟨w', latest', ran, ⟨appending', readingLeft'⟩, readingRight'⟩ =>
      ⟨w', latest', ran, ⟨by rwa [joinRecords_snoc, ← List.append_assoc], readingLeft'⟩, readingRight'⟩) id
  rintro doneR r restR w latest positionRight decodedRight ⟨appending, readingLeft⟩ readingRight
  dsimp only
  obtain ⟨b, got, lookRight⟩ := fieldRight r decodedRight
  have holds : pred.holds leftTd rightTd lrec r = compareFields leftVal b pred.op := by
    simp [JoinPredicate.holds, lookLeft, lookRight]
  have joined : joinFields pred.op rightIdx lrec r = joinRecord rightTd pred lrec r := by
    rw [joinFields, joinRecord, dropField_eraseIdx rightTd.distinct foundRight decodedRight.length]
  rw [List.filter_append, List.filter_cons, List.filter_nil, holds]
  cases compare : compareFields leftVal b pred.op
  · exact .inl ⟨w, latest, by simp [got, compare], ⟨by simpa using appending, readingLeft⟩, readingRight⟩
  cases accepted : outTd.compatible (joinRecord rightTd pred lrec r)
  · refine .inr ⟨.logic "HeapFile::insertTuple: tuple not compatible with schema", w,
      by simp [got, compare, joined, heapInsert_incompatible accepted], latest, ?_, readingLeft, readingRight⟩
    rw [← position, ← positionRight, joinRecords_around (holds.trans compare)]
    rw [← positionRight] at appending
    exact stopped_at (by simpa using appending) accepted
  · obtain ⟨w', inserted⟩ := appending.insert_returns accepted fits
    obtain ⟨latest', appending', keeps⟩ := appending.insert inserted
    refine .inl ⟨w', latest', by simp [got, compare, joined, inserted], ⟨?_, keeps apartLeft readingLeft⟩,
      keeps apartRight readingRight⟩
    rw [roundTrip_eq accepted, joinRecord_stable decodedLeft.stable decodedRight.stable] at appending'
    simpa using appending'

theorem join_stops (apartLeft : left ≠ output) (apartRight : right ≠ output)
    (readingLeft : Reading N left leftPages leftN w latest) (readingRight : Reading N right rightPages rightN w latest)
    (appending : Appending outTd output N w latest l) (fits : 0 < heapCapacity outTd.length)
    (knownLeft : pred.left ∈ leftTd.names) (knownRight : pred.right ∈ rightTd.names)
    (enoughLeft : (HeapFile.records leftTd leftPages leftN).length < fuel)
    (enoughRight : (HeapFile.records rightTd rightPages rightN).length < fuel) :
    ∃ w' latest', Query.join left leftTd right rightTd output outTd pred fuel w =
        (if (joinRecords leftTd rightTd pred (HeapFile.records leftTd leftPages leftN)
            (HeapFile.records rightTd rightPages rightN)).all outTd.compatible then .ok () w'
          else .error (.logic "HeapFile::insertTuple: tuple not compatible with schema") w') ∧
      Appending outTd output N w' latest' (l ++ (joinRecords leftTd rightTd pred (HeapFile.records leftTd leftPages leftN)
        (HeapFile.records rightTd rightPages rightN)).takeWhile outTd.compatible) ∧
      Reading N left leftPages leftN w' latest' ∧ Reading N right rightPages rightN w' latest' := by
  obtain ⟨leftIdx, foundLeft, -, fieldLeft⟩ := leftTd.indexOf_getField knownLeft
  obtain ⟨rightIdx, gotRight, foundRight, fieldRight⟩ := rightTd.indexOf_getField knownRight
  have entered : Query.join left leftTd right rightTd output outTd pred fuel w = World.forEachRecord leftTd left
      (fun lrec => do
        Query.joinMatches right rightTd output outTd pred rightIdx lrec (← liftExcept (getField lrec leftIdx)) fuel)
      fuel w := by
    simp only [Query.join, run_bind, foundLeft, gotRight, run_liftExcept_ok]
  have loop := forEachRecord_outcome leftTd left leftPages leftN (fun lrec => do
      Query.joinMatches right rightTd output outTd pred rightIdx lrec (← liftExcept (getField lrec leftIdx)) fuel)
    (fun done w latest => Appending outTd output N w latest
      (l ++ joinRecords leftTd rightTd pred done (HeapFile.records rightTd rightPages rightN)) ∧
      Reading N right rightPages rightN w latest)
    (fun e w' => ∃ latest', Stopped outTd output N l (joinRecords leftTd rightTd pred
      (HeapFile.records leftTd leftPages leftN) (HeapFile.records rightTd rightPages rightN)) e w' latest' ∧
        Reading N left leftPages leftN w' latest' ∧ Reading N right rightPages rightN w' latest')
    (fun _ _ _ _ ⟨appending, reading⟩ healthy frame => ⟨appending.framed healthy frame, reading.framed healthy frame⟩)
    ?_ readingLeft ⟨by simpa [joinRecords] using appending, readingRight⟩ enoughLeft
  · rcases loop with ⟨w', latest', ran, ⟨appending', readingRight'⟩, readingLeft'⟩ |
      ⟨e, w', ran, latest', ⟨rfl, ⟨t, member, refused⟩, appending'⟩, readingLeft', readingRight'⟩
    · have kept : ∀ t ∈ joinRecords leftTd rightTd pred (HeapFile.records leftTd leftPages leftN)
          (HeapFile.records rightTd rightPages rightN), outTd.compatible t :=
        fun t member => appending'.compatible (List.mem_append_right l member)
      refine ⟨w', latest', by rw [entered, ran, if_pos (List.all_eq_true.mpr kept)], ?_, readingLeft', readingRight'⟩
      rwa [List.takeWhile_eq_self_iff.mpr kept]
    · have refusing : (joinRecords leftTd rightTd pred (HeapFile.records leftTd leftPages leftN)
          (HeapFile.records rightTd rightPages rightN)).all outTd.compatible = false :=
        List.all_eq_false.mpr ⟨t, member, by simp [refused]⟩
      exact ⟨w', latest', by rw [entered, ran, if_neg (by simp [refusing])], appending', readingLeft', readingRight'⟩
  rintro done lrec rest w latest position decodedLeft ⟨appending, readingRight⟩ readingLeft
  obtain ⟨leftVal, got, lookLeft⟩ := fieldLeft lrec decodedLeft
  simp only [run_bind, got, run_liftExcept_ok]
  exact (joinMatches_outcome apartLeft apartRight fits foundRight fieldRight position lookLeft readingRight readingLeft
    appending enoughRight).imp (fun ⟨w', latest', ran, ⟨appending', readingLeft'⟩, readingRight'⟩ =>
      ⟨w', latest', ran, ⟨appending', readingRight'⟩, readingLeft'⟩) id

theorem joinRecord_types {lrec r : Tuple} (decodedLeft : Decoded leftTd lrec) (decodedRight : Decoded rightTd r) :
    (joinRecord rightTd pred lrec r).map Field.fieldType =
      leftTd.types ++ if pred.op = .eq then dropField rightTd.names pred.right rightTd.types else rightTd.types := by
  rw [joinRecord, List.map_append, (compatible_iff leftTd lrec).mp decodedLeft.typed]
  split <;> simp only [dropField_map, (compatible_iff rightTd r).mp decodedRight.typed]

theorem joined_compatible_eq {lefts rights : List Tuple} (decodedLeft : ∀ t ∈ lefts, Decoded leftTd t)
    (decodedRight : ∀ t ∈ rights, Decoded rightTd t) :
    ∀ t ∈ joinRecords leftTd rightTd pred lefts rights, outTd.compatible t = decide (outTd.types = leftTd.types ++
      (if pred.op = .eq then dropField rightTd.names pred.right rightTd.types else rightTd.types)) := fun t member => by
  obtain ⟨lrec, leftMember, joined⟩ := List.mem_flatMap.mp member
  obtain ⟨r, rightMember, rfl⟩ := List.mem_map.mp joined
  rw [Bool.eq_iff_iff, decide_eq_true_iff, compatible_iff,
    joinRecord_types (decodedLeft lrec leftMember) (decodedRight r (List.mem_filter.mp rightMember).1), eq_comm]

-- db::join appends, for each left record in scan order, its matching pairs in the right
-- file's order, an equi-join keeping one copy of the join column.
theorem join_appends (apartLeft : left ≠ output) (apartRight : right ≠ output)
    (readingLeft : Reading N left leftPages leftN w latest) (readingRight : Reading N right rightPages rightN w latest)
    (appending : Appending outTd output N w latest l)
    (typed : outTd.types = leftTd.types ++ if pred.op = .eq then dropField rightTd.names pred.right rightTd.types
      else rightTd.types)
    (fits : 0 < heapCapacity outTd.length) (knownLeft : pred.left ∈ leftTd.names)
    (knownRight : pred.right ∈ rightTd.names) (enoughLeft : (HeapFile.records leftTd leftPages leftN).length < fuel)
    (enoughRight : (HeapFile.records rightTd rightPages rightN).length < fuel) :
    ∃ w' latest', Query.join left leftTd right rightTd output outTd pred fuel w = .ok () w' ∧
      Appending outTd output N w' latest' (l ++ joinRecords leftTd rightTd pred
        (HeapFile.records leftTd leftPages leftN) (HeapFile.records rightTd rightPages rightN)) ∧
      Reading N left leftPages leftN w' latest' ∧ Reading N right rightPages rightN w' latest' := by
  obtain ⟨w', latest', ran, appending', readings⟩ :=
    outcome_uniform (joined_compatible_eq (fun _ member => decoded_records member) fun _ member => decoded_records member)
      (join_stops apartLeft apartRight readingLeft readingRight appending fits knownLeft knownRight enoughLeft enoughRight)
  rw [if_pos (.inl typed)] at ran
  rw [if_pos typed] at appending'
  exact ⟨w', latest', ran, appending', readings⟩

theorem join_appends_pairs :
    ∃ w' latest', Query.join "t" rowSchema "p" pairSchema "out" pairSchema ⟨"body", .eq, "k"⟩ 3 queryWorld = .ok () w' ∧
      Appending pairSchema "out" 1 w' latest' [[.char [97], .char [120]]] ∧
      Reading 1 "t" (World.pagesOf queryWorld.stored "t") 1 w' latest' ∧
      Reading 1 "p" (World.pagesOf queryWorld.stored "p") 1 w' latest' := by
  have joined : [] ++ joinRecords rowSchema pairSchema ⟨"body", .eq, "k"⟩
      (HeapFile.records rowSchema (World.pagesOf queryWorld.stored "t") 1)
      (HeapFile.records pairSchema (World.pagesOf queryWorld.stored "p") 1) = [[.char [97], .char [120]]] := by decide
  rw [← joined]
  exact join_appends (by decide) (by decide) ⟨queryWorld_healthy, rfl, rfl⟩ ⟨queryWorld_healthy, rfl, rfl⟩
    (.empty queryWorld_healthy rfl rfl fun _ => rfl) (by decide) (by decide) (by decide) (by decide) (by decide)
    (by decide)

-- db::join into any output: the matching pairs are appended if the types match, else
-- the first pair throws with nothing appended.
theorem join_outcome (apartLeft : left ≠ output) (apartRight : right ≠ output)
    (readingLeft : Reading N left leftPages leftN w latest) (readingRight : Reading N right rightPages rightN w latest)
    (appending : Appending outTd output N w latest l) (fits : 0 < heapCapacity outTd.length)
    (knownLeft : pred.left ∈ leftTd.names) (knownRight : pred.right ∈ rightTd.names)
    (enoughLeft : (HeapFile.records leftTd leftPages leftN).length < fuel)
    (enoughRight : (HeapFile.records rightTd rightPages rightN).length < fuel) :
    ∃ w' latest', Query.join left leftTd right rightTd output outTd pred fuel w =
        (if outTd.types = leftTd.types ++
              (if pred.op = .eq then dropField rightTd.names pred.right rightTd.types else rightTd.types) ∨
            joinRecords leftTd rightTd pred (HeapFile.records leftTd leftPages leftN)
              (HeapFile.records rightTd rightPages rightN) = [] then .ok () w'
          else .error (.logic "HeapFile::insertTuple: tuple not compatible with schema") w') ∧
      Appending outTd output N w' latest' (if outTd.types = leftTd.types ++
          (if pred.op = .eq then dropField rightTd.names pred.right rightTd.types else rightTd.types) then
        l ++ joinRecords leftTd rightTd pred (HeapFile.records leftTd leftPages leftN)
          (HeapFile.records rightTd rightPages rightN) else l) ∧
      Reading N left leftPages leftN w' latest' ∧ Reading N right rightPages rightN w' latest' :=
  outcome_uniform (joined_compatible_eq (fun _ member => decoded_records member) fun _ member => decoded_records member)
    (join_stops apartLeft apartRight readingLeft readingRight appending fits knownLeft knownRight enoughLeft enoughRight)

def joinedSchema : TupleDesc 1000 := ⟨[.char, .char, .char], ["body", "k", "v"], rfl, by decide⟩

theorem equijoin_into_merged :
    ∃ w' latest', Query.join "t" rowSchema "p" pairSchema "out" joinedSchema ⟨"body", .eq, "k"⟩ 3 queryWorld =
        .error (.logic "HeapFile::insertTuple: tuple not compatible with schema") w' ∧
      Appending joinedSchema "out" 1 w' latest' [] ∧ Reading 1 "t" (World.pagesOf queryWorld.stored "t") 1 w' latest' ∧
      Reading 1 "p" (World.pagesOf queryWorld.stored "p") 1 w' latest' := by
  obtain ⟨w', latest', ran, appending, readings⟩ := @join_outcome 1 1000 queryWorld queryWorld.stored joinedSchema
    "out" [] 3 "t" "p" rowSchema pairSchema ⟨"body", .eq, "k"⟩ (World.pagesOf queryWorld.stored "t")
    (World.pagesOf queryWorld.stored "p") 1 1 (by decide) (by decide) ⟨queryWorld_healthy, rfl, rfl⟩
    ⟨queryWorld_healthy, rfl, rfl⟩ (.empty queryWorld_healthy rfl rfl fun _ => rfl) (by decide) (by decide) (by decide)
    (by decide) (by decide)
  rw [if_neg (by decide)] at ran appending
  exact ⟨w', latest', ran, appending, readings⟩

-- The schema TupleDesc::merge builds takes the joined rows of a predicate other than EQ
-- and refuses every row of an equi-join.
theorem merge_compatible_join (merged : leftTd.merge rightTd = .ok outTd) (knownRight : pred.right ∈ rightTd.names)
    {lrec r : Tuple} (decodedLeft : Decoded leftTd lrec) (decodedRight : Decoded rightTd r) :
    outTd.compatible (joinRecord rightTd pred lrec r) = true ↔ pred.op ≠ .eq := by
  have types : outTd.types = leftTd.types ++ rightTd.types := TupleDesc.make_types merged
  obtain ⟨i, -, found, -⟩ := rightTd.indexOf_getField knownRight
  obtain ⟨x, at', -⟩ := lookup_zip_indexOf found (le_of_eq decodedRight.length.symm)
  have inside : i < r.length := (List.getElem?_eq_some_iff.mp at').1
  have rightTypes := (compatible_iff rightTd r).mp decodedRight.typed
  rw [compatible_iff, types, joinRecord, List.map_append, (compatible_iff leftTd lrec).mp decodedLeft.typed,
    List.append_cancel_left_eq]
  by_cases equi : pred.op = .eq
  · simp only [equi, if_true, ne_eq, not_true_eq_false, iff_false]
    intro same
    have lengths := congrArg List.length same
    rw [List.length_map, dropField_eraseIdx rightTd.distinct found decodedRight.length, List.length_eraseIdx_of_lt inside,
      ← rightTypes, List.length_map] at lengths
    omega
  · simp [equi, rightTypes]

theorem merged_refuses_equijoin :
    rowSchema.merge pairSchema = .ok joinedSchema ∧
      joinedSchema.compatible (joinRecord pairSchema ⟨"body", .eq, "k"⟩ [.char [97]] [.char [97], .char [120]]) = false := by
  have merged : rowSchema.merge pairSchema = .ok joinedSchema := rfl
  refine ⟨merged, Bool.eq_false_iff.mpr fun accepted => ?_⟩
  exact (merge_compatible_join merged (by decide) ⟨by decide, by decide⟩ ⟨by decide, by decide⟩).mp accepted rfl

end Join

end PagedDb
