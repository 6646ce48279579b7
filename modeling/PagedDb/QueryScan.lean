import PagedDb.Query
import PagedDb.HeapClient

namespace PagedDb

section Decoded
variable {c : Nat}

theorem readBytes_cstrLen_ne_zero (m : Mem) (ptr left : Nat) :
    ∀ b ∈ readBytes m ptr (cstrLen m ptr left), b ≠ 0 := by
  induction left generalizing ptr with
  | zero => simp [cstrLen, readBytes]
  | succ left ih =>
    rw [cstrLen]
    split
    · simp [readBytes]
    · rename_i nonzero
      intro b member
      rw [readBytes_succ, List.mem_cons] at member
      rcases member with rfl | later
      · exact nonzero
      · exact ih (ptr + 1) b later

theorem readField_stored (m : Mem) (ptr : Nat) (ty : FieldType) :
    (readField c m ptr ty).stored c = readField c m ptr ty := by
  cases ty with
  | int | double => rfl
  | char =>
    have short : (readBytes m ptr (cstrLen m ptr c)).length ≤ c := by simpa [readBytes] using cstrLen_le m ptr c
    have clear : (readBytes m ptr (cstrLen m ptr c)).takeWhile (· != 0) = readBytes m ptr (cstrLen m ptr c) :=
      List.takeWhile_eq_self_iff.mpr fun b member => by simpa using readBytes_cstrLen_ne_zero m ptr c b member
    simp only [readField, Field.stored, List.take_of_length_le short, clear]

theorem readFields_stored (m : Mem) (data : Nat) (types : List FieldType) (offs : List Nat) :
    (readFields c m data types offs).map (Field.stored c) = readFields c m data types offs := by
  induction types generalizing offs with
  | nil => rfl
  | cons ty types ih =>
    cases offs with
    | nil => rfl
    | cons off offs => simp only [readFields, List.map_cons, readField_stored, ih]

-- A record read from a page: of the schema's types, each field as it reads back.
structure Decoded (td : TupleDesc c) (t : Tuple) : Prop where
  typed : td.compatible t
  stable : t.map (Field.stored c) = t

theorem decoded_deserialize (td : TupleDesc c) (m : Mem) (data : Nat) : Decoded td (td.deserialize m data) :=
  ⟨(compatible_iff td _).mpr (readFields_fieldType m data td.types 0), readFields_stored m data td.types _⟩

theorem Decoded.roundTrip {td : TupleDesc c} {t : Tuple} (decoded : Decoded td t) : roundTrip td t = t := by
  rw [roundTrip_eq decoded.typed, decoded.stable]

theorem Decoded.length {td : TupleDesc c} {t : Tuple} (decoded : Decoded td t) : t.length = td.names.length := by
  rw [← td.sameLength, ← (compatible_iff td t).mp decoded.typed, List.length_map]

theorem decoded_records {td : TupleDesc c} {pageAt : Nat → Page} {n : Nat} {t : Tuple}
    (member : t ∈ HeapFile.records td pageAt n) : Decoded td t := by
  obtain ⟨p, -, member⟩ := List.mem_flatMap.mp member
  obtain ⟨s, -, rfl⟩ := List.mem_map.mp member
  exact decoded_deserialize td _ _

end Decoded

namespace World
variable {N c : Nat} (td : TupleDesc c) {w w' : World} {latest : PageId → Page}

theorem heapInsert_counts (healthy : Healthy N w latest) {name : String} {t : Tuple}
    (ran : heapInsert td name t w = .ok () w') {other : String} (apart : other ≠ name) :
    w'.pageCounts other = w.pageCounts other := by
  by_cases compatible : td.compatible t
  swap
  · simp [heapInsert, compatible] at ran
  simp only [heapInsert, compatible, Bool.not_true, Bool.false_eq_true, if_false, run_bind, run_pure, run_get] at ran
  have appended (w₁ : World) (latest₁ : PageId → Page) (healthy₁ : Healthy N w₁ latest₁)
      (ran : (insertOn td ⟨name, w.numPages name⟩ t >>= fun placed => if placed then setNumPages name (w.numPages name + 1)
        else throw (.runtime "HeapFile::insertTuple: failed to insert into empty page")) w₁ = .ok () w') :
      w'.pageCounts other = w₁.pageCounts other := by
    obtain ⟨placed, w₂, inserted, ran⟩ := bind_ok ran
    obtain ⟨frame, -⟩ := insertOn_ok td healthy₁ compatible inserted
    cases placed
    · simp at ran
    · rw [if_pos rfl] at ran
      rw [setNumPages_ok ran, ← frame.counts]
      simp [pageCounts, Function.update_noteq apart]
  split at ran
  · obtain ⟨placed, w₁, inserted, ran⟩ := bind_ok ran
    obtain ⟨frame, (⟨-, rfl, healthy₁⟩ | ⟨-, rfl, -⟩)⟩ := insertOn_ok td healthy compatible inserted
    · rw [appended w₁ latest healthy₁ (by simpa using ran), frame.counts]
    · obtain rfl : w₁ = w' := by simpa using ran
      rw [frame.counts]
  · exact appended w latest healthy (by simpa using ran)

theorem heapInsert_beside (healthy : Healthy N w latest) {name : String} (file : (w.files name).isSome)
    (beyond : latest ⟨name, w.numPages name⟩ = zeroPage) {t : Tuple} (ran : heapInsert td name t w = .ok () w') :
    ∃ latest', Healthy N w' latest' ∧
      ∀ other, other ≠ name → pagesOf latest' other = pagesOf latest other ∧ w'.pageCounts other = w.pageCounts other := by
  obtain ⟨-, -, -, ⟨-, -, -, page', -, healthy'⟩ | ⟨-, -, page', -, healthy'⟩⟩ := heapInsert_ok td healthy file beyond ran
  all_goals exact ⟨_, healthy', fun other apart =>
    ⟨pagesOf_update_other latest (Ne.symm apart) page', heapInsert_counts td healthy ran apart⟩⟩

end World

theorem Healthy.latest_eq {N N' : Nat} {w : World} {latest latest' : PageId → Page} (healthy : Healthy N w latest)
    (healthy' : Healthy N' w latest') : latest' = latest :=
  funext fun pid => (healthy'.coh.view_eq pid).symm.trans (healthy.coh.view_eq pid)

-- A file a query scans: registered with `n` pages whose latest bytes are `pages`.
structure Reading (N : Nat) (name : String) (pages : Nat → Page) (n : Nat) (w : World) (latest : PageId → Page) :
    Prop where
  healthy : Healthy N w latest
  registered : w.pageCounts name = some n
  same : World.pagesOf latest name = pages

-- A file a query appends to: the heap file invariant, its records `l` in this order.
structure Appending {c : Nat} (td : TupleDesc c) (name : String) (N : Nat) (w : World) (latest : PageId → Page)
    (l : List Tuple) : Prop where
  inv : HeapInv td name N w latest l
  order : InOrder td (World.pagesOf latest name) (w.numPages name) l

namespace Reading
variable {N n : Nat} {name : String} {pages : Nat → Page} {w w' : World} {latest : PageId → Page}

theorem file (reading : Reading N name pages n w latest) : (w.files name).isSome := by
  simpa [World.pageCounts] using congrArg Option.isSome reading.registered

theorem count (reading : Reading N name pages n w latest) : w.numPages name = n := by
  rw [World.numPages_eq, reading.registered]; rfl

theorem page (reading : Reading N name pages n w latest) (p : Nat) : latest ⟨name, p⟩ = pages p :=
  congrFun reading.same p

theorem framed (reading : Reading N name pages n w latest) (healthy : Healthy N w' latest) (frame : World.Frame w w') :
    Reading N name pages n w' latest :=
  ⟨healthy, by rw [frame.counts]; exact reading.registered, reading.same⟩

theorem scan (reading : Reading N name pages n w latest) {c : Nat} (td : TupleDesc c) {fuel : Nat}
    (enough : (HeapFile.records td pages n).length < fuel) :
    ∃ w', World.heapScan td name fuel w = .ok (HeapFile.records td pages n) w' := by
  rw [← reading.same, ← reading.count] at enough ⊢
  obtain ⟨w', scanned, -⟩ := World.heapScan_returns td name reading.healthy reading.file enough
  exact ⟨w', scanned⟩

end Reading

theorem heapInsert_incompatible {c : Nat} {td : TupleDesc c} {name : String} {t : Tuple} {w : World}
    (incompatible : td.compatible t = false) :
    World.heapInsert td name t w = .error (.logic "HeapFile::insertTuple: tuple not compatible with schema") w := by
  simp [World.heapInsert, incompatible]

namespace Appending
variable {N c : Nat} {td : TupleDesc c} {name : String} {w w' : World} {latest : PageId → Page} {l : List Tuple}

theorem framed (appending : Appending td name N w latest l) (healthy : Healthy N w' latest) (frame : World.Frame w w') :
    Appending td name N w' latest l :=
  ⟨appending.inv.framed healthy frame rfl, by rw [frame.numPages]; exact appending.order⟩

theorem reading (appending : Appending td name N w latest l) :
    Reading N name (World.pagesOf latest name) (w.numPages name) w latest :=
  ⟨appending.inv.healthy, by
    obtain ⟨f, found⟩ := Option.isSome_iff_exists.mp appending.inv.file
    simp [World.pageCounts, World.numPages, found], rfl⟩

theorem records (appending : Appending td name N w latest l) :
    HeapFile.records td (World.pagesOf latest name) (w.numPages name) = l :=
  appending.order.exact

theorem compatible (appending : Appending td name N w latest l) {t : Tuple} (member : t ∈ l) : td.compatible t :=
  (decoded_records (appending.records ▸ member)).typed

theorem empty (healthy : Healthy N w latest) (aligned : w.Aligned name) (fresh : w.pageCounts name = some 0)
    (zero : ∀ p, latest ⟨name, p⟩ = zeroPage) : Appending td name N w latest [] := by
  have count : w.numPages name = 0 := by rw [World.numPages_eq, fresh]; rfl
  refine ⟨⟨healthy, by simpa [World.pageCounts] using congrArg Option.isSome fresh, aligned, fun p _ => zero p, ?_⟩, ?_⟩
  · rw [count]; rfl
  · rw [count]; exact InOrder.empty zero

theorem insert_returns (appending : Appending td name N w latest l) {t : Tuple} (compatible : td.compatible t)
    (fits : 0 < heapCapacity td.length) : ∃ w', World.heapInsert td name t w = .ok () w' :=
  World.heapInsert_returns td appending.inv.healthy appending.inv.file (appending.inv.beyond _ le_rfl) compatible fits

theorem insert (appending : Appending td name N w latest l) {t : Tuple}
    (ran : World.heapInsert td name t w = .ok () w') :
    ∃ latest', Appending td name N w' latest' (l ++ [roundTrip td t]) ∧
      ∀ {other : String} {pages : Nat → Page} {n : Nat}, other ≠ name → Reading N other pages n w latest →
        Reading N other pages n w' latest' := by
  obtain ⟨latest', inv', order'⟩ := appending.inv.insert ran
  obtain ⟨latest'', healthy'', beside⟩ :=
    World.heapInsert_beside td appending.inv.healthy appending.inv.file (appending.inv.beyond _ le_rfl) ran
  obtain rfl := healthy''.latest_eq inv'.healthy
  have appended : ((l ++ [roundTrip td t] : List Tuple) : Multiset Tuple) = roundTrip td t ::ₘ l := by
    rw [Multiset.cons_coe]; exact Multiset.coe_eq_coe.mpr (List.perm_append_singleton _ l)
  refine ⟨latest', ⟨appended ▸ inv', order' l appending.order⟩, fun apart reading => ?_⟩
  obtain ⟨same, counts⟩ := beside _ apart
  exact ⟨healthy'', by rw [counts]; exact reading.registered, by rw [same]; exact reading.same⟩

end Appending

section Loop
variable {N c : Nat} (td : TupleDesc c) (name : String) (pages : Nat → Page) (n : Nat) {σ : Type}
  (body : σ → Tuple → EStateM Error World σ) (Inv : List Tuple → σ → World → (PageId → Page) → Prop)
  (Fail : Error → World → Prop)

variable
  (framed : ∀ done acc w w' latest, Inv done acc w latest → Healthy N w' latest → World.Frame w w' →
    Inv done acc w' latest)
  (step : ∀ done t rest acc w latest, done ++ t :: rest = HeapFile.records td pages n → Decoded td t →
    Inv done acc w latest → Reading N name pages n w latest →
    (∃ acc' w' latest', body acc t w = .ok acc' w' ∧ Inv (done ++ [t]) acc' w' latest' ∧
      Reading N name pages n w' latest') ∨ ∃ e w', body acc t w = .error e w' ∧ Fail e w')
include framed step

theorem foldFrom_outcome {todo : List Iterator} {it : Iterator} (walking : World.Walking td pages n it todo)
    {done : List Tuple} (position : done ++ todo.map (HeapFile.recordAt td pages) = HeapFile.records td pages n)
    {acc : σ} {w : World} {latest : PageId → Page} (reading : Reading N name pages n w latest)
    (inv : Inv done acc w latest) (fuel : Nat) (enough : todo.length < fuel) :
    (∃ acc' w' latest', World.foldFrom td name body it acc fuel w = .ok acc' w' ∧
      Inv (HeapFile.records td pages n) acc' w' latest' ∧ Reading N name pages n w' latest') ∨
    ∃ e w', World.foldFrom td name body it acc fuel w = .error e w' ∧ Fail e w' := by
  cases fuel with
  | zero => exact absurd enough (Nat.not_lt_zero _)
  | succ fuel =>
  induction todo generalizing it fuel done acc w latest with
  | nil =>
    obtain ⟨-, rfl⟩ | ⟨-, -, impossible⟩ := walking
    · refine .inl ⟨acc, w, latest, ?_, by simpa [← position] using inv, reading⟩
      simp [World.foldFrom, World.heapEnd, reading.count]
    · cases impossible
  | cons head tail ih =>
    obtain ⟨impossible, -⟩ | ⟨inside, member, todo⟩ := walking
    · cases impossible
    obtain ⟨rfl, rfl⟩ := List.cons.inj todo
    have inside' : head.page < w.numPages name := by rw [reading.count]; exact inside
    have differs : head ≠ ⟨w.numPages name, 0⟩ := fun same => by rw [same] at inside'; exact Nat.lt_irrefl _ inside'
    obtain ⟨w₁, got, healthy₁, frame₁⟩ := World.heapGetTuple_returns td name reading.healthy reading.file inside'
      (by rw [reading.page]; exact member)
    have entered : World.foldFrom td name body head acc (fuel + 1) w =
        (body acc (HeapFile.recordAt td pages head) >>= fun acc => World.heapNext td name head >>= fun it =>
          World.foldFrom td name body it acc fuel) w₁ := by
      simp only [World.foldFrom, World.heapEnd, run_bind, run_get, run_pure, if_neg differs, got, reading.same]
    rcases step done (HeapFile.recordAt td pages head) _ acc w₁ latest (by simpa using position) (decoded_deserialize td _ _)
      (framed _ _ _ _ _ inv healthy₁ frame₁) (reading.framed healthy₁ frame₁) with
      ⟨acc₂, w₂, latest₂, ran, inv₂, reading₂⟩ | ⟨e, w', ran, fail⟩
    · obtain ⟨w₃, next, healthy₃, frame₃⟩ := World.heapNext_returns td name reading₂.healthy reading₂.file
        (by rw [reading₂.count]; exact inside) (by rw [reading₂.page]; exact member)
      rw [reading₂.same, reading₂.count] at next
      cases fuel with
      | zero => simp at enough
      | succ fuel =>
      rcases ih (World.walking_head td inside rfl) (by simpa using position) (reading₂.framed healthy₃ frame₃)
        (framed _ _ _ _ _ inv₂ healthy₃ frame₃) fuel (by simp at enough; omega) with
        ⟨acc', w', latest', loop, inv', reading'⟩ | ⟨e, w', loop, fail⟩
      · exact .inl ⟨acc', w', latest', by simp only [entered, run_bind, ran, next, loop], inv', reading'⟩
      · exact .inr ⟨e, w', by simp only [entered, run_bind, ran, next, loop], fail⟩
    · exact .inr ⟨e, w', by simp only [entered, run_bind, ran], fail⟩

-- The loop runs its body on the file's records in scan order, up to the first throw.
theorem foldRecords_outcome {init : σ} {w : World} {latest : PageId → Page} (reading : Reading N name pages n w latest)
    (inv : Inv [] init w latest) {fuel : Nat} (enough : (HeapFile.records td pages n).length < fuel) :
    (∃ acc w' latest', World.foldRecords td name body init fuel w = .ok acc w' ∧
      Inv (HeapFile.records td pages n) acc w' latest' ∧ Reading N name pages n w' latest') ∨
    ∃ e w', World.foldRecords td name body init fuel w = .error e w' ∧ Fail e w' := by
  have records : (HeapFile.positionsFrom td pages 0 n).map (HeapFile.recordAt td pages) = HeapFile.records td pages n := by
    rw [HeapFile.positionsFrom_records, HeapFile.records, List.range_eq_range']
  obtain ⟨w₁, began, healthy₁, frame₁⟩ := World.firstFrom_returns td name reading.healthy reading.file
    (w.numPages name) 0 (w.numPages name)
  rw [reading.same, reading.count] at began
  simp only [World.foldRecords, World.heapBegin, run_bind, run_get, reading.count, began]
  exact foldFrom_outcome td name pages n body Inv Fail framed step (World.walking_begin td pages n) records
    (reading.framed healthy₁ frame₁) (framed _ _ _ _ _ inv healthy₁ frame₁) fuel
    (by rw [← records, List.length_map] at enough; exact enough)

end Loop

theorem forEachRecord_outcome {N c : Nat} (td : TupleDesc c) (name : String) (pages : Nat → Page) (n : Nat)
    (body : Tuple → EStateM Error World Unit) (Inv : List Tuple → World → (PageId → Page) → Prop)
    (Fail : Error → World → Prop)
    (framed : ∀ done w w' latest, Inv done w latest → Healthy N w' latest → World.Frame w w' → Inv done w' latest)
    (step : ∀ done t rest w latest, done ++ t :: rest = HeapFile.records td pages n → Decoded td t →
      Inv done w latest → Reading N name pages n w latest →
      (∃ w' latest', body t w = .ok () w' ∧ Inv (done ++ [t]) w' latest' ∧ Reading N name pages n w' latest') ∨
      ∃ e w', body t w = .error e w' ∧ Fail e w')
    {w : World} {latest : PageId → Page} (reading : Reading N name pages n w latest)
    (inv : Inv [] w latest) {fuel : Nat} (enough : (HeapFile.records td pages n).length < fuel) :
    (∃ w' latest', World.forEachRecord td name body fuel w = .ok () w' ∧
      Inv (HeapFile.records td pages n) w' latest' ∧ Reading N name pages n w' latest') ∨
    ∃ e w', World.forEachRecord td name body fuel w = .error e w' ∧ Fail e w' := by
  rcases foldRecords_outcome td name pages n (fun _ t => body t) (fun done _ => Inv done) Fail
    (fun done _ => framed done)
    (fun done t rest _ w latest position decoded inv reading =>
      (step done t rest w latest position decoded inv reading).imp
        (fun ⟨w', latest', ran, rest⟩ => ⟨(), w', latest', ran, rest⟩) id) reading inv enough with
    ⟨⟨⟩, w', latest', ran, inv', reading'⟩ | failed
  · exact .inl ⟨w', latest', ran, inv', reading'⟩
  · exact .inr failed

end PagedDb
