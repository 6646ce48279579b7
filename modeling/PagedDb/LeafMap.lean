import PagedDb.LeafPage

namespace PagedDb

-- What a leaf page is for: a map from INT keys to tuples, in ascending key order.
def upsert (k : Tuple → BitVec 32) (t : Tuple) : List Tuple → List Tuple
  | [] => [t]
  | x :: xs =>
    if (k x).toInt < (k t).toInt then x :: upsert k t xs
    else if k x = k t then t :: xs
    else t :: x :: xs

def keyLookup (k : Tuple → BitVec 32) (l : List Tuple) (key : BitVec 32) : Option Tuple :=
  l.find? fun x => k x == key

-- A map of at most `cap` keys: once it is full, a tuple of a new key is dropped.
def boundedUpsert (cap : Nat) (k : Tuple → BitVec 32) (l : List Tuple) (t : Tuple) : List Tuple :=
  if l.length < cap ∨ k t ∈ l.map k then upsert k t l else l

section Upsert
variable (k : Tuple → BitVec 32) (t : Tuple)

theorem keyLookup_upsert_self (l : List Tuple) : keyLookup k (upsert k t l) (k t) = some t := by
  induction l with
  | nil => simp [upsert, keyLookup]
  | cons x xs ih =>
    rw [upsert]
    split_ifs with below same
    · have differs : k x ≠ k t := fun same => by rw [same] at below; exact lt_irrefl _ below
      simpa [keyLookup, differs] using ih
    · simp [keyLookup]
    · simp [keyLookup]

theorem keyLookup_upsert_other (l : List Tuple) {key : BitVec 32} (other : key ≠ k t) :
    keyLookup k (upsert k t l) key = keyLookup k l key := by
  induction l with
  | nil => simp [upsert, keyLookup, Ne.symm other]
  | cons x xs ih =>
    rw [upsert]
    split_ifs with below same
    · by_cases found : k x = key
      · simp [keyLookup, found]
      · simpa [keyLookup, found] using ih
    · simp [keyLookup, same, Ne.symm other]
    · simp [keyLookup, Ne.symm other]

theorem keyLookup_upsert (l : List Tuple) (key : BitVec 32) :
    keyLookup k (upsert k t l) key = if key = k t then some t else keyLookup k l key := by
  split
  · subst key; exact keyLookup_upsert_self k t l
  · exact keyLookup_upsert_other k t l ‹_›

theorem upsert_insertIdx {l : List Tuple} {pos : Nat} (bound : pos ≤ l.length)
    (below : ∀ i (inside : i < pos), (k (l.get ⟨i, by omega⟩)).toInt < (k t).toInt)
    (above : ∀ i, pos ≤ i → ∀ (inside : i < l.length), (k t).toInt < (k (l.get ⟨i, inside⟩)).toInt) :
    l.insertIdx pos t = upsert k t l := by
  induction l generalizing pos with
  | nil => obtain rfl : pos = 0 := by simpa using bound
           rfl
  | cons x xs ih =>
    cases pos with
    | zero =>
      have after := above 0 le_rfl (by simp)
      have differs : k x ≠ k t := fun same => by simp [same] at after
      simp only [List.get_eq_getElem, List.getElem_cons_zero] at after
      rw [List.insertIdx_zero, upsert, if_neg (by omega), if_neg differs]
    | succ pos =>
      have before := below 0 (by omega)
      simp only [List.get_eq_getElem, List.getElem_cons_zero] at before
      rw [List.insertIdx_succ_cons, upsert, if_pos before,
        ih (by simpa using bound) (fun i inside => by simpa using below (i + 1) (by omega))
          (fun i low inside => by simpa using above (i + 1) (by omega) (by simpa using inside))]

theorem upsert_set {l : List Tuple}
    (sorted : ∀ i j (less : i < j) (inside : j < l.length), (k (l.get ⟨i, by omega⟩)).toInt < (k (l.get ⟨j, inside⟩)).toInt)
    {j : Nat} (inside : j < l.length) (same : k (l.get ⟨j, inside⟩) = k t) : l.set j t = upsert k t l := by
  induction l generalizing j with
  | nil => simp at inside
  | cons x xs ih =>
    cases j with
    | zero =>
      simp only [List.get_eq_getElem, List.getElem_cons_zero] at same
      rw [List.set_cons_zero, upsert, if_neg (by rw [same]; exact lt_irrefl _), if_pos same]
    | succ j =>
      have before := sorted 0 (j + 1) (by omega) inside
      simp only [List.get_eq_getElem, List.getElem_cons_zero, List.getElem_cons_succ] at before same
      rw [same] at before
      rw [List.set_cons_succ, upsert, if_pos before,
        ih (fun a b less inside => by simpa using sorted (a + 1) (b + 1) (by omega) (by simpa using inside))
          (by simpa using inside) (by simpa using same)]

theorem keyLookup_append (l l' : List Tuple) (key : BitVec 32) :
    keyLookup k (l ++ l') key = (keyLookup k l key).or (keyLookup k l' key) := List.find?_append

theorem keyLookup_eq_none {l : List Tuple} {key : BitVec 32} (absent : ∀ x ∈ l, k x ≠ key) : keyLookup k l key = none :=
  List.find?_eq_none.mpr fun x member same => absent x member (by simpa using same)

theorem length_upsert_le (l : List Tuple) : (upsert k t l).length ≤ l.length + 1 := by
  induction l with
  | nil => simp [upsert]
  | cons x xs ih =>
    rw [upsert]
    split_ifs <;> simp only [List.length_cons] <;> omega

theorem keyLookup_foldl_upsert (l ts : List Tuple) (key : BitVec 32) :
    keyLookup k (ts.foldl (fun l t => upsert k t l) l) key =
      (ts.reverse.find? fun t => k t == key).or (keyLookup k l key) := by
  induction ts using List.reverseRecOn with
  | nil => simp
  | append_singleton ts t ih =>
    rw [List.foldl_append, List.foldl_cons, List.foldl_nil, keyLookup_upsert, List.reverse_append,
      List.reverse_singleton, List.singleton_append]
    by_cases same : key = k t
    · rw [if_pos same, List.find?_cons_of_pos _ (by simp [same])]
      rfl
    · rw [if_neg same, ih, List.find?_cons_of_neg _ (by rw [beq_iff_eq]; exact Ne.symm same)]

theorem foldl_boundedUpsert {cap : Nat} (ts l : List Tuple) (room : l.length + ts.length ≤ cap) :
    ts.foldl (boundedUpsert cap k) l = ts.foldl (fun l t => upsert k t l) l := by
  induction ts generalizing l with
  | nil => rfl
  | cons t ts ih =>
    rw [List.length_cons] at room
    have grows := length_upsert_le k t l
    rw [List.foldl_cons, List.foldl_cons, boundedUpsert, if_pos (.inl (by omega)), ih _ (by omega)]

end Upsert

section Entries
variable {c : Nat} {td : TupleDesc c} (key : KeyIndex td)

def tupleAt (td : TupleDesc c) (data : Mem) (slot : Nat) : Tuple := td.deserialize data (slot * td.length)

-- The tuples of slots [0, size), in slot order.
def LeafPage.entries (page : LeafPage td) : List Tuple := (List.range page.size).map (tupleAt td page.data)

def LeafPage.lookup (page : LeafPage td) (k : BitVec 32) : Option Tuple := keyLookup (keyOf key) page.entries k

@[simp] theorem keyOf_tupleAt (data : Mem) (slot : Nat) : keyOf key (tupleAt td data slot) = keyAt td key data slot := rfl

@[simp] theorem length_entries (page : LeafPage td) : page.entries.length = page.size := by simp [LeafPage.entries]

theorem getTuple_entries (page : LeafPage td) (slot : Nat) :
    page.getTuple slot = match page.entries[slot]? with
      | some t => .ok t
      | none => .error "leaf slot out of range" := by
  unfold LeafPage.getTuple LeafPage.entries
  by_cases inside : slot < page.size
  · rw [if_neg (Nat.not_le_of_lt inside), List.getElem?_map, List.getElem?_range inside]; rfl
  · rw [if_pos (Nat.le_of_not_lt inside), List.getElem?_map,
      List.getElem?_eq_none (by simpa using Nat.le_of_not_lt inside)]; rfl

theorem tupleAt_congr {m m' : Mem} {i j : Nat} (same : slotBytes m' 0 td.length i = slotBytes m 0 td.length j) :
    tupleAt td m' i = tupleAt td m j :=
  deserialize_congr td fun a inside => by simpa using readBytes_apply m same inside

theorem tupleAt_of_slot {t : Tuple} (compatible : td.compatible t) {m : Mem} {p : Nat}
    (stored : slotBytes m 0 td.length p = tupleBytes c t) : tupleAt td m p = roundTrip td t := by
  have written : slotBytes (storeBytes zeroPage 0 (tupleBytes c t)) 0 td.length 0 = tupleBytes c t := by
    simpa [tupleBytes_length_of_compatible compatible] using
      (@slotBytes_storeBytes zeroPage 0 _ 0 0 (tupleBytes c t) (tupleBytes_length_of_compatible compatible))
  rw [tupleAt_congr (stored.trans written.symm), roundTrip, serialize_compatible td _ t _ compatible]
  simp [tupleAt, resultState]

theorem keyOf_roundTrip {t : Tuple} (compatible : td.compatible t) : keyOf key (roundTrip td t) = keyOf key t := by
  rw [roundTrip_eq compatible, keyOf, List.getElem?_map, keyOf_spec key compatible]
  rfl

theorem entries_sorted {page : LeafPage td} (sorted : Ascending key page) :
    ∀ i j (less : i < j) (inside : j < page.entries.length),
      (keyOf key (page.entries.get ⟨i, by omega⟩)).toInt < (keyOf key (page.entries.get ⟨j, inside⟩)).toInt :=
  fun i j less inside => by simpa [LeafPage.entries] using sorted i j less (by simpa using inside)

-- insertTuple into a sorted page is a bounded upsert of the tuple's round trip.
theorem insertTuple_entries {page : LeafPage td} {t : Tuple} (sorted : Ascending key page)
    (compatible : td.compatible t) :
    ∃ page' : LeafPage td, page.insertTuple key t = .ok (page'.size == leafCapacity td) page' ∧
      page'.entries = boundedUpsert (leafCapacity td) (keyOf key) page.entries (roundTrip td t) := by
  obtain ⟨page', ran, -, cases⟩ := insertTuple_cases key sorted compatible
  have present : keyOf key t ∈ page.entries.map (keyOf key) ↔ ∃ j < page.size, keyAt td key page.data j = keyOf key t := by
    simp [LeafPage.entries]
  refine ⟨page', ran, ?_⟩
  rw [boundedUpsert, length_entries, keyOf_roundTrip key compatible]
  rcases cases with ⟨j, within, same, size, slots⟩ | ⟨absent, room, size, pos, bound, below, above, slots⟩ |
    ⟨absent, full, rfl⟩
  · rw [if_pos (.inr (present.mpr ⟨j, within, same⟩)), ← upsert_set _ _ (entries_sorted key sorted) (by simpa using within)
      (by simpa [LeafPage.entries, keyOf_roundTrip key compatible] using same)]
    rw [LeafPage.entries, LeafPage.entries, size, ← range_map_set]
    refine List.map_congr_left fun i _ => ?_
    split
    · exact tupleAt_of_slot compatible (by rw [slots, if_pos ‹_›])
    · exact tupleAt_congr (by rw [slots, if_neg ‹_›])
  · rw [if_pos (.inl room), ← upsert_insertIdx _ _ (by simpa using bound)
      (fun i inside => by simpa [LeafPage.entries, keyOf_roundTrip key compatible] using below i inside)
      (fun i low inside => by
        simpa [LeafPage.entries, keyOf_roundTrip key compatible] using above i low (by simpa using inside))]
    rw [LeafPage.entries, LeafPage.entries, size, ← range_map_insertIdx _ _ bound]
    refine List.map_congr_left fun i member => ?_
    have inside : i ≤ page.size := by simpa [Nat.lt_succ_iff] using member
    split
    next here => exact tupleAt_of_slot compatible (by rw [slots i inside, if_pos here])
    next apart =>
      split
      next after => exact tupleAt_congr (by rw [slots i inside, if_neg apart, if_pos after])
      next before => exact tupleAt_congr (by rw [slots i inside, if_neg apart, if_neg before])
  · rw [if_neg (by rw [present]; push_neg; exact ⟨by omega, absent⟩)]

-- insertTuple into a sorted page is an upsert but on a full page without the key: the
-- key's tuple is the new one, every other key keeps its tuple.
theorem insertTuple_map_view {page : LeafPage td} {t : Tuple} (sorted : Ascending key page)
    (compatible : td.compatible t) :
    ∃ page' : LeafPage td, page.insertTuple key t = .ok (page'.size == leafCapacity td) page' ∧
      page'.entries = (if page.size < leafCapacity td ∨ keyOf key t ∈ page.entries.map (keyOf key) then
        upsert (keyOf key) (roundTrip td t) page.entries else page.entries) ∧
      ∀ k, page'.lookup key k =
        if (page.size < leafCapacity td ∨ keyOf key t ∈ page.entries.map (keyOf key)) ∧ k = keyOf key t then
          some (roundTrip td t) else page.lookup key k := by
  obtain ⟨page', ran, entries⟩ := insertTuple_entries key sorted compatible
  rw [boundedUpsert, length_entries, keyOf_roundTrip key compatible] at entries
  refine ⟨page', ran, entries, fun k => ?_⟩
  rw [LeafPage.lookup, LeafPage.lookup, entries]
  split
  next room => rw [keyLookup_upsert, keyOf_roundTrip key compatible]; simp only [room, true_and]
  next full => simp only [full, false_and, if_false]

theorem wideLeaf_replace_five :
    ∃ page' : LeafPage wideSchema,
      wideLeaf.insertTuple wideKey [.int 5, .char [98]] = .ok (page'.size == leafCapacity wideSchema) page' ∧
        page'.lookup wideKey 5 = some [.int 5, .char [98]] ∧ page'.lookup wideKey 1 = wideLeaf.lookup wideKey 1 := by
  obtain ⟨page', ran, -, lookups⟩ := insertTuple_map_view wideKey (t := [.int 5, .char [98]]) wideLeaf_sorted (by decide)
  have present : keyOf wideKey [.int 5, .char [98]] ∈ wideLeaf.entries.map (keyOf wideKey) := by decide
  refine ⟨page', ran, ?_, ?_⟩
  · rw [lookups, if_pos ⟨.inr present, rfl⟩]; rfl
  · rw [lookups, if_neg fun ⟨_, same⟩ => absurd same (by decide)]

theorem leafRun_entries {page : LeafPage td} (sorted : Ascending key page) {ts : List Tuple}
    (compatible : ∀ t ∈ ts, td.compatible t) :
    (leafRun key page ts).entries = (ts.map (roundTrip td)).foldl (boundedUpsert (leafCapacity td) (keyOf key)) page.entries := by
  induction ts generalizing page with
  | nil => rfl
  | cons t ts ih =>
    have first := compatible t (List.mem_cons_self t ts)
    obtain ⟨page', ran, entries⟩ := insertTuple_entries key sorted first
    rw [List.map_cons, List.foldl_cons, ← entries,
      ← ih (insertTuple_ascending key sorted first ran) fun t' member => compatible t' (List.mem_cons_of_mem t member)]
    simp only [leafRun, List.foldl_cons, ran, resultState]

-- The leaf page refines a sorted map of at most leafCapacity keys over every run of
-- inserts; a run that cannot fill the page drops no insert.
theorem leafRun_refines {page : LeafPage td} (sorted : Ascending key page) {ts : List Tuple}
    (compatible : ∀ t ∈ ts, td.compatible t) :
    (leafRun key page ts).entries = (ts.map (roundTrip td)).foldl (boundedUpsert (leafCapacity td) (keyOf key)) page.entries ∧
      (page.size + ts.length ≤ leafCapacity td → ∀ k, (leafRun key page ts).lookup key k =
        ((ts.reverse.find? fun t => keyOf key t == k).map (roundTrip td)).or (page.lookup key k)) := by
  refine ⟨leafRun_entries key sorted compatible, fun room k => ?_⟩
  have kept : ∀ t ∈ ts.reverse, keyOf key (roundTrip td t) = keyOf key t := fun t member =>
    keyOf_roundTrip key (compatible t (List.mem_reverse.mp member))
  rw [LeafPage.lookup, LeafPage.lookup, leafRun_entries key sorted compatible,
    foldl_boundedUpsert _ _ _ (by rwa [length_entries, List.length_map]), keyLookup_foldl_upsert, ← List.map_reverse,
    List.find?_map, ← List.filter_head?, ← List.filter_head?, List.filter_congr (q := fun t => keyOf key t == k) fun t member => by simp [kept t member]]

def emptyWideLeaf : LeafPage wideSchema := ⟨0, 0, zeroPage, by decide⟩

theorem emptyWideLeaf_keeps_last :
    (leafRun wideKey emptyWideLeaf [[.int 5, .char [97]], [.int 5, .char [98]]]).lookup wideKey 5 =
      some (roundTrip wideSchema [.int 5, .char [98]]) := by
  rw [(leafRun_refines wideKey (fun _ j _ inside => absurd inside (Nat.not_lt_zero j)) (by decide)).2 (by decide) 5]
  rfl

-- LeafPage::split keeps the first size / 2 tuples and moves the rest, and the returned
-- key routes every lookup to the left or the right page.
theorem split_map_view (page newPage : LeafPage td) (sorted : Ascending key page) (nonempty : 0 < page.size) :
    ∃ (left right : LeafPage td) (splitKey : BitVec 32), LeafPage.split key (page, newPage) = .ok splitKey (left, right) ∧
      left.size = page.size / 2 ∧ left.entries = page.entries.take (page.size / 2) ∧
      right.entries = page.entries.drop (page.size / 2) ∧
      ∀ k, page.lookup key k = if k.toInt < splitKey.toInt then left.lookup key k else right.lookup key k := by
  obtain ⟨left, right, ran, leftSize, leftData, -, rightSize, -, moved⟩ := split_spec key page newPage nonempty
  have half : page.size / 2 ≤ page.size := Nat.div_le_self _ _
  have leftEntries : left.entries = (List.range (page.size / 2)).map (tupleAt td page.data) := by
    rw [LeafPage.entries, leftSize, leftData]
  have rightEntries : right.entries = page.entries.drop (page.size / 2) := by
    have shifted := range_map_drop (f := tupleAt td page.data) (o := page.size / 2) (r := page.size - page.size / 2)
      (g := tupleAt td right.data) fun j inside => tupleAt_congr (moved j (by omega))
    rwa [Nat.add_sub_cancel' half, ← rightSize] at shifted
  have leftTake : left.entries = page.entries.take (page.size / 2) := by
    rw [leftEntries, LeafPage.entries, ← List.map_take, List.take_range, Nat.min_eq_left half]
  have whole : left.entries ++ right.entries = page.entries := by
    rw [leftTake, rightEntries, List.take_append_drop]
  have leftKeys : ∀ x ∈ left.entries, (keyOf key x).toInt < (keyAt td key page.data (page.size / 2)).toInt := by
    intro x member
    obtain ⟨i, inside, rfl⟩ : ∃ i < page.size / 2, tupleAt td page.data i = x := by simpa [leftEntries] using member
    exact sorted i _ inside (by omega)
  have rightKeys : ∀ x ∈ right.entries, (keyAt td key page.data (page.size / 2)).toInt ≤ (keyOf key x).toInt := by
    intro x member
    obtain ⟨j, inside, rfl⟩ : ∃ j < right.size, tupleAt td right.data j = x := by simpa [LeafPage.entries] using member
    rw [keyOf_tupleAt, keyAt_congr key (moved j inside)]
    rcases Nat.eq_zero_or_pos j with rfl | pos
    · exact le_rfl
    · exact (sorted _ _ (by omega) (by omega)).le
  refine ⟨left, right, _, ran, leftSize, leftTake, rightEntries, fun k => ?_⟩
  rw [LeafPage.lookup, LeafPage.lookup, LeafPage.lookup, ← whole, keyLookup_append]
  split
  next below =>
    rw [keyLookup_eq_none _ (l := right.entries) fun x member same => by
      have := rightKeys x member; rw [same] at this; omega, Option.or_none]
  next above =>
    rw [keyLookup_eq_none _ (l := left.entries) fun x member same => by
      have := leftKeys x member; rw [same] at this; omega, Option.none_or]

theorem wideLeaf_split_routes :
    ∃ (left right : LeafPage wideSchema) (splitKey : BitVec 32),
      LeafPage.split wideKey (wideLeaf, wideLeaf) = .ok splitKey (left, right) ∧
      left.size = wideLeaf.size / 2 ∧ left.entries = wideLeaf.entries.take (wideLeaf.size / 2) ∧
      right.entries = wideLeaf.entries.drop (wideLeaf.size / 2) ∧
      ∀ k, wideLeaf.lookup wideKey k = if k.toInt < splitKey.toInt then left.lookup wideKey k else right.lookup wideKey k :=
  split_map_view wideKey wideLeaf wideLeaf wideLeaf_sorted (by decide)

end Entries

end PagedDb
