import Mathlib.Algebra.Order.BigOperators.Group.List
import PagedDb.Tuple

namespace PagedDb

-- sizeof(LeafPageHeader): a size_t next_leaf and a uint16_t size, padded to 16.
def leafHeaderSize : Nat := 16

section Leaf
variable {c : Nat} (td : TupleDesc c)

-- LeafPage::LeafPage: as many tuples as fit after the header.
def leafCapacity : Nat := (defaultPageSize - leafHeaderSize) / td.length

-- key_index, with the caller's guarantee that it names an INT column.
structure KeyIndex where
  index : Nat
  isInt : td.types[index]? = some .int

-- The header fields and the tuple bytes; the constructor resets a size beyond capacity.
structure LeafPage where
  nextLeaf : Nat
  size : Nat
  data : Mem
  fits : size ≤ leafCapacity td

-- LeafPage::LeafPage over a page buffer (little-endian header).
def LeafPage.ofPage (page : Page) : LeafPage td :=
  let size := leValue (readBytes page 8 2)
  { nextLeaf := leValue (readBytes page 0 8)
    size := if size > leafCapacity td then 0 else size
    data := fun i => page (leafHeaderSize + i)
    fits := by split <;> omega }

-- key_at: deserialize the tuple in `slot` and take its INT key field.
def keyAt (key : KeyIndex td) (data : Mem) (slot : Nat) : BitVec 32 :=
  match (td.deserialize data (slot * td.length))[key.index]? with
  | some (.int k) => k
  | _ => 0

-- The `while (lo < hi)` loop of insertTuple: the first slot whose key is `≥ k`.
def lowerBound (key : KeyIndex td) (data : Mem) (k : BitVec 32) (lo hi : Nat) : Nat :=
  if lo < hi then
    let mid := (lo + hi) / 2
    if (keyAt td key data mid).toInt < k.toInt then lowerBound key data k (mid + 1) hi
    else lowerBound key data k lo mid
  else lo
termination_by hi - lo

variable {td}

def LeafPage.onData (x : EStateM String Mem Unit) : EStateM String (LeafPage td) Unit := fun page =>
  match x page.data with
  | .ok u m => .ok u { page with data := m }
  | .error e m => .error e { page with data := m }

-- LeafPage::insertTuple
def LeafPage.insertTuple (key : KeyIndex td) (t : Tuple) : EStateM String (LeafPage td) Bool := do
  let page ← get
  let tbytes := td.length
  let n := page.size
  match t[key.index]? with
  | none => throw "Tuple::get_field: out of range"
  | some (.double _) | some (.char _) => throw "bad_variant_access"
  | some (.int k) =>
    let pos := lowerBound td key page.data k 0 n
    if pos < n ∧ keyAt td key page.data pos = k then
      LeafPage.onData (td.serialize (pos * tbytes) t)
      return n == leafCapacity td
    else if full : n ≥ leafCapacity td then
      return true
    else
      let moveBytes := (n - pos) * tbytes
      if moveBytes ≠ 0 then
        set { page with data := memmove page.data ((pos + 1) * tbytes) (pos * tbytes) moveBytes }
      LeafPage.onData (td.serialize (pos * tbytes) t)
      let page ← get
      set ({ page with size := n + 1, fits := by omega } : LeafPage td)
      return n + 1 == leafCapacity td

-- LeafPage::split: `this` and `new_page` are both written.
def LeafPage.split (key : KeyIndex td) : EStateM String (LeafPage td × LeafPage td) (BitVec 32) := do
  let (page, newPage) ← get
  let n := page.size
  if n = 0 then throw "split on empty leaf page"
  let tbytes := td.length
  let mid := n / 2
  let rightCnt := n - mid
  let splitKey := keyAt td key page.data mid
  set (({ page with size := mid, fits := by have := page.fits; omega } : LeafPage td),
    ({ newPage with
      data := copy newPage.data 0 page.data (mid * tbytes) (rightCnt * tbytes)
      size := rightCnt
      nextLeaf := page.nextLeaf
      fits := by have := page.fits; omega } : LeafPage td))
  return splitKey

-- LeafPage::getTuple
def LeafPage.getTuple (page : LeafPage td) (slot : Nat) : Except String Tuple :=
  if slot ≥ page.size then throw "leaf slot out of range"
  else pure (td.deserialize page.data (slot * td.length))

end Leaf

section LeafFacts
variable {c : Nat} {td : TupleDesc c} (key : KeyIndex td)

def LeafPage.slots (page : LeafPage td) : List (List UInt8) :=
  (List.range page.size).map (slotBytes page.data 0 td.length)

-- `std::get<int>(t.get_field(key_index))`
def keyOf (t : Tuple) : BitVec 32 :=
  match t[key.index]? with
  | some (.int k) => k
  | _ => 0

def Ascending (page : LeafPage td) : Prop :=
  ∀ i j, i < j → j < page.size → (keyAt td key page.data i).toInt < (keyAt td key page.data j).toInt

theorem KeyIndex.length_pos (column : KeyIndex td) : 0 < td.length := by
  have member : FieldType.int ∈ td.types := List.mem_iff_getElem?.mpr ⟨_, column.isInt⟩
  have := List.le_sum_of_mem (List.mem_map_of_mem (sizeOfFixed c) member)
  simp only [sizeOfFixed] at this
  exact Nat.lt_of_lt_of_le (by decide) this

theorem keyOf_spec {t : Tuple} (compatible : td.compatible t) : t[key.index]? = some (.int (keyOf key t)) := by
  have typed := congrArg (·[key.index]?) ((compatible_iff td t).mp compatible)
  simp only [List.getElem?_map, key.isInt] at typed
  obtain ⟨f, found, isInt⟩ := Option.map_eq_some'.mp typed
  cases f <;> simp_all [keyOf, Field.fieldType]

theorem keyAt_congr {m m' : Mem} {i j : Nat} (same : slotBytes m' 0 td.length i = slotBytes m 0 td.length j) :
    keyAt td key m' i = keyAt td key m j := by
  have decoded : td.deserialize m' (i * td.length) = td.deserialize m (j * td.length) :=
    deserialize_congr td fun a inside => by simpa using readBytes_apply m same inside
  rw [keyAt, keyAt, decoded]

theorem keyAt_tupleBytes {t : Tuple} (compatible : td.compatible t) (m : Mem) (p : Nat) :
    keyAt td key (storeBytes m (p * td.length) (tupleBytes c t)) p = keyOf key t := by
  simp only [keyAt, deserialize_storeBytes compatible, List.getElem?_map, keyOf_spec key compatible]
  rfl

theorem keyAt_of_slot {t : Tuple} (compatible : td.compatible t) {m : Mem} {p : Nat}
    (stored : slotBytes m 0 td.length p = tupleBytes c t) : keyAt td key m p = keyOf key t := by
  rw [← keyAt_tupleBytes key compatible m p]
  apply keyAt_congr
  rw [stored]
  simpa [tupleBytes_length_of_compatible compatible] using
    (@slotBytes_storeBytes m 0 _ p p (tupleBytes c t) (tupleBytes_length_of_compatible compatible)).symm

-- The binary search finds the first slot whose key is not below `k`.
theorem lowerBound_spec (data : Mem) (k : BitVec 32) (n : Nat)
    (sorted : ∀ i j, i < j → j < n → (keyAt td key data i).toInt < (keyAt td key data j).toInt) (lo hi : Nat) :
    lo ≤ hi → hi ≤ n → (∀ i < lo, (keyAt td key data i).toInt < k.toInt) →
      (∀ i, hi ≤ i → i < n → k.toInt ≤ (keyAt td key data i).toInt) →
      lowerBound td key data k lo hi ≤ n ∧
        (∀ i < lowerBound td key data k lo hi, (keyAt td key data i).toInt < k.toInt) ∧
        (∀ i, lowerBound td key data k lo hi ≤ i → i < n → k.toInt ≤ (keyAt td key data i).toInt) := by
  induction lo, hi using lowerBound.induct td key data k with
  | case1 lo hi lt mid below ih =>
    intro _ bound low high
    rw [lowerBound, if_pos lt, if_pos below]
    refine ih (by omega) bound (fun i small => ?_) high
    rcases Nat.lt_or_ge i mid with before | atMid
    · exact (sorted i mid before (by omega)).trans below
    · rwa [show i = mid by omega]
  | case2 lo hi lt mid above ih =>
    intro _ bound low high
    rw [lowerBound, if_pos lt, if_neg above]
    refine ih (by omega) (by omega) low fun i large inside => ?_
    rcases Nat.lt_or_ge mid i with after | atMid
    · exact (le_of_not_lt above).trans (sorted mid i after inside).le
    · obtain rfl : i = mid := by omega
      exact le_of_not_lt above
  | case3 lo hi ge =>
    intro order bound low high
    rw [lowerBound, if_neg ge]
    exact ⟨by omega, low, fun i large inside => high i (by omega) inside⟩

def insertPos (page : LeafPage td) (t : Tuple) : Nat := lowerBound td key page.data (keyOf key t) 0 page.size

theorem insertPos_bounds {page : LeafPage td} (sorted : Ascending key page) (t : Tuple) :
    insertPos key page t ≤ page.size ∧
      (∀ i < insertPos key page t, (keyAt td key page.data i).toInt < (keyOf key t).toInt) ∧
      ∀ i, insertPos key page t ≤ i → i < page.size → (keyOf key t).toInt ≤ (keyAt td key page.data i).toInt :=
  lowerBound_spec key page.data (keyOf key t) page.size sorted 0 page.size (Nat.zero_le _) le_rfl
    (fun _ h => absurd h (Nat.not_lt_zero _)) fun _ h1 h2 => absurd h2 (by omega)

theorem insertPos_found_iff {page : LeafPage td} (sorted : Ascending key page) (t : Tuple) :
    (insertPos key page t < page.size ∧ keyAt td key page.data (insertPos key page t) = keyOf key t) ↔
      ∃ i < page.size, keyAt td key page.data i = keyOf key t := by
  obtain ⟨-, below, above⟩ := insertPos_bounds key sorted t
  refine ⟨fun found => ⟨_, found⟩, fun ⟨i, inside, same⟩ => ?_⟩
  rcases Nat.lt_trichotomy i (insertPos key page t) with before | rfl | after
  · exact absurd (below i before) (by rw [same]; exact lt_irrefl _)
  · exact ⟨inside, same⟩
  · have := sorted _ _ after inside
    have := above (insertPos key page t) le_rfl (by omega)
    rw [same] at *; omega

theorem keyOf_of_int {t : Tuple} {k : BitVec 32} (keyed : t[key.index]? = some (.int k)) : keyOf key t = k := by
  simp [keyOf, keyed]

theorem onData_serialize {page : LeafPage td} {t : Tuple} (compatible : td.compatible t) (p : Nat) :
    LeafPage.onData (td.serialize p t) page = .ok () { page with data := storeBytes page.data p (tupleBytes c t) } := by
  simp [LeafPage.onData, serialize_compatible td _ t _ compatible]

theorem onData_serialize_rejects {page : LeafPage td} {t : Tuple} (incompatible : td.compatible t = false) (p : Nat) :
    LeafPage.onData (td.serialize p t) page = .error "TupleDesc::serialize: tuple incompatible with schema" page := by
  simp [LeafPage.onData, TupleDesc.serialize, incompatible]

section Branches
variable {key} {page : LeafPage td} {t : Tuple} (keyed : t[key.index]? = some (.int (keyOf key t)))
include keyed

theorem insertTuple_found
    (found : insertPos key page t < page.size ∧ keyAt td key page.data (insertPos key page t) = keyOf key t) :
    page.insertTuple key t =
      (LeafPage.onData (td.serialize (insertPos key page t * td.length) t) >>= fun _ =>
        pure (page.size == leafCapacity td)) page := by
  simp only [insertPos] at found ⊢
  simp only [LeafPage.insertTuple, run_bind, run_get, keyed, found, and_self, if_true]

theorem insertTuple_full
    (missing : ¬(insertPos key page t < page.size ∧ keyAt td key page.data (insertPos key page t) = keyOf key t))
    (full : leafCapacity td ≤ page.size) : page.insertTuple key t = .ok true page := by
  simp only [insertPos] at missing
  simp only [LeafPage.insertTuple, run_bind, run_get, keyed, missing, if_false, full, dif_pos, run_pure]

theorem insertTuple_shift
    (missing : ¬(insertPos key page t < page.size ∧ keyAt td key page.data (insertPos key page t) = keyOf key t))
    (room : page.size < leafCapacity td) :
    page.insertTuple key t =
      (LeafPage.onData (td.serialize (insertPos key page t * td.length) t) >>= fun _ => do
        let page' ← get
        set ({ page' with size := page.size + 1, fits := room } : LeafPage td)
        pure (page.size + 1 == leafCapacity td))
      { page with data := (memmove page.data ((insertPos key page t + 1) * td.length)
          (insertPos key page t * td.length) ((page.size - insertPos key page t) * td.length)) } := by
  simp only [insertPos] at missing ⊢
  simp only [LeafPage.insertTuple, run_bind, run_get, keyed, missing, if_false,
    show ¬ leafCapacity td ≤ page.size by omega, dif_neg, not_false_eq_true]
  split
  · rfl
  · rename_i none
    rw [not_not.mp none, memmove_zero]
    rfl

end Branches

theorem slots_overwrite (m : Mem) (p i : Nat) {t : Tuple} (compatible : td.compatible t) :
    slotBytes (storeBytes m (p * td.length) (tupleBytes c t)) 0 td.length i =
      if i = p then tupleBytes c t else slotBytes m 0 td.length i := by
  simpa using @slotBytes_storeBytes m 0 _ p i _ (tupleBytes_length_of_compatible compatible)

theorem slots_shift (m : Mem) (p n i : Nat) {t : Tuple} (compatible : td.compatible t) (le : p ≤ n) (inside : i ≤ n) :
    slotBytes (storeBytes (memmove m ((p + 1) * td.length) (p * td.length) ((n - p) * td.length))
        (p * td.length) (tupleBytes c t)) 0 td.length i =
      if i = p then tupleBytes c t else slotBytes m 0 td.length (if p < i then i - 1 else i) := by
  rw [slots_overwrite _ _ _ compatible]
  split
  · rfl
  · have moved := @slotBytes_memmove m 0 td.length p (n - p) i
    simp only [Nat.zero_add] at moved
    rw [moved]
    split <;> split <;> first | rfl | omega

-- What one insertTuple of a compatible tuple does to a sorted page.
theorem insertTuple_cases {page : LeafPage td} {t : Tuple} (sorted : Ascending key page)
    (compatible : td.compatible t) :
    ∃ page' : LeafPage td, page.insertTuple key t = .ok (page'.size == leafCapacity td) page' ∧
      page'.nextLeaf = page.nextLeaf ∧
      ((∃ j < page.size, keyAt td key page.data j = keyOf key t ∧ page'.size = page.size ∧
          ∀ i, slotBytes page'.data 0 td.length i =
            if i = j then tupleBytes c t else slotBytes page.data 0 td.length i) ∨
        ((∀ i < page.size, keyAt td key page.data i ≠ keyOf key t) ∧ page.size < leafCapacity td ∧
          page'.size = page.size + 1 ∧ ∃ pos ≤ page.size,
            (∀ i < pos, (keyAt td key page.data i).toInt < (keyOf key t).toInt) ∧
            (∀ i, pos ≤ i → i < page.size → (keyOf key t).toInt < (keyAt td key page.data i).toInt) ∧
            ∀ i ≤ page.size, slotBytes page'.data 0 td.length i =
              if i = pos then tupleBytes c t else slotBytes page.data 0 td.length (if pos < i then i - 1 else i)) ∨
        ((∀ i < page.size, keyAt td key page.data i ≠ keyOf key t) ∧ page.size = leafCapacity td ∧ page' = page)) := by
  have keyed := keyOf_spec key compatible
  obtain ⟨bound, below, above⟩ := insertPos_bounds key sorted t
  by_cases found : insertPos key page t < page.size ∧ keyAt td key page.data (insertPos key page t) = keyOf key t
  · refine ⟨{ page with data := storeBytes page.data (insertPos key page t * td.length) (tupleBytes c t) },
      by rw [insertTuple_found keyed found, run_bind, onData_serialize compatible]; rfl, rfl,
      .inl ⟨_, found.1, found.2, rfl, fun i => slots_overwrite _ _ _ compatible⟩⟩
  · have absent : ∀ i < page.size, keyAt td key page.data i ≠ keyOf key t := fun i inside same =>
      found ((insertPos_found_iff key sorted t).mpr ⟨i, inside, same⟩)
    have strict : ∀ i, insertPos key page t ≤ i → i < page.size →
        (keyOf key t).toInt < (keyAt td key page.data i).toInt := fun i low high =>
      lt_of_le_of_ne (above i low high) fun same => absent i high (BitVec.toInt_inj.mp same.symm)
    rcases Nat.lt_or_ge page.size (leafCapacity td) with room | full
    · refine ⟨⟨page.nextLeaf, page.size + 1, storeBytes (memmove page.data ((insertPos key page t + 1) * td.length)
          (insertPos key page t * td.length) ((page.size - insertPos key page t) * td.length))
          (insertPos key page t * td.length) (tupleBytes c t), room⟩,
        by rw [insertTuple_shift keyed found room, run_bind, onData_serialize compatible]; rfl, rfl,
        .inr (.inl ⟨absent, room, rfl, _, bound, below, strict, fun i inside => ?_⟩)⟩
      exact slots_shift _ _ _ _ compatible bound inside
    · have equal := Nat.le_antisymm page.fits full
      exact ⟨page, by rw [insertTuple_full keyed found full, equal, beq_self_eq_true], rfl,
        .inr (.inr ⟨absent, equal, rfl⟩)⟩

theorem keyAt_after {m m' : Mem} {t : Tuple} (compatible : td.compatible t) {i p j : Nat}
    (slot : slotBytes m' 0 td.length i = if i = p then tupleBytes c t else slotBytes m 0 td.length j) :
    keyAt td key m' i = if i = p then keyOf key t else keyAt td key m j := by
  split
  · rename_i same
    rw [if_pos same] at slot
    exact keyAt_of_slot key compatible slot
  · rename_i other
    rw [if_neg other] at slot
    exact keyAt_congr key slot

theorem insertTuple_ascending {page page' : LeafPage td} {t : Tuple} (sorted : Ascending key page)
    (compatible : td.compatible t) (ran : page.insertTuple key t = .ok (page'.size == leafCapacity td) page') :
    Ascending key page' := by
  obtain ⟨page'', ran', -, cases⟩ := insertTuple_cases key sorted compatible
  rw [ran] at ran'
  obtain ⟨-, rfl⟩ := EStateM.Result.ok.inj ran'
  rcases cases with ⟨j, -, same, size, slots⟩ | ⟨-, -, size, pos, bound, below, above, slots⟩ | ⟨-, -, rfl⟩
  · intro a b lt inside
    rw [keyAt_after key compatible (slots a), keyAt_after key compatible (slots b)]
    rw [size] at inside
    split <;> split <;> subst_vars <;> first | omega | (rw [← same]; exact sorted _ _ lt inside) | exact sorted _ _ lt inside
  · intro a b lt inside
    rw [size] at inside
    rw [keyAt_after key compatible (slots a (by omega)), keyAt_after key compatible (slots b (by omega)),
      apply_ite BitVec.toInt, apply_ite BitVec.toInt]
    exact ascending_insert sorted bound below above lt inside
  · exact sorted

def leafRun (page : LeafPage td) (ts : List Tuple) : LeafPage td :=
  ts.foldl (fun page t => resultState (page.insertTuple key t)) page

-- After inserting `ts`: sorted keys, each slot the latest tuple of its key, and a key
-- missing only when the page filled up.
def LeafHistory (page : LeafPage td) (ts : List Tuple) : Prop :=
  Ascending key page ∧
    (∀ i < page.size, ∃ t, ts.reverse.find? (fun t => keyOf key t == keyAt td key page.data i) = some t ∧
      slotBytes page.data 0 td.length i = tupleBytes c t) ∧
    ∀ t ∈ ts, (∀ i < page.size, keyAt td key page.data i ≠ keyOf key t) → page.size = leafCapacity td

theorem ascending_distinct {page : LeafPage td} (sorted : Ascending key page) {i j : Nat} (inside : i < page.size)
    (within : j < page.size) (other : i ≠ j) : keyAt td key page.data i ≠ keyAt td key page.data j := by
  intro same
  rcases Nat.lt_or_gt_of_ne other with lt | gt
  · have := sorted i j lt within; rw [same] at this; exact lt_irrefl _ this
  · have := sorted j i gt inside; rw [same] at this; exact lt_irrefl _ this

theorem leafHistory_step {page : LeafPage td} {ts : List Tuple} {t : Tuple} (history : LeafHistory key page ts)
    (compatible : td.compatible t) :
    LeafHistory key (resultState (page.insertTuple key t)) (ts ++ [t]) := by
  obtain ⟨sorted, latest, missing⟩ := history
  obtain ⟨page', ran, -, cases⟩ := insertTuple_cases key sorted compatible
  rw [ran, resultState]
  have newest : ∀ i, keyAt td key page'.data i = keyOf key t →
      ((ts ++ [t]).reverse.find? fun t' => keyOf key t' == keyAt td key page'.data i) = some t := fun i same => by
    rw [List.reverse_append, List.reverse_singleton, List.singleton_append]
    exact List.find?_cons_of_pos _ (by rw [same, beq_self_eq_true])
  have older : ∀ i, keyAt td key page'.data i ≠ keyOf key t →
      ((ts ++ [t]).reverse.find? fun t' => keyOf key t' == keyAt td key page'.data i) =
        ts.reverse.find? fun t' => keyOf key t' == keyAt td key page'.data i := fun i other => by
    rw [List.reverse_append, List.reverse_singleton, List.singleton_append]
    exact List.find?_cons_of_neg _ (by rw [beq_false_of_ne (Ne.symm other)]; exact Bool.false_ne_true)
  refine ⟨insertTuple_ascending key sorted compatible ran, ?_⟩
  rcases cases with ⟨j, within, same, size, slots⟩ | ⟨absent, room, size, pos, bound, below, above, slots⟩ |
    ⟨absent, full, rfl⟩
  · -- the key was at slot `j`, which now holds `t`
    refine ⟨fun i inside => ?_, fun t' member gone => ?_⟩
    · have key' := keyAt_after key compatible (slots i)
      by_cases here : i = j
      · rw [if_pos here] at key'
        exact ⟨t, newest i key', by rw [slots i, if_pos here]⟩
      · rw [if_neg here] at key'
        rw [size] at inside
        have other := ascending_distinct key sorted inside within here
        rw [older i (by rw [key', ← same]; exact other), key', slots i, if_neg here]
        exact latest i inside
    · rcases List.mem_append.mp member with earlier | now
      · have keys : ∀ i, keyAt td key page'.data i = keyAt td key page.data i := fun i =>
          (keyAt_after key compatible (slots i)).trans (by split <;> simp_all)
        rw [size] at gone ⊢
        exact missing t' earlier fun i inside => by rw [← keys]; exact gone i inside
      · rw [List.mem_singleton.mp now] at gone
        exact absurd ((keyAt_after key compatible (slots j)).trans (by simp)) (gone j (by omega))
  · -- `t` went to slot `pos` and the later slots moved up by one
    refine ⟨fun i inside => ?_, fun t' member gone => ?_⟩
    · have key' := keyAt_after key compatible (slots i (by omega))
      by_cases here : i = pos
      · rw [if_pos here] at key'
        exact ⟨t, newest i key', by rw [slots i (by omega), if_pos here]⟩
      · rw [if_neg here] at key'
        have old : (if pos < i then i - 1 else i) < page.size := by split <;> omega
        rw [older i (by rw [key']; exact absent _ old), key', slots i (by omega), if_neg here]
        exact latest _ old
    · rcases List.mem_append.mp member with earlier | now
      · exfalso
        by_cases present : ∃ i < page.size, keyAt td key page.data i = keyOf key t'
        · obtain ⟨i, inside, same⟩ := present
          rcases Nat.lt_or_ge i pos with early | late
          · have moved := keyAt_after key compatible (slots i (by omega))
            rw [if_neg (by omega), if_neg (by omega)] at moved
            exact gone i (by omega) (moved.trans same)
          · have moved := keyAt_after key compatible (slots (i + 1) (by omega))
            rw [if_neg (by omega), if_pos (by omega), Nat.add_sub_cancel] at moved
            exact gone (i + 1) (by omega) (moved.trans same)
        · push_neg at present
          have := missing t' earlier present; omega
      · rw [List.mem_singleton.mp now] at gone
        exact absurd ((keyAt_after key compatible (slots pos bound)).trans (by simp)) (gone pos (by omega))
  · -- the page was full and is unchanged
    exact ⟨fun i inside => by rw [older i (absent i inside)]; exact latest i inside,
      fun t' member gone => (List.mem_append.mp member).elim (fun earlier => missing t' earlier gone) fun _ => full⟩

theorem leafRun_history (page : LeafPage td) (empty : page.size = 0) (ts : List Tuple)
    (compatible : ∀ t ∈ ts, td.compatible t) : LeafHistory key (leafRun key page ts) ts := by
  induction ts using List.reverseRecOn with
  | nil => exact ⟨fun i j _ inside => by simp [leafRun, empty] at inside, fun i inside => by
      simp [leafRun, empty] at inside, fun t member => by cases member⟩
  | append_singleton ts t ih =>
    rw [leafRun, List.foldl_append]
    exact leafHistory_step key (ih fun t' member => compatible t' (List.mem_append_left _ member))
      (compatible t (List.mem_append_right _ (List.mem_singleton_self t)))

theorem insertTuple_upsert_sorted (key : KeyIndex td) :
    (∀ (page : LeafPage td) (t : Tuple), Ascending key page → td.compatible t →
      ∃ page' : LeafPage td, page.insertTuple key t = .ok (page'.size == leafCapacity td) page' ∧
        page'.nextLeaf = page.nextLeaf ∧ Ascending key page' ∧
        (∀ i < page.size, keyAt td key page.data i = keyOf key t →
          page'.size = page.size ∧ page'.slots = page.slots.set i (tupleBytes c t)) ∧
        ((∀ i < page.size, keyAt td key page.data i ≠ keyOf key t) → page.size < leafCapacity td →
          page'.size = page.size + 1 ∧ ∃ pos ≤ page.size,
            (∀ i < pos, (keyAt td key page.data i).toInt < (keyOf key t).toInt) ∧
            (∀ i, pos ≤ i → i < page.size → (keyOf key t).toInt < (keyAt td key page.data i).toInt) ∧
            page'.slots = page.slots.insertIdx pos (tupleBytes c t)) ∧
        ((∀ i < page.size, keyAt td key page.data i ≠ keyOf key t) → page.size = leafCapacity td → page' = page)) ∧
    ∀ (page : LeafPage td) (ts : List Tuple), page.size = 0 → (∀ t ∈ ts, td.compatible t) →
      LeafHistory key (leafRun key page ts) ts := by
  refine ⟨fun page t sorted compatible => ?_, fun page ts empty compatible => leafRun_history key page empty ts compatible⟩
  obtain ⟨page', ran, next, cases⟩ := insertTuple_cases key sorted compatible
  refine ⟨page', ran, next, insertTuple_ascending key sorted compatible ran, ?_⟩
  rcases cases with ⟨j, within, same, size, slots⟩ | ⟨absent, room, size, pos, bound, below, above, slots⟩ |
    ⟨absent, full, rfl⟩
  · refine ⟨fun i inside found => ?_, fun absent => absurd same (absent j within),
      fun absent => absurd same (absent j within)⟩
    obtain rfl : i = j := by
      by_contra other
      exact ascending_distinct key sorted inside within other (found.trans same.symm)
    refine ⟨size, ?_⟩
    rw [LeafPage.slots, LeafPage.slots, size, ← range_map_set]
    exact List.map_congr_left fun i _ => slots i
  · refine ⟨fun i inside found => absurd found (absent i inside), fun _ _ => ⟨size, pos, bound, below, above, ?_⟩,
      fun _ full => by omega⟩
    rw [LeafPage.slots, LeafPage.slots, size, ← range_map_insertIdx _ _ bound]
    refine List.map_congr_left fun i member => ?_
    rw [slots i (by simpa [Nat.lt_succ_iff] using member)]
    split <;> [rfl; split <;> rfl]
  · exact ⟨fun i inside found => absurd found (absent i inside), fun _ room => by omega, fun _ _ => rfl⟩

end LeafFacts

-- A schema {id: INT, name: CHAR} of 2040-byte tuples: a leaf holds two.
def wideSchema : TupleDesc 2036 := ⟨[.int, .char], ["id", "name"], rfl, by decide⟩

def wideKey : KeyIndex wideSchema := ⟨0, rfl⟩

def wideLeaf : LeafPage wideSchema :=
  ⟨0, 2, storeBytes (storeBytes zeroPage 0 (leBytes 1 4)) 2040 (leBytes 5 4), by decide⟩

theorem wideLeaf_sorted : Ascending wideKey wideLeaf := by
  intro i j lt inside
  obtain ⟨rfl, rfl⟩ : i = 0 ∧ j = 1 := by change j < 2 at inside; omega
  decide

-- insertTuple of an INT-keyed tuple serialize rejects: a full page returns first, and a
-- page with room has shifted its later slots when serialize throws.
theorem insertTuple_incompatible {c : Nat} {td : TupleDesc c} (key : KeyIndex td) (page : LeafPage td)
    (t : Tuple) (sorted : Ascending key page) (keyed : ∃ k, t[key.index]? = some (.int k))
    (incompatible : td.compatible t = false) :
    ((∃ i < page.size, keyAt td key page.data i = keyOf key t) →
      page.insertTuple key t = .error "TupleDesc::serialize: tuple incompatible with schema" page) ∧
    ((∀ i < page.size, keyAt td key page.data i ≠ keyOf key t) → page.size = leafCapacity td →
      page.insertTuple key t = .ok true page) ∧
    ((∀ i < page.size, keyAt td key page.data i ≠ keyOf key t) → page.size < leafCapacity td →
      page.insertTuple key t = .error "TupleDesc::serialize: tuple incompatible with schema"
        { page with data := (memmove page.data ((insertPos key page t + 1) * td.length)
            (insertPos key page t * td.length) ((page.size - insertPos key page t) * td.length)) }) := by
  obtain ⟨k, keyed⟩ := keyed
  obtain rfl := keyOf_of_int key keyed
  have missing (absent : ∀ i < page.size, keyAt td key page.data i ≠ keyOf key t) :
      ¬(insertPos key page t < page.size ∧ keyAt td key page.data (insertPos key page t) = keyOf key t) :=
    fun found => absent _ found.1 found.2
  refine ⟨fun present => ?_, fun absent full => insertTuple_full keyed (missing absent) full.ge,
    fun absent room => ?_⟩
  · rw [insertTuple_found keyed ((insertPos_found_iff key sorted t).mpr present), run_bind,
      onData_serialize_rejects incompatible]
  · rw [insertTuple_shift keyed (missing absent) room, run_bind, onData_serialize_rejects incompatible]

theorem incompatible_full_leaf_returns :
    Ascending wideKey wideLeaf ∧ wideSchema.compatible [.int 3] = false ∧
      wideLeaf.insertTuple wideKey [.int 3] = .ok true wideLeaf := by
  refine ⟨wideLeaf_sorted, rfl, insertTuple_full rfl (fun ⟨inside, same⟩ => ?_) (by decide)⟩
  have : insertPos wideKey wideLeaf [.int 3] < 2 := inside
  interval_cases h : insertPos wideKey wideLeaf [.int 3] <;> revert same <;> decide

def intSchema : TupleDesc 0 := ⟨[.int], ["id"], rfl, by decide⟩

def intKey : KeyIndex intSchema := ⟨0, rfl⟩

-- A leaf with room holding the keys 1, 5 and 9.
def threeLeaf : LeafPage intSchema :=
  ⟨0, 3, storeBytes (storeBytes (storeBytes zeroPage 0 (leBytes 1 4)) 4 (leBytes 5 4)) 8 (leBytes 9 4), by decide⟩

theorem incompatible_insert_shifts_slots :
    Ascending intKey threeLeaf ∧ intSchema.compatible [.int 3, .int 0] = false ∧
      (List.range 3).map (keyAt intSchema intKey threeLeaf.data) = [1, 5, 9] ∧
      ∃ page' : LeafPage intSchema, threeLeaf.insertTuple intKey [.int 3, .int 0] =
          .error "TupleDesc::serialize: tuple incompatible with schema" page' ∧
        page'.size = 3 ∧ page'.nextLeaf = 0 ∧ (List.range 3).map (keyAt intSchema intKey page'.data) = [1, 5, 5] := by
  have sorted : Ascending intKey threeLeaf := by
    intro i j lt inside
    change j < 3 at inside
    interval_cases j <;> interval_cases i <;> decide
  have pos : insertPos intKey threeLeaf [.int 3, .int 0] = 1 := by
    obtain ⟨bound, below, above⟩ := insertPos_bounds intKey sorted [.int 3, .int 0]
    have : insertPos intKey threeLeaf [.int 3, .int 0] ≤ 3 := bound
    interval_cases h : insertPos intKey threeLeaf [.int 3, .int 0]
    · exact absurd (above 0 (by omega) (by decide)) (by decide)
    · rfl
    all_goals exact absurd (below 1 (by omega)) (by decide)
  refine ⟨sorted, rfl, by decide, _, (insertTuple_incompatible intKey threeLeaf [.int 3, .int 0] sorted ⟨3, rfl⟩ rfl).2.2
    (fun i inside => ?_) (by decide), rfl, rfl, by rw [pos]; decide⟩
  change i < 3 at inside
  interval_cases i <;> decide

-- LeafPage::split once the empty-page check has passed.
theorem split_spec {c : Nat} {td : TupleDesc c} (key : KeyIndex td) (page newPage : LeafPage td)
    (nonempty : 0 < page.size) :
    ∃ left right : LeafPage td,
      LeafPage.split key (page, newPage) = .ok (keyAt td key page.data (page.size / 2)) (left, right) ∧
      left.size = page.size / 2 ∧ left.data = page.data ∧ left.nextLeaf = page.nextLeaf ∧
      right.size = page.size - page.size / 2 ∧ right.nextLeaf = page.nextLeaf ∧
      ∀ j < right.size, slotBytes right.data 0 td.length j = slotBytes page.data 0 td.length (page.size / 2 + j) := by
  refine ⟨_, _, by simp only [LeafPage.split, run_bind, run_get, Nat.pos_iff_ne_zero.mp nonempty, if_false]; rfl,
    by rfl, by rfl, by rfl, by rfl, by rfl, fun j inside => ?_⟩
  exact (slotBytes_copy _ _ _ _ j).trans (if_pos inside)

theorem split_halves {c : Nat} {td : TupleDesc c} (key : KeyIndex td) (page newPage : LeafPage td)
    (sorted : Ascending key page) (nonempty : 0 < page.size) :
    ∃ left right : LeafPage td,
      LeafPage.split key (page, newPage) = .ok (keyAt td key right.data 0) (left, right) ∧
      left.size = page.size / 2 ∧ right.size = page.size - page.size / 2 ∧
      left.slots = page.slots.take (page.size / 2) ∧ right.slots = page.slots.drop (page.size / 2) ∧
      left.nextLeaf = page.nextLeaf ∧ right.nextLeaf = page.nextLeaf ∧
      (∀ i < left.size, (keyAt td key left.data i).toInt < (keyAt td key right.data 0).toInt) ∧
      (∀ j < right.size, (keyAt td key right.data 0).toInt ≤ (keyAt td key right.data j).toInt) ∧
      left.slots ++ right.slots = page.slots ∧ Ascending key left ∧ Ascending key right := by
  obtain ⟨left, right, ran, leftSize, leftData, leftNext, rightSize, rightNext, moved⟩ :=
    split_spec key page newPage nonempty
  have keys : ∀ j < right.size, keyAt td key right.data j = keyAt td key page.data (page.size / 2 + j) :=
    fun j inside => keyAt_congr key (moved j inside)
  have first : keyAt td key right.data 0 = keyAt td key page.data (page.size / 2) := keys 0 (by omega)
  have leftSlots : left.slots = page.slots.take (page.size / 2) := by
    rw [LeafPage.slots, LeafPage.slots, leftSize, leftData, ← List.map_take, List.take_range,
      Nat.min_eq_left (Nat.div_le_self _ _)]
  have rightSlots : right.slots = page.slots.drop (page.size / 2) := by
    apply List.ext_getElem (by simp [LeafPage.slots, rightSize])
    intro j inside _
    simp only [LeafPage.slots, List.length_map, List.length_range] at inside
    simp [LeafPage.slots, moved j inside]
  refine ⟨left, right, by rw [ran, first], leftSize, rightSize, leftSlots, rightSlots, leftNext, rightNext,
    fun i inside => ?_, fun j inside => ?_, by rw [leftSlots, rightSlots, List.take_append_drop],
    fun i j lt inside => ?_, fun i j lt inside => ?_⟩
  · rw [first, leftData]; exact sorted _ _ (by omega) (by omega)
  · rw [first, keys j inside]
    rcases Nat.eq_zero_or_pos j with rfl | pos
    · exact le_rfl
    · exact (sorted _ _ (by omega) (by omega)).le
  · rw [leftData]; exact sorted _ _ lt (by omega)
  · rw [keys i (by omega), keys j inside]; exact sorted _ _ (by omega) (by omega)

theorem wideLeaf_split :
    ∃ left right : LeafPage wideSchema,
      LeafPage.split wideKey (wideLeaf, wideLeaf) = .ok (keyAt wideSchema wideKey right.data 0) (left, right) ∧
      left.size = 1 ∧ right.size = 1 ∧ left.nextLeaf = 0 ∧ right.nextLeaf = 0 := by
  obtain ⟨left, right, ran, leftSize, rightSize, -, -, leftNext, rightNext, -⟩ :=
    split_halves wideKey wideLeaf wideLeaf wideLeaf_sorted (by decide)
  exact ⟨left, right, ran, leftSize, rightSize, leftNext, rightNext⟩

section Frame
variable {c : Nat} {td : TupleDesc c} (key : KeyIndex td)

theorem lowerBound_le (data : Mem) (k : BitVec 32) (lo hi : Nat) : lo ≤ hi → lowerBound td key data k lo hi ≤ hi := by
  induction lo, hi using lowerBound.induct td key data k with
  | case1 lo hi lt mid below ih => intro; rw [lowerBound, if_pos lt, if_pos below]; exact ih (by omega)
  | case2 lo hi lt mid above ih => intro; rw [lowerBound, if_pos lt, if_neg above]; exact (ih (by omega)).trans (by omega)
  | case3 lo hi ge => intro le; rw [lowerBound, if_neg ge]; exact le

theorem insertTuple_frame (page : LeafPage td) (t : Tuple) {a : Nat} (past : leafCapacity td * td.length ≤ a) :
    (resultState (page.insertTuple key t)).data a = page.data a := by
  have fits := page.fits
  rcases keyed : t[key.index]? with _ | (k | k | k)
  · simp [LeafPage.insertTuple, keyed, resultState]
  · have keyed' : t[key.index]? = some (.int (keyOf key t)) := by rw [keyOf_of_int key keyed, keyed]
    have bound : insertPos key page t ≤ page.size := lowerBound_le key _ _ 0 _ (Nat.zero_le _)
    by_cases found : insertPos key page t < page.size ∧ keyAt td key page.data (insertPos key page t) = keyOf key t
    · have slot := Nat.mul_le_mul_right td.length (Nat.succ_le_of_lt (found.1.trans_le fits))
      rw [insertTuple_found keyed' found, run_bind]
      cases compatible : td.compatible t
      · rw [onData_serialize_rejects compatible]; rfl
      · rw [onData_serialize compatible]
        exact storeBytes_outside _ (.inr (by rw [tupleBytes_length_of_compatible compatible, ← Nat.succ_mul]; omega))
    by_cases room : page.size < leafCapacity td
    · have moved : (insertPos key page t + 1) * td.length + (page.size - insertPos key page t) * td.length ≤ a := by
        rw [← Nat.add_mul, show insertPos key page t + 1 + (page.size - insertPos key page t) = page.size + 1 by omega]
        exact (Nat.mul_le_mul_right _ room).trans past
      have shifted : memmove page.data ((insertPos key page t + 1) * td.length) (insertPos key page t * td.length)
          ((page.size - insertPos key page t) * td.length) a = page.data a := copy_outside _ _ (.inr moved)
      rw [insertTuple_shift keyed' found room, run_bind]
      cases compatible : td.compatible t
      · rw [onData_serialize_rejects compatible]; exact shifted
      · rw [onData_serialize compatible]
        refine (storeBytes_outside _ (.inr ?_)).trans shifted
        rw [tupleBytes_length_of_compatible compatible, ← Nat.add_one_mul]; omega
    · rw [insertTuple_full keyed' found (by omega)]; rfl
  · simp [LeafPage.insertTuple, keyed, resultState]
  · simp [LeafPage.insertTuple, keyed, resultState]

theorem split_frame (page newPage : LeafPage td) {a : Nat} (past : leafCapacity td * td.length ≤ a) :
    (resultState (LeafPage.split key (page, newPage))).1.data a = page.data a ∧
      (resultState (LeafPage.split key (page, newPage))).2.data a = newPage.data a := by
  by_cases empty : page.size = 0
  · simp [LeafPage.split, empty, resultState]
  · have moved := Nat.mul_le_mul_right td.length ((Nat.sub_le page.size (page.size / 2)).trans page.fits)
    simp only [LeafPage.split, run_bind, run_get, empty, if_false, run_set, run_pure, resultState, true_and]
    exact copy_outside _ _ (.inr (by omega))

-- LeafPage keeps its tuples in its first capacity slots, inside the page, and neither
-- inserts nor a split write past them, whatever the page's bytes.
theorem leaf_writes_in_page (key : KeyIndex td) :
    leafHeaderSize + leafCapacity td * td.length ≤ defaultPageSize ∧
      ∀ (page : LeafPage td) (a : Nat), leafCapacity td * td.length ≤ a →
        (∀ ts, (leafRun key page ts).data a = page.data a) ∧
        ∀ newPage, (resultState (LeafPage.split key (page, newPage))).1.data a = page.data a ∧
          (resultState (LeafPage.split key (page, newPage))).2.data a = newPage.data a := by
  refine ⟨?_, fun page a past => ⟨fun ts => ?_, fun newPage => split_frame key page newPage past⟩⟩
  · have := Nat.div_mul_le_self (defaultPageSize - leafHeaderSize) td.length
    unfold leafCapacity; unfold defaultPageSize leafHeaderSize at *; omega
  · induction ts generalizing page with
    | nil => rfl
    | cons t ts ih => exact (ih _).trans (insertTuple_frame key page t past)

end Frame

theorem wideLeaf_run_in_page :
    (leafRun wideKey wideLeaf [[.int 3, .char [97]], [.char [98]]]).data 4080 = wideLeaf.data 4080 :=
  ((leaf_writes_in_page wideKey).2 wideLeaf 4080 (by decide)).1 _

end PagedDb
