import PagedDb.Basic

namespace PagedDb

-- sizeof(IndexPageHeader): a uint16_t size and a uint8_t index_children, padded to 4.
def indexHeaderSize : Nat := 4

-- IndexPage::IndexPage: `capacity` int32 keys and `capacity + 1` size_t children.
def indexCapacity : Nat :=
  let rem := defaultPageSize - indexHeaderSize
  if rem > 8 then (rem - 8) / (4 + 8) else 0

def indexChildrenOffset : Nat := indexHeaderSize + indexCapacity * 4

example : indexCapacity = 340 ∧ indexChildrenOffset + (indexCapacity + 1) * 8 ≤ defaultPageSize := by decide

-- The view IndexPage::IndexPage builds; the constructor resets a size beyond capacity.
structure IndexPage where
  size : Nat
  indexChildren : UInt8
  keys : Nat → BitVec 32
  children : Nat → UInt64
  fits : size ≤ indexCapacity

-- IndexPage::IndexPage over a page buffer (little-endian fields).
def IndexPage.ofPage (page : Page) : IndexPage :=
  let size := leValue (readBytes page 0 2)
  { size := if size > indexCapacity then 0 else size
    indexChildren := page 2
    keys := fun i => BitVec.ofNat 32 (leValue (readBytes page (indexHeaderSize + i * 4) 4))
    children := fun i => UInt64.ofNat (leValue (readBytes page (indexChildrenOffset + i * 8) 8))
    fits := by split <;> omega }

-- The `while (pos < n && keys[pos] < key) ++pos;` scan.
def scanFrom (keys : Nat → BitVec 32) (key : BitVec 32) (pos : Nat) : Nat → Nat
  | 0 => pos
  | left + 1 => if (keys pos).toInt < key.toInt then scanFrom keys key (pos + 1) left else pos

-- IndexPage::insert
def IndexPage.insert (key : BitVec 32) (child : UInt64) : EStateM String IndexPage Bool := do
  let page ← get
  let n := page.size
  if full : n ≥ indexCapacity then return true
  else
    let pos := scanFrom page.keys key 0 n
    let keys := if n > pos then memmove page.keys (pos + 1) pos (n - pos) else page.keys
    let children := if n + 1 > pos + 1 then memmove page.children (pos + 2) (pos + 1) (n - pos) else page.children
    set ({ page with
      keys := Function.update keys pos key
      children := Function.update children (pos + 1) child
      size := n + 1
      fits := by omega } : IndexPage)
    return n + 1 == indexCapacity

-- IndexPage::split; on an empty page `right` would wrap to 65535, which callers exclude.
def IndexPage.split : EStateM String (IndexPage × IndexPage) (BitVec 32) := do
  let (page, newPage) ← get
  let n := page.size
  if n = 0 then throw "undefined: split of an empty index page"
  let mid := n / 2
  let upKey := page.keys mid
  let right := n - mid - 1
  let newKeys := if right > 0 then copy newPage.keys 0 page.keys (mid + 1) right else newPage.keys
  set (({ page with size := mid, fits := by have := page.fits; omega } : IndexPage),
    ({ newPage with
      keys := newKeys
      children := copy newPage.children 0 page.children (mid + 1) (right + 1)
      size := right
      indexChildren := page.indexChildren
      fits := by have := page.fits; omega } : IndexPage))
  return upKey

def IndexPage.keyList (page : IndexPage) : List (BitVec 32) := (List.range page.size).map page.keys

def IndexPage.childList (page : IndexPage) : List UInt64 := (List.range (page.size + 1)).map page.children

def IndexPage.Ascending (page : IndexPage) : Prop :=
  ∀ i j, i < j → j < page.size → (page.keys i).toInt < (page.keys j).toInt

inductive IndexEntry where
  | child (c : UInt64)
  | key (k : BitVec 32)
  deriving DecidableEq, Repr

-- children[start], keys[start], ..., keys[start + n - 1], children[start + n].
def interleave (keys : Nat → BitVec 32) (children : Nat → UInt64) (start : Nat) : Nat → List IndexEntry
  | 0 => [.child (children start)]
  | n + 1 => .child (children start) :: .key (keys start) :: interleave keys children (start + 1) n

def IndexPage.interleaving (page : IndexPage) : List IndexEntry := interleave page.keys page.children 0 page.size

section Interleave
variable (keys : Nat → BitVec 32) (children : Nat → UInt64)

theorem interleave_append (start a b : Nat) :
    interleave keys children start (a + 1 + b) =
      interleave keys children start a ++ .key (keys (start + a)) :: interleave keys children (start + a + 1) b := by
  induction a generalizing start with
  | zero => rw [Nat.zero_add, Nat.add_comm]; rfl
  | succ a ih =>
    rw [show a + 1 + 1 + b = a + 1 + b + 1 by omega, interleave, interleave, ih, Nat.add_right_comm start 1 a,
      ← Nat.add_assoc]
    rfl

theorem interleave_congr {keys' : Nat → BitVec 32} {children' : Nat → UInt64} (start start' n : Nat)
    (sameKeys : ∀ j < n, keys' (start' + j) = keys (start + j))
    (sameChildren : ∀ j ≤ n, children' (start' + j) = children (start + j)) :
    interleave keys' children' start' n = interleave keys children start n := by
  induction n generalizing start start' with
  | zero => simpa [interleave] using sameChildren 0 le_rfl
  | succ n ih =>
    have rest := ih (start + 1) (start' + 1)
      (fun j inside => by rw [Nat.add_assoc, Nat.add_assoc, Nat.add_comm 1 j]; exact sameKeys (j + 1) (by omega))
      fun j inside => by rw [Nat.add_assoc, Nat.add_assoc, Nat.add_comm 1 j]; exact sameChildren (j + 1) (by omega)
    rw [interleave, interleave, rest, ← Nat.add_zero start', sameKeys 0 (by omega), sameChildren 0 (by omega),
      Nat.add_zero, Nat.add_zero]

end Interleave

section Insert
variable (keys : Nat → BitVec 32) (key : BitVec 32)

theorem scanFrom_spec (pos left : Nat) :
    pos ≤ scanFrom keys key pos left ∧ scanFrom keys key pos left ≤ pos + left ∧
      (∀ i, pos ≤ i → i < scanFrom keys key pos left → (keys i).toInt < key.toInt) ∧
      (scanFrom keys key pos left < pos + left → key.toInt ≤ (keys (scanFrom keys key pos left)).toInt) := by
  induction left generalizing pos with
  | zero => exact ⟨le_rfl, le_rfl, fun i low high => absurd high (by simp [scanFrom]; omega), by simp [scanFrom]⟩
  | succ left ih =>
    by_cases below : (keys pos).toInt < key.toInt
    · obtain ⟨low, high, before, stop⟩ := ih (pos + 1)
      simp only [scanFrom, if_pos below]
      refine ⟨by omega, by omega, fun i early late => ?_, fun short => stop (by omega)⟩
      rcases Nat.eq_or_lt_of_le early with rfl | later
      · exact below
      · exact before i later late
    · simp only [scanFrom, if_neg below]
      exact ⟨le_rfl, by omega, fun i low high => absurd high (by omega), fun _ => le_of_not_lt below⟩

theorem insert_spec (page : IndexPage) (child : UInt64) (room : page.size < indexCapacity) :
    ∃ page' : IndexPage, page.insert key child = .ok (page.size + 1 == indexCapacity) page' ∧
      page'.size = page.size + 1 ∧ page'.indexChildren = page.indexChildren ∧
      (∀ i ≤ page.size, page'.keys i = if i = scanFrom page.keys key 0 page.size then key
        else page.keys (if scanFrom page.keys key 0 page.size < i then i - 1 else i)) ∧
      ∀ i ≤ page.size + 1, page'.children i = if i = scanFrom page.keys key 0 page.size + 1 then child
        else page.children (if scanFrom page.keys key 0 page.size + 1 < i then i - 1 else i) := by
  refine ⟨_, by simp only [IndexPage.insert, run_bind, run_get, dif_neg (Nat.not_le.mpr room)]; rfl,
    by rfl, by rfl, fun i inside => ?_, fun i inside => ?_⟩
  · simp only [Function.update_apply]
    split
    · rfl
    · exact shift_up_apply _ inside
  · simp only [Function.update_apply]
    split
    · rfl
    · rw [show page.size - scanFrom page.keys key 0 page.size =
          page.size + 1 - (scanFrom page.keys key 0 page.size + 1) by omega]
      exact shift_up_apply _ inside

theorem insert_full (page : IndexPage) (child : UInt64) (full : indexCapacity ≤ page.size) :
    page.insert key child = .ok true page := by
  simp [IndexPage.insert, full]

end Insert

-- IndexPage::insert: unchanged when full; otherwise both arrays shift right from the
-- scan's stop and the new child lands right after the interval holding `key`.
theorem insert_shifts (page : IndexPage) (key : BitVec 32) (child : UInt64) :
    (indexCapacity ≤ page.size → page.insert key child = .ok true page) ∧
    (page.size < indexCapacity → ∃ page' : IndexPage,
      page.insert key child = .ok (page'.size == indexCapacity) page' ∧
      page'.size = page.size + 1 ∧ page'.indexChildren = page.indexChildren ∧
      ∃ pos ≤ page.size, (∀ i < pos, (page.keys i).toInt < key.toInt) ∧
        (pos < page.size → key.toInt ≤ (page.keys pos).toInt) ∧
        page'.keyList = page.keyList.insertIdx pos key ∧
        page'.childList = page.childList.insertIdx (pos + 1) child ∧
        (page.Ascending → (∀ i < page.size, page.keys i ≠ key) →
          page'.Ascending ∧ page'.children pos = page.children pos ∧ page'.children (pos + 1) = child ∧
          ∀ i, pos ≤ i → i < page.size → key.toInt < (page.keys i).toInt)) := by
  refine ⟨insert_full key page child, fun room => ?_⟩
  obtain ⟨page', ran, size, index, keys, children⟩ := insert_spec key page child room
  obtain ⟨-, bound, below, stop⟩ := scanFrom_spec page.keys key 0 page.size
  simp only [Nat.zero_add] at bound below stop
  set pos := scanFrom page.keys key 0 page.size
  have above (sorted : page.Ascending) (absent : ∀ i < page.size, page.keys i ≠ key) :
      ∀ i, pos ≤ i → i < page.size → key.toInt < (page.keys i).toInt := fun i low high => by
    rcases Nat.eq_or_lt_of_le low with rfl | later
    · exact lt_of_le_of_ne (stop high) fun same => absent pos high (BitVec.toInt_inj.mp same.symm)
    · exact lt_of_le_of_lt (stop (by omega)) (sorted _ _ later high)
  refine ⟨page', by rw [ran, size], size, index, pos, bound, fun i early => below i (Nat.zero_le _) early, stop, ?_, ?_,
    fun sorted absent => ⟨fun i j lt inside => ?_, ?_, ?_, above sorted absent⟩⟩
  · rw [IndexPage.keyList, IndexPage.keyList, size, ← range_map_insertIdx _ _ bound]
    exact List.map_congr_left fun i member => (keys i (by simpa [Nat.lt_succ_iff] using member)).trans
      (by split <;> [rfl; split <;> rfl])
  · rw [IndexPage.childList, IndexPage.childList, size, ← range_map_insertIdx _ _ (by omega)]
    exact List.map_congr_left fun i member => (children i (by simpa [Nat.lt_succ_iff] using member)).trans
      (by split <;> [rfl; split <;> rfl])
  · rw [size] at inside
    rw [keys i (by omega), keys j (by omega), apply_ite BitVec.toInt, apply_ite BitVec.toInt]
    exact ascending_insert sorted bound (fun i early => below i (Nat.zero_le _) early) (above sorted absent) lt inside
  · rw [children pos (by omega), if_neg (by omega), if_neg (by omega)]
  · rw [children (pos + 1) (by omega), if_pos rfl]

theorem insert_frame (page : IndexPage) (key : BitVec 32) (child : UInt64) (i : Nat) :
    (indexCapacity ≤ i → (resultState (page.insert key child)).keys i = page.keys i) ∧
      (indexCapacity < i → (resultState (page.insert key child)).children i = page.children i) := by
  by_cases full : indexCapacity ≤ page.size
  · rw [insert_full key page child full]; exact ⟨fun _ => rfl, fun _ => rfl⟩
  obtain ⟨-, bound, -, -⟩ := scanFrom_spec page.keys key 0 page.size
  simp only [IndexPage.insert, run_bind, run_get, dif_neg full, run_set, run_pure, resultState]
  refine ⟨fun past => ?_, fun past => ?_⟩ <;> rw [Function.update_noteq (by omega)] <;> split
  all_goals first | rfl | exact copy_outside _ _ (.inr (by omega))

def unsortedIndex : IndexPage := ⟨2, 0, fun i => [5, 1].getD i 0, fun i => i.toUInt64, by decide⟩

theorem insert_unsorted_keys :
    (resultState (unsortedIndex.insert 3 7)).keyList = [3, 5, 1] ∧
      (resultState (unsortedIndex.insert 3 7)).keyList ≠
        unsortedIndex.keyList.insertIdx (unsortedIndex.keyList.countP fun k => k.toInt < (3 : BitVec 32).toInt) 3 := by
  decide

theorem IndexPage.split_spec (page newPage : IndexPage) (nonempty : 0 < page.size) :
    ∃ left right : IndexPage,
      IndexPage.split (page, newPage) = .ok (page.keys (page.size / 2)) (left, right) ∧
      left.size = page.size / 2 ∧ left.keys = page.keys ∧ left.children = page.children ∧
      left.indexChildren = page.indexChildren ∧
      right.size = page.size - page.size / 2 - 1 ∧ right.indexChildren = page.indexChildren ∧
      (∀ j < right.size, right.keys j = page.keys (page.size / 2 + 1 + j)) ∧
      ∀ j ≤ right.size, right.children j = page.children (page.size / 2 + 1 + j) := by
  refine ⟨_, _, by simp only [IndexPage.split, run_bind, run_get, Nat.pos_iff_ne_zero.mp nonempty, if_false]; rfl,
    by rfl, by rfl, by rfl, by rfl, by rfl, by rfl, fun j inside => ?_, fun j inside => ?_⟩
  · dsimp only at inside ⊢
    rw [if_pos (by omega), copy_inside _ _ (Nat.zero_le j) (by omega), Nat.sub_zero]
  · dsimp only at inside ⊢
    rw [copy_inside _ _ (Nat.zero_le j) (by omega), Nat.sub_zero]

-- IndexPage::split moves the middle key up: the search order of the page is the left
-- half's, the key, then the right half's.
theorem split_promotes_middle (page newPage : IndexPage) (nonempty : 0 < page.size) :
    ∃ left right : IndexPage,
      IndexPage.split (page, newPage) = .ok (page.keys (page.size / 2)) (left, right) ∧
      left.size = page.size / 2 ∧ right.size = page.size - page.size / 2 - 1 ∧
      left.indexChildren = page.indexChildren ∧ right.indexChildren = page.indexChildren ∧
      left.keyList = page.keyList.take (page.size / 2) ∧
      left.childList = page.childList.take (page.size / 2 + 1) ∧
      right.keyList = page.keyList.drop (page.size / 2 + 1) ∧
      right.childList = page.childList.drop (page.size / 2 + 1) ∧
      page.interleaving = left.interleaving ++ .key (page.keys (page.size / 2)) :: right.interleaving ∧
      (page.Ascending →
        (∀ i < left.size, (left.keys i).toInt < (page.keys (page.size / 2)).toInt) ∧
        (∀ j < right.size, (page.keys (page.size / 2)).toInt < (right.keys j).toInt) ∧
        left.Ascending ∧ right.Ascending) := by
  obtain ⟨left, right, ran, leftSize, leftKeys, leftChildren, leftIndex, rightSize, rightIndex, keys, children⟩ :=
    IndexPage.split_spec page newPage nonempty
  have total : page.size = page.size / 2 + 1 + right.size := by omega
  refine ⟨left, right, ran, leftSize, rightSize, leftIndex, rightIndex, ?_, ?_, ?_, ?_, ?_,
    fun sorted => ⟨fun i inside => ?_, fun j inside => ?_, fun i j lt inside => ?_, fun i j lt inside => ?_⟩⟩
  · rw [IndexPage.keyList, IndexPage.keyList, leftSize, leftKeys, ← List.map_take, List.take_range,
      Nat.min_eq_left (Nat.div_le_self _ _)]
  · rw [IndexPage.childList, IndexPage.childList, leftSize, leftChildren, ← List.map_take, List.take_range,
      Nat.min_eq_left (by omega)]
  · rw [IndexPage.keyList, IndexPage.keyList, range_map_drop _ keys, ← total]
  · rw [IndexPage.childList, IndexPage.childList, range_map_drop _ fun j inside => children j (by omega),
      ← Nat.add_assoc, ← total]
  · have cut := interleave_append page.keys page.children 0 (page.size / 2) right.size
    rw [← total, Nat.zero_add] at cut
    rw [IndexPage.interleaving, IndexPage.interleaving, IndexPage.interleaving, leftSize, leftKeys, leftChildren, cut,
      interleave_congr page.keys page.children (page.size / 2 + 1) 0 right.size
        (fun j inside => by simpa using keys j inside) fun j inside => by simpa using children j inside]
  · rw [leftKeys]; exact sorted _ _ (by omega) (by omega)
  · rw [keys j inside]; exact sorted _ _ (by omega) (by omega)
  · rw [leftKeys]; exact sorted _ _ lt (by omega)
  · rw [keys i (by omega), keys j inside]; exact sorted _ _ (by omega) (by omega)

theorem split_frame_index (page newPage : IndexPage) (nonempty : 0 < page.size) (i : Nat) :
    (resultState (IndexPage.split (page, newPage))).1.keys = page.keys ∧
      (resultState (IndexPage.split (page, newPage))).1.children = page.children ∧
      (indexCapacity ≤ i → (resultState (IndexPage.split (page, newPage))).2.keys i = newPage.keys i) ∧
      (indexCapacity < i → (resultState (IndexPage.split (page, newPage))).2.children i = newPage.children i) := by
  have fits := page.fits
  simp only [IndexPage.split, run_bind, run_get, Nat.pos_iff_ne_zero.mp nonempty, if_false, run_set, run_pure,
    resultState, true_and]
  refine ⟨fun past => ?_, fun past => copy_outside _ _ (.inr (by omega))⟩
  split
  · exact copy_outside _ _ (.inr (by omega))
  · rfl

-- Neither insert nor split writes a key or a child past its array, whatever the arrays hold.
theorem index_writes_in_arrays :
    indexChildrenOffset + (indexCapacity + 1) * 8 ≤ defaultPageSize ∧
      (∀ (page : IndexPage) key child i,
        (indexCapacity ≤ i → (resultState (page.insert key child)).keys i = page.keys i) ∧
        (indexCapacity < i → (resultState (page.insert key child)).children i = page.children i)) ∧
      ∀ page newPage : IndexPage, 0 < page.size → ∀ i,
        (resultState (IndexPage.split (page, newPage))).1.keys = page.keys ∧
        (resultState (IndexPage.split (page, newPage))).1.children = page.children ∧
        (indexCapacity ≤ i → (resultState (IndexPage.split (page, newPage))).2.keys i = newPage.keys i) ∧
        (indexCapacity < i → (resultState (IndexPage.split (page, newPage))).2.children i = newPage.children i) :=
  ⟨by decide, insert_frame, split_frame_index⟩

def sortedIndex : IndexPage := ⟨3, 0, fun i => [1, 5, 9].getD i 0, fun i => i.toUInt64, by decide⟩

theorem sortedIndex_split :
    ∃ left right : IndexPage, IndexPage.split (sortedIndex, sortedIndex) = .ok 5 (left, right) ∧
      left.keyList = [1] ∧ left.childList = [0, 1] ∧ right.keyList = [9] ∧ right.childList = [2, 3] := by
  obtain ⟨left, right, ran, -, -, -, -, leftKeys, leftChildren, rightKeys, rightChildren, -⟩ :=
    split_promotes_middle sortedIndex sortedIndex (by decide)
  exact ⟨left, right, ran, leftKeys, leftChildren, rightKeys, rightChildren⟩

theorem sortedIndex_split_in_arrays :
    (resultState (IndexPage.split (sortedIndex, sortedIndex))).2.keys 340 = sortedIndex.keys 340 :=
  ((index_writes_in_arrays.2.2 sortedIndex sortedIndex (by decide) 340).2.2.1 (by decide))

end PagedDb
