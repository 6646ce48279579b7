import Mathlib.Data.Nat.Bitwise
import PagedDb.Tuple
import PagedDb.World

namespace PagedDb

-- HeapPage::HeapPage: a record takes T bytes and one header bit.
def heapCapacity (T : Nat) : Nat := 8 * defaultPageSize / (8 * T + 1)

def heapHeaderBytes (T : Nat) : Nat := (heapCapacity T + 7) / 8

-- `0x80u >> (i & 7)`: the slots of a header byte go from its most significant bit down.
def slotMask (i : Nat) : UInt8 := (0x80 >>> (i % 8)).toUInt8

def occupied (page : Page) (i : Nat) : Bool := page (i / 8) &&& slotMask i != 0

namespace HeapPage
variable {c : Nat} (td : TupleDesc c)

def slotOffset (i : Nat) : Nat := heapHeaderBytes td.length + i * td.length

-- The `for (i = from; i < capacity; ++i)` loops: the first slot from `i` whose bit is `want`.
def scan (page : Page) (want : Bool) (i : Nat) : Nat → Nat
  | 0 => i
  | left + 1 => if occupied page i = want then i else scan page want (i + 1) left

-- HeapPage::begin; HeapPage::end is `capacity`.
def begin (page : Page) : Nat := scan page true 0 (heapCapacity td.length)

-- HeapPage::next, returning the slot it stores.
def next (page : Page) (slot : Nat) : Nat :=
  if slot ≥ heapCapacity td.length then heapCapacity td.length
  else scan page true (slot + 1) (heapCapacity td.length - (slot + 1))

-- HeapPage::insertTuple: the record goes to the first free slot.
def insertTuple (t : Tuple) : EStateM String Page Bool := do
  let i := scan (← get) false 0 (heapCapacity td.length)
  if i < heapCapacity td.length then
    td.serialize (slotOffset td i) t
    modify fun page => Function.update page (i / 8) (page (i / 8) ||| slotMask i)
    pure true
  else pure false

-- HeapPage::deleteTuple
def deleteTuple (slot : Nat) : EStateM Error Page Unit := do
  if slot ≥ heapCapacity td.length then throw (.outOfRange "slot OOB")
  if !occupied (← get) slot then throw (.logic "slot empty")
  modify fun page => memset page (slotOffset td slot) td.length 0
  modify fun page => Function.update page (slot / 8) (page (slot / 8) &&& ~~~slotMask slot)

-- HeapPage::getTuple
def getTuple (page : Page) (slot : Nat) : Except Error Tuple :=
  if slot ≥ heapCapacity td.length then throw (.outOfRange "slot OOB")
  else if !occupied page slot then throw (.logic "slot empty")
  else pure (td.deserialize page (slotOffset td slot))

-- HeapPage::empty
def empty (page : Page) (slot : Nat) : Bool := slot ≥ heapCapacity td.length || !occupied page slot

def slotsFrom (page : Page) (i : Nat) : List Nat :=
  (List.range' i (heapCapacity td.length - i)).filter (occupied page)

def slots (page : Page) : List Nat := slotsFrom td page 0

def read (page : Page) (i : Nat) : Tuple := td.deserialize page (slotOffset td i)

def tuples (page : Page) : List Tuple := (slots td page).map (read td page)

end HeapPage

section Bits

theorem slotMask_toNat (i : Nat) : (slotMask i).toNat = 2 ^ (7 - i % 8) := by
  have small : i % 8 < 8 := Nat.mod_lt _ (by decide)
  unfold slotMask
  generalize i % 8 = k at *
  interval_cases k <;> rfl

theorem and_slotMask_ne_zero (b : UInt8) (i : Nat) : (b &&& slotMask i != 0) = b.toNat.testBit (7 - i % 8) := by
  have zero : (b &&& slotMask i = 0) ↔ b.toNat &&& 2 ^ (7 - i % 8) = 0 :=
    ⟨fun zero => by rw [← slotMask_toNat, ← UInt8.and_toNat, zero]; rfl,
      fun zero => UInt8.toNat.inj (by rw [UInt8.and_toNat, slotMask_toNat, zero]; rfl)⟩
  rw [Nat.and_two_pow] at zero
  cases bit : b.toNat.testBit (7 - i % 8) <;> simp_all

theorem testBit_or_slotMask (b : UInt8) (i j : Nat) :
    (b ||| slotMask i).toNat.testBit j = (b.toNat.testBit j || decide (7 - i % 8 = j)) := by
  rw [show (b ||| slotMask i).toNat = b.toNat ||| (slotMask i).toNat from BitVec.toNat_or .., Nat.testBit_or,
    slotMask_toNat, Nat.testBit_two_pow]

theorem testBit_and_not_slotMask (b : UInt8) (i j : Nat) (small : j < 8) :
    (b &&& ~~~slotMask i).toNat.testBit j = (b.toNat.testBit j && !decide (7 - i % 8 = j)) := by
  rw [UInt8.and_toNat, Nat.testBit_and, show (~~~slotMask i).toNat.testBit j = _ from BitVec.getLsbD_not ..,
    show (slotMask i).toBitVec.getLsbD j = (slotMask i).toNat.testBit j from rfl, slotMask_toNat,
    Nat.testBit_two_pow]
  simp [small]

theorem occupied_eq (page : Page) (i : Nat) : occupied page i = (page (i / 8)).toNat.testBit (7 - i % 8) :=
  and_slotMask_ne_zero _ i

theorem occupied_set (page : Page) (i j : Nat) :
    occupied (Function.update page (i / 8) (page (i / 8) ||| slotMask i)) j = (occupied page j || j == i) := by
  rw [occupied_eq, occupied_eq, Function.update_apply]
  split
  · rename_i same
    rw [same, testBit_or_slotMask]
    congr 1
    exact decide_eq_decide.mpr (by omega)
  · rename_i other
    have : j ≠ i := fun here => other (here ▸ rfl)
    simp [this]

theorem occupied_clear (page : Page) (i j : Nat) :
    occupied (Function.update page (i / 8) (page (i / 8) &&& ~~~slotMask i)) j = (occupied page j && j != i) := by
  rw [occupied_eq, occupied_eq, Function.update_apply]
  split
  · rename_i same
    rw [same, testBit_and_not_slotMask _ _ _ (by omega)]
    congr 2
    exact decide_eq_decide.mpr (by omega)
  · rename_i other
    have : j ≠ i := fun here => other (here ▸ rfl)
    simp [this]

@[simp] theorem occupied_zeroPage (i : Nat) : occupied zeroPage i = false := by
  simp [occupied_eq, zeroPage]

end Bits

namespace HeapPage
variable {c : Nat} (td : TupleDesc c)

section Layout

theorem header_covers (T : Nat) : heapCapacity T ≤ 8 * heapHeaderBytes T := by
  unfold heapHeaderBytes; omega

theorem layout_fits (T : Nat) : heapHeaderBytes T + heapCapacity T * T ≤ defaultPageSize := by
  have room : heapCapacity T * (8 * T + 1) ≤ 8 * defaultPageSize := Nat.div_mul_le_self _ _
  rw [Nat.mul_add, Nat.mul_one, Nat.mul_left_comm] at room
  unfold heapHeaderBytes; omega

theorem header_byte_before {i : Nat} (inside : i < 8 * heapHeaderBytes td.length) (j : Nat) :
    i / 8 < slotOffset td j := by
  unfold slotOffset; omega

theorem header_before {i : Nat} (inside : i < heapCapacity td.length) (j : Nat) : i / 8 < slotOffset td j :=
  header_byte_before td (lt_of_lt_of_le inside (header_covers _)) j

theorem slot_inside {i : Nat} (inside : i < heapCapacity td.length) :
    slotOffset td i + td.length ≤ defaultPageSize := by
  have fits := layout_fits td.length
  have below := Nat.mul_le_mul_right td.length (Nat.succ_le_of_lt inside)
  rw [Nat.succ_mul] at below
  unfold slotOffset; omega

theorem slots_apart {i j : Nat} (other : i ≠ j) :
    slotOffset td i + td.length ≤ slotOffset td j ∨ slotOffset td j + td.length ≤ slotOffset td i := by
  unfold slotOffset
  rcases Nat.lt_or_gt_of_ne other with lt | gt
  · have := Nat.mul_le_mul_right td.length (Nat.succ_le_of_lt lt)
    rw [Nat.succ_mul] at this; omega
  · have := Nat.mul_le_mul_right td.length (Nat.succ_le_of_lt gt)
    rw [Nat.succ_mul] at this; omega

theorem slot_disjoint {i j : Nat} (other : i ≠ j) {a : Nat} (inside : a < td.length) :
    slotOffset td j + a < slotOffset td i ∨ slotOffset td i + td.length ≤ slotOffset td j + a := by
  have := slots_apart td other; omega

end Layout

section Scan
variable (page : Page)

theorem scan_spec (want : Bool) (i left : Nat) :
    i ≤ scan page want i left ∧ scan page want i left ≤ i + left ∧
      (∀ j, i ≤ j → j < scan page want i left → occupied page j ≠ want) ∧
      (scan page want i left < i + left → occupied page (scan page want i left) = want) := by
  induction left generalizing i with
  | zero => exact ⟨le_rfl, le_rfl, fun j low high => absurd high (by simp [scan]; omega), by simp [scan]⟩
  | succ left ih =>
    by_cases found : occupied page i = want
    · simp only [scan, if_pos found]
      exact ⟨le_rfl, by omega, fun j low high => absurd high (by omega), fun _ => found⟩
    · obtain ⟨low, high, before, stop⟩ := ih (i + 1)
      simp only [scan, if_neg found]
      refine ⟨by omega, by omega, fun j early late => ?_, fun short => stop (by omega)⟩
      rcases Nat.eq_or_lt_of_le early with rfl | later
      · exact found
      · exact before j later late

theorem scan_true_eq (i left : Nat) :
    scan page true i left = ((List.range' i left).filter (occupied page)).head?.getD (i + left) := by
  induction left generalizing i with
  | zero => rfl
  | succ left ih =>
    rw [List.range'_succ, List.filter_cons]
    by_cases found : occupied page i
    · simp [scan, found]
    · simp only [scan, found, if_false, Bool.false_eq_true, ih]
      rw [Nat.add_right_comm, Nat.add_assoc]

theorem begin_eq : begin td page = (slots td page).head?.getD (heapCapacity td.length) := by
  simp [begin, slots, slotsFrom, scan_true_eq]

theorem next_eq {slot : Nat} (inside : slot < heapCapacity td.length) :
    next td page slot = (slotsFrom td page (slot + 1)).head?.getD (heapCapacity td.length) := by
  rw [next, if_neg (Nat.not_le.mpr inside), scan_true_eq, slotsFrom, Nat.add_sub_cancel' inside]

theorem mem_slotsFrom {i j : Nat} :
    j ∈ slotsFrom td page i ↔ i ≤ j ∧ j < heapCapacity td.length ∧ occupied page j := by
  simp only [slotsFrom, List.mem_filter, List.mem_range'_1]
  constructor
  · rintro ⟨⟨low, high⟩, set⟩; exact ⟨low, by omega, set⟩
  · rintro ⟨low, high, set⟩; exact ⟨⟨low, by omega⟩, set⟩

theorem slotsFrom_nodup (i : Nat) : (slotsFrom td page i).Nodup := (List.nodup_range' _ _).filter _

theorem slotsFrom_cons {i s : Nat} {rest : List Nat} (first : slotsFrom td page i = s :: rest) :
    i ≤ s ∧ s < heapCapacity td.length ∧ occupied page s ∧ rest = slotsFrom td page (s + 1) := by
  suffices general : ∀ left i, (List.range' i left).filter (occupied page) = s :: rest →
      i ≤ s ∧ s < i + left ∧ occupied page s ∧ rest = (List.range' (s + 1) (i + left - (s + 1))).filter (occupied page) by
    obtain ⟨low, high, set, rest'⟩ := general _ i first
    exact ⟨low, by omega, set, by rw [rest', slotsFrom]; congr 2; omega⟩
  intro left
  induction left with
  | zero => intro i empty; cases empty
  | succ left ih =>
    intro i first
    rw [List.range'_succ, List.filter_cons] at first
    split at first
    · obtain ⟨rfl, rfl⟩ := List.cons.inj first
      exact ⟨le_rfl, by omega, by assumption, by congr 2; omega⟩
    · obtain ⟨low, high, set, rest'⟩ := ih (i + 1) first
      exact ⟨by omega, by omega, set, by rw [rest']; congr 2; omega⟩

theorem slots_sorted : (slots td page).Pairwise (· < ·) := (List.pairwise_lt_range' _ _).filter _

theorem next_capacity : next td page (heapCapacity td.length) = heapCapacity td.length := if_pos le_rfl

theorem next_iterate_from (k i : Nat) :
    (next td page)^[k] ((slotsFrom td page i).head?.getD (heapCapacity td.length)) =
      (slotsFrom td page i).getD k (heapCapacity td.length) := by
  induction k generalizing i with
  | zero => cases slotsFrom td page i <;> rfl
  | succ k ih =>
    rw [Function.iterate_succ_apply]
    cases first : slotsFrom td page i with
    | nil => exact (congrArg _ (next_capacity td page)).trans (Function.iterate_fixed (next_capacity td page) k)
    | cons s rest =>
      obtain ⟨-, bound, -, rest'⟩ := slotsFrom_cons td page first
      rw [List.head?_cons, Option.getD_some, next_eq td page bound, ih, rest', List.getD_cons_succ]

theorem next_iterate (k : Nat) :
    (next td page)^[k] (begin td page) = (slots td page).getD k (heapCapacity td.length) := by
  rw [begin_eq]; exact next_iterate_from td page k 0

theorem scan_false_lowest {i : Nat} (inside : i < heapCapacity td.length) (free : occupied page i = false)
    (lowest : ∀ j < i, occupied page j = true) : scan page false 0 (heapCapacity td.length) = i := by
  obtain ⟨-, -, before, stop⟩ := scan_spec page false 0 (heapCapacity td.length)
  rcases Nat.lt_trichotomy (scan page false 0 (heapCapacity td.length)) i with early | same | late
  · exact absurd (stop (by omega)) (by simp [lowest _ early])
  · exact same
  · exact absurd free (before i (Nat.zero_le i) late)

theorem scan_false_full (full : ∀ j < heapCapacity td.length, occupied page j = true) :
    scan page false 0 (heapCapacity td.length) = heapCapacity td.length := by
  obtain ⟨-, high, -, stop⟩ := scan_spec page false 0 (heapCapacity td.length)
  by_contra short
  have inside : scan page false 0 (heapCapacity td.length) < heapCapacity td.length := by omega
  exact absurd (stop (by omega)) (by simp [full _ inside])

end Scan

section Update
variable {td}

theorem occupied_congr {page page' : Page} {j : Nat} (same : page' (j / 8) = page (j / 8)) :
    occupied page' j = occupied page j := by
  rw [occupied, occupied, same]

theorem read_congr {page page' : Page} {j : Nat} (same : ∀ a < td.length, page' (slotOffset td j + a) = page (slotOffset td j + a)) :
    read td page' j = read td page j :=
  deserialize_congr td same

theorem slots_eq_range {page : Page} {k : Nat} (bound : k ≤ heapCapacity td.length)
    (packed : ∀ j < heapCapacity td.length, occupied page j = decide (j < k)) : slots td page = List.range k := by
  have split := List.range'_append_1 0 k (heapCapacity td.length - k)
  rw [Nat.zero_add, Nat.sub_add_cancel bound] at split
  rw [slots, slotsFrom, Nat.sub_zero, List.filter_congr fun j member => packed j (by simpa using (List.mem_range'_1.mp member).2),
    ← split, List.filter_append, List.filter_eq_self.mpr (fun j member => by simpa using (List.mem_range'_1.mp member).2),
    List.filter_eq_nil_iff.mpr (fun j member => by simpa using (List.mem_range'_1.mp member).1), List.append_nil,
    List.range_eq_range']

theorem getTuple_occupied (page : Page) {slot : Nat} (inside : slot < heapCapacity td.length)
    (set : occupied page slot) : getTuple td page slot = .ok (read td page slot) := by
  simp [getTuple, Nat.not_le.mpr inside, set, read]
  rfl

theorem insertTuple_eq (page : Page) {t : Tuple} (compatible : td.compatible t) {i : Nat}
    (first : scan page false 0 (heapCapacity td.length) = i) (room : i < heapCapacity td.length) :
    insertTuple td t page = .ok true (Function.update (storeBytes page (slotOffset td i) (tupleBytes c t)) (i / 8)
      (storeBytes page (slotOffset td i) (tupleBytes c t) (i / 8) ||| slotMask i)) := by
  simp only [insertTuple, run_bind, run_get, first, if_pos room, serialize_compatible td _ t _ compatible,
    run_modify, run_pure]

theorem insertTuple_throws (page : Page) {t : Tuple} (incompatible : td.compatible t = false)
    (room : scan page false 0 (heapCapacity td.length) < heapCapacity td.length) :
    insertTuple td t page = .error "TupleDesc::serialize: tuple incompatible with schema" page := by
  simp [insertTuple, room, TupleDesc.serialize, incompatible]

theorem insertTuple_free (page : Page) {t : Tuple} (compatible : td.compatible t) {i : Nat}
    (first : scan page false 0 (heapCapacity td.length) = i) (room : i < heapCapacity td.length) :
    ∃ page', insertTuple td t page = .ok true page' ∧
      (∀ j < heapCapacity td.length, occupied page' j = (occupied page j || j == i)) ∧
      (∀ j, j ≠ i → read td page' j = read td page j) ∧ read td page' i = t.map (Field.stored c) := by
  have length := tupleBytes_length_of_compatible compatible
  have outside (j : Nat) (other : j ≠ i) (a : Nat) (inside : a < td.length) :
      storeBytes page (slotOffset td i) (tupleBytes c t) (slotOffset td j + a) = page (slotOffset td j + a) :=
    storeBytes_outside page (by rw [length]; exact slot_disjoint td (Ne.symm other) inside)
  refine ⟨_, insertTuple_eq page compatible first room, fun j inside => ?_,
    fun j other => read_congr fun a inside => ?_, ?_⟩
  · rw [occupied_set, occupied_congr (storeBytes_outside page (.inl (header_before td inside i)))]
  · rw [Function.update_noteq (by have := header_before td room j; omega), outside j other a inside]
  · rw [← deserialize_storeBytes compatible page (slotOffset td i)]
    exact read_congr fun a inside => Function.update_noteq (by have := header_before td room i; omega) _ _

theorem insertTuple_full (page : Page) (t : Tuple) (full : scan page false 0 (heapCapacity td.length) = heapCapacity td.length) :
    insertTuple td t page = .ok false page := by
  simp [insertTuple, full]

theorem deleteTuple_outside (page : Page) {slot : Nat} (outside : heapCapacity td.length ≤ slot) :
    deleteTuple td slot page = .error (.outOfRange "slot OOB") page := by
  simp [deleteTuple, outside]

theorem deleteTuple_free (page : Page) {slot : Nat} (inside : slot < heapCapacity td.length)
    (free : occupied page slot = false) : deleteTuple td slot page = .error (.logic "slot empty") page := by
  simp [deleteTuple, Nat.not_le.mpr inside, free]

theorem deleteTuple_eq (page : Page) {slot : Nat} (inside : slot < heapCapacity td.length)
    (set : occupied page slot) :
    deleteTuple td slot page = .ok () (Function.update (memset page (slotOffset td slot) td.length 0) (slot / 8)
      (memset page (slotOffset td slot) td.length 0 (slot / 8) &&& ~~~slotMask slot)) := by
  simp only [deleteTuple, Nat.not_le.mpr inside, set, if_false, run_bind, run_get, run_modify, run_pure,
    Bool.not_true, Bool.false_eq_true]

theorem deleteTuple_occupied (page : Page) {slot : Nat} (inside : slot < heapCapacity td.length)
    (set : occupied page slot) :
    ∃ page', deleteTuple td slot page = .ok () page' ∧
      (∀ j < heapCapacity td.length, occupied page' j = (occupied page j && j != slot)) ∧
      (∀ j, j ≠ slot → read td page' j = read td page j) := by
  refine ⟨_, deleteTuple_eq page inside set, fun j below => ?_, fun j other => read_congr fun a short => ?_⟩
  · rw [occupied_clear, occupied_congr]
    rw [memset_apply, if_neg (by have := header_before td below slot; omega)]
  · rw [Function.update_noteq (by have := header_before td inside j; omega), memset_apply,
      if_neg (by have := slot_disjoint td (Ne.symm other) short; omega)]

end Update

section Records
variable {td}

theorem mem_slots {page : Page} {j : Nat} : j ∈ slots td page ↔ j < heapCapacity td.length ∧ occupied page j := by
  simp [slots, mem_slotsFrom]

theorem slots_nodup (page : Page) : (slots td page).Nodup := slotsFrom_nodup td page 0

@[simp] theorem slots_zeroPage : slots td zeroPage = [] := by
  simp [slots, slotsFrom]

@[simp] theorem tuples_zeroPage : tuples td zeroPage = [] := by
  simp [tuples]

theorem occupied_of_packed {page : Page} {k j : Nat} (packed : slots td page = List.range k)
    (inside : j < heapCapacity td.length) : occupied page j = decide (j < k) := by
  have member := congrArg (j ∈ ·) packed
  simp only [mem_slots, List.mem_range, eq_iff_iff] at member
  cases set : occupied page j <;> simp_all

theorem scan_packed {page : Page} {k : Nat} (packed : slots td page = List.range k) (bound : k ≤ heapCapacity td.length) :
    scan page false 0 (heapCapacity td.length) = k := by
  obtain ⟨-, high, before, stop⟩ := scan_spec page false 0 (heapCapacity td.length)
  simp only [Nat.zero_add] at high stop
  apply le_antisymm
  · by_contra past
    have := before k (Nat.zero_le k) (by omega)
    rw [occupied_of_packed packed (by omega)] at this
    simp at this
  · by_contra short
    have := stop (by omega)
    rw [occupied_of_packed packed (by omega)] at this
    simp at this; omega

theorem tuples_insert {page page' : Page} {i : Nat} {t' : Tuple} (inside : i < heapCapacity td.length)
    (free : occupied page i = false) (marked : ∀ j < heapCapacity td.length, occupied page' j = (occupied page j || j == i))
    (kept : ∀ j, j ≠ i → read td page' j = read td page j) (stored : read td page' i = t') :
    (tuples td page').Perm (tuples td page ++ [t']) := by
  have absent : i ∉ slots td page := fun member => by simp [(mem_slots.mp member).2] at free
  have moved : (slots td page').Perm (i :: slots td page) :=
    (List.perm_ext_iff_of_nodup (slots_nodup page') (List.nodup_cons.mpr ⟨absent, slots_nodup page⟩)).mpr
      fun j => by
        simp only [mem_slots, List.mem_cons]
        by_cases here : j = i
        · subst here; simp [marked j inside, inside]
        · constructor
          · rintro ⟨below, set⟩; exact .inr ⟨below, by simpa [marked j below, here] using set⟩
          · rintro (same | ⟨below, set⟩)
            · exact absurd same here
            · exact ⟨below, by simp [marked j below, set]⟩
  refine ((moved.map (read td page')).trans ?_).trans (List.perm_append_singleton _ _).symm
  rw [List.map_cons, stored, tuples, List.map_congr_left fun j member => kept j fun same => absent (same ▸ member)]

theorem tuples_insert_packed {page page' : Page} {k : Nat} {t' : Tuple} (packed : slots td page = List.range k)
    (inside : k < heapCapacity td.length) (marked : ∀ j < heapCapacity td.length, occupied page' j = (occupied page j || j == k))
    (kept : ∀ j, j ≠ k → read td page' j = read td page j) (stored : read td page' k = t') :
    slots td page' = List.range (k + 1) ∧ tuples td page' = tuples td page ++ [t'] := by
  have grown : slots td page' = List.range (k + 1) :=
    slots_eq_range inside fun j below => by
      rw [marked j below, occupied_of_packed packed below]
      by_cases here : j = k
      · subst here; simp
      · have : j < k ↔ j < k + 1 := by omega
        simp [here, this]
  refine ⟨grown, ?_⟩
  rw [tuples, tuples, grown, packed, List.range_succ, List.map_append, List.map_singleton, stored,
    List.map_congr_left fun j member => kept j (by simp at member; omega)]

theorem tuples_delete {page page' : Page} {slot : Nat}
    (cleared : ∀ j < heapCapacity td.length, occupied page' j = (occupied page j && j != slot))
    (kept : ∀ j, j ≠ slot → read td page' j = read td page j) :
    slots td page' = (slots td page).erase slot ∧ tuples td page' = ((slots td page).erase slot).map (read td page) := by
  have erased : slots td page' = (slots td page).erase slot := by
    rw [(slots_nodup page).erase_eq_filter, slots, slotsFrom, slots, slotsFrom, List.filter_filter]
    exact List.filter_congr fun j member => by
      rw [cleared j (by simpa using (List.mem_range'_1.mp member).2)]; simp [Bool.and_comm]
  refine ⟨erased, ?_⟩
  rw [tuples, erased]
  exact List.map_congr_left fun j member => kept j ((slots_nodup page).mem_erase_iff.mp member).1

theorem insertTuple_perm {page page' : Page} {t : Tuple} (compatible : td.compatible t)
    (ran : insertTuple td t page = .ok true page') :
    (tuples td page').Perm (tuples td page ++ [t.map (Field.stored c)]) := by
  obtain ⟨-, bound, -, stop⟩ := scan_spec page false 0 (heapCapacity td.length)
  simp only [Nat.zero_add] at bound stop
  rcases Nat.lt_or_eq_of_le bound with room | full
  · obtain ⟨page'', ran', marked, kept, stored⟩ := insertTuple_free page compatible rfl room
    cases ran.symm.trans ran'
    exact tuples_insert room (stop room) marked kept stored
  · rw [insertTuple_full page t full] at ran; cases ran

theorem insertTuple_packed {page page' : Page} {k : Nat} {t : Tuple} (compatible : td.compatible t)
    (packed : slots td page = List.range k) (bound : k ≤ heapCapacity td.length)
    (ran : insertTuple td t page = .ok true page') :
    k < heapCapacity td.length ∧ slots td page' = List.range (k + 1) ∧
      tuples td page' = tuples td page ++ [t.map (Field.stored c)] := by
  have first := scan_packed packed bound
  rcases Nat.lt_or_eq_of_le bound with room | full
  · obtain ⟨page'', ran', marked, kept, stored⟩ := insertTuple_free page compatible first room
    cases ran.symm.trans ran'
    exact ⟨room, tuples_insert_packed packed room marked kept stored⟩
  · rw [insertTuple_full page t (first.trans full)] at ran; cases ran

theorem deleteTuple_perm {page page' : Page} {slot : Nat} (ran : deleteTuple td slot page = .ok () page') :
    slot ∈ slots td page ∧ (read td page slot :: tuples td page').Perm (tuples td page) := by
  by_cases inside : slot < heapCapacity td.length
  swap
  · rw [deleteTuple_outside page (Nat.not_lt.mp inside)] at ran; cases ran
  cases set : occupied page slot
  · rw [deleteTuple_free page inside set] at ran; cases ran
  obtain ⟨page'', ran', cleared, kept⟩ := deleteTuple_occupied page inside set
  cases ran.symm.trans ran'
  have member : slot ∈ slots td page := mem_slots.mpr ⟨inside, set⟩
  refine ⟨member, ?_⟩
  rw [(tuples_delete cleared kept).2]
  exact ((List.perm_cons_erase member).map (read td page)).symm

end Records

end HeapPage

end PagedDb
