import Mathlib.Data.Multiset.Basic
import Mathlib.Data.List.InsertIdx
import Mathlib.Data.List.GetD
import Mathlib.Tactic.IntervalCases
import Mathlib.Tactic.Tauto
import Mathlib.Tactic.PushNeg

namespace PagedDb

section Exec
variable {ε σ α β : Type}

@[simp] theorem run_pure (a : α) (s : σ) : (pure a : EStateM ε σ α) s = .ok a s := rfl
@[simp] theorem run_bind (x : EStateM ε σ α) (f : α → EStateM ε σ β) (s : σ) :
    (x >>= f) s = match x s with
      | .ok a s' => f a s'
      | .error e s' => .error e s' := rfl
@[simp] theorem run_get (s : σ) : (get : EStateM ε σ σ) s = .ok s s := rfl
@[simp] theorem run_set (s' s : σ) : (set s' : EStateM ε σ PUnit) s = .ok ⟨⟩ s' := rfl
@[simp] theorem run_modify (f : σ → σ) (s : σ) : (modify f : EStateM ε σ PUnit) s = .ok ⟨⟩ (f s) := rfl
@[simp] theorem run_throw (e : ε) (s : σ) : (throw e : EStateM ε σ α) s = .error e s := rfl
@[simp] theorem run_map (f : α → β) (x : EStateM ε σ α) (s : σ) :
    (f <$> x) s = match x s with
      | .ok a s' => .ok (f a) s'
      | .error e s' => .error e s' := rfl

theorem bind_ok {x : EStateM ε σ α} {f : α → EStateM ε σ β} {s s' : σ} {b : β} (ran : (x >>= f) s = .ok b s') :
    ∃ a s₁, x s = .ok a s₁ ∧ f a s₁ = .ok b s' := by
  rw [run_bind] at ran
  split at ran
  · exact ⟨_, _, ‹_›, ran⟩
  · cases ran

def resultState : EStateM.Result ε σ α → σ
  | .ok _ s => s
  | .error _ s => s

end Exec

-- DEFAULT_PAGE_SIZE of types.hpp.
def defaultPageSize : Nat := 4096

-- A byte buffer addressed from its first byte; a `Page` is one of these.
abbrev Mem := Nat → UInt8
abbrev Page := Mem

def zeroPage : Page := fun _ => 0

-- `memcpy`/`memmove`; reading the source before writing models memmove's overlap rule.
def copy {α : Type} (dst : Nat → α) (dstOff : Nat) (src : Nat → α) (srcOff len : Nat) : Nat → α :=
  fun i => if dstOff ≤ i ∧ i < dstOff + len then src (srcOff + (i - dstOff)) else dst i

def memmove {α : Type} (a : Nat → α) (dst src len : Nat) : Nat → α := copy a dst a src len

def memset (m : Mem) (off len : Nat) (b : UInt8) : Mem :=
  fun i => if off ≤ i ∧ i < off + len then b else m i

def storeBytes (m : Mem) (off : Nat) (bytes : List UInt8) : Mem :=
  fun i => if off ≤ i ∧ i < off + bytes.length then bytes.getD (i - off) 0 else m i

def readBytes (m : Mem) (off len : Nat) : List UInt8 := (List.range len).map fun j => m (off + j)

-- Host (little-endian) byte order of an unsigned value `width` bytes wide.
def leBytes (n : Nat) : Nat → List UInt8
  | 0 => []
  | width+1 => UInt8.ofNat (n % 256) :: leBytes (n / 256) width

def leValue : List UInt8 → Nat
  | [] => 0
  | b :: rest => b.toNat + 256 * leValue rest

section Lemmas
variable {α : Type} (dst src : Nat → α) (m : Mem)

theorem copy_apply (dstOff srcOff len i : Nat) :
    copy dst dstOff src srcOff len i =
      if dstOff ≤ i ∧ i < dstOff + len then src (srcOff + (i - dstOff)) else dst i := rfl

theorem copy_outside {dstOff srcOff len i : Nat} (out : i < dstOff ∨ dstOff + len ≤ i) :
    copy dst dstOff src srcOff len i = dst i := by
  simp only [copy_apply]; split
  · omega
  · rfl

theorem copy_inside {dstOff srcOff len i : Nat} (lo : dstOff ≤ i) (hi : i < dstOff + len) :
    copy dst dstOff src srcOff len i = src (srcOff + (i - dstOff)) := by
  simp [copy_apply, lo, hi]

theorem memset_apply (off len i : Nat) (b : UInt8) :
    memset m off len b i = if off ≤ i ∧ i < off + len then b else m i := rfl

theorem storeBytes_apply (off i : Nat) (bytes : List UInt8) :
    storeBytes m off bytes i = if off ≤ i ∧ i < off + bytes.length then bytes.getD (i - off) 0 else m i := rfl

@[simp] theorem readBytes_length (off len : Nat) : (readBytes m off len).length = len := by
  simp [readBytes]

theorem readBytes_getD (off len j : Nat) (inside : j < len) : (readBytes m off len).getD j 0 = m (off + j) := by
  simp [readBytes, inside]

theorem readBytes_storeBytes (off : Nat) (bytes : List UInt8) :
    readBytes (storeBytes m off bytes) off bytes.length = bytes := by
  apply List.ext_getElem (by simp)
  intro j inside _
  simp at inside
  simp [readBytes, storeBytes_apply, inside, List.getD_eq_getElem _ _ inside]

theorem readBytes_congr {m' : Mem} {off len : Nat} (same : ∀ j < len, m' (off + j) = m (off + j)) :
    readBytes m' off len = readBytes m off len := by
  simp only [readBytes]
  exact List.map_congr_left fun j member => same j (List.mem_range.mp member)

@[simp] theorem storeBytes_nil (off : Nat) : storeBytes m off [] = m := by
  funext i; simp [storeBytes_apply]

theorem storeBytes_outside {off i : Nat} {bytes : List UInt8} (out : i < off ∨ off + bytes.length ≤ i) :
    storeBytes m off bytes i = m i := by
  simp only [storeBytes_apply]; split
  · omega
  · rfl

theorem storeBytes_append (off : Nat) (front back : List UInt8) :
    storeBytes m off (front ++ back) = storeBytes (storeBytes m off front) (off + front.length) back := by
  funext i
  simp only [storeBytes_apply, List.length_append]
  by_cases before : i < off + front.length
  · have : ¬(off + front.length ≤ i ∧ i < off + front.length + back.length) := by omega
    simp only [this, if_false]
    split
    · rw [List.getD_append _ _ _ _ (by omega), if_pos (by omega)]
    · rw [if_neg (by omega)]
  · by_cases after : i < off + front.length + back.length
    · rw [if_pos ⟨by omega, by omega⟩, if_pos ⟨by omega, after⟩, List.getD_append_right _ _ _ _ (by omega)]
      congr 1; omega
    · rw [if_neg (by omega), if_neg (by omega), if_neg (by omega)]

theorem memset_eq_storeBytes (off len : Nat) (b : UInt8) :
    memset m off len b = storeBytes m off (List.replicate len b) := by
  funext i
  simp only [memset_apply, storeBytes_apply, List.length_replicate]
  split
  · rw [List.getD_eq_getElem _ _ (by simp; omega), List.getElem_replicate]
  · rfl

theorem storeBytes_readBytes (off len : Nat) : storeBytes m off (readBytes m off len) = m := by
  funext i
  simp only [storeBytes_apply, readBytes_length]
  split
  · rw [readBytes_getD _ _ _ _ (by omega)]; congr 1; omega
  · rfl

theorem readBytes_succ (off len : Nat) : readBytes m off (len + 1) = m off :: readBytes m (off + 1) len := by
  simp only [readBytes, List.range_succ_eq_map, List.map_cons, List.map_map]
  congr 1
  exact List.map_congr_left fun j _ => by simp [Function.comp, Nat.add_assoc, Nat.add_comm 1 j]

theorem readBytes_add (off len len' : Nat) :
    readBytes m off (len + len') = readBytes m off len ++ readBytes m (off + len) len' := by
  simp only [readBytes, List.range_add, List.map_append, List.map_map]
  congr 1
  exact List.map_congr_left fun j _ => by simp [Nat.add_assoc]

theorem readBytes_take {off len len' : Nat} (le : len ≤ len') :
    readBytes m off len = (readBytes m off len').take len := by
  obtain ⟨extra, rfl⟩ := Nat.exists_eq_add_of_le le
  rw [readBytes_add, List.take_left' (readBytes_length m off len)]

theorem readBytes_shift {m' : Mem} {off off' len : Nat} (same : ∀ a < len, m' (off + a) = m (off' + a)) :
    readBytes m' off len = readBytes m off' len := by
  simp only [readBytes]
  exact List.map_congr_left fun a member => same a (List.mem_range.mp member)

theorem readBytes_apply {m' : Mem} {off off' len : Nat} (same : readBytes m' off len = readBytes m off' len)
    {a : Nat} (inside : a < len) : m' (off + a) = m (off' + a) := by
  have := congrArg (List.getD · a 0) same
  simp only at this
  rwa [readBytes_getD _ _ _ _ inside, readBytes_getD _ _ _ _ inside] at this

end Lemmas

section Lists
variable {α : Type} (f : Nat → α) (x : α)

theorem range_map_set (n p : Nat) :
    (List.range n).map (fun j => if j = p then x else f j) = ((List.range n).map f).set p x := by
  apply List.ext_getElem (by simp)
  intro j _ _
  simp only [List.getElem_map, List.getElem_range, List.getElem_set]
  by_cases same : j = p
  · simp [same]
  · simp [same, Ne.symm same]

theorem range_map_insertIdx {n p : Nat} (le : p ≤ n) :
    (List.range (n + 1)).map (fun j => if j = p then x else if p < j then f (j - 1) else f j) =
      ((List.range n).map f).insertIdx p x := by
  apply List.ext_getElem (by rw [List.length_insertIdx _ _ (by simpa using le)]; simp)
  intro j inside _
  simp only [List.length_map, List.length_range] at inside
  simp only [List.getElem_map, List.getElem_range]
  rcases Nat.lt_trichotomy j p with before | rfl | after
  · rw [List.getElem_insertIdx_of_lt _ _ _ _ before (by simp; omega)]
    simp [Nat.ne_of_lt before, Nat.not_lt_of_gt before]
  · rw [List.getElem_insertIdx_self _ _ _ (by simpa using le)]; simp
  · obtain ⟨k, rfl⟩ : ∃ k, j = p + k + 1 := ⟨j - p - 1, by omega⟩
    rw [List.getElem_insertIdx_add_succ _ _ _ _ (by simp; omega)]
    simp [show p + k + 1 ≠ p by omega, show p < p + k + 1 by omega]

theorem range_map_drop {g : Nat → α} {o r : Nat} (same : ∀ j < r, g j = f (o + j)) :
    (List.range r).map g = ((List.range (o + r)).map f).drop o := by
  apply List.ext_getElem (by simp)
  intro j inside _
  simp only [List.length_map, List.length_range] at inside
  simp [same j inside]

theorem perm_cons_erase_of_mem {β : Type} [BEq β] [LawfulBEq β] {l : List β} {a : β} (mem : a ∈ l) :
    l.Perm (a :: l.erase a) := by
  induction l with
  | nil => cases mem
  | cons b rest ih =>
    by_cases same : b = a
    · subst same; simp
    · rw [List.erase_cons_tail (by simpa using same)]
      exact ((ih ((List.mem_cons.mp mem).resolve_left (Ne.symm same))).cons b).trans (List.Perm.swap a b _)

theorem map_erase_of_injOn {β γ : Type} [BEq β] [LawfulBEq β] [BEq γ] [LawfulBEq γ] {f : β → γ} {l : List β}
    {a : β} (inj : ∀ x ∈ l, ∀ y ∈ l, f x = f y → x = y) (mem : a ∈ l) : (l.erase a).map f = (l.map f).erase (f a) := by
  induction l with
  | nil => cases mem
  | cons b rest ih =>
    by_cases same : b = a
    · subst same; simp
    · have other : f b ≠ f a := fun eq => same (inj b (List.mem_cons_self _ _) a mem eq)
      rw [List.erase_cons_tail (by simpa using same), List.map_cons, List.map_cons,
        List.erase_cons_tail (by simpa using other),
        ih (fun x hx y hy => inj x (List.mem_cons_of_mem _ hx) y (List.mem_cons_of_mem _ hy))
          ((List.mem_cons.mp mem).resolve_left (Ne.symm same))]

theorem erase_getLast {β : Type} [BEq β] [LawfulBEq β] {l : List β} {a : β} (nodup : l.Nodup)
    (last : l.getLast? = some a) : l.erase a = l.dropLast := by
  have split := List.dropLast_append_getLast? a last
  rw [← split] at nodup
  have fresh : a ∉ l.dropLast := fun old => (List.nodup_append.mp nodup).2.2 old (List.mem_singleton_self a)
  conv_lhs => rw [← split]
  rw [List.erase_append_right _ fresh, List.erase_cons_head, List.append_nil]

theorem ascending_insert {f : Nat → Int} {n p : Nat} {x : Int} (sorted : ∀ i j, i < j → j < n → f i < f j)
    (bound : p ≤ n) (below : ∀ i < p, f i < x) (above : ∀ i, p ≤ i → i < n → x < f i) {i j : Nat}
    (lt : i < j) (inside : j < n + 1) :
    (if i = p then x else f (if p < i then i - 1 else i)) < (if j = p then x else f (if p < j then j - 1 else j)) := by
  by_cases atI : i = p
  · rw [if_pos atI, if_neg (by omega), if_pos (by omega)]
    exact above (j - 1) (by omega) (by omega)
  rw [if_neg atI]
  by_cases atJ : j = p
  · rw [if_pos atJ, if_neg (by omega)]
    exact below i (by omega)
  rw [if_neg atJ]
  rcases Nat.lt_or_gt_of_ne atJ with early | late
  · rw [if_neg (by omega), if_neg (by omega)]; exact sorted _ _ lt (by omega)
  rw [if_pos late]
  by_cases afterI : p < i
  · rw [if_pos afterI]; exact sorted _ _ (by omega) (by omega)
  · rw [if_neg afterI]; exact (below i (by omega)).trans (above (j - 1) (by omega) (by omega))

end Lists

@[simp] theorem memmove_zero {α : Type} (a : Nat → α) (dst src : Nat) : memmove a dst src 0 = a := by
  funext i; simp [memmove, copy_apply]

theorem memmove_up_apply {α : Type} (a : Nat → α) (p len i : Nat) :
    memmove a (p + 1) p len i = if p < i ∧ i ≤ p + len then a (i - 1) else a i := by
  simp only [memmove, copy_apply]
  split <;> split <;> first | omega | rfl | (congr 1; omega)

theorem shift_up_apply {α : Type} (a : Nat → α) {p n i : Nat} (inside : i ≤ n) :
    (if n > p then memmove a (p + 1) p (n - p) else a) i = a (if p < i then i - 1 else i) := by
  split
  · rw [memmove_up_apply]; split <;> split <;> first | rfl | omega
  · rw [if_neg (by omega)]

def slotBytes (m : Mem) (base width j : Nat) : List UInt8 := readBytes m (base + j * width) width

section Slots
variable (m : Mem) {base width : Nat}

theorem slot_byte_lt {j k a : Nat} (small : a < width) : j * width + a < k * width ↔ j < k := by
  constructor
  · intro lt
    by_contra ge
    have := Nat.mul_le_mul_right width (Nat.le_of_not_lt ge)
    omega
  · intro lt
    have := Nat.mul_le_mul_right width (Nat.succ_le_of_lt lt)
    rw [Nat.succ_mul] at this
    omega

theorem slotBytes_storeBytes (p j : Nat) (bytes : List UInt8) (length : bytes.length = width) :
    slotBytes (storeBytes m (base + p * width) bytes) base width j =
      if j = p then bytes else slotBytes m base width j := by
  split
  · subst j; simpa [slotBytes, length] using readBytes_storeBytes m (base + p * width) bytes
  · rename_i other
    apply readBytes_congr
    intro a small
    apply storeBytes_outside
    rcases Nat.lt_or_gt_of_ne other with lt | gt
    · have := (slot_byte_lt (k := p) small).mpr lt; omega
    · have := Nat.mul_le_mul_right width (Nat.succ_le_of_lt gt)
      rw [Nat.succ_mul] at this; omega

theorem slotBytes_memmove (p len j : Nat) :
    slotBytes (memmove m (base + (p + 1) * width) (base + p * width) (len * width)) base width j =
      if p < j ∧ j ≤ p + len then slotBytes m base width (j - 1) else slotBytes m base width j := by
  simp only [slotBytes, memmove]
  split
  · rename_i inside
    obtain ⟨j, rfl⟩ : ∃ j', j = j' + 1 := ⟨j - 1, by omega⟩
    apply readBytes_shift
    intro a small
    have low := Nat.mul_le_mul_right width (show p ≤ j by omega)
    have high := (slot_byte_lt (j := j + 1) (k := p + 1 + len) small).mpr (by omega)
    simp only [Nat.succ_mul, Nat.add_mul, Nat.add_sub_cancel] at high ⊢
    rw [copy_inside _ _ (by omega) (by omega)]
    congr 1; omega
  · apply readBytes_congr
    intro a small
    apply copy_outside
    rcases Nat.lt_or_ge p j with after | before
    · have := Nat.mul_le_mul_right width (show p + 1 + len ≤ j by omega)
      simp only [Nat.add_mul] at this ⊢; omega
    · have := (slot_byte_lt (j := j) (k := p + 1) small).mpr (by omega); omega

theorem slotBytes_copy (dst : Mem) (src : Mem) (start len j : Nat) :
    slotBytes (copy dst 0 src (start * width) (len * width)) 0 width j =
      if j < len then slotBytes src 0 width (start + j) else slotBytes dst 0 width j := by
  simp only [slotBytes, Nat.zero_add]
  split
  · apply readBytes_shift
    intro a small
    have := (slot_byte_lt (k := len) small).mpr ‹j < len›
    rw [copy_inside _ _ (Nat.zero_le _) (by omega), Nat.add_mul]
    congr 1; omega
  · apply readBytes_congr
    intro a small
    have := Nat.mul_le_mul_right width (show len ≤ j by omega)
    exact copy_outside _ _ (by omega)

end Slots

@[simp] theorem leBytes_length (n width : Nat) : (leBytes n width).length = width := by
  induction width generalizing n with
  | zero => rfl
  | succ width ih => simp [leBytes, ih]

theorem leValue_leBytes (n width : Nat) : leValue (leBytes n width) = n % 256 ^ width := by
  induction width generalizing n with
  | zero => simp [leBytes, leValue, Nat.mod_one]
  | succ width ih =>
    have byte : (UInt8.ofNat (n % 256)).toNat = n % 256 :=
      UInt8.toNat_ofNat_of_lt (Nat.mod_lt n (by decide))
    rw [leBytes, leValue, ih, byte, Nat.pow_succ, Nat.mul_comm (256 ^ width) 256, Nat.mod_mul]

theorem leValue_lt (bytes : List UInt8) : leValue bytes < 256 ^ bytes.length := by
  induction bytes with
  | nil => simp [leValue]
  | cons b rest ih =>
    have small : b.toNat < 256 := b.val.isLt
    simp only [leValue, List.length_cons, Nat.pow_succ]
    omega

theorem leBytes_leValue (bytes : List UInt8) : leBytes (leValue bytes) bytes.length = bytes := by
  induction bytes with
  | nil => rfl
  | cons b rest ih =>
    have small : b.toNat < 256 := b.val.isLt
    have low : (b.toNat + 256 * leValue rest) % 256 = b.toNat := by omega
    have high : (b.toNat + 256 * leValue rest) / 256 = leValue rest := by omega
    simp only [leValue, List.length_cons, leBytes, low, high, ih]
    rw [UInt8.toNat.inj (UInt8.toNat_ofNat_of_lt small)]

end PagedDb
