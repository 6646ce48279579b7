import PagedDb.HeapScan

namespace PagedDb

def Iterator.Before (a b : Iterator) : Prop := a.page < b.page ∨ a.page = b.page ∧ a.slot < b.slot

instance : DecidableRel Iterator.Before := fun a b =>
  inferInstanceAs (Decidable (a.page < b.page ∨ a.page = b.page ∧ a.slot < b.slot))

theorem Iterator.Before.ne {a b : Iterator} (before : a.Before b) : a ≠ b := by
  rintro rfl
  rcases before with lt | ⟨-, lt⟩ <;> exact Nat.lt_irrefl _ lt

namespace HeapFile
variable {c : Nat} (td : TupleDesc c) (pageAt : Nat → Page)

theorem mem_positionsFrom {p left : Nat} {it : Iterator} :
    it ∈ positionsFrom td pageAt p left ↔
      p ≤ it.page ∧ it.page < p + left ∧ it.slot ∈ HeapPage.slots td (pageAt it.page) := by
  induction left generalizing p with
  | zero => simp only [positionsFrom, List.not_mem_nil, false_iff]; omega
  | succ left ih =>
    rw [positionsFrom, List.mem_append, ih, List.mem_map]
    constructor
    · rintro (⟨s, member, rfl⟩ | ⟨low, high, member⟩)
      · exact ⟨le_rfl, by simp, member⟩
      · exact ⟨by omega, by omega, member⟩
    · rintro ⟨low, high, member⟩
      rcases Nat.eq_or_lt_of_le low with same | later
      · exact .inl ⟨it.slot, by rw [same]; exact member, by rw [same]⟩
      · exact .inr ⟨later, by omega, member⟩

theorem positionsFrom_sorted (p left : Nat) : (positionsFrom td pageAt p left).Pairwise Iterator.Before := by
  induction left generalizing p with
  | zero => exact List.Pairwise.nil
  | succ left ih =>
    rw [positionsFrom, List.pairwise_append, List.pairwise_map]
    refine ⟨(HeapPage.slots_sorted td _).imp fun lt => Or.inr ⟨rfl, lt⟩, ih (p + 1), fun a early b late => ?_⟩
    obtain ⟨s, -, rfl⟩ := List.mem_map.mp early
    exact Or.inl (lt_of_lt_of_le (Nat.lt_succ_self p) ((mem_positionsFrom td pageAt).mp late).1)

theorem positionsFrom_length (p left : Nat) :
    (positionsFrom td pageAt p left).length ≤ left * heapCapacity td.length := by
  induction left generalizing p with
  | zero => simp [positionsFrom]
  | succ left ih =>
    have bound : (HeapPage.slots td (pageAt p)).length ≤ heapCapacity td.length :=
      (List.length_filter_le _ _).trans (by simp)
    rw [positionsFrom, List.length_append, List.length_map, Nat.succ_mul]
    have := ih (p + 1)
    omega

end HeapFile

namespace World
variable {N : Nat} {c : Nat} (td : TupleDesc c) (name : String) {w : World} {latest : PageId → Page}

-- `k` calls of HeapFile::next from `it`, as the loops of Query.cpp make them.
def nextN (it : Iterator) : Nat → EStateM Error World Iterator
  | 0 => pure it
  | k + 1 => do nextN (← heapNext td name it) k

def setPositions (latest : PageId → Page) (w : World) : List Iterator :=
  HeapFile.positionsFrom td (pagesOf latest name) 0 (w.numPages name)

theorem heapNext_past (it : Iterator) (past : w.numPages name ≤ it.page) :
    heapNext td name it w = .ok ⟨w.numPages name, 0⟩ w := by
  simp [heapNext, past]

theorem nextN_returns (healthy : Healthy N w latest) (file : (w.files name).isSome) {it : Iterator}
    {todo : List Iterator} (walking : Walking td (pagesOf latest name) (w.numPages name) it todo) (k : Nat) :
    ∃ w', nextN td name it k w = .ok (todo.getD k ⟨w.numPages name, 0⟩) w' ∧
      Healthy N w' latest ∧ Frame w w' := by
  induction k generalizing it todo w with
  | zero =>
    refine ⟨w, ?_, healthy, .refl w⟩
    obtain ⟨rfl, rfl⟩ | ⟨-, -, rfl⟩ := walking <;> rfl
  | succ k ih =>
    obtain ⟨rfl, rfl⟩ | ⟨inside, member, rfl⟩ := walking
    · obtain ⟨w', ran, healthy', frame'⟩ := ih healthy file (.inl ⟨rfl, rfl⟩)
      refine ⟨w', ?_, healthy', frame'⟩
      simp only [nextN, run_bind, heapNext_past td name ⟨w.numPages name, 0⟩ (le_refl _), ran, List.getD_nil]
    · obtain ⟨w₁, next, healthy₁, frame₁⟩ := heapNext_returns td name healthy file inside member
      have same := frame₁.numPages name
      obtain ⟨w', ran, healthy', frame'⟩ := ih healthy₁ (by rw [frame₁.isSome]; exact file)
        (by rw [same]; exact walking_head td inside rfl)
      refine ⟨w', ?_, healthy', frame₁.trans frame'⟩
      rw [same] at ran
      simp only [nextN, run_bind, next, ran, List.getD_cons_succ]

-- HeapFile::begin then next again and again: the k-th call stands on the k-th set slot
-- in (page, slot) order, and from the last on every call stands on end().
theorem heap_iteration_order (healthy : Healthy N w latest) (file : (w.files name).isSome) :
    (∀ k, ∃ w', (heapBegin td name >>= fun it => nextN td name it k) w =
      .ok ((setPositions td name latest w).getD k ⟨w.numPages name, 0⟩) w') ∧
    (∀ it, it ∈ setPositions td name latest w ↔ it.page < w.numPages name ∧
      it.slot < heapCapacity td.length ∧ occupied (latest ⟨name, it.page⟩) it.slot) ∧
    (setPositions td name latest w).Pairwise Iterator.Before ∧ (setPositions td name latest w).Nodup ∧
    (setPositions td name latest w).length ≤ w.numPages name * heapCapacity td.length ∧
    (∀ w' : World, heapNext td name ⟨w'.numPages name, 0⟩ w' = .ok ⟨w'.numPages name, 0⟩ w') ∧
    ∀ page : Page,
      (∀ k, (HeapPage.next td page)^[k] (HeapPage.begin td page) =
        (HeapPage.slots td page).getD k (heapCapacity td.length)) ∧
      (HeapPage.slots td page).Pairwise (· < ·) ∧
      ∀ s, s ∈ HeapPage.slots td page ↔ s < heapCapacity td.length ∧ occupied page s := by
  have sorted := HeapFile.positionsFrom_sorted td (pagesOf latest name) 0 (w.numPages name)
  refine ⟨fun k => ?_, fun it => ?_, sorted, sorted.imp Iterator.Before.ne, HeapFile.positionsFrom_length td _ 0 _,
    fun w' => heapNext_past td name ⟨w'.numPages name, 0⟩ (le_refl _),
    fun page => ⟨HeapPage.next_iterate td page, HeapPage.slots_sorted td page, fun s => HeapPage.mem_slots⟩⟩
  · obtain ⟨w₁, began, healthy₁, frame₁⟩ :=
      firstFrom_returns td name healthy file (w.numPages name) 0 (w.numPages name)
    obtain ⟨w', ran, -, -⟩ := nextN_returns td name healthy₁ (by rw [frame₁.isSome]; exact file)
      (by rw [frame₁.numPages]; exact walking_begin td _ _) k
    rw [frame₁.numPages] at ran
    exact ⟨w', by simp only [heapBegin, run_bind, run_get, began, ran]; rfl⟩
  · rw [setPositions, HeapFile.mem_positionsFrom, HeapPage.mem_slots]
    simp [pagesOf]

def wideRowSchema : TupleDesc 1000 := ⟨[.char], ["body"], rfl, by decide⟩

-- A file "t" of two pages in a fresh pool: slot 0 of page 0 and slot 3 of page 1 set.
def twoPageWorld : World where
  pool := BufferPool.init 1
  files := fun name => if name = "t" then some ⟨2, [], []⟩ else none
  disk := fun _ => ⟨fun id => if id = 0 then Function.update zeroPage 0 0x80
      else if id = 1 then Function.update zeroPage 0 0x10 else zeroPage, 2 * defaultPageSize, fun id past => by
    have : 2 ≤ id := Nat.le_of_mul_le_mul_right past (by decide)
    simp [show id ≠ 0 by omega, show id ≠ 1 by omega]⟩
  faults := fun _ => none
  trace := []

theorem twoPageWorld_walk :
    ∃ w', (heapBegin wideRowSchema "t" >>= fun it => nextN wideRowSchema "t" it 1) twoPageWorld =
      .ok ⟨1, 3⟩ w' := by
  obtain ⟨walk, -⟩ := heap_iteration_order wideRowSchema "t"
    (⟨init_accounting 1, Coherent.init rfl rfl, by decide, fun _ => rfl⟩ :
      Healthy 1 twoPageWorld twoPageWorld.stored) rfl
  obtain ⟨w', ran⟩ := walk 1
  have second : (setPositions wideRowSchema "t" twoPageWorld.stored twoPageWorld).getD 1
      ⟨twoPageWorld.numPages "t", 0⟩ = ⟨1, 3⟩ := by decide
  exact ⟨w', ran.trans (by rw [second])⟩

end World

end PagedDb
