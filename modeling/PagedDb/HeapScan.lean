import PagedDb.HeapFile
import PagedDb.Coherence

namespace PagedDb

def World.pageCounts (w : World) (name : String) : Option Nat := (w.files name).map DbFile.numPages

@[simp] theorem World.log_pageCounts (w : World) (e : IoEvent) : (w.log e).pageCounts = w.pageCounts := by
  funext name
  cases e with
  | read pid | write pid =>
    by_cases same : name = pid.file <;> simp [World.pageCounts, World.log, Function.update_apply, Function.comp_def, same]

theorem World.numPages_eq (w : World) (name : String) : w.numPages name = (w.pageCounts name).getD 0 := rfl

def World.Aligned (w : World) (name : String) : Prop := (w.disk name).size % defaultPageSize = 0

theorem DiskFile.store_aligned (file : DiskFile) (id : Nat) (page : Page) (aligned : file.size % defaultPageSize = 0) :
    (file.store id page).size % defaultPageSize = 0 := by
  show max file.size ((id + 1) * defaultPageSize) % defaultPageSize = 0
  rcases Nat.le_total file.size ((id + 1) * defaultPageSize) with le | le
  · rw [Nat.max_eq_right le, Nat.mul_mod_left]
  · rw [Nat.max_eq_left le]; exact aligned

-- What the pool's calls leave alone: the disk's faults, the registry, aligned files.
structure World.Frame (w w' : World) : Prop where
  faults : w'.faults = w.faults
  counts : w'.pageCounts = w.pageCounts
  aligned : ∀ name, w.Aligned name → w'.Aligned name

namespace World.Frame

theorem refl (w : World) : World.Frame w w := ⟨rfl, rfl, fun _ => id⟩

theorem trans {w₁ w₂ w₃ : World} (first : World.Frame w₁ w₂) (second : World.Frame w₂ w₃) : World.Frame w₁ w₃ :=
  ⟨second.faults.trans first.faults, second.counts.trans first.counts,
    fun name aligned => second.aligned name (first.aligned name aligned)⟩

theorem pooled (w : World) (pool : BufferPool) : World.Frame w { w with pool := pool } := ⟨rfl, rfl, fun _ => id⟩

theorem isSome {w w' : World} (frame : World.Frame w w') (name : String) :
    (w'.files name).isSome = (w.files name).isSome := by
  simpa [World.pageCounts] using congrArg Option.isSome (congrFun frame.counts name)

theorem numPages {w w' : World} (frame : World.Frame w w') (name : String) : w'.numPages name = w.numPages name := by
  rw [World.numPages_eq, World.numPages_eq, frame.counts]

theorem logged (w : World) (e : IoEvent) (pool : BufferPool) : World.Frame w { w.log e with pool := pool } :=
  ⟨by simp, World.log_pageCounts w e, fun name aligned => by simpa [World.Aligned] using aligned⟩

theorem stored (w : World) (e : IoEvent) (pool : BufferPool) (file : String) (id : Nat) (page : Page) :
    World.Frame w { w.log e with
      pool := pool
      disk := Function.update w.disk file ((w.disk file).store id page) } := by
  refine ⟨by simp, World.log_pageCounts w e, fun name aligned => ?_⟩
  by_cases same : name = file
  · subst same; simpa [World.Aligned] using DiskFile.store_aligned _ id page aligned
  · simpa [World.Aligned, same] using aligned

end World.Frame

-- A process whose pool keeps its accounting and coherence and whose I/O succeeds.
structure Healthy (N : Nat) (w : World) (latest : PageId → Page) : Prop where
  acc : Accounting N w.pool
  coh : Coherent w latest
  frames : 0 < N
  sound : ∀ e, w.faults e = none

namespace World
variable {N : Nat} {w w' : World} {latest : PageId → Page}

theorem flushPage_frame {pid : PageId} (ran : flushPage pid w = .ok () w') : Frame w w' := by
  rcases flushPage_ok ran with ⟨-, rfl⟩ | ⟨pos, -, -, -, -, rfl⟩
  · exact .refl _
  · exact Frame.stored w _ _ _ _ _

theorem flushPages_frame {pids : List PageId} (ran : flushPages pids w = .ok () w') : Frame w w' := by
  induction pids generalizing w with
  | nil => cases ran; exact .refl _
  | cons pid rest ih =>
    obtain ⟨_, w₁, flushed, ran⟩ := bind_ok ran
    exact (flushPage_frame flushed).trans (ih ran)

theorem evict_frame (ran : evict w = .ok () w') : Frame w w' := by
  obtain ⟨node, pos, -, (⟨-, rfl⟩ | ⟨-, w₁, pool, flushed, -, rfl⟩)⟩ := evict_ok ran
  · exact .refl _
  · have first : Frame w w₁ := by
      split at flushed
      · exact flushPage_frame flushed
      · subst flushed; exact .refl _
    exact first.trans (.pooled w₁ pool)

theorem getPage_frame {pid : PageId} {pos : Nat} (ran : getPage pid w = .ok pos w') : Frame w w' := by
  rcases getPage_ok ran with ⟨-, pool, -, rfl⟩ | ⟨-, w₁, evicted, loaded⟩
  · exact .pooled w pool
  · obtain ⟨rest, -, -, -, rfl⟩ := loadFrame_ok loaded
    have first : Frame w w₁ := by
      split at evicted
      · exact evict_frame evicted
      · subst evicted; exact .refl _
    exact first.trans (Frame.logged w₁ _ _)

theorem exec_frame {op : Op} (ran : op.exec w = .ok () w') : Frame w w' := by
  cases op with
  | getPage pid =>
    obtain ⟨pos, w₁, got, ran⟩ := bind_ok ran
    obtain ⟨-, rfl⟩ := EStateM.Result.ok.inj ran
    exact getPage_frame got
  | write pid page => obtain ⟨pos, -, rfl⟩ := write_ok ran; exact .pooled w _
  | markDirty pid => cases ran; exact .pooled w _
  | isDirty pid | contains pid => cases ran; exact .refl _
  | discardPage pid =>
    simp only [Op.exec] at ran
    obtain ⟨pool, -, rfl⟩ := poolStep_ok ran
    exact .pooled w pool
  | flushPage pid => exact flushPage_frame ran
  | flushFile name =>
    obtain ⟨_, _, ⟨⟩, flushed⟩ := bind_ok ran
    exact flushPages_frame flushed

section Progress
variable (sound : ∀ e, w.faults e = none)
include sound

theorem flushPage_returns {pid : PageId}
    (registered : ∀ pos, w.pool.pidToPos pid = some pos → (w.files pid.file).isSome) :
    ∃ w', flushPage pid w = .ok () w' := by
  simp only [flushPage, run_bind, run_get]
  cases found : w.pool.pidToPos pid with
  | none => exact ⟨w, rfl⟩
  | some pos =>
    obtain ⟨f, file⟩ := Option.isSome_iff_exists.mp (registered pos found)
    by_cases dirty : pos ∈ w.pool.dirty <;> simp [dirty, setPool, getFile_eq, file, writePage_eq, sound]

theorem loadFrame_returns {pid : PageId} {pos : Nat} {rest : List Nat} (popped : w.pool.available = pos :: rest)
    (file : (w.files pid.file).isSome) : ∃ w', loadFrame pid w = .ok pos w' := by
  obtain ⟨f, file⟩ := Option.isSome_iff_exists.mp file
  simp [loadFrame, popped, setPool, getFile_eq, file, readPage_eq, sound]

theorem evict_returns (acc : Accounting N w.pool) (coh : Coherent w latest) {node pos : Nat} (last : w.pool.lruList.getLast? = some (node, pos)) :
    ∃ w', evict w = .ok () w' ∧ w'.pool.available ≠ [] := by
  have member := List.mem_of_getLast?_eq_some last
  have found : w.pool.pidToPos (w.pool.posToPid pos) = some pos :=
    (acc.pidOf _ pos).mpr ⟨List.mem_map_of_mem Prod.snd member, rfl⟩
  have named : (w.pool.posToPid pos).file.isEmpty = false :=
    Bool.eq_false_iff.mpr fun empty => coh.named _ pos found ((String.isEmpty_iff _).mp empty)
  have discard (w₁ : World) (kept : w₁.pool = { w.pool with dirty := w₁.pool.dirty }) (acc₁ : Accounting N w₁.pool) :
      ∃ w', poolStep (·.discardPage (w.pool.posToPid pos)) w₁ = .ok () w' ∧ w'.pool.available ≠ [] := by
    obtain ⟨node', -, released⟩ := acc₁.discardPage_eq (show w₁.pool.pidToPos _ = some pos by rw [kept]; exact found)
    exact ⟨_, by simp only [poolStep, run_bind, run_get, released, setPool, run_modify]; rfl, by simp [BufferPool.release]⟩
  simp only [evict, run_bind, run_get, last, named, Bool.not_false, if_true]
  split
  · obtain ⟨w₁, flushed⟩ := flushPage_returns sound fun pos' found' => coh.registered _ pos' found'
    obtain ⟨w', discarded, room⟩ := discard w₁ (flushPage_pool flushed) (flushPage_accounting acc flushed)
    exact ⟨w', by rw [run_bind, flushed]; exact discarded, room⟩
  · obtain ⟨w', discarded, room⟩ := discard w rfl acc
    exact ⟨w', by rw [run_bind, run_pure]; exact discarded, room⟩

end Progress

theorem getPage_returns (healthy : Healthy N w latest) (pid : PageId) (file : (w.files pid.file).isSome) :
    ∃ pos w', getPage pid w = .ok pos w' ∧ Healthy N w' latest ∧ w'.pool.pages pos = latest pid ∧ Frame w w' := by
  obtain ⟨pos, w', ran⟩ : ∃ pos w', getPage pid w = .ok pos w' := by
    simp only [getPage, run_bind, run_get]
    cases found : w.pool.pidToPos pid with
    | some pos =>
      obtain ⟨node, -, touched⟩ := healthy.acc.touch_eq (healthy.acc.resident_of_pidToPos found)
      exact ⟨pos, _, by simp only [poolStep, run_bind, run_get, touched, setPool, run_modify, run_pure]; rfl⟩
    | none =>
      cases popped : w.pool.available with
      | cons pos rest =>
        obtain ⟨w', loaded⟩ := loadFrame_returns healthy.sound popped file
        exact ⟨pos, w', by simpa [popped] using loaded⟩
      | nil =>
        have count : w.pool.lruList.length = N := by
          simpa [popped, BufferPool.resident] using healthy.acc.frames.length_eq
        obtain ⟨⟨node, last⟩, back⟩ : ∃ entry, w.pool.lruList.getLast? = some entry :=
          Option.isSome_iff_exists.mp (List.getLast?_isSome.mpr fun empty => by
            have := healthy.frames; simp [empty] at count; omega)
        obtain ⟨w₁, evicted, room⟩ := evict_returns healthy.sound healthy.acc healthy.coh back
        obtain ⟨pos, rest, popped₁⟩ := List.exists_cons_of_ne_nil room
        have frame := evict_frame evicted
        obtain ⟨w', loaded⟩ := loadFrame_returns (by rw [frame.faults]; exact healthy.sound) popped₁
          (by rw [frame.isSome]; exact file)
        exact ⟨pos, w', by simpa [popped, evicted] using loaded⟩
  have frame := getPage_frame ran
  obtain ⟨coh', found'⟩ := healthy.coh.getPage_coherent healthy.acc ran
  exact ⟨pos, w', ran, ⟨getPage_accounting healthy.acc ran, coh', healthy.frames, by rw [frame.faults]; exact healthy.sound⟩,
    coh'.cached pid pos found', frame⟩

end World

namespace HeapFile
variable {c : Nat} (td : TupleDesc c) (pageAt : Nat → Page)

-- The positions of the records of pages `[p, p + left)`, as begin and next walk them.
def positionsFrom (p : Nat) : Nat → List Iterator
  | 0 => []
  | left + 1 => (HeapPage.slots td (pageAt p)).map (Iterator.mk p) ++ positionsFrom (p + 1) left

def after (n : Nat) (it : Iterator) : List Iterator :=
  (HeapPage.slotsFrom td (pageAt it.page) (it.slot + 1)).map (Iterator.mk it.page) ++
    positionsFrom td pageAt (it.page + 1) (n - (it.page + 1))

def recordAt (it : Iterator) : Tuple := HeapPage.read td (pageAt it.page) it.slot

-- The records of a file of `n` pages, page after page and slot after slot.
def records (n : Nat) : List Tuple := (List.range n).flatMap fun p => HeapPage.tuples td (pageAt p)

theorem positionsFrom_cons {p left : Nat} {it : Iterator} {rest : List Iterator}
    (first : positionsFrom td pageAt p left = it :: rest) :
    p ≤ it.page ∧ it.page < p + left ∧ it.slot ∈ HeapPage.slots td (pageAt it.page) ∧
      rest = after td pageAt (p + left) it := by
  induction left generalizing p with
  | zero => cases first
  | succ left ih =>
    rw [positionsFrom] at first
    cases slots : HeapPage.slots td (pageAt p) with
    | nil =>
      rw [slots, List.map_nil, List.nil_append] at first
      obtain ⟨low, high, member, rest'⟩ := ih first
      exact ⟨by omega, by omega, member, by rw [rest']; congr 1; omega⟩
    | cons s S =>
      rw [slots, List.map_cons, List.cons_append] at first
      obtain ⟨rfl, rfl⟩ := List.cons.inj first
      obtain ⟨-, -, -, rest'⟩ := HeapPage.slotsFrom_cons td _ slots
      refine ⟨le_rfl, by simp, by simp [slots], ?_⟩
      rw [after, ← rest']
      congr 2; dsimp only; omega

theorem after_cons {n : Nat} {it it' : Iterator} {rest : List Iterator} (inside : it.page < n)
    (next : after td pageAt n it = it' :: rest) :
    it'.page < n ∧ it'.slot ∈ HeapPage.slots td (pageAt it'.page) ∧ rest = after td pageAt n it' := by
  rw [after] at next
  cases later : HeapPage.slotsFrom td (pageAt it.page) (it.slot + 1) with
  | nil =>
    rw [later, List.map_nil, List.nil_append] at next
    obtain ⟨-, high, member, rest'⟩ := positionsFrom_cons td pageAt next
    exact ⟨by omega, member, by rw [rest']; congr 1; omega⟩
  | cons s S =>
    rw [later, List.map_cons, List.cons_append] at next
    obtain ⟨rfl, rfl⟩ := List.cons.inj next
    obtain ⟨-, bound, set, rest'⟩ := HeapPage.slotsFrom_cons td _ later
    exact ⟨inside, HeapPage.mem_slots.mpr ⟨bound, set⟩, by rw [after, ← rest']⟩

theorem positionsFrom_records (p left : Nat) :
    (positionsFrom td pageAt p left).map (recordAt td pageAt) =
      (List.range' p left).flatMap fun q => HeapPage.tuples td (pageAt q) := by
  induction left generalizing p with
  | zero => rfl
  | succ left ih =>
    rw [positionsFrom, List.map_append, ih, List.range'_succ, List.flatMap_cons, List.map_map]
    rfl

end HeapFile

namespace World
variable {N : Nat} {c : Nat} (td : TupleDesc c) (name : String) {w : World} {latest : PageId → Page}

def pagesOf (latest : PageId → Page) (name : String) (p : Nat) : Page := latest ⟨name, p⟩

theorem firstFrom_returns (healthy : Healthy N w latest) (file : (w.files name).isSome) (n p left : Nat) :
    ∃ w', firstFrom td name n p left w =
        .ok ((HeapFile.positionsFrom td (pagesOf latest name) p left).head?.getD ⟨n, 0⟩) w' ∧
      Healthy N w' latest ∧ Frame w w' := by
  induction left generalizing p w with
  | zero => exact ⟨w, rfl, healthy, .refl w⟩
  | succ left ih =>
    obtain ⟨pos, w₁, got, healthy₁, frame_page, frame₁⟩ := getPage_returns healthy ⟨name, p⟩ file
    have begin := HeapPage.begin_eq td (latest ⟨name, p⟩)
    simp only [firstFrom, run_bind, got, run_get, frame_page, begin, HeapFile.positionsFrom, pagesOf]
    cases slots : HeapPage.slots td (latest ⟨name, p⟩) with
    | nil =>
      obtain ⟨w', ran, healthy', frame'⟩ := ih healthy₁ (by rw [frame₁.isSome]; exact file) (p + 1)
      exact ⟨w', by simpa using ran, healthy', frame₁.trans frame'⟩
    | cons s S =>
      have bound := (HeapPage.mem_slots.mp (slots ▸ List.mem_cons_self s S)).1
      exact ⟨w₁, by simp [Nat.ne_of_lt bound], healthy₁, frame₁⟩

section Walk
variable (healthy : Healthy N w latest) (file : (w.files name).isSome) {it : Iterator}
  (inside : it.page < w.numPages name) (member : it.slot ∈ HeapPage.slots td (latest ⟨name, it.page⟩))
include healthy file inside member

theorem heapGetTuple_returns :
    ∃ w', heapGetTuple td name it w = .ok (HeapFile.recordAt td (pagesOf latest name) it) w' ∧
      Healthy N w' latest ∧ Frame w w' := by
  obtain ⟨pos, w₁, got, healthy₁, frame_page, frame₁⟩ := getPage_returns healthy ⟨name, it.page⟩ file
  obtain ⟨bound, set⟩ := HeapPage.mem_slots.mp member
  refine ⟨w₁, ?_, healthy₁, frame₁⟩
  simp [heapGetTuple, Nat.not_le.mpr inside, got, frame_page, HeapPage.getTuple_occupied _ bound set,
    HeapFile.recordAt, pagesOf]

theorem heapNext_returns :
    ∃ w', heapNext td name it w =
        .ok ((HeapFile.after td (pagesOf latest name) (w.numPages name) it).head?.getD ⟨w.numPages name, 0⟩) w' ∧
      Healthy N w' latest ∧ Frame w w' := by
  obtain ⟨pos, w₁, got, healthy₁, frame_page, frame₁⟩ := getPage_returns healthy ⟨name, it.page⟩ file
  have next := HeapPage.next_eq td (latest ⟨name, it.page⟩) (HeapPage.mem_slots.mp member).1
  simp only [heapNext, run_bind, run_get, Nat.not_le.mpr inside, if_false, got, frame_page, next, HeapFile.after,
    pagesOf]
  cases later : HeapPage.slotsFrom td (latest ⟨name, it.page⟩) (it.slot + 1) with
  | nil =>
    obtain ⟨w', ran, healthy', frame'⟩ :=
      firstFrom_returns td name healthy₁ (by rw [frame₁.isSome]; exact file) (w.numPages name) (it.page + 1)
        (w.numPages name - (it.page + 1))
    exact ⟨w', by simpa [pagesOf] using ran, healthy', frame₁.trans frame'⟩
  | cons s S =>
    have bound := (HeapPage.mem_slotsFrom td _).mp (later ▸ List.mem_cons_self s S)
    exact ⟨w₁, by simp [Nat.ne_of_lt bound.2.1], healthy₁, frame₁⟩

end Walk

def Walking (pageAt : Nat → Page) (n : Nat) (it : Iterator) (todo : List Iterator) : Prop :=
  todo = [] ∧ it = ⟨n, 0⟩ ∨
    it.page < n ∧ it.slot ∈ HeapPage.slots td (pageAt it.page) ∧ todo = it :: HeapFile.after td pageAt n it

theorem walking_head {pageAt : Nat → Page} {n : Nat} {todo : List Iterator} {it : Iterator}
    (inside : it.page < n) (next : HeapFile.after td pageAt n it = todo) :
    Walking td pageAt n (todo.head?.getD ⟨n, 0⟩) todo := by
  cases todo with
  | nil => exact .inl ⟨rfl, rfl⟩
  | cons it' rest =>
    obtain ⟨inside', member, rest'⟩ := HeapFile.after_cons td pageAt inside next
    exact .inr ⟨inside', member, show it' :: rest = it' :: HeapFile.after td pageAt n it' by rw [← rest']⟩

theorem walking_begin (pageAt : Nat → Page) (n : Nat) :
    Walking td pageAt n ((HeapFile.positionsFrom td pageAt 0 n).head?.getD ⟨n, 0⟩) (HeapFile.positionsFrom td pageAt 0 n) := by
  cases first : HeapFile.positionsFrom td pageAt 0 n with
  | nil => exact .inl ⟨rfl, rfl⟩
  | cons it rest =>
    obtain ⟨-, inside, member, rest'⟩ := HeapFile.positionsFrom_cons td _ first
    exact .inr ⟨show it.page < _ by omega, member, by rw [rest', Nat.zero_add]; rfl⟩

theorem collect_returns (healthy : Healthy N w latest) (file : (w.files name).isSome) {todo : List Iterator}
    {it : Iterator} (walking : Walking td (pagesOf latest name) (w.numPages name) it todo) (fuel : Nat)
    (enough : todo.length < fuel) :
    ∃ w', collect td name it fuel w = .ok (todo.map (HeapFile.recordAt td (pagesOf latest name))) w' ∧
      Healthy N w' latest ∧ Frame w w' := by
  cases fuel with
  | zero => exact absurd enough (Nat.not_lt_zero _)
  | succ fuel =>
  induction todo generalizing it fuel w with
  | nil =>
    obtain ⟨-, rfl⟩ | ⟨-, -, impossible⟩ := walking
    · exact ⟨w, by simp [collect, heapEnd], healthy, .refl w⟩
    · cases impossible
  | cons head tail ih =>
    obtain ⟨impossible, -⟩ | ⟨inside, member, todo⟩ := walking
    · cases impossible
    obtain ⟨rfl, rfl⟩ := List.cons.inj todo
    obtain ⟨w₁, got, healthy₁, frame₁⟩ := heapGetTuple_returns td name healthy file inside member
    obtain ⟨w₂, next, healthy₂, frame₂⟩ := heapNext_returns td name healthy₁ (by rw [frame₁.isSome]; exact file)
      (by rwa [frame₁.numPages]) member
    have same : w₂.numPages name = w.numPages name := (frame₂.numPages name).trans (frame₁.numPages name)
    rw [frame₁.numPages] at next
    cases fuel with
    | zero => simp at enough
    | succ fuel =>
    obtain ⟨w', ran, healthy', frame'⟩ := ih healthy₂ (by rw [frame₂.isSome, frame₁.isSome]; exact file)
      (by rw [same]; exact walking_head td inside rfl) fuel (by simp at enough; omega)
    refine ⟨w', ?_, healthy', frame₁.trans (frame₂.trans frame')⟩
    have differs : head ≠ ⟨w.numPages name, 0⟩ := fun same => by rw [same] at inside; exact Nat.lt_irrefl _ inside
    rw [collect]
    simp only [heapEnd, run_bind, run_get, run_pure, if_neg differs, got, next, ran, List.map_cons]

theorem heapScan_returns (healthy : Healthy N w latest) (file : (w.files name).isSome) {fuel : Nat}
    (enough : (HeapFile.records td (pagesOf latest name) (w.numPages name)).length < fuel) :
    ∃ w', heapScan td name fuel w = .ok (HeapFile.records td (pagesOf latest name) (w.numPages name)) w' ∧
      Healthy N w' latest ∧ Frame w w' := by
  have records : (HeapFile.positionsFrom td (pagesOf latest name) 0 (w.numPages name)).map
      (HeapFile.recordAt td (pagesOf latest name)) = HeapFile.records td (pagesOf latest name) (w.numPages name) := by
    rw [HeapFile.positionsFrom_records, HeapFile.records, List.range_eq_range']
  obtain ⟨w₁, began, healthy₁, frame₁⟩ := firstFrom_returns td name healthy file (w.numPages name) 0 (w.numPages name)
  obtain ⟨w', ran, healthy', frame'⟩ := collect_returns td name healthy₁ (by rw [frame₁.isSome]; exact file)
    (by rw [frame₁.numPages]; exact walking_begin td _ _) fuel
    (by rw [← records, List.length_map] at enough; exact enough)
  exact ⟨w', by simp only [heapScan, heapBegin, run_bind, run_get, began, ran, records], healthy', frame₁.trans frame'⟩

end World

end PagedDb
