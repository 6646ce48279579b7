import PagedDb.BufferPool

namespace PagedDb

def BufferPool.resident (pool : BufferPool) : List Nat := pool.lruList.map Prod.snd

-- The accounting of a pool of N frames: each frame is free or holds one page, and the
-- maps, lru_list with its iterators, and the dirty set agree on which.
structure Accounting (N : Nat) (pool : BufferPool) : Prop where
  frames : (pool.available ++ pool.resident).Perm (List.range N)
  nodes : (pool.lruList.map Prod.fst).Nodup
  fresh : ∀ entry ∈ pool.lruList, entry.1 < pool.nextNode
  lruOf : ∀ pos node, pool.posToLru pos = some node ↔ (node, pos) ∈ pool.lruList
  pidOf : ∀ pid pos, pool.pidToPos pid = some pos ↔ pos ∈ pool.resident ∧ pool.posToPid pos = pid
  freeEmpty : ∀ pos ∈ pool.available, pool.posToPid pos = {}
  dirtyResident : ∀ pos ∈ pool.dirty, pos ∈ pool.resident
  dirtyNodup : pool.dirty.Nodup

theorem init_accounting (N : Nat) : Accounting N (BufferPool.init N) where
  frames := by simp [BufferPool.init, BufferPool.resident]
  nodes := List.nodup_nil
  fresh := fun _ member => by cases member
  lruOf := fun _ _ => by simp [BufferPool.init]
  pidOf := fun _ _ => by simp [BufferPool.init, BufferPool.resident]
  freeEmpty := fun _ _ => rfl
  dirtyResident := fun _ member => by cases member
  dirtyNodup := List.nodup_nil

theorem BufferPool.unlink_of_mem {lru : List (Nat × Nat)} {node pos : Nat} (nodes : (lru.map Prod.fst).Nodup)
    (member : (node, pos) ∈ lru) : unlink lru node = some ((node, pos), lru.erase (node, pos)) := by
  obtain ⟨entry, found⟩ := Option.isSome_iff_exists.mp
    (List.find?_isSome.mpr ⟨(node, pos), member, by simp⟩ : (lru.find? fun entry => entry.1 == node).isSome)
  have same : entry = (node, pos) := List.inj_on_of_nodup_map nodes (List.mem_of_find?_eq_some found) member
    (by simpa using List.find?_some found)
  simp [unlink, found, same]

-- What discardPage leaves when `pid` was cached in frame `pos` with lru cell `node`.
def BufferPool.release (pool : BufferPool) (pid : PageId) (node pos : Nat) : BufferPool :=
  { pool with
    pidToPos := Function.update pool.pidToPos pid none
    posToPid := Function.update pool.posToPid pos {}
    lruList := pool.lruList.erase (node, pos)
    posToLru := Function.update pool.posToLru pos none
    dirty := pool.dirty.erase pos
    available := pos :: pool.available }

namespace Accounting
variable {N : Nat} {pool : BufferPool}

section Facts
variable (acc : Accounting N pool)
include acc

theorem nodup : (pool.available ++ pool.resident).Nodup := acc.frames.nodup_iff.mpr (List.nodup_range N)

theorem resident_nodup : pool.resident.Nodup := (List.nodup_append.mp acc.nodup).2.1

theorem available_nodup : pool.available.Nodup := (List.nodup_append.mp acc.nodup).1

theorem not_resident_of_available {pos : Nat} (free : pos ∈ pool.available) : pos ∉ pool.resident :=
  fun held => (List.nodup_append.mp acc.nodup).2.2 free held

theorem lt_of_resident {pos : Nat} (held : pos ∈ pool.resident) : pos < N :=
  List.mem_range.mp (acc.frames.subset (List.mem_append_right _ held))

theorem resident_of_pidToPos {pid : PageId} {pos : Nat} (found : pool.pidToPos pid = some pos) :
    pos ∈ pool.resident := ((acc.pidOf pid pos).mp found).1

theorem posToPid_of_pidToPos {pid : PageId} {pos : Nat} (found : pool.pidToPos pid = some pos) :
    pool.posToPid pos = pid := ((acc.pidOf pid pos).mp found).2

theorem pid_eq_of_pidToPos {pid pid' : PageId} {pos : Nat} (found : pool.pidToPos pid = some pos)
    (found' : pool.pidToPos pid' = some pos) : pid = pid' :=
  (acc.posToPid_of_pidToPos found).symm.trans (acc.posToPid_of_pidToPos found')

theorem pidToPos_of_dirty {pos : Nat} (dirty : pos ∈ pool.dirty) : pool.pidToPos (pool.posToPid pos) = some pos :=
  (acc.pidOf _ pos).mpr ⟨acc.dirtyResident pos dirty, rfl⟩

theorem entry_eq {entry entry' : Nat × Nat} (member : entry ∈ pool.lruList) (member' : entry' ∈ pool.lruList)
    (same : entry.2 = entry'.2) : entry = entry' :=
  List.inj_on_of_nodup_map acc.resident_nodup member member' same

theorem mem_resident_erase {node pos pos' : Nat} (member : (node, pos) ∈ pool.lruList) :
    pos' ∈ (pool.lruList.erase (node, pos)).map Prod.snd ↔ pos' ≠ pos ∧ pos' ∈ pool.resident := by
  constructor
  · intro kept
    obtain ⟨⟨node', pos''⟩, erased, rfl⟩ := List.mem_map.mp kept
    have gone := (List.Nodup.mem_erase_iff (List.Nodup.of_map Prod.fst acc.nodes)).mp erased
    refine ⟨fun same => gone.1 (acc.entry_eq gone.2 member same), List.mem_map_of_mem _ gone.2⟩
  · rintro ⟨other, held⟩
    obtain ⟨⟨node', pos''⟩, kept, rfl⟩ := List.mem_map.mp held
    exact List.mem_map_of_mem _ ((List.mem_erase_of_ne fun same => other (by cases same; rfl)).mpr kept)

theorem touch_eq {pos : Nat} (held : pos ∈ pool.resident) :
    ∃ node, (node, pos) ∈ pool.lruList ∧
      pool.touch pos = .ok { pool with lruList := (node, pos) :: pool.lruList.erase (node, pos) } := by
  obtain ⟨⟨node, pos'⟩, member, rfl⟩ := List.mem_map.mp held
  refine ⟨node, member, ?_⟩
  simp [BufferPool.touch, (acc.lruOf pos' node).mpr member, BufferPool.unlink_of_mem acc.nodes member]
  rfl

theorem discardPage_eq {pid : PageId} {pos : Nat} (found : pool.pidToPos pid = some pos) :
    ∃ node, (node, pos) ∈ pool.lruList ∧ pool.discardPage pid = .ok (pool.release pid node pos) := by
  obtain ⟨⟨node, pos'⟩, member, same⟩ := List.mem_map.mp (acc.resident_of_pidToPos found)
  cases same
  refine ⟨node, member, ?_⟩
  simp [BufferPool.discardPage, found, (acc.lruOf pos' node).mpr member, BufferPool.unlink_of_mem acc.nodes member]
  rfl

end Facts

theorem withPages (acc : Accounting N pool) (pages : Nat → Page) : Accounting N { pool with pages := pages } :=
  ⟨acc.1, acc.2, acc.3, acc.4, acc.5, acc.6, acc.7, acc.8⟩

theorem touched (acc : Accounting N pool) {node pos : Nat} (member : (node, pos) ∈ pool.lruList) :
    Accounting N { pool with lruList := (node, pos) :: pool.lruList.erase (node, pos) } := by
  have moved := perm_cons_erase_of_mem member
  have frames : List.Perm (((node, pos) :: pool.lruList.erase (node, pos)).map Prod.snd) pool.resident :=
    (moved.map _).symm
  exact {
    frames := (frames.append_left _).trans acc.frames
    nodes := ((moved.map _).nodup_iff).mp acc.nodes
    fresh := fun entry kept => acc.fresh entry (moved.symm.subset kept)
    lruOf := fun pos' node' => (acc.lruOf pos' node').trans moved.mem_iff
    pidOf := fun pid pos' => (acc.pidOf pid pos').trans (and_congr_left' frames.mem_iff.symm)
    freeEmpty := acc.freeEmpty
    dirtyResident := fun pos' dirty => frames.mem_iff.mpr (acc.dirtyResident pos' dirty)
    dirtyNodup := acc.dirtyNodup }

theorem marked (acc : Accounting N pool) (pid : PageId) : Accounting N (pool.markDirty pid) := by
  unfold BufferPool.markDirty
  split
  · rename_i pos found
    exact { acc with
      dirtyResident := fun pos' dirty => by
        rcases List.mem_insert_iff.mp dirty with rfl | old
        · exact acc.resident_of_pidToPos found
        · exact acc.dirtyResident pos' old
      dirtyNodup := acc.dirtyNodup.insert }
  · exact acc

theorem cleaned (acc : Accounting N pool) (pos : Nat) : Accounting N { pool with dirty := pool.dirty.erase pos } :=
  { acc with
    dirtyResident := fun pos' dirty => acc.dirtyResident pos' (List.mem_of_mem_erase dirty)
    dirtyNodup := acc.dirtyNodup.erase pos }

theorem discarded (acc : Accounting N pool) {pid : PageId} {node pos : Nat} (found : pool.pidToPos pid = some pos)
    (member : (node, pos) ∈ pool.lruList) : Accounting N (pool.release pid node pos) where
  frames := by
    have moved : List.Perm pool.resident (pos :: (pool.lruList.erase (node, pos)).map Prod.snd) :=
      (perm_cons_erase_of_mem member).map Prod.snd
    exact (List.perm_middle.symm.trans (moved.symm.append_left _)).trans acc.frames
  nodes := acc.nodes.sublist ((List.erase_sublist _ _).map _)
  fresh := fun entry kept => acc.fresh entry (List.mem_of_mem_erase kept)
  lruOf := fun pos' node' => by
    simp only [BufferPool.release, Function.update_apply]
    split
    · rename_i same
      subst same
      exact ⟨fun wrong => (by cases wrong),
        fun kept => (((acc.mem_resident_erase member).mp (List.mem_map_of_mem Prod.snd kept)).1 rfl).elim⟩
    · rename_i other
      exact (acc.lruOf pos' node').trans (List.mem_erase_of_ne fun same => other (by cases same; rfl)).symm
  pidOf := fun pid' pos' => by
    simp only [BufferPool.release, Function.update_apply, BufferPool.resident]
    rw [acc.mem_resident_erase member]
    by_cases same : pid' = pid
    · subst same
      simp only [if_true, reduceCtorEq, false_iff, not_and]
      intro ⟨other, held⟩ named
      rw [if_neg other] at named
      exact other (Option.some.inj (((acc.pidOf pid' pos').mpr ⟨held, named⟩).symm.trans found))
    · rw [if_neg same, acc.pidOf]
      by_cases here : pos' = pos
      · subst here
        rw [acc.posToPid_of_pidToPos found]
        simp [Ne.symm same]
      · simp [here]
  freeEmpty := fun pos' free => by
    show Function.update pool.posToPid pos {} pos' = {}
    rw [Function.update_apply]
    split
    · rfl
    · exact acc.freeEmpty pos' ((List.mem_cons.mp free).resolve_left ‹_›)
  dirtyResident := fun pos' dirty => by
    have kept := (List.Nodup.mem_erase_iff acc.dirtyNodup).mp dirty
    exact (acc.mem_resident_erase member).mpr ⟨kept.1, acc.dirtyResident _ kept.2⟩
  dirtyNodup := acc.dirtyNodup.erase pos

theorem installed (acc : Accounting N pool) {pid : PageId} {pos : Nat} {rest : List Nat}
    (missing : pool.pidToPos pid = none) (popped : pool.available = pos :: rest) (pages : Nat → Page) :
    Accounting N ({ pool with available := rest, pages := pages }.install pid pos) where
  frames := by
    show List.Perm (rest ++ pos :: pool.resident) (List.range N)
    have frames := acc.frames
    rw [popped] at frames
    exact List.perm_middle.trans frames
  nodes := List.nodup_cons.mpr ⟨fun old => by
      obtain ⟨entry, member, same⟩ := List.mem_map.mp old
      exact absurd (acc.fresh entry member) (by simp [same]), acc.nodes⟩
  fresh := fun entry member => by
    rcases List.mem_cons.mp member with rfl | old
    · exact Nat.lt_succ_self _
    · exact Nat.lt_succ_of_lt (acc.fresh entry old)
  lruOf := fun pos' node => by
    have free : pos ∉ pool.resident := acc.not_resident_of_available (by simp [popped])
    simp only [BufferPool.install, Function.update_apply, List.mem_cons]
    split
    · rename_i same
      subst same
      simp only [Option.some.injEq, Prod.mk.injEq, and_true]
      constructor
      · exact fun named => .inl named.symm
      · rintro (named | old)
        · exact named.symm
        · exact (free (List.mem_map_of_mem Prod.snd old)).elim
    · rename_i other
      rw [acc.lruOf]
      simp [other]
  pidOf := fun pid' pos' => by
    have free : pos ∉ pool.resident := acc.not_resident_of_available (by simp [popped])
    simp only [BufferPool.install, BufferPool.resident, Function.update_apply, List.map_cons, List.mem_cons]
    by_cases same : pid' = pid
    · subst same
      simp only [if_true, Option.some.injEq]
      by_cases here : pos' = pos
      · simp [here]
      · simp only [here, false_or, if_false]
        refine ⟨fun named => absurd named.symm here, fun ⟨held, named⟩ => ?_⟩
        rw [(acc.pidOf pid' pos').mpr ⟨held, named⟩] at missing
        cases missing
    · rw [if_neg same, acc.pidOf]
      by_cases here : pos' = pos
      · subst here
        simp [free, Ne.symm same]
      · simp [here, BufferPool.resident]
  freeEmpty := fun pos' free => by
    have free : pos' ∈ rest := free
    have distinct := acc.available_nodup
    rw [popped] at distinct
    show Function.update pool.posToPid pos pid pos' = {}
    rw [Function.update_noteq fun same => (List.nodup_cons.mp distinct).1 (by rwa [← same])]
    exact acc.freeEmpty pos' (by simp [popped, free])
  dirtyResident := fun pos' dirty => List.mem_cons_of_mem _ (acc.dirtyResident pos' dirty)
  dirtyNodup := acc.dirtyNodup

theorem discardPage_accounting (acc : Accounting N pool) {pid : PageId} {pool' : BufferPool}
    (ran : pool.discardPage pid = .ok pool') : Accounting N pool' := by
  cases found : pool.pidToPos pid with
  | none =>
    simp only [BufferPool.discardPage, found] at ran
    cases ran
    exact acc
  | some pos =>
    obtain ⟨node, member, discarded⟩ := acc.discardPage_eq found
    rw [discarded] at ran
    cases ran
    exact acc.discarded found member

end Accounting

namespace World
variable {N : Nat}

theorem flushPage_accounting {pid : PageId} {w w' : World} (acc : Accounting N w.pool)
    (ran : flushPage pid w = .ok () w') : Accounting N w'.pool := by
  rcases flushPage_ok ran with ⟨-, rfl⟩ | ⟨pos, -, -, -, -, rfl⟩
  · exact acc
  · exact acc.cleaned pos

theorem flushPages_accounting {pids : List PageId} {w w' : World} (acc : Accounting N w.pool)
    (ran : flushPages pids w = .ok () w') : Accounting N w'.pool := by
  induction pids generalizing w with
  | nil => cases ran; exact acc
  | cons pid rest ih =>
    obtain ⟨_, w₁, flushed, ran⟩ := bind_ok ran
    exact ih (flushPage_accounting acc flushed) ran

theorem evict_accounting {w w' : World} (acc : Accounting N w.pool) (ran : evict w = .ok () w') :
    Accounting N w'.pool := by
  obtain ⟨node, pos, -, (⟨-, rfl⟩ | ⟨-, w'', pool, flushed, discarded, rfl⟩)⟩ := evict_ok ran
  · exact acc
  · have acc'' : Accounting N w''.pool := by
      split at flushed
      · exact flushPage_accounting acc flushed
      · rwa [flushed]
    exact acc''.discardPage_accounting discarded

theorem evict_spec {w w'' : World} (acc : Accounting N w.pool) (full : w.pool.available = [])
    (ran : evict w = .ok () w'') (room : w''.pool.available ≠ []) :
    ∃ node pos, w.pool.lruList.getLast? = some (node, pos) ∧ w.pool.pidToPos (w.pool.posToPid pos) = some pos ∧
      ∃ w₁, (if w.pool.isDirty (w.pool.posToPid pos) then flushPage (w.pool.posToPid pos) w = .ok () w₁
          else w₁ = w) ∧
        w₁.pool = { w.pool with dirty := w₁.pool.dirty } ∧ Accounting N w₁.pool ∧
        w'' = { w₁ with pool := w₁.pool.release (w.pool.posToPid pos) node pos } := by
  obtain ⟨node, pos, last, (⟨-, rfl⟩ | ⟨-, w₁, pool, flushed, discarded, rfl⟩)⟩ := evict_ok ran
  · exact absurd full room
  have member := List.mem_of_getLast?_eq_some last
  have found : w.pool.pidToPos (w.pool.posToPid pos) = some pos :=
    (acc.pidOf _ pos).mpr ⟨List.mem_map_of_mem Prod.snd member, rfl⟩
  have kept : w₁.pool = { w.pool with dirty := w₁.pool.dirty } := by
    split at flushed
    · exact flushPage_pool flushed
    · rw [flushed]
  have acc₁ : Accounting N w₁.pool := by
    split at flushed
    · exact flushPage_accounting acc flushed
    · rwa [flushed]
  rw [kept] at discarded
  obtain ⟨node', member', released⟩ := acc₁.discardPage_eq (show w₁.pool.pidToPos _ = _ by rw [kept]; exact found)
  rw [← kept, released] at discarded
  cases discarded
  have member'' : (node', pos) ∈ w.pool.lruList := by rwa [kept] at member'
  obtain rfl : node' = node := congrArg Prod.fst (acc.entry_eq member'' member rfl)
  exact ⟨node', pos, last, found, w₁, flushed, kept, acc₁, rfl⟩

theorem getPage_accounting {pid : PageId} {w w' : World} {pos : Nat} (acc : Accounting N w.pool)
    (ran : getPage pid w = .ok pos w') : Accounting N w'.pool := by
  rcases getPage_ok ran with ⟨found, pool, touched, rfl⟩ | ⟨missing, w'', evicted, loaded⟩
  · obtain ⟨node, member, touched'⟩ := acc.touch_eq (acc.resident_of_pidToPos found)
    rw [touched'] at touched
    cases touched
    exact acc.touched member
  · have acc'' : Accounting N w''.pool := by
      split at evicted
      · exact evict_accounting acc evicted
      · rwa [evicted]
    have missing'' : w''.pool.pidToPos pid = none := by
      split at evicted
      · exact evict_pidToPos evicted missing
      · rwa [evicted]
    obtain ⟨rest, popped, -, -, rfl⟩ := loadFrame_ok loaded
    exact acc''.installed missing'' popped _

theorem exec_accounting {op : Op} {w w' : World} (acc : Accounting N w.pool) (ran : op.exec w = .ok () w') :
    Accounting N w'.pool := by
  cases op with
  | getPage pid =>
    obtain ⟨pos, w₁, got, ran⟩ := bind_ok ran
    obtain ⟨-, rfl⟩ := EStateM.Result.ok.inj ran
    exact getPage_accounting acc got
  | write pid page =>
    obtain ⟨pos, -, rfl⟩ := write_ok ran
    exact acc.withPages _
  | markDirty pid =>
    cases ran
    exact acc.marked pid
  | isDirty pid => cases ran; exact acc
  | contains pid => cases ran; exact acc
  | discardPage pid =>
    simp only [Op.exec] at ran
    obtain ⟨pool, discarded, rfl⟩ := poolStep_ok ran
    exact acc.discardPage_accounting discarded
  | flushPage pid => exact flushPage_accounting acc ran
  | flushFile name =>
    obtain ⟨_, _, ⟨⟩, flushed⟩ := bind_ok ran
    exact flushPages_accounting acc flushed

theorem runOps_accounting {ops : List Op} {w w' : World} (acc : Accounting N w.pool)
    (ran : runOps ops w = .ok () w') : Accounting N w'.pool := by
  induction ops generalizing w with
  | nil => cases ran; exact acc
  | cons op rest ih =>
    obtain ⟨_, w₁, stepped, ran⟩ := bind_ok ran
    exact ih (exec_accounting acc stepped) ran

end World

-- The constructor's pool and every run of calls that return keep each frame free or
-- holding exactly one page.
theorem frame_accounting (N : Nat) (w₀ : World) (ops : List Op) (w : World)
    (constructed : w₀.pool = BufferPool.init N) (ran : runOps ops w₀ = .ok () w) :
    (∀ pid pos, w.pool.pidToPos pid = some pos → w.pool.posToPid pos = pid ∧ pos < N) ∧
    (∀ pos < N, (∀ pid, w.pool.pidToPos pid ≠ some pos) → w.pool.posToPid pos = {}) ∧
    (w.pool.lruList.map Prod.snd).Nodup ∧
    (∀ pos, pos ∈ w.pool.lruList.map Prod.snd ↔ ∃ pid, w.pool.pidToPos pid = some pos) ∧
    (∀ pid pos, w.pool.pidToPos pid = some pos →
      ∃ node, w.pool.posToLru pos = some node ∧ (node, pos) ∈ w.pool.lruList) ∧
    (∀ pos ∈ w.pool.dirty, ∃ pid, w.pool.pidToPos pid = some pos) ∧
    w.pool.available.Nodup ∧ (∀ pos ∈ w.pool.available, ∀ pid, w.pool.pidToPos pid ≠ some pos) ∧
    w.pool.lruList.length + w.pool.available.length = N ∧
    (0 < N → w.pool.available = [] → w.pool.lruList ≠ []) := by
  have acc : Accounting N w.pool := World.runOps_accounting (constructed ▸ init_accounting N) ran
  have resident : ∀ pos, pos ∈ w.pool.resident ↔ ∃ pid, w.pool.pidToPos pid = some pos :=
    fun pos => ⟨fun held => ⟨_, (acc.pidOf _ pos).mpr ⟨held, rfl⟩⟩, fun ⟨_, found⟩ => acc.resident_of_pidToPos found⟩
  have count : w.pool.lruList.length + w.pool.available.length = N := by
    have := acc.frames.length_eq
    simp only [List.length_append, List.length_range, BufferPool.resident, List.length_map] at this
    omega
  refine ⟨fun pid pos found => ⟨acc.posToPid_of_pidToPos found, acc.lt_of_resident (acc.resident_of_pidToPos found)⟩,
    fun pos small free => ?_, acc.resident_nodup, resident, fun pid pos found => ?_,
    fun pos dirty => (resident pos).mp (acc.dirtyResident pos dirty), acc.available_nodup,
    fun pos free pid found => acc.not_resident_of_available free (acc.resident_of_pidToPos found), count,
    fun positive empty none => by simp [none, empty] at count; omega⟩
  · have member := acc.frames.symm.subset (List.mem_range.mpr small)
    rcases List.mem_append.mp member with available | held
    · exact acc.freeEmpty pos available
    · obtain ⟨pid, found⟩ := (resident pos).mp held
      exact absurd found (free pid)
  · obtain ⟨⟨node, pos'⟩, member, same⟩ := List.mem_map.mp (acc.resident_of_pidToPos found)
    cases same
    exact ⟨node, (acc.lruOf _ node).mpr member, member⟩

theorem frame_accounting_three :
    ∃ w, runOps [.getPage ⟨"t", 0⟩, .markDirty ⟨"t", 0⟩, .getPage ⟨"t", 1⟩] (World.boot 3 ["t"]) = .ok () w ∧
      w.pool.lruList.length + w.pool.available.length = 3 := by
  obtain ⟨w, ran⟩ : ∃ w, runOps [.getPage ⟨"t", 0⟩, .markDirty ⟨"t", 0⟩, .getPage ⟨"t", 1⟩]
      (World.boot 3 ["t"]) = .ok () w := ⟨_, rfl⟩
  exact ⟨w, ran, (frame_accounting 3 _ _ w rfl ran).2.2.2.2.2.2.2.2.1⟩

def World.fullDisk : World := { World.boot 3 ["t"] with
  faults := fun call => if call = .write ⟨"t", 0⟩ then some "No space left on device" else none }

-- A getPage of an unregistered file has popped a frame when Database::get throws, and a
-- failing flushPage has cleared the dirty mark: the frame is lost, and so is the mark.
theorem failed_calls_lose_frames_and_marks :
    (Accounting 3 (World.boot 3 []).pool ∧ ∃ w,
      World.getPage ⟨"missing", 0⟩ (World.boot 3 []) = .error (.outOfRange "missing") w ∧
      w.pool.lruList.length + w.pool.available.length = 2 ∧
      0 ∉ w.pool.available ∧ ∀ pid, w.pool.pidToPos pid ≠ some 0) ∧
    ∃ w w', runOps [.getPage ⟨"t", 0⟩, .write ⟨"t", 0⟩ (fun i => if i = 0 then 1 else 0), .markDirty ⟨"t", 0⟩]
        World.fullDisk = .ok () w ∧ Accounting 3 w.pool ∧
      World.flushPage ⟨"t", 0⟩ w = .error (.runtime "pwrite failed: No space left on device") w' ∧
      w'.pool.pidToPos ⟨"t", 0⟩ = some 0 ∧ w'.pool.pages 0 0 ≠ (w'.disk "t").pages 0 0 ∧ 0 ∉ w'.pool.dirty := by
  refine ⟨⟨init_accounting 3, _, rfl, by decide, by decide, fun pid => by simp [World.boot, BufferPool.init]⟩, ?_⟩
  have ran : runOps [.getPage ⟨"t", 0⟩, .write ⟨"t", 0⟩ (fun i => if i = 0 then 1 else 0),
      .markDirty ⟨"t", 0⟩] World.fullDisk = .ok () _ := rfl
  exact ⟨_, _, ran, World.runOps_accounting (init_accounting 3) ran, rfl, by decide, by decide, by decide⟩

end PagedDb
