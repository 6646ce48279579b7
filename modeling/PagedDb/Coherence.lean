import Mathlib.Data.String.Basic
import PagedDb.FrameAccounting

namespace PagedDb

def World.stored (w : World) (pid : PageId) : Page := (w.disk pid.file).pages pid.page

-- The pages as callers see them: a cached page's frame holds its latest bytes, clean
-- cached pages and uncached ones are on disk as they are latest.
structure Coherent (w : World) (latest : PageId → Page) : Prop where
  cached : ∀ pid pos, w.pool.pidToPos pid = some pos → w.pool.pages pos = latest pid
  clean : ∀ pid pos, w.pool.pidToPos pid = some pos → pos ∉ w.pool.dirty → w.stored pid = latest pid
  stored : ∀ pid, w.pool.pidToPos pid = none → w.stored pid = latest pid
  unnamed : w.files "" = none
  registered : ∀ pid pos, w.pool.pidToPos pid = some pos → (w.files pid.file).isSome

-- How a call changes the bytes callers last stored: a write stores them, discardPage
-- drops them for what the disk holds.
def latestStep (w : World) (latest : PageId → Page) : Op → PageId → Page
  | .write pid page => Function.update latest pid page
  | .discardPage pid => Function.update latest pid (w.stored pid)
  | _ => latest

def latestAfter : World → (PageId → Page) → List Op → PageId → Page
  | _, latest, [] => latest
  | w, latest, op :: ops =>
    match op.exec w with
    | .ok _ w' => latestAfter w' (latestStep w latest op) ops
    | .error _ _ => latest

-- Every caller write is followed at once by markDirty of its page.
inductive Disciplined : List Op → Prop
  | nil : Disciplined []
  | call (op : Op) (ops : List Op) (notWrite : ∀ pid page, op ≠ .write pid page) :
      Disciplined ops → Disciplined (op :: ops)
  | update (pid : PageId) (page : Page) (ops : List Op) :
      Disciplined ops → Disciplined (.write pid page :: .markDirty pid :: ops)

@[simp] theorem World.log_files_isSome (w : World) (e : IoEvent) (name : String) :
    ((w.log e).files name).isSome = (w.files name).isSome := by
  cases e with
  | read pid | write pid => by_cases same : name = pid.file <;> simp [World.log, Function.update_apply, same]

@[simp] theorem World.log_files_eq_none (w : World) (e : IoEvent) (name : String) :
    (w.log e).files name = none ↔ w.files name = none := by
  cases e with
  | read pid | write pid => by_cases same : name = pid.file <;> simp [World.log, Function.update_apply, same]

theorem store_pages (disk : String → DiskFile) (pid q : PageId) (page : Page) :
    (Function.update disk pid.file ((disk pid.file).store pid.page page) q.file).pages q.page =
      if q = pid then page else (disk q.file).pages q.page := by
  by_cases same : q = pid
  · subst same; simp [DiskFile.store]
  · rw [if_neg same, Function.update_apply]
    split
    · rename_i file
      have page' : q.page ≠ pid.page := fun page' => same (by cases q; cases pid; simp_all)
      simp [DiskFile.store, file, page']
    · rfl

namespace World
variable {N : Nat} {w w' : World}

theorem flushPage_clean {pid : PageId} (acc : Accounting N w.pool) (ran : flushPage pid w = .ok () w') :
    w'.pool.isDirty pid = false := by
  rcases flushPage_ok ran with ⟨clean, rfl⟩ | ⟨pos, found, -, -, -, rfl⟩
  · exact clean
  · simp [BufferPool.isDirty, found, acc.dirtyNodup.not_mem_erase]

theorem flushPage_dirty {pid : PageId} (acc : Accounting N w.pool) (ran : flushPage pid w = .ok () w')
    (pos : Nat) : pos ∈ w'.pool.dirty ↔ pos ∈ w.pool.dirty ∧ w.pool.posToPid pos ≠ pid := by
  rcases flushPage_ok ran with ⟨clean, rfl⟩ | ⟨pos', found, -, -, -, rfl⟩
  · refine ⟨fun dirty => ⟨dirty, fun same => ?_⟩, And.left⟩
    have found := acc.pidToPos_of_dirty dirty
    simp [BufferPool.isDirty, ← same, found, dirty] at clean
  · show pos ∈ w.pool.dirty.erase pos' ↔ _
    rw [acc.dirtyNodup.mem_erase_iff]
    refine and_comm.trans (and_congr_right fun dirty => not_congr ⟨fun here => ?_, fun same => ?_⟩)
    · rw [here, acc.posToPid_of_pidToPos found]
    · exact Option.some.inj ((same ▸ acc.pidToPos_of_dirty dirty).symm.trans found)

theorem flushPages_pool {pids : List PageId} (ran : flushPages pids w = .ok () w') :
    w'.pool = { w.pool with dirty := w'.pool.dirty } := by
  induction pids generalizing w with
  | nil => cases ran; rfl
  | cons pid rest ih =>
    obtain ⟨_, w₁, flushed, ran⟩ := bind_ok ran
    rw [ih ran, flushPage_pool flushed]

theorem flushPages_dirty {pids : List PageId} (acc : Accounting N w.pool) (ran : flushPages pids w = .ok () w')
    (pos : Nat) : pos ∈ w'.pool.dirty ↔ pos ∈ w.pool.dirty ∧ w.pool.posToPid pos ∉ pids := by
  induction pids generalizing w with
  | nil => cases ran; simp
  | cons pid rest ih =>
    obtain ⟨_, w₁, flushed, ran⟩ := bind_ok ran
    have kept : w₁.pool.posToPid = w.pool.posToPid := by rw [flushPage_pool flushed]
    rw [ih (flushPage_accounting acc flushed) ran, flushPage_dirty acc flushed, kept, List.mem_cons, not_or,
      and_assoc]

theorem mem_dirtyIds {pool : BufferPool} {keep : PageId → Bool} {pos : Nat} (dirty : pos ∈ pool.dirty) :
    pool.posToPid pos ∈ dirtyIds pool keep ↔ keep (pool.posToPid pos) = true := by
  simp only [dirtyIds, List.mem_filterMap, Option.ite_none_right_eq_some, Option.some.injEq]
  exact ⟨fun ⟨_, _, kept, same⟩ => same ▸ kept, fun kept => ⟨pos, dirty, kept, rfl⟩⟩

theorem flushFile_dirty {name : String} (acc : Accounting N w.pool) (ran : flushFile name w = .ok () w')
    (pos : Nat) : pos ∈ w'.pool.dirty ↔ pos ∈ w.pool.dirty ∧ (w.pool.posToPid pos).file ≠ name := by
  obtain ⟨_, _, ⟨⟩, flushed⟩ := bind_ok ran
  rw [flushPages_dirty acc flushed]
  exact and_congr_right fun dirty => not_congr ((mem_dirtyIds dirty).trans (by simp))

theorem flushPages_clean {pids : List PageId} (acc : Accounting N w.pool) (ran : flushPages pids w = .ok () w')
    {pid : PageId} (listed : w.pool.isDirty pid = true → pid ∈ pids) : w'.pool.isDirty pid = false := by
  rw [flushPages_pool ran]
  cases found : w.pool.pidToPos pid with
  | none => simp [BufferPool.isDirty, found]
  | some pos =>
    have stays := flushPages_dirty acc ran pos
    rw [acc.posToPid_of_pidToPos found] at stays
    simp only [BufferPool.isDirty, found] at listed ⊢
    simpa [stays] using listed

theorem mem_dirtyIds_of_isDirty {pool : BufferPool} {keep : PageId → Bool} {pid : PageId} (acc : Accounting N pool)
    (dirty : pool.isDirty pid = true) (kept : keep pid = true) : pid ∈ dirtyIds pool keep := by
  unfold BufferPool.isDirty at dirty
  split at dirty
  · rename_i pos found
    rw [← acc.posToPid_of_pidToPos found] at kept ⊢
    exact (mem_dirtyIds (by simpa using dirty)).mpr kept
  · cases dirty

end World

namespace Coherent
variable {N : Nat} {w : World} {latest : PageId → Page}

theorem named (coh : Coherent w latest) (pid : PageId) (pos : Nat) (found : w.pool.pidToPos pid = some pos) :
    pid.file ≠ "" := fun empty => by simpa [empty, coh.unnamed] using coh.registered pid pos found

theorem stored_of_clean (coh : Coherent w latest) {pid : PageId} (clean : w.pool.isDirty pid = false) :
    w.stored pid = latest pid := by
  cases found : w.pool.pidToPos pid with
  | none => exact coh.stored pid found
  | some pos => exact coh.clean pid pos found (by simpa [BufferPool.isDirty, found] using clean)

theorem touched (coh : Coherent w latest) (lru : List (Nat × Nat)) :
    Coherent { w with pool := { w.pool with lruList := lru } } latest :=
  ⟨coh.cached, coh.clean, coh.stored, coh.unnamed, coh.registered⟩

theorem marked (coh : Coherent w latest) (pid : PageId) :
    Coherent { w with pool := w.pool.markDirty pid } latest := by
  unfold BufferPool.markDirty
  split
  · exact ⟨coh.cached, fun pid' pos' found clean => coh.clean pid' pos' found fun dirty =>
      clean (List.mem_insert_of_mem dirty), coh.stored, coh.unnamed, coh.registered⟩
  · exact coh

section Steps
variable (acc : Accounting N w.pool) (coh : Coherent w latest)
include acc coh

theorem updated {pid : PageId} {pos : Nat} (found : w.pool.pidToPos pid = some pos) (page : Page) :
    Coherent { w with pool := { w.pool with
      pages := Function.update w.pool.pages pos page, dirty := w.pool.dirty.insert pos } }
      (Function.update latest pid page) where
  cached pid' pos' found' := by
    by_cases same : pid' = pid
    · subst same
      cases found.symm.trans found'
      simp
    · have other : pos' ≠ pos := fun here => same (acc.pid_eq_of_pidToPos found' (here ▸ found))
      simpa [same, other] using coh.cached pid' pos' found'
  clean pid' pos' found' clean := by
    have other : pos' ≠ pos := fun here => clean (here ▸ List.mem_insert_self pos _)
    have same : pid' ≠ pid := fun same => other (Option.some.inj (found'.symm.trans (same ▸ found)))
    rw [Function.update_noteq same]
    exact coh.clean pid' pos' found' fun dirty => clean (List.mem_insert_of_mem dirty)
  stored pid' missing := by
    have same : pid' ≠ pid := fun same => by simp_all
    rw [Function.update_noteq same]
    exact coh.stored pid' missing
  unnamed := coh.unnamed
  registered := coh.registered

theorem released {pid : PageId} {pos : Nat} (found : w.pool.pidToPos pid = some pos) (node : Nat) :
    Coherent { w with pool := w.pool.release pid node pos } (Function.update latest pid (w.stored pid)) where
  cached pid' pos' found' := by
    have same : pid' ≠ pid := fun same => by simp [BufferPool.release, same] at found'
    simp only [BufferPool.release, Function.update_noteq same] at found' ⊢
    exact coh.cached pid' pos' found'
  clean pid' pos' found' clean := by
    have same : pid' ≠ pid := fun same => by simp [BufferPool.release, same] at found'
    simp only [BufferPool.release, Function.update_noteq same] at found' clean ⊢
    have other : pos' ≠ pos := fun here => same (acc.pid_eq_of_pidToPos found' (here ▸ found))
    exact coh.clean pid' pos' found' fun dirty => clean ((List.mem_erase_of_ne other).mpr dirty)
  stored pid' missing := by
    by_cases same : pid' = pid
    · subst same; simp only [Function.update_same]; rfl
    · simp only [BufferPool.release, Function.update_noteq same] at missing ⊢
      exact coh.stored pid' missing
  unnamed := coh.unnamed
  registered pid' pos' found' := by
    have same : pid' ≠ pid := fun same => by simp [BufferPool.release, same] at found'
    simp only [BufferPool.release, Function.update_noteq same] at found'
    exact coh.registered pid' pos' found'

theorem flushPage_coherent {pid : PageId} {w' : World} (ran : World.flushPage pid w = .ok () w') :
    Coherent w' latest := by
  rcases World.flushPage_ok ran with ⟨-, rfl⟩ | ⟨pos, found, -, -, -, rfl⟩
  · exact coh
  refine ⟨coh.cached, fun pid' pos' found' clean => ?_, fun pid' missing => ?_, by simpa using coh.unnamed,
    fun pid' pos' found' => by simpa using coh.registered pid' pos' found'⟩
  · simp only [World.stored, store_pages]
    split
    · subst pid'
      exact coh.cached pid pos found
    · rename_i same
      have other : pos' ≠ pos := fun here => same (acc.pid_eq_of_pidToPos found' (here ▸ found))
      exact coh.clean pid' pos' found' fun dirty => clean ((List.mem_erase_of_ne other).mpr dirty)
  · have same : pid' ≠ pid := fun same => by simp_all
    simp only [World.stored, store_pages, if_neg same]
    exact coh.stored pid' missing

theorem flushPages_coherent {pids : List PageId} {w' : World} (ran : World.flushPages pids w = .ok () w') :
    Coherent w' latest := by
  induction pids generalizing w with
  | nil => cases ran; exact coh
  | cons pid rest ih =>
    obtain ⟨_, w₁, flushed, ran⟩ := bind_ok ran
    exact ih (World.flushPage_accounting acc flushed) (coh.flushPage_coherent acc flushed) ran

theorem evict_coherent {w'' : World} (full : w.pool.available = []) (ran : World.evict w = .ok () w'')
    (room : w''.pool.available ≠ []) : Coherent w'' latest := by
  obtain ⟨node, pos, -, found, w₁, flushed, kept, acc₁, rfl⟩ := World.evict_spec acc full ran room
  have coh₁ : Coherent w₁ latest := by
    split at flushed
    · exact coh.flushPage_coherent acc flushed
    · rwa [flushed]
  have clean : w₁.pool.isDirty (w.pool.posToPid pos) = false := by
    split at flushed
    · exact World.flushPage_clean acc flushed
    · rename_i dirty
      rw [flushed]; simpa using dirty
  have released := coh₁.released acc₁ (show w₁.pool.pidToPos _ = some pos by rw [kept]; exact found) node
  rwa [coh₁.stored_of_clean clean, Function.update_eq_self] at released

theorem loadFrame_coherent {pid : PageId} {pos : Nat} {w' : World} (missing : w.pool.pidToPos pid = none)
    (ran : World.loadFrame pid w = .ok pos w') : Coherent w' latest ∧ w'.pool.pidToPos pid = some pos := by
  obtain ⟨rest, popped, file, -, loaded⟩ := World.loadFrame_ok ran
  have free : pos ∉ w.pool.resident := acc.not_resident_of_available (by simp [popped])
  have found' (pid' : PageId) : w'.pool.pidToPos pid' = if pid' = pid then some pos else w.pool.pidToPos pid' := by
    simp [loaded, BufferPool.install, Function.update_apply]
  subst loaded
  refine ⟨⟨fun pid' pos' found => ?_, fun pid' pos' found clean => ?_, fun pid' missing' => ?_,
    by simpa using coh.unnamed, fun pid' pos' found => ?_⟩, (found' pid).trans (if_pos rfl)⟩
  · rw [found'] at found
    split at found
    · rename_i same
      subst same
      cases found
      simpa [BufferPool.install, World.stored] using coh.stored _ missing
    · have other : pos' ≠ pos := fun here => free (here ▸ acc.resident_of_pidToPos found)
      simpa [BufferPool.install, other] using coh.cached pid' pos' found
  · rw [found'] at found
    split at found
    · subst pid'
      exact coh.stored _ missing
    · exact coh.clean pid' pos' found clean
  · rw [found'] at missing'
    split at missing'
    · cases missing'
    · exact coh.stored pid' missing'
  · rw [found'] at found
    split at found
    · subst pid'
      simpa using file
    · simpa using coh.registered pid' pos' found

theorem getPage_coherent {pid : PageId} {pos : Nat} {w' : World} (ran : World.getPage pid w = .ok pos w') :
    Coherent w' latest ∧ w'.pool.pidToPos pid = some pos := by
  rcases World.getPage_ok ran with ⟨found, pool, touched, rfl⟩ | ⟨missing, w'', evicted, loaded⟩
  · obtain ⟨node, -, touched'⟩ := acc.touch_eq (acc.resident_of_pidToPos found)
    cases touched'.symm.trans touched
    exact ⟨coh.touched _, found⟩
  · obtain ⟨rest, popped, -⟩ := World.loadFrame_ok loaded
    split at evicted
    · have full := List.isEmpty_iff.mp ‹_›
      have room : w''.pool.available ≠ [] := by simp [popped]
      exact (coh.evict_coherent acc full evicted room).loadFrame_coherent (World.evict_accounting acc evicted)
        (World.evict_pidToPos evicted missing) loaded
    · subst evicted
      exact coh.loadFrame_coherent acc missing loaded

end Steps

theorem exec_coherent {op : Op} {w w' : World} (acc : Accounting N w.pool) (coh : Coherent w latest)
    (notWrite : ∀ pid page, op ≠ .write pid page) (ran : op.exec w = .ok () w') :
    Coherent w' (latestStep w latest op) := by
  cases op with
  | getPage pid =>
    obtain ⟨pos, w₁, got, ran⟩ := bind_ok ran
    obtain ⟨-, rfl⟩ := EStateM.Result.ok.inj ran
    exact (coh.getPage_coherent acc got).1
  | write pid page => exact absurd rfl (notWrite pid page)
  | markDirty pid => cases ran; exact coh.marked pid
  | isDirty pid => cases ran; exact coh
  | contains pid => cases ran; exact coh
  | discardPage pid =>
    simp only [Op.exec] at ran
    obtain ⟨pool, discarded, rfl⟩ := World.poolStep_ok ran
    cases found : w.pool.pidToPos pid with
    | none =>
      simp only [BufferPool.discardPage, found] at discarded
      cases discarded
      rw [latestStep, coh.stored pid found, Function.update_eq_self]
      exact coh
    | some pos =>
      obtain ⟨node, -, released⟩ := acc.discardPage_eq found
      cases released.symm.trans discarded
      exact coh.released acc found node
  | flushPage pid => exact coh.flushPage_coherent acc ran
  | flushFile name =>
    obtain ⟨_, _, ⟨⟩, flushed⟩ := bind_ok ran
    exact coh.flushPages_coherent acc flushed

theorem update_coherent {pid : PageId} {page : Page} {w w₁ w' : World} (acc : Accounting N w.pool)
    (coh : Coherent w latest) (wrote : (Op.write pid page).exec w = .ok () w₁)
    (marked : (Op.markDirty pid).exec w₁ = .ok () w') : Coherent w' (Function.update latest pid page) := by
  obtain ⟨pos, found, rfl⟩ := World.write_ok wrote
  cases marked
  simpa [BufferPool.markDirty, found] using coh.updated acc found page

theorem runOps_coherent {ops : List Op} {w w' : World} (disciplined : Disciplined ops)
    (acc : Accounting N w.pool) (coh : Coherent w latest) (ran : runOps ops w = .ok () w') :
    Coherent w' (latestAfter w latest ops) := by
  induction disciplined generalizing w latest with
  | nil => cases ran; exact coh
  | call op ops notWrite _ ih =>
    obtain ⟨_, w₁, stepped, ran⟩ := bind_ok ran
    simp only [latestAfter, stepped]
    exact ih (World.exec_accounting acc stepped) (coh.exec_coherent acc notWrite stepped) ran
  | update pid page ops _ ih =>
    obtain ⟨_, w₁, wrote, ran⟩ := bind_ok ran
    obtain ⟨_, w₂, marked, ran⟩ := bind_ok ran
    simp only [latestAfter, wrote, marked, latestStep]
    exact ih (World.exec_accounting (World.exec_accounting acc wrote) marked)
      (coh.update_coherent acc wrote marked) ran

end Coherent

theorem Coherent.init {N : Nat} {w₀ : World} (constructed : w₀.pool = BufferPool.init N)
    (unnamed : w₀.files "" = none) : Coherent w₀ w₀.stored where
  cached pid pos found := by simp [constructed, BufferPool.init] at found
  clean pid pos found := by simp [constructed, BufferPool.init] at found
  stored _ _ := rfl
  unnamed := unnamed
  registered pid pos found := by simp [constructed, BufferPool.init] at found

-- Along every run from a new pool whose writes are each followed by markDirty, no
-- update is lost but through discardPage.
theorem pool_keeps_latest (N : Nat) (w₀ : World) (ops : List Op) (w : World)
    (constructed : w₀.pool = BufferPool.init N) (unnamed : w₀.files "" = none)
    (disciplined : Disciplined ops) (ran : runOps ops w₀ = .ok () w) :
    (∀ pid pos w', World.getPage pid w = .ok pos w' → w'.pool.pages pos = latestAfter w₀ w₀.stored ops pid) ∧
    (∀ pid pos, w.pool.pidToPos pid = some pos → pos ∉ w.pool.dirty → w.pool.pages pos = w.stored pid) ∧
    (∀ pid w', World.flushPage pid w = .ok () w' → w'.stored pid = latestAfter w₀ w₀.stored ops pid) ∧
    (∀ name w', World.flushFile name w = .ok () w' →
      (∀ pid, pid.file = name → w'.stored pid = latestAfter w₀ w₀.stored ops pid) ∧
      ∀ pos, pos ∈ w'.pool.dirty ↔ pos ∈ w.pool.dirty ∧ (w.pool.posToPid pos).file ≠ name) ∧
    (∀ w', World.destroy w = .ok () w' → ∀ pid, w'.stored pid = latestAfter w₀ w₀.stored ops pid) := by
  have acc₀ : Accounting N w₀.pool := constructed ▸ init_accounting N
  have acc := World.runOps_accounting acc₀ ran
  have coh := (Coherent.init constructed unnamed).runOps_coherent disciplined acc₀ ran
  refine ⟨fun pid pos w' got => ?_, fun pid pos found clean => ?_, fun pid w' flushed => ?_,
    fun name w' flushed => ⟨fun pid named => ?_, World.flushFile_dirty acc flushed⟩, fun w' destroyed pid => ?_⟩
  · obtain ⟨coh', found⟩ := coh.getPage_coherent acc got
    exact coh'.cached pid pos found
  · exact (coh.cached pid pos found).trans (coh.clean pid pos found clean).symm
  · exact (coh.flushPage_coherent acc flushed).stored_of_clean (World.flushPage_clean acc flushed)
  · obtain ⟨_, _, ⟨⟩, flushed⟩ := bind_ok flushed
    exact (coh.flushPages_coherent acc flushed).stored_of_clean (World.flushPages_clean acc flushed
      fun dirty => World.mem_dirtyIds_of_isDirty acc dirty (by simp [named]))
  · obtain ⟨_, _, ⟨⟩, flushed⟩ := bind_ok destroyed
    refine (coh.flushPages_coherent acc flushed).stored_of_clean (World.flushPages_clean acc flushed
      fun dirty => World.mem_dirtyIds_of_isDirty acc dirty ?_)
    cases found : w.pool.pidToPos pid with
    | none => simp [BufferPool.isDirty, found] at dirty
    | some pos =>
      cases empty : pid.file.isEmpty
      · rfl
      · exact absurd ((String.isEmpty_iff _).mp empty) (coh.named pid pos found)

theorem pool_keeps_latest_written :
    ∃ w, runOps [.getPage ⟨"t", 0⟩, .write ⟨"t", 0⟩ (fun i => if i = 0 then 1 else 0), .markDirty ⟨"t", 0⟩]
        (World.boot 2 ["t"]) = .ok () w ∧
      ∀ w', World.flushPage ⟨"t", 0⟩ w = .ok () w' → w'.stored ⟨"t", 0⟩ 0 = 1 := by
  have ran : runOps [.getPage ⟨"t", 0⟩, .write ⟨"t", 0⟩ (fun i => if i = 0 then 1 else 0), .markDirty ⟨"t", 0⟩]
      (World.boot 2 ["t"]) = .ok () _ := rfl
  refine ⟨_, ran, fun w' flushed => ?_⟩
  rw [(pool_keeps_latest 2 _ _ _ rfl rfl (.call _ _ (by simp) (.update _ _ _ .nil)) ran).2.2.1 _ _ flushed]
  rfl

end PagedDb
