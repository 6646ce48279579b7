import PagedDb.FrameAccounting

namespace PagedDb

-- An LRU cache of N page ids, most recently used first.
def lruGet (N : Nat) (pid : PageId) (cache : List PageId) : List PageId :=
  if pid ∈ cache then pid :: cache.erase pid
  else pid :: if cache.length = N then cache.dropLast else cache

def lruVictim (N : Nat) (pid : PageId) (cache : List PageId) : Option PageId :=
  if pid ∈ cache then none else if cache.length = N then cache.getLast? else none

-- The I/O of a buffer caching like `lruGet`: a miss writes back a dirty victim, then reads.
def lruIo (N : Nat) (dirty : PageId → Bool) (pid : PageId) (cache : List PageId) : List IoEvent :=
  if pid ∈ cache then []
  else match lruVictim N pid cache with
    | some victim => (if dirty victim then [.write victim] else []) ++ [.read pid]
    | none => [.read pid]

def lruStep (N : Nat) : Op → List PageId → List PageId
  | .getPage pid, cache => lruGet N pid cache
  | .discardPage pid, cache => cache.erase pid
  | _, cache => cache

def lruRun (N : Nat) (ops : List Op) : List PageId := ops.foldl (fun cache op => lruStep N op cache) []

def BufferPool.recency (pool : BufferPool) : List PageId := pool.lruList.map fun entry => pool.posToPid entry.2

namespace Accounting
variable {N : Nat} {pool : BufferPool} (acc : Accounting N pool)
include acc

theorem recency_injOn : ∀ x ∈ pool.lruList, ∀ y ∈ pool.lruList, pool.posToPid x.2 = pool.posToPid y.2 → x = y :=
  fun x member y member' same => acc.entry_eq member member' (Option.some.inj
    (((acc.pidOf _ x.2).mpr ⟨List.mem_map_of_mem _ member, rfl⟩).symm.trans
      (same ▸ (acc.pidOf _ y.2).mpr ⟨List.mem_map_of_mem _ member', rfl⟩)))

theorem recency_nodup : pool.recency.Nodup := List.Nodup.map_on acc.recency_injOn (acc.nodes.of_map _)

theorem mem_recency {pid : PageId} : pid ∈ pool.recency ↔ ∃ pos, pool.pidToPos pid = some pos := by
  constructor
  · intro member
    obtain ⟨entry, held, rfl⟩ := List.mem_map.mp member
    exact ⟨_, (acc.pidOf _ entry.2).mpr ⟨List.mem_map_of_mem _ held, rfl⟩⟩
  · rintro ⟨pos, found⟩
    obtain ⟨held, named⟩ := (acc.pidOf pid pos).mp found
    obtain ⟨entry, member, rfl⟩ := List.mem_map.mp held
    exact List.mem_map.mpr ⟨entry, member, named⟩

theorem recency_length_eq_iff : pool.recency.length = N ↔ pool.available = [] := by
  have count := acc.frames.length_eq
  simp only [List.length_append, List.length_range, BufferPool.resident, List.length_map] at count
  simp only [BufferPool.recency, List.length_map, ← List.length_eq_zero]
  omega

theorem touched_recency {pid : PageId} {node pos : Nat} (found : pool.pidToPos pid = some pos)
    (member : (node, pos) ∈ pool.lruList) :
    { pool with lruList := (node, pos) :: pool.lruList.erase (node, pos) }.recency = pid :: pool.recency.erase pid := by
  simp only [BufferPool.recency, List.map_cons]
  rw [map_erase_of_injOn (f := fun entry => pool.posToPid entry.2) acc.recency_injOn member,
    acc.posToPid_of_pidToPos found]

theorem release_recency {pid : PageId} {node pos : Nat} (found : pool.pidToPos pid = some pos)
    (member : (node, pos) ∈ pool.lruList) : (pool.release pid node pos).recency = pool.recency.erase pid := by
  simp only [BufferPool.recency, BufferPool.release]
  rw [← acc.posToPid_of_pidToPos found, ← map_erase_of_injOn (f := fun entry => pool.posToPid entry.2)
    acc.recency_injOn member]
  refine List.map_congr_left fun entry kept => Function.update_noteq ?_ _ _
  exact ((acc.mem_resident_erase member).mp (List.mem_map_of_mem Prod.snd kept)).1

theorem installed_recency {pid : PageId} {pos : Nat} {rest : List Nat} (popped : pool.available = pos :: rest)
    (pages : Nat → Page) : ({ pool with available := rest, pages := pages }.install pid pos).recency = pid :: pool.recency := by
  have free : pos ∉ pool.resident := acc.not_resident_of_available (by simp [popped])
  simp only [BufferPool.recency, BufferPool.install, List.map_cons, Function.update_same]
  refine congrArg _ (List.map_congr_left fun entry member => Function.update_noteq ?_ _ _)
  exact fun same => free (same ▸ List.mem_map_of_mem Prod.snd member)

end Accounting

namespace World
variable {N : Nat}

theorem getPage_lru {pid : PageId} {w w' : World} {pos : Nat} (acc : Accounting N w.pool)
    (ran : getPage pid w = .ok pos w') :
    w'.pool.recency = lruGet N pid w.pool.recency ∧
      (∀ victim, lruVictim N pid w.pool.recency = some victim → w'.pool.pidToPos victim = none) ∧
      w'.trace = w.trace ++ lruIo N w.pool.isDirty pid w.pool.recency := by
  rcases getPage_ok ran with ⟨found, pool, touched, rfl⟩ | ⟨missing, w'', evicted, loaded⟩
  · have cached : pid ∈ w.pool.recency := acc.mem_recency.mpr ⟨pos, found⟩
    obtain ⟨node, member, touched'⟩ := acc.touch_eq (acc.resident_of_pidToPos found)
    rw [touched'] at touched
    cases touched
    exact ⟨by rw [acc.touched_recency found member, lruGet, if_pos cached], fun victim => by simp [lruVictim, cached],
      by simp [lruIo, cached]⟩
  have uncached : pid ∉ w.pool.recency := fun cached => by
    obtain ⟨pos', found⟩ := acc.mem_recency.mp cached
    rw [found] at missing
    cases missing
  obtain ⟨rest, popped, -, -, rfl⟩ := loadFrame_ok loaded
  cases empty : w.pool.available.isEmpty
  · rw [empty, if_neg Bool.false_ne_true] at evicted
    subst w''
    have room : w.pool.recency.length ≠ N := fun full => by
      rw [acc.recency_length_eq_iff] at full
      simp [full] at empty
    have quiet : lruVictim N pid w.pool.recency = none := by simp [lruVictim, uncached, room]
    refine ⟨by rw [acc.installed_recency popped, lruGet, if_neg uncached, if_neg room], fun victim => by simp [quiet],
      by simp [lruIo, uncached, quiet]⟩
  · rw [empty, if_pos rfl] at evicted
    have full : w.pool.available = [] := List.isEmpty_iff.mp empty
    obtain ⟨node, vpos, last, found, w₁, flushed, kept, acc₁, rfl⟩ := evict_spec acc full evicted (by simp [popped])
    have member := List.mem_of_getLast?_eq_some last
    have found₁ : w₁.pool.pidToPos (w.pool.posToPid vpos) = some vpos := by rw [kept]; exact found
    have member₁ : (node, vpos) ∈ w₁.pool.lruList := by rw [kept]; exact member
    have same : w₁.pool.recency = w.pool.recency := by rw [kept]; rfl
    simp only [BufferPool.release] at popped
    obtain ⟨rfl, rfl⟩ := List.cons.inj popped
    have lastId : w.pool.recency.getLast? = some (w.pool.posToPid vpos) := by
      simp [BufferPool.recency, List.getLast?_map, last]
    have victim : lruVictim N pid w.pool.recency = some (w.pool.posToPid vpos) := by
      simp [lruVictim, uncached, (acc.recency_length_eq_iff).mpr full, lastId]
    have other : pid ≠ w.pool.posToPid vpos := fun same' =>
      uncached (same' ▸ acc.mem_recency.mpr ⟨vpos, found⟩)
    refine ⟨?_, fun v chosen => ?_, ?_⟩
    · rw [(acc₁.discarded found₁ member₁).installed_recency rfl, acc₁.release_recency found₁ member₁, same,
        erase_getLast acc.recency_nodup lastId, lruGet, if_neg uncached, if_pos ((acc.recency_length_eq_iff).mpr full)]
    · rw [victim] at chosen
      cases chosen
      simp [BufferPool.install, BufferPool.release, Function.update_noteq (Ne.symm other)]
    · have traced : w₁.trace = w.trace ++ if w.pool.isDirty (w.pool.posToPid vpos) then [.write (w.pool.posToPid vpos)] else [] := by
        split at flushed
        · exact flushPage_trace flushed
        · rw [flushed]; simp [‹¬_›]
      simp [lruIo, uncached, victim, traced]

theorem flushPages_recency {pids : List PageId} {w w' : World} (ran : flushPages pids w = .ok () w') :
    w'.pool.recency = w.pool.recency := by
  induction pids generalizing w with
  | nil => cases ran; rfl
  | cons pid rest ih =>
    obtain ⟨_, w₁, flushed, ran⟩ := bind_ok ran
    rw [ih ran, flushPage_pool flushed]
    rfl

theorem exec_lru {op : Op} {w w' : World} (acc : Accounting N w.pool) (ran : op.exec w = .ok () w') :
    w'.pool.recency = lruStep N op w.pool.recency := by
  cases op with
  | getPage pid =>
    obtain ⟨pos, w₁, got, ran⟩ := bind_ok ran
    obtain ⟨-, rfl⟩ := EStateM.Result.ok.inj ran
    exact (getPage_lru acc got).1
  | write pid page =>
    obtain ⟨pos, -, rfl⟩ := write_ok ran
    rfl
  | markDirty pid =>
    cases ran
    simp only [BufferPool.recency, BufferPool.markDirty]
    split <;> rfl
  | isDirty pid => cases ran; rfl
  | contains pid => cases ran; rfl
  | discardPage pid =>
    simp only [Op.exec] at ran
    obtain ⟨pool, discarded, rfl⟩ := poolStep_ok ran
    cases found : w.pool.pidToPos pid with
    | none =>
      simp only [BufferPool.discardPage, found] at discarded
      cases discarded
      refine (List.erase_of_not_mem fun cached => ?_).symm
      obtain ⟨pos, found'⟩ := acc.mem_recency.mp cached
      rw [found] at found'
      cases found'
    | some pos =>
      obtain ⟨node, member, released⟩ := acc.discardPage_eq found
      rw [released] at discarded
      cases discarded
      exact acc.release_recency found member
  | flushPage pid =>
    rw [flushPage_pool ran]
    rfl
  | flushFile name =>
    obtain ⟨_, _, ⟨⟩, flushed⟩ := bind_ok ran
    exact flushPages_recency flushed

theorem runOps_lru {ops : List Op} {w w' : World} (acc : Accounting N w.pool) (ran : runOps ops w = .ok () w') :
    w'.pool.recency = ops.foldl (fun cache op => lruStep N op cache) w.pool.recency := by
  induction ops generalizing w with
  | nil => cases ran; rfl
  | cons op rest ih =>
    obtain ⟨_, w₁, stepped, ran⟩ := bind_ok ran
    rw [ih (exec_accounting acc stepped) ran, List.foldl_cons, exec_lru acc stepped]

end World

-- BufferPool refines an LRU cache of N page ids: lru_list is the cache's list, and the
-- next getPage moves, evicts, reads and writes back as the cache predicts.
theorem lru_refinement (N : Nat) (w₀ : World) (ops : List Op) (w : World)
    (constructed : w₀.pool = BufferPool.init N) (ran : runOps ops w₀ = .ok () w) :
    w.pool.recency = lruRun N ops ∧
      ∀ pid pos w', World.getPage pid w = .ok pos w' →
        w'.pool.recency = lruGet N pid (lruRun N ops) ∧
        (∀ victim, lruVictim N pid (lruRun N ops) = some victim → w'.pool.pidToPos victim = none) ∧
        w'.trace = w.trace ++ lruIo N w.pool.isDirty pid (lruRun N ops) := by
  have acc₀ : Accounting N w₀.pool := constructed ▸ init_accounting N
  have tracked : w.pool.recency = lruRun N ops := by
    rw [World.runOps_lru acc₀ ran, constructed]
    rfl
  refine ⟨tracked, fun pid pos w' got => ?_⟩
  rw [← tracked]
  exact World.getPage_lru (World.runOps_accounting acc₀ ran) got

theorem lru_refinement_two :
    ∃ w, runOps [.getPage ⟨"t", 0⟩, .getPage ⟨"t", 1⟩, .getPage ⟨"t", 0⟩] (World.boot 2 ["t"]) = .ok () w ∧
      w.pool.recency = [⟨"t", 0⟩, ⟨"t", 1⟩] := by
  have ran : runOps [.getPage ⟨"t", 0⟩, .getPage ⟨"t", 1⟩, .getPage ⟨"t", 0⟩] (World.boot 2 ["t"]) = .ok () _ := rfl
  exact ⟨_, ran, (lru_refinement 2 _ _ _ rfl ran).1.trans (by decide)⟩

end PagedDb
