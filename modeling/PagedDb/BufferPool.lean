import PagedDb.World

namespace PagedDb

theorem BufferPool.discardPage_pidToPos {pool pool' : BufferPool} {pid : PageId}
    (ran : pool.discardPage pid = .ok pool') : pool'.pidToPos = Function.update pool.pidToPos pid none := by
  unfold BufferPool.discardPage at ran
  split at ran
  · rename_i missing
    cases ran
    funext q
    by_cases same : q = pid
    · subst same; simp [missing]
    · simp [same]
  · simp only [bind, Except.bind, pure, Except.pure] at ran
    split at ran
    · cases ran; rfl
    · split at ran
      · cases ran; rfl
      · cases ran

namespace World

-- BufferPool::flushPage: the dirty mark goes before the write is tried.
def flushPage (pid : PageId) : EStateM Error World Unit := do
  let w ← get
  match w.pool.pidToPos pid with
  | none => pure ()
  | some pos =>
    if pos ∈ w.pool.dirty then
      setPool { w.pool with dirty := w.pool.dirty.erase pos }
      let _ ← getFile pid.file
      writePage pid.file pos pid.page

def flushPages : List PageId → EStateM Error World Unit
  | [] => pure ()
  | pid :: rest => do
    flushPage pid
    flushPages rest

def dirtyIds (pool : BufferPool) (keep : PageId → Bool) : List PageId :=
  pool.dirty.filterMap fun pos => if keep (pool.posToPid pos) then some (pool.posToPid pos) else none

-- BufferPool::flushFile
def flushFile (name : String) : EStateM Error World Unit := do
  flushPages (dirtyIds (← get).pool fun pid => pid.file == name)

-- BufferPool::~BufferPool
def destroy : EStateM Error World Unit := do
  flushPages (dirtyIds (← get).pool fun pid => !pid.file.isEmpty)

-- The eviction block of getPage, run when no frame is free.
def evict : EStateM Error World Unit := do
  let pool := (← get).pool
  match pool.lruList.getLast? with
  | none => throw (.undefined "lru_list.back() on an empty list")
  | some (_, pos) =>
    let old := pool.posToPid pos
    if !old.file.isEmpty then
      if pool.isDirty old then flushPage old
      poolStep (·.discardPage old)

-- The end of getPage's miss path: pop a frame from `available`, read, record.
def loadFrame (pid : PageId) : EStateM Error World Nat := do
  match (← get).pool.available with
  | [] => throw (.undefined "available.back() on an empty vector")
  | pos :: rest =>
    setPool { (← get).pool with available := rest }
    let _ ← getFile pid.file
    readPage pid.file pos pid.page
    setPool ((← get).pool.install pid pos)
    pure pos

-- BufferPool::getPage, returning the frame whose Page it hands out.
def getPage (pid : PageId) : EStateM Error World Nat := do
  let pool := (← get).pool
  match pool.pidToPos pid with
  | some pos =>
    poolStep (·.touch pos)
    pure pos
  | none =>
    if pool.available.isEmpty then evict
    loadFrame pid

-- A caller storing through the Page& that getPage returned, which may dangle.
def write (pid : PageId) (page : Page) : EStateM Error World Unit := do
  let pool := (← get).pool
  match pool.pidToPos pid with
  | some pos => setPool { pool with pages := Function.update pool.pages pos page }
  | none => throw (.undefined "write through the Page of an evicted page")

section Returns

theorem getFile_eq (name : String) (w : World) :
    getFile name w = match w.files name with
      | some file => .ok file w
      | none => .error (.outOfRange name) w := by
  cases h : w.files name <;> simp [getFile, h]

theorem readPage_eq (name : String) (pos id : Nat) (w : World) :
    readPage name pos id w = match w.faults (.read ⟨name, id⟩) with
      | some reason => .error (.runtime ("pread failed: " ++ reason)) (w.log (.read ⟨name, id⟩))
      | none => .ok () { w.log (.read ⟨name, id⟩) with
          pool := { w.pool with pages := Function.update w.pool.pages pos ((w.disk name).pages id) } } := by
  cases h : w.faults (.read ⟨name, id⟩) <;> simp [readPage, h, setPool]

theorem writePage_eq (name : String) (pos id : Nat) (w : World) :
    writePage name pos id w = match w.faults (.write ⟨name, id⟩) with
      | some reason => .error (.runtime ("pwrite failed: " ++ reason)) (w.log (.write ⟨name, id⟩))
      | none => .ok () { w.log (.write ⟨name, id⟩) with
          disk := Function.update w.disk name ((w.disk name).store id (w.pool.pages pos)) } := by
  cases h : w.faults (.write ⟨name, id⟩) <;> simp [writePage, h]

theorem poolStep_ok {step : BufferPool → Except Error BufferPool} {w w' : World} (ran : poolStep step w = .ok () w') :
    ∃ pool, step w.pool = .ok pool ∧ w' = { w with pool := pool } := by
  simp only [poolStep, run_bind, run_get] at ran
  cases h : step w.pool with
  | error e => simp [h] at ran
  | ok pool => simp only [h, setPool, run_modify] at ran; exact ⟨pool, rfl, (EStateM.Result.ok.inj ran).2.symm⟩

theorem flushPage_ok {pid : PageId} {w w' : World} (ran : flushPage pid w = .ok () w') :
    (w.pool.isDirty pid = false ∧ w' = w) ∨
    ∃ pos, w.pool.pidToPos pid = some pos ∧ pos ∈ w.pool.dirty ∧ (w.files pid.file).isSome ∧ w.faults (.write pid) = none ∧
      w' = { w.log (.write pid) with
        pool := { w.pool with dirty := w.pool.dirty.erase pos }
        disk := Function.update w.disk pid.file ((w.disk pid.file).store pid.page (w.pool.pages pos)) } := by
  simp only [flushPage, run_bind, run_get] at ran
  cases found : w.pool.pidToPos pid with
  | none =>
    simp only [found] at ran
    exact .inl ⟨by simp [BufferPool.isDirty, found], (EStateM.Result.ok.inj ran).2.symm⟩
  | some pos =>
    simp only [found] at ran
    by_cases dirty : pos ∈ w.pool.dirty
    · simp only [if_pos dirty, setPool, run_bind, run_modify, getFile_eq] at ran
      cases file : w.files pid.file with
      | none => simp [file] at ran
      | some f =>
        simp only [file, writePage_eq] at ran
        cases fault : w.faults (.write pid) with
        | some reason => simp [fault] at ran
        | none =>
          simp only [fault] at ran
          exact .inr ⟨pos, rfl, dirty, by simp [file], rfl, (EStateM.Result.ok.inj ran).2.symm⟩
    · simp only [if_neg dirty, run_pure] at ran
      exact .inl ⟨by simp [BufferPool.isDirty, found, dirty], (EStateM.Result.ok.inj ran).2.symm⟩

theorem evict_ok {w w' : World} (ran : evict w = .ok () w') :
    ∃ node pos, w.pool.lruList.getLast? = some (node, pos) ∧
      ((w.pool.posToPid pos).file.isEmpty ∧ w' = w ∨
        (w.pool.posToPid pos).file.isEmpty = false ∧ ∃ w'' pool,
          (if w.pool.isDirty (w.pool.posToPid pos) then flushPage (w.pool.posToPid pos) w = .ok () w'' else w'' = w) ∧
          w''.pool.discardPage (w.pool.posToPid pos) = .ok pool ∧ w' = { w'' with pool := pool }) := by
  simp only [evict, run_bind, run_get] at ran
  cases last : w.pool.lruList.getLast? with
  | none => simp [last] at ran
  | some entry =>
    obtain ⟨node, pos⟩ := entry
    simp only [last] at ran
    refine ⟨node, pos, rfl, ?_⟩
    cases empty : (w.pool.posToPid pos).file.isEmpty
    · simp only [empty, Bool.not_false, if_true] at ran
      refine .inr ⟨rfl, ?_⟩
      cases dirty : w.pool.isDirty (w.pool.posToPid pos)
      · simp only [dirty, if_false, Bool.false_eq_true, run_bind, run_pure] at ran
        obtain ⟨pool, stepped, rfl⟩ := poolStep_ok ran
        exact ⟨w, pool, rfl, stepped, rfl⟩
      · simp only [dirty, if_true, run_bind] at ran
        cases flushed : flushPage (w.pool.posToPid pos) w with
        | error e w'' => simp [flushed] at ran
        | ok u w'' =>
          simp only [flushed] at ran
          obtain ⟨pool, stepped, rfl⟩ := poolStep_ok ran
          exact ⟨w'', pool, rfl, stepped, rfl⟩
    · simp only [empty, Bool.not_true, Bool.false_eq_true, if_false, run_pure] at ran
      exact .inl ⟨rfl, (EStateM.Result.ok.inj ran).2.symm⟩

theorem loadFrame_ok {pid : PageId} {w w' : World} {pos : Nat} (ran : loadFrame pid w = .ok pos w') :
    ∃ rest, w.pool.available = pos :: rest ∧ (w.files pid.file).isSome ∧ w.faults (.read pid) = none ∧
      w' = { w.log (.read pid) with
        pool := ({ w.pool with
          available := rest
          pages := Function.update w.pool.pages pos ((w.disk pid.file).pages pid.page) }).install pid pos } := by
  simp only [loadFrame, run_bind, run_get] at ran
  cases avail : w.pool.available with
  | nil => simp [avail] at ran
  | cons pos' rest =>
    simp only [avail, setPool, run_bind, run_modify, run_get, getFile_eq] at ran
    cases file : w.files pid.file with
    | none => simp [file] at ran
    | some f =>
      simp only [file, readPage_eq] at ran
      cases fault : w.faults (.read pid) with
      | some reason => simp [fault] at ran
      | none =>
        simp only [fault, run_bind, run_get, run_modify, run_pure] at ran
        obtain ⟨rfl, rfl⟩ := EStateM.Result.ok.inj ran
        exact ⟨rest, rfl, rfl, rfl, rfl⟩

theorem getPage_ok {pid : PageId} {w w' : World} {pos : Nat} (ran : getPage pid w = .ok pos w') :
    (w.pool.pidToPos pid = some pos ∧ ∃ pool, w.pool.touch pos = .ok pool ∧ w' = { w with pool := pool }) ∨
    (w.pool.pidToPos pid = none ∧ ∃ w'', (if w.pool.available.isEmpty then evict w = .ok () w'' else w'' = w) ∧
      loadFrame pid w'' = .ok pos w') := by
  simp only [getPage, run_bind, run_get] at ran
  cases found : w.pool.pidToPos pid with
  | some pos' =>
    simp only [found, run_bind] at ran
    cases stepped : poolStep (·.touch pos') w with
    | error e w'' => simp [stepped] at ran
    | ok u w'' =>
      simp only [stepped, run_pure] at ran
      obtain ⟨rfl, rfl⟩ := EStateM.Result.ok.inj ran
      obtain ⟨pool, touched, rfl⟩ := poolStep_ok stepped
      exact .inl ⟨rfl, pool, touched, rfl⟩
  | none =>
    simp only [found] at ran
    refine .inr ⟨rfl, ?_⟩
    cases empty : w.pool.available.isEmpty
    · simp only [empty, if_false, Bool.false_eq_true, run_bind, run_pure] at ran
      exact ⟨w, rfl, ran⟩
    · simp only [empty, if_true, run_bind] at ran
      cases evicted : evict w with
      | error e w'' => simp [evicted] at ran
      | ok u w'' =>
        simp only [evicted] at ran
        exact ⟨w'', rfl, ran⟩

theorem write_ok {pid : PageId} {page : Page} {w w' : World} (ran : write pid page w = .ok () w') :
    ∃ pos, w.pool.pidToPos pid = some pos ∧
      w' = { w with pool := { w.pool with pages := Function.update w.pool.pages pos page } } := by
  simp only [write, run_bind, run_get] at ran
  cases found : w.pool.pidToPos pid with
  | none => simp [found] at ran
  | some pos =>
    simp only [found, setPool, run_modify] at ran
    exact ⟨pos, rfl, (EStateM.Result.ok.inj ran).2.symm⟩

theorem flushPage_pool {pid : PageId} {w w' : World} (ran : flushPage pid w = .ok () w') :
    w'.pool = { w.pool with dirty := w'.pool.dirty } := by
  rcases flushPage_ok ran with ⟨-, rfl⟩ | ⟨pos, -, -, -, -, rfl⟩ <;> rfl

theorem flushPage_trace {pid : PageId} {w w' : World} (ran : flushPage pid w = .ok () w') :
    w'.trace = w.trace ++ if w.pool.isDirty pid then [.write pid] else [] := by
  rcases flushPage_ok ran with ⟨clean, rfl⟩ | ⟨pos, found, dirty, -, -, rfl⟩
  · simp [clean]
  · simp [BufferPool.isDirty, found, dirty]

theorem evict_pidToPos {w w' : World} (ran : evict w = .ok () w') {pid : PageId}
    (missing : w.pool.pidToPos pid = none) : w'.pool.pidToPos pid = none := by
  obtain ⟨node, pos, -, (⟨-, rfl⟩ | ⟨-, w'', pool, flushed, discarded, rfl⟩)⟩ := evict_ok ran
  · exact missing
  · have same : w''.pool.pidToPos = w.pool.pidToPos := by
      split at flushed
      · rcases flushPage_ok flushed with ⟨-, rfl⟩ | ⟨_, -, -, -, -, rfl⟩ <;> rfl
      · rw [flushed]
    show pool.pidToPos pid = none
    rw [BufferPool.discardPage_pidToPos discarded, Function.update_apply, same]
    split <;> simp [missing]

end Returns

end World

inductive Op where
  | getPage (pid : PageId)
  | write (pid : PageId) (page : Page)
  | markDirty (pid : PageId)
  | isDirty (pid : PageId)
  | contains (pid : PageId)
  | discardPage (pid : PageId)
  | flushPage (pid : PageId)
  | flushFile (name : String)

def Op.exec : Op → EStateM Error World Unit
  | .getPage pid => do let _ ← World.getPage pid
  | .write pid page => World.write pid page
  | .markDirty pid => modify fun w => { w with pool := w.pool.markDirty pid }
  | .isDirty _ | .contains _ => pure ()
  | .discardPage pid => World.poolStep (·.discardPage pid)
  | .flushPage pid => World.flushPage pid
  | .flushFile name => World.flushFile name

def runOps : List Op → EStateM Error World Unit
  | [] => pure ()
  | op :: ops => do
    op.exec
    runOps ops

end PagedDb
