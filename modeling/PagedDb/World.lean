import PagedDb.Basic

namespace PagedDb

-- PageId of types.hpp; `PageId{}` is the empty name and page 0.
structure PageId where
  file : String := ""
  page : Nat := 0
  deriving DecidableEq, Repr

-- A file on disk, page by page; pread past its end fills with zeros.
structure DiskFile where
  pages : Nat → Page
  size : Nat
  zeroPast : ∀ id, size ≤ id * defaultPageSize → pages id = zeroPage

def DiskFile.store (file : DiskFile) (id : Nat) (page : Page) : DiskFile where
  pages := Function.update file.pages id page
  size := max file.size ((id + 1) * defaultPageSize)
  zeroPast := fun id' past => by
    have later : id < id' := Nat.lt_of_mul_lt_mul_right
      (Nat.lt_of_lt_of_le (by rw [Nat.succ_mul]; unfold defaultPageSize; omega) (le_of_max_le_right past))
    rw [Function.update_noteq (Nat.ne_of_gt later)]
    exact file.zeroPast id' (le_of_max_le_left past)

-- The DbFile the registry holds for a name: its page count and its I/O logs.
structure DbFile where
  numPages : Nat
  reads : List Nat
  writes : List Nat

inductive IoEvent where
  | read (pid : PageId)
  | write (pid : PageId)
  deriving DecidableEq, Repr

-- How a call ends when it does not return: an exception, or undefined behaviour.
inductive Error where
  | logic (msg : String)
  | outOfRange (key : String)
  | runtime (msg : String)
  | undefined (what : String)
  deriving DecidableEq, Repr

-- BufferPool's members. `lruList` holds (node, frame) pairs, most recent first, and
-- `available` is the vector with its back first.
structure BufferPool where
  pages : Nat → Page
  pidToPos : PageId → Option Nat
  posToPid : Nat → PageId
  lruList : List (Nat × Nat)
  posToLru : Nat → Option Nat
  dirty : List Nat
  available : List Nat
  nextNode : Nat

namespace BufferPool

-- BufferPool::BufferPool: the reversed iota leaves frame 0 at the back.
def init (N : Nat) : BufferPool where
  pages := fun _ => zeroPage
  pidToPos := fun _ => none
  posToPid := fun _ => {}
  lruList := []
  posToLru := fun _ => none
  dirty := []
  available := List.range N
  nextNode := 0

def contains (pool : BufferPool) (pid : PageId) : Bool := (pool.pidToPos pid).isSome

def isDirty (pool : BufferPool) (pid : PageId) : Bool :=
  match pool.pidToPos pid with
  | some pos => pool.dirty.contains pos
  | none => false

def markDirty (pool : BufferPool) (pid : PageId) : BufferPool :=
  match pool.pidToPos pid with
  | some pos => { pool with dirty := pool.dirty.insert pos }
  | none => pool

def unlink (lru : List (Nat × Nat)) (node : Nat) : Option ((Nat × Nat) × List (Nat × Nat)) :=
  (lru.find? fun entry => entry.1 == node).map fun entry => (entry, lru.erase entry)

-- The hit path of getPage: `lru_list.splice(lru_list.begin(), lru_list, lit->second)`.
def touch (pool : BufferPool) (pos : Nat) : Except Error BufferPool :=
  match pool.posToLru pos with
  | none => pure pool
  | some node =>
    match unlink pool.lruList node with
    | some (entry, rest) => pure { pool with lruList := entry :: rest }
    | none => throw (.undefined "splice of a dangling lru_list iterator")

def discardPage (pool : BufferPool) (pid : PageId) : Except Error BufferPool :=
  match pool.pidToPos pid with
  | none => pure pool
  | some pos => do
    let pool := { pool with
      pidToPos := Function.update pool.pidToPos pid none
      posToPid := Function.update pool.posToPid pos {} }
    let pool ← match pool.posToLru pos with
      | none => pure pool
      | some node =>
        match unlink pool.lruList node with
        | some (_, rest) => pure { pool with lruList := rest, posToLru := Function.update pool.posToLru pos none }
        | none => throw (.undefined "erase of a dangling lru_list iterator")
    pure { pool with dirty := pool.dirty.erase pos, available := pos :: pool.available }

-- The end of getPage's miss path.
def install (pool : BufferPool) (pid : PageId) (pos : Nat) : BufferPool :=
  { pool with
    pidToPos := Function.update pool.pidToPos pid (some pos)
    posToPid := Function.update pool.posToPid pos pid
    lruList := (pool.nextNode, pos) :: pool.lruList
    posToLru := Function.update pool.posToLru pos (some pool.nextNode)
    nextNode := pool.nextNode + 1 }

end BufferPool

-- The process: the Database singleton's pool and registry, the disk, the failing
-- preads and pwrites, and the log of DbFile I/O calls.
structure World where
  pool : BufferPool
  files : String → Option DbFile
  disk : String → DiskFile
  faults : IoEvent → Option String
  trace : List IoEvent

namespace World

def setPool (pool : BufferPool) : EStateM Error World Unit := modify fun w => { w with pool := pool }

def poolStep (step : BufferPool → Except Error BufferPool) : EStateM Error World Unit := do
  match step (← get).pool with
  | .ok pool => setPool pool
  | .error e => throw e

-- Database::get: `files.at(name)`.
def getFile (name : String) : EStateM Error World DbFile := do
  match (← get).files name with
  | some file => pure file
  | none => throw (.outOfRange name)

-- The `reads`/`writes` logs that readPage and writePage append to first.
def log (w : World) : IoEvent → World
  | .read pid => { w with
      files := Function.update w.files pid.file ((w.files pid.file).map fun f => { f with reads := f.reads ++ [pid.page] })
      trace := w.trace ++ [.read pid] }
  | .write pid => { w with
      files := Function.update w.files pid.file ((w.files pid.file).map fun f => { f with writes := f.writes ++ [pid.page] })
      trace := w.trace ++ [.write pid] }

-- DbFile::readPage of page `id` of `name` into frame `pos`.
def readPage (name : String) (pos id : Nat) : EStateM Error World Unit := do
  modify (·.log (.read ⟨name, id⟩))
  let w ← get
  match w.faults (.read ⟨name, id⟩) with
  | some reason => throw (.runtime ("pread failed: " ++ reason))
  | none => setPool { w.pool with pages := Function.update w.pool.pages pos ((w.disk name).pages id) }

-- DbFile::writePage of frame `pos` as page `id` of `name`.
def writePage (name : String) (pos id : Nat) : EStateM Error World Unit := do
  modify (·.log (.write ⟨name, id⟩))
  let w ← get
  match w.faults (.write ⟨name, id⟩) with
  | some reason => throw (.runtime ("pwrite failed: " ++ reason))
  | none => set { w with disk := Function.update w.disk name ((w.disk name).store id (w.pool.pages pos)) }

def boot (N : Nat) (names : List String) : World where
  pool := BufferPool.init N
  files := fun name => if name ∈ names then some ⟨0, [], []⟩ else none
  disk := fun _ => ⟨fun _ => zeroPage, 0, fun _ _ => rfl⟩
  faults := fun _ => none
  trace := []

@[simp] theorem log_pool (w : World) (e : IoEvent) : (w.log e).pool = w.pool := by cases e <;> rfl
@[simp] theorem log_disk (w : World) (e : IoEvent) : (w.log e).disk = w.disk := by cases e <;> rfl
@[simp] theorem log_faults (w : World) (e : IoEvent) : (w.log e).faults = w.faults := by cases e <;> rfl
@[simp] theorem log_trace (w : World) (e : IoEvent) : (w.log e).trace = w.trace ++ [e] := by cases e <;> rfl

end World

end PagedDb
