import PagedDb.HeapPage
import PagedDb.BufferPool

namespace PagedDb

structure Iterator where
  page : Nat
  slot : Nat
  deriving DecidableEq, Repr

namespace World

-- The numPages member of the HeapFile the Database registers under `name`.
def numPages (w : World) (name : String) : Nat := ((w.files name).map DbFile.numPages).getD 0

def setNumPages (name : String) (n : Nat) : EStateM Error World Unit :=
  modify fun w => { w with files := Function.update w.files name ((w.files name).map fun f => { f with numPages := n }) }

def markDirty (pid : PageId) : EStateM Error World Unit := modify fun w => { w with pool := w.pool.markDirty pid }

-- A HeapPage call on frame `pos` through getPage's Page&; what it stored stays when it throws.
def onFrame {ε α : Type} (pos : Nat) (wrap : ε → Error) (step : EStateM ε Page α) : EStateM Error World α := do
  let w ← get
  match step (w.pool.pages pos) with
  | .ok a page =>
    setPool { w.pool with pages := Function.update w.pool.pages pos page }
    pure a
  | .error e page =>
    setPool { w.pool with pages := Function.update w.pool.pages pos page }
    throw (wrap e)

section HeapFile
variable {c : Nat} (td : TupleDesc c) (name : String)

-- HeapFile::insertTuple on one page: getPage, HeapPage::insertTuple, markDirty if it took it.
def insertOn (pid : PageId) (t : Tuple) : EStateM Error World Bool := do
  let pos ← getPage pid
  let placed ← onFrame pos .logic (HeapPage.insertTuple td t)
  if placed then markDirty pid
  pure placed

-- HeapFile::insertTuple: the last page first, else a new page at the end.
def heapInsert (t : Tuple) : EStateM Error World Unit := do
  if !td.compatible t then throw (.logic "HeapFile::insertTuple: tuple not compatible with schema")
  let n := (← get).numPages name
  let placed ← if n > 0 then insertOn td ⟨name, n - 1⟩ t else pure false
  if placed then pure ()
  else if ← insertOn td ⟨name, n⟩ t then setNumPages name (n + 1)
  else throw (.runtime "HeapFile::insertTuple: failed to insert into empty page")

-- HeapFile::deleteTuple
def heapDelete (it : Iterator) : EStateM Error World Unit := do
  if it.page ≥ (← get).numPages name then throw (.outOfRange "HeapFile::deleteTuple: page out of range")
  let pos ← getPage ⟨name, it.page⟩
  onFrame pos id (HeapPage.deleteTuple td it.slot)
  markDirty ⟨name, it.page⟩

-- HeapFile::getTuple
def heapGetTuple (it : Iterator) : EStateM Error World Tuple := do
  if it.page ≥ (← get).numPages name then throw (.outOfRange "HeapFile::getTuple: page out of range")
  let pos ← getPage ⟨name, it.page⟩
  match HeapPage.getTuple td ((← get).pool.pages pos) it.slot with
  | .ok t => pure t
  | .error e => throw e

-- The `for (p = from; p < numPages; ++p)` loops of begin and next.
def firstFrom (n p : Nat) : Nat → EStateM Error World Iterator
  | 0 => pure ⟨n, 0⟩
  | left + 1 => do
    let pos ← getPage ⟨name, p⟩
    let b := HeapPage.begin td ((← get).pool.pages pos)
    if b ≠ heapCapacity td.length then pure ⟨p, b⟩ else firstFrom n (p + 1) left

-- HeapFile::next, returning the iterator it stores.
def heapNext (it : Iterator) : EStateM Error World Iterator := do
  let n := (← get).numPages name
  if it.page ≥ n then pure ⟨n, 0⟩
  else
    let pos ← getPage ⟨name, it.page⟩
    let s := HeapPage.next td ((← get).pool.pages pos) it.slot
    if s ≠ heapCapacity td.length then pure ⟨it.page, s⟩
    else firstFrom td name n (it.page + 1) (n - (it.page + 1))

-- HeapFile::begin and HeapFile::end
def heapBegin : EStateM Error World Iterator := do
  let n := (← get).numPages name
  firstFrom td name n 0 n

def heapEnd : EStateM Error World Iterator := do
  pure ⟨(← get).numPages name, 0⟩

-- The scans of Query.cpp, collecting `*it`; `fuel` bounds the rounds.
def collect (it : Iterator) : Nat → EStateM Error World (List Tuple)
  | 0 => throw (.undefined "the scan did not reach end()")
  | fuel + 1 => do
    if it = (← heapEnd name) then pure []
    else
      let t ← heapGetTuple td name it
      let it' ← heapNext td name it
      pure (t :: (← collect it' fuel))

def heapScan (fuel : Nat) : EStateM Error World (List Tuple) := do
  collect td name (← heapBegin td name) fuel

end HeapFile

-- DbFile::DbFile: the page count from the size of the file.
def openFile (w : World) (name : String) : DbFile := ⟨(w.disk name).size / defaultPageSize, [], []⟩

-- Database::remove: the entry leaves the registry before its pages are flushed.
def remove (name : String) : EStateM Error World Unit := do
  match (← get).files name with
  | none => throw (.logic "File does not exist")
  | some _ =>
    modify fun w => { w with files := Function.update w.files name none }
    flushFile name

-- Database::add
def add (name : String) (file : DbFile) : EStateM Error World Unit := do
  if ((← get).files name).isSome then remove name
  modify fun w => { w with files := Function.update w.files name (some file) }

-- `getDatabase().add(std::make_unique<HeapFile>(name, td))` over an existing name.
def reopen (name : String) : EStateM Error World Unit := do
  add name ((← get).openFile name)

end World

end PagedDb
