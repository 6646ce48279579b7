import PagedDb.HeapRun

namespace PagedDb

inductive HeapCall where
  | insert (t : Tuple)
  | delete (it : Iterator)
  | pool (op : Op)

-- The pool calls beside a HeapFile: any but a store into, or a discard of, its pages.
def Op.Beside (name : String) : Op → Prop
  | .write pid _ | .discardPage pid => pid.file ≠ name
  | _ => True

-- A client of the HeapFile over `name`, each store followed at once by markDirty.
inductive HeapClient (name : String) : List HeapCall → Prop
  | nil : HeapClient name []
  | insert (t : Tuple) (calls : List HeapCall) : HeapClient name calls → HeapClient name (.insert t :: calls)
  | delete (it : Iterator) (calls : List HeapCall) : HeapClient name calls → HeapClient name (.delete it :: calls)
  | call (op : Op) (calls : List HeapCall) (beside : op.Beside name) (notWrite : ∀ pid page, op ≠ .write pid page) :
      HeapClient name calls → HeapClient name (.pool op :: calls)
  | update (pid : PageId) (page : Page) (calls : List HeapCall) (other : pid.file ≠ name) :
      HeapClient name calls → HeapClient name (.pool (.write pid page) :: .pool (.markDirty pid) :: calls)

section Client
variable {c : Nat} (td : TupleDesc c) (name : String)

def HeapCall.exec : HeapCall → EStateM Error World Unit
  | .insert t => World.heapInsert td name t
  | .delete it => World.heapDelete td name it
  | .pool op => op.exec

def runHeap : List HeapCall → EStateM Error World Unit
  | [] => pure ()
  | call :: calls => do
    call.exec td name
    runHeap calls

-- The multiset of records after a call: an insert adds its round trip, a delete
-- takes out what its slot held.
def HeapCall.expect (w : World) (m : Multiset Tuple) : HeapCall → Multiset Tuple
  | .insert t => roundTrip td t ::ₘ m
  | .delete it => m.erase (HeapPage.read td (w.view ⟨name, it.page⟩) it.slot)
  | .pool _ => m

def expectedAfter : World → Multiset Tuple → List HeapCall → Multiset Tuple
  | _, m, [] => m
  | w, m, call :: calls =>
    match call.exec td name w with
    | .ok _ w' => expectedAfter w' (call.expect td name w m) calls
    | .error _ _ => m

def insertedTuples : List HeapCall → List Tuple
  | [] => []
  | .insert t :: calls => roundTrip td t :: insertedTuples calls
  | _ :: calls => insertedTuples calls

-- What a run of the client keeps: a healthy process, the file registered and aligned,
-- its pages past its count empty, and its records the expected multiset.
structure HeapInv (N : Nat) (w : World) (latest : PageId → Page) (expected : Multiset Tuple) : Prop where
  healthy : Healthy N w latest
  file : (w.files name).isSome
  aligned : w.Aligned name
  beyond : ∀ p, w.numPages name ≤ p → latest ⟨name, p⟩ = zeroPage
  holds : (HeapFile.records td (World.pagesOf latest name) (w.numPages name) : Multiset Tuple) = expected

-- Without deletes the file's records are the inserted ones in order.
structure InOrder (pages : Nat → Page) (n : Nat) (expected : List Tuple) : Prop where
  packed : ∀ p, ∃ k, k ≤ heapCapacity td.length ∧ HeapPage.slots td (pages p) = List.range k
  exact : HeapFile.records td pages n = expected

end Client

theorem InOrder.empty {c : Nat} {td : TupleDesc c} {pages : Nat → Page} (zero : ∀ p, pages p = zeroPage) :
    InOrder td pages 0 [] :=
  ⟨fun p => ⟨0, Nat.zero_le _, by rw [zero p, HeapPage.slots_zeroPage]; rfl⟩, rfl⟩

theorem World.pagesOf_latestStep (w : World) (latest : PageId → Page) {name : String} {op : Op}
    (beside : op.Beside name) : pagesOf (latestStep w latest op) name = pagesOf latest name := by
  cases op with
  | write pid page => exact pagesOf_update_other latest beside page
  | discardPage pid => exact pagesOf_update_other latest beside _
  | _ => rfl

namespace Healthy
variable {N : Nat} {w w₁ w' : World} {latest : PageId → Page}

theorem exec (healthy : Healthy N w latest) {op : Op} (notWrite : ∀ pid page, op ≠ .write pid page)
    (ran : op.exec w = .ok () w') : Healthy N w' (latestStep w latest op) ∧ World.Frame w w' := by
  have frame := World.exec_frame ran
  exact ⟨⟨World.exec_accounting healthy.acc ran, healthy.coh.exec_coherent healthy.acc notWrite ran, healthy.frames,
    by rw [frame.faults]; exact healthy.sound⟩, frame⟩

theorem update (healthy : Healthy N w latest) {pid : PageId} {page : Page}
    (wrote : (Op.write pid page).exec w = .ok () w₁) (marked : (Op.markDirty pid).exec w₁ = .ok () w') :
    Healthy N w' (Function.update latest pid page) ∧ World.Frame w w' := by
  have frame := (World.exec_frame wrote).trans (World.exec_frame marked)
  exact ⟨⟨World.exec_accounting (World.exec_accounting healthy.acc wrote) marked,
    healthy.coh.update_coherent healthy.acc wrote marked, healthy.frames, by rw [frame.faults]; exact healthy.sound⟩,
    frame⟩

theorem flushPages (healthy : Healthy N w latest) (pids : List PageId) :
    ∃ w', World.flushPages pids w = .ok () w' ∧ Healthy N w' latest ∧ World.Frame w w' := by
  induction pids generalizing w with
  | nil => exact ⟨w, rfl, healthy, .refl w⟩
  | cons pid rest ih =>
    obtain ⟨w₁, flushed⟩ := World.flushPage_returns healthy.sound (healthy.coh.registered pid)
    obtain ⟨healthy₁, frame₁⟩ :=
      healthy.exec (fun _ _ same => by cases same) (show (Op.flushPage pid).exec w = .ok () w₁ from flushed)
    obtain ⟨w', ran, healthy', frame'⟩ := ih healthy₁
    exact ⟨w', by simp only [World.flushPages, run_bind, flushed, ran], healthy', frame₁.trans frame'⟩

theorem flushFile (healthy : Healthy N w latest) (name : String) :
    ∃ w', World.flushFile name w = .ok () w' ∧ Healthy N w' latest ∧ World.Frame w w' := by
  obtain ⟨w', ran, rest⟩ := healthy.flushPages (World.dirtyIds w.pool fun pid => pid.file == name)
  exact ⟨w', by simp only [World.flushFile, run_bind, run_get, ran], rest⟩

end Healthy

namespace HeapInv
variable {N c : Nat} {td : TupleDesc c} {name : String} {w w₁ w' : World} {latest : PageId → Page}
  {m : Multiset Tuple}

theorem init (constructed : w.pool = BufferPool.init N) (frames : 0 < N) (unnamed : w.files "" = none)
    (sound : ∀ e, w.faults e = none) (fresh : w.pageCounts name = some 0) (empty : (w.disk name).size = 0) :
    HeapInv td name N w w.stored 0 where
  healthy := ⟨constructed ▸ init_accounting N, Coherent.init constructed unnamed, frames, sound⟩
  file := by simpa [World.pageCounts] using congrArg Option.isSome fresh
  aligned := by rw [World.Aligned, empty]; rfl
  beyond p _ := (w.disk name).zeroPast p (by rw [empty]; exact Nat.zero_le _)
  holds := by rw [World.numPages_eq, fresh]; rfl

theorem framed (inv : HeapInv td name N w latest m) {latest' : PageId → Page} (healthy : Healthy N w' latest')
    (frame : World.Frame w w') (same : World.pagesOf latest' name = World.pagesOf latest name) :
    HeapInv td name N w' latest' m := by
  have count := frame.numPages name
  exact ⟨healthy, by rw [frame.isSome]; exact inv.file, frame.aligned name inv.aligned,
    fun p past => (congrFun same p).trans (inv.beyond p (by omega)), by rw [same, count]; exact inv.holds⟩

theorem pool (inv : HeapInv td name N w latest m) {op : Op} (beside : op.Beside name)
    (notWrite : ∀ pid page, op ≠ .write pid page) (ran : op.exec w = .ok () w') :
    HeapInv td name N w' (latestStep w latest op) m ∧
      World.pagesOf (latestStep w latest op) name = World.pagesOf latest name ∧ w'.numPages name = w.numPages name := by
  obtain ⟨healthy, frame⟩ := inv.healthy.exec notWrite ran
  have same := World.pagesOf_latestStep w latest beside
  exact ⟨inv.framed healthy frame same, same, frame.numPages name⟩

theorem update (inv : HeapInv td name N w latest m) {pid : PageId} {page : Page} (other : pid.file ≠ name)
    (wrote : (Op.write pid page).exec w = .ok () w₁) (marked : (Op.markDirty pid).exec w₁ = .ok () w') :
    HeapInv td name N w' (Function.update latest pid page) m ∧
      World.pagesOf (Function.update latest pid page) name = World.pagesOf latest name ∧
      w'.numPages name = w.numPages name := by
  obtain ⟨healthy, frame⟩ := inv.healthy.update wrote marked
  have same := World.pagesOf_update_other latest other page
  exact ⟨inv.framed healthy frame same, same, frame.numPages name⟩

theorem placed (inv : HeapInv td name N w latest m) {t : Tuple} (compatible : td.compatible t) {q : Nat}
    {page' : Page} (inserted : HeapPage.insertTuple td t (latest ⟨name, q⟩) = .ok true page')
    (grows : w.numPages name ≤ q + 1)
    (same : HeapFile.records td (World.pagesOf latest name) (q + 1) =
      HeapFile.records td (World.pagesOf latest name) (w.numPages name))
    (healthy : Healthy N w' (Function.update latest ⟨name, q⟩ page')) (file : (w'.files name).isSome)
    (aligned : w'.Aligned name) (count : w'.numPages name = q + 1) :
    HeapInv td name N w' (Function.update latest ⟨name, q⟩ page') (roundTrip td t ::ₘ m) ∧
      ∀ l, InOrder td (World.pagesOf latest name) (w.numPages name) l →
        InOrder td (World.pagesOf (Function.update latest ⟨name, q⟩ page') name) (w'.numPages name)
          (l ++ [roundTrip td t]) := by
  have after : HeapFile.records td (World.pagesOf (Function.update latest ⟨name, q⟩ page') name) (w'.numPages name) =
      HeapFile.records td (World.pagesOf latest name) q ++ HeapPage.tuples td page' := by
    rw [count, World.pagesOf_update, HeapFile.records_update_last]
  have before : HeapFile.records td (World.pagesOf latest name) (w.numPages name) =
      HeapFile.records td (World.pagesOf latest name) q ++ HeapPage.tuples td (World.pagesOf latest name q) := by
    rw [← same, HeapFile.records_succ]
  rw [roundTrip_eq compatible]
  refine ⟨⟨healthy, file, aligned, fun p past => ?_, ?_⟩, fun l order => ⟨fun p => ?_, ?_⟩⟩
  · rw [Function.update_noteq (by simp; omega)]; exact inv.beyond p (by omega)
  · rw [after, ← inv.holds, before, Multiset.cons_coe, Multiset.coe_eq_coe]
    exact ((HeapPage.insertTuple_perm compatible inserted).append_left _).trans
      (by rw [← List.append_assoc]; exact List.perm_append_singleton _ _)
  · by_cases here : p = q
    · subst here
      obtain ⟨k, bound, packed⟩ := order.packed p
      obtain ⟨room, grown, -⟩ := HeapPage.insertTuple_packed compatible packed bound inserted
      exact ⟨k + 1, room, by simpa [World.pagesOf] using grown⟩
    · simpa [World.pagesOf, here] using order.packed p
  · obtain ⟨k, bound, packed⟩ := order.packed q
    obtain ⟨-, -, grown⟩ := HeapPage.insertTuple_packed compatible packed bound inserted
    rw [after, ← order.exact, before, grown, List.append_assoc]

theorem insert (inv : HeapInv td name N w latest m) {t : Tuple} (ran : World.heapInsert td name t w = .ok () w') :
    ∃ latest', HeapInv td name N w' latest' (roundTrip td t ::ₘ m) ∧
      ∀ l, InOrder td (World.pagesOf latest name) (w.numPages name) l →
        InOrder td (World.pagesOf latest' name) (w'.numPages name) (l ++ [roundTrip td t]) := by
  obtain ⟨compatible, file, aligned, ⟨nonempty, -, count, page', inserted, healthy⟩ | ⟨-, count, page', inserted, healthy⟩⟩ :=
    World.heapInsert_ok td inv.healthy inv.file (inv.beyond _ le_rfl) ran
  · obtain ⟨q, split⟩ : ∃ q, w.numPages name = q + 1 := ⟨w.numPages name - 1, by omega⟩
    rw [split, Nat.add_sub_cancel] at inserted healthy
    exact ⟨_, inv.placed compatible inserted (by omega) (by rw [split]) healthy file (aligned name inv.aligned)
      (by omega)⟩
  · rw [← inv.beyond _ le_rfl] at inserted
    exact ⟨_, inv.placed compatible inserted (by omega)
      (by rw [HeapFile.records_succ, World.pagesOf, inv.beyond _ le_rfl, HeapPage.tuples_zeroPage, List.append_nil])
      healthy file (aligned name inv.aligned) count⟩

theorem delete (inv : HeapInv td name N w latest m) {it : Iterator} (ran : World.heapDelete td name it w = .ok () w') :
    ∃ latest', HeapInv td name N w' latest' (m.erase (HeapPage.read td (w.view ⟨name, it.page⟩) it.slot)) := by
  obtain ⟨inside, -, frame, page', deleted, healthy⟩ := World.heapDelete_ok td inv.healthy ran
  have moved := HeapFile.records_delete (World.pagesOf latest name) inside (HeapPage.deleteTuple_perm deleted).2
  rw [← Multiset.coe_eq_coe, ← Multiset.cons_coe] at moved
  have count := frame.numPages name
  refine ⟨_, healthy, by rw [frame.isSome]; exact inv.file, frame.aligned name inv.aligned, fun p past => ?_, ?_⟩
  · rw [Function.update_noteq (by simp; omega)]; exact inv.beyond p (by omega)
  · rw [inv.healthy.coh.view_eq, ← inv.holds, count, World.pagesOf_update, ← moved, Multiset.erase_cons_head]

end HeapInv

section Run
variable {N c : Nat} (td : TupleDesc c) (name : String)

theorem runHeap_inv {calls : List HeapCall} (client : HeapClient name calls) {w w' : World} {latest : PageId → Page}
    {m : Multiset Tuple} (inv : HeapInv td name N w latest m) (ran : runHeap td name calls w = .ok () w') :
    ∃ latest', HeapInv td name N w' latest' (expectedAfter td name w m calls) ∧
      ((∀ it, HeapCall.delete it ∉ calls) → ∀ l, InOrder td (World.pagesOf latest name) (w.numPages name) l →
        InOrder td (World.pagesOf latest' name) (w'.numPages name) (l ++ insertedTuples td calls)) := by
  induction client generalizing w latest m with
  | nil =>
    cases ran
    exact ⟨latest, inv, fun _ l order => by simpa [insertedTuples] using order⟩
  | insert t calls _ ih =>
    obtain ⟨_, w₁, stepped, ran⟩ := bind_ok ran
    obtain ⟨latest₁, inv₁, order₁⟩ := inv.insert stepped
    obtain ⟨latest', inv', order'⟩ := ih inv₁ ran
    refine ⟨latest', by simpa only [expectedAfter, stepped] using inv', fun none l order => ?_⟩
    simpa [insertedTuples] using order' (fun it mem => none it (List.mem_cons_of_mem _ mem)) _ (order₁ l order)
  | delete it calls _ ih =>
    obtain ⟨_, w₁, stepped, ran⟩ := bind_ok ran
    obtain ⟨latest₁, inv₁⟩ := inv.delete stepped
    obtain ⟨latest', inv', -⟩ := ih inv₁ ran
    exact ⟨latest', by simpa only [expectedAfter, stepped] using inv', fun none => absurd (List.mem_cons_self _ _) (none it)⟩
  | call op calls beside notWrite _ ih =>
    obtain ⟨_, w₁, stepped, ran⟩ := bind_ok ran
    obtain ⟨inv₁, same, count⟩ := inv.pool beside notWrite stepped
    obtain ⟨latest', inv', order'⟩ := ih inv₁ ran
    refine ⟨latest', by simpa only [expectedAfter, stepped] using inv', fun none l order => ?_⟩
    simpa [insertedTuples] using order' (fun it mem => none it (List.mem_cons_of_mem _ mem)) l (by rwa [same, count])
  | update pid page calls other _ ih =>
    obtain ⟨_, w₁, wrote, ran⟩ := bind_ok ran
    obtain ⟨_, w₂, marked, ran⟩ := bind_ok ran
    obtain ⟨inv₂, same, count⟩ := inv.update other wrote marked
    obtain ⟨latest', inv', order'⟩ := ih inv₂ ran
    refine ⟨latest', by simpa only [expectedAfter, wrote, marked] using inv', fun none l order => ?_⟩
    simpa [insertedTuples] using
      order' (fun it mem => none it (List.mem_cons_of_mem _ (List.mem_cons_of_mem _ mem))) l (by rwa [same, count])

end Run

namespace World
variable {w : World} {name : String}

theorem reopen_flushed (file : (w.files name).isSome)
    (clean : ∀ pos ∈ w.pool.dirty, (w.pool.posToPid pos).file ≠ name) :
    reopen name w = .ok () { w with files := Function.update w.files name (some (w.openFile name)) } := by
  obtain ⟨f, found⟩ := Option.isSome_iff_exists.mp file
  have none : dirtyIds w.pool (fun pid => pid.file == name) = [] :=
    List.filterMap_eq_nil_iff.mpr fun pos dirty => by simp [clean pos dirty]
  simp [reopen, add, remove, found, flushFile, none, flushPages, Function.update_idem]

theorem filterMap_head {α β : Type} {f : α → Option β} {l : List α} (kept : ∃ a ∈ l, (f a).isSome) :
    ∃ a ∈ l, ∃ b rest, f a = some b ∧ l.filterMap f = b :: rest := by
  induction l with
  | nil => obtain ⟨_, member, _⟩ := kept; cases member
  | cons x xs ih =>
    cases fx : f x with
    | some b => exact ⟨x, List.mem_cons_self x xs, b, xs.filterMap f, fx, by simp [List.filterMap_cons, fx]⟩
    | none =>
      obtain ⟨a, member, b, rest, fa, filtered⟩ := ih <| by
        obtain ⟨a, member, some⟩ := kept
        rcases List.mem_cons.mp member with rfl | later
        · simp [fx] at some
        · exact ⟨a, later, some⟩
      exact ⟨a, List.mem_cons_of_mem x member, b, rest, fa, by simp [List.filterMap_cons, fx, filtered]⟩

-- Database::remove unregisters before it flushes: with a dirty frame of the file left,
-- the write's Database::get throws and nothing reaches the disk.
theorem remove_unflushed_throws {N : Nat} (acc : Accounting N w.pool) (file : (w.files name).isSome)
    (unflushed : ∃ pos ∈ w.pool.dirty, (w.pool.posToPid pos).file = name) :
    ∃ pos ∈ w.pool.dirty, (w.pool.posToPid pos).file = name ∧
      remove name w = .error (.outOfRange name)
        { w with files := Function.update w.files name none, pool := { w.pool with dirty := w.pool.dirty.erase pos } } ∧
      ∀ f, add name f w = .error (.outOfRange name)
        { w with files := Function.update w.files name none, pool := { w.pool with dirty := w.pool.dirty.erase pos } } := by
  obtain ⟨f, found⟩ := Option.isSome_iff_exists.mp file
  obtain ⟨pos, dirty, pid, rest, kept, ids⟩ : ∃ pos ∈ w.pool.dirty, ∃ pid rest,
      (if (w.pool.posToPid pos).file == name then some (w.pool.posToPid pos) else none) = some pid ∧
        dirtyIds w.pool (fun pid => pid.file == name) = pid :: rest := by
    obtain ⟨pos, dirty, mine⟩ := unflushed
    exact filterMap_head ⟨pos, dirty, by simp [mine]⟩
  obtain ⟨mine, rfl⟩ : (w.pool.posToPid pos).file = name ∧ w.pool.posToPid pos = pid := by simpa using kept
  have removed : remove name w = .error (.outOfRange name)
      { w with files := Function.update w.files name none, pool := { w.pool with dirty := w.pool.dirty.erase pos } } := by
    simp [remove, found, flushFile, ids, flushPages, flushPage, acc.pidToPos_of_dirty dirty, dirty, getFile, mine,
      setPool]
  exact ⟨pos, dirty, mine, removed, fun f => by simp [add, found, removed]⟩

theorem remove_marked_page :
    ∃ w, runOps [.getPage ⟨"t", 0⟩, .markDirty ⟨"t", 0⟩] (boot 3 ["t"]) = .ok () w ∧
      ∃ pos ∈ w.pool.dirty, (w.pool.posToPid pos).file = "t" ∧
        remove "t" w = .error (.outOfRange "t")
          { w with files := Function.update w.files "t" none, pool := { w.pool with dirty := w.pool.dirty.erase pos } } ∧
        ∀ f, add "t" f w = .error (.outOfRange "t")
          { w with files := Function.update w.files "t" none, pool := { w.pool with dirty := w.pool.dirty.erase pos } } := by
  have ran : runOps [.getPage ⟨"t", 0⟩, .markDirty ⟨"t", 0⟩] (boot 3 ["t"]) = .ok () _ := rfl
  exact ⟨_, ran, remove_unflushed_throws (runOps_accounting (init_accounting 3) ran) (by decide) ⟨0, by decide, rfl⟩⟩

end World

namespace HeapInv
variable {N c : Nat} {td : TupleDesc c} {name : String} {w w₁ : World} {latest : PageId → Page}
  {m : Multiset Tuple}

theorem reopened (inv : HeapInv td name N w latest m) (flushed : World.flushFile name w = .ok () w₁)
    (healthy : Healthy N w₁ latest) (frame : World.Frame w w₁) :
    World.reopen name w₁ = .ok () { w₁ with files := Function.update w₁.files name (some (w₁.openFile name)) } ∧
      Healthy N { w₁ with files := Function.update w₁.files name (some (w₁.openFile name)) } latest ∧
      HeapFile.records td (World.pagesOf latest name) ((w₁.disk name).size / defaultPageSize) =
        HeapFile.records td (World.pagesOf latest name) (w.numPages name) := by
  have clean (pos : Nat) (dirty : pos ∈ w₁.pool.dirty) : (w₁.pool.posToPid pos).file ≠ name := by
    obtain ⟨_, _, ⟨⟩, pages⟩ := bind_ok flushed
    rw [World.flushPages_pool pages]
    exact ((World.flushFile_dirty inv.healthy.acc flushed pos).mp dirty).2
  have file := frame.isSome name ▸ inv.file
  refine ⟨World.reopen_flushed file clean, healthy.refiled _ fun other => ?_,
    HeapFile.records_eq_of_empty fun p low => ?_⟩
  · by_cases same : other = name
    · subst same; simp [file]
    · simp [Function.update_noteq same]
  · by_cases past : w.numPages name ≤ p
    · rw [World.pagesOf, inv.beyond p past, HeapPage.tuples_zeroPage]
    have below : (w₁.disk name).size ≤ p * defaultPageSize := by
      have := frame.aligned name inv.aligned
      unfold World.Aligned defaultPageSize at *
      omega
    have stored : w₁.stored ⟨name, p⟩ = latest ⟨name, p⟩ := by
      cases found : w₁.pool.pidToPos ⟨name, p⟩ with
      | none => exact healthy.coh.stored _ found
      | some pos =>
        refine healthy.coh.clean _ pos found fun dirty => clean pos dirty ?_
        rw [healthy.acc.posToPid_of_pidToPos found]
    rw [World.pagesOf, ← stored, World.stored, (w₁.disk name).zeroPast p below, HeapPage.tuples_zeroPage]

end HeapInv

-- A scan of a HeapFile after any run of its client returns the expected records, in
-- insertion order without deletes, and so does a HeapFile built anew after flushFile.
theorem heap_scan_live_records (N : Nat) (w₀ : World) (name : String) {c : Nat} (td : TupleDesc c)
    (calls : List HeapCall) (w : World) (constructed : w₀.pool = BufferPool.init N) (frames : 0 < N)
    (unnamed : w₀.files "" = none) (sound : ∀ e, w₀.faults e = none) (fresh : w₀.pageCounts name = some 0)
    (empty : (w₀.disk name).size = 0) (client : HeapClient name calls) (ran : runHeap td name calls w₀ = .ok () w) :
    ∃ l : List Tuple, (∀ fuel, l.length < fuel → ∃ w', World.heapScan td name fuel w = .ok l w') ∧
      (l : Multiset Tuple) = expectedAfter td name w₀ 0 calls ∧
      ((∀ it, HeapCall.delete it ∉ calls) → l = insertedTuples td calls) ∧
      ∃ w₁, World.flushFile name w = .ok () w₁ ∧ ∃ w₂, World.reopen name w₁ = .ok () w₂ ∧
        ∀ fuel, l.length < fuel → ∃ w₃, World.heapScan td name fuel w₂ = .ok l w₃ := by
  have inv₀ : HeapInv td name N w₀ w₀.stored 0 := .init constructed frames unnamed sound fresh empty
  have count₀ : w₀.numPages name = 0 := by rw [World.numPages_eq, fresh]; rfl
  obtain ⟨latest, inv, order⟩ := runHeap_inv td name client inv₀ ran
  obtain ⟨w₁, flushed, healthy₁, frame₁⟩ := inv.healthy.flushFile name
  obtain ⟨reopened, healthy₂, same⟩ := inv.reopened flushed healthy₁ frame₁
  refine ⟨HeapFile.records td (World.pagesOf latest name) (w.numPages name), fun fuel enough => ?_, inv.holds,
    fun none => ?_, w₁, flushed, _, reopened, fun fuel enough => ?_⟩
  · obtain ⟨w', scanned, -⟩ := World.heapScan_returns td name inv.healthy inv.file enough
    exact ⟨w', scanned⟩
  · have start : InOrder td (World.pagesOf w₀.stored name) (w₀.numPages name) [] := by
      rw [count₀]; exact InOrder.empty fun p => inv₀.beyond p (by omega)
    simpa using (order none [] start).exact
  · obtain ⟨w₃, scanned, -⟩ := World.heapScan_returns td name healthy₂ (by simp)
      (by simpa [World.numPages, World.openFile, same] using enough)
    exact ⟨w₃, by simpa [World.numPages, World.openFile, same] using scanned⟩

theorem heap_scan_live_records_ordered :
    ∃ w, runHeap (⟨[.int], ["id"], rfl, by decide⟩ : TupleDesc 4) "t" [.insert [.int 5], .insert [.int 7]]
        (World.boot 1 ["t"]) = .ok () w ∧
      ∃ w', World.heapScan (⟨[.int], ["id"], rfl, by decide⟩ : TupleDesc 4) "t" 3 w = .ok [[.int 5], [.int 7]] w' := by
  have ran : runHeap (⟨[.int], ["id"], rfl, by decide⟩ : TupleDesc 4) "t" [.insert [.int 5], .insert [.int 7]]
      (World.boot 1 ["t"]) = .ok () _ := rfl
  obtain ⟨l, scan, -, ordered, -⟩ := heap_scan_live_records 1 (World.boot 1 ["t"]) "t" _ _ _ rfl (by decide) rfl
    (fun _ => rfl) rfl rfl (.insert _ _ (.insert _ _ .nil)) ran
  obtain rfl : l = [[.int 5], [.int 7]] := (ordered (by simp)).trans rfl
  exact ⟨_, ran, scan 3 (by decide)⟩

end PagedDb
