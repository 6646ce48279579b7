import PagedDb.HeapScan

namespace PagedDb

-- The page as the process holds it: its frame when cached, else the disk's bytes.
def World.view (w : World) (pid : PageId) : Page :=
  match w.pool.pidToPos pid with
  | some pos => w.pool.pages pos
  | none => w.stored pid

theorem Coherent.view_eq {w : World} {latest : PageId → Page} (coh : Coherent w latest) (pid : PageId) :
    w.view pid = latest pid := by
  unfold World.view
  split
  · exact coh.cached pid _ ‹_›
  · exact coh.stored pid ‹_›

namespace World
variable {N : Nat} {w w₁ w' : World} {latest : PageId → Page}

theorem onFrame_ok {ε α : Type} {pos : Nat} {wrap : ε → Error} {step : EStateM ε Page α} {a : α} {page : Page}
    (stepped : step (w.pool.pages pos) = .ok a page) :
    onFrame pos wrap step w = .ok a { w with pool := { w.pool with pages := Function.update w.pool.pages pos page } } := by
  simp [onFrame, stepped, setPool]

theorem onFrame_error {ε α : Type} {pos : Nat} {wrap : ε → Error} {step : EStateM ε Page α} {e : ε} {page : Page}
    (stepped : step (w.pool.pages pos) = .error e page) :
    onFrame pos wrap step w = .error (wrap e) { w with pool := { w.pool with pages := Function.update w.pool.pages pos page } } := by
  simp [onFrame, stepped, setPool]

end World

theorem Healthy.updated {N : Nat} {w : World} {latest : PageId → Page} (healthy : Healthy N w latest) {pid : PageId}
    {pos : Nat} (found : w.pool.pidToPos pid = some pos) (page : Page) :
    Healthy N { w with pool := { w.pool with
      pages := Function.update w.pool.pages pos page
      dirty := w.pool.dirty.insert pos } } (Function.update latest pid page) where
  acc := by simpa [BufferPool.markDirty, found] using (healthy.acc.withPages (Function.update w.pool.pages pos page)).marked pid
  coh := healthy.coh.updated healthy.acc found page
  frames := healthy.frames
  sound := healthy.sound

namespace Healthy
variable {N : Nat} {w w₁ : World} {latest : PageId → Page}

theorem getPage (healthy : Healthy N w latest) {pid : PageId} {pos : Nat} (got : World.getPage pid w = .ok pos w₁) :
    Healthy N w₁ latest ∧ w₁.pool.pidToPos pid = some pos ∧ World.Frame w w₁ := by
  obtain ⟨coh, found⟩ := healthy.coh.getPage_coherent healthy.acc got
  have frame := World.getPage_frame got
  exact ⟨⟨World.getPage_accounting healthy.acc got, coh, healthy.frames, by rw [frame.faults]; exact healthy.sound⟩,
    found, frame⟩

theorem refiled (healthy : Healthy N w latest) (files : String → Option DbFile)
    (same : ∀ name, (files name).isSome = (w.files name).isSome) : Healthy N { w with files := files } latest where
  acc := healthy.acc
  coh := ⟨healthy.coh.cached, healthy.coh.clean, healthy.coh.stored,
    Option.not_isSome_iff_eq_none.mp (by rw [same]; simp [healthy.coh.unnamed]),
    fun pid pos found => by rw [same]; exact healthy.coh.registered pid pos found⟩
  frames := healthy.frames
  sound := healthy.sound

end Healthy

namespace World
variable {N : Nat} {c : Nat} (td : TupleDesc c) {w w' : World} {latest : PageId → Page}

theorem insertOn_ok (healthy : Healthy N w latest) {pid : PageId} {t : Tuple} (compatible : td.compatible t)
    {placed : Bool} (ran : insertOn td pid t w = .ok placed w') :
    Frame w w' ∧
      (HeapPage.scan (latest pid) false 0 (heapCapacity td.length) = heapCapacity td.length ∧ placed = false ∧
          Healthy N w' latest ∨
        HeapPage.scan (latest pid) false 0 (heapCapacity td.length) < heapCapacity td.length ∧ placed = true ∧
          ∃ page', HeapPage.insertTuple td t (latest pid) = .ok true page' ∧ Healthy N w' (Function.update latest pid page')) := by
  obtain ⟨pos, w₁, got, ran⟩ := bind_ok ran
  obtain ⟨healthy₁, found, frame⟩ := healthy.getPage got
  have current : w₁.pool.pages pos = latest pid := healthy₁.coh.cached pid pos found
  obtain ⟨-, bound, -, -⟩ := HeapPage.scan_spec (latest pid) false 0 (heapCapacity td.length)
  rcases Nat.lt_or_eq_of_le bound with room | full
  · obtain ⟨page', inserted, -⟩ := HeapPage.insertTuple_free (latest pid) compatible rfl (by simpa using room)
    rw [← current] at inserted
    simp only [run_bind, onFrame_ok inserted, if_true, markDirty, run_modify, BufferPool.markDirty, found,
      run_pure] at ran
    obtain ⟨rfl, rfl⟩ := EStateM.Result.ok.inj ran
    exact ⟨frame.trans (.pooled w₁ _), .inr ⟨by simpa using room, rfl, page', current ▸ inserted, healthy₁.updated found page'⟩⟩
  · have inserted := HeapPage.insertTuple_full (latest pid) t (by simpa using full)
    rw [← current] at inserted
    simp only [run_bind, onFrame_ok inserted, Function.update_eq_self, Bool.false_eq_true, if_false, run_pure] at ran
    obtain ⟨rfl, rfl⟩ := EStateM.Result.ok.inj ran
    exact ⟨frame, .inl ⟨by simpa using full, rfl, healthy₁⟩⟩

theorem setNumPages_ok {name : String} {n : Nat} (ran : setNumPages name n w = .ok () w') :
    w' = { w with files := Function.update w.files name ((w.files name).map fun f => { f with numPages := n }) } := by
  cases ran; rfl

theorem newPage_ok (healthy : Healthy N w latest) {name : String} (file : (w.files name).isSome) {n : Nat}
    (beyond : latest ⟨name, n⟩ = zeroPage) {t : Tuple} (compatible : td.compatible t)
    (ran : (insertOn td ⟨name, n⟩ t >>= fun placed => if placed then setNumPages name (n + 1)
      else throw (.runtime "HeapFile::insertTuple: failed to insert into empty page")) w = .ok () w') :
    (w'.files name).isSome ∧ (w'.files name).map DbFile.numPages = some (n + 1) ∧ (∀ f, w.Aligned f → w'.Aligned f) ∧
      ∃ page', HeapPage.insertTuple td t zeroPage = .ok true page' ∧ Healthy N w' (Function.update latest ⟨name, n⟩ page') := by
  obtain ⟨placed, w₁, inserted, ran⟩ := bind_ok ran
  obtain ⟨frame, (⟨-, rfl, -⟩ | ⟨-, rfl, page', stored, healthy₁⟩)⟩ := insertOn_ok td healthy compatible inserted
  · simp at ran
  rw [beyond] at stored
  rw [if_pos rfl, setNumPages_ok ran] at *
  obtain ⟨f, found⟩ := Option.isSome_iff_exists.mp (by rw [frame.isSome]; exact file)
  refine ⟨by simp [found], by simp [found], frame.aligned, page', stored, healthy₁.refiled _ fun other => ?_⟩
  by_cases same : other = name
  · subst same; simp [found]
  · simp [Function.update_noteq same]

theorem heapInsert_ok (healthy : Healthy N w latest) {name : String} (file : (w.files name).isSome)
    (beyond : latest ⟨name, w.numPages name⟩ = zeroPage) {t : Tuple} (ran : heapInsert td name t w = .ok () w') :
    td.compatible t ∧ (w'.files name).isSome ∧ (∀ f, w.Aligned f → w'.Aligned f) ∧
      ((0 < w.numPages name ∧
          HeapPage.scan (latest ⟨name, w.numPages name - 1⟩) false 0 (heapCapacity td.length) < heapCapacity td.length ∧
          w'.numPages name = w.numPages name ∧
          ∃ page', HeapPage.insertTuple td t (latest ⟨name, w.numPages name - 1⟩) = .ok true page' ∧
            Healthy N w' (Function.update latest ⟨name, w.numPages name - 1⟩ page')) ∨
        ((w.numPages name = 0 ∨
            HeapPage.scan (latest ⟨name, w.numPages name - 1⟩) false 0 (heapCapacity td.length) = heapCapacity td.length) ∧
          w'.numPages name = w.numPages name + 1 ∧
          ∃ page', HeapPage.insertTuple td t zeroPage = .ok true page' ∧
            Healthy N w' (Function.update latest ⟨name, w.numPages name⟩ page'))) := by
  by_cases compatible : td.compatible t
  swap
  · simp [heapInsert, compatible] at ran
  simp only [heapInsert, compatible, Bool.not_true, Bool.false_eq_true, if_false, run_bind, run_pure, run_get] at ran
  have appended (w₁ : World) (healthy₁ : Healthy N w₁ latest) (file₁ : (w₁.files name).isSome)
      (ran : (insertOn td ⟨name, w.numPages name⟩ t >>= fun placed => if placed then setNumPages name (w.numPages name + 1)
        else throw (.runtime "HeapFile::insertTuple: failed to insert into empty page")) w₁ = .ok () w') :
      (w'.files name).isSome ∧ w'.numPages name = w.numPages name + 1 ∧ (∀ f, w₁.Aligned f → w'.Aligned f) ∧
        ∃ page', HeapPage.insertTuple td t zeroPage = .ok true page' ∧
          Healthy N w' (Function.update latest ⟨name, w.numPages name⟩ page') := by
    obtain ⟨registered, count, aligned, rest⟩ := newPage_ok td healthy₁ file₁ beyond compatible ran
    exact ⟨registered, by simp [numPages, count], aligned, rest⟩
  split at ran
  · rename_i nonempty
    obtain ⟨placed, w₁, inserted, ran⟩ := bind_ok ran
    obtain ⟨frame, (⟨full, rfl, healthy₁⟩ | ⟨room, rfl, page', stored, healthy₁⟩)⟩ := insertOn_ok td healthy compatible inserted
    · obtain ⟨registered, count, aligned, rest⟩ :=
        appended w₁ healthy₁ (by rw [frame.isSome]; exact file) (by simpa using ran)
      exact ⟨compatible, registered, fun f old => aligned f (frame.aligned f old), .inr ⟨.inr full, count, rest⟩⟩
    · have same : w₁ = w' := by simpa using ran
      subst same
      exact ⟨compatible, by rw [frame.isSome]; exact file, frame.aligned,
        .inl ⟨nonempty, room, frame.numPages name, page', stored, healthy₁⟩⟩
  · rename_i empty
    obtain ⟨registered, count, aligned, rest⟩ := appended w healthy file (by simpa using ran)
    exact ⟨compatible, registered, aligned, .inr ⟨.inl (by omega), count, rest⟩⟩

theorem heapDelete_ok (healthy : Healthy N w latest) {name : String} {it : Iterator}
    (ran : heapDelete td name it w = .ok () w') :
    it.page < w.numPages name ∧ it.slot ∈ HeapPage.slots td (latest ⟨name, it.page⟩) ∧ Frame w w' ∧
      ∃ page', HeapPage.deleteTuple td it.slot (latest ⟨name, it.page⟩) = .ok () page' ∧
        Healthy N w' (Function.update latest ⟨name, it.page⟩ page') := by
  by_cases inside : it.page < w.numPages name
  swap
  · simp [heapDelete, Nat.not_lt.mp inside] at ran
  simp only [heapDelete, Nat.not_le.mpr inside, if_false, run_bind, run_get, run_pure] at ran
  obtain ⟨pos, w₁, got, ran⟩ := bind_ok ran
  obtain ⟨healthy₁, found, frame⟩ := healthy.getPage got
  have current : w₁.pool.pages pos = latest ⟨name, it.page⟩ := healthy₁.coh.cached _ pos found
  obtain ⟨u, w₂, deleted, ran⟩ := bind_ok ran
  have returned {e : Error} (step : HeapPage.deleteTuple td it.slot (latest ⟨name, it.page⟩) =
      .error e (latest ⟨name, it.page⟩)) : False := by
    rw [← current] at step; rw [onFrame_error step] at deleted; cases deleted
  by_cases bound : it.slot < heapCapacity td.length
  swap
  · exact (returned (HeapPage.deleteTuple_outside _ (Nat.not_lt.mp bound))).elim
  cases set : occupied (latest ⟨name, it.page⟩) it.slot
  · exact (returned (HeapPage.deleteTuple_free _ bound set)).elim
  obtain ⟨page', step, -⟩ := HeapPage.deleteTuple_occupied (latest ⟨name, it.page⟩) bound set
  rw [← current] at step
  rw [onFrame_ok step] at deleted
  cases deleted
  simp only [markDirty, run_modify, BufferPool.markDirty, found] at ran
  cases ran
  exact ⟨inside, HeapPage.mem_slots.mpr ⟨bound, set⟩, frame.trans (.pooled w₁ _), page', current ▸ step,
    healthy₁.updated found page'⟩

theorem insertOn_returns (healthy : Healthy N w latest) (pid : PageId) (file : (w.files pid.file).isSome) {t : Tuple}
    (compatible : td.compatible t) : ∃ placed w', insertOn td pid t w = .ok placed w' := by
  obtain ⟨pos, w₁, got, -, current, -⟩ := getPage_returns healthy pid file
  obtain ⟨-, bound, -, -⟩ := HeapPage.scan_spec (latest pid) false 0 (heapCapacity td.length)
  rcases Nat.lt_or_eq_of_le bound with room | full
  · obtain ⟨page', inserted, -⟩ := HeapPage.insertTuple_free (latest pid) compatible rfl (by simpa using room)
    rw [← current] at inserted
    exact ⟨true, _, by simp only [insertOn, run_bind, got, onFrame_ok inserted, if_true, markDirty, run_modify, run_pure]; rfl⟩
  · have inserted := HeapPage.insertTuple_full (latest pid) t (by simpa using full)
    rw [← current] at inserted
    exact ⟨false, _, by simp only [insertOn, run_bind, got, onFrame_ok inserted, Bool.false_eq_true, if_false, run_pure]; rfl⟩

theorem heapInsert_returns (healthy : Healthy N w latest) {name : String} (file : (w.files name).isSome)
    (beyond : latest ⟨name, w.numPages name⟩ = zeroPage) {t : Tuple} (compatible : td.compatible t)
    (fits : 0 < heapCapacity td.length) : ∃ w', heapInsert td name t w = .ok () w' := by
  simp only [heapInsert, compatible, Bool.not_true, Bool.false_eq_true, if_false, run_bind, run_pure, run_get]
  have appended (w₁ : World) (healthy₁ : Healthy N w₁ latest) (file₁ : (w₁.files name).isSome) :
      ∃ w', (insertOn td ⟨name, w.numPages name⟩ t >>= fun placed => if placed then setNumPages name (w.numPages name + 1)
        else throw (.runtime "HeapFile::insertTuple: failed to insert into empty page")) w₁ = .ok () w' := by
    obtain ⟨placed, w₂, inserted⟩ := insertOn_returns td healthy₁ ⟨name, w.numPages name⟩ file₁ compatible
    obtain ⟨-, ⟨full, -, -⟩ | ⟨-, rfl, -⟩⟩ := insertOn_ok td healthy₁ compatible inserted
    · rw [beyond, HeapPage.scan_packed (k := 0) HeapPage.slots_zeroPage (Nat.zero_le _)] at full
      omega
    · exact ⟨_, by simp only [run_bind, inserted, if_true]; rfl⟩
  split
  · obtain ⟨placed, w₁, inserted⟩ := insertOn_returns td healthy ⟨name, w.numPages name - 1⟩ file compatible
    obtain ⟨frame, ⟨-, rfl, healthy₁⟩ | ⟨-, rfl, -⟩⟩ := insertOn_ok td healthy compatible inserted
    · obtain ⟨w', ran⟩ := appended w₁ healthy₁ (by rw [frame.isSome]; exact file)
      exact ⟨w', by simpa [inserted] using ran⟩
    · exact ⟨w₁, by simp [inserted]⟩
  · simpa using appended w healthy file

theorem heapDelete_returns (healthy : Healthy N w latest) {name : String} (file : (w.files name).isSome)
    {it : Iterator} (inside : it.page < w.numPages name)
    (member : it.slot ∈ HeapPage.slots td (latest ⟨name, it.page⟩)) : ∃ w', heapDelete td name it w = .ok () w' := by
  obtain ⟨pos, w₁, got, -, current, -⟩ := getPage_returns healthy ⟨name, it.page⟩ file
  obtain ⟨bound, set⟩ := HeapPage.mem_slots.mp member
  obtain ⟨page', deleted, -⟩ := HeapPage.deleteTuple_occupied (latest ⟨name, it.page⟩) bound set
  rw [← current] at deleted
  exact ⟨_, by simp only [heapDelete, Nat.not_le.mpr inside, if_false, run_bind, run_get, run_pure, got,
    onFrame_ok deleted, markDirty, run_modify]; rfl⟩

-- HeapFile::deleteTuple and getTuple at a position holding no record throw, and the
-- process stays healthy with every page's latest bytes as they were.
theorem absent_position_throws (healthy : Healthy N w latest) {name : String} (file : (w.files name).isSome)
    {it : Iterator} (absent : it.page < w.numPages name → it.slot ∉ HeapPage.slots td (latest ⟨name, it.page⟩)) :
    ∃ w', Healthy N w' latest ∧ Frame w w' ∧
      heapDelete td name it w = .error (if w.numPages name ≤ it.page then .outOfRange "HeapFile::deleteTuple: page out of range"
        else if heapCapacity td.length ≤ it.slot then .outOfRange "slot OOB" else .logic "slot empty") w' ∧
      heapGetTuple td name it w = .error (if w.numPages name ≤ it.page then .outOfRange "HeapFile::getTuple: page out of range"
        else if heapCapacity td.length ≤ it.slot then .outOfRange "slot OOB" else .logic "slot empty") w' := by
  by_cases past : w.numPages name ≤ it.page
  · exact ⟨w, healthy, .refl w, by simp [heapDelete, past], by simp [heapGetTuple, past]⟩
  obtain ⟨pos, w₁, got, healthy₁, current, frame⟩ := getPage_returns healthy ⟨name, it.page⟩ file
  have free := absent (Nat.lt_of_not_le past)
  rw [HeapPage.mem_slots, ← current] at free
  have refused : HeapPage.deleteTuple td it.slot (w₁.pool.pages pos) =
      .error (if heapCapacity td.length ≤ it.slot then .outOfRange "slot OOB" else .logic "slot empty")
        (w₁.pool.pages pos) := by
    split
    next outside => exact HeapPage.deleteTuple_outside _ outside
    next inside => exact HeapPage.deleteTuple_free _ (Nat.lt_of_not_le inside) (by simpa [Nat.lt_of_not_le inside] using free)
  have unread : HeapPage.getTuple td (w₁.pool.pages pos) it.slot =
      .error (if heapCapacity td.length ≤ it.slot then .outOfRange "slot OOB" else .logic "slot empty") := by
    unfold HeapPage.getTuple
    split
    next => rfl
    next inside => rw [if_pos (by simpa [Nat.lt_of_not_le inside] using free)]; rfl
  exact ⟨w₁, healthy₁, frame, by simp [heapDelete, past, got, onFrame_error refused],
    by simp [heapGetTuple, past, got, unread]⟩

def blankPageWorld : World where
  pool := BufferPool.init 1
  files := fun name => if name = "t" then some ⟨1, [], []⟩ else none
  disk := fun _ => ⟨fun _ => zeroPage, defaultPageSize, fun _ _ => rfl⟩
  faults := fun _ => none
  trace := []

theorem blank_slot_throws :
    ∃ w', Healthy 1 w' blankPageWorld.stored ∧ Frame blankPageWorld w' ∧
      heapDelete (⟨[.int], ["id"], rfl, by decide⟩ : TupleDesc 4) "t" ⟨0, 0⟩ blankPageWorld =
        .error (.logic "slot empty") w' ∧
      heapGetTuple (⟨[.int], ["id"], rfl, by decide⟩ : TupleDesc 4) "t" ⟨0, 0⟩ blankPageWorld =
        .error (.logic "slot empty") w' := by
  obtain ⟨w', healthy, frame, deleted, read⟩ := @absent_position_throws 1 4 ⟨[.int], ["id"], rfl, by decide⟩
    blankPageWorld blankPageWorld.stored ⟨init_accounting 1, Coherent.init rfl rfl, by decide, fun _ => rfl⟩ "t" rfl
    ⟨0, 0⟩ fun _ => by simp [World.stored, blankPageWorld]
  rw [if_neg (by decide), if_neg (by decide)] at deleted read
  exact ⟨w', healthy, frame, deleted, read⟩

end World

namespace HeapFile
variable {c : Nat} {td : TupleDesc c}

theorem records_succ (pageAt : Nat → Page) (n : Nat) :
    records td pageAt (n + 1) = records td pageAt n ++ HeapPage.tuples td (pageAt n) := by
  simp [records, List.range_succ]

theorem records_congr {pageAt pageAt' : Nat → Page} {n : Nat} (same : ∀ p < n, pageAt' p = pageAt p) :
    records td pageAt' n = records td pageAt n := by
  induction n with
  | zero => rfl
  | succ n ih => rw [records_succ, records_succ, ih fun p lt => same p (by omega), same n (by omega)]

theorem records_empty {pageAt : Nat → Page} {n m : Nat} (le : n ≤ m)
    (empty : ∀ p, n ≤ p → p < m → HeapPage.tuples td (pageAt p) = []) : records td pageAt m = records td pageAt n := by
  induction m, le using Nat.le_induction with
  | base => rfl
  | succ m le ih => rw [records_succ, empty m le (by omega), List.append_nil, ih fun p low high => empty p low (by omega)]

theorem records_update_last (pageAt : Nat → Page) (q : Nat) (page : Page) :
    records td (Function.update pageAt q page) (q + 1) = records td pageAt q ++ HeapPage.tuples td page := by
  rw [records_succ, Function.update_same, records_congr fun p lt => Function.update_noteq (Nat.ne_of_lt lt) _ _]

theorem records_update (pageAt : Nat → Page) {p n : Nat} (inside : p < n) (page : Page) :
    ∃ front back, records td pageAt n = front ++ HeapPage.tuples td (pageAt p) ++ back ∧
      records td (Function.update pageAt p page) n = front ++ HeapPage.tuples td page ++ back := by
  induction n with
  | zero => omega
  | succ n ih =>
    rw [records_succ, records_succ]
    rcases Nat.lt_or_eq_of_le (Nat.le_of_lt_succ inside) with below | rfl
    · obtain ⟨front, back, before, after⟩ := ih below
      refine ⟨front, back ++ HeapPage.tuples td (pageAt n), by rw [before]; simp, ?_⟩
      rw [after, Function.update_noteq (Nat.ne_of_gt below)]; simp
    · refine ⟨records td pageAt p, [], by simp, ?_⟩
      rw [← records_succ, records_update_last]; simp

theorem records_delete (pageAt : Nat → Page) {p n : Nat} (inside : p < n) {page : Page} {x : Tuple}
    (shrunk : (x :: HeapPage.tuples td page).Perm (HeapPage.tuples td (pageAt p))) :
    (x :: records td (Function.update pageAt p page) n).Perm (records td pageAt n) := by
  obtain ⟨front, back, before, after⟩ := records_update pageAt inside page
  rw [before, after]
  have moved : (x :: (front ++ HeapPage.tuples td page ++ back)).Perm (front ++ (x :: HeapPage.tuples td page) ++ back) := by
    simpa only [List.append_assoc, List.cons_append] using (@List.perm_middle _ x front (HeapPage.tuples td page ++ back)).symm
  exact moved.trans ((shrunk.append_left front).append_right back)

theorem records_eq_of_empty {pageAt : Nat → Page} {k n : Nat}
    (empty : ∀ p, min k n ≤ p → HeapPage.tuples td (pageAt p) = []) : records td pageAt k = records td pageAt n := by
  rcases Nat.le_total k n with le | le
  · exact (records_empty le fun p low _ => empty p (by omega)).symm
  · exact records_empty le fun p low _ => empty p (by omega)

end HeapFile

namespace World

theorem pagesOf_update (latest : PageId → Page) (name : String) (p : Nat) (page : Page) :
    pagesOf (Function.update latest ⟨name, p⟩ page) name = Function.update (pagesOf latest name) p page := by
  funext q
  by_cases same : q = p
  · subst same; simp [pagesOf]
  · simp [pagesOf, same]

theorem pagesOf_update_other (latest : PageId → Page) {name : String} {pid : PageId} (other : pid.file ≠ name)
    (page : Page) : pagesOf (Function.update latest pid page) name = pagesOf latest name := by
  funext q
  exact Function.update_noteq (fun same => other (by rw [← same])) _ _

end World

end PagedDb
