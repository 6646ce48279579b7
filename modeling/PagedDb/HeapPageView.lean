import PagedDb.HeapPage

namespace PagedDb

namespace HeapPage
variable {c : Nat} (td : TupleDesc c)

-- The page as HeapPage presents it: a set slot below capacity holds its decoded record.
def view (page : Page) (i : Nat) : Option Tuple :=
  if i < heapCapacity td.length ∧ occupied page i then some (read td page i) else none

-- `page'` differs from `page` in slot i alone, in its bytes and its header bit.
structure OnlySlot (page page' : Page) (i : Nat) : Prop where
  bits : ∀ j < 8 * heapHeaderBytes td.length, j ≠ i → occupied page' j = occupied page j
  bytes : ∀ a, a ≠ i / 8 → a < slotOffset td i ∨ slotOffset td i + td.length ≤ a → page' a = page a

-- The calls that change a heap page; one that raises leaves the page as it was.
inductive PageCall where
  | insert (t : Tuple)
  | delete (slot : Nat)

def PageCall.exec (page : Page) : PageCall → Page
  | .insert t => resultState (insertTuple td t page)
  | .delete slot => resultState (deleteTuple td slot page)

def runPage (page : Page) (calls : List PageCall) : Page := calls.foldl (PageCall.exec td) page

def FreeZeroed (page : Page) : Prop :=
  ∀ i < heapCapacity td.length, occupied page i = false → ∀ a < td.length, page (slotOffset td i + a) = 0

instance (page : Page) : Decidable (FreeZeroed td page) :=
  inferInstanceAs (Decidable (∀ i < heapCapacity td.length, occupied page i = false →
    ∀ a < td.length, page (slotOffset td i + a) = 0))

section View
variable {td}

theorem view_eq_none_iff {page : Page} {i : Nat} (inside : i < heapCapacity td.length) :
    view td page i = none ↔ occupied page i = false := by
  unfold view; cases occupied page i <;> simp [inside]

theorem getTuple_view (page : Page) (slot : Nat) :
    getTuple td page slot = match view td page slot with
      | some t => .ok t
      | none => .error (if heapCapacity td.length ≤ slot then .outOfRange "slot OOB" else .logic "slot empty") := by
  unfold getTuple view read
  by_cases outside : heapCapacity td.length ≤ slot
  · simp [outside, Nat.not_lt.mpr outside]; rfl
  · cases set : occupied page slot <;> simp [outside, set, Nat.lt_of_not_le outside] <;> rfl

theorem empty_view (page : Page) (slot : Nat) : empty td page slot = (view td page slot).isNone := by
  unfold empty view
  by_cases outside : heapCapacity td.length ≤ slot
  · simp [outside, Nat.not_lt.mpr outside]
  · cases occupied page slot <;> simp [outside, Nat.lt_of_not_le outside]

theorem OnlySlot.of_update {page M : Page} {i : Nat} {b : UInt8}
    (outside : ∀ a, a < slotOffset td i ∨ slotOffset td i + td.length ≤ a → M a = page a)
    (keeps : ∀ j, j ≠ i → occupied (Function.update M (i / 8) b) j = occupied M j) :
    OnlySlot td page (Function.update M (i / 8) b) i where
  bits j header other := (keeps j other).trans (occupied_congr (outside _ (.inl (header_byte_before td header i))))
  bytes a apart out := (Function.update_noteq apart _ _).trans (outside a out)

theorem OnlySlot.view_other {page page' : Page} {i j : Nat} (only : OnlySlot td page page' i)
    (inside : i < heapCapacity td.length) (other : j ≠ i) : view td page' j = view td page j := by
  have sameRead : read td page' j = read td page j := read_congr fun a short =>
    only.bytes _ (by have := header_before td inside j; omega) (slot_disjoint td (Ne.symm other) short)
  unfold view
  by_cases below : j < heapCapacity td.length
  · rw [only.bits j (lt_of_lt_of_le below (header_covers _)) other, sameRead]
  · simp [below]

theorem OnlySlot.view_eq {page page' : Page} {i : Nat} (only : OnlySlot td page page' i)
    (inside : i < heapCapacity td.length) : view td page' = Function.update (view td page) i (view td page' i) := by
  funext j
  by_cases same : j = i
  · rw [same, Function.update_same]
  · rw [Function.update_noteq same, only.view_other inside same]

theorem OnlySlot.freeZeroed {page page' : Page} {i : Nat} (only : OnlySlot td page page' i)
    (inside : i < heapCapacity td.length) (zeroed : FreeZeroed td page)
    (own : occupied page' i = false → ∀ a < td.length, page' (slotOffset td i + a) = 0) : FreeZeroed td page' := by
  intro j below free a short
  by_cases same : j = i
  · subst same; exact own free a short
  · rw [only.bytes _ (by have := header_before td inside j; omega) (slot_disjoint td (Ne.symm same) short)]
    exact zeroed j below ((only.bits j (lt_of_lt_of_le below (header_covers _)) same).symm.trans free) a short

theorem insertTuple_onlySlot (page : Page) {t : Tuple} (compatible : td.compatible t) {i : Nat}
    (first : scan page false 0 (heapCapacity td.length) = i) (room : i < heapCapacity td.length) :
    ∃ page', insertTuple td t page = .ok true page' ∧ OnlySlot td page page' i ∧
      view td page' i = some (roundTrip td t) := by
  have length := tupleBytes_length_of_compatible compatible
  refine ⟨_, insertTuple_eq page compatible first room,
    .of_update (fun a out => storeBytes_outside page (by rw [length]; exact out)) fun j other => by
      rw [occupied_set]; simp [other], ?_⟩
  rw [view, if_pos ⟨room, by rw [occupied_set]; simp⟩, roundTrip_eq compatible,
    ← deserialize_storeBytes compatible page (slotOffset td i)]
  exact congrArg some (read_congr fun a inside => Function.update_noteq (by have := header_before td room i; omega) _ _)

theorem deleteTuple_onlySlot (page : Page) {slot : Nat} (inside : slot < heapCapacity td.length)
    (set : occupied page slot) :
    ∃ page', deleteTuple td slot page = .ok () page' ∧ OnlySlot td page page' slot ∧
      occupied page' slot = false ∧ ∀ a < td.length, page' (slotOffset td slot + a) = 0 := by
  have zeroed (a : Nat) (out : a < slotOffset td slot ∨ slotOffset td slot + td.length ≤ a) :
      memset page (slotOffset td slot) td.length 0 a = page a := by
    rw [memset_apply, if_neg (by omega)]
  refine ⟨_, deleteTuple_eq page inside set, .of_update zeroed fun j other => by rw [occupied_clear]; simp [other],
    by rw [occupied_clear]; simp, fun a short => ?_⟩
  rw [Function.update_noteq (by have := header_before td inside slot; omega), memset_apply, if_pos (by omega)]

theorem exec_freeZeroed {page : Page} (zeroed : FreeZeroed td page) (call : PageCall) :
    FreeZeroed td (call.exec td page) := by
  cases call with
  | insert t =>
    obtain ⟨-, high, -, -⟩ := scan_spec page false 0 (heapCapacity td.length)
    by_cases room : scan page false 0 (heapCapacity td.length) < heapCapacity td.length
    · cases compatible : td.compatible t
      · rwa [PageCall.exec, insertTuple_throws page compatible room]
      · obtain ⟨page', ran, only, placed⟩ := insertTuple_onlySlot page compatible rfl room
        rw [PageCall.exec, ran]
        refine only.freeZeroed room zeroed fun free => absurd placed ?_
        rw [view, if_neg (by simp [free])]; simp
    · rwa [PageCall.exec, insertTuple_full page t (by omega)]
  | delete slot =>
    by_cases inside : slot < heapCapacity td.length
    · cases set : occupied page slot
      · rwa [PageCall.exec, deleteTuple_free page inside set]
      · obtain ⟨page', ran, only, -, cleared⟩ := deleteTuple_onlySlot page inside set
        rw [PageCall.exec, ran]
        exact only.freeZeroed inside zeroed fun _ => cleared
    · rwa [PageCall.exec, deleteTuple_outside page (Nat.not_lt.mp inside)]

theorem runPage_freeZeroed {page : Page} (zeroed : FreeZeroed td page) (calls : List PageCall) :
    FreeZeroed td (runPage td page calls) := by
  induction calls generalizing page with
  | nil => exact zeroed
  | cons call calls ih => exact ih (exec_freeZeroed zeroed call)

theorem zeroPage_freeZeroed : FreeZeroed td zeroPage := fun _ _ _ _ _ => rfl

end View

-- HeapPage over any schema reads through the view, each call changes one slot, and
-- from a zeroed page the free slots stay zeroed.
theorem heap_page_map_view (page : Page) :
    ((∀ i < heapCapacity td.length, i / 8 < heapHeaderBytes td.length ∧
        heapHeaderBytes td.length ≤ slotOffset td i ∧ slotOffset td i + td.length ≤ defaultPageSize) ∧
      ∀ i j, i ≠ j → slotOffset td i + td.length ≤ slotOffset td j ∨
        slotOffset td j + td.length ≤ slotOffset td i) ∧
    (∀ t : Tuple, td.compatible t → ∀ i < heapCapacity td.length, view td page i = none →
      (∀ j < i, view td page j ≠ none) →
      ∃ page', insertTuple td t page = .ok true page' ∧
        view td page' = Function.update (view td page) i (some (roundTrip td t)) ∧ OnlySlot td page page' i) ∧
    (∀ t : Tuple, (∀ j < heapCapacity td.length, view td page j ≠ none) →
      insertTuple td t page = .ok false page) ∧
    (∀ s < heapCapacity td.length, view td page s ≠ none →
      ∃ page', deleteTuple td s page = .ok () page' ∧ view td page' = Function.update (view td page) s none ∧
        occupied page' s = false ∧ (∀ a < td.length, page' (slotOffset td s + a) = 0) ∧
        OnlySlot td page page' s) ∧
    (∀ s, heapCapacity td.length ≤ s → deleteTuple td s page = .error (.outOfRange "slot OOB") page) ∧
    (∀ s < heapCapacity td.length, view td page s = none →
      deleteTuple td s page = .error (.logic "slot empty") page) ∧
    (∀ s, (getTuple td page s = match view td page s with
        | some t => .ok t
        | none => .error (if heapCapacity td.length ≤ s then .outOfRange "slot OOB" else .logic "slot empty")) ∧
      empty td page s = (view td page s).isNone) ∧
    ∀ calls, FreeZeroed td (runPage td zeroPage calls) := by
  have set {j : Nat} (inside : j < heapCapacity td.length) (some : view td page j ≠ none) :
      occupied page j = true := by
    simpa [view_eq_none_iff inside] using some
  refine ⟨⟨fun i inside =>
      ⟨by have := header_covers td.length; omega, Nat.le_add_right _ _, slot_inside td inside⟩,
      fun i j other => slots_apart td other⟩, fun t compatible i inside free lowest => ?_,
    fun t full => insertTuple_full page t (scan_false_full td page fun j below => set below (full j below)),
    fun s inside some => ?_, fun s outside => deleteTuple_outside page outside,
    fun s inside free => deleteTuple_free page inside ((view_eq_none_iff inside).mp free),
    fun s => ⟨getTuple_view page s, empty_view page s⟩,
    fun calls => runPage_freeZeroed zeroPage_freeZeroed calls⟩
  · obtain ⟨page', ran, only, placed⟩ := insertTuple_onlySlot page compatible
      (scan_false_lowest td page inside ((view_eq_none_iff inside).mp free) fun j early =>
        set (by omega) (lowest j early)) inside
    exact ⟨page', ran, by rw [only.view_eq inside, placed], only⟩
  · obtain ⟨page', ran, only, cleared, zero⟩ := deleteTuple_onlySlot page inside (set inside some)
    exact ⟨page', ran, by rw [only.view_eq inside, (view_eq_none_iff inside).mpr cleared], cleared, zero, only⟩

def idSchema : TupleDesc 4 := ⟨[.int], ["id"], rfl, by decide⟩

theorem idSchema_first_insert :
    ∃ page', insertTuple idSchema [.int 5] zeroPage = .ok true page' ∧ view idSchema page' 0 = some [.int 5] := by
  obtain ⟨-, insert, -⟩ := heap_page_map_view idSchema zeroPage
  obtain ⟨page', ran, viewed, -⟩ := insert [.int 5] (by decide) 0 (by decide) (by simp [view])
    fun j early => absurd early (Nat.not_lt_zero j)
  exact ⟨page', ran, by rw [viewed, Function.update_same, roundTrip_eq (by decide)]; rfl⟩

end HeapPage

end PagedDb
