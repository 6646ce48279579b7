import PagedDb.Aggregate

namespace PagedDb

section Order

theorem bytesLt_irrefl (a : List UInt8) : bytesLt a a = false := by
  induction a with
  | nil => rfl
  | cons x xs ih => simp [bytesLt, ih]

theorem bytesLt_trans {a b c : List UInt8} (ab : bytesLt a b) (bc : bytesLt b c) : bytesLt a c := by
  induction a generalizing b c with
  | nil => cases b <;> cases c <;> simp_all [bytesLt]
  | cons x xs ih =>
    match b, c, ab, bc with
    | [], _, ab, _ => simp [bytesLt] at ab
    | _ :: _, [], _, bc => simp [bytesLt] at bc
    | y :: ys, z :: zs, ab, bc =>
      simp only [bytesLt, Bool.or_eq_true, decide_eq_true_eq, Bool.and_eq_true, beq_iff_eq] at ab bc ⊢
      rcases ab with lt | ⟨rfl, lt⟩ <;> rcases bc with lt' | ⟨rfl, lt'⟩
      · exact .inl (UInt8.lt_trans lt lt')
      · exact .inl lt
      · exact .inl lt'
      · exact .inr ⟨rfl, ih lt lt'⟩

theorem bytesLt_total {a b : List UInt8} (ab : bytesLt a b = false) (ba : bytesLt b a = false) : a = b := by
  induction a generalizing b with
  | nil => cases b with
    | nil => rfl
    | cons => simp [bytesLt] at ab
  | cons x xs ih =>
    cases b with
    | nil => simp [bytesLt] at ba
    | cons y ys =>
      simp only [bytesLt, Bool.or_eq_false_iff, decide_eq_false_iff_not, Bool.and_eq_false_iff, beq_eq_false_iff_ne]
        at ab ba
      have same : x = y := UInt8.eq_of_toBitVec_eq (by rw [UInt8.lt_def] at ab ba; bv_omega)
      subst same
      rw [ih (ab.2.resolve_left (· rfl)) (ba.2.resolve_left (· rfl))]

theorem orderLt_irrefl (a : Option (WithBot (WithTop Int))) : orderLt a a = false := by
  cases a <;> simp [orderLt]

theorem orderLt_trans {a b c : Option (WithBot (WithTop Int))} (ab : orderLt a b) (bc : orderLt b c) :
    orderLt a c := by
  match a, b, c, ab, bc with
  | some _, some _, some _, ab, bc =>
    simp only [orderLt, decide_eq_true_eq] at ab bc ⊢
    exact lt_trans ab bc

theorem orderLt_connect {a b c : Option (WithBot (WithTop Int))} (ac : orderLt a c) (number : b.isNone = false) :
    orderLt a b ∨ orderLt b c := by
  match a, b, c, ac, number with
  | some x, some y, some z, ac, _ =>
    simp only [orderLt, decide_eq_true_eq] at ac ⊢
    exact (lt_or_le x y).imp_right fun yx => lt_of_le_of_lt yx ac

theorem fieldLt_irrefl (a : Field) : fieldLt a a = false := by
  cases a <;> simp [fieldLt, orderLt_irrefl, bytesLt_irrefl]

theorem fieldLt_trans {a b c : Field} (ab : fieldLt a b) (bc : fieldLt b c) : fieldLt a c := by
  cases a <;> cases b <;> cases c <;> simp only [fieldLt, Field.index, decide_eq_true_eq] at ab bc ⊢ <;>
    first | omega | exact orderLt_trans ab bc | exact bytesLt_trans ab bc

theorem fieldLt_connect {a b c : Field} (ac : fieldLt a c) (number : b.isNaN = false) :
    fieldLt a b ∨ fieldLt b c := by
  cases a <;> cases b <;> cases c <;>
    simp only [fieldLt, Field.index, Field.isNaN, decide_eq_true_eq] at ac number ⊢ <;>
    try omega
  case double.double.double => exact orderLt_connect ac number
  case char.char.char a b c =>
    cases ab : bytesLt a b
    · cases ba : bytesLt b a
      · exact .inr (bytesLt_total ab ba ▸ ac)
      · exact .inr (bytesLt_trans ba ac)
    · exact .inl rfl

end Order

-- Two keys that order neither way: the map keeps them under one entry.
def sameKey (a b : Field) : Bool := !fieldLt a b && !fieldLt b a

section SameKey
variable {a b c : Field}

@[simp] theorem sameKey_refl (a : Field) : sameKey a a := by simp [sameKey, fieldLt_irrefl]

theorem sameKey_comm (a b : Field) : sameKey a b = sameKey b a := by
  simp [sameKey, Bool.and_comm]

theorem sameKey_of_lt (lt : fieldLt a b) : sameKey a b = false := by simp [sameKey, lt]

theorem sameKey_of_gt (gt : fieldLt b a) : sameKey a b = false := by simp [sameKey, gt]

theorem lt_of_sameKey_lt (ab : sameKey a b) (bc : fieldLt b c) (number : a.isNaN = false) : fieldLt a c := by
  simp only [sameKey, Bool.and_eq_true, Bool.not_eq_true'] at ab
  exact (fieldLt_connect bc number).resolve_left (by simp [ab.2])

theorem sameKey_trans (ab : sameKey a b) (bc : sameKey b c) (number : b.isNaN = false) : sameKey a c := by
  simp only [sameKey, Bool.and_eq_true, Bool.not_eq_true'] at ab bc
  simp only [sameKey, Bool.and_eq_true, Bool.not_eq_true']
  constructor
  · cases ac : fieldLt a c
    · rfl
    · simpa [ab.1, bc.1] using fieldLt_connect ac number
  · cases ca : fieldLt c a
    · rfl
    · simpa [ab.2, bc.2] using fieldLt_connect ca number

end SameKey

def KeyOrdered (groups : List (Field × Aggregator)) : Prop :=
  groups.Pairwise fun a b => fieldLt a.1 b.1

section Update
variable {key : Field} {change : Aggregator → Aggregator}

theorem keys_updateGroup {groups : List (Field × Aggregator)} {g : Field × Aggregator}
    (member : g ∈ updateGroup key change groups) : g.1 = key ∨ g.1 ∈ groups.map Prod.fst := by
  induction groups with
  | nil => simp_all [updateGroup]
  | cons entry rest ih =>
    obtain ⟨k, ag⟩ := entry
    simp only [List.map_cons, List.mem_cons]
    simp only [updateGroup] at member
    split_ifs at member <;> rcases List.mem_cons.mp member with rfl | member
    · exact .inr (.inl rfl)
    · exact (ih member).imp_right .inr
    · exact .inl rfl
    · exact .inr (List.mem_cons.mp (List.mem_map_of_mem Prod.fst member))
    · exact .inr (.inl rfl)
    · exact .inr (.inr (List.mem_map_of_mem Prod.fst member))

theorem KeyOrdered.update {groups : List (Field × Aggregator)} (ordered : KeyOrdered groups) :
    KeyOrdered (updateGroup key change groups) := by
  induction groups with
  | nil => exact List.pairwise_singleton _ _
  | cons entry rest ih =>
    obtain ⟨k, ag⟩ := entry
    obtain ⟨first, ordered⟩ := List.pairwise_cons.mp ordered
    simp only [updateGroup]
    split_ifs with before after
    · refine List.pairwise_cons.mpr ⟨fun g member => ?_, ih ordered⟩
      rcases keys_updateGroup member with same | known
      · rw [same]; exact before
      · obtain ⟨g', member', same⟩ := List.mem_map.mp known
        exact same ▸ first g' member'
    · exact List.pairwise_cons.mpr ⟨fun g member => by
        rcases List.mem_cons.mp member with rfl | member
        · exact after
        · exact fieldLt_trans after (first g member), List.pairwise_cons.mpr ⟨first, ordered⟩⟩
    · exact List.pairwise_cons.mpr ⟨first, ordered⟩

theorem mem_updateGroup {groups : List (Field × Aggregator)} (ordered : KeyOrdered groups)
    (number : key.isNaN = false) {g : Field × Aggregator} (member : g ∈ updateGroup key change groups) :
    (∃ g₀ ∈ groups, sameKey g₀.1 key ∧ g = (g₀.1, change g₀.2)) ∨
      ((∀ g₀ ∈ groups, sameKey g₀.1 key = false) ∧ g = (key, change .fresh)) ∨
      (g ∈ groups ∧ sameKey g.1 key = false) := by
  induction groups with
  | nil => simp_all [updateGroup]
  | cons entry rest ih =>
    obtain ⟨k, ag⟩ := entry
    obtain ⟨first, ordered⟩ := List.pairwise_cons.mp ordered
    simp only [updateGroup] at member
    split_ifs at member with before after
    · rcases List.mem_cons.mp member with rfl | member
      · exact .inr (.inr ⟨List.mem_cons_self _ _, sameKey_of_lt before⟩)
      · rcases ih ordered member with ⟨g₀, member₀, same, rfl⟩ | ⟨none, rfl⟩ | ⟨member', other⟩
        · exact .inl ⟨g₀, List.mem_cons_of_mem _ member₀, same, rfl⟩
        · refine .inr (.inl ⟨fun g₀ member₀ => ?_, rfl⟩)
          rcases List.mem_cons.mp member₀ with rfl | member₀
          · exact sameKey_of_lt before
          · exact none g₀ member₀
        · exact .inr (.inr ⟨List.mem_cons_of_mem _ member', other⟩)
    · rcases List.mem_cons.mp member with rfl | member
      · refine .inr (.inl ⟨fun g₀ member₀ => sameKey_of_gt ?_, rfl⟩)
        rcases List.mem_cons.mp member₀ with rfl | member₀
        · exact after
        · exact fieldLt_trans after (first g₀ member₀)
      · exact .inr (.inr ⟨member, by
          rcases List.mem_cons.mp member with rfl | member
          · exact sameKey_of_gt after
          · exact sameKey_of_gt (fieldLt_trans after (first g member))⟩)
    · have same : sameKey k key := by simp [sameKey, before, after]
      rcases List.mem_cons.mp member with rfl | member
      · exact .inl ⟨(k, ag), List.mem_cons_self _ _, same, rfl⟩
      · refine .inr (.inr ⟨List.mem_cons_of_mem _ member, sameKey_of_gt ?_⟩)
        exact lt_of_sameKey_lt ((sameKey_comm _ _).trans same) (first g member) number

theorem mem_updateGroup_of_other {groups : List (Field × Aggregator)} {g : Field × Aggregator} (member : g ∈ groups)
    (other : sameKey g.1 key = false) : g ∈ updateGroup key change groups := by
  induction groups with
  | nil => cases member
  | cons entry rest ih =>
    obtain ⟨k, ag⟩ := entry
    simp only [updateGroup]
    split_ifs with before after
    · rcases List.mem_cons.mp member with rfl | member
      · exact List.mem_cons_self _ _
      · exact List.mem_cons_of_mem _ (ih member)
    · exact List.mem_cons_of_mem _ member
    · rcases List.mem_cons.mp member with rfl | member
      · simp [sameKey, before, after] at other
      · exact List.mem_cons_of_mem _ member

theorem updateGroup_covers (groups : List (Field × Aggregator)) :
    ∃ g ∈ updateGroup key change groups, sameKey key g.1 := by
  induction groups with
  | nil => exact ⟨_, List.mem_singleton_self _, sameKey_refl key⟩
  | cons entry rest ih =>
    obtain ⟨k, ag⟩ := entry
    simp only [updateGroup]
    split_ifs with before after
    · obtain ⟨g, member, same⟩ := ih
      exact ⟨g, List.mem_cons_of_mem _ member, same⟩
    · exact ⟨_, List.mem_cons_self _ _, sameKey_refl key⟩
    · exact ⟨_, List.mem_cons_self _ _, by simp [sameKey, before, after]⟩

theorem groupAt_mem (groups : List (Field × Aggregator)) :
    groupAt key groups = .fresh ∨ ∃ k, (k, groupAt key groups) ∈ groups := by
  induction groups with
  | nil => exact .inl rfl
  | cons entry rest ih =>
    obtain ⟨k, ag⟩ := entry
    simp only [groupAt]
    split_ifs
    · exact ih.imp_right fun ⟨k', member⟩ => ⟨k', List.mem_cons_of_mem _ member⟩
    · exact .inl rfl
    · exact .inr ⟨k, List.mem_cons_self _ _⟩

theorem updateGroup_groupAt (f : Aggregator → Aggregator) (groups : List (Field × Aggregator)) :
    updateGroup key (fun _ => f (groupAt key groups)) groups = updateGroup key f groups := by
  induction groups with
  | nil => rfl
  | cons entry rest ih =>
    obtain ⟨k, ag⟩ := entry
    simp only [updateGroup, groupAt]
    split_ifs
    · rw [ih]
    · rfl
    · rfl

theorem mem_updateGroup_groupAt {groups : List (Field × Aggregator)} {g : Field × Aggregator}
    (member : g ∈ updateGroup key change groups) : g ∈ groups ∨ g.2 = change (groupAt key groups) := by
  induction groups with
  | nil => exact .inr (by rw [List.mem_singleton.mp member]; rfl)
  | cons entry rest ih =>
    obtain ⟨k, ag⟩ := entry
    simp only [updateGroup] at member
    simp only [groupAt]
    split_ifs at member ⊢ <;> rcases List.mem_cons.mp member with rfl | member
    · exact .inl (List.mem_cons_self _ _)
    · exact (ih member).imp_left (List.mem_cons_of_mem _)
    · exact .inr rfl
    · exact .inl member
    · exact .inr rfl
    · exact .inl (List.mem_cons_of_mem _ member)

end Update

-- GROUP BY of the records' (key, value) pairs: a group per class of keys, in key
-- order, holding its class's values in scan order fed into a fresh Aggregator.
structure Grouping (op : AggregateOp) (pairs : List (Field × Field)) (groups : List (Field × Aggregator)) : Prop where
  ascending : KeyOrdered groups
  keys : ∀ g ∈ groups, g.1 ∈ pairs.map Prod.fst
  covers : ∀ p ∈ pairs, ∃ g ∈ groups, sameKey p.1 g.1
  tallies : ∀ g ∈ groups, g.2 = Aggregator.feedAll op ((pairs.filter (sameKey ·.1 g.1)).map Prod.snd)

def groupAll (op : AggregateOp) (pairs : List (Field × Field)) : List (Field × Aggregator) :=
  pairs.foldl (fun groups p => updateGroup p.1 (Aggregator.feed op · p.2) groups) []

theorem groupAll_append (op : AggregateOp) (pairs : List (Field × Field)) (p : Field × Field) :
    groupAll op (pairs ++ [p]) = updateGroup p.1 (Aggregator.feed op · p.2) (groupAll op pairs) := by
  rw [groupAll, List.foldl_append]; rfl

section Grouping
variable {op : AggregateOp} {pairs : List (Field × Field)} {groups : List (Field × Aggregator)}

theorem Grouping.update (grouping : Grouping op pairs groups) (numbers : ∀ p ∈ pairs, p.1.isNaN = false)
    {p : Field × Field} (number : p.1.isNaN = false) :
    Grouping op (pairs ++ [p]) (updateGroup p.1 (Aggregator.feed op · p.2) groups) := by
  have keyNumber : ∀ g ∈ groups, g.1.isNaN = false := fun g member => by
    obtain ⟨q, member', same⟩ := List.mem_map.mp (grouping.keys g member)
    exact same ▸ numbers q member'
  refine ⟨grouping.ascending.update, fun g member => ?_, fun q member => ?_, fun g member => ?_⟩
  · rw [List.map_append, List.mem_append]
    rcases keys_updateGroup member with same | known
    · exact .inr (by simp [same])
    · obtain ⟨g', member', same⟩ := List.mem_map.mp known
      exact .inl (same ▸ grouping.keys g' member')
  · rcases List.mem_append.mp member with member | single
    · obtain ⟨g, member', same⟩ := grouping.covers q member
      cases other : sameKey g.1 p.1
      · exact ⟨g, mem_updateGroup_of_other member' other, same⟩
      · have cover : ∃ g' ∈ updateGroup p.1 (Aggregator.feed op · p.2) groups, sameKey p.1 g'.1 :=
          updateGroup_covers groups
        obtain ⟨g', member'', same'⟩ := cover
        exact ⟨g', member'', sameKey_trans (sameKey_trans same other (keyNumber g member')) same' number⟩
    · obtain rfl := List.mem_singleton.mp single
      exact updateGroup_covers groups
  · rcases mem_updateGroup grouping.ascending number member with ⟨g₀, member₀, same, rfl⟩ | ⟨none, rfl⟩ |
      ⟨member', other⟩
    · have joins : sameKey p.1 g₀.1 := (sameKey_comm _ _).trans same
      simp [Aggregator.feedAll, List.filter_append, joins, grouping.tallies g₀ member₀]
    · have empty : pairs.filter (sameKey ·.1 p.1) = [] := List.filter_eq_nil_iff.mpr fun q member same => by
        obtain ⟨g, member', same'⟩ := grouping.covers q member
        have := none g member'
        rw [sameKey_trans ((sameKey_comm _ _).trans same') (by simpa using same) (numbers q member)] at this
        cases this
      simp [Aggregator.feedAll, List.filter_append, empty]
    · have apart : sameKey p.1 g.1 = false := (sameKey_comm _ _).trans other
      simp [List.filter_append, apart, grouping.tallies g member']

end Grouping

end PagedDb
