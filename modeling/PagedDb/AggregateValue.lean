import PagedDb.AggregateGroup

namespace PagedDb

section Compare
variable {a b c : Field}

theorem orderLt_intToDouble (x y : BitVec 32) :
    orderLt (doubleOrder (intToDouble x)) (doubleOrder (intToDouble y)) = decide (x.toInt < y.toInt) := by
  have scaled : x.toInt * 2 ^ 1074 < y.toInt * 2 ^ 1074 ↔ x.toInt < y.toInt :=
    ⟨fun lt => Int.lt_of_mul_lt_mul_right lt (by omega), fun lt => Int.mul_lt_mul_of_pos_right lt (by omega)⟩
  simp only [doubleOrder, classify_intToDouble, orderLt, WithBot.coe_lt_coe, WithTop.coe_lt_coe, scaled]

theorem compareFields_lt_irrefl (a : Field) : compareFields a a .lt = false := by
  cases a <;> simp [compareFields, PredicateOp.test, compareDoubles, orderLt_irrefl, bytesLt_irrefl]

theorem compareFields_lt_trans (ab : compareFields a b .lt) (bc : compareFields b c .lt) : compareFields a c .lt := by
  cases a <;> cases b <;> cases c <;>
    simp only [compareFields, PredicateOp.test, compareDoubles, ← orderLt_intToDouble] at ab bc ⊢ <;>
    first | exact orderLt_trans ab bc | exact bytesLt_trans ab bc | cases ab | cases bc

theorem compareFields_gt (a b : Field) : compareFields a b .gt = compareFields b a .lt := by
  cases a <;> cases b <;> simp only [compareFields, PredicateOp.test, compareDoubles]

end Compare

section Extreme

def Extreme (better : Field → Field → Bool) (vals : List Field) (m : Field) : Prop :=
  m ∈ vals ∧ ∀ v ∈ vals, better v m = false

variable {better : Field → Field → Bool}

theorem extreme_single (irrefl : ∀ a, better a a = false) (v : Field) : Extreme better [v] v :=
  ⟨List.mem_singleton_self v, fun u member => by rw [List.mem_singleton.mp member]; exact irrefl v⟩

theorem Extreme.step {vals : List Field} {m : Field} (extreme : Extreme better vals m) (v : Field)
    (irrefl : ∀ a, better a a = false) (trans : ∀ {a b c}, better a b → better b c → better a c) :
    Extreme better (vals ++ [v]) (if better v m then v else m) := by
  obtain ⟨member, least⟩ := extreme
  by_cases wins : better v m
  · rw [if_pos wins]
    refine ⟨by simp, fun u member' => ?_⟩
    rcases List.mem_append.mp member' with member' | single
    · cases worse : better u v
      · rfl
      · simpa [least u member'] using trans worse wins
    · rw [List.mem_singleton.mp single]; exact irrefl v
  · rw [if_neg wins]
    refine ⟨by simp [member], fun u member' => ?_⟩
    rcases List.mem_append.mp member' with member' | single
    · exact least u member'
    · rw [List.mem_singleton.mp single]; simpa using wins

end Extreme

section Add
variable (ag : Aggregator) (v : Field)

@[simp] theorem accumulate_count : (ag.accumulate v).count = ag.count + 1 := by
  simp only [Aggregator.accumulate]; split_ifs <;> rfl

@[simp] theorem accumulate_op : (ag.accumulate v).op = ag.op := by
  simp only [Aggregator.accumulate]; split_ifs <;> rfl

@[simp] theorem accumulate_sum : (ag.accumulate v).sum = doubleAdd ag.sum v.numVal := by
  simp only [Aggregator.accumulate]; split_ifs <;> rfl

@[simp] theorem accumulate_isInitialized : (ag.accumulate v).isInitialized = true := by
  simp only [Aggregator.accumulate]; split_ifs <;> simp_all

theorem accumulate_sourceIsInt :
    (ag.accumulate v).sourceIsInt = if ag.isInitialized then ag.sourceIsInt else decide (v.fieldType = .int) := by
  simp only [Aggregator.accumulate]; split_ifs <;> simp_all

theorem accumulate_minVal : (ag.accumulate v).minVal =
    let m := if ag.isInitialized then ag.minVal else v
    if ag.op = .min ∧ compareFields v m .lt then v else m := by
  simp only [Aggregator.accumulate]; split_ifs <;> simp_all

theorem accumulate_maxVal : (ag.accumulate v).maxVal =
    let m := if ag.isInitialized then ag.maxVal else v
    if ag.op = .max ∧ compareFields v m .gt then v else m := by
  simp only [Aggregator.accumulate]; split_ifs <;> simp_all

@[simp] theorem feed_count (op : AggregateOp) : (ag.feed op v).count = ag.count + 1 := by
  rw [Aggregator.feed]; split <;> simp

@[simp] theorem feed_sum (op : AggregateOp) : (ag.feed op v).sum = doubleAdd ag.sum v.numVal := by
  rw [Aggregator.feed]; split <;> simp

theorem push_eq (op : AggregateOp) : ag.push op v =
    if ag.count < 2 ^ 31 - 1 then .ok (ag.feed op v) else .error countOverflow := by
  rw [Aggregator.push, Aggregator.feed]
  split <;> rfl

end Add

section Tally
variable (op : AggregateOp)

theorem feedAll_append (vals : List Field) (v : Field) :
    Aggregator.feedAll op (vals ++ [v]) = (Aggregator.feedAll op vals).feed op v := by
  simp [Aggregator.feedAll, List.foldl_append]

theorem feedAll_count (vals : List Field) : (Aggregator.feedAll op vals).count = vals.length := by
  induction vals using List.reverseRecOn with
  | nil => rfl
  | append_singleton vals v ih => simp [feedAll_append, ih]

-- tally runs into undefined behaviour at the value that would make count 2^31.
theorem tally_eq_feedAll (vals : List Field) : Aggregator.tally op vals =
    if vals.length < 2 ^ 31 then .ok (Aggregator.feedAll op vals)
    else .error countOverflow := by
  induction vals using List.reverseRecOn with
  | nil => rfl
  | append_singleton vals v ih =>
    have step : Aggregator.tally op (vals ++ [v]) = Aggregator.tally op vals >>= (Aggregator.push op · v) := by
      simp only [Aggregator.tally, List.foldlM_append, List.foldlM_cons, List.foldlM_nil, bind_pure]
    rw [step, ih, List.length_append, List.length_singleton]
    by_cases small : vals.length < 2 ^ 31
    · rw [if_pos small, except_ok_bind, push_eq, feedAll_count, feedAll_append]
      by_cases room : vals.length < 2 ^ 31 - 1
      · rw [if_pos room, if_pos (by omega)]
      · rw [if_neg room, if_neg (by omega)]
    · rw [if_neg small, if_neg (by omega)]
      rfl

theorem tally_bind_result (vals : List Field) : (Aggregator.tally op vals >>= Aggregator.result) =
    if vals.length < 2 ^ 31 then (Aggregator.feedAll op vals).result else .error countOverflow := by
  rw [tally_eq_feedAll]
  split <;> rfl

theorem feedAll_initialized (vals : List Field) : (Aggregator.feedAll op vals).isInitialized = !vals.isEmpty := by
  induction vals using List.reverseRecOn with
  | nil => rfl
  | append_singleton vals v ih =>
    rw [feedAll_append, Aggregator.feed]; split <;> simp

theorem feedAll_op {vals : List Field} (nonempty : vals ≠ []) : (Aggregator.feedAll op vals).op = op := by
  induction vals using List.reverseRecOn with
  | nil => exact absurd rfl nonempty
  | append_singleton vals v ih =>
    rw [feedAll_append, Aggregator.feed]
    split
    · simp
    · rename_i counted
      have : vals ≠ [] := fun empty => counted (by rw [feedAll_count, empty]; rfl)
      simp [ih this]

theorem feedAll_sourceIsInt (v : Field) (rest : List Field) :
    (Aggregator.feedAll op (v :: rest)).sourceIsInt = decide (v.fieldType = .int) := by
  induction rest using List.reverseRecOn with
  | nil => simp [Aggregator.feedAll, Aggregator.feed, Aggregator.fresh, accumulate_sourceIsInt]
  | append_singleton rest u ih =>
    rw [← List.cons_append, feedAll_append, Aggregator.feed]
    have initialized : (Aggregator.feedAll op (v :: rest)).isInitialized = true := by simp [feedAll_initialized]
    split <;> simp [accumulate_sourceIsInt, initialized, ih]

theorem feed_of_nonempty {vals : List Field} (nonempty : vals ≠ []) (v : Field) :
    (Aggregator.feedAll op vals).feed op v = (Aggregator.feedAll op vals).accumulate v := by
  rw [Aggregator.feed, if_neg (by rw [feedAll_count]; exact (List.length_pos.mpr nonempty).ne')]

theorem feedAll_single (v : Field) : Aggregator.feedAll op [v] = { Aggregator.fresh with op := op }.accumulate v := rfl

end Tally

section Results

theorem feedAll_minVal {vals : List Field} (nonempty : vals ≠ []) :
    Extreme (compareFields · · .lt) vals (Aggregator.feedAll .min vals).minVal := by
  induction vals using List.reverseRecOn with
  | nil => exact absurd rfl nonempty
  | append_singleton vals v ih =>
    rcases eq_or_ne vals [] with rfl | front
    · have single : (Aggregator.feedAll .min [v]).minVal = v := by
        simp [feedAll_single, accumulate_minVal, Aggregator.fresh, compareFields_lt_irrefl]
      rw [List.nil_append, single]
      exact extreme_single compareFields_lt_irrefl v
    · have initialized : (Aggregator.feedAll .min vals).isInitialized = true := by simp [feedAll_initialized, front]
      rw [feedAll_append, feed_of_nonempty _ front, accumulate_minVal]
      simp only [initialized, feedAll_op .min front, true_and, if_true]
      exact (ih front).step v compareFields_lt_irrefl compareFields_lt_trans

theorem feedAll_maxVal {vals : List Field} (nonempty : vals ≠ []) :
    Extreme (fun a b => compareFields b a .lt) vals (Aggregator.feedAll .max vals).maxVal := by
  have trans : ∀ {a b c : Field}, compareFields b a .lt → compareFields c b .lt → compareFields c a .lt :=
    fun ab bc => compareFields_lt_trans bc ab
  induction vals using List.reverseRecOn with
  | nil => exact absurd rfl nonempty
  | append_singleton vals v ih =>
    rcases eq_or_ne vals [] with rfl | front
    · have single : (Aggregator.feedAll .max [v]).maxVal = v := by
        simp [feedAll_single, accumulate_maxVal, Aggregator.fresh, compareFields_gt, compareFields_lt_irrefl]
      rw [List.nil_append, single]
      exact extreme_single compareFields_lt_irrefl v
    · have initialized : (Aggregator.feedAll .max vals).isInitialized = true := by simp [feedAll_initialized, front]
      rw [feedAll_append, feed_of_nonempty _ front, accumulate_maxVal]
      simp only [initialized, feedAll_op .max front, true_and, if_true, compareFields_gt]
      exact (ih front).step v compareFields_lt_irrefl trans

theorem tally_ok {op : AggregateOp} {vals : List Field} (small : vals.length < 2 ^ 31) :
    Aggregator.tally op vals = .ok (Aggregator.feedAll op vals) := by
  rw [tally_eq_feedAll, if_pos small]

-- MIN over fewer than 2^31 values gives one of them, and none of them is less.
theorem tally_min_result {vals : List Field} (nonempty : vals ≠ []) (small : vals.length < 2 ^ 31) :
    ∃ m, (Aggregator.tally .min vals >>= Aggregator.result) = .ok m ∧ m ∈ vals ∧
      ∀ v ∈ vals, compareFields v m .lt = false :=
  ⟨_, by simp [tally_ok small, Aggregator.result, feedAll_op .min nonempty], feedAll_minVal nonempty⟩

theorem tally_min_ints :
    ∃ m, (Aggregator.tally .min [.int 3, .int 1] >>= Aggregator.result) = .ok m ∧ m ∈ [Field.int 3, .int 1] ∧
      ∀ v ∈ [Field.int 3, .int 1], compareFields v m .lt = false :=
  tally_min_result (by decide) (by decide)

-- MAX over fewer than 2^31 values gives one of them, and none of them is greater.
theorem tally_max_result {vals : List Field} (nonempty : vals ≠ []) (small : vals.length < 2 ^ 31) :
    ∃ m, (Aggregator.tally .max vals >>= Aggregator.result) = .ok m ∧ m ∈ vals ∧
      ∀ v ∈ vals, compareFields v m .gt = false := by
  obtain ⟨member, most⟩ := feedAll_maxVal nonempty
  exact ⟨_, by simp [tally_ok small, Aggregator.result, feedAll_op .max nonempty], member, fun v inside => by
    rw [compareFields_gt]; exact most v inside⟩

theorem tally_max_strings :
    ∃ m, (Aggregator.tally .max [.char [97], .char [98, 1], .char [98]] >>= Aggregator.result) = .ok m ∧
      m ∈ [Field.char [97], .char [98, 1], .char [98]] ∧
      ∀ v ∈ [Field.char [97], .char [98, 1], .char [98]], compareFields v m .gt = false :=
  tally_max_result (by decide) (by decide)

-- COUNT gives the number of values, up to INT_MAX of them.
theorem tally_count_result (vals : List Field) :
    (Aggregator.tally .count vals >>= Aggregator.result) =
      if vals.length < 2 ^ 31 then .ok (.int (BitVec.ofNat 32 vals.length))
      else .error countOverflow := by
  rw [tally_bind_result]
  split
  · rcases eq_or_ne vals [] with rfl | nonempty
    · rfl
    · simp [Aggregator.result, feedAll_op .count nonempty, feedAll_count]
  · rfl

theorem toInt_natAbs_le (v : BitVec 32) : v.toInt.natAbs ≤ 2 ^ 31 := by
  have := v.isLt; rw [BitVec.toInt_eq_toNat_cond]; split <;> omega

theorem sum_natAbs_le (xs : List (BitVec 32)) : ((xs.map BitVec.toInt).sum).natAbs ≤ xs.length * 2 ^ 31 := by
  induction xs with
  | nil => simp
  | cons x xs ih =>
    have := toInt_natAbs_le x
    simp only [List.map_cons, List.sum_cons, List.length_cons]
    omega

theorem toInt_ofInt_of_fits {x : Int} (lo : -2 ^ 31 ≤ x) (hi : x < 2 ^ 31) : (BitVec.ofInt 32 x).toInt = x := by
  rw [BitVec.toInt_ofInt, Int.bmod_def]
  split <;> omega

theorem feedAll_sum_ints (op : AggregateOp) (xs : List (BitVec 32)) (small : xs.length < 2 ^ 22) :
    (Aggregator.feedAll op (xs.map .int)).sum = intDouble (xs.map BitVec.toInt).sum := by
  induction xs using List.reverseRecOn with
  | nil => rw [List.map_nil, List.map_nil, List.sum_nil, intDouble_zero]; rfl
  | append_singleton xs x ih =>
    have bound := sum_natAbs_le xs
    have shorter : xs.length < 2 ^ 22 := by simp at small; omega
    simp only [List.map_append, List.map_cons, List.map_nil, List.sum_append, List.sum_cons, List.sum_nil, Int.add_zero]
    rw [feedAll_append, feed_sum, ih shorter]
    exact doubleAdd_intDouble (by omega) (int_natAbs_lt x)

-- SUM over fewer than 2^22 ints: the double of their exact sum where it fits in an
-- int; beyond, static_cast<int> is undefined.
theorem tally_sum_result {xs : List (BitVec 32)} (nonempty : xs ≠ []) (small : xs.length < 2 ^ 22) :
    (Aggregator.tally .sum (xs.map .int) >>= Aggregator.result) =
      if -2 ^ 31 ≤ (xs.map BitVec.toInt).sum ∧ (xs.map BitVec.toInt).sum < 2 ^ 31 then
        .ok (.double (intDouble (xs.map BitVec.toInt).sum))
      else .error (.undefined "static_cast<int> of a double outside int's range") := by
  obtain ⟨x, rest, rfl⟩ := List.exists_cons_of_ne_nil nonempty
  have bound := sum_natAbs_le (x :: rest)
  have exact := classify_intDouble (x := ((x :: rest).map BitVec.toInt).sum)
    (by simp only [List.length_cons] at bound small; omega)
  have op : (Aggregator.feedAll .sum ((x :: rest).map .int)).op = .sum := feedAll_op .sum (by simp)
  have source : (Aggregator.feedAll .sum ((x :: rest).map .int)).sourceIsInt = true := by
    rw [List.map_cons, feedAll_sourceIsInt]; rfl
  rw [tally_ok (by simp only [List.length_map] at small ⊢; omega), except_ok_bind]
  simp only [Aggregator.result, op, source, if_true, feedAll_sum_ints _ _ small, doubleToInt_int exact]
  by_cases fits : -2 ^ 31 ≤ ((x :: rest).map BitVec.toInt).sum ∧ ((x :: rest).map BitVec.toInt).sum < 2 ^ 31
  · rw [if_pos fits, if_pos fits]
    show Except.ok (Field.double (intToDouble _)) = _
    rw [intToDouble_eq, toInt_ofInt_of_fits fits.1 fits.2]
  · rw [if_neg fits, if_neg fits]; rfl

theorem tally_sum_pair :
    (Aggregator.tally .sum (([5, -2] : List (BitVec 32)).map .int) >>= Aggregator.result) =
      if -2 ^ 31 ≤ (([5, -2] : List (BitVec 32)).map BitVec.toInt).sum ∧
          (([5, -2] : List (BitVec 32)).map BitVec.toInt).sum < 2 ^ 31 then
        .ok (.double (intDouble (([5, -2] : List (BitVec 32)).map BitVec.toInt).sum))
      else .error (.undefined "static_cast<int> of a double outside int's range") :=
  tally_sum_result (by decide) (by decide)

-- AVG over fewer than 2^22 ints: the double nearest their exact mean.
theorem tally_avg_result {xs : List (BitVec 32)} (nonempty : xs ≠ []) (small : xs.length < 2 ^ 22) :
    (Aggregator.tally .avg (xs.map .int) >>= Aggregator.result) =
      .ok (.double (quotientDouble (xs.map BitVec.toInt).sum xs.length)) := by
  have bound := sum_natAbs_le xs
  have pos : 0 < xs.length := List.length_pos.mpr nonempty
  have count : (BitVec.ofNat 32 xs.length).toInt = xs.length := by
    rw [BitVec.toInt_eq_toNat_cond, BitVec.toNat_ofNat]; split <;> omega
  have op : (Aggregator.feedAll .avg (xs.map .int)).op = .avg := feedAll_op .avg (by simpa using nonempty)
  rw [tally_ok (by simp only [List.length_map]; omega), except_ok_bind]
  simp only [Aggregator.result, op, feedAll_count, List.length_map,
    if_neg pos.ne', feedAll_sum_ints _ _ small, intToDouble_eq, count]
  rw [doubleDiv_intDouble (by omega) pos (by omega), except_pure]

theorem tally_avg_pair :
    (Aggregator.tally .avg (([5, -2] : List (BitVec 32)).map .int) >>= Aggregator.result) =
      .ok (.double (quotientDouble (([5, -2] : List (BitVec 32)).map BitVec.toInt).sum 2)) :=
  tally_avg_result (by decide) (by decide)

end Results

end PagedDb
