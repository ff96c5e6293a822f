import SVF.AE.Widening

namespace SVF.AE.StateOrder

open NumericValue NumericValue.BoundedInt Intervals Intervals.IntervalValue States Widening Util.DefaultMaps

def contain (v other : IntervalValue) : Bool :=
  if v.isBottom then true
  else if other.isBottom then false
  else other.lb.geq v.lb && v.ub.geq other.ub

namespace AbsValMap

def geqVarToValMap (lhs rhs : AbsValMap) : Bool :=
  if rhs.keys.isEmpty then true
  else rhs.keys.all fun key => key ∈ lhs.keys && contain (lhs.get key).interval (rhs.get key).interval

def meetWith (m other : AbsValMap) : AbsValMap :=
  other.keys.foldl (fun m key =>
    if key ∈ m.keys then m.modify key (·.meet_with (other.get key)) else m) m

end AbsValMap

namespace AbstractState

def geq (lhs rhs : AbstractState) : Bool :=
  AbsValMap.geqVarToValMap lhs.varToAbsVal rhs.varToAbsVal &&
    AbsValMap.geqVarToValMap lhs.addrToAbsVal rhs.addrToAbsVal

def meetWith (es other : AbstractState) : AbstractState :=
  ⟨AbsValMap.meetWith es.varToAbsVal other.varToAbsVal, AbsValMap.meetWith es.addrToAbsVal other.addrToAbsVal⟩

end AbstractState

variable {m m' m'' : AbsValMap} {u v w : IntervalValue} {k : NodeID}

def Bounds (v w : IntervalValue) : Prop := v.lb ≤ w.lb ∧ w.ub ≤ v.ub

theorem contain_iff (v w : IntervalValue) : contain v w = true ↔ v = bottom ∨ w ≠ bottom ∧ Bounds v w := by
  rw [contain, Bounds]
  by_cases hv : v.isBottom = true
  · rw [if_pos hv]
    exact iff_of_true rfl (.inl ((isBottom_iff v).mp hv))
  · rw [if_neg hv, or_iff_right (mt (isBottom_iff v).mpr hv)]
    by_cases hw : w.isBottom = true
    · rw [if_pos hw]
      exact iff_of_false Bool.false_ne_true fun h => h.1 ((isBottom_iff w).mp hw)
    · rw [if_neg hw, and_iff_right (mt (isBottom_iff w).mpr hw), Bool.and_eq_true, geq_iff, geq_iff]

theorem contain_refl (v : IntervalValue) : contain v v = true := by
  rw [contain_iff]
  by_cases hv : v = bottom
  · exact .inl hv
  · exact .inr ⟨hv, le_rfl, le_rfl⟩

theorem contain_trans (h : contain u v = true) (h' : contain v w = true) : contain u w = true := by
  rw [contain_iff] at h h' ⊢
  rcases h with h | ⟨hne, hlow, hhigh⟩
  · exact .inl h
  · obtain ⟨hw, hlow', hhigh'⟩ := h'.resolve_left hne
    exact .inr ⟨hw, hlow.trans hlow', hhigh'.trans hhigh⟩

theorem bounds_join (v w : IntervalValue) (hv : v ≠ bottom) : v.join_with w ≠ bottom ∧ Bounds (v.join_with w) v := by
  rw [join_with, if_neg (mt (isBottom_iff v).mp hv)]
  split
  · exact ⟨hv, le_rfl, le_rfl⟩
  · rw [min_eq_inf, max_eq_sup]
    refine ⟨fun h => hv ?_, inf_le_left, le_sup_left⟩
    obtain ⟨lb, ub⟩ := v
    obtain ⟨hlow, hhigh⟩ := IntervalValue.mk.inj h
    have hlb : lb = .plus_infinity := le_antisymm (le_plus_infinity _) (hlow.ge.trans inf_le_left)
    have hub : ub = .minus_infinity := le_antisymm (le_sup_left.trans hhigh.le) (minus_infinity_le _)
    rw [hlb, hub]
    rfl

theorem bounds_join_right (v w : IntervalValue) (hw : w ≠ bottom) :
    v.join_with w ≠ bottom ∧ Bounds (v.join_with w) w := by
  have hwb := mt (isBottom_iff w).mp hw
  by_cases hv : v = bottom
  · rw [join_with, if_pos ((isBottom_iff v).mpr hv), if_neg hwb]
    exact ⟨hw, le_rfl, le_rfl⟩
  · refine ⟨(bounds_join v w hv).1, ?_⟩
    rw [join_with, if_neg (mt (isBottom_iff v).mp hv), if_neg hwb]
    rw [Bounds, min_eq_inf, max_eq_sup]
    exact ⟨inf_le_right, le_sup_right⟩

theorem contain_join_iff (v w : IntervalValue) :
    (contain (v.join_with w) v = true ↔ (v = bottom → w = bottom)) ∧
      (contain (v.join_with w) w = true ↔ (w = bottom → v = bottom)) := by
  have hbottom : v = bottom → w = bottom → v.join_with w = bottom := by
    rintro rfl rfl
    rfl
  constructor
  · rw [contain_iff]
    constructor
    · rintro (h | h) hv
      · by_contra hw
        exact (bounds_join_right v w hw).1 h
      · exact absurd hv h.1
    · intro h
      by_cases hv : v = bottom
      · exact .inl (hbottom hv (h hv))
      · exact .inr ⟨hv, (bounds_join v w hv).2⟩
  · rw [contain_iff]
    constructor
    · rintro (h | h) hw
      · by_contra hv
        exact (bounds_join v w hv).1 h
      · exact absurd hw h.1
    · intro h
      by_cases hw : w = bottom
      · exact .inl (hbottom (h hw) hw)
      · exact .inr ⟨hw, (bounds_join_right v w hw).2⟩

theorem equals_iff_contain (v w : IntervalValue) :
    v.equals w = true ↔ contain v w = true ∧ contain w v = true := by
  constructor
  · intro h
    rw [eq_of_equals h]
    exact ⟨contain_refl w, contain_refl w⟩
  · rintro ⟨h, h'⟩
    rw [contain_iff] at h h'
    suffices heq : v = w by
      rw [heq]
      exact equals_self w
    rcases h with hv | ⟨hw, hlow, hhigh⟩
    · exact hv.trans (h'.resolve_right fun h => h.1 hv).symm
    · obtain ⟨-, hlow', hhigh'⟩ := h'.resolve_left hw
      obtain ⟨lb, ub⟩ := v
      obtain ⟨lb', ub'⟩ := w
      rw [IntervalValue.mk.injEq]
      exact ⟨le_antisymm hlow hlow', le_antisymm hhigh' hhigh⟩

theorem geq_iff_contain : AbsValMap.geqVarToValMap m m' = true ↔
    ∀ k ∈ m'.keys, k ∈ m.keys ∧ contain (m.get k).interval (m'.get k).interval = true := by
  rw [AbsValMap.geqVarToValMap]
  split
  · rename_i hempty
    rw [List.isEmpty_iff.mp hempty]
    exact iff_of_true rfl fun k hk => absurd hk List.not_mem_nil
  · simp only [List.all_eq_true, Bool.and_eq_true, decide_eq_true_iff]

theorem geqMap_refl (m : AbsValMap) : AbsValMap.geqVarToValMap m m = true :=
  geq_iff_contain.mpr fun _ hk => ⟨hk, contain_refl _⟩

theorem geqMap_trans (h : AbsValMap.geqVarToValMap m m' = true) (h' : AbsValMap.geqVarToValMap m' m'' = true) :
    AbsValMap.geqVarToValMap m m'' = true := by
  rw [geq_iff_contain] at h h' ⊢
  intro k hk
  obtain ⟨hmem, hcontain⟩ := h' k hk
  obtain ⟨hmem', hcontain'⟩ := h k hmem
  exact ⟨hmem', contain_trans hcontain' hcontain⟩

theorem keys_joinWith (m other : AbsValMap) (k : NodeID) :
    k ∈ (States.AbsValMap.joinWith m other).keys ↔ k ∈ m.keys ∨ k ∈ other.keys := by
  rw [States.AbsValMap.joinWith]
  generalize other.keys = l
  induction l generalizing m with
  | nil => simp
  | cons key l ih =>
      rw [List.foldl_cons, ih, List.mem_cons]
      split
      · rename_i hmem
        rw [mem_keys_modify]
        constructor
        · rintro ((h | rfl) | h)
          · exact .inl h
          · exact .inl hmem
          · exact .inr (.inr h)
        · rintro (h | rfl | h)
          · exact .inl (.inl h)
          · exact .inl (.inl hmem)
          · exact .inr h
      · rw [mem_keys_set, or_assoc]

theorem interval_joinWith (hm : k ∈ m.keys) (hm' : k ∈ m'.keys) :
    ((States.AbsValMap.joinWith m m').get k).interval = (m.get k).interval.join_with (m'.get k).interval := by
  rw [get_joinWith, if_pos hm', if_pos hm]
  rfl

def SameBottoms (m m' : AbsValMap) : Prop :=
  ∀ k ∈ m.keys, k ∈ m'.keys → ((m.get k).interval = bottom ↔ (m'.get k).interval = bottom)

theorem joinWith_geq_iff (m m' : AbsValMap) :
    AbsValMap.geqVarToValMap (States.AbsValMap.joinWith m m') m = true ∧
      AbsValMap.geqVarToValMap (States.AbsValMap.joinWith m m') m' = true ↔ SameBottoms m m' := by
  rw [geq_iff_contain, geq_iff_contain]
  constructor
  · rintro ⟨hleft, hright⟩ k hk hk'
    have hl := (hleft k hk).2
    have hr := (hright k hk').2
    rw [interval_joinWith hk hk'] at hl hr
    exact ⟨(contain_join_iff _ _).1.mp hl, (contain_join_iff _ _).2.mp hr⟩
  · intro h
    constructor
    · intro k hk
      refine ⟨(keys_joinWith m m' k).mpr (.inl hk), ?_⟩
      by_cases hk' : k ∈ m'.keys
      · rw [interval_joinWith hk hk']
        exact (contain_join_iff _ _).1.mpr (h k hk hk').mp
      · rw [get_joinWith, if_neg hk']
        exact contain_refl _
    · intro k hk'
      refine ⟨(keys_joinWith m m' k).mpr (.inr hk'), ?_⟩
      by_cases hk : k ∈ m.keys
      · rw [interval_joinWith hk hk']
        exact (contain_join_iff _ _).2.mpr (h k hk hk').mpr
      · rw [get_joinWith, if_pos hk', if_neg hk]
        exact contain_refl _

def Above (m m' : AbsValMap) : Prop :=
  ∀ k ∈ m'.keys, k ∈ m.keys ∧ ((m.get k).interval ≠ bottom → Bounds (m.get k).interval (m'.get k).interval)

def AddrsWithin (m m' : AbsValMap) : Prop := ∀ k, ∀ a ∈ (m'.get k).addrs, a ∈ (m.get k).addrs

theorem SameBottoms.symm (h : SameBottoms m m') : SameBottoms m' m := fun k hk hk' => (h k hk' hk).symm

theorem geqMap_iff_above (h : SameBottoms m m') : AbsValMap.geqVarToValMap m m' = true ↔ Above m m' := by
  rw [geq_iff_contain]
  refine forall_congr' fun k => forall_congr' fun hk' => and_congr_right fun hk => ?_
  rw [contain_iff, Ne, ← h k hk hk']
  constructor
  · intro hcontain hne
    exact (hcontain.resolve_left hne).2
  · intro hbounds
    by_cases hbottom : (m.get k).interval = bottom
    · exact .inl hbottom
    · exact .inr ⟨hbottom, hbounds hbottom⟩

theorem describesAll_of_above (hbottoms : SameBottoms m m') (habove : Above m m') (haddrs : AddrsWithin m m')
    {f : NodeID → Option Value} (h : DescribesAll m' f) : DescribesAll m f := by
  intro k w hw
  have hdescribes := h k w hw
  cases w with
  | addr a => exact haddrs k a hdescribes
  | int n =>
      by_cases hk' : k ∈ m'.keys
      · obtain ⟨hk, hbounds⟩ := habove k hk'
        have hmem : n.toInt ∈ (m'.get k).interval.concretize := hdescribes
        by_cases hbottom : (m.get k).interval = bottom
        · rw [(hbottoms k hk hk').mp hbottom, concretize_bottom] at hmem
          exact hmem.elim
        · obtain ⟨hlow, hhigh⟩ := hbounds hbottom
          rw [mem_concretize] at hmem
          exact (mem_concretize _ _).mpr ⟨hlow.trans hmem.1, hmem.2.trans hhigh⟩
      · rw [m'.get_absent k hk'] at hdescribes
        exact absurd hdescribes (not_describes_default _)

theorem get_meetWith (m other : AbsValMap) (k : NodeID) : (AbsValMap.meetWith m other).get k =
    if k ∈ other.keys ∧ k ∈ m.keys then (m.get k).meet_with (other.get k) else m.get k := by
  rw [AbsValMap.meetWith, get_foldl_local _ _ other.nodup]
  · by_cases hk : k ∈ other.keys <;> by_cases hm : k ∈ m.keys <;> simp [hk, hm, get_modify]
  · intro m key j hj
    split <;> simp [get_modify, hj]
  · intro m m' key hget hkeys
    simp [hkeys, apply_ite (DefaultMap.get · key), get_modify, hget]

theorem describesAll_meet {f : NodeID → Option Value} (h : DescribesAll m f) (h' : DescribesAll m' f) :
    DescribesAll (AbsValMap.meetWith m m') f := by
  intro k w hw
  rw [get_meetWith]
  split
  · have hv := h k w hw
    have hv' := h' k w hw
    cases w with
    | int n =>
        change n.toInt ∈ ((m.get k).interval.meet_with (m'.get k).interval).concretize
        rw [concretize_meet]
        exact ⟨hv, hv'⟩
    | addr a => exact List.mem_filter.mpr ⟨hv', decide_eq_true hv⟩
  · exact h k w hw

theorem eqMap_iff : States.AbsValMap.eqVarToValMap m m' = true ↔
    AbsValMap.geqVarToValMap m m' = true ∧ AbsValMap.geqVarToValMap m' m = true ∧
      AddrsWithin m m' ∧ AddrsWithin m' m := by
  have hequals : ∀ k, (m.get k).equals (m'.get k) = true ↔
      (contain (m.get k).interval (m'.get k).interval = true ∧
        contain (m'.get k).interval (m.get k).interval = true) ∧
        (∀ a ∈ (m.get k).addrs, a ∈ (m'.get k).addrs) ∧ ∀ a ∈ (m'.get k).addrs, a ∈ (m.get k).addrs := by
    intro k
    rw [AbstractValue.equals, Bool.and_eq_true, equals_iff_contain, AddressValue.equals, Bool.and_eq_true,
      List.all_eq_true, List.all_eq_true]
    simp only [decide_eq_true_iff]
  rw [States.AbsValMap.eqVarToValMap, Bool.and_eq_true, beq_iff_eq, List.all_eq_true, geq_iff_contain,
    geq_iff_contain]
  simp only [Bool.and_eq_true, decide_eq_true_iff, hequals]
  constructor
  · rintro ⟨hlength, hall⟩
    have hsub : m.keys ⊆ m'.keys := fun k hk => (hall k hk).1
    have hperm := (List.subperm_of_subset m.nodup hsub).perm_of_length_le hlength.ge
    have hsame : ∀ k, k ∈ m'.keys → k ∈ m.keys := fun k hk => hperm.mem_iff.mpr hk
    refine ⟨fun k hk => ⟨hsame k hk, (hall k (hsame k hk)).2.1.1⟩, fun k hk => ⟨hsub hk, (hall k hk).2.1.2⟩,
      fun k a ha => ?_, fun k a ha => ?_⟩
    · by_cases hk : k ∈ m.keys
      · exact (hall k hk).2.2.2 a ha
      · rw [m'.get_absent k (fun h => hk (hsame k h))] at ha
        exact absurd ha List.not_mem_nil
    · by_cases hk : k ∈ m.keys
      · exact (hall k hk).2.2.1 a ha
      · rw [m.get_absent k hk] at ha
        exact absurd ha List.not_mem_nil
  · rintro ⟨hright, hleft, haddrs, haddrs'⟩
    have hperm : m.keys.Perm m'.keys := (List.perm_ext_iff_of_nodup m.nodup m'.nodup).mpr fun k =>
      ⟨fun hk => (hleft k hk).1, fun hk => (hright k hk).1⟩
    exact ⟨hperm.length_eq, fun k hk => ⟨(hleft k hk).1,
      ⟨(hright k (hleft k hk).1).2, (hleft k hk).2⟩, fun a ha => haddrs' k a ha, fun a ha => haddrs k a ha⟩⟩

section

structure OrderAgrees (A B : AbstractState) : Prop where
  refl : AbstractState.geq A A = true
  trans : ∀ C, AbstractState.geq A B = true → AbstractState.geq B C = true → AbstractState.geq A C = true
  sound : AbstractState.geq A B = true → ∀ c, Describes B c → Describes A c
  antisymm : A.eq B = true ↔ AbstractState.geq A B = true ∧ AbstractState.geq B A = true
  joinLeft : AbstractState.geq (A.joinWith B) A = true
  joinRight : AbstractState.geq (A.joinWith B) B = true
  meet : ∀ c, Describes A c → Describes B c → Describes (AbstractState.meetWith A B) c

def StateSameBottoms (A B : AbstractState) : Prop :=
  SameBottoms A.varToAbsVal B.varToAbsVal ∧ SameBottoms A.addrToAbsVal B.addrToAbsVal

def StateAbove (A B : AbstractState) : Prop :=
  Above A.varToAbsVal B.varToAbsVal ∧ Above A.addrToAbsVal B.addrToAbsVal

def StateAddrsWithin (A B : AbstractState) : Prop :=
  AddrsWithin A.varToAbsVal B.varToAbsVal ∧ AddrsWithin A.addrToAbsVal B.addrToAbsVal

variable {A B C : AbstractState}

theorem geq_iff_maps : AbstractState.geq A B = true ↔
    AbsValMap.geqVarToValMap A.varToAbsVal B.varToAbsVal = true ∧
      AbsValMap.geqVarToValMap A.addrToAbsVal B.addrToAbsVal = true := by
  rw [AbstractState.geq, Bool.and_eq_true]

theorem geq_refl (A : AbstractState) : AbstractState.geq A A = true :=
  geq_iff_maps.mpr ⟨geqMap_refl _, geqMap_refl _⟩

theorem geq_trans (h : AbstractState.geq A B = true) (h' : AbstractState.geq B C = true) :
    AbstractState.geq A C = true := by
  rw [geq_iff_maps] at h h' ⊢
  exact ⟨geqMap_trans h.1 h'.1, geqMap_trans h.2 h'.2⟩

theorem geq_iff_above (h : StateSameBottoms A B) : AbstractState.geq A B = true ↔ StateAbove A B :=
  geq_iff_maps.trans (and_congr (geqMap_iff_above h.1) (geqMap_iff_above h.2))

theorem eq_iff_geq : A.eq B = true ↔ (AbstractState.geq A B = true ∧ AbstractState.geq B A = true) ∧
    StateAddrsWithin A B ∧ StateAddrsWithin B A := by
  rw [States.AbstractState.eq, Bool.and_eq_true, eqMap_iff, eqMap_iff, geq_iff_maps, geq_iff_maps,
    StateAddrsWithin, StateAddrsWithin]
  tauto

def oneValue (k : NodeID) (w : Value) (j : NodeID) : Option Value := if j = k then some w else none

theorem describesAll_oneValue {w : Value} (h : (m.get k).Describes w) : DescribesAll m (oneValue k w) := by
  intro j u hu
  rw [oneValue] at hu
  split at hu
  · rename_i hj
    obtain rfl := Option.some.inj hu
    rwa [hj]
  · contradiction

theorem describesAll_none (m : AbsValMap) : DescribesAll m fun _ => none := fun _ _ hw => by cases hw

theorem addrsWithin_of_sound (h : ∀ c, Describes B c → Describes A c) : StateAddrsWithin A B := by
  constructor
  · intro k a ha
    have hone := describesAll_oneValue (w := .addr a) ha
    exact (h ⟨_, fun _ => none⟩ ⟨hone, describesAll_none _⟩).vars k (.addr a) (if_pos rfl)
  · intro k a ha
    have hone := describesAll_oneValue (w := .addr a) ha
    exact (h ⟨fun _ => none, _⟩ ⟨describesAll_none _, hone⟩).mem k (.addr a) (if_pos rfl)

theorem orderAgrees_iff (A B : AbstractState) : OrderAgrees A B ↔
    StateSameBottoms A B ∧ (StateAbove A B → StateAddrsWithin A B) ∧
      (StateAbove A B → StateAbove B A → StateAddrsWithin B A) := by
  constructor
  · intro h
    have hleft := geq_iff_maps.mp h.joinLeft
    have hright := geq_iff_maps.mp h.joinRight
    have hbottoms : StateSameBottoms A B :=
      ⟨(joinWith_geq_iff _ _).mp ⟨hleft.1, hright.1⟩, (joinWith_geq_iff _ _).mp ⟨hleft.2, hright.2⟩⟩
    have hbottoms' : StateSameBottoms B A := ⟨hbottoms.1.symm, hbottoms.2.symm⟩
    refine ⟨hbottoms, fun habove => ?_, fun habove habove' => ?_⟩
    · exact addrsWithin_of_sound (h.sound ((geq_iff_above hbottoms).mpr habove))
    · exact (eq_iff_geq.mp (h.antisymm.mpr
        ⟨(geq_iff_above hbottoms).mpr habove, (geq_iff_above hbottoms').mpr habove'⟩)).2.2
  · rintro ⟨hbottoms, haddrs, haddrs'⟩
    have hbottoms' : StateSameBottoms B A := ⟨hbottoms.1.symm, hbottoms.2.symm⟩
    have hvars := (joinWith_geq_iff _ _).mpr hbottoms.1
    have hmem := (joinWith_geq_iff _ _).mpr hbottoms.2
    refine ⟨geq_refl A, fun C => geq_trans, fun hgeq c hc => ?_, ?_, geq_iff_maps.mpr ⟨hvars.1, hmem.1⟩,
      geq_iff_maps.mpr ⟨hvars.2, hmem.2⟩, fun c hA hB => ?_⟩
    · have habove := (geq_iff_above hbottoms).mp hgeq
      exact ⟨describesAll_of_above hbottoms.1 habove.1 (haddrs habove).1 hc.vars,
        describesAll_of_above hbottoms.2 habove.2 (haddrs habove).2 hc.mem⟩
    · rw [eq_iff_geq]
      refine and_iff_left_of_imp fun ⟨hgeq, hgeq'⟩ => ?_
      have habove := (geq_iff_above hbottoms).mp hgeq
      exact ⟨haddrs habove, haddrs' habove ((geq_iff_above hbottoms').mp hgeq')⟩
    · exact ⟨describesAll_meet hA.vars hB.vars, describesAll_meet hA.mem hB.mem⟩

/-- A pointer without interval is above a number, and not above its join with it. -/
theorem order_disagrees : ¬ ∀ A B, OrderAgrees A B := by
  intro h
  have hsound := (h ⟨DefaultMap.empty.set 1 ⟨.bottom, [0x7f000005]⟩, .empty⟩
    ⟨DefaultMap.empty.set 1 ⟨.ofInt 5, []⟩, .empty⟩).sound
  have hgeq : AbstractState.geq ⟨DefaultMap.empty.set 1 ⟨.bottom, [0x7f000005]⟩, .empty⟩
      ⟨DefaultMap.empty.set 1 ⟨.ofInt 5, []⟩, .empty⟩ = true := by decide
  have hdescribes : Describes ⟨DefaultMap.empty.set 1 ⟨.ofInt 5, []⟩, .empty⟩
      ⟨oneValue 1 (.int 5), fun _ => none⟩ :=
    ⟨describesAll_oneValue (by decide), describesAll_none _⟩
  have hnot := (hsound hgeq _ hdescribes).vars 1 (.int 5) rfl
  exact absurd hnot (by decide)

end

end SVF.AE.StateOrder
