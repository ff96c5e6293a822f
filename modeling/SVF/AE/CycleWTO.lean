import Mathlib.Algebra.Order.BigOperators.Group.List
import SVF.AE.Widening
import SVF.Util.Loops

namespace SVF.AE.CycleWTO

open Relation NumericValue Intervals States Widening Util.DefaultMaps Util.Loops

/-- The transfers of a cycle: `handleWTOComponent` and `handleSingletonWTO` on
the head, and `handleWTOComponents` on the body. They read the state recorded
for the head and the environment, the states of all other nodes; the body
records no state for the head. -/
structure Cycle (Env : Type) where
  widenDelay : ℕ
  handleHead : AbstractState → Env → AbstractState × Env
  handleSingleton : AbstractState → Env → AbstractState × Env
  handleBody : AbstractState → Env → Env

structure LoopState (Env : Type) where
  cur_iter : ℕ
  increasing : Bool
  head : AbstractState
  env : Env
  exited : Bool

variable {Env : Type}

def iteration (cycle : Cycle Env) (s : LoopState Env) : LoopState Env :=
  if cycle.widenDelay ≤ s.cur_iter then
    let prev_head_state := s.head
    let (cur_head_state, env) := cycle.handleHead s.head s.env
    if s.increasing then
      let head := prev_head_state.widening cur_head_state
      if head.eq prev_head_state then ⟨s.cur_iter + 1, false, head, env, false⟩
      else ⟨s.cur_iter + 1, true, head, cycle.handleBody head env, false⟩
    else
      let head := prev_head_state.narrowing cur_head_state
      if head.eq prev_head_state then ⟨s.cur_iter, false, head, env, true⟩
      else ⟨s.cur_iter + 1, false, head, cycle.handleBody head env, false⟩
  else
    let (head, env) := cycle.handleSingleton s.head s.env
    ⟨s.cur_iter + 1, s.increasing, head, cycle.handleBody head env, false⟩

def start (head : AbstractState) (env : Env) : LoopState Env := ⟨0, true, head, env, false⟩

def handleCycleWTO (cycle : Cycle Env) (fuel : ℕ) (head : AbstractState) (env : Env) :
    Option (LoopState Env) :=
  whileLoop (fun s => !s.exited) (fun s => some (iteration cycle s)) fuel (start head env)

def Step (cycle : Cycle Env) (s t : LoopState Env) : Prop :=
  s.exited = false ∧ t = iteration cycle s

/-- No interval is `[+oo, +oo]` or `[-oo, -oo]`. -/
def Proper (as : AbstractState) : Prop :=
  ∀ m ∈ [as.varToAbsVal, as.addrToAbsVal], ∀ k, (m.get k).isInterval = true →
    (m.get k).interval.lb ≠ .plus_infinity ∧ (m.get k).interval.ub ≠ .minus_infinity

def Narrows (cycle : Cycle Env) (s : LoopState Env) : Prop :=
  s.exited = false ∧ cycle.widenDelay ≤ s.cur_iter ∧ s.increasing = false

def finiteBounds (v : AbstractValue) : ℕ :=
  (if v.interval.lb = .minus_infinity then 0 else 1) + (if v.interval.ub = .plus_infinity then 0 else 1)

/-- Bounds that narrowing can still replace, an infinity on the wrong side twice. -/
def infiniteBounds (v : AbstractValue) : ℕ :=
  (match v.interval.lb with
    | .num _ => 0
    | .minus_infinity => 1
    | .plus_infinity => 2) +
  (match v.interval.ub with
    | .num _ => 0
    | .plus_infinity => 1
    | .minus_infinity => 2)

def mapRank (rank : AbstractValue → ℕ) (m : AbsValMap) : ℕ :=
  (m.keys.map fun k => rank (m.get k)).sum

def stateRank (rank : AbstractValue → ℕ) (as : AbstractState) : ℕ :=
  mapRank rank as.varToAbsVal + mapRank rank as.addrToAbsVal

theorem equals_self (v : AbstractValue) : v.equals v = true := by
  simp [AbstractValue.equals, AddressValue.equals, Intervals.equals_self]

/-- A loop over a map that changes a value only by lowering its rank leaves an
equal map or one of lower rank. -/
theorem mapWithKey_equal_or_lt (rank : AbstractValue → ℕ) (m : AbsValMap)
    (f : NodeID → AbstractValue → AbstractValue)
    (hf : ∀ k ∈ m.keys, f k (m.get k) = m.get k ∨ rank (f k (m.get k)) < rank (m.get k)) :
    mapRank rank (m.mapWithKey f) ≤ mapRank rank m ∧
      (AbsValMap.eqVarToValMap (m.mapWithKey f) m = true ∨
        mapRank rank (m.mapWithKey f) < mapRank rank m) := by
  have hget : ∀ k ∈ m.keys, (m.mapWithKey f).get k = f k (m.get k) := by
    intro k hk
    rw [get_mapWithKey, if_pos hk]
  have hle : ∀ k ∈ m.keys, rank ((m.mapWithKey f).get k) ≤ rank (m.get k) := by
    intro k hk
    rw [hget k hk]
    rcases hf k hk with heq | hlt
    · rw [heq]
    · exact hlt.le
  refine ⟨List.sum_le_sum hle, ?_⟩
  by_cases hall : ∀ k ∈ m.keys, f k (m.get k) = m.get k
  · left
    simp only [AbsValMap.eqVarToValMap, keys_mapWithKey, beq_self_eq_true, Bool.true_and,
      List.all_eq_true, Bool.and_eq_true, decide_eq_true_eq]
    intro k hk
    refine ⟨hk, ?_⟩
    rw [hget k hk, hall k hk]
    exact equals_self _
  · right
    push Not at hall
    obtain ⟨k, hk, hne⟩ := hall
    refine List.sum_lt_sum _ _ hle ⟨k, hk, ?_⟩
    rw [hget k hk]
    exact (hf k hk).resolve_left hne

theorem widen_eq_or_lt {v other : AbstractValue} (hv : v.isInterval = true)
    (ho : other.isInterval = true) :
    v.widen_with other = v ∨ finiteBounds (v.widen_with other) < finiteBounds v := by
  obtain ⟨⟨lb, ub⟩, addrs⟩ := v
  obtain ⟨⟨lb', ub'⟩, addrs'⟩ := other
  simp only [AbstractValue.isInterval, Bool.not_eq_true'] at hv ho
  simp only [AbstractValue.widen_with, IntervalValue.widen_with, hv, ho, Bool.false_eq_true, if_false,
    finiteBounds]
  by_cases hlb : lb.leq lb'
  · by_cases hub : ub.geq ub'
    · simp [hlb, hub]
    · right
      have hne : ub ≠ .plus_infinity := by
        rintro rfl
        exact hub rfl
      simp [hlb, hub, hne]
  · right
    have hne : lb ≠ .minus_infinity := by
      rintro rfl
      exact hlb rfl
    by_cases hub : ub.geq ub' <;> simp [hlb, hub, hne]

theorem narrow_eq_or_lt {v other : AbstractValue} (hv : v.isInterval = true)
    (ho : other.isInterval = true) (hlb : other.interval.lb ≠ .plus_infinity)
    (hub : other.interval.ub ≠ .minus_infinity) :
    v.narrow_with other = v ∨ infiniteBounds (v.narrow_with other) < infiniteBounds v := by
  obtain ⟨⟨lb, ub⟩, addrs⟩ := v
  obtain ⟨⟨lb', ub'⟩, addrs'⟩ := other
  simp only [AbstractValue.isInterval, Bool.not_eq_true'] at hv ho
  simp only [AbstractValue.narrow_with, IntervalValue.narrow_with, hv, ho, Bool.or_self,
    Bool.false_eq_true, if_false, infiniteBounds]
  cases lb <;> cases lb' <;> cases ub <;> cases ub' <;>
    simp_all [BoundedInt.is_infinity, BoundedInt.is_plus_infinity, BoundedInt.is_minus_infinity]

theorem widening_equal_or_lt (m other : AbsValMap) :
    mapRank finiteBounds (AbsValMap.widening m other) ≤ mapRank finiteBounds m ∧
      (AbsValMap.eqVarToValMap (AbsValMap.widening m other) m = true ∨
        mapRank finiteBounds (AbsValMap.widening m other) < mapRank finiteBounds m) := by
  refine mapWithKey_equal_or_lt finiteBounds m _ fun k _ => ?_
  split
  · split
    · rename_i hint
      obtain ⟨hv, ho⟩ := Bool.and_eq_true_iff.mp hint
      exact widen_eq_or_lt hv ho
    · exact .inl rfl
  · exact .inl rfl

theorem narrowing_equal_or_lt (m other : AbsValMap)
    (hproper : ∀ k, (other.get k).isInterval = true →
      (other.get k).interval.lb ≠ .plus_infinity ∧ (other.get k).interval.ub ≠ .minus_infinity) :
    mapRank infiniteBounds (AbsValMap.narrowing m other) ≤ mapRank infiniteBounds m ∧
      (AbsValMap.eqVarToValMap (AbsValMap.narrowing m other) m = true ∨
        mapRank infiniteBounds (AbsValMap.narrowing m other) < mapRank infiniteBounds m) := by
  refine mapWithKey_equal_or_lt infiniteBounds m _ fun k _ => ?_
  split
  · split
    · rename_i hint
      obtain ⟨hv, ho⟩ := Bool.and_eq_true_iff.mp hint
      exact narrow_eq_or_lt hv ho (hproper k ho).1 (hproper k ho).2
    · exact .inl rfl
  · exact .inl rfl

theorem eq_or_lt_of_maps {rank : AbstractValue → ℕ} {es es' : AbstractState}
    (hvar : mapRank rank es'.varToAbsVal ≤ mapRank rank es.varToAbsVal ∧
      (AbsValMap.eqVarToValMap es'.varToAbsVal es.varToAbsVal = true ∨
        mapRank rank es'.varToAbsVal < mapRank rank es.varToAbsVal))
    (haddr : mapRank rank es'.addrToAbsVal ≤ mapRank rank es.addrToAbsVal ∧
      (AbsValMap.eqVarToValMap es'.addrToAbsVal es.addrToAbsVal = true ∨
        mapRank rank es'.addrToAbsVal < mapRank rank es.addrToAbsVal)) :
    es'.eq es = true ∨ stateRank rank es' < stateRank rank es := by
  obtain ⟨hvarle, hvar⟩ := hvar
  obtain ⟨haddrle, haddr⟩ := haddr
  rw [stateRank, stateRank]
  rcases hvar with hvar | hvar
  · rcases haddr with haddr | haddr
    · left
      simp [AbstractState.eq, hvar, haddr]
    · right
      omega
  · right
    omega

theorem widening_eq_or_lt (es other : AbstractState) : (es.widening other).eq es = true ∨
    stateRank finiteBounds (es.widening other) < stateRank finiteBounds es :=
  eq_or_lt_of_maps (widening_equal_or_lt _ _) (widening_equal_or_lt _ _)

theorem narrowing_eq_or_lt (es : AbstractState) {other : AbstractState} (h : Proper other) :
    (es.narrowing other).eq es = true ∨
      stateRank infiniteBounds (es.narrowing other) < stateRank infiniteBounds es :=
  eq_or_lt_of_maps (narrowing_equal_or_lt _ _ (h _ (by simp))) (narrowing_equal_or_lt _ _ (h _ (by simp)))

def loopRank (cycle : Cycle Env) (s : LoopState Env) : ℕ ×ₗ ℕ :=
  if s.exited then toLex (0, 0)
  else if s.cur_iter < cycle.widenDelay then toLex (3, cycle.widenDelay - s.cur_iter)
  else if s.increasing then toLex (2, stateRank finiteBounds s.head)
  else toLex (1, stateRank infiniteBounds s.head)

theorem loopRank_delay {cycle : Cycle Env} {s : LoopState Env} (hs : s.exited = false)
    (hdelay : s.cur_iter < cycle.widenDelay) :
    loopRank cycle (iteration cycle s) < loopRank cycle s := by
  have hrank : loopRank cycle s = toLex (3, cycle.widenDelay - s.cur_iter) := by
    simp [loopRank, hs, hdelay]
  rw [hrank, iteration, if_neg (by omega)]
  simp only [loopRank, Bool.false_eq_true, if_false]
  split
  · exact Prod.Lex.toLex_lt_toLex.mpr (.inr ⟨rfl, by simp only; omega⟩)
  · split
    · exact Prod.Lex.toLex_lt_toLex.mpr (.inl (by simp))
    · exact Prod.Lex.toLex_lt_toLex.mpr (.inl (by simp))

theorem loopRank_widen {cycle : Cycle Env} {s : LoopState Env} (hs : s.exited = false)
    (hdelay : cycle.widenDelay ≤ s.cur_iter) (hinc : s.increasing = true) :
    loopRank cycle (iteration cycle s) < loopRank cycle s := by
  have hrank : loopRank cycle s = toLex (2, stateRank finiteBounds s.head) := by
    simp [loopRank, hs, hinc, not_lt.mpr hdelay]
  have hafter : ¬ s.cur_iter + 1 < cycle.widenDelay := by omega
  rw [hrank, iteration, if_pos hdelay]
  simp only [hinc, if_true]
  split
  · simp only [loopRank, Bool.false_eq_true, if_false, hafter]
    exact Prod.Lex.toLex_lt_toLex.mpr (.inl (by simp))
  · rename_i hne
    simp only [loopRank, Bool.false_eq_true, if_false, hafter, if_true]
    exact Prod.Lex.toLex_lt_toLex.mpr (.inr ⟨rfl, (widening_eq_or_lt _ _).resolve_left hne⟩)

theorem loopRank_narrow {cycle : Cycle Env} {s : LoopState Env} (hs : Narrows cycle s)
    (hproper : Proper (cycle.handleHead s.head s.env).1) :
    loopRank cycle (iteration cycle s) < loopRank cycle s := by
  obtain ⟨hexit, hdelay, hinc⟩ := hs
  have hrank : loopRank cycle s = toLex (1, stateRank infiniteBounds s.head) := by
    simp [loopRank, hexit, hinc, not_lt.mpr hdelay]
  have hafter : ¬ s.cur_iter + 1 < cycle.widenDelay := by omega
  rw [hrank, iteration, if_pos hdelay]
  simp only [hinc, Bool.false_eq_true, if_false]
  split
  · simp only [loopRank, if_true]
    exact Prod.Lex.toLex_lt_toLex.mpr (.inl (by simp))
  · rename_i hne
    simp only [loopRank, Bool.false_eq_true, if_false, hafter]
    exact Prod.Lex.toLex_lt_toLex.mpr (.inr ⟨rfl, (narrowing_eq_or_lt _ hproper).resolve_left hne⟩)

theorem loopRank_lt {cycle : Cycle Env} {s : LoopState Env} (hs : s.exited = false)
    (hproper : Narrows cycle s → Proper (cycle.handleHead s.head s.env).1) :
    loopRank cycle (iteration cycle s) < loopRank cycle s := by
  by_cases hdelay : s.cur_iter < cycle.widenDelay
  · exact loopRank_delay hs hdelay
  · rw [not_lt] at hdelay
    cases hinc : s.increasing with
    | true => exact loopRank_widen hs hdelay hinc
    | false => exact loopRank_narrow ⟨hs, hdelay, hinc⟩ (hproper ⟨hs, hdelay, hinc⟩)

theorem run_reachable {cycle : Cycle Env} {run : ℕ → LoopState Env}
    (hstep : ∀ n, Step cycle (run n) (run (n + 1))) (n : ℕ) :
    ReflTransGen (Step cycle) (run 0) (run n) := by
  induction n with
  | zero => exact .refl
  | succ n ih => exact ih.tail (hstep n)

theorem no_infinite_run {cycle : Cycle Env} {run : ℕ → LoopState Env}
    (hstep : ∀ n, Step cycle (run n) (run (n + 1)))
    (hproper : ∀ n, Narrows cycle (run n) → Proper (cycle.handleHead (run n).head (run n).env).1) :
    False := by
  refine not_strictAnti_of_wellFoundedLT (fun n => loopRank cycle (run n)) (strictAnti_nat_of_succ_lt ?_)
  intro n
  obtain ⟨hs, ht⟩ := hstep n
  rw [ht]
  exact loopRank_lt hs (hproper n)

/-- The widening phase of the loop always ends, and the loop exits when no head
state met while narrowing has an interval `[+oo, +oo]` or `[-oo, -oo]`. -/
theorem handleCycleWTO_terminates (cycle : Cycle Env) (head : AbstractState) (env : Env) :
    (∀ run : ℕ → LoopState Env, run 0 = start head env → (∀ n, Step cycle (run n) (run (n + 1))) →
      ∃ n, (run n).increasing = false) ∧
    ((∀ s, ReflTransGen (Step cycle) (start head env) s → Narrows cycle s →
        Proper (cycle.handleHead s.head s.env).1) →
      ∃ fuel t, handleCycleWTO cycle fuel head env = some t) := by
  constructor
  · intro run _ hstep
    by_contra hinc
    push Not at hinc
    exact no_infinite_run hstep fun n hn => absurd hn.2.2 (hinc n)
  · intro hproper
    refine exists_whileLoop (R := Step cycle) ?_ ?_ ?_
    · intro s t hg hbody
      exact ⟨by simpa using hg, (Option.some.inj hbody).symm⟩
    · intro u _ _
      exact ⟨_, rfl⟩
    · rintro ⟨run, hstart, hstep⟩
      exact no_infinite_run hstep fun n => hproper _ (hstart ▸ run_reachable hstep n)

def single (v : IntervalValue) : AbstractState := ⟨DefaultMap.empty.set 0#32 ⟨v, []⟩, .empty⟩

theorem get_single (v : IntervalValue) (k : NodeID) :
    (single v).varToAbsVal.get k = if k = 0#32 then ⟨v, []⟩ else default := rfl

theorem proper_single {v : IntervalValue} (hlb : v.lb ≠ .plus_infinity) (hub : v.ub ≠ .minus_infinity) :
    Proper (single v) := by
  intro m hm k hk
  simp only [List.mem_cons, List.not_mem_nil, or_false] at hm
  rcases hm with rfl | rfl
  · rw [get_single] at hk ⊢
    split
    · exact ⟨hlb, hub⟩
    · rename_i hne
      rw [if_neg hne] at hk
      contradiction
  · contradiction

def steadyCycle : Cycle Unit where
  widenDelay := 1
  handleHead _ env := (single ⟨.num 0, .num 10⟩, env)
  handleSingleton head env := (head, env)
  handleBody _ env := env

theorem handleCycleWTO_terminates_steady :
    ∃ fuel t, handleCycleWTO steadyCycle fuel (single .top) () = some t :=
  (handleCycleWTO_terminates steadyCycle (single .top) ()).2
    fun _ _ _ => proper_single (by decide) (by decide)

/-- A cycle that turns the whole line at its head into `[+oo, +oo]`, and
anything else into the whole line. -/
def swingingCycle : Cycle Unit where
  widenDelay := 0
  handleHead head env :=
    (single (if (head.varToAbsVal.get 0#32).interval = .top then ⟨.plus_infinity, .plus_infinity⟩
      else .top), env)
  handleSingleton head env := (head, env)
  handleBody _ env := env

structure Swings (s : LoopState Unit) : Prop where
  narrowing : s.increasing = false
  running : s.exited = false
  keys : s.head.varToAbsVal.keys = [0#32]
  value : s.head.varToAbsVal.get 0#32 = ⟨.top, []⟩ ∨
    s.head.varToAbsVal.get 0#32 = ⟨⟨.plus_infinity, .plus_infinity⟩, []⟩

theorem narrowing_single {m : AbsValMap} {v w : IntervalValue} (hkeys : m.keys = [0#32])
    (hvalue : m.get 0#32 = ⟨v, []⟩) (hv : v.isBottom = false) (hw : w.isBottom = false) :
    (AbsValMap.narrowing m (single w).varToAbsVal).get 0#32 = ⟨v.narrow_with w, []⟩ := by
  have hkey : 0#32 ∈ (single w).varToAbsVal.keys := (mem_keys_set _ _ _ _).mpr (.inr rfl)
  simp [AbsValMap.narrowing, get_mapWithKey, hkeys, hvalue, hkey, get_single,
    AbstractValue.isInterval, hv, hw, AbstractValue.narrow_with]

theorem narrowing_single_ne {m : AbsValMap} {v w : IntervalValue} (hkeys : m.keys = [0#32])
    (hvalue : m.get 0#32 = ⟨v, []⟩) (hv : v.isBottom = false) (hw : w.isBottom = false)
    (hne : (v.narrow_with w).equals v = false) :
    AbsValMap.eqVarToValMap (AbsValMap.narrowing m (single w).varToAbsVal) m = false := by
  have hget := narrowing_single hkeys hvalue hv hw
  have hkeys' : (AbsValMap.narrowing m (single w).varToAbsVal).keys = [0#32] := hkeys
  simp [AbsValMap.eqVarToValMap, hkeys, hkeys', hget, hvalue, AbstractValue.equals, hne]

/-- The head receives `w` while it holds `v`, and takes it over. -/
theorem swings_of_handleHead {s : LoopState Unit} {v w : IntervalValue} (hinc : s.increasing = false)
    (hkeys : s.head.varToAbsVal.keys = [0#32]) (hvalue : s.head.varToAbsVal.get 0#32 = ⟨v, []⟩)
    (hhead : swingingCycle.handleHead s.head s.env = (single w, ())) (hv : v.isBottom = false)
    (hw : w.isBottom = false) (hne : (v.narrow_with w).equals v = false) :
    iteration swingingCycle s = ⟨s.cur_iter + 1, false, s.head.narrowing (single w), (), false⟩ ∧
      (s.head.narrowing (single w)).varToAbsVal.get 0#32 = ⟨v.narrow_with w, []⟩ := by
  have hdiff : ((s.head.narrowing (single w)).eq s.head) = false := by
    rw [AbstractState.eq, AbstractState.narrowing, narrowing_single_ne hkeys hvalue hv hw hne,
      Bool.false_and]
  refine ⟨?_, narrowing_single hkeys hvalue hv hw⟩
  simp only [iteration, hinc, hhead, hdiff, Bool.false_eq_true, if_false]
  exact if_pos (Nat.zero_le _)

theorem swings_iteration {s : LoopState Unit} (h : Swings s) : Swings (iteration swingingCycle s) := by
  obtain ⟨hinc, hrun, hkeys, hvalue⟩ := h
  rcases hvalue with hvalue | hvalue
  · have hhead : swingingCycle.handleHead s.head s.env =
        (single ⟨.plus_infinity, .plus_infinity⟩, ()) := by
      simp [swingingCycle, hvalue]
    obtain ⟨hit, hget⟩ := swings_of_handleHead hinc hkeys hvalue hhead (by decide) (by decide) (by decide)
    rw [hit]
    exact ⟨rfl, rfl, hkeys, .inr (hget.trans (by decide))⟩
  · have hhead : swingingCycle.handleHead s.head s.env = (single .top, ()) := by
      simp [swingingCycle, hvalue, IntervalValue.top]
    obtain ⟨hit, hget⟩ := swings_of_handleHead hinc hkeys hvalue hhead (by decide) (by decide) (by decide)
    rw [hit]
    exact ⟨rfl, rfl, hkeys, .inl (hget.trans (by decide))⟩

theorem swings_forever {s : LoopState Unit} (h : Swings s) (fuel : ℕ) :
    whileLoop (fun s => !s.exited) (fun s => some (iteration swingingCycle s)) fuel s = none := by
  induction fuel generalizing s with
  | zero => simp [whileLoop, h.running]
  | succ fuel ih => simp [whileLoop, h.running, ih (swings_iteration h)]

theorem handleCycleWTO_diverges :
    ¬ ∀ (Env : Type) (cycle : Cycle Env) (head : AbstractState) (env : Env),
      ∃ fuel t, handleCycleWTO cycle fuel head env = some t := by
  intro h
  obtain ⟨fuel, t, ht⟩ := h Unit swingingCycle (single .top) ()
  have hfirst : Swings (iteration swingingCycle (start (single .top) ())) :=
    ⟨by decide, by decide, by decide, by decide⟩
  cases fuel with
  | zero => simp [handleCycleWTO, whileLoop, start] at ht
  | succ fuel =>
      rw [handleCycleWTO, whileLoop, if_pos (by rfl), Option.bind_some, swings_forever hfirst] at ht
      contradiction

end SVF.AE.CycleWTO
