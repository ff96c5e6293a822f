import Mathlib.Algebra.BigOperators.Fin
import Mathlib.Algebra.Order.BigOperators.Group.Finset
import SVF.SABER.ProgSlice
import SVF.Util.Folds
import SVF.Util.PathConditions

namespace SVF.SABER.GuardCoverage

open Relation SaberCondAllocator ProgSlice Util.Z3Expr Util.Propagation

variable {BB K : Type} {n : ℕ} [DecidableEq BB] [DecidableEq K] {z : Z3 n} {maxZ3Size : ℕ}
  {s t : CondState K n} {k : K} {cond guard : Expr n}

def holds (e : Expr n) : Set (Assignment n) := {v | e.eval v = true}

/-- The branches that have been found for each key, and the keys on the worklist. -/
def marking (s : CondState K n) : Marking K (Assignment n) :=
  ⟨fun k => holds (s.getCond k), {k | k ∈ s.worklist}⟩

theorem isEquivalentBranchCond_solver (z : Z3 n) (s : Solver n) (lhs rhs : Expr n) :
    (isEquivalentBranchCond z s lhs rhs).2 = s := rfl

theorem isEquivalentBranchCond_new (z : Z3 n) (lhs rhs : Expr n) :
    (isEquivalentBranchCond z .new lhs rhs).1 = true ↔ ∀ v, lhs.eval v = rhs.eval v := by
  have hcheck := checkExpr_new z (binary .distinct lhs rhs)
  simp only [eval_binary, Op.eval, decide_eq_false_iff_not, List.nodup_cons, List.mem_singleton,
    List.not_mem_nil, not_false_eq_true, List.nodup_nil, and_true, not_not] at hcheck
  rw [← hcheck, isEquivalentBranchCond]
  exact decide_eq_true_iff

theorem setCond_solver (s : CondState K n) (k : K) (cond : Expr n) :
    (s.setCond z k cond).2.solver = s.solver := by
  rw [CondState.setCond]
  split
  · dsimp only
    split <;> exact isEquivalentBranchCond_solver z s.solver _ _
  · rfl

theorem setCond_worklist (s : CondState K n) (k : K) (cond : Expr n) :
    (s.setCond z k cond).2.worklist = s.worklist := by
  rw [CondState.setCond]
  split
  · dsimp only
    split <;> rfl
  · rfl

/-- Either nothing happens, and the condition has been equivalent before, or it is
set, and has not been. -/
theorem setCond_cases (hs : s.solver = .new) (k : K) (cond : Expr n) :
    s.setCond z k cond = (false, s) ∧ holds (s.getCond k) = holds cond ∨
      s.setCond z k cond = (true, { s with conds := Function.update s.conds k (some cond) }) ∧
        (s.conds k = none ∨ holds (s.getCond k) ≠ holds cond) := by
  cases hold : s.conds k with
  | none =>
      right
      rw [CondState.setCond, hold]
      exact ⟨rfl, .inl rfl⟩
  | some old =>
      have hget : s.getCond k = old := by
        rw [CondState.getCond, hold]
        rfl
      have hiff := isEquivalentBranchCond_new z old cond
      rw [← hs] at hiff
      have hholds : (∀ v, old.eval v = cond.eval v) ↔ holds old = holds cond :=
        ⟨fun h => Set.ext fun v => Bool.eq_iff_iff.mp (h v),
          fun h v => Bool.eq_iff_iff.mpr (Set.ext_iff.mp h v)⟩
      rw [hholds] at hiff
      rw [CondState.setCond, hold, hget]
      dsimp only
      rw [isEquivalentBranchCond_solver]
      by_cases hsame : (isEquivalentBranchCond z s.solver old cond).1 = true
      · rw [if_pos hsame]
        exact .inl ⟨rfl, hiff.mp hsame⟩
      · rw [if_neg hsame]
        exact .inr ⟨rfl, .inr fun h => hsame (hiff.mpr h)⟩

theorem getCond_update (s : CondState K n) (k : K) (cond : Expr n) (j : K) :
    ({ s with conds := Function.update s.conds k (some cond) } : CondState K n).getCond j =
      if j = k then cond else s.getCond j := by
  by_cases hj : j = k
  · subst hj
    simp [CondState.getCond]
  · simp [CondState.getCond, hj]

theorem holds_setCond (hs : s.solver = .new) (k : K) (cond : Expr n) (j : K) :
    holds ((s.setCond z k cond).2.getCond j) = if j = k then holds cond else holds (s.getCond j) := by
  rcases setCond_cases hs k cond with ⟨heq, hsame⟩ | ⟨heq, -⟩
  · rw [heq]
    split
    · rename_i hj
      rw [hj, hsame]
    · rfl
  · rw [heq, getCond_update]
    split <;> rfl

def joined (z : Z3 n) (maxZ3Size : ℕ) (cond guard : Expr n) (s : CondState K n) (k : K) : Expr n :=
  (OR z maxZ3Size s.solver (s.getCond k) (AND z maxZ3Size s.solver cond guard).1).1

theorem relax_eq (s : CondState K n) (cond guard : Expr n) (k : K) :
    s.relax z maxZ3Size cond guard k =
      if (s.setCond z k (joined z maxZ3Size cond guard s k)).1 then
        (s.setCond z k (joined z maxZ3Size cond guard s k)).2.push k
      else (s.setCond z k (joined z maxZ3Size cond guard s k)).2 := by
  simp only [CondState.relax, joined, AND_solver, OR_solver]
  rfl

theorem relax_solver (s : CondState K n) (cond guard : Expr n) (k : K) :
    (s.relax z maxZ3Size cond guard k).solver = s.solver := by
  rw [relax_eq]
  split
  · exact setCond_solver s k _
  · exact setCond_solver s k _

theorem holds_relax (hs : s.solver = .new) (j : K) :
    holds ((s.relax z maxZ3Size cond guard k).getCond j) =
      if j = k then holds (joined z maxZ3Size cond guard s k) else holds (s.getCond j) := by
  rw [relax_eq, ← holds_setCond (z := z) hs]
  split <;> rfl

omit [DecidableEq K] in
theorem subset_joined (hs : s.solver = .new) :
    holds (s.getCond k) ∪ holds cond ∩ holds guard ⊆ holds (joined z maxZ3Size cond guard s k) := by
  intro v hv
  rw [joined, hs]
  refine le_eval_OR (hv.imp id fun h => ?_)
  exact le_eval_AND h.1 h.2

omit [DecidableEq K] in
theorem joined_subset (hs : s.solver = .new) (hand : andFits z maxZ3Size cond guard = true)
    (hor : orFits z maxZ3Size (s.getCond k) (AND z maxZ3Size .new cond guard).1 = true) :
    holds (joined z maxZ3Size cond guard s k) ⊆ holds (s.getCond k) ∪ holds cond ∩ holds guard := by
  intro v hv
  rw [joined, hs] at hv
  have heval : (OR z maxZ3Size .new (s.getCond k) (AND z maxZ3Size .new cond guard).1).1.eval v =
      true := hv
  rw [eval_OR hor, eval_AND hand] at heval
  simpa [holds] using heval

theorem mem_push (s : CondState K n) (k j : K) : j ∈ (s.push k).worklist ↔ j ∈ s.worklist ∨ j = k := by
  rw [CondState.push]
  change j ∈ (if k ∈ s.worklist then s.worklist else s.worklist ++ [k]) ↔ _
  split
  · rename_i hk
    exact ⟨.inl, fun h => h.elim id fun hj => hj ▸ hk⟩
  · simp

theorem relax_relaxed (hs : s.solver = .new) (cond guard : Expr n) (k : K) :
    Relaxed (holds cond) (k, holds guard) (marking s)
      (marking (s.relax z maxZ3Size cond guard k)) where
  grows := by
    intro u
    change holds (s.getCond u) ⊆ holds ((s.relax z maxZ3Size cond guard k).getCond u)
    rw [holds_relax hs]
    split
    · rename_i hu
      exact hu ▸ Set.subset_union_left.trans (subset_joined hs)
    · exact subset_rfl
  added := by
    change _ ⊆ holds ((s.relax z maxZ3Size cond guard k).getCond k)
    rw [holds_relax hs, if_pos rfl]
    exact Set.subset_union_right.trans (subset_joined hs)
  same := by
    intro u
    by_cases hu : u = k
    · subst hu
      rcases setCond_cases (z := z) hs u (joined z maxZ3Size cond guard s u) with ⟨heq, -⟩ | ⟨heq, -⟩
      · left
        have hsame : s.relax z maxZ3Size cond guard u = s := by
          rw [relax_eq, heq]
          rfl
        rw [hsame]
      · right
        change u ∈ (s.relax z maxZ3Size cond guard u).worklist
        rw [relax_eq, heq]
        exact (mem_push _ u u).mpr (.inr rfl)
    · left
      change holds ((s.relax z maxZ3Size cond guard k).getCond u) = holds (s.getCond u)
      rw [holds_relax hs, if_neg hu]
  pending := by
    intro u hu
    change u ∈ (s.relax z maxZ3Size cond guard k).worklist
    have hwork : u ∈ (s.setCond z k (joined z maxZ3Size cond guard s k)).2.worklist :=
      (setCond_worklist (z := z) s k _).symm ▸ hu
    rw [relax_eq]
    split
    · exact (mem_push _ k u).mpr (.inl hwork)
    · exact hwork

theorem mem_relax_worklist {j : K} (h : j ∈ (s.relax z maxZ3Size cond guard k).worklist) :
    j ∈ s.worklist ∨ j = k := by
  rw [relax_eq] at h
  split at h
  · rw [mem_push, setCond_worklist] at h
    exact h
  · rw [setCond_worklist] at h
    exact .inl h

section

def weight : Option (Expr n) → ℕ
  | none => Fintype.card (Assignment n) + 1
  | some e => (Finset.univ.filter fun v : Assignment n => e.eval v = false).card

variable [Fintype K]

def potential (s : CondState K n) : ℕ := ∑ k, weight (s.conds k)

def remaining (s : CondState K n) : ℕ := potential s + s.worklist.length

def fuelBound (K : Type) [Fintype K] (n : ℕ) : ℕ :=
  Fintype.card K * (Fintype.card (Assignment n) + 1) + 2

omit [DecidableEq K] in
theorem remaining_pop {rest : List K} (h : s.worklist = k :: rest) :
    remaining { s with worklist := rest } + 1 = remaining s := by
  rw [remaining, remaining, h]
  rfl

omit [DecidableEq K] in
theorem remaining_lt_fuelBound (h : s.worklist.length ≤ 1) : remaining s < fuelBound K n := by
  have hweight : ∀ k ∈ Finset.univ, weight (s.conds k) ≤ Fintype.card (Assignment n) + 1 := by
    intro k _
    cases s.conds k with
    | none => exact le_rfl
    | some e => exact (Finset.card_le_univ _).trans (Nat.le_succ _)
  have hsum := Finset.sum_le_card_nsmul _ _ _ hweight
  rw [smul_eq_mul, Finset.card_univ] at hsum
  rw [remaining, fuelBound, potential]
  omega

omit [DecidableEq K] [Fintype K] in
theorem weight_joined_lt (hs : s.solver = .new)
    (h : s.conds k = none ∨ holds (s.getCond k) ≠ holds (joined z maxZ3Size cond guard s k)) :
    weight (some (joined z maxZ3Size cond guard s k)) < weight (s.conds k) := by
  cases hold : s.conds k with
  | none => exact Nat.lt_succ_of_le (Finset.card_le_univ _)
  | some old =>
      have hget : s.getCond k = old := by
        rw [CondState.getCond, hold]
        rfl
      have hne := h.resolve_left (by simp [hold])
      have hsub : holds old ⊆ holds (joined z maxZ3Size cond guard s k) :=
        hget ▸ Set.subset_union_left.trans (subset_joined hs)
      rw [hget] at hne
      refine Finset.card_lt_card (Finset.ssubset_iff_subset_ne.mpr ⟨fun v hv => ?_, fun heq => hne ?_⟩)
      · rw [Finset.mem_filter] at hv ⊢
        refine ⟨hv.1, Bool.eq_false_iff.mpr fun htrue => ?_⟩
        have hjoined := hsub htrue
        exact Bool.false_ne_true (hv.2.symm.trans hjoined)
      · refine hsub.antisymm fun v hv => ?_
        by_contra hnot
        have hmem : v ∈ Finset.univ.filter fun v : Assignment n => old.eval v = false :=
          Finset.mem_filter.mpr ⟨Finset.mem_univ v, Bool.eq_false_iff.mpr hnot⟩
        rw [← heq, Finset.mem_filter] at hmem
        exact Bool.false_ne_true (hmem.2.symm.trans hv)

theorem relax_remaining (hs : s.solver = .new) (cond guard : Expr n) (k : K) :
    remaining (s.relax z maxZ3Size cond guard k) ≤ remaining s := by
  rw [relax_eq]
  rcases setCond_cases (z := z) hs k (joined z maxZ3Size cond guard s k) with ⟨heq, -⟩ | ⟨heq, hnew⟩
  · rw [heq]
    exact le_rfl
  · rw [heq, if_pos rfl]
    have hlt := weight_joined_lt hs hnew
    have hpotential : (∑ j, weight (Function.update s.conds k
        (some (joined z maxZ3Size cond guard s k)) j)) < potential s := by
      refine Finset.sum_lt_sum (fun j _ => ?_) ⟨k, Finset.mem_univ k, ?_⟩
      · by_cases hj : j = k
        · subst hj
          rw [Function.update_self]
          exact hlt.le
        · rw [Function.update_of_ne hj]
      · rw [Function.update_self]
        exact hlt
    have hlength : (if k ∈ s.worklist then s.worklist else s.worklist ++ [k]).length ≤
        s.worklist.length + 1 := by
      split <;> simp
    change (∑ j, weight (Function.update s.conds k (some (joined z maxZ3Size cond guard s k)) j)) +
      (if k ∈ s.worklist then s.worklist else s.worklist ++ [k]).length ≤
        potential s + s.worklist.length
    omega

end

section

variable {a : Allocator BB (Expr n)} {src dst bb : BB} {c d : CondState BB n}

/-- The edges of the control flow, each with the branches under which it is taken. -/
def cfEdges (a : Allocator BB (Expr n)) : Edges BB (Assignment n) :=
  fun u => {p | p.1 ∈ a.getSuccessors u ∧ p.2 = holds (brCond a u p.1)}

def FlowsTo (a : Allocator BB (Expr n)) : BB → BB → Prop :=
  ReflTransGen fun u w => w ∈ a.getSuccessors u

def NoEarlyReturn (a : Allocator BB (Expr n)) (src dst : BB) : Prop :=
  ∀ bb, FlowsTo a src bb → evaluateLoopExitBranch a bb dst = none

/-- The loop is not run, or it does not return at a loop header. -/
def GuardComplete (a : Allocator BB (Expr n)) (src dst : BB) : Prop :=
  a.postDominate dst src = true ∨ NoEarlyReturn a src dst

structure LoopInv (a : Allocator BB (Expr n)) (src : BB) (c : CondState BB n) : Prop where
  solver : c.solver = .new
  closed : Closed (cfEdges a) (marking c)
  worklist : ∀ bb ∈ c.worklist, FlowsTo a src bb

theorem foldl_relax_visiting {l : List BB} {done : Set (BB × Set (Assignment n))}
    (hc : c.solver = .new) (h : Visiting (cfEdges a) bb (holds cond) done (marking c)) :
    Visiting (cfEdges a) bb (holds cond) (done ∪ {p | p.1 ∈ l ∧ p.2 = holds (brCond a bb p.1)})
      (marking (l.foldl (fun c w => c.relax z maxZ3Size cond (brCond a bb w) w) c)) := by
  induction l generalizing c done with
  | nil => exact ⟨h.closed, h.popped, fun p hp => h.done p (hp.resolve_right fun hl => by simp at hl)⟩
  | cons w l ih =>
      have hrelax : Relaxed (holds cond) (w, holds (brCond a bb w)) (marking c)
          (marking (c.relax z maxZ3Size cond (brCond a bb w) w)) := relax_relaxed hc cond _ w
      have hrest := ih ((relax_solver c cond _ w).trans hc) (h.relaxed hrelax)
      refine ⟨hrest.closed, hrest.popped, fun p hp => hrest.done p ?_⟩
      rcases hp with hp | ⟨hmem, hguard⟩
      · exact .inl (.inr hp)
      · rcases List.mem_cons.mp hmem with heq | hmem
        · exact .inl (.inl (Prod.ext heq (by rw [hguard, heq])))
        · exact .inr ⟨hmem, hguard⟩

theorem foldl_relax_grows {l : List BB} (hc : c.solver = .new) (u : BB) :
    holds (c.getCond u) ⊆
      holds ((l.foldl (fun c w => c.relax z maxZ3Size cond (brCond a bb w) w) c).getCond u) := by
  induction l generalizing c with
  | nil => exact subset_rfl
  | cons w l ih =>
      exact ((relax_relaxed hc cond (brCond a bb w) w).grows u).trans
        (ih ((relax_solver c cond _ w).trans hc))

theorem foldl_relax_solver (l : List BB) (c : CondState BB n) :
    (l.foldl (fun c w => c.relax z maxZ3Size cond (brCond a bb w) w) c).solver = c.solver :=
  Util.Folds.foldl_invariant (I := fun d : CondState BB n => d.solver = c.solver)
    (fun w _ d hd => (relax_solver d cond _ w).trans hd) rfl

theorem mem_foldl_relax_worklist {l : List BB} {u : BB}
    (h : u ∈ (l.foldl (fun c w => c.relax z maxZ3Size cond (brCond a bb w) w) c).worklist) :
    u ∈ c.worklist ∨ u ∈ l := by
  induction l generalizing c with
  | nil => exact .inl h
  | cons w l ih =>
      rcases ih h with h | h
      · rcases mem_relax_worklist h with h | rfl
        · exact .inl h
        · exact .inr List.mem_cons_self
      · exact .inr (List.mem_cons_of_mem w h)

theorem LoopInv.visit (h : LoopInv a src c) {rest : List BB} (hwork : c.worklist = bb :: rest) :
    LoopInv a src (visitSuccessors z maxZ3Size a bb (c.getCond bb) { c with worklist := rest }) ∧
      ∀ u, holds (c.getCond u) ⊆ holds
        ((visitSuccessors z maxZ3Size a bb (c.getCond bb) { c with worklist := rest }).getCond u) := by
  have hflow : ∀ u ∈ bb :: rest, FlowsTo a src u := hwork ▸ h.worklist
  have hstart : Visiting (cfEdges a) bb (holds (c.getCond bb)) ∅
      (marking { c with worklist := rest }) := by
    refine Visiting.start h.closed fun u hu hne => ?_
    have hmem : u ∈ bb :: rest := hwork ▸ hu
    exact (List.mem_cons.mp hmem).resolve_left hne
  have hvisit := @foldl_relax_visiting _ _ _ z maxZ3Size (c.getCond bb) a bb
    { c with worklist := rest } (a.getSuccessors bb) _ h.solver hstart
  refine ⟨⟨(foldl_relax_solver _ _).trans h.solver, hvisit.finish ?_, fun u hu => ?_⟩,
    fun u => @foldl_relax_grows _ _ _ z maxZ3Size (c.getCond bb) a bb
      { c with worklist := rest } _ h.solver u⟩
  · exact fun p hp => .inr hp
  · rcases mem_foldl_relax_worklist hu with hu | hu
    · exact hflow u (List.mem_cons_of_mem bb hu)
    · exact (hflow bb List.mem_cons_self).tail hu

theorem guardLoop_closed (hearly : NoEarlyReturn a src dst) {fuel : ℕ} (hc : LoopInv a src c)
    (h : guardLoop z maxZ3Size a dst fuel c = some (guard, d)) :
    LoopInv a src d ∧ d.worklist = [] ∧ guard = d.getCond dst ∧
      ∀ u, holds (c.getCond u) ⊆ holds (d.getCond u) := by
  induction fuel generalizing c with
  | zero => contradiction
  | succ fuel ih =>
      cases hwork : c.worklist with
      | nil =>
          rw [guardLoop, hwork] at h
          obtain ⟨rfl, rfl⟩ := Prod.mk.inj (Option.some.inj h)
          exact ⟨hc, hwork, rfl, fun u => subset_rfl⟩
      | cons bb rest =>
          have hnone := hearly bb (hc.worklist bb (hwork ▸ List.mem_cons_self))
          rw [guardLoop, hwork] at h
          dsimp only at h
          rw [hnone] at h
          obtain ⟨hvisit, hgrows⟩ := @LoopInv.visit _ _ _ z maxZ3Size _ _ _ _ hc _ hwork
          obtain ⟨hd, hempty, hguard, hrest⟩ := ih hvisit h
          exact ⟨hd, hempty, hguard, fun u => (hgrows u).trans (hrest u)⟩

theorem guardLoop_solver {fuel : ℕ} (h : guardLoop z maxZ3Size a dst fuel c = some (guard, d)) :
    d.solver = c.solver := by
  induction fuel generalizing c with
  | zero => contradiction
  | succ fuel ih =>
      cases hwork : c.worklist with
      | nil =>
          rw [guardLoop, hwork] at h
          rw [(Prod.mk.inj (Option.some.inj h)).2]
      | cons bb rest =>
          rw [guardLoop, hwork] at h
          dsimp only at h
          cases hexit : evaluateLoopExitBranch a bb dst with
          | some loopExitCond =>
              rw [hexit] at h
              rw [← (Prod.mk.inj (Option.some.inj h)).2]
              exact AND_solver z maxZ3Size _ _ _
          | none =>
              rw [hexit] at h
              exact (ih h).trans (foldl_relax_solver _ _)

variable [Fintype BB]

theorem foldl_relax_remaining {l : List BB} (hc : c.solver = .new) :
    remaining (l.foldl (fun c w => c.relax z maxZ3Size cond (brCond a bb w) w) c) ≤ remaining c := by
  induction l generalizing c with
  | nil => exact le_rfl
  | cons w l ih =>
      exact (ih ((relax_solver c cond _ w).trans hc)).trans (relax_remaining hc cond (brCond a bb w) w)

theorem exists_guardLoop {fuel : ℕ} (hc : c.solver = .new) (hfuel : remaining c < fuel) :
    ∃ r, guardLoop z maxZ3Size a dst fuel c = some r := by
  induction fuel generalizing c with
  | zero => exact absurd hfuel (Nat.not_lt_zero _)
  | succ fuel ih =>
      cases hwork : c.worklist with
      | nil => exact ⟨_, by rw [guardLoop, hwork]⟩
      | cons bb rest =>
          rw [guardLoop, hwork]
          dsimp only
          cases evaluateLoopExitBranch a bb dst with
          | some loopExitCond => exact ⟨_, rfl⟩
          | none =>
              refine ih ((foldl_relax_solver _ _).trans hc) ?_
              have hle := @foldl_relax_remaining _ _ _ z maxZ3Size (c.getCond bb) a bb
                { c with worklist := rest } _ (a.getSuccessors bb) hc
              have hpop := remaining_pop hwork
              exact lt_of_le_of_lt hle (by omega)

end

section

variable {a : Allocator BB (Expr n)} {src dst mid1 mid2 : BB} {c d : CondState BB n} {fuel : ℕ}

/-- The branches under which the control flow gets from one block to the other, which
are not asked where the one post-dominates the other. -/
def exactIntra (a : Allocator BB (Expr n)) (src dst : BB) : Set (Assignment n) :=
  {v | a.postDominate dst src = true ∨ Reach (cfEdges a) v src dst}

theorem passed_setCond (hc : c.solver = .new) (hgrows : holds (c.getCond src) ⊆ holds cond)
    (hpassed : ∀ u, u ≠ src → Passed (cfEdges a) (marking c) u) (u : BB) (hu : u ≠ src) :
    Passed (cfEdges a) (marking (c.setCond z src cond).2) u := by
  intro p hp
  have hold := hpassed u hu p hp
  change holds ((c.setCond z src cond).2.getCond u) ∩ p.2 ⊆
    holds ((c.setCond z src cond).2.getCond p.1)
  rw [holds_setCond hc, holds_setCond hc, if_neg hu]
  split
  · rename_i hdst
    rw [hdst] at hold
    exact hold.trans hgrows
  · exact hold

theorem subset_getTrueCond (e : Expr n) : holds e ⊆ holds getTrueCond := fun _ _ => eval_getTrueCond

theorem loopInv_start (hc : c.solver = .new)
    (hpassed : ∀ u, u ≠ src → Passed (cfEdges a) (marking c) u) :
    LoopInv a src { (c.setCond z src getTrueCond).2 with worklist := [src] } where
  solver := (setCond_solver c src _).trans hc
  closed := by
    intro u
    by_cases hu : u = src
    · exact .inl (hu ▸ List.mem_cons_self)
    · exact .inr (passed_setCond hc (subset_getTrueCond _) hpassed u hu)
  worklist := by
    intro u hu
    rw [List.mem_singleton.mp hu]
    exact .refl

theorem ComputeIntraVFGGuard_covers (hcomplete : GuardComplete a src dst) (hc : c.solver = .new)
    (hpassed : ∀ u, u ≠ src → Passed (cfEdges a) (marking c) u)
    (h : ComputeIntraVFGGuard z maxZ3Size a fuel c src dst = some (guard, d)) :
    exactIntra a src dst ⊆ holds guard := by
  intro v hv
  rw [ComputeIntraVFGGuard] at h
  split at h
  · rw [← (Prod.mk.inj (Option.some.inj h)).1]
    exact eval_getTrueCond
  · rename_i hdom
    obtain ⟨hd, hempty, hguard, hgrows⟩ :=
      guardLoop_closed (hcomplete.resolve_left hdom) (loopInv_start (z := z) hc hpassed) h
    have hsrc : v ∈ holds (d.getCond src) := by
      refine hgrows src ?_
      change v ∈ holds ((c.setCond z src getTrueCond).2.getCond src)
      rw [holds_setCond hc, if_pos rfl]
      exact eval_getTrueCond
    have hpending : (marking d).pending = ∅ := by
      ext u
      simp [marking, hempty]
    rw [hguard]
    exact hd.closed.reach hpending hsrc (hv.resolve_left hdom)

theorem ComputeIntraVFGGuard_passed (hcomplete : GuardComplete a src dst) (hc : c.solver = .new)
    (hpassed : ∀ u, Passed (cfEdges a) (marking c) u)
    (h : ComputeIntraVFGGuard z maxZ3Size a fuel c src dst = some (guard, d)) (u : BB) :
    Passed (cfEdges a) (marking d) u := by
  rw [ComputeIntraVFGGuard] at h
  split at h
  · rw [← (Prod.mk.inj (Option.some.inj h)).2]
    exact hpassed u
  · rename_i hdom
    obtain ⟨hd, hempty, -, -⟩ := guardLoop_closed (hcomplete.resolve_left hdom)
      (loopInv_start (z := z) hc fun u _ => hpassed u) h
    refine (hd.closed u).resolve_left fun hu => ?_
    have hmem : u ∈ d.worklist := hu
    rw [hempty] at hmem
    exact List.not_mem_nil hmem

theorem ComputeIntraVFGGuard_solver
    (h : ComputeIntraVFGGuard z maxZ3Size a fuel c src dst = some (guard, d)) :
    d.solver = c.solver := by
  rw [ComputeIntraVFGGuard] at h
  split at h
  · rw [(Prod.mk.inj (Option.some.inj h)).2]
  · exact (guardLoop_solver h).trans (setCond_solver c src _)

theorem exists_ComputeIntraVFGGuard [Fintype BB] (hc : c.solver = .new)
    (hfuel : fuelBound BB n ≤ fuel) :
    ∃ r, ComputeIntraVFGGuard z maxZ3Size a fuel c src dst = some r := by
  rw [ComputeIntraVFGGuard]
  split
  · exact ⟨_, rfl⟩
  · refine exists_guardLoop ((setCond_solver c src _).trans hc) (lt_of_lt_of_le ?_ hfuel)
    exact remaining_lt_fuelBound le_rfl

def passOn (z : Z3 n) (maxZ3Size : ℕ) (c : CondState BB n) (mid1 mid2 : BB) : CondState BB n :=
  (c.setCond z mid2 (OR z maxZ3Size c.solver (c.getCond mid2) (c.getCond mid1)).1).2

theorem computeInterVFGGuard_eq (hfirst : ComputeIntraVFGGuard z maxZ3Size a fuel c src mid1 =
      some (cond, d)) :
    computeInterVFGGuard z maxZ3Size a fuel c src mid1 mid2 dst =
      (ComputeIntraVFGGuard z maxZ3Size a fuel (passOn z maxZ3Size d mid1 mid2) mid2 dst).map
        fun r => ((AND z maxZ3Size r.2.solver cond r.1).1, r.2) := by
  rw [computeInterVFGGuard, hfirst]
  simp only [Option.bind_some, AND_solver, OR_solver]
  rfl

theorem passOn_solver : (passOn z maxZ3Size c mid1 mid2).solver = c.solver := setCond_solver c mid2 _

theorem computeInterVFGGuard_covers (hfirst : GuardComplete a src mid1)
    (hsecond : GuardComplete a mid2 dst) (hc : c.solver = .new)
    (hpassed : ∀ u, Passed (cfEdges a) (marking c) u)
    (h : computeInterVFGGuard z maxZ3Size a fuel c src mid1 mid2 dst = some (guard, d)) :
    exactIntra a src mid1 ∩ exactIntra a mid2 dst ⊆ holds guard := by
  cases hrun : ComputeIntraVFGGuard z maxZ3Size a fuel c src mid1 with
  | none =>
      rw [computeInterVFGGuard, hrun] at h
      contradiction
  | some r =>
      obtain ⟨cond, c1⟩ := r
      rw [computeInterVFGGuard_eq hrun] at h
      obtain ⟨⟨cond2, c2⟩, hrun2, heq⟩ := Option.map_eq_some_iff.mp h
      have hc1 := (ComputeIntraVFGGuard_solver hrun).trans hc
      have hpassed1 := ComputeIntraVFGGuard_passed hfirst hc hpassed hrun
      have hnew : (passOn z maxZ3Size c1 mid1 mid2).solver = .new := passOn_solver.trans hc1
      have hgrows : holds (c1.getCond mid2) ⊆
          holds (OR z maxZ3Size c1.solver (c1.getCond mid2) (c1.getCond mid1)).1 := by
        rw [hc1]
        exact fun v hv => le_eval_OR (.inl hv)
      have hcover1 := ComputeIntraVFGGuard_covers hfirst hc (fun u _ => hpassed u) hrun
      have hcover2 := ComputeIntraVFGGuard_covers hsecond hnew
        (passed_setCond hc1 hgrows fun u _ => hpassed1 u) hrun2
      have hc2 : c2.solver = .new := (ComputeIntraVFGGuard_solver hrun2).trans hnew
      rw [← (Prod.mk.inj heq).1]
      dsimp only
      rw [hc2]
      exact fun v hv => le_eval_AND (hcover1 hv.1) (hcover2 hv.2)

theorem computeInterVFGGuard_solver
    (h : computeInterVFGGuard z maxZ3Size a fuel c src mid1 mid2 dst = some (guard, d)) :
    d.solver = c.solver := by
  cases hrun : ComputeIntraVFGGuard z maxZ3Size a fuel c src mid1 with
  | none =>
      rw [computeInterVFGGuard, hrun] at h
      contradiction
  | some r =>
      obtain ⟨cond, c1⟩ := r
      rw [computeInterVFGGuard_eq hrun] at h
      obtain ⟨⟨cond2, c2⟩, hrun2, heq⟩ := Option.map_eq_some_iff.mp h
      rw [← (Prod.mk.inj heq).2]
      exact (ComputeIntraVFGGuard_solver hrun2).trans
        (passOn_solver.trans (ComputeIntraVFGGuard_solver hrun))

theorem exists_computeInterVFGGuard [Fintype BB] (hc : c.solver = .new)
    (hfuel : fuelBound BB n ≤ fuel) :
    ∃ r, computeInterVFGGuard z maxZ3Size a fuel c src mid1 mid2 dst = some r := by
  obtain ⟨⟨cond, c1⟩, hrun⟩ : ∃ r, ComputeIntraVFGGuard z maxZ3Size a fuel c src mid1 = some r :=
    exists_ComputeIntraVFGGuard hc hfuel
  have hc1 := (ComputeIntraVFGGuard_solver hrun).trans hc
  obtain ⟨r, hrun2⟩ : ∃ r, ComputeIntraVFGGuard z maxZ3Size a fuel
      (passOn z maxZ3Size c1 mid1 mid2) mid2 dst = some r :=
    exists_ComputeIntraVFGGuard (passOn_solver.trans hc1) hfuel
  rw [computeInterVFGGuard_eq hrun, hrun2]
  exact ⟨_, rfl⟩

end

end SVF.SABER.GuardCoverage
