import Mathlib.Data.Fin.VecNotation
import Mathlib.Data.Fintype.Order
import Mathlib.Order.SupClosed
import SVF.SABER.SaberCondAllocator
import SVF.Util.Folds
import SVF.Util.Loops
import SVF.Util.PathConditions

namespace SVF.SABER.IntraVFGGuard

open Relation SaberCondAllocator Util.PathConditions

variable {BB C : Type*} [DecidableEq BB] [BooleanAlgebra C] [DecidableEq C]
  {a : Allocator BB C} {s t : GuardState BB C} {src dst bb : BB} {cond : C}

theorem getCFCond_set (s : GuardState BB C) (bb : BB) (cond : C) :
    (s.setCFCond bb cond).getCFCond = Function.update s.getCFCond bb cond := by
  funext b
  rw [GuardState.setCFCond]
  by_cases hb : b = bb
  · subst hb
    rw [Function.update_self]
    split
    · rename_i h
      rw [GuardState.getCFCond, h]
      rfl
    · change (Function.update s.bbToCondMap b (some cond) b).getD ⊥ = cond
      rw [Function.update_self]
      rfl
  · rw [Function.update_of_ne hb]
    split
    · rfl
    · change (Function.update s.bbToCondMap bb (some cond) b).getD ⊥ = _
      rw [Function.update_of_ne hb]
      rfl

omit [BooleanAlgebra C] in
theorem mem_worklist_set {b : BB} (h : b ∈ s.worklist) : b ∈ (s.setCFCond bb cond).worklist := by
  rw [GuardState.setCFCond]
  split
  · exact h
  · change b ∈ if bb ∈ s.worklist then s.worklist else s.worklist ++ [bb]
    split
    · exact h
    · exact List.mem_append_left _ h

theorem same_or_mem_worklist (s : GuardState BB C) (bb : BB) (cond : C) :
    s.getCFCond bb = cond ∨ bb ∈ (s.setCFCond bb cond).worklist := by
  rw [GuardState.setCFCond]
  split
  · rename_i h
    left
    rw [GuardState.getCFCond, h]
    rfl
  · right
    change bb ∈ if bb ∈ s.worklist then s.worklist else s.worklist ++ [bb]
    split
    · assumption
    · simp

/-- A successor of the block that has been popped with the condition `cond`. -/
def visitOne (a : Allocator BB C) (bb : BB) (cond : C) (s : GuardState BB C) (succ : BB) :
    GuardState BB C :=
  s.setCFCond succ (s.getCFCond succ ⊔ cond ⊓ a.brCond bb succ)

theorem visitSuccessors_eq (s : GuardState BB C) (a : Allocator BB C) (bb : BB) (cond : C) :
    s.visitSuccessors a bb cond = (a.getSuccessors bb).foldl (visitOne a bb cond) s := rfl

def Weaker (s t : GuardState BB C) : Prop := ∀ b, s.getCFCond b ≤ t.getCFCond b

instance : @Std.Refl (GuardState BB C) Weaker := ⟨fun _ _ => le_rfl⟩

instance : IsTrans (GuardState BB C) Weaker := ⟨fun _ _ _ h h' b => (h b).trans (h' b)⟩

theorem weaker_visitOne (s : GuardState BB C) (succ : BB) :
    Weaker s (visitOne a bb cond s succ) := by
  intro b
  rw [visitOne, getCFCond_set]
  by_cases hb : b = succ
  · subst hb
    rw [Function.update_self]
    exact le_sup_left
  · rw [Function.update_of_ne hb]

def Passed (a : Allocator BB C) (s : GuardState BB C) (u : BB) : Prop :=
  ∀ w ∈ a.getSuccessors u, s.getCFCond u ⊓ a.brCond u w ≤ s.getCFCond w

structure Inv (a : Allocator BB C) (src : BB) (s : GuardState BB C) : Prop where
  started : s.getCFCond src = ⊤
  closed : ∀ u, u ∈ s.worklist ∨ Passed a s u
  justified : Justified a.getSuccessors a.brCond src s.getCFCond

structure Visiting (a : Allocator BB C) (src bb : BB) (cond : C) (s : GuardState BB C) : Prop where
  started : s.getCFCond src = ⊤
  closed : ∀ u, u ≠ bb → u ∈ s.worklist ∨ Passed a s u
  justified : Justified a.getSuccessors a.brCond src s.getCFCond
  popped : s.getCFCond bb = cond ∨ bb ∈ s.worklist
  le : cond ≤ s.getCFCond bb

theorem visiting_visitOne (h : Visiting a src bb cond s) {succ : BB}
    (hsucc : succ ∈ a.getSuccessors bb) : Visiting a src bb cond (visitOne a bb cond s succ) := by
  have hweaker : Weaker s (visitOne a bb cond s succ) := weaker_visitOne s succ
  have hsame : ∀ u, (visitOne a bb cond s succ).getCFCond u = s.getCFCond u ∨
      u ∈ (visitOne a bb cond s succ).worklist := by
    intro u
    rw [visitOne, getCFCond_set]
    by_cases hu : u = succ
    · subst hu
      rw [Function.update_self]
      exact (same_or_mem_worklist s u _).imp_left Eq.symm
    · left
      exact Function.update_of_ne hu _ _
  have hmem : ∀ u, u ∈ s.worklist → u ∈ (visitOne a bb cond s succ).worklist :=
    fun u hu => mem_worklist_set hu
  refine ⟨?_, fun u hu => ?_, ?_, ?_, h.le.trans (hweaker bb)⟩
  · exact top_unique (h.started ▸ hweaker src)
  · rcases hsame u with hsame | hpushed
    · rcases h.closed u hu with hwork | hpassed
      · exact .inl (hmem u hwork)
      · right
        intro w hw
        rw [hsame]
        exact (hpassed w hw).trans (hweaker w)
    · exact .inl hpushed
  · rw [visitOne, getCFCond_set]
    exact h.justified.update h.le hsucc
  · rcases hsame bb with hsame | hpushed
    · exact h.popped.imp (fun heq => hsame.trans heq) (hmem bb)
    · exact .inr hpushed

def Step (a : Allocator BB C) (dst : BB) (s t : GuardState BB C) : Prop :=
  ∃ bb rest, s.worklist = bb :: rest ∧ a.evaluateLoopExitBranch bb dst = none ∧
    t = { s with worklist := rest }.visitSuccessors a bb (s.getCFCond bb)

omit [DecidableEq C] in
theorem getCFCond_start (src : BB) : (GuardState.start src : GuardState BB C).getCFCond =
    Function.update (fun _ => ⊥) src ⊤ := by
  funext b
  rw [GuardState.getCFCond, GuardState.start]
  by_cases hb : b = src
  · subst hb
    simp
  · simp [hb]

omit [DecidableEq C] in
theorem inv_start (src : BB) : Inv a src (.start src) := by
  have hcond := getCFCond_start (C := C) src
  refine ⟨?_, fun u => ?_, fun v u hu => ?_⟩
  · rw [hcond, Function.update_self]
  · by_cases hu : u = src
    · subst hu
      exact .inl List.mem_cons_self
    · right
      intro w _
      rw [hcond, Function.update_of_ne hu, bot_inf_eq]
      exact bot_le
  · rw [hcond]
    by_cases hv : v = src
    · subst hv
      rw [Function.update_self]
      exact hu ⊤ (.nil v)
    · rw [Function.update_of_ne hv]
      exact bot_le

theorem inv_step (h : Inv a src s) (hstep : Step a dst s t) : Inv a src t := by
  obtain ⟨bb, rest, hworklist, -, rfl⟩ := hstep
  have hstart : Visiting a src bb (s.getCFCond bb) { s with worklist := rest } := by
    refine ⟨h.started, fun u hu => ?_, h.justified, .inl rfl, le_rfl⟩
    rcases h.closed u with hwork | hpassed
    · rw [hworklist] at hwork
      exact .inl ((List.mem_cons.mp hwork).resolve_left hu)
    · exact .inr hpassed
  rw [visitSuccessors_eq]
  have hvisit := Util.Folds.foldl_invariant (I := Visiting a src bb (s.getCFCond bb))
    (fun succ hsucc s h => visiting_visitOne h hsucc) hstart
  refine ⟨hvisit.started, fun u => ?_, hvisit.justified⟩
  by_cases hu : u = bb
  · subst hu
    rcases hvisit.popped with hcond | hwork
    · right
      intro w hw
      rw [hcond]
      apply Util.Folds.foldl_covers Weaker (fun succ _ s => weaker_visitOne s succ)
        (Q := fun t : GuardState BB C => s.getCFCond u ⊓ a.brCond u w ≤ t.getCFCond w)
        (fun s t hst hle => hle.trans (hst w)) hw
      intro t _
      rw [visitOne, getCFCond_set, Function.update_self]
      exact le_sup_right
    · exact .inl hwork
  · exact hvisit.closed u hu

theorem inv_run (hrun : ReflTransGen (Step a dst) (.start src) s) : Inv a src s := by
  induction hrun with
  | refl => exact inv_start src
  | tail _ hstep ih => exact inv_step ih hstep

def conditions (a : Allocator BB C) : Set C :=
  latticeClosure ({⊥, ⊤} ∪ {c | ∃ u ∈ a.blocks, ∃ w ∈ a.blocks, a.brCond u w = c})

omit [DecidableEq C] in
theorem conditions_finite (a : Allocator BB C) : (conditions a).Finite := by
  apply Set.Finite.latticeClosure
  apply Set.Finite.union (by simp)
  have himage : {c | ∃ u ∈ a.blocks, ∃ w ∈ a.blocks, a.brCond u w = c} =
      (fun p : BB × BB => a.brCond p.1 p.2) '' ({u | u ∈ a.blocks} ×ˢ {w | w ∈ a.blocks}) := by
    ext c
    simp only [Set.mem_ofPred_eq, Set.mem_image, Set.mem_prod, Prod.exists]
    constructor
    · rintro ⟨u, hu, w, hw, rfl⟩
      exact ⟨u, w, ⟨hu, hw⟩, rfl⟩
    · rintro ⟨u, w, ⟨hu, hw⟩, rfl⟩
      exact ⟨u, hu, w, hw, rfl⟩
  rw [himage]
  exact ((List.finite_toSet a.blocks).prod (List.finite_toSet a.blocks)).image _

structure Bounded (a : Allocator BB C) (s : GuardState BB C) : Prop where
  conditions : ∀ b, s.getCFCond b ∈ conditions a
  worklist : ∀ b ∈ s.worklist, b ∈ a.blocks

def missing (a : Allocator BB C) (s : GuardState BB C) : Set (BB × C) :=
  {p | p.1 ∈ a.blocks ∧ p.2 ∈ conditions a ∧ ¬ p.2 ≤ s.getCFCond p.1}

def unset (a : Allocator BB C) (s : GuardState BB C) : Set BB :=
  {b | b ∈ a.blocks ∧ s.bbToCondMap b = none}

noncomputable def potential (a : Allocator BB C) (s : GuardState BB C) : ℕ :=
  (missing a s).ncard + (unset a s).ncard

omit [DecidableEq C] in
theorem missing_finite (a : Allocator BB C) (s : GuardState BB C) : (missing a s).Finite :=
  ((List.finite_toSet a.blocks).prod (conditions_finite a)).subset fun _ hp => ⟨hp.1, hp.2.1⟩

omit [DecidableEq BB] [BooleanAlgebra C] [DecidableEq C] in
theorem unset_finite (a : Allocator BB C) (s : GuardState BB C) : (unset a s).Finite :=
  (List.finite_toSet a.blocks).subset fun _ hb => hb.1

theorem missing_subset (h : s.getCFCond bb ≤ cond) :
    missing a (s.setCFCond bb cond) ⊆ missing a s := by
  intro p hp
  refine ⟨hp.1, hp.2.1, fun hle => hp.2.2 (hle.trans ?_)⟩
  rw [getCFCond_set]
  by_cases hb : p.1 = bb
  · rw [hb, Function.update_self]
    exact h
  · rw [Function.update_of_ne hb]

omit [BooleanAlgebra C] in
theorem unset_subset : unset a (s.setCFCond bb cond) ⊆ unset a s := by
  intro b hb
  refine ⟨hb.1, ?_⟩
  have hnone := hb.2
  rw [GuardState.setCFCond] at hnone
  split at hnone
  · exact hnone
  · change Function.update s.bbToCondMap bb (some cond) b = none at hnone
    by_cases hbb : b = bb
    · subst hbb
      rw [Function.update_self] at hnone
      contradiction
    · rwa [Function.update_of_ne hbb] at hnone

theorem same_or_potential_lt (hbb : bb ∈ a.blocks) (hcond : cond ∈ conditions a)
    (h : s.getCFCond bb ≤ cond) : s.setCFCond bb cond = s ∨
      potential a (s.setCFCond bb cond) < potential a s := by
  by_cases hsame : s.bbToCondMap bb = some cond
  · left
    rw [GuardState.setCFCond, if_pos hsame]
  · right
    have hmissing := missing_subset (a := a) h
    have hunset : unset a (s.setCFCond bb cond) ⊆ unset a s := unset_subset
    have hmap : (s.setCFCond bb cond).bbToCondMap bb = some cond := by
      rw [GuardState.setCFCond, if_neg hsame]
      exact Function.update_self _ _ _
    cases hold : s.bbToCondMap bb with
    | none =>
        have hlt : (unset a (s.setCFCond bb cond)).ncard < (unset a s).ncard := by
          apply Set.ncard_lt_ncard _ (unset_finite a s)
          refine ⟨hunset, fun hsub => ?_⟩
          have hin := (hsub ⟨hbb, hold⟩).2
          rw [hmap] at hin
          contradiction
        have hle := Set.ncard_le_ncard hmissing (missing_finite a s)
        rw [potential, potential]
        omega
    | some old =>
        have hlt : (missing a (s.setCFCond bb cond)).ncard < (missing a s).ncard := by
          apply Set.ncard_lt_ncard _ (missing_finite a s)
          refine ⟨hmissing, fun hsub => ?_⟩
          have hnew : (bb, cond) ∈ missing a s := by
            refine ⟨hbb, hcond, fun hle => hsame ?_⟩
            have heq := le_antisymm h hle
            rw [GuardState.getCFCond, hold] at heq
            rw [hold, ← heq]
            rfl
          apply (hsub hnew).2.2
          rw [getCFCond_set, Function.update_self]
        have hle := Set.ncard_le_ncard hunset (unset_finite a s)
        rw [potential, potential]
        omega

omit [DecidableEq C] in
theorem brCond_mem {u w : BB} (hu : u ∈ a.blocks) (hw : w ∈ a.blocks) :
    a.brCond u w ∈ conditions a :=
  subset_latticeClosure (.inr ⟨u, hu, w, hw, rfl⟩)

omit [DecidableEq C] in
theorem bounded_start (hsrc : src ∈ a.blocks) : Bounded a (.start src) where
  conditions b := by
    rw [getCFCond_start]
    by_cases hb : b = src
    · subst hb
      rw [Function.update_self]
      exact subset_latticeClosure (.inl (by simp))
    · rw [Function.update_of_ne hb]
      exact subset_latticeClosure (.inl (by simp))
  worklist b hb := by
    rw [List.mem_singleton.mp hb]
    exact hsrc

theorem bounded_setCFCond (h : Bounded a s) (hbb : bb ∈ a.blocks) (hcond : cond ∈ conditions a) :
    Bounded a (s.setCFCond bb cond) where
  conditions b := by
    rw [getCFCond_set]
    by_cases hb : b = bb
    · subst hb
      rwa [Function.update_self]
    · rw [Function.update_of_ne hb]
      exact h.conditions b
  worklist b hb := by
    rw [GuardState.setCFCond] at hb
    split at hb
    · exact h.worklist b hb
    · change b ∈ if bb ∈ s.worklist then s.worklist else s.worklist ++ [bb] at hb
      split at hb
      · exact h.worklist b hb
      · rcases List.mem_append.mp hb with hb | hb
        · exact h.worklist b hb
        · rw [List.mem_singleton.mp hb]
          exact hbb

theorem bounded_step (h : Bounded a s) (hstep : Step a dst s t) : Bounded a t ∧
    (potential a t < potential a s ∨
      potential a t = potential a s ∧ t.worklist.length < s.worklist.length) := by
  obtain ⟨bb, rest, hworklist, -, rfl⟩ := hstep
  have hbb : bb ∈ a.blocks := h.worklist bb (by rw [hworklist]; exact List.mem_cons_self)
  have hcond := h.conditions bb
  have hpopped : Bounded a { s with worklist := rest } :=
    ⟨h.conditions, fun b hb => h.worklist b (by rw [hworklist]; exact List.mem_cons_of_mem _ hb)⟩
  have hvisit := Util.Folds.foldl_invariant
    (I := fun t : GuardState BB C => Bounded a t ∧
      (t = { s with worklist := rest } ∨ potential a t < potential a s))
    (f := visitOne a bb (s.getCFCond bb)) (l := a.getSuccessors bb)
    (fun succ hsucc u hu => ?_) ⟨hpopped, .inl rfl⟩
  · refine ⟨hvisit.1, ?_⟩
    rw [visitSuccessors_eq]
    rcases hvisit.2 with hsame | hlt
    · right
      rw [hsame, hworklist]
      exact ⟨rfl, Nat.lt_succ_self _⟩
    · exact .inl hlt
  · have hsucc' := a.successors_mem bb hbb succ hsucc
    have hnew : u.getCFCond succ ⊔ s.getCFCond bb ⊓ a.brCond bb succ ∈ conditions a := by
      apply isSublattice_latticeClosure.supClosed (hu.1.conditions succ)
      exact isSublattice_latticeClosure.infClosed hcond (brCond_mem hbb hsucc')
    refine ⟨bounded_setCFCond hu.1 hsucc' hnew, ?_⟩
    rcases same_or_potential_lt hsucc' hnew le_sup_left with hsame | hlt
    · rw [visitOne, hsame]
      exact hu.2
    · right
      rcases hu.2 with rfl | hlt'
      · exact hlt
      · exact hlt.trans hlt'

noncomputable def rank (a : Allocator BB C) (s : GuardState BB C) : ℕ ×ₗ ℕ :=
  toLex (potential a s, s.worklist.length)

theorem rank_lt (h : Bounded a s) (hstep : Step a dst s t) : rank a t < rank a s := by
  rw [rank, rank, Prod.Lex.toLex_lt_toLex]
  exact (bounded_step h hstep).2

theorem guardLoop_succ {rest : List BB} (fuel : ℕ) (hworklist : s.worklist = bb :: rest)
    (heval : a.evaluateLoopExitBranch bb dst = none) : a.guardLoop dst (fuel + 1) s =
      a.guardLoop dst fuel ({ s with worklist := rest }.visitSuccessors a bb (s.getCFCond bb)) := by
  rw [Allocator.guardLoop, hworklist]
  dsimp only
  rw [heval]

theorem exists_guardLoop (h : Bounded a s) : ∃ fuel r, a.guardLoop dst fuel s = some r := by
  induction hr : rank a s using WellFoundedLT.induction generalizing s with
  | ind k ih =>
      cases hworklist : s.worklist with
      | nil => exact ⟨1, s.getCFCond dst, by rw [Allocator.guardLoop, hworklist]⟩
      | cons bb rest =>
          cases heval : a.evaluateLoopExitBranch bb dst with
          | some c =>
              refine ⟨1, s.getCFCond bb ⊓ c, ?_⟩
              rw [Allocator.guardLoop, hworklist]
              dsimp only
              rw [heval]
          | none =>
              have hstep : Step a dst s _ := ⟨bb, rest, hworklist, heval, rfl⟩
              obtain ⟨fuel, r, hfuel⟩ :=
                ih _ (by rw [← hr]; exact rank_lt h hstep) (bounded_step h hstep).1 rfl
              exact ⟨fuel + 1, r, by rw [guardLoop_succ fuel hworklist heval, hfuel]⟩

def Stops (a : Allocator BB C) (dst : BB) (s : GuardState BB C) (r : C) : Prop :=
  s.worklist = [] ∧ r = s.getCFCond dst ∨
    ∃ bb rest, s.worklist = bb :: rest ∧ a.evaluateLoopExitBranch bb dst ≠ none ∧
      r = s.getCFCond bb

omit [DecidableEq BB] [DecidableEq C] in
theorem evaluateLoopExitBranch_eq {c : C} (h : a.evaluateLoopExitBranch bb dst = some c) :
    c = ⊤ := by
  rw [Allocator.evaluateLoopExitBranch] at h
  split at h
  · dsimp only at h
    split at h
    · exact (Option.some.inj h).symm
    · contradiction
  · contradiction

theorem guardLoop_stops {fuel : ℕ} {r : C} (h : a.guardLoop dst fuel s = some r) :
    ∃ t, ReflTransGen (Step a dst) s t ∧ Stops a dst t r := by
  induction fuel generalizing s with
  | zero => contradiction
  | succ fuel ih =>
      cases hworklist : s.worklist with
      | nil =>
          rw [Allocator.guardLoop, hworklist] at h
          exact ⟨s, .refl, .inl ⟨hworklist, (Option.some.inj h).symm⟩⟩
      | cons bb rest =>
          cases heval : a.evaluateLoopExitBranch bb dst with
          | some c =>
              rw [Allocator.guardLoop, hworklist] at h
              dsimp only at h
              rw [heval] at h
              have hr := (Option.some.inj h).symm
              rw [evaluateLoopExitBranch_eq heval, inf_top_eq] at hr
              refine ⟨s, .refl, .inr ⟨bb, rest, hworklist, ?_, hr⟩⟩
              rw [heval]
              exact Option.some_ne_none c
          | none =>
              rw [guardLoop_succ fuel hworklist heval] at h
              obtain ⟨t, hrun, hstops⟩ := ih h
              exact ⟨t, .head ⟨bb, rest, hworklist, heval, rfl⟩ hrun, hstops⟩

theorem step_unique {u : GuardState BB C} (h : Step a dst s t) (h' : Step a dst s u) : t = u := by
  obtain ⟨bb, rest, hworklist, -, rfl⟩ := h
  obtain ⟨bb', rest', hworklist', -, rfl⟩ := h'
  rw [hworklist] at hworklist'
  cases hworklist'
  rfl

theorem Stops.no_step {r : C} (h : Stops a dst s r) : ¬ Step a dst s t := by
  rintro ⟨bb, rest, hworklist, heval, -⟩
  rcases h with ⟨hnil, -⟩ | ⟨bb', rest', hworklist', heval', -⟩
  · rw [hworklist] at hnil
    contradiction
  · rw [hworklist] at hworklist'
    cases hworklist'
    exact heval' heval

/-- The loop is deterministic, so there is one state in which it stops. -/
theorem Stops.unique {r r' : C} (hs : ReflTransGen (Step a dst) (.start src) s)
    (ht : ReflTransGen (Step a dst) (.start src) t) (h : Stops a dst s r)
    (h' : Stops a dst t r') : s = t := by
  have hunique : Relator.RightUnique (Step a dst) := fun _ _ _ h h' => step_unique h h'
  rcases ReflTransGen.total_of_right_unique hunique hs ht with hst | hts
  · rcases ReflTransGen.cases_head hst with heq | ⟨u, hstep, -⟩
    · exact heq
    · exact absurd hstep h.no_step
  · rcases ReflTransGen.cases_head hts with heq | ⟨u, hstep, -⟩
    · exact heq.symm
    · exact absurd hstep h'.no_step

/-- Where the loop returns early, what it has found for `dst` and what is still to be
followed from the rest of the worklist is implied by the condition of the header. -/
def EarlyExitCovers (a : Allocator BB C) (src dst : BB) : Prop :=
  ∀ s bb rest, ReflTransGen (Step a dst) (.start src) s → s.worklist = bb :: rest →
    a.evaluateLoopExitBranch bb dst ≠ none →
      s.getCFCond dst ≤ s.getCFCond bb ∧
      ∀ w ∈ rest, ∀ c, PathCond a.getSuccessors a.brCond w dst c →
        s.getCFCond w ⊓ c ≤ s.getCFCond bb

theorem guardLoop_sound_iff {fuel : ℕ} {r : C} (h : a.guardLoop dst fuel (.start src) = some r) :
    (∀ c, PathCond a.getSuccessors a.brCond src dst c → c ≤ r) ↔ EarlyExitCovers a src dst := by
  obtain ⟨t, hrun, hstops⟩ := guardLoop_stops h
  have hinv := inv_run hrun
  have hcover : ∀ c, PathCond a.getSuccessors a.brCond src dst c → c ≤ t.getCFCond dst ∨
      ∃ w ∈ t.worklist, ∃ d, PathCond a.getSuccessors a.brCond w dst d ∧
        c ≤ t.getCFCond w ⊓ d := by
    intro c hc
    have hpath := path_le_or_pending hinv.closed hc
    rwa [hinv.started, top_inf_eq] at hpath
  constructor
  · intro hall s bb rest hs hworklist heval
    have hst : s = t := Stops.unique hs hrun (.inr ⟨bb, rest, hworklist, heval, rfl⟩) hstops
    subst hst
    have hr : r = s.getCFCond bb := by
      rcases hstops with ⟨hnil, -⟩ | ⟨bb', rest', hworklist', -, hr⟩
      · rw [hworklist] at hnil
        contradiction
      · rw [hworklist] at hworklist'
        cases hworklist'
        exact hr
    subst hr
    exact ⟨hinv.justified dst _ hall, fun w _ c hc => hinv.justified.path_le hc hall⟩
  · intro hcovers c hc
    rcases hstops with ⟨hnil, rfl⟩ | ⟨bb, rest, hworklist, heval, rfl⟩
    · rcases hcover c hc with hle | ⟨w, hw, -⟩
      · exact hle
      · rw [hnil] at hw
        exact absurd hw List.not_mem_nil
    · obtain ⟨hdst, hrest⟩ := hcovers t bb rest hrun hworklist heval
      rcases hcover c hc with hle | ⟨w, hw, d, hd, hle⟩
      · exact hle.trans hdst
      · rw [hworklist] at hw
        rcases List.mem_cons.mp hw with rfl | hw
        · exact hle.trans inf_le_left
        · exact hle.trans (hrest w hw d hd)

/-- The guard is computed, and no path is dropped from it if and only if the
destination post-dominates the source or an early return leaves no path behind. -/
theorem ComputeIntraVFGGuard_sound_iff (a : Allocator BB C) (src dst : BB)
    (hsrc : src ∈ a.blocks) :
    (∃ fuel r, a.ComputeIntraVFGGuard fuel src dst = some r) ∧
    ∀ fuel r, a.ComputeIntraVFGGuard fuel src dst = some r →
      ((∀ c, PathCond a.getSuccessors a.brCond src dst c → c ≤ r) ↔
        a.postDominate dst src = true ∨ EarlyExitCovers a src dst) := by
  by_cases hdom : a.postDominate dst src = true
  · constructor
    · exact ⟨0, ⊤, if_pos hdom⟩
    · intro fuel r h
      rw [Allocator.ComputeIntraVFGGuard, if_pos hdom] at h
      cases h
      exact iff_of_true (fun c _ => le_top) (.inl hdom)
  · constructor
    · obtain ⟨fuel, r, h⟩ := exists_guardLoop (bounded_start hsrc)
      exact ⟨fuel, r, (if_neg hdom).trans h⟩
    · intro fuel r h
      rw [Allocator.ComputeIntraVFGGuard, if_neg hdom] at h
      rw [guardLoop_sound_iff h]
      exact (or_iff_right hdom).symm

/-- `0` branches to the loop header `1` and to `2`. The loop is `1` and `4`, with the
exit `3`, to which `2` goes as well, unless it goes to the return at `5`. -/
def sample : Allocator (Fin 6) ((Fin 3 → Bool) → Bool) where
  blocks := [0, 1, 2, 3, 4, 5]
  getSuccessors := ![[1, 2], [4, 3], [3, 5], [], [1], []]
  postDominate key value :=
    key == value || (key == 3 && (value == 1 || value == 4)) || (key == 1 && value == 4)
  isLoopHeader bb := bb == 1
  getExitBlocksOfLoop _ := [3]
  exitBBs := []
  branchStmt _ := none
  bbConds := ![fun i v => if i = 0 then v 0 else !v 0, fun i v => if i = 0 then v 1 else !v 1,
    fun i v => if i = 0 then v 2 else !v 2, fun _ _ => true, fun _ _ => true, fun _ _ => true]
  hasCurEvalValue := false
  successors_mem := by decide

theorem sample_covers : EarlyExitCovers sample 0 5 := by
  intro s bb rest _ _ heval
  have hnone : ∀ b, sample.evaluateLoopExitBranch b 5 = none := by decide
  exact absurd (hnone bb) heval

theorem ComputeIntraVFGGuard_sound_sample : ∃ fuel r,
    sample.ComputeIntraVFGGuard fuel 0 5 = some r ∧
      ∀ c, PathCond sample.getSuccessors sample.brCond 0 5 c → c ≤ r := by
  obtain ⟨⟨fuel, r, h⟩, hiff⟩ := ComputeIntraVFGGuard_sound_iff sample 0 5 (by decide)
  exact ⟨fuel, r, h, (hiff fuel r h).mpr (.inr sample_covers)⟩

/-- The header is popped before `2`, and the path through `2` is dropped. -/
theorem ComputeIntraVFGGuard_drops : ∃ r c, sample.ComputeIntraVFGGuard 10 0 3 = some r ∧
    PathCond sample.getSuccessors sample.brCond 0 3 c ∧ ¬ c ≤ r := by
  refine ⟨fun v => v 0, sample.brCond 0 2 ⊓ (sample.brCond 2 3 ⊓ ⊤), by decide +kernel, ?_, ?_⟩
  · exact .cons (by decide) (.cons (by decide) (.nil 3))
  · intro hle
    have hpoint := hle ![false, false, true]
    exact absurd hpoint (by decide +kernel)

end SVF.SABER.IntraVFGGuard
