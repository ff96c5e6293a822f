import SVF.SABER.GuardCoverage

namespace SVF.SABER.InvalidConds

open SaberCondAllocator ProgSlice Util.Z3Expr Util.Propagation GuardCoverage

variable {BB Node : Type} {n : ℕ} [DecidableEq BB] {z : Z3 n} {maxZ3Size : ℕ}

section

variable (z : Z3 n) (maxZ3Size : ℕ) (a : Allocator BB (Expr n)) (cond : Expr n)

def relaxFits (guard : Expr n) (c : CondState BB n) (succ : BB) : Bool :=
  andFits z maxZ3Size cond guard &&
    orFits z maxZ3Size (c.getCond succ) (AND z maxZ3Size .new cond guard).1

def visitFits (bb : BB) : List BB → CondState BB n → Bool
  | [], _ => true
  | succ :: succs, c => relaxFits z maxZ3Size cond (brCond a bb succ) c succ &&
      visitFits bb succs (c.relax z maxZ3Size cond (brCond a bb succ) succ)

def guardFits : ℕ → CondState BB n → Bool
  | 0, _ => true
  | fuel + 1, c =>
    match c.worklist with
    | [] => true
    | bb :: rest =>
      let c := { c with worklist := rest }
      let cond := c.getCond bb
      visitFits z maxZ3Size a cond bb (a.getSuccessors bb) c &&
        guardFits fuel (visitSuccessors z maxZ3Size a bb cond c)

variable (sl : Slice BB Node n)

/-- No expression is over the limit while the condition of a removed edge is joined. -/
def invalidStepFits (fuel : ℕ) (cur : Node) (invalidCond : Expr n) (succ : Node) : Prop :=
  let a := sl.allocator cur
  let src := sl.getSVFGNodeBB cur
  let dst := sl.getSVFGNodeBB succ
  let c := CondState.clear .new
  dst ∉ sl.validOutBBs cur →
    (a.postDominate dst src = true ∨ guardFits z maxZ3Size a fuel
        { (c.setCond z src getTrueCond).2 with worklist := [src] } = true) ∧
      ∀ g ∈ ComputeIntraVFGGuard z maxZ3Size a fuel c src dst,
        orFits z maxZ3Size invalidCond g.1 = true

/-- No expression is over the limit while the condition of the removed strong-update
edges at a node is computed. -/
def InvalidFits (fuel : ℕ) (cur : Node) : Prop :=
  ∀ succs succ rest r, sl.removedSUVFEdges cur = succs ++ succ :: rest →
    succs.foldlM (sl.addInvalid z maxZ3Size fuel cur) (getFalseCond, .new) = some r →
      invalidStepFits z maxZ3Size sl fuel cur r.1 succ

end

section

variable {a : Allocator BB (Expr n)} {src dst bb : BB} {c d : CondState BB n} {cond guard : Expr n}
  {fuel : ℕ}

theorem supported_relax {succ : BB} (hc : c.solver = .new)
    (h : Supported (cfEdges a) src (marking c)) (hsucc : succ ∈ a.getSuccessors bb)
    (hcond : ∀ v ∈ holds cond, Reach (cfEdges a) v src bb)
    (hfits : relaxFits z maxZ3Size cond (brCond a bb succ) c succ = true) :
    Supported (cfEdges a) src (marking (c.relax z maxZ3Size cond (brCond a bb succ) succ)) := by
  obtain ⟨hand, hor⟩ := Bool.and_eq_true_iff.mp hfits
  have hedge : (succ, holds (brCond a bb succ)) ∈ cfEdges a bb := ⟨hsucc, rfl⟩
  refine h.relax hedge hcond (fun u hu => ?_) ?_
  · change holds ((c.relax z maxZ3Size cond (brCond a bb succ) succ).getCond u) = _
    rw [holds_relax hc, if_neg hu]
    rfl
  · change holds ((c.relax z maxZ3Size cond (brCond a bb succ) succ).getCond succ) ⊆ _
    rw [holds_relax hc, if_pos rfl]
    exact joined_subset hc hand hor

theorem supported_visit {l : List BB} (hc : c.solver = .new)
    (h : Supported (cfEdges a) src (marking c)) (hl : ∀ succ ∈ l, succ ∈ a.getSuccessors bb)
    (hcond : ∀ v ∈ holds cond, Reach (cfEdges a) v src bb)
    (hfits : visitFits z maxZ3Size a cond bb l c = true) :
    Supported (cfEdges a) src
      (marking (l.foldl (fun c w => c.relax z maxZ3Size cond (brCond a bb w) w) c)) := by
  induction l generalizing c with
  | nil => exact h
  | cons succ l ih =>
      obtain ⟨hstep, hrest⟩ := Bool.and_eq_true_iff.mp hfits
      exact ih ((relax_solver c cond _ succ).trans hc)
        (supported_relax hc h (hl succ List.mem_cons_self) hcond hstep)
        (fun w hw => hl w (List.mem_cons_of_mem succ hw)) hrest

theorem supported_guardLoop (hearly : NoEarlyReturn a src dst) (hinv : LoopInv a src c)
    (h : Supported (cfEdges a) src (marking c)) (hfits : guardFits z maxZ3Size a fuel c = true)
    (hrun : guardLoop z maxZ3Size a dst fuel c = some (guard, d)) :
    ∀ v ∈ holds guard, Reach (cfEdges a) v src dst := by
  induction fuel generalizing c with
  | zero => contradiction
  | succ fuel ih =>
      cases hwork : c.worklist with
      | nil =>
          rw [guardLoop, hwork] at hrun
          rw [← (Prod.mk.inj (Option.some.inj hrun)).1]
          exact h dst
      | cons bb rest =>
          have hnone := hearly bb (hinv.worklist bb (hwork ▸ List.mem_cons_self))
          rw [guardLoop, hwork] at hrun
          dsimp only at hrun
          rw [hnone] at hrun
          rw [guardFits, hwork] at hfits
          obtain ⟨hvisit, hrest⟩ := Bool.and_eq_true_iff.mp hfits
          have hnext := @LoopInv.visit _ _ _ z maxZ3Size _ _ _ _ hinv _ hwork
          have hsupported := @supported_visit _ _ _ z maxZ3Size a src bb
            { c with worklist := rest } (c.getCond bb) _ hinv.solver h (fun _ hw => hw) (h bb) hvisit
          exact ih hnext.1 hsupported hrest hrun

omit [DecidableEq BB] in
theorem getCond_clear (s : Solver n) (u : BB) : (CondState.clear s).getCond u = getFalseCond := rfl

theorem holds_getFalseCond : holds (getFalseCond : Expr n) = ∅ := by
  ext v
  simp [holds]

theorem passed_clear (s : Solver n) (u : BB) : Passed (cfEdges a) (marking (.clear s)) u := by
  intro p _
  change holds ((CondState.clear s).getCond u) ∩ p.2 ⊆ _
  rw [getCond_clear, holds_getFalseCond, Set.empty_inter]
  exact Set.empty_subset _

/-- The guard is exact where neither is the case. -/
theorem ComputeIntraVFGGuard_subset (hcomplete : GuardComplete a src dst)
    (hfits : a.postDominate dst src = true ∨ guardFits z maxZ3Size a fuel
      { ((CondState.clear .new).setCond z src getTrueCond).2 with worklist := [src] } = true)
    (h : ComputeIntraVFGGuard z maxZ3Size a fuel (.clear .new) src dst = some (guard, d)) :
    holds guard ⊆ exactIntra a src dst := by
  intro v hv
  rw [ComputeIntraVFGGuard] at h
  split at h
  · rename_i hdom
    exact .inl hdom
  · right
    rename_i hdom
    have hinv : LoopInv a src
        { ((CondState.clear .new).setCond z src getTrueCond).2 with worklist := [src] } :=
      loopInv_start rfl fun u _ => passed_clear _ u
    refine supported_guardLoop (hcomplete.resolve_left hdom) hinv (fun u w hw => ?_)
      (hfits.resolve_left hdom) h v hv
    have hholds : w ∈ holds (((CondState.clear .new).setCond z src getTrueCond).2.getCond u) := hw
    rw [holds_setCond rfl, getCond_clear, holds_getFalseCond] at hholds
    split at hholds
    · rename_i hu
      exact hu ▸ .refl
    · exact absurd hholds (Set.notMem_empty w)

end

section

variable (sl : Slice BB Node n)

/-- The branches under which the control flow gets to a removed strong update whose
block is not one of a successor. -/
def exactInvalid (cur : Node) : Set (Assignment n) :=
  {v | ∃ succ ∈ sl.removedSUVFEdges cur, sl.getSVFGNodeBB succ ∉ sl.validOutBBs cur ∧
    v ∈ exactIntra (sl.allocator cur) (sl.getSVFGNodeBB cur) (sl.getSVFGNodeBB succ)}

variable {sl} {fuel : ℕ} {cur : Node} {r r' : Expr n × Solver n}

theorem addInvalid_solver {succ : Node}
    (h : sl.addInvalid z maxZ3Size fuel cur r succ = some r') : r'.2 = r.2 := by
  rw [Slice.addInvalid] at h
  split at h
  · rw [Option.some.inj h]
  · obtain ⟨⟨guard, d⟩, hrun, rfl⟩ := Option.map_eq_some_iff.mp h
    exact (OR_solver z maxZ3Size _ _ _).trans (ComputeIntraVFGGuard_solver hrun)

theorem foldlM_addInvalid_solver {succs : List Node}
    (h : succs.foldlM (sl.addInvalid z maxZ3Size fuel cur) r = some r') : r'.2 = r.2 := by
  induction succs generalizing r with
  | nil => rw [Option.some.inj h]
  | cons succ succs ih =>
      rw [List.foldlM_cons] at h
      obtain ⟨r1, hstep, hrest⟩ := Option.bind_eq_some_iff.mp h
      exact (ih hrest).trans (addInvalid_solver hstep)

theorem addInvalid_subset {succ : Node} (hr : r.2 = .new)
    (hcomplete : GuardComplete (sl.allocator cur) (sl.getSVFGNodeBB cur) (sl.getSVFGNodeBB succ))
    (hfits : invalidStepFits z maxZ3Size sl fuel cur r.1 succ)
    (hsucc : succ ∈ sl.removedSUVFEdges cur) (hsubset : holds r.1 ⊆ exactInvalid sl cur)
    (h : sl.addInvalid z maxZ3Size fuel cur r succ = some r') :
    holds r'.1 ⊆ exactInvalid sl cur := by
  rw [Slice.addInvalid] at h
  split at h
  · rw [← Option.some.inj h]
    exact hsubset
  · rename_i hvalid
    obtain ⟨⟨guard, d⟩, hrun, rfl⟩ := Option.map_eq_some_iff.mp h
    rw [hr] at hrun
    obtain ⟨hguard, hor⟩ := hfits hvalid
    have hexact := ComputeIntraVFGGuard_subset hcomplete hguard hrun
    have hd : d.solver = .new := ComputeIntraVFGGuard_solver hrun
    intro v hv
    have heval : (OR z maxZ3Size d.solver r.1 guard).1.eval v = true := hv
    rw [hd, eval_OR (hor _ hrun), Bool.or_eq_true] at heval
    rcases heval with hold | hnew
    · exact hsubset hold
    · exact ⟨succ, hsucc, hvalid, hexact hnew⟩

/-- The condition of the removed edges is not too weak. -/
theorem computeInvalid_subset
    (hcomplete : ∀ succ ∈ sl.removedSUVFEdges cur, sl.getSVFGNodeBB succ ∉ sl.validOutBBs cur →
      GuardComplete (sl.allocator cur) (sl.getSVFGNodeBB cur) (sl.getSVFGNodeBB succ))
    (hfits : InvalidFits z maxZ3Size sl fuel cur)
    (h : sl.computeInvalidCondFromRemovedSUVFEdge z maxZ3Size fuel .new cur = some r) :
    holds r.1 ⊆ exactInvalid sl cur := by
  have hprefix : ∀ rest succs r, sl.removedSUVFEdges cur = succs ++ rest →
      succs.foldlM (sl.addInvalid z maxZ3Size fuel cur) (getFalseCond, .new) = some r →
        holds r.1 ⊆ exactInvalid sl cur := by
    intro rest succs
    induction succs using List.reverseRecOn generalizing rest with
    | nil =>
        intro r _ hr
        rw [← Option.some.inj hr, holds_getFalseCond]
        exact Set.empty_subset _
    | append_singleton succs succ ih =>
        intro r heq hr
        rw [List.foldlM_append] at hr
        obtain ⟨r1, hfirst, hlast⟩ := Option.bind_eq_some_iff.mp hr
        rw [List.foldlM_cons] at hlast
        obtain ⟨r2, hstep, hnil⟩ := Option.bind_eq_some_iff.mp hlast
        cases Option.some.inj hnil
        rw [List.append_assoc, List.singleton_append] at heq
        have hmem : succ ∈ sl.removedSUVFEdges cur := by
          rw [heq]
          exact List.mem_append_right _ List.mem_cons_self
        by_cases hvalid : sl.getSVFGNodeBB succ ∈ sl.validOutBBs cur
        · rw [Slice.addInvalid, if_pos hvalid] at hstep
          rw [← Option.some.inj hstep]
          exact ih _ r1 heq hfirst
        · exact addInvalid_subset (foldlM_addInvalid_solver hfirst) (hcomplete succ hmem hvalid)
            (hfits succs succ rest r1 heq hfirst) hmem (ih _ r1 heq hfirst) hstep
  exact hprefix [] (sl.removedSUVFEdges cur) r (List.append_nil _).symm h

theorem exists_foldlM_addInvalid [Fintype BB] {succs : List Node} (hr : r.2 = .new)
    (hfuel : fuelBound BB n ≤ fuel) :
    ∃ r', succs.foldlM (sl.addInvalid z maxZ3Size fuel cur) r = some r' := by
  induction succs generalizing r with
  | nil => exact ⟨r, rfl⟩
  | cons succ succs ih =>
      have hstep : ∃ r1, sl.addInvalid z maxZ3Size fuel cur r succ = some r1 := by
        rw [Slice.addInvalid]
        split
        · exact ⟨r, rfl⟩
        · obtain ⟨g, hrun⟩ : ∃ g, ComputeIntraVFGGuard z maxZ3Size (sl.allocator cur) fuel
              (.clear r.2) (sl.getSVFGNodeBB cur) (sl.getSVFGNodeBB succ) = some g :=
            exists_ComputeIntraVFGGuard hr hfuel
          exact ⟨_, by rw [hrun, Option.map_some]⟩
      obtain ⟨r1, hr1⟩ := hstep
      obtain ⟨r', hrest⟩ := ih ((addInvalid_solver hr1).trans hr)
      exact ⟨r', by rw [List.foldlM_cons, hr1]; exact hrest⟩

end

end SVF.SABER.InvalidConds
