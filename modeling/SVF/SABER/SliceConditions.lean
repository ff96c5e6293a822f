import SVF.SABER.InvalidConds

namespace SVF.SABER.SliceConditions

open Relation SaberCondAllocator ProgSlice Util.Z3Expr Util.Propagation GuardCoverage InvalidConds

variable {BB Node : Type} {n : ℕ} [DecidableEq BB] {z : Z3 n} {maxZ3Size : ℕ}
  {sl : Slice BB Node n} {node : Node} {edge : SVFGEdge BB Node} {fuel : ℕ}

section

variable (sl : Slice BB Node n)

/-- The guards within a function of which the guard of an edge is made. -/
def legs (node : Node) (edge : SVFGEdge BB Node) : List (BB × BB) :=
  let nodeBB := sl.getSVFGNodeBB node
  let succBB := sl.getSVFGNodeBB edge.dst
  match edge.kind with
  | .intra => [(nodeBB, succBB)]
  | .call callBB => [(nodeBB, callBB), (sl.getEntryBlock succBB, succBB)]
  | .ret retBB => [(nodeBB, sl.getExitBB nodeBB), (retBB, succBB)]

/-- The branches under which the value flow takes an edge. -/
def exactEdge (node : Node) (edge : SVFGEdge BB Node) : Set (Assignment n) :=
  {v | ∀ leg ∈ legs sl node edge, v ∈ exactIntra (sl.allocator node) leg.1 leg.2}

/-- The edges of the slice with their exact guards, from which those of the removed
strong-update edges at their source are taken off. -/
def sliceEdges : Edges Node (Assignment n) :=
  fun u => {p | ∃ edge ∈ sl.outEdges u, sl.inBackwardSlice edge.dst = true ∧
    p = (edge.dst, exactEdge sl u edge \ exactInvalid sl u)}

def Visited : Node → Prop :=
  ReflTransGen (fun u w => ∃ edge ∈ sl.outEdges u, sl.inBackwardSlice edge.dst = true ∧
    edge.dst = w) sl.root

/-- No guard that is computed is cut short at a loop header. -/
def GuardsComplete : Prop :=
  ∀ u, Visited sl u →
    (∀ edge ∈ sl.outEdges u, sl.inBackwardSlice edge.dst = true →
      ∀ leg ∈ legs sl u edge, GuardComplete (sl.allocator u) leg.1 leg.2) ∧
    ∀ succ ∈ sl.removedSUVFEdges u, sl.getSVFGNodeBB succ ∉ sl.validOutBBs u →
      GuardComplete (sl.allocator u) (sl.getSVFGNodeBB u) (sl.getSVFGNodeBB succ)

end

section

variable {g : Expr n × Solver n} {solver : Solver n}

theorem edgeGuard_covers
    (hcomplete : ∀ leg ∈ legs sl node edge, GuardComplete (sl.allocator node) leg.1 leg.2)
    (h : sl.edgeGuard z maxZ3Size fuel .new node edge = some g) :
    exactEdge sl node edge ⊆ holds g.1 := by
  obtain ⟨⟨guard, d⟩, hrun, rfl⟩ := Option.map_eq_some_iff.mp h
  intro v hv
  rw [exactEdge, Set.mem_ofPred_eq] at hv
  rw [legs] at hcomplete hv
  cases hkind : edge.kind with
  | intra =>
      rw [hkind] at hcomplete hv hrun
      simp only [List.mem_singleton, forall_eq] at hcomplete hv
      exact ComputeIntraVFGGuard_covers hcomplete rfl (fun u _ => passed_clear _ u) hrun hv
  | call callBB =>
      rw [hkind] at hcomplete hv hrun
      simp only [List.mem_cons, List.not_mem_nil, or_false, forall_eq_or_imp, forall_eq]
        at hcomplete hv
      exact computeInterVFGGuard_covers hcomplete.1 hcomplete.2 rfl (passed_clear _) hrun hv
  | ret retBB =>
      rw [hkind] at hcomplete hv hrun
      simp only [List.mem_cons, List.not_mem_nil, or_false, forall_eq_or_imp, forall_eq]
        at hcomplete hv
      exact computeInterVFGGuard_covers hcomplete.1 hcomplete.2 rfl (passed_clear _) hrun hv

theorem edgeGuard_solver (h : sl.edgeGuard z maxZ3Size fuel solver node edge = some g) :
    g.2 = solver := by
  obtain ⟨⟨guard, d⟩, hrun, rfl⟩ := Option.map_eq_some_iff.mp h
  cases hkind : edge.kind with
  | intra =>
      rw [hkind] at hrun
      exact ComputeIntraVFGGuard_solver hrun
  | call callBB =>
      rw [hkind] at hrun
      exact computeInterVFGGuard_solver hrun
  | ret retBB =>
      rw [hkind] at hrun
      exact computeInterVFGGuard_solver hrun

theorem exists_edgeGuard [Fintype BB] (hfuel : fuelBound BB n ≤ fuel) :
    ∃ g, sl.edgeGuard z maxZ3Size fuel .new node edge = some g := by
  rw [Slice.edgeGuard]
  cases edge.kind with
  | intra =>
      obtain ⟨r, hr⟩ := exists_ComputeIntraVFGGuard (c := .clear .new) rfl hfuel
      exact ⟨_, Option.map_eq_some_iff.mpr ⟨r, hr, rfl⟩⟩
  | call callBB =>
      obtain ⟨r, hr⟩ := exists_computeInterVFGGuard (c := .clear .new) rfl hfuel
      exact ⟨_, Option.map_eq_some_iff.mpr ⟨r, hr, rfl⟩⟩
  | ret retBB =>
      obtain ⟨r, hr⟩ := exists_computeInterVFGGuard (c := .clear .new) rfl hfuel
      exact ⟨_, Option.map_eq_some_iff.mpr ⟨r, hr, rfl⟩⟩

end

section

variable [DecidableEq Node] {invalidCond cond : Expr n} {s t : CondState Node n}

theorem visitEdge_solver
    (h : sl.visitEdge z maxZ3Size fuel node invalidCond cond s edge = some t) :
    t.solver = s.solver := by
  rw [Slice.visitEdge] at h
  split at h
  · obtain ⟨g, hg, rfl⟩ := Option.map_eq_some_iff.mp h
    exact (relax_solver _ cond _ _).trans ((AND_solver z maxZ3Size _ _ _).trans (edgeGuard_solver hg))
  · rw [Option.some.inj h]

theorem visitEdge_relaxed (hs : s.solver = .new) (hslice : sl.inBackwardSlice edge.dst = true)
    (hcomplete : ∀ leg ∈ legs sl node edge, GuardComplete (sl.allocator node) leg.1 leg.2)
    (hinvalid : holds invalidCond ⊆ exactInvalid sl node)
    (h : sl.visitEdge z maxZ3Size fuel node invalidCond cond s edge = some t) :
    Relaxed (holds cond) (edge.dst, exactEdge sl node edge \ exactInvalid sl node) (marking s)
      (marking t) := by
  rw [Slice.visitEdge, if_pos hslice] at h
  obtain ⟨g, hg, rfl⟩ := Option.map_eq_some_iff.mp h
  rw [hs] at hg
  have hcover := edgeGuard_covers hcomplete hg
  have hnew : g.2 = .new := edgeGuard_solver hg
  have hsolver : (AND z maxZ3Size g.2 g.1 (NEG z invalidCond)).2 = s.solver := by
    rw [AND_solver, hnew, hs]
  have hguard : exactEdge sl node edge \ exactInvalid sl node ⊆
      holds (AND z maxZ3Size g.2 g.1 (NEG z invalidCond)).1 := by
    rw [hnew]
    intro v hv
    refine le_eval_AND (hcover hv.1) ?_
    rw [eval_NEG, Bool.not_eq_true', Bool.eq_false_iff]
    exact fun htrue => hv.2 (hinvalid htrue)
  dsimp only
  rw [hsolver]
  exact (relax_relaxed hs cond _ edge.dst).mono hguard

theorem mem_visitEdge_worklist {u : Node} (hu : u ∈ t.worklist)
    (h : sl.visitEdge z maxZ3Size fuel node invalidCond cond s edge = some t) :
    u ∈ s.worklist ∨ sl.inBackwardSlice edge.dst = true ∧ edge.dst = u := by
  rw [Slice.visitEdge] at h
  split at h
  · rename_i hslice
    obtain ⟨g, hg, rfl⟩ := Option.map_eq_some_iff.mp h
    exact (mem_relax_worklist hu).imp id fun heq => ⟨hslice, heq.symm⟩
  · rw [Option.some.inj h]
    exact .inl hu

/-- What a visit of all edges does, in terms of the invariant of a visit. -/
structure EdgesVisited (sl : Slice BB Node n) (node : Node) (cond : Expr n)
    (done : Set (Node × Set (Assignment n))) (l : List (SVFGEdge BB Node))
    (s t : CondState Node n) : Prop where
  visiting : Visiting (sliceEdges sl) node (holds cond)
    (done ∪ {p | ∃ edge ∈ l, sl.inBackwardSlice edge.dst = true ∧
      p = (edge.dst, exactEdge sl node edge \ exactInvalid sl node)}) (marking t)
  grows : ∀ u, holds (s.getCond u) ⊆ holds (t.getCond u)
  worklist : ∀ u ∈ t.worklist, u ∈ s.worklist ∨ ∃ edge ∈ l,
    sl.inBackwardSlice edge.dst = true ∧ edge.dst = u

theorem foldlM_visitEdge_solver {l : List (SVFGEdge BB Node)}
    (h : l.foldlM (sl.visitEdge z maxZ3Size fuel node invalidCond cond) s = some t) :
    t.solver = s.solver := by
  induction l generalizing s with
  | nil => rw [Option.some.inj h]
  | cons edge l ih =>
      rw [List.foldlM_cons] at h
      obtain ⟨s1, hstep, hrest⟩ := Option.bind_eq_some_iff.mp h
      exact (ih hrest).trans (visitEdge_solver hstep)

theorem foldlM_visitEdge {l : List (SVFGEdge BB Node)} {done : Set (Node × Set (Assignment n))}
    (hs : s.solver = .new)
    (hcomplete : ∀ edge ∈ l, sl.inBackwardSlice edge.dst = true →
      ∀ leg ∈ legs sl node edge, GuardComplete (sl.allocator node) leg.1 leg.2)
    (hinvalid : holds invalidCond ⊆ exactInvalid sl node)
    (hvisiting : Visiting (sliceEdges sl) node (holds cond) done (marking s))
    (h : l.foldlM (sl.visitEdge z maxZ3Size fuel node invalidCond cond) s = some t) :
    EdgesVisited sl node cond done l s t := by
  induction l generalizing s done with
  | nil =>
      cases Option.some.inj h
      exact ⟨⟨hvisiting.closed, hvisiting.popped, fun p hp =>
        hvisiting.done p (hp.resolve_right fun hl => by simp at hl)⟩, fun u => subset_rfl,
        fun u hu => .inl hu⟩
  | cons edge l ih =>
      rw [List.foldlM_cons] at h
      obtain ⟨s1, hstep, hrest⟩ := Option.bind_eq_some_iff.mp h
      have hs1 := (visitEdge_solver hstep).trans hs
      have hl := fun e he => hcomplete e (List.mem_cons_of_mem edge he)
      have hwork : ∀ u ∈ s1.worklist, u ∈ s.worklist ∨ ∃ e ∈ edge :: l,
          sl.inBackwardSlice e.dst = true ∧ e.dst = u := fun u hu =>
        (mem_visitEdge_worklist hu hstep).imp id fun hu => ⟨edge, List.mem_cons_self, hu⟩
      by_cases hslice : sl.inBackwardSlice edge.dst = true
      · have hrelaxed := visitEdge_relaxed hs hslice (hcomplete edge List.mem_cons_self hslice)
          hinvalid hstep
        have hvisited := ih hs1 hl (hvisiting.relaxed hrelaxed) hrest
        refine ⟨⟨hvisited.visiting.closed, hvisited.visiting.popped, fun p hp =>
          hvisited.visiting.done p ?_⟩, fun u => (hrelaxed.grows u).trans (hvisited.grows u),
          fun u hu => ?_⟩
        · rcases hp with hp | ⟨e, he, hp⟩
          · exact .inl (.inr hp)
          · rcases List.mem_cons.mp he with rfl | he
            · exact .inl (.inl hp.2)
            · exact .inr ⟨e, he, hp⟩
        · rcases hvisited.worklist u hu with hu | ⟨e, he, hu⟩
          · exact hwork u hu
          · exact .inr ⟨e, List.mem_cons_of_mem edge he, hu⟩
      · rw [Slice.visitEdge, if_neg hslice] at hstep
        cases Option.some.inj hstep
        have hvisited := ih hs1 hl hvisiting hrest
        refine ⟨⟨hvisited.visiting.closed, hvisited.visiting.popped, fun p hp =>
          hvisited.visiting.done p ?_⟩, hvisited.grows, fun u hu => ?_⟩
        · rcases hp with hp | ⟨e, he, hp⟩
          · exact .inl hp
          · rcases List.mem_cons.mp he with rfl | he
            · exact absurd hp.1 hslice
            · exact .inr ⟨e, he, hp⟩
        · rcases hvisited.worklist u hu with hu | ⟨e, he, hu⟩
          · exact .inl hu
          · exact .inr ⟨e, List.mem_cons_of_mem edge he, hu⟩

end

section

variable [DecidableEq Node] {s t : CondState Node n} {rest : List Node} {guardFuel : ℕ}

theorem visitNode_solver (h : sl.visitNode z maxZ3Size fuel s node = some t) :
    t.solver = s.solver := by
  obtain ⟨r, hr, hedges⟩ := Option.bind_eq_some_iff.mp h
  exact (foldlM_visitEdge_solver hedges).trans (foldlM_addInvalid_solver hr)

theorem solveLoop_solver (h : sl.solveLoop z maxZ3Size guardFuel fuel s = some t) :
    t.solver = s.solver := by
  induction fuel generalizing s with
  | zero => contradiction
  | succ fuel ih =>
      rw [Slice.solveLoop] at h
      split at h
      · rw [Option.some.inj h]
      · obtain ⟨s1, hvisit, hrest⟩ := Option.bind_eq_some_iff.mp h
        have hsolver := visitNode_solver hvisit
        exact (ih hrest).trans hsolver

structure SolveInv (sl : Slice BB Node n) (s : CondState Node n) : Prop where
  solver : s.solver = .new
  closed : Closed (sliceEdges sl) (marking s)
  worklist : ∀ u ∈ s.worklist, Visited sl u

theorem SolveInv.visit (hguards : GuardsComplete sl)
    (hfits : ∀ u, Visited sl u → ∀ fuel, InvalidFits z maxZ3Size sl fuel u) (h : SolveInv sl s)
    (hwork : s.worklist = node :: rest)
    (hvisit : sl.visitNode z maxZ3Size fuel { s with worklist := rest } node = some t) :
    SolveInv sl t ∧ ∀ u, holds (s.getCond u) ⊆ holds (t.getCond u) := by
  have hvisited : ∀ u ∈ node :: rest, Visited sl u := hwork ▸ h.worklist
  obtain ⟨hedges, hremoved⟩ := hguards node (hvisited node List.mem_cons_self)
  obtain ⟨r, hr, hrun⟩ := Option.bind_eq_some_iff.mp hvisit
  have hr' : sl.computeInvalidCondFromRemovedSUVFEdge z maxZ3Size fuel .new node = some r := by
    rw [← h.solver]
    exact hr
  have hinvalid := computeInvalid_subset hremoved
    (hfits node (hvisited node List.mem_cons_self) fuel) hr'
  have hnew : r.2 = .new := foldlM_addInvalid_solver hr'
  have hstart : Visiting (sliceEdges sl) node (holds (s.getCond node)) ∅
      (marking { s with worklist := rest, solver := r.2 }) := by
    refine Visiting.start h.closed fun u hu hne => ?_
    have hmem : u ∈ node :: rest := hwork ▸ hu
    exact (List.mem_cons.mp hmem).resolve_left hne
  have hall := foldlM_visitEdge hnew hedges hinvalid hstart hrun
  refine ⟨⟨(foldlM_visitEdge_solver hrun).trans hnew, hall.visiting.finish fun p hp => .inr hp,
    fun u hu => ?_⟩, hall.grows⟩
  rcases hall.worklist u hu with hu | ⟨edge, hedge, hslice, rfl⟩
  · exact hvisited u (List.mem_cons_of_mem node hu)
  · exact (hvisited node List.mem_cons_self).tail ⟨edge, hedge, hslice, rfl⟩

theorem solveLoop_closed (hguards : GuardsComplete sl)
    (hfits : ∀ u, Visited sl u → ∀ fuel, InvalidFits z maxZ3Size sl fuel u) (h : SolveInv sl s)
    (hrun : sl.solveLoop z maxZ3Size guardFuel fuel s = some t) :
    Closed (sliceEdges sl) (marking t) ∧ t.worklist = [] ∧
      ∀ u, holds (s.getCond u) ⊆ holds (t.getCond u) := by
  induction fuel generalizing s with
  | zero => contradiction
  | succ fuel ih =>
      cases hwork : s.worklist with
      | nil =>
          rw [Slice.solveLoop, hwork] at hrun
          cases Option.some.inj hrun
          exact ⟨h.closed, hwork, fun u => subset_rfl⟩
      | cons node rest =>
          rw [Slice.solveLoop, hwork] at hrun
          obtain ⟨s1, hvisit, hloop⟩ := Option.bind_eq_some_iff.mp hrun
          obtain ⟨hinv, hgrows⟩ := h.visit hguards hfits hwork hvisit
          obtain ⟨hclosed, hempty, hrest⟩ := ih hinv hloop
          exact ⟨hclosed, hempty, fun u => (hgrows u).trans (hrest u)⟩

def start (z : Z3 n) (sl : Slice BB Node n) (solver : Solver n) : CondState Node n :=
  ({ (CondState.clear solver) with worklist := [sl.root] }.setCond z sl.root getTrueCond).2

omit [DecidableEq BB] in
theorem start_solver (solver : Solver n) : (start z sl solver).solver = solver :=
  setCond_solver _ _ _

omit [DecidableEq BB] in
theorem holds_start (u : Node) :
    holds ((start z sl .new).getCond u) = if u = sl.root then Set.univ else ∅ := by
  have hset := holds_setCond (z := z)
    (s := ({ (CondState.clear .new) with worklist := [sl.root] } : CondState Node n)) rfl sl.root
    getTrueCond u
  rw [start, hset]
  split
  · exact Set.eq_univ_of_forall fun v => eval_getTrueCond
  · exact holds_getFalseCond

theorem solveInv_start : SolveInv sl (start z sl .new) where
  solver := start_solver _
  closed := by
    intro u
    by_cases hu : u = sl.root
    · left
      change u ∈ (start z sl .new).worklist
      rw [start, setCond_worklist, hu]
      exact List.mem_cons_self
    · right
      intro p _
      change holds ((start z sl .new).getCond u) ∩ p.2 ⊆ _
      rw [holds_start, if_neg hu, Set.empty_inter]
      exact Set.empty_subset _
  worklist := by
    intro u hu
    rw [start, setCond_worklist] at hu
    rw [List.mem_singleton.mp hu]
    exact .refl

omit [DecidableEq BB] [DecidableEq Node] in
theorem isSatisfiableForAll_solver (s : CondState Node n) :
    (sl.isSatisfiableForAll z maxZ3Size s).2.2 = s := by
  have hfold : (sl.sinks.foldl (fun r sink => OR z maxZ3Size r.2 r.1 (s.getCond sink))
      (getFalseCond, s.solver)).2 = s.solver :=
    Util.Folds.foldl_invariant (I := fun r : Expr n × Solver n => r.2 = s.solver)
      (fun sink _ r hr => (OR_solver z maxZ3Size _ _ _).trans hr) rfl
  rw [Slice.isSatisfiableForAll]
  dsimp only [isAllPathReachable]
  rw [isEquivalentBranchCond_solver, hfold]

theorem AllPathReachableSolve_eq {solver : Solver n} {r : Expr n × Bool × CondState Node n}
    (h : sl.AllPathReachableSolve z maxZ3Size fuel solver = some r) :
    sl.solveLoop z maxZ3Size fuel fuel (start z sl solver) = some r.2.2 := by
  obtain ⟨s, hs, rfl⟩ := Option.map_eq_some_iff.mp h
  rw [isSatisfiableForAll_solver]
  exact hs

variable [Fintype BB]

theorem exists_visitEdge [Fintype Node] {invalidCond cond : Expr n} (hs : s.solver = .new)
    (hfuel : fuelBound BB n ≤ fuel) :
    ∃ t, sl.visitEdge z maxZ3Size fuel node invalidCond cond s edge = some t ∧
      remaining t ≤ remaining s := by
  rw [Slice.visitEdge]
  split
  · obtain ⟨g, hg⟩ : ∃ g, sl.edgeGuard z maxZ3Size fuel .new node edge = some g :=
      exists_edgeGuard hfuel
    have hnew : g.2 = .new := edgeGuard_solver hg
    rw [hs, hg]
    refine ⟨_, rfl, ?_⟩
    dsimp only
    exact relax_remaining ((AND_solver z maxZ3Size _ _ _).trans hnew) cond _ edge.dst
  · exact ⟨s, rfl, le_rfl⟩

theorem exists_visitNode [Fintype Node] (hs : s.solver = .new) (hfuel : fuelBound BB n ≤ fuel) :
    ∃ t, sl.visitNode z maxZ3Size fuel s node = some t ∧ remaining t ≤ remaining s := by
  obtain ⟨r, hr⟩ : ∃ r, sl.computeInvalidCondFromRemovedSUVFEdge z maxZ3Size fuel s.solver node =
      some r := exists_foldlM_addInvalid hs hfuel
  have hedges : ∀ l : List (SVFGEdge BB Node), ∀ cond, ∀ s : CondState Node n, s.solver = .new →
      ∃ t, l.foldlM (sl.visitEdge z maxZ3Size fuel node r.1 cond) s = some t ∧
        remaining t ≤ remaining s := by
    intro l cond
    induction l with
    | nil => exact fun s _ => ⟨s, rfl, le_rfl⟩
    | cons edge l ih =>
        intro s hs
        obtain ⟨s1, hs1, hle1⟩ : ∃ t, sl.visitEdge z maxZ3Size fuel node r.1 cond s edge = some t ∧
            remaining t ≤ remaining s := exists_visitEdge hs hfuel
        obtain ⟨t, ht, hle⟩ := ih s1 ((visitEdge_solver hs1).trans hs)
        exact ⟨t, by rw [List.foldlM_cons, hs1]; exact ht, hle.trans hle1⟩
  obtain ⟨t, ht, hle⟩ := hedges (sl.outEdges node) (s.getCond node) { s with solver := r.2 }
    ((foldlM_addInvalid_solver hr).trans hs)
  exact ⟨t, Option.bind_eq_some_iff.mpr ⟨r, hr, ht⟩, hle⟩

theorem exists_solveLoop [Fintype Node] (hs : s.solver = .new)
    (hguard : fuelBound BB n ≤ guardFuel) (hfuel : remaining s < fuel) :
    ∃ t, sl.solveLoop z maxZ3Size guardFuel fuel s = some t := by
  induction fuel generalizing s with
  | zero => exact absurd hfuel (Nat.not_lt_zero _)
  | succ fuel ih =>
      cases hwork : s.worklist with
      | nil => exact ⟨s, by rw [Slice.solveLoop, hwork]⟩
      | cons node rest =>
          have hpop := remaining_pop hwork
          obtain ⟨s1, hvisit, hle⟩ : ∃ t, sl.visitNode z maxZ3Size guardFuel
              { s with worklist := rest } node = some t ∧ remaining t ≤
                remaining { s with worklist := rest } := exists_visitNode hs hguard
          obtain ⟨t, ht⟩ := ih ((visitNode_solver hvisit).trans hs)
            (lt_of_le_of_lt hle (by omega))
          exact ⟨t, by rw [Slice.solveLoop, hwork]; exact Option.bind_eq_some_iff.mpr ⟨s1, hvisit, ht⟩⟩

end

inductive Operation (n : ℕ)
  | AND (lhs rhs : Expr n)
  | OR (lhs rhs : Expr n)
  | isEquivalentBranchCond (lhs rhs : Expr n)
  | isSatisfiable (condition : Expr n)
  | isAllPathReachable (condition : Expr n)

namespace Operation

def run (z : Z3 n) (maxZ3Size : ℕ) (s : Solver n) : Operation n → Solver n
  | .AND lhs rhs => (Util.Z3Expr.AND z maxZ3Size s lhs rhs).2
  | .OR lhs rhs => (Util.Z3Expr.OR z maxZ3Size s lhs rhs).2
  | .isEquivalentBranchCond lhs rhs => (ProgSlice.isEquivalentBranchCond z s lhs rhs).2
  | .isSatisfiable condition => (ProgSlice.isSatisfiable z s condition).2
  | .isAllPathReachable condition => (ProgSlice.isAllPathReachable z s condition).2

def asksSatisfiable : Operation n → Bool
  | .isSatisfiable _ => true
  | _ => false

end Operation

def leftover (s : Solver n) : ℤ := s.assertions.length - s.scopes.length

theorem leftover_isSatisfiable (z : Z3 n) (s : Solver n) (condition : Expr n) :
    leftover (isSatisfiable z s condition).2 = leftover s + 1 := by
  change leftover (s.add condition).pop = leftover s + 1
  obtain ⟨scopes, assertions⟩ := s
  cases scopes with
  | nil => simp [leftover, Solver.add, Solver.pop]
  | cons scope scopes =>
      simp only [leftover, Solver.add, Solver.pop, List.tail_cons, List.length_cons]
      omega

theorem run_solver (z : Z3 n) (maxZ3Size : ℕ) (s : Solver n) {op : Operation n}
    (h : op.asksSatisfiable = false) : op.run z maxZ3Size s = s := by
  cases op with
  | AND lhs rhs => exact AND_solver z maxZ3Size s lhs rhs
  | OR lhs rhs => exact OR_solver z maxZ3Size s lhs rhs
  | isEquivalentBranchCond | isAllPathReachable => rfl
  | isSatisfiable => contradiction

theorem leftover_runs (z : Z3 n) (maxZ3Size : ℕ) (ops : List (Operation n)) (s : Solver n) :
    leftover (ops.foldl (Operation.run z maxZ3Size) s) =
      leftover s + ops.countP Operation.asksSatisfiable := by
  induction ops generalizing s with
  | nil => simp
  | cons op ops ih =>
      rw [List.foldl_cons, ih, List.countP_cons]
      cases hop : op.asksSatisfiable with
      | false =>
          rw [run_solver z maxZ3Size s hop]
          simp
      | true =>
          cases op with
          | isSatisfiable condition =>
              have hstep := leftover_isSatisfiable z s condition
              simp only [Operation.run, if_true, Nat.cast_add, Nat.cast_one]
              omega
          | AND | OR | isEquivalentBranchCond | isAllPathReachable => contradiction

/-- The assertions are the same in the end if and only if `isSatisfiable` has not been asked. -/
theorem runs_solver_iff (z : Z3 n) (maxZ3Size : ℕ) (ops : List (Operation n)) (s : Solver n) :
    ops.foldl (Operation.run z maxZ3Size) s = s ↔ ∀ op ∈ ops, op.asksSatisfiable = false := by
  constructor
  · intro heq op hop
    have hcount := leftover_runs z maxZ3Size ops s
    rw [heq] at hcount
    have hzero : ops.countP Operation.asksSatisfiable = 0 := by omega
    exact Bool.eq_false_iff.mpr (List.countP_eq_zero.mp hzero op hop)
  · intro hall
    induction ops with
    | nil => rfl
    | cons op ops ih =>
        rw [List.foldl_cons, run_solver z maxZ3Size s (hall op List.mem_cons_self)]
        exact ih fun op' hop' => hall op' (List.mem_cons_of_mem op hop')

section

local instance neZero_three : NeZero (3 : ℕ) := ⟨by decide⟩

def trueConds : Assignment 2 := ![true, false]

/-- No simplification, and a check that tries all branches. -/
def z3 : Z3 2 where
  simplify := id
  check es := if ∀ v : Assignment 2, ∃ e ∈ es, e.eval v = false then .unsat else .sat
  eval_simplify _ _ := rfl
  check_unsat es := by
    split
    · rename_i h
      exact iff_of_true rfl h
    · rename_i h
      exact iff_of_false (fun heq => CheckResult.noConfusion heq) h

/-- `0` branches on `c0` to `1`, which branches on `c1` to `3` and `4`. -/
def allocator : Allocator (Fin 5) (Expr 2) where
  blocks := [0, 1, 2, 3, 4]
  getSuccessors := ![[1, 2], [3, 4], [], [], []]
  postDominate key value := key == value
  isLoopHeader _ := false
  getExitBlocksOfLoop _ := []
  exitBBs := []
  branchStmt _ := none
  bbConds bb i :=
    let cond := if bb = 0 then .bool_const 0 else .bool_const 1
    if i = 0 then cond else .app .not (.cons cond .nil)
  hasCurEvalValue := false
  successors_mem := by decide

/-- The value flows from `0` in the first block to `1` in the last one. The edge to `2`,
which is in block `3`, may have been removed. -/
def slice (removed : List (Fin 3)) : Slice (Fin 5) (Fin 3) 2 where
  root := 0
  inBackwardSlice node := node == 1
  outEdges := ![[⟨1, .intra⟩], [], []]
  sinks := [1]
  getSVFGNodeBB := ![0, 4, 3]
  removedSUVFEdges := ![removed, [], []]
  allocator _ := allocator
  getEntryBlock _ := 0
  getExitBB _ := 4

theorem reach_block : Reach (cfEdges allocator) trueConds 0 4 := by
  have hstep : ∀ u w : Fin 5, w ∈ allocator.getSuccessors u →
      (brCond allocator u w).eval trueConds = true →
        ∃ g, (w, g) ∈ cfEdges allocator u ∧ trueConds ∈ g :=
    fun u w hsucc heval => ⟨holds (brCond allocator u w), ⟨hsucc, rfl⟩, heval⟩
  exact .tail (.single (hstep 0 1 (by decide) (by decide +kernel)))
    (hstep 1 4 (by decide) (by decide +kernel))

/-- With `c0` and not `c1` the control flow does not get to the block of the removed edge. -/
theorem not_reach_removed : ¬ Reach (cfEdges allocator) trueConds 0 3 := by
  intro hreach
  have hstep : ∀ u w : Fin 5, u ≠ 3 → w ∈ allocator.getSuccessors u →
      (brCond allocator u w).eval trueConds = true → w ≠ 3 := by decide +kernel
  have hnot : ∀ w, Reach (cfEdges allocator) trueConds 0 w → w ≠ 3 := by
    intro w hw
    induction hw with
    | refl => decide
    | tail _ hlast ih =>
        obtain ⟨g, ⟨hsucc, hguard⟩, hg⟩ := hlast
        exact hstep _ _ ih hsucc (Set.ext_iff.mp hguard trueConds |>.mp hg)
  exact hnot 3 hreach rfl

theorem reach_sample (removed : List (Fin 3)) (h : ∀ succ ∈ removed, succ = 2) :
    Reach (sliceEdges (slice removed)) trueConds 0 1 := by
  refine .single ⟨_, ⟨⟨1, .intra⟩, List.mem_cons_self, rfl, rfl⟩, ?_, ?_⟩
  · intro leg hleg
    rw [List.mem_singleton.mp hleg]
    exact .inr reach_block
  · rintro ⟨succ, hsucc, -, hexact⟩
    rw [h succ hsucc] at hexact
    exact hexact.elim (fun hdom => Bool.false_ne_true hdom) not_reach_removed

theorem guardsComplete_slice : GuardsComplete (slice []) :=
  fun _ _ => ⟨fun _ _ _ _ _ => .inr fun _ _ => rfl, fun _ _ _ => .inr fun _ _ => rfl⟩

theorem invalidFits_slice (u : Fin 3) (fuel : ℕ) : InvalidFits z3 2 (slice []) fuel u := by
  intro succs succ rest _ heq
  have hempty : ∀ u : Fin 3, (slice []).removedSUVFEdges u = [] := by decide
  rw [hempty u] at heq
  simp at heq

end

end SVF.SABER.SliceConditions
