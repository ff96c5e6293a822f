import SVF.Graphs.Retargeting

namespace SVF.Graphs.Merging

open ConsG Registration Retargeting Util.OrderedSets

variable {g g₀ : ConstraintGraph} {node rep : NodeID}

def Moves (step : ConstraintGraph → ConstraintEdge → ConstraintGraph)
    (f : ConstraintEdge → Option ConstraintEdge) (g : ConstraintGraph) (e : ConstraintEdge) : Prop :=
  WellFormed (step g e) ∧ SameNodes g (step g e) ∧
    edges (step g e) = move ConstraintEdge.key (edges g) e (f e)

theorem foldl_moves {step : ConstraintGraph → ConstraintEdge → ConstraintGraph}
    {f : ConstraintEdge → Option ConstraintEdge} {l : List ConstraintEdge}
    (hstep : ∀ e ∈ l, ∀ g, WellFormed g → SameNodes g₀ g → e ∈ edges g → Moves step f g e)
    (hl : Movable ConstraintEdge.key l f) (hmem : ∀ e ∈ l, e ∈ edges g) (hg : WellFormed g)
    (hsame : SameNodes g₀ g) : WellFormed (l.foldl step g) ∧ SameNodes g (l.foldl step g) ∧
      edges (l.foldl step g) = moveAll ConstraintEdge.key (edges g) l f := by
  induction l generalizing g with
  | nil => exact ⟨hg, SameNodes.refl g, (moveAll_nil _ f).symm⟩
  | cons e l ih =>
      obtain ⟨hg₁, hsame₁, hedges₁⟩ := hstep e (by simp) g hg hsame (hmem e (by simp))
      have hne : ∀ x ∈ l, x ≠ e := fun x hx heq => (List.nodup_cons.mp hl.nodup).1 (heq ▸ hx)
      have hmem₁ : ∀ x ∈ l, x ∈ edges (step g e) := fun x hx =>
        hedges₁ ▸ .inl ⟨hmem x (List.mem_cons_of_mem e hx), hne x hx⟩
      obtain ⟨hg₂, hsame₂, hedges₂⟩ := ih (fun x hx => hstep x (List.mem_cons_of_mem e hx)) hl.tail
        hmem₁ hg₁ (hsame.trans hsame₁)
      refine ⟨hg₂, hsame₁.trans hsame₂, ?_⟩
      rw [List.foldl_cons, hedges₂, hedges₁]
      exact moveAll_cons (edges g) hl

inductive Side
  | dst | src

namespace Side

def here : Side → ConstraintEdge → NodeID
  | .dst, e => e.dst
  | .src, e => e.src

def there : Side → ConstraintEdge → NodeID
  | .dst, e => e.src
  | .src, e => e.dst

def withHere : Side → ConstraintEdge → NodeID → ConstraintEdge
  | .dst, e, n => { e with dst := n }
  | .src, e, n => { e with src := n }

def reTarget : Side → ConstraintGraph → ConstraintEdge → NodeID → ConstraintGraph
  | .dst => ConstraintGraph.reTargetDstOfEdge
  | .src => ConstraintGraph.reTargetSrcOfEdge

def listed : Side → ConstraintNode → List ConstraintEdge
  | .dst, node => (node.inEdges .edges).elems
  | .src, node => (node.outEdges .edges).elems

@[simp] theorem here_withHere (s : Side) (e : ConstraintEdge) (n : NodeID) :
    s.here (s.withHere e n) = n := by
  cases s <;> rfl

@[simp] theorem there_withHere (s : Side) (e : ConstraintEdge) (n : NodeID) :
    s.there (s.withHere e n) = s.there e := by
  cases s <;> rfl

@[simp] theorem cls_withHere (s : Side) (e : ConstraintEdge) (n : NodeID) :
    (s.withHere e n).cls = e.cls := by
  cases s <;> rfl

theorem key_eq (s : Side) {e e' : ConstraintEdge} : e.key = e'.key ↔
    e.cls.getEdgeKind = e'.cls.getEdgeKind ∧ s.here e = s.here e' ∧ s.there e = s.there e' := by
  constructor
  · intro h
    obtain ⟨hkind, hsrc, hdst⟩ := edgeKey_inj h
    cases s
    · exact ⟨hkind, hdst, hsrc⟩
    · exact ⟨hkind, hsrc, hdst⟩
  · rintro ⟨hkind, hhere, hthere⟩
    cases s
    · simp only [ConstraintEdge.key, hkind]
      exact congrArg₂ (edgeKey _) hthere hhere
    · simp only [ConstraintEdge.key, hkind]
      exact congrArg₂ (edgeKey _) hhere hthere

theorem hasGNode_there (s : Side) (hg : Registered g) {e : ConstraintEdge} (he : e ∈ edges g) :
    g.hasGNode (s.there e) = true := by
  cases s with
  | dst => exact hg.src e he
  | src => exact hg.dst e he

theorem mem_listed (s : Side) (hg : Registered g) {id : NodeID} {node : ConstraintNode}
    (hnode : g.IDToNodeMap.lookup id = some node) (e : ConstraintEdge) :
    e ∈ s.listed node ↔ e ∈ edges g ∧ s.here e = id := by
  cases s with
  | dst => exact (hg.inn id node hnode .edges e).trans (and_congr_right fun _ => and_iff_left rfl)
  | src => exact (hg.out id node hnode .edges e).trans (and_congr_right fun _ => and_iff_left rfl)

theorem nodup_listed (s : Side) (node : ConstraintNode) : (s.listed node).Nodup := by
  cases s <;> exact nodup_elems _

end Side

def moveToRepNode (s : Side) (g : ConstraintGraph) (node rep : NodeID) : ConstraintGraph × Bool :=
  let listed := s.listed ((g.IDToNodeMap.lookup node).getD .new)
  let nonSccEdges := listed.filter (fun e => g.sccRepNode (s.there e) ≠ rep)
  let sccEdges := listed.filter (fun e => g.sccRepNode (s.there e) = rep)
  let g := nonSccEdges.reverse.foldl (fun g e => s.reTarget g e rep) g
  sccEdges.reverse.foldl (ConstraintGraph.moveSccEdge s.reTarget rep) (g, false)

theorem moveInEdgesToRepNode_eq (g : ConstraintGraph) (node rep : NodeID) :
    g.moveInEdgesToRepNode node rep = moveToRepNode .dst g node rep := rfl

theorem moveOutEdgesToRepNode_eq (g : ConstraintGraph) (node rep : NodeID) :
    g.moveOutEdgesToRepNode node rep = moveToRepNode .src g node rep := rfl

def isDirect (cls : EdgeClass) : Bool := holds .direct cls.getEdgeKind

theorem getEdgeKind_eq_Addr (cls : EdgeClass) : cls.getEdgeKind = .Addr ↔ cls = .AddrCGEdge := by
  cases cls <;> simp [EdgeClass.getEdgeKind]

def critical (e : ConstraintEdge) : Bool := holds .gep e.cls.getEdgeKind && !isZeroOffsettedGepCGEdge e

/-- Where a move takes an edge whose other end is, or is not, the representative. -/
def moved (s : Side) (rep : NodeID) (e : ConstraintEdge) : Option ConstraintEdge :=
  if e.cls = .AddrCGEdge ∨ isDirect e.cls = true ∧ s.there e = rep then none
  else some (s.withHere e rep)

theorem moved_eq_some (s : Side) (e x : ConstraintEdge) : moved s rep e = some x ↔
    (e.cls ≠ .AddrCGEdge ∧ (isDirect e.cls = true → s.there e ≠ rep)) ∧ s.withHere e rep = x := by
  rw [moved]
  split
  · rename_i h
    simp only [reduceCtorEq, false_iff, not_and]
    exact fun hne => absurd h (by simpa [not_or] using hne)
  · rename_i h
    rw [Option.some.injEq, iff_and_self]
    exact fun _ => by simpa [not_or] using h

theorem reTarget_eq (s : Side) (g : ConstraintGraph) (e : ConstraintEdge) (rep : NodeID) :
    s.reTarget g e rep = if e.cls = .AddrCGEdge then removeEdge g e
      else replaceEdge g e (s.withHere e rep) := by
  cases s with
  | dst => exact reTargetDstOfEdge_eq g e rep
  | src => exact reTargetSrcOfEdge_eq g e rep

theorem moveSccEdge_fst (s : Side) (g : ConstraintGraph) (b : Bool) (e : ConstraintEdge) :
    (ConstraintGraph.moveSccEdge s.reTarget rep (g, b) e).1 =
      if isDirect e.cls = true then removeEdge g e else s.reTarget g e rep := by
  rw [reTarget_eq]
  obtain ⟨src, dst, cls⟩ := e
  cases cls with
  | StoreCGEdge | LoadCGEdge => exact reTarget_eq s g _ rep
  | AddrCGEdge | CopyCGEdge | NormalGepCGEdge | VariantGepCGEdge => rfl

theorem moveSccEdge_snd (s : Side) (g : ConstraintGraph) (b : Bool) (e : ConstraintEdge) :
    (ConstraintGraph.moveSccEdge s.reTarget rep (g, b) e).2 = (b || critical e) := by
  obtain ⟨src, dst, cls⟩ := e
  cases cls <;> simp [ConstraintGraph.moveSccEdge, critical, holds, EdgeClass.getEdgeKind]

theorem foldl_moveSccEdge (s : Side) (l : List ConstraintEdge) (g : ConstraintGraph) (b : Bool) :
    l.foldl (ConstraintGraph.moveSccEdge s.reTarget rep) (g, b) =
      (l.foldl (fun g e => if isDirect e.cls = true then removeEdge g e else s.reTarget g e rep) g,
        b || l.any critical) := by
  induction l generalizing g b with
  | nil => simp
  | cons e l ih =>
      have hstep : ConstraintGraph.moveSccEdge s.reTarget rep (g, b) e =
          (if isDirect e.cls = true then removeEdge g e else s.reTarget g e rep, b || critical e) :=
        Prod.ext (moveSccEdge_fst s g b e) (moveSccEdge_snd s g b e)
      rw [List.foldl_cons, hstep, ih, List.foldl_cons, List.any_cons, Bool.or_assoc]

/-- One step of either loop; `g₀` is the graph whose representatives the loops read. -/
def moveEdge (s : Side) (g₀ : ConstraintGraph) (rep : NodeID) (g : ConstraintGraph)
    (e : ConstraintEdge) : ConstraintGraph :=
  if isDirect e.cls = true ∧ g₀.sccRepNode (s.there e) = rep then removeEdge g e
  else s.reTarget g e rep

theorem foldl_eq_of_forall {σ ι : Type} {f f' : σ → ι → σ} {l : List ι}
    (h : ∀ a ∈ l, ∀ s, f s a = f' s a) (s : σ) : l.foldl f s = l.foldl f' s := by
  induction l generalizing s with
  | nil => rfl
  | cons a l ih =>
      rw [List.foldl_cons, List.foldl_cons, h a (by simp) s]
      exact ih (fun b hb => h b (List.mem_cons_of_mem a hb)) _

theorem moveToRepNode_eq_foldl (s : Side) (g : ConstraintGraph) (node rep : NodeID) :
    ∃ l, List.Perm l (s.listed ((g.IDToNodeMap.lookup node).getD .new)) ∧
      (moveToRepNode s g node rep).1 = l.foldl (moveEdge s g rep) g ∧
      ((moveToRepNode s g node rep).2 = true ↔
        ∃ e ∈ l, g.sccRepNode (s.there e) = rep ∧ critical e = true) := by
  let listed := s.listed ((g.IDToNodeMap.lookup node).getD .new)
  let nonSccEdges := listed.filter (fun e => g.sccRepNode (s.there e) ≠ rep)
  let sccEdges := listed.filter (fun e => g.sccRepNode (s.there e) = rep)
  have hnon : ∀ e ∈ nonSccEdges.reverse, ∀ g', s.reTarget g' e rep = moveEdge s g rep g' e := by
    intro e he g'
    have hne := (List.mem_filter.mp (List.mem_reverse.mp he)).2
    rw [moveEdge, if_neg fun h => (of_decide_eq_true hne) h.2]
  have hscc : ∀ e ∈ sccEdges.reverse, ∀ g', (if isDirect e.cls = true then removeEdge g' e
      else s.reTarget g' e rep) = moveEdge s g rep g' e := by
    intro e he g'
    have heq := of_decide_eq_true (List.mem_filter.mp (List.mem_reverse.mp he)).2
    rw [moveEdge]
    simp only [heq, and_true]
  refine ⟨nonSccEdges.reverse ++ sccEdges.reverse, ?_, ?_, ?_⟩
  · refine ((List.reverse_perm _).append (List.reverse_perm _)).trans ?_
    refine List.perm_append_comm.trans ?_
    have hnot : nonSccEdges = listed.filter (fun e => !decide (g.sccRepNode (s.there e) = rep)) :=
      List.filter_congr fun e _ => decide_not
    rw [hnot]
    exact List.filter_append_perm _ listed
  · rw [moveToRepNode, foldl_moveSccEdge, List.foldl_append, foldl_eq_of_forall hnon,
      foldl_eq_of_forall hscc]
  · rw [moveToRepNode, foldl_moveSccEdge, Bool.false_or, List.any_eq_true]
    simp only [List.mem_append, List.mem_reverse, List.mem_filter, decide_eq_true_eq, nonSccEdges,
      sccEdges]
    constructor
    · rintro ⟨e, ⟨he, hrep⟩, hcrit⟩
      exact ⟨e, .inr ⟨he, hrep⟩, hrep, hcrit⟩
    · rintro ⟨e, he, hrep, hcrit⟩
      rcases he with ⟨-, hne⟩ | ⟨he, -⟩
      · exact absurd hrep hne
      · exact ⟨e, ⟨he, hrep⟩, hcrit⟩

theorem moveEdge_moves (s : Side) (hg₀ : WellFormed g₀) (hrep : g₀.hasGNode rep = true)
    (hg : WellFormed g) (hsame : SameNodes g₀ g) {e : ConstraintEdge} (he : e ∈ edges g) :
    Moves (moveEdge s g₀ rep) (moved s rep) g e := by
  have hthere : g₀.hasGNode (s.there e) = true := by
    rw [← hsame.hasGNode]
    exact s.hasGNode_there hg.registered he
  have hrepThere := hg₀.rep _ hthere
  obtain ⟨hg₁, hsame₁, -⟩ := removeEdge_spec hg he
  have hremoves := removeEdge_moves hg he
  rw [Moves, moveEdge, hrepThere, reTarget_eq, moved]
  by_cases hdirect : isDirect e.cls = true ∧ s.there e = rep
  · rw [if_pos hdirect, if_pos (.inr hdirect)]
    exact ⟨hg₁, hsame₁, hremoves⟩
  · rw [if_neg hdirect]
    by_cases haddr : e.cls = .AddrCGEdge
    · rw [if_pos haddr, if_pos (.inl haddr)]
      exact ⟨hg₁, hsame₁, hremoves⟩
    · rw [if_neg haddr, if_neg (by simp [haddr, hdirect])]
      have hends : g.hasGNode (s.withHere e rep).src = true ∧
          g.hasGNode (s.withHere e rep).dst = true := by
        rw [← hsame.hasGNode] at hthere hrep
        cases s with
        | dst => exact ⟨hthere, hrep⟩
        | src => exact ⟨hrep, hthere⟩
      refine replaceEdge_moves hg he hends.1 hends.2 fun hcopy => ?_
      rw [s.cls_withHere] at hcopy
      have hne : s.there e ≠ rep := fun heq => hdirect ⟨by rw [hcopy]; rfl, heq⟩
      cases s with
      | dst => exact hne
      | src => exact hne.symm

def movedEdges (s : Side) (node rep : NodeID) (es : Set ConstraintEdge) : Set ConstraintEdge :=
  {x | x ∈ es ∧ s.here x ≠ node ∨ ∃ e ∈ es, s.here e = node ∧ moved s rep e = some x ∧
    ∀ y ∈ es, s.here y ≠ node → y.key ≠ x.key}

theorem moveToRepNode_spec (s : Side) (hg : WellFormed g) (hnode : g.hasGNode node = true)
    (hrep : g.hasGNode rep = true) (hne : node ≠ rep) :
    WellFormed (moveToRepNode s g node rep).1 ∧ SameNodes g (moveToRepNode s g node rep).1 ∧
      edges (moveToRepNode s g node rep).1 = movedEdges s node rep (edges g) ∧
      ((moveToRepNode s g node rep).2 = true ↔
        ∃ e ∈ edges g, s.here e = node ∧ s.there e = rep ∧ critical e = true) := by
  obtain ⟨l, hperm, hfst, hsnd⟩ := moveToRepNode_eq_foldl s g node rep
  obtain ⟨n, hn⟩ := Option.isSome_iff_exists.mp hnode
  rw [hn, Option.getD_some] at hperm
  have hl : ∀ e, e ∈ l ↔ e ∈ edges g ∧ s.here e = node := fun e =>
    hperm.mem_iff.trans (s.mem_listed hg.registered hn e)
  have hmov : Movable ConstraintEdge.key l (moved s rep) := by
    refine ⟨hperm.nodup_iff.mpr (s.nodup_listed n), ?_, ?_⟩
    · intro a ha b hb x hx hkey
      have hx := ((moved_eq_some s a x).mp hx).2
      have hhere := ((Side.key_eq s).mp hkey).2.1
      rw [← hx, s.here_withHere, ((hl b).mp hb).2] at hhere
      exact hne hhere.symm
    · intro a ha b hb x y hx hy hkey
      have hx := ((moved_eq_some s a x).mp hx).2
      have hy := ((moved_eq_some s b y).mp hy).2
      obtain ⟨hkind, -, hthere⟩ := (Side.key_eq s).mp hkey
      rw [← hx, ← hy, s.cls_withHere, s.cls_withHere] at hkind
      rw [← hx, ← hy, s.there_withHere, s.there_withHere] at hthere
      have hhere := ((hl a).mp ha).2.trans ((hl b).mp hb).2.symm
      exact eq_of_key ((hl a).mp ha).1 ((hl b).mp hb).1 ((Side.key_eq s).mpr ⟨hkind, hhere, hthere⟩)
  obtain ⟨hwf, hsame, hedges⟩ := foldl_moves
    (fun e _ g' hg' hsame' he => moveEdge_moves s hg hrep hg' hsame' he) hmov
    (fun e he => ((hl e).mp he).1) hg (SameNodes.refl g)
  rw [hfst]
  refine ⟨hwf, hsame, ?_, ?_⟩
  · rw [hedges]
    ext x
    simp only [moveAll, movedEdges, Set.mem_ofPred_eq, hl]
    have hout : ∀ y, y ∈ edges g → (¬ (y ∈ edges g ∧ s.here y = node) ↔ s.here y ≠ node) :=
      fun y hy => by simp [hy]
    constructor
    · rintro (⟨hx, hnl⟩ | ⟨e, ⟨he, hhere⟩, hx, hfree⟩)
      · exact .inl ⟨hx, (hout x hx).mp hnl⟩
      · exact .inr ⟨e, he, hhere, hx, fun y hy hny => hfree y hy ((hout y hy).mpr hny)⟩
    · rintro (⟨hx, hnl⟩ | ⟨e, he, hhere, hx, hfree⟩)
      · exact .inl ⟨hx, (hout x hx).mpr hnl⟩
      · exact .inr ⟨e, ⟨he, hhere⟩, hx, fun y hy hny => hfree y hy ((hout y hy).mp hny)⟩
  · rw [hsnd]
    constructor
    · rintro ⟨e, he, hthere, hcrit⟩
      rw [hg.rep _ (s.hasGNode_there hg.registered ((hl e).mp he).1)] at hthere
      exact ⟨e, ((hl e).mp he).1, ((hl e).mp he).2, hthere, hcrit⟩
    · rintro ⟨e, he, hhere, hthere, hcrit⟩
      refine ⟨e, (hl e).mpr ⟨he, hhere⟩, ?_, hcrit⟩
      rw [hg.rep _ (s.hasGNode_there hg.registered he), hthere]

def replaceEnds (node rep : NodeID) (e : ConstraintEdge) : ConstraintEdge :=
  ⟨if e.src = node then rep else e.src, if e.dst = node then rep else e.dst, e.cls⟩

def Touches (node : NodeID) (e : ConstraintEdge) : Prop := e.src = node ∨ e.dst = node

def BecomesSelf (node rep : NodeID) (e : ConstraintEdge) : Prop :=
  Touches node e ∧ (replaceEnds node rep e).src = (replaceEnds node rep e).dst

def Dropped (node rep : NodeID) (e : ConstraintEdge) : Prop :=
  Touches node e ∧ e.cls = .AddrCGEdge ∨ BecomesSelf node rep e ∧ isDirect e.cls = true

section

variable {es : Set ConstraintEdge}

theorem mem_movedEdges_of_ne (s : Side) (rep : NodeID) {e : ConstraintEdge} (he : e ∈ es)
    (h : s.here e ≠ node) : e ∈ movedEdges s node rep es := .inl ⟨he, h⟩

theorem exists_movedEdges (s : Side) (rep : NodeID) {e : ConstraintEdge} (he : e ∈ es)
    (hhere : s.here e = node) (haddr : e.cls ≠ .AddrCGEdge) (hself : isDirect e.cls = true → s.there e ≠ rep) :
    ∃ x ∈ movedEdges s node rep es, x.key = (s.withHere e rep).key := by
  by_cases hclash : ∃ y ∈ es, s.here y ≠ node ∧ y.key = (s.withHere e rep).key
  · obtain ⟨y, hy, hne, hkey⟩ := hclash
    exact ⟨y, mem_movedEdges_of_ne s rep hy hne, hkey⟩
  · refine ⟨s.withHere e rep, .inr ⟨e, he, hhere, ?_, ?_⟩, rfl⟩
    · exact (moved_eq_some s e _).mpr ⟨⟨haddr, hself⟩, rfl⟩
    · exact fun y hy hne hkey => hclash ⟨y, hy, hne, hkey⟩

theorem movedEdges_sound {x : ConstraintEdge}
    (hx : x ∈ movedEdges .src node rep (movedEdges .dst node rep es)) :
    ∃ e ∈ es, ¬ Dropped node rep e ∧ replaceEnds node rep e = x := by
  rcases hx with ⟨⟨hx, hdst⟩ | ⟨e, he, hdst, hmoved, -⟩, hsrc⟩ |
      ⟨e, ⟨he, hdst⟩ | ⟨e', he, hdst, hmoved', -⟩, hsrc, hmoved, -⟩
  · have htouch : ¬ Touches node x := fun h => h.elim hsrc hdst
    refine ⟨x, hx, fun h => h.elim (fun h => htouch h.1) (fun h => htouch h.1.1), ?_⟩
    simp only [Side.here] at hsrc hdst
    rw [replaceEnds, if_neg hsrc, if_neg hdst]
  · obtain ⟨⟨haddr, hself⟩, rfl⟩ := (moved_eq_some _ e x).mp hmoved
    simp only [Side.here, Side.there, Side.withHere] at hsrc hdst hself ⊢
    refine ⟨e, he, ?_, by rw [replaceEnds, if_neg hsrc, if_pos hdst]⟩
    rintro (⟨-, h⟩ | ⟨⟨-, h⟩, hd⟩)
    · exact haddr h
    · rw [replaceEnds, if_neg hsrc, if_pos hdst] at h
      exact hself hd h
  · obtain ⟨⟨haddr, hself⟩, rfl⟩ := (moved_eq_some _ e x).mp hmoved
    simp only [Side.here, Side.there, Side.withHere] at hsrc hdst hself ⊢
    refine ⟨e, he, ?_, by rw [replaceEnds, if_pos hsrc, if_neg hdst]⟩
    rintro (⟨-, h⟩ | ⟨⟨-, h⟩, hd⟩)
    · exact haddr h
    · rw [replaceEnds, if_pos hsrc, if_neg hdst] at h
      exact hself hd h.symm
  · obtain ⟨⟨haddr, -⟩, rfl⟩ := (moved_eq_some _ e' e).mp hmoved'
    obtain ⟨⟨-, hself⟩, rfl⟩ := (moved_eq_some _ _ x).mp hmoved
    simp only [Side.here, Side.there, Side.withHere] at hsrc hdst hself ⊢
    refine ⟨e', he, ?_, by rw [replaceEnds, if_pos hsrc, if_pos hdst]⟩
    rintro (⟨-, h⟩ | ⟨-, hd⟩)
    · exact haddr h
    · exact hself hd rfl

/-- Every edge that is not dropped leaves an edge of its kind between its new ends. -/
theorem movedEdges_complete {e : ConstraintEdge} (he : e ∈ es)
    (hkeep : ¬ Dropped node rep e) :
    ∃ x ∈ movedEdges .src node rep (movedEdges .dst node rep es),
      x.key = (replaceEnds node rep e).key := by
  have haddr : Touches node e → e.cls ≠ .AddrCGEdge := fun ht h => hkeep (.inl ⟨ht, h⟩)
  have hself : BecomesSelf node rep e → ¬ isDirect e.cls = true := fun hs h => hkeep (.inr ⟨hs, h⟩)
  by_cases hdst : e.dst = node
  · by_cases hsrc : e.src = node
    · -- the self-edges at `node` take both moves
      have hends : replaceEnds node rep e = ⟨rep, rep, e.cls⟩ := by
        rw [replaceEnds, if_pos hsrc, if_pos hdst]
      have hnot : ¬ isDirect e.cls = true := hself ⟨.inl hsrc, by rw [hends]⟩
      obtain ⟨y, hy, hkey⟩ := exists_movedEdges .dst rep he hdst (haddr (.inl hsrc))
        (fun h => absurd h hnot)
      obtain ⟨hkind, hysrc, hydst⟩ := edgeKey_inj hkey
      have hkinds : y.cls ≠ .AddrCGEdge ∧ ¬ isDirect y.cls = true := by
        have hkind : y.cls.getEdgeKind = e.cls.getEdgeKind := hkind
        refine ⟨fun h => haddr (.inl hsrc) ((getEdgeKind_eq_Addr _).mp (hkind.symm.trans ?_)), ?_⟩
        · exact (getEdgeKind_eq_Addr _).mpr h
        · rwa [isDirect, hkind]
      obtain ⟨x, hx, hxkey⟩ := exists_movedEdges .src rep hy (hysrc.trans hsrc) hkinds.1
        (fun h => absurd h hkinds.2)
      refine ⟨x, hx, hxkey.trans ?_⟩
      rw [hends]
      simp only [ConstraintEdge.key, Side.withHere] at hkind hydst ⊢
      rw [hkind, hydst]
    · have hends : replaceEnds node rep e = ⟨e.src, rep, e.cls⟩ := by
        rw [replaceEnds, if_neg hsrc, if_pos hdst]
      obtain ⟨y, hy, hkey⟩ := exists_movedEdges .dst rep he hdst (haddr (.inr hdst))
        (fun h heq => hself ⟨.inr hdst, by rw [hends]; exact heq⟩ h)
      have hysrc := (edgeKey_inj hkey).2.1
      refine ⟨y, mem_movedEdges_of_ne .src rep hy ?_, by rw [hends]; exact hkey⟩
      exact fun h => hsrc (hysrc.symm.trans h)
  · have hy := mem_movedEdges_of_ne .dst rep he hdst
    by_cases hsrc : e.src = node
    · have hends : replaceEnds node rep e = ⟨rep, e.dst, e.cls⟩ := by
        rw [replaceEnds, if_pos hsrc, if_neg hdst]
      obtain ⟨x, hx, hkey⟩ := exists_movedEdges .src rep hy hsrc (haddr (.inl hsrc))
        (fun h heq => hself ⟨.inl hsrc, by rw [hends]; exact heq.symm⟩ h)
      exact ⟨x, hx, by rw [hends]; exact hkey⟩
    · refine ⟨e, mem_movedEdges_of_ne .src rep hy hsrc, ?_⟩
      rw [replaceEnds, if_neg hsrc, if_neg hdst]

end

theorem moveEdgesToRepNode_eq (g : ConstraintGraph) (node rep : NodeID) :
    g.moveEdgesToRepNode node rep =
      ((moveToRepNode .src (moveToRepNode .dst g node rep).1 node rep).1,
        (moveToRepNode .dst g node rep).2 ||
          (moveToRepNode .src (moveToRepNode .dst g node rep).1 node rep).2) := by
  simp only [ConstraintGraph.moveEdgesToRepNode, moveInEdgesToRepNode_eq, moveOutEdgesToRepNode_eq]

theorem moveEdgesToRepNode_spec (hg : WellFormed g) (hnode : g.hasGNode node = true)
    (hrep : g.hasGNode rep = true) (hne : node ≠ rep) :
    WellFormed (g.moveEdgesToRepNode node rep).1 ∧ SameNodes g (g.moveEdgesToRepNode node rep).1 ∧
      edges (g.moveEdgesToRepNode node rep).1 =
        movedEdges .src node rep (movedEdges .dst node rep (edges g)) ∧
      ((g.moveEdgesToRepNode node rep).2 = true ↔
        (∃ e ∈ edges g, e.dst = node ∧ e.src = rep ∧ critical e = true) ∨
          ∃ e ∈ movedEdges .dst node rep (edges g), e.src = node ∧ e.dst = rep ∧
            critical e = true) := by
  obtain ⟨hg₁, hsame₁, hedges₁, hgepIn⟩ := moveToRepNode_spec .dst hg hnode hrep hne
  rw [← hsame₁.hasGNode] at hnode hrep
  obtain ⟨hg₂, hsame₂, hedges₂, hgepOut⟩ := moveToRepNode_spec .src hg₁ hnode hrep hne
  rw [hedges₁] at hedges₂ hgepOut
  rw [moveEdgesToRepNode_eq]
  exact ⟨hg₂, hsame₁.trans hsame₂, hedges₂, Bool.or_eq_true_iff.trans (or_congr hgepIn hgepOut)⟩

theorem not_touches_merged (hne : node ≠ rep) {x : ConstraintEdge}
    (hx : x ∈ movedEdges .src node rep (movedEdges .dst node rep (edges g))) : ¬ Touches node x := by
  obtain ⟨e, -, -, rfl⟩ := movedEdges_sound hx
  simp only [Touches, replaceEnds, not_or]
  constructor
  · split
    · exact hne.symm
    · assumption
  · split
    · exact hne.symm
    · assumption

end SVF.Graphs.Merging
