import Mathlib.Algebra.Order.BigOperators.Group.List
import SVF.CFL.LateEdges

namespace SVF.CFL.OnTheFlyClosure

open Relation Grammar EdgeGraph DataMaps OnTheFly LateEdges Util.Saturation Util.Folds
open MemoryModel.PointsToSets (PointsTo)
open Solver (Grows isWorklistEmpty pushIntoWorklist)
open Closure (Sane)

section

variable {Sym : Type} [DecidableEq Sym] (labels : Labels Sym) (prog : Program)
variable (prods : List (Production Sym)) (graph : CFLGraph Sym)

def IsCopy (X : Sym) : Prop := X = labels.copy ∨ X = labels.copybar

instance (X : Sym) : Decidable (IsCopy labels X) := inferInstanceAs (Decidable (_ ∨ _))

def Base (e : CFLEdge Sym) : Prop :=
  e ∈ graph.cflEdgeSet ∨ ∃ y ∈ graph.cflEdgeSet, (rules prods).one y e

/-- What the builders of the graph and the grammar see to: copy edges come with their
counterparts, and follow from terminals only; the variables of calls are nodes. -/
structure WellFormed : Prop where
  wellFormed : graph.WellFormed
  heads : ∀ p ∈ prods, IsCopy labels p.lhs → ∃ Y, p = .single p.lhs Y ∧ ¬ IsCopy labels Y ∧
    ∀ q ∈ prods, q.lhs ≠ Y
  distinct : labels.copy ≠ labels.copybar
  paired : ∀ i j, Base prods graph ⟨i, j, labels.copy⟩ ↔ Base prods graph ⟨j, i, labels.copybar⟩
  callRet : ∀ cs n, prog.getCallSiteRet cs = some n → n ∈ graph.nodes
  funRet : ∀ F n, prog.getFunRet F = some n → n ∈ graph.nodes
  callArgs : ∀ cs args, prog.getCallSiteArgsList cs = some args → ∀ n ∈ args, n ∈ graph.nodes
  funArgs : ∀ F args, prog.getFunArgsList F = some args → ∀ n ∈ args, n ∈ graph.nodes
  vararg : ∀ F, prog.isVarArg F = true → prog.getVarargNode F ∈ graph.nodes

def terminalGraph (s : CFLAlias Sym) : CFLGraph Sym :=
  ⟨s.graph.nodes, s.graph.cflEdgeSet.filter fun e => e ∈ graph.cflEdgeSet ∨ IsCopy labels e.kind⟩

def Linked (s : CFLAlias Sym) (src dst : NodeID) : Prop :=
  ⟨src, dst, labels.copy⟩ ∈ s.edges ∧ ⟨dst, src, labels.copybar⟩ ∈ s.edges

/-- The parameters, the variable arguments and the result are connected, and an object of the call
site flows to the result of a heap allocator. -/
structure Connected (s : CFLAlias Sym) (cs : CallICFGNode) (F : FunObjVar) : Prop where
  heap : prog.isHeapAllocExtFunViaRet F = true → ∀ r, prog.getCallSiteRet cs = some r →
    ∃ obj val, (cs, val) ∈ s.callsite2DummyValPN ∧ ⟨obj, val, labels.addr⟩ ∈ s.edges ∧
      Linked labels s val r
  ret : ∀ r r', prog.getFunRet F = some r → prog.getCallSiteRet cs = some r' →
    prog.isPointer r = true → prog.isPointer r' = true → Linked labels s r r'
  params : ∀ (i : ℕ) a p, ((prog.getCallSiteArgsList cs).getD [])[i]? = some a →
    ((prog.getFunArgsList F).getD [])[i]? = some p → prog.isPointer a = true →
      prog.isPointer p = true → Linked labels s a p
  varargs : prog.isVarArg F = true → ∀ (i : ℕ) a, ((prog.getFunArgsList F).getD []).length ≤ i →
    ((prog.getCallSiteArgsList cs).getD [])[i]? = some a → prog.isPointer a = true →
      Linked labels s a (prog.getVarargNode F)

def VCallee (cs : CallICFGNode) (callee : FunObjVar) : Prop :=
  prog.callArgSize cs = prog.argSize callee ∨
    prog.callIsVarArg cs = true ∧ prog.isVarArg callee = true

def Resolved (s : CFLAlias Sym) (cs : CallICFGNode) (callee : FunObjVar) : Prop :=
  ∃ fp, (cs, fp) ∈ prog.getIndirectCallsites ∧
    if prog.isVirtualCall cs then
      ∃ F ∈ prog.getVFns cs (s.getCFLPts labels prog (prog.getVtablePtr cs)).2,
        prog.getDefFunForMultipleModule F = callee ∧ VCallee prog cs callee
    else
      ∃ o ∈ (s.getCFLPts labels prog fp).2, ∃ F, prog.getFunction o = some F ∧
        prog.getDefFunForMultipleModule F = callee ∧ prog.matchArgs cs callee = true

/-- Every callee that the points-to sets give has a call edge, unless the budget is used up. -/
def AllResolved (s : CFLAlias Sym) : Prop :=
  s.numOfResolvedIndCallEdge < prog.indirectCallLimit → ∀ cs callee,
    Resolved labels prog s cs callee → (cs, callee) ∈ s.indCallMap

def Condition (kind : SolverKind) (s : CFLAlias Sym) : Action Sym → Prop
  | .process Y_edge => Joined kind labels.F prods Y_edge s.solver
  | .connect cs F => ¬ (prog.isHeapAllocExtFunViaRet F = true ∧ (prog.getCallSiteRet cs).isSome = true) ∧
      (prog.isVarArg F = true → prog.getFunArgsList F = none →
        ∀ a ∈ (prog.getCallSiteArgsList cs).getD [], prog.isPointer a = false)
  | .again => kind = .CFLSolver ∨ (∀ X, .epsilon X ∉ prods) ∨
      ∀ n, n ∈ s.solver.data.succMap.keys ↔ n ∈ POCRClosure.sources (terminalGraph labels graph s)
  | .update | .stop => True

def GoodStep (kind : SolverKind) (s t : State Sym) : Prop :=
  ∃ a, Step kind labels prog (ofProds prods) a s t ∧ Condition labels prog prods graph kind s.toCFLAlias a

end

section

variable {Sym : Type} [DecidableEq Sym] (kind : SolverKind) (labels : Labels Sym) (prog : Program)
variable (prods : List (Production Sym)) (graph : CFLGraph Sym)

def seedsOf (s : CFLAlias Sym) : Set (CFLEdge Sym) :=
  seeds (applied kind labels.F prods) (terminalGraph labels graph s).cflEdgeSet
    (startNodes kind (terminalGraph labels graph s))

def fromScratch (s : CFLAlias Sym) : Set (CFLEdge Sym) :=
  {e | Derives (rules (applied kind labels.F prods)) (seedsOf kind labels prods graph s) e}

def Points (s : CFLAlias Sym) (ptr o : NodeID) : Prop :=
  ∃ dst, ⟨ptr, dst, labels.startKind⟩ ∈ s.edges ∧ o ∈ CFLAlias.pointees prog dst

def Kept (s : CFLAlias Sym) : Prop :=
  ∀ ptr, ∀ o ∈ s.ptD ptr, Points labels prog s ptr o

def Origin (e : CFLEdge Sym) : Prop :=
  e ∈ graph.cflEdgeSet ∨ IsCopy labels e.kind ∨ ∃ p ∈ prods, p.lhs = e.kind

structure Core (s : CFLAlias Sym) : Prop where
  sane : Sane graph.nodes s.solver.toState
  tables : Tables kind s.solver
  input : ∀ e ∈ graph.cflEdgeSet, e ∈ s.edges
  lateKind : ∀ x ∈ late kind s.solver, IsCopy labels x.kind
  lateSingle : ∀ y ∈ graph.cflEdgeSet, ∀ x ∈ late kind s.solver, ¬ (rules prods).one y x
  origin : ∀ e ∈ s.edges, Origin labels prods graph e
  mirrored : ∀ i j, (⟨i, j, labels.copy⟩ ∈ s.edges →
      Base prods graph ⟨i, j, labels.copy⟩ ∨ ⟨j, i, labels.copybar⟩ ∈ s.edges) ∧
    (⟨j, i, labels.copybar⟩ ∈ s.edges →
      Base prods graph ⟨j, i, labels.copybar⟩ ∨ ⟨i, j, labels.copy⟩ ∈ s.edges)
  sound : s.edges ⊆ fromScratch kind labels prods graph s
  kept : Kept labels prog s

structure Between (s : CFLAlias Sym) : Prop where
  mirrored : ∀ i j, ⟨i, j, labels.copy⟩ ∈ s.edges ↔ ⟨j, i, labels.copybar⟩ ∈ s.edges
  single : ∀ y ∈ graph.cflEdgeSet, ∀ x, (rules prods).one y x → x ∈ s.edges
  unchanged : isWorklistEmpty s.solver.toState = true →
    s.edges = fromScratch kind labels prods graph s ∧ AllResolved labels prog s

def Inv (s : State Sym) : Prop :=
  Core kind labels prog prods graph s.toCFLAlias ∧ match s.phase with
    | .solving => Settled (rules (applied kind labels.F prods))
          (seedsOf kind labels prods graph s.toCFLAlias) s.edges s.solver.pending ∧
        ∀ call ∈ s.indCallMap, Connected labels prog s.toCFLAlias call.1 call.2
    | .connecting newEdges => Between kind labels prog prods graph s.toCFLAlias ∧
        ∀ call ∈ s.indCallMap, Connected labels prog s.toCFLAlias call.1 call.2 ∨ call ∈ newEdges
    | .ended => s.edges = fromScratch kind labels prods graph s.toCFLAlias ∧
        AllResolved labels prog s.toCFLAlias ∧
          ∀ call ∈ s.indCallMap, Connected labels prog s.toCFLAlias call.1 call.2

end

section

variable {Sym : Type} [DecidableEq Sym] {kind : SolverKind} {labels : Labels Sym} {prog : Program}
variable {prods : List (Production Sym)} {graph : CFLGraph Sym} {s t : CFLAlias Sym}

theorem mem_prods_of_applied {F : Sym} {p : Production Sym} (h : p ∈ applied kind F prods) :
    p ∈ prods := by
  cases kind with
  | CFLSolver => exact h
  | POCRSolver => exact h
  | POCRHybridSolver => exact (List.mem_filter.mp h).1

theorem applied_one {F : Sym} {y x : CFLEdge Sym} :
    (rules (applied kind F prods)).one y x ↔ (rules prods).one y x := by
  cases kind <;> simp [rules, applied, POCRHybrid.nonTransitive]

omit [DecidableEq Sym] in
theorem WellFormed.not_copy (hw : WellFormed labels prog prods graph) {p : Production Sym}
    (hp : p ∈ prods) (hsingle : ∀ X Y, p ≠ .single X Y) : ¬ IsCopy labels p.lhs := by
  intro hcopy
  obtain ⟨Y, heq, -⟩ := hw.heads p hp hcopy
  exact hsingle _ _ heq

omit [DecidableEq Sym] in
theorem WellFormed.single_input (hw : WellFormed labels prog prods graph) {y x : CFLEdge Sym}
    (hy : Origin labels prods graph y) (hone : (rules prods).one y x) (hx : IsCopy labels x.kind) :
    y ∈ graph.cflEdgeSet := by
  obtain ⟨Y, heq, hcopy, hhead⟩ := hw.heads _ hone.2.2 hx
  obtain ⟨-, rfl⟩ := Production.single.inj heq
  rcases hy with hy | hy | ⟨p, hp, hlhs⟩
  · exact hy
  · exact absurd hy hcopy
  · exact absurd hlhs (hhead p hp)

theorem Core.apart (hw : WellFormed labels prog prods graph) (h : Core kind labels prog prods graph s) :
    Apart (applied kind labels.F prods) s.edges (late kind s.solver) where
  single y hy x hx hone := by
    have hone := applied_one.mp hone
    exact h.lateSingle y (hw.single_input (h.origin y hy) hone (h.lateKind x hx)) x hx hone
  binary X Y Z hp x hx heq :=
    hw.not_copy (mem_prods_of_applied hp) (fun _ _ h => nomatch h) (heq ▸ h.lateKind x hx)
  epsilon X hp x hx heq :=
    hw.not_copy (mem_prods_of_applied hp) (fun _ _ h => nomatch h) (heq ▸ h.lateKind x hx)

theorem mem_terminalGraph {e : CFLEdge Sym} : e ∈ (terminalGraph labels graph s).cflEdgeSet ↔
    e ∈ s.edges ∧ (e ∈ graph.cflEdgeSet ∨ IsCopy labels e.kind) := by
  rw [terminalGraph, List.mem_filter, decide_eq_true_eq]
  exact Iff.rfl

theorem fromScratch_mono (hnodes : t.graph.nodes = s.graph.nodes) (hedges : s.edges ⊆ t.edges) :
    seedsOf kind labels prods graph s ⊆ seedsOf kind labels prods graph t ∧
      fromScratch kind labels prods graph s ⊆ fromScratch kind labels prods graph t := by
  have hterm : ∀ e ∈ (terminalGraph labels graph s).cflEdgeSet,
      e ∈ (terminalGraph labels graph t).cflEdgeSet := by
    intro e he
    obtain ⟨hmem, hkind⟩ := mem_terminalGraph.mp he
    exact mem_terminalGraph.mpr ⟨hedges hmem, hkind⟩
  have hsources : POCRClosure.sources (terminalGraph labels graph s) ⊆
      POCRClosure.sources (terminalGraph labels graph t) := by
    rintro n ⟨e, he, rfl⟩
    exact ⟨e, hterm e he, rfl⟩
  have hstart : startNodes kind (terminalGraph labels graph s) ⊆
      startNodes kind (terminalGraph labels graph t) := by
    cases kind with
    | CFLSolver =>
        intro n hn
        change n ∈ t.graph.nodes
        rw [hnodes]
        exact hn
    | POCRSolver => exact hsources
    | POCRHybridSolver => exact hsources
  have hseeds : seedsOf kind labels prods graph s ⊆ seedsOf kind labels prods graph t := by
    rintro e (he | ⟨hsrc, hrest⟩)
    · exact .inl (hterm e he)
    · exact .inr ⟨hstart hsrc, hrest⟩
  exact ⟨hseeds, fun e he => Derives.mono hseeds he⟩

/-- The edges that a call of the solver adds are heads of productions, and its copy edges follow
from input edges. -/
theorem Core.added (hw : WellFormed labels prog prods graph) (h : Core kind labels prog prods graph s)
    {E : Set (CFLEdge Sym)}
    (hsound : ∀ S, ClosedUnder (rules (applied kind labels.F prods)) S → s.edges ⊆ S → E ⊆ S) :
    ∀ e ∈ E, Origin labels prods graph e ∧ (IsCopy labels e.kind → e ∈ s.edges ∨
      ∃ y ∈ graph.cflEdgeSet, (rules prods).one y e) := by
  refine hsound {e | Origin labels prods graph e ∧ (IsCopy labels e.kind → e ∈ s.edges ∨
    ∃ y ∈ graph.cflEdgeSet, (rules prods).one y e)} ⟨?_, ?_⟩ fun e he => ⟨h.origin e he, fun _ => .inl he⟩
  · rintro y x ⟨hy, -⟩ hone
    have hone := applied_one.mp hone
    exact ⟨.inr (.inr ⟨_, hone.2.2, rfl⟩), fun hx => .inr ⟨y, hw.single_input hy hone hx, hone⟩⟩
  · rintro y z x - - ⟨-, -, -, hp⟩
    have hp := mem_prods_of_applied hp
    exact ⟨.inr (.inr ⟨_, hp, rfl⟩), fun hx => absurd hx (hw.not_copy hp fun _ _ h => nomatch h)⟩

end

section

variable {Sym : Type} [DecidableEq Sym] {kind : SolverKind} {labels : Labels Sym} {prog : Program}
variable {prods : List (Production Sym)} {graph : CFLGraph Sym} {s : CFLAlias Sym}

structure Adds (kind : SolverKind) (labels : Labels Sym) (prods : List (Production Sym))
    (graph : CFLGraph Sym) (s : CFLAlias Sym) (solver : SolverState Sym) : Prop where
  sane : Sane graph.nodes solver.toState
  tables : Tables kind solver
  late : late kind solver = late kind s.solver
  mono : s.edges ⊆ solver.edges
  added : ∀ e ∈ solver.edges, Origin labels prods graph e ∧ (IsCopy labels e.kind → e ∈ s.edges ∨
    ∃ y ∈ graph.cflEdgeSet, (rules prods).one y e)
  sound : solver.edges ⊆ fromScratch kind labels prods graph s

theorem Core.adds (h : Core kind labels prog prods graph s) {solver : SolverState Sym}
    (hadds : Adds kind labels prods graph s solver) :
    Core kind labels prog prods graph { s with solver := solver } := by
  have hnodes : solver.graph.nodes = s.graph.nodes := hadds.sane.sameNodes.trans h.sane.sameNodes.symm
  refine ⟨hadds.sane, hadds.tables, fun e he => hadds.mono (h.input e he), ?_, ?_,
    fun e he => (hadds.added e he).1, fun i j => ⟨fun he => ?_, fun he => ?_⟩, ?_, ?_⟩
  · rw [hadds.late]
    exact h.lateKind
  · rw [hadds.late]
    exact h.lateSingle
  · rcases (hadds.added _ he).2 (.inl rfl) with hold | hone
    · exact ((h.mirrored i j).1 hold).imp_right (hadds.mono ·)
    · exact .inl (.inr hone)
  · rcases (hadds.added _ he).2 (.inr rfl) with hold | hone
    · exact ((h.mirrored i j).2 hold).imp_right (hadds.mono ·)
    · exact .inl (.inr hone)
  · exact hadds.sound.trans (fromScratch_mono (s := s) (t := { s with solver := solver }) hnodes hadds.mono).2
  · intro ptr o ho
    obtain ⟨dst, he, hdst⟩ := h.kept ptr o ho
    exact ⟨dst, hadds.mono he, hdst⟩

theorem Core.seedsOf_adds (h : Core kind labels prog prods graph s) {solver : SolverState Sym}
    (hadds : Adds kind labels prods graph s solver)
    (hseeds : seedsOf kind labels prods graph s ⊆ solver.edges) :
    seedsOf kind labels prods graph { s with solver := solver } ⊆ solver.edges := by
  have hnodes : solver.graph.nodes = s.graph.nodes := hadds.sane.sameNodes.trans h.sane.sameNodes.symm
  have hsources : ∀ n ∈ POCRClosure.sources (terminalGraph labels graph { s with solver := solver }),
      n ∈ POCRClosure.sources (terminalGraph labels graph s) := by
    rintro n ⟨e, he, rfl⟩
    obtain ⟨hmem, hkind⟩ := mem_terminalGraph.mp he
    rcases hkind with hin | hcopy
    · exact ⟨e, mem_terminalGraph.mpr ⟨h.input e hin, .inl hin⟩, rfl⟩
    · rcases (hadds.added e hmem).2 hcopy with hold | ⟨y, hy, hone⟩
      · exact ⟨e, mem_terminalGraph.mpr ⟨hold, .inr hcopy⟩, rfl⟩
      · exact ⟨y, mem_terminalGraph.mpr ⟨h.input y hy, .inl hy⟩, hone.1.symm⟩
  have hstart : ∀ n ∈ startNodes kind (terminalGraph labels graph { s with solver := solver }),
      n ∈ startNodes kind (terminalGraph labels graph s) := by
    cases kind with
    | CFLSolver =>
        intro n hn
        change n ∈ s.graph.nodes
        rw [← hnodes]
        exact hn
    | POCRSolver => exact hsources
    | POCRHybridSolver => exact hsources
  rintro e (he | ⟨hsrc, hrest⟩)
  · exact (mem_terminalGraph.mp he).1
  · exact hseeds (.inr ⟨hstart _ hsrc, hrest⟩)

theorem Core.process (hw : WellFormed labels prog prods graph) (h : Core kind labels prog prods graph s)
    (hsettled : Settled (rules (applied kind labels.F prods)) (seedsOf kind labels prods graph s)
      s.edges s.solver.pending) {e : CFLEdge Sym} (he : some e ∈ s.solver.worklist)
    (hjoined : Joined kind labels.F prods e s.solver) :
    Core kind labels prog prods graph { s with
      solver := kind.processCFLEdge (ofProds prods) labels.F e (SolverKind.take e s.solver) } ∧
    s.edges ⊆ (kind.processCFLEdge (ofProds prods) labels.F e (SolverKind.take e s.solver)).edges ∧
    Settled (rules (applied kind labels.F prods))
      (seedsOf kind labels prods graph { s with
        solver := kind.processCFLEdge (ofProds prods) labels.F e (SolverKind.take e s.solver) })
      (kind.processCFLEdge (ofProds prods) labels.F e (SolverKind.take e s.solver)).edges
      (kind.processCFLEdge (ofProds prods) labels.F e (SolverKind.take e s.solver)).pending := by
  have hadv := advanced_processCFLEdge h.sane h.tables (h.apart hw) he hjoined
  generalize kind.processCFLEdge (ofProds prods) labels.F e (SolverKind.take e s.solver) = solver at hadv
  have hnext := hsettled.advances hadv.advances
  have hadds : Adds kind labels prods graph s solver :=
    ⟨h.sane.advances hadv.grows hadv.advances, hadv.tables, hadv.late, hadv.advances.mono,
      h.added hw fun S hS hsub => hadv.advances.sound S hS hsub, hnext.sound⟩
  have hnodes : solver.graph.nodes = s.graph.nodes := hadds.sane.sameNodes.trans h.sane.sameNodes.symm
  refine ⟨h.adds hadds, hadds.mono, ?_⟩
  have hmono := (@fromScratch_mono _ _ kind labels prods graph s { s with solver := solver } hnodes
    hadds.mono).2
  exact ⟨hnext.pending, h.seedsOf_adds hadds hnext.seeded, fun a ha => hmono (hnext.sound a ha),
    hnext.one, hnext.two⟩

theorem Core.begin (hw : WellFormed labels prog prods graph) (h : Core kind labels prog prods graph s)
    (hstart : (∀ X, .epsilon X ∉ prods) ∨
      epsilonNodes kind s.solver = startNodes kind (terminalGraph labels graph s)) :
    Core kind labels prog prods graph
      { s with solver := kind.initializeWorklist (ofProds prods) s.solver } ∧
    s.edges ⊆ (kind.initializeWorklist (ofProds prods) s.solver).edges ∧
    Settled (rules (applied kind labels.F prods))
      (seedsOf kind labels prods graph
        { s with solver := kind.initializeWorklist (ofProds prods) s.solver })
      (kind.initializeWorklist (ofProds prods) s.solver).edges
      (kind.initializeWorklist (ofProds prods) s.solver).pending := by
  obtain ⟨hinit, htables, hlate⟩ := @initialized_initializeWorklist _ _ prods kind labels.F _
    (.of_sane h.sane) h.tables (h.apart hw)
  generalize kind.initializeWorklist (ofProds prods) s.solver = solver at hinit htables hlate
  have hmono : s.edges ⊆ solver.edges := hinit.edges ▸ Set.subset_union_left
  have hcases : ∀ e ∈ solver.edges, e ∈ s.edges ∨ e.src ∈ startNodes kind (terminalGraph labels graph s) ∧
      e.dst = e.src ∧ .epsilon e.kind ∈ prods := by
    intro e he
    rw [hinit.edges] at he
    rcases he with he | ⟨hsrc, hdst, hp⟩
    · exact .inl he
    · rcases hstart with hnone | heq
      · exact absurd hp (hnone _)
      · exact .inr ⟨heq ▸ hsrc, hdst, hp⟩
  have hnodes : solver.graph.nodes = graph.nodes := hinit.nodes.trans h.sane.sameNodes
  have hterm : (terminalGraph labels graph s).WellFormed := by
    intro e he
    change e.src ∈ s.graph.nodes ∧ e.dst ∈ s.graph.nodes
    have hsame : s.graph.nodes = graph.nodes := h.sane.sameNodes
    rw [hsame]
    exact h.sane.wellFormed e (mem_terminalGraph.mp he).1
  have hwell : solver.graph.WellFormed := by
    intro e he
    rw [hnodes]
    rcases hcases e he with hold | ⟨hsrc, hdst, -⟩
    · exact h.sane.wellFormed e hold
    · have hin : e.src ∈ graph.nodes := h.sane.sameNodes ▸ startNodes_subset kind hterm _ hsrc
      exact ⟨hin, hdst ▸ hin⟩
  have hadds : Adds kind labels prods graph s solver := by
    refine ⟨hnodes ▸ hinit.full.sane hinit.nodup hwell, htables, hlate, hmono, fun e he => ?_,
      fun e he => ?_⟩
    · rcases hcases e he with hold | ⟨-, -, hp⟩
      · exact ⟨h.origin e hold, fun _ => .inl hold⟩
      · have hnot := hw.not_copy hp fun _ _ h => nomatch h
        exact ⟨.inr (.inr ⟨_, hp, rfl⟩), fun hcopy => absurd hcopy hnot⟩
    · rcases hcases e he with hold | ⟨hsrc, hdst, hp⟩
      · exact h.sound hold
      · exact .init (.inr ⟨hsrc, hdst, mem_applied_epsilon.mpr hp⟩)
  have hseeds : seedsOf kind labels prods graph s ⊆ solver.edges := by
    rintro e (he | ⟨hsrc, hdst, hp⟩)
    · exact hmono (mem_terminalGraph.mp he).1
    · have hp := mem_applied_epsilon.mp hp
      rw [hinit.edges]
      rcases hstart with hnone | heq
      · exact absurd hp (hnone _)
      · exact .inr ⟨heq ▸ hsrc, hdst, hp⟩
  have hcore := h.adds hadds
  refine ⟨hcore, hmono, ?_⟩
  rw [hinit.full.pending]
  exact ⟨subset_rfl, h.seedsOf_adds hadds hseeds, fun a ha => hcore.sound ha,
    fun _ ha hn => absurd ha hn, fun _ ha hn => absurd ha hn⟩

theorem core_new (hw : WellFormed labels prog prods graph) :
    Core kind labels prog prods graph ⟨kind.new graph, fun _ => ∅, [], 0, [], prog.nodeIds⟩ ∧
      epsilonNodes kind (kind.new graph) = startNodes kind (terminalGraph labels graph
        ⟨kind.new graph, fun _ => ∅, [], 0, [], prog.nodeIds⟩) := by
  obtain ⟨hready, htables, hlate, hnodes⟩ := new_spec kind hw.wellFormed
  have hterm : terminalGraph labels graph ⟨kind.new graph, fun _ => ∅, [], 0, [], prog.nodeIds⟩ = graph := by
    have hall : ∀ e ∈ graph.cflEdgeSet, decide (e ∈ graph.cflEdgeSet ∨ IsCopy labels e.kind) = true :=
      fun e he => decide_eq_true (.inl he)
    change CFLGraph.mk graph.nodes (graph.cflEdgeSet.filter _) = graph
    rw [List.filter_eq_self.mpr hall]
  refine ⟨⟨⟨rfl, hw.wellFormed, hready.nodup, hready.pointers, hready.pending⟩, htables, fun _ he => he,
    ?_, ?_, fun e he => .inl he, fun i j => ⟨fun he => .inl (.inl he), fun he => .inl (.inl he)⟩, ?_, ?_⟩, ?_⟩
  · exact fun x hx => absurd (hlate ▸ hx) (Set.notMem_empty x)
  · exact fun y _ x hx => absurd (hlate ▸ hx) (Set.notMem_empty x)
  · intro e he
    refine .init (.inl ?_)
    rw [hterm]
    exact he
  · exact fun ptr o ho => absurd ho (by simp)
  · rw [hterm]
    exact hnodes

end

section

variable {Sym : Type} [DecidableEq Sym] {labels : Labels Sym} {prog : Program} {s t : CFLAlias Sym}

theorem mem_getCFLPts (hs : Kept labels prog s) (ptr o : NodeID) :
    o ∈ (s.getCFLPts labels prog ptr).2 ↔ Points labels prog s ptr o := by
  rw [CFLAlias.getCFLPts]
  simp only
  rw [← List.foldl_flatMap, MemoryModel.PointsToSets.mem_foldl_set]
  have hmem : o ∈ ((s.graph.getOutEdges ptr).filter (·.kind = labels.startKind)).flatMap
      (fun e => CFLAlias.pointees prog e.dst) ↔ Points labels prog s ptr o := by
    simp only [List.mem_flatMap, List.mem_filter, CFLGraph.getOutEdges, decide_eq_true_eq]
    constructor
    · rintro ⟨⟨src, dst, X⟩, ⟨⟨he, rfl⟩, rfl⟩, ho⟩
      exact ⟨dst, he, ho⟩
    · rintro ⟨dst, he, ho⟩
      exact ⟨_, ⟨⟨he, rfl⟩, rfl⟩, ho⟩
  rw [hmem]
  exact ⟨fun h => h.elim (hs ptr o) id, .inr⟩

theorem points_congr (h : t.solver = s.solver) (ptr o : NodeID) :
    Points labels prog t ptr o ↔ Points labels prog s ptr o := by
  rw [Points, Points, CFLAlias.edges, CFLAlias.edges, CFLAlias.graph, CFLAlias.graph, h]

theorem getCFLPts_congr (h : t.solver = s.solver) (hs : Kept labels prog s) (ht : Kept labels prog t)
    (ptr : NodeID) : (t.getCFLPts labels prog ptr).2 = (s.getCFLPts labels prog ptr).2 := by
  apply MemoryModel.PointsToSets.ext
  intro o
  rw [mem_getCFLPts hs, mem_getCFLPts ht, points_congr h]

theorem kept_getCFLPts (hs : Kept labels prog s) (ptr : NodeID) :
    Kept labels prog (s.getCFLPts labels prog ptr).1 := by
  intro ptr' o ho
  change Points labels prog s ptr' o
  change o ∈ Function.update s.ptD ptr (s.getCFLPts labels prog ptr).2 ptr' at ho
  by_cases heq : ptr' = ptr
  · subst heq
    rw [Function.update_self] at ho
    exact (mem_getCFLPts hs ptr' o).mp ho
  · rw [Function.update_of_ne heq] at ho
    exact hs ptr' o ho

structure Extends (labels : Labels Sym) (prog : Program) (r r' : CFLAlias Sym × List CallEdge) :
    Prop where
  solver : r'.1.solver = r.1.solver
  dummies : r'.1.callsite2DummyValPN = r.1.callsite2DummyValPN
  calls : ∀ call ∈ r.1.indCallMap, call ∈ r'.1.indCallMap
  new : ∀ call ∈ r'.1.indCallMap, call ∈ r.1.indCallMap ∨ call ∈ r'.2
  keeps : ∀ call ∈ r.2, call ∈ r'.2
  budget : r.1.numOfResolvedIndCallEdge ≤ r'.1.numOfResolvedIndCallEdge
  kept : Kept labels prog r.1 → Kept labels prog r'.1

instance : Std.Refl (Extends labels prog) :=
  ⟨fun _ => ⟨rfl, rfl, fun _ h => h, fun _ => .inl, fun _ h => h, Nat.le_refl _, id⟩⟩

instance : IsTrans (CFLAlias Sym × List CallEdge) (Extends labels prog) where
  trans _ _ _ h h' :=
    { solver := h'.solver.trans h.solver
      dummies := h'.dummies.trans h.dummies
      calls := fun call hc => h'.calls call (h.calls call hc)
      new := fun call hc => (h'.new call hc).elim
        (fun hc => (h.new call hc).imp_right (h'.keeps call)) .inr
      keeps := fun call hc => h'.keeps call (h.keeps call hc)
      budget := h.budget.trans h'.budget
      kept := h'.kept ∘ h.kept }

theorem addIndirectCallEdge_spec (cs : CallICFGNode) (callee : FunObjVar)
    (r : CFLAlias Sym × List CallEdge) : Extends labels prog r (CFLAlias.addIndirectCallEdge cs callee r) ∧
      (cs, callee) ∈ (CFLAlias.addIndirectCallEdge cs callee r).1.indCallMap := by
  rw [CFLAlias.addIndirectCallEdge]
  split
  · rename_i hmem
    exact ⟨refl_of (Extends labels prog) r, hmem⟩
  · refine ⟨⟨rfl, rfl, fun _ h => List.mem_append_left _ h, fun call hc => ?_,
      fun _ h => List.mem_append_left _ h, Nat.le_succ _, id⟩,
      List.mem_append_right _ List.mem_cons_self⟩
    exact (List.mem_append.mp hc).imp_right (List.mem_append_right _)

theorem resolveIndCalls_extends (cs : CallICFGNode) (target : List NodeID)
    (r : CFLAlias Sym × List CallEdge) :
    Extends labels prog r (CFLAlias.resolveIndCalls prog cs target r) := by
  induction target generalizing r with
  | nil => exact refl_of (Extends labels prog) r
  | cons o target ih =>
      rw [CFLAlias.resolveIndCalls]
      split
      · exact refl_of (Extends labels prog) r
      · refine trans_of (Extends labels prog) ?_ (ih _)
        split
        · exact refl_of (Extends labels prog) r
        · simp only
          split
          · exact (addIndirectCallEdge_spec cs _ r).1
          · exact refl_of (Extends labels prog) r

theorem resolveIndCalls_covers (labels : Labels Sym) {cs : CallICFGNode} {target : List NodeID} {o : NodeID}
    (ho : o ∈ target) {F : FunObjVar} (hF : prog.getFunction o = some F)
    (hargs : prog.matchArgs cs (prog.getDefFunForMultipleModule F) = true)
    (r : CFLAlias Sym × List CallEdge) (hbudget :
      (CFLAlias.resolveIndCalls prog cs target r).1.numOfResolvedIndCallEdge < prog.indirectCallLimit) :
    (cs, prog.getDefFunForMultipleModule F) ∈ (CFLAlias.resolveIndCalls prog cs target r).1.indCallMap := by
  induction target generalizing r with
  | nil => exact absurd ho List.not_mem_nil
  | cons o' target ih =>
      rw [CFLAlias.resolveIndCalls] at hbudget ⊢
      split at hbudget
      · rename_i hlimit
        exact absurd hbudget (Nat.not_lt.mpr hlimit)
      · rename_i hlimit
        rw [if_neg hlimit]
        rcases List.mem_cons.mp ho with rfl | ho
        · rw [hF]
          simp only [hargs, if_true]
          exact (@resolveIndCalls_extends _ _ labels prog cs target _).calls _
            (@addIndirectCallEdge_spec _ _ labels prog cs _ r).2
        · exact ih ho _ hbudget

theorem connectVCallToVFns_spec (cs : CallICFGNode) (vfns : List FunObjVar)
    (r : CFLAlias Sym × List CallEdge) :
    Extends labels prog r (CFLAlias.connectVCallToVFns prog cs vfns r) ∧
      ∀ F ∈ vfns, VCallee prog cs (prog.getDefFunForMultipleModule F) →
        (cs, prog.getDefFunForMultipleModule F) ∈
          (CFLAlias.connectVCallToVFns prog cs vfns r).1.indCallMap := by
  have hbody : ∀ F ∈ vfns, ∀ r : CFLAlias Sym × List CallEdge, Extends labels prog r
      (if prog.callArgSize cs = prog.argSize (prog.getDefFunForMultipleModule F) ||
        (prog.callIsVarArg cs && prog.isVarArg (prog.getDefFunForMultipleModule F)) then
          CFLAlias.addIndirectCallEdge cs (prog.getDefFunForMultipleModule F) r else r) := by
    intro F _ r
    split
    · exact (addIndirectCallEdge_spec cs _ r).1
    · exact refl_of (Extends labels prog) r
  refine ⟨foldl_rel (Extends labels prog) hbody r, fun F hF hcallee => ?_⟩
  refine foldl_covers (Extends labels prog) hbody (fun _ _ h hmem => h.calls _ hmem) hF fun u _ => ?_
  have hcond : (decide (prog.callArgSize cs = prog.argSize (prog.getDefFunForMultipleModule F)) ||
      (prog.callIsVarArg cs && prog.isVarArg (prog.getDefFunForMultipleModule F))) = true := by
    rcases hcallee with h | ⟨h, h'⟩
    · simp [h]
    · simp [h, h']
  simp only [hcond, if_true]
  exact (@addIndirectCallEdge_spec _ _ labels prog cs _ u).2

theorem getCFLPts_extends (ptr : NodeID) (r : CFLAlias Sym × List CallEdge) :
    Extends labels prog r ((r.1.getCFLPts labels prog ptr).1, r.2) :=
  ⟨rfl, rfl, fun _ h => h, fun _ => .inl, fun _ h => h, Nat.le_refl _, fun h => kept_getCFLPts h ptr⟩

def resolveSite (labels : Labels Sym) (prog : Program) (r : CFLAlias Sym × List CallEdge)
    (call : CallICFGNode × NodeID) : CFLAlias Sym × List CallEdge :=
  if prog.isVirtualCall call.1 then
    let (s, target) := r.1.getCFLPts labels prog (prog.getVtablePtr call.1)
    CFLAlias.connectVCallToVFns prog call.1 (prog.getVFns call.1 target) (s, r.2)
  else
    let (s, target) := r.1.getCFLPts labels prog call.2
    CFLAlias.resolveIndCalls prog call.1 target.elems (s, r.2)

theorem resolveSite_extends (r : CFLAlias Sym × List CallEdge) (call : CallICFGNode × NodeID) :
    Extends labels prog r (resolveSite labels prog r call) := by
  rw [resolveSite]
  split
  · exact trans_of (Extends labels prog) (getCFLPts_extends _ r) (connectVCallToVFns_spec _ _ _).1
  · exact trans_of (Extends labels prog) (getCFLPts_extends _ r) (resolveIndCalls_extends _ _ _)

theorem onTheFlyCallGraphSolve_spec (hs : Kept labels prog s) :
    Extends labels prog (s, []) (s.onTheFlyCallGraphSolve labels prog) ∧
      AllResolved labels prog (s.onTheFlyCallGraphSolve labels prog).1 := by
  have hbody : ∀ call ∈ prog.getIndirectCallsites, ∀ r : CFLAlias Sym × List CallEdge,
      Extends labels prog r (resolveSite labels prog r call) :=
    fun call _ r => resolveSite_extends r call
  have hext : Extends labels prog (s, []) (s.onTheFlyCallGraphSolve labels prog) :=
    foldl_rel (Extends labels prog) hbody (s, [])
  refine ⟨hext, fun hbudget cs callee hresolved => ?_⟩
  have ht : Kept labels prog (s.onTheFlyCallGraphSolve labels prog).1 := hext.kept hs
  have hsolver : (s.onTheFlyCallGraphSolve labels prog).1.solver = s.solver := hext.solver
  obtain ⟨fp, hsite, hcallee⟩ := hresolved
  have hpts : ∀ {u : CFLAlias Sym × List CallEdge}, Extends labels prog (s, []) u → ∀ ptr,
      ((s.onTheFlyCallGraphSolve labels prog).1.getCFLPts labels prog ptr).2 =
        (u.1.getCFLPts labels prog ptr).2 :=
    fun hu ptr => getCFLPts_congr (hsolver.trans hu.solver.symm) (hu.kept hs) ht ptr
  refine foldl_covers (Extends labels prog) hbody
    (Q := fun r => r.1.numOfResolvedIndCallEdge < prog.indirectCallLimit → (cs, callee) ∈ r.1.indCallMap)
    (fun u v h hu hlt => h.calls _ (hu (h.budget.trans_lt hlt))) hsite (fun u hu hlt => ?_) hbudget
  rw [resolveSite] at hlt ⊢
  split at hcallee
  · rename_i hvirtual
    simp only [hvirtual, if_true] at hlt ⊢
    obtain ⟨F, hF, rfl, hargs⟩ := hcallee
    rw [hpts hu] at hF
    exact (@connectVCallToVFns_spec _ _ labels prog cs _ _).2 F hF hargs
  · rename_i hvirtual
    simp only [hvirtual, Bool.false_eq_true, if_false] at hlt ⊢
    obtain ⟨o, ho, F, hF, rfl, hargs⟩ := hcallee
    rw [hpts hu] at ho
    exact resolveIndCalls_covers labels ((Util.OrderedSets.mem_elems _ _).mpr ho) hF hargs _ hlt

end

section

variable {Sym : Type} [DecidableEq Sym] {kind : SolverKind} {labels : Labels Sym} {prog : Program}
variable {prods : List (Production Sym)} {graph : CFLGraph Sym} {s t : CFLAlias Sym}

theorem Connected.mono {cs : CallICFGNode} {F : FunObjVar} (h : Connected labels prog s cs F)
    (hedges : s.edges ⊆ t.edges) (hdummies : t.callsite2DummyValPN = s.callsite2DummyValPN) :
    Connected labels prog t cs F := by
  have hlinked : ∀ {src dst}, Linked labels s src dst → Linked labels t src dst :=
    fun h => ⟨hedges h.1, hedges h.2⟩
  refine ⟨fun hheap r hr => ?_, fun r r' hr hr' hp hp' => hlinked (h.ret r r' hr hr' hp hp'),
    fun i a p ha hp hpa hpp => hlinked (h.params i a p ha hp hpa hpp),
    fun hvar i a hi ha hpa => hlinked (h.varargs hvar i a hi ha hpa)⟩
  obtain ⟨obj, val, hval, haddr, hlink⟩ := h.heap hheap r hr
  exact ⟨obj, val, hdummies ▸ hval, hedges haddr, hlinked hlink⟩

theorem Core.congr (h : Core kind labels prog prods graph s) (hsolver : t.solver = s.solver)
    (hkept : Kept labels prog t) : Core kind labels prog prods graph t := by
  obtain ⟨solver, pts, calls, budget, dummies, ids⟩ := s
  obtain ⟨solver', pts', calls', budget', dummies', ids'⟩ := t
  obtain rfl : solver' = solver := hsolver
  exact ⟨h.sane, h.tables, h.input, h.lateKind, h.lateSingle, h.origin, h.mirrored, h.sound, hkept⟩

theorem fromScratch_congr (h : t.solver = s.solver) :
    fromScratch kind labels prods graph t = fromScratch kind labels prods graph s := by
  obtain ⟨solver, pts, calls, budget, dummies, ids⟩ := s
  obtain ⟨solver', pts', calls', budget', dummies', ids'⟩ := t
  obtain rfl : solver' = solver := h
  rfl

theorem Core.solved (hw : WellFormed labels prog prods graph) (h : Core kind labels prog prods graph s)
    (hedges : s.edges = fromScratch kind labels prods graph s) :
    (∀ i j, ⟨i, j, labels.copy⟩ ∈ s.edges ↔ ⟨j, i, labels.copybar⟩ ∈ s.edges) ∧
      ∀ y ∈ graph.cflEdgeSet, ∀ x, (rules prods).one y x → x ∈ s.edges := by
  have hsingle : ∀ y ∈ graph.cflEdgeSet, ∀ x, (rules prods).one y x → x ∈ s.edges := by
    intro y hy x hone
    have hin : y ∈ fromScratch kind labels prods graph s := hedges ▸ h.input y hy
    rw [hedges]
    exact Derives.one hin (applied_one.mpr hone)
  have hbase : ∀ e, Base prods graph e → e ∈ s.edges := by
    rintro e (he | ⟨y, hy, hone⟩)
    · exact h.input e he
    · exact hsingle y hy e hone
  refine ⟨fun i j => ⟨fun he => ?_, fun he => ?_⟩, hsingle⟩
  · exact ((h.mirrored i j).1 he).elim (fun hb => hbase _ ((hw.paired i j).mp hb)) id
  · exact ((h.mirrored i j).2 he).elim (fun hb => hbase _ ((hw.paired i j).mpr hb)) id

theorem inv_update (hw : WellFormed labels prog prods graph)
    (h : Inv kind labels prog prods graph ⟨s, .solving⟩)
    (hempty : isWorklistEmpty s.solver.toState = true) :
    Inv kind labels prog prods graph ⟨(s.onTheFlyCallGraphSolve labels prog).1,
      .connecting (prog.iterate (s.onTheFlyCallGraphSolve labels prog).2)⟩ := by
  obtain ⟨hcore, hsettled, hcalls⟩ := h
  obtain ⟨hext, hresolved⟩ := onTheFlyCallGraphSolve_spec hcore.kept
  have hpending : s.solver.pending = ∅ := Closure.pending_eq_empty hempty
  have hedges : s.edges = fromScratch kind labels prods graph s := by
    rw [hpending] at hsettled
    exact hsettled.eq_derives
  obtain ⟨hmirrored, hsingle⟩ := hcore.solved hw hedges
  have hsolver : (s.onTheFlyCallGraphSolve labels prog).1.solver = s.solver := hext.solver
  have hsame : (s.onTheFlyCallGraphSolve labels prog).1.edges = s.edges := by
    rw [CFLAlias.edges, CFLAlias.graph, hsolver]
    rfl
  refine ⟨hcore.congr hsolver (hext.kept hcore.kept), ⟨?_, ?_, fun _ => ⟨?_, hresolved⟩⟩, ?_⟩
  · exact hsame ▸ hmirrored
  · exact hsame ▸ hsingle
  · rw [fromScratch_congr hsolver, hsame]
    exact hedges
  · intro call hcall
    rcases hext.new call hcall with hold | hnew
    · exact .inl ((hcalls call hold).mono hsame.ge hext.dummies)
    · exact .inr ((prog.perm _).mem_iff.mpr hnew)

end

section

variable {Sym : Type} [DecidableEq Sym] {kind : SolverKind} {labels : Labels Sym} {prog : Program}
variable {prods : List (Production Sym)} {graph : CFLGraph Sym} {s t : CFLAlias Sym}

structure Open (kind : SolverKind) (labels : Labels Sym) (prog : Program)
    (prods : List (Production Sym)) (graph : CFLGraph Sym) (s : CFLAlias Sym) : Prop where
  core : Core kind labels prog prods graph s
  between : Between kind labels prog prods graph s

structure Connects (kind : SolverKind) (labels : Labels Sym) (prog : Program)
    (prods : List (Production Sym)) (graph : CFLGraph Sym) (s t : CFLAlias Sym) : Prop where
  stays : Open kind labels prog prods graph s → Open kind labels prog prods graph t
  edges : Open kind labels prog prods graph s → s.edges ⊆ t.edges
  calls : t.indCallMap = s.indCallMap
  dummies : t.callsite2DummyValPN = s.callsite2DummyValPN

instance : Std.Refl (Connects kind labels prog prods graph) :=
  ⟨fun _ => ⟨id, fun _ => subset_rfl, rfl, rfl⟩⟩

instance : IsTrans (CFLAlias Sym) (Connects kind labels prog prods graph) where
  trans _ _ _ h h' :=
    { stays := h'.stays ∘ h.stays
      edges := fun hs => (h.edges hs).trans (h'.edges (h.stays hs))
      calls := h'.calls.trans h.calls
      dummies := h'.dummies.trans h.dummies }

def withCopy (labels : Labels Sym) (src dst : NodeID) (s : CFLAlias Sym) : Solver.State Sym :=
  Solver.addNewEdge dst src labels.copybar (Solver.addNewEdge src dst labels.copy s.solver.toState)

theorem addCopyEdge_of_not_mem (hw : WellFormed labels prog prods graph)
    (hs : Open kind labels prog prods graph s) {src dst : NodeID}
    (hnew : ⟨src, dst, labels.copy⟩ ∉ s.edges) : s.addCopyEdge labels src dst =
      { s with solver := { s.solver with toState := withCopy labels src dst s } } := by
  have hbar : ⟨dst, src, labels.copybar⟩ ∉ s.edges := fun h => hnew ((hs.between.mirrored src dst).mpr h)
  have hsecond : ⟨dst, src, labels.copybar⟩ ∉
      (Solver.addNewEdge src dst labels.copy s.solver.toState).edges := by
    rw [Solver.addNewEdge_edges]
    rintro (heq | hold)
    · exact hw.distinct (CFLEdge.mk.inj heq).2.2.symm
    · exact hbar hold
  have habsent : (⟨src, dst, labels.copy⟩ : CFLEdge Sym) ∉ s.graph.cflEdgeSet := hnew
  rw [CFLAlias.addCopyEdge, if_neg habsent, POCR.pushNewEdge_of_not_mem hnew,
    POCR.pushNewEdge_of_not_mem hsecond]
  rfl

/-- A new copy edge goes to the graph and the worklist, with its counterpart. -/
theorem open_withCopy (hw : WellFormed labels prog prods graph)
    (hs : Open kind labels prog prods graph s) {src dst : NodeID} (hsrc : src ∈ graph.nodes)
    (hdst : dst ∈ graph.nodes) (hnew : ⟨src, dst, labels.copy⟩ ∉ s.edges) :
    Open kind labels prog prods graph
      { s with solver := { s.solver with toState := withCopy labels src dst s } } := by
  obtain ⟨hcore, hbetween⟩ := hs
  have hgrows : Grows s.solver.toState (withCopy labels src dst s) :=
    (Solver.addNewEdge_grows src dst labels.copy _).trans (Solver.addNewEdge_grows dst src labels.copybar _)
  have hedges : (withCopy labels src dst s).edges =
      insert ⟨dst, src, labels.copybar⟩ (insert ⟨src, dst, labels.copy⟩ s.edges) := by
    rw [withCopy, Solver.addNewEdge_edges, Solver.addNewEdge_edges]
    rfl
  have hbar : ⟨dst, src, labels.copybar⟩ ∉ s.edges :=
    fun h => hnew ((hbetween.mirrored src dst).mpr h)
  have hmono : s.edges ⊆ (withCopy labels src dst s).edges := hgrows.edges
  have hnodes : (withCopy labels src dst s).graph.nodes = s.graph.nodes := hgrows.nodes
  have hmirrored : ∀ i j, ⟨i, j, labels.copy⟩ ∈ (withCopy labels src dst s).edges ↔
      ⟨j, i, labels.copybar⟩ ∈ (withCopy labels src dst s).edges := by
    intro i j
    rw [hedges]
    constructor
    · rintro (heq | heq | hold)
      · exact absurd (CFLEdge.mk.inj heq).2.2 hw.distinct
      · obtain ⟨rfl, rfl, -⟩ := CFLEdge.mk.inj heq
        exact .inl rfl
      · exact .inr (.inr ((hbetween.mirrored i j).mp hold))
    · rintro (heq | heq | hold)
      · obtain ⟨rfl, rfl, -⟩ := CFLEdge.mk.inj heq
        exact .inr (.inl rfl)
      · exact absurd (CFLEdge.mk.inj heq).2.2 hw.distinct.symm
      · exact .inr (.inr ((hbetween.mirrored i j).mpr hold))
  have hlate : ∀ x ∈ late kind { s.solver with toState := withCopy labels src dst s },
      x ∈ late kind s.solver ∨ x ∉ s.edges ∧ IsCopy labels x.kind := by
    intro x hx
    have hcase : x ∈ (withCopy labels src dst s).edges → x ∉ tabled s.solver.data →
        x ∈ s.edges \ tabled s.solver.data ∨ x ∉ s.edges ∧ IsCopy labels x.kind := by
      intro hmem htab
      rw [hedges] at hmem
      rcases hmem with rfl | rfl | hold
      · exact .inr ⟨hbar, .inr rfl⟩
      · exact .inr ⟨hnew, .inl rfl⟩
      · exact .inl ⟨hold, htab⟩
    cases kind with
    | CFLSolver => exact absurd hx (Set.notMem_empty x)
    | POCRSolver => exact hcase hx.1 hx.2
    | POCRHybridSolver => exact hcase hx.1 hx.2
  refine ⟨⟨⟨?_, ?_, hgrows.nodup hcore.sane.nodup, ?_, ?_⟩, ?_, fun e he => hmono (hcore.input e he),
    ?_, ?_, ?_, ?_, ?_, ?_⟩, ⟨?_, fun y hy x hone => hmono (hbetween.single y hy x hone), ?_⟩⟩
  · exact hnodes.trans hcore.sane.sameNodes
  · intro e he
    rw [hedges] at he
    rcases he with rfl | rfl | hold
    · exact ⟨hdst, hsrc⟩
    · exact ⟨hsrc, hdst⟩
    · exact hcore.sane.wellFormed e hold
  · intro hnull
    rcases (hgrows.worklist none).mp hnull with hnull | ⟨_, _, _, hnull⟩
    · exact hcore.sane.pointers hnull
    · contradiction
  · intro e he
    rcases (hgrows.worklist (some e)).mp he with hold | ⟨c, hc, -, heq⟩
    · exact hmono (hcore.sane.pending hold)
    · exact Option.some.inj heq ▸ hc
  · exact hcore.tables.imp_right fun h => ⟨h.1, h.2.trans hmono⟩
  · exact fun x hx => (hlate x hx).elim (hcore.lateKind x) And.right
  · intro y hy x hx hone
    rcases hlate x hx with hold | ⟨hne, -⟩
    · exact hcore.lateSingle y hy x hold hone
    · exact hne (hbetween.single y hy x hone)
  · intro e he
    change e ∈ (withCopy labels src dst s).edges at he
    rw [hedges] at he
    rcases he with rfl | rfl | hold
    · exact .inr (.inl (.inr rfl))
    · exact .inr (.inl (.inl rfl))
    · exact hcore.origin e hold
  · exact fun i j => ⟨fun he => .inr ((hmirrored i j).mp he), fun he => .inr ((hmirrored i j).mpr he)⟩
  · intro e he
    have hcopy : e ∈ s.edges ∨ IsCopy labels e.kind := by
      have hmem := he
      change e ∈ (withCopy labels src dst s).edges at hmem
      rw [hedges] at hmem
      rcases hmem with rfl | rfl | hold
      · exact .inr (.inr rfl)
      · exact .inr (.inl rfl)
      · exact .inl hold
    rcases hcopy with hold | hcopy
    · exact (fromScratch_mono (s := s)
        (t := { s with solver := { s.solver with toState := withCopy labels src dst s } })
        hnodes hmono).2 (hcore.sound hold)
    · exact .init (.inl (mem_terminalGraph.mpr ⟨he, .inr hcopy⟩))
  · intro ptr o ho
    obtain ⟨node, he, hnode⟩ := hcore.kept ptr o ho
    exact ⟨node, hmono he, hnode⟩
  · exact hmirrored
  · intro hempty
    have hin : some ⟨src, dst, labels.copy⟩ ∈ (withCopy labels src dst s).worklist := by
      refine (hgrows.worklist _).mpr (.inr ⟨_, ?_, hnew, rfl⟩)
      rw [hedges]
      exact .inr (.inl rfl)
    change (withCopy labels src dst s).worklist.isEmpty = true at hempty
    rw [List.isEmpty_iff] at hempty
    exact absurd (hempty ▸ hin) List.not_mem_nil

theorem addCopyEdge_connects (hw : WellFormed labels prog prods graph) {src dst : NodeID}
    (hsrc : src ∈ graph.nodes) (hdst : dst ∈ graph.nodes) (s : CFLAlias Sym) :
    Connects kind labels prog prods graph s (s.addCopyEdge labels src dst) ∧
      (Open kind labels prog prods graph s → Linked labels (s.addCopyEdge labels src dst) src dst) := by
  by_cases hmem : ⟨src, dst, labels.copy⟩ ∈ s.edges
  · have hsame : s.addCopyEdge labels src dst = s := if_pos hmem
    rw [hsame]
    exact ⟨refl_of (Connects kind labels prog prods graph) s,
      fun hs => ⟨hmem, (hs.between.mirrored src dst).mp hmem⟩⟩
  · have hother : (s.addCopyEdge labels src dst).indCallMap = s.indCallMap ∧
        (s.addCopyEdge labels src dst).callsite2DummyValPN = s.callsite2DummyValPN := by
      rw [CFLAlias.addCopyEdge]
      split <;> exact ⟨rfl, rfl⟩
    have hnew : ∀ hs : Open kind labels prog prods graph s, (s.addCopyEdge labels src dst).edges =
        insert ⟨dst, src, labels.copybar⟩ (insert ⟨src, dst, labels.copy⟩ s.edges) := by
      intro hs
      rw [addCopyEdge_of_not_mem hw hs hmem]
      change (withCopy labels src dst s).edges = _
      rw [withCopy, Solver.addNewEdge_edges, Solver.addNewEdge_edges]
      rfl
    refine ⟨⟨fun hs => ?_, fun hs => ?_, hother.1, hother.2⟩, fun hs => ?_⟩
    · rw [addCopyEdge_of_not_mem hw hs hmem]
      exact open_withCopy hw hs hsrc hdst hmem
    · rw [hnew hs]
      exact (Set.subset_insert _ _).trans (Set.subset_insert _ _)
    · rw [Linked, hnew hs]
      exact ⟨.inr (.inl rfl), .inl rfl⟩

theorem copyPointer_connects (hw : WellFormed labels prog prods graph) {src dst : NodeID}
    (hsrc : src ∈ graph.nodes) (hdst : dst ∈ graph.nodes) (s : CFLAlias Sym) :
    Connects kind labels prog prods graph s (s.copyPointer labels prog src dst) ∧
      (prog.isPointer src = true → prog.isPointer dst = true → Open kind labels prog prods graph s →
        Linked labels (s.copyPointer labels prog src dst) src dst) := by
  rw [CFLAlias.copyPointer]
  split
  · obtain ⟨hconn, hlink⟩ := @addCopyEdge_connects _ _ kind _ _ _ _ hw _ _ hsrc hdst s
    exact ⟨hconn, fun _ _ => hlink⟩
  · rename_i hnot
    refine ⟨refl_of (Connects kind labels prog prods graph) s, fun h h' => ?_⟩
    rw [h, h'] at hnot
    exact absurd rfl hnot

theorem foldl_linked {ι : Type} {f : CFLAlias Sym → ι → CFLAlias Sym} {l : List ι}
    (hf : ∀ a ∈ l, ∀ s, Connects kind labels prog prods graph s (f s a)) {a : ι} (ha : a ∈ l)
    {src dst : NodeID} (hlink : ∀ s, Open kind labels prog prods graph s → Linked labels (f s a) src dst)
    {s : CFLAlias Sym} (hs : Open kind labels prog prods graph s) :
    Linked labels (l.foldl f s) src dst := by
  have hcover := foldl_covers (Connects kind labels prog prods graph) hf
    (Q := fun t => Open kind labels prog prods graph t ∧ Linked labels t src dst)
    (fun u v h hu => ⟨h.stays hu.1, h.edges hu.1 hu.2.1, h.edges hu.1 hu.2.2⟩) ha (s := s)
    (fun t ht => ⟨(hf a ha t).stays (ht.stays hs), hlink t (ht.stays hs)⟩)
  exact hcover.2

theorem connectRet_connects (hw : WellFormed labels prog prods graph) (cs : CallICFGNode)
    (F : FunObjVar) (s : CFLAlias Sym) :
    Connects kind labels prog prods graph s (s.connectRet labels prog cs F) ∧
      (Open kind labels prog prods graph s → ∀ r r', prog.getFunRet F = some r →
        prog.getCallSiteRet cs = some r' → prog.isPointer r = true → prog.isPointer r' = true →
          Linked labels (s.connectRet labels prog cs F) r r') := by
  rw [CFLAlias.connectRet]
  split
  · rename_i r r' hr hr'
    obtain ⟨hconn, hlink⟩ := @copyPointer_connects _ _ kind _ _ _ _ hw _ _ (hw.funRet F r hr)
      (hw.callRet cs r' hr') s
    refine ⟨hconn, fun hs q q' hq hq' hp hp' => ?_⟩
    obtain rfl := Option.some.inj (hr.symm.trans hq)
    obtain rfl := Option.some.inj (hr'.symm.trans hq')
    exact hlink hp hp' hs
  · rename_i hnone
    exact ⟨refl_of (Connects kind labels prog prods graph) s,
      fun _ r r' hr hr' => absurd hr' (hnone r r' hr)⟩

theorem vararg_connects (hw : WellFormed labels prog prods graph) {F : FunObjVar}
    (hvar : prog.isVarArg F = true) {a : NodeID} (ha : a ∈ graph.nodes) (s : CFLAlias Sym) :
    Connects kind labels prog prods graph s
        (if prog.isPointer a then s.addCopyEdge labels a (prog.getVarargNode F) else s) ∧
      (prog.isPointer a = true → Open kind labels prog prods graph s →
        Linked labels (if prog.isPointer a then s.addCopyEdge labels a (prog.getVarargNode F) else s) a
          (prog.getVarargNode F)) := by
  split
  · obtain ⟨hconn, hlink⟩ := @addCopyEdge_connects _ _ kind _ _ _ _ hw _ _ ha (hw.vararg F hvar) s
    exact ⟨hconn, fun _ => hlink⟩
  · rename_i hnot
    exact ⟨refl_of (Connects kind labels prog prods graph) s, fun h => absurd h hnot⟩

theorem connectArgs_connects (hw : WellFormed labels prog prods graph) {cs : CallICFGNode}
    {F : FunObjVar} {csArgs funArgs : List NodeID} (hcs : prog.getCallSiteArgsList cs = some csArgs)
    (hF : prog.getFunArgsList F = some funArgs) (s : CFLAlias Sym) :
    Connects kind labels prog prods graph s (s.connectArgs labels prog cs F) ∧
      (Open kind labels prog prods graph s →
        (∀ (i : ℕ) a p, csArgs[i]? = some a → funArgs[i]? = some p → prog.isPointer a = true →
          prog.isPointer p = true → Linked labels (s.connectArgs labels prog cs F) a p) ∧
        (prog.isVarArg F = true → ∀ (i : ℕ) a, funArgs.length ≤ i → csArgs[i]? = some a →
          prog.isPointer a = true →
            Linked labels (s.connectArgs labels prog cs F) a (prog.getVarargNode F))) := by
  have hfixed : ∀ arg ∈ csArgs.zip funArgs, ∀ s, Connects kind labels prog prods graph s
      (s.copyPointer labels prog arg.1 arg.2) ∧ (prog.isPointer arg.1 = true →
        prog.isPointer arg.2 = true → Open kind labels prog prods graph s →
          Linked labels (s.copyPointer labels prog arg.1 arg.2) arg.1 arg.2) := by
    intro arg harg s
    obtain ⟨hcsarg, hfunarg⟩ := List.of_mem_zip (a := arg.1) (b := arg.2) harg
    exact copyPointer_connects hw (hw.callArgs cs _ hcs _ hcsarg) (hw.funArgs F _ hF _ hfunarg) s
  have hrest : prog.isVarArg F = true → ∀ a ∈ csArgs.drop funArgs.length, ∀ s,
      Connects kind labels prog prods graph s
        (if prog.isPointer a then s.addCopyEdge labels a (prog.getVarargNode F) else s) ∧
      (prog.isPointer a = true → Open kind labels prog prods graph s → Linked labels
        (if prog.isPointer a then s.addCopyEdge labels a (prog.getVarargNode F) else s) a
          (prog.getVarargNode F)) :=
    fun hvar a ha s => vararg_connects hw hvar (hw.callArgs cs _ hcs _ (List.mem_of_mem_drop ha)) s
  have hzip : ∀ (i : ℕ) a p, csArgs[i]? = some a → funArgs[i]? = some p →
      (a, p) ∈ csArgs.zip funArgs := fun i a p ha hp =>
    List.mem_of_getElem? (List.getElem?_zip_eq_some.mpr ⟨ha, hp⟩)
  rw [CFLAlias.connectArgs, hcs, hF]
  dsimp only
  have hloop : Connects kind labels prog prods graph s ((csArgs.zip funArgs).foldl
      (fun s arg => s.copyPointer labels prog arg.1 arg.2) s) :=
    foldl_rel (Connects kind labels prog prods graph) (fun arg harg s => (hfixed arg harg s).1) s
  have hlinked : Open kind labels prog prods graph s → ∀ (i : ℕ) a p, csArgs[i]? = some a →
      funArgs[i]? = some p → prog.isPointer a = true → prog.isPointer p = true →
        Linked labels ((csArgs.zip funArgs).foldl
          (fun s arg => s.copyPointer labels prog arg.1 arg.2) s) a p := by
    intro hs i a p ha hp hpa hpp
    exact foldl_linked (fun arg harg s => (hfixed arg harg s).1) (hzip i a p ha hp)
      (fun t ht => (hfixed _ (hzip i a p ha hp) t).2 hpa hpp ht) hs
  generalize (csArgs.zip funArgs).foldl (fun s arg => s.copyPointer labels prog arg.1 arg.2) s = u
    at hloop hlinked
  split
  · rename_i hvar
    have hloop' : Connects kind labels prog prods graph u ((csArgs.drop funArgs.length).foldl
        (fun s cs_arg => if prog.isPointer cs_arg then s.addCopyEdge labels cs_arg (prog.getVarargNode F)
          else s) u) :=
      foldl_rel (Connects kind labels prog prods graph) (fun a ha s => (hrest hvar a ha s).1) u
    refine ⟨trans_of _ hloop hloop', fun hs => ⟨fun i a p ha hp hpa hpp => ?_, fun _ i a hi ha hpa => ?_⟩⟩
    · obtain ⟨hcopy, hbar⟩ := hlinked hs i a p ha hp hpa hpp
      exact ⟨hloop'.edges (hloop.stays hs) hcopy, hloop'.edges (hloop.stays hs) hbar⟩
    · have hmem : a ∈ csArgs.drop funArgs.length := by
        refine List.mem_of_getElem? (i := i - funArgs.length) ?_
        rw [List.getElem?_drop, Nat.add_sub_cancel' hi]
        exact ha
      exact foldl_linked (fun a ha s => (hrest hvar a ha s).1) hmem
        (fun t ht => (hrest hvar a hmem t).2 hpa ht) (hloop.stays hs)
  · rename_i hvar
    exact ⟨hloop, fun hs => ⟨hlinked hs, fun h => absurd h hvar⟩⟩

theorem connectHeap_eq {cs : CallICFGNode} {F : FunObjVar}
    (h : ¬ (prog.isHeapAllocExtFunViaRet F = true ∧ (prog.getCallSiteRet cs).isSome = true)) :
    s.connectHeap labels prog cs F = s := by
  rw [CFLAlias.connectHeap]
  split
  · rename_i r hr
    rw [hr] at h
    exact if_neg fun hheap => h ⟨hheap, rfl⟩
  · rfl

theorem connectCaller2CalleeParams_connects (hw : WellFormed labels prog prods graph)
    {cs : CallICFGNode} {F : FunObjVar}
    (hcond : Condition labels prog prods graph kind s (.connect cs F))
    (hs : Open kind labels prog prods graph s) :
    Connects kind labels prog prods graph s (s.connectCaller2CalleeParams labels prog cs F) ∧
      Connected labels prog (s.connectCaller2CalleeParams labels prog cs F) cs F := by
  obtain ⟨hheap, hvararg⟩ := hcond
  rw [CFLAlias.connectCaller2CalleeParams, connectHeap_eq hheap]
  obtain ⟨hret, hretlink⟩ := @connectRet_connects _ _ kind _ _ _ _ hw cs F s
  have hretlink := hretlink hs
  generalize s.connectRet labels prog cs F = u at hret hretlink
  have hu := hret.stays hs
  have hnoheap : ∀ {t : CFLAlias Sym}, prog.isHeapAllocExtFunViaRet F = true → ∀ r,
      prog.getCallSiteRet cs = some r → ∃ obj val, (cs, val) ∈ t.callsite2DummyValPN ∧
        ⟨obj, val, labels.addr⟩ ∈ t.edges ∧ Linked labels t val r :=
    fun hF r hr => absurd ⟨hF, by rw [hr]; rfl⟩ hheap
  cases hcs : prog.getCallSiteArgsList cs with
  | none =>
      have hsame : u.connectArgs labels prog cs F = u := by rw [CFLAlias.connectArgs, hcs]
      rw [hsame]
      refine ⟨hret, hnoheap, hretlink, fun i a p ha => ?_, fun _ i a _ ha => ?_⟩
      · rw [hcs] at ha
        contradiction
      · rw [hcs] at ha
        contradiction
  | some csArgs =>
      cases hF : prog.getFunArgsList F with
      | none =>
          have hsame : u.connectArgs labels prog cs F = u := by rw [CFLAlias.connectArgs, hcs, hF]
          rw [hsame]
          refine ⟨hret, hnoheap, hretlink, fun i a p _ hp => ?_, fun hvar i a _ ha hpa => ?_⟩
          · rw [hF] at hp
            contradiction
          · have hnot := hvararg hvar hF a (List.mem_of_getElem? ha)
            rw [hnot] at hpa
            contradiction
      | some funArgs =>
          obtain ⟨hargs, hlinks⟩ := @connectArgs_connects _ _ kind _ _ _ _ hw _ _ _ _ hcs hF u
          obtain ⟨hparams, hvars⟩ := hlinks hu
          refine ⟨trans_of _ hret hargs, hnoheap, fun r r' hr hr' hp hp' => ?_, ?_, ?_⟩
          · obtain ⟨hcopy, hbar⟩ := hretlink r r' hr hr' hp hp'
            exact ⟨hargs.edges hu hcopy, hargs.edges hu hbar⟩
          · rw [hcs, hF]
            exact hparams
          · rw [hcs, hF]
            exact hvars

end

section

variable {Sym : Type} [DecidableEq Sym] {kind : SolverKind} {labels : Labels Sym} {prog : Program}
variable {prods : List (Production Sym)} {graph : CFLGraph Sym}

theorem inv_start (hw : WellFormed labels prog prods graph) :
    Inv kind labels prog prods graph (start kind prog (ofProds prods) graph) := by
  obtain ⟨hcore, hnodes⟩ := @core_new _ _ kind _ _ _ _ hw
  obtain ⟨hcore', -, hsettled⟩ := hcore.begin hw (.inr hnodes)
  exact ⟨hcore', hsettled, fun call hcall => absurd hcall List.not_mem_nil⟩

theorem inv_step (hw : WellFormed labels prog prods graph) {s t : State Sym}
    (h : Inv kind labels prog prods graph s) (hstep : GoodStep labels prog prods graph kind s t) :
    Inv kind labels prog prods graph t := by
  obtain ⟨a, hstep, hcond⟩ := hstep
  cases hstep with
  | @process s e he =>
      obtain ⟨hcore, hsettled, hcalls⟩ := h
      obtain ⟨hcore', hmono, hsettled'⟩ := hcore.process hw hsettled he hcond
      exact ⟨hcore', hsettled', fun call hcall => (hcalls call hcall).mono hmono rfl⟩
  | @update s hempty => exact inv_update hw h hempty
  | @connect s cs F newEdges =>
      obtain ⟨hcore, hbetween, hcalls⟩ := h
      obtain ⟨hconn, hcallee⟩ := connectCaller2CalleeParams_connects hw hcond ⟨hcore, hbetween⟩
      have hopen := hconn.stays ⟨hcore, hbetween⟩
      refine ⟨hopen.core, hopen.between, fun call hcall => ?_⟩
      rcases hcalls call (hconn.calls ▸ hcall) with hold | hnew
      · exact .inl (hold.mono (hconn.edges ⟨hcore, hbetween⟩) hconn.dummies)
      · rcases List.mem_cons.mp hnew with rfl | hnew
        · exact .inl hcallee
        · exact .inr hnew
  | @again s hne =>
      obtain ⟨hcore, -, hcalls⟩ := h
      have hstart : (∀ X, .epsilon X ∉ prods) ∨
          epsilonNodes kind s.solver = startNodes kind (terminalGraph labels graph s) := by
        rcases hcond with rfl | hnone | hkeys
        · exact .inr rfl
        · exact .inl hnone
        · right
          cases kind with
          | CFLSolver => rfl
          | POCRSolver => exact Set.ext hkeys
          | POCRHybridSolver => exact Set.ext hkeys
      obtain ⟨hcore', hmono, hsettled⟩ := hcore.begin hw hstart
      refine ⟨hcore', hsettled, fun call hcall => ?_⟩
      exact ((hcalls call hcall).resolve_right List.not_mem_nil).mono hmono rfl
  | @stop s hempty =>
      obtain ⟨hcore, hbetween, hcalls⟩ := h
      obtain ⟨hedges, hresolved⟩ := hbetween.unchanged hempty
      exact ⟨hcore, hedges, hresolved, fun call hcall =>
        (hcalls call hcall).resolve_right List.not_mem_nil⟩

theorem inv_run (hw : WellFormed labels prog prods graph) {t : State Sym}
    (hrun : ReflTransGen (GoodStep labels prog prods graph kind) (start kind prog (ofProds prods) graph) t) :
    Inv kind labels prog prods graph t := by
  induction hrun with
  | refl => exact inv_start hw
  | tail _ hstep ih => exact inv_step hw ih hstep

/-- Where the steps of a run meet the condition, the loop ends with the edges that the solver
computes from scratch of the terminals, and every callee of the final points-to sets is connected. -/
theorem solve_onTheFly (hw : WellFormed labels prog prods graph) {t : State Sym}
    (hrun : ReflTransGen (GoodStep labels prog prods graph kind) (start kind prog (ofProds prods) graph) t)
    (hend : t.phase = .ended) :
    ((∃ fuel u, kind.solve (ofProds prods) labels.F fuel
        (kind.new (terminalGraph labels graph t.toCFLAlias)) = some u) ∧
      ∀ u, ReflTransGen (kind.Step (ofProds prods) labels.F) (kind.initializeWorklist (ofProds prods)
          (kind.new (terminalGraph labels graph t.toCFLAlias))) u →
        isWorklistEmpty u.toState = true → u.edges = t.edges) ∧
    (∀ call ∈ t.indCallMap, Connected labels prog t.toCFLAlias call.1 call.2) ∧
      AllResolved labels prog t.toCFLAlias := by
  obtain ⟨s, phase⟩ := t
  obtain rfl : phase = .ended := hend
  obtain ⟨hcore, hedges, hresolved, hcalls⟩ := inv_run hw hrun
  have hterm : (terminalGraph labels graph s).WellFormed := by
    intro e he
    have hsame : s.graph.nodes = graph.nodes := hcore.sane.sameNodes
    change e.src ∈ s.graph.nodes ∧ e.dst ∈ s.graph.nodes
    rw [hsame]
    exact hcore.sane.wellFormed e (mem_terminalGraph.mp he).1
  refine ⟨⟨exists_solve kind labels.F prods hterm, fun u hu hempty => ?_⟩, hcalls, hresolved⟩
  rw [edges_of_scratch hterm hu hempty]
  exact hedges.symm

theorem step_of_next {s t : State Sym} {a : Action Sym}
    (h : next kind labels prog (ofProds prods) s = some (a, t)) :
    Step kind labels prog (ofProds prods) a s t := by
  obtain ⟨s, phase⟩ := s
  cases phase with
  | solving =>
      simp only [next] at h
      split at h
      · rename_i hempty
        obtain ⟨rfl, rfl⟩ := by simpa using h
        exact .update hempty
      · obtain ⟨⟨e, u⟩, hpop, heq⟩ := Option.map_eq_some_iff.mp h
        obtain ⟨hmem, rfl⟩ := Closure.popFromWorklist_eq_some hpop
        obtain ⟨rfl, rfl⟩ := by simpa using heq
        exact .process hmem
  | connecting newEdges =>
      cases newEdges with
      | nil =>
          simp only [next] at h
          split at h
          · rename_i hempty
            obtain ⟨rfl, rfl⟩ := by simpa using h
            exact .stop hempty
          · rename_i hne
            obtain ⟨rfl, rfl⟩ := by simpa using h
            exact .again (by simpa using hne)
      | cons call newEdges =>
          obtain ⟨rfl, rfl⟩ := by simpa [next] using h
          exact .connect
  | ended => simp [next] at h

theorem run_steps (n : ℕ) (s : State Sym) {R : State Sym → State Sym → Prop}
    (h : ∀ x ∈ (run kind labels prog (ofProds prods) n s).1, ∀ t,
      Step kind labels prog (ofProds prods) x.2 x.1 t → R x.1 t) :
    ReflTransGen R s (run kind labels prog (ofProds prods) n s).2 := by
  induction n generalizing s with
  | zero => exact .refl
  | succ n ih =>
      rw [run] at h ⊢
      split
      · exact .refl
      · rename_i a t hnext
        simp only [hnext] at h
        exact .head (h (s, a) List.mem_cons_self t (step_of_next hnext))
          (ih t fun x hx => h x (List.mem_cons_of_mem _ hx))

def exampleLabels : Labels Char := ⟨'a', 'c', 'd', 'F', 'V'⟩

def exampleProds : List (Production Char) := [.epsilon 'V', .binary 'V' 'V' 'c']

def exampleGraph : CFLGraph Char := ⟨[3, 4, 5, 7], [⟨7, 5, 'a'⟩, ⟨5, 7, 'b'⟩]⟩

theorem sum_succ_not_mem (used : List ℕ) : used.sum + 1 ∉ used := by
  intro h
  have hle := List.single_le_sum (fun _ _ => Nat.zero_le _) _ h
  omega

/-- A call through the pointer 5 to the function whose address is the object 7. Its result 3 flows to
the result 4 of the call. -/
def exampleProgram (isHeapAlloc : Bool) : Program where
  getIndirectCallsites := [(0, 5)]
  isVirtualCall _ := false
  getVtablePtr _ := 0
  getCallSiteArgsList _ := none
  getFunArgsList _ := none
  getCallSiteRet _ := some 4
  getFunRet _ := some 3
  isPointer _ := true
  callArgSize _ := 0
  callIsVarArg _ := false
  isTDFork _ := false
  argSize _ := 0
  isVarArg _ := false
  getVarargNode _ := 0
  isHeapAllocExtFunViaRet _ := isHeapAlloc
  getFunction o := if o = 7 then some 0 else none
  getDefFunForMultipleModule F := F
  getVFns _ _ := []
  gepSource _ := none
  addrSources n := if n = 5 then [7] else []
  indirectCallLimit := 50000
  nodeIds := [3, 4, 5, 7]
  allocateValueId used := used.sum + 1
  allocateObjectId used := used.sum + 1
  freshValue := sum_succ_not_mem
  freshObject := sum_succ_not_mem
  iterate newEdges := newEdges
  perm _ := .refl _

theorem exampleProgram_wellFormed (isHeapAlloc : Bool) :
    WellFormed exampleLabels (exampleProgram isHeapAlloc) exampleProds exampleGraph where
  wellFormed := by decide
  heads := by simp [exampleProds, IsCopy, exampleLabels, Production.lhs]
  distinct := by decide
  paired := by simp [Base, exampleLabels, exampleProds, exampleGraph, rules]
  callRet := by simp [exampleProgram, exampleGraph]
  funRet := by simp [exampleProgram, exampleGraph]
  callArgs := by simp [exampleProgram]
  funArgs := by simp [exampleProgram]
  vararg := by simp [exampleProgram]

def exampleRun (kind : SolverKind) (isHeapAlloc : Bool) : List (State Char × Action Char) × State Char :=
  run kind exampleLabels (exampleProgram isHeapAlloc) (ofProds exampleProds) 25
    (start kind (exampleProgram isHeapAlloc) (ofProds exampleProds) exampleGraph)

theorem exampleRun_reaches {R : State Char → State Char → Prop}
    (h : ∀ x ∈ (exampleRun kind b).1, ∀ t, Step kind exampleLabels (exampleProgram b)
      (ofProds exampleProds) x.2 x.1 t → R x.1 t) :
    ReflTransGen R (start kind (exampleProgram b) (ofProds exampleProds) exampleGraph)
      (exampleRun kind b).2 :=
  run_steps 25 _ h

/-- The results of the call get no self-edge from the production for the empty word, and no object
flows to the result of a heap allocator. -/
theorem solve_misses :
    (∃ t : State Char, ReflTransGen (fun s t => ∃ a, Step .POCRSolver exampleLabels
        (exampleProgram false) (ofProds exampleProds) a s t)
        (start .POCRSolver (exampleProgram false) (ofProds exampleProds) exampleGraph) t ∧
      t.phase = .ended ∧ ∃ fuel u, SolverKind.solve .POCRSolver (ofProds exampleProds) 'F' fuel
        (SolverKind.new .POCRSolver (terminalGraph exampleLabels exampleGraph t.toCFLAlias)) = some u ∧
      u.edges ≠ t.edges) ∧
    ∃ t : State Char, ReflTransGen (fun s t => ∃ a, Step .CFLSolver exampleLabels
        (exampleProgram true) (ofProds exampleProds) a s t)
        (start .CFLSolver (exampleProgram true) (ofProds exampleProds) exampleGraph) t ∧
      t.phase = .ended ∧ ∃ call ∈ t.indCallMap,
        ¬ Connected exampleLabels (exampleProgram true) t.toCFLAlias call.1 call.2 := by
  constructor
  · refine ⟨(exampleRun .POCRSolver false).2, exampleRun_reaches fun x _ t h => ⟨x.2, h⟩,
      by decide +kernel, ?_⟩
    have hscratch : (SolverKind.solve .POCRSolver (ofProds exampleProds) 'F' 20 (SolverKind.new .POCRSolver
        (terminalGraph exampleLabels exampleGraph (exampleRun .POCRSolver false).2.toCFLAlias))).any
        (fun u => decide (⟨3, 3, 'V'⟩ ∈ u.graph.cflEdgeSet)) = true := by decide +kernel
    obtain ⟨u, hu, hmem⟩ := (Option.any_eq_true _ _).mp hscratch
    refine ⟨20, u, hu, fun heq => ?_⟩
    have hscratch : ⟨3, 3, 'V'⟩ ∈ u.edges := of_decide_eq_true (p := _ ∈ u.graph.cflEdgeSet) hmem
    have hedge : ⟨3, 3, 'V'⟩ ∈ (exampleRun .POCRSolver false).2.edges := heq ▸ hscratch
    exact absurd hedge (by change _ ∉ CFLGraph.cflEdgeSet _; decide +kernel)
  · refine ⟨(exampleRun .CFLSolver true).2, exampleRun_reaches fun x _ t h => ⟨x.2, h⟩,
      by decide +kernel, (0, 0), by decide +kernel, fun h => ?_⟩
    obtain ⟨obj, val, hval, hobj, -⟩ := h.heap rfl 4 rfl
    have hnone : ∀ p ∈ (exampleRun .CFLSolver true).2.callsite2DummyValPN,
        ∀ e ∈ (exampleRun .CFLSolver true).2.graph.cflEdgeSet, e.kind = 'a' → e.dst ≠ p.2 := by
      decide +kernel
    exact hnone _ hval _ hobj rfl rfl

theorem solve_onTheFly_exampleProgram :
    ∃ t : State Char, t.phase = .ended ∧
    ((∃ fuel u, SolverKind.solve .CFLSolver (ofProds exampleProds) 'F' fuel
        (SolverKind.new .CFLSolver (terminalGraph exampleLabels exampleGraph t.toCFLAlias)) = some u) ∧
      ∀ u, ReflTransGen (SolverKind.Step .CFLSolver (ofProds exampleProds) 'F')
          (SolverKind.initializeWorklist .CFLSolver (ofProds exampleProds)
            (SolverKind.new .CFLSolver (terminalGraph exampleLabels exampleGraph t.toCFLAlias))) u →
        isWorklistEmpty u.toState = true → u.edges = t.edges) ∧
    (∀ call ∈ t.indCallMap,
      Connected exampleLabels (exampleProgram false) t.toCFLAlias call.1 call.2) ∧
      AllResolved exampleLabels (exampleProgram false) t.toCFLAlias := by
  have hend : (exampleRun .CFLSolver false).2.phase = .ended := by decide +kernel
  refine ⟨(exampleRun .CFLSolver false).2, hend,
    solve_onTheFly (exampleProgram_wellFormed false) (exampleRun_reaches fun x _ t hstep => ?_) hend⟩
  refine ⟨x.2, hstep, ?_⟩
  cases x.2 with
  | process e => exact fun z hz => absurd hz (Set.notMem_empty z)
  | update => trivial
  | connect cs F => exact ⟨fun h => Bool.false_ne_true h.1, fun h => absurd h Bool.false_ne_true⟩
  | again => exact .inl rfl
  | stop => trivial

end

end SVF.CFL.OnTheFlyClosure
