import SVF.CFL.EdgeGraph
import SVF.CFL.GrammarBuilder
import SVF.Graphs.Merging
import SVF.Util.Folds

namespace SVF.CFL.CFLGraphBuilder

open CFGNormalizer GrammarBuilder Graphs.ConsG Graphs.Registration
open EdgeGraph hiding NodeID
open Util.Folds

/-- What the builder reads of the program, with the identifiers in use. -/
structure Program where
  nodes : List NodeID
  isNullPtr : NodeID → Bool
  getNumOfElements : NodeID → ℕ
  allocateValueId : List NodeID → NodeID
  fresh : ∀ used, allocateValueId used ∉ used

section

variable (grammar : CFGrammar)

/-- `operator[]` of the map, which has the value `0` for a new label. -/
def labelToKindMap (label : String) : ℕ :=
  ((grammar.terminals.lookup label).or (grammar.nonterminals.lookup label)).getD 0

def kindToLabelMap (kind : ℕ) : String :=
  let named := fun p : String × ℕ => p.2 = kind
  ((grammar.terminals.find? named).or (grammar.nonterminals.find? named)).elim "" Prod.fst

def ofNum (num : ℕ) : Symbol :=
  ⟨Fin.ofNat (2 ^ 8) num, Fin.ofNat (2 ^ 16) (num / 2 ^ 8), Fin.ofNat (2 ^ 8) (num / 2 ^ 24)⟩

def getAttributedKind (attr kind : ℕ) : ℕ := attr * 2 ^ 8 % 2 ^ 32 ||| kind

def barKind (kind : ℕ) : ℕ := labelToKindMap grammar (kindToLabelMap grammar kind ++ "bar")

end

structure BuilderState where
  graph : CFLGraph Symbol
  nodes : List NodeID

section

variable (grammar : CFGrammar) (prog : Program) (g : ConstraintGraph)

def addBiCFLEdge (attr src dst kind : ℕ) (graph : CFLGraph Symbol) : CFLGraph Symbol :=
  let graph := (graph.addCFLEdge src dst (ofNum (getAttributedKind attr kind))).1
  (graph.addCFLEdge dst src (ofNum (getAttributedKind attr (barKind grammar kind)))).1

def BuilderState.addBi (attr src dst kind : ℕ) (s : BuilderState) : BuilderState :=
  { s with graph := addBiCFLEdge grammar attr src dst kind s.graph }

def addrSources (node : NodeID) : List NodeID :=
  ((((g.IDToNodeMap.lookup node).getD .new).inEdges .edges).elems.filter
    fun e => e.cls.getEdgeKind = .Addr).map ConstraintEdge.src

def addCFLNode (id : NodeID) (graph : CFLGraph Symbol) : CFLGraph Symbol :=
  { graph with nodes := graph.nodes.orderedInsert (· ≤ ·) id }

/-- The dereferenced pointer, which is a new node where no address is taken to the pointer. -/
def derefNode (node : NodeID) (existing : Option NodeID) (s : BuilderState) :
    BuilderState × NodeID :=
  match existing with
  | some deref => (s, deref)
  | none =>
      let refId := prog.allocateValueId s.nodes
      let s : BuilderState := ⟨addCFLNode refId s.graph, refId :: s.nodes⟩
      (s.addBi grammar 0 refId node ConstraintEdgeK.Addr.flag, refId)

/-- All geps up to the level are connected to the target of the variant gep. -/
def connectVGep : ℕ → NodeID → NodeID → CFLGraph Symbol → CFLGraph Symbol
  | 0, _, _, graph => graph
  | level + 1, src, dst, graph =>
      let node := (g.IDToNodeMap.lookup src).getD .new
      let graph := (node.inEdges .address).elems.foldl (fun graph e =>
        (List.range (prog.getNumOfElements e.src)).foldl (fun graph maxField =>
          addBiCFLEdge grammar maxField e.dst dst ConstraintEdgeK.NormalGep.flag graph) graph) graph
      if level = 0 then graph
      else (node.inEdges .edges).elems.foldl
        (fun graph e => connectVGep level e.src dst graph) graph

def attribute32 (ap : AccessPath) : ℕ := (ap.fldIdx % 2 ^ 32).toNat

def buildEdge (s : BuilderState) (edge : ConstraintEdge) : BuilderState :=
  match edge.cls with
  | .StoreCGEdge _ =>
      if prog.isNullPtr edge.src then s
      else
        let (s, deref) := derefNode grammar prog edge.dst (addrSources g edge.dst).head? s
        s.addBi grammar 0 edge.src deref ConstraintEdgeK.Copy.flag
  | .LoadCGEdge _ =>
      let (s, deref) := derefNode grammar prog edge.src (addrSources g edge.src).getLast? s
      s.addBi grammar 0 deref edge.dst ConstraintEdgeK.Copy.flag
  | .VariantGepCGEdge =>
      { s with graph := connectVGep grammar prog g 8 edge.src edge.dst s.graph }
  | .NormalGepCGEdge ap =>
      s.addBi grammar (attribute32 ap) edge.src edge.dst ConstraintEdgeK.NormalGep.flag
  | .AddrCGEdge => s.addBi grammar 0 edge.src edge.dst ConstraintEdgeK.Addr.flag
  | .CopyCGEdge => s.addBi grammar 0 edge.src edge.dst ConstraintEdgeK.Copy.flag

/-- The edges in the order in which the loops over the nodes and their edges meet them. -/
def outEdges : List ConstraintEdge :=
  g.IDToNodeMap.entries.flatMap fun node => (node.2.outEdges .edges).elems

def buildBiPEGgraph : CFLGraph Symbol :=
  let graph := g.IDToNodeMap.entries.foldl (fun graph node => addCFLNode node.1 graph) ⟨[], []⟩
  ((outEdges g).foldl (buildEdge grammar prog g) ⟨graph, prog.nodes⟩).graph

/-- The attributes of the gep edges, with which the grammar is filled. -/
def attributes : List (Fin (2 ^ 16)) :=
  (outEdges g).filterMap fun e =>
    match e.cls with
    | .NormalGepCGEdge ap => some (Fin.ofNat (2 ^ 16) (attribute32 ap))
    | _ => none

end

section

variable {grammar : CFGrammar} {prog : Program} {g : ConstraintGraph} {s : BuilderState}

theorem mem_addCFLEdge (graph : CFLGraph Symbol) (src dst : NodeID) (label : Symbol)
    (e : CFLEdge Symbol) : e ∈ (graph.addCFLEdge src dst label).1.cflEdgeSet ↔
      e ∈ graph.cflEdgeSet ∨ e = ⟨src, dst, label⟩ := by
  rw [CFLGraph.addCFLEdge]
  split
  · rename_i hmem
    exact ⟨.inl, fun h => h.elim id fun h => h ▸ hmem⟩
  · simp

theorem nodes_addCFLEdge (graph : CFLGraph Symbol) (src dst : NodeID) (label : Symbol) :
    (graph.addCFLEdge src dst label).1.nodes = graph.nodes := by
  rw [CFLGraph.addCFLEdge]
  split <;> rfl

theorem getAttributedKind_zero (kind : ℕ) : getAttributedKind 0 kind = kind := by
  simp [getAttributedKind]

def Linked (grammar : CFGrammar) (graph : CFLGraph Symbol) (kind : ℕ) (a b : NodeID) : Prop :=
  ⟨a, b, ofNum kind⟩ ∈ graph.cflEdgeSet ∧ ⟨b, a, ofNum (barKind grammar kind)⟩ ∈ graph.cflEdgeSet

theorem linked_addBi (s : BuilderState) (src dst kind : ℕ) :
    Linked grammar (s.addBi grammar 0 src dst kind).graph kind src dst := by
  rw [Linked, BuilderState.addBi, addBiCFLEdge, getAttributedKind_zero, getAttributedKind_zero]
  simp [mem_addCFLEdge]

structure Part (graph graph' : CFLGraph Symbol) : Prop where
  nodes : graph.nodes ⊆ graph'.nodes
  edges : graph.cflEdgeSet ⊆ graph'.cflEdgeSet

instance : Std.Refl Part := ⟨fun _ => ⟨fun _ h => h, fun _ h => h⟩⟩

instance : IsTrans (CFLGraph Symbol) Part :=
  ⟨fun _ _ _ h h' => ⟨fun _ hn => h'.nodes (h.nodes hn), fun _ he => h'.edges (h.edges he)⟩⟩

def Grows (s t : BuilderState) : Prop := Part s.graph t.graph

instance : Std.Refl Grows := ⟨fun s => refl_of Part s.graph⟩

instance : IsTrans BuilderState Grows := ⟨fun _ _ _ h h' => trans_of Part h h'⟩

theorem Grows.linked {t : BuilderState} (h : Grows s t) {kind a b : ℕ}
    (hs : Linked grammar s.graph kind a b) : Linked grammar t.graph kind a b :=
  ⟨h.edges hs.1, h.edges hs.2⟩

theorem part_addBiCFLEdge (grammar : CFGrammar) (attr src dst kind : ℕ) (graph : CFLGraph Symbol) :
    Part graph (addBiCFLEdge grammar attr src dst kind graph) := by
  constructor
  · rw [addBiCFLEdge]
    simp [nodes_addCFLEdge]
  · intro e he
    rw [addBiCFLEdge]
    exact (mem_addCFLEdge _ _ _ _ e).mpr (.inl ((mem_addCFLEdge _ _ _ _ e).mpr (.inl he)))

theorem grows_addBi (grammar : CFGrammar) (attr src dst kind : ℕ) (s : BuilderState) :
    Grows s (s.addBi grammar attr src dst kind) := part_addBiCFLEdge grammar attr src dst kind s.graph

theorem derefNode_spec (grammar : CFGrammar) (prog : Program) (s : BuilderState) (node : NodeID) (existing : Option NodeID) :
    Grows s (derefNode grammar prog node existing s).1 ∧
      (existing = some (derefNode grammar prog node existing s).2 ∨ existing = none ∧
        Linked grammar (derefNode grammar prog node existing s).1.graph ConstraintEdgeK.Addr.flag
          (derefNode grammar prog node existing s).2 node) := by
  cases existing with
  | some deref => exact ⟨refl_of Grows s, .inl rfl⟩
  | none =>
      refine ⟨?_, .inr ⟨rfl, linked_addBi _ _ _ _⟩⟩
      have hnode : Part s.graph (addCFLNode (prog.allocateValueId s.nodes) s.graph) :=
        ⟨fun n hn => (List.mem_orderedInsert _).mpr (.inr hn), fun _ he => he⟩
      exact trans_of Part hnode (part_addBiCFLEdge _ _ _ _ _ _)

theorem part_connectVGep (level : ℕ) (src dst : NodeID) (graph : CFLGraph Symbol) :
    Part graph (connectVGep grammar prog g level src dst graph) := by
  induction level generalizing src graph with
  | zero => exact refl_of Part graph
  | succ level ih =>
      have hgeps := foldl_rel
        (l := (((g.IDToNodeMap.lookup src).getD .new).inEdges .address).elems) Part
        (fun e _ graph => foldl_rel (l := List.range (prog.getNumOfElements e.src)) Part
          (fun maxField _ graph => part_addBiCFLEdge grammar maxField e.dst dst
            ConstraintEdgeK.NormalGep.flag graph) graph) graph
      rw [connectVGep]
      split
      · exact hgeps
      · exact trans_of Part hgeps (foldl_rel Part (fun e _ graph => ih e.src graph) _)

theorem grows_buildEdge (s : BuilderState) (edge : ConstraintEdge) :
    Grows s (buildEdge grammar prog g s edge) := by
  rw [buildEdge]
  split
  · split
    · exact refl_of Grows s
    · exact trans_of Grows (derefNode_spec _ _ s _ _).1 (grows_addBi _ _ _ _ _ _)
  · exact trans_of Grows (derefNode_spec _ _ s _ _).1 (grows_addBi _ _ _ _ _ _)
  · exact part_connectVGep 8 edge.src edge.dst s.graph
  · exact grows_addBi _ _ _ _ _ s
  · exact grows_addBi _ _ _ _ _ s
  · exact grows_addBi _ _ _ _ _ s

theorem mem_outEdges (hg : Registered g) (e : ConstraintEdge) : e ∈ outEdges g ↔ e ∈ edges g := by
  rw [outEdges, List.mem_flatMap]
  constructor
  · rintro ⟨⟨id, node⟩, hnode, he⟩
    exact ((hg.out id node (AList.mem_lookup_iff.mpr hnode) .edges e).mp he).1
  · intro he
    obtain ⟨node, hnode⟩ := Option.isSome_iff_exists.mp (hg.src e he)
    exact ⟨⟨e.src, node⟩, AList.mem_lookup_iff.mp hnode,
      (hg.out e.src node hnode .edges e).mpr ⟨he, rfl, rfl⟩⟩

theorem mem_addrSources (hg : Registered g) {o node : NodeID} (ho : o ∈ addrSources g node) :
    ⟨o, node, .AddrCGEdge⟩ ∈ edges g := by
  rw [addrSources, List.mem_map] at ho
  obtain ⟨⟨src, dst, cls⟩, he, rfl⟩ := ho
  rw [List.mem_filter, decide_eq_true_eq] at he
  obtain ⟨hmem, hkind⟩ := he
  cases hnode : g.IDToNodeMap.lookup node with
  | none =>
      rw [hnode] at hmem
      exact absurd hmem List.not_mem_nil
  | some n =>
      rw [hnode] at hmem
      obtain ⟨hedge, rfl, -⟩ := (hg.inn node n hnode .edges _).mp hmem
      have hcls : cls = .AddrCGEdge := (Graphs.Merging.getEdgeKind_eq_Addr cls).mp hkind
      exact hcls ▸ hedge

theorem covers_buildEdge (grammar : CFGrammar) (prog : Program) (hg : Registered g) {e : ConstraintEdge} (he : e ∈ edges g)
    {Q : CFLGraph Symbol → Prop} (hQ : ∀ graph graph', Part graph graph' → Q graph → Q graph')
    (h : ∀ s, Q (buildEdge grammar prog g s e).graph) : Q (buildBiPEGgraph grammar prog g) :=
  foldl_covers Grows (fun edge _ s => grows_buildEdge s edge)
    (Q := fun s : BuilderState => Q s.graph) (fun _ _ hst hs => hQ _ _ hst hs)
    ((mem_outEdges hg e).mpr he) fun s _ => h s

theorem linked_addr (hg : Registered g) {o p : NodeID} (he : ⟨o, p, .AddrCGEdge⟩ ∈ edges g) :
    Linked grammar (buildBiPEGgraph grammar prog g) ConstraintEdgeK.Addr.flag o p :=
  covers_buildEdge grammar prog hg he (Q := fun graph => Linked grammar graph ConstraintEdgeK.Addr.flag o p)
    (fun _ _ h hl => ⟨h.edges hl.1, h.edges hl.2⟩) fun s => linked_addBi s o p _

theorem linked_copy (hg : Registered g) {a b : NodeID} (he : ⟨a, b, .CopyCGEdge⟩ ∈ edges g) :
    Linked grammar (buildBiPEGgraph grammar prog g) ConstraintEdgeK.Copy.flag a b :=
  covers_buildEdge grammar prog hg he (Q := fun graph => Linked grammar graph ConstraintEdgeK.Copy.flag a b)
    (fun _ _ h hl => ⟨h.edges hl.1, h.edges hl.2⟩) fun s => linked_addBi s a b _

theorem linked_deref (hg : Registered g) {node : NodeID} {existing : Option NodeID}
    (hexisting : ∀ o ∈ existing, o ∈ addrSources g node) {e : ConstraintEdge} (he : e ∈ edges g)
    (ends : NodeID → NodeID × NodeID)
    (hbuild : ∀ s, buildEdge grammar prog g s e =
      (derefNode grammar prog node existing s).1.addBi grammar 0
        (ends (derefNode grammar prog node existing s).2).1
        (ends (derefNode grammar prog node existing s).2).2 ConstraintEdgeK.Copy.flag) :
    ∃ d, Linked grammar (buildBiPEGgraph grammar prog g) ConstraintEdgeK.Addr.flag d node ∧
      Linked grammar (buildBiPEGgraph grammar prog g) ConstraintEdgeK.Copy.flag
        (ends d).1 (ends d).2 := by
  have hcover := covers_buildEdge grammar prog hg he (Q := fun graph =>
      ∃ d, (existing = some d ∨ Linked grammar graph ConstraintEdgeK.Addr.flag d node) ∧
        Linked grammar graph ConstraintEdgeK.Copy.flag (ends d).1 (ends d).2)
    (fun _ _ h ⟨d, hd, hcopy⟩ => ⟨d, hd.imp_right fun hl => ⟨h.edges hl.1, h.edges hl.2⟩,
      h.edges hcopy.1, h.edges hcopy.2⟩) fun s => by
    rw [hbuild]
    obtain ⟨-, hd⟩ := derefNode_spec grammar prog s node existing
    refine ⟨_, hd.imp_right fun h => ?_, linked_addBi _ _ _ _⟩
    exact (grows_addBi grammar _ _ _ _ _).linked h.2
  obtain ⟨d, hd, hcopy⟩ := hcover
  refine ⟨d, hd.elim (fun hsome => ?_) id, hcopy⟩
  exact linked_addr hg (mem_addrSources hg (hexisting d hsome))

theorem linked_load (hg : Registered g) {q y svfgid : NodeID}
    (he : ⟨q, y, .LoadCGEdge svfgid⟩ ∈ edges g) :
    ∃ d, Linked grammar (buildBiPEGgraph grammar prog g) ConstraintEdgeK.Addr.flag d q ∧
      Linked grammar (buildBiPEGgraph grammar prog g) ConstraintEdgeK.Copy.flag d y :=
  linked_deref hg (fun _ ho => List.mem_of_getLast? ho) he (fun d => (d, y)) fun _ => rfl

theorem linked_store (hg : Registered g) {x q svfgid : NodeID} (hnull : prog.isNullPtr x = false)
    (he : ⟨x, q, .StoreCGEdge svfgid⟩ ∈ edges g) :
    ∃ d, Linked grammar (buildBiPEGgraph grammar prog g) ConstraintEdgeK.Addr.flag d q ∧
      Linked grammar (buildBiPEGgraph grammar prog g) ConstraintEdgeK.Copy.flag x d :=
  linked_deref hg (fun _ ho => List.mem_of_head? ho) he (fun d => (x, d)) fun s => by
    rw [buildEdge]
    simp only [hnull, Bool.false_eq_true, if_false]

end

section

variable {grammar : CFGrammar} {prog : Program} {g : ConstraintGraph} {s : BuilderState}

structure Sane (g : ConstraintGraph) (graph : CFLGraph Symbol) : Prop where
  wellFormed : graph.WellFormed
  nodes : ∀ id, g.hasGNode id = true → id ∈ graph.nodes

theorem Sane.addBi (h : Sane g s.graph) {attr src dst kind : ℕ} (hsrc : src ∈ s.graph.nodes)
    (hdst : dst ∈ s.graph.nodes) : Sane g (s.addBi grammar attr src dst kind).graph := by
  constructor
  · intro e he
    rw [BuilderState.addBi, addBiCFLEdge] at he ⊢
    simp only [nodes_addCFLEdge]
    simp only [mem_addCFLEdge] at he
    rcases he with (he | rfl) | rfl
    · exact h.wellFormed e he
    · exact ⟨hsrc, hdst⟩
    · exact ⟨hdst, hsrc⟩
  · intro id hid
    exact (part_addBiCFLEdge grammar attr src dst kind s.graph).nodes (h.nodes id hid)

theorem Sane.derefNode (grammar : CFGrammar) (prog : Program) (h : Sane g s.graph) {node : NodeID} (hnode : node ∈ s.graph.nodes)
    {existing : Option NodeID} (hexisting : ∀ o ∈ existing, o ∈ s.graph.nodes) :
    Sane g (derefNode grammar prog node existing s).1.graph ∧
      (derefNode grammar prog node existing s).2 ∈
        (derefNode grammar prog node existing s).1.graph.nodes := by
  cases existing with
  | some deref => exact ⟨h, hexisting deref rfl⟩
  | none =>
      have hnew : Sane g (addCFLNode (prog.allocateValueId s.nodes) s.graph) := by
        refine ⟨fun e he => ?_, fun id hid => (List.mem_orderedInsert _).mpr (.inr (h.nodes id hid))⟩
        obtain ⟨hsrc, hdst⟩ := h.wellFormed e he
        exact ⟨(List.mem_orderedInsert _).mpr (.inr hsrc), (List.mem_orderedInsert _).mpr (.inr hdst)⟩
      have hmem : prog.allocateValueId s.nodes ∈
          (addCFLNode (prog.allocateValueId s.nodes) s.graph).nodes :=
        (List.mem_orderedInsert _).mpr (.inl rfl)
      have hold : node ∈ (addCFLNode (prog.allocateValueId s.nodes) s.graph).nodes :=
        (List.mem_orderedInsert _).mpr (.inr hnode)
      exact ⟨Sane.addBi (s := ⟨_, prog.allocateValueId s.nodes :: s.nodes⟩) hnew hmem hold,
        (part_addBiCFLEdge _ _ _ _ _ _).nodes hmem⟩

theorem Sane.buildEdge (hg : Registered g) (h : Sane g s.graph) {e : ConstraintEdge}
    (he : e ∈ edges g) (hgep : holds .gep e.cls.getEdgeKind = false) :
    Sane g (buildEdge grammar prog g s e).graph := by
  have hsrc := h.nodes _ (hg.src e he)
  have hdst := h.nodes _ (hg.dst e he)
  have haddr : ∀ node, ∀ o ∈ addrSources g node, o ∈ s.graph.nodes := fun node o ho =>
    h.nodes o (hg.src _ (mem_addrSources hg ho))
  rw [CFLGraphBuilder.buildEdge]
  split
  · split
    · exact h
    · obtain ⟨hsane, hderef⟩ := h.derefNode grammar prog hdst
        fun o ho => haddr e.dst o (List.mem_of_head? ho)
      exact hsane.addBi ((derefNode_spec _ _ s _ _).1.nodes hsrc) hderef
  · obtain ⟨hsane, hderef⟩ := h.derefNode grammar prog hsrc
      fun o ho => haddr e.src o (List.mem_of_getLast? ho)
    exact hsane.addBi hderef ((derefNode_spec _ _ s _ _).1.nodes hdst)
  · rename_i hcls
    rw [hcls] at hgep
    contradiction
  · exact h.addBi hsrc hdst
  · exact h.addBi hsrc hdst
  · exact h.addBi hsrc hdst

theorem wellFormed_buildBiPEGgraph (hg : Registered g)
    (hgep : ∀ e ∈ edges g, holds .gep e.cls.getEdgeKind = false) :
    (buildBiPEGgraph grammar prog g).WellFormed := by
  have hnodes : ∀ (l : List (Sigma fun _ : NodeID => ConstraintNode)) (graph : CFLGraph Symbol),
      graph.cflEdgeSet = [] → (l.foldl (fun graph node => addCFLNode node.1 graph) graph).cflEdgeSet =
        [] ∧ ∀ id, id ∈ (l.foldl (fun graph node => addCFLNode node.1 graph) graph).nodes ↔
          id ∈ graph.nodes ∨ ∃ node ∈ l, node.1 = id := by
    intro l
    induction l with
    | nil => simp
    | cons node l ih =>
        intro graph hnil
        obtain ⟨hedges, hmem⟩ := ih (addCFLNode node.1 graph) hnil
        refine ⟨hedges, fun id => ?_⟩
        rw [List.foldl_cons, hmem, addCFLNode, List.mem_orderedInsert]
        simp only [List.exists_mem_cons_iff]
        tauto
  obtain ⟨hedges, hmem⟩ := hnodes g.IDToNodeMap.entries ⟨[], []⟩ rfl
  have hstart : Sane g (g.IDToNodeMap.entries.foldl (fun graph node => addCFLNode node.1 graph)
      ⟨[], []⟩) := by
    refine ⟨fun e he => ?_, fun id hid => (hmem id).mpr (.inr ?_)⟩
    · rw [hedges] at he
      exact absurd he List.not_mem_nil
    · obtain ⟨node, hnode⟩ := Option.isSome_iff_exists.mp hid
      exact ⟨⟨id, node⟩, AList.mem_lookup_iff.mp hnode, rfl⟩
  have hloop := foldl_invariant (l := outEdges g) (f := buildEdge grammar prog g)
    (I := fun s : BuilderState => Sane g s.graph) (fun e he s hs =>
      hs.buildEdge hg ((mem_outEdges hg e).mp he) (hgep e ((mem_outEdges hg e).mp he)))
    (s := ⟨_, prog.nodes⟩) hstart
  exact hloop.wellFormed

end

end SVF.CFL.CFLGraphBuilder
