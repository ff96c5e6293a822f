import SVF.CFL.CFLGraphBuilder
import SVF.CFL.Closure
import SVF.CFL.EBNF
import SVF.WPA.AndersenPrecision

namespace SVF.CFL.PEGGrammar

open CFGNormalizer GrammarBuilder EBNF CFLGraphBuilder Util.TextFiles

def grammarFile : List Text :=
  ["Start:  ",
    "   V",
    "Terminal:",
    "   addr copy store load gep",
    "Productions:",
    "   F -> ( copy M ? ) *;",
    "   Fbar -> ( M ? copybar ) *;",
    "   M -> addr V addrbar;",
    "   V -> Fbar V F | gepbar_i V gep_i | M | epsilon | gepbar_i Memcpy gep_i | " ++
      "gep_i Memcpy gepbar_i | ArrayPath V gep_0;",
    "   ArrayPath -> gepbar_0 gepbar_0 | ArrayPath gepbar_0;",
    "   Memcpy -> addrbar V addr | gep_i Memcpy gepbar_i | F Memcpy Fbar;"].map String.toList

/-- The symbols of the kinds, in the order in which the file names them first. -/
def addr : Symbol := ofNum 0

def copy : Symbol := ofNum 1

def V : Symbol := ofNum 5

def F : Symbol := ofNum 7

def M : Symbol := ofNum 9

def Fbar : Symbol := ofNum 13

def copybar : Symbol := ofNum 14

def addrbar : Symbol := ofNum 15

/-- The nonterminals for `M ?`, `V F`, `V addrbar`, `copybar Fbar` and `M ? F`. -/
def X0 : Symbol := ofNum 20

def X4 : Symbol := ofNum 24

def X8 : Symbol := ofNum 28

def X9 : Symbol := ofNum 29

def X10 : Symbol := ofNum 30

def aliasRules : List (Symbol × Production) :=
  [(F, [ofNum 6]), (F, [copy, X10]), (X10, [X0, F]), (X0, [ofNum 6]), (X0, [M]),
    (Fbar, [ofNum 6]), (Fbar, [X0, X9]), (X9, [copybar, Fbar]), (M, [addr, X8]),
    (X8, [V, addrbar]), (V, [ofNum 6]), (V, [Fbar, X4]), (X4, [V, F])]

/-- The reader and the normalizer run through, and leave these productions. -/
theorem binarize_grammarFile : ((build grammarFile).bind fun p => (binarize p.1).map fun grammar =>
      (p.2, barKind p.1 0, barKind p.1 1, strToSymbol grammar "epsilon".toList,
        aliasRules.all fun r => r.1 ∈ grammar.rawProductions.keys ∧
          r.2 ∈ grammar.rawProductions.get r.1)) =
    some (V, 15, 14, some (ofNum 6), true) := by
  decide +kernel

end SVF.CFL.PEGGrammar

namespace SVF.CFL.AliasSoundness

open Relation CFGNormalizer GrammarBuilder EBNF CFLGraphBuilder PEGGrammar
open EdgeGraph hiding NodeID
open Grammar Util.Saturation Util.InclusionConstraints
open Graphs.ConsG Graphs.FieldObjects Graphs.Registration Graphs.Merging
open WPA.AndersenSolver WPA.AndersenPrecision
open Graphs.FieldObjects (allocateNext)
open WPA.DiffPropagation (sampleOptions)
open Solver hiding Grows

theorem getFilledProductions_self (nodeSet : List (Fin (2 ^ 16))) {prod : Production}
    (h : ∀ symbol ∈ prod, symbol.variableAttribute = 0) :
    getFilledProductions nodeSet prod = [prod] := by
  have hnone : (prod.map (·.variableAttribute)).filter (· ≠ 0) = [] := by
    apply List.filter_eq_nil_iff.mpr
    intro a ha
    obtain ⟨symbol, hsymbol, rfl⟩ := List.mem_map.mp ha
    simp [h symbol hsymbol]
  rw [getFilledProductions, hnone, List.dedup_nil, List.foldl_nil]

theorem mem_fillAttribute {grammar : CFGrammar} (nodeSet : List (Fin (2 ^ 16))) {head : Symbol}
    {prod : Production} (hhead : head ∈ grammar.rawProductions.keys)
    (hprod : prod ∈ grammar.rawProductions.get head)
    (hattr : ∀ symbol ∈ head :: prod, symbol.variableAttribute = 0) {p : Grammar.Production Symbol}
    (hp : toCFLProduction grammar (head :: prod) = some p) : p ∈ fillAttribute grammar nodeSet := by
  refine List.mem_flatMap.mpr ⟨head, hhead, List.mem_flatMap.mpr ⟨prod, hprod, ?_⟩⟩
  rw [getFilledProductions_self nodeSet hattr]
  exact List.mem_filterMap.mpr ⟨head :: prod, List.mem_singleton_self _, hp⟩

structure HasAliasRules (prods : List (Grammar.Production Symbol)) : Prop where
  F_epsilon : .epsilon F ∈ prods
  F_copy : .binary F copy X10 ∈ prods
  X10_X0 : .binary X10 X0 F ∈ prods
  X0_epsilon : .epsilon X0 ∈ prods
  X0_M : .single X0 M ∈ prods
  Fbar_epsilon : .epsilon Fbar ∈ prods
  Fbar_X0 : .binary Fbar X0 X9 ∈ prods
  X9_copybar : .binary X9 copybar Fbar ∈ prods
  M_addr : .binary M addr X8 ∈ prods
  X8_V : .binary X8 V addrbar ∈ prods
  V_epsilon : .epsilon V ∈ prods
  V_Fbar : .binary V Fbar X4 ∈ prods
  X4_V : .binary X4 V F ∈ prods

/-- The file is read and normalized without a failure, whatever attributes the graph has. -/
theorem exists_normalized (nodeSet : List (Fin (2 ^ 16))) :
    ∃ grammar prods, build grammarFile = some (grammar, V) ∧
      normalize nodeSet grammar = some prods ∧ barKind grammar 0 = 15 ∧ barKind grammar 1 = 14 ∧
      HasAliasRules prods := by
  have hall := binarize_grammarFile
  obtain ⟨⟨grammar, startKind⟩, hbuild, hmap⟩ := Option.bind_eq_some_iff.mp hall
  obtain ⟨normal, hnormal, htuple⟩ := Option.map_eq_some_iff.mp hmap
  simp only [Prod.mk.injEq, List.all_eq_true, Bool.decide_and, Bool.and_eq_true,
    decide_eq_true_eq] at htuple
  obtain ⟨rfl, haddr, hcopy, hepsilon, hrules⟩ := htuple
  have hmem : ∀ r ∈ aliasRules, ∀ p, toCFLProduction normal (r.1 :: r.2) = some p →
      p ∈ fillAttribute normal nodeSet := by
    intro r hr p hp
    obtain ⟨hkey, hprod⟩ := hrules r hr
    refine mem_fillAttribute nodeSet hkey hprod ?_ hp
    have hattr : ∀ r ∈ aliasRules, ∀ symbol ∈ r.1 :: r.2, symbol.variableAttribute = 0 := by decide
    exact hattr r hr
  refine ⟨grammar, fillAttribute normal nodeSet, hbuild, by rw [EBNF.normalize, hnormal]; rfl, haddr,
    hcopy, ?_⟩
  have hone : ∀ X, toCFLProduction normal [X, ofNum 6] = some (.epsilon X) := by
    intro X
    rw [toCFLProduction, hepsilon, if_pos (by simp)]
  constructor
  · exact hmem (F, [ofNum 6]) (by decide) _ (hone F)
  · exact hmem (F, [copy, X10]) (by decide) _ rfl
  · exact hmem (X10, [X0, F]) (by decide) _ rfl
  · exact hmem (X0, [ofNum 6]) (by decide) _ (hone X0)
  · refine hmem (X0, [M]) (by decide) _ ?_
    simp only [toCFLProduction, hepsilon]
    decide
  · exact hmem (Fbar, [ofNum 6]) (by decide) _ (hone Fbar)
  · exact hmem (Fbar, [X0, X9]) (by decide) _ rfl
  · exact hmem (X9, [copybar, Fbar]) (by decide) _ rfl
  · exact hmem (M, [addr, X8]) (by decide) _ rfl
  · exact hmem (X8, [V, addrbar]) (by decide) _ rfl
  · exact hmem (V, [ofNum 6]) (by decide) _ (hone V)
  · exact hmem (V, [Fbar, X4]) (by decide) _ rfl
  · exact hmem (X4, [V, F]) (by decide) _ rfl

section

variable {prods : List (Grammar.Production Symbol)} {graph : CFLGraph Symbol}
variable {S : Set (CFLEdge Symbol)}

structure ClosedGraph (prods : List (Grammar.Production Symbol)) (graph : CFLGraph Symbol)
    (S : Set (CFLEdge Symbol)) : Prop where
  seeds : seeds prods graph.cflEdgeSet {n | n ∈ graph.nodes} ⊆ S
  closed : ClosedUnder (rules prods) S
  ends : ∀ e ∈ S, e.src ∈ graph.nodes ∧ e.dst ∈ graph.nodes

theorem ClosedGraph.input (h : ClosedGraph prods graph S) {e : CFLEdge Symbol}
    (he : e ∈ graph.cflEdgeSet) : e ∈ S := h.seeds (.inl he)

theorem ClosedGraph.epsilon (h : ClosedGraph prods graph S) {X : Symbol} (hX : .epsilon X ∈ prods)
    {a : NodeID} (ha : a ∈ graph.nodes) : ⟨a, a, X⟩ ∈ S := h.seeds (.inr ⟨ha, rfl, hX⟩)

theorem ClosedGraph.single (h : ClosedGraph prods graph S) {X Y : Symbol}
    (hX : .single X Y ∈ prods) {a b : NodeID} (hab : ⟨a, b, Y⟩ ∈ S) : ⟨a, b, X⟩ ∈ S :=
  h.closed.one hab ⟨rfl, rfl, hX⟩

theorem ClosedGraph.binary (h : ClosedGraph prods graph S) {X Y Z : Symbol}
    (hX : .binary X Y Z ∈ prods) {a b c : NodeID} (hab : ⟨a, b, Y⟩ ∈ S) (hbc : ⟨b, c, Z⟩ ∈ S) :
    ⟨a, c, X⟩ ∈ S := h.closed.two hab hbc ⟨rfl, rfl, rfl, hX⟩

theorem ClosedGraph.optional (h : ClosedGraph prods graph S) (hp : HasAliasRules prods)
    {a b : NodeID} (ha : a ∈ graph.nodes) (hab : a = b ∨ ⟨a, b, M⟩ ∈ S) : ⟨a, b, X0⟩ ∈ S := by
  rcases hab with rfl | hab
  · exact h.epsilon hp.X0_epsilon ha
  · exact h.single hp.X0_M hab

theorem aliasRules_of_closed (h : ClosedGraph prods graph S) (hp : HasAliasRules prods) :
    AliasRules (· ∈ graph.nodes) (fun a b => ⟨a, b, addr⟩ ∈ S ∧ ⟨b, a, addrbar⟩ ∈ S)
      (fun a b => ⟨a, b, copy⟩ ∈ S ∧ ⟨b, a, copybar⟩ ∈ S) (fun a b => ⟨a, b, F⟩ ∈ S)
      (fun a b => ⟨a, b, Fbar⟩ ∈ S) (fun a b => ⟨a, b, M⟩ ∈ S) (fun a b => ⟨a, b, V⟩ ∈ S) where
  addr_node a b hab := (h.ends _ hab.1).2
  copy_node a b hab := (h.ends _ hab.1).2
  memory_node a b hab := (h.ends _ hab).2
  flow_refl a ha := h.epsilon hp.F_epsilon ha
  flow_step a b c d hab hbc hcd := by
    have hoption := h.optional hp (h.ends _ hab.1).2 hbc
    exact h.binary hp.F_copy hab.1 (h.binary hp.X10_X0 hoption hcd)
  flowBar_refl a ha := h.epsilon hp.Fbar_epsilon ha
  flowBar_step a b c d hab hcb hcd := by
    have hnode : a ∈ graph.nodes := hab.elim (fun h' => h' ▸ (h.ends _ hcb.1).2)
      fun h' => (h.ends _ h').1
    exact h.binary hp.Fbar_X0 (h.optional hp hnode hab) (h.binary hp.X9_copybar hcb.2 hcd)
  memory_addr a b c d hab hbc hdc := h.binary hp.M_addr hab.1 (h.binary hp.X8_V hbc hdc.2)
  value_refl a ha := h.epsilon hp.V_epsilon ha
  value_flow a b c d hab hbc hcd := h.binary hp.V_Fbar hab (h.binary hp.X4_V hbc hcd)

end

section

variable {grammar : CFGrammar} {prog : Program} {g : ConstraintGraph}
variable {prods : List (Grammar.Production Symbol)} {S : Set (CFLEdge Symbol)}

def OneAddr (g : ConstraintGraph) : Prop :=
  ∀ e ∈ edges g, ∀ e' ∈ edges g, e.cls = .AddrCGEdge → e'.cls = .AddrCGEdge →
    ∀ id, Touches id e → Touches id e' → e = e'

def NoNullStores (prog : Program) (g : ConstraintGraph) : Prop :=
  ∀ e ∈ edges g, e.cls.getEdgeKind = .Store → prog.isNullPtr e.src = false

theorem addrOnce_constraints (hg : Fresh g) (hone : OneAddr g) : AddrOnce (constraints g) where
  src o p p' h h' := by
    have hsame := hone _ h _ h' rfl rfl o (.inl rfl) (.inl rfl)
    exact congrArg ConstraintEdge.dst hsame
  ends o p o' h h' := by
    have hsame := hone _ h _ h' rfl rfl p (.inr rfl) (.inl rfl)
    exact hg.addr _ h rfl (congrArg ConstraintEdge.src hsame)

theorem encodes_constraints (hreg : Registered g) (hnull : NoNullStores prog g)
    (haddr : barKind grammar 0 = 15) (hcopy : barKind grammar 1 = 14)
    (h : ClosedGraph prods (buildBiPEGgraph grammar prog g) S) :
    Encodes (constraints g) (fun a b => ⟨a, b, addr⟩ ∈ S ∧ ⟨b, a, addrbar⟩ ∈ S)
      (fun a b => ⟨a, b, copy⟩ ∈ S ∧ ⟨b, a, copybar⟩ ∈ S) := by
  have hofAddr : ∀ a b, Linked grammar (buildBiPEGgraph grammar prog g) ConstraintEdgeK.Addr.flag
      a b → ⟨a, b, addr⟩ ∈ S ∧ ⟨b, a, addrbar⟩ ∈ S := by
    intro a b hab
    have hbar := h.input hab.2
    rw [show barKind grammar ConstraintEdgeK.Addr.flag = 15 from haddr] at hbar
    exact ⟨h.input hab.1, hbar⟩
  have hofCopy : ∀ a b, Linked grammar (buildBiPEGgraph grammar prog g) ConstraintEdgeK.Copy.flag
      a b → ⟨a, b, copy⟩ ∈ S ∧ ⟨b, a, copybar⟩ ∈ S := by
    intro a b hab
    have hbar := h.input hab.2
    rw [show barKind grammar ConstraintEdgeK.Copy.flag = 14 from hcopy] at hbar
    exact ⟨h.input hab.1, hbar⟩
  constructor
  · exact fun o p ho => hofAddr o p (linked_addr hreg ho)
  · exact fun a b hab => hofCopy a b (linked_copy hreg hab)
  · rintro q y ⟨svfgid, hload⟩
    obtain ⟨d, hd, hdy⟩ := linked_load hreg hload
    exact ⟨d, hofAddr d q hd, hofCopy d y hdy⟩
  · rintro x q ⟨svfgid, hstore⟩
    obtain ⟨d, hd, hxd⟩ := linked_store hreg (hnull _ hstore rfl) hstore
    exact ⟨d, hofAddr d q hd, hofCopy x d hxd⟩

end

/-- The edge set that the solver ends with is closed and joins nodes of the graph. -/
theorem closedGraph_of_final {prods : List (Grammar.Production Symbol)} {graph : CFLGraph Symbol}
    (hgraph : graph.WellFormed) {c : State Symbol}
    (hrun : ReflTransGen (Step (ofProds prods)) (initializeWorklist (ofProds prods) graph) c)
    (hend : isWorklistEmpty c = true) : ClosedGraph prods graph c.edges := by
  have hleast := ((Closure.solve_least prods graph hgraph).2 c hrun).2 hend
  refine ⟨hleast.1.1, hleast.1.2, fun e he => ?_⟩
  have hjoin : c.edges ⊆ {e | e.src ∈ graph.nodes ∧ e.dst ∈ graph.nodes} := by
    apply hleast.2
    refine ⟨fun e he => ?_, Closure.closedUnder_endpoints prods graph.nodes⟩
    obtain ⟨hsrc, hdst, -⟩ := seeds_subset_edgeDomain prods hgraph (fun _ => id) he
    exact ⟨hsrc, hdst⟩
  exact hjoin he

theorem gep_of_isGep {cls : EdgeClass} (h : isGep cls = false) :
    holds .gep cls.getEdgeKind = false := by
  cases cls <;> simp [isGep, holds, EdgeClass.getEdgeKind] at h ⊢

/-- The file is read, and whatever order the solver takes the edges in, it ends, and two pointers
whose points-to sets of the inclusion-based solver meet are joined by `V` edges. -/
theorem value_of_getPts (prog : Program) {opts : Options} {alloc : NodeIDAllocator}
    {g : ConstraintGraph} (hg : Built g) (hone : OneAddr g) (hnull : NoNullStores prog g) :
    ∃ grammar prods, build grammarFile = some (grammar, V) ∧
      normalize (attributes g) grammar = some prods ∧
      (∃ fuel c, solve (ofProds prods) fuel (buildBiPEGgraph grammar prog g) = some c) ∧
      ∀ c, ReflTransGen (Step (ofProds prods))
          (initializeWorklist (ofProds prods) (buildBiPEGgraph grammar prog g)) c →
        isWorklistEmpty c = true →
        ∀ s scc, Runs opts alloc g s scc → ∀ p q o, o ∈ s.getPts p → o ∈ s.getPts q →
          ⟨p, q, V⟩ ∈ c.edges ∧ ⟨q, p, V⟩ ∈ c.edges := by
  obtain ⟨grammar, prods, hbuild, hnormal, haddr, hcopy, hrules⟩ := exists_normalized (attributes g)
  have hfresh := hg.fresh
  have hreg := hfresh.reachable.wellFormed.registered
  have hgraph : (buildBiPEGgraph grammar prog g).WellFormed :=
    wellFormed_buildBiPEGgraph hreg fun e he => gep_of_isGep (hfresh.gep e he)
  obtain ⟨fuel, c, hsolve, -⟩ := Closure.exists_solve prods hgraph
  refine ⟨grammar, prods, hbuild, hnormal, ⟨fuel, c, hsolve⟩, ?_⟩
  intro c hrun hend s scc hs p q o hp hq
  have hclosed := closedGraph_of_final hgraph hrun hend
  have halias := aliasRules_of_closed hclosed hrules
  have honce := addrOnce_constraints hfresh hone
  have henc := encodes_constraints hreg hnull haddr hcopy hclosed
  have hp' := hs.pointsTo hg hp
  have hq' := hs.pointsTo hg hq
  exact ⟨value_of_pointsTo halias honce henc hp' hq', value_of_pointsTo halias honce henc hq' hp'⟩

/-- `p = &a`, `x = &b`, `*p = x` and `y = *p`, for `a`, `p`, `x`, `b`, `y` in this order. -/
def sample : ConstraintGraph :=
  let g := [1, 2, 3, 4, 5].foldl ConstraintGraph.addConstraintNode .empty
  let g := (g.addAddrCGEdge 1 2).getD g
  let g := (g.addAddrCGEdge 4 3).getD g
  let g := (g.addStoreCGEdge 3 2 0).getD g
  (g.addLoadCGEdge 2 5 0).getD g

def sampleProgram : Program where
  nodes := [1, 2, 3, 4, 5]
  isNullPtr _ := false
  getNumOfElements _ := 1
  allocateValueId used := allocateNext.allocateGepObjectId used 0 0
  fresh used := allocateNext.fresh used 0 0

def sampleObjects : SVFIR where
  nodes := [1, 2, 3, 4, 5]
  gepObjVar _ := none
  GepObjVarMap _ _ := none
  memToFieldsMap b := [b]
  maxFieldOffsetLimit _ := 2
  isConstDataOrConstGlobal _ := false
  isPointer _ := true

def sampleStart : Andersen := ⟨sampleObjects, sample, .empty, [], false, []⟩

def sampleSolved : Andersen :=
  let s := sampleStart.processAllAddr.postProcessNode 2
  let s := s.processNode sampleOptions allocateNext 3
  s.processNode sampleOptions allocateNext 1

theorem built_sample : Built sample := by
  have hnodes : Built ([1, 2, 3, 4, 5].foldl ConstraintGraph.addConstraintNode .empty) := by
    apply Built.addConstraintNode _ 5
    · apply Built.addConstraintNode _ 4
      · apply Built.addConstraintNode _ 3
        · apply Built.addConstraintNode _ 2
          · exact .addConstraintNode _ 1 .empty rfl
          · rfl
        · rfl
      · rfl
    · rfl
  have haddr := Built.addEdge _ _ .AddrCGEdge 1 2 hnodes rfl (fun _ => by decide) rfl
  have haddr' := Built.addEdge _ _ .AddrCGEdge 4 3 haddr rfl (fun _ => by decide) rfl
  have hstore := Built.addEdge _ _ (.StoreCGEdge 0) 3 2 haddr' rfl (by simp) rfl
  exact Built.addEdge _ _ (.LoadCGEdge 0) 2 5 hstore rfl (by simp) rfl

theorem edges_sample (e : ConstraintEdge) : e ∈ edges sample ↔
    e = ⟨1, 2, .AddrCGEdge⟩ ∨ e = ⟨4, 3, .AddrCGEdge⟩ ∨ e = ⟨3, 2, .StoreCGEdge 0⟩ ∨
      e = ⟨2, 5, .LoadCGEdge 0⟩ := by
  have hlist : ∀ k, (sample.edgeSets k).elems = match k with
      | .AddrCGEdgeSet => [⟨1, 2, .AddrCGEdge⟩, ⟨4, 3, .AddrCGEdge⟩]
      | .StoreCGEdgeSet => [⟨3, 2, .StoreCGEdge 0⟩]
      | .LoadCGEdgeSet => [⟨2, 5, .LoadCGEdge 0⟩]
      | .directEdgeSet => [] := by
    intro k
    cases k <;> decide +kernel
  change e ∈ (sample.edgeSets e.cls.getEdgeKind.edgeSet).elems ↔ _
  rw [hlist]
  obtain ⟨src, dst, cls⟩ := e
  cases cls <;> simp [EdgeClass.getEdgeKind, ConstraintEdgeK.edgeSet]

theorem runs_sampleSolved : Runs sampleOptions allocateNext sample
    sampleSolved Eq := by
  have hstart : Runs sampleOptions allocateNext sample
      sampleStart.processAllAddr Eq := by
    apply Runs.processAllAddr sampleStart rfl
    · refine ⟨?_, ?_, ?_, ?_, ?_⟩
      · exact fun _ _ _ h => absurd h (Option.some_ne_none _).symm
      · exact fun _ _ _ h => absurd h (Option.some_ne_none _).symm
      · exact fun _ _ _ h => absurd h (Option.some_ne_none _).symm
      · exact fun _ _ _ h => absurd h (Option.some_ne_none _).symm
      · exact fun b x hx => .inl (List.mem_singleton.mp hx)
    · rfl
    · intro e he hcls
      rcases (edges_sample e).mp he with rfl | rfl | rfl | rfl
      · decide
      · decide
      · contradiction
      · contradiction
  exact .processNode _ _ 1 (.processNode _ _ 3 (.postProcessNode _ _ 2 hstart))

/-- `x` and `y` both point to `b`. -/
theorem value_of_getPts_sample : ∃ grammar prods c, build grammarFile = some (grammar, V) ∧
    normalize (attributes sample) grammar = some prods ∧
    (∃ fuel, solve (ofProds prods) fuel (buildBiPEGgraph grammar sampleProgram sample) = some c) ∧
    ⟨3, 5, V⟩ ∈ c.edges ∧ ⟨5, 3, V⟩ ∈ c.edges := by
  have hone : OneAddr sample := by
    intro e he e' he' hcls hcls' (id : ℕ) hid hid'
    rcases (edges_sample e).mp he with rfl | rfl | rfl | rfl <;>
      rcases (edges_sample e').mp he' with rfl | rfl | rfl | rfl <;>
      first
        | rfl
        | contradiction
        | have hnum : ((1 : ℕ) = id ∨ 2 = id) ∧ ((4 : ℕ) = id ∨ 3 = id) := by tauto
          omega
  obtain ⟨grammar, prods, hbuild, hnormal, ⟨fuel, c, hsolve⟩, hvalue⟩ :=
    value_of_getPts sampleProgram built_sample hone fun _ _ _ => rfl
  obtain ⟨hrun, hend⟩ := Closure.solve_run hsolve
  refine ⟨grammar, prods, c, hbuild, hnormal, ⟨fuel, hsolve⟩, ?_⟩
  exact hvalue c hrun hend sampleSolved Eq runs_sampleSolved 3 5 4 (by decide +kernel)
    (by decide +kernel)

end SVF.CFL.AliasSoundness
