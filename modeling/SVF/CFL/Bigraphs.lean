import SVF.CFL.CFLGraphBuilder
import SVF.Graphs.MergeExact

namespace SVF.CFL.Bigraphs

open CFGNormalizer CFLGraphBuilder Graphs.ConsG Graphs.Registration
open EdgeGraph hiding NodeID
open Util.Folds Util.DefaultMaps

structure Built where
  graph : CFLGraph Symbol
  kindToAttrsMap : DefaultMap ℕ (List ℕ)

section

variable (grammar : CFGrammar)

namespace Built

def addAttribute (kind attr : ℕ) (b : Built) : Built :=
  { b with kindToAttrsMap := b.kindToAttrsMap.modify kind (·.insert attr) }

def addCFLEdge (src dst num : ℕ) (b : Built) : Built :=
  { b with graph := (b.graph.addCFLEdge src dst (ofNum num)).1 }

end Built

def addNodes (nodes : List NodeID) : Built :=
  ⟨nodes.foldl (fun graph id => addCFLNode id graph) ⟨[], []⟩, .empty⟩

def aliasEdge (b : Built) (edge : ConstraintEdge) : Built :=
  match edge.cls with
  | .NormalGepCGEdge ap =>
      let attr := attribute32 ap
      let edgeLabel := ConstraintEdgeK.NormalGep.flag
      let b := b.addAttribute edgeLabel attr
      let b := b.addCFLEdge edge.src edge.dst (getAttributedKind attr edgeLabel)
      let b := b.addCFLEdge edge.dst edge.src (getAttributedKind attr (barKind grammar edgeLabel))
      b.addAttribute (barKind grammar edgeLabel) attr
  | cls =>
      let b := b.addCFLEdge edge.src edge.dst cls.getEdgeKind.flag
      b.addCFLEdge edge.dst edge.src (barKind grammar cls.getEdgeKind.flag)

def aliasBigraph (g : ConstraintGraph) : Built :=
  (outEdges g).foldl (aliasEdge grammar) (addNodes (g.IDToNodeMap.entries.map Sigma.fst))

inductive VFGEdgeK
  | IntraDirectVF
  | IntraIndirectVF
  | CallDirVF (csId : ℕ)
  | RetDirVF (csId : ℕ)
  | CallIndVF (csId : ℕ)
  | RetIndVF (csId : ℕ)
  | TheadMHPIndirectVF
  deriving DecidableEq

def VFGEdgeK.flag : VFGEdgeK → ℕ
  | .IntraDirectVF => 0
  | .IntraIndirectVF => 1
  | .CallDirVF _ => 2
  | .RetDirVF _ => 3
  | .CallIndVF _ => 4
  | .RetIndVF _ => 5
  | .TheadMHPIndirectVF => 6

structure VFGEdge where
  src : NodeID
  dst : NodeID
  kind : VFGEdgeK
  deriving DecidableEq

structure SVFG where
  nodes : List NodeID
  edges : List VFGEdge
  src : ∀ e ∈ edges, e.src ∈ nodes

/-- The branch of the intra edges; the label is looked up by the kind of the input edge. -/
def intraEdge (b : Built) (edge : VFGEdge) : Built :=
  let b := b.addCFLEdge edge.src edge.dst 0
  let b := b.addCFLEdge edge.src edge.dst 0
  b.addCFLEdge edge.dst edge.src (barKind grammar edge.kind.flag)

/-- The branches of call and return edges; the label is looked up by the attributed kind. -/
def interEdge (b : Built) (edge : VFGEdge) (edgeLabel attr : ℕ) : Built :=
  let b := b.addAttribute edgeLabel attr
  let edgeLabel := getAttributedKind attr edgeLabel
  let b := b.addCFLEdge edge.src edge.dst edgeLabel
  let b := b.addCFLEdge edge.dst edge.src (getAttributedKind attr (barKind grammar edgeLabel))
  b.addAttribute (barKind grammar edgeLabel) attr

def vfEdge (b : Built) (edge : VFGEdge) : Built :=
  match edge.kind with
  | .IntraDirectVF | .IntraIndirectVF | .TheadMHPIndirectVF => intraEdge grammar b edge
  | .CallDirVF csId | .CallIndVF csId => interEdge grammar b edge 1 csId
  | .RetDirVF csId | .RetIndVF csId => interEdge grammar b edge 2 csId

def vfBigraph (g : SVFG) : Built :=
  (g.nodes.flatMap fun id => g.edges.filter (·.src = id)).foldl (vfEdge grammar) (addNodes g.nodes)

end

section

/-- An edge of the input, with its kind in the grammar and its attribute. -/
structure BiEdge where
  src : NodeID
  dst : NodeID
  kind : ℕ
  attr : ℤ

variable (grammar : CFGrammar)

def nameOf (kind : ℕ) : Option String :=
  let named := fun p : String × ℕ => p.2 = kind
  ((grammar.terminals.find? named).or (grammar.nonterminals.find? named)).map Prod.fst

def kindOf (label : String) : Option ℕ := (grammar.terminals.lookup label).or (grammar.nonterminals.lookup label)

def barOf (kind : ℕ) : Option ℕ := (nameOf grammar kind).bind fun label => kindOf grammar (label ++ "bar")

structure IsEdge (x : CFLEdge Symbol) (src dst : NodeID) (kind : ℕ) (attr : ℤ) : Prop where
  src : x.src = src
  dst : x.dst = dst
  kind : x.kind.kind.val = kind
  attr : (x.kind.attr.val : ℤ) = attr
  plain : x.kind.variableAttribute.val = 0

/-- The graph has each edge and its counterpart, no other, and the same attributes for both kinds. -/
structure IsBigraph (es : Set BiEdge) (b : Built) : Prop where
  forward : ∀ e ∈ es, ∃ x ∈ b.graph.cflEdgeSet, IsEdge x e.src e.dst e.kind e.attr
  backward : ∀ e ∈ es, ∃ k, barOf grammar e.kind = some k ∧
    ∃ x ∈ b.graph.cflEdgeSet, IsEdge x e.dst e.src k e.attr
  only : ∀ x ∈ b.graph.cflEdgeSet, ∃ e ∈ es, IsEdge x e.src e.dst e.kind e.attr ∨
    ∃ k, barOf grammar e.kind = some k ∧ IsEdge x e.dst e.src k e.attr
  attributes : ∀ e ∈ es, ∀ k, barOf grammar e.kind = some k →
    ∀ a, a ∈ b.kindToAttrsMap.get e.kind ↔ a ∈ b.kindToAttrsMap.get k

/-- Names and kinds belong to each other, and the first `n` kinds are not bars of one another. -/
structure Names (n : ℕ) : Prop where
  inverse : ∀ label kind, kindOf grammar label = some kind ↔ nameOf grammar kind = some label
  small : ∀ label kind, kindOf grammar label = some kind → kind < 2 ^ 8
  bars : ∀ kind < n, ∀ k, barOf grammar kind = some k → n ≤ k

end

variable {grammar : CFGrammar}

theorem getAttributedKind_eq (a : ℕ) {k : ℕ} (hk : k < 2 ^ 8) : getAttributedKind a k = a % 2 ^ 24 * 2 ^ 8 + k := by
  have hmod : a * 2 ^ 8 % 2 ^ 32 = a % 2 ^ 24 * 2 ^ 8 := by omega
  rw [getAttributedKind, hmod, Nat.mul_comm, ← Nat.two_pow_add_eq_or_of_lt hk]

theorem isEdge_ofNum {a k : ℕ} (hk : k < 2 ^ 8) (src dst s d k' : ℕ) (i : ℤ) :
    IsEdge ⟨s, d, ofNum (getAttributedKind a k)⟩ src dst k' i ↔
      s = src ∧ d = dst ∧ k = k' ∧ ((a % 2 ^ 16 : ℕ) : ℤ) = i ∧ a / 2 ^ 16 % 2 ^ 8 = 0 := by
  have hkind : (ofNum (getAttributedKind a k)).kind.val = k := by
    change getAttributedKind a k % 2 ^ 8 = k
    rw [getAttributedKind_eq a hk]
    omega
  have hattr : (ofNum (getAttributedKind a k)).attr.val = a % 2 ^ 16 := by
    change getAttributedKind a k / 2 ^ 8 % 2 ^ 16 = _
    rw [getAttributedKind_eq a hk]
    omega
  have hvar : (ofNum (getAttributedKind a k)).variableAttribute.val = a / 2 ^ 16 % 2 ^ 8 := by
    change getAttributedKind a k / 2 ^ 24 % 2 ^ 8 = _
    rw [getAttributedKind_eq a hk]
    omega
  constructor
  · rintro ⟨hsrc, hdst, hkind', hattr', hplain⟩
    dsimp only at hsrc hdst hkind' hattr' hplain
    rw [hkind] at hkind'
    rw [hattr] at hattr'
    rw [hvar] at hplain
    exact ⟨hsrc, hdst, hkind', hattr', hplain⟩
  · rintro ⟨hsrc, hdst, hkind', hattr', hplain⟩
    exact ⟨hsrc, hdst, hkind.trans hkind', by rw [hattr, hattr'], hvar.trans hplain⟩

theorem barKind_eq (kind : ℕ) :
    barKind grammar kind = (kindOf grammar ((nameOf grammar kind).getD "" ++ "bar")).getD 0 := by
  rw [barKind, labelToKindMap, kindToLabelMap, kindOf, nameOf]
  dsimp only
  cases (grammar.terminals.find? fun p => decide (p.2 = kind)).or
    (grammar.nonterminals.find? fun p => decide (p.2 = kind)) <;> rfl

theorem barKind_of_barOf {kind k : ℕ} (h : barOf grammar kind = some k) : barKind grammar kind = k := by
  obtain ⟨label, hlabel, hk⟩ := Option.bind_eq_some_iff.mp h
  rw [barKind_eq, hlabel, Option.getD_some, hk]
  rfl

theorem Names.barKind_lt {n : ℕ} (h : Names grammar n) (kind : ℕ) : barKind grammar kind < 2 ^ 8 := by
  rw [barKind_eq]
  cases hk : kindOf grammar ((nameOf grammar kind).getD "" ++ "bar") with
  | none => decide
  | some k => exact h.small _ k hk

theorem Names.barOf_inj {n : ℕ} (h : Names grammar n) {kind kind' k : ℕ} (hk : barOf grammar kind = some k)
    (hk' : barOf grammar kind' = some k) : kind = kind' := by
  obtain ⟨label, hlabel, hbar⟩ := Option.bind_eq_some_iff.mp hk
  obtain ⟨label', hlabel', hbar'⟩ := Option.bind_eq_some_iff.mp hk'
  have heq : label ++ "bar" = label' ++ "bar" :=
    Option.some.inj (((h.inverse _ _).mp hbar).symm.trans ((h.inverse _ _).mp hbar'))
  have hsame : label = label' := String.append_left_inj "bar" |>.mp heq
  rw [hsame] at hlabel
  exact Option.some.inj (((h.inverse _ _).mpr hlabel).symm.trans ((h.inverse _ _).mpr hlabel'))

section

variable {b : Built} {x : CFLEdge Symbol}

@[simp] theorem mem_edges_addCFLEdge (src dst num : ℕ) : x ∈ (b.addCFLEdge src dst num).graph.cflEdgeSet ↔
    x ∈ b.graph.cflEdgeSet ∨ x = ⟨src, dst, ofNum num⟩ := mem_addCFLEdge _ _ _ _ x

@[simp] theorem graph_addAttribute (kind attr : ℕ) : (b.addAttribute kind attr).graph = b.graph := rfl

@[simp] theorem attrs_addCFLEdge (src dst num : ℕ) : (b.addCFLEdge src dst num).kindToAttrsMap = b.kindToAttrsMap := rfl

@[simp] theorem mem_attrs_addAttribute (kind attr k a : ℕ) : a ∈ (b.addAttribute kind attr).kindToAttrsMap.get k ↔
    a ∈ b.kindToAttrsMap.get k ∨ k = kind ∧ a = attr := by
  rw [Built.addAttribute, get_modify]
  split
  · rename_i hk
    rw [List.mem_insert_iff, hk, or_comm, and_iff_right rfl]
  · rename_i hk
    rw [or_iff_left fun h => hk h.1]

theorem edges_addNodes (nodes : List NodeID) : (addNodes nodes).graph.cflEdgeSet = [] := by
  refine foldl_invariant (I := fun graph : CFLGraph Symbol => graph.cflEdgeSet = []) ?_ rfl
  intro id _ graph hnil
  exact hnil

theorem attrs_addNodes (nodes : List NodeID) (k : ℕ) : (addNodes nodes).kindToAttrsMap.get k = [] := rfl

def fieldOf (e : ConstraintEdge) : ℤ :=
  match e.cls with
  | .NormalGepCGEdge ap => ap.fldIdx
  | _ => 0

def numberOf (e : ConstraintEdge) : ℕ :=
  match e.cls with
  | .NormalGepCGEdge ap => attribute32 ap
  | _ => 0

def aliasBiEdge (e : ConstraintEdge) : BiEdge := ⟨e.src, e.dst, e.cls.getEdgeKind.flag, fieldOf e⟩

section

variable {α : Type*} {f : Built → α → Built} {l : List α}

theorem edges_foldl {P : α → CFLEdge Symbol → Prop} (h : ∀ a ∈ l, ∀ b x,
    x ∈ (f b a).graph.cflEdgeSet ↔ x ∈ b.graph.cflEdgeSet ∨ P a x) (nodes : List NodeID) (x : CFLEdge Symbol) :
    x ∈ (l.foldl f (addNodes nodes)).graph.cflEdgeSet ↔ ∃ a ∈ l, P a x := by
  have hcollects := @foldl_collects _ _ f l _ (fun x b => x ∈ b.graph.cflEdgeSet) P h (addNodes nodes) x
  rwa [edges_addNodes, or_iff_right List.not_mem_nil] at hcollects

theorem attrs_foldl {k : ℕ} {P : α → ℕ → Prop} (h : ∀ a ∈ l, ∀ b x,
    x ∈ (f b a).kindToAttrsMap.get k ↔ x ∈ b.kindToAttrsMap.get k ∨ P a x) (nodes : List NodeID) (x : ℕ) :
    x ∈ (l.foldl f (addNodes nodes)).kindToAttrsMap.get k ↔ ∃ a ∈ l, P a x := by
  have hcollects := @foldl_collects _ _ f l _ (fun x b => x ∈ b.kindToAttrsMap.get k) P h (addNodes nodes) x
  rwa [attrs_addNodes, or_iff_right List.not_mem_nil] at hcollects

end

variable (grammar)

def aliasForward (e : ConstraintEdge) : CFLEdge Symbol :=
  ⟨e.src, e.dst, ofNum (getAttributedKind (numberOf e) e.cls.getEdgeKind.flag)⟩

def aliasBackward (e : ConstraintEdge) : CFLEdge Symbol :=
  ⟨e.dst, e.src, ofNum (getAttributedKind (numberOf e) (barKind grammar e.cls.getEdgeKind.flag))⟩

theorem mem_aliasBigraph {g : ConstraintGraph} (hg : Registered g) (x : CFLEdge Symbol) :
    x ∈ (aliasBigraph grammar g).graph.cflEdgeSet ↔
      ∃ e ∈ edges g, x = aliasForward e ∨ x = aliasBackward grammar e := by
  have hround : ∀ e ∈ outEdges g, ∀ b x, x ∈ (aliasEdge grammar b e).graph.cflEdgeSet ↔
      x ∈ b.graph.cflEdgeSet ∨ (x = aliasForward e ∨ x = aliasBackward grammar e) := by
    intro e _ b x
    obtain ⟨src, dst, cls⟩ := e
    cases cls <;>
      simp only [aliasEdge, aliasForward, aliasBackward, numberOf, getAttributedKind_zero,
        mem_edges_addCFLEdge, graph_addAttribute, or_assoc, EdgeClass.getEdgeKind]
  rw [aliasBigraph, edges_foldl hround]
  simp only [mem_outEdges hg]

theorem mem_aliasAttributes {g : ConstraintGraph} (hg : Registered g) (k a : ℕ) :
    a ∈ (aliasBigraph grammar g).kindToAttrsMap.get k ↔
      ∃ e ∈ edges g, e.cls.getEdgeKind = .NormalGep ∧ a = numberOf e ∧
        (k = ConstraintEdgeK.NormalGep.flag ∨ k = barKind grammar ConstraintEdgeK.NormalGep.flag) := by
  have hround : ∀ e ∈ outEdges g, ∀ b x, x ∈ (aliasEdge grammar b e).kindToAttrsMap.get k ↔
      x ∈ b.kindToAttrsMap.get k ∨ (e.cls.getEdgeKind = .NormalGep ∧ x = numberOf e ∧
        (k = ConstraintEdgeK.NormalGep.flag ∨ k = barKind grammar ConstraintEdgeK.NormalGep.flag)) := by
    intro e _ b x
    obtain ⟨src, dst, cls⟩ := e
    cases cls with
    | NormalGepCGEdge ap =>
        simp only [aliasEdge, numberOf, mem_attrs_addAttribute, attrs_addCFLEdge, EdgeClass.getEdgeKind,
          or_assoc, true_and, and_or_left, and_comm]
    | AddrCGEdge | CopyCGEdge | StoreCGEdge | LoadCGEdge | VariantGepCGEdge =>
        exact (or_iff_left fun h => by cases h.1).symm
  rw [aliasBigraph, attrs_foldl hround]
  simp only [mem_outEdges hg]

end

section

variable {g : ConstraintGraph}

/-- The field index fits in the label, and the kind has a bar in the grammar. -/
def AliasFits (grammar : CFGrammar) (g : ConstraintGraph) : Prop :=
  ∀ e ∈ edges g, (0 ≤ fieldOf e ∧ fieldOf e < 2 ^ 16) ∧ (barOf grammar e.cls.getEdgeKind.flag).isSome = true

theorem flag_lt (k : ConstraintEdgeK) : k.flag < 6 := by cases k <;> decide

theorem toNat_mod {z : ℤ} (h : 0 ≤ z ∧ z < 2 ^ 16) : ((z % 2 ^ 32).toNat : ℤ) = z := by omega

theorem numberOf_eq {e : ConstraintEdge} (h : 0 ≤ fieldOf e ∧ fieldOf e < 2 ^ 16) : (numberOf e : ℤ) = fieldOf e := by
  obtain ⟨src, dst, cls⟩ := e
  cases cls with
  | NormalGepCGEdge ap => exact toNat_mod h
  | AddrCGEdge | CopyCGEdge | StoreCGEdge | LoadCGEdge | VariantGepCGEdge => rfl

theorem isEdge_number {e : ConstraintEdge} (h : 0 ≤ fieldOf e ∧ fieldOf e < 2 ^ 16) {k : ℕ} (hk : k < 2 ^ 8)
    (src dst : NodeID) :
    IsEdge ⟨src, dst, ofNum (getAttributedKind (numberOf e) k)⟩ src dst k (fieldOf e) := by
  have hnumber := numberOf_eq h
  refine (isEdge_ofNum hk src dst src dst k _).mpr ⟨rfl, rfl, rfl, ?_, ?_⟩
  · omega
  · omega

theorem alias_isBigraph (hn : Names grammar 6) (hg : Registered g) (h : AliasFits grammar g) :
    IsBigraph grammar (aliasBiEdge '' edges g) (aliasBigraph grammar g) := by
  have hforward : ∀ e ∈ edges g, IsEdge (aliasForward e) e.src e.dst e.cls.getEdgeKind.flag (fieldOf e) :=
    fun e he => isEdge_number (h e he).1 (by have := flag_lt e.cls.getEdgeKind; omega) e.src e.dst
  have hbackward : ∀ e ∈ edges g, ∀ k, barOf grammar e.cls.getEdgeKind.flag = some k →
      IsEdge (aliasBackward grammar e) e.dst e.src k (fieldOf e) := by
    intro e he k hk
    rw [aliasBackward, barKind_of_barOf hk]
    exact isEdge_number (h e he).1 (barKind_of_barOf hk ▸ hn.barKind_lt _) e.dst e.src
  refine ⟨?_, ?_, fun x hx => ?_, ?_⟩
  · intro be hbe
    obtain ⟨e, he, rfl⟩ := hbe
    exact ⟨_, (mem_aliasBigraph grammar hg _).mpr ⟨e, he, .inl rfl⟩, hforward e he⟩
  · intro be hbe
    obtain ⟨e, he, rfl⟩ := hbe
    obtain ⟨k, hk⟩ := Option.isSome_iff_exists.mp (h e he).2
    exact ⟨k, hk, _, (mem_aliasBigraph grammar hg _).mpr ⟨e, he, .inr rfl⟩, hbackward e he k hk⟩
  · obtain ⟨e, he, hx⟩ := (mem_aliasBigraph grammar hg x).mp hx
    refine ⟨aliasBiEdge e, ⟨e, he, rfl⟩, ?_⟩
    rcases hx with rfl | rfl
    · exact .inl (hforward e he)
    · obtain ⟨k, hk⟩ := Option.isSome_iff_exists.mp (h e he).2
      exact .inr ⟨k, hk, hbackward e he k hk⟩
  · intro be hbe k hk a
    obtain ⟨e, he, rfl⟩ := hbe
    rw [mem_aliasAttributes grammar hg, mem_aliasAttributes grammar hg]
    refine exists_congr fun e' => and_congr_right fun he' => and_congr_right fun hkind => and_congr_right fun _ => ?_
    obtain ⟨k', hk'⟩ := Option.isSome_iff_exists.mp (h e' he').2
    rw [hkind] at hk'
    have hlarge := hn.bars _ (flag_lt _) k hk
    have hlarge' := hn.bars _ (flag_lt _) k' hk'
    have hflag := flag_lt e.cls.getEdgeKind
    have hgep := flag_lt .NormalGep
    rw [barKind_of_barOf hk']
    change e.cls.getEdgeKind.flag = _ ∨ e.cls.getEdgeKind.flag = k' ↔ k = _ ∨ k = k'
    rw [or_iff_left (by omega), or_iff_right (by omega)]
    constructor
    · intro heq
      have hsame : barOf grammar e.cls.getEdgeKind.flag = some k := hk
      rw [heq, hk'] at hsame
      exact (Option.some.inj hsame).symm
    · rintro rfl
      exact hn.barOf_inj hk hk'

theorem alias_isBigraph_iff (hn : Names grammar 6) (hg : Registered g) :
    IsBigraph grammar (aliasBiEdge '' edges g) (aliasBigraph grammar g) ↔ AliasFits grammar g := by
  constructor
  · rintro ⟨hforward, hbackward, -, -⟩ e he
    have hmem : aliasBiEdge e ∈ aliasBiEdge '' edges g := ⟨e, he, rfl⟩
    obtain ⟨x, -, hx⟩ := hforward _ hmem
    obtain ⟨k, hk, -⟩ := hbackward _ hmem
    have hattr : (x.kind.attr.val : ℤ) = fieldOf e := hx.attr
    have hlt := x.kind.attr.isLt
    exact ⟨by omega, Option.isSome_iff_exists.mpr ⟨k, hk⟩⟩
  · exact alias_isBigraph hn hg

end

section

def labelOf : VFGEdgeK → ℕ
  | .IntraDirectVF | .IntraIndirectVF | .TheadMHPIndirectVF => 0
  | .CallDirVF _ | .CallIndVF _ => 1
  | .RetDirVF _ | .RetIndVF _ => 2

def siteOf : VFGEdgeK → ℕ
  | .IntraDirectVF | .IntraIndirectVF | .TheadMHPIndirectVF => 0
  | .CallDirVF csId | .CallIndVF csId | .RetDirVF csId | .RetIndVF csId => csId

def vfBiEdge (e : VFGEdge) : BiEdge := ⟨e.src, e.dst, labelOf e.kind, siteOf e.kind⟩

def vfForward (e : VFGEdge) : CFLEdge Symbol :=
  ⟨e.src, e.dst, ofNum (getAttributedKind (siteOf e.kind) (labelOf e.kind))⟩

/-- The kind by which the label of the reverse edge is looked up. -/
def lookedUp (kind : VFGEdgeK) : ℕ :=
  if labelOf kind = 0 then kind.flag else getAttributedKind (siteOf kind) (labelOf kind)

def vfBackward (grammar : CFGrammar) (e : VFGEdge) : CFLEdge Symbol :=
  ⟨e.dst, e.src, ofNum (getAttributedKind (siteOf e.kind) (barKind grammar (lookedUp e.kind)))⟩

variable {g : SVFG}

theorem mem_loop (e : VFGEdge) : e ∈ (g.nodes.flatMap fun id => g.edges.filter (·.src = id)) ↔ e ∈ g.edges := by
  simp only [List.mem_flatMap, List.mem_filter, decide_eq_true_iff]
  constructor
  · rintro ⟨-, -, he, -⟩
    exact he
  · intro he
    exact ⟨e.src, g.src e he, he, rfl⟩

theorem mem_vfBigraph (grammar : CFGrammar) (g : SVFG) (x : CFLEdge Symbol) :
    x ∈ (vfBigraph grammar g).graph.cflEdgeSet ↔ ∃ e ∈ g.edges, x = vfForward e ∨ x = vfBackward grammar e := by
  have hround : ∀ e ∈ (g.nodes.flatMap fun id => g.edges.filter (·.src = id)), ∀ b x,
      x ∈ (vfEdge grammar b e).graph.cflEdgeSet ↔
        x ∈ b.graph.cflEdgeSet ∨ (x = vfForward e ∨ x = vfBackward grammar e) := by
    intro e _ b x
    obtain ⟨src, dst, kind⟩ := e
    cases kind with
    | IntraDirectVF | IntraIndirectVF | TheadMHPIndirectVF =>
        simp only [vfEdge, intraEdge, vfForward, vfBackward, lookedUp, labelOf, siteOf, getAttributedKind_zero,
          mem_edges_addCFLEdge, or_assoc, or_self_left, if_true]
    | CallDirVF csId | CallIndVF csId | RetDirVF csId | RetIndVF csId =>
        simp only [vfEdge, interEdge, vfForward, vfBackward, lookedUp, labelOf, siteOf, mem_edges_addCFLEdge,
          graph_addAttribute, or_assoc, OfNat.ofNat_ne_zero, one_ne_zero, if_false]
  rw [vfBigraph, edges_foldl hround]
  simp only [mem_loop]

theorem attrs_vfBigraph (h : ∀ e ∈ g.edges, labelOf e.kind = 0) (k a : ℕ) :
    a ∉ (vfBigraph grammar g).kindToAttrsMap.get k := by
  have hround : ∀ e ∈ (g.nodes.flatMap fun id => g.edges.filter (·.src = id)), ∀ b x,
      x ∈ (vfEdge grammar b e).kindToAttrsMap.get k ↔ x ∈ b.kindToAttrsMap.get k ∨ False := by
    intro e he b x
    have hlabel := h e ((mem_loop e).mp he)
    obtain ⟨src, dst, kind⟩ := e
    cases kind with
    | IntraDirectVF | IntraIndirectVF | TheadMHPIndirectVF => exact (or_iff_left id).symm
    | CallDirVF csId | CallIndVF csId | RetDirVF csId | RetIndVF csId => cases hlabel
  rw [vfBigraph, attrs_foldl hround]
  rintro ⟨e, -, hfalse⟩
  exact hfalse

/-- The grammar of value flows: its first three terminals, and their bars. -/
structure VFNames (grammar : CFGrammar) (abar callbar retbar : ℕ) : Prop extends Names grammar 3 where
  a : kindOf grammar "a" = some 0
  call : kindOf grammar "call" = some 1
  ret : kindOf grammar "ret" = some 2
  abar : kindOf grammar "abar" = some abar
  callbar : kindOf grammar "callbar" = some callbar
  retbar : kindOf grammar "retbar" = some retbar

def CallSites (g : SVFG) : Prop := ∀ e ∈ g.edges, labelOf e.kind ≠ 0 → 1 ≤ siteOf e.kind

/-- No edge goes through a call site or memory; where threads interfere, the edge's reverse is
taken for an edge of the other direction, which is there, and its own reverse comes from a direct edge. -/
def VFFits (grammar : CFGrammar) (g : SVFG) : Prop :=
  ∀ e ∈ g.edges, e.kind = .IntraDirectVF ∨ e.kind = .TheadMHPIndirectVF ∧
    barKind grammar VFGEdgeK.TheadMHPIndirectVF.flag = 0 ∧ ⟨e.src, e.dst, .IntraDirectVF⟩ ∈ g.edges ∧
      ∃ e' ∈ g.edges, labelOf e'.kind = 0 ∧ e'.src = e.dst ∧ e'.dst = e.src

variable {abar callbar retbar : ℕ}

theorem labelOf_lt (kind : VFGEdgeK) : labelOf kind < 3 := by cases kind <;> simp [labelOf]

theorem Names.eq_of_kindOf {n : ℕ} (h : Names grammar n) {label label' : String} {k : ℕ}
    (hk : kindOf grammar label = some k) (hk' : kindOf grammar label' = some k) : label = label' :=
  Option.some.inj (((h.inverse _ _).mp hk).symm.trans ((h.inverse _ _).mp hk'))

namespace VFNames

theorem barOf_zero (h : VFNames grammar abar callbar retbar) : barOf grammar 0 = some abar := by
  rw [barOf, (h.inverse _ _).mp h.a]
  exact h.abar

theorem barOf_one (h : VFNames grammar abar callbar retbar) : barOf grammar 1 = some callbar := by
  rw [barOf, (h.inverse _ _).mp h.call]
  exact h.callbar

theorem barKind_ne (h : VFNames grammar abar callbar retbar) {kind kind' k : ℕ} (hkind : kind < 3)
    (hk : barOf grammar kind = some k) (hne : kind' ≠ kind) : barKind grammar kind' ≠ k := by
  have hlarge := h.bars kind hkind k hk
  intro heq
  obtain ⟨label, hlabel, hbar⟩ := Option.bind_eq_some_iff.mp hk
  rw [barKind_eq] at heq
  cases hk' : kindOf grammar ((nameOf grammar kind').getD "" ++ "bar") with
  | none =>
      rw [hk'] at heq
      change 0 = k at heq
      omega
  | some k' =>
      rw [hk'] at heq
      change k' = k at heq
      subst heq
      have hsame := (String.append_left_inj "bar").mp (h.eq_of_kindOf hk' hbar)
      cases hname : nameOf grammar kind' with
      | some label' =>
          rw [hname] at hsame
          change label' = label at hsame
          subst hsame
          exact hne (Option.some.inj (((h.inverse _ _).mpr hname).symm.trans ((h.inverse _ _).mpr hlabel)))
      | none =>
          rw [hname] at hsame
          change "" = label at hsame
          subst hsame
          have hempty := (h.inverse _ _).mpr hlabel
          have hcases : kind = 0 ∨ kind = 1 ∨ kind = 2 := by omega
          rcases hcases with rfl | rfl | rfl
          · exact absurd (h.eq_of_kindOf hempty h.a) (by decide)
          · exact absurd (h.eq_of_kindOf hempty h.call) (by decide)
          · exact absurd (h.eq_of_kindOf hempty h.ret) (by decide)

end VFNames

theorem siteOf_eq_zero {kind : VFGEdgeK} (h : labelOf kind = 0) : siteOf kind = 0 := by
  cases kind <;> first | rfl | cases h

theorem isEdge_vfForward (e : VFGEdge) (src dst k : ℕ) (i : ℤ) : IsEdge (vfForward e) src dst k i ↔
    e.src = src ∧ e.dst = dst ∧ labelOf e.kind = k ∧ ((siteOf e.kind % 2 ^ 16 : ℕ) : ℤ) = i ∧
      siteOf e.kind / 2 ^ 16 % 2 ^ 8 = 0 :=
  isEdge_ofNum (by have := labelOf_lt e.kind; omega) src dst e.src e.dst k i

theorem isEdge_vfBackward {n : ℕ} (hn : Names grammar n) (e : VFGEdge) (src dst k : ℕ) (i : ℤ) :
    IsEdge (vfBackward grammar e) src dst k i ↔
      e.dst = src ∧ e.src = dst ∧ barKind grammar (lookedUp e.kind) = k ∧
        ((siteOf e.kind % 2 ^ 16 : ℕ) : ℤ) = i ∧ siteOf e.kind / 2 ^ 16 % 2 ^ 8 = 0 :=
  isEdge_ofNum (hn.barKind_lt _) src dst e.dst e.src k i

/-- The reverse edge is the right one for direct edges within a procedure only. -/
theorem lookedUp_eq {kind kind' : VFGEdgeK} (hsite : labelOf kind ≠ 0 → siteOf kind % 2 ^ 24 ≠ 0)
    (h : lookedUp kind = labelOf kind') : kind = .IntraDirectVF ∨ kind = .IntraIndirectVF ∧ labelOf kind' = 1 := by
  have hlt := labelOf_lt kind'
  by_cases hlabel : labelOf kind = 0
  · rw [lookedUp, if_pos hlabel] at h
    cases kind with
    | IntraDirectVF => exact .inl rfl
    | IntraIndirectVF => exact .inr ⟨rfl, h.symm⟩
    | TheadMHPIndirectVF =>
        change 6 = labelOf kind' at h
        omega
    | CallDirVF | CallIndVF | RetDirVF | RetIndVF => cases hlabel
  · have hsmall := labelOf_lt kind
    have hne := hsite hlabel
    rw [lookedUp, if_neg hlabel, getAttributedKind_eq _ (by omega)] at h
    omega

theorem labelOf_eq_zero (hn : VFNames grammar abar callbar retbar) (hs : CallSites g)
    (h : IsBigraph grammar (vfBiEdge '' {e | e ∈ g.edges}) (vfBigraph grammar g)) {e : VFGEdge} (he : e ∈ g.edges) :
    labelOf e.kind = 0 := by
  by_contra hlabel
  have hsite := hs e he hlabel
  obtain ⟨k, hk, x, hx, hedge⟩ := h.backward _ ⟨e, he, rfl⟩
  have hk' : barOf grammar (labelOf e.kind) = some k := hk
  have hlarge := hn.bars _ (labelOf_lt _) k hk'
  obtain ⟨e', he', rfl | rfl⟩ := (mem_vfBigraph grammar g x).mp hx
  · obtain ⟨-, -, hkind, -, -⟩ := (isEdge_vfForward _ _ _ _ _).mp hedge
    have hsmall := labelOf_lt e'.kind
    omega
  · obtain ⟨-, -, hkind, hattr, hplain⟩ := (isEdge_vfBackward hn.toNames _ _ _ _ _).mp hedge
    change ((siteOf e'.kind % 2 ^ 16 : ℕ) : ℤ) = (siteOf e.kind : ℤ) at hattr
    have hpos : siteOf e'.kind % 2 ^ 24 ≠ 0 := by omega
    by_cases hsame : lookedUp e'.kind = labelOf e.kind
    · rcases lookedUp_eq (fun _ => hpos) hsame with heq | ⟨heq, -⟩
      · rw [heq] at hpos
        exact hpos rfl
      · rw [heq] at hpos
        exact hpos rfl
    · exact hn.barKind_ne (labelOf_lt _) hk' hsame hkind

theorem vf_isBigraph_iff (hn : VFNames grammar abar callbar retbar) (hs : CallSites g) :
    IsBigraph grammar (vfBiEdge '' {e | e ∈ g.edges}) (vfBigraph grammar g) ↔ VFFits grammar g := by
  constructor
  · intro h e he
    have hlabels : ∀ e ∈ g.edges, labelOf e.kind = 0 := fun e he => labelOf_eq_zero hn hs h he
    obtain ⟨be, ⟨e', he', rfl⟩, hx⟩ := h.only _ ((mem_vfBigraph grammar g _).mpr ⟨e, he, .inr rfl⟩)
    obtain ⟨k, hk, x, hx', hedge⟩ := h.backward _ ⟨e, he, rfl⟩
    have hbar : barOf grammar 0 = some k := by
      rw [← hlabels e he]
      exact hk
    rw [hn.barOf_zero, Option.some.injEq] at hbar
    subst hbar
    have hsound : e.kind = .IntraDirectVF ∨ e.kind = .TheadMHPIndirectVF ∧
        barKind grammar VFGEdgeK.TheadMHPIndirectVF.flag = 0 ∧ e'.src = e.dst ∧ e'.dst = e.src := by
      rcases hx with hx | ⟨k', hk', hx⟩
      · obtain ⟨hsrc, hdst, hkind, -, -⟩ := (isEdge_vfBackward hn.toNames _ _ _ _ _).mp hx
        change barKind grammar (lookedUp e.kind) = labelOf e'.kind at hkind
        rw [hlabels e' he'] at hkind
        cases hkinds : e.kind with
        | IntraDirectVF => exact .inl rfl
        | IntraIndirectVF =>
            rw [hkinds] at hkind
            change barKind grammar 1 = 0 at hkind
            rw [barKind_of_barOf hn.barOf_one] at hkind
            have hlarge := hn.bars 1 (by decide) _ hn.barOf_one
            omega
        | TheadMHPIndirectVF =>
            rw [hkinds] at hkind
            exact .inr ⟨rfl, hkind, hsrc.symm, hdst.symm⟩
        | CallDirVF | CallIndVF | RetDirVF | RetIndVF =>
            have hzero := hlabels e he
            rw [hkinds] at hzero
            cases hzero
      · obtain ⟨-, -, hkind, -, -⟩ := (isEdge_vfBackward hn.toNames _ _ _ _ _).mp hx
        have hbar' : barOf grammar (labelOf e'.kind) = some k' := hk'
        left
        by_contra hne
        refine hn.barKind_ne (labelOf_lt _) hbar' (fun hsame => ?_) hkind
        rcases lookedUp_eq (fun hlabel => absurd (hlabels e he) hlabel) hsame with heq | ⟨-, hone⟩
        · exact hne heq
        · rw [hlabels e' he'] at hone
          contradiction
    refine hsound.imp_right fun ⟨hkind, hbar0, hsrc, hdst⟩ => ⟨hkind, hbar0, ?_, e', he', hlabels e' he', hsrc, hdst⟩
    obtain ⟨e'', he'', rfl | rfl⟩ := (mem_vfBigraph grammar g x).mp hx'
    · obtain ⟨-, -, hkind'', -, -⟩ := (isEdge_vfForward _ _ _ _ _).mp hedge
      have hlarge := hn.bars 0 (by decide) _ hn.barOf_zero
      have hsmall := labelOf_lt e''.kind
      omega
    · obtain ⟨hsrc'', hdst'', hkind'', -, -⟩ := (isEdge_vfBackward hn.toNames _ _ _ _ _).mp hedge
      have hlooked : lookedUp e''.kind = labelOf .IntraDirectVF := by
        by_contra hne
        exact hn.barKind_ne (by decide) hn.barOf_zero hne hkind''
      rcases lookedUp_eq (fun hlabel => absurd (hlabels e'' he'') hlabel) hlooked with heq | ⟨-, hone⟩
      · obtain ⟨src, dst, kind⟩ := e''
        dsimp only at hsrc'' hdst'' heq
        subst hsrc'' hdst'' heq
        exact he''
      · cases hone
  · intro h
    have hlabels : ∀ e ∈ g.edges, labelOf e.kind = 0 := by
      intro e he
      rcases h e he with heq | ⟨heq, -⟩
      · rw [heq]
        rfl
      · rw [heq]
        rfl
    have hforward : ∀ e ∈ g.edges, IsEdge (vfForward e) e.src e.dst (labelOf e.kind) (siteOf e.kind) := by
      intro e he
      rw [isEdge_vfForward, siteOf_eq_zero (hlabels e he)]
      exact ⟨rfl, rfl, rfl, rfl, rfl⟩
    have hdirect : ∀ e ∈ g.edges, e.kind = .IntraDirectVF →
        IsEdge (vfBackward grammar e) e.dst e.src abar (siteOf e.kind) := by
      intro e he heq
      rw [isEdge_vfBackward hn.toNames, heq]
      exact ⟨rfl, rfl, barKind_of_barOf hn.barOf_zero, rfl, rfl⟩
    have hbar : ∀ e ∈ g.edges, barOf grammar (labelOf e.kind) = some abar := fun e he =>
      hlabels e he ▸ hn.barOf_zero
    refine ⟨?_, ?_, fun x hx => ?_, ?_⟩
    · rintro be ⟨e, he, rfl⟩
      exact ⟨_, (mem_vfBigraph grammar g _).mpr ⟨e, he, .inl rfl⟩, hforward e he⟩
    · rintro be ⟨e, he, rfl⟩
      refine ⟨abar, hbar e he, ?_⟩
      rcases h e he with heq | ⟨heq, -, hdir, -⟩
      · exact ⟨_, (mem_vfBigraph grammar g _).mpr ⟨e, he, .inr rfl⟩, hdirect e he heq⟩
      · refine ⟨_, (mem_vfBigraph grammar g _).mpr ⟨_, hdir, .inr rfl⟩, ?_⟩
        have hedge := hdirect _ hdir rfl
        rw [vfBiEdge, heq]
        exact hedge
    · obtain ⟨e, he, rfl | rfl⟩ := (mem_vfBigraph grammar g x).mp hx
      · exact ⟨_, ⟨e, he, rfl⟩, .inl (hforward e he)⟩
      · rcases h e he with heq | ⟨heq, hzero, -, e', he', hlabel, hsrc, hdst⟩
        · exact ⟨_, ⟨e, he, rfl⟩, .inr ⟨abar, hbar e he, hdirect e he heq⟩⟩
        · refine ⟨_, ⟨e', he', rfl⟩, .inl ?_⟩
          rw [isEdge_vfBackward hn.toNames, vfBiEdge, hlabel, siteOf_eq_zero hlabel, heq]
          exact ⟨hsrc.symm, hdst.symm, hzero, rfl, rfl⟩
    · rintro be ⟨e, he, rfl⟩ k - a
      exact iff_of_false (attrs_vfBigraph hlabels _ a) (attrs_vfBigraph hlabels _ a)

end

theorem lookup_eq_some_iff_mem {l : List (String × ℕ)} (h : (l.map Prod.fst).Nodup) (label : String) (kind : ℕ) :
    l.lookup label = some kind ↔ (label, kind) ∈ l := by
  rw [List.lookup_eq_some_iff]
  constructor
  · rintro ⟨l₁, l₂, rfl, -⟩
    simp
  · intro hmem
    obtain ⟨l₁, l₂, rfl⟩ := List.append_of_mem hmem
    refine ⟨l₁, l₂, rfl, fun p hp => ?_⟩
    rw [List.map_append, List.nodup_append] at h
    exact bne_iff_ne.mpr fun heq => h.2.2 p.1 (List.mem_map_of_mem hp) label List.mem_cons_self heq.symm

theorem find_eq_some_iff_mem {l : List (String × ℕ)} (h : (l.map Prod.snd).Nodup) (label : String) (kind : ℕ) :
    (l.find? fun p => decide (p.2 = kind)).map Prod.fst = some label ↔ (label, kind) ∈ l := by
  rw [Option.map_eq_some_iff]
  constructor
  · rintro ⟨⟨label', kind'⟩, hfind, rfl⟩
    have hsat := List.find?_some hfind
    obtain rfl : kind' = kind := of_decide_eq_true hsat
    exact List.mem_of_find?_eq_some hfind
  · intro hmem
    have hsome : (l.find? fun p => decide (p.2 = kind)).isSome = true :=
      List.find?_isSome.mpr ⟨_, hmem, decide_eq_true rfl⟩
    obtain ⟨⟨label', kind'⟩, hfind⟩ := Option.isSome_iff_exists.mp hsome
    have hsat := List.find?_some hfind
    obtain rfl : kind' = kind := of_decide_eq_true hsat
    have hsame := List.inj_on_of_nodup_map h (List.mem_of_find?_eq_some hfind) hmem rfl
    exact ⟨_, hfind, congrArg Prod.fst hsame⟩

theorem names_of_nodup {n : ℕ} (hlabels : ((grammar.terminals ++ grammar.nonterminals).map Prod.fst).Nodup)
    (hkinds : ((grammar.terminals ++ grammar.nonterminals).map Prod.snd).Nodup)
    (hsmall : ∀ p ∈ grammar.terminals ++ grammar.nonterminals, p.2 < 2 ^ 8)
    (hbars : ∀ kind < n, ∀ k ∈ barOf grammar kind, n ≤ k) : Names grammar n := by
  have hkind : ∀ label kind, kindOf grammar label = some kind ↔
      (label, kind) ∈ grammar.terminals ++ grammar.nonterminals := by
    intro label kind
    rw [kindOf, ← List.lookup_append, lookup_eq_some_iff_mem hlabels]
  have hname : ∀ label kind, nameOf grammar kind = some label ↔
      (label, kind) ∈ grammar.terminals ++ grammar.nonterminals := by
    intro label kind
    rw [nameOf, ← List.find?_append, find_eq_some_iff_mem hkinds]
  exact ⟨fun label kind => (hkind label kind).trans (hname label kind).symm,
    fun label kind h => hsmall _ ((hkind label kind).mp h), hbars⟩

def pagGrammar : CFGrammar :=
  ⟨[("addr", 0), ("copy", 1), ("store", 2), ("load", 3), ("gep", 4), ("vgep", 5), ("addrbar", 8),
    ("copybar", 9), ("storebar", 10), ("loadbar", 11), ("gepbar", 12), ("vgepbar", 13)], [("V", 6), ("F", 7)],
    [], 14, .empty, 0⟩

def vfgGrammar : CFGrammar :=
  ⟨[("a", 0), ("call", 1), ("ret", 2), ("epsilon", 4), ("abar", 7), ("retbar", 8), ("callbar", 9)],
    [("A", 3), ("Abar", 6)], [("|", 5)], 10, .empty, 0⟩

theorem names_pagGrammar : Names pagGrammar 6 := by
  apply names_of_nodup
  · decide
  · decide
  · decide
  · decide +kernel

theorem vfNames_vfgGrammar : VFNames vfgGrammar 7 9 8 where
  toNames := by
    apply names_of_nodup
    · decide
    · decide
    · decide
    · decide +kernel
  a := by decide
  call := by decide
  ret := by decide
  abar := by decide
  callbar := by decide
  retbar := by decide

theorem bigraphs_iff {pag vfg : CFGrammar} {abar callbar retbar : ℕ} {g : ConstraintGraph} {svfg : SVFG}
    (hpag : Names pag 6) (hvfg : VFNames vfg abar callbar retbar) (hg : Graphs.ReachableGraphs.Reachable g)
    (hs : CallSites svfg) :
    (IsBigraph pag (aliasBiEdge '' edges g) (aliasBigraph pag g) ↔ AliasFits pag g) ∧
      (IsBigraph vfg (vfBiEdge '' {e | e ∈ svfg.edges}) (vfBigraph vfg svfg) ↔ VFFits vfg svfg) :=
  ⟨alias_isBigraph_iff hpag hg.wellFormed.registered, vf_isBigraph_iff hvfg hs⟩

def directEdge : SVFG := ⟨[1, 2], [⟨1, 2, .IntraDirectVF⟩], by decide⟩

theorem bigraphs_iff_sample :
    (IsBigraph pagGrammar (aliasBiEdge '' edges Graphs.MergeExact.sample)
        (aliasBigraph pagGrammar Graphs.MergeExact.sample) ↔ AliasFits pagGrammar Graphs.MergeExact.sample) ∧
      (IsBigraph vfgGrammar (vfBiEdge '' {e | e ∈ directEdge.edges}) (vfBigraph vfgGrammar directEdge) ↔
        VFFits vfgGrammar directEdge) := by
  apply bigraphs_iff names_pagGrammar vfNames_vfgGrammar Graphs.MergeExact.reachable_sample
  intro e he hlabel
  obtain rfl := List.mem_singleton.mp he
  exact absurd rfl hlabel

def callEdge : SVFG := ⟨[1, 2], [⟨1, 2, .CallDirVF 1⟩], by decide⟩

/-- The reverse of the edge of call site 1 is labelled `a_1`. -/
theorem call_not_reversed :
    ¬ IsBigraph vfgGrammar (vfBiEdge '' {e | e ∈ callEdge.edges}) (vfBigraph vfgGrammar callEdge) := by
  rintro ⟨-, hbackward, -, -⟩
  obtain ⟨k, hk, x, hx, hedge⟩ := hbackward _ ⟨⟨1, 2, .CallDirVF 1⟩, List.mem_singleton_self _, rfl⟩
  have hbar : barOf vfgGrammar 1 = some 9 := by decide +kernel
  obtain rfl : 9 = k := Option.some.inj (hbar.symm.trans hk)
  have hnone : ∀ x ∈ (vfBigraph vfgGrammar callEdge).graph.cflEdgeSet, x.kind.kind.val ≠ 9 := by decide +kernel
  exact hnone x hx hedge.kind

end SVF.CFL.Bigraphs
