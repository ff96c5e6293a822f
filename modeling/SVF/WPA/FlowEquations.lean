import SVF.Graphs.ValueFlowGraph
import SVF.MemoryModel.LawfulPTData

namespace SVF.WPA.FlowEquations

open Graphs.ConsG Graphs.ValueFlowGraph MemoryModel.LawfulPTData

structure Objects (O : Type) where
  object : NodeID → O
  addr : NodeID → O
  gep : Option APOffset → O → O → Prop
  constant : O → Prop
  /-- The object, and its fields if it is field-insensitive. -/
  parts : O → Set O
  updatable : O → Prop

variable {O P : Type}

def StrongUpdate (ob : Objects O) (F : Set (FactOf O)) (dst : NodeID) (v : O) : Prop :=
  ob.updatable v ∧ ∀ o, .pts dst o ∈ F → o = v

def NodeClosed (ob : Objects O) (node : SVFGNode) (n : NodeID) (F F' : Set (FactOf O)) : Prop :=
  match node with
  | .addr dst src => .pts dst (ob.addr src) ∈ F'
  | .copy dst src => ∀ o, .pts src o ∈ F → .pts dst o ∈ F'
  | .gep dst src idx => ∀ o, .pts src o ∈ F → ∃ o', ob.gep idx o o' ∧ .pts dst o' ∈ F'
  | .load dst src => ∀ o, .pts src o ∈ F → ¬ ob.constant o → ∀ v ∈ ob.parts o, ∀ x,
      .dfIn n v x ∈ F → .pts dst x ∈ F'
  | .store dst src =>
      (∀ o, .pts dst o ∈ F → ¬ ob.constant o → ∀ x, .pts src x ∈ F → .dfOut n o x ∈ F') ∧
      ((∃ o, .pts dst o ∈ F) → ∀ v, ¬ StrongUpdate ob F dst v → ∀ x, .dfIn n v x ∈ F →
        .dfOut n v x ∈ F')
  | .phi res opVers => ∀ v ∈ opVers, ∀ o, .pts v o ∈ F → .pts res o ∈ F'
  | _ => True

/-- What flows along an indirect edge: the OUT set of a store, the IN set of another node. -/
def sourceFact (node : SVFGNode) (n : NodeID) (v x : O) : FactOf O :=
  if node.isStore then .dfOut n v x else .dfIn n v x

def EdgeClosed (ob : Objects O) (node : NodeID → SVFGNode) (e : SVFGEdge) (F F' : Set (FactOf O)) :
    Prop :=
  match e.kind with
  | .direct =>
      match node e.src, node e.dst with
      | .actualParm ap, .formalParm fp => ∀ o, .pts ap o ∈ F → .pts fp o ∈ F'
      | .formalRet fr, .actualRet ar => ∀ o, .pts fr o ∈ F → .pts ar o ∈ F'
      | _, _ => True
  | .indirect pts => ∀ c ∈ pts, ∀ v ∈ ob.parts (ob.object c), ∀ x,
      sourceFact (node e.src) e.src v x ∈ F → .dfIn e.dst v x ∈ F'

structure Satisfies (ob : Objects O) (svfg : SVFG) (F : Set (FactOf O)) : Prop where
  node : ∀ n ∈ svfg.nodes, NodeClosed ob (svfg.node n) n F F
  edge : ∀ e ∈ svfg.edges, EdgeClosed ob svfg.node e F F

def Reads (node : SVFGNode) (n : NodeID) : FactOf O → Prop
  | .pts v _ => v ∈ node.uses
  | .dfIn l _ _ => l = n
  | .dfOut _ _ _ => False

def EdgeReads (node : SVFGNode) (n : NodeID) : FactOf O → Prop
  | .pts v _ => v ∈ node.uses ∧ node.isStore = false
  | .dfIn l _ _ => l = n ∧ node.isStore = false
  | .dfOut l _ _ => l = n ∧ node.isStore = true

theorem EdgeReads.reads {node : SVFGNode} {n : NodeID} {f : FactOf O} (h : EdgeReads node n f)
    (hstore : node.isStore = false) : Reads node n f := by
  cases f with
  | pts v x => exact h.1
  | dfIn l v x => exact h.1
  | dfOut l v x => simp [EdgeReads, hstore] at h

theorem EdgeReads.store {node : SVFGNode} {n : NodeID} {f : FactOf O} (h : EdgeReads node n f)
    (hstore : node.isStore = true) : ∃ v x, f = .dfOut n v x := by
  cases f with
  | pts v x => simp [EdgeReads, hstore] at h
  | dfIn l v x => simp [EdgeReads, hstore] at h
  | dfOut l v x =>
      obtain ⟨rfl, -⟩ := h
      exact ⟨v, x, rfl⟩

/-- Only actual parameters and formal returns have direct edges with an equation. -/
theorem edgeClosed_direct {ob : Objects O} {node : NodeID → SVFGNode} {e : SVFGEdge}
    (hkind : e.kind = .direct) (hparm : ∀ p, node e.src ≠ .actualParm p)
    (hret : ∀ p, node e.src ≠ .formalRet p) (F F' : Set (FactOf O)) : EdgeClosed ob node e F F' := by
  rw [EdgeClosed, hkind]
  simp only
  split
  · rename_i hsrc _
    exact absurd hsrc (hparm _)
  · rename_i hsrc _
    exact absurd hsrc (hret _)
  · trivial

section

variable {ob : Objects O} {node : SVFGNode} {n : NodeID} {F G F' G' : Set (FactOf O)}

theorem NodeClosed.mono (h : NodeClosed ob node n F F')
    (hinput : ∀ f ∈ G, Reads node n f → f ∈ F) (hgrow : F' ⊆ G') : NodeClosed ob node n G G' := by
  cases node with
  | addr dst src => exact hgrow h
  | copy dst src => exact fun o ho => hgrow (h o (hinput _ ho (List.mem_singleton.mpr rfl)))
  | gep dst src idx =>
      intro o ho
      obtain ⟨o', hgep, ho'⟩ := h o (hinput _ ho (List.mem_singleton.mpr rfl))
      exact ⟨o', hgep, hgrow ho'⟩
  | load dst src =>
      exact fun o ho hc v hv x hx =>
        hgrow (h o (hinput _ ho (List.mem_singleton.mpr rfl)) hc v hv x (hinput _ hx rfl))
  | store dst src =>
      have hdst : ∀ o, .pts dst o ∈ G → .pts dst o ∈ F :=
        fun o ho => hinput _ ho List.mem_cons_self
      have hsrc : ∀ o, .pts src o ∈ G → .pts src o ∈ F :=
        fun o ho => hinput _ ho (List.mem_cons_of_mem _ (List.mem_singleton.mpr rfl))
      refine ⟨fun o ho hc x hx => hgrow (h.1 o (hdst o ho) hc x (hsrc x hx)), ?_⟩
      rintro ⟨o, ho⟩ v hweak x hx
      refine hgrow (h.2 ⟨o, hdst o ho⟩ v (fun hstrong => hweak ?_) x (hinput _ hx rfl))
      exact ⟨hstrong.1, fun o ho => hstrong.2 o (hdst o ho)⟩
  | phi res opVers => exact fun v hv o ho => hgrow (h v hv o (hinput _ ho hv))
  | _ => trivial

theorem EdgeClosed.mono {node : NodeID → SVFGNode} {e : SVFGEdge} (h : EdgeClosed ob node e F F')
    (hinput : ∀ f ∈ G, EdgeReads (node e.src) e.src f → f ∈ F) (hgrow : F' ⊆ G') :
    EdgeClosed ob node e G G' := by
  rw [EdgeClosed] at h ⊢
  cases hkind : e.kind with
  | direct =>
      rw [hkind] at h
      simp only at h ⊢
      split at h
      · rename_i ap fp hsrc hdst
        rw [hsrc] at hinput
        exact fun o ho => hgrow (h o (hinput _ ho ⟨List.mem_singleton.mpr rfl, rfl⟩))
      · rename_i fr ar hsrc hdst
        rw [hsrc] at hinput
        exact fun o ho => hgrow (h o (hinput _ ho ⟨List.mem_singleton.mpr rfl, rfl⟩))
      · trivial
  | indirect pts =>
      rw [hkind] at h
      intro c hc v hv x hx
      refine hgrow (h c hc v hv x (hinput _ hx ?_))
      rw [sourceFact]
      split
      · rename_i hstore
        exact ⟨rfl, hstore⟩
      · rename_i hstore
        exact ⟨rfl, by simpa using hstore⟩

end

def FactOver (dom : Set O) : FactOf O → Prop
  | .pts _ o => o ∈ dom
  | .dfIn _ v x => v ∈ dom ∧ x ∈ dom
  | .dfOut _ v x => v ∈ dom ∧ x ∈ dom

def mapFact (f : O → P) : FactOf O → FactOf P
  | .pts p o => .pts p (f o)
  | .dfIn l v x => .dfIn l (f v) (f x)
  | .dfOut l v x => .dfOut l (f v) (f x)

structure Renaming (f : O → P) (ob : Objects O) (ob' : Objects P) (svfg : SVFG) (dom : Set O) :
    Prop where
  inj : ∀ x ∈ dom, ∀ y ∈ dom, f x = f y → x = y
  label : ∀ e ∈ svfg.edges, ∀ pts, e.kind = .indirect pts → ∀ c ∈ pts,
    ob.object c ∈ dom ∧ f (ob.object c) = ob'.object c
  addr : ∀ n ∈ svfg.nodes, ∀ dst src, svfg.node n = .addr dst src → f (ob.addr src) = ob'.addr src
  gep : ∀ idx, ∀ o ∈ dom, ∀ o', ob.gep idx o o' → ob'.gep idx (f o) (f o')
  constant : ∀ o ∈ dom, ob'.constant (f o) ↔ ob.constant o
  parts : ∀ o ∈ dom, ob.parts o ⊆ dom ∧ ob'.parts (f o) = f '' ob.parts o
  updatable : ∀ o ∈ dom, ob'.updatable (f o) ↔ ob.updatable o

theorem mapFact_id (F : Set (FactOf O)) : mapFact id '' F = F := by
  have hid : ∀ g : FactOf O, mapFact id g = g := by
    intro g
    cases g <;> rfl
  simp only [Set.image, hid, exists_eq_right]
  rfl

section

variable {f : O → P} {ob : Objects O} {ob' : Objects P} {svfg : SVFG} {dom : Set O}
  {F : Set (FactOf O)}

theorem pts_mem_map {v : NodeID} {p : P} :
    .pts v p ∈ mapFact f '' F ↔ ∃ o, f o = p ∧ .pts v o ∈ F := by
  constructor
  · rintro ⟨g, hg, heq⟩
    cases g with
    | pts w o =>
        cases heq
        exact ⟨o, rfl, hg⟩
    | dfIn _ _ _ => cases heq
    | dfOut _ _ _ => cases heq
  · rintro ⟨o, rfl, ho⟩
    exact ⟨_, ho, rfl⟩

theorem dfIn_mem_map {l : NodeID} {v x : P} :
    .dfIn l v x ∈ mapFact f '' F ↔ ∃ w y, f w = v ∧ f y = x ∧ .dfIn l w y ∈ F := by
  constructor
  · rintro ⟨g, hg, heq⟩
    cases g with
    | dfIn k w y =>
        cases heq
        exact ⟨w, y, rfl, rfl, hg⟩
    | pts _ _ => cases heq
    | dfOut _ _ _ => cases heq
  · rintro ⟨w, y, rfl, rfl, h⟩
    exact ⟨_, h, rfl⟩

theorem sourceFact_mem_map {node : SVFGNode} {l : NodeID} {v x : P} :
    sourceFact node l v x ∈ mapFact f '' F ↔
      ∃ w y, f w = v ∧ f y = x ∧ sourceFact node l w y ∈ F := by
  simp only [sourceFact]
  split
  · constructor
    · rintro ⟨g, hg, heq⟩
      cases g with
      | dfOut k w y =>
          cases heq
          exact ⟨w, y, rfl, rfl, hg⟩
      | pts _ _ => cases heq
      | dfIn _ _ _ => cases heq
    · rintro ⟨w, y, rfl, rfl, h⟩
      exact ⟨_, h, rfl⟩
  · exact dfIn_mem_map

variable (hren : Renaming f ob ob' svfg dom) (hdom : ∀ g ∈ F, FactOver dom g)

include hren hdom

theorem NodeClosed.map {n : NodeID} (hn : n ∈ svfg.nodes)
    (h : NodeClosed ob (svfg.node n) n F F) :
    NodeClosed ob' (svfg.node n) n (mapFact f '' F) (mapFact f '' F) := by
  have haddr := hren.addr n hn
  cases hnode : svfg.node n with
  | addr dst src =>
      rw [hnode] at h
      exact pts_mem_map.mpr ⟨_, haddr dst src hnode, h⟩
  | copy dst src =>
      rw [hnode] at h
      intro p hp
      obtain ⟨o, rfl, ho⟩ := pts_mem_map.mp hp
      exact pts_mem_map.mpr ⟨o, rfl, h o ho⟩
  | gep dst src idx =>
      rw [hnode] at h
      intro p hp
      obtain ⟨o, rfl, ho⟩ := pts_mem_map.mp hp
      obtain ⟨o', hgep, ho'⟩ := h o ho
      exact ⟨f o', hren.gep idx o (hdom _ ho) o' hgep, pts_mem_map.mpr ⟨o', rfl, ho'⟩⟩
  | load dst src =>
      rw [hnode] at h
      intro p hp hc v hv x hx
      obtain ⟨o, rfl, ho⟩ := pts_mem_map.mp hp
      obtain ⟨hpdom, hparts⟩ := hren.parts o (hdom _ ho)
      rw [hparts] at hv
      obtain ⟨w, hw, rfl⟩ := hv
      obtain ⟨w', y, hww, rfl, hy⟩ := dfIn_mem_map.mp hx
      have heq := hren.inj w' (hdom _ hy).1 w (hpdom hw) hww
      rw [heq] at hy
      rw [hren.constant o (hdom _ ho)] at hc
      exact pts_mem_map.mpr ⟨y, rfl, h o ho hc w hw y hy⟩
  | store dst src =>
      rw [hnode] at h
      constructor
      · intro p hp hc x hx
        obtain ⟨o, rfl, ho⟩ := pts_mem_map.mp hp
        obtain ⟨y, rfl, hy⟩ := pts_mem_map.mp hx
        rw [hren.constant o (hdom _ ho)] at hc
        exact ⟨_, h.1 o ho hc y hy, rfl⟩
      · rintro ⟨p, hp⟩ v hweak x hx
        obtain ⟨o, -, ho⟩ := pts_mem_map.mp hp
        obtain ⟨w, y, rfl, rfl, hy⟩ := dfIn_mem_map.mp hx
        refine ⟨_, h.2 ⟨o, ho⟩ w (fun hstrong => hweak ⟨?_, fun p hp => ?_⟩) y hy, rfl⟩
        · exact (hren.updatable w (hdom _ hy).1).mpr hstrong.1
        · obtain ⟨o', rfl, ho'⟩ := pts_mem_map.mp hp
          rw [hstrong.2 o' ho']
  | phi res opVers =>
      rw [hnode] at h
      intro v hv p hp
      obtain ⟨o, rfl, ho⟩ := pts_mem_map.mp hp
      exact pts_mem_map.mpr ⟨o, rfl, h v hv o ho⟩
  | _ => trivial

theorem EdgeClosed.map {e : SVFGEdge} (he : e ∈ svfg.edges) (h : EdgeClosed ob svfg.node e F F) :
    EdgeClosed ob' svfg.node e (mapFact f '' F) (mapFact f '' F) := by
  have hlabel := hren.label e he
  rw [EdgeClosed] at h ⊢
  cases hkind : e.kind with
  | direct =>
      rw [hkind] at h
      simp only at h ⊢
      split at h
      · intro p hp
        obtain ⟨o, rfl, ho⟩ := pts_mem_map.mp hp
        exact pts_mem_map.mpr ⟨o, rfl, h o ho⟩
      · intro p hp
        obtain ⟨o, rfl, ho⟩ := pts_mem_map.mp hp
        exact pts_mem_map.mpr ⟨o, rfl, h o ho⟩
      · trivial
  | indirect pts =>
      rw [hkind] at h
      intro c hc v hv x hx
      obtain ⟨hobj, hname⟩ := hlabel pts hkind c hc
      obtain ⟨hpdom, hparts⟩ := hren.parts _ hobj
      rw [← hname, hparts] at hv
      obtain ⟨w, hw, rfl⟩ := hv
      obtain ⟨w', y, hww, rfl, hy⟩ := sourceFact_mem_map.mp hx
      have hw' : w' ∈ dom := by
        have hover := hdom _ hy
        rw [sourceFact] at hover
        split at hover
        · exact hover.1
        · exact hover.1
      rw [hren.inj w' hw' w (hpdom hw) hww] at hy
      exact dfIn_mem_map.mpr ⟨w, y, rfl, rfl, h c hc w hw y hy⟩

theorem Satisfies.map (h : Satisfies ob svfg F) : Satisfies ob' svfg (mapFact f '' F) :=
  ⟨fun n hn => NodeClosed.map hren hdom hn (h.node n hn),
    fun e he => EdgeClosed.map hren hdom he (h.edge e he)⟩

omit hdom in
/-- Sets of names that satisfy the equation of a node bound what the node adds. -/
theorem NodeClosed.pull {n : NodeID} (hn : n ∈ svfg.nodes) {F' : Set (FactOf O)}
    (hdom : ∀ g ∈ F, FactOver dom g) (hunique : ∀ idx n p p', ob'.gep idx n p → ob'.gep idx n p' → p = p')
    (hclosed : NodeClosed ob (svfg.node n) n F F') {S : Set (FactOf P)}
    (hF : ∀ g ∈ F, mapFact f g ∈ S) (h : NodeClosed ob' (svfg.node n) n S S) :
    NodeClosed ob (svfg.node n) n F {g | mapFact f g ∈ S} := by
  have haddr := hren.addr n hn
  cases hnode : svfg.node n with
  | addr dst src =>
      rw [hnode] at h
      change .pts dst (f (ob.addr src)) ∈ S
      rw [haddr dst src hnode]
      exact h
  | copy dst src =>
      rw [hnode] at h
      exact fun o ho => h (f o) (hF _ ho)
  | gep dst src idx =>
      rw [hnode] at h hclosed
      intro o ho
      obtain ⟨o', hgep, -⟩ := hclosed o ho
      obtain ⟨p, hp, hmem⟩ := h (f o) (hF _ ho)
      rw [hunique idx (f o) p (f o') hp (hren.gep idx o (hdom _ ho) o' hgep)] at hmem
      exact ⟨o', hgep, hmem⟩
  | load dst src =>
      rw [hnode] at h
      intro o ho hc v hv x hx
      refine h (f o) (hF _ ho) (fun hc' => hc ((hren.constant o (hdom _ ho)).mp hc')) (f v) ?_ (f x)
        (hF _ hx)
      rw [(hren.parts o (hdom _ ho)).2]
      exact ⟨v, hv, rfl⟩
  | store dst src =>
      rw [hnode] at h
      constructor
      · intro o ho hc x hx
        exact h.1 (f o) (hF _ ho) (fun hc' => hc ((hren.constant o (hdom _ ho)).mp hc')) (f x)
          (hF _ hx)
      · rintro ⟨o, ho⟩ v hweak x hx
        refine h.2 ⟨f o, hF _ ho⟩ (f v) (fun hstrong => hweak ⟨?_, fun o' ho' => ?_⟩) (f x) (hF _ hx)
        · exact (hren.updatable v (hdom _ hx).1).mp hstrong.1
        · exact hren.inj o' (hdom _ ho') v (hdom _ hx).1 (hstrong.2 (f o') (hF _ ho'))
  | phi res opVers =>
      rw [hnode] at h
      exact fun v hv o ho => h v hv (f o) (hF _ ho)
  | _ => trivial

omit hdom in
theorem EdgeClosed.pull {e : SVFGEdge} (he : e ∈ svfg.edges) {S : Set (FactOf P)}
    (hF : ∀ g ∈ F, mapFact f g ∈ S) (h : EdgeClosed ob' svfg.node e S S) :
    EdgeClosed ob svfg.node e F {g | mapFact f g ∈ S} := by
  have hlabel := hren.label e he
  rw [EdgeClosed] at h ⊢
  cases hkind : e.kind with
  | direct =>
      rw [hkind] at h
      simp only at h ⊢
      split at h
      · exact fun o ho => h (f o) (hF _ ho)
      · exact fun o ho => h (f o) (hF _ ho)
      · trivial
  | indirect pts =>
      rw [hkind] at h
      intro c hc v hv x hx
      obtain ⟨hobj, hname⟩ := hlabel pts hkind c hc
      refine h c hc (f v) ?_ (f x) ?_
      · rw [← hname, (hren.parts _ hobj).2]
        exact ⟨v, hv, rfl⟩
      · have hmem := hF _ hx
        simp only [sourceFact] at hmem ⊢
        split at hmem
        · rename_i hstore
          rwa [if_pos hstore]
        · rename_i hstore
          rwa [if_neg hstore]

end

section

variable {ob : Objects O} {node node' : NodeID → SVFGNode} (hnode : ∀ n, (node n).Grows (node' n))

include hnode

theorem isStore_grows (n : NodeID) : (node' n).isStore = (node n).isStore := by
  have h := hnode n
  generalize node n = a at h ⊢
  generalize node' n = b at h ⊢
  cases h with
  | same => rfl
  | phi => rfl

theorem edgeClosed_grows {e : SVFGEdge} {F F' : Set (FactOf O)} :
    EdgeClosed ob node' e F F' ↔ EdgeClosed ob node e F F' := by
  have hsrc := hnode e.src
  have hdst := hnode e.dst
  rw [EdgeClosed, EdgeClosed]
  cases e.kind with
  | direct =>
      simp only
      generalize node e.src = a at hsrc ⊢
      generalize node' e.src = a' at hsrc ⊢
      generalize node e.dst = b at hdst ⊢
      generalize node' e.dst = b' at hdst ⊢
      cases hsrc with
      | same =>
          cases hdst with
          | same => rfl
          | phi => cases a <;> rfl
      | phi => cases hdst <;> rfl
  | indirect pts => simp only [sourceFact, isStore_grows hnode]

end

end SVF.WPA.FlowEquations
