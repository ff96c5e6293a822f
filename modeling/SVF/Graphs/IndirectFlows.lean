import SVF.Graphs.SVFGOPT
import SVF.Util.Elimination

namespace SVF.Graphs.IndirectFlows

open MemoryModel.PointsToSets SVFGOPT Util.Elimination

section

def carries (e : IndirectSVFGEdge) : Option NodeID → Prop
  | none => True
  | some o => o ∈ e.cpts

def Arc (g : SVFG) (a : NodeID) (k : IndirectEdgeK) (b : NodeID) (x : Option NodeID) : Prop :=
  ∃ e ∈ g.edges, e.src = a ∧ e.kind = k ∧ e.dst = b ∧ carries e x

variable {g g' g'' : SVFG} {a b n : NodeID} {k : IndirectEdgeK} {x : Option NodeID}
  {e new : IndirectSVFGEdge}

theorem Arc.of_mem (he : e ∈ g.edges) (hx : carries e x) : Arc g e.src e.kind e.dst x :=
  ⟨e, he, rfl, rfl, rfl, hx⟩

theorem mem_inEdges : e ∈ g.inEdges n ↔ e ∈ g.edges ∧ e.dst = n := by
  rw [SVFG.inEdges, List.mem_filter, decide_eq_true_eq]

theorem mem_outEdges : e ∈ g.outEdges n ↔ e ∈ g.edges ∧ e.src = n := by
  rw [SVFG.outEdges, List.mem_filter, decide_eq_true_eq]

theorem sameEdge_iff :
    SVFG.sameEdge e new = true ↔ e.src = new.src ∧ e.dst = new.dst ∧ e.kind = new.kind := by
  simp [SVFG.sameEdge, and_assoc]

theorem carries_union (e : IndirectSVFGEdge) (pts : PointsTo) :
    carries { e with cpts := e.cpts ∪ pts } x ↔ carries e x ∨ ∃ o ∈ pts, x = some o := by
  cases x with
  | none => exact iff_of_true trivial (.inl trivial)
  | some o =>
      change o ∈ e.cpts ∪ pts ↔ _
      rw [mem_union]
      apply or_congr Iff.rfl
      constructor
      · exact fun ho => ⟨o, ho, rfl⟩
      · rintro ⟨o', ho, heq⟩
        cases heq
        exact ho

theorem arc_addIndirectVFEdge : Arc (g.addIndirectVFEdge new).1 a k b x ↔
    Arc g a k b x ∨ new.src = a ∧ new.kind = k ∧ new.dst = b ∧ carries new x := by
  rw [SVFG.addIndirectVFEdge]
  split
  · rename_i edge hfind
    have hedge := List.mem_of_find?_eq_some hfind
    have hsame := sameEdge_iff.mp
      (List.find?_some (p := fun e => SVFG.sameEdge e new) hfind)
    constructor
    · rintro ⟨f, hf, rfl, rfl, rfl, hx⟩
      obtain ⟨e, he, rfl⟩ := List.mem_map.mp hf
      by_cases hkey : SVFG.sameEdge e new = true
      · rw [if_pos hkey] at hx ⊢
        obtain ⟨hsrc, hdst, hkind⟩ := sameEdge_iff.mp hkey
        rcases (carries_union e new.cpts).mp hx with hx | ⟨o, ho, rfl⟩
        · exact .inl ⟨e, he, rfl, rfl, rfl, hx⟩
        · exact .inr ⟨hsrc.symm, hkind.symm, hdst.symm, ho⟩
      · rw [if_neg hkey] at hx ⊢
        exact .inl (.of_mem he hx)
    · have hmap : ∀ e ∈ g.edges, (carries e x ∨ SVFG.sameEdge e new = true ∧ carries new x) →
          Arc { g with edges := g.edges.map fun e =>
            if SVFG.sameEdge e new then { e with cpts := e.cpts ∪ new.cpts } else e }
            e.src e.kind e.dst x := by
        intro e he hx
        by_cases hkey : SVFG.sameEdge e new = true
        · refine ⟨{ e with cpts := e.cpts ∪ new.cpts }, ?_, rfl, rfl, rfl, ?_⟩
          · exact List.mem_map.mpr ⟨e, he, if_pos hkey⟩
          · rw [carries_union]
            rcases hx with hx | ⟨-, hx⟩
            · exact .inl hx
            · cases x with
              | none => exact .inl trivial
              | some o => exact .inr ⟨o, hx, rfl⟩
        · refine ⟨e, List.mem_map.mpr ⟨e, he, if_neg hkey⟩, rfl, rfl, rfl, ?_⟩
          exact hx.resolve_right fun h => hkey h.1
      rintro (⟨e, he, rfl, rfl, rfl, hx⟩ | ⟨rfl, rfl, rfl, hx⟩)
      · exact hmap e he (.inl hx)
      · have harc := hmap edge hedge (.inr ⟨sameEdge_iff.mpr hsame, hx⟩)
        rwa [hsame.1, hsame.2.1, hsame.2.2] at harc
  · constructor
    · rintro ⟨e, he, rfl, rfl, rfl, hx⟩
      rcases List.mem_append.mp he with he | he
      · exact .inl (.of_mem he hx)
      · rw [List.mem_singleton.mp he] at hx ⊢
        exact .inr ⟨rfl, rfl, rfl, hx⟩
    · rintro (⟨e, he, rfl, rfl, rfl, hx⟩ | ⟨rfl, rfl, rfl, hx⟩)
      · exact .of_mem (List.mem_append_left _ he) hx
      · exact .of_mem (List.mem_append_right _ (List.mem_singleton.mpr rfl)) hx

theorem nodes_addIndirectVFEdge : (g.addIndirectVFEdge new).1.nodes = g.nodes := by
  rw [SVFG.addIndirectVFEdge]
  split <;> rfl

theorem filter_addIndirectVFEdge {p : IndirectSVFGEdge → Bool}
    (hp : ∀ e pts, p { e with cpts := pts } = p e) (hnew : ∀ e, SVFG.sameEdge e new → p e = false)
    (hself : p new = false) : (g.addIndirectVFEdge new).1.edges.filter p = g.edges.filter p := by
  rw [SVFG.addIndirectVFEdge]
  split
  · have hcomp : (p ∘ fun e =>
        if SVFG.sameEdge e new then { e with cpts := e.cpts ∪ new.cpts } else e) = p := by
      funext e
      rw [Function.comp_apply]
      split
      · exact hp e _
      · rfl
    rw [List.filter_map, hcomp]
    conv_rhs => rw [← List.map_id (g.edges.filter p)]
    apply List.map_congr_left
    intro e he
    rw [id, if_neg]
    intro hsame
    have hfalse := hnew e hsame
    rw [(List.mem_filter.mp he).2] at hfalse
    contradiction
  · rw [List.filter_append, List.filter_cons_of_neg (by simp [hself]), List.filter_nil,
      List.append_nil]

theorem arc_removeInEdges : Arc (g.removeInEdges n) a k b x ↔ b ≠ n ∧ Arc g a k b x := by
  constructor
  · rintro ⟨e, he, rfl, rfl, rfl, hx⟩
    obtain ⟨he, hne⟩ := List.mem_filter.mp he
    exact ⟨of_decide_eq_true hne, .of_mem he hx⟩
  · rintro ⟨hne, e, he, rfl, rfl, rfl, hx⟩
    exact .of_mem (List.mem_filter.mpr ⟨he, decide_eq_true hne⟩) hx

theorem arc_removeOutEdges : Arc (g.removeOutEdges n) a k b x ↔ a ≠ n ∧ Arc g a k b x := by
  constructor
  · rintro ⟨e, he, rfl, rfl, rfl, hx⟩
    obtain ⟨he, hne⟩ := List.mem_filter.mp he
    exact ⟨of_decide_eq_true hne, .of_mem he hx⟩
  · rintro ⟨hne, e, he, rfl, rfl, rfl, hx⟩
    exact .of_mem (List.mem_filter.mpr ⟨he, decide_eq_true hne⟩) hx

theorem arc_removeAllEdges :
    Arc (g.removeAllEdges n) a k b x ↔ a ≠ n ∧ b ≠ n ∧ Arc g a k b x := by
  rw [SVFG.removeAllEdges, arc_removeOutEdges, arc_removeInEdges]

end

section

structure Adds (g g' : SVFG) (N : IndirectSVFGEdge → Prop) : Prop where
  nodes : g'.nodes = g.nodes
  arcs : ∀ a k b x, Arc g' a k b x ↔
    Arc g a k b x ∨ ∃ e, N e ∧ e.src = a ∧ e.kind = k ∧ e.dst = b ∧ carries e x

variable {g g' g'' : SVFG} {N N' : IndirectSVFGEdge → Prop} {ι : Type*} {l : List ι}

theorem Adds.refl (hN : ∀ e, ¬ N e) : Adds g g N := by
  refine ⟨rfl, fun a k b x => (or_iff_left ?_).symm⟩
  rintro ⟨e, he, -⟩
  exact hN e he

theorem adds_addIndirectVFEdge (g : SVFG) (new : IndirectSVFGEdge) :
    Adds g (g.addIndirectVFEdge new).1 (· = new) := by
  refine ⟨nodes_addIndirectVFEdge, fun a k b x => ?_⟩
  rw [arc_addIndirectVFEdge]
  apply or_congr_right
  constructor
  · exact fun h => ⟨new, rfl, h⟩
  · rintro ⟨e, rfl, h⟩
    exact h

theorem Adds.trans (h : Adds g g' N) (h' : Adds g' g'' N') :
    Adds g g'' (fun e => N e ∨ N' e) := by
  refine ⟨h'.nodes.trans h.nodes, fun a k b x => ?_⟩
  rw [h'.arcs, h.arcs, or_assoc]
  apply or_congr_right
  constructor
  · rintro (⟨e, he, hrest⟩ | ⟨e, he, hrest⟩)
    · exact ⟨e, .inl he, hrest⟩
    · exact ⟨e, .inr he, hrest⟩
  · rintro ⟨e, he | he, hrest⟩
    · exact .inl ⟨e, he, hrest⟩
    · exact .inr ⟨e, he, hrest⟩

theorem Adds.congr (h : Adds g g' N) (hN : ∀ e, N e ↔ N' e) : Adds g g' N' := by
  refine ⟨h.nodes, fun a k b x => ?_⟩
  rw [h.arcs]
  exact or_congr_right (exists_congr fun e => and_congr_left fun _ => hN e)

theorem adds_foldl {N : ι → IndirectSVFGEdge → Prop} {f : SVFG → ι → SVFG}
    (hf : ∀ i ∈ l, ∀ g, Adds g (f g i) (N i)) (g : SVFG) :
    Adds g (l.foldl f g) (fun e => ∃ i ∈ l, N i e) := by
  induction l generalizing g with
  | nil => exact .refl fun e ⟨i, hi, _⟩ => List.not_mem_nil hi
  | cons i l ih =>
      have hfirst := hf i List.mem_cons_self g
      have hrest := ih (fun j hj => hf j (List.mem_cons_of_mem i hj)) (f g i)
      apply (hfirst.trans hrest).congr
      intro e
      rw [List.exists_mem_cons_iff]

end

section

variable {opt : Options} {keep : NodeID → NodeID → Prop} {g g₁ g' : SVFG} {n : NodeID}

def joined (opt : Options) (pre succ : IndirectSVFGEdge) : IndirectSVFGEdge :=
  ⟨pre.src, succ.dst, newEdgeKind opt pre.kind succ.kind, pre.cpts.inter succ.cpts⟩

def Joins (opt : Options) (keep : NodeID → NodeID → Prop) (g : SVFG) (n : NodeID)
    (e : IndirectSVFGEdge) : Prop :=
  ∃ pre ∈ g.inEdges n, ∃ succ ∈ g.outEdges n, keep pre.src succ.dst ∧
    pre.cpts.inter succ.cpts ≠ ∅ ∧ e = joined opt pre succ

structure Eliminates (opt : Options) (keep : NodeID → NodeID → Prop) (n : NodeID) (g g' : SVFG) :
    Prop where
  labelled : ∀ a k b o, Arc g' a k b (some o) ↔ a ≠ n ∧ b ≠ n ∧ (Arc g a k b (some o) ∨
    keep a b ∧ ∃ k₁ k₂, Arc g a k₁ n (some o) ∧ Arc g n k₂ b (some o) ∧ newEdgeKind opt k₁ k₂ = k)
  edges : ∀ a k b, Arc g' a k b none → a ≠ n ∧ b ≠ n ∧ (Arc g a k b none ∨
    ∃ k₁ k₂, Arc g a k₁ n none ∧ Arc g n k₂ b none ∧ newEdgeKind opt k₁ k₂ = k)

theorem Eliminates.of_adds (h : Adds g g₁ (Joins opt keep g n))
    (hrest : ∀ a k b x, Arc g' a k b x ↔ a ≠ n ∧ b ≠ n ∧ Arc g₁ a k b x) :
    Eliminates opt keep n g g' where
  labelled a k b o := by
    rw [hrest, h.arcs]
    apply and_congr_right
    intro ha
    apply and_congr_right
    intro hb
    apply or_congr_right
    constructor
    · rintro ⟨e, ⟨pre, hpre, succ, hsucc, hkeep, hne, rfl⟩, rfl, rfl, rfl, ho⟩
      obtain ⟨hin, rfl⟩ := mem_inEdges.mp hpre
      obtain ⟨hout, hsrc⟩ := mem_outEdges.mp hsucc
      obtain ⟨hopre, hosucc⟩ := (mem_inter _ _ o).mp ho
      exact ⟨hkeep, pre.kind, succ.kind, ⟨pre, hin, rfl, rfl, rfl, hopre⟩,
        ⟨succ, hout, hsrc, rfl, rfl, hosucc⟩, rfl⟩
    · rintro ⟨hkeep, k₁, k₂, ⟨pre, hpre, rfl, rfl, rfl, hopre⟩, ⟨succ, hsucc, hsrc, rfl, rfl, hosucc⟩,
        rfl⟩
      have ho : o ∈ pre.cpts.inter succ.cpts := (mem_inter _ _ o).mpr ⟨hopre, hosucc⟩
      refine ⟨joined opt pre succ, ⟨pre, mem_inEdges.mpr ⟨hpre, rfl⟩, succ,
        mem_outEdges.mpr ⟨hsucc, hsrc⟩, hkeep, fun hempty => ?_, rfl⟩, rfl, rfl, rfl, ho⟩
      rw [hempty] at ho
      exact notMem_empty o ho
  edges a k b harc := by
    obtain ⟨ha, hb, harc⟩ := (hrest a k b none).mp harc
    refine ⟨ha, hb, ((h.arcs a k b none).mp harc).imp_right ?_⟩
    rintro ⟨e, ⟨pre, hpre, succ, hsucc, -, -, rfl⟩, rfl, rfl, rfl, -⟩
    obtain ⟨hin, rfl⟩ := mem_inEdges.mp hpre
    obtain ⟨hout, hsrc⟩ := mem_outEdges.mp hsucc
    exact ⟨pre.kind, succ.kind, ⟨pre, hin, rfl, rfl, rfl, trivial⟩,
      ⟨succ, hout, hsrc, rfl, rfl, trivial⟩, rfl⟩

end

section

variable {opt : Options} {g g' : SVFG} {n o : NodeID} {k k₁ k₂ : IndirectEdgeK}

/-- The call-site id that an edge adds to the sequence of a path, with its direction.
A context-insensitive graph is read without. -/
def word (opt : Options) (k : IndirectEdgeK) : List IndirectEdgeK :=
  if opt.contextInsensitive || !k.isInter then [] else [k]

def flows (opt : Options) (g : SVFG) (o a : NodeID) (w : List IndirectEdgeK) (b : NodeID) : Prop :=
  ∃ k, Arc g a k b (some o) ∧ word opt k = w

@[simp] theorem word_intra : word opt .intra = [] := by simp [word, IndirectEdgeK.isInter]

theorem newEdgeKind_intra_left : newEdgeKind opt .intra k = interKind opt k := by
  cases k <;> simp [newEdgeKind, interKind]

theorem newEdgeKind_intra_right : newEdgeKind opt k .intra = interKind opt k := by
  cases k <;> simp [newEdgeKind, interKind]

theorem word_interKind : word opt (interKind opt k) = word opt k := by
  rw [interKind]
  split
  · rename_i h
    simp [word, h]
  · rfl

theorem isInter_eq_false : k.isInter = false ↔ k = .intra := by
  cases k <;> simp [IndirectEdgeK.isInter]

theorem word_newEdgeKind (h : ¬ (k₁.isInter = true ∧ k₂.isInter = true)) :
    word opt (newEdgeKind opt k₁ k₂) = word opt k₁ ++ word opt k₂ := by
  rw [not_and_or, Bool.not_eq_true, Bool.not_eq_true, isInter_eq_false, isInter_eq_false] at h
  rcases h with rfl | rfl
  · rw [newEdgeKind_intra_left, word_interKind, word_intra, List.nil_append]
  · rw [newEdgeKind_intra_right, word_interKind, word_intra, List.append_nil]

theorem Arc.anyLabel {a b : NodeID} (h : Arc g a k b (some o)) : Arc g a k b none := by
  obtain ⟨e, he, rfl, rfl, rfl, -⟩ := h
  exact .of_mem he trivial

def NotConnecting (g : SVFG) (n : NodeID) : Prop :=
  ∀ a k₁ b k₂, Arc g a k₁ n none → Arc g n k₂ b none → ¬ (k₁.isInter = true ∧ k₂.isInter = true)

theorem flows_eliminates {keep : NodeID → NodeID → Prop} (h : Eliminates opt keep n g g')
    (hone : NotConnecting g n) (o a : NodeID) (w : List IndirectEdgeK) (b : NodeID) :
    flows opt g' o a w b ↔ a ≠ n ∧ b ≠ n ∧ (flows opt g o a w b ∨
      keep a b ∧ ∃ u v, w = u ++ v ∧ flows opt g o a u n ∧ flows opt g o n v b) := by
  constructor
  · rintro ⟨k, harc, rfl⟩
    obtain ⟨ha, hb, harc | ⟨hkeep, k₁, k₂, h₁, h₂, rfl⟩⟩ := (h.labelled a k b o).mp harc
    · exact ⟨ha, hb, .inl ⟨k, harc, rfl⟩⟩
    · have hword : word opt (newEdgeKind opt k₁ k₂) = word opt k₁ ++ word opt k₂ :=
        word_newEdgeKind (hone a k₁ b k₂ h₁.anyLabel h₂.anyLabel)
      exact ⟨ha, hb, .inr ⟨hkeep, _, _, hword, ⟨k₁, h₁, rfl⟩, ⟨k₂, h₂, rfl⟩⟩⟩
  · rintro ⟨ha, hb, ⟨k, harc, rfl⟩ | ⟨hkeep, u, v, rfl, ⟨k₁, h₁, rfl⟩, ⟨k₂, h₂, rfl⟩⟩⟩
    · exact ⟨k, (h.labelled a k b o).mpr ⟨ha, hb, .inl harc⟩, rfl⟩
    · have hjoined := (h.labelled a _ b o).mpr ⟨ha, hb, .inr ⟨hkeep, k₁, k₂, h₁, h₂, rfl⟩⟩
      refine ⟨newEdgeKind opt k₁ k₂, hjoined, ?_⟩
      exact word_newEdgeKind (hone a k₁ b k₂ h₁.anyLabel h₂.anyLabel)

theorem flows_spliced (h : Eliminates opt (fun _ _ => True) n g g') (hone : NotConnecting g n)
    (o : NodeID) : flows opt g' o = spliced (flows opt g o) n := by
  funext a w b
  rw [flows_eliminates h hone, true_and, spliced]

theorem flows_bypassed (h : Eliminates opt (· ≠ ·) n g g') (hone : NotConnecting g n) (o : NodeID) :
    flows opt g' o = bypassed (flows opt g o) n := by
  funext a w b
  rw [flows_eliminates h hone, bypassed]

end

end SVF.Graphs.IndirectFlows
