import SVF.Graphs.FieldObjects
import SVF.MemoryModel.EnumeratedPointsTo

namespace SVF.MemoryModel.Normalization

open EnumeratedPointsTo
open Graphs.ConsG (NodeID APOffset)
open Graphs.FieldObjects (SVFIR Consistent IsCollapsed not_isCollapsed_of_base
  gepObjVar_getBaseObjVar)

def collectDropNodes (pag : SVFIR) : NodeBS :=
  pag.nodes.foldl (fun dropNodes base =>
    if pag.isFieldInsensitive base then
      (pag.memToFieldsMap base).foldl (fun dropNodes id =>
        if (pag.gepObjVar id).isSome then dropNodes.set id else dropNodes) dropNodes
    else dropNodes) ∅

/-- A field object has no statements, that is no edges. -/
def removeGNode (pag : SVFIR) (n : NodeID) : SVFIR :=
  { pag with
    nodes := pag.nodes.filter (· ≠ n)
    gepObjVar := Function.update pag.gepObjVar n none }

/-- `none` is a node that is no field object. -/
def clearGepNode (pag : SVFIR) (n : NodeID) : Option SVFIR :=
  (pag.gepObjVar n).map fun (base, apOffset) =>
    removeGNode { pag with
      GepObjVarMap := Function.update pag.GepObjVarMap base
        (Function.update (pag.GepObjVarMap base) apOffset none)
      memToFieldsMap := Function.update pag.memToFieldsMap base
        ((pag.memToFieldsMap base).filter (· ≠ n)) } n

def normalizePointsTo (pag : SVFIR) (ptD : PTData) : Option (SVFIR × PTData) :=
  let dropNodes := collectDropNodes pag
  (pag.nodes.foldlM (fun ptD n => PTData.replaceFields dropNodes pag.getBaseObjVar ptD n) ptD).bind
    fun ptD => (dropNodes.elems.foldlM clearGepNode pag).map (·, ptD)

/-- The tables of a graph: its nodes are the keys of a map, and only base objects have
entries of fields. -/
structure WellFormed (pag : SVFIR) : Prop where
  consistent : Consistent pag
  keys : ∀ b, ∀ x ∈ pag.memToFieldsMap b, pag.gepObjVar b = none
  nodup : pag.nodes.Nodup

/-- `pt'` is `pt` with the fields of field-insensitive objects replaced by their base. -/
def IsNormalOf (pag : SVFIR) (pt pt' : PointsTo) : Prop :=
  ∀ x, x ∈ pt' ↔ x ∈ pt ∧ ¬ IsCollapsed pag x ∨
    ∃ e ∈ pt, IsCollapsed pag e ∧ x = pag.getBaseObjVar e

/-- The field objects of field-insensitive objects have gone from the nodes, from the two
maps and from all points-to sets, and nothing else has. -/
structure Normalized (pag pag' : SVFIR) (ptD ptD' : PTData) : Prop where
  pts : ∀ n, IsNormalOf pag (ptD.getPts n) (ptD'.getPts n)
  other : List.Forall₂ (IsNormalOf pag) ptD.otherPts ptD'.otherPts
  nodes : ∀ x, x ∈ pag'.nodes ↔ x ∈ pag.nodes ∧ ¬ IsCollapsed pag x
  gep : ∀ x p, pag'.gepObjVar x = some p ↔ pag.gepObjVar x = some p ∧ ¬ IsCollapsed pag x
  map : ∀ b i x, pag'.GepObjVarMap b i = some x ↔
    pag.GepObjVarMap b i = some x ∧ ¬ IsCollapsed pag x
  fields : ∀ b x, x ∈ pag'.memToFieldsMap b ↔ x ∈ pag.memToFieldsMap b ∧ ¬ IsCollapsed pag x
  removed : ∀ x, IsCollapsed pag x → (∀ n, x ∉ ptD'.getPts n) ∧ ∀ pt ∈ ptD'.otherPts, x ∉ pt
  wellFormed : WellFormed pag'

variable {pag : SVFIR}

theorem mem_foldl_set (p : NodeID → Prop) [DecidablePred p] (l : List NodeID) (s : NodeBS)
    (x : NodeID) :
    x ∈ l.foldl (fun s id => if p id then s.set id else s) s ↔ x ∈ s ∨ x ∈ l ∧ p x := by
  induction l generalizing s with
  | nil => simp
  | cons a l ih =>
      rw [List.foldl_cons, ih]
      by_cases ha : p a
      · rw [if_pos ha, PointsToSets.mem_set, List.mem_cons, or_assoc]
        refine or_congr_right ⟨?_, ?_⟩
        · rintro (rfl | ⟨hx, hp⟩)
          · exact ⟨.inl rfl, ha⟩
          · exact ⟨.inr hx, hp⟩
        · rintro ⟨rfl | hx, hp⟩
          · exact .inl rfl
          · exact .inr ⟨hx, hp⟩
      · rw [if_neg ha, List.mem_cons]
        refine or_congr_right (and_congr_left fun hp => ?_)
        exact ⟨.inr, fun h => h.resolve_left fun heq => ha (heq ▸ hp)⟩

theorem mem_foldl_collect (bases : List NodeID) (s : NodeBS) (x : NodeID) :
    x ∈ bases.foldl (fun dropNodes base =>
        if pag.isFieldInsensitive base then
          (pag.memToFieldsMap base).foldl (fun dropNodes id =>
            if (pag.gepObjVar id).isSome then dropNodes.set id else dropNodes) dropNodes
        else dropNodes) s ↔
      x ∈ s ∨ ∃ b ∈ bases, pag.isFieldInsensitive b = true ∧ x ∈ pag.memToFieldsMap b ∧
        (pag.gepObjVar x).isSome = true := by
  induction bases generalizing s with
  | nil => simp
  | cons b bases ih =>
      rw [List.foldl_cons, ih]
      have hb : x ∈ (if pag.isFieldInsensitive b then
          (pag.memToFieldsMap b).foldl (fun dropNodes id =>
            if (pag.gepObjVar id).isSome then dropNodes.set id else dropNodes) s else s) ↔
          x ∈ s ∨ pag.isFieldInsensitive b = true ∧ x ∈ pag.memToFieldsMap b ∧
            (pag.gepObjVar x).isSome = true := by
        split
        · rename_i hfi
          rw [mem_foldl_set (fun id => (pag.gepObjVar id).isSome = true), and_iff_right hfi]
        · rename_i hfi
          simp [hfi]
      rw [hb, List.exists_mem_cons_iff, or_assoc]

theorem mem_collectDropNodes (h : WellFormed pag) (x : NodeID) :
    x ∈ collectDropNodes pag ↔ IsCollapsed pag x := by
  rw [collectDropNodes, mem_foldl_collect]
  constructor
  · rintro (hx | ⟨b, -, hfi, hx, hsome⟩)
    · exact absurd hx (PointsToSets.notMem_empty x)
    · have hb := h.keys b x hx
      rw [SVFIR.isFieldInsensitive, SVFIR.getBaseObjVar, hb, decide_eq_true_eq] at hfi
      rcases h.consistent.ofField b x hx with rfl | ⟨i, hgep⟩
      · rw [hb] at hsome
        contradiction
      · exact ⟨b, i, hgep, hfi⟩
  · rintro ⟨b, i, hgep, hlimit⟩
    refine .inr ⟨b, (h.consistent.node x b i hgep).2, ?_, h.consistent.field x b i hgep, ?_⟩
    · rw [SVFIR.isFieldInsensitive, SVFIR.getBaseObjVar, h.consistent.base x b i hgep]
      exact decide_eq_true hlimit
    · rw [hgep]
      rfl

structure Cleared (pag : SVFIR) (l : List NodeID) (pag' : SVFIR) : Prop where
  nodup : pag.nodes.Nodup → pag'.nodes.Nodup
  nodes : ∀ x, x ∈ pag'.nodes ↔ x ∈ pag.nodes ∧ x ∉ l
  gep : ∀ x p, pag'.gepObjVar x = some p ↔ pag.gepObjVar x = some p ∧ x ∉ l
  map : ∀ b i x, pag'.GepObjVarMap b i = some x ↔
    pag.GepObjVarMap b i = some x ∧ ∀ n ∈ l, pag.gepObjVar n ≠ some (b, i)
  fields : ∀ b x, x ∈ pag'.memToFieldsMap b ↔
    x ∈ pag.memToFieldsMap b ∧ ∀ i, x ∈ l → pag.gepObjVar x ≠ some (b, i)

theorem Cleared.refl (pag : SVFIR) : Cleared pag [] pag := by
  refine ⟨id, ?_, ?_, ?_, ?_⟩ <;> simp

theorem Cleared.cons {pag' pag'' : SVFIR} {n : NodeID} {l : List NodeID} (hn : n ∉ l)
    (h : Cleared pag [n] pag') (h' : Cleared pag' l pag'') : Cleared pag (n :: l) pag'' := by
  have hgep : ∀ m ∈ l, ∀ p, pag'.gepObjVar m = some p ↔ pag.gepObjVar m = some p := by
    intro m hm p
    have hne : m ∉ [n] := fun hmem => hn (List.mem_singleton.mp hmem ▸ hm)
    exact (h.gep m p).trans (and_iff_left hne)
  refine ⟨fun hnodup => h'.nodup (h.nodup hnodup), fun x => ?_, fun x p => ?_, fun b i x => ?_,
    fun b x => ?_⟩
  · rw [h'.nodes, h.nodes, List.mem_singleton, List.mem_cons, not_or, and_assoc]
  · rw [h'.gep, h.gep, List.mem_singleton, List.mem_cons, not_or, and_assoc]
  · rw [h'.map, h.map, List.forall_mem_singleton, List.forall_mem_cons, and_assoc]
    refine and_congr_right fun _ => and_congr_right fun _ => forall₂_congr fun m hm => ?_
    exact not_congr (hgep m hm (b, i))
  · rw [h'.fields, h.fields, and_assoc]
    refine and_congr_right fun _ => ?_
    constructor
    · rintro ⟨hhead, htail⟩ i hx
      rcases List.mem_cons.mp hx with rfl | hx
      · exact hhead i (List.mem_singleton_self x)
      · exact fun heq => htail i hx ((hgep x hx (b, i)).mpr heq)
    · intro hall
      refine ⟨fun i hx => hall i (List.mem_singleton.mp hx ▸ List.mem_cons_self), fun i hx heq => ?_⟩
      exact hall i (List.mem_cons_of_mem n hx) ((hgep x hx (b, i)).mp heq)

theorem clearGepNode_spec {n base : NodeID} {apOffset : APOffset}
    (h : pag.gepObjVar n = some (base, apOffset)) :
    ∃ pag', clearGepNode pag n = some pag' ∧ Cleared pag [n] pag' := by
  rw [clearGepNode, h]
  refine ⟨_, rfl, fun hnodup => hnodup.filter _, fun x => ?_, fun x p => ?_, fun b i x => ?_,
    fun b x => ?_⟩
  · change x ∈ pag.nodes.filter _ ↔ _
    rw [List.mem_filter, List.mem_singleton, decide_eq_true_eq]
  · change Function.update pag.gepObjVar n none x = some p ↔ _
    rw [List.mem_singleton]
    by_cases hx : x = n
    · rw [hx, Function.update_self]
      simp
    · rw [Function.update_of_ne hx, and_iff_left hx]
  · change Function.update pag.GepObjVarMap base
      (Function.update (pag.GepObjVarMap base) apOffset none) b i = some x ↔ _
    rw [List.forall_mem_singleton, h]
    by_cases hb : b = base
    · subst hb
      rw [Function.update_self]
      by_cases hi : i = apOffset
      · subst hi
        rw [Function.update_self]
        simp
      · rw [Function.update_of_ne hi]
        simp [Ne.symm hi]
    · rw [Function.update_of_ne hb]
      simp [Ne.symm hb]
  · change x ∈ Function.update pag.memToFieldsMap base _ b ↔ _
    by_cases hb : b = base
    · subst hb
      rw [Function.update_self, List.mem_filter, decide_eq_true_eq]
      refine and_congr_right fun _ => ?_
      constructor
      · intro hne i hx
        exact absurd (List.mem_singleton.mp hx) hne
      · rintro hall rfl
        exact hall apOffset (List.mem_singleton_self x) h
    · rw [Function.update_of_ne hb]
      refine (and_iff_left fun i hx => ?_).symm
      rw [List.mem_singleton.mp hx, h]
      simp [Ne.symm hb]

theorem clear_run {l : List NodeID} (hnodup : l.Nodup) (pag : SVFIR)
    (hgep : ∀ n ∈ l, ∃ p, pag.gepObjVar n = some p) :
    ∃ pag', l.foldlM clearGepNode pag = some pag' ∧ Cleared pag l pag' := by
  induction l generalizing pag with
  | nil => exact ⟨pag, rfl, Cleared.refl pag⟩
  | cons n l ih =>
      obtain ⟨hn, hnodup⟩ := List.nodup_cons.mp hnodup
      obtain ⟨⟨base, apOffset⟩, hp⟩ := hgep n List.mem_cons_self
      obtain ⟨pag', hstep, hcleared⟩ := clearGepNode_spec hp
      have hgep' : ∀ m ∈ l, ∃ p, pag'.gepObjVar m = some p := by
        intro m hm
        obtain ⟨p, hp⟩ := hgep m (List.mem_cons_of_mem n hm)
        refine ⟨p, (hcleared.gep m p).mpr ⟨hp, fun hmem => ?_⟩⟩
        exact hn (List.mem_singleton.mp hmem ▸ hm)
      obtain ⟨pag'', hrun, hcleared'⟩ := ih hnodup pag' hgep'
      refine ⟨pag'', ?_, hcleared.cons hn hcleared'⟩
      rw [List.foldlM_cons, hstep]
      exact hrun

theorem Cleared.wellFormed {pag' : SVFIR} {l : List NodeID} (hcleared : Cleared pag l pag')
    (h : WellFormed pag) (hl : ∀ x, x ∈ l ↔ IsCollapsed pag x) : WellFormed pag' := by
  have hnone : ∀ b, pag.gepObjVar b = none → pag'.gepObjVar b = none := by
    intro b hb
    by_contra hsome
    obtain ⟨p, hp⟩ := Option.ne_none_iff_exists'.mp hsome
    have hold := ((hcleared.gep b p).mp hp).1
    rw [hb] at hold
    contradiction
  have hbase : ∀ b, pag.gepObjVar b = none → b ∉ l :=
    fun b hb hmem => not_isCollapsed_of_base hb ((hl b).mp hmem)
  refine ⟨⟨fun x b i hx => ?_, fun x b i hx => ?_, fun x b i hx => ?_, fun b i x hx => ?_,
    fun b x hx => ?_⟩, fun b x hx => ?_, hcleared.nodup h.nodup⟩
  · obtain ⟨hgep, hnot⟩ := (hcleared.gep x (b, i)).mp hx
    obtain ⟨hxn, hbn⟩ := h.consistent.node x b i hgep
    exact ⟨(hcleared.nodes x).mpr ⟨hxn, hnot⟩,
      (hcleared.nodes b).mpr ⟨hbn, hbase b (h.consistent.base x b i hgep)⟩⟩
  · exact hnone b (h.consistent.base x b i ((hcleared.gep x (b, i)).mp hx).1)
  · obtain ⟨hgep, hnot⟩ := (hcleared.gep x (b, i)).mp hx
    exact (hcleared.fields b x).mpr ⟨h.consistent.field x b i hgep, fun _ hmem => absurd hmem hnot⟩
  · obtain ⟨hmap, hnot⟩ := (hcleared.map b i x).mp hx
    have hgep := h.consistent.gep b i x hmap
    exact (hcleared.gep x (b, i)).mpr ⟨hgep, fun hmem => hnot x hmem hgep⟩
  · obtain ⟨hfield, hnot⟩ := (hcleared.fields b x).mp hx
    rcases h.consistent.ofField b x hfield with heq | ⟨i, hgep⟩
    · exact .inl heq
    · exact .inr ⟨i, (hcleared.gep x (b, i)).mpr ⟨hgep, fun hmem => hnot i hmem hgep⟩⟩
  · exact hnone b (h.keys b x ((hcleared.fields b x).mp hx).1)

theorem Cleared.map_iff {pag' : SVFIR} {l : List NodeID} (hcleared : Cleared pag l pag')
    (h : WellFormed pag) (hl : ∀ x, x ∈ l ↔ IsCollapsed pag x) (b : NodeID) (i : APOffset)
    (x : NodeID) : pag'.GepObjVarMap b i = some x ↔
      pag.GepObjVarMap b i = some x ∧ ¬ IsCollapsed pag x := by
  rw [hcleared.map]
  refine and_congr_right fun hmap => ?_
  have hgep := h.consistent.gep b i x hmap
  constructor
  · exact fun hnot hx => hnot x ((hl x).mpr hx) hgep
  · intro hnot n hn heq
    obtain ⟨b', i', hn, hlimit⟩ := (hl n).mp hn
    rw [heq, Option.some.injEq, Prod.mk.injEq] at hn
    exact hnot ⟨b, i, hgep, hn.1 ▸ hlimit⟩

theorem Cleared.fields_iff {pag' : SVFIR} {l : List NodeID} (hcleared : Cleared pag l pag')
    (h : WellFormed pag) (hl : ∀ x, x ∈ l ↔ IsCollapsed pag x) (b x : NodeID) :
    x ∈ pag'.memToFieldsMap b ↔ x ∈ pag.memToFieldsMap b ∧ ¬ IsCollapsed pag x := by
  rw [hcleared.fields]
  refine and_congr_right fun hfield => ?_
  constructor
  · intro hnot hx
    rcases h.consistent.ofField b x hfield with rfl | ⟨i, hgep⟩
    · exact not_isCollapsed_of_base (h.keys x x hfield) hx
    · exact hnot i ((hl x).mpr hx) hgep
  · exact fun hnot i hx _ => hnot ((hl x).mp hx)

theorem not_isCollapsed_getBaseObjVar (h : WellFormed pag) (x : NodeID) :
    ¬ IsCollapsed pag (pag.getBaseObjVar x) :=
  not_isCollapsed_of_base (gepObjVar_getBaseObjVar h.consistent x)

theorem IsNormalOf.not_mem (h : WellFormed pag) {pt pt' : PointsTo} (hnormal : IsNormalOf pag pt pt')
    {x : NodeID} (hx : IsCollapsed pag x) : x ∉ pt' := by
  intro hmem
  rcases (hnormal x).mp hmem with ⟨-, hnot⟩ | ⟨e, -, -, rfl⟩
  · exact hnot hx
  · exact not_isCollapsed_getBaseObjVar h e hx

/-- A set that is left alone is right when no field of a field-insensitive object is in it. -/
theorem isNormalOf_self_iff (h : WellFormed pag) (pt : PointsTo) :
    IsNormalOf pag pt pt ↔ ∀ e ∈ pt, ¬ IsCollapsed pag e := by
  constructor
  · exact fun hnormal e he hcollapsed => hnormal.not_mem h hcollapsed he
  · intro hnot x
    constructor
    · exact fun hx => .inl ⟨hx, hnot x hx⟩
    · rintro (⟨hx, -⟩ | ⟨e, he, hcollapsed, -⟩)
      · exact hx
      · exact absurd hcollapsed (hnot e he)

/-- Every turn over the points-to sets of the nodes leaves the iterator valid: the sets are
persistent, or each field that goes shares its list element with another number, or the
vector has a word for its base. -/
def EnumerationsValid (pag : SVFIR) (ptD : PTData) : Prop :=
  ∀ n ∈ pag.nodes, EnumerationValid (IsCollapsed pag) pag.getBaseObjVar ptD n

/-- No field of a field-insensitive object is in a set that is not enumerated. -/
def OthersNormal (pag : SVFIR) (ptD : PTData) : Prop :=
  (∀ n ∉ pag.nodes, ∀ e ∈ ptD.getPts n, ¬ IsCollapsed pag e) ∧
    ∀ pt ∈ ptD.otherPts, ∀ e ∈ pt, ¬ IsCollapsed pag e

theorem normalizePointsTo_cases (h : WellFormed pag) (ptD : PTData) :
    (EnumerationsValid pag ptD ∧ ∃ pag' ptD', normalizePointsTo pag ptD = some (pag', ptD') ∧
      Cleared pag (collectDropNodes pag).elems pag' ∧
      ReplacedAll (IsCollapsed pag) pag.getBaseObjVar ptD pag.nodes ptD') ∨
    (¬ EnumerationsValid pag ptD ∧ normalizePointsTo pag ptD = none) := by
  have hdrop : (· ∈ collectDropNodes pag) = IsCollapsed pag :=
    funext fun x => propext (mem_collectDropNodes h x)
  have hbase : ∀ e ∈ collectDropNodes pag, pag.getBaseObjVar e ∉ collectDropNodes pag := by
    intro e _
    rw [mem_collectDropNodes h]
    exact not_isCollapsed_getBaseObjVar h e
  have hgep : ∀ n ∈ (collectDropNodes pag).elems, ∃ p, pag.gepObjVar n = some p := by
    intro n hn
    obtain ⟨b, i, hn, -⟩ := (mem_collectDropNodes h n).mp hn
    exact ⟨(b, i), hn⟩
  have hnodup : (collectDropNodes pag).elems.Nodup :=
    (collectDropNodes pag).sorted.imp fun hlt => ne_of_lt hlt
  obtain ⟨pag', hclear, hcleared⟩ := clear_run hnodup pag hgep
  have hrun := replaceAll_cases hbase h.nodup ptD
  rw [hdrop] at hrun
  rw [normalizePointsTo]
  rcases hrun with ⟨hvalid, ptD', hrun, hrep⟩ | ⟨hinvalid, hrun⟩
  · rw [hrun]
    refine .inl ⟨hvalid, pag', ptD', ?_, hcleared, hrep⟩
    rw [Option.bind_some, hclear]
    rfl
  · rw [hrun]
    exact .inr ⟨hinvalid, rfl⟩

theorem normalizePointsTo_correct_iff (h : WellFormed pag) (ptD : PTData) :
    (∃ r, normalizePointsTo pag ptD = some r ∧ Normalized pag r.1 ptD r.2) ↔
      EnumerationsValid pag ptD ∧ OthersNormal pag ptD := by
  rcases normalizePointsTo_cases h ptD with
    ⟨hvalid, pag', ptD', hrun, hcleared, hrep⟩ | ⟨hinvalid, hrun⟩
  · rw [and_iff_right hvalid, hrun]
    have hl : ∀ x, x ∈ (collectDropNodes pag).elems ↔ IsCollapsed pag x := mem_collectDropNodes h
    constructor
    · rintro ⟨r, hr, hnormal⟩
      obtain rfl := Option.some.inj hr
      refine ⟨fun n hn => (isNormalOf_self_iff h _).mp ?_, fun pt hpt => ?_⟩
      · have hn' := hnormal.pts n
        rwa [hrep.rest n hn] at hn'
      · have hother := hnormal.other
        rw [hrep.other, List.forall₂_same] at hother
        exact (isNormalOf_self_iff h pt).mp (hother pt hpt)
    · rintro ⟨hkeys, hother⟩
      have hpts : ∀ n, IsNormalOf pag (ptD.getPts n) (ptD'.getPts n) := by
        intro n
        by_cases hn : n ∈ pag.nodes
        · exact hrep.mem n hn
        · rw [hrep.rest n hn]
          exact (isNormalOf_self_iff h _).mpr (hkeys n hn)
      refine ⟨_, rfl, hpts, ?_, fun x => ?_, fun x p => ?_, hcleared.map_iff h hl,
        hcleared.fields_iff h hl, fun x hx => ⟨fun n => (hpts n).not_mem h hx, ?_⟩,
        hcleared.wellFormed h hl⟩
      · rw [hrep.other, List.forall₂_same]
        exact fun pt hpt => (isNormalOf_self_iff h pt).mpr (hother pt hpt)
      · rw [hcleared.nodes, hl]
      · rw [hcleared.gep, hl]
      · rw [hrep.other]
        exact fun pt hpt hmem => hother pt hpt x hmem hx
  · rw [hrun]
    constructor
    · rintro ⟨r, hr, -⟩
      contradiction
    · exact fun hall => absurd hall.1 hinvalid

/-- Object 4 has become field-insensitive after field 5 has entered the set of pointer 1. -/
def oneField : SVFIR where
  nodes := [1, 4, 5, 6]
  gepObjVar n := if n = 5 then some (4, 1) else none
  GepObjVarMap b i := if b = 4 ∧ i = 1 then some 5 else none
  memToFieldsMap b := if b = 4 then [4, 5] else if b = 6 then [6] else []
  maxFieldOffsetLimit _ := 0
  isConstDataOrConstGlobal _ := false
  isPointer n := n = 1

def ptsOfOne (bits : Finset ℕ) : PTData where
  backing := .Mutable
  ptsMap n := ⟨.SBV, Equiv.refl ℕ, if n = 1 then bits else ∅, ⟨0, 0⟩⟩
  otherPts := []

theorem wellFormed_oneField : WellFormed oneField := by
  have hgep : ∀ x b i, oneField.gepObjVar x = some (b, i) → x = 5 ∧ b = 4 ∧ i = 1 := by
    intro x b i hx
    change (if x = 5 then some ((4 : NodeID), (1 : APOffset)) else none) = some (b, i) at hx
    split at hx
    · rename_i heq
      rw [Option.some.injEq, Prod.mk.injEq] at hx
      exact ⟨heq, hx.1.symm, hx.2.symm⟩
    · contradiction
  refine ⟨⟨fun x b i hx => ?_, fun x b i hx => ?_, fun x b i hx => ?_, fun b i x hx => ?_,
    fun b x hx => ?_⟩, fun b x hx => ?_, by decide⟩
  · obtain ⟨rfl, rfl, -⟩ := hgep x b i hx
    decide
  · obtain ⟨-, rfl, -⟩ := hgep x b i hx
    rfl
  · obtain ⟨rfl, rfl, -⟩ := hgep x b i hx
    decide
  · change (if b = 4 ∧ i = 1 then some (5 : NodeID) else none) = some x at hx
    split at hx
    · rename_i heq
      obtain ⟨rfl, rfl⟩ := heq
      obtain rfl := Option.some.inj hx
      rfl
    · contradiction
  · change x ∈ if b = 4 then [4, 5] else if b = 6 then [6] else [] at hx
    split at hx
    · rename_i heq
      subst heq
      rcases List.mem_pair.mp hx with rfl | rfl
      · exact .inl rfl
      · exact .inr ⟨1, rfl⟩
    · split at hx
      · rename_i heq
        exact .inl ((List.mem_singleton.mp hx).trans heq.symm)
      · contradiction
  · change x ∈ if b = 4 then [4, 5] else if b = 6 then [6] else [] at hx
    split at hx
    · rename_i heq
      subst heq
      rfl
    · split at hx
      · rename_i heq
        subst heq
        rfl
      · contradiction

theorem isCollapsed_oneField {x : NodeID} : IsCollapsed oneField x ↔ x = 5 := by
  constructor
  · rintro ⟨b, i, hx, -⟩
    change (if x = 5 then some ((4 : NodeID), (1 : APOffset)) else none) = some (b, i) at hx
    by_contra hne
    rw [if_neg hne] at hx
    contradiction
  · rintro rfl
    exact ⟨4, 1, rfl, rfl⟩

/-- The field shares its list element with object 6. -/
theorem normalizePointsTo_correct_shared :
    ∃ r, normalizePointsTo oneField (ptsOfOne {5, 6}) = some r ∧
      Normalized oneField r.1 (ptsOfOne {5, 6}) r.2 := by
  have hmem : ∀ n e, e ∈ (ptsOfOne {5, 6}).getPts n → n = 1 := by
    intro n e he
    change e ∈ (if n = 1 then ({5, 6} : Finset ℕ) else ∅) at he
    by_contra hne
    rw [if_neg hne] at he
    exact absurd he (Finset.notMem_empty e)
  refine (normalizePointsTo_correct_iff wellFormed_oneField _).mpr
    ⟨fun n _ _ e he hcollapsed => ?_, fun n hn e he => ?_, fun pt hpt => ?_⟩
  · obtain rfl := hmem n e he
    obtain rfl := isCollapsed_oneField.mp hcollapsed
    refine ⟨6, by decide, by decide, .inl ⟨by decide, fun h => ?_⟩⟩
    exact absurd (isCollapsed_oneField.mp h.1) (by decide)
  · obtain rfl := hmem n e he
    exact absurd (show 1 ∈ oneField.nodes by decide) hn
  · contradiction

/-- The field is alone in its list element, which the enumeration is at when it is erased. -/
theorem normalizePointsTo_incorrect :
    ¬ ∀ (pag : SVFIR) (ptD : PTData), WellFormed pag →
      ∃ r, normalizePointsTo pag ptD = some r ∧ Normalized pag r.1 ptD r.2 := by
  intro hall
  obtain ⟨r, hr, -⟩ := hall oneField (ptsOfOne {5}) wellFormed_oneField
  have hnone : (normalizePointsTo oneField (ptsOfOne {5})).isNone = true := by decide
  rw [hr] at hnone
  contradiction

end SVF.MemoryModel.Normalization
