import SVF.MemoryModel.IncrementalPTData
import SVF.WPA.FlowObjects

namespace SVF.WPA.FlowStep

open Graphs.ConsG Graphs.FieldObjects Graphs.FieldLookup Graphs.ValueFlowGraph
open MemoryModel.DataFlowPTData MemoryModel.LawfulPTData FlowSensitiveSolver FlowObjects
open FlowEquations (Objects NodeClosed StrongUpdate FactOver)
open MemoryModel.PointsToSets (PointsTo)
open UpdatedVars (newIn newOut)

section

variable {D : Type} [DFSets D] [UpdatedVars D] {update : D → NodeID → D × Bool}
  {src dst : NodeID → NodeID → Fact} {cond : D → NodeID → Prop} {used : NodeID → LocID → NodeID → Prop}
  {vars : List NodeID}

theorem unionEach_adds
    (hup : ∀ d, ∀ v ∈ vars, Transfers d (update d v) (src v) (dst v) (cond d v) (used v))
    (hfeed : ∀ v w x y, src w x = dst v y → dst w x = dst v y)
    (huse : ∀ v y loc var obj, dst v y = .dfIn loc var obj → ∀ w, ¬ used w loc var) (d : D) :
    Adds d (unionEach update vars d) {f | ∃ v ∈ vars, ∃ x, src v x ∈ facts d ∧ f = dst v x}
      (fun loc var => ∃ v ∈ vars, used v loc var) := by
  have hfold : ∀ (l : List NodeID) (r : D × Bool), l ⊆ vars →
      Adds d r {f | ∃ v ∈ vars, ∃ x, src v x ∈ facts d ∧ f = dst v x}
        (fun loc var => ∃ v ∈ vars, used v loc var) →
      Adds d (l.foldl (fun r var => ((update r.1 var).1, r.2 || (update r.1 var).2)) r)
        {f | ∃ v ∈ vars, ∃ x, src v x ∈ facts d ∧ f = dst v x}
        (fun loc var => ∃ v ∈ vars, used v loc var) := by
    intro l
    induction l with
    | nil => exact fun _ _ h => h
    | cons w l ih =>
        intro r hl hr
        have hw : w ∈ vars := hl List.mem_cons_self
        rw [List.foldl_cons]
        apply ih _ (fun v hv => hl (List.mem_cons_of_mem w hv))
        have hadds : Adds r.1 (update r.1 w)
            {f | ∃ v ∈ vars, ∃ x, src v x ∈ facts d ∧ f = dst v x}
            (fun loc var => ∃ v ∈ vars, used v loc var) := by
          refine (hup r.1 w hw).adds.weaken ?_ (fun _ _ h => ⟨w, hw, h⟩)
          rintro f ⟨x, hx, rfl⟩
          -- a source that this loop has added is a destination, and stays one
          rcases hr.sound _ hx with hx | ⟨v, hv, y, hy, heq⟩
          · exact ⟨w, hw, x, hx, rfl⟩
          · exact ⟨v, hv, y, hy, hfeed v w x y heq⟩
        refine (hr.trans hadds ?_).weaken (fun _ h => h) (fun _ _ h => h.elim id id)
        rintro loc var obj ⟨v, -, y, -, heq⟩ ⟨w, -, hused⟩
        exact huse v y loc var obj heq.symm w hused
  exact hfold vars (d, false) (fun _ h => h) (Adds.refl d false _ _)

theorem unionEach_covers {K : D → Prop}
    (hup : ∀ d, ∀ v ∈ vars, Transfers d (update d v) (src v) (dst v) (cond d v) (used v))
    (hkeep : ∀ d, ∀ v ∈ vars, K d → K (update d v).1)
    (hcond : ∀ d, ∀ v ∈ vars, K d → ∀ x, src v x ∈ facts d → cond d v ∨ dst v x ∈ facts d)
    {d : D} (hd : K d) {v x : NodeID} (hv : v ∈ vars) (hx : src v x ∈ facts d) :
    dst v x ∈ facts (unionEach update vars d).1 := by
  have hfold : ∀ (l : List NodeID) (r : D × Bool), l ⊆ vars → K r.1 → src v x ∈ facts r.1 →
      v ∈ l ∨ dst v x ∈ facts r.1 → dst v x ∈
        facts (l.foldl (fun r var => ((update r.1 var).1, r.2 || (update r.1 var).2)) r).1 := by
    intro l
    induction l with
    | nil => exact fun _ _ _ _ h => h.resolve_left List.not_mem_nil
    | cons w l ih =>
        intro r hl hr hsrc hmem
        have hw : w ∈ vars := hl List.mem_cons_self
        have hstep := hup r.1 w hw
        rw [List.foldl_cons]
        refine ih _ (fun u hu => hl (List.mem_cons_of_mem w hu)) (hkeep r.1 w hw hr)
          (hstep.adds.mono hsrc) ?_
        rcases hmem with hmem | hdst
        · rcases List.mem_cons.mp hmem with rfl | hmem
          · rcases hcond r.1 v hw hr x hsrc with hc | hdst
            · exact .inr (hstep.covers hc x hsrc)
            · exact .inr (hstep.adds.mono hdst)
          · exact .inl hmem
        · exact .inr (hstep.adds.mono hdst)
  exact hfold vars (d, false) (fun _ h => h) hd hx (.inl hv)

end

section

variable {inp : Input} {idx : Option APOffset}

theorem gepTarget_unique {pag : SVFIR} {o x y : NodeID} (hx : GepTarget inp pag idx o x)
    (hy : GepTarget inp pag idx o y) : x = y := by
  cases idx with
  | none =>
      simp only [GepTarget] at hx hy
      rw [hx, hy]
  | some offset =>
      simp only [GepTarget] at hx hy
      split at hx
      · rename_i hcond
        rw [if_pos hcond] at hy
        rw [hx, hy]
      · rename_i hcond
        rw [if_neg hcond, hx, Prod.mk.injEq] at hy
        exact hy.2

def Shrinks (f g : NodeID → ℕ) : Prop := ∀ b, g b = f b ∨ g b = 0

theorem Shrinks.trans {f g k : NodeID → ℕ} (h : Shrinks f g) (h' : Shrinks g k) : Shrinks f k := by
  intro b
  rcases h' b with heq | hz
  · rw [heq]
    exact h b
  · exact .inr hz

/-- Limits that are the same in the end have been the same all along. -/
theorem Shrinks.between {f g k : NodeID → ℕ} (h : Shrinks f g) (h' : Shrinks g k) (heq : k = f) :
    g = f := by
  funext b
  rcases h b with hb | hz
  · exact hb
  · rcases h' b with hb | hb
    · rw [← heq, hb]
    · rw [hz, ← heq, hb]

theorem gepObj_variant (opts : Options) (alloc : NodeIDAllocator) (pag : SVFIR)
    (tmpDstPts : PointsTo) (o : NodeID) : gepObj opts alloc none (pag, tmpDstPts) o =
      if pag.isBlkObjOrConstantObj o then (pag, tmpDstPts.set o)
      else (pag.setObjFieldInsensitive o, tmpDstPts.set (pag.getFIObjVar o)) := rfl

theorem gepObj_normal (opts : Options) (alloc : NodeIDAllocator) (offset : APOffset) (pag : SVFIR)
    (tmpDstPts : PointsTo) (o : NodeID) : gepObj opts alloc (some offset) (pag, tmpDstPts) o =
      if pag.isBlkObjOrConstantObj o || pag.isFieldInsensitive o then (pag, tmpDstPts.set o)
      else ((pag.getGepObjVar opts alloc o offset).1,
        tmpDstPts.set (pag.getGepObjVar opts alloc o offset).2) := rfl

theorem gepObj_shrinks (pag : SVFIR) (tmpDstPts : PointsTo) (o : NodeID) :
    Shrinks pag.maxFieldOffsetLimit
      (gepObj inp.opts inp.alloc idx (pag, tmpDstPts) o).1.maxFieldOffsetLimit := by
  cases idx with
  | none =>
      rw [gepObj_variant]
      split
      · exact fun _ => .inl rfl
      · intro b
        change Function.update pag.maxFieldOffsetLimit (pag.getBaseObjVar o) 0 b = _ ∨
          Function.update pag.maxFieldOffsetLimit (pag.getBaseObjVar o) 0 b = 0
        by_cases hb : b = pag.getBaseObjVar o
        · exact .inr (by rw [hb]; exact Function.update_self _ _ _)
        · exact .inl (Function.update_of_ne hb _ _)
  | some offset =>
      rw [gepObj_normal]
      split
      · exact fun _ => .inl rfl
      · exact fun b => .inl (congrFun (getGepObjVar_limit inp.opts inp.alloc pag o offset) b)

theorem gepObj_spec {pag : SVFIR} {tmpDstPts : PointsTo} {o : NodeID} (h : Sound pag)
    (ho : o ∈ pag.nodes) (hfix : (gepObj inp.opts inp.alloc idx (pag, tmpDstPts)
      o).1.maxFieldOffsetLimit = pag.maxFieldOffsetLimit) :
    ∃ o' pag', gepObj inp.opts inp.alloc idx (pag, tmpDstPts) o = (pag', tmpDstPts.set o') ∧
      Sound pag' ∧ Grown pag pag' ∧ GepTarget inp pag' idx o o' := by
  cases idx with
  | none =>
      rw [gepObj_variant] at hfix ⊢
      by_cases hcond : pag.isBlkObjOrConstantObj o = true
      · refine ⟨o, pag, by rw [if_pos hcond], h, Grown.refl pag, ?_⟩
        simp only [GepTarget, hcond, if_true]
      · rw [if_neg hcond] at hfix ⊢
        have hpag : pag.setObjFieldInsensitive o = pag :=
          congrArg (fun f => { pag with maxFieldOffsetLimit := f }) hfix
        rw [hpag]
        refine ⟨pag.getFIObjVar o, pag, rfl, h, Grown.refl pag, ?_⟩
        simp only [GepTarget, if_neg hcond]
  | some offset =>
      rw [gepObj_normal]
      by_cases hcond : (pag.isBlkObjOrConstantObj o || pag.isFieldInsensitive o) = true
      · refine ⟨o, pag, by rw [if_pos hcond], h, Grown.refl pag, ?_⟩
        simp only [GepTarget, hcond, if_true]
      · rw [if_neg hcond]
        have hlookup := getGepObjVar_lookup inp.opts inp.alloc h ho offset
        refine ⟨_, _, rfl, hlookup.sound, hlookup.grown, ?_⟩
        simp only [GepTarget]
        rw [isBlkObjOrConstantObj_grown hlookup.grown ho,
          isFieldInsensitive_grown hlookup.grown ho, if_neg hcond]
        exact hlookup.again _ (Grown.refl _)

theorem gepObjs_shrinks (l : List NodeID) (r : SVFIR × PointsTo) :
    Shrinks r.1.maxFieldOffsetLimit
      (l.foldl (gepObj inp.opts inp.alloc idx) r).1.maxFieldOffsetLimit := by
  induction l generalizing r with
  | nil => exact fun b => .inl rfl
  | cons o l ih => exact (gepObj_shrinks r.1 r.2 o).trans (ih _)

theorem gepObjs_spec {l : List NodeID} {pag : SVFIR} {tmpDstPts : PointsTo} (h : Sound pag)
    (hl : ∀ o ∈ l, o ∈ pag.nodes)
    (hfix : (l.foldl (gepObj inp.opts inp.alloc idx) (pag, tmpDstPts)).1.maxFieldOffsetLimit =
      pag.maxFieldOffsetLimit) :
    ∃ pag' pts, l.foldl (gepObj inp.opts inp.alloc idx) (pag, tmpDstPts) = (pag', pts) ∧
      Sound pag' ∧ Grown pag pag' ∧ (∀ o ∈ l, ∃ x, GepTarget inp pag' idx o x) ∧
      ∀ x, x ∈ pts ↔ x ∈ tmpDstPts ∨ ∃ o ∈ l, GepTarget inp pag' idx o x := by
  induction l generalizing pag tmpDstPts with
  | nil => exact ⟨pag, tmpDstPts, rfl, h, Grown.refl pag, by simp, fun x => by simp⟩
  | cons o l ih =>
      rw [List.foldl_cons] at hfix ⊢
      have hfirst := (gepObj_shrinks pag tmpDstPts o).between
        (gepObjs_shrinks l (gepObj inp.opts inp.alloc idx (pag, tmpDstPts) o)) hfix
      obtain ⟨o', pag₁, heq, hsound, hgrown, htarget⟩ :=
        gepObj_spec h (hl o List.mem_cons_self) hfirst
      rw [heq] at hfix hfirst ⊢
      have hl₁ : ∀ u ∈ l, u ∈ pag₁.nodes :=
        fun u hu => hgrown.nodes u (hl u (List.mem_cons_of_mem o hu))
      obtain ⟨pag', pts, hfold, hsound', hgrown', htargets, hmem⟩ :=
        ih hsound hl₁ (hfix.trans hfirst.symm)
      have ho : o ∈ pag₁.nodes := hgrown.nodes o (hl o List.mem_cons_self)
      have htarget' := gepTarget_grown hgrown' ho hsound htarget
      refine ⟨pag', pts, hfold, hsound', hgrown.trans hgrown',
        List.forall_mem_cons.mpr ⟨⟨o', htarget'⟩, htargets⟩, fun x => ?_⟩
      have hiff : x = o' ↔ GepTarget inp pag' idx o x :=
        ⟨fun hx => hx ▸ htarget', fun hx => gepTarget_unique hx htarget'⟩
      rw [hmem, MemoryModel.PointsToSets.mem_set, List.exists_mem_cons_iff, hiff, or_assoc]

end

/-- What has become of a fact of an IN set at its node: a load has passed it to
its destination, a store to its OUT set. -/
def Consumed (node : SVFGNode) (n v x : NodeID) (F : Set Fact) : Prop :=
  match node with
  | .load dst _ => .pts dst x ∈ F
  | .store _ _ => .dfOut n v x ∈ F
  | _ => False

theorem Consumed.mono {node : SVFGNode} {n v x : NodeID} {F F' : Set Fact} (hsub : F ⊆ F')
    (h : Consumed node n v x F) : Consumed node n v x F' := by
  cases node with
  | load dst src => exact hsub h
  | store dst src => exact hsub h
  | _ => exact h

def Flags {D : Type} [DFSets D] [UpdatedVars D] (node : NodeID → SVFGNode) (d : D) : Prop :=
  ∀ n v x, .dfIn n v x ∈ facts d → newIn d n v ∨ Consumed (node n) n v x (facts d)

theorem Flags.adds {D : Type} [DFSets D] [UpdatedVars D] {node : NodeID → SVFGNode} {d : D}
    {r : D × Bool} {new : Set Fact} {used : LocID → NodeID → Prop} (h : Flags node d)
    (hadds : Adds d r new used)
    (hused : ∀ n v x, used n v → newIn d n v → .dfIn n v x ∈ facts d →
      Consumed (node n) n v x (facts r.1)) : Flags node r.1 := by
  intro n v x hx
  by_cases hold : .dfIn n v x ∈ facts d
  · rcases h n v x hold with hnew | hcons
    · rcases hadds.keepIn n v hnew with hkept | hu
      · exact .inl hkept
      · exact .inr (hused n v x hu hnew hold)
    · exact .inr (hcons.mono hadds.mono)
  · exact .inl (hadds.flagIn n v x hx hold)

def Output (node : SVFGNode) (n : NodeID) : Fact → Prop
  | .pts v _ => node.def? = some v
  | .dfIn _ _ _ => False
  | .dfOut l _ _ => l = n ∧ node.isStore = true

variable {D : Type} [DFPTData D] [UpdatedVars D]

structure Ready (inp : Input) (s : FlowSensitive D) : Prop where
  wellFormed : WellFormed inp.svfg s.pag
  sound : Sound s.pag
  factsOver : ∀ f ∈ facts s.ptD, FactOver (nodeSet s.pag) f
  flags : Flags inp.svfg.node s.ptD

structure Processed (inp : Input) (n : NodeID) (s : FlowSensitive D) (r : FlowSensitive D × Bool) :
    Prop where
  sound : Sound r.1.pag
  grown : Grown s.pag r.1.pag
  worklist : r.1.worklist = s.worklist
  mono : facts s.ptD ⊆ facts r.1.ptD
  output : ∀ f ∈ facts r.1.ptD, f ∉ facts s.ptD → Output (inp.svfg.node n) n f ∧ r.2 = true
  keepOut : ∀ l v, newOut s.ptD l v → newOut r.1.ptD l v
  flagOut : ∀ l v x, .dfOut l v x ∈ facts r.1.ptD → .dfOut l v x ∉ facts s.ptD →
    newOut r.1.ptD l v
  flags : Flags inp.svfg.node r.1.ptD
  closed : NodeClosed (pagObjects inp r.1.pag) (inp.svfg.node n) n (facts s.ptD) (facts r.1.ptD)
  least : ∀ T, facts s.ptD ⊆ T →
    NodeClosed (pagObjects inp r.1.pag) (inp.svfg.node n) n (facts s.ptD) T → facts r.1.ptD ⊆ T

section

variable {inp : Input} {n : NodeID} {s : FlowSensitive D}

theorem processed_of_adds (h : Ready inp s) {pag : SVFIR} (hsound : Sound pag)
    (hgrown : Grown s.pag pag) {r : D × Bool} {new : Set Fact} {used : LocID → NodeID → Prop}
    (hadds : Adds s.ptD r new used)
    (hout : ∀ f ∈ new, Output (inp.svfg.node n) n f)
    (hused : ∀ l v x, used l v → newIn s.ptD l v → .dfIn l v x ∈ facts s.ptD →
      Consumed (inp.svfg.node l) l v x (facts r.1))
    (hclosed : NodeClosed (pagObjects inp pag) (inp.svfg.node n) n (facts s.ptD) (facts r.1))
    (hleast : ∀ T, facts s.ptD ⊆ T →
      NodeClosed (pagObjects inp pag) (inp.svfg.node n) n (facts s.ptD) T → facts r.1 ⊆ T) :
    Processed inp n s (FlowSensitive.update { s with pag := pag } r) where
  sound := hsound
  grown := hgrown
  worklist := rfl
  mono := hadds.mono
  output f hf hn := ⟨hout f ((hadds.sound f hf).resolve_left hn), hadds.changed f hf hn⟩
  keepOut := hadds.keepOut
  flagOut := hadds.flagOut
  flags := h.flags.adds hadds hused
  closed := hclosed
  least := hleast

theorem processed_skip (h : Ready inp s) (changed : Bool)
    (hclosed : NodeClosed (pagObjects inp s.pag) (inp.svfg.node n) n (facts s.ptD) (facts s.ptD)) :
    Processed inp n s (s, changed) where
  sound := h.sound
  grown := Grown.refl s.pag
  worklist := rfl
  mono _ hf := hf
  output _ hf hn := absurd hf hn
  keepOut _ _ hl := hl
  flagOut _ _ _ hf hn := absurd hf hn
  flags := h.flags
  closed := hclosed
  least _ hT _ _ hf := hT hf

variable [LawfulDFPTData D] (h : Ready inp s)

include h

theorem processAddr_processed {dst src : NodeID} (hnode : inp.svfg.node n = .addr dst src) :
    Processed inp n s (s.processAddr dst src) := by
  have hadds := LawfulDFPTData.addPts s.ptD dst ((pagObjects inp s.pag).addr src)
  refine processed_of_adds h h.sound (Grown.refl _) hadds ?_ ?_ ?_ ?_
  · rintro f rfl
    rw [hnode]
    rfl
  · exact fun _ _ _ hu => hu.elim
  · rw [hnode]
    exact LawfulDFPTData.addPts_covers s.ptD dst _
  · intro T hT hcl
    rw [hnode] at hcl
    exact hadds.subset hT (Set.singleton_subset_iff.mpr hcl)

theorem processCopy_processed {dst src : NodeID} (hnode : inp.svfg.node n = .copy dst src) :
    Processed inp n s (s.processCopy dst src) := by
  have hadds := LawfulDFPTData.unionPts s.ptD dst (s.getPts src)
  refine processed_of_adds h h.sound (Grown.refl _) hadds ?_ ?_ ?_ ?_
  · rintro f ⟨obj, -, rfl⟩
    rw [hnode]
    rfl
  · exact fun _ _ _ hu => hu.elim
  · rw [hnode]
    exact LawfulDFPTData.unionPts_covers s.ptD dst (s.getPts src)
  · intro T hT hcl
    rw [hnode] at hcl
    refine hadds.subset hT ?_
    rintro f ⟨obj, hobj, rfl⟩
    exact hcl obj hobj

omit h in
theorem unionPts_transfers (d : D) (dst src : NodeID) :
    Transfers d (DFPTData.unionPts d dst (DFSets.getPts d src)) (.pts src) (.pts dst) True
      (fun _ _ => False) :=
  ⟨LawfulDFPTData.unionPts d dst _, fun _ => LawfulDFPTData.unionPts_covers d dst _⟩

theorem processPhi_processed {res : NodeID} {opVers : List NodeID}
    (hnode : inp.svfg.node n = .phi res opVers) : Processed inp n s (s.processPhi res opVers) := by
  have hup : ∀ (d : D), ∀ v ∈ opVers, Transfers d (DFPTData.unionPts d res (DFSets.getPts d v))
      (.pts v) (.pts res) True (fun _ _ => False) := fun d v _ => unionPts_transfers d res v
  have hadds := unionEach_adds hup (fun v w x y heq => by cases heq; rfl)
    (fun _ _ _ _ _ _ _ => id) s.ptD
  refine processed_of_adds h h.sound (Grown.refl _) hadds ?_ ?_ ?_ ?_
  · rintro f ⟨v, -, x, -, rfl⟩
    rw [hnode]
    rfl
  · rintro _ _ _ ⟨_, _, hu⟩
    exact hu.elim
  · rw [hnode]
    intro v hv o ho
    exact unionEach_covers (K := fun _ => True) hup (fun _ _ _ _ => trivial)
      (fun _ _ _ _ _ _ => .inl trivial) trivial hv ho
  · intro T hT hcl
    rw [hnode] at hcl
    refine hadds.subset hT ?_
    rintro f ⟨v, hv, x, hx, rfl⟩
    exact hcl v hv x hx

theorem processGep_processed {dst src : NodeID} {idx : Option APOffset}
    (hnode : inp.svfg.node n = .gep dst src idx)
    (hfix : (s.processGep inp dst src idx).1.pag.maxFieldOffsetLimit =
      s.pag.maxFieldOffsetLimit) : Processed inp n s (s.processGep inp dst src idx) := by
  have hnodes : ∀ o ∈ (s.getPts src).elems, o ∈ s.pag.nodes := fun o ho => h.factsOver (.pts src o) ho
  obtain ⟨pag', pts, hfold, hsound, hgrown, htargets, hmem⟩ := gepObjs_spec h.sound hnodes hfix
  have hpts : ∀ x, x ∈ pts ↔ ∃ o, .pts src o ∈ facts s.ptD ∧ GepTarget inp pag' idx o x := by
    intro x
    rw [hmem]
    exact or_iff_right (MemoryModel.PointsToSets.notMem_empty x)
  have hadds := LawfulDFPTData.unionPts s.ptD dst pts
  rw [FlowSensitive.processGep, hfold]
  refine processed_of_adds h hsound hgrown hadds ?_ ?_ ?_ ?_
  · rintro f ⟨obj, -, rfl⟩
    rw [hnode]
    rfl
  · exact fun _ _ _ hu => hu.elim
  · rw [hnode]
    intro o ho
    obtain ⟨x, hx⟩ := htargets o ho
    exact ⟨x, hx, LawfulDFPTData.unionPts_covers s.ptD dst pts x ((hpts x).mpr ⟨o, ho, hx⟩)⟩
  · intro T hT hcl
    rw [hnode] at hcl
    refine hadds.subset hT ?_
    rintro f ⟨x, hx, rfl⟩
    obtain ⟨o, ho, htarget⟩ := (hpts x).mp hx
    obtain ⟨y, hy, hyT⟩ := hcl o ho
    rwa [gepTarget_unique htarget hy]

omit h in
theorem updateTLVPts_flags {node : NodeID → SVFGNode} {d : D} {dst src : NodeID}
    (hnode : node n = .load dst src) (hd : Flags node d) (v : NodeID) :
    Flags node (DFPTData.updateTLVPts d n v dst).1 := by
  have htransfers := LawfulDFPTData.updateTLVPts d n v dst
  refine hd.adds htransfers.adds ?_
  rintro l u x ⟨rfl, rfl⟩ hnew hx
  rw [hnode]
  exact htransfers.covers hnew x hx

theorem processLoad_processed (hn : n ∈ inp.svfg.nodes) {dst src : NodeID}
    (hnode : inp.svfg.node n = .load dst src) : Processed inp n s (s.processLoad n dst src) := by
  rw [FlowSensitive.processLoad, if_pos (h.wellFormed.loaded n hn dst src hnode)]
  generalize hl : ((s.getPts src).elems.filter (!s.pag.isConstantObj ·)).flatMap
    (objAndFields s.pag) = vars
  have hvars : ∀ v, v ∈ vars ↔ ∃ o, .pts src o ∈ facts s.ptD ∧ ¬ s.pag.isConstantObj o = true ∧
      v ∈ objAndFields s.pag o := by
    intro v
    rw [← hl, List.mem_flatMap]
    refine exists_congr fun o => ?_
    rw [List.mem_filter, and_assoc, Bool.not_eq_true, Bool.not_eq_true']
    exact Iff.rfl
  have hup : ∀ (d : D), ∀ v ∈ vars, Transfers d (DFPTData.updateTLVPts d n v dst) (.dfIn n v)
      (.pts dst) (newIn d n v) (fun l u => l = n ∧ u = v) :=
    fun d v _ => LawfulDFPTData.updateTLVPts d n v dst
  have hadds := unionEach_adds hup (fun _ _ _ _ heq => by cases heq)
    (fun _ _ _ _ _ heq => by cases heq) s.ptD
  have hcovers : ∀ v x, v ∈ vars → .dfIn n v x ∈ facts s.ptD → .pts dst x ∈ facts (unionEach
      (fun ptD var => DFPTData.updateTLVPts ptD n var dst) vars s.ptD).1 := by
    intro v x hv hx
    refine unionEach_covers (K := Flags inp.svfg.node) hup
      (fun d u _ hd => updateTLVPts_flags hnode hd u) (fun d u _ hd y hy => ?_) h.flags hv hx
    have hflag := hd n u y hy
    rwa [hnode] at hflag
  refine processed_of_adds h h.sound (Grown.refl _) hadds ?_ ?_ ?_ ?_
  · rintro f ⟨v, -, x, -, rfl⟩
    rw [hnode]
    rfl
  · rintro l v x ⟨u, hu, rfl, rfl⟩ - hx
    rw [hnode]
    exact hcovers v x hu hx
  · rw [hnode]
    exact fun o ho hc v hv x hx => hcovers v x ((hvars v).mpr ⟨o, ho, hc, hv⟩) hx
  · intro T hT hcl
    rw [hnode] at hcl
    refine hadds.subset hT ?_
    rintro f ⟨v, hv, x, hx, rfl⟩
    obtain ⟨o, ho, hc, hvo⟩ := (hvars v).mp hv
    exact hcl o ho hc v hvo x hx

def written (s : FlowSensitive D) (n dst src : NodeID) : Set Fact :=
  {f | ∃ o, .pts dst o ∈ facts s.ptD ∧ ¬ s.pag.isConstantObj o = true ∧
    ∃ x, .pts src x ∈ facts s.ptD ∧ f = .dfOut n o x}

omit h in
theorem storePts_adds {dst src : NodeID} (hpointer : s.pag.isPointer src = true) :
    ∃ r : D × Bool, s.storePts n dst src = s.update r ∧
      Adds s.ptD r (written s n dst src) (fun _ _ => False) ∧
      written s n dst src ⊆ facts r.1 := by
  rw [FlowSensitive.storePts]
  split
  · generalize hl : (s.getPts dst).elems.filter (!s.pag.isConstantObj ·) = vars
    have hvars : ∀ o, o ∈ vars ↔ .pts dst o ∈ facts s.ptD ∧ ¬ s.pag.isConstantObj o = true := by
      intro o
      rw [← hl, List.mem_filter, Bool.not_eq_true, Bool.not_eq_true']
      exact Iff.rfl
    have hup : ∀ (d : D), ∀ v ∈ vars, Transfers d (DFPTData.updateATVPts d src n v) (.pts src)
        (.dfOut n v) True (fun _ _ => False) :=
      fun d v _ => LawfulDFPTData.updateATVPts d src n v
    have hadds := unionEach_adds hup (fun _ _ _ _ heq => by cases heq)
      (fun _ _ _ _ _ heq => by cases heq) s.ptD
    refine ⟨_, rfl, hadds.weaken ?_ (fun _ _ ⟨_, _, hu⟩ => hu), ?_⟩
    · rintro f ⟨o, ho, x, hx, rfl⟩
      exact ⟨o, ((hvars o).mp ho).1, ((hvars o).mp ho).2, x, hx, rfl⟩
    · rintro f ⟨o, ho, hc, x, hx, rfl⟩
      exact unionEach_covers (K := fun _ => True) hup
        (fun _ _ _ _ => trivial) (fun _ _ _ _ _ _ => .inl trivial) trivial
        ((hvars o).mpr ⟨ho, hc⟩) hx
  · rename_i hguard
    refine ⟨(s.ptD, false), rfl, Adds.refl s.ptD false _ _, ?_⟩
    rintro f ⟨o, -, -, x, hx, -⟩
    refine absurd ⟨fun hnil => ?_, hpointer⟩ hguard
    have hmem : x ∈ (s.getPts src).elems := hx
    rw [hnil] at hmem
    exact List.not_mem_nil hmem

omit h [LawfulDFPTData D] [UpdatedVars D] in
theorem isStrongUpdate_iff {dst v : NodeID} : s.isStrongUpdate inp dst = some v ↔
    (∃ o, .pts dst o ∈ facts s.ptD) ∧ StrongUpdate (pagObjects inp s.pag) (facts s.ptD) dst v := by
  have hsingle : (s.getPts dst).elems = [v] ↔
      (∃ o, .pts dst o ∈ facts s.ptD) ∧ ∀ o, .pts dst o ∈ facts s.ptD → o = v := by
    rw [MemoryModel.PointsToSets.elems_eq_singleton_iff]
    exact and_congr_left fun _ => ⟨List.exists_mem_of_ne_nil _, fun ⟨_, ho⟩ => List.ne_nil_of_mem ho⟩
  rw [StrongUpdate, and_left_comm, ← hsingle, FlowSensitive.isStrongUpdate]
  split
  · rename_i o heq
    rw [heq]
    simp only [List.cons.injEq, and_true]
    constructor
    · intro hsome
      split at hsome
      · rename_i hcond
        cases hsome
        simp only [Bool.and_eq_true, Bool.not_eq_true'] at hcond
        exact ⟨⟨hcond.1.1.1, hcond.1.1.2, hcond.1.2, hcond.2⟩, rfl⟩
      · contradiction
    · rintro ⟨⟨hheap, harray, hfi, hrec⟩, rfl⟩
      simp [hheap, harray, hfi, hrec]
  · rename_i hne
    exact iff_of_false (by simp) (fun hv => hne v hv.2)

omit h in
theorem mergeInToOut_adds (n dst : NodeID) :
    ∃ r : D × Bool, s.mergeInToOut inp n dst = s.update r ∧
      Adds s.ptD r {f | ∃ v x, s.isStrongUpdate inp dst ≠ some v ∧ .dfIn n v x ∈ facts s.ptD ∧
        f = .dfOut n v x} (fun l v => l = n ∧ s.isStrongUpdate inp dst ≠ some v) ∧
      ∀ v, s.isStrongUpdate inp dst ≠ some v → newIn s.ptD n v → ∀ x, .dfIn n v x ∈ facts s.ptD →
        .dfOut n v x ∈ facts r.1 := by
  have hcase : ∀ (singleton : NodeID) (strong : Bool),
      (∀ v, ¬ (strong = true ∧ v = singleton) ↔ s.isStrongUpdate inp dst ≠ some v) →
      Adds s.ptD (DFPTData.updateAllDFOutFromIn s.ptD n singleton strong)
        {f | ∃ v x, s.isStrongUpdate inp dst ≠ some v ∧ .dfIn n v x ∈ facts s.ptD ∧
          f = .dfOut n v x} (fun l v => l = n ∧ s.isStrongUpdate inp dst ≠ some v) ∧
      ∀ v, s.isStrongUpdate inp dst ≠ some v → newIn s.ptD n v → ∀ x, .dfIn n v x ∈ facts s.ptD →
        .dfOut n v x ∈ facts (DFPTData.updateAllDFOutFromIn s.ptD n singleton strong).1 := by
    intro singleton strong hiff
    simp only [← hiff]
    exact ⟨LawfulDFPTData.updateAllDFOutFromIn s.ptD n singleton strong,
      LawfulDFPTData.updateAllDFOutFromIn_covers s.ptD n singleton strong⟩
  unfold FlowSensitive.mergeInToOut
  split
  · rename_i singleton hstrong
    exact ⟨_, rfl, hcase singleton true (fun v => by simp [hstrong, eq_comm])⟩
  · rename_i hstrong
    exact ⟨_, rfl, hcase 0 false (fun v => by simp [hstrong])⟩

theorem processStore_processed (hn : n ∈ inp.svfg.nodes) {dst src : NodeID}
    (hnode : inp.svfg.node n = .store dst src) :
    Processed inp n s (s.processStore inp n dst src) := by
  rw [FlowSensitive.processStore]
  split
  · rename_i hempty
    have hnone : ∀ o, .pts dst o ∉ facts s.ptD := by
      intro o ho
      have hmem : o ∈ (s.getPts dst).elems := ho
      rw [hempty] at hmem
      exact List.not_mem_nil hmem
    refine processed_skip h false ?_
    rw [hnode]
    exact ⟨fun o ho => absurd ho (hnone o), fun ⟨o, ho⟩ => absurd ho (hnone o)⟩
  · rename_i hpts
    obtain ⟨o₀, ho₀⟩ := List.exists_mem_of_ne_nil _ hpts
    obtain ⟨r₁, hr₁, hadds₁, hwritten⟩ := storePts_adds (n := n)
      (h.wellFormed.stored n hn dst src hnode)
    obtain ⟨r₂, hr₂, hadds₂, hcovers⟩ := mergeInToOut_adds (s := (s.update r₁).1) n dst
    rw [hr₁]
    change Processed inp n s (((s.update r₁).1.mergeInToOut inp n dst).1,
      r₁.2 || ((s.update r₁).1.mergeInToOut inp n dst).2)
    rw [hr₂]
    change Processed inp n s (s.update (r₂.1, r₁.2 || r₂.2))
    -- the first part adds facts of OUT sets only
    have hsame : ∀ f, (∀ v x, f ≠ .dfOut n v x) → (f ∈ facts r₁.1 ↔ f ∈ facts s.ptD) := by
      refine fun f hf => ⟨fun hr => (hadds₁.sound f hr).resolve_right ?_, fun hs => hadds₁.mono hs⟩
      rintro ⟨o, -, -, x, -, heq⟩
      exact hf o x heq
    have hstrong : ∀ v, (s.update r₁).1.isStrongUpdate inp dst ≠ some v ↔
        ¬ StrongUpdate (pagObjects inp s.pag) (facts s.ptD) dst v := by
      intro v
      rw [ne_eq, isStrongUpdate_iff, not_iff_not]
      have hdst : ∀ o, .pts dst o ∈ facts r₁.1 ↔ .pts dst o ∈ facts s.ptD :=
        fun o => hsame _ (fun _ _ heq => by cases heq)
      constructor
      · exact fun hs => ⟨hs.2.1, fun o ho => hs.2.2 o ((hdst o).mpr ho)⟩
      · exact fun hs => ⟨⟨o₀, (hdst o₀).mpr ho₀⟩, hs.1, fun o ho => hs.2 o ((hdst o).mp ho)⟩
    have hin : ∀ v x, .dfIn n v x ∈ facts r₁.1 ↔ .dfIn n v x ∈ facts s.ptD :=
      fun v x => hsame _ (fun _ _ heq => by cases heq)
    have hflags₁ : Flags inp.svfg.node r₁.1 := h.flags.adds hadds₁ (fun _ _ _ hu => hu.elim)
    have hkept : ∀ v, ¬ StrongUpdate (pagObjects inp s.pag) (facts s.ptD) dst v → ∀ x,
        .dfIn n v x ∈ facts s.ptD → .dfOut n v x ∈ facts r₂.1 := by
      intro v hweak x hx
      rcases hflags₁ n v x ((hin v x).mpr hx) with hnew | hcons
      · exact hcovers v ((hstrong v).mpr hweak) hnew x ((hin v x).mpr hx)
      · rw [hnode] at hcons
        exact hadds₂.mono hcons
    have hadds : Adds s.ptD (r₂.1, r₁.2 || r₂.2) {f | ∃ v x, f = .dfOut n v x}
        (fun l v => False ∨ l = n ∧ (s.update r₁).1.isStrongUpdate inp dst ≠ some v) := by
      refine (hadds₁.weaken ?_ (fun _ _ hu => hu)).trans (hadds₂.weaken ?_ (fun _ _ hu => hu)) ?_
      · rintro f ⟨o, -, -, x, -, rfl⟩
        exact ⟨o, x, rfl⟩
      · rintro f ⟨v, x, -, -, rfl⟩
        exact ⟨v, x, rfl⟩
      · rintro l v x ⟨_, _, heq⟩
        cases heq
    refine processed_of_adds h h.sound (Grown.refl _) hadds ?_ ?_ ?_ ?_
    · rintro f ⟨v, x, rfl⟩
      rw [hnode]
      exact ⟨rfl, rfl⟩
    · rintro l v x (hfalse | ⟨rfl, hweak⟩) - hx
      · exact hfalse.elim
      · rw [hnode]
        exact hkept v ((hstrong v).mp hweak) x hx
    · rw [hnode]
      refine ⟨fun o ho hc x hx => hadds₂.mono (hwritten ⟨o, ho, hc, x, hx, rfl⟩), ?_⟩
      exact fun _ v hweak x hx => hkept v hweak x hx
    · intro T hT hcl
      rw [hnode] at hcl
      refine hadds₂.subset (hadds₁.subset hT ?_) ?_
      · rintro f ⟨o, ho, hc, x, hx, rfl⟩
        exact hcl.1 o ho hc x hx
      · rintro f ⟨v, x, hweak, hx, rfl⟩
        exact hcl.2 ⟨o₀, ho₀⟩ v ((hstrong v).mp hweak) x ((hin v x).mp hx)

/-- The nodes that stand for definitions elsewhere; their edges do the work. -/
def IsTransit (node : SVFGNode) : Prop :=
  node.isMSSA = true ∨ node.isInterprocedural = true ∨ (∃ p, node = .actualParm p) ∨
    ∃ p, node = .formalRet p

theorem processSVFGNode_processed (hn : n ∈ inp.svfg.nodes)
    (hfix : (s.processSVFGNode inp n).1.pag.maxFieldOffsetLimit = s.pag.maxFieldOffsetLimit) :
    Processed inp n s (s.processSVFGNode inp n) := by
  rw [FlowSensitive.processSVFGNode] at hfix ⊢
  cases hnode : inp.svfg.node n with
  | addr dst src => exact processAddr_processed h hnode
  | copy dst src => exact processCopy_processed h hnode
  | gep dst src idx =>
      rw [hnode] at hfix
      exact processGep_processed h hnode hfix
  | load dst src => exact processLoad_processed h hn hnode
  | store dst src => exact processStore_processed h hn hnode
  | phi res opVers => exact processPhi_processed h hnode
  | _ => exact processed_skip h _ (by rw [hnode]; trivial)

omit h [LawfulDFPTData D] [UpdatedVars D] in
theorem processSVFGNode_transit (htransit : IsTransit (inp.svfg.node n)) :
    (s.processSVFGNode inp n).2 = true := by
  rw [FlowSensitive.processSVFGNode]
  rcases htransit with hmssa | hinter | ⟨p, hp⟩ | ⟨p, hp⟩
  · cases hnode : inp.svfg.node n with
    | mssaPhi | formalIN | formalOUT | actualIN | actualOUT => rfl
    | _ => simp [hnode, SVFGNode.isMSSA] at hmssa
  · cases hnode : inp.svfg.node n with
    | formalParm p => rfl
    | actualRet p => rfl
    | _ => simp [hnode, SVFGNode.isInterprocedural] at hinter
  · rw [hp]
  · rw [hp]

end

end SVF.WPA.FlowStep
