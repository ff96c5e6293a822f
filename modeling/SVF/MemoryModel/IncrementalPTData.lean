import SVF.MemoryModel.LawfulPTData

namespace SVF.MemoryModel.IncrementalPTData

open PointsToSets DataFlowPTData LawfulPTData Util.OrderedSets
open UpdatedVars (newIn newOut)

section

variable {D : Type} [DFSets D] [UpdatedVars D] {update : D → NodeID → D × Bool} {loc : LocID}
  {singleton : NodeID} {strongUpdates : Bool}

/-- What the loop over the variables of a location copies from IN to OUT. -/
abbrev outOfIn (d : D) (loc : LocID) (singleton : NodeID) (strongUpdates : Bool) : Set Fact :=
  {f | ∃ var obj, ¬ (strongUpdates = true ∧ var = singleton) ∧ .dfIn loc var obj ∈ facts d ∧
    f = .dfOut loc var obj}

abbrev usedAt (loc : LocID) (singleton : NodeID) (strongUpdates : Bool) (l : LocID)
    (var : NodeID) : Prop :=
  l = loc ∧ ¬ (strongUpdates = true ∧ var = singleton)

variable (hup : ∀ d var, Transfers d (update d var) (.dfIn loc var) (.dfOut loc var)
  (newIn d loc var) (fun l v => l = loc ∧ v = var))

include hup

theorem updateEach_adds (vars : List NodeID) (d : D) :
    Adds d (updateEach update singleton strongUpdates vars d)
      (outOfIn d loc singleton strongUpdates) (usedAt loc singleton strongUpdates) := by
  have hfold : ∀ r : D × Bool,
      Adds d r (outOfIn d loc singleton strongUpdates) (usedAt loc singleton strongUpdates) →
      Adds d (vars.foldl (fun r var => if strongUpdates && var == singleton then r
        else ((update r.1 var).1, r.2 || (update r.1 var).2)) r)
        (outOfIn d loc singleton strongUpdates) (usedAt loc singleton strongUpdates) := by
    induction vars with
    | nil => exact fun _ h => h
    | cons var vars ih =>
        intro r hr
        rw [List.foldl_cons]
        apply ih
        split
        · exact hr
        · rename_i hskip
          have hvar : ¬ (strongUpdates = true ∧ var = singleton) := by simpa using hskip
          have hadds : Adds r.1 (update r.1 var) (outOfIn d loc singleton strongUpdates)
              (usedAt loc singleton strongUpdates) := by
            refine (hup r.1 var).adds.weaken ?_ ?_
            · rintro f ⟨obj, hin, rfl⟩
              refine ⟨var, obj, hvar, (hr.sound _ hin).resolve_right ?_, rfl⟩
              rintro ⟨_, _, _, _, heq⟩
              cases heq
            · rintro l v ⟨rfl, rfl⟩
              exact ⟨rfl, hvar⟩
          refine (hr.trans hadds ?_).weaken (fun _ h => h) (fun _ _ h => h.elim id id)
          rintro l v obj ⟨_, _, _, _, heq⟩
          cases heq
  exact hfold (d, false) (Adds.refl d false _ _)

theorem updateEach_covers {vars : List NodeID} {var : NodeID} (hmem : var ∈ vars)
    (hskip : ¬ (strongUpdates = true ∧ var = singleton)) {d : D} (hnew : newIn d loc var)
    {obj : NodeID} (hobj : .dfIn loc var obj ∈ facts d) :
    .dfOut loc var obj ∈ facts (updateEach update singleton strongUpdates vars d).1 := by
  -- either the variable is still to come, or it has been copied
  have hfold : ∀ r : D × Bool, .dfIn loc var obj ∈ facts r.1 →
      (newIn r.1 loc var ∧ var ∈ vars) ∨ .dfOut loc var obj ∈ facts r.1 →
      .dfOut loc var obj ∈ facts (vars.foldl (fun r var =>
        if strongUpdates && var == singleton then r
        else ((update r.1 var).1, r.2 || (update r.1 var).2)) r).1 := by
    clear hmem hnew hobj
    induction vars with
    | nil => simp
    | cons v vars ih =>
        intro r hin hr
        rw [List.foldl_cons]
        split
        · rename_i hv
          refine ih r hin (hr.imp (fun h => ⟨h.1, ?_⟩) id)
          refine (List.mem_cons.mp h.2).resolve_left (fun heq => hskip ?_)
          simpa [heq] using hv
        · have hstep := hup r.1 v
          refine ih _ (hstep.adds.mono hin) ?_
          rcases hr with ⟨hnew, hmem⟩ | hout
          · by_cases heq : var = v
            · subst heq
              exact .inr (hstep.covers hnew obj hin)
            · refine .inl ⟨(hstep.adds.keepIn loc var hnew).resolve_right (fun h => heq h.2), ?_⟩
              exact (List.mem_cons.mp hmem).resolve_left heq
          · exact .inr (hstep.adds.mono hout)
  exact hfold (d, false) hobj (.inl ⟨hnew, hmem⟩)

end

section

variable {B : Type} [DFPTDataBase B]

instance : UpdatedVars B := ⟨fun _ _ _ => True, fun _ _ _ => True⟩

theorem transfers_of_copies {b : B} {r : B × Bool} {src dst : NodeID → Fact} (h : Copies b r src dst)
    (cond : Prop) (used : LocID → NodeID → Prop) : Transfers b r src dst cond used := by
  refine ⟨⟨fun f hf => (h.facts f).mpr (.inl hf), fun f hf => (h.facts f).mp hf, fun f hf hn => ?_,
    fun _ _ _ => .inl trivial, fun _ _ _ => trivial, fun _ _ _ _ _ => trivial,
    fun _ _ _ _ _ => trivial⟩, fun _ obj hobj => (h.facts _).mpr (.inr ⟨obj, hobj, rfl⟩)⟩
  obtain ⟨obj, hobj, rfl⟩ := ((h.facts f).mp hf).resolve_left hn
  exact h.changed.mpr ⟨obj, hobj, hn⟩

variable [LawfulDFPTDataBase B]

open LawfulDFPTDataBase in
instance : LawfulDFPTData B where
  facts_empty := facts_empty
  addPts b var obj := by
    refine ⟨fun f hf => (facts_addPts b var obj f).mpr (.inl hf),
      fun f hf => (facts_addPts b var obj f).mp hf, fun f hf hn => ?_, fun _ _ _ => .inl trivial,
      fun _ _ _ => trivial, fun _ _ _ _ _ => trivial, fun _ _ _ _ _ => trivial⟩
    obtain rfl := ((facts_addPts b var obj f).mp hf).resolve_left hn
    exact (addPts_changed b var obj).mpr hn
  addPts_covers b var obj := (facts_addPts b var obj _).mpr (.inr rfl)
  unionPts b var pts := by
    refine ⟨fun f hf => (facts_unionPts b var pts f).mpr (.inl hf),
      fun f hf => (facts_unionPts b var pts f).mp hf, fun f hf hn => ?_, fun _ _ _ => .inl trivial,
      fun _ _ _ => trivial, fun _ _ _ _ _ => trivial, fun _ _ _ _ _ => trivial⟩
    obtain ⟨obj, hobj, rfl⟩ := ((facts_unionPts b var pts f).mp hf).resolve_left hn
    exact (unionPts_changed b var pts).mpr ⟨obj, hobj, hn⟩
  unionPts_covers b var pts obj hobj := (facts_unionPts b var pts _).mpr (.inr ⟨obj, hobj, rfl⟩)
  updateDFInFromIn b srcLoc srcVar dstLoc dstVar :=
    transfers_of_copies (updateDFInFromIn b srcLoc srcVar dstLoc dstVar) _ _
  updateDFInFromOut b srcLoc srcVar dstLoc dstVar :=
    transfers_of_copies (updateDFInFromOut b srcLoc srcVar dstLoc dstVar) _ _
  updateAllDFInFromIn b srcLoc srcVar dstLoc dstVar :=
    transfers_of_copies (updateDFInFromIn b srcLoc srcVar dstLoc dstVar) _ _
  updateAllDFInFromOut b srcLoc srcVar dstLoc dstVar :=
    transfers_of_copies (updateDFInFromOut b srcLoc srcVar dstLoc dstVar) _ _
  updateAllDFOutFromIn b loc singleton strongUpdates := by
    change Adds b (if DFPTDataBase.hasDFInSet b loc then _ else _) _ _
    split
    · exact updateEach_adds (fun b var => transfers_of_copies (updateDFOutFromIn b loc var loc var) _ _) _ b
    · exact Adds.refl b false _ _
  updateAllDFOutFromIn_covers b loc singleton strongUpdates var hskip hnew obj hobj := by
    change .dfOut loc var obj ∈ facts (if DFPTDataBase.hasDFInSet b loc then _ else _ : B × Bool).1
    split
    · exact updateEach_covers (fun b var => transfers_of_copies (updateDFOutFromIn b loc var loc var) _ _)
        (mem_dfInVars b loc var obj hobj) hskip hnew hobj
    · rename_i hnone
      exact absurd hobj (not_hasDFInSet b loc var obj (by simpa using hnone))
  updateTLVPts b srcLoc srcVar dstVar := transfers_of_copies (updateTLVPts b srcLoc srcVar dstVar) _ _
  updateATVPts b srcVar dstLoc dstVar := transfers_of_copies (updateATVPts b srcVar dstLoc dstVar) _ _
  facts_clear _ _ := rfl
  newIn_clear _ _ _ _ := Iff.rfl

end

section

variable {B : Type} [DFPTDataBase B]

instance : UpdatedVars (IncDFPTData B) where
  newIn d loc var := var ∈ d.inUpdatedVarMap loc
  newOut d loc var := var ∈ d.outUpdatedVarMap loc

theorem facts_base (d : IncDFPTData B) : facts d = facts d.base := by
  ext f
  cases f <;> exact Iff.rfl

theorem mem_update_set (m : LocID → PointsTo) (loc l : LocID) (var v : NodeID) :
    v ∈ Function.update m loc ((m loc).set var) l ↔ v ∈ m l ∨ l = loc ∧ v = var := by
  by_cases hl : l = loc
  · subst hl
    rw [Function.update_self, mem_set]
    simp
  · rw [Function.update_of_ne hl]
    simp [hl]

theorem mem_update_erase (m : LocID → PointsTo) (loc l : LocID) (var v : NodeID) :
    v ∈ Function.update m loc ((m loc).erase var) l ↔ v ∈ m l ∧ ¬ (l = loc ∧ v = var) := by
  by_cases hl : l = loc
  · subst hl
    rw [Function.update_self, mem_erase]
    simp
  · rw [Function.update_of_ne hl]
    simp [hl]

theorem Transfers.of_cond {D : Type} [DFSets D] [UpdatedVars D] {d : D} {r : D × Bool}
    {src dst : NodeID → Fact} {used : LocID → NodeID → Prop} {cond : Prop} [Decidable cond]
    (h : cond → Transfers d r src dst True used) :
    Transfers d (if cond then r else (d, false)) src dst cond used := by
  split
  · rename_i hcond
    exact ⟨(h hcond).adds, fun _ => (h hcond).covers trivial⟩
  · rename_i hcond
    exact ⟨Adds.refl d false _ _, fun hc => absurd hc hcond⟩

variable {d e : IncDFPTData B} {r : B × Bool} {src : NodeID → Fact} {loc : LocID} {var : NodeID}

theorem transfers_of_flags {dst : NodeID → Fact} {used : LocID → NodeID → Prop}
    (h : Copies d.base r src dst) (hbase : e.base = r.1)
    (hkeepIn : ∀ l v, newIn d l v → newIn e l v ∨ used l v)
    (hkeepOut : ∀ l v, newOut d l v → newOut e l v)
    (hflagIn : r.2 = true → ∀ l v obj obj', dst obj = .dfIn l v obj' → newIn e l v)
    (hflagOut : r.2 = true → ∀ l v obj obj', dst obj = .dfOut l v obj' → newOut e l v) :
    Transfers d (e, r.2) src dst True used := by
  have hmem : ∀ f, f ∈ facts e ↔ f ∈ facts d ∨ ∃ obj, src obj ∈ facts d ∧ f = dst obj := by
    rw [facts_base, facts_base, hbase]
    exact h.facts
  have hnew : ∀ f, f ∈ facts e → f ∉ facts d → r.2 = true ∧ ∃ obj, dst obj = f := by
    intro f hf hn
    obtain ⟨obj, hobj, rfl⟩ := ((hmem f).mp hf).resolve_left hn
    rw [facts_base] at hobj hn
    exact ⟨h.changed.mpr ⟨obj, hobj, hn⟩, obj, rfl⟩
  refine ⟨⟨fun f hf => (hmem f).mpr (.inl hf), fun f hf => (hmem f).mp hf,
    fun f hf hn => (hnew f hf hn).1, hkeepIn, hkeepOut, fun l v obj hf hn => ?_,
    fun l v obj hf hn => ?_⟩, fun _ obj hobj => (hmem _).mpr (.inr ⟨obj, hobj, rfl⟩)⟩
  · obtain ⟨hr, obj', heq⟩ := hnew _ hf hn
    exact hflagIn hr l v obj' obj heq
  · obtain ⟨hr, obj', heq⟩ := hnew _ hf hn
    exact hflagOut hr l v obj' obj heq

theorem inChanged_transfers (h : Copies d.base r src (.dfIn loc var)) :
    Transfers d (d.inChanged r loc var) src (.dfIn loc var) True (fun _ _ => False) := by
  rw [IncDFPTData.inChanged]
  cases hr : r.2 with
  | false =>
      have htransfers : Transfers d ({ d with base := r.1 }, r.2) src (.dfIn loc var) True
          (fun _ _ => False) :=
        transfers_of_flags h rfl (fun _ _ hl => .inl hl) (fun _ _ hl => hl) (by simp [hr])
          (by simp [hr])
      rwa [hr] at htransfers
  | true =>
      have hset := mem_update_set d.inUpdatedVarMap loc
      have htransfers : Transfers d
          (IncDFPTData.setVarDFInSetUpdated { d with base := r.1 } loc var, r.2) src
          (.dfIn loc var) True (fun _ _ => False) := by
        refine transfers_of_flags h rfl (fun l v hl => .inl ((hset l var v).mpr (.inl hl)))
          (fun _ _ hl => hl) (fun _ l v obj obj' heq => ?_) (fun _ l v obj obj' heq => by cases heq)
        cases heq
        exact (hset loc var var).mpr (.inr ⟨rfl, rfl⟩)
      rwa [hr] at htransfers

theorem outChanged_transfers {d' : IncDFPTData B} {used : LocID → NodeID → Prop}
    (hout : d'.outUpdatedVarMap = d.outUpdatedVarMap)
    (hin : ∀ l v, newIn d l v → newIn d' l v ∨ used l v)
    (h : Copies d.base r src (.dfOut loc var)) :
    Transfers d (d'.outChanged r loc var) src (.dfOut loc var) True used := by
  have hkeep : ∀ l v, newOut d l v → v ∈ d'.outUpdatedVarMap l := by
    rw [hout]
    exact fun _ _ hl => hl
  rw [IncDFPTData.outChanged]
  cases hr : r.2 with
  | false =>
      have htransfers : Transfers d ({ d' with base := r.1 }, r.2) src (.dfOut loc var) True used :=
        transfers_of_flags h rfl hin hkeep (by simp [hr]) (by simp [hr])
      rwa [hr] at htransfers
  | true =>
      have hset := mem_update_set d'.outUpdatedVarMap loc
      have htransfers : Transfers d
          (IncDFPTData.setVarDFOutSetUpdated { d' with base := r.1 } loc var, r.2) src
          (.dfOut loc var) True used := by
        refine transfers_of_flags h rfl hin (fun l v hl => (hset l var v).mpr (.inl (hkeep l v hl)))
          (fun _ l v obj obj' heq => by cases heq) (fun _ l v obj obj' heq => ?_)
        cases heq
        exact (hset loc var var).mpr (.inr ⟨rfl, rfl⟩)
      rwa [hr] at htransfers

omit [DFPTDataBase B] in
theorem remove_keeps (d : IncDFPTData B) (loc : LocID) (var : NodeID) (l : LocID) (v : NodeID)
    (hl : newIn d l v) : newIn (d.removeVarFromDFInUpdatedSet loc var) l v ∨ l = loc ∧ v = var := by
  by_cases heq : l = loc ∧ v = var
  · exact .inr heq
  · exact .inl ((mem_update_erase d.inUpdatedVarMap loc l var v).mpr ⟨hl, heq⟩)

theorem clear_base (d : IncDFPTData B) (loc : LocID) :
    (d.clearAllDFOutUpdatedVar loc).base = d.base ∧
      (d.clearAllDFOutUpdatedVar loc).inUpdatedVarMap = d.inUpdatedVarMap := by
  have hfold : ∀ (vars : List NodeID) (d : IncDFPTData B),
      (vars.foldl (·.removeVarFromDFOutUpdatedSet loc ·) d).base = d.base ∧
      (vars.foldl (·.removeVarFromDFOutUpdatedSet loc ·) d).inUpdatedVarMap =
        d.inUpdatedVarMap := by
    intro vars
    induction vars with
    | nil => exact fun d => ⟨rfl, rfl⟩
    | cons var vars ih => exact fun d => ih (d.removeVarFromDFOutUpdatedSet loc var)
  rw [IncDFPTData.clearAllDFOutUpdatedVar]
  split
  · exact hfold _ d
  · exact ⟨rfl, rfl⟩

variable [LawfulDFPTDataBase B]

theorem updateDFOutFromIn_transfers (d : IncDFPTData B) (loc : LocID) (var : NodeID) :
    Transfers d (d.updateDFOutFromIn loc var loc var) (.dfIn loc var) (.dfOut loc var)
      (newIn d loc var) (fun l v => l = loc ∧ v = var) := by
  rw [IncDFPTData.updateDFOutFromIn, IncDFPTData.varHasNewDFInPts]
  simp only [decide_eq_true_eq]
  exact Transfers.of_cond (fun _ => outChanged_transfers rfl (remove_keeps d loc var)
    (LawfulDFPTDataBase.updateDFOutFromIn d.base loc var loc var))

theorem updateTLVPts_transfers (d : IncDFPTData B) (loc : LocID) (var dstVar : NodeID) :
    Transfers d (d.updateTLVPts loc var dstVar) (.dfIn loc var) (.pts dstVar) (newIn d loc var)
      (fun l v => l = loc ∧ v = var) := by
  rw [IncDFPTData.updateTLVPts, IncDFPTData.varHasNewDFInPts]
  simp only [decide_eq_true_eq]
  refine Transfers.of_cond (fun _ => transfers_of_flags
    (LawfulDFPTDataBase.updateTLVPts d.base loc var dstVar) rfl (remove_keeps d loc var)
    (fun _ _ hl => hl) (fun _ _ _ _ _ heq => ?_) (fun _ _ _ _ _ heq => ?_))
  · cases heq
  · cases heq

omit [LawfulDFPTDataBase B] in
theorem base_adds {d : IncDFPTData B} {r : B × Bool} {new : Set Fact}
    (hfacts : ∀ f, f ∈ facts r.1 ↔ f ∈ facts d.base ∨ f ∈ new)
    (hchanged : ∀ f ∈ new, f ∉ facts d.base → r.2 = true)
    (hnew : ∀ f ∈ new, ∃ var obj, f = .pts var obj) :
    Adds d ({ d with base := r.1 }, r.2) new (fun _ _ => False) := by
  have hmem : ∀ f, f ∈ facts ({ d with base := r.1 } : IncDFPTData B) ↔ f ∈ facts d ∨ f ∈ new := by
    rw [facts_base, facts_base]
    exact hfacts
  refine ⟨fun f hf => (hmem f).mpr (.inl hf), fun f hf => (hmem f).mp hf, fun f hf hn => ?_,
    fun _ _ hl => .inl hl, fun _ _ hl => hl, fun _ _ _ hf hn => ?_, fun _ _ _ hf hn => ?_⟩
  · rw [facts_base] at hn
    exact hchanged f (((hfacts f).mp hf).resolve_left hn) hn
  · obtain ⟨_, _, heq⟩ := hnew _ (((hmem _).mp hf).resolve_left hn)
    cases heq
  · obtain ⟨_, _, heq⟩ := hnew _ (((hmem _).mp hf).resolve_left hn)
    cases heq

open LawfulDFPTDataBase in
instance : LawfulDFPTData (IncDFPTData B) where
  facts_empty := by
    rw [facts_base]
    exact facts_empty
  addPts d var obj := by
    refine base_adds (facts_addPts d.base var obj) ?_ ?_
    · rintro f rfl hn
      exact (addPts_changed d.base var obj).mpr hn
    · rintro f rfl
      exact ⟨var, obj, rfl⟩
  addPts_covers d var obj := by
    rw [facts_base]
    exact (facts_addPts d.base var obj _).mpr (.inr rfl)
  unionPts d var pts := by
    refine base_adds (facts_unionPts d.base var pts) ?_ ?_
    · rintro f ⟨obj, hobj, rfl⟩ hn
      exact (unionPts_changed d.base var pts).mpr ⟨obj, hobj, hn⟩
    · rintro f ⟨obj, -, rfl⟩
      exact ⟨var, obj, rfl⟩
  unionPts_covers d var pts obj hobj := by
    rw [facts_base]
    exact (facts_unionPts d.base var pts _).mpr (.inr ⟨obj, hobj, rfl⟩)
  updateDFInFromIn d srcLoc srcVar dstLoc dstVar := by
    change Transfers d (if d.varHasNewDFInPts srcLoc srcVar then _ else (d, false)) _ _ _ _
    simp only [IncDFPTData.varHasNewDFInPts, decide_eq_true_eq]
    exact Transfers.of_cond (fun _ =>
      inChanged_transfers (updateDFInFromIn d.base srcLoc srcVar dstLoc dstVar))
  updateDFInFromOut d srcLoc srcVar dstLoc dstVar := by
    change Transfers d (if d.varHasNewDFOutPts srcLoc srcVar then _ else (d, false)) _ _ _ _
    simp only [IncDFPTData.varHasNewDFOutPts, decide_eq_true_eq]
    exact Transfers.of_cond (fun _ =>
      inChanged_transfers (updateDFInFromOut d.base srcLoc srcVar dstLoc dstVar))
  updateAllDFInFromIn d srcLoc srcVar dstLoc dstVar :=
    inChanged_transfers (updateDFInFromIn d.base srcLoc srcVar dstLoc dstVar)
  updateAllDFInFromOut d srcLoc srcVar dstLoc dstVar :=
    inChanged_transfers (updateDFInFromOut d.base srcLoc srcVar dstLoc dstVar)
  updateAllDFOutFromIn d loc singleton strongUpdates := by
    change Adds d (IncDFPTData.updateAllDFOutFromIn d loc singleton strongUpdates) _ _
    rw [IncDFPTData.updateAllDFOutFromIn]
    split
    · exact updateEach_adds (updateDFOutFromIn_transfers · loc ·) _ d
    · exact Adds.refl d false _ _
  updateAllDFOutFromIn_covers d loc singleton strongUpdates var hskip hnew obj hobj := by
    change .dfOut loc var obj ∈
      facts (IncDFPTData.updateAllDFOutFromIn d loc singleton strongUpdates).1
    rw [IncDFPTData.updateAllDFOutFromIn]
    split
    · exact updateEach_covers (updateDFOutFromIn_transfers · loc ·) hnew hskip hnew hobj
    · rename_i hnone
      rw [facts_base] at hobj
      exact absurd hobj (not_hasDFInSet d.base loc var obj (by simpa using hnone))
  updateTLVPts d srcLoc srcVar dstVar := updateTLVPts_transfers d srcLoc srcVar dstVar
  updateATVPts d srcVar dstLoc dstVar :=
    outChanged_transfers rfl (fun _ _ hl => .inl hl) (updateATVPts d.base srcVar dstLoc dstVar)
  facts_clear d loc := by
    rw [facts_base, facts_base]
    exact congrArg facts (clear_base d loc).1
  newIn_clear d loc l var := by
    change var ∈ (d.clearAllDFOutUpdatedVar loc).inUpdatedVarMap l ↔ var ∈ d.inUpdatedVarMap l
    rw [(clear_base d loc).2]

end

end SVF.MemoryModel.IncrementalPTData
