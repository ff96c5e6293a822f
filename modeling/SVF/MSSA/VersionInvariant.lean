import SVF.MSSA.Renaming

namespace SVF.MSSA.VersionInvariant

open MemorySSA Placement Renaming Util.Dominance

variable {mrGen : MRGenerator} {fn : FunObjVar} {P s t : MemSSA}

/-- Renaming leaves the mus, chis and phis of the plan `P` where they are. -/
structure Running (P s : MemSSA) : Prop where
  load : s.load2MuSetMap = P.load2MuSetMap
  store : s.store2ChiSetMap = P.store2ChiSetMap
  callMu : s.callsiteToMuSetMap = P.callsiteToMuSetMap
  callChi : s.callsiteToChiSetMap = P.callsiteToChiSetMap
  phi : s.bb2PhiSetMap = P.bb2PhiSetMap
  returnMu : s.returnMuSet = P.returnMuSet
  used : s.usedRegs = P.usedRegs

structure Extends (s t : MemSSA) : Prop where
  resVer : ∀ d v, s.resVer d = some v → t.resVer d = some v
  muVer : ∀ m, (s.muVer m).isSome → (t.muVer m).isSome
  opVer : ∀ d, (s.opVer d).isSome → (t.opVer d).isSome
  phiOpVer : ∀ b r i, (s.phiOpVer b r i).isSome → (t.phiOpVer b r i).isSome

theorem Extends.refl (s : MemSSA) : Extends s s :=
  ⟨fun _ _ h => h, fun _ h => h, fun _ h => h, fun _ _ _ h => h⟩

theorem Extends.trans {u : MemSSA} (h : Extends s t) (h' : Extends t u) : Extends s u :=
  ⟨fun d v hd => h'.resVer d v (h.resVer d v hd), fun m hm => h'.muVer m (h.muVer m hm),
    fun d hd => h'.opVer d (h.opVer d hd), fun b r i hi => h'.phiOpVer b r i (h.phiOpVer b r i hi)⟩

structure Consistent (mrGen : MRGenerator) (fn : FunObjVar) (P s : MemSSA) : Prop where
  counter : ∀ r ∈ P.usedRegs, 0 < s.mr2CounterMap r
  res : ∀ d v, s.resVer d = some v →
    v.ssaDef = d ∧ v.mr = d.mr ∧ 0 < v.version ∧ v.version < s.mr2CounterMap d.mr
  distinct : ∀ d d' v v', s.resVer d = some v → s.resVer d' = some v' → d.mr = d'.mr →
    v.version = v'.version → d = d'
  mu : ∀ m v, s.muVer m = some v → s.resVer v.ssaDef = some v ∧
    MuRight mrGen fn P.bb2PhiSetMap m v.ssaDef
  op : ∀ d v, s.opVer d = some v → (∃ r, d = .entryChi r ∧ v = ⟨r, 0, .entryChi r⟩) ∨
    (∃ site, Chis site d) ∧ s.resVer v.ssaDef = some v ∧
      OpRight mrGen fn P.bb2PhiSetMap d v.ssaDef
  phiOp : ∀ b r i v, s.phiOpVer b r i = some v → s.resVer v.ssaDef = some v ∧
    PhiRight mrGen fn P.bb2PhiSetMap b r i v.ssaDef

def Top (s : MemSSA) (r : MemRegion) (d : MSSADEF) : Prop :=
  ∃ v, s.getTopStackVer r = some v ∧ v.ssaDef = d ∧ s.resVer d = some v

def At (mrGen : MRGenerator) (fn : FunObjVar) (P s : MemSSA) (b : BasicBlock) (pre : List Site) :
    Prop :=
  ∀ r ∈ P.usedRegs, ∀ p, PathTo fn b p → Top s r (reaching mrGen fn P.bb2PhiSetMap r b p pre)

theorem Top.mono (h : Extends s t) (hstack : t.mr2VerStackMap = s.mr2VerStackMap)
    {r : MemRegion} {d : MSSADEF} (hd : Top s r d) : Top t r d := by
  obtain ⟨v, htop, hv, hres⟩ := hd
  refine ⟨v, ?_, hv, h.resVer d v hres⟩
  rw [MemSSA.getTopStackVer, hstack]
  exact htop

def Pushed (s t : MemSSA) (regs : List MemRegion) : Prop :=
  ∀ r, ∃ l, t.mr2VerStackMap r = l ++ s.mr2VerStackMap r ∧ l.length = regs.count r

theorem popStack_eq (regs : List MemRegion) (s : MemSSA) :
    regs.foldl MemSSA.popStack s = { s with
      mr2VerStackMap := fun r => (s.mr2VerStackMap r).drop (regs.count r) } := by
  induction regs generalizing s with
  | nil => simp
  | cons x regs ih =>
      rw [List.foldl_cons, ih]
      simp only [MemSSA.popStack, MemSSA.mk.injEq, true_and, and_true]
      funext r
      by_cases hr : r = x
      · subst hr
        simp
      · simp [hr, List.count_cons_of_ne (Ne.symm hr)]

theorem site_unique (hfn : WellFormed fn) {b b' : BasicBlock} {pre pre' post post' : List Site}
    {site : Site} (hb : Reach fn b) (hb' : Reach fn b') (h : sites fn b = pre ++ site :: post)
    (h' : sites fn b' = pre' ++ site :: post') : b = b' ∧ pre = pre' := by
  obtain ⟨hnodup, hdisjoint⟩ := List.nodup_flatMap.mp hfn.nodupSites
  have hsymm : Std.Symm (Function.onFun List.Disjoint (sites fn)) := ⟨fun _ _ h _ hx hy => h hy hx⟩
  have hbb : b = b' := by
    by_contra hne
    have hd := hdisjoint.forall ((hfn.reachable b).mpr hb) ((hfn.reachable b').mpr hb') hne
    exact hd (a := site) (by simp [h]) (by simp [h'])
  subst hbb
  have hn := hnodup b ((hfn.reachable b).mpr hb)
  rw [h, List.nodup_append] at hn
  have hpre : site ∉ pre := fun hm => hn.2.2 site hm site List.mem_cons_self rfl
  have hpost : site ∉ post := (List.nodup_cons.mp hn.2.1).1
  exact ⟨rfl, ((List.append_cons_inj_of_notMem hpre hpost).mp (h.symm.trans h')).1⟩

theorem uses_unique {site site' : Site} {m : MSSAMU} (h : Uses site m) (h' : Uses site' m) :
    site = site' := by
  cases m <;> cases site <;> cases site' <;> simp_all [Uses]

theorem chis_unique {site site' : Site} {d : MSSADEF} (h : Chis site d) (h' : Chis site' d) :
    site = site' := by
  cases d <;> cases site <;> cases site' <;> simp_all [Chis]

section

variable {b : BasicBlock} {pre post : List Site} {site : Site}

theorem At.reaching_eq (hat : At mrGen fn P s b pre) {r : MemRegion} (hr : r ∈ P.usedRegs)
    {v : MRVer} (hv : s.getTopStackVer r = some v) (hb : Reach fn b) :
    s.resVer v.ssaDef = some v ∧
      ∀ p, PathTo fn b p → reaching mrGen fn P.bb2PhiSetMap r b p pre = v.ssaDef := by
  have htop : ∀ p, PathTo fn b p → reaching mrGen fn P.bb2PhiSetMap r b p pre = v.ssaDef ∧
      s.resVer v.ssaDef = some v := by
    intro p hp
    obtain ⟨w, hw, hdef, hres⟩ := hat r hr p hp
    rw [hv, Option.some.injEq] at hw
    subst hw
    rw [hdef]
    exact ⟨rfl, hres⟩
  obtain ⟨p, hp⟩ := hb
  exact ⟨(htop p hp).2, fun q hq => (htop q hq).1⟩

theorem At.isSome (hat : At mrGen fn P s b pre) {r : MemRegion} (hr : r ∈ P.usedRegs)
    (hb : Reach fn b) : (s.getTopStackVer r).isSome := by
  obtain ⟨p, hp⟩ := hb
  obtain ⟨v, hv, -⟩ := hat r hr p hp
  rw [hv]
  rfl

theorem use_step (hfn : WellFormed fn) (h : Consistent mrGen fn P s)
    (hat : At mrGen fn P s b pre) (hb : Reach fn b) (hsite : sites fn b = pre ++ site :: post)
    (mu : MemRegion → MSSAMU) (hmu : ∀ r, (mu r).mr = r) (huses : ∀ r, Uses site (mu r))
    {l : List MemRegion} (hl : ∀ r ∈ l, r ∈ P.usedRegs) :
    Consistent mrGen fn P (MemSSA.RenameMuSet mu s l) ∧ Extends s (MemSSA.RenameMuSet mu s l) ∧
      ∀ r ∈ l, ((MemSSA.RenameMuSet mu s l).muVer (mu r)).isSome := by
  rw [renameMuSet_eq mu hmu]
  refine ⟨{ h with mu := fun m v hv => ?_ }, ⟨fun _ _ hd => hd, fun m hm => ?_, fun _ hd => hd,
    fun _ _ _ hi => hi⟩, fun r hr => ?_⟩
  · simp only at hv
    split at hv
    · rename_i hmem
      obtain ⟨r, hr, rfl⟩ := List.mem_map.mp hmem
      rw [hmu] at hv
      obtain ⟨hres, hreaching⟩ := hat.reaching_eq (hl r hr) hv hb
      refine ⟨hres, fun b' pre' site' post' hb' hsite' huses' p hp => ?_⟩
      cases uses_unique (huses r) huses'
      obtain ⟨rfl, rfl⟩ := site_unique hfn hb hb' hsite hsite'
      rw [hmu]
      exact hreaching p hp
    · exact h.mu m v hv
  · simp only
    split
    · rename_i hmem
      obtain ⟨r, hr, rfl⟩ := List.mem_map.mp hmem
      rw [hmu]
      exact hat.isSome (hl r hr) hb
    · exact hm
  · simp only [if_pos (List.mem_map_of_mem hr), hmu]
    exact hat.isSome (hl r hr) hb

theorem ops_step (hfn : WellFormed fn) (h : Consistent mrGen fn P s)
    (hat : At mrGen fn P s b pre) (hb : Reach fn b) (hsite : sites fn b = pre ++ site :: post)
    (chi : MemRegion → MSSADEF) (hchi : ∀ r, (chi r).mr = r) (hchis : ∀ r, Chis site (chi r))
    {l : List MemRegion} (hl : ∀ r ∈ l, r ∈ P.usedRegs) :
    Consistent mrGen fn P (setOps chi s l) ∧ Extends s (setOps chi s l) ∧
      ∀ r ∈ l, ((setOps chi s l).opVer (chi r)).isSome := by
  refine ⟨{ h with op := fun d v hv => ?_ }, ⟨fun _ _ hd => hd, fun _ hm => hm, fun d hd => ?_,
    fun _ _ _ hi => hi⟩, fun r hr => ?_⟩
  · simp only [setOps] at hv
    split at hv
    · rename_i hmem
      obtain ⟨r, hr, rfl⟩ := List.mem_map.mp hmem
      rw [hchi] at hv
      obtain ⟨hres, hreaching⟩ := hat.reaching_eq (hl r hr) hv hb
      refine .inr ⟨⟨site, hchis r⟩, hres, fun b' pre' site' post' hb' hsite' hchis' p hp => ?_⟩
      cases chis_unique (hchis r) hchis'
      obtain ⟨rfl, rfl⟩ := site_unique hfn hb hb' hsite hsite'
      rw [hchi]
      exact hreaching p hp
    · exact h.op d v hv
  · simp only [setOps]
    split
    · rename_i hmem
      obtain ⟨r, hr, rfl⟩ := List.mem_map.mp hmem
      rw [hchi]
      exact hat.isSome (hl r hr) hb
    · exact hd
  · simp only [setOps, if_pos (List.mem_map_of_mem hr), hchi]
    exact hat.isSome (hl r hr) hb

theorem push_step (h : Consistent mrGen fn P s) (chi : MemRegion → MSSADEF)
    (hchi : ∀ r, (chi r).mr = r) {l : List MemRegion} (hl : ∀ r ∈ l, r ∈ P.usedRegs)
    (hunset : ∀ r ∈ l, s.resVer (chi r) = none) :
    Consistent mrGen fn P (pushDefs chi s l) ∧ Extends s (pushDefs chi s l) ∧
      (∀ r ∈ l, Top (pushDefs chi s l) r (chi r)) ∧
      ∀ r d, r ∉ l → Top s r d → Top (pushDefs chi s l) r d := by
  have hkeep : ∀ d v, s.resVer d = some v → (pushDefs chi s l).resVer d = some v := by
    intro d v hd
    have hnot : d ∉ l.map chi := by
      intro hmem
      obtain ⟨r, hr, rfl⟩ := List.mem_map.mp hmem
      rw [hunset r hr] at hd
      cases hd
    simp only [pushDefs, if_neg hnot]
    exact hd
  have hcases : ∀ d v, (pushDefs chi s l).resVer d = some v →
      (d.mr ∈ l ∧ chi d.mr = d ∧ v = ⟨d.mr, s.mr2CounterMap d.mr, d⟩) ∨ s.resVer d = some v := by
    intro d v hd
    simp only [pushDefs] at hd
    split at hd
    · rename_i hmem
      rw [Option.some.injEq] at hd
      exact .inl ⟨((mem_map_chi hchi).mp hmem).1, ((mem_map_chi hchi).mp hmem).2, hd.symm⟩
    · exact .inr hd
  have hcounter : ∀ r, s.mr2CounterMap r ≤ (pushDefs chi s l).mr2CounterMap r := by
    intro r
    simp only [pushDefs]
    split <;> omega
  refine ⟨⟨fun r hr => Nat.lt_of_lt_of_le (h.counter r hr) (hcounter r), fun d v hd => ?_,
    fun d d' v v' hd hd' hmr hver => ?_, fun m v hv => ?_, fun d v hv => ?_,
    fun y r i v hv => ?_⟩, ⟨hkeep, fun _ hm => hm, fun _ hd => hd, fun _ _ _ hi => hi⟩,
    fun r hr => ?_, fun r d hr hd => ?_⟩
  · rcases hcases d v hd with ⟨hmem, -, rfl⟩ | hold
    · refine ⟨rfl, rfl, h.counter _ (hl _ hmem), ?_⟩
      simp only [pushDefs, if_pos hmem]
      omega
    · obtain ⟨hdef, hmr, hpos, hlt⟩ := h.res d v hold
      exact ⟨hdef, hmr, hpos, Nat.lt_of_lt_of_le hlt (hcounter d.mr)⟩
  · rcases hcases d v hd with ⟨-, hchid, rfl⟩ | hold
    · rcases hcases d' v' hd' with ⟨-, hchid', -⟩ | hold'
      · rw [← hchid, ← hchid', hmr]
      · have hlt := (h.res d' v' hold').2.2.2
        rw [← hver, ← hmr] at hlt
        exact absurd hlt (Nat.lt_irrefl _)
    · rcases hcases d' v' hd' with ⟨-, -, rfl⟩ | hold'
      · have hlt := (h.res d v hold).2.2.2
        rw [hver, hmr] at hlt
        exact absurd hlt (Nat.lt_irrefl _)
      · exact h.distinct d d' v v' hold hold' hmr hver
  · obtain ⟨hres, hright⟩ := h.mu m v hv
    exact ⟨hkeep _ v hres, hright⟩
  · exact (h.op d v hv).imp id (fun hop => ⟨hop.1, hkeep _ v hop.2.1, hop.2.2⟩)
  · obtain ⟨hres, hright⟩ := h.phiOp y r i v hv
    exact ⟨hkeep _ v hres, hright⟩
  · refine ⟨⟨r, s.mr2CounterMap r, chi r⟩, ?_, rfl, ?_⟩
    · simp [pushDefs, MemSSA.getTopStackVer, hr]
    · simp only [pushDefs, if_pos (List.mem_map_of_mem hr), hchi]
  · obtain ⟨v, htop, hv, hres⟩ := hd
    refine ⟨v, ?_, hv, hkeep d v hres⟩
    simp only [pushDefs, MemSSA.getTopStackVer, if_neg hr]
    exact htop

end

section

def InBlock (fn : FunObjVar) (b : BasicBlock) (d : MSSADEF) : Prop :=
  (∃ r, d = .phi b r) ∨ ∃ site ∈ sites fn b, Chis site d

def renameSite (s : MemSSA × List MemRegion) : Site → MemSSA × List MemRegion
  | .load l => (MemSSA.RenameMuSet (.loadMu l) s.1 (s.1.load2MuSetMap l), s.2)
  | .store st => MemSSA.RenameChiSet (.storeChi st) s (s.1.store2ChiSetMap st)
  | .call c => MemSSA.RenameChiSet (.callChi c)
      (MemSSA.RenameMuSet (.callMu c) s.1 (s.1.callsiteToMuSetMap c), s.2)
      (s.1.callsiteToChiSetMap c)
  | .ret => (MemSSA.RenameMuSet .retMu s.1 s.1.returnMuSet, s.2)

theorem running_renameMuSet (h : Running P s) (mu : MemRegion → MSSAMU) (hmu : ∀ r, (mu r).mr = r)
    (l : List MemRegion) : Running P (MemSSA.RenameMuSet mu s l) := by
  rw [renameMuSet_eq mu hmu]
  exact ⟨h.load, h.store, h.callMu, h.callChi, h.phi, h.returnMu, h.used⟩

theorem running_pushDefs (h : Running P s) (chi : MemRegion → MSSADEF) (l : List MemRegion) :
    Running P (pushDefs chi s l) :=
  ⟨h.load, h.store, h.callMu, h.callChi, h.phi, h.returnMu, h.used⟩

theorem running_setOps (h : Running P s) (chi : MemRegion → MSSADEF) (l : List MemRegion) :
    Running P (setOps chi s l) :=
  ⟨h.load, h.store, h.callMu, h.callChi, h.phi, h.returnMu, h.used⟩

theorem Pushed.refl (s : MemSSA) : Pushed s s [] := fun _ => ⟨[], rfl, rfl⟩

theorem Pushed.pushDefs {regs : List MemRegion} (h : Pushed s t regs) (chi : MemRegion → MSSADEF)
    {l : List MemRegion} (hl : l.Nodup) : Pushed s (pushDefs chi t l) (l.reverse ++ regs) := by
  intro r
  obtain ⟨k, hk, hlen⟩ := h r
  by_cases hr : r ∈ l
  · refine ⟨⟨r, t.mr2CounterMap r, chi r⟩ :: k, ?_, ?_⟩
    · simp only [Renaming.pushDefs, if_pos hr, hk, List.cons_append]
    · rw [List.count_append, List.count_reverse, List.count_eq_one_of_mem hl hr, List.length_cons,
        hlen, Nat.add_comm]
  · refine ⟨k, ?_, ?_⟩
    · simp only [Renaming.pushDefs, if_neg hr, hk]
    · rw [List.count_append, List.count_reverse, List.count_eq_zero_of_not_mem hr, hlen,
        Nat.zero_add]

structure Renamed (mrGen : MRGenerator) (fn : FunObjVar) (P s : MemSSA) (b : BasicBlock)
    (t : MemSSA) (regs : List MemRegion) : Prop where
  running : Running P t
  consistent : Consistent mrGen fn P t
  extend : Extends s t
  pushed : Pushed s t regs
  frame : ∀ d, ¬ InBlock fn b d → t.resVer d = s.resVer d

def SiteCovered (mrGen : MRGenerator) (P s : MemSSA) : Site → Prop
  | .load l => ∀ r ∈ mrGen.loadMRSet l, (s.muVer (.loadMu l r)).isSome
  | .store st => ∀ r ∈ mrGen.storeMRSet st,
      (s.opVer (.storeChi st r)).isSome ∧ (s.resVer (.storeChi st r)).isSome
  | .call c => (∀ r ∈ refRegs mrGen c, (s.muVer (.callMu c r)).isSome) ∧
      ∀ r ∈ modRegs mrGen c, (s.opVer (.callChi c r)).isSome ∧ (s.resVer (.callChi c r)).isSome
  | .ret => ∀ r ∈ P.returnMuSet, (s.muVer (.retMu r)).isSome

theorem Extends.resVer_isSome (h : Extends s t) {d : MSSADEF} (hd : (s.resVer d).isSome) :
    (t.resVer d).isSome := by
  obtain ⟨v, hv⟩ := Option.isSome_iff_exists.mp hd
  rw [h.resVer d v hv]
  rfl

theorem SiteCovered.mono (h : Extends s t) {site : Site} (hs : SiteCovered mrGen P s site) :
    SiteCovered mrGen P t site := by
  cases site with
  | load l => exact fun r hr => h.muVer _ (hs r hr)
  | store st => exact fun r hr => ⟨h.opVer _ (hs r hr).1, h.resVer_isSome (hs r hr).2⟩
  | call c =>
      exact ⟨fun r hr => h.muVer _ (hs.1 r hr),
        fun r hr => ⟨h.opVer _ (hs.2 r hr).1, h.resVer_isSome (hs.2 r hr).2⟩⟩
  | ret => exact fun r hr => h.muVer _ (hs r hr)

theorem reaching_snoc (phis : BasicBlock → List MemRegion) (r : MemRegion) (b : BasicBlock)
    (p : List BasicBlock) (pre : List Site) (site : Site) :
    reaching mrGen fn phis r b p (pre ++ [site]) =
      (siteDef mrGen r site).getD (reaching mrGen fn phis r b p pre) := by
  simp [reaching, defAfter, List.foldl_append]

variable {b : BasicBlock} {pre post : List Site} {site : Site} {regs : List MemRegion}

theorem renamed_mus (hfn : WellFormed fn) {s₀ : MemSSA} (h : Renamed mrGen fn P s₀ b s regs)
    (hat : At mrGen fn P s b pre) (hb : Reach fn b) (hsite : sites fn b = pre ++ site :: post)
    (mu : MemRegion → MSSAMU) (hmu : ∀ r, (mu r).mr = r) (huses : ∀ r, Uses site (mu r))
    {l : List MemRegion} (hl : ∀ r ∈ l, r ∈ P.usedRegs) :
    Renamed mrGen fn P s₀ b (MemSSA.RenameMuSet mu s l) regs ∧
      At mrGen fn P (MemSSA.RenameMuSet mu s l) b pre ∧
      Extends s (MemSSA.RenameMuSet mu s l) ∧
      ∀ r ∈ l, ((MemSSA.RenameMuSet mu s l).muVer (mu r)).isSome := by
  obtain ⟨hcons, hext, hcover⟩ := use_step hfn h.consistent hat hb hsite mu hmu huses hl
  have heq := renameMuSet_eq mu hmu s l
  have hstack : (MemSSA.RenameMuSet mu s l).mr2VerStackMap = s.mr2VerStackMap := by rw [heq]
  have hres : (MemSSA.RenameMuSet mu s l).resVer = s.resVer := by rw [heq]
  refine ⟨⟨running_renameMuSet h.running mu hmu l, hcons, h.extend.trans hext, ?_, ?_⟩,
    fun r hr p hp => (hat r hr p hp).mono hext hstack, hext, hcover⟩
  · intro r
    rw [hstack]
    exact h.pushed r
  · rw [hres]
    exact h.frame

theorem renamed_chis (hfn : WellFormed fn) {s₀ : MemSSA} (h : Renamed mrGen fn P s₀ b s regs)
    (hat : At mrGen fn P s b pre) (hb : Reach fn b) (hsite : sites fn b = pre ++ site :: post)
    (chi : MemRegion → MSSADEF) (hchi : ∀ r, (chi r).mr = r) (hchis : ∀ r, Chis site (chi r))
    {l : List MemRegion} (hnodup : l.Nodup) (hl : ∀ r ∈ l, r ∈ P.usedRegs)
    (hunset : ∀ r, s.resVer (chi r) = none)
    (hdef : ∀ r, siteDef mrGen r site = if r ∈ l then some (chi r) else none) :
    Renamed mrGen fn P s₀ b (MemSSA.RenameChiSet chi (s, regs) l).1
        (MemSSA.RenameChiSet chi (s, regs) l).2 ∧
      At mrGen fn P (MemSSA.RenameChiSet chi (s, regs) l).1 b (pre ++ [site]) ∧
      Extends s (MemSSA.RenameChiSet chi (s, regs) l).1 ∧
      (∀ d, ¬ Chis site d → (MemSSA.RenameChiSet chi (s, regs) l).1.resVer d = s.resVer d) ∧
      ∀ r ∈ l, ((MemSSA.RenameChiSet chi (s, regs) l).1.opVer (chi r)).isSome ∧
        ((MemSSA.RenameChiSet chi (s, regs) l).1.resVer (chi r)).isSome := by
  obtain ⟨hcons, hext, hcover⟩ := ops_step hfn h.consistent hat hb hsite chi hchi hchis hl
  obtain ⟨hcons', hext', htop, hkeep⟩ := push_step hcons chi hchi hl (fun r _ => hunset r)
  rw [renameChiSet_eq hchi s regs l hnodup]
  have hframe : ∀ d, ¬ Chis site d → (pushDefs chi (setOps chi s l) l).resVer d = s.resVer d := by
    intro d hd
    have hnot : d ∉ l.map chi := by
      intro hmem
      obtain ⟨r, -, rfl⟩ := List.mem_map.mp hmem
      exact hd (hchis r)
    simp only [pushDefs, if_neg hnot, setOps]
  refine ⟨⟨running_pushDefs (running_setOps h.running chi l) chi l, hcons',
    (h.extend.trans hext).trans hext', ?_, fun d hd => ?_⟩, fun r hr p hp => ?_,
    hext.trans hext', hframe, fun r hr => ⟨hext'.opVer _ (hcover r hr), ?_⟩⟩
  · exact Pushed.pushDefs (t := setOps chi s l) h.pushed chi hnodup
  · rw [hframe d (fun hchi => hd (.inr ⟨site, by simp [hsite], hchi⟩))]
    exact h.frame d hd
  · rw [reaching_snoc, hdef]
    by_cases hrl : r ∈ l
    · rw [if_pos hrl]
      exact htop r hrl
    · rw [if_neg hrl]
      exact hkeep r _ hrl ((hat r hr p hp).mono hext rfl)
  · obtain ⟨v, -, -, hres⟩ := htop r hr
    rw [hres]
    rfl

end

end SVF.MSSA.VersionInvariant
