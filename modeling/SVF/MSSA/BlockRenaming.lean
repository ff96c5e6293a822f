import SVF.MSSA.VersionInvariant

namespace SVF.MSSA.BlockRenaming

open MemorySSA Placement Renaming VersionInvariant Util.Dominance
open Relation (ReflTransGen)

variable {mrGen : MRGenerator} {fn : FunObjVar} {P s t : MemSSA}

section

variable {b : BasicBlock} {pre post : List Site} {site : Site} {regs : List MemRegion}

theorem running_renameSite (hP : Planned mrGen fn P) (h : Running P s) (site : Site) :
    Running P (renameSite (s, regs) site).1 := by
  cases site with
  | load l => exact running_renameMuSet h (.loadMu l) (fun _ => rfl) _
  | store st =>
      have hnodup : (s.store2ChiSetMap st).Nodup := h.store ▸ hP.collected.nodupStore st
      rw [renameSite, renameChiSet_eq (fun _ => rfl) s regs _ hnodup]
      exact running_pushDefs (running_setOps h (.storeChi st) _) _ _
  | call c =>
      have hnodup : (s.callsiteToChiSetMap c).Nodup := h.callChi ▸ hP.collected.nodupCall c
      rw [renameSite, renameChiSet_eq (fun _ => rfl) _ regs _ hnodup]
      exact running_pushDefs (running_setOps
        (running_renameMuSet h (.callMu c) (fun _ => rfl) _) (.callChi c) _) _ _
  | ret => exact running_renameMuSet h .retMu (fun _ => rfl) _

theorem renameStmt_eq (u : MemSSA × List MemRegion) (stmt : Stmt) :
    MemSSA.renameStmt u stmt = (stmtSites stmt).foldl renameSite u := by
  cases stmt <;> rfl

theorem running_foldl (hP : Planned mrGen fn P) (l : List Site) {u : MemSSA × List MemRegion}
    (h : Running P u.1) : Running P (l.foldl renameSite u).1 := by
  induction l generalizing u with
  | nil => exact h
  | cons site l ih => exact ih (running_renameSite hP h site)

theorem eq_nil_of_isNone {l : List MemRegion} {o : Option (List MemRegion)} (ho : o.isSome = false)
    (hl : ∀ r ∈ l, r ∈ o.getD []) : l = [] := by
  rw [Option.isSome_eq_false_iff, Option.isNone_iff_eq_none] at ho
  subst ho
  exact List.eq_nil_iff_forall_not_mem.mpr (fun r hr => absurd (hl r hr) List.not_mem_nil)

theorem renameNode_eq (hP : Planned mrGen fn P) {u : MemSSA × List MemRegion}
    (h : Running P u.1) (inst : ICFGNode) :
    MemSSA.renameNode mrGen u inst = (nodeSites inst).foldl renameSite u := by
  have hstmts : inst.stmts.foldl MemSSA.renameStmt u =
      (inst.stmts.flatMap stmtSites).foldl renameSite u := by
    rw [List.foldl_flatMap]
    exact congrArg (fun f => inst.stmts.foldl f u) (funext fun v => funext (renameStmt_eq v))
  have hrunning := running_foldl hP (inst.stmts.flatMap stmtSites) h
  rw [MemSSA.renameNode, nodeSites, List.foldl_append, hstmts]
  generalize (inst.stmts.flatMap stmtSites).foldl renameSite u = v at *
  cases inst.kind with
  | other => rfl
  | retInst => rfl
  | callSite c =>
      simp only [kindSites, List.foldl_cons, List.foldl_nil, renameSite]
      have hmus : (if (mrGen.callSiteRefMRSet c).isSome then
          (MemSSA.RenameMuSet (.callMu c) v.1 (v.1.callsiteToMuSetMap c), v.2) else v) =
          (MemSSA.RenameMuSet (.callMu c) v.1 (v.1.callsiteToMuSetMap c), v.2) := by
        by_cases href : (mrGen.callSiteRefMRSet c).isSome
        · rw [if_pos href]
        · have hnil : v.1.callsiteToMuSetMap c = [] := eq_nil_of_isNone (by simpa using href)
            (fun r hr => (hP.collected.callMu c r (hrunning.callMu ▸ hr)).1)
          rw [if_neg href, hnil]
          rfl
      have hsame : (MemSSA.RenameMuSet (.callMu c) v.1 (v.1.callsiteToMuSetMap c)).callsiteToChiSetMap
          = v.1.callsiteToChiSetMap := by rw [renameMuSet_eq (.callMu c) (fun _ => rfl)]
      rw [hmus, hsame]
      by_cases hmod : (mrGen.callSiteModMRSet c).isSome
      · rw [if_pos hmod]
      · have hnil : v.1.callsiteToChiSetMap c = [] := eq_nil_of_isNone (by simpa using hmod)
          (fun r hr => (hP.collected.callChi c r (hrunning.callChi ▸ hr)).1)
        rw [if_neg hmod, hnil]
        rfl

theorem foldl_renameNode (hP : Planned mrGen fn P) (nodes : List ICFGNode)
    {u : MemSSA × List MemRegion} (h : Running P u.1) :
    nodes.foldl (MemSSA.renameNode mrGen) u = (nodes.flatMap nodeSites).foldl renameSite u := by
  induction nodes generalizing u with
  | nil => rfl
  | cons inst nodes ih =>
      rw [List.foldl_cons, List.flatMap_cons, List.foldl_append, renameNode_eq hP h]
      exact ih (running_foldl hP (nodeSites inst) h)

structure SiteRenamed (mrGen : MRGenerator) (fn : FunObjVar) (P s₀ s : MemSSA) (b : BasicBlock)
    (pre : List Site) (site : Site) (u : MemSSA × List MemRegion) : Prop where
  renamed : Renamed mrGen fn P s₀ b u.1 u.2
  at_next : At mrGen fn P u.1 b (pre ++ [site])
  extend : Extends s u.1
  frame : ∀ d, ¬ Chis site d → u.1.resVer d = s.resVer d
  covered : SiteCovered mrGen P u.1 site

theorem At.snoc_of_none (h : At mrGen fn P s b pre) (hsite : ∀ r, siteDef mrGen r site = none) :
    At mrGen fn P s b (pre ++ [site]) := by
  intro r hr p hp
  rw [reaching_snoc, hsite]
  exact h r hr p hp

theorem renameSite_renamed (hfn : WellFormed fn) (hP : Planned mrGen fn P) {s₀ : MemSSA}
    (h : Renamed mrGen fn P s₀ b s regs) (hat : At mrGen fn P s b pre) (hb : Reach fn b)
    (hsite : sites fn b = pre ++ site :: post) (hunset : ∀ d, Chis site d → s.resVer d = none) :
    SiteRenamed mrGen fn P s₀ s b pre site (renameSite (s, regs) site) := by
  have hcover := hP.covered b ((hfn.reachable b).mpr hb) site (by simp [hsite])
  cases site with
  | load l =>
      rw [renameSite, h.running.load]
      obtain ⟨hren, hat', hext, hassigned⟩ := renamed_mus hfn h hat hb hsite (.loadMu l)
        (fun _ => rfl) (fun _ => rfl) (fun r hr => (hP.collected.load l r hr).2)
      refine ⟨hren, At.snoc_of_none hat' (fun _ => rfl), hext, fun d _ => ?_,
        fun r hr => hassigned r (hcover r hr)⟩
      rw [renameMuSet_eq (.loadMu l) (fun _ => rfl)]
  | ret =>
      rw [renameSite, h.running.returnMu]
      obtain ⟨hren, hat', hext, hassigned⟩ := renamed_mus hfn h hat hb hsite .retMu
        (fun _ => rfl) (fun _ => trivial) hP.returnUsed
      refine ⟨hren, At.snoc_of_none hat' (fun _ => rfl), hext, fun d _ => ?_, hassigned⟩
      rw [renameMuSet_eq .retMu (fun _ => rfl)]
  | store st =>
      rw [renameSite, h.running.store]
      have hmem : ∀ r, r ∈ mrGen.storeMRSet st ↔ r ∈ P.store2ChiSetMap st :=
        fun r => ⟨fun hr => (hcover r hr).1, fun hr => (hP.collected.store st r hr).1⟩
      obtain ⟨hren, hat', hext, hframe, hassigned⟩ := renamed_chis hfn h hat hb hsite
        (.storeChi st) (fun _ => rfl) (fun _ => rfl) (hP.collected.nodupStore st)
        (fun r hr => (hP.collected.store st r hr).2) (fun r => hunset _ rfl)
        (fun r => by rw [siteDef]; exact if_congr (hmem r) rfl rfl)
      exact ⟨hren, hat', hext, hframe, fun r hr => hassigned r ((hmem r).mp hr)⟩
  | call c =>
      rw [renameSite, h.running.callMu, h.running.callChi]
      have hmem : ∀ r, r ∈ modRegs mrGen c ↔ r ∈ P.callsiteToChiSetMap c :=
        fun r => ⟨fun hr => (hcover.2 r hr).1, fun hr => (hP.collected.callChi c r hr).1⟩
      obtain ⟨hren, hat', hext, hassigned⟩ := renamed_mus hfn h hat hb hsite (.callMu c)
        (fun _ => rfl) (fun _ => rfl) (fun r hr => (hP.collected.callMu c r hr).2)
      have hres : (MemSSA.RenameMuSet (.callMu c) s (P.callsiteToMuSetMap c)).resVer = s.resVer := by
        rw [renameMuSet_eq (.callMu c) (fun _ => rfl)]
      obtain ⟨hren', hat'', hext', hframe, hassigned'⟩ := renamed_chis hfn hren hat' hb hsite
        (.callChi c) (fun _ => rfl) (fun _ => rfl) (hP.collected.nodupCall c)
        (fun r hr => (hP.collected.callChi c r hr).2) (fun r => by rw [hres]; exact hunset _ rfl)
        (fun r => by rw [siteDef]; exact if_congr (hmem r) rfl rfl)
      refine ⟨hren', hat'', hext.trans hext', fun d hd => ?_, fun r hr => ?_,
        fun r hr => hassigned' r ((hmem r).mp hr)⟩
      · rw [hframe d hd, hres]
      · exact hext'.muVer _ (hassigned r (hcover.1 r hr))

theorem foldl_renameSite (hfn : WellFormed fn) (hP : Planned mrGen fn P) {s₀ : MemSSA}
    (h : Renamed mrGen fn P s₀ b s regs) (hat : At mrGen fn P s b pre) (hb : Reach fn b)
    (hsites : sites fn b = pre ++ post)
    (hunset : ∀ site ∈ post, ∀ d, Chis site d → s.resVer d = none) :
    Renamed mrGen fn P s₀ b (post.foldl renameSite (s, regs)).1
        (post.foldl renameSite (s, regs)).2 ∧
      At mrGen fn P (post.foldl renameSite (s, regs)).1 b (sites fn b) ∧
      Extends s (post.foldl renameSite (s, regs)).1 ∧
      ∀ site ∈ post, SiteCovered mrGen P (post.foldl renameSite (s, regs)).1 site := by
  induction post generalizing pre s regs with
  | nil =>
      rw [hsites, List.append_nil]
      exact ⟨h, hat, .refl s, by simp⟩
  | cons site post ih =>
      have hstep := renameSite_renamed hfn hP h hat hb hsites (hunset site List.mem_cons_self)
      have hnodup := (List.nodup_flatMap.mp hfn.nodupSites).1 b ((hfn.reachable b).mpr hb)
      rw [hsites, List.nodup_append] at hnodup
      have hnot : site ∉ post := (List.nodup_cons.mp hnodup.2.1).1
      have hnext : ∀ site' ∈ post, ∀ d, Chis site' d →
          (renameSite (s, regs) site).1.resVer d = none := by
        intro site' hsite' d hd
        rw [hstep.frame d (fun hchi => hnot (chis_unique hd hchi ▸ hsite'))]
        exact hunset site' (List.mem_cons_of_mem site hsite') d hd
      obtain ⟨hren, hat', hext, hcovered⟩ := ih hstep.renamed hstep.at_next
        (by rw [hsites, List.append_assoc, List.singleton_append]) hnext
      refine ⟨hren, hat', hstep.extend.trans hext, fun x hx => ?_⟩
      rcases List.mem_cons.mp hx with rfl | hx
      · exact hstep.covered.mono hext
      · exact hcovered x hx

end

section

variable {b : BasicBlock}

theorem renamePhiOps_eq (succ : BasicBlock) (pos : ℕ) (s : MemSSA) (l : List MemRegion) :
    MemSSA.RenamePhiOps succ pos s l = { s with
      phiOpVer := fun y r i =>
        if y = succ ∧ r ∈ l ∧ i = pos then s.getTopStackVer r else s.phiOpVer y r i } := by
  induction l generalizing s with
  | nil => simp [MemSSA.RenamePhiOps]
  | cons x l ih =>
      have hstep := ih (s.setPhiOpVer succ x pos (s.getTopStackVer x))
      rw [MemSSA.RenamePhiOps] at hstep ⊢
      rw [List.foldl_cons, hstep]
      simp only [MemSSA.setPhiOpVer, MemSSA.getTopStackVer, MemSSA.mk.injEq, true_and]
      funext y r i
      by_cases hy : y = succ
      · subst hy
        by_cases hr : r = x
        · subst hr
          by_cases hi : i = pos
          · simp [hi]
          · simp [hi]
        · simp [hr]
      · simp [hy]

theorem phiOps_step (hfn : WellFormed fn) (hP : Planned mrGen fn P) (hrun : Running P s)
    (hcons : Consistent mrGen fn P s) (hat : At mrGen fn P s b (sites fn b)) (hb : Reach fn b)
    {succ : BasicBlock} (hsucc : succ ∈ fn.successors b) :
    let t := MemSSA.RenamePhiOps succ (MemSSA.getBBPredecessorPos fn b succ) s
      (s.bb2PhiSetMap succ)
    Running P t ∧ Consistent mrGen fn P t ∧ Extends s t ∧
      t.mr2VerStackMap = s.mr2VerStackMap ∧ t.resVer = s.resVer ∧
      ∀ r ∈ P.bb2PhiSetMap succ,
        (t.phiOpVer succ r (MemSSA.getBBPredecessorPos fn b succ)).isSome := by
  rw [renamePhiOps_eq, hrun.phi]
  refine ⟨⟨hrun.load, hrun.store, hrun.callMu, hrun.callChi, rfl, hrun.returnMu, hrun.used⟩,
    { hcons with phiOp := fun y r i v hv => ?_ }, ⟨fun _ _ hd => hd, fun _ hm => hm, fun _ hd => hd,
    fun y r i hi => ?_⟩, rfl, rfl, fun r hr => ?_⟩
  · simp only at hv
    split at hv
    · rename_i hmem
      obtain ⟨rfl, hr, rfl⟩ := hmem
      obtain ⟨hres, hreaching⟩ := hat.reaching_eq (hP.phiUsed y r hr) hv hb
      refine ⟨hres, fun a _ hpos p hp => ?_⟩
      have hab : a = b := by
        have hmem : b ∈ fn.predecessors y := (hfn.preds b y).mpr hsucc
        rw [MemSSA.getBBPredecessorPos, List.getElem?_eq_getElem (List.idxOf_lt_length_of_mem hmem),
          List.getElem_idxOf, Option.some.injEq] at hpos
        exact hpos.symm
      subst hab
      exact hreaching p hp
    · exact hcons.phiOp y r i v hv
  · simp only
    split
    · rename_i hmem
      exact hat.isSome (hP.phiUsed succ r (hmem.1 ▸ hmem.2.1)) hb
    · exact hi
  · simp only [true_and, and_true, if_pos hr]
    exact hat.isSome (hP.phiUsed succ r hr) hb

structure BlockCovered (mrGen : MRGenerator) (fn : FunObjVar) (P s : MemSSA) (b : BasicBlock) :
    Prop where
  sites : ∀ site ∈ sites fn b, SiteCovered mrGen P s site
  phi : ∀ r ∈ P.bb2PhiSetMap b, (s.resVer (.phi b r)).isSome
  phiOps : ∀ y ∈ fn.successors b, ∀ r ∈ P.bb2PhiSetMap y,
    (s.phiOpVer y r (MemSSA.getBBPredecessorPos fn b y)).isSome

theorem BlockCovered.mono (h : Extends s t) (hs : BlockCovered mrGen fn P s b) :
    BlockCovered mrGen fn P t b :=
  ⟨fun site hsite => (hs.sites site hsite).mono h, fun r hr => h.resVer_isSome (hs.phi r hr),
    fun y hy r hr => h.phiOpVer _ _ _ (hs.phiOps y hy r hr)⟩

theorem foldl_phiOps (hfn : WellFormed fn) (hP : Planned mrGen fn P) (hrun : Running P s)
    (hcons : Consistent mrGen fn P s) (hat : At mrGen fn P s b (sites fn b)) (hb : Reach fn b)
    (succs : List BasicBlock) (hsuccs : ∀ y ∈ succs, y ∈ fn.successors b) :
    let t := succs.foldl (fun s succ => MemSSA.RenamePhiOps succ
      (MemSSA.getBBPredecessorPos fn b succ) s (s.bb2PhiSetMap succ)) s
    Running P t ∧ Consistent mrGen fn P t ∧ Extends s t ∧
      t.mr2VerStackMap = s.mr2VerStackMap ∧ t.resVer = s.resVer ∧
      ∀ y ∈ succs, ∀ r ∈ P.bb2PhiSetMap y,
        (t.phiOpVer y r (MemSSA.getBBPredecessorPos fn b y)).isSome := by
  induction succs generalizing s with
  | nil => exact ⟨hrun, hcons, .refl s, rfl, rfl, by simp⟩
  | cons y succs ih =>
      obtain ⟨hrun₁, hcons₁, hext₁, hstack₁, hres₁, hcovered₁⟩ :=
        phiOps_step hfn hP hrun hcons hat hb (hsuccs y List.mem_cons_self)
      obtain ⟨hrun₂, hcons₂, hext₂, hstack₂, hres₂, hcovered₂⟩ := ih hrun₁ hcons₁
        (fun r hr p hp => (hat r hr p hp).mono hext₁ hstack₁)
        (fun z hz => hsuccs z (List.mem_cons_of_mem y hz))
      refine ⟨hrun₂, hcons₂, hext₁.trans hext₂, hstack₂.trans hstack₁, hres₂.trans hres₁,
        fun z hz r hr => ?_⟩
      rcases List.mem_cons.mp hz with rfl | hz
      · exact hext₂.phiOpVer _ _ _ (hcovered₁ r hr)
      · exact hcovered₂ z hz r hr

structure Enter (mrGen : MRGenerator) (fn : FunObjVar) (P s : MemSSA) (b : BasicBlock) : Prop where
  running : Running P s
  consistent : Consistent mrGen fn P s
  top : ∀ r ∈ P.usedRegs, r ∉ P.bb2PhiSetMap b → ∀ p, PathTo fn b p →
    Top s r (lastDef mrGen fn P.bb2PhiSetMap r p)
  unset : ∀ y d, Reach fn y → Dom (edge fn) fn.entryBlock b y → InBlock fn y d → s.resVer d = none

theorem renameBlock_renamed (hfn : WellFormed fn) (hP : Planned mrGen fn P)
    (h : Enter mrGen fn P s b) (hb : Reach fn b) :
    Renamed mrGen fn P s b (MemSSA.renameBlock mrGen fn s b).1
        (MemSSA.renameBlock mrGen fn s b).2 ∧
      At mrGen fn P (MemSSA.renameBlock mrGen fn s b).1 b (sites fn b) ∧
      BlockCovered mrGen fn P (MemSSA.renameBlock mrGen fn s b).1 b := by
  have hunset : ∀ d, InBlock fn b d → s.resVer d = none := fun d => h.unset b d hb (dom_refl b)
  obtain ⟨hcons, hext, htop, hkeep⟩ := push_step h.consistent (.phi b) (fun _ => rfl)
    (hP.phiUsed b) (fun r _ => hunset _ (.inl ⟨r, rfl⟩))
  have hphis : Renamed mrGen fn P s b (pushDefs (.phi b) s (P.bb2PhiSetMap b))
      ((P.bb2PhiSetMap b).reverse ++ []) := by
    refine ⟨running_pushDefs h.running (.phi b) _, hcons, hext,
      (Pushed.refl s).pushDefs (.phi b) (hP.phiNodup b), fun d hd => ?_⟩
    have hnot : d ∉ (P.bb2PhiSetMap b).map (.phi b) := by
      intro hmem
      obtain ⟨r, -, rfl⟩ := List.mem_map.mp hmem
      exact hd (.inl ⟨r, rfl⟩)
    simp only [pushDefs, if_neg hnot]
  have hat : At mrGen fn P (pushDefs (.phi b) s (P.bb2PhiSetMap b)) b [] := by
    intro r hr p hp
    change Top _ r (joinDef P.bb2PhiSetMap r b (lastDef mrGen fn P.bb2PhiSetMap r p))
    rw [joinDef]
    split
    · rename_i hphi
      exact htop r hphi
    · rename_i hphi
      exact hkeep r _ hphi (h.top r hr hphi p hp)
  have hsites : ∀ site ∈ sites fn b, ∀ d, Chis site d →
      (pushDefs (.phi b) s (P.bb2PhiSetMap b)).resVer d = none := by
    intro site hsite d hd
    have hnot : d ∉ (P.bb2PhiSetMap b).map (.phi b) := by
      intro hmem
      obtain ⟨r, -, rfl⟩ := List.mem_map.mp hmem
      cases site <;> exact hd
    simp only [pushDefs, if_neg hnot]
    exact hunset d (.inr ⟨site, hsite, hd⟩)
  obtain ⟨hren, hat', hext', hcovered⟩ := foldl_renameSite hfn hP hphis hat hb
    (show sites fn b = [] ++ sites fn b from rfl) hsites
  obtain ⟨hrun₂, hcons₂, hext₂, hstack₂, hres₂, hops⟩ := foldl_phiOps hfn hP hren.running
    hren.consistent hat' hb (fn.successors b) (fun _ hy => hy)
  have hblock : MemSSA.renameBlock mrGen fn s b =
      ((fn.successors b).foldl (fun s succ => MemSSA.RenamePhiOps succ
        (MemSSA.getBBPredecessorPos fn b succ) s (s.bb2PhiSetMap succ))
        ((sites fn b).foldl renameSite (pushDefs (.phi b) s (P.bb2PhiSetMap b),
          (P.bb2PhiSetMap b).reverse ++ [])).1,
        ((sites fn b).foldl renameSite (pushDefs (.phi b) s (P.bb2PhiSetMap b),
          (P.bb2PhiSetMap b).reverse ++ [])).2) := by
    rw [MemSSA.renameBlock, h.running.phi, renamePhiRes_eq b s [] _ (hP.phiNodup b)]
    have hnodes := foldl_renameNode hP (fn.icfgNodeList b)
      (u := (pushDefs (.phi b) s (P.bb2PhiSetMap b), (P.bb2PhiSetMap b).reverse ++ [])) hphis.running
    rw [hnodes]
    rfl
  rw [hblock]
  refine ⟨⟨hrun₂, hcons₂, hren.extend.trans hext₂, fun r => ?_, fun d hd => ?_⟩,
    fun r hr p hp => (hat' r hr p hp).mono hext₂ hstack₂,
    ⟨fun site hsite => (hcovered site hsite).mono hext₂, fun r hr => ?_, hops⟩⟩
  · rw [hstack₂]
    exact hren.pushed r
  · rw [hres₂]
    exact hren.frame d hd
  · obtain ⟨v, -, -, hres⟩ := htop r hr
    refine hext₂.resVer_isSome (hext'.resVer_isSome ?_)
    rw [hres]
    rfl

end

end SVF.MSSA.BlockRenaming
