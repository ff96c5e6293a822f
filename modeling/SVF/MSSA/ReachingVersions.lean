import SVF.MSSA.TreeRenaming

namespace SVF.MSSA.ReachingVersions

open MemorySSA Placement Renaming VersionInvariant BlockRenaming TreeRenaming Util.Dominance
open Relation (ReflTransGen)

section

variable (mrGen : MRGenerator) (fn : FunObjVar) (s : MemSSA)

/-- The mus of a place: those of its regions, and at the exit those of the function. -/
def SiteMu : Site → MSSAMU → Prop
  | .load l, .loadMu l' r => l' = l ∧ r ∈ mrGen.loadMRSet l
  | .call c, .callMu c' r => c' = c ∧ r ∈ refRegs mrGen c
  | .ret, .retMu r => r ∈ s.returnMuSet
  | _, _ => False

def SiteChi (site : Site) (d : MSSADEF) : Prop := siteDef mrGen d.mr site = some d

def Defined : MSSADEF → Prop
  | .entryChi r => r ∈ s.usedRegs
  | .phi b r => Reach fn b ∧ r ∈ s.bb2PhiSetMap b
  | d => ∃ b, Reach fn b ∧ ∃ site ∈ sites fn b, SiteChi mrGen site d

/-- `ver` is the version of the definition of `r` that is the last one on each of
the paths. -/
def IsReaching (r : MemRegion) (ver : Option MRVer) (last : List BasicBlock → MSSADEF)
    (b : BasicBlock) : Prop :=
  ∃ v, ver = some v ∧ v.mr = r ∧ Defined mrGen fn s v.ssaDef ∧ s.resVer v.ssaDef = some v ∧
    ∀ p, PathTo fn b p → last p = v.ssaDef

/-- The memory SSA of a function is right. The definitions of the region that
reach a place are the last ones on the paths from the entry to the place. -/
structure Right : Prop where
  mu : ∀ b pre site post m, Reach fn b → sites fn b = pre ++ site :: post →
    SiteMu mrGen s site m →
    IsReaching mrGen fn s m.mr (s.muVer m)
      (fun p => reaching mrGen fn s.bb2PhiSetMap m.mr b p pre) b
  chi : ∀ b pre site post d, Reach fn b → sites fn b = pre ++ site :: post →
    SiteChi mrGen site d →
    IsReaching mrGen fn s d.mr (s.opVer d)
      (fun p => reaching mrGen fn s.bb2PhiSetMap d.mr b p pre) b
  entry : ∀ r ∈ s.usedRegs, s.opVer (.entryChi r) = some ⟨r, 0, .entryChi r⟩
  phi : ∀ b r a i, r ∈ s.bb2PhiSetMap b → Reach fn a → (fn.predecessors b)[i]? = some a →
    IsReaching mrGen fn s r (s.phiOpVer b r i)
      (fun p => lastDef mrGen fn s.bb2PhiSetMap r (a :: p)) a
  res : ∀ d, Defined mrGen fn s d →
    ∃ v, s.resVer d = some v ∧ v.mr = d.mr ∧ v.ssaDef = d ∧ 0 < v.version
  distinct : ∀ d d' v v', s.resVer d = some v → s.resVer d' = some v' → d.mr = d'.mr →
    v.version = v'.version → d = d'
  stack : ∀ r ∈ s.usedRegs,
    s.mr2VerStackMap r = [⟨r, 1, .entryChi r⟩, ⟨r, 0, .entryChi r⟩]

end

variable {mrGen : MRGenerator} {fn : FunObjVar} {P s t : MemSSA}

section

variable {r : MemRegion} {b : BasicBlock}

theorem siteDef_mr {site : Site} {d : MSSADEF} (h : siteDef mrGen r site = some d) : d.mr = r := by
  cases site with
  | store st =>
      rw [siteDef] at h
      split at h
      · cases h
        rfl
      · cases h
  | call c =>
      rw [siteDef] at h
      split at h
      · cases h
        rfl
      · cases h
  | load l => cases h
  | ret => cases h

theorem defined_of_siteChi {site : Site} {d : MSSADEF} (hb : Reach fn b) (hsite : site ∈ sites fn b)
    (hd : SiteChi mrGen site d) : Defined mrGen fn s d := by
  cases d with
  | storeChi st r => exact ⟨b, hb, site, hsite, hd⟩
  | callChi c r => exact ⟨b, hb, site, hsite, hd⟩
  | entryChi r =>
      cases site <;> simp [SiteChi, siteDef] at hd
  | phi b' r =>
      cases site <;> simp [SiteChi, siteDef] at hd

abbrev DefinesReg (mrGen : MRGenerator) (fn : FunObjVar) (s : MemSSA) (r : MemRegion)
    (d : MSSADEF) : Prop :=
  d.mr = r ∧ Defined mrGen fn s d

theorem definesReg_defAfter (hb : Reach fn b) {l : List Site} (hl : ∀ site ∈ l, site ∈ sites fn b)
    {d : MSSADEF} (hd : DefinesReg mrGen fn s r d) :
    DefinesReg mrGen fn s r (defAfter mrGen r d l) := by
  induction l generalizing d with
  | nil => exact hd
  | cons site l ih =>
      refine ih (fun x hx => hl x (List.mem_cons_of_mem site hx)) ?_
      change DefinesReg mrGen fn s r ((siteDef mrGen r site).getD d)
      cases hsite : siteDef mrGen r site with
      | none => exact hd
      | some d' =>
          have hmr := siteDef_mr hsite
          refine ⟨hmr, defined_of_siteChi hb (hl site List.mem_cons_self) ?_⟩
          rw [Option.getD_some, SiteChi, hmr]
          exact hsite

theorem definesReg_joinDef (hb : Reach fn b) {d : MSSADEF} (hd : DefinesReg mrGen fn s r d) :
    DefinesReg mrGen fn s r (joinDef s.bb2PhiSetMap r b d) := by
  rw [joinDef]
  split
  · rename_i hphi
    exact ⟨rfl, hb, hphi⟩
  · exact hd

theorem definesReg_lastDef (hr : r ∈ s.usedRegs) {p : List BasicBlock}
    (hp : ∀ b ∈ p, Reach fn b) : DefinesReg mrGen fn s r (lastDef mrGen fn s.bb2PhiSetMap r p) := by
  induction p with
  | nil => exact ⟨rfl, hr⟩
  | cons b p ih =>
      have hb := hp b List.mem_cons_self
      exact definesReg_defAfter hb (fun _ hsite => hsite)
        (definesReg_joinDef hb (ih (fun x hx => hp x (List.mem_cons_of_mem b hx))))

theorem definesReg_reaching (hr : r ∈ s.usedRegs) {p : List BasicBlock} (hp : PathTo fn b p)
    {pre : List Site} (hpre : ∀ site ∈ pre, site ∈ sites fn b) :
    DefinesReg mrGen fn s r (reaching mrGen fn s.bb2PhiSetMap r b p pre) :=
  have hb : Reach fn b := ⟨p, hp⟩
  definesReg_defAfter hb hpre (definesReg_joinDef hb
    (definesReg_lastDef hr (fun _ hx => hp.reachable_of_mem (List.mem_cons_of_mem b hx))))

end

theorem enter_entryBlock (hP : Planned mrGen fn s) {done : List MemRegion} (h : Started done s)
    (hdone : ∀ r, r ∈ done ↔ r ∈ s.usedRegs) : Enter mrGen fn s s fn.entryBlock := by
  refine ⟨⟨rfl, rfl, rfl, rfl, rfl, rfl, rfl⟩, ?_, fun r hr hphi p hp => ?_, fun y d _ _ hd => ?_⟩
  · constructor
    case counter =>
      intro r hr
      rw [h.counter r ((hdone r).mpr hr)]
      exact Nat.zero_lt_two
    case res =>
      intro d v hd
      obtain ⟨r, hr, rfl, rfl⟩ := h.res_only d v hd
      refine ⟨rfl, rfl, Nat.zero_lt_one, ?_⟩
      change 1 < s.mr2CounterMap r
      rw [h.counter r hr]
      exact Nat.one_lt_two
    case distinct =>
      intro d d' v v' hd hd' hmr _
      obtain ⟨r, -, rfl, -⟩ := h.res_only d v hd
      obtain ⟨r', -, rfl, -⟩ := h.res_only d' v' hd'
      exact congrArg MSSADEF.entryChi hmr
    case mu =>
      intro m v hv
      rw [h.muVer] at hv
      cases hv
    case op =>
      intro d v hv
      obtain ⟨r, -, hd, hv⟩ := h.op_only d v hv
      exact .inl ⟨r, hd, hv⟩
    case phiOp =>
      intro b r i v hv
      rw [h.phiOpVer] at hv
      cases hv
  · have hnone := not_defined_entry (P := fun y => r ∈ s.bb2PhiSetMap y)
      (S := Defines mrGen fn s.bb2PhiSetMap r) (fun _ hy => .inl hy) (hP.closed r hr) hphi hp
    have hlast := lastDef_append s.bb2PhiSetMap [] hnone
    rw [List.append_nil, lastDef] at hlast
    rw [hlast]
    have hr' := (hdone r).mpr hr
    refine ⟨⟨r, 1, .entryChi r⟩, ?_, rfl, h.res r hr'⟩
    rw [MemSSA.getTopStackVer, h.stack r hr']
    rfl
  · by_contra hne
    obtain ⟨v, hv⟩ := Option.ne_none_iff_exists'.mp hne
    obtain ⟨r, -, rfl, -⟩ := h.res_only d v hv
    rcases hd with ⟨r', hr'⟩ | ⟨site, -, hchi⟩
    · cases hr'
    · cases site <;> exact hchi.elim

theorem inTree_entryBlock (hfn : WellFormed fn) {c : BasicBlock} (hc : Reach fn c) :
    ReflTransGen (Child fn) fn.entryBlock c := by
  refine descendant_of_sdom (E := edge fn) (fun c hc hne => ?_) hc
  obtain ⟨b, hb, hchild⟩ := hfn.treeComplete c hc hne
  exact ⟨b, hchild, (hfn.treeSound b hb c hchild).2.1⟩

section

variable {b : BasicBlock}

theorem isReaching_of {ver : Option MRVer} {v : MRVer} {r : MemRegion}
    {last : List BasicBlock → MSSADEF} (hcons : Consistent mrGen fn P s) (hb : Reach fn b)
    (hver : ver = some v) (hres : s.resVer v.ssaDef = some v)
    (hlast : ∀ p, PathTo fn b p → last p = v.ssaDef)
    (hdef : ∀ p, PathTo fn b p → DefinesReg mrGen fn s r (last p)) :
    IsReaching mrGen fn s r ver last b := by
  obtain ⟨p, hp⟩ := hb
  have hdef := hdef p hp
  rw [hlast p hp] at hdef
  exact ⟨v, hver, (hcons.res _ v hres).2.1.trans hdef.1, hdef.2, hres, hlast⟩

theorem siteMu_isSome (hP : Planned mrGen fn P) (hrun : Running P s) {site : Site}
    (hcover : Covered mrGen b P site) (hsite : SiteCovered mrGen P s site) {m : MSSAMU}
    (hm : SiteMu mrGen s site m) : (s.muVer m).isSome ∧ m.mr ∈ P.usedRegs ∧ Uses site m := by
  cases site with
  | load l =>
      cases m with
      | loadMu l' r =>
          obtain ⟨rfl, hr⟩ := hm
          exact ⟨hsite r hr, (hP.collected.load l' r (hcover r hr)).2, rfl⟩
      | callMu _ _ => exact hm.elim
      | retMu _ => exact hm.elim
  | call c =>
      cases m with
      | callMu c' r =>
          obtain ⟨rfl, hr⟩ := hm
          exact ⟨hsite.1 r hr, (hP.collected.callMu c' r (hcover.1 r hr)).2, rfl⟩
      | loadMu _ _ => exact hm.elim
      | retMu _ => exact hm.elim
  | ret =>
      cases m with
      | retMu r =>
          have hr : r ∈ P.returnMuSet := hrun.returnMu ▸ hm
          exact ⟨hsite r hr, hP.returnUsed r hr, trivial⟩
      | loadMu _ _ => exact hm.elim
      | callMu _ _ => exact hm.elim
  | store _ => exact hm.elim

theorem siteChi_isSome (hP : Planned mrGen fn P) {site : Site} (hcover : Covered mrGen b P site)
    (hsite : SiteCovered mrGen P s site) {d : MSSADEF} (hd : SiteChi mrGen site d) :
    (s.opVer d).isSome ∧ (s.resVer d).isSome ∧ d.mr ∈ P.usedRegs ∧ Chis site d := by
  cases site with
  | store st =>
      rw [SiteChi, siteDef] at hd
      split at hd
      · rename_i hr
        rw [Option.some.injEq] at hd
        rw [← hd]
        exact ⟨(hsite _ hr).1, (hsite _ hr).2, (hP.collected.store st _ (hcover _ hr).1).2, rfl⟩
      · cases hd
  | call c =>
      rw [SiteChi, siteDef] at hd
      split at hd
      · rename_i hr
        rw [Option.some.injEq] at hd
        rw [← hd]
        exact ⟨(hsite.2 _ hr).1, (hsite.2 _ hr).2,
          (hP.collected.callChi c _ (hcover.2 _ hr).1).2, rfl⟩
      · cases hd
  | load _ => cases hd
  | ret => cases hd

theorem right_of_subtree (hfn : WellFormed fn) (hP : Planned mrGen fn P) {done : List MemRegion}
    (hstart : Started done P) (hdone : ∀ r, r ∈ done ↔ r ∈ P.usedRegs)
    (h : Subtree mrGen fn P P fn.entryBlock s) : Right mrGen fn s := by
  have hcons := h.consistent
  have hcovered : ∀ b, Reach fn b → BlockCovered mrGen fn P s b :=
    fun b hb => h.covered b (inTree_entryBlock hfn hb)
  have hsite : ∀ b, Reach fn b → ∀ site ∈ sites fn b,
      Covered mrGen b P site ∧ SiteCovered mrGen P s site := fun b hb site hsite =>
    ⟨hP.covered b ((hfn.reachable b).mpr hb) site hsite, (hcovered b hb).sites site hsite⟩
  have hused : ∀ r, r ∈ P.usedRegs ↔ r ∈ s.usedRegs := fun r => by rw [h.running.used]
  constructor
  case mu =>
    intro b pre site post m hb hsplit hm
    obtain ⟨hcover, hcovered⟩ := hsite b hb site (by simp [hsplit])
    obtain ⟨hsome, hr, huses⟩ := siteMu_isSome hP h.running hcover hcovered hm
    obtain ⟨v, hv⟩ := Option.isSome_iff_exists.mp hsome
    obtain ⟨hres, hright⟩ := hcons.mu m v hv
    rw [h.running.phi.symm] at hright
    exact isReaching_of hcons hb hv hres (hright b pre site post hb hsplit huses)
      (fun p hp => definesReg_reaching ((hused _).mp hr) hp (by simp_all))
  case chi =>
    intro b pre site post d hb hsplit hd
    obtain ⟨hcover, hcovered⟩ := hsite b hb site (by simp [hsplit])
    obtain ⟨hsome, -, hr, hchi⟩ := siteChi_isSome hP hcover hcovered hd
    obtain ⟨v, hv⟩ := Option.isSome_iff_exists.mp hsome
    rcases hcons.op d v hv with ⟨r, rfl, -⟩ | ⟨-, hres, hright⟩
    · cases site <;> exact hchi.elim
    · rw [h.running.phi.symm] at hright
      exact isReaching_of hcons hb hv hres (hright b pre site post hb hsplit hchi)
        (fun p hp => definesReg_reaching ((hused _).mp hr) hp (by simp_all))
  case entry =>
    intro r hr
    have hop := hstart.op r ((hdone r).mpr ((hused r).mpr hr))
    obtain ⟨v, hv⟩ := Option.isSome_iff_exists.mp (h.extend.opVer _ (by rw [hop]; rfl))
    rcases hcons.op _ v hv with ⟨r', heq, rfl⟩ | ⟨⟨site, hchi⟩, -⟩
    · cases heq
      exact hv
    · cases site <;> exact hchi.elim
  case phi =>
    intro b r a i hr ha hi
    have hr' : r ∈ P.bb2PhiSetMap b := h.running.phi ▸ hr
    have hpred : b ∈ fn.successors a := (hfn.preds a b).mp (List.mem_of_getElem? hi)
    have hpos : MemSSA.getBBPredecessorPos fn a b = i := by
      obtain ⟨hlt, rfl⟩ := List.getElem?_eq_some_iff.mp hi
      exact (hfn.nodupPreds b).idxOf_getElem i hlt
    have hsome := (hcovered a ha).phiOps b hpred r hr'
    rw [hpos] at hsome
    obtain ⟨v, hv⟩ := Option.isSome_iff_exists.mp hsome
    obtain ⟨hres, hright⟩ := hcons.phiOp b r i v hv
    rw [h.running.phi.symm] at hright
    refine isReaching_of hcons ha hv hres (hright a ha hi) (fun p hp => ?_)
    exact definesReg_lastDef ((hused r).mp (hP.phiUsed b r hr'))
      (fun x hx => hp.reachable_of_mem hx)
  case res =>
    intro d hd
    have hsome : (s.resVer d).isSome := by
      cases d with
      | entryChi r =>
          exact h.extend.resVer_isSome (by rw [hstart.res r ((hdone r).mpr ((hused r).mpr hd))]; rfl)
      | phi b r => exact (hcovered b hd.1).phi r (h.running.phi ▸ hd.2)
      | storeChi st r =>
          obtain ⟨b, hb, site, hmem, hchi⟩ := hd
          obtain ⟨hcover, hcovered⟩ := hsite b hb site hmem
          exact (siteChi_isSome hP hcover hcovered hchi).2.1
      | callChi c r =>
          obtain ⟨b, hb, site, hmem, hchi⟩ := hd
          obtain ⟨hcover, hcovered⟩ := hsite b hb site hmem
          exact (siteChi_isSome hP hcover hcovered hchi).2.1
    obtain ⟨v, hv⟩ := Option.isSome_iff_exists.mp hsome
    obtain ⟨hdef, hmr, hpos, -⟩ := hcons.res d v hv
    exact ⟨v, hv, hmr, hdef, hpos⟩
  case distinct => exact hcons.distinct
  case stack =>
    intro r hr
    rw [h.stack]
    exact hstart.stack r ((hdone r).mpr ((hused r).mpr hr))

end

/-- With enough fuel the construction ends, and its memory SSA is right. -/
theorem buildMemSSA_right (mrGen : MRGenerator) {fn : FunObjVar} (hfn : WellFormed fn)
    (mr2VerStackMap : MemRegion → List MRVer) (mr2CounterMap : MemRegion → ℕ) :
    ∃ n, ∀ fuel ≥ n, ∃ s,
      buildMemSSA fuel mrGen fn mr2VerStackMap mr2CounterMap = some s ∧ Right mrGen fn s := by
  obtain ⟨n, hplan⟩ := exists_plan mrGen hfn mr2VerStackMap mr2CounterMap
  refine ⟨max n (fn.reachableBBs.length + 1), fun fuel hfuel => ?_⟩
  obtain ⟨P, hrun, hP, done, hstart, hdone⟩ := hplan fuel (by omega)
  obtain ⟨s, hrename, htree⟩ := SSARenameBB_subtree hfn hP fuel (enter_entryBlock hP hstart hdone)
    ⟨[], .start⟩ [] List.nodup_nil (by simp) (by rw [List.length_nil]; omega)
  refine ⟨s, ?_, right_of_subtree hfn hP hstart hdone htree⟩
  rw [buildMemSSA, hrun]
  exact hrename

/-- A loop at block 1 reads and writes the region; block 2 is dead code that jumps to it. -/
def deadPredecessor : FunObjVar where
  entryBlock := 0
  reachableBBs := [0, 1]
  icfgNodeList b := if b = 1 then [⟨[.load 0, .store 0], .other⟩] else []
  successors b := if b ≤ 2 then [1] else []
  predecessors b := if b = 1 then [0, 1, 2] else []
  domFrontierMap b := if b = 1 then some [1] else none
  domTreeMap b := if b = 0 then some [1] else none
  hasReturn := false

def oneRegion : MRGenerator where
  loadMRSet _ := [7]
  storeMRSet _ := [7]
  callSiteRefMRSet _ := none
  callSiteModMRSet _ := none

theorem edge_deadPredecessor {a b : BasicBlock} : edge deadPredecessor a b ↔ a ≤ 2 ∧ b = 1 := by
  by_cases ha : a ≤ 2 <;> simp [edge, deadPredecessor, ha]

theorem reach_deadPredecessor {b : BasicBlock} : Reach deadPredecessor b ↔ b = 0 ∨ b = 1 := by
  have hentry : Reach deadPredecessor 0 := ⟨[], .start⟩
  constructor
  · rintro ⟨p, hp⟩
    cases hp with
    | start => exact .inl rfl
    | step _ _ _ _ hab => exact .inr (edge_deadPredecessor.mp hab).2
  · rintro (rfl | rfl)
    · exact hentry
    · exact hentry.step (edge_deadPredecessor.mpr ⟨Nat.zero_le 2, rfl⟩)

theorem dom_deadPredecessor {b y : BasicBlock} (hb : Dom (edge deadPredecessor) 0 b y)
    (hy : Reach deadPredecessor y) : b = 0 ∨ b = y := by
  rcases reach_deadPredecessor.mp hy with rfl | rfl
  · exact .inl (List.mem_singleton.mp (hb [] .start))
  · have hpath : Path (edge deadPredecessor) 0 1 [0] :=
      .step 0 1 [] .start (edge_deadPredecessor.mpr ⟨Nat.zero_le 2, rfl⟩)
    rcases List.mem_cons.mp (hb [0] hpath) with rfl | h0
    · exact .inr rfl
    · exact .inl (List.mem_singleton.mp h0)

theorem frontier_deadPredecessor {b y : BasicBlock} (hb : Reach deadPredecessor b) :
    Frontier (edge deadPredecessor) 0 b y ↔ b = 1 ∧ y = 1 := by
  constructor
  · rintro ⟨a, ha, hay, hdom, hnot⟩
    obtain ⟨-, rfl⟩ := edge_deadPredecessor.mp hay
    rcases reach_deadPredecessor.mp hb with rfl | rfl
    · exact absurd ⟨dom_entry 1, Nat.zero_ne_one⟩ hnot
    · exact ⟨rfl, rfl⟩
  · rintro ⟨rfl, rfl⟩
    exact ⟨1, hb, edge_deadPredecessor.mpr ⟨by decide, rfl⟩, dom_refl 1, fun h => h.2 rfl⟩

theorem wellFormed_deadPredecessor : WellFormed deadPredecessor := by
  constructor
  case reachable =>
    intro b
    rw [reach_deadPredecessor]
    simp [deadPredecessor]
  case preds =>
    intro a b
    change _ ↔ edge deadPredecessor a b
    rw [edge_deadPredecessor]
    by_cases hb : b = 1
    · subst hb
      have hle : ∀ n : ℕ, n = 0 ∨ n = 1 ∨ n = 2 ↔ n ≤ 2 := fun n => by omega
      simpa [deadPredecessor] using hle a
    · simp [deadPredecessor, hb]
  case nodupPreds =>
    intro b
    by_cases hb : b = 1 <;> simp [deadPredecessor, hb]
  case frontier =>
    intro b hb y
    change _ ↔ Frontier (edge deadPredecessor) 0 b y
    rw [frontier_deadPredecessor hb]
    by_cases hb : b = 1 <;> simp [Placement.frontier, deadPredecessor, hb]
  case treeSound =>
    intro b hb c hc
    have hbc : b = 0 ∧ c = 1 := by
      by_cases hb : b = 0 <;> simp_all [children, deadPredecessor]
    obtain ⟨rfl, rfl⟩ := hbc
    refine ⟨reach_deadPredecessor.mpr (.inr rfl), ⟨dom_entry 1, Nat.zero_ne_one⟩, fun c hc => ?_⟩
    rcases dom_deadPredecessor hc.1 (reach_deadPredecessor.mpr (.inr rfl)) with rfl | rfl
    · exact dom_refl 0
    · exact absurd rfl hc.2
  case treeComplete =>
    intro c hc hne
    have hc1 := (reach_deadPredecessor.mp hc).resolve_left hne
    exact ⟨0, reach_deadPredecessor.mpr (.inl rfl), by simp [children, deadPredecessor, hc1]⟩
  case nodupTree =>
    intro b
    by_cases hb : b = 0 <;> simp [children, deadPredecessor, hb]
  case nodupSites => decide

theorem deadPredecessor_right : WellFormed deadPredecessor ∧
    ∃ n, ∀ fuel ≥ n, ∃ s, buildMemSSA fuel oneRegion deadPredecessor (fun _ => []) (fun _ => 0) =
      some s ∧ Right oneRegion deadPredecessor s :=
  ⟨wellFormed_deadPredecessor,
    buildMemSSA_right oneRegion wellFormed_deadPredecessor (fun _ => []) (fun _ => 0)⟩

/-- The stack of the region keeps the two versions of the entry, and its phi has
no version for the dead predecessor, the third one. -/
theorem deadPredecessor_not_right : WellFormed deadPredecessor ∧
    ∃ s, buildMemSSA 10 oneRegion deadPredecessor (fun _ => []) (fun _ => 0) = some s ∧
      s.mr2VerStackMap 7 ≠ [] ∧ 7 ∈ s.bb2PhiSetMap 1 ∧
      (deadPredecessor.predecessors 1)[2]? = some 2 ∧ s.phiOpVer 1 7 2 = none := by
  have hrun : (buildMemSSA 10 oneRegion deadPredecessor (fun _ => []) (fun _ => 0)).map
      (fun s => (s.mr2VerStackMap 7, s.bb2PhiSetMap 1, s.phiOpVer 1 7 2)) =
      some ([⟨7, 1, .entryChi 7⟩, ⟨7, 0, .entryChi 7⟩], [7], none) := by decide +kernel
  obtain ⟨s, hs, heq⟩ := Option.map_eq_some_iff.mp hrun
  simp only [Prod.mk.injEq] at heq
  refine ⟨wellFormed_deadPredecessor, s, hs, ?_, ?_, rfl, heq.2.2⟩
  · simp [heq.1]
  · simp [heq.2.1]

end SVF.MSSA.ReachingVersions
