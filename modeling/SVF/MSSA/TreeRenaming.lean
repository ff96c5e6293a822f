import SVF.MSSA.BlockRenaming

namespace SVF.MSSA.TreeRenaming

open MemorySSA Placement Renaming VersionInvariant BlockRenaming Util.Dominance
open Relation (ReflTransGen)

variable {mrGen : MRGenerator} {fn : FunObjVar} {P s t : MemSSA}

def Child (fn : FunObjVar) (b c : BasicBlock) : Prop := c ∈ children fn b

def InTree (fn : FunObjVar) (b y : BasicBlock) : Prop :=
  Reach fn y ∧ Dom (edge fn) fn.entryBlock b y

section

variable {b c y y' : BasicBlock} {r : MemRegion}

theorem inBlock_unique (hfn : WellFormed fn) {d : MSSADEF} (hy : Reach fn y) (hy' : Reach fn y')
    (h : InBlock fn y d) (h' : InBlock fn y' d) : y = y' := by
  rcases h with ⟨r, rfl⟩ | ⟨site, hsite, hchi⟩
  · rcases h' with ⟨r', heq⟩ | ⟨site', -, hchi'⟩
    · cases heq
      rfl
    · cases site' <;> exact hchi'.elim
  · rcases h' with ⟨r', rfl⟩ | ⟨site', hsite', hchi'⟩
    · cases site <;> exact hchi.elim
    · cases chis_unique hchi hchi'
      obtain ⟨pre, post, hsplit⟩ := List.append_of_mem hsite
      obtain ⟨pre', post', hsplit'⟩ := List.append_of_mem hsite'
      exact (site_unique hfn hy hy' hsplit hsplit').1

theorem defAfter_of_none (d : MSSADEF) {l : List Site}
    (h : ∀ site ∈ l, ¬ (siteDef mrGen r site).isSome) : defAfter mrGen r d l = d := by
  induction l with
  | nil => rfl
  | cons site l ih =>
      have hnone : siteDef mrGen r site = none := by
        simpa using h site List.mem_cons_self
      rw [defAfter, List.foldl_cons, hnone]
      exact ih (fun x hx => h x (List.mem_cons_of_mem site hx))

theorem lastDef_append (phis : BasicBlock → List MemRegion) (p : List BasicBlock)
    {q : List BasicBlock} (h : ∀ z ∈ q, ¬ Defines mrGen fn phis r z) :
    lastDef mrGen fn phis r (q ++ p) = lastDef mrGen fn phis r p := by
  induction q with
  | nil => rfl
  | cons z q ih =>
      have hz := h z List.mem_cons_self
      rw [Defines, not_or, not_exists] at hz
      rw [List.cons_append, lastDef, joinDef, if_neg hz.1,
        defAfter_of_none _ (fun site hsite hdef => hz.2 site ⟨hsite, hdef⟩)]
      exact ih (fun x hx => h x (List.mem_cons_of_mem z hx))

theorem At.child (hP : Planned mrGen fn P) (hat : At mrGen fn P s b (sites fn b))
    (hbc : IDom (edge fn) fn.entryBlock b c) (hr : r ∈ P.usedRegs) (hphi : r ∉ P.bb2PhiSetMap c)
    {p : List BasicBlock} (hp : PathTo fn c p) :
    Top s r (lastDef mrGen fn P.bb2PhiSetMap r p) := by
  obtain ⟨q, p', rfl, hp', hq⟩ := exists_idom_suffix
    (P := fun y => r ∈ P.bb2PhiSetMap y) (S := Defines mrGen fn P.bb2PhiSetMap r)
    (fun _ hy => .inl hy) (hP.closed r hr) hbc hphi hp
  rw [lastDef_append P.bb2PhiSetMap (b :: p') hq]
  exact hat r hr p' hp'

end

structure Subtree (mrGen : MRGenerator) (fn : FunObjVar) (P s : MemSSA) (b : BasicBlock)
    (t : MemSSA) : Prop where
  running : Running P t
  consistent : Consistent mrGen fn P t
  extend : Extends s t
  stack : t.mr2VerStackMap = s.mr2VerStackMap
  frame : ∀ d, (∀ y, InTree fn b y → ¬ InBlock fn y d) → t.resVer d = s.resVer d
  covered : ∀ y, ReflTransGen (Child fn) b y → BlockCovered mrGen fn P t y

structure Subtrees (mrGen : MRGenerator) (fn : FunObjVar) (P s : MemSSA) (cs : List BasicBlock)
    (t : MemSSA) : Prop where
  running : Running P t
  consistent : Consistent mrGen fn P t
  extend : Extends s t
  stack : t.mr2VerStackMap = s.mr2VerStackMap
  frame : ∀ d, (∀ c ∈ cs, ∀ y, InTree fn c y → ¬ InBlock fn y d) → t.resVer d = s.resVer d
  covered : ∀ c ∈ cs, ∀ y, ReflTransGen (Child fn) c y → BlockCovered mrGen fn P t y

section

variable {b : BasicBlock} {fuel : ℕ}

theorem foldlM_children (hfn : WellFormed fn) (hP : Planned mrGen fn P) (hb : Reach fn b)
    (hchild : ∀ c ∈ children fn b, ∀ s, Enter mrGen fn P s c →
      ∃ t, MemSSA.SSARenameBB mrGen fn fuel s c = some t ∧ Subtree mrGen fn P s c t)
    {cs : List BasicBlock} (hcs : ∀ c ∈ cs, c ∈ children fn b) (hnodup : cs.Nodup)
    (hrun : Running P s) (hcons : Consistent mrGen fn P s)
    (hat : At mrGen fn P s b (sites fn b))
    (hunset : ∀ c ∈ cs, ∀ y d, InTree fn c y → InBlock fn y d → s.resVer d = none) :
    ∃ t, cs.foldlM (MemSSA.SSARenameBB mrGen fn fuel) s = some t ∧
      Subtrees mrGen fn P s cs t := by
  induction cs generalizing s with
  | nil => exact ⟨s, rfl, hrun, hcons, .refl s, rfl, fun _ _ => rfl, by simp⟩
  | cons c cs ih =>
      obtain ⟨hnot, hnodup⟩ := List.nodup_cons.mp hnodup
      have hc := hcs c List.mem_cons_self
      have hcs' : ∀ x ∈ cs, x ∈ children fn b := fun x hx => hcs x (List.mem_cons_of_mem c hx)
      obtain ⟨hreach, hidom⟩ := hfn.treeSound b hb c hc
      have henter : Enter mrGen fn P s c :=
        ⟨hrun, hcons, fun r hr hphi p hp => At.child hP hat hidom hr hphi hp,
          fun y d hy hdom => hunset c List.mem_cons_self y d ⟨hy, hdom⟩⟩
      obtain ⟨t₁, hrun₁, htree⟩ := hchild c hc s henter
      -- the subtrees of siblings have no block in common
      have hunset₁ : ∀ x ∈ cs, ∀ y d, InTree fn x y → InBlock fn y d → t₁.resVer d = none := by
        intro x hx y d hy hd
        obtain ⟨hreachx, hidomx⟩ := hfn.treeSound b hb x (hcs' x hx)
        rw [htree.frame d]
        · exact hunset x (List.mem_cons_of_mem c hx) y d hy hd
        · intro y' hy' hd'
          cases inBlock_unique hfn hy.1 hy'.1 hd hd'
          cases idom_siblings hidom hidomx hy.1 hy'.2 hy.2 hreach hreachx
          exact hnot hx
      obtain ⟨t, hrun₂, htrees⟩ := ih hcs' hnodup htree.running htree.consistent
        (fun r hr p hp => (hat r hr p hp).mono htree.extend htree.stack) hunset₁
      refine ⟨t, ?_, htrees.running, htrees.consistent, htree.extend.trans htrees.extend,
        htrees.stack.trans htree.stack, fun d hd => ?_, fun x hx y hy => ?_⟩
      · rw [List.foldlM_cons, hrun₁]
        exact hrun₂
      · rw [htrees.frame d (fun x hx => hd x (List.mem_cons_of_mem c hx))]
        exact htree.frame d (hd c List.mem_cons_self)
      · rcases List.mem_cons.mp hx with rfl | hx
        · exact (htree.covered y hy).mono htrees.extend
        · exact htrees.covered x hx y hy

/-- `anc` are the blocks that the recursion is in. -/
theorem SSARenameBB_subtree (hfn : WellFormed fn) (hP : Planned mrGen fn P) (fuel : ℕ)
    (h : Enter mrGen fn P s b) (hb : Reach fn b) (anc : List BasicBlock) (hanc : anc.Nodup)
    (hdom : ∀ a ∈ anc, Reach fn a ∧ SDom (edge fn) fn.entryBlock a b)
    (hfuel : fn.reachableBBs.length < fuel + anc.length) :
    ∃ t, MemSSA.SSARenameBB mrGen fn fuel s b = some t ∧ Subtree mrGen fn P s b t := by
  induction fuel generalizing s b anc with
  | zero =>
      have hsub : anc ⊆ fn.reachableBBs := fun a ha => (hfn.reachable a).mpr (hdom a ha).1
      have hle := (List.subperm_of_subset hanc hsub).length_le
      omega
  | succ fuel ih =>
      obtain ⟨hren, hat, hcovered⟩ := renameBlock_renamed hfn hP h hb
      generalize hu : MemSSA.renameBlock mrGen fn s b = u at *
      obtain ⟨u, regs⟩ := u
      have hanc' : (b :: anc).Nodup :=
        List.nodup_cons.mpr ⟨fun hmem => (hdom b hmem).2.2 rfl, hanc⟩
      have hchild : ∀ c ∈ children fn b, ∀ s, Enter mrGen fn P s c →
          ∃ t, MemSSA.SSARenameBB mrGen fn fuel s c = some t ∧ Subtree mrGen fn P s c t := by
        intro c hc s' hs'
        obtain ⟨hreach, hidom⟩ := hfn.treeSound b hb c hc
        refine ih hs' hreach (b :: anc) hanc' (fun a ha => ?_) ?_
        · rcases List.mem_cons.mp ha with rfl | ha
          · exact ⟨hb, hidom.1⟩
          · exact ⟨(hdom a ha).1, sdom_of_dom_of_sdom (hdom a ha).2.1 hidom.1 hb⟩
        · rw [List.length_cons]
          omega
      have hunset : ∀ c ∈ children fn b, ∀ y d, InTree fn c y → InBlock fn y d →
          u.resVer d = none := by
        intro c hc y d hy hd
        obtain ⟨hreach, hidom⟩ := hfn.treeSound b hb c hc
        rw [hren.frame d]
        · exact h.unset y d hy.1 (dom_trans hidom.1.1 hy.2) hd
        · intro hd'
          cases inBlock_unique hfn hy.1 hb hd hd'
          exact hidom.1.2 (dom_antisymm hidom.1.1 hy.2 hb)
      obtain ⟨t, hrun, htrees⟩ := foldlM_children hfn hP hb hchild (fun _ hc => hc)
        (hfn.nodupTree b) hren.running hren.consistent hat hunset
      refine ⟨regs.foldl MemSSA.popStack t, ?_, ?_⟩
      · rw [MemSSA.SSARenameBB, hu]
        change ((children fn b).foldlM (MemSSA.SSARenameBB mrGen fn fuel) u).bind _ = _
        rw [hrun]
        rfl
      · have hext := hren.extend.trans htrees.extend
        rw [popStack_eq]
        constructor
        case running => exact { htrees.running with }
        case consistent => exact { htrees.consistent with }
        case extend => exact { hext with }
        case stack =>
          funext r
          obtain ⟨l, hl, hlen⟩ := hren.pushed r
          have hstack : t.mr2VerStackMap r = l ++ s.mr2VerStackMap r :=
            (congrFun htrees.stack r).trans hl
          change (t.mr2VerStackMap r).drop (regs.count r) = s.mr2VerStackMap r
          rw [hstack, List.drop_left' hlen]
        case frame =>
          intro d hd
          rw [htrees.frame d, hren.frame d (hd b ⟨hb, dom_refl b⟩)]
          intro c hc y hy
          obtain ⟨-, hidom⟩ := hfn.treeSound b hb c hc
          exact hd y ⟨hy.1, dom_trans hidom.1.1 hy.2⟩
        case covered =>
          intro y hy
          have hcover : BlockCovered mrGen fn P t y := by
            cases hy using ReflTransGen.head_induction_on with
            | refl => exact hcovered.mono htrees.extend
            | head hc hy => exact htrees.covered _ hc y hy
          exact { hcover with }

end

end SVF.MSSA.TreeRenaming
