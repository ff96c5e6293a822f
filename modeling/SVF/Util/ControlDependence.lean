import SVF.SVFIR.DominanceQueries
import SVF.Util.Folds

namespace SVF.Util.ControlDependence

open Dominance PostDominance SVFIR.LoopAndDomInfo SVFIR.DominanceQueries Folds

section

variable {BasicBlock : Type} [DecidableEq BasicBlock]

namespace CDGSearch

variable (ld : SVFLoopAndDomInfo BasicBlock)

/-- The recursion goes down the tree; `none` is a block without an entry, or no more fuel. -/
def dfsNodesBetweenPdomNodes : ℕ → BasicBlock → BasicBlock → List BasicBlock → List BasicBlock →
    Option (List BasicBlock)
  | 0, _, _, _, _ => none
  | fuel + 1, cur, tgt, path, tgtNodes =>
      let path := path ++ [cur]
      if cur = tgt then some (tgtNodes ++ path.tail)
      else do
        let nxts ← ld.pdtBBsMap cur
        nxts.foldlM (fun tgtNodes nxt => dfsNodesBetweenPdomNodes fuel nxt tgt path tgtNodes) tgtNodes

def extractNodesBetweenPdomNodes (fuel : ℕ) (succ LCA : BasicBlock) (tgtNodes : List BasicBlock) :
    Option (List BasicBlock) :=
  if succ = LCA then some tgtNodes
  else dfsNodesBetweenPdomNodes ld fuel LCA succ [] tgtNodes

def edgeNodes (fuel : ℕ) (pred succ : BasicBlock) : Option (List BasicBlock) := do
  let SVFLCA ← ld.findNearestCommonPDominator fuel (some pred) (some succ)
  match SVFLCA with
  | none => some [succ]
  | some SVFLCA =>
      let tgtNodes := if SVFLCA = pred then [SVFLCA] else []
      extractNodesBetweenPdomNodes ld fuel succ SVFLCA tgtNodes

end CDGSearch

def s32 (pos : ℤ) : ℤ := pos.bmod (2 ^ 32)

structure CDGBuilder (BasicBlock : Type) where
  svfcontrolMap : BasicBlock → BasicBlock → List ℤ
  svfdependentOnMap : BasicBlock → BasicBlock → List ℤ

namespace CDGBuilder

def insert (map : BasicBlock → BasicBlock → List ℤ) (key bb : BasicBlock) (pos : ℤ) :
    BasicBlock → BasicBlock → List ℤ :=
  Function.update map key (Function.update (map key) bb ((map key bb).insert pos))

def updateMap (cdg : CDGBuilder BasicBlock) (pred bb : BasicBlock) (pos : ℤ) : CDGBuilder BasicBlock where
  svfcontrolMap := insert cdg.svfcontrolMap pred bb (s32 pos)
  svfdependentOnMap := insert cdg.svfdependentOnMap bb pred (s32 pos)

/-- `condValue` is the value on the edge from the last node of `BB` to the first one of
`Succ`, where the edge has a condition. -/
def getBBSuccessorBranchID (condValue : BasicBlock → BasicBlock → Option ℤ) (BB Succ : BasicBlock) : ℤ :=
  match condValue BB Succ with
  | some value => value
  | none => 0

/-- The edges, in the order of their sources. -/
def extractBBS (fn : Function BasicBlock) (ld : SVFLoopAndDomInfo BasicBlock) : List (BasicBlock × BasicBlock) :=
  fn.blocks.flatMap fun bb =>
    ((fn.successors bb).filter fun succ => !ld.postDominate succ bb).map fun succ => (bb, succ)

def processEdge (ld : SVFLoopAndDomInfo BasicBlock) (condValue : BasicBlock → BasicBlock → Option ℤ) (fuel : ℕ)
    (cdg : CDGBuilder BasicBlock) (edge : BasicBlock × BasicBlock) : Option (CDGBuilder BasicBlock) := do
  let tgtNodes ← CDGSearch.edgeNodes ld fuel edge.1 edge.2
  let pos := getBBSuccessorBranchID condValue edge.1 edge.2
  some (tgtNodes.foldl (fun cdg bb => cdg.updateMap edge.1 bb pos) cdg)

def buildControlDependence (fn : Function BasicBlock) (condValue : BasicBlock → BasicBlock → Option ℤ)
    (fuel : ℕ) : Option (CDGBuilder BasicBlock) := do
  let ld ← SVFLoopAndDomInfo.initDomTree fn fuel
  (extractBBS fn ld).foldlM (processEdge ld condValue fuel) ⟨fun _ _ => [], fun _ _ => []⟩

end CDGBuilder

end

section

variable {BasicBlock : Type} [DecidableEq BasicBlock] {fn : Function BasicBlock} {root : BasicBlock → Prop}
  {ld : SVFLoopAndDomInfo BasicBlock}

abbrev RDom (fn : Function BasicBlock) (root : BasicBlock → Prop) (a b : Option BasicBlock) : Prop :=
  Dom (Rev (edge fn) root) none a b

theorem bbPDomLevel_eq (hfn : WellFormed fn root) (hld : Initialized fn ld) {b : BasicBlock} (hb : b ∈ fn.blocks) :
    ld.bbPDomLevel b = some (plevel fn (some b)) := by
  obtain ⟨pdtNode, hpdt, -⟩ := hfn.pdt b hb
  rw [hld.level b hb, plevel, hpdt]
  rfl

theorem bb2PIdom_eq (hfn : WellFormed fn root) (hld : Initialized fn ld) {b : BasicBlock} (hb : b ∈ fn.blocks) :
    ld.bb2PIdom b = some (pidom fn (some b)) := by
  obtain ⟨pdtNode, hpdt, -⟩ := hfn.pdt b hb
  rw [hld.idom b hb, pidom, hpdt]
  rfl

/-- The common dominators of the two nodes stay the same on the way up. -/
theorem findNearestCommonPDominator_spec (hfn : WellFormed fn root) (hld : Initialized fn ld) {fuel : ℕ}
    {A : Option BasicBlock} {b : BasicBlock} (hA : Node fn A) (hb : Node fn (some b))
    (hfuel : plevel fn A + plevel fn (some b) < fuel) :
    ∃ r, ld.findNearestCommonPDominator fuel A (some b) = some r ∧ Node fn r ∧
      ∀ c, RDom fn root c A ∧ RDom fn root c (some b) ↔ RDom fn root c r := by
  induction fuel generalizing A b with
  | zero => exact absurd hfuel (Nat.not_lt_zero _)
  | succ fuel ih =>
      unfold SVFLoopAndDomInfo.findNearestCommonPDominator
      by_cases heq : A = some b
      · rw [if_pos heq]
        refine ⟨A, rfl, hA, ?_⟩
        intro c
        rw [heq, and_self]
      · rw [if_neg heq]
        cases A with
        | none =>
            refine ⟨none, rfl, trivial, ?_⟩
            intro c
            refine ⟨And.left, fun hc => ⟨hc, ?_⟩⟩
            have hnone : c = none := List.mem_singleton.1 (hc [] .start)
            rw [hnone]
            exact dom_entry (some b)
        | some a =>
            have hla := hfn.tree.deeper (some a) hA (Option.some_ne_none a)
            have hlb := hfn.tree.deeper (some b) hb (Option.some_ne_none b)
            dsimp only
            rw [bbPDomLevel_eq hfn hld hA, bbPDomLevel_eq hfn hld hb, Option.bind_eq_bind, Option.bind_some,
              Option.bind_eq_bind, Option.bind_some]
            split_ifs with hlt
            · rw [bb2PIdom_eq hfn hld hb]
              obtain ⟨r, hr, hnode, hdom⟩ := ih (hfn.tree.closed (some b) hb (Option.some_ne_none b)) hA (by omega)
              refine ⟨r, hr, hnode, ?_⟩
              intro c
              rw [← hdom, ← hfn.tree.common_dom_parent hb hA (Ne.symm heq) hlt.le (Option.some_ne_none b), and_comm]
            · rw [bb2PIdom_eq hfn hld hA]
              obtain ⟨r, hr, hnode, hdom⟩ := ih (hfn.tree.closed (some a) hA (Option.some_ne_none a)) hb (by omega)
              refine ⟨r, hr, hnode, ?_⟩
              intro c
              rw [← hdom, ← hfn.tree.common_dom_parent hA hb heq (Nat.le_of_not_lt hlt) (Option.some_ne_none a)]

/-- Where `cur` is above `tgt`, the nodes between them are added, and the path to `cur`
but for its first node. -/
theorem dfsNodesBetweenPdomNodes_spec (hfn : WellFormed fn root) (hld : Initialized fn ld) {fuel M : ℕ}
    (hM : ∀ b ∈ fn.blocks, plevel fn (some b) ≤ M) {cur tgt : BasicBlock} (hcur : Node fn (some cur))
    (htgt : Node fn (some tgt)) (hfuel : M < fuel + plevel fn (some cur)) (path tgtNodes : List BasicBlock) :
    ∃ r, CDGSearch.dfsNodesBetweenPdomNodes ld fuel cur tgt path tgtNodes = some r ∧
      ∀ b, b ∈ r ↔ b ∈ tgtNodes ∨ RDom fn root (some cur) (some tgt) ∧
        (b ∈ (path ++ [cur]).tail ∨
          SDom (Rev (edge fn) root) none (some cur) (some b) ∧ RDom fn root (some b) (some tgt)) := by
  induction fuel generalizing cur path tgtNodes with
  | zero =>
      have hle := hM cur hcur
      omega
  | succ fuel ih =>
      rw [CDGSearch.dfsNodesBetweenPdomNodes]
      by_cases heq : cur = tgt
      · subst heq
        rw [if_pos rfl]
        refine ⟨_, rfl, ?_⟩
        intro b
        rw [List.mem_append]
        refine or_congr_right ⟨fun hb => ⟨dom_refl _, Or.inl hb⟩, ?_⟩
        rintro ⟨-, hb | ⟨hsdom, hdom⟩⟩
        · exact hb
        · have hlt := hfn.tree.level_lt_of_sdom (hfn.tree.of_dom hcur hdom) hsdom
          have hle := hfn.tree.level_le_of_dom hcur hdom
          omega
      · rw [if_neg heq]
        obtain ⟨pdtNode, hpdt, hmem⟩ := hfn.pdt cur hcur
        have hchildren : ld.pdtBBsMap cur = some (toSet pdtNode.children) := by
          rw [hld.pdt cur hcur, hpdt]
          rfl
        have hchild : ∀ d, d ∈ toSet pdtNode.children ↔ d ∈ fn.blocks ∧ pidom fn (some d) = some cur := by
          intro d
          rw [mem_toSet, hmem]
        rw [hchildren, Option.bind_eq_bind, Option.bind_some]
        have hround : ∀ nxt ∈ toSet pdtNode.children, ∀ nodes, ∃ r,
            CDGSearch.dfsNodesBetweenPdomNodes ld fuel nxt tgt (path ++ [cur]) nodes = some r ∧
              ∀ b, b ∈ r ↔ b ∈ nodes ∨ RDom fn root (some nxt) (some tgt) ∧
                (b ∈ (path ++ [cur]).tail ∨ RDom fn root (some nxt) (some b) ∧ RDom fn root (some b) (some tgt)) := by
          intro nxt hnxt nodes
          obtain ⟨hblock, hparent⟩ := (hchild nxt).1 hnxt
          have hlevel := hfn.tree.deeper (some nxt) hblock (Option.some_ne_none nxt)
          rw [hparent] at hlevel
          obtain ⟨r, hr, hin⟩ := ih hblock (by omega) (path ++ [cur]) nodes
          refine ⟨r, hr, ?_⟩
          intro b
          rw [hin, List.tail_append_of_ne_nil (List.append_ne_nil_of_right_ne_nil _ (List.cons_ne_nil _ _)),
            List.mem_append, List.mem_singleton]
          refine or_congr_right (and_congr_right fun hdom => ?_)
          rw [or_assoc]
          refine or_congr_right ?_
          constructor
          · rintro (rfl | ⟨hsdom, hb⟩)
            · exact ⟨dom_refl _, hdom⟩
            · exact ⟨hsdom.1, hb⟩
          · rintro ⟨hb, hbt⟩
            by_cases hsame : b = nxt
            · exact Or.inl hsame
            · exact Or.inr ⟨⟨hb, fun h => hsame (Option.some.inj h).symm⟩, hbt⟩
        obtain ⟨r, hr, hin⟩ := foldlM_collects hround tgtNodes
        refine ⟨r, hr, ?_⟩
        intro b
        rw [hin]
        refine or_congr_right ?_
        have hsomechild : SDom (Rev (edge fn) root) none (some cur) (some tgt) ↔
            ∃ d ∈ toSet pdtNode.children, RDom fn root (some d) (some tgt) := by
          rw [hfn.tree.sdom_iff_exists_child (a := some cur) htgt (dom_refl (some tgt))]
          constructor
          · rintro ⟨x, ⟨hx, hxne, hparent⟩, hdom, -⟩
            obtain ⟨d, rfl⟩ := Option.ne_none_iff_exists'.1 hxne
            exact ⟨d, (hchild d).2 ⟨hx, hparent⟩, hdom⟩
          · rintro ⟨d, hd, hdom⟩
            obtain ⟨hblock, hparent⟩ := (hchild d).1 hd
            exact ⟨some d, ⟨hblock, Option.some_ne_none d, hparent⟩, hdom, hdom⟩
        constructor
        · rintro ⟨d, hd, hdom, hb⟩
          have hsdom := hsomechild.2 ⟨d, hd, hdom⟩
          refine ⟨hsdom.1, hb.imp_right ?_⟩
          rintro ⟨hdb, hbt⟩
          obtain ⟨hblock, hparent⟩ := (hchild d).1 hd
          exact ⟨(hfn.tree.sdom_iff_exists_child htgt hbt).2
            ⟨some d, ⟨hblock, Option.some_ne_none d, hparent⟩, hdb, hdom⟩, hbt⟩
        · rintro ⟨hdom, hb | ⟨hsdom, hbt⟩⟩
          · obtain ⟨d, hd, hdt⟩ := hsomechild.1 ⟨hdom, fun h => heq (Option.some.inj h)⟩
            exact ⟨d, hd, hdt, Or.inl hb⟩
          · obtain ⟨x, ⟨hx, hxne, hparent⟩, hxb, hxt⟩ := (hfn.tree.sdom_iff_exists_child htgt hbt).1 hsdom
            obtain ⟨d, rfl⟩ := Option.ne_none_iff_exists'.1 hxne
            exact ⟨d, (hchild d).2 ⟨hx, hparent⟩, hxt, Or.inr ⟨hxb, hbt⟩⟩

/-- `b` post-dominates `succ` and does not strictly post-dominate `pred`. -/
def Depends (fn : Function BasicBlock) (root : BasicBlock → Prop) (b pred succ : BasicBlock) : Prop :=
  PDom (edge fn) root b succ ∧ ¬(PDom (edge fn) root b pred ∧ b ≠ pred)

def Joined (fn : Function BasicBlock) (root : BasicBlock → Prop) (pred succ : BasicBlock) : Prop :=
  ∃ c, PDom (edge fn) root c pred ∧ PDom (edge fn) root c succ

theorem between_iff (hfn : WellFormed fn root) {pred succ lca : BasicBlock} (hpred : Node fn (some pred))
    (hsucc : Node fn (some succ))
    (hcommon : ∀ c, RDom fn root c (some pred) ∧ RDom fn root c (some succ) ↔ RDom fn root c (some lca))
    (b : BasicBlock) :
    (lca = pred ∧ b = lca ∨ SDom (Rev (edge fn) root) none (some lca) (some b) ∧ RDom fn root (some b) (some succ)) ↔
      Depends fn root b pred succ := by
  have hreachPred := hfn.tree.reachable _ hpred
  have hreachSucc := hfn.tree.reachable _ hsucc
  obtain ⟨hlcaPred, hlcaSucc⟩ := (hcommon (some lca)).2 (dom_refl _)
  rw [Depends, pdom_iff_dom, pdom_iff_dom]
  constructor
  · rintro (⟨rfl, rfl⟩ | ⟨⟨hdom, hne⟩, hb⟩)
    · exact ⟨hlcaSucc, fun h => h.2 rfl⟩
    · refine ⟨hb, ?_⟩
      rintro ⟨hbpred, -⟩
      have hblca := (hcommon (some b)).1 ⟨hbpred, hb⟩
      exact hne (dom_antisymm hdom hblca (reachable_of_dom hreachSucc hlcaSucc))
  · rintro ⟨hb, hnot⟩
    -- `b` is above the common dominator only when it is `pred`
    have habove : RDom fn root (some b) (some lca) → lca = pred ∧ b = lca := by
      intro hblca
      have hbpred := dom_trans hblca hlcaPred
      have heq : b = pred := by
        by_contra hne
        exact hnot ⟨hbpred, hne⟩
      subst heq
      have hlca := dom_antisymm hlcaPred hblca (reachable_of_dom hreachPred hlcaPred)
      exact ⟨Option.some.inj hlca, (Option.some.inj hlca).symm⟩
    rcases dom_total hb hlcaSucc hreachSucc with hblca | hlcab
    · exact Or.inl (habove hblca)
    · by_cases heq : lca = b
      · subst heq
        exact Or.inl (habove (dom_refl _))
      · exact Or.inr ⟨⟨hlcab, fun h => heq (Option.some.inj h)⟩, hb⟩

theorem edgeNodes_spec (hfn : WellFormed fn root) (hld : Initialized fn ld) {fuel M : ℕ}
    (hM : ∀ b ∈ fn.blocks, plevel fn (some b) ≤ M) (hfuel : 2 * M < fuel) {pred succ : BasicBlock}
    (hpred : Node fn (some pred)) (hsucc : Node fn (some succ)) :
    ∃ r, CDGSearch.edgeNodes ld fuel pred succ = some r ∧
      ∀ b, b ∈ r ↔ Depends fn root b pred succ ∧ (b = succ ∨ Joined fn root pred succ) := by
  have hlevelPred := hM pred hpred
  have hlevelSucc := hM succ hsucc
  have hlevels : plevel fn (some pred) + plevel fn (some succ) < fuel := by omega
  obtain ⟨lca, hlca, hnode, hcommon⟩ := findNearestCommonPDominator_spec hfn hld hpred hsucc hlevels
  rw [CDGSearch.edgeNodes, hlca, Option.bind_eq_bind, Option.bind_some]
  cases lca with
  | none =>
      have hnever : ¬Joined fn root pred succ := by
        rintro ⟨c, hcpred, hcsucc⟩
        have hc := (hcommon (some c)).1 ⟨pdom_iff_dom.1 hcpred, pdom_iff_dom.1 hcsucc⟩
        exact absurd (List.mem_singleton.1 (hc [] .start)) (Option.some_ne_none c)
      refine ⟨[succ], rfl, ?_⟩
      intro b
      rw [List.mem_singleton, or_iff_left hnever]
      constructor
      · rintro rfl
        refine ⟨⟨fun p _ => List.mem_cons_self, ?_⟩, rfl⟩
        rintro ⟨hdom, -⟩
        exact hnever ⟨b, hdom, fun p _ => List.mem_cons_self⟩
      · exact And.right
  | some lca =>
      have hjoined : Joined fn root pred succ := by
        obtain ⟨hlcaPred, hlcaSucc⟩ := (hcommon (some lca)).2 (dom_refl _)
        exact ⟨lca, pdom_iff_dom.2 hlcaPred, pdom_iff_dom.2 hlcaSucc⟩
      have htgt : ∀ b, b ∈ (if lca = pred then [lca] else []) ↔ lca = pred ∧ b = lca := by
        intro b
        split_ifs with heq
        · rw [List.mem_singleton]
          exact (and_iff_right heq).symm
        · exact iff_of_false List.not_mem_nil (fun h => heq h.1)
      dsimp only
      rw [CDGSearch.extractNodesBetweenPdomNodes]
      by_cases heq : succ = lca
      · rw [if_pos heq]
        refine ⟨_, rfl, ?_⟩
        intro b
        rw [htgt, ← between_iff hfn hpred hsucc hcommon b, and_iff_left (Or.inr hjoined)]
        refine (or_iff_left ?_).symm
        rintro ⟨⟨hdom, hne⟩, hb⟩
        rw [heq] at hb
        exact hne (dom_antisymm hdom hb (hfn.tree.reachable _ hnode))
      · rw [if_neg heq]
        have hdepth : M < fuel + plevel fn (some lca) := by omega
        obtain ⟨r, hr, hin⟩ := dfsNodesBetweenPdomNodes_spec hfn hld hM hnode hsucc hdepth []
          (if lca = pred then [lca] else [])
        refine ⟨r, hr, ?_⟩
        intro b
        rw [hin, htgt, ← between_iff hfn hpred hsucc hcommon b, and_iff_left (Or.inr hjoined)]
        refine or_congr_right ?_
        have htail : b ∉ ([] ++ [lca]).tail := List.not_mem_nil
        rw [or_iff_right htail]
        exact and_iff_right ((hcommon (some lca)).2 (dom_refl _)).2

end

section

variable {BasicBlock : Type} [DecidableEq BasicBlock] {fn : Function BasicBlock} {root : BasicBlock → Prop}
  {ld : SVFLoopAndDomInfo BasicBlock}

theorem insert_apply (map : BasicBlock → BasicBlock → List ℤ) (key bb k b : BasicBlock) (pos : ℤ) :
    CDGBuilder.insert map key bb pos k b = if k = key ∧ b = bb then (map k b).insert pos else map k b := by
  rw [CDGBuilder.insert]
  by_cases hk : k = key
  · subst hk
    rw [Function.update_self]
    by_cases hb : b = bb
    · subst hb
      rw [Function.update_self, if_pos ⟨rfl, rfl⟩]
    · rw [Function.update_of_ne hb, if_neg (fun h => hb h.2)]
  · rw [Function.update_of_ne hk, if_neg (fun h => hk h.1)]

/-- An entry: the branch, the block that depends on it, and the number of the edge. -/
abbrev Entry (BasicBlock : Type) := BasicBlock × BasicBlock × ℤ

def Recorded (x : Entry BasicBlock) (cdg : CDGBuilder BasicBlock) : Prop := x.2.2 ∈ cdg.svfcontrolMap x.1 x.2.1

theorem recorded_updateMap (cdg : CDGBuilder BasicBlock) (pred bb : BasicBlock) (pos : ℤ) (x : Entry BasicBlock) :
    Recorded x (cdg.updateMap pred bb pos) ↔ Recorded x cdg ∨ x = (pred, bb, s32 pos) := by
  obtain ⟨k, b, p⟩ := x
  change p ∈ CDGBuilder.insert cdg.svfcontrolMap pred bb (s32 pos) k b ↔ _
  rw [insert_apply]
  split_ifs with hkey
  · obtain ⟨rfl, rfl⟩ := hkey
    rw [List.mem_insert_iff, or_comm]
    refine or_congr_right ?_
    simp
  · refine (or_iff_left ?_).symm
    intro heq
    cases heq
    exact hkey ⟨rfl, rfl⟩

theorem processEdge_spec (hfn : WellFormed fn root) (hld : Initialized fn ld)
    (condValue : BasicBlock → BasicBlock → Option ℤ) {fuel M : ℕ}
    (hM : ∀ b ∈ fn.blocks, plevel fn (some b) ≤ M) (hfuel : 2 * M < fuel) {pred succ : BasicBlock}
    (hpred : Node fn (some pred)) (hsucc : Node fn (some succ)) (cdg : CDGBuilder BasicBlock) :
    ∃ cdg', CDGBuilder.processEdge ld condValue fuel cdg (pred, succ) = some cdg' ∧
      ∀ x, Recorded x cdg' ↔ Recorded x cdg ∨
        x.1 = pred ∧ x.2.2 = s32 (CDGBuilder.getBBSuccessorBranchID condValue pred succ) ∧
          Depends fn root x.2.1 pred succ ∧ (x.2.1 = succ ∨ Joined fn root pred succ) := by
  obtain ⟨r, hr, hin⟩ := edgeNodes_spec hfn hld hM hfuel hpred hsucc
  refine ⟨_, by rw [CDGBuilder.processEdge, hr]; rfl, ?_⟩
  intro x
  have hcollects := foldl_collects
    (fun bb (_ : bb ∈ r) cdg x => recorded_updateMap cdg pred bb
      (CDGBuilder.getBBSuccessorBranchID condValue pred succ) x) cdg x
  rw [hcollects]
  refine or_congr_right ?_
  constructor
  · rintro ⟨b, hb, rfl⟩
    exact ⟨rfl, rfl, (hin b).1 hb⟩
  · obtain ⟨k, b, p⟩ := x
    rintro ⟨hk, hp, hdepends⟩
    exact ⟨b, (hin b).2 hdepends, Prod.ext hk (Prod.ext rfl hp)⟩

def Mirrored (cdg : CDGBuilder BasicBlock) : Prop :=
  ∀ a b, cdg.svfdependentOnMap b a = cdg.svfcontrolMap a b

theorem processEdge_mirrored (condValue : BasicBlock → BasicBlock → Option ℤ) {fuel : ℕ}
    {cdg cdg' : CDGBuilder BasicBlock} {e : BasicBlock × BasicBlock}
    (h : Mirrored cdg) (heq : CDGBuilder.processEdge ld condValue fuel cdg e = some cdg') : Mirrored cdg' := by
  obtain ⟨r, -, hr⟩ := Option.bind_eq_some_iff.1 heq
  cases hr
  apply foldl_invariant (I := Mirrored) _ h
  intro bb _ cdg hcdg a b
  change CDGBuilder.insert cdg.svfdependentOnMap bb e.1 _ b a = CDGBuilder.insert cdg.svfcontrolMap e.1 bb _ a b
  rw [insert_apply, insert_apply, hcdg]
  simp only [and_comm]

def Found (fn : Function BasicBlock) (root : BasicBlock → Prop) (b pred succ : BasicBlock) : Prop :=
  Reach fn pred ∧ succ ≠ pred ∧ Depends fn root b pred succ ∧ (b = succ ∨ Joined fn root pred succ)

theorem mem_extractBBS {e : BasicBlock × BasicBlock} :
    e ∈ CDGBuilder.extractBBS fn ld ↔
      e.1 ∈ fn.blocks ∧ e.2 ∈ fn.successors e.1 ∧ ld.postDominate e.2 e.1 = false := by
  obtain ⟨pred, succ⟩ := e
  rw [CDGBuilder.extractBBS, List.mem_flatMap]
  constructor
  · rintro ⟨bb, hbb, hmem⟩
    obtain ⟨s, hs, heq⟩ := List.mem_map.1 hmem
    cases heq
    obtain ⟨hsucc, hpost⟩ := List.mem_filter.1 hs
    exact ⟨hbb, hsucc, by simpa using hpost⟩
  · rintro ⟨hpred, hsucc, hpost⟩
    exact ⟨pred, hpred, List.mem_map.2 ⟨succ, List.mem_filter.2 ⟨hsucc, by simpa using hpost⟩, rfl⟩⟩

theorem found_iff (hfn : WellFormed fn root) (hld : Initialized fn ld) {b pred succ : BasicBlock}
    (hedge : succ ∈ fn.successors pred) :
    ld.postDominate succ pred = false ∧ Depends fn root b pred succ ∧ (b = succ ∨ Joined fn root pred succ) ↔
      Found fn root b pred succ := by
  constructor
  · rintro ⟨hpost, hdepends, hwalk⟩
    have hne : succ ≠ pred := by
      rintro rfl
      rw [SVFLoopAndDomInfo.postDominate, SVFLoopAndDomInfo.inTree, if_pos rfl] at hpost
      exact absurd hpost (by decide)
    refine ⟨?_, hne, hdepends, hwalk⟩
    by_contra hdead
    have hunreachable : ld.isUnreachable pred = true := decide_eq_true (mt (hld.reachable pred).1 hdead)
    rw [SVFLoopAndDomInfo.postDominate, SVFLoopAndDomInfo.inTree, if_neg hne, if_pos hunreachable] at hpost
    exact absurd hpost (by decide)
  · rintro ⟨hpred, hne, hdepends, hwalk⟩
    refine ⟨?_, hdepends, hwalk⟩
    rw [← Bool.not_eq_true, postDominate_iff hfn hld (hpred.step hedge) hpred]
    rintro (rfl | hipdom)
    · exact hne rfl
    · -- then `b` strictly post-dominates `pred`, or it is `pred` and post-dominates `succ`
      have hsuccpred := hipdom.1
      rw [Depends, pdom_iff_dom, pdom_iff_dom] at hdepends
      have hbpred := dom_trans hdepends.1 hsuccpred.1
      have heq : b = pred := by
        by_contra hb
        exact hdepends.2 ⟨hbpred, hb⟩
      subst heq
      have hreach := reachable_of_dom (hfn.tree.reachable (some b) (hfn.mem_blocks hpred)) hsuccpred.1
      exact hsuccpred.2 (dom_antisymm hsuccpred.1 hdepends.1 hreach)

omit [DecidableEq BasicBlock] in
theorem exists_level_bound (fn : Function BasicBlock) : ∃ M, ∀ b ∈ fn.blocks, plevel fn (some b) ≤ M := by
  induction fn.blocks with
  | nil => exact ⟨0, fun _ hb => absurd hb List.not_mem_nil⟩
  | cons a l ih =>
      obtain ⟨M, hM⟩ := ih
      refine ⟨max (plevel fn (some a)) M, ?_⟩
      intro b hb
      rcases List.mem_cons.1 hb with rfl | hb
      · exact Nat.le_max_left _ _
      · exact (hM b hb).trans (Nat.le_max_right _ _)

theorem buildControlDependence_spec (hfn : WellFormed fn root) (condValue : BasicBlock → BasicBlock → Option ℤ) :
    ∃ N, ∀ fuel, N ≤ fuel → ∃ cdg, CDGBuilder.buildControlDependence fn condValue fuel = some cdg ∧
      Mirrored cdg ∧ ∀ pred ∈ fn.blocks, ∀ b pos, pos ∈ cdg.svfcontrolMap pred b ↔ ∃ succ ∈ fn.successors pred,
        pos = s32 (CDGBuilder.getBBSuccessorBranchID condValue pred succ) ∧ Found fn root b pred succ := by
  obtain ⟨M, hM⟩ := exists_level_bound fn
  refine ⟨max (2 * M + 1) (2 * fn.blocks.length + 1), ?_⟩
  intro fuel hfuel
  obtain ⟨ld, hinit, hld⟩ := initDomTree_spec hfn ((Nat.le_max_right _ _).trans hfuel)
  have hround : ∀ e ∈ CDGBuilder.extractBBS fn ld, ∀ cdg, ∃ cdg',
      CDGBuilder.processEdge ld condValue fuel cdg e = some cdg' ∧
        ∀ x, Recorded x cdg' ↔ Recorded x cdg ∨
          x.1 = e.1 ∧ x.2.2 = s32 (CDGBuilder.getBBSuccessorBranchID condValue e.1 e.2) ∧
            Depends fn root x.2.1 e.1 e.2 ∧ (x.2.1 = e.2 ∨ Joined fn root e.1 e.2) := by
    intro e he cdg
    obtain ⟨hpred, hsucc, -⟩ := mem_extractBBS.1 he
    exact processEdge_spec hfn hld condValue hM ((Nat.le_max_left _ _).trans hfuel) hpred
      (hfn.successors e.1 hpred e.2 hsucc) cdg
  obtain ⟨cdg, hcdg, hin⟩ := foldlM_collects hround ⟨fun _ _ => [], fun _ _ => []⟩
  refine ⟨cdg, by rw [CDGBuilder.buildControlDependence, hinit]; exact hcdg, ?_, ?_⟩
  · exact foldlM_invariant (fun e _ _ _ hs heq => processEdge_mirrored condValue hs heq)
      (fun _ _ => rfl) hcdg
  · intro pred hpred b pos
    refine (hin (pred, b, pos)).trans ?_
    rw [or_iff_right (by exact List.not_mem_nil)]
    constructor
    · rintro ⟨⟨_, succ⟩, he, rfl, hpos, hdepends⟩
      obtain ⟨-, hsucc, hpost⟩ := mem_extractBBS.1 he
      exact ⟨succ, hsucc, hpos, (found_iff hfn hld hsucc).1 ⟨hpost, hdepends⟩⟩
    · rintro ⟨succ, hsucc, hpos, hfound⟩
      obtain ⟨hpost, hdepends⟩ := (found_iff hfn hld hsucc).2 hfound
      exact ⟨(pred, succ), mem_extractBBS.2 ⟨hpred, hsucc, hpost⟩, rfl, hpos, hdepends⟩

theorem control_dependence_exact (hfn : WellFormed fn root) (condValue : BasicBlock → BasicBlock → Option ℤ) :
    ∃ N, ∀ fuel, N ≤ fuel → ∃ cdg, CDGBuilder.buildControlDependence fn condValue fuel = some cdg ∧
      ∀ pred ∈ fn.blocks, ∀ succ ∈ fn.successors pred, ∀ b,
        let number := fun succ => s32 (CDGBuilder.getBBSuccessorBranchID condValue pred succ);
        cdg.svfdependentOnMap b pred = cdg.svfcontrolMap pred b ∧
        ((number succ ∈ cdg.svfcontrolMap pred b ↔ Depends fn root b pred succ) ↔
          (Depends fn root b pred succ ↔
            ∃ succ' ∈ fn.successors pred, number succ = number succ' ∧ Found fn root b pred succ')) := by
  obtain ⟨N, hN⟩ := buildControlDependence_spec hfn condValue
  refine ⟨N, ?_⟩
  intro fuel hfuel
  obtain ⟨cdg, hcdg, hmirrored, hin⟩ := hN fuel hfuel
  refine ⟨cdg, hcdg, ?_⟩
  intro pred hpred succ _ b number
  refine ⟨hmirrored pred b, ?_⟩
  rw [hin pred hpred b (number succ)]
  exact iff_comm

end

theorem control_dependence_exact_branching :
    ∃ N, ∀ fuel, N ≤ fuel → ∃ cdg,
      CDGBuilder.buildControlDependence branching (fun _ succ => some succ) fuel = some cdg ∧
        cdg.svfdependentOnMap 1 0 = cdg.svfcontrolMap 0 1 := by
  obtain ⟨N, hN⟩ := control_dependence_exact branching_wellFormed (fun _ succ => some (succ : ℤ))
  refine ⟨N, ?_⟩
  intro fuel hfuel
  obtain ⟨cdg, hcdg, hexact⟩ := hN fuel hfuel
  exact ⟨cdg, hcdg, (hexact 0 (by decide) 1 (by decide) 1).1⟩

/-- The block that leaves the program depends on the branch, whose two sides do not meet
again: it post-dominates block 1, and there is a way around it. -/
theorem misses_block_above_successor :
    WellFormed branching (Exit branching) ∧ Depends branching (Exit branching) 3 0 1 ∧
      (CDGBuilder.buildControlDependence branching (fun _ succ => some succ) 9).map
        (fun cdg => (cdg.svfcontrolMap 0 1, cdg.svfcontrolMap 0 2, cdg.svfcontrolMap 0 3)) =
          some ([1], [2], []) := by
  refine ⟨branching_wellFormed, ⟨?_, ?_⟩, by decide⟩
  · exact postDominates_of_ipdom branching_wellFormed branching_ipdom_one
  · rintro ⟨hdom, -⟩
    have hother : PathTo (edge branching) (Exit branching) 0 [2] :=
      .step 0 2 [] (branching_edge.2 (by decide)) (.exit 2 (branching_exit.2 (by decide)))
    exact absurd (hdom _ hother) (by decide)

end SVF.Util.ControlDependence
