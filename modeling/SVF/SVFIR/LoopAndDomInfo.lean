import SVF.Util.Loops
import SVF.Util.PostDominance

namespace SVF.SVFIR.LoopAndDomInfo

open Util.Dominance Util.PostDominance Util.Loops

section

variable {BasicBlock : Type}

/-- A node of the compiler's post-dominator tree. The block of the virtual root is `none`. -/
structure PostDomTreeNode (BasicBlock : Type) where
  level : ℕ
  idom : Option BasicBlock
  children : List BasicBlock

/-- A function, with the trees that the compiler has computed for it. The node of a
dominator tree is given by its children. -/
structure Function (BasicBlock : Type) where
  blocks : List BasicBlock
  entry : BasicBlock
  successors : BasicBlock → List BasicBlock
  dt : BasicBlock → Option (List BasicBlock)
  pdt : BasicBlock → Option (PostDomTreeNode BasicBlock)

structure SVFLoopAndDomInfo (BasicBlock : Type) where
  reachableBBs : List BasicBlock
  dtBBsMap : BasicBlock → Option (List BasicBlock)
  pdtBBsMap : BasicBlock → Option (List BasicBlock)
  bbPDomLevel : BasicBlock → Option ℕ
  bb2PIdom : BasicBlock → Option (Option BasicBlock)

variable [DecidableEq BasicBlock]

structure Search (BasicBlock : Type) where
  visited : List BasicBlock
  bbVec : List BasicBlock
  reachableBBs : List BasicBlock

def Search.push (s : Search BasicBlock) (succbb : BasicBlock) : Search BasicBlock :=
  if succbb ∈ s.visited then s
  else { s with visited := succbb :: s.visited, bbVec := succbb :: s.bbVec }

def Search.pop (fn : Function BasicBlock) (s : Search BasicBlock) : Option (Search BasicBlock) :=
  match s.bbVec with
  | [] => none
  | bb :: bbVec =>
      let s := { s with bbVec := bbVec, reachableBBs := s.reachableBBs ++ [bb] }
      match fn.dt bb with
      | none => some s
      | some dtNode => some (dtNode.foldl Search.push s)

def getFunReachableBBs (fn : Function BasicBlock) (fuel : ℕ) : Option (List BasicBlock) :=
  (whileLoop (fun s => s.bbVec ≠ []) (Search.pop fn) fuel ⟨[], [fn.entry], []⟩).map (·.reachableBBs)

namespace SVFLoopAndDomInfo

def insertAll (map : BasicBlock → Option (List BasicBlock)) (key : BasicBlock) (bbs : List BasicBlock) :
    BasicBlock → Option (List BasicBlock) :=
  Function.update map key (some (bbs.foldl (fun bbSet bb => bbSet.insert bb) ((map key).getD [])))

def initBlock (fn : Function BasicBlock) (ld : SVFLoopAndDomInfo BasicBlock) (bb : BasicBlock) :
    SVFLoopAndDomInfo BasicBlock :=
  let ld := match fn.dt bb with
    | none => ld
    | some dtNode => { ld with dtBBsMap := insertAll ld.dtBBsMap bb dtNode }
  match fn.pdt bb with
  | none => ld
  | some pdtNode =>
      { ld with
        bbPDomLevel := Function.update ld.bbPDomLevel bb (some pdtNode.level)
        bb2PIdom := Function.update ld.bb2PIdom bb (some pdtNode.idom)
        pdtBBsMap := insertAll ld.pdtBBsMap bb pdtNode.children }

def initDomTree (fn : Function BasicBlock) (fuel : ℕ) : Option (SVFLoopAndDomInfo BasicBlock) := do
  let reachableBBs ← getFunReachableBBs fn fuel
  some (fn.blocks.foldl (initBlock fn)
    ⟨reachableBBs, fun _ => none, fun _ => none, fun _ => none, fun _ => none⟩)

def isUnreachable (ld : SVFLoopAndDomInfo BasicBlock) (bb : BasicBlock) : Bool := bb ∉ ld.reachableBBs

/-- The body that `dominate` and `postDominate` share, on the map that they ask. -/
def inTree (ld : SVFLoopAndDomInfo BasicBlock) (dtBBsMap : BasicBlock → Option (List BasicBlock))
    (bbKey bbValue : BasicBlock) : Bool :=
  if bbKey = bbValue then true
  else if ld.isUnreachable bbValue then true
  else if ld.isUnreachable bbKey then false
  else match dtBBsMap bbKey with
    | some dtBBs => bbValue ∈ dtBBs
    | none => false

def dominate (ld : SVFLoopAndDomInfo BasicBlock) (bbKey bbValue : BasicBlock) : Bool :=
  ld.inTree ld.dtBBsMap bbKey bbValue

def postDominate (ld : SVFLoopAndDomInfo BasicBlock) (bbKey bbValue : BasicBlock) : Bool :=
  ld.inTree ld.pdtBBsMap bbKey bbValue

/-- `none` stands for a failed assertion, `some none` for the null pointer. -/
def findNearestCommonPDominator (ld : SVFLoopAndDomInfo BasicBlock) :
    ℕ → Option BasicBlock → Option BasicBlock → Option (Option BasicBlock)
  | 0, _, _ => none
  | fuel + 1, A, B =>
      if A = B then some A
      else match A, B with
        | none, _ => some none
        | some _, none => none
        | some a, some b => do
            let lvA ← ld.bbPDomLevel a
            let lvB ← ld.bbPDomLevel b
            if lvA < lvB then
              let idom ← ld.bb2PIdom b
              ld.findNearestCommonPDominator fuel idom (some a)
            else
              let idom ← ld.bb2PIdom a
              ld.findNearestCommonPDominator fuel idom (some b)

end SVFLoopAndDomInfo

end

section

variable {BasicBlock : Type}

def edge (fn : Function BasicBlock) (a b : BasicBlock) : Prop := b ∈ fn.successors a

def Exit (fn : Function BasicBlock) (b : BasicBlock) : Prop := fn.successors b = []

abbrev Reach (fn : Function BasicBlock) (b : BasicBlock) : Prop := Reachable (edge fn) fn.entry b

def pidom (fn : Function BasicBlock) : Option BasicBlock → Option BasicBlock
  | none => none
  | some b => (fn.pdt b).bind (·.idom)

def plevel (fn : Function BasicBlock) : Option BasicBlock → ℕ
  | none => 0
  | some b => ((fn.pdt b).map (·.level)).getD 0

def Node (fn : Function BasicBlock) : Option BasicBlock → Prop
  | none => True
  | some b => b ∈ fn.blocks

/-- The trees of the compiler are right. The roots of the post-dominator tree are the
exits and, where a block reaches none of them, blocks that the compiler has chosen. -/
structure WellFormed (fn : Function BasicBlock) (root : BasicBlock → Prop) : Prop where
  nodup : fn.blocks.Nodup
  entry : fn.entry ∈ fn.blocks
  successors : ∀ a ∈ fn.blocks, ∀ b ∈ fn.successors a, b ∈ fn.blocks
  exits : ∀ b, Exit fn b → root b
  dt : ∀ a, Reach fn a → ∃ dtNode, fn.dt a = some dtNode ∧
    ∀ b, b ∈ dtNode ↔ Reach fn b ∧ IDom (edge fn) fn.entry a b
  spans : ∀ b, Reach fn b → b ≠ fn.entry → ∃ a, Reach fn a ∧ IDom (edge fn) fn.entry a b
  pdt : ∀ a ∈ fn.blocks, ∃ pdtNode, fn.pdt a = some pdtNode ∧
    ∀ b, b ∈ pdtNode.children ↔ b ∈ fn.blocks ∧ pidom fn (some b) = some a
  tree : DomTree (Rev (edge fn) root) none (Node fn) (pidom fn) (plevel fn)

theorem WellFormed.mem_blocks {fn : Function BasicBlock} {root : BasicBlock → Prop} (hfn : WellFormed fn root) {b : BasicBlock} (hb : Reach fn b) :
    b ∈ fn.blocks := by
  obtain ⟨p, hp⟩ := hb
  induction hp with
  | start => exact hfn.entry
  | step a b p _ hab ih => exact hfn.successors a ih b hab

end

section

variable {BasicBlock : Type} [DecidableEq BasicBlock] {fn : Function BasicBlock}
  {root : BasicBlock → Prop}

structure Pushed (bbs : List BasicBlock) (s t : Search BasicBlock) : Prop where
  visited : ∀ b, b ∈ t.visited ↔ b ∈ s.visited ∨ b ∈ bbs
  bbVec : ∀ b, b ∈ t.bbVec → b ∈ s.bbVec ∨ b ∈ bbs
  kept : ∀ b, b ∈ s.bbVec → b ∈ t.bbVec
  queued : ∀ b, b ∈ t.visited → b ∈ s.visited ∨ b ∈ t.bbVec
  nodup : s.visited.Nodup → t.visited.Nodup
  grows : s.visited.length ≤ t.visited.length
  length : t.bbVec.length + s.visited.length = s.bbVec.length + t.visited.length
  reachableBBs : t.reachableBBs = s.reachableBBs

theorem pushed_push (s : Search BasicBlock) (b : BasicBlock) : Pushed [b] s (s.push b) := by
  rw [Search.push]
  split_ifs with hb
  · refine ⟨?_, fun _ h => Or.inl h, fun _ h => h, fun _ h => Or.inl h, id, Nat.le_refl _, rfl, rfl⟩
    intro x
    rw [List.mem_singleton]
    exact ⟨Or.inl, fun hx => hx.elim id (fun heq => heq ▸ hb)⟩
  · refine ⟨?_, ?_, ?_, ?_, ?_, Nat.le_succ _, ?_, rfl⟩
    · intro x
      rw [List.mem_singleton, List.mem_cons, or_comm]
    · intro x hx
      rw [List.mem_singleton]
      exact (List.mem_cons.1 hx).symm
    · intro x hx
      exact List.mem_cons_of_mem b hx
    · intro x hx
      rcases List.mem_cons.1 hx with rfl | hx
      · exact Or.inr List.mem_cons_self
      · exact Or.inl hx
    · intro hnodup
      exact List.nodup_cons.2 ⟨hb, hnodup⟩
    · simp only [List.length_cons]
      omega

theorem pushed_foldl (bbs : List BasicBlock) (s : Search BasicBlock) :
    Pushed bbs s (bbs.foldl Search.push s) := by
  induction bbs generalizing s with
  | nil =>
      refine ⟨?_, fun _ h => Or.inl h, fun _ h => h, fun _ h => Or.inl h, id, Nat.le_refl _, rfl, rfl⟩
      intro x
      simp
  | cons b bbs ih =>
      have hb := pushed_push s b
      have hbbs := ih (s.push b)
      refine ⟨?_, ?_, ?_, ?_, ?_, hb.grows.trans hbbs.grows, ?_, hbbs.reachableBBs.trans hb.reachableBBs⟩
      · intro x
        rw [List.foldl_cons, hbbs.visited, hb.visited, List.mem_singleton, List.mem_cons, or_assoc]
      · intro x hx
        rcases hbbs.bbVec x hx with hx | hx
        · rcases hb.bbVec x hx with hx | hx
          · exact Or.inl hx
          · exact Or.inr (List.mem_cons.2 (Or.inl (List.mem_singleton.1 hx)))
        · exact Or.inr (List.mem_cons_of_mem b hx)
      · intro x hx
        exact hbbs.kept x (hb.kept x hx)
      · intro x hx
        rcases hbbs.queued x hx with hx | hx
        · exact (hb.queued x hx).imp_right (hbbs.kept x)
        · exact Or.inr hx
      · intro hnodup
        exact hbbs.nodup (hb.nodup hnodup)
      · have h₁ := hb.length
        have h₂ := hbbs.length
        rw [List.foldl_cons]
        omega

/-- The blocks that are left are found, and the children of what was taken are visited. -/
structure Searching (fn : Function BasicBlock) (s : Search BasicBlock) : Prop where
  visited : ∀ b ∈ s.visited, Reach fn b
  bbVec : ∀ b ∈ s.bbVec, Reach fn b
  reachableBBs : ∀ b ∈ s.reachableBBs, Reach fn b
  found : ∀ b, b ∈ s.visited ∨ b = fn.entry → b ∈ s.bbVec ∨ b ∈ s.reachableBBs
  closed : ∀ a ∈ s.reachableBBs, ∀ b, Reach fn b → IDom (edge fn) fn.entry a b → b ∈ s.visited
  nodup : s.visited.Nodup

omit [DecidableEq BasicBlock] in
theorem Searching.start (fn : Function BasicBlock) : Searching fn ⟨[], [fn.entry], []⟩ where
  visited _ hb := absurd hb List.not_mem_nil
  bbVec b hb := by
    rw [List.mem_singleton.1 hb]
    exact ⟨[], .start⟩
  reachableBBs _ hb := absurd hb List.not_mem_nil
  found b hb := Or.inl (List.mem_singleton.2 (hb.resolve_left List.not_mem_nil))
  closed _ ha := absurd ha List.not_mem_nil
  nodup := List.nodup_nil

def remaining (fn : Function BasicBlock) (s : Search BasicBlock) : ℕ :=
  2 * (fn.blocks.length - s.visited.length) + s.bbVec.length

theorem Searching.pop (hfn : WellFormed fn root) {s : Search BasicBlock} (hs : Searching fn s)
    (hguard : s.bbVec ≠ []) :
    ∃ t, Search.pop fn s = some t ∧ Searching fn t ∧ remaining fn t < remaining fn s := by
  obtain ⟨visited, bbVec, reachableBBs⟩ := s
  cases bbVec with
  | nil => exact absurd rfl hguard
  | cons bb bbVec =>
      have hbb : Reach fn bb := hs.bbVec bb List.mem_cons_self
      obtain ⟨dtNode, hdt, hmem⟩ := hfn.dt bb hbb
      have hpushed := pushed_foldl dtNode ⟨visited, bbVec, reachableBBs ++ [bb]⟩
      rw [Search.pop]
      simp only [hdt]
      refine ⟨_, rfl, ?_, ?_⟩
      · refine { visited := ?_, bbVec := ?_, reachableBBs := ?_, found := ?_, closed := ?_, nodup := ?_ }
        · intro b hb
          rcases (hpushed.visited b).1 hb with hb | hb
          · exact hs.visited b hb
          · exact ((hmem b).1 hb).1
        · intro b hb
          rcases hpushed.bbVec b hb with hb | hb
          · exact hs.bbVec b (List.mem_cons_of_mem bb hb)
          · exact ((hmem b).1 hb).1
        · intro b hb
          rw [hpushed.reachableBBs, List.mem_append, List.mem_singleton] at hb
          rcases hb with hb | rfl
          · exact hs.reachableBBs b hb
          · exact hbb
        · intro b hb
          have hbefore : b ∈ visited ∨ b = fn.entry →
              b ∈ (dtNode.foldl Search.push ⟨visited, bbVec, reachableBBs ++ [bb]⟩).bbVec ∨
                b ∈ reachableBBs ++ [bb] := by
            intro hb
            rcases hs.found b hb with hb | hb
            · rcases List.mem_cons.1 hb with rfl | hb
              · exact Or.inr (List.mem_append_right _ (List.mem_singleton_self _))
              · exact Or.inl (hpushed.kept b hb)
            · exact Or.inr (List.mem_append_left _ hb)
          rw [hpushed.reachableBBs]
          rcases hb with hb | hb
          · rcases hpushed.queued b hb with hb | hb
            · exact hbefore (Or.inl hb)
            · exact Or.inl hb
          · exact hbefore (Or.inr hb)
        · intro a ha b hb hab
          rw [hpushed.reachableBBs, List.mem_append, List.mem_singleton] at ha
          apply (hpushed.visited b).2
          rcases ha with ha | rfl
          · exact Or.inl (hs.closed a ha b hb hab)
          · exact Or.inr ((hmem b).2 ⟨hb, hab⟩)
        · exact hpushed.nodup hs.nodup
      · have hlength := hpushed.length
        have hgrows := hpushed.grows
        have hle : (dtNode.foldl Search.push ⟨visited, bbVec, reachableBBs ++ [bb]⟩).visited.length ≤
            fn.blocks.length := by
          refine (List.subperm_of_subset (hpushed.nodup hs.nodup) ?_).length_le
          intro b hb
          rcases (hpushed.visited b).1 hb with hb | hb
          · exact hfn.mem_blocks (hs.visited b hb)
          · exact hfn.mem_blocks ((hmem b).1 hb).1
        simp only [remaining, List.length_cons] at hlength hgrows ⊢
        omega

theorem getFunReachableBBs_spec (hfn : WellFormed fn root) {fuel : ℕ}
    (hfuel : 2 * fn.blocks.length + 1 ≤ fuel) :
    ∃ bbs, getFunReachableBBs fn fuel = some bbs ∧ ∀ b, b ∈ bbs ↔ Reach fn b := by
  have hbody : ∀ s, Searching fn s → decide (s.bbVec ≠ []) = true →
      ∃ t, Search.pop fn s = some t ∧ Searching fn t ∧ remaining fn t < remaining fn s := by
    intro s hs hguard
    exact hs.pop hfn (of_decide_eq_true hguard)
  have hmeasure : remaining fn ⟨[], [fn.entry], []⟩ ≤ fuel := hfuel
  obtain ⟨t, ht, hsearching, hend⟩ := whileLoop_terminates _ hbody (Searching.start fn) hmeasure
  refine ⟨t.reachableBBs, by rw [getFunReachableBBs, ht, Option.map_some], ?_⟩
  have hempty : t.bbVec = [] := not_not.1 (of_decide_eq_false hend)
  have hfound : ∀ b, b ∈ t.visited ∨ b = fn.entry → b ∈ t.reachableBBs := by
    intro b hb
    refine (hsearching.found b hb).resolve_left ?_
    rw [hempty]
    exact List.not_mem_nil
  intro b
  refine ⟨hsearching.reachableBBs b, ?_⟩
  intro hb
  have hdescendant := descendant_of_sdom (C := fun a b => Reach fn b ∧ IDom (edge fn) fn.entry a b)
    (fun c hc hne => by
      obtain ⟨a, -, hidom⟩ := hfn.spans c hc hne
      exact ⟨a, ⟨hc, hidom⟩, hidom.1⟩) hb
  induction hdescendant with
  | refl => exact hfound _ (Or.inr rfl)
  | tail _ hstep ih =>
      have hreach := reachable_of_dom hstep.1 hstep.2.1.1
      exact hfound _ (Or.inl (hsearching.closed _ (ih hreach) _ hstep.1 hstep.2))

end

section

variable {BasicBlock : Type} [DecidableEq BasicBlock] {fn : Function BasicBlock}
  {root : BasicBlock → Prop}

open SVFLoopAndDomInfo (insertAll initBlock)

def toSet (bbs : List BasicBlock) : List BasicBlock := bbs.foldl (fun bbSet bb => bbSet.insert bb) []

theorem mem_foldl_insert (bbs bbSet : List BasicBlock) (b : BasicBlock) :
    b ∈ bbs.foldl (fun bbSet bb => bbSet.insert bb) bbSet ↔ b ∈ bbSet ∨ b ∈ bbs := by
  induction bbs generalizing bbSet with
  | nil => simp
  | cons c bbs ih => rw [List.foldl_cons, ih, List.mem_insert_iff, List.mem_cons, or_comm (a := b = c), or_assoc]

theorem mem_toSet {bbs : List BasicBlock} {b : BasicBlock} : b ∈ toSet bbs ↔ b ∈ bbs := by
  rw [toSet, mem_foldl_insert]
  exact or_iff_right List.not_mem_nil

theorem insertAll_eq {map : BasicBlock → Option (List BasicBlock)} {key : BasicBlock} (hkey : map key = none)
    (bbs : List BasicBlock) : insertAll map key bbs = Function.update map key (some (toSet bbs)) := by
  rw [insertAll, hkey]
  rfl

structure Filled (fn : Function BasicBlock) (bbs : List BasicBlock) (ld : SVFLoopAndDomInfo BasicBlock) :
    Prop where
  dt : ∀ b, ld.dtBBsMap b = if b ∈ bbs then (fn.dt b).map toSet else none
  pdt : ∀ b, ld.pdtBBsMap b = if b ∈ bbs then (fn.pdt b).map (fun n => toSet n.children) else none
  level : ∀ b, ld.bbPDomLevel b = if b ∈ bbs then (fn.pdt b).map (·.level) else none
  idom : ∀ b, ld.bb2PIdom b = if b ∈ bbs then (fn.pdt b).map (·.idom) else none

theorem update_filled {β : Type} {f : BasicBlock → Option β} {map : BasicBlock → Option β}
    {bbs : List BasicBlock} (h : ∀ b, map b = if b ∈ bbs then f b else none) {bb : BasicBlock} {v : β}
    (hbb : f bb = some v) (b : BasicBlock) :
    Function.update map bb (some v) b = if b ∈ bb :: bbs then f b else none := by
  by_cases heq : b = bb
  · rw [heq, Function.update_self, if_pos List.mem_cons_self, hbb]
  · rw [Function.update_of_ne heq, h]
    simp only [List.mem_cons, heq, false_or]

theorem skip_filled {β : Type} {f : BasicBlock → Option β}
    {map : BasicBlock → Option β} {bbs : List BasicBlock} (h : ∀ b, map b = if b ∈ bbs then f b else none)
    {bb : BasicBlock} (hbb : f bb = none) (b : BasicBlock) : map b = if b ∈ bb :: bbs then f b else none := by
  rw [h]
  by_cases heq : b = bb
  · rw [heq, hbb, ite_self, ite_self]
  · simp only [List.mem_cons, heq, false_or]

theorem Filled.initBlock {bbs : List BasicBlock} {ld : SVFLoopAndDomInfo BasicBlock} (h : Filled fn bbs ld)
    {bb : BasicBlock} (hbb : bb ∉ bbs) : Filled fn (bb :: bbs) (initBlock fn ld bb) := by
  have hdtkey : ld.dtBBsMap bb = none := (h.dt bb).trans (if_neg hbb)
  have hpdtkey : ld.pdtBBsMap bb = none := (h.pdt bb).trans (if_neg hbb)
  rw [SVFLoopAndDomInfo.initBlock]
  cases hdt : fn.dt bb with
  | none =>
      have hskip := skip_filled h.dt (congrArg (Option.map toSet) hdt)
      cases hpdt : fn.pdt bb with
      | none =>
          exact ⟨hskip, skip_filled h.pdt (congrArg (Option.map _) hpdt),
            skip_filled h.level (congrArg (Option.map _) hpdt), skip_filled h.idom (congrArg (Option.map _) hpdt)⟩
      | some pdtNode =>
          refine ⟨hskip, ?_, update_filled h.level (congrArg (Option.map _) hpdt),
            update_filled h.idom (congrArg (Option.map _) hpdt)⟩
          dsimp only
          rw [insertAll_eq hpdtkey]
          exact update_filled h.pdt (congrArg (Option.map _) hpdt)
  | some dtNode =>
      have hput : ∀ b, insertAll ld.dtBBsMap bb dtNode b = if b ∈ bb :: bbs then (fn.dt b).map toSet else none := by
        rw [insertAll_eq hdtkey]
        exact update_filled h.dt (congrArg (Option.map toSet) hdt)
      cases hpdt : fn.pdt bb with
      | none =>
          exact ⟨hput, skip_filled h.pdt (congrArg (Option.map _) hpdt),
            skip_filled h.level (congrArg (Option.map _) hpdt), skip_filled h.idom (congrArg (Option.map _) hpdt)⟩
      | some pdtNode =>
          refine ⟨hput, ?_, update_filled h.level (congrArg (Option.map _) hpdt),
            update_filled h.idom (congrArg (Option.map _) hpdt)⟩
          dsimp only
          rw [insertAll_eq hpdtkey]
          exact update_filled h.pdt (congrArg (Option.map _) hpdt)

theorem initBlock_reachableBBs (ld : SVFLoopAndDomInfo BasicBlock) (bb : BasicBlock) :
    (initBlock fn ld bb).reachableBBs = ld.reachableBBs := by
  rw [SVFLoopAndDomInfo.initBlock]
  cases fn.dt bb <;> cases fn.pdt bb <;> rfl

theorem filled_foldl {bbs rest : List BasicBlock} {ld : SVFLoopAndDomInfo BasicBlock} (h : Filled fn bbs ld)
    (hrest : rest.Nodup) (hdisjoint : ∀ b ∈ rest, b ∉ bbs) :
    ∃ done, (∀ b, b ∈ done ↔ b ∈ bbs ∨ b ∈ rest) ∧ Filled fn done (rest.foldl (initBlock fn) ld) ∧
      (rest.foldl (initBlock fn) ld).reachableBBs = ld.reachableBBs := by
  induction rest generalizing bbs ld with
  | nil => exact ⟨bbs, fun b => by simp, h, rfl⟩
  | cons bb rest ih =>
      obtain ⟨hbb, hnodup⟩ := List.nodup_cons.1 hrest
      have hfilled := h.initBlock (hdisjoint bb List.mem_cons_self)
      obtain ⟨done, hdone, hend, hsame⟩ := ih hfilled hnodup (by
        intro b hb hmem
        rcases List.mem_cons.1 hmem with rfl | hmem
        · exact hbb hb
        · exact hdisjoint b (List.mem_cons_of_mem bb hb) hmem)
      refine ⟨done, ?_, hend, hsame.trans (initBlock_reachableBBs ld bb)⟩
      intro b
      rw [hdone, List.mem_cons, List.mem_cons, or_comm (a := b = bb), or_assoc]

structure Initialized (fn : Function BasicBlock) (ld : SVFLoopAndDomInfo BasicBlock) : Prop where
  reachable : ∀ b, b ∈ ld.reachableBBs ↔ Reach fn b
  dt : ∀ b ∈ fn.blocks, ld.dtBBsMap b = (fn.dt b).map toSet
  pdt : ∀ b ∈ fn.blocks, ld.pdtBBsMap b = (fn.pdt b).map (fun n => toSet n.children)
  level : ∀ b ∈ fn.blocks, ld.bbPDomLevel b = (fn.pdt b).map (·.level)
  idom : ∀ b ∈ fn.blocks, ld.bb2PIdom b = (fn.pdt b).map (·.idom)

theorem initDomTree_spec (hfn : WellFormed fn root) {fuel : ℕ} (hfuel : 2 * fn.blocks.length + 1 ≤ fuel) :
    ∃ ld, SVFLoopAndDomInfo.initDomTree fn fuel = some ld ∧ Initialized fn ld := by
  obtain ⟨bbs, hbbs, hreach⟩ := getFunReachableBBs_spec hfn hfuel
  have hstart : Filled fn [] ⟨bbs, fun _ => none, fun _ => none, fun _ => none, fun _ => none⟩ :=
    ⟨fun _ => rfl, fun _ => rfl, fun _ => rfl, fun _ => rfl⟩
  obtain ⟨done, hdone, hfilled, hsame⟩ := filled_foldl hstart hfn.nodup fun _ _ => List.not_mem_nil
  refine ⟨_, by rw [SVFLoopAndDomInfo.initDomTree, hbbs]; rfl, ?_⟩
  have hmem : ∀ b ∈ fn.blocks, b ∈ done := fun b hb => (hdone b).2 (Or.inr hb)
  exact {
    reachable := fun b => by rw [hsame, hreach]
    dt := fun b hb => (hfilled.dt b).trans (if_pos (hmem b hb))
    pdt := fun b hb => (hfilled.pdt b).trans (if_pos (hmem b hb))
    level := fun b hb => (hfilled.level b).trans (if_pos (hmem b hb))
    idom := fun b hb => (hfilled.idom b).trans (if_pos (hmem b hb)) }

end

end SVF.SVFIR.LoopAndDomInfo
