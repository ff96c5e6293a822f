import SVF.SVFIR.LoopAndDomInfo

namespace SVF.SVFIR.DominanceQueries

open Util.Dominance Util.PostDominance LoopAndDomInfo

section

variable {BasicBlock : Type} {fn : Function BasicBlock} {root : BasicBlock → Prop}

abbrev PostDominates (fn : Function BasicBlock) (a b : BasicBlock) : Prop := PDom (edge fn) (Exit fn) a b

/-- `a` is the immediate post-dominator of `b`, towards the roots of the tree. -/
abbrev IPDom (fn : Function BasicBlock) (root : BasicBlock → Prop) (a b : BasicBlock) : Prop :=
  IDom (Rev (edge fn) root) none (some a) (some b)

theorem pidom_eq_some_iff (hfn : WellFormed fn root) {a b : BasicBlock} (hb : b ∈ fn.blocks) :
    pidom fn (some b) = some a ↔ IPDom fn root a b := by
  have hidom := hfn.tree.idom (some b) hb (Option.some_ne_none b)
  constructor
  · intro heq
    rwa [heq] at hidom
  · intro h
    exact idom_unique hidom h (hfn.tree.reachable (some b) hb)

/-- An immediate post-dominator is on all paths to the exits, which are roots. -/
theorem postDominates_of_ipdom (hfn : WellFormed fn root) {a b : BasicBlock} (h : IPDom fn root a b) :
    PostDominates fn a b :=
  (pdom_iff_dom.2 h.1.1).mono hfn.exits

/-- An answer that stops at the parents is right for them alone. -/
theorem right_iff {d I D : Prop} {a b : BasicBlock} (hd : d ↔ a = b ∨ I) (hrefl : a = b → D) (hsound : I → D) :
    (d ↔ D) ↔ (a = b ∨ I ∨ ¬D) := by
  constructor
  · intro h
    by_cases hD : D
    · exact (hd.1 (h.2 hD)).imp_right Or.inl
    · exact Or.inr (Or.inr hD)
  · intro h
    constructor
    · intro hanswer
      exact (hd.1 hanswer).elim hrefl hsound
    · intro hD
      rcases h with heq | hI | hno
      · exact hd.2 (Or.inl heq)
      · exact hd.2 (Or.inr hI)
      · exact absurd hD hno

theorem transitive_iff {d I : BasicBlock → BasicBlock → Prop} {a b c : BasicBlock}
    (hab : d a b ↔ a = b ∨ I a b) (hbc : d b c ↔ b = c ∨ I b c) (hac : d a c ↔ a = c ∨ I a c)
    (hI : I a b → I b c → a ≠ c ∧ ¬I a c) : (d a b → d b c → d a c) ↔ ¬(I a b ∧ I b c) := by
  constructor
  · rintro htrans ⟨h, h'⟩
    obtain ⟨hne, hnot⟩ := hI h h'
    exact (hac.1 (htrans (hab.2 (Or.inr h)) (hbc.2 (Or.inr h')))).elim hne hnot
  · intro hno h h'
    rcases hab.1 h with rfl | hI₁
    · exact h'
    · rcases hbc.1 h' with rfl | hI₂
      · exact h
      · exact absurd ⟨hI₁, hI₂⟩ hno

variable [DecidableEq BasicBlock] {ld : SVFLoopAndDomInfo BasicBlock}

theorem inTree_iff (hld : Initialized fn ld) (map : BasicBlock → Option (List BasicBlock))
    {a b : BasicBlock} (ha : Reach fn a) (hb : Reach fn b) :
    ld.inTree map a b = true ↔ a = b ∨ ∃ bbs, map a = some bbs ∧ b ∈ bbs := by
  have hreachable : ∀ {c}, Reach fn c → ld.isUnreachable c = false := by
    intro c hc
    rw [SVFLoopAndDomInfo.isUnreachable, decide_eq_false_iff_not, not_not]
    exact (hld.reachable c).2 hc
  rw [SVFLoopAndDomInfo.inTree, hreachable ha, hreachable hb]
  by_cases heq : a = b
  · rw [if_pos heq]
    exact iff_of_true rfl (Or.inl heq)
  · rw [if_neg heq, if_neg Bool.false_ne_true, if_neg Bool.false_ne_true, or_iff_right heq]
    cases map a with
    | none => simp
    | some bbs => simp

theorem dominate_iff (hfn : WellFormed fn root) (hld : Initialized fn ld) {a b : BasicBlock}
    (ha : Reach fn a) (hb : Reach fn b) :
    ld.dominate a b = true ↔ a = b ∨ IDom (edge fn) fn.entry a b := by
  obtain ⟨dtNode, hdt, hmem⟩ := hfn.dt a ha
  rw [SVFLoopAndDomInfo.dominate, inTree_iff hld _ ha hb, hld.dt a (hfn.mem_blocks ha), hdt]
  refine or_congr_right ?_
  constructor
  · rintro ⟨bbs, heq, hin⟩
    cases heq
    exact ((hmem b).1 (mem_toSet.1 hin)).2
  · intro hidom
    exact ⟨_, rfl, mem_toSet.2 ((hmem b).2 ⟨hb, hidom⟩)⟩

theorem postDominate_iff (hfn : WellFormed fn root) (hld : Initialized fn ld) {a b : BasicBlock}
    (ha : Reach fn a) (hb : Reach fn b) :
    ld.postDominate a b = true ↔ a = b ∨ IPDom fn root a b := by
  have hablock := hfn.mem_blocks ha
  have hbblock := hfn.mem_blocks hb
  obtain ⟨pdtNode, hpdt, hmem⟩ := hfn.pdt a hablock
  rw [SVFLoopAndDomInfo.postDominate, inTree_iff hld _ ha hb, hld.pdt a hablock, hpdt,
    ← pidom_eq_some_iff hfn hbblock]
  refine or_congr_right ?_
  constructor
  · rintro ⟨bbs, heq, hin⟩
    cases heq
    exact ((hmem b).1 (mem_toSet.1 hin)).2
  · intro hidom
    exact ⟨_, rfl, mem_toSet.2 ((hmem b).2 ⟨hbblock, hidom⟩)⟩

theorem dominance_exact (hfn : WellFormed fn root) {fuel : ℕ} (hfuel : 2 * fn.blocks.length + 1 ≤ fuel) :
    ∃ ld, SVFLoopAndDomInfo.initDomTree fn fuel = some ld ∧ ∀ a b, Reach fn a → Reach fn b →
      ((ld.dominate a b = true ↔ Dom (edge fn) fn.entry a b) ↔
        a = b ∨ IDom (edge fn) fn.entry a b ∨ ¬Dom (edge fn) fn.entry a b) ∧
      ((ld.postDominate a b = true ↔ PostDominates fn a b) ↔
        a = b ∨ IPDom fn root a b ∨ ¬PostDominates fn a b) ∧
      ∀ c, Reach fn c →
        ((ld.dominate a b = true → ld.dominate b c = true → ld.dominate a c = true) ↔
          ¬(IDom (edge fn) fn.entry a b ∧ IDom (edge fn) fn.entry b c)) ∧
        ((ld.postDominate a b = true → ld.postDominate b c = true → ld.postDominate a c = true) ↔
          ¬(IPDom fn root a b ∧ IPDom fn root b c)) := by
  obtain ⟨ld, hinit, hld⟩ := initDomTree_spec hfn hfuel
  refine ⟨ld, hinit, ?_⟩
  intro a b ha hb
  refine ⟨?_, ?_, ?_⟩
  · apply right_iff (dominate_iff hfn hld ha hb)
    · rintro rfl
      exact dom_refl a
    · exact fun h => h.1.1
  · apply right_iff (postDominate_iff hfn hld ha hb)
    · rintro rfl p _
      exact List.mem_cons_self
    · exact postDominates_of_ipdom hfn
  · intro c hc
    constructor
    · apply transitive_iff (d := fun x y => ld.dominate x y = true) (dominate_iff hfn hld ha hb)
        (dominate_iff hfn hld hb hc) (dominate_iff hfn hld ha hc)
      intro hab hbc
      exact not_idom_of_idom hab hbc hc
    · apply transitive_iff (d := fun x y => ld.postDominate x y = true) (I := IPDom fn root)
        (postDominate_iff hfn hld ha hb) (postDominate_iff hfn hld hb hc) (postDominate_iff hfn hld ha hc)
      intro hab hbc
      obtain ⟨hne, hnot⟩ := not_idom_of_idom hab hbc (hfn.tree.reachable (some c) (hfn.mem_blocks hc))
      exact ⟨fun heq => hne (congrArg some heq), hnot⟩

end

/-- A branch, one of whose sides goes through two blocks and leaves the program there. -/
def branching : Function ℕ where
  blocks := [0, 1, 2, 3]
  entry := 0
  successors b := if b = 0 then [1, 2] else if b = 1 then [3] else []
  dt b := if b = 0 then some [1, 2] else if b = 1 then some [3] else if b ≤ 3 then some [] else none
  pdt b :=
    if b = 1 then some ⟨2, some 3, []⟩ else if b = 3 then some ⟨1, none, [1]⟩
    else if b ≤ 3 then some ⟨1, none, []⟩ else none

theorem branching_edge {a b : ℕ} : edge branching a b ↔ a = 0 ∧ (b = 1 ∨ b = 2) ∨ a = 1 ∧ b = 3 := by
  simp only [edge, branching]
  split_ifs with h0 h1
  · subst h0
    simp
  · subst h1
    simp
  · simp [h0, h1]

theorem branching_exit {b : ℕ} : Exit branching b ↔ 2 ≤ b := by
  simp only [Exit, branching]
  split_ifs with h0 h1
  · subst h0
    simp
  · subst h1
    simp
  · simp only [true_iff]
    omega

theorem branching_reach {b : ℕ} : Reach branching b ↔ b ≤ 3 := by
  have h0 : Reach branching 0 := ⟨[], .start⟩
  have h1 : Reach branching 1 := h0.step (branching_edge.2 (by decide))
  constructor
  · rintro ⟨p, hp⟩
    cases hp with
    | start => exact Nat.zero_le 3
    | step a _ p _ hab =>
        have hedge := branching_edge.1 hab
        omega
  · intro hb
    have hcases : b = 0 ∨ b = 1 ∨ b = 2 ∨ b = 3 := by omega
    rcases hcases with rfl | rfl | rfl | rfl
    · exact h0
    · exact h1
    · exact h0.step (branching_edge.2 (by decide))
    · exact h1.step (branching_edge.2 (by decide))

theorem branching_idom {b : ℕ} (hb : b ≤ 3) (hne : b ≠ 0) :
    IDom (edge branching) 0 (if b = 3 then 1 else 0) b := by
  have hcases : b = 1 ∨ b = 2 ∨ b = 3 := by omega
  rcases hcases with rfl | rfl | rfl
  · apply idom_of_forall_pred (by decide) _ (branching_edge.2 (by decide)) (by decide)
    intro x hx
    have hedge := branching_edge.1 hx
    change x = 0
    omega
  · apply idom_of_forall_pred (by decide) _ (branching_edge.2 (by decide)) (by decide)
    intro x hx
    have hedge := branching_edge.1 hx
    change x = 0
    omega
  · apply idom_of_forall_pred (by decide) _ (branching_edge.2 (by decide)) (by decide)
    intro x hx
    have hedge := branching_edge.1 hx
    change x = 1
    omega

theorem branching_idom_iff {a b : ℕ} (hb : b ≤ 3) :
    IDom (edge branching) 0 a b ↔ b ≠ 0 ∧ a = if b = 3 then 1 else 0 := by
  constructor
  · intro h
    have hne : b ≠ 0 := by
      rintro rfl
      exact not_sdom_entry a h.1
    exact ⟨hne, idom_unique h (branching_idom hb hne) (branching_reach.2 hb)⟩
  · rintro ⟨hne, rfl⟩
    exact branching_idom hb hne

theorem branching_rev {x : Option ℕ} {b : ℕ} :
    Rev (edge branching) (Exit branching) x (some b) ↔
      (x = none ∧ 2 ≤ b) ∨ ∃ y, x = some y ∧ (b = 0 ∧ (y = 1 ∨ y = 2) ∨ b = 1 ∧ y = 3) := by
  cases x with
  | none =>
      simp only [true_and, reduceCtorEq, false_and, exists_false, or_false]
      exact branching_exit
  | some y =>
      simp only [reduceCtorEq, false_and, false_or, Option.some.injEq, exists_eq_left']
      exact branching_edge

theorem branching_ipdom_none {b : ℕ} (hb : 2 ≤ b) :
    IDom (Rev (edge branching) (Exit branching)) none none (some b) := by
  apply idom_of_forall_pred (Option.some_ne_none b) _ (branching_rev.2 (Or.inl ⟨rfl, hb⟩))
    (Option.some_ne_none b).symm
  intro x hx
  rcases branching_rev.1 hx with ⟨rfl, -⟩ | ⟨y, -, hy⟩
  · rfl
  · omega

theorem branching_ipdom_one : IDom (Rev (edge branching) (Exit branching)) none (some 3) (some 1) := by
  apply idom_of_forall_pred (Option.some_ne_none 1) _
    (branching_rev.2 (Or.inr ⟨3, rfl, by decide⟩)) (by decide)
  intro x hx
  rcases branching_rev.1 hx with ⟨rfl, hle⟩ | ⟨y, rfl, hy⟩
  · omega
  · have heq : y = 3 := by omega
    rw [heq]

/-- The two ways from the branch to the exits have no block in common. -/
theorem branching_ipdom_zero : IDom (Rev (edge branching) (Exit branching)) none none (some 0) := by
  refine ⟨⟨dom_entry _, (Option.some_ne_none 0).symm⟩, ?_⟩
  intro c hc
  have hexit : ∀ b, 2 ≤ b → Path (Rev (edge branching) (Exit branching)) none (some b) [none] := by
    intro b hb
    exact .step none (some b) [] .start (branching_rev.2 (Or.inl ⟨rfl, hb⟩))
  have hright := hc.1 _ (.step (some 2) (some 0) _ (hexit 2 (by decide))
    (branching_rev.2 (Or.inr ⟨2, rfl, by decide⟩)))
  have hleft := hc.1 _ (.step (some 1) (some 0) _
    (.step (some 3) (some 1) _ (hexit 3 (by decide)) (branching_rev.2 (Or.inr ⟨3, rfl, by decide⟩)))
    (branching_rev.2 (Or.inr ⟨1, rfl, by decide⟩)))
  have hne := hc.2
  simp only [List.mem_cons, List.not_mem_nil, or_false] at hright hleft
  rcases hright with rfl | rfl | rfl
  · exact absurd rfl hne
  · exact absurd hleft (by decide)
  · exact dom_refl none

theorem branching_tree :
    DomTree (Rev (edge branching) (Exit branching)) none (Node branching) (pidom branching) (plevel branching) := by
  have hcases : ∀ b, Node branching (some b) → b = 0 ∨ b = 1 ∨ b = 2 ∨ b = 3 := by
    intro b hb
    simpa [Node, branching] using hb
  have hexit : ∀ b, 2 ≤ b → Reachable (Rev (edge branching) (Exit branching)) none (some b) := by
    intro b hb
    exact ⟨_, .step none (some b) [] .start (branching_rev.2 (Or.inl ⟨rfl, hb⟩))⟩
  refine { root := trivial, reachable := ?_, closed := ?_, idom := ?_, deeper := ?_ }
  · intro c hc
    cases c with
    | none => exact ⟨[], .start⟩
    | some b =>
        rcases hcases b hc with rfl | rfl | rfl | rfl
        · exact (hexit 2 (by decide)).step (branching_rev.2 (Or.inr ⟨2, rfl, by decide⟩))
        · exact (hexit 3 (by decide)).step (branching_rev.2 (Or.inr ⟨3, rfl, by decide⟩))
        · exact hexit 2 (by decide)
        · exact hexit 3 (by decide)
  · intro c hc hne
    cases c with
    | none => exact absurd rfl hne
    | some b =>
        rcases hcases b hc with rfl | rfl | rfl | rfl
        · trivial
        · exact (by decide : 3 ∈ branching.blocks)
        · trivial
        · trivial
  · intro c hc hne
    cases c with
    | none => exact absurd rfl hne
    | some b =>
        rcases hcases b hc with rfl | rfl | rfl | rfl
        · exact branching_ipdom_zero
        · exact branching_ipdom_one
        · exact branching_ipdom_none (by decide)
        · exact branching_ipdom_none (by decide)
  · intro c hc hne
    cases c with
    | none => exact absurd rfl hne
    | some b => rcases hcases b hc with rfl | rfl | rfl | rfl <;> rfl

theorem branching_wellFormed : WellFormed branching (Exit branching) where
  nodup := by decide
  entry := by decide
  successors a _ b hb := by
    have hedge := branching_edge.1 hb
    have hcases : b = 1 ∨ b = 2 ∨ b = 3 := by omega
    rcases hcases with rfl | rfl | rfl <;> decide
  exits _ hb := hb
  dt a ha := by
    have hchildren : ∀ {l : List ℕ}, (∀ b ≤ 3, b ∈ l ↔ b ≠ 0 ∧ a = if b = 3 then 1 else 0) → (∀ b ∈ l, b ≤ 3) →
        ∀ b, b ∈ l ↔ Reach branching b ∧ IDom (edge branching) 0 a b := by
      intro l hl hle b
      rw [branching_reach]
      constructor
      · intro hb
        exact ⟨hle b hb, (branching_idom_iff (hle b hb)).2 ((hl b (hle b hb)).1 hb)⟩
      · rintro ⟨hb, hidom⟩
        exact (hl b hb).2 ((branching_idom_iff hb).1 hidom)
    have ha := branching_reach.1 ha
    have hcases : a = 0 ∨ a = 1 ∨ a = 2 ∨ a = 3 := by omega
    rcases hcases with rfl | rfl | rfl | rfl <;> exact ⟨_, rfl, hchildren (by decide) (by decide)⟩
  spans b hb hne := by
    have hb := branching_reach.1 hb
    exact ⟨_, branching_reach.2 (by split_ifs <;> decide), branching_idom hb hne⟩
  pdt a ha := by
    have hchildren : ∀ {l : List ℕ}, (∀ b ∈ l, b ∈ branching.blocks ∧ pidom branching (some b) = some a) →
        (∀ b ∈ branching.blocks, pidom branching (some b) = some a → b ∈ l) →
        ∀ b, b ∈ l ↔ b ∈ branching.blocks ∧ pidom branching (some b) = some a :=
      fun hsound hcomplete b => ⟨hsound b, fun hb => hcomplete b hb.1 hb.2⟩
    have hcases : a = 0 ∨ a = 1 ∨ a = 2 ∨ a = 3 := by simpa [branching] using ha
    rcases hcases with rfl | rfl | rfl | rfl <;> exact ⟨_, rfl, hchildren (by decide) (by decide)⟩
  tree := branching_tree

theorem dominance_exact_branching :
    ∃ ld, SVFLoopAndDomInfo.initDomTree branching 9 = some ld ∧
      (ld.dominate 0 1 = true ↔ Dom (edge branching) 0 0 1) := by
  obtain ⟨ld, hinit, hexact⟩ := dominance_exact branching_wellFormed (show 2 * branching.blocks.length + 1 ≤ 9 by decide)
  exact ⟨ld, hinit, (hexact 0 1 (branching_reach.2 (by decide)) (branching_reach.2 (by decide))).1.2
    (Or.inr (Or.inl (branching_idom (by decide) (by decide))))⟩

/-- The block that leaves the program is dominated by the branch two levels above it. -/
theorem dominate_misses_grandchild :
    WellFormed branching (Exit branching) ∧ Reach branching 3 ∧ Dom (edge branching) branching.entry 0 3 ∧
      (SVFLoopAndDomInfo.initDomTree branching 9).map
        (fun ld => (ld.dominate 0 1, ld.dominate 1 3, ld.dominate 0 3)) = some (true, true, false) :=
  ⟨branching_wellFormed, branching_reach.2 (by decide), dom_entry 3, by decide⟩

end SVF.SVFIR.DominanceQueries
