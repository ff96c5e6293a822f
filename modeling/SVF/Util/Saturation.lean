import SVF.Util.Loops

namespace SVF.Util.Saturation

variable {α : Type*}

/-- Inference rules with one or two premises; the last argument is the conclusion. -/
structure Rules (α : Type*) where
  one : α → α → Prop
  two : α → α → α → Prop

structure ClosedUnder (R : Rules α) (S : Set α) : Prop where
  one : ∀ {a c}, a ∈ S → R.one a c → c ∈ S
  two : ∀ {a b c}, a ∈ S → b ∈ S → R.two a b c → c ∈ S

inductive Derives (R : Rules α) (init : Set α) : α → Prop
  | init {a} : a ∈ init → Derives R init a
  | one {a c} : Derives R init a → R.one a c → Derives R init c
  | two {a b c} : Derives R init a → Derives R init b → R.two a b c → Derives R init c

theorem closedUnder_derives (R : Rules α) (init : Set α) : ClosedUnder R {a | Derives R init a} :=
  ⟨fun ha h => ha.one h, fun ha hb h => ha.two hb h⟩

theorem Derives.mem {R : Rules α} {init S : Set α} (hinit : init ⊆ S) (hS : ClosedUnder R S)
    {a : α} (h : Derives R init a) : a ∈ S := by
  induction h with
  | init ha => exact hinit ha
  | one _ hr ih => exact hS.one ih hr
  | two _ _ hr iha ihb => exact hS.two iha ihb hr

theorem isLeast_derives (R : Rules α) (init : Set α) :
    IsLeast {S | init ⊆ S ∧ ClosedUnder R S} {a | Derives R init a} :=
  ⟨⟨fun _ ha => .init ha, closedUnder_derives R init⟩, fun _ hS _ ha => ha.mem hS.1 hS.2⟩

theorem Derives.mono {R : Rules α} {init init' : Set α} (h : init ⊆ init') {a : α}
    (ha : Derives R init a) : Derives R init' a :=
  ha.mem (fun _ hb => .init (h hb)) (closedUnder_derives R init')

/-- What processing the pending fact `a` does to the known facts `E` and the
pending facts `W`. The new facts follow from `a` and from facts already known,
and every rule instance that joins `a` with a fact of `E` has been applied. -/
structure Advances (R : Rules α) (E W : Set α) (a : α) (E' W' : Set α) : Prop where
  mono : E ⊆ E'
  pending : ∀ b, b ∈ W' ↔ (b ∈ W ∧ b ≠ a) ∨ (b ∈ E' ∧ b ∉ E)
  sound : ∀ S, ClosedUnder R S → E ⊆ S → E' ⊆ S
  one : ∀ c, R.one a c → c ∈ E'
  left : ∀ b ∈ E, ∀ c, R.two a b c → c ∈ E'
  right : ∀ b ∈ E, ∀ c, R.two b a c → c ∈ E'

structure Settled (R : Rules α) (start E W : Set α) : Prop where
  pending : W ⊆ E
  seeded : start ⊆ E
  sound : ∀ a ∈ E, Derives R start a
  one : ∀ a ∈ E, a ∉ W → ∀ c, R.one a c → c ∈ E
  two : ∀ a ∈ E, a ∉ W → ∀ b ∈ E, b ∉ W → ∀ c, R.two a b c → c ∈ E

theorem settled_start (R : Rules α) (init : Set α) : Settled R init init init where
  pending := subset_rfl
  seeded := subset_rfl
  sound _ := .init
  one _ ha hn := absurd ha hn
  two _ ha hn := absurd ha hn

theorem Settled.advances {R : Rules α} {init E W E' W' : Set α} {a : α}
    (h : Settled R init E W) (hs : Advances R E W a E' W') : Settled R init E' W' := by
  have hdone : ∀ b ∈ E', b ∉ W' → b ∈ E ∧ (b ∈ W → b = a) := by
    intro b hb hn
    have hE : b ∈ E := by
      by_contra hne
      exact hn ((hs.pending b).mpr (.inr ⟨hb, hne⟩))
    refine ⟨hE, fun hW => ?_⟩
    by_contra hne
    exact hn ((hs.pending b).mpr (.inl ⟨hW, hne⟩))
  refine ⟨?_, h.seeded.trans hs.mono, ?_, ?_, ?_⟩
  · intro b hb
    rcases (hs.pending b).mp hb with ⟨hW, _⟩ | ⟨hE, _⟩
    · exact hs.mono (h.pending hW)
    · exact hE
  · exact hs.sound _ (closedUnder_derives R init) h.sound
  · intro b hb hn c hc
    obtain ⟨hE, hba⟩ := hdone b hb hn
    by_cases hW : b ∈ W
    · exact hs.one c (hba hW ▸ hc)
    · exact hs.mono (h.one b hE hW c hc)
  · intro b hb hn d hd hnd c hc
    obtain ⟨hE, hba⟩ := hdone b hb hn
    obtain ⟨hE', hda⟩ := hdone d hd hnd
    by_cases hW : b ∈ W
    · exact hs.left d hE' c (hba hW ▸ hc)
    · by_cases hW' : d ∈ W
      · exact hs.right b hE c (hda hW' ▸ hc)
      · exact hs.mono (h.two b hE hW d hE' hW' c hc)

theorem Settled.eq_derives {R : Rules α} {init E : Set α} (h : Settled R init E ∅) :
    E = {a | Derives R init a} := by
  apply Set.Subset.antisymm h.sound
  intro a ha
  exact ha.mem h.seeded ⟨fun hb hr => h.one _ hb (Set.notMem_empty _) _ hr,
    fun hb hd hr => h.two _ hb (Set.notMem_empty _) _ hd (Set.notMem_empty _) _ hr⟩

/-- Facts missing from the finite universe `U`, then the number of pending facts. -/
noncomputable def rank (U E W : Set α) : ℕ ×ₗ ℕ := toLex ((U \ E).ncard, W.ncard)

theorem rank_lt {R : Rules α} {U E W E' W' : Set α} {a : α} (hU : U.Finite) (hE : E' ⊆ U)
    (hW : W ⊆ E) (ha : a ∈ W) (hs : Advances R E W a E' W') : rank U E' W' < rank U E W := by
  have hfin : W.Finite := hU.subset (hW.trans (hs.mono.trans hE))
  by_cases heq : E' ⊆ E
  · have hEE : E' = E := heq.antisymm hs.mono
    have hWW : W' = W \ {a} := by
      ext b
      rw [hs.pending b]
      constructor
      · rintro (hb | ⟨hb, hn⟩)
        · exact hb
        · exact absurd (heq hb) hn
      · exact Or.inl
    rw [rank, rank, hEE, hWW]
    exact Prod.Lex.toLex_lt_toLex.mpr (.inr ⟨rfl, Set.ncard_sdiff_singleton_lt_of_mem ha hfin⟩)
  · obtain ⟨b, hb, hn⟩ := Set.not_subset.mp heq
    have hss : U \ E' ⊂ U \ E :=
      ⟨Set.sdiff_subset_sdiff_right hs.mono, fun hsub => (hsub ⟨hE hb, hn⟩).2 hb⟩
    exact Prod.Lex.toLex_lt_toLex.mpr (.inl (Set.ncard_lt_ncard hss (hU.subset Set.sdiff_subset)))

/-- A transition system whose every step is one advance of the saturation of
its known facts, on the states that satisfy `I`. -/
structure Saturates {σ : Type*} (R : Rules α) (known pending : σ → Set α) (I : σ → Prop)
    (step : σ → σ → Prop) : Prop where
  keeps : ∀ {s t}, I s → step s t → I t
  advances : ∀ {s t}, I s → step s t →
    ∃ a ∈ pending s, Advances R (known s) (pending s) a (known t) (pending t)

section

variable {σ : Type*} {R : Rules α} {known pending : σ → Set α} {I : σ → Prop} {step : σ → σ → Prop}
  {start : Set α}

theorem Saturates.settled (h : Saturates R known pending I step) {s t : σ} (hI : I s)
    (hs : Settled R start (known s) (pending s)) (hrun : Relation.ReflTransGen step s t) :
    I t ∧ Settled R start (known t) (pending t) := by
  induction hrun with
  | refl => exact ⟨hI, hs⟩
  | tail _ hstep ih =>
      obtain ⟨_, _, hadv⟩ := h.advances ih.1 hstep
      exact ⟨h.keeps ih.1 hstep, ih.2.advances hadv⟩

theorem Saturates.least (h : Saturates R known pending I step) {s t : σ} (hI : I s)
    (hs : Settled R start (known s) (pending s)) (hrun : Relation.ReflTransGen step s t)
    (hend : pending t = ∅) : known t = {a | Derives R start a} := by
  have ht := (h.settled hI hs hrun).2
  rw [hend] at ht
  exact ht.eq_derives

/-- Saturation inside a finite closed universe has no infinite run. -/
theorem Saturates.no_infinite_run (h : Saturates R known pending I step) {U : Set α}
    (hfin : U.Finite) (hU : ClosedUnder R U) (hstart : start ⊆ U) {s : σ} (hI : I s)
    (hs : Settled R start (known s) (pending s)) :
    ¬ ∃ run : ℕ → σ, run 0 = s ∧ ∀ n, step (run n) (run (n + 1)) := by
  refine Loops.no_infinite_run_of_lt (I := fun s => I s ∧ Settled R start (known s) (pending s))
    (m := fun s => rank U (known s) (pending s)) (fun s t hst hstep => ?_) ⟨hI, hs⟩
  have ht := h.settled hst.1 hst.2 (.single hstep)
  obtain ⟨a, ha, hadv⟩ := h.advances hst.1 hstep
  exact ⟨ht, rank_lt hfin (fun b hb => (ht.2.sound b hb).mem hstart hU) hst.2.pending ha hadv⟩

end

end SVF.Util.Saturation
