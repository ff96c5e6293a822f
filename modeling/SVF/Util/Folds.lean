import Mathlib.Data.List.Forall2

namespace SVF.Util.Folds

variable {σ ι : Type*} {f : σ → ι → σ} {l : List ι}

theorem foldl_rel (r : σ → σ → Prop) [Std.Refl r] [IsTrans σ r]
    (hf : ∀ a ∈ l, ∀ s, r s (f s a)) (s : σ) : r s (l.foldl f s) := by
  induction l generalizing s with
  | nil => exact refl_of r s
  | cons a l ih =>
      exact trans_of r (hf a (by simp) s) (ih (fun b hb => hf b (List.mem_cons_of_mem _ hb)) _)

/-- What one element of a loop establishes holds at its end, when every
iteration keeps it. The state the element meets has only grown from the start. -/
theorem foldl_covers (r : σ → σ → Prop) [Std.Refl r] [IsTrans σ r]
    (hf : ∀ a ∈ l, ∀ s, r s (f s a)) {Q : σ → Prop} (hQ : ∀ s t, r s t → Q s → Q t)
    {a : ι} (ha : a ∈ l) {s : σ} (h : ∀ t, r s t → Q (f t a)) : Q (l.foldl f s) := by
  induction l generalizing s with
  | nil => simp at ha
  | cons b l ih =>
      have hl : ∀ c ∈ l, ∀ t, r t (f t c) := fun c hc => hf c (List.mem_cons_of_mem _ hc)
      rcases List.mem_cons.mp ha with rfl | hm
      · exact hQ _ _ (foldl_rel r hl _) (h s (refl_of r s))
      · exact ih hl hm (fun t ht => h t (trans_of r (hf b (by simp) s) ht))

theorem foldl_invariant {I : σ → Prop} (hf : ∀ a ∈ l, ∀ s, I s → I (f s a)) {s : σ} (h : I s) :
    I (l.foldl f s) := by
  induction l generalizing s with
  | nil => exact h
  | cons a l ih =>
      exact ih (fun b hb => hf b (List.mem_cons_of_mem _ hb)) (hf a (by simp) s h)

theorem foldl_simulates {τ : Type*} {R : σ → τ → Prop} {f : σ → ι → σ} {f' : τ → ι → τ}
    (hf : ∀ a ∈ l, ∀ s s', R s s' → R (f s a) (f' s' a)) {s : σ} {s' : τ} (h : R s s') :
    R (l.foldl f s) (l.foldl f' s') := by
  induction l generalizing s s' with
  | nil => exact h
  | cons a l ih =>
      exact ih (fun b hb => hf b (List.mem_cons_of_mem _ hb)) (hf a List.mem_cons_self s s' h)

/-- A loop that only collects: what it holds at the end comes from the start or from an element. -/
theorem foldl_collects {β : Type*} {M : β → σ → Prop} {P : ι → β → Prop}
    (hf : ∀ a ∈ l, ∀ s x, M x (f s a) ↔ M x s ∨ P a x) (s : σ) (x : β) :
    M x (l.foldl f s) ↔ M x s ∨ ∃ a ∈ l, P a x := by
  induction l generalizing s with
  | nil => simp
  | cons a l ih =>
      rw [List.foldl_cons, ih (fun b hb => hf b (List.mem_cons_of_mem a hb)), hf a List.mem_cons_self,
        List.exists_mem_cons_iff, or_assoc]

/-- A loop that may fail: `view` is the part of the state that the relation reads. -/
theorem foldlM_rel {τ : Type*} (r : τ → τ → Prop) [Std.Refl r] [IsTrans τ r] (view : σ → τ)
    {f : σ → ι → Option σ} (hf : ∀ a ∈ l, ∀ s t, f s a = some t → r (view s) (view t)) {s t : σ}
    (h : l.foldlM f s = some t) : r (view s) (view t) := by
  induction l generalizing s with
  | nil =>
      cases h
      exact refl_of r _
  | cons a l ih =>
      obtain ⟨u, hu, h⟩ := Option.bind_eq_some_iff.mp h
      exact trans_of r (hf a (by simp) s u hu)
        (ih (fun b hb => hf b (List.mem_cons_of_mem _ hb)) h)

theorem foldlM_eq_some {f : σ → ι → Option σ} (f' : σ → ι → σ)
    (hf : ∀ a ∈ l, ∀ s, f s a = some (f' s a)) (s : σ) : l.foldlM f s = some (l.foldl f' s) := by
  induction l generalizing s with
  | nil => rfl
  | cons a l ih =>
      rw [List.foldlM_cons, hf a List.mem_cons_self]
      exact ih (fun b hb => hf b (List.mem_cons_of_mem a hb)) _

/-- The same for a loop that may fail, on states with an invariant. -/
theorem foldlM_collects_of {β : Type*} {I : σ → Prop} {mem : β → σ → Prop} {P : ι → β → Prop}
    {f : σ → ι → Option σ}
    (hf : ∀ a ∈ l, ∀ s, I s → ∃ t, f s a = some t ∧ I t ∧ ∀ x, mem x t ↔ mem x s ∨ P a x) {s : σ} (hs : I s) :
    ∃ t, l.foldlM f s = some t ∧ I t ∧ ∀ x, mem x t ↔ mem x s ∨ ∃ a ∈ l, P a x := by
  induction l generalizing s with
  | nil => exact ⟨s, rfl, hs, by simp⟩
  | cons a l ih =>
      obtain ⟨u, hu, hIu, hmem⟩ := hf a List.mem_cons_self s hs
      obtain ⟨t, ht, hIt, hrest⟩ := ih (fun b hb => hf b (List.mem_cons_of_mem a hb)) hIu
      refine ⟨t, by rw [List.foldlM_cons, hu]; exact ht, hIt, ?_⟩
      intro x
      rw [hrest, hmem, List.exists_mem_cons_iff, or_assoc]

theorem foldlM_collects {β : Type*} {mem : β → σ → Prop} {P : ι → β → Prop} {f : σ → ι → Option σ}
    (hf : ∀ a ∈ l, ∀ s, ∃ t, f s a = some t ∧ ∀ x, mem x t ↔ mem x s ∨ P a x) (s : σ) :
    ∃ t, l.foldlM f s = some t ∧ ∀ x, mem x t ↔ mem x s ∨ ∃ a ∈ l, P a x := by
  have hround : ∀ a ∈ l, ∀ s, True → ∃ t, f s a = some t ∧ True ∧ ∀ x, mem x t ↔ mem x s ∨ P a x := by
    intro a ha s _
    obtain ⟨t, ht, hmem⟩ := hf a ha s
    exact ⟨t, ht, trivial, hmem⟩
  obtain ⟨t, ht, -, hmem⟩ := foldlM_collects_of hround (s := s) trivial
  exact ⟨t, ht, hmem⟩

theorem foldlM_invariant {I : σ → Prop} {f : σ → ι → Option σ}
    (hf : ∀ a ∈ l, ∀ s t, I s → f s a = some t → I t) {s t : σ} (hs : I s)
    (h : l.foldlM f s = some t) : I t := by
  induction l generalizing s with
  | nil => exact Option.some.inj h ▸ hs
  | cons a l ih =>
      obtain ⟨u, hu, h⟩ := Option.bind_eq_some_iff.mp h
      exact ih (fun b hb => hf b (List.mem_cons_of_mem a hb)) (hf a List.mem_cons_self s u hs hu) h

theorem foldlM_of_mem {I : σ → Prop} {f : σ → ι → Option σ}
    (hf : ∀ a ∈ l, ∀ s t, I s → f s a = some t → I t) {s t : σ} (hs : I s)
    (h : l.foldlM f s = some t) {a : ι} (ha : a ∈ l) : ∃ u v, I u ∧ f u a = some v := by
  induction l generalizing s with
  | nil => exact absurd ha List.not_mem_nil
  | cons b l ih =>
      obtain ⟨u, hu, h⟩ := Option.bind_eq_some_iff.mp h
      rcases List.mem_cons.mp ha with rfl | ha
      · exact ⟨s, u, hs, hu⟩
      · exact ih (fun c hc => hf c (List.mem_cons_of_mem b hc)) (hf b List.mem_cons_self s u hs hu) h ha

theorem foldlM_simulates {τ κ : Type*} {R : σ → τ → Prop} {P : ι → κ → Prop}
    {f : σ → ι → Option σ} {f' : τ → κ → Option τ}
    (hf : ∀ a b s s' t, P a b → R s s' → f s a = some t → ∃ t', f' s' b = some t' ∧ R t t')
    {l' : List κ} (hl : List.Forall₂ P l l') {s t : σ} {s' : τ} (hs : R s s')
    (h : l.foldlM f s = some t) : ∃ t', l'.foldlM f' s' = some t' ∧ R t t' := by
  induction hl generalizing s s' with
  | nil => exact ⟨s', rfl, Option.some.inj h ▸ hs⟩
  | cons hab _ ih =>
      obtain ⟨u, hu, h⟩ := Option.bind_eq_some_iff.mp h
      obtain ⟨u', hu', hR⟩ := hf _ _ _ _ _ hab hs hu
      obtain ⟨t', ht', hR'⟩ := ih hR h
      refine ⟨t', ?_, hR'⟩
      rw [List.foldlM_cons, hu']
      exact ht'

theorem mapM_eq_some_map {κ : Type*} {f : ι → Option κ} {g : ι → κ} (hf : ∀ a ∈ l, f a = some (g a)) :
    l.mapM f = some (l.map g) := by
  induction l with
  | nil => rfl
  | cons a l ih =>
      rw [List.mapM_cons, hf a List.mem_cons_self, ih fun b hb => hf b (List.mem_cons_of_mem a hb)]
      rfl

theorem exists_mapM {κ : Type*} {f : ι → Option κ} (hf : ∀ a ∈ l, ∃ b, f a = some b) :
    ∃ bs, l.mapM f = some bs ∧ List.Forall₂ (fun a b => f a = some b) l bs := by
  induction l with
  | nil => exact ⟨[], rfl, .nil⟩
  | cons a l ih =>
      obtain ⟨b, hb⟩ := hf a List.mem_cons_self
      obtain ⟨bs, hbs, hall⟩ := ih fun c hc => hf c (List.mem_cons_of_mem a hc)
      refine ⟨b :: bs, ?_, .cons hb hall⟩
      rw [List.mapM_cons, hb, hbs]
      rfl

end SVF.Util.Folds
