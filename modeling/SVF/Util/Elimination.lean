import Mathlib.Data.Set.BooleanAlgebra
import Mathlib.Order.CompletePartialOrder

namespace SVF.Util.Elimination

variable {V L : Type*}

section

inductive Path (E : V → List L → V → Prop) : V → List L → V → Prop
  | nil (a : V) : Path E a [] a
  | cons {a b c : V} {u w : List L} (edge : E a u c) (rest : Path E c w b) : Path E a (u ++ w) b

inductive Through (E : V → List L → V → Prop) (R : Set V) : V → List L → V → Prop
  | edge {a b : V} {w : List L} (edge : E a w b) : Through E R a w b
  | cons {a b c : V} {u w : List L} (edge : E a u c) (inner : c ∈ R) (rest : Through E R c w b) :
      Through E R a (u ++ w) b

variable {E : V → List L → V → Prop} {R R' P : Set V} {a b c n : V} {u v w : List L}

theorem Path.append (h : Path E a u c) (h' : Path E c w b) : Path E a (u ++ w) b := by
  induction h with
  | nil a => exact h'
  | cons edge rest ih =>
      rw [List.append_assoc]
      exact .cons edge (ih h')

theorem Through.trans (h : Through E R a u c) (hc : c ∈ R) (h' : Through E R c w b) :
    Through E R a (u ++ w) b := by
  induction h with
  | edge edge => exact .cons edge hc h'
  | cons edge inner rest ih =>
      rw [List.append_assoc]
      exact .cons edge inner (ih hc h')

theorem Through.mono (hsub : R ⊆ R') (h : Through E R a w b) : Through E R' a w b := by
  induction h with
  | edge edge => exact .edge edge
  | cons edge inner rest ih => exact .cons edge (hsub inner) ih

theorem Through.path (h : Through E R a w b) : Path E a w b := by
  induction h with
  | @edge a b w edge =>
      have hpath := Path.cons edge (.nil b)
      rwa [List.append_nil] at hpath
  | cons edge inner rest ih => exact .cons edge ih

theorem through_insert (hquiet : ∀ w, Through E R n w n → w = []) :
    Through E (insert n R) a w b ↔
      Through E R a w b ∨ ∃ u v, w = u ++ v ∧ Through E R a u n ∧ Through E R n v b := by
  constructor
  · intro h
    induction h with
    | edge edge => exact .inl (.edge edge)
    | @cons a b c u w edge inner rest ih =>
        rcases Set.mem_insert_iff.mp inner with rfl | inner
        · right
          rcases ih with ih | ⟨x, v, hw, hx, hv⟩
          · exact ⟨u, w, rfl, .edge edge, ih⟩
          · rw [hquiet x hx, List.nil_append] at hw
            subst hw
            exact ⟨u, w, rfl, .edge edge, hv⟩
        · rcases ih with ih | ⟨x, v, hw, hx, hv⟩
          · exact .inl (.cons edge inner ih)
          · subst hw
            exact .inr ⟨u ++ x, v, (List.append_assoc u x v).symm, .cons edge inner hx, hv⟩
  · rintro (h | ⟨u, v, rfl, hu, hv⟩)
    · exact h.mono (Set.subset_insert n R)
    · have hsub := Set.subset_insert n R
      exact (hu.mono hsub).trans (Set.mem_insert n R) (hv.mono hsub)

end

section

/-- The edges that eliminating the nodes of `R` leaves: the stretches through them.
A stretch that meets a node of `P` does not come back to the node it has left. -/
def Contracted (E : V → List L → V → Prop) (R P : Set V) (a : V) (w : List L) (b : V) : Prop :=
  a ∉ R ∧ b ∉ R ∧ Through E R a w b ∧ (a = b → Through E (R \ P) a w b)

def spliced (E : V → List L → V → Prop) (n a : V) (w : List L) (b : V) : Prop :=
  a ≠ n ∧ b ≠ n ∧ (E a w b ∨ ∃ u v, w = u ++ v ∧ E a u n ∧ E n v b)

/-- The same, but for edges from a node to itself. -/
def bypassed (E : V → List L → V → Prop) (n a : V) (w : List L) (b : V) : Prop :=
  a ≠ n ∧ b ≠ n ∧ (E a w b ∨ a ≠ b ∧ ∃ u v, w = u ++ v ∧ E a u n ∧ E n v b)

variable {E : V → List L → V → Prop} {R P : Set V} {a b n : V} {w : List L}

theorem contracted_empty : Contracted E ∅ P = E := by
  funext a w b
  rw [Contracted]
  apply propext
  constructor
  · rintro ⟨-, -, h, -⟩
    cases h with
    | edge edge => exact edge
    | cons edge inner rest => exact inner.elim
  · exact fun edge => ⟨id, id, .edge edge, fun _ => .edge edge⟩

theorem contracted_of_ne (hab : a ≠ b) :
    Contracted E R P a w b ↔ a ∉ R ∧ b ∉ R ∧ Through E R a w b := by
  rw [Contracted, and_iff_left fun heq => absurd heq hab]

theorem contracted_of_disjoint (hdis : Disjoint R P) :
    Contracted E R P a w b ↔ a ∉ R ∧ b ∉ R ∧ Through E R a w b := by
  rw [Contracted, hdis.sdiff_eq_left, and_iff_left_of_imp fun h _ => h]

theorem not_mem_insert (R : Set V) (a n : V) : a ∉ insert n R ↔ a ≠ n ∧ a ∉ R := by
  rw [Set.mem_insert_iff, not_or]

theorem contracted_insert_bypassed (hn : n ∉ R) (hP : n ∈ P)
    (hquiet : ∀ w, Through E R n w n → w = []) :
    Contracted E (insert n R) P = bypassed (Contracted E R P) n := by
  funext a w b
  apply propext
  by_cases hab : a = b
  · subst hab
    have hdiff : insert n R \ P = R \ P := Set.insert_sdiff_of_mem R hP
    rw [bypassed, Contracted, hdiff, not_mem_insert]
    constructor
    · rintro ⟨⟨hne, ha⟩, -, -, h⟩
      have hstay := h rfl
      exact ⟨hne, hne, .inl ⟨ha, ha, hstay.mono Set.sdiff_subset, fun _ => hstay⟩⟩
    · rintro ⟨hne, -, ⟨ha, -, h, hstay⟩ | ⟨hself, -⟩⟩
      · exact ⟨⟨hne, ha⟩, ⟨hne, ha⟩, h.mono (Set.subset_insert n R), hstay⟩
      · exact absurd rfl hself
  · rw [contracted_of_ne hab, through_insert hquiet, bypassed, contracted_of_ne hab,
      not_mem_insert, not_mem_insert]
    constructor
    · rintro ⟨⟨hna, ha⟩, ⟨hnb, hb⟩, h | ⟨u, v, rfl, hu, hv⟩⟩
      · exact ⟨hna, hnb, .inl ⟨ha, hb, h⟩⟩
      · refine ⟨hna, hnb, .inr ⟨hab, u, v, rfl, ?_, ?_⟩⟩
        · exact (contracted_of_ne hna).mpr ⟨ha, hn, hu⟩
        · exact (contracted_of_ne hnb.symm).mpr ⟨hn, hb, hv⟩
    · rintro ⟨hna, hnb, ⟨ha, hb, h⟩ | ⟨-, u, v, rfl, hu, hv⟩⟩
      · exact ⟨⟨hna, ha⟩, ⟨hnb, hb⟩, .inl h⟩
      · exact ⟨⟨hna, hu.1⟩, ⟨hnb, hv.2.1⟩, .inr ⟨u, v, rfl, hu.2.2.1, hv.2.2.1⟩⟩

theorem contracted_insert_spliced (hn : n ∉ R) (hP : n ∉ P) (hdis : Disjoint R P)
    (hquiet : ∀ w, Through E R n w n → w = []) :
    Contracted E (insert n R) P = spliced (Contracted E R P) n := by
  have hdis' : Disjoint (insert n R) P := Set.disjoint_insert_left.mpr ⟨hP, hdis⟩
  funext a w b
  apply propext
  rw [contracted_of_disjoint hdis', through_insert hquiet, spliced, not_mem_insert, not_mem_insert,
    contracted_of_disjoint hdis]
  constructor
  · rintro ⟨⟨hna, ha⟩, ⟨hnb, hb⟩, h | ⟨u, v, rfl, hu, hv⟩⟩
    · exact ⟨hna, hnb, .inl ⟨ha, hb, h⟩⟩
    · refine ⟨hna, hnb, .inr ⟨u, v, rfl, ?_, ?_⟩⟩
      · exact (contracted_of_disjoint hdis).mpr ⟨ha, hn, hu⟩
      · exact (contracted_of_disjoint hdis).mpr ⟨hn, hb, hv⟩
  · rintro ⟨hna, hnb, ⟨ha, hb, h⟩ | ⟨u, v, rfl, hu, hv⟩⟩
    · exact ⟨⟨hna, ha⟩, ⟨hnb, hb⟩, .inl h⟩
    · exact ⟨⟨hna, hu.1⟩, ⟨hnb, hv.2.1⟩, .inr ⟨u, v, rfl, hu.2.2.1, hv.2.2.1⟩⟩

theorem Path.of_contracted (h : Path (Contracted E R P) a w b) : Path E a w b := by
  induction h with
  | nil a => exact .nil a
  | cons edge rest ih => exact edge.2.2.1.path.append ih

/-- What leaves a node and reaches another one still does so, maybe with another word:
the returning stretches are left out. -/
theorem Path.contracted (h : Path E a w b) (ha : a ∉ R) (hb : b ∉ R) :
    ∃ w', Path (Contracted E R P) a w' b := by
  have hgo : ∀ s v c, s ∉ R → c ∉ R → Through E R s v c → (∃ w', Path (Contracted E R P) c w' b) →
      ∃ w', Path (Contracted E R P) s w' b := by
    intro s v c hs hc hthrough hrest
    by_cases hsc : s = c
    · rw [hsc]
      exact hrest
    · obtain ⟨w', hw'⟩ := hrest
      exact ⟨v ++ w', .cons ((contracted_of_ne hsc).mpr ⟨hs, hc, hthrough⟩) hw'⟩
  have hboth : (a ∉ R → ∃ w', Path (Contracted E R P) a w' b) ∧
      (a ∈ R → ∀ s v, s ∉ R → Through E R s v a → ∃ w', Path (Contracted E R P) s w' b) := by
    clear ha
    induction h with
    | nil a => exact ⟨fun _ => ⟨[], .nil a⟩, fun hmem => absurd hmem hb⟩
    | @cons a b c u w edge rest ih =>
        obtain ⟨hout, hin⟩ := ih hb hgo
        constructor
        · intro ha
          by_cases hc : c ∈ R
          · exact hin hc a u ha (.edge edge)
          · exact hgo a u c ha hc (.edge edge) (hout hc)
        · intro ha s v hs hthrough
          by_cases hc : c ∈ R
          · exact hin hc s (v ++ u) hs (hthrough.trans ha (.edge edge))
          · exact hgo s (v ++ u) c hs hc (hthrough.trans ha (.edge edge)) (hout hc)
  exact hboth.1 ha

end

end SVF.Util.Elimination
