import Mathlib.Data.List.Basic

namespace SVF.Util.Partitions

variable {α S : Type*} [Membership α S] {pre : List S} {P Q : S → Prop} {c : S} {o b : α}

/-- No set of the list tells the two elements apart. -/
def SameSide (pre : List S) (o b : α) : Prop := ∀ c ∈ pre, o ∈ c ↔ b ∈ c

theorem sameSide_concat : SameSide (pre ++ [c]) o b ↔ SameSide pre o b ∧ (o ∈ c ↔ b ∈ c) := by
  constructor
  · intro h
    exact ⟨fun d hd => h d (List.mem_append_left _ hd), h c (by simp)⟩
  · rintro ⟨h, hc⟩ d hd
    rcases List.mem_append.mp hd with hd | hd
    · exact h d hd
    · rw [List.mem_singleton.mp hd]
      exact hc

/-- The sets with `P` are the classes of elements that the sets of `pre` do not tell apart. -/
structure Atoms (pre : List S) (P : S → Prop) : Prop where
  nonempty : ∀ x, P x → ∃ o, o ∈ x
  cover : ∀ o, (∃ c ∈ pre, o ∈ c) ↔ ∃ x, P x ∧ o ∈ x
  atom : ∀ x, P x → ∀ o ∈ x, ∀ b, b ∈ x ↔ SameSide pre o b

theorem Atoms.same (h : Atoms pre P) {x y : S} (hx : P x) (hy : P y) (ho : o ∈ x) (ho' : o ∈ y) :
    b ∈ x ↔ b ∈ y := by
  rw [h.atom x hx o ho, h.atom y hy o ho']

theorem atoms_nil (h : ∀ x, ¬ P x) : Atoms ([] : List S) P where
  nonempty x hx := absurd hx (h x)
  cover o := by simp [h]
  atom x hx := absurd hx (h x)

/-- Cutting every atom by one more set, and adding what is new of it. -/
theorem Atoms.cut (h : Atoms pre P) (hnonempty : ∀ y, Q y → ∃ o, o ∈ y)
    (hQ : ∀ y, Q y →
      (∃ x, P x ∧ ((∀ o, o ∈ y ↔ o ∈ x ∧ o ∈ c) ∨ (∀ o, o ∈ y ↔ o ∈ x ∧ o ∉ c))) ∨
      ∀ o, o ∈ y ↔ o ∈ c ∧ ∀ x, P x → o ∉ x)
    (hcover : ∀ o, ((∃ x, P x ∧ o ∈ x) ∨ o ∈ c) → ∃ y, Q y ∧ o ∈ y) : Atoms (pre ++ [c]) Q where
  nonempty := hnonempty
  cover o := by
    constructor
    · rintro ⟨d, hd, ho⟩
      rcases List.mem_append.mp hd with hd | hd
      · exact hcover o (.inl ((h.cover o).mp ⟨d, hd, ho⟩))
      · rw [List.mem_singleton.mp hd] at ho
        exact hcover o (.inr ho)
    · rintro ⟨y, hy, ho⟩
      have hold : ∀ x, P x → o ∈ x → ∃ d ∈ pre ++ [c], o ∈ d := by
        intro x hx hox
        obtain ⟨d, hd, hod⟩ := (h.cover o).mpr ⟨x, hx, hox⟩
        exact ⟨d, List.mem_append_left _ hd, hod⟩
      rcases hQ y hy with ⟨x, hx, hin | hout⟩ | hnew
      · exact hold x hx ((hin o).mp ho).1
      · exact hold x hx ((hout o).mp ho).1
      · exact ⟨c, by simp, ((hnew o).mp ho).1⟩
  atom y hy o ho b := by
    rw [sameSide_concat]
    rcases hQ y hy with ⟨x, hx, hin | hout⟩ | hnew
    · obtain ⟨hox, hoc⟩ := (hin o).mp ho
      rw [hin, h.atom x hx o hox]
      simp [hoc]
    · obtain ⟨hox, hoc⟩ := (hout o).mp ho
      rw [hout, h.atom x hx o hox]
      simp [hoc]
    · obtain ⟨hoc, hfresh⟩ := (hnew o).mp ho
      have hno : ∀ d ∈ pre, o ∉ d := by
        intro d hd hod
        obtain ⟨x, hx, hox⟩ := (h.cover o).mp ⟨d, hd, hod⟩
        exact hfresh x hx hox
      rw [hnew]
      constructor
      · rintro ⟨hbc, hb⟩
        refine ⟨fun d hd => iff_of_false (hno d hd) fun hbd => ?_, iff_of_true hoc hbc⟩
        obtain ⟨x, hx, hbx⟩ := (h.cover b).mp ⟨d, hd, hbd⟩
        exact hb x hx hbx
      · rintro ⟨hsame, hbc⟩
        refine ⟨hbc.mp hoc, fun x hx hbx => ?_⟩
        obtain ⟨d, hd, hbd⟩ := (h.cover b).mpr ⟨x, hx, hbx⟩
        exact hno d hd ((hsame d hd).mpr hbd)

theorem Atoms.cut_self (h : Atoms pre P) (hc : P c) : Atoms (pre ++ [c]) P := by
  apply h.cut h.nonempty
  · intro y hy
    left
    refine ⟨y, hy, ?_⟩
    by_cases hmeet : ∃ o, o ∈ y ∧ o ∈ c
    · obtain ⟨o, hoy, hoc⟩ := hmeet
      exact .inl fun b => (and_iff_left_of_imp fun hb => (h.same hy hc hoy hoc).mp hb).symm
    · simp only [not_exists, not_and] at hmeet
      exact .inr fun b => (and_iff_left_of_imp fun hb => hmeet b hb).symm
  · rintro o (hx | hoc)
    · exact hx
    · exact ⟨c, hc, hoc⟩

def Covers (P : S → Prop) (c : S) : Prop := ∀ o ∈ c, ∃ x, P x ∧ o ∈ x ∧ ∀ b ∈ x, b ∈ c

theorem Covers.trans (h : Covers P c) (hPQ : ∀ x, P x → Covers Q x) : Covers Q c := by
  intro o ho
  obtain ⟨x, hx, hox, hsub⟩ := h o ho
  obtain ⟨y, hy, hoy, hyx⟩ := hPQ x hx o hox
  exact ⟨y, hy, hoy, fun b hb => hsub b (hyx b hb)⟩

theorem covers_self (h : P c) : Covers P c := fun _ ho => ⟨c, h, ho, fun _ hb => hb⟩

end SVF.Util.Partitions
