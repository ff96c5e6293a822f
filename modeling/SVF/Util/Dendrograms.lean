import Mathlib.Data.Int.Interval
import Mathlib.Tactic.Linarith

namespace SVF.Util.Dendrograms

/-- The number `e` stands in one of the two columns of the `i`-th row, where rows
are counted from one and the second column follows the first. -/
def EntryOf (n : ℕ) (merge : List ℤ) (i : ℕ) (e : ℤ) : Prop :=
  1 ≤ i ∧ i < n ∧ (merge[i - 1]? = some e ∨ merge[n - 1 + i - 1]? = some e)

/-- The merge matrix of a hierarchical clustering of `n` atoms in the convention of
R. Each row merges two clusters: `-k` is the `k`-th atom, `k` the result of the
`k`-th row, and no cluster is merged twice. -/
structure IsMergeMatrix (n : ℕ) (merge : List ℤ) : Prop where
  length_eq : merge.length = 2 * (n - 1)
  nodup : merge.Nodup
  entry_ne : ∀ {i e}, EntryOf n merge i e → e ≠ 0
  atom_le : ∀ {i e}, EntryOf n merge i e → -(n : ℤ) ≤ e
  earlier : ∀ {i e}, EntryOf n merge i e → e < i

namespace IsMergeMatrix

variable {n : ℕ} {merge : List ℤ} (hm : IsMergeMatrix n merge)

include hm

theorem index_unique {a b : ℕ} {e : ℤ} (ha : merge[a]? = some e) (hb : merge[b]? = some e) : a = b := by
  obtain ⟨hla, hea⟩ := List.getElem?_eq_some_iff.mp ha
  obtain ⟨hlb, heb⟩ := List.getElem?_eq_some_iff.mp hb
  exact (hm.nodup.getElem_inj_iff).mp (hea.trans heb.symm)

theorem entry_unique {i j : ℕ} {e : ℤ} (hi : EntryOf n merge i e) (hj : EntryOf n merge j e) : i = j := by
  obtain ⟨hi, hin, hi'⟩ := hi
  obtain ⟨hj, hjn, hj'⟩ := hj
  rcases hi' with hi' | hi' <;> rcases hj' with hj' | hj'
  all_goals
    have := hm.index_unique hi' hj'
    omega

theorem left_entry {i : ℕ} (hi : 1 ≤ i) (hin : i < n) :
    ∃ e, merge[i - 1]? = some e ∧ EntryOf n merge i e := by
  have hlt : i - 1 < merge.length := by
    rw [hm.length_eq]
    omega
  have hget := List.getElem?_eq_getElem hlt
  exact ⟨_, hget, hi, hin, .inl hget⟩

theorem right_entry {i : ℕ} (hi : 1 ≤ i) (hin : i < n) :
    ∃ e, merge[n - 1 + i - 1]? = some e ∧ EntryOf n merge i e := by
  have hlt : n - 1 + i - 1 < merge.length := by
    rw [hm.length_eq]
    omega
  have hget := List.getElem?_eq_getElem hlt
  exact ⟨_, hget, hi, hin, .inr hget⟩

theorem left_ne_right {i : ℕ} {l r : ℤ} (hi : 1 ≤ i) (hin : i < n) (hl : merge[i - 1]? = some l)
    (hr : merge[n - 1 + i - 1]? = some r) : l ≠ r := by
  rintro rfl
  have := hm.index_unique hl hr
  omega

theorem entry_of_mem {e : ℤ} (he : e ∈ merge) : ∃ i, EntryOf n merge i e := by
  obtain ⟨a, hlt, hget⟩ := List.getElem_of_mem he
  have hsome : merge[a]? = some e := List.getElem?_eq_some_iff.mpr ⟨hlt, hget⟩
  rw [hm.length_eq] at hlt
  by_cases ha : a < n - 1
  · exact ⟨a + 1, by omega, by omega, .inl hsome⟩
  · refine ⟨a - (n - 1) + 1, by omega, by omega, .inr ?_⟩
    have : n - 1 + (a - (n - 1) + 1) - 1 = a := by omega
    rwa [this]

/-- As many different entries as there are atoms and rows before the last one. -/
theorem mem_merge_iff (hn : 2 ≤ n) (e : ℤ) : e ∈ merge ↔ -(n : ℤ) ≤ e ∧ e ≤ n - 2 ∧ e ≠ 0 := by
  have hsub : merge.toFinset ⊆ (Finset.Icc (-(n : ℤ)) (n - 2)).erase 0 := by
    intro e he
    obtain ⟨i, hi⟩ := hm.entry_of_mem (List.mem_toFinset.mp he)
    have hle := hm.atom_le hi
    have hlt := hm.earlier hi
    have := hi.2.1
    rw [Finset.mem_erase, Finset.mem_Icc]
    exact ⟨hm.entry_ne hi, hle, by omega⟩
  have hcard : ((Finset.Icc (-(n : ℤ)) (n - 2)).erase 0).card ≤ merge.toFinset.card := by
    rw [List.toFinset_card_of_nodup hm.nodup, hm.length_eq,
      Finset.card_erase_of_mem (Finset.mem_Icc.mpr ⟨by omega, by omega⟩), Int.card_Icc]
    omega
  rw [← List.mem_toFinset, Finset.eq_of_subset_of_card_le hsub hcard, Finset.mem_erase, Finset.mem_Icc]
  tauto

theorem exists_atom_entry (hn : 2 ≤ n) {k : ℕ} (hk : 1 ≤ k) (hkn : k ≤ n) :
    ∃ i, EntryOf n merge i (-(k : ℤ)) :=
  hm.entry_of_mem ((hm.mem_merge_iff hn _).mpr ⟨by omega, by omega, by omega⟩)

theorem exists_row_entry {k : ℕ} (hk : 1 ≤ k) (hkn : k < n - 1) : ∃ i, k < i ∧ EntryOf n merge i k := by
  obtain ⟨i, hi⟩ := hm.entry_of_mem ((hm.mem_merge_iff (by omega) k).mpr ⟨by omega, by omega, by omega⟩)
  have := hm.earlier hi
  exact ⟨i, by omega, hi⟩

theorem all_rows {P : ℕ → Prop} (hlast : P (n - 1))
    (hdown : ∀ i k : ℕ, P i → 1 ≤ k → EntryOf n merge i k → P k) {k : ℕ} (hk : 1 ≤ k) (hkn : k < n) : P k := by
  induction hd : n - k using Nat.strong_induction_on generalizing k with
  | _ d ih =>
      subst hd
      by_cases hlt : k < n - 1
      · obtain ⟨i, hki, hi⟩ := hm.exists_row_entry hk hlt
        have hPi : P i := ih (n - i) (by omega) (by omega) hi.2.1 rfl
        exact hdown i k hPi hk hi
      · have : k = n - 1 := by omega
        exact this ▸ hlast

end IsMergeMatrix

end SVF.Util.Dendrograms
