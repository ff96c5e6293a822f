import Mathlib.Data.List.Basic

namespace SVF.Util.Representatives

variable {α : Type*} [DecidableEq α]

/-- A map to representatives, and the members that each representative records.
A representative counts as a member of its own class whether it is recorded or not. -/
structure Inverse (rep : α → α) (subs : α → List α) : Prop where
  idem : ∀ n, rep (rep n) = rep n
  mem : ∀ e, rep e = e → ∀ m, m ∈ (subs e).insert e ↔ rep m = e
  other : ∀ n, rep n ≠ n → subs n = []

def moveRep (rep : α → α) (subs : α → List α) (x r : α) : α → α :=
  fun m => if m ∈ (subs x).insert x then r else rep m

def moveSubs (subs : α → List α) (x r : α) : α → List α :=
  Function.update (Function.update subs r (subs r ∪ (subs x).insert x)) x []

variable {rep : α → α} {subs : α → List α} {x r : α}

theorem inverse_id : Inverse (fun n : α => n) (fun _ => []) where
  idem _ := rfl
  mem e _ m := by simp
  other n hn := absurd rfl hn

theorem moveSubs_self (subs : α → List α) (x r : α) : moveSubs subs x r x = [] := by
  rw [moveSubs, Function.update_self]

theorem moveSubs_of_ne (subs : α → List α) {x r n : α} (hn : n ≠ x) (hr : n ≠ r) :
    moveSubs subs x r n = subs n := by
  rw [moveSubs, Function.update_of_ne hn, Function.update_of_ne hr]

theorem mem_moveSubs_target (subs : α → List α) {x r : α} (h : r ≠ x) (m : α) :
    m ∈ (moveSubs subs x r r).insert r ↔ m ∈ (subs r).insert r ∨ m ∈ (subs x).insert x := by
  rw [moveSubs, Function.update_of_ne h, Function.update_self, List.mem_insert_iff,
    List.mem_union_iff, List.mem_insert_iff (l := subs r), or_assoc]

section

variable (h : Inverse rep subs) (hr : rep r = r)
include h

theorem moveRep_of_rep (hx : rep x = x) (r m : α) :
    moveRep rep subs x r m = if rep m = x then r else rep m := by
  rw [moveRep]
  simp only [h.mem x hx m]

theorem moveRep_of_not_rep (hx : rep x ≠ x) (r m : α) :
    moveRep rep subs x r m = if m = x then r else rep m := by
  rw [moveRep, h.other x hx]
  simp

include hr

theorem inverse_move_rep (hx : rep x = x) (hne : r ≠ x) :
    Inverse (moveRep rep subs x r) (moveSubs subs x r) := by
  have hrep := moveRep_of_rep h hx r
  refine ⟨fun n => ?_, fun e he m => ?_, fun n hn => ?_⟩
  · rw [hrep n]
    by_cases hn : rep n = x
    · rw [if_pos hn, hrep, hr, if_neg hne]
    · rw [if_neg hn, hrep, h.idem, if_neg hn]
  · rw [hrep] at he ⊢
    have hex : e ≠ x := by
      rintro rfl
      rw [if_pos hx] at he
      exact hne he
    by_cases her : e = r
    · subst her
      rw [mem_moveSubs_target subs hne, h.mem e hr, h.mem x hx]
      by_cases hm : rep m = x
      · simp [hm]
      · simp [hm]
    · have hee : rep e = e := by
        by_cases hxe : rep e = x
        · rw [if_pos hxe] at he
          exact absurd he.symm her
        · rwa [if_neg hxe] at he
      rw [moveSubs_of_ne subs hex her, h.mem e hee]
      by_cases hm : rep m = x
      · rw [if_pos hm, hm]
        exact iff_of_false (Ne.symm hex) (Ne.symm her)
      · rw [if_neg hm]
  · rw [hrep] at hn
    by_cases hnx : n = x
    · rw [hnx, moveSubs_self]
    · by_cases hnr : n = r
      · rw [hnr, hr, if_neg hne] at hn
        exact absurd rfl hn
      · rw [moveSubs_of_ne subs hnx hnr]
        apply h.other
        intro hnn
        rw [hnn, if_neg hnx] at hn
        exact hn rfl

/-- A move inside a class forgets nobody but the members of a representative
that is moved to itself. -/
theorem inverse_move_same (hx : rep x = r) (hself : x = r → ∀ m, rep m = x → m = x) :
    Inverse (moveRep rep subs x r) (moveSubs subs x r) := by
  have hrep : moveRep rep subs x r = rep := by
    funext m
    by_cases hxr : x = r
    · rw [moveRep_of_rep h (hx.trans hxr.symm)]
      by_cases hm : rep m = x
      · rw [if_pos hm, hm, hxr]
      · rw [if_neg hm]
    · rw [moveRep_of_not_rep h (fun hxx => hxr (hxx.symm.trans hx))]
      by_cases hm : m = x
      · rw [if_pos hm, hm, hx]
      · rw [if_neg hm]
  rw [hrep]
  refine ⟨h.idem, fun e he m => ?_, fun n hn => ?_⟩
  · by_cases hex : e = x
    · subst hex
      have her : e = r := he.symm.trans hx
      rw [moveSubs_self, List.mem_insert_iff]
      constructor
      · rintro (rfl | hm)
        · exact he
        · exact absurd hm List.not_mem_nil
      · exact fun hm => .inl (hself her m hm)
    · by_cases her : e = r
      · subst her
        rw [mem_moveSubs_target subs hex, h.mem e hr]
        have hxe : rep x ≠ x := fun hxx => hex (hx.symm.trans hxx)
        rw [h.other x hxe]
        constructor
        · rintro (hm | hm)
          · exact hm
          · rw [List.insert_nil, List.mem_singleton] at hm
            rw [hm, hx]
        · exact .inl
      · rw [moveSubs_of_ne subs hex her, h.mem e he]
  · by_cases hnx : n = x
    · rw [hnx, moveSubs_self]
    · have hnr : n ≠ r := fun hnr => hn (hnr ▸ hr)
      rw [moveSubs_of_ne subs hnx hnr]
      exact h.other n hn

/-- When moving the members of `x` to the representative `r` keeps the two maps
inverse to each other. -/
theorem inverse_move_iff : Inverse (moveRep rep subs x r) (moveSubs subs x r) ↔
    (rep x = x → r = x → ∀ m, rep m = x → m = x) ∧ (rep x ≠ x → rep x = r) := by
  constructor
  · intro h'
    refine ⟨fun hx hrx m hm => ?_, fun hx => ?_⟩
    · subst hrx
      have hfix : moveRep rep subs r r r = r := by
        rw [moveRep_of_rep h hx, if_pos hx]
      have hmem := (h'.mem r hfix m).mpr (by rw [moveRep_of_rep h hx, if_pos hm])
      rw [moveSubs_self, List.insert_nil, List.mem_singleton] at hmem
      exact hmem
    · by_contra hne
      -- The class that `x` leaves still records it.
      have hmove := moveRep_of_not_rep h hx r
      have hfix : moveRep rep subs x r (rep x) = rep x := by
        rw [hmove, if_neg hx, h.idem]
      have hmem : x ∈ (subs (rep x)).insert (rep x) := (h.mem (rep x) (h.idem x) x).mpr rfl
      rw [← moveSubs_of_ne subs hx hne, h'.mem (rep x) hfix, hmove, if_pos rfl] at hmem
      exact hne hmem.symm
  · rintro ⟨hself, hother⟩
    by_cases hx : rep x = x
    · by_cases hrx : r = x
      · exact inverse_move_same h hr (hx.trans hrx.symm) fun _ => hself hx hrx
      · exact inverse_move_rep h hr hx hrx
    · exact inverse_move_same h hr (hother hx) fun hxr => absurd ((hother hx).trans hxr.symm) hx

end

end SVF.Util.Representatives
