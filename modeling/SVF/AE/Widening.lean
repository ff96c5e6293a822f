import SVF.AE.States

namespace SVF.AE.Widening

open Intervals States Util.DefaultMaps

def Covers (r v : AbstractValue) : Prop :=
  v.interval.concretize ⊆ r.interval.concretize ∧ ∀ a ∈ v.addrs, a ∈ r.addrs

/-- Widening `v` by `other` loses nothing: an integer of `other` meets an
interval to widen, and `other` brings no new address. -/
def Widenable (v other : AbstractValue) : Prop :=
  (other.interval.concretize.Nonempty → v.isInterval = true) ∧ ∀ a ∈ other.addrs, a ∈ v.addrs

theorem concretize_eq_empty {v : AbstractValue} (h : v.isInterval = false) :
    v.interval.concretize = ∅ := by
  have hbot : v.interval = .bottom := (isBottom_iff _).mp (by simpa [AbstractValue.isInterval] using h)
  rw [hbot, concretize_bottom]

/-- What the loop of `widening` leaves under a key, present or not. -/
theorem get_widening (m other : AbsValMap) (k : NodeID) :
    (AbsValMap.widening m other).get k =
      if (m.get k).isInterval && (other.get k).isInterval then (m.get k).widen_with (other.get k)
      else m.get k := by
  rw [AbsValMap.widening, get_mapWithKey]
  by_cases hm : k ∈ m.keys
  · by_cases ho : k ∈ other.keys
    · simp [hm, ho]
    · simp [hm, ho, other.get_absent k ho, AbstractValue.isInterval, default]
  · simp [hm, m.get_absent k hm, AbstractValue.isInterval, default]

theorem addrs_widening (m other : AbsValMap) (k : NodeID) :
    ((AbsValMap.widening m other).get k).addrs = (m.get k).addrs := by
  rw [get_widening]
  split <;> rfl

theorem widening_covers_left (m other : AbsValMap) (k : NodeID) :
    Covers ((AbsValMap.widening m other).get k) (m.get k) := by
  refine ⟨?_, fun a ha => by rwa [addrs_widening]⟩
  rw [get_widening]
  split
  · exact concretize_widen_left _ _
  · exact subset_rfl

theorem widening_covers_right_iff (m other : AbsValMap) (k : NodeID) :
    Covers ((AbsValMap.widening m other).get k) (other.get k) ↔ Widenable (m.get k) (other.get k) := by
  rw [Covers, addrs_widening, get_widening, Widenable]
  refine and_congr_left fun _ => ?_
  cases hm : (m.get k).isInterval with
  | false =>
      simp only [Bool.false_and, Bool.false_eq_true, if_false, imp_false, concretize_eq_empty hm]
      rw [Set.subset_empty_iff, Set.not_nonempty_iff_eq_empty]
  | true =>
      cases ho : (other.get k).isInterval with
      | false => simp [concretize_eq_empty ho]
      | true =>
          simp only [Bool.and_true, if_true, implies_true, iff_true]
          exact concretize_widen_right _ _

/-- Widening over-approximates both states exactly when no key of the second
state has an integer where the first has no interval, or a new address. -/
theorem widening_covers_iff (S T : AbstractState) :
    (∀ k, (Covers ((S.widening T).varToAbsVal.get k) (S.varToAbsVal.get k) ∧
          Covers ((S.widening T).varToAbsVal.get k) (T.varToAbsVal.get k)) ∧
        Covers ((S.widening T).addrToAbsVal.get k) (S.addrToAbsVal.get k) ∧
          Covers ((S.widening T).addrToAbsVal.get k) (T.addrToAbsVal.get k)) ↔
      ∀ k, Widenable (S.varToAbsVal.get k) (T.varToAbsVal.get k) ∧
        Widenable (S.addrToAbsVal.get k) (T.addrToAbsVal.get k) := by
  refine forall_congr' fun k => ?_
  simp only [AbstractState.widening, widening_covers_left, widening_covers_right_iff, true_and]

/-- An object first written in the loop is lost: the first state has no entry
for it. -/
theorem widening_not_covers :
    ¬ ∀ S T : AbstractState, ∀ k,
      (Covers ((S.widening T).varToAbsVal.get k) (S.varToAbsVal.get k) ∧
          Covers ((S.widening T).varToAbsVal.get k) (T.varToAbsVal.get k)) ∧
        Covers ((S.widening T).addrToAbsVal.get k) (S.addrToAbsVal.get k) ∧
          Covers ((S.widening T).addrToAbsVal.get k) (T.addrToAbsVal.get k) := by
  intro h
  obtain ⟨_, _, hcov, _⟩ := h .empty ⟨.empty, DefaultMap.empty.set 7 ⟨.ofInt 5, []⟩⟩ 7
  have hmem : (5 : ℤ) ∈ (IntervalValue.ofInt 5).concretize := by
    rw [concretize_ofInt]
    exact Set.mem_singleton 5
  have hbot : (5 : ℤ) ∈ IntervalValue.bottom.concretize := hcov hmem
  rw [concretize_bottom] at hbot
  exact hbot

/-- The sibling `joinWith` enters the missing keys and joins the address sets. -/
theorem get_joinWith (m other : AbsValMap) (k : NodeID) :
    (AbsValMap.joinWith m other).get k =
      if k ∈ other.keys then
        if k ∈ m.keys then (m.get k).join_with (other.get k) else other.get k
      else m.get k := by
  rw [AbsValMap.joinWith, get_foldl_local _ _ other.nodup]
  · simp [apply_ite (DefaultMap.get · k), get_modify]
  · intro m key j hj
    split <;> simp [get_modify, get_set, hj]
  · intro m m' key hget hkeys
    simp [hkeys, apply_ite (DefaultMap.get · key), get_modify, hget]

end SVF.AE.Widening
