import Mathlib.Algebra.GroupWithZero.Nat
import Mathlib.Data.List.Basic
import Mathlib.Data.Nat.Basic

namespace SVF.Util.PackedBits

variable {w : ℕ} [NeZero w]

def bitAt (words : List (BitVec w)) (k : ℕ) : Bool := (words.getD (k / w) 0).getLsbD (k % w)

omit [NeZero w] in
@[simp] theorem bitAt_nil (k : ℕ) : bitAt ([] : List (BitVec w)) k = false := by
  simp [bitAt]

omit [NeZero w] in
theorem bitAt_cons_of_lt {word : BitVec w} {words : List (BitVec w)} {k : ℕ} (h : k < w) :
    bitAt (word :: words) k = word.getLsbD k := by
  simp [bitAt, Nat.div_eq_of_lt h, Nat.mod_eq_of_lt h]

theorem bitAt_cons_add (word : BitVec w) (words : List (BitVec w)) (k : ℕ) :
    bitAt (word :: words) (k + w) = bitAt words k := by
  simp [bitAt, Nat.add_div_right k (Nat.pos_of_neZero w)]

theorem bitAt_cons (word : BitVec w) (words : List (BitVec w)) (k : ℕ) :
    bitAt (word :: words) k = if k < w then word.getLsbD k else bitAt words (k - w) := by
  split
  · rename_i h
    exact bitAt_cons_of_lt h
  · rename_i h
    obtain ⟨j, rfl⟩ := Nat.exists_eq_add_of_le' (Nat.le_of_not_lt h)
    rw [bitAt_cons_add, Nat.add_sub_cancel]

theorem lt_of_bitAt {words : List (BitVec w)} {k : ℕ} (h : bitAt words k = true) :
    k < w * words.length := by
  induction words generalizing k with
  | nil => simp at h
  | cons word words ih =>
      rw [bitAt_cons] at h
      rw [List.length_cons, Nat.mul_succ]
      split at h
      · omega
      · have hlt := ih h
        omega

theorem bitAt_append (us vs : List (BitVec w)) (k : ℕ) :
    bitAt (us ++ vs) k = if k < w * us.length then bitAt us k else bitAt vs (k - w * us.length) := by
  induction us generalizing k with
  | nil => simp
  | cons u us ih =>
      rw [List.cons_append, bitAt_cons, bitAt_cons, ih, List.length_cons, Nat.mul_succ]
      by_cases hk : k < w
      · rw [if_pos hk, if_pos (by omega), if_pos hk]
      · simp only [if_neg hk]
        by_cases hlt : k - w < w * us.length
        · rw [if_pos hlt, if_pos (by omega)]
        · rw [if_neg hlt, if_neg (by omega), Nat.sub_sub, Nat.add_comm]

omit [NeZero w] in
theorem bitAt_replicate (n k : ℕ) : bitAt (List.replicate n (0 : BitVec w)) k = false := by
  simp only [bitAt, List.getD_eq_getElem?_getD, List.getElem?_replicate]
  split <;> simp

theorem bitAt_drop (words : List (BitVec w)) (i k : ℕ) :
    bitAt (words.drop i) k = bitAt words (w * i + k) := by
  simp [bitAt, List.getElem?_drop, Nat.mul_add_div (Nat.pos_of_neZero w)]

theorem bitAt_take (words : List (BitVec w)) (i k : ℕ) :
    bitAt (words.take i) k = (decide (k < w * i) && bitAt words k) := by
  simp only [bitAt, List.getD_eq_getElem?_getD, List.getElem?_take, Nat.div_lt_iff_lt_mul (Nat.pos_of_neZero w),
    Nat.mul_comm w i]
  by_cases h : k < i * w <;> simp [h]

theorem eq_of_bitAt {us vs : List (BitVec w)} (hlen : us.length = vs.length)
    (h : ∀ k, bitAt us k = bitAt vs k) : us = vs := by
  induction us generalizing vs with
  | nil => exact (List.eq_nil_of_length_eq_zero hlen.symm).symm
  | cons u us ih =>
      cases vs with
      | nil => simp at hlen
      | cons v vs =>
          have hword : u = v := by
            apply BitVec.eq_of_getLsbD_eq
            intro i hi
            rw [← bitAt_cons_of_lt hi, ← bitAt_cons_of_lt hi, h]
          have hrest : us = vs := by
            apply ih (by simpa using hlen)
            intro k
            rw [← bitAt_cons_add u us, h, bitAt_cons_add]
          rw [hword, hrest]

theorem eq_zero_iff (words : List (BitVec w)) :
    (∀ word ∈ words, word = 0) ↔ ∀ k, bitAt words k = false := by
  constructor
  · intro h k
    rw [List.eq_replicate_of_mem h]
    exact bitAt_replicate _ k
  · intro h
    have heq : words = List.replicate words.length 0 :=
      eq_of_bitAt List.length_replicate.symm fun k => by rw [h, bitAt_replicate]
    intro word hmem
    rw [heq] at hmem
    exact List.eq_of_mem_replicate hmem

omit [NeZero w] in
theorem bitAt_modify (words : List (BitVec w)) (f : BitVec w → BitVec w) (i k : ℕ)
    (hi : i < words.length) :
    bitAt (words.modify i f) k =
      if k / w = i then (f (words.getD (k / w) 0)).getLsbD (k % w) else bitAt words k := by
  simp only [bitAt, List.getD_eq_getElem?_getD, List.getElem?_modify]
  by_cases h : i = k / w
  · subst h
    simp [List.getElem?_eq_getElem hi]
  · simp [h, Ne.symm h]

end SVF.Util.PackedBits
