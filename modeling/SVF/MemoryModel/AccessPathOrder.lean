import Mathlib.Data.Prod.Lex
import Mathlib.Order.WithBot

namespace SVF.MemoryModel.AccessPathOrder

variable {Var Ty : Type*} [LinearOrder Var] [LinearOrder Ty]

/-- Pointers to variables and types are ordered by their addresses; a type can be null. -/
structure AccessPath (Var Ty : Type*) where
  fldIdx : ℤ
  idxOperandPairs : List (Var × Ty)
  gepPointeeType : Ty
  deriving DecidableEq

def pairLt (p q : Var × Ty) : Bool := p.1 < q.1 || !(decide (q.1 < p.1)) && p.2 < q.2

/-- The loop over two lists of one length, which returns in its first round. -/
def pairsLt : List (Var × Ty) → List (Var × Ty) → Bool
  | it :: _, rhsIt :: _ => pairLt it rhsIt
  | _, _ => false

namespace AccessPath

def lt (a rhs : AccessPath Var Ty) : Bool :=
  if a.fldIdx ≠ rhs.fldIdx then a.fldIdx < rhs.fldIdx
  else if a.idxOperandPairs.length ≠ rhs.idxOperandPairs.length then
    a.idxOperandPairs.length < rhs.idxOperandPairs.length
  else pairsLt a.idxOperandPairs rhs.idxOperandPairs

def eq (a rhs : AccessPath Var Ty) : Bool :=
  a.fldIdx == rhs.fldIdx && a.idxOperandPairs == rhs.idxOperandPairs && a.gepPointeeType == rhs.gepPointeeType

end AccessPath

open AccessPath

structure StrictTotal (paths : Set (AccessPath Var Ty)) : Prop where
  irrefl : ∀ a ∈ paths, lt a a = false
  trans : ∀ a ∈ paths, ∀ b ∈ paths, ∀ c ∈ paths, lt a b = true → lt b c = true → lt a c = true
  consistent : ∀ a ∈ paths, ∀ b ∈ paths, eq a b = true → lt a b = false
  total : ∀ a ∈ paths, ∀ b ∈ paths, eq a b = false → lt a b = true ∨ lt b a = true

def first : List (Var × Ty) → WithBot (Var ×ₗ Ty)
  | [] => ⊥
  | p :: _ => ((toLex p : Var ×ₗ Ty) : WithBot (Var ×ₗ Ty))

omit [LinearOrder Var] [LinearOrder Ty] in
theorem first_eq_iff (l r : List (Var × Ty)) : first l = first r ↔ l.head? = r.head? := by
  cases l <;> cases r <;> simp [first]

/-- What the order looks at: the offset, the number of pairs and the first pair. -/
def key (a : AccessPath Var Ty) : ℤ ×ₗ ℕ ×ₗ WithBot (Var ×ₗ Ty) :=
  toLex (a.fldIdx, toLex (a.idxOperandPairs.length, first a.idxOperandPairs))

theorem pairLt_iff (p q : Var × Ty) : pairLt p q = true ↔ toLex p < toLex q := by
  rw [Prod.Lex.toLex_lt_toLex, pairLt, Bool.or_eq_true, decide_eq_true_iff, Bool.and_eq_true, Bool.not_eq_true',
    decide_eq_false_iff_not, decide_eq_true_iff, not_lt]
  constructor
  · rintro (h | ⟨h, h'⟩)
    · exact .inl h
    · rcases h.lt_or_eq with h | h
      · exact .inl h
      · exact .inr ⟨h, h'⟩
  · rintro (h | ⟨h, h'⟩)
    · exact .inl h
    · exact .inr ⟨h.le, h'⟩

theorem pairsLt_iff {l r : List (Var × Ty)} (hlen : l.length = r.length) :
    pairsLt l r = true ↔ first l < first r := by
  cases l with
  | nil =>
      cases r with
      | nil => exact iff_of_false Bool.false_ne_true (lt_irrefl _)
      | cons q r => contradiction
  | cons p l =>
      cases r with
      | nil => contradiction
      | cons q r => rw [pairsLt, pairLt_iff, first, first, WithBot.coe_lt_coe]

theorem lt_iff_key (a b : AccessPath Var Ty) : lt a b = true ↔ key a < key b := by
  rw [key, key, Prod.Lex.toLex_lt_toLex, lt]
  by_cases hidx : a.fldIdx = b.fldIdx
  · rw [if_neg (not_not_intro hidx), hidx, Prod.Lex.toLex_lt_toLex]
    by_cases hlen : a.idxOperandPairs.length = b.idxOperandPairs.length
    · rw [if_neg (not_not_intro hlen), pairsLt_iff hlen]
      simp [hlen]
    · rw [if_pos hlen]
      simp [hlen]
  · rw [if_pos hidx]
    simp [hidx]

theorem eq_iff (a b : AccessPath Var Ty) : eq a b = true ↔ a = b := by
  obtain ⟨fldIdx, pairs, type⟩ := a
  obtain ⟨fldIdx', pairs', type'⟩ := b
  simp [eq, and_assoc]

omit [LinearOrder Var] [LinearOrder Ty] in
theorem key_eq_iff (a b : AccessPath Var Ty) : key a = key b ↔ a.fldIdx = b.fldIdx ∧
    a.idxOperandPairs.length = b.idxOperandPairs.length ∧ a.idxOperandPairs.head? = b.idxOperandPairs.head? := by
  rw [key, key, toLex_inj, Prod.mk.injEq, toLex_inj, Prod.mk.injEq, first_eq_iff]

/-- Two paths with the same first pair are not told apart by the others, nor by the element type. -/
theorem strictTotal_iff (paths : Set (AccessPath Var Ty)) : StrictTotal paths ↔
    ∀ a ∈ paths, ∀ b ∈ paths, a.fldIdx = b.fldIdx → a.idxOperandPairs.length = b.idxOperandPairs.length →
      a.idxOperandPairs.head? = b.idxOperandPairs.head? → a = b := by
  constructor
  · intro h a ha b hb hidx hlen hhead
    by_contra hne
    have hkey : key a = key b := (key_eq_iff a b).mpr ⟨hidx, hlen, hhead⟩
    have hneq : eq a b = false := (Bool.not_eq_true _).mp (mt (eq_iff a b).mp hne)
    rcases h.total a ha b hb hneq with hlt | hlt
    · exact ((lt_iff_key a b).mp hlt).ne hkey
    · exact ((lt_iff_key b a).mp hlt).ne hkey.symm
  · intro h
    have hirrefl : ∀ a : AccessPath Var Ty, lt a a = false := by
      intro a
      rw [← Bool.not_eq_true, lt_iff_key]
      exact lt_irrefl _
    refine ⟨fun a _ => hirrefl a, ?_, ?_, ?_⟩
    · intro a _ b _ c _ hab hbc
      rw [lt_iff_key] at hab hbc ⊢
      exact hab.trans hbc
    · intro a _ b _ heq
      rw [(eq_iff a b).mp heq]
      exact hirrefl b
    · intro a ha b hb hneq
      rw [lt_iff_key, lt_iff_key]
      apply lt_or_gt_of_ne
      intro hkey
      obtain ⟨hidx, hlen, hhead⟩ := (key_eq_iff a b).mp hkey
      rw [(eq_iff a b).mpr (h a ha b hb hidx hlen hhead)] at hneq
      contradiction

/-- Paths that differ in their second pair. -/
theorem strictTotal_fails : ∃ paths : Set (AccessPath ℕ ℕ), ¬ StrictTotal paths := by
  refine ⟨{⟨0, [(1, 1), (2, 1)], 0⟩, ⟨0, [(1, 1), (3, 1)], 0⟩}, fun h => ?_⟩
  have htotal := h.total _ (.inl rfl) _ (.inr rfl) (by decide)
  revert htotal
  decide

end SVF.MemoryModel.AccessPathOrder
