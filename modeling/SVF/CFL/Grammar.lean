import Mathlib.Data.List.Induction
import SVF.Util.DefaultMaps

namespace SVF.CFL.Grammar

open Util.DefaultMaps

variable {Sym : Type} [DecidableEq Sym]

/-- A production of a normalized grammar: `X -> epsilon`, `X -> Y` or `X -> Y Z`. -/
inductive Production (Sym : Type)
  | epsilon (X : Sym)
  | single (X Y : Sym)
  | binary (X Y Z : Sym)
  deriving DecidableEq

def Production.lhs : Production Sym → Sym
  | .epsilon X | .single X _ | .binary X _ _ => X

structure SingleProd (Sym : Type) where
  lhs : Sym
  rhs : Sym
  deriving DecidableEq

structure BinaryProd (Sym : Type) where
  lhs : Sym
  firstRHS : Sym
  secondRHS : Sym
  deriving DecidableEq

/-- The production tables the solvers read. `epsilonProds` holds the left-hand
sides of the epsilon productions; the other tables are keyed by one symbol of
the right-hand side. -/
structure CFGrammar (Sym : Type) where
  epsilonProds : List Sym
  singleRHSToProds : DefaultMap Sym (List (SingleProd Sym))
  firstRHSToProds : DefaultMap Sym (List (BinaryProd Sym))
  secondRHSToProds : DefaultMap Sym (List (BinaryProd Sym))

def CFGrammar.empty : CFGrammar Sym := ⟨[], .empty, .empty, .empty⟩

def insertToCFLGrammar (grammar : CFGrammar Sym) : Production Sym → CFGrammar Sym
  | .epsilon X => { grammar with epsilonProds := grammar.epsilonProds.insert X }
  | .single X Y =>
      { grammar with
        singleRHSToProds := grammar.singleRHSToProds.modify Y (·.insert ⟨X, Y⟩) }
  | .binary X Y Z =>
      { grammar with
        firstRHSToProds := grammar.firstRHSToProds.modify Y (·.insert ⟨X, Y, Z⟩)
        secondRHSToProds := grammar.secondRHSToProds.modify Z (·.insert ⟨X, Y, Z⟩) }

def ofProds (prods : List (Production Sym)) : CFGrammar Sym :=
  prods.foldl insertToCFLGrammar .empty

def CFGrammar.getProdsFromSingleRHS (grammar : CFGrammar Sym) (sym : Sym) :
    List (SingleProd Sym) := grammar.singleRHSToProds.get sym

def CFGrammar.getProdsFromFirstRHS (grammar : CFGrammar Sym) (sym : Sym) :
    List (BinaryProd Sym) := grammar.firstRHSToProds.get sym

def CFGrammar.getProdsFromSecondRHS (grammar : CFGrammar Sym) (sym : Sym) :
    List (BinaryProd Sym) := grammar.secondRHSToProds.get sym

structure Holds (grammar : CFGrammar Sym) (prods : List (Production Sym)) : Prop where
  epsilon : ∀ X, X ∈ grammar.epsilonProds ↔ .epsilon X ∈ prods
  single : ∀ Y p, p ∈ grammar.getProdsFromSingleRHS Y ↔ p.rhs = Y ∧ .single p.lhs p.rhs ∈ prods
  first : ∀ Y p, p ∈ grammar.getProdsFromFirstRHS Y ↔
    p.firstRHS = Y ∧ .binary p.lhs p.firstRHS p.secondRHS ∈ prods
  second : ∀ Z p, p ∈ grammar.getProdsFromSecondRHS Z ↔
    p.secondRHS = Z ∧ .binary p.lhs p.firstRHS p.secondRHS ∈ prods

section

variable {grammar : CFGrammar Sym} {prods : List (Production Sym)}

omit [DecidableEq Sym] in
theorem Holds.single_mem (h : Holds grammar prods) {Y : Sym} {p : SingleProd Sym}
    (hp : p ∈ grammar.getProdsFromSingleRHS Y) : .single p.lhs Y ∈ prods := by
  obtain ⟨rfl, hprod⟩ := (h.single Y p).mp hp
  exact hprod

omit [DecidableEq Sym] in
theorem Holds.first_mem (h : Holds grammar prods) {Y : Sym} {p : BinaryProd Sym}
    (hp : p ∈ grammar.getProdsFromFirstRHS Y) : .binary p.lhs Y p.secondRHS ∈ prods := by
  obtain ⟨rfl, hprod⟩ := (h.first Y p).mp hp
  exact hprod

omit [DecidableEq Sym] in
theorem Holds.second_mem (h : Holds grammar prods) {Z : Sym} {p : BinaryProd Sym}
    (hp : p ∈ grammar.getProdsFromSecondRHS Z) : .binary p.lhs p.firstRHS Z ∈ prods := by
  obtain ⟨rfl, hprod⟩ := (h.second Z p).mp hp
  exact hprod

omit [DecidableEq Sym] in
theorem holds_empty : Holds (.empty : CFGrammar Sym) [] := by
  constructor <;> intros <;> simp [CFGrammar.empty, CFGrammar.getProdsFromSingleRHS,
    CFGrammar.getProdsFromFirstRHS, CFGrammar.getProdsFromSecondRHS, DefaultMap.empty,
    Inhabited.default]

theorem Holds.insert (h : Holds grammar prods) (p : Production Sym) :
    Holds (insertToCFLGrammar grammar p) (prods ++ [p]) := by
  obtain ⟨he, hs, hf, hd⟩ := h
  simp only [CFGrammar.getProdsFromSingleRHS, CFGrammar.getProdsFromFirstRHS,
    CFGrammar.getProdsFromSecondRHS] at hs hf hd
  cases p with
  | epsilon X =>
      refine ⟨fun V => ?_, fun V p => ?_, fun V p => ?_, fun V p => ?_⟩
      · simp [insertToCFLGrammar, he, or_comm]
      · simp [insertToCFLGrammar, CFGrammar.getProdsFromSingleRHS, hs]
      · simp [insertToCFLGrammar, CFGrammar.getProdsFromFirstRHS, hf]
      · simp [insertToCFLGrammar, CFGrammar.getProdsFromSecondRHS, hd]
  | single X Y =>
      refine ⟨fun V => ?_, fun V p => ?_, fun V p => ?_, fun V p => ?_⟩
      · simp [insertToCFLGrammar, he]
      · simp only [insertToCFLGrammar, CFGrammar.getProdsFromSingleRHS, get_modify]
        by_cases hV : V = Y <;> cases p <;> simp [hV, hs] <;> grind
      · simp [insertToCFLGrammar, CFGrammar.getProdsFromFirstRHS, hf]
      · simp [insertToCFLGrammar, CFGrammar.getProdsFromSecondRHS, hd]
  | binary X Y Z =>
      refine ⟨fun V => ?_, fun V p => ?_, fun V p => ?_, fun V p => ?_⟩
      · simp [insertToCFLGrammar, he]
      · simp [insertToCFLGrammar, CFGrammar.getProdsFromSingleRHS, hs]
      · simp only [insertToCFLGrammar, CFGrammar.getProdsFromFirstRHS, get_modify]
        by_cases hV : V = Y <;> cases p <;> simp [hV, hf] <;> grind
      · simp only [insertToCFLGrammar, CFGrammar.getProdsFromSecondRHS, get_modify]
        by_cases hV : V = Z <;> cases p <;> simp [hV, hd] <;> grind

end

theorem holds_ofProds (prods : List (Production Sym)) : Holds (ofProds prods) prods := by
  induction prods using List.reverseRecOn with
  | nil => exact holds_empty
  | append_singleton prods p ih =>
      rw [ofProds, List.foldl_append]
      exact ih.insert p

end SVF.CFL.Grammar
