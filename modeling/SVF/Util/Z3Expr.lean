import Mathlib.Data.Fin.Basic

namespace SVF.Util.Z3Expr

inductive Op
  | not | and | or | distinct
  deriving DecidableEq

mutual

inductive Expr (n : ℕ)
  | bool_val (b : Bool)
  | bool_const (c : Fin n)
  | app (op : Op) (args : Args n)

inductive Args (n : ℕ)
  | nil
  | cons (arg : Expr n) (args : Args n)

end

deriving instance DecidableEq for Expr, Args

abbrev Assignment (n : ℕ) := Fin n → Bool

variable {n : ℕ}

def Op.eval : Op → List Bool → Bool
  | .not, args => !args.headD false
  | .and, args => args.all id
  | .or, args => args.any id
  | .distinct, args => decide args.Nodup

mutual

def Expr.eval (v : Assignment n) : Expr n → Bool
  | .bool_val b => b
  | .bool_const c => v c
  | .app op args => op.eval (args.eval v)

def Args.eval (v : Assignment n) : Args n → List Bool
  | .nil => []
  | .cons arg args => arg.eval v :: args.eval v

end

mutual

def getExprSize : Expr n → ℕ
  | .bool_val _ | .bool_const _ => 1
  | .app _ args => 1 + argsSize args

def argsSize : Args n → ℕ
  | .nil => 0
  | .cons arg args => getExprSize arg + argsSize args

end

def getTrueCond : Expr n := .bool_val true

def getFalseCond : Expr n := .bool_val false

def binary (op : Op) (lhs rhs : Expr n) : Expr n := .app op (.cons lhs (.cons rhs .nil))

inductive CheckResult
  | unsat | sat | unknown
  deriving DecidableEq

/-- What is used of the library: the simplifier keeps the meaning, and the check
of assertions decides propositional ones. -/
structure Z3 (n : ℕ) where
  simplify : Expr n → Expr n
  check : List (Expr n) → CheckResult
  eval_simplify : ∀ v e, (simplify e).eval v = e.eval v
  check_unsat : ∀ es, check es = .unsat ↔ ∀ v, ∃ e ∈ es, e.eval v = false

/-- The assertions of the solver, those of the innermost open scope first. -/
structure Solver (n : ℕ) where
  scopes : List (List (Expr n))
  assertions : List (Expr n)
  deriving DecidableEq

namespace Solver

def new : Solver n := ⟨[], []⟩

def push (s : Solver n) : Solver n := { s with scopes := [] :: s.scopes }

def add (s : Solver n) (e : Expr n) : Solver n :=
  match s.scopes with
  | [] => { s with assertions := s.assertions ++ [e] }
  | scope :: scopes => { s with scopes := (scope ++ [e]) :: scopes }

/-- Where no scope is open the source gets an exception, with the assertions as they are. -/
def pop (s : Solver n) : Solver n := { s with scopes := s.scopes.tail }

def check (z : Z3 n) (s : Solver n) : CheckResult := z.check (s.scopes.flatten ++ s.assertions)

end Solver

section

variable (z : Z3 n) (maxZ3Size : ℕ) (s : Solver n)

/-- `eq`, which compares the simplified expressions. -/
def eq (lhs rhs : Expr n) : Bool := z.simplify lhs = z.simplify rhs

def checkExpr (e : Expr n) : CheckResult × Solver n :=
  let s := s.push.add e
  (s.check z, s.pop)

def NEG (e : Expr n) : Expr n := z.simplify (.app .not (.cons e .nil))

def AND (lhs rhs : Expr n) : Expr n × Solver n :=
  if eq z lhs getFalseCond || eq z rhs getFalseCond then (getFalseCond, s)
  else if eq z lhs getTrueCond then (rhs, s)
  else if eq z rhs getTrueCond then (lhs, s)
  else
    let expr := z.simplify (binary .and lhs rhs)
    if getExprSize expr > maxZ3Size then
      let (res, s) := checkExpr z s expr
      if res ≠ .unsat then (lhs, s) else (getFalseCond, s)
    else (expr, s)

def OR (lhs rhs : Expr n) : Expr n × Solver n :=
  if eq z lhs getTrueCond || eq z rhs getTrueCond then (getTrueCond, s)
  else if eq z lhs getFalseCond then (rhs, s)
  else if eq z rhs getFalseCond then (lhs, s)
  else
    let expr := z.simplify (binary .or lhs rhs)
    if getExprSize expr > maxZ3Size then
      let (res, s) := checkExpr z s expr
      if res ≠ .unsat then (getTrueCond, s) else (getFalseCond, s)
    else (expr, s)

end

section

variable (z : Z3 n) (maxZ3Size : ℕ) (s : Solver n) {lhs rhs : Expr n} {v : Assignment n}

@[simp] theorem eval_getTrueCond : (getTrueCond : Expr n).eval v = true := by
  rw [getTrueCond, Expr.eval]

@[simp] theorem eval_getFalseCond : (getFalseCond : Expr n).eval v = false := by
  rw [getFalseCond, Expr.eval]

@[simp] theorem eval_binary (op : Op) (lhs rhs : Expr n) :
    (binary op lhs rhs).eval v = op.eval [lhs.eval v, rhs.eval v] := by
  simp only [binary, Expr.eval, Args.eval]

theorem eval_eq_of_eq {z : Z3 n} (h : eq z lhs rhs = true) (v : Assignment n) :
    lhs.eval v = rhs.eval v := by
  rw [← z.eval_simplify v lhs, of_decide_eq_true h, z.eval_simplify]

theorem eval_NEG (e : Expr n) : (NEG z e).eval v = !e.eval v := by
  rw [NEG, z.eval_simplify]
  simp [Expr.eval, Args.eval, Op.eval]

theorem checkExpr_solver (e : Expr n) : (checkExpr z s e).2 = s := rfl

theorem checkExpr_new (e : Expr n) :
    (checkExpr z .new e).1 = .unsat ↔ ∀ v, e.eval v = false := by
  have hcheck := z.check_unsat [e]
  simp only [List.mem_singleton, exists_eq_left] at hcheck
  exact hcheck

theorem AND_solver (lhs rhs : Expr n) : (AND z maxZ3Size s lhs rhs).2 = s := by
  rw [AND]
  split
  · rfl
  split
  · rfl
  split
  · rfl
  dsimp only
  split
  · split <;> exact checkExpr_solver z s _
  · rfl

theorem OR_solver (lhs rhs : Expr n) : (OR z maxZ3Size s lhs rhs).2 = s := by
  rw [OR]
  split
  · rfl
  split
  · rfl
  split
  · rfl
  dsimp only
  split
  · split <;> exact checkExpr_solver z s _
  · rfl

/-- The size limit does not change the conjunction. -/
def andFits (lhs rhs : Expr n) : Bool :=
  eq z lhs getFalseCond || eq z rhs getFalseCond || eq z lhs getTrueCond || eq z rhs getTrueCond ||
    getExprSize (z.simplify (binary .and lhs rhs)) ≤ maxZ3Size

def orFits (lhs rhs : Expr n) : Bool :=
  eq z lhs getFalseCond || eq z rhs getFalseCond || eq z lhs getTrueCond || eq z rhs getTrueCond ||
    getExprSize (z.simplify (binary .or lhs rhs)) ≤ maxZ3Size

theorem AND_cases (lhs rhs : Expr n) :
    (∀ v, (AND z maxZ3Size .new lhs rhs).1.eval v = (lhs.eval v && rhs.eval v)) ∨
      andFits z maxZ3Size lhs rhs = false ∧ (AND z maxZ3Size .new lhs rhs).1 = lhs := by
  rw [AND]
  split
  · rename_i h
    refine .inl fun v => ?_
    rcases Bool.or_eq_true_iff.mp h with h | h <;> simp [eval_eq_of_eq h]
  split
  · rename_i h
    exact .inl fun v => by simp [eval_eq_of_eq h]
  split
  · rename_i h
    exact .inl fun v => by simp [eval_eq_of_eq h]
  rename_i hfalse hlhs hrhs
  dsimp only
  split
  · rename_i hsize
    split
    · refine .inr ⟨?_, rfl⟩
      simp only [Bool.or_eq_true, not_or] at hfalse
      simp [andFits, hfalse.1, hfalse.2, hlhs, hrhs, hsize]
    · rename_i hunsat
      have hall := (checkExpr_new z _).mp (not_not.mp hunsat)
      refine .inl fun v => ?_
      have hv := hall v
      rw [z.eval_simplify, eval_binary] at hv
      simpa [Op.eval] using hv.symm
  · refine .inl fun v => ?_
    rw [z.eval_simplify, eval_binary]
    simp [Op.eval]

theorem OR_cases (lhs rhs : Expr n) :
    (∀ v, (OR z maxZ3Size .new lhs rhs).1.eval v = (lhs.eval v || rhs.eval v)) ∨
      orFits z maxZ3Size lhs rhs = false ∧ (OR z maxZ3Size .new lhs rhs).1 = getTrueCond := by
  rw [OR]
  split
  · rename_i h
    refine .inl fun v => ?_
    rcases Bool.or_eq_true_iff.mp h with h | h <;> simp [eval_eq_of_eq h]
  split
  · rename_i h
    exact .inl fun v => by simp [eval_eq_of_eq h]
  split
  · rename_i h
    exact .inl fun v => by simp [eval_eq_of_eq h]
  rename_i htrue hlhs hrhs
  dsimp only
  split
  · rename_i hsize
    split
    · refine .inr ⟨?_, rfl⟩
      simp only [Bool.or_eq_true, not_or] at htrue
      simp [orFits, htrue.1, htrue.2, hlhs, hrhs, hsize]
    · rename_i hunsat
      have hall := (checkExpr_new z _).mp (not_not.mp hunsat)
      refine .inl fun v => ?_
      have hv := hall v
      rw [z.eval_simplify, eval_binary] at hv
      simpa [Op.eval] using hv.symm
  · refine .inl fun v => ?_
    rw [z.eval_simplify, eval_binary]
    simp [Op.eval]

variable {z maxZ3Size}

theorem eval_AND (h : andFits z maxZ3Size lhs rhs = true) (v : Assignment n) :
    (AND z maxZ3Size .new lhs rhs).1.eval v = (lhs.eval v && rhs.eval v) := by
  rcases AND_cases z maxZ3Size lhs rhs with hexact | ⟨hfits, -⟩
  · exact hexact v
  · rw [h] at hfits
    contradiction

theorem eval_OR (h : orFits z maxZ3Size lhs rhs = true) (v : Assignment n) :
    (OR z maxZ3Size .new lhs rhs).1.eval v = (lhs.eval v || rhs.eval v) := by
  rcases OR_cases z maxZ3Size lhs rhs with hexact | ⟨hfits, -⟩
  · exact hexact v
  · rw [h] at hfits
    contradiction

/-- A conjunction is never stronger than it should be. -/
theorem le_eval_AND (hlhs : lhs.eval v = true) (hrhs : rhs.eval v = true) :
    (AND z maxZ3Size .new lhs rhs).1.eval v = true := by
  rcases AND_cases z maxZ3Size lhs rhs with hexact | ⟨-, hsame⟩
  · rw [hexact v, hlhs, hrhs]
    rfl
  · rw [hsame]
    exact hlhs

theorem le_eval_OR (h : lhs.eval v = true ∨ rhs.eval v = true) :
    (OR z maxZ3Size .new lhs rhs).1.eval v = true := by
  rcases OR_cases z maxZ3Size lhs rhs with hexact | ⟨-, hsame⟩
  · rw [hexact v]
    simpa using h
  · rw [hsame]
    exact eval_getTrueCond

end

end SVF.Util.Z3Expr
