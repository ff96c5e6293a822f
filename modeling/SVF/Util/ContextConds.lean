import Mathlib.Data.List.Basic

namespace SVF.Util.ContextConds

abbrev NodeID := ℕ

structure ContextCond where
  context : List NodeID
  concreteCxt : Bool
  deriving DecidableEq

namespace ContextCond

def new : ContextCond := ⟨[], true⟩

def setNonConcreteCxt (cond : ContextCond) : ContextCond := { cond with concreteCxt := false }

def pushContext (maximumCxtLen : ℕ) (cond : ContextCond) (ctx : NodeID) : ContextCond × Bool :=
  if cond.context.length < maximumCxtLen then
    ({ cond with context := cond.context ++ [ctx] }, true)
  else if cond.context ≠ [] then
    ({ cond.setNonConcreteCxt with context := cond.context.tail ++ [ctx] }, false)
  else (cond, false)

def matchContext (cond : ContextCond) (ctx : NodeID) : ContextCond × Bool :=
  if cond.context = [] then (cond, true)
  else if cond.context.getLast? = some ctx then
    ({ cond with context := cond.context.dropLast }, true)
  else (cond, false)

def copy (cond : ContextCond) : ContextCond := ⟨cond.context, cond.concreteCxt⟩

/-- `operator=`, where `!=` looks at the contexts only. -/
def assign (lhs rhs : ContextCond) : ContextCond :=
  if lhs.context ≠ rhs.context then ⟨rhs.context, rhs.concreteCxt⟩ else lhs

end ContextCond

section

/-- What has happened to a value: the call string without a limit, how many of its
outermost calls have been cut off, whether a call was ever cut off, and whether a call
has returned while others were cut off. -/
structure History where
  calls : List NodeID
  lost : ℕ
  truncated : Bool
  unwound : Bool
  deriving DecidableEq

namespace History

def new : History := ⟨[], 0, false, false⟩

def call (k : ℕ) (h : History) (ctx : NodeID) : History where
  calls := h.calls ++ [ctx]
  lost := max h.lost (h.calls.length + 1 - k)
  truncated := h.truncated || decide (h.lost < h.calls.length + 1 - k)
  unwound := h.unwound

def Matches (h : History) (ctx : NodeID) : Prop := h.calls.getLast? = some ctx

instance (h : History) (ctx : NodeID) : Decidable (h.Matches ctx) := inferInstanceAs (Decidable (_ = _))

/-- A return that does not match leaves the call string as it is. -/
def ret (h : History) (ctx : NodeID) : History :=
  if h.Matches ctx then
    { h with
      calls := h.calls.dropLast
      lost := min h.lost (h.calls.length - 1)
      unwound := h.unwound || decide (0 < h.lost) }
  else h

end History

structure Value where
  cond : ContextCond
  history : History
  deriving DecidableEq

variable {ι : Type}

inductive Op (ι : Type) where
  | new (i : ι)
  | push (i : ι) (ctx : NodeID)
  | ret (i : ι) (ctx : NodeID)
  | copy (i j : ι)
  | assign (i j : ι)
  | move (i j : ι)

variable [DecidableEq ι]

abbrev Env (ι : Type) := ι → Value

def Value.new : Value := ⟨ContextCond.new, History.new⟩

def step (k : ℕ) (e : Env ι) : Op ι → Env ι
  | .new i => Function.update e i Value.new
  | .push i ctx => Function.update e i ⟨((e i).cond.pushContext k ctx).1, (e i).history.call k ctx⟩
  | .ret i ctx => Function.update e i ⟨((e i).cond.matchContext ctx).1, (e i).history.ret ctx⟩
  | .copy i j => Function.update e i ⟨(e j).cond.copy, (e j).history⟩
  | .assign i j => Function.update e i ⟨(e i).cond.assign (e j).cond, (e j).history⟩
  | .move i j => if i = j then e else Function.update (Function.update e j Value.new) i (e j)

def run (k : ℕ) (e : Env ι) (ops : List (Op ι)) : Env ι := ops.foldl (step k) e

/-- An assignment copies the flag, too: the two contexts differ, or the two flags agree. -/
def FlagCopied (e : Env ι) : Op ι → Prop
  | .assign i j => (e i).cond.context = (e j).cond.context → (e i).cond.concreteCxt = (e j).cond.concreteCxt
  | _ => True

def FlagsCopied (k : ℕ) : Env ι → List (Op ι) → Prop
  | _, [] => True
  | e, op :: ops => FlagCopied e op ∧ FlagsCopied k (step k e op) ops

end

section

def LongestSuffix (k : ℕ) (calls s : List NodeID) : Prop :=
  (s <:+ calls ∧ s.length ≤ k) ∧ ∀ t, t <:+ calls → t.length ≤ k → t.length ≤ s.length

theorem longestSuffix_drop {k lost : ℕ} {calls : List NodeID} (hk : calls.length - lost ≤ k)
    (hl : lost ≤ calls.length) :
    LongestSuffix k calls (calls.drop lost) ↔ lost = calls.length - k := by
  constructor
  · rintro ⟨_, hmax⟩
    have hlong := hmax (calls.drop (calls.length - k)) (List.drop_suffix _ _)
      (by rw [List.length_drop]; omega)
    rw [List.length_drop, List.length_drop] at hlong
    omega
  · intro heq
    refine ⟨⟨List.drop_suffix _ _, by rwa [List.length_drop]⟩, ?_⟩
    intro t hsuffix hlen
    have hle := hsuffix.length_le
    rw [List.length_drop]
    omega

/-- The stored context is the call string without the calls that were cut off. -/
structure Window (k : ℕ) (v : Value) : Prop where
  context : v.cond.context = v.history.calls.drop v.history.lost
  within : v.history.lost ≤ v.history.calls.length
  bounded : v.history.calls.length - v.history.lost ≤ k
  whole : v.history.truncated = false → v.history.lost = 0
  full : v.history.unwound = false → v.history.lost = v.history.calls.length - k

def Flagged (v : Value) : Prop := v.cond.concreteCxt = !v.history.truncated

variable {k : ℕ} {v : Value}

theorem Window.length (h : Window k v) :
    v.cond.context.length = v.history.calls.length - v.history.lost := by
  rw [h.context, List.length_drop]

theorem Window.new (k : ℕ) : Window k Value.new where
  context := rfl
  within := Nat.le_refl 0
  bounded := Nat.zero_le k
  whole _ := rfl
  full _ := (Nat.zero_sub k).symm

theorem Flagged.new : Flagged Value.new := rfl

theorem pushContext_context (h : Window k v) (ctx : NodeID) :
    (v.cond.pushContext k ctx).1.context =
      (v.history.call k ctx).calls.drop (v.history.call k ctx).lost := by
  have hlen := h.length
  have hwithin := h.within
  have hbounded := h.bounded
  rw [ContextCond.pushContext]
  split_ifs with hroom hnonempty
  · have hlost : (v.history.call k ctx).lost = v.history.lost := by
      change max _ _ = _
      omega
    rw [hlost]
    change _ ++ _ = List.drop _ (_ ++ _)
    rw [List.drop_append_of_le_length hwithin, h.context]
  · have hpos := List.length_pos_of_ne_nil hnonempty
    have hlost : (v.history.call k ctx).lost = v.history.lost + 1 := by
      change max _ _ = _
      omega
    rw [hlost]
    change _ ++ _ = List.drop _ (_ ++ _)
    rw [List.drop_append_of_le_length (by omega), h.context, List.tail_drop]
  · rw [not_not] at hnonempty
    have hlost : (v.history.call k ctx).lost = v.history.calls.length + 1 := by
      change max _ _ = _
      rw [hnonempty, List.length_nil] at hroom hlen
      omega
    rw [hlost, hnonempty]
    change [] = List.drop _ (_ ++ _)
    rw [List.drop_eq_nil_of_le]
    exact Nat.le_of_eq List.length_append

theorem Window.push (h : Window k v) (ctx : NodeID) :
    Window k ⟨(v.cond.pushContext k ctx).1, v.history.call k ctx⟩ := by
  have hwithin := h.within
  have hbounded := h.bounded
  have hlen : (v.history.call k ctx).calls.length = v.history.calls.length + 1 := List.length_append
  have hlost : (v.history.call k ctx).lost = max v.history.lost (v.history.calls.length + 1 - k) := rfl
  refine ⟨pushContext_context h ctx, ?_, ?_, ?_, ?_⟩
  · dsimp only
    omega
  · dsimp only
    omega
  · intro hwhole
    obtain ⟨hbefore, hnow⟩ := Bool.or_eq_false_iff.1 hwhole
    have hzero := h.whole hbefore
    have hfits := of_decide_eq_false hnow
    dsimp only
    omega
  · intro hnever
    have hfull := h.full hnever
    dsimp only
    omega

theorem Flagged.push (h : Window k v) (hf : Flagged v) (hk : 1 ≤ k) (ctx : NodeID) :
    Flagged ⟨(v.cond.pushContext k ctx).1, v.history.call k ctx⟩ := by
  have hlen := h.length
  have hwithin := h.within
  change _ = !(_ || _)
  rw [ContextCond.pushContext]
  split_ifs with hroom hnonempty
  · have hfits : ¬v.history.lost < v.history.calls.length + 1 - k := by omega
    rw [decide_eq_false hfits, Bool.or_false]
    exact hf
  · have hcut : v.history.lost < v.history.calls.length + 1 - k := by omega
    rw [decide_eq_true hcut, Bool.or_true]
    rfl
  · rw [not_not] at hnonempty
    rw [hnonempty, List.length_nil] at hroom
    omega

theorem matchContext_accepts (h : Window k v) (ctx : NodeID) :
    (v.cond.matchContext ctx).2 = true ↔
      v.history.Matches ctx ∨ v.history.lost = v.history.calls.length := by
  have hlen := h.length
  have hwithin := h.within
  rw [ContextCond.matchContext]
  split_ifs with hempty hlast
  · rw [hempty, List.length_nil] at hlen
    exact iff_of_true rfl (Or.inr (by omega))
  · refine iff_of_true rfl (Or.inl ?_)
    rw [h.context] at hlast hempty
    rw [List.drop_eq_nil_iff, Nat.not_le] at hempty
    rwa [List.getLast?_drop, if_neg (by omega)] at hlast
  · refine iff_of_false id ?_
    have hpos := List.length_pos_of_ne_nil hempty
    rintro (hmatches | hall)
    · apply hlast
      rw [h.context, List.getLast?_drop, if_neg (by omega)]
      exact hmatches
    · omega

theorem matchContext_context (h : Window k v) (ctx : NodeID) :
    (v.cond.matchContext ctx).1.context = (v.history.ret ctx).calls.drop (v.history.ret ctx).lost := by
  have hlen := h.length
  have hwithin := h.within
  have hctx := h.context
  rw [ContextCond.matchContext, History.ret]
  by_cases hempty : v.cond.context = []
  · rw [if_pos hempty]
    rw [hempty, List.length_nil] at hlen
    split_ifs with hmatches
    · dsimp only
      rw [hempty, List.drop_eq_nil_of_le]
      rw [List.length_dropLast]
      omega
    · exact hctx
  · rw [if_neg hempty]
    have hpos := List.length_pos_of_ne_nil hempty
    have hsame : v.cond.context.getLast? = some ctx ↔ v.history.Matches ctx := by
      rw [hctx, List.getLast?_drop, if_neg (by omega)]
      rfl
    by_cases hmatches : v.history.Matches ctx
    · rw [if_pos (hsame.2 hmatches), if_pos hmatches]
      dsimp only
      have hlost : min v.history.lost (v.history.calls.length - 1) = v.history.lost := by omega
      rw [hlost, hctx, List.dropLast_eq_take, List.dropLast_eq_take, List.drop_take, List.length_drop]
      congr 1
      omega
    · rw [if_neg (mt hsame.1 hmatches), if_neg hmatches]
      exact hctx

theorem Window.ret (h : Window k v) (ctx : NodeID) :
    Window k ⟨(v.cond.matchContext ctx).1, v.history.ret ctx⟩ := by
  have hwithin := h.within
  have hbounded := h.bounded
  have hcontext := matchContext_context h ctx
  rw [History.ret] at hcontext ⊢
  split_ifs at hcontext ⊢ with hmatches
  · refine ⟨hcontext, ?_, ?_, ?_, ?_⟩ <;> dsimp only
    · rw [List.length_dropLast]
      omega
    · rw [List.length_dropLast]
      omega
    · intro hwhole
      have hzero := h.whole hwhole
      omega
    · intro hnever
      obtain ⟨hbefore, hnow⟩ := Bool.or_eq_false_iff.1 hnever
      have hfull := h.full hbefore
      have hnone := of_decide_eq_false hnow
      rw [List.length_dropLast]
      omega
  · exact ⟨hcontext, h.within, h.bounded, h.whole, h.full⟩

theorem Flagged.ret (hf : Flagged v) (ctx : NodeID) :
    Flagged ⟨(v.cond.matchContext ctx).1, v.history.ret ctx⟩ := by
  have hflag : (v.cond.matchContext ctx).1.concreteCxt = v.cond.concreteCxt := by
    rw [ContextCond.matchContext]
    split_ifs <;> rfl
  have hhistory : (v.history.ret ctx).truncated = v.history.truncated := by
    rw [History.ret]
    split_ifs <;> rfl
  rw [Flagged, hflag, hhistory]
  exact hf

theorem assign_context (lhs rhs : ContextCond) : (lhs.assign rhs).context = rhs.context := by
  rw [ContextCond.assign]
  split_ifs with hne
  · rfl
  · exact not_not.1 hne

theorem Window.assign {w : Value} (h : Window k w) (lhs : ContextCond) :
    Window k ⟨lhs.assign w.cond, w.history⟩ :=
  ⟨(assign_context lhs w.cond).trans h.context, h.within, h.bounded, h.whole, h.full⟩

theorem Flagged.assign {w : Value} (hf : Flagged w) {lhs : ContextCond}
    (hcopied : lhs.context = w.cond.context → lhs.concreteCxt = w.cond.concreteCxt) :
    Flagged ⟨lhs.assign w.cond, w.history⟩ := by
  rw [Flagged, ContextCond.assign]
  split_ifs with hne
  · exact hf
  · exact (hcopied (not_not.1 hne)).trans hf

end

section

variable {ι : Type} [DecidableEq ι] {k : ℕ} {e : Env ι}

theorem forall_update {P : Value → Prop} (he : ∀ i, P (e i)) {j : ι} {v : Value} (hv : P v) (i : ι) :
    P (Function.update e j v i) := by
  by_cases heq : i = j
  · subst heq
    rwa [Function.update_self]
  · rw [Function.update_of_ne heq]
    exact he i

theorem step_windows (he : ∀ i, Window k (e i)) (op : Op ι) (i : ι) : Window k (step k e op i) := by
  cases op with
  | new j => exact forall_update he (Window.new k) i
  | push j ctx => exact forall_update he ((he j).push ctx) i
  | ret j ctx => exact forall_update he ((he j).ret ctx) i
  | copy j l => exact forall_update he (he l) i
  | assign j l => exact forall_update he ((he l).assign _) i
  | move j l =>
      rw [step]
      split_ifs with heq
      · exact he i
      · exact forall_update (forall_update he (Window.new k)) (he l) i

theorem step_flagged (he : ∀ i, Window k (e i)) (hf : ∀ i, Flagged (e i)) (hk : 1 ≤ k) {op : Op ι}
    (hcopied : FlagCopied e op) (i : ι) : Flagged (step k e op i) := by
  cases op with
  | new j => exact forall_update hf Flagged.new i
  | push j ctx => exact forall_update hf ((hf j).push (he j) hk ctx) i
  | ret j ctx => exact forall_update hf ((hf j).ret ctx) i
  | copy j l => exact forall_update hf (hf l) i
  | assign j l => exact forall_update hf ((hf l).assign hcopied) i
  | move j l =>
      rw [step]
      split_ifs with heq
      · exact hf i
      · exact forall_update (forall_update hf Flagged.new) (hf l) i

theorem run_windows (he : ∀ i, Window k (e i)) (ops : List (Op ι)) (i : ι) : Window k (run k e ops i) := by
  induction ops generalizing e with
  | nil => exact he i
  | cons op ops ih => exact ih (step_windows he op)

theorem run_flagged (he : ∀ i, Window k (e i)) (hf : ∀ i, Flagged (e i)) (hk : 1 ≤ k) {ops : List (Op ι)}
    (hcopied : FlagsCopied k e ops) (i : ι) : Flagged (run k e ops i) := by
  induction ops generalizing e with
  | nil => exact hf i
  | cons op ops ih => exact ih (step_windows he op) (step_flagged he hf hk hcopied.1) hcopied.2

def start (ι : Type) : Env ι := fun _ => Value.new

theorem context_is_window (k : ℕ) (ops : List (Op ι)) (i : ι) :
    let v := run k (start ι) ops i
    (v.cond.context = v.history.calls.drop v.history.lost ∧ v.cond.context.length ≤ k ∧
      (LongestSuffix k v.history.calls v.cond.context ↔ v.history.lost = v.history.calls.length - k) ∧
      (v.history.unwound = false → LongestSuffix k v.history.calls v.cond.context)) ∧
    (∀ ctx, (v.history.Matches ctx → (v.cond.matchContext ctx).2 = true) ∧
      ((v.cond.matchContext ctx).2 = true → v.history.truncated = false →
        v.history.Matches ctx ∨ v.history.calls = [])) ∧
    (1 ≤ k → FlagsCopied k (start ι) ops →
      (v.cond.concreteCxt = false ↔ v.history.truncated = true)) := by
  intro v
  have hwindow : Window k v := run_windows (fun _ => Window.new k) ops i
  have hlongest : LongestSuffix k v.history.calls v.cond.context ↔
      v.history.lost = v.history.calls.length - k := by
    rw [hwindow.context]
    exact longestSuffix_drop hwindow.bounded hwindow.within
  refine ⟨⟨hwindow.context, ?_, hlongest, ?_⟩, ?_, ?_⟩
  · rw [hwindow.length]
    exact hwindow.bounded
  · intro hnever
    exact hlongest.2 (hwindow.full hnever)
  · intro ctx
    constructor
    · intro hmatches
      exact (matchContext_accepts hwindow ctx).2 (Or.inl hmatches)
    · intro haccepted hwhole
      rcases (matchContext_accepts hwindow ctx).1 haccepted with hmatches | hall
      · exact Or.inl hmatches
      · rw [hwindow.whole hwhole] at hall
        exact Or.inr (List.eq_nil_of_length_eq_zero hall.symm)
  · intro hk hcopied
    have hflag : Flagged v := run_flagged (fun _ => Window.new k) (fun _ => Flagged.new) hk hcopied i
    rw [Flagged] at hflag
    rw [hflag, Bool.not_eq_false']

theorem context_is_window_example :
    (run 2 (start Bool) [.push true 1, .push true 2, .copy false true, .push true 3] true).cond.concreteCxt =
      false :=
  ((context_is_window 2 [.push true 1, .push true 2, .copy false true, .push true 3] true).2.2
    (by decide) ⟨trivial, trivial, trivial, trivial, trivial⟩).2 (by decide)

/-- After a call was cut off, the context that is left by a return is too short; and a
return of an empty context is accepted, which the flag does not tell. -/
theorem short_window_after_return :
    (let v := run 2 (start Unit) [.push () 1, .push () 2, .push () 3, .ret () 3] ();
      v.history.calls = [1, 2] ∧ v.cond.context = [2] ∧ ¬LongestSuffix 2 v.history.calls v.cond.context) ∧
    (let v := run 2 (start Unit) [] ();
      v.history.truncated = false ∧ (v.cond.matchContext 7).2 = true ∧ ¬v.history.Matches 7 ∧
        (run 2 (start Unit) [.ret () 7] ()).cond.concreteCxt = true) := by
  refine ⟨⟨by decide, by decide, ?_⟩, by decide, by decide, by decide, by decide⟩
  rintro ⟨_, hmax⟩
  have hlong := hmax [1, 2] (List.suffix_refl _) (by decide)
  exact absurd hlong (by decide)

end

end SVF.Util.ContextConds
