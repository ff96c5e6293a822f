import Mathlib.Data.Set.Card
import Mathlib.Order.OrderIsoNat

namespace SVF.Util.Loops

open Relation

variable {σ : Type*}

/-- `while (guard s) s = body s`, where `none` is a body that faults or a loop
that has used up its fuel. -/
def whileLoop (guard : σ → Bool) (body : σ → Option σ) : ℕ → σ → Option σ
  | 0, s => if guard s then none else some s
  | fuel + 1, s => if guard s then (body s).bind (whileLoop guard body fuel) else some s

variable {guard : σ → Bool} {body : σ → Option σ} {R : σ → σ → Prop}

theorem whileLoop_run (hbody : ∀ s t, guard s = true → body s = some t → R s t) {fuel : ℕ} {s t : σ}
    (h : whileLoop guard body fuel s = some t) : ReflTransGen R s t ∧ guard t = false := by
  induction fuel generalizing s with
  | zero =>
      rw [whileLoop] at h
      split at h
      · contradiction
      · rename_i hg
        cases h
        exact ⟨.refl, by simpa using hg⟩
  | succ fuel ih =>
      rw [whileLoop] at h
      split at h
      · rename_i hg
        obtain ⟨u, hu, ht⟩ := Option.bind_eq_some_iff.mp h
        obtain ⟨hrun, hend⟩ := ih ht
        exact ⟨.head (hbody s u hg hu) hrun, hend⟩
      · rename_i hg
        cases h
        exact ⟨.refl, by simpa using hg⟩

/-- Total correctness: `I` is the invariant and `m` the variant of the loop. -/
theorem whileLoop_terminates (guard : σ → Bool) {I : σ → Prop} {m : σ → ℕ}
    (hbody : ∀ s, I s → guard s = true → ∃ t, body s = some t ∧ I t ∧ m t < m s) {fuel : ℕ} {s : σ}
    (hs : I s) (hm : m s ≤ fuel) : ∃ t, whileLoop guard body fuel s = some t ∧ I t ∧ guard t = false := by
  induction fuel generalizing s with
  | zero =>
      have hguard : guard s = false := by
        by_contra hg
        obtain ⟨t, -, -, hlt⟩ := hbody s hs (by simpa using hg)
        omega
      exact ⟨s, by simp [whileLoop, hguard], hs, hguard⟩
  | succ fuel ih =>
      rw [whileLoop]
      by_cases hg : guard s = true
      · obtain ⟨t, hstep, ht, hlt⟩ := hbody s hs hg
        rw [if_pos hg, hstep, Option.bind_some]
        exact ih ht (by omega)
      · rw [if_neg hg]
        exact ⟨s, rfl, hs, by simpa using hg⟩

/-- Steps that keep `I` and make the variant `m` smaller have no infinite run. -/
theorem no_infinite_run_of_lt {W : Type*} [Preorder W] [WellFoundedLT W] {I : σ → Prop} {m : σ → W}
    (hstep : ∀ s t, I s → R s t → I t ∧ m t < m s) {s : σ} (hs : I s) :
    ¬ ∃ run : ℕ → σ, run 0 = s ∧ ∀ n, R (run n) (run (n + 1)) := by
  rintro ⟨run, rfl, hrun⟩
  have hI : ∀ n, I (run n) := by
    intro n
    induction n with
    | zero => exact hs
    | succ n ih => exact (hstep _ _ ih (hrun n)).1
  exact not_strictAnti_of_wellFoundedLT (fun n => m (run n))
    (strictAnti_nat_of_succ_lt fun n => (hstep _ _ (hI n) (hrun n)).2)

/-- Such steps lead to an end, where there is a step from every other state. -/
theorem exists_end_of_lt {W : Type*} [Preorder W] [WellFoundedLT W] {I E : σ → Prop} {m : σ → W}
    (hstep : ∀ s t, I s → R s t → I t ∧ m t < m s) (hprogress : ∀ s, I s → E s ∨ ∃ t, R s t) {s : σ}
    (hs : I s) : ∃ t, ReflTransGen R s t ∧ E t := by
  induction hm : m s using WellFoundedLT.induction generalizing s with
  | ind w ih =>
      subst hm
      rcases hprogress s hs with hend | ⟨t, hst⟩
      · exact ⟨s, .refl, hend⟩
      · obtain ⟨ht, hlt⟩ := hstep s t hs hst
        obtain ⟨u, hrun, hend⟩ := ih (m t) hlt ht rfl
        exact ⟨u, .head hst hrun, hend⟩

theorem encard_changes_le {m : σ → ℕ} {run : ℕ → σ}
    (hstep : ∀ n, run (n + 1) = run n ∨ m (run (n + 1)) < m (run n)) :
    {n | run (n + 1) ≠ run n}.encard ≤ m (run 0) := by
  have hanti : Antitone fun n => m (run n) := by
    apply antitone_nat_of_succ_le
    intro n
    rcases hstep n with h | h
    · exact (congrArg m h).le
    · exact h.le
  have hlt : ∀ n ∈ {n | run (n + 1) ≠ run n}, m (run (n + 1)) < m (run n) := fun n hn => (hstep n).resolve_left hn
  have hstrict : StrictAntiOn (fun n => m (run (n + 1))) {n | run (n + 1) ≠ run n} := by
    intro n _ n' hn' hnn'
    exact (hlt n' hn').trans_le (hanti hnn')
  have hmaps : Set.MapsTo (fun n => m (run (n + 1))) {n | run (n + 1) ≠ run n} (Finset.range (m (run 0))) := by
    intro n hn
    simpa using (hlt n hn).trans_le (hanti (Nat.zero_le n))
  have hle := Set.encard_le_encard_of_injOn hmaps hstrict.injOn
  rwa [Set.encard_coe_eq_coe_finsetCard, Finset.card_range] at hle

/-- A loop whose body can always be executed ends when its steps have no infinite run. -/
theorem exists_whileLoop (hbody : ∀ s t, guard s = true → body s = some t → R s t) {s : σ}
    (hprogress : ∀ u, ReflTransGen R s u → guard u = true → ∃ v, body u = some v)
    (hfin : ¬ ∃ run : ℕ → σ, run 0 = s ∧ ∀ n, R (run n) (run (n + 1))) :
    ∃ fuel t, whileLoop guard body fuel s = some t := by
  by_contra hnone
  apply hfin
  have hstuck : ∀ u, (∀ fuel, whileLoop guard body fuel u = none) → ReflTransGen R s u →
      ∃ v, R u v ∧ (∀ fuel, whileLoop guard body fuel v = none) ∧ ReflTransGen R s v := by
    intro u hu hreach
    have hg : guard u = true := by
      have h0 := hu 0
      rw [whileLoop] at h0
      by_contra hg
      simp [hg] at h0
    obtain ⟨v, hv⟩ := hprogress u hreach hg
    refine ⟨v, hbody u v hg hv, fun fuel => ?_, hreach.tail (hbody u v hg hv)⟩
    have hs := hu (fuel + 1)
    rwa [whileLoop, if_pos hg, hv, Option.bind_some] at hs
  have hstart : ∀ fuel, whileLoop guard body fuel s = none := by
    intro fuel
    by_contra hf
    obtain ⟨t, ht⟩ := Option.ne_none_iff_exists'.mp hf
    exact hnone ⟨fuel, t, ht⟩
  let Stuck := {u // (∀ fuel, whileLoop guard body fuel u = none) ∧ ReflTransGen R s u}
  have hnext : ∀ u : Stuck, ∃ v : Stuck, R u.1 v.1 := by
    rintro ⟨u, hu, hreach⟩
    obtain ⟨v, hR, hv, hvr⟩ := hstuck u hu hreach
    exact ⟨⟨v, hv, hvr⟩, hR⟩
  choose next hR using hnext
  refine ⟨fun n => (next^[n] ⟨s, hstart, .refl⟩).1, rfl, fun n => ?_⟩
  simp only [Function.iterate_succ_apply']
  exact hR _

end SVF.Util.Loops

namespace SVF.Util.Traces

variable {S T I R : Type*}

def trace (step : S → I → R × S) : S → List I → List (R × S)
  | _, [] => []
  | s, i :: is => step s i :: trace step (step s i).2 is

def Along (step : S → I → R × S) (p : S → I → Prop) : S → List I → Prop
  | _, [] => True
  | s, i :: is => p s i ∧ Along step p (step s i).2 is

variable {step : S → I → R × S} {step' : T → I → R × T} {abs : S → T} {p q : S → I → Prop}

theorem along_congr (h : ∀ s i, p s i ↔ q s i) (s : S) (is : List I) :
    Along step p s is ↔ Along step q s is := by
  induction is generalizing s with
  | nil => exact Iff.rfl
  | cons i is ih => exact and_congr (h s i) (ih _)

/-- The run of one machine is the run of another one when each of its steps is. -/
theorem trace_eq_iff (s : S) (is : List I) :
    (trace step s is).map (Prod.map id abs) = trace step' (abs s) is ↔
      Along step (fun s i => Prod.map id abs (step s i) = step' (abs s) i) s is := by
  induction is generalizing s with
  | nil => exact iff_of_true rfl trivial
  | cons i is ih =>
      rw [trace, trace, List.map_cons, List.cons_eq_cons, Along]
      apply and_congr_right
      intro hstep
      rw [← ih, ← hstep]
      rfl

end SVF.Util.Traces
