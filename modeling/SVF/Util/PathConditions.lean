import Mathlib.Data.Set.Basic
import Mathlib.Order.Heyting.Basic

namespace SVF.Util.PathConditions

variable {V C : Type*} [HeytingAlgebra C] {succs : V → List V} {cond : V → V → C}

/-- `c` is the conjunction of the conditions along a path from the first node to the second. -/
inductive PathCond (succs : V → List V) (cond : V → V → C) : V → V → C → Prop
  | nil (v : V) : PathCond succs cond v v ⊤
  | cons {u w v : V} {c : C} (hw : w ∈ succs u) (hpath : PathCond succs cond w v c) :
      PathCond succs cond u v (cond u w ⊓ c)

theorem PathCond.append {u w v : V} {c d : C} (h : PathCond succs cond u w c)
    (h' : PathCond succs cond w v d) : PathCond succs cond u v (c ⊓ d) := by
  induction h with
  | nil => rwa [top_inf_eq]
  | cons hw _ ih =>
      rw [inf_assoc]
      exact .cons hw (ih h')

theorem PathCond.snoc {u w v : V} {c : C} (h : PathCond succs cond u w c) (hv : v ∈ succs w) :
    PathCond succs cond u v (c ⊓ cond w v) := by
  have hlast := h.append (.cons hv (.nil v))
  rwa [inf_top_eq] at hlast

/-- What is stored for a node is no weaker than the paths to it make it. -/
def Justified (succs : V → List V) (cond : V → V → C) (src : V) (val : V → C) : Prop :=
  ∀ v u, (∀ c, PathCond succs cond src v c → c ≤ u) → val v ≤ u

variable {src : V} {val : V → C}

theorem Justified.update [DecidableEq V] (h : Justified succs cond src val) {u v : V} {x : C}
    (hx : x ≤ val u) (hv : v ∈ succs u) :
    Justified succs cond src (Function.update val v (val v ⊔ x ⊓ cond u v)) := by
  intro w b hb
  by_cases hw : w = v
  · subst hw
    rw [Function.update_self]
    apply sup_le (h w b hb)
    rw [← le_himp_iff]
    apply hx.trans (h u _ _)
    intro c hc
    rw [le_himp_iff]
    exact hb _ (hc.snoc hv)
  · rw [Function.update_of_ne hw]
    exact h w b hb

theorem Justified.path_le (h : Justified succs cond src val) {w v : V} {b d : C}
    (hd : PathCond succs cond w v d) (hb : ∀ c, PathCond succs cond src v c → c ≤ b) :
    val w ⊓ d ≤ b := by
  rw [← le_himp_iff]
  apply h w
  intro c hc
  rw [le_himp_iff]
  exact hb _ (hc.append hd)

/-- A path is covered at its end, unless it goes through a node that is still pending. -/
theorem path_le_or_pending {pending : V → Prop}
    (hclosed : ∀ u, pending u ∨ ∀ w ∈ succs u, val u ⊓ cond u w ≤ val w) {u v : V} {c : C}
    (h : PathCond succs cond u v c) : val u ⊓ c ≤ val v ∨
      ∃ w, pending w ∧ ∃ d, PathCond succs cond w v d ∧ val u ⊓ c ≤ val w ⊓ d := by
  induction h with
  | nil => exact .inl inf_le_left
  | cons hw hpath ih =>
      rename_i u w v c
      rcases hclosed u with hpending | hall
      · exact .inr ⟨u, hpending, _, .cons hw hpath, le_rfl⟩
      · have hle : val u ⊓ (cond u w ⊓ c) ≤ val w ⊓ c := by
          rw [← inf_assoc]
          exact inf_le_inf_right c (hall w hw)
        rcases ih with hend | ⟨x, hx, d, hd, hle'⟩
        · exact .inl (hle.trans hend)
        · exact .inr ⟨x, hx, d, hd, hle.trans hle'⟩

end SVF.Util.PathConditions

namespace SVF.Util.Propagation

open Relation

abbrev Edges (K A : Type*) := K → Set (K × Set A)

/-- The points that have been found at each node, and the nodes that are still to be visited. -/
structure Marking (K A : Type*) where
  val : K → Set A
  pending : Set K

variable {K A : Type*} {edges : Edges K A} {m m' : Marking K A} {n : K} {c : Set A}

def Reach (edges : Edges K A) (a : A) : K → K → Prop :=
  ReflTransGen fun u w => ∃ g, (w, g) ∈ edges u ∧ a ∈ g

def Passed (edges : Edges K A) (m : Marking K A) (u : K) : Prop :=
  ∀ p ∈ edges u, m.val u ∩ p.2 ⊆ m.val p.1

def Closed (edges : Edges K A) (m : Marking K A) : Prop := ∀ u, u ∈ m.pending ∨ Passed edges m u

theorem Closed.reach (h : Closed edges m) (hpending : m.pending = ∅) {a : A} {u v : K}
    (ha : a ∈ m.val u) (hreach : Reach edges a u v) : a ∈ m.val v := by
  induction hreach with
  | refl => exact ha
  | tail _ hstep ih =>
      obtain ⟨g, hedge, hg⟩ := hstep
      rename_i u w _
      have hpassed := (h u).resolve_left fun hu => by simp [hpending] at hu
      exact hpassed _ hedge ⟨ih, hg⟩

/-- The points `c` have been passed along an edge; a node that has got more is pending. -/
structure Relaxed (c : Set A) (p : K × Set A) (m m' : Marking K A) : Prop where
  grows : ∀ u, m.val u ⊆ m'.val u
  added : c ∩ p.2 ⊆ m'.val p.1
  same : ∀ u, m'.val u = m.val u ∨ u ∈ m'.pending
  pending : m.pending ⊆ m'.pending

theorem Relaxed.mono {k : K} {g g' : Set A} (h : Relaxed c (k, g) m m') (hg : g' ⊆ g) :
    Relaxed c (k, g') m m' where
  grows := h.grows
  added := (Set.inter_subset_inter_right c hg).trans h.added
  same := h.same
  pending := h.pending

/-- The invariant while the edges out of `n` are relaxed with the points `c`, of which
`done` have been. -/
structure Visiting (edges : Edges K A) (n : K) (c : Set A) (done : Set (K × Set A))
    (m : Marking K A) : Prop where
  closed : ∀ u, u ≠ n → u ∈ m.pending ∨ Passed edges m u
  popped : m.val n = c ∨ n ∈ m.pending
  done : ∀ p ∈ done, c ∩ p.2 ⊆ m.val p.1

theorem Visiting.start {rest : Set K} (h : Closed edges m) (hrest : ∀ u ∈ m.pending, u ≠ n → u ∈ rest) :
    Visiting edges n (m.val n) ∅ { m with pending := rest } where
  closed := fun u hu => (h u).imp (fun hp => hrest u hp hu) id
  popped := .inl rfl
  done := fun p hp => absurd hp (Set.notMem_empty p)

theorem Visiting.relaxed {done : Set (K × Set A)} {p : K × Set A}
    (h : Visiting edges n c done m) (hrelax : Relaxed c p m m') :
    Visiting edges n c (insert p done) m' where
  closed := by
    intro u hu
    rcases hrelax.same u with hsame | hpending
    · refine (h.closed u hu).imp (fun hp => hrelax.pending hp) fun hpassed q hq => ?_
      rw [hsame]
      exact (hpassed q hq).trans (hrelax.grows q.1)
    · exact .inl hpending
  popped := by
    rcases hrelax.same n with hsame | hpending
    · exact h.popped.imp hsame.trans fun hp => hrelax.pending hp
    · exact .inr hpending
  done := by
    intro q hq
    rcases hq with rfl | hq
    · exact hrelax.added
    · exact (h.done q hq).trans (hrelax.grows q.1)

theorem Visiting.finish {done : Set (K × Set A)} (h : Visiting edges n c done m)
    (hall : edges n ⊆ done) : Closed edges m := by
  intro u
  by_cases hu : u = n
  · subst hu
    refine h.popped.symm.imp id fun hsame p hp => ?_
    rw [hsame]
    exact h.done p (hall hp)
  · exact h.closed u hu

/-- Nothing has been found at a node that cannot get there. -/
def Supported (edges : Edges K A) (src : K) (m : Marking K A) : Prop :=
  ∀ u, ∀ a ∈ m.val u, Reach edges a src u

theorem Supported.relax {src : K} {p : K × Set A} (h : Supported edges src m)
    (hp : p ∈ edges n) (hc : ∀ a ∈ c, Reach edges a src n)
    (hexact : ∀ u, u ≠ p.1 → m'.val u = m.val u)
    (hle : m'.val p.1 ⊆ m.val p.1 ∪ c ∩ p.2) : Supported edges src m' := by
  intro u a ha
  by_cases hu : u = p.1
  · rw [hu] at ha ⊢
    rcases hle ha with hold | ⟨hac, hg⟩
    · exact h p.1 a hold
    · exact (hc a hac).tail ⟨p.2, hp, hg⟩
  · rw [hexact u hu] at ha
    exact h u a ha

end SVF.Util.Propagation
