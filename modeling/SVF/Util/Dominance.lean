import Mathlib.Data.List.Basic
import Mathlib.Logic.Relation

namespace SVF.Util.Dominance

variable {V : Type*} (E : V → V → Prop) (entry : V)

/-- A path from the entry to a node. The list holds the nodes before the last
one, the most recent first. -/
inductive Path : V → List V → Prop
  | start : Path entry []
  | step (a b : V) (p : List V) (ha : Path a p) (hab : E a b) : Path b (a :: p)

def Reachable (b : V) : Prop := ∃ p, Path E entry b p

def Dom (a b : V) : Prop := ∀ p, Path E entry b p → a ∈ b :: p

def SDom (a b : V) : Prop := Dom E entry a b ∧ a ≠ b

def IDom (a b : V) : Prop := SDom E entry a b ∧ ∀ c, SDom E entry c b → Dom E entry c a

/-- The dominance frontier: a predecessor of `y` is dominated, `y` is not strictly so. -/
def Frontier (b y : V) : Prop :=
  ∃ a, Reachable E entry a ∧ E a y ∧ Dom E entry b a ∧ ¬ SDom E entry b y

variable {E entry}

theorem Path.of_append {b x : V} {q r : List V} (h : Path E entry b (q ++ x :: r)) :
    Path E entry x r := by
  induction q generalizing b with
  | nil =>
      cases h with
      | step _ _ _ ha _ => exact ha
  | cons a q ih =>
      cases h with
      | step _ _ _ ha _ => exact ih ha

theorem Path.splice {b x : V} {q r r' : List V} (h : Path E entry b (q ++ x :: r))
    (hx : Path E entry x r') : Path E entry b (q ++ x :: r') := by
  induction q generalizing b with
  | nil =>
      cases h with
      | step _ _ _ _ hab => exact .step x b r' hx hab
  | cons a q ih =>
      cases h with
      | step _ _ _ ha hab => exact .step a b _ (ih ha) hab

theorem Path.reachable_of_mem {b x : V} {p : List V} (h : Path E entry b p) (hx : x ∈ b :: p) :
    Reachable E entry x := by
  rcases List.mem_cons.mp hx with rfl | hx
  · exact ⟨p, h⟩
  · obtain ⟨q, r, rfl⟩ := List.append_of_mem hx
    exact ⟨r, h.of_append⟩

theorem Reachable.step {a b : V} (h : Reachable E entry a) (hab : E a b) :
    Reachable E entry b := by
  obtain ⟨p, hp⟩ := h
  exact ⟨a :: p, .step a b p hp hab⟩

theorem dom_refl (a : V) : Dom E entry a a := fun _ _ => List.mem_cons_self

theorem dom_trans {a b c : V} (hab : Dom E entry a b) (hbc : Dom E entry b c) :
    Dom E entry a c := by
  intro p hp
  rcases List.mem_cons.mp (hbc p hp) with rfl | hb
  · exact hab p hp
  · obtain ⟨q, r, rfl⟩ := List.append_of_mem hb
    have ha := hab r hp.of_append
    exact List.mem_cons_of_mem c (List.mem_append_right q ha)

theorem dom_antisymm {a b : V} (hab : Dom E entry a b) (hba : Dom E entry b a)
    (ha : Reachable E entry a) : a = b := by
  obtain ⟨p, hp⟩ := ha
  -- a path to `a` without a shorter one to `a` on it
  induction hn : p.length using Nat.strongRecOn generalizing p with
  | ind n ih =>
      subst hn
      rcases List.mem_cons.mp (hba p hp) with h | hb
      · exact h.symm
      · obtain ⟨q, r, rfl⟩ := List.append_of_mem hb
        rcases List.mem_cons.mp (hab r hp.of_append) with h | ha
        · exact h
        · obtain ⟨q', r', rfl⟩ := List.append_of_mem ha
          refine ih r'.length ?_ r' hp.of_append.of_append rfl
          simp only [List.length_append, List.length_cons]
          omega

theorem exists_path_avoiding {a b : V} (h : ¬ Dom E entry a b) :
    ∃ p, Path E entry b p ∧ a ∉ b :: p := by
  simpa only [Dom, not_forall, exists_prop] using h

theorem exists_last {P : V → Prop} {l : List V} (h : ∃ x ∈ l, P x) :
    ∃ q x r, l = q ++ x :: r ∧ P x ∧ ∀ y ∈ q, ¬ P y := by
  induction l with
  | nil =>
      obtain ⟨x, hx, -⟩ := h
      exact absurd hx List.not_mem_nil
  | cons a l ih =>
      by_cases ha : P a
      · exact ⟨[], a, l, rfl, ha, fun _ hy => absurd hy List.not_mem_nil⟩
      · obtain ⟨x, hx, hP⟩ := h
        have hl : x ∈ l := (List.mem_cons.mp hx).resolve_left (fun heq => ha (heq ▸ hP))
        obtain ⟨q, y, r, rfl, hy, hq⟩ := ih ⟨x, hl, hP⟩
        refine ⟨a :: q, y, r, rfl, hy, fun z hz => ?_⟩
        rcases List.mem_cons.mp hz with rfl | hz
        · exact ha
        · exact hq z hz

theorem dom_total {a b y : V} (ha : Dom E entry a y) (hb : Dom E entry b y)
    (hy : Reachable E entry y) : Dom E entry a b ∨ Dom E entry b a := by
  obtain ⟨p, hp⟩ := hy
  obtain ⟨q, x, r, hl, hx, hq⟩ := exists_last (P := fun x => x = a ∨ x = b) ⟨a, ha p hp, .inl rfl⟩
  have havoid : ∀ c, c ∉ q → Dom E entry c y → Dom E entry c x := by
    intro c hc hcy
    by_contra hcx
    obtain ⟨r', hr', hcr⟩ := exists_path_avoiding hcx
    cases q with
    | nil =>
        cases hl
        exact hcx hcy
    | cons z q =>
        cases hl
        have hmem := hcy _ (hp.splice hr')
        rw [← List.cons_append] at hmem
        exact (List.mem_append.mp hmem).elim hc hcr
  rcases hx with rfl | rfl
  · exact .inr (havoid b (fun hbq => hq b hbq (.inr rfl)) hb)
  · exact .inl (havoid a (fun haq => hq a haq (.inl rfl)) ha)

theorem sdom_of_dom_of_sdom {a b c : V} (hab : Dom E entry a b) (hbc : SDom E entry b c)
    (hb : Reachable E entry b) : SDom E entry a c := by
  refine ⟨dom_trans hab hbc.1, ?_⟩
  rintro rfl
  exact hbc.2 (dom_antisymm hbc.1 hab hb)

theorem dom_entry (b : V) : Dom E entry entry b := by
  intro p hp
  induction hp with
  | start => exact List.mem_cons_self
  | step a b p _ _ ih => exact List.mem_cons_of_mem b ih

open Relation (ReflTransGen) in
/-- A tree that gives each node but the entry a strict dominator spans the graph. -/
theorem descendant_of_sdom {C : V → V → Prop}
    (hC : ∀ c, Reachable E entry c → c ≠ entry → ∃ b, C b c ∧ SDom E entry b c) {c : V}
    (hc : Reachable E entry c) : ReflTransGen C entry c := by
  obtain ⟨p, hp⟩ := hc
  -- the dominator has a shorter path
  induction hn : p.length using Nat.strongRecOn generalizing c p with
  | ind n ih =>
      subst hn
      by_cases hentry : c = entry
      · rw [hentry]
      · obtain ⟨b, hbc, hdom, hne⟩ := hC c ⟨p, hp⟩ hentry
        have hb : b ∈ p := (List.mem_cons.mp (hdom p hp)).resolve_left hne
        obtain ⟨q, r, rfl⟩ := List.append_of_mem hb
        refine .tail (ih r.length ?_ r hp.of_append rfl) hbc
        rw [List.length_append, List.length_cons]
        omega

/-- Siblings of the dominator tree dominate no common node. -/
theorem idom_siblings {a b b' y : V} (h : IDom E entry a b) (h' : IDom E entry a b')
    (hy : Reachable E entry y) (hb : Dom E entry b y) (hb' : Dom E entry b' y)
    (hr : Reachable E entry b) (hr' : Reachable E entry b') : b = b' := by
  have hsub : ∀ {c d}, IDom E entry a c → IDom E entry a d → Reachable E entry c →
      Dom E entry c d → c = d := by
    intro c d hc hd hrc hcd
    by_contra hne
    have hca := hd.2 c ⟨hcd, hne⟩
    exact hc.1.2 (dom_antisymm hca hc.1.1 hrc).symm
  rcases dom_total hb hb' hy with hdom | hdom
  · exact hsub h h' hr hdom
  · exact (hsub h' h hr' hdom).symm

/-- On the way from `z` to a node it does not strictly dominate, its frontier is met. -/
theorem Path.exists_frontier {y z : V} {q r : List V} (h : Path E entry y (q ++ z :: r))
    (hz : ¬ SDom E entry z y) : ∃ w ∈ y :: q, Frontier E entry z w := by
  induction q generalizing y with
  | nil =>
      cases h with
      | step _ _ _ ha hab => exact ⟨y, List.mem_cons_self, z, ⟨r, ha⟩, hab, dom_refl z, hz⟩
  | cons a q ih =>
      cases h with
      | step _ _ _ ha hab =>
          by_cases hza : SDom E entry z a
          · exact ⟨y, List.mem_cons_self, a, ⟨_, ha⟩, hab, hza.1, hz⟩
          · obtain ⟨w, hw, hfrontier⟩ := ih ha hza
            exact ⟨w, List.mem_cons_of_mem y hw, hfrontier⟩

section

-- `P`: the joins that have been given a definition, `S`: all definitions
variable {S P : V → Prop} (hP : ∀ y, P y → S y)
  (hclosed : ∀ z y, Reachable E entry z → S z → Frontier E entry z y → P y)

include hP hclosed

theorem not_defined_of_not_sdom {y : V} {q r : List V} (hy : ¬ P y)
    (h : Path E entry y (q ++ r)) (hq : ∀ z ∈ q, ¬ SDom E entry z y) : ∀ z ∈ q, ¬ S z := by
  intro z hz hS
  obtain ⟨q₁, x, q₂, rfl, hx, hq₁⟩ := exists_last (P := S) ⟨z, hz, hS⟩
  rw [List.append_assoc, List.cons_append] at h
  have hreach : Reachable E entry x := ⟨_, h.of_append⟩
  obtain ⟨w, hw, hfrontier⟩ := h.exists_frontier (hq x (by simp))
  have hPw := hclosed x w hreach hx hfrontier
  rcases List.mem_cons.mp hw with rfl | hw
  · exact hy hPw
  · exact hq₁ w hw (hP w hPw)

/-- At the entry nothing is defined before, unless there is a join. -/
theorem not_defined_entry (hentry : ¬ P entry) {p : List V} (h : Path E entry entry p) :
    ∀ z ∈ p, ¬ S z := by
  have hempty : p ++ [] = p := List.append_nil p
  refine not_defined_of_not_sdom hP hclosed hentry (hempty ▸ h) (fun z _ hz => hz.2 ?_)
  simpa using hz.1 [] .start

/-- Between a node and the last visit of its immediate dominator nothing is
defined, unless the node is a join. -/
theorem exists_idom_suffix {x y : V} (hxy : IDom E entry x y) (hy : ¬ P y) {p : List V}
    (h : Path E entry y p) :
    ∃ q r, p = q ++ x :: r ∧ Path E entry x r ∧ ∀ z ∈ q, ¬ S z := by
  have hx : x ∈ p := (List.mem_cons.mp (hxy.1.1 p h)).resolve_left hxy.1.2
  obtain ⟨q, x', r, rfl, rfl, hq⟩ := exists_last (P := (· = x)) ⟨x, hx, rfl⟩
  refine ⟨q, r, rfl, h.of_append, not_defined_of_not_sdom hP hclosed hy h (fun z hz hsdom => ?_)⟩
  have hreach : Reachable E entry x' := ⟨r, h.of_append⟩
  have hzx : Dom E entry z x' := hxy.2 z hsdom
  have hne : z ≠ x' := hq z hz
  have hxz : ¬ Dom E entry x' z := fun hxz => hne (dom_antisymm hxz hzx hreach).symm
  obtain ⟨r', hr', havoid⟩ := exists_path_avoiding hxz
  obtain ⟨q₁, q₂, rfl⟩ := List.append_of_mem hz
  rw [List.append_assoc, List.cons_append] at h
  have hmem := hxy.1.1 _ (h.splice hr')
  rcases List.mem_cons.mp hmem with heq | hmem
  · exact hxy.1.2 heq
  · rcases List.mem_append.mp hmem with hmem | hmem
    · exact hq x' (by simp [hmem]) rfl
    · exact havoid hmem

end

end SVF.Util.Dominance
