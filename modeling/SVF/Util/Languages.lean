import Mathlib.Data.List.Basic
import Mathlib.Data.List.Flatten

namespace SVF.Util.Languages

variable {S : Type*}

inductive Generates (P : S → List S → Prop) (T : S → Prop) : List S → List S → Prop
  | nil : Generates P T [] []
  | terminal (a : S) (l w : List S) (ha : T a) (hl : Generates P T l w) :
      Generates P T (a :: l) (a :: w)
  | production (A : S) (r l u w : List S) (hA : P A r) (hr : Generates P T r u)
      (hl : Generates P T l w) : Generates P T (A :: l) (u ++ w)

variable {P P' : S → List S → Prop} {T : S → Prop}

theorem Generates.append {l l' w w' : List S} (h : Generates P T l w) (h' : Generates P T l' w') :
    Generates P T (l ++ l') (w ++ w') := by
  induction h with
  | nil => exact h'
  | terminal a l w ha _ ih => exact .terminal a (l ++ l') (w ++ w') ha ih
  | production A r l u w hA hr _ _ ih =>
      rw [List.append_assoc]
      exact .production A r (l ++ l') u (w ++ w') hA hr ih

theorem Generates.head {A : S} {r w : List S} (hA : P A r) (hr : Generates P T r w) :
    Generates P T [A] w := by
  have h := Generates.production A r [] w [] hA hr .nil
  rwa [List.append_nil] at h

theorem generates_cons {a : S} {l w : List S} (h : Generates P T (a :: l) w) :
    ∃ u v, Generates P T [a] u ∧ Generates P T l v ∧ w = u ++ v := by
  cases h with
  | terminal _ _ w ha hl => exact ⟨[a], w, .terminal a [] [] ha .nil, hl, rfl⟩
  | production _ r _ u w hA hr hl => exact ⟨u, w, hr.head hA, hl, rfl⟩

/-- Symbols may be read as sequences of another grammar: when every production
of `P` is sound for the reading, what `P` generates the reading generates. -/
theorem Generates.translate {μ : S → List S} (hT : ∀ a, T a → μ a = [a])
    (hP : ∀ A r, P A r → ∀ w, Generates P' T (r.flatMap μ) w → Generates P' T (μ A) w)
    {l w : List S} (h : Generates P T l w) : Generates P' T (l.flatMap μ) w := by
  induction h with
  | nil => exact .nil
  | terminal a l w ha _ ih =>
      rw [List.flatMap_cons, hT a ha]
      exact .terminal a _ w ha ih
  | production A r l u w hA _ _ ihr ihl =>
      rw [List.flatMap_cons]
      exact (hP A r hA u ihr).append ihl

theorem Generates.simulate
    (hP : ∀ A r, P A r → ∀ w, Generates P' T r w → Generates P' T [A] w)
    {l w : List S} (h : Generates P T l w) : Generates P' T l w := by
  have hid : ∀ r : List S, r.flatMap (fun a => [a]) = r := fun r => by simp
  have htranslated := h.translate (fun _ _ => rfl) fun A r hA w hw => hP A r hA w (hid r ▸ hw)
  rwa [hid] at htranslated

section

variable {V : Type*} {E : V → S → V → Prop} {node : V → Prop}

/-- A path whose edges spell the word; the empty word stands at the nodes. -/
inductive Spells (E : V → S → V → Prop) (node : V → Prop) : V → List S → V → Prop
  | nil (a : V) (ha : node a) : Spells E node a [] a
  | cons (a b c : V) (x : S) (w : List S) (edge : E a x b) (rest : Spells E node b w c) :
      Spells E node a (x :: w) c

theorem Spells.append {a b c : V} {u w : List S} (h : Spells E node a u b)
    (h' : Spells E node b w c) : Spells E node a (u ++ w) c := by
  induction h with
  | nil => exact h'
  | cons a b _ x u edge _ ih => exact .cons a b c x (u ++ w) edge (ih h')

theorem Spells.split {a c : V} {u w : List S} (hE : ∀ a x b, E a x b → node a)
    (h : Spells E node a (u ++ w) c) : ∃ b, Spells E node a u b ∧ Spells E node b w c := by
  induction u generalizing a with
  | nil =>
      refine ⟨a, .nil a ?_, h⟩
      cases h with
      | nil _ ha => exact ha
      | cons _ b _ x _ edge _ => exact hE a x b edge
  | cons x u ih =>
      cases h with
      | cons _ b _ _ _ edge rest =>
          obtain ⟨m, hu, hw⟩ := ih rest
          exact ⟨m, .cons a b m x u edge hu, hw⟩

end

end SVF.Util.Languages
