import Mathlib.Data.Finset.Card

namespace SVF.Util.Numberings

/-- Two maps that are filled together and in which an entry, once there, stays. -/
structure Numbering (ι α : Type*) where
  value : ι → Option α
  number : α → Option ι
  number_isSome : ∀ i a, value i = some a → (number a).isSome
  value_isSome : ∀ i a, number a = some i → (value i).isSome

namespace Numbering

variable {ι α : Type*}

def empty : Numbering ι α := ⟨fun _ => none, fun _ => none, by simp, by simp⟩

def Inverse (m : Numbering ι α) : Prop := ∀ i a, m.value i = some a ↔ m.number a = some i

theorem inverse_empty : (empty : Numbering ι α).Inverse := fun _ _ => by simp [empty]

variable [DecidableEq ι] [DecidableEq α]

def insertNew {κ β : Type*} [DecidableEq κ] (f : κ → Option β) (k : κ) (b : β) (j : κ) : Option β :=
  if j = k then some ((f k).getD b) else f j

theorem insertNew_self {κ β : Type*} [DecidableEq κ] (f : κ → Option β) (k : κ) (b : β) :
    insertNew f k b k = some ((f k).getD b) := if_pos rfl

theorem insertNew_of_some {κ β : Type*} [DecidableEq κ] {f : κ → Option β} {j : κ} {c : β}
    (h : f j = some c) (k : κ) (b : β) : insertNew f k b j = some c := by
  rw [insertNew]
  split
  · rename_i hj
    rw [← hj, h, Option.getD_some]
  · exact h

theorem insertNew_isSome {κ β : Type*} [DecidableEq κ] {f : κ → Option β} {k j : κ} {b : β} :
    (insertNew f k b j).isSome = true ↔ j = k ∨ (f j).isSome = true := by
  rw [insertNew]
  split <;> simp_all

def insert (m : Numbering ι α) (i : ι) (a : α) : Numbering ι α where
  value := insertNew m.value i a
  number := insertNew m.number a i
  number_isSome := by
    intro j b hj
    rw [insertNew_isSome]
    rw [insertNew] at hj
    split at hj
    · cases hi : m.value i with
      | none =>
          rw [hi] at hj
          exact .inl (Option.some.inj hj).symm
      | some c =>
          rw [hi] at hj
          exact .inr ((Option.some.inj hj) ▸ m.number_isSome i c hi)
    · exact .inr (m.number_isSome j b hj)
  value_isSome := by
    intro j b hb
    rw [insertNew_isSome]
    rw [insertNew] at hb
    split at hb
    · cases ha : m.number a with
      | none =>
          rw [ha] at hb
          exact .inl (Option.some.inj hb).symm
      | some k =>
          rw [ha] at hb
          exact .inr ((Option.some.inj hb) ▸ m.value_isSome k a ha)
    · exact .inr (m.value_isSome j b hb)

variable {m : Numbering ι α} {i j : ι} {a b : α}

theorem value_insert_of_some (h : m.value j = some b) : (m.insert i a).value j = some b :=
  insertNew_of_some h i a

theorem number_insert_of_some (h : m.number b = some j) : (m.insert i a).number b = some j :=
  insertNew_of_some h a i

theorem value_insert_self (h : m.value i = none) : (m.insert i a).value i = some a := by
  change insertNew m.value i a i = some a
  rw [insertNew_self, h, Option.getD_none]

theorem number_insert_self (h : m.number a = none) : (m.insert i a).number a = some i := by
  change insertNew m.number a i a = some i
  rw [insertNew_self, h, Option.getD_none]

theorem value_insert_eq_some (h : (m.insert i a).value j = some b) :
    m.value j = some b ∨ j = i ∧ b = a := by
  simp only [insert, insertNew] at h
  split at h
  · rename_i hj
    subst hj
    cases hi : m.value j with
    | none =>
        rw [hi] at h
        exact .inr ⟨rfl, (Option.some.inj h).symm⟩
    | some c =>
        rw [hi] at h
        exact .inl h
  · exact .inl h

theorem number_insert_eq_some (h : (m.insert i a).number b = some j) :
    m.number b = some j ∨ j = i ∧ b = a := by
  simp only [insert, insertNew] at h
  split at h
  · rename_i hb
    subst hb
    cases ha : m.number b with
    | none =>
        rw [ha] at h
        exact .inr ⟨(Option.some.inj h).symm, rfl⟩
    | some k =>
        rw [ha] at h
        exact .inl h
  · exact .inl h

/-- A numbering that is no inverse stays none, whatever is inserted. -/
theorem inverse_of_insert (h : (m.insert i a).Inverse) : m.Inverse := by
  intro j b
  constructor
  · intro hj
    obtain ⟨k, hk⟩ := Option.isSome_iff_exists.mp (m.number_isSome j b hj)
    have hnumber := (h j b).mp (value_insert_of_some hj)
    rw [number_insert_of_some hk] at hnumber
    exact hnumber ▸ hk
  · intro hb
    obtain ⟨c, hc⟩ := Option.isSome_iff_exists.mp (m.value_isSome j b hb)
    have hvalue := (h j b).mpr (number_insert_of_some hb)
    rw [value_insert_of_some hc] at hvalue
    exact hvalue ▸ hc

theorem Inverse.insert (h : m.Inverse) (hi : m.value i = none) (ha : m.number a = none) :
    (m.insert i a).Inverse := by
  intro j b
  constructor
  · intro hj
    rcases value_insert_eq_some hj with hj | ⟨rfl, rfl⟩
    · exact number_insert_of_some ((h j b).mp hj)
    · exact number_insert_self ha
  · intro hb
    rcases number_insert_eq_some hb with hb | ⟨rfl, rfl⟩
    · exact value_insert_of_some ((h j b).mpr hb)
    · exact value_insert_self hi

theorem not_inverse_insert (hi : m.value i = none) (ha : m.number a = some j) (hne : j ≠ i) :
    ¬ (m.insert i a).Inverse := by
  intro h
  have hnumber := (h i a).mp (value_insert_self hi)
  rw [number_insert_of_some ha] at hnumber
  exact hne (Option.some.inj hnumber)

omit [DecidableEq ι] [DecidableEq α] in
theorem Inverse.card_eq (h : m.Inverse) {T : Finset ι} {S : Finset α}
    (hT : ∀ i ∈ T, ∃ a ∈ S, m.value i = some a)
    (hS : ∀ a ∈ S, ∀ i, m.number a = some i → i ∈ T) :
    T.card = (S.filter fun a => (m.number a).isSome).card := by
  have hvalue : ∀ i ∈ T, (m.value i).isSome = true := fun i hi => by
    obtain ⟨a, -, ha⟩ := hT i hi
    exact ha ▸ rfl
  refine Finset.card_bij (fun i hi => (m.value i).get (hvalue i hi)) ?_ ?_ ?_
  · intro i hi
    obtain ⟨a, haS, ha⟩ := hT i hi
    simp only [ha, Option.get_some, Finset.mem_filter]
    exact ⟨haS, (h i a).mp ha ▸ rfl⟩
  · intro i hi j hj heq
    obtain ⟨a, -, ha⟩ := hT i hi
    obtain ⟨b, -, hb⟩ := hT j hj
    simp only [ha, hb, Option.get_some] at heq
    have hnumber := (h i a).mp ha
    rw [heq, (h j b).mp hb] at hnumber
    exact (Option.some.inj hnumber).symm
  · intro a ha
    obtain ⟨haS, hsome⟩ := Finset.mem_filter.mp ha
    obtain ⟨i, hi⟩ := Option.isSome_iff_exists.mp hsome
    refine ⟨i, hS a haS i hi, ?_⟩
    simp only [(h i a).mpr hi, Option.get_some]

end Numbering

end SVF.Util.Numberings
