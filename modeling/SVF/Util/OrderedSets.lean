import Mathlib.Data.List.Pairwise
import Mathlib.Data.Prod.Lex
import Mathlib.Data.Set.Basic

namespace SVF.Util.OrderedSets

variable {α κ : Type*} [LinearOrder κ] {key : α → κ}

/-- A set ordered by a key of its elements. Two elements with one key are the
same to the set, whatever else they hold. -/
structure OrderedSet (key : α → κ) where
  elems : List α
  sorted : elems.Pairwise (fun a b => key a < key b)

instance : Membership α (OrderedSet key) := ⟨fun s a => a ∈ s.elems⟩

instance [DecidableEq α] (a : α) (s : OrderedSet key) : Decidable (a ∈ s) :=
  inferInstanceAs (Decidable (a ∈ s.elems))

theorem mem_elems (s : OrderedSet key) (a : α) : a ∈ s.elems ↔ a ∈ s := Iff.rfl

theorem eq_of_key_eq {s : OrderedSet key} {a b : α} (ha : a ∈ s) (hb : b ∈ s)
    (h : key a = key b) : a = b := by
  have : Std.Symm (fun a b : α => key a = key b → a = b) := ⟨fun a b hab he => (hab he.symm).symm⟩
  have hall := s.sorted.imp (S := fun a b => key a = key b → a = b) (fun hlt he => absurd he hlt.ne)
  exact hall.forall_of_forall (fun a _ _ => rfl) ha hb h

def insertSorted (key : α → κ) (a : α) : List α → List α
  | [] => [a]
  | b :: l => if key a < key b then a :: b :: l
      else if key b < key a then b :: insertSorted key a l else b :: l

theorem mem_of_mem_insertSorted {a b : α} {l : List α} (h : b ∈ insertSorted key a l) :
    b = a ∨ b ∈ l := by
  induction l with
  | nil => exact .inl (by simpa [insertSorted] using h)
  | cons c l ih =>
      rw [insertSorted] at h
      split at h
      · simpa using h
      · split at h
        · rcases List.mem_cons.mp h with rfl | hl
          · exact .inr (by simp)
          · exact (ih hl).imp id (List.mem_cons_of_mem c)
        · exact .inr h

theorem insertSorted_sorted (a : α) {l : List α} (h : l.Pairwise (fun a b => key a < key b)) :
    (insertSorted key a l).Pairwise (fun a b => key a < key b) := by
  induction l with
  | nil => simp [insertSorted]
  | cons c l ih =>
      obtain ⟨hc, hl⟩ := List.pairwise_cons.mp h
      rw [insertSorted]
      split
      · rename_i hac
        refine List.pairwise_cons.mpr ⟨?_, h⟩
        intro b hb
        rcases List.mem_cons.mp hb with rfl | hb
        · exact hac
        · exact hac.trans (hc b hb)
      · split
        · rename_i hca
          refine List.pairwise_cons.mpr ⟨?_, ih hl⟩
          intro b hb
          rcases mem_of_mem_insertSorted hb with rfl | hb
          · exact hca
          · exact hc b hb
        · exact h

theorem mem_insertSorted (a b : α) {l : List α} (h : l.Pairwise (fun a b => key a < key b)) :
    b ∈ insertSorted key a l ↔ b ∈ l ∨ b = a ∧ ∀ c ∈ l, key c ≠ key a := by
  induction l with
  | nil => simp [insertSorted]
  | cons c l ih =>
      obtain ⟨hc, hl⟩ := List.pairwise_cons.mp h
      rw [insertSorted]
      split
      · rename_i hac
        have hnew : ∀ d ∈ c :: l, key d ≠ key a := by
          intro d hd
          rcases List.mem_cons.mp hd with rfl | hd
          · exact hac.ne'
          · exact (hac.trans (hc d hd)).ne'
        rw [List.mem_cons, or_comm]
        exact or_congr_right (iff_self_and.mpr fun _ => hnew)
      · split
        · rename_i hca
          rw [List.mem_cons, ih hl, List.mem_cons, or_assoc, List.forall_mem_cons]
          simp [hca.ne]
        · rename_i hac hca
          have heq : key c = key a := le_antisymm (not_lt.mp hac) (not_lt.mp hca)
          simp [heq]

namespace OrderedSet

def empty : OrderedSet key := ⟨[], List.Pairwise.nil⟩

instance : Inhabited (OrderedSet key) := ⟨empty⟩

def insert (s : OrderedSet key) (a : α) : OrderedSet key :=
  ⟨insertSorted key a s.elems, insertSorted_sorted a s.sorted⟩

def erase (s : OrderedSet key) (a : α) : OrderedSet key :=
  ⟨s.elems.filter (fun b => key b ≠ key a), s.sorted.filter _⟩

def contains (s : OrderedSet key) (k : κ) : Bool := s.elems.any (fun b => key b = k)

end OrderedSet

@[simp] theorem not_mem_empty (a : α) : a ∉ (OrderedSet.empty : OrderedSet key) :=
  List.not_mem_nil

theorem mem_insert (s : OrderedSet key) (a b : α) :
    b ∈ s.insert a ↔ b ∈ s ∨ b = a ∧ ∀ c ∈ s, key c ≠ key a := mem_insertSorted a b s.sorted

theorem mem_erase (s : OrderedSet key) (a b : α) : b ∈ s.erase a ↔ b ∈ s ∧ key b ≠ key a := by
  change b ∈ s.elems.filter _ ↔ _
  rw [List.mem_filter, decide_eq_true_eq, mem_elems]

theorem contains_iff (s : OrderedSet key) (k : κ) : s.contains k = true ↔ ∃ b ∈ s, key b = k := by
  simp [OrderedSet.contains, mem_elems]

theorem nodup_elems (s : OrderedSet key) : s.elems.Nodup :=
  s.sorted.imp (fun h he => h.ne (congrArg key he))

/-- What erasing the element `a` and inserting the element `b`, if any, leaves of a set. -/
def move (key : α → κ) (s : Set α) (a : α) (b : Option α) : Set α :=
  {x | x ∈ s ∧ x ≠ a ∨ b = some x ∧ ∀ y ∈ s, y ≠ a → key y ≠ key x}

def moveAll (key : α → κ) (s : Set α) (l : List α) (f : α → Option α) : Set α :=
  {x | x ∈ s ∧ x ∉ l ∨ ∃ a ∈ l, f a = some x ∧ ∀ y ∈ s, y ∉ l → key y ≠ key x}

/-- Elements with different keys go to elements with different keys, which no
element has that is still to be moved. -/
structure Movable (key : α → κ) (l : List α) (f : α → Option α) : Prop where
  nodup : l.Nodup
  apart : ∀ a ∈ l, ∀ b ∈ l, ∀ x, f a = some x → key x ≠ key b
  inj : ∀ a ∈ l, ∀ b ∈ l, ∀ x y, f a = some x → f b = some y → key x = key y → a = b

omit [LinearOrder κ] in
theorem Movable.tail {a : α} {l : List α} {f : α → Option α} (h : Movable key (a :: l) f) :
    Movable key l f where
  nodup := (List.nodup_cons.mp h.nodup).2
  apart := fun b hb c hc => h.apart b (List.mem_cons_of_mem a hb) c (List.mem_cons_of_mem a hc)
  inj := fun b hb c hc => h.inj b (List.mem_cons_of_mem a hb) c (List.mem_cons_of_mem a hc)

omit [LinearOrder κ] in
@[simp] theorem moveAll_nil (s : Set α) (f : α → Option α) : moveAll key s [] f = s := by
  simp [moveAll]

omit [LinearOrder κ] in
theorem moveAll_cons {a : α} {l : List α} {f : α → Option α} (s : Set α)
    (h : Movable key (a :: l) f) :
    moveAll key (move key s a (f a)) l f = moveAll key s (a :: l) f := by
  have ha := (List.nodup_cons.mp h.nodup).1
  have hfresh : ∀ x, f a = some x → x ∉ l := fun x hx hl =>
    h.apart a (by simp) x (List.mem_cons_of_mem a hl) x hx rfl
  ext x
  constructor
  · rintro (⟨⟨hx, hxa⟩ | ⟨hx, hkey⟩, hl⟩ | ⟨b, hb, hx, hkey⟩)
    · exact .inl ⟨hx, by simp [hxa, hl]⟩
    · refine .inr ⟨a, by simp, hx, fun y hy hyl => hkey y hy (fun he => hyl (by simp [he]))⟩
    · refine .inr ⟨b, List.mem_cons_of_mem a hb, hx, fun y hy hyl => ?_⟩
      rw [List.mem_cons, not_or] at hyl
      exact hkey y (.inl ⟨hy, hyl.1⟩) hyl.2
  · rintro (⟨hx, hl⟩ | ⟨b, hb, hx, hkey⟩)
    · rw [List.mem_cons, not_or] at hl
      exact .inl ⟨.inl ⟨hx, hl.1⟩, hl.2⟩
    · have hother : ∀ y ∈ s, y ≠ a → y ∉ l → key y ≠ key x := fun y hy hya hyl =>
        hkey y hy (by simp [hya, hyl])
      rcases List.mem_cons.mp hb with rfl | hb
      · refine .inl ⟨.inr ⟨hx, fun y hy hya => ?_⟩, hfresh x hx⟩
        by_cases hyl : y ∈ l
        · exact (h.apart b (by simp) y (List.mem_cons_of_mem b hyl) x hx).symm
        · exact hother y hy hya hyl
      · refine .inr ⟨b, hb, hx, fun y hy hyl => ?_⟩
        rcases hy with ⟨hy, hya⟩ | ⟨hy, -⟩
        · exact hother y hy hya hyl
        · intro heq
          have hab := h.inj a (by simp) b (List.mem_cons_of_mem a hb) y x hy hx heq
          exact ha (hab ▸ hb)

end SVF.Util.OrderedSets
