import SVF.Util.OrderedSets
import SVF.Util.Loops

namespace SVF.MemoryModel.CondStdSets

open Util.OrderedSets Util.Traces

structure CondVar (Cond : Type*) where
  m_cond : Cond
  m_id : BitVec 32
  deriving DecidableEq

variable {Cond Element V : Type*}

theorem CondVar.toLex_injective :
    Function.Injective fun v : CondVar Cond => toLex (v.m_id.toNat, v.m_cond) := by
  rintro ⟨c, i⟩ ⟨d, j⟩ h
  have hpair : (i.toNat, c) = (j.toNat, d) := h
  rw [Prod.mk.injEq, BitVec.toNat_inj] at hpair
  rw [CondVar.mk.injEq]
  exact hpair.symm

instance [LinearOrder Cond] : LinearOrder (CondVar Cond) :=
  LinearOrder.lift' (fun v => toLex (v.m_id.toNat, v.m_cond)) CondVar.toLex_injective

theorem CondVar.lt_iff [LinearOrder Cond] (v w : CondVar Cond) :
    v < w ↔ if v.m_id ≠ w.m_id then v.m_id < w.m_id else v.m_cond < w.m_cond := by
  have hlex : v < w ↔ toLex (v.m_id.toNat, v.m_cond) < toLex (w.m_id.toNat, w.m_cond) := Iff.rfl
  rw [hlex, Prod.Lex.toLex_lt_toLex, BitVec.toNat_inj, BitVec.lt_def]
  split
  · rename_i hne
    simp [hne]
  · rename_i heq
    rw [not_ne_iff] at heq
    simp [heq]

variable [LinearOrder Element]

structure CondStdSet (Element : Type*) [LinearOrder Element] where
  elements : OrderedSet (id : Element → Element)

namespace CondStdSet

def test_and_set (s : CondStdSet Element) (var : Element) : Bool × CondStdSet Element :=
  (!s.elements.contains var, ⟨s.elements.insert var⟩)

def test (s : CondStdSet Element) (var : Element) : Bool := s.elements.contains var

def set (s : CondStdSet Element) (var : Element) : CondStdSet Element := ⟨s.elements.insert var⟩

def reset (s : CondStdSet Element) (var : Element) : CondStdSet Element := ⟨s.elements.erase var⟩

def empty (s : CondStdSet Element) : Bool := s.elements.elems.isEmpty

def clear (_ : CondStdSet Element) : CondStdSet Element := ⟨.empty⟩

def ne (s rhs : CondStdSet Element) : Bool := s.elements.elems ≠ rhs.elements.elems

def eq (s rhs : CondStdSet Element) : Bool := ne s rhs == false

def assign (s rhs : CondStdSet Element) : CondStdSet Element := if ne s rhs then rhs else s

def orAssign (s rhs : CondStdSet Element) : Bool × CondStdSet Element :=
  if rhs.elements.elems.isEmpty || eq s rhs then (false, s)
  else
    let oldSize := s.elements.elems.length % 2 ^ 32
    let elements := rhs.elements.elems.foldl (fun elements i => elements.insert i) s.elements
    (oldSize ≠ elements.elems.length, ⟨elements⟩)

def andAssign (s rhs : CondStdSet Element) : Bool × CondStdSet Element :=
  if rhs.empty || eq s rhs then (false, s)
  else rhs.elements.elems.foldl (fun (changed, s) i =>
    if s.elements.contains i then (changed, s) else (true, ⟨s.elements.erase i⟩)) (false, s)

def intersects (s rhs : CondStdSet Element) : Bool :=
  if s.empty && rhs.empty then false else rhs.elements.elems.any fun i => s.elements.contains i

end CondStdSet

open CondStdSet

/-- An operation on the sets that variables hold; the two variables of an operation can be the same. -/
inductive Op (V Element : Type*) where
  | orAssign (i j : V)
  | andAssign (i j : V)
  | assign (i j : V)
  | test_and_set (i : V) (var : Element)
  | set (i : V) (var : Element)
  | reset (i : V) (var : Element)
  | clear (i : V)
  | intersects (i j : V)
  | eq (i j : V)
  | ne (i j : V)
  | test (i : V) (var : Element)
  | empty (i : V)

variable [DecidableEq V]

/-- The value of an operation that returns nothing is `none`. -/
def step (s : V → CondStdSet Element) : Op V Element → Option Bool × (V → CondStdSet Element)
  | .orAssign i j => (some (orAssign (s i) (s j)).1, Function.update s i (orAssign (s i) (s j)).2)
  | .andAssign i j => (some (andAssign (s i) (s j)).1, Function.update s i (andAssign (s i) (s j)).2)
  | .assign i j => (none, Function.update s i (assign (s i) (s j)))
  | .test_and_set i var => (some (test_and_set (s i) var).1, Function.update s i (test_and_set (s i) var).2)
  | .set i var => (none, Function.update s i (set (s i) var))
  | .reset i var => (none, Function.update s i (reset (s i) var))
  | .clear i => (none, Function.update s i (clear (s i)))
  | .intersects i j => (some (intersects (s i) (s j)), s)
  | .eq i j => (some (eq (s i) (s j)), s)
  | .ne i j => (some (ne (s i) (s j)), s)
  | .test i var => (some (test (s i) var), s)
  | .empty i => (some (empty (s i)), s)

/-- The operations of finite sets, each with whether it changes the set. -/
def setStep (s : V → Finset Element) : Op V Element → Option Bool × (V → Finset Element)
  | .orAssign i j => (some (s i ∪ s j ≠ s i), Function.update s i (s i ∪ s j))
  | .andAssign i j => (some (s i ∩ s j ≠ s i), Function.update s i (s i ∩ s j))
  | .assign i j => (none, Function.update s i (s j))
  | .test_and_set i var => (some (insert var (s i) ≠ s i), Function.update s i (insert var (s i)))
  | .set i var => (none, Function.update s i (insert var (s i)))
  | .reset i var => (none, Function.update s i ((s i).erase var))
  | .clear i => (none, Function.update s i ∅)
  | .intersects i j => (some ((s i ∩ s j) ≠ ∅), s)
  | .eq i j => (some (s i = s j), s)
  | .ne i j => (some (s i ≠ s j), s)
  | .test i var => (some (var ∈ s i), s)
  | .empty i => (some (s i = ∅), s)

def toFinset (s : CondStdSet Element) : Finset Element := s.elements.elems.toFinset

def toFinsets (s : V → CondStdSet Element) : V → Finset Element := fun i => toFinset (s i)

def Fits (s : V → CondStdSet Element) : Op V Element → Prop
  | .orAssign i j => (toFinset (s i)).card < 2 ^ 32 ∨ toFinset (s j) = ∅ ∨ toFinset (s i) = toFinset (s j) ∨
      ¬ toFinset (s j) ⊆ toFinset (s i)
  | .andAssign i j => toFinset (s i) = toFinset (s j)
  | _ => True

section

variable {s t : CondStdSet Element} {a b : Element}

theorem mem_toFinset : a ∈ toFinset s ↔ a ∈ s.elements := by
  rw [toFinset, List.mem_toFinset, mem_elems]

theorem contains_iff_mem : s.elements.contains a = true ↔ a ∈ toFinset s := by
  rw [contains_iff, mem_toFinset]
  simp

theorem card_toFinset (s : CondStdSet Element) : (toFinset s).card = s.elements.elems.length :=
  List.toFinset_card_of_nodup (nodup_elems s.elements)

theorem toFinset_inj : toFinset s = toFinset t ↔ s = t := by
  constructor
  · intro h
    have hperm : s.elements.elems.Perm t.elements.elems :=
      List.perm_of_nodup_nodup_toFinset_eq (nodup_elems _) (nodup_elems _) h
    have helems : s.elements.elems = t.elements.elems := by
      apply List.Perm.eq_of_pairwise _ s.elements.sorted t.elements.sorted hperm
      intro a b _ _ hab hba
      exact absurd hba hab.asymm
    obtain ⟨⟨l, hl⟩⟩ := s
    obtain ⟨⟨m, hm⟩⟩ := t
    congr 2
  · rintro rfl
    rfl

theorem ne_iff : ne s t = true ↔ toFinset s ≠ toFinset t := by
  rw [ne, decide_eq_true_eq, not_iff_not, toFinset_inj]
  constructor
  · intro h
    obtain ⟨⟨l, hl⟩⟩ := s
    obtain ⟨⟨m, hm⟩⟩ := t
    congr 2
  · rintro rfl
    rfl

theorem eq_iff : eq s t = true ↔ toFinset s = toFinset t := by
  rw [eq, beq_iff_eq, ← Bool.not_eq_true, ne_iff, not_not]

theorem empty_iff : empty s = true ↔ toFinset s = ∅ := by
  rw [empty, toFinset, List.isEmpty_iff, List.toFinset_eq_empty_iff]

theorem toFinset_insert (elements : OrderedSet (id : Element → Element)) (a : Element) :
    toFinset ⟨elements.insert a⟩ = Insert.insert a (toFinset ⟨elements⟩) := by
  ext b
  rw [Finset.mem_insert, mem_toFinset, mem_toFinset, mem_insert]
  constructor
  · rintro (hb | ⟨rfl, -⟩)
    · exact .inr hb
    · exact .inl rfl
  · rintro (rfl | hb)
    · by_cases hmem : b ∈ elements
      · exact .inl hmem
      · exact .inr ⟨rfl, fun c hc (he : c = b) => hmem (he ▸ hc)⟩
    · exact .inl hb

theorem toFinset_erase (elements : OrderedSet (id : Element → Element)) (a : Element) :
    toFinset ⟨elements.erase a⟩ = (toFinset ⟨elements⟩).erase a := by
  ext b
  rw [Finset.mem_erase, mem_toFinset, mem_toFinset, mem_erase, and_comm]
  rfl

theorem toFinset_insertAll (elements : OrderedSet (id : Element → Element)) (l : List Element) :
    toFinset ⟨l.foldl (fun elements i => elements.insert i) elements⟩ = toFinset ⟨elements⟩ ∪ l.toFinset := by
  induction l generalizing elements with
  | nil => simp
  | cons a l ih =>
      rw [List.foldl_cons, ih, toFinset_insert, List.toFinset_cons, Finset.insert_union, Finset.union_insert]

/-- The loop of the intersection erases only elements that are not there. -/
theorem foldl_andAssign (l : List Element) (changed : Bool) (s : CondStdSet Element) :
    l.foldl (fun (changed, s) i =>
      if s.elements.contains i then (changed, s) else (true, ⟨s.elements.erase i⟩)) (changed, s) =
    (changed || l.any (fun i => !s.elements.contains i), s) := by
  induction l generalizing changed with
  | nil => simp
  | cons a l ih =>
      rw [List.foldl_cons]
      dsimp only
      by_cases hmem : s.elements.contains a = true
      · rw [if_pos hmem, ih, List.any_cons, hmem]
        rfl
      · have herase : (⟨s.elements.erase a⟩ : CondStdSet Element) = s := by
          rw [← toFinset_inj, toFinset_erase]
          exact Finset.erase_eq_of_notMem (contains_iff_mem.not.mp hmem)
        rw [if_neg hmem, herase, ih, List.any_cons, (Bool.not_eq_true _).mp hmem]
        simp

theorem andAssign_snd (s t : CondStdSet Element) : (andAssign s t).2 = s := by
  unfold andAssign
  split
  · rfl
  · rw [foldl_andAssign]

theorem andAssign_fst_iff : (andAssign s t).1 = true ↔ ¬ toFinset t ⊆ toFinset s := by
  unfold andAssign
  split
  · rename_i h
    rw [Bool.or_eq_true, empty_iff, eq_iff] at h
    obtain h | h := h
    · simp [h]
    · simp [h]
  · rw [foldl_andAssign, Bool.false_or, List.any_eq_true, Finset.not_subset]
    simp only [Bool.not_eq_true', ← Bool.not_eq_true, contains_iff_mem, mem_elems, mem_toFinset]

theorem intersects_iff : intersects s t = true ↔ toFinset s ∩ toFinset t ≠ ∅ := by
  unfold intersects
  split
  · rename_i h
    rw [Bool.and_eq_true, empty_iff, empty_iff] at h
    simp [h.1]
  · rw [List.any_eq_true, ← Finset.nonempty_iff_ne_empty]
    simp only [contains_iff_mem, mem_elems, ← mem_toFinset, Finset.Nonempty, Finset.mem_inter, and_comm]

theorem orAssign_snd (s t : CondStdSet Element) : toFinset (orAssign s t).2 = toFinset s ∪ toFinset t := by
  unfold orAssign
  split
  · rename_i h
    rw [Bool.or_eq_true, eq_iff] at h
    obtain h | h := h
    · have hempty : toFinset t = ∅ := empty_iff.mp h
      rw [hempty, Finset.union_empty]
    · rw [h, Finset.union_self]
  · exact toFinset_insertAll _ _

theorem orAssign_fst_iff : ((orAssign s t).1 = true ↔ toFinset s ∪ toFinset t ≠ toFinset s) ↔
    (toFinset s).card < 2 ^ 32 ∨ toFinset t = ∅ ∨ toFinset s = toFinset t ∨ ¬ toFinset t ⊆ toFinset s := by
  unfold orAssign
  split
  · rename_i h
    have hempty : t.elements.elems.isEmpty = true ↔ toFinset t = ∅ := empty_iff
    rw [Bool.or_eq_true, eq_iff, hempty] at h
    have hsub : toFinset t ⊆ toFinset s := by
      obtain h | h := h
      · simp [h]
      · simp [h]
    apply iff_of_true
    · simp [Finset.union_eq_left.mpr hsub]
    · exact .inr (h.imp_right .inl)
  · rename_i h
    have hempty : t.elements.elems.isEmpty = true ↔ toFinset t = ∅ := empty_iff
    rw [Bool.or_eq_true, eq_iff, hempty, not_or] at h
    rw [or_iff_right h.1, or_iff_right h.2]
    have hnew := toFinset_insertAll s.elements t.elements.elems
    have hsize := card_toFinset ⟨t.elements.elems.foldl (fun elements i => elements.insert i) s.elements⟩
    rw [hnew] at hsize
    change (toFinset s ∪ toFinset t).card = _ at hsize
    dsimp only
    rw [← hsize, ← card_toFinset, decide_eq_true_eq]
    by_cases hsub : toFinset t ⊆ toFinset s
    · rw [Finset.union_eq_left.mpr hsub, or_iff_left (not_not.mpr hsub)]
      have hne : ¬ toFinset s ≠ toFinset s := not_not.mpr rfl
      rw [iff_false_right hne]
      omega
    · have hlt : (toFinset s).card < (toFinset s ∪ toFinset t).card := by
        apply Finset.card_lt_card
        refine Finset.ssubset_iff_subset_ne.mpr ⟨Finset.subset_union_left, fun heq => hsub ?_⟩
        exact Finset.union_eq_left.mp heq.symm
      have hmod := Nat.mod_le (toFinset s).card (2 ^ 32)
      apply iff_of_true
      · exact iff_of_true (by omega) (fun heq => hsub (Finset.union_eq_left.mp heq))
      · exact .inr hsub

theorem test_and_set_fst_iff : (test_and_set s a).1 = true ↔ Insert.insert a (toFinset s) ≠ toFinset s := by
  rw [test_and_set, Bool.not_eq_true', ← Bool.not_eq_true, contains_iff_mem, Ne, Finset.insert_eq_self]

theorem toFinset_assign (s t : CondStdSet Element) : toFinset (assign s t) = toFinset t := by
  unfold assign
  split
  · rfl
  · rename_i h
    rwa [ne_iff, not_not] at h

end

section

variable (s : V → CondStdSet Element)

theorem toFinsets_update (i : V) (x : CondStdSet Element) :
    toFinsets (Function.update s i x) = Function.update (toFinsets s) i (toFinset x) := by
  funext j
  by_cases h : j = i
  · subst h
    simp [toFinsets]
  · simp [toFinsets, h]

theorem update_toFinset_eq_iff (i : V) (x y : Finset Element) :
    Function.update (toFinsets s) i x = Function.update (toFinsets s) i y ↔ x = y :=
  (Function.update_injective (toFinsets s) i).eq_iff

omit [DecidableEq V] in
variable {s} in
theorem query_agrees {b : Bool} {p : Prop} [Decidable p] (h : b = true ↔ p) :
    Prod.map id toFinsets (some b, s) = (some (decide p), toFinsets s) ↔ True := by
  rw [iff_true, Prod.map, (Bool.eq_iff_iff.mpr (h.trans decide_eq_true_iff.symm) : b = decide p)]
  rfl

variable {s} in
theorem update_agrees {i : V} {x : CondStdSet Element} {y : Finset Element} (r : Option Bool) (h : toFinset x = y) :
    Prod.map id toFinsets (r, Function.update s i x) = (r, Function.update (toFinsets s) i y) ↔ True := by
  rw [iff_true, Prod.map, toFinsets_update, h]
  rfl

theorem assign_agrees_iff {i : V} {b : Bool} {p : Prop} [Decidable p] (x : CondStdSet Element) (y : Finset Element) :
    Prod.map id toFinsets (some b, Function.update s i x) = (some (decide p), Function.update (toFinsets s) i y) ↔
      (b = true ↔ p) ∧ toFinset x = y := by
  rw [Prod.map, Prod.mk.injEq, toFinsets_update, update_toFinset_eq_iff]
  apply and_congr_left'
  rw [id, Option.some.injEq, Bool.eq_iff_iff, decide_eq_true_eq]

theorem step_agrees_iff (op : Op V Element) :
    Prod.map id toFinsets (step s op) = setStep (toFinsets s) op ↔ Fits s op := by
  cases op with
  | orAssign i j =>
      rw [step, setStep, assign_agrees_iff, Fits, ← orAssign_fst_iff]
      exact and_iff_left (orAssign_snd _ _)
  | andAssign i j =>
      rw [step, setStep, assign_agrees_iff, andAssign_snd, andAssign_fst_iff]
      change (_ ↔ toFinset (s i) ∩ toFinset (s j) ≠ toFinset (s i)) ∧ _ = toFinset (s i) ∩ toFinset (s j) ↔
        toFinset (s i) = toFinset (s j)
      constructor
      · rintro ⟨hflag, hval⟩
        have hsub : toFinset (s j) ⊆ toFinset (s i) := by
          by_contra hne
          exact (hflag.mp hne) hval.symm
        exact (Finset.inter_eq_left.mp hval.symm).antisymm hsub
      · intro h
        rw [h, Finset.inter_self]
        simp
  | assign i j => exact update_agrees none (toFinset_assign _ _)
  | test_and_set i var =>
      rw [step, setStep, assign_agrees_iff]
      exact iff_of_true ⟨test_and_set_fst_iff, toFinset_insert _ _⟩ trivial
  | set i var => exact update_agrees none (toFinset_insert _ _)
  | reset i var => exact update_agrees none (toFinset_erase _ _)
  | clear i => exact update_agrees none rfl
  | intersects i j => exact query_agrees intersects_iff
  | eq i j => exact query_agrees eq_iff
  | ne i j => exact query_agrees ne_iff
  | test i var => exact query_agrees contains_iff_mem
  | empty i => exact query_agrees empty_iff

/-- The results and the sets of a run are those of finite sets exactly when each of its operations meets
the condition. -/
theorem runs_agree_iff (ops : List (Op V Element)) :
    (trace step s ops).map (Prod.map id toFinsets) = trace setStep (toFinsets s) ops ↔ Along step Fits s ops := by
  rw [trace_eq_iff]
  exact along_congr step_agrees_iff s ops

end

def ofList (l : List ℕ) : CondStdSet ℕ := ⟨l.foldl (fun elements i => elements.insert i) .empty⟩

/-- `{1, 2} &= {2, 3}` leaves the set alone and says that it changed; `{1, 2} &= {}` leaves it alone. -/
theorem andAssign_no_intersection :
    (trace step (fun i => if i then ofList [1, 2] else ofList [2, 3]) [Op.andAssign true false]).map
        (Prod.map id toFinsets) ≠
      trace setStep (toFinsets fun i => if i then ofList [1, 2] else ofList [2, 3]) [Op.andAssign true false] ∧
    (trace step (fun i => if i then ofList [1, 2] else ofList []) [Op.andAssign true false]).map
        (Prod.map id toFinsets) ≠
      trace setStep (toFinsets fun i => if i then ofList [1, 2] else ofList []) [Op.andAssign true false] := by
  have hfails : ∀ s : Bool → CondStdSet ℕ, toFinset (s true) ≠ toFinset (s false) →
      (trace step s [Op.andAssign true false]).map (Prod.map id toFinsets) ≠
        trace setStep (toFinsets s) [Op.andAssign true false] := by
    intro s hne h
    rw [trace_eq_iff] at h
    exact hne ((step_agrees_iff s _).mp h.1)
  exact ⟨hfails _ (by decide), hfails _ (by decide)⟩

end SVF.MemoryModel.CondStdSets
