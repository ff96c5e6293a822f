import Mathlib.Data.Finset.Sort
import SVF.MemoryModel.PointsToSets
import SVF.Util.ClusterMapping

namespace SVF.MemoryModel.RemappedPointsTo

open Util Util.NodeIDs Util.ObjectRegions Util.Clusterer Util.ClusterMapping PointsToSets Util.Dendrograms

/-- A shared vector, which its address tells from others. -/
structure Mapping where
  addr : ℕ
  nodes : List ℕ
  deriving DecidableEq

abbrev MappingPtr := Option Mapping

/-- The two pointers that every points-to set holds, and that are set together. -/
structure Mappings where
  nodeMapping : MappingPtr
  reverseNodeMapping : MappingPtr
  deriving DecidableEq

abbrev NodeBS := PointsToSets.PointsTo

/-- The backing bit vector is the set of the internal numbers that it holds. -/
structure PointsTo where
  bits : PointsToSets.PointsTo
  mappings : Mappings

def lookup (mapping : MappingPtr) (n : ℕ) : Option ℕ :=
  match mapping with
  | none => some n
  | some m => m.nodes[n]?

namespace PointsTo

def getInternalNode (pt : PointsTo) (n : ℕ) : Option ℕ := lookup pt.mappings.nodeMapping n

def getExternalNode (pt : PointsTo) (n : ℕ) : Option ℕ := lookup pt.mappings.reverseNodeMapping n

def metaSame (pt rhs : PointsTo) : Prop := pt.mappings = rhs.mappings

instance (pt rhs : PointsTo) : Decidable (pt.metaSame rhs) := inferInstanceAs (Decidable (_ = _))

def ids (pt : PointsTo) : Option (List ℕ) := pt.bits.elems.mapM pt.getExternalNode

def toNodeBS (pt : PointsTo) : Option NodeBS := pt.ids.map (·.foldl PointsToSets.PointsTo.set ∅)

def empty (pt : PointsTo) : Bool := pt.bits = ∅

def count (pt : PointsTo) : ℕ := pt.bits.count

def clear (pt : PointsTo) : PointsTo := { pt with bits := ∅ }

def test (pt : PointsTo) (n : ℕ) : Option Bool := do
  let n ← pt.getInternalNode n
  some (n ∈ pt.bits)

def set (pt : PointsTo) (n : ℕ) : Option PointsTo := do
  let n ← pt.getInternalNode n
  some { pt with bits := pt.bits.set n }

def reset (pt : PointsTo) (n : ℕ) : Option PointsTo := do
  let n ← pt.getInternalNode n
  some { pt with bits := pt.bits.erase n }

def test_and_set (pt : PointsTo) (n : ℕ) : Option (PointsTo × Bool) := do
  let n ← pt.getInternalNode n
  some ({ pt with bits := pt.bits.set n }, n ∉ pt.bits)

def compare (f : PointsToSets.PointsTo → PointsToSets.PointsTo → Bool) (pt rhs : PointsTo) : Option Bool :=
  if pt.metaSame rhs then some (f pt.bits rhs.bits) else none

def contains (pt rhs : PointsTo) : Option Bool := compare PointsToSets.PointsTo.contains pt rhs

def intersects (pt rhs : PointsTo) : Option Bool := compare PointsToSets.PointsTo.intersects pt rhs

def eq (pt rhs : PointsTo) : Option Bool := compare (fun a b => a = b) pt rhs

def ne (pt rhs : PointsTo) : Option Bool :=
  if pt.metaSame rhs then (pt.eq rhs).map not else none

/-- An operation that replaces the bits, and whether it has changed them. -/
def update (f : PointsToSets.PointsTo → PointsToSets.PointsTo → PointsToSets.PointsTo) (pt rhs : PointsTo) :
    Option (PointsTo × Bool) :=
  if pt.metaSame rhs then
    some ({ pt with bits := f pt.bits rhs.bits }, f pt.bits rhs.bits ≠ pt.bits)
  else none

def orAssign (pt rhs : PointsTo) : Option (PointsTo × Bool) := update PointsToSets.PointsTo.union pt rhs

def andAssign (pt rhs : PointsTo) : Option (PointsTo × Bool) := update PointsToSets.PointsTo.inter pt rhs

def minusAssign (pt rhs : PointsTo) : Option (PointsTo × Bool) :=
  update PointsToSets.PointsTo.intersectWithComplement pt rhs

def intersectWithComplement (pt rhs : PointsTo) : Option (PointsTo × Bool) :=
  update PointsToSets.PointsTo.intersectWithComplement pt rhs

/-- `intersectWithComplement(lhs, rhs)`, which overwrites the bits. -/
def intersectWithComplementOf (pt lhs rhs : PointsTo) : Option PointsTo :=
  if pt.metaSame rhs ∧ pt.metaSame lhs then
    some { pt with bits := lhs.bits.intersectWithComplement rhs.bits }
  else none

def orNodeStep (s : PointsTo × Bool) (n : ℕ) : Option (PointsTo × Bool) :=
  if s.2 then do
    let pt ← s.1.set n
    some (pt, true)
  else s.1.test_and_set n

def orNodeBS (pt : PointsTo) (rhs : NodeBS) : Option (PointsTo × Bool) := rhs.elems.foldlM orNodeStep (pt, false)

def new (best : Mappings) : PointsTo := ⟨∅, best⟩

def checkAndRemap (best : Mappings) (pt : PointsTo) : Option PointsTo :=
  if pt.mappings.nodeMapping ≠ best.nodeMapping then do
    let ids ← pt.ids
    ids.foldlM set (new best)
  else some pt

end PointsTo

section

def Mappings.Paired (m : Mappings) : Prop :=
  match m.nodeMapping, m.reverseNodeMapping with
  | none, none => True
  | some a, some b => ∃ n, IsMapping n a.nodes ∧ IsInverse n a.nodes b.nodes
  | _, _ => False

theorem getElem?_isMapping {n : ℕ} {nodes : List ℕ} (h : IsMapping n nodes) {o i : ℕ} :
    nodes[o]? = some i ↔ o < n ∧ entry nodes o = i := by
  constructor
  · intro hget
    obtain ⟨hlt, heq⟩ := List.getElem?_eq_some_iff.mp hget
    exact ⟨h.length_eq ▸ hlt, (getElem_eq_entry hlt).symm.trans heq⟩
  · rintro ⟨hlt, rfl⟩
    exact getElem?_eq_entry (h.length_eq.symm ▸ hlt)

theorem Mappings.Paired.external {m : Mappings} (h : m.Paired) {o i : ℕ} (hi : lookup m.nodeMapping o = some i) :
    lookup m.reverseNodeMapping i = some o := by
  obtain ⟨nodeMapping, reverse⟩ := m
  cases nodeMapping with
  | none =>
      cases reverse with
      | none => exact hi.symm
      | some b => exact h.elim
  | some a =>
      cases reverse with
      | none => exact h.elim
      | some b =>
          obtain ⟨n, hmap, hinv⟩ := h
          obtain ⟨ho, rfl⟩ := (getElem?_isMapping hmap).mp hi
          have hget := getElem?_eq_entry (hinv.lt o ho)
          rwa [hinv.inverse o ho] at hget

theorem Mappings.Paired.injective {m : Mappings} (h : m.Paired) {o o' i : ℕ}
    (ho : lookup m.nodeMapping o = some i) (ho' : lookup m.nodeMapping o' = some i) : o = o' :=
  Option.some.inj ((h.external ho).symm.trans (h.external ho'))

structure Valid (pt : PointsTo) : Prop where
  paired : pt.mappings.Paired
  coded : ∀ i ∈ pt.bits, ∃ o, pt.getInternalNode o = some i

def Shows (pt : PointsTo) (S : Finset ℕ) : Prop := ∀ o, o ∈ S ↔ ∃ i ∈ pt.bits, pt.getInternalNode o = some i

variable {pt rhs : PointsTo} {S T : Finset ℕ}

theorem Shows.mem_iff (h : Shows pt S) {o i : ℕ} (hi : pt.getInternalNode o = some i) : i ∈ pt.bits ↔ o ∈ S := by
  rw [h o]
  constructor
  · exact fun hmem => ⟨i, hmem, hi⟩
  · rintro ⟨j, hj, hoj⟩
    exact Option.some.inj (hoj.symm.trans hi) ▸ hj

theorem Shows.isSome (h : Shows pt S) {o : ℕ} (ho : o ∈ S) : ∃ i, pt.getInternalNode o = some i := by
  obtain ⟨i, -, hi⟩ := (h o).mp ho
  exact ⟨i, hi⟩

theorem shows_of (hmem : ∀ o i, pt.getInternalNode o = some i → (i ∈ pt.bits ↔ o ∈ S))
    (hsome : ∀ o ∈ S, ∃ i, pt.getInternalNode o = some i) : Shows pt S := by
  intro o
  constructor
  · intro ho
    obtain ⟨i, hi⟩ := hsome o ho
    exact ⟨i, (hmem o i hi).mpr ho, hi⟩
  · rintro ⟨i, hi, hoi⟩
    exact (hmem o i hoi).mp hi

theorem valid_new {best : Mappings} (h : best.Paired) : Valid (.new best) :=
  ⟨h, fun i hi => absurd hi (notMem_empty i)⟩

theorem shows_new (best : Mappings) : Shows (.new best) ∅ := by
  intro o
  simp [PointsTo.new]

theorem Shows.bits_eq_iff (hpt : Valid pt) (hrhs : Valid rhs) (hsame : pt.metaSame rhs) (h : Shows pt S)
    (h' : Shows rhs T) : pt.bits = rhs.bits ↔ S = T := by
  have hint : ∀ o, pt.getInternalNode o = rhs.getInternalNode o := by
    intro o
    rw [PointsTo.getInternalNode, PointsTo.getInternalNode, show pt.mappings = rhs.mappings from hsame]
  constructor
  · intro heq
    apply Finset.ext
    intro o
    rw [h o, h' o, heq, hint]
  · rintro rfl
    apply PointsToSets.ext
    intro i
    constructor
    · intro hi
      obtain ⟨o, ho⟩ := hpt.coded i hi
      exact (h'.mem_iff (hint o ▸ ho)).mpr ((h.mem_iff ho).mp hi)
    · intro hi
      obtain ⟨o, ho⟩ := hrhs.coded i hi
      exact (h.mem_iff ((hint o).symm ▸ ho)).mpr ((h'.mem_iff ho).mp hi)

theorem Shows.ids (hpt : Valid pt) (h : Shows pt S) : ∃ ids, pt.ids = some ids ∧ ∀ o, o ∈ ids ↔ o ∈ S := by
  have hext : ∀ i ∈ pt.bits.elems, ∃ o, pt.getExternalNode i = some o := fun i hi => by
    obtain ⟨o, ho⟩ := hpt.coded i hi
    exact ⟨o, hpt.paired.external ho⟩
  have hmap : pt.bits.elems.mapM pt.getExternalNode =
      some (pt.bits.elems.map fun i => (pt.getExternalNode i).getD 0) :=
    Folds.mapM_eq_some_map fun i hi => by
      obtain ⟨o, ho⟩ := hext i hi
      rw [ho, Option.getD_some]
  refine ⟨_, hmap, fun o => ?_⟩
  rw [List.mem_map, h o]
  constructor
  · rintro ⟨i, hi, rfl⟩
    obtain ⟨o, ho⟩ := hpt.coded i hi
    have hget := hpt.paired.external ho
    rw [PointsTo.getExternalNode, hget, Option.getD_some]
    exact ⟨i, hi, ho⟩
  · rintro ⟨i, hi, ho⟩
    refine ⟨i, hi, ?_⟩
    rw [PointsTo.getExternalNode, hpt.paired.external ho, Option.getD_some]

theorem Shows.toNodeBS (hpt : Valid pt) (h : Shows pt S) :
    ∃ nbs, pt.toNodeBS = some nbs ∧ ∀ o, o ∈ nbs ↔ o ∈ S := by
  obtain ⟨ids, hids, hmem⟩ := h.ids hpt
  refine ⟨_, by rw [PointsTo.toNodeBS, hids, Option.map_some], fun o => ?_⟩
  rw [mem_foldl_set, hmem]
  simp

theorem Shows.count (hpt : Valid pt) (h : Shows pt S) : pt.count = S.card := by
  have hcard : pt.bits.elems.toFinset.card = pt.bits.elems.length :=
    List.toFinset_card_of_nodup (OrderedSets.nodup_elems pt.bits)
  rw [PointsTo.count, PointsToSets.PointsTo.count, ← hcard]
  refine Finset.card_bij' (fun i _ => (pt.getExternalNode i).getD 0) (fun o _ => (pt.getInternalNode o).getD 0)
    ?_ ?_ ?_ ?_
  · intro i hi
    obtain ⟨o, ho⟩ := hpt.coded i (List.mem_toFinset.mp hi)
    rw [PointsTo.getExternalNode, hpt.paired.external ho, Option.getD_some]
    exact (h.mem_iff ho).mp (List.mem_toFinset.mp hi)
  · intro o ho
    obtain ⟨i, hi⟩ := h.isSome ho
    rw [hi, Option.getD_some]
    exact List.mem_toFinset.mpr ((h.mem_iff hi).mpr ho)
  · intro i hi
    obtain ⟨o, ho⟩ := hpt.coded i (List.mem_toFinset.mp hi)
    rw [PointsTo.getExternalNode, hpt.paired.external ho, Option.getD_some, ho, Option.getD_some]
  · intro o ho
    obtain ⟨i, hi⟩ := h.isSome ho
    rw [hi, Option.getD_some, PointsTo.getExternalNode, hpt.paired.external hi, Option.getD_some]

end

section

variable {pt pt' rhs : PointsTo} {S T : Finset ℕ} {o i : ℕ}

/-- The set is valid and shows these ids, under the mappings that it had before. -/
structure Becomes (pt : PointsTo) (S : Finset ℕ) (pt' : PointsTo) : Prop where
  mappings : pt'.mappings = pt.mappings
  valid : Valid pt'
  shows : Shows pt' S

/-- Replacing the bits by others that stand for the ids of `S`. -/
theorem becomes_of {bits : PointsToSets.PointsTo} (hpt : Valid pt)
    (hcoded : ∀ i ∈ bits, ∃ o, pt.getInternalNode o = some i)
    (hmem : ∀ o i, pt.getInternalNode o = some i → (i ∈ bits ↔ o ∈ S))
    (hsome : ∀ o ∈ S, ∃ i, pt.getInternalNode o = some i) : Becomes pt S { pt with bits := bits } :=
  ⟨rfl, ⟨hpt.paired, hcoded⟩, shows_of hmem hsome⟩

theorem becomes_set (hpt : Valid pt) (h : Shows pt S) (hi : pt.getInternalNode o = some i) :
    Becomes pt (insert o S) { pt with bits := pt.bits.set i } := by
  refine becomes_of hpt (fun j hj => ?_) (fun m j hj => ?_) (fun m hm => ?_)
  · rcases (mem_set pt.bits i j).mp hj with hj | rfl
    · exact hpt.coded j hj
    · exact ⟨o, hi⟩
  · rw [mem_set, h.mem_iff hj, Finset.mem_insert, or_comm]
    refine or_congr_left ⟨fun heq => ?_, fun heq => ?_⟩
    · subst heq
      exact hpt.paired.injective hj hi
    · subst heq
      exact Option.some.inj (hj.symm.trans hi)
  · rcases Finset.mem_insert.mp hm with rfl | hm
    · exact ⟨i, hi⟩
    · exact h.isSome hm

theorem becomes_erase (hpt : Valid pt) (h : Shows pt S) (hi : pt.getInternalNode o = some i) :
    Becomes pt (S.erase o) { pt with bits := pt.bits.erase i } := by
  refine becomes_of hpt (fun j hj => hpt.coded j ((OrderedSets.mem_erase pt.bits i j).mp hj).1)
    (fun m j hj => ?_) (fun m hm => h.isSome (Finset.mem_of_mem_erase hm))
  rw [OrderedSets.mem_erase, h.mem_iff hj, Finset.mem_erase, and_comm]
  refine and_congr_left fun _ => not_congr ⟨fun heq => ?_, fun heq => ?_⟩
  · subst heq
    exact hpt.paired.injective hj hi
  · subst heq
    exact Option.some.inj (hj.symm.trans hi)

theorem set_eq_none (hi : pt.getInternalNode o = none) : pt.set o = none := by
  rw [PointsTo.set, hi]
  rfl

theorem set_eq_some (hi : pt.getInternalNode o = some i) :
    pt.set o = some { pt with bits := pt.bits.set i } := by
  rw [PointsTo.set, hi]
  rfl

theorem getInternalNode_eq (hsame : pt.mappings = rhs.mappings) (o : ℕ) :
    pt.getInternalNode o = rhs.getInternalNode o := by
  rw [PointsTo.getInternalNode, PointsTo.getInternalNode, hsame]

/-- An operation on the bits of two sets with the same mappings is the operation on
their ids, when it puts no bit that neither of them has. -/
theorem becomes_update {f : PointsToSets.PointsTo → PointsToSets.PointsTo → PointsToSets.PointsTo}
    {g : Finset ℕ → Finset ℕ → Finset ℕ} {b : Prop → Prop → Prop}
    (hf : ∀ a c i, i ∈ f a c ↔ b (i ∈ a) (i ∈ c)) (hg : ∀ A C o, o ∈ g A C ↔ b (o ∈ A) (o ∈ C))
    (hb : ∀ p q, b p q → p ∨ q) (hpt : Valid pt) (hrhs : Valid rhs) (hsame : pt.metaSame rhs) (h : Shows pt S)
    (h' : Shows rhs T) : Becomes pt (g S T) { pt with bits := f pt.bits rhs.bits } := by
  have hint : ∀ o, pt.getInternalNode o = rhs.getInternalNode o := getInternalNode_eq hsame
  refine becomes_of hpt (fun i hi => ?_) (fun o i hi => ?_) (fun o ho => ?_)
  · rcases hb _ _ ((hf _ _ i).mp hi) with hi | hi
    · exact hpt.coded i hi
    · obtain ⟨o, ho⟩ := hrhs.coded i hi
      exact ⟨o, (hint o).trans ho⟩
  · rw [hf, hg, h.mem_iff hi, h'.mem_iff ((hint o).symm.trans hi)]
  · rcases hb _ _ ((hg _ _ o).mp ho) with ho | ho
    · exact h.isSome ho
    · obtain ⟨i, hi⟩ := h'.isSome ho
      exact ⟨i, (hint o).trans hi⟩

theorem contains_eq (hrhs : Valid rhs) (hsame : pt.metaSame rhs) (h : Shows pt S)
    (h' : Shows rhs T) : pt.bits.contains rhs.bits = decide (T ⊆ S) := by
  have hint : ∀ o, pt.getInternalNode o = rhs.getInternalNode o := getInternalNode_eq hsame
  rw [Bool.eq_iff_iff, contains_iff_subset, decide_eq_true_eq]
  constructor
  · intro hsub o ho
    obtain ⟨i, hi⟩ := h'.isSome ho
    exact (h.mem_iff ((hint o).trans hi)).mp (hsub i ((h'.mem_iff hi).mpr ho))
  · intro hsub i hi
    obtain ⟨o, ho⟩ := hrhs.coded i hi
    exact (h.mem_iff ((hint o).trans ho)).mpr (hsub ((h'.mem_iff ho).mp hi))

theorem intersects_eq (hpt : Valid pt) (hsame : pt.metaSame rhs) (h : Shows pt S)
    (h' : Shows rhs T) : pt.bits.intersects rhs.bits = decide (S ∩ T ≠ ∅) := by
  have hint : ∀ o, pt.getInternalNode o = rhs.getInternalNode o := getInternalNode_eq hsame
  rw [Bool.eq_iff_iff, intersects_iff, decide_eq_true_eq, ← Finset.nonempty_iff_ne_empty]
  constructor
  · rintro ⟨i, hi, hi'⟩
    obtain ⟨o, ho⟩ := hpt.coded i hi
    exact ⟨o, Finset.mem_inter.mpr ⟨(h.mem_iff ho).mp hi, (h'.mem_iff ((hint o).symm.trans ho)).mp hi'⟩⟩
  · rintro ⟨o, ho⟩
    obtain ⟨hoS, hoT⟩ := Finset.mem_inter.mp ho
    obtain ⟨i, hi⟩ := h.isSome hoS
    exact ⟨i, (h.mem_iff hi).mpr hoS, (h'.mem_iff ((hint o).symm.trans hi)).mpr hoT⟩

theorem foldlM_set (os : List ℕ) (hos : ∀ o ∈ os, (pt.getInternalNode o).isSome) (hpt : Valid pt)
    (h : Shows pt S) : ∃ pt', os.foldlM PointsTo.set pt = some pt' ∧ Becomes pt (S ∪ os.toFinset) pt' := by
  induction os generalizing pt S with
  | nil => exact ⟨pt, rfl, rfl, hpt, by simpa using h⟩
  | cons o os ih =>
      obtain ⟨ho, hrest⟩ := List.forall_mem_cons.mp hos
      obtain ⟨i, hi⟩ := Option.isSome_iff_exists.mp ho
      have hone := becomes_set hpt h hi
      have hrest₁ : ∀ m ∈ os, (({ pt with bits := pt.bits.set i } : PointsTo).getInternalNode m).isSome := hrest
      obtain ⟨pt', hpt', hmap, hvalid, hshows⟩ := ih hrest₁ hone.valid hone.shows
      refine ⟨pt', ?_, hmap, hvalid, ?_⟩
      · rw [List.foldlM_cons, set_eq_some hi]
        exact hpt'
      · rwa [List.toFinset_cons, ← Finset.insert_union_comm]

theorem foldlM_set_eq_none (os : List ℕ) (hos : ∃ o ∈ os, pt.getInternalNode o = none) :
    os.foldlM PointsTo.set pt = none := by
  induction os generalizing pt with
  | nil => exact absurd hos (by simp)
  | cons o os ih =>
      rw [List.foldlM_cons]
      cases hi : pt.getInternalNode o with
      | none =>
          rw [set_eq_none hi]
          rfl
      | some i =>
          rw [set_eq_some hi]
          obtain ⟨m, hm, hnone⟩ := hos
          rcases List.mem_cons.mp hm with rfl | hm
          · rw [hi] at hnone
            contradiction
          · have hrest : ∃ o ∈ os, ({ pt with bits := pt.bits.set i } : PointsTo).getInternalNode o = none :=
              ⟨m, hm, hnone⟩
            exact ih hrest

theorem orNode_flag (c : Bool) (o : ℕ) (os : List ℕ) (S : Finset ℕ) :
    ((c || decide (o ∉ S)) || decide (insert o S ∪ os.toFinset ≠ insert o S)) =
      (c || decide (S ∪ (o :: os).toFinset ≠ S)) := by
  rw [Bool.or_assoc]
  congr 1
  rw [Bool.eq_iff_iff, Bool.or_eq_true, decide_eq_true_eq, decide_eq_true_eq, decide_eq_true_eq,
    List.toFinset_cons, Finset.union_insert, ← Finset.insert_union]
  by_cases ho : o ∈ S
  · simp [ho]
  · simp only [ho, not_false_eq_true, true_or, true_iff]
    intro heq
    exact ho (heq ▸ Finset.mem_union_left _ (Finset.mem_insert_self o S))

theorem orNodeStep_eq_some (c : Bool) (h : Shows pt S) (hi : pt.getInternalNode o = some i) :
    PointsTo.orNodeStep (pt, c) o = some ({ pt with bits := pt.bits.set i }, c || decide (o ∉ S)) := by
  rw [PointsTo.orNodeStep]
  cases c with
  | true => simp [set_eq_some hi]
  | false => simp [PointsTo.test_and_set, hi, h.mem_iff hi]

theorem foldlM_orNodeStep (os : List ℕ) (hos : ∀ o ∈ os, (pt.getInternalNode o).isSome) (hpt : Valid pt)
    (h : Shows pt S) (c : Bool) : ∃ pt', os.foldlM PointsTo.orNodeStep (pt, c) =
      some (pt', c || decide (S ∪ os.toFinset ≠ S)) ∧ Becomes pt (S ∪ os.toFinset) pt' := by
  induction os generalizing pt S c with
  | nil => exact ⟨pt, by simp, rfl, hpt, by simpa using h⟩
  | cons o os ih =>
      obtain ⟨ho, hrest⟩ := List.forall_mem_cons.mp hos
      obtain ⟨i, hi⟩ := Option.isSome_iff_exists.mp ho
      have hone := becomes_set hpt h hi
      have hrest₁ : ∀ m ∈ os, (({ pt with bits := pt.bits.set i } : PointsTo).getInternalNode m).isSome := hrest
      obtain ⟨pt', hpt', hmap, hvalid, hshows⟩ := ih hrest₁ hone.valid hone.shows (c || decide (o ∉ S))
      refine ⟨pt', ?_, hmap, hvalid, ?_⟩
      · rw [List.foldlM_cons, orNodeStep_eq_some c h hi, ← orNode_flag]
        exact hpt'
      · rwa [List.toFinset_cons, ← Finset.insert_union_comm]

theorem foldlM_orNodeStep_eq_none (os : List ℕ) (hos : ∃ o ∈ os, pt.getInternalNode o = none) (h : Shows pt S)
    (hpt : Valid pt) (c : Bool) : os.foldlM PointsTo.orNodeStep (pt, c) = none := by
  induction os generalizing pt S c with
  | nil => exact absurd hos (by simp)
  | cons o os ih =>
      rw [List.foldlM_cons]
      cases hi : pt.getInternalNode o with
      | none => cases c <;> simp [PointsTo.orNodeStep, PointsTo.set, PointsTo.test_and_set, hi]
      | some i =>
          rw [orNodeStep_eq_some c h hi]
          obtain ⟨m, hm, hnone⟩ := hos
          rcases List.mem_cons.mp hm with rfl | hm
          · rw [hi] at hnone
            contradiction
          · have hone := becomes_set hpt h hi
            have hrest : ∃ o ∈ os, ({ pt with bits := pt.bits.set i } : PointsTo).getInternalNode o = none :=
              ⟨m, hm, hnone⟩
            exact ih hrest hone.shows hone.valid _

end

section

/-- The operations on points-to sets that have names, and the choice of a new mapping. -/
inductive Op (ι : Type)
  | new (x : ι)
  | assign (x rhs : ι)
  | set (x : ι) (n : ℕ)
  | reset (x : ι) (n : ℕ)
  | test_and_set (x : ι) (n : ℕ)
  | test (x : ι) (n : ℕ)
  | clear (x : ι)
  | empty (x : ι)
  | count (x : ι)
  | contains (x rhs : ι)
  | intersects (x rhs : ι)
  | eq (x rhs : ι)
  | ne (x rhs : ι)
  | orAssign (x rhs : ι)
  | orNodeBS (x : ι) (rhs : NodeBS)
  | andAssign (x rhs : ι)
  | minusAssign (x rhs : ι)
  | intersectWithComplement (x rhs : ι)
  | intersectWithComplementOf (x lhs rhs : ι)
  | checkAndRemap (x : ι)
  | setCurrentBestNodeMapping (nodeMapping : List ℕ)

inductive Answer
  | done
  | flag (b : Bool)
  | number (n : ℕ)
  deriving DecidableEq

/-- The next address that is free, the best mapping, and the points-to sets. -/
structure State (ι : Type) where
  next : ℕ
  best : Mappings
  pts : ι → PointsTo

abbrev Sets (ι : Type) := ι → Finset ℕ

def State.init (ι : Type) : State ι := ⟨0, ⟨none, none⟩, fun _ => .new ⟨none, none⟩⟩

variable {ι : Type} [DecidableEq ι]

def State.put (s : State ι) (x : ι) (pt : PointsTo) : State ι := { s with pts := Function.update s.pts x pt }

/-- The mapping and its reverse in two new vectors, as the analyses set them. -/
def setBest (s : State ι) (nodeMapping : List ℕ) : Option (State ι) := do
  let reverse ← getReverseNodeMapping nodeMapping
  some { s with next := s.next + 2, best := ⟨some ⟨s.next, nodeMapping⟩, some ⟨s.next + 1, reverse⟩⟩ }

def State.changed (s : State ι) (x : ι) (r : Option PointsTo) : Option (State ι × Answer) :=
  r.map fun pt => (s.put x pt, .done)

def State.flagged (s : State ι) (x : ι) (r : Option (PointsTo × Bool)) : Option (State ι × Answer) :=
  r.map fun r => (s.put x r.1, .flag r.2)

def State.asked (s : State ι) (r : Option Bool) : Option (State ι × Answer) := r.map fun b => (s, .flag b)

/-- An operation of the program, where `none` is a failing assertion. -/
def Op.exec (s : State ι) : Op ι → Option (State ι × Answer)
  | .new x => s.changed x (some (.new s.best))
  | .assign x rhs => s.changed x (some (s.pts rhs))
  | .set x n => s.changed x ((s.pts x).set n)
  | .reset x n => s.changed x ((s.pts x).reset n)
  | .test_and_set x n => s.flagged x ((s.pts x).test_and_set n)
  | .test x n => s.asked ((s.pts x).test n)
  | .clear x => s.changed x (some (s.pts x).clear)
  | .empty x => s.asked (some (s.pts x).empty)
  | .count x => some (s, .number (s.pts x).count)
  | .contains x rhs => s.asked ((s.pts x).contains (s.pts rhs))
  | .intersects x rhs => s.asked ((s.pts x).intersects (s.pts rhs))
  | .eq x rhs => s.asked ((s.pts x).eq (s.pts rhs))
  | .ne x rhs => s.asked ((s.pts x).ne (s.pts rhs))
  | .orAssign x rhs => s.flagged x ((s.pts x).orAssign (s.pts rhs))
  | .orNodeBS x rhs => s.flagged x ((s.pts x).orNodeBS rhs)
  | .andAssign x rhs => s.flagged x ((s.pts x).andAssign (s.pts rhs))
  | .minusAssign x rhs => s.flagged x ((s.pts x).minusAssign (s.pts rhs))
  | .intersectWithComplement x rhs => s.flagged x ((s.pts x).intersectWithComplement (s.pts rhs))
  | .intersectWithComplementOf x lhs rhs =>
      s.changed x ((s.pts x).intersectWithComplementOf (s.pts lhs) (s.pts rhs))
  | .checkAndRemap x => s.changed x ((s.pts x).checkAndRemap s.best)
  | .setCurrentBestNodeMapping nodeMapping => (setBest s nodeMapping).map fun s => (s, .done)

/-- The operation on the sets of ids, which know of no mapping. -/
def Op.spec (S : Sets ι) : Op ι → Sets ι × Answer
  | .new x => (Function.update S x ∅, .done)
  | .assign x rhs => (Function.update S x (S rhs), .done)
  | .set x n => (Function.update S x (insert n (S x)), .done)
  | .reset x n => (Function.update S x ((S x).erase n), .done)
  | .test_and_set x n => (Function.update S x (insert n (S x)), .flag (n ∉ S x))
  | .test x n => (S, .flag (n ∈ S x))
  | .clear x => (Function.update S x ∅, .done)
  | .empty x => (S, .flag (S x = ∅))
  | .count x => (S, .number (S x).card)
  | .contains x rhs => (S, .flag (S rhs ⊆ S x))
  | .intersects x rhs => (S, .flag (S x ∩ S rhs ≠ ∅))
  | .eq x rhs => (S, .flag (S x = S rhs))
  | .ne x rhs => (S, .flag (S x ≠ S rhs))
  | .orAssign x rhs => (Function.update S x (S x ∪ S rhs), .flag (S x ∪ S rhs ≠ S x))
  | .orNodeBS x rhs => (Function.update S x (S x ∪ rhs.elems.toFinset), .flag (S x ∪ rhs.elems.toFinset ≠ S x))
  | .andAssign x rhs => (Function.update S x (S x ∩ S rhs), .flag (S x ∩ S rhs ≠ S x))
  | .minusAssign x rhs | .intersectWithComplement x rhs =>
      (Function.update S x (S x \ S rhs), .flag (S x \ S rhs ≠ S x))
  | .intersectWithComplementOf x lhs rhs => (Function.update S x (S lhs \ S rhs), .done)
  | .checkAndRemap _ | .setCurrentBestNodeMapping _ => (S, .done)

/-- No assertion fails: the ids are objects of the mapping in question, and the
operands have the same mappings. -/
def Op.Accepted (s : State ι) (S : Sets ι) : Op ι → Prop
  | .set x n | .reset x n | .test_and_set x n | .test x n => ((s.pts x).getInternalNode n).isSome
  | .contains x rhs | .intersects x rhs | .eq x rhs | .ne x rhs | .orAssign x rhs | .andAssign x rhs
  | .minusAssign x rhs | .intersectWithComplement x rhs => (s.pts x).metaSame (s.pts rhs)
  | .intersectWithComplementOf x lhs rhs =>
      (s.pts x).metaSame (s.pts rhs) ∧ (s.pts x).metaSame (s.pts lhs)
  | .orNodeBS x rhs => ∀ n ∈ rhs, ((s.pts x).getInternalNode n).isSome
  | .checkAndRemap x => (s.pts x).mappings.nodeMapping = s.best.nodeMapping ∨
      ∀ n ∈ S x, (lookup s.best.nodeMapping n).isSome
  | _ => True

def Holds (s : State ι) (S : Sets ι) : Prop := ∀ x, ∃ nbs, (s.pts x).toNodeBS = some nbs ∧ ∀ o, o ∈ nbs ↔ o ∈ S x

def Op.Remapped (s' : State ι) : Op ι → Prop
  | .checkAndRemap x => (s'.pts x).mappings = s'.best
  | _ => True

/-- In every step of the sequence the program holds the sets of ids `S`; the step is
rejected or returns what the operation on the sets returns. -/
def Agrees : List (Op ι) → State ι → Sets ι → Prop
  | [], s, S => Holds s S
  | op :: ops, s, S => Holds s S ∧ match op.exec s with
      | none => ¬ op.Accepted s S
      | some (s', a) => op.Accepted s S ∧ a = (op.spec S).2 ∧ op.Remapped s' ∧ Agrees ops s' (op.spec S).1

end

section

variable {ι : Type} {s : State ι} {S : Sets ι}

/-- The sets show the ids `S`, and a new mapping is told from theirs by its address. -/
structure Inv (s : State ι) (S : Sets ι) : Prop where
  best : s.best.Paired
  valid : ∀ x, Valid (s.pts x)
  shows : ∀ x, Shows (s.pts x) (S x)
  best_old : ∀ m, s.best.nodeMapping = some m → m.addr < s.next
  old : ∀ x m, (s.pts x).mappings.nodeMapping = some m → m.addr < s.next
  same : ∀ x, (s.pts x).mappings.nodeMapping = s.best.nodeMapping → (s.pts x).mappings = s.best

theorem inv_init : Inv (.init ι) (fun _ => ∅) where
  best := trivial
  valid _ := valid_new trivial
  shows _ := shows_new _
  best_old m hm := by simp [State.init] at hm
  old x m hm := by simp [State.init, PointsTo.new] at hm
  same x _ := rfl

theorem Inv.holds (h : Inv s S) : Holds s S := fun x => (h.shows x).toNodeBS (h.valid x)

variable [DecidableEq ι]

theorem Inv.put (h : Inv s S) (x : ι) {pt : PointsTo} {T : Finset ℕ} (hvalid : Valid pt) (hshows : Shows pt T)
    (hfrom : pt.mappings = s.best ∨ ∃ y, pt.mappings = (s.pts y).mappings) :
    Inv (s.put x pt) (Function.update S x T) := by
  have hget : ∀ y, (s.put x pt).pts y = if y = x then pt else s.pts y := fun y => Function.update_apply ..
  refine {
    best := h.best
    valid := ?_
    shows := ?_
    best_old := h.best_old
    old := ?_
    same := ?_ }
  · intro y
    rw [hget]
    split
    · exact hvalid
    · exact h.valid y
  · intro y
    rw [hget, Function.update_apply]
    split
    · exact hshows
    · exact h.shows y
  · intro y m hm
    rw [hget] at hm
    split at hm
    · rcases hfrom with heq | ⟨z, heq⟩
      · exact h.best_old m (heq ▸ hm)
      · exact h.old z m (heq ▸ hm)
    · exact h.old y m hm
  · intro y hy
    rw [hget] at hy ⊢
    split at hy
    · rename_i hyx
      rw [if_pos hyx]
      rcases hfrom with heq | ⟨z, heq⟩
      · exact heq
      · exact heq.trans (h.same z (heq ▸ hy))
    · rename_i hyx
      rw [if_neg hyx]
      exact h.same y hy

def Good (s : State ι) (S : Sets ι) (op : Op ι) : Prop :=
  match op.exec s with
  | none => ¬ op.Accepted s S
  | some (s', a) => op.Accepted s S ∧ a = (op.spec S).2 ∧ op.Remapped s' ∧ Inv s' (op.spec S).1

theorem good_of_some {op : Op ι} {s' : State ι} {a : Answer} (hexec : op.exec s = some (s', a))
    (hacc : op.Accepted s S) (ha : a = (op.spec S).2) (hre : op.Remapped s') (hinv : Inv s' (op.spec S).1) :
    Good s S op := by
  rw [Good, hexec]
  exact ⟨hacc, ha, hre, hinv⟩

theorem good_of_none {op : Op ι} (hexec : op.exec s = none) (hrej : ¬ op.Accepted s S) : Good s S op := by
  rw [Good, hexec]
  exact hrej

theorem Inv.becomes (h : Inv s S) (x : ι) {pt : PointsTo} {T : Finset ℕ} (hpt : Becomes (s.pts x) T pt) :
    Inv (s.put x pt) (Function.update S x T) := h.put x hpt.valid hpt.shows (.inr ⟨x, hpt.mappings⟩)

theorem Inv.good_set (h : Inv s S) (x : ι) (n : ℕ) : Good s S (.set x n) := by
  cases hi : (s.pts x).getInternalNode n with
  | none =>
      exact good_of_none (by simp [Op.exec, PointsTo.set, hi, State.changed]) (by simp [Op.Accepted, hi])
  | some i =>
      exact good_of_some (by simp only [Op.exec, set_eq_some hi]; rfl) (by simp [Op.Accepted, hi]) rfl trivial
        (h.becomes x (becomes_set (h.valid x) (h.shows x) hi))

theorem Inv.good_reset (h : Inv s S) (x : ι) (n : ℕ) : Good s S (.reset x n) := by
  cases hi : (s.pts x).getInternalNode n with
  | none =>
      exact good_of_none (by simp [Op.exec, PointsTo.reset, hi, State.changed]) (by simp [Op.Accepted, hi])
  | some i =>
      exact good_of_some (by simp only [Op.exec, PointsTo.reset, hi]; rfl) (by simp [Op.Accepted, hi]) rfl trivial
        (h.becomes x (becomes_erase (h.valid x) (h.shows x) hi))

theorem Inv.good_test_and_set (h : Inv s S) (x : ι) (n : ℕ) : Good s S (.test_and_set x n) := by
  cases hi : (s.pts x).getInternalNode n with
  | none =>
      exact good_of_none (by simp [Op.exec, PointsTo.test_and_set, hi, State.flagged]) (by simp [Op.Accepted, hi])
  | some i =>
      refine good_of_some (by simp only [Op.exec, PointsTo.test_and_set, hi]; rfl) (by simp [Op.Accepted, hi])
        ?_ trivial (h.becomes x (becomes_set (h.valid x) (h.shows x) hi))
      simp [Op.spec, (h.shows x).mem_iff hi]

theorem Inv.good_test (h : Inv s S) (x : ι) (n : ℕ) : Good s S (.test x n) := by
  cases hi : (s.pts x).getInternalNode n with
  | none =>
      exact good_of_none (by simp [Op.exec, PointsTo.test, hi, State.asked]) (by simp [Op.Accepted, hi])
  | some i =>
      refine good_of_some (by simp only [Op.exec, PointsTo.test, hi]; rfl) (by simp [Op.Accepted, hi])
        ?_ trivial h
      simp [Op.spec, (h.shows x).mem_iff hi]

theorem Inv.good_compare (h : Inv s S) {op : Op ι} {x rhs : ι}
    {f : PointsToSets.PointsTo → PointsToSets.PointsTo → Bool} {b : Bool}
    (hexec : op.exec s = s.asked (PointsTo.compare f (s.pts x) (s.pts rhs)))
    (hacc : op.Accepted s S ↔ (s.pts x).metaSame (s.pts rhs)) (hspec : op.spec S = (S, .flag b))
    (hre : op.Remapped s) (hf : (s.pts x).metaSame (s.pts rhs) → f (s.pts x).bits (s.pts rhs).bits = b) :
    Good s S op := by
  by_cases hsame : (s.pts x).metaSame (s.pts rhs)
  · rw [PointsTo.compare, if_pos hsame, hf hsame] at hexec
    exact good_of_some hexec (hacc.mpr hsame) (by rw [hspec]) hre (by rw [hspec]; exact h)
  · rw [PointsTo.compare, if_neg hsame] at hexec
    exact good_of_none hexec (mt hacc.mp hsame)

theorem Inv.good_update (h : Inv s S) {op : Op ι} {x rhs : ι}
    {f : PointsToSets.PointsTo → PointsToSets.PointsTo → PointsToSets.PointsTo}
    {g : Finset ℕ → Finset ℕ → Finset ℕ} {b : Prop → Prop → Prop}
    (hf : ∀ a c i, i ∈ f a c ↔ b (i ∈ a) (i ∈ c)) (hg : ∀ A C o, o ∈ g A C ↔ b (o ∈ A) (o ∈ C))
    (hb : ∀ p q, b p q → p ∨ q)
    (hexec : op.exec s = s.flagged x (PointsTo.update f (s.pts x) (s.pts rhs)))
    (hacc : op.Accepted s S ↔ (s.pts x).metaSame (s.pts rhs))
    (hspec : op.spec S = (Function.update S x (g (S x) (S rhs)), .flag (g (S x) (S rhs) ≠ S x)))
    (hre : ∀ s', op.Remapped s') : Good s S op := by
  by_cases hsame : (s.pts x).metaSame (s.pts rhs)
  · have hpt := becomes_update hf hg hb (h.valid x) (h.valid rhs) hsame (h.shows x) (h.shows rhs)
    have hflag := not_congr (Shows.bits_eq_iff hpt.valid (h.valid x) rfl hpt.shows (h.shows x))
    rw [PointsTo.update, if_pos hsame] at hexec
    refine good_of_some hexec (hacc.mpr hsame) ?_ (hre _) ?_
    · rw [hspec]
      exact congrArg Answer.flag (decide_eq_decide.mpr hflag)
    · rw [hspec]
      exact h.becomes x hpt
  · rw [PointsTo.update, if_neg hsame] at hexec
    exact good_of_none hexec (mt hacc.mp hsame)

theorem Inv.good_intersectWithComplementOf (h : Inv s S) (x lhs rhs : ι) :
    Good s S (.intersectWithComplementOf x lhs rhs) := by
  by_cases hsame : (s.pts x).metaSame (s.pts rhs) ∧ (s.pts x).metaSame (s.pts lhs)
  · have hboth : (s.pts lhs).metaSame (s.pts rhs) := hsame.2.symm.trans hsame.1
    obtain ⟨hmap, hvalid, hshows⟩ := becomes_update (g := fun A C => A \ C) (b := fun p q => p ∧ ¬ q)
      mem_intersectWithComplement (fun _ _ _ => Finset.mem_sdiff) (fun _ _ hpq => .inl hpq.1)
      (h.valid lhs) (h.valid rhs) hboth (h.shows lhs) (h.shows rhs)
    have hpt : Becomes (s.pts x) (S lhs \ S rhs)
        { s.pts x with bits := (s.pts lhs).bits.intersectWithComplement (s.pts rhs).bits } := by
      have heq : (⟨(s.pts lhs).bits.intersectWithComplement (s.pts rhs).bits, (s.pts x).mappings⟩ : PointsTo) =
          ⟨(s.pts lhs).bits.intersectWithComplement (s.pts rhs).bits, (s.pts lhs).mappings⟩ :=
        congrArg _ hsame.2
      exact ⟨rfl, heq ▸ hvalid, heq ▸ hshows⟩
    refine good_of_some ?_ hsame rfl trivial (h.becomes x hpt)
    simp only [Op.exec, PointsTo.intersectWithComplementOf]
    rw [if_pos hsame]
    rfl
  · refine good_of_none ?_ hsame
    simp only [Op.exec, PointsTo.intersectWithComplementOf]
    rw [if_neg hsame]
    rfl

theorem Inv.good_orNodeBS (h : Inv s S) (x : ι) (rhs : NodeBS) : Good s S (.orNodeBS x rhs) := by
  by_cases hall : ∀ n ∈ rhs, ((s.pts x).getInternalNode n).isSome
  · obtain ⟨pt', hpt', hbecomes⟩ := foldlM_orNodeStep rhs.elems hall (h.valid x) (h.shows x) false
    have hexec : (Op.orNodeBS x rhs).exec s =
        some (s.put x pt', .flag (S x ∪ rhs.elems.toFinset ≠ S x)) := by
      simp only [Op.exec, PointsTo.orNodeBS, hpt', Bool.false_or]
      rfl
    exact good_of_some hexec hall rfl trivial (h.becomes x hbecomes)
  · have hnone : ∃ n ∈ rhs.elems, (s.pts x).getInternalNode n = none := by
      by_contra hno
      apply hall
      intro n hn
      rw [Option.isSome_iff_ne_none]
      exact fun heq => hno ⟨n, hn, heq⟩
    refine good_of_none ?_ hall
    simp only [Op.exec, PointsTo.orNodeBS, foldlM_orNodeStep_eq_none rhs.elems hnone (h.shows x) (h.valid x)]
    rfl

theorem Inv.good_checkAndRemap (h : Inv s S) (x : ι) : Good s S (.checkAndRemap x) := by
  by_cases hcur : (s.pts x).mappings.nodeMapping = s.best.nodeMapping
  · have hexec : (Op.checkAndRemap x).exec s = some (s.put x (s.pts x), .done) := by
      simp only [Op.exec, PointsTo.checkAndRemap]
      rw [if_neg (not_not.mpr hcur)]
      rfl
    refine good_of_some hexec (.inl hcur) rfl ?_ ?_
    · change (Function.update s.pts x (s.pts x) x).mappings = s.best
      rw [Function.update_self]
      exact h.same x hcur
    · have hput := h.put x (h.valid x) (h.shows x) (.inr ⟨x, rfl⟩)
      rwa [Function.update_eq_self] at hput
  · obtain ⟨ids, hids, hmem⟩ := (h.shows x).ids (h.valid x)
    have hexec : (s.pts x).checkAndRemap s.best = ids.foldlM PointsTo.set (.new s.best) := by
      rw [PointsTo.checkAndRemap, if_pos hcur, hids]
      rfl
    by_cases hall : ∀ n ∈ S x, (lookup s.best.nodeMapping n).isSome
    · have hdomain : ∀ o ∈ ids, ((PointsTo.new s.best).getInternalNode o).isSome :=
        fun o ho => hall o ((hmem o).mp ho)
      obtain ⟨pt', hpt', hmap, hvalid, hshows⟩ := foldlM_set ids hdomain (valid_new h.best) (shows_new s.best)
      have hS : ∅ ∪ ids.toFinset = S x := by
        apply Finset.ext
        intro o
        simp [hmem]
      rw [hS] at hshows
      have hexec' : (Op.checkAndRemap x).exec s = some (s.put x pt', .done) := by
        simp only [Op.exec, hexec, hpt']
        rfl
      refine good_of_some hexec' (.inr hall) rfl ?_ ?_
      · change (Function.update s.pts x pt' x).mappings = s.best
        rw [Function.update_self]
        exact hmap
      · have hput := h.put x hvalid hshows (.inl hmap)
        rwa [Function.update_eq_self] at hput
    · have hnone : ∃ o ∈ ids, (PointsTo.new s.best).getInternalNode o = none := by
        by_contra hno
        apply hall
        intro n hn
        rw [Option.isSome_iff_ne_none]
        exact fun heq => hno ⟨n, (hmem n).mpr hn, heq⟩
      refine good_of_none ?_ fun hacc => hacc.elim hcur hall
      simp only [Op.exec, hexec, foldlM_set_eq_none ids hnone]
      rfl

theorem Inv.good_setBest (h : Inv s S) {nodeMapping : List ℕ} {n : ℕ} (hmap : IsMapping n nodeMapping) :
    Good s S (.setCurrentBestNodeMapping nodeMapping) := by
  obtain ⟨reverse, hrev, hinv⟩ := getReverseNodeMapping_spec hmap
  let best : Mappings := ⟨some ⟨s.next, nodeMapping⟩, some ⟨s.next + 1, reverse⟩⟩
  have hexec : (Op.setCurrentBestNodeMapping nodeMapping).exec s =
      some ({ s with next := s.next + 2, best := best }, .done) := by
    simp only [Op.exec, setBest, hrev]
    rfl
  have hnext : s.next < s.next + 2 := by omega
  refine good_of_some hexec trivial rfl trivial {
    best := ⟨n, hmap, hinv⟩
    valid := h.valid
    shows := h.shows
    best_old := ?_
    old := fun x m hm => (h.old x m hm).trans hnext
    same := fun x hx => absurd (h.old x _ hx) (Nat.lt_irrefl _) }
  intro m hm
  cases hm
  exact hnext

def Op.Sets (op : Op ι) : Prop :=
  ∀ nodeMapping, op = .setCurrentBestNodeMapping nodeMapping → ∃ n, IsMapping n nodeMapping

theorem Inv.good (h : Inv s S) (op : Op ι) (hop : op.Sets) : Good s S op := by
  have hclear : ∀ x, Becomes (s.pts x) ∅ (s.pts x).clear := fun x =>
    ⟨rfl, ⟨(h.valid x).paired, fun i hi => absurd hi (notMem_empty i)⟩, fun o => by simp [PointsTo.clear]⟩
  cases op with
  | new x => exact good_of_some rfl trivial rfl trivial (h.put x (valid_new h.best) (shows_new _) (.inl rfl))
  | assign x rhs =>
      exact good_of_some rfl trivial rfl trivial (h.put x (h.valid rhs) (h.shows rhs) (.inr ⟨rhs, rfl⟩))
  | set x n => exact h.good_set x n
  | reset x n => exact h.good_reset x n
  | test_and_set x n => exact h.good_test_and_set x n
  | test x n => exact h.good_test x n
  | clear x => exact good_of_some rfl trivial rfl trivial (h.becomes x (hclear x))
  | empty x =>
      refine good_of_some rfl trivial (congrArg Answer.flag (decide_eq_decide.mpr ?_)) trivial h
      exact Shows.bits_eq_iff (h.valid x) (hclear x).valid rfl (h.shows x) (hclear x).shows
  | count x => exact good_of_some rfl trivial (congrArg Answer.number ((h.shows x).count (h.valid x))) trivial h
  | contains x rhs =>
      exact h.good_compare rfl .rfl rfl trivial fun hsame =>
        contains_eq (h.valid rhs) hsame (h.shows x) (h.shows rhs)
  | intersects x rhs =>
      exact h.good_compare rfl .rfl rfl trivial fun hsame =>
        intersects_eq (h.valid x) hsame (h.shows x) (h.shows rhs)
  | eq x rhs =>
      exact h.good_compare rfl .rfl rfl trivial fun hsame => decide_eq_decide.mpr
        (Shows.bits_eq_iff (h.valid x) (h.valid rhs) hsame (h.shows x) (h.shows rhs))
  | ne x rhs =>
      refine h.good_compare (f := fun a b => !decide (a = b)) ?_ .rfl rfl trivial fun hsame => ?_
      · simp only [Op.exec, PointsTo.ne, PointsTo.eq, PointsTo.compare]
        split <;> rfl
      · rw [← decide_not]
        exact decide_eq_decide.mpr
          (not_congr (Shows.bits_eq_iff (h.valid x) (h.valid rhs) hsame (h.shows x) (h.shows rhs)))
  | orAssign x rhs =>
      exact h.good_update mem_union (fun _ _ _ => Finset.mem_union) (fun _ _ => id) rfl .rfl rfl fun _ => trivial
  | orNodeBS x rhs => exact h.good_orNodeBS x rhs
  | andAssign x rhs =>
      exact h.good_update mem_inter (fun _ _ _ => Finset.mem_inter) (fun _ _ hpq => .inl hpq.1) rfl .rfl rfl
        fun _ => trivial
  | minusAssign x rhs | intersectWithComplement x rhs =>
      exact h.good_update (g := fun A C => A \ C) (b := fun p q => p ∧ ¬ q) mem_intersectWithComplement
        (fun _ _ _ => Finset.mem_sdiff) (fun _ _ hpq => .inl hpq.1) rfl .rfl rfl fun _ => trivial
  | intersectWithComplementOf x lhs rhs => exact h.good_intersectWithComplementOf x lhs rhs
  | checkAndRemap x => exact h.good_checkAndRemap x
  | setCurrentBestNodeMapping nodeMapping =>
      obtain ⟨n, hmap⟩ := hop nodeMapping rfl
      exact h.good_setBest hmap

theorem Inv.agrees (h : Inv s S) (ops : List (Op ι)) (hops : ∀ op ∈ ops, op.Sets) : Agrees ops s S := by
  induction ops generalizing s S with
  | nil => exact h.holds
  | cons op ops ih =>
      obtain ⟨hop, hrest⟩ := List.forall_mem_cons.mp hops
      have hgood := h.good op hop
      rw [Good] at hgood
      rw [Agrees]
      refine ⟨h.holds, ?_⟩
      cases hexec : op.exec s with
      | none =>
          rw [hexec] at hgood
          exact hgood
      | some r =>
          rw [hexec] at hgood
          obtain ⟨hacc, ha, hre, hinv⟩ := hgood
          exact ⟨hacc, ha, hre, ih hinv hrest⟩

end

def Produced (nodeMapping : List ℕ) : Prop := ∃ c : ClusterCall, c.Meets ∧ ∃ cs, c.run = some (nodeMapping, cs)

theorem cluster_remaps {c : ClusterCall} (hc : c.Meets) :
    (c.opts.NodeAllocStrat = .DENSE → c.opts.PtType ≠ .BV → ∃ res, c.run = some res) ∧
    (∀ nodeMap cs, c.run = some (nodeMap, cs) → IsMapping c.numObjects nodeMap ∧
      ∃ reverse, getReverseNodeMapping nodeMap = some reverse ∧ IsInverse c.numObjects nodeMap reverse) ∧
    ∀ (ι : Type) [DecidableEq ι] (ops : List (Op ι)),
      (∀ m, Op.setCurrentBestNodeMapping m ∈ ops → Produced m) → Agrees ops (.init ι) fun _ => ∅ := by
  refine ⟨hc.exists_run, fun nodeMap cs hrun => ?_, fun ι _ ops hops => ?_⟩
  · have hmap := hc.isMapping hrun
    exact ⟨hmap, getReverseNodeMapping_spec hmap⟩
  · apply inv_init.agrees ops
    rintro op hop m rfl
    obtain ⟨c, hmeets, cs, hrun⟩ := hops m hop
    exact ⟨c.numObjects, hmeets.isMapping hrun⟩

/-- The clustering of objects at one distance from each other: they join the cluster one by one. -/
def chain : Hclust := fun _ n _ =>
  (-1 :: (List.range (n - 2)).map fun (i : ℕ) => -((i : ℤ) + 3)) ++
    (-2 :: (List.range (n - 2)).map fun (i : ℕ) => (i : ℤ) + 1)

theorem chain_entry {method : ClusterMethod} {n : ℕ} {ds : List (List ℕ × ℕ)} {i : ℕ} {e : ℤ} (hn : 2 ≤ n)
    (h : EntryOf n (chain method n ds) i e) :
    e = (if i = 1 then -1 else -((i : ℤ) + 1)) ∨ e = if i = 1 then -2 else (i : ℤ) - 1 := by
  obtain ⟨hi, hin, h⟩ := h
  obtain ⟨i, rfl⟩ : ∃ j, i = j + 1 := ⟨i - 1, by omega⟩
  have hlen : (-1 :: (List.range (n - 2)).map fun (i : ℕ) => -((i : ℤ) + 3)).length = n - 1 := by
    rw [List.length_cons, List.length_map, List.length_range]
    omega
  rcases h with h | h
  · left
    rw [Nat.add_sub_cancel, chain, List.getElem?_append_left (by omega)] at h
    cases i with
    | zero => simpa using h.symm
    | succ i =>
        rw [List.getElem?_cons_succ, List.getElem?_map, List.getElem?_range (by omega), Option.map_some,
          Option.some_inj] at h
        rw [if_neg (by omega)]
        push_cast
        omega
  · right
    have hidx : n - 1 + (i + 1) - 1 = n - 1 + i := by omega
    rw [hidx, chain, List.getElem?_append_right (by omega), hlen, Nat.add_sub_cancel_left] at h
    cases i with
    | zero => simpa using h.symm
    | succ i =>
        rw [List.getElem?_cons_succ, List.getElem?_map, List.getElem?_range (by omega), Option.map_some,
          Option.some_inj] at h
        rw [if_neg (by omega)]
        push_cast
        omega

theorem clusters_chain : Clusters chain := by
  intro method _ n hn ds
  refine {
    length_eq := ?_
    nodup := ?_
    entry_ne := fun h => ?_
    atom_le := fun h => ?_
    earlier := fun h => ?_ }
  · simp only [chain, List.length_append, List.length_cons, List.length_map, List.length_range]
    omega
  · have hneg : ((List.range (n - 2)).map fun (i : ℕ) => -((i : ℤ) + 3)).Nodup :=
      List.nodup_range.map fun i j hij => by simpa using hij
    have hpos : ((List.range (n - 2)).map fun (i : ℕ) => (i : ℤ) + 1).Nodup :=
      List.nodup_range.map fun i j hij => by simpa using hij
    rw [chain, List.nodup_append, List.nodup_cons, List.nodup_cons]
    simp only [List.mem_map, List.mem_cons, not_exists, not_and]
    refine ⟨⟨fun i _ => by omega, hneg⟩, ⟨fun i _ => by omega, hpos⟩, ?_⟩
    rintro a (rfl | ⟨i, -, rfl⟩) b (rfl | ⟨j, -, rfl⟩) <;> omega
  · rcases chain_entry hn h with rfl | rfl <;> have := h.1 <;> split <;> omega
  · rcases chain_entry hn h with rfl | rfl <;> have := h.1 <;> have := h.2.1 <;> split <;> omega
  · rcases chain_entry hn h with rfl | rfl <;> have := h.1 <;> split <;> omega

def exampleCall : ClusterCall where
  opts := ⟨.DENSE, true, true, .SVF_BEST, .SBV⟩
  order := ⟨id, fun _ => .rfl⟩
  orderPts := ⟨id, fun _ => .rfl⟩
  hclust_fast := chain
  numObjects := 66
  getPts key := if key = 70 then List.range 64 else [65]
  keys := [(70, 1), (71, 1), (72, 1)]
  candidates := []
  evalSubtitle := "aux-ander"

/-- The region of the object 65 comes first, and the object 64 has one of its own. -/
def exampleMap : List ℕ := [126, 127] ++ ((List.range 62).map fun i => 125 - i) ++ [128, 0]

theorem exampleCall_run : ∃ cs, exampleCall.run = some (exampleMap, cs) := by
  have h : exampleCall.run.map (·.1) = some exampleMap := by decide +kernel
  obtain ⟨⟨m, cs⟩, hrun, rfl⟩ := Option.map_eq_some_iff.mp h
  exact ⟨cs, hrun⟩

theorem exampleCall_meets : exampleCall.Meets where
  clusters := clusters_chain
  pos := by decide
  max := by decide
  objects := by decide
  fits regions hregions := by
    have h : (makeRegions exampleCall.opts exampleCall.order exampleCall.orderPts exampleCall.numObjects
        (collectPointsToSets exampleCall.getPts exampleCall.keys)).map
        (fun regions => decide (idsUsed true 0 (regions.map (·.objects.length)) ≤ UINT_MAX)) = some true := by
      decide +kernel
    rw [hregions, Option.map_some, Option.some_inj, decide_eq_true_eq] at h
    exact h
  given := by simp [exampleCall]

theorem cluster_remaps_example :
    (∃ res, exampleCall.run = some res) ∧
    Agrees [.set true 3, .set false 65, .setCurrentBestNodeMapping exampleMap, .checkAndRemap true,
      .checkAndRemap false, .orAssign true false, .test true 65, .set true 66] (.init Bool) fun _ => ∅ := by
  obtain ⟨hrun, -, hagrees⟩ := cluster_remaps exampleCall_meets
  refine ⟨hrun rfl (by decide), hagrees Bool _ fun m hm => ?_⟩
  simp only [List.mem_cons, List.not_mem_nil, reduceCtorEq, Op.setCurrentBestNodeMapping.injEq, or_false,
    false_or] at hm
  subst hm
  exact ⟨exampleCall, exampleCall_meets, exampleCall_run⟩

/-- The union of a set that has been remapped and one that has not fails an assertion. -/
theorem mixed_union_rejected : Produced exampleMap ∧ ∃ s : State Bool,
    (([.set true 3, .set false 65, .setCurrentBestNodeMapping exampleMap, .checkAndRemap true] :
      List (Op Bool)).foldlM (fun (s : State Bool) (op : Op Bool) => (op.exec s).map (·.1)) (State.init Bool)) = some s ∧
    (Op.orAssign true false).exec s = none := by
  refine ⟨⟨exampleCall, exampleCall_meets, exampleCall_run⟩, ?_⟩
  have h : ((([.set true 3, .set false 65, .setCurrentBestNodeMapping exampleMap, .checkAndRemap true] :
      List (Op Bool)).foldlM (fun (s : State Bool) (op : Op Bool) => (op.exec s).map (·.1)) (State.init Bool)).map
      fun s => ((Op.orAssign true false).exec s).isNone) = some true := by decide +kernel
  obtain ⟨s, hs, hnone⟩ := Option.map_eq_some_iff.mp h
  exact ⟨s, hs, Option.isNone_iff_eq_none.mp hnone⟩

end SVF.MemoryModel.RemappedPointsTo
