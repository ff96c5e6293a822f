import Mathlib.Order.Lattice.Nat
import SVF.MemoryModel.PointsToSets

namespace SVF.MemoryModel.EnumeratedPointsTo

open PointsToSets (NodeID)

abbrev NodeBS := PointsToSets.PointsTo

inductive PtType where
  | SBV
  | CBV
  | BV
  deriving DecidableEq

inductive PTBackingType where
  | Mutable
  | Persistent
  deriving DecidableEq

def ElementSize : ℕ := 128

def WordSize : ℕ := 64

/-- The vector of a core bit vector: its first bit and the number of its words. -/
structure Words where
  offset : ℕ
  size : ℕ

namespace Words

variable (words : Words)

def canHold (bit : ℕ) : Bool :=
  words.offset ≤ bit && bit < words.offset + words.size * WordSize

def extendBackward (bit : ℕ) : Words :=
  let newOffset := bit / WordSize * WordSize
  if newOffset ≥ words.offset then words
  else ⟨newOffset, words.size + (words.offset - newOffset) / WordSize⟩

def extendForward (bit : ℕ) : Words :=
  if bit < words.offset || words.canHold bit then words
  else
    let bitsWord := bit / WordSize * WordSize
    let wordsToAdd := 1 + (bitsWord - words.size * WordSize - words.offset) / WordSize
    ⟨words.offset, words.size + wordsToAdd⟩

def extendTo (bit : ℕ) : Words :=
  if words.offset = 0 ∧ words.size = 0 then ⟨bit / WordSize * WordSize, 1⟩
  else if bit < words.offset then words.extendBackward bit
  else if bit ≥ words.offset + words.size * WordSize then words.extendForward bit
  else words

variable {words}

theorem extendTo_of_canHold {bit : ℕ} (h : words.canHold bit = true) :
    words.extendTo bit = words := by
  rw [canHold, Bool.and_eq_true, decide_eq_true_eq, decide_eq_true_eq] at h
  have hempty : ¬ (words.offset = 0 ∧ words.size = 0) := by
    rintro ⟨hoffset, hsize⟩
    rw [hoffset, hsize] at h
    omega
  rw [extendTo, if_neg hempty, if_neg (by omega), if_neg (by omega)]

end Words

/-- A points-to set over its backing bit vector, which holds internal numbers. A sparse
bit vector has no words but a list of elements, one for each block of `ElementSize`
numbers that has a bit. -/
structure PointsTo where
  type : PtType
  nodeMapping : Equiv.Perm NodeID
  bits : Finset ℕ
  words : Words

namespace PointsTo

variable (pt : PointsTo)

def getInternalNode (n : NodeID) : ℕ := pt.nodeMapping n

def getExternalNode (n : ℕ) : NodeID := pt.nodeMapping.symm n

instance : Membership NodeID PointsTo := ⟨fun pt n => pt.getInternalNode n ∈ pt.bits⟩

instance (n : NodeID) : Decidable (n ∈ pt) :=
  inferInstanceAs (Decidable (pt.getInternalNode n ∈ pt.bits))

def test (n : NodeID) : Bool := n ∈ pt

def set (n : NodeID) : PointsTo :=
  { pt with
    bits := insert (pt.getInternalNode n) pt.bits
    words := match pt.type with
      | .SBV => pt.words
      | .CBV | .BV => pt.words.extendTo (pt.getInternalNode n) }

def test_and_set (n : NodeID) : PointsTo := if pt.test n then pt else pt.set n

def reset (n : NodeID) : PointsTo := { pt with bits := pt.bits.erase (pt.getInternalNode n) }

/-- The iterator at `n` after `reset`, which erases a list element without bits. -/
def validAfterReset (n : NodeID) : Bool :=
  match pt.type with
  | .SBV => decide (∃ bit ∈ (pt.reset n).bits,
      bit / ElementSize = pt.getInternalNode n / ElementSize)
  | .CBV | .BV => true

/-- The iterators after `test_and_set`, which may add words to a vector. -/
def validAfterSet (n : NodeID) : Bool :=
  match pt.type with
  | .SBV => true
  | .CBV | .BV => pt.test n || pt.words.canHold (pt.getInternalNode n)

variable {pt}

theorem mem_iff {n : NodeID} : n ∈ pt ↔ pt.nodeMapping n ∈ pt.bits := Iff.rfl

theorem getExternalNode_mem {bit : ℕ} : pt.getExternalNode bit ∈ pt ↔ bit ∈ pt.bits := by
  rw [mem_iff, getExternalNode, Equiv.apply_symm_apply]

@[simp] theorem mem_reset {n x : NodeID} : x ∈ pt.reset n ↔ x ∈ pt ∧ x ≠ n := by
  change pt.nodeMapping x ∈ pt.bits.erase (pt.nodeMapping n) ↔ _
  rw [Finset.mem_erase, ne_eq, pt.nodeMapping.injective.eq_iff, and_comm]
  exact Iff.rfl

@[simp] theorem mem_test_and_set {n x : NodeID} : x ∈ pt.test_and_set n ↔ x ∈ pt ∨ x = n := by
  rw [test_and_set]
  split
  · rename_i htest
    constructor
    · exact Or.inl
    · rintro (hx | rfl)
      · exact hx
      · exact of_decide_eq_true htest
  · change pt.nodeMapping x ∈ insert (pt.nodeMapping n) pt.bits ↔ _
    rw [Finset.mem_insert, pt.nodeMapping.injective.eq_iff, or_comm]
    exact Iff.rfl

theorem test_and_set_type (n : NodeID) : (pt.test_and_set n).type = pt.type := by
  rw [test_and_set]
  split <;> rfl

theorem test_and_set_nodeMapping (n : NodeID) :
    (pt.test_and_set n).nodeMapping = pt.nodeMapping := by
  rw [test_and_set]
  split <;> rfl

theorem validAfterReset_SBV (htype : pt.type = .SBV) (n : NodeID) :
    pt.validAfterReset n = true ↔ ∃ y ∈ pt, y ≠ n ∧
      pt.getInternalNode y / ElementSize = pt.getInternalNode n / ElementSize := by
  rw [validAfterReset, htype, decide_eq_true_eq]
  constructor
  · rintro ⟨bit, hbit, hblock⟩
    have hy := mem_reset.mp ((@getExternalNode_mem (pt.reset n) bit).mpr hbit)
    refine ⟨pt.getExternalNode bit, hy.1, hy.2, ?_⟩
    rwa [getInternalNode, getExternalNode, Equiv.apply_symm_apply]
  · rintro ⟨y, hy, hne, hblock⟩
    exact ⟨pt.getInternalNode y, mem_reset.mpr ⟨hy, hne⟩, hblock⟩

theorem words_test_and_set {n : NodeID} (h : pt.validAfterSet n = true) :
    (pt.test_and_set n).words = pt.words := by
  rw [validAfterSet] at h
  rw [test_and_set]
  cases htest : pt.test n with
  | true => rfl
  | false =>
      rw [set]
      cases htype : pt.type with
      | SBV => rfl
      | CBV | BV =>
          rw [htype, htest] at h
          exact Words.extendTo_of_canHold h

end PointsTo

/-- The sets that `getPts` returns, and those that the points-to data keeps beside
them: differences, what has been propagated, the sets at locations or of versions. -/
structure PTData where
  backing : PTBackingType
  ptsMap : NodeID → PointsTo
  otherPts : List PointsTo

namespace PTData

variable (ptD : PTData)

def getPts (n : NodeID) : PointsTo := ptD.ptsMap n

def clearPts (n element : NodeID) : PTData :=
  { ptD with ptsMap := Function.update ptD.ptsMap n ((ptD.ptsMap n).reset element) }

def addPts (n element : NodeID) : PTData :=
  { ptD with ptsMap := Function.update ptD.ptsMap n ((ptD.ptsMap n).test_and_set element) }

/-- What a reference to the points-to set of `n` refers to. A set of the cache does not
change, and the variable gets another one. -/
def referredPts (n : NodeID) (tmpPts : PointsTo) : PointsTo :=
  match ptD.backing with
  | .Mutable => ptD.getPts n
  | .Persistent => tmpPts

/-- The iterator at `obj` over the set that has been read before is still valid when `obj`
has been replaced by `baseObj`. -/
def validAfter (n obj baseObj : NodeID) : Bool :=
  match ptD.backing with
  | .Mutable => (ptD.getPts n).validAfterReset obj &&
      ((ptD.clearPts n obj).getPts n).validAfterSet baseObj
  | .Persistent => true

/-- The turn of the enumeration at an internal number, where `none` is the use of an
iterator that is no longer valid. -/
def replaceField (dropNodes : NodeBS) (getBaseObjVar : NodeID → NodeID) (n : NodeID)
    (tmpPts : PointsTo) (ptD : PTData) (bit : ℕ) : Option PTData :=
  if bit ∈ (ptD.referredPts n tmpPts).bits then
    let obj := tmpPts.getExternalNode bit
    if obj ∉ dropNodes then some ptD
    else
      let baseObj := getBaseObjVar obj
      if ptD.validAfter n obj baseObj then some ((ptD.clearPts n obj).addPts n baseObj) else none
  else some ptD

/-- No number from here on is in the set at any time. -/
def bound (dropNodes : NodeBS) (getBaseObjVar : NodeID → NodeID) (tmpPts : PointsTo) : ℕ :=
  (tmpPts.bits ∪ (dropNodes.elems.map fun obj =>
    tmpPts.getInternalNode (getBaseObjVar obj)).toFinset).sup id + 1

/-- `for (NodeID obj : getPts(n))`: the enumeration in ascending order of a set that is
modified meanwhile. -/
def replaceFields (dropNodes : NodeBS) (getBaseObjVar : NodeID → NodeID) (ptD : PTData)
    (n : NodeID) : Option PTData :=
  let tmpPts := ptD.getPts n
  (List.range (bound dropNodes getBaseObjVar tmpPts)).foldlM
    (replaceField dropNodes getBaseObjVar n tmpPts) ptD

end PTData

section

def MemAfter (drop : NodeID → Prop) (base : NodeID → NodeID) (pt : PointsTo) (k : ℕ)
    (x : NodeID) : Prop :=
  x ∈ pt ∧ ¬ (drop x ∧ pt.getInternalNode x < k) ∨
    ∃ e ∈ pt, drop e ∧ pt.getInternalNode e < k ∧ x = base e

def TurnValid (drop : NodeID → Prop) (base : NodeID → NodeID) (pt : PointsTo) (obj : NodeID) :
    Prop :=
  match pt.type with
  | .SBV => ∃ y, y ≠ obj ∧
      pt.getInternalNode y / ElementSize = pt.getInternalNode obj / ElementSize ∧
      MemAfter drop base pt (pt.getInternalNode obj) y
  | .CBV | .BV => base obj ∈ pt ∨ pt.words.canHold (pt.getInternalNode (base obj)) = true

structure Enumerated (drop : NodeID → Prop) (base : NodeID → NodeID) (ptD : PTData) (n : NodeID)
    (k : ℕ) (ptD' : PTData) : Prop where
  backing : ptD'.backing = ptD.backing
  other : ptD'.otherPts = ptD.otherPts
  rest : ∀ n', n' ≠ n → ptD'.getPts n' = ptD.getPts n'
  type : (ptD'.getPts n).type = (ptD.getPts n).type
  mapping : (ptD'.getPts n).nodeMapping = (ptD.getPts n).nodeMapping
  words : ptD.backing = .Mutable → (ptD'.getPts n).words = (ptD.getPts n).words
  mem : ∀ x, x ∈ ptD'.getPts n ↔ MemAfter drop base (ptD.getPts n) k x

variable {dropNodes : NodeBS} {base : NodeID → NodeID} {ptD ptD' : PTData} {n : NodeID} {k : ℕ}

theorem getPts_clearPts (n obj : NodeID) :
    (ptD.clearPts n obj).getPts n = (ptD.getPts n).reset obj := Function.update_self _ _ _

theorem getPts_replaced (n obj baseObj : NodeID) :
    ((ptD.clearPts n obj).addPts n baseObj).getPts n =
      ((ptD.getPts n).reset obj).test_and_set baseObj := by
  rw [← getPts_clearPts]
  exact Function.update_self _ _ _

theorem getPts_replaced_of_ne {n' : NodeID} (hne : n' ≠ n) (obj baseObj : NodeID) :
    ((ptD.clearPts n obj).addPts n baseObj).getPts n' = ptD.getPts n' := by
  change Function.update _ n _ n' = _
  rw [Function.update_of_ne hne]
  exact Function.update_of_ne hne _ _

theorem mem_referredPts (h : Enumerated (· ∈ dropNodes) base ptD n k ptD')
    (hbase : ∀ e ∈ dropNodes, base e ∉ dropNodes) {x : NodeID}
    (hx : (ptD.getPts n).getInternalNode x = k) :
    k ∈ (ptD'.referredPts n (ptD.getPts n)).bits ∧ x ∈ dropNodes ↔
      x ∈ ptD.getPts n ∧ x ∈ dropNodes := by
  refine and_congr_left fun hdrop => ?_
  rw [PTData.referredPts]
  cases ptD'.backing with
  | Persistent =>
      change k ∈ (ptD.getPts n).bits ↔ _
      rw [← hx]
      exact Iff.rfl
  | Mutable =>
      have hmem : x ∈ ptD'.getPts n ↔ k ∈ (ptD'.getPts n).bits := by
        rw [PointsTo.mem_iff, h.mapping, ← hx]
        exact Iff.rfl
      refine hmem.symm.trans ((h.mem x).trans ⟨?_, fun hmem => .inl ⟨hmem, ?_⟩⟩)
      · rintro (⟨hmem, -⟩ | ⟨e, -, hedrop, -, rfl⟩)
        · exact hmem
        · exact absurd hdrop (hbase e hedrop)
      · rintro ⟨-, hlt⟩
        omega

theorem memAfter_succ_of_not {drop : NodeID → Prop} {pt : PointsTo} {x : NodeID}
    (hx : pt.getInternalNode x = k) (hnot : ¬ (x ∈ pt ∧ drop x)) (y : NodeID) :
    MemAfter drop base pt (k + 1) y ↔ MemAfter drop base pt k y := by
  have hlt : ∀ e, e ∈ pt → drop e →
      (pt.getInternalNode e < k + 1 ↔ pt.getInternalNode e < k) := by
    intro e he hdrop
    have hne : pt.getInternalNode e ≠ k := by
      intro heq
      have hxe : x = e := pt.nodeMapping.injective (hx.trans heq.symm)
      exact hnot (hxe ▸ ⟨he, hdrop⟩)
    omega
  refine or_congr (and_congr_right fun hy => not_congr (and_congr_right (hlt y hy))) ?_
  refine exists_congr fun e => and_congr_right fun he => and_congr_right fun hdrop => ?_
  rw [hlt e he hdrop]

theorem memAfter_succ {drop : NodeID → Prop} {pt : PointsTo} {x : NodeID}
    (hx : pt.getInternalNode x = k) (hmem : x ∈ pt) (hdrop : drop x)
    (hbase : ∀ e, drop e → ¬ drop (base e)) (y : NodeID) :
    MemAfter drop base pt (k + 1) y ↔ MemAfter drop base pt k y ∧ y ≠ x ∨ y = base x := by
  have hlt : ∀ e, pt.getInternalNode e < k + 1 ↔ pt.getInternalNode e < k ∨ e = x := by
    intro e
    rw [Nat.lt_succ_iff_lt_or_eq, ← hx]
    exact or_congr_right pt.nodeMapping.injective.eq_iff
  constructor
  · rintro (⟨hy, hnot⟩ | ⟨e, he, hedrop, helt, rfl⟩)
    · refine .inl ⟨.inl ⟨hy, fun h => hnot ⟨h.1, (hlt y).mpr (.inl h.2)⟩⟩, ?_⟩
      rintro rfl
      exact hnot ⟨hdrop, (hlt y).mpr (.inr rfl)⟩
    · rcases (hlt e).mp helt with helt | rfl
      · exact .inl ⟨.inr ⟨e, he, hedrop, helt, rfl⟩, fun heq => hbase e hedrop (heq ▸ hdrop)⟩
      · exact .inr rfl
  · rintro (⟨⟨hy, hnot⟩ | ⟨e, he, hedrop, helt, rfl⟩, hne⟩ | rfl)
    · refine .inl ⟨hy, fun h => ?_⟩
      rcases (hlt y).mp h.2 with hylt | rfl
      · exact hnot ⟨h.1, hylt⟩
      · exact hne rfl
    · exact .inr ⟨e, he, hedrop, (hlt e).mpr (.inl helt), rfl⟩
    · exact .inr ⟨x, hmem, hdrop, (hlt x).mpr (.inr rfl), rfl⟩

def ValidBelow (drop : NodeID → Prop) (base : NodeID → NodeID) (ptD : PTData) (n : NodeID)
    (k : ℕ) : Prop :=
  ptD.backing = .Mutable → ∀ e ∈ ptD.getPts n, drop e → (ptD.getPts n).getInternalNode e < k →
    TurnValid drop base (ptD.getPts n) e

theorem validAfter_iff (h : Enumerated (· ∈ dropNodes) base ptD n k ptD')
    (hbase : ∀ e ∈ dropNodes, base e ∉ dropNodes) (hmutable : ptD.backing = .Mutable)
    (hvalid : ValidBelow (· ∈ dropNodes) base ptD n k) {x : NodeID}
    (hx : (ptD.getPts n).getInternalNode x = k) (hdrop : x ∈ dropNodes) :
    ptD'.validAfter n x (base x) = true ↔ TurnValid (· ∈ dropNodes) base (ptD.getPts n) x := by
  have hinternal : ∀ y, (ptD'.getPts n).getInternalNode y = (ptD.getPts n).getInternalNode y :=
    fun y => by rw [PointsTo.getInternalNode, h.mapping]; rfl
  rw [PTData.validAfter, h.backing, hmutable, TurnValid]
  change ((ptD'.getPts n).validAfterReset x && _) = true ↔ _
  rw [Bool.and_eq_true, getPts_clearPts, PointsTo.validAfterSet]
  change _ ∧ (match (ptD'.getPts n).type with | .SBV => true | .CBV | .BV => _) = true ↔ _
  -- the word at which the base is set has been there at the start or since an earlier turn
  have hvector : (∀ y, TurnValid (· ∈ dropNodes) base (ptD.getPts n) y ↔
        base y ∈ ptD.getPts n ∨
          (ptD.getPts n).words.canHold ((ptD.getPts n).getInternalNode (base y)) = true) →
      ((((ptD'.getPts n).reset x).test (base x) || ((ptD'.getPts n).reset x).words.canHold
          (((ptD'.getPts n).reset x).getInternalNode (base x))) = true ↔
        base x ∈ ptD.getPts n ∨
          (ptD.getPts n).words.canHold ((ptD.getPts n).getInternalNode (base x)) = true) := by
    intro hturn
    have hne : base x ≠ x := fun heq => hbase x hdrop (heq.symm ▸ hdrop)
    have hwords : ((ptD'.getPts n).reset x).words.canHold
        (((ptD'.getPts n).reset x).getInternalNode (base x)) =
        (ptD.getPts n).words.canHold ((ptD.getPts n).getInternalNode (base x)) := by
      change (ptD'.getPts n).words.canHold ((ptD'.getPts n).getInternalNode (base x)) = _
      rw [h.words hmutable, hinternal]
    rw [Bool.or_eq_true, hwords, PointsTo.test, decide_eq_true_eq, PointsTo.mem_reset, h.mem]
    constructor
    · rintro (⟨⟨hmem, -⟩ | ⟨e, he, hedrop, helt, heq⟩, -⟩ | hhold)
      · exact .inl hmem
      · rw [heq]
        exact (hturn e).mp (hvalid hmutable e he hedrop helt)
      · exact .inr hhold
    · rintro (hmem | hhold)
      · exact .inl ⟨.inl ⟨hmem, fun hd => hbase x hdrop hd.1⟩, hne⟩
      · exact .inr hhold
  cases htype : (ptD.getPts n).type with
  | SBV =>
      have htype' : (ptD'.getPts n).type = .SBV := h.type.trans htype
      rw [htype', PointsTo.validAfterReset_SBV htype']
      simp only [hinternal, h.mem, and_true]
      constructor
      · rintro ⟨y, hy, hne, hblock⟩
        exact ⟨y, hne, hblock, hx.symm ▸ hy⟩
      · rintro ⟨y, hne, hblock, hy⟩
        exact ⟨y, hx ▸ hy, hne, hblock⟩
  | CBV | BV =>
      rw [PointsTo.validAfterReset, h.type, htype]
      refine (and_iff_right rfl).trans (hvector fun y => ?_)
      rw [TurnValid, htype]

theorem enumerated_replaced (h : Enumerated (· ∈ dropNodes) base ptD n k ptD')
    (hbase : ∀ e ∈ dropNodes, base e ∉ dropNodes) {x : NodeID}
    (hx : (ptD.getPts n).getInternalNode x = k) (hmem : x ∈ ptD.getPts n) (hdrop : x ∈ dropNodes)
    (hwords : ptD.backing = .Mutable → (((ptD'.getPts n).reset x).test_and_set (base x)).words =
      (ptD'.getPts n).words) :
    Enumerated (· ∈ dropNodes) base ptD n (k + 1) ((ptD'.clearPts n x).addPts n (base x)) where
  backing := h.backing
  other := h.other
  rest n' hne := (getPts_replaced_of_ne hne x (base x)).trans (h.rest n' hne)
  type := by rw [getPts_replaced, PointsTo.test_and_set_type]; exact h.type
  mapping := by rw [getPts_replaced, PointsTo.test_and_set_nodeMapping]; exact h.mapping
  words hmutable := by rw [getPts_replaced, hwords hmutable, h.words hmutable]
  mem y := by
    rw [getPts_replaced, PointsTo.mem_test_and_set, PointsTo.mem_reset, h.mem,
      memAfter_succ hx hmem hdrop hbase]

theorem enumerated_skipped (h : Enumerated (· ∈ dropNodes) base ptD n k ptD') {x : NodeID}
    (hx : (ptD.getPts n).getInternalNode x = k)
    (hnot : ¬ (x ∈ ptD.getPts n ∧ x ∈ dropNodes)) :
    Enumerated (· ∈ dropNodes) base ptD n (k + 1) ptD' where
  backing := h.backing
  other := h.other
  rest := h.rest
  type := h.type
  mapping := h.mapping
  words := h.words
  mem y := (h.mem y).trans (memAfter_succ_of_not hx hnot y).symm

theorem validBelow_succ {drop : NodeID → Prop} {x : NodeID}
    (hx : (ptD.getPts n).getInternalNode x = k) :
    ValidBelow drop base ptD n (k + 1) ↔ ValidBelow drop base ptD n k ∧
      (ptD.backing = .Mutable → x ∈ ptD.getPts n → drop x →
        TurnValid drop base (ptD.getPts n) x) := by
  constructor
  · exact fun h => ⟨fun hm e he hd hlt => h hm e he hd (by omega),
      fun hm hmem hd => h hm x hmem hd (by omega)⟩
  · rintro ⟨hbelow, hturn⟩ hm e he hd hlt
    rcases Nat.lt_succ_iff_lt_or_eq.mp hlt with hlt | heq
    · exact hbelow hm e he hd hlt
    · obtain rfl : e = x := (ptD.getPts n).nodeMapping.injective (heq.trans hx.symm)
      exact hturn hm he hd

/-- One turn: it is done, or it uses an iterator that is no longer valid. -/
theorem replaceField_step (h : Enumerated (· ∈ dropNodes) base ptD n k ptD')
    (hbase : ∀ e ∈ dropNodes, base e ∉ dropNodes)
    (hvalid : ValidBelow (· ∈ dropNodes) base ptD n k) :
    (ValidBelow (· ∈ dropNodes) base ptD n (k + 1) ∧
      ∃ ptD'', PTData.replaceField dropNodes base n (ptD.getPts n) ptD' k = some ptD'' ∧
        Enumerated (· ∈ dropNodes) base ptD n (k + 1) ptD'') ∨
    (¬ ValidBelow (· ∈ dropNodes) base ptD n (k + 1) ∧
      PTData.replaceField dropNodes base n (ptD.getPts n) ptD' k = none) := by
  have hx : (ptD.getPts n).getInternalNode ((ptD.getPts n).getExternalNode k) = k :=
    Equiv.apply_symm_apply _ _
  have hreferred := mem_referredPts h hbase hx
  rw [validBelow_succ hx, PTData.replaceField]
  generalize (ptD.getPts n).getExternalNode k = x at hx hreferred
  by_cases hturn : x ∈ ptD.getPts n ∧ x ∈ dropNodes
  · obtain ⟨hmem, hdrop⟩ := hturn
    rw [if_pos (hreferred.mpr ⟨hmem, hdrop⟩).1]
    simp only [not_not.mpr hdrop, if_false]
    by_cases hok : ptD'.validAfter n x (base x) = true
    · rw [if_pos hok]
      refine .inl ⟨⟨hvalid, fun hmutable _ _ =>
        (validAfter_iff h hbase hmutable hvalid hx hdrop).mp hok⟩, _, rfl,
        enumerated_replaced h hbase hx hmem hdrop fun hmutable => ?_⟩
      rw [PTData.validAfter, h.backing, hmutable, Bool.and_eq_true, getPts_clearPts] at hok
      exact PointsTo.words_test_and_set hok.2
    · rw [if_neg hok]
      have hmutable : ptD.backing = .Mutable := by
        cases hbacking : ptD.backing with
        | Mutable => rfl
        | Persistent =>
            rw [PTData.validAfter, h.backing, hbacking] at hok
            exact absurd rfl hok
      exact .inr ⟨fun hall => hok ((validAfter_iff h hbase hmutable hvalid hx hdrop).mpr
        (hall.2 hmutable hmem hdrop)), rfl⟩
  · refine .inl ⟨⟨hvalid, fun _ hmem hdrop => absurd ⟨hmem, hdrop⟩ hturn⟩, ptD', ?_,
      enumerated_skipped h hx hturn⟩
    by_cases hbit : k ∈ (ptD'.referredPts n (ptD.getPts n)).bits
    · have hdrop : x ∉ dropNodes := fun hdrop => hturn (hreferred.mp ⟨hbit, hdrop⟩)
      rw [if_pos hbit]
      exact if_pos hdrop
    · exact if_neg hbit

theorem replaceField_run (hbase : ∀ e ∈ dropNodes, base e ∉ dropNodes) (ptD : PTData) (n : NodeID)
    (k : ℕ) :
    (ValidBelow (· ∈ dropNodes) base ptD n k ∧ ∃ ptD', (List.range k).foldlM
      (PTData.replaceField dropNodes base n (ptD.getPts n)) ptD = some ptD' ∧
        Enumerated (· ∈ dropNodes) base ptD n k ptD') ∨
    (¬ ValidBelow (· ∈ dropNodes) base ptD n k ∧ (List.range k).foldlM
      (PTData.replaceField dropNodes base n (ptD.getPts n)) ptD = none) := by
  induction k with
  | zero =>
      refine .inl ⟨fun _ e _ _ hlt => absurd hlt (Nat.not_lt_zero _), ptD, rfl, ?_⟩
      refine ⟨rfl, rfl, fun _ _ => rfl, rfl, rfl, fun _ => rfl, fun x => ?_⟩
      simp [MemAfter]
  | succ k ih =>
      rw [List.range_succ, List.foldlM_append]
      rcases ih with ⟨hvalid, ptD', hrun, henum⟩ | ⟨hinvalid, hrun⟩
      · rw [hrun]
        change (_ ∧ ∃ ptD'', List.foldlM _ ptD' [k] = some ptD'' ∧ _) ∨
          (_ ∧ List.foldlM _ ptD' [k] = none)
        rw [List.foldlM_cons]
        rcases replaceField_step henum hbase hvalid with
          ⟨hvalid', ptD'', hstep, henum'⟩ | ⟨hinvalid, hstep⟩
        · rw [hstep]
          exact .inl ⟨hvalid', ptD'', rfl, henum'⟩
        · rw [hstep]
          exact .inr ⟨hinvalid, rfl⟩
      · rw [hrun]
        refine .inr ⟨fun hall => hinvalid fun hm e he hd hlt => hall hm e he hd (by omega), rfl⟩

theorem lt_bound {pt : PointsTo} {x : NodeID} (hx : x ∈ pt) :
    pt.getInternalNode x < PTData.bound dropNodes base pt :=
  Nat.lt_succ_of_le (Finset.le_sup (f := id) (Finset.mem_union_left _ hx))

def EnumerationValid (drop : NodeID → Prop) (base : NodeID → NodeID) (ptD : PTData)
    (n : NodeID) : Prop :=
  ptD.backing = .Mutable → ∀ e ∈ ptD.getPts n, drop e → TurnValid drop base (ptD.getPts n) e

/-- The set of `n` has its dropped objects replaced, and the others are as before. -/
structure Replaced (drop : NodeID → Prop) (base : NodeID → NodeID) (ptD : PTData) (n : NodeID)
    (ptD' : PTData) : Prop where
  backing : ptD'.backing = ptD.backing
  other : ptD'.otherPts = ptD.otherPts
  rest : ∀ n', n' ≠ n → ptD'.getPts n' = ptD.getPts n'
  mem : ∀ x, x ∈ ptD'.getPts n ↔
    x ∈ ptD.getPts n ∧ ¬ drop x ∨ ∃ e ∈ ptD.getPts n, drop e ∧ x = base e

theorem replaceFields_cases (hbase : ∀ e ∈ dropNodes, base e ∉ dropNodes) (ptD : PTData)
    (n : NodeID) :
    (EnumerationValid (· ∈ dropNodes) base ptD n ∧ ∃ ptD',
      ptD.replaceFields dropNodes base n = some ptD' ∧ Replaced (· ∈ dropNodes) base ptD n ptD') ∨
    (¬ EnumerationValid (· ∈ dropNodes) base ptD n ∧
      ptD.replaceFields dropNodes base n = none) := by
  have hall : ValidBelow (· ∈ dropNodes) base ptD n (PTData.bound dropNodes base (ptD.getPts n)) ↔
      EnumerationValid (· ∈ dropNodes) base ptD n :=
    ⟨fun h hm e he hd => h hm e he hd (lt_bound he), fun h hm e he hd _ => h hm e he hd⟩
  rcases replaceField_run hbase ptD n
    (PTData.bound dropNodes base (ptD.getPts n)) with ⟨hvalid, ptD', hrun, henum⟩ | ⟨hinvalid, hrun⟩
  · refine .inl ⟨hall.mp hvalid, ptD', hrun, henum.backing, henum.other, henum.rest, fun x => ?_⟩
    rw [henum.mem]
    refine or_congr (and_congr_right fun hx => ?_) ?_
    · exact not_congr (and_iff_left (lt_bound hx))
    · exact exists_congr fun e => and_congr_right fun he =>
        and_congr_right fun _ => and_iff_right (lt_bound he)
  · exact .inr ⟨fun h => hinvalid (hall.mpr h), hrun⟩

structure ReplacedAll (drop : NodeID → Prop) (base : NodeID → NodeID) (ptD : PTData)
    (nodes : List NodeID) (ptD' : PTData) : Prop where
  backing : ptD'.backing = ptD.backing
  other : ptD'.otherPts = ptD.otherPts
  rest : ∀ n, n ∉ nodes → ptD'.getPts n = ptD.getPts n
  mem : ∀ n ∈ nodes, ∀ x, x ∈ ptD'.getPts n ↔
    x ∈ ptD.getPts n ∧ ¬ drop x ∨ ∃ e ∈ ptD.getPts n, drop e ∧ x = base e

theorem replaceAll_cases (hbase : ∀ e ∈ dropNodes, base e ∉ dropNodes) {nodes : List NodeID}
    (hnodup : nodes.Nodup) (ptD : PTData) :
    ((∀ n ∈ nodes, EnumerationValid (· ∈ dropNodes) base ptD n) ∧ ∃ ptD',
      nodes.foldlM (fun ptD n => ptD.replaceFields dropNodes base n) ptD = some ptD' ∧
        ReplacedAll (· ∈ dropNodes) base ptD nodes ptD') ∨
    (¬ (∀ n ∈ nodes, EnumerationValid (· ∈ dropNodes) base ptD n) ∧
      nodes.foldlM (fun ptD n => ptD.replaceFields dropNodes base n) ptD = none) := by
  induction nodes generalizing ptD with
  | nil => exact .inl ⟨by simp, ptD, rfl, rfl, rfl, fun _ _ => rfl, by simp⟩
  | cons m nodes ih =>
      obtain ⟨hm, hnodup⟩ := List.nodup_cons.mp hnodup
      rw [List.foldlM_cons]
      rcases replaceFields_cases hbase ptD m with ⟨hvalid, ptD', hrun, hrep⟩ | ⟨hinvalid, hrun⟩
      · have hrest : ∀ n ∈ nodes, ptD'.getPts n = ptD.getPts n :=
          fun n hn => hrep.rest n (ne_of_mem_of_not_mem hn hm)
        have hiff : (∀ n ∈ nodes, EnumerationValid (· ∈ dropNodes) base ptD' n) ↔
            ∀ n ∈ m :: nodes, EnumerationValid (· ∈ dropNodes) base ptD n := by
          rw [List.forall_mem_cons, and_iff_right hvalid]
          refine forall₂_congr fun n hn => ?_
          rw [EnumerationValid, EnumerationValid, hrep.backing, hrest n hn]
        rw [hrun]
        rcases ih hnodup ptD' with ⟨hall, ptD'', hrun', hrep'⟩ | ⟨hnot, hrun'⟩
        · refine .inl ⟨hiff.mp hall, ptD'', hrun', hrep'.backing.trans hrep.backing,
            hrep'.other.trans hrep.other, fun n hn => ?_, fun n hn x => ?_⟩
          · rw [List.mem_cons, not_or] at hn
            rw [hrep'.rest n hn.2, hrep.rest n hn.1]
          · rcases List.mem_cons.mp hn with rfl | hn
            · rw [hrep'.rest n hm]
              exact hrep.mem x
            · rw [hrep'.mem n hn, hrest n hn]
        · exact .inr ⟨fun hall => hnot (hiff.mpr hall), hrun'⟩
      · rw [hrun]
        exact .inr ⟨fun hall => hinvalid (hall m List.mem_cons_self), rfl⟩

end

end SVF.MemoryModel.EnumeratedPointsTo
