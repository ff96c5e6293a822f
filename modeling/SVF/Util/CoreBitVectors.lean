import SVF.Util.PackedBits

namespace SVF.Util.CoreBitVectors

open PackedBits

abbrev Word := BitVec 64

/-- The words hold the bits from the offset on. All bits are 32-bit numbers. -/
structure CoreBitVector where
  offset : ℕ
  words : List Word
  aligned : 64 ∣ offset
  bounded : offset + 64 * words.length ≤ 2 ^ 32
  offset_of_nil : words = [] → offset = 0
  deriving DecidableEq

namespace CoreBitVector

def new : CoreBitVector := ⟨0, [], by decide, by decide, fun _ => rfl⟩

def withWords (a : CoreBitVector) (words : List Word) (h : words.length = a.words.length) :
    CoreBitVector where
  offset := a.offset
  words := words
  aligned := a.aligned
  bounded := h ▸ a.bounded
  offset_of_nil hnil := a.offset_of_nil (List.eq_nil_of_length_eq_zero (by rw [← h, hnil, List.length_nil]))

def canHold (a : CoreBitVector) (bit : UInt32) : Bool :=
  a.offset ≤ bit.toNat && bit.toNat < a.offset + a.words.length * 64

def indexForBit (a : CoreBitVector) (bit : UInt32) : ℕ := (bit.toNat - a.offset) / 64

/-- The subtraction wraps around where there are no words. -/
def finalBit (a : CoreBitVector) : UInt32 :=
  .ofNat (a.offset + a.words.length * 64 + (2 ^ 32 - 1))

def extendBackward (a : CoreBitVector) (bit : UInt32) : CoreBitVector :=
  if h : a.offset ≤ bit.toNat / 64 * 64 then a
  else {
    offset := bit.toNat / 64 * 64
    words := List.replicate ((a.offset - bit.toNat / 64 * 64) / 64) 0 ++ a.words
    aligned := Nat.dvd_mul_left _ _
    bounded := by
      have := a.aligned
      have := a.bounded
      simp only [List.length_append, List.length_replicate]
      omega
    offset_of_nil := by
      intro hnil
      have := a.offset_of_nil (List.append_eq_nil_iff.mp hnil).2
      omega }

def extendForward (a : CoreBitVector) (bit : UInt32) : CoreBitVector :=
  if h : bit.toNat < a.offset ∨ a.canHold bit = true then a
  else {
    offset := a.offset
    words := a.words ++ List.replicate
      (1 + (bit.toNat / 64 * 64 - a.words.length * 64 - a.offset) / 64) 0
    aligned := a.aligned
    bounded := by
      have := a.aligned
      have := a.bounded
      have := bit.toNat_lt
      simp only [canHold, Bool.and_eq_true, decide_eq_true_eq, not_or, not_and] at h
      simp only [List.length_append, List.length_replicate]
      omega
    offset_of_nil := by simp [List.replicate_succ, Nat.add_comm 1] }

def extendTo (a : CoreBitVector) (bit : UInt32) : CoreBitVector :=
  if a.offset = 0 ∧ a.words.length = 0 then {
    offset := bit.toNat / 64 * 64
    words := [0]
    aligned := Nat.dvd_mul_left _ _
    bounded := by
      have := bit.toNat_lt
      simp only [List.length_singleton]
      omega
    offset_of_nil := by simp }
  else if bit.toNat < a.offset then a.extendBackward bit
  else if a.offset + a.words.length * 64 ≤ bit.toNat then a.extendForward bit
  else a

def empty (a : CoreBitVector) : Bool := a.words.all (· == 0)

def count (a : CoreBitVector) : UInt32 :=
  a.words.foldl (fun n w => n + .ofNat w.cpop.toNat) 0

def test (a : CoreBitVector) (bit : UInt32) : Bool :=
  if bit.toNat < a.offset || a.offset + a.words.length * 64 ≤ bit.toNat then false
  else
    let containingWord := a.words.getD ((bit.toNat - a.offset) / 64) 0
    let mask := (1 : Word) <<< (bit.toNat % 64)
    mask &&& containingWord != 0

def set (a : CoreBitVector) (bit : UInt32) : CoreBitVector :=
  let a := a.extendTo bit
  let mask := (1 : Word) <<< (bit.toNat % 64)
  a.withWords (a.words.modify ((bit.toNat - a.offset) / 64) (· ||| mask)) (List.length_modify _ _ _)

def testAndSet (a : CoreBitVector) (bit : UInt32) : CoreBitVector × Bool :=
  if a.test bit then (a, false) else (a.set bit, true)

def reset (a : CoreBitVector) (bit : UInt32) : CoreBitVector :=
  if bit.toNat < a.offset || a.offset + a.words.length * 64 ≤ bit.toNat then a
  else
    let mask := ~~~((1 : Word) <<< (bit.toNat % 64))
    a.withWords (a.words.modify ((bit.toNat - a.offset) / 64) (· &&& mask)) (List.length_modify _ _ _)

/-- The words of the right-hand side are read into the words that begin at its offset. -/
def orLoop : List Word → List Word → Word → List Word × Word
  | w :: this, v :: rhs, changed =>
      let (this, changed) := orLoop this rhs (changed ||| (w ^^^ (w ||| v)))
      ((w ||| v) :: this, changed)
  | this, _, changed => (this, changed)

def clearLoop : List Word → Bool → List Word × Bool
  | [], changed => ([], changed)
  | w :: this, changed =>
      let (this, changed) := clearLoop this (changed || w != 0)
      (0 :: this, changed)

/-- Where the words of the right-hand side end, the remaining words are cleared. -/
def andLoop : List Word → List Word → Bool → List Word × Bool
  | w :: this, v :: rhs, changed =>
      let (this, changed) := andLoop this rhs (changed || w != w &&& v)
      ((w &&& v) :: this, changed)
  | this, _, changed => clearLoop this changed

def minusLoop : List Word → List Word → Bool → List Word × Bool
  | w :: this, v :: rhs, changed =>
      let (this, changed) := minusLoop this rhs (changed || w != w &&& ~~~v)
      ((w &&& ~~~v) :: this, changed)
  | this, _, changed => (this, changed)

@[simp] theorem orLoop_length (this rhs : List Word) (changed : Word) :
    (orLoop this rhs changed).1.length = this.length := by
  induction this generalizing rhs changed with
  | nil => rfl
  | cons w this ih =>
      cases rhs with
      | nil => rfl
      | cons v rhs => exact congrArg (· + 1) (ih rhs _)

@[simp] theorem clearLoop_length (this : List Word) (changed : Bool) :
    (clearLoop this changed).1.length = this.length := by
  induction this generalizing changed with
  | nil => rfl
  | cons w this ih => exact congrArg (· + 1) (ih _)

@[simp] theorem andLoop_length (this rhs : List Word) (changed : Bool) :
    (andLoop this rhs changed).1.length = this.length := by
  induction this generalizing rhs changed with
  | nil => rfl
  | cons w this ih =>
      cases rhs with
      | nil => exact clearLoop_length _ _
      | cons v rhs => exact congrArg (· + 1) (ih rhs _)

@[simp] theorem minusLoop_length (this rhs : List Word) (changed : Bool) :
    (minusLoop this rhs changed).1.length = this.length := by
  induction this generalizing rhs changed with
  | nil => rfl
  | cons w this ih =>
      cases rhs with
      | nil => rfl
      | cons v rhs => exact congrArg (· + 1) (ih rhs _)

def withWordsFrom (a : CoreBitVector) (i : ℕ) (words : List Word)
    (h : words.length = (a.words.drop i).length) : CoreBitVector :=
  a.withWords (a.words.take i ++ words)
    (by rw [List.length_append, h, ← List.length_append, List.take_append_drop])

def extendOver (a rhs : CoreBitVector) : CoreBitVector :=
  let a := if a.finalBit < rhs.finalBit then a.extendForward rhs.finalBit else a
  if rhs.offset < a.offset then a.extendBackward (.ofNat rhs.offset) else a

def orWords (a rhs : CoreBitVector) : CoreBitVector × Bool :=
  let thisIndex := a.indexForBit (.ofNat rhs.offset)
  let loop := orLoop (a.words.drop thisIndex) rhs.words 0
  (a.withWordsFrom thisIndex loop.1 (orLoop_length _ _ _), loop.2 != 0)

def orAssign (same : Bool) (a rhs : CoreBitVector) : CoreBitVector × Bool :=
  if a.words.length = 0 then (rhs, rhs.words.length != 0)
  else if rhs.words.length = 0 then (a, false)
  else if same then (a, false)
  else (a.extendOver rhs).orWords rhs

def andWords (a rhs : CoreBitVector) (thisIndex rhsIndex : ℕ) : CoreBitVector × Bool :=
  let before := clearLoop (a.words.take thisIndex) false
  let loop := andLoop (a.words.drop thisIndex) (rhs.words.drop rhsIndex) before.2
  (a.withWords (before.1 ++ loop.1) (by
    rw [List.length_append, clearLoop_length, andLoop_length, ← List.length_append,
      List.take_append_drop]), loop.2)

def clearWords (a : CoreBitVector) : CoreBitVector × Bool :=
  let loop := clearLoop a.words false
  (a.withWords loop.1 (clearLoop_length _ _), loop.2)

def andAssign (a rhs : CoreBitVector) : CoreBitVector × Bool :=
  let greaterOffset := UInt32.ofNat (max a.offset rhs.offset)
  if !a.canHold greaterOffset || !rhs.canHold greaterOffset then a.clearWords
  else a.andWords rhs (a.indexForBit greaterOffset) (rhs.indexForBit greaterOffset)

def minusWords (a rhs : CoreBitVector) (thisIndex rhsIndex : ℕ) : CoreBitVector × Bool :=
  let loop := minusLoop (a.words.drop thisIndex) (rhs.words.drop rhsIndex) false
  (a.withWordsFrom thisIndex loop.1 (minusLoop_length _ _ _), loop.2)

def minusAssign (a rhs : CoreBitVector) : CoreBitVector × Bool :=
  let greaterOffset := UInt32.ofNat (max a.offset rhs.offset)
  if !a.canHold greaterOffset || !rhs.canHold greaterOffset then (a, false)
  else a.minusWords rhs (a.indexForBit greaterOffset) (rhs.indexForBit greaterOffset)

def intersectWithComplement (a rhs : CoreBitVector) : CoreBitVector × Bool := a.minusAssign rhs

def nextSetIndex (a : CoreBitVector) (start : ℕ) : ℕ :=
  start + (a.words.drop start).findIdx (· != 0)

def eqLoop (a rhs : CoreBitVector) : ℕ → ℕ → ℕ → Bool
  | 0, lhsSetIndex, rhsSetIndex => a.words.length ≤ lhsSetIndex && rhs.words.length ≤ rhsSetIndex
  | fuel + 1, lhsSetIndex, rhsSetIndex =>
      if lhsSetIndex < a.words.length && rhsSetIndex < rhs.words.length then
        if lhsSetIndex * 64 + a.offset != rhsSetIndex * 64 + rhs.offset ||
          a.words.getD lhsSetIndex 0 != rhs.words.getD rhsSetIndex 0 then false
        else eqLoop a rhs fuel (a.nextSetIndex (lhsSetIndex + 1)) (rhs.nextSetIndex (rhsSetIndex + 1))
      else a.words.length ≤ lhsSetIndex && rhs.words.length ≤ rhsSetIndex

def eq (a rhs : CoreBitVector) : Bool :=
  eqLoop a rhs a.words.length (a.nextSetIndex 0) (rhs.nextSetIndex 0)

def contains (a rhs : CoreBitVector) : Bool := (a.andAssign rhs).1.eq rhs

def intersectLoop : List Word → List Word → Bool
  | e :: eWords, l :: lWords => e &&& l != 0 || intersectLoop eWords lWords
  | _, _ => false

def intersects (a rhs : CoreBitVector) : Bool :=
  if a.empty && rhs.empty then false
  else
    let earlierOffsetCBV := if a.offset ≤ rhs.offset then a else rhs
    let laterOffsetCBV := if a.offset ≤ rhs.offset then rhs else a
    let earlierOffset := min a.offset rhs.offset / 64
    let laterOffset := max a.offset rhs.offset / 64
    intersectLoop (earlierOffsetCBV.words.drop (laterOffset - earlierOffset)) laterOffsetCBV.words

def hash (a : CoreBitVector) : BitVec 64 :=
  let h := a.words.foldl (fun (h w : BitVec 64) => h ^^^ (w + 0x9e3779b9 + (h <<< 6) + (h >>> 2)))
    (BitVec.ofNat 64 a.words.length)
  h + .ofNat 64 a.offset

structure CoreBitVectorIterator where
  wordIt : ℕ
  bit : ℕ
  deriving DecidableEq

def findSetBit (w : Word) (bit : ℕ) : ℕ :=
  bit + ((List.range' bit (64 - bit)).findIdx w.getLsbD)

def next (a : CoreBitVector) (it : CoreBitVectorIterator) : CoreBitVectorIterator :=
  let bit := it.bit + 1
  let it : CoreBitVectorIterator :=
    if bit = 64 || a.words.getD it.wordIt 0 >>> bit == 0 then ⟨a.nextSetIndex (it.wordIt + 1), 0⟩
    else ⟨it.wordIt, bit⟩
  if it.wordIt = a.words.length then it
  else ⟨it.wordIt, findSetBit (a.words.getD it.wordIt 0) it.bit⟩

def begin (a : CoreBitVector) : CoreBitVectorIterator :=
  let it : CoreBitVectorIterator := ⟨0, 0⟩
  if a.words.length ≠ 0 ∧ a.words.getD 0 0 &&& 1 = 0 then a.next it else it

def atEnd (a : CoreBitVector) (it : CoreBitVectorIterator) : Bool := it.wordIt == a.words.length

def deref (a : CoreBitVector) (it : CoreBitVectorIterator) : ℕ :=
  a.offset + it.wordIt * 64 + it.bit

def elementsFrom (a : CoreBitVector) : ℕ → CoreBitVectorIterator → List ℕ
  | 0, _ => []
  | fuel + 1, it => if a.atEnd it then [] else a.deref it :: elementsFrom a fuel (a.next it)

def elements (a : CoreBitVector) : List ℕ := a.elementsFrom (a.words.length * 64) a.begin

end CoreBitVector

end SVF.Util.CoreBitVectors
