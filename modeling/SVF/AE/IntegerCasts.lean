import SVF.AE.IntervalDivision
import SVF.AE.States
import SVF.Util.Wraparound

namespace SVF.AE.IntegerCasts

open NumericValue NumericValue.BoundedInt Intervals States BoundArithmetic
open IntervalDivision.Bound (getNumeral)
open Util.DefaultMaps Util.Wraparound

inductive SVFType where
  | integer (byteSize : ℕ) (signAndWidth : ℤ)
  | otherType (byteSize : ℕ)
  /-- Pointers, functions, structures and arrays. -/
  | remaining (byteSize : ℕ)

namespace SVFType

def getByteSize : SVFType → ℕ
  | integer byteSize _ => byteSize
  | otherType byteSize => byteSize
  | remaining byteSize => byteSize

def bits (type : SVFType) : ℕ := type.getByteSize * 8 % 2 ^ 32

end SVFType

inductive CopyKind where
  | COPYVAL | ZEXT | SEXT | BITCAST | TRUNC | FPTRUNC | FPTOUI | FPTOSI | UITOFP | SITOFP | INTTOPTR | PTRTOINT
  deriving DecidableEq

open CopyKind

structure CopyStmt where
  copyKind : CopyKind
  lhs : NodeID
  rhs : NodeID
  lhsType : SVFType
  rhsType : SVFType

section

open IntervalValue

def limits (signed : Bool) (bits : ℕ) : IntervalValue :=
  if signed then ⟨num (-2 ^ (bits - 1)), num (2 ^ (bits - 1) - 1)⟩ else ⟨num 0, num (2 ^ bits - 1)⟩

def getRangeLimitFromType : SVFType → IntervalValue
  | type@(.integer _ signAndWidth) =>
      if type.bits ≥ 32 then limits (signAndWidth < 0) 32
      else if type.bits = 16 then limits (signAndWidth < 0) 16
      else if type.bits = 8 then limits (signAndWidth < 0) 8
      else .ofInt 0
  | .otherType _ => limits true 32
  | .remaining _ => top

def toSigned (bits : ℕ) (n : ℤ) : ℤ := (BitVec.ofInt bits n).toInt

def toUnsigned (bits : ℕ) (n : ℤ) : ℤ := (BitVec.ofInt bits n).toNat

/-- `none` is a failed assertion. -/
def zextNumeral (bits : ℕ) (n : ℤ) : Option ℤ :=
  if bits = 8 then some (toUnsigned 8 (toSigned 8 n))
  else if bits = 16 then some (toUnsigned 16 (toSigned 16 n))
  else if bits = 32 then some (toUnsigned 32 (toSigned 32 n))
  else if bits = 64 then some n
  else none

def getZExtValue (as : AbstractState) (var : NodeID) (type : SVFType) : Option (IntervalValue × AbstractState) :=
  match type with
  | .integer _ _ =>
      let (v, as) := as.getVar var
      if v.interval.is_numeral then
        (zextNumeral type.bits (getNumeral v.interval.lb)).map fun n => (.ofInt n, as)
      else some (top, as)
  | _ => some (top, as)

def truncTo (bits : ℕ) (itv : IntervalValue) (dstType : SVFType) : IntervalValue :=
  if toSigned bits (getNumeral itv.lb) > toSigned bits (getNumeral itv.ub) then getRangeLimitFromType dstType
  else ⟨num (toSigned bits (getNumeral itv.lb)), num (toSigned bits (getNumeral itv.ub))⟩

/-- `none` is the exception of a variable without a value, or a failed assertion. -/
def getTruncValue (as : AbstractState) (var : NodeID) (dstType : SVFType) : Option IntervalValue :=
  if var ∈ as.varToAbsVal.keys then
    let itv := (as.varToAbsVal.get var).interval
    if itv.isBottom then some itv
    else if dstType.bits = 8 then some (truncTo 8 itv dstType)
    else if dstType.bits = 16 then some (truncTo 16 itv dstType)
    else if dstType.bits = 32 then some (truncTo 32 itv dstType)
    else none
  else none

def updateStateOnCopy (copy : CopyStmt) (as : AbstractState) : Option AbstractState :=
  match copy.copyKind with
  | COPYVAL =>
      let (v, as) := as.getVar copy.rhs
      some (as.setVar copy.lhs v)
  | ZEXT => (getZExtValue as copy.rhs copy.rhsType).map fun (v, as) => as.setVar copy.lhs ⟨v, []⟩
  | SEXT | FPTOSI | FPTOUI | SITOFP | UITOFP | FPTRUNC =>
      let (v, as) := as.getVar copy.rhs
      some (as.setVar copy.lhs ⟨v.interval, []⟩)
  | TRUNC => (getTruncValue as copy.rhs copy.lhsType).map fun v => as.setVar copy.lhs ⟨v, []⟩
  | INTTOPTR => some as
  | PTRTOINT => some (as.setVar copy.lhs ⟨top, []⟩)
  | BITCAST =>
      let (v, as) := as.getVar copy.rhs
      some (if v.isAddr then as.setVar copy.lhs v else as)

end

/-- An integer type, and how the analysis reads its values. A comparison writes 0 or 1 as a 1-bit value,
so a 1-bit type can be read without a sign; constants and all other types are read as signed. -/
structure IntegerType where
  width : ℕ
  byteSize : ℕ
  signed : Bool
  pos : 0 < width
  fits : width ≤ byteSize * 8
  sized : byteSize * 8 < 2 ^ 32
  oneBit : signed = false → width = 1

namespace IntegerType

variable (ty : IntegerType)

def toSVFType : SVFType := .integer ty.byteSize (-ty.width)

def interp (b : BitVec ty.width) : ℤ := if ty.signed then b.toInt else b.toNat

def low : ℤ := if ty.signed then -2 ^ (ty.width - 1) else 0

def high : ℤ := ty.low + 2 ^ ty.width - 1

def norm (x : ℤ) : ℤ := wrap ty.low (2 ^ ty.width) x

end IntegerType

def IsIntegerCast (src dst : IntegerType) : CopyKind → Prop
  | ZEXT | SEXT => src.width < dst.width
  | TRUNC => dst.width < src.width
  | _ => False

def castBits {w : ℕ} (b : BitVec w) (w' : ℕ) : CopyKind → BitVec w'
  | SEXT => b.signExtend w'
  | _ => b.setWidth w'

@[simp] theorem castBits_zext {w : ℕ} (b : BitVec w) (w' : ℕ) : castBits b w' ZEXT = b.setWidth w' := rfl

@[simp] theorem castBits_sext {w : ℕ} (b : BitVec w) (w' : ℕ) : castBits b w' SEXT = b.signExtend w' := rfl

@[simp] theorem castBits_trunc {w : ℕ} (b : BitVec w) (w' : ℕ) : castBits b w' TRUNC = b.setWidth w' := rfl

/-- The interval of the result has the cast of every value that the interval of the operand describes. -/
def Sound (src dst : IntegerType) (kind : CopyKind) (as : AbstractState) (lhs rhs : NodeID) : Prop :=
  ∃ as', updateStateOnCopy ⟨kind, lhs, rhs, dst.toSVFType, src.toSVFType⟩ as = some as' ∧
    ∀ b : BitVec src.width, src.interp b ∈ (as.varToAbsVal.get rhs).interval.concretize →
      dst.interp (castBits b dst.width kind) ∈ (as'.varToAbsVal.get lhs).interval.concretize

namespace IntegerType

variable {ty src dst : IntegerType} {x : ℤ}

theorem two_pow_width (ty : IntegerType) : (2 : ℤ) ^ ty.width = 2 * 2 ^ (ty.width - 1) := by
  obtain ⟨w, hw⟩ := Nat.exists_eq_succ_of_ne_zero ty.pos.ne'
  rw [hw, Nat.succ_eq_add_one, Nat.add_sub_cancel]
  ring

theorem two_pow_pos (ty : IntegerType) : (0 : ℤ) < 2 ^ ty.width := by positivity

theorem low_nonpos (ty : IntegerType) : ty.low ≤ 0 := by
  unfold low
  split
  · have h : (0 : ℤ) < 2 ^ (ty.width - 1) := by positivity
    omega
  · exact le_rfl

theorem high_nonneg (ty : IntegerType) : 0 ≤ ty.high := by
  have h : (0 : ℤ) < 2 ^ (ty.width - 1) := by positivity
  unfold high low
  rw [two_pow_width]
  split <;> omega

theorem interp_eq_norm (b : BitVec ty.width) : ty.interp b = ty.norm b.toNat := by
  unfold interp norm low
  split
  · rw [BitVec.toInt_eq_toNat_bmod, bmod_eq_wrap ty.pos]
  · symm
    apply wrap_of_mem
    · exact Int.natCast_nonneg _
    · rw [zero_add]
      exact_mod_cast b.isLt

theorem low_le_norm (ty : IntegerType) (x : ℤ) : ty.low ≤ ty.norm x := le_wrap ty.two_pow_pos x

theorem norm_le_high (ty : IntegerType) (x : ℤ) : ty.norm x ≤ ty.high := by
  have h := wrap_lt (m := ty.low) ty.two_pow_pos x
  unfold norm high
  omega

theorem norm_of_mem (hl : ty.low ≤ x) (hh : x ≤ ty.high) : ty.norm x = x := by
  apply wrap_of_mem hl
  unfold high at hh
  omega

theorem interp_ofInt (ty : IntegerType) (x : ℤ) : ty.interp (BitVec.ofInt ty.width x) = ty.norm x := by
  rw [interp_eq_norm]
  apply wrap_congr
  have hpos : (0 : ℤ) ≤ x % (2 ^ ty.width : ℕ) := Int.emod_nonneg _ (by positivity)
  rw [BitVec.toNat_ofInt, Int.toNat_of_nonneg hpos, Nat.cast_pow, Nat.cast_ofNat]
  exact Int.mod_modEq x _

theorem low_le_interp (b : BitVec ty.width) : ty.low ≤ ty.interp b := by
  rw [interp_eq_norm]
  exact ty.low_le_norm _

theorem interp_le_high (b : BitVec ty.width) : ty.interp b ≤ ty.high := by
  rw [interp_eq_norm]
  exact ty.norm_le_high _

theorem exists_interp (hl : ty.low ≤ x) (hh : x ≤ ty.high) : ∃ b, ty.interp b = x :=
  ⟨BitVec.ofInt ty.width x, by rw [interp_ofInt, norm_of_mem hl hh]⟩

theorem toNat_eq_emod (b : BitVec ty.width) : (b.toNat : ℤ) = ty.interp b % 2 ^ ty.width := by
  have hlt : (b.toNat : ℤ) < 2 ^ ty.width := by exact_mod_cast b.isLt
  have hmod : ty.interp b ≡ b.toNat [ZMOD 2 ^ ty.width] := by
    rw [interp_eq_norm]
    exact wrap_modEq _ _ _
  rw [hmod, Int.emod_eq_of_lt (Int.natCast_nonneg _) hlt]

theorem interp_of_lt (h : src.width < dst.width) (b : BitVec dst.width) : dst.interp b = b.toInt := by
  have hsigned : dst.signed = true := by
    by_contra hne
    have hone := dst.oneBit (Bool.not_eq_true _ ▸ hne)
    have hpos := src.pos
    omega
  rw [interp, if_pos hsigned]

theorem interp_zext (h : src.width < dst.width) (b : BitVec src.width) :
    dst.interp (b.setWidth dst.width) = src.interp b % 2 ^ src.width := by
  have hlt : 2 * 2 ^ src.width ≤ 2 ^ dst.width := by
    rw [← pow_succ']
    exact Nat.pow_le_pow_right (by norm_num) h
  have hb := b.isLt
  rw [interp_of_lt h, BitVec.toInt_eq_toNat_of_lt, BitVec.toNat_setWidth_of_le h.le, toNat_eq_emod]
  rw [BitVec.toNat_setWidth_of_le h.le]
  omega

theorem interp_sext (h : src.width < dst.width) (b : BitVec src.width) :
    dst.interp (b.signExtend dst.width) = b.toInt := by
  rw [interp_of_lt h, BitVec.toInt_signExtend_of_le h.le]

theorem interp_trunc (h : dst.width < src.width) (b : BitVec src.width) :
    dst.interp (b.setWidth dst.width) = dst.norm (src.interp b) := by
  have hdvd : (2 : ℤ) ^ dst.width ∣ 2 ^ src.width := pow_dvd_pow 2 h.le
  have hsrc : src.interp b ≡ b.toNat [ZMOD 2 ^ dst.width] := by
    rw [interp_eq_norm]
    exact (wrap_modEq _ _ _).of_dvd hdvd
  rw [interp_eq_norm, BitVec.toNat_setWidth]
  apply wrap_congr
  rw [Int.natCast_mod, Nat.cast_pow, Nat.cast_ofNat]
  exact (Int.mod_modEq _ _).trans hsrc.symm

@[simp] theorem bits_toSVFType (ty : IntegerType) : ty.toSVFType.bits = ty.byteSize * 8 := Nat.mod_eq_of_lt ty.sized

end IntegerType

end SVF.AE.IntegerCasts
