import SVF.SVFIR.TypeFlattening

namespace SVF.SVFIR.GepOffsets

open TypeFlattening

inductive Index
  | const (width : ℕ) (value : BitVec width)
  | var (id : ℕ)

/-- What the type iterator of a gep passes: the pointer, then the aggregates. -/
inductive GepTy
  | pointer
  | type (T : Ty)

structure AccessPath where
  fldIdx : ℕ
  idxOperandPairs : List (Index × GepTy)

section

def getIntegerValue {width : ℕ} (value : BitVec width) : ℤ × ℕ :=
  if width ≤ 64 ∧ 1 ≤ width then (value.toInt, value.toNat) else (0, 0)

def toU32 (value : ℤ) : ℕ := (value % 2 ^ 32).toNat

def isSingleValueType : Ty → Bool
  | .scalar _ => true
  | .array _ _ => false
  | .struct _ => false

def elementAt : Ty → Index → Option Ty
  | .array _ e, _ => some e
  | .struct es, .const _ value => es[value.toNat]?
  | .struct _, .var _ => none
  | .scalar _, _ => none

def addOffsetVarAndGepTypePair (ap : AccessPath) (op : Index) (gepTy : GepTy) : AccessPath :=
  { ap with idxOperandPairs := ap.idxOperandPairs ++ [(op, gepTy)] }

variable (modelArrays : Bool)

/-- The offset that one index adds; `none` where an assertion fails. -/
def offsetAt : Ty → Index → Option ℕ
  | .array _ _, .var _ => some 0
  | .array n e, .const _ value =>
      let idx := toU32 (getIntegerValue value).1
      if n ≤ idx then some 0 else getFlattenedElemIdx modelArrays (.array n e) idx
  | .struct es, .const _ value => getFlattenedElemIdx modelArrays (.struct es) (toU32 (getIntegerValue value).1)
  | .struct _, .var _ => none
  | .scalar _, _ => some 0

/-- The rounds of the loop after the pointer. The tables of a type are built when it is met. -/
def descend : Ty → List Index → AccessPath → Option AccessPath
  | _, [], ap => some ap
  | T, op :: ops, ap =>
      (collectTypeInfo T).bind fun _ =>
        (offsetAt modelArrays T op).bind fun offset =>
          let ap := addOffsetVarAndGepTypePair ap op (.type T)
          (elementAt T op).bind fun e => descend e ops { ap with fldIdx := ap.fldIdx + offset }

def Index.isVar : Index → Bool
  | .const _ _ => false
  | .var _ => true

def computeGepOffset (source : Ty) (first : Index) (ops : List Index) : Option (AccessPath × Bool) :=
  (descend modelArrays source ops (addOffsetVarAndGepTypePair ⟨0, []⟩ first .pointer)).map fun ap =>
    (ap, !(first.isVar && isSingleValueType source))

end

section

/-- Only constants of 32 bits select an element of a structure. -/
def selects : Ty → Index → Prop
  | .array _ _, _ => True
  | .struct _, .const width _ => width = 32
  | .struct _, .var _ => False
  | .scalar _, _ => False

def WellTyped : Ty → List Index → Prop
  | _, [] => True
  | T, op :: ops => selects T op ∧ ∃ e, elementAt T op = some e ∧ WellTyped e ops

def Index.value (env : ℕ → ℤ) : Index → ℤ
  | .const _ value => (value.signExtend 64).toInt
  | .var id => env id

variable (modelArrays : Bool) (env : ℕ → ℤ)

def inside : Ty → Index → Prop
  | .array n _, op => 0 ≤ op.value env ∧ op.value env < n
  | .struct _, _ => True
  | .scalar _, _ => True

def InBounds : Ty → List Index → Prop
  | _, [] => True
  | T, op :: ops => inside env T op ∧ ∀ e, elementAt T op = some e → InBounds e ops

def indexIn : Ty → Index → ℕ
  | .array n e, op =>
      if modelArrays = true ∧ n * dims e ≠ 0 then (op.value env).toNat * (leaves e).length else 0
  | .struct es, .const _ value =>
      if modelArrays then (leavesAll (es.take value.toNat)).length else (fieldsAll (es.take value.toNat)).length
  | .struct _, .var _ => 0
  | .scalar _, _ => 0

def position : Ty → List Index → ℕ
  | _, [] => 0
  | T, op :: ops => indexIn modelArrays env T op + (elementAt T op).elim 0 fun e => position e ops

/-- The recorded index is right for every valuation inside the bounds. -/
def Sound (source : Ty) (first : Index) (ops : List Index) : Prop :=
  ∀ env, first.value env = 0 → InBounds env source ops →
    ∃ ap isConst, computeGepOffset modelArrays source first ops = some (ap, isConst) ∧
      (isConst = true → ap.fldIdx = position modelArrays env source ops)

/-- The code reads the index as it is: variables and constants of more than 64 bits read as zero. -/
def Index.Read : Index → Prop
  | .const width value => width ≤ 64 ∨ (value.signExtend 64).toInt = 0
  | .var id => env id = 0

def Index.Tabled : Index → Prop
  | .const _ value => toU32 (getIntegerValue value).1 = 0
  | .var _ => True

def Fine : Ty → Index → Prop
  | .array n e, op =>
      modelArrays = true → if n * dims e = 0 then op.Tabled else op.Read env ∨ (leaves e).length = 0
  | .struct _, _ => True
  | .scalar _, _ => True

def AllFine : Ty → List Index → Prop
  | _, [] => True
  | T, op :: ops => Fine modelArrays env T op ∧ ∀ e, elementAt T op = some e → AllFine e ops

end

section

variable {width : ℕ} (value : BitVec width)

theorem integerValue_narrow (h : width ≤ 64) : (getIntegerValue value).1 = (value.signExtend 64).toInt := by
  rw [getIntegerValue, BitVec.toInt_signExtend_of_le h]
  rcases Nat.eq_zero_or_pos width with hzero | hpos
  · rw [if_neg (by omega), BitVec.toInt_of_zero_length hzero]
  · rw [if_pos ⟨h, hpos⟩]

theorem integerValue_wide (h : ¬width ≤ 64) : (getIntegerValue value).1 = 0 := by
  rw [getIntegerValue, if_neg (fun hboth => h hboth.1)]

theorem toU32_le {v : ℤ} (h : 0 ≤ v) : toU32 v ≤ v.toNat := by
  rw [toU32]
  omega

theorem toU32_eq {v : ℤ} (h : 0 ≤ v) (hlt : v < 2 ^ 32) : toU32 v = v.toNat := by
  rw [toU32]
  omega

theorem read_le (h : 0 ≤ (value.signExtend 64).toInt) :
    toU32 (getIntegerValue value).1 ≤ (value.signExtend 64).toInt.toNat := by
  by_cases hwidth : width ≤ 64
  · rw [integerValue_narrow value hwidth]
    exact toU32_le h
  · rw [integerValue_wide value hwidth]
    exact Nat.zero_le _

theorem read_eq_iff (env : ℕ → ℤ) (h : 0 ≤ (value.signExtend 64).toInt) (hlt : (value.signExtend 64).toInt < 2 ^ 32) :
    toU32 (getIntegerValue value).1 = (value.signExtend 64).toInt.toNat ↔ (Index.const width value).Read env := by
  by_cases hwidth : width ≤ 64
  · rw [integerValue_narrow value hwidth, toU32_eq h hlt]
    exact iff_of_true rfl (Or.inl hwidth)
  · rw [integerValue_wide value hwidth]
    have hzero : toU32 0 = 0 := rfl
    rw [hzero]
    refine ⟨fun heq => Or.inr (by omega), fun hread => ?_⟩
    rcases hread with hread | hread
    · exact absurd hread hwidth
    · rw [hread]
      rfl

theorem read_i32 (value : BitVec 32) : toU32 (getIntegerValue value).1 = value.toNat := by
  have hpow : (2 : ℤ) ^ 32 = ((2 ^ 32 : ℕ) : ℤ) := by norm_num
  rw [getIntegerValue, if_pos (by decide), toU32, hpow, BitVec.toInt_eq_toNat_bmod, Int.bmod_emod,
    Int.emod_eq_of_lt (Int.natCast_nonneg _) (Int.ofNat_lt.mpr value.isLt), Int.toNat_natCast]

end

section

variable (modelArrays : Bool) (env : ℕ → ℤ)

/-- The code adds at most the index of the component, and all of it in the fine case only. -/
structure Level (T : Ty) (op : Index) : Prop where
  of_fine : Fine modelArrays env T op → offsetAt modelArrays T op = some (indexIn modelArrays env T op)
  le : ∀ {offset}, offsetAt modelArrays T op = some offset → offset ≤ indexIn modelArrays env T op
  fine : offsetAt modelArrays T op = some (indexIn modelArrays env T op) → Fine modelArrays env T op

theorem getFlattenedElemIdx_hollow {n : ℕ} {e : Ty} (h : Small (.array n e)) (hzero : n * dims e = 0) (i : ℕ) :
    getFlattenedElemIdx true (.array n e) i = if i = 0 then some 0 else none := by
  obtain ⟨info, hinfo, hflat⟩ := collectTypeInfo_spec _ h
  have hvec : info.elemIdxVec = if n * dims e = 0 then [0] else _ := hflat.vecs
  rw [if_pos hzero] at hvec
  rw [getFlattenedElemIdx, hinfo, Option.bind_some, if_pos rfl, hvec]
  cases i with
  | zero => rfl
  | succ i => rfl

theorem getFlattenedElemIdx_array {n : ℕ} {e : Ty} (h : Small (.array n e)) (hzero : n * dims e ≠ 0) {i : ℕ}
    (hi : i < n) : getFlattenedElemIdx true (.array n e) i = some (i * (leaves e).length) := by
  obtain ⟨info, hinfo, hflat⟩ := collectTypeInfo_spec _ h
  have hvec : info.elemIdxVec = if n * dims e = 0 then [0] else (List.range n).map fun i => i * (leaves e).length :=
    hflat.vecs
  rw [if_neg hzero] at hvec
  rw [getFlattenedElemIdx, hinfo, Option.bind_some, if_pos rfl, hvec, List.getElem?_map, List.getElem?_range hi,
    Option.map_some]

theorem getFlattenedElemIdx_off {n : ℕ} {e : Ty} (h : Small (.array n e)) (i : ℕ) :
    getFlattenedElemIdx false (.array n e) i = some 0 := by
  obtain ⟨info, hinfo, -⟩ := collectTypeInfo_spec _ h
  rw [getFlattenedElemIdx, hinfo]
  rfl

theorem getFlattenedElemIdx_struct {es : List Ty} (h : Small (.struct es)) {i : ℕ} (hi : i < es.length) :
    getFlattenedElemIdx modelArrays (.struct es) i =
      some (if modelArrays then (leavesAll (es.take i)).length else (fieldsAll (es.take i)).length) := by
  obtain ⟨info, hinfo, hflat⟩ := collectTypeInfo_spec _ h
  obtain ⟨helem, hfld⟩ := hflat.vecs
  rw [getFlattenedElemIdx, hinfo, Option.bind_some]
  cases modelArrays with
  | true => simp [helem, hi]
  | false => simp [hfld, hi]

theorem level_of_eq {T : Ty} {op : Index} (hoffset : offsetAt modelArrays T op = some (indexIn modelArrays env T op))
    (hfine : Fine modelArrays env T op) : Level modelArrays env T op :=
  ⟨fun _ => hoffset, fun h => (Option.some.inj (h.symm.trans hoffset)).le, fun _ => hfine⟩

theorem level_struct {es : List Ty} {op : Index} {e : Ty} (h : Small (.struct es)) (hop : selects (.struct es) op)
    (he : elementAt (.struct es) op = some e) : Level modelArrays env (.struct es) op := by
  cases op with
  | const width value =>
      change width = 32 at hop
      subst hop
      obtain ⟨hlt, -⟩ := List.getElem?_eq_some_iff.mp he
      refine level_of_eq modelArrays env ?_ trivial
      rw [offsetAt, read_i32, getFlattenedElemIdx_struct modelArrays h hlt]
      rfl
  | var id => exact hop.elim

theorem level_array_var {n : ℕ} {e : Ty} {id : ℕ} (hinside : inside env (.array n e) (.var id)) :
    Level modelArrays env (.array n e) (.var id) := by
  have hnonneg : 0 ≤ env id := hinside.1
  have hiff : indexIn modelArrays env (.array n e) (.var id) = 0 ↔ Fine modelArrays env (.array n e) (.var id) := by
    rw [indexIn, Fine]
    by_cases hzero : n * dims e = 0
    · rw [if_neg (fun hboth => hboth.2 hzero), if_pos hzero]
      exact iff_of_true rfl fun _ => trivial
    · rw [if_neg hzero]
      cases modelArrays with
      | false => exact iff_of_true (if_neg fun hboth => Bool.noConfusion hboth.1) fun hon => Bool.noConfusion hon
      | true =>
          rw [if_pos ⟨rfl, hzero⟩, Nat.mul_eq_zero]
          refine ⟨fun h _ => h.imp_left fun h => ?_, fun h => (h rfl).imp_left fun h => ?_⟩
          · change env id = 0
            change (env id).toNat = 0 at h
            omega
          · change env id = 0 at h
            change (env id).toNat = 0
            omega
  refine ⟨fun h => ?_, fun h => ?_, fun h => ?_⟩
  · rw [hiff.mpr h]
    rfl
  · rw [← Option.some.inj h]
    exact Nat.zero_le _
  · exact hiff.mp (Option.some.inj h).symm

theorem offsetAt_const {n : ℕ} {e : Ty} {width : ℕ} {value : BitVec width}
    (hinside : inside env (.array n e) (.const width value)) : offsetAt modelArrays (.array n e) (.const width value) =
      getFlattenedElemIdx modelArrays (.array n e) (toU32 (getIntegerValue value).1) := by
  have hnonneg : 0 ≤ (value.signExtend 64).toInt := hinside.1
  have hlt : (value.signExtend 64).toInt < n := hinside.2
  have hle := read_le value hnonneg
  rw [offsetAt]
  exact if_neg (by omega)

theorem level_array_const {n : ℕ} {e : Ty} {width : ℕ} {value : BitVec width} (h : Small (.array n e))
    (hinside : inside env (.array n e) (.const width value)) :
    Level modelArrays env (.array n e) (.const width value) := by
  have hnonneg : 0 ≤ (value.signExtend 64).toInt := hinside.1
  have hlt : (value.signExtend 64).toInt < n := hinside.2
  have hle := read_le value hnonneg
  have hoffset := offsetAt_const modelArrays env hinside
  cases modelArrays with
  | false =>
      refine level_of_eq false env ?_ fun hon => Bool.noConfusion hon
      rw [hoffset, getFlattenedElemIdx_off h]
      rfl
  | true =>
      by_cases hzero : n * dims e = 0
      · have hindex : indexIn true env (.array n e) (.const width value) = 0 := if_neg fun hboth => hboth.2 hzero
        have hfine : Fine true env (.array n e) (.const width value) ↔ toU32 (getIntegerValue value).1 = 0 := by
          rw [Fine, if_pos hzero]
          exact ⟨fun h => h rfl, fun h _ => h⟩
        rw [getFlattenedElemIdx_hollow h hzero] at hoffset
        refine ⟨fun h => ?_, fun h => ?_, fun h => ?_⟩
        · rw [hoffset, if_pos (hfine.mp h), hindex]
        · rw [hoffset] at h
          split at h
          · rw [← Option.some.inj h]
            exact Nat.zero_le _
          · exact absurd h.symm (Option.some_ne_none _)
        · rw [hoffset] at h
          split at h
          · exact hfine.mpr ‹_›
          · exact absurd h.symm (Option.some_ne_none _)
      · have hindex : indexIn true env (.array n e) (.const width value) =
            (value.signExtend 64).toInt.toNat * (leaves e).length := if_pos ⟨rfl, hzero⟩
        have hsmall : n * dims e < 2 ^ 32 := h.1
        have hbound : n ≤ n * dims e := Nat.le_mul_of_pos_right n (Nat.pos_of_ne_zero fun hd => hzero (by rw [hd, Nat.mul_zero]))
        have hread := read_eq_iff value env hnonneg (by omega)
        have hfine : Fine true env (.array n e) (.const width value) ↔
            toU32 (getIntegerValue value).1 = (value.signExtend 64).toInt.toNat ∨ (leaves e).length = 0 := by
          rw [Fine, if_neg hzero, hread]
          exact ⟨fun h => h rfl, fun h _ => h⟩
        rw [getFlattenedElemIdx_array h hzero (by omega)] at hoffset
        refine ⟨fun h => ?_, fun h => ?_, fun h => ?_⟩
        · rw [hoffset, hindex]
          rcases hfine.mp h with heq | hnone
          · rw [heq]
          · rw [hnone, Nat.mul_zero, Nat.mul_zero]
        · rw [← Option.some.inj (hoffset.symm.trans h), hindex]
          exact Nat.mul_le_mul_right _ hle
        · have heq := Option.some.inj (hoffset.symm.trans h)
          rw [hindex] at heq
          exact hfine.mpr (mul_eq_mul_right_iff.mp heq)

theorem level {T : Ty} {op : Index} {e : Ty} (h : Small T) (hop : selects T op) (he : elementAt T op = some e)
    (hinside : inside env T op) : Level modelArrays env T op := by
  cases T with
  | scalar id => exact hop.elim
  | array n e =>
      cases op with
      | const width value => exact level_array_const modelArrays env h hinside
      | var id => exact level_array_var modelArrays env hinside
  | struct es => exact level_struct modelArrays env h hop he

theorem small_of_mem : ∀ {es : List Ty}, SmallAll es → ∀ e ∈ es, Small e
  | [], _, _, he => absurd he List.not_mem_nil
  | _ :: _, h, e, he => by
      rcases List.mem_cons.mp he with rfl | he
      · exact h.1
      · exact small_of_mem h.2 e he

theorem small_elementAt {T : Ty} {op : Index} {e : Ty} (h : Small T) (he : elementAt T op = some e) : Small e := by
  cases T with
  | scalar id => exact absurd he.symm (Option.some_ne_none _)
  | array n e' =>
      rw [← Option.some.inj he]
      exact h.2.2
  | struct es =>
      cases op with
      | const width value => exact small_of_mem h.2 e (List.mem_of_getElem? he)
      | var id => exact absurd he.symm (Option.some_ne_none _)

end

section

variable (modelArrays : Bool) (env : ℕ → ℤ)

theorem descend_cons {T e : Ty} {op : Index} (ops : List Index) (ap : AccessPath) (h : Small T)
    (he : elementAt T op = some e) : descend modelArrays T (op :: ops) ap =
      (offsetAt modelArrays T op).bind fun offset =>
        descend modelArrays e ops
          ⟨ap.fldIdx + offset, ap.idxOperandPairs ++ [(op, .type T)]⟩ := by
  obtain ⟨info, hinfo, -⟩ := collectTypeInfo_spec T h
  rw [descend, hinfo, Option.bind_some, he]
  rfl

theorem position_cons {T e : Ty} {op : Index} (ops : List Index) (he : elementAt T op = some e) :
    position modelArrays env T (op :: ops) = indexIn modelArrays env T op + position modelArrays env e ops := by
  rw [position, he]
  rfl

theorem descend_of_allFine : ∀ {T : Ty} {ops : List Index} (ap : AccessPath), Small T → WellTyped T ops →
    InBounds env T ops → AllFine modelArrays env T ops →
      ∃ ap', descend modelArrays T ops ap = some ap' ∧ ap'.fldIdx = ap.fldIdx + position modelArrays env T ops
  | _, [], ap, _, _, _, _ => ⟨ap, rfl, rfl⟩
  | T, op :: ops, ap, hsmall, ⟨hop, e, he, htyped⟩, hin, hfine => by
      have hlevel := level modelArrays env hsmall hop he hin.1
      obtain ⟨ap', hdescend, hidx⟩ := descend_of_allFine
        ⟨ap.fldIdx + indexIn modelArrays env T op, ap.idxOperandPairs ++ [(op, .type T)]⟩
        (small_elementAt hsmall he) htyped (hin.2 e he) (hfine.2 e he)
      refine ⟨ap', ?_, ?_⟩
      · rw [descend_cons modelArrays ops ap hsmall he, hlevel.of_fine hfine.1]
        exact hdescend
      · rw [hidx, position_cons modelArrays env ops he, Nat.add_assoc]

/-- No index is recorded too large, so one lost at a level is not made up for at another. -/
theorem descend_le : ∀ {T : Ty} {ops : List Index} {ap ap' : AccessPath}, Small T → WellTyped T ops →
    InBounds env T ops → descend modelArrays T ops ap = some ap' →
      ap'.fldIdx ≤ ap.fldIdx + position modelArrays env T ops ∧
        (ap'.fldIdx = ap.fldIdx + position modelArrays env T ops → AllFine modelArrays env T ops)
  | _, [], ap, ap', _, _, _, h => by
      rw [← Option.some.inj h]
      exact ⟨le_rfl, fun _ => trivial⟩
  | T, op :: ops, ap, ap', hsmall, ⟨hop, e, he, htyped⟩, hin, h => by
      have hlevel := level modelArrays env hsmall hop he hin.1
      rw [descend_cons modelArrays ops ap hsmall he] at h
      obtain ⟨offset, hoffset, hrest⟩ := Option.bind_eq_some_iff.mp h
      obtain ⟨hle, heq⟩ := descend_le (small_elementAt hsmall he) htyped (hin.2 e he) hrest
      have hadds := hlevel.le hoffset
      rw [position_cons modelArrays env ops he]
      change ap'.fldIdx ≤ ap.fldIdx + offset + position modelArrays env e ops at hle
      refine ⟨by omega, fun htotal => ?_⟩
      have hsame : offset = indexIn modelArrays env T op := by omega
      rw [hsame] at hoffset
      refine ⟨hlevel.fine hoffset, fun e' he' => ?_⟩
      rw [← Option.some.inj (he.symm.trans he')]
      refine heq ?_
      change ap'.fldIdx = ap.fldIdx + offset + position modelArrays env e ops
      omega

end

theorem constant_or_plain {source : Ty} (first : Index) {ops : List Index} (h : WellTyped source ops) :
    (!(first.isVar && isSingleValueType source)) = true ∨ ops = [] := by
  cases source with
  | scalar id =>
      cases ops with
      | nil => exact Or.inr rfl
      | cons op ops => exact h.1.elim
  | array n e => exact Or.inl (by rw [isSingleValueType, Bool.and_false]; rfl)
  | struct es => exact Or.inl (by rw [isSingleValueType, Bool.and_false]; rfl)

theorem computeGepOffset_sound_iff (modelArrays : Bool) {source : Ty} (first : Index) {ops : List Index} (hsmall : Small source)
    (htyped : WellTyped source ops) : Sound modelArrays source first ops ↔
      ∀ env, first.value env = 0 → InBounds env source ops → AllFine modelArrays env source ops := by
  refine forall_congr' fun env => forall_congr' fun _ => forall_congr' fun hin => ⟨fun h => ?_, fun h => ?_⟩
  · obtain ⟨ap, isConst, hcompute, hidx⟩ := h
    obtain ⟨ap', hdescend, hpair⟩ := Option.map_eq_some_iff.mp hcompute
    obtain ⟨rfl, rfl⟩ := Prod.mk.inj hpair
    rcases constant_or_plain first htyped with hconst | rfl
    · refine (descend_le modelArrays env hsmall htyped hin hdescend).2 ?_
      rw [hidx hconst]
      exact (Nat.zero_add _).symm
    · exact trivial
  · obtain ⟨ap, hdescend, hidx⟩ := descend_of_allFine modelArrays env
      (addOffsetVarAndGepTypePair ⟨0, []⟩ first .pointer) hsmall htyped hin h
    refine ⟨ap, !(first.isVar && isSingleValueType source), ?_, fun _ => ?_⟩
    · rw [computeGepOffset, hdescend]
      rfl
    · rw [hidx]
      exact Nat.zero_add _

theorem computeGepOffset_sound_second : Sound true (.struct [.scalar 0, .array 2 (.scalar 0)]) (.const 64 0)
    [.const 32 1, .const 64 1] := by
  refine (computeGepOffset_sound_iff true (.const 64 0) ?_ ?_).mpr fun env _ _ => ?_
  · exact ⟨by decide, trivial, ⟨by decide, by decide, trivial⟩, trivial⟩
  · exact ⟨rfl, _, rfl, trivial, _, rfl, trivial⟩
  · refine ⟨trivial, fun e he => ?_⟩
    rw [← Option.some.inj he]
    exact ⟨fun _ => Or.inl (Or.inl le_rfl), fun _ _ => trivial⟩

/-- A variable index into an array of four integers. -/
theorem computeGepOffset_unsound : ¬∀ modelArrays source first ops, TypeFlattening.Small source → WellTyped source ops →
    Sound modelArrays source first ops := by
  intro h
  have hsound := h true (.array 4 (.scalar 0)) (.const 64 0) [.var 0] ⟨by decide, by decide, trivial⟩
    ⟨trivial, _, rfl, trivial⟩ (fun _ => 1) rfl ⟨⟨by decide, by decide⟩, fun _ _ => trivial⟩
  obtain ⟨ap, isConst, hcompute, hidx⟩ := hsound
  have hvalue : computeGepOffset true (.array 4 (.scalar 0)) (.const 64 0) [.var 0] =
      some (⟨0, [(.const 64 0, .pointer), (.var 0, .type (.array 4 (.scalar 0)))]⟩, true) := rfl
  obtain ⟨rfl, rfl⟩ := Prod.mk.inj (Option.some.inj (hvalue.symm.trans hcompute))
  exact absurd (hidx rfl) (by decide)

end SVF.SVFIR.GepOffsets
