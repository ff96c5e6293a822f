import Mathlib.Data.List.Basic
import Mathlib.Tactic.Ring

namespace SVF.SVFIR.TypeFlattening

inductive Ty
  | scalar (id : ℕ)
  | array (numElements : ℕ) (elementType : Ty)
  | struct (elements : List Ty)

/-- The tables of a flattened type. While a structure is flattened the two numbers are the
running counters. -/
structure StInfo where
  fldIdxVec : List ℕ
  elemIdxVec : List ℕ
  flattenFieldTypes : List Ty
  flattenElementTypes : List Ty
  numOfFlattenFields : ℕ
  numOfFlattenElements : ℕ

section

def collectSimpleTypeInfo (ty : Ty) : StInfo := ⟨[0], [0], [ty], [ty], 1, 1⟩

/-- The loops over the elements run in 32 bits against a bound of 64 bits, and do not end for a
larger bound. -/
def collectArrayInfo (numElements totalElemNum : ℕ) (elemTy : Ty) (elemStInfo : Option StInfo) :
    Option StInfo :=
  if totalElemNum = 0 then some ⟨[0], [0], [elemTy], [elemTy], 1, 1⟩
  else
    elemStInfo.bind fun elemStInfo =>
      let nfF := elemStInfo.numOfFlattenFields
      let nfE := elemStInfo.numOfFlattenElements
      let outArrayElemNum := numElements % 2 ^ 32
      if 2 ^ 32 ≤ totalElemNum then none
      else
        let types := (List.replicate totalElemNum (elemStInfo.flattenElementTypes.take nfE)).flatten
        if types.length = nfE * totalElemNum % 2 ^ 64 then
          some ⟨List.replicate outArrayElemNum 0,
            (List.range outArrayElemNum).map fun i =>
              (i * nfE % 2 ^ 32 * totalElemNum % 2 ^ 64) / outArrayElemNum % 2 ^ 32,
            elemStInfo.flattenFieldTypes.take nfF, types, nfF, nfE * totalElemNum % 2 ^ 32⟩
        else none

def addElement (stInfo subStInfo : StInfo) : StInfo :=
  let nfF := subStInfo.numOfFlattenFields
  let nfE := subStInfo.numOfFlattenElements
  { fldIdxVec := stInfo.fldIdxVec ++ [stInfo.numOfFlattenFields]
    elemIdxVec := stInfo.elemIdxVec ++ [stInfo.numOfFlattenElements]
    flattenFieldTypes := stInfo.flattenFieldTypes ++ subStInfo.flattenFieldTypes.take nfF
    flattenElementTypes := stInfo.flattenElementTypes ++ subStInfo.flattenElementTypes.take nfE
    numOfFlattenFields := (stInfo.numOfFlattenFields + nfF) % 2 ^ 32
    numOfFlattenElements := (stInfo.numOfFlattenElements + nfE) % 2 ^ 32 }

mutual

/-- `none` where an assertion fails or a loop does not end. -/
def collectTypeInfo : Ty → Option StInfo
  | .scalar id => some (collectSimpleTypeInfo (.scalar id))
  | .array numElements elementType =>
      let (totalElemNum, elemTy, elemStInfo) := collectInnermost elementType
      collectArrayInfo numElements (numElements * totalElemNum % 2 ^ 64) elemTy elemStInfo
  | .struct elements => collectStructInfo elements ⟨[], [], [], [], 0, 0⟩

/-- The loop over nested arrays: their number of elements, the innermost type, and its tables. -/
def collectInnermost : Ty → ℕ × Ty × Option StInfo
  | .scalar id => (1, .scalar id, some (collectSimpleTypeInfo (.scalar id)))
  | .array numElements elementType =>
      let (totalElemNum, elemTy, elemStInfo) := collectInnermost elementType
      (numElements * totalElemNum % 2 ^ 64, elemTy, elemStInfo)
  | .struct elements => (1, .struct elements, collectStructInfo elements ⟨[], [], [], [], 0, 0⟩)

def collectStructInfo : List Ty → StInfo → Option StInfo
  | [], stInfo => if stInfo.flattenElementTypes.length = stInfo.numOfFlattenElements then some stInfo else none
  | elemTy :: elements, stInfo =>
      (collectTypeInfo elemTy).bind fun subStInfo => collectStructInfo elements (addElement stInfo subStInfo)

end

variable (modelArrays : Bool)

def getFlattenedElemIdx (T : Ty) (origId : ℕ) : Option ℕ :=
  (collectTypeInfo T).bind fun info =>
    if modelArrays then info.elemIdxVec[origId]?
    else
      match T with
      | .struct _ => info.fldIdxVec[origId]?
      | .array _ _ => some 0
      | .scalar _ => none

def getFlatternedElemType (baseType : Ty) (flatten_idx : ℕ) : Option Ty :=
  (collectTypeInfo baseType).bind fun info =>
    if modelArrays then info.flattenElementTypes[flatten_idx]? else info.flattenFieldTypes[flatten_idx]?

def getNumOfFlattenElements (T : Ty) : Option ℕ :=
  (collectTypeInfo T).map fun info =>
    if modelArrays then info.numOfFlattenElements else info.numOfFlattenFields

end

def dims : Ty → ℕ
  | .scalar _ => 1
  | .array n e => n * dims e
  | .struct _ => 1

def innermost : Ty → Ty
  | .scalar id => .scalar id
  | .array _ e => innermost e
  | .struct es => .struct es

mutual

def leaves : Ty → List Ty
  | .scalar id => [.scalar id]
  | .array n e => if n * dims e = 0 then [innermost e] else (List.replicate n (leaves e)).flatten
  | .struct es => leavesAll es

def leavesAll : List Ty → List Ty
  | [] => []
  | e :: es => leaves e ++ leavesAll es

end

mutual

/-- The fields, among which an array counts once. -/
def fields : Ty → List Ty
  | .scalar id => [.scalar id]
  | .array n e => if n * dims e = 0 then [innermost e] else fields e
  | .struct es => fieldsAll es

def fieldsAll : List Ty → List Ty
  | [] => []
  | e :: es => fields e ++ fieldsAll es

end

mutual

def Small : Ty → Prop
  | .scalar _ => True
  | .array n e => n * dims e < 2 ^ 32 ∧ (leaves (.array n e)).length < 2 ^ 32 ∧ Small e
  | .struct es => (leavesAll es).length < 2 ^ 32 ∧ SmallAll es

def SmallAll : List Ty → Prop
  | [] => True
  | e :: es => Small e ∧ SmallAll es

end

theorem length_replicate_flatten {α : Type*} (n : ℕ) (l : List α) : (List.replicate n l).flatten.length = n * l.length := by
  simp

theorem flatten_replicate_mul {α : Type*} (n m : ℕ) (l : List α) :
    (List.replicate n (List.replicate m l).flatten).flatten = (List.replicate (n * m) l).flatten := by
  induction n with
  | zero => simp
  | succ n ih => rw [List.replicate_succ, List.flatten_cons, ih, Nat.succ_mul, Nat.add_comm, List.replicate_add, List.flatten_append]

theorem length_leaves_array (n : ℕ) (e : Ty) : (leaves (.array n e)).length =
    if n * dims e = 0 then 1 else n * (leaves e).length := by
  rw [leaves]
  split
  · rfl
  · exact length_replicate_flatten n (leaves e)

theorem leaves_innermost : ∀ T, dims T ≠ 0 → leaves T = (List.replicate (dims T) (leaves (innermost T))).flatten
  | .scalar _, _ => rfl
  | .array n e, h => by
      have he : dims e ≠ 0 := fun hzero => h (by rw [dims, hzero, Nat.mul_zero])
      rw [dims] at h
      rw [leaves, if_neg h, leaves_innermost e he, flatten_replicate_mul]
      rfl
  | .struct _, _ => by
      rw [dims, innermost, List.replicate_one, List.flatten_singleton]

theorem fields_innermost : ∀ T, dims T ≠ 0 → fields T = fields (innermost T)
  | .scalar _, _ => rfl
  | .array n e, h => by
      have he : dims e ≠ 0 := fun hzero => h (by rw [dims, hzero, Nat.mul_zero])
      rw [dims] at h
      rw [fields, if_neg h, fields_innermost e he]
      rfl
  | .struct _, _ => rfl

mutual

theorem length_fields_le : ∀ T, (fields T).length ≤ (leaves T).length
  | .scalar _ => le_rfl
  | .array n e => by
      rw [length_leaves_array, fields]
      split
      · exact le_rfl
      · rename_i h
        have hn : 0 < n := Nat.pos_of_ne_zero fun hzero => h (by rw [hzero, Nat.zero_mul])
        exact (length_fields_le e).trans (Nat.le_mul_of_pos_left _ hn)
  | .struct es => length_fieldsAll_le es

theorem length_fieldsAll_le : ∀ es, (fieldsAll es).length ≤ (leavesAll es).length
  | [] => le_rfl
  | e :: es => by
      rw [fieldsAll, leavesAll, List.length_append, List.length_append]
      exact Nat.add_le_add (length_fields_le e) (length_fieldsAll_le es)

end

theorem collectInnermost_eq : ∀ T, collectInnermost T = (dims T % 2 ^ 64, innermost T, collectTypeInfo (innermost T))
  | .scalar _ => rfl
  | .array n e => by
      rw [collectInnermost, collectInnermost_eq e, dims, innermost]
      dsimp only
      rw [Nat.mul_mod_mod]
  | .struct _ => rfl

def IdxVecs (T : Ty) (info : StInfo) : Prop :=
  match T with
  | .scalar _ => True
  | .array n e => info.elemIdxVec =
      if n * dims e = 0 then [0] else (List.range n).map fun i => i * (leaves e).length
  | .struct es => info.elemIdxVec = (List.range es.length).map (fun i => (leavesAll (es.take i)).length) ∧
      info.fldIdxVec = (List.range es.length).map fun i => (fieldsAll (es.take i)).length

structure Flattened (T : Ty) (info : StInfo) : Prop where
  elementTypes : info.flattenElementTypes = leaves T
  fieldTypes : info.flattenFieldTypes = fields T
  numElements : info.numOfFlattenElements = (leaves T).length
  numFields : info.numOfFlattenFields = (fields T).length
  vecs : IdxVecs T info

theorem flattened_simple (id : ℕ) : Flattened (.scalar id) (collectSimpleTypeInfo (.scalar id)) :=
  ⟨rfl, rfl, rfl, rfl, trivial⟩

theorem flattened_array {n : ℕ} {e : Ty} {sub : StInfo} (hsmall : Small (.array n e))
    (hsub : Flattened (innermost e) sub) : ∃ info,
      collectArrayInfo n (n * dims e % 2 ^ 64) (innermost e) (some sub) = some info ∧ Flattened (.array n e) info := by
  obtain ⟨htotal, hleaves, -⟩ := hsmall
  have hmod : n * dims e % 2 ^ 64 = n * dims e := Nat.mod_eq_of_lt (by omega)
  rw [collectArrayInfo, hmod]
  by_cases hzero : n * dims e = 0
  · rw [if_pos hzero]
    refine ⟨_, rfl, ?_, ?_, ?_, ?_, ?_⟩
    · rw [leaves, if_pos hzero]
    · rw [fields, if_pos hzero]
    · rw [leaves, if_pos hzero]
      rfl
    · rw [fields, if_pos hzero]
      rfl
    · exact (if_pos hzero).symm
  · have he : dims e ≠ 0 := fun h => hzero (by rw [h, Nat.mul_zero])
    have hn : n ≠ 0 := fun h => hzero (by rw [h, Nat.zero_mul])
    have hall : leaves (.array n e) = (List.replicate (n * dims e) (leaves (innermost e))).flatten :=
      leaves_innermost (.array n e) hzero
    have hlength : n * dims e * (leaves (innermost e)).length < 2 ^ 32 := by
      rw [← length_replicate_flatten, ← hall]
      exact hleaves
    have hstride : (leaves e).length = dims e * (leaves (innermost e)).length := by
      rw [leaves_innermost e he, length_replicate_flatten]
    have hlt : n < 2 ^ 32 := lt_of_le_of_lt (Nat.le_mul_of_pos_right n (Nat.pos_of_ne_zero he)) htotal
    have hout : n % 2 ^ 32 = n := Nat.mod_eq_of_lt hlt
    rw [if_neg hzero, Option.bind_some]
    dsimp only
    rw [hsub.elementTypes, hsub.fieldTypes, hsub.numElements, hsub.numFields, List.take_length, List.take_length,
      if_neg (by omega), length_replicate_flatten, hout]
    have hcount : (leaves (innermost e)).length * (n * dims e) = n * dims e * (leaves (innermost e)).length :=
      Nat.mul_comm _ _
    rw [if_pos (by rw [hcount, Nat.mod_eq_of_lt (by omega)])]
    refine ⟨_, rfl, hall.symm, ?_, ?_, ?_, ?_⟩
    · exact (fields_innermost (.array n e) hzero).symm
    · change (leaves (innermost e)).length * (n * dims e) % 2 ^ 32 = (leaves (.array n e)).length
      rw [hcount, Nat.mod_eq_of_lt hlength, hall, length_replicate_flatten]
    · exact congrArg List.length (fields_innermost (.array n e) hzero).symm
    · change _ = if n * dims e = 0 then _ else _
      rw [if_neg hzero]
      refine List.map_congr_left fun i hi => ?_
      have hi' : i < n := List.mem_range.mp hi
      have hsmall : i * (leaves (innermost e)).length < 2 ^ 32 := by
        refine lt_of_le_of_lt (Nat.mul_le_mul_right _ (hi'.le.trans ?_)) hlength
        exact Nat.le_mul_of_pos_right n (Nat.pos_of_ne_zero he)
      have hprod : i * (leaves (innermost e)).length * (n * dims e) < 2 ^ 64 := by
        calc i * (leaves (innermost e)).length * (n * dims e) < 2 ^ 32 * 2 ^ 32 :=
              Nat.mul_lt_mul_of_lt_of_lt hsmall htotal
          _ = 2 ^ 64 := by decide
      have hquot : i * (leaves (innermost e)).length * (n * dims e) / n = i * (leaves e).length := by
        rw [hstride]
        refine Nat.div_eq_of_eq_mul_left (Nat.pos_of_ne_zero hn) ?_
        ring
      have hfits : i * (leaves e).length < 2 ^ 32 := by
        refine lt_of_le_of_lt (Nat.mul_le_mul_right _ hi'.le) ?_
        rw [hstride, ← Nat.mul_assoc]
        exact hlength
      rw [Nat.mod_eq_of_lt hsmall, Nat.mod_eq_of_lt hprod, hquot, Nat.mod_eq_of_lt hfits]

structure Appended (es : List Ty) (acc info : StInfo) : Prop where
  elementTypes : info.flattenElementTypes = acc.flattenElementTypes ++ leavesAll es
  fieldTypes : info.flattenFieldTypes = acc.flattenFieldTypes ++ fieldsAll es
  numElements : info.numOfFlattenElements = acc.numOfFlattenElements + (leavesAll es).length
  numFields : info.numOfFlattenFields = acc.numOfFlattenFields + (fieldsAll es).length
  elemIdxVec : info.elemIdxVec = acc.elemIdxVec ++
    (List.range es.length).map fun i => acc.numOfFlattenElements + (leavesAll (es.take i)).length
  fldIdxVec : info.fldIdxVec = acc.fldIdxVec ++
    (List.range es.length).map fun i => acc.numOfFlattenFields + (fieldsAll (es.take i)).length

/-- The counters are in step with the tables, and there is room for the elements. -/
structure Room (es : List Ty) (acc : StInfo) : Prop where
  counted : acc.flattenElementTypes.length = acc.numOfFlattenElements
  elements : acc.numOfFlattenElements + (leavesAll es).length < 2 ^ 32
  fields : acc.numOfFlattenFields + (fieldsAll es).length < 2 ^ 32

theorem addElement_spec {e : Ty} {es : List Ty} {acc sub : StInfo} (hroom : Room (e :: es) acc)
    (hsub : Flattened e sub) : Room es (addElement acc sub) ∧
      ∀ info, Appended es (addElement acc sub) info → Appended (e :: es) acc info := by
  obtain ⟨hcounted, helements, hfields⟩ := hroom
  rw [leavesAll, List.length_append] at helements
  rw [fieldsAll, List.length_append] at hfields
  have hnumE : (addElement acc sub).numOfFlattenElements = acc.numOfFlattenElements + (leaves e).length := by
    rw [addElement, hsub.numElements]
    exact Nat.mod_eq_of_lt (by omega)
  have hnumF : (addElement acc sub).numOfFlattenFields = acc.numOfFlattenFields + (fields e).length := by
    rw [addElement, hsub.numFields]
    exact Nat.mod_eq_of_lt (by omega)
  have htypes : (addElement acc sub).flattenElementTypes = acc.flattenElementTypes ++ leaves e := by
    rw [addElement, hsub.numElements, hsub.elementTypes, List.take_length]
  have hfieldTypes : (addElement acc sub).flattenFieldTypes = acc.flattenFieldTypes ++ fields e := by
    rw [addElement, hsub.numFields, hsub.fieldTypes, List.take_length]
  refine ⟨⟨?_, ?_, ?_⟩, fun info h => ⟨?_, ?_, ?_, ?_, ?_, ?_⟩⟩
  · rw [htypes, List.length_append, hcounted, hnumE]
  · rw [hnumE]
    omega
  · rw [hnumF]
    omega
  · rw [h.elementTypes, htypes, leavesAll, List.append_assoc]
  · rw [h.fieldTypes, hfieldTypes, fieldsAll, List.append_assoc]
  · rw [h.numElements, hnumE, leavesAll, List.length_append, Nat.add_assoc]
  · rw [h.numFields, hnumF, fieldsAll, List.length_append, Nat.add_assoc]
  · rw [h.elemIdxVec, hnumE, List.length_cons, List.range_succ_eq_map, List.map_cons, List.map_map, addElement,
      List.append_assoc]
    refine congrArg (acc.elemIdxVec ++ ·) (congrArg (acc.numOfFlattenElements :: ·) ?_)
    refine List.map_congr_left fun i _ => ?_
    rw [Function.comp_apply, List.take_succ_cons, leavesAll, List.length_append, Nat.add_assoc]
  · rw [h.fldIdxVec, hnumF, List.length_cons, List.range_succ_eq_map, List.map_cons, List.map_map, addElement,
      List.append_assoc]
    refine congrArg (acc.fldIdxVec ++ ·) (congrArg (acc.numOfFlattenFields :: ·) ?_)
    refine List.map_congr_left fun i _ => ?_
    rw [Function.comp_apply, List.take_succ_cons, fieldsAll, List.length_append, Nat.add_assoc]

theorem flattened_struct {es : List Ty} {info : StInfo} (h : Appended es ⟨[], [], [], [], 0, 0⟩ info) :
    Flattened (.struct es) info := by
  refine ⟨h.elementTypes, h.fieldTypes, ?_, ?_, ?_, ?_⟩
  · rw [h.numElements, Nat.zero_add, leaves]
  · rw [h.numFields, Nat.zero_add, fields]
  · rw [h.elemIdxVec, List.nil_append]
    exact List.map_congr_left fun i _ => Nat.zero_add _
  · rw [h.fldIdxVec, List.nil_append]
    exact List.map_congr_left fun i _ => Nat.zero_add _

theorem room_empty {es : List Ty} (h : (leavesAll es).length < 2 ^ 32) : Room es ⟨[], [], [], [], 0, 0⟩ :=
  ⟨rfl, by rwa [Nat.zero_add], by rw [Nat.zero_add]; exact (length_fieldsAll_le es).trans_lt h⟩

mutual

theorem collectTypeInfo_spec : ∀ T, Small T → ∃ info, collectTypeInfo T = some info ∧ Flattened T info
  | .scalar id, _ => ⟨_, rfl, flattened_simple id⟩
  | .array n e, h => by
      obtain ⟨sub, hsub, hflat⟩ := innermost_spec e h.2.2
      obtain ⟨info, hinfo, hflat'⟩ := flattened_array h hflat
      refine ⟨info, ?_, hflat'⟩
      rw [collectTypeInfo, collectInnermost_eq, hsub]
      dsimp only
      rw [Nat.mul_mod_mod, hinfo]
  | .struct es, h => by
      obtain ⟨info, hinfo, happended⟩ := collectStructInfo_spec es _ h.2 (room_empty h.1)
      exact ⟨info, hinfo, flattened_struct happended⟩

theorem innermost_spec : ∀ T, Small T →
    ∃ info, collectTypeInfo (innermost T) = some info ∧ Flattened (innermost T) info
  | .scalar id, _ => ⟨_, rfl, flattened_simple id⟩
  | .array _ e, h => innermost_spec e h.2.2
  | .struct es, h => by
      obtain ⟨info, hinfo, happended⟩ := collectStructInfo_spec es _ h.2 (room_empty h.1)
      exact ⟨info, hinfo, flattened_struct happended⟩

theorem collectStructInfo_spec : ∀ es acc, SmallAll es → Room es acc →
    ∃ info, collectStructInfo es acc = some info ∧ Appended es acc info
  | [], acc, _, hroom => by
      refine ⟨acc, if_pos hroom.counted, ?_, ?_, rfl, rfl, ?_, ?_⟩
      · exact (List.append_nil _).symm
      · exact (List.append_nil _).symm
      · exact (List.append_nil _).symm
      · exact (List.append_nil _).symm
  | e :: es, acc, h, hroom => by
      obtain ⟨sub, hsub, hflat⟩ := collectTypeInfo_spec e h.1
      obtain ⟨hroom', happended⟩ := addElement_spec hroom hflat
      obtain ⟨info, hinfo, happended'⟩ := collectStructInfo_spec es (addElement acc sub) h.2 hroom'
      refine ⟨info, ?_, happended info happended'⟩
      rw [collectStructInfo, hsub]
      exact hinfo

end

section

/-- The component at an index; an array without leaves of its own has none. -/
def component : Ty → ℕ → Option Ty
  | .scalar _, _ => none
  | .array n e, i => if i < n ∧ dims e ≠ 0 then some e else none
  | .struct es, i => es[i]?

def componentAt : List ℕ → Ty → Option Ty
  | [], T => some T
  | i :: path, T => (component T i).bind (componentAt path)

variable (modelArrays : Bool)

/-- The sum of `getFlattenedElemIdx` along a path. -/
def flattenedIdx : List ℕ → Ty → Option ℕ
  | [], _ => some 0
  | i :: path, T => do
      let idx ← getFlattenedElemIdx modelArrays T i
      let e ← component T i
      let rest ← flattenedIdx path e
      some (idx + rest)

def parts (T : Ty) : List Ty := if modelArrays then leaves T else fields T

theorem leavesAll_append (es fs : List Ty) : leavesAll (es ++ fs) = leavesAll es ++ leavesAll fs := by
  induction es with
  | nil => rfl
  | cons e es ih => rw [List.cons_append, leavesAll, ih, leavesAll, List.append_assoc]

theorem fieldsAll_append (es fs : List Ty) : fieldsAll (es ++ fs) = fieldsAll es ++ fieldsAll fs := by
  induction es with
  | nil => rfl
  | cons e es ih => rw [List.cons_append, fieldsAll, ih, fieldsAll, List.append_assoc]

theorem split_at {es : List Ty} {i : ℕ} {e : Ty} (h : es[i]? = some e) :
    i < es.length ∧ es = es.take i ++ e :: es.drop (i + 1) := by
  obtain ⟨hi, rfl⟩ := List.getElem?_eq_some_iff.mp h
  exact ⟨hi, by rw [← List.drop_eq_getElem_cons hi, List.take_append_drop]⟩

theorem smallAll_getElem {es : List Ty} (h : SmallAll es) {i : ℕ} {e : Ty} (he : es[i]? = some e) :
    Small e := by
  induction es generalizing i with
  | nil => contradiction
  | cons x es ih =>
      cases i with
      | zero => exact Option.some.inj he ▸ h.1
      | succ i => exact ih h.2 he

theorem small_component {T e : Ty} {i : ℕ} (h : Small T) (he : component T i = some e) : Small e := by
  cases T with
  | scalar id => contradiction
  | array n e' =>
      rw [component, Option.ite_none_right_eq_some] at he
      exact Option.some.inj he.2 ▸ h.2.2
  | struct es => exact smallAll_getElem h.2 he

/-- One index: the parts of the component stand where the tables of the type say. -/
theorem component_position {T e : Ty} {i : ℕ} (h : Small T) (he : component T i = some e) :
    ∃ idx, getFlattenedElemIdx modelArrays T i = some idx ∧
      ∃ pre post, parts modelArrays T = pre ++ parts modelArrays e ++ post ∧ pre.length = idx := by
  obtain ⟨info, hinfo, hflat⟩ := collectTypeInfo_spec T h
  have hvecs := hflat.vecs
  cases T with
  | scalar id => contradiction
  | array n e' =>
      rw [component, Option.ite_none_right_eq_some] at he
      obtain ⟨⟨hi, hdims⟩, he⟩ := he
      obtain rfl := Option.some.inj he
      have hne : n * dims e' ≠ 0 := Nat.mul_ne_zero (by omega) hdims
      rw [getFlattenedElemIdx, hinfo, Option.bind_some]
      cases modelArrays with
      | false =>
          refine ⟨0, rfl, [], [], ?_, rfl⟩
          change fields (.array n e') = [] ++ fields e' ++ []
          rw [fields, if_neg hne, List.nil_append, List.append_nil]
      | true =>
          rw [IdxVecs, if_neg hne] at hvecs
          refine ⟨i * (leaves e').length, ?_, (List.replicate i (leaves e')).flatten,
            (List.replicate (n - i - 1) (leaves e')).flatten, ?_, length_replicate_flatten i _⟩
          · rw [if_pos rfl, hvecs, List.getElem?_map, List.getElem?_range hi, Option.map_some]
          · change leaves (.array n e') = _ ++ leaves e' ++ _
            rw [leaves, if_neg hne, show n = i + (1 + (n - i - 1)) by omega, List.replicate_add,
              List.replicate_add, List.flatten_append, List.flatten_append, List.replicate_one,
              List.flatten_singleton, List.append_assoc, show i + (1 + (n - i - 1)) - i - 1 = n - i - 1 by omega]
  | struct es =>
      obtain ⟨hi, hes⟩ := split_at he
      obtain ⟨helem, hfld⟩ := hvecs
      rw [getFlattenedElemIdx, hinfo, Option.bind_some]
      cases modelArrays with
      | false =>
          refine ⟨_, by rw [if_neg Bool.false_ne_true, hfld, List.getElem?_map, List.getElem?_range hi]; rfl,
            fieldsAll (es.take i), fieldsAll (es.drop (i + 1)), ?_, rfl⟩
          change fields (.struct es) = _ ++ fields e ++ _
          rw [fields, List.append_assoc, ← fieldsAll, ← fieldsAll_append, ← hes]
      | true =>
          refine ⟨_, by rw [if_pos rfl, helem, List.getElem?_map, List.getElem?_range hi]; rfl,
            leavesAll (es.take i), leavesAll (es.drop (i + 1)), ?_, rfl⟩
          change leaves (.struct es) = _ ++ leaves e ++ _
          rw [leaves, List.append_assoc, ← leavesAll, ← leavesAll_append, ← hes]

theorem path_position {path : List ℕ} {T e : Ty} (h : Small T) (he : componentAt path T = some e) :
    ∃ idx, flattenedIdx modelArrays path T = some idx ∧
      ∃ pre post, parts modelArrays T = pre ++ parts modelArrays e ++ post ∧ pre.length = idx := by
  induction path generalizing T with
  | nil =>
      obtain rfl := Option.some.inj he
      exact ⟨0, rfl, [], [], by rw [List.nil_append, List.append_nil], rfl⟩
  | cons i path ih =>
      obtain ⟨U, hU, he⟩ := Option.bind_eq_some_iff.mp he
      obtain ⟨idx, hidx, pre, post, hparts, hpre⟩ := component_position modelArrays h hU
      obtain ⟨rest, hrest, pre', post', hparts', hpre'⟩ := ih (small_component h hU) he
      refine ⟨idx + rest, ?_, pre ++ pre', post' ++ post, ?_, ?_⟩
      · rw [flattenedIdx, hidx, hU, Option.bind_eq_bind, Option.bind_some, Option.bind_eq_bind,
          Option.bind_some, hrest]
        rfl
      · rw [hparts, hparts']
        simp only [List.append_assoc]
      · rw [List.length_append, hpre, hpre']

theorem small_componentAt {path : List ℕ} {T e : Ty} (h : Small T) (he : componentAt path T = some e) :
    Small e := by
  induction path generalizing T with
  | nil => exact Option.some.inj he ▸ h
  | cons i path ih =>
      obtain ⟨U, hU, he⟩ := Option.bind_eq_some_iff.mp he
      exact ih (small_component h hU) he

theorem getFlatternedElemType_eq {T : Ty} (h : Small T) (k : ℕ) :
    getFlatternedElemType modelArrays T k = (parts modelArrays T)[k]? := by
  obtain ⟨info, hinfo, hflat⟩ := collectTypeInfo_spec T h
  rw [getFlatternedElemType, hinfo, Option.bind_some, hflat.elementTypes, hflat.fieldTypes]
  cases modelArrays <;> rfl

/-- Under either setting the tables of a type have its parts, and the indices
along a path add up to the position of the parts of the component there. -/
theorem flattening_compositional {T : Ty} (h : Small T) :
    getNumOfFlattenElements modelArrays T = some (parts modelArrays T).length ∧
    (∀ k, getFlatternedElemType modelArrays T k = (parts modelArrays T)[k]?) ∧
    ∀ path e, componentAt path T = some e → ∃ idx, flattenedIdx modelArrays path T = some idx ∧
      ∀ k < (parts modelArrays e).length,
        getFlatternedElemType modelArrays T (idx + k) = getFlatternedElemType modelArrays e k := by
  refine ⟨?_, getFlatternedElemType_eq modelArrays h, fun path e he => ?_⟩
  · obtain ⟨info, hinfo, hflat⟩ := collectTypeInfo_spec T h
    rw [getNumOfFlattenElements, hinfo, Option.map_some, hflat.numElements, hflat.numFields]
    cases modelArrays <;> rfl
  · obtain ⟨idx, hidx, pre, post, hparts, hpre⟩ := path_position modelArrays h he
    refine ⟨idx, hidx, fun k hk => ?_⟩
    rw [getFlatternedElemType_eq modelArrays h, getFlatternedElemType_eq modelArrays (small_componentAt h he),
      hparts, List.append_assoc, List.getElem?_append_right (by omega),
      List.getElem?_append_left (by omega), hpre, Nat.add_sub_cancel_left]

/-- The second member of the third of three structures, behind a scalar. -/
theorem flattening_compositional_nested :
    ∃ idx, flattenedIdx true [1, 2, 1] (.struct [.scalar 0, .array 3 (.struct [.scalar 1, .scalar 2])]) =
        some idx ∧ ∀ k < 1, getFlatternedElemType true
      (.struct [.scalar 0, .array 3 (.struct [.scalar 1, .scalar 2])]) (idx + k) =
        getFlatternedElemType true (.scalar 2) k := by
  refine (flattening_compositional true ?_).2.2 [1, 2, 1] (.scalar 2) rfl
  exact ⟨by decide, trivial, ⟨by decide, by decide, by decide, trivial, trivial, trivial⟩, trivial⟩

end

end SVF.SVFIR.TypeFlattening
