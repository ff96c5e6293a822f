import SVF.SVFIR.GepOffsets

namespace SVF.SVFIR.ExtCopies

open GepOffsets

section

/-- The values of the program: their nodes, the sizes of the types inferred for them, and the
constant integers among them. -/
structure Values (V : Type) where
  getValueNode : V → ℕ
  numOfFlattenElements : V → ℕ
  isConstDataOrAggData : V → Bool
  constantInt : V → Option (Σ width, BitVec width)
  hasIncomingVariantGepEdge : ℕ → Bool

inductive Node
  | value (id : ℕ)
  | gepVal (base : ℕ) (fldIdx : ℕ)
  | dummyVal (id : ℕ)

inductive Edge
  | load (src dst : Node)
  | store (src dst : Node)
  | gep (base : ℕ) (fldIdx : ℕ) (variant : Bool)
  | copy (src dst : ℕ)

structure Graph where
  edges : List Edge
  nextDummy : ℕ

structure Call (V : Type) where
  calleeName : List Char
  args : List V
  result : V
  isPointerTy : Bool

variable {V : Type} (P : Values V)

def getBaseTypeAndFlattenedFields (value : V) (szValue : Option V) : List ℕ :=
  let numOfElems := P.numOfFlattenElements value
  match szValue.bind P.constantInt with
  | some ⟨_, size⟩ =>
      let szIntVal := (getIntegerValue size).1
      List.range (if szIntVal < numOfElems then toU32 szIntVal else numOfElems)
  | none => List.range numOfElems

def getGepValVar (value : V) (fldIdx : ℕ) (pag : Graph) : Node × Graph :=
  let base := P.getValueNode value
  (.gepVal base fldIdx, { pag with edges := .gep base fldIdx (P.hasIncomingVariantGepEdge base) :: pag.edges })

def addLoadStore (src dst : Node) (pag : Graph) : Graph :=
  ⟨.store (.dummyVal pag.nextDummy) dst :: .load src (.dummyVal pag.nextDummy) :: pag.edges, pag.nextDummy + 1⟩

/-- One round of the loop over the fields; `none` where there is no type for the field. -/
def addFieldCopy (D S : V) (pag : Graph) (index : ℕ) : Option Graph :=
  if index < P.numOfFlattenElements D ∧ index < P.numOfFlattenElements S then
    let (dField, pag) := getGepValVar P D index pag
    let (sField, pag) := getGepValVar P S index pag
    some (addLoadStore sField dField pag)
  else none

def addComplexConsForExt (D S : V) (szValue : Option V) (pag : Graph) : Option Graph :=
  let vnD := P.getValueNode D
  let vnS := P.getValueNode S
  if vnD = 0 ∨ vnS = 0 then some pag
  else
    let srcFields := getBaseTypeAndFlattenedFields P S szValue
    let dstFields := getBaseTypeAndFlattenedFields P D szValue
    let fields := if dstFields.length < srcFields.length then dstFields else srcFields
    if fields.length = 1 ∧ (P.isConstDataOrAggData D ∨ P.isConstDataOrAggData S) then
      some (addLoadStore (.value vnD) (.value vnS) pag)
    else fields.foldlM (addFieldCopy P D S) pag

def mentions (word : List Char) : List Char → Bool
  | [] => word.isEmpty
  | c :: name => word.isPrefixOf (c :: name) || mentions word name

def isIconv (call : Call V) : Bool := mentions "iconv".toList call.calleeName

def isBcopy (call : Call V) : Bool := mentions "bcopy".toList call.calleeName

/-- The copy between arguments that are given by their positions; `none` where there is no such
argument. -/
def addComplexConsForArgs (call : Call V) (dst src : ℕ) (size : Option ℕ) (pag : Graph) : Option Graph :=
  call.args[dst]?.bind fun D =>
    call.args[src]?.bind fun S =>
      match size with
      | none => addComplexConsForExt P D S none pag
      | some size => call.args[size]?.bind fun szValue => addComplexConsForExt P D S (some szValue) pag

def addSpecialCons (call : Call V) (pag : Graph) : Option Graph :=
  if isIconv call then addComplexConsForArgs P call 3 1 none pag
  else if isBcopy call then addComplexConsForArgs P call 1 0 (some 2) pag
  else some pag

def handleMemcpy (call : Call V) (pag : Graph) : Option Graph :=
  (addSpecialCons P call pag).bind fun pag =>
    (addComplexConsForArgs P call 0 1 (if call.args.length = 3 then some 2 else none) pag).bind fun pag =>
      if call.isPointerTy then
        call.args[0]?.map fun D =>
          { pag with edges := .copy (P.getValueNode D) (P.getValueNode call.result) :: pag.edges }
      else some pag

end

section

variable {V : Type} (P : Values V)

def FieldPtr (edges : List Edge) (node : Node) (base fldIdx : ℕ) : Prop :=
  node = .value base ∧ fldIdx = 0 ∨ node = .gepVal base fldIdx ∧ ∃ variant, .gep base fldIdx variant ∈ edges

def Copies (edges : List Edge) (src dst : Node) : Prop :=
  ∃ dummy, .load src dummy ∈ edges ∧ .store dummy dst ∈ edges

/-- The contents of a field of what one pointer points to flow into a field of what the other
points to. -/
def Flows (edges : List Edge) (src i dst j : ℕ) : Prop :=
  ∃ s d, FieldPtr edges s src i ∧ FieldPtr edges d dst j ∧ Copies edges s d

def positions (call : Call V) : ℕ × ℕ × Option ℕ :=
  if isIconv call then (3, 1, none)
  else if isBcopy call then (1, 0, some 2)
  else (0, 1, if call.args.length = 3 then some 2 else none)

/-- The number of fields that are to be copied; a size is not negative. -/
def toCopy (D S : V) (szValue : Option V) : ℕ :=
  let both := min (P.numOfFlattenElements S) (P.numOfFlattenElements D)
  match szValue.bind P.constantInt with
  | some ⟨_, size⟩ => min both size.toNat
  | none => both

structure Right (D S : V) (szValue : Option V) (edges : List Edge) : Prop where
  complete : ∀ i < toCopy P D S szValue, Flows edges (P.getValueNode S) i (P.getValueNode D) i
  oneWay : P.getValueNode D ≠ P.getValueNode S → ∀ i j, ¬Flows edges (P.getValueNode D) i (P.getValueNode S) j

end

section

def Pointed (edges : List Edge) : Node → Prop
  | .value _ => True
  | .gepVal base fldIdx => ∃ variant, .gep base fldIdx variant ∈ edges
  | .dummyVal _ => True

structure Built (first : ℕ) (copies : List (Node × Node)) (pag : Graph) : Prop where
  next : pag.nextDummy = first + copies.length
  load : ∀ src dummy, .load src dummy ∈ pag.edges ↔
    ∃ n dst, copies[n]? = some (src, dst) ∧ dummy = .dummyVal (first + n)
  store : ∀ dummy dst, .store dummy dst ∈ pag.edges ↔
    ∃ n src, copies[n]? = some (src, dst) ∧ dummy = .dummyVal (first + n)
  pointed : ∀ c ∈ copies, Pointed pag.edges c.1 ∧ Pointed pag.edges c.2

variable {first : ℕ} {copies : List (Node × Node)} {pag : Graph}

theorem built_empty (first : ℕ) : Built first [] ⟨[], first⟩ where
  next := rfl
  load _ _ := iff_of_false List.not_mem_nil fun ⟨_, _, h, _⟩ => Option.some_ne_none _ h.symm
  store _ _ := iff_of_false List.not_mem_nil fun ⟨_, _, h, _⟩ => Option.some_ne_none _ h.symm
  pointed _ h := absurd h List.not_mem_nil

theorem Pointed.cons {edges : List Edge} {node : Node} (edge : Edge) (h : Pointed edges node) :
    Pointed (edge :: edges) node := by
  cases node with
  | value id => trivial
  | gepVal base fldIdx =>
      obtain ⟨variant, hvariant⟩ := h
      exact ⟨variant, List.mem_cons_of_mem _ hvariant⟩
  | dummyVal id => trivial

theorem Built.copies_iff (h : Built first copies pag) (src dst : Node) :
    Copies pag.edges src dst ↔ (src, dst) ∈ copies := by
  refine ⟨fun ⟨dummy, hload, hstore⟩ => ?_, fun hmem => ?_⟩
  · obtain ⟨n, d, hn, hdummy⟩ := (h.load src dummy).mp hload
    obtain ⟨m, s, hm, hdummy'⟩ := (h.store dummy dst).mp hstore
    have hsame : n = m := Nat.add_left_cancel (Node.dummyVal.inj (hdummy.symm.trans hdummy'))
    rw [hsame, hm] at hn
    obtain ⟨rfl, rfl⟩ := Prod.mk.inj (Option.some.inj hn)
    exact List.mem_of_getElem? hm
  · obtain ⟨n, hn⟩ := List.getElem?_of_mem hmem
    exact ⟨.dummyVal (first + n), (h.load _ _).mpr ⟨n, dst, hn, rfl⟩, (h.store _ _).mpr ⟨n, src, hn, rfl⟩⟩

theorem Built.other (h : Built first copies pag) {edge : Edge} (hload : ∀ s t, edge ≠ .load s t)
    (hstore : ∀ s t, edge ≠ .store s t) : Built first copies { pag with edges := edge :: pag.edges } where
  next := h.next
  load src dummy := by
    rw [List.mem_cons, or_iff_right fun heq => hload _ _ heq.symm]
    exact h.load src dummy
  store dummy dst := by
    rw [List.mem_cons, or_iff_right fun heq => hstore _ _ heq.symm]
    exact h.store dummy dst
  pointed c hc := ⟨(h.pointed c hc).1.cons edge, (h.pointed c hc).2.cons edge⟩

theorem getElem?_append_singleton {α : Type*} (l : List α) (a b : α) (n : ℕ) :
    (l ++ [a])[n]? = some b ↔ n = l.length ∧ a = b ∨ l[n]? = some b := by
  rcases Nat.lt_trichotomy n l.length with hlt | rfl | hgt
  · rw [List.getElem?_append_left hlt]
    exact ⟨Or.inr, fun h => h.resolve_left fun hboth => absurd hboth.1 hlt.ne⟩
  · rw [List.getElem?_concat_length, List.getElem?_eq_none (le_refl l.length)]
    exact ⟨fun h => Or.inl ⟨rfl, Option.some.inj h⟩,
      fun h => congrArg some (h.resolve_right (Option.some_ne_none b).symm).2⟩
  · rw [List.getElem?_append_right hgt.le, List.getElem?_eq_none (by rw [List.length_singleton]; omega),
      List.getElem?_eq_none hgt.le]
    exact iff_of_false (Option.some_ne_none b).symm fun h =>
      h.elim (fun hboth => absurd hboth.1 hgt.ne') (Option.some_ne_none b).symm

theorem Built.addLoadStore (h : Built first copies pag) {src dst : Node} (hsrc : Pointed pag.edges src)
    (hdst : Pointed pag.edges dst) : Built first (copies ++ [(src, dst)]) (addLoadStore src dst pag) where
  next := by
    rw [ExtCopies.addLoadStore, h.next, List.length_append]
    rfl
  load s t := by
    rw [ExtCopies.addLoadStore, List.mem_cons, or_iff_right (fun heq => Edge.noConfusion heq), List.mem_cons, h.load, h.next]
    refine ⟨?_, ?_⟩
    · rintro (heq | ⟨n, d, hn, rfl⟩)
      · obtain ⟨rfl, rfl⟩ := Edge.load.inj heq
        exact ⟨copies.length, dst, (getElem?_append_singleton _ _ _ _).mpr (Or.inl ⟨rfl, rfl⟩), rfl⟩
      · exact ⟨n, d, (getElem?_append_singleton _ _ _ _).mpr (Or.inr hn), rfl⟩
    · rintro ⟨n, d, hn, rfl⟩
      rcases (getElem?_append_singleton _ _ _ _).mp hn with ⟨rfl, heq⟩ | hn
      · exact Or.inl (by rw [(Prod.mk.inj heq).1])
      · exact Or.inr ⟨n, d, hn, rfl⟩
  store t d := by
    have hne : Edge.store t d ≠ .load src (.dummyVal pag.nextDummy) := fun heq => Edge.noConfusion heq
    rw [ExtCopies.addLoadStore, List.mem_cons, List.mem_cons, or_iff_right hne, h.store, h.next]
    refine ⟨?_, ?_⟩
    · rintro (heq | ⟨n, s, hn, rfl⟩)
      · obtain ⟨rfl, rfl⟩ := Edge.store.inj heq
        exact ⟨copies.length, src, (getElem?_append_singleton _ _ _ _).mpr (Or.inl ⟨rfl, rfl⟩), rfl⟩
      · exact ⟨n, s, (getElem?_append_singleton _ _ _ _).mpr (Or.inr hn), rfl⟩
    · rintro ⟨n, s, hn, rfl⟩
      rcases (getElem?_append_singleton _ _ _ _).mp hn with ⟨rfl, heq⟩ | hn
      · exact Or.inl (by rw [(Prod.mk.inj heq).2])
      · exact Or.inr ⟨n, s, hn, rfl⟩
  pointed c hc := by
    rcases List.mem_append.mp hc with hc | hc
    · exact ⟨((h.pointed c hc).1.cons _).cons _, ((h.pointed c hc).2.cons _).cons _⟩
    · rw [List.mem_singleton.mp hc]
      exact ⟨(hsrc.cons _).cons _, (hdst.cons _).cons _⟩

end

section

variable {V : Type} (P : Values V)

def fieldCount (value : V) (szValue : Option V) : ℕ := (getBaseTypeAndFlattenedFields P value szValue).length

def count (D S : V) (szValue : Option V) : ℕ := min (fieldCount P D szValue) (fieldCount P S szValue)

def Special (D S : V) (szValue : Option V) : Prop :=
  count P D S szValue = 1 ∧ (P.isConstDataOrAggData D ∨ P.isConstDataOrAggData S)

instance (D S : V) (szValue : Option V) : Decidable (Special P D S szValue) := inferInstanceAs (Decidable (_ ∧ _))

def Typed (D S : V) (szValue : Option V) : Prop :=
  Special P D S szValue ∨ count P D S szValue ≤ min (P.numOfFlattenElements S) (P.numOfFlattenElements D)

def fieldPair (D S : V) (index : ℕ) : Node × Node :=
  (.gepVal (P.getValueNode S) index, .gepVal (P.getValueNode D) index)

def pairs (D S : V) (szValue : Option V) : List (Node × Node) :=
  if Special P D S szValue then [(.value (P.getValueNode D), .value (P.getValueNode S))]
  else (List.range (count P D S szValue)).map (fieldPair P D S)

variable {P} {D S : V} {szValue : Option V} {first : ℕ} {copies : List (Node × Node)} {pag : Graph}

theorem getBaseTypeAndFlattenedFields_eq (value : V) (szValue : Option V) :
    getBaseTypeAndFlattenedFields P value szValue = List.range (fieldCount P value szValue) := by
  have hrange : ∃ n, getBaseTypeAndFlattenedFields P value szValue = List.range n := by
    rw [getBaseTypeAndFlattenedFields]
    cases szValue.bind P.constantInt with
    | none => exact ⟨_, rfl⟩
    | some size => exact ⟨_, rfl⟩
  obtain ⟨n, hn⟩ := hrange
  rw [fieldCount, hn, List.length_range]

theorem fields_eq (D S : V) (szValue : Option V) :
    (if (getBaseTypeAndFlattenedFields P D szValue).length < (getBaseTypeAndFlattenedFields P S szValue).length
      then getBaseTypeAndFlattenedFields P D szValue else getBaseTypeAndFlattenedFields P S szValue) =
      List.range (count P D S szValue) := by
  rw [getBaseTypeAndFlattenedFields_eq, getBaseTypeAndFlattenedFields_eq, List.length_range, List.length_range, count]
  split
  · rw [Nat.min_eq_left (by omega)]
  · rw [Nat.min_eq_right (by omega)]

theorem Built.getGepValVar (h : Built first copies pag) (P : Values V) (value : V) (index : ℕ) :
    Built first copies (getGepValVar P value index pag).2 :=
  h.other (fun _ _ heq => Edge.noConfusion heq) fun _ _ heq => Edge.noConfusion heq

theorem addFieldCopy_spec (h : Built first copies pag) {index : ℕ}
    (hindex : index < min (P.numOfFlattenElements S) (P.numOfFlattenElements D)) :
    ∃ pag', addFieldCopy P D S pag index = some pag' ∧ Built first (copies ++ [fieldPair P D S index]) pag' := by
  rw [addFieldCopy, if_pos (by omega)]
  refine ⟨_, rfl, ?_⟩
  exact ((h.getGepValVar P D index).getGepValVar P S index).addLoadStore ⟨_, List.mem_cons_self⟩
    ⟨_, List.mem_cons_of_mem _ List.mem_cons_self⟩

theorem foldlM_addFieldCopy : ∀ (fields : List ℕ) {copies : List (Node × Node)} {pag : Graph}, Built first copies pag →
    (∀ index ∈ fields, index < min (P.numOfFlattenElements S) (P.numOfFlattenElements D)) →
      ∃ pag', fields.foldlM (addFieldCopy P D S) pag = some pag' ∧
        Built first (copies ++ fields.map (fieldPair P D S)) pag'
  | [], copies, pag, h, _ => ⟨pag, rfl, by rwa [List.map_nil, List.append_nil]⟩
  | index :: fields, copies, pag, h, hfields => by
      obtain ⟨pag', hfirst, hbuilt⟩ := addFieldCopy_spec h (hfields index List.mem_cons_self)
      obtain ⟨pag'', hrest, hbuilt'⟩ := foldlM_addFieldCopy fields hbuilt
        fun index hindex => hfields index (List.mem_cons_of_mem _ hindex)
      refine ⟨pag'', ?_, ?_⟩
      · rw [List.foldlM_cons, hfirst]
        exact hrest
      · rwa [List.map_cons, ← List.append_cons] at *

theorem foldlM_addFieldCopy_none : ∀ (fields : List ℕ) (pag : Graph),
    (∃ index ∈ fields, ¬index < min (P.numOfFlattenElements S) (P.numOfFlattenElements D)) →
      fields.foldlM (addFieldCopy P D S) pag = none
  | [], _, ⟨index, hindex, _⟩ => absurd hindex List.not_mem_nil
  | field :: fields, pag, ⟨index, hindex, hout⟩ => by
      rw [List.foldlM_cons]
      by_cases hfield : field < min (P.numOfFlattenElements S) (P.numOfFlattenElements D)
      · have hmem : index ∈ fields := by
          rcases List.mem_cons.mp hindex with rfl | hmem
          · exact absurd hfield hout
          · exact hmem
        rw [addFieldCopy, if_pos (by omega)]
        exact foldlM_addFieldCopy_none fields _ ⟨index, hmem, hout⟩
      · rw [addFieldCopy, if_neg (by omega)]
        rfl

theorem addComplexConsForExt_eq (hD : P.getValueNode D ≠ 0) (hS : P.getValueNode S ≠ 0) (pag : Graph) :
    addComplexConsForExt P D S szValue pag =
      if Special P D S szValue then some (addLoadStore (.value (P.getValueNode D)) (.value (P.getValueNode S)) pag)
      else (List.range (count P D S szValue)).foldlM (addFieldCopy P D S) pag := by
  rw [addComplexConsForExt]
  dsimp only
  rw [if_neg (fun hor => hor.elim hD hS), fields_eq, List.length_range]
  rfl

theorem addComplexConsForExt_spec (hD : P.getValueNode D ≠ 0) (hS : P.getValueNode S ≠ 0) (h : Built first copies pag)
    (htyped : Typed P D S szValue) : ∃ pag', addComplexConsForExt P D S szValue pag = some pag' ∧
      Built first (copies ++ pairs P D S szValue) pag' := by
  rw [addComplexConsForExt_eq hD hS, pairs]
  by_cases hspecial : Special P D S szValue
  · rw [if_pos hspecial, if_pos hspecial]
    exact ⟨_, rfl, h.addLoadStore trivial trivial⟩
  · rw [if_neg hspecial, if_neg hspecial]
    exact foldlM_addFieldCopy _ h fun index hindex =>
      lt_of_lt_of_le (List.mem_range.mp hindex) (htyped.resolve_left hspecial)

theorem addComplexConsForExt_none (hD : P.getValueNode D ≠ 0) (hS : P.getValueNode S ≠ 0)
    (htyped : ¬Typed P D S szValue) (pag : Graph) : addComplexConsForExt P D S szValue pag = none := by
  rw [addComplexConsForExt_eq hD hS, if_neg fun hspecial => htyped (Or.inl hspecial)]
  refine foldlM_addFieldCopy_none _ pag ⟨_, List.mem_range.mpr ?_, Nat.lt_irrefl _⟩
  exact Nat.lt_of_not_le fun hle => htyped (Or.inr hle)

end

section

variable {V : Type} {P : Values V} {D S : V} {szValue : Option V} {first : ℕ} {copies copies' : List (Node × Node)}
  {pag : Graph} {src dst i j : ℕ}

def NodePtr (node : Node) (base fldIdx : ℕ) : Prop := node = .value base ∧ fldIdx = 0 ∨ node = .gepVal base fldIdx

def FlowsIn (copies : List (Node × Node)) (src i dst j : ℕ) : Prop :=
  ∃ c ∈ copies, NodePtr c.1 src i ∧ NodePtr c.2 dst j

theorem fieldPtr_iff {edges : List Edge} {node : Node} {base fldIdx : ℕ} (h : Pointed edges node) :
    FieldPtr edges node base fldIdx ↔ NodePtr node base fldIdx := by
  refine or_congr Iff.rfl ⟨And.left, fun heq => ⟨heq, ?_⟩⟩
  rw [heq] at h
  exact h

theorem Built.flows_iff (h : Built first copies pag) : Flows pag.edges src i dst j ↔ FlowsIn copies src i dst j := by
  refine ⟨fun ⟨s, d, hs, hd, hcopies⟩ => ?_, fun ⟨⟨s, d⟩, hmem, hs, hd⟩ => ?_⟩
  · have hmem := (h.copies_iff s d).mp hcopies
    obtain ⟨hps, hpd⟩ := h.pointed _ hmem
    exact ⟨(s, d), hmem, (fieldPtr_iff hps).mp hs, (fieldPtr_iff hpd).mp hd⟩
  · obtain ⟨hps, hpd⟩ := h.pointed _ hmem
    exact ⟨s, d, (fieldPtr_iff hps).mpr hs, (fieldPtr_iff hpd).mpr hd, (h.copies_iff s d).mpr hmem⟩

theorem flowsIn_append : FlowsIn (copies ++ copies') src i dst j ↔ FlowsIn copies src i dst j ∨ FlowsIn copies' src i dst j := by
  refine ⟨fun ⟨c, hc, h⟩ => ?_, ?_⟩
  · rcases List.mem_append.mp hc with hc | hc
    · exact Or.inl ⟨c, hc, h⟩
    · exact Or.inr ⟨c, hc, h⟩
  · rintro (⟨c, hc, h⟩ | ⟨c, hc, h⟩)
    · exact ⟨c, List.mem_append_left _ hc, h⟩
    · exact ⟨c, List.mem_append_right _ hc, h⟩

theorem nodePtr_value {id base fldIdx : ℕ} : NodePtr (.value id) base fldIdx ↔ base = id ∧ fldIdx = 0 := by
  refine ⟨?_, fun ⟨hbase, hidx⟩ => Or.inl ⟨by rw [hbase], hidx⟩⟩
  rintro (⟨heq, hidx⟩ | heq)
  · exact ⟨(Node.value.inj heq).symm, hidx⟩
  · exact Node.noConfusion heq

theorem nodePtr_gepVal {b k base fldIdx : ℕ} : NodePtr (.gepVal b k) base fldIdx ↔ base = b ∧ fldIdx = k := by
  refine ⟨?_, fun ⟨hbase, hidx⟩ => Or.inr (by rw [hbase, hidx])⟩
  rintro (⟨heq, -⟩ | heq)
  · exact Node.noConfusion heq
  · exact ⟨(Node.gepVal.inj heq).1.symm, (Node.gepVal.inj heq).2.symm⟩

theorem flowsIn_special (h : Special P D S szValue) : FlowsIn (pairs P D S szValue) src i dst j ↔
    (src = P.getValueNode D ∧ i = 0) ∧ dst = P.getValueNode S ∧ j = 0 := by
  rw [pairs, if_pos h]
  refine ⟨fun ⟨c, hc, hsrc, hdst⟩ => ?_, fun ⟨hsrc, hdst⟩ => ?_⟩
  · rw [List.mem_singleton.mp hc] at hsrc hdst
    exact ⟨nodePtr_value.mp hsrc, nodePtr_value.mp hdst⟩
  · exact ⟨_, List.mem_singleton_self _, nodePtr_value.mpr hsrc, nodePtr_value.mpr hdst⟩

theorem flowsIn_fields (h : ¬Special P D S szValue) : FlowsIn (pairs P D S szValue) src i dst j ↔
    src = P.getValueNode S ∧ dst = P.getValueNode D ∧ j = i ∧ i < count P D S szValue := by
  rw [pairs, if_neg h]
  refine ⟨fun ⟨c, hc, hsrc, hdst⟩ => ?_, fun ⟨hsrc, hdst, hj, hi⟩ => ?_⟩
  · obtain ⟨index, hindex, rfl⟩ := List.mem_map.mp hc
    obtain ⟨hsrc, hi⟩ := nodePtr_gepVal.mp hsrc
    obtain ⟨hdst, hj⟩ := nodePtr_gepVal.mp hdst
    rw [hi]
    exact ⟨hsrc, hdst, hj, List.mem_range.mp hindex⟩
  · exact ⟨_, List.mem_map_of_mem (List.mem_range.mpr hi), nodePtr_gepVal.mpr ⟨hsrc, rfl⟩,
      nodePtr_gepVal.mpr ⟨hdst, hj⟩⟩

theorem flowsIn_pairs_lt (h : FlowsIn (pairs P D S szValue) src i dst j) : i < count P D S szValue := by
  by_cases hspecial : Special P D S szValue
  · rw [((flowsIn_special hspecial).mp h).1.2, hspecial.1]
    exact Nat.one_pos
  · exact ((flowsIn_fields hspecial).mp h).2.2.2

theorem flowsIn_pairs_of_same (h : P.getValueNode D = P.getValueNode S) (hi : i < count P D S szValue) :
    FlowsIn (pairs P D S szValue) (P.getValueNode S) i (P.getValueNode D) i := by
  by_cases hspecial : Special P D S szValue
  · have hzero : i = 0 := by
      rw [hspecial.1] at hi
      exact Nat.lt_one_iff.mp hi
    exact (flowsIn_special hspecial).mpr ⟨⟨h.symm, hzero⟩, h, hzero⟩
  · exact (flowsIn_fields hspecial).mpr ⟨rfl, rfl, rfl, hi⟩

theorem count_comm (D S : V) (szValue : Option V) : count P S D szValue = count P D S szValue := Nat.min_comm _ _

theorem special_comm : Special P S D szValue ↔ Special P D S szValue := by
  rw [Special, Special, count_comm, Or.comm]

structure RightIn (P : Values V) (D S : V) (szValue : Option V) (copies : List (Node × Node)) : Prop where
  complete : ∀ i < toCopy P D S szValue, FlowsIn copies (P.getValueNode S) i (P.getValueNode D) i
  oneWay : P.getValueNode D ≠ P.getValueNode S → ∀ i j, ¬FlowsIn copies (P.getValueNode D) i (P.getValueNode S) j

theorem Built.right_iff (h : Built first copies pag) : Right P D S szValue pag.edges ↔ RightIn P D S szValue copies :=
  ⟨fun hright => ⟨fun i hi => h.flows_iff.mp (hright.complete i hi),
      fun hne i j hflows => hright.oneWay hne i j (h.flows_iff.mpr hflows)⟩,
    fun hright => ⟨fun i hi => h.flows_iff.mpr (hright.complete i hi),
      fun hne i j hflows => hright.oneWay hne i j (h.flows_iff.mp hflows)⟩⟩

theorem rightIn_plain_iff : RightIn P D S szValue (pairs P D S szValue) ↔
    (P.getValueNode D = P.getValueNode S ∨ ¬Special P D S szValue) ∧ toCopy P D S szValue ≤ count P D S szValue := by
  refine ⟨fun h => ⟨?_, ?_⟩, fun ⟨hor, hle⟩ => ⟨fun i hi => ?_, fun hne i j hflows => ?_⟩⟩
  · by_contra hnot
    rw [not_or, not_not] at hnot
    exact h.oneWay hnot.1 0 0 ((flowsIn_special hnot.2).mpr ⟨⟨rfl, rfl⟩, rfl, rfl⟩)
  · by_contra hlt
    exact Nat.lt_irrefl _ (flowsIn_pairs_lt (h.complete _ (Nat.lt_of_not_le hlt)))
  · rcases hor with hsame | hspecial
    · exact flowsIn_pairs_of_same hsame (hi.trans_le hle)
    · exact (flowsIn_fields hspecial).mpr ⟨rfl, rfl, rfl, hi.trans_le hle⟩
  · exact hne ((flowsIn_fields (hor.resolve_left hne)).mp hflows).1

theorem rightIn_both_iff : RightIn P D S szValue (pairs P D S szValue ++ pairs P S D szValue) ↔
    (P.getValueNode D = P.getValueNode S ∨ count P D S szValue = 0) ∧
      toCopy P D S szValue ≤ count P D S szValue := by
  refine ⟨fun h => ⟨?_, ?_⟩, fun ⟨hor, hle⟩ => ⟨fun i hi => ?_, fun hne i j hflows => ?_⟩⟩
  · by_contra hnot
    obtain ⟨hne, hcount⟩ := not_or.mp hnot
    refine h.oneWay hne 0 0 (flowsIn_append.mpr ?_)
    by_cases hspecial : Special P D S szValue
    · exact Or.inl ((flowsIn_special hspecial).mpr ⟨⟨rfl, rfl⟩, rfl, rfl⟩)
    · refine Or.inr ((flowsIn_fields fun hback => hspecial (special_comm.mp hback)).mpr ⟨rfl, rfl, rfl, ?_⟩)
      rw [count_comm]
      exact Nat.pos_of_ne_zero hcount
  · by_contra hlt
    rcases flowsIn_append.mp (h.complete _ (Nat.lt_of_not_le hlt)) with hflows | hflows
    · exact Nat.lt_irrefl _ (flowsIn_pairs_lt hflows)
    · exact Nat.lt_irrefl _ (count_comm (P := P) D S szValue ▸ flowsIn_pairs_lt hflows)
  · rcases hor with hsame | hcount
    · exact flowsIn_append.mpr (Or.inl (flowsIn_pairs_of_same hsame (hi.trans_le hle)))
    · exact absurd (hi.trans_le hle) (by rw [hcount]; exact Nat.not_lt_zero i)
  · have hcount := hor.resolve_left hne
    rcases flowsIn_append.mp hflows with hflows | hflows
    · exact Nat.not_lt_zero i (hcount ▸ flowsIn_pairs_lt hflows)
    · exact Nat.not_lt_zero i (hcount ▸ count_comm (P := P) D S szValue ▸ flowsIn_pairs_lt hflows)

theorem count_none : count P D S none = toCopy P D S none := by
  rw [count, fieldCount, fieldCount]
  change min (List.range _).length (List.range _).length = min _ _
  rw [List.length_range, List.length_range, Nat.min_comm]

theorem rightIn_other_iff {C : V} : RightIn P D S none (pairs P D S none ++ pairs P C S none) ↔
    P.getValueNode D = P.getValueNode S ∨
      ¬Special P D S none ∧ ¬(Special P C S none ∧ P.getValueNode C = P.getValueNode D) := by
  refine ⟨fun h => ?_, fun hor => ⟨fun i hi => ?_, fun hne i j hflows => ?_⟩⟩
  · by_contra hnot
    obtain ⟨hne, hboth⟩ := not_or.mp hnot
    refine hboth ⟨fun hspecial => ?_, fun ⟨hspecial, hsame⟩ => ?_⟩
    · exact h.oneWay hne 0 0 (flowsIn_append.mpr (Or.inl ((flowsIn_special hspecial).mpr ⟨⟨rfl, rfl⟩, rfl, rfl⟩)))
    · exact h.oneWay hne 0 0
        (flowsIn_append.mpr (Or.inr ((flowsIn_special hspecial).mpr ⟨⟨hsame.symm, rfl⟩, rfl, rfl⟩)))
  · rw [← count_none] at hi
    refine flowsIn_append.mpr (Or.inl ?_)
    rcases hor with hsame | ⟨hspecial, -⟩
    · exact flowsIn_pairs_of_same hsame hi
    · exact (flowsIn_fields hspecial).mpr ⟨rfl, rfl, rfl, hi⟩
  · obtain ⟨hspecial, hother⟩ := hor.resolve_left hne
    rcases flowsIn_append.mp hflows with hflows | hflows
    · exact hne ((flowsIn_fields hspecial).mp hflows).1
    · by_cases hback : Special P C S none
      · exact hother ⟨hback, ((flowsIn_special hback).mp hflows).1.1.symm⟩
      · exact hne ((flowsIn_fields hback).mp hflows).1

end

section

variable {V : Type} {P : Values V} {call : Call V} {first : ℕ}

/-- The call has the arguments that it is read for. Nodes of values are not zero. -/
structure WellFormed (P : Values V) (call : Call V) : Prop where
  args : 2 ≤ call.args.length
  iconv : isIconv call = true → 4 ≤ call.args.length
  bcopy : isIconv call = false → isBcopy call = true → call.args.length = 3
  nodes : ∀ value ∈ call.args, P.getValueNode value ≠ 0

def szValueOf (call : Call V) : Option V := (positions call).2.2.bind fun size => call.args[size]?

def Correct (P : Values V) (call : Call V) (first : ℕ) (D S : V) : Prop :=
  ∃ pag, handleMemcpy P call ⟨[], first⟩ = some pag ∧ Right P D S (szValueOf call) pag.edges

def SizeRead (P : Values V) (D S : V) (szValue : Option V) : Prop :=
  Typed P D S szValue ∧ toCopy P D S szValue ≤ count P D S szValue

def CorrectWhen (P : Values V) (call : Call V) (D S : V) : Prop :=
  if isIconv call then
    P.getValueNode D = P.getValueNode S ∨ ¬Special P D S none ∧
      ∀ C, call.args[0]? = some C → ¬(Special P C S none ∧ P.getValueNode C = P.getValueNode D)
  else if isBcopy call then
    (P.getValueNode D = P.getValueNode S ∨ count P D S (szValueOf call) = 0) ∧ SizeRead P D S (szValueOf call)
  else (P.getValueNode D = P.getValueNode S ∨ ¬Special P D S (szValueOf call)) ∧ SizeRead P D S (szValueOf call)

theorem addComplexConsForArgs_eq {dst src : ℕ} {size : Option ℕ} {D S : V} (hD : call.args[dst]? = some D)
    (hS : call.args[src]? = some S) (hsize : ∀ z, size = some z → z < call.args.length) (pag : Graph) :
    addComplexConsForArgs P call dst src size pag =
      addComplexConsForExt P D S (size.bind fun size => call.args[size]?) pag := by
  rw [addComplexConsForArgs, hD, hS, Option.bind_some, Option.bind_some]
  cases size with
  | none => rfl
  | some z =>
      have hz := List.getElem?_eq_getElem (hsize z rfl)
      dsimp only
      rw [Option.bind_some, hz, Option.bind_some]

theorem typed_none (D S : V) : Typed P D S none := by
  refine Or.inr (le_of_eq ?_)
  rw [count_none]
  rfl

theorem typed_comm {D S : V} {szValue : Option V} : Typed P S D szValue ↔ Typed P D S szValue := by
  rw [Typed, Typed, special_comm, count_comm, Nat.min_comm]

theorem correct_mcpy_iff {D S D' S' : V} {szValue : Option V} {copies : List (Node × Node)} {pag : Graph}
    (hspecial : addSpecialCons P call ⟨[], first⟩ = some pag) (hbuilt : Built first copies pag)
    (hargs : ∀ pag, addComplexConsForArgs P call 0 1 (if call.args.length = 3 then some 2 else none) pag =
      addComplexConsForExt P D' S' szValue pag)
    (hD : P.getValueNode D' ≠ 0) (hS : P.getValueNode S' ≠ 0) (hfirst : call.args[0]?.isSome) :
    Correct P call first D S ↔
      Typed P D' S' szValue ∧ RightIn P D S (szValueOf call) (copies ++ pairs P D' S' szValue) := by
  obtain ⟨value, hvalue⟩ := Option.isSome_iff_exists.mp hfirst
  rw [Correct, handleMemcpy, hspecial, Option.bind_some, hargs, hvalue]
  by_cases htyped : Typed P D' S' szValue
  · obtain ⟨pag', hcopy, hbuilt'⟩ := addComplexConsForExt_spec hD hS hbuilt htyped
    rw [hcopy, Option.bind_some, and_iff_right htyped]
    cases call.isPointerTy with
    | true =>
        have hbuilt'' := @Built.other _ _ _ hbuilt' (.copy (P.getValueNode value) (P.getValueNode call.result))
          (fun _ _ heq => Edge.noConfusion heq) fun _ _ heq => Edge.noConfusion heq
        refine ⟨fun ⟨pag'', heq, hright⟩ => ?_, fun hright => ⟨_, rfl, hbuilt''.right_iff.mpr hright⟩⟩
        rw [← Option.some.inj heq] at hright
        exact hbuilt''.right_iff.mp hright
    | false =>
        exact ⟨fun ⟨_, heq, hright⟩ => hbuilt'.right_iff.mp (Option.some.inj heq ▸ hright),
          fun hright => ⟨_, rfl, hbuilt'.right_iff.mpr hright⟩⟩
  · rw [addComplexConsForExt_none hD hS htyped]
    exact iff_of_false (fun ⟨_, heq, _⟩ => Option.some_ne_none _ heq.symm) fun hboth => htyped hboth.1

theorem correct_none {D S : V} (hspecial : addSpecialCons P call ⟨[], first⟩ = none) : ¬Correct P call first D S := by
  rintro ⟨pag, hhandle, -⟩
  rw [handleMemcpy, hspecial] at hhandle
  exact Option.some_ne_none pag hhandle.symm

theorem size_lt (call : Call V) : ∀ z, (if call.args.length = 3 then some 2 else none) = some z → z < call.args.length := by
  intro z hz
  split at hz
  · rw [← Option.some.inj hz]
    omega
  · exact absurd hz.symm (Option.some_ne_none z)

section

variable {D S : V} (hcall : WellFormed P call)

include hcall

theorem WellFormed.node {i : ℕ} {value : V} (h : call.args[i]? = some value) : P.getValueNode value ≠ 0 :=
  hcall.nodes _ (List.mem_of_getElem? h)

theorem WellFormed.firstArg : call.args[0]?.isSome := by
  rw [List.getElem?_eq_getElem (by have := hcall.args; omega)]
  rfl

theorem correct_iconv_iff (first : ℕ) (hiconv : isIconv call = true) (hD : call.args[3]? = some D)
    (hS : call.args[1]? = some S) : Correct P call first D S ↔ CorrectWhen P call D S := by
  have hfour := hcall.iconv hiconv
  have hne : call.args.length ≠ 3 := by omega
  obtain ⟨C, hC⟩ := Option.isSome_iff_exists.mp hcall.firstArg
  have hnone : szValueOf call = none := by
    rw [szValueOf, positions, hiconv]
    rfl
  have hargs : ∀ pag, addComplexConsForArgs P call 0 1 (if call.args.length = 3 then some 2 else none) pag =
      addComplexConsForExt P C S none pag := by
    intro pag
    rw [addComplexConsForArgs_eq hC hS (size_lt call), if_neg hne]
    rfl
  obtain ⟨pag, hcopy, hbuilt⟩ := addComplexConsForExt_spec (hcall.node hD) (hcall.node hS) (built_empty first)
    (typed_none D S)
  have hspecial : addSpecialCons P call ⟨[], first⟩ = some pag := by
    rw [addSpecialCons, hiconv, if_pos rfl,
      addComplexConsForArgs_eq hD hS fun z hz => absurd hz.symm (Option.some_ne_none z)]
    exact hcopy
  rw [correct_mcpy_iff hspecial hbuilt hargs (hcall.node hC) (hcall.node hS) hcall.firstArg, hnone, List.nil_append,
    and_iff_right (typed_none C S), CorrectWhen, hiconv, if_pos rfl]
  refine rightIn_other_iff.trans (or_congr Iff.rfl (and_congr Iff.rfl ⟨fun h C' hC' => ?_, fun h => h C hC⟩))
  rw [← Option.some.inj (hC.symm.trans hC')]
  exact h

theorem correct_bcopy_iff (first : ℕ) (hiconv : isIconv call = false) (hbcopy : isBcopy call = true)
    (hD : call.args[1]? = some D) (hS : call.args[0]? = some S) :
    Correct P call first D S ↔ CorrectWhen P call D S := by
  have hthree := hcall.bcopy hiconv hbcopy
  have hthird : szValueOf call = call.args[2]? := by
    rw [szValueOf, positions, hiconv, hbcopy]
    rfl
  have hspecial : addSpecialCons P call ⟨[], first⟩ = addComplexConsForExt P D S call.args[2]? ⟨[], first⟩ := by
    rw [addSpecialCons, hiconv, hbcopy, if_neg Bool.false_ne_true, if_pos rfl,
      addComplexConsForArgs_eq hD hS fun z hz => by rw [← Option.some.inj hz]; omega]
    rfl
  have hargs : ∀ pag, addComplexConsForArgs P call 0 1 (if call.args.length = 3 then some 2 else none) pag =
      addComplexConsForExt P S D call.args[2]? pag := by
    intro pag
    rw [addComplexConsForArgs_eq hS hD (size_lt call), if_pos hthree]
    rfl
  rw [CorrectWhen, hiconv, hbcopy, if_neg Bool.false_ne_true, if_pos rfl, SizeRead, hthird]
  by_cases htyped : Typed P D S call.args[2]?
  · obtain ⟨pag, hcopy, hbuilt⟩ := addComplexConsForExt_spec (hcall.node hD) (hcall.node hS) (built_empty first) htyped
    rw [correct_mcpy_iff (hspecial.trans hcopy) hbuilt hargs (hcall.node hS) (hcall.node hD) hcall.firstArg, hthird,
      List.nil_append, typed_comm, and_iff_right htyped, and_iff_right htyped]
    exact rightIn_both_iff
  · exact iff_of_false (correct_none (hspecial.trans (addComplexConsForExt_none (hcall.node hD) (hcall.node hS) htyped _)))
      fun hboth => htyped hboth.2.1

theorem correct_plain_iff (first : ℕ) (hiconv : isIconv call = false) (hbcopy : isBcopy call = false)
    (hD : call.args[0]? = some D) (hS : call.args[1]? = some S) :
    Correct P call first D S ↔ CorrectWhen P call D S := by
  have hspecial : addSpecialCons P call ⟨[], first⟩ = some ⟨[], first⟩ := by
    rw [addSpecialCons, hiconv, hbcopy]
    rfl
  have hthird : szValueOf call = (if call.args.length = 3 then some 2 else none).bind fun size => call.args[size]? := by
    rw [szValueOf, positions, hiconv, hbcopy]
    rfl
  rw [CorrectWhen, hiconv, hbcopy, if_neg Bool.false_ne_true, if_neg Bool.false_ne_true,
    correct_mcpy_iff hspecial (built_empty first) (addComplexConsForArgs_eq hD hS (size_lt call)) (hcall.node hD)
      (hcall.node hS) hcall.firstArg, List.nil_append, ← hthird, rightIn_plain_iff, SizeRead, and_left_comm]

end

theorem handleMemcpy_correct_iff (hcall : WellFormed P call) (first : ℕ) {D S : V}
    (hD : call.args[(positions call).1]? = some D) (hS : call.args[(positions call).2.1]? = some S) :
    Correct P call first D S ↔ CorrectWhen P call D S := by
  rw [positions] at hD hS
  cases hiconv : isIconv call with
  | true =>
      rw [hiconv] at hD hS
      exact correct_iconv_iff hcall first hiconv hD hS
  | false =>
      rw [hiconv] at hD hS
      cases hbcopy : isBcopy call with
      | true =>
          rw [hbcopy] at hD hS
          exact correct_bcopy_iff hcall first hiconv hbcopy hD hS
      | false =>
          rw [hbcopy] at hD hS
          exact correct_plain_iff hcall first hiconv hbcopy hD hS

/-- A call with a size that is not known. Only the value 0 is constant data. -/
def sampleValues : Values ℕ where
  getValueNode value := value + 1
  numOfFlattenElements _ := 1
  isConstDataOrAggData value := value == 0
  constantInt _ := none
  hasIncomingVariantGepEdge _ := false

theorem handleMemcpy_correct_memmove : Correct sampleValues ⟨"memmove".toList, [1, 2, 3], 4, true⟩ 0 1 2 := by
  refine (handleMemcpy_correct_iff ⟨by decide, fun h => absurd h (by decide), fun _ h => absurd h (by decide), ?_⟩ 0
    rfl rfl).mpr ?_
  · exact fun value _ => Nat.succ_ne_zero value
  · change (_ ∨ _) ∧ _
    exact ⟨Or.inr (by decide), Or.inr (by decide), by decide⟩

/-- A copy from constant data, and one by a function with the source first. -/
theorem handleMemcpy_incorrect :
    (¬Correct sampleValues ⟨"memmove".toList, [1, 0, 3], 4, true⟩ 0 1 0) ∧
      ¬Correct sampleValues ⟨"bcopy".toList, [2, 1, 3], 4, false⟩ 0 1 2 := by
  have hnodes : ∀ (args : List ℕ), ∀ value ∈ args, sampleValues.getValueNode value ≠ 0 :=
    fun _ value _ => Nat.succ_ne_zero value
  refine ⟨fun h => ?_, fun h => ?_⟩
  · have hcall : WellFormed sampleValues ⟨"memmove".toList, [1, 0, 3], 4, true⟩ :=
      ⟨by decide, fun h => absurd h (by decide), fun _ h => absurd h (by decide), hnodes _⟩
    have hwhen := (correct_plain_iff hcall 0 (by decide) (by decide) rfl rfl).mp h
    change (_ ∨ _) ∧ _ at hwhen
    rcases hwhen.1 with hsame | hspecial
    · exact absurd hsame (by decide)
    · exact absurd (by decide) hspecial
  · have hcall : WellFormed sampleValues ⟨"bcopy".toList, [2, 1, 3], 4, false⟩ :=
      ⟨by decide, fun h => absurd h (by decide), fun _ _ => rfl, hnodes _⟩
    have hwhen := (correct_bcopy_iff hcall 0 (by decide) (by decide) rfl rfl).mp h
    change (_ ∨ _) ∧ _ at hwhen
    rcases hwhen.1 with hsame | hcount
    · exact absurd hsame (by decide)
    · exact absurd hcount (by decide)

end

section

variable {V : Type} {P : Values V}

end

end SVF.SVFIR.ExtCopies
