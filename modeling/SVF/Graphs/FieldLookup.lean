import SVF.Graphs.FieldObjects

namespace SVF.Graphs.FieldLookup

open ConsG FieldObjects

/-- Field objects of field-sensitive objects have been added, and nothing else has changed. -/
structure Grown (pag pag' : SVFIR) : Prop where
  nodes : ∀ x ∈ pag.nodes, x ∈ pag'.nodes
  old : ∀ x ∈ pag.nodes, pag'.gepObjVar x = pag.gepObjVar x
  map : ∀ b i x, pag.GepObjVarMap b i = some x → pag'.GepObjVarMap b i = some x
  fields : ∀ b, pag.maxFieldOffsetLimit b = 0 → pag'.memToFieldsMap b = pag.memToFieldsMap b
  limit : pag'.maxFieldOffsetLimit = pag.maxFieldOffsetLimit
  const : pag'.isConstDataOrConstGlobal = pag.isConstDataOrConstGlobal
  pointer : pag'.isPointer = pag.isPointer

theorem Grown.refl (pag : SVFIR) : Grown pag pag :=
  ⟨fun _ h => h, fun _ _ => rfl, fun _ _ _ h => h, fun _ _ => rfl, rfl, rfl, rfl⟩

theorem Grown.trans {pag pag' pag'' : SVFIR} (h : Grown pag pag') (h' : Grown pag' pag'') :
    Grown pag pag'' where
  nodes x hx := h'.nodes x (h.nodes x hx)
  old x hx := (h'.old x (h.nodes x hx)).trans (h.old x hx)
  map b i x hx := h'.map b i x (h.map b i x hx)
  fields b hb := (h'.fields b (by rwa [h.limit])).trans (h.fields b hb)
  limit := h'.limit.trans h.limit
  const := h'.const.trans h.const
  pointer := h'.pointer.trans h.pointer

/-- The maps agree, a field object is the one its base object finds, and the
two special objects are no field objects. -/
structure Sound (pag : SVFIR) : Prop where
  consistent : Consistent pag
  unique : ∀ x b i, pag.gepObjVar x = some (b, i) → pag.GepObjVarMap b i = some x
  fieldNode : ∀ b, ∀ x ∈ pag.memToFieldsMap b, x ∈ pag.nodes
  blackHole : BlackHole ∈ pag.nodes ∧ pag.gepObjVar BlackHole = none
  constantObj : ConstantObj ∈ pag.nodes ∧ pag.gepObjVar ConstantObj = none

variable {pag pag' : SVFIR}

section

variable (hgrown : Grown pag pag') {o : NodeID} (ho : o ∈ pag.nodes)

include hgrown ho

theorem getBaseObjVar_grown : pag'.getBaseObjVar o = pag.getBaseObjVar o := by
  rw [SVFIR.getBaseObjVar, SVFIR.getBaseObjVar, hgrown.old o ho]

theorem isFieldInsensitive_grown : pag'.isFieldInsensitive o = pag.isFieldInsensitive o := by
  rw [SVFIR.isFieldInsensitive, SVFIR.isFieldInsensitive, getBaseObjVar_grown hgrown ho,
    hgrown.limit]

theorem isConstantObj_grown : pag'.isConstantObj o = pag.isConstantObj o := by
  rw [SVFIR.isConstantObj, SVFIR.isConstantObj, getBaseObjVar_grown hgrown ho, hgrown.const]

theorem isBlkObjOrConstantObj_grown :
    pag'.isBlkObjOrConstantObj o = pag.isBlkObjOrConstantObj o := by
  rw [SVFIR.isBlkObjOrConstantObj, SVFIR.isBlkObjOrConstantObj, isConstantObj_grown hgrown ho]

theorem getFIObjVar_grown : pag'.getFIObjVar o = pag.getFIObjVar o := getBaseObjVar_grown hgrown ho

theorem getAllFieldsObjVars_grown (hfi : pag.isFieldInsensitive o = true) :
    pag'.getAllFieldsObjVars o = pag.getAllFieldsObjVars o := by
  rw [SVFIR.getAllFieldsObjVars, SVFIR.getAllFieldsObjVars, getBaseObjVar_grown hgrown ho]
  exact hgrown.fields _ (of_decide_eq_true hfi)

end

variable (opts : Options) (alloc : NodeIDAllocator)

theorem getModulusOffset_grown (h : Grown pag pag') (base : NodeID) (offset : APOffset) :
    pag'.getModulusOffset opts base offset = pag.getModulusOffset opts base offset := by
  rw [SVFIR.getModulusOffset, SVFIR.getModulusOffset, h.limit]

theorem getGepObjVarOfBase_cases (pag : SVFIR) (base : NodeID) (offset : APOffset) :
    ((pag.maxFieldOffsetLimit base = 0 ∨ opts.FirstFieldEqBase = true ∧
        pag.getModulusOffset opts base offset = 0) ∧
      pag.getGepObjVarOfBase opts alloc base offset = (pag, base)) ∨
    ((¬ (pag.maxFieldOffsetLimit base = 0 ∨ opts.FirstFieldEqBase = true ∧
        pag.getModulusOffset opts base offset = 0)) ∧
      ((∃ x, pag.GepObjVarMap base (pag.getModulusOffset opts base offset) = some x ∧
        pag.getGepObjVarOfBase opts alloc base offset = (pag, x)) ∨
      (pag.GepObjVarMap base (pag.getModulusOffset opts base offset) = none ∧
        ∃ x ∉ pag.nodes, pag.getGepObjVarOfBase opts alloc base offset =
          (pag.addGepObjNode base (pag.getModulusOffset opts base offset) x, x)))) := by
  rw [SVFIR.getGepObjVarOfBase]
  by_cases hlimit : pag.maxFieldOffsetLimit base = 0
  · exact .inl ⟨.inl hlimit, by rw [if_pos hlimit]⟩
  · rw [if_neg hlimit]
    by_cases hfirst : opts.FirstFieldEqBase = true ∧ pag.getModulusOffset opts base offset = 0
    · exact .inl ⟨.inr hfirst, by simp [hfirst]⟩
    · refine .inr ⟨by simp only [hlimit, hfirst, or_self, not_false_iff], ?_⟩
      have hcond : (opts.FirstFieldEqBase && decide (pag.getModulusOffset opts base offset = 0)) =
          false := by simpa using hfirst
      simp only [hcond, Bool.false_eq_true, if_false]
      cases hmap : pag.GepObjVarMap base (pag.getModulusOffset opts base offset) with
      | some x => exact .inl ⟨x, rfl, rfl⟩
      | none => exact .inr ⟨rfl, _, alloc.fresh pag.nodes base offset, rfl⟩

theorem getGepObjVar_limit (pag : SVFIR) (o : NodeID) (offset : APOffset) :
    (pag.getGepObjVar opts alloc o offset).1.maxFieldOffsetLimit = pag.maxFieldOffsetLimit := by
  have hbase : ∀ base i, (pag.getGepObjVarOfBase opts alloc base i).1.maxFieldOffsetLimit =
      pag.maxFieldOffsetLimit := by
    intro base i
    rcases getGepObjVarOfBase_cases opts alloc pag base i with
      ⟨-, heq⟩ | ⟨-, ⟨x, -, heq⟩ | ⟨-, x, -, heq⟩⟩
    · rw [heq]
    · rw [heq]
    · rw [heq]
      rfl
  unfold SVFIR.getGepObjVar
  split
  · exact hbase _ _
  · exact hbase _ _

theorem grown_addGepObjNode {base x : NodeID} {i : APOffset}
    (hlimit : pag.maxFieldOffsetLimit base ≠ 0) (hmap : pag.GepObjVarMap base i = none)
    (hx : x ∉ pag.nodes) : Grown pag (pag.addGepObjNode base i x) := by
  refine ⟨fun y hy => List.mem_cons_of_mem x hy, fun y hy => ?_, fun b j y hy => ?_,
    fun b hb => ?_, rfl, rfl, rfl⟩
  · have hne : y ≠ x := fun heq => hx (heq ▸ hy)
    exact Function.update_of_ne hne _ _
  · change Function.update pag.GepObjVarMap base
      (Function.update (pag.GepObjVarMap base) i (some x)) b j = some y
    by_cases hb : b = base
    · subst hb
      rw [Function.update_self]
      by_cases hj : j = i
      · rw [hj, hmap] at hy
        contradiction
      · rwa [Function.update_of_ne hj]
    · rwa [Function.update_of_ne hb]
  · have hne : b ≠ base := fun heq => hlimit (heq ▸ hb)
    exact Function.update_of_ne hne _ _

theorem sound_addGepObjNode (h : Sound pag) {base x : NodeID} {i : APOffset}
    (hbase : base ∈ pag.nodes) (hgep : pag.gepObjVar base = none)
    (hmap : pag.GepObjVarMap base i = none) (hx : x ∉ pag.nodes) :
    Sound (pag.addGepObjNode base i x) := by
  have hspecial : ∀ y ∈ pag.nodes, pag.gepObjVar y = none →
      y ∈ (pag.addGepObjNode base i x).nodes ∧ (pag.addGepObjNode base i x).gepObjVar y = none := by
    intro y hy hnone
    have hne : y ≠ x := fun heq => hx (heq ▸ hy)
    exact ⟨List.mem_cons_of_mem x hy, (Function.update_of_ne hne _ _).trans hnone⟩
  refine ⟨consistent_addGepObjNode h.consistent hbase hgep hx, fun y b j hy => ?_,
    fun b y hy => ?_, hspecial _ h.blackHole.1 h.blackHole.2,
    hspecial _ h.constantObj.1 h.constantObj.2⟩
  · change Function.update pag.gepObjVar x (some (base, i)) y = some (b, j) at hy
    change Function.update pag.GepObjVarMap base
      (Function.update (pag.GepObjVarMap base) i (some x)) b j = some y
    by_cases hyx : y = x
    · subst hyx
      rw [Function.update_self, Option.some.injEq, Prod.mk.injEq] at hy
      obtain ⟨rfl, rfl⟩ := hy
      rw [Function.update_self, Function.update_self]
    · rw [Function.update_of_ne hyx] at hy
      have hold := h.unique y b j hy
      by_cases hb : b = base
      · subst hb
        rw [Function.update_self]
        by_cases hj : j = i
        · rw [hj, hmap] at hold
          contradiction
        · rwa [Function.update_of_ne hj]
      · rwa [Function.update_of_ne hb]
  · change y ∈ Function.update pag.memToFieldsMap base _ b at hy
    by_cases hb : b = base
    · subst hb
      rw [Function.update_self, List.mem_insert_iff] at hy
      rcases hy with rfl | hy
      · exact List.mem_cons_self
      · exact List.mem_cons_of_mem x (h.fieldNode b y hy)
    · rw [Function.update_of_ne hb] at hy
      exact List.mem_cons_of_mem x (h.fieldNode b y hy)

abbrev Name := NodeID × Option APOffset

def name (pag : SVFIR) (x : NodeID) : Name :=
  match pag.gepObjVar x with
  | some (b, i) => (b, some i)
  | none => (x, none)

theorem name_fst (pag : SVFIR) (x : NodeID) : (name pag x).1 = pag.getBaseObjVar x := by
  rw [name, SVFIR.getBaseObjVar]
  cases pag.gepObjVar x <;> rfl

theorem name_injective (h : Sound pag) {x y : NodeID} (heq : name pag x = name pag y) : x = y := by
  rw [name, name] at heq
  cases hx : pag.gepObjVar x with
  | none =>
      cases hy : pag.gepObjVar y with
      | none =>
          rw [hx, hy] at heq
          exact congrArg Prod.fst heq
      | some q => simp [hx, hy] at heq
  | some p =>
      cases hy : pag.gepObjVar y with
      | none => simp [hx, hy] at heq
      | some q =>
          simp only [hx, hy, Prod.mk.injEq, Option.some.injEq] at heq
          have hmap := h.unique x p.1 p.2 hx
          rw [heq.1, heq.2, h.unique y q.1 q.2 hy] at hmap
          exact (Option.some.inj hmap).symm

theorem name_grown (h : Grown pag pag') {x : NodeID} (hx : x ∈ pag.nodes) :
    name pag' x = name pag x := by
  rw [name, name, h.old x hx]

def fieldName (pag : SVFIR) (opts : Options) (base : NodeID) (offset : APOffset) : Name :=
  if pag.maxFieldOffsetLimit base = 0 ∨ opts.FirstFieldEqBase = true ∧
      pag.getModulusOffset opts base offset = 0 then (base, none)
  else (base, some (pag.getModulusOffset opts base offset))

theorem fieldName_grown (h : Grown pag pag') (base : NodeID) (offset : APOffset) :
    fieldName pag' opts base offset = fieldName pag opts base offset := by
  rw [fieldName, fieldName, getModulusOffset_grown opts h, h.limit]

structure Lookup (pag : SVFIR) (r : SVFIR × NodeID) (lookup : SVFIR → SVFIR × NodeID)
    (fieldName : Name) : Prop where
  sound : Sound r.1
  grown : Grown pag r.1
  mem : r.2 ∈ r.1.nodes
  name : name r.1 r.2 = fieldName
  again : ∀ pag', Grown r.1 pag' → lookup pag' = (pag', r.2)

theorem getGepObjVarOfBase_lookup (h : Sound pag) {base : NodeID} (hbase : base ∈ pag.nodes)
    (hgep : pag.gepObjVar base = none) (offset : APOffset) :
    Lookup pag (pag.getGepObjVarOfBase opts alloc base offset)
      (fun pag => pag.getGepObjVarOfBase opts alloc base offset)
      (fieldName pag opts base offset) := by
  -- a lookup in a graph that has the field object
  have hfind : ∀ (pag' : SVFIR) (x : NodeID), Grown pag pag' →
      ¬ (pag.maxFieldOffsetLimit base = 0 ∨ opts.FirstFieldEqBase = true ∧
        pag.getModulusOffset opts base offset = 0) →
      pag'.GepObjVarMap base (pag.getModulusOffset opts base offset) = some x →
      pag'.getGepObjVarOfBase opts alloc base offset = (pag', x) := by
    intro pag' x hgrown hcond hx
    rcases getGepObjVarOfBase_cases opts alloc pag' base offset with
      ⟨hbase', -⟩ | ⟨-, ⟨y, hy, heq⟩ | ⟨hnone, -⟩⟩
    · rw [getModulusOffset_grown opts hgrown, hgrown.limit] at hbase'
      exact absurd hbase' hcond
    · rw [getModulusOffset_grown opts hgrown, hx, Option.some.injEq] at hy
      rw [heq, hy]
    · rw [getModulusOffset_grown opts hgrown, hx] at hnone
      contradiction
  rcases getGepObjVarOfBase_cases opts alloc pag base offset with
    ⟨hcond, heq⟩ | ⟨hcond, ⟨x, hx, heq⟩ | ⟨hnone, x, hx, heq⟩⟩
  · rw [heq, fieldName, if_pos hcond]
    refine ⟨h, Grown.refl pag, hbase, by rw [name, hgep], fun pag' hgrown => ?_⟩
    rcases getGepObjVarOfBase_cases opts alloc pag' base offset with ⟨-, heq'⟩ | ⟨hnot, -⟩
    · exact heq'
    · rw [getModulusOffset_grown opts hgrown, hgrown.limit] at hnot
      exact absurd hcond hnot
  · rw [heq, fieldName, if_neg hcond]
    have hobj := h.consistent.gep _ _ x hx
    exact ⟨h, Grown.refl pag, (h.consistent.node x _ _ hobj).1, by rw [name, hobj],
      fun pag' hgrown => hfind pag' x hgrown hcond (hgrown.map _ _ x hx)⟩
  · rw [heq, fieldName, if_neg hcond]
    have hgrown := grown_addGepObjNode (fun hz => hcond (.inl hz)) hnone hx
    have hsound := sound_addGepObjNode h hbase hgep hnone hx
    have hself : (pag.addGepObjNode base (pag.getModulusOffset opts base offset) x).GepObjVarMap
        base (pag.getModulusOffset opts base offset) = some x := by
      change Function.update pag.GepObjVarMap base _ base _ = some x
      rw [Function.update_self, Function.update_self]
    refine ⟨hsound, hgrown, List.mem_cons_self, ?_, fun pag' hgrown' => ?_⟩
    · rw [name, hsound.consistent.gep _ _ x hself]
    · exact hfind pag' x (hgrown.trans hgrown') hcond (hgrown'.map _ _ x hself)

/-- The offset that a gep of `offset` reaches from an object of the name. -/
def nameOffset (n : Name) (offset : APOffset) : APOffset :=
  match n.2 with
  | some i => i + offset
  | none => offset

theorem getGepObjVar_lookup (h : Sound pag) {o : NodeID} (ho : o ∈ pag.nodes)
    (offset : APOffset) :
    Lookup pag (pag.getGepObjVar opts alloc o offset)
      (fun pag => pag.getGepObjVar opts alloc o offset)
      (fieldName pag opts (name pag o).1 (nameOffset (name pag o) offset)) := by
  have hbase : ∀ (base : NodeID) (i : APOffset), base ∈ pag.nodes → pag.gepObjVar base = none →
      (∀ pag', Grown pag pag' →
        pag'.getGepObjVar opts alloc o offset = pag'.getGepObjVarOfBase opts alloc base i) →
      Lookup pag (pag.getGepObjVar opts alloc o offset)
        (fun pag => pag.getGepObjVar opts alloc o offset) (fieldName pag opts base i) := by
    intro base i hbase hgep heq
    have hlookup := getGepObjVarOfBase_lookup opts alloc h hbase hgep i
    rw [heq pag (Grown.refl pag)]
    exact ⟨hlookup.sound, hlookup.grown, hlookup.mem, hlookup.name, fun pag' hgrown =>
      (heq pag' (hlookup.grown.trans hgrown)).trans (hlookup.again pag' hgrown)⟩
  rw [name]
  cases hgep : pag.gepObjVar o with
  | none =>
      refine hbase o offset ho hgep (fun pag' hgrown => ?_)
      rw [SVFIR.getGepObjVar, hgrown.old o ho, hgep]
  | some p =>
      refine hbase p.1 (p.2 + offset) (h.consistent.node o _ _ hgep).2
        (h.consistent.base o _ _ hgep) (fun pag' hgrown => ?_)
      rw [SVFIR.getGepObjVar, hgrown.old o ho, hgep]

end SVF.Graphs.FieldLookup
