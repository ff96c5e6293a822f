import Mathlib.Algebra.Group.Int.Defs
import Mathlib.Algebra.GroupWithZero.Nat
import SVF.Graphs.ConsG

namespace SVF.Graphs.FieldObjects

open ConsG

structure Options where
  MaxFieldLimit : ℕ
  FirstFieldEqBase : Bool
  CyclicFldIdx : Bool

/-- `NodeIDAllocator`: whatever the strategy, a new identifier is not in use. -/
structure NodeIDAllocator where
  allocateGepObjectId : List NodeID → NodeID → APOffset → NodeID
  fresh : ∀ used base offset, allocateGepObjectId used base offset ∉ used

def allocateNext : NodeIDAllocator where
  allocateGepObjectId used _ _ := used.foldr max 0 + 1
  fresh used _ _ := by
    have hle : ∀ (l : List NodeID) x, x ∈ l → x ≤ l.foldr max 0 := by
      intro l
      induction l with
      | nil => exact fun x hx => absurd hx List.not_mem_nil
      | cons y l ih =>
          intro x hx
          rcases List.mem_cons.mp hx with rfl | hx
          · exact le_max_left _ _
          · exact (ih x hx).trans (le_max_right _ _)
    exact fun hmem => Nat.not_succ_le_self _ (hle used _ hmem)

/-- The part of the program graph that the analysis reads and extends: `nodes`
are the identifiers in use, `gepObjVar` the base and the constant field index
of a field object. The field limit and the flags belong to base objects. -/
structure SVFIR where
  nodes : List NodeID
  gepObjVar : NodeID → Option (NodeID × APOffset)
  GepObjVarMap : NodeID → APOffset → Option NodeID
  memToFieldsMap : NodeID → List NodeID
  maxFieldOffsetLimit : NodeID → ℕ
  isConstDataOrConstGlobal : NodeID → Bool
  isPointer : NodeID → Bool

def BlackHole : NodeID := 2

def ConstantObj : NodeID := 3

namespace SVFIR

variable (pag : SVFIR)

def getBaseObjVar (id : NodeID) : NodeID :=
  match pag.gepObjVar id with
  | some (base, _) => base
  | none => id

def getFIObjVar (id : NodeID) : NodeID := pag.getBaseObjVar id

def isFieldInsensitive (id : NodeID) : Bool := pag.maxFieldOffsetLimit (pag.getBaseObjVar id) = 0

def setObjFieldInsensitive (id : NodeID) : SVFIR :=
  { pag with
    maxFieldOffsetLimit := Function.update pag.maxFieldOffsetLimit (pag.getBaseObjVar id) 0 }

def isBlkObj (id : NodeID) : Bool := id = BlackHole

def isConstantObj (id : NodeID) : Bool :=
  id = ConstantObj || pag.isConstDataOrConstGlobal (pag.getBaseObjVar id)

def isBlkObjOrConstantObj (id : NodeID) : Bool := isBlkObj id || pag.isConstantObj id

def getAllFieldsObjVars (id : NodeID) : List NodeID := pag.memToFieldsMap (pag.getBaseObjVar id)

def getModulusOffset (opts : Options) (baseObj : NodeID) (apOffset : APOffset) : APOffset :=
  let offset := if apOffset < 0 then -apOffset else apOffset
  let maxOffset := pag.maxFieldOffsetLimit baseObj
  if maxOffset = 0 then 0
  else if opts.MaxFieldLimit < maxOffset then offset % maxOffset
  else if offset % 2 ^ 32 > maxOffset - 1 then
    if opts.CyclicFldIdx then offset % maxOffset else maxOffset - 1
  else offset

def addGepObjNode (baseObj : NodeID) (apOffset : APOffset) (gepId : NodeID) : SVFIR :=
  { pag with
    nodes := gepId :: pag.nodes
    gepObjVar := Function.update pag.gepObjVar gepId (some (baseObj, apOffset))
    GepObjVarMap := Function.update pag.GepObjVarMap baseObj
      (Function.update (pag.GepObjVarMap baseObj) apOffset (some gepId))
    memToFieldsMap := Function.update pag.memToFieldsMap baseObj
      ((pag.memToFieldsMap baseObj).insert gepId) }

def getGepObjVarOfBase (opts : Options) (alloc : NodeIDAllocator) (baseObj : NodeID)
    (apOffset : APOffset) : SVFIR × NodeID :=
  if pag.maxFieldOffsetLimit baseObj = 0 then (pag, baseObj)
  else
    let newLS := pag.getModulusOffset opts baseObj apOffset
    if opts.FirstFieldEqBase && newLS = 0 then (pag, baseObj)
    else match pag.GepObjVarMap baseObj newLS with
      | none =>
          let gepId := alloc.allocateGepObjectId pag.nodes baseObj apOffset
          (pag.addGepObjNode baseObj newLS gepId, gepId)
      | some gepId => (pag, gepId)

def getGepObjVar (opts : Options) (alloc : NodeIDAllocator) (id : NodeID) (apOffset : APOffset) :
    SVFIR × NodeID :=
  match pag.gepObjVar id with
  | some (base, fieldIdx) => pag.getGepObjVarOfBase opts alloc base (fieldIdx + apOffset)
  | none => pag.getGepObjVarOfBase opts alloc id apOffset

end SVFIR

structure Consistent (pag : SVFIR) : Prop where
  node : ∀ x b i, pag.gepObjVar x = some (b, i) → x ∈ pag.nodes ∧ b ∈ pag.nodes
  base : ∀ x b i, pag.gepObjVar x = some (b, i) → pag.gepObjVar b = none
  field : ∀ x b i, pag.gepObjVar x = some (b, i) → x ∈ pag.memToFieldsMap b
  gep : ∀ b i x, pag.GepObjVarMap b i = some x → pag.gepObjVar x = some (b, i)
  ofField : ∀ b x, x ∈ pag.memToFieldsMap b → x = b ∨ ∃ i, pag.gepObjVar x = some (b, i)

def IsCollapsed (pag : SVFIR) (x : NodeID) : Prop :=
  ∃ b i, pag.gepObjVar x = some (b, i) ∧ pag.maxFieldOffsetLimit b = 0

variable {pag : SVFIR}

theorem gepObjVar_getBaseObjVar (h : Consistent pag) (id : NodeID) :
    pag.gepObjVar (pag.getBaseObjVar id) = none := by
  rw [SVFIR.getBaseObjVar]
  cases hid : pag.gepObjVar id with
  | none => exact hid
  | some p => exact h.base id p.1 p.2 hid

theorem not_isCollapsed_of_base {x : NodeID} (h : pag.gepObjVar x = none) : ¬ IsCollapsed pag x := by
  rintro ⟨b, i, hx, -⟩
  rw [h] at hx
  contradiction

/-- What the analysis may do to the objects: add field objects of field-sensitive
ones, and set objects field-insensitive. -/
structure Extends (pag pag' : SVFIR) : Prop where
  gep : ∀ x p, pag.gepObjVar x = some p → pag'.gepObjVar x = some p
  limit : ∀ b, pag.maxFieldOffsetLimit b = 0 → pag'.maxFieldOffsetLimit b = 0
  nodes : ∀ x, x ∈ pag.nodes → x ∈ pag'.nodes

theorem Extends.refl (pag : SVFIR) : Extends pag pag :=
  ⟨fun _ _ h => h, fun _ h => h, fun _ h => h⟩

theorem Extends.trans {pag' pag'' : SVFIR} (h : Extends pag pag') (h' : Extends pag' pag'') :
    Extends pag pag'' :=
  ⟨fun x p hx => h'.gep x p (h.gep x p hx), fun b hb => h'.limit b (h.limit b hb),
    fun x hx => h'.nodes x (h.nodes x hx)⟩

theorem IsCollapsed.mono {pag' : SVFIR} (h : Extends pag pag') {x : NodeID}
    (hx : IsCollapsed pag x) : IsCollapsed pag' x := by
  obtain ⟨b, i, hgep, hlimit⟩ := hx
  exact ⟨b, i, h.gep x (b, i) hgep, h.limit b hlimit⟩

theorem extends_setObjFieldInsensitive (pag : SVFIR) (id : NodeID) :
    Extends pag (pag.setObjFieldInsensitive id) := by
  refine ⟨fun _ _ h => h, fun b hb => ?_, fun _ h => h⟩
  change Function.update pag.maxFieldOffsetLimit (pag.getBaseObjVar id) 0 b = 0
  by_cases h : b = pag.getBaseObjVar id
  · rw [h, Function.update_self]
  · rwa [Function.update_of_ne h]

theorem consistent_setObjFieldInsensitive (h : Consistent pag) (id : NodeID) :
    Consistent (pag.setObjFieldInsensitive id) :=
  ⟨h.node, h.base, h.field, h.gep, h.ofField⟩

theorem extends_addGepObjNode {base gepId : NodeID} {offset : APOffset} (h : Consistent pag)
    (hnew : gepId ∉ pag.nodes) : Extends pag (pag.addGepObjNode base offset gepId) := by
  refine ⟨fun x p hx => ?_, fun _ hb => hb, fun x hx => List.mem_cons_of_mem gepId hx⟩
  change Function.update pag.gepObjVar gepId (some (base, offset)) x = some p
  have hne : x ≠ gepId := fun heq => hnew (heq ▸ (h.node x p.1 p.2 hx).1)
  rwa [Function.update_of_ne hne]

theorem consistent_addGepObjNode {base gepId : NodeID} {offset : APOffset} (h : Consistent pag)
    (hbase : base ∈ pag.nodes) (hgep : pag.gepObjVar base = none) (hnew : gepId ∉ pag.nodes) :
    Consistent (pag.addGepObjNode base offset gepId) := by
  have hneBase : base ≠ gepId := fun heq => hnew (heq ▸ hbase)
  have hgepObj : ∀ x b i, (pag.addGepObjNode base offset gepId).gepObjVar x = some (b, i) ↔
      x = gepId ∧ b = base ∧ i = offset ∨ x ≠ gepId ∧ pag.gepObjVar x = some (b, i) := by
    intro x b i
    change Function.update pag.gepObjVar gepId (some (base, offset)) x = some (b, i) ↔ _
    by_cases hx : x = gepId
    · subst hx
      simp [eq_comm]
    · simp [hx]
  have hnotBase : ∀ b, b ∈ pag.nodes → pag.gepObjVar b = none →
      (pag.addGepObjNode base offset gepId).gepObjVar b = none := by
    intro b hb hnone
    have hne : b ≠ gepId := fun heq => hnew (heq ▸ hb)
    exact (Function.update_of_ne hne _ _).trans hnone
  refine ⟨?_, ?_, ?_, ?_, ?_⟩
  · intro x b i hx
    rcases (hgepObj x b i).mp hx with ⟨rfl, rfl, -⟩ | ⟨-, hx⟩
    · exact ⟨List.mem_cons_self, List.mem_cons_of_mem _ hbase⟩
    · obtain ⟨hxn, hbn⟩ := h.node x b i hx
      exact ⟨List.mem_cons_of_mem _ hxn, List.mem_cons_of_mem _ hbn⟩
  · intro x b i hx
    rcases (hgepObj x b i).mp hx with ⟨rfl, rfl, -⟩ | ⟨-, hx⟩
    · exact hnotBase b hbase hgep
    · exact hnotBase b (h.node x b i hx).2 (h.base x b i hx)
  · intro x b i hx
    change x ∈ Function.update pag.memToFieldsMap base _ b
    rcases (hgepObj x b i).mp hx with ⟨rfl, rfl, -⟩ | ⟨-, hold⟩
    · rw [Function.update_self]
      exact List.mem_insert_self
    · by_cases hb : b = base
      · subst hb
        rw [Function.update_self]
        exact List.mem_insert_of_mem (h.field x b i hold)
      · rw [Function.update_of_ne hb]
        exact h.field x b i hold
  · intro b i x hx
    rw [hgepObj]
    have hold : pag.GepObjVarMap b i = some x → x ≠ gepId ∧ pag.gepObjVar x = some (b, i) := by
      intro hx
      have hx := h.gep b i x hx
      exact ⟨fun heq => hnew (heq ▸ (h.node x b i hx).1), hx⟩
    change Function.update pag.GepObjVarMap base _ b i = some x at hx
    by_cases hb : b = base
    · subst hb
      rw [Function.update_self] at hx
      by_cases hi : i = offset
      · subst hi
        rw [Function.update_self, Option.some.injEq] at hx
        exact .inl ⟨hx.symm, rfl, rfl⟩
      · rw [Function.update_of_ne hi] at hx
        exact .inr (hold hx)
    · rw [Function.update_of_ne hb] at hx
      exact .inr (hold hx)
  · intro b x hx
    change x ∈ Function.update pag.memToFieldsMap base _ b at hx
    have hold : x ∈ pag.memToFieldsMap b → x = b ∨
        ∃ i, (pag.addGepObjNode base offset gepId).gepObjVar x = some (b, i) := by
      intro hx
      rcases h.ofField b x hx with heq | ⟨i, hx⟩
      · exact .inl heq
      · have hne : x ≠ gepId := fun heq => hnew (heq ▸ (h.node x b i hx).1)
        exact .inr ⟨i, (hgepObj x b i).mpr (.inr ⟨hne, hx⟩)⟩
    by_cases hb : b = base
    · subst hb
      rw [Function.update_self, List.mem_insert_iff] at hx
      rcases hx with rfl | hx
      · exact .inr ⟨offset, (hgepObj x b offset).mpr (.inl ⟨rfl, rfl, rfl⟩)⟩
      · exact hold hx
    · rw [Function.update_of_ne hb] at hx
      exact hold hx

/-- What looking up a field object does: it may add one, and returns a base
object, or a field object of a field-sensitive one. -/
structure GepLookup (pag pag' : SVFIR) (gep : NodeID) : Prop where
  consistent : Consistent pag'
  ext : Extends pag pag'
  limit : pag'.maxFieldOffsetLimit = pag.maxFieldOffsetLimit
  old : ∀ x ∈ pag.nodes, pag'.gepObjVar x = pag.gepObjVar x
  mem : gep ∈ pag'.nodes
  sensitive : ¬ IsCollapsed pag' gep

theorem getGepObjVarOfBase_spec (h : Consistent pag) (opts : Options) (alloc : NodeIDAllocator)
    {base : NodeID} (hbase : base ∈ pag.nodes) (hgep : pag.gepObjVar base = none)
    (offset : APOffset) :
    GepLookup pag (pag.getGepObjVarOfBase opts alloc base offset).1
      (pag.getGepObjVarOfBase opts alloc base offset).2 := by
  have hkeep : GepLookup pag pag base :=
    ⟨h, Extends.refl pag, rfl, fun _ _ => rfl, hbase, not_isCollapsed_of_base hgep⟩
  rw [SVFIR.getGepObjVarOfBase]
  split
  · exact hkeep
  · rename_i hlimit
    simp only
    split
    · exact hkeep
    · split
      · have hnew := alloc.fresh pag.nodes base offset
        refine ⟨consistent_addGepObjNode h hbase hgep hnew, extends_addGepObjNode h hnew, rfl, ?_,
          List.mem_cons_self, ?_⟩
        · intro x hx
          have hne : x ≠ alloc.allocateGepObjectId pag.nodes base offset :=
            fun heq => hnew (heq ▸ hx)
          exact Function.update_of_ne hne _ _
        · rintro ⟨b, i, hx, hb⟩
          have hself : (pag.addGepObjNode base (pag.getModulusOffset opts base offset)
              (alloc.allocateGepObjectId pag.nodes base offset)).gepObjVar
              (alloc.allocateGepObjectId pag.nodes base offset) =
                some (base, pag.getModulusOffset opts base offset) := Function.update_self _ _ _
          rw [hself, Option.some.injEq, Prod.mk.injEq] at hx
          exact hlimit (hx.1 ▸ hb)
      · rename_i gepId hmap
        have hgepId := h.gep base _ gepId hmap
        refine ⟨h, Extends.refl pag, rfl, fun _ _ => rfl, (h.node gepId base _ hgepId).1, ?_⟩
        rintro ⟨b, i, hx, hb⟩
        rw [hgepId, Option.some.injEq, Prod.mk.injEq] at hx
        exact hlimit (hx.1 ▸ hb)

theorem getGepObjVar_spec (h : Consistent pag) (opts : Options) (alloc : NodeIDAllocator)
    {id : NodeID} (hid : id ∈ pag.nodes) (offset : APOffset) :
    GepLookup pag (pag.getGepObjVar opts alloc id offset).1
      (pag.getGepObjVar opts alloc id offset).2 := by
  rw [SVFIR.getGepObjVar]
  cases hgep : pag.gepObjVar id with
  | none => exact getGepObjVarOfBase_spec h opts alloc hid hgep offset
  | some p =>
      exact getGepObjVarOfBase_spec h opts alloc (h.node id p.1 p.2 hgep).2
        (h.base id p.1 p.2 hgep) _

theorem getBaseObjVar_mem (h : Consistent pag) {id : NodeID} (hid : id ∈ pag.nodes) :
    pag.getBaseObjVar id ∈ pag.nodes := by
  rw [SVFIR.getBaseObjVar]
  cases hgep : pag.gepObjVar id with
  | none => exact hid
  | some p => exact (h.node id p.1 p.2 hgep).2

end SVF.Graphs.FieldObjects
