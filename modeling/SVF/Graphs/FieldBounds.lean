import Mathlib.Data.Set.Card
import SVF.Graphs.FieldLookup

namespace SVF.Graphs.FieldBounds

open Relation ConsG FieldObjects FieldLookup

variable {opts : Options} {alloc : NodeIDAllocator} {pag pag₀ : SVFIR}

/-- The offsets of base objects of such a limit are taken modulo the limit; the others are cut. -/
def Reduces (opts : Options) (limit : ℕ) : Prop := opts.MaxFieldLimit < limit ∨ opts.CyclicFldIdx = true

theorem abs_eq (z : ℤ) : (if z < 0 then -z else z) = z.natAbs := by
  split <;> omega

theorem getModulusOffset_eq {base : NodeID} {offset : ℤ} (hlimit : 0 < pag.maxFieldOffsetLimit base)
    (hsmall : offset.natAbs < 2 ^ 32) :
    (Reduces opts (pag.maxFieldOffsetLimit base) →
      pag.getModulusOffset opts base offset = (offset.natAbs % pag.maxFieldOffsetLimit base : ℕ)) ∧
    (¬ Reduces opts (pag.maxFieldOffsetLimit base) →
      pag.getModulusOffset opts base offset = (min offset.natAbs (pag.maxFieldOffsetLimit base - 1) : ℕ)) := by
  have hcast : ((offset.natAbs : ℕ) : ℤ) % 2 ^ 32 = offset.natAbs := Int.emod_eq_of_lt (by omega) (by omega)
  rw [SVFIR.getModulusOffset, abs_eq, if_neg hlimit.ne', hcast, Reduces]
  generalize pag.maxFieldOffsetLimit base = limit at hlimit ⊢
  constructor
  · intro hreduces
    rw [Int.natCast_mod]
    split
    · rfl
    · rename_i hmax
      rw [if_pos (hreduces.resolve_left hmax)]
      by_cases hlt : (offset.natAbs : ℤ) > (limit : ℤ) - 1
      · rw [if_pos hlt]
      · rw [if_neg hlt]
        exact (Int.emod_eq_of_lt (by omega) (by omega)).symm
  · intro hcut
    rw [not_or] at hcut
    rw [if_neg hcut.1, if_neg hcut.2]
    by_cases hlt : (offset.natAbs : ℤ) > (limit : ℤ) - 1
    · rw [if_pos hlt, min_eq_right (by omega), Nat.cast_sub hlimit, Nat.cast_one]
    · rw [if_neg hlt, min_eq_left (by omega)]

/-- What `getModulusOffset` does to the offsets of a base object: below `2 ^ 32` they come into the
range of its fields. -/
structure Normalizes (opts : Options) (pag : SVFIR) (base : NodeID) : Prop where
  none : pag.maxFieldOffsetLimit base = 0 → ∀ offset, pag.getModulusOffset opts base offset = 0
  range : 0 < pag.maxFieldOffsetLimit base → ∀ offset : APOffset, offset.natAbs < 2 ^ 32 →
    0 ≤ pag.getModulusOffset opts base offset ∧
      pag.getModulusOffset opts base offset < pag.maxFieldOffsetLimit base
  fixed : ∀ offset : APOffset, offset.natAbs < 2 ^ 32 → 0 ≤ offset → offset < pag.maxFieldOffsetLimit base →
    pag.getModulusOffset opts base offset = offset
  negative : ∀ offset : APOffset, pag.getModulusOffset opts base offset =
    pag.getModulusOffset opts base offset.natAbs
  congruent : Reduces opts (pag.maxFieldOffsetLimit base) → ∀ o o' : APOffset, o.natAbs < 2 ^ 32 →
    o'.natAbs < 2 ^ 32 → o.natAbs ≡ o'.natAbs [MOD pag.maxFieldOffsetLimit base] →
    pag.getModulusOffset opts base o = pag.getModulusOffset opts base o'
  cut : ¬ Reduces opts (pag.maxFieldOffsetLimit base) → 0 < pag.maxFieldOffsetLimit base →
    ∀ offset : APOffset, offset.natAbs < 2 ^ 32 → pag.maxFieldOffsetLimit base ≤ offset.natAbs →
    pag.getModulusOffset opts base offset = pag.maxFieldOffsetLimit base - 1

theorem normalizes (opts : Options) (pag : SVFIR) (base : NodeID) : Normalizes opts pag base := by
  have hnone : pag.maxFieldOffsetLimit base = 0 → ∀ offset, pag.getModulusOffset opts base offset = 0 :=
    fun h offset => by simp [SVFIR.getModulusOffset, h]
  refine ⟨hnone, fun hlimit offset hsmall => ?_, fun offset hsmall hpos hlt => ?_, fun offset => ?_,
    fun hreduces o o' ho ho' hmod => ?_, fun hcut hlimit offset hsmall hle => ?_⟩
  · obtain ⟨hmod, hmin⟩ := @getModulusOffset_eq opts pag _ _ hlimit hsmall
    by_cases hreduces : Reduces opts (pag.maxFieldOffsetLimit base)
    · rw [hmod hreduces]
      exact ⟨Int.natCast_nonneg _, Int.ofNat_lt.mpr (Nat.mod_lt _ hlimit)⟩
    · rw [hmin hreduces]
      exact ⟨Int.natCast_nonneg _, Int.ofNat_lt.mpr (by omega)⟩
  · obtain ⟨n, rfl⟩ := Int.eq_ofNat_of_zero_le hpos
    have hn : n < pag.maxFieldOffsetLimit base := Int.ofNat_lt.mp hlt
    obtain ⟨hmod, hmin⟩ := @getModulusOffset_eq opts pag _ _ (hn.trans_le' n.zero_le) hsmall
    rw [Int.natAbs_natCast] at hmod hmin
    by_cases hreduces : Reduces opts (pag.maxFieldOffsetLimit base)
    · rw [hmod hreduces, Nat.mod_eq_of_lt hn]
    · rw [hmin hreduces, min_eq_left (by omega)]
  · rw [SVFIR.getModulusOffset, SVFIR.getModulusOffset, abs_eq, if_neg (Int.natCast_nonneg _).not_gt]
  · rcases Nat.eq_zero_or_pos (pag.maxFieldOffsetLimit base) with hzero | hlimit
    · rw [hnone hzero, hnone hzero]
    · rw [(getModulusOffset_eq hlimit ho).1 hreduces, (getModulusOffset_eq hlimit ho').1 hreduces, hmod]
  · rw [(getModulusOffset_eq hlimit hsmall).2 hcut, min_eq_right (by omega), Nat.cast_sub hlimit, Nat.cast_one]

section

def Fits (pag : SVFIR) (id : NodeID) (offset : APOffset) : Prop :=
  (nameOffset (name pag id) offset).natAbs < 2 ^ 32

inductive Step (opts : Options) (alloc : NodeIDAllocator) (pag : SVFIR) : SVFIR → Prop
  | gep (id : NodeID) (offset : APOffset) (hid : id ∈ pag.nodes) (hfits : Fits pag id offset) :
      Step opts alloc pag (pag.getGepObjVar opts alloc id offset).1
  | collapse (id : NodeID) : Step opts alloc pag (pag.setObjFieldInsensitive id)

/-- The field objects are in the range of their base object at the start, which is either kept or
collapsed. -/
structure InRange (limit : NodeID → ℕ) (pag : SVFIR) : Prop where
  sound : Sound pag
  limits : ∀ b, pag.maxFieldOffsetLimit b = 0 ∨ pag.maxFieldOffsetLimit b = limit b
  fields : ∀ x b i, pag.gepObjVar x = some (b, i) → 0 ≤ i ∧ i < limit b

def Keeps (pag pag' : SVFIR) : Prop := ∀ x ∈ pag.nodes, x ∈ pag'.nodes ∧ name pag' x = name pag x

theorem getGepObjVar_eq (pag : SVFIR) (id : NodeID) (offset : APOffset) :
    pag.getGepObjVar opts alloc id offset =
      pag.getGepObjVarOfBase opts alloc (name pag id).1 (nameOffset (name pag id) offset) := by
  rw [SVFIR.getGepObjVar, name]
  cases pag.gepObjVar id <;> rfl

variable {limit : NodeID → ℕ}

theorem InRange.gep (h : InRange limit pag) {id : NodeID} {offset : APOffset} (hid : id ∈ pag.nodes)
    (hfits : Fits pag id offset) : InRange limit (pag.getGepObjVar opts alloc id offset).1 := by
  have hlookup := getGepObjVar_lookup opts alloc h.sound hid offset
  refine ⟨hlookup.sound, fun b => hlookup.grown.limit ▸ h.limits b, ?_⟩
  rw [getGepObjVar_eq]
  rcases getGepObjVarOfBase_cases opts alloc pag (name pag id).1 (nameOffset (name pag id) offset) with
    ⟨-, heq⟩ | ⟨hcond, ⟨x, -, heq⟩ | ⟨-, x, -, heq⟩⟩
  · rw [heq]
    exact h.fields
  · rw [heq]
    exact h.fields
  · rw [heq]
    intro y b i hy
    have hlimit : pag.maxFieldOffsetLimit (name pag id).1 ≠ 0 := fun hzero => hcond (.inl hzero)
    by_cases hyx : y = x
    · subst hyx
      have hself : some ((name pag id).1, pag.getModulusOffset opts (name pag id).1 _) = some (b, i) :=
        (Function.update_self (f := pag.gepObjVar) _ _).symm.trans hy
      obtain ⟨rfl, rfl⟩ := Prod.mk.inj (Option.some.inj hself)
      have hrange := (normalizes opts pag _).range (Nat.pos_of_ne_zero hlimit) _ hfits
      rwa [(h.limits _).resolve_left hlimit] at hrange
    · exact h.fields y b i ((Function.update_of_ne hyx _ _).symm.trans hy)

theorem InRange.collapse (h : InRange limit pag) (id : NodeID) :
    InRange limit (pag.setObjFieldInsensitive id) := by
  refine ⟨⟨consistent_setObjFieldInsensitive h.sound.consistent id, h.sound.unique, h.sound.fieldNode,
    h.sound.blackHole, h.sound.constantObj⟩, fun b => ?_, h.fields⟩
  by_cases hb : b = pag.getBaseObjVar id
  · exact .inl (hb ▸ Function.update_self _ _ _)
  · rw [show (pag.setObjFieldInsensitive id).maxFieldOffsetLimit b = pag.maxFieldOffsetLimit b from
      Function.update_of_ne hb _ _]
    exact h.limits b

theorem InRange.run (h : InRange limit pag) {pag' : SVFIR} (hrun : ReflTransGen (Step opts alloc) pag pag') :
    InRange limit pag' ∧ Keeps pag pag' := by
  induction hrun with
  | refl => exact ⟨h, fun x hx => ⟨hx, rfl⟩⟩
  | tail _ hstep ih =>
      obtain ⟨hrange, hkeeps⟩ := ih
      cases hstep with
      | gep id offset hid hfits =>
          have hgrown := (getGepObjVar_lookup opts alloc hrange.sound hid offset).grown
          refine ⟨hrange.gep hid hfits, fun x hx => ?_⟩
          exact ⟨hgrown.nodes x (hkeeps x hx).1, (name_grown hgrown (hkeeps x hx).1).trans (hkeeps x hx).2⟩
      | collapse id => exact ⟨hrange.collapse id, hkeeps⟩

end

section

def fieldNames (b : NodeID) (limit : ℕ) : Set Name := (fun i : ℕ => (b, some (i : ℤ))) '' Finset.range limit

theorem encard_fieldNames (b : NodeID) (limit : ℕ) : (fieldNames b limit).encard ≤ limit :=
  (Set.encard_image_le _ _).trans (by rw [Set.encard_coe_eq_coe_finsetCard, Finset.card_range])

theorem encard_insert_fieldNames (n : Name) (b : NodeID) (limit : ℕ) :
    (insert n (fieldNames b limit)).encard ≤ limit + 1 :=
  (Set.encard_insert_le _ _).trans (add_le_add_left (encard_fieldNames b limit) 1)

variable {limit : NodeID → ℕ}

theorem InRange.name_mem (h : InRange limit pag) {x b : NodeID} {i : APOffset}
    (hx : pag.gepObjVar x = some (b, i)) : name pag x ∈ fieldNames b (limit b) := by
  obtain ⟨hpos, hlt⟩ := h.fields x b i hx
  refine ⟨i.toNat, Finset.mem_coe.mpr (Finset.mem_range.mpr ((Int.toNat_lt hpos).mpr hlt)), ?_⟩
  rw [name, hx]
  exact congrArg (fun j => (b, some j)) (Int.toNat_of_nonneg hpos)

theorem InRange.encard_fields (h : InRange limit pag) (b : NodeID) :
    {x | ∃ i, pag.gepObjVar x = some (b, i)}.encard ≤ limit b := by
  refine (Set.encard_le_encard_of_injOn (f := name pag) ?_ ?_).trans (encard_fieldNames b (limit b))
  · exact fun x ⟨i, hx⟩ => h.name_mem hx
  · exact fun x _ y _ heq => name_injective h.sound heq

inductive Reaches (opts : Options) (alloc : NodeIDAllocator) (pag₀ : SVFIR) (o₀ : NodeID) :
    SVFIR → List NodeID → Prop
  | start : Reaches opts alloc pag₀ o₀ pag₀ [o₀]
  | gep {pag pag' : SVFIR} {o : NodeID} {os : List NodeID} (offset : APOffset)
      (hreaches : Reaches opts alloc pag₀ o₀ pag (o :: os)) (hfits : Fits pag o offset)
      (hrun : ReflTransGen (Step opts alloc) (pag.getGepObjVar opts alloc o offset).1 pag') :
      Reaches opts alloc pag₀ o₀ pag' ((pag.getGepObjVar opts alloc o offset).2 :: o :: os)

theorem InRange.reaches (h : InRange limit pag₀) {o₀ : NodeID} (ho : o₀ ∈ pag₀.nodes) {os : List NodeID}
    (hreaches : Reaches opts alloc pag₀ o₀ pag os) :
    InRange limit pag ∧ ∀ o ∈ os, o ∈ pag.nodes ∧ (name pag o).1 = pag₀.getBaseObjVar o₀ := by
  induction hreaches with
  | start =>
      refine ⟨h, fun o hmem => ?_⟩
      obtain rfl := List.mem_singleton.mp hmem
      exact ⟨ho, name_fst _ _⟩
  | @gep pag pag' o os offset _ hfits hrun ih =>
      obtain ⟨hrange, hos⟩ := ih
      obtain ⟨hmem, hbase⟩ := hos o List.mem_cons_self
      have hlookup := getGepObjVar_lookup opts alloc hrange.sound hmem offset
      obtain ⟨hrange', hkeeps⟩ := (hrange.gep hmem hfits).run hrun
      refine ⟨hrange', fun x hx => ?_⟩
      rcases List.mem_cons.mp hx with rfl | hx
      · obtain ⟨hnode, hname⟩ := hkeeps _ hlookup.mem
        refine ⟨hnode, ?_⟩
        rw [hname, hlookup.name, ← hbase, fieldName]
        split <;> rfl
      · obtain ⟨hnode, hfirst⟩ := hos x hx
        obtain ⟨hnode', hname⟩ := hkeeps x (hlookup.grown.nodes x hnode)
        rw [hname, name_grown hlookup.grown hnode]
        exact ⟨hnode', hfirst⟩

theorem InRange.encard_reached (h : InRange limit pag₀) {o₀ : NodeID} (ho : o₀ ∈ pag₀.nodes) {os : List NodeID}
    (hreaches : Reaches opts alloc pag₀ o₀ pag os) :
    {o | o ∈ os}.encard ≤ limit (pag₀.getBaseObjVar o₀) + 1 := by
  obtain ⟨hrange, hos⟩ := h.reaches ho hreaches
  refine (Set.encard_le_encard_of_injOn (f := name pag) (fun o hmem => ?_) ?_).trans
    (encard_insert_fieldNames (pag₀.getBaseObjVar o₀, none) (pag₀.getBaseObjVar o₀) _)
  · have hbase := (hos o hmem).2
    cases hobj : pag.gepObjVar o with
    | none =>
        rw [name, hobj] at hbase ⊢
        exact .inl (congrArg (·, none) hbase)
    | some p =>
        have hname := hrange.name_mem hobj
        rw [name, hobj] at hbase
        exact .inr (hbase ▸ hname)
  · exact fun x _ y _ heq => name_injective hrange.sound heq

end

/-- Offsets below `2 ^ 32` are normalized, so that a base object gets as many field objects as its
limit allows, and geps that follow each other reach no more objects than these and the base object. -/
theorem fields_bounded (opts : Options) (alloc : NodeIDAllocator) {pag₀ : SVFIR} (hsound : Sound pag₀)
    (hnone : ∀ x, pag₀.gepObjVar x = none) :
    (∀ pag base, Normalizes opts pag base) ∧
    ∀ pag, ReflTransGen (Step opts alloc) pag₀ pag →
      (∀ b, {x | ∃ i, pag.gepObjVar x = some (b, i)}.encard ≤ pag₀.maxFieldOffsetLimit b) ∧
      ∀ o ∈ pag.nodes, ∀ pag' os, Reaches opts alloc pag o pag' os →
        {o | o ∈ os}.encard ≤ pag₀.maxFieldOffsetLimit (pag.getBaseObjVar o) + 1 := by
  have hinit : InRange pag₀.maxFieldOffsetLimit pag₀ :=
    ⟨hsound, fun b => .inr rfl, fun x b i hx => by rw [hnone] at hx; contradiction⟩
  exact ⟨normalizes opts, fun pag hrun => ⟨(hinit.run hrun).1.encard_fields,
    fun o ho pag' os hreaches => (hinit.run hrun).1.encard_reached ho hreaches⟩⟩

def sampleOptions (cyclic : Bool) : Options := ⟨512, true, cyclic⟩

def samplePag : SVFIR where
  nodes := [2, 3, 4]
  gepObjVar _ := none
  GepObjVarMap _ _ := none
  memToFieldsMap _ := []
  maxFieldOffsetLimit _ := 10
  isConstDataOrConstGlobal _ := false
  isPointer _ := false

theorem fields_bounded_sample :
    {x | ∃ i, (samplePag.getGepObjVar (sampleOptions false) allocateNext 4 13).1.gepObjVar x = some (4, i)}.encard ≤
      10 := by
  have hsound : Sound samplePag :=
    ⟨⟨nofun, nofun, nofun, nofun, nofun⟩, nofun, nofun, by decide, by decide⟩
  refine ((fields_bounded (sampleOptions false) allocateNext hsound fun _ => rfl).2 _ (.single ?_)).1 4
  exact .gep 4 13 (by decide) (by unfold Fits; decide)

/-- Offsets 3 and 13 are congruent modulo 10, but 13 is cut to 9; with the flag so are 9 and -1. -/
theorem congruent_offsets_differ :
    (3 : ℤ) % 10 = 13 % 10 ∧ samplePag.getModulusOffset (sampleOptions false) 4 3 ≠
      samplePag.getModulusOffset (sampleOptions false) 4 13 ∧
    (9 : ℤ) % 10 = -1 % 10 ∧ samplePag.getModulusOffset (sampleOptions true) 4 9 ≠
      samplePag.getModulusOffset (sampleOptions true) 4 (-1) := by
  decide

end SVF.Graphs.FieldBounds
