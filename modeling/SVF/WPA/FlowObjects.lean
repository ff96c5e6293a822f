import SVF.Graphs.FieldLookup
import SVF.WPA.FlowEquations
import SVF.WPA.FlowSensitiveSolver

namespace SVF.WPA.FlowObjects

open Graphs.ConsG Graphs.FieldObjects Graphs.FieldLookup Graphs.ValueFlowGraph FlowSensitiveSolver
open FlowEquations (Objects Renaming FactOver mapFact)

/-- Neither a heap object nor an array, field-sensitive, and no local of a recursive function. -/
def Updatable (inp : Input) (pag : SVFIR) (o : NodeID) : Prop :=
  inp.isHeapMemObj (pag.getBaseObjVar o) = false ∧ inp.isArrayMemObj (pag.getBaseObjVar o) = false ∧
    pag.isFieldInsensitive o = false ∧ inp.isLocalVarInRecursiveFun (pag.getBaseObjVar o) = false

/-- The object that a gep reaches. With an offset it is the one a lookup finds in the graph. -/
def GepTarget (inp : Input) (pag : SVFIR) (idx : Option APOffset) (o o' : NodeID) : Prop :=
  match idx with
  | none => o' = if pag.isBlkObjOrConstantObj o then o else pag.getFIObjVar o
  | some offset =>
      if pag.isBlkObjOrConstantObj o || pag.isFieldInsensitive o then o' = o
      else pag.getGepObjVar inp.opts inp.alloc o offset = (pag, o')

def pagObjects (inp : Input) (pag : SVFIR) : Objects NodeID where
  object := id
  addr src := if pag.isFieldInsensitive src then pag.getFIObjVar src else src
  gep := GepTarget inp pag
  constant o := pag.isConstantObj o = true
  parts o := {v | v ∈ objAndFields pag o}
  updatable := Updatable inp pag

def namedObjects (inp : Input) (pag : SVFIR) : Objects Name where
  object := name pag
  addr src := name pag ((pagObjects inp pag).addr src)
  gep idx n n' :=
    let special := n = (BlackHole, none) ∨ n = (ConstantObj, none) ∨
      pag.isConstDataOrConstGlobal n.1 = true
    match idx with
    | none => special ∧ n' = n ∨ ¬ special ∧ n' = (n.1, none)
    | some offset =>
        (special ∨ pag.maxFieldOffsetLimit n.1 = 0) ∧ n' = n ∨
        ¬ (special ∨ pag.maxFieldOffsetLimit n.1 = 0) ∧
          n' = fieldName pag inp.opts n.1 (nameOffset n offset)
  constant n := n = (ConstantObj, none) ∨ pag.isConstDataOrConstGlobal n.1 = true
  parts n := {m | m = n ∨ pag.maxFieldOffsetLimit n.1 = 0 ∧ ∃ v ∈ pag.memToFieldsMap n.1,
    name pag v = m}
  updatable n := inp.isHeapMemObj n.1 = false ∧ inp.isArrayMemObj n.1 = false ∧
    pag.maxFieldOffsetLimit n.1 ≠ 0 ∧ inp.isLocalVarInRecursiveFun n.1 = false

def nodeSet (pag : SVFIR) : Set NodeID := {x | x ∈ pag.nodes}

section

variable {inp : Input} {pag : SVFIR} (h : Sound pag) {o : NodeID} (ho : o ∈ pag.nodes)

include h ho

theorem gepTarget_mem {idx : Option APOffset} {o' : NodeID} (hgep : GepTarget inp pag idx o o') :
    o' ∈ pag.nodes := by
  cases idx with
  | none =>
      simp only [GepTarget] at hgep
      rw [hgep]
      split
      · exact ho
      · exact getBaseObjVar_mem h.consistent ho
  | some offset =>
      simp only [GepTarget] at hgep
      split at hgep
      · rwa [hgep]
      · have hmem := (getGepObjVar_lookup inp.opts inp.alloc h ho offset).mem
        rwa [hgep] at hmem

theorem objAndFields_mem {v : NodeID} (hv : v ∈ objAndFields pag o) : v ∈ pag.nodes := by
  rw [objAndFields, List.mem_cons] at hv
  rcases hv with rfl | hv
  · exact ho
  · split at hv
    · exact h.fieldNode _ v hv
    · simp at hv

theorem addr_mem : (pagObjects inp pag).addr o ∈ pag.nodes := by
  change (if pag.isFieldInsensitive o then pag.getFIObjVar o else o) ∈ pag.nodes
  split
  · exact getBaseObjVar_mem h.consistent ho
  · exact ho

end

section

variable {inp : Input} {pag pag' : SVFIR} (hgrown : Grown pag pag') {o : NodeID}
  (ho : o ∈ pag.nodes)

include hgrown ho

theorem objAndFields_grown : objAndFields pag' o = objAndFields pag o := by
  rw [objAndFields, objAndFields, isFieldInsensitive_grown hgrown ho]
  cases hfi : pag.isFieldInsensitive o with
  | true => rw [getAllFieldsObjVars_grown hgrown ho hfi]
  | false => rfl

theorem addr_grown : (pagObjects inp pag').addr o = (pagObjects inp pag).addr o := by
  change (if pag'.isFieldInsensitive o then pag'.getFIObjVar o else o) =
    if pag.isFieldInsensitive o then pag.getFIObjVar o else o
  rw [isFieldInsensitive_grown hgrown ho, getFIObjVar_grown hgrown ho]

theorem updatable_grown : Updatable inp pag' o ↔ Updatable inp pag o := by
  rw [Updatable, Updatable, getBaseObjVar_grown hgrown ho, isFieldInsensitive_grown hgrown ho]

theorem gepTarget_grown (h : Sound pag) {idx : Option APOffset} {o' : NodeID}
    (hgep : GepTarget inp pag idx o o') : GepTarget inp pag' idx o o' := by
  cases idx with
  | none =>
      simp only [GepTarget] at hgep ⊢
      rwa [isBlkObjOrConstantObj_grown hgrown ho, getFIObjVar_grown hgrown ho]
  | some offset =>
      simp only [GepTarget] at hgep ⊢
      rw [isBlkObjOrConstantObj_grown hgrown ho, isFieldInsensitive_grown hgrown ho]
      split at hgep
      · rename_i hcond
        rwa [if_pos hcond]
      · rename_i hcond
        rw [if_neg hcond]
        have hlookup := getGepObjVar_lookup inp.opts inp.alloc h ho offset
        rw [hgep] at hlookup
        exact hlookup.again pag' hgrown

end

theorem renaming_grown {inp : Input} {pag pag' : SVFIR} (h : Sound pag) (hgrown : Grown pag pag')
    {svfg : SVFG} (haddr : ∀ n ∈ svfg.nodes, ∀ dst src, svfg.node n = .addr dst src → src ∈ pag.nodes)
    (hlabel : ∀ e ∈ svfg.edges, ∀ pts, e.kind = .indirect pts → ∀ c ∈ pts, c ∈ pag.nodes) :
    Renaming id (pagObjects inp pag) (pagObjects inp pag') svfg (nodeSet pag) where
  inj _ _ _ _ heq := heq
  label e he pts hkind c hc := ⟨hlabel e he pts hkind c hc, rfl⟩
  addr n hn dst src hnode := (addr_grown hgrown (haddr n hn dst src hnode)).symm
  gep _ _ ho _ hgep := gepTarget_grown hgrown ho h hgep
  constant o ho := by
    change pag'.isConstantObj o = true ↔ pag.isConstantObj o = true
    rw [isConstantObj_grown hgrown ho]
  parts o ho := by
    refine ⟨fun v hv => objAndFields_mem h ho hv, ?_⟩
    rw [Set.image_id]
    change {v | v ∈ objAndFields pag' o} = {v | v ∈ objAndFields pag o}
    rw [objAndFields_grown hgrown ho]
  updatable _ ho := updatable_grown hgrown ho

section

variable {inp : Input} {pag pag' : SVFIR} (h : Sound pag) (h' : Sound pag') (hgrown : Grown pag pag')

theorem namedGep_unique {idx : Option APOffset} {n p p' : Name}
    (hp : (namedObjects inp pag).gep idx n p) (hp' : (namedObjects inp pag).gep idx n p') : p = p' := by
  cases idx with
  | none =>
      rcases hp with ⟨hs, rfl⟩ | ⟨hs, rfl⟩
      · rcases hp' with ⟨-, rfl⟩ | ⟨hn, -⟩
        · rfl
        · exact absurd hs hn
      · rcases hp' with ⟨hn, -⟩ | ⟨-, rfl⟩
        · exact absurd hn hs
        · rfl
  | some offset =>
      rcases hp with ⟨hs, rfl⟩ | ⟨hs, rfl⟩
      · rcases hp' with ⟨-, rfl⟩ | ⟨hn, -⟩
        · rfl
        · exact absurd hs hn
      · rcases hp' with ⟨hn, -⟩ | ⟨-, rfl⟩
        · exact absurd hn hs
        · rfl

include h' in
theorem name_eq_special {o x : NodeID} (hx : pag'.gepObjVar x = none) :
    name pag' o = (x, none) ↔ o = x := by
  have hself : name pag' x = (x, none) := by rw [name, hx]
  constructor
  · exact fun heq => name_injective h' (heq.trans hself.symm)
  · rintro rfl
    exact hself

include hgrown in
theorem isFieldInsensitive_name (o : NodeID) :
    pag'.isFieldInsensitive o = true ↔ pag.maxFieldOffsetLimit (name pag' o).1 = 0 := by
  rw [SVFIR.isFieldInsensitive, decide_eq_true_eq, name_fst, hgrown.limit]

include h' hgrown

theorem isConstantObj_name (o : NodeID) : (name pag' o = (ConstantObj, none) ∨
    pag.isConstDataOrConstGlobal (name pag' o).1 = true) ↔ pag'.isConstantObj o = true := by
  rw [name_eq_special h' h'.constantObj.2, name_fst, SVFIR.isConstantObj, hgrown.const,
    Bool.or_eq_true, decide_eq_true_eq]

theorem isBlkObjOrConstantObj_name (o : NodeID) : (name pag' o = (BlackHole, none) ∨
    name pag' o = (ConstantObj, none) ∨ pag.isConstDataOrConstGlobal (name pag' o).1 = true) ↔
      pag'.isBlkObjOrConstantObj o = true := by
  rw [isConstantObj_name h' hgrown, name_eq_special h' h'.blackHole.2, SVFIR.isBlkObjOrConstantObj,
    SVFIR.isBlkObj, Bool.or_eq_true, decide_eq_true_eq]

theorem gep_name {o o' : NodeID} (ho : o ∈ pag'.nodes) {idx : Option APOffset}
    (hgep : GepTarget inp pag' idx o o') :
    (namedObjects inp pag).gep idx (name pag' o) (name pag' o') := by
  have hspecial := isBlkObjOrConstantObj_name h' hgrown o
  cases idx with
  | none =>
      simp only [GepTarget] at hgep
      change _ ∧ _ ∨ ¬ _ ∧ _
      rw [hspecial]
      split at hgep
      · rename_i hcond
        exact .inl ⟨hcond, by rw [hgep]⟩
      · rename_i hcond
        refine .inr ⟨hcond, ?_⟩
        have hbase := gepObjVar_getBaseObjVar h'.consistent o
        rw [hgep, SVFIR.getFIObjVar, name_fst, name, hbase]
  | some offset =>
      simp only [GepTarget] at hgep
      change (_ ∨ _) ∧ _ ∨ ¬ (_ ∨ _) ∧ _
      rw [hspecial, ← isFieldInsensitive_name hgrown, ← Bool.or_eq_true]
      split at hgep
      · rename_i hcond
        exact .inl ⟨hcond, by rw [hgep]⟩
      · rename_i hcond
        refine .inr ⟨hcond, ?_⟩
        have hlookup := (getGepObjVar_lookup inp.opts inp.alloc h' ho offset).name
        rw [hgep] at hlookup
        rw [hlookup, fieldName_grown inp.opts hgrown]

include h

/-- The names of the objects do not depend on the identifiers that a run has chosen. -/
theorem renaming_name (inp : Input) {svfg : SVFG}
    (haddr : ∀ n ∈ svfg.nodes, ∀ dst src, svfg.node n = .addr dst src → src ∈ pag.nodes)
    (hlabel : ∀ e ∈ svfg.edges, ∀ pts, e.kind = .indirect pts → ∀ c ∈ pts, c ∈ pag.nodes) :
    Renaming (name pag') (pagObjects inp pag') (namedObjects inp pag) svfg (nodeSet pag') where
  inj _ _ _ _ heq := name_injective h' heq
  label e he pts hkind c hc := by
    have hmem := hlabel e he pts hkind c hc
    exact ⟨hgrown.nodes c hmem, name_grown hgrown hmem⟩
  addr n hn dst src hnode := by
    have hmem := haddr n hn dst src hnode
    change name pag' _ = name pag _
    rw [addr_grown hgrown hmem, name_grown hgrown (addr_mem h hmem)]
  gep _ _ ho _ hgep := gep_name h' hgrown ho hgep
  constant o _ := isConstantObj_name h' hgrown o
  parts o ho := by
    refine ⟨fun v hv => objAndFields_mem h' ho hv, ?_⟩
    ext m
    change (m = name pag' o ∨ pag.maxFieldOffsetLimit (name pag' o).1 = 0 ∧
      ∃ v ∈ pag.memToFieldsMap (name pag' o).1, name pag v = m) ↔
      ∃ v, v ∈ objAndFields pag' o ∧ name pag' v = m
    simp only [objAndFields, List.mem_cons, or_and_right, exists_or, exists_eq_left]
    refine or_congr eq_comm ?_
    rw [← isFieldInsensitive_name hgrown]
    by_cases hfi : pag'.isFieldInsensitive o = true
    · have hlimit := (isFieldInsensitive_name hgrown o).mp hfi
      rw [if_pos hfi, SVFIR.getAllFieldsObjVars, ← name_fst, hgrown.fields _ hlimit]
      simp only [hfi, true_and]
      refine exists_congr fun v => and_congr_right fun hv => ?_
      rw [name_grown hgrown (h.fieldNode _ v hv)]
    · simp [hfi]
  updatable o _ := by
    change _ ∧ _ ∧ pag.maxFieldOffsetLimit (name pag' o).1 ≠ 0 ∧ _ ↔ Updatable inp pag' o
    rw [Updatable, ne_eq, ← isFieldInsensitive_name hgrown, name_fst, Bool.not_eq_true]

end

theorem satisfies_of_extends {inp inp' : Input} {pag : SVFIR} (hext : inp.Extends inp')
    {S : Set (MemoryModel.LawfulPTData.FactOf Name)}
    (h : FlowEquations.Satisfies (namedObjects inp' pag) inp'.svfg S) :
    FlowEquations.Satisfies (namedObjects inp pag) inp.svfg S := by
  constructor
  · intro n hn
    have hnode := h.node n (by rwa [hext.svfg.nodes])
    have hgrows := hext.svfg.node n
    generalize inp'.svfg.node n = b at hnode hgrows
    generalize inp.svfg.node n = a at hgrows ⊢
    cases hgrows with
    | phi res hops => exact fun v hv => hnode v (hops hv)
    | same =>
        cases b with
        | gep dst src idx =>
            intro o ho
            obtain ⟨o', hgep, hmem⟩ := hnode o ho
            refine ⟨o', ?_, hmem⟩
            cases idx with
            | none => exact hgep
            | some offset =>
                change (_ ∨ _) ∧ _ ∨ ¬ (_ ∨ _) ∧ _
                rw [← hext.opts]
                exact hgep
        | store dst src =>
            refine ⟨hnode.1, fun hne v hweak => hnode.2 hne v (fun hstrong => hweak ?_)⟩
            obtain ⟨⟨hheap, harray, hlimit, hrec⟩, hall⟩ := hstrong
            rw [hext.heap] at hheap
            rw [hext.array] at harray
            refine ⟨⟨hheap, harray, hlimit, ?_⟩, hall⟩
            rw [← Bool.not_eq_true]
            exact fun hr => Bool.false_ne_true (hrec.symm.trans (hext.recursive _ hr))
        | _ => exact hnode
  · exact fun e he =>
      (FlowEquations.edgeClosed_grows hext.svfg.node).mp (h.edge e (hext.svfg.edges he))

end SVF.WPA.FlowObjects
