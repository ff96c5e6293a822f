import SVF.MSSA.Intersections
import SVF.Util.Folds

namespace SVF.MSSA.RegionCoverage

open Util.OrderedSets Util.Partitions MemPartition Intersections
open MemoryModel.PointsToSets (NodeID PointsTo contains_iff_subset intersects_iff mem_union
  notMem_empty)

variable {F : Type*} [DecidableEq F] {s : Regions F} {fn f : F} {cpts S : NodeBS} {o : NodeID}

def HasMR (mrs : MRSet) (S : NodeBS) : Prop := ∃ mr ∈ mrs, mr.cptsSet = S

structure Sane (s : Regions F) : Prop where
  sub : ∀ fn, ∀ mr ∈ s.funToMRsMap fn, mr ∈ s.memRegSet
  rep : ∀ cpts, s.getRepPointsTo cpts = cpts

theorem eq_of_cptsSet_eq {mrs : MRSet} {mr mr' : MemRegion} (h : mr ∈ mrs) (h' : mr' ∈ mrs)
    (heq : mr.cptsSet = mr'.cptsSet) : mr = mr' :=
  eq_of_key_eq h h' (congrArg nodeBSKey heq)

theorem mem_of_find {mrs : MRSet} {mr : MemRegion} (h : find mrs S = some mr) :
    mr ∈ mrs ∧ mr.cptsSet = S := by
  rw [find] at h
  have hS := List.find?_some h
  exact ⟨List.mem_of_find?_eq_some h, of_decide_eq_true hS⟩

theorem find_eq_some {mrs : MRSet} {mr : MemRegion} (h : mr ∈ mrs) (hS : mr.cptsSet = S) :
    find mrs S = some mr := by
  cases hfind : find mrs S with
  | some mr' =>
      obtain ⟨hmem, heq⟩ := mem_of_find hfind
      rw [eq_of_cptsSet_eq hmem h (heq.trans hS.symm)]
  | none =>
      rw [find, List.find?_eq_none] at hfind
      exact absurd (decide_eq_true hS) (hfind mr h)

theorem hasMR_insert (mrs : MRSet) (mr : MemRegion) :
    HasMR (mrs.insert mr) S ↔ HasMR mrs S ∨ S = mr.cptsSet := by
  constructor
  · rintro ⟨mr', hmr', rfl⟩
    rcases (mem_insert mrs mr mr').mp hmr' with hold | ⟨rfl, -⟩
    · exact .inl ⟨mr', hold, rfl⟩
    · exact .inr rfl
  · rintro (⟨mr', hmr', rfl⟩ | rfl)
    · exact ⟨mr', (mem_insert mrs mr mr').mpr (.inl hmr'), rfl⟩
    · by_cases hsame : ∃ mr' ∈ mrs, nodeBSKey mr'.cptsSet = nodeBSKey mr.cptsSet
      · obtain ⟨mr', hmr', hkey⟩ := hsame
        exact ⟨mr', (mem_insert mrs mr mr').mpr (.inl hmr'), nodeBSKey_inj hkey⟩
      · simp only [not_exists, not_and] at hsame
        exact ⟨mr, (mem_insert mrs mr mr).mpr (.inr ⟨rfl, hsame⟩), rfl⟩

/-- A region of `cpts` is made unless there is one, and the function has it. -/
structure Created (s : Regions F) (fn : F) (cpts : NodeBS) (t : Regions F) : Prop where
  sane : Sane t
  hasMR : ∀ f S, HasMR (t.funToMRsMap f) S ↔ HasMR (s.funToMRsMap f) S ∨ f = fn ∧ S = cpts

theorem created_createMR (h : Sane s) (fn : F) (cpts : NodeBS) :
    Created s fn cpts (s.createMR fn cpts) := by
  rw [Regions.createMR, h.rep]
  have hupdate : ∀ mr : MemRegion, mr.cptsSet = cpts → ∀ f S,
      HasMR (Function.update s.funToMRsMap fn ((s.funToMRsMap fn).insert mr) f) S ↔
        HasMR (s.funToMRsMap f) S ∨ f = fn ∧ S = cpts := by
    intro mr hmr f S
    by_cases hf : f = fn
    · subst hf
      rw [Function.update_self, hasMR_insert, hmr]
      simp
    · rw [Function.update_of_ne hf]
      simp [hf]
  have hmem : ∀ mr mr' : MemRegion, ∀ f,
      mr' ∈ Function.update s.funToMRsMap fn ((s.funToMRsMap fn).insert mr) f →
        mr' ∈ s.memRegSet ∨ mr' = mr := by
    intro mr mr' f hmr'
    by_cases hf : f = fn
    · subst hf
      rw [Function.update_self] at hmr'
      rcases (mem_insert _ _ _).mp hmr' with hold | ⟨heq, -⟩
      · exact .inl (h.sub f mr' hold)
      · exact .inr heq
    · rw [Function.update_of_ne hf] at hmr'
      exact .inl (h.sub f mr' hmr')
  dsimp only
  split
  · rename_i mr hfind
    obtain ⟨hmr, hcpts⟩ := mem_of_find hfind
    refine ⟨⟨fun f mr' hmr' => ?_, h.rep⟩, hupdate mr hcpts⟩
    rcases hmem mr mr' f hmr' with hold | rfl
    · exact hold
    · exact hmr
  · rename_i hfind
    refine ⟨⟨fun f mr' hmr' => ?_, h.rep⟩, hupdate _ rfl⟩
    refine (mem_insert _ _ _).mpr ?_
    rcases hmem _ mr' f hmr' with hold | rfl
    · exact .inl hold
    · refine .inr ⟨rfl, fun mr hmr hkey => ?_⟩
      rw [find_eq_some hmr (nodeBSKey_inj hkey)] at hfind
      contradiction

theorem created_createDisjointMR (h : Sane s) (fn : F) (cpts : NodeBS) :
    Created s fn cpts (s.createDisjointMR fn cpts) := by
  have hsane : Sane { s with
      cptsToRepCPtsMap := Function.update s.cptsToRepCPtsMap cpts (some cpts) } := by
    refine ⟨h.sub, fun S => ?_⟩
    change (Function.update s.cptsToRepCPtsMap cpts (some cpts) S).getD S = S
    by_cases hS : S = cpts
    · subst hS
      rw [Function.update_self]
      rfl
    · rw [Function.update_of_ne hS]
      exact h.rep S
  have hcreated := created_createMR hsane fn cpts
  exact ⟨hcreated.sane, hcreated.hasMR⟩

def createAll (l : List (F × NodeBS)) : Regions F :=
  l.foldl (fun s p => s.createDisjointMR p.1 p.2) .empty

omit [DecidableEq F] in
theorem sane_empty : Sane (Regions.empty : Regions F) where
  sub _ mr hmr := absurd hmr (not_mem_empty mr)
  rep _ := rfl

theorem createAll_spec (l : List (F × NodeBS)) :
    Sane (createAll l) ∧ ∀ f S, HasMR ((createAll l).funToMRsMap f) S ↔ (f, S) ∈ l := by
  have hfold : ∀ s : Regions F, Sane s → Sane (l.foldl (fun s p => s.createDisjointMR p.1 p.2) s) ∧
      ∀ f S, HasMR ((l.foldl (fun s p => s.createDisjointMR p.1 p.2) s).funToMRsMap f) S ↔
        HasMR (s.funToMRsMap f) S ∨ (f, S) ∈ l := by
    induction l with
    | nil => exact fun s h => ⟨h, fun f S => by simp⟩
    | cons p l ih =>
        intro s h
        have hp := created_createDisjointMR h p.1 p.2
        obtain ⟨hsane, hmem⟩ := ih _ hp.sane
        refine ⟨hsane, fun f S => ?_⟩
        rw [List.foldl_cons, hmem, hp.hasMR, List.mem_cons, or_assoc, Prod.ext_iff]
  obtain ⟨hsane, hmem⟩ := hfold .empty sane_empty
  refine ⟨hsane, fun f S => ?_⟩
  rw [createAll, hmem]
  apply or_iff_right
  rintro ⟨mr, hmr, -⟩
  exact not_mem_empty mr hmr

section

variable (m : ModRef F)

def made : Strategy → List (F × NodeBS)
  | .distinct => m.functions.flatMap fun fn =>
      ((m.getPointsToList fn).elems.foldl PointsTo.union ∅).elems.map fun id => (fn, singleton id)
  | .intraDisjoint => m.functions.flatMap fun fn =>
      (computeAll .empty (m.getPointsToList fn).elems).elems.map fun inter => (fn, inter)
  | .interDisjoint => m.functions.flatMap fun fn => (m.getPointsToList fn).elems.flatMap fun cpts =>
      ((computeAll .empty m.allPointsTo).elems.filter fun inter => cpts.contains inter).map
        fun inter => (fn, inter)

theorem regions_partitionMRs (strategy : Strategy) :
    (m.partitionMRs strategy).regions = createAll (made m strategy) := by
  cases strategy with
  | distinct =>
      simp only [ModRef.partitionMRs, ModRef.distinctMRs, made, createAll, List.foldl_flatMap,
        List.foldl_map]
      rfl
  | intraDisjoint =>
      simp only [ModRef.partitionMRs, ModRef.intraDisjointMRs, made, createAll, List.foldl_flatMap,
        List.foldl_map]
  | interDisjoint =>
      simp only [ModRef.partitionMRs, ModRef.interDisjointMRs, made, createAll, List.foldl_flatMap,
        List.foldl_map, List.foldl_filter]

theorem mem_getPointsToList (fn : F) (S : NodeBS) :
    S ∈ m.getPointsToList fn ↔ ⟨fn, S⟩ ∈ m.accesses := by
  have hfold : ∀ (l : List (Access F)) (pts : PointsToList),
      S ∈ l.foldl (fun l a => l.insert a.cpts) pts ↔ S ∈ pts ∨ ∃ a ∈ l, S = a.cpts := by
    intro l
    induction l with
    | nil => simp
    | cons a l ih =>
        intro pts
        rw [List.foldl_cons, ih, mem_insert_iff, List.exists_mem_cons_iff, or_assoc]
  rw [ModRef.getPointsToList, hfold]
  constructor
  · rintro (hnone | ⟨a, ha, rfl⟩)
    · exact absurd hnone (not_mem_empty S)
    · obtain ⟨hmem, hfn⟩ := List.mem_filter.mp ha
      have hfn : a.fn = fn := of_decide_eq_true hfn
      subst hfn
      exact hmem
  · intro h
    exact .inr ⟨⟨fn, S⟩, List.mem_filter.mpr ⟨h, decide_eq_true rfl⟩, rfl⟩

theorem mem_foldl_union (l : List NodeBS) (o : NodeID) :
    o ∈ l.foldl PointsTo.union ∅ ↔ ∃ S ∈ l, o ∈ S := by
  have hfold : ∀ pts : NodeBS, o ∈ l.foldl PointsTo.union pts ↔ o ∈ pts ∨ ∃ S ∈ l, o ∈ S := by
    induction l with
    | nil => simp
    | cons S l ih =>
        intro pts
        rw [List.foldl_cons, ih, List.exists_mem_cons_iff, ← or_assoc]
        exact or_congr_left (mem_union pts S o)
  rw [hfold]
  exact or_iff_right (notMem_empty o)

theorem mem_singleton (o n : NodeID) : n ∈ MemPartition.singleton o ↔ n = o := by
  simp [MemPartition.singleton]

def selected (strategy : Strategy) (cpts : NodeBS) (fn : F) : List NodeBS :=
  match strategy with
  | .distinct => cpts.elems.map MemPartition.singleton
  | .intraDisjoint =>
    (computeAll .empty (m.getPointsToList fn).elems).elems.filter fun inter => cpts.contains inter
  | .interDisjoint =>
    (computeAll .empty m.allPointsTo).elems.filter fun inter => cpts.contains inter

theorem getMRsForLoad_eq (strategy : Strategy) (cpts : NodeBS) (fn : F) :
    (m.partitionMRs strategy).getMRsForLoad strategy cpts fn =
      (m.partitionMRs strategy).regions.lookUp (selected m strategy cpts fn) := by
  cases strategy <;> rfl

variable {m}

theorem mem_allPointsTo {a : Access F} (ha : a ∈ m.accesses) : a.cpts ∈ m.allPointsTo := by
  rw [ModRef.allPointsTo, List.mem_flatMap]
  exact ⟨a.fn, m.mem_functions a ha, (mem_getPointsToList m a.fn a.cpts).mpr ha⟩

/-- Every set of a function is the union of sets that it has regions for, and these are
looked up wherever the set is part of what is used. -/
theorem covered_by_made (strategy : Strategy) (h : ⟨fn, S⟩ ∈ m.accesses) (ho : o ∈ S) :
    ∃ T, (fn, T) ∈ made m strategy ∧ o ∈ T ∧ (∀ b ∈ T, b ∈ S) ∧
      ∀ cpts : NodeBS, (∀ b ∈ S, b ∈ cpts) → T ∈ selected m strategy cpts fn := by
  have hfn : fn ∈ m.functions := m.mem_functions ⟨fn, S⟩ h
  have hlist : S ∈ m.getPointsToList fn := (mem_getPointsToList m fn S).mpr h
  cases strategy with
  | distinct =>
      refine ⟨MemPartition.singleton o, ?_, (mem_singleton o o).mpr rfl, fun b hb => ?_,
        fun cpts hsub => List.mem_map.mpr ⟨o, hsub o ho, rfl⟩⟩
      · exact List.mem_flatMap.mpr ⟨fn, hfn, List.mem_map.mpr
          ⟨o, (mem_foldl_union _ o).mpr ⟨S, hlist, ho⟩, rfl⟩⟩
      · rw [(mem_singleton o b).mp hb]
        exact ho
  | intraDisjoint =>
      have hcov : Covers (· ∈ computeAll .empty _) _ := covers_computeAll (.inr hlist)
      obtain ⟨T, hT, hoT, hsub⟩ := hcov o ho
      refine ⟨T, List.mem_flatMap.mpr ⟨fn, hfn, List.mem_map.mpr ⟨T, hT, rfl⟩⟩, hoT, hsub,
        fun cpts hcpts => List.mem_filter.mpr ⟨hT, ?_⟩⟩
      exact (contains_iff_subset cpts T).mpr fun b hb => hcpts b (hsub b hb)
  | interDisjoint =>
      have hcov : Covers (· ∈ computeAll .empty _) _ :=
        covers_computeAll (.inr (mem_allPointsTo h))
      obtain ⟨T, hT, hoT, hsub⟩ := hcov o ho
      refine ⟨T, List.mem_flatMap.mpr ⟨fn, hfn, List.mem_flatMap.mpr ⟨S, hlist, List.mem_map.mpr
        ⟨T, List.mem_filter.mpr ⟨hT, (contains_iff_subset S T).mpr hsub⟩, rfl⟩⟩⟩, hoT, hsub,
        fun cpts hcpts => List.mem_filter.mpr ⟨hT, ?_⟩⟩
      exact (contains_iff_subset cpts T).mpr fun b hb => hcpts b (hsub b hb)

omit [DecidableEq F] in
theorem mem_accesses_of_mem_defs {d : Access F} (hd : d ∈ m.defs) : d ∈ m.accesses := by
  rw [ModRef.accesses]
  rcases List.mem_append.mp hd with hd | hd
  · exact List.mem_append_left _ (List.mem_append_left _ hd)
  · obtain ⟨cs, hcs, hmod⟩ := List.mem_filterMap.mp hd
    obtain ⟨mods, hmods, rfl⟩ := Option.map_eq_some_iff.mp hmod
    refine List.mem_append_right _ (List.mem_flatMap.mpr ⟨cs, hcs, List.mem_map.mpr ⟨mods, ?_, rfl⟩⟩)
    exact List.mem_append_right _ (Option.mem_toList.mpr hmods)

omit [DecidableEq F] in
/-- What is used is what was inserted for the function, or the union of two such sets. -/
theorem covered_of_mem_uses {u : Access F} (hu : u ∈ m.uses) (ho : o ∈ u.cpts) :
    ∃ S, ⟨u.fn, S⟩ ∈ m.accesses ∧ o ∈ S ∧ ∀ b ∈ S, b ∈ u.cpts := by
  rw [ModRef.accesses]
  rcases List.mem_append.mp hu with hu | hu
  · exact ⟨u.cpts, List.mem_append_left _ (List.mem_append_right _ hu), ho, fun _ hb => hb⟩
  · obtain ⟨cs, hcs, href⟩ := List.mem_filterMap.mp hu
    have hcase : u = ⟨cs.caller, cs.refs.getD ∅ ∪ cs.mods.getD ∅⟩ := by
      rw [CallSite.refPts] at href
      split at href
      · contradiction
      · exact (Option.some.inj href).symm
    subst hcase
    have hadded : ∀ S, cs.refs = some S ∨ cs.mods = some S →
        ⟨cs.caller, S⟩ ∈ m.stores ++ m.loads ++ m.callSites.flatMap CallSite.added := by
      intro S hS
      refine List.mem_append_right _ (List.mem_flatMap.mpr ⟨cs, hcs, List.mem_map.mpr ⟨S, ?_, rfl⟩⟩)
      rcases hS with hS | hS
      · exact List.mem_append_left _ (Option.mem_toList.mpr hS)
      · exact List.mem_append_right _ (Option.mem_toList.mpr hS)
    rcases (mem_union _ _ o).mp ho with ho | ho
    · cases hrefs : cs.refs with
      | none =>
          rw [hrefs] at ho
          exact absurd ho (notMem_empty o)
      | some S =>
          rw [hrefs] at ho
          exact ⟨S, hadded S (.inl hrefs), ho, fun b hb => (mem_union _ _ b).mpr (.inl hb)⟩
    · cases hmods : cs.mods with
      | none =>
          rw [hmods] at ho
          exact absurd ho (notMem_empty o)
      | some S =>
          rw [hmods] at ho
          exact ⟨S, hadded S (.inr hmods), ho, fun b hb => (mem_union _ _ b).mpr (.inr hb)⟩

/-- The lookups for a use never miss. -/
theorem made_of_selected {strategy : Strategy} {u : Access F} (hu : u ∈ m.uses)
    (hS : S ∈ selected m strategy u.cpts u.fn) : ∃ f, (f, S) ∈ made m strategy := by
  cases strategy with
  | distinct =>
      obtain ⟨o, ho, rfl⟩ := List.mem_map.mp hS
      obtain ⟨T, hT, hoT, -⟩ := covered_of_mem_uses hu ho
      exact ⟨u.fn, List.mem_flatMap.mpr ⟨u.fn, m.mem_functions ⟨u.fn, T⟩ hT, List.mem_map.mpr
        ⟨o, (mem_foldl_union _ o).mpr ⟨T, (mem_getPointsToList m u.fn T).mpr hT, hoT⟩, rfl⟩⟩⟩
  | intraDisjoint =>
      obtain ⟨hmem, -⟩ := List.mem_filter.mp hS
      obtain ⟨T, hT, -⟩ := sub_of_mem_computeAll hmem
      have haccess := (mem_getPointsToList m u.fn T).mp hT
      exact ⟨u.fn, List.mem_flatMap.mpr
        ⟨u.fn, m.mem_functions ⟨u.fn, T⟩ haccess, List.mem_map.mpr ⟨S, hmem, rfl⟩⟩⟩
  | interDisjoint =>
      obtain ⟨hmem, -⟩ := List.mem_filter.mp hS
      obtain ⟨T, hT, hsub⟩ := sub_of_mem_computeAll hmem
      obtain ⟨f, hf, hTf⟩ := List.mem_flatMap.mp hT
      exact ⟨f, List.mem_flatMap.mpr ⟨f, hf, List.mem_flatMap.mpr ⟨T, hTf, List.mem_map.mpr
        ⟨S, List.mem_filter.mpr ⟨hmem, (contains_iff_subset T S).mpr hsub⟩, rfl⟩⟩⟩⟩

end

section

variable {m : ModRef F} {strategy : Strategy}

omit [DecidableEq F] in
theorem lookUp_eq_some {sets : List NodeBS} (h : ∀ S ∈ sets, HasMR s.memRegSet S) :
    ∃ mrs, s.lookUp sets = some mrs ∧ ∀ S ∈ sets, ∀ mr ∈ s.memRegSet, mr.cptsSet = S → mr ∈ mrs := by
  rw [Regions.lookUp]
  induction sets with
  | nil => exact ⟨[], rfl, fun S hS => absurd hS List.not_mem_nil⟩
  | cons S sets ih =>
      obtain ⟨mrs, hmrs, hall⟩ := ih fun T hT => h T (List.mem_cons_of_mem _ hT)
      obtain ⟨mr, hmr, hS⟩ := h S List.mem_cons_self
      have hfind := find_eq_some hmr hS
      refine ⟨mr :: mrs, by rw [List.mapM_cons, hfind, hmrs]; rfl, fun T hT mr' hmr' hT' => ?_⟩
      rcases List.mem_cons.mp hT with rfl | hT
      · rw [eq_of_cptsSet_eq hmr' hmr (hT'.trans hS.symm)]
        exact List.mem_cons_self
      · exact List.mem_cons_of_mem _ (hall T hT mr' hmr' hT')

theorem sane_partitionMRs (m : ModRef F) (strategy : Strategy) :
    Sane (m.partitionMRs strategy).regions := by
  rw [regions_partitionMRs]
  exact (createAll_spec _).1

theorem hasMR_iff (m : ModRef F) (strategy : Strategy) :
    HasMR ((m.partitionMRs strategy).regions.funToMRsMap fn) S ↔ (fn, S) ∈ made m strategy := by
  rw [regions_partitionMRs]
  exact (createAll_spec _).2 fn S

theorem getMRsForLoad_some {u : Access F} (hu : u ∈ m.uses) : ∃ mrs,
    (m.partitionMRs strategy).getMRsForLoad strategy u.cpts u.fn = some mrs ∧
      ∀ S ∈ selected m strategy u.cpts u.fn,
        ∀ mr ∈ (m.partitionMRs strategy).regions.memRegSet, mr.cptsSet = S → mr ∈ mrs := by
  rw [getMRsForLoad_eq]
  apply lookUp_eq_some
  intro S hS
  obtain ⟨f, hf⟩ := made_of_selected hu hS
  obtain ⟨mr, hmr, hmrS⟩ := (hasMR_iff m strategy).mpr hf
  exact ⟨mr, (sane_partitionMRs m strategy).sub f mr hmr, hmrS⟩

/-- A region of the function with the object, inside the given set. -/
theorem exists_region (h : ⟨fn, S⟩ ∈ m.accesses) (ho : o ∈ S) :
    ∃ mr ∈ (m.partitionMRs strategy).regions.funToMRsMap fn, o ∈ mr.cptsSet ∧
      ∀ cpts : NodeBS, (∀ b ∈ S, b ∈ cpts) → mr.cptsSet ∈ selected m strategy cpts fn := by
  obtain ⟨T, hT, hoT, -, hsel⟩ := covered_by_made strategy h ho
  obtain ⟨mr, hmr, rfl⟩ := (hasMR_iff m strategy).mpr hT
  exact ⟨mr, hmr, hoT, hsel⟩

omit [DecidableEq F] in
theorem mem_getAliasMemRegions {mr : MemRegion} (hmr : mr ∈ s.funToMRsMap fn) (ho : o ∈ mr.cptsSet)
    (hoc : o ∈ cpts) : mr ∈ s.getAliasMemRegions cpts fn :=
  List.mem_filter.mpr ⟨hmr, (intersects_iff _ _).mpr ⟨o, ho, hoc⟩⟩

theorem disjoint_of_apart {inters : PointsToList} (hapart : Apart inters)
    (hmade : ∀ p ∈ made m strategy, p.1 = fn ∨ p.1 = f → p.2 ∈ inters) {mr mr' : MemRegion}
    (hmr : mr ∈ (m.partitionMRs strategy).regions.funToMRsMap fn)
    (hmr' : mr' ∈ (m.partitionMRs strategy).regions.funToMRsMap f) (hne : mr.rid ≠ mr'.rid) :
    ∀ o ∈ mr.cptsSet, o ∉ mr'.cptsSet := by
  intro o ho ho'
  have hin := hmade _ ((hasMR_iff m strategy).mp ⟨mr, hmr, rfl⟩) (.inl rfl)
  have hin' := hmade _ ((hasMR_iff m strategy).mp ⟨mr', hmr', rfl⟩) (.inr rfl)
  have hsane := sane_partitionMRs m strategy
  have heq := eq_of_cptsSet_eq (hsane.sub fn mr hmr) (hsane.sub f mr' hmr')
    (hapart _ hin _ hin' o ho ho')
  exact hne (congrArg MemRegion.rid heq)

theorem mem_inters_of_made {p : F × NodeBS} (hp : p ∈ made m .intraDisjoint) :
    p.2 ∈ computeAll .empty (m.getPointsToList p.1).elems := by
  obtain ⟨fn, -, hp⟩ := List.mem_flatMap.mp hp
  obtain ⟨inter, hinter, rfl⟩ := List.mem_map.mp hp
  exact hinter

theorem mem_allInters_of_made {p : F × NodeBS} (hp : p ∈ made m .interDisjoint) :
    p.2 ∈ computeAll .empty m.allPointsTo := by
  obtain ⟨fn, -, hp⟩ := List.mem_flatMap.mp hp
  obtain ⟨cpts, -, hp⟩ := List.mem_flatMap.mp hp
  obtain ⟨inter, hinter, rfl⟩ := List.mem_map.mp hp
  exact (List.mem_filter.mp hinter).1

end

/-- Every strategy gives every access regions for all its objects, and a store and a load
of one function share one for every object that they share. The regions of a function
are disjoint under the intra-disjoint strategy. Those of the program are disjoint
under the inter-disjoint one when no singleton comes after a larger set that still
holds its object together with another; exactly then they are so all along. -/
theorem partitionMRs_complete (m : ModRef F) :
    (∀ strategy, ∀ d ∈ m.defs, ∀ o ∈ d.cpts,
      ∃ mr ∈ (m.partitionMRs strategy).regions.getAliasMemRegions d.cpts d.fn, o ∈ mr.cptsSet) ∧
    (∀ strategy, ∀ u ∈ m.uses, ∃ mrs,
      (m.partitionMRs strategy).getMRsForLoad strategy u.cpts u.fn = some mrs ∧
      (∀ o ∈ u.cpts, ∃ mr ∈ mrs, o ∈ mr.cptsSet) ∧
      ∀ d ∈ m.defs, d.fn = u.fn → ∀ o ∈ d.cpts, o ∈ u.cpts → ∃ mr ∈ mrs, o ∈ mr.cptsSet ∧
        mr ∈ (m.partitionMRs strategy).regions.getAliasMemRegions d.cpts d.fn) ∧
    (∀ fn, ∀ mr ∈ (m.partitionMRs .intraDisjoint).regions.funToMRsMap fn,
      ∀ mr' ∈ (m.partitionMRs .intraDisjoint).regions.funToMRsMap fn,
        mr.rid ≠ mr'.rid → ∀ o ∈ mr.cptsSet, o ∉ mr'.cptsSet) ∧
    ((∀ pre, pre <+: m.allPointsTo → Apart (computeAll .empty pre)) ↔
      SingletonsApart m.allPointsTo) ∧
    (SingletonsApart m.allPointsTo →
      ∀ fn, ∀ mr ∈ (m.partitionMRs .interDisjoint).regions.funToMRsMap fn,
      ∀ fn', ∀ mr' ∈ (m.partitionMRs .interDisjoint).regions.funToMRsMap fn',
        mr.rid ≠ mr'.rid → ∀ o ∈ mr.cptsSet, o ∉ mr'.cptsSet) := by
  refine ⟨fun strategy d hd o ho => ?_, fun strategy u hu => ?_, fun fn mr hmr mr' hmr' hne => ?_,
    apart_iff _, fun hlate fn mr hmr fn' mr' hmr' hne => ?_⟩
  · obtain ⟨mr, hmr, hmem, -⟩ :=
      exists_region (mem_accesses_of_mem_defs hd) ho
    exact ⟨mr, mem_getAliasMemRegions hmr hmem ho, hmem⟩
  · obtain ⟨mrs, hmrs, hsel⟩ := getMRsForLoad_some hu
    have hregion : ∀ o ∈ u.cpts, ∃ mr ∈ mrs, o ∈ mr.cptsSet ∧
        mr ∈ (m.partitionMRs strategy).regions.funToMRsMap u.fn := by
      intro o ho
      obtain ⟨S, hS, hoS, hsub⟩ := covered_of_mem_uses hu ho
      obtain ⟨mr, hmr, hmem, hselected⟩ := exists_region hS hoS
      have hreg := (sane_partitionMRs m strategy).sub u.fn mr hmr
      exact ⟨mr, hsel _ (hselected u.cpts hsub) mr hreg rfl, hmem, hmr⟩
    refine ⟨mrs, hmrs, fun o ho => ?_, fun d hd hfn o hod hou => ?_⟩
    · obtain ⟨mr, hmr, hmem, -⟩ := hregion o ho
      exact ⟨mr, hmr, hmem⟩
    · obtain ⟨mr, hmr, hmem, hfun⟩ := hregion o hou
      rw [← hfn] at hfun
      exact ⟨mr, hmr, hmem, mem_getAliasMemRegions hfun hmem hod⟩
  · have hapart := apart_of_atoms (atoms_computeAll (singletonsApart_elems (m.getPointsToList fn)))
    refine disjoint_of_apart hapart (fun p hp hfn => ?_) hmr hmr' hne
    have hmem := mem_inters_of_made hp
    rcases hfn with heq | heq <;> rwa [heq] at hmem
  · have hapart := apart_of_atoms (atoms_computeAll hlate)
    exact disjoint_of_apart hapart (fun p hp _ => mem_allInters_of_made hp) hmr hmr' hne

/-- One function stores to `1` or `2`, another one to `1` only. -/
def overlapping : ModRef Bool where
  stores := [⟨true, (MemPartition.singleton 1).set 2⟩, ⟨false, MemPartition.singleton 1⟩]
  loads := []
  callSites := []
  functions := [true, false]
  mem_functions := by decide

def separated : ModRef Bool where
  stores := [⟨true, (MemPartition.singleton 1).set 2⟩, ⟨false, MemPartition.singleton 1⟩]
  loads := []
  callSites := []
  functions := [false, true]
  mem_functions := by decide

theorem separated_apart : SingletonsApart separated.allPointsTo := by
  let l : PointsToList :=
    ((OrderedSet.empty : PointsToList).insert (MemPartition.singleton 1)).insert
      ((MemPartition.singleton 1).set 2)
  have hl : separated.allPointsTo = l.elems := by decide +kernel
  rw [hl]
  exact singletonsApart_elems l

theorem partitionMRs_complete_separated :
    ∀ mr ∈ (separated.partitionMRs .interDisjoint).regions.funToMRsMap true,
      ∀ mr' ∈ (separated.partitionMRs .interDisjoint).regions.funToMRsMap false,
        mr.rid ≠ mr'.rid → 2 ∈ mr.cptsSet → 2 ∉ mr'.cptsSet :=
  fun mr hmr mr' hmr' hne =>
    (partitionMRs_complete separated).2.2.2.2 separated_apart true mr hmr false mr' hmr' hne 2

/-- `1` is a region of its own beside the region of `1` and `2`. -/
theorem partitionMRs_overlap :
    ∃ mr ∈ (overlapping.partitionMRs .interDisjoint).regions.funToMRsMap true,
      ∃ mr' ∈ (overlapping.partitionMRs .interDisjoint).regions.funToMRsMap false,
        mr.rid ≠ mr'.rid ∧ ∃ o ∈ mr.cptsSet, o ∈ mr'.cptsSet := by
  decide +kernel

end SVF.MSSA.RegionCoverage
