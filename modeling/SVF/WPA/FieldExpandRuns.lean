import SVF.WPA.FieldExpand

namespace SVF.WPA.FieldExpandRuns

open Relation Graphs.ConsG Graphs.FieldObjects Graphs.FieldLookup FieldExpand
open MemoryModel.PointsToSets (PointsTo)

def fieldOf (pag : SVFIR) (opts : Options) (init : NodeID) (f : APOffset) : Name :=
  fieldName pag opts (name pag init).1 (nameOffset (name pag init) f)

def Ordinary (pag : SVFIR) (initials : Finset NodeID) (init : NodeID) : Prop :=
  init ∈ initials ∧ pag.isBlkObjOrConstantObj init = false

/-- An object that is dropped, as a field object of another, has only fields that the other has. -/
def Apart (pag : SVFIR) (opts : Options) (offset : APOffset) (strides : PointsTo)
    (initials : Finset NodeID) : Prop :=
  ∀ init init' f, Ordinary pag initials init → Ordinary pag initials init' →
    (expansion offset strides pag init).Reached f → fieldOf pag opts init f = name pag init' →
      ∀ f', (expansion offset strides pag init').Reached f' →
        ∃ f'', (expansion offset strides pag init).Reached f'' ∧
          fieldOf pag opts init' f' = fieldOf pag opts init f''

variable {opts : Options} {alloc : NodeIDAllocator} {offset : APOffset} {strides : PointsTo}
  {pag pag' : SVFIR} {initials : Finset NodeID} {init : NodeID} {e e' : Expand}

theorem expansion_grown (h : Grown pag pag') (hinit : init ∈ pag.nodes) :
    expansion offset strides pag' init = expansion offset strides pag init := by
  rw [expansion, expansion, h.old init hinit, getBaseObjVar_grown h hinit, h.limit]

theorem fieldOf_grown (h : Grown pag pag') (hinit : init ∈ pag.nodes) (f : APOffset) :
    fieldOf pag' opts init f = fieldOf pag opts init f := by
  rw [fieldOf, fieldOf, name_grown h hinit, fieldName_grown opts h]

def Has (e : Expand) (n : Name) : Prop := ∃ id ∈ e.expandPts, id ∈ e.pag.nodes ∧ name e.pag id = n

theorem Has.getGepObjVar (h : Has e (fieldOf e.pag opts init f)) (hsound : Sound e.pag)
    (hinit : init ∈ e.pag.nodes) : (e.pag.getGepObjVar opts alloc init f).2 ∈ e.expandPts := by
  obtain ⟨id, hid, hnode, hname⟩ := h
  have hlookup := getGepObjVar_lookup opts alloc hsound hinit f
  have heq : name (e.pag.getGepObjVar opts alloc init f).1 id =
      name (e.pag.getGepObjVar opts alloc init f).1 (e.pag.getGepObjVar opts alloc init f).2 := by
    rw [name_grown hlookup.grown hnode, hname, hlookup.name]
    rfl
  rwa [← name_injective hlookup.sound heq]

structure Added (opts : Options) (init : NodeID) (fs : List APOffset) (e e' : Expand) : Prop where
  sound : Sound e'.pag
  grown : Grown e.pag e'.pag
  pts : ∀ id ∈ e.expandPts, id ∈ e'.expandPts
  initials : e'.initials ⊆ e.initials
  erased : ∀ id ∈ e.initials, id ∉ e'.initials →
    id ∈ e'.expandPts ∧ ∃ f ∈ fs, name e'.pag id = fieldOf e.pag opts init f
  has : ∀ f ∈ fs, Has e' (fieldOf e.pag opts init f)

theorem Has.mono {n : Name} (h : Has e n) (hgrown : Grown e.pag e'.pag)
    (hpts : ∀ id ∈ e.expandPts, id ∈ e'.expandPts) : Has e' n := by
  obtain ⟨id, hid, hnode, hname⟩ := h
  exact ⟨id, hpts id hid, hgrown.nodes id hnode, (name_grown hgrown hnode).trans hname⟩

theorem foldl_addField (opts : Options) (alloc : NodeIDAllocator) (fs : List APOffset) (hsound : Sound e.pag) (hinit : init ∈ e.pag.nodes) :
    Added opts init fs e (fs.foldl (addField opts alloc init) e) := by
  induction fs generalizing e with
  | nil =>
      exact ⟨hsound, Grown.refl _, fun _ h => h, Finset.Subset.refl _, fun id h hnot => absurd h hnot,
        fun f hf => absurd hf List.not_mem_nil⟩
  | cons f fs ih =>
      have hlookup := getGepObjVar_lookup opts alloc hsound hinit f
      have hstep : addField opts alloc init e f =
          ⟨e.initials.erase (e.pag.getGepObjVar opts alloc init f).2,
            (e.pag.getGepObjVar opts alloc init f).1,
            e.expandPts.set (e.pag.getGepObjVar opts alloc init f).2⟩ := rfl
      have hrest := ih (e := addField opts alloc init e f) hlookup.sound (hlookup.grown.nodes init hinit)
      have hgrown : Grown e.pag (addField opts alloc init e f).pag := hlookup.grown
      have hsame : ∀ g, fieldOf (addField opts alloc init e f).pag opts init g =
          fieldOf e.pag opts init g := fieldOf_grown hgrown hinit
      have hnew : (e.pag.getGepObjVar opts alloc init f).2 ∈ (addField opts alloc init e f).expandPts :=
        (MemoryModel.PointsToSets.mem_set _ _ _).mpr (.inr rfl)
      have hmem : (e.pag.getGepObjVar opts alloc init f).2 ∈ (addField opts alloc init e f).pag.nodes :=
        hlookup.mem
      have hname : name (addField opts alloc init e f).pag (e.pag.getGepObjVar opts alloc init f).2 =
          fieldOf e.pag opts init f := hlookup.name
      rw [List.foldl_cons]
      refine ⟨hrest.sound, hgrown.trans hrest.grown, fun id hid => hrest.pts id ?_,
        hrest.initials.trans (Finset.erase_subset _ _), fun id hid hnot => ?_, fun g hg => ?_⟩
      · exact (MemoryModel.PointsToSets.mem_set _ _ _).mpr (.inl hid)
      · by_cases heq : id = (e.pag.getGepObjVar opts alloc init f).2
        · subst heq
          exact ⟨hrest.pts _ hnew, f, List.mem_cons_self, (name_grown hrest.grown hmem).trans hname⟩
        · obtain ⟨hpts, g, hg, hg'⟩ := hrest.erased id (Finset.mem_erase.mpr ⟨heq, hid⟩) hnot
          exact ⟨hpts, g, List.mem_cons_of_mem f hg, hg'.trans (hsame g)⟩
      · rcases List.mem_cons.mp hg with rfl | hg
        · exact Has.mono ⟨_, hnew, hmem, hname⟩ hrest.grown hrest.pts
        · rw [← hsame g]
          exact hrest.has g hg

structure Inv (pag : SVFIR) (opts : Options) (offset : APOffset) (strides : PointsTo)
    (initials : Finset NodeID) (e : Expand) : Prop where
  sound : Sound e.pag
  grown : Grown pag e.pag
  left : e.initials ⊆ initials
  constant : ∀ init ∈ initials, pag.isBlkObjOrConstantObj init = true →
    init ∈ e.initials ∨ init ∈ e.expandPts
  fields : ∀ init, Ordinary pag initials init → init ∈ e.initials ∨
    ∀ f, (expansion offset strides pag init).Reached f → Has e (fieldOf pag opts init f)

structure Good (pag : SVFIR) (opts : Options) (offset : APOffset) (strides : PointsTo)
    (initials : Finset NodeID) : Prop where
  nodes : ∀ init ∈ initials, init ∈ pag.nodes
  fits : ∀ init, Ordinary pag initials init → (expansion offset strides pag init).Fits
  short : ∀ init, Ordinary pag initials init → (expansion offset strides pag init).Short
  apart : Apart pag opts offset strides initials

theorem inv_start (hsound : Sound pag) (pts : PointsTo) :
    Inv pag opts offset strides initials ⟨initials, pag, pts⟩ :=
  ⟨hsound, Grown.refl pag, Finset.Subset.refl _, fun _ h _ => .inl h, fun _ h => .inl h.1⟩

theorem Inv.step (hgood : Good pag opts offset strides initials)
    (h : Inv pag opts offset strides initials e) (hstep : ExpandStep opts alloc offset strides e e') :
    Inv pag opts offset strides initials e' := by
  cases hstep with
  | constant init hinit hconst =>
      have hnode := hgood.nodes init (h.left hinit)
      have hpts : ∀ id ∈ e.expandPts, id ∈ e.expandPts.set init := fun id hid =>
        (MemoryModel.PointsToSets.mem_set _ _ _).mpr (.inl hid)
      rw [isBlkObjOrConstantObj_grown h.grown hnode] at hconst
      refine ⟨h.sound, h.grown, (Finset.erase_subset _ _).trans h.left, fun o ho hblk => ?_,
        fun o ho => ?_⟩
      · by_cases heq : o = init
        · exact .inr ((MemoryModel.PointsToSets.mem_set _ _ _).mpr (.inr heq))
        · exact (h.constant o ho hblk).imp (fun hin => Finset.mem_erase.mpr ⟨heq, hin⟩) (hpts o)
      · have heq : o ≠ init := by
          rintro rfl
          rw [ho.2] at hconst
          contradiction
        exact (h.fields o ho).imp (fun hin => Finset.mem_erase.mpr ⟨heq, hin⟩)
          fun hall f hf => (hall f hf).mono (Grown.refl _) hpts
  | object init hinit hconst l offsets hrun hdone hoffsets =>
      have hnode := hgood.nodes init (h.left hinit)
      rw [isBlkObjOrConstantObj_grown h.grown hnode] at hconst
      have hord : Ordinary pag initials init := ⟨h.left hinit, hconst⟩
      rw [expansion_grown h.grown hnode] at hrun
      have hreached : ∀ f, f ∈ offsets ↔ (expansion offset strides pag init).Reached f := by
        intro f
        rw [← List.mem_toFinset, hoffsets]
        exact ⟨(Expansion.Inv.run (hgood.fits init hord) hrun).reached f,
          Expansion.complete (hgood.fits init hord) (hgood.short init hord) hrun hdone⟩
      have hadd := foldl_addField opts alloc offsets
        (e := ⟨e.initials.erase init, e.pag, e.expandPts⟩) h.sound (h.grown.nodes init hnode)
      have hgrown := h.grown.trans hadd.grown
      have hsame : ∀ f, fieldOf e.pag opts init f = fieldOf pag opts init f := fieldOf_grown h.grown hnode
      have hself : ∀ f, (expansion offset strides pag init).Reached f → Has _ (fieldOf pag opts init f) :=
        fun f hf => hsame f ▸ hadd.has f ((hreached f).mpr hf)
      refine ⟨hadd.sound, hgrown, hadd.initials.trans ((Finset.erase_subset _ _).trans h.left),
        fun o ho hblk => ?_, fun o ho => ?_⟩
      · rcases h.constant o ho hblk with hin | hin
        · have hne : o ≠ init := by
            rintro rfl
            rw [hblk] at hconst
            contradiction
          exact or_iff_not_imp_left.mpr fun hnot =>
            (hadd.erased o (Finset.mem_erase.mpr ⟨hne, hin⟩) hnot).1
        · exact .inr (hadd.pts o hin)
      · rcases h.fields o ho with hin | hall
        · refine or_iff_not_imp_left.mpr fun hnot => ?_
          by_cases heq : o = init
          · exact heq ▸ hself
          · -- the object has been dropped as a field object of the other
            obtain ⟨-, f, hf, hname⟩ := hadd.erased o (Finset.mem_erase.mpr ⟨heq, hin⟩) hnot
            rw [name_grown hgrown (hgood.nodes o ho.1)] at hname
            intro f' hf'
            obtain ⟨f'', hf'', heq'⟩ := hgood.apart init o f hord ho ((hreached f).mp hf)
              ((hsame f).symm.trans hname.symm) f' hf'
            exact heq' ▸ hself f'' hf''
        · exact .inr fun f hf => (hall f hf).mono hadd.grown hadd.pts

theorem card_lt (h : Inv pag opts offset strides initials e) (hgood : Good pag opts offset strides initials)
    (hstep : ExpandStep opts alloc offset strides e e') : e'.initials.card < e.initials.card := by
  cases hstep with
  | constant init hinit hconst => exact Finset.card_erase_lt_of_mem hinit
  | object init hinit hconst l offsets hrun hdone hoffsets =>
      have hadd := foldl_addField opts alloc offsets
        (e := ⟨e.initials.erase init, e.pag, e.expandPts⟩) h.sound
        (h.grown.nodes init (hgood.nodes init (h.left hinit)))
      exact (Finset.card_le_card hadd.initials).trans_lt (Finset.card_erase_lt_of_mem hinit)

theorem done_or_step (hgood : Good pag opts offset strides initials)
    (h : Inv pag opts offset strides initials e) :
    e.initials = ∅ ∨ ∃ e', ExpandStep opts alloc offset strides e e' := by
  rcases e.initials.eq_empty_or_nonempty with hempty | ⟨init, hinit⟩
  · exact .inl hempty
  · have hnode := hgood.nodes init (h.left hinit)
    cases hconst : e.pag.isBlkObjOrConstantObj init with
    | true => exact .inr ⟨_, .constant e init hinit hconst⟩
    | false =>
        rw [isBlkObjOrConstantObj_grown h.grown hnode] at hconst
        obtain ⟨l, hrun, hdone⟩ := Expansion.exists_done (hgood.fits init ⟨h.left hinit, hconst⟩)
        rw [← expansion_grown h.grown hnode] at hrun
        rw [← isBlkObjOrConstantObj_grown h.grown hnode] at hconst
        exact .inr ⟨_, .object e init hinit hconst l l.offsets.toList hrun hdone (Finset.toList_toFinset _)⟩

theorem Inv.run (hgood : Good pag opts offset strides initials) (hsound : Sound pag) {pts : PointsTo}
    (hrun : ReflTransGen (ExpandStep opts alloc offset strides) ⟨initials, pag, pts⟩ e) :
    Inv pag opts offset strides initials e := by
  induction hrun with
  | refl => exact inv_start hsound pts
  | tail _ hstep ih => exact ih.step hgood hstep

theorem no_infinite_run (hgood : Good pag opts offset strides initials) (hsound : Sound pag)
    (pts : PointsTo) : ¬ ∃ run : ℕ → Expand, run 0 = ⟨initials, pag, pts⟩ ∧
      ∀ n, ExpandStep opts alloc offset strides (run n) (run (n + 1)) :=
  Util.Loops.no_infinite_run_of_lt (I := Inv pag opts offset strides initials) (m := fun e => e.initials.card)
    (fun _ _ h hstep => ⟨h.step hgood hstep, card_lt h hgood hstep⟩) (inv_start hsound pts)

def Expanded (pag : SVFIR) (opts : Options) (alloc : NodeIDAllocator) (offset : APOffset)
    (strides : PointsTo) (initials : Finset NodeID) (e : Expand) : Prop :=
  ∀ init ∈ initials, (pag.isBlkObjOrConstantObj init = true → init ∈ e.expandPts) ∧
    (pag.isBlkObjOrConstantObj init = false → ∀ f, (expansion offset strides pag init).Reached f →
      (e.pag.getGepObjVar opts alloc init f).2 ∈ e.expandPts)

theorem Inv.expanded (h : Inv pag opts offset strides initials e)
    (hgood : Good pag opts offset strides initials) (hdone : e.initials = ∅) :
    Expanded pag opts alloc offset strides initials e := by
  intro init hinit
  have hnode := hgood.nodes init hinit
  have hnot : init ∉ e.initials := by simp [hdone]
  refine ⟨(h.constant init hinit · |>.resolve_left hnot), fun hord f hf => ?_⟩
  have hhas := (h.fields init ⟨hinit, hord⟩).resolve_left hnot f hf
  rw [← fieldOf_grown h.grown hnode] at hhas
  exact hhas.getGepObjVar h.sound (h.grown.nodes init hnode)

end SVF.WPA.FieldExpandRuns
