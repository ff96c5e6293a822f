import SVF.WPA.MeldCorrect
import SVF.WPA.MeldLabelRuns

namespace SVF.WPA.MeldLabelling

open Relation Graphs.ConsG Graphs.ValueFlowGraph FootprintSCC FootprintInvariant FootprintRuns
open MeldVersions MeldCorrect MeldLabelWorkers MeldLabelRuns

variable {vfs : Versioning} {o c d n m : NodeID} {s : SCC} {i j : ℕ}

def getVersion (labels : NodeID → ObjectLabels) (lvm : ObjectLabels → NodeID → Option Version)
    (l o : NodeID) : Version :=
  let op := ((labels o).equivalentObject).getD o
  (lvm (labels op) l).getD invalidVersion

def getConsume (labels : NodeID → ObjectLabels) (l o : NodeID) : Version :=
  getVersion labels (·.consume) l o

def getYield (vfs : Versioning) (labels : NodeID → ObjectLabels) (l o : NodeID) : Version :=
  if vfs.isStore l then getVersion labels (·.yield) l o else getVersion labels (·.consume) l o

def consumed (ov : ObjectVersions) (n : NodeID) : Version :=
  ((ov.partOf n).map ov.sccToVersion).getD invalidVersion

def yielded (vfs : Versioning) (ov : ObjectVersions) (n : NodeID) : Version :=
  if vfs.isStore n then (ov.storesYieldedVersion n).getD invalidVersion else consumed ov n

/-- On the given nodes, the versions stand for sets of definitions, and what a version is passed on
to relies on it. -/
structure CorrectOn (vfs : Versioning) (o : NodeID) (p : NodeID → Prop) (consume yield : NodeID → Version)
    (reliance : Version → List Version) : Prop where
  same : ∀ n m, p n → p m → vfs.isStore n = false → vfs.isStore m = false →
    (consume n = consume m ↔ ∀ d, Consumes vfs o d n ↔ Consumes vfs o d m)
  relies : ∀ e ∈ vfs.svfg.edges, carries o e = true → p e.src → p e.dst →
    yield e.src ≠ invalidVersion → yield e.src ≠ consume e.dst →
      consume e.dst ∈ reliance (yield e.src)

section

theorem mem_mvv (mvs : List MeldVersion) (mv : MeldVersion) : mv ∈ mvv mvs ↔ mv ∈ mvs := by
  have hfold : ∀ (mvs seen : List MeldVersion), mv ∈ mvs.foldl
      (fun seen mv => if mv ∈ seen then seen else seen ++ [mv]) seen ↔ mv ∈ seen ∨ mv ∈ mvs := by
    intro mvs
    induction mvs with
    | nil => simp
    | cons a mvs ih =>
        intro seen
        rw [List.foldl_cons, ih, List.mem_cons]
        split
        · rename_i ha
          exact ⟨fun h => h.imp_right .inr, fun h => h.elim .inl fun h =>
            h.elim (fun heq => .inl (heq ▸ ha)) .inr⟩
        · rw [List.mem_append, List.mem_singleton, or_assoc]
  rw [mvv, hfold]
  exact or_iff_right List.not_mem_nil

def keys (vfs : Versioning) (o : NodeID) (s : SCC) : List MeldVersion :=
  let m := melding vfs s o
  let stores := (reachableNodes vfs o s.footprint).filter fun n => vfs.isPrelabeled n && vfs.isStore n
  mvv ((List.range s.currentSCC).map m.sccToMeldVersion ++ stores.map m.storesYieldedMeldVersion)

theorem sccToVersion_eq (i : ℕ) : (objectVersions vfs o).sccToVersion i =
    (keys vfs o (detectSCCs vfs o)).idxOf
      ((melding vfs (detectSCCs vfs o) o).sccToMeldVersion i) + 1 := rfl

theorem sccToVersion_ne (i : ℕ) : (objectVersions vfs o).sccToVersion i ≠ invalidVersion :=
  Nat.succ_ne_zero _

theorem sccToVersion_eq_iff (hi : i < (detectSCCs vfs o).currentSCC) :
    (objectVersions vfs o).sccToVersion i = (objectVersions vfs o).sccToVersion j ↔
      (melding vfs (detectSCCs vfs o) o).sccToMeldVersion i =
        (melding vfs (detectSCCs vfs o) o).sccToMeldVersion j := by
  have hmem : (melding vfs (detectSCCs vfs o) o).sccToMeldVersion i ∈ keys vfs o (detectSCCs vfs o) := by
    rw [keys, mem_mvv]
    exact List.mem_append_left _ (List.mem_map_of_mem (List.mem_range.mpr hi))
  rw [sccToVersion_eq, sccToVersion_eq, Nat.succ_inj]
  exact List.idxOf_inj hmem

theorem partOf_eq : (objectVersions vfs o).partOf = (detectSCCs vfs o).partOf := rfl

theorem consumed_of_some (hi : (detectSCCs vfs o).partOf n = some i) :
    consumed (objectVersions vfs o) n = (objectVersions vfs o).sccToVersion i := by
  rw [consumed, partOf_eq, hi]
  rfl

theorem consumed_of_none (hn : (detectSCCs vfs o).partOf n = none) :
    consumed (objectVersions vfs o) n = invalidVersion := by
  rw [consumed, partOf_eq, hn]
  rfl

variable (hclosed : Closed vfs) (hlabelled : Labelled vfs o)

include hclosed

theorem partOf_of_consumed (h : consumed (objectVersions vfs o) n ≠ invalidVersion) :
    ∃ i < (detectSCCs vfs o).currentSCC, (detectSCCs vfs o).partOf n = some i := by
  cases hn : (detectSCCs vfs o).partOf n with
  | none => exact absurd (consumed_of_none hn) h
  | some i => exact ⟨i, (detectSCCs_found hclosed).part_lt n i hn, rfl⟩

include hlabelled

theorem consumed_eq_iff (hn : vfs.isStore n = false) (hm : vfs.isStore m = false) :
    consumed (objectVersions vfs o) n = consumed (objectVersions vfs o) m ↔
      ∀ d, Consumes vfs o d n ↔ Consumes vfs o d m := by
  have hfound := detectSCCs_found (o := o) hclosed
  -- where the search does not arrive, nothing is consumed
  have hnone : ∀ {a b : NodeID} {j : ℕ}, vfs.isStore b = false →
      (detectSCCs vfs o).partOf a = none → (detectSCCs vfs o).partOf b = some j →
        ¬ ∀ d, Consumes vfs o d a ↔ Consumes vfs o d b := by
    intro a b j hb ha hj h
    have hreached := (hfound.done_iff b).mp (Option.isSome_iff_exists.mpr ⟨j, hj⟩)
    obtain ⟨d, hd⟩ := Reached.consumes hreached hb
    have hdone := (hfound.done_iff a).mpr (((h d).mpr hd).reached hlabelled)
    rw [Done, ha] at hdone
    contradiction
  cases hi : (detectSCCs vfs o).partOf n with
  | none =>
      rw [consumed_of_none hi]
      cases hj : (detectSCCs vfs o).partOf m with
      | none =>
          rw [consumed_of_none hj]
          refine iff_of_true rfl fun d => iff_of_false (fun h => ?_) fun h => ?_
          · have hdone := (hfound.done_iff n).mpr (h.reached hlabelled)
            rw [Done, hi] at hdone
            contradiction
          · have hdone := (hfound.done_iff m).mpr (h.reached hlabelled)
            rw [Done, hj] at hdone
            contradiction
      | some j =>
          rw [consumed_of_some hj]
          exact iff_of_false (sccToVersion_ne j).symm (hnone hm hi hj)
  | some i =>
      rw [consumed_of_some hi]
      cases hj : (detectSCCs vfs o).partOf m with
      | none =>
          rw [consumed_of_none hj]
          exact iff_of_false (sccToVersion_ne i) fun h => hnone hn hj hi fun d => (h d).symm
      | some j =>
          rw [consumed_of_some hj, sccToVersion_eq_iff (hfound.part_lt n i hi)]
          exact scc_eq_iff hclosed hfound hlabelled hi hj

end

section

def Grows (r r' : Version → List Version) : Prop := ∀ v, r v ⊆ r' v

instance : Std.Refl Grows := ⟨fun _ _ => List.Subset.refl _⟩

instance : IsTrans (Version → List Version) Grows := ⟨fun _ _ _ h h' v => List.Subset.trans (h v) (h' v)⟩

def relyVersion (m : Melding) (f : ℕ → Version) (g : NodeID → Option Version) (i : ℕ) : Version :=
  match m.storeSCC i with
  | some n => (g n).getD invalidVersion
  | none => f i

theorem relyScc_eq (m : Melding) (f : ℕ → Version) (g : NodeID → Option Version)
    (r : Version → List Version) (i : ℕ) : relyScc m f g r i =
      if (m.sccReliance i).isEmpty then r
      else Function.update r (relyVersion m f g i) (r (relyVersion m f g i) ++
        ((m.sccReliance i).map f).filter (relyVersion m f g i ≠ ·)) := rfl

theorem relyScc_grows (m : Melding) (f : ℕ → Version) (g : NodeID → Option Version)
    (r : Version → List Version) (i : ℕ) : Grows r (relyScc m f g r i) := by
  intro v
  rw [relyScc_eq]
  split
  · exact List.Subset.refl _
  · rw [Function.update_apply]
    split
    · rename_i hv
      rw [hv]
      exact List.subset_append_left _ _
    · exact List.Subset.refl _

theorem mem_relyScc (m : Melding) (f : ℕ → Version) (g : NodeID → Option Version)
    (r : Version → List Version) (hj : j ∈ m.sccReliance i) (hne : relyVersion m f g i ≠ f j) :
    f j ∈ relyScc m f g r i (relyVersion m f g i) := by
  have hempty : ¬ (m.sccReliance i).isEmpty = true := by
    rw [List.isEmpty_iff]
    exact List.ne_nil_of_mem hj
  rw [relyScc_eq, if_neg hempty, Function.update_self, List.mem_append, List.mem_filter]
  exact .inr ⟨List.mem_map_of_mem hj, by simp [hne]⟩

theorem mem_versionReliance {version : Version} (hi : i < (detectSCCs vfs o).currentSCC)
    (hj : j ∈ (melding vfs (detectSCCs vfs o) o).sccReliance i)
    (hversion : relyVersion (melding vfs (detectSCCs vfs o) o) (objectVersions vfs o).sccToVersion
      (objectVersions vfs o).storesYieldedVersion i = version)
    (hne : version ≠ (objectVersions vfs o).sccToVersion j) :
    (objectVersions vfs o).sccToVersion j ∈ (objectVersions vfs o).versionReliance version := by
  subst hversion
  exact Util.Folds.foldl_covers Grows (fun i _ r => relyScc_grows _ _ _ r i)
    (Q := fun r : Version → List Version => (objectVersions vfs o).sccToVersion j ∈ r _)
    (fun _ _ hr h => hr _ h) (List.mem_range.mpr hi) fun r _ => mem_relyScc _ _ _ r hj hne

variable (hclosed : Closed vfs) (hlabelled : Labelled vfs o)

include hclosed hlabelled

/-- What the node `n` yields is what its component relies with. -/
theorem yielded_eq (hi : (detectSCCs vfs o).partOf n = some i) :
    relyVersion (melding vfs (detectSCCs vfs o) o) (objectVersions vfs o).sccToVersion
      (objectVersions vfs o).storesYieldedVersion i = yielded vfs (objectVersions vfs o) n := by
  have hfound := detectSCCs_found (o := o) hclosed
  have hreached := (hfound.done_iff n).mp (Option.isSome_iff_exists.mpr ⟨i, hi⟩)
  have hpre := prelabeled_foldl vfs (detectSCCs vfs o)
    (reachableNodes vfs o (detectSCCs vfs o).footprint) .new 0
  have hsound : ∀ i w, (melding vfs (detectSCCs vfs o) o).storeSCC i = some w →
      vfs.isStore w = true ∧ (detectSCCs vfs o).partOf w = some i := by
    refine storeSCC_sound _ fun i w hw => ?_
    rw [hpre.storeSCC] at hw
    cases hw
  have hsame : ∀ w, (melding vfs (detectSCCs vfs o) o).storeSCC i = some w → n = w := by
    intro w hw
    obtain ⟨hstore, hpart⟩ := hsound i w hw
    exact eq_of_mutual_store ((hfound.done_part n i hi w).mp hpart) hstore
  rw [yielded, relyVersion]
  cases hstore : vfs.isStore n with
  | true =>
      have hsome := @storeSCC_isSome vfs o n (detectSCCs vfs o) i _ ((reachableNodes vfs o
        (detectSCCs vfs o).footprint).foldl (Melding.prelabelNode vfs (detectSCCs vfs o)) (.new, 0)).1
        ((mem_todoList hclosed hfound hlabelled).mpr hreached) hi hstore
      obtain ⟨w, hw⟩ := Option.isSome_iff_exists.mp hsome
      change (melding vfs (detectSCCs vfs o) o).storeSCC i = some w at hw
      rw [hw, ← hsame w hw]
      rfl
  | false =>
      cases hw : (melding vfs (detectSCCs vfs o) o).storeSCC i with
      | none => rw [consumed_of_some hi]; rfl
      | some w =>
          rw [hsame w hw, (hsound i w hw).1] at hstore
          contradiction

theorem storesYieldedVersion_of_not_reached (h : ¬ Reached vfs o n) :
    (objectVersions vfs o).storesYieldedVersion n = none := by
  have hmem : n ∉ (reachableNodes vfs o (detectSCCs vfs o).footprint).filter
      fun n => vfs.isPrelabeled n && vfs.isStore n := fun hmem =>
    h ((mem_reachableNodes hclosed (detectSCCs_found hclosed) hlabelled).mp (List.mem_filter.mp hmem).1)
  exact if_neg hmem

theorem reached_of_yielded (h : yielded vfs (objectVersions vfs o) n ≠ invalidVersion) :
    Reached vfs o n := by
  cases hstore : vfs.isStore n with
  | false =>
      rw [yielded, if_neg (Bool.eq_false_iff.mp hstore)] at h
      obtain ⟨i, -, hi⟩ := partOf_of_consumed hclosed h
      exact ((detectSCCs_found hclosed).done_iff n).mp (Option.isSome_iff_exists.mpr ⟨i, hi⟩)
  | true =>
      by_contra hnot
      refine h ?_
      rw [yielded, if_pos hstore, storesYieldedVersion_of_not_reached hclosed hlabelled hnot]
      rfl

theorem objectVersions_correct : CorrectOn vfs o (fun _ => True) (consumed (objectVersions vfs o))
    (yielded vfs (objectVersions vfs o)) (objectVersions vfs o).versionReliance := by
  have hfound := detectSCCs_found (o := o) hclosed
  refine ⟨fun n m _ _ hn hm => consumed_eq_iff hclosed hlabelled hn hm, ?_⟩
  intro e he hcarries _ _ hvalid hne
  have hedge : e ∈ vfs.svfg.outEdges e.src := mem_outEdges.mpr ⟨he, rfl⟩
  have hreached := reached_of_yielded hclosed hlabelled hvalid
  obtain ⟨i, hlt, hi⟩ := exists_partOf hfound hreached
  obtain ⟨j, -, hj⟩ := exists_partOf hfound (hlabelled.reached hedge hcarries hreached)
  rw [consumed_of_some hj] at hne ⊢
  refine mem_versionReliance hlt ?_ (yielded_eq hclosed hlabelled hi) hne
  exact mem_reliance _ ((mem_todoList hclosed hfound hlabelled).mpr hreached) hi hedge hcarries hj

end

section

variable {L : ObjectLabels}

theorem saveNode_consume (hov : ∀ i, (objectVersions vfs c).sccToVersion i ≠ invalidVersion) (n m : NodeID) :
    (saveNode vfs (objectVersions vfs c) L n).consume m =
      if m = n ∧ ((objectVersions vfs c).partOf n).isSome then
        ((objectVersions vfs c).partOf n).map (objectVersions vfs c).sccToVersion
      else L.consume m := by
  have hyield : ∀ L : ObjectLabels, (saveYield vfs (objectVersions vfs c) L n).consume = L.consume := by
    intro L
    rw [saveYield]
    split
    · split
      · rfl
      · rfl
    · rfl
  rw [saveNode]
  cases (objectVersions vfs c).partOf n with
  | none => simp
  | some i =>
      dsimp only
      rw [hyield, saveConsume, if_neg (hov i)]
      dsimp only
      rw [Function.update_apply]
      simp

theorem saveNode_yield (n m : NodeID) (hm : vfs.isStore m = true) :
    (saveNode vfs (objectVersions vfs c) L n).yield m =
      if m = n ∧ ((objectVersions vfs c).partOf n).isSome ∧
          ((objectVersions vfs c).storesYieldedVersion n).isSome then
        (objectVersions vfs c).storesYieldedVersion n
      else L.yield m := by
  have hconsume : ∀ v, (saveConsume vfs L n v).yield = L.yield := by
    intro v
    rw [saveConsume]
    split
    · rfl
    · rfl
  rw [saveNode]
  cases (objectVersions vfs c).partOf n with
  | none => simp
  | some i =>
      dsimp only
      rw [saveYield]
      cases (objectVersions vfs c).storesYieldedVersion n with
      | none =>
          dsimp only
          rw [hconsume]
          simp
      | some y =>
          dsimp only
          by_cases hmn : m = n
          · subst hmn
            simp [hm]
          · split
            · dsimp only
              rw [Function.update_of_ne hmn, hconsume]
              simp [hmn]
            · rw [hconsume]
              simp [hmn]

theorem labelled_consume (nodes : List NodeID) (m : NodeID) : (labelled vfs c nodes).consume m =
    if m ∈ nodes then ((objectVersions vfs c).partOf m).map (objectVersions vfs c).sccToVersion
    else none := by
  induction nodes using List.reverseRecOn with
  | nil => rfl
  | append_singleton nodes n ih =>
      rw [labelled_append, saveNode_consume sccToVersion_ne, ih]
      by_cases hmn : m = n
      · subst hmn
        cases hpart : (objectVersions vfs c).partOf m <;> simp
      · simp [hmn]

theorem labelled_yield (nodes : List NodeID) (hm : vfs.isStore m = true) : (labelled vfs c nodes).yield m =
    if m ∈ nodes ∧ ((objectVersions vfs c).partOf m).isSome then
      (objectVersions vfs c).storesYieldedVersion m
    else none := by
  induction nodes using List.reverseRecOn with
  | nil => simp [labelled, ObjectLabels.empty]
  | append_singleton nodes n ih =>
      rw [labelled_append, saveNode_yield n m hm, ih]
      by_cases hmn : m = n
      · subst hmn
        cases hpart : (objectVersions vfs c).partOf m with
        | none => simp
        | some i =>
            cases hyield : (objectVersions vfs c).storesYieldedVersion m <;> simp
      · simp [hmn]

theorem complete_versionReliance (c : NodeID) :
    (complete vfs c).versionReliance = (objectVersions vfs c).versionReliance := by
  rw [complete, labelled]
  refine Util.Folds.foldl_invariant (I := fun L : ObjectLabels =>
    L.versionReliance = (objectVersions vfs c).versionReliance) (fun n _ L hL => ?_) rfl
  rw [versionReliance_saveNode, hL]

end

theorem mem_footprint (hclosed : Closed vfs) {e : SVFGEdge} :
    e ∈ footprint vfs o ↔ e ∈ vfs.svfg.edges ∧ carries o e = true ∧ Reached vfs o e.src := by
  refine ((detectSCCs_found hclosed).foot e).trans ?_
  rw [(detectSCCs_found hclosed).done_iff]
  rfl

theorem carries_of_footprint (hclosed : Closed vfs) (hfoot : footprint vfs c = footprint vfs o)
    {e : SVFGEdge} (he : e ∈ vfs.svfg.outEdges n) (hcarries : carries o e = true)
    (hreached : Reached vfs o n) : carries c e = true := by
  obtain ⟨hedge, hsrc⟩ := mem_outEdges.mp he
  have hmem := (mem_footprint hclosed).mpr ⟨hedge, hcarries, hsrc ▸ hreached⟩
  rw [← hfoot] at hmem
  exact ((mem_footprint hclosed).mp hmem).2.1

theorem Reached.of_footprint (hclosed : Closed vfs) (hfoot : footprint vfs c = footprint vfs o)
    (hstart : vfs.osStartingNodes c = vfs.osStartingNodes o) (h : Reached vfs o n) : Reached vfs c n := by
  obtain ⟨v, hv, hreach⟩ := h
  refine ⟨v, hstart ▸ hv, ?_⟩
  induction hreach with
  | refl => exact .refl
  | tail hreach hnext ih =>
      obtain ⟨e, he, hcarries, hdst, hnot⟩ := hnext
      exact ih.tail ⟨e, he, carries_of_footprint hclosed hfoot he hcarries ⟨v, hv, hreach⟩, hdst, hnot⟩

/-- What is consumed depends on the footprint and the starting nodes alone. -/
theorem Consumes.of_footprint (hclosed : Closed vfs) (hlabelled : Labelled vfs o)
    (hfoot : footprint vfs c = footprint vfs o) (hstart : vfs.osStartingNodes c = vfs.osStartingNodes o)
    (h : Consumes vfs o d n) : Consumes vfs c d n := by
  induction h with
  | self hd hstore => exact .self (hstart ▸ hd) hstore
  | store e hd hstore he hc hdelta =>
      exact .store e (hstart ▸ hd) hstore he
        (carries_of_footprint hclosed hfoot he hc (reached_starting hd)) hdelta
  | step n e h hstore he hc hdelta ih =>
      exact .step n e ih hstore he
        (carries_of_footprint hclosed hfoot he hc (h.reached hlabelled)) hdelta

theorem Labelled.of_footprint (hclosed : Closed vfs) (hlabelled : Labelled vfs o)
    (hfoot : footprint vfs c = footprint vfs o) (hstart : vfs.osStartingNodes c = vfs.osStartingNodes o) :
    Labelled vfs c := by
  intro e he hcarries hreached hignored
  have hmem := (mem_footprint hclosed).mpr ⟨he, hcarries, hreached⟩
  rw [hfoot, mem_footprint hclosed] at hmem
  rw [hstart]
  exact hlabelled e he hmem.2.1 hmem.2.2 hignored

theorem getConsume_eq {labels : NodeID → ObjectLabels} (hequiv : (labels o).equivalentObject = some c)
    (hcomplete : labels c = complete vfs c) (hn : n ∈ vfs.nodesWhichNeedVersions) :
    getConsume labels n o = consumed (objectVersions vfs c) n := by
  rw [getConsume, getVersion, hequiv]
  change ((labels c).consume n).getD invalidVersion = _
  rw [hcomplete, complete, labelled_consume, if_pos hn, consumed]

theorem getYield_eq (hclosed : Closed vfs) (hlabelled : Labelled vfs c) {labels : NodeID → ObjectLabels}
    (hequiv : (labels o).equivalentObject = some c) (hcomplete : labels c = complete vfs c)
    (hn : n ∈ vfs.nodesWhichNeedVersions) :
    getYield vfs labels n o = yielded vfs (objectVersions vfs c) n := by
  rw [getYield, yielded]
  cases hstore : vfs.isStore n with
  | false =>
      rw [if_neg Bool.false_ne_true, if_neg Bool.false_ne_true]
      exact getConsume_eq hequiv hcomplete hn
  | true =>
      rw [if_pos rfl, if_pos rfl, getVersion, hequiv]
      change ((labels c).yield n).getD invalidVersion = _
      rw [hcomplete, complete, labelled_yield _ hstore]
      by_cases hpart : ((objectVersions vfs c).partOf n).isSome = true
      · rw [if_pos ⟨hn, hpart⟩]
      · have hnot : ¬ Reached vfs c n := fun hreached =>
          hpart (((detectSCCs_found hclosed).done_iff n).mpr hreached)
        rw [if_neg fun h => hpart h.2, storesYieldedVersion_of_not_reached hclosed hlabelled hnot]

/-- The versions that a single thread leaves. The search may start anywhere; where it meets a store
or a delta node this has to be prelabeled for the object, and an object must have the starting nodes
of the owner of its footprint. -/
theorem meldLabel_correct (vfs : Versioning) (hclosed : Closed vfs) {objs : List NodeID}
    (hobjs : objs.Perm vfs.prelabeledObjects.elems) {s : MeldState 1}
    (hrun : ReflTransGen (AnyStep vfs) (start 1 objs) s) (hend : Finished s) {o : NodeID} (ho : o ∈ objs)
    (hlabelled : Labelled vfs o) (howner : ∀ c, (s.labels o).equivalentObject = some c →
      vfs.osStartingNodes c = vfs.osStartingNodes o) :
    (∀ n ∈ reachableNodes vfs o (detectSCCs vfs o).footprint,
      (∃ i < (detectSCCs vfs o).currentSCC, (detectSCCs vfs o).partOf n = some i) ∧
      ∀ e ∈ vfs.svfg.outEdges n, carries o e = true →
        ∃ j < (detectSCCs vfs o).currentSCC, (detectSCCs vfs o).partOf e.dst = some j) ∧
    (∀ n i, (detectSCCs vfs o).partOf n = some i →
      (∀ m, (detectSCCs vfs o).partOf m = some i ↔ Mutual vfs o n m) ∧
      ∀ m, Next vfs o n m → ¬ Mutual vfs o n m → ∃ j < i, (detectSCCs vfs o).partOf m = some j) ∧
    CorrectOn vfs o (fun _ => True) (consumed (objectVersions vfs o))
      (yielded vfs (objectVersions vfs o)) (objectVersions vfs o).versionReliance ∧
    CorrectOn vfs o (· ∈ vfs.nodesWhichNeedVersions) (getConsume s.labels · o)
      (getYield vfs s.labels · o) (s.labels o).versionReliance := by
  have hfound := detectSCCs_found (o := o) hclosed
  refine ⟨fun n hn => ?_, fun n i hi => ⟨hfound.done_part n i hi, fun m hnext hnot =>
    hfound.partOf_lt hi hnext hnot⟩, objectVersions_correct hclosed hlabelled, ?_⟩
  · have hreached := (mem_reachableNodes hclosed hfound hlabelled).mp hn
    exact ⟨exists_partOf hfound hreached, fun e he hcarries =>
      exists_partOf hfound (hlabelled.reached he hcarries hreached)⟩
  · have hnodup : objs.Nodup := hobjs.nodup_iff.mpr (Util.OrderedSets.nodup_elems _)
    obtain ⟨c, -, hequiv, hcomplete, hversion, -, hfoot⟩ :=
      (single_run hnodup hrun).1.owned Nat.one_pos hend ho
    have hstart := howner c hequiv
    have hlabelled' := Labelled.of_footprint hclosed hlabelled hfoot hstart
    have hcorrect := objectVersions_correct hclosed hlabelled'
    have hsame : ∀ d n, Consumes vfs c d n ↔ Consumes vfs o d n := fun d n =>
      ⟨Consumes.of_footprint hclosed hlabelled' hfoot.symm hstart.symm,
        Consumes.of_footprint hclosed hlabelled hfoot hstart⟩
    refine ⟨fun n m hn hm hnstore hmstore => ?_, fun e he hcarries hsrc hdst => ?_⟩
    · rw [getConsume_eq hequiv hcomplete hn, getConsume_eq hequiv hcomplete hm,
        hcorrect.same n m trivial trivial hnstore hmstore]
      simp only [hsame]
    · rw [getConsume_eq hequiv hcomplete hdst, getYield_eq hclosed hlabelled' hequiv hcomplete hsrc,
        hversion, hcomplete, complete_versionReliance]
      intro hvalid hne
      have hreached := Reached.of_footprint hclosed hfoot.symm hstart.symm
        (reached_of_yielded hclosed hlabelled' hvalid)
      have hedge : e ∈ vfs.svfg.outEdges e.src := mem_outEdges.mpr ⟨he, rfl⟩
      exact hcorrect.relies e he (carries_of_footprint hclosed hfoot hedge hcarries hreached) trivial
        trivial hvalid hne

/-- The object `12` has the versions of `11`. -/
theorem meldLabel_correct_sample : ∃ s : MeldState 1, Finished s ∧
    (s.labels 12).equivalentObject = some 11 ∧
      CorrectOn sample 12 (· ∈ sample.nodesWhichNeedVersions) (getConsume s.labels · 12)
        (getYield sample s.labels · 12) (s.labels 12).versionReliance := by
  have hrun : ((List.replicate 11 0).foldlM (next sample)
      (start 1 [11, 12])).map (fun s => ((s.labels 12).equivalentObject,
        decide (∀ t, s.workers t = .done))) = some (some 11, true) := by decide +kernel
  obtain ⟨s, hs, hview⟩ := Option.map_eq_some_iff.mp hrun
  simp only [Prod.mk.injEq, decide_eq_true_eq] at hview
  obtain ⟨hequiv, hend⟩ := hview
  have hobjs : [11, 12].Perm sample.prelabeledObjects.elems := by decide +kernel
  have hclosed : Closed sample := by decide +kernel
  have hlabelled : Labelled sample 12 := by
    intro e he _ _ hignored
    rw [List.mem_singleton.mp he] at hignored
    exact absurd hignored (by decide +kernel)
  have howner : ∀ c, (s.labels 12).equivalentObject = some c →
      sample.osStartingNodes c = sample.osStartingNodes 12 := by
    intro c hc
    rw [hequiv] at hc
    cases hc
    decide +kernel
  exact ⟨s, hend, hequiv, (meldLabel_correct sample hclosed hobjs (foldlM_next hs) hend (by decide)
    hlabelled howner).2.2.2⟩

/-- The object `11` is on the edge into a store that does not store to it. -/
def unlabelled : Versioning where
  svfg := {
    nodes := [0, 1]
    node := fun n => if n = 0 then .store 5 6 else .store 7 6
    edges := [⟨0, 1, .indirect (.set ∅ 11)⟩] }
  delta _ := false
  deltaSource _ := false
  ander p := if p = 5 then .set ∅ 11 else ∅
  mrPointsTo _ := ∅

/-- The node `1` is on the todo list, and the index for its component is `-1`. -/
theorem unlabelled_index : Closed unlabelled ∧ 11 ∈ unlabelled.prelabeledObjects ∧
    ¬ ∀ n ∈ reachableNodes unlabelled 11 (detectSCCs unlabelled 11).footprint,
      ∃ i < (detectSCCs unlabelled 11).currentSCC, (detectSCCs unlabelled 11).partOf n = some i := by
  refine ⟨by decide +kernel, by decide +kernel, fun h => ?_⟩
  have hmem : 1 ∈ reachableNodes unlabelled 11 (detectSCCs unlabelled 11).footprint := by decide +kernel
  obtain ⟨i, -, hi⟩ := h 1 hmem
  have hnone : (detectSCCs unlabelled 11).partOf 1 = none := by decide +kernel
  rw [hnone] at hi
  contradiction

end SVF.WPA.MeldLabelling
