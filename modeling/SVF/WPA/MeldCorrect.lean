import SVF.Util.Folds
import SVF.WPA.FootprintRuns
import SVF.WPA.MeldVersions

namespace SVF.WPA.MeldCorrect

open Relation Graphs.ConsG Graphs.ValueFlowGraph FootprintSCC FootprintInvariant FootprintRuns
open MeldVersions
open MemoryModel.PointsToSets (PointsTo)

variable {vfs : Versioning} {o d n m : NodeID} {s : SCC} {i j : ℕ}

def Reached (vfs : Versioning) (o n : NodeID) : Prop := ∃ v ∈ vfs.osStartingNodes o, Reach vfs o v n

/-- Where the search meets an edge to a store or to a delta node, the node is prelabeled for the
object. -/
def Labelled (vfs : Versioning) (o : NodeID) : Prop :=
  ∀ e ∈ vfs.svfg.edges, carries o e = true → Reached vfs o e.src → Ignored vfs e.dst →
    e.dst ∈ vfs.osStartingNodes o

/-- The label of the definition `d` is part of what `n` consumes. A store passes on its own label
only, and nothing is passed on to a delta node. -/
inductive Consumes (vfs : Versioning) (o d : NodeID) : NodeID → Prop
  | self (hd : d ∈ vfs.osStartingNodes o) (hstore : vfs.isStore d = false) : Consumes vfs o d d
  | store (e : SVFGEdge) (hd : d ∈ vfs.osStartingNodes o) (hstore : vfs.isStore d = true)
      (he : e ∈ vfs.svfg.outEdges d) (hcarries : carries o e = true)
      (hdelta : vfs.delta e.dst = false) : Consumes vfs o d e.dst
  | step (n : NodeID) (e : SVFGEdge) (h : Consumes vfs o d n) (hstore : vfs.isStore n = false)
      (he : e ∈ vfs.svfg.outEdges n) (hcarries : carries o e = true)
      (hdelta : vfs.delta e.dst = false) : Consumes vfs o d e.dst

theorem not_ignored (h : ¬ Ignored vfs n) : vfs.delta n = false ∧ vfs.isStore n = false := by
  rw [Ignored, not_or, Bool.not_eq_true, Bool.not_eq_true] at h
  exact h

theorem reached_starting (hn : n ∈ vfs.osStartingNodes o) : Reached vfs o n := ⟨n, hn, .refl⟩

theorem Reached.next (hn : Reached vfs o n) (hnext : Next vfs o n m) : Reached vfs o m := by
  obtain ⟨v, hv, hreach⟩ := hn
  exact ⟨v, hv, hreach.tail hnext⟩

theorem Labelled.reached (h : Labelled vfs o) {e : SVFGEdge} (he : e ∈ vfs.svfg.outEdges n)
    (hcarries : carries o e = true) (hn : Reached vfs o n) : Reached vfs o e.dst := by
  by_cases hignored : Ignored vfs e.dst
  · obtain ⟨hedge, hsrc⟩ := mem_outEdges.mp he
    exact reached_starting (h e hedge hcarries (hsrc ▸ hn) hignored)
  · exact hn.next ⟨e, he, hcarries, rfl, hignored⟩

theorem isPrelabeled_of_starting (hn : n ∈ vfs.osStartingNodes o) : vfs.isPrelabeled n = true := by
  rw [Versioning.osStartingNodes, List.mem_filter, Versioning.prelabeledNodes, List.mem_filter] at hn
  exact hn.1.2

theorem Reached.starting (hn : Reached vfs o n) (hpre : vfs.isPrelabeled n = true) :
    n ∈ vfs.osStartingNodes o := by
  have hignored : Ignored vfs n := by
    rw [Versioning.isPrelabeled, Bool.or_eq_true, Bool.and_eq_true] at hpre
    exact hpre.symm.imp_left And.left
  obtain ⟨v, hv, hreach⟩ := hn
  rw [← eq_of_reach_ignored hreach hignored]
  exact hv

theorem Consumes.starting (h : Consumes vfs o d n) : d ∈ vfs.osStartingNodes o := by
  induction h with
  | self hd _ => exact hd
  | store _ hd _ _ _ _ => exact hd
  | step _ _ _ _ _ _ _ ih => exact ih

theorem Consumes.reached (hlabelled : Labelled vfs o) (h : Consumes vfs o d n) : Reached vfs o n := by
  induction h with
  | self hd _ => exact reached_starting hd
  | store e hd _ he hcarries _ => exact hlabelled.reached he hcarries (reached_starting hd)
  | step n e _ _ he hcarries _ ih => exact hlabelled.reached he hcarries ih

theorem Consumes.reach (h : Consumes vfs o d n) (hstore : vfs.isStore n = false)
    (hreach : Reach vfs o n m) : Consumes vfs o d m ∧ vfs.isStore m = false := by
  refine @closed_of_reach vfs o (fun a => Consumes vfs o d a ∧ vfs.isStore a = false)
    (fun a ha b hb => ?_) n m hreach ⟨h, hstore⟩
  obtain ⟨e, he, hcarries, rfl, hnot⟩ := hb
  obtain ⟨hdelta, hdst⟩ := not_ignored hnot
  exact ⟨.step a e ha.1 ha.2 he hcarries hdelta, hdst⟩

/-- A store is a component of its own. -/
theorem eq_of_mutual_store (h : Mutual vfs o n m) (hm : vfs.isStore m = true) : n = m :=
  eq_of_reach_ignored h.1 (.inr hm)

theorem Consumes.mutual (h : Consumes vfs o d n) (hmut : Mutual vfs o n m) : Consumes vfs o d m := by
  cases hstore : vfs.isStore n with
  | true =>
      rw [← eq_of_mutual_store hmut.symm hstore] at h
      exact h
  | false => exact (h.reach hstore hmut.1).1

/-- Some label arrives wherever the search does, apart from the stores it starts at. -/
theorem Reached.consumes (h : Reached vfs o n) (hstore : vfs.isStore n = false) :
    ∃ d, Consumes vfs o d n := by
  obtain ⟨v, hv, hreach⟩ := h
  cases hvstore : vfs.isStore v with
  | false => exact ⟨v, ((Consumes.self hv hvstore).reach hvstore hreach).1⟩
  | true =>
      rcases hreach.cases_head with heq | ⟨w, hnext, hreach⟩
      · rw [heq, hstore] at hvstore
        contradiction
      · obtain ⟨e, he, hcarries, rfl, hnot⟩ := hnext
        obtain ⟨hdelta, hdst⟩ := not_ignored hnot
        exact ⟨v, ((Consumes.store e hv hvstore he hcarries hdelta).reach hdst hreach).1⟩

section

variable {l : List NodeID} {k b : ℕ}

/-- The label `b` is that of `n`, when the nodes `l` have labels from `k` on. -/
def HasLabel (l : List NodeID) (k b : ℕ) (n : NodeID) : Prop := ∃ t, b = k + t ∧ l[t]? = some n

theorem not_hasLabel_nil : ¬ HasLabel [] k b n := by
  rintro ⟨t, -, ht⟩
  simp at ht

theorem hasLabel_cons : HasLabel (m :: l) k b n ↔ (b = k ∧ m = n) ∨ HasLabel l (k + 1) b n := by
  constructor
  · rintro ⟨t, hb, ht⟩
    cases t with
    | zero => exact .inl ⟨hb, Option.some.inj ht⟩
    | succ t => exact .inr ⟨t, by omega, ht⟩
  · rintro (⟨hb, hmn⟩ | ⟨t, hb, ht⟩)
    · exact ⟨0, hb, congrArg some hmn⟩
    · exact ⟨t + 1, by omega, ht⟩

theorem hasLabel_singleton : HasLabel [m] k b n ↔ b = k ∧ m = n := by
  rw [hasLabel_cons]
  exact or_iff_left not_hasLabel_nil

theorem hasLabel_zero : HasLabel l 0 b n ↔ l[b]? = some n := by
  constructor
  · rintro ⟨t, hb, ht⟩
    rw [hb, Nat.zero_add]
    exact ht
  · exact fun h => ⟨b, (Nat.zero_add b).symm, h⟩

/-- What the nodes `l`, with labels from `k` on, put into the meld versions. -/
structure Prelabeled (vfs : Versioning) (s : SCC) (l : List NodeID) (k : ℕ) (m m' : Melding) : Prop where
  yielded : ∀ n (b : ℕ), b ∈ m'.storesYieldedMeldVersion n ↔ b ∈ m.storesYieldedMeldVersion n ∨
    (HasLabel l k b n ∧ vfs.isStore n = true)
  scc : ∀ i (b : ℕ), b ∈ m'.sccToMeldVersion i ↔ b ∈ m.sccToMeldVersion i ∨
    ∃ n, HasLabel l k b n ∧ vfs.isStore n = false ∧ s.partOf n = some i
  storeSCC : m'.storeSCC = m.storeSCC

theorem prelabeled_node (m : Melding) (k : ℕ) (hn : vfs.isPrelabeled n = true) :
    ∃ m', Melding.prelabelNode vfs s (m, k) n = (m', k + 1) ∧ Prelabeled vfs s [n] k m m' := by
  rw [Melding.prelabelNode, if_pos hn]
  cases hstore : vfs.isStore n with
  | true =>
      refine ⟨_, rfl, fun x b => ?_, fun i b => ?_, rfl⟩
      · dsimp only
        rw [Function.update_apply, hasLabel_singleton]
        split
        · rename_i hx
          rw [hx, MemoryModel.PointsToSets.mem_set]
          simp [hstore]
        · rename_i hx
          exact (or_iff_left fun h => hx h.1.2.symm).symm
      · refine (or_iff_left fun ⟨x, hx, hxstore, _⟩ => ?_).symm
        rw [← (hasLabel_singleton.mp hx).2, hstore] at hxstore
        contradiction
  | false =>
      have hyield : ∀ x (b : ℕ), ¬ (HasLabel [n] k b x ∧ vfs.isStore x = true) := by
        intro x b ⟨hx, hxstore⟩
        rw [← (hasLabel_singleton.mp hx).2, hstore] at hxstore
        contradiction
      cases hpart : s.partOf n with
      | none =>
          refine ⟨m, rfl, fun x b => (or_iff_left (hyield x b)).symm, fun i b => ?_, rfl⟩
          refine (or_iff_left fun ⟨x, hx, _, hi⟩ => ?_).symm
          rw [← (hasLabel_singleton.mp hx).2, hpart] at hi
          contradiction
      | some j =>
          refine ⟨m.meldScc j (PointsTo.set ∅ k), rfl, fun x b => (or_iff_left (hyield x b)).symm,
            fun i b => ?_, rfl⟩
          rw [Melding.meldScc]
          dsimp only
          rw [Function.update_apply]
          split
          · rename_i hi
            rw [hi, MemoryModel.PointsToSets.mem_union, MemoryModel.PointsToSets.mem_set]
            simp [hasLabel_singleton, hstore, hpart]
          · rename_i hi
            refine (or_iff_left fun ⟨x, hx, _, hxi⟩ => ?_).symm
            rw [← (hasLabel_singleton.mp hx).2, hpart] at hxi
            exact hi (Option.some.inj hxi).symm

theorem prelabeled_foldl (vfs : Versioning) (s : SCC) (l : List NodeID) (m : Melding) (k : ℕ) :
    Prelabeled vfs s (l.filter vfs.isPrelabeled) k m
      (l.foldl (Melding.prelabelNode vfs s) (m, k)).1 := by
  induction l generalizing m k with
  | nil =>
      refine ⟨fun x b => ?_, fun i b => ?_, rfl⟩
      · exact (or_iff_left fun h => not_hasLabel_nil h.1).symm
      · exact (or_iff_left fun ⟨_, h, _⟩ => not_hasLabel_nil h).symm
  | cons n l ih =>
      rw [List.foldl_cons]
      by_cases hn : vfs.isPrelabeled n = true
      · obtain ⟨m', hm', hnode⟩ := prelabeled_node (s := s) m k hn
        have hrest := ih m' (k + 1)
        rw [List.filter_cons_of_pos hn, hm']
        refine ⟨fun x b => ?_, fun i b => ?_, hrest.storeSCC.trans hnode.storeSCC⟩
        · rw [hrest.yielded, hnode.yielded, or_assoc]
          simp only [hasLabel_cons, not_hasLabel_nil, or_false, or_and_right]
        · rw [hrest.scc, hnode.scc, or_assoc, ← exists_or]
          simp only [hasLabel_cons, not_hasLabel_nil, or_false, or_and_right]
      · rw [List.filter_cons_of_neg hn, Melding.prelabelNode, if_neg hn]
        exact ih m k

end

def passed (vfs : Versioning) (m : Melding) (n i : ℕ) : MeldVersion :=
  if vfs.isStore n then m.storesYieldedMeldVersion n else m.sccToMeldVersion i

def Passes (vfs : Versioning) (o : NodeID) (s : SCC) (n i j : ℕ) (e : SVFGEdge) : Prop :=
  carries o e = true ∧ s.partOf e.dst = some j ∧ vfs.delta e.dst = false ∧
    (i ≠ j ∨ vfs.isStore n = true)

structure Passed (vfs : Versioning) (o : NodeID) (s : SCC) (n i : ℕ) (e : SVFGEdge) (m m' : Melding) :
    Prop where
  yielded : m'.storesYieldedMeldVersion = m.storesYieldedMeldVersion
  storeSCC : m'.storeSCC = m.storeSCC
  scc : ∀ j b, b ∈ m'.sccToMeldVersion j ↔ b ∈ m.sccToMeldVersion j ∨
    (Passes vfs o s n i j e ∧ b ∈ passed vfs m n i)
  reliance : ∀ k j, j ∈ m'.sccReliance k ↔ j ∈ m.sccReliance k ∨
    (k = i ∧ carries o e = true ∧ s.partOf e.dst = some j)

theorem meldEdge_passed (n i : ℕ) (m : Melding) (e : SVFGEdge) :
    Passed vfs o s n i e m (Melding.meldEdge vfs s o n i m e) := by
  rw [Melding.meldEdge]
  by_cases hcarries : carries o e = true
  · rw [if_pos hcarries]
    cases hpart : s.partOf e.dst with
    | none =>
        refine ⟨rfl, rfl, fun j b => (or_iff_left fun h => ?_).symm,
          fun k j => (or_iff_left fun h => ?_).symm⟩
        · rw [h.1.2.1] at hpart
          contradiction
        · rw [h.2.2] at hpart
          contradiction
    | some j' =>
        have hreliance : ∀ k j, j ∈ Function.update m.sccReliance i ((m.sccReliance i).insert j') k ↔
            j ∈ m.sccReliance k ∨ (k = i ∧ carries o e = true ∧ s.partOf e.dst = some j) := by
          intro k j
          rw [Function.update_apply]
          split
          · rename_i hk
            rw [List.mem_insert_iff, hk, hpart]
            simp [hcarries, or_comm, eq_comm]
          · rename_i hk
            exact (or_iff_left fun h => hk h.1).symm
        dsimp only
        by_cases hpass : (!vfs.delta e.dst && (decide (i ≠ j') || vfs.isStore n)) = true
        · rw [if_pos hpass]
          have hpasses : ∀ j, Passes vfs o s n i j e ↔ j = j' := by
            intro j
            rw [Bool.and_eq_true, Bool.or_eq_true, decide_eq_true_iff, Bool.not_eq_true'] at hpass
            refine ⟨fun h => ?_, fun h => ?_⟩
            · exact Option.some.inj (h.2.1.symm.trans hpart)
            · rw [h]
              exact ⟨hcarries, hpart, hpass⟩
          refine ⟨rfl, rfl, fun j b => ?_, hreliance⟩
          rw [hpasses, Melding.meldScc]
          dsimp only
          rw [Function.update_apply]
          split
          · rename_i hj
            rw [hj, MemoryModel.PointsToSets.mem_union, passed]
            exact or_congr_right (by simp)
          · rename_i hj
            exact (or_iff_left fun h => hj h.1).symm
        · rw [if_neg hpass]
          refine ⟨rfl, rfl, fun j b => (or_iff_left fun h => hpass ?_).symm, hreliance⟩
          obtain ⟨-, hj, hdelta, hij⟩ := h.1
          rw [Option.some.inj (hpart.symm.trans hj), hdelta, Bool.and_eq_true, Bool.or_eq_true,
            decide_eq_true_iff]
          exact ⟨rfl, hij⟩
  · rw [if_neg hcarries]
    exact ⟨rfl, rfl, fun j b => (or_iff_left fun h => hcarries h.1.1).symm,
      fun k j => (or_iff_left fun h => hcarries h.2.1).symm⟩

structure Extends (m m' : Melding) : Prop where
  yielded : m'.storesYieldedMeldVersion = m.storesYieldedMeldVersion
  scc : ∀ i, ∀ b ∈ m.sccToMeldVersion i, b ∈ m'.sccToMeldVersion i
  reliance : ∀ i, m.sccReliance i ⊆ m'.sccReliance i
  storeSCC : ∀ i, (m.storeSCC i).isSome → (m'.storeSCC i).isSome

instance : Std.Refl Extends := ⟨fun _ => ⟨rfl, fun _ _ h => h, fun _ => List.Subset.refl _, fun _ h => h⟩⟩

instance : IsTrans Melding Extends where
  trans _ _ _ h h' := ⟨h'.yielded.trans h.yielded, fun i b hb => h'.scc i b (h.scc i b hb),
    fun i => List.Subset.trans (h.reliance i) (h'.reliance i),
    fun i hi => h'.storeSCC i (h.storeSCC i hi)⟩

theorem Passed.extends {e : SVFGEdge} {m m' : Melding} (h : Passed vfs o s n i e m m') : Extends m m' where
  yielded := h.yielded
  scc j b hb := (h.scc j b).mpr (.inl hb)
  reliance k j hj := (h.reliance k j).mpr (.inl hj)
  storeSCC k hk := by
    rw [h.storeSCC]
    exact hk

def noteStore (vfs : Versioning) (m : Melding) (n i : ℕ) : Melding :=
  if vfs.isStore n then { m with storeSCC := Function.update m.storeSCC i (some n) } else m

theorem meldNode_of_some (m : Melding) (hn : s.partOf n = some i) : Melding.meldNode vfs s o m n =
    (vfs.svfg.outEdges n).foldl (Melding.meldEdge vfs s o n i) (noteStore vfs m n i) := by
  rw [Melding.meldNode, hn]
  rfl

theorem meldNode_of_none (m : Melding) (hn : s.partOf n = none) : Melding.meldNode vfs s o m n = m := by
  rw [Melding.meldNode, hn]

theorem noteStore_scc (vfs : Versioning) (m : Melding) (n i : ℕ) :
    (noteStore vfs m n i).sccToMeldVersion = m.sccToMeldVersion ∧
      (noteStore vfs m n i).storesYieldedMeldVersion = m.storesYieldedMeldVersion ∧
      (noteStore vfs m n i).sccReliance = m.sccReliance := by
  rw [noteStore]
  split
  · exact ⟨rfl, rfl, rfl⟩
  · exact ⟨rfl, rfl, rfl⟩

theorem noteStore_extends (m : Melding) (n i : ℕ) : Extends m (noteStore vfs m n i) := by
  obtain ⟨hscc, hyield, hrel⟩ := noteStore_scc vfs m n i
  refine ⟨hyield, fun j b hb => hscc ▸ hb, fun j => hrel ▸ List.Subset.refl _, fun j hj => ?_⟩
  rw [noteStore]
  split
  · dsimp only
    rw [Function.update_apply]
    split
    · rfl
    · exact hj
  · exact hj

theorem meldEdges_extends (n i : ℕ) (es : List SVFGEdge) (m : Melding) :
    Extends m (es.foldl (Melding.meldEdge vfs s o n i) m) :=
  Util.Folds.foldl_rel Extends (fun e _ m => (meldEdge_passed n i m e).extends) m

theorem meldNode_extends (m : Melding) (n : NodeID) : Extends m (Melding.meldNode vfs s o m n) := by
  cases hn : s.partOf n with
  | none =>
      rw [meldNode_of_none m hn]
      exact refl_of Extends m
  | some i =>
      rw [meldNode_of_some m hn]
      exact trans_of Extends (noteStore_extends m n i) (meldEdges_extends n i _ _)

theorem meldNodes_extends (l : List NodeID) (m : Melding) :
    Extends m (l.foldl (Melding.meldNode vfs s o) m) :=
  Util.Folds.foldl_rel Extends (fun n _ m => meldNode_extends m n) m

theorem meldNodes_covers {l : List NodeID} {Q : Melding → Prop} (hQ : ∀ m m', Extends m m' → Q m → Q m')
    {m : Melding} (hn : n ∈ l) (hpart : s.partOf n = some i) {e : SVFGEdge}
    (he : e ∈ vfs.svfg.outEdges n)
    (h : ∀ m', Extends m m' → Q (Melding.meldEdge vfs s o n i m' e)) :
    Q (l.foldl (Melding.meldNode vfs s o) m) := by
  refine Util.Folds.foldl_covers Extends (fun x _ m => meldNode_extends m x) hQ hn fun t ht => ?_
  rw [meldNode_of_some t hpart]
  refine Util.Folds.foldl_covers Extends (fun e _ m => (meldEdge_passed n i m e).extends) hQ he
    fun u hu => h u ?_
  exact trans_of Extends ht (trans_of Extends (noteStore_extends t n i) hu)

theorem mem_reliance {l : List NodeID} (m : Melding) (hn : n ∈ l) (hpart : s.partOf n = some i)
    {e : SVFGEdge} (he : e ∈ vfs.svfg.outEdges n) (hcarries : carries o e = true)
    (hj : s.partOf e.dst = some j) : j ∈ (l.foldl (Melding.meldNode vfs s o) m).sccReliance i :=
  @meldNodes_covers vfs o n s i l (fun m => j ∈ m.sccReliance i) (fun _ _ hm h => hm.reliance i h)
    m hn hpart e he fun m' _ => ((meldEdge_passed n i m' e).reliance i j).mpr (.inr ⟨rfl, hcarries, hj⟩)

theorem mem_scc_of_store {l : List NodeID} {m : Melding} (hn : n ∈ l) (hpart : s.partOf n = some i)
    {e : SVFGEdge} (he : e ∈ vfs.svfg.outEdges n) (hcarries : carries o e = true)
    (hj : s.partOf e.dst = some j) (hdelta : vfs.delta e.dst = false) (hstore : vfs.isStore n = true)
    {b : ℕ} (hb : b ∈ m.storesYieldedMeldVersion n) :
    b ∈ (l.foldl (Melding.meldNode vfs s o) m).sccToMeldVersion j := by
  refine @meldNodes_covers vfs o n s i l (fun m => b ∈ m.sccToMeldVersion j)
    (fun _ _ hm h => hm.scc j b h) m hn hpart e he fun m' hm' => ?_
  refine ((meldEdge_passed n i m' e).scc j b).mpr (.inr ⟨⟨hcarries, hj, hdelta, .inr hstore⟩, ?_⟩)
  rw [passed, if_pos hstore, hm'.yielded]
  exact hb

/-- The component of `n` has its final meld version, when nodes with larger numbers are through. -/
theorem scc_meldNode_eq (hfound : Found vfs o s) (hpart : s.partOf n = some i)
    (hstore : vfs.isStore n = false) {r : NodeID} (hr : ∀ k, s.partOf r = some k → k ≤ i) (m : Melding) :
    (Melding.meldNode vfs s o m r).sccToMeldVersion i = m.sccToMeldVersion i := by
  -- the node of another component or a store that an edge leads to is not in this component
  have hnotStore : ∀ w, s.partOf w = some i → vfs.isStore w = false := by
    intro w hw
    by_contra hwstore
    rw [Bool.not_eq_false] at hwstore
    rw [eq_of_mutual_store ((hfound.done_part n i hpart w).mp hw) hwstore, hwstore] at hstore
    contradiction
  cases hk : s.partOf r with
  | none => rw [meldNode_of_none m hk]
  | some k =>
      have hnot : ∀ e ∈ vfs.svfg.outEdges r, ¬ Passes vfs o s r k i e := by
        intro e he hpasses
        obtain ⟨hcarries, hdst, hdelta, hor⟩ := hpasses
        have hnext : Next vfs o r e.dst := by
          refine ⟨e, he, hcarries, rfl, fun hignored => ?_⟩
          rcases hignored with h | h
          · rw [hdelta] at h
            contradiction
          · rw [hnotStore e.dst hdst] at h
            contradiction
        obtain ⟨j, hle, hj⟩ := hfound.done_edge r k hk e.dst hnext
        rw [hdst, Option.some_inj] at hj
        have hki : k = i := Nat.le_antisymm (hr k hk) (hj ▸ hle)
        rcases hor with hne | hrstore
        · exact hne hki
        · rw [hnotStore r (hki ▸ hk)] at hrstore
          contradiction
      rw [meldNode_of_some m hk]
      refine Util.Folds.foldl_invariant
        (I := fun m' : Melding => m'.sccToMeldVersion i = m.sccToMeldVersion i) ?_ ?_
      · intro e he m' hm'
        refine MemoryModel.PointsToSets.ext fun b => ?_
        rw [(meldEdge_passed r k m' e).scc, hm']
        exact or_iff_left fun h => hnot e he h.1
      · rw [(noteStore_scc vfs m r k).1]

theorem scc_meldNodes_eq (hfound : Found vfs o s) (hpart : s.partOf n = some i)
    (hstore : vfs.isStore n = false) {l : List NodeID} (hl : ∀ r ∈ l, ∀ k, s.partOf r = some k → k ≤ i)
    (m : Melding) :
    (l.foldl (Melding.meldNode vfs s o) m).sccToMeldVersion i = m.sccToMeldVersion i := by
  refine Util.Folds.foldl_invariant
    (I := fun m' : Melding => m'.sccToMeldVersion i = m.sccToMeldVersion i) ?_ rfl
  intro r hr m' hm'
  rw [scc_meldNode_eq hfound hpart hstore (hl r hr), hm']

theorem mem_scc_of_not_store (hfound : Found vfs o s) {l : List NodeID}
    (hsorted : l.Pairwise fun a b =>
      ((s.partOf b).map (· + 1)).getD 0 ≤ ((s.partOf a).map (· + 1)).getD 0)
    {m : Melding} (hn : n ∈ l) (hpart : s.partOf n = some i) (hstore : vfs.isStore n = false)
    {e : SVFGEdge} (he : e ∈ vfs.svfg.outEdges n) (hcarries : carries o e = true)
    (hj : s.partOf e.dst = some j) (hdelta : vfs.delta e.dst = false) {b : ℕ}
    (hb : b ∈ (l.foldl (Melding.meldNode vfs s o) m).sccToMeldVersion i) :
    b ∈ (l.foldl (Melding.meldNode vfs s o) m).sccToMeldVersion j := by
  obtain ⟨pre, post, hl⟩ := List.append_of_mem hn
  have hlate : ∀ r ∈ n :: post, ∀ k, s.partOf r = some k → k ≤ i := by
    rw [hl] at hsorted
    intro r hr k hk
    rcases List.mem_cons.mp hr with rfl | hr
    · exact (Option.some.inj (hpart.symm.trans hk)).ge
    · have hle := (List.pairwise_cons.mp (List.pairwise_append.mp hsorted).2.1).1 r hr
      rw [hpart, hk] at hle
      exact Nat.le_of_succ_le_succ hle
  rw [hl, List.foldl_append] at hb ⊢
  rw [scc_meldNodes_eq hfound hpart hstore hlate] at hb
  refine @meldNodes_covers vfs o n s i (n :: post) (fun m => b ∈ m.sccToMeldVersion j)
    (fun _ _ hm h => hm.scc j b h) _ List.mem_cons_self hpart e he fun m' hm' => ?_
  rw [(meldEdge_passed n i m' e).scc j b]
  by_cases hij : i = j
  · exact .inl (hij ▸ hm'.scc i b hb)
  · refine .inr ⟨⟨hcarries, hj, hdelta, .inl hij⟩, ?_⟩
    rw [passed, if_neg (Bool.eq_false_iff.mp hstore)]
    exact hm'.scc i b hb

theorem storeSCC_sound (l : List NodeID) {m : Melding}
    (hm : ∀ i n, m.storeSCC i = some n → vfs.isStore n = true ∧ s.partOf n = some i) :
    ∀ i n, (l.foldl (Melding.meldNode vfs s o) m).storeSCC i = some n →
      vfs.isStore n = true ∧ s.partOf n = some i := by
  refine Util.Folds.foldl_invariant (I := fun m : Melding => ∀ i n, m.storeSCC i = some n →
    vfs.isStore n = true ∧ s.partOf n = some i) ?_ hm
  intro r _ m hm i n hn
  cases hr : s.partOf r with
  | none =>
      rw [meldNode_of_none m hr] at hn
      exact hm i n hn
  | some k =>
      have hedges : ((vfs.svfg.outEdges r).foldl (Melding.meldEdge vfs s o r k)
          (noteStore vfs m r k)).storeSCC = (noteStore vfs m r k).storeSCC := by
        refine Util.Folds.foldl_invariant (I := fun m' : Melding =>
          m'.storeSCC = (noteStore vfs m r k).storeSCC) ?_ rfl
        exact fun e _ m' hm' => (meldEdge_passed r k m' e).storeSCC.trans hm'
      rw [meldNode_of_some m hr, hedges, noteStore] at hn
      by_cases hstore : vfs.isStore r = true
      · rw [if_pos hstore] at hn
        dsimp only at hn
        rw [Function.update_apply] at hn
        split at hn
        · rename_i hik
          rw [← Option.some.inj hn, hik]
          exact ⟨hstore, hr⟩
        · exact hm i n hn
      · rw [if_neg hstore] at hn
        exact hm i n hn

theorem storeSCC_isSome {l : List NodeID} (m : Melding) (hn : n ∈ l) (hpart : s.partOf n = some i)
    (hstore : vfs.isStore n = true) :
    ((l.foldl (Melding.meldNode vfs s o) m).storeSCC i).isSome = true := by
  refine Util.Folds.foldl_covers Extends (fun x _ m => meldNode_extends m x)
    (Q := fun m : Melding => (m.storeSCC i).isSome = true) (fun _ _ hm h => hm.storeSCC i h) hn
    fun t _ => ?_
  rw [meldNode_of_some t hpart]
  refine (meldEdges_extends n i _ _).storeSCC i ?_
  rw [noteStore, if_pos hstore]
  dsimp only
  rw [Function.update_self]
  rfl

section

variable (hclosed : Closed vfs) (hfound : Found vfs o s) (hlabelled : Labelled vfs o)

include hclosed hfound hlabelled

theorem mem_reachableNodes : n ∈ reachableNodes vfs o s.footprint ↔ Reached vfs o n := by
  rw [reachableNodes, List.mem_filter, Bool.or_eq_true, decide_eq_true_iff, List.any_eq_true]
  constructor
  · rintro ⟨-, hn | ⟨e, he, hn⟩⟩
    · exact reached_starting hn
    · obtain ⟨hedge, hcarries, hsrc⟩ := (hfound.foot e).mp he
      have hreached := (hfound.done_iff e.src).mp hsrc
      rw [Bool.or_eq_true, decide_eq_true_iff, decide_eq_true_iff] at hn
      rcases hn with rfl | rfl
      · exact hreached
      · exact hlabelled.reached (mem_outEdges.mpr ⟨hedge, rfl⟩) hcarries hreached
  · intro hn
    obtain ⟨v, hv, hreach⟩ := hn
    rcases hreach.cases_tail with rfl | ⟨w, hw, e, he, hcarries, rfl, hnot⟩
    · exact ⟨starting_mem hv, .inl hv⟩
    · obtain ⟨hedge, hsrc⟩ := mem_outEdges.mp he
      have hfoot := (hfound.foot e).mpr ⟨hedge, hcarries, (hfound.done_iff e.src).mpr
        ⟨v, hv, hsrc ▸ hw⟩⟩
      exact ⟨(hclosed e hedge).2, .inr ⟨e, hfoot, by simp⟩⟩

theorem mem_todoList : n ∈ todoList s (reachableNodes vfs o s.footprint) ↔ Reached vfs o n := by
  rw [todoList, List.mem_insertionSort, mem_reachableNodes hclosed hfound hlabelled]

omit hclosed hlabelled in
theorem exists_partOf (hn : Reached vfs o n) : ∃ i < s.currentSCC, s.partOf n = some i := by
  obtain ⟨i, hi⟩ := Option.isSome_iff_exists.mp ((hfound.done_iff n).mpr hn)
  exact ⟨i, hfound.part_lt n i hi, hi⟩

def definitions (vfs : Versioning) (o : NodeID) (s : SCC) : List NodeID :=
  (reachableNodes vfs o s.footprint).filter vfs.isPrelabeled

theorem mem_definitions : d ∈ definitions vfs o s ↔ d ∈ vfs.osStartingNodes o := by
  rw [definitions, List.mem_filter, mem_reachableNodes hclosed hfound hlabelled]
  exact ⟨fun h => h.1.starting h.2, fun h => ⟨reached_starting h, isPrelabeled_of_starting h⟩⟩

omit hclosed hfound hlabelled in
theorem todoList_sorted (s : SCC) (nodes : List NodeID) : (todoList s nodes).Pairwise fun a b =>
    ((s.partOf b).map (· + 1)).getD 0 ≤ ((s.partOf a).map (· + 1)).getD 0 := by
  have htotal : Std.Total fun a b : NodeID =>
      ((s.partOf b).map (· + 1)).getD 0 ≤ ((s.partOf a).map (· + 1)).getD 0 :=
    ⟨fun a b => Nat.le_total _ _⟩
  have htrans : IsTrans NodeID fun a b =>
      ((s.partOf b).map (· + 1)).getD 0 ≤ ((s.partOf a).map (· + 1)).getD 0 :=
    ⟨fun a b c hab hbc => Nat.le_trans hbc hab⟩
  exact List.pairwise_insertionSort _ nodes

/-- Every bit is the label of a definition: of the store that yields it, or of one that is consumed
in the component. -/
structure Sound (vfs : Versioning) (o : NodeID) (s : SCC) (m : Melding) : Prop where
  yielded : ∀ n (b : ℕ), b ∈ m.storesYieldedMeldVersion n → (definitions vfs o s)[b]? = some n
  scc : ∀ i (b : ℕ), b ∈ m.sccToMeldVersion i →
    ∃ d n, (definitions vfs o s)[b]? = some d ∧ s.partOf n = some i ∧ Consumes vfs o d n

theorem starting_of_getElem {b : ℕ} (hd : (definitions vfs o s)[b]? = some d) :
    d ∈ vfs.osStartingNodes o :=
  (mem_definitions hclosed hfound hlabelled).mp (List.mem_of_getElem? hd)

theorem sound_prelabel : Sound vfs o s ((reachableNodes vfs o s.footprint).foldl
    (Melding.prelabelNode vfs s) (.new, 0)).1 := by
  have hpre := prelabeled_foldl vfs s (reachableNodes vfs o s.footprint) .new 0
  refine ⟨fun n b hb => ?_, fun i b hb => ?_⟩
  · rcases (hpre.yielded n b).mp hb with hnew | ⟨hlabel, -⟩
    · exact absurd hnew (MemoryModel.PointsToSets.notMem_empty b)
    · exact hasLabel_zero.mp hlabel
  · rcases (hpre.scc i b).mp hb with hnew | ⟨n, hlabel, hstore, hi⟩
    · exact absurd hnew (MemoryModel.PointsToSets.notMem_empty b)
    · have hd := hasLabel_zero.mp hlabel
      exact ⟨n, n, hd, hi, .self (starting_of_getElem hclosed hfound hlabelled hd) hstore⟩

theorem Sound.edge {m m' : Melding} (h : Sound vfs o s m) (hi : s.partOf n = some i) {e : SVFGEdge}
    (he : e ∈ vfs.svfg.outEdges n) (hpassed : Passed vfs o s n i e m m') : Sound vfs o s m' := by
  refine ⟨fun x b hb => h.yielded x b (hpassed.yielded ▸ hb), fun j b hb => ?_⟩
  rcases (hpassed.scc j b).mp hb with hb | ⟨⟨hcarries, hj, hdelta, -⟩, hb⟩
  · exact h.scc j b hb
  · cases hstore : vfs.isStore n with
    | true =>
        rw [passed, if_pos hstore] at hb
        have hd := h.yielded n b hb
        have hstart := starting_of_getElem hclosed hfound hlabelled hd
        exact ⟨n, e.dst, hd, hj, .store e hstart hstore he hcarries hdelta⟩
    | false =>
        rw [passed, if_neg (Bool.eq_false_iff.mp hstore)] at hb
        obtain ⟨d, n', hd, hn', hconsumes⟩ := h.scc i b hb
        have hmut := (hfound.done_part n' i hn' n).mp hi
        exact ⟨d, e.dst, hd, hj, .step n e (hconsumes.mutual hmut) hstore he hcarries hdelta⟩

theorem sound_melding : Sound vfs o s (melding vfs s o) := by
  refine Util.Folds.foldl_invariant (I := Sound vfs o s) (fun n _ m hm => ?_)
    (sound_prelabel hclosed hfound hlabelled)
  cases hi : s.partOf n with
  | none =>
      rw [meldNode_of_none m hi]
      exact hm
  | some i =>
      rw [meldNode_of_some m hi]
      refine Util.Folds.foldl_invariant (I := Sound vfs o s) (fun e he m hm => ?_) ?_
      · exact hm.edge hclosed hfound hlabelled hi he (meldEdge_passed n i m e)
      · obtain ⟨hscc, hyielded, -⟩ := noteStore_scc vfs m n i
        exact ⟨hyielded ▸ hm.yielded, hscc ▸ hm.scc⟩

/-- Every label arrives. -/
theorem mem_scc_of_consumes {b : ℕ} (hd : (definitions vfs o s)[b]? = some d)
    (h : Consumes vfs o d n) (hi : s.partOf n = some i) :
    b ∈ (melding vfs s o).sccToMeldVersion i := by
  have hpre := prelabeled_foldl vfs s (reachableNodes vfs o s.footprint) .new 0
  induction h generalizing i with
  | self _ hstore =>
      refine (meldNodes_extends _ _).scc i b ?_
      exact (hpre.scc i b).mpr (.inr ⟨d, hasLabel_zero.mpr hd, hstore, hi⟩)
  | store e hstart hstore he hcarries hdelta =>
      have hreached := reached_starting hstart
      obtain ⟨k, -, hk⟩ := exists_partOf hfound hreached
      refine mem_scc_of_store ((mem_todoList hclosed hfound hlabelled).mpr hreached) hk he hcarries hi
        hdelta hstore ?_
      exact (hpre.yielded d b).mpr (.inr ⟨hasLabel_zero.mpr hd, hstore⟩)
  | step n e h hstore he hcarries hdelta ih =>
      have hreached := h.reached hlabelled
      obtain ⟨k, -, hk⟩ := exists_partOf hfound hreached
      exact mem_scc_of_not_store hfound (todoList_sorted s _)
        ((mem_todoList hclosed hfound hlabelled).mpr hreached) hk hstore he hcarries hi hdelta (ih hk)

theorem mem_scc_iff (hi : s.partOf n = some i) {b : ℕ} : b ∈ (melding vfs s o).sccToMeldVersion i ↔
    ∃ d, (definitions vfs o s)[b]? = some d ∧ Consumes vfs o d n := by
  constructor
  · intro hb
    obtain ⟨d, n', hd, hn', hconsumes⟩ := (sound_melding hclosed hfound hlabelled).scc i b hb
    exact ⟨d, hd, hconsumes.mutual ((hfound.done_part n' i hn' n).mp hi)⟩
  · rintro ⟨d, hd, hconsumes⟩
    exact mem_scc_of_consumes hclosed hfound hlabelled hd hconsumes hi

theorem scc_eq_iff (hi : s.partOf n = some i) (hj : s.partOf m = some j) :
    (melding vfs s o).sccToMeldVersion i = (melding vfs s o).sccToMeldVersion j ↔
      ∀ d, Consumes vfs o d n ↔ Consumes vfs o d m := by
  constructor
  · have hone : ∀ {a b : NodeID} {k l : ℕ}, s.partOf a = some k → s.partOf b = some l →
        (melding vfs s o).sccToMeldVersion k = (melding vfs s o).sccToMeldVersion l →
          ∀ d, Consumes vfs o d a → Consumes vfs o d b := by
      intro a b k l hk hl heq d h
      obtain ⟨t, ht⟩ := List.getElem?_of_mem
        ((mem_definitions hclosed hfound hlabelled).mpr h.starting)
      have hmem := (mem_scc_iff hclosed hfound hlabelled hk).mpr ⟨d, ht, h⟩
      rw [heq, mem_scc_iff hclosed hfound hlabelled hl] at hmem
      obtain ⟨d', hd', hconsumes⟩ := hmem
      rw [Option.some.inj (ht.symm.trans hd')]
      exact hconsumes
    exact fun heq d => ⟨hone hi hj heq d, hone hj hi heq.symm d⟩
  · intro h
    refine MemoryModel.PointsToSets.ext fun b => ?_
    rw [mem_scc_iff hclosed hfound hlabelled hi, mem_scc_iff hclosed hfound hlabelled hj]
    simp only [h]

end

end SVF.WPA.MeldCorrect
