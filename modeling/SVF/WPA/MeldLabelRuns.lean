import Mathlib.Algebra.BigOperators.Fin
import SVF.Util.Loops
import SVF.WPA.MeldLabelWorkers

namespace SVF.WPA.MeldLabelRuns

open Relation Graphs.ConsG Graphs.ValueFlowGraph FootprintSCC MeldVersions MeldLabelWorkers
open MemoryModel.PointsToSets (PointsTo)

variable {vfs : Versioning} {threads : ℕ} {objs : List NodeID} {s s' : MeldState threads}
variable {t : Fin threads} {o c : NodeID}

/-- Nothing is stored for the object, and it owns no footprint. -/
def Fresh (vfs : Versioning) (s : MeldState threads) (o : NodeID) : Prop :=
  s.labels o = .empty ∧ s.footprintOwner (footprint vfs o) ≠ some o

def WorkerOK (vfs : Versioning) (s : MeldState threads) : Worker → Prop
  | .idle | .done => True
  | .popped o | .detected o => Fresh vfs s o
  | .versioning o => s.labels o = { ObjectLabels.empty with equivalentObject := some o } ∧
      s.footprintOwner (footprint vfs o) = some o
  | .saving o rest => s.footprintOwner (footprint vfs o) = some o ∧
      ∃ pre, vfs.nodesWhichNeedVersions = pre ++ rest ∧ s.labels o = labelled vfs o pre

structure Inv (vfs : Versioning) (objs : List NodeID) (s : MeldState threads) : Prop where
  nodup : s.objectQueue.Nodup
  unique : ∀ t t' o, (s.workers t).object = some o → (s.workers t').object = some o → t = t'
  taken : ∀ t o, (s.workers t).object = some o → o ∉ s.objectQueue ∧ o ∈ objs
  queued : ∀ o ∈ s.objectQueue, o ∈ objs ∧ Fresh vfs s o
  working : ∀ t, WorkerOK vfs s (s.workers t)
  processed : ∀ o ∈ objs, o ∉ s.objectQueue → (∀ t, (s.workers t).object ≠ some o) →
    s.labels o = expected vfs s.footprintOwner o ∧ s.footprintOwner (footprint vfs o) ≠ none
  outside : ∀ o ∉ objs, s.labels o = .empty
  owner : ∀ fp c, s.footprintOwner fp = some c → c ∈ objs ∧ footprint vfs c = fp
  left : ∀ t, s.workers t = .done → s.objectQueue = []

theorem inv_start (vfs : Versioning) (threads : ℕ) (hobjs : objs.Nodup) :
    Inv vfs objs (start threads objs) where
  nodup := hobjs
  unique _ _ _ h _ := by cases h
  taken _ _ h := by cases h
  queued _ ho := ⟨ho, rfl, fun h => by cases h⟩
  working _ := trivial
  processed _ ho hq _ := absurd ho hq
  outside _ _ := rfl
  owner _ _ h := by cases h
  left _ h := by cases h

/-- The owners that are new after a step of a worker with the object `o`. -/
def OwnerStep (vfs : Versioning) (o : NodeID) (owner owner' : List SVFGEdge → Option NodeID) : Prop :=
  ∀ fp, owner' fp = owner fp ∨ owner fp = none ∧ owner' fp = some o ∧ footprint vfs o = fp

theorem OwnerStep.refl (vfs : Versioning) (o : NodeID) (owner : List SVFGEdge → Option NodeID) :
    OwnerStep vfs o owner owner := fun _ => .inl rfl

theorem ownerStep_update {owner : List SVFGEdge → Option NodeID}
    (h : owner (footprint vfs o) = none) :
    OwnerStep vfs o owner (Function.update owner (footprint vfs o) (some o)) := by
  intro fp
  by_cases hfp : fp = footprint vfs o
  · subst hfp
    exact .inr ⟨h, Function.update_self _ _ _, rfl⟩
  · exact .inl (Function.update_of_ne hfp _ _)

theorem OwnerStep.some_of {owner owner' : List SVFGEdge → Option NodeID}
    (h : OwnerStep vfs o owner owner') {fp : List SVFGEdge} (hc : owner fp = some c) :
    owner' fp = some c := by
  rcases h fp with heq | ⟨hnone, -, -⟩
  · rw [heq, hc]
  · rw [hnone] at hc
    contradiction

theorem OwnerStep.expected {owner owner' : List SVFGEdge → Option NodeID}
    (h : OwnerStep vfs o owner owner') {o' : NodeID} (hsome : owner (footprint vfs o') ≠ none) :
    expected vfs owner' o' = expected vfs owner o' := by
  obtain ⟨c, hc⟩ := Option.ne_none_iff_exists'.mp hsome
  rw [MeldLabelWorkers.expected, MeldLabelWorkers.expected, h.some_of hc, hc]

theorem fresh_of_ownerStep {o' : NodeID} (hne : o' ≠ o) (hlabels : s'.labels o' = s.labels o')
    (howner : OwnerStep vfs o s.footprintOwner s'.footprintOwner) (h : Fresh vfs s o') :
    Fresh vfs s' o' := by
  refine ⟨hlabels.trans h.1, ?_⟩
  rcases howner (footprint vfs o') with heq | ⟨-, hnew, -⟩
  · rw [heq]
    exact h.2
  · rw [hnew]
    exact fun heq => hne (Option.some.inj heq).symm

theorem workerOK_of_ownerStep {w : Worker} (hne : w.object ≠ some o)
    (hlabels : ∀ o' ≠ o, s'.labels o' = s.labels o')
    (howner : OwnerStep vfs o s.footprintOwner s'.footprintOwner) (h : WorkerOK vfs s w) :
    WorkerOK vfs s' w := by
  cases w with
  | idle | done => trivial
  | popped o' | detected o' =>
      have hne' : o' ≠ o := fun heq => hne (congrArg some heq)
      exact fresh_of_ownerStep hne' (hlabels o' hne') howner h
  | versioning o' =>
      have hne' : o' ≠ o := fun heq => hne (congrArg some heq)
      exact ⟨(hlabels o' hne').trans h.1, howner.some_of h.2⟩
  | saving o' rest =>
      have hne' : o' ≠ o := fun heq => hne (congrArg some heq)
      obtain ⟨hown, pre, hpre, hlab⟩ := h
      exact ⟨howner.some_of hown, pre, hpre, (hlabels o' hne').trans hlab⟩

theorem inv_update (h : Inv vfs objs s) (ho : (s.workers t).object = some o)
    {owner : List SVFGEdge → Option NodeID} {L : ObjectLabels} {w : Worker}
    (howner : OwnerStep vfs o s.footprintOwner owner)
    (hw : w.object = some o ∧ WorkerOK vfs ⟨s.objectQueue, owner, Function.update s.labels o L,
        Function.update s.workers t w⟩ w ∨
      w = .idle ∧ L = expected vfs owner o ∧ owner (footprint vfs o) ≠ none) :
    Inv vfs objs ⟨s.objectQueue, owner, Function.update s.labels o L,
      Function.update s.workers t w⟩ := by
  have hlabels : ∀ o' ≠ o, Function.update s.labels o L o' = s.labels o' :=
    fun o' hne => Function.update_of_ne hne _ _
  have hobject : ∀ t' o', (Function.update s.workers t w t').object = some o' →
      (s.workers t').object = some o' := by
    intro t' o' hobj
    by_cases ht : t' = t
    · subst ht
      rw [Function.update_self] at hobj
      rcases hw with ⟨hwo, -⟩ | ⟨rfl, -, -⟩
      · rw [← hobj, hwo, ho]
      · contradiction
    · rwa [Function.update_of_ne ht] at hobj
  have hnotO : ∀ t' ≠ t, (s.workers t').object ≠ some o :=
    fun t' ht heq => ht (h.unique t' t o heq ho)
  refine ⟨h.nodup, ?_, ?_, ?_, ?_, ?_, ?_, ?_, ?_⟩
  · intro t₁ t₂ o' h₁ h₂
    exact h.unique t₁ t₂ o' (hobject t₁ o' h₁) (hobject t₂ o' h₂)
  · intro t' o' hobj
    exact h.taken t' o' (hobject t' o' hobj)
  · intro o' ho'
    have hne : o' ≠ o := fun heq => (h.taken t o ho).1 (heq ▸ ho')
    exact ⟨(h.queued o' ho').1,
      fresh_of_ownerStep hne (hlabels o' hne) howner (h.queued o' ho').2⟩
  · intro t'
    change WorkerOK vfs _ (Function.update s.workers t w t')
    by_cases ht : t' = t
    · subst ht
      rw [Function.update_self]
      rcases hw with ⟨-, hok⟩ | ⟨rfl, -, -⟩
      · exact hok
      · trivial
    · rw [Function.update_of_ne ht]
      exact workerOK_of_ownerStep (hnotO t' ht) hlabels howner (h.working t')
  · intro o' ho' hq hheld
    by_cases hne : o' = o
    · subst hne
      rcases hw with ⟨hwo, -⟩ | ⟨-, hL, hsome⟩
      · have hobj : (Function.update s.workers t w t).object = some o' := by
          rw [Function.update_self, hwo]
        exact absurd hobj (hheld t)
      · exact ⟨(Function.update_self _ _ _).trans hL, hsome⟩
    · have hold : ∀ t', (s.workers t').object ≠ some o' := by
        intro t' heq
        by_cases ht : t' = t
        · subst ht
          exact hne (Option.some.inj (heq.symm.trans ho))
        · apply hheld t'
          change (Function.update s.workers t w t').object = some o'
          rw [Function.update_of_ne ht]
          exact heq
      obtain ⟨hlab, hsome⟩ := h.processed o' ho' hq hold
      refine ⟨?_, ?_⟩
      · rw [howner.expected hsome]
        exact (hlabels o' hne).trans hlab
      · obtain ⟨c, hc⟩ := Option.ne_none_iff_exists'.mp hsome
        change owner (footprint vfs o') ≠ none
        rw [howner.some_of hc]
        exact Option.some_ne_none c
  · intro o' ho'
    have hne : o' ≠ o := fun heq => ho' (heq ▸ (h.taken t o ho).2)
    exact (hlabels o' hne).trans (h.outside o' ho')
  · intro fp c hc
    rcases howner fp with heq | ⟨-, hnew, hfp⟩
    · exact h.owner fp c (heq.symm.trans hc)
    · obtain rfl : o = c := Option.some.inj (hnew.symm.trans hc)
      exact ⟨(h.taken t o ho).2, hfp⟩
  · intro t' hdone
    by_cases ht : t' = t
    · subst ht
      change Function.update s.workers t' w t' = .done at hdone
      rw [Function.update_self] at hdone
      rcases hw with ⟨hwo, -⟩ | ⟨hidle, -, -⟩
      · rw [hdone] at hwo
        contradiction
      · rw [hdone] at hidle
        contradiction
    · change Function.update s.workers t w t' = .done at hdone
      rw [Function.update_of_ne ht] at hdone
      exact h.left t' hdone

theorem inv_pop (h : Inv vfs objs s) {rest : List NodeID} (hw : s.workers t = .idle)
    (hq : s.objectQueue = o :: rest) : Inv vfs objs { s with
      objectQueue := rest
      workers := Function.update s.workers t (.popped o) } := by
  have hmem : o ∈ s.objectQueue := by rw [hq]; exact List.mem_cons_self
  have hsub : ∀ o' ∈ rest, o' ∈ s.objectQueue := fun o' ho' => by
    rw [hq]; exact List.mem_cons_of_mem o ho'
  have hnodup := h.nodup
  rw [hq, List.nodup_cons] at hnodup
  have hobject : ∀ t' o', (Function.update s.workers t (.popped o) t').object = some o' →
      t' = t ∧ o' = o ∨ t' ≠ t ∧ (s.workers t').object = some o' := by
    intro t' o' hobj
    by_cases ht : t' = t
    · subst ht
      rw [Function.update_self] at hobj
      exact .inl ⟨rfl, (Option.some.inj hobj).symm⟩
    · rw [Function.update_of_ne ht] at hobj
      exact .inr ⟨ht, hobj⟩
  have hnot : ∀ t', (s.workers t').object ≠ some o := fun t' heq => (h.taken t' o heq).1 hmem
  refine ⟨hnodup.2, ?_, ?_, ?_, ?_, ?_, h.outside, h.owner, ?_⟩
  · intro t₁ t₂ o' h₁ h₂
    rcases hobject t₁ o' h₁ with ⟨ht₁, ho₁⟩ | ⟨-, hold₁⟩
    · rcases hobject t₂ o' h₂ with ⟨ht₂, -⟩ | ⟨-, hold₂⟩
      · rw [ht₁, ht₂]
      · exact absurd (ho₁ ▸ hold₂) (hnot t₂)
    · rcases hobject t₂ o' h₂ with ⟨-, ho₂⟩ | ⟨-, hold₂⟩
      · exact absurd (ho₂ ▸ hold₁) (hnot t₁)
      · exact h.unique t₁ t₂ o' hold₁ hold₂
  · intro t' o' hobj
    rcases hobject t' o' hobj with ⟨-, rfl⟩ | ⟨-, hobj⟩
    · exact ⟨hnodup.1, (h.queued o' hmem).1⟩
    · exact ⟨fun hr => (h.taken t' o' hobj).1 (hsub o' hr), (h.taken t' o' hobj).2⟩
  · exact fun o' ho' => h.queued o' (hsub o' ho')
  · intro t'
    change WorkerOK vfs _ (Function.update s.workers t (.popped o) t')
    by_cases ht : t' = t
    · subst ht
      rw [Function.update_self]
      exact (h.queued o hmem).2
    · rw [Function.update_of_ne ht]
      exact h.working t'
  · intro o' ho' hr hheld
    have hne : o' ≠ o := by
      rintro rfl
      apply hheld t
      change (Function.update s.workers t (.popped o') t).object = some o'
      rw [Function.update_self]
      rfl
    apply h.processed o' ho'
    · rw [hq, List.mem_cons, not_or]
      exact ⟨hne, hr⟩
    · intro t' heq
      have ht : t' ≠ t := by
        rintro rfl
        rw [hw] at heq
        contradiction
      apply hheld t'
      change (Function.update s.workers t (.popped o) t').object = some o'
      rw [Function.update_of_ne ht]
      exact heq
  · intro t' hdone
    by_cases ht : t' = t
    · subst ht
      change Function.update s.workers t' (.popped o) t' = .done at hdone
      rw [Function.update_self] at hdone
      contradiction
    · change Function.update s.workers t (.popped o) t' = .done at hdone
      rw [Function.update_of_ne ht] at hdone
      rw [h.left t' hdone] at hq
      contradiction

theorem inv_leave (h : Inv vfs objs s) (hw : s.workers t = .idle) (hq : s.objectQueue = []) :
    Inv vfs objs { s with workers := Function.update s.workers t .done } := by
  have hobject : ∀ t' o', (Function.update s.workers t .done t').object = some o' ↔
      (s.workers t').object = some o' := by
    intro t' o'
    by_cases ht : t' = t
    · subst ht
      rw [Function.update_self, hw]
      exact Iff.rfl
    · rw [Function.update_of_ne ht]
  refine ⟨h.nodup, ?_, ?_, h.queued, ?_, ?_, h.outside, h.owner, fun _ _ => hq⟩
  · exact fun t₁ t₂ o' h₁ h₂ => h.unique t₁ t₂ o' ((hobject t₁ o').mp h₁) ((hobject t₂ o').mp h₂)
  · exact fun t' o' hobj => h.taken t' o' ((hobject t' o').mp hobj)
  · intro t'
    change WorkerOK vfs _ (Function.update s.workers t .done t')
    by_cases ht : t' = t
    · subst ht
      rw [Function.update_self]
      trivial
    · rw [Function.update_of_ne ht]
      exact h.working t'
  · exact fun o' ho' hr hheld => h.processed o' ho' hr fun t' heq =>
      hheld t' ((hobject t' o').mpr heq)

def Busy (vfs : Versioning) : Worker → NodeID → Prop
  | .versioning o, c => o = c
  | .saving o rest, c => o = c ∧ ∃ n ∈ rest, vfs.isStore n = true ∨ vfs.isLoad n = true
  | _, _ => False

/-- When the thread is about to copy the reliance maps of an owner, no worker has
anything left to write to them. -/
def Safe (vfs : Versioning) (t : Fin threads) (s : MeldState threads) : Prop :=
  ∀ o c, s.workers t = .detected o → s.footprintOwner (footprint vfs o) = some c →
    ∀ t', ¬ Busy vfs (s.workers t') c

def AnyStep (vfs : Versioning) (s s' : MeldState threads) : Prop := ∃ t, Step vfs t s s'

def SafeStep (vfs : Versioning) (s s' : MeldState threads) : Prop :=
  ∃ t, Step vfs t s s' ∧ Safe vfs t s

/-- The reliance maps of an owner that no worker is busy with are complete. -/
theorem owner_complete (h : Inv vfs objs s) {fp : List SVFGEdge}
    (hc : s.footprintOwner fp = some c) (hidle : ∀ t', ¬ Busy vfs (s.workers t') c) :
    (s.labels c).versionReliance = (complete vfs c).versionReliance ∧
      (s.labels c).stmtReliance = (complete vfs c).stmtReliance := by
  obtain ⟨hmem, hfp⟩ := h.owner fp c hc
  rw [← hfp] at hc
  by_cases hheld : ∃ t', (s.workers t').object = some c
  · obtain ⟨t', ht'⟩ := hheld
    have hok := h.working t'
    have hbusy := hidle t'
    cases hw : s.workers t' with
    | idle | done =>
        rw [hw] at ht'
        contradiction
    | popped o | detected o =>
        rw [hw] at ht' hok
        cases ht'
        exact absurd hc hok.2
    | versioning o =>
        rw [hw] at ht' hbusy
        cases ht'
        exact absurd rfl hbusy
    | saving o rest =>
        rw [hw] at ht' hok hbusy
        cases ht'
        obtain ⟨-, pre, hpre, hlab⟩ := hok
        rw [hlab]
        apply labelled_reliance hpre
        intro n hn
        have hnot : ¬ (vfs.isStore n = true ∨ vfs.isLoad n = true) :=
          fun hsome => hbusy ⟨rfl, n, hn, hsome⟩
        rw [not_or, Bool.not_eq_true, Bool.not_eq_true] at hnot
        exact hnot
  · have hqueue : c ∉ s.objectQueue := fun hq => (h.queued c hq).2.2 hc
    obtain ⟨hlab, -⟩ := h.processed c hmem hqueue fun t' heq => hheld ⟨t', heq⟩
    rw [hlab, expected, hc]
    dsimp only
    rw [if_pos rfl]
    exact ⟨rfl, rfl⟩

theorem inv_copy (h : Inv vfs objs s) (hw : s.workers t = .detected o)
    (hf : s.footprintOwner (footprint vfs o) = some c) (hsafe : Safe vfs t s) :
    Inv vfs objs { s with
      labels := Function.update s.labels o (copyOwner (s.labels c) (s.labels o) c)
      workers := Function.update s.workers t .idle } := by
  have hfresh : Fresh vfs s o := by
    have hok := h.working t
    rw [hw] at hok
    exact hok
  have hne : c ≠ o := fun heq => hfresh.2 (heq ▸ hf)
  obtain ⟨hversion, hstmt⟩ := owner_complete h hf (hsafe o c hw hf)
  apply inv_update h (by rw [hw]; rfl) (OwnerStep.refl vfs o _)
  refine .inr ⟨rfl, ?_, by rw [hf]; exact Option.some_ne_none c⟩
  rw [expected, hf]
  dsimp only
  rw [if_neg hne, hfresh.1, copyOwner, copyOwner, hversion, hstmt]

theorem inv_step (h : Inv vfs objs s) (hstep : Step vfs t s s') (hsafe : Safe vfs t s) :
    Inv vfs objs s' := by
  have hok := h.working t
  cases hstep with
  | pop o rest hw hq => exact inv_pop h hw hq
  | leave hw hq => exact inv_leave h hw hq
  | detect o hw =>
      rw [hw] at hok
      have hinv := inv_update (L := s.labels o) (w := .detected o) h (by rw [hw]; rfl)
        (OwnerStep.refl vfs o _) (.inl ⟨rfl, by
          rw [Function.update_eq_self]
          exact hok⟩)
      rw [Function.update_eq_self] at hinv
      exact hinv
  | own o hw hf =>
      rw [hw] at hok
      apply inv_update h (by rw [hw]; rfl) (ownerStep_update hf)
      refine .inl ⟨rfl, ?_, Function.update_self _ _ _⟩
      change Function.update s.labels o _ o = _
      rw [Function.update_self, hok.1]
  | copy o c hw hf => exact inv_copy h hw hf hsafe
  | version o hw =>
      rw [hw] at hok
      apply inv_update h (by rw [hw]; rfl) (OwnerStep.refl vfs o _)
      refine .inl ⟨rfl, hok.2, [], rfl, ?_⟩
      change Function.update s.labels o _ o = _
      rw [Function.update_self, hok.1]
      rfl
  | save o n rest hw =>
      rw [hw] at hok
      obtain ⟨hown, pre, hpre, hlab⟩ := hok
      apply inv_update h (by rw [hw]; rfl) (OwnerStep.refl vfs o _)
      refine .inl ⟨rfl, hown, pre ++ [n], ?_, ?_⟩
      · rw [hpre, List.append_assoc, List.singleton_append]
      · change Function.update s.labels o _ o = _
        rw [Function.update_self, hlab, labelled_append]
  | saved o hw =>
      rw [hw] at hok
      obtain ⟨hown, pre, hpre, hlab⟩ := hok
      have hinv := inv_update (L := s.labels o) (w := .idle) h (by rw [hw]; rfl)
        (OwnerStep.refl vfs o _) (.inr ⟨rfl, by
          rw [expected, hown]
          dsimp only
          rw [if_pos rfl, hlab, complete, hpre, List.append_nil], by
          rw [hown]
          exact Option.some_ne_none o⟩)
      rw [Function.update_eq_self] at hinv
      exact hinv

theorem inv_run (hobjs : objs.Nodup) (hrun : ReflTransGen (SafeStep vfs) (start threads objs) s) :
    Inv vfs objs s := by
  induction hrun with
  | refl => exact inv_start vfs threads hobjs
  | tail _ hstep ih =>
      obtain ⟨t, hstep, hsafe⟩ := hstep
      exact inv_step ih hstep hsafe

theorem Inv.finished (h : Inv vfs objs s) (hthreads : 0 < threads) (hend : Finished s)
    (ho : o ∈ objs) : s.labels o = expected vfs s.footprintOwner o ∧
      s.footprintOwner (footprint vfs o) ≠ none := by
  apply h.processed o ho
  · rw [h.left ⟨0, hthreads⟩ (hend _)]
    exact List.not_mem_nil
  · intro t heq
    rw [hend t] at heq
    contradiction

/-- In the end every object has the reliance maps of the owner of its footprint. -/
theorem Inv.owned (h : Inv vfs objs s) (hthreads : 0 < threads) (hend : Finished s) (ho : o ∈ objs) :
    ∃ c ∈ objs, (s.labels o).equivalentObject = some c ∧ s.labels c = complete vfs c ∧
      (s.labels o).versionReliance = (s.labels c).versionReliance ∧
      (s.labels o).stmtReliance = (s.labels c).stmtReliance ∧ footprint vfs c = footprint vfs o := by
  obtain ⟨hlab, hsome⟩ := h.finished hthreads hend ho
  obtain ⟨c, hc⟩ := Option.ne_none_iff_exists'.mp hsome
  obtain ⟨hcmem, hcfp⟩ := h.owner _ c hc
  have hcomplete : s.labels c = complete vfs c := by
    rw [(h.finished hthreads hend hcmem).1, expected, hcfp, hc]
    exact if_pos rfl
  refine ⟨c, hcmem, ?_, hcomplete, ?_⟩
  · rw [hlab, expected, hc]
    dsimp only
    split
    · rename_i hco
      rw [hco, equivalentObject_complete]
    · rfl
  · by_cases hco : c = o
    · rw [hco]
      exact ⟨rfl, rfl, rfl⟩
    · rw [hcomplete, hlab, expected, hc]
      dsimp only
      rw [if_neg hco]
      exact ⟨rfl, rfl, hcfp⟩

def cost (vfs : Versioning) : Worker → ℕ
  | .done => 0
  | .idle => 1
  | .saving _ rest => rest.length + 2
  | .versioning _ => vfs.nodesWhichNeedVersions.length + 3
  | .detected _ => vfs.nodesWhichNeedVersions.length + 4
  | .popped _ => vfs.nodesWhichNeedVersions.length + 5

def measure (vfs : Versioning) (s : MeldState threads) : ℕ :=
  s.objectQueue.length * (vfs.nodesWhichNeedVersions.length + 6) + ∑ t, cost vfs (s.workers t)

theorem sum_update (vfs : Versioning) (workers : Fin threads → Worker) (t : Fin threads) (w : Worker) :
    (∑ t', cost vfs (Function.update workers t w t')) + cost vfs (workers t) =
      (∑ t', cost vfs (workers t')) + cost vfs w := by
  have hupdate : ∀ t', cost vfs (Function.update workers t w t') =
      Function.update (fun t' => cost vfs (workers t')) t (cost vfs w) t' := by
    intro t'
    by_cases ht : t' = t
    · subst ht
      rw [Function.update_self, Function.update_self]
    · rw [Function.update_of_ne ht, Function.update_of_ne ht]
  simp only [hupdate]
  rw [Finset.sum_update_of_mem (Finset.mem_univ t),
    ← Finset.add_sum_erase Finset.univ (fun t' => cost vfs (workers t')) (Finset.mem_univ t),
    Finset.sdiff_singleton_eq_erase]
  omega

theorem measure_lt_of_cost {w : Worker} (hcost : cost vfs w < cost vfs (s.workers t))
    (owner : List SVFGEdge → Option NodeID) (labels : NodeID → ObjectLabels) :
    measure vfs ⟨s.objectQueue, owner, labels, Function.update s.workers t w⟩ < measure vfs s := by
  have hsum := sum_update vfs s.workers t w
  simp only [measure]
  omega

theorem measure_step (hstep : Step vfs t s s') : measure vfs s' < measure vfs s := by
  cases hstep with
  | pop o rest hw hq =>
      have hsum := sum_update vfs s.workers t (.popped o)
      have hpopped : cost vfs (.popped o) = vfs.nodesWhichNeedVersions.length + 5 := rfl
      have hidle : cost vfs .idle = 1 := rfl
      rw [hw, hpopped, hidle] at hsum
      simp only [measure, hq, List.length_cons, Nat.succ_mul]
      omega
  | leave hw hq => exact measure_lt_of_cost (by rw [hw]; simp [cost]) _ _
  | detect o hw => exact measure_lt_of_cost (by rw [hw]; simp [cost]) _ _
  | own o hw hf => exact measure_lt_of_cost (by rw [hw]; simp [cost]) _ _
  | copy o c hw hf => exact measure_lt_of_cost (by rw [hw]; simp [cost]) _ _
  | version o hw => exact measure_lt_of_cost (by rw [hw]; simp [cost]) _ _
  | save o n rest hw => exact measure_lt_of_cost (by rw [hw]; simp [cost]) _ _
  | saved o hw => exact measure_lt_of_cost (by rw [hw]; simp [cost]) _ _

theorem no_infinite_run (vfs : Versioning) (s : MeldState threads) :
    ¬ ∃ run : ℕ → MeldState threads, run 0 = s ∧ ∀ n, AnyStep vfs (run n) (run (n + 1)) :=
  Util.Loops.no_infinite_run_of_lt (I := fun _ => True) (m := measure vfs)
    (fun _ _ _ h => ⟨trivial, h.elim fun _ hstep => measure_step hstep⟩) trivial

theorem exists_step (vfs : Versioning) (hw : s.workers t ≠ .done) : ∃ s', Step vfs t s s' := by
  cases hwork : s.workers t with
  | idle =>
      cases hq : s.objectQueue with
      | nil => exact ⟨_, .leave s hwork hq⟩
      | cons o rest => exact ⟨_, .pop s o rest hwork hq⟩
  | popped o => exact ⟨_, .detect s o hwork⟩
  | detected o =>
      cases hf : s.footprintOwner (footprint vfs o) with
      | none => exact ⟨_, .own s o hwork hf⟩
      | some c => exact ⟨_, .copy s o c hwork hf⟩
  | versioning o => exact ⟨_, .version s o hwork⟩
  | saving o nodes =>
      cases nodes with
      | nil => exact ⟨_, .saved s o hwork⟩
      | cons n rest => exact ⟨_, .save s o n rest hwork⟩
  | done => exact absurd hwork hw

theorem finished_or_step (vfs : Versioning) (s : MeldState threads) :
    Finished s ∨ ∃ s', AnyStep vfs s s' := by
  by_cases hend : Finished s
  · exact .inl hend
  · rw [Finished, not_forall] at hend
    obtain ⟨t, ht⟩ := hend
    obtain ⟨s', hstep⟩ := exists_step vfs ht
    exact .inr ⟨s', t, hstep⟩

theorem exists_finished (vfs : Versioning) (s : MeldState threads) :
    ∃ s', ReflTransGen (AnyStep vfs) s s' ∧ Finished s' :=
  Util.Loops.exists_end_of_lt (I := fun _ => True) (m := measure vfs)
    (fun _ _ _ h => ⟨trivial, h.elim fun _ hstep => measure_step hstep⟩) (fun s _ => finished_or_step vfs s) trivial

section

/-- One worker takes the objects in their order, so that the owner of a footprint
is the first object that has it. -/
structure Fifo (vfs : Versioning) (objs : List NodeID) (s : MeldState 1) : Prop where
  order : ∃ taken, objs = taken ++ s.objectQueue ∧
    ∀ o, (s.workers 0).object = some o → ∃ pre, taken = pre ++ [o]
  first : ∀ fp c, s.footprintOwner fp = some c →
    ∀ o ∈ objs, footprint vfs o = fp → objs.idxOf c ≤ objs.idxOf o

variable {s s' : MeldState 1}

theorem safe_single (vfs : Versioning) (t : Fin 1) (s : MeldState 1) : Safe vfs t s := by
  intro o c hw _ t' hbusy
  rw [Subsingleton.elim t' t, hw] at hbusy
  exact hbusy

theorem fifo_own (hinv : Inv vfs objs s) (hobjs : objs.Nodup) (h : Fifo vfs objs s)
    (hw : s.workers 0 = .detected o) (hf : s.footprintOwner (footprint vfs o) = none)
    {o' : NodeID} (hfp : footprint vfs o' = footprint vfs o) :
    objs.idxOf o ≤ objs.idxOf o' := by
  obtain ⟨taken, heq, htaken⟩ := h.order
  obtain ⟨pre, rfl⟩ := htaken o (by rw [hw]; rfl)
  have hpre : ∀ x ∈ pre, x ≠ o ∧ x ∉ s.objectQueue := by
    intro x hx
    rw [heq, List.append_assoc, List.nodup_append] at hobjs
    have hdisj := hobjs.2.2 x hx
    exact ⟨hdisj o (by simp), fun hq => hdisj x (by simp [hq]) rfl⟩
  have hnot : ∀ x ∈ pre, footprint vfs x ≠ footprint vfs o := by
    intro x hx hxfp
    have hmem : x ∈ objs := by
      rw [heq]
      simp [hx]
    obtain ⟨-, hsome⟩ := hinv.processed x hmem (hpre x hx).2 (by
      intro t hobj
      rw [Subsingleton.elim t 0, hw] at hobj
      exact (hpre x hx).1 (Option.some.inj hobj).symm)
    rw [hxfp] at hsome
    exact hsome hf
  have ho : o ∉ pre := fun hmem => (hpre o hmem).1 rfl
  have ho'pre : o' ∉ pre := fun hmem => hnot o' hmem hfp
  rw [heq, List.append_assoc, List.idxOf_append_of_notMem ho, List.idxOf_append_of_notMem ho'pre,
    List.singleton_append, List.idxOf_cons_self]
  omega

theorem fifo_step {t : Fin 1} (hinv : Inv vfs objs s) (hobjs : objs.Nodup) (h : Fifo vfs objs s)
    (hstep : Step vfs t s s') : Fifo vfs objs s' := by
  obtain ⟨taken, heq, htaken⟩ := h.order
  obtain rfl : t = 0 := Subsingleton.elim t 0
  have hsame : ∀ w : Worker, w.object = (s.workers 0).object ∨ w.object = none →
      ∀ o, (Function.update s.workers 0 w 0).object = some o → ∃ pre, taken = pre ++ [o] := by
    intro w hw o ho
    rw [Function.update_self] at ho
    rcases hw with hw | hw
    · exact htaken o (hw ▸ ho)
    · rw [hw] at ho
      contradiction
  cases hstep with
  | pop o rest hw hq =>
      refine ⟨⟨taken ++ [o], ?_, ?_⟩, h.first⟩
      · rw [heq, hq, List.append_assoc, List.singleton_append]
      · intro o' ho'
        change (Function.update s.workers 0 (.popped o) 0).object = some o' at ho'
        rw [Function.update_self] at ho'
        cases ho'
        exact ⟨taken, rfl⟩
  | leave hw hq => exact ⟨⟨taken, heq, hsame .done (.inr rfl)⟩, h.first⟩
  | detect o hw => exact ⟨⟨taken, heq, hsame (.detected o) (.inl (by rw [hw]; rfl))⟩, h.first⟩
  | own o hw hf =>
      refine ⟨⟨taken, heq, hsame (.versioning o) (.inl (by rw [hw]; rfl))⟩, ?_⟩
      intro fp c hc o' ho' hfp
      by_cases hown : fp = footprint vfs o
      · subst hown
        change Function.update s.footprintOwner _ (some o) _ = some c at hc
        rw [Function.update_self] at hc
        cases hc
        exact fifo_own hinv hobjs h hw hf hfp
      · change Function.update s.footprintOwner _ (some o) _ = some c at hc
        rw [Function.update_of_ne hown] at hc
        exact h.first fp c hc o' ho' hfp
  | copy o c hw hf => exact ⟨⟨taken, heq, hsame .idle (.inr rfl)⟩, h.first⟩
  | version o hw => exact ⟨⟨taken, heq, hsame (.saving o _) (.inl (by rw [hw]; rfl))⟩, h.first⟩
  | save o n rest hw =>
      exact ⟨⟨taken, heq, hsame (.saving o rest) (.inl (by rw [hw]; rfl))⟩, h.first⟩
  | saved o hw => exact ⟨⟨taken, heq, hsame .idle (.inr rfl)⟩, h.first⟩

theorem single_run (hobjs : objs.Nodup) (hrun : ReflTransGen (AnyStep vfs) (start 1 objs) s) :
    Inv vfs objs s ∧ Fifo vfs objs s := by
  induction hrun with
  | refl =>
      refine ⟨inv_start vfs 1 hobjs, ⟨[], rfl, fun o ho => ?_⟩, fun fp c hc => ?_⟩
      · contradiction
      · contradiction
  | tail _ hstep ih =>
      obtain ⟨t, hstep⟩ := hstep
      exact ⟨inv_step ih.1 hstep (safe_single vfs t _), fifo_step ih.1 hobjs ih.2 hstep⟩

end

def ownersFirst (vfs : Versioning) (owner : List SVFGEdge → Option NodeID) (objs : List NodeID) :
    List NodeID :=
  objs.filter (fun o => owner (footprint vfs o) = some o) ++
    objs.filter (fun o => ¬ owner (footprint vfs o) = some o)

theorem ownersFirst_perm (vfs : Versioning) (owner : List SVFGEdge → Option NodeID)
    (objs : List NodeID) : (ownersFirst vfs owner objs).Perm objs := by
  have h := List.filter_append_perm (fun o => decide (owner (footprint vfs o) = some o)) objs
  simpa [ownersFirst] using h

/-- A single thread that meets the owners first gives the footprints the same owners. -/
theorem single_owner {s : MeldState threads} {s₁ : MeldState 1} (hinv : Inv vfs objs s)
    (hobjs : objs.Nodup) (hsome : ∀ o ∈ objs, s.footprintOwner (footprint vfs o) ≠ none)
    (hrun : ReflTransGen (AnyStep vfs) (start 1 (ownersFirst vfs s.footprintOwner objs)) s₁)
    (hend : Finished s₁) (ho : o ∈ objs) :
    s₁.footprintOwner (footprint vfs o) = s.footprintOwner (footprint vfs o) := by
  have hperm := ownersFirst_perm vfs s.footprintOwner objs
  have hobjs₁ := hperm.nodup_iff.mpr hobjs
  obtain ⟨hinv₁, hfifo⟩ := single_run hobjs₁ hrun
  obtain ⟨c, hc⟩ := Option.ne_none_iff_exists'.mp (hsome o ho)
  obtain ⟨c₁, hc₁⟩ := Option.ne_none_iff_exists'.mp
    (hinv₁.finished Nat.one_pos hend (hperm.mem_iff.mpr ho)).2
  obtain ⟨hcmem, hcfp⟩ := hinv.owner _ c hc
  obtain ⟨hc₁mem, hc₁fp⟩ := hinv₁.owner _ c₁ hc₁
  have hfront : c ∈ objs.filter (fun o => s.footprintOwner (footprint vfs o) = some o) := by
    rw [List.mem_filter, hcfp, hc]
    exact ⟨hcmem, by simp⟩
  have hle := hfifo.first _ c₁ hc₁ c (hperm.mem_iff.mpr hcmem) hcfp
  have hc₁front : c₁ ∈ objs.filter (fun o => s.footprintOwner (footprint vfs o) = some o) := by
    by_contra hnot
    rw [ownersFirst, List.idxOf_append_of_notMem hnot, List.idxOf_append_of_mem hfront] at hle
    have hlt := List.idxOf_lt_length_of_mem hfront
    omega
  have hown := (List.mem_filter.mp hc₁front).2
  rw [hc₁fp] at hown
  rw [hc₁, ← of_decide_eq_true hown]

/-- What a run leaves is what a single thread leaves that meets the owners first. -/
theorem serial_labels {s : MeldState threads} (hthreads : 0 < threads) (hobjs : objs.Nodup)
    (hinv : Inv vfs objs s) (hend : Finished s) : ∃ s₁ : MeldState 1,
      ReflTransGen (AnyStep vfs) (start 1 (ownersFirst vfs s.footprintOwner objs)) s₁ ∧
        Finished s₁ ∧ s₁.labels = s.labels := by
  have hperm := ownersFirst_perm vfs s.footprintOwner objs
  have hobjs₁ := hperm.nodup_iff.mpr hobjs
  obtain ⟨s₁, hrun, hend₁⟩ := exists_finished vfs
    (start 1 (ownersFirst vfs s.footprintOwner objs))
  obtain ⟨hinv₁, -⟩ := single_run hobjs₁ hrun
  refine ⟨s₁, hrun, hend₁, ?_⟩
  funext o
  by_cases ho : o ∈ objs
  · have howner := single_owner hinv hobjs (fun o ho => (hinv.finished hthreads hend ho).2)
      hrun hend₁ ho
    rw [(hinv₁.finished Nat.one_pos hend₁ (hperm.mem_iff.mpr ho)).1,
      (hinv.finished hthreads hend ho).1, expected, expected, howner]
  · rw [hinv.outside o ho, hinv₁.outside o fun hmem => ho (hperm.mem_iff.mp hmem)]

section

def sample : Versioning where
  svfg := {
    nodes := [0, 1]
    node := fun n => if n = 0 then .store 5 6 else .load 7 5
    edges := [⟨0, 1, .indirect ((PointsTo.set ∅ 11).set 12)⟩] }
  delta _ := false
  deltaSource _ := false
  ander p := if p = 5 then (PointsTo.set ∅ 11).set 12 else ∅
  mrPointsTo _ := ∅

def next (vfs : Versioning) (s : MeldState threads) (t : Fin threads) :
    Option (MeldState threads) :=
  match s.workers t with
  | .idle =>
      match s.objectQueue with
      | [] => some { s with workers := Function.update s.workers t .done }
      | o :: rest => some { s with
          objectQueue := rest
          workers := Function.update s.workers t (.popped o) }
  | .popped o => some { s with workers := Function.update s.workers t (.detected o) }
  | .detected o =>
      match s.footprintOwner (footprint vfs o) with
      | none => some { s with
          footprintOwner := Function.update s.footprintOwner (footprint vfs o) (some o)
          labels := Function.update s.labels o { s.labels o with equivalentObject := some o }
          workers := Function.update s.workers t (.versioning o) }
      | some c => some { s with
          labels := Function.update s.labels o (copyOwner (s.labels c) (s.labels o) c)
          workers := Function.update s.workers t .idle }
  | .versioning o => some { s with
      labels := Function.update s.labels o
        { s.labels o with versionReliance := (objectVersions vfs o).versionReliance }
      workers := Function.update s.workers t (.saving o vfs.nodesWhichNeedVersions) }
  | .saving o (n :: rest) => some { s with
      labels := Function.update s.labels o (saveNode vfs (objectVersions vfs o) (s.labels o) n)
      workers := Function.update s.workers t (.saving o rest) }
  | .saving _ [] => some { s with workers := Function.update s.workers t .idle }
  | .done => none

theorem next_step (h : next vfs s t = some s') : Step vfs t s s' := by
  rw [next] at h
  cases hw : s.workers t with
  | idle =>
      cases hq : s.objectQueue with
      | nil =>
          simp only [hw, hq] at h
          obtain rfl := Option.some.inj h
          rw [← hq]
          exact .leave s hw hq
      | cons o rest =>
          simp only [hw, hq] at h
          cases h
          exact .pop s o rest hw hq
  | popped o =>
      simp only [hw] at h
      cases h
      exact .detect s o hw
  | detected o =>
      cases hf : s.footprintOwner (footprint vfs o) with
      | none =>
          simp only [hw, hf] at h
          cases h
          exact .own s o hw hf
      | some c =>
          simp only [hw, hf] at h
          cases h
          exact .copy s o c hw hf
  | versioning o =>
      simp only [hw] at h
      cases h
      exact .version s o hw
  | saving o nodes =>
      cases nodes with
      | nil =>
          simp only [hw] at h
          cases h
          exact .saved s o hw
      | cons n rest =>
          simp only [hw] at h
          cases h
          exact .save s o n rest hw
  | done =>
      simp only [hw] at h
      contradiction

theorem foldlM_next {l : List (Fin threads)} (h : l.foldlM (next vfs) s = some s') :
    ReflTransGen (AnyStep vfs) s s' := by
  induction l generalizing s with
  | nil =>
      cases h
      exact .refl
  | cons t l ih =>
      obtain ⟨u, hu, h⟩ := Option.bind_eq_some_iff.mp h
      exact .head ⟨t, next_step hu⟩ (ih h)

local instance neZero_two : NeZero (2 : ℕ) := ⟨by decide⟩

/-- The second thread has nothing to do until the first is through with all objects. -/
def nextAlone (vfs : Versioning) (s : MeldState 2) (t : Fin 2) : Option (MeldState 2) :=
  match s.workers (1 - t) with
  | .idle | .done => next vfs s t
  | _ => none

theorem foldlM_nextAlone {s s' : MeldState 2} {l : List (Fin 2)}
    (h : l.foldlM (nextAlone vfs) s = some s') : ReflTransGen (SafeStep vfs) s s' := by
  induction l generalizing s with
  | nil =>
      cases h
      exact .refl
  | cons t l ih =>
      obtain ⟨u, hu, h⟩ := Option.bind_eq_some_iff.mp h
      have hother : ∀ c, ¬ Busy vfs (s.workers (1 - t)) c := by
        intro c hbusy
        rw [nextAlone] at hu
        cases hw : s.workers (1 - t) <;> rw [hw] at hu hbusy <;> first | exact hbusy | cases hu
      have hnext : next vfs s t = some u := by
        rw [nextAlone] at hu
        split at hu
        · exact hu
        · exact hu
        · contradiction
      refine .head ⟨t, next_step hnext, fun o c hw _ t' hbusy => ?_⟩ (ih h)
      have ht : t' = t ∨ t' = 1 - t := by omega
      rcases ht with rfl | rfl
      · rw [hw] at hbusy
        exact hbusy
      · exact hother c hbusy

end

/-- The workers come to an end. When no worker copies the reliance maps of an owner
that is still being versioned, they leave what a single thread leaves that takes
the objects in some order, and every object has the reliance maps of its owner. -/
theorem meldLabel_serial (vfs : Versioning) (hthreads : 0 < threads)
    (hobjs : objs.Perm vfs.prelabeledObjects.elems) :
    (¬ ∃ run : ℕ → MeldState threads, run 0 = start threads objs ∧
      ∀ n, AnyStep vfs (run n) (run (n + 1))) ∧
    (∀ s : MeldState threads, Finished s ∨ ∃ s', AnyStep vfs s s') ∧
    ∀ s : MeldState threads, ReflTransGen (SafeStep vfs) (start threads objs) s → Finished s →
      (∃ objs' : List NodeID, objs'.Perm objs ∧ ∃ s₁ : MeldState 1,
        ReflTransGen (AnyStep vfs) (start 1 objs') s₁ ∧ Finished s₁ ∧ s₁.labels = s.labels) ∧
      ∀ o ∈ objs, ∃ c ∈ objs, (s.labels o).equivalentObject = some c ∧
        s.labels c = complete vfs c ∧
        (s.labels o).versionReliance = (s.labels c).versionReliance ∧
        (s.labels o).stmtReliance = (s.labels c).stmtReliance := by
  refine ⟨no_infinite_run vfs _, finished_or_step vfs, fun s hrun hend => ?_⟩
  have hnodup : objs.Nodup := hobjs.nodup_iff.mpr (Util.OrderedSets.nodup_elems _)
  have hinv := inv_run hnodup hrun
  refine ⟨⟨_, ownersFirst_perm vfs s.footprintOwner objs, serial_labels hthreads hnodup hinv hend⟩,
    fun o ho => ?_⟩
  obtain ⟨c, hcmem, hequiv, hcomplete, hversion, hstmt, -⟩ := hinv.owned hthreads hend ho
  exact ⟨c, hcmem, hequiv, hcomplete, hversion, hstmt⟩

theorem meldLabel_serial_sample : ∃ s : MeldState 2, Finished s ∧
    (s.labels 12).equivalentObject = some 11 ∧
      (s.labels 12).stmtReliance = (s.labels 11).stmtReliance := by
  have hrun : ([0, 0, 0, 0, 0, 0, 0, 0, 0, 0, 0, 1].foldlM (nextAlone sample)
      (start 2 [11, 12])).map (fun s => ((s.labels 12).equivalentObject,
        decide (∀ t, s.workers t = .done))) = some (some 11, true) := by decide +kernel
  obtain ⟨s, hs, hview⟩ := Option.map_eq_some_iff.mp hrun
  simp only [Prod.mk.injEq, decide_eq_true_eq] at hview
  obtain ⟨hequiv, hend⟩ := hview
  have hobjs : [11, 12].Perm sample.prelabeledObjects.elems := by decide +kernel
  obtain ⟨-, -, hserial⟩ := meldLabel_serial sample Nat.two_pos hobjs
  obtain ⟨c, -, hc, -, -, hstmt⟩ := (hserial s (foldlM_nextAlone hs) hend).2 12 (by decide)
  rw [hequiv] at hc
  cases hc
  exact ⟨s, hend, hequiv, hstmt⟩

/-- The second thread sees that `11` owns the footprint before the first thread has
computed its reliance maps. -/
theorem meldLabel_incomplete : ∃ s : MeldState 2,
    ReflTransGen (AnyStep sample) (start 2 sample.prelabeledObjects.elems) s ∧ Finished s ∧
      (s.labels 12).equivalentObject = some 11 ∧
      1 ∈ (s.labels 11).stmtReliance 1 ∧ (s.labels 12).stmtReliance 1 = ∅ := by
  have hrun : ([0, 0, 0, 1, 1, 1, 0, 0, 0, 0, 0, 1].foldlM (next sample)
      (start 2 sample.prelabeledObjects.elems)).map (fun s => ((s.labels 12).equivalentObject,
        decide (∀ t, s.workers t = .done), decide (1 ∈ (s.labels 11).stmtReliance 1),
        (s.labels 12).stmtReliance 1)) = some (some 11, true, true, ∅) := by decide +kernel
  obtain ⟨s, hs, hview⟩ := Option.map_eq_some_iff.mp hrun
  simp only [Prod.mk.injEq, decide_eq_true_eq] at hview
  exact ⟨s, foldlM_next hs, hview.2.1, hview.1, hview.2.2.1, hview.2.2.2⟩

end SVF.WPA.MeldLabelRuns
