import Mathlib.Algebra.Order.BigOperators.Group.List
import SVF.Util.DefaultMaps
import SVF.Util.Loops
import SVF.Util.NodeIDs

namespace SVF.Util.ObjectRegions

open DefaultMaps Loops NodeIDs

abbrev NodeID := ℕ

/-- The order in which the hash tables of the source are iterated. -/
structure HashOrder (K : Type*) where
  iterate : List K → List K
  perm : ∀ l, (iterate l).Perm l

/-- The objects each object shares at least one points-to set with, through the
first object of that set. -/
abbrev CoPointeeGraph := DefaultMap NodeID (List NodeID)

def insertNode (o : NodeID) (s : List NodeID) : List NodeID := if o ∈ s then s else o :: s

def addEdge (graph : CoPointeeGraph) (firstO o : NodeID) : CoPointeeGraph :=
  (graph.modify firstO (insertNode o)).modify o (insertNode firstO)

def addPointsTo (graph : CoPointeeGraph) (pts : List NodeID) : CoPointeeGraph :=
  let firstO := pts.headD 0
  pts.foldl (fun g o => if o = firstO then g else addEdge g firstO o) (graph.touch firstO)

structure Bfs where
  labels : List NodeID
  queue : List NodeID

def visit (order : HashOrder NodeID) (graph : CoPointeeGraph) (label : ℕ) (s : Bfs) : Option Bfs :=
  match s.queue with
  | [] => none
  | o :: queue => do
      let l ← s.labels[o]?
      if l ≠ UINT_MAX then
        if l = label then some { s with queue := queue } else none
      else if o ∈ graph.keys then
        some ⟨s.labels.set o label, queue ++ order.iterate (graph.get o)⟩
      else none

/-- No pop can follow the last one: every neighbour is pushed once for each edge. -/
def bfsFuel (graph : CoPointeeGraph) : ℕ := (graph.keys.map fun o => (graph.get o).length).sum + 1

def labelComponent (order : HashOrder NodeID) (graph : CoPointeeGraph) (label : ℕ) (labels : List NodeID)
    (o : NodeID) : Option (List NodeID) :=
  (whileLoop (fun s => !s.queue.isEmpty) (visit order graph label) (bfsFuel graph) ⟨labels, [o]⟩).map (·.labels)

structure Labelling where
  label : ℕ
  labels : List NodeID

/-- The label after `++label`, which starts at `UINT_MAX`. -/
def Labelling.next (s : Labelling) : ℕ := incr s.label

def labelKey (order : HashOrder NodeID) (graph : CoPointeeGraph) (s : Labelling) (o : NodeID) :
    Option Labelling := do
  let l ← s.labels[o]?
  if l ≠ UINT_MAX then some s
  else
    let labels ← labelComponent order graph s.next s.labels o
    some ⟨s.next, labels⟩

def labelAlone (s : Labelling) (o : NodeID) : Labelling :=
  if s.labels[o]? = some UINT_MAX then ⟨s.next, s.labels.set o s.next⟩ else s

def regionObjects (order : HashOrder NodeID) (graph : CoPointeeGraph) (numObjects : ℕ) :
    Option (List NodeID × ℕ) := do
  let s ← (order.iterate graph.keys).foldlM (labelKey order graph)
    ⟨UINT_MAX, List.replicate numObjects UINT_MAX⟩
  let s := (List.range numObjects).foldl labelAlone s
  some (s.labels, s.next)

theorem mem_insertNode (o m : NodeID) (s : List NodeID) : m ∈ insertNode o s ↔ m = o ∨ m ∈ s := by
  rw [insertNode]
  split
  · rename_i h
    exact ⟨.inr, fun hm => hm.elim (fun heq => heq ▸ h) id⟩
  · exact List.mem_cons

structure Undirected (numObjects : ℕ) (graph : CoPointeeGraph) : Prop where
  key_lt : ∀ o ∈ graph.keys, o < numObjects
  neighbour : ∀ o, ∀ m ∈ graph.get o, m ∈ graph.keys
  symm : ∀ o, ∀ m ∈ graph.get o, o ∈ graph.get m

theorem undirected_empty (numObjects : ℕ) : Undirected numObjects .empty where
  key_lt _ ho := absurd ho List.not_mem_nil
  neighbour _ _ hm := absurd hm List.not_mem_nil
  symm _ _ hm := absurd hm List.not_mem_nil

theorem mem_addEdge {graph : CoPointeeGraph} {firstO o : NodeID} (hne : o ≠ firstO) (u v : NodeID) :
    v ∈ (addEdge graph firstO o).get u ↔
      v ∈ graph.get u ∨ u = firstO ∧ v = o ∨ u = o ∧ v = firstO := by
  rw [addEdge, get_modify, get_modify, get_modify, if_neg hne]
  by_cases huo : u = o
  · rw [if_pos huo, mem_insertNode, huo]
    grind
  · rw [if_neg huo]
    split
    · rename_i huf
      rw [mem_insertNode, huf]
      grind
    · grind

theorem mem_keys_addEdge (graph : CoPointeeGraph) (firstO o u : NodeID) :
    u ∈ (addEdge graph firstO o).keys ↔ u ∈ graph.keys ∨ u = firstO ∨ u = o := by
  rw [addEdge, mem_keys_modify, mem_keys_modify, or_assoc]

theorem Undirected.addEdge {numObjects : ℕ} {graph : CoPointeeGraph} (h : Undirected numObjects graph)
    {firstO o : NodeID} (hne : o ≠ firstO) (hfirst : firstO < numObjects) (ho : o < numObjects) :
    Undirected numObjects (addEdge graph firstO o) where
  key_lt u hu := by
    rcases (mem_keys_addEdge graph firstO o u).mp hu with hu | rfl | rfl
    · exact h.key_lt u hu
    · exact hfirst
    · exact ho
  neighbour u v hv := by
    rw [mem_keys_addEdge]
    rcases (mem_addEdge hne u v).mp hv with hv | ⟨-, rfl⟩ | ⟨-, rfl⟩
    · exact .inl (h.neighbour u v hv)
    · exact .inr (.inr rfl)
    · exact .inr (.inl rfl)
  symm u v hv := by
    rw [mem_addEdge hne]
    rcases (mem_addEdge hne u v).mp hv with hv | ⟨rfl, rfl⟩ | ⟨rfl, rfl⟩
    · exact .inl (h.symm u v hv)
    · exact .inr (.inr ⟨rfl, rfl⟩)
    · exact .inr (.inl ⟨rfl, rfl⟩)

theorem Undirected.touch {numObjects : ℕ} {graph : CoPointeeGraph} (h : Undirected numObjects graph)
    {o : NodeID} (ho : o < numObjects) : Undirected numObjects (graph.touch o) where
  key_lt u hu := by
    rcases (mem_keys_touch graph o u).mp hu with hu | rfl
    · exact h.key_lt u hu
    · exact ho
  neighbour u v hv := by
    rw [get_touch] at hv
    exact (mem_keys_touch graph o v).mpr (.inl (h.neighbour u v hv))
  symm u v hv := by
    rw [get_touch] at hv ⊢
    exact h.symm u v hv

structure Extends (graph graph' : CoPointeeGraph) : Prop where
  keys : ∀ o ∈ graph.keys, o ∈ graph'.keys
  edges : ∀ o, ∀ m ∈ graph.get o, m ∈ graph'.get o

theorem Extends.refl (graph : CoPointeeGraph) : Extends graph graph := ⟨fun _ => id, fun _ _ => id⟩

theorem Extends.trans {g₁ g₂ g₃ : CoPointeeGraph} (h : Extends g₁ g₂) (h' : Extends g₂ g₃) : Extends g₁ g₃ :=
  ⟨fun o ho => h'.keys o (h.keys o ho), fun o m hm => h'.edges o m (h.edges o m hm)⟩

theorem extends_addEdge (graph : CoPointeeGraph) {firstO o : NodeID} (hne : o ≠ firstO) :
    Extends graph (addEdge graph firstO o) where
  keys u hu := (mem_keys_addEdge graph firstO o u).mpr (.inl hu)
  edges u v hv := (mem_addEdge hne u v).mpr (.inl hv)

def addOthers (firstO : NodeID) (pts : List NodeID) (graph : CoPointeeGraph) : CoPointeeGraph :=
  pts.foldl (fun g o => if o = firstO then g else addEdge g firstO o) graph

theorem addOthers_spec {numObjects : ℕ} {firstO : NodeID} (hfirst : firstO < numObjects) (pts : List NodeID)
    (hpts : ∀ o ∈ pts, o < numObjects) {graph : CoPointeeGraph} (h : Undirected numObjects graph) :
    Undirected numObjects (addOthers firstO pts graph) ∧ Extends graph (addOthers firstO pts graph) ∧
      ∀ o ∈ pts, o = firstO ∨ o ∈ (addOthers firstO pts graph).get firstO := by
  induction pts generalizing graph with
  | nil => exact ⟨h, .refl graph, by simp⟩
  | cons o pts ih =>
      rw [addOthers, List.foldl_cons]
      have hrest : ∀ o ∈ pts, o < numObjects := fun o ho => hpts o (List.mem_cons_of_mem _ ho)
      by_cases heq : o = firstO
      · rw [if_pos heq]
        obtain ⟨hund, hext, hin⟩ := ih hrest h
        exact ⟨hund, hext, List.forall_mem_cons.mpr ⟨.inl heq, hin⟩⟩
      · rw [if_neg heq]
        obtain ⟨hund, hext, hin⟩ := ih hrest (h.addEdge heq hfirst (hpts o List.mem_cons_self))
        refine ⟨hund, (extends_addEdge graph heq).trans hext, List.forall_mem_cons.mpr ⟨.inr ?_, hin⟩⟩
        exact hext.edges firstO o ((mem_addEdge heq firstO o).mpr (.inr (.inl ⟨rfl, rfl⟩)))

theorem addPointsTo_spec {numObjects : ℕ} (hpos : 0 < numObjects) {pts : List NodeID}
    (hpts : ∀ o ∈ pts, o < numObjects) {graph : CoPointeeGraph} (h : Undirected numObjects graph) :
    Undirected numObjects (addPointsTo graph pts) ∧ Extends graph (addPointsTo graph pts) ∧
      ∀ o ∈ pts, o = pts.headD 0 ∨ o ∈ (addPointsTo graph pts).get (pts.headD 0) := by
  have hfirst : pts.headD 0 < numObjects := by
    cases pts with
    | nil => exact hpos
    | cons o pts => exact hpts o List.mem_cons_self
  obtain ⟨hund, hext, hin⟩ := addOthers_spec hfirst pts hpts (h.touch hfirst)
  refine ⟨hund, Extends.trans ⟨fun o ho => ?_, fun o m hm => ?_⟩ hext, hin⟩
  · exact (mem_keys_touch graph _ o).mpr (.inl ho)
  · rwa [get_touch]

section

def entry (labels : List NodeID) (o : NodeID) : ℕ := labels.getD o UINT_MAX

theorem entry_set {labels : List NodeID} {o : NodeID} (ho : o < labels.length) (l : ℕ) (m : NodeID) :
    entry (labels.set o l) m = if m = o then l else entry labels m := by
  rw [entry, entry, List.getD_eq_getElem?_getD, List.getElem?_set, List.getD_eq_getElem?_getD]
  by_cases h : o = m
  · rw [if_pos h, if_pos ho, if_pos h.symm, Option.getD_some]
  · rw [if_neg h, if_neg (fun heq => h heq.symm)]

theorem getElem?_eq_entry {labels : List NodeID} {o : NodeID} (ho : o < labels.length) :
    labels[o]? = some (entry labels o) := by
  rw [entry, List.getD_eq_getElem?_getD, List.getElem?_eq_getElem ho, Option.getD_some]

theorem getElem_eq_entry {labels : List NodeID} {o : ℕ} (ho : o < labels.length) :
    labels[o] = entry labels o := by
  rw [← Option.some_inj, ← getElem?_eq_entry ho, List.getElem?_eq_getElem ho]

theorem entry_of_le {labels : List NodeID} {o : NodeID} (ho : labels.length ≤ o) : entry labels o = UINT_MAX := by
  rw [entry, List.getD_eq_getElem?_getD, List.getElem?_eq_none ho, Option.getD_none]

/-- The first `k` labels are in use, and what is labelled has no neighbour outside
its region. -/
structure Regions (numObjects : ℕ) (graph : CoPointeeGraph) (k : ℕ) (labels : List NodeID) : Prop where
  length_eq : labels.length = numObjects
  range : ∀ o, entry labels o = UINT_MAX ∨ entry labels o < k
  used : ∀ l < k, ∃ o < numObjects, entry labels o = l
  closed : ∀ o, entry labels o ≠ UINT_MAX → ∀ m ∈ graph.get o, entry labels m = entry labels o

variable {numObjects k : ℕ} (order : HashOrder NodeID) {graph : CoPointeeGraph} {labels labels₀ : List NodeID}

theorem Regions.le (h : Regions numObjects graph k labels) : k ≤ numObjects := by
  have hsub : Finset.range k ⊆ (Finset.range numObjects).image (entry labels) := by
    intro l hl
    obtain ⟨o, ho, heq⟩ := h.used l (Finset.mem_range.mp hl)
    exact Finset.mem_image.mpr ⟨o, Finset.mem_range.mpr ho, heq⟩
  calc k = (Finset.range k).card := (Finset.card_range k).symm
    _ ≤ ((Finset.range numObjects).image (entry labels)).card := Finset.card_le_card hsub
    _ ≤ (Finset.range numObjects).card := Finset.card_image_le
    _ = numObjects := Finset.card_range numObjects

theorem Regions.lt (h : Regions numObjects graph k labels) {o : ℕ} (ho : o < numObjects)
    (hnone : entry labels o = UINT_MAX) (hmax : numObjects ≤ UINT_MAX) : k < UINT_MAX := by
  by_contra hk
  have hle := h.le
  have hsub : Finset.range k ⊆ ((Finset.range numObjects).erase o).image (entry labels) := by
    intro l hl
    have hl := Finset.mem_range.mp hl
    obtain ⟨m, hm, heq⟩ := h.used l hl
    refine Finset.mem_image.mpr ⟨m, Finset.mem_erase.mpr ⟨?_, Finset.mem_range.mpr hm⟩, heq⟩
    rintro rfl
    omega
  have hcard := (Finset.card_le_card hsub).trans Finset.card_image_le
  rw [Finset.card_range, Finset.card_erase_of_mem (Finset.mem_range.mpr ho), Finset.card_range] at hcard
  omega

/-- Labelling the component of `start` with `k`, where `labels₀` is where it began. -/
structure Component (numObjects : ℕ) (graph : CoPointeeGraph) (k : ℕ) (labels₀ : List NodeID) (start : NodeID)
    (s : Bfs) : Prop where
  length_eq : s.labels.length = numObjects
  old : ∀ o, entry labels₀ o ≠ UINT_MAX → entry s.labels o = entry labels₀ o
  new : ∀ o, entry labels₀ o = UINT_MAX → entry s.labels o = UINT_MAX ∨ entry s.labels o = k
  queue : ∀ q ∈ s.queue, q ∈ graph.keys ∧ entry labels₀ q = UINT_MAX
  passed : ∀ o, entry labels₀ o = UINT_MAX → entry s.labels o = k →
    ∀ m ∈ graph.get o, entry s.labels m = k ∨ m ∈ s.queue
  start : entry s.labels start = k ∨ start ∈ s.queue

/-- The edges that have not been followed, and the length of the queue. -/
def remaining (graph : CoPointeeGraph) (s : Bfs) : ℕ :=
  s.queue.length + (graph.keys.map fun o => if entry s.labels o = UINT_MAX then (graph.get o).length else 0).sum

theorem sum_map_erase_one {l : List NodeID} (hl : l.Nodup) {o : NodeID} (ho : o ∈ l) {f g : NodeID → ℕ}
    (hzero : g o = 0) (heq : ∀ m, m ≠ o → g m = f m) : f o + (l.map g).sum = (l.map f).sum := by
  have hmap : (l.erase o).map g = (l.erase o).map f := by
    apply List.map_congr_left
    intro m hm
    exact heq m ((List.Nodup.mem_erase_iff hl).mp hm).1
  rw [← List.sum_map_erase f ho, ← List.sum_map_erase g ho, hzero, hmap, Nat.zero_add]

theorem Component.visit (hgraph : Undirected numObjects graph) (hregions : Regions numObjects graph k labels₀)
    (hk : k < UINT_MAX) {start : NodeID} {s : Bfs} (h : Component numObjects graph k labels₀ start s)
    (hq : s.queue ≠ []) : ∃ s', visit order graph k s = some s' ∧
      Component numObjects graph k labels₀ start s' ∧ remaining graph s' < remaining graph s := by
  obtain ⟨labels, queue⟩ := s
  cases queue with
  | nil => exact absurd rfl hq
  | cons o queue =>
      obtain ⟨hkey, hnone⟩ := h.queue o List.mem_cons_self
      have ho : o < labels.length := h.length_eq ▸ hgraph.key_lt o hkey
      have hqueue : ∀ q ∈ queue, q ∈ graph.keys ∧ entry labels₀ q = UINT_MAX :=
        fun q hq => h.queue q (List.mem_cons_of_mem _ hq)
      by_cases hlab : entry labels o = UINT_MAX
      · refine ⟨⟨labels.set o k, queue ++ order.iterate (graph.get o)⟩, ?_, ?_, ?_⟩
        · simp [ObjectRegions.visit, getElem?_eq_entry ho, hlab, hkey]
        · have hperm : ∀ m, m ∈ order.iterate (graph.get o) ↔ m ∈ graph.get o :=
            fun m => (order.perm _).mem_iff
          refine {
            length_eq := ?_
            old := ?_
            new := ?_
            queue := ?_
            passed := ?_
            start := ?_ }
          · rw [List.length_set]
            exact h.length_eq
          · intro m hm
            have hmo : m ≠ o := fun heq => hm (heq ▸ hnone)
            rw [entry_set ho, if_neg hmo]
            exact h.old m hm
          · intro m hm
            rw [entry_set ho]
            split
            · exact .inr rfl
            · exact h.new m hm
          · intro q hq
            rcases List.mem_append.mp hq with hq | hq
            · exact hqueue q hq
            · -- A neighbour labelled before would have given `o` its own label.
              rw [hperm] at hq
              refine ⟨hgraph.neighbour o q hq, ?_⟩
              by_contra hold
              have hsame := hregions.closed q hold o (hgraph.symm o q hq)
              exact hold (hsame ▸ hnone)
          · intro m hm hmk u hu
            rw [entry_set ho, List.mem_append, hperm]
            rw [entry_set ho] at hmk
            by_cases hmo : m = o
            · exact .inr (.inr (hmo ▸ hu))
            · rw [if_neg hmo] at hmk
              by_cases huo : u = o
              · exact .inl (if_pos huo)
              · rw [if_neg huo]
                rcases h.passed m hm hmk u hu with hlu | hlu
                · exact .inl hlu
                · exact .inr (.inl ((List.mem_cons.mp hlu).resolve_left huo))
          · rw [entry_set ho, List.mem_append]
            by_cases hso : start = o
            · exact .inl (if_pos hso)
            · rw [if_neg hso]
              exact h.start.imp id fun hs => .inl ((List.mem_cons.mp hs).resolve_left hso)
        · have hsum := sum_map_erase_one graph.nodup hkey
            (f := fun m => if entry labels m = UINT_MAX then (graph.get m).length else 0)
            (g := fun m => if entry (labels.set o k) m = UINT_MAX then (graph.get m).length else 0)
            (by simp [entry_set ho, hk.ne]) (fun m hm => by simp [entry_set ho, hm])
          rw [if_pos hlab] at hsum
          simp only [remaining, List.length_append, (order.perm _).length_eq, List.length_cons]
          omega
      · have hlk : entry labels o = k := (h.new o hnone).resolve_left hlab
        refine ⟨⟨labels, queue⟩, ?_, ?_, ?_⟩
        · simp [ObjectRegions.visit, getElem?_eq_entry ho, hlk, hk.ne]
        · refine {
            length_eq := h.length_eq
            old := h.old
            new := h.new
            queue := hqueue
            passed := ?_
            start := ?_ }
          · intro m hm hmk u hu
            rcases h.passed m hm hmk u hu with hlu | hlu
            · exact .inl hlu
            · rcases List.mem_cons.mp hlu with rfl | hlu
              · exact .inl hlk
              · exact .inr hlu
          · rcases h.start with hs | hs
            · exact .inl hs
            · rcases List.mem_cons.mp hs with rfl | hs
              · exact .inl hlk
              · exact .inr hs
        · simp only [remaining, List.length_cons]
          omega

theorem Component.end_regions (hregions : Regions numObjects graph k labels₀) (hk : k < UINT_MAX)
    {start : NodeID} (hstart : start < numObjects) {s : Bfs}
    (h : Component numObjects graph k labels₀ start s) (hq : s.queue = []) :
    Regions numObjects graph (k + 1) s.labels ∧ entry s.labels start = k := by
  have hlab : entry s.labels start = k := h.start.resolve_right (by simp [hq])
  refine ⟨?_, hlab⟩
  refine {
    length_eq := h.length_eq
    range := ?_
    used := ?_
    closed := ?_ }
  · intro o
    by_cases ho : entry labels₀ o = UINT_MAX
    · exact (h.new o ho).imp id fun heq => by omega
    · have hold := h.old o ho
      exact .inr (by have := (hregions.range o).resolve_left ho; omega)
  · intro l hl
    by_cases hlk : l = k
    · exact ⟨start, hstart, hlk ▸ hlab⟩
    · obtain ⟨o, ho, heq⟩ := hregions.used l (by omega)
      have hne : entry labels₀ o ≠ UINT_MAX := by omega
      exact ⟨o, ho, by rw [h.old o hne, heq]⟩
  · intro o ho m hm
    by_cases hnone : entry labels₀ o = UINT_MAX
    · have hok := (h.new o hnone).resolve_left ho
      rcases h.passed o hnone hok m hm with hmk | hmq
      · exact hmk.trans hok.symm
      · simp [hq] at hmq
    · have hsame := hregions.closed o hnone m hm
      rw [h.old m (hsame ▸ hnone), h.old o hnone, hsame]

theorem labelComponent_spec (hgraph : Undirected numObjects graph) (h : Regions numObjects graph k labels)
    (hk : k < UINT_MAX) {start : NodeID} (hstart : start ∈ graph.keys) (hnone : entry labels start = UINT_MAX) :
    ∃ labels', labelComponent order graph k labels start = some labels' ∧
      Regions numObjects graph (k + 1) labels' ∧ entry labels' start = k ∧
      ∀ o, entry labels o ≠ UINT_MAX → entry labels' o = entry labels o := by
  have hinit : Component numObjects graph k labels start ⟨labels, [start]⟩ := {
    length_eq := h.length_eq
    old := fun _ _ => rfl
    new := fun _ ho => .inl ho
    queue := by simpa using ⟨hstart, hnone⟩
    passed := fun o ho hok => absurd (hok.symm.trans ho) hk.ne
    start := .inr List.mem_cons_self }
  have hfuel : remaining graph ⟨labels, [start]⟩ ≤ bfsFuel graph := by
    have hsum : (graph.keys.map fun o => if entry labels o = UINT_MAX then (graph.get o).length else 0).sum ≤
        (graph.keys.map fun o => (graph.get o).length).sum := by
      apply List.sum_le_sum
      intro o _
      split
      · exact le_rfl
      · exact Nat.zero_le _
    simp only [remaining, bfsFuel, List.length_cons, List.length_nil]
    omega
  obtain ⟨s, hs, hcomp, hend⟩ := whileLoop_terminates (fun s : Bfs => !s.queue.isEmpty)
    (I := Component numObjects graph k labels start) (m := remaining graph)
    (fun s hs hg => hs.visit order hgraph h hk (by simpa using hg)) hinit hfuel
  obtain ⟨hregions, hlab⟩ := hcomp.end_regions h hk (hgraph.key_lt start hstart) (by simpa using hend)
  exact ⟨s.labels, by rw [labelComponent, hs, Option.map_some], hregions, hlab, hcomp.old⟩

structure Labels (numObjects : ℕ) (graph : CoPointeeGraph) (o : NodeID) (s s' : Labelling) : Prop where
  regions : Regions numObjects graph s'.next s'.labels
  keeps : ∀ m, entry s.labels m ≠ UINT_MAX → entry s'.labels m = entry s.labels m
  labelled : entry s'.labels o ≠ UINT_MAX

theorem labelKey_spec (hgraph : Undirected numObjects graph) (hmax : numObjects ≤ UINT_MAX) {s : Labelling}
    (h : Regions numObjects graph s.next s.labels) {o : NodeID} (ho : o ∈ graph.keys) :
    ∃ s', labelKey order graph s o = some s' ∧ Labels numObjects graph o s s' := by
  have hlt := hgraph.key_lt o ho
  have hget := getElem?_eq_entry (h.length_eq.symm ▸ hlt)
  by_cases hlab : entry s.labels o = UINT_MAX
  · have hk := h.lt hlt hlab hmax
    obtain ⟨labels', hcomp, hregions, hnew, hold⟩ := labelComponent_spec order hgraph h hk ho hlab
    refine ⟨⟨s.next, labels'⟩, by simp [labelKey, hget, hlab, hcomp], ?_, hold, ?_⟩
    · have hnext : Labelling.next ⟨s.next, labels'⟩ = s.next + 1 := incr_of_lt hk
      exact hnext ▸ hregions
    · exact fun heq => hk.ne (hnew.symm.trans heq)
  · exact ⟨s, by simp [labelKey, hget, hlab], h, fun _ _ => rfl, hlab⟩

theorem labelKeys_spec (hgraph : Undirected numObjects graph) (hmax : numObjects ≤ UINT_MAX)
    (os : List NodeID) (hos : ∀ o ∈ os, o ∈ graph.keys) {s : Labelling}
    (h : Regions numObjects graph s.next s.labels) :
    ∃ s', os.foldlM (labelKey order graph) s = some s' ∧ Regions numObjects graph s'.next s'.labels ∧
      (∀ m, entry s.labels m ≠ UINT_MAX → entry s'.labels m = entry s.labels m) ∧
      ∀ o ∈ os, entry s'.labels o ≠ UINT_MAX := by
  induction os generalizing s with
  | nil => exact ⟨s, rfl, h, fun _ _ => rfl, by simp⟩
  | cons o os ih =>
      obtain ⟨hkey, hrest⟩ := List.forall_mem_cons.mp hos
      obtain ⟨s₁, hs₁, hone⟩ := labelKey_spec order hgraph hmax h hkey
      obtain ⟨s', hs', hregions, hkeep, hall⟩ := ih hrest hone.regions
      refine ⟨s', by rw [List.foldlM_cons, hs₁]; exact hs', hregions, ?_, List.forall_mem_cons.mpr ⟨?_, hall⟩⟩
      · intro m hm
        have hm₁ := hone.keeps m hm
        rw [hkeep m (hm₁ ▸ hm), hm₁]
      · rw [hkeep o hone.labelled]
        exact hone.labelled

theorem labelAlone_spec (hgraph : Undirected numObjects graph) (hmax : numObjects ≤ UINT_MAX) {s : Labelling}
    (h : Regions numObjects graph s.next s.labels) (hkeys : ∀ o ∈ graph.keys, entry s.labels o ≠ UINT_MAX)
    {o : NodeID} (ho : o < numObjects) : Labels numObjects graph o s (labelAlone s o) := by
  have hlen : o < s.labels.length := h.length_eq.symm ▸ ho
  rw [labelAlone, getElem?_eq_entry hlen]
  by_cases hlab : entry s.labels o = UINT_MAX
  · have hk := h.lt ho hlab hmax
    have hkey : o ∉ graph.keys := fun hmem => hkeys o hmem hlab
    have hnext : Labelling.next ⟨s.next, s.labels.set o s.next⟩ = s.next + 1 := incr_of_lt hk
    rw [if_pos (by rw [hlab])]
    refine {
      regions := hnext ▸ {
        length_eq := (List.length_set).trans h.length_eq
        range := ?_
        used := ?_
        closed := ?_ }
      keeps := ?_
      labelled := ?_ }
    · intro m
      rw [entry_set hlen]
      split
      · exact .inr (Nat.lt_succ_self _)
      · exact (h.range m).imp id fun hlt => hlt.trans (Nat.lt_succ_self _)
    · intro l hl
      by_cases hlk : l = s.next
      · exact ⟨o, ho, by rw [entry_set hlen, if_pos rfl, hlk]⟩
      · obtain ⟨m, hm, heq⟩ := h.used l (by omega)
        have hmo : m ≠ o := by
          rintro rfl
          omega
        exact ⟨m, hm, by rw [entry_set hlen, if_neg hmo, heq]⟩
    · intro m hm u hu
      have huo : u ≠ o := fun heq => hkey (heq ▸ hgraph.neighbour m u hu)
      have hmo : m ≠ o := fun heq => hkey (heq ▸ hgraph.neighbour u m (hgraph.symm m u hu))
      rw [entry_set hlen, if_neg hmo] at hm
      rw [entry_set hlen, entry_set hlen, if_neg huo, if_neg hmo]
      exact h.closed m hm u hu
    · intro m hm
      have hmo : m ≠ o := fun heq => hm (heq ▸ hlab)
      rw [entry_set hlen, if_neg hmo]
    · rw [entry_set hlen, if_pos rfl]
      exact hk.ne
  · rw [if_neg (fun heq => hlab (Option.some.inj heq))]
    exact ⟨h, fun _ _ => rfl, hlab⟩

theorem labelAll_spec (hgraph : Undirected numObjects graph) (hmax : numObjects ≤ UINT_MAX)
    (os : List NodeID) (hos : ∀ o ∈ os, o < numObjects) {s : Labelling}
    (h : Regions numObjects graph s.next s.labels) (hkeys : ∀ o ∈ graph.keys, entry s.labels o ≠ UINT_MAX) :
    Regions numObjects graph (os.foldl labelAlone s).next (os.foldl labelAlone s).labels ∧
      (∀ m, entry s.labels m ≠ UINT_MAX → entry (os.foldl labelAlone s).labels m ≠ UINT_MAX) ∧
      ∀ o ∈ os, entry (os.foldl labelAlone s).labels o ≠ UINT_MAX := by
  induction os generalizing s with
  | nil => exact ⟨h, fun _ => id, by simp⟩
  | cons o os ih =>
      obtain ⟨ho, hrest⟩ := List.forall_mem_cons.mp hos
      have hone := labelAlone_spec hgraph hmax h hkeys ho
      have hkept : ∀ m, entry s.labels m ≠ UINT_MAX → entry (labelAlone s o).labels m ≠ UINT_MAX :=
        fun m hm => hone.keeps m hm ▸ hm
      obtain ⟨hregions, hkeep, hall⟩ := ih hrest hone.regions fun m hm => hkept m (hkeys m hm)
      exact ⟨hregions, fun m hm => hkeep m (hkept m hm), List.forall_mem_cons.mpr ⟨hkeep o hone.labelled, hall⟩⟩

theorem regions_init (numObjects : ℕ) (graph : CoPointeeGraph) :
    Regions numObjects graph 0 (List.replicate numObjects UINT_MAX) := by
  have hnone : ∀ o, entry (List.replicate numObjects UINT_MAX) o = UINT_MAX := by
    intro o
    by_cases ho : o < numObjects
    · simp [entry, List.getD_eq_getElem?_getD, ho]
    · exact entry_of_le (by simpa using ho)
  exact {
    length_eq := List.length_replicate
    range := fun o => .inl (hnone o)
    used := by simp
    closed := fun o ho => absurd (hnone o) ho }

/-- Every object has one of the labels, every label is one of an object, and
objects with an edge between them have the same. -/
theorem regionObjects_spec (hgraph : Undirected numObjects graph) (hmax : numObjects ≤ UINT_MAX) :
    ∃ labels n, regionObjects order graph numObjects = some (labels, n) ∧ labels.length = numObjects ∧
      (∀ o < numObjects, entry labels o < n) ∧ (∀ l < n, ∃ o < numObjects, entry labels o = l) ∧
      ∀ o < numObjects, ∀ m ∈ graph.get o, entry labels m = entry labels o := by
  let start : Labelling := ⟨UINT_MAX, List.replicate numObjects UINT_MAX⟩
  have hstart : start.next = 0 := by simp [start, Labelling.next, incr, UINT_MAX]
  obtain ⟨s, hs, hregions, -, hkeys⟩ := labelKeys_spec order hgraph hmax (order.iterate graph.keys)
    (fun o ho => (order.perm _).mem_iff.mp ho) (s := start) (hstart.symm ▸ regions_init numObjects graph)
  obtain ⟨hend, -, hall⟩ := labelAll_spec hgraph hmax (List.range numObjects)
    (fun o ho => List.mem_range.mp ho) hregions
    (fun o ho => hkeys o ((order.perm _).mem_iff.mpr ho))
  have hall : ∀ o < numObjects, entry _ o ≠ UINT_MAX := fun o ho => hall o (List.mem_range.mpr ho)
  refine ⟨_, _, by rw [regionObjects, hs]; rfl, hend.length_eq, ?_, hend.used, ?_⟩
  · exact fun o ho => (hend.range o).resolve_left (hall o ho)
  · exact fun o ho => hend.closed o (hall o ho)

end

end SVF.Util.ObjectRegions
