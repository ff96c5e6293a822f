import SVF.Graphs.SCC

namespace SVF.Graphs.SCCInvariant

open SCC SCC.SCCDetection
open Util.NodeIDs (UINT_MAX)

variable {G : Graph}

def low (s : SCCDetection) (n : NodeID) : ℕ := s.D (s.rep n)

/-- While the nodes on `path` are being visited. The nodes on the stack `SS` have been left,
and their components are not complete. -/
structure Inv (G : Graph) (path : List NodeID) (s : SCCDetection) : Prop where
  visited_iff : ∀ n, s.visited n ↔ n ∈ path ∨ n ∈ s.SS ∨ s.inSCC n
  path : ∀ n ∈ path, ¬ s.inSCC n ∧ n ∉ s.SS
  stack : ∀ n ∈ s.SS, ¬ s.inSCC n
  nodes : ∀ n, s.visited n → n ∈ G.nodes
  unvisited : ∀ n, ¬ s.visited n → s.info n = {}
  D_le : ∀ n, s.visited n → s.D n ≤ s.I
  D_inj : ∀ n m, s.visited n → s.visited m → s.D n = s.D m → n = m
  rep : ∀ n, s.visited n → ¬ s.inSCC n →
    s.visited (s.rep n) ∧ ¬ s.inSCC (s.rep n) ∧ low s n ≤ s.D n ∧ Reach G n (s.rep n)
  stack_rep : ∀ n ∈ s.SS, s.rep n ≠ n
  stack_edge : ∀ n ∈ s.SS, ∀ m ∈ G.succs n, s.visited m ∧ (s.inSCC m ∨ low s n ≤ s.D m)
  done_edge : ∀ n, s.inSCC n → ∀ m ∈ G.succs n, s.inSCC m
  done_rep : ∀ n, s.inSCC n → s.inSCC (s.rep n) ∧ s.rep (s.rep n) = s.rep n ∧
    ∀ m, s.inSCC m ∧ s.rep m = s.rep n ↔ Mutual G n m
  done_sub : ∀ r, s.inSCC r → s.rep r = r → ∀ n, n ∈ s.subNodes r ↔ s.inSCC n ∧ s.rep n = r
  open_sub : ∀ r, ¬ s.inSCC r → ∀ n ∈ s.subNodes r,
    s.visited n ∧ ¬ s.inSCC n ∧ low s n ≤ s.D r ∧ s.D r ≤ s.D n
  self_sub : ∀ n, s.visited n → s.rep n = n → n ∈ s.subNodes n
  topo_mem : ∀ r, r ∈ s.T ↔ s.inSCC r ∧ s.rep r = r
  topo_nodup : s.T.Nodup
  topo_order : s.T.Pairwise fun a b => ¬ Reach G b a

variable {path : List NodeID} {s : SCCDetection} {v w : NodeID}

theorem inv_start : Inv G [] {} := by
  have hvisited : ∀ n, ¬ ({} : SCCDetection).visited n := fun _ => Bool.false_ne_true
  have hdone : ∀ n, ¬ ({} : SCCDetection).inSCC n := fun _ => Bool.false_ne_true
  refine ⟨fun n => ?_, fun _ h => ?_, fun _ h => ?_, fun n h => (hvisited n h).elim, fun _ _ => rfl,
    fun n h => (hvisited n h).elim, fun n _ h => (hvisited n h).elim,
    fun n h => (hvisited n h).elim, fun _ h => ?_, fun _ h => ?_, fun n h => (hdone n h).elim,
    fun n h => (hdone n h).elim, fun n h => (hdone n h).elim, fun _ _ _ h => ?_,
    fun n h => (hvisited n h).elim, fun r => ?_,
    List.nodup_nil, List.Pairwise.nil⟩
  · exact iff_of_false (hvisited n) (by simp [hdone])
  · simp at h
  · simp at h
  · simp at h
  · simp at h
  · simp [subNodes] at h
  · exact iff_of_false List.not_mem_nil fun h => hdone r h.1

theorem Inv.not_inSCC (h : Inv G path s) {n : NodeID} (hn : ¬ s.visited n) : ¬ s.inSCC n :=
  fun hdone => hn ((h.visited_iff n).mpr (.inr (.inr hdone)))

theorem Inv.visited_inSCC (h : Inv G path s) {n : NodeID} (hn : s.inSCC n) : s.visited n :=
  (h.visited_iff n).mpr (.inr (.inr hn))

theorem Inv.visited_stack (h : Inv G path s) {n : NodeID} (hn : n ∈ s.SS) : s.visited n :=
  (h.visited_iff n).mpr (.inr (.inl hn))

theorem Inv.visited_path (h : Inv G path s) {n : NodeID} (hn : n ∈ path) : s.visited n :=
  (h.visited_iff n).mpr (.inl hn)

theorem Inv.done_reach (h : Inv G path s) {n m : NodeID} (hn : s.inSCC n) (hm : Reach G n m) :
    s.inSCC m := closed_of_reach h.done_edge hm hn

theorem visited_enter (n : NodeID) : (s.enter v).visited n ↔ n = v ∨ s.visited n := by
  rw [enter, setVisited, visited_modify, visited_setRep]
  by_cases hn : n = v
  · simp [hn]
  · rw [if_neg hn]
    simp only [hn, false_or]
    exact Iff.rfl

theorem inSCC_enter (n : NodeID) : (s.enter v).inSCC n = s.inSCC n := by
  rw [enter, setVisited, inSCC_modify]
  by_cases hn : n = v
  · rw [if_pos hn, hn]
    exact inSCC_setRep _ v v v
  · rw [if_neg hn]
    exact inSCC_setRep _ v v n

theorem rep_enter (n : NodeID) : (s.enter v).rep n = if n = v then v else s.rep n := by
  rw [enter, setVisited, rep_modify]
  by_cases hn : n = v
  · rw [if_pos hn, if_pos hn]
    exact (rep_setRep _ v v v).trans (if_pos rfl)
  · rw [if_neg hn, if_neg hn, rep_setRep, if_neg hn]
    rfl

theorem subNodes_enter (n : NodeID) :
    (s.enter v).subNodes n = if n = v then insert v (s.subNodes v) else s.subNodes n := by
  rw [enter, setVisited, subNodes_modify]
  by_cases hn : n = v
  · rw [if_pos hn, if_pos hn]
    exact (subNodes_setRep _ v v v).trans (by simp [subNodes])
  · rw [if_neg hn, if_neg hn, subNodes_setRep]
    simp [hn, subNodes]

theorem search_enter : (s.enter v).I = s.I + 1 ∧ (s.enter v).D = Function.update s.D v (s.I + 1) ∧
    (s.enter v).SS = s.SS ∧ (s.enter v).T = s.T := search_setRep _ v v

theorem info_enter {n : NodeID} (hn : n ≠ v) : (s.enter v).info n = s.info n := by
  rw [enter, setVisited, info_modify, if_neg hn, info_setRep]
  simp [hn, visited, inSCC, rep, subNodes]

theorem D_enter_of_visited (hv : ¬ s.visited v) {n : NodeID} (hn : s.visited n) :
    (s.enter v).D n = s.D n := by
  rw [search_enter.2.1]
  refine Function.update_of_ne ?_ _ _
  rintro rfl
  exact hv hn

theorem low_enter_of_visited (h : Inv G path s) (hv : ¬ s.visited v) {n : NodeID}
    (hn : s.visited n) (hdone : ¬ s.inSCC n) : low (s.enter v) n = low s n := by
  have hne : n ≠ v := fun heq => hv (heq ▸ hn)
  rw [low, rep_enter, if_neg hne]
  exact D_enter_of_visited hv (h.rep n hn hdone).1

theorem low_enter : low (s.enter v) v = s.I + 1 := by
  rw [low, rep_enter, if_pos rfl, search_enter.2.1, Function.update_self]

theorem Inv.enter (h : Inv G path s) (hv : ¬ s.visited v) (hnode : v ∈ G.nodes) :
    Inv G (v :: path) (s.enter v) := by
  obtain ⟨hI, hD, hSS, hT⟩ := @search_enter s v
  have hne : ∀ {n : NodeID}, s.visited n → n ≠ v := fun hn heq => hv (heq ▸ hn)
  have hDv : (s.enter v).D v = s.I + 1 := by rw [hD, Function.update_self]
  have hDn : ∀ {n : NodeID}, s.visited n → (s.enter v).D n = s.D n := D_enter_of_visited hv
  have hrep : ∀ {n : NodeID}, s.visited n → (s.enter v).rep n = s.rep n := fun hn => by
    rw [rep_enter, if_neg (hne hn)]
  have hvdone := h.not_inSCC hv
  have hsub : s.subNodes v = ∅ := by
    rw [subNodes, h.unvisited v hv]
  exact {
    visited_iff := by
      intro n
      rw [visited_enter, inSCC_enter, hSS, List.mem_cons, or_assoc]
      exact or_congr_right (h.visited_iff n)
    path := by
      intro n hn
      rw [inSCC_enter, hSS]
      rcases List.mem_cons.mp hn with rfl | hn
      · exact ⟨hvdone, fun hmem => hv (h.visited_stack hmem)⟩
      · exact h.path n hn
    stack := by
      intro n hn
      rw [hSS] at hn
      rw [inSCC_enter]
      exact h.stack n hn
    nodes := by
      intro n hn
      rcases (visited_enter n).mp hn with rfl | hn
      · exact hnode
      · exact h.nodes n hn
    unvisited := by
      intro n hn
      rw [visited_enter, not_or] at hn
      rw [info_enter hn.1]
      exact h.unvisited n hn.2
    D_le := by
      intro n hn
      rcases (visited_enter n).mp hn with rfl | hn
      · rw [hDv, hI]
      · have hle := h.D_le n hn
        rw [hDn hn, hI]
        omega
    D_inj := by
      intro n m hn hm heq
      rcases (visited_enter n).mp hn with rfl | hn
      · rcases (visited_enter m).mp hm with rfl | hm
        · rfl
        · have hle := h.D_le m hm
          rw [hDv, hDn hm] at heq
          omega
      · rcases (visited_enter m).mp hm with hmv | hm
        · have hle := h.D_le n hn
          rw [hmv, hDv, hDn hn] at heq
          omega
        · rw [hDn hn, hDn hm] at heq
          exact h.D_inj n m hn hm heq
    rep := by
      intro n hn hdone
      rw [inSCC_enter] at hdone
      rcases (visited_enter n).mp hn with rfl | hn
      · rw [low, rep_enter, if_pos rfl, inSCC_enter, visited_enter]
        exact ⟨.inl rfl, hdone, le_refl _, .refl⟩
      · obtain ⟨hvis, hopen, hlow, hreach⟩ := h.rep n hn hdone
        rw [low_enter_of_visited h hv hn hdone, hrep hn, hDn hn, inSCC_enter, visited_enter]
        exact ⟨.inr hvis, hopen, hlow, hreach⟩
    stack_rep := by
      intro n hn
      rw [hSS] at hn
      rw [hrep (h.visited_stack hn)]
      exact h.stack_rep n hn
    stack_edge := by
      intro n hn m hm
      rw [hSS] at hn
      obtain ⟨hvis, hedge⟩ := h.stack_edge n hn m hm
      rw [low_enter_of_visited h hv (h.visited_stack hn) (h.stack n hn), hDn hvis, inSCC_enter,
        visited_enter]
      exact ⟨.inr hvis, hedge⟩
    done_edge := by
      intro n hn m hm
      rw [inSCC_enter] at hn ⊢
      exact h.done_edge n hn m hm
    done_rep := by
      intro n hn
      rw [inSCC_enter] at hn
      obtain ⟨hdone, hrr, hmutual⟩ := h.done_rep n hn
      rw [hrep (h.visited_inSCC hn), hrep (h.visited_inSCC hdone), inSCC_enter]
      refine ⟨hdone, hrr, fun m => ?_⟩
      rw [inSCC_enter, ← hmutual]
      refine and_congr_right fun hm => ?_
      rw [hrep (h.visited_inSCC hm)]
    done_sub := by
      intro r hr hrr n
      rw [inSCC_enter] at hr
      rw [hrep (h.visited_inSCC hr)] at hrr
      rw [subNodes_enter, if_neg (hne (h.visited_inSCC hr)), h.done_sub r hr hrr, inSCC_enter]
      refine and_congr_right fun hn => ?_
      rw [hrep (h.visited_inSCC hn)]
    open_sub := by
      intro r hr n hn
      rw [inSCC_enter] at hr
      rw [subNodes_enter] at hn
      by_cases hrv : r = v
      · rw [if_pos hrv, hsub, Finset.mem_insert] at hn
        rcases hn with rfl | hn
        · rw [hrv, visited_enter, inSCC_enter, low_enter, hDv]
          exact ⟨.inl rfl, hvdone, le_refl _, le_refl _⟩
        · simp at hn
      · rw [if_neg hrv] at hn
        obtain ⟨hvis, hopen, hlow, hle⟩ := h.open_sub r hr n hn
        have hDr : (s.enter v).D r = s.D r := by rw [hD, Function.update_of_ne hrv]
        rw [low_enter_of_visited h hv hvis hopen, hDn hvis, hDr, inSCC_enter, visited_enter]
        exact ⟨.inr hvis, hopen, hlow, hle⟩
    self_sub := by
      intro n hn hnn
      rw [subNodes_enter]
      rcases (visited_enter n).mp hn with rfl | hn
      · rw [if_pos rfl]
        exact Finset.mem_insert_self n _
      · rw [hrep hn] at hnn
        rw [if_neg (hne hn)]
        exact h.self_sub n hn hnn
    topo_mem := by
      intro r
      rw [hT, h.topo_mem, inSCC_enter]
      refine and_congr_right fun hr => ?_
      rw [hrep (h.visited_inSCC hr)]
    topo_nodup := by
      rw [hT]
      exact h.topo_nodup
    topo_order := by
      rw [hT]
      exact h.topo_order }

theorem low_setRep (r n : NodeID) :
    low (s.setRep v r) n = if n = v then s.D r else low s n := by
  rw [low, rep_setRep, D_setRep]
  split
  · rfl
  · rfl

theorem Inv.setRep (h : Inv G (v :: path) s) {r : NodeID} (hr : s.visited r)
    (hopen : ¬ s.inSCC r) (hle : s.D r ≤ low s v) (hreach : Reach G v r) :
    Inv G (v :: path) (s.setRep v r) := by
  obtain ⟨hvdone, hvstack⟩ := h.path v List.mem_cons_self
  have hv := h.visited_path (n := v) List.mem_cons_self
  have hvlow : s.D r ≤ s.D v := hle.trans (h.rep v hv hvdone).2.2.1
  have hne : ∀ {n : NodeID}, s.inSCC n → n ≠ v := fun hn heq => hvdone (heq ▸ hn)
  have hrep : ∀ {n : NodeID}, s.inSCC n → (s.setRep v r).rep n = s.rep n := fun hn => by
    rw [rep_setRep, if_neg (hne hn)]
  exact {
    visited_iff := by
      intro n
      rw [visited_setRep, inSCC_setRep, SS_setRep]
      exact h.visited_iff n
    path := by
      intro n hn
      rw [inSCC_setRep, SS_setRep]
      exact h.path n hn
    stack := by
      intro n hn
      rw [SS_setRep] at hn
      rw [inSCC_setRep]
      exact h.stack n hn
    nodes := by
      intro n hn
      rw [visited_setRep] at hn
      exact h.nodes n hn
    unvisited := by
      intro n hn
      rw [visited_setRep] at hn
      have hnv : n ≠ v := fun heq => hn (heq ▸ hv)
      have hnr : n ≠ r := fun heq => hn (heq ▸ hr)
      rw [info_setRep]
      simp only [hnv, hnr, if_false, false_and]
      exact h.unvisited n hn
    D_le := by
      intro n hn
      rw [visited_setRep] at hn
      rw [D_setRep, I_setRep]
      exact h.D_le n hn
    D_inj := by
      intro n m hn hm heq
      rw [visited_setRep] at hn hm
      rw [D_setRep] at heq
      exact h.D_inj n m hn hm heq
    rep := by
      intro n hn hdone
      rw [visited_setRep] at hn
      rw [inSCC_setRep] at hdone
      rw [visited_setRep, inSCC_setRep, low_setRep, D_setRep, rep_setRep]
      by_cases hnv : n = v
      · rw [if_pos hnv, if_pos hnv, hnv]
        exact ⟨hr, hopen, hvlow, hreach⟩
      · rw [if_neg hnv, if_neg hnv]
        exact h.rep n hn hdone
    stack_rep := by
      intro n hn
      rw [SS_setRep] at hn
      have hnv : n ≠ v := fun heq => hvstack (heq ▸ hn)
      rw [rep_setRep, if_neg hnv]
      exact h.stack_rep n hn
    stack_edge := by
      intro n hn m hm
      rw [SS_setRep] at hn
      have hnv : n ≠ v := fun heq => hvstack (heq ▸ hn)
      rw [visited_setRep, inSCC_setRep, D_setRep, low_setRep, if_neg hnv]
      exact h.stack_edge n hn m hm
    done_edge := by
      intro n hn m hm
      rw [inSCC_setRep] at hn ⊢
      exact h.done_edge n hn m hm
    done_rep := by
      intro n hn
      rw [inSCC_setRep] at hn
      obtain ⟨hdone, hrr, hmutual⟩ := h.done_rep n hn
      rw [hrep hn, hrep hdone, inSCC_setRep]
      refine ⟨hdone, hrr, fun m => ?_⟩
      rw [inSCC_setRep, ← hmutual]
      refine and_congr_right fun hm => ?_
      rw [hrep hm]
    done_sub := by
      intro r' hr' hrr n
      rw [inSCC_setRep] at hr'
      rw [hrep hr'] at hrr
      have hr'r : r' ≠ r := fun heq => hopen (heq ▸ hr')
      rw [subNodes_setRep, if_neg (fun heq => hne hr' heq.1), if_neg hr'r, h.done_sub r' hr' hrr,
        inSCC_setRep]
      refine and_congr_right fun hn => ?_
      rw [hrep hn]
    open_sub := by
      intro r' hr' n hn
      rw [inSCC_setRep] at hr'
      rw [visited_setRep, inSCC_setRep, low_setRep, D_setRep]
      have hold : n ∈ s.subNodes r' → s.visited n ∧ ¬ s.inSCC n ∧
          (if n = v then s.D r else low s n) ≤ s.D r' ∧ s.D r' ≤ s.D n := by
        intro hn
        obtain ⟨hvis, hopen', hlow, hle'⟩ := h.open_sub r' hr' n hn
        refine ⟨hvis, hopen', ?_, hle'⟩
        split
        · rename_i hnv
          exact hle.trans (hnv ▸ hlow)
        · exact hlow
      rw [subNodes_setRep] at hn
      split at hn
      · simp at hn
      split at hn
      · rename_i hr'r
        rcases Finset.mem_insert.mp hn with hnv | hn
        · rw [hnv, hr'r, if_pos rfl]
          exact ⟨hv, hvdone, le_refl _, hvlow⟩
        · exact hold hn
      · exact hold hn
    self_sub := by
      intro n hn hnn
      rw [visited_setRep] at hn
      rw [rep_setRep] at hnn
      rw [subNodes_setRep]
      by_cases hnv : n = v
      · rw [if_pos hnv] at hnn
        rw [if_neg (fun heq => heq.2 (hnv.symm.trans hnn.symm)), if_pos hnn.symm, hnv]
        exact Finset.mem_insert_self v _
      · rw [if_neg hnv] at hnn
        rw [if_neg (fun heq => hnv heq.1)]
        have hmem := h.self_sub n hn hnn
        split
        · exact Finset.mem_insert_of_mem hmem
        · exact hmem
    topo_mem := by
      intro r'
      rw [T_setRep, h.topo_mem, inSCC_setRep]
      refine and_congr_right fun hr' => ?_
      rw [hrep hr']
    topo_nodup := by
      rw [T_setRep]
      exact h.topo_nodup
    topo_order := by
      rw [T_setRep]
      exact h.topo_order }

/-- The new representative is the one of the two with the smaller number. -/
theorem Inv.link (h : Inv G (v :: path) s) (hw : s.visited w) (hopen : ¬ s.inSCC w)
    (hreach : Reach G v w) :
    Inv G (v :: path) (s.link v w) ∧ low (s.link v w) v = min (low s v) (low s w) := by
  obtain ⟨hvdone, -⟩ := h.path v List.mem_cons_self
  have hv := h.visited_path (n := v) List.mem_cons_self
  obtain ⟨hrv, hrvopen, -, hvreach⟩ := h.rep v hv hvdone
  obtain ⟨hrw, hrwopen, -, hwreach⟩ := h.rep w hw hopen
  rw [SCCDetection.link, low_setRep, if_pos rfl]
  by_cases hlt : s.D (s.rep v) < s.D (s.rep w)
  · rw [if_pos hlt]
    exact ⟨h.setRep hrv hrvopen (le_refl _) hvreach, (min_eq_left (Nat.le_of_lt hlt)).symm⟩
  · rw [if_neg hlt]
    have hle : low s w ≤ low s v := Nat.le_of_not_lt hlt
    exact ⟨h.setRep hrw hrwopen hle (hreach.trans hwreach), (min_eq_right hle).symm⟩

theorem Inv.push (h : Inv G (v :: path) s) (hpath : v ∉ path) (hrep : s.rep v ≠ v)
    (hedge : ∀ m ∈ G.succs v, s.visited m ∧ (s.inSCC m ∨ low s v ≤ s.D m)) :
    Inv G path { s with SS := v :: s.SS } := by
  obtain ⟨hvdone, -⟩ := h.path v List.mem_cons_self
  exact { h with
    visited_iff := by
      intro n
      refine (h.visited_iff n).trans ?_
      rw [List.mem_cons, List.mem_cons, or_assoc, or_assoc]
      exact or_left_comm
    path := by
      intro n hn
      obtain ⟨hdone, hstack⟩ := h.path n (List.mem_cons_of_mem v hn)
      refine ⟨hdone, fun hmem => ?_⟩
      rcases List.mem_cons.mp hmem with rfl | hmem
      · exact hpath hn
      · exact hstack hmem
    stack := by
      intro n hn
      rcases List.mem_cons.mp hn with rfl | hn
      · exact hvdone
      · exact h.stack n hn
    stack_rep := by
      intro n hn
      rcases List.mem_cons.mp hn with rfl | hn
      · exact hrep
      · exact h.stack_rep n hn
    stack_edge := by
      intro n hn m hm
      rcases List.mem_cons.mp hn with rfl | hn
      · exact hedge m hm
      · exact h.stack_edge n hn m hm }

structure Popped (v : NodeID) (new old : List NodeID) (s s' : SCCDetection) : Prop where
  I : s'.I = s.I
  D : s'.D = s.D
  T : s'.T = s.T
  SS : s'.SS = old
  info : ∀ n, n ≠ v → n ∉ new → s'.info n = s.info n
  popped : ∀ n ∈ new, s'.visited n = s.visited n ∧ s'.inSCC n ∧ s'.rep n = v
  visited : s'.visited v = s.visited v
  inSCC : s'.inSCC v = s.inSCC v
  rep : s'.rep v = s.rep v
  subNodes : ∀ n, n ∈ s'.subNodes v ↔ n ∈ s.subNodes v ∨ n ∈ new

theorem popStack_popped {new old : List NodeID} (hnew : ∀ w ∈ new, s.D v < s.D w)
    (hold : ∀ w ∈ old, s.D w ≤ s.D v) : Popped v new old s (popStack v (new ++ old) s) := by
  induction new generalizing s with
  | nil =>
      have heq : popStack v old s = { s with SS := old } := by
        cases old with
        | nil => rfl
        | cons w ws => exact if_pos (hold w List.mem_cons_self)
      rw [List.nil_append, heq]
      exact ⟨rfl, rfl, rfl, rfl, fun _ _ _ => rfl, fun _ hn => by simp at hn, rfl, rfl, rfl,
        fun n => by simp [SCCDetection.subNodes]⟩
  | cons w ws ih =>
      have hlt := hnew w List.mem_cons_self
      have hwv : w ≠ v := fun heq => by simp [heq] at hlt
      rw [List.cons_append, popStack, if_neg (Nat.not_le_of_lt hlt)]
      have hD : ((s.setInSCC w).setRep w v).D = s.D := D_setRep _ w v
      have hrest := @ih ((s.setInSCC w).setRep w v)
        (fun u hu => by rw [hD]; exact hnew u (List.mem_cons_of_mem w hu))
        (fun u hu => by rw [hD]; exact hold u hu)
      have hinfo : ∀ n, n ≠ v → n ≠ w → ((s.setInSCC w).setRep w v).info n = s.info n := by
        intro n hnv hnw
        rw [info_setRep]
        simp [hnv, hnw, setInSCC, SCCDetection.modify, SCCDetection.visited, SCCDetection.inSCC,
          SCCDetection.rep, SCCDetection.subNodes]
      have hvinfo : ((s.setInSCC w).setRep w v).visited v = s.visited v ∧
          ((s.setInSCC w).setRep w v).inSCC v = s.inSCC v ∧
          ((s.setInSCC w).setRep w v).rep v = s.rep v ∧
          ((s.setInSCC w).setRep w v).subNodes v = insert w (s.subNodes v) := by
        rw [visited_setRep, inSCC_setRep, rep_setRep, subNodes_setRep]
        simp [hwv, hwv.symm, setInSCC]
      obtain ⟨hvisited, hinSCC, hrep, hsub⟩ := hvinfo
      refine ⟨hrest.I.trans (I_setRep _ w v), hrest.D.trans hD, hrest.T.trans (T_setRep _ w v),
        hrest.SS, fun n hnv hn => ?_, fun n hn => ?_, hrest.visited.trans hvisited,
        hrest.inSCC.trans hinSCC, hrest.rep.trans hrep, fun n => ?_⟩
      · rw [List.mem_cons, not_or] at hn
        rw [hrest.info n hnv hn.2, hinfo n hnv hn.1]
      · by_cases hws : n ∈ ws
        · obtain ⟨hvis, hdone, hnrep⟩ := hrest.popped n hws
          rw [hvis, visited_setRep, setInSCC, visited_modify]
          refine ⟨?_, hdone, hnrep⟩
          split
          · rename_i heq
            rw [heq]
            rfl
          · rfl
        · have hnw : n = w := (List.mem_cons.mp hn).resolve_right hws
          subst hnw
          have hsame := hrest.info n hwv hws
          rw [SCCDetection.visited, SCCDetection.inSCC, SCCDetection.rep, hsame, info_setRep]
          simp [setInSCC, SCCDetection.visited, SCCDetection.inSCC, SCCDetection.modify]
      · rw [hrest.subNodes, hsub, Finset.mem_insert, List.mem_cons]
        tauto

/-- The component of a node whose representative it is itself has been on top of the stack. -/
structure Complete (G : Graph) (path new old : List NodeID) (s : SCCDetection) (v : NodeID) :
    Prop where
  notMem : v ∉ path
  rep : s.rep v = v
  SS : s.SS = new ++ old
  new : ∀ w ∈ new, s.D v < s.D w ∧ low s v ≤ low s w ∧ Reach G v w
  old : ∀ w, w ∈ path ∨ w ∈ old → s.D w < s.D v
  edge : ∀ m ∈ G.succs v, s.visited m ∧ (s.inSCC m ∨ low s v ≤ s.D m)

section

variable {new old : List NodeID} (h : Inv G (v :: path) s) (hc : Complete G path new old s v)

include hc

theorem Complete.low_eq : low s v = s.D v := by
  rw [low, hc.rep]

include h

theorem Complete.le_of_mem {n : NodeID} (hn : n = v ∨ n ∈ new) :
    s.D v ≤ s.D n ∧ s.D v ≤ low s n := by
  rw [← hc.low_eq]
  rcases hn with rfl | hn
  · exact ⟨hc.low_eq.le, le_refl _⟩
  · obtain ⟨hlt, hlow, -⟩ := hc.new n hn
    exact ⟨hc.low_eq.trans_le (Nat.le_of_lt hlt), hlow⟩

theorem Complete.visited_of_mem {n : NodeID} (hn : n = v ∨ n ∈ new) :
    s.visited n ∧ ¬ s.inSCC n := by
  rcases hn with rfl | hn
  · exact ⟨h.visited_path List.mem_cons_self, (h.path n List.mem_cons_self).1⟩
  · have hmem : n ∈ s.SS := hc.SS ▸ List.mem_append_left old hn
    exact ⟨h.visited_stack hmem, h.stack n hmem⟩

theorem Complete.mem_of_le {n : NodeID} (hn : s.visited n) (hopen : ¬ s.inSCC n)
    (hle : s.D v ≤ s.D n) : n = v ∨ n ∈ new := by
  have hold : ¬ (n ∈ path ∨ n ∈ old) := fun hmem => Nat.not_lt_of_le hle (hc.old n hmem)
  rw [not_or] at hold
  rcases (h.visited_iff n).mp hn with hmem | hmem | hmem
  · exact .inl ((List.mem_cons.mp hmem).resolve_right hold.1)
  · rw [hc.SS] at hmem
    exact .inr ((List.mem_append.mp hmem).resolve_right hold.2)
  · exact absurd hmem hopen

theorem Complete.succ {n m : NodeID} (hn : n = v ∨ n ∈ new) (hm : m ∈ G.succs n) :
    s.inSCC m ∨ m = v ∨ m ∈ new := by
  have hedge : s.visited m ∧ (s.inSCC m ∨ low s n ≤ s.D m) := by
    rcases hn with rfl | hn
    · exact hc.edge m hm
    · exact h.stack_edge n (hc.SS ▸ List.mem_append_left old hn) m hm
  by_cases hdone : s.inSCC m
  · exact .inl hdone
  · have hle := (hc.le_of_mem h hn).2.trans (hedge.2.resolve_left hdone)
    exact .inr (hc.mem_of_le h hedge.1 hdone hle)

/-- The representatives of the nodes of the component lead back to its root. -/
theorem Complete.reach {n : NodeID} (hn : n = v ∨ n ∈ new) : Mutual G v n := by
  refine ⟨?_, ?_⟩
  · rcases hn with rfl | hn
    · exact .refl
    · exact (hc.new n hn).2.2
  · induction hd : s.D n using Nat.strong_induction_on generalizing n with
    | _ d ih =>
        subst hd
        rcases hn with rfl | hn
        · exact .refl
        · have hmem : n ∈ s.SS := hc.SS ▸ List.mem_append_left old hn
          obtain ⟨hvis, hopen⟩ := hc.visited_of_mem h (.inr hn)
          obtain ⟨hrep, hropen, hlow, hreach⟩ := h.rep n hvis hopen
          have hlt : s.D (s.rep n) < s.D n :=
            Nat.lt_of_le_of_ne hlow fun heq => h.stack_rep n hmem (h.D_inj _ _ hrep hvis heq)
          have hcomp := hc.mem_of_le h hrep hropen (hc.le_of_mem h (.inr hn)).2
          exact hreach.trans (ih _ hlt hcomp rfl)

theorem Complete.mem_of_mutual {n m : NodeID} (hn : n = v ∨ n ∈ new) (hm : Mutual G n m) :
    m = v ∨ m ∈ new := by
  have hclosed : ∀ a, s.inSCC a ∨ a = v ∨ a ∈ new → ∀ b ∈ G.succs a,
      s.inSCC b ∨ b = v ∨ b ∈ new := by
    intro a ha b hb
    rcases ha with ha | ha
    · exact .inl (h.done_edge a ha b hb)
    · exact hc.succ h ha hb
  rcases closed_of_reach hclosed hm.1 (.inr hn) with hdone | hmem
  · exact absurd (h.done_reach hdone hm.2) (hc.visited_of_mem h hn).2
  · exact hmem

end

structure Closes (new old : List NodeID) (s s' : SCCDetection) (v : NodeID) : Prop where
  I : s'.I = s.I
  D : s'.D = s.D
  T : s'.T = v :: s.T
  SS : s'.SS = old
  visited : ∀ n, s'.visited n = s.visited n
  inSCC : ∀ n, s'.inSCC n ↔ s.inSCC n ∨ n = v ∨ n ∈ new
  rep : ∀ n, n = v ∨ n ∈ new → s'.rep n = v
  info : ∀ n, ¬ (n = v ∨ n ∈ new) → s'.info n = s.info n
  subNodes : ∀ n, n ∈ s'.subNodes v ↔ n ∈ s.subNodes v ∨ n ∈ new

theorem Complete.closes {new old : List NodeID} (hc : Complete G path new old s v) :
    Closes new old s (s.leave v) v := by
  have hp : Popped v new old (s.setInSCC v) (popStack v (new ++ old) (s.setInSCC v)) :=
    popStack_popped (fun w hw => (hc.new w hw).1) fun w hw => Nat.le_of_lt (hc.old w (.inr hw))
  have hv : v ∉ new := fun hmem => Nat.lt_irrefl _ (hc.new v hmem).1
  rw [leave, if_pos hc.rep, hc.SS]
  have hother : ∀ n, n ≠ v → (s.setInSCC v).info n = s.info n := fun n hn =>
    Function.update_of_ne hn _ _
  have hinfo : ∀ n, ¬ (n = v ∨ n ∈ new) →
      (popStack v (new ++ old) (s.setInSCC v)).info n = s.info n := by
    intro n hn
    rw [not_or] at hn
    exact (hp.info n hn.1 hn.2).trans (hother n hn.1)
  have hself : (s.setInSCC v).visited v = s.visited v ∧ (s.setInSCC v).inSCC v ∧
      (s.setInSCC v).rep v = s.rep v ∧ (s.setInSCC v).subNodes v = s.subNodes v := by
    rw [setInSCC, visited_modify, inSCC_modify, rep_modify, subNodes_modify]
    simp only [if_true]
    exact ⟨rfl, trivial, rfl, rfl⟩
  refine ⟨hp.I, hp.D, congrArg (v :: ·) hp.T, hp.SS, fun n => ?_, fun n => ?_, fun n hn => ?_, hinfo,
    fun n => ?_⟩
  · by_cases hn : n = v ∨ n ∈ new
    · rcases hn with rfl | hn
      · exact hp.visited.trans hself.1
      · have hnv : n ≠ v := fun heq => hv (heq ▸ hn)
        exact (hp.popped n hn).1.trans (congrArg GNodeSCCInfo.visited (hother n hnv))
    · exact congrArg GNodeSCCInfo.visited (hinfo n hn)
  · by_cases hn : n = v ∨ n ∈ new
    · refine iff_of_true ?_ (.inr hn)
      rcases hn with rfl | hn
      · exact hp.inSCC.trans hself.2.1
      · exact (hp.popped n hn).2.1
    · have hsame : (popStack v (new ++ old) (s.setInSCC v)).inSCC n = s.inSCC n :=
        congrArg GNodeSCCInfo.inSCC (hinfo n hn)
      exact (Bool.eq_iff_iff.mp hsame).trans (or_iff_left hn).symm
  · rcases hn with rfl | hn
    · exact hp.rep.trans (hself.2.2.1.trans hc.rep)
    · exact (hp.popped n hn).2.2
  · rw [← hself.2.2.2]
    exact hp.subNodes n

theorem Inv.close {new old : List NodeID} (h : Inv G (v :: path) s)
    (hc : Complete G path new old s v) : Inv G path (s.leave v) := by
  have hl := hc.closes
  generalize s.leave v = s' at hl
  have hrep : ∀ {n : NodeID}, ¬ (n = v ∨ n ∈ new) → s'.rep n = s.rep n := fun hn =>
    congrArg GNodeSCCInfo.rep (hl.info _ hn)
  have hsub : ∀ {n : NodeID}, ¬ (n = v ∨ n ∈ new) → s'.subNodes n = s.subNodes n := fun hn =>
    congrArg GNodeSCCInfo.subNodes (hl.info _ hn)
  have hlow : ∀ {n : NodeID}, ¬ (n = v ∨ n ∈ new) → low s' n = low s n := fun hn => by
    rw [low, hrep hn, hl.D, low]
  have hdone : ∀ {n : NodeID}, s.inSCC n → ¬ (n = v ∨ n ∈ new) := fun hn hmem =>
    (hc.visited_of_mem h hmem).2 hn
  have hlater : ∀ {n : NodeID}, n ∈ path ∨ n ∈ old → ¬ (n = v ∨ n ∈ new) := fun hn hmem =>
    Nat.not_lt_of_le (hc.le_of_mem h hmem).1 (hc.old _ hn)
  have hstack : ∀ {n : NodeID}, n ∈ old → n ∈ s.SS := fun hn => hc.SS ▸ List.mem_append_right new hn
  have hvdone : ¬ s.inSCC v := (h.path v List.mem_cons_self).1
  have hnot : ∀ {n : NodeID}, ¬ s'.inSCC n ↔ ¬ s.inSCC n ∧ ¬ (n = v ∨ n ∈ new) := by
    intro n
    rw [hl.inSCC, not_or]
  exact {
    visited_iff := by
      intro n
      rw [hl.visited, h.visited_iff, hl.SS, hl.inSCC, hc.SS, List.mem_cons, List.mem_append]
      tauto
    path := by
      intro n hn
      obtain ⟨hopen, hmem⟩ := h.path n (List.mem_cons_of_mem v hn)
      rw [hl.SS]
      exact ⟨hnot.mpr ⟨hopen, hlater (.inl hn)⟩, fun hold => hmem (hstack hold)⟩
    stack := by
      intro n hn
      rw [hl.SS] at hn
      exact hnot.mpr ⟨h.stack n (hstack hn), hlater (.inr hn)⟩
    nodes := by
      intro n hn
      rw [hl.visited] at hn
      exact h.nodes n hn
    unvisited := by
      intro n hn
      rw [hl.visited] at hn
      rw [hl.info n fun hmem => hn (hc.visited_of_mem h hmem).1]
      exact h.unvisited n hn
    D_le := by
      intro n hn
      rw [hl.visited] at hn
      rw [hl.D, hl.I]
      exact h.D_le n hn
    D_inj := by
      intro n m hn hm heq
      rw [hl.visited] at hn hm
      rw [hl.D] at heq
      exact h.D_inj n m hn hm heq
    rep := by
      intro n hn hopen
      rw [hl.visited] at hn
      rw [hnot] at hopen
      obtain ⟨hvis, hropen, hle, hreach⟩ := h.rep n hn hopen.1
      -- the representative is below the component, as the node is
      have hlt : s.D n < s.D v := by
        by_contra hge
        exact hopen.2 (hc.mem_of_le h hn hopen.1 (Nat.le_of_not_lt hge))
      have hrnot : ¬ (s.rep n = v ∨ s.rep n ∈ new) := fun hmem =>
        Nat.not_lt_of_le ((hc.le_of_mem h hmem).1.trans hle) hlt
      rw [hlow hopen.2, hrep hopen.2, hl.visited, hl.D]
      exact ⟨hvis, hnot.mpr ⟨hropen, hrnot⟩, hle, hreach⟩
    stack_rep := by
      intro n hn
      rw [hl.SS] at hn
      rw [hrep (hlater (.inr hn))]
      exact h.stack_rep n (hstack hn)
    stack_edge := by
      intro n hn m hm
      rw [hl.SS] at hn
      obtain ⟨hvis, hedge⟩ := h.stack_edge n (hstack hn) m hm
      rw [hl.visited, hlow (hlater (.inr hn)), hl.D, hl.inSCC]
      exact ⟨hvis, hedge.imp_left .inl⟩
    done_edge := by
      intro n hn m hm
      rw [hl.inSCC] at hn ⊢
      rcases hn with hn | hn
      · exact .inl (h.done_edge n hn m hm)
      · exact hc.succ h hn hm
    done_rep := by
      intro n hn
      rw [hl.inSCC] at hn
      rcases hn with hn | hn
      · obtain ⟨hrdone, hrr, hmutual⟩ := h.done_rep n hn
        rw [hrep (hdone hn), hrep (hdone hrdone), hl.inSCC]
        refine ⟨.inl hrdone, hrr, fun m => ?_⟩
        rw [hl.inSCC, ← hmutual]
        by_cases hm : m = v ∨ m ∈ new
        · refine iff_of_false (fun hboth => ?_) fun hboth => hdone hboth.1 hm
          rw [hl.rep m hm] at hboth
          exact hvdone (hboth.2 ▸ hrdone)
        · rw [hrep hm, or_iff_left hm]
      · rw [hl.rep n hn, hl.rep v (.inl rfl), hl.inSCC]
        refine ⟨.inr (.inl rfl), rfl, fun m => ?_⟩
        constructor
        · rintro ⟨hm, hmv⟩
          by_cases hmem : m = v ∨ m ∈ new
          · have hnv := hc.reach h hn
            have hmv := hc.reach h hmem
            exact ⟨hnv.2.trans hmv.1, hmv.2.trans hnv.1⟩
          · rw [hrep hmem] at hmv
            have hmdone : s.inSCC m := ((hl.inSCC m).mp hm).resolve_right hmem
            exact absurd (hmv ▸ (h.done_rep m hmdone).1) hvdone
        · intro hm
          have hmem := hc.mem_of_mutual h hn hm
          exact ⟨(hl.inSCC m).mpr (.inr hmem), hl.rep m hmem⟩
    done_sub := by
      intro r hr hrr n
      by_cases hmem : r = v ∨ r ∈ new
      · have hrv : v = r := (hl.rep r hmem).symm.trans hrr
        subst hrv
        rw [hl.subNodes]
        constructor
        · intro hn
          have hcomp : n = v ∨ n ∈ new := by
            rcases hn with hn | hn
            · obtain ⟨hvis, hopen, -, hle⟩ := h.open_sub v hvdone n hn
              exact hc.mem_of_le h hvis hopen hle
            · exact .inr hn
          exact ⟨(hl.inSCC n).mpr (.inr hcomp), hl.rep n hcomp⟩
        · rintro ⟨hn, hnv⟩
          by_cases hcomp : n = v ∨ n ∈ new
          · rcases hcomp with rfl | hcomp
            · exact .inl (h.self_sub n (h.visited_path List.mem_cons_self) hc.rep)
            · exact .inr hcomp
          · rw [hrep hcomp] at hnv
            have hndone : s.inSCC n := ((hl.inSCC n).mp hn).resolve_right hcomp
            exact absurd (hnv ▸ (h.done_rep n hndone).1) hvdone
      · have hrdone : s.inSCC r := ((hl.inSCC r).mp hr).resolve_right hmem
        rw [hrep hmem] at hrr
        rw [hsub hmem, h.done_sub r hrdone hrr, hl.inSCC]
        by_cases hcomp : n = v ∨ n ∈ new
        · refine iff_of_false (fun hboth => hdone hboth.1 hcomp) fun hboth => ?_
          rw [hl.rep n hcomp] at hboth
          exact hmem (.inl hboth.2.symm)
        · rw [hrep hcomp, or_iff_left hcomp]
    open_sub := by
      intro r hr n hn
      rw [hnot] at hr
      rw [hsub hr.2] at hn
      obtain ⟨hvis, hopen, hle, hge⟩ := h.open_sub r hr.1 n hn
      have hrvis : s.visited r := by
        by_contra hrvis
        rw [SCCDetection.subNodes, h.unvisited r hrvis] at hn
        simp at hn
      have hlt : s.D r < s.D v := by
        by_contra hge
        exact hr.2 (hc.mem_of_le h hrvis hr.1 (Nat.le_of_not_lt hge))
      have hncomp : ¬ (n = v ∨ n ∈ new) := fun hmem =>
        Nat.not_lt_of_le ((hc.le_of_mem h hmem).2.trans hle) hlt
      rw [hl.visited, hlow hncomp, hl.D]
      exact ⟨hvis, hnot.mpr ⟨hopen, hncomp⟩, hle, hge⟩
    self_sub := by
      intro n hn hnn
      rw [hl.visited] at hn
      by_cases hmem : n = v ∨ n ∈ new
      · have hnv : v = n := (hl.rep n hmem).symm.trans hnn
        subst hnv
        exact (hl.subNodes v).mpr (.inl (h.self_sub v hn hc.rep))
      · rw [hrep hmem] at hnn
        rw [hsub hmem]
        exact h.self_sub n hn hnn
    topo_mem := by
      intro r
      rw [hl.T, List.mem_cons, h.topo_mem, hl.inSCC]
      by_cases hmem : r = v ∨ r ∈ new
      · rw [hl.rep r hmem]
        constructor
        · intro hr
          exact ⟨.inr hmem, (hr.resolve_right fun hboth => hdone hboth.1 hmem).symm⟩
        · intro hr
          exact .inl hr.2.symm
      · rw [hrep hmem, or_iff_left hmem]
        exact or_iff_right fun heq => hmem (.inl heq)
    topo_nodup := by
      rw [hl.T]
      exact List.nodup_cons.mpr ⟨fun hmem => hvdone ((h.topo_mem v).mp hmem).1, h.topo_nodup⟩
    topo_order := by
      rw [hl.T]
      refine List.pairwise_cons.mpr ⟨fun b hb hreach => ?_, h.topo_order⟩
      exact hvdone (h.done_reach ((h.topo_mem b).mp hb).1 hreach) }

end SVF.Graphs.SCCInvariant
