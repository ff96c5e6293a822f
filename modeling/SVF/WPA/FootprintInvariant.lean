import SVF.WPA.FootprintSCC

namespace SVF.WPA.FootprintInvariant

open Relation Graphs.ConsG Graphs.ValueFlowGraph FootprintSCC FootprintSCC.SCC

variable {vfs : Versioning} {o : NodeID}

/-- No component extends over an edge to the node. -/
def Ignored (vfs : Versioning) (n : NodeID) : Prop := vfs.delta n = true ∨ vfs.isStore n = true

instance (vfs : Versioning) (n : NodeID) : Decidable (Ignored vfs n) :=
  inferInstanceAs (Decidable (_ ∨ _))

def Next (vfs : Versioning) (o n m : NodeID) : Prop :=
  ∃ e ∈ vfs.svfg.outEdges n, carries o e = true ∧ e.dst = m ∧ ¬ Ignored vfs m

def Reach (vfs : Versioning) (o : NodeID) : NodeID → NodeID → Prop := ReflTransGen (Next vfs o)

def Mutual (vfs : Versioning) (o n m : NodeID) : Prop := Reach vfs o n m ∧ Reach vfs o m n

theorem closed_of_reach {p : NodeID → Prop} (hp : ∀ n, p n → ∀ m, Next vfs o n m → p m) {n m : NodeID}
    (h : Reach vfs o n m) (hn : p n) : p m := by
  induction h with
  | refl => exact hn
  | tail _ hnext ih => exact hp _ ih _ hnext

theorem eq_of_reach_ignored {n m : NodeID} (h : Reach vfs o n m) (hm : Ignored vfs m) : n = m := by
  cases h with
  | refl => rfl
  | tail _ hnext =>
      obtain ⟨_, -, -, -, hnot⟩ := hnext
      exact absurd hm hnot

section

variable (s : SCC) (n v l : NodeID)

def ind : ℕ := ((s.nodeData n).map (·.index)).getD 0

def low : ℕ := ((s.nodeData n).map (·.lowlink)).getD 0

def Visited : Prop := (s.nodeData n).isSome = true

def onStack : Bool := ((s.nodeData n).map (·.onStack)).getD false

def Done : Prop := (s.partOf n).isSome = true

theorem nodeData_push : (s.push v).nodeData n =
    if n = v then some ⟨s.index, s.index, true⟩ else s.nodeData n :=
  Function.update_apply s.nodeData v _ n

@[simp] theorem ind_push : ind (s.push v) n = if n = v then s.index else ind s n := by
  rw [ind, nodeData_push]
  split <;> rfl

@[simp] theorem low_push : low (s.push v) n = if n = v then s.index else low s n := by
  rw [low, nodeData_push]
  split <;> rfl

@[simp] theorem onStack_push : onStack (s.push v) n = if n = v then true else onStack s n := by
  rw [onStack, nodeData_push]
  split <;> rfl

@[simp] theorem visited_push : Visited (s.push v) n ↔ n = v ∨ Visited s n := by
  rw [Visited, nodeData_push]
  split
  · rename_i hn
    simp [hn]
  · rename_i hn
    simp [hn, Visited]

@[simp] theorem done_push : Done (s.push v) n ↔ Done s n := Iff.rfl

theorem nodeData_lower : (s.lower v l).nodeData n =
    if n = v then (s.nodeData v).map fun d => { d with lowlink := min d.lowlink l } else s.nodeData n :=
  Function.update_apply s.nodeData v _ n

@[simp] theorem ind_lower : ind (s.lower v l) n = ind s n := by
  rw [ind, nodeData_lower]
  split
  · rename_i hn
    rw [hn, Option.map_map]
    rfl
  · rfl

@[simp] theorem onStack_lower : onStack (s.lower v l) n = onStack s n := by
  rw [onStack, nodeData_lower]
  split
  · rename_i hn
    rw [hn, Option.map_map]
    rfl
  · rfl

@[simp] theorem visited_lower : Visited (s.lower v l) n ↔ Visited s n := by
  rw [Visited, nodeData_lower]
  split
  · rename_i hn
    rw [hn, Option.isSome_map]
    exact Iff.rfl
  · exact Iff.rfl

@[simp] theorem done_lower : Done (s.lower v l) n ↔ Done s n := Iff.rfl

theorem low_lower_self (hv : Visited s v) : low (s.lower v l) v = min (low s v) l := by
  obtain ⟨d, hd⟩ := Option.isSome_iff_exists.mp hv
  rw [low, low, nodeData_lower, if_pos rfl, hd]
  rfl

theorem low_lower_of_ne (hn : n ≠ v) : low (s.lower v l) n = low s n := by
  rw [low, nodeData_lower, if_neg hn, low]

end

/-- While the nodes on `path` are being visited. The other nodes on the stack have been left,
and their components are not complete. -/
structure Inv (vfs : Versioning) (o : NodeID) (path : List NodeID) (s : SCC) : Prop where
  visited_iff : ∀ n, Visited s n ↔ n ∈ s.stack ∨ Done s n
  onStack_iff : ∀ n, onStack s n = true ↔ n ∈ s.stack
  stack : ∀ n ∈ s.stack, ¬ Done s n
  path_stack : ∀ n ∈ path, n ∈ s.stack
  nodes : ∀ n, Visited s n → n ∈ vfs.svfg.nodes
  ind_lt : ∀ n, Visited s n → ind s n < s.index
  ind_inj : ∀ n m, Visited s n → Visited s m → ind s n = ind s m → n = m
  low_le : ∀ n ∈ s.stack, low s n ≤ ind s n
  low_reach : ∀ n ∈ s.stack, ∃ m ∈ s.stack, ind s m = low s n ∧ Reach vfs o n m
  left_low : ∀ n ∈ s.stack, n ∉ path → low s n ≠ ind s n
  left_edge : ∀ n ∈ s.stack, n ∉ path → ∀ m, Next vfs o n m →
    Visited s m ∧ (Done s m ∨ low s n ≤ ind s m)
  part_lt : ∀ n i, s.partOf n = some i → i < s.currentSCC
  done_edge : ∀ n i, s.partOf n = some i → ∀ m, Next vfs o n m → ∃ j ≤ i, s.partOf m = some j
  done_part : ∀ n i, s.partOf n = some i → ∀ m, s.partOf m = some i ↔ Mutual vfs o n m
  foot : ∀ e ∈ s.footprint, e ∈ vfs.svfg.edges ∧ carries o e = true ∧ Visited s e.src
  left_foot : ∀ n, Visited s n → n ∉ path → ∀ e ∈ vfs.svfg.outEdges n, carries o e = true →
    e ∈ s.footprint

variable {path : List NodeID} {s : SCC} {v w : NodeID}

theorem inv_start : Inv vfs o [] .new where
  visited_iff n := by simp [Visited, Done, SCC.new]
  onStack_iff n := by simp [onStack, SCC.new]
  stack n h := absurd h List.not_mem_nil
  path_stack n h := absurd h List.not_mem_nil
  nodes n h := by simp [Visited, SCC.new] at h
  ind_lt n h := by simp [Visited, SCC.new] at h
  ind_inj n m h := by simp [Visited, SCC.new] at h
  low_le n h := absurd h List.not_mem_nil
  low_reach n h := absurd h List.not_mem_nil
  left_low n h := absurd h List.not_mem_nil
  left_edge n h := absurd h List.not_mem_nil
  part_lt n i h := by simp [SCC.new] at h
  done_edge n i h := by simp [SCC.new] at h
  done_part n i h := by simp [SCC.new] at h
  foot e h := absurd h List.not_mem_nil
  left_foot n h := by simp [Visited, SCC.new] at h

theorem Inv.not_done (h : Inv vfs o path s) {n : NodeID} (hn : ¬ Visited s n) : ¬ Done s n :=
  fun hdone => hn ((h.visited_iff n).mpr (.inr hdone))

theorem Inv.visited_stack (h : Inv vfs o path s) {n : NodeID} (hn : n ∈ s.stack) : Visited s n :=
  (h.visited_iff n).mpr (.inl hn)

theorem Inv.visited_done (h : Inv vfs o path s) {n : NodeID} (hn : Done s n) : Visited s n :=
  (h.visited_iff n).mpr (.inr hn)

theorem Inv.mem_stack (h : Inv vfs o path s) {n : NodeID} (hn : Visited s n) (hopen : ¬ Done s n) :
    n ∈ s.stack := ((h.visited_iff n).mp hn).resolve_right hopen

theorem Inv.done_reach (h : Inv vfs o path s) {n m : NodeID} (hn : Done s n) (hm : Reach vfs o n m) :
    Done s m := by
  refine closed_of_reach (fun n hn m hnext => ?_) hm hn
  obtain ⟨i, hi⟩ := Option.isSome_iff_exists.mp hn
  obtain ⟨j, -, hj⟩ := h.done_edge n i hi m hnext
  exact Option.isSome_iff_exists.mpr ⟨j, hj⟩

theorem Inv.push (h : Inv vfs o path s) (hv : ¬ Visited s v) (hnode : v ∈ vfs.svfg.nodes) :
    Inv vfs o (v :: path) (s.push v) := by
  have hne : ∀ {n : NodeID}, Visited s n → n ≠ v := fun hn heq => hv (heq ▸ hn)
  have hind : ∀ {n : NodeID}, Visited s n → ind (s.push v) n = ind s n := fun hn => by
    rw [ind_push, if_neg (hne hn)]
  have hlow : ∀ {n : NodeID}, Visited s n → low (s.push v) n = low s n := fun hn => by
    rw [low_push, if_neg (hne hn)]
  exact {
    visited_iff := by
      intro n
      rw [visited_push, done_push, h.visited_iff, SCC.push, List.mem_cons, or_assoc]
    onStack_iff := by
      intro n
      rw [onStack_push, SCC.push, List.mem_cons]
      by_cases hn : n = v
      · simp [hn]
      · simp [hn, h.onStack_iff n]
    stack := by
      intro n hn
      rw [done_push]
      rcases List.mem_cons.mp hn with rfl | hn
      · exact h.not_done hv
      · exact h.stack n hn
    path_stack := by
      intro n hn
      rcases List.mem_cons.mp hn with rfl | hn
      · exact List.mem_cons_self
      · exact List.mem_cons_of_mem v (h.path_stack n hn)
    nodes := by
      intro n hn
      rcases (visited_push s n v).mp hn with rfl | hn
      · exact hnode
      · exact h.nodes n hn
    ind_lt := by
      intro n hn
      change _ < s.index + 1
      rcases (visited_push s n v).mp hn with rfl | hn
      · simp
      · rw [hind hn]
        exact (h.ind_lt n hn).trans (Nat.lt_succ_self _)
    ind_inj := by
      intro n m hn hm heq
      have hlt : ∀ {k : NodeID}, Visited s k → ind (s.push v) k ≠ ind (s.push v) v := by
        intro k hk
        rw [hind hk, ind_push, if_pos rfl]
        exact Nat.ne_of_lt (h.ind_lt k hk)
      rcases (visited_push s n v).mp hn with hnv | hn'
      · rcases (visited_push s m v).mp hm with hmv | hm'
        · rw [hnv, hmv]
        · exact absurd (hnv ▸ heq).symm (hlt hm')
      · rcases (visited_push s m v).mp hm with hmv | hm'
        · exact absurd (hmv ▸ heq) (hlt hn')
        · rw [hind hn', hind hm'] at heq
          exact h.ind_inj n m hn' hm' heq
    low_le := by
      intro n hn
      rcases List.mem_cons.mp hn with rfl | hn
      · simp
      · rw [hlow (h.visited_stack hn), hind (h.visited_stack hn)]
        exact h.low_le n hn
    low_reach := by
      intro n hn
      rcases List.mem_cons.mp hn with rfl | hn
      · exact ⟨n, List.mem_cons_self, by simp, .refl⟩
      · obtain ⟨m, hm, heq, hreach⟩ := h.low_reach n hn
        refine ⟨m, List.mem_cons_of_mem v hm, ?_, hreach⟩
        rw [hlow (h.visited_stack hn), hind (h.visited_stack hm), heq]
    left_low := by
      intro n hn hpath
      rw [List.mem_cons, not_or] at hpath
      have hn := (List.mem_cons.mp hn).resolve_left hpath.1
      rw [hlow (h.visited_stack hn), hind (h.visited_stack hn)]
      exact h.left_low n hn hpath.2
    left_edge := by
      intro n hn hpath m hm
      rw [List.mem_cons, not_or] at hpath
      have hn := (List.mem_cons.mp hn).resolve_left hpath.1
      obtain ⟨hvis, hedge⟩ := h.left_edge n hn hpath.2 m hm
      rw [visited_push, done_push, hlow (h.visited_stack hn), hind hvis]
      exact ⟨.inr hvis, hedge⟩
    part_lt := h.part_lt
    done_edge := h.done_edge
    done_part := h.done_part
    foot := by
      intro e he
      obtain ⟨hedge, hcarries, hsrc⟩ := h.foot e he
      exact ⟨hedge, hcarries, (visited_push s e.src v).mpr (.inr hsrc)⟩
    left_foot := by
      intro n hn hpath e he hcarries
      rw [List.mem_cons, not_or] at hpath
      exact h.left_foot n (((visited_push s n v).mp hn).resolve_left hpath.1) hpath.2 e he hcarries }

def Lowers (vfs : Versioning) (o : NodeID) (s : SCC) (v l : ℕ) : Prop :=
  low s v ≤ l ∨ ∃ m ∈ s.stack, ind s m = l ∧ Reach vfs o v m

theorem Inv.lower (h : Inv vfs o (v :: path) s) {l : ℕ} (hl : Lowers vfs o s v l) :
    Inv vfs o (v :: path) (s.lower v l) := by
  have hstack := h.path_stack v List.mem_cons_self
  have hvis := h.visited_stack hstack
  have hlow : ∀ {n : NodeID}, n ≠ v → low (s.lower v l) n = low s n := fun hn =>
    low_lower_of_ne s _ v l hn
  exact {
    visited_iff := fun n => by rw [visited_lower]; exact h.visited_iff n
    onStack_iff := fun n => by rw [onStack_lower]; exact h.onStack_iff n
    stack := h.stack
    path_stack := h.path_stack
    nodes := fun n hn => h.nodes n ((visited_lower s n v l).mp hn)
    ind_lt := fun n hn => by
      rw [ind_lower]
      exact h.ind_lt n ((visited_lower s n v l).mp hn)
    ind_inj := fun n m hn hm heq => by
      rw [ind_lower, ind_lower] at heq
      exact h.ind_inj n m ((visited_lower s n v l).mp hn) ((visited_lower s m v l).mp hm) heq
    low_le := by
      intro n hn
      rw [ind_lower]
      by_cases hnv : n = v
      · rw [hnv, low_lower_self s v l hvis]
        exact (min_le_left _ _).trans (h.low_le v hstack)
      · rw [hlow hnv]
        exact h.low_le n hn
    low_reach := by
      intro n hn
      simp only [ind_lower]
      by_cases hnv : n = v
      · subst hnv
        rw [low_lower_self s n l hvis]
        by_cases hle : low s n ≤ l
        · rw [min_eq_left hle]
          exact h.low_reach n hn
        · rw [min_eq_right (Nat.le_of_not_le hle)]
          exact hl.resolve_left hle
      · rw [hlow hnv]
        exact h.low_reach n hn
    left_low := by
      intro n hn hpath
      rw [ind_lower, hlow (fun heq => hpath (heq ▸ List.mem_cons_self))]
      exact h.left_low n hn hpath
    left_edge := by
      intro n hn hpath m hm
      rw [visited_lower, done_lower, ind_lower, hlow (fun heq => hpath (heq ▸ List.mem_cons_self))]
      exact h.left_edge n hn hpath m hm
    part_lt := h.part_lt
    done_edge := h.done_edge
    done_part := h.done_part
    foot := fun e he => by
      rw [visited_lower]
      exact h.foot e he
    left_foot := fun n hn hpath e he hcarries =>
      h.left_foot n ((visited_lower s n v l).mp hn) hpath e he hcarries }

def addFoot (s : SCC) (e : SVFGEdge) : SCC := { s with footprint := s.footprint ++ [e] }

theorem Inv.addFoot (h : Inv vfs o (v :: path) s) {e : SVFGEdge} (he : e ∈ vfs.svfg.outEdges v)
    (hcarries : carries o e = true) : Inv vfs o (v :: path) (addFoot s e) where
  visited_iff := h.visited_iff
  onStack_iff := h.onStack_iff
  stack := h.stack
  path_stack := h.path_stack
  nodes := h.nodes
  ind_lt := h.ind_lt
  ind_inj := h.ind_inj
  low_le := h.low_le
  low_reach := h.low_reach
  left_low := h.left_low
  left_edge := h.left_edge
  part_lt := h.part_lt
  done_edge := h.done_edge
  done_part := h.done_part
  foot := by
    intro e' he'
    rcases List.mem_append.mp he' with he' | he'
    · exact h.foot e' he'
    · obtain ⟨hedge, hsrc⟩ := mem_outEdges.mp he
      rw [List.mem_singleton.mp he', hsrc]
      exact ⟨hedge, hcarries, h.visited_stack (h.path_stack v List.mem_cons_self)⟩
  left_foot := fun n hn hpath e' he' hcarries' =>
    List.mem_append_left _ (h.left_foot n hn hpath e' he' hcarries')

theorem Inv.leave (h : Inv vfs o (v :: path) s) (hlow : low s v ≠ ind s v)
    (hedge : ∀ m, Next vfs o v m → Visited s m ∧ (Done s m ∨ low s v ≤ ind s m))
    (hfoot : ∀ e ∈ vfs.svfg.outEdges v, carries o e = true → e ∈ s.footprint) : Inv vfs o path s where
  visited_iff := h.visited_iff
  onStack_iff := h.onStack_iff
  stack := h.stack
  path_stack n hn := h.path_stack n (List.mem_cons_of_mem v hn)
  nodes := h.nodes
  ind_lt := h.ind_lt
  ind_inj := h.ind_inj
  low_le := h.low_le
  low_reach := h.low_reach
  left_low := by
    intro n hn hpath
    by_cases hnv : n = v
    · rw [hnv]
      exact hlow
    · exact h.left_low n hn fun hmem => (List.mem_cons.mp hmem).elim hnv hpath
  left_edge := by
    intro n hn hpath
    by_cases hnv : n = v
    · rw [hnv]
      exact hedge
    · exact h.left_edge n hn fun hmem => (List.mem_cons.mp hmem).elim hnv hpath
  part_lt := h.part_lt
  done_edge := h.done_edge
  done_part := h.done_part
  foot := h.foot
  left_foot := by
    intro n hn hpath
    by_cases hnv : n = v
    · rw [hnv]
      exact hfoot
    · exact h.left_foot n hn fun hmem => (List.mem_cons.mp hmem).elim hnv hpath

/-- The component of the root `v` is on top of the stack: `v` and the nodes `new`. -/
structure Complete (vfs : Versioning) (o : NodeID) (path new old : List NodeID) (s : SCC) (v : NodeID) :
    Prop where
  stack : s.stack = new ++ v :: old
  root : low s v = ind s v
  new_fresh : ∀ w ∈ new, w ∉ v :: path ∧ ind s v < ind s w ∧ low s v ≤ low s w ∧ Reach vfs o v w
  old_lt : ∀ w ∈ old, ind s w < ind s v
  path_old : ∀ w ∈ path, w ∈ old
  edge : ∀ m, Next vfs o v m → Visited s m ∧ (Done s m ∨ low s v ≤ ind s m)
  foot_edge : ∀ e ∈ vfs.svfg.outEdges v, carries o e = true → e ∈ s.footprint

section

variable {new old : List NodeID} (h : Inv vfs o (v :: path) s) (hc : Complete vfs o path new old s v)

include hc

theorem Complete.mem_stack {n : NodeID} (hn : n = v ∨ n ∈ new) : n ∈ s.stack := by
  rw [hc.stack]
  rcases hn with rfl | hn
  · simp
  · exact List.mem_append_left _ hn

theorem Complete.le_of_mem {n : NodeID} (hn : n = v ∨ n ∈ new) :
    ind s v ≤ ind s n ∧ ind s v ≤ low s n := by
  rw [← hc.root]
  rcases hn with rfl | hn
  · exact ⟨hc.root.le, le_refl _⟩
  · obtain ⟨-, hlt, hlow, -⟩ := hc.new_fresh n hn
    exact ⟨hc.root.trans_le (Nat.le_of_lt hlt), hlow⟩

theorem Complete.mem_of_le {n : NodeID} (hn : n ∈ s.stack) (hle : ind s v ≤ ind s n) :
    n = v ∨ n ∈ new := by
  rw [hc.stack] at hn
  rcases List.mem_append.mp hn with hn | hn
  · exact .inr hn
  · rcases List.mem_cons.mp hn with rfl | hn
    · exact .inl rfl
    · exact absurd (hc.old_lt n hn) (Nat.not_lt_of_le hle)

theorem Complete.not_mem_old {n : NodeID} (hn : n ∈ old) : ¬ (n = v ∨ n ∈ new) := fun hmem =>
  Nat.not_lt_of_le (hc.le_of_mem hmem).1 (hc.old_lt n hn)

theorem Complete.mem_old {n : NodeID} (hn : n ∈ old) : n ∈ s.stack := by
  rw [hc.stack]
  exact List.mem_append_right new (List.mem_cons_of_mem v hn)

include h

theorem Complete.next {n m : NodeID} (hn : n = v ∨ n ∈ new) (hm : Next vfs o n m) :
    Done s m ∨ m = v ∨ m ∈ new := by
  have hedge : Visited s m ∧ (Done s m ∨ low s n ≤ ind s m) := by
    rcases hn with rfl | hn
    · exact hc.edge m hm
    · exact h.left_edge n (hc.mem_stack (.inr hn)) (hc.new_fresh n hn).1 m hm
  by_cases hdone : Done s m
  · exact .inl hdone
  · have hle := (hc.le_of_mem hn).2.trans (hedge.2.resolve_left hdone)
    exact .inr (hc.mem_of_le (h.mem_stack hedge.1 hdone) hle)

theorem Complete.mutual {n : NodeID} (hn : n = v ∨ n ∈ new) : Mutual vfs o v n := by
  refine ⟨?_, ?_⟩
  · rcases hn with rfl | hn
    · exact .refl
    · exact (hc.new_fresh n hn).2.2.2
  · induction hd : ind s n using Nat.strong_induction_on generalizing n with
    | _ d ih =>
        subst hd
        rcases hn with rfl | hn
        · exact .refl
        · have hmem := hc.mem_stack (.inr hn)
          obtain ⟨m, hm, heq, hreach⟩ := h.low_reach n hmem
          have hlt : ind s m < ind s n := by
            rw [heq]
            exact Nat.lt_of_le_of_ne (h.low_le n hmem) (h.left_low n hmem (hc.new_fresh n hn).1)
          have hcomp := hc.mem_of_le hm (heq ▸ (hc.le_of_mem (.inr hn)).2)
          exact hreach.trans (ih _ hlt hcomp rfl)

theorem Complete.mem_of_mutual {n m : NodeID} (hn : n = v ∨ n ∈ new) (hm : Mutual vfs o n m) :
    m = v ∨ m ∈ new := by
  have hclosed : ∀ a, Done s a ∨ a = v ∨ a ∈ new → ∀ b, Next vfs o a b →
      Done s b ∨ b = v ∨ b ∈ new := by
    intro a ha b hb
    rcases ha with ha | ha
    · exact .inl (h.done_reach ha (.single hb))
    · exact hc.next h ha hb
  rcases closed_of_reach hclosed hm.1 (.inr hn) with hdone | hmem
  · exact absurd (h.done_reach hdone hm.2) (h.stack n (hc.mem_stack hn))
  · exact hmem

omit h

theorem Complete.popSCC (hv : v ∉ new) : (s.popSCC v).stack = old ∧
    (s.popSCC v).currentSCC = s.currentSCC + 1 ∧ (s.popSCC v).index = s.index ∧
    (s.popSCC v).footprint = s.footprint ∧
    (∀ n, (s.popSCC v).partOf n = if n = v ∨ n ∈ new then some s.currentSCC else s.partOf n) ∧
    (∀ n, ind (s.popSCC v) n = ind s n) ∧ (∀ n, low (s.popSCC v) n = low s n) ∧
    (∀ n, Visited (s.popSCC v) n ↔ Visited s n) ∧
    ∀ n, onStack (s.popSCC v) n = if n = v ∨ n ∈ new then false else onStack s n := by
  have htake : (s.stack.takeWhile (· ≠ v)).concat v = new ++ [v] := by
    rw [hc.stack, List.takeWhile_append_of_pos, List.takeWhile_cons_of_neg, List.append_nil,
      List.concat_eq_append]
    · simp
    · intro w hw
      have hne : w ≠ v := fun heq => hv (heq ▸ hw)
      simp [hne]
  have hdrop : (s.stack.dropWhile (· ≠ v)).tail = old := by
    rw [hc.stack, List.dropWhile_append_of_pos, List.dropWhile_cons_of_neg]
    · rfl
    · simp
    · intro w hw
      have hne : w ≠ v := fun heq => hv (heq ▸ hw)
      simp [hne]
  have hmem : ∀ n, n ∈ (s.stack.takeWhile (· ≠ v)).concat v ↔ n = v ∨ n ∈ new := by
    intro n
    rw [htake, List.mem_append, List.mem_singleton, or_comm]
  have hdata : ∀ n, (s.popSCC v).nodeData n = if n = v ∨ n ∈ new then
      (s.nodeData n).map fun d => { d with onStack := false } else s.nodeData n := by
    intro n
    rw [SCC.popSCC]
    simp only [hmem]
  refine ⟨hdrop, rfl, rfl, rfl, fun n => ?_, fun n => ?_, fun n => ?_, fun n => ?_, fun n => ?_⟩
  · rw [SCC.popSCC]
    simp only [hmem]
  · rw [ind, hdata]
    split
    · rw [Option.map_map]
      rfl
    · rfl
  · rw [low, hdata]
    split
    · rw [Option.map_map]
      rfl
    · rfl
  · rw [Visited, hdata]
    split
    · rw [Option.isSome_map]
      exact Iff.rfl
    · exact Iff.rfl
  · rw [onStack, hdata]
    split
    · rw [Option.map_map]
      cases s.nodeData n <;> rfl
    · rfl

end

theorem Inv.close {new old : List NodeID} (h : Inv vfs o (v :: path) s)
    (hc : Complete vfs o path new old s v) : Inv vfs o path (s.popSCC v) := by
  have hv : v ∉ new := fun hmem => (hc.new_fresh v hmem).1 List.mem_cons_self
  obtain ⟨hstack, hcurrent, hindex, hfoot, hpart, hind, hlow, hvis, honStack⟩ := hc.popSCC hv
  generalize s.popSCC v = s' at *
  have hdone : ∀ n, Done s' n ↔ Done s n ∨ n = v ∨ n ∈ new := by
    intro n
    rw [Done, hpart]
    split
    · rename_i hn
      simp [hn]
    · rename_i hn
      simp [hn, Done]
  have hold : ∀ {n : NodeID}, ¬ (n = v ∨ n ∈ new) → s'.partOf n = s.partOf n := fun hn => by
    rw [hpart, if_neg hn]
  have hnot : ∀ {n : NodeID}, Done s n → ¬ (n = v ∨ n ∈ new) := fun hn hmem =>
    h.stack _ (hc.mem_stack hmem) hn
  exact {
    visited_iff := by
      intro n
      rw [hvis, h.visited_iff, hstack, hdone, hc.stack, List.mem_append, List.mem_cons]
      tauto
    onStack_iff := by
      intro n
      rw [honStack, hstack]
      by_cases hn : n = v ∨ n ∈ new
      · rw [if_pos hn]
        exact iff_of_false Bool.false_ne_true fun hmem => hc.not_mem_old hmem hn
      · rw [if_neg hn, h.onStack_iff, hc.stack, List.mem_append, List.mem_cons]
        tauto
    stack := by
      intro n hn
      rw [hstack] at hn
      rw [hdone]
      exact not_or.mpr ⟨h.stack n (hc.mem_old hn), hc.not_mem_old hn⟩
    path_stack := by
      intro n hn
      rw [hstack]
      exact hc.path_old n hn
    nodes := fun n hn => h.nodes n ((hvis n).mp hn)
    ind_lt := by
      intro n hn
      rw [hind, hindex]
      exact h.ind_lt n ((hvis n).mp hn)
    ind_inj := by
      intro n m hn hm heq
      rw [hind, hind] at heq
      exact h.ind_inj n m ((hvis n).mp hn) ((hvis m).mp hm) heq
    low_le := by
      intro n hn
      rw [hstack] at hn
      rw [hlow, hind]
      exact h.low_le n (hc.mem_old hn)
    low_reach := by
      intro n hn
      rw [hstack] at hn ⊢
      obtain ⟨m, hm, heq, hreach⟩ := h.low_reach n (hc.mem_old hn)
      refine ⟨m, ?_, by rw [hind, hlow, heq], hreach⟩
      -- the number is below those of the component
      have hlt : ind s m < ind s v := by
        rw [heq]
        exact (h.low_le n (hc.mem_old hn)).trans_lt (hc.old_lt n hn)
      have hmem : ¬ (m = v ∨ m ∈ new) := fun hmem => Nat.not_lt_of_le (hc.le_of_mem hmem).1 hlt
      rw [hc.stack, List.mem_append, List.mem_cons] at hm
      tauto
    left_low := by
      intro n hn hpath
      rw [hstack] at hn
      rw [hlow, hind]
      refine h.left_low n (hc.mem_old hn) fun hmem => ?_
      exact (List.mem_cons.mp hmem).elim (fun heq => hc.not_mem_old hn (.inl heq)) hpath
    left_edge := by
      intro n hn hpath m hm
      rw [hstack] at hn
      obtain ⟨hm, hedge⟩ := h.left_edge n (hc.mem_old hn) (fun hmem =>
        (List.mem_cons.mp hmem).elim (fun heq => hc.not_mem_old hn (.inl heq)) hpath) m hm
      rw [hvis, hdone, hlow, hind]
      exact ⟨hm, hedge.imp_left .inl⟩
    part_lt := by
      intro n i hi
      rw [hcurrent]
      rw [hpart] at hi
      split at hi
      · cases hi
        exact Nat.lt_succ_self _
      · exact (h.part_lt n i hi).trans (Nat.lt_succ_self _)
    done_edge := by
      intro n i hi m hm
      by_cases hn : n = v ∨ n ∈ new
      · rw [hpart, if_pos hn] at hi
        cases hi
        rcases hc.next h hn hm with hdm | hmem
        · obtain ⟨j, hj⟩ := Option.isSome_iff_exists.mp hdm
          exact ⟨j, (h.part_lt m j hj).le, by rw [hold (hnot hdm), hj]⟩
        · exact ⟨_, le_refl _, by rw [hpart, if_pos hmem]⟩
      · rw [hold hn] at hi
        obtain ⟨j, hj, hmj⟩ := h.done_edge n i hi m hm
        exact ⟨j, hj, by rw [hold (hnot (Option.isSome_iff_exists.mpr ⟨j, hmj⟩)), hmj]⟩
    done_part := by
      intro n i hi m
      by_cases hn : n = v ∨ n ∈ new
      · rw [hpart, if_pos hn] at hi
        cases hi
        by_cases hm : m = v ∨ m ∈ new
        · have hvn := hc.mutual h hn
          have hvm := hc.mutual h hm
          rw [hpart, if_pos hm]
          exact iff_of_true rfl ⟨hvn.2.trans hvm.1, hvm.2.trans hvn.1⟩
        · rw [hold hm]
          refine iff_of_false (fun heq => Nat.lt_irrefl _ (h.part_lt m _ heq)) fun hmut => ?_
          exact hm (hc.mem_of_mutual h hn hmut)
      · rw [hold hn] at hi
        rw [← h.done_part n i hi m]
        by_cases hm : m = v ∨ m ∈ new
        · rw [hpart, if_pos hm]
          refine iff_of_false (fun heq => ?_) fun heq => ?_
          · exact Nat.ne_of_gt (h.part_lt n i hi) (Option.some.inj heq)
          · exact hnot (Option.isSome_iff_exists.mpr ⟨i, heq⟩) hm
        · rw [hold hm]
    foot := by
      intro e he
      rw [hfoot] at he
      rw [hvis]
      exact h.foot e he
    left_foot := by
      intro n hn hpath
      rw [hvis] at hn
      rw [hfoot]
      by_cases hnv : n = v
      · rw [hnv]
        exact hc.foot_edge
      · exact h.left_foot n hn fun hmem => (List.mem_cons.mp hmem).elim hnv hpath }

end SVF.WPA.FootprintInvariant
