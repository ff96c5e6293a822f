import SVF.Graphs.WeakTopologicalOrder

namespace SVF.Graphs.WTOComponents

open WeakTopologicalOrder

variable {Node : Type} [DecidableEq Node]

mutual

def nodes : WTOComponent Node → List Node
  | .node n => [n]
  | .cycle head components => head :: nodesOf components

def nodesOf : List (WTOComponent Node) → List Node
  | [] => []
  | c :: cs => nodes c ++ nodesOf cs

end

mutual

def heads (n : Node) : WTOComponent Node → List Node
  | .node _ => []
  | .cycle head components =>
      if n = head ∨ n ∈ nodesOf components then head :: headsOf n components else []

def headsOf (n : Node) : List (WTOComponent Node) → List Node
  | [] => []
  | c :: cs => heads n c ++ headsOf n cs

end

omit [DecidableEq Node] in
theorem nodesOf_append (cs ds : List (WTOComponent Node)) :
    nodesOf (cs ++ ds) = nodesOf cs ++ nodesOf ds := by
  induction cs with
  | nil => rfl
  | cons c cs ih => rw [List.cons_append, nodesOf, nodesOf, ih, List.append_assoc]

theorem headsOf_append (n : Node) (cs ds : List (WTOComponent Node)) :
    headsOf n (cs ++ ds) = headsOf n cs ++ headsOf n ds := by
  induction cs with
  | nil => rfl
  | cons c cs ih => rw [List.cons_append, headsOf, headsOf, ih, List.append_assoc]

mutual

theorem mem_of_mem_heads {n m : Node} (c : WTOComponent Node) (h : m ∈ heads n c) :
    m ∈ nodes c ∧ n ∈ nodes c := by
  cases c with
  | node a => simp [heads] at h
  | cycle head components =>
      rw [heads] at h
      split at h
      · rename_i hn
        rw [nodes, List.mem_cons, List.mem_cons]
        refine ⟨?_, hn⟩
        rcases List.mem_cons.mp h with rfl | h
        · exact .inl rfl
        · exact .inr (mem_of_mem_headsOf components h).1
      · simp at h

theorem mem_of_mem_headsOf {n m : Node} (cs : List (WTOComponent Node)) (h : m ∈ headsOf n cs) :
    m ∈ nodesOf cs ∧ n ∈ nodesOf cs := by
  cases cs with
  | nil => simp [headsOf] at h
  | cons c cs =>
      rw [nodesOf, List.mem_append, List.mem_append]
      rcases List.mem_append.mp h with h | h
      · obtain ⟨hm, hn⟩ := mem_of_mem_heads c h
        exact ⟨.inl hm, .inl hn⟩
      · obtain ⟨hm, hn⟩ := mem_of_mem_headsOf cs h
        exact ⟨.inr hm, .inr hn⟩

end

theorem headsOf_eq_nil {n : Node} {cs : List (WTOComponent Node)} (h : n ∉ nodesOf cs) :
    headsOf n cs = [] :=
  List.eq_nil_iff_forall_not_mem.mpr fun _ hm => h (mem_of_mem_headsOf cs hm).2

theorem heads_eq_nil {n : Node} {c : WTOComponent Node} (h : n ∉ nodes c) : heads n c = [] :=
  List.eq_nil_iff_forall_not_mem.mpr fun _ hm => h (mem_of_mem_heads c hm).2

theorem idxOf_lt_of_sublist {l : List Node} (hl : l.Nodup) {a b : Node} (h : [a, b].Sublist l) :
    l.idxOf a < l.idxOf b := by
  induction l with
  | nil => simp at h
  | cons x l ih =>
      obtain ⟨hx, hl⟩ := List.nodup_cons.mp hl
      cases h with
      | cons _ h =>
          have ha : a ∈ l := h.subset (by simp)
          have hb : b ∈ l := h.subset (by simp)
          have hxa : x ≠ a := fun heq => hx (heq ▸ ha)
          have hxb : x ≠ b := fun heq => hx (heq ▸ hb)
          rw [List.idxOf_cons_ne _ hxa, List.idxOf_cons_ne _ hxb]
          exact Nat.succ_lt_succ (ih hl h)
      | cons_cons _ h =>
          have hb : b ∈ l := h.subset (by simp)
          have hab : a ≠ b := fun heq => hx (heq ▸ hb)
          rw [List.idxOf_cons_self, List.idxOf_cons_ne _ hab]
          exact Nat.succ_pos _

/-- The edges out of the nodes of a partition, where what is in `done` is known to come later or
to be a head around all of it: an edge goes forward, or back to the head of a component that
contains its source. -/
def Ordered (succs : Node → List Node) (cs : List (WTOComponent Node)) (done : Node → Prop) :
    Prop :=
  ∀ u ∈ nodesOf cs, ∀ v ∈ succs u, v ∈ headsOf u cs ∨
    (v ∉ headsOf u cs ∧ [u, v].Sublist (nodesOf cs)) ∨ done v

section

variable {succs : Node → List Node} {cs ds : List (WTOComponent Node)} {done done' : Node → Prop}

theorem ordered_nil : Ordered succs [] done := fun u hu => by simp [nodesOf] at hu

theorem Ordered.append (h : Ordered succs cs done') (h' : Ordered succs ds done)
    (hnodup : (nodesOf (cs ++ ds)).Nodup) (hdone : ∀ n, done' n → done n ∨ n ∈ nodesOf ds) :
    Ordered succs (cs ++ ds) done := by
  rw [nodesOf_append] at hnodup
  have hdisjoint := (List.nodup_append.mp hnodup).2.2
  intro u hu v hv
  rw [nodesOf_append, List.mem_append] at hu
  rw [headsOf_append, nodesOf_append]
  rcases hu with hu | hu
  · have hnot : u ∉ nodesOf ds := fun hmem => hdisjoint u hu u hmem rfl
    rw [headsOf_eq_nil hnot, List.append_nil]
    rcases h u hu v hv with hhead | ⟨hhead, hlt⟩ | hlater
    · exact .inl hhead
    · exact .inr (.inl ⟨hhead, hlt.trans (List.sublist_append_left _ _)⟩)
    · rcases hdone v hlater with hlater | hmem
      · exact .inr (.inr hlater)
      · refine .inr (.inl ⟨fun hhead => ?_, ?_⟩)
        · exact hdisjoint v (mem_of_mem_headsOf cs hhead).1 v hmem rfl
        · exact (List.singleton_sublist.mpr hu).append (List.singleton_sublist.mpr hmem)
  · have hnot : u ∉ nodesOf cs := fun hmem => hdisjoint u hmem u hu rfl
    rw [headsOf_eq_nil hnot, List.nil_append]
    rcases h' u hu v hv with hhead | ⟨hhead, hlt⟩ | hlater
    · exact .inl hhead
    · exact .inr (.inl ⟨hhead, hlt.trans (List.sublist_append_right _ _)⟩)
    · exact .inr (.inr hlater)

omit [DecidableEq Node] in
theorem nodesOf_node (n : Node) : nodesOf [.node n] = [n] := by
  simp [nodesOf, nodes]

omit [DecidableEq Node] in
theorem nodesOf_cycle (n : Node) : nodesOf [.cycle n cs] = n :: nodesOf cs := by
  simp [nodesOf, nodes]

theorem headsOf_cycle (n u : Node) (hu : u = n ∨ u ∈ nodesOf cs) :
    headsOf u [.cycle n cs] = n :: headsOf u cs := by
  simp [headsOf, heads, hu]

theorem ordered_node (n : Node) (h : ∀ v ∈ succs n, done v) : Ordered succs [.node n] done := by
  intro u hu v hv
  rw [nodesOf_node, List.mem_singleton] at hu
  exact .inr (.inr (h v (hu ▸ hv)))

theorem ordered_cycle (n : Node) (hnodup : (n :: nodesOf cs).Nodup)
    (h : Ordered succs cs fun v => done v ∨ v = n)
    (hn : ∀ v ∈ succs n, v = n ∨ v ∈ nodesOf cs ∨ done v) : Ordered succs [.cycle n cs] done := by
  have hnot : n ∉ nodesOf cs := (List.nodup_cons.mp hnodup).1
  intro u hu v hv
  rw [nodesOf_cycle, List.mem_cons] at hu
  rw [headsOf_cycle n u hu, nodesOf_cycle, List.mem_cons]
  rcases hu with rfl | hu
  · rcases hn v hv with rfl | hmem | hlater
    · exact .inl (.inl rfl)
    · refine .inr (.inl ⟨?_, (List.singleton_sublist.mpr hmem).cons_cons u⟩)
      rw [headsOf_eq_nil hnot]
      rintro (rfl | hmem')
      · exact hnot hmem
      · simp at hmem'
    · exact .inr (.inr hlater)
  · rcases h u hu v hv with hhead | ⟨hhead, hlt⟩ | hlater | rfl
    · exact .inl (.inr hhead)
    · refine .inr (.inl ⟨?_, hlt.trans (List.sublist_cons_self n _)⟩)
      rintro (rfl | hmem)
      · exact hnot (hlt.subset (by simp))
      · exact hhead hmem
    · exact .inr (.inr hlater)
    · exact .inl (.inl rfl)

end

section

open WTOCycleDepthBuilder

structure Records (b b' : WTOCycleDepthBuilder Node) (ns : List Node)
    (hs : Node → List Node) : Prop where
  depth : b'.wtoCycleDepth = b.wtoCycleDepth
  recorded : ∀ n ∈ ns,
    b'.nodeToWTOCycleDepth n = some (b.wtoCycleDepth ++ (hs n).filter (· ≠ n))
  other : ∀ n, n ∉ ns → b'.nodeToWTOCycleDepth n = b.nodeToWTOCycleDepth n

theorem insert_records (b : WTOCycleDepthBuilder Node) (n : Node)
    (h : b.nodeToWTOCycleDepth n = none) : Records b (b.insert n) [n] fun _ => [] := by
  rw [WTOCycleDepthBuilder.insert, h]
  refine ⟨rfl, fun m hm => ?_, fun m hm => ?_⟩
  · rw [List.mem_singleton] at hm
    subst hm
    simp
  · rw [List.mem_singleton] at hm
    exact Function.update_of_ne hm _ _

mutual

theorem visit_records (b : WTOCycleDepthBuilder Node) (c : WTOComponent Node)
    (hnodup : (nodes c).Nodup) (hfresh : ∀ n ∈ nodes c, b.nodeToWTOCycleDepth n = none) :
    Records b (WTOCycleDepthBuilder.visit b c) (nodes c) (fun n => heads n c) := by
  cases c with
  | node n =>
      rw [nodes] at hfresh ⊢
      rw [WTOCycleDepthBuilder.visit]
      exact insert_records b n (hfresh n List.mem_cons_self)
  | cycle head components =>
      rw [nodes] at hnodup hfresh ⊢
      obtain ⟨hhead, hrest⟩ := List.nodup_cons.mp hnodup
      have hinsert := insert_records b head (hfresh head List.mem_cons_self)
      have hbody := accept_records
        { b.insert head with wtoCycleDepth := (b.insert head).wtoCycleDepth ++ [head] } components
        hrest fun n hn => by
          have hne : n ∉ [head] := fun hmem => hhead (List.mem_singleton.mp hmem ▸ hn)
          exact (hinsert.other n hne).trans (hfresh n (List.mem_cons_of_mem head hn))
      rw [WTOCycleDepthBuilder.visit]
      refine ⟨rfl, fun n hn => ?_, fun n hn => ?_⟩
      · rw [heads, if_pos (List.mem_cons.mp hn)]
        by_cases hmem : n ∈ nodesOf components
        · have hne : head ≠ n := fun heq => hhead (heq ▸ hmem)
          refine (hbody.recorded n hmem).trans ?_
          rw [hinsert.depth, List.append_assoc, List.filter_cons_of_pos (by simpa using hne)]
          rfl
        · have heq : n = head := (List.mem_cons.mp hn).resolve_right hmem
          subst heq
          refine (hbody.other n hmem).trans ?_
          rw [headsOf_eq_nil hmem, List.filter_cons_of_neg (by simp)]
          exact hinsert.recorded n List.mem_cons_self
      · rw [List.mem_cons, not_or] at hn
        refine (hbody.other n hn.2).trans (hinsert.other n ?_)
        rw [List.mem_singleton]
        exact hn.1

theorem accept_records (b : WTOCycleDepthBuilder Node) (cs : List (WTOComponent Node))
    (hnodup : (nodesOf cs).Nodup) (hfresh : ∀ n ∈ nodesOf cs, b.nodeToWTOCycleDepth n = none) :
    Records b (accept b cs) (nodesOf cs) (fun n => headsOf n cs) := by
  cases cs with
  | nil => exact ⟨rfl, fun n hn => by simp [nodesOf] at hn, fun _ _ => rfl⟩
  | cons c cs =>
      rw [nodesOf] at hnodup hfresh ⊢
      obtain ⟨hc, hcs, hdisjoint⟩ := List.nodup_append.mp hnodup
      have hfirst := visit_records b c hc fun n hn => hfresh n (List.mem_append_left _ hn)
      have hrest := accept_records (WTOCycleDepthBuilder.visit b c) cs hcs fun n hn => by
        have hnot : n ∉ nodes c := fun hmem => hdisjoint n hmem n hn rfl
        exact (hfirst.other n hnot).trans (hfresh n (List.mem_append_right _ hn))
      rw [accept]
      refine ⟨hrest.depth.trans hfirst.depth, fun n hn => ?_, fun n hn => ?_⟩
      · rw [headsOf]
        by_cases hmem : n ∈ nodesOf cs
        · have hnot : n ∉ nodes c := fun hmem' => hdisjoint n hmem' n hmem rfl
          rw [heads_eq_nil hnot, List.nil_append]
          exact (hrest.recorded n hmem).trans (by rw [hfirst.depth])
        · rw [headsOf_eq_nil hmem, List.append_nil]
          exact (hrest.other n hmem).trans
            (hfirst.recorded n ((List.mem_append.mp hn).resolve_right hmem))
      · rw [List.mem_append, not_or] at hn
        exact (hrest.other n hn.2).trans (hfirst.other n hn.1)

end

end

end SVF.Graphs.WTOComponents
