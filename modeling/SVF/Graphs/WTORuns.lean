import SVF.Graphs.WTOVisit

namespace SVF.Graphs.WTORuns

open Relation WeakTopologicalOrder WTOComponents WTOInvariant WTOVisit
open Util.NodeIDs (UINT_MAX)

variable {Node : Type} [DecidableEq Node] {G : Graph Node} {s s' : WTOState Node} {v w : Node}
  {partition cs : Partition Node} {f : Frame Node} {new ms : List Node} {depth : ℕ}

structure Enough (G : Graph Node) (depth : ℕ) (s : WTOState Node) : Prop where
  depth : (unvisited G s).card ≤ depth
  num : s.num + visits (unvisited G s).card < UINT_MAX

def Correct (G : Graph Node) (visit : Visit Node) (depth : ℕ) : Prop :=
  ∀ s v partition, Inv G s → s.getCDN v = 0 → v ∈ G.nodes → Enough G depth s →
    ∃ s' head cs new, visit v s partition = some (s', cs ++ partition, head) ∧
      Result G s s' v head cs new

theorem Enough.grown (h : Enough G (depth + 1) s) (hgrown : Grown G s s' v cs new)
    (hne : new ≠ []) : Enough G depth s' := by
  have hcard := hgrown.card
  have hnum := hgrown.num
  have hpos := List.length_pos_of_ne_nil hne
  have hdepth := h.depth
  have hall := h.num
  have hopen := le_visits new.length
  have hadd := visits_add new.length (nodesOf cs).length
  have hadd' := visits_add (new.length + (nodesOf cs).length) (unvisited G s').card
  have hmono : visits (new.length + (nodesOf cs).length + (unvisited G s').card) ≤
      visits (unvisited G s).card := visits_mono (by omega)
  exact ⟨by omega, by omega⟩

theorem successors_framed {visit : Visit Node} (hvisit : Correct G visit depth)
    (henough : Enough G (depth + 1) s) (hv : s.getCDN v = 0) (hnode : v ∈ G.nodes)
    (ws : List Node) (hws : ∀ w ∈ ws, w ∈ G.succs v) (h : Framed G s v partition f cs new ms) :
    ∃ f' cs' new', ws.foldlM (Frame.successor visit) f = some f' ∧
      Framed G s v partition f' cs' new' (ws.reverse ++ ms) := by
  induction ws generalizing f cs new ms with
  | nil => exact ⟨f, cs, new, rfl, h⟩
  | cons w ws ih =>
      have hw := hws w List.mem_cons_self
      have hstep : ∃ f' cs' new', f.successor visit w = some f' ∧
          Framed G s v partition f' cs' new' (w :: ms) := by
        rw [Frame.successor]
        by_cases hzero : f.state.getCDN w = 0
        · have hchild : Enough G depth f.state :=
            henough.grown h.grown (by simp)
          obtain ⟨s', head, cs', new', hrun, hresult⟩ := hvisit f.state w f.partition h.grown.inv
            hzero (G.closed v hnode w hw) hchild
          rw [if_pos hzero, hrun]
          exact ⟨_, _, _, rfl, h.child hw hzero hresult⟩
        · rw [if_neg hzero]
          exact ⟨_, _, _, rfl, h.visited hv hw hzero⟩
      obtain ⟨f', cs', new', hrun, hframed⟩ := hstep
      obtain ⟨f'', cs'', new'', hfold, hlast⟩ :=
        ih (fun u hu => hws u (List.mem_cons_of_mem w hu)) hframed
      refine ⟨f'', cs'', new'', ?_, ?_⟩
      · rw [List.foldlM_cons, hrun]
        exact hfold
      · rw [List.reverse_cons, List.append_assoc]
        exact hlast

theorem framed_succs (h : Framed G s v partition f cs new ((G.succs v).reverse ++ [])) :
    ∀ m ∈ G.succs v, f.head ≤ f.state.getCDN m := fun m hm =>
  h.seen m (List.mem_append_left [] (List.mem_reverse.mpr hm))

/-- An edge leads from the nodes above `v` to an older node, so `v` remains on the stack. -/
theorem leave_open (h : Framed G s v partition f cs new ((G.succs v).reverse ++ []))
    (hlt : f.head < s.num + 1) : Result G s f.state v f.head cs (new ++ [v]) where
  grown := h.grown
  visited := h.number ▸ Nat.succ_ne_zero _
  covered n hn hvis m hm := by
    by_cases hnv : n = v
    · exact Nat.ne_of_gt (h.head_pos.trans_le (framed_succs h m (hnv ▸ hm)))
    · exact h.covered n hnv hn hvis m hm
  closed hnil := by simp at hnil
  low n hn m hm := by
    rcases List.mem_append.mp hn with hn | hn
    · exact h.low n hn m hm
    · exact framed_succs h m (List.mem_singleton.mp hn ▸ hm)
  back _ := ⟨h.head_pos, List.mem_append_right new List.mem_cons_self, h.back hlt⟩

/-- Nodes with numbers from that of `v` on are open above `v`, or done. -/
theorem mem_of_le (h : Framed G s v partition f cs new ms) {m : Node}
    (hm : s.num + 1 ≤ f.state.getCDN m) : m = v ∨ m ∈ new ∨ Done f.state m := by
  by_cases hdone : Done f.state m
  · exact .inr (.inr hdone)
  · have hmem := (h.grown.inv.stack_iff m).mpr ⟨by omega, hdone⟩
    rw [h.grown.stack] at hmem
    rcases List.mem_append.mp hmem with hmem | hold
    · rcases List.mem_append.mp hmem with hmem | hmem
      · exact .inr (.inl hmem)
      · exact .inl (List.mem_singleton.mp hmem)
    · have hle := h.start.stack_le m hold
      rw [h.grown.old m ((h.start.stack_iff m).mp hold).1] at hm
      omega

theorem popTo_eq (stack rest : List Node) (hv : v ∉ stack) (s : WTOState Node) :
    ∃ s', WTOState.popTo v (stack ++ v :: rest) s = some s' ∧ s'.stack = rest ∧ s'.num = s.num ∧
      ∀ n, s'.getCDN n = if n ∈ stack then 0 else s.getCDN n := by
  induction stack generalizing s with
  | nil =>
      refine ⟨{ s with stack := rest }, if_pos rfl, rfl, rfl, fun n => ?_⟩
      rw [if_neg List.not_mem_nil]
      rfl
  | cons w stack ih =>
      rw [List.mem_cons, not_or] at hv
      obtain ⟨s', hrun, hstack, hnum, hcdn⟩ := ih hv.2 (s.setCDN w 0)
      refine ⟨s', ?_, hstack, hnum, fun n => ?_⟩
      · rw [List.cons_append, WTOState.popTo, if_neg (Ne.symm hv.1)]
        exact hrun
      · rw [hcdn, getCDN_setCDN]
        by_cases hn : n ∈ stack
        · rw [if_pos hn, if_pos (List.mem_cons_of_mem w hn)]
        · rw [if_neg hn]
          by_cases hnw : n = w
          · rw [if_pos hnw, if_pos (List.mem_cons.mpr (.inl hnw))]
          · rw [if_neg hnw, if_neg (fun hmem => (List.mem_cons.mp hmem).elim hnw hn)]

section

/-- The state after the component of `v` has been popped: its other nodes can be visited again. -/
structure Popped (s t : WTOState Node) (f : Frame Node) (v : Node) (new : List Node) : Prop where
  stack : t.stack = s.stack
  num : t.num = f.state.num
  cdn : ∀ n, t.getCDN n = if n = v then UINT_MAX else if n ∈ new then 0 else f.state.getCDN n

variable {t : WTOState Node}

theorem framed_disjoint (h : Framed G s v partition f cs new ms) :
    new.Nodup ∧ v ∉ new ∧ ∀ n ∈ s.stack, n ≠ v ∧ n ∉ new := by
  have hnodup := h.grown.inv.nodup
  rw [h.grown.stack] at hnodup
  obtain ⟨habove, -, hdisjoint⟩ := List.nodup_append.mp hnodup
  obtain ⟨hnew, -, hv⟩ := List.nodup_append.mp habove
  refine ⟨hnew, fun hmem => hv v hmem v List.mem_cons_self rfl, fun n hn => ⟨fun heq => ?_, ?_⟩⟩
  · exact hdisjoint v (List.mem_append_right new List.mem_cons_self) n hn heq.symm
  · exact fun hmem => hdisjoint n (List.mem_append_left [v] hmem) n hn rfl

theorem Popped.done (h : Framed G s v partition f cs new ms) (hp : Popped s t f v new) (n : Node) :
    Done t n ↔ Done f.state n ∨ n = v := by
  rw [Done, hp.cdn]
  by_cases hnv : n = v
  · rw [if_pos hnv]
    exact iff_of_true rfl (.inr hnv)
  · rw [if_neg hnv, or_iff_left hnv]
    by_cases hn : n ∈ new
    · rw [if_pos hn]
      exact iff_of_false zero_ne_max (h.grown.not_done (List.mem_append_left [v] hn))
    · rw [if_neg hn]
      exact Iff.rfl

theorem Popped.inv (h : Framed G s v partition f cs new ms) (hp : Popped s t f v new) :
    Inv G t := by
  obtain ⟨-, -, hrest⟩ := framed_disjoint h
  have hcdn : ∀ n ∈ s.stack, t.getCDN n = f.state.getCDN n := by
    intro n hn
    rw [hp.cdn, if_neg (hrest n hn).1, if_neg (hrest n hn).2]
  have hmem : ∀ {n : Node}, n ∈ s.stack → n ∈ f.state.stack := fun hn =>
    h.grown.stack ▸ List.mem_append_right _ hn
  exact {
    num_lt := hp.num ▸ h.grown.inv.num_lt
    stack_iff := by
      intro n
      rw [hp.stack, Popped.done h hp, hp.cdn]
      by_cases hnv : n = v
      · exact iff_of_false (fun hn => (hrest n hn).1 hnv) fun hboth => hboth.2 (.inr hnv)
      · rw [if_neg hnv, or_iff_left hnv]
        by_cases hn : n ∈ new
        · rw [if_pos hn]
          exact iff_of_false (fun hold => (hrest n hold).2 hn) fun hboth => hboth.1 rfl
        · rw [if_neg hn, ← h.grown.inv.stack_iff, h.grown.stack, List.mem_append, List.mem_append,
            List.mem_singleton]
          exact ⟨.inr, fun hor => hor.resolve_left fun habove => habove.elim hn hnv⟩
    stack_le := by
      intro n hn
      rw [hp.stack] at hn
      rw [hcdn n hn, hp.num]
      exact h.grown.inv.stack_le n (hmem hn)
    sorted := by
      rw [hp.stack]
      have hsorted := h.grown.inv.sorted
      rw [h.grown.stack] at hsorted
      refine (List.pairwise_append.mp hsorted).2.1.imp_of_mem fun ha hb hlt => ?_
      rw [hcdn _ ha, hcdn _ hb]
      exact hlt
    nodes := by
      intro n hn
      by_cases hvis : f.state.getCDN n = 0
      · have hnv : n = v := by
          by_contra hnv
          rw [hp.cdn, if_neg hnv] at hn
          split at hn
          · exact hn rfl
          · exact hn hvis
        have hvvis : f.state.getCDN v ≠ 0 := h.number ▸ Nat.succ_ne_zero _
        exact hnv ▸ h.grown.inv.nodes v hvvis
      · exact h.grown.inv.nodes n hvis }

/-- The nodes that can be visited are those that could be before, and those of the component. -/
theorem Popped.enough (h : Framed G s v partition f cs new ms) (hp : Popped s t f v new)
    (henough : Enough G (depth + 1) s) : Enough G depth t := by
  have hsub : unvisited G t ⊆ unvisited G f.state ∪ new.toFinset := by
    intro n hn
    obtain ⟨hnode, hzero⟩ := mem_unvisited.mp hn
    rw [Finset.mem_union, List.mem_toFinset]
    by_cases hmem : n ∈ new
    · exact .inr hmem
    · rw [hp.cdn, if_neg hmem] at hzero
      split at hzero
      · exact absurd hzero.symm zero_ne_max
      · exact .inl (mem_unvisited.mpr ⟨hnode, hzero⟩)
  have hnew : new.toFinset ⊆ unvisited G t := by
    intro n hn
    rw [List.mem_toFinset] at hn
    have hnv : n ≠ v := fun heq => (framed_disjoint h).2.1 (heq ▸ hn)
    have hvis := ((h.grown.inv.stack_iff n).mp
      (h.grown.mem_stack (List.mem_append_left [v] hn))).1
    refine mem_unvisited.mpr ⟨h.grown.inv.nodes n hvis, ?_⟩
    rw [hp.cdn, if_neg hnv, if_pos hn]
  have hle := (Finset.card_le_card hsub).trans (Finset.card_union_le _ _)
  have hge := Finset.card_le_card hnew
  rw [List.toFinset_card_of_nodup (framed_disjoint h).1] at hle hge
  have hcard := h.grown.card
  have hnum := h.grown.num
  rw [List.length_append, List.length_singleton] at hcard hnum
  have hadd := visits_add (nodesOf cs).length ((unvisited G t).card + 1)
  have hsucc : visits ((unvisited G t).card + 1) =
      visits (unvisited G t).card + ((unvisited G t).card + 1) := rfl
  have hmono : visits ((nodesOf cs).length + ((unvisited G t).card + 1)) ≤
      visits (unvisited G s).card := visits_mono (by omega)
  have hall := henough.num
  have hdepth := henough.depth
  refine ⟨by omega, ?_⟩
  rw [hp.num]
  omega

end

section

variable {t : WTOState Node} {r : WTOState Node × Partition Node}

structure Composing (G : Graph Node) (t : WTOState Node) (v : Node)
    (r : WTOState Node × Partition Node) (ms : List Node) : Prop where
  grown : Grown G t r.1 v r.2 []
  covered : ∀ n ∈ nodesOf r.2, ∀ m ∈ G.succs n, r.1.getCDN m ≠ 0
  seen : ∀ m ∈ ms, r.1.getCDN m ≠ 0

/-- The edges out of the popped nodes lead to each other, to `v`, or to complete components. -/
theorem low_of_mem (h : Framed G s v partition f cs new ((G.succs v).reverse ++ []))
    (hhead : f.head = s.num + 1) {n m : Node} (hn : n = v ∨ n ∈ new) (hm : m ∈ G.succs n) :
    s.num + 1 ≤ f.state.getCDN m := by
  rw [← hhead]
  rcases hn with rfl | hn
  · exact framed_succs h m hm
  · exact h.low n hn m hm

theorem mem_of_white (h : Framed G s v partition f cs new ((G.succs v).reverse ++ []))
    (hhead : f.head = s.num + 1) (hp : Popped s t f v new) {n m : Node} (hn : n = v ∨ n ∈ new)
    (hm : m ∈ G.succs n) (hwhite : t.getCDN m = 0) : m ∈ new := by
  have hopen : ¬ Done t m := fun hdone => zero_ne_max (hwhite.symm.trans hdone)
  rw [Popped.done h hp, not_or] at hopen
  rcases mem_of_le h (low_of_mem h hhead hn hm) with hmv | hmem | hdone
  · exact absurd hmv hopen.2
  · exact hmem
  · exact absurd hdone hopen.1

theorem notMem_stack (h : Framed G s v partition f cs new ((G.succs v).reverse ++ []))
    (hhead : f.head = s.num + 1) {n m : Node} (hn : n = v ∨ n ∈ new) (hm : m ∈ G.succs n) :
    m ∉ s.stack := by
  intro hmem
  have hlow := low_of_mem h hhead hn hm
  have hle := h.start.stack_le m hmem
  rw [h.grown.old m ((h.start.stack_iff m).mp hmem).1] at hlow
  omega

theorem Enough.closed (h : Enough G depth s) (hgrown : Grown G s s' v cs []) :
    Enough G depth s' := by
  have hcard := hgrown.card
  have hnum := hgrown.num
  have hadd := visits_add (nodesOf cs).length (unvisited G s').card
  have hmono : visits ((nodesOf cs).length + (unvisited G s').card) ≤
      visits (unvisited G s).card := visits_mono (by omega)
  have hdepth := h.depth
  have hall := h.num
  rw [List.length_nil] at hcard hnum
  exact ⟨by omega, by omega⟩

theorem Composing.successor {visit : Visit Node} (hvisit : Correct G visit depth)
    (h : Framed G s v partition f cs new ((G.succs v).reverse ++ []))
    (hhead : f.head = s.num + 1) (hp : Popped s t f v new) (henough : Enough G depth t)
    (hnode : v ∈ G.nodes) (hw : w ∈ G.succs v) (hr : Composing G t v r ms) :
    ∃ r', componentSuccessor visit r w = some r' ∧ Composing G t v r' (w :: ms) := by
  rw [componentSuccessor]
  by_cases hzero : r.1.getCDN w = 0
  · obtain ⟨s', head, cs', new', hrun, hresult⟩ := hvisit r.1 w r.2 hr.grown.inv hzero
      (G.closed v hnode w hw) (henough.closed hr.grown)
    have hwnew := mem_of_white h hhead hp (.inl rfl) hw (hr.grown.white hzero)
    have hnil : new' = [] := by
      by_contra hne
      obtain ⟨-, -, n, hn, hvis, m, hm, hstack, -⟩ := hresult.back hne
      have hmem : n ∈ new := (hresult.grown.reach n hn hvis).closed
        (fun a ha b hb hbzero => mem_of_white h hhead hp (.inr ha) hb (hr.grown.white hbzero)) hwnew
      rw [hr.grown.stack, List.nil_append, hp.stack] at hstack
      exact notMem_stack h hhead (.inr hmem) hm hstack
    subst hnil
    rw [if_pos hzero, hrun]
    refine ⟨_, rfl, hr.grown.child hresult.grown hw hzero fun hne => absurd rfl hne,
      fun n hn m hm => ?_, fun m hm => ?_⟩
    · rw [nodesOf_append, List.mem_append] at hn
      rcases hn with hn | hn
      · have hdone : Done s' n := (hresult.grown.done n).mpr (.inr hn)
        exact hresult.covered n (hresult.grown.cs_fresh n hn)
          (fun heq => zero_ne_max (heq.symm.trans hdone)) m hm
      · exact hresult.grown.kept (hr.covered n hn m hm)
    · rcases List.mem_cons.mp hm with rfl | hm
      · exact hresult.visited
      · exact hresult.grown.kept (hr.seen m hm)
  · rw [if_neg hzero]
    refine ⟨r, rfl, hr.grown, hr.covered, fun m hm => ?_⟩
    rcases List.mem_cons.mp hm with rfl | hm
    · exact hzero
    · exact hr.seen m hm

theorem composing_succs {visit : Visit Node} (hvisit : Correct G visit depth)
    (h : Framed G s v partition f cs new ((G.succs v).reverse ++ []))
    (hhead : f.head = s.num + 1) (hp : Popped s t f v new) (henough : Enough G depth t)
    (hnode : v ∈ G.nodes) (ws : List Node) (hws : ∀ w ∈ ws, w ∈ G.succs v)
    (hr : Composing G t v r ms) :
    ∃ r', ws.foldlM (componentSuccessor visit) r = some r' ∧
      Composing G t v r' (ws.reverse ++ ms) := by
  induction ws generalizing r ms with
  | nil => exact ⟨r, rfl, hr⟩
  | cons w ws ih =>
      obtain ⟨r', hrun, hr'⟩ :=
        hr.successor hvisit h hhead hp henough hnode (hws w List.mem_cons_self)
      obtain ⟨r'', hfold, hlast⟩ := ih (fun u hu => hws u (List.mem_cons_of_mem w hu)) hr'
      refine ⟨r'', ?_, ?_⟩
      · rw [List.foldlM_cons, hrun]
        exact hfold
      · rw [List.reverse_cons, List.append_assoc]
        exact hlast

theorem Composing.mem_iff (h : Framed G s v partition f cs new ((G.succs v).reverse ++ []))
    (hhead : f.head = s.num + 1) (hp : Popped s t f v new)
    (hr : Composing G t v r ((G.succs v).reverse ++ [])) (n : Node) :
    n ∈ nodesOf r.2 ↔ n ∈ new := by
  have hinv := Popped.inv h hp
  have hvmax : t.getCDN v = UINT_MAX := by rw [hp.cdn, if_pos rfl]
  constructor
  · intro hn
    have hfresh := hr.grown.cs_fresh n hn
    have hdone : Done r.1 n := (hr.grown.done n).mpr (.inr hn)
    have hpath := hr.grown.reach n hfresh fun heq => zero_ne_max (heq.symm.trans hdone)
    have hmem := hpath.closed (q := fun a => a = v ∨ a ∈ new)
      (fun a ha b hb hbzero => .inr (mem_of_white h hhead hp ha hb hbzero)) (.inl rfl)
    refine hmem.resolve_left fun heq => ?_
    rw [heq, hvmax] at hfresh
    exact zero_ne_max hfresh.symm
  · intro hn
    have hcomp : ∀ b, b ∈ new ++ [v] → r.1.getCDN b ≠ 0 → b = v ∨ b ∈ nodesOf r.2 := by
      intro b hb hvis
      rcases List.mem_append.mp hb with hb | hb
      · have hbv : b ≠ v := fun heq => (framed_disjoint h).2.1 (heq ▸ hb)
        have hbzero : t.getCDN b = 0 := by rw [hp.cdn, if_neg hbv, if_pos hb]
        exact .inr ((hr.grown.new_or_done hinv hbzero hvis).resolve_left List.not_mem_nil)
      · exact .inl (List.mem_singleton.mp hb)
    have hpath := h.grown.conn n (List.mem_append_left [v] hn)
    have hmem := hpath.closed (q := fun a => a = v ∨ a ∈ nodesOf r.2)
      (fun a ha b hb hbin => hcomp b hbin <| by
        rcases ha with rfl | ha
        · exact hr.seen b (List.mem_append_left [] (List.mem_reverse.mpr hb))
        · exact hr.covered a ha b hb) (.inl rfl)
    exact hmem.resolve_left fun heq => (framed_disjoint h).2.1 (heq ▸ hn)

end

section

variable {t : WTOState Node} {r : WTOState Node × Partition Node}

theorem leave_node (h : Framed G s v partition f cs new ((G.succs v).reverse ++ []))
    (hv : s.getCDN v = 0) (hhead : f.head = s.num + 1) (hloop : f.loop = false)
    (hp : Popped s t f v new) : Result G s t v f.head ([.node v] ++ cs) [] := by
  obtain ⟨hnew, -, hseen⟩ := h.loop hloop
  have hinv := Popped.inv h hp
  have hcdn : ∀ n, n ≠ v → t.getCDN n = f.state.getCDN n := fun n hn => by
    rw [hp.cdn, if_neg hn, hnew, if_neg List.not_mem_nil]
  have hvmax : t.getCDN v = UINT_MAX := by rw [hp.cdn, if_pos rfl]
  have hvnot : v ∉ nodesOf cs := fun hmem => by
    have hdone : Done f.state v := (h.grown.done v).mpr (.inr hmem)
    exact h.grown.not_done (List.mem_append_right new List.mem_cons_self) hdone
  have hnodup : (nodesOf ([.node v] ++ cs)).Nodup := by
    rw [nodesOf_append, nodesOf_node]
    exact List.nodup_cons.mpr ⟨hvnot, h.grown.nodup⟩
  have hdone : ∀ m ∈ G.succs v, Done f.state m := by
    intro m hm
    have hlt := hseen m (List.mem_append_left [] (List.mem_reverse.mpr hm))
    rcases mem_of_le h (low_of_mem h hhead (.inl rfl) hm) with rfl | hmem | hdone
    · rw [hhead, h.number] at hlt
      exact absurd hlt (Nat.lt_irrefl _)
    · rw [hnew] at hmem
      simp at hmem
    · exact hdone
  have hvis : ∀ n, f.state.getCDN n ≠ 0 → t.getCDN n ≠ 0 := by
    intro n hn
    by_cases hnv : n = v
    · rw [hnv, hvmax]
      exact zero_ne_max.symm
    · rw [hcdn n hnv]
      exact hn
  have hback : ∀ n, t.getCDN n ≠ 0 → f.state.getCDN n ≠ 0 := by
    intro n hn
    by_cases hnv : n = v
    · rw [hnv, h.number]
      exact Nat.succ_ne_zero _
    · rw [← hcdn n hnv]
      exact hn
  exact {
    grown := {
      inv := hinv
      stack := hp.stack
      old := fun n hn => by
        rw [hcdn n fun heq => hn (heq ▸ hv)]
        exact h.grown.old n hn
      new_fresh := fun n hn => by simp at hn
      done := fun n => by
        rw [Popped.done h hp, h.grown.done, nodesOf_append, nodesOf_node, List.mem_append,
          List.mem_singleton, or_assoc]
        exact or_congr_right or_comm
      nodup := hnodup
      cs_fresh := fun n hn => by
        rw [nodesOf_append, nodesOf_node, List.mem_append, List.mem_singleton] at hn
        rcases hn with rfl | hn
        · exact hv
        · exact h.grown.cs_fresh n hn
      reach := fun n hn hnvis => h.grown.reach n hn (hback n hnvis)
      ordered := (ordered_node v hdone).append h.grown.ordered hnodup fun n hn =>
        (h.grown.done n).mp hn
      conn := fun n hn => by simp at hn
      num_le := by rw [hp.num]; exact h.grown.num_le
      num := by
        have hnum := h.grown.num
        have hadd := visits_add 1 (nodesOf cs).length
        have hone : visits 1 = 1 := rfl
        rw [hnew, List.nil_append, List.length_singleton] at hnum
        rw [hp.num, nodesOf_append, nodesOf_node, List.length_append, List.length_singleton,
          List.length_nil]
        omega }
    visited := hvis v (h.number ▸ Nat.succ_ne_zero _)
    covered := fun n hn hnvis m hm => by
      by_cases hnv : n = v
      · refine hvis m fun heq => ?_
        exact zero_ne_max (heq.symm.trans (hdone m (hnv ▸ hm)))
      · exact hvis m (h.covered n hnv hn (hback n hnvis) m hm)
    closed := fun _ => hhead ▸ Nat.lt_succ_self _
    low := fun n hn => by simp at hn
    back := fun hne => absurd rfl hne }

theorem leave_cycle (h : Framed G s v partition f cs new ((G.succs v).reverse ++ []))
    (hv : s.getCDN v = 0) (hhead : f.head = s.num + 1) (hp : Popped s t f v new)
    (hr : Composing G t v r ((G.succs v).reverse ++ [])) :
    Result G s r.1 v f.head ([.cycle v r.2] ++ cs) [] := by
  have hinv := Popped.inv h hp
  have hbody := Composing.mem_iff h hhead hp hr
  obtain ⟨hnewnodup, hvnew, -⟩ := framed_disjoint h
  have hvmax : t.getCDN v = UINT_MAX := by rw [hp.cdn, if_pos rfl]
  have hvopen : ¬ Done f.state v :=
    h.grown.not_done (List.mem_append_right new List.mem_cons_self)
  have hvcs : v ∉ nodesOf cs := fun hmem => hvopen ((h.grown.done v).mpr (.inr hmem))
  have hcycle : (v :: nodesOf r.2).Nodup :=
    List.nodup_cons.mpr ⟨fun hmem => hvnew ((hbody v).mp hmem), hr.grown.nodup⟩
  have hnodup : (nodesOf ([.cycle v r.2] ++ cs)).Nodup := by
    rw [nodesOf_append, nodesOf_cycle]
    refine List.nodup_append.mpr ⟨hcycle, h.grown.nodup, fun a ha b hb heq => ?_⟩
    subst heq
    rcases List.mem_cons.mp ha with rfl | ha
    · exact hvcs hb
    · have hdone : Done f.state a := (h.grown.done a).mpr (.inr hb)
      exact h.grown.not_done (List.mem_append_left [v] ((hbody a).mp ha)) hdone
  -- what was visited before the component was put together is visited afterwards
  have hvis : ∀ n, f.state.getCDN n ≠ 0 → r.1.getCDN n ≠ 0 := by
    intro n hn
    by_cases hnew : n ∈ new
    · have hdone : Done r.1 n := (hr.grown.done n).mpr (.inr ((hbody n).mpr hnew))
      exact fun heq => zero_ne_max (heq.symm.trans hdone)
    · refine hr.grown.kept ?_
      rw [hp.cdn, if_neg hnew]
      split
      · exact zero_ne_max.symm
      · exact hn
  have hback : ∀ n, r.1.getCDN n ≠ 0 → f.state.getCDN n ≠ 0 := by
    intro n hn
    by_cases hnv : n = v
    · rw [hnv, h.number]
      exact Nat.succ_ne_zero _
    · by_cases hnew : n ∈ new
      · exact ((h.grown.inv.stack_iff n).mp
          (h.grown.mem_stack (List.mem_append_left [v] hnew))).1
      · by_contra hzero
        have htzero : t.getCDN n = 0 := by rw [hp.cdn, if_neg hnv, if_neg hnew, hzero]
        have hmem := (hr.grown.new_or_done hinv htzero hn).resolve_left List.not_mem_nil
        exact hnew ((hbody n).mp hmem)
  have hsuccs : ∀ m ∈ G.succs v, m = v ∨ m ∈ nodesOf r.2 ∨ Done f.state m := by
    intro m hm
    rcases mem_of_le h (low_of_mem h hhead (.inl rfl) hm) with hmv | hmem | hdone
    · exact .inl hmv
    · exact .inr (.inl ((hbody m).mpr hmem))
    · exact .inr (.inr hdone)
  have hordered : Ordered G.succs r.2 fun n => Done f.state n ∨ n = v := fun u hu m hm =>
    (hr.grown.ordered u hu m hm).imp_right fun hor => hor.imp_right (Popped.done h hp m).mp
  exact {
    grown := {
      inv := hr.grown.inv
      stack := hr.grown.stack.trans hp.stack
      old := fun n hn => by
        have hnv : n ≠ v := fun heq => hn (heq ▸ hv)
        have hnew : n ∉ new := fun hmem =>
          hn (h.grown.new_fresh n (List.mem_append_left [v] hmem)).1
        have hsame : t.getCDN n = s.getCDN n := by
          rw [hp.cdn, if_neg hnv, if_neg hnew]
          exact h.grown.old n hn
        rw [hr.grown.old n (hsame ▸ hn), hsame]
      new_fresh := fun n hn => by simp at hn
      done := fun n => by
        rw [hr.grown.done, Popped.done h hp, h.grown.done, nodesOf_append, nodesOf_cycle,
          List.mem_append, List.mem_cons]
        tauto
      nodup := hnodup
      cs_fresh := fun n hn => by
        rw [nodesOf_append, nodesOf_cycle, List.mem_append, List.mem_cons] at hn
        rcases hn with (rfl | hn) | hn
        · exact hv
        · exact (h.grown.new_fresh n (List.mem_append_left [v] ((hbody n).mp hn))).1
        · exact h.grown.cs_fresh n hn
      reach := fun n hn hnvis => h.grown.reach n hn (hback n hnvis)
      ordered := (ordered_cycle v hcycle hordered hsuccs).append h.grown.ordered hnodup fun n hn =>
        (h.grown.done n).mp hn
      conn := fun n hn => by simp at hn
      num_le := h.grown.num_le.trans (hp.num ▸ hr.grown.num_le)
      num := by
        have hnum := h.grown.num
        have hnum' := hr.grown.num
        have hlength : new.length ≤ (nodesOf r.2).length :=
          (List.Subperm.length_le (hnewnodup.subperm fun n hn => (hbody n).mpr hn))
        have hadd := visits_add ((nodesOf r.2).length + 1) (nodesOf cs).length
        have hsucc : visits ((nodesOf r.2).length + 1) =
            visits (nodesOf r.2).length + ((nodesOf r.2).length + 1) := rfl
        rw [List.length_append, List.length_singleton] at hnum
        rw [List.length_nil, hp.num] at hnum'
        rw [nodesOf_append, nodesOf_cycle, List.length_append, List.length_cons, List.length_nil]
        omega }
    visited := hvis v (h.number ▸ Nat.succ_ne_zero _)
    covered := fun n hn hnvis m hm => by
      by_cases hnv : n = v
      · exact hr.seen m (List.mem_append_left [] (List.mem_reverse.mpr (hnv ▸ hm)))
      · exact hvis m (h.covered n hnv hn (hback n hnvis) m hm)
    closed := fun _ => hhead ▸ Nat.lt_succ_self _
    low := fun n hn => by simp at hn
    back := fun hne => absurd rfl hne }

theorem result_emplaceHead {head : ℕ} (h : Result G s s' v head cs new) (c : WTOComponent Node) :
    Result G s (s'.emplaceHead v c) v head cs new := by
  rw [WTOState.emplaceHead]
  cases s'.headRefToCycle v with
  | some _ => exact h
  | none => exact { h with grown := { h.grown with inv := { h.grown.inv with } } }

theorem visit_step {visit' : Visit Node} (hvisit : Correct G visit' depth) (hs : Inv G s)
    (hv : s.getCDN v = 0) (hnode : v ∈ G.nodes) (henough : Enough G (depth + 1) s)
    (partition : Partition Node) :
    ∃ f cs new, (G.succs v).foldlM (Frame.successor visit')
        ⟨s.push v, partition, (s.push v).num, false⟩ = some f ∧
      Framed G s v partition f cs new ((G.succs v).reverse ++ []) := by
  have hmem : v ∈ unvisited G s := mem_unvisited.mpr ⟨hnode, hv⟩
  have hcard := Finset.card_pos.mpr ⟨v, hmem⟩
  have hle := le_visits (unvisited G s).card
  have hnum := henough.num
  exact successors_framed hvisit henough hv hnode (G.succs v) (fun _ hw => hw)
    (framed_push hs hv hnode (by omega) partition)

theorem popped_popTo (h : Framed G s v partition f cs new ms) :
    ∃ t, WTOState.popTo v (f.state.setCDN v UINT_MAX).stack (f.state.setCDN v UINT_MAX) = some t ∧
      Popped s t f v new := by
  have hstack : (f.state.setCDN v UINT_MAX).stack = new ++ v :: s.stack :=
    h.grown.stack.trans (List.append_assoc new [v] s.stack)
  have hv := (framed_disjoint h).2.1
  obtain ⟨t, hrun, hrest, hnum, hcdn⟩ :=
    popTo_eq new s.stack hv (f.state.setCDN v UINT_MAX)
  rw [hstack]
  refine ⟨t, hrun, hrest, hnum, fun n => ?_⟩
  rw [hcdn, getCDN_setCDN]
  by_cases hnv : n = v
  · rw [hnv, if_neg hv, if_pos rfl, if_pos rfl]
  · rw [if_neg hnv, if_neg hnv]

theorem popped_pop (h : Framed G s v partition f cs [] ms) :
    ∃ t, (f.state.setCDN v UINT_MAX).pop = some t ∧ Popped s t f v [] := by
  have hstack : (f.state.setCDN v UINT_MAX).stack = v :: s.stack := h.grown.stack
  refine ⟨{ f.state.setCDN v UINT_MAX with stack := s.stack }, ?_, rfl, rfl, fun n => ?_⟩
  · rw [WTOState.pop, hstack]
  · rw [if_neg List.not_mem_nil]
    exact getCDN_setCDN f.state v n UINT_MAX

theorem visit_correct (G : Graph Node) (depth : ℕ) : Correct G (visit G depth) depth := by
  induction depth with
  | zero =>
      intro s v partition hs hv hnode henough
      have hmem : v ∈ unvisited G s := mem_unvisited.mpr ⟨hnode, hv⟩
      have hcard := Finset.card_pos.mpr ⟨v, hmem⟩
      have hdepth := henough.depth
      omega
  | succ depth ih =>
      intro s v partition hs hv hnode henough
      obtain ⟨f, cs, new, hfold, h⟩ := visit_step ih hs hv hnode henough partition
      simp only [visit, hfold, Option.bind_some]
      by_cases hhead : f.head = f.state.getCDN v
      · rw [if_pos hhead]
        rw [h.number] at hhead
        by_cases hloop : f.loop = true
        · obtain ⟨t, hpop, hp⟩ := popped_popTo h
          have hinv := Popped.inv h hp
          have ht := Popped.enough h hp henough
          have hstart : Composing G t v (t, []) [] :=
            ⟨.refl hinv, fun n hn => by simp [nodesOf] at hn, fun m hm => by simp at hm⟩
          obtain ⟨r, hbody, hr⟩ :=
            composing_succs ih h hhead hp ht hnode (G.succs v) (fun _ hw => hw) hstart
          rw [if_pos hloop, hpop, Option.bind_some, component, hbody]
          have hresult := leave_cycle h hv hhead hp hr
          refine ⟨_, _, [.cycle v r.2] ++ cs, [], ?_, result_emplaceHead hresult (.cycle v r.2)⟩
          rw [List.append_assoc, ← h.partition]
          rfl
        · have hfalse : f.loop = false := Bool.eq_false_iff.mpr hloop
          have hnew := (h.loop hfalse).1
          subst hnew
          obtain ⟨t, hpop, hp⟩ := popped_pop h
          rw [if_neg hloop, hpop]
          refine ⟨t, f.head, [.node v] ++ cs, [], ?_, leave_node h hv hhead hfalse hp⟩
          rw [List.append_assoc, ← h.partition]
          rfl
      · rw [if_neg hhead]
        rw [h.number] at hhead
        refine ⟨f.state, f.head, cs, new ++ [v], ?_,
          leave_open h (Nat.lt_of_le_of_ne h.head_le hhead)⟩
        rw [← h.partition]

end

/-- The order of a graph from its entry: the search ends, every node that the entry reaches is in
the order once, every edge goes forward and not to the head of a component around it, or back to the
head of a component that contains its source, and what is recorded for a node are the heads of the
components that contain it, without the one of which it is the head. -/
theorem init_order (G : Graph Node) (entry : Node) (hentry : entry ∈ G.nodes)
    (hsize : visits G.nodes.length < UINT_MAX) (hdepth : G.nodes.length ≤ depth) :
    ∃ wto, init G depth entry = some wto ∧
      (nodesOf wto.components).Nodup ∧
      (∀ n, n ∈ nodesOf wto.components ↔ Reach G entry n) ∧
      (∀ u, Reach G entry u → ∀ v ∈ G.succs u,
        ((nodesOf wto.components).idxOf u < (nodesOf wto.components).idxOf v ∧
          v ∉ headsOf u wto.components) ∨ v ∈ headsOf u wto.components) ∧
      ∀ n, Reach G entry n →
        wto.nodeToDepth n = some ((headsOf n wto.components).filter (· ≠ n)) := by
  have hcard : (unvisited G ({} : WTOState Node)).card ≤ G.nodes.length :=
    (Finset.card_filter_le _ _).trans (List.toFinset_card_le _)
  have hnum : ({} : WTOState Node).num + visits (unvisited G ({} : WTOState Node)).card < UINT_MAX :=
    (Nat.zero_add _).trans_lt ((visits_mono hcard).trans_lt hsize)
  obtain ⟨s', head, cs, new, hrun, h⟩ := visit_correct G depth {} entry [] inv_start rfl hentry
    ⟨hcard.trans hdepth, hnum⟩
  -- no older node is on the stack
  have hnil : new = [] := by
    by_contra hne
    obtain ⟨-, -, -, -, -, m, -, hstack, -⟩ := h.back hne
    simp at hstack
  have hmem : ∀ n, n ∈ nodesOf cs ↔ s'.getCDN n ≠ 0 := by
    intro n
    constructor
    · intro hn heq
      exact zero_ne_max (heq.symm.trans ((h.grown.done n).mpr (.inr hn)))
    · intro hvis
      rcases h.grown.new_or_done inv_start rfl hvis with hn | hn
      · rw [hnil] at hn
        simp at hn
      · exact hn
  have hreach : ∀ n, n ∈ nodesOf cs ↔ Reach G entry n := by
    intro n
    rw [hmem]
    constructor
    · intro hvis
      exact ReflTransGen.mono (fun _ _ hedge => hedge.1) _ _ (h.grown.reach n rfl hvis)
    · intro hpath
      induction hpath with
      | refl => exact h.visited
      | tail _ hedge ih => exact h.covered _ rfl ih _ hedge
  refine ⟨⟨cs ++ [], s'.headRefToCycle,
    (WTOCycleDepthBuilder.accept {} (cs ++ [])).nodeToWTOCycleDepth⟩, ?_, ?_⟩
  · rw [init, hrun]
    rfl
  · rw [List.append_nil]
    refine ⟨h.grown.nodup, hreach, fun u hu v hv => ?_, fun n hn => ?_⟩
    · rcases h.grown.ordered u ((hreach u).mpr hu) v hv with hhead | ⟨hhead, hlt⟩ | hdone
      · exact .inr hhead
      · exact .inl ⟨idxOf_lt_of_sublist h.grown.nodup hlt, hhead⟩
      · exact absurd hdone zero_ne_max
    · exact (accept_records {} cs h.grown.nodup fun _ _ => rfl).recorded n ((hreach n).mpr hn)

def exampleGraph : Graph ℕ where
  nodes := [0, 1, 2]
  succs n := if n = 0 then [1] else if n = 1 then [2] else [1, 0]
  closed := by decide

theorem init_order_example : ∃ wto, init exampleGraph 3 0 = some wto ∧
    (nodesOf wto.components).Nodup ∧
    wto.nodeToDepth 0 = some ((headsOf 0 wto.components).filter (· ≠ 0)) := by
  obtain ⟨wto, hrun, hnodup, -, -, hdepths⟩ :=
    init_order exampleGraph 0 (by decide) (by decide) (le_refl 3)
  exact ⟨wto, hrun, hnodup, hdepths 0 .refl⟩

/-- The visitor records for a head the heads around it, and not the head itself. -/
theorem head_not_recorded : (init exampleGraph 3 0).map (fun wto =>
    (nodesOf wto.components, headsOf 0 wto.components, wto.nodeToDepth 0)) =
      some ([0, 1, 2], [0], some []) := by
  decide +kernel

end SVF.Graphs.WTORuns
