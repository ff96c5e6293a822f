import Mathlib.Data.Finset.Card
import Mathlib.Data.Finset.Union
import SVF.Graphs.WTOComponents

namespace SVF.Graphs.WTOInvariant

open Relation WeakTopologicalOrder WTOComponents
open Util.NodeIDs (UINT_MAX)

/-- The most visits that a graph of `n` nodes can take: the last one of them may be in `n`
components. -/
def visits : ℕ → ℕ
  | 0 => 0
  | n + 1 => visits n + (n + 1)

theorem le_visits (n : ℕ) : n ≤ visits n := by
  cases n with
  | zero => exact le_refl 0
  | succ n =>
      rw [visits]
      omega

theorem visits_add (a b : ℕ) : visits a + visits b ≤ visits (a + b) := by
  induction b with
  | zero => exact le_refl _
  | succ b ih =>
      rw [← Nat.add_assoc, visits, visits]
      omega

theorem visits_mono {a b : ℕ} (h : a ≤ b) : visits a ≤ visits b := by
  obtain ⟨c, rfl⟩ := Nat.exists_eq_add_of_le h
  exact (Nat.le_add_right _ _).trans (visits_add a c)

variable {Node : Type} [DecidableEq Node] {G : Graph Node}

section

variable (s : WTOState Node) (n m : Node) (d : ℕ)

theorem getCDN_setCDN : (s.setCDN n d).getCDN m = if m = n then d else s.getCDN m :=
  Function.update_apply s.nodeToCDN n d m

theorem getCDN_push : (s.push n).getCDN m =
    if m = n then (s.num + 1) % 2 ^ 32 else s.getCDN m :=
  Function.update_apply s.nodeToCDN n _ m

end

def Done (s : WTOState Node) (n : Node) : Prop := s.getCDN n = UINT_MAX

/-- The stack has the nodes whose components are not complete, the last visited ones on top. -/
structure Inv (G : Graph Node) (s : WTOState Node) : Prop where
  num_lt : s.num < UINT_MAX
  stack_iff : ∀ n, n ∈ s.stack ↔ s.getCDN n ≠ 0 ∧ ¬ Done s n
  stack_le : ∀ n ∈ s.stack, s.getCDN n ≤ s.num
  sorted : s.stack.Pairwise fun a b => s.getCDN b < s.getCDN a
  nodes : ∀ n, s.getCDN n ≠ 0 → n ∈ G.nodes

theorem zero_ne_max : (0 : ℕ) ≠ UINT_MAX := by decide

omit [DecidableEq Node] in
theorem inv_start : Inv G ({} : WTOState Node) where
  num_lt := by
    change 0 < UINT_MAX
    decide
  stack_iff n := iff_of_false List.not_mem_nil fun h => h.1 rfl
  stack_le n h := by simp at h
  sorted := List.Pairwise.nil
  nodes n h := absurd rfl h

omit [DecidableEq Node] in
theorem Inv.nodup {s : WTOState Node} (h : Inv G s) : s.stack.Nodup := by
  refine h.sorted.imp ?_
  rintro a b hlt rfl
  exact Nat.lt_irrefl _ hlt

def Within (G : Graph Node) (p : Node → Prop) : Node → Node → Prop :=
  ReflTransGen fun n m => m ∈ G.succs n ∧ p m

omit [DecidableEq Node] in
theorem Within.mono {p q : Node → Prop} (hpq : ∀ n, p n → q n) {n m : Node}
    (h : Within G p n m) : Within G q n m :=
  ReflTransGen.mono (fun _ b hab => ⟨hab.1, hpq b hab.2⟩) _ _ h

omit [DecidableEq Node] in
theorem Within.closed {p q : Node → Prop} {n m : Node} (h : Within G p n m)
    (hq : ∀ a, q a → ∀ b ∈ G.succs a, p b → q b) (hn : q n) : q m := by
  induction h with
  | refl => exact hn
  | tail _ hedge ih => exact hq _ ih _ hedge.1 hedge.2

def unvisited (G : Graph Node) (s : WTOState Node) : Finset Node :=
  G.nodes.toFinset.filter fun n => s.getCDN n = 0

theorem mem_unvisited {s : WTOState Node} {n : Node} :
    n ∈ unvisited G s ↔ n ∈ G.nodes ∧ s.getCDN n = 0 := by
  rw [unvisited, Finset.mem_filter, List.mem_toFinset]

/-- What the search has done from `s` to `s'`, starting at `v`: the components `cs` are complete
and the nodes `new` are on the stack. -/
structure Grown (G : Graph Node) (s s' : WTOState Node) (v : Node) (cs : Partition Node)
    (new : List Node) : Prop where
  inv : Inv G s'
  stack : s'.stack = new ++ s.stack
  old : ∀ n, s.getCDN n ≠ 0 → s'.getCDN n = s.getCDN n
  new_fresh : ∀ n ∈ new, s.getCDN n = 0 ∧ s.num < s'.getCDN n
  done : ∀ n, Done s' n ↔ Done s n ∨ n ∈ nodesOf cs
  nodup : (nodesOf cs).Nodup
  cs_fresh : ∀ n ∈ nodesOf cs, s.getCDN n = 0
  reach : ∀ n, s.getCDN n = 0 → s'.getCDN n ≠ 0 → Within G (fun m => s.getCDN m = 0) v n
  ordered : Ordered G.succs cs (Done s)
  conn : ∀ n ∈ new, Within G (· ∈ new) v n
  num_le : s.num ≤ s'.num
  num : s'.num ≤ s.num + new.length + visits (nodesOf cs).length

section

variable {s s' s'' : WTOState Node} {v w : Node} {cs cs' : Partition Node} {new new' : List Node}

theorem Grown.refl (h : Inv G s) : Grown G s s v [] [] where
  inv := h
  stack := rfl
  old _ _ := rfl
  new_fresh _ hn := by simp at hn
  done n := by simp [nodesOf]
  nodup := by simp [nodesOf]
  cs_fresh n hn := by simp [nodesOf] at hn
  reach n hn hvis := absurd hn hvis
  ordered := ordered_nil
  conn _ hn := by simp at hn
  num_le := le_refl _
  num := by simp [nodesOf, visits]

theorem Grown.white (h : Grown G s s' v cs new) {n : Node} (hn : s'.getCDN n = 0) :
    s.getCDN n = 0 := by
  by_contra hvis
  exact hvis ((h.old n hvis).symm.trans hn)

theorem Grown.kept (h : Grown G s s' v cs new) {n : Node} (hn : s.getCDN n ≠ 0) :
    s'.getCDN n ≠ 0 := fun heq => hn (h.white heq)

theorem Grown.new_or_done (hs : Inv G s) (h : Grown G s s' v cs new) {n : Node}
    (hn : s.getCDN n = 0) (hvis : s'.getCDN n ≠ 0) : n ∈ new ∨ n ∈ nodesOf cs := by
  by_cases hdone : Done s' n
  · refine .inr (((h.done n).mp hdone).resolve_left fun hold => ?_)
    exact zero_ne_max (hn.symm.trans hold)
  · have hmem := (h.inv.stack_iff n).mpr ⟨hvis, hdone⟩
    rw [h.stack] at hmem
    exact .inl ((List.mem_append.mp hmem).resolve_right fun hold =>
      ((hs.stack_iff n).mp hold).1 hn)

theorem Grown.new_nodup (h : Grown G s s' v cs new) : new.Nodup := by
  have hnodup := h.inv.nodup
  rw [h.stack] at hnodup
  exact (List.nodup_append.mp hnodup).1

theorem Grown.mem_stack (h : Grown G s s' v cs new) {n : Node} (hn : n ∈ new) : n ∈ s'.stack :=
  h.stack ▸ List.mem_append_left s.stack hn

theorem Grown.not_done (h : Grown G s s' v cs new) {n : Node} (hn : n ∈ new) : ¬ Done s' n :=
  ((h.inv.stack_iff n).mp (h.mem_stack hn)).2

theorem Grown.card (h : Grown G s s' v cs new) :
    (unvisited G s').card + new.length + (nodesOf cs).length ≤ (unvisited G s).card := by
  have hcs : ∀ n ∈ nodesOf cs, Done s' n := fun n hn => (h.done n).mpr (.inr hn)
  have hall : (new ++ nodesOf cs).Nodup := by
    refine List.nodup_append.mpr ⟨h.new_nodup, h.nodup, fun a ha b hb heq => ?_⟩
    exact h.not_done ha (heq ▸ hcs b hb)
  have hvis : ∀ n ∈ new ++ nodesOf cs, s.getCDN n = 0 ∧ s'.getCDN n ≠ 0 := by
    intro n hn
    rcases List.mem_append.mp hn with hn | hn
    · exact ⟨(h.new_fresh n hn).1, ((h.inv.stack_iff n).mp (h.mem_stack hn)).1⟩
    · exact ⟨h.cs_fresh n hn, fun heq => zero_ne_max (heq.symm.trans (hcs n hn))⟩
  have hdisjoint : Disjoint (unvisited G s') (new ++ nodesOf cs).toFinset := by
    refine Finset.disjoint_left.mpr fun n hn hmem => ?_
    exact (hvis n (List.mem_toFinset.mp hmem)).2 (mem_unvisited.mp hn).2
  have hsub : unvisited G s' ∪ (new ++ nodesOf cs).toFinset ⊆ unvisited G s := by
    intro n hn
    rcases Finset.mem_union.mp hn with hn | hn
    · obtain ⟨hnode, hzero⟩ := mem_unvisited.mp hn
      exact mem_unvisited.mpr ⟨hnode, h.white hzero⟩
    · obtain ⟨hzero, hne⟩ := hvis n (List.mem_toFinset.mp hn)
      exact mem_unvisited.mpr ⟨h.inv.nodes n hne, hzero⟩
  have hcard := Finset.card_le_card hsub
  rw [Finset.card_union_of_disjoint hdisjoint, List.toFinset_card_of_nodup hall,
    List.length_append] at hcard
  omega

theorem Grown.child (h : Grown G s s' v cs new) (hchild : Grown G s' s'' w cs' new')
    (hw : w ∈ G.succs v) (hwhite : s'.getCDN w = 0) (hmem : new' ≠ [] → w ∈ new') :
    Grown G s s'' v (cs' ++ cs) (new' ++ new) where
  inv := hchild.inv
  stack := by rw [hchild.stack, h.stack, List.append_assoc]
  old n hn := (hchild.old n (h.kept hn)).trans (h.old n hn)
  new_fresh n hn := by
    rcases List.mem_append.mp hn with hn | hn
    · obtain ⟨hzero, hlt⟩ := hchild.new_fresh n hn
      exact ⟨h.white hzero, h.num_le.trans_lt hlt⟩
    · obtain ⟨hzero, hlt⟩ := h.new_fresh n hn
      refine ⟨hzero, ?_⟩
      rw [hchild.old n ((h.inv.stack_iff n).mp (h.mem_stack hn)).1]
      exact hlt
  done n := by
    rw [hchild.done, h.done, nodesOf_append, List.mem_append, or_assoc]
    exact or_congr_right or_comm
  nodup := by
    rw [nodesOf_append]
    refine List.nodup_append.mpr ⟨hchild.nodup, h.nodup, fun a ha b hb heq => ?_⟩
    have hdone : Done s' b := (h.done b).mpr (.inr hb)
    exact zero_ne_max ((hchild.cs_fresh a ha).symm.trans (heq ▸ hdone))
  cs_fresh n hn := by
    rw [nodesOf_append, List.mem_append] at hn
    exact hn.elim (fun hn => h.white (hchild.cs_fresh n hn)) (h.cs_fresh n)
  reach n hn hvis := by
    by_cases hzero : s'.getCDN n = 0
    · exact ReflTransGen.head ⟨hw, h.white hwhite⟩
        ((hchild.reach n hzero hvis).mono fun _ => h.white)
    · exact h.reach n hn hzero
  ordered := by
    refine hchild.ordered.append h.ordered ?_ fun n hn => (h.done n).mp hn
    rw [nodesOf_append]
    refine List.nodup_append.mpr ⟨hchild.nodup, h.nodup, fun a ha b hb heq => ?_⟩
    have hdone : Done s' b := (h.done b).mpr (.inr hb)
    exact zero_ne_max ((hchild.cs_fresh a ha).symm.trans (heq ▸ hdone))
  conn n hn := by
    rcases List.mem_append.mp hn with hn | hn
    · have hwmem := hmem (List.ne_nil_of_mem hn)
      exact ReflTransGen.head ⟨hw, List.mem_append_left new hwmem⟩
        ((hchild.conn n hn).mono fun _ => List.mem_append_left new)
    · exact (h.conn n hn).mono fun _ => List.mem_append_right new'
  num_le := h.num_le.trans hchild.num_le
  num := by
    have hfirst := h.num
    have hsecond := hchild.num
    have hadd := visits_add (nodesOf cs').length (nodesOf cs).length
    rw [nodesOf_append, List.length_append, List.length_append]
    omega

end

end SVF.Graphs.WTOInvariant
