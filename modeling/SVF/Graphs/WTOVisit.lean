import SVF.Graphs.WTOInvariant

namespace SVF.Graphs.WTOVisit

open Relation WeakTopologicalOrder WTOComponents WTOInvariant
open Util.NodeIDs (UINT_MAX)

variable {Node : Type} [DecidableEq Node] {G : Graph Node}

/-- What `visit` leaves behind when it returns `head`: complete components, or open nodes from which
an edge leads to the older node with the number `head`. -/
structure Result (G : Graph Node) (s s' : WTOState Node) (v : Node) (head : ℕ)
    (cs : Partition Node) (new : List Node) : Prop where
  grown : Grown G s s' v cs new
  visited : s'.getCDN v ≠ 0
  covered : ∀ n, s.getCDN n = 0 → s'.getCDN n ≠ 0 → ∀ m ∈ G.succs n, s'.getCDN m ≠ 0
  closed : new = [] → s.num < head
  low : ∀ n ∈ new, ∀ m ∈ G.succs n, head ≤ s'.getCDN m
  back : new ≠ [] → 0 < head ∧ v ∈ new ∧ ∃ n, s.getCDN n = 0 ∧ s'.getCDN n ≠ 0 ∧
    ∃ m ∈ G.succs n, m ∈ s.stack ∧ s.getCDN m = head

/-- While `visit` goes through the successors of `v`, those in `ms` already. The nodes `new` are
above `v` on the stack. -/
structure Framed (G : Graph Node) (s : WTOState Node) (v : Node) (partition : Partition Node)
    (f : Frame Node) (cs : Partition Node) (new ms : List Node) : Prop where
  start : Inv G s
  grown : Grown G s f.state v cs (new ++ [v])
  partition : f.partition = cs ++ partition
  number : f.state.getCDN v = s.num + 1
  covered : ∀ n, n ≠ v → s.getCDN n = 0 → f.state.getCDN n ≠ 0 →
    ∀ m ∈ G.succs n, f.state.getCDN m ≠ 0
  head_pos : 0 < f.head
  head_le : f.head ≤ s.num + 1
  seen : ∀ m ∈ ms, f.head ≤ f.state.getCDN m
  low : ∀ n ∈ new, ∀ m ∈ G.succs n, f.head ≤ f.state.getCDN m
  back : f.head < s.num + 1 → ∃ n, s.getCDN n = 0 ∧ f.state.getCDN n ≠ 0 ∧
    ∃ m ∈ G.succs n, m ∈ s.stack ∧ s.getCDN m = f.head
  loop : f.loop = false → new = [] ∧ f.head = s.num + 1 ∧ ∀ m ∈ ms, f.head < f.state.getCDN m

variable {s s' : WTOState Node} {v w : Node} {partition cs cs' : Partition Node}
  {f : Frame Node} {new new' ms : List Node}

theorem push_eq (hnum : s.num + 1 < UINT_MAX) (n : Node) : (s.push v).num = s.num + 1 ∧
    (s.push v).stack = v :: s.stack ∧
    (s.push v).getCDN n = if n = v then s.num + 1 else s.getCDN n := by
  have hmod : (s.num + 1) % 2 ^ 32 = s.num + 1 := by
    rw [UINT_MAX] at hnum
    exact Nat.mod_eq_of_lt (by omega)
  refine ⟨hmod, rfl, ?_⟩
  rw [getCDN_push, hmod]

theorem framed_push (hs : Inv G s) (hv : s.getCDN v = 0) (hnode : v ∈ G.nodes)
    (hnum : s.num + 1 < UINT_MAX) (partition : Partition Node) :
    Framed G s v partition ⟨s.push v, partition, (s.push v).num, false⟩ [] [] [] := by
  have hpush := fun n => @push_eq Node _ s v hnum n
  have hcdn : ∀ n, n ≠ v → (s.push v).getCDN n = s.getCDN n := fun n hn => by
    rw [(hpush n).2.2, if_neg hn]
  have hself : (s.push v).getCDN v = s.num + 1 := by rw [(hpush v).2.2, if_pos rfl]
  have hne : ∀ {n : Node}, s.getCDN n ≠ 0 → n ≠ v := fun hn heq => hn (heq ▸ hv)
  have hdone : ∀ n, Done (s.push v) n ↔ Done s n := by
    intro n
    by_cases hn : n = v
    · rw [Done, Done, hn, hself, hv]
      exact iff_of_false (Nat.ne_of_lt hnum) zero_ne_max
    · rw [Done, Done, hcdn n hn]
  have hvis : ∀ n, (s.push v).getCDN n ≠ 0 ↔ n = v ∨ s.getCDN n ≠ 0 := by
    intro n
    by_cases hn : n = v
    · rw [hn, hself]
      simp
    · rw [hcdn n hn]
      simp [hn]
  have hinv : Inv G (s.push v) := {
    num_lt := by rw [(hpush v).1]; exact hnum
    stack_iff := by
      intro n
      rw [(hpush n).2.1, List.mem_cons, hs.stack_iff, hvis, hdone]
      by_cases hn : n = v
      · refine iff_of_true (.inl hn) ⟨.inl hn, fun hmax => ?_⟩
        exact zero_ne_max (hv.symm.trans (hn ▸ hmax))
      · simp [hn]
    stack_le := by
      intro n hn
      rw [(hpush n).2.1] at hn
      rw [(hpush n).1]
      rcases List.mem_cons.mp hn with rfl | hn
      · rw [hself]
      · rw [hcdn n (hne ((hs.stack_iff n).mp hn).1)]
        exact Nat.le_succ_of_le (hs.stack_le n hn)
    sorted := by
      rw [(hpush v).2.1, List.pairwise_cons]
      refine ⟨fun n hn => ?_, hs.sorted.imp_of_mem fun ha hb hlt => ?_⟩
      · rw [hself, hcdn n (hne ((hs.stack_iff n).mp hn).1)]
        exact Nat.lt_succ_of_le (hs.stack_le n hn)
      · rw [hcdn _ (hne ((hs.stack_iff _).mp ha).1), hcdn _ (hne ((hs.stack_iff _).mp hb).1)]
        exact hlt
    nodes := by
      intro n hn
      rcases (hvis n).mp hn with rfl | hn
      · exact hnode
      · exact hs.nodes n hn }
  exact {
    start := hs
    grown := {
      inv := hinv
      stack := rfl
      old := fun n hn => hcdn n (hne hn)
      new_fresh := by
        intro n hn
        have heq : n = v := List.mem_singleton.mp hn
        rw [heq, hself]
        exact ⟨hv, Nat.lt_succ_self _⟩
      done := by
        intro n
        rw [hdone]
        simp [nodesOf]
      nodup := by simp [nodesOf]
      cs_fresh := fun n hn => by simp [nodesOf] at hn
      reach := by
        intro n hn hnvis
        rcases (hvis n).mp hnvis with rfl | hnvis
        · exact .refl
        · exact absurd hn hnvis
      ordered := ordered_nil
      conn := by
        intro n hn
        have heq : n = v := List.mem_singleton.mp hn
        rw [heq]
        exact .refl
      num_le := by
        rw [(hpush v).1]
        exact Nat.le_succ _
      num := by
        rw [(hpush v).1]
        exact Nat.le_add_right _ _ }
    partition := rfl
    number := hself
    covered := fun n hn hzero hnvis => absurd hzero (((hvis n).mp hnvis).resolve_left hn)
    head_pos := by
      change 0 < (s.push v).num
      rw [(hpush v).1]
      exact Nat.succ_pos _
    head_le := (hpush v).1.le
    seen := fun _ hm => by simp at hm
    low := fun _ hn => by simp at hn
    back := fun hlt => absurd (hpush v).1 (Nat.ne_of_lt hlt)
    loop := fun _ => ⟨rfl, (hpush v).1, fun _ hm => by simp at hm⟩ }

theorem Framed.num_lt (h : Framed G s v partition f cs new ms) : s.num + 1 ≤ f.state.num := by
  have hmem : v ∈ f.state.stack := h.grown.mem_stack (List.mem_append_right new List.mem_cons_self)
  rw [← h.number]
  exact h.grown.inv.stack_le v hmem

theorem Framed.head_lt_max (h : Framed G s v partition f cs new ms) : f.head < UINT_MAX :=
  (h.head_le.trans h.num_lt).trans_lt h.grown.inv.num_lt

theorem Framed.old_of_lt (h : Framed G s v partition f cs new ms) {m : Node}
    (hm : m ∈ f.state.stack) (hlt : f.state.getCDN m < s.num + 1) :
    m ∈ s.stack ∧ s.getCDN m = f.state.getCDN m := by
  have hnot : m ∉ new ++ [v] := fun hmem => by
    have hfresh := (h.grown.new_fresh m hmem).2
    omega
  rw [h.grown.stack] at hm
  have hold := (List.mem_append.mp hm).resolve_left hnot
  exact ⟨hold, (h.grown.old m ((h.start.stack_iff m).mp hold).1).symm⟩

/-- A successor that is visited already, or of which `visit` returns `min`, gives way to the next
one. -/
theorem Framed.update (h : Framed G s v partition f cs new ms) {min : ℕ}
    {state : WTOState Node} {partition' : Partition Node}
    (hgrown : Grown G s state v (cs' ++ cs) (new' ++ (new ++ [v])))
    (hkept : ∀ n, f.state.getCDN n ≠ 0 → state.getCDN n = f.state.getCDN n)
    (hpartition : partition' = cs' ++ f.partition)
    (hcovered : ∀ n, f.state.getCDN n = 0 → state.getCDN n ≠ 0 →
      ∀ m ∈ G.succs n, state.getCDN m ≠ 0)
    (hmin : 0 < min)
    (hw : min ≤ state.getCDN w ∨ f.head < state.getCDN w)
    (hwback : min ≤ f.head → min ≤ state.getCDN w)
    (hlow : ∀ n ∈ new', ∀ m ∈ G.succs n, min ≤ state.getCDN m)
    (hback : min < s.num + 1 → min ≤ f.head → ∃ n, s.getCDN n = 0 ∧ state.getCDN n ≠ 0 ∧
      ∃ m ∈ G.succs n, m ∈ s.stack ∧ s.getCDN m = min)
    (hloop : f.head < min → f.loop = false → new' = []) :
    Framed G s v partition
      (if min ≤ f.head then ⟨state, partition', min, true⟩
        else ⟨state, partition', f.head, f.loop⟩) (cs' ++ cs) (new' ++ new) (w :: ms) := by
  have hvisited : ∀ {m : Node}, f.head ≤ f.state.getCDN m → f.head ≤ state.getCDN m := by
    intro m hm
    rw [hkept m (Nat.ne_of_gt (h.head_pos.trans_le hm))]
    exact hm
  have hgrown' : Grown G s state v (cs' ++ cs) (new' ++ new ++ [v]) := by
    rw [List.append_assoc]
    exact hgrown
  have hpartition' : partition' = cs' ++ cs ++ partition := by
    rw [hpartition, h.partition, List.append_assoc]
  have hnumber : state.getCDN v = s.num + 1 := by
    rw [hkept v (h.number ▸ Nat.succ_ne_zero _)]
    exact h.number
  have hall : ∀ n, n ≠ v → s.getCDN n = 0 → state.getCDN n ≠ 0 →
      ∀ m ∈ G.succs n, state.getCDN m ≠ 0 := by
    intro n hnv hn hvis m hm
    by_cases hzero : f.state.getCDN n = 0
    · exact hcovered n hzero hvis m hm
    · have hmvis := h.covered n hnv hn hzero m hm
      rw [hkept m hmvis]
      exact hmvis
  by_cases hle : min ≤ f.head
  · rw [if_pos hle]
    exact ⟨h.start, hgrown', hpartition', hnumber, hall, hmin, hle.trans h.head_le, fun m hm => by
        rcases List.mem_cons.mp hm with rfl | hm
        · exact hwback hle
        · exact hle.trans (hvisited (h.seen m hm)), fun n hn m hm => by
        rcases List.mem_append.mp hn with hn | hn
        · exact hlow n hn m hm
        · exact hle.trans (hvisited (h.low n hn m hm)), fun hlt => hback hlt hle,
      fun hfalse => by contradiction⟩
  · have hlt := Nat.lt_of_not_le hle
    rw [if_neg hle]
    have hwlt : f.head < state.getCDN w := hw.elim (fun hw => hlt.trans_le hw) id
    refine ⟨h.start, hgrown', hpartition', hnumber, hall, h.head_pos, h.head_le, fun m hm => ?_,
      fun n hn m hm => ?_, fun hlt => ?_, fun hfalse => ?_⟩
    · rcases List.mem_cons.mp hm with rfl | hm
      · exact Nat.le_of_lt hwlt
      · exact hvisited (h.seen m hm)
    · rcases List.mem_append.mp hn with hn | hn
      · exact (Nat.le_of_lt hlt).trans (hlow n hn m hm)
      · exact hvisited (h.low n hn m hm)
    · obtain ⟨n, hn, hvis, hm⟩ := h.back hlt
      exact ⟨n, hn, by rw [hkept n hvis]; exact hvis, hm⟩
    · obtain ⟨hnew, hhead, hseen⟩ := h.loop hfalse
      refine ⟨by rw [hloop hlt hfalse, hnew]; rfl, hhead, fun m hm => ?_⟩
      rcases List.mem_cons.mp hm with rfl | hm
      · exact hwlt
      · have hlater := hseen m hm
        change f.head < state.getCDN m
        rw [hkept m (Nat.ne_of_gt (h.head_pos.trans hlater))]
        exact hlater

theorem Framed.visited (h : Framed G s v partition f cs new ms) (hv : s.getCDN v = 0)
    (hw : w ∈ G.succs v) (hvis : f.state.getCDN w ≠ 0) :
    Framed G s v partition
      (if f.state.getCDN w ≤ f.head then ⟨f.state, f.partition, f.state.getCDN w, true⟩
        else ⟨f.state, f.partition, f.head, f.loop⟩) cs new (w :: ms) := by
  have hgrown : Grown G s f.state v ([] ++ cs) ([] ++ (new ++ [v])) := h.grown
  refine h.update hgrown (fun _ _ => rfl) rfl
    (fun n hn hnvis => absurd hn hnvis) (Nat.pos_of_ne_zero hvis) (.inl (le_refl _))
    (fun _ => le_refl _) (fun n hn => by simp at hn) (fun hlt hle => ?_) fun _ _ => rfl
  have hopen : ¬ Done f.state w := fun hdone => by
    have hmax := h.head_lt_max
    rw [Done] at hdone
    omega
  have hmem := (h.grown.inv.stack_iff w).mpr ⟨hvis, hopen⟩
  exact ⟨v, hv, h.number ▸ Nat.succ_ne_zero _, w, hw, h.old_of_lt hmem hlt⟩

theorem Framed.child (h : Framed G s v partition f cs new ms) (hw : w ∈ G.succs v)
    (hwhite : f.state.getCDN w = 0) {head : ℕ} (hresult : Result G f.state s' w head cs' new') :
    Framed G s v partition
      (if head ≤ f.head then ⟨s', cs' ++ f.partition, head, true⟩
        else ⟨s', cs' ++ f.partition, f.head, f.loop⟩) (cs' ++ cs) (new' ++ new) (w :: ms) := by
  have hmem : new' ≠ [] → w ∈ new' := fun hne => (hresult.back hne).2.1
  have hgrown := h.grown.child hresult.grown hw hwhite hmem
  have hnum := h.num_lt
  have hheadle := h.head_le
  have hmax := h.grown.inv.num_lt
  -- a number that is not above those in use is that of an open node
  have hopen : head ≤ f.state.num → new' ≠ [] := fun hle hnil => by
    have hlt := hresult.closed hnil
    omega
  have hwlt : f.head < s'.getCDN w := by
    rcases hresult.grown.new_or_done h.grown.inv hwhite hresult.visited with hnew | hdone
    · have hlt := (hresult.grown.new_fresh w hnew).2
      omega
    · have hwdone : Done s' w := (hresult.grown.done w).mpr (.inr hdone)
      rw [Done] at hwdone
      omega
  have hpos : 0 < head := by
    by_cases hnil : new' = []
    · have hlt := hresult.closed hnil
      omega
    · exact (hresult.back hnil).1
  refine h.update hgrown hresult.grown.old rfl hresult.covered hpos (.inr hwlt) (fun hle => by omega)
    hresult.low (fun hlt hle => ?_) fun hlt hfalse => ?_
  · obtain ⟨-, -, n, hn, hvis, m, hm, hstack, hnumber⟩ := hresult.back (hopen (by omega))
    obtain ⟨hold, hsame⟩ := h.old_of_lt hstack (by omega)
    exact ⟨n, h.grown.white hn, hvis, m, hm, hold, hsame.trans hnumber⟩
  · by_contra hne
    obtain ⟨hnil, hhead, -⟩ := h.loop hfalse
    obtain ⟨-, -, -, -, -, m, -, hstack, hnumber⟩ := hresult.back hne
    -- all numbers in use are at most that of `v`
    have hle : f.state.getCDN m ≤ s.num + 1 := by
      rw [h.grown.stack, hnil, List.nil_append, List.singleton_append] at hstack
      rcases List.mem_cons.mp hstack with rfl | hstack
      · exact h.number.le
      · have hold := h.start.stack_le m hstack
        rw [h.grown.old m ((h.start.stack_iff m).mp hstack).1]
        omega
    omega

end SVF.Graphs.WTOVisit
