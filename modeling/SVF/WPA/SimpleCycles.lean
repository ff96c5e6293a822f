import Mathlib.Data.Finset.Max
import SVF.WPA.CycleStrides

namespace SVF.WPA.SimpleCycles

open Relation Graphs.ConsG CycleStrides
open Graphs.SCC (Graph SCCDetection Reach Mutual)
open Graphs.SCCRuns (Found)
open Util.NodeIDs (UINT_MAX)

variable {edges : ConstraintEdgeSetTy} {scc : SCCDetection} {l : List NodeID} {s s' : CSC}
  {es es' : List ConstraintEdge} {x y z r : NodeID}

def Walk (edges : ConstraintEdgeSetTy) : NodeID → List ConstraintEdge → NodeID → Prop
  | x, [], y => x = y
  | x, e :: es, y => e ∈ edges ∧ e.src = x ∧ Walk edges e.dst es y

structure SimpleCycle (edges : ConstraintEdgeSetTy) (x : NodeID) (es : List ConstraintEdge) : Prop where
  walk : Walk edges x es x
  nonempty : es ≠ []
  nodup : (es.map (·.src)).Nodup

def total (es : List ConstraintEdge) : ℤ := (es.map constantFieldIdx).sum

theorem walk_append : Walk edges x (es ++ es') z ↔ ∃ y, Walk edges x es y ∧ Walk edges y es' z := by
  induction es generalizing x with
  | nil => exact ⟨fun h => ⟨x, rfl, h⟩, fun ⟨y, hxy, h⟩ => hxy ▸ h⟩
  | cons e es ih =>
      constructor
      · rintro ⟨he, hsrc, hrest⟩
        obtain ⟨y, hes, hes'⟩ := ih.mp hrest
        exact ⟨y, ⟨he, hsrc, hes⟩, hes'⟩
      · rintro ⟨y, ⟨he, hsrc, hes⟩, hes'⟩
        exact ⟨he, hsrc, ih.mpr ⟨y, hes, hes'⟩⟩

theorem Walk.mem (h : Walk edges x es y) : ∀ e ∈ es, e ∈ edges := by
  induction es generalizing x with
  | nil => exact fun e he => absurd he List.not_mem_nil
  | cons e es ih =>
      intro e' he'
      rcases List.mem_cons.mp he' with rfl | he'
      · exact h.1
      · exact ih h.2.2 e' he'

theorem total_append : total (es ++ es') = total es + total es' := by
  rw [total, List.map_append, List.sum_append]
  rfl

theorem SimpleCycle.rotate (h : SimpleCycle edges x (es ++ es')) (hes' : es' ≠ []) :
    ∃ y, SimpleCycle edges y (es' ++ es) := by
  obtain ⟨y, hes, hrest⟩ := walk_append.mp h.walk
  refine ⟨y, walk_append.mpr ⟨x, hrest, hes⟩, List.append_ne_nil_of_left_ne_nil hes' es, ?_⟩
  have hnodup := h.nodup
  rw [List.map_append] at hnodup ⊢
  exact List.perm_append_comm.nodup_iff.mp hnodup

theorem SimpleCycle.src_eq (h : SimpleCycle edges x es) : ∃ e es', es = e :: es' ∧ e.src = x := by
  cases es with
  | nil => exact absurd rfl h.nonempty
  | cons e es => exact ⟨e, es, rfl, h.walk.2.1⟩

section

variable (h : Layout edges scc l)

include h

omit h in
theorem idxOf_ne {a b : NodeID} (ha : a ∈ l) (hne : a ≠ b) : l.idxOf a ≠ l.idxOf b := fun heq =>
  hne ((List.idxOf_inj ha).mp heq)

theorem walk_up {e : ConstraintEdge} {j : ℕ} (hwalk : Walk edges x (e :: es) y)
    (hsrc : ∀ e' ∈ e :: es, e'.src ∈ l) (hx : l.idxOf x = j) (hge : ∀ e' ∈ e :: es, j ≤ l.idxOf e'.src)
    (hnodup : ((e :: es).map (·.src)).Nodup) :
    ∃ init last, e :: es = init ++ [last] ∧ (∀ e' ∈ init, l.idxOf e'.dst = l.idxOf e'.src + 1) ∧
      ∀ e' ∈ e :: es, l.idxOf e'.src ≤ l.idxOf last.src := by
  induction es generalizing x e j with
  | nil => exact ⟨[], e, rfl, fun _ he => absurd he List.not_mem_nil, fun e' he' => by
      rw [List.mem_singleton.mp he']⟩
  | cons e₂ es ih =>
      obtain ⟨he, hex, he₂, he₂x, hrest⟩ := hwalk
      rw [List.map_cons, List.nodup_cons] at hnodup
      have hfirst : l.idxOf e.src = j := by rw [hex, hx]
      have hne : ∀ e' ∈ e₂ :: es, l.idxOf e'.src ≠ j := by
        intro e' he' heq
        refine idxOf_ne (hsrc e' (List.mem_cons_of_mem e he')) (fun hsame => hnodup.1 ?_)
          (heq.trans hfirst.symm)
        rw [← hsame]
        exact List.mem_map_of_mem he'
      have habove : ∀ e' ∈ e₂ :: es, j + 1 ≤ l.idxOf e'.src := fun e' he' =>
        Nat.lt_of_le_of_ne (hge e' (List.mem_cons_of_mem e he')) (hne e' he').symm
      have hdst : e.dst ∈ l := he₂x ▸ hsrc e₂ (by simp)
      have hup : l.idxOf e.dst = j + 1 := by
        have hle := h.back e he (hsrc e List.mem_cons_self) hdst
        have hlt := habove e₂ List.mem_cons_self
        rw [he₂x] at hlt
        omega
      obtain ⟨init, last, hsplit, hinit, hlast⟩ := ih ⟨he₂, he₂x, hrest⟩
        (fun e' he' => hsrc e' (List.mem_cons_of_mem e he')) hup habove hnodup.2
      refine ⟨e :: init, last, by rw [hsplit]; rfl, fun e' he' => ?_, fun e' he' => ?_⟩
      · rcases List.mem_cons.mp he' with rfl | he'
        · rw [hup, hfirst]
        · exact hinit e' he'
      · rcases List.mem_cons.mp he' with rfl | he'
        · have hlt := habove e₂ List.mem_cons_self
          have hle := hlast e₂ List.mem_cons_self
          omega
        · exact hlast e' he'

variable (hresult : Result edges l l s s')

include hresult

omit h in
/-- Along the component the values of `D` differ by the offsets. -/
theorem D_walk (hwalk : Walk edges x es y) (hin : ∀ e ∈ es, e.src ∈ l) (hy : y ∈ l)
    (hup : ∀ e ∈ es, l.idxOf e.dst = l.idxOf e.src + 1) :
    s'.D y ≡ s'.D x + total es [ZMOD 2 ^ 32] := by
  induction es generalizing x with
  | nil =>
      rw [show x = y from hwalk, total]
      simp [Int.ModEq.refl]
  | cons e es ih =>
      obtain ⟨he, hsrc, hrest⟩ := hwalk
      have hdst : e.dst ∈ l := by
        cases es with
        | nil => rw [show e.dst = y from hrest]; exact hy
        | cons e₂ es => rw [← hrest.2.1]; exact hin e₂ (by simp)
      have hstep := hresult.path e he (hin e List.mem_cons_self) hdst (hup e List.mem_cons_self)
      have hrec := ih hrest (fun e' he' => hin e' (List.mem_cons_of_mem e he'))
        (fun e' he' => hup e' (List.mem_cons_of_mem e he'))
      have htotal : total (e :: es) = constantFieldIdx e + total es := rfl
      rw [hstep, hsrc] at hrec
      rw [htotal, ← add_assoc]
      exact hrec.trans ((u32_modEq _).add_right _)

/-- The length of every cycle in the component is recorded at its nodes. -/
theorem total_recorded (hcycle : SimpleCycle edges x es) (hin : ∀ e ∈ es, e.src ∈ l)
    (hpos : 0 < total es) (hlt : total es < 2 ^ 32) :
    ∀ e ∈ es, (total es).toNat ∈ s'.strides e.src := by
  -- enter the cycle at its first node
  obtain ⟨e₀, he₀, hmin⟩ := Finset.exists_min_image es.toFinset (fun e => l.idxOf e.src)
    (List.toFinset_nonempty_iff es |>.mpr hcycle.nonempty)
  rw [List.mem_toFinset] at he₀
  obtain ⟨pre, post, hes⟩ := List.append_of_mem he₀
  have hmem : ∀ e, e ∈ e₀ :: (post ++ pre) ↔ e ∈ es := by
    intro e
    rw [hes]
    simp only [List.mem_cons, List.mem_append]
    tauto
  rw [hes] at hcycle
  obtain ⟨y, hrot⟩ := hcycle.rotate (List.cons_ne_nil e₀ post)
  have hsrc : ∀ e ∈ e₀ :: (post ++ pre), e.src ∈ l := fun e he => hin e ((hmem e).mp he)
  have hy : e₀.src = y := hrot.walk.2.1
  obtain ⟨init, last, hsplit, hup, hle⟩ := walk_up h hrot.walk hsrc (congrArg l.idxOf hy.symm)
    (fun e he => hmin e (List.mem_toFinset.mpr ((hmem e).mp he))) hrot.nodup
  change e₀ :: (post ++ pre) = init ++ [last] at hsplit
  have hwalk := hrot.walk
  have htotal : total es = total init + constantFieldIdx last := by
    have hlast : total [last] = constantFieldIdx last := add_zero _
    rw [← hlast, ← total_append, ← hsplit, hes, total_append, add_comm, ← total_append]
    rfl
  change Walk edges y (e₀ :: (post ++ pre)) y at hwalk
  rw [hsplit, walk_append] at hwalk
  obtain ⟨z, hinit, hlast, hlastsrc, hlastdst⟩ := hwalk
  have hlastmem : last ∈ e₀ :: (post ++ pre) := by
    rw [hsplit]
    simp
  have hz : last.src ∈ l := hsrc last hlastmem
  have hyl : last.dst ∈ l := by
    rw [show last.dst = y from hlastdst, ← hy]
    exact hin e₀ he₀
  have hD := D_walk hresult hinit (fun e he => hsrc e (hsplit ▸ List.mem_append_left _ he))
    (hlastsrc ▸ hz) hup
  have hvalue : u32 (s'.D last.src + constantFieldIdx last - s'.D last.dst) = total es := by
    have hmod : s'.D last.src + constantFieldIdx last - s'.D last.dst ≡ total es [ZMOD 2 ^ 32] := by
      rw [hlastsrc, show last.dst = y from hlastdst, htotal]
      have hstep := (hD.add_right (constantFieldIdx last)).sub_right (s'.D y)
      rwa [show s'.D y + total init + constantFieldIdx last - s'.D y =
        total init + constantFieldIdx last by omega] at hstep
    rw [u32_congr hmod]
    exact Int.emod_eq_of_lt hpos.le hlt
  intro e he
  have hfirst : l.idxOf last.dst ≤ l.idxOf e.src := by
    rw [show last.dst = y from hlastdst, ← hy]
    exact hmin e (List.mem_toFinset.mpr he)
  have hrec := hresult.recorded last (Walk.mem hrot.walk last hlastmem) hz hyl
    (hfirst.trans (hle e ((hmem e).mpr he))) e.src (hin e he) hfirst (hle e ((hmem e).mpr he))
  rw [hvalue] at hrec
  exact hrec

end

def directGraph (edges : ConstraintEdgeSetTy) (nodes : List NodeID) (hlt : ∀ n ∈ nodes, n < UINT_MAX)
    (hedges : ∀ e ∈ edges, e.src ∈ nodes ∧ e.dst ∈ nodes) : Graph where
  nodes := nodes
  succs n := (directOutEdges edges n).map (·.dst)
  lt_of_mem := hlt
  closed := by
    intro n _ m hm
    obtain ⟨e, he, rfl⟩ := List.mem_map.mp hm
    exact (hedges e (mem_directOutEdges.mp he).1).2

/-- Each component with an edge has more than one node, and can be laid out from its
representative on. -/
def Arranged (edges : ConstraintEdgeSetTy) (scc : SCCDetection) : Prop :=
  ∀ e ∈ edges, scc.repNode e.src = scc.repNode e.dst →
    ∃ l, l ≠ [] ∧ Layout edges scc (scc.repNode e.src :: l)

/-- The strides of the nodes of a component have the lengths of its cycles. -/
def Recorded (edges : ConstraintEdgeSetTy) (scc : SCCDetection) (r : NodeID) (s : CSC) : Prop :=
  ∀ x es, SimpleCycle edges x es → scc.repNode x = r → 0 < total es → total es < 2 ^ 32 →
    ∀ e ∈ es, (total es).toNat ∈ s.strides e.src

section

variable {nodes : List NodeID} {hlt : ∀ n ∈ nodes, n < UINT_MAX}
  {hedges : ∀ e ∈ edges, e.src ∈ nodes ∧ e.dst ∈ nodes}
  (hfound : Found (directGraph edges nodes hlt hedges) scc)

theorem reach_edge {e : ConstraintEdge} (he : e ∈ edges) :
    Reach (directGraph edges nodes hlt hedges) e.src e.dst :=
  .single (List.mem_map.mpr ⟨e, mem_directOutEdges.mpr ⟨he, rfl⟩, rfl⟩)

theorem Walk.reach (h : Walk edges x es y) : Reach (directGraph edges nodes hlt hedges) x y := by
  induction es generalizing x with
  | nil =>
      rw [show x = y from h]
      exact .refl
  | cons e es ih =>
      obtain ⟨he, rfl, hrest⟩ := h
      exact (reach_edge he).trans (ih hrest)

theorem SimpleCycle.mutual (h : SimpleCycle edges x es) {e : ConstraintEdge} (he : e ∈ es) :
    Mutual (directGraph edges nodes hlt hedges) x e.src := by
  obtain ⟨pre, post, rfl⟩ := List.append_of_mem he
  obtain ⟨y, hpre, hpost⟩ := walk_append.mp h.walk
  rw [hpost.2.1]
  exact ⟨hpre.reach, Walk.reach hpost⟩

include hfound

theorem Layout.mem_of_mutual (h : Layout edges scc l) (hr : r ∈ l) (hnode : r ∈ nodes)
    (hx : Mutual (directGraph edges nodes hlt hedges) r x) : x ∈ l := by
  have hwalk : ∀ n, Reach (directGraph edges nodes hlt hedges) n x → n ∈ nodes →
      Reach (directGraph edges nodes hlt hedges) r n → n ∈ l → x ∈ l := by
    intro n hn
    induction hn using ReflTransGen.head_induction_on with
    | refl => exact fun _ _ hmem => hmem
    | head hstep hrest ih =>
        intro hnode' hrn hmem
        obtain ⟨e, he, rfl⟩ := List.mem_map.mp hstep
        obtain ⟨he, hsrc⟩ := mem_directOutEdges.mp he
        have hedge : Reach (directGraph edges nodes hlt hedges) e.src e.dst := reach_edge he
        rw [← hsrc] at hrn hmem
        have hmutual : Mutual (directGraph edges nodes hlt hedges) e.src e.dst :=
          ⟨hedge, hrest.trans (hx.2.trans hrn)⟩
        have hrep := (hfound.repNode_eq_iff (hedges e he).1 (hedges e he).2).mpr hmutual
        exact ih (hedges e he).2 (hrn.trans hedge) ((h.component e he hmem).mp hrep)
  exact hwalk r hx.1 hnode .refl hr

omit hfound in
theorem Layout.mem_nodes (h : Layout edges scc (r :: l)) (hr : r ∈ nodes)
    (hedges : ∀ e ∈ edges, e.src ∈ nodes ∧ e.dst ∈ nodes) : ∀ n ∈ r :: l, n ∈ nodes := by
  intro n hn
  obtain ⟨pre, post, hsplit⟩ := List.append_of_mem hn
  rcases List.eq_nil_or_concat pre with rfl | ⟨pre, a, rfl⟩
  · rw [List.nil_append, List.cons.injEq] at hsplit
    exact hsplit.1 ▸ hr
  · obtain ⟨e, he, -, hdst⟩ := h.next pre a n post (by rw [hsplit]; simp)
    exact hdst ▸ (hedges e he).2

omit hfound in
theorem Layout.repNode_eq (h : Layout edges scc (r :: l)) {n : NodeID} (hn : n ∈ r :: l) :
    scc.repNode n = scc.repNode r := by
  obtain ⟨pre, post, hsplit⟩ := List.append_of_mem hn
  induction pre using List.reverseRecOn generalizing n post with
  | nil =>
      rw [List.nil_append, List.cons.injEq] at hsplit
      rw [hsplit.1]
  | append_singleton pre a ih =>
      have hnext : r :: l = pre ++ a :: n :: post := by rw [hsplit]; simp
      obtain ⟨e, he, hsrc, hdst⟩ := h.next pre a n post hnext
      have ha : a ∈ r :: l := by rw [hnext]; simp
      rw [← ih ha (n :: post) hnext, ← hsrc, ← hdst]
      exact ((h.component e he (hsrc ▸ ha)).mpr (hdst ▸ hn)).symm

omit hfound in
theorem Recorded.mono (h : Recorded edges scc r s) (hstrides : ∀ n, ∀ x ∈ s.strides n, x ∈ s'.strides n) :
    Recorded edges scc r s' := fun x es hcycle hx hpos hlt e he =>
  hstrides e.src _ (h x es hcycle hx hpos hlt e he)

structure Finding (edges : ConstraintEdgeSetTy) (scc : SCCDetection) (nodes reps : List NodeID)
    (s : CSC) : Prop where
  S : s.S = []
  visited : ∀ n ∈ nodes, s.visited n = true → scc.repNode n ∈ reps
  recorded : ∀ r ∈ reps, Recorded edges scc r s

theorem Finding.step {reps : List NodeID} {fuel : ℕ} (hdirect : Direct edges)
    (harranged : Arranged edges scc) (hfuel : nodes.length ≤ fuel) (hr : r ∈ scc.T) (hnew : r ∉ reps)
    (h : Finding edges scc nodes reps s) :
    Finding edges scc nodes (r :: reps) (CSC.findNode edges scc fuel s r) := by
  obtain ⟨hnode, hrep⟩ := (hfound.mem_topo r).mp hr
  have hcomponent := (hfound.subNodes_iff hnode).2.2
  rw [hrep] at hcomponent
  have hself : r ∈ scc.subNodes r := (hcomponent r).mpr ⟨.refl, .refl⟩
  have hunvisited : ∀ {n : NodeID}, n ∈ nodes → scc.repNode n = r → s.visited n = false := by
    intro n hn heq
    rw [← Bool.not_eq_true]
    exact fun hvis => hnew (heq ▸ h.visited n hn hvis)
  -- an edge inside the component gives its layout, and the component has more than one node
  have hlayout : ∀ e ∈ edges, scc.repNode e.src = r → scc.repNode e.dst = r →
      ∃ l, l ≠ [] ∧ Layout edges scc (r :: l) := by
    intro e he hsrc hdst
    obtain ⟨l, hne, hl⟩ := harranged e he (hsrc.trans hdst.symm)
    rw [hsrc] at hl
    exact ⟨l, hne, hl⟩
  have hcard : ∀ l, l ≠ [] → Layout edges scc (r :: l) → 1 < (scc.subNodes r).card := by
    intro l hne hl
    obtain ⟨b, post, rfl⟩ := List.exists_cons_of_ne_nil hne
    have hb : b ∈ r :: b :: post := by simp
    have hmutual : Mutual (directGraph edges nodes hlt hedges) r b :=
      (hfound.repNode_eq_iff hnode (Layout.mem_nodes hl hnode hedges b hb)).mp
        (Layout.repNode_eq hl hb).symm
    have hne' : r ≠ b := fun heq => (List.nodup_cons.mp hl.nodup).1 (heq ▸ List.mem_cons_self)
    exact Finset.one_lt_card.mpr ⟨r, hself, b, (hcomponent b).mpr hmutual, hne'⟩
  rw [CSC.findNode]
  by_cases hmore : 1 < (scc.subNodes r).card
  · rw [if_pos ⟨hmore, hunvisited hnode hrep⟩]
    obtain ⟨a, ha, b, hb, hab⟩ := Finset.one_lt_card.mp hmore
    have hother : ∃ b, b ≠ r ∧ Mutual (directGraph edges nodes hlt hedges) r b := by
      by_cases har : a = r
      · exact ⟨b, fun hbr => hab (har.trans hbr.symm), (hcomponent b).mp hb⟩
      · exact ⟨a, har, (hcomponent a).mp ha⟩
    obtain ⟨b, hbr, hrb, hbr'⟩ := hother
    obtain ⟨l, -, hl⟩ : ∃ l, l ≠ [] ∧ Layout edges scc (r :: l) := by
      rcases hrb.cases_head with heq | ⟨m, hstep, hrest⟩
      · exact absurd heq.symm hbr
      · obtain ⟨e, he, rfl⟩ := List.mem_map.mp hstep
        obtain ⟨hedge, rfl⟩ := mem_directOutEdges.mp he
        have hmutual : Mutual (directGraph edges nodes hlt hedges) e.src e.dst :=
          ⟨reach_edge hedge, hrest.trans hbr'⟩
        exact hlayout e hedge hrep (((hfound.repNode_eq_iff (hedges e hedge).1 (hedges e hedge).2).mpr
          hmutual).symm.trans hrep)
    have hin := Layout.mem_nodes hl hnode hedges
    have hlen : (r :: l).length ≤ fuel := by
      have hsub : (r :: l).toFinset ⊆ nodes.toFinset := fun n hn =>
        List.mem_toFinset.mpr (hin n (List.mem_toFinset.mp hn))
      rw [← List.toFinset_card_of_nodup hl.nodup]
      exact (Finset.card_le_card hsub).trans ((List.toFinset_card_le nodes).trans hfuel)
    obtain ⟨hresult, -⟩ := visit_result hdirect hl fuel [] r l s 0 rfl hlen h.S
      (fun _ hn => absurd hn List.not_mem_nil)
      (fun n hn => hunvisited (hin n hn) ((Layout.repNode_eq hl hn).trans hrep))
    refine ⟨hresult.S.trans h.S, fun n hn hvis => ?_, fun r' hr' => ?_⟩
    · rcases (hresult.visited n).mp hvis with hold | hmem
      · exact List.mem_cons_of_mem r (h.visited n hn hold)
      · rw [Layout.repNode_eq hl hmem, hrep]
        exact List.mem_cons_self
    · rcases List.mem_cons.mp hr' with rfl | hr'
      · intro x es hcycle hx hpos hlt'
        obtain ⟨e, es', rfl, hsrc⟩ := hcycle.src_eq
        have hxnode : x ∈ nodes := hsrc ▸ (hedges e hcycle.walk.1).1
        have hrx := (hfound.repNode_eq_iff hnode hxnode).mp (hrep.trans hx.symm)
        refine total_recorded hl hresult hcycle (fun e' he' => ?_) hpos hlt'
        have hxe : Mutual (directGraph edges nodes hlt hedges) x e'.src := hcycle.mutual he'
        exact Layout.mem_of_mutual hfound hl List.mem_cons_self hnode
          ⟨hrx.1.trans hxe.1, hxe.2.trans hrx.2⟩
      · exact (h.recorded r' hr').mono hresult.strides
  · rw [if_neg fun hboth => hmore hboth.1]
    refine ⟨h.S, fun n hn hvis => List.mem_cons_of_mem r (h.visited n hn hvis), fun r' hr' => ?_⟩
    rcases List.mem_cons.mp hr' with rfl | hr'
    · intro x es hcycle hx _ _ _ _
      obtain ⟨e, es', rfl, rfl⟩ := hcycle.src_eq
      have he := hcycle.walk.1
      have hdst : Mutual (directGraph edges nodes hlt hedges) e.src e.dst :=
        ⟨reach_edge he, Walk.reach hcycle.walk.2.2⟩
      obtain ⟨l, hne, hl⟩ := hlayout e he hx (((hfound.repNode_eq_iff (hedges e he).1
        (hedges e he).2).mpr hdst).symm.trans hx)
      exact absurd (hcard l hne hl) hmore
    · exact h.recorded r' hr'

theorem find_recorded {fuel : ℕ} (hdirect : Direct edges) (harranged : Arranged edges scc)
    (hfuel : nodes.length ≤ fuel) (hS : s.S = []) (hvisited : ∀ n ∈ nodes, s.visited n = false) :
    ∀ r ∈ scc.T, Recorded edges scc r (CSC.find edges scc fuel s) := by
  have hloop : ∀ (T reps : List NodeID) (s : CSC), T.Nodup → (∀ r ∈ T, r ∈ scc.T ∧ r ∉ reps) →
      Finding edges scc nodes reps s → ∃ reps', (∀ r, r ∈ T ∨ r ∈ reps → r ∈ reps') ∧
        Finding edges scc nodes reps' (T.foldl (CSC.findNode edges scc fuel) s) := by
    intro T
    induction T with
    | nil => exact fun reps s _ _ h => ⟨reps, fun r hr => hr.resolve_left List.not_mem_nil, h⟩
    | cons r T ih =>
        intro reps s hnodup hT h
        obtain ⟨hrT, hrnew⟩ := hT r List.mem_cons_self
        obtain ⟨hnot, hnodup⟩ := List.nodup_cons.mp hnodup
        obtain ⟨reps', hreps, h'⟩ := ih (r :: reps) _ hnodup (fun r' hr' =>
          ⟨(hT r' (List.mem_cons_of_mem r hr')).1, fun hmem => (List.mem_cons.mp hmem).elim
            (fun heq => hnot (heq ▸ hr')) (hT r' (List.mem_cons_of_mem r hr')).2⟩)
          (h.step hfound hdirect harranged hfuel hrT hrnew)
        refine ⟨reps', fun r' hr' => hreps r' ?_, h'⟩
        rw [List.mem_cons] at hr' ⊢
        tauto
  have hstart : Finding edges scc nodes [] s.clear :=
    ⟨hS, fun n hn hvis => by
      rw [show s.clear.visited n = s.visited n from rfl, hvisited n hn] at hvis
      contradiction, fun r hr => absurd hr List.not_mem_nil⟩
  obtain ⟨reps, hreps, h⟩ := hloop scc.T [] s.clear hfound.inv.topo_nodup
    (fun r hr => ⟨hr, List.not_mem_nil⟩) hstart
  exact fun r hr => h.recorded r (hreps r (.inl hr))

end

end SVF.WPA.SimpleCycles
