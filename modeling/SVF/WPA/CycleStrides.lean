import Mathlib.Data.Int.ModEq
import SVF.Graphs.Registration
import SVF.Graphs.SCCRuns
import SVF.MemoryModel.PointsToSets

namespace SVF.WPA.CycleStrides

open Graphs.ConsG
open Graphs.SCC (SCCDetection)
open Graphs.Registration (holds edgeKey_inj)
open MemoryModel.PointsToSets (PointsTo)

def u32 (x : ℤ) : ℤ := x % 2 ^ 32

section

variable (edges : ConstraintEdgeSetTy)

def directOutEdges (n : NodeID) : List ConstraintEdge := edges.elems.filter fun e => e.src = n

def hasEdge (src dst : NodeID) (kind : ConstraintEdgeK) : Bool := edges.contains (edgeKey kind src dst)

def getEdge (src dst : NodeID) (kind : ConstraintEdgeK) : Option ConstraintEdge :=
  edges.elems.find? fun e => e.key = edgeKey kind src dst

end

def constantFieldIdx (e : ConstraintEdge) : APOffset :=
  match e.cls with
  | .NormalGepCGEdge ap => ap.fldIdx
  | _ => 0

structure CSC where
  I : ℤ
  D : NodeID → ℤ
  S : List NodeID
  visited : NodeID → Bool
  strides : NodeID → PointsTo

namespace CSC

variable (edges : ConstraintEdgeSetTy) (scc : SCCDetection)

def new : CSC := ⟨0, fun _ => 0, [], fun _ => false, fun _ => ∅⟩

def clear (s : CSC) : CSC := { s with I := 0, D := fun _ => 0 }

def enter (s : CSC) (nodeId : NodeID) (w : ℤ) : CSC :=
  { s with
    visited := Function.update s.visited nodeId true
    I := u32 (s.I + w)
    D := Function.update s.D nodeId (u32 (s.I + w))
    S := nodeId :: s.S }

def setStride (strides : NodeID → PointsTo) (ns : List NodeID) (l : ℤ) (n : NodeID) : PointsTo :=
  if n ∈ ns then (strides n).set (u32 l).toNat else strides n

def backEdge (D : NodeID → ℤ) (node : NodeID) : (NodeID → PointsTo) × List NodeID → NodeID →
    (NodeID → PointsTo) × List NodeID
  | (strides, C), backNode =>
      match getEdge edges node backNode .NormalGep with
      | some e =>
          (setStride strides (backNode :: C) (D node + constantFieldIdx e - D backNode), backNode :: C)
      | none =>
          if hasEdge edges node backNode .VariantGep || hasEdge edges node backNode .Copy then
            (setStride strides (backNode :: C) (D node - D backNode), backNode :: C)
          else (strides, backNode :: C)

def leave (s : CSC) (nodeId : NodeID) : CSC :=
  { s with
    strides := (s.S.foldl (backEdge edges s.D nodeId) (s.strides, [])).1
    S := s.S.tail }

def visitChild (visit : CSC → NodeID → ℤ → CSC) (nodeId : NodeID) (s : CSC) (e : ConstraintEdge) : CSC :=
  if scc.repNode nodeId = scc.repNode e.dst ∧ s.visited e.dst = false then
    visit s e.dst (constantFieldIdx e)
  else s

def visit : ℕ → CSC → NodeID → ℤ → CSC
  | 0, s, _, _ => s
  | fuel + 1, s, nodeId, w =>
      leave edges ((directOutEdges edges nodeId).foldl (visitChild scc (visit fuel) nodeId)
        (s.enter nodeId w)) nodeId

def findNode (fuel : ℕ) (s : CSC) (nId : NodeID) : CSC :=
  if 1 < (scc.subNodes nId).card ∧ s.visited nId = false then visit edges scc fuel s nId 0 else s

def find (fuel : ℕ) (s : CSC) : CSC := scc.T.foldl (findNode edges scc fuel) s.clear

end CSC

def Direct (edges : ConstraintEdgeSetTy) : Prop := ∀ e ∈ edges, holds .direct e.cls.getEdgeKind = true

/-- The nodes of a component in an order in which each has an edge to the next and edges to itself
and to nodes before it, but not more than one to the same node. -/
structure Layout (edges : ConstraintEdgeSetTy) (scc : SCCDetection) (l : List NodeID) : Prop where
  nodup : l.Nodup
  component : ∀ e ∈ edges, e.src ∈ l → (scc.repNode e.src = scc.repNode e.dst ↔ e.dst ∈ l)
  next : ∀ pre a b post, l = pre ++ a :: b :: post → ∃ e ∈ edges, e.src = a ∧ e.dst = b
  back : ∀ e ∈ edges, e.src ∈ l → e.dst ∈ l → l.idxOf e.dst ≤ l.idxOf e.src + 1
  single : ∀ e ∈ edges, ∀ e' ∈ edges, e.src ∈ l → e.dst ∈ l → e.src = e'.src → e.dst = e'.dst → e = e'

variable {edges : ConstraintEdgeSetTy} {scc : SCCDetection} {l pre post : List NodeID} {s : CSC}
  {v : NodeID}

theorem mem_directOutEdges {n : NodeID} {e : ConstraintEdge} :
    e ∈ directOutEdges edges n ↔ e ∈ edges ∧ e.src = n := by
  rw [directOutEdges, List.mem_filter, decide_eq_true_iff]
  exact Iff.rfl

theorem u32_emod (x : ℤ) : u32 x % 2 ^ 32 = x % 2 ^ 32 := Int.emod_emod_of_dvd x dvd_rfl

theorem u32_congr {x y : ℤ} (h : x ≡ y [ZMOD 2 ^ 32]) : u32 x = u32 y := h

theorem u32_modEq (x : ℤ) : u32 x ≡ x [ZMOD 2 ^ 32] := u32_emod x

theorem getEdge_some {src dst : NodeID} {kind : ConstraintEdgeK} {e : ConstraintEdge}
    (h : getEdge edges src dst kind = some e) : e ∈ edges ∧ e.src = src ∧ e.dst = dst ∧
      e.cls.getEdgeKind = kind := by
  have hkey := List.find?_some h
  rw [decide_eq_true_iff, ConstraintEdge.key] at hkey
  obtain ⟨hkind, hsrc, hdst⟩ := edgeKey_inj hkey
  exact ⟨List.mem_of_find?_eq_some h, hsrc, hdst, hkind⟩

theorem getEdge_none {src dst : NodeID} {kind : ConstraintEdgeK} (h : getEdge edges src dst kind = none)
    {e : ConstraintEdge} (he : e ∈ edges) (hsrc : e.src = src) (hdst : e.dst = dst) :
    e.cls.getEdgeKind ≠ kind := by
  intro hkind
  have hkey := List.find?_eq_none.mp h e he
  rw [decide_eq_true_iff, ConstraintEdge.key, hkind, hsrc, hdst] at hkey
  exact hkey rfl

theorem hasEdge_of_mem {e : ConstraintEdge} (he : e ∈ edges) :
    hasEdge edges e.src e.dst e.cls.getEdgeKind = true := by
  rw [hasEdge, Util.OrderedSets.contains_iff]
  exact ⟨e, he, rfl⟩

section

variable {strides : NodeID → PointsTo} {C S : List NodeID} {D : NodeID → ℤ} {n b : NodeID} {x : ℕ}

theorem mem_setStride {ns : List NodeID} {w : ℤ} :
    x ∈ CSC.setStride strides ns w n ↔ x ∈ strides n ∨ (n ∈ ns ∧ x = (u32 w).toNat) := by
  rw [CSC.setStride]
  split
  · rename_i hn
    rw [MemoryModel.PointsToSets.mem_set]
    simp [hn]
  · rename_i hn
    exact (or_iff_left fun h => hn h.1).symm

theorem backEdge_snd (p : (NodeID → PointsTo) × List NodeID) :
    (CSC.backEdge edges D v p b).2 = b :: p.2 := by
  rw [CSC.backEdge]
  split
  · rfl
  · split
    · rfl
    · rfl

theorem backEdge_strides (p : (NodeID → PointsTo) × List NodeID) :
    (∀ n, ∀ x ∈ p.1 n, x ∈ (CSC.backEdge edges D v p b).1 n) ∧
      ∀ n, n ∉ b :: p.2 → (CSC.backEdge edges D v p b).1 n = p.1 n := by
  have hset : ∀ w, (∀ n, ∀ x ∈ p.1 n, x ∈ CSC.setStride p.1 (b :: p.2) w n) ∧
      ∀ n, n ∉ b :: p.2 → CSC.setStride p.1 (b :: p.2) w n = p.1 n := fun w =>
    ⟨fun n x hx => mem_setStride.mpr (.inl hx), fun n hn => if_neg hn⟩
  rw [CSC.backEdge]
  split
  · exact hset _
  · split
    · exact hset _
    · exact ⟨fun _ _ h => h, fun _ _ => rfl⟩

/-- The length of the cycle that an edge back closes is set on the nodes of the branch from its
destination on. -/
theorem mem_backEdge (hdirect : Direct edges) {e : ConstraintEdge} (he : e ∈ edges)
    (hsrc : e.src = v) (hdst : e.dst = b)
    (hsingle : ∀ e' ∈ edges, e'.src = v → e'.dst = b → e' = e) {n : NodeID} (hn : n ∈ b :: C) :
    (u32 (D v + constantFieldIdx e - D b)).toNat ∈
      (CSC.backEdge edges D v (strides, C) b).1 n := by
  rw [CSC.backEdge]
  cases hgep : getEdge edges v b .NormalGep with
  | some e' =>
      obtain ⟨he', hsrc', hdst', -⟩ := getEdge_some hgep
      rw [hsingle e' he' hsrc' hdst']
      exact mem_setStride.mpr (.inr ⟨hn, rfl⟩)
  | none =>
      have hkind := getEdge_none hgep he hsrc hdst
      have hholds := hdirect e he
      have hedge := hasEdge_of_mem he
      rw [hsrc, hdst] at hedge
      dsimp only
      have hweight : constantFieldIdx e = 0 := by
        rw [constantFieldIdx]
        split
        · rename_i ap hcls
          rw [hcls] at hkind
          exact absurd rfl hkind
        · rfl
      have hother : (hasEdge edges v b .VariantGep || hasEdge edges v b .Copy) = true := by
        cases hcls : e.cls.getEdgeKind with
        | Copy => rw [hcls] at hedge; simp [hedge]
        | VariantGep => rw [hcls] at hedge; simp [hedge]
        | NormalGep => exact absurd hcls hkind
        | Addr | Store | Load => rw [hcls] at hholds; simp [holds] at hholds
      rw [if_pos hother, hweight, add_zero]
      exact mem_setStride.mpr (.inr ⟨hn, rfl⟩)

theorem foldl_backEdge (S : List NodeID) (p : (NodeID → PointsTo) × List NodeID) :
    (∀ n, ∀ x ∈ p.1 n, x ∈ (S.foldl (CSC.backEdge edges D v) p).1 n) ∧
      (∀ n, n ∉ S → n ∉ p.2 → (S.foldl (CSC.backEdge edges D v) p).1 n = p.1 n) := by
  induction S generalizing p with
  | nil => exact ⟨fun _ _ h => h, fun _ _ _ => rfl⟩
  | cons b S ih =>
      obtain ⟨hkept, hsame⟩ := @backEdge_strides edges v D b p
      obtain ⟨hkept', hsame'⟩ := ih (CSC.backEdge edges D v p b)
      refine ⟨fun n x hx => hkept' n x (hkept n x hx), fun n hn hp => ?_⟩
      rw [List.mem_cons, not_or] at hn
      rw [List.foldl_cons, hsame' n hn.2, hsame n]
      · exact fun hmem => (List.mem_cons.mp hmem).elim hn.1 hp
      · rw [backEdge_snd]
        exact fun hmem => (List.mem_cons.mp hmem).elim hn.1 hp

theorem mem_foldl_backEdge (hdirect : Direct edges) {e : ConstraintEdge} (he : e ∈ edges)
    (hsrc : e.src = v) (hsingle : ∀ e' ∈ edges, e'.src = v → e'.dst = e.dst → e' = e)
    {above below : List NodeID} {n : NodeID} (hn : n = e.dst ∨ n ∈ above)
    (p : (NodeID → PointsTo) × List NodeID) :
    (u32 (D v + constantFieldIdx e - D e.dst)).toNat ∈
      ((above ++ e.dst :: below).foldl (CSC.backEdge edges D v) p).1 n := by
  have hC : ∀ (S : List NodeID) (p : (NodeID → PointsTo) × List NodeID) (m : NodeID), m ∈ S →
      m ∈ (S.foldl (CSC.backEdge edges D v) p).2 := by
    intro S
    have hmono : ∀ (S : List NodeID) (p : (NodeID → PointsTo) × List NodeID), ∀ m ∈ p.2,
        m ∈ (S.foldl (CSC.backEdge edges D v) p).2 := by
      intro S
      induction S with
      | nil => exact fun _ _ h => h
      | cons b S ih =>
          intro p m hm
          refine ih _ m ?_
          rw [backEdge_snd]
          exact List.mem_cons_of_mem b hm
    induction S with
    | nil => exact fun _ _ h => absurd h List.not_mem_nil
    | cons b S ih =>
        intro p m hm
        rcases List.mem_cons.mp hm with rfl | hm
        · refine hmono S _ m ?_
          rw [backEdge_snd]
          exact List.mem_cons_self
        · exact ih _ m hm
  rw [List.foldl_append, List.foldl_cons]
  refine (foldl_backEdge below _).1 n _ ?_
  refine mem_backEdge hdirect he hsrc rfl hsingle ?_
  rcases hn with rfl | hn
  · exact List.mem_cons_self
  · exact List.mem_cons_of_mem _ (hC above p n hn)

end

structure Result (edges : ConstraintEdgeSetTy) (l vs : List NodeID) (s s' : CSC) : Prop where
  S : s'.S = s.S
  visited : ∀ n, s'.visited n = true ↔ s.visited n = true ∨ n ∈ vs
  D : ∀ n, n ∉ vs → s'.D n = s.D n
  strides : ∀ n, ∀ x ∈ s.strides n, x ∈ s'.strides n
  path : ∀ e ∈ edges, e.src ∈ vs → e.dst ∈ vs → l.idxOf e.dst = l.idxOf e.src + 1 →
    s'.D e.dst = u32 (s'.D e.src + constantFieldIdx e)
  recorded : ∀ e ∈ edges, e.src ∈ vs → e.dst ∈ l → l.idxOf e.dst ≤ l.idxOf e.src →
    ∀ n ∈ l, l.idxOf e.dst ≤ l.idxOf n → l.idxOf n ≤ l.idxOf e.src →
      (u32 (s'.D e.src + constantFieldIdx e - s'.D e.dst)).toNat ∈ s'.strides n

theorem idxOf_split {p q : List NodeID} {y : NodeID} (hnodup : l.Nodup) (hl : l = p ++ y :: q) :
    l.idxOf y = p.length ∧ (∀ n ∈ p, l.idxOf n < p.length) ∧ ∀ n ∈ q, p.length < l.idxOf n := by
  subst hl
  obtain ⟨-, htail, hdisj⟩ := List.nodup_append.mp hnodup
  have hyp : y ∉ p := fun hmem => hdisj y hmem y List.mem_cons_self rfl
  refine ⟨?_, fun n hn => ?_, fun n hn => ?_⟩
  · rw [List.idxOf_append_of_notMem hyp, List.idxOf_cons_self, add_zero]
  · rw [List.idxOf_append_of_mem hn]
    exact List.idxOf_lt_length_of_mem hn
  · have hnp : n ∉ p := fun hmem => hdisj n hmem n (List.mem_cons_of_mem y hn) rfl
    have hne : y ≠ n := fun heq => (List.nodup_cons.mp htail).1 (heq ▸ hn)
    rw [List.idxOf_append_of_notMem hnp, List.idxOf_cons_ne q hne]
    omega

theorem mem_of_idxOf_le (hnodup : l.Nodup) (hl : l = pre ++ v :: post) {n : NodeID} (hn : n ∈ l)
    (hle : l.idxOf n ≤ l.idxOf v) : n ∈ pre ++ [v] := by
  obtain ⟨hv, -, hpost⟩ := idxOf_split hnodup hl
  rw [hl, ← List.singleton_append, ← List.append_assoc] at hn
  refine (List.mem_append.mp hn).resolve_right fun hmem => ?_
  exact absurd (hpost n hmem) (by omega)

theorem Layout.cases (h : Layout edges scc l) (hl : l = pre ++ v :: post) {e : ConstraintEdge}
    (he : e ∈ edges) (hsrc : e.src = v) (hdst : e.dst ∈ l) :
    e.dst ∈ pre ++ [v] ∨ post.head? = some e.dst := by
  have hv : e.src ∈ l := by
    rw [hsrc, hl]
    exact List.mem_append_right pre List.mem_cons_self
  have hle := h.back e he hv hdst
  rw [hsrc] at hle
  rcases Nat.lt_or_ge (l.idxOf v) (l.idxOf e.dst) with hlt | hge
  · refine .inr ?_
    obtain ⟨hidx, -, -⟩ := idxOf_split h.nodup hl
    cases post with
    | nil =>
        have hlast := List.idxOf_lt_length_of_mem hdst
        have hlen := congrArg List.length hl
        rw [List.length_append, List.length_singleton] at hlen
        omega
    | cons u post =>
        have hl' : l = (pre ++ [v]) ++ u :: post := by rw [hl, List.append_assoc]; rfl
        obtain ⟨hu, hbefore, hafter⟩ := idxOf_split h.nodup hl'
        rw [hl'] at hdst
        rw [List.length_append, List.length_singleton] at hu hafter
        rcases List.mem_append.mp hdst with hmem | hmem
        · have hlt' := hbefore e.dst hmem
          rw [List.length_append, List.length_singleton] at hlt'
          omega
        · rcases List.mem_cons.mp hmem with heq | hmem
          · rw [heq]
            rfl
          · have hgt := hafter e.dst hmem
            omega
  · exact .inl (mem_of_idxOf_le h.nodup hl hdst hge)

theorem foldl_visitChild_visited {visit : CSC → NodeID → ℤ → CSC} {es : List ConstraintEdge}
    (h : ∀ e ∈ es, scc.repNode v = scc.repNode e.dst → s.visited e.dst = true) :
    es.foldl (CSC.visitChild scc visit v) s = s := by
  induction es with
  | nil => rfl
  | cons e es ih =>
      have hnot : ¬ (scc.repNode v = scc.repNode e.dst ∧ s.visited e.dst = false) := by
        rintro ⟨hrep, hvis⟩
        rw [h e List.mem_cons_self hrep] at hvis
        contradiction
      rw [List.foldl_cons, CSC.visitChild, if_neg hnot]
      exact ih fun e' he' => h e' (List.mem_cons_of_mem e he')

theorem foldl_visitChild {visit : CSC → NodeID → ℤ → CSC} (h : Layout edges scc l)
    (hl : l = pre ++ v :: post) (hpre : ∀ n ∈ pre ++ [v], s.visited n = true)
    (hpost : ∀ n ∈ post, s.visited n = false)
    (hvisit : ∀ u, post.head? = some u → ∀ w, Result edges l post s (visit s u w)) :
    (post = [] ∧ (directOutEdges edges v).foldl (CSC.visitChild scc visit v) s = s) ∨
      ∃ e ∈ edges, e.src = v ∧ post.head? = some e.dst ∧
        (directOutEdges edges v).foldl (CSC.visitChild scc visit v) s =
          visit s e.dst (constantFieldIdx e) := by
  have hv : v ∈ l := by
    rw [hl]
    exact List.mem_append_right pre List.mem_cons_self
  have hmem : ∀ e ∈ directOutEdges edges v, scc.repNode v = scc.repNode e.dst → e.dst ∈ l := by
    intro e he hrep
    obtain ⟨he, hsrc⟩ := mem_directOutEdges.mp he
    exact (h.component e he (hsrc ▸ hv)).mp (hsrc ▸ hrep)
  cases post with
  | nil =>
      refine .inl ⟨rfl, foldl_visitChild_visited fun e he hrep => ?_⟩
      obtain ⟨hedge, hsrc⟩ := mem_directOutEdges.mp he
      rcases h.cases hl hedge hsrc (hmem e he hrep) with hbefore | hnext
      · exact hpre e.dst hbefore
      · cases hnext
  | cons u post =>
      obtain ⟨e, he, hsrc, hdst⟩ := h.next pre v u post hl
      obtain ⟨es, es', hes, hnot⟩ := List.eq_append_cons_of_mem (mem_directOutEdges.mpr ⟨he, hsrc⟩)
      have hu : u ∈ l := by
        rw [hl]
        simp
      have hrep : scc.repNode v = scc.repNode e.dst := by
        rw [← hsrc]
        exact (h.component e he (hsrc ▸ hv)).mpr (hdst ▸ hu)
      have hresult := hvisit u rfl (constantFieldIdx e)
      have hskip : es.foldl (CSC.visitChild scc visit v) s = s := by
        refine foldl_visitChild_visited fun e' he' hrep' => ?_
        have hout : e' ∈ directOutEdges edges v := hes ▸ List.mem_append_left _ he'
        obtain ⟨hedge, hsrc'⟩ := mem_directOutEdges.mp hout
        rcases h.cases hl hedge hsrc' (hmem e' hout hrep') with hbefore | hnext
        · exact hpre e'.dst hbefore
        · have heq := h.single e' hedge e he (hsrc' ▸ hv) (hmem e' hout hrep') (hsrc'.trans hsrc.symm)
            ((Option.some.inj hnext).symm.trans hdst.symm)
          exact absurd (heq ▸ he') hnot
      refine .inr ⟨e, he, hsrc, congrArg some hdst.symm, ?_⟩
      rw [hes, List.foldl_append, List.foldl_cons, hskip, CSC.visitChild,
        if_pos ⟨hrep, hdst ▸ hpost u List.mem_cons_self⟩, hdst]
      -- all nodes of the component have been visited
      refine foldl_visitChild_visited fun e' he' hrep' => ?_
      have hin := hmem e' (hes ▸ List.mem_append_right es (List.mem_cons_of_mem e he')) hrep'
      rw [hl, ← List.singleton_append, ← List.append_assoc] at hin
      rw [hresult.visited]
      exact (List.mem_append.mp hin).imp_left (hpre e'.dst)

theorem mem_leave (hdirect : Direct edges) (h : Layout edges scc l) (hl : l = pre ++ v :: post)
    (hS : s.S = v :: pre.reverse) {e : ConstraintEdge} (he : e ∈ edges) (hsrc : e.src = v)
    (hdst : e.dst ∈ l) (hle : l.idxOf e.dst ≤ l.idxOf v) {n : NodeID} (hn : n ∈ l)
    (hge : l.idxOf e.dst ≤ l.idxOf n) (hnle : l.idxOf n ≤ l.idxOf v) :
    (u32 (s.D v + constantFieldIdx e - s.D e.dst)).toNat ∈ (CSC.leave edges s v).strides n := by
  obtain ⟨p, r, hsplit⟩ := List.append_of_mem (mem_of_idxOf_le h.nodup hl hdst hle)
  have hlsplit : l = p ++ e.dst :: (r ++ post) := by
    rw [hl, ← List.singleton_append, ← List.append_assoc, hsplit, List.append_assoc]
    rfl
  obtain ⟨hidx, hbefore, -⟩ := idxOf_split h.nodup hlsplit
  have hmem : n = e.dst ∨ n ∈ r.reverse := by
    have hin := mem_of_idxOf_le h.nodup hl hn hnle
    rw [hsplit] at hin
    rcases List.mem_append.mp hin with hp | hr
    · have hlt := hbefore n hp
      omega
    · exact (List.mem_cons.mp hr).imp_right List.mem_reverse.mpr
  have hstack : s.S = r.reverse ++ e.dst :: p.reverse := by
    have hrev := congrArg List.reverse hsplit
    rw [List.reverse_append, List.reverse_singleton, List.singleton_append] at hrev
    rw [hS, hrev]
    simp
  change _ ∈ (s.S.foldl (CSC.backEdge edges s.D v) (s.strides, [])).1 n
  rw [hstack]
  refine mem_foldl_backEdge hdirect he hsrc (fun e' he' hsrc' hdst' => ?_) hmem _
  have hv : v ∈ l := by
    rw [hl]
    exact List.mem_append_right pre List.mem_cons_self
  exact h.single e' he' e he (hsrc' ▸ hv) (hdst' ▸ hdst) (hsrc'.trans hsrc.symm) hdst'

theorem Result.leave (hdirect : Direct edges) (h : Layout edges scc l) (hl : l = pre ++ v :: post)
    {s s' : CSC} {w : ℤ} (hS : s.S = pre.reverse) (hresult : Result edges l post (s.enter v w) s')
    (hnext : ∀ e ∈ edges, e.src = v → post.head? = some e.dst →
      s'.D e.dst = u32 (s'.D v + constantFieldIdx e)) :
    Result edges l (v :: post) s (CSC.leave edges s' v) := by
  have hS' : s'.S = v :: pre.reverse := by
    rw [hresult.S, ← hS]
    rfl
  obtain ⟨hv, hearlier, hafter⟩ := idxOf_split h.nodup hl
  have hkept := (@foldl_backEdge edges v s'.D s'.S (s'.strides, [])).1
  have hin : ∀ {n : NodeID}, n ∈ v :: post → n ∈ l := fun hn => hl ▸ List.mem_append_right pre hn
  exact {
    S := by
      change s'.S.tail = s.S
      rw [hS', List.tail_cons, hS]
    visited := by
      intro n
      change s'.visited n = true ↔ _
      rw [hresult.visited, List.mem_cons, CSC.enter]
      by_cases hn : n = v
      · simp [hn]
      · simp [hn]
    D := by
      intro n hn
      rw [List.mem_cons, not_or] at hn
      change s'.D n = s.D n
      rw [hresult.D n hn.2, CSC.enter]
      exact Function.update_of_ne hn.1 _ _
    strides := fun n x hx => hkept n x (hresult.strides n x hx)
    path := by
      intro e he hsrc hdst hidx
      change s'.D e.dst = u32 (s'.D e.src + _)
      rcases List.mem_cons.mp hsrc with hsv | hsrc
      · rw [hsv] at hidx ⊢
        rcases h.cases hl he hsv (hin hdst) with hbefore | hhead
        · rcases List.mem_append.mp hbefore with hmem | hmem
          · have hlt := hearlier e.dst hmem
            omega
          · rw [List.mem_singleton.mp hmem] at hidx
            omega
        · exact hnext e he hsv hhead
      · refine hresult.path e he hsrc ((List.mem_cons.mp hdst).resolve_left fun heq => ?_) hidx
        have hlt := hafter e.src hsrc
        rw [heq] at hidx
        omega
    recorded := by
      intro e he hsrc hdst hle n hn hge hnle
      change (u32 (s'.D e.src + _ - s'.D e.dst)).toNat ∈ _
      rcases List.mem_cons.mp hsrc with hsv | hsrc
      · rw [hsv] at hle hnle ⊢
        exact mem_leave hdirect h hl hS' he hsv hdst hle hn hge hnle
      · exact hkept n _ (hresult.recorded e he hsrc hdst hle n hn hge hnle) }

theorem visit_result (hdirect : Direct edges) (h : Layout edges scc l) (fuel : ℕ) (pre : List NodeID)
    (v : NodeID) (post : List NodeID) (s : CSC) (w : ℤ) (hl : l = pre ++ v :: post)
    (hfuel : (v :: post).length ≤ fuel) (hS : s.S = pre.reverse)
    (hpre : ∀ n ∈ pre, s.visited n = true) (hpost : ∀ n ∈ v :: post, s.visited n = false) :
    Result edges l (v :: post) s (CSC.visit edges scc fuel s v w) ∧
      (CSC.visit edges scc fuel s v w).D v = u32 (s.I + w) := by
  induction fuel generalizing pre v post s w with
  | zero => exact absurd hfuel (Nat.not_succ_le_zero _)
  | succ fuel ih =>
      have hl' : l = (pre ++ [v]) ++ post := by rw [hl, List.append_assoc]; rfl
      have hvpost : v ∉ post := by
        have hnodup := h.nodup
        rw [hl] at hnodup
        exact (List.nodup_cons.mp (List.nodup_append.mp hnodup).2.1).1
      have hDv : (s.enter v w).D v = u32 (s.I + w) := Function.update_self v _ _
      have hpre' : ∀ n ∈ pre ++ [v], (s.enter v w).visited n = true := by
        intro n hn
        rw [CSC.enter]
        dsimp only
        rw [Function.update_apply]
        split
        · rfl
        · rename_i hne
          exact hpre n ((List.mem_append.mp hn).resolve_right fun hmem =>
            hne (List.mem_singleton.mp hmem))
      have hpost' : ∀ n ∈ post, (s.enter v w).visited n = false := by
        intro n hn
        have hne : n ≠ v := fun heq => hvpost (heq ▸ hn)
        exact (Function.update_of_ne hne _ _).trans (hpost n (List.mem_cons_of_mem v hn))
      have hvisit : ∀ u, post.head? = some u → ∀ w', Result edges l post (s.enter v w)
          (CSC.visit edges scc fuel (s.enter v w) u w') ∧
          (CSC.visit edges scc fuel (s.enter v w) u w').D u = u32 ((s.enter v w).I + w') := by
        intro u hu w'
        obtain ⟨post', rfl⟩ := List.head?_eq_some_iff.mp hu
        refine ih (pre ++ [v]) u post' (s.enter v w) w' hl' (Nat.le_of_succ_le_succ hfuel) ?_ hpre' hpost'
        rw [List.reverse_append, ← hS]
        rfl
      rw [CSC.visit]
      rcases foldl_visitChild h hl hpre' hpost' (fun u hu w' => (hvisit u hu w').1) with
        ⟨hnil, hfold⟩ | ⟨e, he, hsrc, hhead, hfold⟩
      · have hresult : Result edges l post (s.enter v w) (s.enter v w) := by
          rw [hnil]
          exact ⟨rfl, fun n => by simp, fun _ _ => rfl, fun _ _ hx => hx,
            fun _ _ hmem => absurd hmem List.not_mem_nil, fun _ _ hmem => absurd hmem List.not_mem_nil⟩
        rw [hfold]
        refine ⟨hresult.leave hdirect h hl hS fun e _ _ hhead => ?_, hDv⟩
        rw [hnil] at hhead
        cases hhead
      · obtain ⟨hresult, hD⟩ := hvisit e.dst hhead (constantFieldIdx e)
        have hDv' := (hresult.D v hvpost).trans hDv
        rw [hfold]
        refine ⟨hresult.leave hdirect h hl hS fun e' he' hsrc' hhead' => ?_, hDv'⟩
        have hdst : e'.dst = e.dst := Option.some.inj (hhead'.symm.trans hhead)
        have hv : v ∈ l := hl ▸ List.mem_append_right pre List.mem_cons_self
        have hin : e.dst ∈ l := hl' ▸ List.mem_append_right _ (List.mem_of_head? hhead)
        have heq := h.single e he e' he' (hsrc ▸ hv) hin (hsrc.trans hsrc'.symm) hdst.symm
        rw [← heq, hD, hDv']
        rfl

end SVF.WPA.CycleStrides
