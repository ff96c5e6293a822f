import Mathlib.Logic.Relation

namespace SVF.Util.InclusionConstraints

open Relation

/-- `addr o p` puts `o` into the set of `p`; `load q y` reads and `store x q` writes the
sets of what `q` points to. -/
structure Constraints (N : Type*) where
  addr : N → N → Prop
  copy : N → N → Prop
  load : N → N → Prop
  store : N → N → Prop

variable {N : Type*}

inductive PointsTo (C : Constraints N) : N → N → Prop
  | addr (o p : N) (h : C.addr o p) : PointsTo C o p
  | copy (o a b : N) (h : C.copy a b) (ha : PointsTo C o a) : PointsTo C o b
  | load (o o' q y : N) (h : C.load q y) (hq : PointsTo C o' q) (ho : PointsTo C o o') :
      PointsTo C o y
  | store (o o' x q : N) (h : C.store x q) (hq : PointsTo C o' q) (hx : PointsTo C o x) :
      PointsTo C o o'

structure AddrOnce (C : Constraints N) : Prop where
  src : ∀ o p p', C.addr o p → C.addr o p' → p = p'
  ends : ∀ o p o', C.addr o p → ¬ C.addr p o'

/-- The alias grammar, with a dereferenced pointer as the source of an address edge to it. The
empty word stands at every node. -/
structure AliasRules (node : N → Prop) (addr copy flow flowBar memory value : N → N → Prop) :
    Prop where
  addr_node : ∀ a b, addr a b → node b
  copy_node : ∀ a b, copy a b → node b
  memory_node : ∀ a b, memory a b → node b
  flow_refl : ∀ a, node a → flow a a
  flow_step : ∀ a b c d, copy a b → (b = c ∨ memory b c) → flow c d → flow a d
  flowBar_refl : ∀ a, node a → flowBar a a
  flowBar_step : ∀ a b c d, (a = b ∨ memory a b) → copy c b → flowBar c d → flowBar a d
  memory_addr : ∀ a b c d, addr a b → value b c → addr d c → memory a d
  value_refl : ∀ a, node a → value a a
  value_flow : ∀ a b c d, flowBar a b → value b c → flow c d → value a d

structure Encodes (C : Constraints N) (addr copy : N → N → Prop) : Prop where
  of_addr : ∀ o p, C.addr o p → addr o p
  of_copy : ∀ a b, C.copy a b → copy a b
  of_load : ∀ q y, C.load q y → ∃ d, addr d q ∧ copy d y
  of_store : ∀ x q, C.store x q → ∃ d, addr d q ∧ copy x d

section

variable {C : Constraints N} {node : N → Prop}
variable {addr copy flow flowBar memory value : N → N → Prop}

def FlowStep (copy memory : N → N → Prop) (a c : N) : Prop :=
  ∃ b, copy a b ∧ (b = c ∨ memory b c ∧ memory c b)

def Deref (C : Constraints N) (addr copy memory : N → N → Prop) (n d : N) : Prop :=
  ∃ q r, addr d q ∧ C.addr n r ∧ ReflTransGen (FlowStep copy memory) r q

/-- The last step from `r` to `n` is a copy to `n`, or to `n` as a dereferenced pointer. -/
def Reaches (C : Constraints N) (addr copy memory : N → N → Prop) (r n : N) : Prop :=
  r = n ∨ ∃ z b, ReflTransGen (FlowStep copy memory) r z ∧ copy z b ∧
    (b = n ∨ Deref C addr copy memory n b)

section

variable (hr : AliasRules node addr copy flow flowBar memory value)
include hr

theorem node_of_steps {a b : N} (h : ReflTransGen (FlowStep copy memory) a b) (ha : node a) :
    node b := by
  cases h with
  | refl => exact ha
  | tail _ hstep =>
      obtain ⟨b', hcopy, hmem⟩ := hstep
      rcases hmem with rfl | ⟨hmem, -⟩
      · exact hr.copy_node _ _ hcopy
      · exact hr.memory_node _ _ hmem

theorem flow_of_steps {a b : N} (h : ReflTransGen (FlowStep copy memory) a b) (hb : node b) :
    flow a b := by
  induction h using ReflTransGen.head_induction_on with
  | refl => exact hr.flow_refl b hb
  | head hstep _ ih =>
      obtain ⟨b', hcopy, hmem⟩ := hstep
      exact hr.flow_step _ _ _ _ hcopy (hmem.imp_right And.left) ih

theorem flowBar_of_steps {a b : N} (h : ReflTransGen (FlowStep copy memory) a b) (ha : node a) :
    flowBar b a := by
  induction h with
  | refl => exact hr.flowBar_refl a ha
  | tail _ hstep ih =>
      obtain ⟨b', hcopy, hmem⟩ := hstep
      exact hr.flowBar_step _ _ _ _ (hmem.imp Eq.symm And.right) hcopy ih

theorem value_of_steps {r p q : N} (hnode : node r) (hp : ReflTransGen (FlowStep copy memory) r p)
    (hq : ReflTransGen (FlowStep copy memory) r q) : value p q := by
  have hq' := flow_of_steps hr hq (node_of_steps hr hq hnode)
  exact hr.value_flow _ _ _ _ (flowBar_of_steps hr hp hnode) (hr.value_refl r hnode) hq'

variable (honce : AddrOnce C) (henc : Encodes C addr copy)
include honce henc

theorem memory_of_deref {n b d : N} (hb : Deref C addr copy memory n b)
    (hd : Deref C addr copy memory n d) : memory b d := by
  obtain ⟨q, r, hq, hnr, hflow⟩ := hb
  obtain ⟨q', r', hq', hnr', hflow'⟩ := hd
  have hsame : r = r' := honce.src n r r' hnr hnr'
  subst hsame
  have hnode := hr.addr_node n r (henc.of_addr n r hnr)
  exact hr.memory_addr _ _ _ _ hq (value_of_steps hr hnode hflow hflow') hq'

theorem step_of_deref {z b n d : N} (hcopy : copy z b)
    (hb : b = n ∨ Deref C addr copy memory n b) (hn : Deref C addr copy memory n n)
    (hd : Deref C addr copy memory n d) : FlowStep copy memory z d := by
  have hderef : Deref C addr copy memory n b := hb.elim (fun h => h ▸ hn) id
  exact ⟨b, hcopy, .inr ⟨memory_of_deref hr honce henc hderef hd,
    memory_of_deref hr honce henc hd hderef⟩⟩

end

theorem deref_self (henc : Encodes C addr copy) {n r : N} (h : C.addr n r) :
    Deref C addr copy memory n n := ⟨r, r, henc.of_addr n r h, h, .refl⟩

theorem Deref.self (henc : Encodes C addr copy) {n d : N} (h : Deref C addr copy memory n d) :
    Deref C addr copy memory n n := by
  obtain ⟨_, _, -, hn, -⟩ := h
  exact deref_self henc hn

theorem Reaches.steps (hr : AliasRules node addr copy flow flowBar memory value) (honce : AddrOnce C)
    (henc : Encodes C addr copy) {r n : N} (h : Reaches C addr copy memory r n) :
    ReflTransGen (FlowStep copy memory) r n := by
  obtain rfl | ⟨z, b, hflow, hcopy, hb⟩ := h
  · exact .refl
  · rcases hb with rfl | hb
    · exact hflow.tail ⟨b, hcopy, .inl rfl⟩
    · exact hflow.tail (step_of_deref hr honce henc hcopy (.inr hb) (hb.self henc) (hb.self henc))

/-- Every derivation of a points-to fact is a flow from the target of the address edge. -/
theorem reaches_of_pointsTo (hr : AliasRules node addr copy flow flowBar memory value)
    (honce : AddrOnce C) (henc : Encodes C addr copy) {o n : N} (h : PointsTo C o n) :
    ∃ r, C.addr o r ∧ Reaches C addr copy memory r n := by
  induction h with
  | addr o p h => exact ⟨p, h, .inl rfl⟩
  | copy o a b h _ ih =>
      obtain ⟨r, hor, hra⟩ := ih
      exact ⟨r, hor, .inr ⟨a, b, hra.steps hr honce henc, henc.of_copy a b h, .inl rfl⟩⟩
  | load o o' q y h _ _ ihq iho =>
      obtain ⟨d, hd, hcopy⟩ := henc.of_load q y h
      obtain ⟨r', hor', hrq⟩ := ihq
      obtain ⟨r, hor, hro⟩ := iho
      have hderef : Deref C addr copy memory o' d := ⟨q, r', hd, hor', hrq.steps hr honce henc⟩
      refine ⟨r, hor, ?_⟩
      -- the object is not the pointer that the address of `o` is taken to
      obtain rfl | ⟨z, b, hflow, hzb, hb⟩ := hro
      · exact absurd hor' (honce.ends o r r' hor)
      · have hstep := step_of_deref hr honce henc hzb hb (deref_self henc hor') hderef
        exact .inr ⟨d, y, hflow.tail hstep, hcopy, .inl rfl⟩
  | store o o' x q h _ _ ihq ihx =>
      obtain ⟨d, hd, hcopy⟩ := henc.of_store x q h
      obtain ⟨r', hor', hrq⟩ := ihq
      obtain ⟨r, hor, hrx⟩ := ihx
      have hderef : Deref C addr copy memory o' d := ⟨q, r', hd, hor', hrq.steps hr honce henc⟩
      exact ⟨r, hor, .inr ⟨x, d, hrx.steps hr honce henc, hcopy, .inr hderef⟩⟩

theorem value_of_pointsTo (hr : AliasRules node addr copy flow flowBar memory value)
    (honce : AddrOnce C) (henc : Encodes C addr copy) {o p q : N} (hp : PointsTo C o p)
    (hq : PointsTo C o q) : value p q := by
  obtain ⟨r, hor, hrp⟩ := reaches_of_pointsTo hr honce henc hp
  obtain ⟨r', hor', hrq⟩ := reaches_of_pointsTo hr honce henc hq
  have hsame : r = r' := honce.src o r r' hor hor'
  subst hsame
  have hnode := hr.addr_node o r (henc.of_addr o r hor)
  exact value_of_steps hr hnode (hrp.steps hr honce henc) (hrq.steps hr honce henc)

end

end SVF.Util.InclusionConstraints
