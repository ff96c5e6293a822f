import SVF.Util.Dominance

namespace SVF.Util.PostDominance

open Dominance

section

variable {V : Type*} {E : V → V → Prop} {entry : V}

theorem not_sdom_entry (a : V) : ¬SDom E entry a entry := by
  rintro ⟨hdom, hne⟩
  exact hne (List.mem_singleton.1 (hdom [] .start))

theorem reachable_of_dom {a b : V} (hb : Reachable E entry b) (hab : Dom E entry a b) :
    Reachable E entry a := by
  obtain ⟨p, hp⟩ := hb
  exact hp.reachable_of_mem (hab p hp)

theorem idom_unique {a b c : V} (ha : IDom E entry a c) (hb : IDom E entry b c)
    (hc : Reachable E entry c) : a = b := by
  have hba := ha.2 b hb.1
  have hab := hb.2 a ha.1
  exact dom_antisymm hab hba (reachable_of_dom hc ha.1.1)

theorem not_idom_of_idom {a b c : V} (hab : IDom E entry a b) (hbc : IDom E entry b c)
    (hc : Reachable E entry c) : a ≠ c ∧ ¬IDom E entry a c := by
  have hb := reachable_of_dom hc hbc.1.1
  have hac := sdom_of_dom_of_sdom hab.1.1 hbc.1 hb
  refine ⟨hac.2, ?_⟩
  intro hidom
  exact hab.1.2 (idom_unique hidom hbc hc)

theorem idom_of_forall_pred {a b : V} (hne : b ≠ entry) (hpred : ∀ x, E x b → x = a) (hab : E a b)
    (hself : a ≠ b) : IDom E entry a b := by
  refine ⟨⟨?_, hself⟩, ?_⟩
  · intro p hp
    cases hp with
    | start => exact absurd rfl hne
    | step x _ p _ hx =>
        rw [← hpred x hx]
        exact List.mem_cons_of_mem b List.mem_cons_self
  · intro c hc p hp
    exact (List.mem_cons.1 (hc.1 _ (.step a b p hp hab))).resolve_left hc.2

structure DomTree (E : V → V → Prop) (entry : V) (nodes : V → Prop) (parent : V → V) (level : V → ℕ) :
    Prop where
  root : nodes entry
  reachable : ∀ c, nodes c → Reachable E entry c
  closed : ∀ c, nodes c → c ≠ entry → nodes (parent c)
  idom : ∀ c, nodes c → c ≠ entry → IDom E entry (parent c) c
  deeper : ∀ c, nodes c → c ≠ entry → level c = level (parent c) + 1

namespace DomTree

variable {nodes : V → Prop} {parent : V → V} {level : V → ℕ} (h : DomTree E entry nodes parent level)

include h

theorem dom_iff_parent {a c : V} (hc : nodes c) (hne : a ≠ c) (hentry : c ≠ entry) :
    Dom E entry a c ↔ Dom E entry a (parent c) := by
  have hidom := h.idom c hc hentry
  constructor
  · intro hdom
    exact hidom.2 a ⟨hdom, hne⟩
  · intro hdom
    exact dom_trans hdom hidom.1.1

theorem ne_entry_of_sdom {a c : V} (hac : SDom E entry a c) : c ≠ entry := by
  rintro rfl
  exact not_sdom_entry a hac

theorem of_dom {a c : V} (hc : nodes c) (hac : Dom E entry a c) : nodes a := by
  -- climb from `c` to `a`
  induction hn : level c using Nat.strongRecOn generalizing c with
  | ind n ih =>
      subst hn
      by_cases hne : a = c
      · rwa [hne]
      · have hentry := h.ne_entry_of_sdom ⟨hac, hne⟩
        have hlevel := h.deeper c hc hentry
        exact ih _ (by omega) (h.closed c hc hentry) ((h.dom_iff_parent hc hne hentry).1 hac) rfl

theorem level_le_of_dom {a c : V} (hc : nodes c) (hac : Dom E entry a c) : level a ≤ level c := by
  induction hn : level c using Nat.strongRecOn generalizing c with
  | ind n ih =>
      subst hn
      by_cases hne : a = c
      · exact Nat.le_of_eq (congrArg level hne)
      · have hentry := h.ne_entry_of_sdom ⟨hac, hne⟩
        have hlevel := h.deeper c hc hentry
        have hle := ih _ (by omega) (h.closed c hc hentry) ((h.dom_iff_parent hc hne hentry).1 hac) rfl
        omega

theorem level_lt_of_sdom {a c : V} (hc : nodes c) (hac : SDom E entry a c) : level a < level c := by
  have hentry := h.ne_entry_of_sdom hac
  have hlevel := h.deeper c hc hentry
  have hle := h.level_le_of_dom (h.closed c hc hentry) ((h.dom_iff_parent hc hac.2 hentry).1 hac.1)
  omega

/-- The deeper of two nodes can be replaced by its parent. -/
theorem common_dom_parent {a b : V} (ha : nodes a) (hb : nodes b) (hab : a ≠ b)
    (hlevel : level b ≤ level a) (hentry : a ≠ entry) (c : V) :
    Dom E entry c a ∧ Dom E entry c b ↔ Dom E entry c (parent a) ∧ Dom E entry c b := by
  constructor
  · rintro ⟨hca, hcb⟩
    refine ⟨(h.dom_iff_parent ha ?_ hentry).1 hca, hcb⟩
    rintro rfl
    exact absurd (h.level_lt_of_sdom hb ⟨hcb, hab⟩) (by omega)
  · rintro ⟨hca, hcb⟩
    exact ⟨dom_trans hca (h.idom a ha hentry).1.1, hcb⟩

/-- Below a node, one of its children leads to each node that it strictly dominates. -/
theorem exists_child_of_sdom {a c : V} (hc : nodes c) (hac : SDom E entry a c) :
    ∃ d, nodes d ∧ d ≠ entry ∧ parent d = a ∧ Dom E entry d c := by
  induction hn : level c using Nat.strongRecOn generalizing c with
  | ind n ih =>
      subst hn
      have hentry := h.ne_entry_of_sdom hac
      have hlevel := h.deeper c hc hentry
      have hdom := (h.dom_iff_parent hc hac.2 hentry).1 hac.1
      by_cases heq : a = parent c
      · exact ⟨c, hc, hentry, heq.symm, dom_refl c⟩
      · obtain ⟨d, hd, hdentry, hparent, hdc⟩ :=
          ih _ (by omega) (h.closed c hc hentry) ⟨hdom, heq⟩ rfl
        exact ⟨d, hd, hdentry, hparent, dom_trans hdc (h.idom c hc hentry).1.1⟩

theorem sdom_iff_exists_child {a b c : V} (hc : nodes c) (hbc : Dom E entry b c) :
    SDom E entry a b ↔ ∃ d, (nodes d ∧ d ≠ entry ∧ parent d = a) ∧ Dom E entry d b ∧ Dom E entry d c := by
  have hb := h.of_dom hc hbc
  constructor
  · intro hab
    obtain ⟨d, hd, hdentry, hparent, hdb⟩ := h.exists_child_of_sdom hb hab
    exact ⟨d, ⟨hd, hdentry, hparent⟩, hdb, dom_trans hdb hbc⟩
  · rintro ⟨d, ⟨hd, hdentry, rfl⟩, hdb, -⟩
    refine ⟨dom_trans (h.idom d hd hdentry).1.1 hdb, ?_⟩
    rintro rfl
    exact (h.idom d hd hdentry).1.2
      (dom_antisymm (h.idom d hd hdentry).1.1 hdb (h.reachable _ (h.closed d hd hdentry)))

end DomTree

end

section

variable {V : Type*} (E : V → V → Prop) (exit : V → Prop)

def Rev : Option V → Option V → Prop
  | none, some b => exit b
  | some b, some a => E a b
  | _, none => False

/-- A path from a node to an exit. The list holds the nodes after the first one. -/
inductive PathTo : V → List V → Prop
  | exit (a : V) (ha : exit a) : PathTo a []
  | step (a b : V) (p : List V) (hab : E a b) (hb : PathTo b p) : PathTo a (b :: p)

def PDom (a b : V) : Prop := ∀ p, PathTo E exit b p → a ∈ b :: p

variable {E exit}

theorem PathTo.rev {b : V} {p : List V} (h : PathTo E exit b p) :
    Path (Rev E exit) none (some b) (p.map some ++ [none]) := by
  induction h with
  | exit a ha => exact .step none (some a) [] .start ha
  | step a b p hab _ ih => exact .step (some b) (some a) _ ih hab

theorem exists_pathTo_of_rev {b : V} {q : List (Option V)} (h : Path (Rev E exit) none (some b) q) :
    ∃ p, PathTo E exit b p ∧ q = p.map some ++ [none] := by
  induction q generalizing b with
  | nil => cases h
  | cons x q ih =>
      cases h with
      | step _ _ _ hx hxb =>
          cases x with
          | none =>
              cases hx with
              | start => exact ⟨[], .exit b hxb, rfl⟩
              | step y _ _ _ hnone => cases y <;> exact hnone.elim
          | some c =>
              obtain ⟨p, hp, rfl⟩ := ih hx
              exact ⟨c :: p, .step b c p hxb hp, rfl⟩

theorem pdom_iff_dom {a b : V} : PDom E exit a b ↔ Dom (Rev E exit) none (some a) (some b) := by
  have hmem : ∀ p : List V, some a ∈ some b :: (p.map some ++ [none]) ↔ a ∈ b :: p := by
    intro p
    simp
  constructor
  · intro hdom q hq
    obtain ⟨p, hp, rfl⟩ := exists_pathTo_of_rev hq
    exact (hmem p).2 (hdom p hp)
  · intro hdom p hp
    exact (hmem p).1 (hdom _ hp.rev)

theorem PDom.mono {exit' : V → Prop} (hsub : ∀ x, exit x → exit' x) {a b : V} (h : PDom E exit' a b) :
    PDom E exit a b := by
  intro p hp
  apply h
  clear h
  induction hp with
  | exit x hx => exact .exit x (hsub x hx)
  | step x y p hxy _ ih => exact .step x y p hxy ih

end

end SVF.Util.PostDominance
