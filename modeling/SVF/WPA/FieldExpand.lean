import Mathlib.Tactic.Linarith
import Mathlib.Tactic.Ring
import SVF.Graphs.FieldLookup
import SVF.MemoryModel.PointsToSets
import SVF.Util.Loops

namespace SVF.WPA.FieldExpand

open Relation Graphs.ConsG Graphs.FieldObjects Graphs.FieldLookup
open MemoryModel.PointsToSets (PointsTo)

structure Expansion where
  strides : PointsTo
  offset : APOffset
  initOffset : APOffset
  maxLimit : ℕ

/-- Where the loop over the offsets is. The set is unordered: the elements that are still `pending`
from the start of an iteration will be tried, those inserted since then may be. -/
structure Loop where
  offsets : Finset APOffset
  pending : Finset APOffset
  seen : Finset APOffset
  loopFlag : Bool

namespace Expansion

variable (x : Expansion)

def inLimit (f : APOffset) : Bool := (x.initOffset + f) % 2 ^ 32 < x.maxLimit

def tryStride (f : APOffset) : Finset APOffset × Bool → NodeID → Finset APOffset × Bool
  | (offsets, _), s =>
      let f1 := f + s
      if f1 ∉ offsets ∧ x.inLimit f1 = true then (insert f1 offsets, true) else (offsets, false)

def tryStrides (f : APOffset) (offsets : Finset APOffset) (loopFlag : Bool) : Finset APOffset × Bool :=
  x.strides.elems.foldl (x.tryStride f) (offsets, loopFlag)

def start : Loop := ⟨{x.offset}, {x.offset}, ∅, false⟩

/-- One offset, or the next iteration of the outer loop. -/
inductive Step (x : Expansion) : Loop → Loop → Prop
  | visit (l : Loop) (f : APOffset) (hf : f ∈ l.offsets) (hseen : f ∉ l.seen) :
      Step x l ⟨(x.tryStrides f l.offsets l.loopFlag).1, l.pending.erase f, insert f l.seen,
        (x.tryStrides f l.offsets l.loopFlag).2⟩
  | again (l : Loop) (hpending : l.pending = ∅) (hflag : l.loopFlag = true) :
      Step x l ⟨l.offsets, l.offsets, ∅, false⟩

inductive Reached (x : Expansion) : APOffset → Prop
  | start : Reached x x.offset
  | add (f : APOffset) (s : NodeID) (h : Reached x f) (hs : s ∈ x.strides)
      (hlimit : x.initOffset + (f + s) < x.maxLimit) : Reached x (f + s)

/-- No comparison is between numbers that do not fit in 32 bits. -/
def Fits : Prop := ∀ s ∈ x.strides, s = 0 ∨
  (0 ≤ x.initOffset + (x.offset + s) ∧ x.initOffset + (x.offset + s) < 2 ^ 32 ∧ s + x.maxLimit ≤ 2 ^ 32)

/-- One stride is all there is to add; or there is only one, that can be added twice at most. -/
def Short : Prop :=
  (∀ s ∈ x.strides, ∀ s' ∈ x.strides, x.initOffset + (x.offset + s) < x.maxLimit →
    x.initOffset + (x.offset + s + s') < x.maxLimit → s + s' = 0 ∨ s + s' ∈ x.strides) ∨
  ∃ s, (∀ s' ∈ x.strides, s' = 0 ∨ s' = s) ∧ x.maxLimit ≤ x.initOffset + (x.offset + 3 * s)

end Expansion

def Loop.Done (l : Loop) : Prop := l.pending = ∅ ∧ l.loopFlag = false

structure Expand where
  initials : Finset NodeID
  pag : SVFIR
  expandPts : PointsTo

section

variable (opts : Options) (alloc : NodeIDAllocator) (offset : APOffset) (strides : PointsTo)

def expansion (pag : SVFIR) (init : NodeID) : Expansion where
  strides := strides
  offset := offset
  initOffset := match pag.gepObjVar init with
    | some (_, constantFieldIdx) => constantFieldIdx
    | none => 0
  maxLimit := pag.maxFieldOffsetLimit (pag.getBaseObjVar init)

def addField (init : NodeID) (e : Expand) (f : APOffset) : Expand :=
  let (pag, gepId) := e.pag.getGepObjVar opts alloc init f
  ⟨e.initials.erase gepId, pag, e.expandPts.set gepId⟩

/-- One object, whichever comes first in the unordered set. -/
inductive ExpandStep : Expand → Expand → Prop
  | constant (e : Expand) (init : NodeID) (hinit : init ∈ e.initials)
      (hconst : e.pag.isBlkObjOrConstantObj init = true) :
      ExpandStep e ⟨e.initials.erase init, e.pag, e.expandPts.set init⟩
  | object (e : Expand) (init : NodeID) (hinit : init ∈ e.initials)
      (hconst : e.pag.isBlkObjOrConstantObj init = false) (l : Loop) (offsets : List APOffset)
      (hrun : ReflTransGen (expansion offset strides e.pag init).Step
        (expansion offset strides e.pag init).start l)
      (hdone : l.Done) (hoffsets : offsets.toFinset = l.offsets) :
      ExpandStep e (offsets.foldl (addField opts alloc init)
        ⟨e.initials.erase init, e.pag, e.expandPts⟩)

end

section

variable {x : Expansion} {f : APOffset}

theorem mem_foldl_tryStride (ss : List NodeID) (p : Finset APOffset × Bool) (g : APOffset) :
    g ∈ (ss.foldl (x.tryStride f) p).1 ↔
      g ∈ p.1 ∨ ∃ s ∈ ss, g = f + s ∧ x.inLimit g = true := by
  induction ss generalizing p with
  | nil => simp
  | cons s ss ih =>
      have hone : g ∈ (x.tryStride f p s).1 ↔ g ∈ p.1 ∨ (g = f + s ∧ x.inLimit g = true) := by
        rw [Expansion.tryStride]
        split
        · rename_i hboth
          rw [Finset.mem_insert, or_comm]
          refine or_congr_right ⟨fun heq => ⟨heq, heq ▸ hboth.2⟩, And.left⟩
        · rename_i hnot
          refine (or_iff_left_of_imp fun ⟨heq, hlimit⟩ => ?_).symm
          rw [not_and, Bool.not_eq_true] at hnot
          by_contra hg
          rw [heq] at hg hlimit
          rw [hnot hg] at hlimit
          contradiction
      rw [List.foldl_cons, ih, hone, or_assoc]
      refine or_congr_right ⟨fun h => ?_, fun h => ?_⟩
      · rcases h with h | ⟨s', hs', h⟩
        · exact ⟨s, List.mem_cons_self, h⟩
        · exact ⟨s', List.mem_cons_of_mem s hs', h⟩
      · obtain ⟨s', hs', h⟩ := h
        rcases List.mem_cons.mp hs' with rfl | hs'
        · exact .inl h
        · exact .inr ⟨s', hs', h⟩

theorem mem_tryStrides (offsets : Finset APOffset) (loopFlag : Bool) (g : APOffset) :
    g ∈ (x.tryStrides f offsets loopFlag).1 ↔
      g ∈ offsets ∨ ∃ s ∈ x.strides, g = f + s ∧ x.inLimit g = true :=
  mem_foldl_tryStride _ _ g

theorem foldl_tryStride_snd (ss : List NodeID) (p : Finset APOffset × Bool)
    (h : (ss.foldl (x.tryStride f) p).2 = true) :
    p.2 = true ∨ ∃ g ∈ (ss.foldl (x.tryStride f) p).1, g ∉ p.1 := by
  induction ss using List.reverseRecOn with
  | nil => exact .inl h
  | append_singleton ss s _ =>
      rw [List.foldl_append, List.foldl_cons, List.foldl_nil] at h ⊢
      rw [Expansion.tryStride] at h ⊢
      split at h
      · rename_i hboth
        rw [if_pos hboth]
        refine .inr ⟨f + s, Finset.mem_insert_self _ _, fun hmem => hboth.1 ?_⟩
        exact (mem_foldl_tryStride ss p _).mpr (.inl hmem)
      · contradiction

theorem tryStrides_snd {offsets : Finset APOffset} {loopFlag : Bool}
    (h : (x.tryStrides f offsets loopFlag).1 = offsets) (hflag : (x.tryStrides f offsets loopFlag).2 = true) :
    loopFlag = true := by
  rcases foldl_tryStride_snd _ _ hflag with hflag | ⟨g, hg, hnot⟩
  · exact hflag
  · exact absurd (h ▸ hg) hnot

theorem inLimit_iff (hfits : x.Fits) (hf : f = x.offset ∨ (0 ≤ x.initOffset + f ∧ x.initOffset + f < x.maxLimit))
    {s : NodeID} (hs : s ∈ x.strides) (hne : s ≠ 0) : x.inLimit (f + s) = true ↔
      0 ≤ x.initOffset + (f + s) ∧ x.initOffset + (f + s) < x.maxLimit := by
  obtain ⟨hlow, hhigh, hwrap⟩ := (hfits s hs).resolve_left hne
  have hrange : 0 ≤ x.initOffset + (f + s) ∧ x.initOffset + (f + s) < 2 ^ 32 := by
    rcases hf with rfl | ⟨h0, hlt⟩
    · exact ⟨hlow, hhigh⟩
    · have hs0 : (0 : ℤ) ≤ s := Int.natCast_nonneg s
      have hcast : (s : ℤ) + x.maxLimit ≤ 2 ^ 32 := by exact_mod_cast hwrap
      constructor <;> linarith
  rw [Expansion.inLimit, decide_eq_true_iff, Int.emod_eq_of_lt hrange.1 hrange.2]
  exact ⟨fun h => ⟨hrange.1, h⟩, And.right⟩

end

namespace Expansion

variable {x : Expansion} {l l' : Loop} {f : APOffset}

theorem Reached.range (hfits : x.Fits) (h : Reached x f) :
    f = x.offset ∨ (0 ≤ x.initOffset + f ∧ x.initOffset + f < x.maxLimit) := by
  induction h with
  | start => exact .inl rfl
  | add f s _ hs hlimit ih =>
      by_cases hs0 : s = 0
      · rw [hs0, Nat.cast_zero, add_zero]
        exact ih
      · obtain ⟨hlow, -, -⟩ := (hfits s hs).resolve_left hs0
        refine .inr ⟨?_, hlimit⟩
        rcases ih with rfl | ⟨h0, -⟩
        · exact hlow
        · have hcast : (0 : ℤ) ≤ s := Int.natCast_nonneg s
          linarith

structure Inv (x : Expansion) (l : Loop) : Prop where
  reached : ∀ f ∈ l.offsets, Reached x f
  offset : x.offset ∈ l.offsets
  pending : ∀ f ∈ l.pending, f ∈ l.offsets ∧ f ∉ l.seen
  seen : l.seen ⊆ l.offsets
  once : x.offset ∈ l.pending ∨ ∀ s ∈ x.strides, x.initOffset + (x.offset + s) < x.maxLimit →
    x.offset + s ∈ l.offsets

theorem inv_start : Inv x x.start where
  reached f hf := by
    rw [Finset.mem_singleton.mp hf]
    exact .start
  offset := Finset.mem_singleton_self _
  pending f hf := ⟨hf, Finset.notMem_empty f⟩
  seen := Finset.empty_subset _
  once := .inl (Finset.mem_singleton_self _)

theorem Inv.step (hfits : x.Fits) (h : Inv x l) (hstep : x.Step l l') : Inv x l' := by
  cases hstep with
  | visit f hf hseen =>
      have hmem := mem_tryStrides (x := x) (f := f) l.offsets l.loopFlag
      have hkept : ∀ g ∈ l.offsets, g ∈ (x.tryStrides f l.offsets l.loopFlag).1 := fun g hg =>
        (hmem g).mpr (.inl hg)
      have hrange := (h.reached f hf).range hfits
      refine ⟨fun g hg => ?_, hkept _ h.offset, fun g hg => ?_, fun g hg => ?_, ?_⟩
      · rcases (hmem g).mp hg with hg | ⟨s, hs, rfl, hlimit⟩
        · exact h.reached g hg
        · by_cases hs0 : s = 0
          · rw [hs0, Nat.cast_zero, add_zero]
            exact h.reached f hf
          · exact .add f s (h.reached f hf) hs ((inLimit_iff hfits hrange hs hs0).mp hlimit).2
      · obtain ⟨hne, hg⟩ := Finset.mem_erase.mp hg
        obtain ⟨hoff, hnot⟩ := h.pending g hg
        exact ⟨hkept g hoff, fun hmem => (Finset.mem_insert.mp hmem).elim hne hnot⟩
      · rcases Finset.mem_insert.mp hg with rfl | hg
        · exact hkept _ hf
        · exact hkept g (h.seen hg)
      · by_cases hfo : f = x.offset
        · refine .inr fun s hs hlt => ?_
          by_cases hs0 : s = 0
          · rw [hs0, Nat.cast_zero, add_zero]
            exact hkept _ h.offset
          · rw [← hfo] at hlt ⊢
            refine (hmem _).mpr (.inr ⟨s, hs, rfl, (inLimit_iff hfits (.inl hfo) hs hs0).mpr ⟨?_, hlt⟩⟩)
            rw [hfo]
            exact ((hfits s hs).resolve_left hs0).1
        · exact h.once.imp (fun hpending => Finset.mem_erase.mpr ⟨Ne.symm hfo, hpending⟩)
            fun hall s hs hlt => hkept _ (hall s hs hlt)
  | again hpending hflag =>
      exact ⟨h.reached, h.offset, fun f hf => ⟨hf, Finset.notMem_empty f⟩, Finset.empty_subset _,
        .inl h.offset⟩

theorem Inv.run (hfits : x.Fits) (hrun : ReflTransGen x.Step x.start l) : Inv x l := by
  induction hrun with
  | refl => exact inv_start
  | tail _ hstep ih => exact ih.step hfits hstep

def bound (x : Expansion) : Finset APOffset :=
  insert x.offset ((Finset.range x.maxLimit).image fun n : ℕ => (n : APOffset) - x.initOffset)

theorem Inv.subset_bound (hfits : x.Fits) (h : Inv x l) : l.offsets ⊆ x.bound := by
  intro f hf
  rw [bound, Finset.mem_insert, Finset.mem_image]
  rcases (h.reached f hf).range hfits with heq | ⟨h0, hlt⟩
  · exact .inl heq
  · refine .inr ⟨(x.initOffset + f).toNat, Finset.mem_range.mpr ((Int.toNat_lt h0).mpr hlt), ?_⟩
    rw [Int.toNat_of_nonneg h0]
    exact add_sub_cancel_left _ _

def variant (x : Expansion) (l : Loop) : ℕ ×ₗ ℕ ×ₗ ℕ :=
  toLex (x.bound.card - l.offsets.card, toLex (l.loopFlag.toNat, x.bound.card - l.seen.card))

theorem variant_lt (hfits : x.Fits) (h : Inv x l) (hstep : x.Step l l') : x.variant l' < x.variant l := by
  have hinv := h.step hfits hstep
  cases hstep with
  | visit f hf hseen =>
      have hsub : l.offsets ⊆ (x.tryStrides f l.offsets l.loopFlag).1 := fun g hg =>
        (mem_tryStrides _ _ g).mpr (.inl hg)
      have hbound := Finset.card_le_card (hinv.subset_bound hfits)
      rw [variant, variant, Prod.Lex.toLex_lt_toLex]
      by_cases heq : (x.tryStrides f l.offsets l.loopFlag).1 = l.offsets
      · refine .inr ⟨by rw [heq], ?_⟩
        rw [Prod.Lex.toLex_lt_toLex]
        have hcard : (insert f l.seen).card = l.seen.card + 1 := Finset.card_insert_of_notMem hseen
        have hseenle := Finset.card_le_card (hinv.seen)
        change (insert f l.seen).card ≤ _ at hseenle
        have hlt : x.bound.card - (insert f l.seen).card < x.bound.card - l.seen.card := by
          rw [heq] at hseenle hbound
          omega
        cases hflag : (x.tryStrides f l.offsets l.loopFlag).2 with
        | true => exact .inr ⟨by rw [tryStrides_snd heq hflag], hlt⟩
        | false =>
            cases l.loopFlag with
            | true => exact .inl Nat.zero_lt_one
            | false => exact .inr ⟨rfl, hlt⟩
      · have hlt := Finset.card_lt_card (hsub.ssubset_of_ne (Ne.symm heq))
        have hle : (x.tryStrides f l.offsets l.loopFlag).1.card ≤ x.bound.card := hbound
        refine .inl ?_
        change x.bound.card - (x.tryStrides f l.offsets l.loopFlag).1.card < x.bound.card - l.offsets.card
        omega
  | again hpending hflag =>
      rw [variant, variant, Prod.Lex.toLex_lt_toLex]
      refine .inr ⟨rfl, ?_⟩
      rw [Prod.Lex.toLex_lt_toLex, hflag]
      exact .inl Nat.zero_lt_one

theorem no_infinite_run (hfits : x.Fits) :
    ¬ ∃ run : ℕ → Loop, run 0 = x.start ∧ ∀ n, x.Step (run n) (run (n + 1)) :=
  Util.Loops.no_infinite_run_of_lt (I := Inv x) (m := x.variant)
    (fun _ _ h hstep => ⟨h.step hfits hstep, variant_lt hfits h hstep⟩) inv_start

theorem done_or_step (h : Inv x l) : l.Done ∨ ∃ l', x.Step l l' := by
  by_cases hpending : l.pending = ∅
  · cases hflag : l.loopFlag with
    | false => exact .inl ⟨hpending, hflag⟩
    | true => exact .inr ⟨_, .again l hpending hflag⟩
  · obtain ⟨f, hf⟩ := Finset.nonempty_iff_ne_empty.mpr hpending
    exact .inr ⟨_, .visit l f (h.pending f hf).1 (h.pending f hf).2⟩

theorem exists_done (hfits : x.Fits) : ∃ l, ReflTransGen x.Step x.start l ∧ l.Done :=
  Util.Loops.exists_end_of_lt (I := Inv x) (m := x.variant)
    (fun _ _ h hstep => ⟨h.step hfits hstep, variant_lt hfits h hstep⟩) (fun _ h => done_or_step h)
    inv_start

section

variable {s : NodeID}

theorem tryStrides_new (hfits : x.Fits) (hs : s ∈ x.strides) (hne : s ≠ 0)
    (honly : ∀ s' ∈ x.strides, s' = 0 ∨ s' = s) {offsets : Finset APOffset} {loopFlag : Bool}
    (hoff : x.offset ∈ offsets) (hnew : x.offset + s ∉ offsets)
    (hlimit : x.initOffset + (x.offset + s) < x.maxLimit) :
    (x.tryStrides x.offset offsets loopFlag).2 = true := by
  obtain ⟨pre, post, hsplit⟩ := List.append_of_mem (show s ∈ x.strides.elems from hs)
  have hsorted := x.strides.sorted
  rw [hsplit, List.pairwise_append] at hsorted
  obtain ⟨-, htail, hcross⟩ := hsorted
  have hmem : ∀ s' ∈ pre ++ s :: post, s' ∈ x.strides := fun s' hs' =>
    show s' ∈ x.strides.elems from hsplit ▸ hs'
  -- the strides are in ascending order, so that this one is the last
  have hpre : ∀ s' ∈ pre, s' = 0 := by
    intro s' hs'
    have hlt : s' < s := hcross s' hs' s List.mem_cons_self
    exact (honly s' (hmem s' (List.mem_append_left _ hs'))).resolve_right hlt.ne
  have hpost : post = [] := by
    rw [List.eq_nil_iff_forall_not_mem]
    intro s' hs'
    have hlt : s < s' := (List.pairwise_cons.mp htail).1 s' hs'
    rcases honly s' (hmem s' (by simp [hs'])) with rfl | rfl
    · exact absurd hlt (Nat.not_lt_zero s)
    · exact lt_irrefl _ hlt
  rw [tryStrides, hsplit, hpost, List.foldl_append, List.foldl_cons, List.foldl_nil, tryStride, if_pos]
  refine ⟨fun hin => ?_, ?_⟩
  · rcases (mem_foldl_tryStride pre _ _).mp hin with hold | ⟨s', hs', heq, -⟩
    · exact hnew hold
    · rw [hpre s' hs', Nat.cast_zero, add_zero] at heq
      rw [heq] at hnew
      exact hnew hoff
  · exact (inLimit_iff hfits (.inl rfl) hs hne).mpr ⟨((hfits s hs).resolve_left hne).1, hlimit⟩

/-- The offsets of one stride that fits twice at most. -/
theorem Reached.twice (honly : ∀ s' ∈ x.strides, s' = 0 ∨ s' = s)
    (hlimit : x.maxLimit ≤ x.initOffset + (x.offset + 3 * s)) (h : Reached x f) :
    f = x.offset ∨ (s ∈ x.strides ∧ s ≠ 0 ∧ x.initOffset + f < x.maxLimit ∧
      (f = x.offset + s ∨ f = x.offset + 2 * s)) := by
  induction h with
  | start => exact .inl rfl
  | add f s' _ hs' hlt ih =>
      by_cases hzero : s' = 0
      · rw [hzero, Nat.cast_zero, add_zero]
        exact ih
      · obtain rfl := (honly s' hs').resolve_left hzero
        refine .inr ⟨hs', hzero, hlt, ?_⟩
        rcases ih with rfl | ⟨-, -, -, rfl | rfl⟩
        · exact .inl rfl
        · exact .inr (by ring)
        · exact absurd hlt (by linarith)

/-- After the one stride, there is something left to do until it has been added again. -/
structure Twice (x : Expansion) (s : NodeID) (l : Loop) : Prop where
  inv : Inv x l
  left : x.initOffset + (x.offset + 2 * s) < x.maxLimit → x.offset + s ∈ l.offsets →
    (l.loopFlag = true ∧ x.offset ∈ l.seen) ∨ x.offset + s ∈ l.pending ∨ x.offset + 2 * s ∈ l.offsets

theorem Twice.step (hfits : x.Fits) (hs : s ∈ x.strides) (hne : s ≠ 0)
    (honly : ∀ s' ∈ x.strides, s' = 0 ∨ s' = s)
    (hlimit : x.maxLimit ≤ x.initOffset + (x.offset + 3 * s)) (h : Twice x s l) (hstep : x.Step l l') :
    Twice x s l' := by
  refine ⟨h.inv.step hfits hstep, fun hlt hin => ?_⟩
  cases hstep with
  | visit f hf hseen =>
      have hmem := mem_tryStrides (x := x) (f := f) l.offsets l.loopFlag
      -- a visit of the offset after one stride adds the second
      have hsecond : f = x.offset + s → x.offset + 2 * s ∈ (x.tryStrides f l.offsets l.loopFlag).1 := by
        rintro rfl
        have heq : x.offset + 2 * s = x.offset + s + s := by ring
        have hrange := ((h.inv.reached _ hf).range hfits)
        obtain ⟨hlow, -, -⟩ := (hfits s hs).resolve_left hne
        have hcast : (0 : ℤ) ≤ s := Int.natCast_nonneg s
        rw [heq] at hlt ⊢
        exact (hmem _).mpr (.inr ⟨s, hs, rfl, (inLimit_iff hfits hrange hs hne).mpr ⟨by linarith, hlt⟩⟩)
      by_cases hone : x.offset + s ∈ l.offsets
      · rcases h.left hlt hone with ⟨-, hoff⟩ | hpending | htwo
        · have hfo : f ≠ x.offset := fun heq => hseen (heq ▸ hoff)
          rcases ((h.inv.reached f hf).twice honly hlimit).resolve_left hfo with ⟨-, -, -, heq | heq⟩
          · exact .inr (.inr (hsecond heq))
          · exact .inr (.inr ((hmem _).mpr (.inl (heq ▸ hf))))
        · by_cases heq : f = x.offset + s
          · exact .inr (.inr (hsecond heq))
          · exact .inr (.inl (Finset.mem_erase.mpr ⟨Ne.symm heq, hpending⟩))
        · exact .inr (.inr ((hmem _).mpr (.inl htwo)))
      · obtain ⟨s', hs', heq, -⟩ := ((hmem _).mp hin).resolve_left hone
        have hfo : x.offset = f := by
          rcases honly s' hs' with rfl | rfl
          · rw [Nat.cast_zero, add_zero] at heq
            exact absurd (heq ▸ hf) hone
          · exact add_right_cancel heq
        subst hfo
        have hcast : (0 : ℤ) ≤ s := Int.natCast_nonneg s
        exact .inl ⟨tryStrides_new hfits hs hne honly hf hone (by linarith), Finset.mem_insert_self _ _⟩
  | again hpending hflag => exact .inr (.inl hin)

theorem Twice.run (hfits : x.Fits) (hs : s ∈ x.strides) (hne : s ≠ 0)
    (honly : ∀ s' ∈ x.strides, s' = 0 ∨ s' = s)
    (hlimit : x.maxLimit ≤ x.initOffset + (x.offset + 3 * s))
    (hrun : ReflTransGen x.Step x.start l) : Twice x s l := by
  induction hrun with
  | refl =>
      refine ⟨inv_start, fun _ hin => ?_⟩
      have heq : x.offset + s = x.offset := Finset.mem_singleton.mp hin
      exact absurd (Int.natCast_eq_zero.mp (add_eq_left.mp heq)) hne
  | tail _ hstep ih => exact ih.step hfits hs hne honly hlimit hstep

/-- Where the strides are few, the loop does not end before it has all offsets. -/
theorem complete (hfits : x.Fits) (hshort : x.Short) (hrun : ReflTransGen x.Step x.start l)
    (hdone : l.Done) (h : Reached x f) : f ∈ l.offsets := by
  have hinv := Inv.run hfits hrun
  have honce : ∀ s ∈ x.strides, x.initOffset + (x.offset + s) < x.maxLimit → x.offset + s ∈ l.offsets := by
    refine hinv.once.resolve_left fun hin => ?_
    rw [hdone.1] at hin
    exact Finset.notMem_empty _ hin
  rcases hshort with hclosed | ⟨s, honly, hlimit⟩
  · have hone : f = x.offset ∨ ∃ s ∈ x.strides, f = x.offset + s ∧ x.initOffset + f < x.maxLimit := by
      induction h with
      | start => exact .inl rfl
      | add f s' _ hs' hlt ih =>
          rcases ih with rfl | ⟨s, hs, rfl, hlt'⟩
          · exact .inr ⟨s', hs', rfl, hlt⟩
          · rw [add_assoc, ← Nat.cast_add] at hlt ⊢
            rcases hclosed s hs s' hs' hlt' (by push_cast at hlt; linarith) with hzero | hmem
            · rw [hzero, Nat.cast_zero, add_zero]
              exact .inl rfl
            · exact .inr ⟨s + s', hmem, rfl, hlt⟩
    rcases hone with rfl | ⟨s, hs, rfl, hlt⟩
    · exact hinv.offset
    · exact honce s hs hlt
  · rcases h.twice honly hlimit with rfl | ⟨hs, hne, hlt, rfl | rfl⟩
    · exact hinv.offset
    · exact honce s hs hlt
    · have hcast : (0 : ℤ) ≤ s := Int.natCast_nonneg s
      have hone := honce s hs (by linarith)
      rcases (Twice.run hfits hs hne honly hlimit hrun).left hlt hone with ⟨hflag, -⟩ | hin | htwo
      · rw [hdone.2] at hflag
        contradiction
      · rw [hdone.1] at hin
        exact absurd hin (Finset.notMem_empty _)
      · exact htwo

end

end Expansion

end SVF.WPA.FieldExpand
