import Mathlib.Data.List.Induction
import SVF.MSSA.MemPartition
import SVF.Util.Partitions

namespace SVF.MSSA.Intersections

open Util.OrderedSets Util.Partitions MemPartition
open MemoryModel.PointsToSets (NodeID PointsTo mem_inter mem_intersectWithComplement
  contains_iff_subset intersects_iff eq_empty_iff notMem_empty)

variable {inters del new : PointsToList} {c x y copy : NodeBS} {L : List NodeBS} {o : NodeID}

theorem nodeBSKey_inj (h : nodeBSKey x = nodeBSKey y) : x = y := by
  apply MemoryModel.PointsToSets.ext
  intro n
  have helems : x.elems = y.elems := (Prod.ext_iff.mp (toLex.injective h)).2
  rw [← mem_elems, helems, mem_elems]

theorem mem_insert_iff (l : PointsToList) (x y : NodeBS) : y ∈ l.insert x ↔ y ∈ l ∨ y = x := by
  rw [mem_insert]
  constructor
  · exact Or.imp id And.left
  · intro h
    by_cases hy : y ∈ l
    · exact .inl hy
    · have hyx := h.resolve_left hy
      refine .inr ⟨hyx, fun z hz hkey => hy ?_⟩
      rw [hyx, ← nodeBSKey_inj hkey]
      exact hz

theorem mem_erase_iff (l : PointsToList) (x y : NodeBS) : y ∈ l.erase x ↔ y ∈ l ∧ y ≠ x := by
  rw [mem_erase]
  exact and_congr_right fun _ => ⟨fun h heq => h (congrArg nodeBSKey heq), fun h hkey =>
    h (nodeBSKey_inj hkey)⟩

theorem mem_foldl_insert (l : List NodeBS) (s : PointsToList) (y : NodeBS) :
    y ∈ l.foldl OrderedSet.insert s ↔ y ∈ s ∨ y ∈ l := by
  induction l generalizing s with
  | nil => simp
  | cons x l ih => rw [List.foldl_cons, ih, mem_insert_iff, List.mem_cons, or_assoc]

theorem mem_foldl_erase (l : List NodeBS) (s : PointsToList) (y : NodeBS) :
    y ∈ l.foldl OrderedSet.erase s ↔ y ∈ s ∧ y ∉ l := by
  induction l generalizing s with
  | nil => simp
  | cons x l ih => rw [List.foldl_cons, ih, mem_erase_iff, List.mem_cons, not_or, and_assoc]

theorem count_eq_one_iff (c : NodeBS) : c.count = 1 ↔ ∃ o, ∀ n, n ∈ c ↔ n = o := by
  rw [PointsTo.count, List.length_eq_one_iff]
  constructor
  · rintro ⟨o, ho⟩
    exact ⟨o, fun n => by rw [← mem_elems, ho, List.mem_singleton]⟩
  · rintro ⟨o, ho⟩
    refine ⟨o, (MemoryModel.PointsToSets.elems_eq_singleton_iff c o).mpr ⟨fun hnil => ?_, fun m =>
      (ho m).mp⟩⟩
    have hmem := (ho o).mpr rfl
    rw [← mem_elems, hnil] at hmem
    exact absurd hmem List.not_mem_nil

theorem inter_ne_iff : x.inter copy ≠ x ↔ ∃ o ∈ x, o ∉ copy := by
  constructor
  · intro hne
    by_contra hall
    simp only [not_exists, not_and, not_not] at hall
    refine hne (MemoryModel.PointsToSets.ext fun n => ?_)
    rw [mem_inter]
    exact and_iff_left_of_imp (hall n)
  · rintro ⟨o, ho, hnot⟩ heq
    rw [← heq, mem_inter] at ho
    exact hnot ho.2

theorem sdiff_inter : x.intersectWithComplement (x.inter copy) = x.intersectWithComplement copy := by
  refine MemoryModel.PointsToSets.ext fun n => ?_
  simp only [mem_intersectWithComplement, mem_inter, not_and]
  exact and_congr_right fun hn => ⟨fun h => h hn, fun h _ => h⟩

theorem sdiff_inter' : copy.intersectWithComplement (x.inter copy) =
    copy.intersectWithComplement x := by
  refine MemoryModel.PointsToSets.ext fun n => ?_
  simp only [mem_intersectWithComplement, mem_inter, not_and]
  exact and_congr_right fun hn => ⟨fun h hx => h hx hn, fun h hx => absurd hx h⟩

theorem interLoop_empty (del new : PointsToList) (L : List NodeBS) :
    interLoop ∅ del new L = (∅, del, new) := by
  induction L with
  | nil => rfl
  | cons x L ih =>
      have hnot : PointsTo.intersects ∅ x ≠ true := by
        rw [ne_eq, intersects_iff]
        rintro ⟨n, hn, -⟩
        exact notMem_empty n hn
      rw [interLoop, if_neg hnot, ih]

def cutDel (x copy : NodeBS) (del : PointsToList) : PointsToList :=
  if x.inter copy ≠ x then del.insert x else del

def cutNew (x copy : NodeBS) (new : PointsToList) : PointsToList :=
  if x.inter copy ≠ x then (new.insert (x.inter copy)).insert (x.intersectWithComplement copy)
  else new

/-- Leaving the loop early changes nothing: an empty copy meets no set. -/
theorem interLoop_cons : interLoop copy del new (x :: L) =
    if copy.intersects x = true then
      interLoop (copy.intersectWithComplement x) (cutDel x copy del) (cutNew x copy new) L
    else interLoop copy del new L := by
  rw [interLoop]
  split
  · dsimp only
    rw [sdiff_inter', sdiff_inter]
    have hnew : (if x.inter copy ≠ x then
        if x.intersectWithComplement copy ≠ ∅ then
          (new.insert (x.inter copy)).insert (x.intersectWithComplement copy)
        else new.insert (x.inter copy)
      else new) = cutNew x copy new := by
      rw [cutNew]
      split
      · rename_i hne
        obtain ⟨o, ho, hnot⟩ := inter_ne_iff.mp hne
        rw [if_pos]
        intro hempty
        exact (eq_empty_iff _).mp hempty o ((mem_intersectWithComplement x copy o).mpr ⟨ho, hnot⟩)
      · rfl
    rw [hnew]
    split
    · rename_i hempty
      rw [hempty, interLoop_empty]
      rfl
    · rfl
  · rfl

theorem mem_cutDel : y ∈ cutDel x copy del ↔ y ∈ del ∨ y = x ∧ ∃ o ∈ x, o ∉ copy := by
  rw [cutDel]
  split
  · rename_i h
    rw [mem_insert_iff, and_iff_left (inter_ne_iff.mp h)]
  · rename_i h
    rw [inter_ne_iff] at h
    simp [h]

theorem mem_cutNew : y ∈ cutNew x copy new ↔ y ∈ new ∨ (∃ o ∈ x, o ∉ copy) ∧
    (y = x.inter copy ∨ y = x.intersectWithComplement copy) := by
  rw [cutNew]
  split
  · rename_i h
    rw [mem_insert_iff, mem_insert_iff, and_iff_right (inter_ne_iff.mp h), or_assoc]
  · rename_i h
    rw [inter_ne_iff] at h
    simp [h]

structure Looped (copy : NodeBS) (del new : PointsToList) (L : List NodeBS)
    (r : NodeBS × PointsToList × PointsToList) : Prop where
  copy_sub : ∀ o ∈ r.1, o ∈ copy
  new_mono : ∀ y ∈ new, y ∈ r.2.2
  del_cut : ∀ x ∈ r.2.1, x ∈ del ∨ x ∈ L ∧ Covers (· ∈ r.2.2) x
  new_sub : ∀ y ∈ r.2.2, y ∈ new ∨ ∃ x ∈ L, ∀ o ∈ y, o ∈ x
  covered : ∀ o ∈ copy, o ∈ r.1 ∨ ∃ y, (y ∈ r.2.2 ∨ y ∈ L ∧ y ∉ r.2.1) ∧ o ∈ y ∧ ∀ b ∈ y, b ∈ copy

theorem looped (hnodup : L.Nodup) (hdel : ∀ x ∈ del, x ∉ L) :
    Looped copy del new L (interLoop copy del new L) := by
  induction L generalizing copy del new with
  | nil =>
      refine ⟨fun _ ho => ho, fun _ hy => hy, fun _ hx => .inl hx, fun _ hy => .inl hy,
        fun _ ho => .inl ho⟩
  | cons x L ih =>
      obtain ⟨hx, hL⟩ := List.nodup_cons.mp hnodup
      rw [interLoop_cons]
      split
      · have hdel' : ∀ z ∈ cutDel x copy del, z ∉ L := by
          intro z hz
          rcases mem_cutDel.mp hz with hz | ⟨rfl, -⟩
          · exact fun hzL => hdel z hz (List.mem_cons_of_mem _ hzL)
          · exact hx
        have h : Looped (copy.intersectWithComplement x) _ (cutNew x copy new) L _ := ih hL hdel'
        refine ⟨fun o ho => ?_, fun y hy => ?_, fun z hz => ?_, fun y hy => ?_, fun o ho => ?_⟩
        · exact ((mem_intersectWithComplement copy x o).mp (h.copy_sub o ho)).1
        · exact h.new_mono y (mem_cutNew.mpr (.inl hy))
        · rcases h.del_cut z hz with hz | ⟨hz, hcov⟩
          · rcases mem_cutDel.mp hz with hz | ⟨rfl, hcut⟩
            · exact .inl hz
            · refine .inr ⟨List.mem_cons_self, fun o ho => ?_⟩
              by_cases hoc : o ∈ copy
              · refine ⟨z.inter copy, h.new_mono _ (mem_cutNew.mpr (.inr ⟨hcut, .inl rfl⟩)), ?_, ?_⟩
                · exact (mem_inter z copy o).mpr ⟨ho, hoc⟩
                · exact fun b hb => ((mem_inter z copy b).mp hb).1
              · refine ⟨z.intersectWithComplement copy,
                  h.new_mono _ (mem_cutNew.mpr (.inr ⟨hcut, .inr rfl⟩)), ?_, ?_⟩
                · exact (mem_intersectWithComplement z copy o).mpr ⟨ho, hoc⟩
                · exact fun b hb => ((mem_intersectWithComplement z copy b).mp hb).1
          · exact .inr ⟨List.mem_cons_of_mem _ hz, hcov⟩
        · rcases h.new_sub y hy with hy | ⟨z, hz, hsub⟩
          · rcases mem_cutNew.mp hy with hy | ⟨-, rfl | rfl⟩
            · exact .inl hy
            · exact .inr ⟨x, List.mem_cons_self, fun o ho => ((mem_inter x copy o).mp ho).1⟩
            · exact .inr ⟨x, List.mem_cons_self, fun o ho =>
                ((mem_intersectWithComplement x copy o).mp ho).1⟩
          · exact .inr ⟨z, List.mem_cons_of_mem _ hz, hsub⟩
        · by_cases hox : o ∈ x
          · right
            by_cases hcut : ∃ b ∈ x, b ∉ copy
            · refine ⟨x.inter copy, .inl (h.new_mono _ (mem_cutNew.mpr (.inr ⟨hcut, .inl rfl⟩))),
                (mem_inter x copy o).mpr ⟨hox, ho⟩, fun b hb => ((mem_inter x copy b).mp hb).2⟩
            · -- The whole set lies in the copy, and stays.
              refine ⟨x, .inr ⟨List.mem_cons_self, fun hmem => ?_⟩, hox, fun b hb => ?_⟩
              · rcases h.del_cut x hmem with hmem | ⟨hmem, -⟩
                · rcases mem_cutDel.mp hmem with hmem | ⟨-, hcut'⟩
                  · exact hdel x hmem List.mem_cons_self
                  · exact hcut hcut'
                · exact hx hmem
              · by_contra hbc
                exact hcut ⟨b, hb, hbc⟩
          · rcases h.covered o ((mem_intersectWithComplement copy x o).mpr ⟨ho, hox⟩) with
              hleft | ⟨y, hy, hoy, hsub⟩
            · exact .inl hleft
            · refine .inr ⟨y, hy.imp id (And.imp_left (List.mem_cons_of_mem _)), hoy, fun b hb => ?_⟩
              exact ((mem_intersectWithComplement copy x b).mp (hsub b hb)).1
      · have h : Looped copy del new L _ :=
          ih hL (fun z hz hzL => hdel z hz (List.mem_cons_of_mem _ hzL))
        refine ⟨h.copy_sub, h.new_mono, fun z hz => ?_, fun y hy => ?_, fun o ho => ?_⟩
        · exact (h.del_cut z hz).imp id (And.imp_left (List.mem_cons_of_mem _))
        · rcases h.new_sub y hy with hy | ⟨z, hz, hsub⟩
          · exact .inl hy
          · exact .inr ⟨z, List.mem_cons_of_mem _ hz, hsub⟩
        · rcases h.covered o ho with hleft | ⟨y, hy, hrest⟩
          · exact .inl hleft
          · exact .inr ⟨y, hy.imp id (And.imp_left (List.mem_cons_of_mem _)), hrest⟩

theorem mem_computeIntersections (hmem : c ∉ inters) (hcount : c.count ≠ 1) :
    y ∈ computeIntersections c inters ↔
      (y ∈ inters ∧ y ∉ (interLoop c .empty .empty inters.elems).2.1 ∨
        y ∈ (interLoop c .empty .empty inters.elems).2.2) ∨
      (interLoop c .empty .empty inters.elems).1 ≠ ∅ ∧
        y = (interLoop c .empty .empty inters.elems).1 := by
  rw [computeIntersections, if_neg hmem, if_neg hcount]
  dsimp only
  split
  · rename_i hne
    rw [mem_insert_iff, mem_foldl_insert, mem_foldl_erase, mem_elems, mem_elems]
    simp [hne]
  · rename_i hne
    rw [mem_foldl_insert, mem_foldl_erase, mem_elems, mem_elems]
    simp [hne]

theorem looped_inters (c : NodeBS) (inters : PointsToList) :
    Looped c .empty .empty inters.elems (interLoop c .empty .empty inters.elems) :=
  looped (nodup_elems inters) fun x hx => absurd hx (not_mem_empty x)

/-- No set is lost: each is the union of sets that are there afterwards. -/
theorem covers_of_mem (hx : x ∈ inters) : Covers (· ∈ computeIntersections c inters) x := by
  by_cases hmem : c ∈ inters
  · rw [computeIntersections, if_pos hmem]
    exact covers_self hx
  · by_cases hcount : c.count = 1
    · rw [computeIntersections, if_neg hmem, if_pos hcount]
      exact covers_self ((mem_insert_iff _ _ _).mpr (.inl hx))
    · have h := looped_inters c inters
      by_cases hdel : x ∈ (interLoop c .empty .empty inters.elems).2.1
      · rcases h.del_cut x hdel with hnone | ⟨-, hcov⟩
        · exact absurd hnone (not_mem_empty x)
        · intro o ho
          obtain ⟨y, hy, hrest⟩ := hcov o ho
          exact ⟨y, (mem_computeIntersections hmem hcount).mpr (.inl (.inr hy)), hrest⟩
      · exact covers_self ((mem_computeIntersections hmem hcount).mpr (.inl (.inl ⟨hx, hdel⟩)))

theorem covers_computeIntersections (c : NodeBS) (inters : PointsToList) :
    Covers (· ∈ computeIntersections c inters) c := by
  by_cases hmem : c ∈ inters
  · rw [computeIntersections, if_pos hmem]
    exact covers_self hmem
  · by_cases hcount : c.count = 1
    · rw [computeIntersections, if_neg hmem, if_pos hcount]
      exact covers_self ((mem_insert_iff _ _ _).mpr (.inr rfl))
    · have h := looped_inters c inters
      intro o ho
      rcases h.covered o ho with hleft | ⟨y, hy, hrest⟩
      · refine ⟨_, (mem_computeIntersections hmem hcount).mpr (.inr ⟨?_, rfl⟩), hleft, h.copy_sub⟩
        intro hempty
        exact (eq_empty_iff _).mp hempty o hleft
      · refine ⟨y, (mem_computeIntersections hmem hcount).mpr (.inl ?_), hrest⟩
        rcases hy with hy | hy
        · exact .inr hy
        · exact .inl hy

/-- Every set lies in one that was there before, or in the new one. -/
theorem sub_of_mem_computeIntersections (hy : y ∈ computeIntersections c inters) :
    (∃ x ∈ inters, ∀ o ∈ y, o ∈ x) ∨ ∀ o ∈ y, o ∈ c := by
  by_cases hmem : c ∈ inters
  · rw [computeIntersections, if_pos hmem] at hy
    exact .inl ⟨y, hy, fun _ ho => ho⟩
  · by_cases hcount : c.count = 1
    · rw [computeIntersections, if_neg hmem, if_pos hcount] at hy
      rcases (mem_insert_iff _ _ _).mp hy with hy | rfl
      · exact .inl ⟨y, hy, fun _ ho => ho⟩
      · exact .inr fun _ ho => ho
    · have h := looped_inters c inters
      rcases (mem_computeIntersections hmem hcount).mp hy with (⟨hy, -⟩ | hy) | ⟨-, rfl⟩
      · exact .inl ⟨y, hy, fun _ ho => ho⟩
      · rcases h.new_sub y hy with hnone | hsub
        · exact absurd hnone (not_mem_empty y)
        · exact .inl hsub
      · exact .inr h.copy_sub

theorem computeAll_concat (l : List NodeBS) (inters : PointsToList) (c : NodeBS) :
    computeAll inters (l ++ [c]) = computeIntersections c (computeAll inters l) := by
  rw [computeAll, List.foldl_append]
  rfl

theorem covers_computeAll {l : List NodeBS} (hx : x ∈ inters ∨ x ∈ l) :
    Covers (· ∈ computeAll inters l) x := by
  induction l using List.reverseRecOn generalizing x with
  | nil => exact covers_self (hx.resolve_right List.not_mem_nil)
  | append_singleton l c ih =>
      rw [computeAll_concat]
      have hold : x ∈ inters ∨ x ∈ l → Covers (· ∈ computeIntersections c (computeAll inters l)) x :=
        fun h => (ih h).trans fun y hy => covers_of_mem hy
      rcases hx with hx | hx
      · exact hold (.inl hx)
      · rcases List.mem_append.mp hx with hx | hx
        · exact hold (.inr hx)
        · rw [List.mem_singleton.mp hx]
          exact covers_computeIntersections c _

theorem sub_of_mem_computeAll {l : List NodeBS} (hy : y ∈ computeAll .empty l) :
    ∃ x ∈ l, ∀ o ∈ y, o ∈ x := by
  induction l using List.reverseRecOn generalizing y with
  | nil => exact absurd hy (not_mem_empty y)
  | append_singleton l c ih =>
      rw [computeAll_concat] at hy
      rcases sub_of_mem_computeIntersections hy with ⟨x, hx, hyx⟩ | hyc
      · obtain ⟨z, hz, hxz⟩ := ih hx
        exact ⟨z, List.mem_append_left _ hz, fun o ho => hxz o (hyx o ho)⟩
      · exact ⟨c, by simp, hyc⟩

def Apart (inters : PointsToList) : Prop := ∀ x ∈ inters, ∀ y ∈ inters, ∀ o ∈ x, o ∈ y → x = y

structure Cut (copy : NodeBS) (del new : PointsToList) (L : List NodeBS)
    (r : NodeBS × PointsToList × PointsToList) : Prop where
  copy_iff : ∀ o, o ∈ r.1 ↔ o ∈ copy ∧ ∀ x ∈ L, o ∉ x
  del_iff : ∀ x, x ∈ r.2.1 ↔ x ∈ del ∨ x ∈ L ∧ (∃ o ∈ x, o ∈ copy) ∧ ∃ o ∈ x, o ∉ copy
  new_iff : ∀ y, y ∈ r.2.2 ↔ y ∈ new ∨ ∃ x ∈ L, (∃ o ∈ x, o ∈ copy) ∧ (∃ o ∈ x, o ∉ copy) ∧
    (y = x.inter copy ∨ y = x.intersectWithComplement copy)

/-- Taking away a set that shares nothing with `z` leaves the same of `z`. -/
theorem cut_apart (copy : NodeBS) {z : NodeBS} (h : ∀ o ∈ x, o ∉ z) :
    ((∃ o ∈ z, o ∈ copy.intersectWithComplement x) ↔ ∃ o ∈ z, o ∈ copy) ∧
    ((∃ o ∈ z, o ∉ copy.intersectWithComplement x) ↔ ∃ o ∈ z, o ∉ copy) ∧
    z.inter (copy.intersectWithComplement x) = z.inter copy ∧
    z.intersectWithComplement (copy.intersectWithComplement x) = z.intersectWithComplement copy := by
  have hmem : ∀ o ∈ z, (o ∈ copy.intersectWithComplement x ↔ o ∈ copy) := by
    intro o ho
    rw [mem_intersectWithComplement]
    exact and_iff_left fun hx => h o hx ho
  refine ⟨?_, ?_, ?_, ?_⟩
  · exact exists_congr fun o => and_congr_right (hmem o)
  · exact exists_congr fun o => and_congr_right fun ho => not_congr (hmem o ho)
  · refine MemoryModel.PointsToSets.ext fun o => ?_
    rw [mem_inter, mem_inter]
    exact and_congr_right (hmem o)
  · refine MemoryModel.PointsToSets.ext fun o => ?_
    rw [mem_intersectWithComplement, mem_intersectWithComplement (t := copy)]
    exact and_congr_right fun ho => not_congr (hmem o ho)

theorem cut (hdis : L.Pairwise fun x y => ∀ o ∈ x, o ∉ y) :
    Cut copy del new L (interLoop copy del new L) := by
  induction L generalizing copy del new with
  | nil =>
      refine ⟨fun o => ?_, fun x => ?_, fun y => ?_⟩
      · exact (and_iff_left fun x hx => absurd hx List.not_mem_nil).symm
      · exact (or_iff_left fun h => absurd h.1 List.not_mem_nil).symm
      · exact (or_iff_left fun ⟨x, hx, _⟩ => absurd hx List.not_mem_nil).symm
  | cons x L ih =>
      obtain ⟨hx, hL⟩ := List.pairwise_cons.mp hdis
      rw [interLoop_cons]
      split
      · rename_i hmeet
        obtain ⟨n, hnc, hnx⟩ := (intersects_iff _ _).mp hmeet
        have h : Cut (copy.intersectWithComplement x) (cutDel x copy del) (cutNew x copy new) L _ :=
          ih hL
        refine ⟨fun o => ?_, fun z => ?_, fun y => ?_⟩
        · rw [h.copy_iff, mem_intersectWithComplement, List.forall_mem_cons, and_assoc]
        · rw [h.del_iff, mem_cutDel, List.mem_cons, or_assoc]
          apply or_congr_right
          rw [or_and_right]
          apply or_congr
          · constructor
            · rintro ⟨rfl, hcut⟩
              exact ⟨rfl, ⟨n, hnx, hnc⟩, hcut⟩
            · rintro ⟨rfl, -, hcut⟩
              exact ⟨rfl, hcut⟩
          · apply and_congr_right
            intro hz
            obtain ⟨hin, hout, -, -⟩ := cut_apart copy (hx z hz)
            rw [hin, hout]
        · rw [h.new_iff, mem_cutNew, or_assoc]
          apply or_congr_right
          constructor
          · rintro (⟨hcut, hy⟩ | ⟨z, hz, hin, hout, hy⟩)
            · exact ⟨x, List.mem_cons_self, ⟨n, hnx, hnc⟩, hcut, hy⟩
            · obtain ⟨hin', hout', hinter, hdiff⟩ := cut_apart copy (hx z hz)
              rw [hinter, hdiff] at hy
              exact ⟨z, List.mem_cons_of_mem _ hz, hin'.mp hin, hout'.mp hout, hy⟩
          · rintro ⟨z, hz, hin, hout, hy⟩
            rcases List.mem_cons.mp hz with rfl | hz
            · exact .inl ⟨hout, hy⟩
            · obtain ⟨hin', hout', hinter, hdiff⟩ := cut_apart copy (hx z hz)
              rw [← hinter, ← hdiff] at hy
              exact .inr ⟨z, hz, hin'.mpr hin, hout'.mpr hout, hy⟩
      · rename_i hmeet
        have hno : ∀ o ∈ x, o ∉ copy := fun o ho hoc => hmeet ((intersects_iff _ _).mpr ⟨o, hoc, ho⟩)
        have h : Cut copy del new L _ := ih hL
        refine ⟨fun o => ?_, fun z => ?_, fun y => ?_⟩
        · rw [h.copy_iff, List.forall_mem_cons]
          exact and_congr_right fun hoc => (and_iff_right fun hox => hno o hox hoc).symm
        · rw [h.del_iff, List.mem_cons, or_and_right]
          apply or_congr_right
          rw [or_iff_right]
          rintro ⟨rfl, ⟨o, ho, hoc⟩, -⟩
          exact hno o ho hoc
        · rw [h.new_iff, List.exists_mem_cons_iff]
          apply or_congr_right
          rw [or_iff_right]
          rintro ⟨⟨o, ho, hoc⟩, -⟩
          exact hno o ho hoc

theorem Apart.pairwise (h : Apart inters) :
    inters.elems.Pairwise fun x y => ∀ o ∈ x, o ∉ y := by
  apply inters.sorted.imp_of_mem
  intro x y hx hy hlt o hox hoy
  exact hlt.ne (congrArg nodeBSKey (h x hx y hy o hox hoy))

theorem apart_of_atoms {pre : List NodeBS} (h : @Atoms NodeID _ _ pre (· ∈ inters)) :
    Apart inters :=
  fun _ hx _ hy _ hox hoy => MemoryModel.PointsToSets.ext fun _ => h.same hx hy hox hoy

/-- The sets stay the atoms of what has been passed, unless a singleton is put beside
a larger set with its element. -/
theorem atoms_computeIntersections {pre : List NodeBS}
    (h : @Atoms NodeID _ _ pre (· ∈ inters))
    (hcount : c.count = 1 → ∀ x ∈ inters, ∀ o ∈ x, o ∈ c → x = c) :
    @Atoms NodeID _ _ (pre ++ [c]) (· ∈ computeIntersections c inters) := by
  by_cases hmem : c ∈ inters
  · rw [computeIntersections, if_pos hmem]
    exact h.cut_self hmem
  · by_cases hone : c.count = 1
    · have hfresh : ∀ o ∈ c, ∀ x ∈ inters, o ∉ x :=
        fun o ho x hx hox => hmem (hcount hone x hx o hox ho ▸ hx)
      obtain ⟨n, hn⟩ := (count_eq_one_iff c).mp hone
      rw [computeIntersections, if_neg hmem, if_pos hone]
      apply h.cut
      · intro y hy
        rcases (mem_insert_iff _ _ _).mp hy with hy | rfl
        · exact h.nonempty y hy
        · exact ⟨n, (hn n).mpr rfl⟩
      · intro y hy
        rcases (mem_insert_iff _ _ _).mp hy with hy | rfl
        · refine .inl ⟨y, hy, .inr fun o => ?_⟩
          exact (and_iff_left_of_imp fun hoy hoc => hfresh o hoc y hy hoy).symm
        · exact .inr fun o => (and_iff_left_of_imp fun ho => hfresh o ho).symm
      · rintro o (⟨x, hx, hox⟩ | hoc)
        · exact ⟨x, (mem_insert_iff _ _ _).mpr (.inl hx), hox⟩
        · exact ⟨c, (mem_insert_iff _ _ _).mpr (.inr rfl), hoc⟩
    · have hcut : Cut c .empty .empty inters.elems _ := cut (apart_of_atoms h).pairwise
      have hstep := fun y => mem_computeIntersections (y := y) hmem hone
      apply h.cut
      · intro y hy
        rcases (hstep y).mp hy with (⟨hy, -⟩ | hy) | ⟨hne, rfl⟩
        · exact h.nonempty y hy
        · rcases (hcut.new_iff y).mp hy with hnone | ⟨x, -, ⟨i, hix, hic⟩, ⟨j, hjx, hjc⟩, rfl | rfl⟩
          · exact absurd hnone (not_mem_empty y)
          · exact ⟨i, (mem_inter x c i).mpr ⟨hix, hic⟩⟩
          · exact ⟨j, (mem_intersectWithComplement x c j).mpr ⟨hjx, hjc⟩⟩
        · by_contra hnone
          exact hne ((eq_empty_iff _).mpr fun o ho => hnone ⟨o, ho⟩)
      · intro y hy
        rcases (hstep y).mp hy with (⟨hy, hdel⟩ | hy) | ⟨-, rfl⟩
        · refine .inl ⟨y, hy, ?_⟩
          by_cases hmeet : ∃ o ∈ y, o ∈ c
          · -- A set that is met and stays lies inside.
            refine .inl fun o => (and_iff_left_of_imp fun hoy => ?_).symm
            by_contra hoc
            exact hdel ((hcut.del_iff y).mpr (.inr ⟨hy, hmeet, o, hoy, hoc⟩))
          · simp only [not_exists, not_and] at hmeet
            exact .inr fun o => (and_iff_left_of_imp (hmeet o)).symm
        · rcases (hcut.new_iff y).mp hy with hnone | ⟨x, hx, -, -, rfl | rfl⟩
          · exact absurd hnone (not_mem_empty y)
          · exact .inl ⟨x, hx, .inl (mem_inter x c)⟩
          · exact .inl ⟨x, hx, .inr (mem_intersectWithComplement x c)⟩
        · exact .inr hcut.copy_iff
      · rintro o (⟨x, hx, hox⟩ | hoc)
        · obtain ⟨y, hy, hoy, -⟩ := covers_of_mem (c := c) hx o hox
          exact ⟨y, hy, hoy⟩
        · obtain ⟨y, hy, hoy, -⟩ := covers_computeIntersections c inters o hoc
          exact ⟨y, hy, hoy⟩

/-- A singleton comes only when the sets before it do not have its object, or tell
it apart from every other one. -/
def SingletonsApart (l : List NodeBS) : Prop :=
  ∀ pre c post, l = pre ++ c :: post → c.count = 1 → ∀ o ∈ c, (∃ d ∈ pre, o ∈ d) →
    ∀ b, b ≠ o → ¬ SameSide pre o b

theorem SingletonsApart.prefix {l l' : List NodeBS} (h : SingletonsApart (l ++ l')) :
    SingletonsApart l := by
  intro pre c post hl
  exact h pre c (post ++ l') (by rw [hl]; simp)

/-- When it does, every set with the object is the singleton. -/
theorem eq_singleton_of_apart {pre : List NodeBS} (h : @Atoms NodeID _ _ pre (· ∈ inters))
    {post : List NodeBS} (happart : SingletonsApart (pre ++ c :: post)) (hcount : c.count = 1)
    (hx : x ∈ inters) (hox : o ∈ x) (hoc : o ∈ c) : x = c := by
  obtain ⟨n, hn⟩ := (count_eq_one_iff c).mp hcount
  have hon : o = n := (hn o).mp hoc
  subst hon
  have hbefore := (h.cover o).mpr ⟨x, hx, hox⟩
  refine MemoryModel.PointsToSets.ext fun b => ?_
  rw [hn b]
  constructor
  · intro hb
    by_contra hne
    exact happart pre c post rfl hcount o hoc hbefore b hne ((h.atom x hx o hox b).mp hb)
  · rintro rfl
    exact hox

theorem atoms_computeAll {l : List NodeBS} (h : SingletonsApart l) :
    @Atoms NodeID _ _ l (· ∈ computeAll .empty l) := by
  induction l using List.reverseRecOn with
  | nil => exact atoms_nil not_mem_empty
  | append_singleton l c ih =>
      rw [computeAll_concat]
      have hl := ih h.prefix
      apply atoms_computeIntersections hl
      intro hcount x hx o hox hoc
      exact eq_singleton_of_apart hl h hcount hx hox hoc

theorem apart_iff (l : List NodeBS) :
    (∀ pre, pre <+: l → Apart (computeAll .empty pre)) ↔ SingletonsApart l := by
  constructor
  · intro h
    have hatoms : ∀ pre, pre <+: l → @Atoms NodeID _ _ pre (· ∈ computeAll .empty pre) := by
      intro pre
      induction pre using List.reverseRecOn with
      | nil => exact fun _ => atoms_nil not_mem_empty
      | append_singleton pre c ih =>
          intro hpre
          have hl := ih ((List.prefix_append pre [c]).trans hpre)
          have hapart := h _ hpre
          rw [computeAll_concat] at hapart ⊢
          apply atoms_computeIntersections hl
          intro hcount x hx o hox hoc
          by_cases hmem : c ∈ computeAll .empty pre
          · exact apart_of_atoms hl x hx c hmem o hox hoc
          · rw [computeIntersections, if_neg hmem, if_pos hcount] at hapart
            exact hapart x ((mem_insert_iff _ _ _).mpr (.inl hx)) c
              ((mem_insert_iff _ _ _).mpr (.inr rfl)) o hox hoc
    intro pre c post hl hcount o hoc hbefore b hb hsame
    have hpre : pre <+: l := ⟨c :: post, hl.symm⟩
    obtain ⟨x, hx, hox⟩ := ((hatoms pre hpre).cover o).mp hbefore
    have hbx : b ∈ x := ((hatoms pre hpre).atom x hx o hox b).mpr hsame
    have hbc : b ∉ c := by
      obtain ⟨n, hn⟩ := (count_eq_one_iff c).mp hcount
      rw [hn b, ← (hn o).mp hoc]
      exact hb
    have hne : x ≠ c := fun heq => hbc (heq ▸ hbx)
    have hmem : c ∉ computeAll .empty pre :=
      fun hmem => hne (apart_of_atoms (hatoms pre hpre) x hx c hmem o hox hoc)
    have hapart := h (pre ++ [c]) ⟨post, by rw [hl]; simp⟩
    rw [computeAll_concat, computeIntersections, if_neg hmem, if_pos hcount] at hapart
    exact hne (hapart x ((mem_insert_iff _ _ _).mpr (.inl hx)) c
      ((mem_insert_iff _ _ _).mpr (.inr rfl)) o hox hoc)
  · intro h pre hpre
    obtain ⟨post, rfl⟩ := hpre
    exact apart_of_atoms (atoms_computeAll h.prefix)

/-- In the order of one function's list the singletons come first. -/
theorem singletonsApart_elems (l : PointsToList) : SingletonsApart l.elems := by
  intro pre c post hl hcount o hoc ⟨d, hd, hod⟩
  exfalso
  have hsorted := l.sorted
  rw [hl, List.pairwise_append] at hsorted
  have hlt : nodeBSKey d < nodeBSKey c := hsorted.2.2 d hd c List.mem_cons_self
  obtain ⟨n, hn⟩ := (count_eq_one_iff c).mp hcount
  have hle : d.count ≤ 1 := by
    rw [← hcount]
    rcases Prod.Lex.toLex_lt_toLex.mp hlt with hlt | ⟨heq, -⟩
    · exact hlt.le
    · exact heq.le
  have hpos : 0 < d.elems.length := List.length_pos_of_mem hod
  obtain ⟨k, hk⟩ := (count_eq_one_iff d).mp (le_antisymm hle hpos)
  apply hlt.ne
  congr 1
  refine MemoryModel.PointsToSets.ext fun b => ?_
  rw [hn, hk, ← (hn o).mp hoc, ← (hk o).mp hod]

end SVF.MSSA.Intersections
