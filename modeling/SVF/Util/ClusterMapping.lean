import SVF.Util.Clusterer
import SVF.Util.Dendrograms
import SVF.Util.Folds

namespace SVF.Util.ClusterMapping

open DefaultMaps NodeIDs ObjectRegions Clusterer Dendrograms

section

structure Numbered (numObjects : ℕ) (done : List NodeID) (a : Allocation) : Prop where
  length_eq : a.nodeMap.length = numObjects
  lt : ∀ o ∈ done, entry a.nodeMap o < a.allocCounter
  inj : ∀ o ∈ done, ∀ o' ∈ done, entry a.nodeMap o = entry a.nodeMap o' → o = o'

theorem numbered_init (numObjects : ℕ) : Numbered numObjects [] ⟨List.replicate numObjects UINT_MAX, 0⟩ :=
  ⟨List.length_replicate, by simp, by simp⟩

variable {numObjects : ℕ} {done : List NodeID} {a : Allocation}

theorem Numbered.mono (h : Numbered numObjects done a) {done' : List NodeID} (hsub : ∀ o ∈ done', o ∈ done) :
    Numbered numObjects done' a :=
  ⟨h.length_eq, fun o ho => h.lt o (hsub o ho), fun o ho o' ho' => h.inj o (hsub o ho) o' (hsub o' ho')⟩

theorem Numbered.skip (h : Numbered numObjects done a) {c : ℕ} (hc : a.allocCounter ≤ c) :
    Numbered numObjects done { a with allocCounter := c } :=
  ⟨h.length_eq, fun o ho => (h.lt o ho).trans_le hc, h.inj⟩

theorem Numbered.assign (h : Numbered numObjects done a) {o : NodeID} (ho : o < numObjects) (hnew : o ∉ done)
    (hc : a.allocCounter < UINT_MAX) : Numbered numObjects (o :: done) (a.assign o) := by
  have hlen : o < a.nodeMap.length := h.length_eq.symm ▸ ho
  have hself : entry (a.assign o).nodeMap o = a.allocCounter := by
    rw [Allocation.assign, entry_set hlen, if_pos rfl]
  have hother : ∀ m ∈ done, entry (a.assign o).nodeMap m = entry a.nodeMap m := by
    intro m hm
    have hmo : m ≠ o := fun heq => hnew (heq ▸ hm)
    rw [Allocation.assign, entry_set hlen, if_neg hmo]
  have hcounter : (a.assign o).allocCounter = a.allocCounter + 1 := incr_of_lt hc
  refine ⟨(List.length_set).trans h.length_eq, ?_, ?_⟩
  · intro m hm
    rw [hcounter]
    rcases List.mem_cons.mp hm with rfl | hm
    · rw [hself]
      exact Nat.lt_succ_self _
    · rw [hother m hm]
      exact (h.lt m hm).trans (Nat.lt_succ_self _)
  · intro m hm m' hm' heq
    rcases List.mem_cons.mp hm with rfl | hmd <;> rcases List.mem_cons.mp hm' with hmo | hmd'
    · exact hmo.symm
    · rw [hself, hother m' hmd'] at heq
      exact absurd heq (h.lt m' hmd').ne'
    · rw [hmo, hself, hother m hmd] at heq
      exact absurd heq (h.lt m hmd).ne
    · rw [hother m hmd, hother m' hmd'] at heq
      exact h.inj m hmd m' hmd' heq

theorem Numbered.assignAll (h : Numbered numObjects done a) {os : List NodeID} (hnodup : os.Nodup)
    (hlt : ∀ o ∈ os, o < numObjects) (hnew : ∀ o ∈ os, o ∉ done)
    (hc : a.allocCounter + os.length ≤ UINT_MAX) :
    Numbered numObjects (os ++ done) (os.foldl Allocation.assign a) ∧
      (os.foldl Allocation.assign a).allocCounter = a.allocCounter + os.length := by
  induction os generalizing done a with
  | nil => exact ⟨h, rfl⟩
  | cons o os ih =>
      obtain ⟨ho, hrest⟩ := List.forall_mem_cons.mp hlt
      obtain ⟨hdone, hnew⟩ := List.forall_mem_cons.mp hnew
      obtain ⟨hnot, hnodup⟩ := List.nodup_cons.mp hnodup
      rw [List.length_cons] at hc ⊢
      have hcounter : (a.assign o).allocCounter = a.allocCounter + 1 := incr_of_lt (by omega)
      have hfresh : ∀ m ∈ os, m ∉ o :: done := by
        intro m hm hmem
        rcases List.mem_cons.mp hmem with rfl | hmem
        · exact hnot hm
        · exact hnew m hm hmem
      obtain ⟨hnum, hcount⟩ := ih (h.assign ho hdone (by omega)) hnodup hrest hfresh (by omega)
      rw [List.foldl_cons]
      refine ⟨hnum.mono fun m hm => ?_, by omega⟩
      simp only [List.cons_append, List.mem_cons, List.mem_append] at hm ⊢
      tauto

end

section

variable {n : ℕ} {merge : List ℤ} {objs : List NodeID} {t t' t₁ t₂ : Traversal} {leaves leaves₁ leaves₂ : List ℕ}

def Reached (t' : Traversal) (leaves : List ℕ) (e : ℤ) : Prop :=
  (e < 0 → e.natAbs ∈ leaves) ∧ (0 < e → e.toNat ∈ t'.visited)

/-- The atoms `leaves` are numbered in their order, each of them at a row that has
been entered since `t` or at the entry `e` from which the traversal started. -/
structure Traversed (n : ℕ) (merge : List ℤ) (objs : List NodeID) (start : Option ℤ) (t t' : Traversal)
    (leaves : List ℕ) : Prop where
  alloc : t'.alloc = (leaves.map fun k => objs.getD (k - 1) 0).foldl Allocation.assign t.alloc
  nodup : leaves.Nodup
  mono : ∀ j ∈ t.visited, j ∈ t'.visited
  owned : ∀ k ∈ leaves, start = some (-(k : ℤ)) ∨
    ∃ j ∈ t'.visited, j ∉ t.visited ∧ EntryOf n merge j (-(k : ℤ))
  closed : ∀ j ∈ t'.visited, j ∉ t.visited → ∀ e, EntryOf n merge j e → Reached t' leaves e

theorem Traversed.refl (n : ℕ) (merge : List ℤ) (objs : List NodeID) (t : Traversal) :
    Traversed n merge objs none t t [] :=
  ⟨rfl, List.nodup_nil, fun _ => id, by simp, fun _ hj hnj => absurd hj hnj⟩

theorem placeLeaf_spec (hlen : objs.length = n) {e : ℤ} (he : e < 0) (hn : -(n : ℤ) ≤ e) (t : Traversal) :
    ∃ t', placeLeaf objs e t = some t' ∧ Traversed n merge objs (some e) t t' [e.natAbs] ∧
      Reached t' [e.natAbs] e := by
  have hlt : e.natAbs - 1 < objs.length := by omega
  refine ⟨{ t with alloc := t.alloc.assign objs[e.natAbs - 1] }, ?_, ?_, ?_⟩
  · rw [placeLeaf, List.getElem?_eq_getElem hlt]
    rfl
  · refine {
      alloc := ?_
      nodup := List.nodup_singleton _
      mono := fun _ => id
      owned := ?_
      closed := fun _ hj hnj => absurd hj hnj }
    · rw [List.map_singleton, List.getD_eq_getElem?_getD, List.getElem?_eq_getElem hlt]
      rfl
    · intro k hk
      refine .inl (congrArg some ?_)
      rw [List.mem_singleton] at hk
      omega
  · exact ⟨fun _ => List.mem_singleton_self _, fun hpos => by omega⟩

theorem Traversed.append (hm : IsMergeMatrix n merge) {i : ℕ} (hi : 1 ≤ i) (hin : i < n) {l r : ℤ}
    (hl : merge[i - 1]? = some l) (hr : merge[n - 1 + i - 1]? = some r) (hnew : i ∉ t.visited)
    (h₁ : Traversed n merge objs (some l) { t with visited := i :: t.visited } t₁ leaves₁)
    (hreach₁ : Reached t₁ leaves₁ l) (h₂ : Traversed n merge objs (some r) t₁ t₂ leaves₂)
    (hreach₂ : Reached t₂ leaves₂ r) : Traversed n merge objs none t t₂ (leaves₁ ++ leaves₂) := by
  have hentry : ∀ e, EntryOf n merge i e → e = l ∨ e = r := by
    rintro e ⟨-, -, he | he⟩
    · exact .inl (Option.some.inj (he.symm.trans hl))
    · exact .inr (Option.some.inj (he.symm.trans hr))
  have hel : EntryOf n merge i l := ⟨hi, hin, .inl hl⟩
  have her : EntryOf n merge i r := ⟨hi, hin, .inr hr⟩
  have hi₁ : i ∈ t₁.visited := h₁.mono i List.mem_cons_self
  have hweak : ∀ e, Reached t₁ leaves₁ e → Reached t₂ (leaves₁ ++ leaves₂) e :=
    fun e he => ⟨fun hneg => List.mem_append_left _ (he.1 hneg), fun hpos => h₂.mono _ (he.2 hpos)⟩
  have hweak₂ : ∀ e, Reached t₂ leaves₂ e → Reached t₂ (leaves₁ ++ leaves₂) e :=
    fun e he => ⟨fun hneg => List.mem_append_right _ (he.1 hneg), he.2⟩
  refine {
    alloc := ?_
    nodup := ?_
    mono := fun j hj => h₂.mono j (h₁.mono j (List.mem_cons_of_mem i hj))
    owned := ?_
    closed := ?_ }
  · rw [h₂.alloc, h₁.alloc, List.map_append, List.foldl_append]
  · refine List.nodup_append.mpr ⟨h₁.nodup, h₂.nodup, fun k hk k' hk' heq => ?_⟩
    subst heq
    -- The one entry of the atom would be in two rows or in two columns.
    rcases h₁.owned k hk with hlk | ⟨j, hj, hjt, hjk⟩ <;> rcases h₂.owned k hk' with hrk | ⟨j', hj', hjt', hjk'⟩
    · exact hm.left_ne_right hi hin hl hr ((Option.some.inj hlk).trans (Option.some.inj hrk).symm)
    · rw [Option.some.inj hlk] at hel
      exact hjt' (hm.entry_unique hel hjk' ▸ hi₁)
    · rw [Option.some.inj hrk] at her
      exact hjt (hm.entry_unique her hjk ▸ List.mem_cons_self)
    · exact hjt' (hm.entry_unique hjk hjk' ▸ hj)
  · intro k hk
    rcases List.mem_append.mp hk with hk | hk
    · rcases h₁.owned k hk with hlk | ⟨j, hj, hjt, hjk⟩
      · exact .inr ⟨i, h₂.mono i hi₁, hnew, Option.some.inj hlk ▸ hel⟩
      · exact .inr ⟨j, h₂.mono j hj, fun hjt' => hjt (List.mem_cons_of_mem i hjt'), hjk⟩
    · rcases h₂.owned k hk with hrk | ⟨j, hj, hjt, hjk⟩
      · exact .inr ⟨i, h₂.mono i hi₁, hnew, Option.some.inj hrk ▸ her⟩
      · exact .inr ⟨j, hj, fun hjt' => hjt (h₁.mono j (List.mem_cons_of_mem i hjt')), hjk⟩
  · intro j hj hjt e he
    by_cases hj₁ : j ∈ t₁.visited
    · by_cases hji : j = i
      · subst hji
        rcases hentry e he with rfl | rfl
        · exact hweak _ hreach₁
        · exact hweak₂ _ hreach₂
      · exact hweak e (h₁.closed j hj₁ (fun hmem => (List.mem_cons.mp hmem).elim hji hjt) e he)
    · exact hweak₂ e (h₂.closed j hj hj₁ e he)

theorem traverseDendrogram_spec (hm : IsMergeMatrix n merge) (hlen : objs.length = n) {fuel i : ℕ} (hi : 1 ≤ i)
    (hin : i < n) (hfuel : i ≤ fuel) (t : Traversal) :
    ∃ t' leaves, traverseDendrogram merge n objs fuel i t = some t' ∧
      Traversed n merge objs none t t' leaves ∧ i ∈ t'.visited := by
  induction fuel generalizing i t with
  | zero => omega
  | succ fuel ih =>
      obtain ⟨i, rfl⟩ : ∃ i', i = i' + 1 := ⟨i - 1, by omega⟩
      rw [traverseDendrogram]
      by_cases hvis : i + 1 ∈ t.visited
      · rw [if_pos hvis]
        exact ⟨t, [], rfl, .refl n merge objs t, hvis⟩
      · rw [if_neg hvis]
        have hchild : ∀ (e : ℤ) (t : Traversal), EntryOf n merge (i + 1) e →
            ∃ t' leaves, (if e < 0 then placeLeaf objs e t
              else traverseDendrogram merge n objs fuel e.toNat t) = some t' ∧
              Traversed n merge objs (some e) t t' leaves ∧ Reached t' leaves e := by
          intro e t he
          have hne := hm.entry_ne he
          have hlt := hm.earlier he
          by_cases hneg : e < 0
          · rw [if_pos hneg]
            obtain ⟨t', ht', htrav, hreach⟩ := placeLeaf_spec hlen hneg (hm.atom_le he) t
            exact ⟨t', _, ht', htrav, hreach⟩
          · rw [if_neg hneg]
            obtain ⟨t', leaves, ht', htrav, hmem⟩ := ih (i := e.toNat) (by omega) (by omega) (by omega) t
            refine ⟨t', leaves, ht', { htrav with owned := fun k hk => ?_ }, fun h => absurd h hneg, fun _ => hmem⟩
            exact (htrav.owned k hk).imp (fun h => nomatch h) id
        obtain ⟨l, hl, hel⟩ := hm.left_entry hi hin
        obtain ⟨r, hr, her⟩ := hm.right_entry hi hin
        obtain ⟨t₁, leaves₁, ht₁, htrav₁, hreach₁⟩ := hchild l { t with visited := (i + 1) :: t.visited } hel
        obtain ⟨t₂, leaves₂, ht₂, htrav₂, hreach₂⟩ := hchild r t₁ her
        have happ := htrav₁.append hm hi hin hl hr hvis hreach₁ htrav₂ hreach₂
        rw [Nat.add_sub_cancel] at hl
        have hidx : n - 1 + (i + 1) - 1 = n - 1 + i := by omega
        rw [hidx] at hr
        refine ⟨t₂, leaves₁ ++ leaves₂, ?_, happ, htrav₂.mono _ (htrav₁.mono _ List.mem_cons_self)⟩
        simp only [hl, hr, Option.bind_eq_bind, Option.bind_some]
        by_cases hneg : l < 0
        · rw [if_pos hneg] at ht₁ ⊢
          rw [ht₁, Option.bind_some, ht₂]
        · rw [if_neg hneg] at ht₁ ⊢
          rw [ht₁, Option.bind_some, ht₂]

theorem traverse_root (hm : IsMergeMatrix n merge) (hlen : objs.length = n) (hn : 2 ≤ n) (a : Allocation) :
    ∃ (t' : Traversal) (os : List NodeID), traverseDendrogram merge n objs n (n - 1) ⟨a, []⟩ = some t' ∧ os.Perm objs ∧
      t'.alloc = os.foldl Allocation.assign a := by
  obtain ⟨t', leaves, ht', htrav, hlast⟩ :=
    traverseDendrogram_spec hm hlen (by omega : 1 ≤ n - 1) (by omega) (Nat.sub_le n 1) ⟨a, []⟩
  have hrows : ∀ k, 1 ≤ k → k < n → k ∈ t'.visited := fun k hk hkn =>
    hm.all_rows (P := (· ∈ t'.visited)) hlast
      (fun i k hi hk he => (htrav.closed i hi List.not_mem_nil k he).2 (by omega)) hk hkn
  have hmem : ∀ k, k ∈ leaves ↔ k ∈ List.range' 1 n := by
    intro k
    rw [List.mem_range'_1]
    constructor
    · intro hk
      rcases htrav.owned k hk with h | ⟨j, -, -, hjk⟩
      · contradiction
      · have := hm.entry_ne hjk
        have := hm.atom_le hjk
        omega
    · rintro ⟨hk, hkn⟩
      obtain ⟨i, hik⟩ := hm.exists_atom_entry hn hk (by omega)
      have hi := hrows i hik.1 hik.2.1
      have hreach := (htrav.closed i hi List.not_mem_nil _ hik).1 (by omega)
      rwa [Int.natAbs_neg, Int.natAbs_natCast] at hreach
  have hperm : leaves.Perm (List.range' 1 n) :=
    (List.perm_ext_iff_of_nodup htrav.nodup List.nodup_range').mpr hmem
  refine ⟨t', leaves.map fun k => objs.getD (k - 1) 0, ht', ?_, htrav.alloc⟩
  refine (hperm.map _).trans (List.Perm.of_eq ?_)
  apply List.ext_getElem
  · rw [List.length_map, List.length_range', hlen]
  · intro i hi₁ hi₂
    rw [List.getElem_map, List.getElem_range', List.getD_eq_getElem?_getD]
    have hidx : 1 + 1 * i - 1 = i := by omega
    rw [hidx, List.getElem?_eq_getElem hi₂, Option.getD_some]

end

section

def alignUp (align : Bool) (c : ℕ) : ℕ :=
  if align then (c + NATIVE_INT_SIZE - 1) / NATIVE_INT_SIZE * NATIVE_INT_SIZE else c

/-- The counter after regions of these sizes, on numbers that do not run over. -/
def idsUsed (align : Bool) (c : ℕ) (sizes : List ℕ) : ℕ := sizes.foldl (fun c n => alignUp align c + n) c

theorem le_alignUp (align : Bool) (c : ℕ) : c ≤ alignUp align c := by
  simp only [alignUp, NATIVE_INT_SIZE]
  split <;> omega

theorem le_idsUsed (align : Bool) (c : ℕ) (sizes : List ℕ) : c ≤ idsUsed align c sizes := by
  induction sizes generalizing c with
  | nil => exact le_rfl
  | cons n sizes ih =>
      have hnext := ih (alignUp align c + n)
      have hup := le_alignUp align c
      rw [idsUsed, List.foldl_cons]
      rw [idsUsed] at hnext
      omega

theorem alignCounter_eq {opts : Options} {c : ℕ} (hc : alignUp opts.RegionAlign c ≤ UINT_MAX) :
    alignCounter opts c = alignUp opts.RegionAlign c := by
  simp only [alignUp, UINT_MAX] at hc
  simp only [alignCounter, alignUp]
  by_cases h : opts.RegionAlign = true
  · rw [if_pos h] at hc
    rw [if_pos h, if_pos h, Nat.mod_eq_of_lt (by omega)]
  · rw [if_neg h, if_neg h]

structure WellFormed (r : Region) : Prop where
  nodup : r.objects.Nodup
  inside : ∀ p ∈ r.pointsTos, ∀ o ∈ p.1, o ∈ r.objects

theorem exists_positions {r : Region} (h : WellFormed r) : ∃ ds, positions r = some ds := by
  refine (Folds.exists_mapM fun p hp => ?_).imp fun _ => And.left
  obtain ⟨moi, hmoi, -⟩ := Folds.exists_mapM (l := p.1) (f := fun o => r.objects.idxOf? o) fun o ho => by
    have hsome := List.isSome_idxOf?.mpr (h.inside p hp o ho)
    exact Option.isSome_iff_exists.mp hsome
  exact ⟨(moi, p.2), by rw [hmoi]; rfl⟩

variable {opts : Options} {hclust_fast : Hclust} {method : ClusterMethod} {numObjects : ℕ}

def Clusters (hclust_fast : Hclust) : Prop :=
  ∀ method ≠ .SVF_BEST, ∀ n ≥ 2, ∀ ds, IsMergeMatrix n (hclust_fast method n ds)

theorem allocRegion_spec (hclust : Clusters hclust_fast) (hmethod : method ≠ .SVF_BEST) {done : List NodeID}
    {a : Allocation} (h : Numbered numObjects done a) {r : Region} (hr : WellFormed r)
    (hlt : ∀ o ∈ r.objects, o < numObjects) (hnew : ∀ o ∈ r.objects, o ∉ done)
    (hc : alignUp opts.RegionAlign a.allocCounter + r.objects.length ≤ UINT_MAX) :
    ∃ a', allocRegion opts hclust_fast method a r = some a' ∧ Numbered numObjects (r.objects ++ done) a' ∧
      a'.allocCounter = alignUp opts.RegionAlign a.allocCounter + r.objects.length := by
  have halign : alignCounter opts a.allocCounter = _ := alignCounter_eq (by omega)
  have hskip := h.skip (le_alignUp opts.RegionAlign a.allocCounter)
  simp only [allocRegion, halign]
  by_cases hsmall : r.objects.length < NATIVE_INT_SIZE
  · rw [if_pos hsmall]
    obtain ⟨hnum, hcount⟩ := hskip.assignAll hr.nodup hlt hnew hc
    exact ⟨_, rfl, hnum, hcount⟩
  · rw [if_neg hsmall]
    rw [NATIVE_INT_SIZE] at hsmall
    obtain ⟨ds, hds⟩ := exists_positions hr
    have hm := hclust method hmethod r.objects.length (by omega) ds
    obtain ⟨t', os, ht', hperm, halloc⟩ := traverse_root hm rfl (by omega)
      { a with allocCounter := alignUp opts.RegionAlign a.allocCounter }
    obtain ⟨hnum, hcount⟩ := hskip.assignAll (hperm.nodup_iff.mpr hr.nodup)
      (fun o ho => hlt o (hperm.mem_iff.mp ho)) (fun o ho => hnew o (hperm.mem_iff.mp ho))
      (by rw [hperm.length_eq]; exact hc)
    rw [hperm.length_eq] at hcount
    refine ⟨t'.alloc, ?_, halloc ▸ hnum.mono fun o ho => ?_, halloc ▸ hcount⟩
    · rw [hds, Option.bind_eq_bind, Option.bind_some, ht']
      rfl
    · rw [List.mem_append] at ho ⊢
      exact ho.imp hperm.mem_iff.mpr id

theorem foldlM_allocRegion (hclust : Clusters hclust_fast) (hmethod : method ≠ .SVF_BEST)
    (regions : List Region) (hregions : ∀ r ∈ regions, WellFormed r)
    (hnodup : (regions.flatMap (·.objects)).Nodup) (hlt : ∀ o ∈ regions.flatMap (·.objects), o < numObjects)
    {done : List NodeID} (hnew : ∀ o ∈ regions.flatMap (·.objects), o ∉ done) {a : Allocation}
    (h : Numbered numObjects done a)
    (hc : idsUsed opts.RegionAlign a.allocCounter (regions.map (·.objects.length)) ≤ UINT_MAX) :
    ∃ a', regions.foldlM (allocRegion opts hclust_fast method) a = some a' ∧
      Numbered numObjects (regions.flatMap (·.objects) ++ done) a' ∧ a'.allocCounter ≤ UINT_MAX := by
  induction regions generalizing done a with
  | nil => exact ⟨a, rfl, h, hc⟩
  | cons r regions ih =>
      obtain ⟨hr, hrest⟩ := List.forall_mem_cons.mp hregions
      rw [List.flatMap_cons] at hnodup hlt hnew
      obtain ⟨-, hnodup, hdisj⟩ := List.nodup_append.mp hnodup
      rw [List.map_cons, idsUsed, List.foldl_cons] at hc
      have hle := le_idsUsed opts.RegionAlign (alignUp opts.RegionAlign a.allocCounter + r.objects.length)
        (regions.map (·.objects.length))
      obtain ⟨a₁, ha₁, hnum, hcount⟩ := allocRegion_spec hclust hmethod h hr
        (fun o ho => hlt o (List.mem_append_left _ ho)) (fun o ho => hnew o (List.mem_append_left _ ho))
        (hle.trans hc)
      have hfresh : ∀ o ∈ regions.flatMap (·.objects), o ∉ r.objects ++ done := by
        intro o ho hmem
        rcases List.mem_append.mp hmem with hmem | hmem
        · exact hdisj o hmem o ho rfl
        · exact hnew o (List.mem_append_right _ ho) hmem
      obtain ⟨a', ha', hnum', hmax⟩ := ih hrest hnodup (fun o ho => hlt o (List.mem_append_right _ ho))
        hfresh hnum (by rw [hcount]; exact hc)
      refine ⟨a', ?_, hnum'.mono fun o ho => ?_, hmax⟩
      · rw [List.foldlM_cons, ha₁]
        exact ha'
      · simp only [List.flatMap_cons, List.mem_append] at ho ⊢
        tauto

structure IsMapping (numObjects : ℕ) (nodeMap : List NodeID) : Prop where
  length_eq : nodeMap.length = numObjects
  lt : ∀ o < numObjects, entry nodeMap o < UINT_MAX
  inj : ∀ o < numObjects, ∀ o' < numObjects, entry nodeMap o = entry nodeMap o' → o = o'

theorem allocRegions_spec (hclust : Clusters hclust_fast) (hmethod : method ≠ .SVF_BEST)
    {regions : List Region} (hregions : ∀ r ∈ regions, WellFormed r)
    (hnodup : (regions.flatMap (·.objects)).Nodup)
    (hall : ∀ o, o ∈ regions.flatMap (·.objects) ↔ o < numObjects)
    (hc : idsUsed opts.RegionAlign 0 (regions.map (·.objects.length)) ≤ UINT_MAX) :
    ∃ nodeMap, allocRegions opts hclust_fast numObjects regions method = some nodeMap ∧
      IsMapping numObjects nodeMap := by
  obtain ⟨a, ha, hnum, hmax⟩ := foldlM_allocRegion hclust hmethod regions hregions hnodup
    (fun o ho => (hall o).mp ho) (fun o _ => List.not_mem_nil) (numbered_init numObjects) hc
  have hdone : ∀ o < numObjects, o ∈ regions.flatMap (·.objects) ++ [] := fun o ho =>
    List.mem_append_left _ ((hall o).mpr ho)
  refine ⟨a.nodeMap, by rw [allocRegions, ha]; rfl, hnum.length_eq, ?_, ?_⟩
  · exact fun o ho => (hnum.lt o (hdone o ho)).trans_le hmax
  · exact fun o ho o' ho' => hnum.inj o (hdone o ho) o' (hdone o' ho')

end

section

variable {opts : Options} {numObjects : ℕ}

/-- The points-to sets collected have objects, which their first one is joined with. -/
structure Collected (numObjects : ℕ) (s : PointsToSets) : Prop where
  graph : Undirected numObjects s.coPointeeGraph
  objects : ∀ pts ∈ s.pointsToSets.keys, ∀ o ∈ pts, o < numObjects
  joined : ∀ pts ∈ s.pointsToSets.keys, ∀ o ∈ pts, o = pts.headD 0 ∨ o ∈ s.coPointeeGraph.get (pts.headD 0)

theorem Collected.addKey (hpos : 0 < numObjects) {getPts : NodeID → List NodeID} {s : PointsToSets}
    (h : Collected numObjects s) {keyOcc : NodeID × ℕ} (hpts : ∀ o ∈ getPts keyOcc.1, o < numObjects) :
    Collected numObjects (addKey getPts s keyOcc) := by
  have hkeys : ∀ pts, pts ∈ (Clusterer.addKey getPts s keyOcc).pointsToSets.keys ↔
      pts ∈ s.pointsToSets.keys ∨ pts = getPts keyOcc.1 := fun pts => mem_keys_modify _ _ _ _
  have hobjects : ∀ pts ∈ (Clusterer.addKey getPts s keyOcc).pointsToSets.keys, ∀ o ∈ pts, o < numObjects := by
    intro pts hmem
    rcases (hkeys pts).mp hmem with hmem | rfl
    · exact h.objects pts hmem
    · exact hpts
  by_cases hold : getPts keyOcc.1 ∈ s.pointsToSets.keys
  · have hgraph : (Clusterer.addKey getPts s keyOcc).coPointeeGraph = s.coPointeeGraph := if_pos hold
    refine ⟨hgraph ▸ h.graph, hobjects, fun pts hmem => ?_⟩
    rw [hgraph]
    rcases (hkeys pts).mp hmem with hmem | rfl
    · exact h.joined pts hmem
    · exact h.joined _ hold
  · have hgraph : (Clusterer.addKey getPts s keyOcc).coPointeeGraph =
        addPointsTo s.coPointeeGraph (getPts keyOcc.1) := if_neg hold
    obtain ⟨hund, hext, hjoined⟩ := addPointsTo_spec hpos hpts h.graph
    refine ⟨hgraph ▸ hund, hobjects, fun pts hmem o ho => ?_⟩
    rw [hgraph]
    rcases (hkeys pts).mp hmem with hmem | rfl
    · exact (h.joined pts hmem o ho).imp id (hext.edges _ o)
    · exact hjoined o ho

theorem collectPointsToSets_spec (hpos : 0 < numObjects) {getPts : NodeID → List NodeID}
    {keys : List (NodeID × ℕ)} (hpts : ∀ p ∈ keys, ∀ o ∈ getPts p.1, o < numObjects) :
    Collected numObjects (collectPointsToSets getPts keys) := by
  refine Folds.foldl_invariant (fun p hp s hs => hs.addKey hpos (hpts p hp)) ?_
  exact ⟨undirected_empty numObjects, by simp [DefaultMap.empty], by simp [DefaultMap.empty]⟩

theorem mem_iteratePts {orderPts : HashOrder (List NodeID)} {m : DefaultMap (List NodeID) ℕ} {p : PtsOcc}
    (hp : p ∈ iteratePts orderPts m) : p.1 ∈ m.keys := by
  obtain ⟨pts, hpts, rfl⟩ := List.mem_map.mp hp
  exact (orderPts.perm _).mem_iff.mp hpts

theorem objectsRegion_spec (opts : Options) (order : HashOrder NodeID) {s : PointsToSets}
    (h : Collected numObjects s) (hpos : 0 < numObjects) (hmax : numObjects ≤ UINT_MAX) :
    ∃ labels n, objectsRegion opts order s.coPointeeGraph numObjects = some (labels, n) ∧
      labels.length = numObjects ∧ (∀ o < numObjects, entry labels o < n) ∧
      (∀ l < n, ∃ o < numObjects, entry labels o = l) ∧
      ∀ o < numObjects, ∀ m ∈ s.coPointeeGraph.get o, entry labels m = entry labels o := by
  rw [objectsRegion]
  by_cases hreg : opts.RegionedClustering = true
  · rw [if_pos hreg]
    exact regionObjects_spec order h.graph hmax
  · rw [if_neg hreg]
    have hzero : ∀ o < numObjects, entry (List.replicate numObjects 0) o = 0 := by
      intro o ho
      simp [entry, List.getD_eq_getElem?_getD, ho]
    refine ⟨_, _, rfl, List.length_replicate, ?_, ?_, ?_⟩
    · intro o ho
      rw [hzero o ho]
      exact Nat.one_pos
    · intro l hl
      exact ⟨0, hpos, (hzero 0 hpos).trans (Nat.lt_one_iff.mp hl).symm⟩
    · intro o ho m hm
      rw [hzero o ho, hzero m (h.graph.key_lt m (h.graph.neighbour o m hm))]

def regionOf (numObjects : ℕ) (labels : List NodeID) (pts : List PtsOcc) (r : ℕ) : Region :=
  ⟨(List.range numObjects).filter fun o => labels.getD o UINT_MAX = r,
    pts.filter fun p => p.1 ≠ [] ∧ labels.getD (p.1.headD 0) UINT_MAX = r⟩

theorem mem_regionOf {labels : List NodeID} {pts : List PtsOcc} {r : ℕ} {o : NodeID} :
    o ∈ (regionOf numObjects labels pts r).objects ↔ o < numObjects ∧ entry labels o = r := by
  simp [regionOf, entry]

theorem makeRegions_spec (opts : Options) (order : HashOrder NodeID) (orderPts : HashOrder (List NodeID))
    (hpos : 0 < numObjects) (hmax : numObjects ≤ UINT_MAX) {s : PointsToSets} (h : Collected numObjects s) :
    ∃ regions, makeRegions opts order orderPts numObjects s = some regions ∧ (∀ r ∈ regions, WellFormed r) ∧
      (regions.flatMap (·.objects)).Nodup ∧ ∀ o, o ∈ regions.flatMap (·.objects) ↔ o < numObjects := by
  obtain ⟨labels, n, hlabels, hlen, hrange, hused, hclosed⟩ := objectsRegion_spec opts order h hpos hmax
  let pts := iteratePts orderPts s.pointsToSets
  have hall : labels.all (· < n) = true := by
    rw [List.all_eq_true]
    intro l hl
    obtain ⟨o, ho, rfl⟩ := List.getElem_of_mem hl
    have hlt := hrange o (hlen ▸ ho)
    simpa [getElem_eq_entry ho] using hlt
  have hmake : ∀ r ∈ List.range n, makeRegion numObjects labels pts r =
      some (regionOf numObjects labels pts r) := by
    intro r hr
    obtain ⟨o, ho, heq⟩ := hused r (List.mem_range.mp hr)
    have hmem : o ∈ (regionOf numObjects labels pts r).objects := mem_regionOf.mpr ⟨ho, heq⟩
    have hne : (List.range numObjects).filter (fun o => labels.getD o UINT_MAX = r) ≠ [] :=
      List.ne_nil_of_mem hmem
    simp only [makeRegion]
    rw [if_neg hne]
    rfl
  refine ⟨(List.range n).map (regionOf numObjects labels pts), ?_, ?_, ?_, ?_⟩
  · rw [makeRegions, hlabels, Option.bind_eq_bind, Option.bind_some]
    dsimp only
    rw [if_pos hall]
    exact Folds.mapM_eq_some_map hmake
  · intro region hregion
    obtain ⟨r, -, rfl⟩ := List.mem_map.mp hregion
    refine ⟨List.nodup_range.filter _, fun p hp o ho => ?_⟩
    obtain ⟨hmem, hcond⟩ := List.mem_filter.mp hp
    simp only [ne_eq, Bool.decide_and, Bool.and_eq_true, decide_eq_true_eq] at hcond
    have hkey := mem_iteratePts hmem
    have hhead : p.1.headD 0 < numObjects := by
      cases hp1 : p.1 with
      | nil => exact absurd hp1 hcond.1
      | cons a l => exact h.objects p.1 hkey a (hp1 ▸ List.mem_cons_self)
    refine mem_regionOf.mpr ⟨h.objects p.1 hkey o ho, ?_⟩
    rcases h.joined p.1 hkey o ho with heq | hedge
    · exact heq ▸ hcond.2
    · exact (hclosed _ hhead o hedge).trans hcond.2
  · rw [List.flatMap_map, List.nodup_flatMap]
    refine ⟨fun r _ => List.nodup_range.filter _, List.nodup_range.imp fun {r r'} hne o ho ho' => ?_⟩
    exact hne ((mem_regionOf.mp ho).2.symm.trans (mem_regionOf.mp ho').2)
  · intro o
    rw [List.flatMap_map, List.mem_flatMap]
    constructor
    · rintro ⟨r, -, ho⟩
      exact (mem_regionOf.mp ho).1
    · exact fun ho => ⟨entry labels o, List.mem_range.mpr (hrange o ho), mem_regionOf.mpr ⟨ho, rfl⟩⟩

end

section

variable {opts : Options} {numObjects : ℕ} {candidates : List Candidate} {pts : List PtsOcc}
  {evalSubtitle : String}

theorem determineBestMapping_mem {best : Candidate}
    (h : determineBestMapping opts candidates pts evalSubtitle = some best) : best ∈ candidates := by
  obtain ⟨first, hfirst, h⟩ := Option.bind_eq_some_iff.mp h
  have hmem := List.mem_of_getElem? hfirst
  split at h
  · obtain ⟨res, hres, h⟩ := Option.bind_eq_some_iff.mp h
    have hkeep : res.1 ∈ candidates := by
      refine Folds.foldlM_invariant (I := fun p : Candidate × ℕ => p.1 ∈ candidates) ?_ hmem hres
      intro c hc s t hs ht
      obtain ⟨words, -, ht⟩ := Option.bind_eq_some_iff.mp ht
      cases ht
      split
      · exact hc
      · exact hs
    exact Option.some.inj h ▸ hkeep
  · exact Option.some.inj h ▸ hmem

theorem exists_evaluate (words : List NodeID → ℕ) {nodeMap : List NodeID}
    (hpts : ∀ p ∈ pts, ∀ o ∈ p.1, o < nodeMap.length) : ∃ total, evaluate words nodeMap pts = some total := by
  have hmapped : ∀ p ∈ pts, p.1.mapM (nodeMap[·]?) = some (p.1.map (entry nodeMap)) := fun p hp =>
    Folds.mapM_eq_some_map fun o ho => getElem?_eq_entry (hpts p hp o ho)
  refine ⟨_, Folds.foldlM_eq_some (fun total p => if p.1 = [] then total
    else (total + words (p.1.map (entry nodeMap)) * p.2) % 2 ^ 64) (fun p hp total => ?_) 0⟩
  split
  · rfl
  · rw [hmapped p hp]
    rfl

theorem exists_candidateWords (hty : opts.PtType ≠ .BV) {nodeMap : List NodeID}
    (hpts : ∀ p ∈ pts, ∀ o ∈ p.1, o < nodeMap.length) : ∃ words, candidateWords opts nodeMap pts = some words := by
  rw [candidateWords]
  cases hp : opts.PtType with
  | SBV => exact exists_evaluate newSbvWords hpts
  | CBV => exact exists_evaluate newBvWords hpts
  | BV => exact absurd hp hty

theorem exists_determineBestMapping (hty : opts.PtType ≠ .BV) (hne : candidates ≠ [])
    (hcand : ∀ c ∈ candidates, ∀ p ∈ pts, ∀ o ∈ p.1, o < c.2.length) :
    ∃ best, determineBestMapping opts candidates pts evalSubtitle = some best := by
  obtain ⟨first, hfirst⟩ : ∃ first, candidates[0]? = some first :=
    ⟨_, List.getElem?_eq_getElem (List.length_pos_of_ne_nil hne)⟩
  rw [determineBestMapping, hfirst, Option.bind_eq_bind, Option.bind_some]
  split
  · have hstep : ∀ c ∈ candidates, ∀ s : Candidate × ℕ, (do
        let words ← candidateWords opts c.2 pts
        some (if words < s.2 then (c, words) else s)) =
        some (if (candidateWords opts c.2 pts).getD 0 < s.2 then (c, (candidateWords opts c.2 pts).getD 0) else s) := by
      intro c hc s
      obtain ⟨words, hwords⟩ := exists_candidateWords hty (hcand c hc)
      rw [hwords]
      rfl
    rw [Folds.foldlM_eq_some _ hstep]
    exact ⟨_, rfl⟩
  · exact ⟨first, rfl⟩

theorem not_best_of_mem_methods {method : ClusterMethod} (h : method ∈ methods opts) : method ≠ .SVF_BEST := by
  rw [methods] at h
  split at h
  · rintro rfl
    simp at h
  · rename_i hne
    rw [List.mem_singleton] at h
    exact h ▸ hne

theorem methods_ne_nil (opts : Options) : methods opts ≠ [] := by
  rw [methods]
  split <;> simp

variable {order : HashOrder NodeID} {orderPts : HashOrder (List NodeID)} {hclust_fast : Hclust}
  {getPts : NodeID → List NodeID} {keys : List (NodeID × ℕ)}

/-- The ids that a mapping with these regions needs, with the gaps of the alignment, are
32-bit numbers below `UINT_MAX`. -/
def Fits (opts : Options) (order : HashOrder NodeID) (orderPts : HashOrder (List NodeID)) (numObjects : ℕ)
    (getPts : NodeID → List NodeID) (keys : List (NodeID × ℕ)) : Prop :=
  ∀ regions, makeRegions opts order orderPts numObjects (collectPointsToSets getPts keys) = some regions →
    idsUsed opts.RegionAlign 0 (regions.map (·.objects.length)) ≤ UINT_MAX

theorem candidates_spec (hclust : Clusters hclust_fast) (hpos : 0 < numObjects) (hmax : numObjects ≤ UINT_MAX)
    (hpts : ∀ p ∈ keys, ∀ o ∈ getPts p.1, o < numObjects)
    (hfits : Fits opts order orderPts numObjects getPts keys) :
    ∃ regions new, makeRegions opts order orderPts numObjects (collectPointsToSets getPts keys) = some regions ∧
      (methods opts).mapM (newCandidate opts hclust_fast numObjects regions) = some new ∧ new ≠ [] ∧
      ∀ c ∈ new, IsMapping numObjects c.2 := by
  obtain ⟨regions, hregions, hwf, hnodup, hall⟩ := makeRegions_spec opts order orderPts hpos hmax
    (collectPointsToSets_spec hpos hpts)
  have halloc := fun (method : ClusterMethod) (hm : method ∈ methods opts) => allocRegions_spec
    hclust (not_best_of_mem_methods hm) hwf hnodup hall (hfits regions hregions)
  obtain ⟨new, hnew, hforall⟩ := Folds.exists_mapM (l := methods opts)
    (f := newCandidate opts hclust_fast numObjects regions) fun method hm => by
      obtain ⟨nodeMap, hmap, -⟩ := halloc method hm
      exact ⟨(method, nodeMap), by rw [newCandidate, hmap]; rfl⟩
  refine ⟨regions, new, hregions, hnew, ?_, ?_⟩
  · rintro rfl
    exact methods_ne_nil opts (List.forall₂_nil_right_iff.mp hforall)
  · intro c hc
    obtain ⟨i, hi, rfl⟩ := List.getElem_of_mem hc
    have hi' : i < (methods opts).length := hforall.length_eq ▸ hi
    have hget := List.Forall₂.get hforall hi' hi
    obtain ⟨nodeMap, hmap, his⟩ := halloc _ (List.get_mem (methods opts) ⟨i, hi'⟩)
    rw [newCandidate, hmap] at hget
    have heq : (_, nodeMap) = new[i] := Option.some.inj hget
    exact heq ▸ his

theorem objects_iteratePts (hpos : 0 < numObjects) (hpts : ∀ p ∈ keys, ∀ o ∈ getPts p.1, o < numObjects) :
    ∀ p ∈ iteratePts orderPts (collectPointsToSets getPts keys).pointsToSets, ∀ o ∈ p.1, o < numObjects :=
  fun p hp => (collectPointsToSets_spec hpos hpts).objects p.1 (mem_iteratePts hp)

theorem cluster_isMapping (hclust : Clusters hclust_fast) (hpos : 0 < numObjects) (hmax : numObjects ≤ UINT_MAX)
    (hpts : ∀ p ∈ keys, ∀ o ∈ getPts p.1, o < numObjects)
    (hfits : Fits opts order orderPts numObjects getPts keys)
    (hgiven : ∀ c ∈ candidates, IsMapping numObjects c.2) {nodeMap : List NodeID} {candidates' : List Candidate}
    (h : cluster opts order orderPts hclust_fast numObjects getPts keys candidates evalSubtitle =
      some (nodeMap, candidates')) : IsMapping numObjects nodeMap := by
  obtain ⟨regions, new, hregions, hnew, -, hall⟩ := candidates_spec hclust hpos hmax hpts hfits
  rw [cluster] at h
  split at h
  · simp only [hregions, hnew, Option.bind_eq_bind, Option.bind_some] at h
    obtain ⟨best, hbest, h⟩ := Option.bind_eq_some_iff.mp h
    cases h
    exact (List.mem_append.mp (determineBestMapping_mem hbest)).elim (hgiven best) (hall best)
  · contradiction

theorem exists_cluster (hclust : Clusters hclust_fast) (hpos : 0 < numObjects) (hmax : numObjects ≤ UINT_MAX)
    (hpts : ∀ p ∈ keys, ∀ o ∈ getPts p.1, o < numObjects)
    (hfits : Fits opts order orderPts numObjects getPts keys)
    (hgiven : ∀ c ∈ candidates, IsMapping numObjects c.2) (hdense : opts.NodeAllocStrat = .DENSE)
    (hty : opts.PtType ≠ .BV) : ∃ res,
    cluster opts order orderPts hclust_fast numObjects getPts keys candidates evalSubtitle = some res := by
  obtain ⟨regions, new, hregions, hnew, hne, hall⟩ := candidates_spec hclust hpos hmax hpts hfits
  have hmapping : ∀ c ∈ candidates ++ new, IsMapping numObjects c.2 := fun c hc =>
    (List.mem_append.mp hc).elim (hgiven c) (hall c)
  obtain ⟨best, hbest⟩ : ∃ best, determineBestMapping opts (candidates ++ new)
      (iteratePts orderPts (collectPointsToSets getPts keys).pointsToSets) evalSubtitle = some best :=
    exists_determineBestMapping hty (List.append_ne_nil_of_right_ne_nil candidates hne)
      fun c hc p hp o ho => (hmapping c hc).length_eq.symm ▸ objects_iteratePts hpos hpts p hp o ho
  rw [cluster, if_pos hdense]
  simp only [hregions, hnew, hbest, Option.bind_eq_bind, Option.bind_some]
  exact ⟨_, rfl⟩

/-- The options and the arguments of a call of `cluster`, with the iteration orders
and the library that it meets. -/
structure ClusterCall where
  opts : Options
  order : HashOrder NodeID
  orderPts : HashOrder (List NodeID)
  hclust_fast : Hclust
  numObjects : ℕ
  getPts : NodeID → List NodeID
  keys : List (NodeID × ℕ)
  candidates : List Candidate
  evalSubtitle : String

def ClusterCall.run (c : ClusterCall) : Option (List NodeID × List Candidate) :=
  cluster c.opts c.order c.orderPts c.hclust_fast c.numObjects c.getPts c.keys c.candidates c.evalSubtitle

/-- The points-to sets have objects, whose number and new ids are below `UINT_MAX`; a
candidate that is passed in comes from an earlier call. -/
structure ClusterCall.Meets (c : ClusterCall) : Prop where
  clusters : Clusters c.hclust_fast
  pos : 0 < c.numObjects
  max : c.numObjects ≤ UINT_MAX
  objects : ∀ p ∈ c.keys, ∀ o ∈ c.getPts p.1, o < c.numObjects
  fits : Fits c.opts c.order c.orderPts c.numObjects c.getPts c.keys
  given : ∀ p ∈ c.candidates, IsMapping c.numObjects p.2

theorem ClusterCall.Meets.isMapping {c : ClusterCall} (h : c.Meets) {nodeMap : List NodeID}
    {candidates : List Candidate} (hrun : c.run = some (nodeMap, candidates)) : IsMapping c.numObjects nodeMap :=
  cluster_isMapping h.clusters h.pos h.max h.objects h.fits h.given hrun

theorem ClusterCall.Meets.exists_run {c : ClusterCall} (h : c.Meets) (hdense : c.opts.NodeAllocStrat = .DENSE)
    (hty : c.opts.PtType ≠ .BV) : ∃ res, c.run = some res :=
  exists_cluster h.clusters h.pos h.max h.objects h.fits h.given hdense hty

end

structure Reversed (done : List (ℕ × NodeID)) (reverse : List NodeID) : Prop where
  entered : ∀ p ∈ done, p.2 < reverse.length ∧ entry reverse p.2 = p.1
  gap : ∀ i, entry reverse i ≠ UINT_MAX → ∃ p ∈ done, i = p.2

theorem entry_resize {reverse : List NodeID} {n : ℕ} (hn : reverse.length ≤ n) (i : ℕ) :
    entry (reverse.take n ++ List.replicate (n - reverse.length) UINT_MAX) i = entry reverse i := by
  rw [List.take_of_length_le hn]
  simp only [entry, List.getD_eq_getElem?_getD, List.getElem?_append, List.getElem?_replicate]
  by_cases hi : i < reverse.length
  · rw [if_pos hi]
  · rw [if_neg hi, List.getElem?_eq_none (by omega)]
    split <;> rfl

theorem reverseStep_spec {done : List (ℕ × NodeID)} {reverse : List NodeID} (h : Reversed done reverse)
    {p : ℕ × ℕ} (hlt : p.2 < UINT_MAX) (hnew : ∀ q ∈ done, q.2 ≠ p.2) :
    ∃ reverse', reverseStep reverse p = some reverse' ∧ Reversed (done ++ [p]) reverse' ∧
      reverse.length ≤ reverse'.length := by
  obtain ⟨i, k⟩ := p
  have hincr : incr k = k + 1 := incr_of_lt hlt
  obtain ⟨grown, hgrown, hlen, hle, hsame⟩ : ∃ grown : List NodeID,
      (if reverse.length ≤ k then reverse.take (incr k) ++ List.replicate (incr k - reverse.length) UINT_MAX
        else reverse) = grown ∧ k < grown.length ∧ reverse.length ≤ grown.length ∧
        ∀ j, entry grown j = entry reverse j := by
    rw [hincr]
    by_cases hk : reverse.length ≤ k
    · rw [if_pos hk]
      refine ⟨_, rfl, ?_, ?_, entry_resize (by omega)⟩
      · simp only [List.length_append, List.length_take, List.length_replicate]
        omega
      · simp only [List.length_append, List.length_take, List.length_replicate]
        omega
    · rw [if_neg hk]
      exact ⟨reverse, rfl, by omega, le_rfl, fun _ => rfl⟩
  refine ⟨grown.set k i, ?_, ⟨?_, ?_⟩, ?_⟩
  · simp only [reverseStep, hgrown]
    rw [if_pos hlen]
  · intro q hq
    rw [entry_set hlen, List.length_set]
    rcases List.mem_append.mp hq with hq | hq
    · obtain ⟨hql, hqe⟩ := h.entered q hq
      rw [if_neg (hnew q hq), hsame]
      exact ⟨hql.trans_le hle, hqe⟩
    · rw [List.mem_singleton] at hq
      subst hq
      exact ⟨hlen, if_pos rfl⟩
  · intro j hj
    rw [entry_set hlen] at hj
    by_cases hjk : j = k
    · exact ⟨(i, k), by simp, hjk⟩
    · rw [if_neg hjk, hsame] at hj
      obtain ⟨q, hq, heq⟩ := h.gap j hj
      exact ⟨q, List.mem_append_left _ hq, heq⟩
  · rw [List.length_set]
    exact hle

theorem foldlM_reverseStep (ps : List (ℕ × NodeID)) (hlt : ∀ p ∈ ps, p.2 < UINT_MAX)
    {done : List (ℕ × NodeID)} (hnodup : ((done ++ ps).map Prod.snd).Nodup) {reverse : List NodeID}
    (h : Reversed done reverse) : ∃ reverse', ps.foldlM reverseStep reverse = some reverse' ∧
      Reversed (done ++ ps) reverse' ∧ reverse.length ≤ reverse'.length := by
  induction ps generalizing done reverse with
  | nil => exact ⟨reverse, rfl, by rwa [List.append_nil], le_rfl⟩
  | cons p ps ih =>
      obtain ⟨hp, hrest⟩ := List.forall_mem_cons.mp hlt
      have hnew : ∀ q ∈ done, q.2 ≠ p.2 := by
        rw [List.map_append, List.nodup_append] at hnodup
        exact fun q hq => hnodup.2.2 q.2 (List.mem_map_of_mem hq) p.2 (by simp)
      obtain ⟨r₁, hr₁, hrev₁, hle₁⟩ := reverseStep_spec h hp hnew
      obtain ⟨r', hr', hrev', hle'⟩ := ih hrest (by rwa [List.append_assoc, List.singleton_append]) hrev₁
      rw [List.append_assoc, List.singleton_append] at hrev'
      exact ⟨r', by rw [List.foldlM_cons, hr₁]; exact hr', hrev', hle₁.trans hle'⟩

/-- The inverse of a mapping on its image; the numbers that are not used lead to
`UINT_MAX`. -/
structure IsInverse (numObjects : ℕ) (nodeMap reverse : List NodeID) : Prop where
  length_le : numObjects ≤ reverse.length
  lt : ∀ o < numObjects, entry nodeMap o < reverse.length
  inverse : ∀ o < numObjects, entry reverse (entry nodeMap o) = o
  gap : ∀ i, entry reverse i ≠ UINT_MAX → ∃ o < numObjects, entry nodeMap o = i

theorem getReverseNodeMapping_spec {numObjects : ℕ} {nodeMap : List NodeID} (h : IsMapping numObjects nodeMap) :
    ∃ reverse, getReverseNodeMapping nodeMap = some reverse ∧ IsInverse numObjects nodeMap reverse := by
  have hmem : ∀ p : ℕ × ℕ, p ∈ nodeMap.mapIdx Prod.mk ↔ p.1 < numObjects ∧ p.2 = entry nodeMap p.1 := by
    intro p
    rw [List.mem_mapIdx]
    constructor
    · rintro ⟨i, hi, rfl⟩
      exact ⟨h.length_eq ▸ hi, getElem_eq_entry hi⟩
    · rintro ⟨hi, heq⟩
      have hlen : p.1 < nodeMap.length := h.length_eq.symm ▸ hi
      exact ⟨p.1, hlen, Prod.ext rfl ((getElem_eq_entry hlen).trans heq.symm)⟩
  have hsnd : (nodeMap.mapIdx Prod.mk).map Prod.snd = nodeMap := by
    apply List.ext_getElem
    · rw [List.length_map, List.length_mapIdx]
    · intro i _ _
      rw [List.getElem_map, List.getElem_mapIdx]
  have hnodup : nodeMap.Nodup := by
    rw [List.nodup_iff_injective_get]
    intro i j hij
    have heq : entry nodeMap i = entry nodeMap j :=
      (getElem_eq_entry i.2).symm.trans (Eq.trans hij (getElem_eq_entry j.2))
    exact Fin.ext (h.inj i (h.length_eq ▸ i.2) j (h.length_eq ▸ j.2) heq)
  have hstart : Reversed [] (List.replicate nodeMap.length UINT_MAX) := by
    refine ⟨by simp, fun i hi => absurd ?_ hi⟩
    simp only [entry, List.getD_eq_getElem?_getD, List.getElem?_replicate]
    split <;> rfl
  obtain ⟨reverse, hreverse, hrev, hle⟩ := foldlM_reverseStep (nodeMap.mapIdx Prod.mk)
    (fun p hp => ((hmem p).mp hp).2 ▸ h.lt p.1 ((hmem p).mp hp).1)
    (by rw [List.nil_append, hsnd]; exact hnodup) hstart
  rw [List.length_replicate, h.length_eq] at hle
  refine ⟨reverse, hreverse, hle, ?_, ?_, ?_⟩
  · exact fun o ho => (hrev.entered (o, _) ((hmem (o, _)).mpr ⟨ho, rfl⟩)).1
  · exact fun o ho => (hrev.entered (o, _) ((hmem (o, _)).mpr ⟨ho, rfl⟩)).2
  · intro i hi
    obtain ⟨p, hp, rfl⟩ := hrev.gap i hi
    exact ⟨p.1, ((hmem p).mp hp).1, ((hmem p).mp hp).2.symm⟩

end SVF.Util.ClusterMapping
