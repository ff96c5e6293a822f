import Mathlib.Data.Finset.Card
import SVF.MemoryModel.PointsToSets
import SVF.Util.Folds

namespace SVF.MSSA.PtsChains

open Relation Util.Folds MemoryModel.PointsToSets Util.OrderedSets

section

/-- A bit vector, which is iterated in ascending order. -/
abbrev NodeBS := MemoryModel.PointsToSets.PointsTo

structure PointerAnalysis where
  getBaseObjVar : NodeID → NodeID
  getFieldsAfterCollapse : NodeID → NodeBS
  getPts : NodeID → NodeBS

abbrev NodeToPTSSMap := NodeID → Option NodeBS

def orAssign (cache : NodeToPTSSMap) (baseId : NodeID) (pts : NodeBS) : NodeToPTSSMap :=
  Function.update cache baseId (some ((cache baseId).getD ∅ ∪ pts))

variable (pta : PointerAnalysis)

/-- What the call leaves in the cache. Its result is the entry of the base object, which
is returned by reference; `none` is a recursion that uses up its fuel. -/
def CollectPtsChain : ℕ → NodeToPTSSMap → NodeID → Option NodeToPTSSMap
  | 0, cache, id => if (cache (pta.getBaseObjVar id)).isSome then some cache else none
  | fuel + 1, cache, id =>
      let baseId := pta.getBaseObjVar id
      if (cache baseId).isSome then some cache
      else
        let cache := orAssign cache baseId (pta.getFieldsAfterCollapse baseId)
        (pta.getFieldsAfterCollapse baseId).elems.foldlM (fun cache nodeId =>
          (pta.getPts nodeId).elems.foldlM (fun cache o => do
            let cache ← CollectPtsChain fuel cache o
            let chain ← cache (pta.getBaseObjVar o)
            some (orAssign cache baseId chain)) cache) cache

def query (fuel : ℕ) (cache : NodeToPTSSMap) (id : NodeID) : Option (NodeBS × NodeToPTSSMap) := do
  let cache ← CollectPtsChain pta fuel cache id
  let chain ← cache (pta.getBaseObjVar id)
  some (chain, cache)

def run (fuel : ℕ) : NodeToPTSSMap → List NodeID → Option (List NodeBS × NodeToPTSSMap)
  | cache, [] => some ([], cache)
  | cache, id :: ids => do
      let (chain, cache) ← query pta fuel cache id
      let (chains, cache) ← run fuel cache ids
      some (chain :: chains, cache)

/-- The loop of `collectCallSitePts` over the arguments, and that over the return value. -/
def collectPts (fuel : ℕ) (cache : NodeToPTSSMap) (nodes : List NodeID) :
    Option (NodeBS × NodeToPTSSMap) :=
  (nodes.flatMap fun nodeId => (pta.getPts nodeId).elems).foldlM (fun s o => do
    let (chain, cache) ← query pta fuel s.2 o
    some (s.1 ∪ chain, cache)) (∅, cache)

end

section

variable (pta : PointerAnalysis)

def Edge (b c : NodeID) : Prop :=
  ∃ f ∈ pta.getFieldsAfterCollapse b, ∃ o ∈ pta.getPts f, pta.getBaseObjVar o = c

def Chain (b x : NodeID) : Prop :=
  ∃ c, ReflTransGen (Edge pta) b c ∧ x ∈ pta.getFieldsAfterCollapse c

/-- No two different objects that are reached from `b` reach each other. -/
def Acyclic (b : NodeID) : Prop :=
  ∀ c d, ReflTransGen (Edge pta) b c → ReflTransGen (Edge pta) c d → ReflTransGen (Edge pta) d c → c = d

def IsChain (b : NodeID) (pts : NodeBS) : Prop := ∀ x, x ∈ pts ↔ Chain pta b x

variable {pta}

theorem Acyclic.of_reach {b c : NodeID} (h : Acyclic pta b) (hbc : ReflTransGen (Edge pta) b c) :
    Acyclic pta c := fun d e hcd => h d e (hbc.trans hcd)

theorem Chain.of_edge {b c x : NodeID} (hbc : Edge pta b c) (h : Chain pta c x) : Chain pta b x := by
  obtain ⟨d, hcd, hx⟩ := h
  exact ⟨d, .head hbc hcd, hx⟩

/-- The entries of the objects outside `open_` are complete; an open one is still filled. -/
structure Complete (pta : PointerAnalysis) (opened : NodeID → Prop) (cache : NodeToPTSSMap) : Prop where
  closed : ∀ b pts, cache b = some pts → ¬opened b → IsChain pta b pts
  opened : ∀ b, opened b → (cache b).isSome = true

structure Filled (opened : NodeID → Prop) (cache cache' : NodeToPTSSMap) : Prop where
  kept : ∀ b, opened b → cache' b = cache b
  grows : ∀ b, (cache b).isSome = true → (cache' b).isSome = true

theorem Filled.refl (opened : NodeID → Prop) (cache : NodeToPTSSMap) : Filled opened cache cache :=
  ⟨fun _ _ => rfl, fun _ h => h⟩

/-- The objects that have no entry yet. -/
def missing (objs : Finset NodeID) (cache : NodeToPTSSMap) : ℕ := (objs.filter fun b => cache b = none).card

theorem missing_lt {objs : Finset NodeID} {cache cache' : NodeToPTSSMap}
    (h : ∀ b, (cache b).isSome = true → (cache' b).isSome = true) {b : NodeID} (hb : b ∈ objs)
    (hnone : cache b = none) (hsome : (cache' b).isSome = true) : missing objs cache' < missing objs cache := by
  apply Finset.card_lt_card
  refine ⟨?_, ?_⟩
  · intro c hc
    rw [Finset.mem_filter] at hc ⊢
    refine ⟨hc.1, ?_⟩
    by_contra hne
    have hentry := h c (Option.isSome_iff_ne_none.2 hne)
    rw [hc.2] at hentry
    exact absurd hentry (by decide)
  · intro hsub
    have hmem := hsub (Finset.mem_filter.2 ⟨hb, hnone⟩)
    rw [(Finset.mem_filter.1 hmem).2] at hsome
    exact absurd hsome (by decide)

def Closed (pta : PointerAnalysis) (objs : Finset NodeID) : Prop := ∀ b ∈ objs, ∀ c, Edge pta b c → c ∈ objs

theorem orAssign_self (cache : NodeToPTSSMap) (b : NodeID) (pts : NodeBS) :
    orAssign cache b pts b = some ((cache b).getD ∅ ∪ pts) := Function.update_self _ _ _

theorem orAssign_of_ne {b c : NodeID} (h : c ≠ b) (cache : NodeToPTSSMap) (pts : NodeBS) :
    orAssign cache b pts c = cache c := Function.update_of_ne h _ _

/-- An edge of an object to itself adds nothing. -/
theorem chain_iff_ne {b x : NodeID} :
    Chain pta b x ↔ x ∈ pta.getFieldsAfterCollapse b ∨ ∃ c, Edge pta b c ∧ c ≠ b ∧ Chain pta c x := by
  constructor
  · rintro ⟨d, hbd, hx⟩
    -- from the last visit of `b` on
    induction hbd using ReflTransGen.head_induction_on with
    | refl => exact Or.inl hx
    | @head b c hbc hcd ih =>
        by_cases heq : c = b
        · subst heq
          exact ih
        · exact Or.inr ⟨c, hbc, heq, d, hcd, hx⟩
  · rintro (hx | ⟨c, hbc, -, hchain⟩)
    · exact ⟨b, .refl, hx⟩
    · exact hchain.of_edge hbc

def InEntry (b : NodeID) (x : NodeID) (cache : NodeToPTSSMap) : Prop := ∃ pts, cache b = some pts ∧ x ∈ pts

structure Looping (pta : PointerAnalysis) (opened : NodeID → Prop) (start : NodeToPTSSMap) (b : NodeID)
    (cache : NodeToPTSSMap) : Prop where
  complete : Complete pta (fun c => opened c ∨ c = b) cache
  kept : ∀ c, opened c → cache c = start c
  grows : ∀ c, (start c).isSome = true → (cache c).isSome = true

theorem Looping.orAssign {opened : NodeID → Prop} {start cache : NodeToPTSSMap} {b : NodeID}
    (h : Looping pta opened start b cache) (hb : ¬opened b) (pts : NodeBS) :
    Looping pta opened start b (orAssign cache b pts) := by
  have hsome : ∀ c, (cache c).isSome = true → (PtsChains.orAssign cache b pts c).isSome = true := by
    intro c hc
    by_cases heq : c = b
    · rw [heq, orAssign_self]
      rfl
    · rwa [orAssign_of_ne heq]
  refine ⟨⟨?_, ?_⟩, ?_, ?_⟩
  · intro c pts' hc hclosed
    rw [not_or] at hclosed
    rw [orAssign_of_ne hclosed.2] at hc
    exact h.complete.closed c pts' hc (not_or.2 hclosed)
  · intro c hc
    exact hsome c (h.complete.opened c hc)
  · intro c hc
    have hne : c ≠ b := by
      rintro rfl
      exact hb hc
    rw [orAssign_of_ne hne]
    exact h.kept c hc
  · intro c hc
    exact hsome c (h.grows c hc)

theorem inEntry_orAssign {b x : NodeID} {cache : NodeToPTSSMap} {pts : NodeBS} :
    InEntry b x (orAssign cache b pts) ↔ InEntry b x cache ∨ x ∈ pts := by
  rw [InEntry, orAssign_self]
  simp only [Option.some.injEq, exists_eq_left', mem_union]
  refine or_congr_left ?_
  rw [InEntry]
  cases cache b with
  | none => simp
  | some pts' => simp

theorem CollectPtsChain_of_isSome {fuel : ℕ} {cache : NodeToPTSSMap} {id : NodeID}
    (h : (cache (pta.getBaseObjVar id)).isSome = true) : CollectPtsChain pta fuel cache id = some cache := by
  cases fuel with
  | zero => rw [CollectPtsChain, if_pos h]
  | succ fuel => rw [CollectPtsChain, if_pos h]

theorem CollectPtsChain_spec {objs : Finset NodeID} (hobjs : Closed pta objs) {fuel : ℕ}
    {opened : NodeID → Prop} {cache : NodeToPTSSMap} {id : NodeID} (hcache : Complete pta opened cache)
    (hid : pta.getBaseObjVar id ∈ objs) (hacyclic : Acyclic pta (pta.getBaseObjVar id))
    (hreach : ∀ p, opened p → ReflTransGen (Edge pta) p (pta.getBaseObjVar id))
    (hnot : ¬opened (pta.getBaseObjVar id)) (hfuel : missing objs cache ≤ fuel) :
    ∃ cache', CollectPtsChain pta fuel cache id = some cache' ∧ Complete pta opened cache' ∧
      Filled opened cache cache' ∧ (cache' (pta.getBaseObjVar id)).isSome = true := by
  induction fuel generalizing opened cache id with
  | zero =>
      by_cases hsome : (cache (pta.getBaseObjVar id)).isSome = true
      · exact ⟨cache, CollectPtsChain_of_isSome hsome, hcache, .refl _ _, hsome⟩
      · have hnone : cache (pta.getBaseObjVar id) = none := Option.not_isSome_iff_eq_none.1 hsome
        have hpos : 0 < missing objs cache := Finset.card_pos.2 ⟨_, Finset.mem_filter.2 ⟨hid, hnone⟩⟩
        omega
  | succ fuel ih =>
      by_cases hsome : (cache (pta.getBaseObjVar id)).isSome = true
      · exact ⟨cache, CollectPtsChain_of_isSome hsome, hcache, .refl _ _, hsome⟩
      · rw [CollectPtsChain, if_neg hsome]
        have hnone : cache (pta.getBaseObjVar id) = none := Option.not_isSome_iff_eq_none.1 hsome
        generalize pta.getBaseObjVar id = b at *
        dsimp only
        -- the object is opened: its fields are in the entry
        have hopen : Looping pta opened cache b (orAssign cache b (pta.getFieldsAfterCollapse b)) := by
          refine ⟨⟨?_, ?_⟩, ?_, ?_⟩
          · intro c pts hc hclosed
            rw [not_or] at hclosed
            rw [orAssign_of_ne hclosed.2] at hc
            exact hcache.closed c pts hc hclosed.1
          · rintro c (hc | rfl)
            · by_cases heq : c = b
              · rw [heq, orAssign_self]
                rfl
              · rw [orAssign_of_ne heq]
                exact hcache.opened c hc
            · rw [orAssign_self]
              rfl
          · intro c hc
            have hne : c ≠ b := by
              rintro rfl
              exact hnot hc
            exact orAssign_of_ne hne _ _
          · intro c hc
            by_cases heq : c = b
            · rw [heq, orAssign_self]
              rfl
            · rwa [orAssign_of_ne heq]
        have hround : ∀ f ∈ (pta.getFieldsAfterCollapse b).elems, ∀ o ∈ (pta.getPts f).elems, ∀ s,
            Looping pta opened cache b s → ∃ t, ((do
                let cache ← CollectPtsChain pta fuel s o
                let chain ← cache (pta.getBaseObjVar o)
                some (orAssign cache b chain)) : Option NodeToPTSSMap) = some t ∧ Looping pta opened cache b t ∧
              ∀ x, InEntry b x t ↔ InEntry b x s ∨ pta.getBaseObjVar o ≠ b ∧ Chain pta (pta.getBaseObjVar o) x := by
          intro f hf o ho s hs
          have hedge : Edge pta b (pta.getBaseObjVar o) := ⟨f, hf, o, ho, rfl⟩
          have hbsome : (s b).isSome = true := hs.complete.opened b (Or.inr rfl)
          by_cases heq : pta.getBaseObjVar o = b
          · obtain ⟨pts, hpts⟩ := Option.isSome_iff_exists.1 hbsome
            refine ⟨orAssign s b pts, ?_, hs.orAssign hnot pts, ?_⟩
            · rw [CollectPtsChain_of_isSome (heq ▸ hbsome), Option.bind_eq_bind, Option.bind_some, heq, hpts]
              rfl
            · intro x
              have hself : x ∈ pts ↔ InEntry b x s := by
                rw [InEntry, hpts]
                simp
              have hskip : ¬(pta.getBaseObjVar o ≠ b ∧ Chain pta (pta.getBaseObjVar o) x) := fun h => h.1 heq
              rw [inEntry_orAssign, hself, or_self, or_iff_left hskip]
          · have hclosed : ¬(opened (pta.getBaseObjVar o) ∨ pta.getBaseObjVar o = b) := by
              rintro (hopened | hsame)
              · exact heq (hacyclic _ _ (.single hedge) (hreach _ hopened) (.single hedge))
              · exact heq hsame
            have hlt : missing objs s < missing objs cache := by
              exact missing_lt hs.grows hid hnone hbsome
            obtain ⟨t, ht, hcomplete, hfilled, htsome⟩ := ih hs.complete (hobjs b hid _ hedge)
              (hacyclic.of_reach (.single hedge)) (by
                rintro p (hp | rfl)
                · exact (hreach p hp).tail hedge
                · exact .single hedge) hclosed (by omega)
            obtain ⟨pts, hpts⟩ := Option.isSome_iff_exists.1 htsome
            have hchain := hcomplete.closed _ _ hpts hclosed
            refine ⟨orAssign t b pts, ?_, ?_, ?_⟩
            · rw [ht, Option.bind_eq_bind, Option.bind_some, hpts]
              rfl
            · apply Looping.orAssign _ hnot
              refine ⟨hcomplete, ?_, ?_⟩
              · intro c hc
                rw [hfilled.kept c (Or.inl hc), hs.kept c hc]
              · intro c hc
                exact hfilled.grows c (hs.grows c hc)
            · intro x
              rw [inEntry_orAssign, hchain x, and_iff_right heq, InEntry, hfilled.kept b (Or.inr rfl)]
              rfl
        obtain ⟨t, ht, hlooping, hin⟩ :=
          foldlM_collects_of (fun f hf s hs => foldlM_collects_of (hround f hf) hs) hopen
        have htsome : (t b).isSome = true := hlooping.complete.opened b (Or.inr rfl)
        refine ⟨t, ht, ⟨?_, ?_⟩, ⟨hlooping.kept, hlooping.grows⟩, htsome⟩
        · intro c pts hc hclosed
          by_cases heq : c = b
          · subst heq
            intro x
            have hentry : x ∈ pts ↔ InEntry c x t := by
              rw [InEntry, hc]
              simp
            rw [hentry, hin, inEntry_orAssign, chain_iff_ne]
            have hempty : ¬InEntry c x cache := by
              rintro ⟨pts', hpts', -⟩
              rw [hnone] at hpts'
              cases hpts'
            rw [or_iff_right hempty]
            refine or_congr_right ?_
            constructor
            · rintro ⟨f, hf, o, ho, hne, hchain⟩
              exact ⟨_, ⟨f, hf, o, ho, rfl⟩, hne, hchain⟩
            · rintro ⟨_, ⟨f, hf, o, ho, rfl⟩, hne, hchain⟩
              exact ⟨f, hf, o, ho, hne, hchain⟩
          · exact hlooping.complete.closed c pts hc (not_or.2 ⟨hclosed, heq⟩)
        · intro c hc
          exact hlooping.complete.opened c (Or.inl hc)

abbrev Settled (pta : PointerAnalysis) (cache : NodeToPTSSMap) : Prop := Complete pta (fun _ => False) cache

theorem query_spec {objs : Finset NodeID} (hobjs : Closed pta objs) {fuel : ℕ} (hfuel : objs.card ≤ fuel)
    {cache : NodeToPTSSMap} (hcache : Settled pta cache) {id : NodeID} (hid : pta.getBaseObjVar id ∈ objs)
    (hacyclic : Acyclic pta (pta.getBaseObjVar id)) :
    ∃ chain cache', query pta fuel cache id = some (chain, cache') ∧ IsChain pta (pta.getBaseObjVar id) chain ∧
      Settled pta cache' ∧ cache' (pta.getBaseObjVar id) = some chain ∧
        ∀ b, (cache b).isSome = true → (cache' b).isSome = true := by
  have hmissing : missing objs cache ≤ fuel := (Finset.card_filter_le _ _).trans hfuel
  obtain ⟨cache', hcall, hcomplete, hfilled, hsome⟩ := CollectPtsChain_spec hobjs hcache hid hacyclic
    (fun p hp => hp.elim) (fun h => h) hmissing
  obtain ⟨chain, hchain⟩ := Option.isSome_iff_exists.1 hsome
  refine ⟨chain, cache', ?_, hcomplete.closed _ _ hchain (fun h => h), hcomplete, hchain, hfilled.grows⟩
  rw [query, hcall, Option.bind_eq_bind, Option.bind_some, hchain]
  rfl

theorem run_spec {objs : Finset NodeID} (hobjs : Closed pta objs) {fuel : ℕ} (hfuel : objs.card ≤ fuel)
    {ids : List NodeID} (hids : ∀ id ∈ ids, pta.getBaseObjVar id ∈ objs)
    (hacyclic : ∀ id ∈ ids, Acyclic pta (pta.getBaseObjVar id)) {cache : NodeToPTSSMap}
    (hcache : Settled pta cache) :
    ∃ chains cache', run pta fuel cache ids = some (chains, cache') ∧
      List.Forall₂ (fun id chain => IsChain pta (pta.getBaseObjVar id) chain) ids chains ∧ Settled pta cache' ∧
      (∀ b, (cache b).isSome = true → (cache' b).isSome = true) ∧
      ∀ id ∈ ids, (cache' (pta.getBaseObjVar id)).isSome = true := by
  induction ids generalizing cache with
  | nil => exact ⟨[], cache, rfl, .nil, hcache, fun _ h => h, fun _ h => absurd h List.not_mem_nil⟩
  | cons id ids ih =>
      obtain ⟨chain, mid, hquery, hchain, hmid, hentry, hgrows⟩ := query_spec hobjs hfuel hcache
        (hids id List.mem_cons_self) (hacyclic id List.mem_cons_self)
      obtain ⟨chains, cache', hrun, hchains, hend, hkept, hall⟩ := ih
        (fun i hi => hids i (List.mem_cons_of_mem id hi)) (fun i hi => hacyclic i (List.mem_cons_of_mem id hi)) hmid
      refine ⟨chain :: chains, cache', ?_, .cons hchain hchains, hend, fun b hb => hkept b (hgrows b hb), ?_⟩
      · rw [run, hquery, Option.bind_eq_bind, Option.bind_some]
        dsimp only
        rw [hrun]
        rfl
      · intro i hi
        rcases List.mem_cons.1 hi with rfl | hi
        · apply hkept
          rw [hentry]
          rfl
        · exact hall i hi

theorem pts_chains_exact {objs : Finset NodeID} (hobjs : Closed pta objs) {fuel : ℕ} (hfuel : objs.card ≤ fuel)
    {ids : List NodeID} (hids : ∀ id ∈ ids, pta.getBaseObjVar id ∈ objs)
    (hacyclic : ∀ id ∈ ids, Acyclic pta (pta.getBaseObjVar id)) :
    ∃ chains cache, run pta fuel (fun _ => none) ids = some (chains, cache) ∧
      List.Forall₂ (fun id chain => IsChain pta (pta.getBaseObjVar id) chain) ids chains ∧
      (∀ b pts, cache b = some pts → IsChain pta b pts) ∧
      ∀ id ∈ ids, (cache (pta.getBaseObjVar id)).isSome = true := by
  have hempty : Settled pta fun _ => none :=
    ⟨fun _ _ h => absurd h (Option.some_ne_none _).symm, fun _ h => absurd h (fun h => h)⟩
  obtain ⟨chains, cache, hrun, hchains, hend, -, hall⟩ := run_spec hobjs hfuel hids hacyclic hempty
  exact ⟨chains, cache, hrun, hchains, fun b pts h => hend.closed b pts h (fun h => h), hall⟩

end

def objects (pts : NodeID → NodeBS) : PointerAnalysis := ⟨id, fun b => (∅ : NodeBS).insert b, pts⟩

theorem edge_objects {pts : NodeID → NodeBS} {b c : NodeID} : Edge (objects pts) b c ↔ c ∈ pts b := by
  have hfield : ∀ f, f ∈ (objects pts).getFieldsAfterCollapse b ↔ f = b := by
    intro f
    exact (mem_set ∅ b f).trans (or_iff_right (notMem_empty f))
  constructor
  · rintro ⟨f, hf, o, ho, rfl⟩
    rw [(hfield f).1 hf] at ho
    exact ho
  · intro hc
    exact ⟨b, (hfield b).2 rfl, c, hc, rfl⟩

/-- Two cells that point to each other, and the first of them to a third one. -/
def cyclic : PointerAnalysis :=
  objects fun n => if n = 0 then ⟨[1, 2], by decide⟩ else if n = 1 then ⟨[0], by decide⟩ else ∅

def selfLoop : PointerAnalysis := objects fun n => if n = 0 then ⟨[0, 1], by decide⟩ else ∅

theorem edge_selfLoop {b c : NodeID} : Edge selfLoop b c ↔ b = 0 ∧ (c = 0 ∨ c = 1) := by
  refine edge_objects.trans ?_
  by_cases hb : b = 0
  · rw [if_pos hb, and_iff_right hb]
    change c ∈ [0, 1] ↔ _
    simp
  · rw [if_neg hb]
    exact iff_of_false (notMem_empty c) (fun h => hb h.1)

theorem acyclic_selfLoop (b : NodeID) : Acyclic selfLoop b := by
  have hone : ∀ d, ReflTransGen (Edge selfLoop) 1 d → d = 1 := by
    intro d hd
    rcases ReflTransGen.cases_head hd with rfl | ⟨e, he, -⟩
    · rfl
    · exact absurd (edge_selfLoop.1 he).1 (by decide)
  intro c d _ hcd hdc
  rcases ReflTransGen.cases_tail hcd with rfl | ⟨e, -, hed⟩
  · rfl
  · rcases (edge_selfLoop.1 hed).2 with rfl | rfl
    · rcases ReflTransGen.cases_tail hdc with rfl | ⟨e', -, hec⟩
      · rfl
      · rcases (edge_selfLoop.1 hec).2 with rfl | rfl
        · rfl
        · exact (hone 0 hcd).symm
    · exact hone c hdc

theorem pts_chains_exact_selfLoop :
    ∃ chains cache, run selfLoop 2 (fun _ => none) [0, 1] = some (chains, cache) ∧
      List.Forall₂ (fun id chain => IsChain selfLoop (selfLoop.getBaseObjVar id) chain) [0, 1] chains ∧
      (∀ b pts, cache b = some pts → IsChain selfLoop b pts) ∧
      ∀ id ∈ [0, 1], (cache (selfLoop.getBaseObjVar id)).isSome = true := by
  have hclosed : Closed selfLoop {0, 1} := by
    intro b _ c hbc
    rcases (edge_selfLoop.1 hbc).2 with rfl | rfl <;> decide
  exact pts_chains_exact hclosed (by decide) (by decide) fun id _ => acyclic_selfLoop _

/-- The query of the first cell leaves a partial set for the second one. -/
theorem cyclic_query_partial :
    (run cyclic 3 (fun _ => none) [0, 1]).map (·.1.map (·.elems)) = some [[0, 1, 2], [0, 1]] ∧
      Chain cyclic 1 2 := by
  refine ⟨by decide +kernel, 2, ?_, by decide⟩
  have h10 : Edge cyclic 1 0 := edge_objects.2 (by decide)
  have h02 : Edge cyclic 0 2 := edge_objects.2 (by decide)
  exact .tail (.single h10) h02

end SVF.MSSA.PtsChains
