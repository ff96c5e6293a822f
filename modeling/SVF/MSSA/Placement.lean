import SVF.MSSA.MemorySSA
import SVF.Util.Dominance
import SVF.Util.Folds

namespace SVF.MSSA.Placement

open MemorySSA
open MemSSA (PhiState)
open Util.Dominance Util.Folds Util.Loops

inductive Site
  | load (id : ℕ)
  | store (id : ℕ)
  | call (id : ℕ)
  | ret
  deriving DecidableEq

def stmtSites : Stmt → List Site
  | .load l => [.load l]
  | .store st => [.store st]
  | .other => []

def kindSites : NodeKind → List Site
  | .callSite c => [.call c]
  | .retInst => [.ret]
  | .other => []

def nodeSites (inst : ICFGNode) : List Site := inst.stmts.flatMap stmtSites ++ kindSites inst.kind

def sites (fn : FunObjVar) (b : BasicBlock) : List Site := (fn.icfgNodeList b).flatMap nodeSites

def edge (fn : FunObjVar) (a b : BasicBlock) : Prop := b ∈ fn.successors a

abbrev Reach (fn : FunObjVar) (b : BasicBlock) : Prop := Reachable (edge fn) fn.entryBlock b

def frontier (fn : FunObjVar) (b : BasicBlock) : List BasicBlock := (fn.domFrontierMap b).getD []

def children (fn : FunObjVar) (b : BasicBlock) : List BasicBlock := (fn.domTreeMap b).getD []

/-- The control-flow graph, its dominance frontiers and its dominator tree are
right. A statement belongs to one node and a node to one block; the exits of a
function have been unified, so it has at most one return. -/
structure WellFormed (fn : FunObjVar) : Prop where
  reachable : ∀ b, b ∈ fn.reachableBBs ↔ Reach fn b
  preds : ∀ a b, a ∈ fn.predecessors b ↔ b ∈ fn.successors a
  nodupPreds : ∀ b, (fn.predecessors b).Nodup
  frontier : ∀ b, Reach fn b → ∀ y, y ∈ frontier fn b ↔ Frontier (edge fn) fn.entryBlock b y
  treeSound : ∀ b, Reach fn b → ∀ c ∈ children fn b,
    Reach fn c ∧ IDom (edge fn) fn.entryBlock b c
  treeComplete : ∀ c, Reach fn c → c ≠ fn.entryBlock → ∃ b, Reach fn b ∧ c ∈ children fn b
  nodupTree : ∀ b, (children fn b).Nodup
  nodupSites : (fn.reachableBBs.flatMap (sites fn)).Nodup

variable (mrGen : MRGenerator)

def refRegs (c : ℕ) : List MemRegion := (mrGen.callSiteRefMRSet c).getD []

def modRegs (c : ℕ) : List MemRegion := (mrGen.callSiteModMRSet c).getD []

def siteDef (r : MemRegion) : Site → Option MSSADEF
  | .store st => if r ∈ mrGen.storeMRSet st then some (.storeChi st r) else none
  | .call c => if r ∈ modRegs mrGen c then some (.callChi c r) else none
  | _ => none

section

structure Grows (s t : MemSSA) : Prop where
  load : ∀ l, s.load2MuSetMap l ⊆ t.load2MuSetMap l
  store : ∀ st, s.store2ChiSetMap st ⊆ t.store2ChiSetMap st
  callMu : ∀ c, s.callsiteToMuSetMap c ⊆ t.callsiteToMuSetMap c
  callChi : ∀ c, s.callsiteToChiSetMap c ⊆ t.callsiteToChiSetMap c
  defs : ∀ r, s.reg2BBMap r ⊆ t.reg2BBMap r
  used : s.usedRegs ⊆ t.usedRegs
  phi : t.bb2PhiSetMap = s.bb2PhiSetMap
  returnMu : t.returnMuSet = s.returnMuSet
  muVer : t.muVer = s.muVer
  opVer : t.opVer = s.opVer
  resVer : t.resVer = s.resVer
  phiOpVer : t.phiOpVer = s.phiOpVer

instance : Std.Refl Grows :=
  ⟨fun _ => ⟨fun _ _ h => h, fun _ _ h => h, fun _ _ h => h, fun _ _ h => h, fun _ _ h => h,
    fun _ h => h, rfl, rfl, rfl, rfl, rfl, rfl⟩⟩

instance : IsTrans MemSSA Grows :=
  ⟨fun _ _ _ h h' => ⟨fun l _ hr => h'.load l (h.load l hr), fun l _ hr => h'.store l (h.store l hr),
    fun l _ hr => h'.callMu l (h.callMu l hr), fun l _ hr => h'.callChi l (h.callChi l hr),
    fun l _ hr => h'.defs l (h.defs l hr), fun _ hr => h'.used (h.used hr), h'.phi.trans h.phi,
    h'.returnMu.trans h.returnMu, h'.muVer.trans h.muVer, h'.opVer.trans h.opVer,
    h'.resVer.trans h.resVer, h'.phiOpVer.trans h.phiOpVer⟩⟩

/-- Mus and chis are those of the region generator, and their regions are used. -/
structure Collected (blocks : List BasicBlock) (s : MemSSA) : Prop where
  load : ∀ l, ∀ r ∈ s.load2MuSetMap l, r ∈ mrGen.loadMRSet l ∧ r ∈ s.usedRegs
  store : ∀ st, ∀ r ∈ s.store2ChiSetMap st, r ∈ mrGen.storeMRSet st ∧ r ∈ s.usedRegs
  callMu : ∀ c, ∀ r ∈ s.callsiteToMuSetMap c, r ∈ refRegs mrGen c ∧ r ∈ s.usedRegs
  callChi : ∀ c, ∀ r ∈ s.callsiteToChiSetMap c, r ∈ modRegs mrGen c ∧ r ∈ s.usedRegs
  nodupStore : ∀ st, (s.store2ChiSetMap st).Nodup
  nodupCall : ∀ c, (s.callsiteToChiSetMap c).Nodup
  nodupUsed : s.usedRegs.Nodup
  kills : ∀ r ∈ s.varKills, r ∈ s.usedRegs
  defs : ∀ r, ∀ b ∈ s.reg2BBMap r, b ∈ blocks

variable {mrGen} {blocks : List BasicBlock} {s : MemSSA}

theorem collectRegUses_usedRegs (s : MemSSA) (mr : MemRegion) :
    s.usedRegs ⊆ (s.collectRegUses mr).usedRegs := by
  rw [MemSSA.collectRegUses]
  split
  · exact fun _ h => h
  · exact fun _ h => List.mem_insert_of_mem h

theorem mem_collectRegUses {mr : MemRegion} (h : mr ∈ s.varKills → mr ∈ s.usedRegs) :
    mr ∈ (s.collectRegUses mr).usedRegs := by
  rw [MemSSA.collectRegUses]
  split
  · rename_i hk
    exact h hk
  · exact List.mem_insert_self

/-- Everything but `usedRegs` stays. -/
theorem collectRegUses_eq (s : MemSSA) (mr : MemRegion) :
    s.collectRegUses mr = { s with usedRegs := (s.collectRegUses mr).usedRegs } := by
  rw [MemSSA.collectRegUses]
  split <;> rfl

theorem nodup_collectRegUses (h : s.usedRegs.Nodup) (mr : MemRegion) :
    (s.collectRegUses mr).usedRegs.Nodup := by
  rw [MemSSA.collectRegUses]
  split
  · exact h
  · exact h.insert

theorem subset_update_insert (m : ℕ → List MemRegion) (k : ℕ) (mr : MemRegion) (j : ℕ) :
    m j ⊆ Function.update m k ((m k).insert mr) j := by
  intro r hr
  by_cases hj : j = k
  · subst hj
    rw [Function.update_self]
    exact List.mem_insert_of_mem hr
  · rwa [Function.update_of_ne hj]

theorem mem_update_insert {m : ℕ → List MemRegion} {k : ℕ} {mr : MemRegion} {j : ℕ}
    {r : MemRegion} (h : r ∈ Function.update m k ((m k).insert mr) j) :
    r ∈ m j ∨ j = k ∧ r = mr := by
  by_cases hj : j = k
  · subst hj
    rw [Function.update_self, List.mem_insert_iff] at h
    exact h.elim (fun hr => .inr ⟨rfl, hr⟩) .inl
  · rw [Function.update_of_ne hj] at h
    exact .inl h

theorem nodup_update_insert {m : ℕ → List MemRegion} (h : ∀ j, (m j).Nodup) (k : ℕ)
    (mr : MemRegion) (j : ℕ) : (Function.update m k ((m k).insert mr) j).Nodup := by
  by_cases hj : j = k
  · subst hj
    rw [Function.update_self]
    exact (h j).insert
  · rw [Function.update_of_ne hj]
    exact h j

theorem grows_collectRegUses (s : MemSSA) (mr : MemRegion) : Grows s (s.collectRegUses mr) := by
  rw [collectRegUses_eq]
  exact { refl_of Grows s with used := collectRegUses_usedRegs s mr }

theorem grows_collectRegDefs (s : MemSSA) (bb : BasicBlock) (mr : MemRegion) :
    Grows s (s.collectRegDefs bb mr) := by
  refine { refl_of Grows s with defs := fun r b hb => ?_ }
  rw [MemSSA.collectRegDefs]
  by_cases hr : r = mr
  · subst hr
    simp [hb]
  · simpa [hr] using hb

theorem grows_addLoadMU (s : MemSSA) (l : ℕ) (mr : MemRegion) : Grows s (s.AddLoadMU l mr) := by
  refine trans_of Grows ?_ (grows_collectRegUses _ mr)
  exact { refl_of Grows s with load := subset_update_insert s.load2MuSetMap l mr }

theorem grows_addStoreCHI (s : MemSSA) (bb : BasicBlock) (st : ℕ) (mr : MemRegion) :
    Grows s (s.AddStoreCHI bb st mr) := by
  refine trans_of Grows (trans_of Grows ?_ (grows_collectRegUses _ mr))
    (grows_collectRegDefs _ bb mr)
  exact { refl_of Grows s with store := subset_update_insert s.store2ChiSetMap st mr }

theorem grows_addCallSiteMU (s : MemSSA) (c : ℕ) (mr : MemRegion) :
    Grows s (s.AddCallSiteMU c mr) := by
  refine trans_of Grows ?_ (grows_collectRegUses _ mr)
  exact { refl_of Grows s with callMu := subset_update_insert s.callsiteToMuSetMap c mr }

theorem grows_addCallSiteCHI (s : MemSSA) (bb : BasicBlock) (c : ℕ) (mr : MemRegion) :
    Grows s (s.AddCallSiteCHI bb c mr) := by
  refine trans_of Grows (trans_of Grows ?_ (grows_collectRegUses _ mr))
    (grows_collectRegDefs _ bb mr)
  exact { refl_of Grows s with callChi := subset_update_insert s.callsiteToChiSetMap c mr }

theorem Collected.collectRegUses {mr : MemRegion} {load store callMu callChi : ℕ → List MemRegion}
    (h : Collected mrGen blocks s) (hload : ∀ l, ∀ r ∈ load l,
      r ∈ s.load2MuSetMap l ∨ r = mr ∧ r ∈ mrGen.loadMRSet l)
    (hstore : ∀ st, ∀ r ∈ store st,
      r ∈ s.store2ChiSetMap st ∨ r = mr ∧ r ∈ mrGen.storeMRSet st)
    (hcallMu : ∀ c, ∀ r ∈ callMu c, r ∈ s.callsiteToMuSetMap c ∨ r = mr ∧ r ∈ refRegs mrGen c)
    (hcallChi : ∀ c, ∀ r ∈ callChi c, r ∈ s.callsiteToChiSetMap c ∨ r = mr ∧ r ∈ modRegs mrGen c)
    (hnodupStore : ∀ st, (store st).Nodup) (hnodupCall : ∀ c, (callChi c).Nodup) :
    Collected mrGen blocks (MemSSA.collectRegUses { s with
      load2MuSetMap := load
      store2ChiSetMap := store
      callsiteToMuSetMap := callMu
      callsiteToChiSetMap := callChi } mr) := by
  let t : MemSSA := { s with
    load2MuSetMap := load
    store2ChiSetMap := store
    callsiteToMuSetMap := callMu
    callsiteToChiSetMap := callChi }
  have hmr : mr ∈ (t.collectRegUses mr).usedRegs := mem_collectRegUses (h.kills mr)
  have hsub : s.usedRegs ⊆ (t.collectRegUses mr).usedRegs := collectRegUses_usedRegs t mr
  have hnodup := nodup_collectRegUses (s := t) h.nodupUsed mr
  change Collected mrGen blocks (t.collectRegUses mr)
  rw [collectRegUses_eq]
  refine ⟨?_, ?_, ?_, ?_, hnodupStore, hnodupCall, hnodup, fun r hr => hsub (h.kills r hr),
    h.defs⟩
  · intro l r hr
    rcases hload l r hr with hold | ⟨rfl, hnew⟩
    · exact ⟨(h.load l r hold).1, hsub (h.load l r hold).2⟩
    · exact ⟨hnew, hmr⟩
  · intro st r hr
    rcases hstore st r hr with hold | ⟨rfl, hnew⟩
    · exact ⟨(h.store st r hold).1, hsub (h.store st r hold).2⟩
    · exact ⟨hnew, hmr⟩
  · intro c r hr
    rcases hcallMu c r hr with hold | ⟨rfl, hnew⟩
    · exact ⟨(h.callMu c r hold).1, hsub (h.callMu c r hold).2⟩
    · exact ⟨hnew, hmr⟩
  · intro c r hr
    rcases hcallChi c r hr with hold | ⟨rfl, hnew⟩
    · exact ⟨(h.callChi c r hold).1, hsub (h.callChi c r hold).2⟩
    · exact ⟨hnew, hmr⟩

theorem Collected.collectRegDefs {mr : MemRegion} (h : Collected mrGen blocks s)
    (hmr : mr ∈ s.usedRegs) {bb : BasicBlock} (hbb : bb ∈ blocks) :
    Collected mrGen blocks (s.collectRegDefs bb mr) := by
  refine { h with kills := fun r hr => ?_, defs := fun r b hb => ?_ }
  · rcases List.mem_insert_iff.mp hr with rfl | hr
    · exact hmr
    · exact h.kills r hr
  · rw [MemSSA.collectRegDefs] at hb
    by_cases hr : r = mr
    · subst hr
      simp only [Function.update_self] at hb
      rcases List.mem_cons.mp hb with rfl | hb
      · exact hbb
      · exact h.defs r b hb
    · simp only [Function.update_of_ne hr] at hb
      exact h.defs r b hb

def Covered (mrGen : MRGenerator) (b : BasicBlock) (s : MemSSA) : Site → Prop
  | .load l => ∀ r ∈ mrGen.loadMRSet l, r ∈ s.load2MuSetMap l
  | .store st => ∀ r ∈ mrGen.storeMRSet st, r ∈ s.store2ChiSetMap st ∧ b ∈ s.reg2BBMap r
  | .call c => (∀ r ∈ refRegs mrGen c, r ∈ s.callsiteToMuSetMap c) ∧
      ∀ r ∈ modRegs mrGen c, r ∈ s.callsiteToChiSetMap c ∧ b ∈ s.reg2BBMap r
  | .ret => True

theorem Covered.mono {b : BasicBlock} {s t : MemSSA} (h : Grows s t) {site : Site}
    (hs : Covered mrGen b s site) : Covered mrGen b t site := by
  cases site with
  | load l => exact fun r hr => h.load l (hs r hr)
  | store st => exact fun r hr => ⟨h.store st (hs r hr).1, h.defs r (hs r hr).2⟩
  | call c =>
      exact ⟨fun r hr => h.callMu c (hs.1 r hr),
        fun r hr => ⟨h.callChi c (hs.2 r hr).1, h.defs r (hs.2 r hr).2⟩⟩
  | ret => trivial

theorem collected_addLoadMU {l : ℕ} {mr : MemRegion} (h : Collected mrGen blocks s)
    (hmr : mr ∈ mrGen.loadMRSet l) : Collected mrGen blocks (s.AddLoadMU l mr) := by
  refine h.collectRegUses (fun j r hr => ?_) (fun _ _ hr => .inl hr) (fun _ _ hr => .inl hr)
    (fun _ _ hr => .inl hr) h.nodupStore h.nodupCall
  rcases mem_update_insert hr with hr | ⟨rfl, rfl⟩
  · exact .inl hr
  · exact .inr ⟨rfl, hmr⟩

theorem collected_addCallSiteMU {c : ℕ} {mr : MemRegion} (h : Collected mrGen blocks s)
    (hmr : mr ∈ refRegs mrGen c) : Collected mrGen blocks (s.AddCallSiteMU c mr) := by
  refine h.collectRegUses (fun _ _ hr => .inl hr) (fun _ _ hr => .inl hr) (fun j r hr => ?_)
    (fun _ _ hr => .inl hr) h.nodupStore h.nodupCall
  rcases mem_update_insert hr with hr | ⟨rfl, rfl⟩
  · exact .inl hr
  · exact .inr ⟨rfl, hmr⟩

theorem collected_addStoreCHI {st : ℕ} {mr : MemRegion} (h : Collected mrGen blocks s)
    (hmr : mr ∈ mrGen.storeMRSet st) {bb : BasicBlock} (hbb : bb ∈ blocks) :
    Collected mrGen blocks (s.AddStoreCHI bb st mr) := by
  refine Collected.collectRegDefs (h.collectRegUses (fun _ _ hr => .inl hr) (fun j r hr => ?_)
    (fun _ _ hr => .inl hr) (fun _ _ hr => .inl hr)
    (nodup_update_insert h.nodupStore st mr) h.nodupCall) (mem_collectRegUses (h.kills mr)) hbb
  rcases mem_update_insert hr with hr | ⟨rfl, rfl⟩
  · exact .inl hr
  · exact .inr ⟨rfl, hmr⟩

theorem collected_addCallSiteCHI {c : ℕ} {mr : MemRegion} (h : Collected mrGen blocks s)
    (hmr : mr ∈ modRegs mrGen c) {bb : BasicBlock} (hbb : bb ∈ blocks) :
    Collected mrGen blocks (s.AddCallSiteCHI bb c mr) := by
  refine Collected.collectRegDefs (h.collectRegUses (fun _ _ hr => .inl hr) (fun _ _ hr => .inl hr)
    (fun _ _ hr => .inl hr) (fun j r hr => ?_) h.nodupStore
    (nodup_update_insert h.nodupCall c mr)) (mem_collectRegUses (h.kills mr)) hbb
  rcases mem_update_insert hr with hr | ⟨rfl, rfl⟩
  · exact .inl hr
  · exact .inr ⟨rfl, hmr⟩

theorem mem_addStoreCHI (s : MemSSA) (bb : BasicBlock) (st : ℕ) (mr : MemRegion) :
    mr ∈ (s.AddStoreCHI bb st mr).store2ChiSetMap st ∧
      bb ∈ (s.AddStoreCHI bb st mr).reg2BBMap mr := by
  rw [MemSSA.AddStoreCHI, collectRegUses_eq]
  simp [MemSSA.collectRegDefs]

theorem mem_addCallSiteCHI (s : MemSSA) (bb : BasicBlock) (c : ℕ) (mr : MemRegion) :
    mr ∈ (s.AddCallSiteCHI bb c mr).callsiteToChiSetMap c ∧
      bb ∈ (s.AddCallSiteCHI bb c mr).reg2BBMap mr := by
  rw [MemSSA.AddCallSiteCHI, collectRegUses_eq]
  simp [MemSSA.collectRegDefs]

theorem mem_addLoadMU (s : MemSSA) (l : ℕ) (mr : MemRegion) :
    mr ∈ (s.AddLoadMU l mr).load2MuSetMap l := by
  rw [MemSSA.AddLoadMU, collectRegUses_eq]
  simp

theorem mem_addCallSiteMU (s : MemSSA) (c : ℕ) (mr : MemRegion) :
    mr ∈ (s.AddCallSiteMU c mr).callsiteToMuSetMap c := by
  rw [MemSSA.AddCallSiteMU, collectRegUses_eq]
  simp

theorem createStmt_grows (b : BasicBlock) (s : MemSSA) (stmt : Stmt) :
    Grows s (MemSSA.createStmt mrGen b s stmt) := by
  cases stmt with
  | load l => exact foldl_rel Grows (fun r _ t => grows_addLoadMU t l r) s
  | store st => exact foldl_rel Grows (fun r _ t => grows_addStoreCHI t b st r) s
  | other => exact refl_of Grows s

theorem createStmt_collected {b : BasicBlock} (hb : b ∈ blocks) (stmt : Stmt) (h : Collected mrGen blocks s) :
    Collected mrGen blocks (MemSSA.createStmt mrGen b s stmt) := by
  cases stmt with
  | load l =>
      exact foldl_invariant (I := Collected mrGen blocks) (fun r hr t ht => collected_addLoadMU ht hr) h
  | store st =>
      exact foldl_invariant (I := Collected mrGen blocks)
        (fun r hr t ht => collected_addStoreCHI ht hr hb) h
  | other => exact h

theorem createStmt_covers (b : BasicBlock) (s : MemSSA) (stmt : Stmt) :
    ∀ site ∈ stmtSites stmt, Covered mrGen b (MemSSA.createStmt mrGen b s stmt) site := by
  cases stmt with
  | load l =>
      simp only [stmtSites, List.mem_singleton, forall_eq]
      exact fun r hr => foldl_covers Grows (Q := fun t => r ∈ t.load2MuSetMap l)
        (fun r _ t => grows_addLoadMU t l r) (fun _ _ h hm => h.load l hm) hr (fun t _ => mem_addLoadMU t l r)
  | store st =>
      simp only [stmtSites, List.mem_singleton, forall_eq]
      exact fun r hr => foldl_covers Grows
        (Q := fun t => r ∈ t.store2ChiSetMap st ∧ b ∈ t.reg2BBMap r)
        (fun r _ t => grows_addStoreCHI t b st r)
        (fun _ _ h hm => ⟨h.store st hm.1, h.defs r hm.2⟩) hr (fun t _ => mem_addStoreCHI t b st r)
  | other => simp [stmtSites]

theorem createCall_grows (b : BasicBlock) (c : ℕ) (s : MemSSA) :
    Grows s ((modRegs mrGen c).foldl (·.AddCallSiteCHI b c ·)
      ((refRegs mrGen c).foldl (·.AddCallSiteMU c ·) s)) := by
  have hmu := foldl_rel Grows (f := fun t r => t.AddCallSiteMU c r) (l := refRegs mrGen c)
    (fun r _ t => grows_addCallSiteMU t c r) s
  exact trans_of Grows hmu (foldl_rel Grows (fun r _ t => grows_addCallSiteCHI t b c r) _)

theorem createNode_grows (b : BasicBlock) (s : MemSSA) (inst : ICFGNode) :
    Grows s (MemSSA.createNode mrGen b s inst) := by
  have hstmts := foldl_rel Grows (f := MemSSA.createStmt mrGen b) (l := inst.stmts)
    (fun stmt _ t => createStmt_grows b t stmt) s
  rw [MemSSA.createNode]
  split
  · rename_i c _
    exact trans_of Grows hstmts (createCall_grows b c _)
  · exact hstmts

theorem createNode_collected {b : BasicBlock} (hb : b ∈ blocks) (inst : ICFGNode) (h : Collected mrGen blocks s) :
    Collected mrGen blocks (MemSSA.createNode mrGen b s inst) := by
  have hstmts := foldl_invariant (I := Collected mrGen blocks) (f := MemSSA.createStmt mrGen b)
    (l := inst.stmts) (fun stmt _ t ht => createStmt_collected hb stmt ht) h
  rw [MemSSA.createNode]
  split
  · refine foldl_invariant (I := Collected mrGen blocks)
      (fun r hr t ht => collected_addCallSiteCHI ht hr hb) ?_
    exact foldl_invariant (I := Collected mrGen blocks)
      (fun r hr t ht => collected_addCallSiteMU ht hr) hstmts
  · exact hstmts

theorem createNode_covers (b : BasicBlock) (s : MemSSA) (inst : ICFGNode) :
    ∀ site ∈ nodeSites inst, Covered mrGen b (MemSSA.createNode mrGen b s inst) site := by
  intro site hsite
  rcases List.mem_append.mp hsite with hsite | hsite
  · obtain ⟨stmt, hstmt, hsite⟩ := List.mem_flatMap.mp hsite
    have hcovered := foldl_covers Grows (s := s) (f := MemSSA.createStmt mrGen b)
      (Q := fun t => Covered mrGen b t site)
      (fun stmt _ t => createStmt_grows b t stmt) (fun _ _ h ht => ht.mono h) hstmt
      (fun t _ => createStmt_covers b t stmt site hsite)
    rw [MemSSA.createNode]
    split
    · rename_i c _
      exact hcovered.mono (createCall_grows b c _)
    · exact hcovered
  · cases hkind : inst.kind with
    | callSite c =>
        rw [hkind, kindSites, List.mem_singleton] at hsite
        subst hsite
        rw [MemSSA.createNode]
        simp only [hkind]
        refine ⟨fun r hr => ?_, fun r hr => ?_⟩
        · have hmu := foldl_covers Grows (s := inst.stmts.foldl (MemSSA.createStmt mrGen b) s)
            (Q := fun t => r ∈ t.callsiteToMuSetMap c) (fun r _ t => grows_addCallSiteMU t c r)
            (fun _ _ h hm => h.callMu c hm) hr (fun t _ => mem_addCallSiteMU t c r)
          exact (foldl_rel Grows (fun r _ t => grows_addCallSiteCHI t b c r) _).callMu c hmu
        · exact foldl_covers Grows
            (Q := fun t => r ∈ t.callsiteToChiSetMap c ∧ b ∈ t.reg2BBMap r)
            (fun r _ t => grows_addCallSiteCHI t b c r) (fun _ _ h hm => ⟨h.callChi c hm.1, h.defs r hm.2⟩) hr
            (fun t _ => mem_addCallSiteCHI t b c r)
    | retInst =>
        rw [hkind, kindSites, List.mem_singleton] at hsite
        subst hsite
        trivial
    | other =>
        rw [hkind] at hsite
        exact absurd hsite List.not_mem_nil

theorem createBlock_grows (nodes : BasicBlock → List ICFGNode) (s : MemSSA) (b : BasicBlock) :
    Grows s (MemSSA.createBlock mrGen nodes s b) := by
  refine trans_of Grows ?_ (foldl_rel Grows (fun inst _ t => createNode_grows b t inst) _)
  exact { refl_of Grows s with }

theorem createBlock_collected (nodes : BasicBlock → List ICFGNode) {b : BasicBlock}
    (hb : b ∈ blocks)
    (h : Collected mrGen blocks s) : Collected mrGen blocks (MemSSA.createBlock mrGen nodes s b) := by
  refine foldl_invariant (I := Collected mrGen blocks)
    (fun inst _ t ht => createNode_collected hb inst ht) ?_
  exact { h with kills := fun _ hr => absurd hr List.not_mem_nil }

theorem createBlock_covers (fn : FunObjVar) (s : MemSSA) (b : BasicBlock) :
    ∀ site ∈ sites fn b, Covered mrGen b (MemSSA.createBlock mrGen fn.icfgNodeList s b) site := by
  intro site hsite
  obtain ⟨inst, hinst, hsite⟩ := List.mem_flatMap.mp hsite
  exact foldl_covers Grows (Q := fun t => Covered mrGen b t site)
    (fun inst _ t => createNode_grows b t inst) (fun _ _ h ht => ht.mono h) hinst (fun t _ => createNode_covers b t inst site hsite)

structure Started (done : List MemRegion) (s : MemSSA) : Prop where
  returnMu : s.returnMuSet ⊆ done
  stack : ∀ r ∈ done, s.mr2VerStackMap r = [⟨r, 1, .entryChi r⟩, ⟨r, 0, .entryChi r⟩]
  counter : ∀ r ∈ done, s.mr2CounterMap r = 2
  res : ∀ r ∈ done, s.resVer (.entryChi r) = some ⟨r, 1, .entryChi r⟩
  op : ∀ r ∈ done, s.opVer (.entryChi r) = some ⟨r, 0, .entryChi r⟩
  res_only : ∀ d v, s.resVer d = some v → ∃ r ∈ done, d = .entryChi r ∧ v = ⟨r, 1, .entryChi r⟩
  op_only : ∀ d v, s.opVer d = some v → ∃ r ∈ done, d = .entryChi r ∧ v = ⟨r, 0, .entryChi r⟩
  muVer : ∀ m, s.muVer m = none
  phiOpVer : ∀ b r i, s.phiOpVer b r i = none

theorem createEntryChi_eq (hasReturn : Bool) (s : MemSSA) (r : MemRegion) :
    MemSSA.createEntryChi hasReturn s r = { s with
      mr2CounterMap := Function.update s.mr2CounterMap r 2
      mr2VerStackMap := Function.update s.mr2VerStackMap r
        [⟨r, 1, .entryChi r⟩, ⟨r, 0, .entryChi r⟩]
      opVer := Function.update s.opVer (.entryChi r) (some ⟨r, 0, .entryChi r⟩)
      resVer := Function.update s.resVer (.entryChi r) (some ⟨r, 1, .entryChi r⟩)
      entryChiSet := s.entryChiSet.insert r
      returnMuSet := if hasReturn then s.returnMuSet.insert r else s.returnMuSet } := by
  cases hasReturn <;> simp [MemSSA.createEntryChi, MemSSA.newSSAName, MemSSA.setOpVer,
    MemSSA.setResVer]

theorem Started.createEntryChi {done : List MemRegion} (h : Started done s) (hasReturn : Bool)
    (r : MemRegion) : Started (r :: done) (MemSSA.createEntryChi hasReturn s r) := by
  have hcases : ∀ {x}, x ∈ r :: done → x = r ∨ x ≠ r ∧ x ∈ done := by
    intro x hx
    by_cases hxr : x = r
    · exact .inl hxr
    · exact .inr ⟨hxr, (List.mem_cons.mp hx).resolve_left hxr⟩
  rw [createEntryChi_eq]
  constructor
  case returnMu =>
    intro x hx
    cases hasReturn with
    | false => exact List.mem_cons_of_mem r (h.returnMu hx)
    | true =>
        rcases List.mem_insert_iff.mp hx with rfl | hx
        · exact List.mem_cons_self
        · exact List.mem_cons_of_mem r (h.returnMu hx)
  case stack =>
    intro x hx
    rcases hcases hx with rfl | ⟨hne, hx⟩
    · simp
    · simp [hne, h.stack x hx]
  case counter =>
    intro x hx
    rcases hcases hx with rfl | ⟨hne, hx⟩
    · simp
    · simp [hne, h.counter x hx]
  case res =>
    intro x hx
    rcases hcases hx with rfl | ⟨hne, hx⟩
    · simp
    · simp [hne, h.res x hx]
  case op =>
    intro x hx
    rcases hcases hx with rfl | ⟨hne, hx⟩
    · simp
    · simp [hne, h.op x hx]
  case res_only =>
    intro d v hd
    by_cases hdr : d = .entryChi r
    · subst hdr
      simp only [Function.update_self, Option.some.injEq] at hd
      exact ⟨r, List.mem_cons_self, rfl, hd.symm⟩
    · simp only [Function.update_of_ne hdr] at hd
      obtain ⟨x, hx, hv⟩ := h.res_only d v hd
      exact ⟨x, List.mem_cons_of_mem r hx, hv⟩
  case op_only =>
    intro d v hd
    by_cases hdr : d = .entryChi r
    · subst hdr
      simp only [Function.update_self, Option.some.injEq] at hd
      exact ⟨r, List.mem_cons_self, rfl, hd.symm⟩
    · simp only [Function.update_of_ne hdr] at hd
      obtain ⟨x, hx, hv⟩ := h.op_only d v hd
      exact ⟨x, List.mem_cons_of_mem r hx, hv⟩
  case muVer => exact h.muVer
  case phiOpVer => exact h.phiOpVer

theorem foldl_createEntryChi {done : List MemRegion} (h : Started done s) (hasReturn : Bool)
    (regs : List MemRegion) :
    Started (regs.reverse ++ done) (regs.foldl (MemSSA.createEntryChi hasReturn) s) := by
  induction regs generalizing s done with
  | nil => exact h
  | cons r regs ih =>
      rw [List.reverse_cons, List.append_assoc]
      exact ih (h.createEntryChi hasReturn r)

structure SamePlan (s t : MemSSA) : Prop where
  load : t.load2MuSetMap = s.load2MuSetMap
  store : t.store2ChiSetMap = s.store2ChiSetMap
  callMu : t.callsiteToMuSetMap = s.callsiteToMuSetMap
  callChi : t.callsiteToChiSetMap = s.callsiteToChiSetMap
  defs : t.reg2BBMap = s.reg2BBMap
  used : t.usedRegs = s.usedRegs
  kills : t.varKills = s.varKills

instance : Std.Refl SamePlan := ⟨fun _ => ⟨rfl, rfl, rfl, rfl, rfl, rfl, rfl⟩⟩

instance : IsTrans MemSSA SamePlan :=
  ⟨fun _ _ _ h h' => ⟨h'.load.trans h.load, h'.store.trans h.store, h'.callMu.trans h.callMu,
    h'.callChi.trans h.callChi, h'.defs.trans h.defs, h'.used.trans h.used,
    h'.kills.trans h.kills⟩⟩

theorem Collected.samePlan {t : MemSSA} (h : SamePlan s t) (hs : Collected mrGen blocks s) :
    Collected mrGen blocks t := by
  constructor
  case load =>
    rw [h.load, h.used]
    exact hs.load
  case store =>
    rw [h.store, h.used]
    exact hs.store
  case callMu =>
    rw [h.callMu, h.used]
    exact hs.callMu
  case callChi =>
    rw [h.callChi, h.used]
    exact hs.callChi
  case nodupStore =>
    rw [h.store]
    exact hs.nodupStore
  case nodupCall =>
    rw [h.callChi]
    exact hs.nodupCall
  case nodupUsed =>
    rw [h.used]
    exact hs.nodupUsed
  case kills =>
    rw [h.kills, h.used]
    exact hs.kills
  case defs =>
    rw [h.defs]
    exact hs.defs

theorem Covered.samePlan {t : MemSSA} (h : SamePlan s t) {b : BasicBlock} {site : Site}
    (hs : Covered mrGen b s site) : Covered mrGen b t site := by
  cases site with
  | load l =>
      rw [Covered, h.load]
      exact hs
  | store st =>
      rw [Covered, h.store, h.defs]
      exact hs
  | call c =>
      rw [Covered, h.callMu, h.callChi, h.defs]
      exact hs
  | ret => trivial

theorem foldl_createEntryChi_plan (s : MemSSA) (hasReturn : Bool) (regs : List MemRegion) :
    SamePlan s (regs.foldl (MemSSA.createEntryChi hasReturn) s) ∧
      (regs.foldl (MemSSA.createEntryChi hasReturn) s).bb2PhiSetMap = s.bb2PhiSetMap := by
  induction regs generalizing s with
  | nil => exact ⟨refl_of SamePlan s, rfl⟩
  | cons r regs ih =>
      obtain ⟨hplan, hphi⟩ := ih (MemSSA.createEntryChi hasReturn s r)
      have hstep : SamePlan s (MemSSA.createEntryChi hasReturn s r) := by
        rw [createEntryChi_eq]
        exact ⟨rfl, rfl, rfl, rfl, rfl, rfl, rfl⟩
      have hphi' : (MemSSA.createEntryChi hasReturn s r).bb2PhiSetMap = s.bb2PhiSetMap := by
        rw [createEntryChi_eq]
      exact ⟨trans_of SamePlan hstep hplan, hphi.trans hphi'⟩

theorem createMUCHI_spec (mrGen : MRGenerator) (fn : FunObjVar) (verStacks : MemRegion → List MRVer)
    (counters : MemRegion → ℕ) :
    let s := (MemSSA.init verStacks counters).createMUCHI mrGen fn
    Collected mrGen fn.reachableBBs s ∧
      (∀ b ∈ fn.reachableBBs, ∀ site ∈ sites fn b, Covered mrGen b s site) ∧
      (∃ done, Started done s ∧ ∀ r, r ∈ done ↔ r ∈ s.usedRegs) ∧
      s.bb2PhiSetMap = fun _ => [] := by
  let s₀ := fn.reachableBBs.foldl (MemSSA.createBlock mrGen fn.icfgNodeList)
    (MemSSA.init verStacks counters)
  have hgrows : Grows (MemSSA.init verStacks counters) s₀ :=
    foldl_rel Grows (fun b _ t => createBlock_grows fn.icfgNodeList t b) _
  have hcollected : Collected mrGen fn.reachableBBs s₀ := by
    refine foldl_invariant (I := Collected mrGen fn.reachableBBs)
      (fun b hb t ht => createBlock_collected fn.icfgNodeList hb ht) ?_
    exact ⟨fun _ _ h => absurd h List.not_mem_nil, fun _ _ h => absurd h List.not_mem_nil,
      fun _ _ h => absurd h List.not_mem_nil, fun _ _ h => absurd h List.not_mem_nil,
      fun _ => List.nodup_nil, fun _ => List.nodup_nil, List.nodup_nil,
      fun _ h => absurd h List.not_mem_nil, fun _ _ h => absurd h List.not_mem_nil⟩
  have hcovered : ∀ b ∈ fn.reachableBBs, ∀ site ∈ sites fn b, Covered mrGen b s₀ site :=
    fun b hb site hsite => foldl_covers Grows (Q := fun t => Covered mrGen b t site)
      (fun b _ t => createBlock_grows fn.icfgNodeList t b) (fun _ _ h ht => ht.mono h) hb
      (fun t _ => createBlock_covers fn t b site hsite)
  have hstart : Started [] s₀ := by
    refine ⟨?_, by simp, by simp, by simp, by simp, ?_, ?_, ?_, ?_⟩
    · rw [hgrows.returnMu]
      exact List.nil_subset _
    · rw [hgrows.resVer]
      exact fun _ _ h => absurd h (by simp [MemSSA.init])
    · rw [hgrows.opVer]
      exact fun _ _ h => absurd h (by simp [MemSSA.init])
    · rw [hgrows.muVer]
      exact fun _ => rfl
    · rw [hgrows.phiOpVer]
      exact fun _ _ _ => rfl
  obtain ⟨hplan, hphi⟩ := foldl_createEntryChi_plan s₀ fn.hasReturn s₀.usedRegs
  have hfinal := foldl_createEntryChi hstart fn.hasReturn s₀.usedRegs
  refine ⟨hcollected.samePlan hplan, fun b hb site hsite => (hcovered b hb site hsite).samePlan hplan,
    ⟨_, hfinal, fun r => ?_⟩, hphi.trans hgrows.phi⟩
  change _ ↔ r ∈ (s₀.usedRegs.foldl (MemSSA.createEntryChi fn.hasReturn) s₀).usedRegs
  rw [hplan.used, List.append_nil, List.mem_reverse]

end

section

variable {mrGen} {fn : FunObjVar}

def Defines (mrGen : MRGenerator) (fn : FunObjVar) (phis : BasicBlock → List MemRegion)
    (r : MemRegion) (b : BasicBlock) : Prop :=
  r ∈ phis b ∨ ∃ site ∈ sites fn b, (siteDef mrGen r site).isSome

/-- Only phis have been added, and both records of them agree. -/
structure Synced (s₀ : MemSSA) (t : PhiState) : Prop where
  mssa : t.mssa = { s₀ with bb2PhiSetMap := t.mssa.bb2PhiSetMap }
  synced : ∀ r b, r ∈ t.bb2MRSetMap b ↔ r ∈ t.mssa.bb2PhiSetMap b
  nodup : ∀ b, (t.mssa.bb2PhiSetMap b).Nodup

def pending (fn : FunObjVar) (mr : MemRegion) (t : PhiState) : ℕ :=
  2 * (fn.reachableBBs.filter (fun b => mr ∉ t.bb2MRSetMap b)).length + t.bbs.length

theorem filter_length_lt {l : List BasicBlock} {p q : BasicBlock → Bool} {b : BasicBlock}
    (hb : b ∈ l) (hp : p b = true) (hq : q b = false) (hqp : ∀ a, q a = true → p a = true) :
    (l.filter q).length < (l.filter p).length := by
  have hfilter : l.filter q = (l.filter p).filter q := by
    rw [List.filter_filter]
    refine List.filter_congr fun a _ => ?_
    cases hqa : q a with
    | false => rfl
    | true => rw [hqp a hqa, Bool.and_self]
  rw [hfilter]
  refine List.length_filter_lt_length_iff_exists.mpr ⟨b, List.mem_filter.mpr ⟨hb, hp⟩, ?_⟩
  rw [hq]
  exact Bool.false_ne_true

structure Inserted (fn : FunObjVar) (s₀ : MemSSA) (mr : MemRegion) (l : List BasicBlock)
    (t t' : PhiState) : Prop where
  synced : Synced s₀ t'
  phis : ∀ r b, r ∈ t'.mssa.bb2PhiSetMap b ↔ r ∈ t.mssa.bb2PhiSetMap b ∨ r = mr ∧ b ∈ l
  bbs : ∀ b, b ∈ t'.bbs ↔ b ∈ t.bbs ∨ b ∈ l ∧ mr ∉ t.mssa.bb2PhiSetMap b
  pending : pending fn mr t' ≤ pending fn mr t

theorem insertPhiAt_inserted {s₀ : MemSSA} {t : PhiState} (h : Synced s₀ t) (mr : MemRegion)
    {pbb : BasicBlock} (hpbb : pbb ∈ fn.reachableBBs) :
    Inserted fn s₀ mr [pbb] t (MemSSA.insertPhiAt mr t pbb) := by
  rw [MemSSA.insertPhiAt]
  split
  · rename_i hmem
    have hphi := (h.synced mr pbb).mp hmem
    refine ⟨h, fun r b => ⟨.inl, ?_⟩, fun b => ⟨.inl, ?_⟩, Nat.le_refl _⟩
    · rintro (hr | ⟨rfl, hb⟩)
      · exact hr
      · rwa [List.mem_singleton.mp hb]
    · rintro (hb | ⟨hb, hnot⟩)
      · exact hb
      · rw [List.mem_singleton.mp hb] at hnot
        exact absurd hphi hnot
  · rename_i hnot
    have hphi : mr ∉ t.mssa.bb2PhiSetMap pbb := fun hr => hnot ((h.synced mr pbb).mpr hr)
    have hmem : ∀ (m : BasicBlock → List MemRegion) r b,
        r ∈ Function.update m pbb ((m pbb).insert mr) b ↔ r ∈ m b ∨ r = mr ∧ b ∈ [pbb] := by
      intro m r b
      by_cases hb : b = pbb
      · subst hb
        rw [Function.update_self, List.mem_insert_iff]
        simp [or_comm]
      · simp [hb]
    refine ⟨⟨?_, fun r b => ?_, fun b => ?_⟩, hmem t.mssa.bb2PhiSetMap, fun b => ?_, ?_⟩
    · simp only [MemSSA.AddMSSAPHI]
      rw [h.mssa]
    · exact (hmem _ r b).trans ((or_congr (h.synced r b) Iff.rfl).trans
        (hmem t.mssa.bb2PhiSetMap r b).symm)
    · exact nodup_update_insert h.nodup pbb mr b
    · constructor
      · intro hb
        rcases List.mem_cons.mp hb with rfl | hb
        · exact .inr ⟨List.mem_singleton_self b, hphi⟩
        · exact .inl hb
      · rintro (hb | ⟨hb, -⟩)
        · exact List.mem_cons_of_mem pbb hb
        · exact List.mem_cons.mpr (.inl (List.mem_singleton.mp hb))
    · have hlt := filter_length_lt (p := fun b => decide (mr ∉ t.bb2MRSetMap b))
        (q := fun b => decide (mr ∉ Function.update t.bb2MRSetMap pbb
          ((t.bb2MRSetMap pbb).insert mr) b)) hpbb (by simp [hnot]) (by simp) (fun a ha => ?_)
      · simp only [pending, List.length_cons]
        omega
      · simp only [decide_eq_true_eq] at ha ⊢
        exact fun hm => ha ((hmem _ mr a).mpr (.inl hm))

theorem Inserted.trans {s₀ : MemSSA} {mr : MemRegion} {l l' : List BasicBlock}
    {t t' t'' : PhiState} (h : Inserted fn s₀ mr l t t') (h' : Inserted fn s₀ mr l' t' t'') :
    Inserted fn s₀ mr (l ++ l') t t'' := by
  refine ⟨h'.synced, fun r b => ?_, fun b => ?_, Nat.le_trans h'.pending h.pending⟩
  · rw [h'.phis, h.phis, List.mem_append]
    tauto
  · rw [h'.bbs, h.bbs, h.phis, List.mem_append]
    tauto

theorem foldl_insertPhiAt {s₀ : MemSSA} {t : PhiState} (h : Synced s₀ t) (mr : MemRegion)
    (l : List BasicBlock) (hl : ∀ b ∈ l, b ∈ fn.reachableBBs) :
    Inserted fn s₀ mr l t (l.foldl (MemSSA.insertPhiAt mr) t) := by
  induction l generalizing t with
  | nil => exact ⟨h, by simp, by simp, Nat.le_refl _⟩
  | cons b l ih =>
      have hstep := insertPhiAt_inserted h mr (hl b List.mem_cons_self)
      exact hstep.trans (ih hstep.synced (fun c hc => hl c (List.mem_cons_of_mem b hc)))

structure Inserting (fn : FunObjVar) (s₀ : MemSSA) (phis : BasicBlock → List MemRegion)
    (mr : MemRegion) (t : PhiState) : Prop where
  synced : Synced s₀ t
  others : ∀ r b, r ≠ mr → (r ∈ t.mssa.bb2PhiSetMap b ↔ r ∈ phis b)
  reach : ∀ b ∈ t.bbs, Reach fn b
  closed : ∀ b, b ∈ s₀.reg2BBMap mr ∨ mr ∈ t.mssa.bb2PhiSetMap b → b ∈ t.bbs ∨
    ∀ y ∈ frontier fn b, mr ∈ t.mssa.bb2PhiSetMap y

theorem Inserting.step (hfn : WellFormed fn) {s₀ : MemSSA} {phis : BasicBlock → List MemRegion}
    {mr : MemRegion} {t : PhiState} (h : Inserting fn s₀ phis mr t) (hbbs : t.bbs ≠ []) :
    ∃ t', MemSSA.insertPhiStep fn.domFrontierMap mr t = some t' ∧
      Inserting fn s₀ phis mr t' ∧ pending fn mr t' < pending fn mr t := by
  obtain ⟨bb, bbs, hcons⟩ := List.exists_cons_of_ne_nil hbbs
  have hreach : Reach fn bb := h.reach bb (hcons ▸ List.mem_cons_self)
  have hfrontier : ∀ y ∈ frontier fn bb, Reach fn y := by
    intro y hy
    obtain ⟨a, ha, hay, -⟩ := (hfn.frontier bb hreach y).mp hy
    exact ha.step hay
  have hpop : Synced s₀ { t with bbs } := ⟨h.synced.mssa, h.synced.synced, h.synced.nodup⟩
  have hins := foldl_insertPhiAt hpop mr (frontier fn bb)
    (fun y hy => (hfn.reachable y).mpr (hfrontier y hy))
  have hstep : MemSSA.insertPhiStep fn.domFrontierMap mr t =
      some ((frontier fn bb).foldl (MemSSA.insertPhiAt mr) { t with bbs }) := by
    rw [MemSSA.insertPhiStep, hcons, frontier]
    simp only
    cases fn.domFrontierMap bb <;> rfl
  refine ⟨_, hstep, ⟨hins.synced, fun r b hr => ?_, fun b hb => ?_, fun b hb => ?_⟩, ?_⟩
  · rw [hins.phis]
    exact ⟨fun hmem => (h.others r b hr).mp (hmem.resolve_right (fun h => hr h.1)),
      fun hmem => .inl ((h.others r b hr).mpr hmem)⟩
  · rcases (hins.bbs b).mp hb with hb | ⟨hb, -⟩
    · exact h.reach b (hcons ▸ List.mem_cons_of_mem bb hb)
    · exact hfrontier b hb
  · by_cases hbb : b = bb
    · subst hbb
      exact .inr (fun y hy => (hins.phis mr y).mpr (.inr ⟨rfl, hy⟩))
    · by_cases hold : b ∈ s₀.reg2BBMap mr ∨ mr ∈ t.mssa.bb2PhiSetMap b
      · rcases h.closed b hold with hmem | hclosed
        · rw [hcons] at hmem
          exact .inl ((hins.bbs b).mpr (.inl ((List.mem_cons.mp hmem).resolve_left hbb)))
        · exact .inr (fun y hy => (hins.phis mr y).mpr (.inl (hclosed y hy)))
      · rw [not_or] at hold
        have hnew := ((hins.phis mr b).mp (hb.resolve_left hold.1)).resolve_left hold.2
        exact .inl ((hins.bbs b).mpr (.inr ⟨hnew.2, hold.2⟩))
  · refine Nat.lt_of_le_of_lt hins.pending ?_
    simp only [pending, hcons, List.length_cons]
    omega

theorem insertPhiOf_spec (hfn : WellFormed fn) {s₀ : MemSSA} {mr : MemRegion} {t : PhiState}
    (h : Synced s₀ t) (hnew : ∀ b, mr ∉ t.mssa.bb2PhiSetMap b)
    (hdefs : ∀ b ∈ s₀.reg2BBMap mr, Reach fn b) {fuel : ℕ}
    (hfuel : 2 * fn.reachableBBs.length + (s₀.reg2BBMap mr).length ≤ fuel) :
    ∃ t', MemSSA.insertPhiOf fuel fn.domFrontierMap t mr = some t' ∧ Synced s₀ t' ∧
      (∀ r b, r ≠ mr → (r ∈ t'.mssa.bb2PhiSetMap b ↔ r ∈ t.mssa.bb2PhiSetMap b)) ∧
      ∀ b, b ∈ s₀.reg2BBMap mr ∨ mr ∈ t'.mssa.bb2PhiSetMap b →
        ∀ y ∈ frontier fn b, mr ∈ t'.mssa.bb2PhiSetMap y := by
  have hmap : t.mssa.reg2BBMap mr = s₀.reg2BBMap mr := by rw [h.mssa]
  have hstart : Inserting fn s₀ t.mssa.bb2PhiSetMap mr { t with bbs := t.mssa.reg2BBMap mr } := by
    refine ⟨⟨h.mssa, h.synced, h.nodup⟩, fun _ _ _ => Iff.rfl, ?_, fun b hb => .inl ?_⟩
    · rw [hmap]
      exact hdefs
    · rw [hmap]
      exact hb.resolve_right (hnew b)
  have hle : pending fn mr { t with bbs := t.mssa.reg2BBMap mr } ≤ fuel := by
    have hfilter := List.length_filter_le (fun b => decide (mr ∉ t.bb2MRSetMap b)) fn.reachableBBs
    simp only [pending, hmap]
    omega
  obtain ⟨t', hrun, hinv, hend⟩ := whileLoop_terminates
    (fun t : PhiState => !t.bbs.isEmpty) (fun u hu hguard => hu.step hfn (by simpa using hguard)) hstart hle
  have hempty : t'.bbs = [] := by simpa using hend
  refine ⟨t', hrun, hinv.synced, hinv.others, fun b hb => ?_⟩
  have hclosed := hinv.closed b hb
  rw [hempty] at hclosed
  exact hclosed.resolve_left List.not_mem_nil

theorem foldlM_insertPhiOf (hfn : WellFormed fn) {s₀ : MemSSA} {fuel : ℕ} (regs : List MemRegion)
    (hregs : regs.Nodup) {t : PhiState} (h : Synced s₀ t)
    (hnew : ∀ r ∈ regs, ∀ b, r ∉ t.mssa.bb2PhiSetMap b)
    (hdefs : ∀ r, ∀ b ∈ s₀.reg2BBMap r, Reach fn b)
    (hfuel : ∀ r ∈ regs, 2 * fn.reachableBBs.length + (s₀.reg2BBMap r).length ≤ fuel) :
    ∃ t', regs.foldlM (MemSSA.insertPhiOf fuel fn.domFrontierMap) t = some t' ∧ Synced s₀ t' ∧
      (∀ r b, r ∉ regs → (r ∈ t'.mssa.bb2PhiSetMap b ↔ r ∈ t.mssa.bb2PhiSetMap b)) ∧
      ∀ r ∈ regs, ∀ b, b ∈ s₀.reg2BBMap r ∨ r ∈ t'.mssa.bb2PhiSetMap b →
        ∀ y ∈ frontier fn b, r ∈ t'.mssa.bb2PhiSetMap y := by
  induction regs generalizing t with
  | nil => exact ⟨t, rfl, h, fun _ _ _ => Iff.rfl, by simp⟩
  | cons r regs ih =>
      obtain ⟨hr, hregs⟩ := List.nodup_cons.mp hregs
      have hr' : ∀ x ∈ regs, x ≠ r := fun x hx hxr => hr (hxr ▸ hx)
      obtain ⟨t₁, hrun₁, h₁, hothers₁, hclosed₁⟩ := insertPhiOf_spec hfn h
        (hnew r List.mem_cons_self) (hdefs r) (hfuel r List.mem_cons_self)
      obtain ⟨t₂, hrun₂, h₂, hothers₂, hclosed₂⟩ := ih hregs h₁
        (fun x hx b hb => hnew x (List.mem_cons_of_mem r hx) b
          ((hothers₁ x b (hr' x hx)).mp hb))
        (fun x hx => hfuel x (List.mem_cons_of_mem r hx))
      refine ⟨t₂, ?_, h₂, fun x b hx => ?_, fun x hx b hb y hy => ?_⟩
      · rw [List.foldlM_cons, hrun₁]
        exact hrun₂
      · rw [List.mem_cons, not_or] at hx
        exact (hothers₂ x b hx.2).trans (hothers₁ x b hx.1)
      · rcases List.mem_cons.mp hx with rfl | hx
        · rw [hothers₂ x b hr] at hb
          exact (hothers₂ x y hr).mpr (hclosed₁ b hb y hy)
        · exact hclosed₂ x hx b hb y hy

theorem exists_bound (f : MemRegion → ℕ) (l : List MemRegion) : ∃ n, ∀ r ∈ l, f r ≤ n := by
  induction l with
  | nil => exact ⟨0, by simp⟩
  | cons a l ih =>
      obtain ⟨n, hn⟩ := ih
      refine ⟨max n (f a), fun r hr => ?_⟩
      rcases List.mem_cons.mp hr with rfl | hr
      · exact Nat.le_max_right n _
      · exact Nat.le_trans (hn r hr) (Nat.le_max_left n _)

structure Planned (mrGen : MRGenerator) (fn : FunObjVar) (s : MemSSA) : Prop where
  collected : Collected mrGen fn.reachableBBs s
  covered : ∀ b ∈ fn.reachableBBs, ∀ site ∈ sites fn b, Covered mrGen b s site
  phiNodup : ∀ b, (s.bb2PhiSetMap b).Nodup
  phiUsed : ∀ b, ∀ r ∈ s.bb2PhiSetMap b, r ∈ s.usedRegs
  returnUsed : ∀ r ∈ s.returnMuSet, r ∈ s.usedRegs
  closed : ∀ r ∈ s.usedRegs, ∀ z y, Reach fn z → Defines mrGen fn s.bb2PhiSetMap r z →
    Frontier (edge fn) fn.entryBlock z y → r ∈ s.bb2PhiSetMap y

theorem defines_reg2BBMap {s : MemSSA} {b : BasicBlock} {r : MemRegion}
    (hcovered : ∀ site ∈ sites fn b, Covered mrGen b s site) {site : Site} (hsite : site ∈ sites fn b)
    (hdef : (siteDef mrGen r site).isSome) : b ∈ s.reg2BBMap r := by
  have hcover := hcovered site hsite
  cases site with
  | store st =>
      rw [siteDef] at hdef
      split at hdef
      · rename_i hr
        exact (hcover r hr).2
      · cases hdef
  | call c =>
      rw [siteDef] at hdef
      split at hdef
      · rename_i hr
        exact (hcover.2 r hr).2
      · cases hdef
  | load _ => cases hdef
  | ret => cases hdef

/-- With enough fuel the mus, chis and phis are placed, and nothing is renamed yet. -/
theorem exists_plan (mrGen : MRGenerator) (hfn : WellFormed fn) (verStacks : MemRegion → List MRVer)
    (counters : MemRegion → ℕ) :
    ∃ n, ∀ fuel ≥ n, ∃ s, ((MemSSA.init verStacks counters).createMUCHI mrGen fn).insertPHI fuel fn =
      some s ∧ Planned mrGen fn s ∧ ∃ done, Started done s ∧ ∀ r, r ∈ done ↔ r ∈ s.usedRegs := by
  obtain ⟨hcollected, hcovered, ⟨done, hstarted, hdone⟩, hphi⟩ :=
    createMUCHI_spec mrGen fn verStacks counters
  generalize (MemSSA.init verStacks counters).createMUCHI mrGen fn = s₀ at *
  obtain ⟨n, hn⟩ := exists_bound
    (fun r => 2 * fn.reachableBBs.length + (s₀.reg2BBMap r).length) s₀.usedRegs
  refine ⟨n, fun fuel hfuel => ?_⟩
  have hstart : Synced s₀ ⟨[], fun _ => [], s₀⟩ := by
    refine ⟨rfl, fun r b => ?_, fun b => ?_⟩
    · rw [hphi]
    · rw [hphi]
      exact List.nodup_nil
  have hempty : ∀ r b, r ∉ s₀.bb2PhiSetMap b := by
    intro r b
    rw [hphi]
    exact List.not_mem_nil
  obtain ⟨t, hrun, hsynced, hothers, hclosed⟩ := foldlM_insertPhiOf hfn s₀.usedRegs
    hcollected.nodupUsed hstart (fun r _ => hempty r)
    (fun r b hb => (hfn.reachable b).mp (hcollected.defs r b hb))
    (fun r hr => Nat.le_trans (hn r hr) hfuel)
  have hplan : SamePlan s₀ t.mssa := by
    rw [hsynced.mssa]
    exact ⟨rfl, rfl, rfl, rfl, rfl, rfl, rfl⟩
  have hcover : ∀ b ∈ fn.reachableBBs, ∀ site ∈ sites fn b, Covered mrGen b t.mssa site :=
    fun b hb site hsite => (hcovered b hb site hsite).samePlan hplan
  have hstarted' : Started done t.mssa := by
    rw [hsynced.mssa]
    exact ⟨hstarted.returnMu, hstarted.stack, hstarted.counter, hstarted.res, hstarted.op,
      hstarted.res_only, hstarted.op_only, hstarted.muVer, hstarted.phiOpVer⟩
  have hused : ∀ r, r ∈ done ↔ r ∈ t.mssa.usedRegs := by
    rw [hplan.used]
    exact hdone
  refine ⟨t.mssa, ?_, ⟨hcollected.samePlan hplan, hcover, hsynced.nodup, fun b r hr => ?_,
    fun r hr => (hused r).mp (hstarted'.returnMu hr), fun r hr z y hz hdef hy => ?_⟩,
    done, hstarted', hused⟩
  · rw [MemSSA.insertPHI, hrun]
    rfl
  · rw [hplan.used]
    by_contra hnot
    exact hempty r b ((hothers r b hnot).mp hr)
  · rw [hplan.used] at hr
    refine hclosed r hr z ?_ y ((hfn.frontier z hz y).mpr hy)
    rcases hdef with hphi | ⟨site, hsite, hdef⟩
    · exact .inr hphi
    · have hmem := defines_reg2BBMap (hcover z ((hfn.reachable z).mpr hz)) hsite hdef
      rw [hplan.defs] at hmem
      exact .inl hmem

end

end SVF.MSSA.Placement
