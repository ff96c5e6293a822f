import Mathlib.Algebra.Group.Nat.Even
import Mathlib.Data.List.TakeWhile
import SVF.Graphs.SVFGLines
import SVF.Util.Folds

namespace SVF.Graphs.SVFGRestored

open MemoryModel.PointsToSets MemoryModel.PtsLines MSSA.MRVerText Util.TextFiles Util.Folds SVFGFile
open SVFGLines
open SVFGOPT (IndirectSVFGEdge)

section

variable {um : UnorderedMap} {prog : Program} {g g' : SVFG}

structure SameGraph (g g' : SVFG) : Prop where
  totalVFGNode : g'.totalVFGNode = g.totalVFGNode
  nodes : g'.nodes = g.nodes
  edges : g'.edges = g.edges
  totalVERNum : g'.totalVERNum = g.totalVERNum

theorem setDef_spec {mvar : MRVer} {id : NodeID} (h : g.setDef mvar id = some g') :
    SameGraph g g' ∧ ∀ n, g'.MSSAVarToDefMap n ≠ none → n = mvar.vid ∨ g.MSSAVarToDefMap n ≠ none := by
  rw [SVFG.setDef] at h
  split at h
  · obtain rfl := Option.some.inj h
    refine ⟨⟨rfl, rfl, rfl, rfl⟩, fun n hn => ?_⟩
    by_cases hv : n = mvar.vid
    · exact .inl hv
    · have hold : Function.update g.MSSAVarToDefMap mvar.vid (some id) n = g.MSSAVarToDefMap n :=
        Function.update_of_ne hv _ _
      exact .inr (hold ▸ hn)
  · split at h
    · obtain rfl := Option.some.inj h
      exact ⟨⟨rfl, rfl, rfl, rfl⟩, fun _ => .inr⟩
    · contradiction

def Bounded (g : SVFG) : Prop := ∀ n, g.totalVERNum ≤ n → g.MSSAVarToDefMap n = none

theorem setDef_fresh {mvar : MRVer} (h : g.MSSAVarToDefMap mvar.vid = none) (id : NodeID) :
    g.setDef mvar id = some { g with
      MSSAVarToDefMap := Function.update g.MSSAVarToDefMap mvar.vid (some id) } := by
  rw [SVFG.setDef, h]

theorem setDef_bounded {mvar : MRVer} {id : NodeID} (hg : Bounded g) (hv : mvar.vid < g.totalVERNum)
    (h : g.setDef mvar id = some g') : Bounded g' := by
  obtain ⟨hsame, hdef⟩ := setDef_spec h
  intro n hn
  rw [hsame.totalVERNum] at hn
  by_contra hne
  rcases hdef n hne with rfl | hne
  · exact absurd hv (Nat.not_lt.mpr hn)
  · exact hne (hg n hn)

theorem addGNode_nodes {id : NodeID} (hid : ∀ p ∈ g.nodes, p.1 < id) (node : MSSANode) :
    (g.addGNode id node).nodes = g.nodes ++ [(id, node)] := by
  have htake : g.nodes.takeWhile (·.1 < id) = g.nodes := by
    apply List.takeWhile_eq_self_iff.mpr
    intro p hp
    simpa using hid p hp
  have hdrop : g.nodes.dropWhile (·.1 ≤ id) = [] := by
    apply List.dropWhile_eq_nil_iff.mpr
    intro p hp
    simpa using Nat.le_of_lt (hid p hp)
  rw [SVFG.addGNode]
  simp only [htake, hdrop]

theorem addMSSANode_spec {id : NodeID} {node : MSSANode} (hid : ∀ p ∈ g.nodes, p.1 < id)
    (h : g.addMSSANode id node = some g') : g'.nodes = g.nodes ++ [(id, node)] ∧
      g'.totalVFGNode = g.totalVFGNode ∧ g'.edges = g.edges ∧ g'.totalVERNum = g.totalVERNum := by
  have hnodes := addGNode_nodes hid node
  rw [SVFG.addMSSANode] at h
  split at h
  · obtain ⟨hsame, -⟩ := setDef_spec h
    exact ⟨hsame.nodes.trans hnodes, hsame.totalVFGNode, hsame.edges, hsame.totalVERNum⟩
  · obtain rfl := Option.some.inj h
    exact ⟨hnodes, rfl, rfl, rfl⟩

def memoryNodes (um : UnorderedMap) (prog : Program) : List MSSANode :=
  prog.phis.map (fun phi =>
    .MSSAPHISVFGNode (prog.front phi.bb) phi.resVer (um.iterate phi.opVers)) ++
  (prog.entryChis.map (fun chi => .FormalINSVFGNode (prog.getFunEntryICFGNode chi.1) chi.2) ++
  (prog.returnMus.map (fun mu => .FormalOUTSVFGNode (prog.getFunExitICFGNode mu.1) mu.2) ++
  (prog.callMus.map (fun mu => .ActualINSVFGNode mu.1 mu.2) ++
  prog.callChis.map fun chi => .ActualOUTSVFGNode chi.1 chi.2)))

def addNew (g : SVFG) (node : MSSANode) : Option SVFG :=
  withNewID (fun g id => g.addMSSANode id node) g

theorem addSVFGNodesForAddrTakenVars_eq (g : SVFG) : addSVFGNodesForAddrTakenVars um prog g =
    (setStoreDefs prog g).bind fun g => (memoryNodes um prog).foldlM addNew g := by
  rw [addSVFGNodesForAddrTakenVars, memoryNodes]
  simp only [List.foldlM_append, List.foldlM_map]
  rfl

def numbered : ℕ → List MSSANode → List (NodeID × MSSANode)
  | _, [] => []
  | k, node :: nodes => (k, node) :: numbered (k + 1) nodes

theorem mem_numbered {k : ℕ} {nodes : List MSSANode} {p : NodeID × MSSANode}
    (hp : p ∈ numbered k nodes) : k ≤ p.1 ∧ p.1 < k + nodes.length ∧ p.2 ∈ nodes := by
  induction nodes generalizing k with
  | nil => exact absurd hp List.not_mem_nil
  | cons node nodes ih =>
      rw [List.length_cons]
      rcases List.mem_cons.mp hp with rfl | hp
      · exact ⟨Nat.le_refl k, Nat.lt_add_of_pos_right (Nat.succ_pos _), List.mem_cons_self⟩
      · obtain ⟨hle, hlt, hmem⟩ := ih hp
        rw [Nat.succ_add_eq_add_succ] at hlt
        exact ⟨Nat.le_of_succ_le hle, hlt, List.mem_cons_of_mem node hmem⟩

theorem foldlM_addNew {nodes : List MSSANode} (hid : ∀ p ∈ g.nodes, p.1 < g.totalVFGNode)
    (h : nodes.foldlM addNew g = some g') :
    g'.nodes = g.nodes ++ numbered g.totalVFGNode nodes ∧ g'.edges = g.edges := by
  induction nodes generalizing g with
  | nil =>
      obtain rfl := Option.some.inj h
      exact ⟨(List.append_nil _).symm, rfl⟩
  | cons node nodes ih =>
      obtain ⟨g₁, hadd, hrest⟩ := Option.bind_eq_some_iff.mp h
      have hspec := addMSSANode_spec (g := { g with totalVFGNode := g.totalVFGNode + 1 }) hid hadd
      obtain ⟨hnodes, hcount, hedges, -⟩ := hspec
      have hnext : ∀ p ∈ g₁.nodes, p.1 < g₁.totalVFGNode := by
        intro p hp
        rw [hnodes] at hp
        rw [hcount]
        rcases List.mem_append.mp hp with hp | hp
        · exact Nat.lt_succ_of_lt (hid p hp)
        · rw [List.mem_singleton.mp hp]
          exact Nat.lt_succ_self _
      obtain ⟨hnodes', hedges'⟩ := ih hnext hrest
      refine ⟨?_, hedges'.trans hedges⟩
      rw [hnodes', hnodes, hcount, List.append_assoc]
      rfl

end

section

variable {um : UnorderedMap} {prog : Program} {g : SVFG} {node : NodeID × MSSANode}

theorem vid_restoredNode (um : UnorderedMap) (prog : Program) (n : ℕ) (node : MSSANode) :
    (restoredNode um prog n node).getMRVer.vid = n := by
  cases node <;> rfl

theorem versions_pos (um : UnorderedMap) (node : MSSANode) : 0 < versions um node := by
  cases node with
  | MSSAPHISVFGNode => exact Nat.add_pos_left Nat.one_pos _
  | _ => exact Nat.one_pos

/-- No version that is read has been defined before. -/
theorem addMSSANode_fresh (hb : Bounded g) {id : NodeID} (hid : ∀ p ∈ g.nodes, p.1 < id)
    {v : ℕ} (hv : 0 < v) {new : MSSANode} (hnew : new.getMRVer.vid = g.totalVERNum) :
    ∃ g', (withVersions v g).addMSSANode id new = some g' ∧ g'.nodes = g.nodes ++ [(id, new)] ∧
      g'.edges = g.edges ∧ g'.totalVFGNode = g.totalVFGNode ∧ Bounded g' := by
  have hnodes : ((withVersions v g).addGNode id new).nodes = g.nodes ++ [(id, new)] :=
    addGNode_nodes hid new
  have hbound : Bounded ((withVersions v g).addGNode id new) := fun n hn =>
    hb n (Nat.le_of_add_right_le hn)
  rw [SVFG.addMSSANode]
  split
  · have hnone : ((withVersions v g).addGNode id new).MSSAVarToDefMap new.getMRVer.vid = none :=
      hnew ▸ hb g.totalVERNum (Nat.le_refl _)
    have hset := setDef_fresh hnone id
    have hlt : new.getMRVer.vid < ((withVersions v g).addGNode id new).totalVERNum :=
      hnew ▸ Nat.lt_add_of_pos_right hv
    exact ⟨_, hset, hnodes, rfl, rfl, setDef_bounded hbound hlt hset⟩
  · exact ⟨_, rfl, hnodes, rfl, rfl, hbound⟩

theorem readNode_step (h : Readable um prog node) (hops : HasOperands um node.2) (hb : Bounded g)
    (hid : ∀ p ∈ g.nodes, p.1 < node.1) :
    ∃ g', readNode um prog g (nodeLine um prog node) = some g' ∧
      g'.nodes = g.nodes ++ [(node.1, restoredNode um prog g.totalVERNum node.2)] ∧
      g'.edges = g.edges ∧ g'.totalVFGNode = bumped node.1 g.totalVFGNode ∧ Bounded g' := by
  obtain ⟨g', hadd, hnodes, hedges, hcount, hb'⟩ := addMSSANode_fresh hb hid
    (versions_pos um node.2) (vid_restoredNode um prog g.totalVERNum node.2)
  refine ⟨withBumped node.1 g', ?_, hnodes, hedges, congrArg (bumped node.1) hcount, hb'⟩
  rw [readNode_nodeLine h hops, hadd, Option.map_some]

def Restores (um : UnorderedMap) (prog : Program) (p q : NodeID × MSSANode) : Prop :=
  q.1 = p.1 ∧ ∃ n, q.2 = restoredNode um prog n p.2

def countAfter (totalVFGNode : ℕ) (ids : List NodeID) : ℕ := ids.foldl (fun c id => bumped id c) totalVFGNode

theorem readNodes_lines {nodes : List (NodeID × MSSANode)} (F : List Text)
    (h : ∀ p ∈ nodes, Readable um prog p) (hops : ∀ p ∈ nodes, HasOperands um p.2)
    (hsorted : nodes.Pairwise fun p q => p.1 < q.1) (hb : Bounded g)
    (hid : ∀ p ∈ g.nodes, ∀ q ∈ nodes, p.1 < q.1) :
    ∃ g' added, readNodes um prog (nodes.map (nodeLine um prog) ++ F) g = readNodes um prog F g' ∧
      List.Forall₂ (Restores um prog) nodes added ∧ g'.nodes = g.nodes ++ added ∧
      g'.edges = g.edges ∧ g'.totalVFGNode = countAfter g.totalVFGNode (nodes.map Prod.fst) ∧
      Bounded g' := by
  induction nodes generalizing g with
  | nil => exact ⟨g, [], rfl, .nil, (List.append_nil _).symm, rfl, rfl, hb⟩
  | cons node nodes ih =>
      obtain ⟨hnode, hrest⟩ := List.forall_mem_cons.mp h
      obtain ⟨hop, hoprest⟩ := List.forall_mem_cons.mp hops
      obtain ⟨hlt, hsorted'⟩ := List.pairwise_cons.mp hsorted
      obtain ⟨g₁, hread, hnodes, hedges, hcount, hb₁⟩ :=
        readNode_step hnode hop hb fun p hp => hid p hp node List.mem_cons_self
      have hid₁ : ∀ p ∈ g₁.nodes, ∀ q ∈ nodes, p.1 < q.1 := by
        intro p hp q hq
        rw [hnodes] at hp
        rcases List.mem_append.mp hp with hp | hp
        · exact hid p hp q (List.mem_cons_of_mem node hq)
        · rw [List.mem_singleton.mp hp]
          exact hlt q hq
      obtain ⟨g', added, hreads, hadded, hnodes', hedges', hcount', hb'⟩ :=
        ih hrest hoprest hsorted' hb₁ hid₁
      refine ⟨g', (node.1, restoredNode um prog g.totalVERNum node.2) :: added, ?_,
        .cons ⟨rfl, _, rfl⟩ hadded, ?_, hedges'.trans hedges, ?_, hb'⟩
      · have hnone : (find "__Edges__".toList (nodeLine um prog node)).isSome ≠ true := by
          rw [find_nodeLine]
          exact Bool.false_ne_true
        rw [List.map_cons, List.cons_append, readNodes, if_neg (nodeLine_ne_nil node), if_neg hnone,
          hread, Option.bind_some]
        exact hreads
      · rw [hnodes', hnodes, List.append_assoc]
        rfl
      · rw [hcount', hcount]
        rfl

/-- Where one of the nodes is a phi without operands, nothing is read. -/
theorem readNodes_lines_eq_none {nodes : List (NodeID × MSSANode)} (F : List Text)
    (h : ∀ p ∈ nodes, Readable um prog p) (hops : ∃ p ∈ nodes, ¬ HasOperands um p.2) (g : SVFG) :
    readNodes um prog (nodes.map (nodeLine um prog) ++ F) g = none := by
  induction nodes generalizing g with
  | nil =>
      obtain ⟨p, hp, -⟩ := hops
      exact absurd hp List.not_mem_nil
  | cons node nodes ih =>
      obtain ⟨hnode, hrest⟩ := List.forall_mem_cons.mp h
      have hnone : (find "__Edges__".toList (nodeLine um prog node)).isSome ≠ true := by
        rw [find_nodeLine]
        exact Bool.false_ne_true
      rw [List.map_cons, List.cons_append, readNodes, if_neg (nodeLine_ne_nil node), if_neg hnone]
      by_cases hop : HasOperands um node.2
      · obtain ⟨p, hp, hnot⟩ := hops
        have htail : p ∈ nodes := (List.mem_cons.mp hp).resolve_left fun h => hnot (h ▸ hop)
        cases hread : readNode um prog g (nodeLine um prog node) with
        | none => rfl
        | some g' => exact ih hrest ⟨p, htail, hnot⟩ g'
      · rw [readNode_nodeLine_eq_none hnode hop]
        rfl

end

section

variable {um : UnorderedMap} {prog : Program}

theorem lookup_of_mem {α : Type} {l : List (NodeID × α)} (hsorted : l.Pairwise fun p q => p.1 < q.1)
    {id : NodeID} {a : α} (h : (id, a) ∈ l) : l.lookup id = some a := by
  induction l with
  | nil => exact absurd h List.not_mem_nil
  | cons p l ih =>
      obtain ⟨hlt, hsorted'⟩ := List.pairwise_cons.mp hsorted
      obtain ⟨k, b⟩ := p
      rcases List.mem_cons.mp h with heq | hmem
      · cases heq
        rw [List.lookup_cons, beq_self_eq_true]
      · have hne : (id == k) = false := beq_eq_false_iff_ne.mpr (Nat.ne_of_gt (hlt _ hmem))
        rw [List.lookup_cons, hne]
        exact ih hsorted' hmem

theorem lookup_restored {l l' : List (NodeID × MSSANode)}
    (h : List.Forall₂ (Restores um prog) l l') (id : NodeID) :
    (l.lookup id = none ∧ l'.lookup id = none) ∨ ∃ node n, (id, node) ∈ l ∧
      l.lookup id = some node ∧ l'.lookup id = some (restoredNode um prog n node) := by
  induction h with
  | nil => exact .inl ⟨rfl, rfl⟩
  | @cons p q l l' hpq _ ih =>
      obtain ⟨k, node⟩ := p
      obtain ⟨k', node'⟩ := q
      obtain ⟨hk, n, hnode⟩ := hpq
      obtain rfl : k' = k := hk
      by_cases hid : id = k'
      · subst hid
        rw [List.lookup_cons, List.lookup_cons, beq_self_eq_true]
        exact .inr ⟨node, n, List.mem_cons_self, rfl, congrArg some hnode⟩
      · have hne : (id == k') = false := beq_eq_false_iff_ne.mpr hid
        rw [List.lookup_cons, List.lookup_cons, hne]
        rcases ih with hnone | ⟨node'', m, hmem, hl, hl'⟩
        · exact .inl hnone
        · exact .inr ⟨node'', m, List.mem_cons_of_mem _ hmem, hl, hl'⟩

structure Reads (um : UnorderedMap) (prog : Program) (count : ℕ) (g h : SVFG) : Prop where
  nodes : List.Forall₂ (Restores um prog) g.nodes h.nodes
  edges : h.edges = g.edges
  totalVFGNode : h.totalVFGNode = count

structure Listed (um : UnorderedMap) (prog : Program) (nodes : List (NodeID × MSSANode)) : Prop where
  readable : ∀ p ∈ nodes, Readable um prog p
  sorted : nodes.Pairwise fun p q => p.1 < q.1

variable {g h : SVFG} {count : ℕ}

theorem getICFGNode_restored {node : NodeID × MSSANode} (hnode : Readable um prog node) (n : ℕ) :
    (restoredNode um prog n node.2).getICFGNode prog = node.2.getICFGNode prog := by
  obtain ⟨id, node⟩ := node
  cases node with
  | MSSAPHISVFGNode icfgNode ver opVers => exact hnode.front icfgNode ver opVers rfl
  | _ => rfl

theorem getFun_reads (hg : Listed um prog g.nodes) (hr : Reads um prog count g h) (id : NodeID) :
    h.getFun prog id = g.getFun prog id := by
  rw [SVFG.getFun, SVFG.getFun, SVFG.getSVFGNode, SVFG.getSVFGNode]
  rcases lookup_restored hr.nodes id with ⟨hl, hl'⟩ | ⟨node, n, hmem, hl, hl'⟩
  · rw [hl, hl']
  · rw [hl, hl', Option.map_some, Option.map_some, getICFGNode_restored (hg.readable _ hmem)]

theorem Reads.addIndirectSVFGEdge (hr : Reads um prog count g h) (edge : IndirectSVFGEdge) :
    Reads um prog count (g.addIndirectSVFGEdge edge) (h.addIndirectSVFGEdge edge) := by
  refine ⟨hr.nodes, ?_, hr.totalVFGNode⟩
  rw [SVFG.addIndirectSVFGEdge, SVFG.addIndirectSVFGEdge, hr.edges]

theorem Reads.addIntraIndirectVFEdge (hg : Listed um prog g.nodes) (hr : Reads um prog count g h)
    {src dst : NodeID} {cpts : PointsTo} {g' : SVFG}
    (hadd : g.addIntraIndirectVFEdge prog src dst cpts = some g') :
    (∃ h', h.addIntraIndirectVFEdge prog src dst cpts = some h' ∧ Reads um prog count g' h') ∧
      g'.nodes = g.nodes ∧ g'.MSSAVarToDefMap = g.MSSAVarToDefMap := by
  rw [SVFG.addIntraIndirectVFEdge] at hadd ⊢
  rw [getFun_reads hg hr, getFun_reads hg hr]
  obtain ⟨srcfun, hsrc, hadd⟩ := Option.bind_eq_some_iff.mp hadd
  obtain ⟨dstfun, hdst, hadd⟩ := Option.bind_eq_some_iff.mp hadd
  split at hadd
  · contradiction
  · rename_i hfun
    obtain rfl := Option.some.inj hadd
    refine ⟨⟨h.addIndirectSVFGEdge ⟨src, dst, .intra, cpts⟩, ?_, hr.addIndirectSVFGEdge _⟩, rfl, rfl⟩
    rw [hsrc, hdst]
    exact if_neg hfun

theorem addIntraIndirectVFEdge_src (hg : Listed um prog g.nodes) (hstmts : prog.stmts.length ≤ 2 ^ 32)
    {src dst : NodeID} {cpts : PointsTo} {g' : SVFG}
    (hadd : g.addIntraIndirectVFEdge prog src dst cpts = some g') : src ≤ maxID := by
  rw [SVFG.addIntraIndirectVFEdge] at hadd
  obtain ⟨srcfun, hsrc, -⟩ := Option.bind_eq_some_iff.mp hadd
  rw [SVFG.getFun] at hsrc
  split at hsrc
  · rename_i hlt
    exact Nat.le_of_lt_succ (Nat.lt_of_lt_of_le hlt hstmts)
  · obtain ⟨node, hnode, -⟩ := Option.map_eq_some_iff.mp hsrc
    have hmem : (src, node) ∈ g.nodes := by
      obtain ⟨l, l', heq, -⟩ := List.lookup_eq_some_iff.mp hnode
      rw [heq]
      exact List.mem_append_right l List.mem_cons_self
    exact (hg.readable _ hmem).id

end

section

variable {um : UnorderedMap} {prog : Program} {g h g' : SVFG} {count : ℕ}

def Valid (prog : Program) (nodes : List (NodeID × MSSANode)) : Connection → Prop
  | .use type node ver =>
      type ∈ ["StoreNode", "LoadNode", "PHISVFGNode"] ∧ Fits ver ∧ node ≤ maxID
  | .actualIn node ver => ∃ cs, (node, .ActualINSVFGNode cs ver) ∈ nodes
  | .formalOut node ver => ∃ funExit, (node, .FormalOUTSVFGNode funExit ver) ∈ nodes
  | .call formalIn func cs actualIn => formalIn ∈ nodes ∧ actualIn ∈ nodes ∧
      ∃ funEntry ver ver', formalIn.2 = .FormalINSVFGNode funEntry ver ∧
        prog.getFun funEntry = some func ∧ actualIn.2 = .ActualINSVFGNode cs ver'
  | .ret formalOut func cs actualOut => formalOut ∈ nodes ∧ actualOut ∈ nodes ∧
      ∃ funExit ver ver', formalOut.2 = .FormalOUTSVFGNode funExit ver ∧
        prog.getFun funExit = some func ∧ actualOut.2 = .ActualOUTSVFGNode cs ver'

theorem getSVFGNode_reads (hg : Listed um prog g.nodes) (hr : Reads um prog count g h)
    {p : NodeID × MSSANode} (hp : p ∈ g.nodes) :
    ∃ n, h.getSVFGNode p.1 = some (restoredNode um prog n p.2) := by
  obtain ⟨id, node⟩ := p
  have hlookup := lookup_of_mem hg.sorted hp
  rcases lookup_restored hr.nodes id with ⟨hl, -⟩ | ⟨node', n, -, hl, hl'⟩
  · rw [hl] at hlookup
    contradiction
  · rw [hl] at hlookup
    obtain rfl := Option.some.inj hlookup
    exact ⟨n, hl'⟩

theorem getPointsTo_restored (um : UnorderedMap) (prog : Program) (n : ℕ) (node : MSSANode) :
    (restoredNode um prog n node).getPointsTo = node.getPointsTo := by
  cases node <;> rfl

/-- The edge of a line is added as it has been to the graph that was written. -/
def Follows (um : UnorderedMap) (prog : Program) (count : ℕ) (g₀ g h : SVFG) : Prop :=
  Reads um prog count g h ∧ g.nodes = g₀.nodes ∧ g.MSSAVarToDefMap = g₀.MSSAVarToDefMap

theorem Follows.intra {g₀ : SVFG} (hg : Listed um prog g₀.nodes) (hf : Follows um prog count g₀ g h)
    {src dst : NodeID} {cpts : PointsTo} (hadd : g.addIntraIndirectVFEdge prog src dst cpts = some g') :
    ∃ h', h.addIntraIndirectVFEdge prog src dst cpts = some h' ∧ Follows um prog count g₀ g' h' := by
  obtain ⟨hr, hnodes, hdefs⟩ := hf
  obtain ⟨⟨h', hadd', hr'⟩, hnodes', hdefs'⟩ := hr.addIntraIndirectVFEdge (hnodes ▸ hg) hadd
  exact ⟨h', hadd', hr', hnodes'.trans hnodes, hdefs'.trans hdefs⟩

theorem Follows.call {g₀ : SVFG} (hf : Follows um prog count g₀ g h) {src dst : NodeID × MSSANode}
    {src' dst' : MSSANode} (hsrc : src'.getPointsTo = src.2.getPointsTo)
    (hdst : dst'.getPointsTo = dst.2.getPointsTo) (csId : SVFGOPT.CallSiteID) :
    Follows um prog count g₀ (g.addInterIndirectVFCallEdge src dst csId)
        (h.addInterIndirectVFCallEdge (src.1, src') (dst.1, dst') csId) ∧
      Follows um prog count g₀ (g.addInterIndirectVFRetEdge src dst csId)
        (h.addInterIndirectVFRetEdge (src.1, src') (dst.1, dst') csId) := by
  obtain ⟨hr, hnodes, hdefs⟩ := hf
  simp only [SVFG.addInterIndirectVFCallEdge, SVFG.addInterIndirectVFRetEdge, hsrc, hdst]
  split
  · exact ⟨⟨hr.addIndirectSVFGEdge _, hnodes, hdefs⟩, hr.addIndirectSVFGEdge _, hnodes, hdefs⟩
  · exact ⟨⟨hr, hnodes, hdefs⟩, hr, hnodes, hdefs⟩

theorem readEdge_use_follows {g₀ : SVFG} (hg : Listed um prog g₀.nodes)
    (hstmts : prog.stmts.length ≤ 2 ^ 32) (hf : Follows um prog count g₀ g h) {type : String}
    {node : NodeID} {ver : MRVer} (hvalid : Valid prog g₀.nodes (.use type node ver)) {d : NodeID}
    (hadd : g.addIntraIndirectVFEdge prog d node ver.mr = some g') :
    ∃ h', readEdge prog h (edgeText node d
        (type.toList ++ " | MVER: \x7b".toList ++ ver.text ++ "\x7d".toList)) = some h' ∧
      Follows um prog count g₀ g' h' := by
  obtain ⟨htype, hver, hnode⟩ := hvalid
  have hd : d ≤ maxID := addIntraIndirectVFEdge_src (hf.2.1 ▸ hg) hstmts hadd
  have hfresh : Follows um prog count g₀ g { h with totalVERNum := h.totalVERNum + 1 } :=
    ⟨⟨hf.1.nodes, hf.1.edges, hf.1.totalVFGNode⟩, hf.2⟩
  obtain ⟨h', hadd', hf'⟩ := hfresh.intra hg hadd
  refine ⟨h', ?_, hf'⟩
  have hread := getMRVERFromString_part hver h.totalVERNum
  have hkind : '|' ∉ type.toList ∧ type.toList ≠ "FormalINSVFGNode".toList ∧
      type.toList ≠ "FormalOUTSVFGNode".toList ∧ type.toList ≠ "ActualINSVFGNode".toList ∧
      type.toList ∈ ["StoreNode", "LoadNode", "PHISVFGNode"].map String.toList := by
    simp only [List.mem_cons, List.not_mem_nil, or_false] at htype
    rcases htype with rfl | rfl | rfl <;> decide
  obtain ⟨hbar, hfin, hfout, hain, hmem⟩ := hkind
  rw [readEdge_use hnode hd hbar, addReadEdge, if_neg hfin, if_neg hfout, if_neg hain, if_pos hmem,
    hread, Option.bind_some]
  exact hadd'

theorem readEdge_plain {src dst : NodeID} (hsrc : src ≤ maxID) (hdst : dst ≤ maxID) {type : Text}
    (htype : find " | ".toList type = none) :
    readEdge prog h (edgeText src dst type) = addReadEdge prog h src dst type [] := by
  rw [readEdge_edgeText hsrc hdst, htype]

theorem readEdge_intra {src dst : NodeID} (hsrc : src ≤ maxID) (hdst : dst ≤ maxID) :
    readEdge prog h (edgeText src dst "FormalOUTSVFGNode | intra".toList) =
      addReadEdge prog h src dst "FormalOUTSVFGNode".toList "intra".toList := by
  have hfind : find " | ".toList "FormalOUTSVFGNode | intra".toList = some 17 := by decide
  rw [readEdge_edgeText hsrc hdst, hfind]
  rfl

theorem readEdge_follows {g₀ : SVFG} (hg : Listed um prog g₀.nodes)
    (hstmts : prog.stmts.length ≤ 2 ^ 32) (hf : Follows um prog count g₀ g h) {c : Connection}
    (hvalid : Valid prog g₀.nodes c) {line : Text} (hline : edgeLine g₀ c = some line)
    (hconnect : connect prog g c = some g') :
    ∃ h', readEdge prog h line = some h' ∧ Follows um prog count g₀ g' h' := by
  have hgs : Listed um prog g.nodes := hf.2.1 ▸ hg
  have hdefs : ∀ ver, g.getDef ver = g₀.getDef ver := fun ver => congrFun hf.2.2 ver.vid
  cases c with
  | use type node ver =>
      obtain ⟨d, hd, rfl⟩ := Option.map_eq_some_iff.mp hline
      obtain ⟨d', hd', hadd⟩ := Option.bind_eq_some_iff.mp hconnect
      rw [hdefs, hd] at hd'
      obtain rfl := Option.some.inj hd'
      exact readEdge_use_follows hg hstmts hf hvalid hadd
  | actualIn node ver =>
      obtain ⟨d, hd, rfl⟩ := Option.map_eq_some_iff.mp hline
      obtain ⟨d', hd', hadd⟩ := Option.bind_eq_some_iff.mp hconnect
      rw [hdefs, hd] at hd'
      obtain rfl := Option.some.inj hd'
      obtain ⟨cs, hmem⟩ := hvalid
      obtain ⟨n, hnode⟩ := getSVFGNode_reads hgs hf.1 (hf.2.1 ▸ hmem)
      obtain ⟨h', hadd', hf'⟩ := hf.intra hg hadd
      refine ⟨h', ?_, hf'⟩
      rw [readEdge_plain (hg.readable _ hmem).id (addIntraIndirectVFEdge_src hgs hstmts hadd)
        (by decide), addReadEdge, if_neg (by decide), if_neg (by decide), if_pos rfl, hnode]
      exact hadd'
  | formalOut node ver =>
      obtain ⟨d, hd, rfl⟩ := Option.map_eq_some_iff.mp hline
      obtain ⟨d', hd', hadd⟩ := Option.bind_eq_some_iff.mp hconnect
      rw [hdefs, hd] at hd'
      obtain rfl := Option.some.inj hd'
      obtain ⟨funExit, hmem⟩ := hvalid
      obtain ⟨n, hnode⟩ := getSVFGNode_reads hgs hf.1 (hf.2.1 ▸ hmem)
      obtain ⟨h', hadd', hf'⟩ := hf.intra hg hadd
      refine ⟨h', ?_, hf'⟩
      rw [readEdge_intra (hg.readable _ hmem).id (addIntraIndirectVFEdge_src hgs hstmts hadd),
        addReadEdge, if_neg (by decide), if_pos rfl, hnode]
      exact (if_pos (by decide)).trans hadd'
  | call formalIn func cs actualIn =>
      obtain ⟨hin, hact, funEntry, ver, ver', hfin, hfunc, hain⟩ := hvalid
      obtain ⟨id, node⟩ := formalIn
      obtain ⟨id', node'⟩ := actualIn
      obtain rfl : node = _ := hfin
      obtain rfl : node' = _ := hain
      obtain ⟨n, hnode⟩ := getSVFGNode_reads hgs hf.1 (hf.2.1 ▸ hin)
      obtain ⟨n', hnode'⟩ := getSVFGNode_reads hgs hf.1 (hf.2.1 ▸ hact)
      obtain rfl := Option.some.inj hline
      obtain rfl := Option.some.inj hconnect
      refine ⟨_, ?_, (hf.call (getPointsTo_restored um prog n' _) (getPointsTo_restored um prog n _)
        (prog.getCallSiteID cs func)).1⟩
      rw [readEdge_plain (hg.readable _ hin).id (hg.readable _ hact).id (by decide), addReadEdge,
        if_pos rfl, hnode, hnode']
      change (prog.getFun funEntry).map _ = _
      rw [hfunc]
      rfl
  | ret formalOut func cs actualOut =>
      obtain ⟨hout, hact, funExit, ver, ver', hfout, hfunc, haout⟩ := hvalid
      obtain ⟨id, node⟩ := formalOut
      obtain ⟨id', node'⟩ := actualOut
      obtain rfl : node = _ := hfout
      obtain rfl : node' = _ := haout
      obtain ⟨n, hnode⟩ := getSVFGNode_reads hgs hf.1 (hf.2.1 ▸ hout)
      obtain ⟨n', hnode'⟩ := getSVFGNode_reads hgs hf.1 (hf.2.1 ▸ hact)
      obtain rfl := Option.some.inj hline
      obtain rfl := Option.some.inj hconnect
      refine ⟨_, ?_, (hf.call (getPointsTo_restored um prog n _) (getPointsTo_restored um prog n' _)
        (prog.getCallSiteID cs func)).2⟩
      rw [readEdge_plain (hg.readable _ hout).id (hg.readable _ hact).id (by decide), addReadEdge,
        if_neg (by decide), if_pos rfl, hnode]
      change (if (find "intra".toList ([] : Text)).isSome then _ else _) = _
      rw [if_neg (by decide), hnode']
      change (prog.getFun funExit).map _ = _
      rw [hfunc]
      rfl

end

section

/-- What the ICFG and memory SSA form say of the operators of the program: the numbers are ones of
32 bits, the nodes are of their kinds, and the positions of a phi differ. -/
structure WellFormed (um : UnorderedMap) (prog : Program) : Prop where
  size : prog.stmts.length + (memoryNodes um prog).length ≤ 2 ^ 32
  loads : ∀ muSet, .LoadSVFGNode muSet ∈ prog.stmts → ∀ ver ∈ muSet, Fits ver
  stores : ∀ chiSet, .StoreSVFGNode chiSet ∈ prog.stmts → ∀ chi ∈ chiSet,
    Fits chi.1 ∧ chi.2.vid < prog.totalVERNum
  phis : ∀ phi ∈ prog.phis, (phi.opVers.map Prod.fst).Nodup ∧ (∀ op ∈ phi.opVers, Fits op.2) ∧
    Fits phi.resVer ∧ prog.front phi.bb ≤ maxID ∧ prog.hasICFGNode (prog.front phi.bb) = true ∧
    prog.front (prog.front phi.bb) = prog.front phi.bb
  entryChis : ∀ chi ∈ prog.entryChis, Fits chi.2 ∧ prog.getFunEntryICFGNode chi.1 ≤ maxID ∧
    prog.isFunEntryICFGNode (prog.getFunEntryICFGNode chi.1) = true
  returnMus : ∀ mu ∈ prog.returnMus, Fits mu.2 ∧ prog.getFunExitICFGNode mu.1 ≤ maxID ∧
    prog.isFunExitICFGNode (prog.getFunExitICFGNode mu.1) = true
  callMus : ∀ mu ∈ prog.callMus, Fits mu.2 ∧ mu.1 ≤ maxID ∧ prog.isCallICFGNode mu.1 = true
  callChis : ∀ chi ∈ prog.callChis, Fits chi.2 ∧ chi.1 ≤ maxID ∧ prog.isCallICFGNode chi.1 = true

variable {um : UnorderedMap} {prog : Program} {g : SVFG}

theorem nodup_iterate {ops : OPVers} (h : (ops.map Prod.fst).Nodup) :
    ((um.iterate ops).map Prod.fst).Nodup := ((um.perm ops h).map Prod.fst).nodup_iff.mpr h

theorem mem_iterate {ops : OPVers} (h : (ops.map Prod.fst).Nodup) (op : ℕ × MRVer) :
    op ∈ um.iterate ops ↔ op ∈ ops := (um.perm ops h).mem_iff

theorem iterate_nil : um.iterate [] = [] := (um.perm [] List.nodup_nil).eq_nil

theorem mem_memoryNodes {node : MSSANode} : node ∈ memoryNodes um prog ↔
    (∃ phi ∈ prog.phis,
      .MSSAPHISVFGNode (prog.front phi.bb) phi.resVer (um.iterate phi.opVers) = node) ∨
    (∃ chi ∈ prog.entryChis, .FormalINSVFGNode (prog.getFunEntryICFGNode chi.1) chi.2 = node) ∨
    (∃ mu ∈ prog.returnMus, .FormalOUTSVFGNode (prog.getFunExitICFGNode mu.1) mu.2 = node) ∨
    (∃ mu ∈ prog.callMus, .ActualINSVFGNode mu.1 mu.2 = node) ∨
    ∃ chi ∈ prog.callChis, .ActualOUTSVFGNode chi.1 chi.2 = node := by
  simp only [memoryNodes, List.mem_append, List.mem_map]

theorem readable_memoryNodes (hp : WellFormed um prog) {p : NodeID × MSSANode}
    (hnode : p.2 ∈ memoryNodes um prog) (hid : p.1 ≤ maxID) : Readable um prog p := by
  obtain ⟨id, node⟩ := p
  rcases mem_memoryNodes.mp hnode with ⟨phi, hphi, rfl⟩ | ⟨chi, hchi, rfl⟩ | ⟨mu, hmu, rfl⟩ |
    ⟨mu, hmu, rfl⟩ | ⟨chi, hchi, rfl⟩
  · obtain ⟨hnodup, hops, hres, hle, hkind, hfront⟩ := hp.phis phi hphi
    refine ⟨hid, hres, fun op hop => hops op ?_, ?_, ?_, ?_, ?_, ?_, ?_⟩
    · exact (mem_iterate hnodup op).mp ((mem_iterate (nodup_iterate hnodup) op).mp hop)
    · exact fun _ _ h => nomatch h
    · exact fun _ _ h => nomatch h
    · exact fun _ _ h => nomatch h
    · exact fun _ _ h => nomatch h
    · rintro icfgNode ver opVers ⟨rfl, rfl, rfl⟩
      rw [hfront]
      exact ⟨hle, hkind⟩
    · rintro icfgNode ver opVers ⟨rfl, rfl, rfl⟩
      exact hfront
  · obtain ⟨hver, hle, hkind⟩ := hp.entryChis chi hchi
    refine ⟨hid, hver, ?_, ?_, ?_, ?_, ?_, ?_, ?_⟩
    · intro op hop
      exact absurd (iterate_nil ▸ hop) List.not_mem_nil
    · rintro funEntry ver ⟨rfl, rfl⟩
      exact ⟨hle, hkind⟩
    all_goals intros; contradiction
  · obtain ⟨hver, hle, hkind⟩ := hp.returnMus mu hmu
    refine ⟨hid, hver, ?_, ?_, ?_, ?_, ?_, ?_, ?_⟩
    · intro op hop
      exact absurd (iterate_nil ▸ hop) List.not_mem_nil
    · exact fun _ _ h => nomatch h
    · rintro funExit ver ⟨rfl, rfl⟩
      exact ⟨hle, hkind⟩
    all_goals intros; contradiction
  · obtain ⟨hver, hle, hkind⟩ := hp.callMus mu hmu
    refine ⟨hid, hver, ?_, ?_, ?_, ?_, ?_, ?_, ?_⟩
    · intro op hop
      exact absurd (iterate_nil ▸ hop) List.not_mem_nil
    · exact fun _ _ h => nomatch h
    · exact fun _ _ h => nomatch h
    · rintro cs ver ⟨rfl, rfl⟩
      exact ⟨hle, hkind⟩
    all_goals intros; contradiction
  · obtain ⟨hver, hle, hkind⟩ := hp.callChis chi hchi
    refine ⟨hid, hver, ?_, ?_, ?_, ?_, ?_, ?_, ?_⟩
    · intro op hop
      exact absurd (iterate_nil ▸ hop) List.not_mem_nil
    · exact fun _ _ h => nomatch h
    · exact fun _ _ h => nomatch h
    · exact fun _ _ h => nomatch h
    · rintro cs ver ⟨rfl, rfl⟩
      exact ⟨hle, hkind⟩
    all_goals intros; contradiction

theorem sorted_numbered (k : ℕ) (nodes : List MSSANode) :
    (numbered k nodes).Pairwise fun p q => p.1 < q.1 := by
  induction nodes generalizing k with
  | nil => exact .nil
  | cons node nodes ih => exact .cons (fun q hq => (mem_numbered hq).1) (ih (k + 1))

theorem listed_numbered (hp : WellFormed um prog) :
    Listed um prog (numbered prog.stmts.length (memoryNodes um prog)) where
  readable p hmem := by
    obtain ⟨-, hlt, hnode⟩ := mem_numbered hmem
    exact readable_memoryNodes hp hnode (Nat.le_of_lt_succ (Nat.lt_of_lt_of_le hlt hp.size))
  sorted := sorted_numbered _ _

theorem valid_stmtConnections (hp : WellFormed um prog) {c : Connection}
    (hc : c ∈ prog.stmts.zipIdx.flatMap stmtConnections) (nodes : List (NodeID × MSSANode)) :
    Valid prog nodes c := by
  obtain ⟨⟨stmt, id⟩, hmem, hc⟩ := List.mem_flatMap.mp hc
  have hstmt := List.mem_zipIdx' hmem
  have hid : id ≤ maxID := Nat.le_of_lt_succ
    (Nat.lt_of_lt_of_le hstmt.1 (Nat.le_trans (Nat.le_add_right _ _) hp.size))
  have hin : stmt ∈ prog.stmts := hstmt.2 ▸ List.getElem_mem hstmt.1
  cases stmt with
  | LoadSVFGNode muSet =>
      obtain ⟨ver, hver, rfl⟩ := List.mem_map.mp hc
      exact ⟨by decide, hp.loads muSet hin ver hver, hid⟩
  | StoreSVFGNode chiSet =>
      obtain ⟨chi, hchi, rfl⟩ := List.mem_map.mp hc
      exact ⟨by decide, (hp.stores chiSet hin chi hchi).1, hid⟩
  | other => exact absurd hc List.not_mem_nil

theorem valid_connections (hp : WellFormed um prog) (hg : Listed um prog g.nodes)
    (hops : ∀ p ∈ g.nodes, ∀ op ∈ operands p.2, Fits op.2) {c : Connection}
    (hc : c ∈ connections prog g) : Valid prog g.nodes c := by
  rcases List.mem_append.mp hc with hc | hc
  · exact valid_stmtConnections hp hc g.nodes
  · obtain ⟨⟨id, node⟩, hnode, hc⟩ := List.mem_flatMap.mp hc
    cases node with
    | FormalINSVFGNode funEntry ver =>
        obtain ⟨func, hfunc, hc⟩ := List.mem_flatMap.mp hc
        obtain ⟨cs, -, hc⟩ := List.mem_flatMap.mp hc
        obtain ⟨⟨id', node'⟩, hactual, rfl⟩ := List.mem_map.mp hc
        obtain ⟨hmem, hkind⟩ := List.mem_filter.mp hactual
        refine ⟨hnode, hmem, funEntry, ver, ?_⟩
        cases node' with
        | ActualINSVFGNode cs' ver' =>
            obtain rfl : cs' = cs := by simpa using hkind
            exact ⟨ver', rfl, Option.mem_toList.mp hfunc, rfl⟩
        | _ => contradiction
    | FormalOUTSVFGNode funExit ver =>
        rcases List.mem_append.mp hc with hc | hc
        · obtain ⟨func, hfunc, hc⟩ := List.mem_flatMap.mp hc
          obtain ⟨cs, -, hc⟩ := List.mem_flatMap.mp hc
          obtain ⟨⟨id', node'⟩, hactual, rfl⟩ := List.mem_map.mp hc
          obtain ⟨hmem, hkind⟩ := List.mem_filter.mp hactual
          refine ⟨hnode, hmem, funExit, ver, ?_⟩
          cases node' with
          | ActualOUTSVFGNode cs' ver' =>
              obtain rfl : cs' = cs := by simpa using hkind
              exact ⟨ver', rfl, Option.mem_toList.mp hfunc, rfl⟩
          | _ => contradiction
        · rw [List.mem_singleton.mp hc]
          exact ⟨funExit, hnode⟩
    | ActualINSVFGNode cs ver =>
        rw [List.mem_singleton.mp hc]
        exact ⟨cs, hnode⟩
    | ActualOUTSVFGNode cs ver => exact absurd hc List.not_mem_nil
    | MSSAPHISVFGNode icfgNode ver opVers =>
        obtain ⟨op, hop, rfl⟩ := List.mem_map.mp hc
        exact ⟨by decide, hops _ hnode op hop, (hg.readable _ hnode).id⟩

end

section

variable {um : UnorderedMap} {prog : Program} {g g' h : SVFG} {count : ℕ}

theorem setStoreDefs_spec (hp : WellFormed um prog) (hstart : setStoreDefs prog (vfg prog) = some g) :
    SameGraph (vfg prog) g ∧ Bounded g := by
  have hloop := foldlM_invariant (I := fun g => SameGraph (vfg prog) g ∧ Bounded g)
    (fun stmt hstmt s t hs hstep => ?_) ⟨⟨rfl, rfl, rfl, rfl⟩, fun _ _ => rfl⟩ hstart
  · exact hloop
  · obtain ⟨stmt, id⟩ := stmt
    have hmem := List.mem_zipIdx' hstmt
    have hin : stmt ∈ prog.stmts := hmem.2 ▸ List.getElem_mem hmem.1
    cases stmt with
    | LoadSVFGNode => exact Option.some.inj hstep ▸ hs
    | other => exact Option.some.inj hstep ▸ hs
    | StoreSVFGNode chiSet =>
        refine foldlM_invariant (I := fun g => SameGraph (vfg prog) g ∧ Bounded g)
          (fun chi hchi u v hu hset => ?_) hs hstep
        obtain ⟨hsame, -⟩ := setDef_spec hset
        have hlt := (hp.stores chiSet hin chi hchi).2
        refine ⟨⟨hsame.totalVFGNode.trans hu.1.totalVFGNode, hsame.nodes.trans hu.1.nodes,
          hsame.edges.trans hu.1.edges, hsame.totalVERNum.trans hu.1.totalVERNum⟩, ?_⟩
        exact setDef_bounded hu.2 (hu.1.totalVERNum ▸ hlt) hset

theorem connections_congr (hnodes : g'.nodes = g.nodes) : connections prog g' = connections prog g := by
  obtain ⟨c, nodes, edges, defs, v⟩ := g
  obtain ⟨c', nodes', edges', defs', v'⟩ := g'
  obtain rfl : nodes' = nodes := hnodes
  rfl

theorem edgeLine_congr (hdefs : g'.MSSAVarToDefMap = g.MSSAVarToDefMap) (c : Connection) :
    edgeLine g' c = edgeLine g c := by
  obtain ⟨n, nodes, edges, defs, v⟩ := g
  obtain ⟨n', nodes', edges', defs', v'⟩ := g'
  obtain rfl : defs' = defs := hdefs
  cases c <;> rfl

theorem addIntraIndirectVFEdge_keeps {src dst : NodeID} {cpts : PointsTo}
    (hadd : g.addIntraIndirectVFEdge prog src dst cpts = some g') :
    g'.nodes = g.nodes ∧ g'.MSSAVarToDefMap = g.MSSAVarToDefMap := by
  rw [SVFG.addIntraIndirectVFEdge] at hadd
  obtain ⟨srcfun, -, hadd⟩ := Option.bind_eq_some_iff.mp hadd
  obtain ⟨dstfun, -, hadd⟩ := Option.bind_eq_some_iff.mp hadd
  split at hadd
  · contradiction
  · obtain rfl := Option.some.inj hadd
    exact ⟨rfl, rfl⟩

theorem addInter_keeps (src dst : NodeID × MSSANode) (csId : SVFGOPT.CallSiteID) :
    ((g.addInterIndirectVFCallEdge src dst csId).nodes = g.nodes ∧
      (g.addInterIndirectVFCallEdge src dst csId).MSSAVarToDefMap = g.MSSAVarToDefMap) ∧
    (g.addInterIndirectVFRetEdge src dst csId).nodes = g.nodes ∧
      (g.addInterIndirectVFRetEdge src dst csId).MSSAVarToDefMap = g.MSSAVarToDefMap := by
  rw [SVFG.addInterIndirectVFCallEdge, SVFG.addInterIndirectVFRetEdge]
  split
  · exact ⟨⟨rfl, rfl⟩, rfl, rfl⟩
  · exact ⟨⟨rfl, rfl⟩, rfl, rfl⟩

theorem connect_keeps {c : Connection} (hconnect : connect prog g c = some g') :
    (g'.nodes = g.nodes ∧ g'.MSSAVarToDefMap = g.MSSAVarToDefMap) ∧
      ∃ line, edgeLine g c = some line := by
  cases c with
  | use type node ver =>
      obtain ⟨d, hd, hadd⟩ := Option.bind_eq_some_iff.mp hconnect
      exact ⟨addIntraIndirectVFEdge_keeps hadd, _, by rw [edgeLine, hd]; rfl⟩
  | actualIn node ver =>
      obtain ⟨d, hd, hadd⟩ := Option.bind_eq_some_iff.mp hconnect
      exact ⟨addIntraIndirectVFEdge_keeps hadd, _, by rw [edgeLine, hd]; rfl⟩
  | formalOut node ver =>
      obtain ⟨d, hd, hadd⟩ := Option.bind_eq_some_iff.mp hconnect
      exact ⟨addIntraIndirectVFEdge_keeps hadd, _, by rw [edgeLine, hd]; rfl⟩
  | call formalIn func cs actualIn =>
      obtain rfl := Option.some.inj hconnect
      exact ⟨(addInter_keeps actualIn formalIn _).1, _, rfl⟩
  | ret formalOut func cs actualOut =>
      obtain rfl := Option.some.inj hconnect
      exact ⟨(addInter_keeps formalOut actualOut _).2, _, rfl⟩

theorem forall₂_filter {α β : Type} {R : α → β → Prop} {p : α → Bool} {q : β → Bool} {l : List α}
    {l' : List β} (hR : ∀ a b, R a b → p a = q b) (h : List.Forall₂ R l l') :
    List.Forall₂ R (l.filter p) (l'.filter q) := by
  induction h with
  | nil => exact .nil
  | cons hab _ ih =>
      rw [List.filter_cons, List.filter_cons, hR _ _ hab]
      split
      · exact .cons hab ih
      · exact ih

theorem connectFromGlobalToProgEntry_follows {g₀ : SVFG} (hg : Listed um prog g₀.nodes)
    (hf : Follows um prog count g₀ g h) (hconnect : connectFromGlobalToProgEntry prog g = some g') :
    ∃ h', connectFromGlobalToProgEntry prog h = some h' ∧ Follows um prog count g₀ g' h' := by
  refine foldlM_simulates (R := Follows um prog count g₀) (P := Eq) ?_ (List.forall₂_refl _) hf hconnect
  rintro store _ s s' t rfl hs hstep
  refine foldlM_simulates (R := Follows um prog count g₀) (P := Restores um prog) ?_ ?_ hs hstep
  · rintro ⟨id, node⟩ ⟨id', node'⟩ u u' v ⟨hid, n, hnode⟩ hu hadd
    obtain rfl : id' = id := hid
    obtain rfl : node' = _ := hnode
    simp only [getPointsTo_restored] at hadd ⊢
    split at hadd
    · rename_i hempty
      obtain rfl := Option.some.inj hadd
      exact ⟨u', if_pos hempty, hu⟩
    · rename_i hempty
      rw [if_neg hempty]
      exact hu.intra hg hadd
  · refine forall₂_filter ?_ hs.1.nodes
    rintro ⟨id, node⟩ ⟨id', node'⟩ ⟨hid, n, hnode⟩
    obtain rfl : node' = _ := hnode
    cases node <;> rfl

theorem readEdges_follow {g₀ : SVFG} (hg : Listed um prog g₀.nodes)
    (hstmts : prog.stmts.length ≤ 2 ^ 32) {cs : List Connection}
    (hvalid : ∀ c ∈ cs, Valid prog g₀.nodes c) {lines : List Text}
    (hlines : List.Forall₂ (fun c line => edgeLine g₀ c = some line) cs lines)
    (hf : Follows um prog count g₀ g h) (hconnect : cs.foldlM (connect prog) g = some g') :
    ∃ h', lines.foldlM (readEdge prog) h = some h' ∧ Follows um prog count g₀ g' h' := by
  have hboth : List.Forall₂ (fun c line => Valid prog g₀.nodes c ∧ edgeLine g₀ c = some line) cs lines :=
    (List.forall₂_and_left cs lines).mpr ⟨hvalid, hlines⟩
  refine foldlM_simulates (R := Follows um prog count g₀) ?_ hboth hf hconnect
  intro c line s s' t hc hs hstep
  exact readEdge_follows hg hstmts hs hc.1 hc.2 hstep

end

section

variable {um : UnorderedMap} {prog : Program} {g : SVFG}

structure SameVer (v w : MRVer) : Prop where
  mr : w.mr = v.mr
  version : w.version = v.version
  type : w.ssaDef.type = v.ssaDef.type

def SameNode : MSSANode → MSSANode → Prop
  | .FormalINSVFGNode funEntry v, .FormalINSVFGNode funEntry' w =>
      funEntry' = funEntry ∧ SameVer v w
  | .FormalOUTSVFGNode funExit v, .FormalOUTSVFGNode funExit' w => funExit' = funExit ∧ SameVer v w
  | .ActualINSVFGNode cs v, .ActualINSVFGNode cs' w => cs' = cs ∧ SameVer v w
  | .ActualOUTSVFGNode cs v, .ActualOUTSVFGNode cs' w => cs' = cs ∧ SameVer v w
  | .MSSAPHISVFGNode icfgNode v ops, .MSSAPHISVFGNode icfgNode' w ops' =>
      icfgNode' = icfgNode ∧ SameVer v w ∧
        ∀ pos, Option.Rel SameVer (ops.lookup pos) (ops'.lookup pos)
  | _, _ => False

/-- The graph has been restored, and no node that is made from now on has the identifier of one
that has been read. -/
structure Restored (g h : SVFG) : Prop where
  nodes : List.Forall₂ (fun p q => q.1 = p.1 ∧ SameNode p.2 q.2) g.nodes h.nodes
  edges : ∀ e, e ∈ h.edges ↔ e ∈ g.edges
  fresh : ∀ p ∈ h.nodes, ∀ n, p.1 ≠ h.totalVFGNode + n

/-- The operands of a phi in the order in which they are written. -/
def writtenOPVers (um : UnorderedMap) (opVers : OPVers) : OPVers := um.iterate (um.iterate opVers)

/-- The number of nodes is even, no phi is without operands, and the operands of each are written
in the order of their positions, which are the first numbers. -/
structure Restorable (um : UnorderedMap) (prog : Program) : Prop where
  even : Even (memoryNodes um prog).length
  phis : ∀ phi ∈ prog.phis, phi.opVers ≠ [] ∧ ∀ pos : ℕ, Option.Rel SameVer
    (phi.opVers.lookup pos) ((writtenOPVers um phi.opVers)[pos]?.map Prod.snd)

theorem countAfter_numbered (k : ℕ) (nodes : List MSSANode) :
    countAfter k ((numbered k nodes).map Prod.fst) = k + nodes.length / 2 * 2 := by
  match nodes with
  | [] => rfl
  | [node] =>
      have hzero : [node].length / 2 * 2 = 0 := by simp
      rw [hzero]
      exact if_neg (Nat.lt_irrefl k)
  | node :: node' :: nodes =>
      have hfirst : bumped k k = k := if_neg (Nat.lt_irrefl k)
      have hsecond : bumped (k + 1) k = k + 2 := if_pos (Nat.lt_succ_self k)
      have hrest := countAfter_numbered (k + 2) nodes
      change countAfter (bumped (k + 1) (bumped k k)) ((numbered (k + 2) nodes).map Prod.fst) = _
      rw [hfirst, hsecond, hrest, List.length_cons, List.length_cons]
      omega

theorem exists_mem_numbered {k i : ℕ} {nodes : List MSSANode} (hi : i < nodes.length) :
    ∃ node, (k + i, node) ∈ numbered k nodes := by
  induction nodes generalizing k i with
  | nil => exact absurd hi (Nat.not_lt_zero i)
  | cons node nodes ih =>
      cases i with
      | zero => exact ⟨node, List.mem_cons_self⟩
      | succ i =>
          obtain ⟨node', hmem⟩ := ih (k := k + 1) (Nat.lt_of_succ_lt_succ hi)
          rw [Nat.succ_add_eq_add_succ] at hmem
          exact ⟨node', List.mem_cons_of_mem _ hmem⟩

/-- The counter stays below the last identifier where the number of nodes is odd. -/
theorem fresh_iff {k : ℕ} {nodes : List MSSANode} :
    (∀ p ∈ numbered k nodes, ∀ n, p.1 ≠ k + nodes.length / 2 * 2 + n) ↔ Even nodes.length := by
  constructor
  · intro h
    by_contra hodd
    have hmod : nodes.length % 2 = 1 := Nat.not_even_iff.mp hodd
    have hlt : nodes.length - 1 < nodes.length := by omega
    obtain ⟨node, hmem⟩ := exists_mem_numbered (k := k) hlt
    have heq : k + (nodes.length - 1) = k + nodes.length / 2 * 2 + 0 := by omega
    exact h _ hmem 0 heq
  · intro heven p hp n heq
    have hlt : k + nodes.length / 2 * 2 + n < k + nodes.length := heq ▸ (mem_numbered hp).2.1
    rw [Nat.even_iff] at heven
    omega

theorem lookup_restoredOPVers (ops : OPVers) (n index pos : ℕ) :
    ∃ f : ℕ → ℕ, ((restoredOPVers n index ops).lookup (index + pos)) =
      ops[pos]?.map fun op => op.2.restored (f pos) := by
  induction ops generalizing n index pos with
  | nil => exact ⟨id, rfl⟩
  | cons op ops ih =>
      cases pos with
      | zero =>
          refine ⟨fun _ => n, ?_⟩
          rw [restoredOPVers, Nat.add_zero, List.lookup_cons, beq_self_eq_true]
          rfl
      | succ pos =>
          obtain ⟨f, hf⟩ := ih (n + 1) (index + 1) pos
          have hne : (index + (pos + 1) == index) = false := beq_eq_false_iff_ne.mpr (by omega)
          refine ⟨fun _ => f pos, ?_⟩
          rw [restoredOPVers, List.lookup_cons, hne, ← Nat.succ_add_eq_add_succ, hf]
          rfl

theorem nodup_restoredOPVers (ops : OPVers) (n index : ℕ) :
    ((restoredOPVers n index ops).map Prod.fst).Nodup ∧
      ∀ op ∈ restoredOPVers n index ops, index ≤ op.1 := by
  induction ops generalizing n index with
  | nil => exact ⟨.nil, fun _ h => absurd h List.not_mem_nil⟩
  | cons op ops ih =>
      obtain ⟨hnodup, hle⟩ := ih (n + 1) (index + 1)
      refine ⟨List.nodup_cons.mpr ⟨fun hmem => ?_, hnodup⟩, ?_⟩
      · obtain ⟨op', hop', heq⟩ := List.mem_map.mp hmem
        have hlt := hle op' hop'
        change op'.1 = index at heq
        omega
      · intro op' hop'
        rcases List.mem_cons.mp hop' with rfl | hop'
        · exact Nat.le_refl index
        · exact Nat.le_of_succ_le (hle op' hop')

theorem lookup_eq_some_iff_mem {ops : OPVers} (h : (ops.map Prod.fst).Nodup) (pos : ℕ) (v : MRVer) :
    ops.lookup pos = some v ↔ (pos, v) ∈ ops := by
  induction ops with
  | nil => simp
  | cons op ops ih =>
      obtain ⟨k, w⟩ := op
      obtain ⟨hnot, hnodup⟩ := List.nodup_cons.mp h
      rw [List.lookup_cons, List.mem_cons]
      by_cases hk : pos = k
      · subst hk
        rw [beq_self_eq_true]
        have hmem : (pos, v) ∉ ops := fun hmem => hnot (List.mem_map.mpr ⟨_, hmem, rfl⟩)
        simp [hmem, eq_comm]
      · have hne : (pos == k) = false := beq_eq_false_iff_ne.mpr hk
        rw [hne]
        simp [ih hnodup, hk]

theorem lookup_iterate {ops : OPVers} (h : (ops.map Prod.fst).Nodup) (pos : ℕ) :
    (um.iterate ops).lookup pos = ops.lookup pos := by
  apply Option.ext
  intro v
  rw [lookup_eq_some_iff_mem (nodup_iterate h), lookup_eq_some_iff_mem h, mem_iterate h]

theorem sameVer_restored (v : MRVer) (n : ℕ) : SameVer v (v.restored n) := ⟨rfl, rfl, rfl⟩

theorem rel_restored {a : Option MRVer} {b : Option (ℕ × MRVer)} (n : ℕ) :
    Option.Rel SameVer a (b.map fun op => op.2.restored n) ↔
      Option.Rel SameVer a (b.map Prod.snd) := by
  cases b with
  | none => exact Iff.rfl
  | some op =>
      rw [Option.map_some, Option.map_some]
      constructor
      · rintro (h | _)
        exact .some ⟨h.mr, h.version, h.type⟩
      · rintro (h | _)
        exact .some ⟨h.mr, h.version, h.type⟩

/-- The operands of the node are written in the order of their positions. -/
def InOrder (um : UnorderedMap) : MSSANode → Prop
  | .MSSAPHISVFGNode _ _ ops => ∀ pos : ℕ,
      Option.Rel SameVer (ops.lookup pos) ((um.iterate ops)[pos]?.map Prod.snd)
  | _ => True

theorem sameNode_iff_inOrder {node : MSSANode} (hnodup : ((operands node).map Prod.fst).Nodup)
    (hfront : ∀ bb ver ops, node = .MSSAPHISVFGNode bb ver ops → prog.front bb = bb) (n : ℕ) :
    SameNode node (restoredNode um prog n node) ↔ InOrder um node := by
  cases node with
  | MSSAPHISVFGNode bb ver ops =>
      have hread : ∀ pos, ∃ m, (um.iterate (um.iterate
          (restoredOPVers (n + 1) 0 (um.iterate ops)))).lookup pos =
            (um.iterate ops)[pos]?.map fun op => op.2.restored m := by
        intro pos
        have hnew := (nodup_restoredOPVers (um.iterate ops) (n + 1) 0).1
        obtain ⟨f, hf⟩ := lookup_restoredOPVers (um.iterate ops) (n + 1) 0 pos
        rw [Nat.zero_add] at hf
        exact ⟨f pos, by rw [lookup_iterate (nodup_iterate hnew), lookup_iterate hnew, hf]⟩
      constructor
      · rintro ⟨-, -, h⟩ pos
        obtain ⟨m, hm⟩ := hread pos
        exact (rel_restored m).mp (hm ▸ h pos)
      · intro h
        refine ⟨hfront bb ver ops rfl, sameVer_restored ver n, fun pos => ?_⟩
        obtain ⟨m, hm⟩ := hread pos
        rw [hm]
        exact (rel_restored m).mpr (h pos)
  | FormalINSVFGNode funEntry ver => exact iff_of_true ⟨rfl, sameVer_restored ver n⟩ trivial
  | FormalOUTSVFGNode funExit ver => exact iff_of_true ⟨rfl, sameVer_restored ver n⟩ trivial
  | ActualINSVFGNode cs ver => exact iff_of_true ⟨rfl, sameVer_restored ver n⟩ trivial
  | ActualOUTSVFGNode cs ver => exact iff_of_true ⟨rfl, sameVer_restored ver n⟩ trivial

theorem hasOperands_iff (hp : WellFormed um prog) : (∀ node ∈ memoryNodes um prog, HasOperands um node) ↔
    ∀ phi ∈ prog.phis, phi.opVers ≠ [] := by
  have hnil : ∀ phi ∈ prog.phis, (um.iterate (um.iterate phi.opVers) = [] ↔ phi.opVers = []) := by
    intro phi hphi
    have hnodup := (hp.phis phi hphi).1
    rw [← List.length_eq_zero_iff, ← List.length_eq_zero_iff,
      (um.perm _ (nodup_iterate hnodup)).length_eq, (um.perm _ hnodup).length_eq]
  constructor
  · intro h phi hphi hempty
    have hmem : .MSSAPHISVFGNode (prog.front phi.bb) phi.resVer (um.iterate phi.opVers) ∈
        memoryNodes um prog := mem_memoryNodes.mpr (.inl ⟨phi, hphi, rfl⟩)
    exact h _ hmem trivial ((hnil phi hphi).mpr hempty)
  · intro h node hnode hphi
    rcases mem_memoryNodes.mp hnode with ⟨phi, hmem, rfl⟩ | ⟨_, _, rfl⟩ | ⟨_, _, rfl⟩ |
      ⟨_, _, rfl⟩ | ⟨_, _, rfl⟩
    · exact fun hempty => h phi hmem ((hnil phi hmem).mp hempty)
    all_goals exact hphi.elim

theorem inOrder_iff (hp : WellFormed um prog) : (∀ node ∈ memoryNodes um prog, InOrder um node) ↔
    ∀ phi ∈ prog.phis, ∀ pos : ℕ, Option.Rel SameVer (phi.opVers.lookup pos)
      ((writtenOPVers um phi.opVers)[pos]?.map Prod.snd) := by
  have hphi : ∀ phi ∈ prog.phis,
      (InOrder um (.MSSAPHISVFGNode (prog.front phi.bb) phi.resVer (um.iterate phi.opVers)) ↔
        ∀ pos : ℕ, Option.Rel SameVer (phi.opVers.lookup pos)
          ((writtenOPVers um phi.opVers)[pos]?.map Prod.snd)) := by
    intro phi hphi
    apply forall_congr'
    intro pos
    rw [lookup_iterate (hp.phis phi hphi).1]
    rfl
  constructor
  · intro h phi hmem
    exact (hphi phi hmem).mp (h _ (mem_memoryNodes.mpr (.inl ⟨phi, hmem, rfl⟩)))
  · intro h node hnode
    rcases mem_memoryNodes.mp hnode with ⟨phi, hmem, rfl⟩ | ⟨_, _, rfl⟩ | ⟨_, _, rfl⟩ |
      ⟨_, _, rfl⟩ | ⟨_, _, rfl⟩
    · exact (hphi phi hmem).mpr (h phi hmem)
    all_goals trivial

theorem nodup_operands (hp : WellFormed um prog) {node : MSSANode}
    (hnode : node ∈ memoryNodes um prog) : ((operands node).map Prod.fst).Nodup := by
  rcases mem_memoryNodes.mp hnode with ⟨phi, hphi, rfl⟩ | ⟨_, _, rfl⟩ | ⟨_, _, rfl⟩ |
    ⟨_, _, rfl⟩ | ⟨_, _, rfl⟩
  · exact nodup_iterate (hp.phis phi hphi).1
  all_goals exact List.nodup_nil

theorem fits_operands (hp : WellFormed um prog) {node : MSSANode}
    (hnode : node ∈ memoryNodes um prog) : ∀ op ∈ operands node, Fits op.2 := by
  rcases mem_memoryNodes.mp hnode with ⟨phi, hphi, rfl⟩ | ⟨_, _, rfl⟩ | ⟨_, _, rfl⟩ |
    ⟨_, _, rfl⟩ | ⟨_, _, rfl⟩
  · obtain ⟨hnodup, hops, -⟩ := hp.phis phi hphi
    exact fun op hop => hops op ((mem_iterate hnodup op).mp hop)
  all_goals exact fun op hop => absurd hop List.not_mem_nil

theorem forall₂_iff {α β : Type} {R S : α → β → Prop} {P : α → Prop} {l : List α} {l' : List β}
    (hR : ∀ a ∈ l, ∀ b, R a b → (S a b ↔ P a)) (h : List.Forall₂ R l l') :
    List.Forall₂ S l l' ↔ ∀ a ∈ l, P a := by
  induction h with
  | nil => simp
  | cons hab _ ih =>
      obtain ⟨ha, hl⟩ := List.forall_mem_cons.mp hR
      rw [List.forall₂_cons, List.forall_mem_cons, ha _ hab, ih hl]

theorem map_snd_numbered (k : ℕ) (nodes : List MSSANode) :
    (numbered k nodes).map Prod.snd = nodes := by
  induction nodes generalizing k with
  | nil => rfl
  | cons node nodes ih => rw [numbered, List.map_cons, ih]

theorem forall_mem_numbered {P : MSSANode → Prop} (k : ℕ) (nodes : List MSSANode) :
    (∀ p ∈ numbered k nodes, P p.2) ↔ ∀ node ∈ nodes, P node := by
  have hmap := List.forall_mem_map (f := Prod.snd) (l := numbered k nodes) (P := P)
  rw [map_snd_numbered] at hmap
  exact hmap.symm

/-- The nodes are restored where the operands of every phi are written in order. -/
theorem sameNodes_iff (hp : WellFormed um prog) {added : List (NodeID × MSSANode)} {k : ℕ}
    (h : List.Forall₂ (Restores um prog) (numbered k (memoryNodes um prog)) added) :
    List.Forall₂ (fun p q => q.1 = p.1 ∧ SameNode p.2 q.2) (numbered k (memoryNodes um prog)) added ↔
      ∀ phi ∈ prog.phis, ∀ pos : ℕ, Option.Rel SameVer (phi.opVers.lookup pos)
        ((writtenOPVers um phi.opVers)[pos]?.map Prod.snd) := by
  rw [← inOrder_iff hp, ← forall_mem_numbered k]
  refine forall₂_iff (fun p hmem q hpq => ?_) h
  obtain ⟨hid, n, hnode⟩ := hpq
  have hin := (mem_numbered hmem).2.2
  have hfront : ∀ bb ver ops, p.2 = .MSSAPHISVFGNode bb ver ops → prog.front bb = bb := by
    intro bb ver ops heq
    rcases mem_memoryNodes.mp hin with ⟨phi, hphi, hphieq⟩ | ⟨_, _, heq'⟩ | ⟨_, _, heq'⟩ |
      ⟨_, _, heq'⟩ | ⟨_, _, heq'⟩
    · obtain ⟨-, -, -, -, -, hfront⟩ := hp.phis phi hphi
      rw [heq] at hphieq
      obtain ⟨rfl, -, -⟩ := MSSANode.MSSAPHISVFGNode.inj hphieq
      exact hfront
    all_goals exact absurd (heq'.trans heq) (by simp)
  rw [hnode, sameNode_iff_inOrder (nodup_operands hp hin) hfront n]
  exact and_iff_right hid

end

section

variable {um : UnorderedMap} {prog : Program} {g g₁ g₂ : SVFG}

theorem connectFromGlobalToProgEntry_keeps (h : connectFromGlobalToProgEntry prog g₁ = some g) :
    g.nodes = g₁.nodes ∧ g.MSSAVarToDefMap = g₁.MSSAVarToDefMap := by
  refine foldlM_invariant (I := fun s => s.nodes = g₁.nodes ∧ s.MSSAVarToDefMap = g₁.MSSAVarToDefMap)
    (fun store _ s t hs hstep => ?_) ⟨rfl, rfl⟩ h
  refine foldlM_invariant (I := fun s => s.nodes = g₁.nodes ∧ s.MSSAVarToDefMap = g₁.MSSAVarToDefMap)
    (fun formalIn _ u v hu hadd => ?_) hs hstep
  dsimp only at hadd
  split at hadd
  · exact Option.some.inj hadd ▸ hu
  · obtain ⟨hnodes, hdefs⟩ := addIntraIndirectVFEdge_keeps hadd
    exact ⟨hnodes.trans hu.1, hdefs.trans hu.2⟩

theorem foldlM_connect_keeps {cs : List Connection} (h : cs.foldlM (connect prog) g₁ = some g) :
    (g.nodes = g₁.nodes ∧ g.MSSAVarToDefMap = g₁.MSSAVarToDefMap) ∧
      ∀ c ∈ cs, ∃ line, edgeLine g₁ c = some line := by
  have hstep : ∀ c ∈ cs, ∀ s t, s.nodes = g₁.nodes ∧ s.MSSAVarToDefMap = g₁.MSSAVarToDefMap →
      connect prog s c = some t → t.nodes = g₁.nodes ∧ t.MSSAVarToDefMap = g₁.MSSAVarToDefMap := by
    intro c _ s t hs hconnect
    obtain ⟨⟨hnodes, hdefs⟩, -⟩ := connect_keeps hconnect
    exact ⟨hnodes.trans hs.1, hdefs.trans hs.2⟩
  refine ⟨foldlM_invariant hstep ⟨rfl, rfl⟩ h, fun c hc => ?_⟩
  obtain ⟨u, v, hu, hconnect⟩ := foldlM_of_mem hstep ⟨rfl, rfl⟩ h hc
  obtain ⟨-, line, hline⟩ := connect_keeps hconnect
  exact ⟨line, edgeLine_congr hu.2 c ▸ hline⟩

theorem newline_edgeText {src dst : NodeID} {attributes : Text} (h : '\n' ∉ attributes) :
    '\n' ∉ edgeText src dst attributes := by
  have hnumber : ∀ n, '\n' ∉ number n := fun n => notMem_number rfl
  unfold edgeText
  simp [hnumber, h]

theorem edgeText_ne_nil {src dst : NodeID} {attributes : Text} : edgeText src dst attributes ≠ [] := by
  unfold edgeText
  simp

theorem edgeLine_text {nodes : List (NodeID × MSSANode)} {c : Connection} (hc : Valid prog nodes c)
    {line : Text} (hline : edgeLine g c = some line) : '\n' ∉ line ∧ line ≠ [] := by
  cases c with
  | use type node ver =>
      obtain ⟨d, -, rfl⟩ := Option.map_eq_some_iff.mp hline
      refine ⟨newline_edgeText ?_, edgeText_ne_nil⟩
      have htype : '\n' ∉ type.toList := by
        have hmem := hc.1
        simp only [List.mem_cons, List.not_mem_nil, or_false] at hmem
        rcases hmem with rfl | rfl | rfl <;> decide
      have hver : '\n' ∉ ver.text := notMem_text (c := '\n') rfl (by decide) (by decide) ver
      simp [htype, hver]
  | actualIn node ver =>
      obtain ⟨d, -, rfl⟩ := Option.map_eq_some_iff.mp hline
      exact ⟨newline_edgeText (by decide), edgeText_ne_nil⟩
  | formalOut node ver =>
      obtain ⟨d, -, rfl⟩ := Option.map_eq_some_iff.mp hline
      exact ⟨newline_edgeText (by decide), edgeText_ne_nil⟩
  | call formalIn func cs actualIn =>
      obtain rfl := Option.some.inj hline
      exact ⟨newline_edgeText (by decide), edgeText_ne_nil⟩
  | ret formalOut func cs actualOut =>
      obtain rfl := Option.some.inj hline
      exact ⟨newline_edgeText (by decide), edgeText_ne_nil⟩

/-- The graph that is built: the nodes have the identifiers after the ones of the statements, and
the loops that connect them have run. -/
structure Built (um : UnorderedMap) (prog : Program) (g₀ g₁ g₂ g : SVFG) : Prop where
  defs : setStoreDefs prog (vfg prog) = some g₀
  nodes : g₁.nodes = numbered prog.stmts.length (memoryNodes um prog)
  edges : g₁.edges = []
  connect : (connections prog g₁).foldlM (connect prog) g₁ = some g₂
  global : connectFromGlobalToProgEntry prog g₂ = some g

theorem exists_built (hp : WellFormed um prog) (h : buildSVFG um prog = some g) :
    ∃ g₀ g₁ g₂, Built um prog g₀ g₁ g₂ g := by
  obtain ⟨g₁, hadd, hconnect⟩ := Option.bind_eq_some_iff.mp h
  rw [addSVFGNodesForAddrTakenVars_eq] at hadd
  obtain ⟨g₀, hstore, hadd⟩ := Option.bind_eq_some_iff.mp hadd
  obtain ⟨g₂, hloop, hglobal⟩ := Option.bind_eq_some_iff.mp hconnect
  obtain ⟨hsame, -⟩ := setStoreDefs_spec hp hstore
  have hnil : g₀.nodes = [] := hsame.nodes
  have hid : ∀ p ∈ g₀.nodes, p.1 < g₀.totalVFGNode := by
    intro p hmem
    rw [hnil] at hmem
    exact absurd hmem List.not_mem_nil
  obtain ⟨hnodes, hedges⟩ := foldlM_addNew hid hadd
  rw [hnil, List.nil_append, hsame.totalVFGNode] at hnodes
  exact ⟨g₀, g₁, g₂, hstore, hnodes, hedges.trans hsame.edges, hloop, hglobal⟩

def fileLines (um : UnorderedMap) (prog : Program) (g : SVFG) (edgeLines : List Text) : List Text :=
  "__Nodes__".toList :: g.nodes.map (nodeLine um prog) ++ [[], [], "__Edges__".toList] ++ edgeLines

theorem exists_writeToFile {g₀ : SVFG} (hb : Built um prog g₀ g₁ g₂ g) :
    ∃ edgeLines, List.Forall₂ (fun c line => edgeLine g₁ c = some line) (connections prog g₁) edgeLines ∧
      writeToFile um prog g = some (unlines (fileLines um prog g₁ edgeLines)) := by
  obtain ⟨⟨hnodes, hdefs⟩, hlines⟩ := foldlM_connect_keeps hb.connect
  obtain ⟨hnodes', hdefs'⟩ := connectFromGlobalToProgEntry_keeps hb.global
  obtain ⟨edgeLines, hmap, hall⟩ := exists_mapM hlines
  have hline : edgeLine g = edgeLine g₁ := funext (edgeLine_congr (hdefs'.trans hdefs))
  refine ⟨edgeLines, hall, ?_⟩
  rw [writeToFile, connections_congr (hnodes'.trans hnodes), hline, hmap, hnodes'.trans hnodes]
  rfl

theorem readNodes_fileLines (edgeLines : List Text) (g : SVFG) :
    readNodes um prog (fileLines um prog g₁ edgeLines ++ [[]]) g =
      readNodes um prog (g₁.nodes.map (nodeLine um prog) ++
        ([[], [], "__Edges__".toList] ++ edgeLines ++ [[]])) g := by
  have hfirst : readNode um prog g "__Nodes__".toList = some g := by
    have hsplit : splitLine " >= ".toList "__Nodes__".toList.length "__Nodes__".toList =
        ([], "__Nodes__".toList) := by decide
    unfold readNode
    rw [hsplit]
    rfl
  have hnone : (find "__Edges__".toList "__Nodes__".toList).isSome ≠ true := by decide
  rw [fileLines, List.cons_append, List.cons_append, List.cons_append, readNodes, if_neg (by decide),
    if_neg hnone, hfirst, Option.bind_some]
  simp only [List.append_assoc]

theorem lines_fileLines {edgeLines : List Text} (hlines : ∀ line ∈ edgeLines, '\n' ∉ line) :
    lines (unlines (fileLines um prog g₁ edgeLines)) = fileLines um prog g₁ edgeLines ++ [[]] := by
  have hall : ∀ line ∈ fileLines um prog g₁ edgeLines, '\n' ∉ line := by
    intro line hline
    rcases List.mem_append.mp hline with hline | hline
    · rcases List.mem_append.mp hline with hline | hline
      · rcases List.mem_cons.mp hline with rfl | hline
        · decide
        · obtain ⟨node, -, rfl⟩ := List.mem_map.mp hline
          exact newline_nodeLine node
      · have hfew : ∀ line ∈ [[], [], "__Edges__".toList], '\n' ∉ line := by decide
        exact hfew line hline
    · exact hlines line hline
  have h := lines_unlines hall []
  rwa [List.append_nil] at h

theorem readNodes_rest (edgeLines : List Text) (h : SVFG) :
    readNodes um prog ([[], [], "__Edges__".toList] ++ edgeLines ++ [[]]) h =
      some (h, edgeLines ++ [[]]) := by
  have hmark : (find "__Edges__".toList "__Edges__".toList).isSome := by decide
  simp only [List.cons_append, List.nil_append]
  rw [readNodes, if_pos rfl, readNodes, if_pos rfl, readNodes, if_neg (by decide), if_pos hmark]

theorem filter_edgeLines {edgeLines : List Text} (h : ∀ line ∈ edgeLines, line ≠ []) :
    (edgeLines ++ [[]]).filter (· ≠ []) = edgeLines := by
  rw [List.filter_append, List.filter_eq_self.mpr fun line hline => by simpa using h line hline]
  exact List.append_nil _

theorem edgeLines_text {cs : List Connection} {edgeLines : List Text}
    (hvalid : ∀ c ∈ cs, Valid prog g.nodes c)
    (h : List.Forall₂ (fun c line => edgeLine g c = some line) cs edgeLines) :
    ∀ line ∈ edgeLines, '\n' ∉ line ∧ line ≠ [] := by
  induction h with
  | nil => exact fun _ hline => absurd hline List.not_mem_nil
  | cons hc _ ih =>
      obtain ⟨hfirst, hrest⟩ := List.forall_mem_cons.mp hvalid
      exact List.forall_mem_cons.mpr ⟨edgeLine_text hfirst hc, ih hrest⟩

theorem Built.valid {g₀ : SVFG} (hp : WellFormed um prog) (hb : Built um prog g₀ g₁ g₂ g) :
    Listed um prog g₁.nodes ∧ ∀ c ∈ connections prog g₁, Valid prog g₁.nodes c := by
  have hlisted : Listed um prog g₁.nodes := hb.nodes ▸ listed_numbered hp
  refine ⟨hlisted, fun c hc => valid_connections hp hlisted (fun p hmem => ?_) hc⟩
  rw [hb.nodes] at hmem
  exact fits_operands hp (mem_numbered hmem).2.2

theorem map_fst_restores {l l' : List (NodeID × MSSANode)} (h : List.Forall₂ (Restores um prog) l l') :
    l'.map Prod.fst = l.map Prod.fst := by
  induction h with
  | nil => rfl
  | cons hpq _ ih => rw [List.map_cons, List.map_cons, hpq.1, ih]

theorem forall_mem_fst_congr (P : NodeID → Prop) {l l' : List (NodeID × MSSANode)}
    (h : l'.map Prod.fst = l.map Prod.fst) : (∀ p ∈ l', P p.1) ↔ ∀ p ∈ l, P p.1 := by
  rw [← List.forall_mem_map (f := Prod.fst) (P := P), h, List.forall_mem_map]

theorem readFile_follows {g₀ : SVFG} (hp : WellFormed um prog) (hb : Built um prog g₀ g₁ g₂ g)
    (hops : ∀ node ∈ memoryNodes um prog, HasOperands um node) {edgeLines : List Text}
    (hlines : List.Forall₂ (fun c line => edgeLine g₁ c = some line) (connections prog g₁) edgeLines) :
    ∃ h, readFile um prog (unlines (fileLines um prog g₁ edgeLines)) = some h ∧
      Reads um prog (prog.stmts.length + (memoryNodes um prog).length / 2 * 2) g h := by
  obtain ⟨hlisted, hvalid⟩ := hb.valid hp
  have htext := edgeLines_text hvalid hlines
  obtain ⟨hsame, hbounded⟩ := setStoreDefs_spec hp hb.defs
  have hnil : g₀.nodes = [] := hsame.nodes
  have hread := readNodes_lines ([[], [], "__Edges__".toList] ++ edgeLines ++ [[]]) hlisted.readable
    (hb.nodes ▸ (forall_mem_numbered _ _).mpr hops) hlisted.sorted hbounded
    (hnil ▸ fun p hmem => absurd hmem List.not_mem_nil)
  obtain ⟨h₁, added, hnodes, hadded, hall, hedges, hcount, -⟩ := hread
  rw [hnil, List.nil_append] at hall
  have hfirst : g₀.totalVFGNode = prog.stmts.length := hsame.totalVFGNode
  rw [hb.nodes, hfirst, countAfter_numbered] at hcount
  have hstart : Follows um prog (prog.stmts.length + (memoryNodes um prog).length / 2 * 2) g₁ g₁ h₁ :=
    ⟨⟨hall ▸ hadded, (hedges.trans hsame.edges).trans hb.edges.symm, hcount⟩, rfl, rfl⟩
  have hstmts : prog.stmts.length ≤ 2 ^ 32 := Nat.le_trans (Nat.le_add_right _ _) hp.size
  obtain ⟨h₂, hloop, hf⟩ := readEdges_follow hlisted hstmts hvalid hlines hstart hb.connect
  obtain ⟨h, hglobal, hf⟩ := connectFromGlobalToProgEntry_follows hlisted hf hb.global
  refine ⟨h, ?_, hf.1⟩
  rw [readFile, hb.defs, Option.bind_eq_bind, Option.bind_some,
    lines_fileLines fun line hline => (htext line hline).1, readNodes_fileLines, hnodes,
    readNodes_rest, Option.bind_eq_bind, Option.bind_some]
  dsimp only
  rw [filter_edgeLines fun line hline => (htext line hline).2, hloop]
  exact hglobal

theorem readFile_eq_none {g₀ : SVFG} (hp : WellFormed um prog) (hb : Built um prog g₀ g₁ g₂ g)
    (hops : ¬ ∀ node ∈ memoryNodes um prog, HasOperands um node) {edgeLines : List Text}
    (hlines : List.Forall₂ (fun c line => edgeLine g₁ c = some line) (connections prog g₁) edgeLines) :
    readFile um prog (unlines (fileLines um prog g₁ edgeLines)) = none := by
  obtain ⟨hlisted, hvalid⟩ := hb.valid hp
  have htext := edgeLines_text hvalid hlines
  have hsome : ∃ p ∈ g₁.nodes, ¬ HasOperands um p.2 := by
    rw [hb.nodes]
    by_contra hall
    push Not at hall
    exact hops ((forall_mem_numbered _ _).mp hall)
  rw [readFile, hb.defs, Option.bind_eq_bind, Option.bind_some,
    lines_fileLines fun line hline => (htext line hline).1, readNodes_fileLines,
    readNodes_lines_eq_none _ hlisted.readable hsome]
  rfl

/-- A file that has been written is read back where the program is restorable, and only there. -/
theorem readFile_restores_iff (hp : WellFormed um prog) (hbuild : buildSVFG um prog = some g) :
    ∃ file, writeToFile um prog g = some file ∧
      ((∃ h, readFile um prog file = some h ∧ Restored g h) ↔ Restorable um prog) := by
  obtain ⟨g₀, g₁, g₂, hb⟩ := exists_built hp hbuild
  obtain ⟨edgeLines, hlines, hwrite⟩ := exists_writeToFile hb
  refine ⟨_, hwrite, ?_⟩
  have hnodes : g.nodes = numbered prog.stmts.length (memoryNodes um prog) := by
    obtain ⟨⟨hnodes, -⟩, -⟩ := foldlM_connect_keeps hb.connect
    exact (connectFromGlobalToProgEntry_keeps hb.global).1.trans (hnodes.trans hb.nodes)
  by_cases hops : ∀ node ∈ memoryNodes um prog, HasOperands um node
  · obtain ⟨h, hread, hr⟩ := readFile_follows hp hb hops hlines
    have hadded : List.Forall₂ (Restores um prog)
        (numbered prog.stmts.length (memoryNodes um prog)) h.nodes := hnodes ▸ hr.nodes
    have hids : (∀ p ∈ h.nodes, ∀ n, p.1 ≠ h.totalVFGNode + n) ↔ Even (memoryNodes um prog).length := by
      rw [← fresh_iff (k := prog.stmts.length), hr.totalVFGNode]
      have hfst : h.nodes.map Prod.fst =
          (numbered prog.stmts.length (memoryNodes um prog)).map Prod.fst := map_fst_restores hadded
      exact forall_mem_fst_congr (fun id => ∀ n, id ≠ _ + n) hfst
    constructor
    · rintro ⟨h', hread', hrestored⟩
      obtain rfl : h = h' := Option.some.inj (hread.symm.trans hread')
      refine ⟨hids.mp hrestored.fresh, fun phi hphi => ⟨(hasOperands_iff hp).mp hops phi hphi, ?_⟩⟩
      exact (sameNodes_iff hp hadded).mp (hnodes ▸ hrestored.nodes) phi hphi
    · intro hrest
      refine ⟨h, hread, ?_, fun e => by rw [hr.edges], hids.mpr hrest.even⟩
      rw [hnodes]
      exact (sameNodes_iff hp hadded).mpr fun phi hphi => (hrest.phis phi hphi).2
  · have hnone := readFile_eq_none hp hb hops hlines
    constructor
    · rintro ⟨h, hread, -⟩
      rw [hnone] at hread
      contradiction
    · exact fun hrest => absurd ((hasOperands_iff hp).mpr fun phi hphi => (hrest.phis phi hphi).1) hops

end

def byPosition : UnorderedMap := ⟨id, fun _ _ => .refl _⟩

def version (vid : ℕ) (type : DEFTYPE) : MRVer := ⟨setAll [4], vid, vid, ⟨type, setAll [4]⟩⟩

def sampleProgram (stmts : List StmtNode) (phis : List PHI) : Program where
  stmts := stmts
  stmtFun _ := some 0
  phis := phis
  entryChis := [(0, version 0 .EntryMSSACHI)]
  returnMus := []
  callMus := []
  callChis := []
  totalVERNum := 3
  hasMU _ := false
  hasCHI _ := false
  getDirCallSitesInvokingCallee _ := []
  getCallSiteID _ _ := 0
  hasICFGNode _ := true
  getFunEntryICFGNode _ := 1
  getFunExitICFGNode _ := 2
  getRetICFGNode cs := cs + 1
  isFunEntryICFGNode node := node = 1
  isFunExitICFGNode node := node = 2
  isCallICFGNode _ := false
  getFun _ := some 0
  front node := node
  progEntryFunction := 0
  globalStores := []

def storeLoop : Program :=
  sampleProgram [.StoreSVFGNode [(version 1 .SSAPHI, version 2 .StoreMSSACHI)]]
    [⟨3, [(0, version 0 .EntryMSSACHI), (1, version 2 .StoreMSSACHI)], version 1 .SSAPHI⟩]

theorem fits_version {vid : ℕ} (h : vid < 3) (type : DEFTYPE) : Fits (version vid type) := by
  have hle : vid ≤ maxID := Nat.le_trans (Nat.le_of_lt h) (by decide)
  refine ⟨fun n hn => ?_, hle⟩
  have hfour : n = 4 := by
    change n ∈ setAll [4] at hn
    simpa [mem_setAll] using hn
  exact hfour ▸ (by decide)

theorem wellFormed_sampleProgram {stmts : List StmtNode} {phis : List PHI}
    (size : stmts.length + (memoryNodes byPosition (sampleProgram stmts phis)).length ≤ 2 ^ 32)
    (loads : ∀ muSet, .LoadSVFGNode muSet ∈ stmts → ∀ ver ∈ muSet, Fits ver)
    (stores : ∀ chiSet, .StoreSVFGNode chiSet ∈ stmts → ∀ chi ∈ chiSet, Fits chi.1 ∧ chi.2.vid < 3)
    (hphis : ∀ phi ∈ phis, (phi.opVers.map Prod.fst).Nodup ∧ (∀ op ∈ phi.opVers, Fits op.2) ∧
      Fits phi.resVer ∧ phi.bb ≤ maxID) : WellFormed byPosition (sampleProgram stmts phis) where
  size := size
  loads := loads
  stores := stores
  phis phi hphi := by
    obtain ⟨hnodup, hops, hres, hle⟩ := hphis phi hphi
    exact ⟨hnodup, hops, hres, hle, rfl, rfl⟩
  entryChis chi hchi := by
    rw [List.mem_singleton.mp hchi]
    exact ⟨fits_version (by decide) _, show 1 ≤ maxID by decide, rfl⟩
  returnMus _ hmu := absurd hmu List.not_mem_nil
  callMus _ hmu := absurd hmu List.not_mem_nil
  callChis _ hchi := absurd hchi List.not_mem_nil

/-- The store loop is written and read back. -/
theorem readFile_restores_iff_storeLoop : ∃ g file h, buildSVFG byPosition storeLoop = some g ∧
    writeToFile byPosition storeLoop g = some file ∧ readFile byPosition storeLoop file = some h ∧
      Restored g h := by
  have hp : WellFormed byPosition storeLoop := by
    refine wellFormed_sampleProgram (by decide) ?_ ?_ ?_
    · exact fun muSet hmem => absurd (List.mem_singleton.mp hmem) (by simp)
    · intro chiSet hmem chi hchi
      obtain rfl := StmtNode.StoreSVFGNode.inj (List.mem_singleton.mp hmem)
      rw [List.mem_singleton.mp hchi]
      exact ⟨fits_version (by decide) _, by decide⟩
    · intro phi hphi
      rw [List.mem_singleton.mp hphi]
      refine ⟨by decide, ?_, fits_version (by decide) _, by decide⟩
      simp only [List.forall_mem_cons]
      exact ⟨fits_version (by decide) _, fits_version (by decide) _, List.forall_mem_nil _⟩
  obtain ⟨g, hbuild⟩ := Option.isSome_iff_exists.mp
    (show (buildSVFG byPosition storeLoop).isSome = true by decide)
  obtain ⟨file, hwrite, hiff⟩ := readFile_restores_iff hp hbuild
  have hsame : ∀ v, SameVer v v := fun v => ⟨rfl, rfl, rfl⟩
  have hrest : Restorable byPosition storeLoop := by
    refine ⟨by decide, fun phi hphi => ?_⟩
    rw [List.mem_singleton.mp hphi]
    refine ⟨List.cons_ne_nil _ _, fun pos => ?_⟩
    match pos with
    | 0 => exact .some (hsame _)
    | 1 => exact .some (hsame _)
    | _ + 2 => exact .none
  obtain ⟨h, hread, hrestored⟩ := hiff.mpr hrest
  exact ⟨g, file, h, hbuild, hwrite, hread, hrestored⟩

def loadOnly : Program := sampleProgram [.LoadSVFGNode [version 0 .EntryMSSACHI]] []

/-- Reading the one node of the function leaves the counter at its identifier. -/
theorem readFile_loadOnly : ¬ ∀ um prog g, WellFormed um prog → buildSVFG um prog = some g →
    ∃ file h, writeToFile um prog g = some file ∧ readFile um prog file = some h ∧ Restored g h := by
  intro hall
  have hp : WellFormed byPosition loadOnly := by
    refine wellFormed_sampleProgram (by decide) ?_ ?_ ?_
    · intro muSet hmem ver hver
      obtain rfl := StmtNode.LoadSVFGNode.inj (List.mem_singleton.mp hmem)
      rw [List.mem_singleton.mp hver]
      exact fits_version (by decide) _
    · exact fun chiSet hmem => absurd (List.mem_singleton.mp hmem) (by simp)
    · exact fun phi hphi => absurd hphi List.not_mem_nil
  obtain ⟨g, hbuild⟩ := Option.isSome_iff_exists.mp
    (show (buildSVFG byPosition loadOnly).isSome = true by decide)
  obtain ⟨file, h, hwrite, hread, hrestored⟩ := hall byPosition loadOnly g hp hbuild
  obtain ⟨g₀, g₁, g₂, hb⟩ := exists_built hp hbuild
  obtain ⟨edgeLines, hlines, hwrite'⟩ := exists_writeToFile hb
  obtain rfl := Option.some.inj (hwrite.symm.trans hwrite')
  have hops : ∀ node ∈ memoryNodes byPosition loadOnly, HasOperands byPosition node :=
    (hasOperands_iff hp).mpr fun phi hphi => absurd hphi List.not_mem_nil
  obtain ⟨h', hread', hr⟩ := readFile_follows hp hb hops hlines
  obtain rfl := Option.some.inj (hread.symm.trans hread')
  obtain ⟨⟨hnodes, -⟩, -⟩ := foldlM_connect_keeps hb.connect
  have hids : h.nodes.map Prod.fst = [1] := by
    rw [map_fst_restores hr.nodes, (connectFromGlobalToProgEntry_keeps hb.global).1, hnodes, hb.nodes]
    rfl
  have hfresh := (forall_mem_fst_congr (fun id => ∀ n, id ≠ h.totalVFGNode + n)
    (l := [(1, .FormalINSVFGNode 1 (version 0 .EntryMSSACHI))]) hids).mp hrestored.fresh
  exact hfresh _ List.mem_cons_self 0 hr.totalVFGNode.symm

end SVF.Graphs.SVFGRestored
