import Mathlib.Data.Finset.Card
import SVF.Util.NodeIDs

namespace SVF.Graphs.SCC

open Relation
open Util.NodeIDs (UINT_MAX)

abbrev NodeID := ℕ

/-- A finite directed graph. The allocator of identifiers never gives out `UINT_MAX`. -/
structure Graph where
  nodes : List NodeID
  succs : NodeID → List NodeID
  lt_of_mem : ∀ n ∈ nodes, n < UINT_MAX
  closed : ∀ n ∈ nodes, ∀ m ∈ succs n, m ∈ nodes

structure GNodeSCCInfo where
  visited : Bool := false
  inSCC : Bool := false
  rep : NodeID := UINT_MAX
  subNodes : Finset NodeID := ∅

structure SCCDetection where
  info : NodeID → GNodeSCCInfo := fun _ => {}
  I : ℕ := 0
  D : NodeID → ℕ := fun _ => 0
  SS : List NodeID := []
  T : List NodeID := []
  repNodes : Finset NodeID := ∅

namespace SCCDetection

variable (s : SCCDetection)

def visited (n : NodeID) : Bool := (s.info n).visited

def inSCC (n : NodeID) : Bool := (s.info n).inSCC

def rep (n : NodeID) : NodeID := (s.info n).rep

def subNodes (n : NodeID) : Finset NodeID := (s.info n).subNodes

/-- The representative, or the node itself if there is none. -/
def repNode (n : NodeID) : NodeID := if s.rep n ≠ UINT_MAX then s.rep n else n

def modify (n : NodeID) (f : GNodeSCCInfo → GNodeSCCInfo) : SCCDetection :=
  { s with info := Function.update s.info n (f (s.info n)) }

def setVisited (n : NodeID) : SCCDetection := s.modify n fun i => { i with visited := true }

def setInSCC (n : NodeID) : SCCDetection := s.modify n fun i => { i with inSCC := true }

def setRep (n r : NodeID) : SCCDetection :=
  let s := s.modify n fun i => { i with rep := r }
  let s := s.modify r fun i => { i with subNodes := insert n i.subNodes }
  if n ≠ r then
    let s := s.modify n fun i => { i with subNodes := ∅ }
    { s with repNodes := insert r (s.repNodes.erase n) }
  else s

def enter (v : NodeID) : SCCDetection :=
  let s := { s with I := s.I + 1, D := Function.update s.D v (s.I + 1) }
  (s.setRep v v).setVisited v

def link (v w : NodeID) : SCCDetection :=
  s.setRep v (if s.D (s.rep v) < s.D (s.rep w) then s.rep v else s.rep w)

def popStack (v : NodeID) : List NodeID → SCCDetection → SCCDetection
  | [], s => { s with SS := [] }
  | w :: ws, s =>
      if s.D w ≤ s.D v then { s with SS := w :: ws }
      else popStack v ws ((s.setInSCC w).setRep w v)

def leave (v : NodeID) : SCCDetection :=
  if s.rep v = v then
    let s := popStack v s.SS (s.setInSCC v)
    { s with T := v :: s.T }
  else { s with SS := v :: s.SS }

def visitChild (visit : NodeID → SCCDetection → Option SCCDetection) (v : NodeID)
    (s : SCCDetection) (w : NodeID) : Option SCCDetection :=
  (if s.visited w then some s else visit w s).map fun s => if s.inSCC w then s else s.link v w

end SCCDetection

def visit (G : Graph) : ℕ → NodeID → SCCDetection → Option SCCDetection
  | 0, _, _ => none
  | depth + 1, v, s =>
      ((G.succs v).foldlM (SCCDetection.visitChild (visit G depth) v) (s.enter v)).map
        fun s => s.leave v

def find (G : Graph) (depth : ℕ) : Option SCCDetection :=
  G.nodes.foldlM (fun s node =>
    if s.visited node then some s
    else if s.rep node = UINT_MAX ∨ s.rep node = node then visit G depth node s
    else some s) {}

def Reach (G : Graph) : NodeID → NodeID → Prop := ReflTransGen fun n m => m ∈ G.succs n

def Mutual (G : Graph) (n m : NodeID) : Prop := Reach G n m ∧ Reach G m n

theorem reach_succ {G : Graph} {n m : NodeID} (h : m ∈ G.succs n) : Reach G n m :=
  ReflTransGen.single h

theorem closed_of_reach {G : Graph} {p : NodeID → Prop} (hp : ∀ n, p n → ∀ m ∈ G.succs n, p m)
    {n m : NodeID} (h : Reach G n m) (hn : p n) : p m := by
  induction h with
  | refl => exact hn
  | tail _ hedge ih => exact hp _ ih _ hedge

namespace SCCDetection

variable (s : SCCDetection) (n r m v : NodeID)

theorem info_modify (f : GNodeSCCInfo → GNodeSCCInfo) :
    (s.modify n f).info m = if m = n then f (s.info n) else s.info m :=
  Function.update_apply s.info n _ m

@[simp] theorem visited_modify (f : GNodeSCCInfo → GNodeSCCInfo) :
    (s.modify n f).visited m = if m = n then (f (s.info n)).visited else s.visited m := by
  rw [visited, info_modify, apply_ite GNodeSCCInfo.visited, ← visited]

@[simp] theorem inSCC_modify (f : GNodeSCCInfo → GNodeSCCInfo) :
    (s.modify n f).inSCC m = if m = n then (f (s.info n)).inSCC else s.inSCC m := by
  rw [inSCC, info_modify, apply_ite GNodeSCCInfo.inSCC, ← inSCC]

@[simp] theorem rep_modify (f : GNodeSCCInfo → GNodeSCCInfo) :
    (s.modify n f).rep m = if m = n then (f (s.info n)).rep else s.rep m := by
  rw [rep, info_modify, apply_ite GNodeSCCInfo.rep, ← rep]

@[simp] theorem subNodes_modify (f : GNodeSCCInfo → GNodeSCCInfo) :
    (s.modify n f).subNodes m = if m = n then (f (s.info n)).subNodes else s.subNodes m := by
  rw [subNodes, info_modify, apply_ite GNodeSCCInfo.subNodes, ← subNodes]

theorem search_setRep : (s.setRep n r).I = s.I ∧ (s.setRep n r).D = s.D ∧
    (s.setRep n r).SS = s.SS ∧ (s.setRep n r).T = s.T := by
  rw [setRep]
  split <;> exact ⟨rfl, rfl, rfl, rfl⟩

@[simp] theorem I_setRep : (s.setRep n r).I = s.I := (s.search_setRep n r).1

@[simp] theorem D_setRep : (s.setRep n r).D = s.D := (s.search_setRep n r).2.1

@[simp] theorem SS_setRep : (s.setRep n r).SS = s.SS := (s.search_setRep n r).2.2.1

@[simp] theorem T_setRep : (s.setRep n r).T = s.T := (s.search_setRep n r).2.2.2

theorem info_setRep : (s.setRep n r).info m =
    { visited := s.visited m
      inSCC := s.inSCC m
      rep := if m = n then r else s.rep m
      subNodes := if m = n ∧ n ≠ r then ∅ else if m = r then insert n (s.subNodes m)
        else s.subNodes m } := by
  rw [setRep]
  by_cases hne : n = r
  · subst hne
    by_cases hm : m = n
    · simp [modify, visited, inSCC, subNodes, hm]
    · simp [modify, visited, inSCC, rep, subNodes, hm]
  · by_cases hm : m = n
    · simp [modify, visited, inSCC, hm, hne]
    · by_cases hr : m = r
      · simp [modify, visited, inSCC, rep, subNodes, hr, hne, Ne.symm hne]
      · simp [modify, visited, inSCC, rep, subNodes, hm, hr, hne]

@[simp] theorem visited_setRep : (s.setRep n r).visited m = s.visited m := by
  rw [visited, info_setRep]

@[simp] theorem inSCC_setRep : (s.setRep n r).inSCC m = s.inSCC m := by
  rw [inSCC, info_setRep]

theorem rep_setRep : (s.setRep n r).rep m = if m = n then r else s.rep m :=
  congrArg GNodeSCCInfo.rep (s.info_setRep n r m)

theorem subNodes_setRep : (s.setRep n r).subNodes m = if m = n ∧ n ≠ r then ∅
    else if m = r then insert n (s.subNodes m) else s.subNodes m :=
  congrArg GNodeSCCInfo.subNodes (s.info_setRep n r m)

end SCCDetection

end SVF.Graphs.SCC
