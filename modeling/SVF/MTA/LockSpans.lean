import SVF.Util.OrderedSets
import SVF.Util.Traversals

namespace SVF.MTA.LockSpans

open Relation Util.Traversals

abbrev NodeID := ℕ

/-- The ICFG with the last nodes of the entry and exit blocks of functions, the
answers of the thread API and of the pointer analysis, and the order in which
the nodes of a hash set are iterated. -/
structure Program where
  edges : List (NodeID × NodeID)
  getFun : NodeID → ℕ
  entryInst : ℕ → NodeID
  exitInst : ℕ → NodeID
  locksites : List NodeID
  isTDAcquire : NodeID → Bool
  isTDRelease : NodeID → Bool
  isAliasedLocks : NodeID → NodeID → Bool
  iterated : List NodeID → List NodeID
  mem_iterated : ∀ {insts i}, i ∈ iterated insts ↔ i ∈ insts

structure LockAnalysis where
  ciLocktoSpan : NodeID → List NodeID
  instCILocksMap : NodeID → List NodeID
  instTocondCILocksMap : NodeID → List NodeID

variable (P : Program)

def outNodes (I : NodeID) : List NodeID :=
  (P.edges.filter fun e => e.1 = I ∧ P.getFun e.2 = P.getFun I).map (·.2)

def inNodes (I : NodeID) : List NodeID :=
  (P.edges.filter fun e => e.2 = I ∧ P.getFun e.1 = P.getFun I).map (·.1)

def releases (lockSite I : NodeID) : Bool := P.isTDRelease I && P.isAliasedLocks lockSite I

def acquires (unlockSite I : NodeID) : Bool := P.isTDAcquire I && P.isAliasedLocks unlockSite I

/-- The result, `unlockSet` and `forwardInsts`. The traversal stops at the
releases that it visits, which are the unlock set. -/
def intraForwardTraverse (lockSite : NodeID) : Option (Bool × List NodeID × List NodeID) :=
  (search (fun I => I = P.exitInst (P.getFun lockSite)) (releases P lockSite) (outNodes P)
    (P.edges.length + 1) [lockSite] []).map fun (forward, forwardInsts) =>
      (forward, forwardInsts.filter (releases P lockSite), forwardInsts)

/-- The nodes visited from one unlock site are not visited again from the next. -/
def intraBackwardTraverse : List NodeID → List NodeID → Option (Bool × List NodeID)
  | [], backwardInsts => some (true, backwardInsts)
  | unlockSite :: unlockSet, backwardInsts =>
      (search (fun I => I = P.entryInst (P.getFun unlockSite)) (acquires P unlockSite) (inNodes P)
        (P.edges.length + 1) [unlockSite] backwardInsts).bind fun (backward, backwardInsts) =>
          if backward then intraBackwardTraverse unlockSet backwardInsts
          else some (false, backwardInsts)

def addTo (m : NodeID → List NodeID) (stmts : List NodeID) (lockSite : NodeID) :
    NodeID → List NodeID := fun I => if I ∈ stmts then (m I).insert lockSite else m I

def addIntraLock (s : LockAnalysis) (lockSite : NodeID) (stmts : List NodeID) : LockAnalysis :=
  { s with
    instCILocksMap := addTo s.instCILocksMap stmts lockSite
    ciLocktoSpan := Function.update s.ciLocktoSpan lockSite (s.ciLocktoSpan lockSite ∪ stmts) }

def addCondIntraLock (s : LockAnalysis) (lockSite : NodeID) (stmts : List NodeID) : LockAnalysis :=
  { s with instTocondCILocksMap := addTo s.instTocondCILocksMap stmts lockSite }

/-- The body of the loop over the lock sites. -/
def analyzeLock (s : LockAnalysis) (lockSite : NodeID) : Option LockAnalysis :=
  (intraForwardTraverse P lockSite).bind fun (forward, unlockSet, forwardInsts) =>
    (intraBackwardTraverse P (P.iterated unlockSet) []).map fun (backward, _) =>
      if forward && backward then addIntraLock s lockSite forwardInsts
      else if forward && !backward then addCondIntraLock s lockSite forwardInsts
      else s

def analyzeIntraProcedualLock : Option LockAnalysis :=
  P.locksites.foldlM (analyzeLock P) ⟨fun _ => [], fun _ => [], fun _ => []⟩

namespace LockAnalysis

variable (s : LockAnalysis)

def isInsideCondIntraLock (stmt : NodeID) : Bool := s.instTocondCILocksMap stmt ≠ []

def isInsideIntraLock (stmt : NodeID) : Bool :=
  s.instCILocksMap stmt ≠ [] || s.isInsideCondIntraLock stmt

def isProtectedByCommonCILock (i1 i2 : NodeID) : Bool :=
  !s.isInsideCondIntraLock i1 && !s.isInsideCondIntraLock i2 &&
    (s.instCILocksMap i1).any fun cil1 => (s.instCILocksMap i2).any fun cil2 => P.isAliasedLocks cil1 cil2

end LockAnalysis

section

def Flow (a b : NodeID) : Prop := (a, b) ∈ P.edges ∧ P.getFun a = P.getFun b

/-- The statements from the lock site on, up to the first release. -/
def After (l : NodeID) : NodeID → Prop :=
  ReflTransGen (fun a b => releases P l a = false ∧ Flow P a b) l

def Unlocks (l u : NodeID) : Prop := After P l u ∧ releases P l u = true

/-- Every way from the lock site to the exit meets a release, and every way from
the entry to one of these an acquisition that one of these may release. -/
structure Locked (l i : NodeID) : Prop where
  after : After P l i
  exit : ¬ After P l (P.exitInst (P.getFun l))
  entry : ∀ u, Unlocks P l u → ¬ ReflTransGen
    (fun a b => Flow P a b ∧ ∀ u', Unlocks P l u' → acquires P u' b = false) (P.entryInst (P.getFun l)) u

/-- There is a way from the entry to a release without an acquisition for it. -/
structure CondLocked (l i : NodeID) : Prop where
  after : After P l i
  exit : ¬ After P l (P.exitInst (P.getFun l))
  entry : ∃ u, Unlocks P l u ∧ ReflTransGen (fun a b => Flow P a b ∧ acquires P u b = false)
    (P.entryInst (P.getFun l)) u

variable {P}

theorem mem_outNodes {a b : NodeID} : b ∈ outNodes P a ↔ Flow P a b := by
  simp only [outNodes, Flow, List.mem_map, List.mem_filter, decide_eq_true_eq]
  constructor
  · rintro ⟨⟨x, y⟩, ⟨he, rfl, hfun⟩, rfl⟩
    exact ⟨he, hfun.symm⟩
  · rintro ⟨he, hfun⟩
    exact ⟨(a, b), ⟨he, rfl, hfun.symm⟩, rfl⟩

theorem mem_inNodes {a b : NodeID} : a ∈ inNodes P b ↔ Flow P a b := by
  simp only [inNodes, Flow, List.mem_map, List.mem_filter, decide_eq_true_eq]
  constructor
  · rintro ⟨⟨x, y⟩, ⟨he, rfl, hfun⟩, rfl⟩
    exact ⟨he, hfun⟩
  · rintro ⟨he, hfun⟩
    exact ⟨(a, b), ⟨he, rfl, hfun⟩, rfl⟩

theorem onward_out (l : NodeID) : Onward (releases P l) (outNodes P) =
    fun a b => releases P l a = false ∧ Flow P a b := by
  funext a b
  rw [Onward, mem_outNodes]

theorem getFun_after {l i : NodeID} (h : After P l i) : P.getFun i = P.getFun l := by
  induction h with
  | refl => rfl
  | tail _ hstep ih => exact hstep.2.2.symm.trans ih

theorem length_outNodes_le (a : NodeID) :
    (outNodes P a).length ≤ (P.edges.filter (·.1 = a)).length := by
  rw [outNodes, List.length_map]
  refine List.Sublist.length_le (List.monotone_filter_right _ fun e he => ?_)
  simp only [decide_eq_true_eq] at he ⊢
  exact he.1

theorem length_inNodes_le (b : NodeID) :
    (inNodes P b).length ≤ ((P.edges.map Prod.swap).filter (·.1 = b)).length := by
  rw [inNodes, List.length_map, List.filter_map, List.length_map]
  refine List.Sublist.length_le (List.monotone_filter_right _ fun e he => ?_)
  simp only [Function.comp_apply, decide_eq_true_eq] at he ⊢
  exact he.1

theorem intraForwardTraverse_spec (P : Program) (l : NodeID) : ∃ forward unlockSet forwardInsts,
    intraForwardTraverse P l = some (forward, unlockSet, forwardInsts) ∧
      (forward = true ↔ ¬ After P l (P.exitInst (P.getFun l))) ∧
      (forward = true → (∀ i, i ∈ forwardInsts ↔ After P l i) ∧
        ∀ u, u ∈ unlockSet ↔ Unlocks P l u) := by
  have hfuel : [l].length + (P.edges.filter (·.1 ∉ ([] : List NodeID))).length ≤ P.edges.length + 1 := by
    have hle := List.length_filter_le (fun e : NodeID × NodeID => e.1 ∉ ([] : List NodeID)) P.edges
    rw [List.length_singleton]
    omega
  obtain ⟨⟨forward, forwardInsts⟩, hrun⟩ := exists_search
    (fun I => I = P.exitInst (P.getFun l)) (releases P l) length_outNodes_le hfuel
  obtain ⟨htrue, hfalse⟩ := search_spec (searched_start [l] []) hrun
  rw [onward_out] at hfalse
  refine ⟨forward, _, forwardInsts, by rw [intraForwardTraverse, hrun, Option.map_some], ?_, ?_⟩
  · constructor
    · intro h hexit
      have hsearched := htrue h
      have hmem := (hsearched.mem_iff (b := P.exitInst (P.getFun l))).mpr
        ⟨l, List.mem_singleton_self l, by rw [onward_out]; exact hexit⟩
      have hnew := (hsearched.found _ hmem).resolve_left List.not_mem_nil
      simp at hnew
    · intro h
      by_contra hno
      obtain ⟨r, hr, g, hg, hpath⟩ := hfalse (by simpa using hno)
      obtain rfl := List.mem_singleton.mp hr
      obtain rfl := of_decide_eq_true hg
      exact h hpath
  · intro h
    have hmem : ∀ i, i ∈ forwardInsts ↔ After P l i := by
      intro i
      rw [(htrue h).mem_iff, onward_out]
      exact ⟨fun ⟨r, hr, hpath⟩ => List.mem_singleton.mp hr ▸ hpath,
        fun hpath => ⟨l, List.mem_singleton_self l, hpath⟩⟩
    refine ⟨hmem, fun u => ?_⟩
    rw [List.mem_filter, hmem]
    rfl

/-- What the backward traversals have visited, from the unlock sites `us` of the function `f`. -/
structure Backed (P : Program) (f : ℕ) (us all backwardInsts : List NodeID) : Prop where
  started : ∀ u ∈ us, u ∈ backwardInsts
  entry : P.entryInst f ∉ backwardInsts
  closed : ∀ v ∈ backwardInsts, (∃ u ∈ all, acquires P u v = true) ∨ ∀ a, Flow P a v → a ∈ backwardInsts

theorem onward_in (u : NodeID) : Onward (acquires P u) (inNodes P) =
    Function.swap fun a b => Flow P a b ∧ acquires P u b = false := by
  funext a b
  show _ = (Flow P b a ∧ acquires P u a = false)
  rw [Onward, mem_inNodes, and_comm]

theorem Backed.visit {f u : ℕ} {us all B B' : List NodeID} (hu : u ∈ all)
    (hB : Backed P f us all B)
    (h : Searched (fun I => I = P.entryInst f) (acquires P u) (inNodes P) [u] B [] B') :
    Backed P f (u :: us) all B' := by
  refine ⟨fun w hw => ?_, fun hentry => ?_, fun v hv => ?_⟩
  · rcases List.mem_cons.mp hw with rfl | hw
    · exact (h.rooted w (List.mem_singleton_self w)).resolve_right List.not_mem_nil
    · exact h.kept w (hB.started w hw)
  · rcases h.found _ hentry with hbefore | ⟨hgoal, -⟩
    · exact hB.entry hbefore
    · simp at hgoal
  · rcases h.found v hv with hbefore | ⟨-, -, hnext⟩
    · exact (hB.closed v hbefore).imp_right fun hpred a ha => h.kept a (hpred a ha)
    · rcases hacq : acquires P u v with _ | _
      · exact .inr fun a ha =>
          (hnext hacq a (mem_inNodes.mpr ha)).resolve_right List.not_mem_nil
      · exact .inl ⟨u, hu, hacq⟩

theorem exists_intraBackwardTraverse (P : Program) (us B : List NodeID) :
    ∃ result, intraBackwardTraverse P us B = some result := by
  induction us generalizing B with
  | nil => exact ⟨_, rfl⟩
  | cons u us ih =>
      have hfuel : [u].length + ((P.edges.map Prod.swap).filter (·.1 ∉ B)).length ≤
          P.edges.length + 1 := by
        have hle := List.length_filter_le (fun e : NodeID × NodeID => e.1 ∉ B) (P.edges.map Prod.swap)
        rw [List.length_map] at hle
        rw [List.length_singleton]
        omega
      obtain ⟨⟨backward, B'⟩, hrun⟩ := exists_search
        (fun I => I = P.entryInst (P.getFun u)) (acquires P u) length_inNodes_le hfuel
      rw [intraBackwardTraverse, hrun, Option.bind_some]
      cases backward with
      | true => exact ih B'
      | false => exact ⟨_, rfl⟩

theorem intraBackwardTraverse_spec {f : ℕ} {all us done B B' : List NodeID} {backward : Bool}
    (hall : ∀ u ∈ us, u ∈ all ∧ P.getFun u = f) (hB : Backed P f done all B)
    (hrun : intraBackwardTraverse P us B = some (backward, B')) :
    (backward = true → Backed P f (us.reverse ++ done) all B') ∧
      (backward = false → ∃ u ∈ us, ReflTransGen (fun a b => Flow P a b ∧ acquires P u b = false)
        (P.entryInst f) u) := by
  induction us generalizing done B with
  | nil =>
      cases hrun
      exact ⟨fun _ => hB, fun h => Bool.noConfusion h⟩
  | cons u us ih =>
      obtain ⟨hu, rfl⟩ := hall u List.mem_cons_self
      rw [intraBackwardTraverse] at hrun
      obtain ⟨⟨met, B₁⟩, hsearch, hrest⟩ := Option.bind_eq_some_iff.mp hrun
      obtain ⟨htrue, hfalse⟩ := search_spec (searched_start [u] B) hsearch
      cases met with
      | true =>
          obtain ⟨hrest₁, hrest₂⟩ :=
            ih (fun w hw => hall w (List.mem_cons_of_mem u hw)) (hB.visit hu (htrue rfl)) hrest
          refine ⟨fun h => ?_, fun h => ?_⟩
          · rw [List.reverse_cons, List.append_assoc]
            exact hrest₁ h
          · obtain ⟨w, hw, hpath⟩ := hrest₂ h
            exact ⟨w, List.mem_cons_of_mem u hw, hpath⟩
      | false =>
          cases hrest
          refine ⟨fun h => Bool.noConfusion h, fun _ => ?_⟩
          obtain ⟨r, hr, g, hg, hpath⟩ := hfalse rfl
          obtain rfl := List.mem_singleton.mp hr
          obtain rfl := of_decide_eq_true hg
          rw [onward_in, reflTransGen_swap] at hpath
          exact ⟨r, List.mem_cons_self, hpath⟩

theorem Backed.no_way {l f : ℕ} {us all B : List NodeID} (hB : Backed P f us all B)
    (hall : ∀ u ∈ all, Unlocks P l u) {v : NodeID} (hv : v ∈ B) : ¬ ReflTransGen
      (fun a b => Flow P a b ∧ ∀ u, Unlocks P l u → acquires P u b = false) (P.entryInst f) v := by
  intro hpath
  induction hpath with
  | refl => exact hB.entry hv
  | tail _ hstep ih =>
      rcases hB.closed _ hv with ⟨u, hu, hacq⟩ | hpred
      · rw [hstep.2 u (hall u hu)] at hacq
        contradiction
      · exact ih (hpred _ hstep.1)

/-- What the loop has recorded for the lock sites that are done. -/
structure Recorded (P : Program) (done : List NodeID) (s : LockAnalysis) : Prop where
  locked : ∀ i, ∀ l ∈ s.instCILocksMap i, l ∈ done ∧ Locked P l i
  condLocked : ∀ i, ∀ l ∈ s.instTocondCILocksMap i, l ∈ done ∧ CondLocked P l i
  covered : ∀ l ∈ done, ¬ After P l (P.exitInst (P.getFun l)) →
    ∀ i, After P l i → l ∈ s.instCILocksMap i ∨ l ∈ s.instTocondCILocksMap i
  span : ∀ l i, i ∈ s.ciLocktoSpan l ↔ l ∈ s.instCILocksMap i

theorem mem_addTo {m : NodeID → List NodeID} {stmts : List NodeID} {l l' i : NodeID} :
    l' ∈ addTo m stmts l i ↔ l' ∈ m i ∨ l' = l ∧ i ∈ stmts := by
  rw [addTo]
  split
  · rename_i hi
    rw [List.mem_insert_iff, or_comm, and_iff_left hi]
  · rename_i hi
    exact ⟨Or.inl, fun h => h.resolve_right fun hnew => hi hnew.2⟩

theorem Recorded.addIntraLock {done : List NodeID} {s : LockAnalysis} (h : Recorded P done s)
    {l : NodeID} {stmts : List NodeID} (hmem : ∀ i, i ∈ stmts ↔ After P l i)
    (hlocked : ∀ i, After P l i → Locked P l i) :
    Recorded P (l :: done) (addIntraLock s l stmts) := by
  refine ⟨fun i l' hl' => ?_, fun i l' hl' => ?_, fun l' hl' hexit i hi => ?_, fun l' i => ?_⟩
  · rcases mem_addTo.mp hl' with hl' | ⟨rfl, hi⟩
    · exact ⟨List.mem_cons_of_mem l (h.locked i l' hl').1, (h.locked i l' hl').2⟩
    · exact ⟨List.mem_cons_self, hlocked i ((hmem i).mp hi)⟩
  · exact ⟨List.mem_cons_of_mem l (h.condLocked i l' hl').1, (h.condLocked i l' hl').2⟩
  · rcases List.mem_cons.mp hl' with rfl | hl'
    · exact .inl (mem_addTo.mpr (.inr ⟨rfl, (hmem i).mpr hi⟩))
    · exact (h.covered l' hl' hexit i hi).imp_left fun hold => mem_addTo.mpr (.inl hold)
  · refine Iff.trans ?_ mem_addTo.symm
    rw [← h.span]
    by_cases heq : l' = l
    · subst heq
      simp [LockSpans.addIntraLock]
    · simp [LockSpans.addIntraLock, heq]

theorem Recorded.addCondIntraLock {done : List NodeID} {s : LockAnalysis} (h : Recorded P done s)
    {l : NodeID} {stmts : List NodeID} (hmem : ∀ i, i ∈ stmts ↔ After P l i)
    (hlocked : ∀ i, After P l i → CondLocked P l i) :
    Recorded P (l :: done) (addCondIntraLock s l stmts) := by
  refine ⟨fun i l' hl' => ?_, fun i l' hl' => ?_, fun l' hl' hexit i hi => ?_, h.span⟩
  · exact ⟨List.mem_cons_of_mem l (h.locked i l' hl').1, (h.locked i l' hl').2⟩
  · rcases mem_addTo.mp hl' with hl' | ⟨rfl, hi⟩
    · exact ⟨List.mem_cons_of_mem l (h.condLocked i l' hl').1, (h.condLocked i l' hl').2⟩
    · exact ⟨List.mem_cons_self, hlocked i ((hmem i).mp hi)⟩
  · rcases List.mem_cons.mp hl' with rfl | hl'
    · exact .inr (mem_addTo.mpr (.inr ⟨rfl, (hmem i).mpr hi⟩))
    · exact (h.covered l' hl' hexit i hi).imp_right fun hold => mem_addTo.mpr (.inl hold)

theorem exists_analyzeLock {done : List NodeID} {s : LockAnalysis} (h : Recorded P done s)
    (l : NodeID) : ∃ s', analyzeLock P s l = some s' ∧ Recorded P (l :: done) s' := by
  obtain ⟨forward, unlockSet, forwardInsts, hforward, hexit, hfound⟩ := intraForwardTraverse_spec P l
  obtain ⟨⟨backward, B⟩, hbackward⟩ := exists_intraBackwardTraverse P (P.iterated unlockSet) []
  rw [analyzeLock, hforward, Option.bind_some]
  simp only [hbackward, Option.map_some]
  refine ⟨_, rfl, ?_⟩
  cases forward with
  | false =>
      have hnone : After P l (P.exitInst (P.getFun l)) := by
        by_contra hno
        exact Bool.noConfusion (hexit.mpr hno)
      refine ⟨fun i l' hl' => ?_, fun i l' hl' => ?_, fun l' hl' hexit' => ?_, h.span⟩
      · exact ⟨List.mem_cons_of_mem l (h.locked i l' hl').1, (h.locked i l' hl').2⟩
      · exact ⟨List.mem_cons_of_mem l (h.condLocked i l' hl').1, (h.condLocked i l' hl').2⟩
      · rcases List.mem_cons.mp hl' with rfl | hl'
        · exact absurd hnone hexit'
        · exact h.covered l' hl' hexit'
  | true =>
      obtain ⟨hinsts, hunlocks⟩ := hfound rfl
      have hall : ∀ u ∈ P.iterated unlockSet, u ∈ unlockSet ∧ P.getFun u = P.getFun l := by
        intro u hu
        have hmem := P.mem_iterated.mp hu
        exact ⟨hmem, getFun_after ((hunlocks u).mp hmem).1⟩
      have hstart : Backed P (P.getFun l) [] unlockSet [] := by
        refine ⟨?_, List.not_mem_nil, ?_⟩ <;> exact fun _ h => absurd h List.not_mem_nil
      obtain ⟨htrue, hfalse⟩ := intraBackwardTraverse_spec hall hstart hbackward
      cases backward with
      | true =>
          refine h.addIntraLock hinsts fun i hi => ⟨hi, hexit.mp rfl, fun u hu => ?_⟩
          refine (htrue rfl).no_way (fun w hw => (hunlocks w).mp hw) ((htrue rfl).started u ?_)
          exact List.mem_append_left _ (List.mem_reverse.mpr (P.mem_iterated.mpr ((hunlocks u).mpr hu)))
      | false =>
          refine h.addCondIntraLock hinsts fun i hi => ⟨hi, hexit.mp rfl, ?_⟩
          obtain ⟨u, hu, hpath⟩ := hfalse rfl
          exact ⟨u, (hunlocks u).mp (P.mem_iterated.mp hu), hpath⟩

theorem exists_analyzeLocks (todo : List NodeID) {done : List NodeID} {s : LockAnalysis}
    (h : Recorded P done s) :
    ∃ s', todo.foldlM (analyzeLock P) s = some s' ∧ Recorded P (todo.reverse ++ done) s' := by
  induction todo generalizing done s with
  | nil => exact ⟨s, rfl, h⟩
  | cons l todo ih =>
      obtain ⟨s₁, hstep, h₁⟩ := exists_analyzeLock h l
      obtain ⟨s₂, hrest, h₂⟩ := ih h₁
      refine ⟨s₂, ?_, by rw [List.reverse_cons, List.append_assoc]; exact h₂⟩
      rw [List.foldlM_cons, hstep]
      exact hrest

/-- The loop ends. The locks of a statement hold it between themselves and their
releases, and a statement between a lock and its releases has the lock. Statements
that are protected are inside the spans of locks that may be the same. -/
theorem analyzeIntraProcedualLock_spans (P : Program) : ∃ s, analyzeIntraProcedualLock P = some s ∧
    (∀ i, ∀ l ∈ s.instCILocksMap i, l ∈ P.locksites ∧ Locked P l i) ∧
    (∀ i, ∀ l ∈ s.instTocondCILocksMap i, l ∈ P.locksites ∧ CondLocked P l i) ∧
    (∀ l ∈ P.locksites, ¬ After P l (P.exitInst (P.getFun l)) →
      ∀ i, After P l i → l ∈ s.instCILocksMap i ∨ l ∈ s.instTocondCILocksMap i) ∧
    (∀ l i, i ∈ s.ciLocktoSpan l ↔ l ∈ s.instCILocksMap i) ∧
    ∀ i1 i2, s.isProtectedByCommonCILock P i1 i2 = true → ∃ l1 ∈ P.locksites, ∃ l2 ∈ P.locksites,
      P.isAliasedLocks l1 l2 = true ∧ Locked P l1 i1 ∧ Locked P l2 i2 ∧
        ∀ l ∈ P.locksites, ¬ After P l (P.exitInst (P.getFun l)) →
          (After P l i1 → Locked P l i1) ∧ (After P l i2 → Locked P l i2) := by
  have hstart : Recorded P [] ⟨fun _ => [], fun _ => [], fun _ => []⟩ := by
    constructor <;> simp
  obtain ⟨s, hrun, hs⟩ := exists_analyzeLocks P.locksites hstart
  rw [List.append_nil] at hs
  have hdone : ∀ {l}, l ∈ P.locksites.reverse ↔ l ∈ P.locksites := List.mem_reverse
  have hfull : ∀ {i}, s.isInsideCondIntraLock i = false → ∀ l ∈ P.locksites,
      ¬ After P l (P.exitInst (P.getFun l)) → After P l i → Locked P l i := by
    intro i hcond l hl hexit hi
    rcases hs.covered l (hdone.mpr hl) hexit i hi with hlock | hlock
    · exact (hs.locked i l hlock).2
    · rw [LockAnalysis.isInsideCondIntraLock, decide_eq_false_iff_not, not_not] at hcond
      exact absurd (hcond ▸ hlock) List.not_mem_nil
  refine ⟨s, hrun, fun i l hl => ?_, fun i l hl => ?_, fun l hl => hs.covered l (hdone.mpr hl),
    hs.span, fun i1 i2 h => ?_⟩
  · exact (hs.locked i l hl).imp_left hdone.mp
  · exact (hs.condLocked i l hl).imp_left hdone.mp
  · simp only [LockAnalysis.isProtectedByCommonCILock, Bool.and_eq_true, Bool.not_eq_true',
      List.any_eq_true] at h
    obtain ⟨⟨hcond1, hcond2⟩, l1, hl1, l2, hl2, halias⟩ := h
    obtain ⟨hsite1, hlocked1⟩ := hs.locked i1 l1 hl1
    obtain ⟨hsite2, hlocked2⟩ := hs.locked i2 l2 hl2
    exact ⟨l1, hdone.mp hsite1, l2, hdone.mp hsite2, halias, hlocked1, hlocked2,
      fun l hl hexit => ⟨hfull hcond1 l hl hexit, hfull hcond2 l hl hexit⟩⟩

end

end SVF.MTA.LockSpans
