import Mathlib.Data.Nat.Bitwise
import Mathlib.Data.Nat.ModEq
import SVF.SABER.SliceConditions

namespace SVF.SABER.BranchConds

open Util.Z3Expr

section

variable {BB : Type} [DecidableEq BB] {n : ℕ} [NeZero n]

/-- What the allocation changes: the number of the next condition, and the conditions
of a block by the positions of its successors. -/
structure AllocState (BB : Type) (n : ℕ) where
  totalCondNum : ℕ
  bbConds : BB → Option (ℕ → Option (Expr n))

/-- The names of the conditions are `c0` to `c(n-1)`; the number is unsigned and wraps. -/
def cond (n : ℕ) [NeZero n] (condCountIdx : ℕ) : Expr n := .bool_const (Fin.ofNat n condCountIdx)

namespace AllocState

def newCond (s : AllocState BB n) : Expr n × AllocState BB n :=
  (cond n s.totalCondNum, { s with totalCondNum := s.totalCondNum + 1 })

def newConds : ℕ → AllocState BB n → List (Expr n) × AllocState BB n
  | 0, s => ([], s)
  | bit_num + 1, s =>
      let (expr, s) := s.newCond
      let (condVec, s) := newConds bit_num s
      (expr :: condVec, s)

end AllocState

variable (z : Z3 n) (maxZ3Size : ℕ)

def condAnd (lhs rhs : Expr n) : Expr n := (AND z maxZ3Size .new lhs rhs).1

def addBit (succ_index : ℕ) (path_cond : Expr n) (bit : Expr n × ℕ) : Expr n :=
  let tool := 0x01 <<< bit.2
  if tool &&& succ_index ≠ 0 then condAnd z maxZ3Size path_cond (NEG z bit.1)
  else condAnd z maxZ3Size path_cond bit.1

def pathCond (condVec : List (Expr n)) (succ_index : ℕ) : Expr n :=
  condVec.zipIdx.foldl (addBit z maxZ3Size succ_index) getTrueCond

variable (getSuccessors : BB → List BB)

def getBBSuccessorPos (bb succ : BB) : ℕ := (getSuccessors bb).idxOf succ

def setBranchCond (s : AllocState BB n) (bb succ : BB) (cond : Expr n) : AllocState BB n :=
  let condPosMap := (s.bbConds bb).getD fun _ => none
  { s with
    bbConds := Function.update s.bbConds bb
      (some (Function.update condPosMap (getBBSuccessorPos getSuccessors bb succ) (some cond))) }

/-- `none` is a failed assertion. -/
def getBranchCond (s : AllocState BB n) (bb succ : BB) : Option (Expr n) :=
  if (getSuccessors bb).length = 1 then some getTrueCond
  else do
    let condPosMap ← s.bbConds bb
    condPosMap (getBBSuccessorPos getSuccessors bb succ)

/-- `bitNum` is the number of bits that is computed for a number of successors. -/
def allocateForBB (bitNum : ℕ → ℕ) (s : AllocState BB n) (bb : BB) : AllocState BB n :=
  let succ_number := (getSuccessors bb).length
  if succ_number > 1 then
    let (condVec, s) := s.newConds (bitNum succ_number)
    (getSuccessors bb).zipIdx.foldl
      (fun s succ => setBranchCond getSuccessors s bb succ.1 (pathCond z maxZ3Size condVec succ.2)) s
  else s

def allocate (bitNum : ℕ → ℕ) (s : AllocState BB n) (blocks : List BB) : AllocState BB n :=
  blocks.foldl (allocateForBB z maxZ3Size getSuccessors bitNum) s

end

section

variable {n : ℕ} [NeZero n] {z : Z3 n} {maxZ3Size total bits : ℕ}

theorem newConds_eq {BB : Type} (bits : ℕ) (s : AllocState BB n) :
    s.newConds bits = ((List.range bits).map fun j => cond n (s.totalCondNum + j),
      { s with totalCondNum := s.totalCondNum + bits }) := by
  induction bits generalizing s with
  | zero => rfl
  | succ bits ih =>
      rw [AllocState.newConds, List.range_succ_eq_map]
      simp only [AllocState.newCond, ih, List.map_cons, List.map_map, Nat.add_zero]
      refine Prod.ext ?_ ?_
      · refine congrArg (List.cons _) (List.map_congr_left fun j _ => ?_)
        change cond n (s.totalCondNum + 1 + j) = cond n (s.totalCondNum + (j + 1))
        rw [Nat.add_assoc, Nat.add_comm 1 j]
      · dsimp only
        rw [Nat.add_right_comm, Nat.add_assoc]

theorem tool_ne_zero (i j : ℕ) : (0x01 <<< j) &&& i ≠ 0 ↔ i.testBit j = true := by
  rw [Nat.one_shiftLeft, Nat.and_comm, Nat.and_two_pow]
  cases i.testBit j with
  | false => simp
  | true => simp

/-- The condition on the bit `j`, which a set bit negates. -/
def literal (z : Z3 n) (total i j : ℕ) : Expr n :=
  if i.testBit j then NEG z (cond n (total + j)) else cond n (total + j)

def pathAt (z : Z3 n) (maxZ3Size total i : ℕ) : ℕ → Expr n
  | 0 => getTrueCond
  | j + 1 => condAnd z maxZ3Size (pathAt z maxZ3Size total i j) (literal z total i j)

theorem pathCond_eq (i : ℕ) :
    pathCond z maxZ3Size ((List.range bits).map fun j => cond n (total + j)) i =
      pathAt z maxZ3Size total i bits := by
  rw [pathCond]
  induction bits with
  | zero => rfl
  | succ bits ih =>
      rw [List.range_succ, List.map_append, List.zipIdx_append, List.foldl_append, ih, List.length_map,
        List.length_range, Nat.zero_add]
      change addBit z maxZ3Size i _ (cond n (total + bits), bits) = _
      rw [addBit, pathAt, literal]
      by_cases hbit : i.testBit bits = true
      · rw [if_pos hbit, if_pos ((tool_ne_zero i bits).2 hbit)]
      · rw [if_neg hbit, if_neg (mt (tool_ne_zero i bits).1 hbit)]

theorem eval_cond (v : Assignment n) (idx : ℕ) : (cond n idx).eval v = v (Fin.ofNat n idx) := by
  rw [cond, Expr.eval]

theorem eval_literal (v : Assignment n) (i j : ℕ) :
    (literal z total i j).eval v = true ↔ v (Fin.ofNat n (total + j)) = !i.testBit j := by
  rw [literal]
  cases i.testBit j with
  | false => rw [if_neg Bool.false_ne_true, eval_cond, Bool.not_false]
  | true => rw [if_pos rfl, eval_NEG, eval_cond, Bool.not_eq_true', Bool.not_true]

theorem ofNat_inj (hbits : bits ≤ n) {j k : ℕ} (hj : j < bits) (hk : k < bits)
    (h : Fin.ofNat n (total + j) = Fin.ofNat n (total + k)) : j = k := by
  have hmod : (total + j) % n = (total + k) % n := congrArg Fin.val h
  have hcancel : j % n = k % n := Nat.ModEq.add_left_cancel' total hmod
  rwa [Nat.mod_eq_of_lt (by omega), Nat.mod_eq_of_lt (by omega)] at hcancel

theorem exists_assignment (hbits : bits ≤ n) (total : ℕ) (f : ℕ → Bool) :
    ∃ v : Assignment n, ∀ j < bits, v (Fin.ofNat n (total + j)) = f j := by
  classical
  refine ⟨fun x => if h : ∃ j < bits, Fin.ofNat n (total + j) = x then f h.choose else false, ?_⟩
  intro j hj
  have hex : ∃ k < bits, Fin.ofNat n (total + k) = Fin.ofNat n (total + j) := ⟨j, hj, rfl⟩
  beta_reduce
  rw [dif_pos hex]
  obtain ⟨hlt, heq⟩ := hex.choose_spec
  rw [ofNat_inj hbits hlt hj heq]

theorem eq_of_testBit {i k : ℕ} (hi : i < 2 ^ bits) (hk : k < 2 ^ bits)
    (h : ∀ j < bits, i.testBit j = k.testBit j) : i = k := by
  apply Nat.eq_of_testBit_eq
  intro j
  by_cases hj : j < bits
  · exact h j hj
  · have hle : 2 ^ bits ≤ 2 ^ j := Nat.pow_le_pow_right (by decide) (Nat.le_of_not_lt hj)
    rw [Nat.testBit_lt_two_pow (hi.trans_le hle), Nat.testBit_lt_two_pow (hk.trans_le hle)]

def Selects (n : ℕ) [NeZero n] (total bits : ℕ) (v : Assignment n) (i : ℕ) : Prop :=
  ∀ j < bits, v (Fin.ofNat n (total + j)) = !i.testBit j

theorem exists_selected (total bits : ℕ) (v : Assignment n) : ∃ i < 2 ^ bits, Selects n total bits v i := by
  refine ⟨Nat.ofBits fun j : Fin bits => !v (Fin.ofNat n (total + j)), Nat.ofBits_lt_two_pow _, ?_⟩
  intro j hj
  rw [Nat.testBit_ofBits_lt _ j hj, Bool.not_not]

theorem Selects.inj {v : Assignment n} {i k : ℕ} (hi : i < 2 ^ bits) (hk : k < 2 ^ bits)
    (h : Selects n total bits v i) (h' : Selects n total bits v k) : i = k := by
  apply eq_of_testBit hi hk
  intro j hj
  exact Bool.not_inj ((h j hj).symm.trans (h' j hj))

def bitFits (z : Z3 n) (maxZ3Size total i j : ℕ) : Bool :=
  andFits z maxZ3Size (pathAt z maxZ3Size total i j) (literal z total i j)

omit [NeZero n] in
/-- Over the limit a conjunction that can hold is its first half. -/
theorem AND_of_not_fits {lhs rhs : Expr n} (h : andFits z maxZ3Size lhs rhs = false) {v : Assignment n}
    (hlhs : lhs.eval v = true) (hrhs : rhs.eval v = true) : condAnd z maxZ3Size lhs rhs = lhs := by
  simp only [andFits, Bool.or_eq_false_iff, decide_eq_false_iff_not] at h
  obtain ⟨⟨⟨⟨hlf, hrf⟩, hlt⟩, hrt⟩, hsize⟩ := h
  have hsat : ¬(checkExpr z .new (z.simplify (binary .and lhs rhs))).1 = .unsat := by
    intro hunsat
    have hfalse := (checkExpr_new z _).1 hunsat v
    rw [z.eval_simplify, eval_binary, hlhs, hrhs] at hfalse
    exact absurd hfalse (by decide)
  rw [condAnd, AND, hlf, hrf, hlt, hrt, if_neg (by decide), if_neg (by decide), if_neg (by decide)]
  rw [if_pos (Nat.lt_of_not_le hsize)]
  dsimp only
  rw [if_pos hsat]

theorem eval_pathAt (hbits : bits ≤ n) (i : ℕ) (v : Assignment n) :
    (pathAt z maxZ3Size total i bits).eval v = true ↔
      ∀ j < bits, bitFits z maxZ3Size total i j = true → v (Fin.ofNat n (total + j)) = !i.testBit j := by
  induction bits generalizing v with
  | zero => exact iff_of_true eval_getTrueCond fun j hj => absurd hj (Nat.not_lt_zero j)
  | succ bits ih =>
      have ih := ih (Nat.le_of_succ_le hbits)
      have hsplit : (∀ j < bits + 1, bitFits z maxZ3Size total i j = true →
            v (Fin.ofNat n (total + j)) = !i.testBit j) ↔
          (pathAt z maxZ3Size total i bits).eval v = true ∧
            (bitFits z maxZ3Size total i bits = true → v (Fin.ofNat n (total + bits)) = !i.testBit bits) := by
        rw [ih v]
        constructor
        · intro h
          exact ⟨fun j hj => h j (Nat.lt_succ_of_lt hj), h bits (Nat.lt_succ_self bits)⟩
        · rintro ⟨hbelow, hlast⟩ j hj
          rcases Nat.lt_succ_iff_lt_or_eq.1 hj with hj | rfl
          · exact hbelow j hj
          · exact hlast
      rw [hsplit, pathAt]
      by_cases hfits : bitFits z maxZ3Size total i bits = true
      · rw [condAnd, eval_AND hfits, Bool.and_eq_true, eval_literal]
        exact and_congr_right fun _ => ⟨fun h _ => h, fun h => h hfits⟩
      · obtain ⟨w, hw⟩ := exists_assignment hbits total fun j => !i.testBit j
        have hlhs : (pathAt z maxZ3Size total i bits).eval w = true := by
          apply (ih w).2
          intro j hj _
          exact hw j (Nat.lt_succ_of_lt hj)
        have hrhs : (literal z total i bits).eval w = true := (eval_literal w i bits).2 (hw bits (Nat.lt_succ_self bits))
        rw [AND_of_not_fits (Bool.not_eq_true _ ▸ hfits) hlhs hrhs]
        exact (and_iff_left fun h => absurd h hfits).symm

theorem eval_pathAt_of_selects (hbits : bits ≤ n) {i : ℕ} {v : Assignment n} (h : Selects n total bits v i) :
    (pathAt z maxZ3Size total i bits).eval v = true := by
  apply (eval_pathAt hbits i v).2
  intro j hj _
  exact h j hj

theorem eval_pathAt_of_fits (hbits : bits ≤ n) {i : ℕ}
    (hfits : ∀ j < bits, bitFits z maxZ3Size total i j = true) (v : Assignment n) :
    (pathAt z maxZ3Size total i bits).eval v = true ↔ Selects n total bits v i := by
  rw [eval_pathAt hbits i v]
  constructor
  · intro h j hj
    exact h j hj (hfits j hj)
  · intro h j hj _
    exact h j hj

end

section

variable {BB : Type} [DecidableEq BB] {n : ℕ} [NeZero n] {z : Z3 n} {maxZ3Size : ℕ}
  {getSuccessors : BB → List BB} {bitNum : ℕ → ℕ}

omit [NeZero n] in
theorem foldl_setBranchCond (bb : BB) (f : ℕ → Expr n) {l : List (BB × ℕ)}
    (hl : ∀ e ∈ l, e.1 ∈ getSuccessors bb) {s : AllocState BB n} {succ : BB} (hsucc : succ ∈ getSuccessors bb)
    (hmem : ∃ i, (succ, i) ∈ l) :
    ∃ i, (succ, i) ∈ l ∧ ∃ condPosMap,
      (l.foldl (fun s e => setBranchCond getSuccessors s bb e.1 (f e.2)) s).bbConds bb = some condPosMap ∧
        condPosMap (getBBSuccessorPos getSuccessors bb succ) = some (f i) := by
  -- the last of the entries for `succ` is kept
  induction l using List.reverseRecOn with
  | nil =>
      obtain ⟨i, hi⟩ := hmem
      exact absurd hi List.not_mem_nil
  | append_singleton l e ih =>
      obtain ⟨b, k⟩ := e
      rw [List.foldl_append, List.foldl_cons, List.foldl_nil]
      by_cases heq : b = succ
      · subst heq
        refine ⟨k, List.mem_append_right _ (List.mem_singleton_self _), _, Function.update_self _ _ _, ?_⟩
        rw [Function.update_self]
      · have hbefore : ∃ i, (succ, i) ∈ l := by
          obtain ⟨i, hi⟩ := hmem
          rcases List.mem_append.1 hi with hi | hi
          · exact ⟨i, hi⟩
          · cases List.mem_singleton.1 hi
            exact absurd rfl heq
        obtain ⟨i, hi, condPosMap, hmap, hcond⟩ := ih (fun e he => hl e (List.mem_append_left _ he)) hbefore
        refine ⟨i, List.mem_append_left _ hi, _, Function.update_self _ _ _, ?_⟩
        have hpos : getBBSuccessorPos getSuccessors bb succ ≠ getBBSuccessorPos getSuccessors bb b := by
          intro hpos
          exact heq ((List.idxOf_inj hsucc).1 hpos).symm
        rw [Function.update_of_ne hpos, hmap]
        exact hcond

theorem getBranchCond_allocateForBB (bb : BB) (s : AllocState BB n) (hlen : 1 < (getSuccessors bb).length)
    {succ : BB} (hsucc : succ ∈ getSuccessors bb) :
    ∃ i, (getSuccessors bb)[i]? = some succ ∧
      getBranchCond getSuccessors (allocateForBB z maxZ3Size getSuccessors bitNum s bb) bb succ =
        some (pathAt z maxZ3Size s.totalCondNum i (bitNum (getSuccessors bb).length)) := by
  obtain ⟨k, hk, heq⟩ := List.mem_iff_getElem.1 hsucc
  have hmem : ∃ i, (succ, i) ∈ (getSuccessors bb).zipIdx :=
    ⟨k, List.mk_mem_zipIdx_iff_getElem?.2 (List.getElem?_eq_some_iff.2 ⟨hk, heq⟩)⟩
  obtain ⟨i, hi, condPosMap, hmap, hcond⟩ := foldl_setBranchCond bb
    (pathAt z maxZ3Size s.totalCondNum · (bitNum (getSuccessors bb).length))
    (fun e he => List.fst_mem_of_mem_zipIdx he) hsucc hmem
  refine ⟨i, List.mk_mem_zipIdx_iff_getElem?.1 hi, ?_⟩
  rw [getBranchCond, if_neg (Nat.ne_of_gt hlen), allocateForBB]
  dsimp only
  rw [if_pos hlen, newConds_eq]
  simp only [pathCond_eq]
  rw [hmap]
  exact hcond

omit [NeZero n] in
theorem setBranchCond_of_ne {bb b : BB} (hne : b ≠ bb) (s : AllocState BB n) (succ : BB) (cond : Expr n) :
    (setBranchCond getSuccessors s bb succ cond).bbConds b = s.bbConds b :=
  Function.update_of_ne hne _ _

theorem allocateForBB_of_ne {bb b : BB} (hne : b ≠ bb) (s : AllocState BB n) :
    (allocateForBB z maxZ3Size getSuccessors bitNum s bb).bbConds b = s.bbConds b := by
  rw [allocateForBB]
  dsimp only
  split_ifs with hlen
  · rw [newConds_eq]
    dsimp only
    exact Util.Folds.foldl_invariant (I := fun t : AllocState BB n => t.bbConds b = s.bbConds b)
      (fun e _ t ht => (setBranchCond_of_ne hne t e.1 _).trans ht) rfl
  · rfl

theorem getBranchCond_allocate {pre post : List BB} {bb : BB} (hpost : bb ∉ post) (s : AllocState BB n) (succ : BB) :
    getBranchCond getSuccessors (allocate z maxZ3Size getSuccessors bitNum s (pre ++ bb :: post)) bb succ =
      getBranchCond getSuccessors (allocateForBB z maxZ3Size getSuccessors bitNum
        (allocate z maxZ3Size getSuccessors bitNum s pre) bb) bb succ := by
  have hsame : ∀ t : AllocState BB n, (allocate z maxZ3Size getSuccessors bitNum t post).bbConds bb = t.bbConds bb := by
    intro t
    apply Util.Folds.foldl_invariant (I := fun u : AllocState BB n => u.bbConds bb = t.bbConds bb) _ rfl
    intro b hb u hu
    have hne : bb ≠ b := fun heq => hpost (heq ▸ hb)
    exact (allocateForBB_of_ne hne u).trans hu
  have hsplit : allocate z maxZ3Size getSuccessors bitNum s (pre ++ bb :: post) =
      allocate z maxZ3Size getSuccessors bitNum (allocateForBB z maxZ3Size getSuccessors bitNum
        (allocate z maxZ3Size getSuccessors bitNum s pre) bb) post := List.foldl_append
  rw [getBranchCond, getBranchCond, hsplit, hsame]

/-- Under every assignment, the condition of exactly one of the different successors is true. -/
def ExactlyOne (getSuccessors : BB → List BB) (s : AllocState BB n) (bb : BB) : Prop :=
  ∀ v : Assignment n, ∃! succ, succ ∈ getSuccessors bb ∧
    ∃ cond, getBranchCond getSuccessors s bb succ = some cond ∧ cond.eval v = true

def ConjunctionsFit (z : Z3 n) (maxZ3Size : ℕ) (getSuccessors : BB → List BB) (bitNum : ℕ → ℕ) (total : ℕ)
    (bb : BB) : Prop :=
  ∀ i < (getSuccessors bb).length, ∀ j < bitNum (getSuccessors bb).length, bitFits z maxZ3Size total i j = true

def Filled (getSuccessors : BB → List BB) (bitNum : ℕ → ℕ) (bb : BB) : Prop :=
  1 < (getSuccessors bb).length ∧ (getSuccessors bb).length = 2 ^ bitNum (getSuccessors bb).length ∧
    (getSuccessors bb).Nodup

section

variable {s : AllocState BB n} {total bits : ℕ} {bb : BB}
  (hconds : ∀ succ ∈ getSuccessors bb, ∃ i, (getSuccessors bb)[i]? = some succ ∧
    getBranchCond getSuccessors s bb succ = some (pathAt z maxZ3Size total i bits))

include hconds

theorem cond_iff (hnodup : (getSuccessors bb).Nodup) {i : ℕ} {succ : BB} (hi : (getSuccessors bb)[i]? = some succ)
    (v : Assignment n) :
    (∃ cond, getBranchCond getSuccessors s bb succ = some cond ∧ cond.eval v = true) ↔
      (pathAt z maxZ3Size total i bits).eval v = true := by
  obtain ⟨hlt, heq⟩ := List.getElem?_eq_some_iff.1 hi
  obtain ⟨k, hk, hcond⟩ := hconds succ (List.mem_iff_getElem?.2 ⟨i, hi⟩)
  have hik : i = k := (List.getElem?_inj hlt hnodup).1 (hi.trans hk.symm)
  rw [hcond, hik]
  constructor
  · rintro ⟨cond, hsome, hv⟩
    rwa [Option.some.inj hsome]
  · intro hv
    exact ⟨_, rfl, hv⟩

theorem exactlyOne_of_filled (hbits : bits ≤ n) (hlen : (getSuccessors bb).length = 2 ^ bits)
    (hnodup : (getSuccessors bb).Nodup)
    (hfit : ∀ i < (getSuccessors bb).length, ∀ j < bits, bitFits z maxZ3Size total i j = true) :
    ExactlyOne getSuccessors s bb := by
  intro v
  obtain ⟨i, hi, hselects⟩ := exists_selected total bits v
  rw [← hlen] at hi
  refine ⟨(getSuccessors bb)[i], ⟨List.getElem_mem hi, ?_⟩, ?_⟩
  · rw [cond_iff hconds hnodup (List.getElem?_eq_getElem hi)]
    exact eval_pathAt_of_selects hbits hselects
  · rintro succ ⟨hmem, htrue⟩
    obtain ⟨k, hk, rfl⟩ := List.mem_iff_getElem.1 hmem
    rw [cond_iff hconds hnodup (List.getElem?_eq_getElem hk), eval_pathAt_of_fits hbits (hfit k hk)] at htrue
    rw [hlen] at hi hk
    have hik := hselects.inj hi hk htrue
    subst hik
    rfl

/-- With conditions that are exact, each value of the bits has its own successor. -/
theorem filled_of_exactlyOne (hbits : bits ≤ n) (hlen : (getSuccessors bb).length ≤ 2 ^ bits)
    (hfit : ∀ i < (getSuccessors bb).length, ∀ j < bits, bitFits z maxZ3Size total i j = true)
    (hone : ExactlyOne getSuccessors s bb) :
    (getSuccessors bb).length = 2 ^ bits ∧ (getSuccessors bb).Nodup := by
  -- the condition of the successor with index `i` is the one that was built for `i`
  have hindex : ∀ i < 2 ^ bits, ∃ succ, (getSuccessors bb)[i]? = some succ ∧
      getBranchCond getSuccessors s bb succ = some (pathAt z maxZ3Size total i bits) := by
    intro i hi
    obtain ⟨v, hv⟩ := exists_assignment hbits total fun j => !i.testBit j
    obtain ⟨succ, ⟨hmem, cond, hcond, htrue⟩, -⟩ := hone v
    obtain ⟨k, hk, hbranch⟩ := hconds succ hmem
    obtain ⟨hlt, -⟩ := List.getElem?_eq_some_iff.1 hk
    cases hbranch.symm.trans hcond
    rw [eval_pathAt_of_fits hbits (hfit k hlt)] at htrue
    have hselects : Selects n total bits v i := hv
    have hik := hselects.inj hi (hlt.trans_le hlen) htrue
    subst hik
    exact ⟨succ, hk, hbranch⟩
  have hge : 2 ^ bits ≤ (getSuccessors bb).length := by
    by_contra hlt
    obtain ⟨succ, hget, -⟩ := hindex _ (Nat.lt_of_not_le hlt)
    exact absurd (List.getElem?_eq_some_iff.1 hget).1 (Nat.lt_irrefl _)
  refine ⟨Nat.le_antisymm hlen hge, ?_⟩
  rw [List.nodup_iff_getElem?_ne_getElem?]
  intro i k hik hk heq
  obtain ⟨a, ha, hconda⟩ := hindex i (by omega)
  obtain ⟨b, hb, hcondb⟩ := hindex k (by omega)
  rw [ha, hb] at heq
  cases heq
  have hsame : pathAt z maxZ3Size total i bits = pathAt z maxZ3Size total k bits :=
    Option.some.inj (hconda.symm.trans hcondb)
  obtain ⟨v, hv⟩ := exists_assignment hbits total fun j => !i.testBit j
  have hselects : Selects n total bits v i := hv
  have htrue := (eval_pathAt_of_fits hbits (hfit i (by omega)) v).2 hselects
  rw [hsame, eval_pathAt_of_fits hbits (hfit k hk)] at htrue
  have hlt : i < 2 ^ bits := by omega
  have hltk : k < 2 ^ bits := by omega
  exact absurd (hselects.inj hlt hltk htrue) (Nat.ne_of_lt hik)

/-- A bit that is dropped makes the conditions of two successors true at once. -/
theorem fits_of_exactlyOne (hbits : bits ≤ n) (hlen : (getSuccessors bb).length = 2 ^ bits)
    (hnodup : (getSuccessors bb).Nodup) (hone : ExactlyOne getSuccessors s bb) :
    ∀ i < (getSuccessors bb).length, ∀ j < bits, bitFits z maxZ3Size total i j = true := by
  intro i hi j hj
  by_contra hdropped
  have hpow : 2 ^ j < 2 ^ bits := Nat.pow_lt_pow_right (by decide) hj
  have hk : i ^^^ 2 ^ j < 2 ^ bits := Nat.xor_lt_two_pow (hlen ▸ hi) hpow
  rw [← hlen] at hk
  obtain ⟨v, hv⟩ := exists_assignment hbits total fun b => !(i ^^^ 2 ^ j).testBit b
  have hflipped : (pathAt z maxZ3Size total (i ^^^ 2 ^ j) bits).eval v = true := eval_pathAt_of_selects hbits hv
  have hkept : (pathAt z maxZ3Size total i bits).eval v = true := by
    apply (eval_pathAt hbits i v).2
    intro b hb hfits
    have hne : b ≠ j := by
      rintro rfl
      exact hdropped hfits
    rw [hv b hb, Nat.testBit_xor, Nat.testBit_two_pow_of_ne (Ne.symm hne), Bool.xor_false]
  have hget := List.getElem?_eq_getElem hi
  have hgetk := List.getElem?_eq_getElem hk
  obtain ⟨succ, -, hunique⟩ := hone v
  have hsame : (getSuccessors bb)[i] = (getSuccessors bb)[i ^^^ 2 ^ j] :=
    (hunique _ ⟨List.getElem_mem hi, (cond_iff hconds hnodup hget v).2 hkept⟩).trans
      (hunique _ ⟨List.getElem_mem hk, (cond_iff hconds hnodup hgetk v).2 hflipped⟩).symm
  have hik : i = i ^^^ 2 ^ j := (List.Nodup.getElem_inj_iff hnodup).1 hsame
  have hbit := congrArg (·.testBit j) hik
  simp [Nat.testBit_xor] at hbit

end

omit [NeZero n] in
theorem exactlyOne_of_length_eq_one {s : AllocState BB n} {bb : BB} (hlen : (getSuccessors bb).length = 1) :
    ExactlyOne getSuccessors s bb := by
  obtain ⟨a, ha⟩ := List.length_eq_one_iff.1 hlen
  intro v
  refine ⟨a, ⟨by rw [ha]; exact List.mem_singleton_self a, getTrueCond, ?_, eval_getTrueCond⟩, ?_⟩
  · rw [getBranchCond, if_pos hlen]
  · rintro b ⟨hb, -⟩
    rw [ha] at hb
    exact List.mem_singleton.1 hb

theorem branch_conditions_exact (hbits : ∀ m, 1 < m → m ≤ 2 ^ bitNum m) (s : AllocState BB n) {pre post : List BB}
    {bb : BB} (hpost : bb ∉ post) (hvars : bitNum (getSuccessors bb).length ≤ n) :
    let total := (allocate z maxZ3Size getSuccessors bitNum s pre).totalCondNum;
    let exclusive := ExactlyOne getSuccessors
      (allocate z maxZ3Size getSuccessors bitNum s (pre ++ bb :: post)) bb;
    let fit := ConjunctionsFit z maxZ3Size getSuccessors bitNum total bb;
    let condition := (getSuccessors bb).length = 1 ∨ Filled getSuccessors bitNum bb ∧ fit;
    (condition → exclusive) ∧
      ((getSuccessors bb).length ≤ 1 ∨ fit ∨ Filled getSuccessors bitNum bb → exclusive → condition) := by
  intro total exclusive fit condition
  by_cases hlen : 1 < (getSuccessors bb).length
  · have hconds : ∀ succ ∈ getSuccessors bb, ∃ i, (getSuccessors bb)[i]? = some succ ∧
        getBranchCond getSuccessors (allocate z maxZ3Size getSuccessors bitNum s (pre ++ bb :: post)) bb succ =
          some (pathAt z maxZ3Size total i (bitNum (getSuccessors bb).length)) := by
      intro succ hsucc
      rw [getBranchCond_allocate hpost]
      exact getBranchCond_allocateForBB bb _ hlen hsucc
    constructor
    · rintro (hone | ⟨⟨-, hpow, hnodup⟩, hfit⟩)
      · exact exactlyOne_of_length_eq_one hone
      · exact exactlyOne_of_filled hconds hvars hpow hnodup hfit
    · rintro (hshort | hfit | hfilled) hone
      · omega
      · obtain ⟨hpow, hnodup⟩ := filled_of_exactlyOne hconds hvars (hbits _ hlen) hfit hone
        exact Or.inr ⟨⟨hlen, hpow, hnodup⟩, hfit⟩
      · exact Or.inr ⟨hfilled, fits_of_exactlyOne hconds hvars hfilled.2.1 hfilled.2.2 hone⟩
  · constructor
    · rintro (hone | ⟨⟨hlt, -⟩, -⟩)
      · exact exactlyOne_of_length_eq_one hone
      · exact absurd hlt hlen
    · intro _ hone
      obtain ⟨succ, ⟨hmem, -⟩, -⟩ := hone fun _ => false
      have hpos := List.length_pos_of_mem hmem
      exact Or.inl (by omega)

end

section

/-- The number of bits for up to four successors, and enough of them beyond. -/
def bits (m : ℕ) : ℕ := if m ≤ 2 then 1 else if m ≤ 4 then 2 else m

theorem le_two_pow_bits (m : ℕ) : m ≤ 2 ^ bits m := by
  rw [bits]
  split_ifs with h2 h4
  · exact h2
  · exact h4
  · exact Nat.lt_two_pow_self.le

local instance neZero_six : NeZero (6 : ℕ) := ⟨by decide⟩

/-- A branch, a switch with three targets, and one whose third target is also its second. -/
def successors : Fin 6 → List (Fin 6) := ![[1, 2], [3, 4, 5], [], [3, 4, 5, 4], [], []]

def start : AllocState (Fin 6) 2 := ⟨0, fun _ => none⟩

theorem branch_conditions_exact_sample :
    ExactlyOne successors (allocate SliceConditions.z3 30 successors bits start ([] ++ 0 :: [1])) 0 := by
  refine (branch_conditions_exact (z := SliceConditions.z3) ?_ start (by decide) (by decide)).1
    (Or.inr ⟨⟨by decide, by decide, by decide⟩, ?_⟩)
  · intro m _
    exact le_two_pow_bits m
  · unfold ConjunctionsFit
    decide +kernel

/-- No target of the switch is taken when both of its conditions are false. -/
theorem three_targets_not_exhaustive :
    ¬ExactlyOne successors (allocate SliceConditions.z3 30 successors bits start [1]) 1 := by
  intro hone
  obtain ⟨succ, ⟨hmem, cond, hcond, htrue⟩, -⟩ := hone fun _ => false
  have hnone : ∀ succ ∈ successors 1, (getBranchCond successors
      (allocate SliceConditions.z3 30 successors bits start [1]) 1 succ).all
        (fun cond => !cond.eval fun _ => false) = true := by decide +kernel
  have hfalse := hnone succ hmem
  rw [hcond] at hfalse
  simp [htrue] at hfalse

end

end SVF.SABER.BranchConds
