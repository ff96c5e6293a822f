import Mathlib.Data.Rat.Floor
import SVF.Util.Clusterer
import SVF.Util.Folds

namespace SVF.Util.DistanceMatrix

open Clusterer ObjectRegions

def condensedIndex (n i j : ℕ) : ℕ :=
  (((n * (n - 1) % 2 ^ 64 / 2 : ℕ) - ((n - i) * (n - i - 1) % 2 ^ 64 / 2 : ℕ) + j - i - 1 : ℤ) % 2 ^ 64).toNat

/-- The rounding of doubles. Multiples of `2⁻²⁰` that need no more than 53 bits are doubles. -/
structure Rounding where
  round : ℚ → ℚ
  mono : Monotone round
  idem : ∀ q, round (round q) = round q
  exact : ∀ k : ℤ, |k| < 2 ^ 53 → round (k / 2 ^ 20) = k / 2 ^ 20

def requiredBits (n : ℕ) : ℕ := if n = 0 then 0 else ((n - 1) / NATIVE_INT_SIZE + 1) * NATIVE_INT_SIZE % 2 ^ 32

def setDistance (count : ℕ) : ℕ := requiredBits count / NATIVE_INT_SIZE

section

variable (R : Rounding)

def occurrenceEpsilon : ℚ := R.round (1 / 10000)

def reduce (occ : ℕ) (existingDistance : ℚ) : ℚ :=
  let reduced := R.round (existingDistance - R.round (occ * occurrenceEpsilon R))
  if ⌊existingDistance⌋ < reduced then reduced else R.round (⌊existingDistance⌋ + occurrenceEpsilon R)

def refine (distance occ : ℕ) (existingDistance : ℚ) : ℚ :=
  let existingDistance := if distance < existingDistance then R.round (distance - occurrenceEpsilon R)
    else existingDistance
  if distance = ⌈existingDistance⌉ then reduce R occ existingDistance else existingDistance

def pairs : List ℕ → List (ℕ × ℕ)
  | [] => []
  | moi :: l => l.map (moi, ·) ++ pairs l

/-- The rounds of the three loops: the positions of two objects, the distance and the occurrences. -/
def rounds (pointsTos : List (List ℕ × ℕ)) : List ((ℕ × ℕ) × ℕ × ℕ) :=
  pointsTos.flatMap fun p => (pairs p.1).map fun ij => (ij, setDistance p.1.length, p.2)

def update (n : ℕ) (distMatrix : List ℚ) (r : (ℕ × ℕ) × ℕ × ℕ) : Option (List ℚ) := do
  let existingDistance ← distMatrix[condensedIndex n r.1.1 r.1.2]?
  some (distMatrix.set (condensedIndex n r.1.1 r.1.2) (refine R r.2.1 r.2.2 existingDistance))

def getDistanceMatrix (n : ℕ) (pointsTos : List (List ℕ × ℕ)) : Option (List ℚ) :=
  (rounds pointsTos).foldlM (update R n) (List.replicate (n * (n - 1) / 2) (R.round (n * n)))

def toNearest : Rounding where
  round q := ⌊q * 2 ^ 53 + 1 / 2⌋ / 2 ^ 53
  mono q q' h := by
    dsimp only
    gcongr
  idem q := by
    rw [div_mul_cancel₀ _ (by norm_num), Int.floor_intCast_add, show ⌊(1 / 2 : ℚ)⌋ = 0 by norm_num, add_zero]
  exact k _ := by
    rw [show (k : ℚ) / 2 ^ 20 * 2 ^ 53 = (k * 2 ^ 33 : ℤ) by push_cast; ring, Int.floor_intCast_add,
      show ⌊(1 / 2 : ℚ)⌋ = 0 by norm_num]
    push_cast
    ring

end

theorem triangle_mono : Monotone fun m : ℕ => m * (m - 1) / 2 :=
  monotone_nat_of_le_succ fun m => (Nat.triangle_succ m).symm ▸ Nat.le_add_right _ _

theorem condensedIndex_add {n i j : ℕ} (hn : n ≤ 2 ^ 32) (hij : i < j) (hj : j < n) :
    condensedIndex n i j + (n - i) * (n - i - 1) / 2 = n * (n - 1) / 2 + (j - i - 1) := by
  have hsmall : ∀ m ≤ n, m * (m - 1) % 2 ^ 64 = m * (m - 1) := by
    intro m hm
    have hle := Nat.mul_le_mul (hm.trans hn) ((Nat.sub_le m 1).trans (hm.trans hn))
    rcases Nat.eq_zero_or_pos m with rfl | hpos
    · rfl
    · have hlt := Nat.mul_lt_mul_of_le_of_lt (hm.trans hn) (Nat.sub_lt hpos one_pos |>.trans_le (hm.trans hn)) (by omega)
      exact Nat.mod_eq_of_lt (by omega)
  have hmono := triangle_mono (Nat.sub_le n i)
  dsimp only at hmono
  have htop := hsmall n le_rfl
  have hbound : n * (n - 1) / 2 + j < 2 ^ 64 := by
    have hle : n * (n - 1) ≤ 2 ^ 32 * (2 ^ 32 - 1) := Nat.mul_le_mul hn (by omega)
    omega
  rw [condensedIndex, htop, hsmall (n - i) (Nat.sub_le n i)]
  omega

theorem condensedIndex_bounds {n i j : ℕ} (hn : n ≤ 2 ^ 32) (hij : i < j) (hj : j < n) :
    n * (n - 1) / 2 - (n - i) * (n - i - 1) / 2 ≤ condensedIndex n i j ∧
      condensedIndex n i j < n * (n - 1) / 2 - (n - (i + 1)) * (n - (i + 1) - 1) / 2 := by
  have hadd := condensedIndex_add hn hij hj
  have hmono := triangle_mono (Nat.sub_le n i)
  have hsucc := Nat.triangle_succ (n - (i + 1))
  rw [show n - (i + 1) + 1 = n - i by omega] at hsucc
  dsimp only at hmono
  omega

theorem condensedIndex_lt {n i j : ℕ} (hn : n ≤ 2 ^ 32) (hij : i < j) (hj : j < n) :
    condensedIndex n i j < n * (n - 1) / 2 :=
  (condensedIndex_bounds hn hij hj).2.trans_le (Nat.sub_le _ _)

theorem condensedIndex_inj {n i j i' j' : ℕ} (hn : n ≤ 2 ^ 32) (hij : i < j) (hj : j < n) (hij' : i' < j')
    (hj' : j' < n) (heq : condensedIndex n i j = condensedIndex n i' j') : i = i' ∧ j = j' := by
  have hrow : ∀ {i j i' j'}, i < j → j < n → i' < j' → j' < n → i < i' →
      condensedIndex n i j < condensedIndex n i' j' := by
    intro i j i' j' hij hj hij' hj' hlt
    have hmono := triangle_mono (show n - i' ≤ n - (i + 1) by omega)
    exact (condensedIndex_bounds hn hij hj).2.trans_le
      ((Nat.sub_le_sub_left hmono _).trans (condensedIndex_bounds hn hij' hj').1)
  rcases lt_trichotomy i i' with hlt | rfl | hlt
  · exact absurd heq (hrow hij hj hij' hj' hlt).ne
  · have hadd := condensedIndex_add hn hij hj
    have hadd' := condensedIndex_add hn hij' hj'
    omega
  · exact absurd heq (hrow hij' hj' hij hj hlt).ne'

section

variable {R : Rounding}

theorem Rounding.eq_int (R : Rounding) {z : ℤ} (hz : |z| < 2 ^ 33) : R.round z = z := by
  have hexact := R.exact (z * 2 ^ 20) (by rw [abs_lt] at hz ⊢; omega)
  rwa [Int.cast_mul, Int.cast_pow, Int.cast_ofNat, mul_div_cancel_right₀ _ (by norm_num)] at hexact

theorem occurrenceEpsilon_bounds (R : Rounding) : 1 / 2 ^ 20 ≤ occurrenceEpsilon R ∧ occurrenceEpsilon R ≤ 1 / 2 := by
  have hlow : R.round (1 / 2 ^ 20) = 1 / 2 ^ 20 := by
    have hone := R.exact 1 (by decide)
    rwa [Int.cast_one] at hone
  have hhigh := R.exact (2 ^ 19) (by decide)
  norm_num at hhigh
  constructor
  · rw [← hlow]
    exact R.mono (by norm_num)
  · rw [← hhigh]
    exact R.mono (by norm_num)

structure Near (R : Rounding) (d : ℕ) (e : ℚ) : Prop where
  low : (d : ℚ) - 1 < e
  high : e < d
  fixed : R.round e = e

theorem Near.ceil_eq {d : ℕ} {e : ℚ} (h : Near R d e) : ⌈e⌉ = d := Int.ceil_eq_iff.mpr ⟨h.low, h.high.le⟩

theorem Near.floor_eq {d : ℕ} {e : ℚ} (h : Near R d e) : ⌊e⌋ = (d : ℤ) - 1 := by
  rw [Int.floor_eq_iff]
  push_cast
  exact ⟨h.low.le, by linarith only [h.high]⟩

/-- Between two distances, a double is left on both sides. -/
theorem near_round {d : ℕ} (hd : d < 2 ^ 32) {q : ℚ} (hlow : (d : ℚ) - 1 + 1 / 2 ^ 20 ≤ q)
    (hhigh : q ≤ d - 1 / 2 ^ 20) : Near R d (R.round q) := by
  have hbelow := R.exact ((d - 1) * 2 ^ 20 + 1) (by rw [abs_lt]; omega)
  have habove := R.exact (d * 2 ^ 20 - 1) (by rw [abs_lt]; omega)
  push_cast at hbelow habove
  refine ⟨?_, ?_, R.idem q⟩
  · have hmono := R.mono (show ((d - 1) * 2 ^ 20 + 1) / 2 ^ 20 ≤ q by linarith only [hlow])
    linarith only [hmono, hbelow]
  · have hmono := R.mono (show q ≤ (d * 2 ^ 20 - 1) / 2 ^ 20 by linarith only [hhigh])
    linarith only [hmono, habove]

theorem Near.reduce {d : ℕ} {e : ℚ} (h : Near R d e) (hd : d < 2 ^ 32) (occ : ℕ) : Near R d (reduce R occ e) := by
  obtain ⟨hlow, hhigh⟩ := occurrenceEpsilon_bounds R
  rw [DistanceMatrix.reduce, h.floor_eq]
  push_cast
  split
  · rename_i hlt
    have hzero : 0 ≤ R.round (occ * occurrenceEpsilon R) := by
      have hmono := R.mono (show (0 : ℤ) ≤ (occ * occurrenceEpsilon R : ℚ) by
        push_cast
        exact mul_nonneg occ.cast_nonneg (by linarith only [hlow]))
      rwa [R.eq_int (by decide), Int.cast_zero] at hmono
    refine ⟨hlt, ?_, R.idem _⟩
    have hmono := R.mono (show e - R.round (occ * occurrenceEpsilon R) ≤ e by linarith only [hzero])
    rw [h.fixed] at hmono
    exact hmono.trans_lt h.high
  · exact near_round hd (by linarith only [hlow]) (by linarith only [hhigh])

theorem refine_of_lt {x : ℕ} {e : ℚ} (hx : x < 2 ^ 32) (hlt : (x : ℚ) < e) (occ : ℕ) : Near R x (refine R x occ e) := by
  obtain ⟨hlow, hhigh⟩ := occurrenceEpsilon_bounds R
  have hnear : Near R x (R.round (x - occurrenceEpsilon R)) :=
    near_round hx (by linarith only [hhigh]) (by linarith only [hlow])
  rw [refine, if_pos hlt, if_pos hnear.ceil_eq.symm]
  exact hnear.reduce hx occ

theorem Near.refine {d x : ℕ} {e : ℚ} (h : Near R d e) (hd : d < 2 ^ 32) (hx : x < 2 ^ 32) (occ : ℕ) :
    Near R (min d x) (refine R x occ e) := by
  by_cases hlt : (x : ℚ) < e
  · have hle : x ≤ d := Nat.cast_le.mp (hlt.le.trans h.high.le)
    rw [min_eq_right hle]
    exact refine_of_lt hx hlt occ
  · have hle : d ≤ x := by
      have hcast : (d : ℚ) < (x + 1 : ℕ) := by
        push_cast
        linarith only [h.low, not_lt.mp hlt]
      exact Nat.lt_succ_iff.mp (Nat.cast_lt.mp hcast)
    rw [min_eq_left hle, DistanceMatrix.refine, if_neg hlt]
    split
    · exact h.reduce hd occ
    · exact h

/-- The updates of one entry: `least` is the least of their distances. -/
theorem near_foldl {l : List (ℕ × ℕ)} (hl : ∀ u ∈ l, u.1 < 2 ^ 32) {d least : ℕ} {e : ℚ} (h : Near R d e)
    (hd : d < 2 ^ 32) (hle : ∀ u ∈ l, least ≤ u.1) (hled : least ≤ d) (hex : d = least ∨ ∃ u ∈ l, u.1 = least) :
    Near R least (l.foldl (fun e u => refine R u.1 u.2 e) e) := by
  induction l generalizing d e with
  | nil =>
      obtain rfl := hex.resolve_right fun ⟨u, hu, _⟩ => List.not_mem_nil hu
      exact h
  | cons u l ih =>
      have hu := hl u List.mem_cons_self
      have hleu := hle u List.mem_cons_self
      refine ih (fun v hv => hl v (List.mem_cons_of_mem u hv)) (h.refine hd hu u.2) (by omega)
        (fun v hv => hle v (List.mem_cons_of_mem u hv)) (le_min hled hleu) ?_
      rcases hex with rfl | ⟨v, hv, hvl⟩
      · exact .inl (min_eq_left hleu)
      · rcases List.mem_cons.mp hv with rfl | hv
        · exact .inl (by omega)
        · exact .inr ⟨v, hv, hvl⟩

variable {n : ℕ}

/-- A round changes the entry of its pair only. -/
theorem foldlM_update (hn : n ≤ 2 ^ 32) {us : List ((ℕ × ℕ) × ℕ × ℕ)} (hus : ∀ u ∈ us, u.1.1 < u.1.2 ∧ u.1.2 < n)
    {m : List ℚ} (hm : m.length = n * (n - 1) / 2) :
    ∃ m', us.foldlM (update R n) m = some m' ∧ m'.length = n * (n - 1) / 2 ∧
      ∀ i j, i < j → j < n → ∀ e, m[condensedIndex n i j]? = some e → m'[condensedIndex n i j]? =
        some (((us.filter (·.1 = (i, j))).map Prod.snd).foldl (fun e u => refine R u.1 u.2 e) e) := by
  induction us generalizing m with
  | nil => exact ⟨m, rfl, hm, fun i j _ _ e he => he⟩
  | cons u us ih =>
      obtain ⟨ij, dist, occ⟩ := u
      obtain ⟨hu, hun⟩ := hus _ List.mem_cons_self
      have hlt := condensedIndex_lt hn hu hun
      obtain ⟨e₀, hget⟩ : ∃ e₀, m[condensedIndex n ij.1 ij.2]? = some e₀ := ⟨_, List.getElem?_eq_getElem (hm ▸ hlt)⟩
      obtain ⟨m', hrun, hlen, hentries⟩ := ih (fun v hv => hus v (List.mem_cons_of_mem _ hv))
        (m := m.set (condensedIndex n ij.1 ij.2) (refine R dist occ e₀)) (List.length_set.trans hm)
      refine ⟨m', ?_, hlen, fun i j hij hj e he => ?_⟩
      · rw [List.foldlM_cons, update, hget]
        exact hrun
      · by_cases hpair : ij = (i, j)
        · subst hpair
          obtain rfl := Option.some.inj (hget.symm.trans he)
          rw [List.filter_cons_of_pos (by simp)]
          exact hentries i j hij hj _ (List.getElem?_set_self (hm ▸ hlt))
        · rw [List.filter_cons_of_neg (by simpa using hpair)]
          refine hentries i j hij hj e ((List.getElem?_set_ne fun heq => hpair ?_).trans he)
          obtain ⟨h1, h2⟩ := condensedIndex_inj hn hu hun hij hj heq
          exact Prod.ext h1 h2

end

section

variable {R : Rounding} {region : Region}

theorem mem_pairs {l : List ℕ} (hl : l.Pairwise (· < ·)) {i j : ℕ} :
    (i, j) ∈ pairs l ↔ i ∈ l ∧ j ∈ l ∧ i < j := by
  induction l with
  | nil => simp [pairs]
  | cons x l ih =>
      obtain ⟨hx, hl⟩ := List.pairwise_cons.mp hl
      rw [pairs, List.mem_append, ih hl, List.mem_map]
      constructor
      · rintro (⟨y, hy, heq⟩ | ⟨hi, hj, hij⟩)
        · obtain ⟨rfl, rfl⟩ := Prod.mk.inj heq
          exact ⟨List.mem_cons_self, List.mem_cons_of_mem _ hy, hx _ hy⟩
        · exact ⟨List.mem_cons_of_mem x hi, List.mem_cons_of_mem x hj, hij⟩
      · rintro ⟨hi, hj, hij⟩
        rcases List.mem_cons.mp hi with rfl | hil
        · exact .inl ⟨j, (List.mem_cons.mp hj).resolve_left hij.ne', rfl⟩
        · rcases List.mem_cons.mp hj with rfl | hjl
          · exact absurd hij (hx i hil).asymm
          · exact .inr ⟨hil, hjl, hij⟩

/-- The objects of the region, and those of each of its points-to sets, are enumerated in ascending order. -/
structure Ordered (region : Region) : Prop where
  objects : region.objects.Pairwise (· < ·)
  ascending : ∀ p ∈ region.pointsTos, p.1.Pairwise (· < ·)
  inside : ∀ p ∈ region.pointsTos, ∀ o ∈ p.1, o ∈ region.objects

theorem idxOf_lt_idxOf {l : List ℕ} (hl : l.Pairwise (· < ·)) {a b : ℕ} (ha : a ∈ l) (hb : b ∈ l) (hlt : a < b) :
    l.idxOf a < l.idxOf b := by
  have hia := List.idxOf_lt_length_of_mem ha
  have hib := List.idxOf_lt_length_of_mem hb
  rcases lt_trichotomy (l.idxOf a) (l.idxOf b) with hidx | hidx | hidx
  · exact hidx
  · exact absurd (List.idxOf_inj ha |>.mp hidx) hlt.ne
  · have hget := List.pairwise_iff_getElem.mp hl _ _ hib hia hidx
    rw [List.getElem_idxOf, List.getElem_idxOf] at hget
    exact absurd hget hlt.asymm

theorem Ordered.positions_ascending (h : Ordered region) {p : List ℕ × ℕ} (hp : p ∈ region.pointsTos) :
    (p.1.map region.objects.idxOf).Pairwise (· < ·) :=
  List.pairwise_map.mpr ((h.ascending p hp).imp_of_mem fun hx hy =>
    idxOf_lt_idxOf h.objects (h.inside p hp _ hx) (h.inside p hp _ hy))

def toPositions (region : Region) : List (List ℕ × ℕ) :=
  region.pointsTos.map fun p => (p.1.map region.objects.idxOf, p.2)

theorem positions_eq (h : Ordered region) : positions region = some (toPositions region) := by
  refine Folds.mapM_eq_some_map fun p hp => ?_
  have hmoi : p.1.mapM (fun o => region.objects.idxOf? o) = some (p.1.map region.objects.idxOf) := by
    refine Folds.mapM_eq_some_map fun o ho => ?_
    obtain ⟨i, hi⟩ := Option.isSome_iff_exists.mp (List.isSome_idxOf?.mpr (h.inside p hp o ho))
    obtain ⟨hlt, hget, -⟩ := List.idxOf?_eq_some_iff.mp hi
    rw [hi, ← hget, List.Nodup.idxOf_getElem (h.objects.imp ne_of_lt)]
  rw [hmoi]
  rfl

theorem setDistance_le {count : ℕ} (hcount : 0 < count) : setDistance count ≤ count := by
  have hmod := Nat.mod_le (((count - 1) / 64 + 1) * 64) (2 ^ 32)
  rw [setDistance, requiredBits, if_neg hcount.ne', NATIVE_INT_SIZE]
  omega

variable {a b : ℕ}

theorem mem_updates (h : Ordered region) (ha : a ∈ region.objects) (hb : b ∈ region.objects) (hlt : a < b)
    (u : ℕ × ℕ) : u ∈ ((rounds (toPositions region)).filter
        (·.1 = (region.objects.idxOf a, region.objects.idxOf b))).map Prod.snd ↔
      ∃ p ∈ region.pointsTos, (a ∈ p.1 ∧ b ∈ p.1) ∧ u = (setDistance p.1.length, p.2) := by
  have hmem : ∀ p ∈ region.pointsTos, ∀ o ∈ region.objects,
      region.objects.idxOf o ∈ p.1.map region.objects.idxOf ↔ o ∈ p.1 := by
    intro p hp o ho
    rw [List.mem_map]
    refine ⟨fun ⟨x, hx, heq⟩ => ?_, fun h => ⟨o, h, rfl⟩⟩
    rwa [(List.idxOf_inj (h.inside p hp x hx)).mp heq] at hx
  have hpair : ∀ p ∈ region.pointsTos,
      (region.objects.idxOf a, region.objects.idxOf b) ∈ pairs (p.1.map region.objects.idxOf) ↔ a ∈ p.1 ∧ b ∈ p.1 := by
    intro p hp
    rw [mem_pairs (h.positions_ascending hp), hmem p hp a ha, hmem p hp b hb, ← and_assoc,
      and_iff_left (idxOf_lt_idxOf h.objects ha hb hlt)]
  simp only [rounds, toPositions, List.mem_map, List.mem_filter, List.mem_flatMap, decide_eq_true_eq]
  constructor
  · rintro ⟨_, ⟨⟨_, ⟨p, hp, rfl⟩, ij, hij, rfl⟩, rfl⟩, rfl⟩
    exact ⟨p, hp, (hpair p hp).mp hij, by rw [List.length_map]⟩
  · rintro ⟨p, hp, hboth, rfl⟩
    exact ⟨(_, _, _), ⟨⟨_, ⟨p, hp, rfl⟩, _, (hpair p hp).mpr hboth, rfl⟩, rfl⟩, by rw [List.length_map]⟩

/-- The entry of two objects: the initial one, or the least distance of the sets with both. -/
def IsEntry (R : Rounding) (region : Region) (a b : ℕ) (e : ℚ) : Prop :=
  ((∀ p ∈ region.pointsTos, ¬ (a ∈ p.1 ∧ b ∈ p.1)) → e = R.round (region.objects.length * region.objects.length)) ∧
  ∀ d, IsLeast {x | ∃ p ∈ region.pointsTos, (a ∈ p.1 ∧ b ∈ p.1) ∧ x = setDistance p.1.length} d →
    (d : ℚ) - 1 < e ∧ e < d

theorem isEntry_foldl (h : Ordered region) (hn : region.objects.length < 2 ^ 32) (ha : a ∈ region.objects)
    (hb : b ∈ region.objects) (hlt : a < b) :
    IsEntry R region a b ((((rounds (toPositions region)).filter
      (·.1 = (region.objects.idxOf a, region.objects.idxOf b))).map Prod.snd).foldl (fun e u => refine R u.1 u.2 e)
        (R.round (region.objects.length * region.objects.length))) := by
  have hmem := mem_updates h ha hb hlt
  generalize ((rounds (toPositions region)).filter _).map Prod.snd = l at hmem ⊢
  have hsmall : ∀ u ∈ l, u.1 ≤ region.objects.length := by
    intro u hu
    obtain ⟨p, hp, ⟨hpa, -⟩, rfl⟩ := (hmem u).mp hu
    exact (setDistance_le (List.length_pos_of_mem hpa)).trans
      (List.Nodup.length_le_of_subset ((h.ascending p hp).imp ne_of_lt) (h.inside p hp))
  have htwo : 2 ≤ region.objects.length := by
    have hidx := idxOf_lt_idxOf h.objects ha hb hlt
    have hlen := List.idxOf_lt_length_of_mem hb
    omega
  constructor
  · intro hnone
    obtain rfl : l = [] := List.eq_nil_iff_forall_not_mem.mpr fun u hu =>
      (hmem u).mp hu |>.elim fun p ⟨hp, hboth, _⟩ => hnone p hp hboth
    rfl
  · rintro d ⟨⟨p, hp, hboth, rfl⟩, hleast⟩
    have hle : ∀ u ∈ l, setDistance p.1.length ≤ u.1 := by
      intro u hu
      obtain ⟨q, hq, hqboth, rfl⟩ := (hmem u).mp hu
      exact hleast ⟨q, hq, hqboth, rfl⟩
    have hex := (hmem _).mpr ⟨p, hp, hboth, rfl⟩
    cases l with
    | nil => exact absurd hex List.not_mem_nil
    | cons u l =>
        have hu := hsmall u List.mem_cons_self
        have hbelow : (u.1 : ℚ) < R.round (region.objects.length * region.objects.length) := by
          have hmono := R.mono (show ((region.objects.length + 1 : ℤ) : ℚ) ≤
              region.objects.length * region.objects.length by exact_mod_cast by nlinarith only [htwo])
          rw [R.eq_int (by rw [abs_lt]; omega)] at hmono
          refine lt_of_lt_of_le ?_ hmono
          exact_mod_cast Nat.lt_succ_of_le hu
        have hnear := near_foldl (R := R) (fun v hv => (hsmall v (List.mem_cons_of_mem u hv)).trans_lt hn)
          (refine_of_lt (hu.trans_lt hn) hbelow u.2) (hu.trans_lt hn) (fun v hv => hle v (List.mem_cons_of_mem u hv))
          (hle u List.mem_cons_self) (by
            rcases List.mem_cons.mp hex with heq | hex
            · exact .inl (congrArg Prod.fst heq).symm
            · exact .inr ⟨_, hex, rfl⟩)
        exact ⟨hnear.low, hnear.high⟩

/-- The matrix of a region is read and written inside, each pair of objects has an entry of its own, and it is
the least distance of the points-to sets with both. -/
theorem getDistanceMatrix_least (R : Rounding) (region : Region) (h : Ordered region)
    (hn : region.objects.length < 2 ^ 32) :
    (∀ i j, i < j → j < region.objects.length →
      condensedIndex region.objects.length i j < region.objects.length * (region.objects.length - 1) / 2 ∧
      ∀ i' j', i' < j' → j' < region.objects.length →
        condensedIndex region.objects.length i j = condensedIndex region.objects.length i' j' → i = i' ∧ j = j') ∧
    ∃ ds distMatrix, positions region = some ds ∧ getDistanceMatrix R region.objects.length ds = some distMatrix ∧
      distMatrix.length = region.objects.length * (region.objects.length - 1) / 2 ∧
      ∀ a ∈ region.objects, ∀ b ∈ region.objects, a < b →
        ∃ e, distMatrix[condensedIndex region.objects.length (region.objects.idxOf a) (region.objects.idxOf b)]? =
          some e ∧ IsEntry R region a b e := by
  refine ⟨fun i j hij hj => ⟨condensedIndex_lt hn.le hij hj, fun i' j' hij' hj' =>
    condensedIndex_inj hn.le hij hj hij' hj'⟩, ?_⟩
  have hrounds : ∀ u ∈ rounds (toPositions region), u.1.1 < u.1.2 ∧ u.1.2 < region.objects.length := by
    intro u hu
    obtain ⟨q, hq, hu⟩ := List.mem_flatMap.mp hu
    obtain ⟨p, hp, rfl⟩ := List.mem_map.mp hq
    obtain ⟨⟨i, j⟩, hij, rfl⟩ := List.mem_map.mp hu
    obtain ⟨-, hj, hlt⟩ := (mem_pairs (h.positions_ascending hp)).mp hij
    obtain ⟨o, ho, rfl⟩ := List.mem_map.mp hj
    exact ⟨hlt, List.idxOf_lt_length_of_mem (h.inside p hp o ho)⟩
  obtain ⟨distMatrix, hrun, hlen, hentries⟩ := foldlM_update (R := R) hn.le hrounds
    (m := List.replicate _ (R.round (region.objects.length * region.objects.length))) List.length_replicate
  refine ⟨_, distMatrix, positions_eq h, hrun, hlen, fun a ha b hb hlt => ⟨_, ?_, isEntry_foldl h hn ha hb hlt⟩⟩
  have hidx := idxOf_lt_idxOf h.objects ha hb hlt
  have hlast := List.idxOf_lt_length_of_mem hb
  exact hentries _ _ hidx hlast _ (List.getElem?_replicate_of_lt (condensedIndex_lt hn.le hidx hlast))

theorem getDistanceMatrix_least_two : ∃ ds distMatrix, positions ⟨[0, 1], [([0, 1], 1)]⟩ = some ds ∧
    getDistanceMatrix toNearest 2 ds = some distMatrix ∧ ∃ e, distMatrix[0]? = some e ∧ 0 < e ∧ e < 1 := by
  obtain ⟨-, ds, distMatrix, hds, hrun, -, hentries⟩ := getDistanceMatrix_least toNearest ⟨[0, 1], [([0, 1], 1)]⟩
    ⟨by decide, by decide, by decide⟩ (by decide)
  obtain ⟨e, he, -, hleast⟩ := hentries 0 (by decide) 1 (by decide) (by decide)
  have hbounds := hleast 1 ⟨⟨_, List.mem_cons_self, by decide⟩, fun x ⟨p, hp, _, hx⟩ => by
    obtain rfl := List.mem_singleton.mp hp
    exact hx.ge⟩
  exact ⟨ds, distMatrix, hds, hrun, e, he, by simpa using hbounds.1, by simpa using hbounds.2⟩

/-- Enumerated in the order of a mapping that exchanges the two objects, the only points-to set changes the
entry of another pair. -/
theorem reversed_set_elsewhere : positions ⟨List.range 64, [([1, 0], 1)]⟩ = some [([1, 0], 1)] ∧
    condensedIndex 64 1 0 = condensedIndex 64 0 62 ∧
    ∃ distMatrix, getDistanceMatrix toNearest 64 [([1, 0], 1)] = some distMatrix ∧
      distMatrix[condensedIndex 64 0 1]? = some 4096 := by
  have hround : toNearest.round (64 * 64) = 4096 := by
    have hint := toNearest.eq_int (z := 4096) (by decide)
    rw [show (64 : ℚ) * 64 = 4096 by norm_num]
    exact hint
  have hget : (List.replicate (64 * (64 - 1) / 2) (toNearest.round (64 * 64)))[condensedIndex 64 1 0]? =
      some (toNearest.round (64 * 64)) := List.getElem?_replicate_of_lt (by decide)
  refine ⟨by decide, by decide, (List.replicate (64 * (64 - 1) / 2) (toNearest.round (64 * 64))).set
    (condensedIndex 64 1 0) (refine toNearest 1 1 (toNearest.round (64 * 64))), ?_, ?_⟩
  · rw [getDistanceMatrix, show rounds [([1, 0], 1)] = [((1, 0), 1, 1)] by decide, List.foldlM_cons, update]
    simp only [Nat.cast_ofNat, hget]
    rfl
  · rw [List.getElem?_set_ne (by decide), ← hround]
    exact List.getElem?_replicate_of_lt (by decide)

end

end SVF.Util.DistanceMatrix
