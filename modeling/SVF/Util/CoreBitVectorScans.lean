import Mathlib.Data.List.GetD
import Mathlib.Order.Interval.Finset.Nat
import SVF.Util.CoreBitVectorSets

namespace SVF.Util.CoreBitVectors

open PackedBits

namespace CoreBitVector

def From (a : CoreBitVector) (i n : ℕ) : Prop := n ∈ a ∧ a.offset + 64 * i ≤ n

theorem from_zero {a : CoreBitVector} {n : ℕ} : a.From 0 n ↔ n ∈ a :=
  ⟨fun h => h.1, fun h => ⟨h, h.1⟩⟩

theorem from_succ {a : CoreBitVector} {i n : ℕ} :
    a.From (i + 1) n ↔ a.From i n ∧ a.offset + 64 * i + 64 ≤ n := by
  rw [From, From, Nat.mul_succ, ← Nat.add_assoc]
  exact ⟨fun h => ⟨⟨h.1, by omega⟩, h.2⟩, fun h => ⟨h.1.1, h.2⟩⟩

theorem le_nextSetIndex (a : CoreBitVector) (i : ℕ) : i ≤ a.nextSetIndex i := Nat.le_add_right _ _

theorem nextSetIndex_le {a : CoreBitVector} {i : ℕ} (h : i ≤ a.words.length) :
    a.nextSetIndex i ≤ a.words.length := by
  have hle : (a.words.drop i).findIdx (· != 0) ≤ (a.words.drop i).length := List.findIdx_le_length
  rw [List.length_drop] at hle
  rw [nextSetIndex]
  omega

theorem words_nextSetIndex {a : CoreBitVector} {i : ℕ} (h : a.nextSetIndex i < a.words.length) :
    a.words.getD (a.nextSetIndex i) 0 ≠ 0 := by
  rw [nextSetIndex] at h ⊢
  have hlt : (a.words.drop i).findIdx (· != 0) < (a.words.drop i).length := by
    rw [List.length_drop]
    omega
  have hne := List.findIdx_getElem (w := hlt)
  rw [List.getElem_drop, bne_iff_ne] at hne
  rwa [List.getD_eq_getElem _ _ h]

theorem words_before_nextSetIndex {a : CoreBitVector} {i k : ℕ} (hle : i ≤ k)
    (hlt : k < a.nextSetIndex i) : a.words.getD k 0 = 0 := by
  rw [nextSetIndex] at hlt
  have hfind : k - i < (a.words.drop i).findIdx (· != 0) := by omega
  have hzero := List.not_of_lt_findIdx hfind
  have hlen := hfind.trans_le List.findIdx_le_length
  rw [List.length_drop] at hlen
  rw [List.getElem_drop, bne_eq_false_iff_eq] at hzero
  rw [List.getD_eq_getElem _ _ (by omega), ← hzero]
  congr 1
  omega

theorem from_nextSetIndex {a : CoreBitVector} {i n : ℕ} :
    a.From (a.nextSetIndex i) n ↔ a.From i n := by
  constructor
  · intro h
    have hle := le_nextSetIndex a i
    exact ⟨h.1, by have := h.2; omega⟩
  · rintro ⟨hmem, hle⟩
    refine ⟨hmem, ?_⟩
    by_contra hlt
    have hzero := words_before_nextSetIndex (a := a) (i := i) (k := (n - a.offset) / 64)
      (by omega) (by omega)
    rw [mem_iff_getLsbD hmem.1, hzero] at hmem
    simp at hmem

theorem not_from_length {a : CoreBitVector} {i : ℕ} (h : a.words.length ≤ i) (n : ℕ) : ¬ a.From i n := by
  rintro ⟨hmem, hle⟩
  have hlt := lt_of_mem hmem
  omega

theorem exists_getLsbD_of_ne_zero {w : Word} (h : w ≠ 0) : ∃ k < 64, w.getLsbD k = true := by
  by_contra hnone
  refine h (BitVec.eq_of_getLsbD_eq fun k hk => ?_)
  have hzero : (0 : Word).getLsbD k = false := BitVec.getLsbD_zero
  rw [hzero]
  by_contra hbit
  exact hnone ⟨k, hk, by simpa using hbit⟩

theorem mem_word {a : CoreBitVector} {i k : ℕ} (hk : k < 64) :
    a.offset + 64 * i + k ∈ a ↔ (a.words.getD i 0).getLsbD k = true := by
  have haligned := a.aligned
  have hindex : (a.offset + 64 * i + k - a.offset) / 64 = i := by omega
  have hmod : (a.offset + 64 * i + k) % 64 = k := by omega
  rw [mem_iff_getLsbD (by omega), hindex, hmod]

theorem exists_from_word {a : CoreBitVector} {i : ℕ} (h : a.words.getD i 0 ≠ 0) :
    ∃ k < 64, a.From i (a.offset + 64 * i + k) := by
  obtain ⟨k, hk, hbit⟩ := exists_getLsbD_of_ne_zero h
  exact ⟨k, hk, (mem_word hk).mpr hbit, Nat.le_add_right _ _⟩

/-- Two tails that begin in words at one position are equal where the words and the rests are. -/
theorem from_eq_iff {a b : CoreBitVector} {l r : ℕ} (hpos : a.offset + 64 * l = b.offset + 64 * r)
    (hword : a.words.getD l 0 = b.words.getD r 0) :
    (∀ n, a.From l n ↔ b.From r n) ↔ ∀ n, a.From (l + 1) n ↔ b.From (r + 1) n := by
  constructor
  · intro h n
    rw [from_succ, from_succ, h, hpos]
  · intro h n
    by_cases hn : a.offset + 64 * l + 64 ≤ n
    · have hiff := h n
      rwa [from_succ, from_succ, and_iff_left hn, and_iff_left (hpos ▸ hn)] at hiff
    · by_cases hle : a.offset + 64 * l ≤ n
      · obtain ⟨k, rfl⟩ := Nat.exists_eq_add_of_le hle
        have hk : k < 64 := by omega
        rw [From, From, mem_word hk, hword, hpos, mem_word hk]
      · exact iff_of_false (fun hmem => hle hmem.2) fun hmem => hle (hpos ▸ hmem.2)

theorem pos_eq_of_from {a b : CoreBitVector} {l r : ℕ} (hl : a.words.getD l 0 ≠ 0)
    (hr : b.words.getD r 0 ≠ 0) (h : ∀ n, a.From l n ↔ b.From r n) :
    a.offset + 64 * l = b.offset + 64 * r ∧ a.words.getD l 0 = b.words.getD r 0 := by
  have haligned := a.aligned
  have haligned' := b.aligned
  obtain ⟨k, hk, hmem⟩ := exists_from_word hl
  obtain ⟨k', hk', hmem'⟩ := exists_from_word hr
  have hle := ((h _).mp hmem).2
  have hle' := ((h _).mpr hmem').2
  have hpos : a.offset + 64 * l = b.offset + 64 * r := by omega
  refine ⟨hpos, BitVec.eq_of_getLsbD_eq fun i hi => ?_⟩
  have hiff := h (a.offset + 64 * l + i)
  rw [From, From, mem_word hi, hpos, mem_word hi, and_iff_left (by omega), and_iff_left (by omega)]
    at hiff
  exact Bool.eq_iff_iff.mpr hiff

theorem forall_not_from_iff {a : CoreBitVector} {i : ℕ} :
    (∀ n, ¬ a.From i n) ↔ a.words.length ≤ a.nextSetIndex i := by
  constructor
  · intro h
    by_contra hlt
    obtain ⟨k, -, hmem⟩ := exists_from_word (words_nextSetIndex (Nat.lt_of_not_le hlt))
    exact h _ (from_nextSetIndex.mp hmem)
  · intro h n hn
    exact not_from_length h n (from_nextSetIndex.mpr hn)

theorem atEnds_iff {a b : CoreBitVector} {i j : ℕ}
    (h : ¬ (a.nextSetIndex i < a.words.length ∧ b.nextSetIndex j < b.words.length)) :
    (a.words.length ≤ a.nextSetIndex i ∧ b.words.length ≤ b.nextSetIndex j) ↔
      ∀ n, a.From i n ↔ b.From j n := by
  rw [← forall_not_from_iff, ← forall_not_from_iff]
  constructor
  · rintro ⟨ha, hb⟩ n
    exact iff_of_false (ha n) (hb n)
  · intro hiff
    rcases not_and_or.mp h with hend | hend
    · have ha := forall_not_from_iff.mpr (Nat.le_of_not_lt hend)
      exact ⟨ha, fun n hn => ha n ((hiff n).mpr hn)⟩
    · have hb := forall_not_from_iff.mpr (Nat.le_of_not_lt hend)
      exact ⟨fun n hn => hb n ((hiff n).mp hn), hb⟩

theorem eqLoop_iff {a b : CoreBitVector} {fuel i j : ℕ} (h : a.words.length ≤ fuel + i) :
    eqLoop a b fuel (a.nextSetIndex i) (b.nextSetIndex j) = true ↔
      ∀ n, a.From i n ↔ b.From j n := by
  induction fuel generalizing i j with
  | zero =>
      have hle := le_nextSetIndex a i
      rw [eqLoop, Bool.and_eq_true, decide_eq_true_eq, decide_eq_true_eq]
      exact atEnds_iff (by omega)
  | succ fuel ih =>
      rw [eqLoop]
      split
      · rename_i hlt
        rw [Bool.and_eq_true, decide_eq_true_eq, decide_eq_true_eq] at hlt
        have hl := words_nextSetIndex hlt.1
        have hr := words_nextSetIndex hlt.2
        have htails : (∀ n, a.From i n ↔ b.From j n) ↔
            ∀ n, a.From (a.nextSetIndex i) n ↔ b.From (b.nextSetIndex j) n :=
          forall_congr' fun n => by rw [from_nextSetIndex, from_nextSetIndex]
        rw [htails]
        split
        · rename_i hne
          refine iff_of_false Bool.false_ne_true fun hiff => ?_
          obtain ⟨hpos, hword⟩ := pos_eq_of_from hl hr hiff
          rw [Bool.or_eq_true, bne_iff_ne, bne_iff_ne] at hne
          exact hne.elim (fun h => h (by omega)) fun h => h hword
        · rename_i heq
          rw [Bool.or_eq_true, bne_iff_ne, bne_iff_ne, not_or, not_not, not_not] at heq
          have hle := le_nextSetIndex a i
          have hpos : a.offset + 64 * a.nextSetIndex i = b.offset + 64 * b.nextSetIndex j := by omega
          rw [ih (by omega), from_eq_iff hpos heq.2]
      · rename_i hend
        rw [Bool.and_eq_true, decide_eq_true_eq, decide_eq_true_eq] at hend ⊢
        exact atEnds_iff hend

theorem eq_iff {a b : CoreBitVector} : a.eq b = true ↔ ∀ n, n ∈ a ↔ n ∈ b := by
  rw [eq, eqLoop_iff (Nat.le_add_right _ _)]
  exact forall_congr' fun n => by rw [from_zero, from_zero]

theorem contains_iff {a b : CoreBitVector} : a.contains b = true ↔ ∀ n ∈ b, n ∈ a := by
  rw [contains, eq_iff]
  refine forall_congr' fun n => ?_
  rw [(andAssign_spec a b).1]
  exact and_iff_right_iff_imp

theorem intersectLoop_iff {us vs : List Word} :
    intersectLoop us vs = true ↔ ∃ k, bitAt us k = true ∧ bitAt vs k = true := by
  induction us generalizing vs with
  | nil => simp [intersectLoop]
  | cons u us ih =>
      cases vs with
      | nil => simp [intersectLoop]
      | cons v vs =>
          rw [intersectLoop, Bool.or_eq_true, bne_iff_ne, ih]
          constructor
          · rintro (hne | ⟨k, hk⟩)
            · obtain ⟨k, hk, hbit⟩ := exists_getLsbD_of_ne_zero hne
              refine ⟨k, ?_⟩
              rw [bitAt_cons_of_lt hk, bitAt_cons_of_lt hk, ← Bool.and_eq_true, ← BitVec.getLsbD_and, hbit]
            · exact ⟨k + 64, by rwa [bitAt_cons_add, bitAt_cons_add]⟩
          · rintro ⟨k, hk⟩
            by_cases hlt : k < 64
            · left
              intro hzero
              rw [bitAt_cons_of_lt hlt, bitAt_cons_of_lt hlt, ← Bool.and_eq_true, ← BitVec.getLsbD_and,
                hzero] at hk
              simp at hk
            · right
              rw [bitAt_cons, bitAt_cons, if_neg hlt, if_neg hlt] at hk
              exact ⟨k - 64, hk⟩

theorem intersectLoop_drop_iff {a b : CoreBitVector} (h : a.offset ≤ b.offset) :
    intersectLoop (a.words.drop (b.offset / 64 - a.offset / 64)) b.words = true ↔
      ∃ n, n ∈ a ∧ n ∈ b := by
  have haligned := a.aligned
  have haligned' := b.aligned
  have hsub : 64 * (b.offset / 64 - a.offset / 64) = b.offset - a.offset := by omega
  rw [intersectLoop_iff]
  constructor
  · rintro ⟨k, hk, hk'⟩
    rw [bitAt_drop, hsub] at hk
    have hleft : b.offset + k - a.offset = b.offset - a.offset + k := by omega
    refine ⟨b.offset + k, ⟨by omega, by rw [hleft, hk]⟩, by omega, ?_⟩
    rw [Nat.add_sub_cancel_left, hk']
  · rintro ⟨n, hn, hn'⟩
    have hle := hn'.1
    refine ⟨n - b.offset, ?_, hn'.2⟩
    have hleft : b.offset - a.offset + (n - b.offset) = n - a.offset := by omega
    rw [bitAt_drop, hsub, hleft]
    exact hn.2

theorem intersects_iff {a b : CoreBitVector} : a.intersects b = true ↔ ∃ n, n ∈ a ∧ n ∈ b := by
  rw [intersects]
  split
  · rename_i hempty
    rw [Bool.and_eq_true, empty_iff, empty_iff] at hempty
    exact iff_of_false Bool.false_ne_true fun ⟨n, hn, _⟩ => hempty.1 n hn
  · by_cases h : a.offset ≤ b.offset
    · simp only [if_pos h, min_eq_left h, max_eq_right h]
      exact intersectLoop_drop_iff h
    · have hle := Nat.le_of_not_le h
      simp only [if_neg h, min_eq_right hle, max_eq_left hle]
      rw [intersectLoop_drop_iff hle]
      exact exists_congr fun n => and_comm

def contents (a : CoreBitVector) : Finset ℕ := (Finset.Ico a.offset a.limit).filter (· ∈ a)

@[simp] theorem mem_contents {a : CoreBitVector} {n : ℕ} : n ∈ a.contents ↔ n ∈ a := by
  rw [contents, Finset.mem_filter, Finset.mem_Ico]
  exact ⟨fun h => h.2, fun h => ⟨⟨h.1, lt_of_mem h⟩, h⟩⟩

theorem contents_eq_iff {a b : CoreBitVector} : a.contents = b.contents ↔ ∀ n, n ∈ a ↔ n ∈ b := by
  rw [Finset.ext_iff]
  exact forall_congr' fun n => by rw [mem_contents, mem_contents]

theorem cpopNatRec_eq_count (w : Word) (n : ℕ) :
    w.cpopNatRec n 0 = Nat.count (fun k => w.getLsbD k = true) n := by
  induction n with
  | zero => simp
  | succ n ih =>
      rw [BitVec.cpopNatRec_succ, BitVec.cpopNatRec_add, ih, Nat.count_succ]
      cases w.getLsbD n <;> simp

theorem count_bitAt (words : List Word) :
    Nat.count (fun k => bitAt words k = true) (64 * words.length) =
      (words.map fun w => w.cpop.toNat).sum := by
  induction words with
  | nil => rfl
  | cons w words ih =>
      have hhead : Nat.count (fun k => bitAt (w :: words) k = true) 64 = w.cpop.toNat := by
        rw [BitVec.toNat_cpop, cpopNatRec_eq_count, Nat.count_eq_card_filter_range,
          Nat.count_eq_card_filter_range]
        refine congrArg Finset.card (Finset.filter_congr fun k hk => ?_)
        rw [bitAt_cons_of_lt (Finset.mem_range.mp hk)]
      rw [List.length_cons, Nat.mul_succ, Nat.add_comm, Nat.count_add, hhead, List.map_cons,
        List.sum_cons, ← ih]
      simp only [Nat.add_comm 64, bitAt_cons_add]

theorem card_contents (a : CoreBitVector) :
    a.contents.card = (a.words.map fun w => w.cpop.toNat).sum := by
  rw [← count_bitAt, Nat.count_eq_card_filter_range]
  refine (Finset.card_bij (fun k _ => a.offset + k) ?_ ?_ ?_).symm
  · intro k hk
    rw [mem_contents, mem_def, Nat.add_sub_cancel_left]
    exact ⟨Nat.le_add_right _ _, (Finset.mem_filter.mp hk).2⟩
  · intro k _ l _ heq
    omega
  · intro n hn
    rw [mem_contents] at hn
    have hlt := lt_of_mem hn
    have hle := hn.1
    refine ⟨n - a.offset, Finset.mem_filter.mpr ⟨Finset.mem_range.mpr (by omega), hn.2⟩, by omega⟩

theorem count_toNat (a : CoreBitVector) : a.count.toNat = a.contents.card % 2 ^ 32 := by
  have hfold : ∀ (words : List Word) (n : UInt32),
      (words.foldl (fun n w => n + .ofNat w.cpop.toNat) n).toNat =
        (n.toNat + (words.map fun w => w.cpop.toNat).sum) % 2 ^ 32 := by
    intro words
    induction words with
    | nil => exact fun n => (Nat.mod_eq_of_lt n.toNat_lt).symm
    | cons w words ih =>
        intro n
        rw [List.foldl_cons, ih, UInt32.toNat_add, UInt32.toNat_ofNat', List.map_cons, List.sum_cons]
        omega
  rw [count, hfold, card_contents]
  simp

theorem findSetBit_spec (w : Word) {bit : ℕ} (h : bit ≤ 64) :
    bit ≤ findSetBit w bit ∧ findSetBit w bit ≤ 64 ∧
      (∀ k, bit ≤ k → k < findSetBit w bit → w.getLsbD k = false) ∧
      (findSetBit w bit < 64 → w.getLsbD (findSetBit w bit) = true) := by
  have hlen : (List.range' bit (64 - bit)).length = 64 - bit := List.length_range'
  have hle : (List.range' bit (64 - bit)).findIdx w.getLsbD ≤ 64 - bit :=
    List.findIdx_le_length.trans hlen.le
  rw [findSetBit]
  refine ⟨Nat.le_add_right _ _, by omega, fun k hk hlt => ?_, fun hlt => ?_⟩
  · have hfind : k - bit < (List.range' bit (64 - bit)).findIdx w.getLsbD := by omega
    have hfalse := List.not_of_lt_findIdx hfind
    rw [List.getElem_range'] at hfalse
    have hk' : bit + 1 * (k - bit) = k := by omega
    rwa [hk'] at hfalse
  · have hfind : (List.range' bit (64 - bit)).findIdx w.getLsbD < (List.range' bit (64 - bit)).length := by
      omega
    have htrue := List.findIdx_getElem (w := hfind)
    rwa [List.getElem_range', Nat.one_mul] at htrue

def Points (a : CoreBitVector) (bound : ℕ) (it : CoreBitVectorIterator) : Prop :=
  it.wordIt = a.words.length ∧ (∀ n ∈ a, n < bound) ∨
    it.wordIt < a.words.length ∧ it.bit < 64 ∧ a.deref it ∈ a ∧ bound ≤ a.deref it ∧
      ∀ n ∈ a, bound ≤ n → a.deref it ≤ n

theorem points_findSetBit {a : CoreBitVector} {bound i bit : ℕ} (hi : i < a.words.length)
    (hbit : bit ≤ 64) (hex : ∃ k < 64, bit ≤ k ∧ (a.words.getD i 0).getLsbD k = true)
    (hbound : bound ≤ a.offset + 64 * i + bit)
    (hleast : ∀ n ∈ a, bound ≤ n → a.offset + 64 * i + bit ≤ n) :
    a.Points bound ⟨i, findSetBit (a.words.getD i 0) bit⟩ := by
  obtain ⟨hge, -, hnone, hset⟩ := findSetBit_spec (a.words.getD i 0) hbit
  obtain ⟨k, hk, hle, htrue⟩ := hex
  have hlt : findSetBit (a.words.getD i 0) bit < 64 := by
    by_contra hnot
    rw [hnone k hle (by omega)] at htrue
    exact Bool.false_ne_true htrue
  have hpos : a.deref ⟨i, findSetBit (a.words.getD i 0) bit⟩ =
      a.offset + 64 * i + findSetBit (a.words.getD i 0) bit := by
    rw [deref, Nat.mul_comm i]
  refine .inr ⟨hi, hlt, ?_, ?_, fun n hn hb => ?_⟩
  · rw [hpos, mem_word hlt]
    exact hset hlt
  · rw [hpos]
    omega
  · have hn' := hleast n hn hb
    rw [hpos]
    by_contra hcontra
    obtain ⟨j, rfl⟩ := Nat.exists_eq_add_of_le (show a.offset + 64 * i ≤ n by omega)
    rw [mem_word (by omega), hnone j (by omega) (by omega)] at hn
    exact Bool.false_ne_true hn

theorem points_next {a : CoreBitVector} {it : CoreBitVectorIterator} (hword : it.wordIt < a.words.length)
    (hbit : it.bit < 64) : a.Points (a.deref it + 1) (a.next it) := by
  obtain ⟨i, b⟩ := it
  have hpos : a.deref ⟨i, b⟩ = a.offset + 64 * i + b := by
    rw [deref, Nat.mul_comm i]
  dsimp only at hword hbit
  rw [next, hpos]
  dsimp only
  by_cases hrest : ∃ k < 64, b + 1 ≤ k ∧ (a.words.getD i 0).getLsbD k = true
  · have hshift : (a.words.getD i 0 >>> (b + 1) == 0) = false := by
      obtain ⟨k, hk, hle, htrue⟩ := hrest
      rw [beq_eq_false_iff_ne]
      intro hzero
      have hget : (a.words.getD i 0 >>> (b + 1)).getLsbD (k - (b + 1)) = true := by
        rwa [BitVec.getLsbD_ushiftRight, Nat.add_sub_cancel' hle]
      rw [hzero] at hget
      simp at hget
    have hlast : b + 1 ≠ 64 := by
      obtain ⟨k, hk, hle, -⟩ := hrest
      omega
    simp only [hshift, hlast, decide_false, Bool.or_self, Bool.false_eq_true, if_false, hword.ne]
    exact points_findSetBit hword hbit hrest (by omega) fun n _ hn => by omega
  · have hnone : ∀ n, a.offset + 64 * i + b + 1 ≤ n → n ∈ a → a.From (i + 1) n := by
      intro n hn hmem
      refine ⟨hmem, ?_⟩
      by_contra hlt
      obtain ⟨k, rfl⟩ := Nat.exists_eq_add_of_le (show a.offset + 64 * i ≤ n by omega)
      exact hrest ⟨k, by omega, by omega, (mem_word (by omega)).mp hmem⟩
    have hcond : (decide (b + 1 = 64) || a.words.getD i 0 >>> (b + 1) == 0) = true := by
      rw [Bool.or_eq_true, decide_eq_true_eq, beq_iff_eq]
      by_contra hor
      rw [not_or] at hor
      obtain ⟨k, hk, htrue⟩ := exists_getLsbD_of_ne_zero hor.2
      rw [BitVec.getLsbD_ushiftRight] at htrue
      exact hrest ⟨b + 1 + k, BitVec.lt_of_getLsbD htrue, Nat.le_add_right _ _, htrue⟩
    simp only [hcond, if_true]
    split
    · rename_i hend
      refine .inl ⟨hend, fun n hn => ?_⟩
      by_contra hge
      exact forall_not_from_iff.mpr hend.ge n (hnone n (by omega) hn)
    · rename_i hne
      have hlt : a.nextSetIndex (i + 1) < a.words.length :=
        Nat.lt_of_le_of_ne (nextSetIndex_le hword) hne
      have hle := le_nextSetIndex a (i + 1)
      obtain ⟨k, hk, htrue⟩ := exists_getLsbD_of_ne_zero (words_nextSetIndex hlt)
      refine points_findSetBit hlt (Nat.zero_le _) ⟨k, hk, Nat.zero_le _, htrue⟩ (by omega) ?_
      intro n hn hb
      exact (from_nextSetIndex.mpr (hnone n hb hn)).2

theorem points_begin (a : CoreBitVector) : a.Points a.offset a.begin := by
  rw [begin]
  split
  · rename_i h
    have hpos : 0 < a.words.length := Nat.pos_of_ne_zero h.1
    have hnot : a.offset ∉ a := by
      intro hmem
      have hbit := (mem_word (a := a) (i := 0) (k := 0) (by decide)).mp hmem
      have hmask := mask_and_ne_zero (k := 0) (by decide) (a.words.getD 0 0)
      rw [BitVec.shiftLeft_zero, BitVec.and_comm, h.2, hbit] at hmask
      simp at hmask
    have hpoints := @points_next a ⟨0, 0⟩ hpos (by decide)
    have hderef : a.deref ⟨0, 0⟩ = a.offset := by simp [deref]
    rw [hderef] at hpoints
    rcases hpoints with ⟨hend, hall⟩ | ⟨hlt, hbit, hmem, hle, hleast⟩
    · refine .inl ⟨hend, fun n hn => ?_⟩
      have hlt := hall n hn
      have hne : n ≠ a.offset := fun heq => hnot (heq ▸ hn)
      have hle := hn.1
      omega
    · refine .inr ⟨hlt, hbit, hmem, by omega, fun n hn hb => hleast n hn ?_⟩
      have hne : n ≠ a.offset := fun heq => hnot (heq ▸ hn)
      omega
  · rename_i h
    rw [not_and_or, not_not] at h
    rcases h with hnil | hne
    · refine .inl ⟨hnil.symm, fun n hn => ?_⟩
      have hlt := lt_of_mem hn
      omega
    · have hmask := mask_and_ne_zero (k := 0) (by decide) (a.words.getD 0 0)
      rw [BitVec.shiftLeft_zero, BitVec.and_comm] at hmask
      have hbit : (a.words.getD 0 0).getLsbD 0 = true := by
        rw [← hmask, bne_iff_ne]
        exact hne
      have hmem : a.offset ∈ a := (mem_word (a := a) (i := 0) (k := 0) (by decide)).mpr hbit
      have hpos : 0 < a.words.length := by
        have hlt := lt_of_mem hmem
        omega
      have hderef : a.deref ⟨0, 0⟩ = a.offset := by simp [deref]
      refine .inr ⟨hpos, by decide, hderef ▸ hmem, hderef.ge, fun n _ hb => hderef ▸ hb⟩

theorem elementsFrom_spec {a : CoreBitVector} {fuel bound : ℕ} {it : CoreBitVectorIterator}
    (h : a.Points bound it) (hfuel : a.limit ≤ bound + fuel) :
    (a.elementsFrom fuel it).Pairwise (· < ·) ∧
      ∀ n, n ∈ a.elementsFrom fuel it ↔ n ∈ a ∧ bound ≤ n := by
  induction fuel generalizing bound it with
  | zero =>
      refine ⟨.nil, fun n => iff_of_false List.not_mem_nil fun hn => ?_⟩
      have hlt := lt_of_mem hn.1
      rw [limit] at hfuel
      omega
  | succ fuel ih =>
      rw [elementsFrom]
      rcases h with ⟨hend, hall⟩ | ⟨hword, hbit, hmem, hle, hleast⟩
      · have heq : a.atEnd it = true := beq_iff_eq.mpr hend
        rw [if_pos heq]
        exact ⟨.nil, fun n => iff_of_false List.not_mem_nil fun hn =>
          absurd (hall n hn.1) (Nat.not_lt.mpr hn.2)⟩
      · have hne : ¬ a.atEnd it = true := fun heq => hword.ne (beq_iff_eq.mp heq)
        rw [if_neg hne]
        obtain ⟨hsorted, hrest⟩ := ih (points_next hword hbit) (by omega)
        refine ⟨List.pairwise_cons.mpr ⟨fun n hn => ((hrest n).mp hn).2, hsorted⟩, fun n => ?_⟩
        rw [List.mem_cons, hrest]
        constructor
        · rintro (rfl | ⟨hn, hlt⟩)
          · exact ⟨hmem, hle⟩
          · exact ⟨hn, by omega⟩
        · rintro ⟨hn, hb⟩
          have hge := hleast n hn hb
          rcases hge.eq_or_lt with heq | hlt
          · exact .inl heq.symm
          · exact .inr ⟨hn, hlt⟩

/-- A range loop visits the members in ascending order. -/
theorem elements_eq (a : CoreBitVector) : a.elements = a.contents.sort := by
  obtain ⟨hsorted, hmem⟩ := @elementsFrom_spec a (a.words.length * 64) _ _ (points_begin a)
    (by rw [limit, Nat.mul_comm])
  refine hsorted.eq_of_mem_iff (Finset.sortedLT_sort _).pairwise fun n => ?_
  rw [Finset.mem_sort, mem_contents]
  exact (hmem n).trans (and_iff_left_of_imp fun h => h.1)

end CoreBitVector

end SVF.Util.CoreBitVectors
