import Mathlib.Data.Finset.Sort
import Mathlib.Data.Nat.Count
import SVF.Util.CoreBitVectors

namespace SVF.Util.CoreBitVectors

open PackedBits

namespace CoreBitVector

instance : Membership ℕ CoreBitVector :=
  ⟨fun a n => a.offset ≤ n ∧ bitAt a.words (n - a.offset) = true⟩

instance (n : ℕ) (a : CoreBitVector) : Decidable (n ∈ a) :=
  inferInstanceAs (Decidable (_ ∧ _))

theorem mem_def {n : ℕ} {a : CoreBitVector} :
    n ∈ a ↔ a.offset ≤ n ∧ bitAt a.words (n - a.offset) = true := Iff.rfl

theorem lt_of_mem {n : ℕ} {a : CoreBitVector} (h : n ∈ a) :
    n < a.offset + 64 * a.words.length := by
  have hlt := lt_of_bitAt h.2
  have hle := h.1
  omega

theorem lt_of_mem' {n : ℕ} {a : CoreBitVector} (h : n ∈ a) : n < 2 ^ 32 :=
  Nat.lt_of_lt_of_le (lt_of_mem h) a.bounded

theorem not_mem_new (n : ℕ) : n ∉ new := fun h => by
  simpa [new] using h.2

theorem mem_withWords {a : CoreBitVector} {words : List Word} {h : words.length = a.words.length}
    {n : ℕ} : n ∈ a.withWords words h ↔ a.offset ≤ n ∧ bitAt words (n - a.offset) = true := Iff.rfl

/-- Of one window, the bits determine the words. -/
theorem withWords_mem_iff {a : CoreBitVector} {words : List Word} {h : words.length = a.words.length} :
    (∀ n, n ∈ a.withWords words h ↔ n ∈ a) ↔ words = a.words := by
  constructor
  · intro hmem
    refine eq_of_bitAt h fun k => ?_
    have hiff := hmem (a.offset + k)
    rw [mem_withWords, mem_def, Nat.add_sub_cancel_left] at hiff
    simpa using hiff
  · rintro rfl n
    exact Iff.rfl

/-- The word and the position in it that the source computes are those of the bit. -/
theorem mem_iff_getLsbD {a : CoreBitVector} {n : ℕ} (h : a.offset ≤ n) :
    n ∈ a ↔ (a.words.getD ((n - a.offset) / 64) 0).getLsbD (n % 64) = true := by
  have hmod : (n - a.offset) % 64 = n % 64 := by
    have := a.aligned
    omega
  rw [mem_def, bitAt, hmod, and_iff_right h]

theorem canHold_iff {a : CoreBitVector} {bit : UInt32} :
    a.canHold bit = true ↔ a.offset ≤ bit.toNat ∧ bit.toNat < a.offset + 64 * a.words.length := by
  simp [canHold, Nat.mul_comm]

theorem mem_extendBackward {a : CoreBitVector} {bit : UInt32} {n : ℕ} :
    n ∈ a.extendBackward bit ↔ n ∈ a := by
  rw [extendBackward]
  split
  · rfl
  · rename_i h
    have haligned := a.aligned
    simp only [mem_def, bitAt_append, List.length_replicate, bitAt_replicate]
    constructor
    · rintro ⟨hle, hbit⟩
      split at hbit
      · simp at hbit
      · rename_i hk
        refine ⟨by omega, ?_⟩
        convert hbit using 2
        omega
    · rintro ⟨hle, hbit⟩
      refine ⟨by omega, ?_⟩
      rw [if_neg (by omega)]
      convert hbit using 2
      omega

theorem mem_extendForward {a : CoreBitVector} {bit : UInt32} {n : ℕ} :
    n ∈ a.extendForward bit ↔ n ∈ a := by
  rw [extendForward]
  split
  · rfl
  · simp only [mem_def, bitAt_append, bitAt_replicate]
    refine and_congr_right fun _ => ?_
    split
    · rfl
    · rename_i hk
      exact iff_of_false (by simp) fun h => hk (lt_of_bitAt h)

theorem mem_extendTo {a : CoreBitVector} {bit : UInt32} {n : ℕ} : n ∈ a.extendTo bit ↔ n ∈ a := by
  rw [extendTo]
  split
  · rename_i h
    have hnil : a.words = [] := List.eq_nil_of_length_eq_zero h.2
    refine iff_of_false (fun hmem => ?_) fun hmem => ?_
    · have hzero : bitAt [(0 : Word)] (n - bit.toNat / 64 * 64) = false := bitAt_replicate 1 _
      exact absurd hmem.2 (Bool.eq_false_iff.mp hzero)
    · simp [mem_def, hnil] at hmem
  · split
    · exact mem_extendBackward
    · split
      · exact mem_extendForward
      · rfl

theorem offset_extendBackward (a : CoreBitVector) (bit : UInt32) :
    (a.extendBackward bit).offset = min a.offset (bit.toNat / 64 * 64) := by
  rw [extendBackward]
  split
  · omega
  · rename_i h
    exact (min_eq_right (Nat.le_of_not_le h)).symm

def limit (a : CoreBitVector) : ℕ := a.offset + 64 * a.words.length

theorem limit_extendBackward (a : CoreBitVector) (bit : UInt32) :
    (a.extendBackward bit).limit = a.limit := by
  have := a.aligned
  rw [extendBackward, limit, limit]
  split
  · rfl
  · simp only [List.length_append, List.length_replicate]
    omega

theorem offset_extendForward (a : CoreBitVector) (bit : UInt32) :
    (a.extendForward bit).offset = a.offset := by
  rw [extendForward]
  split <;> rfl

theorem limit_extendForward {a : CoreBitVector} {bit : UInt32} (h : a.offset ≤ bit.toNat) :
    (a.extendForward bit).limit = max a.limit (bit.toNat / 64 * 64 + 64) := by
  have haligned := a.aligned
  rw [extendForward]
  split
  · rename_i hor
    have hlt := (canHold_iff.mp (hor.resolve_left (Nat.not_lt.mpr h))).2
    simp only [limit]
    omega
  · rename_i hnot
    have hlt : ¬ (a.canHold bit = true) := fun hc => hnot (.inr hc)
    rw [canHold_iff] at hlt
    simp only [limit, List.length_append, List.length_replicate]
    omega

theorem holds_extendTo (a : CoreBitVector) (bit : UInt32) :
    (a.extendTo bit).offset ≤ bit.toNat ∧ bit.toNat < (a.extendTo bit).limit := by
  rw [extendTo]
  split
  · simp only [limit, List.length_singleton]
    omega
  · split
    · rw [offset_extendBackward, limit_extendBackward, limit]
      omega
    · split
      · rw [offset_extendForward, limit_extendForward (by omega)]
        omega
      · rw [limit]
        omega

theorem getLsbD_mask {k : ℕ} (hk : k < 64) (j : ℕ) :
    ((1 : Word) <<< k).getLsbD j = decide (j = k) := by
  by_cases h : j = k
  · subst h
    simp [hk]
  · by_cases hlt : j < k
    · simp [h, hlt]
    · have hsub : j - k ≠ 0 := by omega
      simp [BitVec.getLsbD_one, h, hsub]

theorem mask_and_ne_zero {k : ℕ} (hk : k < 64) (w : Word) :
    ((1 : Word) <<< k &&& w != 0) = w.getLsbD k := by
  rw [Bool.eq_iff_iff, bne_iff_ne]
  constructor
  · intro hne
    by_contra hfalse
    refine hne (BitVec.eq_of_getLsbD_eq fun j _ => ?_)
    rw [BitVec.getLsbD_and, getLsbD_mask hk]
    by_cases h : j = k
    · simpa [h] using hfalse
    · simp [h]
  · intro htrue hzero
    have hbit : ((1 : Word) <<< k &&& w).getLsbD k = true := by
      rw [BitVec.getLsbD_and, getLsbD_mask hk, htrue]
      simp
    rw [hzero] at hbit
    simp at hbit

theorem test_iff {a : CoreBitVector} {bit : UInt32} : a.test bit = true ↔ bit.toNat ∈ a := by
  rw [test]
  split
  · rename_i hout
    refine iff_of_false Bool.false_ne_true fun hmem => ?_
    have hlt := lt_of_mem hmem
    have hle := hmem.1
    simp only [Bool.or_eq_true, decide_eq_true_eq] at hout
    omega
  · rename_i hin
    simp only [Bool.or_eq_true, decide_eq_true_eq, not_or, Nat.not_lt] at hin
    dsimp only
    rw [mask_and_ne_zero (Nat.mod_lt _ (by decide)), ← mem_iff_getLsbD hin.1]

theorem mem_modify {a : CoreBitVector} {bit n : ℕ} (hle : a.offset ≤ bit) (hlt : bit < a.limit)
    (f : Word → Word) :
    n ∈ a.withWords (a.words.modify ((bit - a.offset) / 64) f) (List.length_modify _ _ _) ↔
      a.offset ≤ n ∧ if n / 64 = bit / 64 then
        (f (a.words.getD ((n - a.offset) / 64) 0)).getLsbD (n % 64) = true else n ∈ a := by
  have haligned := a.aligned
  rw [mem_withWords, bitAt_modify _ _ _ _ (by rw [limit] at hlt; omega)]
  refine and_congr_right fun hn => ?_
  have hmod : (n - a.offset) % 64 = n % 64 := by omega
  have hsame : (n - a.offset) / 64 = (bit - a.offset) / 64 ↔ n / 64 = bit / 64 := by omega
  by_cases h : n / 64 = bit / 64
  · rw [if_pos (hsame.mpr h), if_pos h, hmod]
  · rw [if_neg (fun heq => h (hsame.mp heq)), if_neg h, mem_def, and_iff_right hn]

theorem mem_set {a : CoreBitVector} {bit : UInt32} {n : ℕ} :
    n ∈ a.set bit ↔ n ∈ a ∨ n = bit.toNat := by
  obtain ⟨hle, hlt⟩ := holds_extendTo a bit
  rw [set, mem_modify hle hlt, ← @mem_extendTo a bit]
  constructor
  · rintro ⟨hn, h⟩
    split at h
    · rename_i hword
      rw [BitVec.getLsbD_or, getLsbD_mask (Nat.mod_lt _ (by decide)), Bool.or_eq_true,
        ← mem_iff_getLsbD hn, decide_eq_true_eq] at h
      exact h.imp_right fun hmod => by omega
    · exact .inl h
  · intro h
    have hn : (a.extendTo bit).offset ≤ n := by
      rcases h with h | rfl
      · exact h.1
      · exact hle
    refine ⟨hn, ?_⟩
    split
    · rw [BitVec.getLsbD_or, getLsbD_mask (Nat.mod_lt _ (by decide)), Bool.or_eq_true,
        ← mem_iff_getLsbD hn, decide_eq_true_eq]
      exact h.imp_right fun heq => by rw [heq]
    · rename_i hword
      exact h.resolve_right fun heq => hword (by rw [heq])

theorem mem_reset {a : CoreBitVector} {bit : UInt32} {n : ℕ} :
    n ∈ a.reset bit ↔ n ∈ a ∧ n ≠ bit.toNat := by
  rw [reset]
  split
  · rename_i hout
    simp only [Bool.or_eq_true, decide_eq_true_eq] at hout
    refine ⟨fun hmem => ⟨hmem, ?_⟩, fun h => h.1⟩
    have hlt := lt_of_mem hmem
    have hle := hmem.1
    omega
  · rename_i hin
    simp only [Bool.or_eq_true, decide_eq_true_eq, not_or, Nat.not_lt] at hin
    rw [mem_modify hin.1 (by rw [limit]; omega)]
    constructor
    · rintro ⟨hn, h⟩
      split at h
      · rw [BitVec.getLsbD_and, BitVec.getLsbD_not, getLsbD_mask (Nat.mod_lt _ (by decide)),
          Bool.and_eq_true, ← mem_iff_getLsbD hn] at h
        refine ⟨h.1, fun heq => ?_⟩
        subst heq
        simp at h
      · rename_i hword
        exact ⟨h, fun heq => hword (by rw [heq])⟩
    · rintro ⟨hmem, hne⟩
      refine ⟨hmem.1, ?_⟩
      split
      · rename_i hword
        rw [BitVec.getLsbD_and, BitVec.getLsbD_not, getLsbD_mask (Nat.mod_lt _ (by decide)),
          Bool.and_eq_true, ← mem_iff_getLsbD hmem.1]
        have hmod : n % 64 ≠ bit.toNat % 64 := by omega
        simp [hmem, hmod, Nat.mod_lt]
      · exact hmem

theorem mem_testAndSet {a : CoreBitVector} {bit : UInt32} {n : ℕ} :
    n ∈ (a.testAndSet bit).1 ↔ n ∈ a ∨ n = bit.toNat := by
  rw [testAndSet]
  split
  · rename_i h
    rw [test_iff] at h
    exact ⟨.inl, fun hor => hor.elim id fun heq => heq ▸ h⟩
  · exact mem_set

theorem testAndSet_flag {a : CoreBitVector} {bit : UInt32} :
    (a.testAndSet bit).2 = true ↔ bit.toNat ∉ a := by
  rw [testAndSet, ← test_iff]
  split
  · rename_i h
    simp [h]
  · rename_i h
    simp [h]

theorem empty_iff {a : CoreBitVector} : a.empty = true ↔ ∀ n, n ∉ a := by
  have hall : a.empty = true ↔ ∀ word ∈ a.words, word = 0 := by simp [empty]
  rw [hall, eq_zero_iff]
  constructor
  · intro h n hmem
    exact absurd hmem.2 (Bool.eq_false_iff.mp (h _))
  · intro h k
    by_contra hbit
    refine h (a.offset + k) ⟨Nat.le_add_right _ _, ?_⟩
    rw [Nat.add_sub_cancel_left]
    simpa using hbit

theorem bitAt_orLoop {this rhs : List Word} (h : rhs.length ≤ this.length) (changed : Word) (k : ℕ) :
    bitAt (orLoop this rhs changed).1 k = (bitAt this k || bitAt rhs k) := by
  induction this generalizing rhs changed k with
  | nil =>
      obtain rfl : rhs = [] := List.eq_nil_of_length_eq_zero (by simpa using h)
      simp [orLoop]
  | cons w this ih =>
      cases rhs with
      | nil => simp [orLoop]
      | cons v rhs =>
          simp only [orLoop, bitAt_cons]
          split
          · exact BitVec.getLsbD_or
          · exact ih (by simpa using h) _ _

theorem orLoop_changed {this rhs : List Word} {changed : Word} :
    (orLoop this rhs changed).2 ≠ 0 ↔ changed ≠ 0 ∨ (orLoop this rhs changed).1 ≠ this := by
  induction this generalizing rhs changed with
  | nil => simp [orLoop]
  | cons w this ih =>
      cases rhs with
      | nil => simp [orLoop]
      | cons v rhs =>
          have hxor : w ^^^ (w ||| v) = 0 ↔ w ||| v = w := BitVec.xor_eq_zero_iff.trans eq_comm
          have hor : changed ||| (w ^^^ (w ||| v)) = 0 ↔ changed = 0 ∧ w ^^^ (w ||| v) = 0 :=
            BitVec.or_eq_zero_iff
          simp only [orLoop, ih, ne_eq, hor, hxor, List.cons.injEq]
          tauto

theorem bitAt_clearLoop (this : List Word) (changed : Bool) (k : ℕ) :
    bitAt (clearLoop this changed).1 k = false := by
  induction this generalizing changed k with
  | nil => exact bitAt_nil k
  | cons w this ih =>
      simp only [clearLoop, bitAt_cons]
      split
      · exact BitVec.getLsbD_zero
      · exact ih _ _

theorem clearLoop_changed {this : List Word} {changed : Bool} :
    (clearLoop this changed).2 = true ↔ changed = true ∨ (clearLoop this changed).1 ≠ this := by
  induction this generalizing changed with
  | nil => simp [clearLoop]
  | cons w this ih =>
      simp only [clearLoop, ih, Bool.or_eq_true, bne_iff_ne, ne_eq, List.cons.injEq, @eq_comm _ 0 w]
      tauto

theorem bitAt_andLoop (this rhs : List Word) (changed : Bool) (k : ℕ) :
    bitAt (andLoop this rhs changed).1 k = (bitAt this k && bitAt rhs k) := by
  induction this generalizing rhs changed k with
  | nil => simp [andLoop, clearLoop]
  | cons w this ih =>
      cases rhs with
      | nil => simpa [andLoop] using bitAt_clearLoop _ _ k
      | cons v rhs =>
          simp only [andLoop, bitAt_cons]
          split
          · exact BitVec.getLsbD_and
          · exact ih _ _ _

theorem andLoop_changed {this rhs : List Word} {changed : Bool} :
    (andLoop this rhs changed).2 = true ↔ changed = true ∨ (andLoop this rhs changed).1 ≠ this := by
  induction this generalizing rhs changed with
  | nil => simp [andLoop, clearLoop]
  | cons w this ih =>
      cases rhs with
      | nil => exact clearLoop_changed
      | cons v rhs =>
          simp only [andLoop, ih, Bool.or_eq_true, bne_iff_ne, ne_eq, List.cons.injEq,
            @eq_comm _ (w &&& v) w]
          tauto

theorem bitAt_minusLoop (this rhs : List Word) (changed : Bool) (k : ℕ) :
    bitAt (minusLoop this rhs changed).1 k = (bitAt this k && !bitAt rhs k) := by
  induction this generalizing rhs changed k with
  | nil => simp [minusLoop]
  | cons w this ih =>
      cases rhs with
      | nil => simp [minusLoop]
      | cons v rhs =>
          simp only [minusLoop, bitAt_cons]
          split
          · rename_i hk
            simp [hk]
          · exact ih _ _ _

theorem minusLoop_changed {this rhs : List Word} {changed : Bool} :
    (minusLoop this rhs changed).2 = true ↔ changed = true ∨ (minusLoop this rhs changed).1 ≠ this := by
  induction this generalizing rhs changed with
  | nil => simp [minusLoop]
  | cons w this ih =>
      cases rhs with
      | nil => simp [minusLoop]
      | cons v rhs =>
          simp only [minusLoop, ih, Bool.or_eq_true, bne_iff_ne, ne_eq, List.cons.injEq,
            @eq_comm _ (w &&& ~~~v) w]
          tauto

theorem offset_lt (a : CoreBitVector) : a.offset < 2 ^ 32 := by
  have hbounded := a.bounded
  by_cases h : a.words = []
  · rw [a.offset_of_nil h]
    decide
  · have hpos := List.length_pos_iff.mpr h
    omega

theorem finalBit_toNat {a : CoreBitVector} (h : a.words.length ≠ 0) :
    a.finalBit.toNat = a.limit - 1 := by
  have hbounded := a.bounded
  rw [finalBit, UInt32.toNat_ofNat', limit]
  omega

theorem dvd_limit (a : CoreBitVector) : 64 ∣ a.limit := by
  have haligned := a.aligned
  rw [limit]
  omega

theorem bitAt_drop_iff {a : CoreBitVector} {i n : ℕ} (h : a.offset + 64 * i ≤ n) :
    bitAt (a.words.drop i) (n - (a.offset + 64 * i)) = true ↔ n ∈ a := by
  have hsub : 64 * i + (n - (a.offset + 64 * i)) = n - a.offset := by omega
  rw [bitAt_drop, hsub, mem_def, and_iff_right (by omega)]

theorem mem_withWordsFrom {a : CoreBitVector} {i : ℕ} {words : List Word}
    {h : words.length = (a.words.drop i).length} (hi : i ≤ a.words.length) {n : ℕ} :
    n ∈ a.withWordsFrom i words h ↔
      if n < a.offset + 64 * i then n ∈ a
      else bitAt words (n - (a.offset + 64 * i)) = true := by
  rw [withWordsFrom, mem_withWords, bitAt_append, bitAt_take, List.length_take, min_eq_left hi, mem_def]
  by_cases hn : a.offset ≤ n
  · rw [and_iff_right hn, and_iff_right hn]
    by_cases hlt : n < a.offset + 64 * i
    · have hk : n - a.offset < 64 * i := by omega
      simp [hlt, hk]
    · have hk : ¬ n - a.offset < 64 * i := by omega
      rw [if_neg hk, if_neg hlt, Nat.sub_sub]
  · have hlt : n < a.offset + 64 * i := by omega
    simp [hn, hlt]

theorem withWordsFrom_mem_iff {a : CoreBitVector} {i : ℕ} {words : List Word}
    {h : words.length = (a.words.drop i).length} :
    (∀ n, n ∈ a.withWordsFrom i words h ↔ n ∈ a) ↔ words = a.words.drop i := by
  rw [withWordsFrom, withWords_mem_iff]
  conv_lhs => rhs; rw [← List.take_append_drop i a.words]
  exact List.append_right_inj _

structure Covers (a rhs : CoreBitVector) : Prop where
  offset : a.offset ≤ rhs.offset
  limit : rhs.limit ≤ a.limit

theorem extendOver_spec {a rhs : CoreBitVector} (ha : a.words.length ≠ 0) (hrhs : rhs.words.length ≠ 0) :
    Covers (a.extendOver rhs) rhs ∧ ∀ n, n ∈ a.extendOver rhs ↔ n ∈ a := by
  have hfinal := finalBit_toNat ha
  have hfinal' := finalBit_toNat hrhs
  have hdvd := dvd_limit rhs
  have haligned := rhs.aligned
  have hpos : a.offset + 64 ≤ a.limit ∧ rhs.offset + 64 ≤ rhs.limit := by
    simp only [limit]
    omega
  have hforward : ∃ b, (if a.finalBit < rhs.finalBit then a.extendForward rhs.finalBit else a) = b ∧
      b.offset = a.offset ∧ rhs.limit ≤ b.limit ∧ ∀ n, n ∈ b ↔ n ∈ a := by
    refine ⟨_, rfl, ?_⟩
    split
    · rename_i hlt
      rw [UInt32.lt_iff_toNat_lt, hfinal, hfinal'] at hlt
      refine ⟨offset_extendForward _ _, ?_, fun n => mem_extendForward⟩
      rw [limit_extendForward (by omega), hfinal']
      omega
    · rename_i hge
      rw [UInt32.lt_iff_toNat_lt, hfinal, hfinal'] at hge
      exact ⟨rfl, by omega, fun n => Iff.rfl⟩
  obtain ⟨b, hb, hoffset, hlimit, hmem⟩ := hforward
  have hof : (UInt32.ofNat rhs.offset).toNat = rhs.offset := by
    rw [UInt32.toNat_ofNat', Nat.mod_eq_of_lt (offset_lt rhs)]
  rw [extendOver, hb]
  split
  · refine ⟨⟨?_, ?_⟩, fun n => mem_extendBackward.trans (hmem n)⟩
    · rw [offset_extendBackward, hof]
      omega
    · rw [limit_extendBackward]
      exact hlimit
  · rename_i hle
    exact ⟨⟨Nat.le_of_not_lt hle, hlimit⟩, hmem⟩

theorem orWords_spec {a rhs : CoreBitVector} (h : Covers a rhs) :
    (∀ n, n ∈ (a.orWords rhs).1 ↔ n ∈ a ∨ n ∈ rhs) ∧
      ((a.orWords rhs).2 = true ↔ ¬ ∀ n, n ∈ (a.orWords rhs).1 ↔ n ∈ a) := by
  have hof : (UInt32.ofNat rhs.offset).toNat = rhs.offset := by
    rw [UInt32.toNat_ofNat', Nat.mod_eq_of_lt (offset_lt rhs)]
  have haligned := a.aligned
  have haligned' := rhs.aligned
  have hoffset := h.offset
  have hlimit := h.limit
  simp only [limit] at hlimit
  have hstart : a.offset + 64 * a.indexForBit (.ofNat rhs.offset) = rhs.offset := by
    rw [indexForBit, hof]
    omega
  constructor
  · intro n
    rw [orWords, mem_withWordsFrom (by omega), hstart]
    split
    · rename_i hlt
      exact ⟨.inl, fun hor => hor.resolve_right fun hmem => Nat.not_le.mpr hlt hmem.1⟩
    · rename_i hge
      have hle : a.offset + 64 * a.indexForBit (.ofNat rhs.offset) ≤ n := by omega
      have hbits := bitAt_drop_iff hle
      rw [hstart] at hbits
      rw [bitAt_orLoop (by rw [List.length_drop]; omega), Bool.or_eq_true, hbits,
        mem_def (a := rhs), and_iff_right (Nat.le_of_not_lt hge)]
  · rw [orWords, withWordsFrom_mem_iff]
    simpa using @orLoop_changed (a.words.drop (a.indexForBit (.ofNat rhs.offset))) rhs.words 0

theorem mem_orAssign {same : Bool} {a rhs : CoreBitVector} (hsame : same = true → rhs = a) {n : ℕ} :
    n ∈ (a.orAssign same rhs).1 ↔ n ∈ a ∨ n ∈ rhs := by
  rw [orAssign]
  split
  · rename_i hnil
    refine ⟨.inr, fun hor => hor.resolve_left fun hmem => ?_⟩
    simpa [List.eq_nil_of_length_eq_zero hnil] using hmem.2
  · rename_i ha
    split
    · rename_i hnil
      refine ⟨.inl, fun hor => hor.resolve_right fun hmem => ?_⟩
      simpa [List.eq_nil_of_length_eq_zero hnil] using hmem.2
    · rename_i hrhs
      split
      · rename_i hs
        rw [hsame hs, or_self]
      · obtain ⟨hcovers, hmem⟩ := extendOver_spec ha hrhs
        rw [(orWords_spec hcovers).1, hmem]

/-- Where the vector has no words, the flag tells whether the right-hand side has words. -/
theorem orAssign_flag {same : Bool} {a rhs : CoreBitVector} (hsame : same = true → rhs = a) :
    (a.orAssign same rhs).2 = true ↔
      if a.words.length = 0 then rhs.words.length ≠ 0 else ¬ ∀ n ∈ rhs, n ∈ a := by
  rw [orAssign]
  split
  · simp
  · rename_i ha
    split
    · rename_i hnil
      refine iff_of_false Bool.false_ne_true fun hnot => hnot fun n hmem => ?_
      simpa [List.eq_nil_of_length_eq_zero hnil] using hmem.2
    · rename_i hrhs
      split
      · rename_i hs
        rw [hsame hs]
        exact iff_of_false Bool.false_ne_true fun hnot => hnot fun n hmem => hmem
      · obtain ⟨hcovers, hmem⟩ := extendOver_spec ha hrhs
        rw [(orWords_spec hcovers).2]
        refine not_congr (forall_congr' fun n => ?_)
        rw [(orWords_spec hcovers).1, hmem]
        exact or_iff_left_iff_imp

theorem greaterOffset_toNat (a rhs : CoreBitVector) :
    (UInt32.ofNat (max a.offset rhs.offset)).toNat = max a.offset rhs.offset := by
  rw [UInt32.toNat_ofNat', Nat.mod_eq_of_lt (max_lt (offset_lt a) (offset_lt rhs))]

/-- Where one of the vectors cannot hold the greater offset, they have no common bits. -/
theorem disjoint_of_not_canHold {a rhs : CoreBitVector}
    (h : (!a.canHold (.ofNat (max a.offset rhs.offset)) ||
      !rhs.canHold (.ofNat (max a.offset rhs.offset))) = true) {n : ℕ} (hn : n ∈ a) : n ∉ rhs := by
  intro hn'
  have hlt := lt_of_mem hn
  have hlt' := lt_of_mem hn'
  have hle := hn.1
  have hle' := hn'.1
  have hhold : ∀ b : CoreBitVector, b.offset ≤ max a.offset rhs.offset →
      n < b.offset + 64 * b.words.length → b.canHold (.ofNat (max a.offset rhs.offset)) = true := by
    intro b hb hb'
    rw [canHold_iff, greaterOffset_toNat]
    omega
  rw [hhold a (by omega) hlt, hhold rhs (by omega) hlt'] at h
  simp at h

structure Overlap (a rhs : CoreBitVector) (i j : ℕ) : Prop where
  start : a.offset + 64 * i = max a.offset rhs.offset
  start' : rhs.offset + 64 * j = max a.offset rhs.offset
  within : i ≤ a.words.length

theorem overlap_of_canHold {a rhs : CoreBitVector}
    (h : ¬ (!a.canHold (.ofNat (max a.offset rhs.offset)) ||
      !rhs.canHold (.ofNat (max a.offset rhs.offset))) = true) :
    Overlap a rhs (a.indexForBit (.ofNat (max a.offset rhs.offset)))
      (rhs.indexForBit (.ofNat (max a.offset rhs.offset))) := by
  have haligned := a.aligned
  have haligned' := rhs.aligned
  simp only [Bool.or_eq_true, Bool.not_eq_true', not_or, Bool.not_eq_false, canHold_iff,
    greaterOffset_toNat] at h
  constructor <;> simp only [indexForBit, greaterOffset_toNat] <;> omega

theorem Overlap.bits {a rhs : CoreBitVector} {i j n : ℕ} (h : Overlap a rhs i j)
    (hn : max a.offset rhs.offset ≤ n) :
    (bitAt (a.words.drop i) (n - max a.offset rhs.offset) = true ↔ n ∈ a) ∧
      (bitAt (rhs.words.drop j) (n - max a.offset rhs.offset) = true ↔ n ∈ rhs) := by
  have hleft := bitAt_drop_iff (h.start.le.trans hn)
  have hright := bitAt_drop_iff (h.start'.le.trans hn)
  rw [h.start] at hleft
  rw [h.start'] at hright
  exact ⟨hleft, hright⟩

theorem andWords_spec {a rhs : CoreBitVector} {i j : ℕ} (h : Overlap a rhs i j) :
    (∀ n, n ∈ (a.andWords rhs i j).1 ↔ n ∈ a ∧ n ∈ rhs) ∧
      ((a.andWords rhs i j).2 = true ↔ ¬ ∀ n, n ∈ (a.andWords rhs i j).1 ↔ n ∈ a) := by
  have hstart := h.start
  have hlen : (clearLoop (a.words.take i) false).1.length = i := by
    rw [clearLoop_length, List.length_take, min_eq_left h.within]
  constructor
  · intro n
    rw [andWords, mem_withWords, bitAt_append, hlen, bitAt_clearLoop, bitAt_andLoop]
    by_cases hn : max a.offset rhs.offset ≤ n
    · have hk : ¬ n - a.offset < 64 * i := by omega
      have hsub : n - a.offset - 64 * i = n - max a.offset rhs.offset := by omega
      rw [if_neg hk, hsub, Bool.and_eq_true, (h.bits hn).1, (h.bits hn).2, and_iff_right (by omega)]
    · refine iff_of_false (fun hand => ?_) fun hand => hn (max_le hand.1.1 hand.2.1)
      rw [if_pos (by omega)] at hand
      exact Bool.false_ne_true hand.2
  · have hsplit : (clearLoop (a.words.take i) false).1 ++ (andLoop (a.words.drop i) (rhs.words.drop j)
        (clearLoop (a.words.take i) false).2).1 = a.words ↔
        (clearLoop (a.words.take i) false).1 = a.words.take i ∧ (andLoop (a.words.drop i)
          (rhs.words.drop j) (clearLoop (a.words.take i) false).2).1 = a.words.drop i := by
      conv_lhs => rhs; rw [← List.take_append_drop i a.words]
      exact ⟨fun heq => List.append_inj heq (clearLoop_length _ _), fun hand => by rw [hand.1, hand.2]⟩
    rw [andWords, withWords_mem_iff, andLoop_changed, clearLoop_changed, hsplit]
    tauto

theorem clearWords_spec (a : CoreBitVector) : (∀ n, n ∉ a.clearWords.1) ∧
    (a.clearWords.2 = true ↔ ¬ ∀ n, n ∈ a.clearWords.1 ↔ n ∈ a) := by
  constructor
  · intro n
    rw [clearWords, mem_withWords, bitAt_clearLoop]
    exact fun hf => Bool.false_ne_true hf.2
  · rw [clearWords, withWords_mem_iff, clearLoop_changed]
    simp

theorem andAssign_spec (a rhs : CoreBitVector) :
    (∀ n, n ∈ (a.andAssign rhs).1 ↔ n ∈ a ∧ n ∈ rhs) ∧
      ((a.andAssign rhs).2 = true ↔ ¬ ∀ n, n ∈ (a.andAssign rhs).1 ↔ n ∈ a) := by
  rw [andAssign]
  split
  · rename_i h
    refine ⟨fun n => iff_of_false (a.clearWords_spec.1 n) fun hand => ?_, a.clearWords_spec.2⟩
    exact disjoint_of_not_canHold h hand.1 hand.2
  · rename_i h
    exact andWords_spec (overlap_of_canHold h)

theorem minusWords_spec {a rhs : CoreBitVector} {i j : ℕ} (h : Overlap a rhs i j) :
    (∀ n, n ∈ (a.minusWords rhs i j).1 ↔ n ∈ a ∧ n ∉ rhs) ∧
      ((a.minusWords rhs i j).2 = true ↔ ¬ ∀ n, n ∈ (a.minusWords rhs i j).1 ↔ n ∈ a) := by
  constructor
  · intro n
    rw [minusWords, mem_withWordsFrom h.within, h.start, bitAt_minusLoop]
    by_cases hn : max a.offset rhs.offset ≤ n
    · rw [if_neg (Nat.not_lt.mpr hn), Bool.and_eq_true, (h.bits hn).1, Bool.not_eq_true',
        ← (h.bits hn).2, Bool.not_eq_true]
    · rw [if_pos (Nat.lt_of_not_le hn)]
      exact ⟨fun hmem => ⟨hmem, fun hmem' => hn (max_le hmem.1 hmem'.1)⟩, fun hand => hand.1⟩
  · rw [minusWords, withWordsFrom_mem_iff, minusLoop_changed]
    simp

theorem minusAssign_spec (a rhs : CoreBitVector) :
    (∀ n, n ∈ (a.minusAssign rhs).1 ↔ n ∈ a ∧ n ∉ rhs) ∧
      ((a.minusAssign rhs).2 = true ↔ ¬ ∀ n, n ∈ (a.minusAssign rhs).1 ↔ n ∈ a) := by
  rw [minusAssign]
  split
  · rename_i h
    refine ⟨fun n => ⟨fun hn => ⟨hn, disjoint_of_not_canHold h hn⟩, fun hand => hand.1⟩, ?_⟩
    simp
  · rename_i h
    exact minusWords_spec (overlap_of_canHold h)

end CoreBitVector

end SVF.Util.CoreBitVectors
