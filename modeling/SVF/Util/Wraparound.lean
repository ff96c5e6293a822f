import Mathlib.Data.Int.ModEq
import Mathlib.Tactic.Linarith
import Mathlib.Tactic.Ring

namespace SVF.Util.Wraparound

def wrap (m n x : ℤ) : ℤ := m + (x - m) % n

variable {m n x y a b p q : ℤ}

theorem le_wrap (hn : 0 < n) (x : ℤ) : m ≤ wrap m n x := by
  have h := Int.emod_nonneg (x - m) hn.ne'
  unfold wrap
  omega

theorem wrap_lt (hn : 0 < n) (x : ℤ) : wrap m n x < m + n := by
  have h := Int.emod_lt_of_pos (x - m) hn
  unfold wrap
  omega

theorem wrap_of_mem (hm : m ≤ x) (hx : x < m + n) : wrap m n x = x := by
  rw [wrap, Int.emod_eq_of_lt (by omega) (by omega)]
  omega

theorem wrap_congr (h : x ≡ y [ZMOD n]) : wrap m n x = wrap m n y := by
  have hsub : x - m ≡ y - m [ZMOD n] := h.sub_right m
  rw [wrap, wrap, hsub]

theorem wrap_modEq (m n x : ℤ) : wrap m n x ≡ x [ZMOD n] := by
  have h : m + (x - m) % n ≡ m + (x - m) [ZMOD n] := (Int.mod_modEq (x - m) n).add_left m
  rwa [show m + (x - m) = x by ring] at h

theorem wrap_unique (hm : m ≤ y) (hy : y < m + n) (h : x ≡ y [ZMOD n]) : wrap m n x = y := by
  rw [wrap_congr h, wrap_of_mem hm hy]

theorem bmod_eq_wrap {k : ℕ} (hk : 0 < k) (x : ℤ) :
    x.bmod (2 ^ k) = wrap (-2 ^ (k - 1)) (2 ^ k) x := by
  obtain ⟨k, rfl⟩ := Nat.exists_eq_succ_of_ne_zero hk.ne'
  rw [Nat.succ_eq_add_one, Nat.add_sub_cancel]
  have hpos : 0 < 2 ^ (k + 1) := by positivity
  have hle := Int.le_bmod (x := x) hpos
  have hlt := Int.bmod_lt (x := x) hpos
  have hhalf : ((2 ^ (k + 1) : ℕ) : ℤ) = 2 * 2 ^ k := by push_cast; ring
  have hcast : (2 : ℤ) ^ (k + 1) = 2 * 2 ^ k := by ring
  rw [hhalf] at hle hlt
  symm
  apply wrap_unique
  · omega
  · omega
  · have hmod : x.bmod (2 ^ (k + 1)) % ((2 ^ (k + 1) : ℕ) : ℤ) = x % ((2 ^ (k + 1) : ℕ) : ℤ) := Int.bmod_emod
    rw [hhalf, ← hcast] at hmod
    exact hmod.symm

/-- Within one block of `n` numbers, wrapping is a translation. -/
theorem wrap_eq_sub (m n x : ℤ) : wrap m n x = x - n * ((x - m) / n) := by
  have h := Int.emod_add_mul_ediv (x - m) n
  unfold wrap
  linarith

theorem wrap_mono (hn : 0 < n) (hblock : (a - m) / n = (b - m) / n) (ha : a ≤ x) (hx : x ≤ b) :
    wrap m n a ≤ wrap m n x ∧ wrap m n x ≤ wrap m n b := by
  have hle : (a - m) / n ≤ (x - m) / n := Int.ediv_le_ediv hn (by omega)
  have hge : (x - m) / n ≤ (b - m) / n := Int.ediv_le_ediv hn (by omega)
  have hx' : (x - m) / n = (b - m) / n := by omega
  rw [wrap_eq_sub, wrap_eq_sub, wrap_eq_sub, hblock, hx']
  omega

/-- A range that meets two blocks has a number that wraps to the greatest, and one that wraps to the
least. -/
theorem exists_wrap_ends (hn : 0 < n) (hab : a ≤ b) (hblock : (a - m) / n ≠ (b - m) / n) :
    (∃ x, a ≤ x ∧ x ≤ b ∧ wrap m n x = m + n - 1) ∧ ∃ x, a ≤ x ∧ x ≤ b ∧ wrap m n x = m := by
  have hle : (a - m) / n ≤ (b - m) / n := Int.ediv_le_ediv hn (by omega)
  have hlt : (a - m) / n + 1 ≤ (b - m) / n := by omega
  have ha := Int.emod_add_mul_ediv (a - m) n
  have hb := Int.emod_add_mul_ediv (b - m) n
  have ha' := Int.emod_lt_of_pos (a - m) hn
  have ha'' := Int.emod_nonneg (a - m) hn.ne'
  have hb' := Int.emod_nonneg (b - m) hn.ne'
  have hmul : n * ((a - m) / n + 1) ≤ n * ((b - m) / n) := Int.mul_le_mul_of_nonneg_left hlt hn.le
  have hone : n * ((a - m) / n + 1) = n * ((a - m) / n) + n := by ring
  constructor
  · refine ⟨m + n * ((a - m) / n + 1) - 1, by linarith, by linarith, ?_⟩
    apply wrap_unique
    · omega
    · omega
    · exact (Int.modEq_iff_dvd.mpr ⟨-((a - m) / n), by ring⟩)
  · refine ⟨m + n * ((b - m) / n), by linarith, by linarith, ?_⟩
    apply wrap_unique
    · exact le_rfl
    · omega
    · exact (Int.modEq_iff_dvd.mpr ⟨-((b - m) / n), by ring⟩)

theorem wrap_between_iff (hn : 0 < n) (hab : a ≤ b) :
    (∀ x, a ≤ x → x ≤ b → p ≤ wrap m n x ∧ wrap m n x ≤ q) ↔
      if (a - m) / n = (b - m) / n then p ≤ wrap m n a ∧ wrap m n b ≤ q else p ≤ m ∧ m + n - 1 ≤ q := by
  split
  · rename_i hblock
    constructor
    · intro h
      exact ⟨(h a le_rfl hab).1, (h b hab le_rfl).2⟩
    · rintro ⟨hp, hq⟩ x ha hx
      have hmono := wrap_mono hn hblock ha hx
      exact ⟨hp.trans hmono.1, hmono.2.trans hq⟩
  · rename_i hblock
    constructor
    · intro h
      obtain ⟨⟨x, hax, hxb, hx⟩, y, hay, hyb, hy⟩ := exists_wrap_ends hn hab hblock
      exact ⟨hy ▸ (h y hay hyb).1, hx ▸ (h x hax hxb).2⟩
    · rintro ⟨hp, hq⟩ x - -
      have hlt := wrap_lt (m := m) hn x
      exact ⟨hp.trans (le_wrap hn x), by omega⟩

end SVF.Util.Wraparound
