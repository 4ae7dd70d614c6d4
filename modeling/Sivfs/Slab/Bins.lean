/-
# The sizes of the bins

`lib/sivfs_allocator_bins.h` computes the bin of a number of words with `log` and the size
of a bin with `exp`.  `Bins.Exact` says that the two are what they would be in the real
numbers.  Then a bin is large enough for what is put in it, and a region of the size of a
bin belongs to that bin: `1.15 ^ (i + 1)` is never a natural number.

`Bins.Documented` is what the comments promise of the bins whatever the rounding.
-/

import Mathlib.Algebra.Order.Floor.Semifield
import Mathlib.Analysis.SpecialFunctions.Log.Base
import Sivfs.Slab.Malloc

namespace Sivfs
namespace Slab

/-- The bins as they are in the real numbers. -/
structure Bins.Exact (b : Bins) : Prop where
  index : ∀ words, 0 < words → b.index words = ⌊Real.logb 1.15 words⌋₊
  maxsize : ∀ i, b.maxsize i = ⌊(1.15 : ℝ) ^ (i + 1)⌋₊ * wordBytes

/-- There is a bin for all requests up to `PAGE_SIZE`, large sizes have none, and no bin is
large. -/
structure Bins.Documented (b : Bins) : Prop where
  page : ∀ words, 0 < words → words * wordBytes ≤ pageSize →
    b.index words < nbins ∧ words * wordBytes ≤ b.maxsize (b.index words)
  large : ∀ words, 2 ^ 30 ≤ words * wordBytes → nbins ≤ b.index words
  bound : ∀ i < nbins, b.maxsize i < 2 ^ 30

/-- What `sivfs_allocator_bins_get_bin` returns is a bin and its size. -/
theorem Bins.getBin_eq_some {b : Bins} {size i e : ℕ} (h : b.getBin size = .ok (some (i, e))) :
    size % wordBytes = 0 ∧ b.index (size / wordBytes) = i ∧ i < nbins ∧ b.maxsize i = e ∧
      size ≤ e := by
  simp only [getBin] at h
  split_ifs at h with hmod hbin hsize
  · simp at h
  · obtain ⟨rfl, rfl⟩ := Prod.mk.inj (Option.some.inj (Except.ok.inj h))
    exact ⟨by omega, rfl, by omega, rfl, by omega⟩

/-! ### Powers of `1.15` -/

/-- A power of `23 / 20` is not a natural number. -/
theorem pow_ne_nat {n : ℕ} (hn : n ≠ 0) (f : ℕ) : (1.15 : ℝ) ^ n ≠ f := by
  intro h
  have hnat : 23 ^ n = f * 20 ^ n := by
    have : (1.15 : ℝ) = 23 / 20 := by norm_num
    rw [this, div_pow, div_eq_iff (by positivity)] at h
    exact_mod_cast h
  have hodd : Odd (23 ^ n) := Odd.pow (by decide)
  have heven : Even (f * 20 ^ n) := (Even.pow_of_ne_zero (by decide) hn).mul_left f
  rw [hnat] at hodd
  exact (Nat.not_even_iff_odd.2 hodd) heven

/-- The index of a number of words, by its two bounds. -/
theorem floor_logb_eq_iff {w i : ℕ} (hw : 0 < w) :
    ⌊Real.logb 1.15 w⌋₊ = i ↔ (1.15 : ℝ) ^ i ≤ w ∧ (w : ℝ) < 1.15 ^ (i + 1) := by
  have hpos : (0 : ℝ) < w := by exact_mod_cast hw
  have hone : (1 : ℝ) ≤ w := by exact_mod_cast hw
  have hnonneg : 0 ≤ Real.logb 1.15 w := Real.logb_nonneg (by norm_num) hone
  rw [Nat.floor_eq_iff hnonneg, Real.le_logb_iff_rpow_le (by norm_num) hpos,
    Real.logb_lt_iff_lt_rpow (by norm_num) hpos, Real.rpow_natCast]
  norm_cast

namespace Bins.Exact

variable {b : Bins} (h : b.Exact)

include h

/-- A number of words fits in its bin. -/
theorem le_maxsize {w : ℕ} (hw : 0 < w) : w * wordBytes ≤ b.maxsize (b.index w) := by
  rw [h.maxsize]
  refine Nat.mul_le_mul_right _ (Nat.le_floor ?_)
  exact ((floor_logb_eq_iff hw).1 (h.index w hw).symm).2.le

/-- A bin that holds something is the bin of its own size. -/
theorem index_maxsize {w : ℕ} (hw : 0 < w) :
    b.index (b.maxsize (b.index w) / wordBytes) = b.index w := by
  obtain ⟨hle, hlt⟩ := (floor_logb_eq_iff hw).1 (h.index w hw).symm
  have hwle : w ≤ ⌊(1.15 : ℝ) ^ (b.index w + 1)⌋₊ := Nat.le_floor hlt.le
  have hdiv : b.maxsize (b.index w) / wordBytes = ⌊(1.15 : ℝ) ^ (b.index w + 1)⌋₊ := by
    rw [h.maxsize, Nat.mul_div_cancel _ (by decide)]
  have hfloor : (⌊(1.15 : ℝ) ^ (b.index w + 1)⌋₊ : ℝ) < 1.15 ^ (b.index w + 1) :=
    lt_of_le_of_ne (Nat.floor_le (by positivity)) (pow_ne_nat (by omega) _).symm
  rw [hdiv, h.index _ (by omega), floor_logb_eq_iff (by omega)]
  exact ⟨hle.trans (by exact_mod_cast hwle), hfloor⟩

theorem maxsize_lt {i : ℕ} (hi : i < nbins) : b.maxsize i < 10000 := by
  have hpow : (1.15 : ℝ) ^ (i + 1) ≤ 1.15 ^ 51 :=
    pow_le_pow_right₀ (by norm_num) (by rw [nbins] at hi; omega)
  have hfloor : ⌊(1.15 : ℝ) ^ (i + 1)⌋₊ ≤ 1249 := by
    refine Nat.floor_le_of_le (hpow.trans ?_)
    norm_num
  rw [h.maxsize, wordBytes]
  omega

/-- The size of a bin is given that bin. -/
theorem getBin_maxsize {size i e : ℕ} (hpos : 0 < size) (hbin : b.getBin size = .ok (some (i, e))) :
    b.getBin e = .ok (some (i, e)) := by
  obtain ⟨hmod, hi, hlt, he, hle⟩ := Bins.getBin_eq_some hbin
  have hw : 0 < size / wordBytes := by
    rw [wordBytes] at hmod ⊢
    omega
  have hidx : b.index (e / wordBytes) = i := by
    rw [← he, ← hi]
    exact h.index_maxsize hw
  have hemod : e % wordBytes = 0 := by
    rw [← he, h.maxsize]
    exact Nat.mul_mod_left _ _
  rw [getBin, if_neg (by simpa using hemod)]
  simp only [hidx, if_neg (show ¬nbins ≤ i by omega), he, lt_self_iff_false, if_false]

theorem documented : b.Documented where
  page w hw hle := by
    refine ⟨?_, h.le_maxsize hw⟩
    obtain ⟨hlow, -⟩ := (floor_logb_eq_iff hw).1 (h.index w hw).symm
    by_contra hn
    have hpow : (1.15 : ℝ) ^ 51 ≤ 1.15 ^ b.index w :=
      pow_le_pow_right₀ (by norm_num) (by rw [nbins] at hn; omega)
    have hw512 : (w : ℝ) ≤ 512 := by
      rw [wordBytes, pageSize] at hle
      exact_mod_cast (show w ≤ 512 by omega)
    have hbig : (512 : ℝ) < 1.15 ^ 51 := by norm_num
    exact absurd (hpow.trans (hlow.trans hw512)) (not_le.2 hbig)
  large w hle := by
    have hw : 0 < w := by
      rw [wordBytes] at hle
      omega
    obtain ⟨-, hhigh⟩ := (floor_logb_eq_iff hw).1 (h.index w hw).symm
    by_contra hn
    have hpow : (1.15 : ℝ) ^ (b.index w + 1) ≤ 1.15 ^ 51 :=
      pow_le_pow_right₀ (by norm_num) (by rw [nbins] at hn; omega)
    have hw2 : (2000 : ℝ) ≤ w := by
      rw [wordBytes] at hle
      exact_mod_cast (show 2000 ≤ w by omega)
    have hsmall : (1.15 : ℝ) ^ 51 < 2000 := by norm_num
    exact absurd (hw2.trans_lt (hhigh.trans_le hpow)) (not_lt.2 hsmall.le)
  bound i hi := (h.maxsize_lt hi).trans (by norm_num)

end Bins.Exact

/-! ### Bins in integers -/

/-- The first `i` from `i` on whose successor is too large, over at most `n` steps. -/
def logLoop (w : ℕ) : ℕ → ℕ → ℕ
  | 0, i => i
  | n + 1, i => if w * 20 ^ (i + 1) < 23 ^ (i + 1) then i else logLoop w n (i + 1)

/-- The exact bins. -/
def exactBins : Bins where
  index w := logLoop w (7 * w) 0
  maxsize i := 23 ^ (i + 1) / 20 ^ (i + 1) * wordBytes

/-- By induction on the steps that are left, which are enough to pass `w`. -/
theorem logLoop_spec {w n i : ℕ} (hi : 23 ^ i ≤ w * 20 ^ i) (hn : w * 20 ^ (i + n) < 23 ^ (i + n)) :
    23 ^ logLoop w n i ≤ w * 20 ^ logLoop w n i ∧
      w * 20 ^ (logLoop w n i + 1) < 23 ^ (logLoop w n i + 1) := by
  induction n generalizing i with
  | zero => exact absurd hi (not_le.2 hn)
  | succ n ih =>
    rw [logLoop]
    split_ifs with hlt
    · exact ⟨hi, hlt⟩
    · exact ih (not_lt.1 hlt) (by rwa [Nat.add_right_comm])

theorem lt_pow_seven_mul (w : ℕ) : w * 20 ^ (7 * w) < 23 ^ (7 * w) := by
  have hstep : 2 * 20 ^ 7 < 23 ^ 7 := by norm_num
  induction w with
  | zero => simp
  | succ w ih =>
    have h20 : 0 < 20 ^ (7 * w) := by positivity
    have hle : (w + 1) * 20 ^ (7 * w) ≤ 2 * 23 ^ (7 * w) := by
      have hpow : 20 ^ (7 * w) ≤ 23 ^ (7 * w) := Nat.pow_le_pow_left (by norm_num) _
      rw [Nat.add_mul, Nat.one_mul]
      omega
    calc (w + 1) * 20 ^ (7 * (w + 1)) = (w + 1) * 20 ^ (7 * w) * 20 ^ 7 := by ring
      _ ≤ 2 * 23 ^ (7 * w) * 20 ^ 7 := Nat.mul_le_mul_right _ hle
      _ = 23 ^ (7 * w) * (2 * 20 ^ 7) := by ring
      _ < 23 ^ (7 * w) * 23 ^ 7 := Nat.mul_lt_mul_of_pos_left hstep (by positivity)
      _ = 23 ^ (7 * (w + 1)) := by ring

theorem exactBins_exact : exactBins.Exact where
  index w hw := by
    obtain ⟨hlow, hhigh⟩ :=
      logLoop_spec (w := w) (n := 7 * w) (i := 0) (by simpa using Nat.succ_le_of_lt hw)
      (by simpa using lt_pow_seven_mul w)
    have hbase : (1.15 : ℝ) = 23 / 20 := by norm_num
    refine ((floor_logb_eq_iff hw).2 ⟨?_, ?_⟩).symm
    · rw [hbase, div_pow, div_le_iff₀ (by positivity)]
      exact_mod_cast hlow
    · rw [hbase, div_pow, lt_div_iff₀ (by positivity)]
      exact_mod_cast hhigh
  maxsize i := by
    have hbase : (1.15 : ℝ) = 23 / 20 := by norm_num
    rw [hbase, div_pow]
    have hfloor : ⌊((23 ^ (i + 1) : ℕ) : ℝ) / (20 ^ (i + 1) : ℕ)⌋₊ = 23 ^ (i + 1) / 20 ^ (i + 1) :=
      Nat.floor_div_eq_div _ _
    push_cast at hfloor
    rw [hfloor]
    rfl

example : exactBins.getBin 24 = .ok (some (7, 24)) ∧ exactBins.getBin 16408 = .ok none := by
  decide +kernel

end Slab
end Sivfs
