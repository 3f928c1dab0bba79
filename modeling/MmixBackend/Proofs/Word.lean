import MmixBackend.Word
import Mathlib.Data.Int.Basic

/-!
# Arithmetic of machine words

The division of words rounds the quotient of their values towards negative infinity, and the four
sixteen-bit groups of a word add up to it.
-/

namespace MmixBackend.Word

/-- How the floored quotient and remainder come from the truncated ones. -/
theorem floored_of_truncated {a b : Int} (hb : b ≠ 0) :
    (a.fdiv b, a.fmod b) =
      if a.tmod b ≠ 0 ∧ decide (a.tmod b < 0) ≠ decide (b < 0) then (a.tdiv b - 1, a.tmod b + b)
      else (a.tdiv b, a.tmod b) := by
  rw [Int.fdiv_eq_tdiv, Int.fmod_eq_tmod]
  by_cases hzero : a.tmod b = 0
  · have hdvd : b ∣ a := Int.dvd_iff_tmod_eq_zero.mpr hzero
    simp [hdvd, hzero]
  · have hdvd : ¬b ∣ a := fun h => hzero (Int.dvd_iff_tmod_eq_zero.mp h)
    -- The truncated remainder has the sign of the dividend.
    rcases Int.lt_or_le a 0 with ha | ha
    · have hneg : a.tmod b < 0 := by
        have := Int.tmod_nonneg b (show 0 ≤ -a by omega)
        rw [Int.neg_tmod] at this
        omega
      rcases Int.lt_or_gt_of_ne hb with hb | hb
      · have hsign := Int.sign_eq_neg_one_of_neg hb
        have hnat : b.toNat = 0 := Int.toNat_of_nonpos (Int.le_of_lt hb)
        simp [hdvd, hneg, hb, Int.not_le.mpr ha, Int.not_le.mpr hb, hsign, hnat]
      · have hsign := Int.sign_eq_one_of_pos hb
        have habs : (b.natAbs : Int) = b := Int.natAbs_of_nonneg (Int.le_of_lt hb)
        rw [habs]
        simp [hdvd, hzero, hneg, Int.not_lt.mpr (Int.le_of_lt hb), Int.not_le.mpr ha,
          Int.le_of_lt hb, hsign]
    · have hpos : ¬a.tmod b < 0 := Int.not_lt.mpr (Int.tmod_nonneg b ha)
      rcases Int.lt_or_gt_of_ne hb with hb | hb
      · simp [hdvd, hzero, hpos, ha, hb, Int.not_le.mpr hb]
      · simp [hdvd, hpos, ha, Int.not_lt.mpr (Int.le_of_lt hb), Int.le_of_lt hb]

/-- **The division of words is the floored division of their values.** -/
theorem floorDivMod_eq (x : Word) {y : Word} (hy : y ≠ 0) :
    floorDivMod x y = (Int64.ofInt (x.toInt.fdiv y.toInt), Int64.ofInt (x.toInt.fmod y.toInt)) := by
  have hb : y.toInt ≠ 0 := fun h => hy (Int64.toInt_inj.mp h)
  have hq : x / y = Int64.ofInt (x.toInt.tdiv y.toInt) := by
    rw [← Int64.toInt_inj, Int64.toInt_div, Int64.toInt_ofInt]
  have hr : (x % y).toInt = x.toInt.tmod y.toInt := Int64.toInt_mod x y
  have hr' : x % y = Int64.ofInt (x.toInt.tmod y.toInt) := by rw [← hr, Int64.ofInt_toInt]
  have hne : x % y ≠ 0 ↔ x.toInt.tmod y.toInt ≠ 0 := by
    rw [← hr, ne_eq, ne_eq, ← Int64.toInt_inj]
    rfl
  have hlt : ∀ z : Word, z < 0 ↔ z.toInt < 0 := fun z => Int64.lt_iff_toInt_lt
  have h := floored_of_truncated (a := x.toInt) hb
  simp only [floorDivMod, hne, hlt, hr]
  split at h
  · rename_i hc
    rw [if_pos hc]
    simp only [Prod.mk.injEq] at h ⊢
    rw [h.1, h.2, Int64.ofInt_sub, Int64.ofInt_add, hq, hr', Int64.ofInt_toInt]
    exact ⟨rfl, rfl⟩
  · rename_i hc
    rw [if_neg hc]
    simp only [Prod.mk.injEq] at h ⊢
    rw [h.1, h.2]
    exact ⟨hq, hr'⟩

/-- The groups of a word add up to the word. -/
theorem sum_wydes (v : Word) : Int64.ofNat (v.wyde 0) + Int64.ofNat (v.wyde 1 <<< 16)
    + Int64.ofNat (v.wyde 2 <<< 32) + Int64.ofNat (v.wyde 3 <<< 48) = v := by
  have hlt : v.toUInt64.toNat < 2 ^ 64 := v.toUInt64.toNat_lt
  have hsum : v.wyde 0 + v.wyde 1 <<< 16 + v.wyde 2 <<< 32 + v.wyde 3 <<< 48 = v.toUInt64.toNat := by
    simp only [wyde, Nat.shiftLeft_eq, Nat.shiftRight_eq_div_pow, Nat.mul_zero, Nat.pow_zero,
      Nat.div_one, Nat.mul_one, Nat.reduceMul]
    omega
  rw [← Int64.ofNat_add, ← Int64.ofNat_add, ← Int64.ofNat_add, hsum]
  apply Int64.toBitVec_inj.mp
  exact BitVec.ofNat_toNat 64 v.toBitVec

/-- A word that is not negative is that of a size in the range of words. -/
theorem exists_ofNat_of_nonneg {w : Word} (h : 0 ≤ w.toInt) :
    ∃ size : Nat, w = .ofNat size ∧ w.toInt = size := by
  refine ⟨w.toInt.toNat, ?_, (Int.toNat_of_nonneg h).symm⟩
  rw [← Int64.ofInt_eq_ofNat, Int.toNat_of_nonneg h, Int64.ofInt_toInt]

/-- The negative of a size in the range of words. -/
theorem toInt_neg_ofNat {size : Nat} (h : size < bound) : (-Int64.ofNat size).toInt = -(size : Int) := by
  rw [bound] at h
  rw [← Int64.ofInt_eq_ofNat, ← Int64.ofInt_neg]
  exact Int64.toInt_ofInt_of_le (by omega) (by omega)

end MmixBackend.Word
