import MmixBackend.Text.Numeral

/-!
# Decimal texts of words

The decimal text of a word is read back as the same word. Integer constants are kept by such texts
from the reader to the generation of code.

## Main statements

- `readWord_text`: reading undoes writing.
- `readWord_eq_ok_iff`: which texts of decimal digits are words.
-/

namespace MmixBackend.Text

theorem digitValue_digitChar : ∀ d < 10, digitValue (Nat.digitChar d) = some d := by
  decide

/-- Digits are read from left to right. -/
theorem readDigits_append {base acc n : Nat} {cs cs' : List Char}
    (h : readDigits base false acc cs = .ok n) :
    readDigits base false acc (cs ++ cs') = readDigits base false n cs' := by
  induction cs generalizing acc with
  | nil =>
    cases h
    rfl
  | cons c cs ih =>
    simp only [readDigits, List.cons_append, Bool.false_eq_true, false_and, if_false] at h ⊢
    split at h
    · cases h
    · split at h
      · cases h
      · split at h
        · cases h
        · next hbase hrange =>
          simp only [hbase, hrange, if_false]
          exact ih h

theorem readDigits_digitChar {acc d : Nat} (hd : d < 10) (h : acc * 10 + d < 2 * Word.bound) :
    readDigits 10 false acc [Nat.digitChar d] = .ok (acc * 10 + d) := by
  simp only [readDigits, digitValue_digitChar d hd, Bool.false_eq_true, false_and, if_false]
  rw [if_neg (by omega), if_neg (by omega)]

/-- The digits of a number are read back. -/
theorem readDigits_toDigits {n : Nat} (h : n < 2 * Word.bound) :
    readDigits 10 false 0 (Nat.toDigits 10 n) = .ok n := by
  induction n using Nat.strongRecOn with
  | ind n ih =>
    rw [Nat.toDigits_eq_if (by decide)]
    split
    · next hlt => simpa using readDigits_digitChar hlt (show 0 * 10 + n < 2 * Word.bound by omega)
    · next hge =>
      rw [readDigits_append (ih (n / 10) (by omega) (by omega)),
        readDigits_digitChar (Nat.mod_lt _ (by decide)) (by omega)]
      congr 1
      omega

theorem readUnsigned_toDigits {n : Nat} (h : n < 2 * Word.bound) :
    readUnsigned (.fixed 10) (Nat.toDigits 10 n) = .ok n := by
  unfold readUnsigned
  rw [if_neg (by simp)]
  exact readDigits_toDigits h

/-- **Reading undoes writing.** -/
theorem readWord_text (v : Word) : readWord (.fixed 10) v.text = .ok v := by
  have hlt := v.toInt_lt
  have hle := v.le_toInt
  unfold Word.text readWord
  rw [Int.toString_eq_repr]
  cases hv : v.toInt with
  | ofNat m =>
    have hbound : m < Word.bound := by
      rw [hv] at hlt
      exact Int.ofNat_lt.mp hlt
    have hchars : (Int.repr (.ofNat m)).toList = Nat.toDigits 10 m := Nat.toList_repr
    -- The first digit is no sign.
    obtain ⟨c, cs, hcs⟩ := List.exists_cons_of_ne_nil (Nat.toDigits_ne_nil (n := m) (b := 10))
    have hdigit : c.isDigit := Nat.isDigit_of_mem_toDigits (by decide) (by decide)
      (hcs ▸ List.mem_cons_self)
    -- A digit is neither sign, so the whole text is read as a natural number.
    have hminus : c ≠ '-' := by
      rintro rfl
      exact absurd hdigit (by decide)
    have hplus : c ≠ '+' := by
      rintro rfl
      exact absurd hdigit (by decide)
    have hread := readUnsigned_toDigits (n := m) (by omega)
    have hword : Int64.ofNat m = v := by
      rw [← Int64.ofInt_toInt v, hv]
      rfl
    rw [hchars]
    rw [hcs] at hread ⊢
    simp [hminus, hplus, hread, hword, Nat.not_le.mpr hbound]
  -- The sign is read first, and the rest is the absolute value, which may be `2 ^ 63`.
  | negSucc m =>
    have hbound : m + 1 ≤ Word.bound := by
      rw [hv] at hle
      have : (-(2 : Int) ^ 63) ≤ -((m + 1 : Nat) : Int) := hle
      show m + 1 ≤ 2 ^ 63
      omega
    have hchars : (Int.repr (.negSucc m)).toList = '-' :: Nat.toDigits 10 (m + 1) := by
      show ("-" ++ Nat.repr (m + 1)).toList = _
      rw [String.toList_append, Nat.toList_repr]
      rfl
    have hword : Int64.ofInt (-((m + 1 : Nat) : Int)) = v := by
      rw [← Int64.ofInt_toInt v, hv]
      rfl
    have hread := readUnsigned_toDigits (n := m + 1) (by omega)
    rw [hchars]
    simp only [hread, if_true]
    rw [if_neg (by omega), hword]

/-! ## Texts of digits -/

theorem digitValue_of_isDigit {c : Char} (h : c.isDigit) : digitValue c = some (c.toNat - '0'.toNat) := by
  rw [Char.isDigit, Bool.and_eq_true, decide_eq_true_eq, decide_eq_true_eq] at h
  exact if_pos h

theorem toNat_sub_lt_of_isDigit {c : Char} (h : c.isDigit) : c.toNat - '0'.toNat < 10 := by
  rw [Char.isDigit, Bool.and_eq_true, decide_eq_true_eq, decide_eq_true_eq] at h
  have : c.toNat ≤ '9'.toNat := h.2
  have h9 : '9'.toNat = 57 := rfl
  have h0 : '0'.toNat = 48 := rfl
  omega

theorem le_ofDigitChars (cs : List Char) (n : Nat) : n ≤ Nat.ofDigitChars 10 cs n := by
  induction cs generalizing n with
  | nil => exact Nat.le_refl n
  | cons c cs ih =>
    rw [Nat.ofDigitChars_cons]
    exact Nat.le_trans (by omega) (ih _)

/-- Decimal digits denote their value, if it is not too large. -/
theorem readDigits_of_isDigit {cs : List Char} (h : ∀ c ∈ cs, c.isDigit) {n : Nat}
    (hn : n < 2 * Word.bound) :
    readDigits 10 false n cs =
      if Nat.ofDigitChars 10 cs n < 2 * Word.bound then .ok (Nat.ofDigitChars 10 cs n) else
        .error .range := by
  induction cs generalizing n with
  | nil => exact (if_pos hn).symm
  | cons c cs ih =>
    obtain ⟨hc, hcs⟩ := List.forall_mem_cons.mp h
    have hlt := toNat_sub_lt_of_isDigit hc
    simp only [readDigits, digitValue_of_isDigit hc, Bool.false_eq_true, false_and, if_false]
    rw [if_neg (Nat.not_le.mpr hlt), Nat.ofDigitChars_cons, Nat.mul_comm n 10]
    split
    · next hle =>
      rw [if_neg (Nat.not_lt.mpr (Nat.le_trans hle (le_ofDigitChars cs _)))]
    · next hle => exact ih hcs (Nat.not_le.mp hle)

/-- A numeral that starts with a digit has no sign. -/
theorem readWord_of_isDigit {c : Char} (hc : c.isDigit) (radix : Radix) (cs : List Char) :
    readWord radix (String.ofList (c :: cs)) = (readUnsigned radix (c :: cs)).bind fun n =>
      if Word.bound ≤ n then .error .range else .ok (Int64.ofNat n) := by
  have hminus : c ≠ '-' := fun heq => absurd (heq ▸ hc) (by decide)
  have hplus : c ≠ '+' := fun heq => absurd (heq ▸ hc) (by decide)
  unfold readWord
  rw [String.toList_ofList]
  cases hread : readUnsigned radix (c :: cs) <;> simp [hminus, hplus, hread, Except.bind]

/-- **A text of decimal digits** is a numeral if it is not empty and its value is a word. -/
theorem readWord_eq_ok_iff {cs : List Char} (h : ∀ c ∈ cs, c.isDigit) {n : Word} :
    readWord (.fixed 10) (String.ofList cs) = .ok n ↔
      cs ≠ [] ∧ Nat.ofDigitChars 10 cs 0 < Word.bound ∧ n = Int64.ofNat (Nat.ofDigitChars 10 cs 0) := by
  cases cs with
  | nil => exact iff_of_false (fun h => by cases h) fun h => h.1 rfl
  | cons c cs =>
    have hread : readUnsigned (.fixed 10) (c :: cs) = readDigits 10 false 0 (c :: cs) := rfl
    rw [readWord_of_isDigit (h c List.mem_cons_self), hread, readDigits_of_isDigit h (by decide)]
    generalize Nat.ofDigitChars 10 (c :: cs) 0 = v
    have hbound : v < Word.bound → v < 2 * Word.bound := by omega
    by_cases hv : v < Word.bound
    · rw [if_pos (hbound hv), Except.bind, if_neg (Nat.not_le.mpr hv), Except.ok.injEq, eq_comm]
      simp [hv]
    · refine iff_of_false (fun heq => ?_) fun h => hv h.2.1
      split at heq
      · rw [Except.bind, if_pos (Nat.not_lt.mp hv)] at heq
        cases heq
      · cases heq

end MmixBackend.Text
