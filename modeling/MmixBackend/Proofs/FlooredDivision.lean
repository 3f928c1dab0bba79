import MmixBackend.Proofs.Machine.Denotation
import MmixBackend.Proofs.Source.Translation
import MmixBackend.Proofs.Word
import Mathlib.Data.Int.ModEq

/-!
# Floored division

The machine divides words by correcting the truncated quotient and remainder. The correction never
leaves the range of words: where it is made there is a remainder, so the divisor is neither 1 nor
-1, and the quotient has at most half the size of the dividend. What does leave the range is a
single quotient, that of the least word and -1.

A cast to characters is a division by 256. Its remainder is a byte, whatever the operand is.

## Main definitions

- `Word.DividesInRange`, `Word.FlooredDivision`: what division does on the way, and what comes of it.
- `Word.charOf`: the remainder of a division by 256.

## Main statements

- `Word.floorDivMod_floored`: all words are divided in this way.
- `Machine.division_floored`: so does the machine divide, and casts to characters give bytes.
-/

namespace MmixBackend

namespace Word

/-! ## §1 Words -/

/-- The truncated division is that of the values, but for the least word and -1, and correcting it
does not wrap around. -/
structure DividesInRange (x y : Word) : Prop where
  quotient : ¬(x = Int64.minValue ∧ y = -1) → (x / y).toInt = x.toInt.tdiv y.toInt
  remainder : (x % y).toInt = x.toInt.tmod y.toInt
  corrected : x % y ≠ 0 → decide (x % y < 0) ≠ decide (y < 0) →
    (x / y - 1).toInt = (x / y).toInt - 1 ∧ (x % y + y).toInt = (x % y).toInt + y.toInt

/-- Quotient and remainder of the division of `x` by `y` rounded towards negative infinity. Only the
quotient of the least word and -1 wraps around. -/
structure FlooredDivision (x y q r : Word) : Prop where
  of_pos : 0 < y.toInt → 0 ≤ r.toInt ∧ r.toInt < y.toInt
  of_neg : y.toInt < 0 → y.toInt < r.toInt ∧ r.toInt ≤ 0
  remainder : r.toInt = x.toInt.fmod y.toInt
  quotient : q = .ofInt (x.toInt.fdiv y.toInt)
  exact : ¬(x = Int64.minValue ∧ y = -1) → q.toInt = x.toInt.fdiv y.toInt
  wraps : x = Int64.minValue → y = -1 → q = Int64.minValue ∧ r = 0
  recovers : q * y + r = x

theorem toInt_range (x : Word) : -(2 ^ 63) ≤ x.toInt ∧ x.toInt < 2 ^ 63 := ⟨x.le_toInt, x.toInt_lt⟩

theorem toInt_ne_zero {x : Word} (h : x ≠ 0) : x.toInt ≠ 0 := fun heq => h (Int64.toInt_inj.mp heq)

/-- With a remainder the divisor is not 1 or -1, so the quotient has at most half the size of the
dividend. -/
theorem natAbs_tdiv_le_half {a b : Int} (hb : b ≠ 0) (hr : a.tmod b ≠ 0) :
    (a.tdiv b).natAbs ≤ a.natAbs / 2 := by
  have hne : b.natAbs ≠ 1 := by
    intro hone
    rcases (show b = 1 ∨ b = -1 by omega) with rfl | rfl <;> simp at hr
  rw [Int.natAbs_tdiv]
  exact Nat.div_le_div_left (by omega) (by decide)

theorem toInt_div {x y : Word} (h : ¬(x = Int64.minValue ∧ y = -1)) :
    (x / y).toInt = x.toInt.tdiv y.toInt := by
  by_cases hx : x = Int64.minValue
  · exact Int64.toInt_div_of_ne_right x y fun hy => h ⟨hx, hy⟩
  · exact Int64.toInt_div_of_ne_left x y hx

theorem corrects_iff (x y : Word) : x % y ≠ 0 ∧ decide (x % y < 0) ≠ decide (y < 0) ↔
    (x % y).toInt ≠ 0 ∧ decide ((x % y).toInt < 0) ≠ decide (y.toInt < 0) := by
  simp only [ne_eq, ← Int64.toInt_inj, Int64.lt_iff_toInt_lt, Int64.toInt_zero]

theorem dividesInRange (x : Word) {y : Word} (hy : y ≠ 0) : x.DividesInRange y where
  quotient := toInt_div
  remainder := Int64.toInt_mod x y
  corrected hr hsign := by
    have hrem := Int64.toInt_mod x y
    have hrange := x.toInt_range
    have hrange' := y.toInt_range
    have hrange'' := (x % y).toInt_range
    have hhalf := natAbs_tdiv_le_half (a := x.toInt) (toInt_ne_zero hy) (hrem ▸ toInt_ne_zero hr)
    -- Without a remainder for the least word and -1 there is no correction.
    have hquot : (x / y).toInt = x.toInt.tdiv y.toInt := toInt_div fun ⟨hx, hy⟩ =>
      hr (by subst hx hy; rfl)
    have hsign' := decide_eq_decide.not.mp ((corrects_iff x y).mp ⟨hr, hsign⟩).2
    constructor
    · rw [Int64.toInt_sub, hquot]
      exact Int.bmod_eq_of_le (by rw [Int64.toInt_one]; omega) (by rw [Int64.toInt_one]; omega)
    · rw [Int64.toInt_add]
      exact Int.bmod_eq_of_le (by omega) (by omega)

theorem fmod_bounds_of_neg (a : Int) {b : Int} (hb : b < 0) : b < a.fmod b ∧ a.fmod b ≤ 0 := by
  have hneg : a.fmod b = -((-a).fmod (-b)) := by rw [Int.neg_fmod_neg, Int.neg_neg]
  have hnonneg := Int.fmod_nonneg_of_pos (-a) (show 0 < -b by omega)
  have hlt := Int.fmod_lt_of_pos (-a) (show 0 < -b by omega)
  omega

/-- **Words are divided with the quotient rounded towards negative infinity.** -/
theorem floorDivMod_floored (x : Word) {y : Word} (hy : y ≠ 0) :
    x.FlooredDivision y (x.floorDiv y) (x.floorMod y) := by
  have heq := floorDivMod_eq x hy
  have hq : x.floorDiv y = .ofInt (x.toInt.fdiv y.toInt) := congrArg Prod.fst heq
  have hr : x.floorMod y = .ofInt (x.toInt.fmod y.toInt) := congrArg Prod.snd heq
  have hrange := x.toInt_range
  have hrange' := y.toInt_range
  have hpos := fun h : 0 < y.toInt =>
    And.intro (Int.fmod_nonneg_of_pos x.toInt h) (Int.fmod_lt_of_pos x.toInt h)
  have hneg := fun h : y.toInt < 0 => fmod_bounds_of_neg x.toInt h
  -- The remainder lies between zero and the divisor, so it is in the range of words.
  have hrem : (x.floorMod y).toInt = x.toInt.fmod y.toInt := by
    have hne := toInt_ne_zero hy
    rw [hr]
    rcases Int.lt_or_gt_of_ne hne with h | h
    · have := hneg h
      exact Int64.toInt_ofInt_of_le (by omega) (by omega)
    · have := hpos h
      exact Int64.toInt_ofInt_of_le (by omega) (by omega)
  refine ⟨fun h => hrem ▸ hpos h, fun h => hrem ▸ hneg h, hrem, hq, fun hnot => ?_, ?_, ?_⟩
  -- But for the overflow the machine truncates, and the correction is the one that truncated
  -- quotients need.
  · have hdiv := toInt_div hnot
    have hfloored := congrArg Prod.fst (floored_of_truncated (a := x.toInt) (toInt_ne_zero hy))
    rw [← hdiv, ← (x.dividesInRange hy).remainder] at hfloored
    rw [floorDiv, floorDivMod]
    by_cases hc : x % y ≠ 0 ∧ decide (x % y < 0) ≠ decide (y < 0)
    · rw [if_pos ((corrects_iff x y).mp hc)] at hfloored
      rw [if_pos hc]
      exact ((x.dividesInRange hy).corrected hc.1 hc.2).1.trans hfloored.symm
    · rw [if_neg (mt (corrects_iff x y).mpr hc)] at hfloored
      rw [if_neg hc]
      exact hfloored.symm
  · rintro rfl rfl
    exact ⟨rfl, rfl⟩
  · calc x.floorDiv y * y + x.floorMod y
        = .ofInt (x.toInt.fdiv y.toInt) * .ofInt y.toInt + .ofInt (x.toInt.fmod y.toInt) := by
          rw [hq, hr, Int64.ofInt_toInt]
      _ = .ofInt (x.toInt.fdiv y.toInt * y.toInt + x.toInt.fmod y.toInt) := by
        rw [Int64.ofInt_add, Int64.ofInt_mul]
      _ = x := by rw [Int.fdiv_mul_add_fmod, Int64.ofInt_toInt]

/-- What a cast to characters makes of a word. -/
def charOf (v : Word) : Word := v.floorMod 256

/-- **The remainder of a division by 256 is a byte.** -/
theorem charOf_byte (v : Word) : 0 ≤ v.charOf.toInt ∧ v.charOf.toInt ≤ 255 ∧
    v.charOf.toInt ≡ v.toInt [ZMOD 256] := by
  have hfloored := v.floorDivMod_floored (show (256 : Word) ≠ 0 by decide)
  obtain ⟨hnonneg, hlt⟩ := hfloored.of_pos (by decide)
  refine ⟨hnonneg, Int.le_of_lt_add_one hlt, ?_⟩
  have hmod : v.charOf.toInt = v.toInt % 256 :=
    hfloored.remainder.trans (Int.fmod_eq_emod_of_nonneg _ (by decide))
  rw [hmod]
  exact Int.mod_modEq _ _

end Word

/-! ## §2 The machine -/

namespace Source.Generation

/-- The code of a cast is that of its operand, in a division if the cast is one to characters. -/
theorem expr_cast_ensures (frame : Frame) (m : Mark) (arg : Expr) (type : TypeExpr) (w : Workspace) :
    Ensures (expr frame (.cast m arg type)) w fun c w' =>
      ∃ a w₁, (expr frame arg).run.run w = (.ok a, w₁) ∧ CastCode w'.attrs type a c := by
  rw [expr]
  refine Ensures.bind (fun a w₁ hrun => hrun) fun a w₁ harg => ?_
  refine (cast_ensures ⟨rfl⟩ type a).bind fun c w₂ ⟨hw, hcast⟩ => ?_
  subst hw
  -- Recording the code leaves the types as they are.
  intro c' w' hset
  cases hset
  refine ⟨a, w₂, harg, ?_⟩
  cases hcast with
  | char htype hchar => exact .char htype hchar
  | other hother => exact .other hother

end Source.Generation

namespace Machine

theorem evaluation_charCast (m : Machine) (a : IR.Expr) :
    evaluation m (.binop .mod a (.const 256)) = (do let v ← evaluation m a; return v.charOf) := by
  rw [evaluation_binop, evaluation_const]
  refine bind_congr fun v => ?_
  rw [pure_bind, applyBinary, if_neg (by decide)]
  rfl

open Source Source.Generation

/-- **The machine divides all words with the quotient rounded towards negative infinity**, and
without leaving the range of words but for a single quotient. The code of a cast to characters does
what the operand does, and its value is the byte that is congruent to that of the operand. -/
theorem division_floored :
    (∀ x y : Word, y ≠ 0 → x.DividesInRange y ∧ ∃ q r, x.floorDivMod y = (q, r) ∧
      x.FlooredDivision y q r ∧
      applyBinary .div x y = .ok q ∧ applyBinary .mod x y = .ok r) ∧
    (∀ (frame : Frame) (mark : Mark) (arg : Expr) (type : TypeExpr) (w w' : Workspace)
      (code : IR.Expr) (ty : Ty),
      (expr frame (.cast mark arg type)).run.run w = (.ok code, w') →
      w'.attrs.isType[type.mark.id]? = some ty →
      ty.isChar w'.attrs.typeDefs = true → ∃ a w₁, (expr frame arg).run.run w = (.ok a, w₁) ∧
        ∀ m : Machine, evaluation m code = (do let v ← evaluation m a; return v.charOf)) ∧
    ∀ v : Word, 0 ≤ v.charOf.toInt ∧ v.charOf.toInt ≤ 255 ∧ v.charOf.toInt ≡ v.toInt [ZMOD 256] := by
  refine ⟨fun x y hy => ?_, fun frame mark arg type w w' code ty hrun htype hchar => ?_, Word.charOf_byte⟩
  · exact ⟨x.dividesInRange hy, _, _, rfl, x.floorDivMod_floored hy, if_neg hy, if_neg hy⟩
  · obtain ⟨a, w₁, harg, hcast⟩ := expr_cast_ensures frame mark arg type w code w' hrun
    refine ⟨a, w₁, harg, fun m => ?_⟩
    cases hcast with
    | char => exact evaluation_charCast m a
    | other hother =>
      rw [hother ty htype] at hchar
      cases hchar

/-- The division of -7 by 2, and the code of -7 cast to a character. -/
theorem division_floored_minusSeven :
    Word.FlooredDivision (-7) 2 (-4) 1 ∧ Word.FlooredDivision Int64.minValue (-1) Int64.minValue 0 ∧
    ∃ (mark : Mark) (type : TypeExpr) (w w' : Workspace) (code a : IR.Expr),
      (expr default (.cast mark (.atom mark .int "-7") type)).run.run w = (.ok code, w') ∧
        (∀ m : Machine, evaluation m code = (do let v ← evaluation m a; return v.charOf)) ∧
          Word.charOf (-7) = 249 := by
  obtain ⟨hdivides, hcast, -⟩ := division_floored
  obtain ⟨-, q, r, hqr, hfloored, -⟩ := hdivides (-7) 2 (by decide)
  obtain ⟨-, q', r', hqr', hfloored', -⟩ := hdivides Int64.minValue (-1) (by decide)
  cases hqr
  cases hqr'
  let mark : Mark := ⟨1, default⟩
  let type : TypeExpr := ⟨⟨2, default⟩, "char"⟩
  let w : Workspace := { attrs := { isType := ({} : Std.TreeMap NodeId Ty).insert 2 .char } }
  obtain ⟨a, w₁, -, hcode⟩ := hcast default mark (.atom mark .int "-7") type w _ _ .char rfl rfl rfl
  exact ⟨hfloored, hfloored', mark, type, w, _, _, a, rfl, hcode, by decide⟩

end Machine

end MmixBackend
