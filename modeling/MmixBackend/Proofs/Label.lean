import MmixBackend.Supply
import Mathlib.Algebra.Order.Group.Multiset
import Mathlib.Data.Multiset.Range
import Std.Data.String.ToInt

/-!
# Labels taken from a supply

A supply hands out the labels `L1`, `L2`, … one after the other. `Label.Taken lo hi ls` says of the labels
that a pass leaves in its result that they are those handed out while the counter goes from `lo` to `hi`,
each of them once. Parts of a result that are made one after the other add up, whatever the order in which
their labels stand in it.

## Main statements

- `Label.Taken.add`: adjacent parts of a run.
- `Label.Taken.nodup`: no label stands in two places.
-/

namespace MmixBackend.Label

/-- The label with a number. -/
def numbered (n : Int) : Label := "L" ++ toString n

theorem numbered_injective : Function.Injective numbered := fun _ _ h =>
  Int.repr_injective ((String.append_right_inj "L").mp h)

/-- The labels numbered from `lo + 1` to `hi`, each of them once. -/
structure Taken (lo hi : Int) (ls : Multiset Label) : Prop where
  le : lo ≤ hi
  eq : ls = (Multiset.range (hi - lo).toNat).map fun i : Nat => numbered (lo + 1 + i)

namespace Taken

variable {lo hi k : Int} {ls ls' : Multiset Label}

/-- Labels in another order. -/
theorem of_eq (h : Taken lo hi ls) (heq : ls' = ls) : Taken lo hi ls' := heq ▸ h

theorem none (n : Int) : Taken n n 0 := ⟨Int.le_refl n, by simp⟩

theorem next (n : Int) : Taken n (n + 1) {numbered (n + 1)} := by
  refine ⟨by omega, ?_⟩
  have hone : (n + 1 - n).toNat = 1 := by omega
  rw [hone]
  simp

/-- Adjacent parts of a run. -/
theorem add (h : Taken lo k ls) (h' : Taken k hi ls') : Taken lo hi (ls + ls') := by
  have hlo := h.le
  have hhi := h'.le
  refine ⟨by omega, ?_⟩
  have hlength : (hi - lo).toNat = (k - lo).toNat + (hi - k).toNat := by omega
  rw [h.eq, h'.eq, hlength, Multiset.range_add, Multiset.map_add, Multiset.map_map]
  refine congrArg _ (Multiset.map_congr rfl fun i _ => congrArg numbered ?_)
  show k + 1 + i = lo + 1 + (((k - lo).toNat + i : Nat) : Int)
  omega

theorem three (n : Int) : Taken n (n + 3) {numbered (n + 1), numbered (n + 2), numbered (n + 3)} := by
  have h := ((next n).add (next (n + 1))).add (next (n + 1 + 1))
  rw [show n + 1 + 1 = n + 2 by omega, show n + 2 + 1 = n + 3 by omega] at h
  exact h.of_eq (by simp)

theorem nodup (h : Taken lo hi ls) : ls.Nodup := by
  rw [h.eq]
  refine (Multiset.nodup_range _).map fun i j hij => ?_
  have := numbered_injective hij
  omega

theorem mem_iff (h : Taken lo hi ls) {l : Label} : l ∈ ls ↔ ∃ n, lo < n ∧ n ≤ hi ∧ l = numbered n := by
  rw [h.eq, Multiset.mem_map]
  constructor
  · rintro ⟨i, hi, rfl⟩
    rw [Multiset.mem_range] at hi
    exact ⟨lo + 1 + i, by omega, by omega, rfl⟩
  · rintro ⟨n, hlo, hhi, rfl⟩
    refine ⟨(n - lo - 1).toNat, Multiset.mem_range.mpr (by omega), congrArg numbered ?_⟩
    omega

end Taken

end MmixBackend.Label
