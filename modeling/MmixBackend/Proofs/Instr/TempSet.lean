import MmixBackend.Instr.TempSet
import Mathlib.Data.List.Perm.Subperm
import Std.Data.TreeMap

/-!
# The order of temps and the size of sets

Temps are compared by their numbers, so tables keyed by temps obey the laws of ordered tables. A set of
temps is a strictly increasing list, so inclusion bounds the size, and a set of the same size as one
that it contains is equal to it.
-/

namespace MmixBackend

theorem Temp.compare_eq (s t : Temp) : compare s t = compare s.index t.index := rfl

instance : Std.TransOrd Temp where
  eq_swap := by
    intro s t
    rw [Temp.compare_eq, Temp.compare_eq]
    exact Std.OrientedCmp.eq_swap
  isLE_trans := by
    intro s t u hst htu
    rw [Temp.compare_eq] at hst htu ⊢
    exact Std.TransCmp.isLE_trans hst htu

instance : Std.LawfulEqOrd Temp where
  compare_self := by
    intro t
    rw [Temp.compare_eq]
    exact Std.ReflCmp.compare_self
  eq_of_compare := by
    intro s t h
    rw [Temp.compare_eq] at h
    have hindex : s.index = t.index := Std.LawfulEqCmp.eq_of_compare h
    cases s
    cases t
    exact congrArg Temp.mk hindex

namespace TempSet

theorem nodup (s : TempSet) : s.toList.Nodup := by
  refine s.sorted.imp fun {t u} h heq => ?_
  have hlt : t.index < u.index := h
  rw [heq] at hlt
  exact Int.lt_irrefl _ hlt

/-- A set is no larger than a set that contains it. -/
theorem size_le_of_subset {a b : TempSet} (h : ∀ t ∈ a, t ∈ b) : a.size ≤ b.size :=
  (List.subperm_of_subset a.nodup h).length_le

/-- A set that contains a set of at least its size is equal to it. -/
theorem eq_of_subset_of_size_le {a b : TempSet} (h : ∀ t ∈ a, t ∈ b) (hsize : b.size ≤ a.size) :
    a = b := by
  have hperm := (List.subperm_of_subset a.nodup h).perm_of_length_le hsize
  have hlist : a.toList = b.toList := hperm.eq_of_pairwise (fun s t _ _ hst hts => by
    have h₁ : s.index < t.index := hst
    have h₂ : t.index < s.index := hts
    omega) a.sorted b.sorted
  cases a
  cases b
  simp_all

theorem size_lt_of_subset {a b : TempSet} (h : ∀ t ∈ a, t ∈ b) (hne : a ≠ b) : a.size < b.size := by
  rcases Nat.lt_or_ge a.size b.size with hlt | hge
  · exact hlt
  · exact absurd (eq_of_subset_of_size_le h hge) hne

end TempSet

end MmixBackend
