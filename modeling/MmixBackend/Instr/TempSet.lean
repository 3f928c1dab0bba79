import MmixBackend.Supply

/-!
# Sets of temps

A set of temps is kept as the strictly increasing list of its elements, so two sets with the same
elements are equal and listings show the elements in increasing order.
-/

namespace MmixBackend

/-- A finite set of temps. -/
structure TempSet where
  /-- The elements in increasing order. -/
  toList : List Temp
  sorted : toList.Pairwise (· < ·) := by exact List.Pairwise.nil

namespace TempSet

theorem lt_trans {s t u : Temp} (h : s < t) (k : t < u) : s < u :=
  Int.lt_trans (show s.index < t.index from h) (show t.index < u.index from k)

theorem eq_of_not_lt {s t : Temp} (h : ¬s < t) (k : ¬t < s) : s = t := by
  have h' : ¬s.index < t.index := h
  have k' : ¬t.index < s.index := k
  have : s.index = t.index := by omega
  cases s; cases t; simp_all

/-- Inserts a temp into an increasing list. -/
def insertSorted (t : Temp) : List Temp → List Temp
  | [] => [t]
  | u :: us => if t < u then t :: u :: us else if u < t then u :: insertSorted t us else u :: us

theorem mem_insertSorted {t x : Temp} {us : List Temp} :
    x ∈ insertSorted t us ↔ x = t ∨ x ∈ us := by
  induction us with
  | nil => simp [insertSorted]
  | cons u us ih =>
    unfold insertSorted
    split
    · simp
    · split
      · simp [ih, or_left_comm]
      · rename_i h k
        have : u = t := eq_of_not_lt k h
        subst this
        simp

theorem sorted_insertSorted {t : Temp} {us : List Temp} (h : us.Pairwise (· < ·)) :
    (insertSorted t us).Pairwise (· < ·) := by
  induction us with
  | nil => simp [insertSorted]
  | cons u us ih =>
    have ⟨hu, hus⟩ := List.pairwise_cons.mp h
    unfold insertSorted
    split
    · rename_i htu
      exact List.pairwise_cons.mpr ⟨fun x hx => by
        rcases List.mem_cons.mp hx with rfl | hx
        · exact htu
        · exact lt_trans htu (hu x hx), h⟩
    · split
      · rename_i hut
        refine List.pairwise_cons.mpr ⟨fun x hx => ?_, ih hus⟩
        rcases mem_insertSorted.mp hx with rfl | hx
        · exact hut
        · exact hu x hx
      · exact h

instance : EmptyCollection TempSet := ⟨{ toList := [] }⟩

instance : Inhabited TempSet := ⟨∅⟩

instance : Membership Temp TempSet := ⟨fun s t => t ∈ s.toList⟩

instance (t : Temp) (s : TempSet) : Decidable (t ∈ s) :=
  inferInstanceAs (Decidable (t ∈ s.toList))

instance : DecidableEq TempSet := fun a b =>
  decidable_of_iff (a.toList = b.toList) ⟨fun h => by cases a; cases b; simp_all, fun h => by rw [h]⟩

/-- The set with a temp added. -/
def insert (s : TempSet) (t : Temp) : TempSet :=
  ⟨insertSorted t s.toList, sorted_insertSorted s.sorted⟩

/-- The set of the temps of a list. -/
def ofList (ts : List Temp) : TempSet := ts.foldl insert ∅

/-- Adds the elements of an increasing list to an increasing list, given how to add the elements
that remain behind `t`. -/
def mergeHead (t : Temp) (rest : List Temp → List Temp) : List Temp → List Temp
  | [] => t :: rest []
  | u :: us =>
    if t < u then t :: rest (u :: us)
    else if u < t then u :: mergeHead t rest us
    else t :: rest us

/-- Merges two increasing lists into one. -/
def mergeSorted : List Temp → List Temp → List Temp
  | [] => id
  | t :: ts => mergeHead t (mergeSorted ts)

theorem mem_mergeSorted {x : Temp} {ts us : List Temp} :
    x ∈ mergeSorted ts us ↔ x ∈ ts ∨ x ∈ us := by
  induction ts generalizing us with
  | nil => simp [mergeSorted]
  | cons t ts ih =>
    unfold mergeSorted
    induction us with
    | nil => simp [mergeHead, ih]
    | cons u us ihu =>
      unfold mergeHead
      split
      · simp [ih, or_assoc]
      · split
        · simp only [List.mem_cons, ihu]
          grind
        · rename_i h k
          have : t = u := eq_of_not_lt h k
          subst this
          simp only [List.mem_cons, ih]
          grind

theorem sorted_mergeSorted {ts us : List Temp} (ht : ts.Pairwise (· < ·))
    (hu : us.Pairwise (· < ·)) : (mergeSorted ts us).Pairwise (· < ·) := by
  induction ts generalizing us with
  | nil => simpa [mergeSorted] using hu
  | cons t ts ih =>
    have ⟨ht₁, ht₂⟩ := List.pairwise_cons.mp ht
    unfold mergeSorted
    induction us with
    | nil =>
      unfold mergeHead
      refine List.pairwise_cons.mpr ⟨fun x hx => ?_, ih ht₂ List.Pairwise.nil⟩
      rcases mem_mergeSorted.mp hx with hx | hx
      · exact ht₁ x hx
      · cases hx
    | cons u us ihu =>
      have ⟨hu₁, hu₂⟩ := List.pairwise_cons.mp hu
      unfold mergeHead
      split
      · rename_i htu
        refine List.pairwise_cons.mpr ⟨fun x hx => ?_, ih ht₂ hu⟩
        rcases mem_mergeSorted.mp hx with hx | hx
        · exact ht₁ x hx
        · rcases List.mem_cons.mp hx with rfl | hx
          · exact htu
          · exact lt_trans htu (hu₁ x hx)
      · split
        · rename_i hut
          refine List.pairwise_cons.mpr ⟨fun x hx => ?_, ihu hu₂⟩
          have hx' : x ∈ mergeSorted (t :: ts) us := hx
          rcases mem_mergeSorted.mp hx' with hx | hx
          · rcases List.mem_cons.mp hx with rfl | hx
            · exact hut
            · exact lt_trans hut (ht₁ x hx)
          · exact hu₁ x hx
        · rename_i h k
          have : t = u := eq_of_not_lt h k
          subst this
          refine List.pairwise_cons.mpr ⟨fun x hx => ?_, ih ht₂ hu₂⟩
          rcases mem_mergeSorted.mp hx with hx | hx
          · exact ht₁ x hx
          · exact hu₁ x hx

/-- The union of two sets. -/
def union (a b : TempSet) : TempSet :=
  ⟨mergeSorted a.toList b.toList, sorted_mergeSorted a.sorted b.sorted⟩

instance : Union TempSet := ⟨union⟩

/-- The elements of a set that satisfy a test. -/
def filter (keep : Temp → Bool) (s : TempSet) : TempSet :=
  ⟨s.toList.filter keep, s.sorted.filter keep⟩

/-- The elements of `a` that are not elements of `b`. -/
def diff (a b : TempSet) : TempSet := a.filter (· ∉ b)

instance : SDiff TempSet := ⟨diff⟩

/-- The set without one temp. -/
def erase (s : TempSet) (t : Temp) : TempSet := s.filter (· ≠ t)

/-- The number of elements. -/
def size (s : TempSet) : Nat := s.toList.length

/-- Sets are written with their elements in increasing order between braces. -/
def text (s : TempSet) : String :=
  "\x7b" ++ String.intercalate "," (s.toList.map Temp.text) ++ "\x7d"

/-! ### Membership -/

@[simp] theorem not_mem_empty (t : Temp) : t ∉ (∅ : TempSet) := List.not_mem_nil

@[simp] theorem mem_insert {s : TempSet} {t x : Temp} : x ∈ s.insert t ↔ x = t ∨ x ∈ s :=
  mem_insertSorted

@[simp] theorem mem_union {a b : TempSet} {x : Temp} : x ∈ a ∪ b ↔ x ∈ a ∨ x ∈ b :=
  mem_mergeSorted

@[simp] theorem mem_filter {keep : Temp → Bool} {s : TempSet} {x : Temp} :
    x ∈ s.filter keep ↔ x ∈ s ∧ keep x = true := List.mem_filter

@[simp] theorem mem_diff {a b : TempSet} {x : Temp} : x ∈ a \ b ↔ x ∈ a ∧ x ∉ b := by
  show x ∈ a.filter _ ↔ _
  simp

@[simp] theorem mem_erase {s : TempSet} {t x : Temp} : x ∈ s.erase t ↔ x ∈ s ∧ x ≠ t := by
  show x ∈ s.filter _ ↔ _
  simp

theorem mem_ofList {ts : List Temp} {x : Temp} : x ∈ ofList ts ↔ x ∈ ts := by
  suffices h : ∀ s : TempSet, x ∈ ts.foldl insert s ↔ x ∈ s ∨ x ∈ ts by
    simpa [ofList] using h ∅
  intro s
  induction ts generalizing s with
  | nil => simp
  | cons t ts ih =>
    simp only [List.foldl_cons, ih, mem_insert, List.mem_cons]
    grind

end TempSet

end MmixBackend
