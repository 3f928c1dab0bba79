import Mathlib
import MmixBackend.Proofs.Instr.Selection
import MmixBackend.Proofs.Register.Validity
import MmixBackend.Proofs.Word

/-!
# Slots of spilled temps

Each spilled temp gets the word below the slots before it. No temp is spilled twice, since a spilled
temp is gone from the code, so there is one slot for each word of the spill area. This stays so
however often a function is allocated and however the allocations end.

## Main statements

- `Code.AllocatedFrom.slotted`: slots lie one below the other.
- `Code.Slotted.areas`: they are disjoint, and lie between the saved registers and the outgoing arguments.
-/

namespace MmixBackend

namespace Code

/-! ## §1 Areas of a frame -/

/-- The bytes of the saved registers, as offsets from the frame pointer. -/
def savedArea (c : Code) : Set Int :=
  Set.Ico (-c.frame.locsSize.toInt - savedRegsSize.toInt) (-c.frame.locsSize.toInt)

/-- The bytes of the outgoing arguments. -/
def outgoingArea (c : Code) : Set Int :=
  Set.Ico (-c.frameSize.toInt) (-c.frameSize.toInt + c.frame.argsSize.toInt)

/-- The bytes of the slots, for one temp after the other. -/
def slotAreas (c : Code) : List (Set Int) :=
  c.spills.toList.map fun slot => Set.Ico slot.2.toInt (slot.2.toInt + Word.byteSize.toInt)

/-- The code `c'` is what any number of allocations have left of `c`, be they finished or not. In between,
temps may be taken for other functions. -/
inductive AllocatedFrom (c : Code) (σ : Supply) : Code → Supply → Prop where
  | start : AllocatedFrom c σ c σ
  | again {c₁ c₂ : Code} {σ₁ σ₂ σ₃ : Supply} {k : Int} {outcome : Except Fault Allocation}
      (before : AllocatedFrom c σ c₁ σ₁) (run : (c₁.allocate k).run σ₁ = ((c₂, outcome), σ₂))
      (later : σ₂.temps ≤ σ₃.temps) : AllocatedFrom c σ c₂ σ₃

/-- The slots of spilled temps lie one below the other: that of `t` is the one with the number
`index t`. -/
structure Slotted (c : Code) (index : Temp → Nat) : Prop where
  tempSize : c.tempSize = .ofNat (8 * c.spills.size)
  slot : ∀ t offset, c.spills[t]? = some offset → index t < c.spills.size ∧
    offset = -c.frame.locsSize - savedRegsSize - .ofNat (8 * (index t + 1))
  injective : ∀ t u, t ∈ c.spills → u ∈ c.spills → index t = index u → t = u

variable {c c' : Code} {σ σ' : Supply} {index : Temp → Nat}

/-! ## §2 Spilling -/

/-- **Spilling a temp that has no slot** gives it the next one. -/
theorem Slotted.spill (h : c.Slotted index) {t : Temp} (ht : t ∉ c.spills) :
    ∃ index', ((c.spill t).run σ).1.1.Slotted index' := by
  obtain ⟨n, l⟩ := σ
  rw [run_spill]
  -- The temp gets the number of the slots so far, which is also how far the area of the slots reaches.
  have hsize : (c.spilled t n).spills.size = c.spills.size + 1 := by
    simp [Code.spilled, Std.TreeMap.size_insert, ht]
  have hnext : c.tempSize + Word.byteSize = .ofNat (8 * (c.spills.size + 1)) := by
    rw [h.tempSize, Nat.mul_succ, Int64.ofNat_add]
    rfl
  have hmem : ∀ u, u ∈ (c.spilled t n).spills → u ≠ t → u ∈ c.spills := by
    intro u hu hne
    simpa [Code.spilled, hne.symm] using hu
  refine ⟨Function.update index t c.spills.size, ?_, fun u offset hu => ?_, fun u v hu hv huv => ?_⟩
  · rw [hsize]
    exact hnext
  · by_cases hut : u = t
    · subst hut
      have hoffset : c.nextSlot = offset := by simpa [Code.spilled] using hu
      rw [Function.update_self, hsize, ← hoffset, nextSlot, hnext]
      exact ⟨Nat.lt_succ_self _, rfl⟩
    · rw [Function.update_of_ne hut, hsize]
      have hold : c.spills[u]? = some offset := by
        simpa [Code.spilled, Std.TreeMap.getElem?_insert, Ne.symm hut] using hu
      obtain ⟨hlt, hoffset⟩ := h.slot u offset hold
      exact ⟨Nat.lt_succ_of_lt hlt, hoffset⟩
  · -- The new number is larger than all others.
    have hold : ∀ u, u ∈ (c.spilled t n).spills → u ≠ t → index u < c.spills.size := by
      intro u hu hne
      have hsome := Std.TreeMap.getElem?_eq_some_getElem (hmem u hu hne)
      exact (h.slot u _ hsome).1
    by_cases hut : u = t
    · by_cases hvt : v = t
      · rw [hut, hvt]
      · rw [hut, Function.update_self, Function.update_of_ne hvt] at huv
        exact absurd huv (Nat.ne_of_gt (hold v hv hvt))
    · by_cases hvt : v = t
      · rw [hvt, Function.update_self, Function.update_of_ne hut] at huv
        exact absurd huv (Nat.ne_of_lt (hold u hu hut))
      · rw [Function.update_of_ne hut, Function.update_of_ne hvt] at huv
        exact h.injective u v (hmem u hu hut) (hmem v hv hvt) huv

theorem Slotted.spillAll (h : c.Slotted index) {ts : List Temp} (hts : ts.Nodup)
    (hnew : ∀ t ∈ ts, t ∉ c.spills) (made : TempSet) :
    ∃ index', ((c.spillAll made ts).run σ).1.1.Slotted index' := by
  induction ts generalizing c σ index made with
  | nil => exact ⟨index, h⟩
  | cons t ts ih =>
    obtain ⟨hnot, hnodup⟩ := List.nodup_cons.mp hts
    obtain ⟨ht, hrest⟩ := List.forall_mem_cons.mp hnew
    obtain ⟨index', h'⟩ := h.spill (σ := σ) ht
    rw [Code.spillAll, run_bind_state]
    refine ih h' hnodup (fun u hu hmem => ?_) _
    rcases mem_spills_spill.mp hmem with rfl | hmem
    · exact hnot hu
    · exact hrest u hu hmem

/-! ## §3 Allocations -/

/-- Whatever each round of spilling keeps, an allocation keeps, however it ends. -/
theorem allocate_keeps {P : Code → Supply → Prop}
    (hround : ∀ c σ k avoid g coloring, c.tryColor k avoid = .ok (g, coloring) → P c σ →
      P ((c.spillAll avoid coloring.spilled).run σ).1.1 ((c.spillAll avoid coloring.spilled).run σ).2)
    (hcolors : ∀ c σ g colors, P c σ → P (c.withColors g colors) σ) {k : Int}
    {outcome : Except Fault Allocation} (hP : P c σ)
    (hrun : (c.allocate k).run σ = ((c', outcome), σ')) : P c' σ' := by
  -- The bounds of the rounds play no part, so the induction is on the fuel.
  have hrounds : ∀ (maxRounds fuel rounds : Nat) (avoid : TempSet) (spilled : List Temp) (c : Code)
      (σ : Supply), P c σ →
      (c.allocateRounds k maxRounds fuel rounds avoid spilled).run σ = ((c', outcome), σ') → P c' σ' := by
    intro maxRounds fuel
    induction fuel with
    | zero =>
      intro rounds avoid spilled c σ hP hrun
      cases hrun
      exact hP
    | succ fuel ih =>
      intro rounds avoid spilled c σ hP hrun
      unfold Code.allocateRounds at hrun
      cases hcolor : c.tryColor k avoid with
      -- Without a colouring the round has changed nothing.
      | error fault =>
        rw [hcolor] at hrun
        cases hrun
        exact hP
      | ok gc =>
        obtain ⟨g, coloring⟩ := gc
        rw [hcolor] at hrun
        simp only at hrun
        by_cases hspilled : coloring.spilled.isEmpty = true
        -- The last round: only the registers are entered.
        · rw [if_pos hspilled] at hrun
          cases hrun
          exact hcolors c _ g coloring.colors hP
        · rw [if_neg hspilled, run_bind_state] at hrun
          exact ih _ _ _ _ _ (hround c σ k avoid g coloring hcolor hP) hrun
  unfold Code.allocate at hrun
  -- With too few or too many registers nothing is tried.
  by_cases hk : k < minRegisters ∨ maxRegisters < k
  · rw [if_pos hk] at hrun
    cases hrun
    exact hP
  · rw [if_neg hk] at hrun
    exact hrounds _ _ _ _ _ _ _ hP hrun

/-- What allocations keep: spilled temps are gone, and their slots lie one below the other. -/
def Tidy (frame : Frame) (c : Code) (σ : Supply) : Prop :=
  c.Settled σ ∧ c.frame = frame ∧ ∃ index, c.Slotted index

/-- New code has no slots. -/
theorem Tidy.new (hsound : c.Sound σ.temps) (hsize : c.tempSize = 0) (hspills : c.spills = ∅) :
    Tidy c.frame c σ := by
  refine ⟨⟨hsound.fp, ?_, fun t ht => ?_⟩, rfl, fun _ => 0, ?_, fun t offset ht => ?_, fun t u ht => ?_⟩
  · rintro t ⟨i, hi, ht⟩
    exact (hsound.fits i hi).temps t (List.mem_append.mpr ht)
  · simp [hspills] at ht
  · rw [hsize, hspills]
    rfl
  · simp [hspills] at ht
  · simp [hspills] at ht

theorem Tidy.round {frame : Frame} (h : Tidy frame c σ) {k : Int} {avoid : TempSet}
    {g : InterferenceGraph} {coloring : Coloring}
    (hcolor : c.tryColor k avoid = .ok (g, coloring)) :
    Tidy frame ((c.spillAll avoid coloring.spilled).run σ).1.1
      ((c.spillAll avoid coloring.spilled).run σ).2 := by
  obtain ⟨hsettled, hframe, index, hslotted⟩ := h
  have hnodup : coloring.spilled.Nodup := by
    obtain ⟨s, -, rfl, rfl⟩ := tryColor_eq_ok hcolor
    exact Coloring.nodup_spilled (InterferenceGraph.wellFormed_build ..) avoid
  refine ⟨hsettled.spillAll hcolor, ?_, hslotted.spillAll hnodup (fun t ht hmem => ?_) avoid⟩
  · exact run_spillAll_induct (P := fun c _ => c.frame = frame) (fun c σ t _ h => h) hframe rfl
  · exact (hsettled.slots t hmem).2.2 (mentions_of_spilled hcolor t ht).2

/-- **Slots lie one below the other** after any number of allocations. -/
theorem AllocatedFrom.slotted (h : c.AllocatedFrom σ c' σ') (hc : Tidy c.frame c σ) :
    Tidy c.frame c' σ' := by
  induction h with
  | start => exact hc
  | again _ hrun hlater ih =>
    have hafter := allocate_keeps (P := Tidy c.frame) (fun c σ k avoid g coloring hcolor h =>
      h.round hcolor)
      (fun c σ g colors h => ⟨h.1.withColors g colors, h.2.1, h.2.2.imp fun _ h => ⟨h.1, h.2, h.3⟩⟩)
        ih hrun
    exact ⟨hafter.1.mono hlater, hafter.2⟩

/-! ## §4 Disjoint areas -/

theorem Slotted.offset (h : c.Slotted index) {locs : Nat} (hlocs : c.frame.locsSize = .ofNat locs)
    (hfits : locs + 16 + 8 * c.spills.size < 2 ^ 63) {t : Temp} {offset : Word}
    (ht : c.spills[t]? = some offset) :
    index t < c.spills.size ∧ offset.toInt = -((locs + 16 + 8 * (index t + 1) : Nat) : Int) := by
  obtain ⟨hlt, rfl⟩ := h.slot t offset ht
  refine ⟨hlt, ?_⟩
  have hsum : -c.frame.locsSize - savedRegsSize - .ofNat (8 * (index t + 1))
      = -Int64.ofNat (locs + 16 + 8 * (index t + 1)) := by
    rw [Int64.ofNat_add, Int64.ofNat_add, Int64.neg_add, Int64.neg_add, hlocs]
    rfl
  rw [hsum]
  exact Word.toInt_neg_ofNat (by rw [Word.bound]; omega)

theorem Slotted.frameSize_eq (h : c.Slotted index) {locs args : Nat}
    (hlocs : c.frame.locsSize = .ofNat locs) (hargs : c.frame.argsSize = .ofNat args)
    (hfits : locs + 16 + 8 * c.spills.size + args < 2 ^ 63) :
    c.frameSize.toInt = (locs + 16 + args + 8 * c.spills.size : Nat) := by
  have hsum : c.frameSize = .ofNat (locs + 16 + args + 8 * c.spills.size) := by
    rw [frameSize, Frame.size, h.tempSize, hlocs, hargs, Int64.ofNat_add, Int64.ofNat_add,
      Int64.ofNat_add]
    rfl
  rw [hsum]
  exact Int64.toInt_ofNat_of_lt (by omega)

/-- Slots are disjoint, and lie below the saved registers. -/
theorem Slotted.slots_disjoint (h : c.Slotted index) {locs : Nat} (hlocs : c.frame.locsSize = .ofNat locs)
    (hfits : locs + 16 + 8 * c.spills.size < 2 ^ 63) :
    c.slotAreas.Pairwise Disjoint ∧ ∀ area ∈ c.slotAreas,
      area ⊆ Set.Ico (-((locs + 16 + 8 * c.spills.size : Nat) : Int)) (-((locs + 16 : Nat) : Int)) := by
  have hword : Word.byteSize.toInt = 8 := rfl
  refine ⟨?_, fun area harea => ?_⟩
  · refine List.pairwise_map.mpr (Std.TreeMap.distinct_keys_toList.imp_of_mem fun {a b} ha hb hne => ?_)
    rw [Std.TreeMap.mem_toList_iff_getElem?_eq_some] at ha hb
    obtain ⟨hlt, hoffset⟩ := h.offset hlocs hfits ha
    obtain ⟨hlt', hoffset'⟩ := h.offset hlocs hfits hb
    have hindex : index a.1 ≠ index b.1 := by
      intro heq
      refine hne (Std.LawfulEqCmp.compare_eq_iff_eq.mpr (h.injective a.1 b.1 ?_ ?_ heq))
      · exact Std.TreeMap.mem_iff_isSome_getElem?.mpr (by rw [ha]; rfl)
      · exact Std.TreeMap.mem_iff_isSome_getElem?.mpr (by rw [hb]; rfl)
    rw [hoffset, hoffset', hword, Set.Ico_disjoint_Ico]
    omega
  · obtain ⟨slot, hslot, rfl⟩ := List.mem_map.mp harea
    rw [Std.TreeMap.mem_toList_iff_getElem?_eq_some] at hslot
    obtain ⟨hlt, hoffset⟩ := h.offset hlocs hfits hslot
    rw [hoffset, hword]
    exact Set.Ico_subset_Ico (by omega) (by omega)

/-- **The saved registers, the outgoing arguments and the slots are disjoint**, and lie below the
locals. -/
theorem Slotted.areas (h : c.Slotted index) {locs args : Nat} (hlocs : c.frame.locsSize = .ofNat locs)
    (hargs : c.frame.argsSize = .ofNat args) (hfits : locs + 16 + 8 * c.spills.size + args < 2 ^ 63) :
    (c.savedArea :: c.outgoingArea :: c.slotAreas).Pairwise Disjoint ∧
      ∀ area ∈ c.savedArea :: c.outgoingArea :: c.slotAreas, area ⊆ Set.Iio (-(locs : Int)) := by
  -- The sizes add up without overflow: from above, locals, saved registers, slots, arguments.
  have hsaved : c.savedArea = Set.Ico (-((locs + 16 : Nat) : Int)) (-(locs : Int)) := by
    have hlocs' : c.frame.locsSize.toInt = locs := by
      rw [hlocs]
      exact Int64.toInt_ofNat_of_lt (by omega)
    have hregs : savedRegsSize.toInt = 16 := rfl
    rw [savedArea, hlocs', hregs]
    congr 1
    omega
  have houtgoing : c.outgoingArea ⊆ Set.Iio (-((locs + 16 + 8 * c.spills.size : Nat) : Int)) := by
    have hargs' : c.frame.argsSize.toInt = args := by
      rw [hargs]
      exact Int64.toInt_ofNat_of_lt (by omega)
    rw [outgoingArea, h.frameSize_eq hlocs hargs hfits, hargs']
    exact Set.Ico_subset_Iio_self.trans (Set.Iio_subset_Iio (by omega))
  obtain ⟨hslots, hbetween⟩ := h.slots_disjoint hlocs (by omega)
  refine ⟨List.pairwise_cons.mpr ⟨List.forall_mem_cons.mpr ⟨?_, fun area harea => ?_⟩,
    List.pairwise_cons.mpr ⟨fun area harea => ?_, hslots⟩⟩, ?_⟩
  · -- The outgoing arguments are below the slots, and these are below the saved registers.
    rw [hsaved]
    refine ((Set.Iio_disjoint_Ici (Int.le_refl _)).mono houtgoing ?_).symm
    exact Set.Ico_subset_Ici_self.trans (Set.Ici_subset_Ici.mpr (by omega))
  · rw [hsaved]
    exact ((Set.Iio_disjoint_Ici (Int.le_refl _)).mono
      ((hbetween area harea).trans Set.Ico_subset_Iio_self) Set.Ico_subset_Ici_self).symm
  · exact (Set.Iio_disjoint_Ici (Int.le_refl _)).mono houtgoing
      ((hbetween area harea).trans Set.Ico_subset_Ici_self)
  · refine List.forall_mem_cons.mpr ⟨?_, List.forall_mem_cons.mpr ⟨?_, fun area harea => ?_⟩⟩
    · rw [hsaved]
      exact Set.Ico_subset_Iio_self
    · exact houtgoing.trans (Set.Iio_subset_Iio (by omega))
    · exact (hbetween area harea).trans (Set.Ico_subset_Iio_self.trans (Set.Iio_subset_Iio (by omega)))

end Code

end MmixBackend
