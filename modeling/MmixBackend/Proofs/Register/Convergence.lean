import MmixBackend.Proofs.Register.Windows

/-!
# Allocation comes to an end

If no instruction uses more than `k` temps or defines more than `k - 1`, the frame pointer apart, then
allocation with `k` registers succeeds. Temps made for spill code keep to their windows, so none of them
is ever spilled. So each round before the last one spills temps that the code had from the beginning,
and spilled temps do not come back.

## Main statements

- `Instr.Around.block`: the block that spilling makes of one instruction.
- `Spillable.spillList`: spilling keeps what allocation needs.
- `allocate_converges`: allocation succeeds, with a bound on the number of rounds.
-/

namespace MmixBackend

open InterferenceGraph

namespace Instr

/-! ## §1 The block of an instruction -/

/-- Where the new temps are born: the value with the last load, or with the instruction itself. -/
def birth (value off₂ : Temp) (a : Nat) (u : Temp) : Nat :=
  if u = value then a - 1 else if u = off₂ then a + 1 else 0

/-- Where the new temps are used last. -/
def death (value off₁ off₂ : Temp) (a b : Nat) (u : Temp) : Nat :=
  if u = value ∨ u = off₂ then a + b else if u = off₁ then a - 1 else 0

theorem lifetime_value (value off₁ off₂ : Temp) (a b : Nat) :
    birth value off₂ a value = a - 1 ∧ death value off₁ off₂ a b value = a + b := by
  simp [birth, death]

/-- An instruction of a block is a load, the instruction itself or a store. -/
theorem getElem?_around {loads stores : List Instr} {core instr : Instr} {j : Nat}
    (hj : (loads ++ core :: stores)[j]? = some instr) :
    loads[j]? = some instr ∨ (j = loads.length ∧ instr = core) ∨
      ∃ j', j = loads.length + 1 + j' ∧ stores[j']? = some instr := by
  rcases Nat.lt_trichotomy j loads.length with hlt | rfl | hgt
  · rw [List.getElem?_append_left hlt] at hj
    exact .inl hj
  · simp only [List.getElem?_append_right (Nat.le_refl _), Nat.sub_self, List.getElem?_cons_zero,
      Option.some.injEq] at hj
    exact .inr (.inl ⟨rfl, hj.symm⟩)
  · rw [List.getElem?_append_right (by omega), List.getElem?_cons, if_neg (by omega)] at hj
    exact .inr (.inr ⟨j - loads.length - 1, by omega, hj⟩)

section Around

variable {fp t value off₁ off₂ : Temp} {offset : Word} {i : Instr} {loads stores : List Instr}
  {n : Int}

/-- The temps of spill code are new: different from each other, and with numbers greater than those of
the frame pointer and of the temps of the instruction. -/
structure NewTemps (fp t : Temp) (n : Int) (i : Instr) (value off₁ off₂ : Temp) : Prop where
  newValue : n < value.index
  newLoad : n < off₁.index
  newStore : n < off₂.index
  load_ne : off₁ ≠ value
  store_ne : off₂ ≠ value
  offsets_ne : off₁ ≠ off₂
  oldFp : fp.index ≤ n
  mentioned : t ∈ i.uses ∨ t ∈ i.defs
  bound : ∀ u, u ∈ i.uses ∨ u ∈ i.defs → u.index ≤ n

variable (h : Around fp t offset i value off₁ off₂ loads stores)
  (hnew : NewTemps fp t n i value off₁ off₂)

include hnew

/-- A new temp is the value or one of the offsets, or it is nowhere alive. -/
theorem NewTemps.lifetime (a b : Nat) (u : Temp) :
    (u = value ∧ birth value off₂ a u = a - 1 ∧ death value off₁ off₂ a b u = a + b) ∨
    (u = off₁ ∧ birth value off₂ a u = 0 ∧ death value off₁ off₂ a b u = a - 1) ∨
    (u = off₂ ∧ birth value off₂ a u = a + 1 ∧ death value off₁ off₂ a b u = a + b) ∨
    ((u ≠ value ∧ u ≠ off₁ ∧ u ≠ off₂) ∧ birth value off₂ a u = 0 ∧
      death value off₁ off₂ a b u = 0) := by
  unfold birth death
  by_cases hv : u = value
  · exact .inl (by simp [hv])
  · by_cases h₁ : u = off₁
    · subst h₁
      exact .inr (.inl (by simp [hv, hnew.offsets_ne]))
    · by_cases h₂ : u = off₂
      · subst h₂
        exact .inr (.inr (.inl (by simp [hv])))
      · exact .inr (.inr (.inr (by simp [hv, h₁, h₂])))

theorem NewTemps.lifetime_off₁ (a b : Nat) :
    birth value off₂ a off₁ = 0 ∧ death value off₁ off₂ a b off₁ = a - 1 := by
  simp [birth, death, hnew.load_ne, hnew.offsets_ne]

theorem NewTemps.lifetime_off₂ (a b : Nat) :
    birth value off₂ a off₂ = a + 1 ∧ death value off₁ off₂ a b off₂ = a + b := by
  simp [birth, death, hnew.store_ne]

theorem NewTemps.ne_fp {u : Temp} (hu : n < u.index) : u ≠ fp := by
  intro heq
  have := hnew.oldFp
  rw [heq] at hu
  omega

/-- Among the new temps only the value can occur in the renamed instruction. -/
theorem NewTemps.mem_rename {us : List Temp} {u : Temp} (hus : ∀ w ∈ us, w.index ≤ n)
    (hu : n < u.index) :
    u ∈ us.map (fun w => if w = t then value else w) ↔ u = value ∧ t ∈ us := by
  constructor
  · intro hmem
    obtain ⟨w, hw, rfl⟩ := List.mem_map.mp hmem
    by_cases hwt : w = t
    · exact ⟨if_pos hwt, hwt ▸ hw⟩
    · rw [if_neg hwt] at hu
      have := hus w hw
      omega
  · rintro ⟨rfl, ht⟩
    exact List.mem_map.mpr ⟨t, ht, if_pos rfl⟩

/-- Of the old temps all but `t` stay in the renamed instruction. -/
theorem NewTemps.mem_rename_old {us : List Temp} {u : Temp} (hu : u.index ≤ n) :
    u ∈ us.map (fun w => if w = t then value else w) ↔ u ∈ us ∧ u ≠ t := by
  have hvalue := hnew.newValue
  rw [List.mem_map]
  constructor
  · rintro ⟨w, hw, rfl⟩
    by_cases hwt : w = t
    · rw [if_pos hwt] at hu
      omega
    · rw [if_neg hwt]
      exact ⟨hw, hwt⟩
  · rintro ⟨hmem, hut⟩
    exact ⟨u, hmem, if_neg hut⟩

theorem NewTemps.mem_uses_rename {u : Temp} (hu : n < u.index) :
    u ∈ (i.rename t value).uses ↔ u = value ∧ t ∈ i.uses := by
  rw [uses_rename]
  exact hnew.mem_rename (fun w hw => hnew.bound w (.inl hw)) hu

theorem NewTemps.mem_defs_rename {u : Temp} (hu : n < u.index) :
    u ∈ (i.rename t value).defs ↔ u = value ∧ t ∈ i.defs := by
  rw [defs_rename]
  exact hnew.mem_rename (fun w hw => hnew.bound w (.inr hw)) hu

include h

theorem Around.auxiliary {instr : Instr} (hinstr : instr ∈ loads ∨ instr ∈ stores) :
    (∀ l, instr ≠ .label l) ∧ ∀ u, u ∈ instr.uses ∨ u ∈ instr.defs → n < u.index ∨ u = fp := by
  have hplain : ∀ {op : Opcode}, instr = plain op instr.uses instr.defs → ∀ l, instr ≠ .label l := by
    intro op hop l hl
    rw [hl] at hop
    cases hop
  -- Each side first builds the offset of the slot in a temp of its own, then accesses the slot.
  rcases hinstr with hmem | hmem
  · obtain ⟨j, hj⟩ := List.mem_iff_getElem?.mp hmem
    obtain ⟨⟨op, hop⟩, hcases⟩ := h.load hj
    refine ⟨hplain hop, fun u hu => ?_⟩
    rcases hcases with ⟨-, hd, hus⟩ | ⟨-, -, hd, hus⟩
    · rcases hu with hu | hu
      · exact .inl ((hus u hu).1 ▸ hnew.newLoad)
      · rw [hd, List.mem_singleton] at hu
        exact .inl (hu ▸ hnew.newLoad)
    · rw [hd, hus] at hu
      simp only [List.mem_cons, List.not_mem_nil, or_false] at hu
      rcases hu with (rfl | rfl) | rfl
      · exact .inr rfl
      · exact .inl hnew.newLoad
      · exact .inl hnew.newValue
  · obtain ⟨j, hj⟩ := List.mem_iff_getElem?.mp hmem
    obtain ⟨⟨op, hop⟩, hcases⟩ := h.store hj
    refine ⟨hplain hop, fun u hu => ?_⟩
    rcases hcases with ⟨-, hd, hus⟩ | ⟨-, -, hd, hus⟩
    · rcases hu with hu | hu
      · exact .inl ((hus u hu).1 ▸ hnew.newStore)
      · rw [hd, List.mem_singleton] at hu
        exact .inl (hu ▸ hnew.newStore)
    · rw [hd, hus] at hu
      simp only [List.mem_cons, List.not_mem_nil, or_false] at hu
      rcases hu with rfl | rfl | rfl
      · exact .inl hnew.newValue
      · exact .inr rfl
      · exact .inl hnew.newStore

theorem Around.defs_alive {j : Nat} {instr : Instr} {u : Temp}
    (hj : (loads ++ i.rename t value :: stores)[j]? = some instr) (hu : n < u.index)
    (hd : u ∈ instr.defs) : birth value off₂ loads.length u ≤ j ∧
      j < death value off₁ off₂ loads.length stores.length u := by
  have hvalue := lifetime_value value off₁ off₂ loads.length stores.length
  have hoff₁ := hnew.lifetime_off₁ loads.length stores.length
  have hoff₂ := hnew.lifetime_off₂ loads.length stores.length
  rcases getElem?_around hj with hj' | ⟨rfl, rfl⟩ | ⟨j', rfl, hj'⟩
  · rcases (h.load hj').2 with ⟨hlt, heq, -⟩ | ⟨hlt, -, heq, -⟩
    · rw [heq, List.mem_singleton] at hd
      rw [hd]
      omega
    · rw [heq, List.mem_singleton] at hd
      rw [hd]
      omega
  · obtain ⟨rfl, htd⟩ := (hnew.mem_defs_rename hu).mp hd
    have := h.stores_pos.mp htd
    omega
  · rcases (h.store hj').2 with ⟨hlt, heq, -⟩ | ⟨-, -, heq, -⟩
    · rw [heq, List.mem_singleton] at hd
      rw [hd]
      omega
    · rw [heq] at hd
      cases hd

theorem Around.uses_alive {j : Nat} {instr : Instr} {u : Temp}
    (hj : (loads ++ i.rename t value :: stores)[j]? = some instr) (hu : n < u.index)
    (hd : u ∈ instr.uses) : birth value off₂ loads.length u < j ∧
      j ≤ death value off₁ off₂ loads.length stores.length u := by
  have hvalue := lifetime_value value off₁ off₂ loads.length stores.length
  have hoff₁ := hnew.lifetime_off₁ loads.length stores.length
  have hoff₂ := hnew.lifetime_off₂ loads.length stores.length
  -- By the three parts of the block: the loads, the instruction itself and the stores.
  rcases getElem?_around hj with hj' | ⟨rfl, rfl⟩ | ⟨j', rfl, hj'⟩
  · rcases (h.load hj').2 with ⟨hlt, -, hus⟩ | ⟨hlt, hpos, -, hus⟩
    · obtain ⟨rfl, hpos⟩ := hus u hd
      omega
    · rw [hus] at hd
      simp only [List.mem_cons, List.not_mem_nil, or_false] at hd
      rcases hd with rfl | rfl
      · exact absurd rfl (hnew.ne_fp hu)
      · omega
  · obtain ⟨rfl, htu⟩ := (hnew.mem_uses_rename hu).mp hd
    have := h.loads_pos.mp htu
    omega
  · rcases (h.store hj').2 with ⟨hlt, -, hus⟩ | ⟨hlt, hpos, -, hus⟩
    · obtain ⟨rfl, hpos⟩ := hus u hd
      omega
    · rw [hus] at hd
      simp only [List.mem_cons, List.not_mem_nil, or_false] at hd
      rcases hd with rfl | rfl | rfl
      · omega
      · exact absurd rfl (hnew.ne_fp hu)
      · omega

theorem Around.born {u : Temp} (hu : n < u.index) (hlt : birth value off₂ loads.length u
      < death value off₁ off₂ loads.length stores.length u) :
    ∃ instr, (loads ++ i.rename t value :: stores)[birth value off₂ loads.length u]? = some instr ∧
      u ∈ instr.defs := by
  rcases hnew.lifetime loads.length stores.length u with ⟨rfl, hb, hd⟩ | ⟨rfl, hb, hd⟩ |
    ⟨rfl, hb, hd⟩ | ⟨-, hb, hd⟩
  · -- The value is born with the last load, if there are loads.
    by_cases htu : t ∈ i.uses
    · have hlen := h.loads_pos.mp htu
      have hget : loads[loads.length - 1]? = some loads[loads.length - 1] :=
        List.getElem?_eq_getElem (by omega)
      refine ⟨loads[loads.length - 1], ?_, ?_⟩
      · rw [hb, List.getElem?_append_left (by omega)]
        exact hget
      · rcases (h.load hget).2 with ⟨hlt', -⟩ | ⟨-, -, heq, -⟩
        · omega
        · rw [heq]
          exact List.mem_singleton_self _
    -- Without loads the instruction itself does not use `t`, so it defines it.
    · have hlen : loads.length = 0 := by
        have := mt h.loads_pos.mpr htu
        have := h.loads_ne_one
        omega
      refine ⟨_, ?_, (hnew.mem_defs_rename hu).mpr ⟨rfl, hnew.mentioned.resolve_left htu⟩⟩
      rw [hb, hlen, List.length_eq_zero_iff.mp hlen]
      rfl
  · -- The offsets are born with the first instruction of their side.
    have hget : loads[0]? = some loads[0] := List.getElem?_eq_getElem (by omega)
    refine ⟨loads[0], ?_, ?_⟩
    · rw [hb, List.getElem?_append_left (by omega)]
      exact hget
    · rcases (h.load hget).2 with ⟨-, heq, -⟩ | ⟨-, hpos, -⟩
      · rw [heq]
        exact List.mem_singleton_self _
      · omega
  · have hget : stores[0]? = some stores[0] := List.getElem?_eq_getElem (by omega)
    refine ⟨stores[0], ?_, ?_⟩
    · rw [hb, List.getElem?_append_right (by omega), Nat.add_sub_cancel_left,
        List.getElem?_cons_succ]
      exact hget
    · rcases (h.store hget).2 with ⟨-, heq, -⟩ | ⟨-, hpos, -⟩
      · rw [heq]
        exact List.mem_singleton_self _
      · omega
  · omega

/-- **The block that spilling makes of one instruction.** -/
theorem Around.block : Block fp t n i (i.rename t value) loads stores (birth value off₂ loads.length)
    (death value off₁ off₂ loads.length stores.length) where
  auxiliary _ := h.auxiliary hnew
  -- A label mentions no temp, so it is none of the instructions that spilling rewrites.
  coreNotLabel l hl := by
    have hmention := hnew.mentioned
    cases i with
    | label l' => simp [uses, Instr.defs] at hmention
    | oper op us ds jumps flow => cases hl
    | move src dst => cases hl
  coreUses u hu := by rw [uses_rename, hnew.mem_rename_old hu]
  coreDefs u hu := by rw [defs_rename, hnew.mem_rename_old hu]
  mentioned := hnew.mentioned
  loaded hloads := by
    have := List.length_pos_of_ne_nil hloads
    have := h.loads_ne_one
    exact h.loads_pos.mpr (by omega)
  stored hstores := by
    have := List.length_pos_of_ne_nil hstores
    have := h.stores_ne_one
    exact h.stores_pos.mpr (by omega)
  defs := h.defs_alive hnew
  uses := h.uses_alive hnew
  born := h.born hnew
  -- Of the new temps only the value is alive into the instruction, and it is what is read there.
  before := by
    intro u hu hfirst hlast
    rcases hnew.lifetime loads.length stores.length u with ⟨rfl, hb, hd⟩ | ⟨rfl, hb, hd⟩ |
      ⟨rfl, hb, hd⟩ | ⟨-, hb, hd⟩
    · have := h.loads_ne_one
      exact (hnew.mem_uses_rename hu).mpr ⟨rfl, h.loads_pos.mpr (by omega)⟩
    · omega
    · omega
    · omega
  -- In the same way the value is the only one that is alive behind it.
  after := by
    intro u hu hfirst hlast
    rcases hnew.lifetime loads.length stores.length u with ⟨rfl, hb, hd⟩ | ⟨rfl, hb, hd⟩ |
      ⟨rfl, hb, hd⟩ | ⟨-, hb, hd⟩
    · have := h.stores_ne_one
      exact (hnew.mem_defs_rename hu).mpr ⟨rfl, h.stores_pos.mpr (by omega)⟩
    · omega
    · omega
    · omega
  within := by
    intro u hu
    rcases hnew.lifetime loads.length stores.length u with ⟨rfl, hb, hd⟩ | ⟨rfl, hb, hd⟩ |
      ⟨rfl, hb, hd⟩ | ⟨-, hb, hd⟩ <;> omega
  loadsFew := by
    -- Before the last load the offset is alive, and behind it the value.
    intro j ts hj hnodup hts
    have hone : ∃ w, ∀ u ∈ ts, u ∈ [w] := by
      rcases Nat.lt_or_ge (j + 1) loads.length with hlt | hge
      · refine ⟨off₁, fun u hu => List.mem_singleton.mpr ?_⟩
        have := hts u hu
        rcases hnew.lifetime loads.length stores.length u with ⟨rfl, hb, hd⟩ | ⟨rfl, hb, hd⟩ |
          ⟨rfl, hb, hd⟩ | ⟨-, hb, hd⟩ <;> first | rfl | omega
      · refine ⟨value, fun u hu => List.mem_singleton.mpr ?_⟩
        have := hts u hu
        rcases hnew.lifetime loads.length stores.length u with ⟨rfl, hb, hd⟩ | ⟨rfl, hb, hd⟩ |
          ⟨rfl, hb, hd⟩ | ⟨-, hb, hd⟩ <;> first | rfl | omega
    obtain ⟨w, hw⟩ := hone
    exact (List.subperm_of_subset hnodup hw).length_le
  storesFew := by
    -- Among the stores the value and the offset are alive.
    intro j ts hj hnodup hts
    refine (List.subperm_of_subset hnodup (show ts ⊆ [value, off₂] from fun u hu => ?_)).length_le
    have := hts u hu
    rcases hnew.lifetime loads.length stores.length u with ⟨rfl, hb, hd⟩ | ⟨rfl, hb, hd⟩ |
      ⟨rfl, hb, hd⟩ | ⟨-, hb, hd⟩
    · simp
    · omega
    · simp
    · omega

end Around

end Instr

/-! ## §2 Spilling a temp in a list -/

/-- Renaming does not make more distinct temps. -/
theorem distinctTemps_map_le {fp : Temp} (f : Temp → Temp) (hf : f fp = fp) (us : List Temp) :
    Instr.distinctTemps fp (us.map f) ≤ Instr.distinctTemps fp us := by
  have hsub : ((TempSet.ofList (us.map f)).erase fp).toList ⊆
      ((TempSet.ofList us).erase fp).toList.map f := by
    intro u hu
    have hu : u ∈ (TempSet.ofList (us.map f)).erase fp := hu
    simp only [TempSet.mem_erase, TempSet.mem_ofList, List.mem_map] at hu
    obtain ⟨⟨w, hw, rfl⟩, hne⟩ := hu
    have hmem : w ∈ (TempSet.ofList us).erase fp := by
      simp only [TempSet.mem_erase, TempSet.mem_ofList]
      exact ⟨hw, fun heq => hne (heq ▸ hf)⟩
    exact List.mem_map.mpr ⟨w, hmem, rfl⟩
  have hlen := (List.subperm_of_subset (TempSet.nodup _) hsub).length_le
  rwa [List.length_map] at hlen

theorem distinctTemps_le_length {fp : Temp} {us ws : List Temp} (h : ∀ u ∈ us, u ≠ fp → u ∈ ws) :
    Instr.distinctTemps fp us ≤ ws.length := by
  refine (List.subperm_of_subset (TempSet.nodup _) fun u hu => ?_).length_le
  have hu : u ∈ (TempSet.ofList us).erase fp := hu
  simp only [TempSet.mem_erase, TempSet.mem_ofList] at hu
  exact h u hu.1 hu.2

/-- What spilling keeps of an instruction list: every instruction leaves a register for spill code, and
the temps with numbers greater than `n₀`, which were made for spill code, keep to their windows. -/
structure Spillable (fp : Temp) (k : Nat) (n₀ n : Int) (instrs : List Instr) : Prop where
  bound : ∀ u, Mentions instrs u → u.index ≤ n
  pressure : ∀ i ∈ instrs, Instr.distinctTemps fp i.uses ≤ k ∧ Instr.distinctTemps fp i.defs + 1 ≤ k
  windows : ∃ first last, Windows fp k (n₀ < ·.index) instrs first last

variable {fp t : Temp} {k : Nat} {n₀ n : Int} {offset : Word}

/-- Spill code needs two registers. -/
theorem pressure_spilled (hk : 2 ≤ k) (htfp : t ≠ fp) {i j : Instr}
    (hi : Instr.distinctTemps fp i.uses ≤ k ∧ Instr.distinctTemps fp i.defs + 1 ≤ k)
    (hj : j ∈ (i.spilled fp t offset n).instrs) :
    Instr.distinctTemps fp j.uses ≤ k ∧ Instr.distinctTemps fp j.defs + 1 ≤ k := by
  rcases Instr.spilled_cases fp t offset i n with ⟨-, -, heq⟩ | ⟨-, hinstr, -, off₁, off₂, haround, -⟩
  · rw [heq, Instr.Spilled.instrs, List.nil_append, List.mem_singleton] at hj
    exact hj ▸ hi
  -- An access of a slot needs an offset and a value beside the frame pointer.
  have hslot : ∀ {us ds : List Temp} (ws : List Temp), (∀ u ∈ us, u ≠ fp → u ∈ ws) → ws.length ≤ 2 →
      ds.length ≤ 1 → Instr.distinctTemps fp us ≤ k ∧ Instr.distinctTemps fp ds + 1 ≤ k := by
    intro us ds ws hus hws hds
    have h₁ := distinctTemps_le_length hus
    have h₂ : Instr.distinctTemps fp ds ≤ ds.length := distinctTemps_le_length fun u hu _ => hu
    omega
  rw [Instr.Spilled.instrs, hinstr, List.mem_append, List.mem_cons] at hj
  rcases hj with hj | rfl | hj
  · obtain ⟨m, hm⟩ := List.mem_iff_getElem?.mp hj
    rcases (haround.load hm).2 with ⟨-, hd, hus⟩ | ⟨-, -, hd, hus⟩
    · refine hslot [off₁] (fun u hu _ => ?_) (by simp) (by simp [hd])
      exact List.mem_singleton.mpr (hus u hu).1
    · refine hslot [off₁] (fun u hu hne => ?_) (by simp) (by simp [hd])
      simpa [hus, hne] using hu
  · have hrename : (if fp = t then (⟨n + 1⟩ : Temp) else fp) = fp := if_neg (Ne.symm htfp)
    rw [Instr.uses_rename, Instr.defs_rename]
    have h₁ := distinctTemps_map_le (fun u => if u = t then ⟨n + 1⟩ else u) hrename i.uses
    have h₂ := distinctTemps_map_le (fun u => if u = t then ⟨n + 1⟩ else u) hrename i.defs
    omega
  · obtain ⟨m, hm⟩ := List.mem_iff_getElem?.mp hj
    rcases (haround.store hm).2 with ⟨-, hd, hus⟩ | ⟨-, -, hd, hus⟩
    · refine hslot [off₂] (fun u hu _ => ?_) (by simp) (by simp [hd])
      exact List.mem_singleton.mpr (hus u hu).1
    · refine hslot [⟨n + 1⟩, off₂] (fun u hu hne => ?_) (by simp) (by simp [hd])
      simpa [hus, hne] using hu

/-- Spilling a temp in one instruction of a list. -/
theorem Spillable.spilled {xs ys : List Instr} {i : Instr} (h : Spillable fp k n₀ n (xs ++ i :: ys))
    (hk : 2 ≤ k) (hn : n₀ ≤ n) (hfp : fp.index ≤ n₀) (ht : t.index ≤ n₀) (htfp : t ≠ fp) :
    Spillable fp k n₀ (i.spilled fp t offset n).next
      (xs ++ (i.spilled fp t offset n).instrs ++ ys) := by
  have hle := Instr.le_next_spilled fp t offset i n
  have hi : i ∈ xs ++ i :: ys := by simp
  -- The numbers of temps, the pressure, and the windows, one after the other.
  refine ⟨fun u hu => ?_, fun j hj => ?_, ?_⟩
  · obtain ⟨j, hj, hu⟩ := hu
    have hold : ∀ {j' : Instr}, j' ∈ xs ++ i :: ys → u ∈ j'.uses ∨ u ∈ j'.defs →
        u.index ≤ (i.spilled fp t offset n).next := fun hj' hu' =>
      Int.le_trans (h.bound u ⟨_, hj', hu'⟩) hle
    simp only [List.append_assoc, List.mem_append] at hj
    -- In front of the instruction, in what it has become, or behind it.
    rcases hj with hj | hj | hj
    · exact hold (List.mem_append_left _ hj) hu
    · obtain ⟨hdefs, huses⟩ := Instr.temps_spilled hj
      rcases hu with hu | hu
      · rcases huses u hu with ⟨hmem, -⟩ | hmade | rfl
        · exact hold hi (.inl hmem)
        · exact (Instr.mem_made_spilled.mp hmade).2
        · omega
      · rcases hdefs u hu with ⟨hmem, -⟩ | hmade
        · exact hold hi (.inr hmem)
        · exact (Instr.mem_made_spilled.mp hmade).2
    · exact hold (List.mem_append_right _ (List.mem_cons_of_mem _ hj)) hu
  · simp only [List.append_assoc, List.mem_append] at hj
    rcases hj with hj | hj | hj
    · exact h.pressure j (List.mem_append_left _ hj)
    · exact pressure_spilled hk htfp (h.pressure i hi) hj
    · exact h.pressure j (List.mem_append_right _ (List.mem_cons_of_mem _ hj))
  · obtain ⟨first, last, hw⟩ := h.windows
    -- The windows only change if the instruction mentions the temp.
    rcases Instr.spilled_cases fp t offset i n with ⟨-, -, heq⟩ |
      ⟨hmention, hinstr, -, off₁, off₂, haround, h₁, h₂, hne, -⟩
    · refine ⟨first, last, ?_⟩
      rw [heq]
      simpa [Instr.Spilled.instrs] using hw
    · have hvalue : ∀ {off : Temp}, n + 1 < off.index → off ≠ ⟨n + 1⟩ := by
        rintro off hoff rfl
        exact Int.lt_irrefl _ hoff
      have hnew : Instr.NewTemps fp t n i ⟨n + 1⟩ off₁ off₂ :=
        ⟨Int.lt_succ n, by omega, by omega, hvalue h₁, hvalue h₂, hne, by omega, hmention,
          fun u hu => h.bound u ⟨i, hi, hu⟩⟩
      have hmem : i.rename t ⟨n + 1⟩ ∈ (i.spilled fp t offset n).instrs := by
        simp [Instr.Spilled.instrs, hinstr]
      obtain ⟨huses, hdefs⟩ := h.pressure i hi
      have hcore := pressure_spilled hk htfp (h.pressure i hi) hmem
      rw [Instr.Spilled.instrs, hinstr]
      exact ⟨_, _, hw.expand (haround.block hnew) hn hfp ht htfp huses hdefs (by omega) h.bound⟩

/-- Spilling a temp in a list, one instruction after the other. -/
theorem Spillable.spillList {is : List Instr} (xs : List Instr)
    (h : Spillable fp k n₀ n (xs ++ is)) (hk : 2 ≤ k) (hn : n₀ ≤ n) (hfp : fp.index ≤ n₀)
    (ht : t.index ≤ n₀) (htfp : t ≠ fp) :
    Spillable fp k n₀ (Instr.spillList fp t offset is n).next
      (xs ++ (Instr.spillList fp t offset is n).instrs) := by
  induction is generalizing xs n with
  | nil => exact h
  | cons i is ih =>
    have hfirst : Spillable fp k n₀ (i.spilled fp t offset n).next
        (xs ++ (i.spilled fp t offset n).instrs ++ is) := h.spilled hk hn hfp ht htfp
    have hrest := ih _ hfirst (Int.le_trans hn (Instr.le_next_spilled ..))
    rwa [List.append_assoc] at hrest

/-! ## §3 Rounds -/

theorem mem_temps {c : Code} {u : Temp} : u ∈ c.temps ↔ Mentions c.instrs u := by
  suffices h : ∀ s : TempSet, u ∈ c.instrs.foldl (fun s i => (s ∪ TempSet.ofList i.uses) ∪
      TempSet.ofList i.defs) s ↔ u ∈ s ∨ Mentions c.instrs u by
    simpa [Code.temps] using h ∅
  intro s
  induction c.instrs generalizing s with
  | nil => simp [Mentions]
  | cons i is ih =>
    rw [List.foldl_cons, ih]
    simp [Mentions, TempSet.mem_ofList, or_assoc]

/-- What a round of allocation needs and spilling keeps. The temps with numbers up to `n₀` are those
that the code had from the beginning. -/
structure Allocatable (k : Nat) (n₀ : Int) (c : Code) (σ : Supply) : Prop where
  oldFp : c.frame.fp.index ≤ n₀
  oldRv : c.frame.rv.index ≤ n₀
  old : n₀ ≤ σ.temps
  spillable : Spillable c.frame.fp k n₀ σ.temps c.instrs
  closed : ∀ i ∈ c.instrs, i.flow ≠ .call → ∀ l ∈ i.jumps, .label l ∈ c.instrs ∨ l = c.exit

variable {c : Code} {σ : Supply}

theorem Allocatable.spill (h : Allocatable k n₀ c σ) (hk : 2 ≤ k) (ht : t.index ≤ n₀)
    (htfp : t ≠ c.frame.fp) :
    Allocatable k n₀ ((c.spill t).run σ).1.1 ((c.spill t).run σ).2 := by
  obtain ⟨n, l⟩ := σ
  rw [Code.run_spill]
  refine ⟨h.oldFp, h.oldRv, Int.le_trans h.old (Instr.le_next_spillList ..), ?_, ?_⟩
  · exact h.spillable.spillList [] hk h.old h.oldFp ht htfp
  · intro j hj hflow l hl
    rcases Instr.jumps_spillList hj with hnone | ⟨i, hi, hjumps, hflow'⟩
    · rw [hnone] at hl
      cases hl
    · rcases h.closed i hi (hflow' ▸ hflow) l (hjumps ▸ hl) with hmem | hexit
      · obtain ⟨j', hj', -, -, hlabel⟩ := Instr.mem_spillList hmem
        exact .inl (hlabel l rfl ▸ hj')
      · exact .inr hexit

/-- The temps behind the spilling of `t`: `t` has gone, and only made temps have been added. -/
theorem mentions_spill {u : Temp} (h : Mentions ((c.spill t).run σ).1.1.instrs u) :
    (Mentions c.instrs u ∧ u ≠ t) ∨ u ∈ ((c.spill t).run σ).1.2 ∨ u = c.frame.fp := by
  obtain ⟨n, l⟩ := σ
  rw [Code.run_spill] at h ⊢
  obtain ⟨j, hj, hu⟩ := h
  obtain ⟨hdefs, huses⟩ := Instr.temps_spillList hj
  rcases hu with hu | hu
  · rcases huses u hu with ⟨i, hi, hmem, hne⟩ | hmade | rfl
    · exact .inl ⟨⟨i, hi, .inl hmem⟩, hne⟩
    · exact .inr (.inl hmade)
    · exact .inr (.inr rfl)
  · rcases hdefs u hu with ⟨i, hi, hmem, hne⟩ | hmade
    · exact .inl ⟨⟨i, hi, .inr hmem⟩, hne⟩
    · exact .inr (.inl hmade)

theorem mem_made_spill {u : Temp} : u ∈ ((c.spill t).run σ).1.2 →
    σ.temps < u.index ∧ u.index ≤ ((c.spill t).run σ).2.temps := by
  obtain ⟨n, l⟩ := σ
  rw [Code.run_spill]
  exact Instr.mem_made_spillList.mp

/-- The avoided temps are those made for spill code. -/
def Avoiding (n₀ : Int) (c : Code) (avoid : TempSet) : Prop :=
  (∀ u ∈ avoid, n₀ < u.index) ∧ ∀ u, Mentions c.instrs u → n₀ < u.index → u ∈ avoid

theorem tempSize_succ (size : Word) (n : Nat) : size + Word.byteSize + Int64.ofNat n * Word.byteSize
    = size + Int64.ofNat (n + 1) * Word.byteSize := by
  rw [Int64.ofNat_add, Int64.add_mul, Int64.add_assoc, Int64.add_comm Word.byteSize]
  simp

/-- Spilling temps that the code had from the beginning. -/
theorem spillAll_spec (hk : 2 ≤ k) {ts : List Temp} {made : TempSet} (h : Allocatable k n₀ c σ)
    (havoid : Avoiding n₀ c made) (hts : ∀ t ∈ ts, t.index ≤ n₀ ∧ t ≠ c.frame.fp) :
    Allocatable k n₀ ((c.spillAll made ts).run σ).1.1 ((c.spillAll made ts).run σ).2 ∧
    Avoiding n₀ ((c.spillAll made ts).run σ).1.1 ((c.spillAll made ts).run σ).1.2 ∧
    ((c.spillAll made ts).run σ).1.1.frame = c.frame ∧
    (∀ u, Mentions ((c.spillAll made ts).run σ).1.1.instrs u → u.index ≤ n₀ → u ≠ c.frame.fp →
      Mentions c.instrs u ∧ u ∉ ts) ∧
    ((c.spillAll made ts).run σ).1.1.tempSize
      = c.tempSize + Int64.ofNat ts.length * Word.byteSize := by
  -- By induction on the temps to spill. Those that each one makes lie beyond `n₀`.
  induction ts generalizing c made σ with
  | nil =>
    refine ⟨h, havoid, rfl, fun u hu _ _ => ⟨hu, List.not_mem_nil⟩, ?_⟩
    show c.tempSize = c.tempSize + Int64.ofNat 0 * Word.byteSize
    simp
  | cons t ts ih =>
    rw [Code.spillAll, run_bind_state]
    obtain ⟨ht, htfp⟩ := hts t List.mem_cons_self
    have hframe : ((c.spill t).run σ).1.1.frame = c.frame := by
      obtain ⟨n, l⟩ := σ
      rw [Code.run_spill]
      rfl
    have hsize : ((c.spill t).run σ).1.1.tempSize = c.tempSize + Word.byteSize := by
      obtain ⟨n, l⟩ := σ
      rw [Code.run_spill]
      rfl
    -- What is avoided grows by the temps that the spilling of `t` has made.
    have hnext : Avoiding n₀ ((c.spill t).run σ).1.1 (made ∪ ((c.spill t).run σ).1.2) := by
      refine ⟨fun u hu => ?_, fun u hu hn => ?_⟩
      · rcases TempSet.mem_union.mp hu with hu | hu
        · exact havoid.1 u hu
        · exact Int.lt_of_le_of_lt h.old (mem_made_spill hu).1
      · rcases mentions_spill hu with ⟨hu, -⟩ | hu | rfl
        · exact TempSet.mem_union.mpr (.inl (havoid.2 u hu hn))
        · exact TempSet.mem_union.mpr (.inr hu)
        · have := h.oldFp
          omega
    obtain ⟨h₁, h₂, h₃, h₄, h₅⟩ := ih (h.spill hk ht htfp) hnext fun t' ht' => by
      rw [hframe]
      exact hts t' (List.mem_cons_of_mem _ ht')
    refine ⟨h₁, h₂, h₃.trans hframe, fun u hu hn hfp => ?_, ?_⟩
    · -- A temp from the beginning that is still there was there before, and it is not `t`.
      obtain ⟨hmention, hnot⟩ := h₄ u hu hn (hframe ▸ hfp)
      rcases mentions_spill hmention with ⟨hold, hne⟩ | hmade | heq
      · exact ⟨hold, by simp [hne, hnot]⟩
      · have h₆ := (mem_made_spill hmade).1
        have h₇ := h.old
        omega
      · exact absurd heq hfp
    · rw [h₅, hsize, tempSize_succ]
      rfl

/-- Every attempt to colour the code is made, and spills only temps that the code had from the
beginning. -/
theorem Allocatable.tryColor {k : Int} (hk : 2 ≤ k) (h : Allocatable k.toNat n₀ c σ) {avoid : TempSet}
    (havoid : Avoiding n₀ c avoid) : ∃ g coloring, c.tryColor k avoid = .ok (g, coloring) ∧
      coloring.spilled.Nodup ∧ ∀ t ∈ coloring.spilled, t.index ≤ n₀ ∧ t ≠ c.frame.fp ∧
        Mentions c.instrs t := by
  have hpressure : c.checkPressure k = .ok () := by
    have hnone : (c.instrs.find? fun i => k < i.pressure c.frame.fp) = none := by
      rw [List.find?_eq_none]
      intro i hi hlt
      have hlt : k < (i.pressure c.frame.fp : Int) := of_decide_eq_true hlt
      have := h.spillable.pressure i hi
      simp only [Instr.pressure] at hlt
      omega
    simp [Code.checkPressure, hnone]
  obtain ⟨s, hs⟩ := Liveness.exists_liveness_eq_ok h.closed
  -- At the exit only the return value is needed, which was there from the beginning.
  have hexits : ∀ (l : Label) live, ((∅ : Std.TreeMap Label TempSet).insert c.exit c.liveAtExit)[l]?
      = some live → ∀ t ∈ live, ¬n₀ < t.index := by
    intro l live hl t ht
    rw [Std.TreeMap.getElem?_insert] at hl
    split at hl
    · cases hl
      have hrv := h.oldRv
      simp only [Code.liveAtExit] at ht
      split at ht
      · exact absurd ht (TempSet.not_mem_empty t)
      · simp only [TempSet.mem_insert, TempSet.not_mem_empty, or_false] at ht
        rw [ht]
        omega
    · simp at hl
  obtain ⟨first, last, hw⟩ := h.spillable.windows
  have hg := wellFormed_build c.frame.fp c.instrs s.points
  refine ⟨_, _, by simp only [Code.tryColor, hpressure, hs]; rfl, Coloring.nodup_spilled hg avoid,
    fun t ht => ?_⟩
  obtain ⟨hfp, hmention⟩ := (contains_build ..).mp (Coloring.mem_index_of_spilled hg ht)
  refine ⟨?_, hfp, hmention⟩
  by_contra hmade
  refine Coloring.not_avoided_of_spilled hg (fun is hne his => ?_) ht
    (havoid.2 t hmention (by omega))
  exact hw.exists_few_neighbors (by omega) hexits hs havoid.1 hne his

/-- The temps that may still be spilled. -/
def candidates (n₀ : Int) (c : Code) : TempSet :=
  (c.temps.erase c.frame.fp).filter (·.index ≤ n₀)

theorem mem_candidates {u : Temp} :
    u ∈ candidates n₀ c ↔ Mentions c.instrs u ∧ u ≠ c.frame.fp ∧ u.index ≤ n₀ := by
  simp [candidates, mem_temps, and_assoc]

/-- **The rounds of an allocation come to an end**, since every round before the last one spills
candidates. -/
theorem allocateRounds_converges {k : Int} (hk : 2 ≤ k) (maxRounds rounds : Nat) {fuel : Nat}
    {avoid : TempSet} (spilled : List Temp) (h : Allocatable k.toNat n₀ c σ)
    (havoid : Avoiding n₀ c avoid) (hfuel : (candidates n₀ c).size < fuel) :
    ∃ c' a σ' ts, (c.allocateRounds k maxRounds fuel rounds avoid spilled).run σ = ((c', .ok a), σ') ∧
      a.rounds ≤ rounds + (candidates n₀ c).size + 1 ∧ a.spilled = spilled ++ ts ∧ ts.Nodup ∧
      (∀ t ∈ ts, t ∈ candidates n₀ c) ∧
      c'.tempSize = c.tempSize + Int64.ofNat ts.length * Word.byteSize := by
  induction fuel generalizing c σ rounds avoid spilled with
  | zero => omega
  | succ fuel ih =>
    obtain ⟨g, coloring, hcolor, hnodup, hspilled⟩ := h.tryColor hk havoid
    unfold Code.allocateRounds
    simp only [hcolor]
    -- Nothing is spilled: this round was the last one.
    by_cases hempty : coloring.spilled.isEmpty = true
    · rw [if_pos hempty]
      refine ⟨_, _, _, [], rfl, by simp only; omega, by simp, List.nodup_nil, by simp, ?_⟩
      simp [Code.withColors]
    · rw [if_neg hempty, run_bind_state]
      obtain ⟨h₁, h₂, hframe, hmentions, hsize⟩ := spillAll_spec (by omega) h havoid
        fun t ht => ⟨(hspilled t ht).1, (hspilled t ht).2.1⟩
      -- What is spilled in this round is no candidate of the next one.
      have hcandidates : ∀ u ∈ candidates n₀ ((c.spillAll avoid coloring.spilled).run σ).1.1,
          u ∈ candidates n₀ c ∧ u ∉ coloring.spilled := by
        intro u hu
        obtain ⟨hu, hfp, hn⟩ := mem_candidates.mp hu
        rw [hframe] at hfp
        obtain ⟨hmention, hnot⟩ := hmentions u hu hn hfp
        exact ⟨mem_candidates.mpr ⟨hmention, hfp, hn⟩, hnot⟩
      -- Something is spilled, and it is a candidate now but none afterwards.
      have hlt : (candidates n₀ ((c.spillAll avoid coloring.spilled).run σ).1.1).size
          < (candidates n₀ c).size := by
        cases hts : coloring.spilled with
        | nil => simp [hts] at hempty
        | cons t ts =>
          refine TempSet.size_lt_of_subset (fun u hu => ?_) fun heq => ?_
          · exact (hcandidates u (hts ▸ hu)).1
          · have ht := hspilled t (hts ▸ List.mem_cons_self)
            have hmem : t ∈ candidates n₀ c := mem_candidates.mpr ⟨ht.2.2, ht.2.1, ht.1⟩
            rw [← heq, ← hts] at hmem
            exact (hcandidates t hmem).2 (hts ▸ List.mem_cons_self)
      obtain ⟨c', a, σ', ts, hrun, hrounds, hall, hnodup', hts, hsize'⟩ :=
        ih (rounds + 1) (spilled ++ coloring.spilled) h₁ h₂ (by omega)
      refine ⟨c', a, σ', coloring.spilled ++ ts, hrun, by omega, by rw [hall, List.append_assoc],
        ?_, ?_, ?_⟩
      -- A later round spills only candidates, which those of this round are no longer.
      · refine List.nodup_append.mpr ⟨hnodup, hnodup', fun t ht u hu heq => ?_⟩
        exact (hcandidates u (hts u hu)).2 (heq ▸ ht)
      · intro t ht
        rcases List.mem_append.mp ht with ht | ht
        · exact mem_candidates.mpr ⟨(hspilled t ht).2.2, (hspilled t ht).2.1, (hspilled t ht).1⟩
        · exact (hcandidates t (hts t ht)).1
      · rw [hsize', hsize, List.length_append, Int64.ofNat_add, Int64.add_mul, Int64.add_assoc]

/-- **Allocation converges.** If no instruction of a code with closed jumps uses more than `k` temps or
defines more than `k - 1`, the frame pointer apart, then allocation with `k` registers succeeds. It
takes at most one round for each temp of the code and one more, spills only temps of the code as it was
given, none of them twice, and adds a slot for each of them. -/
theorem allocate_converges {k : Int} (hmin : minRegisters ≤ k) (hmax : k ≤ maxRegisters)
    (hfp : c.frame.fp.index ≤ σ.temps) (hrv : c.frame.rv.index ≤ σ.temps)
    (hbound : ∀ u, Mentions c.instrs u → u.index ≤ σ.temps)
    (hpressure : ∀ i ∈ c.instrs, Instr.distinctTemps c.frame.fp i.uses ≤ k.toNat ∧
      Instr.distinctTemps c.frame.fp i.defs + 1 ≤ k.toNat)
    (hclosed : ∀ i ∈ c.instrs, i.flow ≠ .call → ∀ l ∈ i.jumps, .label l ∈ c.instrs ∨ l = c.exit) :
    ∃ c' a σ', (c.allocate k).run σ = ((c', .ok a), σ') ∧
      a.rounds ≤ (c.temps.erase c.frame.fp).size + 1 ∧ a.spilled.Nodup ∧
      (∀ t ∈ a.spilled, t ∈ c.temps.erase c.frame.fp) ∧
      c'.tempSize = c.tempSize + Int64.ofNat a.spilled.length * Word.byteSize := by
  have hk : 2 ≤ k := hmin
  have hnew : ∀ u, Mentions c.instrs u → ¬σ.temps < u.index := fun u hu => by
    have := hbound u hu
    omega
  have h : Allocatable k.toNat σ.temps c σ :=
    ⟨hfp, hrv, Int.le_refl _, ⟨hbound, hpressure, _, _, Windows.start hnew⟩, hclosed⟩
  have havoid : Avoiding σ.temps c ∅ :=
    ⟨fun u hu => absurd hu (TempSet.not_mem_empty u), fun u hu hlt => absurd hlt (hnew u hu)⟩
  -- At the beginning every temp but the frame pointer is a candidate.
  have hcandidates : ∀ u, u ∈ candidates σ.temps c → u ∈ c.temps.erase c.frame.fp := by
    intro u hu
    obtain ⟨hmention, hne, -⟩ := mem_candidates.mp hu
    exact TempSet.mem_erase.mpr ⟨mem_temps.mpr hmention, hne⟩
  have hsize := TempSet.size_le_of_subset hcandidates
  obtain ⟨c', a, σ', ts, hrun, hrounds, hall, hnodup, hts, htemp⟩ :=
    allocateRounds_converges hk ((c.temps.erase c.frame.fp).size + 1) 0 [] h havoid
      (Nat.lt_succ_of_le hsize)
  rw [List.nil_append] at hall
  refine ⟨c', a, σ', ?_, by omega, hall ▸ hnodup, fun t ht => hcandidates t (hts t (hall ▸ ht)),
    hall ▸ htemp⟩
  unfold Code.allocate
  rw [if_neg (by omega)]
  exact hrun

end MmixBackend
