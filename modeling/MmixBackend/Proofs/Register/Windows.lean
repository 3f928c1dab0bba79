import MmixBackend.Proofs.Register.Allocation
import Mathlib.Data.Finset.Max

/-!
# The lifetimes of temps made for spill code

A temp that was made for a load or a store lives inside the window of one instruction: the loads before
it, the instruction itself and the stores behind it. So its lifetime is an interval of the list, no
label stands inside of it, and at most `k` of these intervals meet in one place. Liveness stays inside
of the intervals. A set of made temps therefore has one with fewer than `k` neighbours in the set, namely
the one that is born last: its neighbours in the set are alive where it is born.

## Main statements

- `Windows.alive_of_after`: a made temp is live only inside of its interval.
- `Windows.exists_few_neighbors`: among made temps there is one with few neighbours.
- `Windows.expand`: the windows behind the rewriting of one instruction.
-/

namespace MmixBackend

open InterferenceGraph

variable {fp : Temp} {k : Nat} {made : Temp → Prop} {instrs : List Instr} {first last : Temp → Nat}

/-! ## §1 Windows -/

/-- The lifetimes of the made temps of an instruction list: `t` is born behind the instruction at
`first t` and used last by the instruction at `last t`. -/
structure Windows (fp : Temp) (k : Nat) (made : Temp → Prop) (instrs : List Instr)
    (first last : Temp → Nat) : Prop where
  defs : ∀ {i instr t}, instrs[i]? = some instr → made t → t ∈ instr.defs → first t ≤ i ∧ i < last t
  uses : ∀ {i instr t}, instrs[i]? = some instr → made t → t ∈ instr.uses → first t < i ∧ i ≤ last t
  born : ∀ {t}, made t → first t < last t → ∃ instr, instrs[first t]? = some instr ∧ t ∈ instr.defs
  label : ∀ {i l t}, instrs[i]? = some (.label l) → made t → first t < i → last t < i
  /-- What is alive around an instruction with another temp is used or defined by it. -/
  core : ∀ {i instr u}, instrs[i]? = some instr → u ∈ instr.uses ∨ u ∈ instr.defs → ¬made u → u ≠ fp →
    (∀ t, made t → first t < i → i ≤ last t → t ∈ instr.uses) ∧
      ∀ t, made t → first t ≤ i → i < last t → t ∈ instr.defs
  few : ∀ i (ts : List Temp), ts.Nodup → (∀ t ∈ ts, made t ∧ first t ≤ i ∧ i < last t) →
    ts.length ≤ k

/-- As long as no made temp occurs all lifetimes are empty. -/
theorem Windows.start (hmade : ∀ t, Mentions instrs t → ¬made t) :
    Windows fp k made instrs (fun _ => 0) (fun _ => 0) where
  defs hi ht hmem := absurd ht (hmade _ ⟨_, List.mem_of_getElem? hi, .inr hmem⟩)
  uses hi ht hmem := absurd ht (hmade _ ⟨_, List.mem_of_getElem? hi, .inl hmem⟩)
  born _ hlt := absurd hlt (Nat.lt_irrefl 0)
  label _ _ hlt := hlt
  core _ _ _ _ := ⟨fun _ _ h₁ h₂ => by omega, fun _ _ h₁ h₂ => by omega⟩
  few i ts _ hts := by
    cases ts with
    | nil => exact Nat.zero_le k
    | cons t ts => exact absurd (hts t List.mem_cons_self).2.2 (Nat.not_lt_zero i)

/-- The intervals satisfy the dataflow equations, so that liveness stays inside of them. -/
theorem Windows.respects (h : Windows fp k made instrs first last)
    {exits : Std.TreeMap Label TempSet} (hexits : ∀ (l : Label) s, exits[l]? = some s →
      ∀ t ∈ s, ¬made t) :
    Liveness.Respects instrs exits (fun i t => made t → first t < i ∧ i ≤ last t)
      (fun i t => made t → first t ≤ i ∧ i < last t) where
  uses hi ht hmade := h.uses hi hmade ht
  through := by
    intro i instr t hi hafter hdef hmade
    obtain ⟨hfirst, hlast⟩ := hafter hmade
    refine ⟨Nat.lt_of_le_of_ne hfirst fun heq => ?_, Nat.le_of_lt hlast⟩
    obtain ⟨instr', hi', hdef'⟩ := h.born hmade (by omega)
    rw [heq, hi] at hi'
    cases hi'
    exact hdef hdef'
  flows := by
    rintro i j t ⟨instr, hi, ⟨-, rfl, -⟩ | ⟨-, l, -, hl⟩⟩ hbefore hmade
    · obtain ⟨hfirst, hlast⟩ := hbefore hmade
      exact ⟨by omega, by omega⟩
    · -- No interval contains the label that is jumped to.
      obtain ⟨hfirst, hlast⟩ := hbefore hmade
      have hlabel := h.label (Liveness.labelIndex_eq_some_iff.mp hl).1 hmade hfirst
      omega
  leaves := by
    intro i l s t _ hl ht hmade
    exact absurd hmade (hexits l s hl t ht)

theorem Windows.alive_of_after (h : Windows fp k made instrs first last)
    {exits : Std.TreeMap Label TempSet} (hexits : ∀ (l : Label) s, exits[l]? = some s → ∀ t ∈ s, ¬made t)
    {s : Liveness.Solution} (hs : Liveness.solve instrs exits = .ok s) {i : Nat} {t : Temp}
    (ht : s.After i t) (hmade : made t) : first t ≤ i ∧ i < last t :=
  (Liveness.Solution.least hs (h.respects hexits)).2 i t ht hmade

/-- Made temps that interfere are alive in the same place. -/
theorem Windows.alive_of_interfere (h : Windows fp k made instrs first last)
    {exits : Std.TreeMap Label TempSet} (hexits : ∀ (l : Label) s, exits[l]? = some s → ∀ t ∈ s, ¬made t)
    {s : Liveness.Solution} (hs : Liveness.solve instrs exits = .ok s) {i : Nat} {instr : Instr}
    {p : LivePoint} {a b : Temp} (hi : instrs[i]? = some instr) (hp : s.points[i]? = some p)
    (hint : Interfere instr p.after a b) (ha : made a) (hb : made b) :
    (first a ≤ i ∧ i < last a) ∧ first b ≤ i ∧ i < last b := by
  have hafter : ∀ t ∈ p.after, made t → first t ≤ i ∧ i < last t := by
    intro t ht
    refine h.alive_of_after hexits hs ?_
    show t ∈ (s.points.getD i default).after
    simpa [List.getD_eq_getElem?_getD, hp] using ht
  rcases hint with ⟨haa, hbb⟩ | ⟨haa, hbb⟩ | ⟨hbb, haa⟩
  · exact ⟨hafter a haa ha, hafter b hbb hb⟩
  · exact ⟨h.defs hi ha haa, hafter b hbb hb⟩
  · exact ⟨hafter a haa ha, h.defs hi hb hbb⟩

/-- **Among made temps there is one with few neighbours**: the one that is born last. -/
theorem Windows.exists_few_neighbors (h : Windows fp k made instrs first last) (hk : 0 < k)
    {exits : Std.TreeMap Label TempSet} (hexits : ∀ (l : Label) s, exits[l]? = some s → ∀ t ∈ s, ¬made t)
    {s : Liveness.Solution} (hs : Liveness.solve instrs exits = .ok s) {avoid : TempSet}
    (havoid : ∀ t ∈ avoid, made t) {is : List Nat} (hne : is ≠ [])
    (his : ∀ i ∈ is, Coloring.Avoided (build fp instrs s.points) avoid i) :
    ∃ i ∈ is, (((build fp instrs s.points).neighbors i).toList.filter (· ∈ is)).length < k := by
  have hg := wellFormed_build fp instrs s.points
  -- The temp of every vertex of the set, and its place of birth.
  let temp (i : Nat) : Temp := (((build fp instrs s.points).vertices[i]?).map Vertex.temp).getD ⟨0⟩
  have htemp : ∀ i ∈ is, (build fp instrs s.points).index[temp i]? = some i ∧ made (temp i) := by
    intro i hi
    obtain ⟨v, hv, hmem⟩ := his i hi
    have heq : temp i = v.temp := by simp [temp, hv]
    rw [heq]
    exact ⟨hg.index_iff.mpr ⟨v, hv, rfl⟩, havoid _ hmem⟩
  -- The vertex that is looked for is one that is born last.
  obtain ⟨i, hi, hmax⟩ := Finset.exists_max_image is.toFinset (fun i => first (temp i))
    (List.toFinset_nonempty_iff is |>.mpr hne)
  rw [List.mem_toFinset] at hi
  obtain ⟨hindex, hmade⟩ := htemp i hi
  refine ⟨i, hi, ?_⟩
  -- Neighbours in the set are different temps, alive where this one is born.
  have halive : ∀ j ∈ ((build fp instrs s.points).neighbors i).toList.filter (· ∈ is),
      temp j ≠ temp i ∧ made (temp j) ∧ first (temp j) ≤ first (temp i) ∧
        first (temp i) < last (temp j) ∧ first (temp i) < last (temp i) := by
    intro j hj
    obtain ⟨hmem, hjs⟩ := List.mem_filter.mp hj
    have hjs : j ∈ is := of_decide_eq_true hjs
    obtain ⟨hindex', hmade'⟩ := htemp j hjs
    have hadj : (build fp instrs s.points).Adjacent (temp i) (temp j) :=
      ⟨i, j, hindex, hindex', by simpa using hmem⟩
    obtain ⟨hdiff, -, -, q, instr, p, hq, hp, hint⟩ := (adjacent_build ..).mp hadj
    have hboth := h.alive_of_interfere hexits hs hq hp hint hmade hmade'
    have hle := hmax j (List.mem_toFinset.mpr hjs)
    exact ⟨Ne.symm hdiff, hmade', hle, by omega, by omega⟩
  -- Different vertices have different temps.
  have hnodup : ((((build fp instrs s.points).neighbors i).toList.filter (· ∈ is)).map temp).Nodup := by
    refine List.Nodup.map_on (fun j hj j' hj' heq => ?_) ((hg.nodup i).filter _)
    have hj := (htemp j (of_decide_eq_true (List.mem_filter.mp hj).2)).1
    have hj' := (htemp j' (of_decide_eq_true (List.mem_filter.mp hj').2)).1
    rw [heq, hj'] at hj
    exact (Option.some.inj hj).symm
  cases hnbrs : ((build fp instrs s.points).neighbors i).toList.filter (· ∈ is) with
  | nil => exact hk
  | cons j js =>
    rw [hnbrs] at halive hnodup
    -- With itself, the temps alive at its birth are at most `k`, so its neighbours are fewer.
    have hcount := h.few (first (temp i)) (temp i :: (j :: js).map temp) ?_ ?_
    · simp only [List.length_cons, List.length_map] at hcount ⊢
      omega
    · refine List.nodup_cons.mpr ⟨fun hmem => ?_, hnodup⟩
      obtain ⟨j', hj', heq⟩ := List.mem_map.mp hmem
      exact (halive j' hj').1 heq
    · intro t ht
      rcases List.mem_cons.mp ht with rfl | ht
      · exact ⟨hmade, Nat.le_refl _, (halive j List.mem_cons_self).2.2.2.2⟩
      · obtain ⟨j', hj', rfl⟩ := List.mem_map.mp ht
        obtain ⟨-, hmade', hle, hlt, -⟩ := halive j' hj'
        exact ⟨hmade', hle, hlt⟩

/-! ## §2 Rewriting one instruction -/

/-- What one instruction of a list becomes when the temp `t` is spilled in it: the instruction `core`
between loads and stores, with lifetimes of the new temps, whose numbers are greater than `n`, counted
from the first load on. -/
structure Block (fp t : Temp) (n : Int) (i core : Instr) (loads stores : List Instr)
    (first last : Temp → Nat) : Prop where
  auxiliary : ∀ instr, instr ∈ loads ∨ instr ∈ stores → (∀ l, instr ≠ .label l) ∧
    ∀ u, u ∈ instr.uses ∨ u ∈ instr.defs → n < u.index ∨ u = fp
  coreNotLabel : ∀ l, core ≠ .label l
  coreUses : ∀ u, u.index ≤ n → (u ∈ core.uses ↔ u ∈ i.uses ∧ u ≠ t)
  coreDefs : ∀ u, u.index ≤ n → (u ∈ core.defs ↔ u ∈ i.defs ∧ u ≠ t)
  mentioned : t ∈ i.uses ∨ t ∈ i.defs
  loaded : loads ≠ [] → t ∈ i.uses
  stored : stores ≠ [] → t ∈ i.defs
  defs : ∀ {j instr u}, (loads ++ core :: stores)[j]? = some instr → n < u.index → u ∈ instr.defs →
    first u ≤ j ∧ j < last u
  uses : ∀ {j instr u}, (loads ++ core :: stores)[j]? = some instr → n < u.index → u ∈ instr.uses →
    first u < j ∧ j ≤ last u
  born : ∀ {u}, n < u.index → first u < last u →
    ∃ instr, (loads ++ core :: stores)[first u]? = some instr ∧ u ∈ instr.defs
  before : ∀ {u}, n < u.index → first u < loads.length → loads.length ≤ last u → u ∈ core.uses
  after : ∀ {u}, n < u.index → first u ≤ loads.length → loads.length < last u → u ∈ core.defs
  within : ∀ {u}, n < u.index → last u ≤ loads.length + stores.length
  loadsFew : ∀ {j} {ts : List Temp}, j < loads.length → ts.Nodup →
    (∀ u ∈ ts, n < u.index ∧ first u ≤ j ∧ j < last u) → ts.length ≤ 1
  storesFew : ∀ {j} {ts : List Temp}, loads.length < j → ts.Nodup →
    (∀ u ∈ ts, n < u.index ∧ first u ≤ j ∧ j < last u) → ts.length ≤ 2

/-- Where an index of a list goes when `a` instructions are put before the one at `p`, and `b` behind
it. -/
def moved (p a b j : Nat) : Nat := if j < p then j else if j = p then p + a else j + (a + b)

section Moved

variable {p a b j q : Nat}

theorem moved_le_of_lt (hq : q < p) : moved p a b j ≤ q ↔ j ≤ q := by
  unfold moved
  split
  · rfl
  · split <;> omega

theorem moved_le_before (hp : p ≤ q) (hq : q < p + a) : moved p a b j ≤ q ↔ j < p := by
  unfold moved
  split
  · omega
  · split <;> omega

theorem moved_le_behind (hp : p + a ≤ q) (hq : q ≤ p + a + b) : moved p a b j ≤ q ↔ j ≤ p := by
  unfold moved
  split
  · omega
  · split <;> omega

theorem moved_le_of_gt (hq : p + a + b < q) : moved p a b j ≤ q ↔ j ≤ q - (a + b) := by
  unfold moved
  split
  · omega
  · split <;> omega

theorem moved_lt_of_lt (hq : q < p) : moved p a b j < q ↔ j < q := by
  unfold moved
  split
  · rfl
  · split <;> omega

theorem moved_lt_core : moved p a b j < p + a ↔ j < p := by
  unfold moved
  split
  · omega
  · split <;> omega

theorem moved_lt_of_gt (hq : p + a + b < q) : moved p a b j < q ↔ j < q - (a + b) := by
  unfold moved
  split
  · omega
  · split <;> omega

theorem lt_of_moved_lt {j' : Nat} (h : moved p a b j < moved p a b j') : j < j' := by
  by_contra hle
  rcases Nat.lt_trichotomy j p with hj | hj | hj
  · have : moved p a b j' ≤ j' := (moved_le_of_lt (by omega)).mpr (Nat.le_refl _)
    have : moved p a b j = j := if_pos hj
    omega
  · have : moved p a b j' ≤ p + a := (moved_le_behind (Nat.le_refl _) (by omega)).mpr (by omega)
    have : moved p a b j = p + a := by simp [moved, hj]
    omega
  · have hmoved : moved p a b j = j + (a + b) := by
      unfold moved
      rw [if_neg (by omega), if_neg (by omega)]
    have : moved p a b j' ≤ j + (a + b) := (moved_le_of_gt (by omega)).mpr (by omega)
    omega

end Moved

/-- The instructions of a list with a block in place of an instruction. -/
theorem getElem?_block {xs ys loads stores : List Instr} {i core instr : Instr} {j : Nat}
    (h : (xs ++ (loads ++ core :: stores) ++ ys)[j]? = some instr) :
    (j < xs.length ∧ (xs ++ i :: ys)[j]? = some instr) ∨
    (xs.length ≤ j ∧ j < xs.length + loads.length ∧ instr ∈ loads ∧
      (loads ++ core :: stores)[j - xs.length]? = some instr) ∨
    (j = xs.length + loads.length ∧ instr = core) ∨
    (xs.length + loads.length < j ∧ j ≤ xs.length + loads.length + stores.length ∧ instr ∈ stores ∧
      (loads ++ core :: stores)[j - xs.length]? = some instr) ∨
    (xs.length + loads.length + stores.length < j ∧
      (xs ++ i :: ys)[j - (loads.length + stores.length)]? = some instr ) := by
  -- Before the block, in it, or behind it.
  rcases Nat.lt_or_ge j xs.length with hlt | hge
  · refine .inl ⟨hlt, ?_⟩
    rw [List.append_assoc, List.getElem?_append_left hlt] at h
    rwa [List.getElem?_append_left hlt]
  rw [List.append_assoc, List.getElem?_append_right hge] at h
  rcases Nat.lt_or_ge (j - xs.length) (loads ++ core :: stores).length with hin | hout
  · rw [List.getElem?_append_left hin] at h
    simp only [List.length_append, List.length_cons] at hin
    rcases Nat.lt_trichotomy (j - xs.length) loads.length with hload | hcore | hstore
    · refine .inr (.inl ⟨hge, by omega, ?_, h⟩)
      rw [List.getElem?_append_left hload] at h
      exact List.mem_of_getElem? h
    · refine .inr (.inr (.inl ⟨by omega, ?_⟩))
      rw [hcore, List.getElem?_append_right (Nat.le_refl _)] at h
      simpa using h.symm
    · refine .inr (.inr (.inr (.inl ⟨by omega, by omega, ?_, h⟩)))
      rw [List.getElem?_append_right (Nat.le_of_lt hstore), List.getElem?_cons] at h
      rw [if_neg (by omega)] at h
      exact List.mem_of_getElem? h
  · refine .inr (.inr (.inr (.inr ?_)))
    rw [List.getElem?_append_right hout] at h
    simp only [List.length_append, List.length_cons] at hout h
    refine ⟨by omega, ?_⟩
    rw [List.getElem?_append_right (by omega), List.getElem?_cons, if_neg (by omega), ← h]
    congr 1
    omega

/-- Every instruction but the one that was rewritten is still there. -/
theorem getElem?_moved {xs ys loads stores : List Instr} {i core instr : Instr} {j : Nat}
    (h : (xs ++ i :: ys)[j]? = some instr) (hj : j ≠ xs.length) :
    (xs ++ (loads ++ core :: stores) ++ ys)[moved xs.length loads.length stores.length j]?
      = some instr := by
  unfold moved
  rcases Nat.lt_or_ge j xs.length with hlt | hge
  · rw [if_pos hlt, List.append_assoc, List.getElem?_append_left hlt]
    rwa [List.getElem?_append_left hlt] at h
  · rw [if_neg (by omega), if_neg hj, List.append_assoc, List.getElem?_append_right (by omega),
      List.getElem?_append_right (by simp only [List.length_append, List.length_cons]; omega)]
    rw [List.getElem?_append_right hge, List.getElem?_cons, if_neg (by omega)] at h
    rw [← h]
    simp only [List.length_append, List.length_cons]
    congr 1
    omega

/-- Different temps of a list other than `fp` are no more than its distinct temps. -/
theorem length_le_distinctTemps {ts us : List Temp} (hnodup : ts.Nodup)
    (h : ∀ t ∈ ts, t ∈ us ∧ t ≠ fp) : ts.length ≤ Instr.distinctTemps fp us := by
  refine (List.subperm_of_subset hnodup fun t ht => ?_).length_le
  have hmem : t ∈ (TempSet.ofList us).erase fp := by
    simpa [TempSet.mem_ofList] using h t ht
  exact hmem

/-- The lifetimes behind the rewriting: those of the block for new temps, and the old ones moved. -/
def joined (n : Int) (p a b : Nat) (new old : Temp → Nat) (u : Temp) : Nat :=
  if n < u.index then p + new u else moved p a b (old u)

theorem joined_new {n : Int} {p a b : Nat} {new old : Temp → Nat} {u : Temp} (hu : n < u.index) :
    joined n p a b new old u = p + new u := if_pos hu

theorem joined_old {n : Int} {p a b : Nat} {new old : Temp → Nat} {u : Temp} (hu : u.index ≤ n) :
    joined n p a b new old u = moved p a b (old u) := if_neg (by omega)

section Expand

variable {t : Temp} {n₀ n : Int} {i core : Instr} {xs ys loads stores : List Instr}
  {first' last' : Temp → Nat}

/-! ### What is alive in one place

New temps live in the block, made temps that were there before have moved. -/

/-- The temps are new and alive behind the instruction at `q`. -/
structure NewAt (n : Int) (p : Nat) (first last : Temp → Nat) (q : Nat) (us : List Temp) : Prop where
  nodup : us.Nodup
  new : ∀ u ∈ us, n < u.index
  alive : ∀ u ∈ us, p + first u ≤ q ∧ q < p + last u

/-- The temps were made before, and have their moved lifetimes around `q`. -/
structure OldAt (n₀ n : Int) (p a b : Nat) (first last : Temp → Nat) (q : Nat) (us : List Temp) :
    Prop where
  nodup : us.Nodup
  old : ∀ u ∈ us, n₀ < u.index ∧ u.index ≤ n
  alive : ∀ u ∈ us, moved p a b (first u) ≤ q ∧ q < moved p a b (last u)

/-- Every temp that is alive is a new or an old one. -/
theorem exists_newAt_oldAt {p a b q : Nat} {ts : List Temp} (hnodup : ts.Nodup)
    (hts : ∀ u ∈ ts, n₀ < u.index ∧ joined n p a b first' first u ≤ q ∧ q < joined n p a b last' last u) :
    ∃ new old, ts.length = new.length + old.length ∧ NewAt n p first' last' q new ∧
      OldAt n₀ n p a b first last q old := by
  refine ⟨ts.filter (n < ·.index), ts.filter (fun u => !decide (n < u.index)),
    List.length_eq_length_filter_add _, ⟨hnodup.filter _, fun u hu => ?_, fun u hu => ?_⟩,
    ⟨hnodup.filter _, fun u hu => ?_, fun u hu => ?_⟩⟩
  all_goals obtain ⟨hmem, hn⟩ := List.mem_filter.mp hu
  · exact of_decide_eq_true hn
  · have hu := (hts u hmem).2
    rwa [joined_new (of_decide_eq_true hn), joined_new (of_decide_eq_true hn)] at hu
  · exact ⟨(hts u hmem).1, by simpa using hn⟩
  · have hu := (hts u hmem).2
    have hle : u.index ≤ n := by simpa using hn
    rwa [joined_old hle, joined_old hle] at hu

section Places

variable {q : Nat} {new old : List Temp}

theorem NewAt.eq_nil_of_lt (hnew : NewAt n xs.length first' last' q new) (hq : q < xs.length) :
    new = [] :=
  List.eq_nil_iff_forall_not_mem.mpr fun u hu => by
    have hfirst := (hnew.alive u hu).1
    omega

theorem NewAt.eq_nil_of_gt (hnew : NewAt n xs.length first' last' q new)
    (hb : Block fp t n i core loads stores first' last')
    (hq : xs.length + loads.length + stores.length < q) :
    new = [] :=
  List.eq_nil_iff_forall_not_mem.mpr fun u hu => by
    have hlast := (hnew.alive u hu).2
    have hwithin := hb.within (hnew.new u hu)
    omega

theorem OldAt.length_le_of_lt (hold : OldAt n₀ n xs.length loads.length stores.length first last q old)
    (h : Windows fp k (n₀ < ·.index) (xs ++ i :: ys) first last) (hq : q < xs.length) :
    old.length ≤ k := by
  refine h.few q old hold.nodup fun u hu => ⟨(hold.old u hu).1, ?_⟩
  obtain ⟨hfirst, hlast⟩ := hold.alive u hu
  rw [moved_le_of_lt hq] at hfirst
  rw [← Nat.not_le, moved_le_of_lt hq] at hlast
  exact ⟨hfirst, Nat.not_le.mp hlast⟩

theorem OldAt.length_le_of_gt (hold : OldAt n₀ n xs.length loads.length stores.length first last q old)
    (h : Windows fp k (n₀ < ·.index) (xs ++ i :: ys) first last)
    (hq : xs.length + loads.length + stores.length < q) : old.length ≤ k := by
  refine h.few (q - (loads.length + stores.length)) old hold.nodup fun u hu => ⟨(hold.old u hu).1, ?_⟩
  obtain ⟨hfirst, hlast⟩ := hold.alive u hu
  rw [moved_le_of_gt hq] at hfirst
  rw [← Nat.not_le, moved_le_of_gt hq] at hlast
  exact ⟨hfirst, Nat.not_le.mp hlast⟩

/-- What is alive in front of the instruction is used by it. -/
theorem OldAt.used (hold : OldAt n₀ n xs.length loads.length stores.length first last q old)
    (hbefore : ∀ u, n₀ < u.index → first u < xs.length → xs.length ≤ last u → u ∈ i.uses)
    (hq : xs.length ≤ q) (hq' : q < xs.length + loads.length) : ∀ u ∈ old, u ∈ i.uses := by
  intro u hu
  obtain ⟨hfirst, hlast⟩ := hold.alive u hu
  rw [moved_le_before hq hq'] at hfirst
  rw [← Nat.not_le, moved_le_before hq hq'] at hlast
  exact hbefore u (hold.old u hu).1 hfirst (Nat.not_lt.mp hlast)

/-- What is alive behind the instruction is defined by it. -/
theorem OldAt.defined (hold : OldAt n₀ n xs.length loads.length stores.length first last q old)
    (hafter : ∀ u, n₀ < u.index → first u ≤ xs.length → xs.length < last u → u ∈ i.defs)
    (hq : xs.length + loads.length ≤ q) (hq' : q ≤ xs.length + loads.length + stores.length) :
    ∀ u ∈ old, u ∈ i.defs := by
  intro u hu
  obtain ⟨hfirst, hlast⟩ := hold.alive u hu
  rw [moved_le_behind hq hq'] at hfirst
  rw [← Nat.not_le, moved_le_behind hq hq'] at hlast
  exact hafter u (hold.old u hu).1 hfirst (Nat.not_le.mp hlast)

/-- Old temps together with `t` are distinct temps of the instruction. -/
theorem OldAt.length_succ_le {p a b : Nat} (hold : OldAt n₀ n p a b first last q old)
    (hfp : fp.index ≤ n₀) (ht : t.index ≤ n₀) (htfp : t ≠ fp) {us : List Temp} (htus : t ∈ us)
    (hus : ∀ u ∈ old, u ∈ us) :
    old.length + 1 ≤ Instr.distinctTemps fp us := by
  have hne {u w : Temp} (hu : u ∈ old) (hw : w.index ≤ n₀) : u ≠ w := by
    rintro rfl
    exact absurd (hold.old u hu).1 (Int.not_lt.mpr hw)
  show (t :: old).length ≤ _
  refine length_le_distinctTemps (List.nodup_cons.mpr ⟨fun hmem => hne hmem ht rfl, hold.nodup⟩)
    fun u hu => ?_
  rcases List.mem_cons.mp hu with rfl | hu
  · exact ⟨htus, htfp⟩
  · exact ⟨hus u hu, hne hu hfp⟩

/-- Directly behind the instruction everything alive is defined by it. -/
theorem length_add_le (hnew : NewAt n xs.length first' last' (xs.length + loads.length) new)
    (hold : OldAt n₀ n xs.length loads.length stores.length first last (xs.length + loads.length) old)
    (hb : Block fp t n i core loads stores first' last') (hn : n₀ ≤ n) (hfp : fp.index ≤ n₀)
    (ht : t.index ≤ n₀) (hdefined : ∀ u ∈ old, u ∈ i.defs) :
    new.length + old.length ≤ Instr.distinctTemps fp core.defs := by
  have hne {u w : Temp} (hu : n₀ < u.index) (hw : w.index ≤ n₀) : u ≠ w := by
    rintro rfl
    exact absurd hu (Int.not_lt.mpr hw)
  rw [← List.length_append]
  refine length_le_distinctTemps (List.nodup_append.mpr ⟨hnew.nodup, hold.nodup, fun u hu w hw heq => ?_⟩)
    fun u hu => ?_
  · have hu := hnew.new u hu
    have hw := (hold.old w hw).2
    rw [heq] at hu
    omega
  · rcases List.mem_append.mp hu with hu | hu
    · have halive := hnew.alive u hu
      have hu := hnew.new u hu
      exact ⟨hb.after hu (by omega) (by omega), hne (Int.lt_of_le_of_lt hn hu) hfp⟩
    · obtain ⟨hmade, hle⟩ := hold.old u hu
      exact ⟨(hb.coreDefs u hle).mpr ⟨hdefined u hu, hne hmade ht⟩, hne hmade hfp⟩

end Places

/-- Few temps are alive anywhere behind the rewriting. Before the instruction these are temps that it
uses besides `t`, and one new temp; behind it temps that it defines besides `t`, and two new temps. -/
theorem Windows.few_expand (h : Windows fp k (n₀ < ·.index) (xs ++ i :: ys) first last)
    (hb : Block fp t n i core loads stores first' last') (hn : n₀ ≤ n) (hfp : fp.index ≤ n₀)
    (ht : t.index ≤ n₀) (htfp : t ≠ fp) (huses : Instr.distinctTemps fp i.uses ≤ k)
    (hdefs : Instr.distinctTemps fp i.defs + 1 ≤ k) (hcore : Instr.distinctTemps fp core.defs ≤ k)
    (q : Nat) (ts : List Temp) (hnodup : ts.Nodup)
    (hts : ∀ u ∈ ts, n₀ < u.index ∧
      joined n xs.length loads.length stores.length first' first u ≤ q ∧
      q < joined n xs.length loads.length stores.length last' last u) : ts.length ≤ k := by
  have hi : (xs ++ i :: ys)[xs.length]? = some i := by simp
  obtain ⟨hbefore, hafter⟩ := h.core hi hb.mentioned (by omega) htfp
  obtain ⟨new, old, hlength, hnew, hold⟩ := exists_newAt_oldAt hnodup hts
  rcases Nat.lt_or_ge q xs.length with hq | hq
  · -- Before the block there are only old temps.
    rw [hlength, hnew.eq_nil_of_lt hq, List.length_nil, Nat.zero_add]
    exact hold.length_le_of_lt h hq
  rcases Nat.lt_or_ge q (xs.length + loads.length) with hload | hload
  · -- In front of the instruction.
    have hloads : loads ≠ [] := List.ne_nil_of_length_pos (by omega)
    have hone := hb.loadsFew (j := q - xs.length) (by omega) hnew.nodup fun u hu => by
      have halive := hnew.alive u hu
      exact ⟨hnew.new u hu, by omega, by omega⟩
    have hused := hold.length_succ_le hfp ht htfp (hb.loaded hloads) (hold.used hbefore hq hload)
    omega
  rcases Nat.lt_or_ge (xs.length + loads.length + stores.length) q with hlate | hstore
  · -- Behind the block there are only old temps again.
    rw [hlength, hnew.eq_nil_of_gt hb hlate, List.length_nil, Nat.zero_add]
    exact hold.length_le_of_gt h hlate
  have hdefined := hold.defined hafter hload hstore
  rcases Nat.lt_or_ge (xs.length + loads.length) q with hbehind | hat
  · -- Among the stores.
    have hstores : stores ≠ [] := List.ne_nil_of_length_pos (by omega)
    have htwo := hb.storesFew (j := q - xs.length) (by omega) hnew.nodup fun u hu => by
      have halive := hnew.alive u hu
      exact ⟨hnew.new u hu, by omega, by omega⟩
    have hcount := hold.length_succ_le hfp ht htfp (hb.stored hstores) hdefined
    omega
  · obtain rfl : q = xs.length + loads.length := Nat.le_antisymm hat hload
    exact hlength ▸ Nat.le_trans (length_add_le hnew hold hb hn hfp ht hdefined) hcore

theorem Block.index_lt (hb : Block fp t n i core loads stores first' last')
    (hfp : fp.index ≤ n₀) {instr : Instr} {u : Temp} (hinstr : instr ∈ loads ∨ instr ∈ stores)
    (hu : u ∈ instr.uses ∨ u ∈ instr.defs) (hmade : n₀ < u.index) : n < u.index := by
  rcases (hb.auxiliary instr hinstr).2 u hu with h₁ | h₁
  · exact h₁
  · rw [h₁] at hmade
    omega

variable (h : Windows fp k (n₀ < ·.index) (xs ++ i :: ys) first last)
  (hb : Block fp t n i core loads stores first' last')

include h hb

theorem Windows.defs_expand (hfp : fp.index ≤ n₀)
    (hbound : ∀ u, Mentions (xs ++ i :: ys) u → u.index ≤ n) {j : Nat} {instr : Instr} {u : Temp}
    (hj : (xs ++ (loads ++ core :: stores) ++ ys)[j]? = some instr) (hmade : n₀ < u.index)
    (hu : u ∈ instr.defs) :
    joined n xs.length loads.length stores.length first' first u ≤ j ∧
      j < joined n xs.length loads.length stores.length last' last u := by
  have hi : (xs ++ i :: ys)[xs.length]? = some i := by simp
  rcases getElem?_block (i := i) hj with ⟨hlt, hj⟩ | ⟨hge, -, hmem, hj⟩ | ⟨rfl, rfl⟩ |
    ⟨hgt, -, hmem, hj⟩ | ⟨hgt, hj⟩
  -- Outside the block only old temps are defined, by the loads and stores only new ones.
  · have hun := hbound _ ⟨_, List.mem_of_getElem? hj, .inr hu⟩
    have := h.defs hj hmade hu
    rw [joined_old hun, joined_old hun, moved_le_of_lt hlt, ← Nat.not_le, moved_le_of_lt hlt]
    omega
  · have hun := hb.index_lt hfp (.inl hmem) (.inr hu) hmade
    have := hb.defs hj hun hu
    rw [joined_new hun, joined_new hun]
    omega
  · -- The renamed instruction defines both kinds.
    rcases Int.lt_or_le n u.index with hun | hun
    · have := hb.defs (j := loads.length) (by simp) hun hu
      rw [joined_new hun, joined_new hun]
      omega
    · have := h.defs hi hmade ((hb.coreDefs u hun).mp hu).1
      rw [joined_old hun, joined_old hun, ← Nat.not_le, moved_le_behind (Nat.le_refl _) (by omega),
        moved_le_behind (Nat.le_refl _) (by omega)]
      omega
  · have hun := hb.index_lt hfp (.inr hmem) (.inr hu) hmade
    have := hb.defs hj hun hu
    rw [joined_new hun, joined_new hun]
    omega
  · have hun := hbound _ ⟨_, List.mem_of_getElem? hj, .inr hu⟩
    have := h.defs hj hmade hu
    rw [joined_old hun, joined_old hun, ← Nat.not_le, moved_le_of_gt hgt, moved_le_of_gt hgt]
    omega

theorem Windows.uses_expand (hfp : fp.index ≤ n₀)
    (hbound : ∀ u, Mentions (xs ++ i :: ys) u → u.index ≤ n) {j : Nat} {instr : Instr} {u : Temp}
    (hj : (xs ++ (loads ++ core :: stores) ++ ys)[j]? = some instr) (hmade : n₀ < u.index)
    (hu : u ∈ instr.uses) :
    joined n xs.length loads.length stores.length first' first u < j ∧
      j ≤ joined n xs.length loads.length stores.length last' last u := by
  have hi : (xs ++ i :: ys)[xs.length]? = some i := by simp
  -- Before the block, in its loads, at its instruction, in its stores, or behind it.
  rcases getElem?_block (i := i) hj with ⟨hlt, hj⟩ | ⟨hge, -, hmem, hj⟩ | ⟨rfl, rfl⟩ |
    ⟨hgt, -, hmem, hj⟩ | ⟨hgt, hj⟩
  · have hun := hbound _ ⟨_, List.mem_of_getElem? hj, .inl hu⟩
    have := h.uses hj hmade hu
    rw [joined_old hun, joined_old hun, moved_lt_of_lt hlt, ← Nat.not_lt, moved_lt_of_lt hlt]
    omega
  · have hun := hb.index_lt hfp (.inl hmem) (.inl hu) hmade
    have := hb.uses hj hun hu
    rw [joined_new hun, joined_new hun]
    omega
  · rcases Int.lt_or_le n u.index with hun | hun
    · have := hb.uses (j := loads.length) (by simp) hun hu
      rw [joined_new hun, joined_new hun]
      omega
    · have := h.uses hi hmade ((hb.coreUses u hun).mp hu).1
      rw [joined_old hun, joined_old hun, moved_lt_core, ← Nat.not_lt, moved_lt_core]
      omega
  · have hun := hb.index_lt hfp (.inr hmem) (.inl hu) hmade
    have := hb.uses hj hun hu
    rw [joined_new hun, joined_new hun]
    omega
  · have hun := hbound _ ⟨_, List.mem_of_getElem? hj, .inl hu⟩
    have := h.uses hj hmade hu
    rw [joined_old hun, joined_old hun, moved_lt_of_gt hgt, ← Nat.not_lt, moved_lt_of_gt hgt]
    omega

theorem Windows.born_expand (ht : t.index ≤ n₀) {u : Temp} (hmade : n₀ < u.index)
    (hlt : joined n xs.length loads.length stores.length first' first u
      < joined n xs.length loads.length stores.length last' last u) :
    ∃ instr, (xs ++ (loads ++ core :: stores) ++ ys)[joined n xs.length loads.length stores.length
      first' first u]? = some instr ∧ u ∈ instr.defs := by
  have hi : (xs ++ i :: ys)[xs.length]? = some i := by simp
  -- A temp of the block is born in the block, and an older one where it was, moved along with the list.
  rcases Int.lt_or_le n u.index with hun | hun
  · rw [joined_new hun, joined_new hun] at hlt
    obtain ⟨instr, hinstr, hu⟩ := hb.born hun (by omega)
    refine ⟨instr, ?_, hu⟩
    rw [joined_new hun, List.append_assoc, List.getElem?_append_right (Nat.le_add_right ..),
      Nat.add_sub_cancel_left]
    rw [List.getElem?_append_left (List.getElem?_eq_some_iff.mp hinstr).1]
    exact hinstr
  · rw [joined_old hun, joined_old hun] at hlt
    rw [joined_old hun]
    obtain ⟨instr, hinstr, hu⟩ := h.born hmade (lt_of_moved_lt hlt)
    -- A temp that was born at the instruction is born at the renamed one, as it is not `t`.
    by_cases hp : first u = xs.length
    · rw [hp, hi] at hinstr
      cases hinstr
      refine ⟨core, ?_, (hb.coreDefs u hun).mpr ⟨hu, fun heq => ?_⟩⟩
      · simp [moved, hp]
      · rw [heq] at hmade
        omega
    · exact ⟨instr, getElem?_moved hinstr hp, hu⟩

theorem Windows.label_expand {j : Nat} {l : Label} {u : Temp}
    (hj : (xs ++ (loads ++ core :: stores) ++ ys)[j]? = some (.label l)) (hmade : n₀ < u.index)
    (hlt : joined n xs.length loads.length stores.length first' first u < j) :
    joined n xs.length loads.length stores.length last' last u < j := by
  rcases getElem?_block (i := i) hj with ⟨hlt', hj⟩ | ⟨-, -, hmem, -⟩ | ⟨-, heq⟩ |
    ⟨-, -, hmem, -⟩ | ⟨hgt, hj⟩
  · rcases Int.lt_or_le n u.index with hun | hun
    · rw [joined_new hun] at hlt
      omega
    · rw [joined_old hun, moved_lt_of_lt hlt'] at hlt ⊢
      exact h.label hj hmade hlt
  · exact absurd rfl ((hb.auxiliary _ (.inl hmem)).1 l)
  · exact absurd heq.symm (hb.coreNotLabel l)
  · exact absurd rfl ((hb.auxiliary _ (.inr hmem)).1 l)
  · rcases Int.lt_or_le n u.index with hun | hun
    · rw [joined_new hun]
      have := hb.within hun
      omega
    · rw [joined_old hun, moved_lt_of_gt hgt] at hlt ⊢
      exact h.label hj hmade hlt

theorem Windows.core_expand (hn : n₀ ≤ n) (ht : t.index ≤ n₀) (htfp : t ≠ fp) {j : Nat}
    {instr : Instr} {w : Temp} (hj : (xs ++ (loads ++ core :: stores) ++ ys)[j]? = some instr)
    (hw : w ∈ instr.uses ∨ w ∈ instr.defs) (hnot : ¬n₀ < w.index) (hwfp : w ≠ fp) :
    (∀ u, n₀ < u.index → joined n xs.length loads.length stores.length first' first u < j →
      j ≤ joined n xs.length loads.length stores.length last' last u → u ∈ instr.uses) ∧
    ∀ u, n₀ < u.index → joined n xs.length loads.length stores.length first' first u ≤ j →
      j < joined n xs.length loads.length stores.length last' last u → u ∈ instr.defs := by
  have hi : (xs ++ i :: ys)[xs.length]? = some i := by simp
  rcases getElem?_block (i := i) hj with ⟨hlt, hj⟩ | ⟨-, -, hmem, -⟩ | ⟨rfl, rfl⟩ |
    ⟨-, -, hmem, -⟩ | ⟨hgt, hj⟩
  -- Before and behind the block the windows have only moved; those of new temps lie in the block.
  · obtain ⟨hbefore, hafter⟩ := h.core hj hw hnot hwfp
    refine ⟨fun u hmade h₁ h₂ => ?_, fun u hmade h₁ h₂ => ?_⟩
    · rcases Int.lt_or_le n u.index with hun | hun
      · rw [joined_new hun] at h₁
        omega
      · rw [joined_old hun, moved_lt_of_lt hlt] at h₁
        rw [joined_old hun, ← Nat.not_lt, moved_lt_of_lt hlt] at h₂
        exact hbefore u hmade h₁ (by omega)
    · rcases Int.lt_or_le n u.index with hun | hun
      · rw [joined_new hun] at h₁
        omega
      · rw [joined_old hun, moved_le_of_lt hlt] at h₁
        rw [joined_old hun, ← Nat.not_le, moved_le_of_lt hlt] at h₂
        exact hafter u hmade h₁ (by omega)
  -- Loads and stores mention no temp of the code as given but the frame pointer.
  · rcases (hb.auxiliary _ (.inl hmem)).2 w hw with h₁ | h₁
    · exact absurd (show n₀ < w.index by omega) hnot
    · exact absurd h₁ hwfp
  -- The instruction mentioned `t`, so it used and defined whatever was alive around it.
  · obtain ⟨hbefore, hafter⟩ := h.core hi hb.mentioned (show ¬n₀ < t.index by omega) htfp
    refine ⟨fun u hmade h₁ h₂ => ?_, fun u hmade h₁ h₂ => ?_⟩
    · rcases Int.lt_or_le n u.index with hun | hun
      · rw [joined_new hun] at h₁ h₂
        exact hb.before hun (by omega) (by omega)
      · rw [joined_old hun, moved_lt_core] at h₁
        rw [joined_old hun, ← Nat.not_lt, moved_lt_core] at h₂
        refine (hb.coreUses u hun).mpr ⟨hbefore u hmade h₁ (by omega), fun heq => ?_⟩
        rw [heq] at hmade
        omega
    · rcases Int.lt_or_le n u.index with hun | hun
      · rw [joined_new hun] at h₁ h₂
        exact hb.after hun (by omega) (by omega)
      · rw [joined_old hun, moved_le_behind (Nat.le_refl _) (by omega)] at h₁
        rw [joined_old hun, ← Nat.not_le, moved_le_behind (Nat.le_refl _) (by omega)] at h₂
        refine (hb.coreDefs u hun).mpr ⟨hafter u hmade h₁ (by omega), fun heq => ?_⟩
        rw [heq] at hmade
        omega
  · rcases (hb.auxiliary _ (.inr hmem)).2 w hw with h₁ | h₁
    · exact absurd (show n₀ < w.index by omega) hnot
    · exact absurd h₁ hwfp
  · obtain ⟨hbefore, hafter⟩ := h.core hj hw hnot hwfp
    refine ⟨fun u hmade h₁ h₂ => ?_, fun u hmade h₁ h₂ => ?_⟩
    · rcases Int.lt_or_le n u.index with hun | hun
      · rw [joined_new hun] at h₂
        have := hb.within hun
        omega
      · rw [joined_old hun, moved_lt_of_gt hgt] at h₁
        rw [joined_old hun, ← Nat.not_lt, moved_lt_of_gt hgt] at h₂
        exact hbefore u hmade h₁ (by omega)
    · rcases Int.lt_or_le n u.index with hun | hun
      · rw [joined_new hun] at h₂
        have := hb.within hun
        omega
      · rw [joined_old hun, moved_le_of_gt hgt] at h₁
        rw [joined_old hun, ← Nat.not_le, moved_le_of_gt hgt] at h₂
        exact hafter u hmade h₁ (by omega)

/-- **The windows behind the rewriting of one instruction.** -/
theorem Windows.expand (hn : n₀ ≤ n) (hfp : fp.index ≤ n₀) (ht : t.index ≤ n₀) (htfp : t ≠ fp)
    (huses : Instr.distinctTemps fp i.uses ≤ k) (hdefs : Instr.distinctTemps fp i.defs + 1 ≤ k)
    (hcore : Instr.distinctTemps fp core.defs ≤ k)
    (hbound : ∀ u, Mentions (xs ++ i :: ys) u → u.index ≤ n) :
    Windows fp k (n₀ < ·.index) (xs ++ (loads ++ core :: stores) ++ ys)
      (joined n xs.length loads.length stores.length first' first)
      (joined n xs.length loads.length stores.length last' last) where
  defs := h.defs_expand hb hfp hbound
  uses := h.uses_expand hb hfp hbound
  born := h.born_expand hb ht
  label := h.label_expand hb
  core := h.core_expand hb hn ht htfp
  few := h.few_expand hb hn hfp ht htfp huses hdefs hcore

end Expand

end MmixBackend
