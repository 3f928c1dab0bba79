import Mathlib.Logic.Relation
import MmixBackend.Proofs.Renaming

/-!
# Compiling functions at the same time

Functions that are compiled at the same time take their temps from one counter, in whatever order they
happen to ask. A function therefore sees an increasing sequence of temps with gaps. Such a sequence is a
renaming, in order, of the consecutive temps that the function would draw if it were alone, and so is the
sequence that it sees when the functions are compiled one after the other. Compilation does not see the
difference.

## Main statements

- `Workers.Step`: one of the functions draws the next temp.
- `Workers.exists_run`: the functions can always be brought to an end.
- `interleaving_unchanged`: every interleaving has the output of the sequential compilation.
-/

namespace MmixBackend

/-! ## §1 Histories -/

namespace Drawing

variable {α β : Type}

/-- A computation that has drawn the given temps goes on as another one. -/
inductive Feeds : Drawing α → List Temp → Drawing α → Prop
  | nil {d} : Feeds d [] d
  | cons {next t ts d} : Feeds (next t) ts d → Feeds (draw next) (t :: ts) d

/-- A computation that draws the given temps has a result. -/
def Draws (d : Drawing α) (ts : List Temp) (a : α) : Prop := Feeds d ts (done a)

theorem Feeds.concat {d : Drawing α} {ts : List Temp} {next : Temp → Drawing α}
    (h : Feeds d ts (draw next)) (t : Temp) : Feeds d (ts ++ [t]) (next t) := by
  generalize he : draw next = e at h
  induction h with
  | nil =>
    subst he
    exact .cons .nil
  | cons _ ih => exact .cons (ih he)

/-- The temps that follow `base`. -/
def consecutive : (base : Int) → (n : Nat) → List Temp
  | _, 0 => []
  | base, n + 1 => ⟨base + 1⟩ :: consecutive (base + 1) n

/-- A computation that draws consecutive temps has one result. -/
theorem Draws.unique {d : Drawing α} {base : Int} {n m : Nat} {a b : α}
    (ha : Draws d (consecutive base n) a) (hb : Draws d (consecutive base m) b) : a = b := by
  -- A computation that is done draws nothing, and one that draws goes on with the temp it got.
  induction d generalizing base n m with
  | done c =>
    cases n with
    | zero =>
      cases m with
      | zero =>
        cases ha
        cases hb
        rfl
      | succ m => cases hb
    | succ n => cases ha
  | draw next ih =>
    cases n with
    | zero => cases ha
    | succ n =>
      cases m with
      | zero => cases hb
      | succ m =>
        cases ha with
        | cons ha =>
          cases hb with
          | cons hb => exact ih _ ha hb

theorem lt_of_mem_consecutive {base : Int} {n : Nat} {t : Temp} (h : t ∈ consecutive base n) :
    base < t.index := by
  induction n generalizing base with
  | zero => cases h
  | succ n ih =>
    rcases List.mem_cons.mp h with rfl | h
    · show base < base + 1
      omega
    · have hlt := ih h
      omega

theorem sorted_consecutive (base : Int) (n : Nat) : (consecutive base n).Pairwise (· < ·) := by
  induction n generalizing base with
  | zero => exact .nil
  | succ n ih => exact .cons (fun t ht => lt_of_mem_consecutive ht) (ih (base + 1))

/-- A supply hands out consecutive temps. -/
theorem draws_sequential (d : Drawing α) (σ : Supply) : ∃ n : Nat,
    Draws d (consecutive σ.temps n) (d.sequential.run σ).1 ∧
      (d.sequential.run σ).2.temps = σ.temps + n := by
  induction d generalizing σ with
  | done a => exact ⟨0, .nil, (Int.add_zero _).symm⟩
  | draw next ih =>
    obtain ⟨n, hdraws, htemps⟩ := ih ⟨σ.temps + 1⟩ { σ with temps := σ.temps + 1 }
    refine ⟨n + 1, .cons hdraws, htemps.trans ?_⟩
    simp only
    omega

variable {ρ : Renaming} {R : α → β → Prop}

/-- A computation in step with another one follows it when it draws the renamed temps. -/
theorem Alike.draws {d : Drawing α} {d' : Drawing β} (h : Alike ρ R d d') {ts : List Temp} {a : α}
    (hd : Draws d ts a) : ∃ b, Draws d' (ts.map ρ) b ∧ R a b := by
  induction h generalizing ts with
  | done hab =>
    cases hd
    exact ⟨_, .nil, hab⟩
  | draw _ ih =>
    cases hd with
    | cons hd =>
      obtain ⟨b, hb, hab⟩ := ih _ hd
      exact ⟨b, .cons hb, hab⟩

theorem Alike.draws_of_map {d : Drawing α} {d' : Drawing β} (h : Alike ρ R d d') {ts : List Temp} {b : β}
    (hd : Draws d' (ts.map ρ) b) : ∃ a, Draws d ts a ∧ R a b := by
  induction h generalizing ts with
  | done hab =>
    cases ts with
    | nil =>
      cases hd
      exact ⟨_, .nil, hab⟩
    | cons t ts => cases hd
  | draw _ ih =>
    cases ts with
    | nil => cases hd
    | cons t ts =>
      cases hd with
      | cons hd =>
        obtain ⟨a, ha, hab⟩ := ih t hd
        exact ⟨a, .cons ha, hab⟩

end Drawing

namespace Renaming

/-- Keeps the temps up to `base`; those behind it are moved behind `t` and renamed there. -/
def moveBehind (ρ : Renaming) {base : Int} {t : Temp} (hbase : base < t.index) (hfix : ρ t = t) :
    Renaming where
  apply u := if u.index ≤ base then u else ρ ⟨u.index - (base + 1) + t.index⟩
  lt_of_lt := by
    intro u v huv
    have huv' : u.index < v.index := huv
    by_cases hv : v.index ≤ base
    · have hu : u.index ≤ base := by omega
      simpa only [if_pos hu, if_pos hv] using huv
    · rw [if_neg hv]
      split
      · -- The image of `t` is a bound for everything that has been moved.
        next hu =>
        have hle : ¬ρ ⟨v.index - (base + 1) + t.index⟩ < ρ t := by
          rw [ρ.lt_iff]
          show ¬v.index - (base + 1) + t.index < t.index
          omega
        rw [hfix] at hle
        have hle' : ¬(ρ ⟨v.index - (base + 1) + t.index⟩).index < t.index := hle
        show u.index < (ρ ⟨v.index - (base + 1) + t.index⟩).index
        omega
      · apply ρ.lt_of_lt
        show u.index - (base + 1) + t.index < v.index - (base + 1) + t.index
        omega

theorem map_moveBehind (ρ : Renaming) {base : Int} {t : Temp} (hbase : base < t.index) (hfix : ρ t = t)
    {b : Int} (hb : base ≤ b) (n : Nat) : (Drawing.consecutive b n).map (ρ.moveBehind hbase hfix)
      = (Drawing.consecutive (b - (base + 1) + t.index) n).map ρ := by
  induction n generalizing b with
  | zero => rfl
  | succ n ih =>
    have hhead : ρ.moveBehind hbase hfix ⟨b + 1⟩ = ρ ⟨b - (base + 1) + t.index + 1⟩ := by
      have hindex : b + 1 - (base + 1) + t.index = b - (base + 1) + t.index + 1 := by omega
      have hnew : ¬b + 1 ≤ base := by omega
      simp only [moveBehind, if_neg hnew, hindex]
    have htail : b + 1 - (base + 1) + t.index = b - (base + 1) + t.index + 1 := by omega
    simp only [Drawing.consecutive, List.map_cons, hhead]
    rw [ih (by omega), htail]

/-- **Every increasing sequence of new temps renames the consecutive ones** and keeps the old temps. -/
theorem exists_onto (base : Int) {ts : List Temp} (hsorted : ts.Pairwise (· < ·))
    (hnew : ∀ t ∈ ts, base < t.index) : ∃ ρ : Renaming,
      (∀ t, t.index ≤ base → ρ t = t) ∧ (Drawing.consecutive base ts.length).map ρ = ts := by
  induction ts generalizing base with
  | nil => exact ⟨⟨id, id⟩, fun _ _ => rfl, rfl⟩
  | cons t ts ih =>
    obtain ⟨hts, hsorted⟩ := List.pairwise_cons.mp hsorted
    have hbase : base < t.index := hnew t List.mem_cons_self
    obtain ⟨ρ, hfix, hmap⟩ := ih t.index hsorted hts
    have hfixt : ρ t = t := hfix t (Int.le_refl _)
    refine ⟨ρ.moveBehind hbase hfixt, fun u hu => if_pos hu, ?_⟩
    -- The first temp behind `base` is moved to `t`, and the others behind `t`.
    have hstart : base - (base + 1) + t.index + 1 = t.index := by omega
    rw [List.length_cons, ρ.map_moveBehind hbase hfixt (Int.le_refl base), Drawing.consecutive, hstart,
      List.map_cons, hfixt, hmap]

end Renaming

/-! ## §2 One function -/

/-- Two compilations of a function have the same output. -/
structure CompiledUnit.Agrees (k : Int) (u u' : CompiledUnit) : Prop where
  frameSize : u'.code.frameSize = u.code.frameSize
  rounds : u'.allocation.rounds = u.allocation.rounds
  spills : u'.allocation.spilled.length = u.allocation.spilled.length
  text : Assembly.functions k [u'.code] = Assembly.functions k [u.code]

theorem CompiledUnit.Agrees.of_common {k : Int} {u₀ u u' : CompiledUnit} (h : u₀.Agrees k u)
    (h' : u₀.Agrees k u') : u.Agrees k u' :=
  ⟨h'.frameSize.trans h.frameSize.symm, h'.rounds.trans h.rounds.symm, h'.spills.trans h.spills.symm,
    h'.text.trans h.text.symm⟩

/-- Two compilations have both failed, or they have the same output. -/
abbrev SameOutput (k : Int) (r r' : Except CompileError (CompiledUnit × UnitListings)) : Prop :=
  Outcomes (fun u u' => u.1.Agrees k u'.1) r r'

namespace Drawing

theorem UnitRenames.agrees {ρ : Renaming} {u u' : CompiledUnit × UnitListings} (h : UnitRenames ρ u u')
    (k : Int) : u.1.Agrees k u'.1 := by
  refine ⟨?_, h.rounds, ?_, h.code.functions_eq h.registered k⟩
  · rw [Code.frameSize, h.code.frame, h.code.tempSize]
    rfl
  · rw [h.spilled, List.length_map]

/-- **Compilation is invariant under renaming**: a function under new names that draws the renamed
temps has the same output. -/
theorem draws_unit_map (ρ : Renaming) (o : Options) {chunk : IR.CodeChunk} {ts : List Temp}
    {r : Except CompileError (CompiledUnit × UnitListings)} (h : Draws (unit o chunk).run ts r)
    (k : Int) :
    ∃ r', Draws (unit o (ρ.chunk chunk)).run (ts.map ρ) r' ∧ SameOutput k r r' := by
  obtain ⟨r', hr', hrel⟩ := (alike_unit ρ o chunk).draws h
  refine ⟨r', hr', ?_⟩
  cases hrel with
  | ok hab => exact .ok (hab.agrees k)
  | error => exact .error

/-- A function that draws increasing temps, all new, has the output that it has alone. -/
theorem exists_draws_consecutive (o : Options) {chunk : IR.CodeChunk} {base : Int}
    (hchunk : ∀ t ∈ chunk.temps, t.index ≤ base) {ts : List Temp} (hsorted : ts.Pairwise (· < ·))
    (hnew : ∀ t ∈ ts, base < t.index) {r : Except CompileError (CompiledUnit × UnitListings)}
    (h : Draws (unit o chunk).run ts r) (k : Int) :
    ∃ r₀, Draws (unit o chunk).run (consecutive base ts.length) r₀ ∧ SameOutput k r₀ r := by
  obtain ⟨ρ, hfix, hmap⟩ := Renaming.exists_onto base hsorted hnew
  have halike := alike_unit ρ o chunk
  rw [ρ.chunk_eq_self fun t ht => hfix t (hchunk t ht)] at halike
  rw [← hmap] at h
  obtain ⟨r₀, hr₀, hrel⟩ := halike.draws_of_map h
  refine ⟨r₀, hr₀, ?_⟩
  cases hrel with
  | ok hab => exact .ok (hab.agrees k)
  | error => exact .error

/-- **Only the order of the temps counts**: a function has the same output for any two increasing
sequences of new temps. -/
theorem sameOutput_of_increasing (o : Options) {chunk : IR.CodeChunk} {base : Int}
    (hchunk : ∀ t ∈ chunk.temps, t.index ≤ base) {ts ts' : List Temp}
    {r r' : Except CompileError (CompiledUnit × UnitListings)}
    (h : Draws (unit o chunk).run ts r) (hsorted : ts.Pairwise (· < ·)) (hnew : ∀ t ∈ ts, base < t.index)
    (h' : Draws (unit o chunk).run ts' r') (hsorted' : ts'.Pairwise (· < ·))
    (hnew' : ∀ t ∈ ts', base < t.index) (k : Int) : SameOutput k r r' := by
  obtain ⟨r₀, hr₀, hsame⟩ := exists_draws_consecutive o hchunk hsorted hnew h k
  obtain ⟨r₁, hr₁, hsame'⟩ := exists_draws_consecutive o hchunk hsorted' hnew' h' k
  obtain rfl := hr₀.unique hr₁
  cases hsame with
  | error =>
    cases hsame'
    exact .error
  | ok hu =>
    cases hsame' with
    | ok hu' => exact .ok (hu.of_common hu')

end Drawing

/-! ## §3 Functions at the same time -/

/-- What is left to do for each of several functions, and the number of the last temp handed out. -/
structure Workers (α : Type) where
  last : Int
  tasks : List (Drawing α)

namespace Workers

open Drawing

variable {α : Type}

/-- One of the functions draws the next temp. -/
inductive Step : Workers α → Workers α → Prop
  | draw {last before next after} :
    Step ⟨last, before ++ .draw next :: after⟩ ⟨last + 1, before ++ next ⟨last + 1⟩ :: after⟩

/-- Any number of draws. -/
abbrev Run : Workers α → Workers α → Prop := Relation.ReflTransGen Step

/-- What a function has drawn behind `base` up to `last`: an increasing sequence of temps. -/
def History (base last : Int) (d d' : Drawing α) : Prop :=
  ∃ ts : List Temp, Feeds d ts d' ∧ ts.Pairwise (· < ·) ∧ ∀ t ∈ ts, base < t.index ∧ t.index ≤ last

theorem History.mono {base last last' : Int} {d d' : Drawing α} (h : History base last d d')
    (hle : last ≤ last') : History base last' d d' := by
  obtain ⟨ts, hfeeds, hsorted, hbounds⟩ := h
  exact ⟨ts, hfeeds, hsorted, fun t ht => ⟨(hbounds t ht).1, Int.le_trans (hbounds t ht).2 hle⟩⟩

theorem History.draw {base last : Int} {d : Drawing α} {next : Temp → Drawing α} (hle : base ≤ last)
    (h : History base last d (.draw next)) : History base (last + 1) d (next ⟨last + 1⟩) := by
  obtain ⟨ts, hfeeds, hsorted, hbounds⟩ := h
  refine ⟨ts ++ [⟨last + 1⟩], hfeeds.concat _, ?_, ?_⟩
  · refine List.pairwise_append.mpr ⟨hsorted, List.pairwise_singleton _ _, fun t ht u hu => ?_⟩
    rw [List.mem_singleton] at hu
    subst hu
    have hlast := (hbounds t ht).2
    show t.index < last + 1
    omega
  · intro t ht
    rcases List.mem_append.mp ht with ht | ht
    · have hlast := hbounds t ht
      omega
    · rw [List.mem_singleton] at ht
      subst ht
      show base < last + 1 ∧ last + 1 ≤ last + 1
      omega

/-- A step changes one of the tasks; the others only see the counter grow. -/
theorem histories_step {base last : Int} (hle : base ≤ last) {ds : List (Drawing α)}
    {before after : List (Drawing α)} {next : Temp → Drawing α}
    (h : List.Forall₂ (History base last) ds (before ++ .draw next :: after)) :
    List.Forall₂ (History base (last + 1)) ds (before ++ next ⟨last + 1⟩ :: after) := by
  have hmono : ∀ d d' : Drawing α, History base last d d' → History base (last + 1) d d' :=
    fun d d' h => h.mono (by omega)
  induction before generalizing ds with
  | nil =>
    cases h with
    | cons hd hds => exact .cons (hd.draw hle) (hds.imp hmono)
  | cons b before ih =>
    cases h with
    | cons hd hds => exact .cons (hmono _ _ hd) (ih hds)

/-- **Every function sees increasing temps**: what one step keeps, over a whole run. -/
theorem Run.histories {w w' : Workers α} (h : Run w w') : w.last ≤ w'.last ∧
    List.Forall₂ (History w.last w'.last) w.tasks w'.tasks := by
  induction h with
  | refl =>
    refine ⟨Int.le_refl _, List.forall₂_same.mpr fun d _ => ⟨[], .nil, .nil, ?_⟩⟩
    simp
  | tail _ hstep ih =>
    obtain ⟨hle, hall⟩ := ih
    cases hstep with
    | @draw last before next after =>
      have hnext : last ≤ last + 1 := by omega
      exact ⟨Int.le_trans hle hnext, histories_step hle hall⟩

/-- **The functions can always be brought to an end**, for instance one after the other. -/
theorem exists_run (last : Int) (ds : List (Drawing α)) :
    ∃ (rs : List α) (last' : Int), Run ⟨last, ds⟩ ⟨last', rs.map .done⟩ := by
  suffices h : ∀ (finished : List α), ∃ (rs : List α) (last' : Int),
      Run ⟨last, finished.map .done ++ ds⟩ ⟨last', rs.map .done⟩ from h []
  induction ds generalizing last with
  | nil => exact fun finished => ⟨finished, last, by rw [List.append_nil]⟩
  | cons d ds ih =>
    intro finished
    induction d generalizing last with
    | done a =>
      have h := ih last (finished ++ [a])
      rwa [List.map_append, List.append_assoc] at h
    | draw next ihd =>
      obtain ⟨rs, last', hrun⟩ := ihd ⟨last + 1⟩ (last + 1)
      exact ⟨rs, last', .head .draw hrun⟩

end Workers

open Drawing

/-- There are results for all functions exactly if there is one for each. -/
theorem mapM_id_eq_ok_iff {ε α : Type} {rs : List (Except ε α)} {as : List α} :
    rs.mapM id = .ok as ↔ rs = as.map .ok := by
  constructor
  · intro h
    obtain ⟨hlength, hget⟩ := mapM_ok_getElem? h
    refine List.ext_getElem (by simp [hlength]) fun i hi hi' => ?_
    obtain ⟨a, ha, hra⟩ := hget i rs[i] (List.getElem?_eq_getElem hi)
    rw [List.getElem_map, ← Option.some.inj (ha.symm.trans (List.getElem?_eq_getElem _))]
    exact hra
  · rintro rfl
    induction as with
    | nil => rfl
    | cons a as ih =>
      rw [List.map_cons, List.mapM_cons, ih]
      rfl

/-- Compiling functions one after the other, compared with their compilation on other increasing temps. -/
theorem outcomes_mapM_unit (o : Options) {base : Int} {chunks : List IR.CodeChunk}
    {rs : List (Except CompileError (CompiledUnit × UnitListings))}
    (h : List.Forall₂ (fun chunk r => (∀ t ∈ chunk.temps, t.index ≤ base) ∧ ∃ ts : List Temp,
      Draws (unit o chunk).run ts r ∧ ts.Pairwise (· < ·) ∧ ∀ t ∈ ts, base < t.index) chunks rs)
    {c : Compiling} (hbase : base ≤ c.work.supply.temps) (k : Int) :
    Outcomes (List.Forall₂ fun u u' => u.1.Agrees k u'.1) (rs.mapM id)
      ((chunks.mapM (Compile.unit o)).run.run c).1 := by
  induction h generalizing c with
  | nil => exact .ok .nil
  | @cons chunk r chunks rs hr _ ih =>
    obtain ⟨hchunk, ts, hdraws, hsorted, hnew⟩ := hr
    obtain ⟨n, hdraws', htemps⟩ := draws_sequential (unit o chunk).run c.work.supply
    -- Both ways hand out increasing temps above the old ones, so the outputs are the same.
    have hsame := sameOutput_of_increasing o hchunk hdraws hsorted hnew hdraws' (sorted_consecutive _ _)
      (fun t ht => Int.lt_of_le_of_lt hbase (lt_of_mem_consecutive ht)) k
    obtain ⟨r', c₁, hrun, hr', hc₁⟩ : ∃ r' c₁, (Compile.unit o chunk).run.run c = (r', c₁) ∧
        ((unit o chunk).run.sequential.run c.work.supply).1 = r' ∧ base ≤ c₁.work.supply.temps := by
      rw [← ofDrawing_unit]
      refine ⟨_, _, rfl, rfl, ?_⟩
      show base ≤ ((unit o chunk).run.sequential.run c.work.supply).2.temps
      omega
    rw [hr'] at hsame
    rw [List.mapM_cons, List.mapM_cons]
    -- An error of one function is an error of all, whatever the others do.
    cases hsame with
    | error =>
      rw [run_bind_error hrun]
      exact .error
    | ok hu =>
      rw [run_bind_ok hrun]
      have hrest := ih hc₁
      rcases hmapM : (chunks.mapM (Compile.unit o)).run.run c₁ with ⟨q, c₂⟩
      rw [hmapM] at hrest
      generalize rs.mapM id = q₀ at hrest
      cases hrest with
      | error =>
        rw [run_bind_error hmapM]
        exact .error
      | ok hus =>
        rw [run_bind_ok hmapM]
        exact .ok (.cons hu hus)

/-- **Functions that draw in turns come to what they come to one after the other.** -/
theorem Workers.Run.outcomes (o : Options) {chunks : List IR.CodeChunk} {c : Compiling}
    (hchunks : ∀ chunk ∈ chunks, ∀ t ∈ chunk.temps, t.index ≤ c.work.supply.temps)
    {rs : List (Except CompileError (CompiledUnit × UnitListings))} {last : Int}
    (hrun : Workers.Run ⟨c.work.supply.temps, chunks.map fun chunk => (Drawing.unit o chunk).run⟩
      ⟨last, rs.map .done⟩) :
    Outcomes (List.Forall₂ fun u u' => u.1.Agrees o.registers u'.1) (rs.mapM id)
      ((chunks.mapM (Compile.unit o)).run.run c).1 := by
  have hall := hrun.histories.2
  rw [List.forall₂_map_left_iff, List.forall₂_map_right_iff] at hall
  -- A worker sees the temps that it has drawn in the order of the counter.
  have hincreasing : ∀ (chunk : IR.CodeChunk) (r : Except CompileError (CompiledUnit × UnitListings)),
      Workers.History c.work.supply.temps last (Drawing.unit o chunk).run (.done r) →
        ∃ ts : List Temp, Draws (Drawing.unit o chunk).run ts r ∧ ts.Pairwise (· < ·) ∧
          ∀ t ∈ ts, c.work.supply.temps < t.index := by
    rintro chunk r ⟨ts, hfeeds, hsorted, hbounds⟩
    exact ⟨ts, hfeeds, hsorted, fun t ht => (hbounds t ht).1⟩
  exact outcomes_mapM_unit o ((List.forall₂_and_left _ _).mpr ⟨hchunks, hall.imp hincreasing⟩)
    (Int.le_refl c.work.supply.temps) o.registers

/-- Programs whose functions agree have the same text. -/
theorem Compiled.assembly_congr {p : IR.LinearProgram} {k : Int} {us us' : List CompiledUnit}
    (h : List.Forall₂ (CompiledUnit.Agrees k) us us') :
    (⟨p, us', k⟩ : Compiled).assembly = (⟨p, us, k⟩ : Compiled).assembly := by
  have hfunctions : Assembly.functions k (us'.map CompiledUnit.code)
      = Assembly.functions k (us.map CompiledUnit.code) := by
    refine Assembly.functions_congr ?_
    rw [List.forall₂_map_left_iff, List.forall₂_map_right_iff]
    exact h.imp fun _ _ hu => hu.text
  simp only [Compiled.assembly, Assembly.write, Assembly.lines, hfunctions]

/-- **Compiling functions at the same time does not change the output.** Let all temps of a linear
program have been handed out before its functions are compiled, and let the functions draw further
temps in any order until all of them have come to an end. Then they all succeed exactly if they do
when they are compiled one after the other; and in that case every function has the same frame size,
the same number of rounds and the same number of spills, and the program has the same text. The
reason is that compiling and writing a function is invariant under every renaming of temps that
keeps their order. -/
theorem interleaving_unchanged (o : Options) (p : IR.LinearProgram) (c : Compiling)
    (hp : ∀ chunk ∈ p.code, ∀ t ∈ chunk.temps, t.index ≤ c.work.supply.temps) :
    (∀ (rs : List (Except CompileError (CompiledUnit × UnitListings))) (last : Int),
      Workers.Run ⟨c.work.supply.temps, p.code.map fun chunk => (Drawing.unit o chunk).run⟩
        ⟨last, rs.map .done⟩ →
      (∀ us c', (p.code.mapM (Compile.unit o)).run.run c = (.ok us, c') →
        ∃ us' : List (CompiledUnit × UnitListings), rs = us'.map .ok) ∧
      ∀ us' : List (CompiledUnit × UnitListings), rs = us'.map .ok →
        ∃ us c', (p.code.mapM (Compile.unit o)).run.run c = (.ok us, c') ∧
        List.Forall₂ (fun u' u : CompiledUnit × UnitListings =>
          u'.1.code.frameSize = u.1.code.frameSize ∧ u'.1.allocation.rounds = u.1.allocation.rounds ∧
            u'.1.allocation.spilled.length = u.1.allocation.spilled.length) us' us ∧
        (⟨p, us'.map Prod.fst, o.registers⟩ : Compiled).assembly
          = (⟨p, us.map Prod.fst, o.registers⟩ : Compiled).assembly) ∧
    ∀ (ρ : Renaming) (chunk : IR.CodeChunk) (ts : List Temp)
      (r : Except CompileError (CompiledUnit × UnitListings)), Draws (Drawing.unit o chunk).run ts r →
      ∃ r', Draws (Drawing.unit o (ρ.chunk chunk)).run (ts.map ρ) r' ∧ SameOutput o.registers r r' := by
  refine ⟨fun rs last hrun => ?_, fun ρ chunk ts r h => draws_unit_map ρ o h o.registers⟩
  -- Each unit has the same outcome on its own, whatever the others draw, up to a renaming.
  have hsame := hrun.outcomes o hp
  refine ⟨fun us c' hok => ?_, fun us' hrs => ?_⟩
  · rw [hok] at hsame
    generalize hmapM : rs.mapM id = q at hsame
    cases hsame with
    | ok _ => exact ⟨_, mapM_id_eq_ok_iff.mp hmapM⟩
  · rw [mapM_id_eq_ok_iff.mpr hrs] at hsame
    rcases hseq : (p.code.mapM (Compile.unit o)).run.run c with ⟨q, c'⟩
    rw [hseq] at hsame
    cases hsame with
    | @ok _ us hus =>
      refine ⟨us, c', rfl, hus.imp fun u' u hu => ⟨hu.frameSize.symm, hu.rounds.symm, hu.spills.symm⟩, ?_⟩
      refine (Compiled.assembly_congr ?_).symm
      rw [List.forall₂_map_left_iff, List.forall₂_map_right_iff]
      exact hus

/-- A function that returns a constant, with the temps `n` and `n + 1` for its frame. -/
def constantChunk (label entry exit : Label) (n : Int) (v : Word) : IR.CodeChunk where
  frame := ⟨label, 0, 0, 8, ⟨n⟩, ⟨n + 1⟩⟩
  entry := entry
  exit := exit
  stmts := [.label entry, .move (.temp ⟨n + 1⟩) (.const v), .jump exit]

/-- Two functions that each draw one temp. -/
def twoConstants : IR.LinearProgram where
  data := []
  code := [constantChunk "_one" "L1" "L2" 1 1, constantChunk "_two" "L3" "L4" 3 2]

/-- The second function draws first, and the text is that of the functions one after the other. -/
theorem interleaving_unchanged_twoConstants : ∃ (us us' : List (CompiledUnit × UnitListings)) (last : Int)
    (second : Drawing (Except CompileError (CompiledUnit × UnitListings))),
    Workers.Step ⟨4, twoConstants.code.map fun chunk => (Drawing.unit {} chunk).run⟩
      ⟨5, [(Drawing.unit {} (constantChunk "_one" "L1" "L2" 1 1)).run, second]⟩ ∧
    Workers.Run ⟨5, [(Drawing.unit {} (constantChunk "_one" "L1" "L2" 1 1)).run, second]⟩
      ⟨last, (us'.map .ok).map .done⟩ ∧
    ((twoConstants.code.mapM (Compile.unit {})).run.run { work := ⟨{}, ⟨4, 4⟩⟩ }).1 = .ok us ∧
    (⟨twoConstants, us'.map Prod.fst, 8⟩ : Compiled).assembly
      = (⟨twoConstants, us.map Prod.fst, 8⟩ : Compiled).assembly := by
  obtain ⟨next, hnext⟩ : ∃ next,
      (Drawing.unit {} (constantChunk "_two" "L3" "L4" 3 2)).run = .draw next := ⟨_, rfl⟩
  have hstep : Workers.Step ⟨4, twoConstants.code.map fun chunk => (Drawing.unit {} chunk).run⟩
      ⟨5, [(Drawing.unit {} (constantChunk "_one" "L1" "L2" 1 1)).run, next ⟨5⟩]⟩ := by
    simp only [twoConstants, List.map_cons, List.map_nil, hnext]
    exact @Workers.Step.draw _ 4 [_] next []
  obtain ⟨rs, last, hrun⟩ := Workers.exists_run 5
    [(Drawing.unit {} (constantChunk "_one" "L1" "L2" 1 1)).run, next ⟨5⟩]
  obtain ⟨hall, hsame⟩ := (interleaving_unchanged {} twoConstants { work := ⟨{}, ⟨4, 4⟩⟩ }
    (by decide)).1 rs last (.head hstep hrun)
  have hok : ((twoConstants.code.mapM (Compile.unit {})).run.run
      { work := ⟨{}, ⟨4, 4⟩⟩ }).1.toBool = true := by
    decide +kernel
  rcases hseq : (twoConstants.code.mapM (Compile.unit {})).run.run { work := ⟨{}, ⟨4, 4⟩⟩ } with
    ⟨_ | us, c⟩
  · rw [hseq] at hok
    cases hok
  · obtain ⟨us', rfl⟩ := hall us c hseq
    obtain ⟨us₁, c₁, hseq₁, -, htext⟩ := hsame us' rfl
    rw [hseq] at hseq₁
    cases hseq₁
    exact ⟨us, us', last, next ⟨5⟩, hstep, hrun, rfl, htext⟩

end MmixBackend
