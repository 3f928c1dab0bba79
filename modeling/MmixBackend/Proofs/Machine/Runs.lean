import MmixBackend.Machine.Run
import Mathlib.Logic.Relation

/-!
# Finished runs and simulations between machines

A run of the machine has no bound of its own: `runFor` cuts it off after a number of transitions, and
a run has ended if some number is enough. This module collects what follows from the determinism of
`step`, and the ranked simulation that the passes over intermediate code are proved with.

## Main statements

- `Halts.ending_unique`: a configuration ends in at most one way.
- `RankedSimulation.forward`, `RankedSimulation.backward`: configurations related by a ranked
  simulation end alike. A transition of the first machine is answered by one or more transitions of
  the second, or by none as long as a rank goes down; so neither machine can run forever while the
  other one ends.
-/

namespace MmixBackend.Machine

open Relation (ReflTransGen TransGen)

/-! ## §1 Transitions and endings -/

/-- One transition leads from the first configuration to the second. -/
def Next (m : Machine) (c d : Config) : Prop := step m c = .next d

/-- The run from a configuration ends with the given ending and state. -/
def Halts (m : Machine) (c : Config) (ending : Ending) (s : State) : Prop :=
  ∃ fuel, runFor m fuel c = some (ending, s)

/-- The call of a label, made from the outside, ends with the given ending and state. -/
def CallEnds (m : Machine) (label : Label) (offs args : List Word) (ending : Ending) (s : State) :
    Prop :=
  match call m label offs args .done ∅ m.state with
  | .stop e s' => e = ending ∧ s' = s
  | .next c => Halts m c ending s

variable {m : Machine} {c d : Config} {ending : Ending} {s : State}

theorem Halts.of_stop (h : step m c = .stop ending s) : Halts m c ending s :=
  ⟨1, by simp [runFor, h]⟩

theorem Halts.of_next (h : Next m c d) (hd : Halts m d ending s) : Halts m c ending s := by
  obtain ⟨fuel, hfuel⟩ := hd
  refine ⟨fuel + 1, ?_⟩
  have h' : step m c = .next d := h
  simpa [runFor, h'] using hfuel

theorem Halts.of_steps (h : ReflTransGen (Next m) c d) (hd : Halts m d ending s) :
    Halts m c ending s := by
  induction h using ReflTransGen.head_induction_on with
  | refl => exact hd
  | head hstep _ ih => exact ih.of_next hstep

/-- A configuration is left by one transition only. -/
theorem eq_or_reaches {e : Config} (h : Next m c d) (he : ReflTransGen (Next m) c e) :
    e = c ∨ ReflTransGen (Next m) d e := by
  rcases he.cases_head with rfl | ⟨d', hd', he⟩
  · exact .inl rfl
  · cases (hd' : step m c = .next d').symm.trans h
    exact .inr he

/-- What `runFor` makes of one transition. -/
private theorem runFor_of_next {fuel : Nat} (h : Next m c d) :
    runFor m (fuel + 1) c = runFor m fuel d := by
  have h' : step m c = .next d := h
  simp [runFor, h']

/-- A run that ends and takes a step has fewer transitions left behind the step. -/
theorem runFor_drop_next {fuel : Nat} (h : Next m c d)
    (hrun : runFor m fuel c = some (ending, s)) :
    ∃ fuel' < fuel, runFor m fuel' d = some (ending, s) := by
  cases fuel with
  | zero => simp [runFor] at hrun
  | succ fuel =>
    rw [runFor_of_next h] at hrun
    exact ⟨fuel, Nat.lt_succ_self fuel, hrun⟩

/-- The same for one or more steps. -/
theorem runFor_drop_steps {fuel : Nat} (h : TransGen (Next m) c d)
    (hrun : runFor m fuel c = some (ending, s)) :
    ∃ fuel' < fuel, runFor m fuel' d = some (ending, s) := by
  induction h with
  | single hstep => exact runFor_drop_next hstep hrun
  | tail _ hstep ih =>
    obtain ⟨fuel₁, hlt₁, hrun₁⟩ := ih
    obtain ⟨fuel₂, hlt₂, hrun₂⟩ := runFor_drop_next hstep hrun₁
    exact ⟨fuel₂, Nat.lt_trans hlt₂ hlt₁, hrun₂⟩

/-- More fuel keeps a finished answer. -/
theorem runFor_mono {fuel fuel' : Nat} (hle : fuel ≤ fuel')
    (hrun : runFor m fuel c = some (ending, s)) : runFor m fuel' c = some (ending, s) := by
  induction fuel generalizing fuel' c with
  | zero => simp [runFor] at hrun
  | succ fuel ih =>
    obtain ⟨fuel', rfl⟩ : ∃ n, fuel' = n + 1 := ⟨fuel' - 1, by omega⟩
    simp only [runFor] at hrun ⊢
    split at hrun
    · exact ih (by omega) hrun
    · exact hrun

/-- **Determinism**: a configuration ends in at most one way. -/
theorem Halts.ending_unique {ending' : Ending} {s' : State} (h : Halts m c ending s)
    (h' : Halts m c ending' s') : ending = ending' ∧ s = s' := by
  obtain ⟨fuel, hrun⟩ := h
  obtain ⟨fuel', hrun'⟩ := h'
  have h₁ := runFor_mono (Nat.le_max_left fuel fuel') hrun
  have h₂ := runFor_mono (Nat.le_max_right fuel fuel') hrun'
  rw [h₁] at h₂
  simpa using h₂

/-- A finished `callAt` is a finished call. -/
theorem callEnds_of_callAt {label : Label} {offs args : List Word} {m' : Machine}
    (h : callAt m label offs args = some (ending, m')) :
    CallEnds m label offs args ending m'.state := by
  unfold callAt at h
  unfold CallEnds
  cases hcall : call m label offs args .done ∅ m.state with
  | stop e s =>
    rw [hcall] at h
    cases h
    exact ⟨rfl, rfl⟩
  | next c =>
    rw [hcall] at h
    obtain ⟨⟨e, s⟩, hrun, hres⟩ := Option.map_eq_some_iff.mp h
    cases hres
    exact ⟨_, hrun⟩

/-! ## §2 Ranked simulations -/

/-- A relation between configurations of two machines under which their runs end alike, the final
states being related by `same`. -/
structure RankedSimulation (m m' : Machine) (R : Config → Config → Prop)
    (same : State → State → Prop) where
  /-- Goes down with every transition that the second machine does not answer. -/
  rank : Config → Nat
  /-- The second machine ends where the first one does. -/
  stop : ∀ {c d ending s}, R c d → step m c = .stop ending s →
    ∃ s', Halts m' d ending s' ∧ same s s'
  /-- A transition is answered, or it lowers the rank. -/
  next : ∀ {c d c'}, R c d → step m c = .next c' →
    (∃ d', TransGen (Next m') d d' ∧ R c' d') ∨ (rank c' < rank c ∧ R c' d)

namespace RankedSimulation

variable {m' : Machine} {R : Config → Config → Prop} {same : State → State → Prop}

/-- Where the first machine ends, so does the second. -/
theorem forward (sim : RankedSimulation m m' R same) (h : R c d) (hc : Halts m c ending s) :
    ∃ s', Halts m' d ending s' ∧ same s s' := by
  obtain ⟨fuel, hrun⟩ := hc
  induction fuel generalizing c d with
  | zero => simp [runFor] at hrun
  | succ fuel ih =>
    simp only [runFor] at hrun
    split at hrun
    · rename_i c' hstep
      rcases sim.next h hstep with ⟨d', hsteps, hR⟩ | ⟨_, hR⟩
      · obtain ⟨s', hd', hsame⟩ := ih hR hrun
        exact ⟨s', hd'.of_steps hsteps.to_reflTransGen, hsame⟩
      · exact ih hR hrun
    · rename_i e s₁ hstep
      cases hrun
      exact sim.stop h hstep

/-- Where the second machine ends, so does the first: by induction on the transitions that the second
machine has left and, as long as it waits, on the rank. -/
theorem backward (sim : RankedSimulation m m' R same) (h : R c d) {s' : State}
    (hd : Halts m' d ending s') : ∃ s, Halts m c ending s ∧ same s s' := by
  obtain ⟨fuel, hrun⟩ := hd
  induction fuel using Nat.strongRecOn generalizing c d with
  | ind fuel ihFuel =>
    induction hr : sim.rank c using Nat.strongRecOn generalizing c with
    | ind r ihRank =>
      cases hstep : step m c with
      | stop e s =>
        obtain ⟨s₁, hhalt, hsame⟩ := sim.stop h hstep
        obtain ⟨rfl, rfl⟩ := hhalt.ending_unique ⟨fuel, hrun⟩
        exact ⟨s, .of_stop hstep, hsame⟩
      | next c' =>
        rcases sim.next h hstep with ⟨d', hsteps, hR⟩ | ⟨hlt, hR⟩
        · obtain ⟨fuel', hlt, hrun'⟩ := runFor_drop_steps hsteps hrun
          obtain ⟨s, hc', hsame⟩ := ihFuel fuel' hlt hR hrun'
          exact ⟨s, hc'.of_next hstep, hsame⟩
        · obtain ⟨s, hc', hsame⟩ := ihRank _ (hr ▸ hlt) hR rfl
          exact ⟨s, hc'.of_next hstep, hsame⟩

end RankedSimulation

end MmixBackend.Machine
