import MmixBackend.Fault

/-!
# Passes that have a result

A computation that can stop with a fault, made for every element of a list, has a result exactly if
each of them has one, and the results stand in the order of the elements.

`Succeeds x s P` says of a pass over a state that it does not stop with a fault, and that what it
returns and leaves behind satisfies `P`. It is proved along the structure of the pass, one rule for
each way to put passes together. `Ensures x s P` says the same of a pass that may also stop.
-/

namespace MmixBackend

variable {α β ε : Type}

/-! ## §1 Results of a list -/

/-- The results of a list belong to its elements one by one. -/
theorem mapM_ok_getElem? {f : α → Except ε β} {xs : List α} {ys : List β}
    (h : xs.mapM f = .ok ys) :
    ys.length = xs.length ∧
      ∀ (i : Nat) (x : α), xs[i]? = some x → ∃ y, ys[i]? = some y ∧ f x = .ok y := by
  induction xs generalizing ys with
  | nil =>
    cases h
    simp
  | cons x xs ih =>
    rw [List.mapM_cons] at h
    cases hx : f x with
    | error e =>
      rw [hx] at h
      cases h
    | ok y =>
      cases hxs : xs.mapM f with
      | error e =>
        rw [hx, hxs] at h
        cases h
      | ok ys' =>
        rw [hx, hxs] at h
        cases h
        obtain ⟨hlen, hget⟩ := ih hxs
        refine ⟨by simp [hlen], fun i x' hx' => ?_⟩
        cases i with
        | zero =>
          simp only [List.getElem?_cons_zero, Option.some.injEq] at hx'
          subst hx'
          exact ⟨y, rfl, hx⟩
        | succ i => simpa using hget i x' (by simpa using hx')

/-- There are results for a list exactly if there is one for each element. -/
theorem exists_mapM_ok_iff {f : α → Except ε β} {xs : List α} :
    (∃ ys, xs.mapM f = .ok ys) ↔ ∀ x ∈ xs, ∃ y, f x = .ok y := by
  constructor
  · rintro ⟨ys, h⟩ x hx
    obtain ⟨i, hi⟩ := List.mem_iff_getElem?.mp hx
    obtain ⟨y, -, hy⟩ := (mapM_ok_getElem? h).2 i x hi
    exact ⟨y, hy⟩
  · intro h
    induction xs with
    | nil => exact ⟨[], rfl⟩
    | cons x xs ih =>
      obtain ⟨y, hy⟩ := h x List.mem_cons_self
      obtain ⟨ys, hys⟩ := ih fun x' hx' => h x' (List.mem_cons_of_mem _ hx')
      exact ⟨y :: ys, by rw [List.mapM_cons, hy, hys]; rfl⟩

/-! ## §2 Passes over a state -/

variable {σ : Type} {s : σ}

theorem run_bind_state (x : StateM σ α) (f : α → StateM σ β) (s : σ) :
    (x >>= f).run s = (f (x.run s).1).run (x.run s).2 := rfl

theorem run_map_state (x : StateM σ α) (f : α → β) (s : σ) :
    (f <$> x).run s = (f (x.run s).1, (x.run s).2) := rfl

theorem run_pure_state (a : α) (s : σ) : (pure a : StateM σ α).run s = (a, s) := rfl

/-- Running a pass that has a result and going on behind it. -/
theorem run_bind_ok {x : ExceptT ε (StateM σ) α} {f : α → ExceptT ε (StateM σ) β} {a : α} {s' : σ}
    (h : x.run.run s = (.ok a, s')) : (x >>= f).run.run s = (f a).run.run s' := by
  have hstate : (x : StateM σ (Except ε α)) s = (.ok a, s') := h
  show (ExceptT.bind x f : StateM σ (Except ε β)) s = _
  simp only [ExceptT.bind, ExceptT.mk, bind, StateT.bind, hstate]
  rfl

/-- A pass that has stopped does not go on. -/
theorem run_bind_error {x : ExceptT ε (StateM σ) α} {f : α → ExceptT ε (StateM σ) β} {e : ε} {s' : σ}
    (h : x.run.run s = (.error e, s')) : (x >>= f).run.run s = (.error e, s') := by
  have hstate : (x : StateM σ (Except ε α)) s = (.error e, s') := h
  show (ExceptT.bind x f : StateM σ (Except ε β)) s = _
  simp only [ExceptT.bind, ExceptT.mk, bind, StateT.bind, hstate]
  rfl

/-- If a pass that is made of two has a result, then so has the first, and the second goes on from
there. -/
theorem run_bind_eq_ok {x : ExceptT ε (StateM σ) α} {f : α → ExceptT ε (StateM σ) β} {b : β} {s'' : σ}
    (h : (x >>= f).run.run s = (.ok b, s'')) :
    ∃ a s', x.run.run s = (.ok a, s') ∧ (f a).run.run s' = (.ok b, s'') := by
  rcases hx : x.run.run s with ⟨_ | a, s'⟩
  · rw [run_bind_error hx] at h
    cases h
  · exact ⟨a, s', rfl, (run_bind_ok hx).symm.trans h⟩

/-- From the state `s` a pass has a result, and the result and the new state satisfy `P`. -/
def Succeeds (x : ExceptT ε (StateM σ) α) (s : σ) (P : α → σ → Prop) : Prop :=
  ∃ a s', x.run.run s = (.ok a, s') ∧ P a s'

namespace Succeeds

variable {x : ExceptT ε (StateM σ) α} {P : α → σ → Prop}

theorem imp {Q : α → σ → Prop} (h : Succeeds x s P) (hPQ : ∀ a s', P a s' → Q a s') :
    Succeeds x s Q := by
  obtain ⟨a, s', hrun, hP⟩ := h
  exact ⟨a, s', hrun, hPQ a s' hP⟩

/-- A pass has one result. -/
theorem of_run {a : α} {s' : σ} (h : Succeeds x s P) (hrun : x.run.run s = (.ok a, s')) : P a s' := by
  obtain ⟨a', s'', hrun', hP⟩ := h
  rw [hrun] at hrun'
  cases hrun'
  exact hP

theorem pure {a : α} (h : P a s) : Succeeds (pure a : ExceptT ε (StateM σ) α) s P :=
  ⟨a, s, rfl, h⟩

/-- One pass after another: the second goes on from what the first has left. -/
theorem bind {f : α → ExceptT ε (StateM σ) β} {Q : β → σ → Prop} (hx : Succeeds x s P)
    (hf : ∀ a s', P a s' → Succeeds (f a) s' Q) : Succeeds (x >>= f) s Q := by
  obtain ⟨a, s', hrun, hP⟩ := hx
  obtain ⟨b, s'', hrun', hQ⟩ := hf a s' hP
  exact ⟨b, s'', (run_bind_ok hrun).trans hrun', hQ⟩

/-- A step that only works on the state cannot fail. -/
theorem lift {act : StateM σ α} (h : P (act.run s).1 (act.run s).2) :
    Succeeds (liftM act : ExceptT ε (StateM σ) α) s P :=
  ⟨_, _, rfl, h⟩

theorem modifyGet {f : σ → α × σ} (h : P (f s).1 (f s).2) :
    Succeeds (modifyGet f : ExceptT ε (StateM σ) α) s P :=
  ⟨_, _, rfl, h⟩

/-- A result that is there already. -/
theorem ofExcept {r : Except ε α} {a : α} (hr : r = .ok a) (h : P a s) :
    Succeeds (liftM r : ExceptT ε (StateM σ) α) s P := by
  subst hr
  exact ⟨a, s, rfl, h⟩

theorem ofExcept_bind {r : Except ε α} {a : α} {f : α → ExceptT ε (StateM σ) β} {Q : β → σ → Prop}
    (hr : r = .ok a) (hf : Succeeds (f a) s Q) :
    Succeeds ((liftM r : ExceptT ε (StateM σ) α) >>= f) s Q := by
  subst hr
  obtain ⟨b, s', hrun, hQ⟩ := hf
  exact ⟨b, s', (run_bind_ok rfl).trans hrun, hQ⟩

end Succeeds

/-- Whenever a pass has a result from the state `s`, the result and the new state satisfy `P`. -/
def Ensures (x : ExceptT ε (StateM σ) α) (s : σ) (P : α → σ → Prop) : Prop :=
  ∀ a s', x.run.run s = (.ok a, s') → P a s'

namespace Ensures

variable {x : ExceptT ε (StateM σ) α} {P : α → σ → Prop}

theorem imp {Q : α → σ → Prop} (h : Ensures x s P) (hPQ : ∀ a s', P a s' → Q a s') : Ensures x s Q :=
  fun a s' hrun => hPQ a s' (h a s' hrun)

theorem and {Q : α → σ → Prop} (h : Ensures x s P) (h' : Ensures x s Q) :
    Ensures x s fun a s' => P a s' ∧ Q a s' := fun a s' hrun => ⟨h a s' hrun, h' a s' hrun⟩

/-- What follows from success follows all the more if there is success. -/
theorem of_succeeds (h : Succeeds x s P) : Ensures x s P := fun _ _ hrun => h.of_run hrun

theorem pure {a : α} (h : P a s) : Ensures (pure a : ExceptT ε (StateM σ) α) s P := of_succeeds (.pure h)

theorem throw (e : ε) : Ensures (throw e : ExceptT ε (StateM σ) α) s P := fun _ _ hrun => by cases hrun

/-- One pass after another: the second goes on from what the first has left. -/
theorem bind {f : α → ExceptT ε (StateM σ) β} {Q : β → σ → Prop} (hx : Ensures x s P)
    (hf : ∀ a s', P a s' → Ensures (f a) s' Q) : Ensures (x >>= f) s Q := by
  intro b s'' hrun
  obtain ⟨a, s', hrun', hrest⟩ := run_bind_eq_ok hrun
  exact hf a s' (hx a s' hrun') b s'' hrest

/-- A result that is there or not. -/
theorem ofExcept_bind {r : Except ε α} {f : α → ExceptT ε (StateM σ) β} {Q : β → σ → Prop}
    (hf : ∀ a, r = .ok a → Ensures (f a) s Q) :
    Ensures ((liftM r : ExceptT ε (StateM σ) α) >>= f) s Q := by
  intro b s' hrun
  obtain ⟨a, s₁, hr, hrest⟩ := run_bind_eq_ok hrun
  cases r with
  | error e => cases hr
  | ok a' =>
    cases hr
    exact hf a rfl b s' hrest

end Ensures

end MmixBackend
