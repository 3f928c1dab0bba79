import MmixBackend.Proofs.Machine.Denotation
import MmixBackend.Proofs.Source.FlatLayout
import MmixBackend.Proofs.Source.StaticLinks

/-!
# Environments and stack frames

The evaluation of a flat scalar program keeps values of variables, the machine keeps words in
memory. A global variable is one of the words from the start of the data on, and a variable of an
activation is a word at an offset from its frame pointer. Addresses wrap around, but the words of a
program lie so close together that they are told apart.

A behavior refines an evaluation if it comes to the same value or to the same end from every scene
that shows the store, with a scene that shows the new store. What lies above the parameters of the
activation belongs to its callers and stays as it is.

## Main statements

- `Memory.read_writeAt_word`: where the arguments of a call are found.
- `Activation.Owns.unique`, `Activation.Owns.inj`: every variable has a word of its own.
- `Activation.Refines.bind`: evaluations behind each other.
- `Activation.refines_read`, `Activation.refines_assign`: variables.
-/

namespace MmixBackend

open Source

/-! ## §1 Addresses -/

/-- Words at these addresses are told apart. -/
def Addressable (x : Int) : Prop := dataStart.toInt ≤ x ∧ x < dataStart.toInt + 2 ^ 64

theorem Addressable.ofInt_inj {x y : Int} (hx : Addressable x) (hy : Addressable y) :
    Int64.ofInt x = .ofInt y ↔ x = y := by
  refine ⟨fun h => ?_, congrArg _⟩
  have hbmod : x.bmod (2 ^ 64) = y.bmod (2 ^ 64) := by
    simpa [Int64.toInt_ofInt] using congrArg Int64.toInt h
  obtain ⟨hx, hx'⟩ := hx
  obtain ⟨hy, hy'⟩ := hy
  have hdvd : ((2 ^ 64 : Nat) : Int) ∣ x - y :=
    Int.dvd_of_bmod_eq_zero (Int.bmod_eq_bmod_iff_bmod_sub_eq_zero.mp hbmod)
  omega

theorem Word.ofInt_add_ofNat (base : Int) (n : Nat) :
    Int64.ofInt base + .ofNat n = .ofInt (base + n) := by
  rw [Int64.ofInt_add, Int64.ofInt_eq_ofNat]

namespace Memory

variable {memory : Memory}

theorem read_write_of_ne {x y : Int} (hx : Addressable x) (hy : Addressable y) (hne : y ≠ x) (v : Word) :
    (memory.write (.ofInt y) v).read (.ofInt x) = memory.read (.ofInt x) := by
  rw [read_write, if_neg fun h => hne ((hy.ofInt_inj hx).mp h)]

/-- The offsets of consecutive words; the first one has the index `first`. -/
def Consecutive (first : Nat) (offs : List Word) : Prop :=
  ∀ (i : Nat) (off : Word), offs[i]? = some off → off = .ofNat (8 * (first + i))

theorem Consecutive.tail {first : Nat} {off : Word} {offs : List Word}
    (h : Consecutive first (off :: offs)) :
    Consecutive (first + 1) offs := fun i off' hi => by
  rw [h (i + 1) off' hi, Nat.add_assoc, Nat.add_comm 1]

/-- What is stored in consecutive words does not touch the words outside. -/
theorem read_writeAt_outside {base x : Int} (hx : Addressable x) {offs vs : List Word} {first : Nat}
    (hoffs : Consecutive first offs) (hlow : dataStart.toInt ≤ base)
    (hhigh : base + 8 * (first + offs.length) ≤ dataStart.toInt + 2 ^ 64)
    (hout : x < base + 8 * first ∨ base + 8 * (first + offs.length) ≤ x) :
    (memory.writeAt (.ofInt base) offs vs).read (.ofInt x) = memory.read (.ofInt x) := by
  refine read_writeAt_of_ne fun off hoff heq => ?_
  obtain ⟨i, hi⟩ := List.getElem?_of_mem hoff
  have hlt := (List.getElem?_eq_some_iff.mp hi).1
  rw [hoffs i off hi, Word.ofInt_add_ofNat] at heq
  have hsame := (Addressable.ofInt_inj ⟨by omega, by omega⟩ hx).mp heq
  omega

/-- **Where the arguments of a call are found.** -/
theorem read_writeAt_word {base : Int} : ∀ {offs vs : List Word} {first : Nat} {memory : Memory},
    Consecutive first offs → dataStart.toInt ≤ base →
    base + 8 * (first + offs.length) ≤ dataStart.toInt + 2 ^ 64 →
    ∀ {i : Nat} {v : Word}, i < offs.length → vs[i]? = some v →
      (memory.writeAt (.ofInt base) offs vs).read (.ofInt (base + 8 * (first + i))) = v
  | [], _, _, _, _, _, _, _, _, hi, _ => by cases hi
  | _ :: _, [], _, _, _, _, _, _, _, _, hv => by cases hv
  | off :: offs, v :: vs, first, memory, hoffs, hlow, hhigh, i, w, hi, hv => by
    rw [List.length_cons] at hhigh hi
    rw [writeAt]
    cases i with
    | zero =>
      cases hv
      have hoff : off = .ofNat (8 * first) := hoffs 0 off rfl
      rw [read_writeAt_outside ⟨by omega, by omega⟩ hoffs.tail hlow (by omega) (.inl (by omega)), hoff,
        Word.ofInt_add_ofNat]
      simp
    | succ i =>
      have hrest : ((memory.write (.ofInt base + off) v).writeAt (.ofInt base) offs vs).read
          (.ofInt (base + 8 * ((first + 1 : Nat) + i))) = w :=
        read_writeAt_word hoffs.tail hlow (by omega) (by omega) hv
      rw [← hrest]
      congr 2
      omega

end Memory

namespace Source

open Machine

variable {p : Program} {t t' : Attributes} {m : Machine}

/-! ## §2 What all activations share -/

/-- The machine is in a state that shows what a store has for the whole program. -/
structure Shares (p : Program) (st : Store) (s : State) : Prop where
  globals : ∀ {i : Nat} {id : NodeId}, p.globals[i]? = some id →
    s.memory.read (.ofInt (dataStart.toInt + 8 * i)) = st.globals id
  input : s.input = st.input
  output : s.output = st.output
  writer : s.hasWriter = true

theorem toInt_dataStart : dataStart.toInt = 2305843009213693952 := by decide

theorem toInt_stackTop : stackTop.toInt = 9223372036854775800 := by decide

theorem Program.lt_dataEnd {i : Nat} {id : NodeId} (h : p.globals[i]? = some id) :
    dataStart.toInt + 8 * i + 8 ≤ p.dataEnd := by
  have hlt := (List.getElem?_eq_some_iff.mp h).1
  rw [Program.dataEnd]
  omega

theorem Program.dataStart_le (p : Program) : dataStart.toInt ≤ p.dataEnd := by
  rw [Program.dataEnd]
  omega

/-- Memory that is the same below the end of the data. -/
theorem Shares.of_memory {st : Store} {s : State} (h : Shares p st s) {memory : Memory}
    (hroom : p.dataEnd ≤ dataStart.toInt + 2 ^ 64)
    (hsame : ∀ x, Addressable x → x + 8 ≤ p.dataEnd → memory.read (.ofInt x) = s.memory.read (.ofInt x)) :
    Shares p st { s with memory } where
  globals {i id} hi := by
    have hlt := Program.lt_dataEnd hi
    rw [hsame _ ⟨by omega, by omega⟩ hlt]
    exact h.globals hi
  input := h.input
  output := h.output
  writer := h.writer

/-! ## §3 Activations -/

/-- An activation of a function, and where its frame lies on the stack. -/
structure Activation where
  frame : Frame
  params : List Param
  body : Expr
  /-- The frame pointer. -/
  base : Int

namespace Activation

variable {A : Activation} {id id' : NodeId} {x x' : Int}

/-- The stack pointer of the activation. -/
def sp (t : Attributes) (A : Activation) : Int := A.base - A.body.frameBytes t

/-- Where the parameters end. -/
def top (A : Activation) : Int := A.base + 8 * (A.params.length + 1)

/-- The activation is one of a function of the program, and its frame fits between the data and the
top of the stack. -/
structure Fits (p : Program) (t t' : Attributes) (A : Activation) : Prop where
  declared : ∃ m name type, .fn m name A.params type A.body ∈ p.decls ∧
    FlatFrame t t' A.frame name A.params A.body
  room : p.HasRoom t A.base A.params A.body
  inside : A.base ≤ stackTop.toInt

/-- A parameter or variable of the function, and where it lies. -/
inductive Owns (A : Activation) : NodeId → Int → Prop
  | param {i : Nat} {q : Param} (h : A.params[i]? = some q) : Owns A q.mark.id (A.base + 8 * (i + 1))
  | block {i : Nat} {id : NodeId} (h : A.body.locals[i]? = some id) : Owns A id (A.base - 8 * (i + 1))

theorem sp_add (t : Attributes) (A : Activation) :
    A.sp t + 8 * A.body.outgoing t + 16 + 8 * A.body.locals.length = A.base := by
  rw [sp, Expr.frameBytes]
  push_cast
  omega

namespace Fits

variable (h : A.Fits p t t')

include h

theorem dataEnd_le : p.dataEnd ≤ A.sp t := h.room.1

theorem top_le : A.top ≤ dataStart.toInt + 2 ^ 64 := h.room.2

theorem frameBytes_lt : A.body.frameBytes t < 2 ^ 63 := by
  have hdata := h.dataEnd_le
  have hstart := p.dataStart_le
  have hinside := h.inside
  rw [sp] at hdata
  rw [toInt_stackTop] at hinside
  rw [toInt_dataStart] at hstart
  omega

end Fits

theorem Owns.bounds (hx : A.Owns id x) : A.sp t + 8 * A.body.outgoing t + 8 ≤ x ∧ x + 8 ≤ A.top := by
  have hsp := A.sp_add t
  rw [top]
  cases hx with
  | param hi =>
    have hlt := (List.getElem?_eq_some_iff.mp hi).1
    omega
  | block hi =>
    have hlt := (List.getElem?_eq_some_iff.mp hi).1
    omega

theorem Owns.addressable (h : A.Fits p t t') (hx : A.Owns id x) : Addressable x := by
  have hdata := h.dataEnd_le
  have hstart := p.dataStart_le
  have htop := h.top_le
  obtain ⟨hlow, hhigh⟩ := hx.bounds (t := t)
  exact ⟨by omega, by omega⟩

/-- The offset that the layout has given to a variable leads to its word. -/
theorem Owns.access (h : A.Fits p t t') (hx : A.Owns id x) : ∃ off,
    t'.accesses[id]? = some (.relative (.ofNat 8) off 1) ∧ Int64.ofInt A.base + off = .ofInt x := by
  obtain ⟨_, _, _, -, hframe⟩ := h.declared
  cases hx with
  | param hi => exact ⟨_, hframe.params hi, Word.ofInt_add_ofNat _ _⟩
  | @block i id hi =>
    refine ⟨_, hframe.locals hi, ?_⟩
    rw [← Int64.ofInt_eq_ofNat, ← Int64.ofInt_neg, ← Int64.ofInt_add, ← Int.sub_eq_add_neg]
    rfl

/-- A variable has one word. -/
theorem Owns.unique (h : A.Fits p t t') (hx : A.Owns id x) (hx' : A.Owns id x') : x = x' := by
  obtain ⟨off, haccess, hoff⟩ := hx.access h
  obtain ⟨off', haccess', hoff'⟩ := hx'.access h
  cases haccess.symm.trans haccess'
  exact ((hx.addressable h).ofInt_inj (hx'.addressable h)).mp (hoff.symm.trans hoff')

/-- The words of two variables are different. -/
theorem Owns.inj (hx : A.Owns id x) (hx' : A.Owns id' x) : id = id' := by
  generalize heq : x = x₀ at hx'
  cases hx with
  | @param i q hi =>
    cases hx' with
    | @param j q' hj =>
      obtain rfl : i = j := by omega
      cases hi.symm.trans hj
      rfl
    | block hj => omega
  | @block i id hi =>
    cases hx' with
    | param hj => omega
    | @block j id' hj =>
      obtain rfl : i = j := by omega
      exact Option.some.inj (hi.symm.trans hj)

/-- Where the variables that the function uses lie. -/
inductive Place (p : Program) (A : Activation) : NodeId → Int → Prop
  | shared {i : Nat} {id : NodeId} (h : p.globals[i]? = some id) : Place p A id (dataStart.toInt + 8 * i)
  | own {id : NodeId} {x : Int} (hid : id ∉ p.globals) (h : A.Owns id x) : Place p A id x

/-! ## §4 Refinement -/

/-- In the scene, the function sees what the store has. -/
structure Shows (p : Program) (t : Attributes) (A : Activation) (st : Store) (σ : Scene) : Prop where
  shares : Shares p st σ.state
  fp : σ.temps.getD A.frame.fp 0 = .ofInt A.base
  sp : σ.state.sp = .ofInt (A.sp t)
  locals : ∀ {id : NodeId} {x : Int} {v : Word}, A.Owns id x → st.locals id = some v →
    σ.state.memory.read (.ofInt x) = v

/-- Between the scenes, what belongs to the callers has stayed. -/
structure Keeps (A : Activation) (σ σ' : Scene) : Prop where
  temps : σ'.temps = σ.temps
  memory : ∀ x, A.top ≤ x → x < dataStart.toInt + 2 ^ 64 →
    σ'.state.memory.read (.ofInt x) = σ.state.memory.read (.ofInt x)

theorem Keeps.refl (A : Activation) (σ : Scene) : A.Keeps σ σ := ⟨rfl, fun _ _ _ => rfl⟩

theorem Keeps.trans {σ σ' σ'' : Scene} (h : A.Keeps σ σ') (h' : A.Keeps σ' σ'') : A.Keeps σ σ'' :=
  ⟨h'.temps.trans h.temps, fun x hlow hhigh => (h'.memory x hlow hhigh).trans (h.memory x hlow hhigh)⟩

end Activation

/-- The run may end as the evaluation has stopped. Nothing is said of evaluations that have read a
variable without a value, have had no room on the stack or have not come to an end. -/
def Stop.Ends (ends : Abort → Prop) : Stop → Prop
  | .exit code => ends (.exit code)
  | .divisionByZero => ends (.error .divisionByZero)
  | .reader fault => ends (.error (.reader fault))
  | .undefined => False
  | .unassigned | .stackFull | .outOfFuel => True

theorem Stop.Ends.imp {ends ends' : Abort → Prop} {why : Stop} (hwhy : why.Ends ends)
    (h : ∀ abort, ends abort → ends' abort) : why.Ends ends' := by
  cases why with
  | exit code => exact h _ hwhy
  | divisionByZero => exact h _ hwhy
  | reader fault => exact h _ hwhy
  | undefined => exact hwhy
  | _ => trivial

namespace Activation

variable {A : Activation} {α β : Type}

/-- From the scene, the behavior comes to what an evaluation has come to. -/
def Answers (p : Program) (t : Attributes) (A : Activation) (B : Behavior α) (σ : Scene) :
    Except Stop α × Store → Prop
  | (.ok a, st) => ∃ σ', B σ (.value a σ') ∧ A.Shows p t st σ' ∧ A.Keeps σ σ'
  | (.error why, st) => why.Ends fun abort => ∃ s, B σ (.stop abort s) ∧ s.output = st.output

theorem answers_error {B : Behavior α} {σ : Scene} {why : Stop} {st : Store} :
    A.Answers p t B σ (.error why, st) ↔
      why.Ends fun abort => ∃ s, B σ (.stop abort s) ∧ s.output = st.output := Iff.rfl

/-- The behavior comes to what the evaluation comes to. -/
def Refines (p : Program) (t : Attributes) (A : Activation) (x : Eval α) (B : Behavior α) : Prop :=
  ∀ st σ, A.Shows p t st σ → A.Answers p t B σ (x.run.run st)

namespace Refines

variable {x : Eval α} {B : Behavior α} {f : α → Eval β} {g : α → Behavior β}

theorem pure (p : Program) (t : Attributes) (A : Activation) (a : α) :
    A.Refines p t (Pure.pure a) (Pure.pure a) := fun _ σ hσ => ⟨σ, rfl, hσ, .refl A σ⟩

/-- Nothing is asked of an evaluation without a result. -/
theorem throw {why : Stop} (h : why = .unassigned ∨ why = .stackFull ∨ why = .outOfFuel)
    (B : Behavior α) :
    A.Refines p t (MonadExcept.throw why) B := fun st σ _ => by
  refine answers_error.mpr ?_
  rcases h with rfl | rfl | rfl <;> trivial

/-- **Evaluations behind each other**; the values of the first one satisfy `Q`. -/
theorem bind_of {Q : α → Prop} (h : A.Refines p t x B)
    (hQ : ∀ st a st', x.run.run st = (.ok a, st') → Q a)
    (h' : ∀ a, Q a → A.Refines p t (f a) (g a)) : A.Refines p t (x >>= f) (B >>= g) := by
  intro st σ hσ
  have hfirst := h st σ hσ
  rcases hrun : x.run.run st with ⟨why | a, st'⟩
  · rw [hrun] at hfirst
    rw [run_bind_error hrun]
    refine answers_error.mpr ((answers_error.mp hfirst).imp ?_)
    rintro _ ⟨s, hs, hout⟩
    exact ⟨s, .stop hs, hout⟩
  · rw [hrun] at hfirst
    rw [run_bind_ok hrun]
    obtain ⟨σ', hv, hσ', hkeeps⟩ := hfirst
    have hsecond := h' a (hQ st a st' hrun) st' σ' hσ'
    generalize (f a).run.run st' = r at hsecond
    obtain ⟨why | b, st''⟩ := r
    · refine answers_error.mpr ((answers_error.mp hsecond).imp ?_)
      rintro _ ⟨s, hs, hout⟩
      exact ⟨s, .next hv hs, hout⟩
    · obtain ⟨σ'', hv', hσ'', hkeeps'⟩ := hsecond
      exact ⟨σ'', .next hv hv', hσ'', hkeeps.trans hkeeps'⟩

theorem bind (h : A.Refines p t x B) (h' : ∀ a, A.Refines p t (f a) (g a)) :
    A.Refines p t (x >>= f) (B >>= g) :=
  h.bind_of (Q := fun _ => True) (fun _ _ _ _ => trivial) fun a _ => h' a

/-- Something of the machine goes before that the function does not see. -/
theorem behind {B₀ : Behavior β} {a : β} {g : β → Behavior α} (h : A.Refines p t x (g a))
    (h₀ : ∀ st σ, A.Shows p t st σ → ∃ σ', B₀ σ (.value a σ') ∧ A.Shows p t st σ' ∧ A.Keeps σ σ') :
    A.Refines p t x (B₀ >>= g) := by
  have hfirst : A.Refines p t (Pure.pure a) B₀ := h₀
  have hall := hfirst.bind_of (f := fun _ => x) (g := g) (Q := (· = a))
    (fun _ _ _ hrun => by cases hrun; rfl)
    fun b hb => hb ▸ h
  rwa [pure_bind] at hall

end Refines

/-- Steps are counted without being seen. -/
theorem count_shows (hlimit : m.limit ≤ 0) {st : Store} {σ : Scene} (h : A.Shows p t st σ) :
    ∃ σ', Behavior.count m σ (.value () σ') ∧ A.Shows p t st σ' ∧ A.Keeps σ σ' := by
  rw [Behavior.count_of_unlimited hlimit]
  refine ⟨_, rfl, ⟨?_, h.fp, h.sp, h.locals⟩, rfl, fun _ _ _ => rfl⟩
  exact ⟨h.shares.globals, h.shares.input, h.shares.output, h.shares.writer⟩

theorem Refines.counted (hlimit : m.limit ≤ 0) {x : Eval α} {B : Behavior α} (h : A.Refines p t x B) :
    A.Refines p t x (do Behavior.count m; B) :=
  h.behind fun _ _ hσ => count_shows hlimit hσ

/-- A statement at the end is counted. -/
theorem Refines.then_count (hlimit : m.limit ≤ 0) {x : Eval Unit} {B : Behavior Unit}
    (h : A.Refines p t x B) :
    A.Refines p t x (do B; Behavior.count m) := by
  have hall := h.bind (f := fun _ => Pure.pure ()) (g := fun _ => Behavior.count m)
    fun _ _ _ hσ => count_shows hlimit hσ
  rwa [bind_pure_unit] at hall

/-! ## §5 Variables -/

/-- The code leads to the address. -/
def Leads (p : Program) (t : Attributes) (m : Machine) (A : Activation) (addr : IR.Expr) (x : Int) :
    Prop :=
  ∀ {st σ}, A.Shows p t st σ → m.evaluation addr σ (.value (.ofInt x) σ)

variable {id : NodeId} {x : Int} {addr : IR.Expr}

/-- **Reading a variable.** -/
theorem refines_read (hplace : A.Place p id x) (haddr : A.Leads p t m addr x) :
    A.Refines p t (Eval.read p id) (m.evaluation (.mem addr)) := by
  intro st σ hσ
  -- Whatever the variable is, its address leads to its word.
  have hload : ∀ v, σ.state.memory.read (.ofInt x) = v → m.evaluation (.mem addr) σ (.value v σ) := by
    rintro v rfl
    rw [evaluation_mem]
    exact .next (haddr hσ) rfl
  cases hplace with
  | shared hi =>
    have hid : id ∈ p.globals := List.mem_of_getElem? hi
    have hrun : (Eval.read p id).run.run st = (.ok (st.globals id), st) := by
      show (if id ∈ p.globals then _ else _ : Eval Word).run.run st = _
      rw [if_pos hid]
      rfl
    rw [hrun]
    exact ⟨σ, hload _ (hσ.shares.globals hi), hσ, .refl A σ⟩
  | own hid howns =>
    rcases hv : st.locals id with _ | v
    · have hrun : (Eval.read p id).run.run st = (.error .unassigned, st) := by
        show (if id ∈ p.globals then _ else _ : Eval Word).run.run st = _
        rw [if_neg hid, hv]
        rfl
      rw [hrun]
      trivial
    · have hrun : (Eval.read p id).run.run st = (.ok v, st) := by
        show (if id ∈ p.globals then _ else _ : Eval Word).run.run st = _
        rw [if_neg hid, hv]
        rfl
      rw [hrun]
      exact ⟨σ, hload v (hσ.locals howns hv), hσ, .refl A σ⟩

end Activation

/-- A store in which a variable has been assigned. -/
def Store.assign (p : Program) (id : NodeId) (v : Word) (st : Store) : Store :=
  if id ∈ p.globals then { st with globals := Function.update st.globals id v }
  else { st with locals := Function.update st.locals id (some v) }

namespace Activation

variable {A : Activation} {id : NodeId} {x : Int} {addr : IR.Expr}

/-- What is stored in the word of a variable is what the variable is assigned. -/
theorem Shows.assign (hA : A.Fits p t t') (hdistinct : p.globals.Nodup) {st : Store} {σ : Scene}
    (hσ : A.Shows p t st σ) (hplace : A.Place p id x) (v : Word) :
    A.Shows p t (st.assign p id v)
        ⟨σ.temps, { σ.state with memory := σ.state.memory.write (.ofInt x) v }⟩ ∧
      A.Keeps σ ⟨σ.temps, { σ.state with memory := σ.state.memory.write (.ofInt x) v }⟩ := by
  have hdata := hA.dataEnd_le
  have hstart := p.dataStart_le
  have htop := hA.top_le
  have hsp := A.sp_add t
  -- The bounds that keep data and frame apart; the rest about addresses is arithmetic.
  have hbase : A.base ≤ A.top := by
    rw [top]
    omega
  -- A global variable has its word among the data, a local one in the frame, which lies above them.
  cases hplace with
  | @shared i id hi =>
    have hid : id ∈ p.globals := List.mem_of_getElem? hi
    have hlt := Program.lt_dataEnd hi
    have hx : Addressable (dataStart.toInt + 8 * i) := ⟨by omega, by omega⟩
    rw [Store.assign, if_pos hid]
    refine ⟨⟨⟨fun {j id'} hj => ?_, hσ.shares.input, hσ.shares.output, hσ.shares.writer⟩, hσ.fp, hσ.sp,
      fun {id' x' v'} howns hv' => ?_⟩, rfl, fun x' hlow hhigh => ?_⟩
    · -- Another global variable has another index.
      have hlt' := Program.lt_dataEnd hj
      by_cases hij : i = j
      · subst hij
        cases hi.symm.trans hj
        simp
      · have hne : id' ≠ id := by
          rintro rfl
          exact hij ((List.getElem?_inj (List.getElem?_eq_some_iff.mp hi).1 hdistinct).mp
            (hi.trans hj.symm))
        show _ = Function.update st.globals id v id'
        rw [Function.update_of_ne hne, ← hσ.shares.globals hj]
        exact Memory.read_write_of_ne ⟨by omega, by omega⟩ hx (by omega) v
    · -- The frame lies above the data.
      have hbounds := howns.bounds (t := t)
      rw [← hσ.locals howns hv']
      exact Memory.read_write_of_ne (howns.addressable hA) hx (by omega) v
    · exact Memory.read_write_of_ne ⟨by omega, hhigh⟩ hx (by omega) v
  | own hid howns =>
    have hx := howns.addressable hA
    have hbounds := howns.bounds (t := t)
    rw [Store.assign, if_neg hid]
    refine ⟨⟨⟨fun {j id'} hj => ?_, hσ.shares.input, hσ.shares.output, hσ.shares.writer⟩, hσ.fp, hσ.sp,
      fun {id' x' v'} howns' hv' => ?_⟩, rfl, fun x' hlow hhigh => ?_⟩
    -- A global variable lies below the frame.
    · have hlt' := Program.lt_dataEnd hj
      rw [← hσ.shares.globals hj]
      exact Memory.read_write_of_ne ⟨by omega, by omega⟩ hx (by omega) v
    · -- A variable has one word, and no other variable has it.
      by_cases hsame : id' = id
      · subst hsame
        obtain rfl := howns.unique hA howns'
        simpa using hv'
      · have hne : x ≠ x' := by
          rintro rfl
          exact hsame (howns'.inj howns)
        have hold : st.locals id' = some v' := by simpa [hsame] using hv'
        rw [← hσ.locals howns' hold]
        exact Memory.read_write_of_ne (howns'.addressable hA) hx hne v
    · exact Memory.read_write_of_ne ⟨by omega, hhigh⟩ hx (by omega) v

/-- **Assigning a variable.** The machine finds out the address before the value. -/
theorem refines_assign (hlimit : m.limit ≤ 0) (hA : A.Fits p t t') (hdistinct : p.globals.Nodup)
    (hplace : A.Place p id x) (haddr : A.Leads p t m addr x) {src : Eval Word} {c : IR.Expr}
    (hsrc : A.Refines p t src (m.evaluation c)) :
    A.Refines p t (do Eval.assign p id (← src)) (m.assignment (.mem addr) c) := by
  refine Refines.counted hlimit ?_
  refine Refines.behind (a := .ofInt x) ?_ fun st σ hσ => ⟨σ, haddr hσ, hσ, .refl A σ⟩
  refine hsrc.bind fun v st σ hσ => ?_
  exact ⟨_, rfl, hσ.assign hA hdistinct hplace v⟩

end Activation

end Source

end MmixBackend
