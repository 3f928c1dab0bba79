import MmixBackend.Proofs.Source.Activation
import MmixBackend.Proofs.Source.Structure

/-!
# Flat scalar programs do what their trees say

The code of a flat scalar program refines the evaluation of its trees, in every activation of every
function. The proof follows the evaluation: its fuel goes down from a node to the parts of the node
and from a call to the body of the function. Operators, names and statements are compared one by
one. A call leaves to its caller all that lies above the arguments, so that the caller finds its
variables as they were.

## Main statements

- `FlatMachine.call_function`, `FlatMachine.call_routine`: what calls leave behind.
- `FlatMachine.simulated`: code refines evaluation.
-/

namespace MmixBackend.Source

open Machine
open Generation

variable {p : Program} {t t' : Attributes} {m : Machine} {A : Activation}

/-! ## §1 Loaded programs -/

/-- A machine without a step limit that has the code trees of a flat scalar program loaded; `t` are
the tables of resolution, and `t'` those of the layout. -/
structure FlatMachine (p : Program) (t t' : Attributes) (m : Machine) : Prop where
  unlimited : m.limit ≤ 0
  flat : p.FlatScalar t
  resolves : t'.Resolves t
  complete : Decl.CompleteAll p.decls
  resolved : Decl.ResolvedAll t [blockScope p.decls] p.decls
  distinct : p.globals.Nodup
  globals : ∀ {i : Nat} {id : NodeId}, p.globals[i]? = some id → ∃ data : StaticData,
    t'.accesses[id]? = some (.static data) ∧
      m.labels[data.label]? = some (.ofInt (dataStart.toInt + 8 * i))
  frames : ∀ {fm name params type body}, .fn fm name params type body ∈ p.decls →
    ∃ f, t'.frames[fm.id]? = some f ∧ FlatFrame t t' f name params body
  bodies : ∀ {fm name params type body f}, .fn fm name params type body ∈ p.decls → body ≠ .absent →
    t'.frames[fm.id]? = some f → Routine.ofLabel? f.label = none ∧ ∃ lo hi c,
      body.Code t' f lo hi c ∧ m.functions[f.label]? = some ⟨f, .ofStmts [.move (.temp f.rv) c]⟩

namespace FlatMachine

/-- A function that is declared where the function of an activation sees it is global. -/
theorem mem_decls (hm : FlatMachine p t t' m) (hA : A.Fits p t t') {fm : Mark} {name : String}
    {params : List Param} {type : TypeExpr} {body : Expr}
    (hmem : .decl (.fn fm name params type body) ∈
      p.decls.map .decl ++ A.params.map (fun q => .decl q.decl) ++ A.body.walk everywhere) :
    .fn fm name params type body ∈ p.decls := by
  obtain ⟨_, _, _, hfn, -⟩ := hA.declared
  rw [List.mem_append, List.mem_append] at hmem
  rcases hmem with (hmem | hmem) | hmem
  · obtain ⟨d, hd, heq⟩ := List.mem_map.mp hmem
    cases heq
    exact hd
  · obtain ⟨q, -, heq⟩ := List.mem_map.mp hmem
    cases heq
  · exact absurd rfl (hm.flat.functions _ _ _ _ _ hfn _ hmem)

/-- **What a name in a function refers to**: a function without parameters, or a variable that the
function can reach. -/
theorem declared (hm : FlatMachine p t t' m) (hA : A.Fits p t t') {mark : Mark} {ident : String}
    (hnode : .expr (.name mark ident) ∈ A.body.walk everywhere) :
    (∃ fm name type body, t.declaredAt[mark.id]? = some (.fn fm name [] type body) ∧
      .fn fm name [] type body ∈ p.decls) ∨
    ∃ d x, t.declaredAt[mark.id]? = some d ∧ d.IsVariable ∧ A.Place p d.id x := by
  obtain ⟨_, _, _, hfn, -⟩ := hA.declared
  obtain ⟨d, hd, hvalue, hmem⟩ := Decl.bound_of_mem hm.resolved hfn _ hnode
  have hwalk := hm.flat.walk_inFunction hfn
  -- Which kind of place a number has depends on whether it is that of a global variable.
  have hplace : ∀ {id x}, A.Owns id x → ∃ x, A.Place p id x := fun {id x} howns => by
    by_cases hid : id ∈ p.globals
    · obtain ⟨i, hi⟩ := List.getElem?_of_mem hid
      exact ⟨_, .shared hi⟩
    · exact ⟨x, .own hid howns⟩
  cases d with
  | fn fm name params type body =>
    obtain rfl : params = [] := hvalue
    exact .inl ⟨fm, name, type, body, hd, hm.mem_decls hA hmem⟩
  | var vm name type =>
    refine .inr ⟨.var vm name type, ?_⟩
    rw [List.mem_append, List.mem_append] at hmem
    -- Declared by the program, by the function itself, or by the block that is its body.
    rcases hmem with (hmem | hmem) | hmem
    · have hid : vm.id ∈ p.globals := List.mem_filterMap.mpr ⟨_, hmem, rfl⟩
      obtain ⟨i, hi⟩ := List.getElem?_of_mem hid
      exact ⟨_, hd, trivial, .shared hi⟩
    · obtain ⟨q, -, heq⟩ := List.mem_map.mp hmem
      cases heq
    · have hid : vm.id ∈ A.body.locals := List.mem_filterMap.mpr ⟨_, hwalk ▸ hmem, rfl⟩
      obtain ⟨i, hi⟩ := List.getElem?_of_mem hid
      obtain ⟨x, hx⟩ := hplace (.block hi)
      exact ⟨x, hd, trivial, hx⟩
  | par pm name type =>
    refine .inr ⟨.par pm name type, ?_⟩
    rw [List.mem_append, List.mem_append] at hmem
    rcases hmem with (hmem | hmem) | hmem
    -- The program declares no parameters.
    · obtain ⟨d, hd, heq⟩ := List.mem_map.mp hmem
      cases heq
      exact (hm.complete.of_mem hd).elim
    · obtain ⟨q, hq, heq⟩ := List.mem_map.mp hmem
      cases heq
      obtain ⟨i, hi⟩ := List.getElem?_of_mem hq
      obtain ⟨x, hx⟩ := hplace (.param hi)
      exact ⟨x, hd, trivial, hx⟩
    · rcases hm.complete.of_mem hfn with habsent | hbody
      · rw [habsent] at hmem
        exact (List.not_mem_nil hmem).elim
      · exact absurd rfl (A.body.not_par_of_complete hbody _ (hwalk ▸ hmem))
  | typ | comp => exact hvalue.elim

/-- **The code of a variable leads to its word.** -/
theorem leads (hm : FlatMachine p t t' m) (hA : A.Fits p t t') {mark : Mark} {d : Decl}
    {c : IR.Expr} {x : Int} (hcode : NameCode t' A.frame mark c)
    (hd : t.declaredAt[mark.id]? = some d) (hvar : d.IsVariable) (hplace : A.Place p d.id x) :
    ∃ addr, c = .mem addr ∧ A.Leads p t m addr x := by
  rw [← hm.resolves.declaredAt] at hd
  cases hcode with
  | call hbound =>
    cases hd.symm.trans hbound
    exact hvar.elim
  | static hbound _ haccess =>
    cases hd.symm.trans hbound
    cases hplace with
    | shared hi =>
      obtain ⟨data, haccess', hlabel⟩ := hm.globals hi
      cases haccess.symm.trans haccess'
      refine ⟨_, rfl, fun _ => ?_⟩
      rw [evaluation_name hlabel]
      rfl
    | own _ howns =>
      obtain ⟨off, haccess', -⟩ := howns.access hA
      cases haccess.symm.trans haccess'
  | relative hbound _ haccess =>
    cases hd.symm.trans hbound
    cases hplace with
    | shared hi =>
      obtain ⟨data, haccess', -⟩ := hm.globals hi
      cases haccess.symm.trans haccess'
    | own _ howns =>
      obtain ⟨off, haccess', hoff⟩ := howns.access hA
      obtain ⟨_, _, _, -, hframe⟩ := hA.declared
      cases haccess.symm.trans haccess'
      refine ⟨_, rfl, fun {st σ} hσ => ?_⟩
      -- No static link is followed in a global function.
      rw [hframe.depth, show (0 - 1 + 1 : Word).toInt.toNat = 0 from rfl, evaluation_binop, frameAddr,
        evaluation_temp, evaluation_const, ← hoff, ← hσ.fp]
      exact .next rfl (.next rfl rfl)

end FlatMachine

/-! ## §2 Calls -/

/-- What a call leaves to its caller: the arguments end at `top`, and what lies above has stayed. -/
structure Called (p : Program) (top : Int) (st : Store) (σ : Scene) (st' : Store) (σ' : Scene) :
    Prop where
  shares : Shares p st' σ'.state
  locals : st'.locals = st.locals
  temps : σ'.temps = σ.temps
  sp : σ'.state.sp = σ.state.sp
  memory : ∀ x, top ≤ x → x < dataStart.toInt + 2 ^ 64 →
    σ'.state.memory.read (.ofInt x) = σ.state.memory.read (.ofInt x)

/-- The behavior of a call comes to what its evaluation has come to. -/
def CallAnswers (p : Program) (top : Int) (B : Behavior Word) (st : Store) (σ : Scene) :
    Except Stop Word × Store → Prop
  | (.ok v, st') => ∃ σ', B σ (.value v σ') ∧ Called p top st σ st' σ'
  | (.error why, st') => why.Ends fun abort => ∃ s, B σ (.stop abort s) ∧ s.output = st'.output

theorem callAnswers_error {top : Int} {B : Behavior Word} {st st' : Store} {σ : Scene} {why : Stop} :
    CallAnswers p top B st σ (.error why, st') ↔
      why.Ends fun abort => ∃ s, B σ (.stop abort s) ∧ s.output = st'.output := Iff.rfl

/-- The caller finds its own variables as they were. -/
theorem Called.shows (hA : A.Fits p t t') {top : Int} (htop : top ≤ A.sp t + 8 * A.body.outgoing t)
    {st st' : Store} {σ σ' : Scene} (hσ : A.Shows p t st σ) (h : Called p top st σ st' σ') :
    A.Shows p t st' σ' ∧ A.Keeps σ σ' := by
  have hsp := A.sp_add t
  have hbase : A.base ≤ A.top := by
    rw [Activation.top]
    omega
  refine ⟨⟨h.shares, h.temps ▸ hσ.fp, h.sp.trans hσ.sp, fun {id x v} howns hv => ?_⟩, h.temps,
    fun x hlow hhigh => h.memory x (by omega) hhigh⟩
  have hbounds := howns.bounds (t := t)
  rw [h.memory x (by omega) (howns.addressable hA).2]
  exact hσ.locals howns (h.locals ▸ hv)

theorem CallAnswers.answers (hA : A.Fits p t t') {top : Int} (htop : top ≤ A.sp t + 8 * A.body.outgoing t)
    {B : Behavior Word} {st : Store} {σ : Scene} (hσ : A.Shows p t st σ) {r : Except Stop Word × Store}
    (h : CallAnswers p top B st σ r) : A.Answers p t B σ r := by
  obtain ⟨why | v, st'⟩ := r
  · exact h
  · obtain ⟨σ', hv, hcalled⟩ := h
    exact ⟨σ', hv, hcalled.shows hA htop hσ⟩

namespace Eval

section Call

variable {sp : Int} {name : String} {params : List Param} {body : Expr} {args : List Word}
  {run : Int → Eval Word}

theorem call_of_body (hbody : body ≠ .absent) : call p t sp name params body args run =
    if p.HasRoom t sp params body then do
      let caller ← get
      set { caller with locals := bindings params args }
      let v ← run (sp - body.frameBytes t)
      modify fun st => { st with locals := caller.locals }
      return v
    else throw .stackFull := by
  rw [call, if_neg]
  cases body with
  | absent => exact absurd rfl hbody
  | _ => exact Bool.false_ne_true

/-- A function with a body is run with an environment of its own. -/
theorem run_call_of_room (hbody : body ≠ .absent) (hroom : p.HasRoom t sp params body) (st : Store) :
    (call p t sp name params body args run).run.run st =
      match (run (sp - body.frameBytes t)).run.run { st with locals := bindings params args } with
      | (.ok v, st') => (.ok v, { st' with locals := st.locals })
      | (.error why, st') => (.error why, st') := by
  rw [call_of_body hbody, if_pos hroom]
  show (do
    let v ← run (sp - body.frameBytes t)
    modify fun st' => { st' with locals := st.locals }
    return v : Eval Word).run.run { st with locals := bindings params args } = _
  rcases hrun : (run (sp - body.frameBytes t)).run.run { st with locals := bindings params args }
    with ⟨why | v, st'⟩
  · rw [run_bind_error hrun]
  · rw [run_bind_ok hrun]
    rfl

end Call

/-- A parameter has the value of the argument in its place. -/
theorem bindings_eq_some {params : List Param} {args : List Word} {id : NodeId} {v : Word}
    (h : bindings params args id = some v) : ∃ (i : Nat) (q : Param),
      params[i]? = some q ∧ q.mark.id = id ∧ args[i]? = some v := by
  obtain ⟨before, after, heq, -⟩ := List.lookup_eq_some_iff.mp h
  have hmem : (id, v) ∈ (params.map fun q => q.mark.id).zip args := by
    rw [heq]
    simp
  obtain ⟨i, hi⟩ := List.getElem?_of_mem hmem
  obtain ⟨hid, hv⟩ := List.getElem?_zip_eq_some.mp hi
  rw [List.getElem?_map] at hid
  obtain ⟨q, hq, hid⟩ := Option.map_eq_some_iff.mp hid
  exact ⟨i, q, hq, hid, hv⟩

end Eval

namespace FlatMachine

variable {fm : Mark} {name : String} {params : List Param} {type : TypeExpr} {body : Expr} {f : Frame}
  {base : Int} {offs vs : List Word} {link : Word} {st : Store} {σ : Scene}

/-- Storing arguments leaves the data and what lies above the arguments alone. -/
theorem shares_writeAt (link : Word) (vs : List Word) {top : Int} (hdata : p.dataEnd ≤ base)
    (htop : base + 8 * offs.length ≤ top) (hwrap : top ≤ dataStart.toInt + 2 ^ 64)
    (hoffs : Memory.Consecutive 0 offs) (hshares : Shares p st σ.state) :
    Shares p st { σ.state with memory := σ.state.memory.writeAt (.ofInt base) offs (link :: vs) } ∧
      ∀ x, top ≤ x → x < dataStart.toInt + 2 ^ 64 →
        (σ.state.memory.writeAt (.ofInt base) offs (link :: vs)).read (.ofInt x)
          = σ.state.memory.read (.ofInt x) := by
  have hstart := p.dataStart_le
  refine ⟨hshares.of_memory (by omega) fun x hx hlt => ?_, fun x hlow hhigh => ?_⟩
  · exact Memory.read_writeAt_outside hx hoffs (by omega) (by omega) (.inl (by omega))
  · exact Memory.read_writeAt_outside ⟨by omega, hhigh⟩ hoffs (by omega) (by omega) (.inr (by omega))

section Activations

variable {B : Activation} (hB : B.Fits p t t') (hoffs : Memory.Consecutive 0 offs)
  (hlength : offs.length = vs.length + 1) (hfew : vs.length ≤ B.params.length)
  (hshares : Shares p st σ.state) (hsp : σ.state.sp = .ofInt B.base)

include hB hoffs hlength hfew hshares

/-- The frame of the callee lies between the data and the arguments. -/
theorem shares_arguments (link : Word) :
    Shares p st { σ.state with memory := σ.state.memory.writeAt (.ofInt B.base) offs (link :: vs) } ∧
      ∀ x, B.top ≤ x → x < dataStart.toInt + 2 ^ 64 →
        (σ.state.memory.writeAt (.ofInt B.base) offs (link :: vs)).read (.ofInt x)
          = σ.state.memory.read (.ofInt x) := by
  have hbase := B.sp_add t
  have hdata := hB.dataEnd_le
  have htop : B.base + 8 * offs.length ≤ B.top := by
    rw [Activation.top]
    omega
  exact shares_writeAt link vs (by omega) htop hB.top_le hoffs hshares

include hsp

/-- **The callee finds its arguments** where its parameters lie, and nothing in its other variables. -/
theorem shows_enter (link : Word) : B.Shows p t { st with locals := Eval.bindings B.params vs }
    (σ.enter B.frame offs (link :: vs)) := by
  have hstored := (shares_arguments hB hoffs hlength hfew hshares link).1
  obtain ⟨_, _, _, -, hflat⟩ := hB.declared
  refine ⟨⟨fun hi => ?_, hshares.input, hshares.output, hshares.writer⟩, ?_, ?_,
    fun {id x v} howns hbound => ?_⟩
  · rw [Scene.enter, hsp]
    exact hstored.globals hi
  · simp [Scene.enter, hsp]
  · show σ.state.sp - B.frame.size = _
    rw [hsp, hflat.size hB.frameBytes_lt, ← Int64.ofInt_eq_ofNat, ← Int64.ofInt_sub]
    rfl
  · -- Only parameters have values yet.
    obtain ⟨i, q, hi, rfl, hv⟩ := Eval.bindings_eq_some hbound
    obtain rfl := howns.unique hB (.param hi)
    have hlt := (List.getElem?_eq_some_iff.mp hv).1
    have hbase := B.sp_add t
    have hdata := hB.dataEnd_le
    have hstart := p.dataStart_le
    have htop := hB.top_le
    rw [Activation.top] at htop
    have hread : (σ.state.memory.writeAt (.ofInt B.base) offs (link :: vs)).read
        (.ofInt (B.base + 8 * ((0 : Nat) + (i + 1 : Nat)))) = v :=
      Memory.read_writeAt_word hoffs (by omega) (by omega) (by omega) hv
    rw [Scene.enter, hsp, ← hread]
    congr 2
    omega

/-- **The caller goes on** when the callee has come to its value: the data are those that the callee
has left, and what lies above the arguments is what it was. -/
theorem called_leave (link : Word) {st' : Store} {σ' : Scene} (hσ' : B.Shows p t st' σ')
    (hkeeps : B.Keeps (σ.enter B.frame offs (link :: vs)) σ') (v : Word) :
    Called p B.top st σ { st' with locals := st.locals } (σ.leave σ' v) := by
  obtain ⟨-, habove⟩ := shares_arguments hB hoffs hlength hfew hshares link
  have hframe := B.sp_add t
  have hdata := hB.dataEnd_le
  have hstart := p.dataStart_le
  have htop := hB.top_le
  rw [Activation.top] at htop
  -- The result is left at the stack pointer of the caller, behind the data.
  have hbase : Addressable B.base := ⟨by omega, by omega⟩
  have hresult : Shares p st' { σ'.state with memory := σ'.state.memory.write (.ofInt B.base) v } :=
    hσ'.shares.of_memory (by omega) fun x hx hlt => Memory.read_write_of_ne hx hbase (by omega) v
  refine ⟨⟨fun hi => ?_, hresult.input, hresult.output, hresult.writer⟩, rfl, rfl, rfl,
    fun x hlow hhigh => ?_⟩
  · rw [Scene.leave, hsp]
    exact hresult.globals hi
  · have hx : B.base < x := by
      rw [Activation.top] at hlow
      omega
    rw [Scene.leave, hsp]
    rw [Memory.read_write_of_ne ⟨by omega, hhigh⟩ hbase (by omega), hkeeps.memory x hlow hhigh,
      Scene.enter, hsp]
    exact habove x hlow hhigh

end Activations

/-- **The call of a function with a body.** -/
theorem call_function (hm : FlatMachine p t t' m) (hfn : .fn fm name params type body ∈ p.decls)
    (hbody : body ≠ .absent) (hframe : t'.frames[fm.id]? = some f) (hinside : base ≤ stackTop.toInt)
    (hoffs : Memory.Consecutive 0 offs) (hlength : offs.length = vs.length + 1)
    (hfew : vs.length ≤ params.length) {run : Int → Eval Word}
    (hrun : Activation.Fits p t t' ⟨f, params, body, base⟩ → ∀ lo hi c, body.Code t' f lo hi c →
      Activation.Refines p t ⟨f, params, body, base⟩ (run (base - body.frameBytes t)) (m.evaluation c))
    (hshares : Shares p st σ.state) (hsp : σ.state.sp = .ofInt base) :
    CallAnswers p (base + 8 * (params.length + 1)) (m.invocation f.label offs (link :: vs)) st σ
      ((Eval.call p t base name params body vs run).run.run st) := by
  have hargs : offs.length ≤ (link :: vs).length := Nat.le_of_eq hlength
  by_cases hroom : p.HasRoom t base params body
  · rw [Eval.run_call_of_room hbody hroom]
    obtain ⟨f', hf', hflat⟩ := hm.frames hfn
    cases hframe.symm.trans hf'
    -- There is room, so the activation fits and its body runs as the evaluator says.
    have hB : Activation.Fits p t t' ⟨f, params, body, base⟩ := ⟨⟨_, _, _, hfn, hflat⟩, hroom, hinside⟩
    obtain ⟨hlabel, lo, hi, c, hcode, hloaded⟩ := hm.bodies hfn hbody hframe
    have hanswers := hrun hB lo hi c hcode _ _ (shows_enter hB hoffs hlength hfew hshares hsp link)
    generalize (run (base - body.frameBytes t)).run.run _ = r at hanswers
    obtain ⟨why | v, st'⟩ := r
    · refine callAnswers_error.mpr ((Activation.answers_error.mp hanswers).imp ?_)
      rintro _ ⟨s, hs, hout⟩
      exact ⟨s, invocation_of_stop hm.unlimited hargs hlabel hloaded hs, hout⟩
    · obtain ⟨σ', hv, hσ', hkeeps⟩ := hanswers
      exact ⟨_, invocation_of_value hm.unlimited hargs hlabel hloaded hv,
        called_leave hB hoffs hlength hfew hshares hsp link hσ' hkeeps v⟩
  · -- Nothing is asked of a call without room.
    rw [Eval.call_of_body hbody, if_neg hroom]
    trivial

/-- The routine does to a state what its evaluation does to the store, and leaves the memory alone.
It ends the run where the evaluation stops. -/
def RoutineAnswers (p : Program) (r : Routine) (st : Store) (s : State) : Except Stop Word × Store → Prop
  | (.ok v, st') => ∃ s', r.run s = (.value v, s') ∧ Shares p st' s' ∧ st'.locals = st.locals ∧
    s'.sp = s.sp ∧ s'.memory = s.memory
  | (.error why, st') => why.Ends fun abort => ∃ s', r.run s = (abort.ending, s') ∧ s'.output = st'.output

theorem routineAnswers_error {r : Routine} {s : State} {why : Stop} {st' : Store} :
    RoutineAnswers p r st s (.error why, st') ↔
      why.Ends fun abort => ∃ s', r.run s = (abort.ending, s') ∧ s'.output = st'.output := Iff.rfl

/-- **What routines do.** -/
theorem routineAnswers {s : State} (hname : (name, vs.length) ∈ flatRoutines) (hshares : Shares p st s)
    (harg : ∀ v, vs = [v] → s.routineArg = v) : ∃ r, Routine.ofLabel? (.global name) = some r ∧
      RoutineAnswers p r st s ((Eval.routine name vs).run.run st) := by
  have hroutine : name = "putChar" ∧ vs.length = 1 ∨ name = "exit" ∧ vs.length = 1 ∨
      name = "getChar" ∧ vs.length = 0 := by simpa [flatRoutines] using hname
  rcases hroutine with ⟨rfl, hone⟩ | ⟨rfl, hone⟩ | ⟨rfl, hnone⟩
  · obtain ⟨v, rfl⟩ := List.length_eq_one_iff.mp hone
    have hrun : Routine.run .putChar
        s = (.value 0, { s with output := s.output.push v.toUInt64.toUInt8 }) := by
      rw [Routine.run, if_pos hshares.writer, harg v rfl]
    refine ⟨.putChar, by decide, _, hrun, ?_, rfl, rfl, rfl⟩
    exact ⟨hshares.globals, hshares.input, by rw [hshares.output], hshares.writer⟩
  · obtain ⟨v, rfl⟩ := List.length_eq_one_iff.mp hone
    have hrun : Routine.run .exit s = (.exit v, s) := by rw [Routine.run, harg v rfl]
    exact ⟨.exit, by decide, s, hrun, hshares.output⟩
  · obtain rfl := List.length_eq_zero_iff.mp hnone
    obtain ⟨locals, globals, input, output⟩ := st
    have hinput := hshares.input
    refine ⟨.getChar, by decide, ?_⟩
    -- At the end of the input, and if there is none, the state stays as it is.
    rcases input with _ | ⟨_ | ⟨b, bs⟩, fault⟩
    · have hrun : Routine.run .getChar s = (.value (-1), s) := by rw [Routine.run, hinput]
      exact ⟨s, hrun, hshares, rfl, rfl, rfl⟩
    · cases fault with
      | none =>
        have hrun : Routine.run .getChar s = (.value (-1), s) := by rw [Routine.run, hinput]
        exact ⟨s, hrun, hshares, rfl, rfl, rfl⟩
      | some fault =>
        have hrun : Routine.run .getChar s = (.error (.reader fault), s) := by rw [Routine.run, hinput]
        exact ⟨s, hrun, hshares.output⟩
    · have hrun : Routine.run .getChar s = (.value (.ofNat b.toNat),
          { s with input := some ⟨bs, fault⟩ }) := by
        rw [Routine.run, hinput]
      exact ⟨_, hrun, ⟨hshares.globals, rfl, hshares.output, hshares.writer⟩, rfl, rfl, rfl⟩

/-- The argument of a routine is the word behind the static link. -/
theorem routineArg_writeAt {v : Word} (hoffs : Memory.Consecutive 0 offs) (hlength : offs.length = 2)
    (hlow : dataStart.toInt ≤ base) (hhigh : base + 16 ≤ dataStart.toInt + 2 ^ 64)
    (hsp : σ.state.sp = .ofInt base) :
    State.routineArg { σ.state with memory := σ.state.memory.writeAt σ.state.sp offs [link, v] } = v := by
  have hread : (σ.state.memory.writeAt (.ofInt base) offs [link, v]).read
      (.ofInt (base + 8 * ((0 : Nat) + (1 : Nat)))) = v :=
    Memory.read_writeAt_word hoffs hlow (by omega) (by omega) rfl
  show Memory.read (σ.state.memory.writeAt σ.state.sp offs [link, v]) (σ.state.sp + _) = v
  rw [hsp, show Word.byteSize = .ofNat 8 from rfl, Word.ofInt_add_ofNat]
  exact hread

/-- **The call of a routine.** -/
theorem call_routine (hname : (name, vs.length) ∈ flatRoutines) (hdata : p.dataEnd ≤ base)
    (hwrap : base + 8 * (vs.length + 1) ≤ dataStart.toInt + 2 ^ 64) (hoffs : Memory.Consecutive 0 offs)
    (hlength : offs.length = vs.length + 1) (run : Int → Eval Word) (hshares : Shares p st σ.state)
    (hsp : σ.state.sp = .ofInt base) :
    CallAnswers p (base + 8 * (vs.length + 1)) (m.invocation (.global name) offs (link :: vs)) st σ
      ((Eval.call p t base name params .absent vs run).run.run st) := by
  have hargs : offs.length ≤ (link :: vs).length := Nat.le_of_eq hlength
  obtain ⟨hstored, habove⟩ := shares_writeAt link vs hdata (by omega) hwrap hoffs hshares
  have hstart := p.dataStart_le
  rw [← hsp] at hstored
  obtain ⟨r, hlabel, hanswers⟩ := routineAnswers hname hstored fun v hv => by
    subst hv
    rw [List.length_singleton] at hlength hwrap
    exact routineArg_writeAt hoffs hlength (by omega) (by omega) hsp
  show CallAnswers p _ _ st σ ((Eval.routine name vs).run.run st)
  generalize (Eval.routine name vs).run.run st = result at hanswers
  obtain ⟨why | v, st'⟩ := result
  · refine callAnswers_error.mpr ((routineAnswers_error.mp hanswers).imp ?_)
    rintro abort ⟨s', hrun, hout⟩
    exact ⟨s', invocation_of_stop_routine hargs hlabel hrun, hout⟩
  · obtain ⟨s', hrun, hshares', hlocals, hsp', hmemory⟩ := hanswers
    refine ⟨_, invocation_of_routine hargs hlabel hrun, hshares', hlocals, rfl, hsp',
      fun x hlow hhigh => ?_⟩
    rw [hmemory, hsp]
    exact habove x hlow hhigh

end FlatMachine

/-- The parameters of a function take consecutive words above the static link. -/
theorem FlatFrame.consecutive {f : Frame} {name : String} {params : List Param} {body : Expr}
    (h : FlatFrame t t' f name params body) {offs : List Word}
    (hoffs : List.Forall₂ (fun q off => t'.OffsetAt q.mark.id off) params offs) :
    Memory.Consecutive 0 (0 :: offs) := by
  intro i off hi
  cases i with
  | zero =>
    cases hi
    rfl
  | succ i =>
    obtain ⟨hlt, hget⟩ := List.getElem?_eq_some_iff.mp (show offs[i]? = some off from hi)
    have hlt' : i < params.length := hoffs.length_eq ▸ hlt
    obtain ⟨size, depth, hoff⟩ := hoffs.get hlt' hlt
    have haccess := h.params (List.getElem?_eq_getElem hlt')
    obtain ⟨-, heq, -⟩ := Access.relative.inj (Option.some.inj (haccess.symm.trans hoff))
    rw [Nat.zero_add, heq]
    exact hget.symm

/-- There is room for the arguments of every call. -/
theorem Activation.Fits.callWords_le (hA : A.Fits p t t') (hflat : p.FlatScalar t) {n : Node}
    (hn : n ∈ A.body.walk everywhere) : n.callWords t ≤ A.body.outgoing t := by
  obtain ⟨_, _, _, hfn, -⟩ := hA.declared
  rw [Expr.outgoing, hflat.walk_inFunction hfn]
  exact le_foldr_max (List.mem_map_of_mem hn)

namespace FlatMachine

variable {fm : Mark} {name : String} {params : List Param} {type : TypeExpr} {body : Expr} {f : Frame}
  {offs : List Word}

/-- **A call inside an activation.** -/
theorem refines_call (hm : FlatMachine p t t' m) (hA : A.Fits p t t')
    (hfn : .fn fm name params type body ∈ p.decls) (hframe : t'.frames[fm.id]? = some f)
    (hoffs : List.Forall₂ (fun q off => t'.OffsetAt q.mark.id off) params offs)
    (hwords : params.length + 1 ≤ A.body.outgoing t) {args : Eval (List Word)} {codes : List IR.Expr}
    (hargs : A.Refines p t args (m.evaluationAll codes))
    (hlength : ∀ st vs st', args.run.run st = (.ok vs, st') → vs.length = params.length)
    {run : Int → Eval Word} (hrun : ∀ B : Activation, B.Fits p t t' → B.body = body →
      ∀ lo hi c, body.Code t' B.frame lo hi c →
      B.Refines p t (run (B.sp t)) (m.evaluation c)) :
    A.Refines p t (do Eval.call p t (A.sp t) name params body (← args) run)
      (m.evaluation (.call f.label (0 :: offs) (staticLink A.frame f :: codes))) := by
  obtain ⟨f', hf', hcallee⟩ := hm.frames hfn
  cases hframe.symm.trans hf'
  obtain ⟨_, _, _, -, hcaller⟩ := hA.declared
  -- Caller and callee are both global, so the static link is the frame pointer of the caller.
  have hlink : staticLink A.frame f = .temp A.frame.fp := by
    rw [staticLink, hcaller.depth, hcallee.depth]
    rfl
  rw [hlink, evaluation_call, evaluationAll, evaluation_temp]
  simp only [bind_assoc, pure_bind]
  refine Activation.Refines.behind (a := .ofInt A.base) ?_ fun st σ hσ => ⟨σ, ?_, hσ, .refl A σ⟩
  · -- The arguments go to the end of the frame of the caller.
    refine hargs.bind_of hlength fun vs hvs st σ hσ => ?_
    have hconsecutive := hcallee.consecutive hoffs
    have hcount : (0 :: offs).length = vs.length + 1 := by rw [List.length_cons, ← hoffs.length_eq, hvs]
    have hsp := A.sp_add t
    have hdata := hA.dataEnd_le
    have hinside := hA.inside
    have htop := hA.top_le
    rw [Activation.top] at htop
    have harea : A.sp t + 8 * (params.length + 1) ≤ A.sp t + 8 * A.body.outgoing t := by omega
    refine CallAnswers.answers hA harea hσ ?_
    by_cases hbody : body = .absent
    · subst hbody
      rw [hcallee.label, ← hvs]
      exact call_routine (hvs ▸ hm.flat.routines _ _ _ _ hfn) hdata (by omega) hconsecutive hcount run
        hσ.shares hσ.sp
    · exact hm.call_function hfn hbody hframe (by omega) hconsecutive hcount hvs.le
        (fun hB => hrun _ hB rfl) hσ.shares hσ.sp
  · rw [Behavior.readTemp, Behavior.act, hσ.fp]

end FlatMachine

/-! ## §3 Literals and operators -/

/-- A literal is a constant. -/
theorem refines_literal {mark : Mark} {kind : AtomKind} {value : String} {c : IR.Expr}
    (hcode : AtomCode t' mark value kind c) (hkind : kind ≠ .str) :
    A.Refines p t (Eval.literal kind value) (m.evaluation c) := by
  cases hcode with
  | void | ptr | bool =>
    rw [evaluation_const]
    exact .pure p t A _
  | char h =>
    unfold charConstant at h
    dsimp only at h
    split at h
    · next b _ _ hbytes =>
      cases h
      rw [Eval.literal, hbytes, evaluation_const]
      exact .pure p t A _
    · cases h
  | int h =>
    rw [Eval.literal, h, evaluation_const]
    exact .pure p t A _
  | str => exact absurd rfl hkind

theorem refines_unary {op : UnaryOp} (hop : op ≠ .addr ∧ op ≠ .new ∧ op ≠ .del) {a c : IR.Expr}
    (hcode : unary op a = .ok c) {x : Eval Word} (h : A.Refines p t x (m.evaluation a)) :
    A.Refines p t (do Eval.unary op (← x)) (m.evaluation c) := by
  cases op with
  | pos =>
    cases hcode
    show A.Refines p t (x >>= pure) _
    rwa [bind_pure]
  | neg | not =>
    cases hcode
    rw [evaluation_unop]
    exact h.bind fun v => .pure p t A _
  | addr => exact absurd rfl hop.1
  | new => exact absurd rfl hop.2.1
  | del => exact absurd rfl hop.2.2
  | unknown => cases hcode

/-- A division by zero ends the run in both. -/
theorem refines_division {y v w : Word} (h : y ≠ 0 → w = v) : A.Refines p t
    (if y = 0 then throw .divisionByZero else return v)
    (.ofExcept (if y = 0 then .error .divisionByZero else .ok w)) := by
  by_cases hy : y = 0
  · rw [if_pos hy, if_pos hy]
    exact fun st σ hσ => Activation.answers_error.mpr ⟨_, rfl, hσ.shares.output⟩
  · rw [if_neg hy, if_neg hy, h hy]
    exact .pure p t A v

/-- Words are divided and compared like the integers that they stand for. -/
theorem refines_operator {op : BinaryOp} {o : IR.BinOp} (hop : binaryOp op = .ok o) (x y : Word) :
    A.Refines p t (Eval.binary op x y) (.ofExcept (applyBinary o x y)) := by
  have hpure : ∀ {v w : Word}, v = w → A.Refines p t (pure v) (pure w) := by
    rintro v _ rfl
    exact .pure p t A v
  cases op with
  | or | and | eq | ne =>
    cases hop
    exact hpure rfl
  | lt | gt =>
    cases hop
    exact hpure (congrArg Word.ofBool (decide_eq_decide.mpr Int64.lt_iff_toInt_lt.symm))
  | le | ge =>
    cases hop
    exact hpure (congrArg Word.ofBool (decide_eq_decide.mpr Int64.le_iff_toInt_le.symm))
  | add =>
    cases hop
    exact hpure (by rw [Int64.ofInt_add, Int64.ofInt_toInt, Int64.ofInt_toInt])
  | sub =>
    cases hop
    exact hpure (by rw [Int64.ofInt_sub, Int64.ofInt_toInt, Int64.ofInt_toInt])
  | mul =>
    cases hop
    exact hpure (by rw [Int64.ofInt_mul, Int64.ofInt_toInt, Int64.ofInt_toInt])
  | div =>
    cases hop
    exact refines_division fun hy => by rw [Word.floorDiv, Word.floorDivMod_eq x hy]
  | mod =>
    cases hop
    exact refines_division fun hy => by rw [Word.floorMod, Word.floorDivMod_eq x hy]
  | unknown => cases hop

/-- A cast to characters is a division. -/
theorem refines_cast (ht : t'.Resolves t) {type : TypeExpr} {a c : IR.Expr} (hcode : CastCode t' type a c)
    {x : Eval Word} (h : A.Refines p t x (m.evaluation a)) :
    A.Refines p t (do return Eval.cast t type (← x)) (m.evaluation c) := by
  cases hcode with
  | char htype hchar =>
    rw [ht.isType] at htype
    rw [ht.typeDefs] at hchar
    simp only [evaluation_binop, evaluation_const, pure_bind]
    refine h.bind fun v => ?_
    have hcast : Eval.cast t type v = .ofInt (v.toInt.fmod 256) := if_pos (by simp [htype, hchar])
    have hmod : applyBinary .mod v 256 = .ok (.ofInt (v.toInt.fmod 256)) := by
      rw [applyBinary, if_neg (by decide), Word.floorMod, Word.floorDivMod_eq v (by decide)]
      rfl
    rw [hcast, hmod]
    exact .pure p t A _
  | other hother =>
    have hcast : ∀ v, Eval.cast t type v = v := fun v => if_neg (by
      rw [← ht.isType, ← ht.typeDefs]
      cases htype : t'.isType[type.mark.id]? with
      | none => simp
      | some ty => simp [hother ty htype])
    simpa only [hcast, bind_pure] using h

/-! ## §4 Code that follows the tree -/

/-- The nodes belong to the function of the activation. -/
def Activation.Has (A : Activation) (ns : List Node) : Prop := ∀ n ∈ ns, n ∈ A.body.walk everywhere

theorem Activation.has_below {node : Node} {ns : List Node} (h : A.Has (Node.below everywhere node ns)) :
    node ∈ A.body.walk everywhere ∧ A.Has ns := forall_below.mp h

theorem Activation.has_append {ns ns' : List Node} (h : A.Has (ns ++ ns')) : A.Has ns ∧ A.Has ns' :=
  List.forall_mem_append.mp h

/-- With the fuel `n`, the code of everything in a function comes to what its evaluation comes to. -/
structure Simulated (p : Program) (t t' : Attributes) (m : Machine) (n : Nat) : Prop where
  expr : ∀ {A : Activation} {e : Expr} {lo hi : Int} {c : IR.Expr}, A.Fits p t t' →
    e.Code t' A.frame lo hi c → A.Has (e.walk everywhere) →
      A.Refines p t (Eval.expr p t n (A.sp t) e) (m.evaluation c)
  exprs : ∀ {A : Activation} {es : List Expr} {ps : List Param} {lo hi : Int} {offs : List Word}
    {cs : List IR.Expr}, A.Fits p t t' → Expr.CodeAll t' A.frame es ps lo hi offs cs →
      A.Has (Expr.walkAll everywhere es) →
      A.Refines p t (Eval.exprs p t n (A.sp t) es) (m.evaluationAll cs)
  stmt : ∀ {A : Activation} {s : Stmt} {lo hi : Int} {c : IR.Stmt}, A.Fits p t t' →
    s.Code t' A.frame lo hi c → A.Has (s.walk everywhere) →
      A.Refines p t (Eval.stmt p t n (A.sp t) s) (m.execution c)
  stmts : ∀ {A : Activation} {ss : List Stmt} {lo hi : Int} {cs : List IR.Stmt}, A.Fits p t t' →
    Stmt.CodeAll t' A.frame ss lo hi cs → A.Has (Stmt.walkAll everywhere ss) →
      A.Refines p t (Eval.stmts p t n (A.sp t) ss) (blockBehavior m ss cs)
  /-- A loop whose start has been passed. -/
  loop : ∀ {A : Activation} {mark : Mark} {test : Expr} {body : Stmt} {j k l h : Int} {a : IR.Expr}
    {b : IR.Stmt}, A.Fits p t t' → test.Code t' A.frame j k a → body.Code t' A.frame l h b →
      A.Has (test.walk everywhere) → A.Has (body.walk everywhere) →
      A.Refines p t (Eval.stmt p t n (A.sp t) (.loop mark test body))
        (Behavior.iterate (m.round (m.evaluation a) (m.execution b)))

/-- The body of a function is evaluated in every activation of the function. -/
theorem Simulated.body {n : Nat} (hn : Simulated p t t' m n) {body : Expr} (B : Activation)
    (hB : B.Fits p t t') (hbody : B.body = body) (lo hi : Int) (c : IR.Expr)
    (hc : body.Code t' B.frame lo hi c) :
    B.Refines p t (Eval.expr p t n (B.sp t) body) (m.evaluation c) := by
  subst hbody
  exact hn.expr hB hc fun _ hnode => hnode

/-- As many arguments are evaluated as there are. -/
theorem Eval.exprs_length : ∀ (n : Nat) (sp : Int) (es : List Expr) (st : Store),
    Ensures (Eval.exprs p t n sp es) st fun vs _ => vs.length = es.length
  | 0, _, _, _ => .throw _
  | _ + 1, _, [], _ => .pure rfl
  | n + 1, sp, _ :: es, _ => .bind (P := fun _ _ => True) (fun _ _ _ => trivial) fun _ st _ =>
    (Eval.exprs_length n sp es st).bind fun _ _ hvs => .pure (congrArg Nat.succ hvs)

namespace FlatMachine

variable {n : Nat}

/-- A name is a call or the value of a variable. -/
theorem refines_name (hm : FlatMachine p t t' m) (hn : Simulated p t t' m n) (hA : A.Fits p t t')
    {mark : Mark} {ident : String} {c : IR.Expr} (hcode : NameCode t' A.frame mark c)
    (hnode : .expr (.name mark ident) ∈ A.body.walk everywhere) :
    A.Refines p t (Eval.expr p t (n + 1) (A.sp t) (.name mark ident)) (m.evaluation c) := by
  rw [Eval.expr]
  rcases hm.declared hA hnode with ⟨fm, name, type, body, hd, hfn⟩ | ⟨d, x, hd, hvar, hplace⟩
  · have hwords := hA.callWords_le hm.flat hnode
    simp only [Node.callWords, hd] at hwords ⊢
    rw [← hm.resolves.declaredAt] at hd
    cases hcode with
    | @call _ _ _ _ _ callee hbound hframe =>
      -- The code of the call belongs to the function that the name is bound to.
      cases hd.symm.trans hbound
      have hcall : A.Refines p t
          (pure [] >>= fun args => Eval.call p t (A.sp t) name [] body args fun sp =>
            Eval.expr p t n sp body)
          (m.evaluation (.call callee.label [0] [staticLink A.frame callee])) := by
        refine hm.refines_call hA hfn hframe .nil hwords (.pure p t A []) ?_ hn.body
        rintro st vs st' hrun
        cases hrun
        rfl
      rwa [pure_bind] at hcall
    | static hbound hvar | relative hbound hvar =>
      cases hd.symm.trans hbound
      exact hvar.elim
  · obtain ⟨addr, rfl, haddr⟩ := hm.leads hA hcode hd hvar hplace
    rw [hd]
    cases d with
    | var | par => exact Activation.refines_read hplace haddr
    | _ => exact hvar.elim

/-- What an expression of a function does. -/
theorem refines_expr (hm : FlatMachine p t t' m) (hn : Simulated p t t' m n) {e : Expr} {lo hi : Int}
    {c : IR.Expr} (hA : A.Fits p t t') (hcode : e.Code t' A.frame lo hi c)
    (hhas : A.Has (e.walk everywhere)) :
    A.Refines p t (Eval.expr p t (n + 1) (A.sp t) e) (m.evaluation c) := by
  obtain ⟨_, _, _, hfn, -⟩ := id hA.declared
  have hscalar : ∀ node ∈ e.walk everywhere, node.FlatScalar t := fun node hnode =>
    (hm.flat.nodes_of_body hfn (hhas node hnode)).2
  cases e with
  | absent => exact hcode.elim
  | atom mark kind value =>
    rw [Eval.expr]
    exact refines_literal hcode.2 (hscalar _ List.mem_cons_self)
  | unary mark op arg =>
    obtain ⟨a, ha, hc⟩ := hcode
    rw [Eval.expr]
    exact refines_unary (hscalar _ List.mem_cons_self) hc (hn.expr hA ha (Activation.has_below hhas).2)
  -- A flat program has scalars only, so it follows no pointers and indexes nothing.
  | deref | index | select => exact (hscalar _ List.mem_cons_self).elim
  | binary mark op fst snd =>
    obtain ⟨k, a, b, o, ha, hb, ho, rfl⟩ := hcode
    obtain ⟨hfst, hsnd⟩ := Activation.has_append (Activation.has_below hhas).2
    rw [Eval.expr, evaluation_binop]
    refine (hn.expr hA ha hfst).bind fun x => (hn.expr hA hb hsnd).bind fun y => ?_
    exact refines_operator ho x y
  | name mark ident => exact hm.refines_name hn hA hcode.2 (Activation.has_below hhas).1
  -- The arguments and the body of the callee have less fuel, so they are simulated already.
  | call mark ident args =>
    obtain ⟨fm, name, params, type, body, callee, offs, codes, hd, hframe, hlength, hargs, rfl⟩ := hcode
    obtain ⟨hnode, hall⟩ := Activation.has_below hhas
    have hwords := hA.callWords_le hm.flat hnode
    have hoffs := hargs.offsets hlength
    rw [hm.resolves.declaredAt] at hd
    obtain ⟨_, _, _, _, _, hd', hmem, -⟩ := Decl.bound_of_mem hm.resolved hfn _ hnode
    -- The name is bound to the same function in both tables.
    cases hd.symm.trans hd'
    rw [Eval.expr, hd]
    refine hm.refines_call hA (hm.mem_decls hA hmem) hframe hoffs (hlength ▸ hwords)
      (hn.exprs hA hargs hall)
      (fun st vs st' hrun => ?_) hn.body
    rw [hlength]
    exact Eval.exprs_length n _ args st vs st' hrun
  | block mark ss =>
    obtain ⟨codes, hss, rfl⟩ := hcode
    rw [Eval.expr, evaluation_blockValue m hss (Stmt.lowered_of_codeAll m ss hss).2]
    exact hn.stmts hA hss (Activation.has_below hhas).2
  | cast mark arg type =>
    obtain ⟨a, ha, hc⟩ := hcode
    rw [Eval.expr]
    exact refines_cast hm.resolves hc (hn.expr hA ha (Activation.has_below hhas).2)
  | scope mark ds body =>
    obtain ⟨k, -, hbody⟩ := hcode
    rw [Eval.expr]
    exact hn.expr hA hbody (Activation.has_append (Activation.has_below hhas).2).2

/-- Arguments in order. -/
theorem refines_exprs (hn : Simulated p t t' m n) {es : List Expr} {ps : List Param} {lo hi : Int}
    {offs : List Word} {cs : List IR.Expr} (hA : A.Fits p t t')
    (hcode : Expr.CodeAll t' A.frame es ps lo hi offs cs) (hhas : A.Has (Expr.walkAll everywhere es)) :
    A.Refines p t (Eval.exprs p t (n + 1) (A.sp t) es) (m.evaluationAll cs) := by
  cases es with
  | nil =>
    obtain ⟨-, -, rfl⟩ := hcode
    exact .pure p t A []
  | cons e es =>
    cases ps with
    | nil => exact hcode.elim
    | cons q ps =>
      obtain ⟨k, off, c, offs, cs, -, he, hes, -, rfl⟩ := hcode
      obtain ⟨hfirst, hrest⟩ := Activation.has_append hhas
      rw [Eval.exprs, evaluationAll]
      exact (hn.expr hA he hfirst).bind fun v => (hn.exprs hA hes hrest).bind fun vs => .pure p t A _

/-- Statements in order. -/
theorem refines_stmts (hn : Simulated p t t' m n) {ss : List Stmt} {lo hi : Int} {cs : List IR.Stmt}
    (hA : A.Fits p t t') (hcode : Stmt.CodeAll t' A.frame ss lo hi cs)
    (hhas : A.Has (Stmt.walkAll everywhere ss)) :
    A.Refines p t (Eval.stmts p t (n + 1) (A.sp t) ss) (blockBehavior m ss cs) := by
  cases ss with
  | nil =>
    obtain ⟨-, rfl⟩ := hcode
    exact .pure p t A 0
  | cons s ss =>
    obtain ⟨k, c, cs, hs, hss, rfl⟩ := hcode
    obtain ⟨hfirst, hrest⟩ := Activation.has_append hhas
    by_cases hlast : ∃ mark e, s = .eval mark e ∧ ss = []
    · obtain ⟨mark, e, rfl, rfl⟩ := hlast
      obtain ⟨a, ha, rfl⟩ := hs
      obtain ⟨-, rfl⟩ := hss
      rw [Eval.stmts, blockBehavior]
      exact hn.expr hA ha (Activation.has_below hfirst).2
    · -- Any other statement goes before the rest, whose value is that of the block.
      rw [Eval.stmts, blockBehavior]
      · exact (hn.stmt hA hs hfirst).bind fun _ => hn.stmts hA hss hrest
      · rintro mark e a rfl rfl rfl rfl
        exact hlast ⟨_, _, rfl, rfl⟩
      · rintro mark e rfl rfl
        exact hlast ⟨_, _, rfl, rfl⟩

/-- A loop whose start has been passed. -/
theorem refines_loop (hm : FlatMachine p t t' m) (hn : Simulated p t t' m n) {mark : Mark} {test : Expr}
    {body : Stmt} {j k l h : Int} {a : IR.Expr} {b : IR.Stmt} (hA : A.Fits p t t')
    (ha : test.Code t' A.frame j k a) (hb : body.Code t' A.frame l h b)
    (htest : A.Has (test.walk everywhere)) (hbody : A.Has (body.walk everywhere)) :
    A.Refines p t (Eval.stmt p t (n + 1) (A.sp t) (.loop mark test body))
      (Behavior.iterate (m.round (m.evaluation a) (m.execution b))) := by
  rw [iterate_round, Eval.stmt]
  refine .counted hm.unlimited ((hn.expr hA ha htest).bind fun v => ?_)
  by_cases hv : v ≠ 0
  · rw [if_pos hv, if_pos hv]
    exact (hn.stmt hA hb hbody).bind fun _ => (hn.loop hA ha hb htest hbody).counted hm.unlimited
  · rw [if_neg hv, if_neg hv]
    exact .pure p t A ()

/-- What a statement of a function does. -/
theorem refines_stmt (hm : FlatMachine p t t' m) (hn : Simulated p t t' m n) {s : Stmt} {lo hi : Int}
    {c : IR.Stmt} (hA : A.Fits p t t') (hcode : s.Code t' A.frame lo hi c)
    (hhas : A.Has (s.walk everywhere)) :
    A.Refines p t (Eval.stmt p t (n + 1) (A.sp t) s) (m.execution c) := by
  -- By itself, a statement does what its code implements.
  have hexecution : ∀ {B : Behavior Unit}, m.Implements c B → m.execution c = B := fun h =>
    h.execution_eq (Stmt.nodup_of_code hcode)
  have himplements : ∀ {s : Stmt} {lo hi : Int} {c : IR.Stmt}, s.Code t' A.frame lo hi c →
      m.Implements c (m.execution c) := fun h => (Stmt.lowered_of_code m _ h).implements
  cases s with
  | absent =>
    obtain ⟨-, rfl⟩ := hcode
    rw [hexecution (.nil m)]
    exact .pure p t A ()
  | eval mark e =>
    obtain ⟨a, ha, rfl⟩ := hcode
    rw [hexecution (.eval m a), Eval.stmt]
    refine .counted hm.unlimited ((hn.expr hA ha (Activation.has_below hhas).2).bind fun v => ?_)
    exact .pure p t A ()
  | assign mark dst src =>
    obtain ⟨k, a, b, ha, hb, rfl⟩ := hcode
    obtain ⟨hnode, hparts⟩ := Activation.has_below hhas
    obtain ⟨hdst, hsrc⟩ := Activation.has_append hparts
    rw [hexecution (.move m a b)]
    obtain ⟨_, _, _, hfn, -⟩ := id hA.declared
    have hlocation : dst.IsLocation t := Decl.bound_of_mem hm.resolved hfn _ hnode
    have hflat : ∀ node ∈ dst.walk everywhere, node.FlatScalar t := fun node hdstNode =>
      (hm.flat.nodes_of_body hfn (hdst node hdstNode)).2
    -- All locations are names.
    cases dst with
    | name mark' ident =>
      obtain ⟨d, hd, hvar⟩ := hlocation
      rcases hm.declared hA (hdst _ List.mem_cons_self) with
        ⟨_, _, _, _, hd', -⟩ | ⟨d', x, hd', -, hplace⟩
      · cases hd.symm.trans hd'
        exact hvar.elim
      · cases hd.symm.trans hd'
        obtain ⟨addr, rfl, haddr⟩ := hm.leads hA ha.2 hd hvar hplace
        have hassign := Activation.refines_assign hm.unlimited hA hm.distinct hplace haddr
          (hn.expr hA hb hsrc)
        rw [Eval.stmt, hd]
        cases d with
        | var | par => exact hassign
        | _ => exact hvar.elim
    | deref | index | select => exact (hflat _ List.mem_cons_self).elim
    | _ => exact hlocation.elim
  -- Statements are counted at the test and behind the branch; without a limit this has no effect.
  | cond mark test yes no =>
    obtain ⟨j, k, l, a, b, b', ha, hb, hb', -, rfl⟩ := hcode
    obtain ⟨hparts, hno⟩ := Activation.has_append (Activation.has_below hhas).2
    obtain ⟨htest, hyes⟩ := Activation.has_append hparts
    rw [hexecution (.branch (himplements hb) (himplements hb')), Eval.stmt]
    refine .counted hm.unlimited ((hn.expr hA ha htest).bind fun v => ?_)
    by_cases hv : v ≠ 0
    · rw [if_pos hv, if_pos hv]
      exact (hn.stmt hA hb hyes).then_count hm.unlimited
    · rw [if_neg hv, if_neg hv]
      exact (hn.stmt hA hb' hno).then_count hm.unlimited
  -- How often the body runs is settled by a lemma of its own.
  | loop mark test body =>
    obtain ⟨j, k, a, b, ha, hb, -, rfl⟩ := hcode
    obtain ⟨htest, hbody⟩ := Activation.has_append (Activation.has_below hhas).2
    rw [hexecution (.loop (himplements hb))]
    exact (hm.refines_loop hn hA ha hb htest hbody).counted hm.unlimited

/-- **Code refines evaluation**, by induction on the fuel. -/
theorem simulated (hm : FlatMachine p t t' m) (n : Nat) : Simulated p t t' m n := by
  induction n with
  | zero =>
    have hnone : ∀ {A : Activation} {α : Type} (B : Behavior α), A.Refines p t (throw .outOfFuel) B :=
      fun B => .throw (.inr (.inr rfl)) B
    exact ⟨fun _ _ _ => hnone _, fun _ _ _ => hnone _, fun _ _ _ => hnone _, fun _ _ _ => hnone _,
      fun _ _ _ _ _ => hnone _⟩
  | succ n hn =>
    exact ⟨hm.refines_expr hn, refines_exprs hn, hm.refines_stmt hn, refines_stmts hn, hm.refines_loop hn⟩

end FlatMachine

end MmixBackend.Source
