import MmixBackend.Proofs.Source.Linkage
import MmixBackend.Proofs.Stages

/-!
# Accepted programs do not go wrong

A program that has been accepted is run by the machine, as trees or in linear form, without ever reaching
something that is not there: a function, a label, a statement or an operator. This depends on the program
only, not on what it does with its memory.

## Main statements

- `Stages.treeMachine_sound`, `Stages.machine_sound`: a machine with the program loaded is sound.
- `accepted_programs_do_not_go_wrong`: how runs of accepted programs end.
-/

namespace MmixBackend

open Source

/-! ## §1 Loading -/

namespace Machine

theorem labels_loadData (m : Machine) (d : StaticData) (l : Label) :
    (m.loadData d).labels[l]? = if d.label = l then some m.state.heap else m.labels[l]? := by
  show (m.labels.insert d.label m.state.heap)[l]? = _
  rw [Std.HashMap.getElem?_insert]
  simp

/-- Loading data gives every one of them an address, and no functions. -/
theorem foldl_loadData (data : List StaticData) (m : Machine) :
    (data.foldl loadData m).functions = m.functions ∧
      ∀ l, m.HasData l ∨ (∃ d ∈ data, d.label = l) → (data.foldl loadData m).HasData l := by
  induction data generalizing m with
  | nil => simp
  | cons d data ih =>
    obtain ⟨hfunctions, hdata⟩ := ih (m.loadData d)
    refine ⟨hfunctions, fun l hl => hdata l ?_⟩
    have hhead : m.HasData l ∨ d.label = l → (m.loadData d).HasData l := by
      intro h
      rw [HasData, labels_loadData]
      split
      · rfl
      · exact h.resolve_right ‹_›
    rcases hl with hl | ⟨d', hd', hl⟩
    · exact .inl (hhead (.inl hl))
    · rcases List.mem_cons.mp hd' with rfl | hd'
      · exact .inl (hhead (.inr hl))
      · exact .inr ⟨d', hd', hl⟩

theorem functions_addFunction (m : Machine) (frame : Frame) (stmts : List IR.Stmt) (l : Label) :
    (m.addFunction frame stmts).functions[l]?
      = if frame.label = l then some ⟨frame, .ofStmts stmts⟩ else m.functions[l]? := by
  show (m.functions.insert frame.label _)[l]? = _
  rw [Std.HashMap.getElem?_insert]
  simp

/-- Loads functions with the given frames and statements. -/
def addFunctions {α : Type} (frame : α → Frame) (stmts : α → List IR.Stmt) (xs : List α) (m : Machine) :
    Machine := xs.foldl (fun m a => m.addFunction (frame a) (stmts a)) m

/-- Loading functions does not touch the state. -/
theorem state_addFunctions {α : Type} (frame : α → Frame) (stmts : α → List IR.Stmt) (xs : List α)
    (m : Machine) : (addFunctions frame stmts xs m).state = m.state := by
  induction xs generalizing m with
  | nil => rfl
  | cons a xs ih => exact ih (m.addFunction (frame a) (stmts a))

/-- Loading data does not touch the reader. -/
theorem input_foldl_loadData (data : List StaticData) (m : Machine) :
    (data.foldl loadData m).state.input = m.state.input := by
  induction data generalizing m with
  | nil => rfl
  | cons d data ih => exact ih (m.loadData d)

/-- A machine with data and functions loaded reads what it has been given to read. -/
theorem readerFault?_of_loaded {α : Type} {frame : α → Frame} {stmts : α → List IR.Stmt} {xs : List α}
    {data : List StaticData} {input : Option ByteReader} {m : Machine}
    (hm : m = addFunctions frame stmts xs (data.foldl loadData { state := { input } })) :
    m.state.readerFault? = input.bind ByteReader.fault := by
  rw [hm, state_addFunctions, State.readerFault?, input_foldl_loadData]

/-- Loading functions gives every one of them its label, and no others. What is found under a label
is one of those with this label. -/
theorem functions_addFunctions {α : Type} (frame : α → Frame) (stmts : α → List IR.Stmt) (xs : List α)
    (m : Machine) : (addFunctions frame stmts xs m).labels = m.labels ∧
      (∀ l, (m.functions[l]?).isSome ∨ (∃ a ∈ xs, (frame a).label = l) →
        ((addFunctions frame stmts xs m).functions[l]?).isSome) ∧
      ∀ (l : Label) f, (addFunctions frame stmts xs m).functions[l]? = some f →
        m.functions[l]? = some f ∨ ∃ a ∈ xs, (frame a).label = l ∧ f = ⟨frame a, .ofStmts (stmts a)⟩ := by
  induction xs generalizing m with
  | nil => simp [addFunctions]
  | cons a xs ih =>
    obtain ⟨hlabels, hsome, honly⟩ := ih (m.addFunction (frame a) (stmts a))
    refine ⟨hlabels, fun l hl => hsome l ?_, fun l f hf => ?_⟩
    -- A later function with the same label takes the place of an earlier one, but the label stays known.
    · have hhead : (m.functions[l]?).isSome ∨ (frame a).label = l →
          ((m.addFunction (frame a) (stmts a)).functions[l]?).isSome := by
        rw [functions_addFunction]
        intro h
        split
        · rfl
        · exact h.resolve_right ‹_›
      rcases hl with hl | ⟨a', ha', hl⟩
      · exact .inl (hhead (.inl hl))
      · rcases List.mem_cons.mp ha' with rfl | ha'
        · exact .inl (hhead (.inr hl))
        · exact .inr ⟨a', ha', hl⟩
    · rcases honly l f hf with hf | ⟨a', ha', hlabel, hf⟩
      · rw [functions_addFunction] at hf
        split at hf
        · next hlabel => exact .inr ⟨a, List.mem_cons_self, hlabel, (Option.some.inj hf).symm⟩
        · exact .inl hf
      · exact .inr ⟨a', List.mem_cons_of_mem _ ha', hlabel, hf⟩

/-- A machine on which data have been loaded first and functions then. -/
theorem loaded_addFunctions {α : Type} (frame : α → Frame) (stmts : α → List IR.Stmt) (xs : List α)
    (data : List StaticData) (s : State) {m : Machine}
    (hm : m = addFunctions frame stmts xs (data.foldl loadData { state := s })) :
    (∀ d ∈ data, m.HasData d.label) ∧ (∀ a ∈ xs, (m.functions[(frame a).label]?).isSome) ∧
      ∀ (l : Label) f, m.functions[l]? = some f →
        ∃ a ∈ xs, (frame a).label = l ∧ f = ⟨frame a, .ofStmts (stmts a)⟩ := by
  obtain ⟨hfunctions, hdata⟩ := foldl_loadData data { state := s }
  obtain ⟨hlabels, hsome, honly⟩ :=
    functions_addFunctions frame stmts xs (data.foldl loadData { state := s })
  rw [← hm] at hlabels hsome honly
  refine ⟨fun d hd => ?_, fun a ha => hsome _ (.inr ⟨a, ha, rfl⟩), fun l f hf => ?_⟩
  · rw [HasData, hlabels]
    exact hdata _ (.inr ⟨d, hd, rfl⟩)
  · refine (honly l f hf).resolve_left fun hnone => ?_
    rw [hfunctions] at hnone
    simp at hnone

end Machine

/-! ## §2 Programs that can be run -/

/-- The program can be run: it has a main function, and functions without a body are runtime routines. -/
structure Source.Program.Executable (p : Program) : Prop where
  main : ∃ m params type body, .fn m "main" params type body ∈ p.decls ∧ body ≠ .absent
  routines : ∀ m name params type, .fn m name params type .absent ∈ p.functions →
    .fn m name params type .absent ∈ p.decls ∧ name ∈ Resolve.runtimeNames

theorem isSome_ofLabel? {name : String} (h : name ∈ Resolve.runtimeNames) :
    (Machine.Routine.ofLabel? (.global name)).isSome := by
  simp only [Resolve.runtimeNames, List.mem_cons, List.not_mem_nil, or_false] at h
  rcases h with rfl | rfl | rfl | rfl | rfl <;> decide

namespace Stages

variable {p : Program} {t : Attributes} {laid coded : Workspace}

/-- The label of a global function is its name. -/
theorem label_eq_global (h : Stages p t laid coded) {m : Mark} {name : String} {params : List Param}
    {type : TypeExpr} {body : Expr} (hmem : .fn m name params type body ∈ p.decls) {f : Frame}
    (hframe : laid.attrs.frames[m.id]? = some f) : f.label = .global name := by
  obtain ⟨⟨label, fp, rv, hlabel, hframe'⟩, -⟩ := h.arranged.global rfl hmem
  cases hframe.symm.trans hframe'
  exact hlabel rfl

/-- Data at a label belong to a global variable. -/
theorem mem_decls_of_static (h : Stages p t laid coded) {d : Decl}
    (hmem : .decl d ∈ Decl.walkAll everywhere p.decls) (hvar : d.IsVariable) {data : StaticData}
    (haccess : laid.attrs.accesses[d.id]? = some (.static data)) :
    ∃ m name type, d = .var m name type ∧ d ∈ p.decls := by
  rcases Decl.arrangedIn_of_arrangedAll h.arranged rfl _ hmem with hin | ⟨d', hd', heq, harranged⟩
  · -- Inside of a function there are offsets only.
    cases d with
    | var m name type =>
      obtain ⟨n, hn, harranged⟩ := hin
      rw [Decl.Arranged, Layout.Needs.access, hn] at harranged
      cases harranged.symm.trans haccess
    | par m name type =>
      obtain ⟨offset, size, depth, hoffset⟩ := hin
      cases hoffset.symm.trans haccess
    | _ => exact hvar.elim
  · cases heq
    cases d with
    | var m name type => exact ⟨m, name, type, rfl, hd'⟩
    | par m name type => exact harranged.elim
    | _ => exact hvar.elim

variable {m : Machine}

/-- What a machine must have loaded to run the code of a program: its data and its functions. -/
structure Loaded (p : Program) (coded : Workspace) (l : IR.LinearProgram) (m : Machine) : Prop where
  data : ∀ d ∈ l.data, m.HasData d.label
  functions : ∀ mark name params type body f, .fn mark name params type body ∈ p.functions →
    body ≠ .absent → coded.attrs.frames[mark.id]? = some f → (m.functions[f.label]?).isSome

/-- The labels of the program are those that the machine has loaded. -/
theorem linkage (h : Stages p t laid coded) (hrun : p.Executable) {l : IR.LinearProgram}
    (hlinear : Linear.Describes coded.attrs p l) (hm : Loaded p coded l m) :
    Linkage laid.attrs (Decl.walkAll everywhere p.decls) m.HasData m.HasCallee where
  functions mark name params type body f hmem hframe := by
    by_cases hbody : body = .absent
    · -- A function without a body is a global runtime routine.
      subst hbody
      obtain ⟨hglobal, hname⟩ := hrun.routines mark name params type (Linear.mem_functions hmem)
      rw [h.label_eq_global hglobal hframe]
      exact .inl (isSome_ofLabel? hname)
    -- A function with a body is loaded under its label.
    · refine .inr (hm.functions mark name params type body f (Linear.mem_functions hmem) hbody ?_)
      rw [h.generates.frames]
      exact hframe
  globals d data hmem hvar haccess := by
    obtain ⟨mark, name, type, rfl, hd⟩ := h.mem_decls_of_static hmem hvar haccess
    obtain ⟨globals, hglobals, hdata⟩ := hlinear.data
    refine hm.data data ?_
    rw [hdata]
    rw [← h.generates.accesses] at haccess
    exact List.mem_append_left _ (Linear.mem_globals hglobals hd haccess)
  strings mark kind value data hmem hdata := by
    obtain ⟨globals, -, hall⟩ := hlinear.data
    refine hm.data data ?_
    rw [hall]
    rw [← h.generates.strings] at hdata
    exact List.mem_append_right _ (Linear.mem_strings hmem hdata)
  new := .inl (by decide)
  del := .inl (by decide)

/-- The code of a function can be run. -/
theorem runnable_code (h : Stages p t laid coded) (hrun : p.Executable) {l : IR.LinearProgram}
    (hlinear : Linear.Describes coded.attrs p l) (hm : Loaded p coded l m) {d : Decl}
    (hd : d ∈ p.functions.filter Linear.hasBody) : ∃ mark name params type body f c,
      d = .fn mark name params type body ∧ coded.attrs.frames[mark.id]? = some f ∧
        coded.attrs.codeOf? body = some c ∧ c.Shaped ∧ c.Runnable m.HasData m.HasCallee := by
  obtain ⟨hfunction, hbody⟩ := List.mem_filter.mp hd
  obtain ⟨⟨mark, name, params, type, body, rfl⟩, hmem⟩ := Linear.mem_walk_of_mem_functions hfunction
  have hbody : body ≠ .absent := by
    rintro rfl
    cases hbody
  obtain ⟨f, lo, hi, c, hframe, -, hcode, hc, hsound⟩ := h.function_code hmem hbody
  have hlinked := Expr.linked_of_code (h.linkage hrun hlinear hm) h.bound body (h.bound _ hmem).2 hc
  exact ⟨mark, name, params, type, body, f, c, rfl, hframe, hcode, hsound.shaped,
    IR.Expr.runnable_of_linked hsound.shaped hsound.usable hlinked⟩

/-- The main function can be called. -/
theorem hasCallee_main (h : Stages p t laid coded) (hrun : p.Executable) {l : IR.LinearProgram}
    (hm : Loaded p coded l m) : m.HasCallee (.global "main") := by
  obtain ⟨mark, params, type, body, hmem, hbody⟩ := hrun.main
  have hnode : .decl _ ∈ Decl.walkAll everywhere p.decls := Decl.mem_walkAll hmem
  obtain ⟨f, lo, hi, c, hframe, hlaid, -⟩ := h.function_code hnode hbody
  have hcallee := hm.functions mark "main" params type body f (Linear.mem_functions hnode) hbody hframe
  rw [h.label_eq_global hmem hlaid] at hcallee
  exact .inr hcallee

/-! ## §3 Trees -/

/-- The frame of a function. -/
def treeFrame (t : Attributes) : Decl → Frame
  | .fn m _ _ _ _ => t.frames[m.id]?.getD default
  | _ => default

/-- The statements of a function whose code is loaded as a tree. -/
def treeStmts (t : Attributes) : Decl → List IR.Stmt
  | .fn m _ _ _ body =>
    [.move (.temp (t.frames[m.id]?.getD default).rv) ((t.codeOf? body).getD .absent)]
  | _ => []

variable {c : Compiled} (input : Option ByteReader)

theorem machine_eq (c : Compiled) (input : Option ByteReader) :
    c.machine input = Machine.addFunctions IR.CodeChunk.frame IR.CodeChunk.stmts c.linear.code
      (c.linear.data.foldl Machine.loadData { state := { input } }) := rfl

theorem treeMachine_eq (c : Compiled) (t : Attributes) (p : Program) (input : Option ByteReader) :
    c.treeMachine t p input = Machine.addFunctions (treeFrame t) (treeStmts t)
      (p.functions.filter Linear.hasBody)
      (c.linear.data.foldl Machine.loadData { state := { input } }) := by
  refine List.foldl_ext _ _ _ fun m d hd => ?_
  obtain ⟨⟨mark, name, params, type, body, rfl⟩, -⟩ :=
    Linear.mem_walk_of_mem_functions (List.mem_filter.mp hd).1
  rfl

/-- **A machine with the trees of the program loaded is sound.** -/
theorem treeMachine_sound (h : Stages p t laid coded) (hrun : p.Executable)
    (hlinear : Linear.Describes coded.attrs p c.linear) :
    (c.treeMachine coded.attrs p input).Sound ∧
      (c.treeMachine coded.attrs p input).HasCallee (.global "main") := by
  obtain ⟨hdata, hfunctions, honly⟩ :=
    Machine.loaded_addFunctions _ _ _ _ _ (treeMachine_eq c coded.attrs p input)
  have hm : Loaded p coded c.linear (c.treeMachine coded.attrs p input) := by
    refine ⟨hdata, fun mark name params type body f hmem hbody hframe => ?_⟩
    have hlabel := hfunctions _ (List.mem_filter.mpr ⟨hmem, Linear.hasBody_of_ne_absent hbody⟩)
    rw [treeFrame, hframe] at hlabel
    exact hlabel
  refine ⟨fun l f hf => ?_, h.hasCallee_main hrun hm⟩
  obtain ⟨d, hd, -, rfl⟩ := honly l f hf
  obtain ⟨mark, name, params, type, body, frame, code, rfl, hframe, hcode, -, hrunnable⟩ :=
    h.runnable_code hrun hlinear hm hd
  refine Machine.Block.runnable_ofStmts (IR.Stmt.RunnableAll.flattenAll ?_)
  rw [treeStmts, hframe, hcode]
  exact ⟨hrunnable, trivial⟩

/-! ## §4 Linear form -/

/-- The chunk of a function is its canonical code between two labels. -/
theorem chunk_eq {d : Decl} {mark : Mark} {name : String} {params : List Param} {type : TypeExpr}
    {body : Expr} {f : Frame} {e : IR.Expr} {chunk : IR.CodeChunk}
    (hd : d = .fn mark name params type body) (hof : Linear.ChunkOf coded.attrs d chunk)
    (hframe : coded.attrs.frames[mark.id]? = some f) (hcode : coded.attrs.codeOf? body = some e)
    (hshaped : e.Shaped) :
    ∃ first last n, chunk = ⟨f, first, last,
      .label first :: (((IR.Stmt.move (.temp f.rv) e).lower n).stmts ++ [.jump last])⟩ := by
  obtain ⟨m', name', params', type', body', f', e', rfl, hframe', hcode', σ, σ', hrun⟩ := hof
  cases hd
  cases hframe.symm.trans hframe'
  cases hcode.symm.trans hcode'
  rw [IR.CodeChunk.run_ofBody_eq f hshaped σ.temps σ.labels] at hrun
  cases hrun
  exact ⟨_, _, σ.temps, rfl⟩

/-- **A machine with the linear form of the program loaded is sound.** -/
theorem machine_sound (h : Stages p t laid coded) (hrun : p.Executable)
    (hlinear : Linear.Describes coded.attrs p c.linear) :
    (c.machine input).Sound ∧ (c.machine input).HasCallee (.global "main") := by
  obtain ⟨hdata, hfunctions, honly⟩ := Machine.loaded_addFunctions _ _ _ _ _ (machine_eq c input)
  have hm : Loaded p coded c.linear (c.machine input) := by
    refine ⟨hdata, fun mark name params type body f hmem hbody hframe => ?_⟩
    have hd : .fn mark name params type body ∈ p.functions.filter Linear.hasBody :=
      List.mem_filter.mpr ⟨hmem, Linear.hasBody_of_ne_absent hbody⟩
    obtain ⟨chunk, hchunk, hof⟩ := hlinear.exists_chunk hd
    obtain ⟨_, -, -, e, -, -, hcode, -, hsound⟩ :=
      h.function_code (Linear.mem_walk_of_mem_functions hmem).2 hbody
    -- The chunk is the canonical code between its two labels.
    obtain ⟨first, last, n, rfl⟩ := chunk_eq rfl hof hframe hcode hsound.shaped
    exact hfunctions _ hchunk
  refine ⟨fun l f hf => ?_, h.hasCallee_main hrun hm⟩
  obtain ⟨chunk, hchunk, -, rfl⟩ := honly l f hf
  obtain ⟨d, hd, hof⟩ := hlinear.exists_function hchunk
  obtain ⟨mark, name, params, type, body, frame, code, rfl, hframe, hcode, hshaped, hrunnable⟩ :=
    h.runnable_code hrun hlinear hm hd
  obtain ⟨first, last, n, rfl⟩ := chunk_eq rfl hof hframe hcode hshaped
  refine Machine.Block.runnable_ofStmts (IR.Stmt.RunnableAll.flattenAll (IR.Stmt.runnableAll_iff.mpr ?_))
  have hmove : (IR.Stmt.move (.temp frame.rv) code).Runnable (c.machine input).HasData
    (c.machine input).HasCallee := hrunnable
  refine IR.Stmt.runnable_cons trivial (IR.Stmt.runnable_append ?_ ?_)
  · exact IR.Stmt.runnable_lower hmove n
  · exact IR.Stmt.runnable_cons trivial IR.Stmt.runnable_nil

end Stages

/-! ## §5 Accepted programs -/

/-- **Accepted programs do not go wrong.** If a program has been read without diagnostics and
resolved without errors, has a main function and leaves only runtime routines without a body, then
it is translated, and whatever the input and the step limit, a run of its code trees or of its
linear form can end only with the value of the main function, with an exit code, with a division by
zero, at the step limit or with the error that the reader of the input has behind its bytes. -/
theorem accepted_programs_do_not_go_wrong {n : Yaml.Node} {p : Program} {t : Attributes}
    (hread : Program.ofNode n = .ok p) (hresolve : p.number.resolve = .ok t)
    (hrun : p.number.Executable) (σ : Supply) :
    ∃ laid coded l, Translated p.number { attrs := t, supply := σ } laid coded l ∧
      ∀ (c : Compiled), c.linear = l → ∀ (input : Option ByteReader) (limit : Int) (m : Machine),
        (m = { c.machine input with limit } ∨
          m = { c.treeMachine coded.attrs p.number input with limit }) →
        ∀ (ending : Machine.Ending) (s : Machine.State),
          Machine.CallEnds m "_main" [0] [0] ending s →
            (∃ v, ending = .value v) ∨ (∃ code, ending = .exit code) ∨
              ending = .error .divisionByZero ∨ ending = .error (.stepLimit limit) ∨
                ∃ fault, input.bind ByteReader.fault = some fault ∧ ending = .error (.reader fault) := by
  obtain ⟨laid, coded, l, htranslated, h, hlinear⟩ := translated_of_accepted hread hresolve σ
  refine ⟨laid, coded, l, htranslated, ?_⟩
  rintro c rfl input limit m (rfl | rfl) ending s hends
  -- The main function is called with the static link alone.
  all_goals have hargs : [(0 : Word)].length ≤ [(0 : Word)].length := Nat.le_refl _
  · obtain ⟨hsound, hmain⟩ := h.machine_sound input hrun hlinear
    rw [← Machine.readerFault?_of_loaded (Stages.machine_eq c input)]
    exact Machine.Sound.callEnds_regular (m := { c.machine input with limit }) hsound hmain hargs
      hends
  · obtain ⟨hsound, hmain⟩ := h.treeMachine_sound input hrun hlinear
    rw [← Machine.readerFault?_of_loaded (Stages.treeMachine_eq c coded.attrs p.number input)]
    exact Machine.Sound.callEnds_regular
      (m := { c.treeMachine coded.attrs p.number input with limit }) hsound hmain hargs hends

/-- A document whose function `main` reads through a pointer that has never been set. -/
def strayPointer : Yaml.Node :=
  sequenceNode [
    mappingNode [("fun", scalarNode .str "exit"), ("type", scalarNode .str "void"),
      ("pars", sequenceNode [mappingNode [("code", scalarNode .str "int")]])],
    mappingNode [("fun", scalarNode .str "main"), ("type", scalarNode .str "int"),
      ("body", mappingNode [("where", mappingNode [
        ("decls", sequenceNode
          [mappingNode [("var", scalarNode .str "q"), ("type", scalarNode .str "^int")]]),
        ("expr", mappingNode [("deref", scalarNode .str "q")])])])]]

/-- The program of this document. -/
def strayPointerProgram : Program where
  mark := ⟨0, 1, 1⟩
  decls := [
    .fn ⟨0, 1, 1⟩ "exit" [⟨⟨0, 1, 1⟩, "code", ⟨⟨0, 1, 1⟩, "int"⟩⟩] ⟨⟨0, 1, 1⟩, "void"⟩ .absent,
    .fn ⟨0, 1, 1⟩ "main" [] ⟨⟨0, 1, 1⟩, "int"⟩
      (.scope ⟨0, 1, 1⟩ [.var ⟨0, 1, 1⟩ "q" ⟨⟨0, 1, 1⟩, "^int"⟩]
        (.deref ⟨0, 1, 1⟩ (.name ⟨0, 1, 1⟩ "q")))]

theorem ofNode_strayPointer : Program.ofNode strayPointer = .ok strayPointerProgram := rfl

theorem executable_strayPointer : strayPointerProgram.number.Executable where
  main := ⟨_, _, _, _, List.mem_cons_of_mem _ List.mem_cons_self, by simp⟩
  routines m name params type hmem := by
    have hfunctions : strayPointerProgram.number.functions = strayPointerProgram.number.decls := rfl
    rw [hfunctions] at hmem
    refine ⟨hmem, ?_⟩
    rcases List.mem_cons.mp hmem with heq | hmem
    · cases heq
      decide
    · cases List.mem_singleton.mp hmem

theorem accepted_programs_do_not_go_wrong_strayPointer : ∃ t laid coded l,
    strayPointerProgram.number.resolve = .ok t ∧
      Translated strayPointerProgram.number { attrs := t } laid coded l ∧
      ∀ (c : Compiled), c.linear = l → ∀ (ending : Machine.Ending) (s : Machine.State),
        Machine.CallEnds { c.machine none with limit := 0 } "_main" [0] [0] ending s →
            (∃ v, ending = .value v) ∨ (∃ code, ending = .exit code) ∨
              ending = .error .divisionByZero ∨ ending = .error (.stepLimit 0) ∨
                ∃ fault, none = some fault ∧ ending = .error (.reader fault) := by
  have haccepted : strayPointerProgram.number.resolve.isOk = true := by decide +kernel
  rcases hresolve : strayPointerProgram.number.resolve with diagnostics | t
  · rw [hresolve] at haccepted
    cases haccepted
  obtain ⟨laid, coded, l, htranslated, hends⟩ :=
    accepted_programs_do_not_go_wrong ofNode_strayPointer hresolve executable_strayPointer {}
  exact ⟨t, laid, coded, l, rfl, htranslated, fun c hc ending s h =>
    hends c hc none 0 _ (.inl rfl) ending s h⟩

end MmixBackend
