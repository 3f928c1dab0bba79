import MmixBackend.Proofs.Source.Simulation
import MmixBackend.Proofs.Source.StringData
import MmixBackend.Proofs.UniqueLabels

/-!
# Flat scalar programs run like they are evaluated

A program that has been accepted is laid out and given code trees, and these are loaded into the
machine: first the data, one word for each global variable, then the functions under the labels of
their frames. The names of global entities are distinct, so every label leads to what it was made
for. If the program is flat and scalar, the run of its main function comes to what its evaluation
comes to.

## Main statements

- `Stages.flatMachine`: what is loaded.
- `flat_programs_run_as_evaluated`: how the runs of flat scalar programs end.
-/

namespace MmixBackend

open Source

/-! ## §1 Loading words -/

namespace Machine

/-- Words without initial contents are given consecutive addresses. -/
theorem foldl_loadData_words : ∀ {data : List StaticData} {m : Machine},
    (∀ d ∈ data, d.size = 8 ∧ d.init = none) → (data.map StaticData.label).Nodup →
      (∃ heap, (data.foldl loadData m).state = { m.state with heap }) ∧
      (∀ l, l ∉ data.map StaticData.label → (data.foldl loadData m).labels[l]? = m.labels[l]?) ∧
      ∀ (i : Nat) (d : StaticData), data[i]? = some d →
        (data.foldl loadData m).labels[d.label]? = some (m.state.heap + .ofNat (8 * i))
  | [], _, _, _ => ⟨⟨_, rfl⟩, fun _ _ => rfl, fun _ _ hi => by cases hi⟩
  | d :: data, m, hwords, hdistinct => by
    obtain ⟨⟨hsize, hinit⟩, hwords⟩ := List.forall_mem_cons.mp hwords
    obtain ⟨hfresh, hdistinct⟩ := List.nodup_cons.mp hdistinct
    -- A word without contents moves the heap by its size and changes nothing else of the state.
    have hstate : (m.loadData d).state = { m.state with heap := m.state.heap + .ofNat 8 } := by
      unfold loadData
      rw [hinit, hsize]
      rfl
    obtain ⟨⟨heap, hrest⟩, hother, hfound⟩ := foldl_loadData_words (m := m.loadData d) hwords hdistinct
    refine ⟨⟨heap, ?_⟩, fun l hl => ?_, fun i d' hi => ?_⟩
    · rw [List.foldl_cons, hrest, hstate]
    · obtain ⟨hne, hl⟩ := not_or.mp (mt List.mem_cons.mpr hl)
      rw [List.foldl_cons, hother l hl, labels_loadData, if_neg (Ne.symm hne)]
    · cases i with
      | zero =>
        cases hi
        rw [List.foldl_cons, hother _ hfresh, labels_loadData, if_pos rfl]
        simp
      | succ i =>
        rw [List.foldl_cons, hfound i d' hi, hstate, Nat.mul_succ, Nat.add_comm (8 * i), Int64.ofNat_add,
          ← Int64.add_assoc]

end Machine

/-! ## §2 Loaded programs -/

theorem ofLabel?_eq_none {name : String} (h : name ∉ Resolve.runtimeNames) :
    Machine.Routine.ofLabel? (.global name) = none := by
  have hne : ∀ (routine : String) (l : Label), routine ∈ Resolve.runtimeNames → .global routine = l →
      Label.global name ≠ l := by
    rintro routine _ hroutine rfl heq
    exact h (Label.global_injective heq ▸ hroutine)
  rw [Machine.Routine.ofLabel?, if_neg (hne "new" "_new" (by decide) rfl),
    if_neg (hne "del" "_del" (by decide) rfl), if_neg (hne "putChar" "_putChar" (by decide) rfl),
    if_neg (hne "getChar" "_getChar" (by decide) rfl), if_neg (hne "exit" "_exit" (by decide) rfl)]

namespace Source

/-- The data of a program are words, one for each global variable, and they are kept apart. -/
structure FlatData (p : Program) (t' : Attributes) (data : List StaticData) : Prop where
  words : ∀ d ∈ data, d.size = 8 ∧ d.init = none
  labels : (data.map StaticData.label).Nodup
  globals : p.globals.Nodup
  accesses : ∀ {i : Nat} {id : NodeId}, p.globals[i]? = some id →
    ∃ d, data[i]? = some d ∧ t'.accesses[id]? = some (.static d)

namespace FlatData

variable {p : Program} {t : Attributes} {c : Compiled}

/-- The labels of a flat scalar program lead to the words of its variables. -/
theorem label_of_global (h : FlatData p t c.linear.data) (t' : Attributes) (input : Option ByteReader)
    {i : Nat} {id : NodeId} (hi : p.globals[i]? = some id) :
    ∃ data : StaticData, t.accesses[id]? = some (.static data) ∧
      (c.treeMachine t' p input).labels[data.label]? = some (.ofInt (dataStart.toInt + 8 * i)) := by
  obtain ⟨d, hd, haccess⟩ := h.accesses hi
  refine ⟨d, haccess, ?_⟩
  rw [Stages.treeMachine_eq, (Machine.functions_addFunctions _ _ _ _).1,
    (Machine.foldl_loadData_words h.words h.labels).2.2 i d hd]
  show some (dataStart + .ofNat (8 * i)) = _
  rw [← Int64.ofInt_toInt dataStart, Word.ofInt_add_ofNat, Int64.ofInt_toInt]
  rfl

/-- A flat scalar program starts with memory that has not been written. -/
theorem state_treeMachine (h : FlatData p t c.linear.data) (t' : Attributes) (input : Option ByteReader) :
    ∃ heap, (c.treeMachine t' p input).state = { input, heap } := by
  rw [Stages.treeMachine_eq, Machine.state_addFunctions]
  exact (Machine.foldl_loadData_words h.words h.labels).1

end FlatData

/-- A global variable is declared. -/
theorem Program.exists_of_mem_globals {p : Program} {id : NodeId} (h : id ∈ p.globals) :
    ∃ m name type, .var m name type ∈ p.decls ∧ m.id = id := by
  obtain ⟨n, hn, hid⟩ := List.mem_filterMap.mp h
  obtain ⟨d, hd, rfl⟩ := List.mem_map.mp hn
  cases d with
  | var m name type => exact ⟨m, name, type, hd, Option.some.inj hid⟩
  | _ => cases hid

end Source

namespace Stages

variable {p : Program} {t : Attributes} {laid coded : Workspace}

/-- A global variable has its own label and no initial contents. -/
theorem access_of_mem_globals (h : Stages p t laid coded) {id : NodeId} (hid : id ∈ p.globals) : ∃ name,
    laid.attrs.accesses[id]? = some
      (.static { label := .global name, size := t.declBytes id, init := none }) := by
  obtain ⟨m, name, type, hvar, rfl⟩ := Program.exists_of_mem_globals hid
  have haccess := h.arranged.global rfl hvar
  rw [Decl.Arranged, Layout.Needs.access, if_pos rfl] at haccess
  exact ⟨name, haccess⟩

theorem access_of_global (h : Stages p t laid coded) {d : Decl} (hd : d ∈ p.decls) (hvar : d.IsVariable) :
    ∃ data, laid.attrs.accesses[d.id]? = some (.static data) := by
  cases d with
  | var m name type =>
    have hid : m.id ∈ p.globals := List.mem_filterMap.mpr ⟨_, List.mem_map_of_mem hd, rfl⟩
    obtain ⟨label, haccess⟩ := h.access_of_mem_globals hid
    exact ⟨_, haccess⟩
  | par => exact (h.complete.of_mem hd).elim
  | _ => exact hvar.elim

/-- **The data of a flat scalar program.** -/
theorem flat_data (h : Stages p t laid coded) (hflat : p.FlatScalar t) (hnamed : p.WellNamed)
    {data : List StaticData} (hdata : Linear.globals coded.attrs p.decls = .ok data) :
    FlatData p laid.attrs data := by
  have haccess := Linear.globals_access hdata
  rw [h.generates.accesses] at haccess
  have hlabels : (data.map StaticData.label).Nodup := by
    rw [h.map_label_globals (fun _ hd => hd) hdata]
    refine (List.nodup_append.mp hnamed.nodup).2.1.sublist (.flatMap_right _ fun d _ => ?_)
    exact List.sublist_append_left _ _
  refine ⟨fun d hd => ?_, hlabels, ?_, fun {i id} hi => ?_⟩
  · obtain ⟨i, hi, rfl⟩ := List.mem_iff_getElem.mp hd
    have hi' : i < p.globals.length := haccess.length_eq ▸ hi
    obtain ⟨name, hword⟩ := h.access_of_mem_globals (List.getElem_mem hi')
    obtain ⟨m, _, _, hvar, hid⟩ := Program.exists_of_mem_globals (List.getElem_mem hi')
    rw [← hid, (hflat.nodes _ (Decl.mem_walkAll hvar)).bytes.2, hid] at hword
    have heq := Access.static.inj (Option.some.inj (hword.symm.trans (haccess.get hi' hi)))
    rw [List.get_eq_getElem] at heq
    rw [← heq]
    exact ⟨rfl, rfl⟩
  · -- A variable has one access, and the labels of two are different.
    have hmap : p.globals.map (fun id => laid.attrs.accesses[id]?) = data.map fun d =>
        some (.static d) := by
      rw [← List.forall₂_eq_eq_eq, List.forall₂_map_left_iff, List.forall₂_map_right_iff]
      exact haccess
    refine List.Nodup.of_map (fun id => laid.attrs.accesses[id]?) ?_
    rw [hmap]
    exact (List.Nodup.of_map _ hlabels).map fun d d' heq => Access.static.inj (Option.some.inj heq)
  · obtain ⟨hlt, rfl⟩ := List.getElem?_eq_some_iff.mp hi
    have hlt' : i < data.length := haccess.length_eq ▸ hlt
    exact ⟨data[i], List.getElem?_eq_getElem hlt', haccess.get hlt hlt'⟩

variable {c : Compiled}

/-- A flat scalar program has only the data of its global variables. -/
theorem flat_linear (h : Stages p t laid coded) (hflat : p.FlatScalar t) (hnamed : p.WellNamed)
    (hstrings : coded.HoldsStrings (Decl.walkAll everywhere p.decls)) {l : IR.LinearProgram}
    (hlinear : Linear.Describes coded.attrs p l) :
    FlatData p laid.attrs l.data := by
  obtain ⟨data, hdata, hall⟩ := hlinear.data
  have hnone : Linear.strings coded.attrs p = [] := by
    have hatoms : (Decl.walkAll everywhere p.decls).filterMap Node.string? = [] := by
      refine List.filterMap_eq_nil_iff.mpr fun n hn => ?_
      unfold Node.string?
      split
      · exact absurd rfl (hflat.nodes _ hn)
      · rfl
    rw [Workspace.HoldsStrings, hatoms] at hstrings
    rw [Linear.strings_eq, List.forall₂_nil_left_iff.mp hstrings]
  rw [hall, hnone, List.append_nil]
  exact h.flat_data hflat hnamed hdata

/-- A function is found under its own label. -/
theorem function_of_label (h : Stages p t laid coded) (hflat : p.FlatScalar t) (hnamed : p.WellNamed)
    (input : Option ByteReader) {fm : Mark} {name : String} {params : List Param} {type : TypeExpr}
    {body : Expr} (hfn : .fn fm name params type body ∈ p.decls) (hbody : body ≠ .absent) {f : Frame}
    (hframe : laid.attrs.frames[fm.id]? = some f) :
    Machine.Routine.ofLabel? f.label = none ∧ ∃ lo hi code, body.Code laid.attrs f lo hi code ∧
      (c.treeMachine coded.attrs p input).functions[f.label]?
        = some ⟨f, .ofStmts [.move (.temp f.rv) code]⟩ := by
  have hlabel := h.label_eq_global hfn hframe
  constructor
  · rw [hlabel]
    refine ofLabel?_eq_none fun hname => hbody ?_
    exact hnamed.permitted _ hfn hname
  · have hnode : .decl _ ∈ Decl.walkAll everywhere p.decls := Decl.mem_walkAll hfn
    obtain ⟨f', lo, hi, code, hcoded, hlaid, hcode, hc, -⟩ := h.function_code hnode hbody
    cases hframe.symm.trans hlaid
    refine ⟨lo, hi, code, hc, ?_⟩
    obtain ⟨-, hloaded, honly⟩ :=
      Machine.loaded_addFunctions _ _ _ _ _ (treeMachine_eq c coded.attrs p input)
    have hsome := hloaded _
      (List.mem_filter.mpr ⟨Linear.mem_functions hnode, Linear.hasBody_of_ne_absent hbody⟩)
    rw [treeFrame, hcoded, Option.getD_some] at hsome
    obtain ⟨loaded, hfound⟩ := Option.isSome_iff_exists.mp hsome
    obtain ⟨d, hd, hsame, rfl⟩ := honly _ _ hfound
    -- No other global function has this label.
    obtain ⟨⟨fm', name', params', type', body', rfl⟩, hnode'⟩ :=
      Linear.mem_walk_of_mem_functions (List.mem_filter.mp hd).1
    have hfn' := hflat.mem_decls hnode'
    obtain ⟨f', hf', hflatFrame⟩ := h.flat_frame hflat hfn'
    rw [← h.generates.frames] at hf'
    rw [treeFrame, hf', Option.getD_some, hflatFrame.label, hlabel] at hsame
    cases List.inj_on_of_nodup_map hnamed.distinct hfn' hfn (Label.global_injective hsame)
    rw [hfound, treeFrame, treeStmts, hcoded, hcode]
    rfl

/-- **What is loaded for a flat scalar program.** -/
theorem flatMachine (h : Stages p t laid coded) (hflat : p.FlatScalar t) (hnamed : p.WellNamed)
    (hdata : FlatData p laid.attrs c.linear.data) (input : Option ByteReader) {limit : Int}
    (hlimit : limit ≤ 0) :
    FlatMachine p t laid.attrs { c.treeMachine coded.attrs p input with limit } where
  unlimited := hlimit
  flat := hflat
  resolves := h.resolves
  complete := h.complete
  resolved := h.resolved
  distinct := hdata.globals
  globals := hdata.label_of_global coded.attrs input
  frames := h.flat_frame hflat
  bodies hfn hbody hframe := h.function_of_label hflat hnamed input hfn hbody hframe

end Stages

/-! ## §3 Runs of the main function -/

namespace Machine

variable {m : Machine} {l : Label} {offs args : List Word} {σ : Scene}

/-- A call that comes to a value ends with it. -/
theorem callEnds_of_value {v : Word} (h : invocation m l offs args ⟨∅, m.state⟩ (.value v σ)) :
    CallEnds m l offs args (.value v) σ.state := by
  unfold invocation at h
  unfold CallEnds
  dsimp only at h
  generalize call m l offs args .done ∅ m.state = first at h ⊢
  cases first with
  | next c => exact .of_steps (show Relation.ReflTransGen (Next m) _ _ from h) (.of_stop rfl)
  | stop ending s =>
    obtain ⟨_, -, h⟩ := h
    cases h

/-- A call that ends the run ends like it. -/
theorem callEnds_of_stop {why : Abort} {s : State}
    (h : invocation m l offs args ⟨∅, m.state⟩ (.stop why s)) :
    CallEnds m l offs args why.ending s := by
  unfold invocation at h
  unfold CallEnds
  dsimp only at h
  generalize call m l offs args .done ∅ m.state = first at h ⊢
  cases first with
  | next c => exact h
  | stop ending s' =>
    obtain ⟨_, rfl, h⟩ := h
    cases h
    exact ⟨rfl, rfl⟩

end Machine

namespace Source

/-- A run of the main function ends as the evaluation of the program does, and has written the same.
Nothing is said of evaluations that have read a variable without a value, have had no room on the
stack or have not come to an end. -/
structure EndsLike (m : Machine) (r : Except Stop Word × Store) : Prop where
  value : ∀ v st, r = (.ok v, st) →
    ∃ s, Machine.CallEnds m "_main" [0] [0] (.value v) s ∧ s.output = st.output
  exit : ∀ code st, r = (.error (.exit code), st) →
    ∃ s, Machine.CallEnds m "_main" [0] [0] (.exit code) s ∧ s.output = st.output
  divisionByZero : ∀ st, r = (.error .divisionByZero, st) →
    ∃ s, Machine.CallEnds m "_main" [0] [0] (.error .divisionByZero) s ∧ s.output = st.output
  reader : ∀ fault st, r = (.error (.reader fault), st) →
    ∃ s, Machine.CallEnds m "_main" [0] [0] (.error (.reader fault)) s ∧ s.output = st.output
  defined : ∀ st, r ≠ (.error .undefined, st)

/-- **The run of the main function.** -/
theorem FlatMachine.endsLike {p : Program} {t t' : Attributes} {m : Machine} (hm : FlatMachine p t t' m)
    (hmain : ∃ mark params type body, .fn mark "main" params type body ∈ p.decls)
    {input : Option ByteReader} (hstart : ∃ heap, m.state = { input, heap }) (fuel : Nat) :
    EndsLike m (p.evaluate t fuel input) := by
  obtain ⟨heap, hstart⟩ := hstart
  -- The call from outside is answered like every other call, with the initial state for its caller.
  have hanswers : ∃ top, CallAnswers p top (m.invocation "_main" [0] [0]) { input } ⟨∅, m.state⟩
      (p.evaluate t fuel input) := by
    unfold Program.evaluate
    dsimp only
    split
    · next params body hfind =>
      obtain ⟨d, hd, hmatch⟩ := List.exists_of_findSome?_eq_some hfind
      split at hmatch
      · next mark _ type _ =>
        cases hmatch
        obtain ⟨f, hframe, hflat⟩ := hm.frames hd
        have hbody : body ≠ .absent := by
          rintro rfl
          exact absurd (hm.flat.routines _ _ _ _ hd) (by simp [flatRoutines])
        have hoffs : Memory.Consecutive 0 [0] := by
          rintro i off hi
          obtain ⟨rfl, rfl⟩ : i = 0 ∧ off = 0 := by simpa [List.getElem?_singleton, eq_comm] using hi
          rfl
        rw [show "_main" = f.label from hflat.label.symm]
        refine ⟨_, hm.call_function hd hbody hframe (Int.le_refl _) hoffs rfl (Nat.zero_le _)
          (fun hB lo hi c hc => (hm.simulated fuel).body _ hB rfl lo hi c hc) ?_ ?_⟩
        · rw [hstart]
          exact ⟨fun _ => by simp [Memory.read], rfl, rfl, rfl⟩
        · rw [hstart]
          exact (Int64.ofInt_toInt stackTop).symm
      · cases hmatch
    · next hfind =>
      obtain ⟨mark, params, type, body, hd⟩ := hmain
      cases List.findSome?_eq_none_iff.mp hfind _ hd
  obtain ⟨top, hanswers⟩ := hanswers
  generalize p.evaluate t fuel input = r at hanswers
  refine ⟨?_, ?_, ?_, ?_, ?_⟩
  · rintro v st rfl
    obtain ⟨σ, hv, hcalled⟩ := hanswers
    exact ⟨σ.state, Machine.callEnds_of_value hv, hcalled.shares.output⟩
  · rintro code st rfl
    obtain ⟨s, hs, hout⟩ := callAnswers_error.mp hanswers
    exact ⟨s, Machine.callEnds_of_stop hs, hout⟩
  · rintro st rfl
    obtain ⟨s, hs, hout⟩ := callAnswers_error.mp hanswers
    exact ⟨s, Machine.callEnds_of_stop hs, hout⟩
  · rintro fault st rfl
    obtain ⟨s, hs, hout⟩ := callAnswers_error.mp hanswers
    exact ⟨s, Machine.callEnds_of_stop hs, hout⟩
  · rintro st rfl
    exact callAnswers_error.mp hanswers

end Source

/-! ## §4 Accepted programs -/

/-- **Flat scalar programs run as they are evaluated.** Let a program have been read without
diagnostics and resolved without errors, be flat and scalar, and have a main function. Then it is
translated, and without a step limit the run of its code trees ends as the evaluation of the program
does, whatever the input: with the same value, with the same exit code, with a division by zero or
with the error of the reader, and it has written the same. -/
theorem flat_programs_run_as_evaluated {n : Yaml.Node} {p : Program} {t : Attributes}
    (hread : Program.ofNode n = .ok p) (hresolve : p.number.resolve = .ok t)
    (hflat : p.number.FlatScalar t)
    (hmain : ∃ mark params type body, .fn mark "main" params type body ∈ p.number.decls)
    (σ : Supply) :
    ∃ laid coded l, Translated p.number { attrs := t, supply := σ } laid coded l ∧
      ∀ (c : Compiled), c.linear = l → ∀ (input : Option ByteReader) (limit : Int), limit ≤ 0 →
        ∀ fuel : Nat, EndsLike { c.treeMachine coded.attrs p.number input with limit }
          (p.number.evaluate t fuel input) := by
  obtain ⟨laid, coded, l, htranslated, h, hlinear⟩ := translated_of_accepted hread hresolve σ
  refine ⟨laid, coded, l, htranslated, ?_⟩
  rintro c rfl input limit hlimit fuel
  obtain ⟨hnamed, hstrings⟩ := Program.wellNamed_of_resolve
    (p.number_spec.2 (Program.complete_of_ofNode hread)) hresolve
  have hdata := h.flat_linear hflat hnamed (h.holdsStrings hstrings htranslated.layout) hlinear
  exact (h.flatMachine hflat hnamed hdata input hlimit).endsLike hmain
    (hdata.state_treeMachine coded.attrs input) fuel

/-- The document `op: args` of an operator. -/
def operatorNode (op : String) (args : List Yaml.Node) :
    Yaml.Node := mappingNode [(op, sequenceNode args)]

/-- A document with a recursive function that counts its calls in a global variable. Its function
`main` writes characters as long as there have been few calls, and then reads the variable in front
of one more call. -/
def countedFactorials : Yaml.Node :=
  let name := scalarNode .str
  let int := scalarNode .int
  sequenceNode [
    mappingNode [("var", name "calls"), ("type", name "int")],
    mappingNode [("fun", name "putChar"), ("type", name "void"),
      ("pars", sequenceNode [mappingNode [("c", name "char")]])],
    mappingNode [("fun", name "fact"), ("type", name "int"),
      ("pars", sequenceNode [mappingNode [("n", name "int")]]),
      ("body", mappingNode [("where", mappingNode [
        ("decls", sequenceNode [mappingNode [("var", name "r"), ("type", name "int")]]),
        ("expr", sequenceNode [
          operatorNode "assign" [name "calls", operatorNode "add" [name "calls", int "1"]],
          mappingNode [("if", mappingNode [
            ("cond", operatorNode "le" [name "n", int "1"]),
            ("then", operatorNode "assign" [name "r", int "1"]),
            ("else", operatorNode "assign" [name "r", operatorNode "mul" [name "n",
              operatorNode "call" [name "fact", operatorNode "sub" [name "n", int "1"]]]])])],
          name "r"])])])],
    mappingNode [("fun", name "main"), ("type", name "int"),
      ("body", sequenceNode [
        mappingNode [("while", mappingNode [
          ("cond", operatorNode "lt" [name "calls", int "5"]),
          ("do", operatorNode "call" [name "putChar", operatorNode "cast" [
            operatorNode "add" [operatorNode "call" [name "fact", int "3"], int "48"], name "char"]])])],
        operatorNode "mul" [name "calls", operatorNode "call" [name "fact", int "5"]]])]]

/-- The program of this document. -/
def countedFactorialsProgram : Program :=
  let m : Mark := ⟨0, 1, 1⟩
  { mark := m
    decls := [
      .var m "calls" ⟨m, "int"⟩,
      .fn m "putChar" [⟨m, "c", ⟨m, "char"⟩⟩] ⟨m, "void"⟩ .absent,
      .fn m "fact" [⟨m, "n", ⟨m, "int"⟩⟩] ⟨m, "int"⟩
        (.scope m [.var m "r" ⟨m, "int"⟩]
          (.block m [
            .assign m (.name m "calls") (.binary m .add (.name m "calls") (.atom m .int "1")),
            .cond m (.binary m .le (.name m "n") (.atom m .int "1"))
              (.assign m (.name m "r") (.atom m .int "1"))
              (.assign m (.name m "r") (.binary m .mul (.name m "n")
                (.call m "fact" [.binary m .sub (.name m "n") (.atom m .int "1")]))),
            .eval m (.name m "r")])),
      .fn m "main" [] ⟨m, "int"⟩
        (.block m [
          .loop m (.binary m .lt (.name m "calls") (.atom m .int "5"))
            (.eval m (.call m "putChar" [.cast m
              (.binary m .add (.call m "fact" [.atom m .int "3"]) (.atom m .int "48")) ⟨m, "char"⟩])),
          .eval m (.binary m .mul (.name m "calls") (.call m "fact" [.atom m .int "5"]))])] }

theorem ofNode_countedFactorials : Program.ofNode countedFactorials = .ok countedFactorialsProgram := rfl

/-- The program is flat and scalar, and its value and what it writes can be computed. -/
theorem evaluate_countedFactorials : countedFactorialsProgram.number.resolve.toOption.any (fun t =>
    decide (countedFactorialsProgram.number.FlatScalar t) &&
      decide ((countedFactorialsProgram.number.evaluate t 60 none).1 = .ok 720) &&
        decide ((countedFactorialsProgram.number.evaluate t 60 none).2.output = "66".toUTF8)) = true := by
  decide +kernel

theorem flat_programs_run_as_evaluated_countedFactorials : ∃ t laid coded l,
    countedFactorialsProgram.number.resolve = .ok t ∧ countedFactorialsProgram.number.FlatScalar t ∧
      Translated countedFactorialsProgram.number { attrs := t } laid coded l ∧
      ∀ (c : Compiled), c.linear = l → ∃ s, Machine.CallEnds
        { c.treeMachine coded.attrs countedFactorialsProgram.number none with limit := 0 } "_main" [0] [0]
          (.value 720) s ∧ s.output = "66".toUTF8 := by
  have hall := evaluate_countedFactorials
  rcases hresolve : countedFactorialsProgram.number.resolve with diagnostics | t
  · rw [hresolve] at hall
    cases hall
  rw [hresolve] at hall
  simp only [Except.toOption, Option.any_some, Bool.and_eq_true, decide_eq_true_eq] at hall
  obtain ⟨⟨hflat, hvalue⟩, houtput⟩ := hall
  have hmain : ∃ mark params type body,
      .fn mark "main" params type body ∈ countedFactorialsProgram.number.decls :=
    ⟨_, _, _, _, List.mem_of_getElem? (i := 3) rfl⟩
  obtain ⟨laid, coded, l, htranslated, hends⟩ :=
    flat_programs_run_as_evaluated ofNode_countedFactorials hresolve hflat hmain {}
  refine ⟨t, laid, coded, l, rfl, hflat, htranslated, fun c hc => ?_⟩
  obtain ⟨s, hs, hout⟩ := (hends c hc none 0 (Int.le_refl 0) 60).value 720 _ (Prod.ext hvalue rfl)
  exact ⟨s, hs, hout.trans houtput⟩

end MmixBackend
