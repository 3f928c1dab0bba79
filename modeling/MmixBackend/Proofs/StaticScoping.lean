import MmixBackend.Proofs.DisciplinedPrograms
import MmixBackend.Proofs.Machine.StepLimit
import MmixBackend.Proofs.Source.DeclarationOrder

/-!
# Static links and lexical scoping

The static link of a nested function should be the frame pointer of the activation of the function
that declares it, and every variable should be found in the layer of the function that declares it,
along a chain of static links.

This holds for an accepted program without pointers as long as its nested functions are called by
the functions that declare them. The code of the function that runs then reaches all variables in
scope. The static link that it passes to a callee is right if it declares the callee itself. A
callee that is declared further out, beside the running function or around it, gets the frame
pointer of a layer that lies one too far inwards, and from there on it is lost.

## Main definitions

- `ScopedIn`: variables and callees of the running function.
- `Scoped`: static links implement lexical scoping in a configuration.

## Main statements

- `static_links_implement_scoping`: they do so in every run, as far as it goes this way.
-/

namespace MmixBackend

open Source Machine Generation Relation

/-! ## §1 Scoping -/

/-- The layer is that of a function around the running one. As many layers lie below it, and each of
them is that of a function which the function of the next layer declares. -/
def Machine.Nesting.Encloses (N : Nesting) (S : List Layer) (i : Nat) (L : Layer) : Prop :=
  S[i]? = some L ∧ ∀ j < i, ∃ M M', S[j]? = some M ∧ S[j + 1]? = some M' ∧ N.inside M.frame M'.frame

/-- The address of a variable: that of its static data, or that of its slot in the enclosing layer
of the function that declares it. -/
inductive Slot (p : Program) (t : Attributes) (laid : Workspace) (m : Machine) (S : List Layer)
    (d : Decl) : Word → Prop
  | static {data : StaticData} {a : Word} (hglobal : d ∈ p.decls)
      (haccess : laid.attrs.accesses[d.id]? = some (.static data))
        (hlabel : m.labels[data.label]? = some a) :
      Slot p t laid m S d a
  | relative {i : Nat} {L : Layer} {g : Decl} {size offset depth : Word}
      (hencloses : (p.nesting t laid.attrs).Encloses S i L) (hg : g ∈ p.functions)
      (hframe : laid.attrs.frames[g.id]? = some L.frame) (hdeclares : g.Declares d)
      (haccess : laid.attrs.accesses[d.id]? = some (.relative size offset depth)) :
        Slot p t laid m S d (L.fp + offset)

/-- The code of a function, which is running in the configuration, reaches variables and functions
in scope: `f` is the frame of the function. -/
structure ScopedIn (p : Program) (t : Attributes) (laid : Workspace) (m : Machine) (c : Config)
    (f : Frame) (body : Expr) :
    Prop where
  /-- The code that generation makes of a variable leads to its slot. -/
  names : ∀ nm ident d, .expr (.name nm ident) ∈ body.walk Node.inFunction →
    laid.attrs.declaredAt[nm.id]? = some d →
    d.IsVariable → ∀ w : Workspace, w.attrs.withoutCode = laid.attrs.withoutCode →
      Succeeds (Generation.name f nm ident) w fun code _ => ∃ addr a, code = .mem addr ∧
        Slot p t laid m c.layers d a ∧
        ∀ k, ReflTransGen (Next m) ⟨.eval addr k, c.temps, c.state⟩ ⟨.value a k, c.temps, c.state⟩
  /-- A nested function is declared by that of an enclosing layer. The code of its static link leads
  to the frame pointer of this layer exactly if it is the layer of the running function. -/
  calls : ∀ node ∈ body.walk Node.inFunction, ∀ d ∈ p.functions, node.Refers laid.attrs d →
    d ∉ p.decls →
    ∀ callee, laid.attrs.frames[d.id]? = some callee →
      ∃ i L link, (p.nesting t laid.attrs).Encloses c.layers i L ∧
        (p.nesting t laid.attrs).inside callee L.frame ∧
        (∀ k, ReflTransGen (Next m) ⟨.eval (staticLink f callee) k, c.temps, c.state⟩
          ⟨.value link k, c.temps, c.state⟩) ∧ (link = L.fp ↔ i = 0)

/-- The static links of a configuration implement lexical scoping. -/
structure Scoped (p : Program) (t : Attributes) (laid : Workspace) (m : Machine) (c : Config) :
    Prop where
  /-- The static link of a nested function is the frame pointer of an activation of the function
  that declares it. -/
  links : ∀ (i : Nat) L, c.layers[i]? = some L → (p.nesting t laid.attrs).nested L.frame →
    ∃ L', c.layers[i + 1]? = some L' ∧ (p.nesting t laid.attrs).inside L.frame L'.frame ∧
      c.state.memory.read L.fp = L'.fp
  /-- This is so for the running function, unless it has come to its end. -/
  running : ¬c.control.Finished → ∀ L ∈ c.layers.head?, ∀ mark name params type body,
    .fn mark name params type body ∈ p.functions → laid.attrs.frames[mark.id]? = some L.frame →
      ScopedIn p t laid m c L.frame body

/-! ## §2 The running function -/

namespace Activates

variable {p : Program} {t t' : Attributes} {chain : List Decl} {S : List Layer}

/-- The layers of a chain are those of functions around the running one. -/
theorem encloses (h : Activates p t' chain S) {i : Nat} {g : Decl} (hg : chain[i]? = some g)
    {L : Layer} (hL : S[i]? = some L) : (p.nesting t t').Encloses S i L := by
  refine ⟨hL, fun j hj => ?_⟩
  have hlength := (List.getElem?_eq_some_iff.mp hg).1
  have hd : chain[j]? = some chain[j] := List.getElem?_eq_getElem (by omega)
  have he : chain[j + 1]? = some chain[j + 1] := List.getElem?_eq_getElem (by omega)
  obtain ⟨M, hM, hf⟩ := h.frames j _ hd
  obtain ⟨M', hM', hf'⟩ := h.frames (j + 1) _ he
  exact ⟨M, M', hM, hM', _, h.lexical.mem_functions _ (List.mem_of_getElem? hd), _,
    h.lexical.mem_functions _ (List.mem_of_getElem? he), hf, hf', h.lexical.declares hd he⟩

/-- The frame pointers of a chain have as many entries as the chain. -/
theorem length_fps {rest : List Decl} {d : Decl} (h : Activates p t' (d :: rest) S) :
    ((S.take (rest.length + 1)).map Layer.fp).length = rest.length + 1 := by
  have hlength : rest.length + 1 ≤ S.length := h.length_le
  rw [List.length_map, List.length_take, Nat.min_eq_left hlength]

/-- The frame pointer of a function around the running one, counted from the outermost function. -/
theorem frameAtDepth_eq {rest : List Decl} {d : Decl} (h : Activates p t' (d :: rest) S) {i : Nat}
    (hi : i ≤ rest.length) {L : Layer} (hL : S[i]? = some L) :
    frameAtDepth ((S.take (rest.length + 1)).map Layer.fp) (rest.length - i) = some L.fp := by
  have hlength := h.length_fps
  rw [frameAtDepth, List.getElem?_reverse (by rw [hlength]; omega), hlength, List.getElem?_map,
    List.getElem?_take,
    if_pos (by omega), show rest.length + 1 - 1 - (rest.length - i) = i by omega, hL]
  rfl

end Activates

namespace Settled

variable {o : Options} {p : Program} {t : Attributes} {laid coded : Workspace}
  {c : Compiled} {m : Machine}
variable {S : List Layer} {L : Layer} {chain rest : List Decl} {d : Decl}
  {temps : Temps} {s : State}

/-- **A variable is reached** from the running function. -/
theorem reaches_variable (h : Settled o p t laid coded c) (hm : c.RunsOn coded.attrs p m)
    {mark : Mark} {name : String} {params : List Param} {type : TypeExpr} {body : Expr}
    (hS : (p.nesting t laid.attrs).Seated (L :: S))
    (hact : Activates p laid.attrs (.fn mark name params type body :: rest) (L :: S))
    (htemps : HoldsFp temps (L :: S)) (hlinked : (p.nesting t laid.attrs).Linked (L :: S) s.memory)
    {nm : Mark} {ident : String} (hnode : .expr (.name nm ident) ∈ body.walk Node.inFunction)
    (hbound : laid.attrs.declaredAt[nm.id]? = some d) (hvar : d.IsVariable) {w : Workspace}
    (hw : w.attrs.withoutCode = laid.attrs.withoutCode) :
    Succeeds (Generation.name L.frame nm ident) w fun code _ => ∃ addr a, code = .mem addr ∧
      Slot p t laid m (L :: S) d a ∧ ∀ k, ReflTransGen (Next m) ⟨.eval addr k, temps, s⟩
        ⟨.value a k, temps, s⟩ := by
  have hdeclaredAt : w.attrs.withoutCode.declaredAt = laid.attrs.withoutCode.declaredAt :=
    congrArg _ hw
  have haccesses : w.attrs.withoutCode.accesses = laid.attrs.withoutCode.accesses := congrArg _ hw
  change w.attrs.declaredAt = laid.attrs.declaredAt at hdeclaredAt
  change w.attrs.accesses = laid.attrs.accesses at haccesses
  rw [← hdeclaredAt] at hbound
  -- The variable is global, or one of the functions around the running one declares it.
  rcases h.declared_in_chain hact hnode (hdeclaredAt ▸ hbound) with
    hglobal | ⟨i, g, L', hg, hdeclares, hL', hf⟩
  · obtain ⟨data, hstatic⟩ := h.compiled.stages.access_of_global hglobal hvar
    obtain ⟨a, hlabel, -⟩ := h.place_of_global hm hS hglobal hvar hstatic
    refine (name_static hbound hvar (haccesses ▸ hstatic)).imp fun code w' hcode =>
      ⟨_, a, hcode.2, ?_, fun k => ?_⟩
    · exact .static hglobal hstatic hlabel
    · refine .single ?_
      show Machine.evalStep m (.name data.label) k temps s = .next _
      simp only [Machine.evalStep, hlabel]
  · have hgmem := hact.lexical.mem_functions g (List.mem_of_getElem? hg)
    have hi := (List.getElem?_eq_some_iff.mp hg).1
    rw [List.length_cons] at hi
    obtain ⟨size, offset, haccess, -⟩ := h.place_of_declares hS (List.mem_of_getElem? hL') hgmem hf
      hvar hdeclares
    -- The depths differ by the number of functions in between, so as many links are followed.
    have hdepth := h.toInt_depth_add_one hS hact hg hf
    rw [List.length_cons, Nat.add_sub_add_right] at hdepth
    refine ((h.display hS hact htemps hlinked).name_reaches_declaring_frame hbound hvar
      (haccesses ▸ haccess) hdepth
      (hact.frameAtDepth_eq (by omega) hL')).imp fun code w' hcode => ?_
    obtain ⟨-, addr, hcode, heval⟩ := hcode
    exact ⟨addr, _, hcode, .relative (hact.encloses hg hL') hgmem hf hdeclares haccess, heval m⟩

/-- **A static link** leads to the layer of the function that declares the callee exactly if this is
the running one. -/
theorem reaches_link (h : Settled o p t laid coded c) {mark : Mark} {name : String}
    {params : List Param} {type : TypeExpr} {body : Expr}
    (hS : (p.nesting t laid.attrs).Seated (L :: S))
    (hact : Activates p laid.attrs (.fn mark name params type body :: rest) (L :: S))
    (htemps : HoldsFp temps (L :: S)) (hlinked : (p.nesting t laid.attrs).Linked (L :: S) s.memory)
    {node : Node} (hnode : node ∈ body.walk Node.inFunction) (hd : d ∈ p.functions)
    (hrefers : node.Refers laid.attrs d) (hnested : d ∉ p.decls) {callee : Frame}
    (hcallee : laid.attrs.frames[d.id]? = some callee) :
    ∃ i L' link, (p.nesting t laid.attrs).Encloses (L :: S) i L' ∧
      (p.nesting t laid.attrs).inside callee L'.frame ∧
      (∀ k, ReflTransGen (Next m) ⟨.eval (staticLink L.frame callee) k, temps, s⟩
        ⟨.value link k, temps, s⟩) ∧
        (link = L'.fp ↔ i = 0) := by
  obtain ⟨i, g, L', hg, hdeclares, hL', hf⟩ :=
    (h.declared_in_chain hact hnode hrefers).resolve_left hnested
  have hgmem := hact.lexical.mem_functions g (List.mem_of_getElem? hg)
  have hi := (List.getElem?_eq_some_iff.mp hg).1
  rw [List.length_cons] at hi
  -- The callee lies one deeper than the function that declares it.
  have hdepth := h.toInt_depth_add_one hS hact hg hf
  rw [h.depth_of_declared hd hgmem hdeclares hcallee hf, List.length_cons,
    Nat.add_sub_add_right] at hdepth
  have hnodup : (((L :: S).take (rest.length + 1)).map Layer.fp).Nodup :=
    hS.nodup.sublist ((List.take_sublist _ _).map _)
  have hlength := hact.length_fps
  obtain ⟨link, heval, -, hright⟩ := (h.display hS hact htemps hlinked).static_link_right_iff hnodup
    hdepth
    (by rw [hlength]; omega)
  refine ⟨i, L', link, hact.encloses hg hL', ⟨d, hd, g, hgmem, hcallee, hf, hdeclares⟩, heval m, ?_⟩
  rw [hact.frameAtDepth_eq (by omega) hL', hlength, Option.some_inj, eq_comm] at hright
  rw [hright]
  omega

/-- **Static links implement lexical scoping** in a configuration that keeps them. -/
theorem scoped_of_keeps (h : Settled o p t laid coded c) (hm : c.RunsOn coded.attrs p m)
    {F : Future} {conf : Config} (hkeeps : (p.nesting t laid.attrs).Keeps m F conf)
    (hallows : (p.nesting t laid.attrs).Allows conf) :
    Scoped p t laid m conf := by
  obtain ⟨-, hheld, -, hseated, hlinked⟩ := hkeeps
  refine ⟨fun i L hL hnested => ?_, fun hrunning L hL mark name params type body hfn hf => ?_⟩
  · obtain ⟨L', hL', hinside⟩ := hallows.called i L hL hnested
    exact ⟨L', hL', hinside, hlinked i L L' hL hL' hnested⟩
  · have htemps := hheld.resolve_right hrunning
    obtain ⟨S, hlayers⟩ := List.head?_eq_some_iff.mp hL
    rw [hlayers] at hseated hlinked htemps
    obtain ⟨rest, hact⟩ := h.exists_chain hseated hfn hf
    constructor
    · rw [hlayers]
      exact fun nm ident d hnode hbound hvar w hw => h.reaches_variable hm hseated hact htemps
        hlinked hnode hbound hvar hw
    · rw [hlayers]
      exact fun node hnode d hd hrefers hnested callee hcallee =>
        h.reaches_link hseated hact htemps hlinked hnode hd hrefers hnested hcallee

end Settled

/-! ## §3 Accepted programs -/

/-- An accepted program without pointers, with its frames in the range of words. -/
theorem settled_of_compile {n : Yaml.Node} {p : Program} {t : Attributes} {o : Options} {σ : Supply}
    {c : Compiled} {listings : Listings} (hread : Program.ofNode n = .ok p)
    (hresolve : p.number.resolve = .ok t)
    (hcompile : compile o p.number { attrs := t, supply := σ } = (.ok c, listings))
    (hdirect : ∀ mark arg, .expr (.deref mark arg) ∉ p.number.nodes)
    (hfits : ∀ m name params type body, .fn m name params type body ∈ p.number.functions →
      FrameFits t params body) :
    ∃ laid coded, Translated p.number { attrs := t, supply := σ } laid coded c.linear ∧
      Settled o p.number t laid coded c := by
  obtain ⟨laid, coded, htranslated, hcompiled⟩ := compiledFrom_of_compile hread hresolve hcompile
  obtain ⟨hnum, hnumbered⟩ := p.number_spec
  have hcomplete := hnumbered (Program.complete_of_ofNode hread)
  obtain ⟨hresolved, hrecords, -⟩ := Program.resolved_of_resolve hcomplete hresolve
  have haccepts := Program.accepts_of_resolve p.wellNumbered_number hcomplete hresolve
  have hrecorded := Program.recorded_of_resolve hresolve
  have hstrings := hcompiled.stages.holdsStrings (Program.wellNamed_of_resolve hcomplete hresolve).2
    htranslated.layout
  refine ⟨laid, coded, htranslated, ?_⟩
  exact
    { compiled := hcompiled
      typed := haccepts.typed
      guarded := haccepts.guarded
      recorded := hrecorded
      placed := (Layout.program_components hcomplete hnum hresolved hrecords
        hrecorded.distinct).of_run htranslated.layout
      fields := fun id info hinfo => (hrecords id info hinfo).positive
      labelled := fun d hd d' hd' f f' hf hf' hlabel =>
        htranslated.function_of_label hread hresolve hcompiled.stages hd hd' hf hf' hlabel
      named := fun d hd hnested f hf hlabel => by
        have hhead := htranslated.head?_label hread hresolve hd hnested hf
        rw [hlabel, Label.head?_global] at hhead
        cases hhead
      fits := hfits
      direct := fun mark arg hnode => hdirect mark arg (List.mem_cons_of_mem _ hnode)
      data := hcompiled.stages.data_are hcompiled.linear hstrings
        (Program.exactBytes_of_resolve hcomplete hresolve) }

/-- **Static links implement lexical scoping** as far as nested functions are called by the
functions that declare them. Let a program be accepted and compiled that follows no pointers and
whose frames are in the range of words, and let its main function run on a machine that has its code
trees loaded. Take any configuration of the run up to which every nested function on the stack had
been called by the function that declares it, array indices were in range and the stack did not come
down to the static data. There every static link on the stack is right, and the code of the running
function reaches the slot of every variable in scope. The static link of a callee is right exactly
if the running function declares the callee itself. -/
theorem static_links_implement_scoping {n : Yaml.Node} {p : Program} {t : Attributes}
    {o : Options} {σ : Supply} {c : Compiled} {listings : Listings}
    (hread : Program.ofNode n = .ok p) (hresolve : p.number.resolve = .ok t)
    (hcompile : compile o p.number { attrs := t, supply := σ } = (.ok c, listings))
    (hdirect : ∀ mark arg, .expr (.deref mark arg) ∉ p.number.nodes)
    (hfits : ∀ m name params type body, .fn m name params type body ∈ p.number.functions →
      FrameFits t params body) :
    ∃ laid coded, Translated p.number { attrs := t, supply := σ } laid coded c.linear ∧
      ∀ (input : Option ByteReader) (limit : Int) (m : Machine),
        m = { c.treeMachine coded.attrs p.number input with limit } →
        ∀ start, Machine.call m "_main" [0] [0] .done ∅ m.state = .next start →
          ∀ conf, ReflTransGen (Next m) start conf →
            (p.number.nesting t laid.attrs).Orderly m start conf →
            Scoped p.number t laid m conf := by
  obtain ⟨laid, coded, htranslated, h⟩ := settled_of_compile hread hresolve hcompile hdirect hfits
  refine ⟨laid, coded, htranslated, fun input limit m hm start hcall conf hreach hway => ?_⟩
  have hm' : c.RunsOn coded.attrs p.number m := ⟨input, limit, hm⟩
  have hdisciplined := h.disciplinesAll hm'
  -- The main function is global, so its call needs no right link.
  have hmain : ∀ f, m.functions[("_main" : Label)]? = some f →
      ¬(p.number.nesting t laid.attrs).nested f.frame := by
    rintro f hf ⟨d, hd, hframe, hnested⟩
    obtain ⟨_, _, _, _, _, _, _, _, -, -, hlabel, -⟩ := h.loaded hm' hf
    exact h.named d hd hnested f.frame hframe hlabel
  have hsp : m.state.sp = stackTop := by
    rw [hm]
    exact sp_treeMachine c coded.attrs p.number input
  have hstart : (p.number.nesting t laid.attrs).Keeps m
      ((p.number.nesting t laid.attrs).Ahead m start start) start :=
    .start hdisciplined (by decide) hmain hsp hcall (hway start .refl hreach).1
  exact h.scoped_of_keeps hm' (hstart.of_run hdisciplined hreach hway) (hway conf hreach .refl).1

/-- A document in which a function calls one that is declared beside it, which reads a variable of
the function around them. -/
def siblingCall : Yaml.Node :=
  let name := scalarNode .str
  sequenceNode [mappingNode [("fun", name "main"), ("type", name "int"),
    ("body", mappingNode [("where", mappingNode [
      ("decls", sequenceNode [
        mappingNode [("var", name "x"), ("type", name "int")],
        mappingNode [("fun", name "g"), ("type", name "int"), ("body", name "x")],
        mappingNode [("fun", name "f"), ("type", name "int"),
          ("body", operatorNode "call" [name "g"])]]),
      ("expr", operatorNode "call" [name "f"])])])]]

/-- The program of this document. -/
def siblingCallProgram : Program :=
  let m : Mark := ⟨0, 1, 1⟩
  { mark := m
    decls := [
      .fn m "main" [] ⟨m, "int"⟩
        (.scope m [
            .var m "x" ⟨m, "int"⟩,
            .fn m "g" [] ⟨m, "int"⟩ (.name m "x"),
            .fn m "f" [] ⟨m, "int"⟩ (.call m "g" [])]
          (.call m "f" []))] }

theorem ofNode_siblingCall : Program.ofNode siblingCall = .ok siblingCallProgram := rfl

namespace SiblingCall

/-- The inner functions with their numbers. -/
def g : Decl := .fn ⟨6, 1, 1⟩ "g" [] ⟨⟨7, 1, 1⟩, "int"⟩ (.name ⟨8, 1, 1⟩ "x")

def f : Decl := .fn ⟨9, 1, 1⟩ "f" [] ⟨⟨10, 1, 1⟩, "int"⟩ (.call ⟨11, 1, 1⟩ "g" [])

def mainBody : Expr := .scope ⟨3, 1, 1⟩ [.var ⟨4, 1, 1⟩ "x" ⟨⟨5, 1, 1⟩, "int"⟩, g, f]
    (.call ⟨12, 1, 1⟩ "f" [])

def main : Decl := .fn ⟨1, 1, 1⟩ "main" [] ⟨⟨2, 1, 1⟩, "int"⟩ mainBody

theorem functions_eq : siblingCallProgram.number.functions = [main, g, f] := rfl

theorem decls_eq : siblingCallProgram.number.decls = [main] := rfl

theorem main_mem : main ∈ siblingCallProgram.number.functions := List.mem_of_getElem? (i := 0) rfl

theorem g_mem : g ∈ siblingCallProgram.number.functions := List.mem_of_getElem? (i := 1) rfl

theorem f_mem : f ∈ siblingCallProgram.number.functions := List.mem_of_getElem? (i := 2) rfl

/-- The frames of the functions. -/
def mainFrame : Frame := ⟨"_main", 0, 8, 8, ⟨5⟩, ⟨6⟩⟩

def gFrame : Frame := ⟨"L1", 1, 0, 0, ⟨1⟩, ⟨2⟩⟩

def fFrame : Frame := ⟨"L2", 1, 0, 8, ⟨3⟩, ⟨4⟩⟩

/-- The tables of the program that matter for its layers. -/
structure Laid (t : Attributes) (laid : Workspace) : Prop where
  frames : [main, g, f].map (fun d => laid.attrs.frames[d.id]?) = [some mainFrame,
    some gFrame, some fFrame]
  staticEnd : siblingCallProgram.number.staticEnd t = dataStart.toInt
  callee : t.declaredAt[12]?.map Decl.id = some 9
  sibling : t.declaredAt[11]?.map Decl.id = some 6

theorem exists_laid : ∃ t, siblingCallProgram.number.resolve = .ok t ∧
    Laid t ((Layout.program siblingCallProgram.number).run.run { attrs := t }).2 ∧
    FrameFits t [] mainBody ∧ FrameFits t [] (.name ⟨8, 1, 1⟩ "x") ∧
        FrameFits t [] (.call ⟨11, 1, 1⟩ "g" []) := by
  have htables : siblingCallProgram.number.resolve.toOption.any (fun t =>
      let laid := ((Layout.program siblingCallProgram.number).run.run { attrs := t }).2.attrs
      decide ([main, g, f].map (fun d => laid.frames[d.id]?) = [some mainFrame, some gFrame,
        some fFrame]) &&
        decide (siblingCallProgram.number.staticEnd t = dataStart.toInt) &&
          decide (t.declaredAt[12]?.map Decl.id = some 9) && decide
            (t.declaredAt[11]?.map Decl.id = some 6) &&
            decide (FrameFits t [] mainBody ∧ FrameFits t [] (.name ⟨8, 1, 1⟩ "x") ∧
              FrameFits t [] (.call ⟨11, 1, 1⟩ "g" []))) = true := by
    decide +kernel
  rcases hresolve : siblingCallProgram.number.resolve with diagnostics | t
  · rw [hresolve] at htables
    cases htables
  rw [hresolve] at htables
  simp only [Except.toOption, Option.any_some, Bool.and_eq_true, decide_eq_true_eq] at htables
  obtain ⟨⟨⟨⟨hframes, hend⟩, hcallee⟩, hsibling⟩, hfits⟩ := htables
  exact ⟨t, rfl, ⟨hframes, hend, hcallee, hsibling⟩, hfits⟩

variable {t : Attributes} {laid coded : Workspace} {c : Compiled}

/-- How the functions are nested. -/
abbrev nesting (t : Attributes) (laid : Workspace) :
    Nesting := siblingCallProgram.number.nesting t laid.attrs

/-- The layers of the functions, called one by the other. -/
def mainLayer : Layer := ⟨mainFrame, stackTop⟩

def fLayer : Layer := ⟨fFrame, stackTop - mainFrame.size⟩

namespace Laid

theorem mainFrame_eq (h : Laid t laid) : laid.attrs.frames[1]? = some mainFrame :=
    (List.cons_eq_cons.mp h.frames).1

theorem gFrame_eq (h : Laid t laid) : laid.attrs.frames[6]? = some gFrame :=
  (List.cons_eq_cons.mp (List.cons_eq_cons.mp h.frames).2).1

theorem fFrame_eq (h : Laid t laid) : laid.attrs.frames[9]? = some fFrame :=
  (List.cons_eq_cons.mp (List.cons_eq_cons.mp (List.cons_eq_cons.mp h.frames).2).2).1

theorem not_nested (h : Laid t laid) : ¬(nesting t laid).nested mainFrame := by
  rintro ⟨d, hd, hframe, hnested⟩
  rw [functions_eq] at hd
  rcases List.mem_cons.mp hd with rfl | hd
  · exact hnested List.mem_cons_self
  rcases List.mem_cons.mp hd with rfl | hd
  · exact absurd (h.gFrame_eq.symm.trans hframe) (by decide)
  · obtain rfl := List.mem_singleton.mp hd
    exact absurd (h.fFrame_eq.symm.trans hframe) (by decide)

theorem inside_f (h : Laid t laid) : (nesting t laid).inside fFrame mainFrame := by
  refine ⟨f, f_mem, main, main_mem, h.fFrame_eq, h.mainFrame_eq, ?_⟩
  exact .inr (List.mem_of_getElem? (i := 3) rfl)

theorem allows_main (h : Laid t laid) {conf : Config} (hlayers : conf.layers = [mainLayer]) :
    (nesting t laid).Allows conf := by
  constructor
  · intro i L hL hnested
    rw [hlayers, List.getElem?_singleton] at hL
    split at hL
    · cases hL
      exact (h.not_nested hnested).elim
    · cases hL
  · rw [hlayers]
    refine List.forall_mem_singleton.mpr ?_
    show siblingCallProgram.number.staticEnd t ≤ _
    rw [h.staticEnd]
    decide

theorem allows_f (h : Laid t laid) {conf : Config} (hlayers : conf.layers = [fLayer, mainLayer]) :
    (nesting t laid).Allows conf := by
  constructor
  · intro i L hL hnested
    rw [hlayers] at hL ⊢
    cases i with
    | zero =>
      cases hL
      exact ⟨mainLayer, rfl, h.inside_f⟩
    | succ i =>
      rw [List.getElem?_cons_succ, List.getElem?_singleton] at hL
      split at hL
      · cases hL
        exact (h.not_nested hnested).elim
      · cases hL
  · rw [hlayers]
    refine List.forall_mem_cons.mpr ⟨?_, List.forall_mem_singleton.mpr ?_⟩
    · show siblingCallProgram.number.staticEnd t ≤ _
      rw [h.staticEnd]
      decide
    · show siblingCallProgram.number.staticEnd t ≤ _
      rw [h.staticEnd]
      decide

end Laid

/-- The program has no element accesses and follows no pointers. -/
theorem not_index_deref : siblingCallProgram.number.nodes.all (fun
    | .expr (.index ..) | .expr (.deref ..) => false
    | _ => true) = true := rfl

theorem inRange (h : Settled {} siblingCallProgram.number t laid coded c) (m : Machine)
    (start conf : Config) :
    (nesting t laid).InRange m start conf := by
  intro _ op fst snd _ _ y _ _ _ _ mark name params type body fr hfn _ nm array idx lo hi hnode
  have hin := (Program.bound_of_resolved h.compiled.stages.resolved _
    (Linear.mem_walk_of_mem_functions hfn).2).2 _
    (body.walk_inFunction_subset hnode)
  cases List.all_eq_true.mp not_index_deref _ (List.mem_cons_of_mem _ hin)

/-! ### The run -/

/-- The code of `main`, and what is loaded of it. -/
def callF : IR.Expr := .call fFrame.label [0] [staticLink mainFrame fFrame]

def mainBlock : Machine.Block := .ofStmts [.move (.temp mainFrame.rv) callF]

/-- What is loaded on the machine of the run: the code of the inner function is left open. -/
structure Loaded (m : Machine) (code : IR.Expr) : Prop where
  main : m.functions["_main"]? = some ⟨mainFrame, mainBlock⟩
  f : m.functions["L2"]? = some ⟨fFrame, .ofStmts [.move (.temp fFrame.rv) code]⟩
  sp : m.state.sp = stackTop
  limit : m.limit = 0

theorem exists_loaded (h : Settled {} siblingCallProgram.number t laid coded c)
    (hlaid : Laid t laid) {m : Machine}
    (hm : m = { c.treeMachine coded.attrs siblingCallProgram.number none with limit := 0 }) :
    ∃ code, Loaded m code := by
  have hm' : c.RunsOn coded.attrs siblingCallProgram.number m := ⟨none, 0, hm⟩
  obtain ⟨_, _, _, hcode, hmain⟩ := h.exists_loaded hm' main_mem Expr.noConfusion hlaid.mainFrame_eq
  obtain ⟨_, _, code, -, hf⟩ := h.exists_loaded hm' f_mem Expr.noConfusion hlaid.fFrame_eq
  obtain ⟨_, -, fm, _, _, _, _, callee, _, _, hdecl, hcallee, -, hargs, rfl⟩ := hcode
  obtain ⟨-, rfl, rfl⟩ := hargs
  -- The call in the code is that of the inner function.
  have hid := hlaid.callee
  rw [← h.compiled.stages.resolves.declaredAt, hdecl] at hid
  have hid : fm.id = 9 := Option.some.inj hid
  rw [hid] at hcallee
  cases hlaid.fFrame_eq.symm.trans hcallee
  refine ⟨code, hmain, hf, ?_, ?_⟩
  · rw [hm]
    exact sp_treeMachine c coded.attrs siblingCallProgram.number none
  · rw [hm]

/-- The temps of `main`, and what waits for the value of its call. -/
def mainTemps : Temps := (∅ : Temps).insert mainFrame.fp stackTop

def waiting : ValueContext := .setTemp mainFrame.rv mainBlock 1 (.ret mainFrame stackTop ∅ .done)

/-- The state in which `main` has been called. -/
def mainState (s : State) : State :=
  { s with memory := s.memory.writeAt stackTop [0] [0], sp := stackTop - mainFrame.size }

/-- The state in which it has begun to move its result. -/
def callState (s : State) : State := { mainState s with steps := s.steps + 1 }

/-- The start of the run. -/
def start (s : State) : Config :=
    ⟨.exec mainBlock 0 (.ret mainFrame stackTop ∅ .done), mainTemps, mainState s⟩

/-- The static link of the inner function has been evaluated. -/
def linked (s : State) : Config :=
  ⟨.value (mainTemps.getD mainFrame.fp 0) (.argument fFrame.label [0] [] [] waiting),
    mainTemps, callState s⟩

/-- The inner function has been called. -/
def entered (code : IR.Expr) (s : State) : Config :=
  ⟨.exec (.ofStmts [.move (.temp fFrame.rv) code]) 0 (.ret fFrame fLayer.fp mainTemps waiting),
    (∅ : Temps).insert fFrame.fp fLayer.fp,
    { callState s with
      memory := (callState s).memory.writeAt fLayer.fp [0] [mainTemps.getD mainFrame.fp 0]
      sp := fLayer.fp - fFrame.size }⟩

namespace Loaded

variable {m : Machine} {code : IR.Expr}

theorem call_main (h : Loaded m code) : Machine.call m "_main" [0] [0] .done ∅ m.state = .next
    (start m.state) := by
  simp only [Machine.call_eq_invoke (Nat.le_refl [(0 : Word)].length), Machine.invoke,
    show Routine.ofLabel? "_main" = none by decide, h.main, h.sp]
  rfl

/-- The static link is evaluated in three transitions. -/
theorem next_linked (h : Loaded m code) (s : State) : ∃ c₁ c₂, Next m (start s) c₁ ∧ Next m c₁ c₂ ∧
    Next m c₂ (linked s) ∧ c₁.layers = [mainLayer] ∧ c₂.layers = [mainLayer] := by
  refine ⟨⟨.eval callF waiting, mainTemps, callState s⟩,
    ⟨.eval (staticLink mainFrame fFrame) (.argument fFrame.label [0] [] [] waiting), mainTemps,
      callState s⟩, ?_, rfl, rfl,
    rfl, rfl⟩
  have hexceeds : exceeds m ((mainState s).steps + 1) = false := by
    rw [exceeds, h.limit]
    rfl
  have hstmt : mainBlock.stmts[0]? = some (.move (.temp mainFrame.rv) callF) := rfl
  show execStep m mainBlock 0 (.ret mainFrame stackTop ∅ .done) mainTemps (mainState s) = _
  rw [execStep_of_getElem? hstmt, hexceeds]
  rfl

theorem next_entered (h : Loaded m code) (s : State) : Next m (linked s) (entered code s) := by
  show Machine.call m "L2" [0] [mainTemps.getD mainFrame.fp 0] waiting mainTemps (callState s) = _
  have hargs : [(0 : Word)].length ≤ [mainTemps.getD mainFrame.fp 0].length := Nat.le_refl 1
  simp only [Machine.call_eq_invoke hargs, Machine.invoke,
    show Routine.ofLabel? "L2" = none by decide, h.f]
  rfl

/-- The run comes to the inner function, and `main` is all that has been called before. -/
theorem orderly (h : Loaded m code) (hsettled : Settled {} siblingCallProgram.number t laid coded c)
    (hlaid : Laid t laid) (s : State) : ReflTransGen (Next m) (start s) (entered code s) ∧
      (nesting t laid).Orderly m (start s) (entered code s) := by
  obtain ⟨c₁, c₂, h₀, h₁, h₂, hlayers₁, hlayers₂⟩ := h.next_linked s
  have h₃ := h.next_entered s
  refine ⟨.head h₀ (.head h₁ (.head h₂ (.single h₃))), fun d hd hdc =>
    ⟨?_, inRange hsettled m (start s) d⟩⟩
  rcases eq_or_reaches h₀ hd with rfl | hd
  · exact hlaid.allows_main rfl
  rcases eq_or_reaches h₁ hd with rfl | hd
  · exact hlaid.allows_main hlayers₁
  rcases eq_or_reaches h₂ hd with rfl | hd
  · exact hlaid.allows_main hlayers₂
  rcases eq_or_reaches h₃ hd with rfl | hd
  · exact hlaid.allows_main rfl
  -- The run does not come back to where the body of the inner function starts.
  · obtain rfl := eq_of_reaches rfl hd hdc
    exact hlaid.allows_f rfl

end Loaded

/-! ### The links -/

theorem not_global : f ∉ siblingCallProgram.number.decls ∧ g ∉ siblingCallProgram.number.decls := by
  rw [decls_eq]
  exact ⟨(nomatch List.mem_singleton.mp ·), (nomatch List.mem_singleton.mp ·)⟩

/-- The call in the inner function is one of its sibling. -/
theorem refers (h : Settled {} siblingCallProgram.number t laid coded c) (hlaid : Laid t laid) :
    Node.Refers laid.attrs (.expr (.call ⟨11, 1, 1⟩ "g" [])) g := by
  have hnode := (Program.bound_of_resolved h.compiled.stages.resolved _
    (Linear.mem_walk_of_mem_functions f_mem).2).2 _
    List.mem_cons_self
  obtain ⟨_, _, _, _, _, hdecl, hmem, -⟩ := h.compiled.stages.bound _ hnode
  have hid := hlaid.sibling
  rw [← h.compiled.stages.resolves.declaredAt, hdecl] at hid
  have hfunction := Linear.mem_functions hmem
  rw [functions_eq] at hfunction
  rcases List.mem_cons.mp hfunction with heq | hfunction
  · rw [heq] at hid
    cases hid
  rcases List.mem_cons.mp hfunction with heq | hfunction
  · exact hdecl.trans (congrArg some heq)
  · rw [List.mem_singleton.mp hfunction] at hid
    cases hid

/-- The link for the sibling does not lead to the layer of the function that declares it. -/
theorem wrong_link (h : Settled {} siblingCallProgram.number t laid coded c) (hlaid : Laid t laid)
    {m : Machine} {conf : Config} (hscoped : Scoped siblingCallProgram.number t laid m conf)
    (hlayers : conf.layers = [fLayer, mainLayer]) (hrunning : ¬conf.control.Finished) :
    (nesting t laid).inside gFrame mainFrame ∧ ∃ link, link ≠ mainLayer.fp ∧
      ∀ k, ReflTransGen (Next m) ⟨.eval (staticLink fFrame gFrame) k, conf.temps, conf.state⟩
        ⟨.value link k, conf.temps, conf.state⟩ := by
  have hscope := hscoped.running hrunning fLayer (by rw [hlayers]; rfl) _ _ _ _ _ f_mem
    hlaid.fFrame_eq
  obtain ⟨i, L, link, hencloses, hinside, heval, hright⟩ :=
    hscope.calls _ List.mem_cons_self g g_mem
    (refers h hlaid) not_global.2 gFrame hlaid.gFrame_eq
  have hlayer := hencloses.1
  rw [hlayers] at hlayer
  match i with
  | 0 =>
    -- The running function declares nothing.
    cases hlayer
    obtain ⟨d, hd, e, he, hframe, hframe', hdeclares⟩ := hinside
    cases h.unique f_mem he hlaid.fFrame_eq hframe'
    rcases hdeclares with ⟨_, hp, -⟩ | hnode
    · cases hp
    · cases List.mem_singleton.mp hnode
  | 1 =>
    cases hlayer
    exact ⟨hinside, link, fun heq => absurd (hright.mp heq) Nat.one_ne_zero, heval⟩

theorem fits {t : Attributes} (hmain : FrameFits t [] mainBody)
    (hg : FrameFits t [] (.name ⟨8, 1, 1⟩ "x")) (hf : FrameFits t [] (.call ⟨11, 1, 1⟩ "g" [])) :
    ∀ m name params type body,
      .fn m name params type body ∈ siblingCallProgram.number.functions →
        FrameFits t params body := by
  intro m name params type body hfn
  rw [functions_eq] at hfn
  rcases List.mem_cons.mp hfn with heq | hfn
  · cases heq
    exact hmain
  rcases List.mem_cons.mp hfn with heq | hfn
  · cases heq
    exact hg
  · cases List.mem_singleton.mp hfn
    exact hf

end SiblingCall

open SiblingCall in
/-- The static links are right when the second function runs. The link that it is about to pass to
the first one is not, which `main` declares as well. -/
theorem static_links_implement_scoping_siblingCall :
    ∃ (t : Attributes) (c : Compiled) (listings : Listings)
    (laid coded : Workspace) (m : Machine) (start conf : Config),
    siblingCallProgram.number.resolve = .ok t ∧
      compile {} siblingCallProgram.number { attrs := t } = (.ok c, listings) ∧
      Translated siblingCallProgram.number { attrs := t } laid coded c.linear ∧
      m = { c.treeMachine coded.attrs siblingCallProgram.number none with limit := 0 } ∧
      Machine.call m "_main" [0] [0] .done ∅ m.state = .next start ∧
        ReflTransGen (Next m) start conf ∧
      (siblingCallProgram.number.nesting t laid.attrs).Orderly m start conf ∧
      Scoped siblingCallProgram.number t laid m conf ∧ conf.layers = [fLayer, mainLayer] ∧
      (siblingCallProgram.number.nesting t laid.attrs).inside gFrame mainFrame ∧
        ∃ link, link ≠ mainLayer.fp ∧
        ∀ k, ReflTransGen (Next m) ⟨.eval (staticLink fFrame gFrame) k, conf.temps, conf.state⟩
          ⟨.value link k, conf.temps, conf.state⟩ := by
  obtain ⟨t, hresolve, hlaid, hmain, hg, hf⟩ := exists_laid
  have hfits := fits hmain hg hf
  obtain ⟨c, listings, -, hcompile, -⟩ := exists_compiled ofNode_siblingCall hresolve (o := {})
    (by decide) (by decide) {}
  have hdirect : ∀ mark arg, .expr (.deref mark arg) ∉ siblingCallProgram.number.nodes :=
      fun mark arg hnode => by
    cases List.all_eq_true.mp not_index_deref _ hnode
  obtain ⟨laid, coded, htranslated, hsettled⟩ := settled_of_compile ofNode_siblingCall hresolve
    hcompile hdirect hfits
  obtain ⟨laid', coded', htranslated', hscoped⟩ :=
    static_links_implement_scoping ofNode_siblingCall hresolve hcompile hdirect hfits
  -- The layout and the generation are the same ones.
  obtain rfl : laid = laid' := congrArg Prod.snd (htranslated.layout.symm.trans htranslated'.layout)
  obtain rfl : coded = coded' :=
    congrArg Prod.snd (htranslated.generation.symm.trans htranslated'.generation)
  rw [htranslated.layout] at hlaid
  obtain ⟨code, hloaded⟩ := exists_loaded hsettled hlaid rfl
  obtain ⟨hreach, horderly⟩ := hloaded.orderly hsettled hlaid _
  have hconf := hscoped none 0 _ rfl _ hloaded.call_main _ hreach horderly
  exact ⟨t, c, listings, laid, coded, _, _, _, hresolve, hcompile, htranslated, rfl,
    hloaded.call_main, hreach, horderly,
    hconf, rfl, wrong_link hsettled hlaid hconf rfl (Option.some_ne_none _)⟩

end MmixBackend
