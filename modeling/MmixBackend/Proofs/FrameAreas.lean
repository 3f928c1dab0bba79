import MmixBackend.Proofs.Register.Slots
import MmixBackend.Proofs.Source.CallPlaces
import MmixBackend.Proofs.Stages

/-!
# The areas of a frame do not overlap

Three passes put things into a frame: the layout places parameters, local variables and the argument
area, generation says where each call stores its arguments, and register allocation adds slots for
spilled temps. Each of them counts on its own. For an accepted program they agree.

## Main statements

- `Stages.holds`: what the layout and the code of a function put into its frame.
- `frame_areas_disjoint`: the areas of the frames of an accepted program do not overlap.
-/

namespace MmixBackend

open Source

/-- The call is that of a routine behind an operator or that of a function of the program. For a function,
the static link goes to offset zero and the arguments go where the parameters are. -/
inductive PlacedCall (t : Attributes) (p : Program) : Label × List Word → Prop
  | routine {name : String} (hname : name = "new" ∨ name = "del") : PlacedCall t p (.global name, [8])
  | function {m : Mark} {name : String} {params : List Param} {type : TypeExpr} {body : Expr} {f : Frame}
      {offs : List Word} (hfn : .fn m name params type body ∈ p.functions)
      (hframe : t.frames[m.id]? = some f)
      (hoffs : List.Forall₂ (fun p off => t.OffsetAt p.mark.id off) params offs) :
      PlacedCall t p (f.label, 0 :: offs)

/-- What a function has in its frame: parameters above the static link, local variables in the areas
`locals`, and room for the arguments of all calls in its code. -/
structure Frame.Holds (t : Attributes) (p : Program) (f : Frame) (params : List Param) (body : Expr)
    (locals : List (Set Int)) : Prop where
  params : ∃ areas : List (Set Int), (params.map fun p => t.area? p.mark.id) = areas.map some ∧
    areas.Pairwise Disjoint ∧ ∀ area ∈ areas, area ⊆ Set.Ici 8
  areas : body.locals.map t.area? = locals.map some
  disjoint : locals.Pairwise Disjoint
  within : ∀ area ∈ locals, area ⊆ Set.Ico (-f.locsSize.toInt) 0
  calls : ∀ code, t.codeOf? body = some code → ∀ call ∈ code.calls,
    (∀ off ∈ call.2, 0 ≤ off.toInt ∧ off.toInt + 8 ≤ f.argsSize.toInt) ∧ PlacedCall t p call

namespace Stages

variable {p : Program} {t : Attributes} {laid coded : Workspace}

/-- Every function of the program has been laid out, whether it is nested or not. -/
theorem arranged_function (h : Stages p t laid coded) {m : Mark} {name : String} {params : List Param}
    {type : TypeExpr} {body : Expr}
    (hmem : .decl (.fn m name params type body) ∈ Decl.walkAll everywhere p.decls) :
    ∃ n : Layout.Needs, (Decl.fn m name params type body).Arranged t laid.attrs n := by
  rcases Decl.arrangedIn_of_arrangedAll h.arranged rfl _ hmem with ⟨n, -, hn⟩ | ⟨d, -, heq, hd⟩
  · exact ⟨n, hn⟩
  · cases heq
    exact ⟨_, hd⟩

/-- A call of a node stores its arguments where the callee looks for them. -/
theorem placedCall (h : Stages p t laid coded) {node : Node} {call : Label × List Word}
    (hnode : node ∈ Decl.walkAll everywhere p.decls) (hcall : node.Calls laid.attrs call) :
    PlacedCall coded.attrs p call := by
  have hbound := h.bound node hnode
  cases hcall with
  | routine hop => exact .routine (hop.imp And.right And.right)
  | name hfn hframe =>
    obtain ⟨d, hd, hvalue, hmem⟩ := hbound
    cases hfn.symm.trans hd
    -- A function that is called by its name alone has no parameters.
    obtain rfl := hvalue
    exact .function (Linear.mem_functions hmem) (h.generates.frames ▸ hframe) .nil
  | call hfn hframe hoffs =>
    obtain ⟨_, _, _, _, _, hd, hmem, -⟩ := hbound
    cases hfn.symm.trans hd
    refine .function (Linear.mem_functions hmem) (h.generates.frames ▸ hframe) (hoffs.imp ?_)
    intro p off hoff
    unfold Attributes.OffsetAt
    rw [h.generates.accesses]
    exact hoff

/-- A call of a node of a function body stores its arguments in the argument area of the function. -/
theorem arguments_fit (h : Stages p t laid coded) {m : Mark} {name : String} {params : List Param}
    {type : TypeExpr} {body : Expr} (hfn : .fn m name params type body ∈ p.functions)
    (hfits : FrameFits t params body) {f : Frame} (hframe : laid.attrs.frames[m.id]? = some f)
    {node : Node} (hnode : node ∈ body.walk Node.inFunction) {call : Label × List Word}
    (hcall : node.Calls laid.attrs call) :
    ∀ off ∈ call.2, 0 ≤ off.toInt ∧ off.toInt + 8 ≤ f.argsSize.toInt := by
  have hmem := (Linear.mem_walk_of_mem_functions hfn).2
  obtain ⟨n, ⟨label, fp, rv, -, hframe'⟩, -, hbody⟩ := h.arranged_function hmem
  cases hframe.symm.trans hframe'
  have hfills := body.fills_of_arranged (Attributes.sized h.positive h.definitions) hbody (b := 0)
    ⟨rfl, rfl, rfl⟩
  have hbound := Program.bound_of_resolved h.resolved
  have hin := (hbound _ hmem).2 node (body.walk_inFunction_subset hnode)
  refine hcall.fits h.resolves hin hbound (fun m name ps type body hfn => ?_) (hfills.calls node hnode)
    fun args hargs => hfits.calls args (List.mem_filterMap.mpr ⟨node, hnode, hargs⟩)
  obtain ⟨n, -, hps, -⟩ := h.arranged_function hfn
  exact ⟨_, hps⟩

/-- **What a function has in its frame.** -/
theorem holds (h : Stages p t laid coded) {m : Mark} {name : String} {params : List Param}
    {type : TypeExpr} {body : Expr} (hfn : .fn m name params type body ∈ p.functions)
    (hfits : FrameFits t params body) :
    ∃ (f : Frame) (locals : List (Set Int)), coded.attrs.frames[m.id]? = some f ∧
      f.Holds coded.attrs p params body locals ∧ 0 ≤ f.locsSize.toInt ∧ 0 ≤ f.argsSize.toInt := by
  have hmem := (Linear.mem_walk_of_mem_functions hfn).2
  obtain ⟨n, ⟨label, fp, rv, -, hframe⟩, hparams, hbody⟩ := h.arranged_function hmem
  have hsized := Attributes.sized h.positive h.definitions
  -- The layout of the body starts with an empty frame.
  have hfills := body.fills_of_arranged hsized hbody (b := 0) ⟨rfl, rfl, rfl⟩
  have hbound := Program.bound_of_resolved h.resolved
  have hscalar : ∀ p ∈ params, p.IsScalar t := fun p hp => ((hbound _ hmem).1 p hp).2
  have harea : coded.attrs.area? = laid.attrs.area? := by
    funext id
    rw [Attributes.area?, Attributes.area?, h.generates.accesses]
  have hlocs := hfills.needs.locsSize
  have hlocals : LocalsAt t laid.attrs (n.depth + 1) body.locals 0 := hfills.locals
  obtain ⟨locals, hareas, hdisjoint, hwithin⟩ := hlocals.areas (by simpa using hfits.locals)
  rw [Nat.zero_add] at hlocs hwithin
  have htoInt : (body.needs t { depth := n.depth + 1 }).locsSize.toInt = t.exactSum body.locals := by
    rw [hlocs]
    exact Int64.toInt_ofNat_of_lt hfits.locals
  have hargs : 0 ≤ (body.needs t { depth := n.depth + 1 }).argsSize.toInt :=
    Int64.le_iff_toInt_le.mp hfills.grows
  refine ⟨_, locals, (congrArg (·[m.id]?) h.generates.frames).trans hframe,
    ⟨?_, ?_, hdisjoint, ?_, fun code hcode call hcall => ?_⟩, htoInt ▸ Int.natCast_nonneg _, hargs⟩
  · rw [harea]
    have hsum := hfits.params
    rw [Param.exactSum_of_isScalar hscalar] at hsum
    exact Param.areas_of_arrangedAll (b := 0) hparams hscalar (by omega)
  · rw [harea]
    exact hareas
  · simpa [htoInt] using hwithin
  · -- Each call comes from a node of the body.
    have habsent : body ≠ .absent := by
      rintro rfl
      cases hcode
    obtain ⟨f', lo, hi, c, -, -, hc, hcoded, -⟩ := h.function_code hmem habsent
    cases hcode.symm.trans hc
    obtain ⟨node, hnode, hcalls⟩ := body.calls_of_code hcoded call hcall
    have hin := (hbound _ hmem).2 node (body.walk_inFunction_subset hnode)
    exact ⟨h.arguments_fit hfn hfits hframe hnode hcalls, h.placedCall hin hcalls⟩

/-- The code that is selected for a chunk of the program has no slots, and its temps have been
handed out. -/
theorem selected_tidy (h : Stages p t laid coded) {l : IR.LinearProgram} {w : Workspace}
    (hlinear : (Linear.program p).run.run coded = (.ok l, w)) {chunk : IR.CodeChunk}
    (hchunk : chunk ∈ l.code) {mode : ArgPassing} {σ σ' : Supply} (hσ : w.supply.temps ≤ σ.temps)
    {code : Code} (hselect : (chunk.select mode).run.run σ = (.ok code, σ')) :
    code.frame = chunk.frame ∧ Code.Tidy code.frame code σ' := by
  have hchunks := (Linear.program_spec (h.laidOut.mono h.generates) h.sound).of_run hlinear
  have hsound := ((IR.CodeChunk.select_sound mode (hchunks.2 chunk hchunk) hσ).of_run hselect).2
  have hnew : Ensures (chunk.select mode) σ fun c _ =>
      c.frame = chunk.frame ∧ c.tempSize = 0 ∧ c.spills = ∅ :=
    .bind (P := fun _ _ => True) (fun _ _ _ => trivial) fun _ _ _ => .pure ⟨rfl, rfl, rfl⟩
  obtain ⟨hframe, hsize, hspills⟩ := hnew _ _ hselect
  exact ⟨hframe, .new hsound hsize hspills⟩

end Stages

/-- **Frame areas do not overlap.** Let a program have been read without diagnostics and resolved
without errors, and take a function of it for which the sums of sizes stay in the range of words.
Its parameters are disjoint and lie above the static link, its local variables are disjoint and lie
in the area of the frame for them, and every call in its code stores its arguments in the argument
area, at the offsets where the callee has its parameters. Whatever code has been selected for the
function and however often registers have been allocated for it, with whatever outcome, the local
variables, the saved registers, the outgoing arguments and the slots of spilled temps are disjoint.
-/
theorem frame_areas_disjoint {n : Yaml.Node} {p : Program} {t : Attributes}
    (hread : Program.ofNode n = .ok p) (hresolve : p.number.resolve = .ok t) (σ : Supply) :
    ∃ laid coded l, Translated p.number { attrs := t, supply := σ } laid coded l ∧
      ∀ m name params type body, .fn m name params type body ∈ p.number.functions →
        FrameFits t params body → ∃ (f : Frame) (locals : List (Set Int)),
          coded.attrs.frames[m.id]? = some f ∧ f.Holds coded.attrs p.number params body locals ∧
          (body ≠ .absent → ∃ chunk ∈ l.code, chunk.frame = f) ∧
          ∀ w, (Linear.program p.number).run.run coded = (.ok l, w) →
            ∀ chunk ∈ l.code, chunk.frame = f → ∀ mode σ₁ code σ₂, w.supply.temps ≤ σ₁.temps →
              (chunk.select mode).run.run σ₁ = (.ok code, σ₂) → ∀ c σ₃, code.AllocatedFrom σ₂ c σ₃ →
                f.locsSize.toInt + 16 + 8 * c.spills.size + f.argsSize.toInt < 2 ^ 63 →
                c.frame = f ∧
                  (locals ++ c.savedArea :: c.outgoingArea :: c.slotAreas).Pairwise Disjoint := by
  obtain ⟨laid, coded, l, htranslated, h, hlinear⟩ := translated_of_accepted hread hresolve σ
  refine ⟨laid, coded, l, htranslated, fun m name params type body hfn hfits => ?_⟩
  obtain ⟨f, locals, hframe, hholds, hlocs, hargs⟩ := h.holds hfn hfits
  refine ⟨f, locals, hframe, hholds, fun hbody => hlinear.exists_frame hfn hbody hframe, ?_⟩
  rintro w hlinear chunk hchunk rfl mode σ₁ code σ₂ hσ hselect c σ₃ hfrom hsum
  obtain ⟨hcode, htidy⟩ := h.selected_tidy hlinear hchunk hσ hselect
  obtain ⟨-, hc, index, hslotted⟩ := hfrom.slotted htidy
  rw [hcode] at hc
  -- The sizes have not overflown, so the areas are the intervals that they describe.
  obtain ⟨locs, hlocs, hlocs'⟩ := Word.exists_ofNat_of_nonneg hlocs
  obtain ⟨args, hargs, hargs'⟩ := Word.exists_ofNat_of_nonneg hargs
  obtain ⟨hdisjoint, hbelow⟩ := hslotted.areas (hc ▸ hlocs) (hc ▸ hargs) (by omega)
  refine ⟨hc, List.pairwise_append.mpr ⟨hholds.disjoint, hdisjoint, fun area harea area' harea' => ?_⟩⟩
  -- The locals lie above the bound of their area, and what the allocator adds lies below it.
  have hlocal := (hholds.within area harea).trans Set.Ico_subset_Ici_self
  rw [hlocs'] at hlocal
  exact ((Set.Iio_disjoint_Ici (Int.le_refl _)).mono (hbelow area' harea') hlocal).symm

/-- A document whose function `main` has variables in two blocks and adds the results of two calls. -/
def sumOfSquares : Yaml.Node :=
  sequenceNode [
    mappingNode [("fun", scalarNode .str "square"), ("type", scalarNode .str "int"),
      ("pars", sequenceNode [mappingNode [("n", scalarNode .str "int")]]),
      ("body", mappingNode [("mul", sequenceNode [scalarNode .str "n", scalarNode .str "n"])])],
    mappingNode [("fun", scalarNode .str "main"), ("type", scalarNode .str "int"),
      ("body", mappingNode [("where", mappingNode [
        ("decls", sequenceNode
          [mappingNode [("var", scalarNode .str "x"), ("type", scalarNode .str "int")]]),
        ("expr", mappingNode [("where", mappingNode [
          ("decls", sequenceNode [
            mappingNode [("var", scalarNode .str "a"), ("type", scalarNode .str "[3]int")]]),
          ("expr", mappingNode [("add", sequenceNode [
            mappingNode [("call", sequenceNode [scalarNode .str "square", scalarNode .str "x"])],
            mappingNode [("call", sequenceNode
              [scalarNode .str "square", scalarNode .str "x"])]])])])])])])]]

/-- The program of this document. -/
def sumOfSquaresProgram : Program where
  mark := ⟨0, 1, 1⟩
  decls := [
    .fn ⟨0, 1, 1⟩ "square" [⟨⟨0, 1, 1⟩, "n", ⟨⟨0, 1, 1⟩, "int"⟩⟩] ⟨⟨0, 1, 1⟩, "int"⟩
      (.binary ⟨0, 1, 1⟩ .mul (.name ⟨0, 1, 1⟩ "n") (.name ⟨0, 1, 1⟩ "n")),
    .fn ⟨0, 1, 1⟩ "main" [] ⟨⟨0, 1, 1⟩, "int"⟩
      (.scope ⟨0, 1, 1⟩ [.var ⟨0, 1, 1⟩ "x" ⟨⟨0, 1, 1⟩, "int"⟩]
        (.scope ⟨0, 1, 1⟩ [.var ⟨0, 1, 1⟩ "a" ⟨⟨0, 1, 1⟩, "[3]int"⟩]
          (.binary ⟨0, 1, 1⟩ .add (.call ⟨0, 1, 1⟩ "square" [.name ⟨0, 1, 1⟩ "x"])
            (.call ⟨0, 1, 1⟩ "square" [.name ⟨0, 1, 1⟩ "x"]))))]

theorem ofNode_sumOfSquares : Program.ofNode sumOfSquares = .ok sumOfSquaresProgram := rfl

theorem toOption_eq_some {ε α : Type} {x : Except ε α} {a : α} (h : x.toOption = some a) : x = .ok a := by
  cases x with
  | error e => cases h
  | ok b => cases h; rfl

/-- The temps to which an attempt to colour the code gives no colour, unless it fails. -/
def Code.uncolored? (c : Code) (k : Int) (avoid : TempSet) : Option (List Temp) :=
  (c.tryColor k avoid).toOption.map fun r => r.2.spilled

/-- Allocation takes two rounds if some temps get no colour in the first one and all of them get one
in the second. -/
theorem Code.allocate_twice {c c₁ : Code} {k : Int} {σ σ₁ : Supply} {t : Temp} {ts : List Temp}
    {made : TempSet} (hmin : minRegisters ≤ k) (hmax : k ≤ maxRegisters)
    (htemps : 0 < (c.temps.erase c.frame.fp).size) (hfirst : c.uncolored? k ∅ = some (t :: ts))
    (hspill : (c.spillAll ∅ (t :: ts)).run σ = ((c₁, made), σ₁))
    (hsecond : c₁.uncolored? k made = some []) :
    ∃ c' a, (c.allocate k).run σ = ((c', .ok a), σ₁) ∧ c'.spills = c₁.spills := by
  obtain ⟨n, hn⟩ := Nat.exists_eq_succ_of_ne_zero htemps.ne'
  obtain ⟨⟨g, colors⟩, hcolors, hspilled⟩ := Option.map_eq_some_iff.mp hfirst
  obtain ⟨⟨g₁, colors₁⟩, hcolors₁, hspilled₁⟩ := Option.map_eq_some_iff.mp hsecond
  have hround := toOption_eq_some hcolors
  have hround₁ := toOption_eq_some hcolors₁
  dsimp only at hspilled hspilled₁
  rw [Code.allocate, if_neg (by omega), hn]
  simp only [Code.allocateRounds, hround, hspilled, List.isEmpty_cons, Bool.false_eq_true, if_false,
    run_bind_state, hspill, hround₁, hspilled₁, List.isEmpty_nil, if_true]
  exact ⟨_, _, rfl, rfl⟩

/-- The second function of a program: the frame that the layout gives to the node with the number `id`, the
frame of the chunk, and the code that is selected for it, with the supply that this leaves. -/
def secondFunction (p : Program) (id : NodeId) : Option (Option Frame × Frame × Code × Supply) := do
  let t ← p.resolve.toOption
  let coded := ((Generation.program p).run.run ((Layout.program p).run.run { attrs := t }).2).2
  let linear := (Linear.program p).run.run coded
  let l ← linear.1.toOption
  let chunk ← l.code[1]?
  let selected := (chunk.select .immediate).run.run linear.2.supply
  let code ← selected.1.toOption
  return (coded.attrs.frames[id]?, chunk.frame, code, selected.2)

theorem secondFunction_eq_some {p : Program} {id : NodeId} {r : Option Frame × Frame × Code × Supply}
    (h : secondFunction p id = some r) : ∃ t, p.resolve = .ok t ∧
      ∀ laid coded l, Translated p { attrs := t } laid coded l → ∃ w chunk,
        (Linear.program p).run.run coded = (.ok l, w) ∧ chunk ∈ l.code ∧
        (chunk.select .immediate).run.run w.supply = (.ok r.2.2.1, r.2.2.2) ∧
        r.1 = coded.attrs.frames[id]? ∧ r.2.1 = chunk.frame := by
  obtain ⟨t, ht, h⟩ := Option.bind_eq_some_iff.mp h
  refine ⟨t, toOption_eq_some ht, fun laid coded l htranslated => ?_⟩
  obtain ⟨w, hlinear⟩ := htranslated.linear
  rw [htranslated.layout, htranslated.generation] at h
  dsimp only at h
  rw [hlinear] at h
  obtain ⟨l', hl', h⟩ := Option.bind_eq_some_iff.mp h
  cases hl'
  obtain ⟨chunk, hchunk, h⟩ := Option.bind_eq_some_iff.mp h
  obtain ⟨code, hcode, h⟩ := Option.bind_eq_some_iff.mp h
  cases h
  exact ⟨w, chunk, hlinear, List.mem_of_getElem? hchunk, Prod.ext (toOption_eq_some hcode) rfl, rfl, rfl⟩

/-- The body of `main` with its numbers. -/
def sumOfSquaresBody : Expr :=
  .scope ⟨10, 1, 1⟩ [.var ⟨11, 1, 1⟩ "x" ⟨⟨12, 1, 1⟩, "int"⟩]
    (.scope ⟨13, 1, 1⟩ [.var ⟨14, 1, 1⟩ "a" ⟨⟨15, 1, 1⟩, "[3]int"⟩]
      (.binary ⟨16, 1, 1⟩ .add (.call ⟨17, 1, 1⟩ "square" [.name ⟨18, 1, 1⟩ "x"])
        (.call ⟨19, 1, 1⟩ "square" [.name ⟨20, 1, 1⟩ "x"])))

theorem mem_sumOfSquares : .fn ⟨8, 1, 1⟩ "main" [] ⟨⟨9, 1, 1⟩, "int"⟩ sumOfSquaresBody ∈
    sumOfSquaresProgram.number.functions := List.mem_of_getElem? (i := 1) rfl

theorem fits_sumOfSquares {t : Attributes} (h : sumOfSquaresProgram.number.resolve = .ok t) :
    FrameFits t [] sumOfSquaresBody := by
  have hall : sumOfSquaresProgram.number.resolve.toOption.all
      (fun t => decide (FrameFits t [] sumOfSquaresBody)) = true := by decide +kernel
  rw [h] at hall
  exact of_decide_eq_true hall

/-- The first round with two registers leaves three temps of `main` without one. -/
theorem uncolored_sumOfSquares : (secondFunction sumOfSquaresProgram.number 8).map (fun r =>
    r.2.2.1.uncolored? 2 ∅) = some (some [⟨21⟩, ⟨14⟩, ⟨20⟩]) := by decide +kernel

/-- The second round leaves none. -/
theorem colored_sumOfSquares : (secondFunction sumOfSquaresProgram.number 8).map (fun r =>
    let spilled := (r.2.2.1.spillAll ∅ [⟨21⟩, ⟨14⟩, ⟨20⟩]).run r.2.2.2
    spilled.1.1.uncolored? 2 spilled.1.2) = some (some []) := by decide +kernel

/-- With two registers three temps of `main` are spilled, and nothing in its frame overlaps. -/
theorem frame_areas_disjoint_sumOfSquares : ∃ t laid coded l,
    sumOfSquaresProgram.number.resolve = .ok t ∧
      Translated sumOfSquaresProgram.number { attrs := t } laid coded l ∧
      ∃ (f : Frame) (locals : List (Set Int)) (c : Code), coded.attrs.frames[8]? = some f ∧
        f.Holds coded.attrs sumOfSquaresProgram.number [] sumOfSquaresBody locals ∧ locals.length = 2 ∧
        c.frame = f ∧ c.slotAreas.length = 3 ∧
        (locals ++ c.savedArea :: c.outgoingArea :: c.slotAreas).Pairwise Disjoint := by
  have hrun : (secondFunction sumOfSquaresProgram.number 8).map (fun r => (decide (r.1 = some r.2.1),
      r.2.1.locsSize, r.2.1.argsSize, decide (0 < (r.2.2.1.temps.erase r.2.2.1.frame.fp).size),
      ((r.2.2.1.spillAll ∅ [⟨21⟩, ⟨14⟩, ⟨20⟩]).run r.2.2.2).1.1.spills.size))
      = some (true, 32, 16, true, 3) := by decide +kernel
  obtain ⟨r, hr, hvalues⟩ := Option.map_eq_some_iff.mp hrun
  simp only [Prod.mk.injEq, decide_eq_true_eq] at hvalues
  obtain ⟨hsame, hlocs, hargs, htemps, hsize⟩ := hvalues
  have hfirst := uncolored_sumOfSquares
  have hsecond := colored_sumOfSquares
  rw [hr] at hfirst hsecond
  rcases hspill : (r.2.2.1.spillAll ∅ [⟨21⟩, ⟨14⟩, ⟨20⟩]).run r.2.2.2 with ⟨⟨c₁, made⟩, σ₁⟩
  simp only [Option.map_some, Option.some.injEq, hspill] at hfirst hsecond hsize
  obtain ⟨c, a, hallocate, hspills⟩ := Code.allocate_twice (by decide) (by decide) htemps hfirst hspill
    hsecond
  rw [← hspills] at hsize
  obtain ⟨t, hresolve, hstages⟩ := secondFunction_eq_some hr
  obtain ⟨laid, coded, l, htranslated, hall⟩ := frame_areas_disjoint ofNode_sumOfSquares hresolve {}
  obtain ⟨w, chunk, hlinear, hchunk, hselect, hid, hframe⟩ := hstages laid coded l htranslated
  rw [hid, hframe] at hsame
  rw [hframe] at hlocs hargs
  obtain ⟨f, locals, hf, hholds, -, hdisjoint⟩ :=
    hall _ _ _ _ _ mem_sumOfSquares (fits_sumOfSquares hresolve)
  cases hf.symm.trans hsame
  obtain ⟨hc, hareas⟩ := hdisjoint w hlinear chunk hchunk rfl .immediate w.supply _ _ (Int.le_refl _)
    hselect c _ (.again .start hallocate (Int.le_refl _)) (by rw [hlocs, hargs, hsize]; decide)
  refine ⟨t, laid, coded, l, hresolve, htranslated, chunk.frame, locals, c, hsame, hholds, ?_, hc, ?_,
    hareas⟩
  · have hlength := congrArg List.length hholds.areas
    rw [List.length_map, List.length_map] at hlength
    exact hlength.symm
  · rw [Code.slotAreas, List.length_map, Std.TreeMap.length_toList, hsize]

end MmixBackend
