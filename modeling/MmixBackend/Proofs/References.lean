import MmixBackend.Proofs.UniqueLabels

/-!
# References in the text of a program

Instructions refer to labels of data, of functions and of their branches, and to the runtime
routines. Of an executable program all of them are defined in its text, with one exception: a
function without a body that is declared inside of another function. Its frame has a label from the
supply, like that of any nested function, and no code is written for it, so calls of it refer to a
label that is nowhere. Global declarations of routines have the label of the routine.

## Main statements

- `CompiledFrom.label_mem_iff`: the label of a routine is defined if and only if it is declared globally.
- `references_defined_or_nested`: what the text of a program refers to.
-/

namespace MmixBackend

open Source Assembly

/-! ## §1 Routines -/

namespace Source

/-- Functions without a body are runtime routines, wherever they are declared. -/
def Program.RoutinesOnly (p : Program) : Prop :=
  ∀ m name params type, .fn m name params type .absent ∈ p.functions → name ∈ Resolve.runtimeNames

/-- The program has a main function. -/
def Program.HasMain (p : Program) : Prop :=
  ∃ m params type body, .fn m "main" params type body ∈ p.decls ∧ body ≠ .absent

theorem Program.mem_walkAll_of_labelled {p : Program} {n : Node} (h : n ∈ p.labelled) :
    n ∈ Decl.walkAll everywhere p.decls := by
  have hflat : n ∈ (Decl.walkAll everywhere p.decls).flatMap fun n => [n] := by
    rw [← Multiset.mem_coe, coe_flatMap_walkAll, Multiset.mem_add]
    exact .inr (by simpa [Program.labelled] using h)
  simpa using hflat

theorem Program.mem_nestedRoutines {p : Program} {t : Attributes} {l : Label}
    (h : l ∈ p.nestedRoutines t) :
    ∃ m name params type f, .fn m name params type .absent ∈ p.functions ∧ t.frames[m.id]? = some f ∧
      f.label = l := by
  obtain ⟨n, hn, hl⟩ := List.mem_flatMap.mp h
  unfold Attributes.functionLabels at hl
  split at hl
  · next m name params type body =>
    split at hl
    · cases hl
    · next habsent =>
      have hbody : body = .absent := by
        cases body with
        | absent => rfl
        | _ => exact absurd rfl habsent
      subst hbody
      obtain ⟨f, hf, rfl⟩ := List.mem_map.mp hl
      exact ⟨m, name, params, type, f, Linear.mem_functions
        (mem_walkAll_of_labelled hn), by simpa using hf, rfl⟩
  · cases hl

end Source

theorem mem_runtimeLabels {name : String} (h : name ∈ Resolve.runtimeNames) :
    Label.global name ∈ runtimeLabels := by
  simp only [Resolve.runtimeNames, List.mem_cons, List.not_mem_nil, or_false] at h
  rcases h with rfl | rfl | rfl | rfl | rfl <;> decide

/-! ## §2 Compiled programs -/

namespace CompiledFrom

variable {o : Options} {p : Program} {t : Attributes} {laid coded : Workspace} {c : Compiled}

/-- The labels of the text, and those of nested functions without a body. -/
def Known (p : Program) (coded : Workspace) (c : Compiled) (l : Label) : Prop :=
  l ∈ programLabels c.linear.data (c.units.map CompiledUnit.code) ∨ l ∈ p.nestedRoutines coded.attrs

/-- What the text defines: fixed labels, those of the routines and those of the program. -/
theorem mem_programLabels (h : CompiledFrom o p t laid coded c) {l : Label} :
    l ∈ programLabels c.linear.data (c.units.map CompiledUnit.code) ↔
      l ∈ fixedLabels ∨ l ∈ runtimeLabels ∨ l ∈ c.linear.labels := by
  rw [(h.perm_programLabels h.provides_legible).mem_iff, List.mem_append, List.mem_append, or_assoc]

/-- Labels of nested functions without a body are not defined. -/
theorem nested_not_mem (h : CompiledFrom o p t laid coded c) {l : Label}
    (hl : l ∈ p.nestedRoutines coded.attrs) :
    l ∉ programLabels c.linear.data (c.units.map CompiledUnit.code) := by
  rw [h.mem_programLabels, ← or_assoc, ← List.mem_append, ← List.mem_append]
  have hnodup := h.nodup
  rw [← List.append_assoc] at hnodup
  exact fun hmem => (List.nodup_append.mp hnodup).2.2 l hmem l hl rfl

/-- **The label of a routine is defined if and only if the routine is declared globally**, and then
it is its name. -/
theorem label_mem_iff (h : CompiledFrom o p t laid coded c) (hroutines : p.RoutinesOnly) {m : Mark}
    {name : String} {params : List Param} {type : TypeExpr} {f : Frame}
    (hmem : .fn m name params type .absent ∈ p.functions) (hframe : coded.attrs.frames[m.id]? = some f) :
    (.fn m name params type .absent ∈ p.decls → f.label = .global name) ∧
      (f.label ∈ programLabels c.linear.data (c.units.map CompiledUnit.code) ↔
        .fn m name params type .absent ∈ p.decls) := by
  have hglobal : .fn m name params type .absent ∈ p.decls → f.label = .global name := by
    intro hdecl
    rw [h.stages.generates.frames] at hframe
    exact h.stages.label_eq_global hdecl hframe
  refine ⟨hglobal, fun hdefined => ?_, fun hdecl => ?_⟩
  · rcases mem_decls_or_labelled (Linear.mem_walk_of_mem_functions hmem).2 with ⟨d, hd, heq⟩ | hnested
    · cases heq
      exact hd
    · refine absurd hdefined (h.nested_not_mem (List.mem_flatMap.mpr ⟨_, hnested, ?_⟩))
      simp [Attributes.functionLabels, Expr.isAbsent, hframe]
  · rw [h.mem_programLabels, hglobal hdecl]
    exact .inr (.inl (mem_runtimeLabels (hroutines m name params type hmem)))

theorem provides_known (h : CompiledFrom o p t laid coded c) (hroutines : p.RoutinesOnly) :
    Provides p coded c (Known p coded c) where
  labels l hl := (List.mem_append.mp hl).imp (fun hl => h.mem_programLabels.mpr (.inr (.inr hl))) id
  routines m name params type hmem := by
    refine .inl (h.mem_programLabels.mpr (.inr (.inl (mem_runtimeLabels ?_))))
    exact hroutines m name params type (Linear.mem_functions (Decl.mem_walkAll hmem))
  new := .inl (h.mem_programLabels.mpr (.inr (.inl (by decide))))
  del := .inl (h.mem_programLabels.mpr (.inr (.inl (by decide))))

theorem legible_of_known (h : CompiledFrom o p t laid coded c) (l : Label) (hl : Known p coded c l) :
    l.Legible := by
  rcases hl with hl | hl
  · rcases h.mem_programLabels.mp hl with hl | hl | hl
    · exact (by decide : ∀ l ∈ fixedLabels, l.Legible) l hl
    · exact (by decide : ∀ l ∈ runtimeLabels, l.Legible) l hl
    · exact h.legible l (List.mem_append_left _ hl)
  · exact h.legible l (List.mem_append_right _ hl)

/-- The label of the main function is defined. -/
theorem known_main (h : CompiledFrom o p t laid coded c) (hmain : p.HasMain) :
    Known p coded c (.global "main") := by
  obtain ⟨m, params, type, body, hmem, hbody⟩ := hmain
  have hnode : .decl _ ∈ Decl.walkAll everywhere p.decls := Decl.mem_walkAll hmem
  obtain ⟨f, lo, hi, e, -, hframe, -⟩ := h.stages.function_code hnode hbody
  rcases h.function_label hnode hframe with hl | ⟨habsent, -⟩
  · rw [h.stages.label_eq_global hmem hframe] at hl
    exact (List.mem_append.mp hl).imp (fun hl => h.mem_programLabels.mpr (.inr (.inr hl))) id
  · exact absurd habsent hbody

end CompiledFrom

/-! ## §3 Accepted programs -/

/-- **What the text of a program refers to.** Let a program with a main function, whose functions
without a body are runtime routines, be read without diagnostics, resolved without errors and
compiled. Calls refer to the labels of frames. The label of a routine is defined by the text if and
only if the routine is declared globally, and then it is the name of the routine. Every other label
that an instruction of the text refers to is defined in the text. -/
theorem references_defined_or_nested {n : Yaml.Node} {p : Program} {t : Attributes}
    {o : Options} {σ : Supply} {c : Compiled} {listings : Listings} {text : String}
    (hread : Program.ofNode n = .ok p) (hresolve : p.number.resolve = .ok t)
    (hcompile : compile o p.number { attrs := t, supply := σ } = (.ok c, listings))
    (htext : c.assembly = .ok text) (hmain : p.number.HasMain) (hroutines : p.number.RoutinesOnly) :
    ∃ laid coded, Translated p.number { attrs := t, supply := σ } laid coded c.linear ∧
      (∀ m name params type, .fn m name params type .absent ∈ p.number.functions →
        ∃ f, coded.attrs.frames[m.id]? = some f ∧
          (.fn m name params type .absent ∈ p.number.decls → f.label = .global name) ∧
          (f.label ∈ definedLabels text ↔ .fn m name params type .absent ∈ p.number.decls)) ∧
      ∀ r ∈ references text, r ∈ definedLabels text ∨
        ∃ m name params type f, .fn m name params type .absent ∈ p.number.functions ∧
          .fn m name params type .absent ∉ p.number.decls ∧ coded.attrs.frames[m.id]? = some f ∧
          r = f.label := by
  obtain ⟨laid, coded, htranslated, h⟩ := compiledFrom_of_compile hread hresolve hcompile
  -- The buffers of the run-time system are defined by the frame of the text itself.
  have hbuffers : ∀ l ∈ bufferLabels, CompiledFrom.Known p.number coded c l := fun l hl =>
    .inl (h.mem_programLabels.mpr (.inl (List.mem_append_left _ hl)))
  obtain ⟨hdefined, hreferences⟩ := h.read_assembly (h.provides_known hroutines) h.legible_of_known
    (h.known_main hmain) hbuffers htext
  refine ⟨laid, coded, htranslated, fun m name params type hmem => ?_, fun r hr => ?_⟩
  · obtain ⟨⟨f, hframe, -⟩, -⟩ := h.stages.laidOut.nodes _ (Linear.mem_walk_of_mem_functions hmem).2
    rw [← h.stages.generates.frames] at hframe
    rw [hdefined]
    exact ⟨f, hframe, h.label_mem_iff hroutines hmem hframe⟩
  · refine (hreferences r hr).imp (fun hr => hdefined ▸ hr) fun hr => ?_
    obtain ⟨m, name, params, type, f, hmem, hframe, rfl⟩ := Program.mem_nestedRoutines hr
    refine ⟨m, name, params, type, f, hmem, fun hdecl => h.nested_not_mem hr ?_, hframe, rfl⟩
    exact (h.label_mem_iff hroutines hmem hframe).2.mpr hdecl

/-- A document whose function `main` declares `putChar` for itself. -/
def nestedRoutine : Yaml.Node :=
  sequenceNode [mappingNode [
    ("fun", scalarNode .str "main"), ("type", scalarNode .str "int"),
    ("body", mappingNode [("where", mappingNode [
      ("decls", sequenceNode
        [mappingNode [("fun", scalarNode .str "putChar"), ("type", scalarNode .str "void"),
        ("pars", sequenceNode [mappingNode [("c", scalarNode .str "char")]])]]),
      ("expr", sequenceNode [
        mappingNode [("call", sequenceNode [scalarNode .str "putChar",
          mappingNode [("cast", sequenceNode [scalarNode .int "65", scalarNode .str "char"])]])],
        scalarNode .int "0"])])])]]

/-- The program of this document. -/
def nestedRoutineProgram : Program where
  mark := ⟨0, 1, 1⟩
  decls := [.fn ⟨0, 1, 1⟩ "main" [] ⟨⟨0, 1, 1⟩, "int"⟩ (.scope ⟨0, 1, 1⟩
    [.fn ⟨0, 1, 1⟩ "putChar" [⟨⟨0, 1, 1⟩, "c", ⟨⟨0, 1, 1⟩, "char"⟩⟩] ⟨⟨0, 1, 1⟩, "void"⟩ .absent]
    (.block ⟨0, 1, 1⟩ [
      .eval ⟨0, 1, 1⟩ (.call ⟨0, 1, 1⟩ "putChar" [.cast ⟨0, 1, 1⟩ (.atom ⟨0, 1, 1⟩ .int "65")
        ⟨⟨0, 1, 1⟩, "char"⟩]),
      .eval ⟨0, 1, 1⟩ (.atom ⟨0, 1, 1⟩ .int "0")]))]

theorem ofNode_nestedRoutine : Program.ofNode nestedRoutine = .ok nestedRoutineProgram := rfl

theorem hasMain_nestedRoutine : nestedRoutineProgram.number.HasMain :=
  ⟨_, _, _, _, List.mem_cons_self, by simp⟩

theorem routinesOnly_nestedRoutine : nestedRoutineProgram.number.RoutinesOnly := by
  intro m name params type hmem
  rcases List.mem_cons.mp hmem with heq | hmem
  · cases heq
  · cases List.mem_singleton.mp hmem
    decide

/-- The declaration of `putChar` is not a global one. -/
theorem exists_nested_putChar : ∃ m params type,
    .fn m "putChar" params type .absent ∈ nestedRoutineProgram.number.functions ∧
      .fn m "putChar" params type .absent ∉ nestedRoutineProgram.number.decls := by
  refine ⟨_, _, _, List.mem_cons_of_mem _ List.mem_cons_self, fun hmem => ?_⟩
  cases List.mem_singleton.mp hmem

theorem references_defined_or_nested_putChar : ∃ t c listings text laid coded m params type f,
    nestedRoutineProgram.number.resolve = .ok t ∧
      compile { registers := 8 } nestedRoutineProgram.number { attrs := t } = (.ok c, listings) ∧
      c.assembly = .ok text ∧ Translated nestedRoutineProgram.number { attrs := t } laid coded c.linear ∧
      .fn m "putChar" params type .absent ∈ nestedRoutineProgram.number.functions ∧
      coded.attrs.frames[m.id]? = some f ∧ f.label ∉ definedLabels text := by
  have haccepted : nestedRoutineProgram.number.resolve.isOk = true := by decide +kernel
  rcases hresolve : nestedRoutineProgram.number.resolve with diagnostics | t
  · rw [hresolve] at haccepted
    cases haccepted
  obtain ⟨c, listings, text, hcompile, htext⟩ := exists_compiled ofNode_nestedRoutine hresolve
    (o := { registers := 8 }) (by decide) (by decide) {}
  obtain ⟨laid, coded, htranslated, hlabels, -⟩ :=
    references_defined_or_nested ofNode_nestedRoutine hresolve
    hcompile htext hasMain_nestedRoutine routinesOnly_nestedRoutine
  obtain ⟨m, params, type, hmem, hnested⟩ := exists_nested_putChar
  obtain ⟨f, hframe, -, hdefined⟩ := hlabels m "putChar" params type hmem
  exact ⟨t, c, listings, text, laid, coded, m, params, type, f, rfl, hcompile, htext, htranslated, hmem,
    hframe, mt hdefined.mp hnested⟩

end MmixBackend
