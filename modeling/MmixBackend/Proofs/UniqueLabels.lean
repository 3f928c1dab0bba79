import MmixBackend.Proofs.ProgramLabels

/-!
# Labels are unique and control flow is closed

No label is defined twice in the text of an accepted program. Names of global entities start with an
underscore and differ from each other and from those of the runtime routines; all other labels are
taken from the supply, or are among four fixed symbols. So a jump has one target at most, and the
code of a function, whose labels stand in the text once, is left for its exit label only.

## Main statements

- `CompiledFrom.nodup`: the labels of a program are all different.
- `CompiledFrom.unit_confined`: control stays inside of the code of its functions.
- `CompiledFrom.read_assembly`: what its text defines and refers to.
- `labels_unique_and_flow_closed`: the text of an accepted program and the code of its functions.
-/

namespace MmixBackend

open Source Assembly Relation

/-! ## §1 Names -/

namespace Source

open Reading in
theorem Reader.ident_isIdent (n : Yaml.Node) : (ident n).Gives fun s => isIdent s = true := by
  unfold ident
  split
  · split
    · exact .pure ‹_›
    · exact .failed
  · exact .failed

open Reading in
theorem Reader.decl_isIdent (n : Yaml.Node) :
    (decl n).Gives fun d => ∀ d' ∈ d.toList, isIdent d'.name = true := by
  cases n with
  | mapping m t entries =>
    rw [decl]
    refine (Gives.trivial _).bind fun _ _ => ?_
    dsimp only
    split
    · refine (ident_isIdent _).bind fun name hname => (Gives.trivial _).bind fun _ _ =>
        (Gives.trivial _).bind fun _ _ => (Gives.trivial _).bind fun _ _ => .pure ?_
      exact List.forall_mem_singleton.mpr hname
    · refine (Gives.trivial _).bind fun _ _ => (ident_isIdent _).bind fun name hname =>
        (Gives.trivial _).bind fun _ _ => .pure ?_
      exact List.forall_mem_singleton.mpr hname
    · refine (Gives.trivial _).bind fun _ _ => (ident_isIdent _).bind fun name hname =>
        (Gives.trivial _).bind fun _ _ => .pure ?_
      exact List.forall_mem_singleton.mpr hname
    · exact .failed
  | scalar | sequence | reference =>
    rw [decl] <;> first | exact .failed | simp

open Reading in
theorem Reader.decls_isIdent (ns : List Yaml.Node) :
    (decls ns).Gives fun ds => ∀ d ∈ ds, isIdent d.name = true := by
  induction ns with
  | nil =>
    rw [decls]
    exact .pure (by simp)
  | cons n ns ih =>
    rw [decls]
    refine (decl_isIdent n).bind fun d hd => ih.bind fun rest hrest => .pure ?_
    exact List.forall_mem_append.mpr ⟨hd, hrest⟩

theorem Decl.name_number (d : Decl) (i : NodeId) : (d.number.run i).1.name = d.name := by
  cases d <;> rfl

theorem Decl.names_numberAll (ds : List Decl) (i : NodeId) :
    ((Decl.numberAll ds).run i).1.map Decl.name = ds.map Decl.name := by
  induction ds generalizing i with
  | nil =>
    rw [Decl.numberAll]
    rfl
  | cons d ds ih =>
    rw [Decl.numberAll, List.map_cons, ← ih (d.number.run i).2, ← Decl.name_number d i]
    rfl

/-- **The global names of a program that has been read are identifiers.** -/
theorem Program.isIdent_of_ofNode {n : Yaml.Node} {p : Program} (h : Program.ofNode n = .ok p) {d : Decl}
    (hd : d ∈ p.number.decls) : isIdent d.name = true := by
  have hnames : p.number.decls.map Decl.name = p.decls.map Decl.name := Decl.names_numberAll p.decls 1
  have hmem : d.name ∈ p.number.decls.map Decl.name := List.mem_map_of_mem hd
  rw [hnames] at hmem
  obtain ⟨d', hd', hname⟩ := List.mem_map.mp hmem
  rw [← hname]
  unfold Program.ofNode at h
  dsimp only at h
  split at h
  case isTrue hempty =>
    cases h
    have hdiag := List.isEmpty_iff.mp hempty
    cases n with
    | sequence m t items =>
      have hread : (Reader.program (.sequence m t items)).Gives fun p =>
          ∀ d ∈ p.decls, isIdent d.name = true :=
        (Reader.decls_isIdent items).bind fun _ h => .pure h
      exact hread hdiag d' hd'
    | _ => cases hdiag
  case isFalse => cases h

end Source

/-! ## §2 Different labels -/

theorem Label.head?_global (name : String) : (Label.global name).toList.head? = some '_' := by
  simp [Label.global]

theorem Label.head?_numbered (n : Int) : (Label.numbered n).toList.head? = some 'L' := by
  simp [Label.numbered]

theorem Label.global_injective : Function.Injective Label.global := fun _ _ h =>
  (String.append_right_inj "_").mp h

/-- The symbols that stand in the text of every program, apart from the runtime routines. -/
def Assembly.fixedLabels : List Label := bufferLabels ++ ["Main"]

namespace Source

/-- The labels of global variables and of global functions with a body. -/
def Program.globalLabels (p : Program) : List Label :=
  p.decls.flatMap fun d => d.variableLabels ++ d.functionLabels

theorem Program.globalLabels_sublist (p : Program) :
    p.globalLabels.Sublist (p.decls.map fun d => .global d.name) := by
  unfold Program.globalLabels
  induction p.decls with
  | nil => exact .slnil
  | cons d ds ih =>
    rw [List.flatMap_cons, List.map_cons, ← List.singleton_append]
    refine List.Sublist.append ?_ ih
    cases d with
    | fn m name params type body =>
      simp only [Decl.variableLabels, Decl.functionLabels, List.nil_append]
      split
      · exact List.nil_sublist _
      · exact .refl _
    | var m name type => exact .refl _
    | _ => exact List.nil_sublist _

/-- A global variable, or a global function with a body, does not have the name of a runtime routine. -/
theorem Program.WellNamed.not_runtime {p : Program} (h : p.WellNamed) {l : Label}
    (hl : l ∈ p.globalLabels) : l ∉ runtimeLabels := by
  obtain ⟨d, hd, hl⟩ := List.mem_flatMap.mp hl
  have hpermitted := h.permitted d hd
  have hruntime : ∀ name : String, name ∉ Resolve.runtimeNames → Label.global name ∉ runtimeLabels := by
    intro name hname hmem
    have hnames : runtimeLabels = ["getChar", "putChar", "new", "del", "exit"].map Label.global := rfl
    rw [hnames, List.mem_map_of_injective Label.global_injective] at hmem
    simp only [Resolve.runtimeNames, List.mem_cons, List.not_mem_nil, or_false] at hname hmem
    tauto
  cases d with
  | fn m name params type body =>
    simp only [Decl.variableLabels, Decl.functionLabels, List.nil_append] at hl
    split at hl
    · cases hl
    · next hbody =>
      rw [List.mem_singleton.mp hl]
      refine hruntime name fun hname => hbody ?_
      rw [hpermitted hname]
      rfl
  | var m name type =>
    rw [show l = .global name from List.mem_singleton.mp hl]
    exact hruntime name hpermitted
  | _ => cases hl

/-- **The names of global entities, the runtime routines and the fixed symbols are all different.** -/
theorem Program.WellNamed.nodup {p : Program} (h : p.WellNamed) :
    (fixedLabels ++ runtimeLabels ++ p.globalLabels).Nodup := by
  have hsublist := p.globalLabels_sublist
  have hnames : (p.decls.map fun d => Label.global d.name).Nodup := by
    have := h.distinct.map Label.global_injective
    rwa [List.map_map] at this
  refine List.Nodup.append (by decide) (hnames.sublist hsublist) fun l hl hl' => ?_
  rcases List.mem_append.mp hl with hl | hl
  · obtain ⟨d, -, rfl⟩ := List.mem_map.mp (hsublist.subset hl')
    have hhead : ∀ l ∈ fixedLabels, l.toList.head? ≠ some '_' := by decide
    exact hhead _ hl (Label.head?_global d.name)
  · exact h.not_runtime hl' hl

end Source

/-- Names do not look like labels from the supply. -/
theorem Label.numbered_not_mem (p : Program) (n : Int) :
    Label.numbered n ∉ fixedLabels ++ runtimeLabels ++ p.globalLabels := by
  intro hmem
  rcases List.mem_append.mp hmem with hmem | hmem
  · have hhead : ∀ l ∈ fixedLabels ++ runtimeLabels, l.toList.head? ≠ some 'L' := by decide
    exact hhead _ hmem (Label.head?_numbered n)
  · obtain ⟨d, -, hd⟩ := List.mem_map.mp (p.globalLabels_sublist.subset hmem)
    have hhead := Label.head?_numbered n
    rw [← hd, Label.head?_global] at hhead
    cases hhead

/-! ## §3 Compiled programs -/

/-- The labels of the data and the code of a program. -/
def IR.LinearProgram.labels (l : IR.LinearProgram) : List Label :=
  l.data.map StaticData.label ++ l.code.flatMap IR.CodeChunk.labels

/-- A program whose global names are in order, and what its compilation has gone through. -/
structure CompiledFrom (o : Options) (p : Program) (t : Attributes) (laid coded : Workspace)
    (c : Compiled) :
    Prop where
  named : p.WellNamed
  idents : ∀ d ∈ p.decls, isIdent d.name = true
  stages : Stages p t laid coded
  linear : Linear.Describes coded.attrs p c.linear
  labels : ∃ (first last : Int) (taken : Multiset Label), Label.Taken first last taken ∧
    ((c.linear.labels ++ p.nestedRoutines coded.attrs : List Label) : Multiset Label)
      = p.globalLabels + taken
  units : List.Forall₂ (Compile.UnitOf o) c.linear.code c.units

/-- **What the compilation of an accepted program has gone through.** -/
theorem compiledFrom_of_compile {n : Yaml.Node} {p : Program} {t : Attributes} {o : Options} {σ : Supply}
    {c : Compiled} {listings : Listings} (hread : Program.ofNode n = .ok p)
    (hresolve : p.number.resolve = .ok t)
    (hcompile : compile o p.number { attrs := t, supply := σ } = (.ok c, listings)) :
    ∃ laid coded, Translated p.number { attrs := t, supply := σ } laid coded c.linear ∧
      CompiledFrom o p.number t laid coded c := by
  have hcomplete := p.number_spec.2 (Program.complete_of_ofNode hread)
  obtain ⟨-, hunits, laid, coded, htranslated⟩ := compile_stages hcompile
  obtain ⟨laid', coded', l', htranslated', hstages, hlinear⟩ := translated_of_accepted hread hresolve σ
  obtain ⟨rfl, rfl, rfl⟩ := htranslated.unique htranslated'
  obtain ⟨last, taken, htaken, hlabels⟩ := linear_labels hread hresolve htranslated hstages hlinear
  rw [Multiset.coe_add, Multiset.coe_add, ← coe_flatMap_append] at hlabels
  exact ⟨laid', coded', htranslated, (Program.wellNamed_of_resolve hcomplete hresolve).1,
    fun d hd => Program.isIdent_of_ofNode hread hd, hstages, hlinear,
      ⟨_, last, taken, htaken, hlabels⟩, hunits⟩

namespace CompiledFrom

variable {o : Options} {p : Program} {t : Attributes} {laid coded : Workspace} {c : Compiled}

/-- **All labels are different**, also from those of nested functions without a body. -/
theorem nodup (h : CompiledFrom o p t laid coded c) :
    (fixedLabels ++ runtimeLabels ++ (c.linear.labels ++ p.nestedRoutines coded.attrs)).Nodup := by
  obtain ⟨first, last, taken, htaken, hlabels⟩ := h.labels
  rw [← Multiset.coe_nodup, ← Multiset.coe_add, hlabels, ← add_assoc, Multiset.coe_add]
  refine Multiset.nodup_add.mpr ⟨Multiset.coe_nodup.mpr h.named.nodup, htaken.nodup, ?_⟩
  refine Multiset.disjoint_left.mpr fun {l} hl hl' => ?_
  obtain ⟨n, -, -, rfl⟩ := htaken.mem_iff.mp hl'
  exact Label.numbered_not_mem p n (Multiset.mem_coe.mp hl)

/-- Labels of the program are words. -/
theorem legible (h : CompiledFrom o p t laid coded c) :
    ∀ l ∈ c.linear.labels ++ p.nestedRoutines coded.attrs, l.Legible := by
  obtain ⟨first, last, taken, htaken, hlabels⟩ := h.labels
  intro l hl
  rw [← Multiset.mem_coe, hlabels, Multiset.mem_add] at hl
  rcases hl with hl | hl
  · obtain ⟨d, hd, rfl⟩ := List.mem_map.mp (p.globalLabels_sublist.subset (Multiset.mem_coe.mp hl))
    exact Label.legible_global (h.idents d hd)
  · obtain ⟨n, -, -, rfl⟩ := htaken.mem_iff.mp hl
    exact Label.legible_numbered n

/-- The label of a function is in the text, is that of a nested function without a body, or is that of a
routine. -/
theorem function_label (h : CompiledFrom o p t laid coded c) {m : Mark} {name : String}
    {params : List Param} {type : TypeExpr} {body : Expr} {f : Frame}
    (hmem : .decl (.fn m name params type body) ∈ Decl.walkAll everywhere p.decls)
    (hframe : laid.attrs.frames[m.id]? = some f) :
    f.label ∈ c.linear.labels ++ p.nestedRoutines coded.attrs ∨
      body = .absent ∧ .fn m name params type .absent ∈ p.decls ∧ f.label = .global name := by
  by_cases hbody : body = .absent
  · subst hbody
    rcases mem_decls_or_labelled hmem with ⟨d, hd, heq⟩ | hnested
    · cases heq
      exact .inr ⟨rfl, hd, h.stages.label_eq_global hd hframe⟩
    · refine .inl (List.mem_append_right _ (List.mem_flatMap.mpr ⟨_, hnested, ?_⟩))
      rw [← h.stages.generates.frames] at hframe
      simp [Attributes.functionLabels, Expr.isAbsent, hframe]
  · rw [← h.stages.generates.frames] at hframe
    obtain ⟨chunk, hchunk, rfl⟩ := h.linear.exists_frame (Linear.mem_functions hmem) hbody hframe
    refine .inl (List.mem_append_left _ (List.mem_append_right _ ?_))
    exact List.mem_flatMap.mpr ⟨chunk, hchunk, List.mem_cons_self⟩

/-- What code refers to: labels of the program, of nested functions without a body and of routines. -/
structure Provides (p : Program) (coded : Workspace) (c : Compiled) (refs : Label → Prop) : Prop where
  labels : ∀ l ∈ c.linear.labels ++ p.nestedRoutines coded.attrs, refs l
  routines : ∀ m name params type, .fn m name params type .absent ∈ p.decls → refs (.global name)
  new : refs (.global "new")
  del : refs (.global "del")

theorem linkage (h : CompiledFrom o p t laid coded c) {refs : Label → Prop}
    (hrefs : Provides p coded c refs) :
    Linkage laid.attrs (Decl.walkAll everywhere p.decls) refs refs where
  functions m name params type body f hmem hframe := by
    rcases h.function_label hmem hframe with hl | ⟨rfl, hd, hl⟩
    · exact hrefs.labels _ hl
    · rw [hl]
      exact hrefs.routines m name params type hd
  globals d data hmem hvar haccess := by
    obtain ⟨mark, name, type, rfl, hd⟩ := h.stages.mem_decls_of_static hmem hvar haccess
    obtain ⟨globals, hglobals, hdata⟩ := h.linear.data
    rw [← h.stages.generates.accesses] at haccess
    refine hrefs.labels _ (List.mem_append_left _ (List.mem_append_left _ (List.mem_map_of_mem ?_)))
    rw [hdata]
    exact List.mem_append_left _ (Linear.mem_globals hglobals hd haccess)
  strings mark kind value data hmem hstring := by
    obtain ⟨globals, -, hdata⟩ := h.linear.data
    rw [← h.stages.generates.strings] at hstring
    refine hrefs.labels _ (List.mem_append_left _ (List.mem_append_left _ (List.mem_map_of_mem ?_)))
    rw [hdata]
    exact List.mem_append_right _ (Linear.mem_strings hmem hstring)
  new := hrefs.new
  del := hrefs.del

end CompiledFrom

/-! ## §4 Code of functions -/

/-- A canonical body between two labels is confined if the labels are different. -/
theorem IR.CodeChunk.confined_of_nodup {f : Frame} {entry exit : Label} {e : IR.Expr} {n : Int}
    (hshaped : e.Shaped) {chunk : IR.CodeChunk} (hchunk : chunk = ⟨f, entry, exit,
      .label entry :: (((Stmt.move (.temp f.rv) e).lower n).stmts ++ [.jump exit])⟩)
    (hnodup : chunk.labels.Nodup) : chunk.Confined := by
  subst hchunk
  rw [IR.CodeChunk.labels, Stmt.labelsOf_chunk hshaped] at hnodup
  have hlabels : (entry :: e.labels ++ [exit]).Nodup := (List.nodup_cons.mp hnodup).2
  have htree : (Stmt.move (.temp f.rv) e).Shaped := hshaped
  -- The code of the body only jumps to labels of the body.
  have hbody : ∀ l ∈ Stmt.targetsOf ((Stmt.move (.temp f.rv) e).lower n).stmts, l ∈ e.labels := by
    intro l hl
    rcases Stmt.targetsOf_lower _ htree n l hl with hl | hl
    · exact hl
    · exact (List.not_mem_nil hl).elim
  refine ⟨rfl, ⟨.label entry :: ((Stmt.move (.temp f.rv) e).lower n).stmts, rfl, fun hexit => ?_⟩,
    fun l hl => ?_⟩
  · have hmem : exit ∈ entry :: e.labels := List.mem_cons_of_mem _ (hbody exit hexit)
    exact (List.nodup_append.mp hlabels).2.2 exit hmem exit (List.mem_singleton_self _) rfl
  · have hl : l ∈ Stmt.targetsOf (((Stmt.move (.temp f.rv) e).lower n).stmts ++ [.jump exit]) := hl
    rw [Stmt.targetsOf_append, List.mem_append] at hl
    rcases hl with hl | hl
    · right
      show (Stmt.labelsOf _).count l = 1
      rw [Stmt.labelsOf_chunk hshaped]
      exact List.count_eq_one_of_mem (List.nodup_append.mp hlabels).1
        (List.mem_cons_of_mem _ (hbody l hl))
    · exact .inl (List.mem_singleton.mp hl)

namespace CompiledFrom

variable {o : Options} {p : Program} {t : Attributes} {laid coded : Workspace} {c : Compiled}
  {refs : Label → Prop}

/-- A unit is that of a chunk. -/
theorem exists_chunk (h : CompiledFrom o p t laid coded c) {u : CompiledUnit} (hu : u ∈ c.units) :
    ∃ chunk ∈ c.linear.code, Compile.UnitOf o chunk u := by
  obtain ⟨i, hi, rfl⟩ := List.mem_iff_getElem.mp hu
  have hi' : i < c.linear.code.length := h.units.length_eq ▸ hi
  exact ⟨c.linear.code[i], List.getElem_mem hi', h.units.get hi' hi⟩

/-- **Chunks are confined**, and they refer to what the program provides. -/
theorem chunk_confined (h : CompiledFrom o p t laid coded c) (hrefs : Provides p coded c refs)
    {chunk : IR.CodeChunk} (hchunk : chunk ∈ c.linear.code) :
    chunk.Confined ∧ ∀ s ∈ chunk.stmts, s.Runnable refs refs ∧ ∀ ss, s ≠ .seq ss := by
  obtain ⟨d, hd, hof⟩ := h.linear.exists_function hchunk
  obtain ⟨hfunction, hbody⟩ := List.mem_filter.mp hd
  obtain ⟨⟨mark, name, params, type, body, rfl⟩, hmem⟩ := Linear.mem_walk_of_mem_functions hfunction
  have hbody : body ≠ .absent := by
    rintro rfl
    cases hbody
  obtain ⟨f, lo, hi, e, hframe, -, hcode, hexpr, hsound⟩ := h.stages.function_code hmem hbody
  have hlinked := Expr.linked_of_code (h.linkage hrefs) h.stages.bound body
    (h.stages.bound _ hmem).2 hexpr
  have hrunnable := IR.Expr.runnable_of_linked hsound.shaped hsound.usable hlinked
  obtain ⟨entry, exit, n, hshape⟩ := Stages.chunk_eq rfl hof hframe hcode hsound.shaped
  -- All labels of the program are distinct, so those of one chunk are.
  have hnodup : (c.linear.code.flatMap IR.CodeChunk.labels).Nodup := by
    have hall := (List.nodup_append.mp h.nodup).2.1
    exact (List.nodup_append.mp (List.nodup_append.mp hall).1).2.1
  refine ⟨IR.CodeChunk.confined_of_nodup hsound.shaped hshape
    ((List.nodup_flatMap.mp hnodup).1 chunk hchunk),
    ?_⟩
  rw [hshape]
  have hmove : (IR.Stmt.move (.temp f.rv) e).Runnable refs refs := hrunnable
  refine fun s hs => ⟨?_, ?_⟩
  · refine IR.Stmt.runnable_cons ?_ (IR.Stmt.runnable_append (IR.Stmt.runnable_lower hmove n)
      (IR.Stmt.runnable_cons ?_ IR.Stmt.runnable_nil)) s hs <;> trivial
  · rcases List.mem_cons.mp hs with rfl | hs
    · simp
    · rcases List.mem_append.mp hs with hs | hs
      · exact IR.Stmt.ne_seq_of_mem_lower _ n s hs
      · rw [List.mem_singleton.mp hs]
        simp

/-- **The code of units is confined.** It has the labels of the chunk, and it refers to what the program
provides. -/
theorem unit_confined (h : CompiledFrom o p t laid coded c) (hrefs : Provides p coded c refs)
    {chunk : IR.CodeChunk} (hchunk : chunk ∈ c.linear.code) {u : CompiledUnit}
    (hu : Compile.UnitOf o chunk u) :
    u.code.Confined ∧ u.code.labels = chunk.labels ∧ ∀ i ∈ u.code.instrs, i.Linked refs refs := by
  obtain ⟨hconfined, hstmts⟩ := h.chunk_confined hrefs hchunk
  obtain ⟨σ, code, σ₁, σ₂, hselect, hallocate⟩ := hu.selected
  obtain ⟨hframe, -, hexit, hcode, hlabels, hlinked⟩ := hconfined.select hstmts o.args σ code σ₁ hselect
  obtain ⟨spilled, graph, colors, hspills, heq⟩ := Code.exists_spills_of_allocate hallocate
  obtain ⟨hframe', -, hexit', hsame⟩ := Code.kept_of_spills hspills refs refs
  rw [heq]
  -- Giving registers to temps does not change the instructions.
  have hspilled : spilled.Confined := hcode.spillAll hspills
  refine ⟨hspilled, ?_, hsame.linked hlinked⟩
  show spilled.frame.label :: (Instr.labelsOf spilled.instrs ++ [spilled.exit]) = chunk.labels
  rw [hframe', hframe, hsame.labels, hlabels, hexit', hexit, IR.CodeChunk.labels]

/-- **The text of functions can be read back.** -/
theorem writable (h : CompiledFrom o p t laid coded c) (hrefs : Provides p coded c refs) :
    ∀ code ∈ c.units.map CompiledUnit.code, code.Writable refs := by
  intro code hcode
  obtain ⟨u, hu, rfl⟩ := List.mem_map.mp hcode
  obtain ⟨chunk, hchunk, hof⟩ := h.exists_chunk hu
  obtain ⟨hconfined, hlabels, hlinked⟩ := h.unit_confined hrefs hchunk hof
  have hmem : ∀ l ∈ u.code.labels, l ∈ c.linear.labels ++ p.nestedRoutines coded.attrs := by
    intro l hl
    rw [hlabels] at hl
    exact List.mem_append_left _ (List.mem_append_right _ (List.mem_flatMap.mpr ⟨chunk, hchunk, hl⟩))
  have hinner : ∀ l ∈ Instr.labelsOf u.code.instrs, l ∈ u.code.labels := fun l hl =>
    List.mem_cons_of_mem _ (List.mem_append_left _ hl)
  have hentry : u.code.entry ∈ Instr.labelsOf u.code.instrs :=
    Instr.mem_labelsOf.mpr (List.mem_of_head? hconfined.starts)
  refine ⟨fun l hl => h.legible l (hmem l hl), ?_, hlinked, fun l hl => ?_⟩
  · exact hrefs.labels _ (hmem _ (hinner _ hentry))
  · refine hrefs.labels _ (hmem _ ?_)
    rcases hconfined.targets l hl with rfl | hcount
    · exact List.mem_cons_of_mem _ (List.mem_append_right _ (List.mem_singleton_self _))
    · exact hinner l (List.count_pos_iff.mp (hcount ▸ Nat.one_pos))

/-- **The labels of the text** are the fixed ones and those of the linear form. -/
theorem perm_programLabels (h : CompiledFrom o p t laid coded c) (hrefs : Provides p coded c refs) :
    (programLabels c.linear.data (c.units.map CompiledUnit.code)).Perm
      (fixedLabels ++ runtimeLabels ++ c.linear.labels) := by
  have hunits : (c.units.map CompiledUnit.code).flatMap Code.labels
      = c.linear.code.flatMap IR.CodeChunk.labels := by
    rw [List.flatMap_map, List.flatMap_def, List.flatMap_def]
    refine congrArg List.flatten (List.ext_getElem ?_ fun i hi hi' => ?_)
    · rw [List.length_map, List.length_map, h.units.length_eq]
    · rw [List.length_map] at hi hi'
      rw [List.getElem_map, List.getElem_map]
      exact (h.unit_confined hrefs (List.getElem_mem hi') (h.units.get hi' hi)).2.1
  unfold programLabels fixedLabels IR.LinearProgram.labels
  rw [hunits, ← Multiset.coe_eq_coe]
  simp only [← Multiset.coe_add]
  abel

/-- What the text of a program defines and refers to. -/
theorem read_assembly (h : CompiledFrom o p t laid coded c) (hrefs : Provides p coded c refs)
    (hlegible : ∀ l, refs l → l.Legible) (hmain : refs (.global "main"))
    (hbuffers : ∀ l ∈ bufferLabels, refs l) {text : String} (htext : c.assembly = .ok text) :
    definedLabels text = programLabels c.linear.data (c.units.map CompiledUnit.code) ∧
      ∀ r ∈ references text, refs r := by
  have hdata : ∀ d ∈ c.linear.data, d.label.Legible := fun d hd =>
    h.legible _ (List.mem_append_left _ (List.mem_append_left _ (List.mem_map_of_mem hd)))
  unfold Compiled.assembly at htext
  split at htext
  · next hwrite =>
    cases htext
    exact read_write hlegible hdata (h.writable hrefs) hmain hbuffers hwrite
  · cases htext

/-- All that code refers to are words. -/
theorem provides_legible (h : CompiledFrom o p t laid coded c) : Provides p coded c Label.Legible where
  labels := h.legible
  routines _ _ _ _ hmem := Label.legible_global (h.idents _ hmem)
  new := by decide
  del := by decide

end CompiledFrom

/-! ## §5 Accepted programs -/

/-- **Labels are unique and control flow is closed.** Let a program be read without diagnostics,
resolved without errors and compiled. No label is defined twice in its text: labels of functions, of
their entries, exits and branches, of data, of runtime routines and fixed symbols are all different.
The statements of each function, the instructions that are selected for it, in either mode, those
after any number of spills, and the ones in the end start with the entry label, end with the only
jump to the exit label, and otherwise jump to labels that they contain exactly once. -/
theorem labels_unique_and_flow_closed {n : Yaml.Node} {p : Program} {t : Attributes} {o : Options}
    {σ : Supply} {c : Compiled} {listings : Listings} (hread : Program.ofNode n = .ok p)
    (hresolve : p.number.resolve = .ok t)
    (hcompile : compile o p.number { attrs := t, supply := σ } = (.ok c, listings)) :
    (∀ text, c.assembly = .ok text → (definedLabels text).Nodup ∧
      definedLabels text = programLabels c.linear.data (c.units.map CompiledUnit.code)) ∧
    (∀ chunk ∈ c.linear.code, chunk.Confined ∧
      ∀ mode σ₁ code σ₂, (chunk.select mode).run.run σ₁ = (.ok code, σ₂) →
        ∀ code', ReflTransGen Code.SpillsTo code code' → code'.Confined) ∧
    ∀ u ∈ c.units, u.code.Confined := by
  obtain ⟨laid, coded, -, h⟩ := compiledFrom_of_compile hread hresolve hcompile
  have hrefs := h.provides_legible
  refine ⟨fun text htext => ?_, fun chunk hchunk => ?_, fun u hu => ?_⟩
  · have hdefined := (h.read_assembly hrefs (fun _ hl => hl) (by decide) (by decide) htext).1
    refine ⟨?_, hdefined⟩
    rw [hdefined, (h.perm_programLabels hrefs).nodup_iff]
    refine h.nodup.sublist (List.Sublist.append (.refl _) (List.sublist_append_left _ _))
  · obtain ⟨hconfined, hstmts⟩ := h.chunk_confined hrefs hchunk
    refine ⟨hconfined, fun mode σ₁ code σ₂ hselect code' hspills => ?_⟩
    exact (hconfined.select hstmts mode σ₁ code σ₂ hselect).2.2.2.1.spillAll hspills
  · obtain ⟨chunk, hchunk, hof⟩ := h.exists_chunk hu
    exact (h.unit_confined hrefs hchunk hof).1

theorem labels_unique_and_flow_closed_elementOfCaller : ∃ p t c listings text,
    Program.ofNode elementOfCaller = .ok p ∧ p.number.resolve = .ok t ∧
      compile { registers := 2, args := .register } p.number { attrs := t } = (.ok c, listings) ∧
      c.assembly = .ok text ∧ (definedLabels text).Nodup ∧ ∀ u ∈ c.units, u.code.Confined := by
  have haccepted : (Program.ofNode elementOfCaller >>= fun p => p.number.resolve).isOk = true := by
    decide +kernel
  obtain ⟨p, t, hread, hresolve⟩ := exists_accepted haccepted
  obtain ⟨c, listings, text, hcompile, htext⟩ := exists_compiled hread hresolve
    (o := { registers := 2, args := .register }) (by decide) (by decide) {}
  obtain ⟨hlabels, -, hunits⟩ := labels_unique_and_flow_closed hread hresolve hcompile
  exact ⟨p, t, c, listings, text, hread, hresolve, hcompile, htext, (hlabels text htext).1, hunits⟩

end MmixBackend
