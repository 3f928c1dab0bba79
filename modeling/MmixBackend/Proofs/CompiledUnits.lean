import MmixBackend.Proofs.ControlFlow
import MmixBackend.Proofs.Stages

/-!
# What a compiled program has gone through

A compilation that has a result has run all its stages: the program has been laid out, given code
and made linear, and every chunk of it has been selected and allocated. `compile_stages` says so of
any compilation, whatever its options, so that properties of its result follow from those of the
stages.

## Main statements

- `compile_runs`: the runs behind a compiled program.
- `compile_stages`: the stages behind it, and where its functions come from.
- `exists_compiled`: accepted programs have a text.
-/

namespace MmixBackend

open Source

/-! ## §1 Stages -/

namespace Compile

variable {c : Compiling}

theorem stage_ensures {α : Type} (names : List String) (pass : Pass α) :
    Ensures (stage names pass) c fun a c' => pass.run.run c.work = (.ok a, c'.work) := by
  intro a c' hrun
  have hstep : (modifyGet fun c : Compiling =>
      ((pass.run.run c.work).1, { c with work := (pass.run.run c.work).2 }) : Compile _).run.run c
      = (.ok ((pass.run.run c.work).1), { c with work := (pass.run.run c.work).2 }) := rfl
  replace hrun := (run_bind_ok hstep).symm.trans hrun
  rcases hpass : pass.run.run c.work with ⟨fault | a', w⟩
  · rw [hpass] at hrun
    cases hrun
  · rw [hpass] at hrun
    cases hrun
    rfl

theorem write_ensures (wanted : Bool) (f : Listings → Listings) :
    Ensures (write wanted f) c fun _ c' => c'.work = c.work := .of_succeeds (write_spec wanted f)

/-- The unit has been selected and allocated from the chunk. -/
structure UnitOf (o : Options) (chunk : IR.CodeChunk) (u : CompiledUnit) : Prop where
  chunk_eq : u.chunk = chunk
  selected : ∃ σ code σ₁ σ₂, (chunk.select o.args).run.run σ = (.ok code, σ₁) ∧
    (code.allocate o.registers).run σ₁ = ((u.code, .ok u.allocation), σ₂)

theorem unit_ensures (o : Options) (chunk : IR.CodeChunk) :
    Ensures (unit o chunk) c fun r _ => UnitOf o chunk r.1 := by
  refine (stage_ensures _ _).bind fun code c₁ hselect => ?_
  have hselected := (Linear.ofFresh_ensures (chunk.select o.args) c.work _ _ hselect).2
  extract_lets listing rest
  have hrest : ∀ live : String, ∀ c₂ : Compiling, c₂ = c₁ →
      Ensures (rest live) c₂ fun r _ => UnitOf o chunk r.1 := by
    intro live c₂ hc₂
    rw [hc₂]
    refine (stage_ensures _ _).bind fun r c₃ hallocate => ?_
    obtain ⟨allocated, fault | allocation⟩ := r
    · exact .throw _
    · refine .pure ⟨rfl, _, code, _, (code.allocate o.registers).run c₁.work.supply |>.2, hselected, ?_⟩
      have hresult : ((code.allocate o.registers).run c₁.work.supply).1 = (allocated, .ok allocation) :=
        Except.ok.inj (Prod.mk.inj hallocate).1
      exact Prod.ext hresult rfl
  have hlive : ∀ live : String, Ensures (pure live : Compile String) c₁ fun _ c' => c' = c₁ :=
    fun _ => .pure rfl
  split
  · split
    · exact (hlive _).bind fun live c' hc' => hrest live c' hc'
    · exact fun _ _ hrun => by cases hrun
  · exact (hlive _).bind fun live c' hc' => hrest live c' hc'

theorem units_ensures (o : Options) : ∀ (chunks : List IR.CodeChunk) (c : Compiling),
    Ensures (chunks.mapM (unit o)) c fun rs _ => List.Forall₂ (UnitOf o) chunks (rs.map Prod.fst)
  | [], _ => .pure .nil
  | chunk :: chunks, c => by
    rw [List.mapM_cons]
    refine (unit_ensures o chunk).bind fun r c₁ hr => ?_
    exact (units_ensures o chunks c₁).bind fun rs c₂ hrs => .pure (.cons hr hrs)

/-- **The stages behind a compiled program**, and the run over its functions, which begins with the supply
that the linear form has left. -/
theorem program_runs (o : Options) (p : Program) :
    Ensures (program o p) c fun r _ => r.registers = o.registers ∧
      ∃ laid coded start us after, (Layout.program p).run.run c.work = (.ok (), laid) ∧
        (Generation.program p).run.run laid = (.ok (), coded) ∧
        (Linear.program p).run.run coded = (.ok r.linear, start.work) ∧
        (r.linear.code.mapM (unit o)).run.run start = (.ok us, after) ∧ r.units = us.map Prod.fst := by
  refine (stage_ensures _ _).bind fun _ c₁ hlayout => ?_
  refine (stage_ensures _ _).bind fun _ c₂ hgeneration => ?_
  refine .bind (P := fun _ c' => c' = c₂) (fun _ _ hrun => ?_) fun _ c' hc' => ?_
  · cases hrun
    rfl
  subst hc'
  refine (write_ensures _ _).bind fun _ c₃ hwork₃ => ?_
  refine (stage_ensures _ _).bind fun linear c₄ hlinear => ?_
  rw [hwork₃] at hlinear
  refine (write_ensures _ _).bind fun _ c₅ hwork₅ => ?_
  rw [← hwork₅] at hlinear
  refine .bind (P := fun us c₆ => (linear.code.mapM (unit o)).run.run c₅ = (.ok us, c₆)) (fun _ _ => id)
    fun us c₆ hunits => ?_
  exact (write_ensures _ _).bind fun _ c₇ _ =>
    .pure ⟨rfl, _, _, c₅, us, c₆, hlayout, hgeneration, hlinear, hunits, rfl⟩

end Compile

/-- **A compiled program has been run through the stages.** -/
theorem compile_runs {o : Options} {p : Program} {work : Workspace} {c : Compiled} {listings : Listings}
    (h : compile o p work = (.ok c, listings)) : c.registers = o.registers ∧
      ∃ laid coded start us after, (Layout.program p).run.run work = (.ok (), laid) ∧
        (Generation.program p).run.run laid = (.ok (), coded) ∧
        (Linear.program p).run.run coded = (.ok c.linear, start.work) ∧
        (c.linear.code.mapM (Compile.unit o)).run.run start = (.ok us, after) ∧
        c.units = us.map Prod.fst := by
  unfold compile at h
  rcases hrun : (Compile.program o p).run.run { work } with ⟨r, after⟩
  rw [hrun] at h
  obtain rfl := (Prod.mk.inj h).1
  exact Compile.program_runs o p c after hrun

/-- **A compiled program has gone through the stages.** -/
theorem compile_stages {o : Options} {p : Program} {work : Workspace} {c : Compiled} {listings : Listings}
    (h : compile o p work = (.ok c, listings)) : c.registers = o.registers ∧
      List.Forall₂ (Compile.UnitOf o) c.linear.code c.units ∧
      ∃ laid coded, Translated p work laid coded c.linear := by
  obtain ⟨hregisters, laid, coded, start, us, after, hlayout, hgeneration, hlinear, hunits, heq⟩ :=
    compile_runs h
  refine ⟨hregisters, ?_, laid, coded, hlayout, hgeneration, _, hlinear⟩
  rw [heq]
  exact Compile.units_ensures o _ start us after hunits

/-- The stages lead to one result. -/
theorem Translated.unique {p : Program} {start laid coded laid' coded' : Workspace}
    {l l' : IR.LinearProgram} (h : Translated p start laid coded l)
    (h' : Translated p start laid' coded' l') : laid' = laid ∧ coded' = coded ∧ l' = l := by
  obtain ⟨-, rfl⟩ := Prod.mk.inj (h.layout.symm.trans h'.layout)
  obtain ⟨-, rfl⟩ := Prod.mk.inj (h.generation.symm.trans h'.generation)
  obtain ⟨w, hlinear⟩ := h.linear
  obtain ⟨w', hlinear'⟩ := h'.linear
  exact ⟨rfl, rfl, (Except.ok.inj (Prod.mk.inj (hlinear.symm.trans hlinear')).1).symm⟩

/-- An accepted document is that of a program with tables. -/
theorem exists_accepted {n : Yaml.Node}
    (h : (Program.ofNode n >>= fun p => p.number.resolve).isOk = true) :
    ∃ p t, Program.ofNode n = .ok p ∧ p.number.resolve = .ok t := by
  rcases hread : Program.ofNode n with diagnostics | p
  · rw [hread] at h
    cases h
  rcases hresolve : p.number.resolve with diagnostics | t
  · rw [hread] at h
    change p.number.resolve.isOk = true at h
    rw [hresolve] at h
    cases h
  exact ⟨p, t, rfl, hresolve⟩

/-- An accepted program has a text. -/
theorem exists_compiled {n : Yaml.Node} {p : Program} {t : Attributes} (hread : Program.ofNode n = .ok p)
    (hresolve : p.number.resolve = .ok t) {o : Options} (hmin : minRegisters ≤ o.registers)
    (hmax : o.registers ≤ maxRegisters) (σ : Supply) :
    ∃ c listings text, compile o p.number { attrs := t, supply := σ } = (.ok c, listings) ∧
      c.assembly = .ok text := by
  obtain ⟨hnum, hnumbered⟩ := p.number_spec
  have hcomplete := hnumbered (Program.complete_of_ofNode hread)
  obtain ⟨hresolved, hrecords, -⟩ := Program.resolved_of_resolve hcomplete hresolve
  obtain ⟨c, after, hrun, -, -, hreturn⟩ := Compile.program_spec hmin hmax
    (c := { work := { attrs := t, supply := σ } }) hcomplete hnum hresolved hrecords
  obtain ⟨text, htext⟩ := Assembly.exists_write_eq c.registers c.linear.data
    (List.forall_mem_map.mpr hreturn)
  refine ⟨c, after.listings, text, ?_, ?_⟩
  · unfold compile
    rw [hrun]
  · unfold Compiled.assembly
    rw [htext]

end MmixBackend
