import MmixBackend.Compilation
import MmixBackend.Proofs.Assembly
import MmixBackend.Proofs.Source.Generation
import MmixBackend.Proofs.Source.Resolution

/-!
# What is accepted compiles

A program that has been read and resolved without errors is compiled, whatever the number of registers
between the least and the greatest one, and its assembly text is written in full. Each stage hands on what
the next one relies on: resolution binds and types every name, layout places every declaration, generation
gives sound trees, these become sound chunks, and sound chunks are selected and allocated.

## Main statements

- `Linear.program_spec`: a generated program is made linear, and its chunks are sound.
- `Compile.unit_spec`: a sound chunk is compiled, and its return value has a location.
- `accepted_programs_compile`: reading and resolving without errors are enough.
-/

namespace MmixBackend

open Source

/-! ## §1 Linear programs -/

namespace Source.Linear

variable {t : Attributes} {w : Workspace}

theorem exists_globals_eq_ok : ∀ {ds : List Decl}, (∀ d ∈ ds, d.IsStatic t) →
    ∃ data, globals t ds = .ok data
  | [], _ => ⟨[], rfl⟩
  | .var m name type :: ds, h => by
    obtain ⟨⟨data, hdata⟩, hds⟩ := List.forall_mem_cons.mp h
    obtain ⟨rest, hrest⟩ := exists_globals_eq_ok hds
    refine ⟨data :: rest, ?_⟩
    rw [globals, hdata, hrest]
    rfl
  | .fn .. :: ds, h | .typ .. :: ds, h | .par .. :: ds, h | .comp .. :: ds, h => by
    rw [globals]
    · exact exists_globals_eq_ok (List.forall_mem_cons.mp h).2
    · simp

theorem ofFresh_spec {α : Type} {act : Fresh α} {P : α → Supply → Prop} (h : Succeeds act w.supply P) :
    Succeeds (Pass.ofFresh act) w fun a w' => w'.attrs = w.attrs ∧ P a w'.supply := by
  obtain ⟨a, σ, hrun, hP⟩ := h
  refine .bind (P := fun r w' => r = .ok a ∧ w' = { w with supply := σ }) ?_ ?_
  · refine Layout.withSupply_spec ?_
    rw [hrun]
    exact ⟨rfl, rfl⟩
  · rintro r w' ⟨rfl, rfl⟩
    exact .pure ⟨rfl, hP⟩

/-- A function with a body, a frame and sound code. The temps up to `n` have been handed out. -/
def Compilable (t : Attributes) (n : Int) (d : Decl) : Prop :=
  ∃ m name params type body frame code, d = .fn m name params type body ∧
    t.frames[m.id]? = some frame ∧ frame.fp.index ≤ n ∧ frame.rv.index ≤ n ∧
    t.codeOf? body = some code ∧ code.Sound n

theorem chunk_spec {d : Decl} {n : Int} (h : Compilable w.attrs n d) (hn : n ≤ w.supply.temps) :
    Succeeds (chunk d) w fun c w' => w'.attrs = w.attrs ∧
      w.supply.temps ≤ w'.supply.temps ∧ c.Sound w'.supply.temps := by
  obtain ⟨m, name, params, type, body, frame, code, rfl, hframe, hfp, hrv, hcode, hsound⟩ := h
  refine Pass.attrs_spec ?_
  dsimp only
  rw [hframe]
  dsimp only
  rw [hcode]
  exact ofFresh_spec (IR.CodeChunk.ofBody_sound hfp hrv hsound.shaped hsound.usable hn)

theorem chunks_spec {n : Int} : ∀ {ds : List Decl} {w : Workspace},
    (∀ d ∈ ds, Compilable w.attrs n d) → n ≤ w.supply.temps →
    Succeeds (ds.mapM chunk) w fun cs w' => w.supply.temps ≤ w'.supply.temps ∧
      cs.length = ds.length ∧ ∀ c ∈ cs, c.Sound w'.supply.temps
  | [], w, _, _ => .pure ⟨Int.le_refl _, rfl, fun _ h => (List.not_mem_nil h).elim⟩
  | d :: ds, w, h, hn => by
    obtain ⟨hd, hds⟩ := List.forall_mem_cons.mp h
    rw [List.mapM_cons]
    refine (chunk_spec hd hn).bind fun c w₁ ⟨hattrs, hle, hc⟩ => ?_
    refine (chunks_spec (hattrs ▸ hds) (Int.le_trans hn hle)).bind fun cs w₂ ⟨hle', hlength, hcs⟩ => ?_
    refine .pure ⟨Int.le_trans hle hle', congrArg (· + 1) hlength, ?_⟩
    exact List.forall_mem_cons.mpr ⟨hc.mono hle', hcs⟩

/-- The functions of a program are among its nodes. -/
theorem mem_walk_of_mem_functions {p : Program} {d : Decl} (h : d ∈ p.functions) :
    (∃ m name params type body, d = .fn m name params type body) ∧
      .decl d ∈ Decl.walkAll (fun _ => true) p.decls := by
  obtain ⟨node, hnode, hd⟩ := List.mem_filterMap.mp h
  split at hd
  · cases hd
    rcases List.mem_cons.mp hnode with hnode | hnode
    · cases hnode
    · exact ⟨⟨_, _, _, _, _, rfl⟩, hnode⟩
  · cases hd

/-- **A program whose functions have frames and sound code is made linear**, with a sound chunk for
every function that has a body. -/
theorem program_spec {p : Program} (hlaid : p.LaidOut w)
    (hcoded : Generation.AllCoded (Decl.walkAll (fun _ => true) p.decls) w) :
    Succeeds (program p) w fun l w' => l.code.length = (p.functions.filter hasBody).length ∧
      ∀ c ∈ l.code, c.Sound w'.supply.temps := by
  have hcompilable : ∀ d ∈ p.functions.filter hasBody, Compilable w.attrs w.supply.temps d := by
    intro d hd
    obtain ⟨hfunction, hbody⟩ := List.mem_filter.mp hd
    obtain ⟨⟨m, name, params, type, body, rfl⟩, hwalk⟩ := mem_walk_of_mem_functions hfunction
    obtain ⟨⟨frame, hframe, hfp, hrv⟩, -⟩ := hlaid.nodes _ hwalk
    obtain ⟨mark, hmark⟩ : ∃ mark, body.mark? = some mark := by
      cases body with
      | absent => cases hbody
      | _ => exact ⟨_, rfl⟩
    obtain ⟨code, hcode, hsound⟩ := hcoded _ hwalk mark hmark
    refine ⟨m, name, params, type, body, frame, code, rfl, hframe, hfp, hrv, ?_, hsound⟩
    rw [Attributes.codeOf?, hmark]
    exact hcode
  obtain ⟨data, hdata⟩ := exists_globals_eq_ok hlaid.statics
  refine Pass.attrs_spec ?_
  refine .ofExcept_bind hdata ?_
  refine (chunks_spec hcompilable (Int.le_refl _)).bind fun cs w₁ ⟨_, hcs⟩ => ?_
  exact .pure hcs

end Source.Linear

/-! ## §2 Stages -/

namespace Compile

variable {c : Compiling}

/-- A stage succeeds if its pass does. -/
theorem stage_spec {α : Type} {names : List String} {pass : Pass α} {P : α → Workspace → Prop}
    (h : Succeeds pass c.work P) : Succeeds (stage names pass) c fun a c' => P a c'.work := by
  obtain ⟨a, w, hrun, hP⟩ := h
  refine .bind (P := fun r c' => r = .ok a ∧ c'.work = w) (.modifyGet ?_) ?_
  · rw [hrun]
    exact ⟨rfl, rfl⟩
  · rintro r c' ⟨rfl, rfl⟩
    exact .pure hP

theorem write_spec (wanted : Bool) (f : Listings → Listings) :
    Succeeds (write wanted f) c fun _ c' => c'.work = c.work := by
  cases wanted
  · exact .pure rfl
  · exact ⟨_, _, rfl, rfl⟩

/-- **A sound chunk is compiled**, and the return value of its function has a location. -/
theorem unit_spec {o : Options} (hmin : minRegisters ≤ o.registers) (hmax : o.registers ≤ maxRegisters)
    {chunk : IR.CodeChunk} {n : Int} (hchunk : chunk.Sound n) (hn : n ≤ c.work.supply.temps) :
    Succeeds (unit o chunk) c fun r c' =>
      r.1.chunk = chunk ∧ n ≤ c'.work.supply.temps ∧ r.1.code.Returns := by
  have hselect : Succeeds (Pass.ofFresh (chunk.select o.args)) c.work fun code w =>
      n ≤ w.supply.temps ∧ code.Sound w.supply.temps := by
    refine (Linear.ofFresh_spec (IR.CodeChunk.select_sound o.args hchunk hn)).imp fun code w h => ?_
    exact ⟨Int.le_trans hn h.2.1, h.2.2⟩
  refine (stage_spec hselect).bind fun code c₁ h => ?_
  obtain ⟨hle, hcode⟩ := h
  obtain ⟨s, hs⟩ := Liveness.exists_liveness_eq_ok hcode.closed
  obtain ⟨allocated, a, σ, hrun, hle', hreturns⟩ := allocate_sound hmin hmax hcode
  have hallocate : Succeeds (Pass.withSupply (code.allocate o.registers)) c₁.work fun r w =>
      r = (allocated, .ok a) ∧ n ≤ w.supply.temps := by
    refine Layout.withSupply_spec ?_
    rw [hrun]
    exact ⟨rfl, Int.le_trans hle hle'⟩
  extract_lets listing rest
  have hrest : ∀ live : String, Succeeds (rest live) c₁ fun r c' =>
      r.1.chunk = chunk ∧ n ≤ c'.work.supply.temps ∧ r.1.code.Returns := by
    intro live
    refine (stage_spec hallocate).bind fun r c₂ h => ?_
    obtain ⟨rfl, hle⟩ := h
    exact .pure ⟨rfl, hle, hreturns⟩
  -- The liveness of the selected code is analyzed if it is to be listed.
  rw [hs]
  have hlive : ∀ live : String, Succeeds (pure live : Compile String) c₁ fun _ c' => c' = c₁ :=
    fun _ => .pure rfl
  split <;> exact (hlive _).bind fun live c' hc' => hc' ▸ hrest live

theorem units_spec {o : Options} (hmin : minRegisters ≤ o.registers) (hmax : o.registers ≤ maxRegisters)
    {n : Int} : ∀ {chunks : List IR.CodeChunk} {c : Compiling}, (∀ chunk ∈ chunks, chunk.Sound n) →
    n ≤ c.work.supply.temps →
    Succeeds (chunks.mapM (unit o)) c fun rs _ =>
      rs.map (·.1.chunk) = chunks ∧ ∀ r ∈ rs, r.1.code.Returns
  | [], _, _, _ => .pure ⟨rfl, fun _ h => (List.not_mem_nil h).elim⟩
  | chunk :: chunks, c, h, hn => by
    obtain ⟨hchunk, hchunks⟩ := List.forall_mem_cons.mp h
    rw [List.mapM_cons]
    refine (unit_spec hmin hmax hchunk hn).bind fun r c₁ ⟨hr, hn', hreturns⟩ => ?_
    refine (units_spec hmin hmax hchunks hn').bind fun rs c₂ ⟨hrs, hreturn⟩ => ?_
    refine .pure ⟨?_, List.forall_mem_cons.mpr ⟨hreturns, hreturn⟩⟩
    rw [List.map_cons, hr, hrs]

/-- **A complete and resolved program is compiled**, and the return values of its functions have
locations. -/
theorem program_spec {o : Options} (hmin : minRegisters ≤ o.registers)
    (hmax : o.registers ≤ maxRegisters) {p : Program} {hi : Nat}
    (hcomplete : Decl.CompleteAll p.decls) (hnum : Decl.NumberedAll p.decls 1 hi)
    (hresolved : Decl.ResolvedAll c.work.attrs [blockScope p.decls] p.decls)
    (hrecords : ∀ (id : NodeId) info, c.work.attrs.records[id]? = some info → info.WellFormed hi) :
    Succeeds (program o p) c fun r _ => r.units.map CompiledUnit.chunk = r.linear.code ∧
      r.linear.code.length = (p.functions.filter Linear.hasBody).length ∧
      ∀ u ∈ r.units, u.code.Returns := by
  refine (stage_spec (Layout.program_spec hcomplete hnum hresolved hrecords)).bind
    fun _ c₁ ⟨hresolves, hlaid⟩ => ?_
  refine (stage_spec (Generation.program_spec hcomplete hresolved hresolves hlaid)).bind
    fun _ c₂ ⟨hgrows, hcoded⟩ => ?_
  refine .bind (P := fun _ c' => c' = c₂) ⟨_, _, rfl, rfl⟩ fun _ c' hc' => ?_
  subst hc'
  -- Writing a listing does not touch the workspace, so all that is known about it stays.
  refine (write_spec _ _).bind fun _ c₃ hwork₃ => ?_
  rw [← hwork₃] at hgrows hcoded
  refine (stage_spec (Linear.program_spec (hlaid.mono hgrows) hcoded)).bind
    fun linear c₄ ⟨hlength, hchunks⟩ => ?_
  refine (write_spec _ _).bind fun _ c₅ hwork₅ => ?_
  rw [← hwork₅] at hchunks
  refine (units_spec hmin hmax hchunks (Int.le_refl _)).bind fun rs c₆ ⟨hrs, hreturn⟩ => ?_
  refine (write_spec _ _).bind fun _ c₇ _ => .pure ⟨?_, hlength, fun u hu => ?_⟩
  · rw [← hrs, List.map_map]
    rfl
  · obtain ⟨r, hr, rfl⟩ := List.mem_map.mp hu
    exact hreturn r hr

end Compile

/-! ## §3 Accepted programs -/

/-- **What is accepted compiles.** If a program has been read without diagnostics and resolved without
errors, then for every number of registers from the least to the greatest one, and for all other options,
it is compiled from any supply of temps and labels: every function with a body becomes a unit, and the
assembly text is written in full. -/
theorem accepted_programs_compile {n : Yaml.Node} {p : Program} {t : Attributes}
    (hread : Program.ofNode n = .ok p) (hresolve : p.number.resolve = .ok t) {o : Options}
    (hmin : 2 ≤ o.registers) (hmax : o.registers ≤ 251) (σ : Supply) :
    ∃ c listings text, compile o p.number { attrs := t, supply := σ } = (.ok c, listings) ∧
      c.units.map CompiledUnit.chunk = c.linear.code ∧
      c.linear.code.length = (p.number.functions.filter Linear.hasBody).length ∧
      c.assembly = .ok text := by
  obtain ⟨hnum, hnumbered⟩ := p.number_spec
  have hcomplete := hnumbered (Program.complete_of_ofNode hread)
  obtain ⟨hresolved, hrecords, -⟩ := Program.resolved_of_resolve hcomplete hresolve
  obtain ⟨c, after, hrun, hunits, hlength, hreturn⟩ := Compile.program_spec hmin hmax
    (c := { work := { attrs := t, supply := σ } }) hcomplete hnum hresolved hrecords
  have hcodes : ∀ code ∈ c.units.map CompiledUnit.code, code.Returns := by
    intro code hcode
    obtain ⟨u, hu, rfl⟩ := List.mem_map.mp hcode
    exact hreturn u hu
  obtain ⟨text, htext⟩ := Assembly.exists_write_eq c.registers c.linear.data hcodes
  refine ⟨c, after.listings, text, ?_, hunits, hlength, ?_⟩
  · unfold compile
    rw [hrun]
  · unfold Compiled.assembly
    rw [htext]

/-- A plain scalar of a document. -/
def scalarNode (tag : Yaml.Tag) (text : String) : Yaml.Node := .scalar {} tag .plain text

/-- A mapping with plain keys. -/
def mappingNode (entries : List (String × Yaml.Node)) : Yaml.Node :=
  .mapping {} .map (entries.map fun (key, value) => .mk (scalarNode .str key) value)

/-- A sequence. -/
def sequenceNode (items : List Yaml.Node) : Yaml.Node := .sequence {} .seq items

/-- A document whose function `main` has a local array and a nested function that returns an element of
it. -/
def elementOfCaller : Yaml.Node :=
  sequenceNode [mappingNode [
    ("fun", scalarNode .str "main"), ("type", scalarNode .str "int"),
    ("body", mappingNode [("where", mappingNode [
      ("decls", sequenceNode [
        mappingNode [("var", scalarNode .str "a"), ("type", scalarNode .str "[3]int")],
        mappingNode [("fun", scalarNode .str "first"), ("type", scalarNode .str "int"),
          ("body", mappingNode [("index", sequenceNode [scalarNode .str "a", scalarNode .int "0"])])]]),
      ("expr", scalarNode .str "first")])])]]

theorem accepted_programs_compile_elementOfCaller : ∃ p t,
    Program.ofNode elementOfCaller = .ok p ∧ p.number.resolve = .ok t ∧
      ∃ c listings text,
        compile { registers := 2, args := .register } p.number { attrs := t } = (.ok c, listings) ∧
          c.units.map CompiledUnit.chunk = c.linear.code ∧
          c.linear.code.length = (p.number.functions.filter Linear.hasBody).length ∧
          c.assembly = .ok text := by
  have haccepted :
      (Program.ofNode elementOfCaller >>= fun p => p.number.resolve).isOk = true := by
    decide +kernel
  rcases hread : Program.ofNode elementOfCaller with diagnostics | p
  · rw [hread] at haccepted
    cases haccepted
  rcases hresolve : p.number.resolve with diagnostics | t
  · rw [hread] at haccepted
    change p.number.resolve.isOk = true at haccepted
    rw [hresolve] at haccepted
    cases haccepted
  exact ⟨p, t, rfl, hresolve, accepted_programs_compile hread hresolve (by decide) (by decide) {}⟩

end MmixBackend
