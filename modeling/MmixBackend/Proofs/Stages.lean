import MmixBackend.Proofs.Compilation
import MmixBackend.Proofs.Source.Binding

/-!
# The stages of a translation

An accepted program goes through layout, generation and linearization before each function is compiled on
its own. `Stages` collects what these passes leave behind, so that properties of the compiled
program can be proved from it without a look at the passes.

## Main statements

- `Linear.program_ensures`: what the linear form of a program consists of.
- `translated_of_accepted`: an accepted program is translated through these stages.
-/

namespace MmixBackend

open Source

/-! ## §1 Linear form -/

namespace Source.Linear

/-- The chunk of a function is made from its frame and its code. -/
def ChunkOf (t : Attributes) (d : Decl) (c : IR.CodeChunk) : Prop :=
  ∃ m name params type body frame code, d = .fn m name params type body ∧
    t.frames[m.id]? = some frame ∧ t.codeOf? body = some code ∧
    ∃ σ σ', (IR.CodeChunk.ofBody frame code).run.run σ = (.ok c, σ')

/-- The linear form of a program: data for its global variables and its strings, a chunk for each function
with a body. -/
structure Describes (t : Attributes) (p : Program) (l : IR.LinearProgram) : Prop where
  data : ∃ data, globals t p.decls = .ok data ∧ l.data = data ++ strings t p
  code : List.Forall₂ (ChunkOf t) (p.functions.filter hasBody) l.code

/-- A function with a body has a chunk. -/
theorem Describes.exists_chunk {t : Attributes} {p : Program} {l : IR.LinearProgram}
    (h : Describes t p l) {d : Decl} (hd : d ∈ p.functions.filter hasBody) :
    ∃ c ∈ l.code, ChunkOf t d c := by
  obtain ⟨i, hi, rfl⟩ := List.mem_iff_getElem.mp hd
  have hi' : i < l.code.length := h.code.length_eq ▸ hi
  exact ⟨l.code[i], List.getElem_mem hi', h.code.get hi hi'⟩

theorem hasBody_of_ne_absent {m : Mark} {name : String} {params : List Param} {type : TypeExpr}
    {body : Expr} (h : body ≠ .absent) : hasBody (.fn m name params type body) = true := by
  cases body with
  | absent => exact absurd rfl h
  | _ => rfl

/-- The chunk of a function has its frame. -/
theorem Describes.exists_frame {t : Attributes} {p : Program} {l : IR.LinearProgram} (h : Describes t p l)
    {m : Mark} {name : String} {params : List Param} {type : TypeExpr} {body : Expr}
    (hfn : .fn m name params type body ∈ p.functions) (hbody : body ≠ .absent) {f : Frame}
    (hframe : t.frames[m.id]? = some f) : ∃ chunk ∈ l.code, chunk.frame = f := by
  have hmem := List.mem_filter.mpr ⟨hfn, hasBody_of_ne_absent hbody⟩
  obtain ⟨chunk, hchunk, m', _, _, _, _, f', code, heq, hframe', -, σ, σ', hrun⟩ := h.exists_chunk hmem
  cases heq
  cases hframe.symm.trans hframe'
  have hkeep : Ensures (IR.CodeChunk.ofBody f code) σ fun c _ => c.frame = f := by
    refine .bind (P := fun _ _ => True) (fun _ _ _ => trivial) fun entry _ _ => ?_
    refine .bind (P := fun _ _ => True) (fun _ _ _ => trivial) fun exit _ _ => ?_
    exact .bind (P := fun _ _ => True) (fun _ _ _ => trivial) fun stmts _ _ => .pure rfl
  exact ⟨chunk, hchunk, hkeep _ _ hrun⟩

/-- A chunk is that of a function with a body. -/
theorem Describes.exists_function {t : Attributes} {p : Program} {l : IR.LinearProgram}
    (h : Describes t p l) {c : IR.CodeChunk} (hc : c ∈ l.code) :
    ∃ d ∈ p.functions.filter hasBody, ChunkOf t d c := by
  obtain ⟨i, hi, rfl⟩ := List.mem_iff_getElem.mp hc
  have hi' : i < (p.functions.filter hasBody).length := h.code.length_eq ▸ hi
  exact ⟨(p.functions.filter hasBody)[i], List.getElem_mem hi', h.code.get hi' hi⟩

theorem ofFresh_ensures {α : Type} (act : Fresh α) (w : Workspace) :
    Ensures (Pass.ofFresh act) w fun a w' => w'.attrs = w.attrs ∧
      act.run.run w.supply = (.ok a, w'.supply) := by
  intro a w' hrun
  have hstep : (Pass.withSupply act.run).run.run w
      = (.ok (act.run.run w.supply).1, { w with supply := (act.run.run w.supply).2 }) := rfl
  unfold Pass.ofFresh at hrun
  rw [run_bind_ok hstep] at hrun
  rcases hact : act.run.run w.supply with ⟨_ | a', σ⟩
  · rw [hact] at hrun
    cases hrun
  · rw [hact] at hrun
    cases hrun
    exact ⟨rfl, rfl⟩

theorem chunk_ensures (d : Decl) (w : Workspace) :
    Ensures (chunk d) w fun c w' => w'.attrs = w.attrs ∧ ChunkOf w.attrs d c := by
  refine Pass.attrs_ensures ?_
  cases d with
  | fn m name params type body =>
    dsimp only
    split
    · exact .throw _
    · next frame hframe =>
      split
      · exact .throw _
      · next code hcode =>
        refine (ofFresh_ensures _ w).imp fun c w' h => ⟨h.1, ?_⟩
        exact ⟨m, name, params, type, body, frame, code, rfl, hframe, hcode, _, _, h.2⟩
  | _ => exact .throw _

theorem chunks_ensures : ∀ (ds : List Decl) (w : Workspace),
    Ensures (ds.mapM chunk) w fun cs w' => w'.attrs = w.attrs ∧ List.Forall₂ (ChunkOf w.attrs) ds cs
  | [], w => .pure ⟨rfl, .nil⟩
  | d :: ds, w => by
    rw [List.mapM_cons]
    refine (chunk_ensures d w).bind fun c w₁ hc => ?_
    refine (chunks_ensures ds w₁).bind fun cs w₂ hcs => .pure ⟨hcs.1.trans hc.1, .cons hc.2 ?_⟩
    rw [← hc.1]
    exact hcs.2

/-- **What the linear form of a program consists of.** -/
theorem program_ensures (p : Program) (w : Workspace) :
    Ensures (program p) w fun l w' => w'.attrs = w.attrs ∧ Describes w.attrs p l := by
  refine Pass.attrs_ensures ?_
  refine .ofExcept_bind fun data hdata => ?_
  refine (chunks_ensures _ w).bind fun cs w₁ hcs => .pure ⟨hcs.1, ⟨data, hdata, rfl⟩, hcs.2⟩

/-- The data of a global variable are part of the linear form. -/
theorem mem_globals {t : Attributes} : ∀ {ds : List Decl} {data : List StaticData},
    globals t ds = .ok data → ∀ {m : Mark} {name : String} {type : TypeExpr} {a : StaticData},
    .var m name type ∈ ds → t.accesses[m.id]? = some (.static a) → a ∈ data
  | [], _, _, _, _, _, _, hmem, _ => (List.not_mem_nil hmem).elim
  | d :: ds, data, hdata, m, name, type, a, hmem, ha => by
    rcases List.mem_cons.mp hmem with rfl | hlater
    · rw [globals, ha] at hdata
      -- The list is made only if the rest of it is.
      cases hrest : globals t ds with
      | error fault =>
        rw [hrest] at hdata
        cases hdata
      | ok rest =>
        rw [hrest] at hdata
        cases hdata
        exact List.mem_cons_self
    · cases d with
      | var m' name' type' =>
        rw [globals] at hdata
        split at hdata
        · cases hrest : globals t ds with
          | error fault =>
            rw [hrest] at hdata
            cases hdata
          | ok rest =>
            rw [hrest] at hdata
            cases hdata
            exact List.mem_cons_of_mem _ (mem_globals hrest hlater ha)
        · cases hdata
      | _ =>
        rw [globals] at hdata
        · exact mem_globals hdata hlater ha
        · simp

/-- The data of a string constant are part of the linear form. -/
theorem mem_strings {t : Attributes} {p : Program} {m : Mark} {kind : AtomKind} {value : String}
    {a : StaticData} (hmem : .expr (.atom m kind value) ∈ Decl.walkAll everywhere p.decls)
    (ha : t.strings[m.id]? = some a) : a ∈ strings t p :=
  List.mem_filterMap.mpr ⟨_, List.mem_cons_of_mem _ hmem, ha⟩

/-- The functions of a program are its function nodes. -/
theorem mem_functions {p : Program} {m : Mark} {name : String} {params : List Param} {type : TypeExpr}
    {body : Expr} (h : .decl (.fn m name params type body) ∈ Decl.walkAll everywhere p.decls) :
    .fn m name params type body ∈ p.functions :=
  List.mem_filterMap.mpr ⟨_, List.mem_cons_of_mem _ h, rfl⟩

end Source.Linear

/-! ## §2 Stages -/

/-- What the passes leave behind: `t` are the tables of resolution, `laid` is the workspace after
the layout and `coded` the one after generation. -/
structure Stages (p : Program) (t : Attributes) (laid coded : Workspace) : Prop where
  complete : Decl.CompleteAll p.decls
  numbered : ∃ hi, Decl.NumberedAll p.decls 1 hi
  resolved : Decl.ResolvedAll t [blockScope p.decls] p.decls
  positive : ∀ (id : NodeId) ty, t.declType[id]? = some ty → ty.Positive
  definitions : t.typeDefs.Positive
  resolves : laid.attrs.Resolves t
  laidOut : p.LaidOut laid
  arranged : Decl.ArrangedAll t laid.attrs p.decls { depth := 0, isGlobal := true }
  tables : coded.attrs.withoutCode = laid.attrs.withoutCode
  generates : laid.Generates coded
  functions : FunctionsCoded laid.attrs (Decl.walkAll everywhere p.decls) coded.attrs
  sound : Generation.AllCoded (Decl.walkAll everywhere p.decls) coded

namespace Stages

variable {p : Program} {t : Attributes} {laid coded : Workspace}

/-- What is bound under the tables of resolution is bound under those of the layout. -/
theorem bound (h : Stages p t laid coded) :
    ∀ n ∈ Decl.walkAll everywhere p.decls, n.Bound laid.attrs (Decl.walkAll everywhere p.decls) := by
  intro n hn
  have hbound := Program.bound_of_resolved h.resolved n hn
  unfold Node.Bound Param.IsScalar Expr.IsScalar Expr.IsLocation Attributes.typeOf? at hbound ⊢
  rw [h.resolves.declaredAt, h.resolves.declType, h.resolves.typeDefs, h.resolves.ofType]
  exact hbound

/-- A function with a body has a frame and code, and the code is sound. -/
theorem function_code (h : Stages p t laid coded) {m : Mark} {name : String} {params : List Param}
    {type : TypeExpr} {body : Expr}
    (hmem : .decl (.fn m name params type body) ∈ Decl.walkAll everywhere p.decls)
    (hbody : body ≠ .absent) : ∃ f lo hi c, coded.attrs.frames[m.id]? = some f ∧
      laid.attrs.frames[m.id]? = some f ∧ coded.attrs.codeOf? body = some c ∧
      body.Code laid.attrs f lo hi c ∧ c.Sound coded.supply.temps := by
  obtain ⟨f, lo, hi, c, hframe, hcode, hc⟩ := h.functions m name params type body hmem hbody
  refine ⟨f, lo, hi, c, ?_, hframe, hcode, hc, ?_⟩
  · rw [h.generates.frames]
    exact hframe
  · obtain ⟨mark, hmark⟩ : ∃ mark, body.mark? = some mark := by
      cases body with
      | absent => exact absurd rfl hbody
      | _ => exact ⟨_, rfl⟩
    obtain ⟨c', hc', hsound⟩ := h.sound _ hmem mark hmark
    rw [Attributes.codeOf?, hmark] at hcode
    rw [Option.some.inj (hcode.symm.trans hc')]
    exact hsound

end Stages

/-! ## §3 Accepted programs -/

/-- The intermediate code of a program: its declarations have been laid out, its functions have been given
code trees, and these have been made linear. -/
structure Translated (p : Program) (start laid coded : Workspace) (l : IR.LinearProgram) : Prop where
  layout : (Layout.program p).run.run start = (.ok (), laid)
  generation : (Generation.program p).run.run laid = (.ok (), coded)
  linear : ∃ w, (Linear.program p).run.run coded = (.ok l, w)

/-- **An accepted program is translated through all stages.** -/
theorem translated_of_accepted {n : Yaml.Node} {p : Program} {t : Attributes}
    (hread : Program.ofNode n = .ok p) (hresolve : p.number.resolve = .ok t) (σ : Supply) :
    ∃ laid coded l, Translated p.number { attrs := t, supply := σ } laid coded l ∧
      Stages p.number t laid coded ∧ Linear.Describes coded.attrs p.number l := by
  obtain ⟨hnum, hnumbered⟩ := p.number_spec
  have hcomplete := hnumbered (Program.complete_of_ofNode hread)
  obtain ⟨hresolved, hrecords, hpositive, hdefs⟩ := Program.resolved_of_resolve hcomplete hresolve
  obtain ⟨_, laid, hlayout, hresolves, hlaid⟩ := Layout.program_spec hcomplete hnum hresolved hrecords
    (w := { attrs := t, supply := σ })
  obtain ⟨_, coded, hgeneration, hgenerates, hcoded⟩ :=
    Generation.program_spec hcomplete hresolved hresolves hlaid
  obtain ⟨l, w, hlinear, -⟩ := Linear.program_spec (hlaid.mono hgenerates) hcoded
  obtain ⟨htables, hcoding⟩ := Generation.program_code hnum _ _ hgeneration
  refine ⟨laid, coded, l, ⟨hlayout, hgeneration, w, hlinear⟩, ?_,
    (Linear.program_ensures p.number coded _ _ hlinear).2⟩
  exact ⟨hcomplete, ⟨_, hnum⟩, hresolved, hpositive, hdefs, hresolves, hlaid,
    (Layout.program_arranged hnum (.refl t) _ _ hlayout).2, htables, hgenerates, hcoding.functions,
      hcoded⟩

end MmixBackend
