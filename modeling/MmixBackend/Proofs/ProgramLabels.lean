import MmixBackend.Proofs.Assembly.Labels
import MmixBackend.Proofs.CompiledUnits
import MmixBackend.Proofs.Safety
import MmixBackend.Proofs.Source.LayoutLabels

/-!
# The labels of a program

Three passes take labels from the supply: the layout for nested functions and strings, generation
for branches, and linearization for the two ends of every chunk. The text of the program has all of
them, except those of nested functions without a body, and besides them only the names of global
variables and functions, the runtime routines and four fixed symbols.

## Main statements

- `Linear.program_labels`: the labels of the two ends of chunks are taken from the supply.
- `Stages.programLabels`: the labels in the text of a program and those of nested functions without a body
  make up the fixed ones and those taken from the supply.
-/

namespace MmixBackend

open Source

/-! ## §1 Labels of nodes -/

namespace Source

/-- The label of a string constant. -/
def Attributes.stringLabels (t : Attributes) : Node → List Label
  | .expr (.atom m _ _) => (t.strings[m.id]?).toList.map StaticData.label
  | _ => []

/-- The label of a function that has a body, or of one that has none. -/
def Attributes.functionLabels (t : Attributes) (hasBody : Bool) : Node → List Label
  | .decl (.fn m _ _ _ body) =>
    if body.isAbsent = hasBody then [] else (t.frames[m.id]?).toList.map Frame.label
  | _ => []

/-- The label of a global variable. -/
def Decl.variableLabels : Decl → List Label
  | .var _ name _ => [.global name]
  | _ => []

/-- The label of a global function that has a body. -/
def Decl.functionLabels : Decl → List Label
  | .fn _ name _ _ body => if body.isAbsent then [] else [.global name]
  | _ => []

variable {t : Attributes}

theorem coe_flatMap_append {α β : Type} (xs : List α) (f g : α → List β) :
    ((xs.flatMap fun x => f x ++ g x : List β) : Multiset β) = xs.flatMap f + xs.flatMap g :=
  (Quotient.sound (List.flatMap_append_perm xs f g)).symm

/-- A label that the layout has recorded is that of a string or of a function. -/
theorem placeLabels_eq (n : Node) : t.placeLabels n
    = t.stringLabels n ++ t.functionLabels true n ++ t.functionLabels false n := by
  unfold Attributes.placeLabels Attributes.stringLabels Attributes.functionLabels
  split
  · next body =>
    by_cases habsent : body.isAbsent = true <;> simp [habsent]
  · simp
  · simp

/-- The nodes of declarations are these and what lies below them. -/
theorem coe_flatMap_walkAll {β : Type} (f : Node → List β) (ds : List Decl) :
    (((Decl.walkAll everywhere ds).flatMap f : List β) : Multiset β)
      = (ds.flatMap fun d => f (.decl d)) + (ds.flatMap (Decl.labelled true)).flatMap f := by
  induction ds with
  | nil => rfl
  | cons d ds ih =>
    have hwalk : d.walk everywhere = .decl d :: d.labelled true := by
      cases d <;> rfl
    rw [Decl.walkAll, hwalk]
    simp only [List.flatMap_append, List.flatMap_cons, ← Multiset.coe_add, ih]
    abel

/-- A node is a global declaration or lies below one. -/
theorem mem_decls_or_labelled {ds : List Decl} {n : Node} (h : n ∈ Decl.walkAll everywhere ds) :
    (∃ d ∈ ds, n = .decl d) ∨ n ∈ ds.flatMap (Decl.labelled true) := by
  have hflat : n ∈ (Decl.walkAll everywhere ds).flatMap fun n => [n] := by simpa using h
  rw [← Multiset.mem_coe, coe_flatMap_walkAll, Multiset.mem_add] at hflat
  simpa using hflat

theorem map_label_strings (t : Attributes) (p : Program) :
    (Linear.strings t p).map StaticData.label = (Decl.walkAll everywhere p.decls).flatMap
    t.stringLabels := by
  unfold Linear.strings
  rw [List.filterMap_eq_flatMap_toList, List.map_flatMap]
  refine (List.flatMap_cons ..).trans (List.flatMap_congr fun n _ => ?_)
  cases n with
  | expr e => cases e <;> rfl
  | _ => rfl

/-- What functions with a body contribute, they contribute as nodes. -/
theorem flatMap_functions {β : Type} (p : Program) {f : Node → List β}
    (hf : ∀ n, (∀ d, n = .decl d → Linear.hasBody d = false) → f n = []) :
    (p.functions.filter Linear.hasBody).flatMap (fun d => f (.decl d))
      = (Decl.walkAll everywhere p.decls).flatMap f := by
  unfold Program.functions
  rw [List.filterMap_eq_flatMap_toList, List.filter_flatMap, List.flatMap_assoc]
  refine (List.flatMap_cons ..).trans (List.flatMap_congr fun n _ => ?_)
  have hnot : (∀ m name params type body, n ≠ .decl (.fn m name params type body)) → f n = [] := by
    intro hn
    refine hf n fun d hd => ?_
    cases d with
    | fn m name params type body => exact absurd hd (hn m name params type body)
    | _ => rfl
  cases n with
  | decl d =>
    cases d with
    | fn m name params type body =>
      cases hbody : Linear.hasBody (.fn m name params type body) with
      | true => simp [hbody]
      | false =>
        rw [hf _ fun d hd => by cases hd; exact hbody]
        simp [hbody]
    | _ => exact (hnot (by simp)).symm
  | _ => exact (hnot (by simp)).symm

theorem functionLabels_eq_nil {n : Node} (hn : ∀ d, n = .decl d → Linear.hasBody d = false) :
    t.functionLabels true n = [] := by
  unfold Attributes.functionLabels
  split
  · next body =>
    have habsent : body.isAbsent = true := by simpa [Linear.hasBody] using hn _ rfl
    rw [if_pos habsent]
  · rfl

theorem codeLabels_eq_nil {n : Node} (hn : ∀ d, n = .decl d → Linear.hasBody d = false) :
    t.codeLabels n = [] := by
  unfold Attributes.codeLabels
  split
  · next body =>
    have habsent : body.isAbsent = true := by simpa [Linear.hasBody] using hn _ rfl
    cases body with
    | absent => rfl
    | _ => cases habsent
  · rfl

/-! ## §2 Global names -/

end Source

namespace Stages

variable {p : Program} {t : Attributes} {laid coded : Workspace}

/-- The labels of global functions with a body are their names. -/
theorem functionLabels_decl (h : Stages p t laid coded) {d : Decl} (hd : d ∈ p.decls) :
    coded.attrs.functionLabels true (.decl d) = d.functionLabels := by
  cases d with
  | fn m name params type body =>
    obtain ⟨⟨label, fp, rv, hlabel, hframe⟩, -⟩ := h.arranged.global rfl hd
    rw [← h.generates.frames] at hframe
    rw [Attributes.functionLabels, Decl.functionLabels, hframe, hlabel rfl]
    rfl
  | _ => rfl

/-- The labels of the data of global variables are their names. -/
theorem map_label_globals (h : Stages p t laid coded) : ∀ {ds : List Decl} {data : List StaticData},
    (∀ d ∈ ds, d ∈ p.decls) → Linear.globals coded.attrs ds = .ok data →
      data.map StaticData.label = ds.flatMap Decl.variableLabels
  | [], _, _, hdata => by
    cases hdata
    rfl
  | d :: ds, data, hds, hdata => by
    obtain ⟨hd, htail⟩ := List.forall_mem_cons.mp hds
    rw [List.flatMap_cons]
    cases d with
    | var m name type =>
      -- A global variable is accessed as a block that has its name for a label.
      have haccess := h.arranged.global rfl hd
      rw [Decl.Arranged, Layout.Needs.access, if_pos rfl, ← h.generates.accesses] at haccess
      rw [Linear.globals, haccess] at hdata
      cases hrest : Linear.globals coded.attrs ds with
      | error fault =>
        rw [hrest] at hdata
        cases hdata
      | ok rest =>
        rw [hrest] at hdata
        cases hdata
        rw [← map_label_globals h htail hrest]
        rfl
    | _ =>
      rw [Linear.globals] at hdata
      · exact map_label_globals h htail hdata
      · simp

end Stages

/-! ## §3 Chunks -/

/-- The labels of a canonical body between its two ends. -/
theorem IR.Stmt.labelsOf_chunk {rv : Temp} {e : IR.Expr} (h : e.Shaped) (n : Int) (entry exit : Label) :
    Stmt.labelsOf (.label entry :: (((Stmt.move (.temp rv) e).lower n).stmts ++ [.jump exit]))
      = entry :: e.labels := by
  have htree : (Stmt.move (.temp rv) e).Shaped := h
  have hbody : Stmt.labelsOf (((Stmt.move (.temp rv) e).lower n).stmts ++ [.jump exit]) = e.labels := by
    rw [Stmt.labelsOf_append, Stmt.labelsOf_lower _ htree]
    exact List.append_nil _
  rw [← hbody]
  rfl

/-- The labels in the text of a chunk. -/
def IR.CodeChunk.labels (c : IR.CodeChunk) : List Label :=
  c.frame.label :: (IR.Stmt.labelsOf c.stmts ++ [c.exit])

/-- The labels of the two ends of a chunk. -/
def IR.CodeChunk.ends (c : IR.CodeChunk) : List Label := [c.entry, c.exit]

namespace Source.Linear

/-- The functions with a body have well-shaped code. -/
def ShapedCode (t : Attributes) (ds : List Decl) : Prop :=
  ∀ d ∈ ds, ∀ m name params type body e, d = .fn m name params type body →
    t.codeOf? body = some e → e.Shaped

theorem chunk_labels {d : Decl} {w : Workspace} (hshaped : ShapedCode w.attrs [d]) :
    Ensures (chunk d) w fun c w' => w'.attrs = w.attrs ∧
      Label.Taken w.supply.labels w'.supply.labels c.ends ∧
      (c.labels : Multiset Label)
        = w.attrs.placeLabels (.decl d) + w.attrs.codeLabels (.decl d) + c.ends := by
  refine Pass.attrs_ensures ?_
  cases d with
  | fn m name params type body =>
    dsimp only
    split
    · exact .throw _
    · next frame hframe =>
      split
      · exact .throw _
      · next code hcode =>
        refine (ofFresh_ensures _ w).imp fun c w' ⟨hattrs, hrun⟩ => ⟨hattrs, ?_⟩
        -- The code is well shaped, so its canonical form has its labels and no others.
        have hcode' := hshaped _ (List.mem_singleton_self _) m name params type body code rfl hcode
        rw [show w.supply = ⟨w.supply.temps, w.supply.labels⟩ from rfl,
          IR.CodeChunk.run_ofBody_eq frame hcode'] at hrun
        obtain ⟨hc, hw'⟩ := Prod.mk.inj hrun
        obtain rfl := Except.ok.inj hc
        rw [← hw']
        refine ⟨(Label.Taken.next _).add (.next _), ?_⟩
        rw [IR.CodeChunk.labels, IR.Stmt.labelsOf_chunk hcode', Attributes.placeLabels, hframe,
          Attributes.codeLabels, hcode]
        simp only [← Multiset.coe_add, ← Multiset.cons_coe, ← Multiset.singleton_add,
          Option.map_some, Option.getD_some, Option.toList_some, List.map_cons, List.map_nil,
          IR.CodeChunk.ends,
          Multiset.coe_nil]
        abel
  | _ => exact .throw _

theorem chunks_labels : ∀ (ds : List Decl) {w : Workspace}, ShapedCode w.attrs ds →
    Ensures (ds.mapM chunk) w fun cs w' =>
      Label.Taken w.supply.labels w'.supply.labels (cs.flatMap IR.CodeChunk.ends) ∧
      (cs.flatMap IR.CodeChunk.labels : Multiset Label)
        = (ds.flatMap fun d => w.attrs.placeLabels (.decl d))
          + (ds.flatMap fun d => w.attrs.codeLabels (.decl d)) + cs.flatMap IR.CodeChunk.ends
  | [], w, _ => .pure ⟨.none _, rfl⟩
  | d :: ds, w, hshaped => by
    obtain ⟨hd, hds⟩ := List.forall_mem_cons.mp hshaped
    rw [List.mapM_cons]
    refine (chunk_labels (List.forall_mem_singleton.mpr hd)).bind fun c w₁ ⟨hattrs, htaken, hlabels⟩ => ?_
    have hds₁ : ShapedCode w₁.attrs ds := by
      rw [hattrs]
      exact hds
    refine (chunks_labels ds hds₁).bind fun cs w₂ ⟨htaken', hlabels'⟩ => .pure ⟨?_, ?_⟩
    · refine (htaken.add htaken').of_eq ?_
      rw [List.flatMap_cons, ← Multiset.coe_add]
    · rw [hattrs] at hlabels'
      simp only [List.flatMap_cons, ← Multiset.coe_add, hlabels, hlabels']
      abel

/-- **The labels of the chunks of a program** are those of its functions, of their code and of the
two ends of each chunk, and the latter are taken from the supply. -/
theorem program_labels {p : Program} {w : Workspace}
    (hshaped : ShapedCode w.attrs (p.functions.filter hasBody)) :
    Ensures (program p) w fun l w' =>
      Label.Taken w.supply.labels w'.supply.labels (l.code.flatMap IR.CodeChunk.ends) ∧
      (l.code.flatMap IR.CodeChunk.labels : Multiset Label)
        = (Decl.walkAll everywhere p.decls).flatMap (w.attrs.functionLabels true)
          + (Decl.walkAll everywhere p.decls).flatMap w.attrs.codeLabels
          + l.code.flatMap IR.CodeChunk.ends := by
  refine Pass.attrs_ensures ?_
  refine .ofExcept_bind fun data _ => ?_
  refine (chunks_labels _ hshaped).bind fun cs w₁ ⟨htaken, hlabels⟩ => .pure ⟨htaken, ?_⟩
  have hplaces : (p.functions.filter hasBody).flatMap (fun d => w.attrs.placeLabels (.decl d))
      = (Decl.walkAll everywhere p.decls).flatMap (w.attrs.functionLabels true) := by
    rw [← flatMap_functions p fun n hn => functionLabels_eq_nil hn]
    refine List.flatMap_congr fun d hd => ?_
    have hbody := (List.mem_filter.mp hd).2
    cases d with
    | fn m name params type body =>
      have habsent : body.isAbsent = false := by simpa [hasBody] using hbody
      simp [Attributes.placeLabels, Attributes.functionLabels, habsent]
    | _ => cases hbody
  have hcodes : (p.functions.filter hasBody).flatMap (fun d => w.attrs.codeLabels (.decl d))
      = (Decl.walkAll everywhere p.decls).flatMap w.attrs.codeLabels := by
    exact flatMap_functions p fun n hn => codeLabels_eq_nil hn
  rw [hplaces, hcodes] at hlabels
  exact hlabels

end Source.Linear

/-! ## §4 Programs -/

/-- The nodes of a program for which the layout takes labels. -/
def Source.Program.labelled (p : Program) : List Node := p.decls.flatMap (Decl.labelled true)

/-- The labels of functions without a body that are not global. -/
def Source.Program.nestedRoutines (p : Program) (t : Attributes) : List Label :=
  p.labelled.flatMap (t.functionLabels false)

theorem Stages.shapedCode {p : Program} {t : Attributes} {laid coded : Workspace}
    (h : Stages p t laid coded) :
    Linear.ShapedCode coded.attrs (p.functions.filter Linear.hasBody) := by
  rintro d hd m name params type body e rfl hcode
  obtain ⟨hfunction, hbody⟩ := List.mem_filter.mp hd
  have hbody : body ≠ .absent := by
    rintro rfl
    cases hbody
  obtain ⟨_, _, _, e', _, _, hcode', _, hsound⟩ :=
    h.function_code (Linear.mem_walk_of_mem_functions hfunction).2 hbody
  cases hcode.symm.trans hcode'
  exact hsound.shaped

/-- **The labels of a program.** Those of its data and its chunks, together with those of nested
functions without a body, are the names of its global variables and functions and the labels taken
from the supply. -/
theorem linear_labels {n : Yaml.Node} {p : Program} {t : Attributes} {σ : Supply} {laid coded : Workspace}
    {l : IR.LinearProgram} (hread : Program.ofNode n = .ok p) (hresolve : p.number.resolve = .ok t)
    (htranslated : Translated p.number { attrs := t, supply := σ } laid coded l)
    (hstages : Stages p.number t laid coded) (hlinear : Linear.Describes coded.attrs p.number l) :
    ∃ (last : Int) (taken : Multiset Label), Label.Taken σ.labels last taken ∧
      ((l.data.map StaticData.label : List Label) : Multiset Label) + (l.code.flatMap IR.CodeChunk.labels)
          + p.number.nestedRoutines coded.attrs
        = p.number.decls.flatMap Decl.variableLabels + p.number.decls.flatMap Decl.functionLabels
          + taken := by
  obtain ⟨hnum, hnumbered⟩ := p.number_spec
  have hcomplete := hnumbered (Program.complete_of_ofNode hread)
  obtain ⟨-, hstrings⟩ := Program.wellNamed_of_resolve hcomplete hresolve
  -- The labels that each of the three stages takes from the supply, one after the other.
  obtain ⟨w, hrun⟩ := htranslated.linear
  obtain ⟨htaken₃, hchunks⟩ := Linear.program_labels hstages.shapedCode _ _ hrun
  have htaken₂ := (Generation.program_code hnum _ _ htranslated.generation).2.labels
  have htaken₁ := Layout.program_labels hnum hstrings _ _ htranslated.layout
  obtain ⟨globals, hglobals, hdata⟩ := hlinear.data
  refine ⟨_, _, (Label.Taken.add htaken₁ htaken₂).add htaken₃, ?_⟩
  -- The layout's labels belong to strings, to functions with a body and to functions without.
  have hplaces : (p.number.labelled.flatMap laid.attrs.placeLabels : Multiset Label)
      = p.number.labelled.flatMap coded.attrs.stringLabels
        + p.number.labelled.flatMap (coded.attrs.functionLabels true)
        + p.number.nestedRoutines coded.attrs := by
    have hsame : laid.attrs.placeLabels = coded.attrs.placeLabels := by
      funext n
      unfold Attributes.placeLabels
      rw [hstages.generates.frames, hstages.generates.strings]
    have hparts := List.flatMap_congr (l := p.number.labelled) fun n _ =>
      placeLabels_eq (t := coded.attrs) n
    rw [hsame, hparts, coe_flatMap_append, coe_flatMap_append]
    rfl
  have hfunctions : p.number.decls.flatMap (fun d => coded.attrs.functionLabels true (.decl d))
      = p.number.decls.flatMap Decl.functionLabels :=
    List.flatMap_congr fun d hd => hstages.functionLabels_decl hd
  -- Declarations are no strings, so only the nodes inside of them have string labels.
  have hnone : p.number.decls.flatMap (fun d => coded.attrs.stringLabels (.decl d)) = [] := by
    simp [Attributes.stringLabels]
  rw [hdata, List.map_append, map_label_strings, hstages.map_label_globals (fun _ h => h) hglobals,
    hchunks,
    ← Multiset.coe_add, coe_flatMap_walkAll coded.attrs.stringLabels, hnone,
    coe_flatMap_walkAll (coded.attrs.functionLabels true), hfunctions]
  show _ = _ + (((p.number.labelled.flatMap laid.attrs.placeLabels : List Label) : Multiset Label) +
    _ + _)
  rw [hplaces]
  simp only [Program.labelled, List.nil_append, Multiset.coe_nil]
  abel

end MmixBackend
