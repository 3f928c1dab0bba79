import MmixBackend.Proofs.ExactSizes
import MmixBackend.Proofs.Safety
import MmixBackend.Proofs.ProgramLabels
import MmixBackend.Proofs.Source.Typing
import MmixBackend.Proofs.UniqueLabels

/-!
# Functions inside of functions

A function declares its parameters and what stands in the blocks of its body, as far as it does not
stand inside of a nested function. A chain of functions, each declared by the next one and the last
one global, has everything in scope for the body of its first function: what a name refers to is
global, or it is declared by a function of the chain. The frames tell how long the chain is, and
where a variable lies tells which of the functions declares it.

## Main statements

- `Lexical.refers`: what the nodes of a function body refer to.
- `Stages.depth_of_lexical`: the depth of the frame of a function.
- `Stages.access_of_declares`: where a variable or parameter of a function lies.
-/

namespace MmixBackend

namespace Source

open Layout

/-! ## §1 Declarations of a function -/

/-- The function declares a parameter, or a declaration of a block that is not inside of a nested
function. -/
def Decl.Declares : Decl → Decl → Prop
  | .fn _ _ params _ body, d => (∃ p ∈ params, p.decl = d) ∨ .decl d ∈ body.walk Node.inFunction
  | _, _ => False

/-- A chain of functions, the innermost first. -/
inductive Lexical (p : Program) : List Decl → Prop
  | global {d : Decl} (hd : d ∈ p.functions) (h : d ∈ p.decls) : Lexical p [d]
  | nested {d g : Decl} {chain : List Decl} (hd : d ∈ p.functions) (h : g.Declares d)
    (hchain : Lexical p (g :: chain)) : Lexical p (d :: g :: chain)

/-- Everything in scope is global or declared by a function of the chain. -/
def Scope.Sees (p : Program) (chain : List Decl) (scope : Scope) : Prop :=
  ∀ ident d, scope.find? ident = some d → d ∈ p.decls ∨ ∃ g ∈ chain, g.Declares d

namespace Scope.Sees

variable {p : Program} {chain : List Decl} {scope : Scope}

theorem cons (h : Scope.Sees p chain scope) (g : Decl) : Scope.Sees p (g :: chain) scope :=
    fun ident d hd =>
  (h ident d hd).imp_right fun ⟨g', hg, hdeclares⟩ => ⟨g', List.mem_cons_of_mem g hg, hdeclares⟩

/-- Inside of a block. -/
theorem block (h : Scope.Sees p chain scope) {ds : List Decl} {g : Decl} (hg : g ∈ chain)
    (hds : ∀ d ∈ ds, g.Declares d) : Scope.Sees p chain (blockScope ds :: scope) := by
  intro ident d hfind
  rcases Scope.mem_of_find?_cons hfind with hmem | hfind
  · obtain ⟨d', hd, heq⟩ := List.mem_map.mp hmem
    cases heq
    exact .inr ⟨g, hg, hds d hd⟩
  · exact h ident d hfind

/-- Inside of a function. -/
theorem params (h : Scope.Sees p chain scope) {m : Mark} {name : String} {ps : List Param}
    {type : TypeExpr} {body : Expr} : Scope.Sees p (.fn m name ps type body :: chain)
    (paramScope ps :: scope) := by
  intro ident d hfind
  rcases Scope.mem_of_find?_cons hfind with hmem | hfind
  · obtain ⟨q, hq, heq⟩ := List.mem_map.mp hmem
    cases heq
    exact .inr ⟨_, List.mem_cons_self, .inl ⟨q, hq, rfl⟩⟩
  · exact h.cons _ ident d hfind

end Scope.Sees

/-! ## §2 Nodes and their scopes -/

/-- The node has a type in one of the scopes; if it is a function then its body has. -/
def Node.TypedIn (t : Attributes) (P : Scope → Prop) : Node → Prop
  | .expr e => ∃ scope ty, P scope ∧ e.HasType t scope ty
  | .stmt s => ∃ scope ty, P scope ∧ s.HasType t scope ty
  | .decl (.fn _ _ params _ body) =>
    body.isAbsent = false → ∃ scope ty, P scope ∧ body.HasType t (paramScope params :: scope) ty
  | .decl _ | .compName _ | .program _ => True

/-- The node is a name or a call, and it refers to the declaration. -/
def Node.Refers (t : Attributes) : Node → Decl → Prop
  | .expr (.name m _), d | .expr (.call m _ _), d => t.declaredAt[m.id]? = some d
  | _, _ => False

/-- What a node refers to is among the nodes. -/
theorem Node.Bound.refers {t : Attributes} {ns : List Node} {node : Node} {d : Decl} (h : node.Bound t ns)
    (hd : node.Refers t d) : .decl d ∈ ns := by
  unfold Node.Refers at hd
  split at hd
  · obtain ⟨d', hd', -, hmem⟩ := h
    cases hd.symm.trans hd'
    exact hmem
  · obtain ⟨fm, name, params, type, body, hd', hmem, -⟩ := h
    cases hd.symm.trans hd'
    exact hmem
  · exact hd.elim

section

variable {t : Attributes} {P : Scope → Prop} {ns : List Node}

/-- What a node refers to is in scope. -/
theorem Node.TypedIn.refers {node : Node} {d : Decl} (h : node.TypedIn t P) (hd : node.Refers t d) :
    ∃ sc ident, P sc ∧ sc.find? ident = some d := by
  unfold Node.Refers at hd
  split at hd
  · obtain ⟨sc, ty, hP, ⟨d', hfind, hd', -⟩, -⟩ := h
    cases hd.symm.trans hd'
    exact ⟨sc, _, hP, hfind⟩
  · obtain ⟨sc, ty, hP, ⟨_, _, _, _, _, _, -, hfind, hd', -⟩, -⟩ := h
    cases hd.symm.trans hd'
    exact ⟨sc, _, hP, hfind⟩
  · exact hd.elim

theorem typedIn_cons {node : Node} {ns' : List Node} (h : node.TypedIn t P)
    (h' : ∀ n ∈ ns', n.TypedIn t P) :
    ∀ n ∈ node :: ns', n.TypedIn t P :=
  List.forall_mem_cons.mpr ⟨h, h'⟩

theorem typedIn_append {ns₁ ns₂ : List Node} (h : ∀ n ∈ ns₁, n.TypedIn t P)
    (h' : ∀ n ∈ ns₂, n.TypedIn t P) :
    ∀ n ∈ ns₁ ++ ns₂, n.TypedIn t P :=
  List.forall_mem_append.mpr ⟨h, h'⟩

mutual

/-- The nodes of an expression in scope, up to nested functions. -/
theorem Expr.typedIn_of_hasType
    (hblock : ∀ {sc : Scope} {ds : List Decl}, P sc → (∀ d ∈ ds, .decl d ∈ ns) →
      P (blockScope ds :: sc)) :
    ∀ (e : Expr) {sc : Scope} {ty : Ty}, e.HasType t sc ty → P sc → e.walk Node.inFunction ⊆ ns →
    ∀ n ∈ e.walk Node.inFunction, n.TypedIn t P
  | .absent, _, _, h, _, _ => h.elim
  | .atom .., sc, ty, h, hP, _ | .name .., sc, ty, h, hP, _ =>
    List.forall_mem_singleton.mpr ⟨sc, ty, hP, h⟩
  | .unary _ _ arg, sc, ty, h, hP, hns | .deref _ arg, sc, ty, h, hP, hns => by
    obtain ⟨_, harg, -⟩ := h.1
    obtain ⟨-, hns⟩ := List.cons_subset.mp hns
    exact typedIn_cons ⟨sc, ty, hP, h⟩ (arg.typedIn_of_hasType hblock harg hP hns)
  | .cast _ arg _, sc, ty, h, hP, hns => by
    obtain ⟨_, _, harg, -⟩ := h.1
    obtain ⟨-, hns⟩ := List.cons_subset.mp hns
    exact typedIn_cons ⟨sc, ty, hP, h⟩ (arg.typedIn_of_hasType hblock harg hP hns)
  | .select _ record comp, sc, ty, h, hP, hns => by
    obtain ⟨_, _, hrecord, -⟩ := h.1
    obtain ⟨hns, -⟩ := List.append_subset.mp (List.cons_subset.mp hns).2
    -- The name of the component is no expression and has no type.
    exact typedIn_cons ⟨sc, ty, hP, h⟩
      (typedIn_append (record.typedIn_of_hasType hblock hrecord hP hns)
        (List.forall_mem_singleton.mpr trivial))
  | .binary _ _ fst snd, sc, ty, h, hP, hns | .index _ fst snd, sc, ty, h, hP, hns => by
    obtain ⟨_, _, hfst, hsnd, -⟩ := h.1
    obtain ⟨hns, hns'⟩ := List.append_subset.mp (List.cons_subset.mp hns).2
    exact typedIn_cons ⟨sc, ty, hP, h⟩
      (typedIn_append (fst.typedIn_of_hasType hblock hfst hP hns)
        (snd.typedIn_of_hasType hblock hsnd hP hns'))
  | .call _ _ args, sc, ty, h, hP, hns => by
    obtain ⟨tys, _, _, _, _, _, hargs, -⟩ := h.1
    obtain ⟨-, hns⟩ := List.cons_subset.mp hns
    exact typedIn_cons ⟨sc, ty, hP, h⟩ (Expr.typedIn_of_haveTypes hblock args hargs hP hns)
  | .block _ ss, sc, ty, h, hP, hns => by
    obtain ⟨-, hns⟩ := List.cons_subset.mp hns
    exact typedIn_cons ⟨sc, ty, hP, h⟩ (Stmt.typedIn_of_haveType hblock ss h.1 hP hns)
  | .scope _ ds body, sc, ty, h, hP, hns => by
    obtain ⟨-, hbodies, hbody⟩ := h.1
    obtain ⟨hns, hns'⟩ := List.append_subset.mp (List.cons_subset.mp hns).2
    -- The declarations of the block are among the nodes of the function.
    have hP' := hblock hP fun d hd => hns (Decl.mem_walkAll hd)
    exact typedIn_cons ⟨sc, ty, hP, h⟩
      (typedIn_append (Decl.typedIn_of_bodiesTyped ds hbodies hP')
        (body.typedIn_of_hasType hblock hbody hP' hns'))

theorem Expr.typedIn_of_haveTypes
    (hblock : ∀ {sc : Scope} {ds : List Decl}, P sc → (∀ d ∈ ds, .decl d ∈ ns) →
      P (blockScope ds :: sc)) :
    ∀ (es : List Expr) {sc : Scope} {tys : List Ty}, Expr.HaveTypes t sc es tys → P sc →
    Expr.walkAll Node.inFunction es ⊆ ns → ∀ n ∈ Expr.walkAll Node.inFunction es, n.TypedIn t P
  | [], _, _, _, _, _ => List.forall_mem_nil _
  | e :: es, _, _, ⟨_, _, he, hes, _⟩, hP, hns => by
    obtain ⟨hns, hns'⟩ := List.append_subset.mp hns
    exact typedIn_append (e.typedIn_of_hasType hblock he hP hns)
      (Expr.typedIn_of_haveTypes hblock es hes hP hns')

theorem Stmt.typedIn_of_hasType
    (hblock : ∀ {sc : Scope} {ds : List Decl}, P sc → (∀ d ∈ ds, .decl d ∈ ns) →
      P (blockScope ds :: sc)) :
    ∀ (s : Stmt) {sc : Scope} {ty : Ty}, s.HasType t sc ty → P sc → s.walk Node.inFunction ⊆ ns →
    ∀ n ∈ s.walk Node.inFunction, n.TypedIn t P
  | .absent, _, _, _, _, _ => List.forall_mem_nil _
  | .eval _ e, sc, ty, h, hP, hns => by
    obtain ⟨-, hns⟩ := List.cons_subset.mp hns
    exact typedIn_cons ⟨sc, ty, hP, h⟩ (e.typedIn_of_hasType hblock h hP hns)
  | .assign _ dst src, sc, ty, h, hP, hns => by
    obtain ⟨_, _, hdst, hsrc, -⟩ := h.1
    obtain ⟨hns, hns'⟩ := List.append_subset.mp (List.cons_subset.mp hns).2
    exact typedIn_cons ⟨sc, ty, hP, h⟩
      (typedIn_append (dst.typedIn_of_hasType hblock hdst hP hns)
        (src.typedIn_of_hasType hblock hsrc hP hns'))
  | .cond _ test yes no, sc, ty, h, hP, hns => by
    obtain ⟨_, _, _, htest, -, hyes, hno⟩ := h.1
    obtain ⟨hns, hns''⟩ := List.append_subset.mp (List.cons_subset.mp hns).2
    obtain ⟨hns, hns'⟩ := List.append_subset.mp hns
    exact typedIn_cons ⟨sc, ty, hP, h⟩ (typedIn_append
      (typedIn_append (test.typedIn_of_hasType hblock htest hP hns)
        (yes.typedIn_of_hasType hblock hyes hP hns'))
      (no.typedIn_of_hasType hblock hno hP hns''))
  | .loop _ test body, sc, ty, h, hP, hns => by
    obtain ⟨_, _, htest, -, hbody⟩ := h.1
    obtain ⟨hns, hns'⟩ := List.append_subset.mp (List.cons_subset.mp hns).2
    exact typedIn_cons ⟨sc, ty, hP, h⟩
      (typedIn_append (test.typedIn_of_hasType hblock htest hP hns)
        (body.typedIn_of_hasType hblock hbody hP hns'))

theorem Stmt.typedIn_of_haveType
    (hblock : ∀ {sc : Scope} {ds : List Decl}, P sc → (∀ d ∈ ds, .decl d ∈ ns) →
      P (blockScope ds :: sc)) :
    ∀ (ss : List Stmt) {sc : Scope} {ty : Ty}, Stmt.HaveType t sc ss ty → P sc →
    Stmt.walkAll Node.inFunction ss ⊆ ns → ∀ n ∈ Stmt.walkAll Node.inFunction ss, n.TypedIn t P
  | [], _, _, _, _, _ => List.forall_mem_nil _
  | [s], _, _, h, hP, hns => by
    obtain ⟨hns, -⟩ := List.append_subset.mp hns
    exact typedIn_append (s.typedIn_of_hasType hblock h hP hns) (List.forall_mem_nil _)
  | s :: s' :: ss, _, _, ⟨⟨_, hs⟩, hss⟩, hP, hns => by
    obtain ⟨hns, hns'⟩ := List.append_subset.mp hns
    exact typedIn_append (s.typedIn_of_hasType hblock hs hP hns)
      (Stmt.typedIn_of_haveType hblock (s' :: ss) hss hP hns')

theorem Decl.typedIn_of_bodiesTyped : ∀ (ds : List Decl) {sc : Scope}, Decl.BodiesTyped t sc ds → P sc →
    ∀ n ∈ Decl.walkAll Node.inFunction ds, n.TypedIn t P
  | [], _, _, _ => List.forall_mem_nil _
  | .fn _ _ _ _ _ :: ds, sc, h, hP => by
    refine typedIn_cons (fun hbody => ?_) (Decl.typedIn_of_bodiesTyped ds h.2 hP)
    obtain ⟨-, got, _, hgot, -⟩ := h.1 hbody
    exact ⟨sc, got, hP, hgot⟩
  | .var .. :: ds, _, h, hP | .typ .. :: ds, _, h, hP | .par .. :: ds, _, h, hP | .comp .. :: ds, _,
      h, hP =>
    typedIn_cons trivial (Decl.typedIn_of_bodiesTyped ds h hP)

end

/-! ## §3 Chains -/

theorem Lexical.mem_functions {p : Program} {chain : List Decl} (h : Lexical p chain) :
    ∀ d ∈ chain, d ∈ p.functions := by
  induction h with
  | global hd => exact List.forall_mem_singleton.mpr hd
  | nested hd _ _ ih => exact List.forall_mem_cons.mpr ⟨hd, ih⟩

/-- Each function of a chain is declared by the next one. -/
theorem Lexical.declares {p : Program} {chain : List Decl} (h : Lexical p chain) :
    ∀ {i : Nat} {d g : Decl},
    chain[i]? = some d → chain[i + 1]? = some g → g.Declares d := by
  induction h with
  | global => exact fun _ hg => by cases hg
  | nested _ hdeclares _ ih =>
    intro i d g hd hg
    cases i with
    | zero =>
      cases hd
      cases hg
      exact hdeclares
    | succ i => exact ih hd hg

/-- The functions of a chain behind some of them are a chain. -/
theorem Lexical.drop {p : Program} {chain : List Decl} (h : Lexical p chain) :
    ∀ {i : Nat}, i < chain.length → Lexical p (chain.drop i) := by
  induction h with
  | global hd h =>
    intro i hi
    obtain rfl : i = 0 := Nat.lt_one_iff.mp hi
    exact .global hd h
  | nested hd hdeclares hchain ih =>
    intro i hi
    cases i with
    | zero => exact .nested hd hdeclares hchain
    | succ i => exact ih (Nat.lt_of_succ_lt_succ hi)

/-- The nodes of a function body are in scopes in which the function and those around it are seen. -/
theorem typedIn_body {p : Program} {m : Mark} {name : String} {params : List Param}
    {type : TypeExpr} {body : Expr} {chain : List Decl} {sc : Scope} (hsc : Scope.Sees p chain sc)
    {ty : Ty} (hbody : body.HasType t (paramScope params :: sc) ty) :
    ∀ n ∈ body.walk Node.inFunction, n.TypedIn t (Scope.Sees p (.fn m name params type body :: chain)) :=
  body.typedIn_of_hasType (fun h hds => h.block List.mem_cons_self fun d hd => .inr (hds d hd))
    hbody hsc.params
    (List.Subset.refl _)

/-- **What is in scope for the nodes of a function body.** -/
theorem Lexical.typed {p : Program} (hp : p.Typed t) {chain : List Decl} (h : Lexical p chain) :
    ∀ {m : Mark} {name : String} {params : List Param} {type : TypeExpr} {body : Expr} {rest : List Decl},
      chain = .fn m name params type body :: rest → body.isAbsent = false →
      ∀ n ∈ body.walk Node.inFunction, n.TypedIn t (Scope.Sees p chain) := by
  -- From the global function at the end of the chain inwards.
  induction h with
  | global _ hd =>
    intro m name params type body rest heq hbody
    cases heq
    -- A global function is typed in the scope of the program's own declarations.
    have hnode := @Decl.typedIn_of_bodiesTyped t (· = [blockScope p.decls]) [] p.decls _ hp.bodies rfl _
      (Decl.mem_walkAll hd)
    obtain ⟨sc, ty, rfl, hty⟩ := hnode hbody
    refine typedIn_body (fun ident d hfind => ?_) hty
    rcases Scope.mem_of_find?_cons hfind with hmem | hfind
    · obtain ⟨d', hd', heq⟩ := List.mem_map.mp hmem
      cases heq
      exact .inl hd'
    · cases hfind
  | @nested d g chain _ hdeclares hchain ih =>
    intro m name params type body rest heq hbody
    cases heq
    obtain ⟨⟨gm, gname, gparams, gtype, gbody, rfl⟩, -⟩ :=
      Linear.mem_walk_of_mem_functions (hchain.mem_functions _ List.mem_cons_self)
    rcases hdeclares with ⟨q, -, hq⟩ | hnode
    · cases hq
    · have hgbody : gbody.isAbsent = false := by
        cases gbody with
        | absent => exact (List.not_mem_nil hnode).elim
        | _ => rfl
      -- The declaration of the function is a node of the function around it, and typed there.
      obtain ⟨sc, ty, hsc, hty⟩ := ih rfl hgbody _ hnode hbody
      exact typedIn_body hsc hty

theorem Expr.isAbsent_of_mem_walk {enter : Node → Bool} {body : Expr} {node : Node}
    (h : node ∈ body.walk enter) :
    body.isAbsent = false := by
  cases body with
  | absent => exact (List.not_mem_nil h).elim
  | _ => rfl

/-- **What a node of a function body refers to** is global, or it is declared by the function or by
one around it. -/
theorem Lexical.refers {p : Program} (hp : p.Typed t) {m : Mark} {name : String}
    {params : List Param} {type : TypeExpr} {body : Expr} {rest : List Decl}
    (h : Lexical p (.fn m name params type body :: rest)) {node : Node}
    (hnode : node ∈ body.walk Node.inFunction) {d : Decl} (hd : node.Refers t d) :
    d ∈ p.decls ∨ ∃ g ∈ Decl.fn m name params type body :: rest, g.Declares d := by
  obtain ⟨sc, ident, hsees, hfind⟩ :=
    (h.typed hp rfl (Expr.isAbsent_of_mem_walk hnode) node hnode).refers hd
  exact hsees ident d hfind

end

end Source

namespace Stages

open Source

variable {p : Program} {t : Attributes} {laid coded : Workspace}

/-- A function that is declared inside of another one lies one deeper. -/
theorem depth_of_nested (h : Stages p t laid coded) {gm m : Mark} {gname name : String}
    {gparams params : List Param} {gtype type : TypeExpr} {gbody body : Expr}
    (hg : .fn gm gname gparams gtype gbody ∈ p.functions) {g : Frame}
    (hframe : laid.attrs.frames[gm.id]? = some g)
    (hnode : .decl (.fn m name params type body) ∈ gbody.walk Node.inFunction) {f : Frame}
    (hf : laid.attrs.frames[m.id]? = some f) : f.depth = g.depth + 1 := by
  obtain ⟨n, ⟨label, fp, rv, -, hg'⟩, -, hgbody⟩ :=
    h.arranged_function (Linear.mem_walk_of_mem_functions hg).2
  have hfills := gbody.fills_of_arranged (Attributes.sized h.positive h.definitions) hgbody (b := 0)
    ⟨rfl, rfl, rfl⟩
  obtain ⟨n', -, hdepth, ⟨_, _, _, -, hf'⟩, -⟩ := hfills.nested _ hnode
  cases hframe.symm.trans hg'
  cases hf.symm.trans hf'
  exact hdepth

/-- **The depth of the frame of a function** tells how many functions are around it. -/
theorem depth_of_lexical (h : Stages p t laid coded) {chain : List Decl} (hchain : Lexical p chain) :
    ∀ {d : Decl} {rest : List Decl}, chain = d :: rest →
      ∀ {f : Frame}, laid.attrs.frames[d.id]? = some f →
      f.depth = .ofNat rest.length := by
  induction hchain with
  | global hfn hd =>
    intro d rest heq f hf
    cases heq
    obtain ⟨⟨m, name, params, type, body, rfl⟩, -⟩ := Linear.mem_walk_of_mem_functions hfn
    obtain ⟨⟨label, fp, rv, -, hf'⟩, -⟩ := h.arranged.global rfl hd
    cases hf.symm.trans hf'
    rfl
  | @nested d g chain hfn hdeclares hchain ih =>
    intro d' rest heq f hf
    cases heq
    have hg := hchain.mem_functions _ List.mem_cons_self
    obtain ⟨⟨m, name, params, type, body, rfl⟩, -⟩ := Linear.mem_walk_of_mem_functions hfn
    obtain ⟨⟨gm, gname, gparams, gtype, gbody, rfl⟩, hgnode⟩ := Linear.mem_walk_of_mem_functions hg
    rcases hdeclares with ⟨q, -, hq⟩ | hnode
    · cases hq
    · obtain ⟨n, ⟨label, fp, rv, -, hframe⟩, -⟩ := h.arranged_function hgnode
      rw [h.depth_of_nested hg hframe hnode hf, ih rfl hframe, List.length_cons]
      exact (Int64.ofNat_add ..).symm

/-- **Where a variable or parameter of a function lies.** -/
theorem access_of_declares (h : Stages p t laid coded) {gm : Mark} {gname : String} {gparams : List Param}
    {gtype : TypeExpr} {gbody : Expr} (hg : .fn gm gname gparams gtype gbody ∈ p.functions) {g : Frame}
    (hframe : laid.attrs.frames[gm.id]? = some g) {d : Decl} (hvar : d.IsVariable)
    (hdeclares : (Decl.fn gm gname gparams gtype gbody).Declares d) :
    (∃ i q, gparams[i]? = some q ∧ q.decl = d ∧
      laid.attrs.accesses[d.id]? = some (.relative (.ofNat 8) (.ofNat (8 * (i + 1))) (g.depth + 1))) ∨
    ∃ i, gbody.locals[i]? = some d.id ∧ laid.attrs.accesses[d.id]? = some
      (.relative (.ofNat (t.exactBytes d.id)) (-.ofNat (t.exactSum (gbody.locals.take (i + 1))))
        (g.depth + 1)) := by
  have hnode := (Linear.mem_walk_of_mem_functions hg).2
  rcases hdeclares with ⟨q, hq, rfl⟩ | hmem
  · obtain ⟨i, hi⟩ := List.getElem?_of_mem hq
    obtain ⟨n, ⟨label, fp, rv, -, hg'⟩, hparams, -⟩ := h.arranged_function hnode
    cases hframe.symm.trans hg'
    have hscalar : ∀ q ∈ gparams, q.IsScalar t := fun q hq =>
      ((Program.bound_of_resolved h.resolved _ hnode).1 q hq).2
    have haccess := Param.access_of_arrangedAll (b := 0) hparams hscalar hi
    rw [Nat.zero_add] at haccess
    exact .inl ⟨i, q, hi, rfl, haccess⟩
  · obtain ⟨f, hf, hexact⟩ := h.exactModulo hg
    cases hframe.symm.trans hf
    cases d with
    | var m name type =>
      obtain ⟨i, hi⟩ := List.getElem?_of_mem (l := gbody.locals) (List.mem_filterMap.mpr ⟨_, hmem, rfl⟩)
      exact .inr ⟨i, hi, hexact.locals i _ hi⟩
    | par m name type =>
      -- Parameters stand in front of a body and not in it.
      obtain ⟨n, -, -, hgbody⟩ := h.arranged_function hnode
      have hfills := gbody.fills_of_arranged (Attributes.sized h.positive h.definitions) hgbody (b := 0)
        ⟨rfl, rfl, rfl⟩
      exact (hfills.nested _ hmem).elim
    | _ => exact hvar.elim

end Stages

/-! ## §4 Labels of functions -/

open Source

section

variable {n : Yaml.Node} {p : Program} {t : Attributes} {σ : Supply} {laid coded : Workspace}
  {l : IR.LinearProgram} (hread : Program.ofNode n = .ok p) (hresolve : p.number.resolve = .ok t)
  (htranslated : Translated p.number { attrs := t, supply := σ } laid coded l)
include hread hresolve htranslated

/-- The labels for nested functions and strings have been taken from the supply. -/
theorem Translated.taken_labels : ∃ first last : Int, Label.Taken first last
    ((p.number.decls.flatMap (Decl.labelled true)).flatMap laid.attrs.placeLabels : List Label) := by
  obtain ⟨hnum, hnumbered⟩ := p.number_spec
  have hstrings := (Program.wellNamed_of_resolve (hnumbered (Program.complete_of_ofNode hread))
    hresolve).2
  exact ⟨_, _, Layout.program_labels hnum hstrings _ _ htranslated.layout⟩

/-- The label of a function that is not global starts with an `L`. -/
theorem Translated.head?_label {d : Decl} (hd : d ∈ p.number.functions)
    (hnested : d ∉ p.number.decls) {f : Frame} (hf : laid.attrs.frames[d.id]? = some f) :
    f.label.toList.head? = some 'L' := by
  obtain ⟨first, last, htaken⟩ := htranslated.taken_labels hread hresolve
  obtain ⟨⟨m, name, params, type, body, rfl⟩, hnode⟩ := Linear.mem_walk_of_mem_functions hd
  have hplace : f.label ∈ laid.attrs.placeLabels (.decl (.fn m name params type body)) := by
    simp [Attributes.placeLabels, show laid.attrs.frames[m.id]? = some f from hf]
  rcases mem_decls_or_labelled hnode with ⟨d, hglobal, heq⟩ | hmem
  · cases heq
    exact (hnested hglobal).elim
  · obtain ⟨k, -, -, hk⟩ :=
      htaken.mem_iff.mp (Multiset.mem_coe.mpr (List.mem_flatMap.mpr ⟨_, hmem, hplace⟩))
    rw [hk]
    exact Label.head?_numbered k

/-- **A function is known by the label of its frame.** -/
theorem Translated.function_of_label (h : Stages p.number t laid coded) {d d' : Decl}
    (hd : d ∈ p.number.functions) (hd' : d' ∈ p.number.functions) {f f' : Frame}
    (hf : laid.attrs.frames[d.id]? = some f) (hf' : laid.attrs.frames[d'.id]? = some f')
    (hlabel : f.label = f'.label) : d = d' := by
  have hnamed := (Program.wellNamed_of_resolve (p.number_spec.2 (Program.complete_of_ofNode hread))
    hresolve).1
  have hhead := htranslated.head?_label hread hresolve hd
  have hhead' := htranslated.head?_label hread hresolve hd'
  obtain ⟨⟨m, name, params, type, body, rfl⟩, hnode⟩ := Linear.mem_walk_of_mem_functions hd
  obtain ⟨⟨m', name', params', type', body', rfl⟩, hnode'⟩ := Linear.mem_walk_of_mem_functions hd'
  -- The label of a nested function has been taken from the supply, that of a global one is its name.
  have hglobal {m : Mark} {name : String} {params : List Param} {type : TypeExpr}
    {body : Expr} {f : Frame}
      (hmem : .fn m name params type body ∈ p.number.decls) (hf : laid.attrs.frames[m.id]? = some f) :
      f.label.toList.head? ≠ some 'L' := by
    rw [h.label_eq_global hmem hf, Label.head?_global]
    decide
  by_cases hmem : .fn m name params type body ∈ p.number.decls <;>
    by_cases hmem' : .fn m' name' params' type' body' ∈ p.number.decls
  · have hname : name = name' := Label.global_injective
      (by rw [← h.label_eq_global hmem hf, ← h.label_eq_global hmem' hf', hlabel])
    exact List.inj_on_of_nodup_map hnamed.distinct hmem hmem' hname
  · exact (hglobal hmem hf (hlabel ▸ hhead' hmem' hf')).elim
  · exact (hglobal hmem' hf' (hlabel ▸ hhead hmem hf)).elim
  · obtain ⟨first, last, htaken⟩ := htranslated.taken_labels hread hresolve
    have hlabelled {d : Decl} (hnode : .decl d ∈ Decl.walkAll everywhere p.number.decls)
      (hmem : d ∉ p.number.decls) :
        .decl d ∈ p.number.decls.flatMap (Decl.labelled true) :=
      (mem_decls_or_labelled hnode).resolve_left fun ⟨_, hd, heq⟩ => hmem (Node.decl.inj heq ▸ hd)
    have hplace : f.label ∈ laid.attrs.placeLabels (.decl (.fn m name params type body)) := by
      simp [Attributes.placeLabels, show laid.attrs.frames[m.id]? = some f from hf]
    have hplace' : f.label ∈ laid.attrs.placeLabels (.decl (.fn m' name' params' type' body')) := by
      simp [Attributes.placeLabels, show laid.attrs.frames[m'.id]? = some f' from hf', hlabel]
    exact Node.decl.inj (eq_of_mem_flatMap (Multiset.coe_nodup.mp htaken.nodup) (hlabelled hnode hmem)
      (hlabelled hnode' hmem') hplace hplace')

end

end MmixBackend
