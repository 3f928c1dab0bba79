import MmixBackend.Proofs.LexicalStacks

/-!
# Programs without pointers are disciplined

The functions of an accepted program that follows no pointers do with the stack what the layout has
planned: a variable is read and written at its place in the layer of the function that declares it,
the arguments of a call are put where the callee has its parameters, and a function that the running
one declares gets the frame pointer of the latter as its static link.

## Main statements

- `Settled.loaded`: the functions that a machine has loaded.
- `Settled.grounds`: what the code of the running function needs.
- `Settled.disciplinesAll`: all functions of the program are disciplined.
-/

namespace MmixBackend

open Source Machine Generation

/-! ## §1 Loaded functions -/

/-- Subtracting depths tells how many functions lie between. -/
theorem Word.toInt_depth_sub {n i : Nat} (hi : i ≤ n) (hn : n < 2 ^ 63) :
    (Int64.ofNat n - (.ofNat (n - i) + 1) + 1).toInt.toNat = i := by
  have hdiff : Int64.ofNat n - (.ofNat (n - i) + 1) + 1 = .ofNat i := by
    have hsplit : Int64.ofNat n = .ofNat i + .ofNat (n - i) := by
      rw [← Int64.ofNat_add, Nat.add_sub_cancel' hi]
    rw [hsplit]
    grind
  rw [hdiff, Int64.toInt_ofNat_of_lt (by omega), Int.toNat_natCast]

namespace Settled

variable {o : Options} {p : Program} {t : Attributes} {laid coded : Workspace}
  {c : Compiled} {m : Machine}

/-- **What is loaded**: the functions of the program under the labels of their frames, with their code. -/
theorem loaded (h : Settled o p t laid coded c) (hm : c.RunsOn coded.attrs p m) {l : Label} {f : Function}
    (hf : m.functions[l]? = some f) : ∃ mark name params type body lo hi code,
      .fn mark name params type body ∈ p.functions ∧ laid.attrs.frames[mark.id]? = some f.frame ∧
        f.frame.label = l ∧
        body.Code laid.attrs f.frame lo hi code ∧ f.body = .ofStmts [.move (.temp f.frame.rv) code] := by
  obtain ⟨input, limit, rfl⟩ := hm
  obtain ⟨d, hd, hlabel, rfl⟩ :=
    (Machine.loaded_addFunctions _ _ _ _ _ (Stages.treeMachine_eq c coded.attrs p input)).2.2 l f hf
  obtain ⟨hfunction, hbody⟩ := List.mem_filter.mp hd
  obtain ⟨⟨mark, name, params, type, body, rfl⟩, hnode⟩ := Linear.mem_walk_of_mem_functions hfunction
  have hbody : body ≠ .absent := by
    rintro rfl
    cases hbody
  obtain ⟨f, lo, hi, code, hcoded, hlaid, hcode, hc, -⟩ := h.compiled.stages.function_code hnode hbody
  rw [Stages.treeFrame, hcoded] at hlabel
  rw [Stages.treeFrame, Stages.treeStmts, hcoded, hcode]
  exact ⟨mark, name, params, type, body, lo, hi, code, hfunction, hlaid, hlabel, hc, rfl⟩

/-- A function with a body is loaded, and its code moves the value of the body to the temp for the
result. -/
theorem exists_loaded (h : Settled o p t laid coded c) (hm : c.RunsOn coded.attrs p m) {mark : Mark}
    {name : String} {params : List Param} {type : TypeExpr} {body : Expr}
    (hfn : .fn mark name params type body ∈ p.functions) (hbody : body ≠ .absent) {f : Frame}
    (hf : laid.attrs.frames[mark.id]? = some f) : ∃ lo hi code,
      body.Code laid.attrs f lo hi code ∧
        m.functions[f.label]? = some ⟨f, .ofStmts [.move (.temp f.rv) code]⟩ := by
  obtain ⟨f', -, -, -, hcoded, hlaid, -⟩ := h.compiled.stages.function_code
    (Linear.mem_walk_of_mem_functions hfn).2 hbody
  cases hf.symm.trans hlaid
  have hsome : m.functions[f.label]?.isSome := by
    obtain ⟨input, limit, rfl⟩ := hm
    have hloaded := (Machine.loaded_addFunctions _ _ _ _ _
      (Stages.treeMachine_eq c coded.attrs p input)).2.1 _
      (List.mem_filter.mpr ⟨hfn, Linear.hasBody_of_ne_absent hbody⟩)
    rwa [Stages.treeFrame, hcoded, Option.getD_some] at hloaded
  obtain ⟨g, hg⟩ := Option.isSome_iff_exists.mp hsome
  obtain ⟨_, _, _, _, _, lo, hi, code, hfn', hf', hlabel, hcode, hgbody⟩ := h.loaded hm hg
  cases h.labelled _ hfn _ hfn' _ _ hf hf' hlabel.symm
  obtain rfl : g.frame = f := Option.some.inj (hf'.symm.trans hf)
  exact ⟨lo, hi, code, hcode, hg.trans (congrArg some (by rw [← hgbody]))⟩

/-- A function of the program is loaded with its frame. -/
theorem frame_of_loaded (h : Settled o p t laid coded c) (hm : c.RunsOn coded.attrs p m) {d : Decl}
    (hd : d ∈ p.functions) {f : Frame} (hf : laid.attrs.frames[d.id]? = some f) {g : Function}
    (hg : m.functions[f.label]? = some g) : g.frame = f := by
  obtain ⟨mark, name, params, type, body, -, -, -, hfn, hframe, hlabel, -⟩ := h.loaded hm hg
  obtain rfl := h.labelled d hd _ hfn f g.frame hf hframe hlabel.symm
  exact Option.some.inj (hframe.symm.trans hf)

/-- The frame of a function tells how many parameters it has. -/
theorem eq_of_takes (h : Settled o p t laid coded c) {mark : Mark} {name : String} {params : List Param}
    {type : TypeExpr} {body : Expr} (hfn : .fn mark name params type body ∈ p.functions) {f : Frame}
    (hf : laid.attrs.frames[mark.id]? = some f) {n : Nat} (hn : (p.nesting t laid.attrs).takes f n) :
    n = params.length + 1 := by
  obtain ⟨mark', name', params', type', body', hfn', hf', rfl⟩ := hn
  cases h.unique hfn hfn' hf hf'
  rfl

/-! ## §2 The running function -/

section

variable {S : List Layer} {L : Layer} {mark : Mark} {name : String} {params : List Param}
  {type : TypeExpr} {body : Expr} {rest : List Decl}

/-- What a node of the running function refers to is global, or it is declared by the function of
one of the layers. -/
theorem declared_in_chain (h : Settled o p t laid coded c)
    (hact : Activates p laid.attrs (.fn mark name params type body :: rest) S) {node : Node}
    (hnode : node ∈ body.walk Node.inFunction) {d : Decl} (hd : node.Refers laid.attrs d) :
    d ∈ p.decls ∨ ∃ (i : Nat) (g : Decl) (L' : Layer),
      (.fn mark name params type body :: rest)[i]? = some g ∧
      g.Declares d ∧ S[i]? = some L' ∧ laid.attrs.frames[g.id]? = some L'.frame := by
  have hrefers : node.Refers t d := by
    unfold Node.Refers at hd ⊢
    rwa [h.compiled.stages.resolves.declaredAt] at hd
  refine (hact.lexical.refers h.typed hnode hrefers).imp_right fun ⟨g, hg, hdeclares⟩ => ?_
  obtain ⟨i, hi⟩ := List.getElem?_of_mem hg
  obtain ⟨L', hL', hf⟩ := hact.frames i g hi
  exact ⟨i, g, L', hi, hdeclares, hL', hf⟩

/-- The links between the running function and the one that declares a variable. -/
theorem hops_eq (h : Settled o p t laid coded c) {d : Decl}
    (hS : (p.nesting t laid.attrs).Seated (L :: S))
    (hact : Activates p laid.attrs (d :: rest) (L :: S)) {i : Nat} {g : Decl}
    (hg : (d :: rest)[i]? = some g) {f : Frame} (hf : laid.attrs.frames[g.id]? = some f) :
    (L.frame.depth - (f.depth + 1) + 1).toInt.toNat = i := by
  obtain ⟨hdepth, htoInt⟩ := h.toInt_depth hS hact
  have hlt := L.frame.depth.toInt_lt
  have hi := (List.getElem?_eq_some_iff.mp hg).1
  rw [List.length_cons] at hi
  rw [h.depth_of_chain hact hg hf, hdepth, List.length_cons, Nat.add_sub_add_right]
  exact Word.toInt_depth_sub (by omega) (by omega)

/-- The code of a variable leads to its place. -/
theorem grounded_name (h : Settled o p t laid coded c) (hm : c.RunsOn coded.attrs p m)
    (hS : (p.nesting t laid.attrs).Seated (L :: S))
    (hact : Activates p laid.attrs (.fn mark name params type body :: rest) (L :: S)) {nm : Mark}
    {ident : String} {code : IR.Expr} (hnode : .expr (.name nm ident) ∈ body.walk Node.inFunction)
    (hcode : NameCode laid.attrs L.frame nm code)
    (hlocated : (Expr.name nm ident).located t = true) :
    Grounded (p.nesting t laid.attrs) m (L :: S) t (.name nm ident) code := by
  obtain ⟨sc, ty, -, ⟨d, -, hbound, -, hdecl⟩, hty⟩ :=
    hact.lexical.typed h.typed rfl (Expr.isAbsent_of_mem_walk hnode) _ hnode
  obtain ⟨d', hbound', hvar⟩ := Expr.located_iff.mp hlocated
  cases hbound.symm.trans hbound'
  -- The place has as many bytes as the declared type of the variable takes.
  have hbytes : t.exactBytes d.id = ty.exactSize t.typeDefs := by
    rw [Attributes.exactBytes, hdecl, Option.getD_some]
  have hresolves := h.compiled.stages.resolves
  have hnodes := (Program.bound_of_resolved h.compiled.stages.resolved _
    (Linear.mem_walk_of_mem_functions (hact.lexical.mem_functions _ List.mem_cons_self)).2).2 _
    (body.walk_inFunction_subset hnode)
  -- By the form of the code: a call, a label of the data section, or an offset in a frame.
  cases hcode with
  | call hfn =>
    rw [hresolves.declaredAt, hbound] at hfn
    cases hfn
    exact hvar.elim
  | @static d' data hd' _ haccess =>
    rw [hresolves.declaredAt, hbound] at hd'
    cases hd'
    have hmem := (Program.bound_of_resolved h.compiled.stages.resolved _ hnodes).refers hbound
    obtain ⟨_, _, _, -, hglobal⟩ := h.compiled.stages.mem_decls_of_static hmem hvar haccess
    obtain ⟨a, hlabel, hplace⟩ := h.place_of_global hm hS hglobal hvar haccess
    refine .ofPlace hty fun a' ha' => ?_
    cases hlabel.symm.trans ha'
    rwa [← hbytes]
  | @relative d' size offset depth hd' _ haccess =>
    rw [hresolves.declaredAt, hbound] at hd'
    cases hd'
    -- The frame is reached through static links, as many as there are functions in between.
    rcases h.declared_in_chain hact hnode (hresolves.declaredAt ▸ hbound) with
      hglobal | ⟨i, g, L', hg, hdeclares, hL', hf⟩
    · obtain ⟨data, hstatic⟩ := h.compiled.stages.access_of_global hglobal hvar
      cases haccess.symm.trans hstatic
    · have hgmem := hact.lexical.mem_functions g (List.mem_of_getElem? hg)
      obtain ⟨_, _, haccess', hplace⟩ := h.place_of_declares hS (List.mem_of_getElem? hL') hgmem hf
        hvar hdeclares
      cases haccess.symm.trans haccess'
      rw [h.hops_eq hS hact hg hf]
      refine .ofPlace hty ((hact.comesTo_frameAddr (List.getElem?_eq_some_iff.mp hg).1).add_const
        fun v hv => ?_)
      obtain ⟨L'', hL'', rfl⟩ := hv
      cases hL'.symm.trans hL''
      rwa [← hbytes]

/-- The code of a static link can be the link of the callee: for a function that the running one
declares it is the frame pointer of the latter. -/
theorem comesTo_staticLink (h : Settled o p t laid coded c) (hm : c.RunsOn coded.attrs p m) {d d' : Decl}
    (hact : Activates p laid.attrs (d :: rest) (L :: S)) (hd' : d' ∈ p.functions) {callee : Frame}
    (hcallee : laid.attrs.frames[d'.id]? = some callee) :
    (staticLink L.frame callee).ComesTo (p.nesting t laid.attrs) m (L :: S)
      ((p.nesting t laid.attrs).LinkFor m (L :: S) callee.label) := by
  obtain ⟨_, hL, hf⟩ := hact.frames 0 d rfl
  cases hL
  by_cases hinside : (p.nesting t laid.attrs).inside callee L.frame
  · obtain ⟨d'', hd'', e, he, hf'', hfe, hdeclares⟩ := hinside
    obtain rfl := h.unique hd' hd'' hcallee hf''
    obtain rfl := h.unique (hact.lexical.mem_functions _ List.mem_cons_self) he hf hfe
    -- The callee lies one deeper than the running function.
    have hdepth := h.depth_of_declared hd' he hdeclares hcallee hf
    have hhops : (L.frame.depth - callee.depth).toInt.toNat = 0 := by
      rw [← hdepth, show L.frame.depth - (L.frame.depth + 1) = -1 by grind]
      rfl
    rw [staticLink, hhops]
    refine ⟨L, rfl, rfl, fun _ f _ _ L' hL' _ => ?_⟩
    cases hL'
    rfl
  · refine (IR.Expr.comesTo_frameAddr_any rfl rfl _).mono fun v _ _ f hf' _ L' hL' hin =>
      (hinside ?_).elim
    cases hL'
    rwa [h.frame_of_loaded hm hd' hcallee hf'] at hin

/-- A call of the running function has room for its arguments, and for the link in front of them. -/
theorem places_of_calls (h : Settled o p t laid coded c) (hm : c.RunsOn coded.attrs p m)
    (hfn : .fn mark name params type body ∈ p.functions)
    (hf : laid.attrs.frames[mark.id]? = some L.frame) {node : Node}
    (hnode : node ∈ body.walk Node.inFunction) {call : Label × List Word}
    (hcall : node.Calls laid.attrs call) :
    (p.nesting t laid.attrs).Places m (L :: S) call.1 call.2 := by
  have hstages := h.compiled.stages
  have hoffs := hstages.arguments_fit hfn (h.fits _ _ _ _ _ hfn) hf hnode hcall
  refine ⟨L, rfl, hoffs, fun hroutine => ?_⟩
  have hbound := Program.bound_of_resolved hstages.resolved
  have hin := (hbound _ (Linear.mem_walk_of_mem_functions hfn).2).2 _ (body.walk_inFunction_subset hnode)
  have hlaidbound := hstages.bound _ hin
  -- A name that is called passes the link only; a call passes its arguments behind it.
  cases hcall with
  | routine hop =>
    obtain ⟨-, rfl⟩ | ⟨-, rfl⟩ := hop <;> cases hroutine
  | name hdecl hframe =>
    obtain ⟨d, hd, hvalue, hmem⟩ := hlaidbound
    cases hdecl.symm.trans hd
    obtain rfl : _ = [] := hvalue
    have hcallee := Linear.mem_functions hmem
    refine ⟨⟨[], rfl, List.not_mem_nil⟩, fun f hf' n hn => ?_⟩
    rw [h.frame_of_loaded hm hcallee hframe hf'] at hn
    rw [h.eq_of_takes hcallee hframe hn]
    exact (hoffs 0 (List.mem_singleton_self _)).2
  | @call m' fm ident cname args cparams ctype cbody callee offs hdecl hframe hargs =>
    obtain ⟨_, _, _, _, _, hd, hmem, -⟩ := hlaidbound
    cases hdecl.symm.trans hd
    have hcallee := Linear.mem_functions hmem
    obtain ⟨needs, -, harranged, -⟩ := hstages.arranged_function hmem
    have hscalar : ∀ q ∈ cparams, q.IsScalar t := fun q hq => ((hbound _ hmem).1 q hq).2
    have hsum := (h.fits _ _ _ _ _ hcallee).params
    rw [Param.exactSum_of_isScalar hscalar] at hsum
    -- No argument lies at offset 0, where the link is.
    refine ⟨⟨offs, rfl, fun hzero => ?_⟩, fun f hf' n hn => ?_⟩
    · obtain ⟨i, hi⟩ := List.getElem?_of_mem hzero
      obtain ⟨hlt, heq⟩ := offset_of_arrangedAll harranged hscalar hargs hi
      have htoInt := congrArg Int64.toInt heq
      rw [Int64.toInt_ofNat_of_lt (by omega)] at htoInt
      have hzero : (0 : Word).toInt = 0 := rfl
      omega
    · rw [h.frame_of_loaded hm hcallee hframe hf'] at hn
      rw [h.eq_of_takes hcallee hframe hn]
      -- The last one of the arguments, or the link if there are none, ends where the parameters do.
      rcases Nat.eq_zero_or_pos cparams.length with hnone | hsome
      · rw [hnone]
        exact (hoffs 0 List.mem_cons_self).2
      · have hlength := hargs.length_eq
        have hlast : offs[cparams.length - 1]? = some offs[cparams.length - 1] :=
          List.getElem?_eq_getElem (by omega)
        obtain ⟨-, heq⟩ := offset_of_arrangedAll harranged hscalar hargs hlast
        have hle := (hoffs _ (List.mem_cons_of_mem _ (List.mem_of_getElem? hlast))).2
        rw [heq, Int64.toInt_ofNat_of_lt (by omega)] at hle
        omega

/-- **The running function** has what its code needs. -/
theorem grounds (h : Settled o p t laid coded c) (hm : c.RunsOn coded.attrs p m)
    (hS : (p.nesting t laid.attrs).Seated (L :: S)) (hfn : .fn mark name params type body ∈ p.functions)
    (hf : laid.attrs.frames[mark.id]? = some L.frame) :
    Grounds (p.nesting t laid.attrs) m (L :: S) t laid.attrs L.frame (body.walk Node.inFunction) := by
  have hstages := h.compiled.stages
  obtain ⟨rest, hact⟩ := h.exists_chain hS hfn hf
  -- The nodes of the body are nodes of the program, so what holds of all of those holds of them.
  have hwithin : ∀ node ∈ body.walk Node.inFunction, node ∈ Decl.walkAll everywhere p.decls :=
      fun node hnode =>
    (Program.bound_of_resolved hstages.resolved _ (Linear.mem_walk_of_mem_functions hfn).2).2 _
      (body.walk_inFunction_subset hnode)
  -- They are typed in a scope that sees only what the functions around declare.
  have htyped : ∀ node ∈ body.walk Node.inFunction, node.TypedIn t (Scope.Sees p _) := fun node hnode =>
    hact.lexical.typed h.typed rfl (Expr.isAbsent_of_mem_walk hnode) node hnode
  exact
    { seated := hS
      resolves := hstages.resolves
      recorded := h.recorded
      guarded := h.guarded
      exprs := fun e he => by
        obtain ⟨sc, ty, -, hty⟩ := htyped _ he
        exact ⟨sc, ty, hty⟩
      stmts := fun s hs => by
        obtain ⟨sc, ty, -, hty⟩ := htyped _ hs
        exact ⟨sc, ty, hty⟩
      direct := fun nm arg hnode => h.direct nm arg (hwithin _ hnode)
      vars := fun nm ident code hnode hcode hlocated => h.grounded_name hm hS hact hnode hcode hlocated
      places := fun node hnode call hcall => h.places_of_calls hm hfn hf hnode hcall
      links := fun node hnode fm cname cparams ctype cbody callee hrefers hcallee =>
        h.comesTo_staticLink hm hact
          (Linear.mem_functions ((hstages.bound _ (hwithin _ hnode)).refers hrefers)) hcallee
      elements := fun nm array idx arrayTy len elem base off lo hi hnode hcode hty hactual y hy =>
        hy mark name params type body L.frame hfn hf nm array idx lo hi hnode hcode arrayTy len
          elem hty hactual
      components := fun recordTy ident d ty offset hrecord hcomp hoffset =>
        Attributes.component_inside h.recorded h.guarded hstages.definitions h.fields h.placed
          hrecord hcomp hoffset }

end

/-! ## §3 The program -/

/-- **All functions of the program are disciplined.** -/
theorem disciplinesAll (h : Settled o p t laid coded c) (hm : c.RunsOn coded.attrs p m) :
    (p.nesting t laid.attrs).DisciplinesAll m := by
  intro l f hf _
  obtain ⟨mark, name, params, type, body, lo, hi, code, hfn, hframe, -, hcode, hbody⟩ := h.loaded hm hf
  have hfits := h.fits _ _ _ _ _ hfn
  obtain ⟨f', locals, hframe', -, hlocs, hargs⟩ := h.compiled.stages.holds hfn hfits
  rw [h.compiled.stages.generates.frames] at hframe'
  cases hframe.symm.trans hframe'
  refine ⟨hlocs, hargs, fun n hn => ?_, code, hbody, fun fp S hS => ?_⟩
  · have hscalar : ∀ q ∈ params, q.IsScalar t := fun q hq =>
      ((Program.bound_of_resolved h.compiled.stages.resolved _
        (Linear.mem_walk_of_mem_functions hfn).2).1 q hq).2
    have hsum := hfits.params
    rw [Param.exactSum_of_isScalar hscalar] at hsum
    rw [h.eq_of_takes hfn hframe hn]
    push_cast
    omega
  · exact (body.comesTo_of_code (h.grounds hm hS hfn hframe) hcode (List.Subset.refl _)).value

end Settled

end MmixBackend
