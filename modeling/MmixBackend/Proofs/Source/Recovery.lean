import MmixBackend.Proofs.Source.BlockTypes
import MmixBackend.Proofs.Source.Rules
import MmixBackend.Proofs.Source.Resolution
import MmixBackend.Proofs.Source.Sites

/-!
# Resolution behind errors

Resolution goes on behind every error, so it has to be safe to look at the tables of a program that
has been rejected. This module follows a run of the resolver over a whole tree, with or without
errors, and keeps two things: all type names have definitions without a cycle, and the infinite
types that have been reported are those of the blocks that have been declared. `Resolves` is the
form in which this goes along the tree.

## Main statements

- `Resolves.bind`: one part of a tree after another one.
- `expr_resolves`, `bodies_resolves`: an expression and the bodies of a block, with all blocks
  inside of them.
- `wellNumbered_resolves`, `program_resolves`: a whole program.
-/

namespace MmixBackend.Source

/-! ## §1 Steps over a tree -/

/-- Nodes with the different numbers `ids` can be resolved inside of `scope`. -/
structure Resolving.Awaits (scope : Scope) (ids : List NodeId) (s : Resolving) : Prop where
  admits : s.Admits scope ids
  nodup : ids.Nodup

/-- The state with the type of an expression that has one. -/
def Resolving.typingIf (s : Resolving) (id : NodeId) (ty : Option Ty) :
    Resolving := ty.elim s (s.typing id)

namespace Resolving

variable {ids ids' : List NodeId} {s s' : Resolving} {scope : Scope} {id : NodeId} {ty : Option Ty}

theorem Knows.mono (h : s.Knows ty) (hgrows : s.attrs.typeDefs.Grows s'.attrs.typeDefs) :
    s'.Knows ty :=
  fun ty' hty' => ty'.namesIn_mono (fun _ => .of_grows hgrows) (h ty' hty')

theorem Awaits.perm (h : s.Awaits scope ids) (hperm : ids.Perm ids') : s.Awaits scope ids' :=
  ⟨h.admits.mono hperm.symm.subset, hperm.nodup_iff.mp h.nodup⟩

theorem Awaits.of_append_left (h : s.Awaits scope (ids ++ ids')) : s.Awaits scope ids :=
  ⟨h.admits.mono (List.subset_append_left _ _), h.nodup.of_append_left⟩

theorem Awaits.of_cons (h : s.Awaits scope (id :: ids)) : s.Awaits scope ids :=
  ⟨h.admits.mono (List.subset_cons_self _ _), h.nodup.of_cons⟩

theorem knows_void : s.Knows (some .void) := fun _ h => by
  cases h
  trivial

theorem typingIf_adding (es : List Diagnostic) :
    (s.adding es).typingIf id ty = (s.typingIf id ty).adding es := by
  cases ty <;> rfl

theorem typeDefs_typingIf : (s.typingIf id ty).attrs.typeDefs = s.attrs.typeDefs := by
  cases ty <;> rfl

theorem errors_typingIf : (s.typingIf id ty).errors = s.errors := by
  cases ty <;> rfl

theorem extends_typingIf (h : s.attrs.ofType[id]? = none) :
    s.attrs.Extends (s.typingIf id ty).attrs := by
  cases ty with
  | none => exact .refl _
  | some ty =>
    refine { Attributes.Extends.refl s.attrs with ofType := fun id' ty' hty' => ?_ }
    refine (getElem?_insert_of_not_mem (List.mem_singleton.mpr rfl) fun hmem => ?_).trans hty'
    rw [List.mem_singleton.mp hmem, h] at hty'
    cases hty'

theorem Goes.typingIf (h : s.Goes ids s') (hid : id ∈ ids) (hty : s'.Knows ty) :
    s.Goes ids (s'.typingIf id ty) := by
  cases ty with
  | none => exact h
  | some ty =>
    exact ⟨h.touches.trans (touches_typing h.sound hid), h.sound.typing (hty ty rfl), h.guarded⟩

theorem Goes.binding (h : s.Goes ids s') (hid : id ∈ ids) {d : Decl} :
    s.Goes ids (s'.binding id d) :=
  ⟨h.touches.trans (touches_binding h.sound hid), h.sound.binding, h.guarded⟩

end Resolving

namespace Resolve

variable {α β : Type} {ids done rest : List NodeId} {blocks blocks' : List (Scope × List Decl)}
  {s : Resolving} {x : Resolve α} {Q R : α → Resolving → Prop} {J K : α → Attributes → Prop}
  {scope : Scope} {m : Mark}

theorem judges_setType (m : Mark) (ty : Option Ty) :
    Judges s (setType m ty) ty (s.typingIf m.id ty) True := by
  cases ty <;> exact .of_run rfl

/-- A check whose result is recorded. -/
theorem Judges.typed {x : Resolve (Option Ty)} {ty : Option Ty} {s' : Resolving} {ok : Prop}
    (h : Judges s x ty s' ok) : Judges s (x >>= setType m) ty (s'.typingIf m.id ty) ok := by
  refine Judges.congr (.bind h fun es => ?_) (iff_of_eq (and_true ok))
  rw [← Resolving.typingIf_adding]
  exact judges_setType m ty

/-- The step `x` resolves nodes with the numbers `ids`, among them the given blocks. Its result and
the state behind it satisfy `Q`. If nothing is reported then the result satisfies `J`, in these
tables and in all later ones. -/
structure Resolves (ids : List NodeId) (blocks : List (Scope × List Decl)) (s : Resolving)
    (x : Resolve α) (Q : α → Resolving → Prop) (J : α → Attributes → Prop) : Prop where
  runs : Runs ids s x Q
  reports : s.Reports blocks (x.run s).2
  holds : ∀ t, t.Completes (x.run s).2 → J (x.run s).1 t

namespace Resolves

theorem pure {a : α} (hs : s.Admits scope ids) (h : Q a s) (hJ : ∀ t, t.Completes s → J a t) :
    Resolves ids [] s (pure a) Q J :=
  ⟨.pure hs.refl h, .refl s, hJ⟩

theorem mono (h : Resolves ids blocks s x Q J) (hsub : ids ⊆ done) : Resolves done blocks s x Q J :=
  ⟨h.runs.mono hsub, h.reports, h.holds⟩

theorem perm (h : Resolves ids blocks s x Q J) (hperm : ids.Perm done) :
    Resolves done blocks s x Q J :=
  h.mono hperm.subset

/-- The same step, whose result is looked at in another way. -/
theorem imp (h : Resolves ids blocks s x R K) (hQ : ∀ a s', R a s' → Q a s')
    (hJ : ∀ a t, K a t → J a t) :
    Resolves ids blocks s x Q J :=
  ⟨h.runs.imp hQ, h.reports, fun t ht => hJ _ t (h.holds t ht)⟩

theorem map {g : α → β} {Q : β → Resolving → Prop} {J : β → Attributes → Prop}
    (h : Resolves ids blocks s x R K) (hQ : ∀ a s', R a s' → Q (g a) s')
    (hJ : ∀ a t, K a t → J (g a) t) :
    Resolves ids blocks s (x >>= fun a => Pure.pure (g a)) Q J :=
  ⟨⟨h.runs.1, hQ _ _ h.runs.2⟩, h.reports, fun t ht => hJ _ t (h.holds t ht)⟩

/-- A check with a known outcome. -/
theorem of_judges {a : α} {s' : Resolving} {ok : Prop} (h : Judges s x a s' ok)
    (hgo : s.Goes ids s') (herrors : s'.errors = s.errors) (hQ : ∀ es, Q a (s'.adding es))
    (hJ : ok → ∀ t, t.Completes s' → J a t) :
    Resolves ids [] s x Q J := by
  refine ⟨.of_judges h hgo hQ, .of_quiet ?_, fun t ht => ?_⟩
  all_goals obtain ⟨es, hrun, hok, hquiet⟩ := h
  · rw [hrun]
    exact ⟨es, by rw [Resolving.errors_adding, herrors], hquiet⟩
  · rw [hrun] at ht ⊢
    obtain ⟨hnil, hs'⟩ := List.append_eq_nil_iff.mp ht.errors
    exact hJ (hok.mp hnil) t ⟨hs', ht.entries, ht.guarded⟩

/-- A check with a known outcome that gives the type of a node. -/
theorem of_judges_typed {x : Resolve (Option Ty)} {ty : Option Ty} {s' : Resolving} {ok : Prop}
    {J : Option Ty → Attributes → Prop} (h : Judges s x ty s' ok) (hgo : s.Goes ids s')
    (herrors : s'.errors = s.errors) (hm : m.id ∈ ids) (hnew : s'.attrs.ofType[m.id]? = none)
    (hty : s'.Knows ty) (hJ : ok → ∀ t, t.Completes s' →
      (∀ ty', ty = some ty' → t.ofType[m.id]? = some ty') → J ty t) :
    Resolves ids [] s (x >>= setType m) (fun ty s' => s'.Knows ty) J := by
  refine .of_judges h.typed (hgo.typingIf hm hty) (Resolving.errors_typingIf.trans herrors)
    (fun es => ?_)
    fun hok t ht => ?_
  · exact hty.mono (by rw [Resolving.attrs_adding, Resolving.typeDefs_typingIf]; exact .refl _)
  · refine hJ hok t ⟨Resolving.errors_typingIf ▸ ht.errors, (Resolving.extends_typingIf hnew).trans
      ht.entries, ht.guarded⟩ ?_
    rintro ty' rfl
    exact ht.entries.ofType m.id ty' Std.TreeMap.getElem?_insert_self

/-- One part of a tree after another one. -/
theorem bind {f : α → Resolve β} {Q : β → Resolving → Prop} {J : β → Attributes → Prop}
    (hs : s.Awaits scope (done ++ rest)) (hx : Resolves done blocks s x R K)
    (hf : ∀ a s', s'.Awaits scope rest → s.attrs.Extends s'.attrs → R a s' →
      Resolves rest blocks' s' (f a) Q fun b t => t.Completes s' → K a t → J b t) :
    Resolves (done ++ rest) (blocks ++ blocks') s (x >>= f) Q J := by
  obtain ⟨⟨hgo, hR⟩, hreports, hK⟩ := hx
  have hafter : Resolving.Awaits scope rest (x.run s).2 :=
    ⟨hs.admits.after (List.subset_append_left _ _) (List.subset_append_right _ _) hgo
      (List.disjoint_of_nodup_append hs.nodup), hs.nodup.of_append_right⟩
  obtain ⟨⟨hgo', hQ⟩, hreports', hJ⟩ :=
    hf _ _ hafter (hs.of_append_left.admits.extended hgo.touches) hR
  refine ⟨⟨(hgo.mono (List.subset_append_left _ _)).trans
    (hgo'.mono (List.subset_append_right _ _)), hQ⟩,
    hreports.trans hreports', fun t ht => ?_⟩
  have hbefore : t.Completes (x.run s).2 :=
    ⟨hreports'.errors_eq_nil ht.errors, (hafter.admits.extended hgo'.touches).trans ht.entries,
      ht.guarded⟩
  exact hJ t ht hbefore (hK t hbefore)

/-- A check behind a part of a tree. -/
theorem bind_check {f : α → Resolve β} {Q : β → Resolving → Prop} {J : β → Attributes → Prop}
    (hs : s.Awaits scope (done ++ rest)) (hx : Resolves done blocks s x R K)
    (hf : ∀ a s', s'.Awaits scope rest → s.attrs.Extends s'.attrs → R a s' →
      Resolves rest [] s' (f a) Q fun b t => t.Completes s' → K a t → J b t) :
    Resolves (done ++ rest) blocks s (x >>= f) Q J :=
  List.append_nil blocks ▸ bind hs hx hf

/-- A check behind all parts of a tree. -/
theorem bind_last {f : α → Resolve β} {Q : β → Resolving → Prop} {J : β → Attributes → Prop}
    (hs : s.Awaits scope ids) (hx : Resolves ids blocks s x R K)
    (hf : ∀ a s', s'.Awaits scope [] → s.attrs.Extends s'.attrs → R a s' →
      Resolves [] [] s' (f a) Q fun b t => t.Completes s' → K a t → J b t) : Resolves ids blocks s
        (x >>= f) Q J :=
  List.append_nil ids ▸ bind_check ((List.append_nil ids).symm ▸ hs) hx hf

/-- A check in front of a part of a tree. -/
theorem check_bind {f : α → Resolve β} {Q : β → Resolving → Prop} {J : β → Attributes → Prop}
    (hs : s.Awaits scope ids) (hx : Resolves [] [] s x R K)
    (hf : ∀ a s', s'.Awaits scope ids → s.attrs.Extends s'.attrs → R a s' →
      Resolves ids blocks s' (f a) Q fun b t => t.Completes s' → K a t → J b t) : Resolves ids
        blocks s (x >>= f) Q J :=
  bind hs hx hf

end Resolves

/-! A node has a number below those of its parts, but its type is recorded last. -/

theorem perm_last (id : NodeId) (ids : List NodeId) : (id :: ids).Perm (ids ++ [id]) :=
  (List.perm_append_singleton id ids).symm

theorem perm_last_append (id : NodeId) (ids ids' : List NodeId) :
    (id :: (ids ++ ids')).Perm (ids ++ (ids' ++ [id])) :=
  (perm_last id (ids ++ ids')).trans (List.Perm.of_eq (List.append_assoc ids ids' [id]))

/-- A block is declared first, then come the bodies of its functions. -/
theorem perm_scope (id : NodeId) (ds : List Decl) (ids : List NodeId) :
    (id :: (Decl.idsAll ds ++ ids)).Perm
    (ds.flatMap Decl.headIds ++ (ds.flatMap Decl.bodyIds ++ (ids ++ [id]))) := by
  rw [← List.append_assoc, ← List.append_assoc]
  exact (perm_last _ _).trans (((Decl.idsAll_perm ds).append_right _).append_right _)

/-- Unless it reports something, the step gives the node `m` a type with `H`. -/
def GivesType (ids : List NodeId) (m : Mark) (s : Resolving) (x : Resolve (Option Ty))
    (H : Attributes → Ty → Prop) :
    Prop :=
  Resolves ids [] s x (fun ty s' => s'.Knows ty) fun ty t => ∃ ty', ty = some ty' ∧ H t ty' ∧
    t.ofType[m.id]? = some ty'

/-- A check with a known outcome that binds nothing. -/
theorem GivesType.of_judges {x : Resolve (Option Ty)} {ty : Option Ty} {ok : Prop}
    {H : Attributes → Ty → Prop} (hs : s.Awaits scope [m.id]) (h : Judges s x ty s ok)
    (hty : s.Knows ty) (hH : ok → ∀ t, t.Completes s → ∃ ty', ty = some ty' ∧ H t ty') :
    GivesType [m.id] m s (x >>= setType m) H := by
  refine .of_judges_typed h hs.admits.refl rfl List.mem_cons_self
    (hs.admits.ofType _ List.mem_cons_self) hty
    fun hok t ht hof => ?_
  obtain ⟨ty', hty', hH'⟩ := hH hok t ht
  exact ⟨ty', hty', hH', hof ty' hty'⟩

/-- The type of a node that is known already is recorded. -/
theorem setType_resolves {ty : Option Ty} {J : Option Ty → Attributes → Prop}
    (hs : s.Awaits scope [m.id]) (hty : s.Knows ty)
    (hJ : ∀ t, t.Completes s → (∀ ty', ty = some ty' → t.ofType[m.id]? = some ty') → J ty t) :
    Resolves [m.id] [] s (setType m ty) (fun ty s' => s'.Knows ty) J :=
  .of_judges_typed .pure hs.admits.refl rfl List.mem_cons_self
    (hs.admits.ofType _ List.mem_cons_self) hty
    fun _ => hJ

end Resolve

/-! ## §2 Scopes -/

namespace Resolving

/-- The type `ty` is there and satisfies `H`, provided that nothing is missing from the tree and
everything in scope has a type. -/
def Yields (s : Resolving) (scope : Scope) (complete : Prop) (H : Ty → Prop) (ty : Option Ty) :
    Prop :=
  complete → s.Declares scope → ∃ ty', ty = some ty' ∧ H ty'

variable {ids : List NodeId} {s s' : Resolving} {scope : Scope}

/-- Without a type for a part of the tree anything follows. -/
theorem Yields.of_none {complete complete' : Prop} {H H' : Ty → Prop} {ty : Option Ty}
    (h : s'.Yields scope complete H none) (hcomplete : complete' → complete)
    (hext : s.attrs.Extends s'.attrs) :
    s.Yields scope complete' H' ty := by
  intro hc hdeclares
  obtain ⟨_, hnone, -⟩ := h (hcomplete hc) (hdeclares.mono hext)
  cases hnone

/-- Inside of a block whose types are defined. -/
theorem Awaits.inner {outer inner : Scope} {ds : List Decl} (hs : s.Awaits outer ids)
    (hinner : inner.find? = Scope.find? (blockScope ds :: outer))
    (hds : ∀ d ∈ Decl.typeIds ds, s.Defines d) :
    s.Awaits inner ids := by
  refine ⟨hs.admits.within fun ident m name te hfind => ?_, hs.nodup⟩
  rw [hinner] at hfind
  rcases Scope.mem_of_find?_cons hfind with hmem | hfind
  · obtain ⟨d, hd, heq⟩ := List.mem_map.mp hmem
    cases heq
    exact hds _ (Decl.mem_typeIds hd)
  · exact hs.admits.scope ident m name te hfind

/-- Inside of a function; its parameters are no types. -/
theorem Awaits.params {outer inner : Scope} {ps : List Param} (hs : s.Awaits outer ids)
    (hinner : inner.find? = Scope.find? (paramScope ps :: outer)) : s.Awaits inner ids := by
  refine ⟨hs.admits.within fun ident m name te hfind => ?_, hs.nodup⟩
  rw [hinner] at hfind
  rcases Scope.mem_of_find?_cons hfind with hmem | hfind
  · obtain ⟨p, -, heq⟩ := List.mem_map.mp hmem
    cases heq
  · exact hs.admits.scope ident m name te hfind

end Resolving

namespace Attributes.Completes

variable {t : Attributes} {s : Resolving}

/-- The binding of a node comes in addition. -/
theorem of_binding {id : NodeId} {d : Decl} (h : t.Completes (s.binding id d))
    (hnew : s.attrs.declaredAt[id]? = none) :
    t.Completes s := by
  refine ⟨h.errors, { h.entries with
    declaredAt := fun id' d' hd' => h.entries.declaredAt id' d' ?_ }, h.guarded⟩
  refine (Resolving.getElem?_insert_of_not_mem (List.mem_singleton.mpr rfl) fun hmem => ?_).trans
    hd'
  rw [List.mem_singleton.mp hmem, hnew] at hd'
  cases hd'

theorem argsFit (h : t.Completes s) (hs : s.Sound s.Defines) {tys : List (Option Ty)}
    {ps : List Param} (htys : ∀ ty ∈ tys, s.Knows ty)
    (hps : ∀ p ∈ ps, (s.attrs.declType[p.mark.id]?).isSome) :
    ArgsFit t tys ps ↔ ArgsFit s.attrs tys ps := by
  refine ArgsFit.rel (h.corresponds hs.closed) (List.forall₂_same.mpr fun ty hty =>
    ⟨?_, htys ty hty⟩)
    (List.forall₂_same.mpr fun p hp => ⟨?_, fun ty hty => hs.names ty (.declType hty)⟩)
  · cases ty with
    | none => exact .none
    | some ty => exact .some (.refl (fun _ => rfl) ty)
  · obtain ⟨ty, hty⟩ := Option.isSome_iff_exists.mp (hps p hp)
    rw [hty, h.entries.declType _ _ hty]
    exact .some (.refl (fun _ => rfl) ty)

end Attributes.Completes

namespace Resolve

variable {s : Resolving} {scope : Scope}

/-- A block is declared. The scope outside of it may be written in another way. -/
theorem declare_resolves {outer outer' : Scope} {ds : List Decl}
    (houter : outer.find? = outer'.find?) (hs : s.Awaits outer (ds.flatMap Decl.headIds)) :
    Resolves (ds.flatMap Decl.headIds) [(outer', ds)] s (declare outer ds)
      (fun inner s' => inner.find? = Scope.find? (blockScope ds :: outer') ∧
        (∀ d ∈ Decl.typeIds ds, s'.Defines d) ∧
        (s'.errors = [] → Block.Typed s'.attrs outer' ds))
      fun _ t => Block.Typed t outer' ds := by
  obtain ⟨hgo, ⟨hinner, hds, hreports⟩, htyped⟩ := declare_runs hs.admits hs.nodup
  have htyped' (herrors : ((declare outer ds).run s).2.errors = []) : Block.Typed _ outer' ds :=
    (htyped herrors).congr houter
  refine ⟨⟨hgo, hinner.trans (Scope.find?_cons_congr houter _), hds, htyped'⟩, ?_,
    fun t ht => (htyped' ht.errors).completed ht hgo.sound⟩
  have hcyclic : outer.Cyclic ds ↔ outer'.Cyclic ds := by
    unfold Scope.Cyclic Scope.Needs Scope.Reads
    rw [Scope.find?_cons_congr houter]
  rw [Resolving.Reports.block_iff] at hreports
  rw [hcyclic] at hreports
  exact .block hreports

theorem typeExpr_resolves {scope' : Scope} {te : TypeExpr} (hscope : scope.find? = scope'.find?)
    (hs : s.Awaits scope [te.mark.id]) :
    Resolves [te.mark.id] [] s (typeExpr scope te) (fun ty s' => s'.Knows ty)
      fun ty t => ∃ ty', ty = some ty' ∧ te.Denotes t scope' ty' := by
  have hnames (d : NodeId) (hd : IsTypeName scope.find? d) : s.Defines d := by
    obtain ⟨ident, m, name, te', hfind, rfl⟩ := hd
    exact hs.admits.scope ident m name te' hfind
  cases hread : readTypeExpr scope.find? s.nextId te with
  | error e =>
    -- What has been read of the text stays in the tables and is sound.
    exact .of_judges (judges_typeExpr_error hread)
      ⟨Resolving.touches_keeping (.error hread) hs.admits.sound List.mem_cons_self,
        hs.admits.sound.keeping (.error hread) hnames, hs.admits.guarded⟩ rfl
          (fun _ ty h => by cases h) fun h => h.elim
  | ok r =>
    refine .of_judges (judges_typeExpr hread) ⟨Resolving.touches_reading hread hs.admits.sound
      List.mem_cons_self,
      hs.admits.sound.reading hread hnames, hs.admits.guarded⟩ rfl (fun _ ty h => ?_)
        fun _ t ht => ?_
    · cases h
      exact r.type.namesIn_mono hnames (readTypeExpr_sound hread).names
    · exact ⟨r.type, rfl, ((TypeExpr.denotes_reading hread).mono ht.entries).congr hscope⟩

theorem condition_resolves {ids : List NodeId} (test : Expr) {ty : Option Ty}
    (hs : s.Awaits scope ids) (hty : s.Knows ty) :
    Resolves [] [] s (checkCondition test ty) (fun _ _ => True)
      fun _ t => ∀ ty', ty = some ty' → ty'.isBool t.typeDefs = true := by
  refine .of_judges (judges_checkCondition test ty) hs.admits.refl rfl (fun _ => trivial)
    fun hok t ht ty' h => ?_
  exact ((ht.corresponds hs.admits.sound.closed).isBool_eq (.refl (fun _ => rfl) ty')
    (hty ty' h)).trans (hok ty' h)

theorem params_resolves {ids : List NodeId} (ps : List Param) (hs : s.Awaits scope ids) :
    Resolves [] [] s (paramNames ps)
      (fun names _ => Scope.find? (names :: scope) = Scope.find? (paramScope ps :: scope))
      fun _ _ => (ps.map Param.name).Nodup :=
  .of_judges (judges_paramNames ps) hs.admits.refl rfl (fun _ => find?_paramNames ps scope)
    fun hok _ _ => hok

theorem body_resolves {ids : List NodeId} (m : Mark) (name : String) (body : Expr) {got : Option Ty}
    (hs : s.Awaits scope ids) (hgot : s.Knows got) :
    Resolves [] [] s (checkBody m name body got) (fun _ _ => True)
      fun _ t => ∀ got' want, got = some got' → s.attrs.declType[m.id]? = some want →
        t.declType[m.id]? = some want ∧
          (want.isVoid t.typeDefs = true ∨ want.assignable t.typeDefs got' = true) := by
  refine .of_judges (judges_checkBody m name body got) hs.admits.refl rfl (fun _ => trivial)
    fun hok t ht got' want hgot' hwant => ⟨ht.entries.declType _ _ hwant, ?_⟩
  have hdefs := ht.corresponds hs.admits.sound.closed
  have hnames := hs.admits.sound.names want (.declType hwant)
  rw [hdefs.isVoid_eq (.refl (fun _ => rfl) want) hnames,
    hdefs.assignable_eq (.refl (fun _ => rfl) want) (.refl (fun _ => rfl) got') hnames
      (hgot got' hgot')]
  exact hok got' want hgot' hwant

/-! ## §3 Types of expressions

What is said of a type when it has been found holds in all later tables, too: these have more
definitions, and the rules give the same results for names that are defined already. -/

theorem unary_resolves (hs : s.Awaits scope [m.id]) (op : UnaryOp) (arg : Expr) {ty : Ty}
    (hty : s.Knows (some ty)) :
    GivesType [m.id] m s (unaryType m op arg ty >>= setType m)
      fun t ty' => op.type? t.typeDefs (arg.located t) ty = some ty' := by
  refine .of_judges hs (judges_unaryType m op arg ty) (fun ty' h =>
    UnaryOp.namesIn_of_type? h (hty ty rfl))
    fun hok t ht => ?_
  obtain ⟨ty', hty'⟩ := Option.isSome_iff_exists.mp hok
  have hsame := Ty.renumberedIf_eq (UnaryOp.type?_rel (ht.corresponds hs.admits.sound.closed)
    (.refl (fun _ => rfl) ty) (hty ty rfl) op (arg.located s.attrs))
  exact ⟨ty', hty', UnaryOp.type?_of_located (Expr.located_mono · ht.entries) (hsame.trans hty')⟩

theorem deref_resolves (hs : s.Awaits scope [m.id]) {ty : Ty} (hty : s.Knows (some ty)) :
    GivesType [m.id] m s (derefType m ty >>= setType m) fun t ty' =>
      ty.target? t.typeDefs = some ty' := by
  refine .of_judges hs (judges_derefType m ty)
    (fun ty' h => Ty.namesIn_of_target? hs.admits.guarded hs.admits.sound.closed h (hty ty rfl))
      fun hok t ht => ?_
  obtain ⟨ty', hty'⟩ := Option.isSome_iff_exists.mp hok
  have hsame := Ty.renumberedIf_eq (Ty.target?_rel (ht.corresponds hs.admits.sound.closed)
    (.refl (fun _ => rfl) ty) (hty ty rfl))
  exact ⟨ty', hty', hsame.trans hty'⟩

theorem binary_resolves (hs : s.Awaits scope [m.id]) (op : BinaryOp) {fst snd : Ty}
    (hfst : s.Knows (some fst)) (hsnd : s.Knows (some snd)) :
    GivesType [m.id] m s (binaryType m op fst snd >>= setType m)
      fun t ty => op.type? t.typeDefs fst snd = some ty := by
  refine .of_judges hs (judges_binaryType m op fst snd) (fun ty h => BinaryOp.namesIn_of_type? h)
    fun hok t ht => ?_
  obtain ⟨ty, hty⟩ := Option.isSome_iff_exists.mp hok
  have hsame := BinaryOp.type?_eq (ht.corresponds hs.admits.sound.closed) (.refl (fun _ => rfl) fst)
    (.refl (fun _ => rfl) snd) (hfst fst rfl) (hsnd snd rfl) op
  exact ⟨ty, hty, hsame.trans hty⟩

theorem index_resolves (hs : s.Awaits scope [m.id]) (array idx : Expr) {arrayTy : Ty}
    {idxTy : Option Ty} (harray : s.Knows (some arrayTy)) (hidx : s.Knows idxTy) :
    GivesType [m.id] m s (indexType m array idx arrayTy idxTy >>= setType m) fun t ty =>
      arrayTy.elem? t.typeDefs = some ty ∧ array.located t = true ∧
        ∀ ty', idxTy = some ty' → ty'.isInt t.typeDefs = true := by
  refine .of_judges hs (judges_indexType m array idx arrayTy idxTy)
    (fun ty h => Ty.namesIn_of_elem? hs.admits.guarded hs.admits.sound.closed h
      (harray arrayTy rfl))
    fun ⟨hsome, hlocated, hint⟩ t ht => ?_
  obtain ⟨ty, hty⟩ := Option.isSome_iff_exists.mp hsome
  have hdefs := ht.corresponds hs.admits.sound.closed
  have hsame := Ty.renumberedIf_eq (Ty.elem?_rel hdefs (.refl (fun _ => rfl) arrayTy)
    (harray arrayTy rfl))
  refine ⟨ty, hty, hsame.trans hty, Expr.located_mono hlocated ht.entries, fun ty' hty' => ?_⟩
  exact (hdefs.isInt_eq (.refl (fun _ => rfl) ty') (hidx ty' hty')).trans (hint ty' hty')

theorem cast_resolves (hs : s.Awaits scope [m.id]) {src dst : Ty} (hsrc : s.Knows (some src))
    (hdst : s.Knows (some dst)) :
    GivesType [m.id] m s (castType m (some src) (some dst) >>= setType m)
      fun t ty => src.cast? t.typeDefs dst = some ty := by
  refine .of_judges hs (judges_castType m src dst) (fun ty h =>
    Ty.namesIn_of_cast? h (hdst dst rfl)) fun hok t ht => ?_
  obtain ⟨ty, hty⟩ := Option.isSome_iff_exists.mp hok
  have hsame := Ty.renumberedIf_eq (Ty.cast?_rel (ht.corresponds hs.admits.sound.closed)
    (.refl (fun _ => rfl) src) (.refl (fun _ => rfl) dst) (hsrc src rfl) (hdst dst rfl))
  exact ⟨ty, hty, hsame.trans hty⟩

/-- The name of a component is bound before the node gets its type. -/
theorem select_resolves {comp : CompName} (hs : s.Awaits scope [comp.mark.id, m.id])
    (record : Expr) {ty : Ty} (hty : s.Knows (some ty)) :
    GivesType [comp.mark.id, m.id] m s (selectType m record comp ty >>= setType m) fun t ty' =>
      ∃ d, t.component? ty comp.ident = some (d, ty') ∧ record.located t = true ∧
        t.declaredAt[comp.mark.id]? = some d := by
  have hmem : m.id ∈ [comp.mark.id, m.id] := List.mem_cons_of_mem _ List.mem_cons_self
  have hnew := hs.admits.ofType m.id hmem
  have hjudges := judges_selectType m record comp ty (s := s)
  cases hcomp : s.attrs.component? ty comp.ident with
  | none =>
    rw [hcomp] at hjudges
    exact .of_judges_typed hjudges hs.admits.refl rfl hmem hnew (fun ty' h => by cases h)
      fun hok => (Bool.false_ne_true hok.1).elim
  | some c =>
    rw [hcomp] at hjudges
    refine .of_judges_typed hjudges (hs.admits.refl.binding List.mem_cons_self) rfl hmem hnew
      (fun ty' h => ?_)
      fun hok t ht hof => ?_
    · cases h
      exact Attributes.namesIn_of_component? hs.admits.guarded hs.admits.sound.closed
        hcomp (hty ty rfl)
    · have hbefore : t.Completes s := ht.of_binding (hs.admits.declaredAt _ List.mem_cons_self)
      have hsame := Attributes.component?_mono (hbefore.corresponds hs.admits.sound.closed)
        hbefore.entries.records
        (hty ty rfl) hcomp
      exact ⟨c.2, rfl, ⟨c.1, hsame, Expr.located_mono hok.2 hbefore.entries,
        ht.entries.declaredAt _ _ Std.TreeMap.getElem?_insert_self⟩, hof _ rfl⟩

theorem name_resolves {scope' : Scope} (hscope : scope.find? = scope'.find?)
    (hs : s.Awaits scope [m.id]) (ident : String) :
    Resolves [m.id] [] s (nameType scope m ident >>= setType m) (fun ty s' => s'.Knows ty)
      fun ty t => s.Yields scope' (Expr.name m ident).Complete
        ((Expr.name m ident).HasType t scope') ty := by
  have hnew := hs.admits.ofType m.id List.mem_cons_self
  cases hfind : scope.find? ident with
  | none =>
    exact .of_judges_typed (judges_nameType_none m hfind) hs.admits.refl rfl List.mem_cons_self hnew
      (fun ty hty => by cases hty) fun hok => hok.elim
  | some d =>
    obtain ⟨ty, hjudges, hty, hvalue⟩ := judges_nameType m hfind (s := s)
    refine .of_judges_typed hjudges (hs.admits.refl.binding List.mem_cons_self) rfl
      List.mem_cons_self hnew
      (fun ty' h => hs.admits.sound.names ty' (.declType (hty ty' h)))
        fun hok t ht hof _ hdeclares => ?_
    have hfind' := (congrFun hscope ident).symm.trans hfind
    obtain ⟨ty', hty'⟩ :=
      Option.isSome_iff_exists.mp (hdeclares ident d hfind' d.id d.id_mem_ownIds)
    have hsome := (hvalue hok).trans hty'
    exact ⟨ty', hsome, ⟨d, hfind', ht.entries.declaredAt _ _ Std.TreeMap.getElem?_insert_self, hok,
      ht.entries.declType _ _ hty'⟩, hof ty' hsome⟩

/-- The callee is bound even if the arguments do not fit. -/
theorem call_resolves {scope' : Scope} (hscope : scope.find? = scope'.find?)
    (hs : s.Awaits scope [m.id]) (ident : String) {args : List Expr} {tys : List (Option Ty)}
    (hlength : tys.length = args.length) (hnames : ∀ ty ∈ tys, s.Knows ty) :
    Resolves [m.id] [] s (callType scope m ident args tys >>= setType m) (fun ty s' => s'.Knows ty)
      fun ty t => s.Declares scope' → ∃ ty', ty = some ty' ∧ (∃ fm name params type body,
        scope'.find? ident = some (.fn fm name params type body) ∧
        t.declaredAt[m.id]? = some (.fn fm name params type body) ∧ tys.length = params.length ∧
        ArgsFit t tys params ∧ t.declType[fm.id]? = some ty') ∧ t.ofType[m.id]? = some ty' := by
  have hnew := hs.admits.ofType m.id List.mem_cons_self
  -- Without a function of this name nothing is bound, and there is an error.
  by_cases hfn : ∃ fm name params type body, scope.find? ident = some (.fn fm name params type body)
  · obtain ⟨fm, name, params, type, body, hfind⟩ := hfn
    refine .of_judges_typed (judges_callType m hfind hlength.symm)
      (hs.admits.refl.binding List.mem_cons_self) rfl
      List.mem_cons_self hnew (fun ty h => ?_) fun ⟨hcount, hfit⟩ t ht hof hdeclares => ?_
    · obtain ⟨-, hty⟩ := Option.ite_none_right_eq_some.mp h
      exact hs.admits.sound.names ty (.declType hty)
    · have hfind' := (congrFun hscope ident).symm.trans hfind
      have hbefore : t.Completes s := ht.of_binding (hs.admits.declaredAt _ List.mem_cons_self)
      have hown := hdeclares ident _ hfind'
      obtain ⟨ty, hty⟩ := Option.isSome_iff_exists.mp (hown fm.id List.mem_cons_self)
      have hsome : (if tys.length = params.length then s.attrs.declType[fm.id]? else none) = some
          ty :=
        (if_pos hcount).trans hty
      have hfit' := (hbefore.argsFit hs.admits.sound hnames fun p hp =>
        hown p.mark.id (List.mem_cons_of_mem _ (List.mem_map.mpr ⟨p, hp, rfl⟩))).mpr hfit
      exact ⟨ty, hsome, ⟨fm, name, params, type, body, hfind', ht.entries.declaredAt _ _
        Std.TreeMap.getElem?_insert_self, hcount, hfit', ht.entries.declType _ _ hty⟩, hof ty hsome⟩
  · refine .of_judges_typed (judges_callType_none m args tys
      fun fm name params type body hfind => ?_)
      hs.admits.refl rfl List.mem_cons_self hnew (fun ty h => by cases h) fun hok => hok.elim
    exact hfn ⟨fm, name, params, type, body, hfind⟩

/-! ## §4 Expressions, statements and bodies -/

mutual

/-- **Resolving an expression**, whatever is wrong with it. -/
theorem expr_resolves : ∀ (e : Expr) {scope scope' : Scope} {s : Resolving},
    scope.find? = scope'.find? →
    s.Awaits scope e.ids →
    Resolves e.ids (blocksOf (e.sites scope')) s (expr scope e) (fun ty s' => s'.Knows ty)
      fun ty t => s.Yields scope' e.Complete (e.HasType t scope') ty
  | .absent, scope, scope', s, hscope, hs => by
    rw [expr]
    exact .pure hs.admits (fun ty h => by cases h) fun _ _ h => h.elim
  | .atom m kind value, scope, scope', s, hscope, hs => by
    rw [expr]
    refine .of_judges_typed (judges_atomType m kind) hs.admits.refl rfl List.mem_cons_self
      (hs.admits.ofType _ List.mem_cons_self) (fun ty hty => AtomKind.namesIn_of_type? hty)
        fun hok t _ hof _ _ => ?_
    obtain ⟨ty, hty⟩ := Option.isSome_iff_exists.mp hok
    exact ⟨ty, hty, hty, hof ty hty⟩
  | .name m ident, scope, scope', s, hscope, hs => by
    rw [expr]
    exact name_resolves hscope hs ident
  | .unary m op arg, scope, scope', s, hscope, hs => by
    rw [expr]
    -- The node gets its type last, so its number is moved behind those of the operand.
    refine .perm ?_ (perm_last m.id arg.ids).symm
    replace hs := hs.perm (perm_last m.id arg.ids)
    refine .bind_check hs (expr_resolves arg hscope hs.of_append_left) fun ty s₁ hs₁ _ hty => ?_
    -- An operand without a type has reported its error: the node stays without one as well.
    cases ty with
    | none =>
      exact .pure hs₁.admits (fun _ h => by cases h) fun _ _ _ harg =>
        harg.of_none And.right (.refl _)
    | some ty =>
      refine (unary_resolves hs₁ op arg hty).imp (fun _ _ => id)
        fun r t hgives _ harg hcomplete hdeclares => ?_
      -- In a final table without errors the operand is typed, which is the premise of the rule.
      obtain ⟨ty', rfl, hop, hof⟩ := hgives
      obtain ⟨_, ⟨⟩, harg⟩ := harg hcomplete.2 hdeclares
      exact ⟨ty', rfl, ⟨ty, harg, hop⟩, hof⟩
  | .deref m arg, scope, scope', s, hscope, hs => by
    rw [expr]
    refine .perm ?_ (perm_last m.id arg.ids).symm
    replace hs := hs.perm (perm_last m.id arg.ids)
    refine .bind_check hs (expr_resolves arg hscope hs.of_append_left) fun ty s₁ hs₁ _ hty => ?_
    cases ty with
    | none =>
      exact .pure hs₁.admits (fun _ h => by cases h) fun _ _ _ harg => harg.of_none id (.refl _)
    | some ty =>
      refine (deref_resolves hs₁ hty).imp (fun _ _ => id)
        fun r t hgives _ harg hcomplete hdeclares => ?_
      obtain ⟨ty', rfl, htarget, hof⟩ := hgives
      obtain ⟨_, ⟨⟩, harg⟩ := harg hcomplete hdeclares
      exact ⟨ty', rfl, ⟨ty, harg, htarget⟩, hof⟩
  | .binary m op fst snd, scope, scope', s, hscope, hs => by
    rw [expr]
    have hperm := perm_last_append m.id fst.ids snd.ids
    refine .perm ?_ hperm.symm
    replace hs := hs.perm hperm
    show Resolves _ (blocksOf (fst.sites scope' ++ snd.sites scope')) _ _ _ _
    rw [blocksOf_append]
    refine .bind hs (expr_resolves fst hscope hs.of_append_left) fun fstTy s₁ hs₁ hext hfst => ?_
    refine .bind_check hs₁ (expr_resolves snd hscope hs₁.of_append_left)
      fun sndTy s₂ hs₂ hext' hsnd => ?_
    -- The operator is checked only where both operands have types. What was known of the first one
    -- stays true, because the second only adds to the tables.
    cases fstTy with
    | none =>
      exact .pure hs₂.admits (fun _ h => by cases h) fun _ _ _ _ _ h => h.of_none (·.2.1) (.refl _)
    | some fstTy =>
      cases sndTy with
      | none =>
        exact .pure hs₂.admits (fun _ h => by cases h) fun _ _ _ h _ _ => h.of_none (·.2.2) hext
      | some sndTy =>
        refine (binary_resolves hs₂ op (hfst.mono hext'.typeDefs) hsnd).imp (fun _ _ => id)
          fun r t hgives _ hright _ hleft hcomplete hdeclares => ?_
        obtain ⟨ty, rfl, hop, hof⟩ := hgives
        obtain ⟨_, ⟨⟩, htyped⟩ := hleft hcomplete.2.1 hdeclares
        obtain ⟨_, ⟨⟩, htyped'⟩ := hright hcomplete.2.2 (hdeclares.mono hext)
        exact ⟨ty, rfl, ⟨fstTy, sndTy, htyped, htyped', hop⟩, hof⟩
  | .index m array idx, scope, scope', s, hscope, hs => by
    rw [expr]
    have hperm := perm_last_append m.id array.ids idx.ids
    refine .perm ?_ hperm.symm
    replace hs := hs.perm hperm
    show Resolves _ (blocksOf (array.sites scope' ++ idx.sites scope')) _ _ _ _
    rw [blocksOf_append]
    refine .bind hs (expr_resolves array hscope hs.of_append_left)
      fun arrayTy s₁ hs₁ hext harray => ?_
    refine .bind_check hs₁ (expr_resolves idx hscope hs₁.of_append_left)
      fun idxTy s₂ hs₂ hext' hidx => ?_
    cases arrayTy with
    | none =>
      exact .pure hs₂.admits (fun _ h => by cases h) fun _ _ _ _ _ h => h.of_none (·.1) (.refl _)
    | some arrayTy =>
      refine (index_resolves hs₂ array idx (harray.mono hext'.typeDefs) hidx).imp (fun _ _ => id)
        fun r t hgives _ hright _ hleft hcomplete hdeclares => ?_
      obtain ⟨ty, rfl, ⟨helem, hlocated, hint⟩, hof⟩ := hgives
      obtain ⟨_, ⟨⟩, htyped⟩ := hleft hcomplete.1 hdeclares
      obtain ⟨idxTy, rfl, htyped'⟩ := hright hcomplete.2 (hdeclares.mono hext)
      exact ⟨ty, rfl, ⟨arrayTy, idxTy, htyped, htyped', helem, hlocated, hint idxTy rfl⟩, hof⟩
  | .select m record comp, scope, scope', s, hscope, hs => by
    rw [expr]
    have hperm := perm_last_append m.id record.ids [comp.mark.id]
    refine .perm ?_ hperm.symm
    replace hs := hs.perm hperm
    -- The name of a component opens no block.
    have hblocks : blocksOf ((Expr.select m record comp).sites scope') = blocksOf
        (record.sites scope') :=
      (blocksOf_append _ _).trans (List.append_nil _)
    rw [hblocks]
    refine .bind_check hs (expr_resolves record hscope hs.of_append_left) fun ty s₁ hs₁ _ hty => ?_
    cases ty with
    | none => exact .pure hs₁.admits (fun _ h => by cases h) fun _ _ _ h => h.of_none id (.refl _)
    | some ty =>
      refine (select_resolves hs₁ record hty).imp (fun _ _ => id)
        fun r t hgives _ hrecord hcomplete hdeclares => ?_
      obtain ⟨ty', rfl, ⟨d, hcomp⟩, hof⟩ := hgives
      obtain ⟨_, ⟨⟩, hrecord⟩ := hrecord hcomplete hdeclares
      exact ⟨ty', rfl, ⟨ty, d, hrecord, hcomp⟩, hof⟩
  | .call m ident args, scope, scope', s, hscope, hs => by
    rw [expr]
    refine .perm ?_ (perm_last m.id (Expr.idsAll args)).symm
    replace hs := hs.perm (perm_last m.id (Expr.idsAll args))
    refine .bind_check hs (exprs_resolves args hscope hs.of_append_left)
      fun tys s₁ hs₁ hext ⟨hlength, hnames⟩ => ?_
    -- The arguments may be untyped one by one; the call is checked against the declaration anyway.
    refine (call_resolves hscope hs₁ ident hlength hnames).imp (fun _ _ => id)
      fun r t hcall _ hargs hcomplete hdeclares => ?_
    obtain ⟨ty, rfl, ⟨fm, name, params, type, body, hfind, hbound, hcount, hfit, hty⟩, hof⟩ :=
      hcall (hdeclares.mono hext)
    obtain ⟨tys, rfl, htyped⟩ := hargs hcomplete hdeclares
    rw [List.length_map] at hcount
    exact ⟨ty, rfl, ⟨tys, fm, name, params, type, body, htyped, hfind, hbound, hcount, hfit, hty⟩,
      hof⟩
  | .block m stmts, scope, scope', s, hscope, hs => by
    rw [expr]
    refine .perm ?_ (perm_last m.id (Stmt.idsAll stmts)).symm
    replace hs := hs.perm (perm_last m.id (Stmt.idsAll stmts))
    refine .bind_check hs (stmtList_resolves stmts hscope hs.of_append_left)
      fun ty s₁ hs₁ _ hty => ?_
    refine setType_resolves hs₁ hty fun t _ hof _ hyields hcomplete hdeclares => ?_
    obtain ⟨ty, rfl, hstmts⟩ := hyields hcomplete hdeclares
    exact ⟨ty, rfl, hstmts, hof ty rfl⟩
  | .cast m arg type, scope, scope', s, hscope, hs => by
    rw [expr]
    have hperm := perm_last_append m.id arg.ids [type.mark.id]
    refine .perm ?_ hperm.symm
    replace hs := hs.perm hperm
    refine .bind_check hs (expr_resolves arg hscope hs.of_append_left) fun src s₁ hs₁ _ hsrc => ?_
    refine .bind_check hs₁ (typeExpr_resolves hscope hs₁.of_append_left)
      fun dst s₂ hs₂ hext hdst => ?_
    -- A cast needs both the type of its operand and the one that it names.
    cases src with
    | none =>
      exact .pure hs₂.admits (fun _ h => by cases h) fun _ _ _ _ _ h => h.of_none id (.refl _)
    | some src =>
      cases dst with
      | none =>
        refine .pure hs₂.admits (fun _ h => by cases h) fun _ _ _ h _ _ => ?_
        obtain ⟨_, ⟨⟩, -⟩ := h
      | some dst =>
        refine (cast_resolves hs₂ (hsrc.mono hext.typeDefs) hdst).imp (fun _ _ => id)
          fun r t hgives _ htype _ harg hcomplete hdeclares => ?_
        obtain ⟨ty, rfl, hcast, hof⟩ := hgives
        obtain ⟨_, ⟨⟩, harg⟩ := harg hcomplete hdeclares
        obtain ⟨_, ⟨⟩, htype⟩ := htype
        exact ⟨ty, rfl, ⟨src, dst, harg, htype, hcast⟩, hof⟩
  | .scope m ds body, scope, scope', s, hscope, hs => by
    rw [expr]
    have hperm := perm_scope m.id ds body.ids
    refine .perm ?_ hperm.symm
    replace hs := hs.perm hperm
    show Resolves _ ([(scope', ds)] ++ blocksOf (Decl.sitesAll (blockScope ds :: scope') ds ++
      body.sites (blockScope ds :: scope'))) _ _ _ _
    rw [blocksOf_append]
    -- The three passes over the block in their order: declarations, bodies, expression.
    refine .bind hs (declare_resolves hscope hs.of_append_left)
      fun inner s₁ hs₁ hext ⟨hinner, hds, hblock⟩ => ?_
    -- From here on names are looked up in the block first; its types are defined.
    have hinner' := hinner.trans (Scope.find?_cons_congr hscope _).symm
    replace hs₁ := hs₁.inner hinner' hds
    refine .bind hs₁ (bodies_resolves ds hinner hs₁.of_append_left) fun _ s₂ hs₂ hext' _ => ?_
    refine .bind_check hs₂ (expr_resolves body hinner hs₂.of_append_left) fun ty s₃ hs₃ _ hty => ?_
    refine setType_resolves hs₃ hty
      fun t _ hof _ hyields _ hbodies ht hdecls hcomplete hdeclares => ?_
    -- Without errors in the end the block is typed, so everything in it has a declared type.
    have hall := (hblock ht.errors).declaresAll hcomplete.1
    have hdeclares' := (hdeclares.mono hext).inner hall
    obtain ⟨ty, rfl, hbody⟩ := hyields hcomplete.2 (hdeclares'.mono hext')
    exact ⟨ty, rfl, ⟨hdecls, hbodies hcomplete.1 hdeclares' hall, hbody⟩, hof ty rfl⟩

theorem exprs_resolves : ∀ (es : List Expr) {scope scope' : Scope} {s : Resolving},
    scope.find? = scope'.find? →
    s.Awaits scope (Expr.idsAll es) →
    Resolves (Expr.idsAll es) (blocksOf (Expr.sitesAll scope' es)) s (exprs scope es)
      (fun tys s' => tys.length = es.length ∧ ∀ ty ∈ tys, s'.Knows ty)
      fun tys t => Expr.CompleteAll es → s.Declares scope' → ∃ tys', tys = tys'.map some ∧
        Expr.HaveTypes t scope' es tys'
  | [], scope, scope', s, hscope, hs => by
    rw [exprs]
    exact .pure hs.admits ⟨rfl, List.forall_mem_nil _⟩ fun _ _ _ _ => ⟨[], rfl, rfl⟩
  | e :: es, scope, scope', s, hscope, hs => by
    rw [exprs, Expr.sitesAll, blocksOf_append]
    refine .bind hs (expr_resolves e hscope hs.of_append_left) fun ty s₁ hs₁ hext hty => ?_
    have hrest := exprs_resolves es hscope hs₁
    have hgrows := (hs₁.admits.extended hrest.runs.1.touches).typeDefs
    refine ⟨⟨hrest.runs.1, congrArg Nat.succ hrest.runs.2.1, List.forall_mem_cons.mpr
      ⟨hty.mono hgrows, hrest.runs.2.2⟩⟩,
      hrest.reports, fun t ht _ hyields hcomplete hdeclares => ?_⟩
    obtain ⟨ty', rfl, he⟩ := hyields hcomplete.1 hdeclares
    obtain ⟨tys, htys, hes⟩ := hrest.holds t ht hcomplete.2 (hdeclares.mono hext)
    exact ⟨ty' :: tys, congrArg _ htys, ty', tys, he, hes, rfl⟩

theorem stmt_resolves : ∀ (st : Stmt) {scope scope' : Scope} {s : Resolving},
    scope.find? = scope'.find? →
    s.Awaits scope st.ids →
    Resolves st.ids (blocksOf (st.sites scope')) s (stmt scope st) (fun ty s' => s'.Knows ty)
      fun ty t => s.Yields scope' (st = .absent ∨ st.Complete) (st.HasType t scope') ty
  | .absent, scope, scope', s, hscope, hs => by
    rw [stmt]
    exact .pure hs.admits Resolving.knows_void fun _ _ _ _ => ⟨.void, rfl, rfl⟩
  | .eval m e, scope, scope', s, hscope, hs => by
    rw [stmt]
    -- A statement writes nothing at its own node.
    refine ((expr_resolves e hscope hs.of_cons).mono (List.subset_cons_self _ _)).imp (fun _ _ =>
      id) fun ty t he => ?_
    exact fun hcomplete hdeclares => he (hcomplete.resolve_left Stmt.noConfusion) hdeclares
  | .assign m dst src, scope, scope', s, hscope, hs => by
    rw [stmt]
    refine .mono ?_ (List.subset_cons_self m.id _)
    replace hs := hs.of_cons
    show Resolves _ (blocksOf (dst.sites scope' ++ src.sites scope')) _ _ _ _
    rw [blocksOf_append]
    refine .bind hs (expr_resolves dst hscope hs.of_append_left) fun dstTy s₁ hs₁ hext hdst => ?_
    refine .bind_last hs₁ (expr_resolves src hscope hs₁) fun srcTy s₂ hs₂ hext' hsrc => ?_
    refine .of_judges ((judges_checkAssign m dst dstTy srcTy).bind fun _ => .pure)
      hs₂.admits.refl rfl
      (fun _ => Resolving.knows_void)
        fun ⟨⟨hlocated, hfit⟩, _⟩ t ht _ hright _ hleft hcomplete hdeclares => ?_
    replace hcomplete := hcomplete.resolve_left Stmt.noConfusion
    -- Both sides have types, since the declarations around them have; the second is read in a
    -- larger table.
    obtain ⟨dstTy, rfl, htyped⟩ := hleft hcomplete.1 hdeclares
    obtain ⟨srcTy, rfl, htyped'⟩ := hright hcomplete.2 (hdeclares.mono hext)
    obtain ⟨hscalar, hassign⟩ := hfit dstTy srcTy rfl rfl
    have hdefs := ht.corresponds hs₂.admits.sound.closed
    have hnames := hdst.mono hext'.typeDefs dstTy rfl
    refine ⟨.void, rfl, ⟨dstTy, srcTy, htyped, htyped', Expr.located_mono hlocated ht.entries, ?_,
      ?_⟩, rfl⟩
    · exact (hdefs.isScalar_eq (.refl (fun _ => rfl) dstTy) hnames).trans hscalar
    · exact (hdefs.assignable_eq (.refl (fun _ => rfl) dstTy) (.refl (fun _ => rfl) srcTy) hnames
        (hsrc srcTy rfl)).trans hassign
  | .cond m test yes no, scope, scope', s, hscope, hs => by
    rw [stmt]
    refine .mono ?_ (List.subset_cons_self m.id _)
    replace hs := hs.of_cons
    show Resolves _ (blocksOf (test.sites scope' ++ yes.sites scope' ++ no.sites scope')) _ _ _ _
    rw [List.append_assoc, blocksOf_append, blocksOf_append]
    -- An error in the condition is recorded, and the branches are resolved all the same.
    refine .bind hs (expr_resolves test hscope hs.of_append_left) fun ty s₁ hs₁ hext hty => ?_
    refine .check_bind hs₁ (condition_resolves test hs₁ hty) fun _ s₂ hs₂ hext' (_ : True) => ?_
    refine .bind hs₂ (stmt_resolves yes hscope hs₂.of_append_left) fun _ s₃ hs₃ hext₃ _ => ?_
    refine (stmt_resolves no hscope hs₃).map (fun _ _ _ => Resolving.knows_void)
      fun noTy t hright _ hleft _ hbool _ hyields hcomplete hdeclares => ?_
    replace hcomplete := hcomplete.resolve_left Stmt.noConfusion
    obtain ⟨ty, rfl, htest⟩ := hyields hcomplete.1 hdeclares
    -- Each part is read in the tables that the parts before it have left.
    have hdeclares₂ := (hdeclares.mono hext).mono hext'
    obtain ⟨yesTy, -, hyes⟩ := hleft (.inr hcomplete.2.1) hdeclares₂
    obtain ⟨noTy, -, hno⟩ := hright hcomplete.2.2 (hdeclares₂.mono hext₃)
    exact ⟨.void, rfl, ⟨ty, yesTy, noTy, htest, hbool ty rfl, hyes, hno⟩, rfl⟩
  | .loop m test body, scope, scope', s, hscope, hs => by
    rw [stmt]
    refine .mono ?_ (List.subset_cons_self m.id _)
    replace hs := hs.of_cons
    show Resolves _ (blocksOf (test.sites scope' ++ body.sites scope')) _ _ _ _
    rw [blocksOf_append]
    refine .bind hs (expr_resolves test hscope hs.of_append_left) fun ty s₁ hs₁ hext hty => ?_
    refine .check_bind hs₁ (condition_resolves test hs₁ hty) fun _ s₂ hs₂ hext' (_ : True) => ?_
    refine (stmt_resolves body hscope hs₂).map (fun _ _ _ => Resolving.knows_void)
      fun bodyTy t hright _ hbool _ hyields hcomplete hdeclares => ?_
    replace hcomplete := hcomplete.resolve_left Stmt.noConfusion
    obtain ⟨ty, rfl, htest⟩ := hyields hcomplete.1 hdeclares
    obtain ⟨bodyTy, -, hbody⟩ := hright (.inr hcomplete.2) ((hdeclares.mono hext).mono hext')
    exact ⟨.void, rfl, ⟨ty, bodyTy, htest, hbool ty rfl, hbody⟩, rfl⟩

theorem stmtList_resolves : ∀ (ss : List Stmt) {scope scope' : Scope} {s : Resolving},
    scope.find? = scope'.find? →
    s.Awaits scope (Stmt.idsAll ss) →
    Resolves (Stmt.idsAll ss) (blocksOf (Stmt.sitesAll scope' ss)) s (stmtList scope ss)
      (fun ty s' => s'.Knows ty)
      fun ty t => s.Yields scope' (Stmt.CompleteAll ss) (Stmt.HaveType t scope' ss) ty
  | [], scope, scope', s, hscope, hs => by
    rw [stmtList]
    exact .pure hs.admits Resolving.knows_void fun _ _ _ _ => ⟨.void, rfl, rfl⟩
  | [st], scope, scope', s, hscope, hs => by
    rw [Stmt.idsAll, Stmt.idsAll, List.append_nil] at hs ⊢
    rw [stmtList, Stmt.sitesAll, Stmt.sitesAll, List.append_nil]
    exact (stmt_resolves st hscope hs).imp (fun _ _ => id) fun ty t hst hcomplete =>
      hst (.inr hcomplete.1)
  | st :: st' :: ss, scope, scope', s, hscope, hs => by
    rw [stmtList, Stmt.sitesAll, blocksOf_append]
    · refine .bind hs (stmt_resolves st hscope hs.of_append_left) fun _ s₁ hs₁ hext _ => ?_
      refine (stmtList_resolves (st' :: ss) hscope hs₁).imp (fun _ _ => id)
        fun ty t hright _ hleft hcomplete hdeclares => ?_
      obtain ⟨stTy, -, hst⟩ := hleft (.inr hcomplete.1) hdeclares
      obtain ⟨ty, rfl, hrest⟩ := hright hcomplete.2 (hdeclares.mono hext)
      exact ⟨ty, rfl, ⟨stTy, hst⟩, hrest⟩
    · simp

theorem bodies_resolves : ∀ (ds : List Decl) {scope scope' : Scope} {s : Resolving},
    scope.find? = scope'.find? →
    s.Awaits scope (ds.flatMap Decl.bodyIds) →
    Resolves (ds.flatMap Decl.bodyIds) (blocksOf (Decl.sitesAll scope' ds)) s (bodies scope ds)
      (fun _ _ => True)
      fun _ t => Decl.CompleteAll ds → s.Declares scope' → s.DeclaresAll ds →
        Decl.BodiesTyped t scope' ds
  | [], scope, scope', s, hscope, hs => by
    rw [bodies]
    exact .pure hs.admits trivial fun _ _ _ _ _ => trivial
  | .fn m name params type body :: ds, scope, scope', s, hscope, hs => by
    -- The blocks in the order in which they are resolved: those of this body, then the others'.
    have hblocks : blocksOf (Decl.sitesAll scope' (.fn m name params type body :: ds)) =
        blocksOf (body.sites (paramScope params :: scope')) ++ blocksOf
            (Decl.sitesAll scope' ds) := by
      rw [Decl.sitesAll, blocksOf_append, Decl.sites, ← blocksOf_append]
      simp [blocksOf]
    rw [hblocks, bodies]
    -- Without a body nothing is resolved, and nothing is claimed of it either.
    cases hbody : body.isAbsent with
    | true =>
      cases body with
      | absent =>
        refine (bodies_resolves ds hscope hs).imp (fun _ _ => id)
          fun _ t hrest hcomplete hdeclares hall => ?_
        exact ⟨fun h => (Bool.false_ne_true h.symm).elim, hrest hcomplete.2 hdeclares hall.tail⟩
      | _ => cases hbody
    | false =>
      refine .check_bind hs (params_resolves params hs) fun names s₁ hs₁ hext hnames => ?_
      -- The body is resolved with the parameters of the function in front of the scope.
      have hinner := hnames.trans (Scope.find?_cons_congr hscope _)
      refine .bind hs₁ (expr_resolves body hinner (hs₁.of_append_left.params hnames))
        fun ty s₂ hs₂ hext' hty => ?_
      refine .check_bind hs₂ (body_resolves m name body hs₂ hty) fun _ s₃ hs₃ hext₃ (_ : True) => ?_
      refine (bodies_resolves ds hscope hs₃).imp (fun _ _ => id)
        fun _ t hrest _ hfit _ hyields _ hdistinct hcomplete hdeclares hall => ?_
      have hown := hall _ List.mem_cons_self
      have hext_all := (hext.trans hext').trans hext₃
      refine ⟨fun _ => ⟨hdistinct, ?_⟩, hrest hcomplete.2 (hdeclares.mono hext_all)
        (hall.tail.mono hext_all)⟩
      -- The parameters are declared, so the body has a type, and the result that was declared is
      -- still there.
      obtain ⟨got, rfl, htyped⟩ :=
        hyields (hcomplete.1.resolve_left fun h => by subst h; cases hbody)
        ((hdeclares.params fun p hp =>
          hown _ (List.mem_cons_of_mem _ (List.mem_map.mpr ⟨p, hp, rfl⟩))).mono hext)
      obtain ⟨want, hwant⟩ := Option.isSome_iff_exists.mp (hown m.id List.mem_cons_self)
      have hwant₂ := hext'.declType _ _ (hext.declType _ _ hwant)
      obtain ⟨hwant', hfit⟩ := hfit got want rfl hwant₂
      exact ⟨got, want, htyped, hwant', hfit⟩
  | .var .. :: ds, scope, scope', s, hscope, hs | .typ .. :: ds, scope, scope', s, hscope, hs
  | .par .. :: ds, scope, scope', s, hscope, hs | .comp .. :: ds, scope, scope', s, hscope, hs => by
    rw [bodies]
    · refine (bodies_resolves ds hscope hs).imp (fun _ _ => id)
        fun _ t hrest hcomplete hdeclares hall => ?_
      exact hrest hcomplete.2 hdeclares hall.tail
    · simp

end

/-! ## §5 Programs -/

theorem Judges.forM {f : α → Resolve PUnit} {ok : α → Prop} : ∀ (xs : List α) {s : Resolving},
    (∀ a ∈ xs, ∀ es, Judges (s.adding es) (f a) () (s.adding es) (ok a)) →
    Judges s (xs.forM f) () s (∀ a ∈ xs, ok a)
  | [], _, _ => Judges.pure.congr (iff_of_true trivial (List.forall_mem_nil _))
  | a :: xs, s, h => by
    refine Judges.congr (.bind (h a List.mem_cons_self []) fun es => ?_) List.forall_mem_cons.symm
    refine Judges.forM xs fun b hb es' => ?_
    rw [Resolving.adding_adding]
    exact h b (List.mem_cons_of_mem _ hb) _

theorem judges_checkReserved (d : Decl) : Judges s (checkReserved d) () s d.Permitted := by
  unfold checkReserved
  cases hname : runtimeNames.contains d.name with
  | true =>
    rw [List.contains_iff_mem] at hname
    rw [if_pos rfl]
    cases d with
    | fn m name params type body =>
      refine (judges_reportIf id).congr ?_
      cases body <;> simp [Decl.Permitted, Expr.isAbsent, show name ∈ runtimeNames from hname]
    | var m name type => exact (Judges.report id).congr (iff_of_false id fun h => h hname)
    | _ => exact Judges.pure.congr (iff_of_true trivial trivial)
  | false =>
    rw [← Bool.not_eq_true, List.contains_iff_mem] at hname
    rw [if_neg Bool.false_ne_true]
    refine Judges.pure.congr (iff_of_true trivial ?_)
    cases d with
    | fn m name params type body => exact fun h => (hname h).elim
    | var m name type => exact hname
    | _ => trivial

theorem awaits_of_wellNumbered {p : Program} (hp : p.WellNumbered) :
    Resolving.Awaits [] p.ids { nextId := p.nextId } := by
  refine ⟨⟨⟨fun ty hty => ?_, fun id ty h => ?_, fun id info h => ?_, fun ty hty => ?_⟩,
    fun d hcycle => ?_,
    fun ident m name te h => ?_,
    hp.lt_nextId, fun id info h => ?_, fun id _ => ?_, fun id _ => ?_, fun id _ => ?_,
      fun id _ => ?_, fun id _ => ?_⟩,
    hp.nodup⟩
  -- Nothing is in the tables yet.
  · cases hty with
    | ofType h | isType h | declType h | typeDefs h | record h =>
      rw [Std.TreeMap.getElem?_emptyc] at h
      cases h
  · rw [Std.TreeMap.getElem?_emptyc] at h
    cases h
  · rw [Std.TreeMap.getElem?_emptyc] at h
    cases h
  · cases hty with
    | isType h | declType h | typeDefs h =>
      rw [Std.TreeMap.getElem?_emptyc] at h
      cases h
  · obtain ⟨d', ⟨t, ht, -⟩, -⟩ := Relation.TransGen.head'_iff.mp hcycle
    rw [Std.TreeMap.getElem?_emptyc] at ht
    cases ht
  · cases h
  · rw [Std.TreeMap.getElem?_emptyc] at h
    cases h
  all_goals exact Std.TreeMap.getElem?_emptyc

theorem awaits_initial (p : Program) :
    Resolving.Awaits [] p.number.ids { nextId := p.number.nextId } :=
  awaits_of_wellNumbered p.wellNumbered_number

/-- **Resolving a program**, whatever is wrong with it. -/
theorem wellNumbered_resolves {p : Program} (hp : p.WellNumbered) :
    Resolves p.ids (blocksOf p.sites) { nextId := p.nextId } (program p) (fun _ _ => True)
      fun _ t => Decl.CompleteAll p.decls → p.Typed t := by
  have hperm := Decl.idsAll_perm p.decls
  have hs := Resolving.Awaits.perm (awaits_of_wellNumbered hp) hperm
  refine .perm ?_ hperm.symm
  show Resolves _ ([([], p.decls)] ++ blocksOf (Decl.sitesAll [blockScope p.decls] p.decls)) _ _ _ _
  refine .check_bind hs (K := fun _ _ => ∀ d ∈ p.decls, d.Permitted)
    (.of_judges (Judges.forM _ fun d _ _ => judges_checkReserved d) hs.admits.refl rfl
      (fun _ => trivial)
      fun hok _ _ => hok) fun _ s₁ hs₁ _ (_ : True) => ?_
  refine .bind hs₁ (declare_resolves rfl hs₁.of_append_left)
    fun inner s₂ hs₂ _ ⟨hinner, hds, hblock⟩ => ?_
  refine (bodies_resolves _ hinner (hs₂.inner hinner hds)).imp (fun _ _ => id)
    fun _ t hbodies ht hdecls _ hpermitted hcomplete => ⟨hpermitted, hdecls, ?_⟩
  have hall := (hblock ht.errors).declaresAll hcomplete
  exact hbodies hcomplete (Resolving.Declares.inner (fun ident d h => by cases h) hall) hall

theorem program_resolves (p : Program) :
    Resolves p.number.ids (blocksOf p.number.sites) { nextId := p.number.nextId } (program p.number)
      (fun _ _ => True)
      fun _ t => Decl.CompleteAll p.number.decls → p.number.Typed t :=
  wellNumbered_resolves p.wellNumbered_number

end Resolve

end MmixBackend.Source
