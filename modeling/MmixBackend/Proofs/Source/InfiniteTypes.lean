import MmixBackend.Proofs.Source.Recovery

/-!
# Infinite types

A type name whose definition contains the name itself, directly or through other names, has no size
unless there is a pointer in between. Such names are reported and replaced by `void`, block by
block. The check may look at them while the definitions still have cycles; everything else follows
type names behind the check only.

## Main statements

- `Resolve.infinite_types_are_caught`: an infinite type is reported of a block exactly if its type
  names have a cycle that passes no pointer, and following type names always ends.
-/

namespace MmixBackend.Source

/-- Stripping the names around the type and computing its size come to an end. -/
def Attributes.Follows (t : Attributes) (ty : Ty) : Prop :=
  ty.Unfolds t.typeDefs (ty.actual t.typeDefs) ∧ ty.HasSize t.typeDefs (ty.size t.typeDefs)

namespace Resolving.Goes

variable {ids : List NodeId} {s s' : Resolving}

theorem follows_of_namesIn (h : s.Goes ids s') {ty : Ty} (hty : ty.NamesIn s'.Defines) :
    s'.attrs.Follows ty :=
  ⟨ty.unfolds_actual fun d _ => h.guarded.founded d, Ty.hasSize_size h.guarded h.sound.closed hty⟩

theorem follows (h : s.Goes ids s') (ty : Ty) (hty : s'.attrs.Mentions ty) : s'.attrs.Follows ty :=
  h.follows_of_namesIn (h.sound.names ty hty)

end Resolving.Goes

namespace Resolve

/-- **Infinite types are caught exactly, and nothing loops.**

* The check whether a type is finite ends for all tables of definitions.
* A block is declared in any scope. Errors tell of infinite types of this block exactly if its type
  names, as they are written, have a cycle that passes no pointer. Then following type names ends
  for all types in the tables, also for those recorded of a text that turned out to be no type.
* This is so behind function bodies and expressions that are resolved later, errors or not.
* It holds of all blocks in all programs. -/
theorem infinite_types_are_caught :
    (∀ (defs : TypeDefs) (d : NodeId) ident, (Ty.named d ident).FiniteRun defs [] (defs.isFinite d)) ∧
    (∀ s outer ds, s.Awaits outer (ds.flatMap Decl.headIds) →
      ∃ inner s', (declare outer ds).run s = (inner, s') ∧
        (∃ es, s'.errors = es ++ s.errors ∧ (∀ e ∈ es, e.cause.IsInfinite → e.cause.Blames ds) ∧
          ((∃ e ∈ es, e.cause.IsInfinite) ↔ outer.Cyclic ds)) ∧
        ∀ ty, s'.attrs.Mentions ty → s'.attrs.Follows ty) ∧
    (∀ s scope ds, s.Awaits scope (ds.flatMap Decl.bodyIds) →
      ∃ s', (bodies scope ds).run s = ((), s') ∧ ∀ ty, s'.attrs.Mentions ty → s'.attrs.Follows ty) ∧
    (∀ s scope e, s.Awaits scope e.ids →
      ∃ ty s', (expr scope e).run s = (ty, s') ∧ (∀ ty', ty = some ty' → s'.attrs.Follows ty') ∧
        ∀ ty, s'.attrs.Mentions ty → s'.attrs.Follows ty) ∧
    ∀ p : Program, ∃ s', (program p.number).run { nextId := p.number.nextId } = ((), s') ∧
      Resolving.Reports (blocksOf p.number.sites) { nextId := p.number.nextId } s' ∧
        ∀ ty, s'.attrs.Mentions ty → s'.attrs.Follows ty := by
  refine ⟨TypeDefs.finiteRun_isFinite, fun s outer ds hs => ?_, fun s scope ds hs => ?_,
    fun s scope e hs => ?_, fun p => ?_⟩
  · obtain ⟨hgo, ⟨-, -, hreports⟩, -⟩ := declare_runs hs.admits hs.nodup
    exact ⟨_, _, rfl, Resolving.Reports.block_iff.mp hreports, hgo.follows⟩
  · exact ⟨_, rfl, (bodies_resolves ds rfl hs).runs.1.follows⟩
  · obtain ⟨hgo, hty⟩ := (expr_resolves e rfl hs).runs
    exact ⟨_, _, rfl, fun ty h => hgo.follows_of_namesIn (hty ty h), hgo.follows⟩
  · obtain ⟨⟨hgo, -⟩, hreports⟩ := program_resolves p
    exact ⟨_, rfl, hreports, hgo.follows⟩

/-- Two types contain each other; a third one contains a pointer to itself. -/
def entangled : Program where
  mark := { pos := ⟨1, 1⟩ }
  decls := [
    .typ { pos := ⟨1, 1⟩ } "pair" ⟨{ pos := ⟨1, 8⟩ }, "[2]item"⟩,
    .typ { pos := ⟨2, 1⟩ } "item" ⟨{ pos := ⟨2, 8⟩ }, "{value:int,rest:pair}"⟩,
    .typ { pos := ⟨3, 1⟩ } "list" ⟨{ pos := ⟨3, 8⟩ }, "^list"⟩]

/-- The type names of the program go round outside of pointers. -/
theorem cyclic_entangled : Scope.Cyclic [] entangled.number.decls := by
  refine ⟨1, .tail (.single ⟨⟨1, ⟨1, 1⟩⟩, "pair", ⟨⟨2, ⟨1, 8⟩⟩, "[2]item"⟩,
    .arr 2 (.named 3 "item"), ?_, rfl, ?_, rfl⟩)
    ⟨⟨3, ⟨2, 1⟩⟩, "item", ⟨⟨4, ⟨2, 8⟩⟩, "{value:int,rest:pair}"⟩,
      .record 0 (.cons "value" .int (.cons "rest" (.named 1 "pair") .nil)), ?_, rfl, ?_, .inr (.inl rfl)⟩⟩
  · exact List.mem_cons_self
  · exact Scope.reads_of_eq (by decide +kernel)
  · exact List.mem_cons_of_mem _ List.mem_cons_self
  · exact Scope.reads_of_eq (by decide +kernel)

theorem infinite_types_are_caught_entangled :
    ∃ e ∈ ((declare [] entangled.number.decls).run { nextId := entangled.number.nextId }).2.errors,
      e.cause.IsInfinite := by
  obtain ⟨-, hblock, -⟩ := infinite_types_are_caught
  have hawaits := Resolving.Awaits.perm (awaits_initial entangled)
    (Decl.idsAll_perm entangled.number.decls)
  obtain ⟨inner, s', hrun, ⟨es, hes, -, hiff⟩, -⟩ := hblock _ _ _ hawaits.of_append_left
  obtain ⟨e, he, hcause⟩ := hiff.mpr cyclic_entangled
  rw [hrun, hes]
  exact ⟨e, List.mem_append_left _ he, hcause⟩

end Resolve

end MmixBackend.Source
