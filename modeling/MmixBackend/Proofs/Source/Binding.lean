import MmixBackend.Proofs.Source.Arrangement
import MmixBackend.Proofs.Source.Translation

/-!
# Declarations of the nodes of a program

A statement about all nodes of a program is easier to use than one about a tree in its scope: wherever a
name stands, what it refers to is declared somewhere in the program and lies where the layout has put it.
This module turns resolution and layout, which follow the tree, into such statements.

## Main statements

- `Decl.bound_of_resolvedAll`: names and calls refer to declarations of the program.
- `Decl.arrangedIn_of_arrangedAll`: declarations of a program lie where the layout puts them.
-/

namespace MmixBackend.Source

open Layout

/-! ## §1 References -/

/-- All nodes of a tree are walked over. -/
abbrev everywhere : Node → Bool := fun _ => true

theorem forall_below {P : Node → Prop} {n : Node} {ns : List Node} :
    (∀ n' ∈ Node.below everywhere n ns, P n') ↔ P n ∧ ∀ n' ∈ ns, P n' :=
  List.forall_mem_cons

/-- What the node refers to is declared among the nodes `ns`, what a function consists of is among
them, and parameters and arguments are scalars. What is assigned to is a location. -/
def Node.Bound (t : Attributes) (ns : List Node) : Node → Prop
  | .expr (.name m _) => ∃ d, t.declaredAt[m.id]? = some d ∧ d.IsValue ∧ .decl d ∈ ns
  | .expr (.call m _ args) => ∃ fm name params type body,
    t.declaredAt[m.id]? = some (.fn fm name params type body) ∧
      .decl (.fn fm name params type body) ∈ ns ∧ params.length = args.length ∧
        ∀ e ∈ args, e.IsScalar t
  | .decl (.fn _ _ params _ body) =>
    (∀ p ∈ params, .decl p.decl ∈ ns ∧ p.IsScalar t) ∧ ∀ n ∈ body.walk everywhere, n ∈ ns
  | .stmt (.assign _ dst _) => dst.IsLocation t
  | _ => True

/-- All declarations in scope are among the nodes. -/
def Scope.Within (scope : Scope) (ns : List Node) : Prop :=
  ∀ ident d, scope.find? ident = some d → .decl d ∈ ns

variable {t : Attributes} {ns : List Node}

/-- The declarations of a block are among its nodes. -/
theorem Decl.mem_walkAll {enter : Node → Bool} : ∀ {ds : List Decl} {d : Decl}, d ∈ ds →
    .decl d ∈ Decl.walkAll enter ds
  | d' :: ds, d, h => by
    rw [Decl.walkAll]
    rcases List.mem_cons.mp h with rfl | h
    · refine List.mem_append_left _ ?_
      cases d <;> exact List.mem_cons_self
    · exact List.mem_append_right _ (Decl.mem_walkAll h)

theorem Scope.Within.block {scope : Scope} (h : scope.Within ns) {ds : List Decl}
    (hds : ∀ n ∈ Decl.walkAll everywhere ds, n ∈ ns) : Scope.Within (blockScope ds :: scope) ns := by
  intro ident d hd
  rcases Scope.mem_of_find?_cons hd with hmem | hd
  · obtain ⟨d', hd', heq⟩ := List.mem_map.mp hmem
    cases heq
    exact hds _ (Decl.mem_walkAll hd')
  · exact h ident d hd

theorem Scope.Within.params {scope : Scope} (h : scope.Within ns) {ps : List Param}
    (hps : ∀ p ∈ ps, .decl p.decl ∈ ns) : Scope.Within (paramScope ps :: scope) ns := by
  intro ident d hd
  rcases Scope.mem_of_find?_cons hd with hmem | hd
  · obtain ⟨p, hp, heq⟩ := List.mem_map.mp hmem
    cases heq
    exact hps p hp
  · exact h ident d hd

mutual

theorem Expr.bound_of_resolved : ∀ (e : Expr) {scope : Scope}, e.Resolved t scope → scope.Within ns →
    (∀ n ∈ e.walk everywhere, n ∈ ns) → ∀ n ∈ e.walk everywhere, n.Bound t ns
  | .absent, _, _, _, _ => by simp [Expr.walk]
  | .atom .., _, _, _, _ => by simp [Expr.walk, Node.below, Node.Bound]
  | .name m ident, _, ⟨d, hfind, hbound, hvalue⟩, hscope, _ => by
    rw [Expr.walk, forall_below]
    exact ⟨⟨d, hbound, hvalue, hscope ident d hfind⟩, fun _ h => (List.not_mem_nil h).elim⟩
  | .unary _ _ arg, _, hr, hscope, hns => by
    rw [Expr.walk, forall_below] at hns ⊢
    exact ⟨True.intro, arg.bound_of_resolved hr.1 hscope hns.2⟩
  | .deref _ arg, _, hr, hscope, hns | .cast _ arg _, _, hr, hscope, hns => by
    rw [Expr.walk, forall_below] at hns ⊢
    exact ⟨True.intro, arg.bound_of_resolved hr hscope hns.2⟩
  | .select _ record comp, _, hr, hscope, hns => by
    rw [Expr.walk, forall_below, List.forall_mem_append] at hns ⊢
    refine ⟨True.intro, record.bound_of_resolved hr.1 hscope hns.2.1, fun n hn => ?_⟩
    rw [List.mem_singleton.mp hn]
    exact True.intro
  | .binary _ _ fst snd, _, hr, hscope, hns => by
    rw [Expr.walk, forall_below, List.forall_mem_append] at hns ⊢
    exact ⟨True.intro, fst.bound_of_resolved hr.1 hscope hns.2.1,
      snd.bound_of_resolved hr.2 hscope hns.2.2⟩
  | .index _ array idx, _, hr, hscope, hns => by
    rw [Expr.walk, forall_below, List.forall_mem_append] at hns ⊢
    exact ⟨True.intro, array.bound_of_resolved hr.1 hscope hns.2.1,
      idx.bound_of_resolved hr.2.1 hscope hns.2.2⟩
  | .call m ident args, _, ⟨hr, fm, name, params, type, body, hfind, hbound, hlength⟩, hscope, hns => by
    rw [Expr.walk, forall_below] at hns ⊢
    exact ⟨⟨fm, name, params, type, body, hbound, hscope ident _ hfind, hlength⟩,
      Expr.bound_of_resolvedAll args hr hscope hns.2⟩
  | .block _ ss, _, hr, hscope, hns => by
    rw [Expr.walk, forall_below] at hns ⊢
    exact ⟨True.intro, Stmt.bound_of_resolvedAll ss hr hscope hns.2⟩
  | .scope _ ds body, _, hr, hscope, hns => by
    rw [Expr.walk, forall_below, List.forall_mem_append] at hns ⊢
    -- The declarations of the block are visible in it, so they have to be among the nodes as well.
    have hinner := hscope.block hns.2.1
    exact ⟨True.intro, Decl.bound_of_resolvedAll ds hr.1 hinner hns.2.1,
      body.bound_of_resolved hr.2 hinner hns.2.2⟩

theorem Expr.bound_of_resolvedAll : ∀ (es : List Expr) {scope : Scope}, Expr.ResolvedAll t scope es →
    scope.Within ns → (∀ n ∈ Expr.walkAll everywhere es, n ∈ ns) →
    ∀ n ∈ Expr.walkAll everywhere es, n.Bound t ns
  | [], _, _, _, _ => by simp [Expr.walkAll]
  | e :: es, _, hr, hscope, hns => by
    rw [Expr.walkAll, List.forall_mem_append] at hns ⊢
    exact ⟨e.bound_of_resolved hr.1 hscope hns.1, Expr.bound_of_resolvedAll es hr.2.2 hscope hns.2⟩

theorem Stmt.bound_of_resolved : ∀ (s : Stmt) {scope : Scope}, s.Resolved t scope → scope.Within ns →
    (∀ n ∈ s.walk everywhere, n ∈ ns) → ∀ n ∈ s.walk everywhere, n.Bound t ns
  | .absent, _, _, _, _ => by simp [Stmt.walk]
  | .eval _ e, _, hr, hscope, hns => by
    rw [Stmt.walk, forall_below] at hns ⊢
    exact ⟨True.intro, e.bound_of_resolved hr hscope hns.2⟩
  | .assign _ dst src, _, hr, hscope, hns => by
    rw [Stmt.walk, forall_below, List.forall_mem_append] at hns ⊢
    exact ⟨hr.2.2, dst.bound_of_resolved hr.1 hscope hns.2.1,
      src.bound_of_resolved hr.2.1 hscope hns.2.2⟩
  | .cond _ test yes no, _, hr, hscope, hns => by
    rw [Stmt.walk, forall_below, List.forall_mem_append, List.forall_mem_append] at hns ⊢
    exact ⟨True.intro, ⟨test.bound_of_resolved hr.1 hscope hns.2.1.1,
      yes.bound_of_resolved hr.2.1 hscope hns.2.1.2⟩, no.bound_of_resolved hr.2.2 hscope hns.2.2⟩
  | .loop _ test body, _, hr, hscope, hns => by
    rw [Stmt.walk, forall_below, List.forall_mem_append] at hns ⊢
    exact ⟨True.intro, test.bound_of_resolved hr.1 hscope hns.2.1,
      body.bound_of_resolved hr.2 hscope hns.2.2⟩

theorem Stmt.bound_of_resolvedAll : ∀ (ss : List Stmt) {scope : Scope}, Stmt.ResolvedAll t scope ss →
    scope.Within ns → (∀ n ∈ Stmt.walkAll everywhere ss, n ∈ ns) →
    ∀ n ∈ Stmt.walkAll everywhere ss, n.Bound t ns
  | [], _, _, _, _ => by simp [Stmt.walkAll]
  | s :: ss, _, hr, hscope, hns => by
    rw [Stmt.walkAll, List.forall_mem_append] at hns ⊢
    exact ⟨s.bound_of_resolved hr.1 hscope hns.1, Stmt.bound_of_resolvedAll ss hr.2 hscope hns.2⟩

/-- **Names and calls in a block refer to declarations of the program.** -/
theorem Decl.bound_of_resolvedAll : ∀ (ds : List Decl) {scope : Scope}, Decl.ResolvedAll t scope ds →
    scope.Within ns → (∀ n ∈ Decl.walkAll everywhere ds, n ∈ ns) →
    ∀ n ∈ Decl.walkAll everywhere ds, n.Bound t ns
  | [], _, _, _, _ => by simp [Decl.walkAll]
  | .fn m name ps type body :: ds, _, hr, hscope, hns => by
    rw [Decl.walkAll, Decl.walk, List.forall_mem_append, forall_below, List.forall_mem_append] at hns ⊢
    obtain ⟨⟨hown, hps, hbody⟩, hds⟩ := hns
    have hparams : ∀ p ∈ ps, .decl p.decl ∈ ns := fun p hp => hps _ (List.mem_map_of_mem hp)
    have hscalars : ∀ p ∈ ps, p.IsScalar t := hr.1.1.2
    refine ⟨⟨⟨fun p hp => ⟨hparams p hp, hscalars p hp⟩, hbody⟩, fun n hn => ?_,
      body.bound_of_resolved hr.1.2 (hscope.params hparams) hbody⟩,
      Decl.bound_of_resolvedAll ds hr.2 hscope hds⟩
    obtain ⟨p, -, rfl⟩ := List.mem_map.mp hn
    exact True.intro
  | .var .. :: ds, _, hr, hscope, hns | .typ .. :: ds, _, hr, hscope, hns
  | .par .. :: ds, _, hr, hscope, hns | .comp .. :: ds, _, hr, hscope, hns => by
    rw [Decl.walkAll, Decl.walk, List.forall_mem_append, forall_below] at hns ⊢
    exact ⟨⟨True.intro, fun _ h => (List.not_mem_nil h).elim⟩,
      Decl.bound_of_resolvedAll ds hr.2 hscope hns.2⟩

end

/-- The names and calls of a whole program refer to declarations of the program. -/
theorem Program.bound_of_resolved {p : Program} (h : Decl.ResolvedAll t [blockScope p.decls] p.decls) :
    ∀ n ∈ Decl.walkAll everywhere p.decls, n.Bound t (Decl.walkAll everywhere p.decls) := by
  have hscope : Scope.Within [] (Decl.walkAll everywhere p.decls) := fun _ _ h => by cases h
  exact Decl.bound_of_resolvedAll p.decls h (hscope.block fun _ hn => hn) fun _ hn => hn

/-! ## §2 Places -/

/-- A declaration inside a function lies where the layout puts it. -/
def Node.Inside (t t' : Attributes) : Node → Prop
  | .decl (.fn m name ps type body) =>
    ∃ n : Needs, n.isGlobal = false ∧ (Decl.fn m name ps type body).Arranged t t' n
  | .decl (.var m name type) => ∃ n : Needs, n.isGlobal = false ∧ (Decl.var m name type).Arranged t t' n
  | .decl (.par m _ _) => ∃ offset, t'.OffsetAt m.id offset
  | _ => True

@[simp] theorem isGlobal_forCall (n : Needs) (size : Word) : (n.forCall size).isGlobal = n.isGlobal := by
  unfold Needs.forCall
  split <;> rfl

@[simp] theorem isGlobal_withLocal (n : Needs) (size : Word) :
    (n.withLocal size).isGlobal = n.isGlobal := by
  unfold Needs.withLocal
  split <;> rfl

@[simp] theorem isGlobal_forName (t : Attributes) (n : Needs) (id : NodeId) :
    (n.forName t id).isGlobal = n.isGlobal := by
  unfold Needs.forName
  split <;> simp

mutual

@[simp] theorem Expr.isGlobal_needs (t : Attributes) : ∀ (e : Expr) (n : Needs),
    (e.needs t n).isGlobal = n.isGlobal
  | .absent, _ | .atom .., _ => rfl
  | .unary _ op arg, n => by
    rw [Expr.needs]
    split <;> simp [Expr.isGlobal_needs t arg]
  | .deref _ arg, n | .select _ arg _, n | .cast _ arg _, n => by
    rw [Expr.needs, Expr.isGlobal_needs t arg]
  | .binary _ _ fst snd, n | .index _ fst snd, n => by
    rw [Expr.needs, Expr.isGlobal_needs t snd, Expr.isGlobal_needs t fst]
  | .name m _, n => by simp [Expr.needs]
  | .call _ _ args, n => by simp [Expr.needs, Expr.isGlobal_needsAll t args]
  | .block _ ss, n => by rw [Expr.needs, Stmt.isGlobal_needsAll t ss]
  | .scope _ ds body, n => by
    rw [Expr.needs, Expr.isGlobal_needs t body, Decl.isGlobal_needsAll t ds]

@[simp] theorem Expr.isGlobal_needsAll (t : Attributes) : ∀ (es : List Expr) (n : Needs),
    (Expr.needsAll t es n).isGlobal = n.isGlobal
  | [], _ => rfl
  | e :: es, n => by rw [Expr.needsAll, Expr.isGlobal_needsAll t es, Expr.isGlobal_needs t e]

@[simp] theorem Stmt.isGlobal_needs (t : Attributes) : ∀ (s : Stmt) (n : Needs),
    (s.needs t n).isGlobal = n.isGlobal
  | .absent, _ => rfl
  | .eval _ e, n => by rw [Stmt.needs, Expr.isGlobal_needs t e]
  | .assign _ dst src, n => by rw [Stmt.needs, Expr.isGlobal_needs t src, Expr.isGlobal_needs t dst]
  | .cond _ test yes no, n => by
    rw [Stmt.needs, Stmt.isGlobal_needs t no, Stmt.isGlobal_needs t yes, Expr.isGlobal_needs t test]
  | .loop _ test body, n => by rw [Stmt.needs, Stmt.isGlobal_needs t body, Expr.isGlobal_needs t test]

@[simp] theorem Stmt.isGlobal_needsAll (t : Attributes) : ∀ (ss : List Stmt) (n : Needs),
    (Stmt.needsAll t ss n).isGlobal = n.isGlobal
  | [], _ => rfl
  | s :: ss, n => by rw [Stmt.needsAll, Stmt.isGlobal_needsAll t ss, Stmt.isGlobal_needs t s]

@[simp] theorem Decl.isGlobal_needsAll (t : Attributes) : ∀ (ds : List Decl) (n : Needs),
    (Decl.needsAll t ds n).isGlobal = n.isGlobal
  | [], _ => rfl
  | .var .. :: ds, n => by rw [Decl.needsAll, Decl.isGlobal_needsAll t ds, isGlobal_withLocal]
  | .fn .. :: ds, n | .typ .. :: ds, n | .par .. :: ds, n | .comp .. :: ds, n => by
    rw [Decl.needsAll, Decl.isGlobal_needsAll t ds]
    simp

end

theorem inside_params {t' : Attributes} {depth : Word} : ∀ {ps : List Param} {before : Word},
    Param.ArrangedAll t t' depth ps before → ∀ n ∈ ps.map fun p => Node.decl p.decl, n.Inside t t'
  | [], _, _ => by simp
  | p :: ps, _, h => by
    rw [List.map_cons]
    exact List.forall_mem_cons.mpr ⟨⟨_, _, _, h.1⟩, inside_params h.2⟩

mutual

theorem Expr.inside_of_arranged {t' : Attributes} : ∀ (e : Expr) {n : Needs}, e.Arranged t t' n →
    n.isGlobal = false → ∀ node ∈ e.walk everywhere, node.Inside t t'
  | .absent, _, _, _ => by simp [Expr.walk]
  | .atom .., _, _, _ | .name .., _, _, _ => by simp [Expr.walk, Node.below, Node.Inside]
  | .unary _ _ arg, _, h, hn | .deref _ arg, _, h, hn | .cast _ arg _, _, h, hn => by
    rw [Expr.walk, forall_below]
    exact ⟨True.intro, arg.inside_of_arranged h hn⟩
  | .select _ record _, _, h, hn => by
    rw [Expr.walk, forall_below, List.forall_mem_append]
    refine ⟨True.intro, record.inside_of_arranged h hn, fun n hn => ?_⟩
    rw [List.mem_singleton.mp hn]
    exact True.intro
  | .binary _ _ fst snd, _, h, hn | .index _ fst snd, _, h, hn => by
    rw [Expr.walk, forall_below, List.forall_mem_append]
    exact ⟨True.intro, fst.inside_of_arranged h.1 hn, snd.inside_of_arranged h.2 (by simpa using hn)⟩
  | .call _ _ args, _, h, hn => by
    rw [Expr.walk, forall_below]
    exact ⟨True.intro, Expr.inside_of_arrangedAll args h hn⟩
  | .block _ ss, _, h, hn => by
    rw [Expr.walk, forall_below]
    exact ⟨True.intro, Stmt.inside_of_arrangedAll ss h hn⟩
  | .scope _ ds body, _, h, hn => by
    rw [Expr.walk, forall_below, List.forall_mem_append]
    exact ⟨True.intro, Decl.inside_of_arrangedAll ds h.1 hn,
      body.inside_of_arranged h.2 (by simpa using hn)⟩

theorem Expr.inside_of_arrangedAll {t' : Attributes} : ∀ (es : List Expr) {n : Needs},
    Expr.ArrangedAll t t' es n → n.isGlobal = false →
    ∀ node ∈ Expr.walkAll everywhere es, node.Inside t t'
  | [], _, _, _ => by simp [Expr.walkAll]
  | e :: es, _, h, hn => by
    rw [Expr.walkAll, List.forall_mem_append]
    exact ⟨e.inside_of_arranged h.1 hn, Expr.inside_of_arrangedAll es h.2 (by simpa using hn)⟩

theorem Stmt.inside_of_arranged {t' : Attributes} : ∀ (s : Stmt) {n : Needs}, s.Arranged t t' n →
    n.isGlobal = false → ∀ node ∈ s.walk everywhere, node.Inside t t'
  | .absent, _, _, _ => by simp [Stmt.walk]
  | .eval _ e, _, h, hn => by
    rw [Stmt.walk, forall_below]
    exact ⟨True.intro, e.inside_of_arranged h hn⟩
  | .assign _ dst src, _, h, hn => by
    rw [Stmt.walk, forall_below, List.forall_mem_append]
    exact ⟨True.intro, dst.inside_of_arranged h.1 hn, src.inside_of_arranged h.2 (by simpa using hn)⟩
  | .cond _ test yes no, _, h, hn => by
    rw [Stmt.walk, forall_below, List.forall_mem_append, List.forall_mem_append]
    exact ⟨True.intro, ⟨test.inside_of_arranged h.1 hn, yes.inside_of_arranged h.2.1 (by simpa using hn)⟩,
      no.inside_of_arranged h.2.2 (by simpa using hn)⟩
  | .loop _ test body, _, h, hn => by
    rw [Stmt.walk, forall_below, List.forall_mem_append]
    exact ⟨True.intro, test.inside_of_arranged h.1 hn, body.inside_of_arranged h.2 (by simpa using hn)⟩

theorem Stmt.inside_of_arrangedAll {t' : Attributes} : ∀ (ss : List Stmt) {n : Needs},
    Stmt.ArrangedAll t t' ss n → n.isGlobal = false →
    ∀ node ∈ Stmt.walkAll everywhere ss, node.Inside t t'
  | [], _, _, _ => by simp [Stmt.walkAll]
  | s :: ss, _, h, hn => by
    rw [Stmt.walkAll, List.forall_mem_append]
    exact ⟨s.inside_of_arranged h.1 hn, Stmt.inside_of_arrangedAll ss h.2 (by simpa using hn)⟩

/-- The declarations inside a function, those of nested functions included. -/
theorem Decl.inside_of_arrangedAll {t' : Attributes} : ∀ (ds : List Decl) {n : Needs},
    Decl.ArrangedAll t t' ds n → n.isGlobal = false →
    ∀ node ∈ Decl.walkAll everywhere ds, node.Inside t t'
  | [], _, _, _ => by simp [Decl.walkAll]
  | .fn m name ps type body :: ds, n, h, hn => by
    rw [Decl.walkAll, Decl.walk, List.forall_mem_append, forall_below, List.forall_mem_append]
    exact ⟨⟨⟨n, hn, h.1⟩, inside_params h.1.2.1, body.inside_of_arranged h.1.2.2 rfl⟩,
      Decl.inside_of_arrangedAll ds h.2 (by simpa using hn)⟩
  | .var .. :: ds, n, h, hn => by
    rw [Decl.walkAll, Decl.walk, List.forall_mem_append, forall_below]
    exact ⟨⟨⟨n, hn, h.1⟩, fun _ h => (List.not_mem_nil h).elim⟩,
      Decl.inside_of_arrangedAll ds h.2 (by simpa using hn)⟩
  | .typ .. :: ds, n, h, hn => by
    rw [Decl.walkAll, Decl.walk, List.forall_mem_append, forall_below]
    exact ⟨⟨True.intro, fun _ h => (List.not_mem_nil h).elim⟩,
      Decl.inside_of_arrangedAll ds h.2 (by simpa using hn)⟩
  | .par .. :: ds, _, h, _ | .comp .. :: ds, _, h, _ => h.1.elim

end

theorem Decl.needsAll_of_isGlobal {n : Needs} (hn : n.isGlobal = true) (d : Decl) :
    Decl.needsAll t [d] n = n := by
  cases d <;> simp [Decl.needsAll, Needs.withLocal, hn]

/-- Global declarations are laid out as such. -/
theorem Decl.ArrangedAll.global {t' : Attributes} {d : Decl} : ∀ {ds : List Decl} {n : Needs},
    Decl.ArrangedAll t t' ds n → n.isGlobal = true → d ∈ ds → d.Arranged t t' n
  | [], _, _, _, hmem => (List.not_mem_nil hmem).elim
  | d' :: ds, n, h, hn, hmem => by
    rcases List.mem_cons.mp hmem with rfl | hmem
    · exact h.1
    · exact Decl.ArrangedAll.global (Decl.needsAll_of_isGlobal hn d' ▸ h.2) hn hmem

/-- **Where the declarations of a program lie**: a declaration outside of all functions where the program
itself needs it, and the others inside of functions. -/
theorem Decl.arrangedIn_of_arrangedAll {t' : Attributes} : ∀ {ds : List Decl} {n : Needs},
    Decl.ArrangedAll t t' ds n → n.isGlobal = true → ∀ node ∈ Decl.walkAll everywhere ds,
      node.Inside t t' ∨ ∃ d ∈ ds, node = .decl d ∧ d.Arranged t t' n
  | [], _, _, _ => by simp [Decl.walkAll]
  | d :: ds, n, h, hn => by
    rw [Decl.walkAll, List.forall_mem_append]
    refine ⟨?_, fun node hnode => ?_⟩
    · have hown : ∀ node : Node, node = .decl d →
          node.Inside t t' ∨ ∃ d' ∈ d :: ds, node = .decl d' ∧ d'.Arranged t t' n :=
        fun _ heq => .inr ⟨d, List.mem_cons_self, heq, h.1⟩
      cases d with
      | fn m name ps type body =>
        rw [Decl.walk, forall_below, List.forall_mem_append]
        exact ⟨hown _ rfl, fun node hnode => .inl (inside_params h.1.2.1 node hnode),
          fun node hnode => .inl (body.inside_of_arranged h.1.2.2 rfl node hnode)⟩
      | _ => exact fun node hnode => hown node (List.mem_singleton.mp hnode)
    · rcases Decl.arrangedIn_of_arrangedAll (Decl.needsAll_of_isGlobal hn d ▸ h.2) hn node
        hnode with hin | ⟨d', hd', heq, harr⟩
      · exact .inl hin
      · exact .inr ⟨d', List.mem_cons_of_mem _ hd', heq, harr⟩

end MmixBackend.Source
