import Mathlib
import MmixBackend.Proofs.Source.Binding
import MmixBackend.Proofs.Types.Sizes
import MmixBackend.Proofs.Word

/-!
# How a frame is filled

The layout walks through the body of a function and leaves the functions nested in it alone. Each
variable takes the bytes below those taken before, and each call makes the argument area at least as
large as its own arguments. As long as the sums stay in the range of words, nothing overlaps.

## Main statements

- `Expr.fills_of_arranged`: what walking through an expression adds to a frame.
- `LocalsAt.areas`: local variables are disjoint.
- `Param.areas_of_arrangedAll`: parameters are disjoint.
-/

namespace MmixBackend

/-- The bytes of an entity as offsets from the frame pointer, if it lies in a frame. -/
def Access.area? : Access → Option (Set Int)
  | .static _ => none
  | .relative size offset _ => some (Set.Ico offset.toInt (offset.toInt + size.toInt))

namespace Source

open Layout

/-! ## §1 The nodes of one function -/

/-- The walk goes through a function and not into those nested in it. -/
def Node.inFunction : Node → Bool
  | .decl (.fn ..) => false
  | _ => true

/-- The number of a variable. -/
def Node.variable? : Node → Option NodeId
  | .decl (.var m _ _) => some m.id
  | _ => none

/-- The variables among the nodes. -/
def Node.variables (ns : List Node) : List NodeId := ns.filterMap Node.variable?

/-- The variables of all blocks of a function body, nested functions apart. -/
def Expr.locals (body : Expr) : List NodeId := Node.variables (body.walk Node.inFunction)

/-- The bytes of a variable or parameter. -/
def Attributes.area? (t : Attributes) (id : NodeId) : Option (Set Int) :=
    t.accesses[id]?.bind Access.area?

/-- The size of a variable or parameter without bounds. -/
def Attributes.exactBytes (t : Attributes) (id : NodeId) : Nat :=
  (t.declType[id]?.getD .void).exactSize t.typeDefs

/-- The size of several of them together. -/
def Attributes.exactSum (t : Attributes) (ids : List NodeId) : Nat := (ids.map t.exactBytes).sum

/-- The bytes of arguments that a node passes, if it is a call. -/
def Node.callBytes (t : Attributes) : Node → Option Word
  | .expr (.unary _ op _) => if op = .new ∨ op = .del then some (2 * Word.byteSize) else none
  | .expr (.name m _) =>
    match t.declaredAt[m.id]? with
    | some (.fn ..) => some Word.byteSize
    | _ => none
  | .expr (.call _ _ args) => some (t.argBytes Word.byteSize args)
  | _ => none

variable {t t' : Attributes} {depth : Word} {n n' n'' : Needs} {ns ns' : List Node} {b : Nat}

@[simp] theorem Attributes.exactSum_append (ids ids' : List NodeId) :
    t.exactSum (ids ++ ids') = t.exactSum ids + t.exactSum ids' := by
  simp [exactSum]

/-- The sizes of variables and parameters are computed modulo the range of words. -/
def Attributes.Sized (t : Attributes) : Prop := ∀ id, t.declBytes id = .ofNat (t.exactBytes id)

theorem Attributes.sized (hdecl : ∀ (id : NodeId) ty, t.declType[id]? = some ty → ty.Positive)
    (hdefs : t.typeDefs.Positive) : t.Sized := by
  intro id
  refine Ty.size_eq_exactSize hdefs ?_
  cases hty : t.declType[id]? with
  | none => trivial
  | some ty => exact hdecl id ty hty

theorem append_subset_append {ms ms' : List Node} (h : ns ⊆ ns') (h' : ms ⊆ ms') :
    ns ++ ms ⊆ ns' ++ ms' :=
  List.append_subset_of_subset_of_subset (List.Subset.trans h (List.subset_append_left ..))
    (List.Subset.trans h' (List.subset_append_right ..))

theorem below_subset (node : Node) (h : ns ⊆ ns') :
    Node.below Node.inFunction node ns ⊆ Node.below everywhere node ns' := by
  unfold Node.below
  split
  · exact List.cons_subset_cons node h
  · exact List.cons_subset_cons node (List.nil_subset _)

mutual

/-- The nodes of a body outside of nested functions are nodes of the body. -/
theorem Expr.walk_inFunction_subset : ∀ e : Expr, e.walk Node.inFunction ⊆ e.walk everywhere
  | .absent => List.Subset.refl _
  | .atom .. | .name .. => below_subset _ (List.Subset.refl _)
  | .unary _ _ arg | .deref _ arg | .cast _ arg _ => below_subset _ arg.walk_inFunction_subset
  | .select _ arg _ =>
    below_subset _ (append_subset_append arg.walk_inFunction_subset (List.Subset.refl _))
  | .binary _ _ fst snd | .index _ fst snd =>
    below_subset _ (append_subset_append fst.walk_inFunction_subset snd.walk_inFunction_subset)
  | .call _ _ args => below_subset _ (Expr.walkAll_inFunction_subset args)
  | .block _ ss => below_subset _ (Stmt.walkAll_inFunction_subset ss)
  | .scope _ ds body =>
    below_subset _ (append_subset_append (Decl.walkAll_inFunction_subset ds)
      body.walk_inFunction_subset)

theorem Expr.walkAll_inFunction_subset : ∀ es : List Expr,
    Expr.walkAll Node.inFunction es ⊆ Expr.walkAll everywhere es
  | [] => List.Subset.refl _
  | e :: es => append_subset_append e.walk_inFunction_subset (Expr.walkAll_inFunction_subset es)

theorem Stmt.walk_inFunction_subset : ∀ s : Stmt, s.walk Node.inFunction ⊆ s.walk everywhere
  | .absent => List.Subset.refl _
  | .eval _ e => below_subset _ e.walk_inFunction_subset
  | .assign _ dst src =>
    below_subset _ (append_subset_append dst.walk_inFunction_subset src.walk_inFunction_subset)
  | .cond _ test yes no =>
    below_subset _ (append_subset_append
      (append_subset_append test.walk_inFunction_subset yes.walk_inFunction_subset)
      no.walk_inFunction_subset)
  | .loop _ test body =>
    below_subset _ (append_subset_append test.walk_inFunction_subset body.walk_inFunction_subset)

theorem Stmt.walkAll_inFunction_subset : ∀ ss : List Stmt,
    Stmt.walkAll Node.inFunction ss ⊆ Stmt.walkAll everywhere ss
  | [] => List.Subset.refl _
  | s :: ss => append_subset_append s.walk_inFunction_subset (Stmt.walkAll_inFunction_subset ss)

theorem Decl.walk_inFunction_subset : ∀ d : Decl, d.walk Node.inFunction ⊆ d.walk everywhere
  | .fn _ _ _ _ body =>
    below_subset _ (append_subset_append (List.Subset.refl _) body.walk_inFunction_subset)
  | .var .. | .typ .. | .par .. | .comp .. => below_subset _ (List.Subset.refl _)

theorem Decl.walkAll_inFunction_subset : ∀ ds : List Decl,
    Decl.walkAll Node.inFunction ds ⊆ Decl.walkAll everywhere ds
  | [] => List.Subset.refl _
  | d :: ds => append_subset_append d.walk_inFunction_subset (Decl.walkAll_inFunction_subset ds)

end

/-! ## §2 Filling a frame -/

/-- The needs of a function whose declarations have the given depth, with `b` bytes of locals so far. -/
structure Layout.Needs.At (n : Needs) (depth : Word) (b : Nat) : Prop where
  inside : n.isGlobal = false
  depth : n.depth = depth
  locsSize : n.locsSize = .ofNat b

theorem Layout.Needs.At.forCall (h : n.At depth b) (size : Word) : (n.forCall size).At depth b := by
  unfold Needs.forCall
  split
  · exact ⟨h.inside, h.depth, h.locsSize⟩
  · exact h

theorem Layout.Needs.At.withLocal (h : n.At depth b) (size : Nat) :
    (n.withLocal (.ofNat size)).At depth (b + size) := by
  rw [Needs.withLocal, if_neg (by simp [h.inside])]
  refine ⟨h.inside, h.depth, ?_⟩
  rw [Int64.ofNat_add, ← h.locsSize]

/-- Variables lie one below the other, starting below `before` bytes. -/
def LocalsAt (t t' : Attributes) (depth : Word) : List NodeId → (before : Nat) → Prop
  | [], _ => True
  | id :: ids, before =>
    t'.accesses[id]? = some
        (.relative (.ofNat (t.exactBytes id)) (-.ofNat (before + t.exactBytes id)) depth) ∧
      LocalsAt t t' depth ids (before + t.exactBytes id)

theorem LocalsAt.append {ids ids' : List NodeId} (h : LocalsAt t t' depth ids b)
    (h' : LocalsAt t t' depth ids' (b + t.exactSum ids)) : LocalsAt t t' depth (ids ++ ids') b := by
  induction ids generalizing b with
  | nil => exact h'
  | cons id ids ih =>
    refine ⟨h.1, ih h.2 ?_⟩
    rwa [Nat.add_assoc]

/-- Functions inside of a function lie at the depth of the declarations around them. There are no
parameters and components among the declarations of a block. -/
def Node.NestedAt (t t' : Attributes) (depth : Word) : Node → Prop
  | .decl (.fn m name ps type body) =>
    ∃ n : Needs, n.isGlobal = false ∧ n.depth = depth ∧ (Decl.fn m name ps type body).Arranged t t' n
  | .decl (.par ..) | .decl (.comp ..) => False
  | _ => True

/-- Walking through the nodes takes the needs of a function from `n` to `n'`: their variables lie
below the `b` bytes of the ones before, and there is room for their calls, but no more than the
largest one needs. Functions among them lie one deeper. -/
structure Fills (t t' : Attributes) (depth : Word) (ns : List Node) (b : Nat) (n n' : Needs) : Prop where
  locals : LocalsAt t t' depth (Node.variables ns) b
  needs : n'.At depth (b + t.exactSum (Node.variables ns))
  grows : n.argsSize ≤ n'.argsSize
  calls : ∀ node ∈ ns, ∀ size, node.callBytes t = some size → size ≤ n'.argsSize
  needed : n'.argsSize = n.argsSize ∨ ∃ node ∈ ns, node.callBytes t = some n'.argsSize
  nested : ∀ node ∈ ns, node.NestedAt t t' depth

namespace Fills

theorem nil (h : n.At depth b) : Fills t t' depth [] b n n :=
  ⟨trivial, h, Int64.le_refl _, fun _ h => (List.not_mem_nil h).elim, .inl rfl, List.forall_mem_nil _⟩

theorem append (h : Fills t t' depth ns b n n')
    (h' : n'.At depth (b + t.exactSum (Node.variables ns)) →
      Fills t t' depth ns' (b + t.exactSum (Node.variables ns)) n' n'') :
    Fills t t' depth (ns ++ ns') b n n'' := by
  have h' := h' h.needs
  have happend : Node.variables (ns ++ ns') = Node.variables ns ++ Node.variables ns' :=
    List.filterMap_append
  refine ⟨?_, ?_, Int64.le_trans h.grows h'.grows, fun node hnode size hsize => ?_, ?_,
    List.forall_mem_append.mpr ⟨h.nested, h'.nested⟩⟩
  · rw [happend]
    exact h.locals.append h'.locals
  · rw [happend, Attributes.exactSum_append, ← Nat.add_assoc]
    exact h'.needs
  · rcases List.mem_append.mp hnode with hnode | hnode
    · exact Int64.le_trans (h.calls node hnode size hsize) h'.grows
    · exact h'.calls node hnode size hsize
  · rcases h'.needed with hsame | ⟨node, hnode, hsize⟩
    · rw [hsame]
      exact h.needed.imp_right fun ⟨node, hnode, hsize⟩ => ⟨node, List.mem_append_left _ hnode, hsize⟩
    · exact .inr ⟨node, List.mem_append_right _ hnode, hsize⟩

theorem cons {node : Node} (h : Fills t t' depth ns b n n') (hvar : node.variable? = none)
    (hcall : node.callBytes t = none) (hnested : node.NestedAt t t' depth) :
    Fills t t' depth (node :: ns) b n n' := by
  have hcons : Node.variables (node :: ns) = Node.variables ns := List.filterMap_cons_none hvar
  refine ⟨hcons ▸ h.locals, hcons ▸ h.needs, h.grows, fun node' hnode size hsize => ?_,
    h.needed.imp_right fun ⟨node', hnode, hsize⟩ => ⟨node', List.mem_cons_of_mem _ hnode, hsize⟩,
    List.forall_mem_cons.mpr ⟨hnested, h.nested⟩⟩
  rcases List.mem_cons.mp hnode with rfl | hnode
  · rw [hcall] at hsize
    cases hsize
  · exact h.calls node' hnode size hsize

theorem call {node : Node} (h : Fills t t' depth ns b n n') (hvar : node.variable? = none) {size : Word}
    (hcall : node.callBytes t = some size) : Fills t t' depth (node :: ns) b n (n'.forCall size) := by
  have hcons : Node.variables (node :: ns) = Node.variables ns := List.filterMap_cons_none hvar
  -- The argument area becomes the larger one of the old area and that of the call.
  have hgrows : n'.argsSize ≤ (n'.forCall size).argsSize ∧ size ≤ (n'.forCall size).argsSize := by
    unfold Needs.forCall
    split
    · next hlt => exact ⟨Int64.le_of_lt hlt, Int64.le_refl _⟩
    · next hlt => exact ⟨Int64.le_refl _, Int64.not_lt.mp hlt⟩
  refine ⟨hcons ▸ h.locals, hcons ▸ h.needs.forCall size, Int64.le_trans h.grows hgrows.1,
    fun node' hnode size' hsize => ?_, ?_, List.forall_mem_cons.mpr ⟨?_, h.nested⟩⟩
  · rcases List.mem_cons.mp hnode with rfl | hnode
    · rw [hcall] at hsize
      cases hsize
      exact hgrows.2
    · exact Int64.le_trans (h.calls node' hnode size' hsize) hgrows.1
  · unfold Needs.forCall
    split
    · exact .inr ⟨node, List.mem_cons_self, hcall⟩
    · exact h.needed.imp_right fun ⟨node', hnode, hsize⟩ => ⟨node', List.mem_cons_of_mem _ hnode, hsize⟩
  · unfold Node.NestedAt
    split <;> trivial

end Fills

mutual

/-- **What walking through an expression adds to a frame.** -/
theorem Expr.fills_of_arranged (ht : t.Sized) : ∀ (e : Expr) {n : Needs} {b : Nat},
    e.Arranged t t' n → n.At depth b →
    Fills t t' depth (e.walk Node.inFunction) b n (e.needs t n)
  | .absent, _, _, _, hn => .nil hn
  | .atom .., _, _, _, hn => (Fills.nil hn).cons rfl rfl trivial
  | .unary _ op arg, n, b, h, hn => by
    have harg := arg.fills_of_arranged ht h hn
    rw [Expr.needs]
    split
    · next hop => exact harg.call rfl (if_pos hop)
    · next hop => exact harg.cons rfl (if_neg hop) trivial
  | .deref _ arg, _, _, h, hn | .cast _ arg _, _, _, h, hn =>
    (arg.fills_of_arranged ht h hn).cons rfl rfl trivial
  | .select _ arg comp, _, _, h, hn =>
    ((arg.fills_of_arranged ht h hn).append fun hn => (Fills.nil hn).cons rfl rfl (by trivial)).cons
      rfl rfl trivial
  | .binary _ _ fst snd, _, _, h, hn | .index _ fst snd, _, _, h, hn =>
    ((fst.fills_of_arranged ht h.1 hn).append fun hn => snd.fills_of_arranged ht h.2 hn).cons
      rfl rfl trivial
  | .name m ident, n, b, _, hn => by
    -- A name is a call if it is that of a function, and otherwise it asks for nothing.
    have hcall : ∀ size, (Node.expr (.name m ident)).callBytes t = size →
        Fills t t' depth [.expr (.name m ident)] b n ((size.map n.forCall).getD n) := by
      intro size hsize
      cases size with
      | none => exact (Fills.nil hn).cons rfl hsize trivial
      | some size => exact (Fills.nil hn).call rfl hsize
    rw [Expr.needs, Needs.forName]
    unfold Node.callBytes at hcall
    dsimp only at hcall
    split
    · next hfn =>
      rw [hfn] at hcall
      exact hcall _ rfl
    · next hother =>
      refine hcall none ?_
      split
      · next hfn => exact absurd hfn (hother _ _ _ _ _)
      · rfl
  | .call _ _ args, _, _, h, hn => (Expr.fills_of_arrangedAll ht args h hn).call rfl rfl
  | .block _ ss, _, _, h, hn => (Stmt.fills_of_arrangedAll ht ss h hn).cons rfl rfl trivial
  | .scope _ ds body, _, _, h, hn =>
    ((Decl.fills_of_arrangedAll ht ds h.1 hn).append fun hn =>
      body.fills_of_arranged ht h.2 hn).cons rfl rfl trivial

theorem Expr.fills_of_arrangedAll (ht : t.Sized) : ∀ (es : List Expr) {n : Needs} {b : Nat},
    Expr.ArrangedAll t t' es n → n.At depth b →
    Fills t t' depth (Expr.walkAll Node.inFunction es) b n (Expr.needsAll t es n)
  | [], _, _, _, hn => .nil hn
  | e :: es, _, _, h, hn =>
    (e.fills_of_arranged ht h.1 hn).append fun hn => Expr.fills_of_arrangedAll ht es h.2 hn

theorem Stmt.fills_of_arranged (ht : t.Sized) : ∀ (s : Stmt) {n : Needs} {b : Nat},
    s.Arranged t t' n → n.At depth b →
    Fills t t' depth (s.walk Node.inFunction) b n (s.needs t n)
  | .absent, _, _, _, hn => .nil hn
  | .eval _ e, _, _, h, hn => (e.fills_of_arranged ht h hn).cons rfl rfl trivial
  | .assign _ dst src, _, _, h, hn =>
    ((dst.fills_of_arranged ht h.1 hn).append fun hn => src.fills_of_arranged ht h.2 hn).cons
      rfl rfl trivial
  | .cond _ test yes no, _, _, h, hn =>
    (((test.fills_of_arranged ht h.1 hn).append fun hn => yes.fills_of_arranged ht h.2.1 hn).append
      fun hn => no.fills_of_arranged ht h.2.2 hn).cons rfl rfl trivial
  | .loop _ test body, _, _, h, hn =>
    ((test.fills_of_arranged ht h.1 hn).append fun hn => body.fills_of_arranged ht h.2 hn).cons
      rfl rfl trivial

theorem Stmt.fills_of_arrangedAll (ht : t.Sized) : ∀ (ss : List Stmt) {n : Needs} {b : Nat},
    Stmt.ArrangedAll t t' ss n → n.At depth b →
    Fills t t' depth (Stmt.walkAll Node.inFunction ss) b n (Stmt.needsAll t ss n)
  | [], _, _, _, hn => .nil hn
  | s :: ss, _, _, h, hn =>
    (s.fills_of_arranged ht h.1 hn).append fun hn => Stmt.fills_of_arrangedAll ht ss h.2 hn

theorem Decl.fills_of_arrangedAll (ht : t.Sized) : ∀ (ds : List Decl) {n : Needs} {b : Nat},
    Decl.ArrangedAll t t' ds n → n.At depth b →
    Fills t t' depth (Decl.walkAll Node.inFunction ds) b n (Decl.needsAll t ds n)
  | [], _, _, _, hn => .nil hn
  | .var m name type :: ds, n, b, h, hn => by
    have hone : Fills t t' depth [.decl (.var m name type)] b n (n.withLocal (t.declBytes m.id)) := by
      have hplace : t'.accesses[m.id]? = some (n.access name (t.declBytes m.id)) := h.1
      rw [Needs.access, hn.inside, hn.depth, hn.locsSize, ht m.id, ← Int64.ofNat_add] at hplace
      have hargs : (n.withLocal (t.declBytes m.id)).argsSize = n.argsSize := by
        rw [Needs.withLocal, hn.inside]
        rfl
      refine ⟨⟨hplace, trivial⟩, ?_, hargs ▸ Int64.le_refl _, ?_, .inl hargs,
        List.forall_mem_singleton.mpr trivial⟩
      · rw [ht m.id]
        exact hn.withLocal _
      · intro node hnode size hsize
        rw [List.mem_singleton.mp hnode] at hsize
        cases hsize
    exact hone.append fun hn => Decl.fills_of_arrangedAll ht ds h.2 hn
  -- A nested function fills a frame of its own.
  | .fn .. :: ds, n, _, h, hn =>
    (Decl.fills_of_arrangedAll ht ds h.2 hn).cons rfl rfl ⟨n, hn.inside, hn.depth, h.1⟩
  | .typ .. :: ds, _, _, h, hn => (Decl.fills_of_arrangedAll ht ds h.2 hn).cons rfl rfl trivial
  | .par .. :: ds, _, _, h, _ | .comp .. :: ds, _, _, h, _ => h.1.elim

end

/-! ## §3 Areas of variables and parameters -/

/-- **Local variables are disjoint**, and lie below the `b` bytes in front of them. -/
theorem LocalsAt.areas {ids : List NodeId} (h : LocalsAt t t' depth ids b)
    (hfits : b + t.exactSum ids < 2 ^ 63) :
    ∃ areas : List (Set Int), ids.map t'.area? = areas.map some ∧ areas.Pairwise Disjoint ∧
      ∀ area ∈ areas, area ⊆ Set.Ico (-((b + t.exactSum ids : Nat) : Int)) (-(b : Int)) := by
  induction ids generalizing b with
  | nil => exact ⟨[], rfl, .nil, fun _ h => (List.not_mem_nil h).elim⟩
  | cons id ids ih =>
    have hsum : t.exactSum (id :: ids) = t.exactBytes id + t.exactSum ids := List.sum_cons
    rw [hsum, ← Nat.add_assoc] at hfits ⊢
    obtain ⟨areas, hareas, hdisjoint, hbelow⟩ := ih h.2 hfits
    have hsize : (Int64.ofNat (t.exactBytes id)).toInt = t.exactBytes id :=
      Int64.toInt_ofNat_of_lt (by omega)
    have hoffset : (-Int64.ofNat (b + t.exactBytes id)).toInt = -((b + t.exactBytes id : Nat) : Int) :=
      Word.toInt_neg_ofNat (by rw [Word.bound]; omega)
    refine ⟨Set.Ico (-((b + t.exactBytes id : Nat) : Int)) (-(b : Int)) :: areas, ?_, ?_, ?_⟩
    · rw [List.map_cons, List.map_cons, hareas, Attributes.area?, h.1, Option.bind_some, Access.area?,
        hoffset, hsize]
      congr 3
      omega
    · refine List.pairwise_cons.mpr ⟨fun area harea => ?_, hdisjoint⟩
      exact (Set.Ico_disjoint_Ico_same.mono_left (hbelow area harea)).symm
    · refine List.forall_mem_cons.mpr ⟨Set.Ico_subset_Ico_left (by omega), fun area harea => ?_⟩
      exact (hbelow area harea).trans (Set.Ico_subset_Ico_right (by omega))

/-- A parameter takes one word. -/
theorem Param.IsScalar.bytes {p : Param} (h : p.IsScalar t) :
    t.declBytes p.mark.id = .ofNat 8 ∧ t.exactBytes p.mark.id = 8 := by
  obtain ⟨ty, hty, hscalar⟩ := h
  rw [Attributes.declBytes, Attributes.exactBytes, hty]
  exact ⟨Ty.size_of_isScalar hscalar, Ty.exactSize_of_isScalar hscalar⟩

theorem Param.exactSum_of_isScalar : ∀ {ps : List Param}, (∀ p ∈ ps, p.IsScalar t) →
    t.exactSum (ps.map fun p => p.mark.id) = 8 * ps.length
  | [], _ => rfl
  | p :: ps, h => by
    obtain ⟨hp, hps⟩ := List.forall_mem_cons.mp h
    have hsum : t.exactSum ((p :: ps).map fun p => p.mark.id)
        = t.exactBytes p.mark.id + t.exactSum (ps.map fun p => p.mark.id) := List.sum_cons
    rw [hsum, hp.bytes.2, Param.exactSum_of_isScalar hps, List.length_cons]
    omega

/-- **Where parameters lie**: the one with the index `i` at the offset `8 * (i + 1)`, if no bytes
are taken before. -/
theorem Param.access_of_arrangedAll : ∀ {ps : List Param} {b : Nat},
    Param.ArrangedAll t t' depth ps (.ofNat b) → (∀ p ∈ ps, p.IsScalar t) →
    ∀ {i : Nat} {p : Param}, ps[i]? = some p →
      t'.accesses[p.mark.id]? = some (.relative (.ofNat 8) (.ofNat (b + 8 * (i + 1))) depth)
  | [], _, _, _, _, _, hi => by cases hi
  | p :: ps, b, h, hscalar, i, q, hi => by
    obtain ⟨hp, hps⟩ := List.forall_mem_cons.mp hscalar
    rw [Param.ArrangedAll, hp.bytes.1, ← Int64.ofNat_add] at h
    cases i with
    | zero =>
      cases hi
      exact h.1
    | succ i =>
      rw [Param.access_of_arrangedAll h.2 hps hi, Nat.mul_succ 8 (i + 1), Nat.add_comm (8 * _),
        Nat.add_assoc]

/-- **Parameters are disjoint**, and lie above the `b` bytes in front of them and the static link. -/
theorem Param.areas_of_arrangedAll : ∀ {ps : List Param} {b : Nat},
    Param.ArrangedAll t t' depth ps (.ofNat b) → (∀ p ∈ ps, p.IsScalar t) → b + 8 * ps.length < 2 ^ 63 →
    ∃ areas : List (Set Int), (ps.map fun p => t'.area? p.mark.id) = areas.map some ∧
      areas.Pairwise Disjoint ∧
      ∀ area ∈ areas, area ⊆ Set.Ici ((b + 8 : Nat) : Int)
  | [], _, _, _, _ => ⟨[], rfl, .nil, fun _ h => (List.not_mem_nil h).elim⟩
  | p :: ps, b, h, hscalar, hfits => by
    obtain ⟨hp, hps⟩ := List.forall_mem_cons.mp hscalar
    rw [Param.ArrangedAll, hp.bytes.1, ← Int64.ofNat_add] at h
    rw [List.length_cons] at hfits
    obtain ⟨areas, hareas, hdisjoint, habove⟩ := Param.areas_of_arrangedAll h.2 hps (by omega)
    have hoffset : (Int64.ofNat (b + 8)).toInt = (b + 8 : Nat) := Int64.toInt_ofNat_of_lt (by omega)
    have hsize : (Int64.ofNat 8).toInt = 8 := rfl
    refine ⟨Set.Ico ((b + 8 : Nat) : Int) ((b + 8 + 8 : Nat) : Int) :: areas, ?_, ?_, ?_⟩
    · rw [List.map_cons, List.map_cons, hareas, Attributes.area?, h.1, Option.bind_some, Access.area?,
        hoffset, hsize]
      rfl
    · refine List.pairwise_cons.mpr ⟨fun area harea => ?_, hdisjoint⟩
      exact (Set.Iio_disjoint_Ici (Int.le_refl _)).mono Set.Ico_subset_Iio_self (habove area harea)
    · refine List.forall_mem_cons.mpr ⟨Set.Ico_subset_Ici_self, fun area harea => ?_⟩
      exact (habove area harea).trans (Set.Ici_subset_Ici.mpr (by omega))

end Source

end MmixBackend
