import MmixBackend.Proofs.Source.Completeness
import MmixBackend.Proofs.Source.Nodes
import MmixBackend.Proofs.Source.Resolution
import Mathlib.Data.List.Nodup

/-!
# Declarations in another order

An arrangement chooses an order of the declarations for every block of a program: the global one,
and the one of every expression with declarations of its own. The nodes stay the same, and they keep
their numbers; a block goes by the number of the node that it belongs to.

In a program as it has been read, nodes are numbered in the order in which they are written. So
every arrangement can be taken back: putting all blocks in the order of the numbers gives the
program again.

## Main definitions

- `Arrangement`, `Program.rearrange`: orders for all blocks, and the program that has them.

## Main statements

- `Program.ids_rearrange`, `Program.complete_rearrange`: nothing appears and nothing goes.
- `Program.rearrange_byNumber`: the way back.
-/

namespace MmixBackend.Source

/-! ## §1 Arrangements -/

/-- An order of the declarations of every block. -/
structure Arrangement where
  order : (block : NodeId) → List Decl → List Decl
  perm : ∀ block ds, (order block ds).Perm ds

mutual

/-- The expression with the declarations of all blocks rearranged. -/
def Expr.rearrange (σ : Arrangement) : Expr → Expr
  | .absent => .absent
  | .atom m kind value => .atom m kind value
  | .unary m op arg => .unary m op (arg.rearrange σ)
  | .deref m arg => .deref m (arg.rearrange σ)
  | .binary m op fst snd => .binary m op (fst.rearrange σ) (snd.rearrange σ)
  | .name m ident => .name m ident
  | .index m array idx => .index m (array.rearrange σ) (idx.rearrange σ)
  | .select m record comp => .select m (record.rearrange σ) comp
  | .call m ident args => .call m ident (Expr.rearrangeAll σ args)
  | .block m stmts => .block m (Stmt.rearrangeAll σ stmts)
  | .cast m arg type => .cast m (arg.rearrange σ) type
  | .scope m decls body => .scope m (σ.order m.id (Decl.rearrangeAll σ decls)) (body.rearrange σ)

/-- The same for all expressions of a list. -/
def Expr.rearrangeAll (σ : Arrangement) : List Expr → List Expr
  | [] => []
  | e :: es => e.rearrange σ :: Expr.rearrangeAll σ es

/-- The same for a statement. -/
def Stmt.rearrange (σ : Arrangement) : Stmt → Stmt
  | .absent => .absent
  | .eval m e => .eval m (e.rearrange σ)
  | .assign m dst src => .assign m (dst.rearrange σ) (src.rearrange σ)
  | .cond m test yes no => .cond m (test.rearrange σ) (yes.rearrange σ) (no.rearrange σ)
  | .loop m test body => .loop m (test.rearrange σ) (body.rearrange σ)

/-- The same for all statements of a list. -/
def Stmt.rearrangeAll (σ : Arrangement) : List Stmt → List Stmt
  | [] => []
  | s :: ss => s.rearrange σ :: Stmt.rearrangeAll σ ss

/-- The same for what a declaration consists of. -/
def Decl.rearrange (σ : Arrangement) : Decl → Decl
  | .fn m name params type body => .fn m name params type (body.rearrange σ)
  | .var m name type => .var m name type
  | .typ m name type => .typ m name type
  | .par m name type => .par m name type
  | .comp m name type => .comp m name type

/-- The same for what the declarations of a list consist of; they stay in their order. -/
def Decl.rearrangeAll (σ : Arrangement) : List Decl → List Decl
  | [] => []
  | d :: ds => d.rearrange σ :: Decl.rearrangeAll σ ds

end

/-- The program with the declarations of all blocks rearranged. -/
def Program.rearrange (σ : Arrangement) (p : Program) : Program :=
  { p with decls := σ.order p.mark.id (Decl.rearrangeAll σ p.decls) }

section

variable {σ : Arrangement}

theorem Decl.rearrangeAll_eq_map (ds : List Decl) :
    Decl.rearrangeAll σ ds = ds.map (Decl.rearrange σ) := by
  induction ds with
  | nil => rfl
  | cons d ds ih => exact congrArg (d.rearrange σ :: ·) ih

@[simp] theorem Decl.mark_rearrange (d : Decl) : (d.rearrange σ).mark = d.mark := by
  cases d <;> rfl

@[simp] theorem Decl.id_rearrange (d : Decl) : (d.rearrange σ).id = d.id :=
  congrArg Mark.id d.mark_rearrange

@[simp] theorem Decl.name_rearrange (d : Decl) : (d.rearrange σ).name = d.name := by
  cases d <;> rfl

@[simp] theorem Expr.isAbsent_rearrange (e : Expr) : (e.rearrange σ).isAbsent = e.isAbsent := by
  cases e <;> rfl

/-! ## §2 What stays -/

/-- The block of an expression or of a program, rearranged, is the old block with its declarations
rearranged, in another order. -/
theorem Arrangement.perm_map (block : NodeId) (ds : List Decl) :
    (σ.order block (Decl.rearrangeAll σ ds)).Perm (ds.map (Decl.rearrange σ)) :=
  Decl.rearrangeAll_eq_map ds ▸ σ.perm block _

theorem Decl.idsAll_perm_of_perm {ds ds' : List Decl} (h : ds.Perm ds') :
    (Decl.idsAll ds).Perm (Decl.idsAll ds') := by
  rw [Decl.idsAll_eq_flatMap, Decl.idsAll_eq_flatMap]
  exact h.flatMap_right _

mutual

theorem Expr.ids_rearrange (σ : Arrangement) : ∀ e : Expr, (e.rearrange σ).ids.Perm e.ids
  | .absent | .atom .. | .name .. => .refl _
  | .unary m _ arg | .deref m arg => (arg.ids_rearrange σ).cons m.id
  | .binary m _ fst snd | .index m fst snd =>
    ((fst.ids_rearrange σ).append (snd.ids_rearrange σ)).cons m.id
  | .select m record _ => ((record.ids_rearrange σ).append_right _).cons m.id
  | .call m _ args => (Expr.idsAll_rearrangeAll σ args).cons m.id
  | .block m stmts => (Stmt.idsAll_rearrangeAll σ stmts).cons m.id
  | .cast m arg _ => ((arg.ids_rearrange σ).append_right _).cons m.id
  | .scope m decls body => by
    have hdecls := (Decl.idsAll_perm_of_perm (σ.perm m.id _)).trans (Decl.idsAll_rearrangeAll σ decls)
    exact (hdecls.append (body.ids_rearrange σ)).cons m.id

theorem Expr.idsAll_rearrangeAll (σ : Arrangement) : ∀ es : List Expr,
    (Expr.idsAll (Expr.rearrangeAll σ es)).Perm (Expr.idsAll es)
  | [] => .refl _
  | e :: es => (e.ids_rearrange σ).append (Expr.idsAll_rearrangeAll σ es)

theorem Stmt.ids_rearrange (σ : Arrangement) : ∀ s : Stmt, (s.rearrange σ).ids.Perm s.ids
  | .absent => .refl _
  | .eval m e => (e.ids_rearrange σ).cons m.id
  | .assign m dst src => ((dst.ids_rearrange σ).append (src.ids_rearrange σ)).cons m.id
  | .cond m test yes no =>
    ((test.ids_rearrange σ).append ((yes.ids_rearrange σ).append (no.ids_rearrange σ))).cons m.id
  | .loop m test body => ((test.ids_rearrange σ).append (body.ids_rearrange σ)).cons m.id

theorem Stmt.idsAll_rearrangeAll (σ : Arrangement) : ∀ ss : List Stmt,
    (Stmt.idsAll (Stmt.rearrangeAll σ ss)).Perm (Stmt.idsAll ss)
  | [] => .refl _
  | s :: ss => (s.ids_rearrange σ).append (Stmt.idsAll_rearrangeAll σ ss)

theorem Decl.ids_rearrange (σ : Arrangement) : ∀ d : Decl, (d.rearrange σ).ids.Perm d.ids
  | .fn m _ params type body =>
    (((body.ids_rearrange σ).cons type.mark.id).append_left (Param.idsAll params)).cons m.id
  | .var .. | .typ .. | .par .. | .comp .. => .refl _

theorem Decl.idsAll_rearrangeAll (σ : Arrangement) : ∀ ds : List Decl,
    (Decl.idsAll (Decl.rearrangeAll σ ds)).Perm (Decl.idsAll ds)
  | [] => .refl _
  | d :: ds => (d.ids_rearrange σ).append (Decl.idsAll_rearrangeAll σ ds)

end

theorem Decl.completeAll_iff {ds : List Decl} : Decl.CompleteAll ds ↔ ∀ d ∈ ds, d.Complete := by
  refine ⟨fun h _ => h.of_mem, fun h => ?_⟩
  induction ds with
  | nil => trivial
  | cons d ds ih => exact ⟨h d List.mem_cons_self, ih fun d' hd => h d' (List.mem_cons_of_mem _ hd)⟩

theorem Decl.CompleteAll.perm {ds ds' : List Decl} (h : Decl.CompleteAll ds) (hperm : ds'.Perm ds) :
    Decl.CompleteAll ds' :=
  Decl.completeAll_iff.mpr fun _ hd => h.of_mem (hperm.mem_iff.mp hd)

mutual

theorem Expr.complete_rearrange (σ : Arrangement) : ∀ e : Expr, e.Complete → (e.rearrange σ).Complete
  | .absent, h | .atom .., h | .name .., h => h
  | .unary _ _ arg, h => ⟨h.1, arg.complete_rearrange σ h.2⟩
  | .deref _ arg, h | .select _ arg _, h | .cast _ arg _, h => arg.complete_rearrange σ h
  | .binary _ _ fst snd, h => ⟨h.1, fst.complete_rearrange σ h.2.1, snd.complete_rearrange σ h.2.2⟩
  | .index _ array idx, h => ⟨array.complete_rearrange σ h.1, idx.complete_rearrange σ h.2⟩
  | .call _ _ args, h => Expr.completeAll_rearrangeAll σ args h
  | .block _ stmts, h => Stmt.completeAll_rearrangeAll σ stmts h
  | .scope m decls body, h =>
    ⟨(Decl.completeAll_rearrangeAll σ decls h.1).perm (σ.perm m.id _), body.complete_rearrange σ h.2⟩

theorem Expr.completeAll_rearrangeAll (σ : Arrangement) : ∀ es : List Expr, Expr.CompleteAll es →
    Expr.CompleteAll (Expr.rearrangeAll σ es)
  | [], h => h
  | e :: es, h => ⟨e.complete_rearrange σ h.1, Expr.completeAll_rearrangeAll σ es h.2⟩

theorem Stmt.complete_rearrange (σ : Arrangement) : ∀ s : Stmt, s.Complete → (s.rearrange σ).Complete
  | .absent, h => h
  | .eval _ e, h => e.complete_rearrange σ h
  | .assign _ dst src, h => ⟨dst.complete_rearrange σ h.1, src.complete_rearrange σ h.2⟩
  | .cond _ test yes no, h => ⟨test.complete_rearrange σ h.1, yes.complete_rearrange σ h.2.1,
      h.2.2.imp (fun hno => congrArg (Stmt.rearrange σ) hno) (no.complete_rearrange σ)⟩
  | .loop _ test body, h => ⟨test.complete_rearrange σ h.1, body.complete_rearrange σ h.2⟩

theorem Stmt.completeAll_rearrangeAll (σ : Arrangement) : ∀ ss : List Stmt, Stmt.CompleteAll ss →
    Stmt.CompleteAll (Stmt.rearrangeAll σ ss)
  | [], h => h
  | s :: ss, h => ⟨s.complete_rearrange σ h.1, Stmt.completeAll_rearrangeAll σ ss h.2⟩

theorem Decl.complete_rearrange (σ : Arrangement) : ∀ d : Decl, d.Complete → (d.rearrange σ).Complete
  | .fn _ _ _ _ body, h =>
    h.imp (fun hbody => congrArg (Expr.rearrange σ) hbody) (body.complete_rearrange σ)
  | .var .., h | .typ .., h | .par .., h | .comp .., h => h

theorem Decl.completeAll_rearrangeAll (σ : Arrangement) : ∀ ds : List Decl, Decl.CompleteAll ds →
    Decl.CompleteAll (Decl.rearrangeAll σ ds)
  | [], h => h
  | d :: ds, h => ⟨d.complete_rearrange σ h.1, Decl.completeAll_rearrangeAll σ ds h.2⟩

end

/-- **The nodes stay the same.** -/
theorem Program.ids_rearrange (σ : Arrangement) (p : Program) : (p.rearrange σ).ids.Perm p.ids :=
  (Decl.idsAll_perm_of_perm (σ.perm _ _)).trans (Decl.idsAll_rearrangeAll σ p.decls)

theorem Program.nextId_rearrange (σ : Arrangement) (p : Program) : (p.rearrange σ).nextId = p.nextId := by
  rw [Program.nextId_eq, Program.nextId_eq, (p.ids_rearrange σ).length_eq]

theorem Program.complete_rearrange (σ : Arrangement) {p : Program} (h : Decl.CompleteAll p.decls) :
    Decl.CompleteAll (p.rearrange σ).decls :=
  (Decl.completeAll_rearrangeAll σ p.decls h).perm (σ.perm _ _)

end

/-! ## §3 The way back -/

/-- All blocks in the order of the numbers of the declarations. -/
def Arrangement.byNumber : Arrangement where
  order _ ds := ds.mergeSort fun d d' => d.id ≤ d'.id
  perm _ ds := List.mergeSort_perm ds _

/-- Different numbers have one order. -/
theorem Arrangement.order_byNumber (block : NodeId) {ds ds' : List Decl} (hperm : ds'.Perm ds)
    (hsorted : ds.Pairwise fun d d' => d.id < d'.id) : byNumber.order block ds' = ds := by
  have hsort : (byNumber.order block ds').Pairwise fun d d' => decide (d.id ≤ d'.id) = true :=
    List.pairwise_mergeSort (by simpa using fun _ _ _ => Nat.le_trans)
      (by simpa using fun _ _ => Nat.le_total _ _) _
  have hnodup : (ds.map Decl.id).Nodup := List.pairwise_map.mpr (hsorted.imp Nat.ne_of_lt)
  have hall := (byNumber.perm block ds').trans hperm
  refine List.Perm.eq_of_pairwise (fun d d' hd hd' hle hle' => ?_) hsort
    (hsorted.imp fun h => decide_eq_true (Nat.le_of_lt h)) hall
  have heq := Nat.le_antisymm (of_decide_eq_true hle) (of_decide_eq_true hle')
  exact List.inj_on_of_nodup_map hnodup (hall.subset hd) hd' heq

theorem Decl.NumberedAll.sorted {ds : List Decl} {lo hi : Nat} (h : Decl.NumberedAll ds lo hi) :
    ds.Pairwise fun d d' => d.id < d'.id := by
  induction ds generalizing lo with
  | nil => exact .nil
  | cons d ds ih =>
    obtain ⟨k, hd, hds⟩ := h
    refine .cons (fun d' hd' => ?_) (ih hds)
    have hown : d.id ∈ d.declares := by cases d <;> exact List.mem_cons_self
    have hfirst := between_of_declares hd hown
    have hlater := between_of_declaredBy hds (Resolve.declaredBy_self hd')
    exact Nat.lt_of_lt_of_le hfirst.2 hlater.1

/-- A block goes back into the order of the numbers, if everything in it does. -/
theorem Arrangement.order_byNumber_order (σ : Arrangement) (block : NodeId) {ds : List Decl} {lo hi : Nat}
    (hnum : Decl.NumberedAll ds lo hi)
    (hback : Decl.rearrangeAll byNumber (Decl.rearrangeAll σ ds) = ds) :
    byNumber.order block (Decl.rearrangeAll byNumber (σ.order block (Decl.rearrangeAll σ ds))) = ds := by
  refine order_byNumber block ?_ hnum.sorted
  rw [Decl.rearrangeAll_eq_map] at hback ⊢
  exact ((σ.perm block _).map _).trans (.of_eq hback)

mutual

theorem Expr.rearrange_byNumber (σ : Arrangement) : ∀ (e : Expr) {lo hi : Nat}, e.Numbered lo hi →
    (e.rearrange σ).rearrange .byNumber = e
  | .absent, _, _, _ | .atom .., _, _, _ | .name .., _, _, _ => rfl
  | .unary m op arg, _, _, h => congrArg (Expr.unary m op) (arg.rearrange_byNumber σ h.2)
  | .deref m arg, _, _, h => congrArg (Expr.deref m) (arg.rearrange_byNumber σ h.2)
  | .binary m op fst snd, _, _, ⟨_, _, h₁, h₂⟩ =>
    congrArg₂ (Expr.binary m op) (fst.rearrange_byNumber σ h₁) (snd.rearrange_byNumber σ h₂)
  | .index m array idx, _, _, ⟨_, _, h₁, h₂⟩ =>
    congrArg₂ (Expr.index m) (array.rearrange_byNumber σ h₁) (idx.rearrange_byNumber σ h₂)
  | .select m record comp, _, _, ⟨_, _, h, _⟩ =>
    congrArg (Expr.select m · comp) (record.rearrange_byNumber σ h)
  | .call m ident args, _, _, h => congrArg (Expr.call m ident) (Expr.rearrangeAll_byNumber σ args h.2)
  | .block m stmts, _, _, h => congrArg (Expr.block m) (Stmt.rearrangeAll_byNumber σ stmts h.2)
  | .cast m arg type, _, _, ⟨_, _, h, _⟩ => congrArg (Expr.cast m · type) (arg.rearrange_byNumber σ h)
  | .scope m decls body, _, _, ⟨_, _, h₁, h₂⟩ => congrArg₂ (Expr.scope m)
    (σ.order_byNumber_order m.id h₁ (Decl.rearrangeAll_byNumber σ decls h₁))
      (body.rearrange_byNumber σ h₂)

theorem Expr.rearrangeAll_byNumber (σ : Arrangement) : ∀ (es : List Expr) {lo hi : Nat},
    Expr.NumberedAll es lo hi →
    Expr.rearrangeAll .byNumber (Expr.rearrangeAll σ es) = es
  | [], _, _, _ => rfl
  | e :: es, _, _, ⟨_, h₁, h₂⟩ =>
    congrArg₂ List.cons (e.rearrange_byNumber σ h₁) (Expr.rearrangeAll_byNumber σ es h₂)

theorem Stmt.rearrange_byNumber (σ : Arrangement) : ∀ (s : Stmt) {lo hi : Nat}, s.Numbered lo hi →
    (s.rearrange σ).rearrange .byNumber = s
  | .absent, _, _, _ => rfl
  | .eval m e, _, _, h => congrArg (Stmt.eval m) (e.rearrange_byNumber σ h.2)
  | .assign m dst src, _, _, ⟨_, _, h₁, h₂⟩ =>
    congrArg₂ (Stmt.assign m) (dst.rearrange_byNumber σ h₁) (src.rearrange_byNumber σ h₂)
  | .cond m test yes no, _, _, ⟨_, _, _, h₁, h₂, h₃⟩ => by
    simp only [Stmt.rearrange, test.rearrange_byNumber σ h₁, yes.rearrange_byNumber σ h₂,
      no.rearrange_byNumber σ h₃]
  | .loop m test body, _, _, ⟨_, _, h₁, h₂⟩ =>
    congrArg₂ (Stmt.loop m) (test.rearrange_byNumber σ h₁) (body.rearrange_byNumber σ h₂)

theorem Stmt.rearrangeAll_byNumber (σ : Arrangement) : ∀ (ss : List Stmt) {lo hi : Nat},
    Stmt.NumberedAll ss lo hi →
    Stmt.rearrangeAll .byNumber (Stmt.rearrangeAll σ ss) = ss
  | [], _, _, _ => rfl
  | s :: ss, _, _, ⟨_, h₁, h₂⟩ =>
    congrArg₂ List.cons (s.rearrange_byNumber σ h₁) (Stmt.rearrangeAll_byNumber σ ss h₂)

theorem Decl.rearrange_byNumber (σ : Arrangement) : ∀ (d : Decl) {lo hi : Nat}, d.Numbered lo hi →
    (d.rearrange σ).rearrange .byNumber = d
  | .fn m name params type body, _, _, ⟨_, _, _, _, h⟩ =>
    congrArg (Decl.fn m name params type) (body.rearrange_byNumber σ h)
  | .var .., _, _, _ | .typ .., _, _, _ | .par .., _, _, _ | .comp .., _, _, _ => rfl

theorem Decl.rearrangeAll_byNumber (σ : Arrangement) : ∀ (ds : List Decl) {lo hi : Nat},
    Decl.NumberedAll ds lo hi →
    Decl.rearrangeAll .byNumber (Decl.rearrangeAll σ ds) = ds
  | [], _, _, _ => rfl
  | d :: ds, _, _, ⟨_, h₁, h₂⟩ =>
    congrArg₂ List.cons (d.rearrange_byNumber σ h₁) (Decl.rearrangeAll_byNumber σ ds h₂)

end

/-- **Every arrangement of a program that has been numbered can be taken back.** -/
theorem Program.rearrange_byNumber (σ : Arrangement) (p : Program) :
    (p.number.rearrange σ).rearrange .byNumber = p.number := by
  have hnum := p.number_spec.1
  exact congrArg (Program.mk p.number.mark)
    (σ.order_byNumber_order p.number.mark.id hnum (Decl.rearrangeAll_byNumber σ _ hnum))

end MmixBackend.Source
