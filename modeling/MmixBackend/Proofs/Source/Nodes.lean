import MmixBackend.Proofs.Source.Numbering

/-!
# Numbers of nodes

`Expr.ids` lists the numbers of all nodes of an expression, type expressions, parameters and the
names of selected components included. Passes keep what they find out about a node under its number,
so what they do to different parts of a tree can only interfere if the parts share a number.

## Main statements

- `Program.nodup_ids`, `Program.lt_nextId_of_mem_ids`: numbering a program gives all nodes different
  numbers below the first free one.
- `Program.nextId_eq`: the first free number depends only on how many nodes there are.
-/

namespace MmixBackend.Source

/-! ## §1 The numbers of a tree -/

/-- The numbers of parameters and of their types. -/
def Param.idsAll (ps : List Param) : List NodeId := ps.flatMap fun p => [p.mark.id, p.type.mark.id]

mutual

/-- The numbers of the nodes of an expression. -/
def Expr.ids : Expr → List NodeId
  | .absent => []
  | .atom m _ _ | .name m _ => [m.id]
  | .unary m _ arg | .deref m arg => m.id :: arg.ids
  | .binary m _ fst snd | .index m fst snd => m.id :: (fst.ids ++ snd.ids)
  | .select m record comp => m.id :: (record.ids ++ [comp.mark.id])
  | .call m _ args => m.id :: Expr.idsAll args
  | .block m stmts => m.id :: Stmt.idsAll stmts
  | .cast m arg type => m.id :: (arg.ids ++ [type.mark.id])
  | .scope m decls body => m.id :: (Decl.idsAll decls ++ body.ids)

/-- The same for expressions from left to right. -/
def Expr.idsAll : List Expr → List NodeId
  | [] => []
  | e :: es => e.ids ++ Expr.idsAll es

/-- The same for a statement. -/
def Stmt.ids : Stmt → List NodeId
  | .absent => []
  | .eval m e => m.id :: e.ids
  | .assign m dst src => m.id :: (dst.ids ++ src.ids)
  | .cond m test yes no => m.id :: (test.ids ++ (yes.ids ++ no.ids))
  | .loop m test body => m.id :: (test.ids ++ body.ids)

/-- The same for statements in order. -/
def Stmt.idsAll : List Stmt → List NodeId
  | [] => []
  | s :: ss => s.ids ++ Stmt.idsAll ss

/-- The same for a declaration. -/
def Decl.ids : Decl → List NodeId
  | .fn m _ params type body => m.id :: (Param.idsAll params ++ type.mark.id :: body.ids)
  | .var m _ type | .typ m _ type | .par m _ type | .comp m _ type => [m.id, type.mark.id]

/-- The same for declarations in order. -/
def Decl.idsAll : List Decl → List NodeId
  | [] => []
  | d :: ds => d.ids ++ Decl.idsAll ds

end

theorem Decl.idsAll_eq_flatMap (ds : List Decl) : Decl.idsAll ds = ds.flatMap Decl.ids := by
  induction ds with
  | nil => rfl
  | cons d ds ih => exact congrArg (d.ids ++ ·) ih

/-- The numbers of a declaration without those of the body of a function. -/
def Decl.headIds : Decl → List NodeId
  | .fn m _ params type _ => m.id :: (Param.idsAll params ++ [type.mark.id])
  | .var m _ type | .typ m _ type | .par m _ type | .comp m _ type => [m.id, type.mark.id]

/-- The numbers of a declared type and of its definition. -/
def Decl.typeHeadIds : Decl → List NodeId
  | .typ m _ type => [m.id, type.mark.id]
  | _ => []

/-- The numbers of a declaration that is no type, without those of the body of a function. -/
def Decl.valueHeadIds : Decl → List NodeId
  | .typ .. => []
  | d => d.headIds

/-- The numbers of the body of a function. -/
def Decl.bodyIds : Decl → List NodeId
  | .fn _ _ _ _ body => body.ids
  | _ => []

/-- The numbers of the declared types of a block. -/
def Decl.typeIds (ds : List Decl) : List NodeId := ds.flatMap fun
  | .typ m _ _ => [m.id]
  | _ => []

theorem Decl.ids_eq (d : Decl) : d.ids = d.headIds ++ d.bodyIds := by
  cases d <;> simp [Decl.ids, Decl.headIds, Decl.bodyIds]

/-- The numbers of declarations, those of all bodies last. -/
theorem Decl.idsAll_perm (ds : List Decl) :
    (Decl.idsAll ds).Perm (ds.flatMap Decl.headIds ++ ds.flatMap Decl.bodyIds) := by
  induction ds with
  | nil => exact .refl _
  | cons d ds ih =>
    rw [Decl.idsAll, d.ids_eq, List.flatMap_cons, List.flatMap_cons, List.append_assoc, List.append_assoc]
    refine .append_left _ ((ih.append_left _).trans ?_)
    rw [← List.append_assoc, ← List.append_assoc]
    exact List.perm_append_comm.append_right _

/-- The numbers of declarations without bodies, those of types first. -/
theorem Decl.headIds_perm (ds : List Decl) :
    (ds.flatMap Decl.headIds).Perm (ds.flatMap Decl.typeHeadIds ++ ds.flatMap Decl.valueHeadIds) := by
  induction ds with
  | nil => exact .refl _
  | cons d ds ih =>
    rw [List.flatMap_cons, List.flatMap_cons, List.flatMap_cons]
    cases d with
    | typ m name type => exact ih.append_left _
    | _ => exact (ih.append_left _).trans (List.perm_append_comm_assoc _ _ _)

theorem Decl.typeIds_append (ds ds' : List Decl) :
    Decl.typeIds (ds ++ ds') = Decl.typeIds ds ++ Decl.typeIds ds' :=
  List.flatMap_append

theorem Decl.typeIds_sublist (ds : List Decl) : (Decl.typeIds ds).Sublist (ds.flatMap Decl.headIds) := by
  induction ds with
  | nil => exact .slnil
  | cons d ds ih =>
    rw [Decl.typeIds, List.flatMap_cons, List.flatMap_cons]
    refine .append ?_ ih
    cases d <;> simp [Decl.headIds]

theorem Decl.mem_typeIds {ds : List Decl} {m : Mark} {name : String} {type : TypeExpr}
    (h : Decl.typ m name type ∈ ds) : m.id ∈ Decl.typeIds ds :=
  List.mem_flatMap.mpr ⟨_, h, List.mem_singleton.mpr rfl⟩

theorem Decl.exists_of_mem_typeIds {ds : List Decl} {id : NodeId} (h : id ∈ Decl.typeIds ds) :
    ∃ m name type, Decl.typ m name type ∈ ds ∧ m.id = id := by
  obtain ⟨d, hd, hid⟩ := List.mem_flatMap.mp h
  cases d with
  | typ m name type => exact ⟨m, name, type, hd, (List.mem_singleton.mp hid).symm⟩
  | _ => exact (List.not_mem_nil hid).elim

/-! ## §2 Numbered trees -/

theorem range'_append_range' {lo k hi : Nat} (hlo : lo ≤ k) (hhi : k ≤ hi) :
    List.range' lo (k - lo) ++ List.range' k (hi - k) = List.range' lo (hi - lo) := by
  obtain ⟨n, rfl⟩ := Nat.exists_eq_add_of_le hlo
  obtain ⟨m, rfl⟩ := Nat.exists_eq_add_of_le hhi
  rw [Nat.add_sub_cancel_left, Nat.add_sub_cancel_left, List.range'_append_1, Nat.add_assoc,
    Nat.add_sub_cancel_left]

theorem cons_range' {lo hi : Nat} (h : lo + 1 ≤ hi) :
    lo :: List.range' (lo + 1) (hi - (lo + 1)) = List.range' lo (hi - lo) := by
  rw [show hi - lo = (hi - (lo + 1)) + 1 by omega, List.range'_succ]

theorem Param.idsAll_of_numberedAll : ∀ (ps : List Param) {lo hi : Nat}, Param.NumberedAll ps lo hi →
    Param.idsAll ps = List.range' lo (hi - lo)
  | [], lo, hi, h => by
    cases h
    rw [Nat.sub_self]
    rfl
  | p :: ps, lo, hi, ⟨hid, htype, hps⟩ => by
    have hle := Param.le_of_numberedAll hps
    rw [Param.idsAll, List.flatMap_cons, ← Param.idsAll, Param.idsAll_of_numberedAll ps hps, hid, htype]
    rw [← cons_range' (Nat.le_of_succ_le hle), ← cons_range' hle]
    rfl

mutual

/-- A numbered tree has the numbers of its interval in order. -/
theorem Expr.ids_of_numbered : ∀ (e : Expr) {lo hi : Nat}, e.Numbered lo hi →
    e.ids = List.range' lo (hi - lo)
  | .absent, lo, hi, h => by
    cases h
    rw [Nat.sub_self]
    rfl
  | .atom m _ _, lo, hi, ⟨hid, hhi⟩ | .name m _, lo, hi, ⟨hid, hhi⟩ => by
    rw [Expr.ids, hid, hhi, Nat.add_sub_cancel_left]
    rfl
  | .unary m _ arg, lo, hi, ⟨hid, h⟩ | .deref m arg, lo, hi, ⟨hid, h⟩ => by
    rw [Expr.ids, arg.ids_of_numbered h, hid, cons_range' (arg.le_of_numbered h)]
  | .binary m _ fst snd, lo, hi, ⟨hid, k, h₁, h₂⟩ | .index m fst snd, lo, hi, ⟨hid, k, h₁, h₂⟩ => by
    have hk := fst.le_of_numbered h₁
    have hhi := snd.le_of_numbered h₂
    rw [Expr.ids, fst.ids_of_numbered h₁, snd.ids_of_numbered h₂, hid, range'_append_range' hk hhi,
      cons_range' (Nat.le_trans hk hhi)]
  | .select m record comp, lo, hi, ⟨hid, k, h, hcomp, hhi⟩ => by
    have hk := record.le_of_numbered h
    subst hhi
    rw [Expr.ids, record.ids_of_numbered h, hid, hcomp, ← cons_range' (Nat.le_succ_of_le hk),
      ← range'_append_range' hk (Nat.le_add_right k 1), Nat.add_sub_cancel_left]
    rfl
  | .call m _ args, lo, hi, ⟨hid, h⟩ => by
    rw [Expr.ids, Expr.idsAll_of_numberedAll args h, hid, cons_range' (Expr.le_of_numberedAll args h)]
  | .block m stmts, lo, hi, ⟨hid, h⟩ => by
    rw [Expr.ids, Stmt.idsAll_of_numberedAll stmts h, hid, cons_range' (Stmt.le_of_numberedAll stmts h)]
  | .cast m arg type, lo, hi, ⟨hid, k, h, htype, hhi⟩ => by
    have hk := arg.le_of_numbered h
    subst hhi
    rw [Expr.ids, arg.ids_of_numbered h, hid, htype, ← cons_range' (Nat.le_succ_of_le hk),
      ← range'_append_range' hk (Nat.le_add_right k 1), Nat.add_sub_cancel_left]
    rfl
  | .scope m decls body, lo, hi, ⟨hid, k, h₁, h₂⟩ => by
    have hk := Decl.le_of_numberedAll decls h₁
    have hhi := body.le_of_numbered h₂
    rw [Expr.ids, Decl.idsAll_of_numberedAll decls h₁, body.ids_of_numbered h₂, hid,
      range'_append_range' hk hhi, cons_range' (Nat.le_trans hk hhi)]

theorem Expr.idsAll_of_numberedAll : ∀ (es : List Expr) {lo hi : Nat}, Expr.NumberedAll es lo hi →
    Expr.idsAll es = List.range' lo (hi - lo)
  | [], lo, hi, h => by
    cases h
    rw [Nat.sub_self]
    rfl
  | e :: es, lo, hi, ⟨k, h₁, h₂⟩ => by
    rw [Expr.idsAll, e.ids_of_numbered h₁, Expr.idsAll_of_numberedAll es h₂,
      range'_append_range' (e.le_of_numbered h₁) (Expr.le_of_numberedAll es h₂)]

theorem Stmt.ids_of_numbered : ∀ (s : Stmt) {lo hi : Nat}, s.Numbered lo hi →
    s.ids = List.range' lo (hi - lo)
  | .absent, lo, hi, h => by
    cases h
    rw [Nat.sub_self]
    rfl
  | .eval m e, lo, hi, ⟨hid, h⟩ => by
    rw [Stmt.ids, e.ids_of_numbered h, hid, cons_range' (e.le_of_numbered h)]
  | .assign m dst src, lo, hi, ⟨hid, k, h₁, h₂⟩ => by
    have hk := dst.le_of_numbered h₁
    have hhi := src.le_of_numbered h₂
    rw [Stmt.ids, dst.ids_of_numbered h₁, src.ids_of_numbered h₂, hid, range'_append_range' hk hhi,
      cons_range' (Nat.le_trans hk hhi)]
  | .cond m test yes no, lo, hi, ⟨hid, j, k, h₁, h₂, h₃⟩ => by
    have hj := test.le_of_numbered h₁
    have hk := yes.le_of_numbered h₂
    have hhi := no.le_of_numbered h₃
    rw [Stmt.ids, test.ids_of_numbered h₁, yes.ids_of_numbered h₂, no.ids_of_numbered h₃, hid,
      range'_append_range' hk hhi, range'_append_range' hj (Nat.le_trans hk hhi),
      cons_range' (Nat.le_trans hj (Nat.le_trans hk hhi))]
  | .loop m test body, lo, hi, ⟨hid, k, h₁, h₂⟩ => by
    have hk := test.le_of_numbered h₁
    have hhi := body.le_of_numbered h₂
    rw [Stmt.ids, test.ids_of_numbered h₁, body.ids_of_numbered h₂, hid, range'_append_range' hk hhi,
      cons_range' (Nat.le_trans hk hhi)]

theorem Stmt.idsAll_of_numberedAll : ∀ (ss : List Stmt) {lo hi : Nat}, Stmt.NumberedAll ss lo hi →
    Stmt.idsAll ss = List.range' lo (hi - lo)
  | [], lo, hi, h => by
    cases h
    rw [Nat.sub_self]
    rfl
  | s :: ss, lo, hi, ⟨k, h₁, h₂⟩ => by
    rw [Stmt.idsAll, s.ids_of_numbered h₁, Stmt.idsAll_of_numberedAll ss h₂,
      range'_append_range' (s.le_of_numbered h₁) (Stmt.le_of_numberedAll ss h₂)]

theorem Decl.ids_of_numbered : ∀ (d : Decl) {lo hi : Nat}, d.Numbered lo hi →
    d.ids = List.range' lo (hi - lo)
  | .fn m _ params type body, lo, hi, ⟨hid, k, h₁, htype, h₂⟩ => by
    have hk := Param.le_of_numberedAll h₁
    have hhi := body.le_of_numbered h₂
    rw [Decl.ids, Param.idsAll_of_numberedAll params h₁, body.ids_of_numbered h₂, hid, htype,
      cons_range' hhi, range'_append_range' hk (Nat.le_of_succ_le hhi),
      cons_range' (Nat.le_trans hk (Nat.le_of_succ_le hhi))]
  | .var m _ type, lo, hi, ⟨hid, htype, hhi⟩ | .typ m _ type, lo, hi, ⟨hid, htype, hhi⟩
  | .par m _ type, lo, hi, ⟨hid, htype, hhi⟩ | .comp m _ type, lo, hi, ⟨hid, htype, hhi⟩ => by
    rw [Decl.ids, hid, htype, hhi, Nat.add_sub_cancel_left]
    rfl

theorem Decl.idsAll_of_numberedAll : ∀ (ds : List Decl) {lo hi : Nat}, Decl.NumberedAll ds lo hi →
    Decl.idsAll ds = List.range' lo (hi - lo)
  | [], lo, hi, h => by
    cases h
    rw [Nat.sub_self]
    rfl
  | d :: ds, lo, hi, ⟨k, h₁, h₂⟩ => by
    rw [Decl.idsAll, d.ids_of_numbered h₁, Decl.idsAll_of_numberedAll ds h₂,
      range'_append_range' (d.le_of_numbered h₁) (Decl.le_of_numberedAll ds h₂)]

end

/-! ## §3 Counting -/

theorem Param.mapM_number_snd : ∀ (ps : List Param) (n : NodeId),
    ((ps.mapM Param.number).run n).2 = n + (Param.idsAll ps).length
  | [], _ => rfl
  | p :: ps, n => by
    rw [List.mapM_cons]
    simp only [run_bind_state, run_pure_state, Param.mapM_number_snd ps]
    show n + 2 + (Param.idsAll ps).length = n + ((Param.idsAll ps).length + 2)
    rw [Nat.add_assoc, Nat.add_comm 2]

mutual

/-- Numbering counts the nodes, whatever numbers they have had. -/
theorem Expr.number_snd : ∀ (e : Expr) (n : NodeId), (e.number.run n).2 = n + e.ids.length
  | .absent, n => by
    rw [Expr.number]
    rfl
  | .atom .., n | .name .., n => by
    rw [Expr.number]
    rfl
  | .unary _ _ arg, n | .deref _ arg, n => by
    simp only [Expr.number, Expr.ids, run_bind_state, run_pure_state, run_freshMark, arg.number_snd,
      List.length_cons, Nat.add_assoc, Nat.add_comm 1]
  | .binary _ _ fst snd, n | .index _ fst snd, n => by
    simp only [Expr.number, Expr.ids, run_bind_state, run_pure_state, run_freshMark, fst.number_snd,
      snd.number_snd, List.length_cons, List.length_append, Nat.add_assoc, Nat.add_comm 1]
  | .select _ record _, n => by
    simp only [Expr.number, Expr.ids, run_bind_state, run_pure_state, run_freshMark, record.number_snd,
      List.length_cons, List.length_append, List.length_nil, Nat.add_assoc, Nat.add_comm 1]
  | .call _ _ args, n => by
    simp only [Expr.number, Expr.ids, run_bind_state, run_pure_state, run_freshMark,
      Expr.numberAll_snd args, List.length_cons, Nat.add_assoc, Nat.add_comm 1]
  | .block _ stmts, n => by
    simp only [Expr.number, Expr.ids, run_bind_state, run_pure_state, run_freshMark,
      Stmt.numberAll_snd stmts, List.length_cons, Nat.add_assoc, Nat.add_comm 1]
  | .cast _ arg _, n => by
    simp only [Expr.number, Expr.ids, run_bind_state, run_pure_state, run_freshMark,
      run_number_typeExpr, arg.number_snd, List.length_cons, List.length_append, List.length_nil,
      Nat.add_assoc, Nat.add_comm 1]
  | .scope _ decls body, n => by
    simp only [Expr.number, Expr.ids, run_bind_state, run_pure_state, run_freshMark,
      Decl.numberAll_snd decls, body.number_snd, List.length_cons, List.length_append, Nat.add_assoc,
      Nat.add_comm 1]

theorem Expr.numberAll_snd : ∀ (es : List Expr) (n : NodeId),
    ((Expr.numberAll es).run n).2 = n + (Expr.idsAll es).length
  | [], n => by
    rw [Expr.numberAll]
    rfl
  | e :: es, n => by
    simp only [Expr.numberAll, Expr.idsAll, run_bind_state, run_pure_state, e.number_snd,
      Expr.numberAll_snd es, List.length_append, Nat.add_assoc]

theorem Stmt.number_snd : ∀ (s : Stmt) (n : NodeId), (s.number.run n).2 = n + s.ids.length
  | .absent, n => by
    rw [Stmt.number]
    rfl
  | .eval _ e, n => by
    simp only [Stmt.number, Stmt.ids, run_bind_state, run_pure_state, run_freshMark, e.number_snd,
      List.length_cons, Nat.add_assoc, Nat.add_comm 1]
  | .assign _ dst src, n => by
    simp only [Stmt.number, Stmt.ids, run_bind_state, run_pure_state, run_freshMark, dst.number_snd,
      src.number_snd, List.length_cons, List.length_append, Nat.add_assoc, Nat.add_comm 1]
  | .cond _ test yes no, n => by
    simp only [Stmt.number, Stmt.ids, run_bind_state, run_pure_state, run_freshMark, test.number_snd,
      yes.number_snd, no.number_snd, List.length_cons, List.length_append, Nat.add_assoc, Nat.add_comm 1]
  | .loop _ test body, n => by
    simp only [Stmt.number, Stmt.ids, run_bind_state, run_pure_state, run_freshMark, test.number_snd,
      body.number_snd, List.length_cons, List.length_append, Nat.add_assoc, Nat.add_comm 1]

theorem Stmt.numberAll_snd : ∀ (ss : List Stmt) (n : NodeId),
    ((Stmt.numberAll ss).run n).2 = n + (Stmt.idsAll ss).length
  | [], n => by
    rw [Stmt.numberAll]
    rfl
  | s :: ss, n => by
    simp only [Stmt.numberAll, Stmt.idsAll, run_bind_state, run_pure_state, s.number_snd,
      Stmt.numberAll_snd ss, List.length_append, Nat.add_assoc]

theorem Decl.number_snd : ∀ (d : Decl) (n : NodeId), (d.number.run n).2 = n + d.ids.length
  | .fn _ _ params _ body, n => by
    simp only [Decl.number, Decl.ids, run_bind_state, run_pure_state, run_freshMark, run_number_typeExpr,
      Param.mapM_number_snd params, body.number_snd, List.length_cons, List.length_append, Nat.add_assoc,
      Nat.add_comm 1]
  | .var .., n | .typ .., n | .par .., n | .comp .., n => by
    rw [Decl.number]
    rfl

theorem Decl.numberAll_snd : ∀ (ds : List Decl) (n : NodeId),
    ((Decl.numberAll ds).run n).2 = n + (Decl.idsAll ds).length
  | [], n => by
    rw [Decl.numberAll]
    rfl
  | d :: ds, n => by
    simp only [Decl.numberAll, Decl.idsAll, run_bind_state, run_pure_state, d.number_snd,
      Decl.numberAll_snd ds, List.length_append, Nat.add_assoc]

end

/-! ## §4 Programs -/

/-- The numbers of the nodes of a program, except for the program itself. -/
def Program.ids (p : Program) : List NodeId := Decl.idsAll p.decls

/-- **The first free number depends only on how many nodes there are.** -/
theorem Program.nextId_eq (p : Program) : p.nextId = 1 + p.ids.length := Decl.numberAll_snd p.decls 1

theorem Program.ids_number (p : Program) : p.number.ids = List.range' 1 (p.number.nextId - 1) :=
  Decl.idsAll_of_numberedAll _ p.number_spec.1

/-- Numbering a program gives its nodes different numbers. -/
theorem Program.nodup_ids (p : Program) : p.number.ids.Nodup := by
  rw [p.ids_number]
  exact List.nodup_range'

/-- All of them are below the first free number. -/
theorem Program.lt_nextId_of_mem_ids {p : Program} {id : NodeId} (h : id ∈ p.number.ids) :
    id < p.number.nextId := by
  have hone : 1 ≤ p.number.nextId := Decl.le_of_numberedAll _ p.number_spec.1
  rw [p.ids_number, List.mem_range'_1, Nat.add_sub_of_le hone] at h
  exact h.2

/-- The nodes have different numbers below the first free one, in whatever order. -/
structure Program.WellNumbered (p : Program) : Prop where
  nodup : p.ids.Nodup
  lt_nextId : ∀ id ∈ p.ids, id < p.nextId

theorem Program.wellNumbered_number (p : Program) : p.number.WellNumbered :=
  ⟨p.nodup_ids, fun _ => p.lt_nextId_of_mem_ids⟩

end MmixBackend.Source
