import MmixBackend.Proofs.Results
import MmixBackend.Proofs.Source.Completeness

/-!
# Numbered programs

`Program.number` gives every node a number, counting from left to right with each node before what it
consists of. So the numbers of a tree are an interval, and different parts of a tree have disjoint
intervals. What a pass records under the numbers of one part it cannot overwrite in another one.

## Main statements

- `Expr.number_spec`: a numbered expression has the numbers from where the counter was to where it is,
  and is as complete as before.
- `Program.number_spec`: the same for a program.
-/

namespace MmixBackend.Source

/-! ## §1 Intervals of numbers -/

/-- Parameters, each with its type, have the numbers from `lo` up to `hi`, exclusively. -/
def Param.NumberedAll : List Param → (lo hi : Nat) → Prop
  | [], lo, hi => hi = lo
  | p :: ps, lo, hi => p.mark.id = lo ∧ p.type.mark.id = lo + 1 ∧ Param.NumberedAll ps (lo + 2) hi

mutual

/-- The nodes of an expression have the numbers from `lo` up to `hi`, exclusively, each node before
what it consists of. -/
def Expr.Numbered : Expr → (lo hi : Nat) → Prop
  | .absent, lo, hi => hi = lo
  | .atom m _ _, lo, hi | .name m _, lo, hi => m.id = lo ∧ hi = lo + 1
  | .unary m _ arg, lo, hi | .deref m arg, lo, hi => m.id = lo ∧ arg.Numbered (lo + 1) hi
  | .binary m _ fst snd, lo, hi | .index m fst snd, lo, hi =>
    m.id = lo ∧ ∃ k, fst.Numbered (lo + 1) k ∧ snd.Numbered k hi
  | .select m record comp, lo, hi =>
    m.id = lo ∧ ∃ k, record.Numbered (lo + 1) k ∧ comp.mark.id = k ∧ hi = k + 1
  | .call m _ args, lo, hi => m.id = lo ∧ Expr.NumberedAll args (lo + 1) hi
  | .block m stmts, lo, hi => m.id = lo ∧ Stmt.NumberedAll stmts (lo + 1) hi
  | .cast m arg type, lo, hi =>
    m.id = lo ∧ ∃ k, arg.Numbered (lo + 1) k ∧ type.mark.id = k ∧ hi = k + 1
  | .scope m decls body, lo, hi =>
    m.id = lo ∧ ∃ k, Decl.NumberedAll decls (lo + 1) k ∧ body.Numbered k hi

/-- The same for expressions from left to right. -/
def Expr.NumberedAll : List Expr → (lo hi : Nat) → Prop
  | [], lo, hi => hi = lo
  | e :: es, lo, hi => ∃ k, e.Numbered lo k ∧ Expr.NumberedAll es k hi

/-- The same for a statement. -/
def Stmt.Numbered : Stmt → (lo hi : Nat) → Prop
  | .absent, lo, hi => hi = lo
  | .eval m e, lo, hi => m.id = lo ∧ e.Numbered (lo + 1) hi
  | .assign m dst src, lo, hi => m.id = lo ∧ ∃ k, dst.Numbered (lo + 1) k ∧ src.Numbered k hi
  | .cond m test yes no, lo, hi =>
    m.id = lo ∧ ∃ j k, test.Numbered (lo + 1) j ∧ yes.Numbered j k ∧ no.Numbered k hi
  | .loop m test body, lo, hi => m.id = lo ∧ ∃ k, test.Numbered (lo + 1) k ∧ body.Numbered k hi

/-- The same for statements in order. -/
def Stmt.NumberedAll : List Stmt → (lo hi : Nat) → Prop
  | [], lo, hi => hi = lo
  | s :: ss, lo, hi => ∃ k, s.Numbered lo k ∧ Stmt.NumberedAll ss k hi

/-- The same for a declaration. -/
def Decl.Numbered : Decl → (lo hi : Nat) → Prop
  | .fn m _ params type body, lo, hi =>
    m.id = lo ∧ ∃ k, Param.NumberedAll params (lo + 1) k ∧ type.mark.id = k ∧
      body.Numbered (k + 1) hi
  | .var m _ type, lo, hi | .typ m _ type, lo, hi | .par m _ type, lo, hi | .comp m _ type, lo, hi =>
    m.id = lo ∧ type.mark.id = lo + 1 ∧ hi = lo + 2

/-- The same for declarations in order. -/
def Decl.NumberedAll : List Decl → (lo hi : Nat) → Prop
  | [], lo, hi => hi = lo
  | d :: ds, lo, hi => ∃ k, d.Numbered lo k ∧ Decl.NumberedAll ds k hi

end

theorem Param.le_of_numberedAll : ∀ {ps : List Param} {lo hi : Nat},
    Param.NumberedAll ps lo hi → lo ≤ hi
  | [], _, _, h => Nat.le_of_eq h.symm
  | _ :: _, _, _, h => Nat.le_trans (Nat.le_add_right _ 2) (Param.le_of_numberedAll h.2.2)

mutual

theorem Expr.le_of_numbered : ∀ (e : Expr) {lo hi : Nat}, e.Numbered lo hi → lo ≤ hi
  | .absent, _, _, h => Nat.le_of_eq h.symm
  | .atom .., _, _, h | .name .., _, _, h => h.2 ▸ Nat.le_succ _
  | .unary _ _ arg, _, _, h | .deref _ arg, _, _, h => Nat.le_of_succ_le (arg.le_of_numbered h.2)
  | .binary _ _ fst snd, _, _, ⟨_, _, h₁, h₂⟩ | .index _ fst snd, _, _, ⟨_, _, h₁, h₂⟩ =>
    Nat.le_of_succ_le (Nat.le_trans (fst.le_of_numbered h₁) (snd.le_of_numbered h₂))
  | .select _ record _, _, _, ⟨_, _, h₁, _, h₂⟩ | .cast _ record _, _, _, ⟨_, _, h₁, _, h₂⟩ =>
    Nat.le_of_succ_le (Nat.le_trans (record.le_of_numbered h₁) (h₂ ▸ Nat.le_succ _))
  | .call _ _ args, _, _, h => Nat.le_of_succ_le (Expr.le_of_numberedAll args h.2)
  | .block _ stmts, _, _, h => Nat.le_of_succ_le (Stmt.le_of_numberedAll stmts h.2)
  | .scope _ decls body, _, _, ⟨_, _, h₁, h₂⟩ =>
    Nat.le_of_succ_le (Nat.le_trans (Decl.le_of_numberedAll decls h₁) (body.le_of_numbered h₂))

theorem Expr.le_of_numberedAll : ∀ (es : List Expr) {lo hi : Nat},
    Expr.NumberedAll es lo hi → lo ≤ hi
  | [], _, _, h => Nat.le_of_eq h.symm
  | e :: es, _, _, ⟨_, h₁, h₂⟩ => Nat.le_trans (e.le_of_numbered h₁) (Expr.le_of_numberedAll es h₂)

theorem Stmt.le_of_numbered : ∀ (s : Stmt) {lo hi : Nat}, s.Numbered lo hi → lo ≤ hi
  | .absent, _, _, h => Nat.le_of_eq h.symm
  | .eval _ e, _, _, h => Nat.le_of_succ_le (e.le_of_numbered h.2)
  | .assign _ dst src, _, _, ⟨_, _, h₁, h₂⟩ =>
    Nat.le_of_succ_le (Nat.le_trans (dst.le_of_numbered h₁) (src.le_of_numbered h₂))
  | .cond _ test yes no, _, _, ⟨_, _, _, h₁, h₂, h₃⟩ =>
    Nat.le_of_succ_le (Nat.le_trans (test.le_of_numbered h₁)
      (Nat.le_trans (yes.le_of_numbered h₂) (no.le_of_numbered h₃)))
  | .loop _ test body, _, _, ⟨_, _, h₁, h₂⟩ =>
    Nat.le_of_succ_le (Nat.le_trans (test.le_of_numbered h₁) (body.le_of_numbered h₂))

theorem Stmt.le_of_numberedAll : ∀ (ss : List Stmt) {lo hi : Nat},
    Stmt.NumberedAll ss lo hi → lo ≤ hi
  | [], _, _, h => Nat.le_of_eq h.symm
  | s :: ss, _, _, ⟨_, h₁, h₂⟩ => Nat.le_trans (s.le_of_numbered h₁) (Stmt.le_of_numberedAll ss h₂)

theorem Decl.le_of_numbered : ∀ (d : Decl) {lo hi : Nat}, d.Numbered lo hi → lo ≤ hi
  | .fn _ _ _ _ body, _, _, ⟨_, _, h₁, _, h₂⟩ =>
    Nat.le_of_succ_le (Nat.le_trans (Param.le_of_numberedAll h₁)
      (Nat.le_of_succ_le (body.le_of_numbered h₂)))
  | .var .., _, _, h | .typ .., _, _, h | .par .., _, _, h | .comp .., _, _, h =>
    h.2.2 ▸ Nat.le_add_right _ 2

theorem Decl.le_of_numberedAll : ∀ (ds : List Decl) {lo hi : Nat},
    Decl.NumberedAll ds lo hi → lo ≤ hi
  | [], _, _, h => Nat.le_of_eq h.symm
  | d :: ds, _, _, ⟨_, h₁, h₂⟩ => Nat.le_trans (d.le_of_numbered h₁) (Decl.le_of_numberedAll ds h₂)

end

/-- A declaration of a block is numbered within the interval of the block. -/
theorem Decl.NumberedAll.of_mem : ∀ {ds : List Decl} {lo hi : Nat}, Decl.NumberedAll ds lo hi →
    ∀ {d : Decl}, d ∈ ds → ∃ lo' hi', lo ≤ lo' ∧ hi' ≤ hi ∧ d.Numbered lo' hi'
  | [], _, _, _, _, hd => (List.not_mem_nil hd).elim
  | d :: ds, lo, hi, ⟨k, hfirst, hrest⟩, _, hd => by
    rcases List.mem_cons.mp hd with rfl | hd
    · exact ⟨lo, k, Nat.le_refl _, Decl.le_of_numberedAll ds hrest, hfirst⟩
    · obtain ⟨lo', hi', hlo, hhi, hnum⟩ := hrest.of_mem hd
      exact ⟨lo', hi', Nat.le_trans (Decl.le_of_numbered d hfirst) hlo, hhi, hnum⟩

theorem Decl.Numbered.type_mem {d : Decl} {lo hi : Nat} (h : d.Numbered lo hi) :
    lo ≤ d.type.mark.id ∧ d.type.mark.id < hi := by
  cases d with
  | fn m name params type body =>
    obtain ⟨-, k, hparams, htype, hbody⟩ := h
    have hk := Param.le_of_numberedAll hparams
    have hhi := Expr.le_of_numbered body hbody
    show lo ≤ type.mark.id ∧ type.mark.id < hi
    rw [htype]
    exact ⟨Nat.le_of_succ_le hk, hhi⟩
  | _ =>
    obtain ⟨-, htype, rfl⟩ := h
    exact ⟨htype ▸ Nat.le_succ _, htype ▸ Nat.lt_succ_self _⟩

/-! ## §2 Numbering -/

theorem Param.numberedAll_mapM : ∀ (ps : List Param) (i : NodeId),
    Param.NumberedAll ((ps.mapM Param.number).run i).1 i ((ps.mapM Param.number).run i).2
  | [], _ => rfl
  | p :: ps, i => by
    rw [List.mapM_cons]
    exact ⟨rfl, rfl, Param.numberedAll_mapM ps (i + 2)⟩

mutual

/-- **Numbering an expression** gives its nodes the numbers from where the counter was to where it is
afterwards, and takes nothing away. -/
theorem Expr.number_spec : ∀ (e : Expr) (i : NodeId),
    (e.number.run i).1.Numbered i (e.number.run i).2 ∧ (e.Complete → (e.number.run i).1.Complete)
  | .absent, i => by
    rw [Expr.number]
    exact ⟨rfl, id⟩
  | .atom .., i | .name .., i => by
    rw [Expr.number]
    exact ⟨⟨rfl, rfl⟩, id⟩
  | .unary _ _ arg, i => by
    obtain ⟨h, hc⟩ := arg.number_spec (i + 1)
    rw [Expr.number]
    exact ⟨⟨rfl, h⟩, And.imp_right hc⟩
  | .deref _ arg, i => by
    obtain ⟨h, hc⟩ := arg.number_spec (i + 1)
    rw [Expr.number]
    exact ⟨⟨rfl, h⟩, hc⟩
  | .binary _ _ fst snd, i => by
    obtain ⟨h₁, hc₁⟩ := fst.number_spec (i + 1)
    -- The second operand goes on where the first has stopped.
    obtain ⟨h₂, hc₂⟩ := snd.number_spec (fst.number.run (i + 1)).2
    rw [Expr.number]
    exact ⟨⟨rfl, _, h₁, h₂⟩, And.imp_right (And.imp hc₁ hc₂)⟩
  | .index _ array idx, i => by
    obtain ⟨h₁, hc₁⟩ := array.number_spec (i + 1)
    obtain ⟨h₂, hc₂⟩ := idx.number_spec (array.number.run (i + 1)).2
    rw [Expr.number]
    exact ⟨⟨rfl, _, h₁, h₂⟩, And.imp hc₁ hc₂⟩
  | .select _ record _, i => by
    -- The name of the component gets the last number.
    obtain ⟨h, hc⟩ := record.number_spec (i + 1)
    rw [Expr.number]
    exact ⟨⟨rfl, _, h, rfl, rfl⟩, hc⟩
  | .call _ _ args, i => by
    obtain ⟨h, hc⟩ := Expr.numberAll_spec args (i + 1)
    rw [Expr.number]
    exact ⟨⟨rfl, h⟩, hc⟩
  | .block _ stmts, i => by
    obtain ⟨h, hc⟩ := Stmt.numberAll_spec stmts (i + 1)
    rw [Expr.number]
    exact ⟨⟨rfl, h⟩, hc⟩
  | .cast _ arg _, i => by
    obtain ⟨h, hc⟩ := arg.number_spec (i + 1)
    rw [Expr.number]
    exact ⟨⟨rfl, _, h, rfl, rfl⟩, hc⟩
  | .scope _ decls body, i => by
    -- The declarations are numbered before the expression that they are for.
    obtain ⟨h₁, hc₁⟩ := Decl.numberAll_spec decls (i + 1)
    obtain ⟨h₂, hc₂⟩ := body.number_spec ((Decl.numberAll decls).run (i + 1)).2
    rw [Expr.number]
    exact ⟨⟨rfl, _, h₁, h₂⟩, And.imp hc₁ hc₂⟩

theorem Expr.numberAll_spec : ∀ (es : List Expr) (i : NodeId),
    Expr.NumberedAll ((Expr.numberAll es).run i).1 i ((Expr.numberAll es).run i).2 ∧
      (Expr.CompleteAll es → Expr.CompleteAll ((Expr.numberAll es).run i).1)
  | [], i => by
    rw [Expr.numberAll]
    exact ⟨rfl, id⟩
  | e :: es, i => by
    obtain ⟨h₁, hc₁⟩ := e.number_spec i
    obtain ⟨h₂, hc₂⟩ := Expr.numberAll_spec es (e.number.run i).2
    rw [Expr.numberAll]
    exact ⟨⟨_, h₁, h₂⟩, And.imp hc₁ hc₂⟩

theorem Stmt.number_spec : ∀ (s : Stmt) (i : NodeId),
    (s.number.run i).1.Numbered i (s.number.run i).2 ∧ (s.Complete → (s.number.run i).1.Complete)
  | .absent, i => by
    rw [Stmt.number]
    exact ⟨rfl, id⟩
  | .eval _ e, i => by
    obtain ⟨h, hc⟩ := e.number_spec (i + 1)
    rw [Stmt.number]
    exact ⟨⟨rfl, h⟩, hc⟩
  | .assign _ dst src, i => by
    obtain ⟨h₁, hc₁⟩ := dst.number_spec (i + 1)
    obtain ⟨h₂, hc₂⟩ := src.number_spec (dst.number.run (i + 1)).2
    rw [Stmt.number]
    exact ⟨⟨rfl, _, h₁, h₂⟩, And.imp hc₁ hc₂⟩
  | .cond _ test yes no, i => by
    obtain ⟨h₁, hc₁⟩ := test.number_spec (i + 1)
    obtain ⟨h₂, hc₂⟩ := yes.number_spec (test.number.run (i + 1)).2
    obtain ⟨h₃, hc₃⟩ := no.number_spec (yes.number.run (test.number.run (i + 1)).2).2
    rw [Stmt.number]
    refine ⟨⟨rfl, _, _, h₁, h₂, h₃⟩, And.imp hc₁ (And.imp hc₂ ?_)⟩
    -- A missing branch stays missing.
    refine Or.imp (fun hno => ?_) hc₃
    subst hno
    rw [Stmt.number]
    rfl
  | .loop _ test body, i => by
    obtain ⟨h₁, hc₁⟩ := test.number_spec (i + 1)
    obtain ⟨h₂, hc₂⟩ := body.number_spec (test.number.run (i + 1)).2
    rw [Stmt.number]
    exact ⟨⟨rfl, _, h₁, h₂⟩, And.imp hc₁ hc₂⟩

theorem Stmt.numberAll_spec : ∀ (ss : List Stmt) (i : NodeId),
    Stmt.NumberedAll ((Stmt.numberAll ss).run i).1 i ((Stmt.numberAll ss).run i).2 ∧
      (Stmt.CompleteAll ss → Stmt.CompleteAll ((Stmt.numberAll ss).run i).1)
  | [], i => by
    rw [Stmt.numberAll]
    exact ⟨rfl, id⟩
  | s :: ss, i => by
    obtain ⟨h₁, hc₁⟩ := s.number_spec i
    obtain ⟨h₂, hc₂⟩ := Stmt.numberAll_spec ss (s.number.run i).2
    rw [Stmt.numberAll]
    exact ⟨⟨_, h₁, h₂⟩, And.imp hc₁ hc₂⟩

theorem Decl.number_spec : ∀ (d : Decl) (i : NodeId),
    (d.number.run i).1.Numbered i (d.number.run i).2 ∧ (d.Complete → (d.number.run i).1.Complete)
  | .fn _ _ params type body, i => by
    have hparams := Param.numberedAll_mapM params (i + 1)
    obtain ⟨h, hc⟩ := body.number_spec (((params.mapM Param.number).run (i + 1)).2 + 1)
    rw [Decl.number]
    refine ⟨⟨rfl, _, hparams, rfl, h⟩, Or.imp (fun hbody => ?_) hc⟩
    subst hbody
    rw [Expr.number]
    rfl
  | .var .., i | .typ .., i | .par .., i | .comp .., i => by
    rw [Decl.number]
    exact ⟨⟨rfl, rfl, rfl⟩, id⟩

theorem Decl.numberAll_spec : ∀ (ds : List Decl) (i : NodeId),
    Decl.NumberedAll ((Decl.numberAll ds).run i).1 i ((Decl.numberAll ds).run i).2 ∧
      (Decl.CompleteAll ds → Decl.CompleteAll ((Decl.numberAll ds).run i).1)
  | [], i => by
    rw [Decl.numberAll]
    exact ⟨rfl, id⟩
  | d :: ds, i => by
    obtain ⟨h₁, hc₁⟩ := d.number_spec i
    obtain ⟨h₂, hc₂⟩ := Decl.numberAll_spec ds (d.number.run i).2
    rw [Decl.numberAll]
    exact ⟨⟨_, h₁, h₂⟩, And.imp hc₁ hc₂⟩

end

/-! ## §3 Numbering twice -/

@[simp] theorem run_freshMark (m : Mark) (i : NodeId) :
    (freshMark m).run i = ({ m with id := i }, i + 1) := rfl

@[simp] theorem run_number_typeExpr (t : TypeExpr) (i : NodeId) :
    t.number.run i = ({ t with mark := { t.mark with id := i } }, i + 1) := rfl

theorem Param.mapM_number_of_numberedAll : ∀ {ps : List Param} {lo hi : Nat},
    Param.NumberedAll ps lo hi → (ps.mapM Param.number).run lo = (ps, hi)
  | [], _, _, h => by
    cases h
    rfl
  | p :: ps, _, _, ⟨rfl, ht, hps⟩ => by
    have ih := Param.mapM_number_of_numberedAll hps
    simp only [List.mapM_cons, Param.number, run_bind_state, run_pure_state, run_freshMark,
      run_number_typeExpr, ← ht]
    rw [ht, ih, ← ht]

mutual

/-- A tree that has its numbers already keeps them. -/
theorem Expr.number_of_numbered : ∀ (e : Expr) {lo hi : Nat}, e.Numbered lo hi →
    e.number.run lo = (e, hi)
  | .absent, _, _, h => by
    cases h
    rw [Expr.number, run_pure_state]
  | .atom .., _, _, ⟨rfl, rfl⟩ | .name .., _, _, ⟨rfl, rfl⟩ => by
    rw [Expr.number, run_bind_state, run_pure_state, run_freshMark]
  | .unary m op arg, _, _, ⟨rfl, h⟩ => by
    simp only [Expr.number, run_bind_state, run_pure_state, run_freshMark, arg.number_of_numbered h]
  | .deref m arg, _, _, ⟨rfl, h⟩ => by
    simp only [Expr.number, run_bind_state, run_pure_state, run_freshMark, arg.number_of_numbered h]
  | .binary m op fst snd, _, _, ⟨rfl, _, h₁, h₂⟩ => by
    simp only [Expr.number, run_bind_state, run_pure_state, run_freshMark,
      fst.number_of_numbered h₁, snd.number_of_numbered h₂]
  | .index m array idx, _, _, ⟨rfl, _, h₁, h₂⟩ => by
    simp only [Expr.number, run_bind_state, run_pure_state, run_freshMark,
      array.number_of_numbered h₁, idx.number_of_numbered h₂]
  | .select m record comp, _, _, ⟨rfl, _, h, rfl, rfl⟩ => by
    simp only [Expr.number, run_bind_state, run_pure_state, run_freshMark,
      record.number_of_numbered h]
  | .call m ident args, _, _, ⟨rfl, h⟩ => by
    simp only [Expr.number, run_bind_state, run_pure_state, run_freshMark,
      Expr.numberAll_of_numberedAll args h]
  | .block m stmts, _, _, ⟨rfl, h⟩ => by
    simp only [Expr.number, run_bind_state, run_pure_state, run_freshMark,
      Stmt.numberAll_of_numberedAll stmts h]
  | .cast m arg type, _, _, ⟨rfl, _, h, rfl, rfl⟩ => by
    simp only [Expr.number, run_bind_state, run_pure_state, run_freshMark, run_number_typeExpr,
      arg.number_of_numbered h]
  | .scope m decls body, _, _, ⟨rfl, _, h₁, h₂⟩ => by
    simp only [Expr.number, run_bind_state, run_pure_state, run_freshMark,
      Decl.numberAll_of_numberedAll decls h₁, body.number_of_numbered h₂]

theorem Expr.numberAll_of_numberedAll : ∀ (es : List Expr) {lo hi : Nat},
    Expr.NumberedAll es lo hi → (Expr.numberAll es).run lo = (es, hi)
  | [], _, _, h => by
    cases h
    rw [Expr.numberAll, run_pure_state]
  | e :: es, _, _, ⟨_, h₁, h₂⟩ => by
    simp only [Expr.numberAll, run_bind_state, run_pure_state, e.number_of_numbered h₁,
      Expr.numberAll_of_numberedAll es h₂]

theorem Stmt.number_of_numbered : ∀ (s : Stmt) {lo hi : Nat}, s.Numbered lo hi →
    s.number.run lo = (s, hi)
  | .absent, _, _, h => by
    cases h
    rw [Stmt.number, run_pure_state]
  | .eval m e, _, _, ⟨rfl, h⟩ => by
    simp only [Stmt.number, run_bind_state, run_pure_state, run_freshMark, e.number_of_numbered h]
  | .assign m dst src, _, _, ⟨rfl, _, h₁, h₂⟩ => by
    simp only [Stmt.number, run_bind_state, run_pure_state, run_freshMark,
      dst.number_of_numbered h₁, src.number_of_numbered h₂]
  | .cond m test yes no, _, _, ⟨rfl, _, _, h₁, h₂, h₃⟩ => by
    simp only [Stmt.number, run_bind_state, run_pure_state, run_freshMark,
      test.number_of_numbered h₁, yes.number_of_numbered h₂, no.number_of_numbered h₃]
  | .loop m test body, _, _, ⟨rfl, _, h₁, h₂⟩ => by
    simp only [Stmt.number, run_bind_state, run_pure_state, run_freshMark,
      test.number_of_numbered h₁, body.number_of_numbered h₂]

theorem Stmt.numberAll_of_numberedAll : ∀ (ss : List Stmt) {lo hi : Nat},
    Stmt.NumberedAll ss lo hi → (Stmt.numberAll ss).run lo = (ss, hi)
  | [], _, _, h => by
    cases h
    rw [Stmt.numberAll, run_pure_state]
  | s :: ss, _, _, ⟨_, h₁, h₂⟩ => by
    simp only [Stmt.numberAll, run_bind_state, run_pure_state, s.number_of_numbered h₁,
      Stmt.numberAll_of_numberedAll ss h₂]

theorem Decl.number_of_numbered : ∀ (d : Decl) {lo hi : Nat}, d.Numbered lo hi →
    d.number.run lo = (d, hi)
  | .fn m name params type body, _, _, ⟨rfl, _, h₁, rfl, h₂⟩ => by
    simp only [Decl.number, run_bind_state, run_pure_state, run_freshMark, run_number_typeExpr,
      Param.mapM_number_of_numberedAll h₁, body.number_of_numbered h₂]
  | .var m name type, _, _, ⟨rfl, ht, rfl⟩ | .typ m name type, _, _, ⟨rfl, ht, rfl⟩
  | .par m name type, _, _, ⟨rfl, ht, rfl⟩ | .comp m name type, _, _, ⟨rfl, ht, rfl⟩ => by
    simp only [Decl.number, run_bind_state, run_pure_state, run_freshMark, run_number_typeExpr,
      ← ht]
    exact congrArg (Prod.mk _) (congrArg (· + 1) ht)

theorem Decl.numberAll_of_numberedAll : ∀ (ds : List Decl) {lo hi : Nat},
    Decl.NumberedAll ds lo hi → (Decl.numberAll ds).run lo = (ds, hi)
  | [], _, _, h => by
    cases h
    rw [Decl.numberAll, run_pure_state]
  | d :: ds, _, _, ⟨_, h₁, h₂⟩ => by
    simp only [Decl.numberAll, run_bind_state, run_pure_state, d.number_of_numbered h₁,
      Decl.numberAll_of_numberedAll ds h₂]

end

/-- **A numbered program** has the numbers from one up to the least free one, and is as complete as
before. -/
theorem Program.number_spec (p : Program) :
    Decl.NumberedAll p.number.decls 1 p.number.nextId ∧
      (Decl.CompleteAll p.decls → Decl.CompleteAll p.number.decls) := by
  obtain ⟨h, hc⟩ := Decl.numberAll_spec p.decls 1
  refine ⟨?_, hc⟩
  have hnext : p.number.nextId = ((Decl.numberAll p.decls).run 1).2 :=
    congrArg Prod.snd (Decl.numberAll_of_numberedAll _ h)
  rw [hnext]
  exact h

end MmixBackend.Source
