import MmixBackend.Source.Reader

/-!
# Programs that are read are complete

Reading goes on behind an error and leaves a hole in the tree. A tree that was read without
diagnostics has no holes but the two that mean something, the body of an external function and a
missing `else`; its operators are known and its constants have the texts that later passes expect.

## Main statements

- `Program.complete_of_ofNode`: a program that has been read is complete.
-/

namespace MmixBackend.Source

/-! ## §1 Complete trees -/

/-- The operator is one of the six known ones. -/
def UnaryOp.Known : UnaryOp → Prop
  | .unknown _ => False
  | _ => True

/-- The operator is one of the thirteen known ones. -/
def BinaryOp.Known : BinaryOp → Prop
  | .unknown _ => False
  | _ => True

/-- The text of a constant is the one that its kind has. -/
def AtomKind.Admits : AtomKind → String → Prop
  | .int, value => ∃ v : Word, value = v.text
  | .char, value => ∃ s : String, s.utf8ByteSize = 1 ∧ value = "'" ++ s ++ "'"
  | .unknown _, _ => False
  | _, _ => True

mutual

/-- Nothing is missing from an expression, its operators are known and its constants well written. -/
def Expr.Complete : Expr → Prop
  | .absent => False
  | .atom _ kind value => kind.Admits value
  | .unary _ op arg => op.Known ∧ arg.Complete
  | .deref _ arg => arg.Complete
  | .binary _ op fst snd => op.Known ∧ fst.Complete ∧ snd.Complete
  | .name _ _ => True
  | .index _ array idx => array.Complete ∧ idx.Complete
  | .select _ record _ => record.Complete
  | .call _ _ args => Expr.CompleteAll args
  | .block _ stmts => Stmt.CompleteAll stmts
  | .cast _ arg _ => arg.Complete
  | .scope _ decls body => Decl.CompleteAll decls ∧ body.Complete

/-- The same for all expressions of a list. -/
def Expr.CompleteAll : List Expr → Prop
  | [] => True
  | e :: es => e.Complete ∧ Expr.CompleteAll es

/-- The same for a statement; only the negative branch of a conditional may be missing. -/
def Stmt.Complete : Stmt → Prop
  | .absent => False
  | .eval _ e => e.Complete
  | .assign _ dst src => dst.Complete ∧ src.Complete
  | .cond _ test yes no => test.Complete ∧ yes.Complete ∧ (no = .absent ∨ no.Complete)
  | .loop _ test body => test.Complete ∧ body.Complete

/-- The same for all statements of a list. -/
def Stmt.CompleteAll : List Stmt → Prop
  | [] => True
  | s :: ss => s.Complete ∧ Stmt.CompleteAll ss

/-- The same for a declaration of a block. The body of a function may be missing. -/
def Decl.Complete : Decl → Prop
  | .fn _ _ _ _ body => body = .absent ∨ body.Complete
  | .var _ _ _ | .typ _ _ _ => True
  | .par _ _ _ | .comp _ _ _ => False

/-- The same for all declarations of a block. -/
def Decl.CompleteAll : List Decl → Prop
  | [] => True
  | d :: ds => d.Complete ∧ Decl.CompleteAll ds

end

theorem Decl.CompleteAll.of_mem : ∀ {ds : List Decl}, Decl.CompleteAll ds → ∀ {d : Decl}, d ∈ ds →
    d.Complete
  | [], _, _, hd => (List.not_mem_nil hd).elim
  | d :: ds, h, _, hd => by
    rcases List.mem_cons.mp hd with rfl | hd
    · exact h.1
    · exact Decl.CompleteAll.of_mem h.2 hd

/-! ## §2 Readings without diagnostics -/

/-- What has been read without diagnostics satisfies `P`. -/
def Reading.Gives {α : Type} (r : Reading α) (P : α → Prop) : Prop :=
  r.diagnostics = [] → P r.value

namespace Reading.Gives

variable {α β : Type} {P : α → Prop} {Q : β → Prop} {r : Reading α}

theorem pure {a : α} (h : P a) : (pure a : Reading α).Gives P := fun _ => h

theorem imp {P' : α → Prop} (h : r.Gives P) (hP : ∀ a, P a → P' a) : r.Gives P' :=
  fun hr => hP _ (h hr)

theorem trivial (r : Reading α) : r.Gives fun _ => True := fun _ => True.intro

theorem bind {f : α → Reading β} (h : r.Gives P) (hf : ∀ a, P a → (f a).Gives Q) :
    (r >>= f).Gives Q := by
  intro hdiag
  obtain ⟨hr, hfr⟩ := List.append_eq_nil_iff.mp hdiag
  exact hf r.value (h hr) hfr

theorem map {f : α → β} (h : r.Gives fun a => Q (f a)) : (f <$> r).Gives Q := by
  intro hdiag
  obtain ⟨hr, -⟩ := List.append_eq_nil_iff.mp hdiag
  exact h hr

/-- After an error nothing is promised. -/
theorem failed {n : Yaml.Node} {cause : Cause} {substitute : α} :
    (Reader.failed n cause substitute).Gives P := fun h => by cases h

end Reading.Gives

/-! ## §3 The reader -/

namespace Reader

open Reading

theorem known_of_unaryOp? {name : String} {op : UnaryOp} (h : unaryOp? name = some op) : op.Known := by
  unfold unaryOp? at h
  split at h <;> cases h <;> exact True.intro

theorem known_of_binaryOp? {name : String} {op : BinaryOp} (h : binaryOp? name = some op) :
    op.Known := by
  unfold binaryOp? at h
  split at h <;> cases h <;> exact True.intro

/-- The operators that names stand for are known. -/
def Operator.Known : Operator → Prop
  | .unary op => op.Known
  | .parts (.binary op) => op.Known
  | _ => True

theorem Operator.known_of_ofName? {name : String} {op : Operator} (h : ofName? name = some op) :
    op.Known := by
  unfold ofName? at h
  split at h
  case h_1 op' _ hop =>
    cases h
    exact known_of_binaryOp? hop
  case h_2 op' _ hop =>
    cases h
    exact known_of_unaryOp? hop
  case h_3 =>
    split at h <;> cases h <;> exact True.intro

theorem scalar_complete (n : Yaml.Node) (tag : Yaml.Tag) (text : String) :
    (scalar n tag text).Gives Expr.Complete := by
  unfold scalar
  cases tag with
  | int =>
    cases hword : Text.readWord .named text with
    | ok v => simpa only [hword] using Gives.pure ⟨v, rfl⟩
    | error e => simpa only [hword] using Gives.failed
  | bool =>
    cases hbool : boolean? text with
    | some b => simpa only [hbool] using Gives.pure True.intro
    | none => simpa only [hbool] using Gives.failed
  | null => exact .pure True.intro
  | _ =>
    dsimp only
    split
    · exact .pure True.intro
    · exact (Gives.trivial (ident n)).bind fun _ _ => .pure True.intro

theorem character_complete (mark : Mark) (n : Yaml.Node) :
    (character mark n).Gives Expr.Complete := by
  unfold character
  split
  · split
    · exact .pure ⟨_, ‹_›, rfl⟩
    · exact .failed
  · exact .failed

theorem string_complete (mark : Mark) (n : Yaml.Node) : (string mark n).Gives Expr.Complete := by
  unfold string
  split
  · exact .pure True.intro
  · exact .failed

mutual

theorem expr_complete : ∀ n : Yaml.Node, (expr n).Gives Expr.Complete
  | .scalar m t style s => by
    rw [expr]
    exact scalar_complete _ _ _
  | .sequence m t items => by
    rw [expr]
    exact (stmts_complete items).bind fun _ h => .pure h
  | .mapping m t [.mk k v] => by
    rw [expr]
    cases hop : Operator.ofName? k.text with
    | none => exact .failed
    | some op =>
      have hknown := Operator.known_of_ofName? hop
      cases op with
      | unary op => exact .map ((expr_complete v).imp fun _ h => ⟨hknown, h⟩)
      | deref => exact .map (expr_complete v)
      | parts op => exact operation_complete _ _ op hknown v
  | .mapping m t [] => by
    rw [expr]
    · exact .failed
    · simp
  | .mapping m t (_ :: _ :: _) => by
    rw [expr]
    · exact .failed
    · simp
  | .reference m a target => by
    rw [expr]
    exact .failed

theorem operation_complete (mark : Mark) (name : String) : ∀ (op : PartsOperator),
    (Operator.parts op).Known → ∀ n : Yaml.Node, (operation mark name op n).Gives Expr.Complete
  -- Which form the operands must have depends on the operator.
  | .char, _, n => by
    rw [operation]
    exact character_complete mark n
  | .str, _, n => by
    rw [operation]
    exact string_complete mark n
  | .binary op, hop, .sequence _ _ [a, b] => by
    rw [operation]
    exact (expr_complete a).bind fun _ ha => (expr_complete b).bind fun _ hb => .pure ⟨hop, ha, hb⟩
  | .index, _, .sequence _ _ [a, b] => by
    rw [operation]
    exact (expr_complete a).bind fun _ ha => (expr_complete b).bind fun _ hb => .pure ⟨ha, hb⟩
  | .field, _, .sequence _ _ [a, b] => by
    rw [operation]
    exact (expr_complete a).bind fun _ ha => (Gives.trivial (ident b)).bind fun _ _ => .pure ha
  | .cast, _, .sequence _ _ [a, b] => by
    rw [operation]
    exact (expr_complete a).bind fun _ ha => (Gives.trivial (typeExpr b)).bind fun _ _ => .pure ha
  | .call, _, .sequence _ _ (f :: args) => by
    rw [operation]
    exact (Gives.trivial (ident f)).bind fun _ _ => (exprs_complete args).bind fun _ h => .pure h
  | .scope, _, .mapping m t entries => by
    rw [operation]
    refine (Gives.trivial (unknownFields _ entries)).bind fun _ _ => ?_
    cases hbody : exprField "expr" entries with
    | none => exact .failed
    | some body =>
      refine (exprField_complete "expr" entries body hbody).bind fun _ hb => ?_
      cases hdecls : declsField "decls" entries with
      | none => exact .pure ⟨True.intro, hb⟩
      | some ds =>
        exact (declsField_complete "decls" entries ds hdecls).bind fun _ hds => .pure ⟨hds, hb⟩
  -- Any other form or number of operands is an error of the reader.
  | .binary _, _, .scalar .. | .binary _, _, .mapping .. | .binary _, _, .reference ..
  | .binary _, _, .sequence _ _ [] | .binary _, _, .sequence _ _ [_]
  | .binary _, _, .sequence _ _ (_ :: _ :: _ :: _)
  | .index, _, .scalar .. | .index, _, .mapping .. | .index, _, .reference ..
  | .index, _, .sequence _ _ [] | .index, _, .sequence _ _ [_]
  | .index, _, .sequence _ _ (_ :: _ :: _ :: _)
  | .field, _, .scalar .. | .field, _, .mapping .. | .field, _, .reference ..
  | .field, _, .sequence _ _ [] | .field, _, .sequence _ _ [_]
  | .field, _, .sequence _ _ (_ :: _ :: _ :: _)
  | .cast, _, .scalar .. | .cast, _, .mapping .. | .cast, _, .reference ..
  | .cast, _, .sequence _ _ [] | .cast, _, .sequence _ _ [_]
  | .cast, _, .sequence _ _ (_ :: _ :: _ :: _)
  | .call, _, .scalar .. | .call, _, .mapping .. | .call, _, .reference ..
  | .call, _, .sequence _ _ []
  | .scope, _, .scalar .. | .scope, _, .sequence .. | .scope, _, .reference .. => by
    rw [operation] <;> first | exact .failed | simp

theorem exprs_complete : ∀ ns : List Yaml.Node, (exprs ns).Gives Expr.CompleteAll
  | [] => by
    rw [exprs]
    exact .pure True.intro
  | n :: ns => by
    rw [exprs]
    exact (expr_complete n).bind fun _ h => (exprs_complete ns).bind fun _ hs => .pure ⟨h, hs⟩

theorem stmt_complete : ∀ n : Yaml.Node, (stmt n).Gives Stmt.Complete
  | .scalar m t style s => by
    rw [stmt]
    exact (scalar_complete _ _ _).bind fun _ h => .pure h
  | .sequence m t items => by
    rw [stmt]
    exact (stmts_complete items).bind fun _ h => .pure h
  | .mapping m t [.mk k v] => by
    rw [stmt]
    split
    · exact assignment_complete _ v
    · exact conditional_complete _ v
    · exact loop_complete _ v
    · refine .map ?_
      cases hop : Operator.ofName? k.text with
      | none => exact .failed
      | some op =>
        have hknown := Operator.known_of_ofName? hop
        cases op with
        | unary op => exact .map ((expr_complete v).imp fun _ h => ⟨hknown, h⟩)
        | deref => exact .map (expr_complete v)
        | parts op => exact operation_complete _ _ op hknown v
  | .mapping m t [] | .mapping m t (_ :: _ :: _) | .reference m a target => by
    rw [stmt] <;> first | exact Gives.failed.bind fun _ h => .pure h | simp

theorem assignment_complete (mark : Mark) : ∀ n : Yaml.Node,
    (assignment mark n).Gives Stmt.Complete
  | .sequence _ _ [a, b] => by
    rw [assignment]
    exact (expr_complete a).bind fun _ ha => (expr_complete b).bind fun _ hb => .pure ⟨ha, hb⟩
  | .scalar .. | .mapping .. | .reference .. | .sequence _ _ [] | .sequence _ _ [_]
  | .sequence _ _ (_ :: _ :: _ :: _) => by
    rw [assignment] <;> first | exact .failed | simp

theorem conditional_complete (mark : Mark) : ∀ n : Yaml.Node,
    (conditional mark n).Gives Stmt.Complete
  | .mapping m t entries => by
    rw [conditional]
    refine (Gives.trivial (unknownFields _ entries)).bind fun _ _ => ?_
    cases htest : exprField "cond" entries with
    | none => exact .failed
    | some test =>
      cases hyes : stmtField "then" entries with
      | none => exact .failed
      | some yes =>
        refine (exprField_complete _ entries test htest).bind fun _ ht => ?_
        refine (stmtField_complete _ entries yes hyes).bind fun _ hy => ?_
        cases hno : stmtField "else" entries with
        | none => exact .pure ⟨ht, hy, .inl rfl⟩
        | some no =>
          exact (stmtField_complete _ entries no hno).bind fun _ hn => .pure ⟨ht, hy, .inr hn⟩
  | .scalar .. | .sequence .. | .reference .. => by
    rw [conditional] <;> first | exact (Gives.trivial _).bind fun _ _ => .failed | simp

theorem loop_complete (mark : Mark) : ∀ n : Yaml.Node, (loop mark n).Gives Stmt.Complete
  | .mapping m t entries => by
    rw [loop]
    refine (Gives.trivial (unknownFields _ entries)).bind fun _ _ => ?_
    cases htest : exprField "cond" entries with
    | none => exact .failed
    | some test =>
      cases hbody : stmtField "do" entries with
      | none => exact .failed
      | some body =>
        refine (exprField_complete _ entries test htest).bind fun _ ht => ?_
        exact (stmtField_complete _ entries body hbody).bind fun _ hb => .pure ⟨ht, hb⟩
  | .scalar .. | .sequence .. | .reference .. => by
    rw [loop] <;> first | exact (Gives.trivial _).bind fun _ _ => .failed | simp

theorem stmts_complete : ∀ ns : List Yaml.Node, (stmts ns).Gives Stmt.CompleteAll
  | [] => by
    rw [stmts]
    exact .pure True.intro
  | n :: ns => by
    rw [stmts]
    refine (stmt_complete n).bind fun s hs => (stmts_complete ns).bind fun rest hrest => .pure ?_
    cases s with
    | absent => exact hrest
    | _ => exact ⟨hs, hrest⟩

theorem decl_complete : ∀ n : Yaml.Node, (decl n).Gives fun d => Decl.CompleteAll d.toList
  | .mapping m t entries => by
    rw [decl]
    refine (Gives.trivial (unknownFields _ entries)).bind fun _ _ => ?_
    dsimp only
    split
    · refine (Gives.trivial _).bind fun _ _ => (Gives.trivial _).bind fun _ _ =>
        (Gives.trivial _).bind fun _ _ => ?_
      cases hbody : exprField "body" entries with
      | none => exact .pure ⟨.inl rfl, True.intro⟩
      | some body =>
        exact (exprField_complete _ entries body hbody).bind fun _ h =>
          .pure ⟨.inr h, True.intro⟩
    · exact (Gives.trivial _).bind fun _ _ => (Gives.trivial _).bind fun _ _ =>
        (Gives.trivial _).bind fun _ _ => .pure ⟨True.intro, True.intro⟩
    · exact (Gives.trivial _).bind fun _ _ => (Gives.trivial _).bind fun _ _ =>
        (Gives.trivial _).bind fun _ _ => .pure ⟨True.intro, True.intro⟩
    · exact .failed
  | .scalar .. | .sequence .. | .reference .. => by
    rw [decl] <;> first | exact .failed | simp

theorem decls_complete : ∀ ns : List Yaml.Node, (decls ns).Gives Decl.CompleteAll
  | [] => by
    rw [decls]
    exact .pure True.intro
  | n :: ns => by
    rw [decls]
    refine (decl_complete n).bind fun d hd => (decls_complete ns).bind fun rest hrest => .pure ?_
    cases d with
    | none => exact hrest
    | some d => exact ⟨hd.1, hrest⟩

theorem declarations_complete : ∀ n : Yaml.Node, (declarations n).Gives Decl.CompleteAll
  | .sequence _ _ items => by
    rw [declarations]
    exact decls_complete items
  | .scalar .. | .mapping .. | .reference .. => by
    rw [declarations] <;> first | exact .failed | simp

theorem exprField_complete (key : String) : ∀ (entries : List Yaml.Entry) (r : Reading Expr),
    exprField key entries = some r → r.Gives Expr.Complete
  | [], r, h => by
    rw [exprField] at h
    cases h
  | .mk k v :: rest, r, h => by
    rw [exprField] at h
    cases hrest : exprField key rest with
    | some r' =>
      simp only [hrest] at h
      exact exprField_complete key rest r (hrest.trans h)
    | none =>
      simp only [hrest, Option.ite_none_right_eq_some, Option.some.injEq] at h
      exact h.2 ▸ expr_complete v

theorem stmtField_complete (key : String) : ∀ (entries : List Yaml.Entry) (r : Reading Stmt),
    stmtField key entries = some r → r.Gives Stmt.Complete
  | [], r, h => by
    rw [stmtField] at h
    cases h
  | .mk k v :: rest, r, h => by
    rw [stmtField] at h
    cases hrest : stmtField key rest with
    | some r' =>
      simp only [hrest] at h
      exact stmtField_complete key rest r (hrest.trans h)
    | none =>
      simp only [hrest, Option.ite_none_right_eq_some, Option.some.injEq] at h
      exact h.2 ▸ stmt_complete v

theorem declsField_complete (key : String) : ∀ (entries : List Yaml.Entry)
    (r : Reading (List Decl)), declsField key entries = some r → r.Gives Decl.CompleteAll
  | [], r, h => by
    rw [declsField] at h
    cases h
  | .mk k v :: rest, r, h => by
    rw [declsField] at h
    cases hrest : declsField key rest with
    | some r' =>
      simp only [hrest] at h
      exact declsField_complete key rest r (hrest.trans h)
    | none =>
      simp only [hrest, Option.ite_none_right_eq_some, Option.some.injEq] at h
      exact h.2 ▸ declarations_complete v

end

end Reader

/-- **A program that has been read is complete.** -/
theorem Program.complete_of_ofNode {n : Yaml.Node} {p : Program} (h : Program.ofNode n = .ok p) :
    Decl.CompleteAll p.decls := by
  unfold Program.ofNode at h
  dsimp only at h
  split at h
  case isTrue hempty =>
    cases h
    have hdiag := List.isEmpty_iff.mp hempty
    cases n with
    | sequence m t items =>
      have hread : (Reader.program (.sequence m t items)).Gives fun p => Decl.CompleteAll p.decls :=
        (Reader.decls_complete items).bind fun _ h => .pure h
      exact hread hdiag
    | _ => cases hdiag
  case isFalse => cases h

end MmixBackend.Source
