import MmixBackend.Proofs.Machine.Structured
import MmixBackend.Proofs.Source.Generation
import MmixBackend.Proofs.Source.Translation

/-!
# Control flow of generated code

A source statement is structured, its code is a flat list with jumps. Below it is said of the code
what the statement means: a conditional evaluates its test and then one of its parts, a loop
alternates between test and body, and a block executes its statements in order, wherever these stand
and however deep they are nested. A statement inside an operand keeps its jumps to itself, since it
is executed in a block of its own; all other statements share a block with their neighbors, and
there no label may occur twice.

## Main statements

- `Expr.structured_of_code`, `Stmt.lowered_of_code`: code behaves like the tree that it is made for.
- `Expr.enclosed_of_code`: no jump leaves the statement of an expression.
- `Generation.control_flow_structured`: both for what generation returns.
-/

namespace MmixBackend

/-! ## §1 Labels that are not repeated -/

namespace Label

/-- The labels are among those numbered from `lo + 1` to `hi`, and none of them occurs twice. -/
def Within (lo hi : Int) (ls : List Label) : Prop :=
  ∃ all : Multiset Label, Taken lo hi all ∧ (ls : Multiset Label) ≤ all

namespace Within

variable {lo hi k : Int} {ls ls' : List Label}

theorem nil (h : lo ≤ hi) : Within lo hi [] := ⟨_, ⟨h, rfl⟩, Multiset.zero_le _⟩

theorem append (h : Within lo k ls) (h' : Within k hi ls') : Within lo hi (ls ++ ls') := by
  obtain ⟨all, htaken, hle⟩ := h
  obtain ⟨all', htaken', hle'⟩ := h'
  exact ⟨all + all', htaken.add htaken', by simpa using add_le_add hle hle'⟩

theorem three (h : Within lo k ls) (heq : (ls' : Multiset Label)
    = ls + {numbered (k + 1), numbered (k + 2), numbered (k + 3)}) : Within lo (k + 3) ls' := by
  obtain ⟨all, htaken, hle⟩ := h
  exact ⟨_, htaken.add (.three k), heq ▸ add_le_add_left hle _⟩

theorem nodup (h : Within lo hi ls) : ls.Nodup := by
  obtain ⟨all, htaken, hle⟩ := h
  exact Multiset.coe_nodup.mp (Multiset.nodup_of_le hle htaken.nodup)

end Within

end Label

theorem IR.Stmt.flattenAll_append (ss ss' : List IR.Stmt) :
    Stmt.flattenAll (ss ++ ss') = Stmt.flattenAll ss ++ Stmt.flattenAll ss' := by
  induction ss with
  | nil => rfl
  | cons s ss ih => rw [List.cons_append, Stmt.flattenAll, ih, Stmt.flattenAll, List.append_assoc]

mutual

theorem IR.Stmt.labelsOf_flatten_sublist : ∀ s : IR.Stmt, (Stmt.labelsOf s.flatten).Sublist s.labels
  | .absent | .eval _ | .move _ _ | .cjump _ _ _ | .jump _ => List.nil_sublist _
  | .label _ => List.Sublist.refl _
  | .seq ss => IR.Stmt.labelsOf_flattenAll_sublist ss

theorem IR.Stmt.labelsOf_flattenAll_sublist : ∀ ss : List IR.Stmt,
    (Stmt.labelsOf (Stmt.flattenAll ss)).Sublist (Stmt.labelsAll ss)
  | [] => List.nil_sublist _
  | s :: ss => by
    rw [Stmt.flattenAll, Stmt.labelsOf_append, Stmt.labelsAll]
    exact s.labelsOf_flatten_sublist.append (IR.Stmt.labelsOf_flattenAll_sublist ss)

end

namespace Source

open Machine (Behavior)
open Generation

variable {t : Attributes} {f : Frame}

/-! ## §2 Labels of code -/

mutual

/-- The code of an expression has the labels that have been taken for it. -/
theorem Expr.within_of_code : ∀ (e : Expr) {lo hi : Int} {c : IR.Expr}, e.Code t f lo hi c →
    Label.Within lo hi c.labels
  | .absent, _, _, _, h => h.elim
  | .atom m kind value, _, _, _, ⟨hlabels, hc⟩ => by
    rw [labels_atom hc]
    exact .nil hlabels.ge
  | .unary m op arg, _, _, _, ⟨a, ha, hc⟩ => by
    rw [labels_unary hc]
    exact arg.within_of_code ha
  | .deref m arg, _, _, _, ⟨a, ha, hc⟩ => by
    subst hc
    have h := arg.within_of_code ha
    exact h
  | .binary m op fst snd, _, _, _, ⟨k, a, b, o, ha, hb, _, hc⟩ => by
    subst hc
    exact (fst.within_of_code ha).append (snd.within_of_code hb)
  | .name m ident, _, _, _, ⟨hlabels, hc⟩ => by
    rw [labels_name hc]
    exact .nil hlabels.ge
  | .index m array idx, _, _, _, ⟨k, base, i, ty, harray, hidx, _, hc⟩ => by
    subst hc
    have hall := (array.within_of_code harray).append (idx.within_of_code hidx)
    simpa [IR.Expr.labels] using hall
  | .select m record comp, _, _, _, ⟨base, dm, name, type, offset, hrecord, _, _, hc⟩ => by
    subst hc
    have h := record.within_of_code hrecord
    rwa [labels_location]
  | .call m ident args, _, _, _, ⟨fm, name, params, type, body, callee, offs, codes, _, _, _,
      hargs, hc⟩ => by
    subst hc
    rw [IR.Expr.labels, IR.Expr.labelsAll, staticLink, labels_frameAddr]
    exact Expr.within_of_codeAll args hargs
  | .block m ss, _, _, _, ⟨codes, hss, hc⟩ => by
    subst hc
    rw [labels_blockValue]
    exact Stmt.within_of_codeAll ss hss
  | .cast m arg type, _, _, _, ⟨a, ha, hc⟩ => by
    rw [labels_cast hc]
    exact arg.within_of_code ha
  | .scope m ds body, _, _, _, ⟨k, hk, hbody⟩ => (Label.Within.nil hk).append (body.within_of_code hbody)

theorem Expr.within_of_codeAll : ∀ (es : List Expr) {ps : List Param} {lo hi : Int} {offs : List Word}
    {cs : List IR.Expr}, Expr.CodeAll t f es ps lo hi offs cs → Label.Within lo hi (IR.Expr.labelsAll cs)
  | [], _, _, _, _, _, ⟨hlabels, _, hc⟩ => by
    subst hc
    exact .nil hlabels.ge
  | _ :: _, [], _, _, _, _, h => h.elim
  | e :: es, _ :: _, _, _, _, _, ⟨k, off, c, offs, cs, _, he, hes, _, hc⟩ => by
    subst hc
    exact (e.within_of_code he).append (Expr.within_of_codeAll es hes)

theorem Stmt.within_of_code : ∀ (s : Stmt) {lo hi : Int} {c : IR.Stmt}, s.Code t f lo hi c →
    Label.Within lo hi c.labels
  | .absent, _, _, _, ⟨hlabels, hc⟩ => by
    subst hc
    exact .nil hlabels.ge
  | .eval m e, _, _, _, ⟨a, ha, hc⟩ => by
    subst hc
    exact e.within_of_code ha
  | .assign m dst src, _, _, _, ⟨k, a, b, ha, hb, hc⟩ => by
    subst hc
    exact (dst.within_of_code ha).append (src.within_of_code hb)
  | .cond m test yes no, _, _, _, ⟨j, k, l, a, b, b', ha, hb, hb', hhi, hc⟩ => by
    subst hhi hc
    have hparts := ((test.within_of_code ha).append (yes.within_of_code hb)).append
      (no.within_of_code hb')
    exact hparts.three (labels_conditionalCode l a b b')
  | .loop m test body, _, _, _, ⟨j, k, a, b, ha, hb, hhi, hc⟩ => by
    subst hhi hc
    exact ((test.within_of_code ha).append (body.within_of_code hb)).three (labels_loopCode k a b)

theorem Stmt.within_of_codeAll : ∀ (ss : List Stmt) {lo hi : Int} {cs : List IR.Stmt},
    Stmt.CodeAll t f ss lo hi cs → Label.Within lo hi (IR.Stmt.labelsAll cs)
  | [], _, _, _, ⟨hlabels, hc⟩ => by
    subst hc
    exact .nil hlabels.ge
  | s :: ss, _, _, _, ⟨k, c, cs, hs, hss, hc⟩ => by
    subst hc
    exact (s.within_of_code hs).append (Stmt.within_of_codeAll ss hss)

end

/-- No label occurs twice in the code of statements. -/
theorem Stmt.nodup_of_codeAll {ss : List Stmt} {lo hi : Int} {cs : List IR.Stmt}
    (h : Stmt.CodeAll t f ss lo hi cs) : (IR.Stmt.labelsOf (IR.Stmt.flattenAll cs)).Nodup :=
  (Stmt.within_of_codeAll ss h).nodup.sublist (IR.Stmt.labelsOf_flattenAll_sublist cs)

/-- No label occurs twice in the code of a statement. -/
theorem Stmt.nodup_of_code {s : Stmt} {lo hi : Int} {c : IR.Stmt} (h : s.Code t f lo hi c) :
    (IR.Stmt.labelsOf c.flatten).Nodup :=
  (s.within_of_code h).nodup.sublist c.labelsOf_flatten_sublist

/-! ## §3 Enclosed jumps -/

theorem enclosed_frameAddr (f : Frame) (hops : Nat) : (frameAddr f hops).Enclosed := by
  induction hops with
  | zero => trivial
  | succ hops ih => exact ih

theorem enclosed_location {base : IR.Expr} (h : base.Enclosed) (offset : Word) :
    (location base offset).Enclosed := ⟨h, trivial⟩

theorem enclosed_atom {m : Mark} {kind : AtomKind} {value : String} {c : IR.Expr}
    (h : AtomCode t m value kind c) : c.Enclosed := by
  cases h with
  | char hchar =>
    unfold charConstant at hchar
    dsimp only at hchar
    split at hchar
    · cases hchar
      trivial
    · cases hchar
  | _ => trivial

theorem enclosed_name {m : Mark} {c : IR.Expr} (h : NameCode t f m c) : c.Enclosed := by
  cases h with
  | call => exact ⟨enclosed_frameAddr _ _, trivial⟩
  | static => trivial
  | relative => exact enclosed_location (enclosed_frameAddr _ _) _

theorem enclosed_unary {op : UnaryOp} {a c : IR.Expr} (h : unary op a = .ok c) (ha : a.Enclosed) :
    c.Enclosed := by
  cases op with
  | pos | neg | not =>
    cases h
    exact ha
  | addr =>
    obtain rfl := addressOf_eq_ok h
    exact ha
  | new | del =>
    cases h
    exact ⟨ha, trivial⟩
  | unknown code => cases h

theorem enclosed_cast {type : TypeExpr} {a c : IR.Expr} (h : CastCode t type a c) (ha : a.Enclosed) :
    c.Enclosed := by
  cases h with
  | char => exact ⟨ha, trivial⟩
  | other => exact ha

theorem enclosedAll_iff {ss : List IR.Stmt} : IR.Stmt.EnclosedAll ss ↔ ∀ s ∈ ss, s.Enclosed := by
  induction ss with
  | nil => simp [IR.Stmt.EnclosedAll]
  | cons s ss ih => simp [IR.Stmt.EnclosedAll, ih]

theorem closed_seq {ss : List IR.Stmt} (h : ∀ s ∈ ss, s.Closed) : (IR.Stmt.seq ss).Closed :=
  .seq fun s hs l hl => ⟨s, hs, h s hs l hl⟩

theorem enclosed_blockValue {ss : List IR.Stmt} (h : ∀ s ∈ ss, s.Enclosed ∧ s.Closed) :
    (blockValue ss).Enclosed := by
  have hsexpr : ∀ {ss' : List IR.Stmt} {e : IR.Expr}, (∀ s ∈ ss', s ∈ ss) → e.Enclosed →
      (IR.Expr.sexpr (.seq ss') e).Enclosed := fun hss he =>
    ⟨enclosedAll_iff.mpr fun s hs => (h s (hss s hs)).1, closed_seq fun s hs => (h s (hss s hs)).2, he⟩
  unfold blockValue
  split
  · next e hlast =>
    exact hsexpr (fun s hs => List.dropLast_subset ss hs) (h _ (List.mem_of_getLast? hlast)).1
  · exact hsexpr (fun _ hs => hs) trivial

theorem closed_conditionalCode (n : Int) (test : IR.Expr) {yes no : IR.Stmt} (hyes : yes.Closed)
    (hno : no.Closed) : (conditionalCode n test yes no).Closed := by
  refine .seq (closed_parts [.numbered (n + 1), .numbered (n + 2), .numbered (n + 3)] (by simp) ?_)
  simp only [List.forall_mem_cons]
  refine ⟨.inr ?_, .inl (closed_label _), .inl hyes, .inr ?_, .inl (closed_label _), .inl hno,
    .inl (closed_label _), by simp⟩
  · simp [IR.Stmt.flatten, IR.Stmt.targetsOf]
  · simp [IR.Stmt.flatten, IR.Stmt.targetsOf]

theorem closed_loopCode (n : Int) (test : IR.Expr) {body : IR.Stmt} (hbody : body.Closed) :
    (loopCode n test body).Closed := by
  refine .seq (closed_parts [.numbered (n + 1), .numbered (n + 2), .numbered (n + 3)] (by simp) ?_)
  simp only [List.forall_mem_cons]
  refine ⟨.inl (closed_label _), .inr ?_, .inl (closed_label _), .inl hbody, .inr ?_,
    .inl (closed_label _),
    by simp⟩
  · simp [IR.Stmt.flatten, IR.Stmt.targetsOf]
  · simp [IR.Stmt.flatten, IR.Stmt.targetsOf]

mutual

/-- No jump leaves the statement of an expression that it has been generated for. -/
theorem Expr.enclosed_of_code : ∀ (e : Expr) {lo hi : Int} {c : IR.Expr}, e.Code t f lo hi c → c.Enclosed
  | .absent, _, _, _, h => h.elim
  | .atom _ _ _, _, _, _, ⟨_, hc⟩ => enclosed_atom hc
  | .unary _ _ arg, _, _, _, ⟨_, ha, hc⟩ => enclosed_unary hc (arg.enclosed_of_code ha)
  | .deref _ arg, _, _, _, ⟨a, ha, hc⟩ => by
    have h := arg.enclosed_of_code ha
    subst hc
    exact h
  | .binary _ _ fst snd, _, _, _, ⟨_, _, _, _, ha, hb, _, hc⟩ => by
    subst hc
    exact ⟨fst.enclosed_of_code ha, snd.enclosed_of_code hb⟩
  | .name _ _, _, _, _, ⟨_, hc⟩ => enclosed_name hc
  | .index _ array idx, _, _, _, ⟨_, _, _, _, harray, hidx, _, hc⟩ => by
    have h := array.enclosed_of_code harray
    subst hc
    exact ⟨h, idx.enclosed_of_code hidx, trivial⟩
  | .select _ record _, _, _, _, ⟨_, _, _, _, _, hrecord, _, _, hc⟩ => by
    have h := record.enclosed_of_code hrecord
    subst hc
    exact enclosed_location h _
  | .call _ _ args, _, _, _, ⟨_, _, _, _, _, _, _, _, _, _, _, hargs, hc⟩ => by
    subst hc
    exact ⟨enclosed_frameAddr _ _, Expr.enclosed_of_codeAll args hargs⟩
  | .block _ ss, _, _, _, ⟨_, hss, hc⟩ => by
    subst hc
    exact enclosed_blockValue (Stmt.enclosed_of_codeAll ss hss)
  | .cast _ arg _, _, _, _, ⟨_, ha, hc⟩ => enclosed_cast hc (arg.enclosed_of_code ha)
  | .scope _ _ body, _, _, _, ⟨_, _, hbody⟩ => body.enclosed_of_code hbody

theorem Expr.enclosed_of_codeAll : ∀ (es : List Expr) {ps : List Param} {lo hi : Int} {offs : List Word}
    {cs : List IR.Expr}, Expr.CodeAll t f es ps lo hi offs cs → IR.Expr.EnclosedAll cs
  | [], _, _, _, _, _, ⟨_, _, hc⟩ => by
    subst hc
    trivial
  | _ :: _, [], _, _, _, _, h => h.elim
  | e :: es, _ :: _, _, _, _, _, ⟨_, _, _, _, _, _, he, hes, _, hc⟩ => by
    subst hc
    exact ⟨e.enclosed_of_code he, Expr.enclosed_of_codeAll es hes⟩

/-- The same for a statement, whose own jumps lead to labels of its own. -/
theorem Stmt.enclosed_of_code : ∀ (s : Stmt) {lo hi : Int} {c : IR.Stmt}, s.Code t f lo hi c →
    c.Enclosed ∧ c.Closed
  | .absent, _, _, _, ⟨_, hc⟩ => by
    subst hc
    exact ⟨trivial, closed_seq (by simp)⟩
  | .eval _ e, _, _, _, ⟨_, ha, hc⟩ => by
    subst hc
    exact ⟨e.enclosed_of_code ha, fun _ hl => (List.not_mem_nil hl).elim⟩
  | .assign _ dst src, _, _, _, ⟨_, _, _, ha, hb, hc⟩ => by
    subst hc
    exact ⟨⟨dst.enclosed_of_code ha, src.enclosed_of_code hb⟩, fun _ hl => (List.not_mem_nil hl).elim⟩
  | .cond _ test yes no, _, _, _, ⟨_, _, l, a, b, b', ha, hb, hb', _, hc⟩ => by
    subst hc
    have hyes := yes.enclosed_of_code hb
    have hno := no.enclosed_of_code hb'
    exact ⟨⟨test.enclosed_of_code ha, trivial, hyes.1, trivial, trivial, hno.1, trivial, trivial⟩,
      closed_conditionalCode l a hyes.2 hno.2⟩
  | .loop _ test body, _, _, _, ⟨_, k, a, b, ha, hb, _, hc⟩ => by
    subst hc
    have hbody := body.enclosed_of_code hb
    exact ⟨⟨trivial, test.enclosed_of_code ha, trivial, hbody.1, trivial, trivial, trivial⟩,
      closed_loopCode k a hbody.2⟩

theorem Stmt.enclosed_of_codeAll : ∀ (ss : List Stmt) {lo hi : Int} {cs : List IR.Stmt},
    Stmt.CodeAll t f ss lo hi cs → ∀ c ∈ cs, c.Enclosed ∧ c.Closed
  | [], _, _, _, ⟨_, hc⟩ => by
    subst hc
    simp
  | s :: ss, _, _, _, ⟨_, _, _, hs, hss, hc⟩ => by
    subst hc
    exact List.forall_mem_cons.mpr ⟨s.enclosed_of_code hs, Stmt.enclosed_of_codeAll ss hss⟩

end

/-! ## §4 Structured code -/

/-- Executes statements in order, given with their code. The value is that of the last one if it is an
expression statement, and zero otherwise. -/
def blockBehavior (m : Machine) : List Stmt → List IR.Stmt → Behavior Word
  | [.eval _ _], [.eval a] => m.evaluation a
  | _ :: ss, c :: cs => do
    m.execution c
    blockBehavior m ss cs
  | _, _ => return 0

mutual

/-- The code of an expression, described without labels. What a block does is said by what its statements
do. -/
def Expr.Structured (t : Attributes) (f : Frame) (m : Machine) : Expr → IR.Expr → Prop
  | .absent, _ => False
  | .atom mark kind value, c => AtomCode t mark value kind c
  | .unary _ op arg, c => ∃ a, arg.Structured t f m a ∧ unary op a = .ok c
  | .deref _ arg, c => ∃ a, arg.Structured t f m a ∧ c = .mem a
  | .binary _ op fst snd, c => ∃ a b o,
    fst.Structured t f m a ∧ snd.Structured t f m b ∧ binaryOp op = .ok o ∧ c = .binop o a b
  | .name mark _, c => NameCode t f mark c
  | .index mark array idx, c => ∃ base i ty,
    array.Structured t f m (.mem base) ∧ idx.Structured t f m i ∧ t.ofType[mark.id]? = some ty ∧
      c = .mem (.binop .add base (.binop .mul i (.const (t.sizeOf ty))))
  | .select _ record comp, c => ∃ base dm name type offset,
    record.Structured t f m (.mem base) ∧ t.declaredAt[comp.mark.id]? = some (.comp dm name type) ∧
      t.OffsetAt dm.id offset ∧ c = location base offset
  | .call mark _ args, c => ∃ fm name params type body callee offs codes,
    t.declaredAt[mark.id]? = some (.fn fm name params type body) ∧ t.frames[fm.id]? = some callee ∧
      Expr.StructuredAll t f m args codes ∧ c = .call callee.label (0 :: offs)
        (staticLink f callee :: codes)
  | .block _ ss, c =>
    ∃ codes, Stmt.StructuredAll t f m ss codes ∧ m.evaluation c = blockBehavior m ss codes
  | .cast _ arg type, c => ∃ a, arg.Structured t f m a ∧ CastCode t type a c
  | .scope _ _ body, c => body.Structured t f m c

/-- The same for arguments. -/
def Expr.StructuredAll (t : Attributes) (f : Frame) (m : Machine) : List Expr → List IR.Expr → Prop
  | [], cs => cs = []
  | e :: es, cs => ∃ c cs', e.Structured t f m c ∧ Expr.StructuredAll t f m es cs' ∧ cs = c :: cs'

/-- The code of a statement, described by what it does. -/
def Stmt.Structured (t : Attributes) (f : Frame) (m : Machine) : Stmt → IR.Stmt → Prop
  | .absent, c => m.execution c = pure ()
  | .eval _ e, c => ∃ a, e.Structured t f m a ∧ c = .eval a ∧
    m.execution c = (do Behavior.count m; let _ ← m.evaluation a; return ())
  | .assign _ dst src, c => ∃ a b, dst.Structured t f m a ∧ src.Structured t f m b ∧
    m.execution c = m.assignment a b
  | .cond _ test yes no, c => ∃ a b b',
    test.Structured t f m a ∧ yes.Structured t f m b ∧ no.Structured t f m b' ∧
      m.execution c = m.branch (m.evaluation a) (m.execution b) (m.execution b')
  | .loop _ test body, c => ∃ a b, test.Structured t f m a ∧ body.Structured t f m b ∧
    m.execution c = m.loop (m.evaluation a) (m.execution b)

/-- The same for statements in order. -/
def Stmt.StructuredAll (t : Attributes) (f : Frame) (m : Machine) : List Stmt → List IR.Stmt → Prop
  | [], cs => cs = []
  | s :: ss, cs => ∃ c cs', s.Structured t f m c ∧ Stmt.StructuredAll t f m ss cs' ∧ cs = c :: cs'

end

/-- Only expression statements have the code of one. -/
theorem Stmt.eval_of_code {s : Stmt} {lo hi : Int} {a : IR.Expr} (h : s.Code t f lo hi (.eval a)) :
    ∃ m e, s = .eval m e := by
  cases s with
  | absent => cases h.2
  | eval m e => exact ⟨m, e, rfl⟩
  | assign =>
    obtain ⟨_, _, _, _, _, hc⟩ := h
    cases hc
  | cond =>
    obtain ⟨_, _, _, _, _, _, _, _, _, _, hc⟩ := h
    cases hc
  | loop =>
    obtain ⟨_, _, _, _, _, _, _, hc⟩ := h
    cases hc

/-- What a block does can be read off its code, which ends with an expression statement if the block
does. -/
theorem blockBehavior_eq (m : Machine) : ∀ (ss : List Stmt) {lo hi : Int} {cs : List IR.Stmt},
    Stmt.CodeAll t f ss lo hi cs → blockBehavior m ss cs =
      match cs.getLast? with
      | some (.eval a) => do
        m.executionAll cs.dropLast
        m.evaluation a
      | _ => do
        m.executionAll cs
        return 0
  | [], _, _, _, ⟨_, hc⟩ => by
    subst hc
    simp [blockBehavior, Machine.executionAll]
  | [s], _, _, _, ⟨_, c, _, hs, ⟨_, hnone⟩, hc⟩ => by
    subst hnone hc
    -- A single statement is the last one, and its code shows whether it is an expression.
    cases c with
    | eval a =>
      obtain ⟨_, _, rfl⟩ := Stmt.eval_of_code hs
      simp [blockBehavior, Machine.executionAll]
    | _ => simp [blockBehavior, Machine.executionAll]
  | s :: s' :: ss, _, _, _, ⟨_, c, _, hs, hss, hc⟩ => by
    obtain ⟨_, c', cs, hs', hss', rfl⟩ := hss
    subst hc
    have hrest := blockBehavior_eq m (s' :: ss) ⟨_, c', cs, hs', hss', rfl⟩
    rw [blockBehavior, hrest, List.getLast?_cons_cons, List.dropLast_cons_cons]
    · split <;> simp [Machine.executionAll]
    · simp

variable (m : Machine)

/-- The code of a statement is structured, and it behaves in the same way everywhere. -/
structure Stmt.Lowered (t : Attributes) (f : Frame) (m : Machine) (s : Stmt) (c : IR.Stmt) : Prop where
  structured : s.Structured t f m c
  implements : m.Implements c (m.execution c)

/-- A statement is lowered if its code has some behavior everywhere, since this is what it does by
itself. -/
theorem Stmt.lowered {s : Stmt} {lo hi : Int} {c : IR.Stmt} {B : Behavior Unit}
    (hcode : s.Code t f lo hi c) (himp : m.Implements c B)
    (hs : m.execution c = B → s.Structured t f m c) : s.Lowered t f m c := by
  have heq := himp.execution_eq (Stmt.nodup_of_code hcode)
  exact ⟨hs heq, heq ▸ himp⟩

theorem blockValue_of_eval {cs : List IR.Stmt} {a : IR.Expr} (h : cs.getLast? = some (.eval a)) :
    blockValue cs = .sexpr (.seq cs.dropLast) a := by
  rw [blockValue, h]

theorem blockValue_of_other {cs : List IR.Stmt} (h : ∀ a, cs.getLast? ≠ some (.eval a)) :
    blockValue cs = .sexpr (.seq cs) (.const 0) := by
  unfold blockValue
  split
  · next a hlast => exact absurd hlast (h a)
  · rfl

/-- The code of a block evaluates like its statements. -/
theorem evaluation_blockValue {ss : List Stmt} {lo hi : Int} {cs : List IR.Stmt}
    (hcode : Stmt.CodeAll t f ss lo hi cs) (h : ∀ c ∈ cs, m.Implements c (m.execution c)) :
    m.evaluation (blockValue cs) = blockBehavior m ss cs := by
  rw [blockBehavior_eq m ss hcode]
  have hnodup := Stmt.nodup_of_codeAll hcode
  by_cases hlast : ∃ a, cs.getLast? = some (.eval a)
  · obtain ⟨a, hlast⟩ := hlast
    have hinit := Machine.Implements.seq fun c hc => h c (List.dropLast_subset cs hc)
    rw [blockValue_of_eval hlast, hlast]
    refine hinit.evaluation_sexpr ?_ a
    have hsplit := List.dropLast_append_getLast? _ hlast
    rw [← hsplit, IR.Stmt.flattenAll_append, IR.Stmt.labelsOf_append] at hnodup
    exact hnodup.sublist (List.sublist_append_left _ _)
  · have hother : ∀ a, cs.getLast? ≠ some (.eval a) := fun a ha => hlast ⟨a, ha⟩
    rw [blockValue_of_other hother, (Machine.Implements.seq h).evaluation_sexpr hnodup,
      Machine.evaluation_const]
    split
    · next a hlast => exact absurd hlast (hother a)
    · rfl

mutual

/-- **The code of an expression is structured.** -/
theorem Expr.structured_of_code : ∀ (e : Expr) {lo hi : Int} {c : IR.Expr}, e.Code t f lo hi c →
    e.Structured t f m c
  | .absent, _, _, _, h => h
  | .atom _ _ _, _, _, _, ⟨_, hc⟩ => hc
  | .unary _ _ arg, _, _, _, ⟨a, ha, hc⟩ => ⟨a, arg.structured_of_code ha, hc⟩
  | .deref _ arg, _, _, _, ⟨a, ha, hc⟩ => ⟨a, arg.structured_of_code ha, hc⟩
  | .binary _ _ fst snd, _, _, _, ⟨_, a, b, o, ha, hb, ho, hc⟩ =>
    ⟨a, b, o, fst.structured_of_code ha, snd.structured_of_code hb, ho, hc⟩
  | .name _ _, _, _, _, ⟨_, hc⟩ => hc
  | .index _ array idx, _, _, _, ⟨_, base, i, ty, harray, hidx, hty, hc⟩ =>
    ⟨base, i, ty, array.structured_of_code harray, idx.structured_of_code hidx, hty, hc⟩
  | .select _ record _, _, _, _, ⟨base, dm, name, type, offset, hrecord, hbound, hoffset, hc⟩ =>
    ⟨base, dm, name, type, offset, record.structured_of_code hrecord, hbound, hoffset, hc⟩
  | .call _ _ args, _, _, _,
      ⟨fm, name, params, type, body, callee, offs, codes, hbound, hframe, _, hargs, hc⟩ =>
    ⟨fm, name, params, type, body, callee, offs, codes, hbound, hframe,
      Expr.structured_of_codeAll args hargs,
      hc⟩
  | .block _ ss, _, _, _, ⟨codes, hss, hc⟩ => by
    have hall := Stmt.lowered_of_codeAll ss hss
    subst hc
    exact ⟨codes, hall.1, evaluation_blockValue m hss hall.2⟩
  | .cast _ arg _, _, _, _, ⟨a, ha, hc⟩ => ⟨a, arg.structured_of_code ha, hc⟩
  | .scope _ _ body, _, _, _, ⟨_, _, hbody⟩ => body.structured_of_code hbody

theorem Expr.structured_of_codeAll : ∀ (es : List Expr) {ps : List Param} {lo hi : Int} {offs : List Word}
    {cs : List IR.Expr}, Expr.CodeAll t f es ps lo hi offs cs → Expr.StructuredAll t f m es cs
  | [], _, _, _, _, _, ⟨_, _, hc⟩ => hc
  | _ :: _, [], _, _, _, _, h => h.elim
  | e :: es, _ :: _, _, _, _, _, ⟨_, _, c, _, cs, _, he, hes, _, hc⟩ =>
    ⟨c, cs, e.structured_of_code he, Expr.structured_of_codeAll es hes, hc⟩

/-- **The code of a statement is structured**, and it behaves like this everywhere. -/
theorem Stmt.lowered_of_code : ∀ (s : Stmt) {lo hi : Int} {c : IR.Stmt}, s.Code t f lo hi c →
    s.Lowered t f m c
  | .absent, _, _, _, h => by
    refine Stmt.lowered m h ?_ id
    rw [h.2]
    exact .nil m
  | .eval _ e, _, _, _, h => by
    obtain ⟨a, ha, rfl⟩ := id h
    exact Stmt.lowered m h (.eval m a) fun heq => ⟨a, e.structured_of_code ha, rfl, heq⟩
  | .assign _ dst src, _, _, _, h => by
    obtain ⟨_, a, b, ha, hb, rfl⟩ := id h
    exact Stmt.lowered m h (.move m a b) fun heq =>
      ⟨a, b, dst.structured_of_code ha, src.structured_of_code hb, heq⟩
  | .cond _ test yes no, _, _, _, h => by
    obtain ⟨_, _, _, a, b, b', ha, hb, hb', _, rfl⟩ := id h
    have hyes := yes.lowered_of_code hb
    have hno := no.lowered_of_code hb'
    exact Stmt.lowered m h (.branch hyes.implements hno.implements) fun heq =>
      ⟨a, b, b', test.structured_of_code ha, hyes.structured, hno.structured, heq⟩
  | .loop _ test body, _, _, _, h => by
    obtain ⟨_, _, a, b, ha, hb, _, rfl⟩ := id h
    have hbody := body.lowered_of_code hb
    exact Stmt.lowered m h (.loop hbody.implements) fun heq =>
      ⟨a, b, test.structured_of_code ha, hbody.structured, heq⟩

theorem Stmt.lowered_of_codeAll : ∀ (ss : List Stmt) {lo hi : Int} {cs : List IR.Stmt},
    Stmt.CodeAll t f ss lo hi cs →
      Stmt.StructuredAll t f m ss cs ∧ ∀ c ∈ cs, m.Implements c (m.execution c)
  | [], _, _, _, ⟨_, hc⟩ => by
    subst hc
    exact ⟨rfl, by simp⟩
  | s :: ss, _, _, _, ⟨_, c, cs, hs, hss, hc⟩ => by
    subst hc
    have hfirst := s.lowered_of_code hs
    have hrest := Stmt.lowered_of_codeAll ss hss
    exact ⟨⟨c, cs, hfirst.structured, hrest.1, rfl⟩, List.forall_mem_cons.mpr
      ⟨hfirst.implements, hrest.2⟩⟩

end

namespace Generation

/-- **Control flow of generated code.** Whatever the machine and its state, the code of a statement
does what the statement says, at any place where it stands, and no jump in it leaves the statement
of an expression. -/
theorem control_flow_structured (m : Machine) (f : Frame) (w : Workspace) (lo hi : Nat) :
    (∀ s : Stmt, s.Numbered lo hi → Ensures (stmt f s) w fun c _ =>
      s.Structured w.attrs f m c ∧ m.Implements c (m.execution c) ∧ c.Enclosed ∧ c.Closed) ∧
    ∀ e : Expr, e.Numbered lo hi → Ensures (expr f e) w fun c _ =>
      e.Structured w.attrs f m c ∧ c.Enclosed := by
  have huses : Uses w.attrs w := ⟨rfl⟩
  constructor
  · intro s hnum
    refine (stmt_code s hnum huses).imp fun c w' hc => ?_
    have hlowered := s.lowered_of_code m hc.code
    exact ⟨hlowered.structured, hlowered.implements, s.enclosed_of_code hc.code⟩
  · intro e hnum
    refine (expr_code e hnum huses).imp fun c w' hc => ?_
    exact ⟨e.structured_of_code m hc.code, e.enclosed_of_code hc.code⟩

/-- A loop whose test contains a conditional. -/
def testedLoop : Stmt :=
  let mark (id : Nat) : Mark := ⟨id, default⟩
  .loop (mark 0)
    (.block (mark 1)
      [.cond (mark 2) (.atom (mark 3) .bool "true") (.eval (mark 4) (.atom (mark 5) .void "")) .absent,
        .eval (mark 6) (.atom (mark 7) .bool "false")])
    (.eval (mark 8) (.block (mark 9) []))

/-- The code of this loop, on a machine without functions. -/
theorem control_flow_structured_testedLoop : testedLoop.Numbered 0 10 ∧
    ∃ c w', (stmt default testedLoop).run.run {} = (.ok c, w') ∧
      testedLoop.Structured {} default {} c ∧ Machine.Implements {} c (Machine.execution {} c) ∧
        c.Enclosed ∧ c.Closed := by
  have hnum : testedLoop.Numbered 0 10 := by
    simp [testedLoop, Stmt.Numbered, Expr.Numbered, Stmt.NumberedAll]
  refine ⟨hnum, _, _, rfl, ?_⟩
  exact (control_flow_structured {} default {} 0 10).1 testedLoop hnum _ _ rfl

end Generation

end Source

end MmixBackend
