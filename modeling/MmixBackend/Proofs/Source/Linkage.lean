import MmixBackend.Proofs.Machine.Safety
import MmixBackend.Proofs.Source.Binding

/-!
# What generated code mentions

The code of an expression takes the addresses of global variables and string constants and calls functions
of the program and runtime routines, and no other labels. So whatever provides these is enough to run it.

## Main statements

- `Expr.linked_of_code`: the code of an expression mentions what the program declares.
-/

namespace MmixBackend.Source

open Generation

/-! ## §1 Labels in code -/

/-- The labels of the program with the nodes `ns` satisfy `names` and `callees`: the former if they
are those of data, the latter if they are those of functions and of the routines behind operators.
-/
structure Linkage (t : Attributes) (ns : List Node) (names callees : Label → Prop) : Prop where
  functions : ∀ m name params type body f, .decl (.fn m name params type body) ∈ ns →
    t.frames[m.id]? = some f → callees f.label
  globals : ∀ d data, .decl d ∈ ns → d.IsVariable → t.accesses[d.id]? = some (.static data) →
    names data.label
  strings : ∀ m kind value data, .expr (.atom m kind value) ∈ ns → t.strings[m.id]? = some data →
    names data.label
  new : callees (.global "new")
  del : callees (.global "del")

variable {t : Attributes} {ns : List Node} {names callees : Label → Prop}

theorem linked_frameAddr (f : Frame) (hops : Nat) : (frameAddr f hops).Linked names callees := by
  induction hops with
  | zero => trivial
  | succ hops ih => exact ih

theorem linked_unary (h : Linkage t ns names callees) {op : UnaryOp} {a c : IR.Expr}
    (ha : a.Linked names callees) (hc : unary op a = .ok c) : c.Linked names callees := by
  cases op with
  | pos | neg | not =>
    cases hc
    exact ha
  | addr =>
    obtain rfl := addressOf_eq_ok hc
    exact ha
  | new =>
    cases hc
    exact ⟨h.new, ha, trivial⟩
  | del =>
    cases hc
    exact ⟨h.del, ha, trivial⟩
  | unknown code => cases hc

theorem linked_blockValue {ss : List IR.Stmt} (h : ∀ s ∈ ss, s.Linked names callees) :
    (blockValue ss).Linked names callees := by
  unfold blockValue
  split
  · next e hlast =>
    have he : (IR.Stmt.eval e).Linked names callees := h _ (List.mem_of_getLast? hlast)
    exact ⟨IR.Stmt.linkedAll_iff.mpr fun s hs => h s (List.dropLast_subset ss hs), he⟩
  · exact ⟨IR.Stmt.linkedAll_iff.mpr h, trivial⟩

mutual

/-- **The code of an expression mentions what the program declares.** -/
theorem Expr.linked_of_code (hlink : Linkage t ns names callees) (hbound : ∀ n ∈ ns, n.Bound t ns)
    {f : Frame} : ∀ (e : Expr) {lo hi : Int} {c : IR.Expr}, (∀ n ∈ e.walk everywhere, n ∈ ns) →
    e.Code t f lo hi c → c.Linked names callees
  | .absent, _, _, _, _, hc => hc.elim
  | .atom m kind value, _, _, _, hns, ⟨_, hc⟩ => by
    rw [Expr.walk, forall_below] at hns
    cases hc with
    -- A string is the label of its data; the other constants mention nothing.
    | str hdata => exact hlink.strings m .str value _ hns.1 hdata
    | char hchar =>
      unfold charConstant at hchar
      dsimp only at hchar
      split at hchar
      · cases hchar
        trivial
      · cases hchar
    | _ => trivial
  | .unary _ op arg, _, _, _, hns, ⟨a, harg, hc⟩ => by
    rw [Expr.walk, forall_below] at hns
    exact linked_unary hlink (Expr.linked_of_code hlink hbound arg hns.2 harg) hc
  | .deref _ arg, _, _, _, hns, ⟨a, harg, hc⟩ => by
    rw [Expr.walk, forall_below] at hns
    have ha := Expr.linked_of_code hlink hbound arg hns.2 harg
    rw [hc]
    exact ha
  | .binary _ _ fst snd, _, _, _, hns, ⟨_, _, _, _, hfst, hsnd, _, hc⟩ => by
    rw [Expr.walk, forall_below, List.forall_mem_append] at hns
    rw [hc]
    exact ⟨Expr.linked_of_code hlink hbound fst hns.2.1 hfst,
      Expr.linked_of_code hlink hbound snd hns.2.2 hsnd⟩
  | .name m ident, _, _, _, hns, ⟨_, hc⟩ => by
    rw [Expr.walk, forall_below] at hns
    obtain ⟨d, hd, -, hmem⟩ := hbound _ hns.1
    -- The label in the code is that of the declaration to which the name is bound.
    cases hc with
    | call hbound' hframe =>
      rw [hd] at hbound'
      cases hbound'
      exact ⟨hlink.functions _ _ _ _ _ _ hmem hframe, linked_frameAddr f _, trivial⟩
    | static hbound' hvar haccess =>
      rw [hd] at hbound'
      cases hbound'
      exact hlink.globals d _ hmem hvar haccess
    | relative => exact ⟨linked_frameAddr f _, trivial⟩
  | .index _ array idx, _, _, _, hns, ⟨_, _, _, _, harray, hidx, _, hc⟩ => by
    rw [Expr.walk, forall_below, List.forall_mem_append] at hns
    have hbase := Expr.linked_of_code hlink hbound array hns.2.1 harray
    rw [hc]
    exact ⟨hbase, Expr.linked_of_code hlink hbound idx hns.2.2 hidx, trivial⟩
  | .select _ record _, _, _, _, hns, ⟨_, _, _, _, _, hrecord, _, _, hc⟩ => by
    rw [Expr.walk, forall_below, List.forall_mem_append] at hns
    have hbase := Expr.linked_of_code hlink hbound record hns.2.1 hrecord
    rw [hc]
    exact ⟨hbase, trivial⟩
  | .call m ident args, _, _, _, hns, ⟨fm, name, params, type, body, callee, offs, codes, hd, hframe, _,
      hargs, hc⟩ => by
    rw [Expr.walk, forall_below] at hns
    -- The node is bound to a declaration of the program, and the code is that of the same declaration.
    obtain ⟨fm', name', params', type', body', hd', hmem, -⟩ := hbound _ hns.1
    rw [hd] at hd'
    cases hd'
    rw [hc]
    exact ⟨hlink.functions _ _ _ _ _ _ hmem hframe, linked_frameAddr f _,
      Expr.linkedAll_of_codeAll hlink hbound args hns.2 hargs⟩
  | .block _ ss, _, _, _, hns, ⟨codes, hss, hc⟩ => by
    rw [Expr.walk, forall_below] at hns
    rw [hc]
    exact linked_blockValue (Stmt.linked_of_codeAll hlink hbound ss hns.2 hss)
  | .cast _ arg _, _, _, _, hns, ⟨a, harg, hc⟩ => by
    rw [Expr.walk, forall_below] at hns
    have ha := Expr.linked_of_code hlink hbound arg hns.2 harg
    cases hc with
    | char => exact ⟨ha, trivial⟩
    | other => exact ha
  | .scope _ _ body, _, _, _, hns, ⟨_, _, hbody⟩ => by
    -- The functions of the block are generated apart; only its expression is in this code.
    rw [Expr.walk, forall_below, List.forall_mem_append] at hns
    exact Expr.linked_of_code hlink hbound body hns.2.2 hbody

theorem Expr.linkedAll_of_codeAll (hlink : Linkage t ns names callees) (hbound : ∀ n ∈ ns, n.Bound t ns)
    {f : Frame} : ∀ (es : List Expr) {ps : List Param} {lo hi : Int} {offs : List Word}
    {cs : List IR.Expr}, (∀ n ∈ Expr.walkAll everywhere es, n ∈ ns) →
    Expr.CodeAll t f es ps lo hi offs cs →
    IR.Expr.LinkedAll names callees cs
  | [], _, _, _, _, _, _, ⟨_, _, hcs⟩ => hcs ▸ trivial
  | e :: es, [], _, _, _, _, _, hcs => hcs.elim
  | e :: es, _ :: _, _, _, _, _, hns, ⟨_, _, _, _, _, _, he, hes, _, hcs⟩ => by
    rw [Expr.walkAll, List.forall_mem_append] at hns
    rw [hcs]
    exact ⟨Expr.linked_of_code hlink hbound e hns.1 he, Expr.linkedAll_of_codeAll hlink
      hbound es hns.2 hes⟩

theorem Stmt.linked_of_code (hlink : Linkage t ns names callees) (hbound : ∀ n ∈ ns, n.Bound t ns)
    {f : Frame} : ∀ (s : Stmt) {lo hi : Int} {c : IR.Stmt}, (∀ n ∈ s.walk everywhere, n ∈ ns) →
    s.Code t f lo hi c → c.Linked names callees
  | .absent, _, _, _, _, ⟨_, hc⟩ => hc ▸ trivial
  | .eval _ e, _, _, _, hns, ⟨_, he, hc⟩ => by
    rw [Stmt.walk, forall_below] at hns
    rw [hc]
    exact Expr.linked_of_code hlink hbound e hns.2 he
  | .assign _ dst src, _, _, _, hns, ⟨_, _, _, hdst, hsrc, hc⟩ => by
    rw [Stmt.walk, forall_below, List.forall_mem_append] at hns
    rw [hc]
    exact ⟨Expr.linked_of_code hlink hbound dst hns.2.1 hdst,
      Expr.linked_of_code hlink hbound src hns.2.2 hsrc⟩
  | .cond _ test yes no, _, _, _, hns, ⟨_, _, _, _, _, _, htest, hyes, hno, _, hc⟩ => by
    rw [Stmt.walk, forall_below, List.forall_mem_append, List.forall_mem_append] at hns
    rw [hc]
    exact ⟨Expr.linked_of_code hlink hbound test hns.2.1.1 htest, trivial,
      Stmt.linked_of_code hlink hbound yes hns.2.1.2 hyes, trivial, trivial,
      Stmt.linked_of_code hlink hbound no hns.2.2 hno, trivial, trivial⟩
  | .loop _ test body, _, _, _, hns, ⟨_, _, _, _, htest, hbody, _, hc⟩ => by
    rw [Stmt.walk, forall_below, List.forall_mem_append] at hns
    rw [hc]
    exact ⟨trivial, Expr.linked_of_code hlink hbound test hns.2.1 htest, trivial,
      Stmt.linked_of_code hlink hbound body hns.2.2 hbody, trivial, trivial, trivial⟩

theorem Stmt.linked_of_codeAll (hlink : Linkage t ns names callees) (hbound : ∀ n ∈ ns, n.Bound t ns)
    {f : Frame} : ∀ (ss : List Stmt) {lo hi : Int} {cs : List IR.Stmt},
    (∀ n ∈ Stmt.walkAll everywhere ss, n ∈ ns) → Stmt.CodeAll t f ss lo hi cs →
    ∀ c ∈ cs, c.Linked names callees
  | [], _, _, _, _, ⟨_, hcs⟩ => by simp [hcs]
  | s :: ss, _, _, _, hns, ⟨_, _, _, hs, hss, hcs⟩ => by
    rw [Stmt.walkAll, List.forall_mem_append] at hns
    rw [hcs]
    exact List.forall_mem_cons.mpr ⟨Stmt.linked_of_code hlink hbound s hns.1 hs,
      Stmt.linked_of_codeAll hlink hbound ss hns.2 hss⟩

end

end MmixBackend.Source
