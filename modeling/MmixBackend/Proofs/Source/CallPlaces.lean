import MmixBackend.Proofs.Source.FrameLayout

/-!
# Where calls put their arguments

A call in generated code comes from a node of the function body: an operator with a routine behind
it, the name of a function, or a call with arguments. The static link goes to offset zero and the
arguments go where the callee looks for its parameters, so a call fits into the area that the layout
keeps for its node.

## Main statements

- `Expr.calls_of_code`: each call in the code of an expression is that of one of its nodes.
- `Node.Calls.fits`: the arguments of a call are in the argument area of the caller.
-/

namespace MmixBackend

/-! ## §1 Calls in intermediate code -/

namespace IR

mutual

/-- The calls in an expression: the label that is called and the offsets of the arguments. -/
def Expr.calls : Expr → List (Label × List Word)
  | .absent | .const _ | .temp _ | .name _ => []
  | .mem addr => addr.calls
  | .binop _ fst snd => fst.calls ++ snd.calls
  | .unop _ arg => arg.calls
  | .call l offs args => (l, offs) :: Expr.callsAll args
  | .sexpr stmt value => stmt.calls ++ value.calls

/-- The calls in expressions. -/
def Expr.callsAll : List Expr → List (Label × List Word)
  | [] => []
  | e :: es => e.calls ++ Expr.callsAll es

/-- The calls in a statement. -/
def Stmt.calls : Stmt → List (Label × List Word)
  | .absent | .jump _ | .label _ => []
  | .eval e => e.calls
  | .move dst src => dst.calls ++ src.calls
  | .cjump cond _ _ => cond.calls
  | .seq stmts => Stmt.callsAll stmts

/-- The calls in statements. -/
def Stmt.callsAll : List Stmt → List (Label × List Word)
  | [] => []
  | s :: ss => s.calls ++ Stmt.callsAll ss

end

theorem Stmt.mem_callsAll {ss : List Stmt} {call : Label × List Word} :
    call ∈ Stmt.callsAll ss ↔ ∃ s ∈ ss, call ∈ s.calls := by
  induction ss with
  | nil => simp [Stmt.callsAll]
  | cons s ss ih => simp [Stmt.callsAll, ih]

end IR

namespace Source

open Generation Layout

/-- The call that a node makes. -/
inductive Node.Calls (t : Attributes) : Node → Label × List Word → Prop
  | routine {m : Mark} {op : UnaryOp} {arg : Expr} {name : String}
      (hop : op = .new ∧ name = "new" ∨ op = .del ∧ name = "del") :
      Calls t (.expr (.unary m op arg)) (.global name, [8])
  | name {m fm : Mark} {ident name : String} {params : List Param} {type : TypeExpr} {body : Expr}
      {callee : Frame} (hbound : t.declaredAt[m.id]? = some (.fn fm name params type body))
      (hframe : t.frames[fm.id]? = some callee) : Calls t (.expr (.name m ident)) (callee.label, [0])
  | call {m fm : Mark} {ident name : String} {args : List Expr} {params : List Param} {type : TypeExpr}
      {body : Expr} {callee : Frame} {offs : List Word}
      (hbound : t.declaredAt[m.id]? = some (.fn fm name params type body))
      (hframe : t.frames[fm.id]? = some callee)
      (hoffs : List.Forall₂ (fun p off => t.OffsetAt p.mark.id off) params offs) :
      Calls t (.expr (.call m ident args)) (callee.label, 0 :: offs)

variable {t : Attributes} {f : Frame}

/-- The calls in the code are calls of the nodes. -/
def CalledIn (t : Attributes) (ns : List Node) (calls : List (Label × List Word)) : Prop :=
  ∀ call ∈ calls, ∃ node ∈ ns, node.Calls t call

namespace CalledIn

variable {ns ns' : List Node} {calls calls' : List (Label × List Word)} {node : Node}

theorem nil : CalledIn t ns [] := fun _ h => (List.not_mem_nil h).elim

theorem append (h : CalledIn t ns calls) (h' : CalledIn t ns calls') : CalledIn t ns (calls ++ calls') :=
  fun call hcall => (List.mem_append.mp hcall).elim (h call) (h' call)

theorem mono (h : CalledIn t ns calls) (hns : ns ⊆ ns') : CalledIn t ns' calls := by
  intro call hcall
  obtain ⟨node, hnode, hcalls⟩ := h call hcall
  exact ⟨node, hns hnode, hcalls⟩

/-- Calls of the nodes below a node. -/
theorem below (h : CalledIn t ns calls) : CalledIn t (node :: ns) calls :=
    h.mono (List.subset_cons_self ..)

/-- Calls of nodes side by side. -/
theorem both (h : CalledIn t ns calls) (h' : CalledIn t ns' calls') :
    CalledIn t (ns ++ ns') (calls ++ calls') :=
  (h.mono (List.subset_append_left ..)).append (h'.mono (List.subset_append_right ..))

theorem cons {call : Label × List Word} (hnode : node ∈ ns) (hcall : node.Calls t call)
    (h : CalledIn t ns calls) : CalledIn t ns (call :: calls) :=
  List.forall_mem_cons.mpr ⟨⟨node, hnode, hcall⟩, h⟩

end CalledIn

theorem calls_frameAddr (f : Frame) (hops : Nat) : (frameAddr f hops).calls = [] := by
  induction hops with
  | zero => rfl
  | succ hops ih => exact ih

theorem calledIn_blockValue {ns : List Node} {ss : List IR.Stmt}
    (h : ∀ s ∈ ss, CalledIn t ns s.calls) : CalledIn t ns (blockValue ss).calls := by
  have hall : ∀ ss' : List IR.Stmt, ss' ⊆ ss → CalledIn t ns (IR.Stmt.callsAll ss') := by
    intro ss' hss call hcall
    obtain ⟨s, hs, hcall⟩ := IR.Stmt.mem_callsAll.mp hcall
    exact h s (hss hs) call hcall
  unfold blockValue
  split
  · next e hlast =>
    exact (hall _ (List.dropLast_subset ss)).append (h _ (List.mem_of_getLast? hlast))
  · exact (hall _ (List.Subset.refl ss)).append .nil

theorem Expr.CodeAll.offsets : ∀ {args : List Expr} {params : List Param} {lo hi : Int} {offs : List Word}
    {codes : List IR.Expr}, Expr.CodeAll t f args params lo hi offs codes → params.length = args.length →
    List.Forall₂ (fun p off => t.OffsetAt p.mark.id off) params offs
  | [], [], _, _, _, _, ⟨_, hoffs, _⟩, _ => hoffs ▸ .nil
  | _ :: _, _ :: _, _, _, _, _, ⟨_, _, _, _, _, hoff, _, hrest, hoffs, _⟩, hlength =>
    hoffs ▸ .cons hoff (hrest.offsets (Nat.succ.inj hlength))

/-! ## §2 Calls of the nodes of a body -/

mutual

/-- **Each call in the code of an expression is that of one of its nodes.** -/
theorem Expr.calls_of_code : ∀ (e : Expr) {lo hi : Int} {c : IR.Expr}, e.Code t f lo hi c →
    CalledIn t (e.walk Node.inFunction) c.calls
  | .absent, _, _, _, hc => hc.elim
  | .atom m kind value, _, _, _, ⟨_, hc⟩ => by
    cases hc with
    | char hchar =>
      unfold charConstant at hchar
      dsimp only at hchar
      split at hchar
      · cases hchar
        exact .nil
      · cases hchar
    | _ => exact .nil
  | .unary m op arg, _, _, _, ⟨a, harg, hc⟩ => by
    have ha : CalledIn t ((Expr.unary m op arg).walk Node.inFunction) a.calls :=
      (arg.calls_of_code harg).below
    -- Only the operators that allocate and free memory call something themselves.
    cases op with
    | pos | neg | not =>
      cases hc
      exact ha
    | addr =>
      obtain rfl := addressOf_eq_ok hc
      exact ha
    | new =>
      cases hc
      exact .cons List.mem_cons_self (.routine (.inl ⟨rfl, rfl⟩)) (ha.append .nil)
    | del =>
      cases hc
      exact .cons List.mem_cons_self (.routine (.inr ⟨rfl, rfl⟩)) (ha.append .nil)
    | unknown code => cases hc
  | .deref _ arg, _, _, _, ⟨a, harg, hc⟩ => by
    rw [hc]
    exact (arg.calls_of_code harg).below
  | .binary _ _ fst snd, _, _, _, ⟨_, _, _, _, hfst, hsnd, _, hc⟩ => by
    rw [hc]
    exact ((fst.calls_of_code hfst).both (snd.calls_of_code hsnd)).below
  | .name m ident, _, _, _, ⟨_, hc⟩ => by
    cases hc with
    | call hbound hframe =>
      -- Following static links only loads, so the call itself is the only one.
      refine .cons List.mem_cons_self (.name hbound hframe) (.append ?_ .nil)
      rw [staticLink, calls_frameAddr]
      exact .nil
    | static => exact .nil
    | relative =>
      refine .append ?_ .nil
      rw [calls_frameAddr]
      exact .nil
  | .index _ array idx, _, _, _, ⟨_, _, _, _, harray, hidx, _, hc⟩ => by
    rw [hc]
    exact ((array.calls_of_code harray).both ((idx.calls_of_code hidx).append .nil)).below
  | .select _ record _, _, _, _, ⟨_, _, _, _, _, hrecord, _, _, hc⟩ => by
    rw [hc]
    exact ((record.calls_of_code hrecord).both .nil).below
  | .call m ident args, _, _, _, ⟨fm, name, params, type, body, callee, offs, codes, hbound, hframe,
      hlength, hargs, hc⟩ => by
    -- The call of the node comes first, then those in its arguments.
    rw [hc]
    refine .cons List.mem_cons_self (.call hbound hframe (hargs.offsets hlength)) (.append ?_ ?_)
    · rw [staticLink, calls_frameAddr]
      exact .nil
    · exact (Expr.calls_of_codeAll args hargs).below
  | .block _ ss, _, _, _, ⟨codes, hss, hc⟩ => by
    rw [hc]
    refine calledIn_blockValue fun s hs => ?_
    exact (Stmt.calls_of_codeAll ss hss s hs).below
  | .cast _ arg _, _, _, _, ⟨a, harg, hc⟩ => by
    have ha := arg.calls_of_code harg
    cases hc with
    | char => exact (ha.append .nil).below
    | other => exact ha.below
  | .scope _ _ body, _, _, _, ⟨_, _, hbody⟩ =>
    -- Calls in the functions of the block belong to those functions.
    (CalledIn.nil.both (body.calls_of_code hbody)).below

theorem Expr.calls_of_codeAll : ∀ (es : List Expr) {params : List Param} {lo hi : Int} {offs : List Word}
    {codes : List IR.Expr}, Expr.CodeAll t f es params lo hi offs codes →
    CalledIn t (Expr.walkAll Node.inFunction es) (IR.Expr.callsAll codes)
  | [], _, _, _, _, _, ⟨_, _, hc⟩ => by
    rw [hc]
    exact .nil
  | e :: es, _ :: _, _, _, _, _, ⟨_, _, _, _, _, _, he, hes, _, hc⟩ => by
    rw [hc]
    exact (e.calls_of_code he).both (Expr.calls_of_codeAll es hes)
  | _ :: _, [], _, _, _, _, hc => hc.elim

theorem Stmt.calls_of_code : ∀ (s : Stmt) {lo hi : Int} {c : IR.Stmt}, s.Code t f lo hi c →
    CalledIn t (s.walk Node.inFunction) c.calls
  | .absent, _, _, _, ⟨_, hc⟩ => by
    rw [hc]
    exact .nil
  | .eval _ e, _, _, _, ⟨_, he, hc⟩ => by
    rw [hc]
    exact (e.calls_of_code he).below
  | .assign _ dst src, _, _, _, ⟨_, _, _, hdst, hsrc, hc⟩ => by
    rw [hc]
    exact ((dst.calls_of_code hdst).both (src.calls_of_code hsrc)).below
  | .cond m test yes no, _, _, _, ⟨_, _, _, _, _, _, htest, hyes, hno, _, hc⟩ => by
    rw [hc]
    have hparts := ((test.calls_of_code htest).both (yes.calls_of_code hyes)).both (no.calls_of_code hno)
    have hall : CalledIn t ((Stmt.cond m test yes no).walk Node.inFunction) _ := hparts.below
    simpa [conditionalCode, IR.Stmt.calls, IR.Stmt.callsAll] using hall
  | .loop m test body, _, _, _, ⟨_, _, _, _, htest, hbody, _, hc⟩ => by
    rw [hc]
    have hparts := (test.calls_of_code htest).both (body.calls_of_code hbody)
    have hall : CalledIn t ((Stmt.loop m test body).walk Node.inFunction) _ := hparts.below
    simpa [loopCode, IR.Stmt.calls, IR.Stmt.callsAll] using hall

theorem Stmt.calls_of_codeAll : ∀ (ss : List Stmt) {lo hi : Int} {codes : List IR.Stmt},
    Stmt.CodeAll t f ss lo hi codes →
    ∀ s ∈ codes, CalledIn t (Stmt.walkAll Node.inFunction ss) s.calls
  | [], _, _, _, ⟨_, hc⟩ => by
    rw [hc]
    exact fun _ h => (List.not_mem_nil h).elim
  | s :: ss, _, _, _, ⟨_, _, _, hs, hss, hc⟩ => by
    rw [hc]
    refine List.forall_mem_cons.mpr ⟨(s.calls_of_code hs).mono (List.subset_append_left ..),
      fun c hc => ?_⟩
    exact (Stmt.calls_of_codeAll ss hss c hc).mono (List.subset_append_right ..)

end

/-! ## §3 Room for arguments -/

/-- The size of arguments without bounds. -/
def Attributes.exactArgs (t : Attributes) (args : List Expr) : Nat :=
  (args.map fun e => ((t.typeOf? e).getD .void).exactSize t.typeDefs).sum

/-- The arguments of a call. -/
def Node.arguments? : Node → Option (List Expr)
  | .expr (.call _ _ args) => some args
  | _ => none

/-- The arguments of all calls in a function body, nested functions apart. -/
def Expr.callArguments (body : Expr) : List (List Expr) :=
  (body.walk Node.inFunction).filterMap Node.arguments?

/-- The sums that the layout of a function adds up are in the range of words. -/
structure FrameFits (t : Attributes) (params : List Param) (body : Expr) : Prop where
  params : t.exactSum (params.map fun p => p.mark.id) < 2 ^ 63
  locals : t.exactSum body.locals < 2 ^ 63
  calls : ∀ args ∈ body.callArguments, 8 + t.exactArgs args < 2 ^ 63

instance (t : Attributes) (params : List Param) (body : Expr) : Decidable (FrameFits t params body) :=
  decidable_of_iff (t.exactSum (params.map fun p => p.mark.id) < 2 ^ 63 ∧
    t.exactSum body.locals < 2 ^ 63 ∧
      ∀ args ∈ body.callArguments, 8 + t.exactArgs args < 2 ^ 63)
    ⟨fun h => ⟨h.1, h.2.1, h.2.2⟩, fun h => ⟨h.1, h.2, h.3⟩⟩

theorem argBytes_of_isScalar : ∀ {args : List Expr} {b : Nat}, (∀ e ∈ args, e.IsScalar t) →
    t.argBytes (.ofNat b) args = .ofNat (b + 8 * args.length)
  | [], _, _ => rfl
  | e :: es, b, h => by
    obtain ⟨⟨ty, hty, hscalar⟩, hes⟩ := List.forall_mem_cons.mp h
    have hsize : t.sizeOf ((t.typeOf? e).getD .void) = .ofNat 8 := by
      rw [hty]
      exact Ty.size_of_isScalar hscalar
    rw [Attributes.argBytes, hsize, ← Int64.ofNat_add, argBytes_of_isScalar hes, List.length_cons,
      Nat.mul_succ, Nat.add_comm (8 * _), Nat.add_assoc]

theorem exactArgs_of_isScalar : ∀ {args : List Expr}, (∀ e ∈ args, e.IsScalar t) →
    t.exactArgs args = 8 * args.length
  | [], _ => rfl
  | e :: es, h => by
    obtain ⟨⟨ty, hty, hscalar⟩, hes⟩ := List.forall_mem_cons.mp h
    have hsum : t.exactArgs (e :: es) = ((t.typeOf? e).getD .void).exactSize
        t.typeDefs + t.exactArgs es :=
      List.sum_cons
    rw [hsum, hty, exactArgs_of_isScalar hes, List.length_cons, Nat.mul_succ, Nat.add_comm (8 * _)]
    exact congrArg (· + _) (Ty.exactSize_of_isScalar hscalar)

/-- The offsets of parameters that lie one above the other. -/
theorem offset_of_arrangedAll {t' : Attributes} {depth : Word} {ps : List Param} {offs : List Word}
    (harranged : Param.ArrangedAll t t' depth ps 0) (hscalar : ∀ p ∈ ps, p.IsScalar t)
    (hoffs : List.Forall₂ (fun p off => t'.OffsetAt p.mark.id off) ps offs) {i : Nat} {off : Word}
    (hi : offs[i]? = some off) : i < ps.length ∧ off = .ofNat (8 * (i + 1)) := by
  obtain ⟨hlt, hget⟩ := List.getElem?_eq_some_iff.mp hi
  have hlt' : i < ps.length := hoffs.length_eq ▸ hlt
  obtain ⟨size, depth', hoff⟩ := hoffs.get hlt' hlt
  have haccess := Param.access_of_arrangedAll (b := 0) harranged hscalar (List.getElem?_eq_getElem hlt')
  obtain ⟨-, heq, -⟩ := Access.relative.inj (Option.some.inj (haccess.symm.trans hoff))
  rw [Nat.zero_add] at heq
  exact ⟨hlt', hget.symm.trans heq.symm⟩

/-- **The arguments of a call are in the argument area of the caller.** -/
theorem Node.Calls.fits {t' : Attributes} {ns : List Node} {node : Node} {call : Label × List Word}
    (h : node.Calls t' call) (ht : t'.Resolves t) (hnode : node ∈ ns) (hbound : ∀ n ∈ ns, n.Bound t ns)
    (hparams : ∀ m name ps type body, .decl (.fn m name ps type body) ∈ ns →
      ∃ depth, Param.ArrangedAll t t' depth ps 0)
    {area : Word} (harea : ∀ size, node.callBytes t = some size → size ≤ area)
    (hfits : ∀ args, node.arguments? = some args → 8 + t.exactArgs args < 2 ^ 63) :
    ∀ off ∈ call.2, 0 ≤ off.toInt ∧ off.toInt + 8 ≤ area.toInt := by
  -- A routine takes one argument, a name none and a call as many as there are parameters.
  cases h with
  | routine hop =>
    have hle : 16 ≤ area.toInt := by
      refine Int64.le_iff_toInt_le.mp (harea (2 * Word.byteSize) (if_pos ?_))
      exact hop.imp And.left And.left
    intro off hoff
    rw [List.mem_singleton.mp hoff]
    exact ⟨by decide, hle⟩
  | name hfn hframe =>
    rw [ht.declaredAt] at hfn
    have hle : 8 ≤ area.toInt := by
      refine Int64.le_iff_toInt_le.mp (harea Word.byteSize ?_)
      simp [Node.callBytes, hfn]
    intro off hoff
    rw [List.mem_singleton.mp hoff]
    exact ⟨by decide, hle⟩
  | @call m fm ident name args params type body callee offs hfn hframe hoffs =>
    rw [ht.declaredAt] at hfn
    obtain ⟨fm', name', params', type', body', hfn', hmem, hlength, hargs⟩ := hbound _ hnode
    cases hfn.symm.trans hfn'
    obtain ⟨depth, harranged⟩ := hparams _ _ _ _ _ hmem
    have hscalar : ∀ p ∈ params, p.IsScalar t := fun p hp => ((hbound _ hmem).1 p hp).2
    have hsum := hfits args rfl
    rw [exactArgs_of_isScalar hargs] at hsum
    -- The area has room for the static link and one word for each argument.
    have hle : (8 + 8 * args.length : Nat) ≤ area.toInt := by
      have hword : t.argBytes Word.byteSize args = .ofNat (8 + 8 * args.length) :=
        argBytes_of_isScalar (b := 8) hargs
      rw [← Int64.toInt_ofNat_of_lt hsum, ← hword]
      exact Int64.le_iff_toInt_le.mp (harea _ rfl)
    refine List.forall_mem_cons.mpr ⟨⟨by decide, ?_⟩, fun off hoff => ?_⟩
    -- The link is at offset 0, and the arguments follow it word by word.
    · have hzero : (0 : Word).toInt = 0 := rfl
      omega
    · obtain ⟨i, hi⟩ := List.getElem?_of_mem hoff
      obtain ⟨hlt, rfl⟩ := offset_of_arrangedAll harranged hscalar hoffs hi
      rw [Int64.toInt_ofNat_of_lt (by omega)]
      omega

end Source

end MmixBackend
