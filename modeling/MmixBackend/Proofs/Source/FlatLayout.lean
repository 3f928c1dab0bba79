import MmixBackend.Proofs.ExactSizes
import MmixBackend.Proofs.ProgramLabels
import MmixBackend.Proofs.Source.CallPlaces
import MmixBackend.Proofs.Source.Evaluation

/-!
# The layout of flat scalar programs

In a flat scalar program all variables are words. So the parameters of a function lie at the offsets
8, 16 and so on from its frame pointer, its local variables at -8, -16 and so on, and the arguments
of its largest call take as many words as there are at the end of its frame. What a function refers
to is global or its own.

## Main statements

- `Program.FlatScalar.bound`: what the nodes of a function refer to.
- `Stages.flat_frame`: the frame of a function of a flat scalar program.
-/

namespace MmixBackend

namespace Source

variable {t t' : Attributes} {p : Program}

/-! ## §1 Functions that are not nested -/

theorem below_eq {enter : Node → Bool} {n : Node} {ns ns' : List Node} (hn : enter n = true)
    (hns : ns = ns') :
    Node.below enter n ns = Node.below everywhere n ns' := by
  rw [Node.below, Node.below, if_pos hn, if_pos rfl, hns]

mutual

/-- A walk that would enter every node does so. -/
theorem Expr.walk_eq {enter : Node → Bool} : ∀ e : Expr, (∀ n ∈ e.walk everywhere, enter n = true) →
    e.walk enter = e.walk everywhere
  | .absent, _ => rfl
  | .atom .., h | .name .., h => below_eq (h _ List.mem_cons_self) rfl
  | .unary _ _ arg, h | .deref _ arg, h | .cast _ arg _, h => by
    rw [Expr.walk, forall_below] at h
    exact below_eq h.1 (arg.walk_eq h.2)
  | .select _ record _, h => by
    rw [Expr.walk, forall_below, List.forall_mem_append] at h
    exact below_eq h.1 (congrArg (· ++ _) (record.walk_eq h.2.1))
  | .binary _ _ fst snd, h | .index _ fst snd, h => by
    rw [Expr.walk, forall_below, List.forall_mem_append] at h
    exact below_eq h.1 (congrArg₂ (· ++ ·) (fst.walk_eq h.2.1) (snd.walk_eq h.2.2))
  | .call _ _ args, h => by
    rw [Expr.walk, forall_below] at h
    exact below_eq h.1 (Expr.walkAll_eq args h.2)
  | .block _ ss, h => by
    rw [Expr.walk, forall_below] at h
    exact below_eq h.1 (Stmt.walkAll_eq ss h.2)
  | .scope _ ds body, h => by
    rw [Expr.walk, forall_below, List.forall_mem_append] at h
    exact below_eq h.1 (congrArg₂ (· ++ ·) (Decl.walkAll_eq ds h.2.1) (body.walk_eq h.2.2))

theorem Expr.walkAll_eq {enter : Node → Bool} : ∀ es : List Expr,
    (∀ n ∈ Expr.walkAll everywhere es, enter n = true) →
    Expr.walkAll enter es = Expr.walkAll everywhere es
  | [], _ => rfl
  | e :: es, h => by
    rw [Expr.walkAll, List.forall_mem_append] at h
    exact congrArg₂ (· ++ ·) (e.walk_eq h.1) (Expr.walkAll_eq es h.2)

theorem Stmt.walk_eq {enter : Node → Bool} : ∀ s : Stmt, (∀ n ∈ s.walk everywhere, enter n = true) →
    s.walk enter = s.walk everywhere
  | .absent, _ => rfl
  | .eval _ e, h => by
    rw [Stmt.walk, forall_below] at h
    exact below_eq h.1 (e.walk_eq h.2)
  | .assign _ dst src, h => by
    rw [Stmt.walk, forall_below, List.forall_mem_append] at h
    exact below_eq h.1 (congrArg₂ (· ++ ·) (dst.walk_eq h.2.1) (src.walk_eq h.2.2))
  | .cond _ test yes no, h => by
    rw [Stmt.walk, forall_below, List.forall_mem_append, List.forall_mem_append] at h
    exact below_eq h.1 (congrArg₂ (· ++ ·) (congrArg₂ (· ++ ·) (test.walk_eq h.2.1.1)
      (yes.walk_eq h.2.1.2))
      (no.walk_eq h.2.2))
  | .loop _ test body, h => by
    rw [Stmt.walk, forall_below, List.forall_mem_append] at h
    exact below_eq h.1 (congrArg₂ (· ++ ·) (test.walk_eq h.2.1) (body.walk_eq h.2.2))

theorem Stmt.walkAll_eq {enter : Node → Bool} : ∀ ss : List Stmt,
    (∀ n ∈ Stmt.walkAll everywhere ss, enter n = true) →
    Stmt.walkAll enter ss = Stmt.walkAll everywhere ss
  | [], _ => rfl
  | s :: ss, h => by
    rw [Stmt.walkAll, List.forall_mem_append] at h
    exact congrArg₂ (· ++ ·) (s.walk_eq h.1) (Stmt.walkAll_eq ss h.2)

theorem Decl.walk_eq {enter : Node → Bool} : ∀ d : Decl, (∀ n ∈ d.walk everywhere, enter n = true) →
    d.walk enter = d.walk everywhere
  | .fn _ _ _ _ body, h => by
    rw [Decl.walk, forall_below, List.forall_mem_append] at h
    exact below_eq h.1 (congrArg (_ ++ ·) (body.walk_eq h.2.2))
  | .var .., h | .typ .., h | .par .., h | .comp .., h => below_eq (h _ List.mem_cons_self) rfl

theorem Decl.walkAll_eq {enter : Node → Bool} : ∀ ds : List Decl,
    (∀ n ∈ Decl.walkAll everywhere ds, enter n = true) →
    Decl.walkAll enter ds = Decl.walkAll everywhere ds
  | [], _ => rfl
  | d :: ds, h => by
    rw [Decl.walkAll, List.forall_mem_append] at h
    exact congrArg₂ (· ++ ·) (d.walk_eq h.1) (Decl.walkAll_eq ds h.2)

end

namespace Program.FlatScalar

variable (hflat : p.FlatScalar t) {m : Mark} {name : String} {params : List Param} {type : TypeExpr}
  {body : Expr}

include hflat

/-- A function has no nodes of nested functions. -/
theorem walk_inFunction (hfn : .fn m name params type body ∈ p.decls) :
    body.walk Node.inFunction = body.walk everywhere := by
  refine body.walk_eq fun n hn => ?_
  have hkind := hflat.functions m name params type body hfn n hn
  cases n with
  | decl d =>
    cases d with
    | fn => exact absurd rfl hkind
    | _ => rfl
  | _ => rfl

/-- All functions are global. -/
theorem mem_decls (h : .decl (.fn m name params type body) ∈ Decl.walkAll everywhere p.decls) :
    .fn m name params type body ∈ p.decls := by
  suffices hall : ∀ ds : List Decl, (∀ d ∈ ds, d ∈ p.decls) →
      .decl (.fn m name params type body) ∈ Decl.walkAll everywhere ds →
        .fn m name params type body ∈ ds from
    hall p.decls (fun _ hd => hd) h
  intro ds
  induction ds with
  | nil => exact fun _ hmem => (List.not_mem_nil hmem).elim
  | cons d ds ih =>
    intro hds hmem
    obtain ⟨hd, hds⟩ := List.forall_mem_cons.mp hds
    rcases List.mem_append.mp hmem with hmem | hmem
    · refine List.mem_cons.mpr (.inl ?_)
      cases d with
      | fn m' name' params' type' body' =>
        rcases List.mem_cons.mp hmem with heq | hmem
        · cases heq
          rfl
        · rcases List.mem_append.mp hmem with hmem | hmem
          · obtain ⟨q, -, heq⟩ := List.mem_map.mp hmem
            cases heq
          · exact absurd rfl (hflat.functions m' name' params' type' body' hd _ hmem)
      | _ => cases List.mem_singleton.mp hmem
    · exact List.mem_cons_of_mem _ (ih hds hmem)

theorem nodes_of_body (hfn : .fn m name params type body ∈ p.decls) {n : Node}
    (hn : n ∈ body.walk everywhere) :
    n ∈ Decl.walkAll everywhere p.decls ∧ n.FlatScalar t := by
  have hmem : n ∈ Decl.walkAll everywhere p.decls := by
    obtain ⟨before, after, heq⟩ := List.append_of_mem hfn
    have hall : ∀ ds ds' : List Decl, Decl.walkAll everywhere (ds ++ ds')
        = Decl.walkAll everywhere ds ++ Decl.walkAll everywhere ds' := fun ds ds' => by
      induction ds with
      | nil => rfl
      | cons d ds ih => rw [List.cons_append, Decl.walkAll, ih, Decl.walkAll, List.append_assoc]
    rw [heq, hall]
    refine List.mem_append_right _ (List.mem_append_left _ (List.mem_cons_of_mem _ ?_))
    exact List.mem_append_right _ hn
  exact ⟨hmem, hflat.nodes n hmem⟩

end Program.FlatScalar

/-! ## §2 What a function refers to -/

theorem Scope.Within.declared {scope : Scope} {ns : List Node} (h : scope.Within ns) {ds : List Decl}
    (hds : ∀ d ∈ ds, .decl d ∈ ns) : Scope.Within (blockScope ds :: scope) ns := by
  intro ident d hd
  rcases Scope.mem_of_find?_cons hd with hmem | hd
  · obtain ⟨d', hd', heq⟩ := List.mem_map.mp hmem
    cases heq
    exact hds _ hd'
  · exact h ident d hd

theorem Decl.ResolvedAll.mem {scope : Scope} : ∀ {ds : List Decl}, Decl.ResolvedAll t scope ds →
    ∀ d ∈ ds, d.Resolved t scope
  | [], _ => by simp
  | _ :: _, h => List.forall_mem_cons.mpr ⟨h.1, h.2.mem⟩

/-- **What the nodes of a global function refer to** is declared globally, as a parameter or in the
function. -/
theorem Decl.bound_of_mem (hresolved : Decl.ResolvedAll t [blockScope p.decls] p.decls) {m : Mark}
    {name : String} {params : List Param} {type : TypeExpr} {body : Expr}
    (hfn : .fn m name params type body ∈ p.decls) : ∀ n ∈ body.walk everywhere,
      n.Bound t (p.decls.map .decl ++ params.map (fun q => .decl q.decl) ++ body.walk everywhere) := by
  have hbody := (hresolved.mem _ hfn).2
  have hempty : Scope.Within [] (p.decls.map Node.decl ++ params.map (fun q => .decl q.decl)
      ++ body.walk everywhere) := fun _ _ h => by cases h
  refine body.bound_of_resolved hbody (Scope.Within.params (hempty.declared fun d hd => ?_)
    fun q hq => ?_)
    fun n hn => List.mem_append_right _ hn
  · exact List.mem_append_left _ (List.mem_append_left _ (List.mem_map_of_mem hd))
  · exact List.mem_append_left _ (List.mem_append_right _ (List.mem_map.mpr ⟨q, hq, rfl⟩))

theorem forall_cons {P : Node → Prop} {n : Node} {ns : List Node} (h : P n) (hns : ∀ n' ∈ ns, P n') :
    ∀ n' ∈ n :: ns, P n' := List.forall_mem_cons.mpr ⟨h, hns⟩

mutual

/-- No parameters are declared in a function besides its own. -/
theorem Expr.not_par_of_complete : ∀ e : Expr, e.Complete →
    ∀ n ∈ e.walk Node.inFunction, n.kind? ≠ some .par
  | .absent, h => h.elim
  | .atom .., _ | .name .., _ => by simp [Expr.walk, Node.below, Node.kind?]
  | .unary _ _ arg, h => forall_cons (by simp [Node.kind?]) (arg.not_par_of_complete h.2)
  | .deref _ arg, h | .cast _ arg _, h => forall_cons (by simp [Node.kind?]) (arg.not_par_of_complete h)
  | .select _ record comp, h => by
    refine forall_cons (by simp [Node.kind?])
      (List.forall_mem_append.mpr ⟨record.not_par_of_complete h, ?_⟩)
    simp [Node.kind?]
  | .binary _ _ fst snd, h => forall_cons (by simp [Node.kind?])
      (List.forall_mem_append.mpr ⟨fst.not_par_of_complete h.2.1, snd.not_par_of_complete h.2.2⟩)
  | .index _ array idx, h => forall_cons (by simp [Node.kind?])
      (List.forall_mem_append.mpr ⟨array.not_par_of_complete h.1, idx.not_par_of_complete h.2⟩)
  | .call _ _ args, h => forall_cons (by simp [Node.kind?]) (Expr.not_par_of_completeAll args h)
  | .block _ ss, h => forall_cons (by simp [Node.kind?]) (Stmt.not_par_of_completeAll ss h)
  | .scope _ ds body, h => forall_cons (by simp [Node.kind?])
      (List.forall_mem_append.mpr ⟨Decl.not_par_of_completeAll ds h.1, body.not_par_of_complete h.2⟩)

theorem Expr.not_par_of_completeAll : ∀ es : List Expr, Expr.CompleteAll es →
    ∀ n ∈ Expr.walkAll Node.inFunction es, n.kind? ≠ some .par
  | [], _ => by simp [Expr.walkAll]
  | e :: es, h =>
    List.forall_mem_append.mpr ⟨e.not_par_of_complete h.1, Expr.not_par_of_completeAll es h.2⟩

theorem Stmt.not_par_of_complete : ∀ s : Stmt, s = .absent ∨ s.Complete →
    ∀ n ∈ s.walk Node.inFunction, n.kind? ≠ some .par
  | .absent, _ => by simp [Stmt.walk]
  | .eval _ e, .inr h => forall_cons (by simp [Node.kind?]) (e.not_par_of_complete h)
  | .assign _ dst src, .inr h => forall_cons (by simp [Node.kind?])
      (List.forall_mem_append.mpr ⟨dst.not_par_of_complete h.1, src.not_par_of_complete h.2⟩)
  | .cond _ test yes no, .inr h => forall_cons (by simp [Node.kind?])
      (List.forall_mem_append.mpr ⟨List.forall_mem_append.mpr
        ⟨test.not_par_of_complete h.1, yes.not_par_of_complete (.inr h.2.1)⟩,
          no.not_par_of_complete h.2.2⟩)
  | .loop _ test body, .inr h => forall_cons (by simp [Node.kind?])
      (List.forall_mem_append.mpr ⟨test.not_par_of_complete h.1, body.not_par_of_complete (.inr h.2)⟩)

theorem Stmt.not_par_of_completeAll : ∀ ss : List Stmt, Stmt.CompleteAll ss →
    ∀ n ∈ Stmt.walkAll Node.inFunction ss, n.kind? ≠ some .par
  | [], _ => by simp [Stmt.walkAll]
  | s :: ss, h => List.forall_mem_append.mpr
      ⟨s.not_par_of_complete (.inr h.1), Stmt.not_par_of_completeAll ss h.2⟩

theorem Decl.not_par_of_completeAll : ∀ ds : List Decl, Decl.CompleteAll ds →
    ∀ n ∈ Decl.walkAll Node.inFunction ds, n.kind? ≠ some .par
  | [], _ => by simp [Decl.walkAll]
  | d :: ds, h => by
    refine List.forall_mem_append.mpr ⟨?_, Decl.not_par_of_completeAll ds h.2⟩
    -- A nested function is not entered.
    cases d with
    | par | comp => exact h.1.elim
    | _ => simp [Decl.walk, Node.below, Node.inFunction, Node.kind?]

end

/-! ## §3 Variables and arguments are words -/

theorem isScalar_of_isBasic {defs : TypeDefs} {ty : Ty} (h : ty.IsBasic defs) :
    ty.isScalar defs = true := by
  rcases h with h | h | h <;> simp [Ty.isScalar, h]

/-- A variable of a flat scalar program takes one word. -/
theorem Node.FlatScalar.bytes {m : Mark} {name : String} {type : TypeExpr}
    (h : Node.FlatScalar t (.decl (.var m name type))) :
    t.exactBytes m.id = 8 ∧ t.declBytes m.id = .ofNat 8 := by
  obtain ⟨ty, hty, hbasic⟩ := h
  rw [Attributes.exactBytes, Attributes.declBytes, hty]
  have hscalar := isScalar_of_isBasic hbasic
  exact ⟨Ty.exactSize_of_isScalar hscalar, Ty.size_of_isScalar hscalar⟩

theorem exactSum_of_words {ids : List NodeId} (h : ∀ id ∈ ids, t.exactBytes id = 8) :
    t.exactSum ids = 8 * ids.length := by
  rw [Attributes.exactSum, List.map_congr_left h]
  simp [Nat.mul_comm]

/-- **Where local variables lie**: the one with the index `i` at the offset `-8 * (i + 1)`, if no
bytes are taken before. -/
theorem LocalsAt.wordAccess {depth : Word} {ids : List NodeId} {b : Nat} (h : LocalsAt t t' depth ids b)
    (hwords : ∀ id ∈ ids, t.exactBytes id = 8) {i : Nat} {id : NodeId} (hi : ids[i]? = some id) :
    t'.accesses[id]? = some (.relative (.ofNat 8) (-.ofNat (b + 8 * (i + 1))) depth) := by
  have hlt := (List.getElem?_eq_some_iff.mp hi).1
  have hsum : t.exactSum (ids.take (i + 1)) = 8 * (i + 1) := by
    rw [exactSum_of_words fun id hid => hwords id (List.mem_of_mem_take hid), List.length_take,
      Nat.min_eq_left hlt]
  rw [h.access hi, hwords id (List.mem_of_getElem? hi), hsum]

/-- The bytes that a call passes. -/
theorem Node.FlatScalar.callBytes_eq {n : Node} {ns : List Node} (h : n.FlatScalar t)
    (hbound : n.Bound t ns) :
    n.callBytes t = if n.callWords t = 0 then none else some (.ofNat (8 * n.callWords t)) := by
  cases n with
  | expr e =>
    cases e with
    | unary m op arg =>
      obtain ⟨-, hnew, hdel⟩ := h
      simp [Node.callBytes, Node.callWords, hnew, hdel]
    | name m ident =>
      rcases hd : t.declaredAt[m.id]? with _ | d
      · simp [Node.callBytes, Node.callWords, hd]
      · cases d <;> simp [Node.callBytes, Node.callWords, hd, Word.byteSize]
    | call m ident args =>
      obtain ⟨_, _, _, _, _, _, _, _, hargs⟩ := hbound
      have hbytes := argBytes_of_isScalar (b := 8) hargs
      rw [Node.callBytes, Node.callWords, if_neg (Nat.succ_ne_zero _), Nat.mul_succ, Nat.add_comm (8 * _)]
      exact congrArg some hbytes
    | _ => rfl
  | _ => rfl

theorem le_foldr_max {ws : List Nat} {w : Nat} (h : w ∈ ws) : w ≤ ws.foldr max 0 := by
  induction ws with
  | nil => exact (List.not_mem_nil h).elim
  | cons w' ws ih =>
    rcases List.mem_cons.mp h with rfl | h
    · exact Nat.le_max_left _ _
    · exact Nat.le_trans (ih h) (Nat.le_max_right _ _)

theorem foldr_max_eq_zero_or_mem (ws : List Nat) : ws.foldr max 0 = 0 ∨ ws.foldr max 0 ∈ ws := by
  induction ws with
  | nil => exact .inl rfl
  | cons w ws ih =>
    rw [List.foldr_cons]
    rcases Nat.le_total w (ws.foldr max 0) with hle | hle
    · rw [Nat.max_eq_right hle]
      exact ih.imp_right (List.mem_cons_of_mem w)
    · rw [Nat.max_eq_left hle]
      exact .inr List.mem_cons_self

/-- **The argument area has room for the largest call**, and no more. -/
theorem Fills.argsSize_eq {depth : Word} {ns ns' : List Node} {b : Nat} {n n' : Layout.Needs}
    (h : Fills t t' depth ns b n n') (hn : n.argsSize = 0)
    (hflat : ∀ node ∈ ns, node.FlatScalar t ∧ node.Bound t ns')
    (hfits : 8 * (ns.map (Node.callWords t)).foldr max 0 < 2 ^ 63) :
    n'.argsSize = .ofNat (8 * (ns.map (Node.callWords t)).foldr max 0) := by
  have hle : ∀ node ∈ ns, node.callWords t ≤ (ns.map (Node.callWords t)).foldr max 0 := fun node hnode =>
    le_foldr_max (List.mem_map_of_mem hnode)
  have hword : ∀ node ∈ ns, (Int64.ofNat (8 * node.callWords t)).toInt = (8 * node.callWords t : Nat) :=
    fun node hnode => Int64.toInt_ofNat_of_lt (by have := hle node hnode; omega)
  rw [← Int64.toInt_inj, Int64.toInt_ofNat_of_lt hfits]
  -- The area is that of one of the calls, so it is no larger; it fits every call, so it is no smaller.
  refine Int.le_antisymm ?_ ?_
  · rcases h.needed with hsame | ⟨node, hnode, hsize⟩
    · rw [hsame, hn]
      exact Int.natCast_nonneg _
    · obtain ⟨hscalar, hbound⟩ := hflat node hnode
      rw [hscalar.callBytes_eq hbound] at hsize
      split at hsize
      · cases hsize
      · rw [← Option.some.inj hsize, hword node hnode]
        exact Int.ofNat_le.mpr (Nat.mul_le_mul_left 8 (hle node hnode))
  · rcases foldr_max_eq_zero_or_mem (ns.map (Node.callWords t)) with hzero | hmem
    · rw [hzero]
      exact Int64.le_iff_toInt_le.mp (hn ▸ h.grows)
    · obtain ⟨node, hnode, hmax⟩ := List.mem_map.mp hmem
      obtain ⟨hscalar, hbound⟩ := hflat node hnode
      rw [← hmax]
      by_cases hzero : node.callWords t = 0
      · rw [hzero]
        exact Int64.le_iff_toInt_le.mp (hn ▸ h.grows)
      · rw [← hword node hnode]
        refine Int64.le_iff_toInt_le.mp (h.calls node hnode _ ?_)
        rw [hscalar.callBytes_eq hbound, if_neg hzero]

end Source

/-! ## §4 Frames and data -/

namespace Stages

open Source

variable {p : Program} {t : Attributes} {laid coded : Workspace}

theorem arranged_of_mem (h : Stages p t laid coded) {d : Decl} (hd : d ∈ p.decls) :
    d.Arranged t laid.attrs { depth := 0, isGlobal := true } := by
  suffices hall : ∀ ds : List Decl, Decl.ArrangedAll t laid.attrs ds { depth := 0, isGlobal := true } →
      d ∈ ds → d.Arranged t laid.attrs { depth := 0, isGlobal := true } from hall p.decls h.arranged hd
  intro ds
  induction ds with
  | nil => exact fun _ hmem => (List.not_mem_nil hmem).elim
  | cons d' ds ih =>
    intro harranged hmem
    have hsame : Decl.needsAll t [d'] { depth := 0, isGlobal := true }
        = { depth := 0, isGlobal := true } := by
      cases d' <;> simp [Decl.needsAll, Layout.Needs.withLocal]
    rcases List.mem_cons.mp hmem with rfl | hmem
    · exact harranged.1
    · exact ih (hsame ▸ harranged.2) hmem

end Stages

namespace Source

/-- The frame of a global function whose parameters and variables are words. -/
structure FlatFrame (t t' : Attributes) (f : Frame) (name : String) (params : List Param) (body : Expr) :
    Prop where
  label : f.label = .global name
  depth : f.depth = 0
  size : body.frameBytes t < 2 ^ 63 → f.size = .ofNat (body.frameBytes t)
  params : ∀ {i : Nat} {q : Param}, params[i]? = some q →
    t'.accesses[q.mark.id]? = some (.relative (.ofNat 8) (.ofNat (8 * (i + 1))) 1)
  locals : ∀ {i : Nat} {id : NodeId}, body.locals[i]? = some id →
    t'.accesses[id]? = some (.relative (.ofNat 8) (-.ofNat (8 * (i + 1))) 1)

end Source

namespace Stages

open Source

variable {p : Program} {t : Attributes} {laid coded : Workspace}

/-- **The frame of a function of a flat scalar program.** -/
theorem flat_frame (h : Stages p t laid coded) (hflat : p.FlatScalar t) {m : Mark} {name : String}
    {params : List Param} {type : TypeExpr} {body : Expr} (hfn : .fn m name params type body ∈ p.decls) :
    ∃ f, laid.attrs.frames[m.id]? = some f ∧ FlatFrame t laid.attrs f name params body := by
  obtain ⟨⟨label, fp, rv, hlabel, hframe⟩, hparams, hbody⟩ := h.arranged_of_mem hfn
  have hscalar : ∀ q ∈ params, q.IsScalar t := (h.resolved.mem _ hfn).1.2
  have hnodes : ∀ n ∈ body.walk Node.inFunction, n.FlatScalar t ∧
      n.Bound t (Decl.walkAll everywhere p.decls) := by
    intro n hn
    obtain ⟨hmem, hn⟩ := hflat.nodes_of_body hfn (body.walk_inFunction_subset hn)
    exact ⟨hn, Program.bound_of_resolved h.resolved n hmem⟩
  -- All local variables are scalars, so each takes one word.
  have hwords : ∀ id ∈ body.locals, t.exactBytes id = 8 := by
    intro id hid
    obtain ⟨n, hn, hvar⟩ := List.mem_filterMap.mp hid
    have hscalar := (hnodes n hn).1
    cases n with
    | decl d =>
      cases d with
      | var m name type =>
        cases hvar
        exact hscalar.bytes.1
      | _ => cases hvar
    | _ => cases hvar
  have hfills := body.fills_of_arranged (Attributes.sized h.positive h.definitions) hbody (b := 0)
    ⟨rfl, rfl, rfl⟩
  have hlocs := hfills.needs.locsSize
  have hsum : t.exactSum (Node.variables (body.walk Node.inFunction)) = 8 * body.locals.length :=
    exactSum_of_words hwords
  rw [Nat.zero_add, hsum] at hlocs
  refine ⟨_, hframe, hlabel rfl, rfl, fun hfits => ?_, fun {i q} hi => ?_, fun {i id} hi => ?_⟩
  · have hargs := hfills.argsSize_eq rfl hnodes (by
      rw [Expr.frameBytes, Expr.outgoing] at hfits
      omega)
    show _ + savedRegsSize + _ = _
    rw [hlocs, hargs, show savedRegsSize = Int64.ofNat 16 from rfl, ← Int64.ofNat_add, ← Int64.ofNat_add]
    rfl
  · have haccess := Param.access_of_arrangedAll (b := 0) hparams hscalar hi
    rwa [Nat.zero_add] at haccess
  · have haccess := LocalsAt.wordAccess (b := 0) hfills.locals hwords hi
    rwa [Nat.zero_add] at haccess

end Stages

namespace Source.Linear

/-- The data of a program start with those of its global variables. -/
theorem globals_access {t : Attributes} {ds : List Decl} {data : List StaticData}
    (h : globals t ds = .ok data) :
    List.Forall₂ (fun id d => t.accesses[id]? = some (.static d)) (Node.variables (ds.map .decl))
      data := by
  induction ds generalizing data with
  | nil =>
    cases h
    exact .nil
  | cons d ds ih =>
    cases d with
    | var m name type =>
      rw [globals] at h
      split at h
      · next d hd =>
        cases hrest : globals t ds with
        | error fault =>
          rw [hrest] at h
          cases h
        | ok rest =>
          rw [hrest] at h
          cases h
          exact .cons hd (ih hrest)
      · cases h
    | _ =>
      rw [globals] at h
      · exact ih h
      · simp

end Source.Linear

end MmixBackend
