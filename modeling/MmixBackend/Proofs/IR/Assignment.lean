import MmixBackend.Proofs.IR.CanonicalGrammar
import MmixBackend.Proofs.Instr.Assignment

/-!
# Canonical code assigns its temps before it reads them

A tree whose only temp is the frame pointer may branch and loop inside of its operands.
Canonicalization moves this code between the moves that save operands in temps, and a saved operand
is read behind it. No jump leads from outside into the statement of an expression, so whatever had a
value at the start of the statement has one at all of its labels: this is what is promised for them.
The code in front of a label can only have added to it.

Selection keeps the annotation. The instructions of a statement read what the statement reads, and
temps that they have written themselves.

## Main statements

- `Expr.canonical_annotated`: canonical code can be annotated, whatever it starts with.
- `Stmt.selectAll_realizes`: the instructions of annotated statements can be annotated likewise.
-/

namespace MmixBackend.IR

/-! ## §1 Annotated statements -/

/-- The footprint of a statement that contains no others. -/
def Stmt.footprint : Stmt → Footprint
  | .label l => .label l
  | .jump l => .op [] [] [l] true
  | .cjump cond pos neg => .op cond.temps [] [pos, neg] false
  | .move (.temp t) src => .op src.temps [t] [] false
  | s => .op s.temps [] [] false

/-- Statements with the given labels can be annotated from `A` to `B`. For the labels `marks` the
set `base` is promised; the same has to be promised for the labels `targets`, to which the
statements may jump besides their own. -/
structure Annotated (base : Set Temp) (marks targets labels : List Label) (A : Set Temp) (ss : List Stmt)
    (B : Set Temp) : Prop where
  labels_eq : Stmt.labelsOf ss = labels
  exists_sites : ∃ sites : List Promise, sites.map Prod.fst = labels ∧ (∀ l ∈ marks, (l, base) ∈ sites) ∧
    ∀ known, sites ⊆ known → (∀ l ∈ targets, (l, base) ∈ known) →
      Assigns known A (ss.map Stmt.footprint) B

namespace Annotated

variable {base A B B' C : Set Temp} {marks targets labels marks' targets' labels' : List Label}
  {ss ss' : List Stmt}

theorem nil (base A : Set Temp) : Annotated base [] [] [] A [] A :=
  ⟨rfl, [], rfl, by simp, fun known _ _ => .nil known A⟩

theorem forget (h : Annotated base marks targets labels A ss B) (hB : B' ⊆ B) :
    Annotated base marks targets labels A ss B' := by
  obtain ⟨heq, sites, hkeys, hmarks, hassigns⟩ := h
  exact ⟨heq, sites, hkeys, hmarks, fun known hknown htargets =>
    (hassigns known hknown htargets).forget hB⟩

/-- One list behind another. -/
theorem append (h : Annotated base marks targets labels A ss B)
    (h' : Annotated base marks' targets' labels' B ss' C) :
    Annotated base (marks ++ marks') (targets ++ targets') (labels ++ labels') A (ss ++ ss') C := by
  obtain ⟨heq, sites, hkeys, hmarks, hassigns⟩ := h
  obtain ⟨heq', sites', hkeys', hmarks', hassigns'⟩ := h'
  refine ⟨by rw [Stmt.labelsOf_append, heq, heq'], sites ++ sites', by simp [hkeys, hkeys'], ?_, ?_⟩
  · intro l hl
    exact List.mem_append.mpr ((List.mem_append.mp hl).imp (hmarks l) (hmarks' l))
  · intro known hknown htargets
    obtain ⟨hknown, hknown'⟩ := List.append_subset.mp hknown
    obtain ⟨htargets, htargets'⟩ := List.forall_mem_append.mp htargets
    rw [List.map_append]
    exact (hassigns known hknown htargets).append (hassigns' known hknown' htargets')

/-- Statements that do not jump to labels around them stand in any place. -/
theorem close (h : Annotated base marks targets labels A ss B) (hclosed : ∀ l ∈ targets, l ∈ marks)
    (base' : Set Temp) : Annotated base' [] [] labels A ss B := by
  obtain ⟨heq, sites, hkeys, hmarks, hassigns⟩ := h
  refine ⟨heq, sites, hkeys, by simp, fun known hknown _ => ?_⟩
  exact hassigns known hknown fun l hl => hknown (hmarks l (hclosed l hl))

/-- A move into a temp. -/
theorem move {t : Temp} {e : Expr} (he : ∀ u ∈ e.temps, u ∈ A) :
    Annotated base [] [] [] A [.move (.temp t) e] (insert t A) :=
  ⟨rfl, [], rfl, by simp, fun _ _ _ => .write he t⟩

/-- An operand that is saved in a fresh temp. -/
theorem moveInto {e : Expr} (he : ∀ u ∈ e.temps, u ∈ A) (n : Int) :
    Annotated base [] [] [] A [IR.moveInto n e] (insert ⟨n⟩ A) :=
  move he

/-- A move to the address in a temp. -/
theorem store {t : Temp} {e : Expr} (ht : t ∈ A) (he : ∀ u ∈ e.temps, u ∈ A) :
    Annotated base [] [] [] A [.move (.mem (.temp t)) e] A := by
  refine ⟨rfl, [], rfl, by simp, fun _ _ _ => .read ?_⟩
  exact List.forall_mem_cons.mpr ⟨ht, he⟩

theorem eval {e : Expr} (he : ∀ u ∈ e.temps, u ∈ A) : Annotated base [] [] [] A [.eval e] A :=
  ⟨rfl, [], rfl, by simp, fun _ _ _ => .read he⟩

theorem label (l : Label) (A : Set Temp) : Annotated A [l] [] [l] A [.label l] A := by
  refine ⟨rfl, [(l, A)], rfl, by simp, fun known hknown _ => ?_⟩
  exact ⟨A, hknown (List.mem_singleton_self _), Set.Subset.rfl, Set.Subset.rfl⟩

/-- Control goes to places where no more is promised than what has a value. -/
theorem jump (l : Label) (hA : base ⊆ A) : Annotated base [] [l] [] A [.jump l] B := by
  refine ⟨rfl, [], rfl, by simp, fun known _ htargets => ⟨by simp, ?_, Set.subset_univ _⟩⟩
  intro l' hl'
  exact ⟨base, htargets l' hl', hA.trans Set.subset_union_left⟩

theorem cjump {cond : Expr} (pos neg : Label) (hA : base ⊆ A) (hcond : ∀ u ∈ cond.temps, u ∈ A) :
    Annotated base [] [pos, neg] [] A [.cjump cond pos neg] A := by
  refine ⟨rfl, [], rfl, by simp, fun known _ htargets => ⟨hcond, ?_, Set.subset_union_left⟩⟩
  intro l' hl'
  exact ⟨base, htargets l' hl', hA.trans Set.subset_union_left⟩

end Annotated

/-! ## §2 Canonicalization -/

section Canonicalization

variable {fp : Temp}

mutual

/-- **Canonical code of an expression can be annotated**, whatever has a value at its start, and
behind it the temps of the value have one. -/
theorem Expr.canonical_annotated : ∀ (e : Expr), (∀ t ∈ e.temps, t = fp) → e.Enclosed →
    ∀ (σ : Supply) (base : Set Temp) {A : Set Temp}, fp ∈ A → Ensures e.canonical σ fun r _ =>
      ∃ B, A ⊆ B ∧ (∀ t ∈ r.2.temps, t ∈ B) ∧ Annotated base [] [] e.labels A r.1 B
  | .absent, _, _, _, _, _, _ => .throw _
  | .const _, _, _, _, _, A, _ | .name _, _, _, _, _, A, _ =>
    .pure ⟨A, Set.Subset.rfl, by simp [Expr.temps], .nil _ A⟩
  | .temp t, htemps, _, _, _, A, hfp => by
    -- The only temp of generated code is the frame pointer, which has a value from the start.
    refine .pure ⟨A, Set.Subset.rfl, fun u hu => ?_, .nil _ A⟩
    rw [htemps u hu]
    exact hfp
  | .mem addr, htemps, hjumps, σ, base, _, hfp => by
    rw [Expr.canonical]
    refine (addr.canonical_annotated htemps hjumps σ base hfp).bind fun r _ ⟨B, hB, hv, h⟩ => ?_
    exact .pure ⟨B, hB, hv, h⟩
  | .unop _ arg, htemps, hjumps, σ, base, _, hfp => by
    rw [Expr.canonical]
    refine (arg.canonical_annotated htemps hjumps σ base hfp).bind fun r _ ⟨B, hB, hv, h⟩ => ?_
    exact .pure ⟨B, hB, hv, h⟩
  | .binop op fst snd, htemps, hjumps, σ, base, A, hfp => by
    obtain ⟨htemps₁, htemps₂⟩ := List.forall_mem_append.mp htemps
    rw [Expr.canonical]
    refine (fst.canonical_annotated htemps₁ hjumps.1 σ base hfp).bind fun r₁ σ₁ ⟨B₁, hB₁, hv₁, h₁⟩ => ?_
    refine (materialize_ensures r₁.2 σ₁).bind fun _ σ₂ ⟨n₁, hm₁⟩ => ?_
    -- The first operand is saved before the second one is computed, so it has a value there.
    have hfp₁ : fp ∈ insert ⟨n₁⟩ B₁ := .inr (hB₁ hfp)
    refine (snd.canonical_annotated htemps₂ hjumps.2 σ₂ base hfp₁).bind fun r₂ σ₃ ⟨B₂, hB₂, hv₂, h₂⟩ => ?_
    refine (materialize_ensures r₂.2 σ₃).bind fun _ σ₄ ⟨n₂, hm₂⟩ => ?_
    subst hm₁ hm₂
    refine (materialize_ensures _ σ₄).bind fun _ _ ⟨n, hm⟩ => ?_
    subst hm
    -- Both temps have a value where the operator is applied: the first was not lost in between.
    have hoperands : ∀ u ∈ (Expr.binop op (.temp ⟨n₁⟩) (.temp ⟨n₂⟩)).temps, u ∈ insert ⟨n₂⟩ B₂ := by
      simp only [Expr.temps, List.singleton_append, List.forall_mem_cons]
      exact ⟨.inr (hB₂ (.inl rfl)), .inl rfl, by simp⟩
    refine .pure ⟨insert ⟨n⟩ (insert ⟨n₂⟩ B₂), ?_, by simp [Expr.temps], ?_⟩
    · apply hB₁.trans
      apply (Set.subset_insert _ _).trans
      apply hB₂.trans
      exact (Set.subset_insert _ _).trans (Set.subset_insert _ _)
    · have hall := (h₁.append (.moveInto hv₁ n₁)).append
        ((h₂.append (.moveInto hv₂ n₂)).append (.moveInto hoperands n))
      simpa [Expr.labels] using hall
  | .call l offs args, htemps, hjumps, σ, base, A, hfp => by
    rw [Expr.canonical]
    refine (Expr.canonicalArgs_annotated args htemps hjumps σ base hfp).bind fun r σ₁ ⟨B, hB, hv, h⟩ => ?_
    refine (materialize_ensures _ σ₁).bind fun _ _ ⟨n, hm⟩ => ?_
    subst hm
    refine .pure ⟨insert ⟨n⟩ B, hB.trans (Set.subset_insert _ _), by simp [Expr.temps], ?_⟩
    have hcall : ∀ u ∈ (Expr.call l offs r.2).temps, u ∈ B := hv
    simpa [Expr.labels] using h.append (.moveInto hcall n)
  | .sexpr stmt value, htemps, hjumps, σ, base, A, hfp => by
    obtain ⟨htemps₁, htemps₂⟩ := List.forall_mem_append.mp htemps
    rw [Expr.canonical]
    refine (stmt.canonical_annotated htemps₁ hjumps.1 σ hfp).bind fun before σ₁ h₁ => ?_
    refine (value.canonical_annotated htemps₂ hjumps.2.2 σ₁ base hfp).bind fun r _ ⟨B, hB, hv, h₂⟩ => ?_
    -- No jump leaves the statement, so its labels are not seen from outside.
    exact .pure ⟨B, hB, hv, (h₁.close hjumps.2.1 base).append h₂⟩

theorem Expr.canonicalArgs_annotated : ∀ (es : List Expr), (∀ t ∈ Expr.tempsAll es, t = fp) →
    Expr.EnclosedAll es → ∀ (σ : Supply) (base : Set Temp) {A : Set Temp}, fp ∈ A →
    Ensures (Expr.canonicalArgs es) σ fun r _ =>
      ∃ B, A ⊆ B ∧ (∀ t ∈ Expr.tempsAll r.2, t ∈ B) ∧ Annotated base [] [] (Expr.labelsAll es) A r.1 B
  | [], _, _, _, _, A, _ => .pure ⟨A, Set.Subset.rfl, by simp [Expr.tempsAll], .nil _ A⟩
  | e :: es, htemps, hjumps, σ, base, A, hfp => by
    obtain ⟨htemps₁, htemps₂⟩ := List.forall_mem_append.mp htemps
    rw [Expr.canonicalArgs]
    refine (e.canonical_annotated htemps₁ hjumps.1 σ base hfp).bind fun r₁ σ₁ ⟨B₁, hB₁, hv₁, h₁⟩ => ?_
    refine (materialize_ensures r₁.2 σ₁).bind fun _ σ₂ ⟨n, hm⟩ => ?_
    subst hm
    have hfp₁ : fp ∈ insert ⟨n⟩ B₁ := .inr (hB₁ hfp)
    refine (Expr.canonicalArgs_annotated es htemps₂ hjumps.2 σ₂ base hfp₁).bind
      fun r₂ _ ⟨B₂, hB₂, hv₂, h₂⟩ => .pure ⟨B₂, ?_, ?_, ?_⟩
    · exact hB₁.trans ((Set.subset_insert _ _).trans hB₂)
    · simp only [Expr.tempsAll, Expr.temps, List.singleton_append, List.forall_mem_cons]
      exact ⟨hB₂ (.inl rfl), hv₂⟩
    · simpa [Expr.labelsAll] using (h₁.append (.moveInto hv₁ n)).append h₂

/-- **Canonical code of a statement can be annotated.** All labels of the list that the statement
flattens to get the set at its start. -/
theorem Stmt.canonical_annotated : ∀ (s : Stmt), (∀ t ∈ s.temps, t = fp) → s.Enclosed →
    ∀ (σ : Supply) {A : Set Temp}, fp ∈ A → Ensures s.canonical σ fun ss _ =>
      Annotated A (Stmt.labelsOf s.flatten) (Stmt.targetsOf s.flatten) s.labels A ss A
  | .absent, _, _, _, _, _ => .throw _
  | .jump l, _, _, _, A, _ => .pure (.jump l Set.Subset.rfl)
  | .label l, _, _, _, A, _ => .pure (.label l A)
  | .eval e, htemps, hjumps, σ, A, hfp => by
    rw [Stmt.canonical]
    refine (e.canonical_annotated htemps hjumps σ A hfp).bind fun r _ ⟨B, hB, hv, h⟩ => .pure ?_
    have hall := (h.append (.eval hv)).forget hB
    rw [List.append_nil e.labels] at hall
    exact hall
  | .cjump cond pos neg, htemps, hjumps, σ, A, hfp => by
    rw [Stmt.canonical]
    refine (cond.canonical_annotated htemps hjumps σ A hfp).bind fun r _ ⟨B, hB, hv, h⟩ => .pure ?_
    have hall := (h.append (.cjump pos neg hB hv)).forget hB
    rw [List.append_nil cond.labels] at hall
    exact hall
  | .move (.mem addr) src, htemps, hjumps, σ, A, hfp => by
    obtain ⟨htemps₁, htemps₂⟩ := List.forall_mem_append.mp htemps
    rw [Stmt.canonical]
    refine (addr.canonical_annotated htemps₁ hjumps.1 σ A hfp).bind fun r₁ σ₁ ⟨B₁, hB₁, hv₁, h₁⟩ => ?_
    refine (materialize_ensures r₁.2 σ₁).bind fun _ σ₂ ⟨n, hm⟩ => ?_
    subst hm
    -- The address waits in a temp of its own while the source is evaluated.
    have hfp₁ : fp ∈ insert ⟨n⟩ B₁ := .inr (hB₁ hfp)
    refine (src.canonical_annotated htemps₂ hjumps.2 σ₂ A hfp₁).bind
      fun r₂ _ ⟨B₂, hB₂, hv₂, h₂⟩ => .pure ?_
    have hall := (h₁.append (.moveInto hv₁ n)).append (h₂.append (.store (hB₂ (.inl rfl)) hv₂))
    have hA : A ⊆ B₂ := hB₁.trans ((Set.subset_insert _ _).trans hB₂)
    rw [List.append_nil addr.labels, List.append_nil src.labels, List.append_assoc r₁.1] at hall
    rw [List.append_assoc]
    exact hall.forget hA
  | .move (.temp t) src, htemps, hjumps, σ, A, hfp => by
    obtain ⟨-, htemps⟩ := List.forall_mem_append.mp htemps
    rw [Stmt.canonical]
    refine (src.canonical_annotated htemps hjumps.2 σ A hfp).bind fun r _ ⟨B, hB, hv, h⟩ => .pure ?_
    have hall := (h.append (.move (t := t) hv)).forget (hB.trans (Set.subset_insert _ _))
    rw [List.append_nil src.labels] at hall
    exact hall
  | .move .absent _, _, _, _, _, _ | .move (.const _) _, _, _, _, _, _ | .move (.name _) _, _, _, _, _, _
  | .move (.binop _ _ _) _, _, _, _, _, _ | .move (.unop _ _) _, _, _, _, _, _
  | .move (.call _ _ _) _, _, _, _, _, _ | .move (.sexpr _ _) _, _, _, _, _, _ => .throw _
  | .seq stmts, htemps, hjumps, σ, A, hfp => by
    rw [Stmt.canonical]
    exact Stmt.canonicalAll_annotated stmts htemps hjumps σ hfp

theorem Stmt.canonicalAll_annotated : ∀ (ss : List Stmt), (∀ t ∈ Stmt.tempsAll ss, t = fp) →
    Stmt.EnclosedAll ss → ∀ (σ : Supply) {A : Set Temp}, fp ∈ A →
    Ensures (Stmt.canonicalAll ss) σ fun r _ => Annotated A (Stmt.labelsOf (Stmt.flattenAll ss))
      (Stmt.targetsOf (Stmt.flattenAll ss)) (Stmt.labelsAll ss) A r A
  | [], _, _, _, A, _ => .pure (.nil A A)
  | s :: ss, htemps, hjumps, σ, A, hfp => by
    obtain ⟨htemps₁, htemps₂⟩ := List.forall_mem_append.mp htemps
    rw [Stmt.canonicalAll]
    refine (s.canonical_annotated htemps₁ hjumps.1 σ hfp).bind fun first σ₁ h₁ => ?_
    refine (Stmt.canonicalAll_annotated ss htemps₂ hjumps.2 σ₁ hfp).bind fun rest _ h₂ => .pure ?_
    rw [Stmt.flattenAll, Stmt.labelsOf_append, Stmt.targetsOf_append]
    exact h₁.append h₂

end

end Canonicalization

/-! ## §3 Selection -/

/-- Instructions that leave a value in the temp `t`, provided that the temps of `reads` have one. -/
def Computes (reads : List Temp) (is : List Instr) (t : Temp) : Prop :=
  ∀ (known : List Promise) (A : Set Temp), (∀ u ∈ reads, u ∈ A) →
    Assigns known A (is.map Instr.footprint) (insert t A)

namespace Computes

variable {reads reads' : List Temp} {is is' : List Instr} {t t' dst : Temp}

/-- One operation more, on a value that has been computed. -/
theorem behind (h : Computes reads is t) (op : Opcode) (dst : Temp) :
    Computes reads (is ++ [.plain op [t] [dst]]) dst := by
  intro known A hA
  have hop : Assigns known (insert t A) ([Instr.plain op [t] [dst]].map Instr.footprint)
      (insert dst (insert t A)) := .write (by simp) dst
  refine ((h known A hA).append_map hop).forget ?_
  exact Set.insert_subset_insert (Set.subset_insert t A)

theorem loadConstant (dst : Temp) (v : Word) : Computes [] (Instr.loadConstant dst v) dst := by
  intro known A _
  -- The low group is set first, and all others are added to it.
  have hrest : ∀ groups : List (WydePlace × Nat), Assigns known (insert dst A)
      ((groups.map fun group => Instr.plain (.loadWyde group.1 group.2)
        (if group.1 = .low then [] else [dst]) [dst]).map Instr.footprint) (insert dst A) := by
    intro groups
    induction groups with
    | nil => exact .nil known _
    | cons group groups ih =>
      have hfirst : Assigns known (insert dst A) [(Instr.plain (.loadWyde group.1 group.2)
          (if group.1 = .low then [] else [dst]) [dst]).footprint] (insert dst (insert dst A)) := by
        apply Assigns.write
        split <;> simp
      rw [Set.insert_eq_of_mem (Set.mem_insert dst A)] at hfirst
      exact hfirst.append ih
  have hlow : Assigns known A [(Instr.plain (.loadWyde .low (v.wyde 0)) [] [dst]).footprint]
      (insert dst A) :=
    .write (by simp) dst
  exact hlow.append (hrest _)

theorem binary {op : BinOp} {fst snd dst : Temp} (h : Instr.binary op fst snd dst = .ok is) :
    Computes [fst, snd] is dst := by
  have hone : ∀ a, Computes [fst, snd] [.plain (.arith a) [fst, snd] [dst]] dst := fun a known A hA =>
    .write hA dst
  have htwo : ∀ a b reads, (∀ t ∈ reads, t = dst) →
      Computes [fst, snd] [.plain a [fst, snd] [dst], .plain b reads [dst]] dst := by
    intro a b reads hreads known A hA
    have hsecond : Assigns known (insert dst A) [(Instr.plain b reads [dst]).footprint]
        (insert dst (insert dst A)) := .write (fun t ht => .inl (hreads t ht)) dst
    rw [Set.insert_eq_of_mem (Set.mem_insert dst A)] at hsecond
    exact Assigns.append (.write hA dst) hsecond
  cases op with
  | or | and | add | sub | mul | div =>
    cases h
    exact hone _
  | equ | neq | lth | gth | leq | geq | mod =>
    cases h
    exact htwo _ _ _ (by simp)
  | unknown code => cases h

end Computes

/-- Storing arguments that have a value adds no temps that matter. -/
theorem storeArguments_assigns (mode : ArgPassing) {known : List Promise} {A : Set Temp} :
    ∀ (offs : List Word) {args : List Temp}, (∀ t ∈ args, t ∈ A) → ∀ σ : Supply,
      Assigns known A (((Instr.storeArguments mode offs args).run σ).1.map Instr.footprint) A
  | [], _, _, _ => .nil known A
  | _ :: _, [], _, _ => .nil known A
  | off :: offs, arg :: args, hargs, σ => by
    obtain ⟨harg, hargs⟩ := List.forall_mem_cons.mp hargs
    have hfirst : Assigns known A (((Instr.storeArgument mode off arg).run σ).1.map Instr.footprint)
        A := by
      unfold Instr.storeArgument
      split
      · apply Assigns.read
        simpa using harg
      · -- The offset goes into a temp, and so does the address that is computed from it.
        have hoffset : Computes [] (Instr.loadConstant ⟨σ.temps + 1⟩ off) ⟨σ.temps + 1⟩ :=
          .loadConstant _ _
        have haddr := (hoffset.behind .argAddress ⟨σ.temps + 1 + 1⟩) known A (by simp)
        have hstore : Assigns known (insert ⟨σ.temps + 1 + 1⟩ A)
            ([Instr.plain .storeAt [arg, ⟨σ.temps + 1 + 1⟩] []].map Instr.footprint) A := by
          refine (Assigns.read ?_).forget (Set.subset_insert _ A)
          simpa using Or.inr harg
        have hall := haddr.append_map hstore
        rw [List.append_assoc] at hall
        exact hall
    exact hfirst.append_map (storeArguments_assigns mode offs hargs _)

section Selection

variable (mode : ArgPassing)

mutual

/-- The instructions of an expression leave its value in the temp that selection returns. -/
theorem Expr.select_assigns : ∀ (e : Expr) (σ : Supply),
    Ensures (e.select mode) σ fun r _ => Computes e.temps r.1 r.2
  | .absent, _ | .sexpr _ _, _ => .throw _
  | .temp t, _ => .pure fun known A hA => by
    rw [Set.insert_eq_of_mem (hA t (List.mem_singleton_self t))]
    exact .nil known A
  | .const v, _ => .of_succeeds (.lift (.loadConstant _ v))
  | .name label, σ => by
    rw [Expr.select]
    refine .bind (P := fun _ _ => True) (fun _ _ _ => trivial) fun dst _ _ => .pure ?_
    exact fun known A _ => .write (by simp) dst
  | .mem addr, σ => by
    rw [Expr.select]
    refine (addr.select_assigns σ).bind fun r σ₁ h => ?_
    refine .bind (P := fun _ _ => True) (fun _ _ _ => trivial) fun dst _ _ => .pure ?_
    exact h.behind .loadAt dst
  | .binop op fst snd, σ => by
    rw [Expr.select]
    refine (fst.select_assigns σ).bind fun ⟨before₁, a⟩ σ₁ h₁ => ?_
    refine (snd.select_assigns σ₁).bind fun ⟨before₂, b⟩ σ₂ h₂ => ?_
    refine .bind (P := fun _ _ => True) (fun _ _ _ => trivial) fun dst _ _ => ?_
    refine .ofExcept_bind fun is his => .pure fun known A hA => ?_
    obtain ⟨hA₁, hA₂⟩ := List.forall_mem_append.mp hA
    have hsnd := h₂ known (insert a A) fun u hu => .inr (hA₂ u hu)
    have hop := Computes.binary his known (insert b (insert a A)) (by simp)
    -- The temps of the operands stay assigned, but only the one of the result is promised.
    have hall := ((h₁ known A hA₁).append_map hsnd).append_map hop
    refine hall.forget (Set.insert_subset_insert ?_)
    exact (Set.subset_insert a A).trans (Set.subset_insert b _)
  | .unop op arg, σ => by
    rw [Expr.select]
    refine (arg.select_assigns σ).bind fun ⟨before, a⟩ σ₁ h => ?_
    refine .bind (P := fun _ _ => True) (fun _ _ _ => trivial) fun fresh _ _ => ?_
    cases op with
    | unknown code => exact .throw _
    | neg => exact .pure (h.behind .negate _)
    | not =>
      refine .bind (P := fun _ _ => True) (fun _ _ _ => trivial) fun neg _ _ => ?_
      have hboth : ∀ dst, Computes arg.temps
          (before ++ [.plain .negate [a] [neg], .plain .increment [neg] [dst]]) dst := fun dst => by
        simpa using (h.behind .negate neg).behind .increment dst
      exact .pure (hboth _)
  | .call label offs args, σ => by
    rw [Expr.select]
    split
    · exact .throw _
    · refine (Expr.selectArgs_assigns args σ).bind fun ⟨before, temps⟩ σ₁ h => ?_
      refine (Ensures.of_succeeds (.lift (P := fun stores _ => ∀ (known : List Promise) (A : Set Temp),
        (∀ t ∈ temps, t ∈ A) → Assigns known A (stores.map Instr.footprint) A)
        fun _ _ hA => storeArguments_assigns mode offs hA σ₁)).bind fun stores σ₂ hstores => ?_
      refine .bind (P := fun _ _ => True) (fun _ _ _ => trivial) fun result _ _ => .pure ?_
      intro known A hA
      -- The call itself neither reads nor writes temps, and its result is fetched behind it.
      have hcall : Assigns known (A ∪ {t | t ∈ temps})
          ([Instr.oper (.call label) [] [] [label] .call, .plain .loadResult [] [result]].map
            Instr.footprint)
          (insert result (A ∪ {t | t ∈ temps})) :=
        Assigns.append (.read (by simp)) (.write (by simp) result)
      have hargs := hstores known (A ∪ {t | t ∈ temps}) fun t ht => .inr ht
      have hall := ((h known A hA).append_map hargs).append_map hcall
      exact hall.forget (Set.insert_subset_insert Set.subset_union_left)

theorem Expr.selectArgs_assigns : ∀ (es : List Expr) (σ : Supply),
    Ensures (Expr.selectArgs mode es) σ fun r _ => ∀ (known : List Promise) (A : Set Temp),
      (∀ u ∈ Expr.tempsAll es, u ∈ A) → Assigns known A (r.1.map Instr.footprint) (A ∪ {t | t ∈ r.2})
  | [], _ => .pure fun known A _ => by simpa using Assigns.nil known A
  | e :: es, σ => by
    rw [Expr.selectArgs]
    refine (e.select_assigns σ).bind fun ⟨first, t⟩ σ₁ h₁ => ?_
    refine (Expr.selectArgs_assigns es σ₁).bind fun ⟨rest, ts⟩ _ h₂ => .pure fun known A hA => ?_
    obtain ⟨hA₁, hA₂⟩ := List.forall_mem_append.mp hA
    have hall := (h₁ known A hA₁).append_map (h₂ known (insert t A) fun u hu => .inr (hA₂ u hu))
    refine hall.forget ?_
    intro u hu
    simpa [or_assoc, or_left_comm] using hu

end

/-- Instructions that take the place of statements: they can be annotated as the statements can, and
the labels and the moves into temps are among them. -/
structure Realizes (ss : List Stmt) (is : List Instr) : Prop where
  assigns : ∀ (known : List Promise) (A B : Set Temp), Assigns known A (ss.map Stmt.footprint) B →
    Assigns known A (is.map Instr.footprint) B
  labels : ∀ l, .label l ∈ ss → .label l ∈ is
  moves : ∀ t e, .move (.temp t) e ∈ ss → ∃ v, .move v t ∈ is

/-- **Selection for one statement.** -/
theorem Stmt.select_realizes (next : List Stmt) {s : Stmt} (h : s.Canonical) (σ : Supply) :
    Ensures (s.select mode next) σ fun is _ => Realizes [s] is := by
  unfold Stmt.Canonical at h
  split at h
  · exact .pure ⟨fun _ _ _ h => h, by simp, by simp⟩
  · exact .pure ⟨fun _ _ _ h => h, by simp, by simp⟩
  · next cond pos neg =>
    rw [Stmt.select]
    refine (cond.select_assigns mode σ).bind ?_
    rintro ⟨before, c⟩ _ hcond
    refine .pure ⟨?_, by simp, by simp⟩
    rintro known A B ⟨hreads, htargets, hB⟩
    -- The targets promise what they did before: the temp of the condition comes on top.
    have hkept : ∀ l ∈ [pos, neg], ∃ S, (l, S) ∈ known ∧ S ⊆ insert c A := fun l hl => by
      obtain ⟨S, hS, hSA⟩ := htargets l hl
      exact ⟨S, hS, fun u hu => .inr (by simpa using hSA hu)⟩
    have hB : B ⊆ A := by simpa [Assigns] using hB
    refine (hcond known A hreads).append_map ⟨by simp, fun l hl => ?_, ?_⟩
    · obtain ⟨S, hS, hSA⟩ := hkept l hl
      exact ⟨S, hS, hSA.trans Set.subset_union_left⟩
    -- Whether the branch falls through or a jump follows, the negative label is a target of the branch.
    · cases isLabelNext neg next with
      | true => exact hB.trans ((Set.subset_insert c A).trans Set.subset_union_left)
      | false =>
        obtain ⟨S, hS, hSA⟩ := hkept neg (by simp)
        refine ⟨by simp, fun l hl => ?_, Set.subset_univ B⟩
        rw [List.mem_singleton.mp hl]
        exact ⟨S, hS, hSA.trans (Set.subset_union_left.trans Set.subset_union_left)⟩
  · next e =>
    rw [Stmt.select]
    refine (e.select_assigns mode σ).bind ?_
    rintro ⟨is, t⟩ _ he
    refine .pure ⟨?_, by simp, by simp⟩
    rintro known A B ⟨hreads, -, hB⟩
    refine (he known A hreads).forget ?_
    have hB : B ⊆ A := by simpa [Assigns] using hB
    exact hB.trans (Set.subset_insert t A)
  · next t src =>
    rw [Stmt.select]
    refine (src.select_assigns mode σ).bind ?_
    rintro ⟨is, v⟩ _ hsrc
    refine .pure ⟨?_, by simp, ?_⟩
    case refine_2 =>
      intro t' e hmove
      cases List.mem_singleton.mp hmove
      exact ⟨v, by simp⟩
    rintro known A B ⟨hreads, -, hB⟩
    have hmove : Assigns known (insert v A) ([Instr.move v t].map Instr.footprint)
        (insert t (insert v A)) :=
      .write (by simp) t
    -- Besides the target of the move, the temp of the source has been assigned; it is forgotten.
    refine ((hsrc known A hreads).append_map hmove).forget ?_
    intro u hu
    rcases hB hu with hu | hu
    · exact .inr (.inr hu)
    · exact .inl (List.mem_singleton.mp hu)
  · next addr src =>
    rw [Stmt.select]
    refine ((Expr.temp addr).select_assigns mode σ).bind ?_
    rintro ⟨is₁, a⟩ σ₁ haddr
    refine (src.select_assigns mode σ₁).bind ?_
    rintro ⟨is₂, v⟩ _ hsrc
    refine .pure ⟨?_, by simp, by simp⟩
    rintro known A B ⟨hreads, -, hB⟩
    obtain ⟨hreads₁, hreads₂⟩ := List.forall_mem_append.mp hreads
    -- By now the temps that the store reads are assigned.
    have hstore : Assigns known (insert v (insert a A))
      ([Instr.plain .storeAt [v, a] []].map Instr.footprint)
        (insert v (insert a A)) := .read (by simp)
    have hvalue := hsrc known (insert a A) fun u hu => .inr (hreads₂ u hu)
    have hall := ((haddr known A hreads₁).append_map hvalue).append_map hstore
    refine hall.forget ?_
    intro u hu
    exact .inr (.inr (by simpa using hB hu))
  · exact h.elim

/-- **Selection keeps annotations.** -/
theorem Stmt.selectAll_realizes : ∀ (ss : List Stmt), (∀ s ∈ ss, s.Canonical) → ∀ σ : Supply,
    Ensures (Stmt.selectAll mode ss) σ fun is _ => Realizes ss is
  | [], _, _ => .pure ⟨fun _ _ _ h => h, by simp, by simp⟩
  | s :: ss, h, σ => by
    obtain ⟨hs, hss⟩ := List.forall_mem_cons.mp h
    rw [Stmt.selectAll]
    refine (Stmt.select_realizes mode ss hs σ).bind fun first σ₁ h₁ => ?_
    refine (Stmt.selectAll_realizes ss hss σ₁).bind fun rest _ h₂ => .pure ⟨?_, ?_, ?_⟩
    · intro known A B hall
      obtain ⟨C, hfirst, hrest⟩ := hall.of_cons
      exact (h₁.assigns known A C hfirst).append_map (h₂.assigns known C B hrest)
    · intro l hl
      rcases List.mem_cons.mp hl with rfl | hl
      · exact List.mem_append_left _ (h₁.labels l (List.mem_singleton_self _))
      · exact List.mem_append_right _ (h₂.labels l hl)
    · intro t e hmove
      rcases List.mem_cons.mp hmove with rfl | hmove
      · obtain ⟨v, hv⟩ := h₁.moves t e (List.mem_singleton_self _)
        exact ⟨v, List.mem_append_left _ hv⟩
      · obtain ⟨v, hv⟩ := h₂.moves t e hmove
        exact ⟨v, List.mem_append_right _ hv⟩

end Selection

end MmixBackend.IR
