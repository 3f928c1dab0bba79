import MmixBackend.Proofs.Assembly.Labels

/-!
# Expanding templates

`Registers.Expands` says what becomes of a template, character by character: a slot is replaced by
the register of the temp with its index, or by the call window, and everything else stays. An index
may have any number of digits, and any text but a digit may follow it.

Templates whose slots all have temps, and whose temps all have registers, are expanded in this way.
An instruction is filled if its temps are enough for the slots of its template; selection and
spilling only make such instructions.

## Main statements

- `Registers.Expands.toList_shown`: how every template is expanded.
- `Opcode.expands_template`: the templates of operations.
- `IR.CodeChunk.select_filled`, `Code.filled_of_spills`: every slot of an instruction has a temp.
-/

namespace MmixBackend

open Piece (slotMark)

/-! ## §1 Templates -/

namespace Registers

/-- The digits are the index of a temp in the list, and this temp has the register. -/
structure Fills (regs : Registers) (temps : List Temp) (digits : List Char) (r : Int) : Prop where
  ne_nil : digits ≠ []
  isDigit : ∀ c ∈ digits, c.isDigit
  le : Nat.ofDigitChars 10 digits 0 ≤ Piece.maxIndex
  temp : ∃ t, temps[Nat.ofDigitChars 10 digits 0]? = some t ∧ regs.colors[t]? = some r

/-- The template, with each slot replaced by the register of its temp and the call window put in, is
the text. -/
inductive Expands (regs : Registers) (uses defs : List Temp) : (template text : List Char) → Prop
  | nil : Expands regs uses defs [] []
  | char {c : Char} {cs out : List Char} : c ≠ slotMark → Expands regs uses defs cs out →
    Expands regs uses defs (c :: cs) (c :: out)
  | window {cs out : List Char} : Expands regs uses defs cs out →
    Expands regs uses defs (slotMark :: 'w' :: cs) ('$' :: ((toString regs.window).toList ++ out))
  | use {digits cs out : List Char} {r : Int} : regs.Fills uses digits r →
    (∀ c ∈ cs.head?, c.isDigit = false) → Expands regs uses defs cs out →
      Expands regs uses defs (slotMark :: 's' :: (digits ++ cs)) ('$' :: ((toString r).toList ++ out))
  | define {digits cs out : List Char} {r : Int} : regs.Fills defs digits r →
    (∀ c ∈ cs.head?, c.isDigit = false) → Expands regs uses defs cs out →
      Expands regs uses defs (slotMark :: 'd' :: (digits ++ cs)) ('$' :: ((toString r).toList ++ out))

end Registers

namespace Piece

/-- The digits of an index are read as far as they go. -/
theorem read_digits {kind : Char} {digits cs : List Char} (hdigits : ∀ c ∈ digits, c.isDigit)
    (hcs : ∀ c ∈ cs.head?, c.isDigit = false) (n : Nat) :
    read (.slot kind (some n)) (digits ++ cs)
      = ofSlot kind (some (Nat.ofDigitChars 10 digits n)) :: read .text cs := by
  induction digits generalizing n with
  | nil =>
    cases cs with
    | nil => rfl
    | cons c cs =>
      have hc : ¬c.isDigit = true := Bool.eq_false_iff.mp (hcs c rfl)
      rw [List.nil_append, read, read, if_neg hc]
      split <;> rfl
  | cons d digits ih =>
    obtain ⟨hd, hdigits⟩ := List.forall_mem_cons.mp hdigits
    rw [List.cons_append, read, if_pos hd, ih hdigits, Option.getD_some, Nat.mul_comm n 10]
    rfl

theorem read_slot {kind : Char} (hkind : kind = 's' ∨ kind = 'd') {digits cs : List Char}
    (hne : digits ≠ []) (hdigits : ∀ c ∈ digits, c.isDigit)
    (hcs : ∀ c ∈ cs.head?, c.isDigit = false) :
    read .text (slotMark :: kind :: (digits ++ cs))
      = ofSlot kind (some (Nat.ofDigitChars 10 digits 0)) :: read .text cs := by
  obtain ⟨d, digits, rfl⟩ := List.exists_cons_of_ne_nil hne
  obtain ⟨hd, hdigits⟩ := List.forall_mem_cons.mp hdigits
  have hwindow : kind ≠ 'w' := by rcases hkind with rfl | rfl <;> decide
  have hascii : kind.toNat < 0x80 := by rcases hkind with rfl | rfl <;> decide
  rw [read, if_pos rfl, read, if_neg hwindow, if_pos hascii, List.cons_append, read, if_pos hd,
    read_digits hdigits hcs]
  rfl

theorem read_window (cs : List Char) : read .text (slotMark :: 'w' :: cs) = window :: read .text cs := by
  rw [read, if_pos rfl, read, if_pos rfl]

end Piece

namespace Registers

variable {regs : Registers} {uses defs : List Temp} {template text : List Char}

theorem Fills.slot_eq {temps : List Temp} {digits : List Char} {r : Int} (h : regs.Fills temps digits r)
    (kind : String) : regs.slot kind temps (Nat.ofDigitChars 10 digits 0) = "$" ++ toString r := by
  obtain ⟨t, ht, hr⟩ := h.temp
  rw [slot, ht]
  show regs.name t = _
  rw [name, hr]

/-- **How templates are expanded**: in the only way that is possible. -/
theorem Expands.toList_shown (h : regs.Expands uses defs template text) (hwindow : 0 ≤ regs.window) :
    (regs.shown uses defs (Piece.read .text template)).toList = text := by
  have hcons (p : Piece) (ps : List Piece) : (regs.shown uses defs (p :: ps)).toList
      = (regs.piece uses defs p).toList ++ (regs.shown uses defs ps).toList := by
    simp [shown]
  induction h with
  | nil => rfl
  | @char c cs out hc _ ih =>
    rw [Piece.read, if_neg hc, hcons, ih, piece, Char.toString, String.toList_singleton]
    rfl
  | window _ ih =>
    rw [Piece.read_window, hcons, ih, piece, if_neg (by omega), String.toList_append]
    rfl
  | use hfills hcs _ ih =>
    rw [Piece.read_slot (.inl rfl) hfills.ne_nil hfills.isDigit hcs, hcons, ih, Piece.ofSlot,
      if_neg (Nat.not_lt.mpr hfills.le), if_pos rfl, piece, hfills.slot_eq, String.toList_append]
    rfl
  | define hfills hcs _ ih =>
    rw [Piece.read_slot (.inr rfl) hfills.ne_nil hfills.isDigit hcs, hcons, ih, Piece.ofSlot,
      if_neg (Nat.not_lt.mpr hfills.le), if_neg (by decide), if_pos rfl, piece, hfills.slot_eq,
      String.toList_append]
    rfl

/-- No slot is left. -/
theorem Expands.slotMark_not_mem (h : regs.Expands uses defs template text) : slotMark ∉ text := by
  have hregister (n : Int) {out : List Char} (hout : slotMark ∉ out) :
      slotMark ∉ '$' :: ((toString n).toList ++ out) := by
    rw [List.mem_cons, List.mem_append, not_or, not_or]
    exact ⟨by decide, Opcode.slotMark_not_mem_int n, hout⟩
  induction h with
  | nil => exact List.not_mem_nil
  | char hc _ ih => exact List.not_mem_cons_of_ne_of_not_mem hc.symm ih
  | window _ ih => exact hregister _ ih
  | use _ _ _ ih => exact hregister _ ih
  | define _ _ _ ih => exact hregister _ ih

end Registers

/-! ## §2 Operations -/

namespace Piece

/-- How a piece is written in a template. -/
def spelling : Piece → List Char
  | char c => [c]
  | window => [slotMark, 'w']
  | use i => slotMark :: 's' :: Nat.toDigits 10 i
  | define i => slotMark :: 'd' :: Nat.toDigits 10 i
  | malformed kind _ => [slotMark, kind]

end Piece

namespace Registers

variable {regs : Registers} {uses defs : List Temp}

/-- The list has a temp at the index, and this temp has a register. -/
def Holds (regs : Registers) (temps : List Temp) (i : Nat) : Prop :=
  i ≤ Piece.maxIndex ∧ ∃ t r, temps[i]? = some t ∧ regs.colors[t]? = some r

/-- The operand of an operation is a slot that can be filled, or it is a text without slots. -/
inductive Operand (regs : Registers) (uses defs : List Temp) : List Piece → Prop
  | window : Operand regs uses defs [.window]
  | use {i : Nat} : regs.Holds uses i → Operand regs uses defs [.use i]
  | define {i : Nat} : regs.Holds defs i → Operand regs uses defs [.define i]
  | chars {s : String} : slotMark ∉ s.toList → Operand regs uses defs (Piece.chars s)

theorem Holds.fills {temps : List Temp} {i : Nat} (h : regs.Holds temps i) :
    ∃ r, regs.Fills temps (Nat.toDigits 10 i) r := by
  obtain ⟨hle, t, r, ht, hr⟩ := h
  have hdigits : Nat.ofDigitChars 10 (Nat.toDigits 10 i) 0 = i :=
    Nat.ofDigitChars_toDigits (by decide) (by decide)
  refine ⟨r, Nat.toDigits_ne_nil, fun c hc => Nat.isDigit_of_mem_toDigits (by decide) (by decide)
    hc, ?_, t, ?_, hr⟩
  · rwa [hdigits]
  · rwa [hdigits]

theorem exists_expands_append {cs rest out : List Char} (hcs : slotMark ∉ cs)
    (hrest : regs.Expands uses defs rest out) : ∃ out', regs.Expands uses defs (cs ++ rest) out' := by
  induction cs with
  | nil => exact ⟨out, hrest⟩
  | cons c cs ih =>
    obtain ⟨hc, hcs⟩ := not_or.mp (fun h => hcs (List.mem_cons.mpr h))
    obtain ⟨out', hout'⟩ := ih hcs
    exact ⟨c :: out', .char (Ne.symm hc) hout'⟩

/-- An operand can be expanded in front of anything but a digit. -/
theorem Operand.exists_expands {o : List Piece} (h : Operand regs uses defs o) {rest out : List Char}
    (hhead : ∀ c ∈ rest.head?, c.isDigit = false) (hrest : regs.Expands uses defs rest out) :
    ∃ out', regs.Expands uses defs (o.flatMap Piece.spelling ++ rest) out' := by
  cases h with
  | window => exact ⟨_, .window hrest⟩
  | use h =>
    obtain ⟨r, hr⟩ := h.fills
    rw [List.flatMap_singleton]
    exact ⟨_, .use hr hhead hrest⟩
  | define h =>
    obtain ⟨r, hr⟩ := h.fills
    rw [List.flatMap_singleton]
    exact ⟨_, .define hr hhead hrest⟩
  | @chars s hs =>
    have hspelling : (Piece.chars s).flatMap Piece.spelling = s.toList := by
      rw [Piece.chars, List.flatMap_map]
      exact List.flatMap_singleton' s.toList
    rw [hspelling]
    exact exists_expands_append hs hrest

theorem exists_expands_intercalate : ∀ {os : List (List Piece)}, os.Forall (Operand regs uses defs) →
    ∃ out, regs.Expands uses defs ([','].intercalate (os.map fun o => o.flatMap Piece.spelling)) out
  | [], _ => ⟨[], .nil⟩
  | [o], ho => by
    have hend : ∀ c ∈ ([] : List Char).head?, c.isDigit = false := by simp
    obtain ⟨out, hout⟩ := Operand.exists_expands ho hend .nil
    rw [List.append_nil] at hout
    exact ⟨out, by simpa using hout⟩
  | o :: o' :: os, ⟨ho, hos⟩ => by
    obtain ⟨out, hout⟩ := exists_expands_intercalate hos
    rw [List.map_cons, List.map_cons, List.intercalate_cons_cons, List.append_assoc]
    rw [List.map_cons] at hout
    refine ho.exists_expands (fun c hc => ?_) (.char (by decide) hout)
    cases hc
    rfl

end Registers

namespace Opcode

/-- How many used and how many defined temps the template of an operation names. -/
def slots : Opcode → Nat × Nat
  | loadWyde .. | remainder | loadResult | loadAddress _ => (0, 1)
  | arith _ | compare | loadIndexed => (2, 1)
  | setIf _ | increment | negate | loadAt | argAddress => (1, 1)
  | storeAt => (2, 0)
  | storeIndexed => (3, 0)
  | storeArg _ | branch _ => (1, 0)
  | goto _ | call _ | other _ => (0, 0)

theorem slots_le (op : Opcode) : op.slots.1 ≤ 3 ∧ op.slots.2 ≤ 3 := by cases op <;> simp [slots]

theorem toList_template {op : Opcode} (hop : ∀ template, op ≠ .other template) :
    op.template.toList
      = op.mnemonic.toList ++ ' ' :: [','].intercalate
        (op.operands.map fun o => o.flatMap Piece.spelling) := by
  have hchars (s : String) : (Piece.chars s).flatMap Piece.spelling = s.toList := by
    rw [Piece.chars, List.flatMap_map]
    exact List.flatMap_singleton' s.toList
  have hzero : Nat.toDigits 10 0 = ['0'] := rfl
  have hone : Nat.toDigits 10 1 = ['1'] := rfl
  have htwo : Nat.toDigits 10 2 = ['2'] := rfl
  cases op with
  | other template => exact absurd rfl (hop template)
  | _ => simp [template, mnemonic, operands, hchars, Piece.spelling, slotMark, hzero, hone, htwo]

variable {regs : Registers} {uses defs : List Temp}

theorem operands_expand {op : Opcode} (hlabel : ∀ l ∈ op.label?, l.Legible)
    (huses : ∀ i < op.slots.1, regs.Holds uses i) (hdefs : ∀ i < op.slots.2, regs.Holds defs i) :
    op.operands.Forall (Registers.Operand regs uses defs) := by
  -- What an opcode copies into its operands must not look like a slot.
  have hmark : ∀ l ∈ op.label?, slotMark ∉ l.toList := fun l hl hmem =>
    (hlabel l hl).char_ne hmem (by decide) rfl
  have hliteral : slotMark ∉ "rR".toList ∧ slotMark ∉ "0".toList ∧ slotMark ∉ "1".toList ∧
      slotMark ∉ stackPointer.toList := by decide
  obtain ⟨hrR, hzero, hone, hsp⟩ := hliteral
  cases op with
  | loadWyde place value => exact ⟨.define (hdefs 0 Nat.one_pos), .chars (slotMark_not_mem_int value)⟩
  | arith | compare | loadIndexed =>
    exact ⟨.define (hdefs 0 Nat.one_pos), .use (huses 0 Nat.zero_lt_two), .use (huses 1 Nat.one_lt_two)⟩
  | remainder => exact ⟨.define (hdefs 0 Nat.one_pos), .chars hrR⟩
  | setIf | increment => exact ⟨.define (hdefs 0 Nat.one_pos), .use (huses 0 Nat.one_pos), .chars hone⟩
  | negate => exact ⟨.define (hdefs 0 Nat.one_pos), .use (huses 0 Nat.one_pos)⟩
  | loadAt => exact ⟨.define (hdefs 0 Nat.one_pos), .use (huses 0 Nat.one_pos), .chars hzero⟩
  | storeAt => exact ⟨.use (huses 0 Nat.zero_lt_two), .use (huses 1 Nat.one_lt_two), .chars hzero⟩
  | storeIndexed =>
    exact ⟨.use (huses 0 (Nat.zero_lt_succ 2)), .use (huses 1 (Nat.one_lt_succ_succ 1)),
      .use (huses 2 (Nat.lt_succ_self 2))⟩
  | storeArg offset =>
    exact ⟨.use (huses 0 Nat.one_pos), .chars hsp, .chars (slotMark_not_mem_int offset.toInt)⟩
  | argAddress => exact ⟨.define (hdefs 0 Nat.one_pos), .chars hsp, .use (huses 0 Nat.one_pos)⟩
  | loadResult => exact ⟨.define (hdefs 0 Nat.one_pos), .chars hsp, .chars hzero⟩
  | loadAddress l => exact ⟨.define (hdefs 0 Nat.one_pos), .chars (hmark l rfl)⟩
  | branch l => exact ⟨.use (huses 0 Nat.one_pos), .chars (hmark l rfl)⟩
  | goto l => exact .chars (hmark l rfl)
  | call l => exact ⟨.window, .chars (hmark l rfl)⟩
  | other => exact trivial

theorem slotMark_not_mem_mnemonic (op : Opcode) : slotMark ∉ op.mnemonic.toList := by
  cases op with
  | loadWyde place _ => cases place <;> simp only [mnemonic, WydePlace.mnemonic] <;> decide
  | arith op => cases op <;> simp only [mnemonic, Arith.mnemonic] <;> decide
  | setIf test => cases test <;> simp only [mnemonic, SignTest.mnemonic] <;> decide
  | _ =>
    simp only [mnemonic]
    decide

/-- **The template of an operation is expanded**, if all its slots can be filled. -/
theorem expands_template {op : Opcode} (hop : ∀ template, op ≠ .other template)
    (hlabel : ∀ l ∈ op.label?, l.Legible) (hwindow : 0 ≤ regs.window)
    (huses : ∀ i < op.slots.1, regs.Holds uses i) (hdefs : ∀ i < op.slots.2, regs.Holds defs i) :
    regs.Expands uses defs op.template.toList (regs.expand op.template uses defs).toList := by
  obtain ⟨out, hout⟩ := Registers.exists_expands_intercalate (operands_expand hlabel huses hdefs)
  obtain ⟨out', hout'⟩ := Registers.exists_expands_append op.slotMark_not_mem_mnemonic
    (.char (show ' ' ≠ slotMark by decide) hout)
  rw [← toList_template hop] at hout'
  have hexpand := hout'.toList_shown hwindow
  rw [show (regs.expand op.template uses defs).toList = out' from hexpand]
  exact hout'

end Opcode

/-! ## §3 Instructions have temps for all slots -/

namespace Instr

/-- The temps of the instruction are enough for the slots of its template. -/
def Filled : Instr → Prop
  | .oper op uses defs _ _ => op.slots.1 ≤ uses.length ∧ op.slots.2 ≤ defs.length
  | _ => True

/-- All instructions of a list have temps for their slots. -/
def AllFilled (is : List Instr) : Prop := ∀ i ∈ is, i.Filled

namespace AllFilled

variable {is is' : List Instr}

theorem nil : AllFilled [] := List.forall_mem_nil _

theorem append (h : AllFilled is) (h' : AllFilled is') : AllFilled (is ++ is') :=
    List.forall_mem_append.mpr ⟨h, h'⟩

theorem cons {i : Instr} (hi : i.Filled) (h : AllFilled is) : AllFilled (i :: is) :=
  List.forall_mem_cons.mpr ⟨hi, h⟩

theorem single {i : Instr} (hi : i.Filled) : AllFilled [i] := .cons hi .nil

theorem loadConstant (dst : Temp) (v : Word) : AllFilled (loadConstant dst v) := by
  unfold Instr.loadConstant
  induction Instr.loadedWydes v with
  | nil => exact .nil
  | cons group groups ih => exact .cons ⟨Nat.zero_le _, Nat.le_refl 1⟩ ih

theorem binary {op : IR.BinOp} {fst snd dst : Temp} (h : Instr.binary op fst snd dst = .ok is) :
    AllFilled is := by
  cases op with
  | or | and | add | sub | mul | div =>
    cases h
    exact .single ⟨Nat.le_refl 2, Nat.le_refl 1⟩
  | equ | neq | lth | gth | leq | geq =>
    cases h
    exact .cons ⟨Nat.le_refl 2, Nat.le_refl 1⟩ (.single ⟨Nat.le_refl 1, Nat.le_refl 1⟩)
  | mod =>
    cases h
    exact .cons ⟨Nat.le_refl 2, Nat.le_refl 1⟩ (.single ⟨Nat.le_refl 0, Nat.le_refl 1⟩)
  | unknown code => cases h

theorem storeArgument (mode : ArgPassing) (off : Word) (arg : Temp) (σ : Supply) :
    AllFilled ((Instr.storeArgument mode off arg).run σ).1 := by
  unfold Instr.storeArgument
  split
  · exact .single ⟨Nat.le_refl 1, Nat.le_refl 0⟩
  · exact (loadConstant _ off).append
      (.cons ⟨Nat.le_refl 1, Nat.le_refl 1⟩ (.single ⟨Nat.le_refl 2, Nat.le_refl 0⟩))

theorem storeArguments (mode : ArgPassing) : ∀ (offs : List Word) (args : List Temp) (σ : Supply),
    AllFilled ((Instr.storeArguments mode offs args).run σ).1
  | [], _, _ => .nil
  | _ :: _, [], _ => .nil
  | off :: offs, arg :: args, σ => (storeArgument mode off arg σ).append (storeArguments mode offs args _)

end AllFilled

end Instr

open Instr (AllFilled)

section Selection

variable (mode : ArgPassing)

mutual

theorem IR.Expr.select_filled : ∀ (e : IR.Expr) (σ : Supply),
    Ensures (e.select mode) σ fun r _ => AllFilled r.1
  | .absent, _ => .throw _
  | .sexpr _ _, _ => .throw _
  | .temp _, _ => .pure .nil
  | .const v, _ => .of_succeeds (.lift (.loadConstant _ v))
  | .name label, σ => by
    rw [IR.Expr.select]
    -- Which temp is fresh does not matter, only how many temps there are.
    refine .bind (P := fun _ _ => True) (fun _ _ _ => trivial) fun dst σ' _ => .pure ?_
    exact .single ⟨Nat.le_refl 0, Nat.le_refl 1⟩
  | .mem addr, σ => by
    rw [IR.Expr.select]
    refine (addr.select_filled σ).bind fun ⟨before, a⟩ σ₁ hbefore => ?_
    refine .bind (P := fun _ _ => True) (fun _ _ _ => trivial) fun dst σ' _ => .pure ?_
    exact hbefore.append (.single ⟨Nat.le_refl 1, Nat.le_refl 1⟩)
  | .binop op fst snd, σ => by
    rw [IR.Expr.select]
    refine (fst.select_filled σ).bind fun ⟨before₁, a⟩ σ₁ hbefore₁ => ?_
    refine (snd.select_filled σ₁).bind fun ⟨before₂, b⟩ σ₂ hbefore₂ => ?_
    refine .bind (P := fun _ _ => True) (fun _ _ _ => trivial) fun dst σ' _ => ?_
    refine .ofExcept_bind fun is his => .pure ?_
    exact (hbefore₁.append hbefore₂).append (.binary his)
  | .unop op arg, σ => by
    rw [IR.Expr.select]
    refine (arg.select_filled σ).bind fun ⟨before, a⟩ σ₁ hbefore => ?_
    refine .bind (P := fun _ _ => True) (fun _ _ _ => trivial) fun fresh σ' _ => ?_
    cases op with
    | unknown code => exact .throw _
    | neg => exact .pure (hbefore.append (.single ⟨Nat.le_refl 1, Nat.le_refl 1⟩))
    | not =>
      refine .bind (P := fun _ _ => True) (fun _ _ _ => trivial) fun neg σ'' _ => .pure ?_
      exact hbefore.append (.cons ⟨Nat.le_refl 1, Nat.le_refl 1⟩ (.single ⟨Nat.le_refl 1, Nat.le_refl 1⟩))
  | .call label offs args, σ => by
    rw [IR.Expr.select]
    split
    · exact .throw _
    · refine (Expr.selectArgs_filled args σ).bind fun ⟨before, temps⟩ σ₁ hbefore => ?_
      refine (Ensures.of_succeeds (.lift (.storeArguments mode offs temps σ₁))).bind
        fun stores σ₂ (hstores : AllFilled stores) => ?_
      refine .bind (P := fun _ _ => True) (fun _ _ _ => trivial) fun result σ' _ => .pure ?_
      exact (hbefore.append hstores).append
        (.cons ⟨Nat.le_refl 0, Nat.le_refl 0⟩ (.single ⟨Nat.le_refl 0, Nat.le_refl 1⟩))

theorem IR.Expr.selectArgs_filled : ∀ (es : List IR.Expr) (σ : Supply),
    Ensures (Expr.selectArgs mode es) σ fun r _ => AllFilled r.1
  | [], _ => .pure .nil
  | e :: es, σ => by
    rw [IR.Expr.selectArgs]
    refine (e.select_filled σ).bind fun ⟨first, t⟩ σ₁ hfirst => ?_
    refine (Expr.selectArgs_filled es σ₁).bind fun ⟨rest, ts⟩ σ₂ hrest => ?_
    exact .pure (hfirst.append hrest)

end

theorem Instr.AllFilled.jumpTo (l : Label) : AllFilled [.jumpTo l] :=
    .single ⟨Nat.le_refl 0, Nat.le_refl 0⟩

mutual

theorem IR.Stmt.select_filled (next : List IR.Stmt) : ∀ (s : IR.Stmt) (σ : Supply),
    Ensures (s.select mode next) σ fun is _ => AllFilled is
  | .absent, _ => .throw _
  | .jump l, _ => .pure (.jumpTo l)
  | .label _, _ => .pure (.single trivial)
  | .eval e, σ => by
    rw [IR.Stmt.select]
    exact (e.select_filled mode σ).bind fun ⟨is, t⟩ σ' his => .pure his
  | .cjump cond pos neg, σ => by
    rw [IR.Stmt.select]
    refine (cond.select_filled mode σ).bind fun ⟨is, c⟩ σ' his => .pure (his.append (.cons ?_ ?_))
    · exact ⟨Nat.le_refl 1, Nat.le_refl 0⟩
    · split
      · exact .nil
      · exact .jumpTo neg
  | .move (.temp t) src, σ => by
    rw [IR.Stmt.select]
    exact (src.select_filled mode σ).bind fun ⟨is, v⟩ σ' his => .pure (his.append (.single trivial))
  | .move (.mem addr) src, σ => by
    rw [IR.Stmt.select]
    refine (addr.select_filled mode σ).bind fun ⟨is₁, a⟩ σ₁ his₁ => ?_
    refine (src.select_filled mode σ₁).bind fun ⟨is₂, v⟩ σ₂ his₂ => .pure ?_
    exact (his₁.append his₂).append (.single ⟨Nat.le_refl 2, Nat.le_refl 0⟩)
  | .move .absent _, _ | .move (.const _) _, _ | .move (.name _) _, _ | .move (.binop ..) _, _
  | .move (.unop ..) _, _ | .move (.call ..) _, _ | .move (.sexpr ..) _, _ => .throw _
  | .seq ss, σ => by
    rw [IR.Stmt.select]
    exact Stmt.selectAll_filled ss σ

theorem IR.Stmt.selectAll_filled : ∀ (ss : List IR.Stmt) (σ : Supply),
    Ensures (Stmt.selectAll mode ss) σ fun is _ => AllFilled is
  | [], _ => .pure .nil
  | s :: ss, σ => by
    rw [IR.Stmt.selectAll]
    refine (IR.Stmt.select_filled ss s σ).bind fun first σ₁ hfirst => ?_
    exact (Stmt.selectAll_filled ss σ₁).bind fun rest σ₂ hrest => .pure (hfirst.append hrest)

end

/-- **Selected instructions have temps for all their slots.** -/
theorem IR.CodeChunk.select_filled (chunk : IR.CodeChunk) (σ : Supply) :
    Ensures (chunk.select mode) σ fun c _ => AllFilled c.instrs := by
  unfold IR.CodeChunk.select
  exact (IR.Stmt.selectAll_filled mode chunk.stmts σ).bind fun is σ' his => .pure his

end Selection

theorem Instr.Filled.rename {i : Instr} (h : i.Filled) (old new : Temp) : (i.rename old new).Filled := by
  cases i with
  | oper op uses defs jumps flow => simpa [Instr.rename, renameIn, Filled] using h
  | _ => exact trivial

/-- **Spilling only adds such instructions.** -/
theorem Instr.AllFilled.spillList {fp t : Temp} {offset : Word} {is : List Instr} (h : AllFilled is)
    (n : Int) :
    AllFilled (spillList fp t offset is n).instrs := by
  have hload (value off : Temp) : AllFilled (loadSlot fp offset value off) :=
    (loadConstant off offset).append (.single ⟨Nat.le_refl 2, Nat.le_refl 1⟩)
  have hstore (value off : Temp) : AllFilled (storeSlot fp offset value off) :=
    (loadConstant off offset).append (.single ⟨Nat.le_refl 3, Nat.le_refl 0⟩)
  induction is generalizing n with
  | nil => exact .nil
  | cons i is ih =>
    obtain ⟨hi, his⟩ := List.forall_mem_cons.mp h
    refine AllFilled.append ?_ (ih his _)
    unfold Instr.spilled
    split <;> split
    · exact (hload _ _).append (.cons (hi.rename t _) (hstore _ _))
    · exact (hload _ _).append (.single (hi.rename t _))
    · exact .cons (hi.rename t _) (hstore _ _)
    · exact .single hi

theorem Code.SpillsTo.filled {c c' : Code} (h : c.SpillsTo c') (hc : AllFilled c.instrs) :
    AllFilled c'.instrs := by
  obtain ⟨t, ⟨n, l⟩, rfl⟩ := h
  rw [Code.run_spill]
  exact hc.spillList n

/-- After any number of spills the instructions still have temps for all their slots. -/
theorem Code.filled_of_spills {c c' : Code} (h : Relation.ReflTransGen Code.SpillsTo c c')
    (hc : AllFilled c.instrs) : AllFilled c'.instrs := by
  induction h with
  | refl => exact hc
  | tail _ hstep ih => exact hstep.filled ih

end MmixBackend
