import MmixBackend.Proofs.Machine.Runs
import MmixBackend.Proofs.Source.Activation

/-!
# Code that keeps static links

The layers of a configuration are the activations that have not come to their end, the innermost
first. Each has its frame below its frame pointer, and a layer of a nested function keeps the frame
pointer of the next layer as its static link.

Code is disciplined if it stores to places that hold no links, puts the arguments of calls into the
area for them, and hands its own frame pointer to the functions that are declared inside of it. What
an expression may come to is described by a predicate on words, and a context by the words that it
accepts. One transition then keeps all links, as long as there is room on the stack and every nested
function is called by the function that declares it; and so does a run.

## Main statements

- `Nesting.Keeps.next`: what one transition keeps.
- `Nesting.Keeps.of_run`: what a run keeps.
-/

namespace MmixBackend

namespace Machine

open Relation

/-! ## §1 Layers of the stack -/

/-- An activation that has not come to its end. -/
structure Layer where
  frame : Frame
  fp : Word

namespace Layer

variable (L : Layer)

/-- The frame pointer as a number. -/
def base : Int := L.fp.toInt

/-- Where the area for outgoing arguments ends. -/
def argsEnd : Int := L.base - L.frame.locsSize.toInt - 16

/-- The stack pointer of the activation. -/
def sp : Int := L.argsEnd - L.frame.argsSize.toInt

theorem ofInt_base : Int64.ofInt L.base = L.fp := Int64.ofInt_toInt _

/-- The stack pointer lies a frame below the frame pointer. -/
theorem sub_size : L.fp - L.frame.size = .ofInt L.sp := by
  have hsaved : Int64.ofInt 16 = savedRegsSize := rfl
  rw [sp, argsEnd, base, Int64.ofInt_sub, Int64.ofInt_sub, Int64.ofInt_sub, Int64.ofInt_toInt,
    Int64.ofInt_toInt,
    Int64.ofInt_toInt, hsaved, Frame.size]
  grind

end Layer

mutual

/-- The activations that wait for a value. -/
def ValueContext.layers : ValueContext → List Layer
  | .done => []
  | .readMem k | .binSecond _ _ k | .binApply _ _ k | .unApply _ k | .argument _ _ _ _ k => k.layers
  | .drop _ _ k | .setTemp _ _ _ k | .storeAddress _ _ _ k | .storeValue _ _ _ k | .branch _ _
      _ k => k.layers

/-- The activations that wait for the end of a block, the one that executes it included. -/
def BlockContext.layers : BlockContext → List Layer
  | .value _ k => k.layers
  | .ret frame fp _ k => ⟨frame, fp⟩ :: k.layers

end

/-- The activations of a configuration, the innermost first. -/
def Config.layers (c : Config) : List Layer :=
  match c.control with
  | .eval _ k | .value _ k => k.layers
  | .exec _ _ k => k.layers

/-- The stack pointer below the layers. -/
def stackPointer : List Layer → Int
  | [] => stackTop.toInt
  | L :: _ => L.sp

/-- Where parameters on top of the layers must end. -/
def paramsEnd : List Layer → Int
  | [] => dataStart.toInt + 2 ^ 64
  | L :: _ => L.argsEnd

/-- The temps hold the frame pointer of the innermost layer. -/
def HoldsFp (temps : Temps) (S : List Layer) : Prop := ∀ L ∈ S.head?, temps.getD L.frame.fp 0 = L.fp

/-- How the functions of a program are nested, as far as their frames tell. -/
structure Nesting where
  /-- The function is declared inside another one. -/
  nested : Frame → Prop
  /-- The first function is declared directly inside the second one. -/
  inside : Frame → Frame → Prop
  /-- The static link and the parameters of the function take so many words. -/
  takes : Frame → Nat → Prop
  /-- The offset can be added to the address of an array that the code of an element access starts
  from. -/
  element : IR.Expr → Word → Prop
  /-- Where the static data end. -/
  dataEnd : Int
  dataStart_le : dataStart.toInt ≤ dataEnd

namespace Nesting

variable (N : Nesting)

/-- A layer that fits on top of others. -/
structure OnTop (L : Layer) (S : List Layer) : Prop where
  base : L.base = stackPointer S
  locsSize : 0 ≤ L.frame.locsSize.toInt
  argsSize : 0 ≤ L.frame.argsSize.toInt
  room : N.dataEnd ≤ L.sp
  params : ∀ n, N.takes L.frame n → L.base + 8 * n ≤ paramsEnd S
  caller : N.nested L.frame → ∃ L' ∈ S.head?, N.inside L.frame L'.frame

/-- The layers fit on top of each other. -/
def Seated : List Layer → Prop
  | [] => True
  | L :: S => N.OnTop L S ∧ Seated S

/-- Nested functions have the frame pointer of the next layer as their static link. -/
def Linked (S : List Layer) (memory : Memory) : Prop :=
  ∀ (i : Nat) (L L' : Layer), S[i]? = some L → S[i + 1]? = some L' → N.nested L.frame →
    memory.read L.fp = L'.fp

/-- There is nothing of a layer that must be kept at this address. -/
def Clear (S : List Layer) (addr : Word) : Prop := ∀ L ∈ S, addr ≠ L.fp

variable {N} {S : List Layer} {L : Layer} {memory memory' : Memory}

theorem Linked.of_reads (h : N.Linked S memory) (hsame : ∀ L ∈ S, memory'.read L.fp = memory.read L.fp) :
    N.Linked S memory' := fun i L L' hL hL' hnested =>
  (hsame L (List.mem_of_getElem? hL)).trans (h i L L' hL hL' hnested)

theorem Linked.tail (h : N.Linked (L :: S) memory) : N.Linked S memory := fun i => h (i + 1)

theorem Linked.write (h : N.Linked S memory) {addr : Word} (haddr : Clear S addr) (v : Word) :
    N.Linked S (memory.write addr v) :=
  h.of_reads fun L hL => by rw [Memory.read_write, if_neg (haddr L hL)]

namespace Seated

theorem sp_le (h : N.Seated (L :: S)) : L.sp + 16 ≤ L.base := by
  have hlocs := h.1.locsSize
  have hargs := h.1.argsSize
  rw [Layer.sp, Layer.argsEnd]
  omega

theorem sizes : ∀ {S : List Layer}, N.Seated S → ∀ L ∈ S, 0 ≤ L.frame.locsSize.toInt ∧
    0 ≤ L.frame.argsSize.toInt
  | _ :: _, h => List.forall_mem_cons.mpr ⟨⟨h.1.locsSize, h.1.argsSize⟩, sizes h.2⟩
  | [], _ => List.forall_mem_nil _

/-- **Layers lie one above the other**, from the stack pointer to the top of the stack. -/
theorem bounds : ∀ {S : List Layer}, N.Seated S → ∀ L ∈ S, stackPointer S + 16 ≤ L.base ∧
    L.base ≤ stackTop.toInt
  | L :: S, h, L', hL' => by
    have hle := h.sp_le
    have hbase := h.1.base
    rcases List.mem_cons.mp hL' with rfl | hL'
    · refine ⟨hle, ?_⟩
      cases S with
      | nil => exact Int.le_of_eq hbase
      | cons L₁ S =>
        have hnext := bounds h.2 L₁ List.mem_cons_self
        rw [hbase]
        exact Int.le_trans (Int.le_trans (Int.le_add_of_nonneg_right (by decide)) hnext.1) hnext.2
    · obtain ⟨hlow, hhigh⟩ := bounds h.2 L' hL'
      exact ⟨by show L.sp + 16 ≤ L'.base; omega, hhigh⟩

/-- The innermost layer is the lowest one. -/
theorem base_le (h : N.Seated (L :: S)) : ∀ L' ∈ L :: S, L.base ≤ L'.base := by
  refine List.forall_mem_cons.mpr ⟨Int.le_refl _, fun L' hL' => ?_⟩
  have hbounds := h.2.bounds L' hL'
  have hbase := h.1.base
  omega

/-- Different layers have different frame pointers. -/
theorem nodup : ∀ {S : List Layer}, N.Seated S → (S.map Layer.fp).Nodup
  | [], _ => .nil
  | L :: S, h => by
    refine List.nodup_cons.mpr ⟨fun hmem => ?_, nodup h.2⟩
    obtain ⟨L', hL', heq⟩ := List.mem_map.mp hmem
    have hbounds := h.2.bounds L' hL'
    have hbase := h.1.base
    have hsame : L'.base = L.base := congrArg Int64.toInt heq
    omega

theorem dataEnd_le : ∀ {S : List Layer}, N.Seated S → S ≠ [] → N.dataEnd ≤ stackPointer S
  | _ :: _, h, _ => h.1.room

theorem stackPointer_le : ∀ {S : List Layer}, N.Seated S → ∀ L ∈ S, stackPointer S ≤ L.sp
  | L :: S, h, L', hL' => by
    rcases List.mem_cons.mp hL' with rfl | hL'
    · exact Int.le_refl _
    · have hnext := stackPointer_le h.2 L' hL'
      have hle := h.sp_le
      have hbase := h.1.base
      show L.sp ≤ L'.sp
      omega

theorem paramsEnd_le : ∀ {S : List Layer}, N.Seated S → ∀ L ∈ S, paramsEnd S ≤ L.base
  | L :: S, h, L', hL' => by
    have hbase := h.base_le L' hL'
    have hlocs := h.1.locsSize
    show L.base - L.frame.locsSize.toInt - 16 ≤ L'.base
    omega

/-- Each layer takes room for two saved registers, so there are not too many of them. -/
theorem length_le : ∀ {S : List Layer}, N.Seated S → stackPointer S + 16 * S.length ≤ stackTop.toInt
  | [], _ => Int.le_refl _
  | L :: S, h => by
    have hnext := length_le h.2
    have hle := h.sp_le
    have hbase := h.1.base
    rw [List.length_cons]
    show L.sp + _ ≤ _
    omega

theorem addressable (h : N.Seated S) (hL : L ∈ S) : Addressable L.base := by
  obtain ⟨hlow, hhigh⟩ := h.bounds L hL
  have hdata := h.dataEnd_le (List.ne_nil_of_mem hL)
  have hstart := N.dataStart_le
  rw [Source.toInt_stackTop] at hhigh
  rw [Source.toInt_dataStart] at hstart
  rw [Addressable, Source.toInt_dataStart]
  omega

/-- An address outside of all layers is clear. -/
theorem clear (h : N.Seated S) {x : Int} (hx : Addressable x) (hne : ∀ L ∈ S, L.base ≠ x) :
    Clear S (.ofInt x) := by
  intro L hL heq
  rw [← L.ofInt_base, hx.ofInt_inj (h.addressable hL)] at heq
  exact hne L hL heq.symm

/-- **Only the static link of a function is at a frame pointer**: no layer has its frame pointer
elsewhere between the stack pointer of a layer and the end of its parameters. -/
theorem free : ∀ {S : List Layer}, N.Seated S → ∀ L ∈ S, ∀ {n : Nat}, N.takes L.frame n →
    ∀ {x : Int}, L.sp < x →
    x ≠ L.base → x < L.base + 8 * n → Addressable x ∧ ∀ L' ∈ S, L'.base ≠ x
  | L₀ :: S, h, L, hL, n, hn, x, hlow, hne, hhigh => by
    rcases List.mem_cons.mp hL with rfl | hL
    · have hparams := h.1.params n hn
      refine ⟨⟨?_, ?_⟩, List.forall_mem_cons.mpr ⟨Ne.symm hne, fun L' hL' => ?_⟩⟩
      · have hroom := h.1.room
        have hstart := N.dataStart_le
        omega
      · cases S with
        | nil => exact Int.lt_of_lt_of_le hhigh hparams
        | cons L₁ S =>
          have hle := h.2.paramsEnd_le L₁ List.mem_cons_self
          have haddr := (h.2.addressable (L := L₁) List.mem_cons_self).2
          omega
      · have hle := h.2.paramsEnd_le L' hL'
        omega
    · obtain ⟨haddr, hfree⟩ := free h.2 L hL hn hlow hne hhigh
      have hle := h.2.stackPointer_le L hL
      have hbase := h.1.base
      exact ⟨haddr, List.forall_mem_cons.mpr ⟨by omega, hfree⟩⟩

/-- The frame pointer of a layer is clear for those outside of it. -/
theorem clear_fp (h : N.Seated (L :: S)) : Clear S L.fp := by
  rw [← L.ofInt_base]
  refine h.2.clear (h.addressable List.mem_cons_self) fun L' hL' => ?_
  have hbounds := h.2.bounds L' hL'
  have hbase := h.1.base
  omega

end Seated

/-! ## §2 Disciplined code -/

variable (N) (m : Machine)

/-- The word can be the static link of a call from the innermost layer. -/
def LinkFor (S : List Layer) (l : Label) (w : Word) : Prop :=
  Routine.ofLabel? l = none → ∀ f, m.functions[l]? = some f → N.nested f.frame →
    ∀ L ∈ S.head?, N.inside f.frame L.frame → w = L.fp

/-- A call from the innermost layer stores its arguments in the area for them, the static link at
offset zero, and there is room for the parameters of the function that is called. -/
def Places (S : List Layer) (l : Label) (offs : List Word) : Prop :=
  ∃ L ∈ S.head?, (∀ off ∈ offs, 0 ≤ off.toInt ∧ off.toInt + 8 ≤ L.frame.argsSize.toInt) ∧
    (Routine.ofLabel? l = none → (∃ rest, offs = 0 :: rest ∧ 0 ∉ rest) ∧
      ∀ f, m.functions[l]? = some f → ∀ n, N.takes f.frame n → 8 * n ≤ L.frame.argsSize.toInt)

end Nesting

end Machine

namespace IR

open Machine

variable (N : Nesting) (m : Machine) (S : List Layer)

mutual

/-- Evaluated in the innermost layer, the expression comes to words that satisfy `P` only, and what
it does is disciplined. -/
def Expr.ComesTo : Expr → (P : Word → Prop) → Prop
  | .absent, _ => True
  | .const v, P => P v
  | .temp t, P => ∃ L ∈ S.head?, t = L.frame.fp ∧ P L.fp
  | .name l, P => ∀ a, m.labels[l]? = some a → P a
  | .mem addr, P => ∃ Q, addr.ComesTo Q ∧ ∀ v memory, Q v → N.Linked S memory → P (memory.read v)
  | .binop op fst snd, P => ∃ Q R, fst.ComesTo Q ∧ snd.ComesTo R ∧ ∀ x y z, Q x → R y →
    N.element (.binop op fst snd) y → applyBinary op x y = .ok z → P z
  | .unop op arg, P => ∃ Q, arg.ComesTo Q ∧ ∀ v, Q v → P (applyUnary op v)
  | .call l offs args, P =>
    args ≠ [] ∧ Expr.ComeTo args (N.LinkFor m S l) ∧ N.Places m S l offs ∧ ∀ v, P v
  | .sexpr stmt value, P => stmt.Disciplined ∧ value.ComesTo P

/-- The same for expressions, of which the first one satisfies `P`. -/
def Expr.ComeTo : List Expr → (P : Word → Prop) → Prop
  | [], _ => True
  | e :: es, P => e.ComesTo P ∧ Expr.ComeTo es fun _ => True

/-- Executed in the innermost layer, the statement is disciplined. -/
def Stmt.Disciplined : Stmt → Prop
  | .absent | .jump _ | .label _ => True
  | .eval e => e.ComesTo fun _ => True
  | .move (.mem addr) src => addr.ComesTo (Nesting.Clear S) ∧ src.ComesTo fun _ => True
  | .move _ _ => False
  | .cjump cond _ _ => cond.ComesTo fun _ => True
  | .seq stmts => Stmt.DisciplinedAll stmts

/-- The same for statements. -/
def Stmt.DisciplinedAll : List Stmt → Prop
  | [] => True
  | s :: ss => s.Disciplined ∧ Stmt.DisciplinedAll ss

end

variable {N m S} {P Q : Word → Prop}

theorem Expr.ComesTo.mono {e : Expr} (h : e.ComesTo N m S P) (hPQ : ∀ v, P v → Q v) :
    e.ComesTo N m S Q := by
  cases e with
  | absent => trivial
  | const v => exact hPQ _ h
  | temp t =>
    obtain ⟨L, hL, ht, hP⟩ := h
    exact ⟨L, hL, ht, hPQ _ hP⟩
  | name l => exact fun a ha => hPQ a (h a ha)
  | mem addr =>
    obtain ⟨R, haddr, hread⟩ := h
    exact ⟨R, haddr, fun v memory hv hlinked => hPQ _ (hread v memory hv hlinked)⟩
  | binop op fst snd =>
    obtain ⟨R, R', hfst, hsnd, happly⟩ := h
    exact ⟨R, R', hfst, hsnd, fun x y z hx hy helement hz => hPQ z (happly x y z hx hy helement hz)⟩
  | unop op arg =>
    obtain ⟨R, harg, happly⟩ := h
    exact ⟨R, harg, fun v hv => hPQ _ (happly v hv)⟩
  | call l offs args => exact ⟨h.1, h.2.1, h.2.2.1, fun v => hPQ v (h.2.2.2 v)⟩
  | sexpr stmt value => exact ⟨h.1, h.2.mono hPQ⟩

theorem Expr.ComesTo.any {e : Expr} (h : e.ComesTo N m S P) : e.ComesTo N m S fun _ => True :=
  h.mono fun _ _ => trivial

theorem Stmt.disciplinedAll_iff {ss : List Stmt} :
    Stmt.DisciplinedAll N m S ss ↔ ∀ s ∈ ss, s.Disciplined N m S := by
  induction ss with
  | nil => simp [Stmt.DisciplinedAll]
  | cons s ss ih => simp [Stmt.DisciplinedAll, ih]

mutual

/-- A flattened statement consists of disciplined statements. -/
theorem Stmt.Disciplined.flatten : ∀ {s : Stmt}, s.Disciplined N m S → ∀ s' ∈ s.flatten,
    s'.Disciplined N m S
  | .absent, h | .jump _, h | .label _, h | .eval _, h | .cjump _ _ _, h | .move _ _, h => fun _ hs =>
    List.mem_singleton.mp hs ▸ h
  | .seq _, h => Stmt.DisciplinedAll.flattenAll h

theorem Stmt.DisciplinedAll.flattenAll : ∀ {ss : List Stmt}, Stmt.DisciplinedAll N m S ss →
    ∀ s' ∈ Stmt.flattenAll ss, s'.Disciplined N m S
  | [], _ => List.forall_mem_nil _
  | _ :: _, h => List.forall_mem_append.mpr ⟨h.1.flatten, h.2.flattenAll⟩

end

end IR

namespace Machine

open IR Relation Source

/-! ## §3 Disciplined configurations -/

variable (N : Nesting) (m : Machine)

/-- Among these configurations are those that a run still comes to. -/
abbrev Future := Config → Prop

mutual

/-- The context accepts words that satisfy `P`, and goes on disciplined, as far as it is up to the
configurations of the future. -/
def ValueContext.Accepts (F : Future) : ValueContext → (P : Word → Prop) → Prop
  | .done, _ => True
  | .readMem k, P => ∃ Q, k.Accepts F Q ∧ ∀ v memory, P v → N.Linked k.layers memory → Q (memory.read v)
  | .binSecond op snd k, P =>
    ∃ Q R, snd.ComesTo N m k.layers Q ∧ k.Accepts F R ∧ ∀ x y z temps s, P x → Q y →
    F ⟨.value y (.binApply op x k), temps, s⟩ → applyBinary op x y = .ok z → R z
  | .binApply op x k, P => ∃ R, k.Accepts F R ∧ ∀ y z temps s, P y →
    F ⟨.value y (.binApply op x k), temps, s⟩ → applyBinary op x y = .ok z → R z
  | .unApply op k, P => ∃ Q, k.Accepts F Q ∧ ∀ v, P v → Q (applyUnary op v)
  | .argument l offs ready rest k, P => Expr.ComeTo N m k.layers rest (fun _ => True) ∧
    N.Places m k.layers l offs ∧
    (∀ v, P v → ∀ w ∈ (v :: ready).getLast?, N.LinkFor m k.layers l w) ∧ k.Accepts F fun _ => True
  | .drop block _ k, _ => k.Continues F block
  | .setTemp _ block pc k, _ =>
    block.stmts[pc]? = none ∧ (∃ frame fp temps k', k = .ret frame fp temps k') ∧
    k.Continues F block
  | .storeAddress src block _ k, P => src.ComesTo N m k.layers (fun _ => True) ∧
    (∀ v, P v → Nesting.Clear k.layers v) ∧ k.Continues F block
  | .storeValue addr block _ k, _ => Nesting.Clear k.layers addr ∧ k.Continues F block
  | .branch _ _ block k, _ => k.Continues F block

/-- The block is disciplined, and so is what comes behind it. The block of a function moves a value
to the temp for the result and does nothing else. -/
def BlockContext.Continues (F : Future) : BlockContext → Block → Prop
  | .value e k, block => (∀ s ∈ block.stmts, s.Disciplined N m k.layers) ∧
    ∃ P, e.ComesTo N m k.layers P ∧ k.Accepts F P
  | .ret frame fp temps k, block => HoldsFp temps k.layers ∧ (k.Accepts F fun _ => True) ∧
    ∃ e, block = .ofStmts [.move (.temp frame.rv) e] ∧
      e.ComesTo N m (⟨frame, fp⟩ :: k.layers) fun _ => True

end

/-- What is to be done next is disciplined. -/
def Control.Goes (F : Future) : Control → Prop
  | .eval e k => ∃ P, e.ComesTo N m k.layers P ∧ k.Accepts N m F P
  | .value v k => ∃ P, P v ∧ k.Accepts N m F P
  | .exec block _ k => k.Continues N m F block

/-- The body of a function has come to its end. -/
def Control.Finished : Control → Prop
  | .exec block pc (.ret ..) => block.stmts[pc]? = none
  | _ => False

/-- The layers lie where the stack pointer says, and nested functions among them have the right
static link. -/
structure Nesting.Stands (S : List Layer) (s : State) : Prop where
  sp : s.sp = .ofInt (stackPointer S)
  seated : N.Seated S
  linked : N.Linked S s.memory

/-- The configuration is disciplined, and all nested functions on the stack have the right static link. -/
structure Nesting.Keeps (F : Future) (c : Config) : Prop where
  control : c.control.Goes N m F
  temps : HoldsFp c.temps c.layers ∨ c.control.Finished
  stands : N.Stands c.layers c.state

/-- The function moves the value of a disciplined expression to the temp for its result, and the
areas of its frame have sizes. -/
structure Nesting.Disciplines (f : Function) : Prop where
  locsSize : 0 ≤ f.frame.locsSize.toInt
  argsSize : 0 ≤ f.frame.argsSize.toInt
  params : ∀ n, N.takes f.frame n → 8 * (n : Int) ≤ 2 ^ 63
  body : ∃ e, f.body = .ofStmts [.move (.temp f.frame.rv) e] ∧
    ∀ fp S, N.Seated (⟨f.frame, fp⟩ :: S) → e.ComesTo N m (⟨f.frame, fp⟩ :: S) fun _ => True

/-- All functions that are loaded are disciplined. -/
def Nesting.DisciplinesAll : Prop :=
  ∀ (l : Label) f, m.functions[l]? = some f → Routine.ofLabel? l = none → N.Disciplines m f

/-- Every nested function on the stack has been called by the function in which it is declared, and
all frames on the stack lie above the static data. -/
structure Nesting.Allows (c : Config) : Prop where
  called : ∀ (i : Nat) L, c.layers[i]? = some L → N.nested L.frame →
    ∃ L', c.layers[i + 1]? = some L' ∧ N.inside L.frame L'.frame
  room : ∀ L ∈ c.layers, N.dataEnd ≤ L.sp

variable {N m} {F F' : Future} {S : List Layer} {temps : Temps} {s : State} {c c' : Config}

mutual

theorem ValueContext.Accepts.mono (hF : ∀ c, F' c → F c) : ∀ {k : ValueContext} {P : Word → Prop},
    k.Accepts N m F P → k.Accepts N m F' P
  | .done, _, h => h
  | .readMem _, _, ⟨Q, hk, hread⟩ => ⟨Q, hk.mono hF, hread⟩
  | .binSecond .., _, ⟨Q, R, hsnd, hk, happly⟩ =>
    ⟨Q, R, hsnd, hk.mono hF, fun x y z temps s hx hy hc => happly x y z temps s hx hy (hF _ hc)⟩
  | .binApply .., _, ⟨R, hk, happly⟩ =>
    ⟨R, hk.mono hF, fun y z temps s hy hc => happly y z temps s hy (hF _ hc)⟩
  | .unApply .., _, ⟨Q, hk, happly⟩ => ⟨Q, hk.mono hF, happly⟩
  | .argument .., _, ⟨hrest, hplaces, hlink, hk⟩ => ⟨hrest, hplaces, hlink, hk.mono hF⟩
  | .drop _ _ k, _, h | .branch _ _ _ k, _, h => BlockContext.Continues.mono hF (k := k) h
  | .setTemp .., _, ⟨hend, hret, hk⟩ => ⟨hend, hret, hk.mono hF⟩
  | .storeAddress .., _, ⟨hsrc, hclear, hk⟩ => ⟨hsrc, hclear, hk.mono hF⟩
  | .storeValue .., _, ⟨hclear, hk⟩ => ⟨hclear, hk.mono hF⟩

theorem BlockContext.Continues.mono (hF : ∀ c, F' c → F c) : ∀ {k : BlockContext} {block : Block},
    k.Continues N m F block → k.Continues N m F' block
  | .value .., _, ⟨hblock, P, he, hk⟩ => ⟨hblock, P, he, hk.mono hF⟩
  | .ret .., _, ⟨htemps, hk, hbody⟩ => ⟨htemps, hk.mono hF, hbody⟩

end

theorem Nesting.Keeps.mono (h : N.Keeps m F c) (hF : ∀ c, F' c → F c) : N.Keeps m F' c where
  control := by
    have hgoes := h.control
    unfold Control.Goes at hgoes ⊢
    split at hgoes
    · obtain ⟨P, he, hk⟩ := hgoes
      exact ⟨P, he, hk.mono hF⟩
    · obtain ⟨P, hv, hk⟩ := hgoes
      exact ⟨P, hv, hk.mono hF⟩
    · exact hgoes.mono hF
  temps := h.temps
  stands := h.stands

/-! ## §4 Calls and returns -/

/-- Storing arguments below the layers keeps the links. -/
theorem Nesting.Stands.storeArguments (h : N.Stands S s) {l : Label} {offs : List Word}
    (hplaces : N.Places m S l offs) (args : List Word) :
    N.Stands S { s with memory := s.memory.writeAt s.sp offs args } := by
  obtain ⟨L, hL, hoffs, -⟩ := hplaces
  obtain ⟨S, rfl⟩ := List.head?_eq_some_iff.mp hL
  refine ⟨h.sp, h.seated, h.linked.of_reads fun L' hL' => Memory.read_writeAt_of_ne fun off hoff => ?_⟩
  obtain ⟨hlow, hhigh⟩ := hoffs off hoff
  have haddr := h.seated.addressable (L := L) List.mem_cons_self
  have hlocs := h.seated.1.locsSize
  have hroom := h.seated.1.room
  have hstart := N.dataStart_le
  -- The argument area ends below the frame pointer of the innermost layer.
  have hsp : stackPointer (L :: S) = L.argsEnd - L.frame.argsSize.toInt := rfl
  have hend : L.argsEnd = L.base - L.frame.locsSize.toInt - 16 := rfl
  have hstack : L.sp = stackPointer (L :: S) := rfl
  rw [h.sp, ← Int64.ofInt_toInt off, ← Int64.ofInt_add]
  refine h.seated.clear ?_ (fun L'' hL'' => ?_) L' hL'
  · rw [Addressable] at haddr ⊢
    omega
  · have hle := h.seated.base_le L'' hL''
    omega

/-- A function that is called starts on top of the layers. -/
theorem Nesting.Stands.enter (h : N.Stands S s) {l : Label} {offs args : List Word} {f : Function}
    (hplaces : N.Places m S l offs) (hlink : ∀ w ∈ args.head?, N.LinkFor m S l w) (hargs : args ≠ [])
    (hroutine : Routine.ofLabel? l = none) (hf : m.functions[l]? = some f) (hfit : N.Disciplines m f)
    (hcalled : N.nested f.frame → ∃ L ∈ S.head?, N.inside f.frame L.frame)
    (hroom : N.dataEnd ≤ Layer.sp ⟨f.frame, s.sp⟩) :
    N.Stands (⟨f.frame, s.sp⟩ :: S)
      { s with memory := s.memory.writeAt s.sp offs args, sp := s.sp - f.frame.size } := by
  have hstored := h.storeArguments hplaces args
  obtain ⟨L, hL, -, hfunction⟩ := hplaces
  obtain ⟨S, rfl⟩ := List.head?_eq_some_iff.mp hL
  obtain ⟨⟨offs, rfl, hoffs⟩, htakes⟩ := hfunction hroutine
  have hbounds := h.seated.bounds L List.mem_cons_self
  have hlow := h.seated.1.room
  have hstart := N.dataStart_le
  rw [toInt_stackTop] at hbounds
  rw [toInt_dataStart] at hstart
  -- The stack pointer is in the range of words, so it is the number that the layers give.
  have hbase : (⟨f.frame, s.sp⟩ : Layer).base = L.sp := by
    have hsp : s.sp = .ofInt L.sp := h.sp
    have htop : L.sp + 16 ≤ L.base := hbounds.1
    have hsize : Int64.size = 2 ^ 64 := rfl
    rw [Layer.base, hsp, Int64.toInt_ofInt, Int.bmod_eq_of_le] <;> omega
  -- The callee's parameters end within the argument area of the caller.
  have hseated : N.Seated (⟨f.frame, s.sp⟩ :: L :: S) := by
    refine ⟨⟨hbase, hfit.locsSize, hfit.argsSize, hroom, fun n hn => ?_, hcalled⟩, h.seated⟩
    have htakes := htakes f hf n hn
    rw [hbase, Layer.sp]
    show _ ≤ L.argsEnd
    omega
  refine ⟨?_, hseated, fun i L₁ L₂ hL₁ hL₂ hnested => ?_⟩
  · exact Layer.sub_size ⟨f.frame, s.sp⟩
  · cases i with
    | succ i => exact hstored.linked i L₁ L₂ hL₁ hL₂ hnested
    | zero =>
      cases hL₁
      cases hL₂
      obtain ⟨w, args, rfl⟩ := List.exists_cons_of_ne_nil hargs
      obtain ⟨L', hL', hinside⟩ := hcalled hnested
      cases hL'
      -- Only the new layer can be nested in the one below: its link is the argument at offset 0.
      have hw : w = L.fp := hlink w rfl hroutine f hf hnested L rfl hinside
      show (s.memory.writeAt s.sp (0 :: offs) (w :: args)).read s.sp = L.fp
      -- The other arguments have other offsets.
      have hother : ∀ off ∈ offs, s.sp + off ≠ s.sp := fun off hoff heq =>
        hoffs (Int64.add_eq_left.mp heq ▸ hoff)
      rw [Memory.writeAt, Memory.read_writeAt_of_ne hother, Int64.add_zero, Memory.read_write_self, hw]

/-- A routine leaves the stack and what is on it alone. -/
theorem Routine.run_stack (r : Routine) (s : State) : (r.run s).2.sp = s.sp ∧
    (r.run s).2.memory = s.memory := by
  cases r with
  | new | del | exit => exact ⟨rfl, rfl⟩
  | putChar =>
    rw [Routine.run]
    split <;> exact ⟨rfl, rfl⟩
  | getChar =>
    rw [Routine.run]
    split <;> exact ⟨rfl, rfl⟩

namespace Nesting

/-- **A call.** The function that is called finds its static link, as long as the transition is
allowed. -/
theorem Keeps.call (hm : N.DisciplinesAll m) {k : ValueContext} (hk : k.Accepts N m F fun _ => True)
    (hstands : N.Stands k.layers s) (htemps : HoldsFp temps k.layers) {l : Label} {offs args : List Word}
    (hplaces : N.Places m k.layers l offs) (hlink : ∀ w ∈ args.head?, N.LinkFor m k.layers l w)
    (hargs : args ≠ []) (hstep : Machine.call m l offs args k temps s = .next c')
    (hallows : N.Allows c') : N.Keeps m F c' := by
  replace hstep := invoke_eq_next hstep
  unfold invoke at hstep
  cases hroutine : Routine.ofLabel? l with
  -- A routine has no layer of its own, and it changes neither the stack pointer nor the memory.
  | some r =>
    rw [hroutine] at hstep
    have hrun := r.run_stack { s with memory := s.memory.writeAt s.sp offs args }
    dsimp only at hstep hrun
    generalize r.run _ = ran at hstep hrun
    obtain ⟨ending, s'⟩ := ran
    cases ending with
    | value v =>
      cases hstep
      have hstored := hstands.storeArguments hplaces args
      refine ⟨⟨_, trivial, hk⟩, .inl htemps, ⟨hrun.1.trans hstored.sp, hstored.seated, ?_⟩⟩
      show N.Linked k.layers s'.memory
      rw [hrun.2]
      exact hstored.linked
    | exit code => cases hstep
    | error e => cases hstep
  | none =>
    rw [hroutine] at hstep
    cases hf : m.functions[l]? with
    | none =>
      rw [hf] at hstep
      cases hstep
    | some f =>
      rw [hf] at hstep
      cases hstep
      -- The transition is allowed, so a nested function is called from inside the one around it.
      have hcalled : N.nested f.frame → ∃ L ∈ k.layers.head?, N.inside f.frame L.frame :=
          fun hnested => by
        obtain ⟨L, hL, hinside⟩ := hallows.called 0 ⟨f.frame, s.sp⟩ rfl hnested
        exact ⟨L, List.head?_eq_getElem? ▸ hL, hinside⟩
      have hfit := hm l f hf hroutine
      have henter := hstands.enter hplaces hlink hargs hroutine hf hfit hcalled
        (hallows.room ⟨f.frame, s.sp⟩ List.mem_cons_self)
      obtain ⟨e, hbody, he⟩ := hfit.body
      -- The callee's layer goes on top, and its frame pointer is the stack pointer of the caller.
      refine ⟨⟨htemps, hk, e, hbody, he s.sp k.layers henter.seated⟩, .inl fun L hL => ?_, henter⟩
      cases hL
      exact Std.HashMap.getD_insert_self

/-- **The end of a block.** -/
theorem Keeps.endBlock {k : BlockContext} {block : Block} (hk : k.Continues N m F block)
    (hstands : N.Stands k.layers s) (htemps : HoldsFp temps k.layers ∨ ∃ frame fp temps k',
      k = .ret frame fp temps k')
    (hstep : Machine.endBlock temps s k = .next c') : N.Keeps m F c' := by
  cases k with
  | value e k =>
    cases hstep
    refine ⟨hk.2, .inl (htemps.resolve_right ?_), hstands⟩
    rintro ⟨_, _, _, _, h⟩
    cases h
  | ret frame fp callerTemps k =>
    cases hstep
    obtain ⟨hcaller, hk, -⟩ := hk
    have hbase : (⟨frame, fp⟩ : Layer).base = stackPointer k.layers := hstands.seated.1.base
    refine ⟨⟨_, trivial, hk⟩, .inl hcaller, ⟨?_, hstands.seated.2, ?_⟩⟩
    · show fp = .ofInt (stackPointer k.layers)
      rw [← hbase, Layer.ofInt_base]
    · exact hstands.linked.tail.write hstands.seated.clear_fp _

/-- **A jump.** -/
theorem Keeps.jump {k : BlockContext} {block : Block} (hk : k.Continues N m F block)
    (hstands : N.Stands k.layers s) (htemps : HoldsFp temps k.layers) {l : Label}
    (hstep : Machine.jump l block k temps s = .next c') : N.Keeps m F c' := by
  unfold Machine.jump at hstep
  split at hstep
  · cases hstep
    exact ⟨hk, .inl htemps, hstands⟩
  · cases k with
    | value e k => cases hstep
    | ret frame fp callerTemps k => exact Keeps.endBlock hk hstands (.inl htemps) hstep

/-! ## §5 Transitions -/

/-- What the evaluation of an expression starts with. -/
theorem Keeps.evalStep {e : IR.Expr} {k : ValueContext}
    (h : N.Keeps m F ⟨.eval e k, temps, s⟩) (helement : ∀ op fst snd, e = .binop op fst snd →
      ∀ x y temps s, F ⟨.value y (.binApply op x k), temps, s⟩ → N.element e y)
    (hstep : Machine.evalStep m e k temps s = .next c') : N.Keeps m F c' := by
  obtain ⟨⟨P, he, hk⟩, hheld, hstands⟩ := h
  have htemps : HoldsFp temps k.layers := hheld.resolve_right id
  cases e with
  | absent => cases hstep
  | const v =>
    cases hstep
    exact ⟨⟨P, he, hk⟩, .inl htemps, hstands⟩
  -- The only temp that disciplined code reads is the frame pointer of the layer on top.
  | temp t =>
    cases hstep
    obtain ⟨L, hL, rfl, hP⟩ := he
    exact ⟨⟨P, htemps L hL ▸ hP, hk⟩, .inl htemps, hstands⟩
  | mem addr =>
    cases hstep
    obtain ⟨Q, haddr, hread⟩ := he
    exact ⟨⟨Q, haddr, P, hk, hread⟩, .inl htemps, hstands⟩
  | name l =>
    dsimp only [Machine.evalStep] at hstep
    split at hstep
    next a ha =>
      cases hstep
      exact ⟨⟨P, he a ha, hk⟩, .inl htemps, hstands⟩
    next => cases hstep
  | binop op fst snd =>
    cases hstep
    obtain ⟨Q, R, hfst, hsnd, happly⟩ := he
    refine ⟨⟨Q, hfst, R, P, hsnd, hk, fun x y z temps s hx hy hF => ?_⟩, .inl htemps, hstands⟩
    exact happly x y z hx hy (helement op fst snd rfl x y temps s hF)
  | unop op arg =>
    cases hstep
    obtain ⟨Q, harg, happly⟩ := he
    exact ⟨⟨Q, harg, P, hk, happly⟩, .inl htemps, hstands⟩
  -- Calls have at least the static link as their argument, and that is evaluated first.
  | call l offs args =>
    obtain ⟨hargs, harguments, hplaces, hP⟩ := he
    obtain rfl : P = fun _ => True := funext fun v => eq_true (hP v)
    obtain ⟨arg, args, rfl⟩ := List.exists_cons_of_ne_nil hargs
    cases hstep
    refine ⟨⟨_, harguments.1, harguments.2, hplaces, fun v hv w hw => ?_, hk⟩, .inl htemps, hstands⟩
    cases hw
    exact hv
  -- The block inside runs on the same layer as the expression around it.
  | sexpr stmt value =>
    cases hstep
    refine ⟨⟨fun s hs => ?_, P, he.2, hk⟩, .inl htemps, hstands⟩
    have hmem : s ∈ Stmt.flattenAll [stmt] := by simpa [Block.ofStmts] using hs
    rw [Stmt.flattenAll, Stmt.flattenAll, List.append_nil] at hmem
    exact he.1.flatten s hmem

/-- What is done with a value. -/
theorem Keeps.valueStep (hm : N.DisciplinesAll m) {v : Word} {k : ValueContext}
    (h : N.Keeps m F ⟨.value v k, temps, s⟩) (hF : F ⟨.value v k, temps, s⟩)
    (hstep : Machine.valueStep m v k temps s = .next c') (hallows : N.Allows c') : N.Keeps m F c' := by
  obtain ⟨⟨P, hv, hk⟩, hheld, hstands⟩ := h
  have htemps : HoldsFp temps k.layers := hheld.resolve_right id
  cases k with
  | done => cases hstep
  -- What is read at a slot of a static link is the link, since the layers are linked.
  | readMem k =>
    cases hstep
    obtain ⟨Q, hk, hread⟩ := hk
    exact ⟨⟨Q, hread v _ hv hstands.linked, hk⟩, .inl htemps, hstands⟩
  | binSecond op snd k =>
    cases hstep
    obtain ⟨Q, R, hsnd, hk, happly⟩ := hk
    exact ⟨⟨Q, hsnd, R, hk, fun y z temps s hy hF => happly v y z temps s hv hy hF⟩, .inl htemps, hstands⟩
  | binApply op x k =>
    obtain ⟨R, hk, happly⟩ := hk
    dsimp only [Machine.valueStep] at hstep
    split at hstep
    next z hz =>
      cases hstep
      exact ⟨⟨R, happly v z temps s hv hF hz, hk⟩, .inl htemps, hstands⟩
    next => cases hstep
  | unApply op k =>
    cases hstep
    obtain ⟨Q, hk, happly⟩ := hk
    exact ⟨⟨Q, happly v hv, hk⟩, .inl htemps, hstands⟩
  -- Behind the last argument comes the call; the first one in the list is the static link.
  | argument l offs ready rest k =>
    obtain ⟨hrest, hplaces, hlink, hk⟩ := hk
    cases rest with
    | nil =>
      refine Keeps.call hm hk hstands htemps hplaces (fun w hw => hlink v hv w ?_) ?_ hstep hallows
      · rwa [List.head?_reverse] at hw
      · simp
    | cons e es =>
      cases hstep
      refine ⟨⟨_, hrest.1, hrest.2, hplaces, fun v' _ w hw => hlink v hv w ?_, hk⟩, .inl htemps, hstands⟩
      rwa [List.getLast?_cons_cons] at hw
  | drop block pc k =>
    cases hstep
    exact ⟨hk, .inl htemps, hstands⟩
  -- The result has been moved, so the frame pointer is not needed any more.
  | setTemp t block pc k =>
    cases hstep
    obtain ⟨hend, ⟨frame, fp, callerTemps, k, rfl⟩, hk⟩ := hk
    exact ⟨hk, .inr hend, hstands⟩
  | storeAddress src block pc k =>
    cases hstep
    obtain ⟨hsrc, hclear, hk⟩ := hk
    exact ⟨⟨_, hsrc, hclear v hv, hk⟩, .inl htemps, hstands⟩
  -- The address is none of a static link's, so the layers stay linked.
  | storeValue addr block pc k =>
    cases hstep
    exact ⟨hk.2, .inl htemps, ⟨hstands.sp, hstands.seated, hstands.linked.write hk.1 v⟩⟩
  | branch pos neg block k => exact Keeps.jump hk hstands htemps hstep

/-- What is done with a statement. -/
theorem Keeps.execStep {block : Block} {pc : Nat} {k : BlockContext}
    (h : N.Keeps m F ⟨.exec block pc k, temps, s⟩)
    (hstep : Machine.execStep m block pc k temps s = .next c') :
    N.Keeps m F c' := by
  obtain ⟨hgoes, hheld, hstands⟩ := h
  have hk : k.Continues N m F block := hgoes
  unfold Machine.execStep at hstep
  split at hstep
  -- At the end of a function's block the result has been moved.
  next hend =>
    refine Keeps.endBlock hk hstands (hheld.imp_right fun hfinished => ?_) hstep
    cases k with
    | value e k => exact hfinished.elim
    | ret frame fp callerTemps k => exact ⟨_, _, _, _, rfl⟩
  next stmt hstmt =>
    have htemps : HoldsFp temps k.layers := hheld.resolve_right fun hfinished => by
      cases k with
      | value e k => exact hfinished
      | ret frame fp callerTemps k => cases hstmt.symm.trans hfinished
    have hstands' : N.Stands k.layers { s with steps := s.steps + 1 } :=
      ⟨hstands.sp, hstands.seated, hstands.linked⟩
    dsimp only at hstep
    split at hstep
    · cases hstep
    · cases k with
      | value e k =>
        -- Statements inside an expression, one case for each kind.
        have hgood := hk.1 stmt (Array.mem_of_getElem? hstmt)
        cases stmt with
        | label l =>
          cases hstep
          exact ⟨hk, .inl htemps, hstands'⟩
        | eval e =>
          cases hstep
          exact ⟨⟨_, hgood, hk⟩, .inl htemps, hstands'⟩
        | move dst src =>
          cases dst with
          | mem addr =>
            cases hstep
            exact ⟨⟨_, hgood.1, hgood.2, fun _ hv => hv, hk⟩, .inl htemps, hstands'⟩
          | _ => exact hgood.elim
        | jump l => exact Keeps.jump hk hstands' htemps hstep
        | cjump cond pos neg =>
          cases hstep
          exact ⟨⟨_, hgood, hk⟩, .inl htemps, hstands'⟩
        | absent | seq _ => cases hstep
      | ret frame fp callerTemps k =>
        -- The only statement of the body moves the result.
        obtain ⟨-, -, e, hblock, he⟩ := id hk
        have hstmts : block.stmts = #[.move (.temp frame.rv) e] := by rw [hblock]; rfl
        rw [hstmts] at hstmt
        cases pc with
        | succ pc => cases hstmt
        | zero =>
          cases hstmt
          cases hstep
          exact ⟨⟨_, he, by rw [hstmts]; rfl, ⟨_, _, _, _, rfl⟩, hk⟩, .inl htemps, hstands'⟩

/-- **One transition keeps all static links**, if every nested function is called by the one that
declares it and the stack has room. -/
theorem Keeps.next (hm : N.DisciplinesAll m) (h : N.Keeps m F c) (hF : F c)
    (helement : ∀ op fst snd k, c.control = .eval (.binop op fst snd) k →
      ∀ x y temps s, F ⟨.value y (.binApply op x k), temps, s⟩ → N.element (.binop op fst snd) y)
    (hstep : Next m c c') (hallows : N.Allows c') : N.Keeps m F c' := by
  obtain ⟨control, temps, s⟩ := c
  cases control with
  | eval e k =>
    refine Keeps.evalStep h (fun op fst snd he => ?_) hstep
    subst he
    exact helement op fst snd k rfl
  | value v k => exact Keeps.valueStep hm h hF hstep hallows
  | exec block pc k => exact Keeps.execStep h hstep

/-! ## §6 Runs -/

variable (N m) in
/-- Every offset that is added to the address of an array, in a run from `start` to the
configuration, is that of an element. The context of an addition holds all that is still to be done,
and so it tells which addition it is. -/
def InRange (start c : Config) : Prop :=
  ∀ c₀ op fst snd k x y, ReflTransGen (Next m) start c₀ → c₀.control = .eval (.binop op fst snd) k →
    ReflTransGen (Next m) c₀ c → c.control = .value y (.binApply op x k) → N.element (.binop op fst snd) y

variable (N m) in
/-- What the run still comes to, as long as offsets are in range. -/
def Ahead (start c : Config) : Future := fun d => ReflTransGen (Next m) c d ∧ N.InRange m start d

variable (N m) in
/-- On the way from `start` to the configuration every nested function is called by the one that
declares it, the stack does not come down to the static data, and array indices are in range. -/
def Orderly (start c : Config) : Prop :=
  ∀ d, ReflTransGen (Next m) start d → ReflTransGen (Next m) d c → N.Allows d ∧ N.InRange m start d

/-- **A run keeps all static links**, if every nested function is called by the one that declares
it, the stack has room and array indices are in range. -/
theorem Keeps.of_run (hm : N.DisciplinesAll m) {start : Config}
    (hstart : N.Keeps m (N.Ahead m start start) start) (hrun : ReflTransGen (Next m) start c)
    (hway : N.Orderly m start c) : N.Keeps m (N.Ahead m start c) c := by
  induction hrun with
  | refl => exact hstart
  | @tail c c' hreach hstep ih =>
    have hc := ih fun d hd hdc => hway d hd (hdc.tail hstep)
    have hnext := hc.next hm ⟨.refl, (hway c hreach (.single hstep)).2⟩
      (fun op fst snd k hcontrol x y temps s hF => hF.2 c op fst snd k x y hreach hcontrol hF.1 rfl) hstep
      (hway c' (hreach.tail hstep) .refl).1
    exact hnext.mono fun d hd => ⟨.head hstep hd.1, hd.2⟩

/-- **The start of a run**: the call of a function that is not nested. -/
theorem Keeps.start (hm : N.DisciplinesAll m) {l : Label} {args : List Word}
    (hroutine : Routine.ofLabel? l = none) (hnested : ∀ f, m.functions[l]? = some f →
      ¬N.nested f.frame) (hsp : s.sp = stackTop)
    (hcall : Machine.call m l [0] args .done temps s = .next c) (hallows : N.Allows c) :
    N.Keeps m F c := by
  replace hcall := invoke_eq_next hcall
  rw [invoke, hroutine] at hcall
  cases hf : m.functions[l]? with
  | none =>
    rw [hf] at hcall
    cases hcall
  | some f =>
    rw [hf] at hcall
    cases hcall
    have hfit := hm l f hf hroutine
    obtain ⟨e, hbody, he⟩ := hfit.body
    have hseated : N.Seated [⟨f.frame, s.sp⟩] := by
      refine ⟨⟨congrArg Int64.toInt hsp, hfit.locsSize, hfit.argsSize, hallows.room _ List.mem_cons_self,
        fun n hn => ?_, fun h => (hnested f hf h).elim⟩, trivial⟩
      have hparams := hfit.params n hn
      show s.sp.toInt + 8 * (n : Int) ≤ dataStart.toInt + 2 ^ 64
      rw [hsp, toInt_stackTop, toInt_dataStart]
      omega
    refine ⟨⟨fun _ h => (Option.not_mem_none _ h).elim, trivial, e, hbody, he _ _ hseated⟩,
      .inl fun L hL => ?_,
      ⟨Layer.sub_size ⟨f.frame, s.sp⟩, hseated, fun i L₁ L₂ _ hL₂ => ?_⟩⟩
    · cases hL
      exact Std.HashMap.getD_insert_self
    · cases hL₂

end Nesting

end Machine

end MmixBackend
