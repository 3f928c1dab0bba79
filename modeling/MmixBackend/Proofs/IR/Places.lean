import MmixBackend.Proofs.Machine.Blocks

/-!
# Places of the tree machine and of canonical code

A machine that runs expression trees keeps its place in nested contexts; a machine that runs the
canonical chunks made from them keeps it in a position of one flat list and in fresh temps. The
relation between the two says, context by context, which code stands at that position and which fresh
temps hold the values that the context already has.

It is defined by recursion on the contexts of the tree machine (`Waits`, `EndsAt`), so a case split on
the configuration of the tree machine unfolds it.

## Main statements

- `Waits.congr`, `EndsAt.congr`: what a context waits for depends only on the temps that belong to it.
- `Site.Inside.stmt`, `Site.Inside.jump`: where a statement of a block and the target of a jump stand
  in the flat list.
- `Related`: places of the two machines that belong together.
-/

namespace MmixBackend.Machine

open IR Relation

/-! ## §1 States apart from the step counter -/

/-- The two states differ at most in the number of steps. -/
def State.Alike (s s' : State) : Prop := ∃ n, s' = { s with steps := n }

theorem State.Alike.refl (s : State) : s.Alike s := ⟨s.steps, rfl⟩

theorem State.Alike.count {s s' : State} (h : s.Alike s') :
    State.Alike { s with steps := s.steps + 1 } s' := by
  obtain ⟨n, rfl⟩ := h
  exact ⟨n, rfl⟩

theorem State.Alike.count_right {s s' : State} (h : s.Alike s') (n : Nat) :
    s.Alike { s' with steps := n } := by
  obtain ⟨_, rfl⟩ := h
  exact ⟨n, rfl⟩

theorem State.Alike.memory_eq {s s' : State} (h : s.Alike s') : s'.memory = s.memory := by
  obtain ⟨_, rfl⟩ := h
  rfl

/-- A routine does the same whatever the step counter says. -/
theorem Routine.run_steps (r : Routine) (s : State) (n : Nat) :
    r.run { s with steps := n } = ((r.run s).1, { (r.run s).2 with steps := n }) := by
  cases r with
  | new => rfl
  | del => rfl
  | putChar =>
    simp only [Routine.run]
    split <;> rfl
  | getChar =>
    simp only [Routine.run]
    split <;> rfl
  | exit => rfl

/-! ## §2 Where the two machines stand -/

/-- An activation on the side of canonical code: the statements of its chunk, where it returns to,
and the numbers of the fresh temps of the chunk, which are those above `lo` up to `hi`. -/
structure Site where
  stmts : List Stmt
  flat : Stmt.flattenAll stmts = stmts
  labels_nodup : (Stmt.labelsOf stmts).Nodup
  ret : BlockContext
  lo : Int
  hi : Int

namespace Site

/-- The block of the chunk. -/
def block (a : Site) : Block := .ofStmts a.stmts

/-- The temps that canonicalization has made. -/
def Fresh (a : Site) (t : Temp) : Prop := a.lo < t.index ∧ t.index ≤ a.hi

/-- The temps of the tree machine have the same values here. -/
def Agree (a : Site) (temps temps' : Temps) : Prop :=
  ∀ t, ¬a.Fresh t → temps'.getD t 0 = temps.getD t 0

/-- A well-shaped expression without fresh temps. -/
def Plain (a : Site) (e : Expr) : Prop := e.Shaped ∧ ∀ t ∈ e.temps, ¬a.Fresh t

/-- Well-shaped expressions without fresh temps. -/
def PlainAll (a : Site) (es : List Expr) : Prop :=
  Expr.ShapedAll es ∧ ∀ t ∈ Expr.tempsAll es, ¬a.Fresh t

/-- A well-shaped statement without fresh temps. -/
def PlainStmt (a : Site) (s : Stmt) : Prop := s.Shaped ∧ ∀ t ∈ s.temps, ¬a.Fresh t

/-- Fresh temps up to the number `p` hold the given values. -/
def Holds (a : Site) (p : Int) (temps : Temps) (ts : List Temp) (vs : List Word) : Prop :=
  ts.map (temps.getD · 0) = vs ∧ ∀ t ∈ ts, a.lo < t.index ∧ t.index ≤ p

/-- The tree machine is at index `i` of the block `b`, and this one at position `pc` of its chunk,
where the last temp made has the number `n`. The code of the whole block stands in the chunk, and
what `ends` says holds behind it. No fresh temp up to the number `p` belongs to the block. -/
def Inside (a : Site) (ends : (p n : Int) → (pc : Nat) → Prop) (b : Block) (i : Nat) (p n : Int)
    (pc : Nat) : Prop :=
  ∃ s p₀ n₀ start, b = .ofStmts [s] ∧ a.PlainStmt s ∧ s.Closed ∧ a.lo ≤ p₀ ∧ p₀ ≤ p ∧ p₀ ≤ n₀ ∧
    CodeAt a.block start (Stmt.lowerAll s.flatten n₀).stmts ∧
    ends p₀ (Stmt.lowerAll s.flatten n₀).next
      (start + (Stmt.lowerAll s.flatten n₀).stmts.length) ∧
    n = (Stmt.lowerAll (s.flatten.take i) n₀).next ∧
    pc = start + (Stmt.lowerAll (s.flatten.take i) n₀).stmts.length

/-- Where a call returns to on the two sides: to the outside, or to a move of the result into a fresh
temp, behind which `waits` says what the caller waits for. -/
def Returns (waits : Site → (p n : Int) → Temps → (pc : Nat) → Expr → Prop)
    (k : ValueContext) (temps : Temps) (k' : ValueContext) (temps' : Temps) : Prop :=
  (k = .done ∧ k' = .done) ∨
    ∃ (a : Site) (p n : Int) (t : Temp) (pc : Nat), k' = .setTemp t a.block pc a.ret ∧
      a.lo ≤ p ∧ p < t.index ∧ t.index ≤ n ∧ n ≤ a.hi ∧ a.Agree temps temps' ∧
      (∀ v, waits a p n (temps'.insert t v) pc (.temp t))

end Site

mutual

/-- The code at position `pc` does with the operand `e` what the context of the tree machine does
with its value. The last temp made has the number `n`, and fresh temps up to the number `p` hold what
the context already has. -/
def Waits : ValueContext → (a : Site) → (p n : Int) → Temps → (pc : Nat) → Expr → Prop
  | .done, _, _, _, _, _, _ => False
  | .readMem k, a, p, n, temps, pc, e => Waits k a p n temps pc (.mem e)
  | .unApply op k, a, p, n, temps, pc, e => Waits k a p n temps pc (.unop op e)
  | .binSecond op snd k, a, p, n, temps, pc, e =>
    let b := snd.lower (n + 1)
    a.Plain snd ∧
      CodeAt a.block pc (moveInto (n + 1) e :: (b.stmts ++ [moveInto (b.next + 1) b.value,
        moveInto (b.next + 2) (.binop op (.temp ⟨n + 1⟩) (.temp ⟨b.next + 1⟩))])) ∧
      Waits k a p (b.next + 2) temps (pc + b.stmts.length + 3) (.temp ⟨b.next + 2⟩)
  | .binApply op fst k, a, p, n, temps, pc, e =>
    ∃ t, a.Holds p temps [t] [fst] ∧
      CodeAt a.block pc [moveInto (n + 1) e,
        moveInto (n + 2) (.binop op (.temp t) (.temp ⟨n + 1⟩))] ∧
      Waits k a p (n + 2) temps (pc + 2) (.temp ⟨n + 2⟩)
  | .argument l offs ready rest k, a, p, n, temps, pc, e =>
    let r := Expr.lowerArgs rest (n + 1)
    ∃ ts, a.PlainAll rest ∧ a.Holds p temps ts ready.reverse ∧
      CodeAt a.block pc (moveInto (n + 1) e :: (r.stmts ++ [moveInto (r.next + 1)
        (.call l offs ((ts ++ ⟨n + 1⟩ :: r.temps).map .temp))])) ∧
      Waits k a p (r.next + 1) temps (pc + r.stmts.length + 2) (.temp ⟨r.next + 1⟩)
  | .drop b i k, a, p, n, temps, pc, e =>
    CodeAt a.block pc [.eval e] ∧
      a.Inside (fun p n pc => EndsAt k a p n temps pc) b i p n (pc + 1)
  | .setTemp t b i k, a, p, n, temps, pc, e =>
    ¬a.Fresh t ∧ CodeAt a.block pc [.move (.temp t) e] ∧
      a.Inside (fun p n pc => EndsAt k a p n temps pc) b i p n (pc + 1)
  | .storeAddress src b i k, a, p, n, temps, pc, e =>
    let c := src.lower (n + 1)
    a.Plain src ∧
      CodeAt a.block pc (moveInto (n + 1) e
        :: (c.stmts ++ [.move (.mem (.temp ⟨n + 1⟩)) c.value])) ∧
      a.Inside (fun p n pc => EndsAt k a p n temps pc) b i p c.next (pc + c.stmts.length + 2)
  | .storeValue addr b i k, a, p, n, temps, pc, e =>
    ∃ t, a.Holds p temps [t] [addr] ∧ CodeAt a.block pc [.move (.mem (.temp t)) e] ∧
      a.Inside (fun p n pc => EndsAt k a p n temps pc) b i p n (pc + 1)
  | .branch pos neg b k, a, p, n, temps, pc, e =>
    CodeAt a.block pc [.cjump e pos neg] ∧
      (∀ l ∈ [pos, neg], l ∈ Stmt.labelsOf b.stmts.toList) ∧
      ∃ i, a.Inside (fun p n pc => EndsAt k a p n temps pc) b i p n (pc + 1)

/-- The code at position `pc` does what the context of the tree machine does at the end of a block. -/
def EndsAt : BlockContext → (a : Site) → (p n : Int) → Temps → (pc : Nat) → Prop
  | .value e k, a, p, n, temps, pc =>
    a.Plain e ∧ CodeAt a.block pc (e.lower n).stmts ∧
      Waits k a p (e.lower n).next temps (pc + (e.lower n).stmts.length) (e.lower n).value
  | .ret frame fp callerTemps k, a, _, n, _, pc =>
    n ≤ a.hi ∧ ¬a.Fresh frame.rv ∧ ∃ exit callerTemps' k', a.ret = .ret frame fp callerTemps' k' ∧
      CodeAt a.block pc [.jump exit] ∧ exit ∉ Stmt.labelsOf a.stmts ∧
      Site.Returns (fun a p n temps pc e => Waits k a p n temps pc e) k callerTemps k' callerTemps'

end

/-! ## §3 Fresh temps -/

namespace Site

variable {a : Site} {ends ends' : (p n : Int) → (pc : Nat) → Prop} {b : Block} {i : Nat}
  {p n : Int} {pc : Nat} {temps temps' : Temps}

theorem Agree.insert_fresh (h : a.Agree temps temps') {t : Temp} (ht : a.Fresh t) (v : Word) :
    a.Agree temps (temps'.insert t v) := by
  intro u hu
  have hne : t ≠ u := by
    rintro rfl
    exact hu ht
  simp [Std.HashMap.getD_insert, hne, h u hu]

theorem Agree.insert_both (h : a.Agree temps temps') (t : Temp) (v : Word) :
    a.Agree (temps.insert t v) (temps'.insert t v) := by
  intro u hu
  simp [Std.HashMap.getD_insert, h u hu]

theorem Holds.mono {p' : Int} (hp : p ≤ p') {ts : List Temp} {vs : List Word}
    (h : a.Holds p temps ts vs) : a.Holds p' temps ts vs :=
  ⟨h.1, fun t ht => ⟨(h.2 t ht).1, Int.le_trans (h.2 t ht).2 hp⟩⟩

/-- Temps hold their values when only other temps change. -/
theorem Holds.congr {ts : List Temp} {vs : List Word}
    (htemps : ∀ t : Temp, a.lo < t.index → t.index ≤ p → temps'.getD t 0 = temps.getD t 0)
    (h : a.Holds p temps ts vs) : a.Holds p temps' ts vs := by
  refine ⟨?_, h.2⟩
  rw [← h.1]
  exact List.map_congr_left fun t ht => htemps t (h.2 t ht).1 (h.2 t ht).2

/-- A value is appended to those that are held. -/
theorem Holds.append {ts : List Temp} {vs : List Word} (h : a.Holds p temps ts vs) {t : Temp}
    {v : Word} (hlo : a.lo < t.index) (hp : p < t.index) :
    a.Holds t.index (temps.insert t v) (ts ++ [t]) (vs ++ [v]) := by
  have hne : ∀ u ∈ ts, t ≠ u := by
    rintro u hu rfl
    have := (h.2 t hu).2
    omega
  constructor
  · simp only [List.map_append, List.map_cons, List.map_nil, Std.HashMap.getD_insert_self]
    rw [← h.1]
    congr 1
    exact List.map_congr_left fun u hu => by simp [Std.HashMap.getD_insert, hne u hu]
  · intro u hu
    rcases List.mem_append.mp hu with hu | hu
    · have := h.2 u hu
      omega
    · rw [List.mem_singleton.mp hu]
      exact ⟨hlo, Int.le_refl _⟩

/-- A single value is held by the temp that it was moved into. -/
theorem Holds.single {t : Temp} {v : Word} (hlo : a.lo < t.index) :
    a.Holds t.index (temps.insert t v) [t] [v] :=
  ⟨by simp, by simpa using hlo⟩

/-- The position inside a block is only as good as what holds at its end. -/
theorem Inside.imp {p' : Int} (hp : p ≤ p')
    (hends : ∀ p₀ n pc, p₀ ≤ p → ends p₀ n pc → ends' p₀ n pc)
    (h : a.Inside ends b i p n pc) : a.Inside ends' b i p' n pc := by
  obtain ⟨s, p₀, n₀, start, hb, hs, hclosed, hlo, hp₀, hn₀, hcode, hend, hn, hpc⟩ := h
  exact ⟨s, p₀, n₀, start, hb, hs, hclosed, hlo, Int.le_trans hp₀ hp, hn₀, hcode,
    hends p₀ _ _ hp₀ hend, hn, hpc⟩

/-- No position of a block has made more temps than its end. -/
theorem Inside.le_hi (hends : ∀ p n pc, ends p n pc → n ≤ a.hi) (h : a.Inside ends b i p n pc) :
    n ≤ a.hi := by
  obtain ⟨s, p₀, n₀, start, -, -, -, -, -, -, -, hend, rfl, -⟩ := h
  have hall : Stmt.lowerAll s.flatten n₀
      = Stmt.lowerAll (s.flatten.take i ++ s.flatten.drop i) n₀ := by
    rw [List.take_append_drop]
  rw [Stmt.lowerAll_append] at hall
  have hle := Stmt.le_lowerAll_next (s.flatten.drop i) (Stmt.lowerAll (s.flatten.take i) n₀).next
  have := hends _ _ _ hend
  rw [hall] at this
  exact Int.le_trans hle this

end Site

mutual

theorem Waits.le_hi : ∀ {k : ValueContext} {a : Site} {p n : Int} {temps : Temps} {pc : Nat}
    {e : Expr}, Waits k a p n temps pc e → n ≤ a.hi
  | .done, _, _, _, _, _, _, h => h.elim
  | .readMem k, _, _, _, _, _, e, h => Waits.le_hi (k := k) (e := .mem e) h
  | .unApply op k, _, _, _, _, _, e, h => Waits.le_hi (k := k) (e := .unop op e) h
  | .binSecond _ snd _, _, _, n, _, _, _, h => by
    have h₁ := Waits.le_hi h.2.2
    have h₂ := snd.le_lower_next (n + 1)
    omega
  | .binApply _ _ _, _, _, _, _, _, _, h => by
    obtain ⟨_, -, -, hk⟩ := h
    have := Waits.le_hi hk
    omega
  | .argument _ _ _ rest _, _, _, n, _, _, _, h => by
    obtain ⟨_, -, -, -, hk⟩ := h
    have h₁ := Waits.le_hi hk
    have h₂ := Expr.le_lowerArgs_next rest (n + 1)
    omega
  | .drop _ _ _, _, _, _, _, _, _, h => h.2.le_hi fun _ _ _ => EndsAt.le_hi
  | .setTemp _ _ _ _, _, _, _, _, _, _, h => h.2.2.le_hi fun _ _ _ => EndsAt.le_hi
  | .storeAddress src _ _ _, _, _, n, _, _, _, h => by
    have h₁ := h.2.2.le_hi fun _ _ _ => EndsAt.le_hi
    have h₂ := src.le_lower_next (n + 1)
    omega
  | .storeValue _ _ _ _, _, _, _, _, _, _, h => by
    obtain ⟨_, -, -, hin⟩ := h
    exact hin.le_hi fun _ _ _ => EndsAt.le_hi
  | .branch _ _ _ _, _, _, _, _, _, _, h => by
    obtain ⟨-, -, _, hin⟩ := h
    exact hin.le_hi fun _ _ _ => EndsAt.le_hi

theorem EndsAt.le_hi : ∀ {k : BlockContext} {a : Site} {p n : Int} {temps : Temps} {pc : Nat},
    EndsAt k a p n temps pc → n ≤ a.hi
  | .value e _, _, _, n, _, _, h => Int.le_trans (e.le_lower_next n) (Waits.le_hi h.2.2)
  | .ret _ _ _ _, _, _, _, _, _, h => h.1

end

mutual

/-- What a context waits for depends only on the fresh temps up to its bound; the bound may grow. -/
theorem Waits.congr : ∀ {k : ValueContext} {a : Site} {p p' n : Int} {temps temps' : Temps}
    {pc : Nat} {e : Expr}, p ≤ p' →
    (∀ t : Temp, a.lo < t.index → t.index ≤ p → temps'.getD t 0 = temps.getD t 0) →
    Waits k a p n temps pc e → Waits k a p' n temps' pc e
  | .done, _, _, _, _, _, _, _, _, _, _, h => h.elim
  | .readMem k, _, _, _, _, _, _, _, e, hp, ht, h => Waits.congr (k := k) (e := .mem e) hp ht h
  | .unApply op k, _, _, _, _, _, _, _, e, hp, ht, h =>
    Waits.congr (k := k) (e := .unop op e) hp ht h
  | .binSecond _ _ _, _, _, _, _, _, _, _, _, hp, ht, h => ⟨h.1, h.2.1, h.2.2.congr hp ht⟩
  | .binApply _ _ _, _, _, _, _, _, _, _, _, hp, ht, h => by
    -- A temp that is held lies within the bound, so it keeps its value.
    obtain ⟨t, hheld, hcode, hk⟩ := h
    exact ⟨t, (hheld.congr ht).mono hp, hcode, hk.congr hp ht⟩
  | .argument _ _ _ _ _, _, _, _, _, _, _, _, _, hp, ht, h => by
    obtain ⟨ts, hrest, hheld, hcode, hk⟩ := h
    exact ⟨ts, hrest, (hheld.congr ht).mono hp, hcode, hk.congr hp ht⟩
  | .drop _ _ _, _, _, _, _, _, _, _, _, hp, ht, h =>
    ⟨h.1, h.2.imp hp fun _ _ _ hp₀ => EndsAt.congr fun t hlo hle =>
      ht t hlo (Int.le_trans hle hp₀)⟩
  | .setTemp _ _ _ _, _, _, _, _, _, _, _, _, hp, ht, h =>
    ⟨h.1, h.2.1, h.2.2.imp hp fun _ _ _ hp₀ => EndsAt.congr fun t hlo hle =>
      ht t hlo (Int.le_trans hle hp₀)⟩
  | .storeAddress _ _ _ _, _, _, _, _, _, _, _, _, hp, ht, h =>
    ⟨h.1, h.2.1, h.2.2.imp hp fun _ _ _ hp₀ => EndsAt.congr fun t hlo hle =>
      ht t hlo (Int.le_trans hle hp₀)⟩
  | .storeValue _ _ _ _, _, _, _, _, _, _, _, _, hp, ht, h => by
    obtain ⟨t, hheld, hcode, hin⟩ := h
    exact ⟨t, (hheld.congr ht).mono hp, hcode, hin.imp hp fun _ _ _ hp₀ =>
      EndsAt.congr fun t hlo hle => ht t hlo (Int.le_trans hle hp₀)⟩
  | .branch _ _ _ _, _, _, _, _, _, _, _, _, hp, ht, h => by
    obtain ⟨hcode, hlabels, i, hin⟩ := h
    exact ⟨hcode, hlabels, i, hin.imp hp fun _ _ _ hp₀ => EndsAt.congr fun t hlo hle =>
      ht t hlo (Int.le_trans hle hp₀)⟩

theorem EndsAt.congr : ∀ {k : BlockContext} {a : Site} {p n : Int} {temps temps' : Temps}
    {pc : Nat},
    (∀ t : Temp, a.lo < t.index → t.index ≤ p → temps'.getD t 0 = temps.getD t 0) →
    EndsAt k a p n temps pc → EndsAt k a p n temps' pc
  | .value _ _, _, _, _, _, _, _, ht, h => ⟨h.1, h.2.1, h.2.2.congr (Int.le_refl _) ht⟩
  | .ret _ _ _ _, _, _, _, _, _, _, _, h => h

end

/-! ## §4 Positions inside a block -/

namespace Site

variable {a : Site} {ends : (p n : Int) → (pc : Nat) → Prop} {b : Block} {i : Nat} {p n : Int}
  {pc : Nat}

/-- The bound of a position can be taken below the temps made so far. -/
theorem Inside.tighten (h : a.Inside ends b i p n pc) :
    ∃ p₀, a.lo ≤ p₀ ∧ p₀ ≤ n ∧ p₀ ≤ p ∧ a.Inside ends b i p₀ n pc := by
  obtain ⟨s, p₀, n₀, start, hb, hs, hclosed, hlo, hp₀, hn₀, hcode, hend, rfl, rfl⟩ := h
  exact ⟨p₀, hlo, Int.le_trans hn₀ (Stmt.le_lowerAll_next _ _), hp₀,
    s, p₀, n₀, start, hb, hs, hclosed, hlo, Int.le_refl _, hn₀, hcode, hend, rfl, rfl⟩

/-- Every index of the block has a position. -/
theorem Inside.move (h : a.Inside ends b i p n pc) (j : Nat) :
    ∃ n' pc', a.Inside ends b j p n' pc' := by
  obtain ⟨s, p₀, n₀, start, hb, hs, hclosed, hlo, hp₀, hn₀, hcode, hend, -, -⟩ := h
  exact ⟨_, _, s, p₀, n₀, start, hb, hs, hclosed, hlo, hp₀, hn₀, hcode, hend, rfl, rfl⟩

/-- At the end of the block the position is the one behind its code. -/
theorem Inside.ended (h : a.Inside ends b i p n pc) (hi : b.stmts[i]? = none) :
    ∃ p₀ ≤ p, a.lo ≤ p₀ ∧ p₀ ≤ n ∧ ends p₀ n pc := by
  obtain ⟨s, p₀, n₀, start, rfl, -, -, hlo, hp₀, hn₀, -, hend, rfl, rfl⟩ := h
  rw [Block.getElem?_ofStmts] at hi
  have hlen : s.flatten.length ≤ i := by simpa [Stmt.flattenAll] using hi
  rw [List.take_of_length_le hlen]
  exact ⟨p₀, hp₀, hlo, Int.le_trans hn₀ (Stmt.le_lowerAll_next _ _), hend⟩

/-- At a statement the code of this statement stands at the position, and behind it comes the
position of the next index. -/
theorem Inside.stmt (h : a.Inside ends b i p n pc) {st : Stmt} (hst : b.stmts[i]? = some st) :
    a.PlainStmt st ∧ (∀ ss, st ≠ .seq ss) ∧
      (∀ l ∈ Stmt.targetsOf [st], l ∈ Stmt.labelsOf b.stmts.toList) ∧
      CodeAt a.block pc (st.lower n).stmts ∧
      a.Inside ends b (i + 1) p (st.lower n).next (pc + (st.lower n).stmts.length) := by
  obtain ⟨s, p₀, n₀, start, rfl, hs, hclosed, hlo, hp₀, hn₀, hcode, hend, rfl, rfl⟩ := h
  have hflat : (Block.ofStmts [s]).stmts.toList = s.flatten := by
    simp [Block.ofStmts, Stmt.flattenAll]
  have hst' : s.flatten[i]? = some st := by
    simpa [Block.getElem?_ofStmts, Stmt.flattenAll] using hst
  have hmem : st ∈ s.flatten := List.mem_of_getElem? hst'
  -- The statement at the index splits the list, and the code of the list with it.
  have htake : s.flatten.take (i + 1) = s.flatten.take i ++ [st] := by
    rw [List.take_add_one, hst']
    rfl
  have hall : s.flatten = s.flatten.take (i + 1) ++ s.flatten.drop (i + 1) :=
    (List.take_append_drop _ _).symm
  refine ⟨⟨hs.1.flatten.of_mem hmem, fun t ht => hs.2 t ?_⟩, s.ne_seq_of_mem_flatten st hmem,
    fun l hl => ?_, ?_, s, p₀, n₀, start, rfl, hs, hclosed, hlo, hp₀, hn₀, hcode, hend, ?_, ?_⟩
  · rw [← s.tempsAll_flatten]
    exact Stmt.temps_subset_tempsAll hmem ht
  · rw [hflat]
    refine hclosed l ?_
    simp only [Stmt.targetsOf, List.flatMap_cons, List.flatMap_nil, List.append_nil] at hl
    exact List.mem_flatMap.mpr ⟨st, hmem, hl⟩
  · rw [hall, htake, Stmt.lowerAll_append, Stmt.lowerAll_append, Stmt.lowerAll_singleton] at hcode
    simp only [codeAt_append] at hcode
    exact hcode.1.2
  · rw [htake, Stmt.lowerAll_append, Stmt.lowerAll_singleton]
  · rw [htake, Stmt.lowerAll_append, Stmt.lowerAll_singleton, List.length_append, Nat.add_assoc]

/-- A label of the block is found on both sides, at positions that belong together. -/
theorem Inside.jump (h : a.Inside ends b i p n pc) {l : Label}
    (hl : l ∈ Stmt.labelsOf b.stmts.toList) :
    ∃ j n' pc', b.labels[l]? = some j ∧ a.block.labels[l]? = some pc' ∧
      a.Inside ends b (j + 1) p n' (pc' + 1) := by
  obtain ⟨s, hb⟩ : ∃ s, b = .ofStmts [s] := by
    obtain ⟨s, _, _, _, hb, -⟩ := h
    exact ⟨s, hb⟩
  have hmem : .label l ∈ Stmt.flattenAll [s] := by
    have := Stmt.mem_labelsOf.mp hl
    rw [hb] at this
    simpa [Block.ofStmts] using this
  obtain ⟨j, hj, hfound⟩ := (Block.labels_ofStmts [s] l).resolve_right fun h => h.1 hmem
  rw [← Block.getElem?_ofStmts, ← hb] at hj
  obtain ⟨n', pc', hin⟩ := h.move j
  obtain ⟨-, -, -, hcode, hnext⟩ := hin.stmt hj
  have hpc' : a.stmts[pc']? = some (.label l) := by
    have := hcode.1
    rwa [Site.block, Block.getElem?_ofStmts, a.flat] at this
  refine ⟨j, n', pc', by rw [hb, hfound], ?_, hnext⟩
  rcases Block.labels_ofStmts a.stmts l with ⟨j', hj', hfound'⟩ | ⟨hnot, -⟩
  · rw [a.flat] at hj'
    rw [Site.block, hfound', getElem?_label_unique a.labels_nodup hj' hpc']
  · rw [a.flat] at hnot
    exact absurd (List.mem_of_getElem? hpc') hnot

end Site

/-! ## §5 The simulation relation -/

/-- The place of the tree machine and the place of the machine with canonical code belong together. -/
inductive Related (m : Machine) : Config → Config → Prop where
  /-- The code of the expression comes next, and behind it what the context waits for. -/
  | eval {a : Site} {e : Expr} {k : ValueContext} {p n : Int} {pc : Nat} {temps temps' : Temps}
      {s s' : State} (hlo : a.lo ≤ p) (hp : p ≤ n) (he : a.Plain e)
      (hcode : CodeAt a.block pc (e.lower n).stmts)
      (hk : Waits k a p (e.lower n).next temps' (pc + (e.lower n).stmts.length) (e.lower n).value)
      (ht : a.Agree temps temps') (hs : s.Alike s') :
      Related m ⟨.eval e k, temps, s⟩ ⟨.exec a.block pc a.ret, temps', s'⟩
  /-- The value is that of the operand that the code at hand uses. -/
  | value {a : Site} {v : Word} {e : Expr} {k : ValueContext} {p n : Int} {pc : Nat}
      {temps temps' : Temps} {s s' : State} (hlo : a.lo ≤ p) (hp : p ≤ n) (he : e.IsOperand)
      (hv : operandValue m temps' s'.memory e = .ok v) (hk : Waits k a p n temps' pc e)
      (ht : a.Agree temps temps') (hs : s.Alike s') :
      Related m ⟨.value v k, temps, s⟩ ⟨.exec a.block pc a.ret, temps', s'⟩
  /-- The code of the rest of the block comes next. -/
  | exec {a : Site} {b : Block} {i : Nat} {k : BlockContext} {p n : Int} {pc : Nat}
      {temps temps' : Temps} {s s' : State}
      (hin : a.Inside (fun p n pc => EndsAt k a p n temps' pc) b i p n pc)
      (ht : a.Agree temps temps') (hs : s.Alike s') :
      Related m ⟨.exec b i k, temps, s⟩ ⟨.exec a.block pc a.ret, temps', s'⟩
  /-- Both machines are about to end. -/
  | done {v : Word} {temps temps' : Temps} {s s' : State} (hs : s.Alike s') :
      Related m ⟨.value v .done, temps, s⟩ ⟨.value v .done, temps', s'⟩

/-- The reads and unary operators that a value still has to pass. -/
def ValueContext.depth : ValueContext → Nat
  | .readMem k => k.depth + 1
  | .unApply _ k => k.depth + 1
  | _ => 0

/-- What the tree machine can do behind a block before the other machine has to move. -/
def BlockContext.rank : BlockContext → Nat
  | .value e k => 2 * e.weight + k.depth + 1
  | .ret .. => 0

/-- What the tree machine can do before the other machine has to move. -/
def Config.rank (c : Config) : Nat :=
  match c.control with
  | .eval e k => 2 * e.weight + k.depth
  | .value _ k => k.depth
  | .exec b i k =>
    (match b.stmts[i]? with
      | some st => 2 * st.weight
      | none => 0) + k.rank

theorem Config.rank_exec_some {b : Block} {i : Nat} {st : Stmt} (h : b.stmts[i]? = some st)
    (k : BlockContext) (temps : Temps) (s : State) :
    Config.rank ⟨.exec b i k, temps, s⟩ = 2 * st.weight + k.rank := by
  simp [Config.rank, h]

theorem Config.rank_exec_none {b : Block} {i : Nat} (h : b.stmts[i]? = none) (k : BlockContext)
    (temps : Temps) (s : State) : Config.rank ⟨.exec b i k, temps, s⟩ = k.rank := by
  simp [Config.rank, h]

/-- How the machine with canonical code answers a transition of the tree machine that started with
the given rank. -/
def Answered (m : Machine) (rank : Nat) (d : Config) : Transition → Prop
  | .stop ending s => ∃ s', Halts m d ending s' ∧ s.Alike s'
  | .next c => (∃ d', TransGen (Next m) d d' ∧ Related m c d') ∨ (c.rank < rank ∧ Related m c d)

end MmixBackend.Machine
