/-
# `YaojJudger.Kafel.Load` — `generate_load`: a word of an operand into the accumulator

An operand is computed one word at a time.  A word may be constant where the
operand is not (`x & 0xff` has no high word), which `cache_constants` finds out
first; where only one side is constant it goes into the instruction, and where
neither is, one side waits in the index register, on its way there in the
scratch memory if the other side needs more than one load.

The code generated is straight (`LoadCode`): from any state it leaves the word
in the accumulator, and the cells below `stack_ptr` as they were.
-/
import YaojJudger.Kafel.Emit

namespace Kafel

open Bpf

/-! ## The data of a call -/

/-- `ARG_WORD`. -/
def argWord (arg : Fin 6) : Word → Nat
  | .low => 16 + 8 * arg
  | .high => 16 + 8 * arg + 4

/-- The word of `struct seccomp_data` at an offset. -/
def SeccompData.word (data : SeccompData) (off : Nat) : UInt32 :=
  if off = 0 then data.nr
  else if off = 4 then data.arch
  else if off < 16 then (if off = 8 then Word.low else Word.high).of data.instructionPointer
  else
    (if off % 8 = 0 then Word.low else Word.high).of
      (data.args ⟨(off - 16) / 8 % 6, Nat.mod_lt _ (Nat.succ_pos 5)⟩)

/-! ## Constants by word -/

/-- `evaluate_expression`. -/
def evaluateExpression : BitOp → UInt32 → UInt32 → UInt32
  | .bitOr, left, right => left ||| right
  | .bitAnd, left, right => left &&& right

/-- `clobber`. -/
def BitOp.clobberWord : BitOp → UInt32
  | .bitOr => 0xffffffff
  | .bitAnd => 0

/-- `identity_element`. -/
def BitOp.identityElement : BitOp → UInt32
  | .bitOr => 0
  | .bitAnd => 0xffffffff

def BitOp.alu : BitOp → AluOp
  | .bitOr => .or
  | .bitAnd => .and

/-- The end of `cache_constants_by_word`: one side is `val`, the other not constant. -/
def cacheClobber (op : BitOp) (val : UInt32) : Option UInt32 :=
  if val = op.clobberWord then some op.clobberWord else none

/-- `cache_constants_by_word`. -/
def Operand.cached (w : Word) : Operand Arg → Option UInt32
  | .number n => some (w.of n)
  | .var _ => none
  | .bit op left right =>
    match left.cached w, right.cached w with
    | some m, some n => some (evaluateExpression op m n)
    | some m, none => cacheClobber op m
    | none, some n => cacheClobber op n
    | none, none => none

/-! ## The code -/

/-- `should_use_stack`. -/
def shouldUseStack : Operand Arg → Bool
  | .var _ => false
  | _ => true

/-- The instruction for a constant side, unless it changes nothing. -/
def addConstant (ctxt : CodegenCtxt) (op : BitOp) (val : UInt32) : CodegenCtxt :=
  if val ≠ op.identityElement then addInstruction ctxt (.alu op.alu (.k val)) else ctxt

/-- `generate_load`; the location is that of the newest instruction.  None if an assertion fails. -/
def generateLoad (w : Word) : CodegenCtxt → Operand Arg → Nat → Option CodegenCtxt
  | ctxt, .var v, _ => some (addInstruction ctxt (.ldAbs (argWord v.idx w)))
  | _, .number _, _ => none
  | ctxt, .bit op left right, stackPtr =>
    if ((Operand.bit op left right).cached w).isSome then none
    else
      match left.cached w, right.cached w with
      | some val, _ => generateLoad w (addConstant ctxt op val) right stackPtr
      | none, some val => generateLoad w (addConstant ctxt op val) left stackPtr
      | none, none =>
        let ctxt := addInstruction ctxt (.alu op.alu .x)
        if shouldUseStack left then do
          let ctxt := addInstruction ctxt (.ldxMem stackPtr)
          let ctxt ← generateLoad w ctxt left (stackPtr + 1)
          let ctxt := { ctxt with maxStackPtr := max ctxt.maxStackPtr stackPtr }
          let ctxt := addInstruction ctxt (.st stackPtr)
          generateLoad w ctxt right stackPtr
        else do
          let ctxt ← generateLoad w ctxt left stackPtr
          let ctxt := addInstruction ctxt .tax
          generateLoad w ctxt right stackPtr

/-- Its last case without the operation: one side in the accumulator, the other in the index
register.  `generate_cmp32` does the same on cell 0, where the pointer does not go up. -/
def generateBoth (w : Word) (ctxt : CodegenCtxt) (left right : Operand Arg) (stackPtr : Nat) :
    Option CodegenCtxt :=
  if shouldUseStack left then do
    let ctxt := addInstruction ctxt (.ldxMem stackPtr)
    let ctxt ← generateLoad w ctxt left (stackPtr + 1)
    let ctxt := { ctxt with maxStackPtr := max ctxt.maxStackPtr stackPtr }
    let ctxt := addInstruction ctxt (.st stackPtr)
    generateLoad w ctxt right stackPtr
  else do
    let ctxt ← generateLoad w ctxt left stackPtr
    let ctxt := addInstruction ctxt .tax
    generateLoad w ctxt right stackPtr

variable {data : SeccompData} {args : Fin 6 → UInt64} {w : Word} {o left right : Operand Arg}
  {op : BitOp} {sp : Nat} {c c' : CodegenCtxt} {p q q' : List Instr} {i : Instr} {s : St}

/-! ## Words -/

theorem word_argWord {arg : Fin 6} : data.word (argWord arg w) = w.of (data.args arg) := by
  have hlt := arg.isLt
  cases w with
  | low =>
      have h : argWord arg .low = 16 + 8 * arg := rfl
      rw [SeccompData.word, h, if_neg (by omega), if_neg (by omega), if_neg (by omega),
        if_pos (by omega)]
      congr 2
      apply Fin.ext
      show (16 + 8 * arg.val - 16) / 8 % 6 = arg.val
      omega
  | high =>
      have h : argWord arg .high = 16 + 8 * arg + 4 := rfl
      rw [SeccompData.word, h, if_neg (by omega), if_neg (by omega), if_neg (by omega),
        if_neg (by omega)]
      congr 2
      apply Fin.ext
      show (16 + 8 * arg.val + 4 - 16) / 8 % 6 = arg.val
      omega

/-- The value of an operand as the filter sees it: every argument is the whole register. -/
def Operand.full (args : Fin 6 → UInt64) (o : Operand Arg) : UInt64 :=
  o.value fun v => args v.idx

/-- A word of it. -/
def Operand.word (w : Word) (args : Fin 6 → UInt64) (o : Operand Arg) : UInt32 := w.of (o.full args)

theorem word_bit : (Operand.bit op left right).word w args =
    evaluateExpression op (left.word w args) (right.word w args) := by
  cases op with
  | bitOr => exact Word.of_or
  | bitAnd => exact Word.of_and

theorem evaluateExpression_comm {m n : UInt32} :
    evaluateExpression op m n = evaluateExpression op n m := by
  cases op with
  | bitOr => exact UInt32.or_comm m n
  | bitAnd => exact UInt32.and_comm m n

theorem evaluateExpression_clobber {m : UInt32} :
    evaluateExpression op m op.clobberWord = op.clobberWord := by
  cases op with
  | bitOr => exact UInt32.or_neg_one
  | bitAnd => exact UInt32.and_zero

theorem evaluateExpression_identity {m : UInt32} :
    evaluateExpression op m op.identityElement = m := by
  cases op with
  | bitOr => exact UInt32.or_zero
  | bitAnd => exact UInt32.and_neg_one

theorem alu_eval {m n : UInt32} : op.alu.eval m n = evaluateExpression op m n := by
  cases op with
  | bitOr | bitAnd => rfl

theorem cacheClobber_eq {val k : UInt32} (h : cacheClobber op val = some k) :
    val = op.clobberWord ∧ k = op.clobberWord := by
  unfold cacheClobber at h
  split at h
  case isTrue hv => exact ⟨hv, (Option.some.inj h).symm⟩
  case isFalse => cases h

/-- **A cached constant is the word.** -/
theorem word_of_cached {k : UInt32} (h : o.cached w = some k) : o.word w args = k := by
  induction o generalizing k with
  | number n => exact Option.some.inj h
  | var => cases h
  | bit op left right ihl ihr =>
      rw [word_bit]
      rw [Operand.cached] at h
      split at h
      next m n hm hn =>
          rw [ihl hm, ihr hn]
          exact Option.some.inj h
      next m hm _ =>
          obtain ⟨rfl, rfl⟩ := cacheClobber_eq h
          rw [ihl hm, evaluateExpression_comm, evaluateExpression_clobber]
      next n _ hn =>
          obtain ⟨rfl, rfl⟩ := cacheClobber_eq h
          rw [ihr hn, evaluateExpression_clobber]
      next => cases h

/-! ## Code that loads -/

/-- Neither side of the operand is constant. -/
def Operand.Open (w : Word) (left right : Operand Arg) : Prop :=
  left.cached w = none ∧ right.cached w = none

/-- Straight code that computes a word of `o`, the cells below `sp` not being its own. -/
structure LoadCode (data : SeccompData) (w : Word) (o : Operand Arg) (sp : Nat) (q : List Instr) :
    Prop where
  ne_nil : q ≠ []
  straight : q.all Instr.isStraight = true
  acc : ∀ s, (exec data.word q s).a = o.word w data.args
  index : ∀ s op left right, o = .bit op left right → Operand.Open w left right →
    (exec data.word q s).x = right.word w data.args
  keeps : ∀ s cell, cell < sp → (exec data.word q s).mem cell = s.mem cell

/-- The same with the two operands of an instruction. -/
structure BothCode (data : SeccompData) (w : Word) (left right : Operand Arg) (sp : Nat)
    (q : List Instr) : Prop where
  ne_nil : q ≠ []
  straight : q.all Instr.isStraight = true
  acc : ∀ s, (exec data.word q s).a = left.word w data.args
  index : ∀ s, (exec data.word q s).x = right.word w data.args
  keeps : ∀ s cell, cell < sp → (exec data.word q s).mem cell = s.mem cell

theorem all_append_iff : (p ++ q).all Instr.isStraight = true ↔
    p.all Instr.isStraight = true ∧ q.all Instr.isStraight = true := by
  rw [List.all_append, Bool.and_eq_true]

theorem loadCode_var {v : Arg} : LoadCode data w (.var v) sp [.ldAbs (argWord v.idx w)] where
  ne_nil := List.cons_ne_nil _ _
  straight := rfl
  acc := by
    intro s
    exact word_argWord
  index := by
    intro s op left right h
    cases h
  keeps := by
    intro s cell _
    rfl

/-- The right side waits in the cell `sp`. -/
theorem bothCode_stack (hl : LoadCode data w left (sp + 1) q) (hr : LoadCode data w right sp q') :
    BothCode data w left right sp (q' ++ .st sp :: (q ++ [.ldxMem sp])) := by
  -- the four parts, in the order they run in
  have hexec : ∀ s, exec data.word (q' ++ .st sp :: (q ++ [.ldxMem sp])) s =
      Instr.step data.word (exec data.word q
        (Instr.step data.word (exec data.word q' s) (.st sp))) (.ldxMem sp) := by
    intro s
    rw [exec_append, exec_cons, exec_append]
    rfl
  refine ⟨List.append_ne_nil_of_left_ne_nil hr.ne_nil _, ?_, ?_, ?_, ?_⟩
  · rw [all_append_iff, List.all_cons, Bool.and_eq_true, all_append_iff]
    exact ⟨hr.straight, rfl, hl.straight, rfl⟩
  · intro s
    rw [hexec]
    exact hl.acc _
  · intro s
    rw [hexec]
    show (exec data.word q _).mem sp = _
    rw [hl.keeps _ sp (Nat.lt_succ_self sp), ← hr.acc s]
    exact if_pos rfl
  · intro s cell hcell
    rw [hexec]
    show (exec data.word q _).mem cell = _
    rw [hl.keeps _ cell (Nat.lt_succ_of_lt hcell), ← hr.keeps s cell hcell]
    exact if_neg (Nat.ne_of_lt hcell)

/-- It goes to the index register, which the load of one argument leaves alone. -/
theorem bothCode_var {v : Arg} (hr : LoadCode data w right sp q') :
    BothCode data w (.var v) right sp (q' ++ .tax :: [.ldAbs (argWord v.idx w)]) := by
  have hexec : ∀ s, exec data.word (q' ++ .tax :: [.ldAbs (argWord v.idx w)]) s =
      Instr.step data.word (Instr.step data.word (exec data.word q' s) .tax)
        (.ldAbs (argWord v.idx w)) := by
    intro s
    rw [exec_append, exec_cons, exec_cons, exec_nil]
  refine ⟨List.append_ne_nil_of_left_ne_nil hr.ne_nil _, ?_, ?_, ?_, ?_⟩
  · rw [all_append_iff]
    exact ⟨hr.straight, rfl⟩
  · intro s
    rw [hexec]
    exact word_argWord
  · intro s
    rw [hexec]
    exact hr.acc s
  · intro s cell hcell
    rw [hexec]
    exact hr.keeps s cell hcell

/-- The operation on both. -/
theorem BothCode.alu (h : BothCode data w left right sp q) :
    LoadCode data w (.bit op left right) sp (q ++ [.alu op.alu .x]) := by
  have hexec : ∀ s, exec data.word (q ++ [.alu op.alu .x]) s =
      Instr.step data.word (exec data.word q s) (.alu op.alu .x) := by
    intro s
    rw [exec_append]
    rfl
  refine ⟨List.append_ne_nil_of_left_ne_nil h.ne_nil _, ?_, ?_, ?_, ?_⟩
  · rw [all_append_iff]
    exact ⟨h.straight, rfl⟩
  · intro s
    rw [hexec, word_bit, ← h.acc s, ← h.index s]
    exact alu_eval
  · intro s op' l r ho _
    cases ho
    rw [hexec]
    exact h.index s
  · intro s cell hcell
    rw [hexec]
    exact h.keeps s cell hcell

/-- The operation with a constant. -/
theorem LoadCode.constant {val : UInt32} {o' : Operand Arg} (h : LoadCode data w o sp q)
    (ho' : o'.word w data.args = evaluateExpression op (o.word w data.args) val)
    (hopen : ∀ op left right, o' = .bit op left right → ¬ Operand.Open w left right) :
    LoadCode data w o' sp
      (q ++ if val ≠ op.identityElement then [.alu op.alu (.k val)] else []) := by
  split
  case isTrue hval =>
      have hexec : ∀ s, exec data.word (q ++ [.alu op.alu (.k val)]) s =
          Instr.step data.word (exec data.word q s) (.alu op.alu (.k val)) := by
        intro s
        rw [exec_append]
        rfl
      refine ⟨List.append_ne_nil_of_left_ne_nil h.ne_nil _, ?_, ?_, ?_, ?_⟩
      · rw [all_append_iff]
        exact ⟨h.straight, rfl⟩
      · intro s
        rw [hexec, ho', ← h.acc s]
        exact alu_eval
      · intro s op left right ho hno
        exact absurd hno (hopen op left right ho)
      · intro s cell hcell
        rw [hexec]
        exact h.keeps s cell hcell
  case isFalse hval =>
      rw [List.append_nil]
      refine ⟨h.ne_nil, h.straight, ?_, ?_, h.keeps⟩
      · intro s
        rw [h.acc, ho', not_not.mp hval, evaluateExpression_identity]
      · intro s op left right ho hno
        exact absurd hno (hopen op left right ho)

/-! ## `generate_load` -/

/-- The code `q` has been emitted. -/
structure Emitted (c : CodegenCtxt) (q : List Instr) (c' : CodegenCtxt) : Prop where
  ready : c'.Ready
  grows : Grows c c'
  buffer : c'.buffer = q ++ c.buffer

theorem Emitted.trans {c'' : CodegenCtxt} (h : Emitted c q c') (h' : Emitted c' q' c'') :
    Emitted c (q' ++ q) c'' where
  ready := h'.ready
  grows := h.grows.trans h'.grows
  buffer := by rw [h'.buffer, h.buffer, List.append_assoc]

theorem ready_straight (h : c.Ready) (hne : c.buffer ≠ []) (hi : i.isStraight = true) :
    (addInstruction c i).Ready := by
  refine h.push (Instr.stays_of_straight hi (List.length_pos_of_ne_nil hne)) ?_
  cases i with
  | ja | jmp | ret => cases hi
  | ldAbs | ldImm | ldxMem | st | alu | tax => rfl

theorem emitted_push (h : c.Ready) (hne : c.buffer ≠ []) (hi : i.isStraight = true)
    (hs : ∀ m, c.maxStackPtr ≤ m → Sound m i) : Emitted c [i] (addInstruction c i) :=
  ⟨ready_straight h hne hi, grows_push hs, rfl⟩

theorem emitted_addConstant {val : UInt32} (h : c.Ready) (hne : c.buffer ≠ []) :
    Emitted c (if val ≠ op.identityElement then [.alu op.alu (.k val)] else [])
      (addConstant c op val) := by
  unfold addConstant
  split
  case isTrue => exact emitted_push h hne rfl fun _ _ => trivial
  case isFalse => exact ⟨h, .refl, rfl⟩

theorem Emitted.ne_nil (h : Emitted c q c') (hne : c.buffer ≠ []) : c'.buffer ≠ [] := by
  rw [h.buffer]
  exact List.append_ne_nil_of_right_ne_nil _ hne

/-- The stack pointer goes up after the cell was used. -/
theorem emitted_stack {c₁ c₂ : CodegenCtxt}
    (hl : Emitted (addInstruction c (.ldxMem sp)) q c₁)
    (hr : Emitted
      (addInstruction { c₁ with maxStackPtr := max c₁.maxStackPtr sp } (.st sp)) q' c₂) :
    Emitted c (q' ++ .st sp :: (q ++ [.ldxMem sp])) c₂ where
  ready := hr.ready
  grows := by
    have hsuf₁ : c.buffer <:+ c₁.buffer := (List.suffix_cons _ _).trans hl.grows.suffix
    have hsuf₂ : c₁.buffer <:+ c₂.buffer := (List.suffix_cons _ _).trans hr.grows.suffix
    have hmax : max c₁.maxStackPtr sp ≤ c₂.maxStackPtr := hr.grows.stack
    have hle : c.maxStackPtr ≤ c₁.maxStackPtr := hl.grows.stack
    refine ⟨hsuf₁.trans hsuf₂, by omega, ?_⟩
    intro m hm hc
    have hsp : sp ≤ m := by omega
    have h₁ := hl.grows.sound m (by omega) (List.forall_mem_cons.mpr ⟨hsp, hc⟩)
    exact hr.grows.sound m hm (List.forall_mem_cons.mpr ⟨hsp, h₁⟩)
  buffer := by
    rw [hr.buffer]
    show q' ++ .st sp :: c₁.buffer = _
    rw [hl.buffer]
    show q' ++ .st sp :: (q ++ .ldxMem sp :: c.buffer) = _
    rw [List.append_assoc, List.cons_append, List.append_assoc]
    rfl

/-- The load of `o` returns, and what it emits is code for it. -/
def Loads (w : Word) (o : Operand Arg) : Prop :=
  ∀ c sp, c.Ready → c.buffer ≠ [] →
    ∃ c' q, generateLoad w c o sp = some c' ∧ Emitted c q c' ∧ ∀ data, LoadCode data w o sp q

theorem argWord_sound {v : Arg} {m : Nat} : Sound m (.ldAbs (argWord v.idx w)) := by
  have hlt := v.idx.isLt
  cases w with
  | low =>
      show (16 + 8 * v.idx.val) % 4 = 0 ∧ 16 + 8 * v.idx.val < 64
      omega
  | high =>
      show (16 + 8 * v.idx.val + 4) % 4 = 0 ∧ 16 + 8 * v.idx.val + 4 < 64
      omega

theorem emitted_var {v : Arg} (h : c.Ready) (hne : c.buffer ≠ []) :
    Emitted c [.ldAbs (argWord v.idx w)] (addInstruction c (.ldAbs (argWord v.idx w))) :=
  emitted_push h hne rfl fun _ _ => argWord_sound

theorem loads_var {v : Arg} : Loads w (.var v) := by
  intro c sp h hne
  exact ⟨_, _, rfl, emitted_var h hne, fun data => loadCode_var⟩

theorem generateBoth_of (hl : Loads w left) (hr : Loads w right) (h : c.Ready)
    (hne : c.buffer ≠ []) :
    ∃ c' q, generateBoth w c left right sp = some c' ∧ Emitted c q c' ∧
      ∀ data, BothCode data w left right sp q := by
  unfold generateBoth
  cases hstack : shouldUseStack left with
  | true =>
      obtain ⟨c₁, q, e₁, h₁, code₁⟩ := hl (addInstruction c (.ldxMem sp)) (sp + 1)
        (ready_straight h hne rfl) (List.cons_ne_nil _ _)
      have hok : ({ c₁ with maxStackPtr := max c₁.maxStackPtr sp } : CodegenCtxt).Ok :=
        ⟨h₁.ready.closed, h₁.ready.basic, h₁.ready.cached, h₁.ready.nodup⟩
      have hready := ready_straight (i := .st sp) ⟨hok, h₁.ready.leading⟩
        (h₁.ne_nil (List.cons_ne_nil _ _)) rfl
      obtain ⟨c₂, q', e₂, h₂, code₂⟩ := hr _ sp hready (List.cons_ne_nil _ _)
      refine ⟨c₂, _, ?_, emitted_stack h₁ h₂, fun data => bothCode_stack (code₁ data) (code₂ data)⟩
      rw [if_pos rfl]
      simp only [e₁, Option.bind_eq_bind, Option.bind_some, e₂]
  | false =>
      obtain ⟨v, rfl⟩ : ∃ v, left = .var v := by
        cases left with
        | var v => exact ⟨v, rfl⟩
        | number | bit => cases hstack
      have h₁ := @emitted_var w c v h hne
      have h₂ := emitted_push (i := .tax) h₁.ready (h₁.ne_nil hne) rfl fun _ _ => trivial
      obtain ⟨c₃, q', e₃, h₃, code₃⟩ := hr _ sp h₂.ready (List.cons_ne_nil _ _)
      refine ⟨c₃, _, ?_, ?_, fun data => bothCode_var (code₃ data)⟩
      · rw [if_neg (by exact Bool.false_ne_true)]
        simp only [generateLoad, Option.bind_eq_bind, Option.bind_some, e₃]
      · exact (h₁.trans h₂).trans h₃

theorem generateLoad_open (ho : (Operand.bit op left right).cached w = none)
    (h : Operand.Open w left right) :
    generateLoad w c (.bit op left right) sp =
      generateBoth w (addInstruction c (.alu op.alu .x)) left right sp := by
  rw [generateLoad, ho, h.1, h.2]
  rfl

/-- One side is constant, and goes into the instruction. -/
theorem loads_constant (op : BitOp) (val : UInt32) {o' : Operand Arg} (ho : Loads w o)
    (heq : ∀ c sp, generateLoad w c o' sp = generateLoad w (addConstant c op val) o sp)
    (ho' : ∀ args, o'.word w args = evaluateExpression op (o.word w args) val)
    (hopen : ∀ op left right, o' = .bit op left right → ¬ Operand.Open w left right) :
    Loads w o' := by
  intro c sp h hne
  have he := @emitted_addConstant op c val h hne
  obtain ⟨c', q, e, hq, code⟩ := ho _ sp he.ready (he.ne_nil hne)
  rw [heq]
  exact ⟨c', _, e, he.trans hq, fun data => (code data).constant (ho' data.args) hopen⟩

/-- **`generate_load`** returns if the word is not constant, and loads it. -/
theorem generateLoad_spec (ho : o.cached w = none) : Loads w o := by
  induction o with
  | number => cases ho
  | var => exact loads_var
  | bit op left right ihl ihr =>
      have hrec := ho
      rw [Operand.cached] at hrec
      cases hl : left.cached w with
      | some val =>
          have hr : right.cached w = none := by
            cases hr : right.cached w with
            | none => rfl
            | some n =>
                rw [hl, hr] at hrec
                cases hrec
          refine loads_constant op val (ihr hr) ?_ ?_ ?_
          · intro c sp
            rw [generateLoad, ho, hl]
            rfl
          · intro args
            rw [word_bit, word_of_cached hl, evaluateExpression_comm]
          · intro op l r heq hopen
            cases heq
            rw [hopen.1] at hl
            cases hl
      | none =>
          cases hr : right.cached w with
          | some val =>
              refine loads_constant op val (ihl hl) ?_ ?_ ?_
              · intro c sp
                rw [generateLoad, ho, hl, hr]
                rfl
              · intro args
                rw [word_bit, word_of_cached hr]
              · intro op l r heq hopen
                cases heq
                rw [hopen.2] at hr
                cases hr
          | none =>
              intro c sp h hne
              have he := emitted_push (i := .alu op.alu .x) h hne rfl fun _ _ => trivial
              obtain ⟨c', q, e, hq, code⟩ :=
                @generateBoth_of _ _ _ sp _ (ihl hl) (ihr hr) he.ready (he.ne_nil hne)
              rw [generateLoad_open ho ⟨hl, hr⟩]
              exact ⟨c', _, e, he.trans hq, fun data => (code data).alu⟩

theorem generateBoth_spec (hl : left.cached w = none) (hr : right.cached w = none) (h : c.Ready)
    (hne : c.buffer ≠ []) :
    ∃ c' q, generateBoth w c left right sp = some c' ∧ Emitted c q c' ∧
      ∀ data, BothCode data w left right sp q :=
  generateBoth_of (generateLoad_spec hl) (generateLoad_spec hr) h hne

end Kafel
