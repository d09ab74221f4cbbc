/-
# `YaojJudger.Kafel.Cmp` — `generate_cmp32`: a comparison of one word

It is a jump behind a load.  Before it is emitted the sides are swapped so that
only the right one may be constant, and `(a & b) == 0` becomes one `JSET` (`Test`).

A comparison of 64 bits is three jumps,

    high >   to the target
    high ≥   to the low word, with what the first has loaded
    low

and the second relies on the registers the first leaves (`shared_load`): its own
form may be another, for `JSET` needs the operands of the `&` and not its value.
-/
import YaojJudger.Kafel.Load

namespace Kafel

open Bpf

/-! ## One word -/

/-- What `generate_cmp32` goes by. -/
structure Test where
  op : JmpOp
  left : Operand Arg
  right : Operand Arg
  tloc : Loc
  floc : Loc

/-- The left side is constant: the two are swapped, and the targets with them. -/
def swapSides (op : JmpOp) (left right : Operand Arg) (tloc floc : Loc) : Test :=
  match op with
  | .jgt => ⟨.jge, right, left, floc, tloc⟩
  | .jge => ⟨.jgt, right, left, floc, tloc⟩
  | op => ⟨op, right, left, tloc, floc⟩

/-- The two sides, so that only the right one may be constant. -/
def bitSides (w : Word) (left right : Operand Arg) : Operand Arg × Operand Arg :=
  if (left.cached w).isSome then (right, left) else (left, right)

/-- `a & b` against 0: the sides are those of the `&`. -/
def Test.bits (w : Word) (test : Test) (left right : Operand Arg) : Test :=
  let sides := bitSides w left right
  if test.op = .jeq then ⟨.jset, sides.1, sides.2, test.floc, test.tloc⟩
  else ⟨.jset, sides.1, sides.2, test.tloc, test.floc⟩

def Test.rewrite (w : Word) (test : Test) : Test :=
  match test.left with
  | .bit .bitAnd left right =>
    if (test.op = .jeq ∨ test.op = .jgt) ∧ test.right.cached w = some 0 then
      test.bits w left right
    else test
  | _ => test

/-- The jump. -/
def emitJump (w : Word) (ctxt : CodegenCtxt) (test : Test) : Option (Loc × CodegenCtxt) :=
  match test.right.cached w with
  | some val => addJumpK ctxt test.op val test.tloc test.floc
  | none => addJumpX ctxt test.op test.tloc test.floc

/-- The load. -/
def emitLoad (w : Word) (ctxt : CodegenCtxt) (test : Test) : Option CodegenCtxt :=
  match test.right.cached w with
  | some _ => generateLoad w ctxt test.left 0
  | none => generateBoth w ctxt test.left test.right 0

inductive LoadMode where
  | never
  | normal
  | always
  deriving DecidableEq, Repr

/-- The second half of `generate_cmp32`. -/
def emitTest (w : Word) (ctxt : CodegenCtxt) (test : Test) (load : LoadMode) :
    Option (Loc × CodegenCtxt) :=
  if (test.left.cached w).isSome then none
  else do
    let (next, ctxt') ← emitJump w ctxt test
    if load = .always ∨ load ≠ .never ∧ next.isAfter ctxt.buffer.length then do
      let ctxt' ← emitLoad w ctxt' test
      some (.code (ctxt'.buffer.length - 1), ctxt')
    else some (next, ctxt')

/-- The first half, where not both sides are constant. -/
def prepare (w : Word) (op : JmpOp) (left right : Operand Arg) (tloc floc : Loc) : Test :=
  if (left.cached w).isSome then (swapSides op left right tloc floc).rewrite w
  else Test.rewrite w ⟨op, left, right, tloc, floc⟩

/-- `generate_cmp32`; `evaluate_jump` is what the jump does. -/
def generateCmp32 (w : Word) (ctxt : CodegenCtxt) (op : JmpOp) (left right : Operand Arg)
    (tloc floc : Loc) (load : LoadMode) : Option (Loc × CodegenCtxt) :=
  match left.cached w, right.cached w with
  | some m, some n => some (if op.eval m n then tloc else floc, ctxt)
  | _, _ => emitTest w ctxt (prepare w op left right tloc floc) load

variable {data : SeccompData} {args : Fin 6 → UInt64} {w : Word} {left right : Operand Arg}
  {op : JmpOp} {c c' c'' : CodegenCtxt} {p q : List Instr} {s : St} {test : Test}
  {tloc floc l l' : Loc} {action : Action}

/-! ## What a test decides -/

/-- The test on the words of a call. -/
def Test.outcome (w : Word) (test : Test) (args : Fin 6 → UInt64) : Bool :=
  test.op.eval (test.left.word w args) (test.right.word w args)

def Test.pick (w : Word) (test : Test) (args : Fin 6 → UInt64) : Loc :=
  if test.outcome w args then test.tloc else test.floc

/-- The jump, on the registers. -/
def Test.decides (w : Word) (test : Test) (s : St) : Bool :=
  match test.right.cached w with
  | some val => test.op.eval s.a val
  | none => test.op.eval s.a s.x

/-- The registers are as the load leaves them. -/
structure Test.Loaded (w : Word) (test : Test) (args : Fin 6 → UInt64) (s : St) : Prop where
  acc : s.a = test.left.word w args
  index : test.right.cached w = none → s.x = test.right.word w args

theorem Test.Loaded.decides (h : test.Loaded w args s) :
    test.decides w s = test.outcome w args := by
  unfold Test.decides Test.outcome
  split
  next val hval => rw [h.acc, word_of_cached hval]
  next hval => rw [h.acc, h.index hval]

/-- A test that comes to the same, with targets no others. -/
structure Test.Same (w : Word) (test test' : Test) : Prop where
  pick : ∀ args, test'.pick w args = test.pick w args
  targets : test'.tloc = test.tloc ∧ test'.floc = test.floc ∨
    test'.tloc = test.floc ∧ test'.floc = test.tloc

theorem Test.Same.refl : test.Same w test := ⟨fun _ => rfl, .inl ⟨rfl, rfl⟩⟩

theorem Test.Same.trans {test' test'' : Test} (h : test.Same w test') (h' : test'.Same w test'') :
    test.Same w test'' where
  pick := by
    intro args
    rw [h'.pick, h.pick]
  targets := by
    rcases h.targets with ⟨h₁, h₂⟩ | ⟨h₁, h₂⟩
    · exact h₁ ▸ h₂ ▸ h'.targets
    · exact (h₁ ▸ h₂ ▸ h'.targets).symm

theorem pick_not {b b' : Bool} (h : b' = !b) :
    (if b' then floc else tloc) = if b then tloc else floc := by
  cases b with
  | true | false =>
      rw [h]
      rfl

theorem jge_eq_not_jgt {m n : UInt32} : JmpOp.jge.eval m n = !JmpOp.jgt.eval n m := by
  show decide (n ≤ m) = !decide (m < n)
  rw [← decide_not]
  exact decide_eq_decide.mpr UInt32.not_lt.symm

theorem same_swapSides : Test.Same w ⟨op, left, right, tloc, floc⟩
    (swapSides op left right tloc floc) := by
  cases op with
  | jeq =>
      refine ⟨?_, .inl ⟨rfl, rfl⟩⟩
      intro args
      show (if right.word w args == left.word w args then tloc else floc) = _
      rw [BEq.comm]
      rfl
  | jset =>
      refine ⟨?_, .inl ⟨rfl, rfl⟩⟩
      intro args
      show (if right.word w args &&& left.word w args != 0 then tloc else floc) = _
      rw [UInt32.and_comm]
      rfl
  | jgt =>
      refine ⟨?_, .inr ⟨rfl, rfl⟩⟩
      intro args
      exact pick_not jge_eq_not_jgt
  | jge =>
      refine ⟨?_, .inr ⟨rfl, rfl⟩⟩
      intro args
      refine pick_not ?_
      show JmpOp.jgt.eval _ _ = !JmpOp.jge.eval _ _
      rw [jge_eq_not_jgt, Bool.not_not]
      rfl

theorem bitSides_and {l r : Operand Arg} :
    (bitSides w l r).1.word w args &&& (bitSides w l r).2.word w args =
      l.word w args &&& r.word w args := by
  unfold bitSides
  split
  case isTrue => exact UInt32.and_comm _ _
  case isFalse => rfl

/-- The `&` of two words is 0, or it is not. -/
theorem same_bits {l r : Operand Arg} (hop : test.op = .jeq ∨ test.op = .jgt)
    (hl : test.left = .bit .bitAnd l r) (hr : test.right.cached w = some 0) :
    test.Same w (test.bits w l r) := by
  have hword : ∀ args, test.left.word w args =
      (bitSides w l r).1.word w args &&& (bitSides w l r).2.word w args := by
    intro args
    rw [hl, word_bit, bitSides_and]
    rfl
  rcases hop with hop | hop
  · rw [Test.bits, if_pos hop]
    refine ⟨?_, .inr ⟨rfl, rfl⟩⟩
    intro args
    refine pick_not ?_
    rw [Test.outcome, Test.outcome, hop, word_of_cached hr, hword]
    rfl
  · rw [Test.bits, if_neg (by rw [hop]; exact JmpOp.noConfusion)]
    refine ⟨?_, .inl ⟨rfl, rfl⟩⟩
    intro args
    refine if_congr ?_ rfl rfl
    rw [Test.outcome, Test.outcome, hop, word_of_cached hr, hword]
    show (_ != 0) = true ↔ decide (0 < _) = true
    rw [bne_iff_ne, decide_eq_true_iff]
    exact UInt32.pos_iff_ne_zero.symm

/-- **Rewriting a test to `JSET` changes nothing.** -/
theorem same_rewrite : test.Same w (test.rewrite w) := by
  unfold Test.rewrite
  split
  next l r hl =>
      split
      case isTrue h => exact same_bits h.1 hl h.2
      case isFalse => exact .refl
  next => exact .refl

/-! ## What is emitted for a test -/

/-- Whatever the registers, going on at `l` comes to `action`. -/
abbrev Reaches (data : SeccompData) (c : CodegenCtxt) (l : Loc) (action : Action) : Prop :=
  l.Leads actionToBpf data.word c.buffer (fun _ => True) action

/-- `l` goes on where `pick` says, at one of the targets; it is one of them, or code
emitted since. -/
structure Decided (c : CodegenCtxt) (targets : List Loc) (pick : (Fin 6 → UInt64) → Loc) (l : Loc)
    (c' : CodegenCtxt) : Prop where
  ready : c'.Ready
  grows : Grows c c'
  valid : l.Valid c'.buffer
  origin : l ∈ targets ∨ l.isAfter c.buffer.length = true
  follows : ∀ data action, Reaches data c (pick data.args) action → Reaches data c' l action

variable {targets targets' : List Loc} {pick pick' : (Fin 6 → UInt64) → Loc}

theorem Decided.congr (h : Decided c targets pick l c') (hp : ∀ args, pick args = pick' args)
    (ht : targets ⊆ targets') : Decided c targets' pick' l c' where
  ready := h.ready
  grows := h.grows
  valid := h.valid
  origin := h.origin.imp (fun hl => ht hl) id
  follows := by
    intro data action hr
    exact h.follows data action (hp data.args ▸ hr)

theorem Decided.refl (h : c.Ready) (hl : l.Valid c.buffer) (ho : l ∈ targets)
    (hp : ∀ args, pick args = l) : Decided c targets pick l c where
  ready := h
  grows := .refl
  valid := hl
  origin := .inl ho
  follows := by
    intro data action hr
    exact hp data.args ▸ hr

/-- One after the other, `l` being a target of the second. -/
theorem Decided.trans {pick'' : (Fin 6 → UInt64) → Loc} (h : Decided c targets pick l c')
    (h' : Decided c' (l :: targets) pick' l' c'') (hv : ∀ x ∈ targets, x.Valid c.buffer)
    (hp : ∀ args, pick' args = l ∧ pick'' args = pick args ∨
      pick' args = pick'' args ∧ pick'' args ∈ targets) : Decided c targets pick'' l' c'' where
  ready := h'.ready
  grows := h.grows.trans h'.grows
  valid := h'.valid
  origin := by
    have hafter : ∀ x : Loc, x.isAfter c'.buffer.length = true →
        x.isAfter c.buffer.length = true := by
      intro x hx
      cases x with
      | exit => cases hx
      | code n =>
          exact decide_eq_true (Nat.le_trans h.grows.suffix.length_le (of_decide_eq_true hx))
    rcases h'.origin with hl | hl
    · rcases List.mem_cons.mp hl with rfl | hl
      · exact h.origin
      · exact .inl hl
    · exact .inr (hafter l' hl)
  follows := by
    intro data action hr
    apply h'.follows
    rcases hp data.args with ⟨h₁, h₂⟩ | ⟨h₁, h₂⟩
    · rw [h₁]
      exact h.follows data action (h₂ ▸ hr)
    · rw [h₁]
      exact hr.suffix h.grows.suffix (hv _ h₂)

theorem emitJump_spec (h : c.Ready) (ht : test.tloc.Valid c.buffer)
    (hf : test.floc.Valid c.buffer) :
    ∃ l c', emitJump w c test = some (l, c') ∧
      Branch c (test.decides w) test.tloc test.floc l c' := by
  unfold emitJump Test.decides
  split
  next val hval => exact addJumpK_spec h ht hf
  next hval => exact addJumpX_spec h ht hf

/-- What the load of a test leaves in the registers: also, where the left side is an
operation with no constant side, the right one of its operands. -/
structure Test.Ready (w : Word) (test : Test) (args : Fin 6 → UInt64) (s : St) : Prop
    extends test.Loaded w args s where
  inner : ∀ val op l r, test.right.cached w = some val → test.left = .bit op l r →
    Operand.Open w l r → s.x = r.word w args

theorem emitLoad_spec (h : c.Ready) (hne : c.buffer ≠ []) (hl : test.left.cached w = none) :
    ∃ c' q, emitLoad w c test = some c' ∧ Emitted c q c' ∧ q ≠ [] ∧
      q.all Instr.isStraight = true ∧
      ∀ (data : SeccompData) s, test.Ready w data.args (exec data.word q s) := by
  unfold emitLoad
  cases hr : test.right.cached w with
  | some val =>
      obtain ⟨c', q, e, hq, code⟩ := generateLoad_spec hl c 0 h hne
      have hdata : SeccompData := ⟨0, 0, 0, fun _ => 0⟩
      refine ⟨c', q, e, hq, (code hdata).ne_nil, (code hdata).straight, ?_⟩
      intro data s
      refine ⟨⟨(code data).acc s, ?_⟩, ?_⟩
      · intro hno
        rw [hr] at hno
        cases hno
      · intro _ op l r _ hleft hopen
        exact (code data).index s op l r hleft hopen
  | none =>
      obtain ⟨c', q, e, hq, code⟩ := @generateBoth_spec w _ _ 0 _ hl hr h hne
      have hdata : SeccompData := ⟨0, 0, 0, fun _ => 0⟩
      refine ⟨c', q, e, hq, (code hdata).ne_nil, (code hdata).straight, ?_⟩
      intro data s
      refine ⟨⟨(code data).acc s, fun _ => (code data).index s⟩, ?_⟩
      intro val op l r hval
      rw [hr] at hval
      cases hval

/-- The newest instruction of straight code runs on into what was there. -/
theorem run_front {d : Nat → UInt32} (hq : Emitted c q c')
    (hs : q.all Instr.isStraight = true) :
    (Bpf.Loc.code (c'.buffer.length - 1) : Loc).run actionToBpf d c'.buffer s =
      (Bpf.Loc.code (c.buffer.length - 1) : Loc).run actionToBpf d c.buffer (exec d q s) := by
  have hfront : ∀ (p : List Instr) s, runAt d p (p.length - 1) s = run d p 0 s := by
    intro p s
    rw [runAt, ahead, Nat.sub_self]
  show runAt d c'.buffer (c'.buffer.length - 1) s = runAt d c.buffer (c.buffer.length - 1) _
  rw [hfront, hfront, hq.buffer, run_straight hs]

theorem Emitted.head_lt (hq : Emitted c q c') (hne : q ≠ []) :
    c.buffer.length < c'.buffer.length := by
  rw [hq.buffer, List.length_append]
  have := List.length_pos_of_ne_nil hne
  omega

/-- A state as the load leaves it. -/
def Test.loadedSt (w : Word) (test : Test) (args : Fin 6 → UInt64) : St :=
  ⟨test.left.word w args, test.right.word w args, fun _ => 0⟩

theorem Test.loaded_loadedSt : test.Loaded w args (test.loadedSt w args) := ⟨rfl, fun _ => rfl⟩

theorem emitTest_eq {load : LoadMode} {next : Loc} (hl : test.left.cached w = none)
    (he : emitJump w c test = some (next, c')) :
    emitTest w c test load =
      if load = .always ∨ load ≠ .never ∧ next.isAfter c.buffer.length then
        (emitLoad w c' test).bind fun c'' => some (.code (c''.buffer.length - 1), c'')
      else some (next, c') := by
  rw [emitTest, hl, if_neg (by exact Bool.false_ne_true)]
  simp only [he, Option.bind_eq_bind, Option.bind_some]

theorem not_isAfter (h : l.Valid p) : l.isAfter p.length = false := by
  cases l with
  | exit => rfl
  | code n => exact decide_eq_false (Nat.not_le.mpr h)

/-- **A test by itself**: a load in front of the jump, if there is a jump. -/
theorem emitTest_normal (h : c.Ready) (hl : test.left.cached w = none)
    (ht : test.tloc.Valid c.buffer) (hf : test.floc.Valid c.buffer) :
    ∃ l c', emitTest w c test .normal = some (l, c') ∧
      Decided c [test.tloc, test.floc] (test.pick w) l c' := by
  obtain ⟨next, c₁, e₁, hb⟩ := @emitJump_spec w _ _ h ht hf
  have hpick : ∀ args s, test.Loaded w args s →
      (if test.decides w s then test.tloc else test.floc) = test.pick w args := by
    intro args s hs
    rw [hs.decides]
    rfl
  rw [emitTest_eq hl e₁]
  rcases hb.shape with ⟨rfl, hnext⟩ | ⟨n, rfl, hn, hlen⟩
  · have hvalid := hb.valid ht hf
    rw [if_neg (by rw [not_isAfter hvalid]; rintro (h | ⟨_, h⟩) <;> cases h)]
    refine ⟨_, _, rfl, .refl h hvalid ?_ ?_⟩
    · rw [hnext .init]
      split
      case isTrue => exact List.mem_cons_self
      case isFalse => exact List.mem_cons_of_mem _ List.mem_cons_self
    · intro args
      rw [hnext (test.loadedSt w args), hpick args _ Test.loaded_loadedSt]
  · have hne : c₁.buffer ≠ [] := List.ne_nil_of_length_pos (by omega)
    obtain ⟨c', q, e', hq, hqne, hstraight, hready⟩ := emitLoad_spec hb.ready hne hl
    have hlt := hq.head_lt hqne
    rw [if_pos (.inr ⟨LoadMode.noConfusion, decide_eq_true hn⟩), e', Option.bind_some]
    refine ⟨_, _, rfl, hq.ready, hb.grows.trans hq.grows, ?_, ?_, ?_⟩
    · show c'.buffer.length - 1 < c'.buffer.length
      omega
    · refine .inr (decide_eq_true ?_)
      omega
    · intro data action hr s _
      have hn' : c₁.buffer.length - 1 = n := by omega
      rw [run_front hq hstraight, hn', hb.run, hpick _ _ (hready data s).toLoaded]
      exact hr _ trivial

/-! ## `generate_cmp32` -/

theorem prepare_swapped (h : (left.cached w).isSome = true) :
    prepare w op left right tloc floc = (swapSides op left right tloc floc).rewrite w := if_pos h

theorem prepare_plain (h : ¬ (left.cached w).isSome = true) :
    prepare w op left right tloc floc = Test.rewrite w ⟨op, left, right, tloc, floc⟩ := if_neg h

theorem same_prepare :
    Test.Same w ⟨op, left, right, tloc, floc⟩ (prepare w op left right tloc floc) := by
  unfold prepare
  split
  case isTrue => exact same_swapSides.trans same_rewrite
  case isFalse => exact same_rewrite

theorem left_bitSides {l r : Operand Arg} (h : (Operand.bit .bitAnd l r).cached w = none) :
    (bitSides w l r).1.cached w = none := by
  unfold bitSides
  rw [Operand.cached] at h
  cases hl : l.cached w with
  | none => exact hl
  | some m =>
      cases hr : r.cached w with
      | none => exact hr
      | some n =>
          rw [hl, hr] at h
          cases h

theorem left_rewrite (h : test.left.cached w = none) : (test.rewrite w).left.cached w = none := by
  unfold Test.rewrite
  split
  next l r hl =>
      split
      case isTrue =>
          rw [hl] at h
          rw [Test.bits]
          split
          case isTrue => exact left_bitSides h
          case isFalse => exact left_bitSides h
      case isFalse => exact h
  next => exact h

/-- Not both sides are constant. -/
def Varies (w : Word) (left right : Operand Arg) : Prop :=
  ¬ ((left.cached w).isSome = true ∧ (right.cached w).isSome = true)

theorem left_prepare (op : JmpOp) (tloc floc : Loc) (h : Varies w left right) :
    (prepare w op left right tloc floc).left.cached w = none := by
  unfold prepare
  split
  case isTrue hl =>
      have hr : right.cached w = none := Option.not_isSome_iff_eq_none.mp fun hr => h ⟨hl, hr⟩
      refine left_rewrite ?_
      cases op with
      | jeq | jgt | jge | jset => exact hr
  case isFalse hl => exact left_rewrite (Option.not_isSome_iff_eq_none.mp hl)

theorem generateCmp32_varies {load : LoadMode} (h : Varies w left right) :
    generateCmp32 w c op left right tloc floc load =
      emitTest w c (prepare w op left right tloc floc) load := by
  unfold generateCmp32
  split
  next m n hm hn => exact absurd ⟨by rw [hm]; rfl, by rw [hn]; rfl⟩ h
  next => rfl

/-- Where a comparison of one word goes on. -/
def cmpPick (w : Word) (op : JmpOp) (left right : Operand Arg) (tloc floc : Loc)
    (args : Fin 6 → UInt64) : Loc :=
  if op.eval (left.word w args) (right.word w args) then tloc else floc

theorem generateCmp32_const {load : LoadMode} (h : ¬ Varies w left right) :
    ∃ l, generateCmp32 w c op left right tloc floc load = some (l, c) ∧
      (l = tloc ∨ l = floc) ∧ ∀ args, cmpPick w op left right tloc floc args = l := by
  obtain ⟨hl, hr⟩ := not_not.mp h
  obtain ⟨m, hm⟩ := Option.isSome_iff_exists.mp hl
  obtain ⟨n, hn⟩ := Option.isSome_iff_exists.mp hr
  refine ⟨if op.eval m n then tloc else floc, ?_, ite_eq_or_eq _ _ _, ?_⟩
  · rw [generateCmp32, hm, hn]
  · intro args
    rw [cmpPick, word_of_cached hm, word_of_cached hn]

theorem pick_prepare : (prepare w op left right tloc floc).pick w args =
    cmpPick w op left right tloc floc args := same_prepare.pick args

theorem targets_prepare {P : Loc → Prop} (ht : P tloc) (hf : P floc) :
    P (prepare w op left right tloc floc).tloc ∧ P (prepare w op left right tloc floc).floc := by
  rcases (@same_prepare w left right op tloc floc).targets with ⟨h₁, h₂⟩ | ⟨h₁, h₂⟩
  · exact ⟨h₁ ▸ ht, h₂ ▸ hf⟩
  · exact ⟨h₁ ▸ hf, h₂ ▸ ht⟩

theorem emitTest_prepare (h : c.Ready) (hv : Varies w left right) (ht : tloc.Valid c.buffer)
    (hf : floc.Valid c.buffer) :
    ∃ l c', emitTest w c (prepare w op left right tloc floc) .normal = some (l, c') ∧
      Decided c [tloc, floc] (cmpPick w op left right tloc floc) l c' := by
  obtain ⟨ht', hf'⟩ := @targets_prepare w left right op tloc floc (·.Valid c.buffer) ht hf
  obtain ⟨l, c', e, hd⟩ := emitTest_normal h (left_prepare _ _ _ hv) ht' hf'
  refine ⟨l, c', e, hd.congr (fun args => pick_prepare) ?_⟩
  intro x hx
  rcases (@same_prepare w left right op tloc floc).targets with ⟨h₁, h₂⟩ | ⟨h₁, h₂⟩
  · rwa [h₁, h₂] at hx
  · rw [h₁, h₂] at hx
    exact (List.Perm.swap tloc floc []).mem_iff.mp hx

/-- **`generate_cmp32`** with its own load. -/
theorem generateCmp32_normal (h : c.Ready) (ht : tloc.Valid c.buffer) (hf : floc.Valid c.buffer) :
    ∃ l c', generateCmp32 w c op left right tloc floc .normal = some (l, c') ∧
      Decided c [tloc, floc] (cmpPick w op left right tloc floc) l c' := by
  by_cases hv : Varies w left right
  · rw [generateCmp32_varies hv]
    exact emitTest_prepare h hv ht hf
  · obtain ⟨l, e, hl, hp⟩ := @generateCmp32_const w left right op c tloc floc .normal hv
    rcases hl with rfl | rfl
    · exact ⟨_, c, e, .refl h ht List.mem_cons_self hp⟩
    · exact ⟨_, c, e, .refl h hf (List.mem_cons_of_mem _ List.mem_cons_self) hp⟩

/-! ## Two jumps behind one load -/

theorem rewrite_of_op (h : test.op = .jge ∨ test.op = .jset) : test.rewrite w = test := by
  unfold Test.rewrite
  split
  next =>
      refine if_neg ?_
      rintro ⟨h₁ | h₁, _⟩ <;> rw [h₁] at h <;> rcases h with h | h <;> cases h
  next => rfl

/-- A test is as it was, or is that of an `&` against 0. -/
theorem rewrite_cases : test.rewrite w = test ∨
    (test.op = .jeq ∨ test.op = .jgt) ∧ test.right.cached w = some 0 ∧
      ∃ l r, test.left = .bit .bitAnd l r ∧ test.rewrite w = test.bits w l r := by
  unfold Test.rewrite
  split
  next l r hl =>
      split
      case isTrue h => exact .inr ⟨h.1, h.2, l, r, hl, rfl⟩
      case isFalse => exact .inl rfl
  next => exact .inl rfl

theorem and_and_self {m n : UInt32} : m &&& n &&& n = m &&& n := by
  rw [UInt32.and_assoc, UInt32.and_self]

/-- `JSET` on the operands of an `&`, with the value of the `&` in the accumulator. -/
theorem decides_bits {l r : Operand Arg} (hop : test.op = .jgt) (hl : test.left = .bit .bitAnd l r)
    (ha : s.a = test.left.word w args) (hx : Operand.Open w l r → s.x = r.word w args) :
    (test.bits w l r).decides w s = (test.bits w l r).outcome w args := by
  have hword : s.a = (bitSides w l r).1.word w args &&& (bitSides w l r).2.word w args := by
    rw [ha, hl, word_bit, bitSides_and]
    rfl
  rw [Test.bits, if_neg (by rw [hop]; exact JmpOp.noConfusion)]
  unfold Test.decides Test.outcome
  dsimp only
  split
  next val hval =>
      show (s.a &&& val != 0) = _
      rw [hword, ← word_of_cached hval, and_and_self]
      rfl
  next hval =>
      have hopen : Operand.Open w l r ∧ (bitSides w l r).2 = r := by
        unfold bitSides at hval ⊢
        split at hval
        case isTrue hc =>
            rw [hval] at hc
            cases hc
        case isFalse hc =>
            rw [if_neg hc]
            exact ⟨⟨Option.not_isSome_iff_eq_none.mp hc, hval⟩, rfl⟩
      show (s.a &&& s.x != 0) = _
      rw [hword, hx hopen.1, hopen.2, and_and_self]
      rfl

/-- **The second jump of a comparison of 64 bits is right in the registers the first one
leaves**, although they may not be those of its own load. -/
theorem shared_load {next floc' : Loc}
    (hne : ¬ ((prepare w .jge left right next floc).op = .jge ∧
      (prepare w .jge left right next floc).right.cached w = some 0))
    (hs : (prepare w .jgt left right tloc floc').Ready w args s) :
    (prepare w .jge left right next floc).decides w s =
      (prepare w .jge left right next floc).outcome w args := by
  by_cases hl : (left.cached w).isSome = true
  · -- swapped: the first is `JGE`, which is not rewritten, and the second `JGT`
    have hs : (Test.mk .jge right left floc' tloc).Ready w args s := by
      rw [prepare_swapped hl, rewrite_of_op (.inl rfl)] at hs
      exact hs
    obtain ⟨val, hval⟩ := Option.isSome_iff_exists.mp hl
    rw [prepare_swapped hl]
    rcases @rewrite_cases w (swapSides .jge left right next floc) with he | ⟨_, _, l, r, hb, he⟩
    · rw [he]
      exact Test.Loaded.decides ⟨hs.acc, hs.index⟩
    · rw [he]
      exact decides_bits rfl hb hs.acc fun hopen => hs.inner val _ l r hval hb hopen
  · -- not swapped: if the first were rewritten the second would not have been emitted
    rw [prepare_plain hl, rewrite_of_op (.inl rfl)] at hne ⊢
    rw [prepare_plain hl] at hs
    rcases @rewrite_cases w ⟨.jgt, left, right, tloc, floc'⟩ with he | ⟨_, h0, _⟩
    · rw [he] at hs
      exact Test.Loaded.decides ⟨hs.acc, hs.index⟩
    · exact absurd ⟨rfl, h0⟩ hne

theorem decides_zero (hop : test.op = .jgt ∨ test.op = .jset) : test.decides w .init = false := by
  unfold Test.decides
  rcases hop with hop | hop
  · rw [hop]
    split
    next val _ =>
        have hle : ¬ val < 0 := UInt32.not_lt.mpr UInt32.zero_le
        exact decide_eq_false hle
    next => rfl
  · rw [hop]
    split
    next val _ =>
        show ((0 : UInt32) &&& val != 0) = false
        rw [UInt32.zero_and]
        rfl
    next => rfl

theorem decides_max (hop : test.op = .jge) :
    test.decides w ⟨0xffffffff, 0, fun _ => 0⟩ = true := by
  unfold Test.decides
  rw [hop]
  split
  next val _ => exact decide_eq_true (UInt32.le_iff_toNat_le.mpr (Nat.le_of_lt_succ val.toNat_lt))
  next => rfl

/-- The first jump may fall through to the second. -/
theorem gt_falls {next : Loc} : ∃ s, (if (prepare w .jgt left right tloc next).decides w s then
    (prepare w .jgt left right tloc next).tloc
    else (prepare w .jgt left right tloc next).floc) = next := by
  by_cases hl : (left.cached w).isSome = true
  · refine ⟨⟨0xffffffff, 0, fun _ => 0⟩, ?_⟩
    rw [prepare_swapped hl, rewrite_of_op (.inl rfl), decides_max rfl, if_pos rfl]
    rfl
  · refine ⟨.init, ?_⟩
    rw [prepare_plain hl]
    rcases @rewrite_cases w ⟨.jgt, left, right, tloc, next⟩ with he | ⟨_, _, l, r, _, he⟩
    · rw [he, decides_zero (.inl rfl), if_neg Bool.false_ne_true]
    · have hb : Test.bits w ⟨.jgt, left, right, tloc, next⟩ l r =
          ⟨.jset, (bitSides w l r).1, (bitSides w l r).2, tloc, next⟩ := rfl
      rw [he, hb, decides_zero (.inr rfl), if_neg Bool.false_ne_true]

/-- A jump put in front of the newest instruction, or left out where it always falls through. -/
theorem run_emitJump {next : Loc} {n : Nat} {d : Nat → UInt32}
    (hb : Branch c ((prepare w .jgt left right tloc (.code n)).decides w)
      (prepare w .jgt left right tloc (.code n)).tloc
      (prepare w .jgt left right tloc (.code n)).floc next c')
    (hn : n + 1 = c.buffer.length) :
    (Bpf.Loc.code (c'.buffer.length - 1) : Loc).run actionToBpf d c'.buffer s =
      (if (prepare w .jgt left right tloc (.code n)).decides w s then
        (prepare w .jgt left right tloc (.code n)).tloc
      else (prepare w .jgt left right tloc (.code n)).floc).run actionToBpf d c.buffer s := by
  have hnext : next = .code (c'.buffer.length - 1) := by
    rcases hb.shape with ⟨rfl, hnext⟩ | ⟨m, rfl, _, hm⟩
    · obtain ⟨s₀, hs₀⟩ := @gt_falls w left right tloc (.code n)
      rw [hnext s₀, hs₀, ← hn, Nat.add_sub_cancel]
    · rw [← hm, Nat.add_sub_cancel]
  rw [← hnext]
  exact hb.run d s

/-- A second jump that was emitted is not against 0. -/
theorem not_jge_zero {n : Nat} (ht : test.tloc.Valid c.buffer)
    (he : emitJump w c test = some (.code n, c')) (hn : c.buffer.length ≤ n) :
    ¬ (test.op = .jge ∧ test.right.cached w = some 0) := by
  rintro ⟨hop, hr⟩
  have h0 : emitJump w c test = some (test.tloc, c) := by
    rw [emitJump, hr, hop]
    rfl
  rw [h0] at he
  have ht0 : test.tloc = .code n := congrArg Prod.fst (Option.some.inj he)
  rw [ht0] at ht
  exact absurd hn (Nat.not_le.mpr ht)

/-- The high words of an inequality: the second jump, and then the first in front of it,
with a load for both. -/
theorem emitBoth_spec {next : Loc} (h : c.Ready) (hv : Varies w left right)
    (ht : tloc.Valid c.buffer) (hf : floc.Valid c.buffer) (hn : next.Valid c.buffer) :
    ∃ next' c₁, emitTest w c (prepare w .jge left right next floc) .never = some (next', c₁) ∧
      ∃ l c', emitTest w c₁ (prepare w .jgt left right tloc next')
          (if next'.isAfter c.buffer.length then .always else .normal) = some (l, c') ∧
        Decided c [tloc, next, floc] (fun args => cmpPick w .jgt left right tloc
          (cmpPick w .jge left right next floc args) args) l c' := by
  have hge := left_prepare .jge next floc hv
  obtain ⟨hnt, hnf⟩ := @targets_prepare w left right .jge next floc (·.Valid c.buffer) hn hf
  obtain ⟨next', c₁, e₁, hb⟩ := @emitJump_spec w _ _ h hnt hnf
  have hnever : emitTest w c (prepare w .jge left right next floc) .never = some (next', c₁) := by
    rw [emitTest_eq hge e₁, if_neg]
    rintro (h | ⟨h, _⟩)
    · cases h
    · exact h rfl
  refine ⟨next', c₁, hnever, ?_⟩
  rcases hb.shape with ⟨rfl, hnext⟩ | ⟨n, rfl, hle, hlen⟩
  · -- there is no second jump: its target is known
    have hpick : ∀ args, cmpPick w .jge left right next floc args = next' := by
      intro args
      rw [← pick_prepare, hnext (Test.loadedSt w _ args), Test.loaded_loadedSt.decides]
      rfl
    have hmem : next' = next ∨ next' = floc := by
      rw [← hpick fun _ => 0]
      exact ite_eq_or_eq _ _ _
    have hvalid : next'.Valid c₁.buffer := by
      rcases hmem with rfl | rfl
      · exact hn
      · exact hf
    rw [not_isAfter hvalid, if_neg Bool.false_ne_true]
    obtain ⟨l, c', e, hd⟩ := @emitTest_prepare w left right .jgt _ _ _ h hv ht hvalid
    refine ⟨l, c', e, hd.congr (fun args => by rw [hpick]) ?_⟩
    rcases hmem with rfl | rfl
    · simp
    · simp
  · have hafter : (Bpf.Loc.code n : Loc).isAfter c.buffer.length = true := decide_eq_true hle
    have hn' : (Bpf.Loc.code n : Loc).Valid c₁.buffer := by
      show n < c₁.buffer.length
      omega
    obtain ⟨htt, htf⟩ := @targets_prepare w left right .jgt tloc (.code n) (·.Valid c₁.buffer)
      (ht.suffix hb.grows.suffix) hn'
    obtain ⟨next₂, c₂, e₂, hb₂⟩ := @emitJump_spec w _ _ hb.ready htt htf
    have hgt := left_prepare .jgt tloc (.code n) hv
    have hne : c₂.buffer ≠ [] := by
      have := hb₂.grows.suffix.length_le
      exact List.ne_nil_of_length_pos (by omega)
    obtain ⟨c', q, e', hq, hqne, hstraight, hready⟩ := emitLoad_spec hb₂.ready hne hgt
    have hlt := hq.head_lt hqne
    have hle₂ := (hb.grows.trans hb₂.grows).suffix.length_le
    rw [hafter, if_pos rfl, emitTest_eq hgt e₂, if_pos (.inl rfl), e', Option.bind_some]
    refine ⟨_, _, rfl, hq.ready, (hb.grows.trans hb₂.grows).trans hq.grows, ?_, ?_, ?_⟩
    · show c'.buffer.length - 1 < c'.buffer.length
      omega
    · refine .inr (decide_eq_true ?_)
      omega
    · intro data action hr s _
      have hs := hready data s
      have hsecond := shared_load (not_jge_zero hnt e₁ hle) hs
      rw [run_front hq hstraight, run_emitJump hb₂ hlen, hs.toLoaded.decides]
      show ((prepare w .jgt left right tloc (.code n)).pick w data.args).run _ _ _ _ = _
      rw [pick_prepare]
      unfold cmpPick at hr ⊢
      split at hr
      case isTrue hgt' =>
          rw [if_pos hgt', Loc.run_suffix hb.grows.suffix ht]
          exact hr _ trivial
      case isFalse hgt' =>
          rw [if_neg hgt', hb.run, hsecond]
          show ((prepare w .jge left right next floc).pick w data.args).run _ _ _ _ = _
          rw [pick_prepare]
          exact hr _ trivial

theorem generateCmp32_both {next : Loc} (h : c.Ready) (ht : tloc.Valid c.buffer)
    (hf : floc.Valid c.buffer) (hn : next.Valid c.buffer) :
    ∃ next' c₁, generateCmp32 w c .jge left right next floc .never = some (next', c₁) ∧
      ∃ l c', generateCmp32 w c₁ .jgt left right tloc next'
          (if next'.isAfter c.buffer.length then .always else .normal) = some (l, c') ∧
        Decided c [tloc, next, floc] (fun args => cmpPick w .jgt left right tloc
          (cmpPick w .jge left right next floc args) args) l c' := by
  by_cases hv : Varies w left right
  · obtain ⟨next', c₁, e₁, l, c', e₂, hd⟩ := @emitBoth_spec w _ _ _ _ _ _ h hv ht hf hn
    refine ⟨next', c₁, (generateCmp32_varies hv).trans e₁, l, c', ?_, hd⟩
    rw [generateCmp32_varies hv]
    exact e₂
  · obtain ⟨next', e₁, hmem, hp⟩ := @generateCmp32_const w left right .jge c next floc .never hv
    have hvalid : next'.Valid c.buffer := by
      rcases hmem with rfl | rfl
      · exact hn
      · exact hf
    obtain ⟨l, e₂, hmem', hp'⟩ := @generateCmp32_const w left right .jgt c tloc next'
      (if next'.isAfter c.buffer.length then .always else .normal) hv
    refine ⟨next', c, e₁, l, c, e₂, .refl h ?_ ?_ fun args => by rw [hp, hp']⟩
    · rcases hmem' with rfl | rfl
      · exact ht
      · exact hvalid
    · rcases hmem' with rfl | rfl
      · exact List.mem_cons_self
      · rcases hmem with rfl | rfl <;> simp

end Kafel
