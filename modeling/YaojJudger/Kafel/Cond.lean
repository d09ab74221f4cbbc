/-
# `YaojJudger.Kafel.Cond` — `generate_inequality` to `generate_action`: conditions

Code for a condition is emitted from its end: the right operand of `&&` and `||`
first, the last condition of a rule first, and each leads on to what is there.

**Proved here.**  The code leads to what the condition picks, as the filter reads
the arguments (`generateExpr_spec`); that is its meaning for the calls that are
clean (`Expr.sees_eq_holds`).
-/
import YaojJudger.Kafel.Cmp
import YaojJudger.Kafel.AddMissing

namespace Kafel

open Bpf

/-! ## Comparisons, conditions -/

/-- `generate_inequality`. -/
def generateInequality (ctxt : CodegenCtxt) (op : JmpOp) (left right : Operand Arg)
    (tloc floc : Loc) : Option (Loc × CodegenCtxt) := do
  let (next, ctxt) ← generateCmp32 .low ctxt op left right tloc floc .normal
  if left.is64bit || right.is64bit then do
    let begin := ctxt.buffer.length
    let (next, ctxt) ← generateCmp32 .high ctxt .jge left right next floc .never
    generateCmp32 .high ctxt .jgt left right tloc next
      (if next.isAfter begin then .always else .normal)
  else some (next, ctxt)

/-- `generate_equality`. -/
def generateEquality (ctxt : CodegenCtxt) (left right : Operand Arg) (tloc floc : Loc) :
    Option (Loc × CodegenCtxt) := do
  let (next, ctxt) ← generateCmp32 .low ctxt .jeq left right tloc floc .normal
  if left.is64bit || right.is64bit then
    generateCmp32 .high ctxt .jeq left right next floc .normal
  else some (next, ctxt)

/-- `generate_expr`; none if an assertion fails. -/
def generateExpr (ctxt : CodegenCtxt) : Expr Arg → Loc → Loc → Option (Loc × CodegenCtxt)
  | .tt, _, _ | .ff, _, _ => none
  | .not child, tloc, floc => generateExpr ctxt child floc tloc
  | .logic .and left right, tloc, floc => do
    let (tloc, ctxt) ← generateExpr ctxt right tloc floc
    generateExpr ctxt left tloc floc
  | .logic .or left right, tloc, floc => do
    let (floc, ctxt) ← generateExpr ctxt right tloc floc
    generateExpr ctxt left tloc floc
  | .cmp .le left right, tloc, floc => generateInequality ctxt .jgt left right floc tloc
  | .cmp .gt left right, tloc, floc => generateInequality ctxt .jgt left right tloc floc
  | .cmp .lt left right, tloc, floc => generateInequality ctxt .jge left right floc tloc
  | .cmp .ge left right, tloc, floc => generateInequality ctxt .jge left right tloc floc
  | .cmp .neq left right, tloc, floc => generateEquality ctxt left right floc tloc
  | .cmp .eq left right, tloc, floc => generateEquality ctxt left right tloc floc

/-- The loop of `generate_action`, from the last condition to the first. -/
def generateMappings (ctxt : CodegenCtxt) (lastLoc : Loc) :
    List (Option (Expr Arg) × Action) → Option (Loc × CodegenCtxt)
  | [] => some (lastLoc, ctxt)
  | (expr, action) :: mappings => do
    let expr ← expr
    let (lastLoc, ctxt) ← generateExpr ctxt expr (.exit action) lastLoc
    generateMappings ctxt lastLoc mappings

/-- `generate_action`; none if an assertion fails. -/
def generateAction (ctxt : CodegenCtxt) (rule : RangeRule) : Option (Loc × CodegenCtxt) :=
  match rule.action with
  | some action => some (.exit action, ctxt)
  | none =>
    match rule.exprList.reverse with
    | [] => none
    | (expr, action) :: mappings =>
      if expr = none ∨ expr = some .tt then generateMappings ctxt (.exit action) mappings
      else none

variable {data : SeccompData} {args : Fin 6 → UInt64} {w : Word} {left right : Operand Arg}
  {op : JmpOp} {c c' c'' : CodegenCtxt} {p q : List Instr} {s : St} {test : Test}
  {tloc floc l l' : Loc} {action : Action}

variable {targets targets' : List Loc} {pick pick' : (Fin 6 → UInt64) → Loc}

/-! ## Both words -/

/-- An operand in a comparison: its low word only, if no leaf is of 64 bits. -/
def Operand.read (wide : Bool) (args : Fin 6 → UInt64) (o : Operand Arg) : UInt64 :=
  if wide then o.full args else (o.word .low args).toUInt64

/-- A comparison as the filter makes it. -/
def seesCmp (op : CmpOp) (left right : Operand Arg) (args : Fin 6 → UInt64) : Bool :=
  op.eval (left.read (left.is64bit || right.is64bit) args)
    (right.read (left.is64bit || right.is64bit) args)

theorem toUInt64_lt {m n : UInt32} : m.toUInt64 < n.toUInt64 ↔ m < n := by
  rw [UInt64.lt_iff_toNat_lt, UInt32.lt_iff_toNat_lt, UInt32.toNat_toUInt64, UInt32.toNat_toUInt64]

theorem toUInt64_le {m n : UInt32} : m.toUInt64 ≤ n.toUInt64 ↔ m ≤ n := by
  rw [UInt64.le_iff_toNat_le, UInt32.le_iff_toNat_le, UInt32.toNat_toUInt64, UInt32.toNat_toUInt64]

theorem toUInt64_eq {m n : UInt32} : m.toUInt64 = n.toUInt64 ↔ m = n := by
  rw [← UInt64.toNat_inj, ← UInt32.toNat_inj, UInt32.toNat_toUInt64, UInt32.toNat_toUInt64]

/-- The jump an inequality is made of. -/
def CmpOp.jump : CmpOp → JmpOp
  | .gt | .le => .jgt
  | .ge | .lt => .jge
  | .eq | .neq => .jeq

/-- Where a comparison goes on. -/
def seesPick (op : CmpOp) (left right : Operand Arg) (tloc floc : Loc) (args : Fin 6 → UInt64) :
    Loc :=
  if seesCmp op left right args then tloc else floc

theorem read_narrow {o : Operand Arg} : o.read false args = (o.word .low args).toUInt64 := rfl

theorem read_wide {o : Operand Arg} : o.read true args = o.full args := rfl

theorem seesCmp_narrow {op : CmpOp} (hop : op = .gt ∨ op = .ge ∨ op = .eq)
    (hw : (left.is64bit || right.is64bit) = false) :
    seesCmp op left right args =
      op.jump.eval (left.word .low args) (right.word .low args) := by
  rw [seesCmp, hw, read_narrow, read_narrow]
  rcases hop with rfl | rfl | rfl
  · exact decide_eq_decide.mpr toUInt64_lt
  · exact decide_eq_decide.mpr toUInt64_le
  · exact Bool.eq_iff_iff.mpr (by
      rw [CmpOp.eval, CmpOp.jump, JmpOp.eval, beq_iff_eq, beq_iff_eq]
      exact toUInt64_eq)

/-- To ask for `≤` after `<` is to ask for `=`. -/
theorem lt_or_eq_and_iff {m n : UInt32} {P : Prop} : m < n ∨ m = n ∧ P ↔ m < n ∨ m ≤ n ∧ P := by
  by_cases h : m < n
  · exact ⟨fun _ => .inl h, fun _ => .inl h⟩
  · have heq : m = n ↔ m ≤ n := by
      rw [← UInt32.toNat_inj, UInt32.le_iff_toNat_le]
      rw [UInt32.lt_iff_toNat_lt] at h
      omega
    rw [heq]

/-- **An inequality by words**: the high ones decide, unless they are equal. -/
theorem seesCmp_wide {op : CmpOp} (hop : op = .gt ∨ op = .ge)
    (hw : (left.is64bit || right.is64bit) = true) :
    seesCmp op left right args =
      (JmpOp.jgt.eval (left.word .high args) (right.word .high args) ||
        JmpOp.jge.eval (left.word .high args) (right.word .high args) &&
          op.jump.eval (left.word .low args) (right.word .low args)) := by
  rw [seesCmp, hw, read_wide, read_wide, Bool.eq_iff_iff, Bool.or_eq_true, Bool.and_eq_true]
  rcases hop with rfl | rfl
  · simp only [CmpOp.eval, CmpOp.jump, JmpOp.eval, decide_eq_true_eq]
    exact lt_iff_words.trans lt_or_eq_and_iff
  · simp only [CmpOp.eval, CmpOp.jump, JmpOp.eval, decide_eq_true_eq]
    exact le_iff_words.trans lt_or_eq_and_iff

theorem seesCmp_eq_wide (hw : (left.is64bit || right.is64bit) = true) :
    seesCmp .eq left right args =
      (JmpOp.jeq.eval (left.word .high args) (right.word .high args) &&
        JmpOp.jeq.eval (left.word .low args) (right.word .low args)) := by
  rw [seesCmp, hw, read_wide, read_wide, Bool.eq_iff_iff, Bool.and_eq_true]
  simp only [CmpOp.eval, JmpOp.eval, beq_iff_eq]
  exact eq_iff_words

theorem targets_valid (ht : tloc.Valid p) (hf : floc.Valid p) :
    ∀ x ∈ [tloc, floc], Loc.Valid p x := by
  intro x hx
  rcases List.mem_cons.mp hx with rfl | hx
  · exact ht
  · rcases List.mem_singleton.mp hx with rfl
    exact hf

/-- **`generate_inequality`.** -/
theorem generateInequality_spec {op : CmpOp} (hop : op = .gt ∨ op = .ge) (h : c.Ready)
    (ht : tloc.Valid c.buffer) (hf : floc.Valid c.buffer) :
    ∃ l c', generateInequality c op.jump left right tloc floc = some (l, c') ∧
      Decided c [tloc, floc] (seesPick op left right tloc floc) l c' := by
  obtain ⟨next, c₁, e₁, h₁⟩ := @generateCmp32_normal .low left right op.jump _ _ _ h ht hf
  rw [generateInequality, e₁, Option.bind_eq_bind, Option.bind_some]
  cases hw : left.is64bit || right.is64bit with
  | false =>
      refine ⟨next, c₁, rfl, h₁.congr (fun args => ?_) (List.Subset.refl _)⟩
      rw [seesPick, seesCmp_narrow (hop.imp id .inl) hw]
      rfl
  | true =>
      have ht' := ht.suffix h₁.grows.suffix
      have hf' := hf.suffix h₁.grows.suffix
      obtain ⟨next', c₂, e₂, l, c₃, e₃, h₃⟩ :=
        @generateCmp32_both .high left right _ _ _ _ h₁.ready ht' hf' h₁.valid
      refine ⟨l, c₃, ?_, h₁.trans (h₃.congr (fun _ => rfl) ?_) ?_ ?_⟩
      · simp only [if_pos, e₂, e₃, Option.bind_some]
      · exact (List.Perm.swap next tloc [floc]).subset
      · exact targets_valid ht hf
      · intro args
        rw [seesPick, seesCmp_wide hop hw]
        unfold cmpPick
        cases JmpOp.jgt.eval (left.word .high args) (right.word .high args) with
        | true => exact .inr ⟨rfl, List.mem_cons_self⟩
        | false =>
            cases JmpOp.jge.eval (left.word .high args) (right.word .high args) with
            | true => exact .inl ⟨rfl, rfl⟩
            | false => exact .inr ⟨rfl, List.mem_cons_of_mem _ List.mem_cons_self⟩

/-- **`generate_equality`.** -/
theorem generateEquality_spec (h : c.Ready) (ht : tloc.Valid c.buffer) (hf : floc.Valid c.buffer) :
    ∃ l c', generateEquality c left right tloc floc = some (l, c') ∧
      Decided c [tloc, floc] (seesPick .eq left right tloc floc) l c' := by
  obtain ⟨next, c₁, e₁, h₁⟩ := @generateCmp32_normal .low left right .jeq _ _ _ h ht hf
  rw [generateEquality, e₁, Option.bind_eq_bind, Option.bind_some]
  cases hw : left.is64bit || right.is64bit with
  | false =>
      refine ⟨next, c₁, rfl, h₁.congr (fun args => ?_) (List.Subset.refl _)⟩
      rw [seesPick, seesCmp_narrow (.inr (.inr rfl)) hw]
      rfl
  | true =>
      obtain ⟨l, c₂, e₂, h₂⟩ := @generateCmp32_normal .high left right .jeq _ _ _ h₁.ready h₁.valid
        (hf.suffix h₁.grows.suffix)
      refine ⟨l, c₂, e₂, h₁.trans (h₂.congr (fun _ => rfl) ?_) (targets_valid ht hf) ?_⟩
      · intro x hx
        rcases List.mem_cons.mp hx with rfl | hx
        · exact List.mem_cons_self
        · exact List.mem_cons_of_mem _ (List.mem_cons_of_mem _ hx)
      · intro args
        rw [seesPick, seesCmp_eq_wide hw]
        unfold cmpPick
        cases JmpOp.jeq.eval (left.word .high args) (right.word .high args) with
        | true => exact .inl ⟨rfl, rfl⟩
        | false => exact .inr ⟨rfl, List.mem_cons_of_mem _ List.mem_cons_self⟩

/-! ## Conditions -/

/-- A condition as the filter reads it. -/
def Expr.sees (args : Fin 6 → UInt64) : Expr Arg → Bool
  | .tt => true
  | .ff => false
  | .not child => !child.sees args
  | .logic op left right => op.eval (left.sees args) (right.sees args)
  | .cmp op left right => seesCmp op left right args

def exprPick (e : Expr Arg) (tloc floc : Loc) (args : Fin 6 → UInt64) : Loc :=
  if e.sees args then tloc else floc

/-- The targets the other way round. -/
theorem Decided.swap (h : Decided c [floc, tloc] pick l c') (hp : ∀ args, pick args = pick' args) :
    Decided c [tloc, floc] pick' l c' := h.congr hp (List.Perm.swap tloc floc []).subset

theorem CmpOp.le_eq_not_gt (a b : UInt64) : CmpOp.le.eval a b = !CmpOp.gt.eval a b := by
  show decide (a ≤ b) = !decide (b < a)
  rw [← decide_not]
  exact decide_eq_decide.mpr UInt64.not_lt.symm

theorem CmpOp.lt_eq_not_ge (a b : UInt64) : CmpOp.lt.eval a b = !CmpOp.ge.eval a b := by
  show decide (a < b) = !decide (b ≤ a)
  rw [← decide_not]
  exact decide_eq_decide.mpr UInt64.not_le.symm

theorem seesCmp_not {op op' : CmpOp} (h : ∀ a b, op'.eval a b = !op.eval a b) :
    seesPick op left right floc tloc args = seesPick op' left right tloc floc args := by
  rw [seesPick, seesPick, seesCmp, seesCmp, h]
  cases op.eval _ _ with
  | true | false => rfl

/-- **`generate_expr`** returns on a condition without constants, and what it emits goes on
as the condition says. -/
theorem generateExpr_spec {e : Expr Arg} (he : e.Plain) (h : c.Ready) (ht : tloc.Valid c.buffer)
    (hf : floc.Valid c.buffer) :
    ∃ l c', generateExpr c e tloc floc = some (l, c') ∧
      Decided c [tloc, floc] (exprPick e tloc floc) l c' := by
  induction e generalizing c tloc floc with
  | tt | ff => exact he.elim
  | not child ih =>
      obtain ⟨l, c', e, hd⟩ := ih he h hf ht
      refine ⟨l, c', e, hd.swap fun args => ?_⟩
      rw [exprPick, exprPick, Expr.sees]
      cases child.sees args with
      | true | false => rfl
  | logic op left right ihl ihr =>
      obtain ⟨next, c₁, e₁, h₁⟩ := ihr he.2 h ht hf
      have ht' := ht.suffix h₁.grows.suffix
      have hf' := hf.suffix h₁.grows.suffix
      cases op with
      | and =>
          obtain ⟨l, c₂, e₂, h₂⟩ := ihl he.1 h₁.ready h₁.valid hf'
          refine ⟨l, c₂, ?_, h₁.trans (h₂.congr (fun _ => rfl) ?_) (targets_valid ht hf) ?_⟩
          · rw [generateExpr, e₁]
            exact e₂
          · intro x hx
            rcases List.mem_cons.mp hx with rfl | hx
            · exact List.mem_cons_self
            · exact List.mem_cons_of_mem _ (List.mem_cons_of_mem _ hx)
          · intro args
            unfold exprPick
            rw [Expr.sees]
            cases left.sees args with
            | true => exact .inl ⟨rfl, rfl⟩
            | false => exact .inr ⟨rfl, List.mem_cons_of_mem _ List.mem_cons_self⟩
      | or =>
          obtain ⟨l, c₂, e₂, h₂⟩ := ihl he.1 h₁.ready ht' h₁.valid
          refine ⟨l, c₂, ?_, h₁.trans (h₂.congr (fun _ => rfl) ?_) (targets_valid ht hf) ?_⟩
          · rw [generateExpr, e₁]
            exact e₂
          · intro x hx
            rcases List.mem_cons.mp hx with rfl | hx
            · exact List.mem_cons_of_mem _ List.mem_cons_self
            · rcases List.mem_singleton.mp hx with rfl
              exact List.mem_cons_self
          · intro args
            unfold exprPick
            rw [Expr.sees]
            cases left.sees args with
            | true => exact .inr ⟨rfl, List.mem_cons_self⟩
            | false => exact .inl ⟨rfl, rfl⟩
  | cmp op left right =>
      cases op with
      | gt => exact generateInequality_spec (.inl rfl) h ht hf
      | ge => exact generateInequality_spec (.inr rfl) h ht hf
      | eq => exact generateEquality_spec h ht hf
      | le =>
          obtain ⟨l, c', e, hd⟩ := @generateInequality_spec left right _ _ _ _ (.inl rfl) h hf ht
          exact ⟨l, c', e, hd.swap fun args => seesCmp_not CmpOp.le_eq_not_gt⟩
      | lt =>
          obtain ⟨l, c', e, hd⟩ := @generateInequality_spec left right _ _ _ _ (.inr rfl) h hf ht
          exact ⟨l, c', e, hd.swap fun args => seesCmp_not CmpOp.lt_eq_not_ge⟩
      | neq =>
          obtain ⟨l, c', e, hd⟩ := @generateEquality_spec left right _ _ _ h hf ht
          exact ⟨l, c', e, hd.swap fun args => seesCmp_not fun a b => rfl⟩

/-! ## Clean calls -/

theorem full_eq_value {o : Operand Arg} (h : o.ZeroExtended args) :
    o.full args = o.value (Arg.value args) := by
  induction o with
  | number => rfl
  | var v => exact (Arg.value_of_zeroExtended h).symm
  | bit op left right ihl ihr =>
      show op.eval (left.full args) (right.full args) = _
      rw [ihl h.1, ihr h.2]
      rfl

theorem low_eq_value {o : Operand Arg} (h : o.is64bit = false) :
    (o.word .low args).toUInt64 = o.value (Arg.value args) := by
  induction o with
  | number n =>
      have hn : ¬ n > 0xffffffff := of_decide_eq_false h
      have hmax : (0xffffffff : UInt64).toNat = 2 ^ 32 - 1 := rfl
      rw [gt_iff_lt, UInt64.lt_iff_toNat_lt, hmax] at hn
      show n.toUInt32.toUInt64 = n
      rw [← UInt64.toNat_inj, UInt32.toNat_toUInt64, UInt64.toNat_toUInt32]
      omega
  | var v =>
      have hv : v.size ≠ 8 := by
        intro hv
        rw [Operand.is64bit, hv] at h
        cases h
      exact (if_neg hv).symm
  | bit op left right ihl ihr =>
      rw [Operand.is64bit, Bool.or_eq_false_iff] at h
      rw [Operand.value, ← ihl h.1, ← ihr h.2, word_bit]
      cases op with
      | bitOr => exact UInt32.toUInt64_or _ _
      | bitAnd => exact UInt32.toUInt64_and _ _

/-- **For a clean call the filter reads what is meant.** -/
theorem Expr.sees_eq_holds {e : Expr Arg} (h : e.Clean args) :
    e.sees args = e.holds (Arg.value args) := by
  induction e with
  | tt | ff => rfl
  | not child ih => rw [sees, holds, ih h]
  | logic op left right ihl ihr => rw [sees, holds, ihl h.1, ihr h.2]
  | cmp op left right =>
      rw [sees, holds, seesCmp]
      cases hw : left.is64bit || right.is64bit with
      | true =>
          obtain ⟨hl, hr⟩ := h hw
          rw [read_wide, read_wide, full_eq_value hl, full_eq_value hr]
      | false =>
          rw [Bool.or_eq_false_iff] at hw
          rw [read_narrow, read_narrow, low_eq_value hw.1, low_eq_value hw.2]

/-! ## Rules -/

/-- What a list of conditions comes to for the filter. -/
def ladderSees (args : Fin 6 → UInt64) (mappings : List (Option (Expr Arg) × Action)) :
    Option Action :=
  mappings.findSome? fun x => if x.1.all fun expr => expr.sees args then some x.2 else none

theorem ladderSees_eq {mappings : List (Option (Expr Arg) × Action)}
    (h : ∀ expr action, (some expr, action) ∈ mappings → expr.Clean args) :
    ladderSees args mappings = ladderOutcome args mappings := by
  unfold ladderSees ladderOutcome
  induction mappings with
  | nil => rfl
  | cons x mappings ih =>
      rw [List.findSome?_cons, List.findSome?_cons,
        ih fun expr action hmem => h expr action (List.mem_cons_of_mem _ hmem)]
      obtain ⟨expr, action⟩ := x
      cases expr with
      | none => rfl
      | some expr =>
          dsimp only
          rw [Option.all_some, Option.all_some,
            Expr.sees_eq_holds (h expr action List.mem_cons_self)]

/-- A location that is no code, or code emitted since. -/
def Fresh (n : Nat) (l : Loc) : Prop := (∃ action, l = .exit action) ∨ l.isAfter n = true

theorem Fresh.mono {m n : Nat} (h : Fresh n l) (hle : m ≤ n) : Fresh m l := by
  rcases h with h | h
  · exact .inl h
  · cases l with
    | exit => cases h
    | code k => exact .inr (decide_eq_true (Nat.le_trans hle (of_decide_eq_true h)))

/-- `l` goes on at the action `value` gives, if it gives one. -/
structure Valued (c : CodegenCtxt) (value : (Fin 6 → UInt64) → Option Action) (l : Loc)
    (c' : CodegenCtxt) : Prop where
  ready : c'.Ready
  grows : Grows c c'
  valid : l.Valid c'.buffer
  fresh : Fresh c.buffer.length l
  reaches : ∀ data action, value data.args = some action → Reaches data c' l action

theorem valued_exit {value : (Fin 6 → UInt64) → Option Action} (h : c.Ready)
    (hv : ∀ args, value args = some action) : Valued c value (.exit action) c where
  ready := h
  grows := .refl
  valid := trivial
  fresh := .inl ⟨action, rfl⟩
  reaches := by
    intro data action' ha
    rw [hv] at ha
    obtain rfl := Option.some.inj ha
    exact Bpf.Loc.leads_exit

/-- One condition more in front. -/
theorem Valued.expr {value : (Fin 6 → UInt64) → Option Action} {e : Expr Arg} (action : Action)
    (he : e.Plain) (h : Valued c value l c') :
    ∃ l' c'', generateExpr c' e (.exit action) l = some (l', c'') ∧
      Valued c (fun args => if e.sees args then some action else value args) l' c'' := by
  have hexit : (Bpf.Loc.exit action : Loc).Valid c'.buffer := trivial
  obtain ⟨l', c'', e₁, hd⟩ := generateExpr_spec he h.ready hexit h.valid
  refine ⟨l', c'', e₁, hd.ready, h.grows.trans hd.grows, hd.valid, ?_, ?_⟩
  · rcases hd.origin with ho | ho
    · rcases List.mem_cons.mp ho with rfl | ho
      · exact .inl ⟨action, rfl⟩
      · rcases List.mem_singleton.mp ho with rfl
        exact h.fresh
    · exact Fresh.mono (.inr ho) h.grows.suffix.length_le
  · intro data action' hv
    apply hd.follows
    unfold exprPick
    split at hv
    case isTrue hs =>
        obtain rfl := Option.some.inj hv
        rw [if_pos hs]
        exact Bpf.Loc.leads_exit
    case isFalse hs =>
        rw [if_neg hs]
        exact h.reaches data action' hv

theorem generateMappings_spec {mappings tail : List (Option (Expr Arg) × Action)}
    (hr : Rungs mappings) (h : Valued c (fun args => ladderSees args tail) l c') :
    ∃ l' c'', generateMappings c' l mappings = some (l', c'') ∧
      Valued c (fun args => ladderSees args (mappings.reverse ++ tail)) l' c'' := by
  induction mappings generalizing l c' tail with
  | nil => exact ⟨l, c', rfl, h⟩
  | cons x mappings ih =>
      obtain ⟨expr, action⟩ := x
      obtain ⟨⟨e, rfl, he⟩, hrest⟩ := List.forall_mem_cons.mp hr
      obtain ⟨l₁, c₁, e₁, h₁⟩ := h.expr action he
      have hcons : ∀ args, ladderSees args ((some e, action) :: tail) =
          if e.sees args then some action else ladderSees args tail := by
        intro args
        rw [ladderSees, List.findSome?_cons]
        dsimp only
        rw [Option.all_some]
        cases e.sees args with
        | true | false => rfl
      have hvalued : Valued c (fun args => ladderSees args ((some e, action) :: tail)) l₁ c₁ := by
        simp only [hcons]
        exact h₁
      obtain ⟨l₂, c₂, e₂, h₂⟩ := ih hrest hvalued
      refine ⟨l₂, c₂, ?_, ?_⟩
      · rw [generateMappings, Option.bind_eq_bind, Option.bind_some, e₁]
        exact e₂
      · rw [List.reverse_cons, List.append_assoc]
        exact h₂

/-- What a rule comes to for the filter. -/
def RangeRule.sees (args : Fin 6 → UInt64) (rule : RangeRule) : Option Action :=
  match rule.action with
  | some action => some action
  | none => ladderSees args rule.exprList

theorem RangeRule.sees_eq_outcome {rule : RangeRule} (hc : rule.Clean data)
    (hn : rule.Covers data.nr) : rule.sees data.args = rule.outcome data.args := by
  unfold RangeRule.sees RangeRule.outcome
  cases rule.action with
  | some action => rfl
  | none => exact ladderSees_eq (hc hn)

/-- **`generate_action`** returns on a rule of a finished table. -/
theorem generateAction_spec {rule : RangeRule} (hr : rule.Finished) (h : c.Ready) :
    ∃ l c', generateAction c rule = some (l, c') ∧
      Valued c (fun args => rule.sees args) l c' ∧
      (rule.first ≠ rule.last → ∃ action, l = .exit action) := by
  rcases hr.shape with ⟨action, ha⟩ | ⟨ha, heq, rungs, action, hlist, hrungs⟩
  · refine ⟨.exit action, c, by rw [generateAction, ha], valued_exit h fun args => ?_,
      fun _ => ⟨action, rfl⟩⟩
    rw [RangeRule.sees, ha]
  · have hrev : rule.exprList.reverse = (none, action) :: rungs.reverse := by
      rw [hlist, List.reverse_append]
      rfl
    have hrungs' : Rungs rungs.reverse := by
      intro x hx
      exact hrungs x (List.mem_reverse.mp hx)
    have hlast : Valued c (fun args => ladderSees args [(none, action)]) (.exit action) c :=
      valued_exit h fun _ => rfl
    obtain ⟨l, c', e, hv⟩ := generateMappings_spec hrungs' hlast
    refine ⟨l, c', ?_, ?_, fun hne => absurd heq hne⟩
    · rw [generateAction, ha, hrev]
      dsimp only
      rw [if_pos (.inl rfl)]
      exact e
    · rw [List.reverse_reverse, ← hlist] at hv
      simpa only [RangeRule.sees, ha] using hv

/-- **`generate_expr`** returns code that goes on at `tloc` or `floc` as the condition holds or not
for a call it is clean for. -/
theorem generateExpr_correct {e : Expr Arg} (he : e.Plain) (h : c.Ready) (ht : tloc.Valid c.buffer)
    (hf : floc.Valid c.buffer) :
    ∃ l c', generateExpr c e tloc floc = some (l, c') ∧ c'.Ready ∧ c.buffer <:+ c'.buffer ∧
      ∀ data action, e.Clean data.args →
        Reaches data c (if e.holds (Arg.value data.args) then tloc else floc) action →
        Reaches data c' l action := by
  obtain ⟨l, c', e', hd⟩ := generateExpr_spec he h ht hf
  refine ⟨l, c', e', hd.ready, hd.grows.suffix, ?_⟩
  intro data action hclean hreach
  refine hd.follows data action ?_
  rw [exprPick, Expr.sees_eq_holds hclean]
  exact hreach

/-- `fd == 3 || count > 0x100000000`. -/
theorem generateExpr_correct_or : ∃ l c',
    generateExpr contextCreate (.logic .or (.cmp .eq (.var ⟨0, 4⟩) (.number 3))
      (.cmp .gt (.var ⟨2, 8⟩) (.number 0x100000000))) (.exit (.basic .allow))
      (.exit (.basic .kill)) = some (l, c') ∧ c'.Ready := by
  have hplain : (Expr.logic .or (.cmp .eq (.var (⟨0, 4⟩ : Arg)) (.number 3))
      (.cmp .gt (.var ⟨2, 8⟩) (.number 0x100000000))).Plain := ⟨trivial, trivial⟩
  obtain ⟨l, c', e, hready, -⟩ := @generateExpr_correct contextCreate (.exit (.basic .allow))
    (.exit (.basic .kill)) _ hplain ready_contextCreate trivial trivial
  exact ⟨l, c', e, hready⟩

end Kafel
