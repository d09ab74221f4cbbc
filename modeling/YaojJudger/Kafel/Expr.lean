/-
# `YaojJudger.Kafel.Expr` — `expression.c`: conditions on the arguments of a call

The grammar of the policy language builds two kinds of tree, and `struct
expr_tree` holds both:

    operands     numbers, identifiers, `|`, `&`
    conditions   the comparisons of operands, `!`, `&&`, `||`, true, false

They are two types here.  An identifier becomes an argument of the call
(`resolve`), so both are over the type of what stands at a leaf.

**What a condition means.**  An argument the table gives 8 bytes is the whole
register, any other its low word.  The code compares the high words as soon as
one leaf of a comparison is of 64 bits, those of the short arguments too; a call
is `Clean` for a condition if these are 0.

**`simplify` preserves the meaning** of every call that is clean, and the call
is clean for what comes of it (`Expr.simplify_holds`, `Expr.simplify_clean`).  A
condition that is not decided has no constant left in it (`Expr.simplify_reduced`).
-/
import YaojJudger.Bpf.Words

namespace Kafel

open Bpf (Word)

/-! ## `parser_types.h` -/

/-- `struct kafel_source_location`, what a message says of it. -/
structure SourceLocation where
  firstLine : Nat
  firstColumn : Nat
  deriving DecidableEq, Repr

/-- `[A-Za-z][A-Za-z0-9_]*`. -/
def isIdentifier (id : String) : Bool :=
  match id.toList with
  | [] => false
  | c :: cs => c.isAlpha && cs.all fun c => c.isAlphanum || c == '_'

/-- `struct kafel_identifier`, as the scanner finds one. -/
structure Identifier where
  id : String
  loc : SourceLocation
  ok : isIdentifier id = true
  deriving DecidableEq, Repr

/-! ## Operands -/

inductive BitOp where
  | bitOr
  | bitAnd
  deriving DecidableEq, Repr

def BitOp.eval : BitOp → UInt64 → UInt64 → UInt64
  | .bitOr, a, b => a ||| b
  | .bitAnd, a, b => a &&& b

/-- The number that decides the result. -/
def BitOp.clobber : BitOp → UInt64
  | .bitOr => 0xffffffffffffffff
  | .bitAnd => 0

/-- The number that changes nothing. -/
def BitOp.identity : BitOp → UInt64
  | .bitOr => 0
  | .bitAnd => 0xffffffffffffffff

inductive Operand (V : Type) where
  | number (n : UInt64)
  | var (v : V)
  | bit (op : BitOp) (left right : Operand V)
  deriving DecidableEq, Repr

variable {V : Type}

def Operand.value (val : V → UInt64) : Operand V → UInt64
  | .number n => n
  | .var v => val v
  | .bit op left right => op.eval (left.value val) (right.value val)

/-- The number of the node's kind: numbers first, the bit operations last. -/
def Operand.type : Operand V → Nat
  | .number _ => 0
  | .var _ => 1
  | .bit .bitOr _ _ => 14
  | .bit .bitAnd _ _ => 15

/-! ## Conditions -/

inductive CmpOp where
  | gt
  | lt
  | ge
  | le
  | eq
  | neq
  deriving DecidableEq, Repr

/-- `expr_eval`. -/
def CmpOp.eval : CmpOp → UInt64 → UInt64 → Bool
  | .eq, left, right => left == right
  | .neq, left, right => left != right
  | .ge, left, right => decide (left ≥ right)
  | .le, left, right => decide (left ≤ right)
  | .gt, left, right => decide (left > right)
  | .lt, left, right => decide (left < right)

inductive LogicOp where
  | and
  | or
  deriving DecidableEq, Repr

def LogicOp.eval : LogicOp → Bool → Bool → Bool
  | .and, a, b => a && b
  | .or, a, b => a || b

inductive Expr (V : Type) where
  | tt
  | ff
  | not (child : Expr V)
  | logic (op : LogicOp) (left right : Expr V)
  | cmp (op : CmpOp) (left right : Operand V)
  deriving DecidableEq, Repr

def Expr.holds (val : V → UInt64) : Expr V → Bool
  | .tt => true
  | .ff => false
  | .not child => !child.holds val
  | .logic op left right => op.eval (left.holds val) (right.holds val)
  | .cmp op left right => op.eval (left.value val) (right.value val)

def Expr.type : Expr V → Nat
  | .tt => 3
  | .ff => 4
  | .not _ => 5
  | .logic .and _ _ => 6
  | .logic .or _ _ => 7
  | .cmp .gt _ _ => 8
  | .cmp .lt _ _ => 9
  | .cmp .ge _ _ => 10
  | .cmp .le _ _ => 11
  | .cmp .eq _ _ => 12
  | .cmp .neq _ _ => 13

/-! ## Identifiers -/

/-- `struct syscall_arg`: the name an argument goes by, and its bytes. -/
structure SyscallArg where
  name : Option String
  size : Nat
  deriving DecidableEq, Repr

abbrev SyscallArgs := Fin 6 → SyscallArg

/-- An argument of the call. -/
structure Arg where
  idx : Fin 6
  size : Nat
  deriving DecidableEq, Repr

/-- The loop over the arguments; it may not meet an argument without a name. -/
def resolveIn (args : SyscallArgs) (id : String) : List (Fin 6) → Option Arg
  | [] => none
  | i :: is =>
    match (args i).name with
    | none => none
    | some name => if name = id then some ⟨i, (args i).size⟩ else resolveIn args id is

def resolveId (args : SyscallArgs) (id : String) : Option Arg :=
  resolveIn args id [0, 1, 2, 3, 4, 5]

/-- `expr_resolve_identifiers`; none if an assertion fails. -/
def Operand.resolve (args : SyscallArgs) : Operand Identifier → Option (Operand Arg)
  | .number n => some (.number n)
  | .var identifier => (resolveId args identifier.id).map .var
  | .bit op left right => do
    let left ← left.resolve args
    let right ← right.resolve args
    some (.bit op left right)

def Expr.resolve (args : SyscallArgs) : Expr Identifier → Option (Expr Arg)
  | .tt => some .tt
  | .ff => some .ff
  | .not child => (child.resolve args).map .not
  | .logic op left right => do
    let left ← left.resolve args
    let right ← right.resolve args
    some (.logic op left right)
  | .cmp op left right => do
    let left ← left.resolve args
    let right ← right.resolve args
    some (.cmp op left right)

/-! ## `expr_simplify` -/

/-- The last case of `expr_simplify`: `l` and `r` are the two operands, swapped or not. -/
def foldBit (op : BitOp) (left right l r : Operand Arg) : Operand Arg :=
  match r with
  | .number n =>
    if n = op.clobber then .number op.clobber
    else if n = op.identity then l
    else .bit op left right
  | _ => .bit op left right

/-- `expr_simplify` on a bit operation, its operands simplified. -/
def simplifyBit (op : BitOp) (left right : Operand Arg) : Operand Arg :=
  match left, right with
  | .number m, .number n => .number (op.eval m n)
  | _, _ =>
    if left.type < right.type then foldBit op left right right left
    else foldBit op left right left right

def Operand.simplify : Operand Arg → Operand Arg
  | .number n => .number n
  | .var v => .var v
  | .bit op left right => simplifyBit op left.simplify right.simplify

/-- What the comparison of an argument with itself comes to. -/
def CmpOp.eqVarsResult : CmpOp → Bool
  | .gt | .lt | .neq => false
  | .ge | .le | .eq => true

def Expr.ofBool (b : Bool) : Expr V := if b then .tt else .ff

/-- The same on a comparison.  The two sides are not swapped back, so the swap shows nowhere. -/
def simplifyCmp (op : CmpOp) (left right : Operand Arg) : Expr Arg :=
  match left, right with
  | .number m, .number n => .ofBool (op.eval m n)
  | .var u, .var v => if u.idx = v.idx then .ofBool op.eqVarsResult else .cmp op left right
  | _, _ => .cmp op left right

def LogicOp.dominant : LogicOp → Expr V
  | .and => .ff
  | .or => .tt

def LogicOp.recessive : LogicOp → Expr V
  | .and => .tt
  | .or => .ff

/-- The case of `&&` and `||`, the same way. -/
def foldLogic (op : LogicOp) (left right l r : Expr Arg) : Expr Arg :=
  if l = op.dominant ∨ r = op.dominant then op.dominant
  else if r = op.recessive then l
  else .logic op left right

/-- The same on `&&` and `||`. -/
def simplifyLogic (op : LogicOp) (left right : Expr Arg) : Expr Arg :=
  if left.type < right.type then foldLogic op left right right left
  else foldLogic op left right left right

def simplifyNot : Expr Arg → Expr Arg
  | .tt => .ff
  | .ff => .tt
  | child => .not child

/-- `expr_simplify`. -/
def Expr.simplify : Expr Arg → Expr Arg
  | .tt => .tt
  | .ff => .ff
  | .not child => simplifyNot child.simplify
  | .logic op left right => simplifyLogic op left.simplify right.simplify
  | .cmp op left right => simplifyCmp op left.simplify right.simplify

/-! ## Calls -/

/-- The value of an argument: its low word unless it has 8 bytes. -/
def Arg.value (args : Fin 6 → UInt64) (v : Arg) : UInt64 :=
  if v.size = 8 then args v.idx else (args v.idx).toUInt32.toUInt64

/-- `is_64bit`. -/
def Operand.is64bit : Operand Arg → Bool
  | .number n => decide (n > 0xffffffff)
  | .var v => v.size == 8
  | .bit _ left right => left.is64bit || right.is64bit

/-- The arguments of less than 8 bytes have nothing in the high word. -/
def Operand.ZeroExtended (args : Fin 6 → UInt64) : Operand Arg → Prop
  | .number _ => True
  | .var v => v.size ≠ 8 → Word.high.of (args v.idx) = 0
  | .bit _ left right => left.ZeroExtended args ∧ right.ZeroExtended args

/-- They have nothing there in any comparison that reads it. -/
def Expr.Clean (args : Fin 6 → UInt64) : Expr Arg → Prop
  | .tt | .ff => True
  | .not child => child.Clean args
  | .logic _ left right => left.Clean args ∧ right.Clean args
  | .cmp _ left right =>
    (left.is64bit || right.is64bit) = true → left.ZeroExtended args ∧ right.ZeroExtended args

instance Operand.decZeroExtended (args : Fin 6 → UInt64) :
    ∀ o : Operand Arg, Decidable (o.ZeroExtended args)
  | .number _ => .isTrue trivial
  | .var _ => inferInstanceAs (Decidable (_ → _))
  | .bit _ left right =>
    have := Operand.decZeroExtended args left
    have := Operand.decZeroExtended args right
    inferInstanceAs (Decidable (_ ∧ _))

instance Expr.decClean (args : Fin 6 → UInt64) : ∀ e : Expr Arg, Decidable (e.Clean args)
  | .tt | .ff => .isTrue trivial
  | .not child => Expr.decClean args child
  | .logic _ left right =>
    have := Expr.decClean args left
    have := Expr.decClean args right
    inferInstanceAs (Decidable (_ ∧ _))
  | .cmp _ _ _ => inferInstanceAs (Decidable (_ → _))

variable {args : Fin 6 → UInt64} {o left right : Operand Arg} {e : Expr Arg}

/-! ## Operands keep their value -/

theorem BitOp.eval_clobber {op : BitOp} {a : UInt64} : op.eval a op.clobber = op.clobber := by
  cases op with
  | bitOr => exact UInt64.or_neg_one
  | bitAnd => exact UInt64.and_zero

theorem BitOp.eval_identity {op : BitOp} {a : UInt64} : op.eval a op.identity = a := by
  cases op with
  | bitOr => exact UInt64.or_zero
  | bitAnd => exact UInt64.and_neg_one

theorem BitOp.eval_comm {op : BitOp} {a b : UInt64} : op.eval a b = op.eval b a := by
  cases op with
  | bitOr => exact UInt64.or_comm a b
  | bitAnd => exact UInt64.and_comm a b

theorem value_foldBit {op : BitOp} {l r : Operand Arg} {val : Arg → UInt64}
    (h : op.eval (left.value val) (right.value val) = op.eval (l.value val) (r.value val)) :
    (foldBit op left right l r).value val = op.eval (l.value val) (r.value val) := by
  unfold foldBit
  split
  · split
    case isTrue hn =>
        subst hn
        exact BitOp.eval_clobber.symm
    case isFalse =>
        split
        case isTrue hn =>
            subst hn
            exact BitOp.eval_identity.symm
        case isFalse => exact h
  · exact h

theorem value_simplifyBit {op : BitOp} {val : Arg → UInt64} :
    (simplifyBit op left right).value val = op.eval (left.value val) (right.value val) := by
  unfold simplifyBit
  split
  · rfl
  · split
    case isTrue =>
        rw [value_foldBit BitOp.eval_comm]
        exact BitOp.eval_comm
    case isFalse => exact value_foldBit rfl

theorem Operand.value_simplify {val : Arg → UInt64} : o.simplify.value val = o.value val := by
  induction o with
  | number | var => rfl
  | bit op left right ihl ihr =>
      rw [Operand.simplify, value_simplifyBit, ihl, ihr]
      rfl

/-! ## Clean calls stay clean -/

/-- A folded number is of 64 bits only if one of the two was. -/
theorem BitOp.eval_small {op : BitOp} {m n : UInt64} (hm : ¬ m > 0xffffffff)
    (hn : ¬ n > 0xffffffff) : ¬ op.eval m n > 0xffffffff := by
  have hmax : (0xffffffff : UInt64).toNat = 2 ^ 32 - 1 := rfl
  simp only [gt_iff_lt, UInt64.lt_iff_toNat_lt, hmax] at hm hn ⊢
  have hm' : m.toNat < 2 ^ 32 := by omega
  have hn' : n.toNat < 2 ^ 32 := by omega
  cases op with
  | bitOr =>
      have h := Nat.or_lt_two_pow hm' hn'
      rw [BitOp.eval, UInt64.toNat_or]
      omega
  | bitAnd =>
      have h := Nat.and_lt_two_pow m.toNat hn'
      rw [BitOp.eval, UInt64.toNat_and]
      omega

/-- What holds of `o'` if it takes the place of `o`: no wider, and clean if `o` is. -/
structure Operand.Within (args : Fin 6 → UInt64) (o' o : Operand Arg) : Prop where
  is64bit : o'.is64bit = true → o.is64bit = true
  clean : o.ZeroExtended args → o'.ZeroExtended args

theorem Operand.Within.refl : o.Within args o := ⟨id, id⟩

theorem Operand.Within.trans {o' o'' : Operand Arg} (h : o''.Within args o')
    (h' : o'.Within args o) : o''.Within args o :=
  ⟨fun hw => h'.is64bit (h.is64bit hw), fun hc => h.clean (h'.clean hc)⟩

theorem Operand.within_left {op : BitOp} : left.Within args (.bit op left right) := by
  constructor
  · intro h
    rw [is64bit, h, Bool.true_or]
  · intro h
    exact h.1

theorem Operand.within_right {op : BitOp} : right.Within args (.bit op left right) := by
  constructor
  · intro h
    rw [is64bit, h, Bool.or_true]
  · intro h
    exact h.2

theorem Operand.within_bit {op : BitOp} {l r : Operand Arg} (hl : l.Within args left)
    (hr : r.Within args right) : (Operand.bit op l r).Within args (.bit op left right) := by
  constructor
  · intro h
    rw [is64bit, Bool.or_eq_true] at h ⊢
    exact h.imp hl.is64bit hr.is64bit
  · intro h
    exact ⟨hl.clean h.1, hr.clean h.2⟩

theorem Operand.within_number {op : BitOp} {m n : UInt64} :
    (Operand.number (op.eval m n)).Within args (.bit op (.number m) (.number n)) := by
  constructor
  · intro h
    simp only [is64bit, decide_eq_true_eq, Bool.or_eq_true] at h ⊢
    by_contra hmn
    rw [not_or] at hmn
    exact BitOp.eval_small hmn.1 hmn.2 h
  · intro _
    trivial

theorem within_foldBit {op : BitOp} {l r : Operand Arg}
    (hl : l.Within args (.bit op left right)) (hr : r.Within args (.bit op left right)) :
    (foldBit op left right l r).Within args (.bit op left right) := by
  unfold foldBit
  split
  · split
    case isTrue hn => exact hn ▸ hr
    case isFalse =>
        split
        case isTrue => exact hl
        case isFalse => exact .refl
  · exact .refl

theorem within_simplifyBit {op : BitOp} :
    (simplifyBit op left right).Within args (.bit op left right) := by
  unfold simplifyBit
  split
  · exact Operand.within_number
  · split
    case isTrue => exact within_foldBit Operand.within_right Operand.within_left
    case isFalse => exact within_foldBit Operand.within_left Operand.within_right

theorem Operand.within_simplify : o.simplify.Within args o := by
  induction o with
  | number | var => exact .refl
  | bit op left right ihl ihr => exact within_simplifyBit.trans (within_bit ihl ihr)

/-! ## Conditions keep their meaning -/

/-- What an argument comes to, in a comparison that reads the high word. -/
theorem Arg.value_of_zeroExtended {v : Arg} (h : (Operand.var v).ZeroExtended args) :
    v.value args = args v.idx := by
  unfold Arg.value
  split
  case isTrue => rfl
  case isFalse hs =>
      have hlt := Bpf.high_eq_zero_iff.mp (h hs)
      rw [← UInt64.toNat_inj, UInt32.toNat_toUInt64, UInt64.toNat_toUInt32]
      exact Nat.mod_eq_of_lt hlt

theorem CmpOp.eval_self {op : CmpOp} {a : UInt64} : op.eval a a = op.eqVarsResult := by
  cases op with
  | gt | lt | ge | le | eq | neq => simp [CmpOp.eval, CmpOp.eqVarsResult]

@[simp] theorem Expr.holds_ofBool {b : Bool} {val : V → UInt64} :
    (Expr.ofBool b).holds val = b := by
  cases b with
  | true | false => rfl

theorem Expr.clean_ofBool {b : Bool} : (Expr.ofBool b).Clean args := by
  cases b with
  | true | false => trivial

/-- The same argument has one value, even where the table gives it two sizes. -/
theorem Arg.value_eq {op : CmpOp} {u v : Arg} (huv : u.idx = v.idx)
    (hc : (Expr.cmp op (.var u) (.var v)).Clean args) : u.value args = v.value args := by
  by_cases h8 : u.size = 8 ∨ v.size = 8
  · have hz : (Operand.var u).ZeroExtended args ∧ (Operand.var v).ZeroExtended args := by
      apply hc
      simpa [Operand.is64bit] using h8
    rw [value_of_zeroExtended hz.1, value_of_zeroExtended hz.2, huv]
  · rw [not_or] at h8
    rw [Arg.value, Arg.value, if_neg h8.1, if_neg h8.2, huv]

theorem holds_simplifyCmp {op : CmpOp} (hc : (Expr.cmp op left right).Clean args) :
    (simplifyCmp op left right).holds (Arg.value args) =
      op.eval (left.value (Arg.value args)) (right.value (Arg.value args)) := by
  unfold simplifyCmp
  split
  · exact Expr.holds_ofBool
  · split
    case isTrue huv =>
        rw [Expr.holds_ofBool, Operand.value, Operand.value, Arg.value_eq huv hc, CmpOp.eval_self]
    case isFalse => rfl
  · rfl

theorem clean_simplifyCmp {op : CmpOp} (hc : (Expr.cmp op left right).Clean args) :
    (simplifyCmp op left right).Clean args := by
  unfold simplifyCmp
  split
  · exact Expr.clean_ofBool
  · split
    case isTrue => exact Expr.clean_ofBool
    case isFalse => exact hc
  · exact hc

/-- A comparison of operands that take the place of others. -/
theorem Expr.clean_cmp {op : CmpOp} {l r : Operand Arg} (hl : l.Within args left)
    (hr : r.Within args right) (hc : (Expr.cmp op left right).Clean args) :
    (Expr.cmp op l r).Clean args := by
  intro hw
  rw [Bool.or_eq_true] at hw
  have hz := hc (by rw [Bool.or_eq_true]; exact hw.imp hl.is64bit hr.is64bit)
  exact ⟨hl.clean hz.1, hr.clean hz.2⟩

theorem LogicOp.eval_comm {op : LogicOp} {a b : Bool} : op.eval a b = op.eval b a := by
  cases op with
  | and => exact Bool.and_comm a b
  | or => exact Bool.or_comm a b

theorem holds_foldLogic {op : LogicOp} {l r left right : Expr Arg} {val : Arg → UInt64}
    (h : op.eval (left.holds val) (right.holds val) = op.eval (l.holds val) (r.holds val)) :
    (foldLogic op left right l r).holds val = op.eval (l.holds val) (r.holds val) := by
  unfold foldLogic
  split
  case isTrue hd =>
      rcases hd with rfl | rfl
      · cases op with
        | and | or => rfl
      · cases op with
        | and => exact (Bool.and_false _).symm
        | or => exact (Bool.or_true _).symm
  case isFalse =>
      split
      case isTrue hr =>
          subst hr
          cases op with
          | and => exact (Bool.and_true _).symm
          | or => exact (Bool.or_false _).symm
      case isFalse => exact h

theorem clean_foldLogic {op : LogicOp} {l r left right : Expr Arg} (hl : l.Clean args)
    (h : (Expr.logic op left right).Clean args) : (foldLogic op left right l r).Clean args := by
  unfold foldLogic
  split
  case isTrue =>
      cases op with
      | and | or => trivial
  case isFalse =>
      split
      case isTrue => exact hl
      case isFalse => exact h

theorem holds_simplifyNot {val : Arg → UInt64} : (simplifyNot e).holds val = !e.holds val := by
  cases e with
  | tt | ff | not | logic | cmp => rfl

/-- **Simplified conditions mean what they meant.** -/
theorem Expr.simplify_holds (hc : e.Clean args) :
    e.simplify.holds (Arg.value args) = e.holds (Arg.value args) := by
  induction e with
  | tt | ff => rfl
  | not child ih =>
      rw [simplify, holds_simplifyNot, ih hc]
      rfl
  | logic op left right ihl ihr =>
      rw [simplify, simplifyLogic, holds, ← ihl hc.1, ← ihr hc.2]
      split
      case isTrue =>
          rw [holds_foldLogic LogicOp.eval_comm]
          exact LogicOp.eval_comm
      case isFalse => exact holds_foldLogic rfl
  | cmp op left right =>
      have hc' : (Expr.cmp op left.simplify right.simplify).Clean args :=
        clean_cmp Operand.within_simplify Operand.within_simplify hc
      rw [simplify, holds_simplifyCmp hc', Operand.value_simplify, Operand.value_simplify]
      rfl

theorem Expr.simplify_clean (hc : e.Clean args) : e.simplify.Clean args := by
  induction e with
  | tt | ff => trivial
  | not child ih =>
      have h := ih hc
      rw [simplify]
      revert h
      cases child.simplify with
      | tt | ff | not | logic | cmp => exact id
  | logic op left right ihl ihr =>
      have h : (Expr.logic op left.simplify right.simplify).Clean args := ⟨ihl hc.1, ihr hc.2⟩
      rw [simplify, simplifyLogic]
      split
      case isTrue => exact clean_foldLogic h.2 h
      case isFalse => exact clean_foldLogic h.1 h
  | cmp op left right =>
      exact clean_simplifyCmp
        (clean_cmp Operand.within_simplify Operand.within_simplify hc)

/-! ## No constants are left -/

/-- A condition made of comparisons only. -/
def Expr.Plain : Expr V → Prop
  | .tt | .ff => False
  | .not child => child.Plain
  | .logic _ left right => left.Plain ∧ right.Plain
  | .cmp _ _ _ => True

/-- Decided, or without constants. -/
def Expr.Reduced (e : Expr V) : Prop := e = .tt ∨ e = .ff ∨ e.Plain

theorem Expr.reduced_ofBool {b : Bool} : (Expr.ofBool b : Expr V).Reduced := by
  cases b with
  | true => exact .inl rfl
  | false => exact .inr (.inl rfl)

theorem Expr.Plain.le_type (h : e.Plain) : 5 ≤ e.type := by
  cases e with
  | tt | ff => exact h.elim
  | not => exact Nat.le_refl 5
  | logic op =>
      cases op with
      | and | or => exact Nat.le_add_left 5 _
  | cmp op =>
      cases op with
      | gt | lt | ge | le | eq | neq => exact Nat.le_add_left 5 _

theorem Expr.Reduced.plain (h : e.Reduced) (ht : 5 ≤ e.type) : e.Plain := by
  rcases h with rfl | rfl | h
  · exact absurd ht (by decide)
  · exact absurd ht (by decide)
  · exact h

theorem LogicOp.constants (op : LogicOp) :
    op.dominant = (.tt : Expr V) ∧ op.recessive = (.ff : Expr V) ∨
      op.dominant = (.ff : Expr V) ∧ op.recessive = (.tt : Expr V) := by
  cases op with
  | and => exact .inr ⟨rfl, rfl⟩
  | or => exact .inl ⟨rfl, rfl⟩

theorem reduced_foldLogic {op : LogicOp} {left right l r : Expr Arg} (hl : l.Reduced)
    (hr : r.Reduced) (hle : r.type ≤ l.type)
    (h : l.Plain → r.Plain → (Expr.logic op left right).Plain) :
    (foldLogic op left right l r).Reduced := by
  unfold foldLogic
  split
  case isTrue =>
      cases op with
      | and => exact .inr (.inl rfl)
      | or => exact .inl rfl
  case isFalse hd =>
      split
      case isTrue => exact hl
      case isFalse hrec =>
          rw [not_or] at hd
          -- `r` is no constant, and `l` is not of a lesser kind
          have hrp : r.Plain := by
            rcases op.constants (V := Arg) with ⟨h₁, h₂⟩ | ⟨h₁, h₂⟩
            · rw [h₁] at hd
              rw [h₂] at hrec
              exact hr.resolve_left hd.2 |>.resolve_left hrec
            · rw [h₁] at hd
              rw [h₂] at hrec
              exact hr.resolve_left hrec |>.resolve_left hd.2
          exact .inr (.inr (h (hl.plain (Nat.le_trans hrp.le_type hle)) hrp))

/-- **A simplified condition is decided, or has no constant in it.** -/
theorem Expr.simplify_reduced : e.simplify.Reduced := by
  induction e with
  | tt => exact .inl rfl
  | ff => exact .inr (.inl rfl)
  | not child ih =>
      rw [simplify]
      rcases ih with h | h | h
      · exact .inr (.inl (by rw [h]; rfl))
      · exact .inl (by rw [h]; rfl)
      · refine .inr (.inr ?_)
        revert h
        cases child.simplify with
        | tt | ff => exact False.elim
        | not | logic | cmp => exact id
  | logic op left right ihl ihr =>
      rw [simplify, simplifyLogic]
      split
      case isTrue hlt => exact reduced_foldLogic ihr ihl (Nat.le_of_lt hlt) (fun hr hl => ⟨hl, hr⟩)
      case isFalse hlt =>
        exact reduced_foldLogic ihl ihr (Nat.not_lt.mp hlt) (fun hl hr => ⟨hl, hr⟩)
  | cmp op left right =>
      rw [simplify]
      unfold simplifyCmp
      split
      · exact reduced_ofBool
      · split
        case isTrue => exact reduced_ofBool
        case isFalse => exact .inr (.inr trivial)
      · exact .inr (.inr trivial)

/-- **`expr_simplify`** keeps what a condition says of the calls it is clean for, and leaves no
constant but the whole. -/
theorem Expr.simplify_correct (hc : e.Clean args) :
    e.simplify.holds (Arg.value args) = e.holds (Arg.value args) ∧ e.simplify.Clean args ∧
      e.simplify.Reduced :=
  ⟨Expr.simplify_holds hc, Expr.simplify_clean hc, Expr.simplify_reduced⟩

/-- `!(fd == 3 && (mode & 0) == 0)`, with `mode` a word. -/
theorem Expr.simplify_correct_open :
    ((Expr.not (.logic .and (.cmp .eq (.var ⟨0, 4⟩) (.number 3))
        (.cmp .eq (.bit .bitAnd (.var ⟨1, 4⟩) (.number 0)) (.number 0)))).simplify).holds
        (Arg.value fun _ => 3) = false ∧
      ((Expr.not (.logic .and (.cmp .eq (.var ⟨0, 4⟩) (.number 3))
        (.cmp .eq (.bit .bitAnd (.var ⟨1, 4⟩) (.number 0)) (.number 0)))).simplify).Reduced := by
  have hclean : (Expr.not (.logic .and (.cmp .eq (.var (⟨0, 4⟩ : Arg)) (.number 3))
      (.cmp .eq (.bit .bitAnd (.var ⟨1, 4⟩) (.number 0)) (.number 0)))).Clean fun _ => 3 := by
    decide
  obtain ⟨hholds, -, hreduced⟩ := Expr.simplify_correct hclean
  exact ⟨hholds.trans (by decide), hreduced⟩

end Kafel
