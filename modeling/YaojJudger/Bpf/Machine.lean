/-
# `YaojJudger.Bpf.Machine` — classic BPF, for programs written back to front

Jumps go forward only, so a code generator emits the last instruction first:
what a jump leads to is there before the jump.  The buffer is a list with the
newest instruction at the head, which is the program in the order it is run in.

| | |
| :-- | :-- |
| to emit | cons |
| a location | how many instructions were there before, counted from the end |
| a jump's offset | how many instructions lie between it and the target |

`run` takes the number of instructions to skip, which makes it structural.  Two
facts carry everything built on it: a location means the same however much is
emitted later (`runAt_append`), and straight code is run through
(`run_straight`).
-/
import Mathlib.Data.List.Basic

namespace Bpf

/-! ## Instructions -/

inductive AluOp where
  | and
  | or
  deriving DecidableEq, Repr

def AluOp.eval : AluOp → UInt32 → UInt32 → UInt32
  | .and, a, b => a &&& b
  | .or, a, b => a ||| b

inductive JmpOp where
  | jeq
  | jgt
  | jge
  | jset
  deriving DecidableEq, Repr

def JmpOp.eval : JmpOp → UInt32 → UInt32 → Bool
  | .jeq, a, b => a == b
  | .jgt, a, b => decide (b < a)
  | .jge, a, b => decide (b ≤ a)
  | .jset, a, b => a &&& b != 0

/-- The second operand: a constant, or the index register. -/
inductive Src where
  | k (v : UInt32)
  | x
  deriving DecidableEq, Repr

inductive Instr where
  | ldAbs (off : Nat)
  | ldImm (k : UInt32)
  | ldxMem (i : Nat)
  | st (i : Nat)
  | alu (op : AluOp) (src : Src)
  | tax
  | ja (off : Nat)
  | jmp (op : JmpOp) (src : Src) (jt jf : Nat)
  | ret (k : UInt32)
  deriving DecidableEq, Repr

/-- The accumulator, the index register and the scratch memory. -/
structure St where
  a : UInt32
  x : UInt32
  mem : Nat → UInt32

def St.init : St := ⟨0, 0, fun _ => 0⟩

def Src.eval (s : St) : Src → UInt32
  | .k v => v
  | .x => s.x

/-- An instruction that goes on to the next one. -/
def Instr.isStraight : Instr → Bool
  | .ja _ | .jmp .. | .ret _ => false
  | _ => true

def Instr.isRet : Instr → Bool
  | .ret _ => true
  | _ => false

/-- What a straight instruction does, on the data `d`. -/
def Instr.step (d : Nat → UInt32) (s : St) : Instr → St
  | .ldAbs off => { s with a := d off }
  | .ldImm k => { s with a := k }
  | .ldxMem i => { s with x := s.mem i }
  | .st i => { s with mem := fun j => if j = i then s.a else s.mem j }
  | .alu op src => { s with a := op.eval s.a (src.eval s) }
  | .tax => { s with x := s.a }
  | .ja _ | .jmp .. | .ret _ => s

/-- Skip `n` instructions and run; none if the end is run into. -/
def run (d : Nat → UInt32) : List Instr → Nat → St → Option UInt32
  | [], _, _ => none
  | _ :: p, n + 1, s => run d p n s
  | i :: p, 0, s =>
    match i with
    | .ret k => some k
    | .ja off => run d p off s
    | .jmp op src jt jf => run d p (if op.eval s.a (src.eval s) then jt else jf) s
    | i => run d p 0 (i.step d s)

variable {d : Nat → UInt32} {p q : List Instr} {s : St} {i : Instr} {n : Nat}

@[simp] theorem run_skip : run d (i :: p) (n + 1) s = run d p n s := by
  rw [run]

@[simp] theorem run_ret {k : UInt32} : run d (.ret k :: p) 0 s = some k := by
  rw [run]

@[simp] theorem run_ja {off : Nat} : run d (.ja off :: p) 0 s = run d p off s := by
  rw [run]

@[simp] theorem run_jmp {op : JmpOp} {src : Src} {jt jf : Nat} :
    run d (.jmp op src jt jf :: p) 0 s =
      run d p (if op.eval s.a (src.eval s) then jt else jf) s := by
  rw [run]

theorem run_step (h : i.isStraight = true) : run d (i :: p) 0 s = run d p 0 (i.step d s) := by
  cases i with
  | ja | jmp | ret => cases h
  | ldAbs | ldImm | ldxMem | st | alu | tax => rw [run] <;> simp

/-- Skipping all that is in front. -/
theorem run_append_skip : run d (q ++ p) (q.length + n) s = run d p n s := by
  induction q with
  | nil => rw [List.nil_append, List.length_nil, Nat.zero_add]
  | cons i q ih =>
      rw [List.cons_append, List.length_cons, Nat.add_right_comm, run_skip, ih]

/-! ## Straight code -/

/-- The state after the straight code `q`. -/
def exec (d : Nat → UInt32) (q : List Instr) (s : St) : St := q.foldl (Instr.step d) s

@[simp] theorem exec_nil : exec d [] s = s := rfl

@[simp] theorem exec_cons : exec d (i :: q) s = exec d q (i.step d s) := rfl

theorem exec_append : exec d (q ++ p) s = exec d p (exec d q s) := List.foldl_append

theorem run_straight (h : q.all Instr.isStraight = true) :
    run d (q ++ p) 0 s = run d p 0 (exec d q s) := by
  induction q generalizing s with
  | nil => rfl
  | cons i q ih =>
      rw [List.all_cons, Bool.and_eq_true] at h
      rw [List.cons_append, run_step h.1, ih h.2, exec_cons]

/-! ## Locations -/

/-- How many instructions lie before location `n` is reached from the head. -/
def ahead (p : List Instr) (n : Nat) : Nat := p.length - 1 - n

/-- To run from location `n` on. -/
def runAt (d : Nat → UInt32) (p : List Instr) (n : Nat) (s : St) : Option UInt32 :=
  run d p (ahead p n) s

theorem runAt_append (h : n < p.length) : runAt d (q ++ p) n s = runAt d p n s := by
  have hd : ahead (q ++ p) n = q.length + ahead p n := by
    unfold ahead
    rw [List.length_append]
    omega
  rw [runAt, hd, run_append_skip, runAt]

theorem runAt_head : runAt d (i :: p) p.length s = run d (i :: p) 0 s := by
  rw [runAt, ahead, List.length_cons, Nat.add_sub_cancel, Nat.sub_self]

theorem runAt_suffix (h : p <:+ q) (hn : n < p.length) : runAt d q n s = runAt d p n s := by
  obtain ⟨r, rfl⟩ := h
  exact runAt_append hn

/-- The instruction at a location. -/
def instrAt (p : List Instr) (n : Nat) : Option Instr := p.reverse[n]?

theorem instrAt_append (h : instrAt p n = some i) : instrAt (q ++ p) n = some i := by
  unfold instrAt at h ⊢
  rw [List.reverse_append]
  rw [List.getElem?_append_left (List.getElem?_eq_some_iff.mp h).1]
  exact h

theorem instrAt_head : instrAt (i :: p) p.length = some i := by
  unfold instrAt
  rw [List.reverse_cons, List.getElem?_append_right (by simp)]
  rw [List.length_reverse, Nat.sub_self]
  rfl

theorem lt_of_instrAt (h : instrAt p n = some i) : n < p.length := by
  have hlt := (List.getElem?_eq_some_iff.mp h).1
  rwa [List.length_reverse] at hlt

theorem instrAt_eq_getElem? (h : n < p.length) : instrAt p n = p[ahead p n]? := by
  unfold instrAt ahead
  exact List.getElem?_reverse h

theorem run_of_getElem? {k : UInt32} (h : p[n]? = some (.ret k)) : run d p n s = some k := by
  induction p generalizing n with
  | nil => cases h
  | cons i p ih =>
      cases n with
      | zero =>
          obtain rfl := Option.some.inj h
          exact run_ret
      | succ n =>
          rw [run_skip]
          exact ih h

theorem runAt_ret {k : UInt32} (h : instrAt p n = some (.ret k)) : runAt d p n s = some k := by
  rw [instrAt_eq_getElem? (lt_of_instrAt h)] at h
  exact run_of_getElem? h

/-! ## Where to go on -/

/-- An exit that need not have been emitted, or a location. -/
inductive Loc (ε : Type) where
  | exit (e : ε)
  | code (n : Nat)
  deriving DecidableEq, Repr

variable {ε : Type} {value : ε → UInt32} {l : Loc ε}

namespace Loc

/-- A location is in the buffer. -/
def Valid (p : List Instr) : Loc ε → Prop
  | exit _ => True
  | code n => n < p.length

/-- A location not in a buffer of `n` instructions: one emitted since. -/
def isAfter (n : Nat) : Loc ε → Bool
  | exit _ => false
  | code m => decide (n ≤ m)

/-- What comes of going on there. -/
def run (value : ε → UInt32) (d : Nat → UInt32) (p : List Instr) (s : St) : Loc ε → Option UInt32
  | exit e => some (value e)
  | code n => runAt d p n s

theorem Valid.append (h : l.Valid p) : l.Valid (q ++ p) := by
  cases l with
  | exit => trivial
  | code n => exact Nat.lt_of_lt_of_le h (by rw [List.length_append]; omega)

theorem run_append (h : l.Valid p) : l.run value d (q ++ p) s = l.run value d p s := by
  cases l with
  | exit => rfl
  | code n => exact runAt_append h

theorem Valid.suffix (h : p <:+ q) (hl : l.Valid p) : l.Valid q := by
  obtain ⟨r, rfl⟩ := h
  exact hl.append

theorem run_suffix (h : p <:+ q) (hl : l.Valid p) : l.run value d q s = l.run value d p s := by
  obtain ⟨r, rfl⟩ := h
  exact run_append hl

variable {P Q : St → Prop} {e : ε}

/-- From every state in `P`, going on at `l` comes to the exit `e`. -/
def Leads (value : ε → UInt32) (d : Nat → UInt32) (p : List Instr) (P : St → Prop) (l : Loc ε)
    (e : ε) : Prop :=
  ∀ s, P s → l.run value d p s = some (value e)

theorem leads_exit : Leads value d p P (.exit e) e := by
  intro s _
  rfl

theorem Leads.suffix (hs : p <:+ q) (hl : l.Valid p) (h : l.Leads value d p P e) :
    l.Leads value d q P e := by
  intro s hP
  rw [run_suffix hs hl]
  exact h s hP

theorem Leads.imp (h : l.Leads value d p P e) (hQ : ∀ s, Q s → P s) : l.Leads value d p Q e := by
  intro s hs
  exact h s (hQ s hs)

end Loc

/-! ## A jump -/

/-- A jump in front of `p` to two of its locations. -/
def jmpTo (p : List Instr) (op : JmpOp) (src : Src) (t f : Nat) : Instr :=
  .jmp op src (ahead p t) (ahead p f)

theorem run_jmpTo {op : JmpOp} {src : Src} {t f : Nat} :
    run d (jmpTo p op src t f :: p) 0 s =
      if op.eval s.a (src.eval s) then runAt d p t s else runAt d p f s := by
  rw [jmpTo, run_jmp]
  by_cases h : op.eval s.a (src.eval s) = true
  · rw [if_pos h, if_pos h, runAt]
  · rw [if_neg h, if_neg h, runAt]

end Bpf
