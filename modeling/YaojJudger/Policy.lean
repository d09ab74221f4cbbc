/-
# `YaojJudger.Policy` — placeholders, compilation and installation of a policy

The second half of `lib/policy.c`.  A policy text may refer to a runner
argument by `%0s`, `%1s`, …; before compilation each such placeholder is
replaced by the address of the argument, printed with `%p`.

The loop is modelled with the variables of the source: `pos` is `s - content`,
`las` the end of the last placeholder, `num_str` the ten-byte buffer the
digits are copied into.  Two things about that buffer are kept exactly as they
are in C:

* it is not initialised, and lives through all iterations;
* for `n` digits, `strncpy` fills the bytes `0 … n-1` and the terminator goes
  to byte `n + 1`, so byte `n` keeps what was there.

A write behind byte 9 is undefined behaviour and ends the loop as `overrun`.

`selected` is a ghost: the argument numbers chosen so far.
-/
import YaojJudger.Context

namespace YaojJudger

open Posix

/-! ## `regexec` for `%[0-9][0-9]*s` -/

def isDigit (b : UInt8) : Bool := 48 ≤ b && b ≤ 57

/-- The length of the match at the head of the text, if there is one.  There is
at most one, since `s` is not a digit. -/
def matchHere : Bytes → Option Nat
  | 37 :: rest =>
      match rest.takeWhile isDigit, rest.dropWhile isDigit with
      | [], _ => none
      | ds, 115 :: _ => some (ds.length + 2)
      | _, _ => none
  | _ => none

/-- Start and end of the leftmost match. -/
def regexec : Bytes → Option (Nat × Nat)
  | [] => none
  | b :: s =>
      match matchHere (b :: s) with
      | some n => some (0, n)
      | none => (regexec s).map fun m => (m.1 + 1, m.2 + 1)

/-! ## `atoi`, `strncpy` and `%p` -/

/-- The number a string of decimal digits stands for. -/
def decimal (ds : Bytes) : Nat := ds.foldl (fun n b => 10 * n + (b.toNat - 48)) 0

def atoi (s : Bytes) : Int32 := Int32.ofNat (decimal (s.takeWhile isDigit))

/-- `strncpy(num_str, digits, len - 2); num_str[len - 1] = 0`, where `digits`
has `len - 2` bytes; `none` when a byte would be written behind the buffer. -/
def storeDigits (numStr : Vector UInt8 10) (digits : Bytes) : Option (Vector UInt8 10) :=
  if digits.length + 1 < 10 then
    some (Vector.ofFn fun i =>
      if i.val = digits.length + 1 then 0 else digits.getD i numStr[i])
  else none

/-- A hexadecimal digit, in lower case. -/
def hexDigit (n : Nat) : UInt8 := if n < 10 then UInt8.ofNat (48 + n) else UInt8.ofNat (87 + n)

/-- The low `n` hexadecimal digits of `a`, without leading zeros. -/
def hexDigits : Nat → Nat → Bytes
  | 0, _ => []
  | n + 1, a => if a < 16 then [hexDigit a] else hexDigits n (a / 16) ++ [hexDigit (a % 16)]

/-- `%p` of an address that is not null: `0x` and the digits. -/
def printPtr (addr : UInt64) : Bytes := 48 :: 120 :: hexDigits 16 addr.toNat

/-! ## `policy_identifier_handler` -/

/-- The variables of the loop. -/
structure IdentState where
  pos : Nat
  las : Nat
  resLen : Int
  result : Bytes
  numStr : Vector UInt8 10
  selected : List Nat

/-- How the loop ends. -/
inductive IdentOut where
  | overrun
  | error (errnum : Int)
  | done (res : Bytes) (selected : List Nat)
  deriving DecidableEq

theorem matchHere_bound {s : Bytes} {n : Nat} (h : matchHere s = some n) :
    0 < n ∧ n ≤ s.length := by
  unfold matchHere at h
  split at h
  case h_2 => cases h
  case h_1 rest =>
    split at h
    case h_1 => cases h
    case h_3 => cases h
    case h_2 hd _ =>
      obtain rfl := Option.some.inj h
      have hlen : (rest.takeWhile isDigit ++ rest.dropWhile isDigit).length = rest.length := by
        rw [List.takeWhile_append_dropWhile]
      rw [hd] at hlen
      simp only [List.length_append, List.length_cons] at hlen ⊢
      omega

theorem regexec_bound : ∀ {s : Bytes} {so eo : Nat}, regexec s = some (so, eo) →
    so < eo ∧ eo ≤ s.length
  | [], _, _, h => nomatch h
  | b :: s, so, eo, h => by
      unfold regexec at h
      split at h
      case h_1 n hn =>
        obtain ⟨rfl, rfl⟩ := Prod.mk.inj (Option.some.inj h)
        exact matchHere_bound hn
      case h_2 =>
        obtain ⟨⟨so', eo'⟩, hm, he⟩ := Option.map_eq_some_iff.mp h
        obtain ⟨rfl, rfl⟩ := Prod.mk.inj he
        have := regexec_bound hm
        simp only [List.length_cons]
        omega

def identLoop (content : Bytes) (argv : List Arg) (st : IdentState) : IdentOut :=
  match _h : regexec (content.drop st.pos) with
  | some (so, eo) =>
      let offset := so + st.pos
      let len := eo - so
      match storeDigits st.numStr ((content.drop (offset + 1)).take (len - 2)) with
      | none => .overrun
      | some numStr =>
          let num := (atoi numStr.toList).toInt
          if 0 ≤ num ∧ num < argv.length then
            let address :=
              match argv[num.toNat]? with
              | some a => printPtr a.addr
              | none => []
            let extraLen : Int := (offset : Int) - st.las + address.length
            identLoop content argv
              { pos := st.pos + eo
                las := offset + len
                resLen := st.resLen + extraLen
                result := st.result ++ (content.drop st.las).take (offset - st.las) ++ address
                numStr := numStr
                selected := st.selected ++ [num.toNat] }
          else .error ePolIdt
  | none =>
      .done (st.result ++ (content.drop st.las).take (content.length - st.las)) st.selected
termination_by content.length - st.pos
decreasing_by
  have := regexec_bound _h
  simp only [List.length_drop] at this
  omega

/-- `numStr` is what the uninitialised buffer holds.  Compiling the constant
pattern and allocating memory do not fail. -/
def policyIdentifierHandler (content : Bytes) (argv : List Arg) (numStr : Vector UInt8 10) :
    IdentOut :=
  identLoop content argv
    { pos := 0, las := 0, resLen := 1, result := [], numStr := numStr, selected := [] }

/-! ## Compilation and installation -/

def compilePolicyBeforeFork : Code Int := do
  let m ← Code.get
  match m.ctxt.pctxt.content with
  | none => Code.undefined
  | some content =>
      let numStr ← ask .numStr
      match policyIdentifierHandler (cString content) m.ctxt.ectxt.argv numStr with
      | .overrun => Code.undefined
      | .error errnum =>
          let _ ← yreturn errnum
          yreturnYerrno
      | .done escContent _ =>
          match ← ask (.kafelCompile escContent m.ctxt.pctxt.dirname) with
          | none => yreturn eKafel
          | some prog =>
              modifyCtxt fun ctxt => { ctxt with pctxt := { ctxt.pctxt with prog := prog } }
              return 0

def applyPolicyProg (prog : SockFprog) : Code Int := do
  if ← Code.call .setNoNewPrivs then
    if ← Code.call (.setSeccomp prog) then return 0
    else yreturn eAppPol
  else yreturn eAppPol

def applyPolicy : Code Int := do
  let m ← Code.get
  applyPolicyProg m.ctxt.pctxt.prog

end YaojJudger
