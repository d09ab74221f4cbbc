/-
# `YaojJudger.Context` — the data of the judger

The structures of `judger.h`, `common.h`, `hook.h`, `lib/policy.h` and
`lib/resource.h`, the error numbers of `yerr.h`, and the memory a judgement
works on.

C integers keep their width: `int` fields are `Int32`, `long` fields `Int64`,
and their arithmetic wraps.  Return values and error numbers, which are small
constants, are `Int`.  A C string is the list of its bytes before the
terminating 0; a `char *` that may be `NULL` is an `Option`.

An `argv` entry keeps its address beside its text, since a policy refers to
the runner's arguments by address.  `argc` is the length of `argv`, as
`yjudger_set_runner` leaves it.
-/
import YaojJudger.Posix.Code
import Mathlib

namespace YaojJudger

open Posix

abbrev Bytes := List UInt8

/-- A string ends at its first 0. -/
def cString (buffer : Bytes) : Bytes := buffer.takeWhile (· ≠ 0)

/-! ## `yerr.h` -/

abbrev eHelperInvalidLim : Int := 2
abbrev eErrfd : Int := 3
abbrev eDup : Int := 4
abbrev ePipe : Int := 5
abbrev eArgc : Int := 6
abbrev eFork : Int := 7
abbrev eSetpgid : Int := 8
abbrev eIntactExec : Int := 10
abbrev eChild : Int := 11
abbrev eWait : Int := 12
abbrev eFilefd : Int := 13
abbrev eRscLim : Int := 15
abbrev eSetrlimit : Int := 16
abbrev eGetrusage : Int := 17
abbrev eFcntl : Int := 19
abbrev eFp : Int := 20
abbrev eError : Int := 21
abbrev ePolIdt : Int := 22
abbrev eKafel : Int := 23
abbrev eAppPol : Int := 24
abbrev eExec : Int := 25
abbrev eBultinPol : Int := 26

/-! ## `judger.h` -/

abbrev kb : Int32 := 1024
abbrev mb : Int32 := 1024 * kb

/-- `enum result_code`. -/
inductive ResultCode where
  | ok | re | mle | tle | ole | se | dsc | ece
  deriving DecidableEq, Repr

def ResultCode.toNat : ResultCode → Nat
  | .ok => 0 | .re => 1 | .mle => 2 | .tle => 3 | .ole => 4 | .se => 5 | .dsc => 6 | .ece => 7

/-- `struct yjudger_result`. -/
structure YjudgerResult where
  code : ResultCode
  signal : Int32
  exitCode : Int32
  realTime : Int32
  cpuTime : Int32
  realMemory : Int32
  deriving DecidableEq, Repr

/-! ## Structures of the system -/

/-- `struct timeval`. -/
structure Timeval where
  sec : Int64
  usec : Int64
  deriving DecidableEq, Repr

/-- The fields of `struct rusage` the judger reads. -/
structure Rusage where
  utime : Timeval
  stime : Timeval
  maxrss : Int64
  deriving DecidableEq, Repr

/-- `struct sock_filter`. -/
structure SockFilter where
  code : UInt16
  jt : UInt8
  jf : UInt8
  k : UInt32
  deriving DecidableEq, Repr

/-- `struct sock_fprog`. -/
abbrev SockFprog := List SockFilter

/-! ## `lib/resource.h`, `lib/policy.h`, `common.h`, `hook.h` -/

/-- No limit. -/
abbrev rscUnlimited : Int32 := 0

/-- `struct rsclim_ctxt`: times in milliseconds, sizes in bytes. -/
structure RsclimCtxt where
  realTime : Int32
  cpuTime : Int32
  virtualMemory : Int32
  actualMemory : Int32
  stackMemory : Int32
  outputSize : Int32
  fileno : Int32
  deriving DecidableEq, Repr

/-- `struct policy_ctxt`; `content` is the whole buffer, without the 0 behind it. -/
structure PolicyCtxt where
  isBuiltin : Bool
  dirname : Option Bytes
  policy : Option Bytes
  content : Option Bytes
  prog : SockFprog
  deriving DecidableEq, Repr

/-- A runner argument: where it is stored, and its text. -/
structure Arg where
  addr : UInt64
  text : Bytes
  deriving DecidableEq, Repr

/-- `struct runner_ctxt`. -/
structure RunnerCtxt where
  argv : List Arg
  env : List Bytes
  deriving DecidableEq, Repr

def RunnerCtxt.argc (ectxt : RunnerCtxt) : Nat := ectxt.argv.length

/-- The text of `argv[i]`. -/
def RunnerCtxt.arg (ectxt : RunnerCtxt) (i : Nat) : Bytes :=
  match ectxt.argv[i]? with
  | some a => a.text
  | none => []

/-- The hook functions the judger registers. -/
inductive Hook where
  | initResultBeforeFork
  | compilePolicyBeforeFork
  | startKillerAfterFork
  | timerAfterFork
  | analyzeAfterWait
  | stopKillerAfterWait
  | getUsageAfterWait
  | timerAfterWait
  deriving DecidableEq, Repr

/-- `struct hook_ctxt`, over any kind of hook; a chain is listed from its head. -/
structure HookCtxt (H : Type) where
  beforeFork : List H
  afterFork : List H
  afterWait : List H
  deriving DecidableEq, Repr

/-- `struct yjudger_ctxt`. -/
structure YjudgerCtxt where
  pself : Int
  pchild : Int
  status : Nat
  rusage : Rusage
  result : YjudgerResult
  pctxt : PolicyCtxt
  rctxt : RsclimCtxt
  ectxt : RunnerCtxt
  hctxt : HookCtxt Hook
  tid : Nat

/-! ## The memory of the judging process, and what it asks for -/

/-- The context and the globals: `yerrno`, the stamps `start` and `end` of
`builtin_hook.c`, the static `tid` of `start_killer_after_fork`, and the
descriptor of `log_fp`. -/
structure Mem where
  ctxt : YjudgerCtxt
  yerrno : Int
  start : Timeval
  finish : Timeval
  tid : Nat
  logFd : Nat

/-- `struct tkill_ctxt`. -/
structure TkillCtxt where
  pid : Int
  time : Int32
  deriving DecidableEq, Repr

/-- What the judger gets from outside: the clock, the usage of the children
waited for, the ten bytes of an uninitialised buffer, the policy compiler, the
lookup of an error message, which has no answer but must stay inside its table,
what a refused `pthread_create` leaves in `*thread`, and the file system. -/
inductive Ask where
  | gettimeofday
  | getrusage
  | numStr
  | kafelCompile (content : Bytes) (dirname : Option Bytes)
  | strerr (errnum : Int)
  | thread
  /-- the directory made -/
  | mkdtemp (template : Bytes)
  /-- the stream, for writing or for reading -/
  | fopen (path : Bytes) (write : Bool)
  /-- the number of bytes written -/
  | fwrite (content : Bytes) (fp : Nat)
  /-- the size of the file -/
  | fsize (fp : Nat)
  /-- what the buffer of `size` bytes holds afterwards -/
  | fread (fp size : Nat)
  | fclose (fp : Nat)
  /-- what `S_ISDIR` finds in `st_mode` afterwards -/
  | stat (path : Bytes)
  /-- the names `readdir` will deliver -/
  | opendir (path : Bytes)
  | unlink (path : Bytes)
  | rmdir (path : Bytes)
  | closedir

@[reducible] def Ask.Ans : Ask → Type
  | .gettimeofday => Timeval
  | .getrusage => Option Rusage
  | .numStr => Vector UInt8 10
  | .kafelCompile _ _ => Option SockFprog
  | .strerr _ => Unit
  | .thread => Nat
  | .mkdtemp _ => Option Bytes
  | .fopen _ _ => Option Nat
  | .fwrite _ _ => Nat
  | .fsize _ => Nat
  | .fread _ _ => Bytes
  | .fclose _ => Unit
  | .stat _ => Bool
  | .opendir _ => Option (List Bytes)
  | .unlink _ => Bool
  | .rmdir _ => Bool
  | .closedir => Unit

/-- The answers of a system in which nothing works. -/
def Ask.failing : (q : Ask) → q.Ans
  | .gettimeofday => (⟨0, 0⟩ : Timeval)
  | .getrusage => none
  | .numStr => Vector.replicate 10 0
  | .kafelCompile _ _ => none
  | .mkdtemp _ => none
  | .fopen _ _ => none
  | .thread | .fwrite _ _ | .fsize _ => (0 : Nat)
  | .fread _ _ => ([] : Bytes)
  | .stat _ | .unlink _ | .rmdir _ => false
  | .opendir _ => none
  | .strerr _ | .fclose _ | .closedir => ()

abbrev judgerIface : Iface where
  Ask := Ask
  Ans := Ask.Ans
  Filter := SockFprog
  Start := TkillCtxt

abbrev Code (α : Type) : Type := Posix.Code judgerIface Mem α

abbrev Call := Sys judgerIface
abbrev JEvent := Event judgerIface
abbrev JLocal := Local judgerIface

/-- Change the context. -/
def modifyCtxt (f : YjudgerCtxt → YjudgerCtxt) : Code Unit :=
  Code.modify fun m => { m with ctxt := f m.ctxt }

/-- Change the result. -/
def modifyResult (f : YjudgerResult → YjudgerResult) : Code Unit :=
  modifyCtxt fun ctxt => { ctxt with result := f ctxt.result }

/-- Put a question to the outside. -/
def ask (q : Ask) : Code q.Ans := Code.call (.ask q : Call)

/-! ## `yerr.c` and the macros of `yerr.h`

The macros log the message of the error before they return or exit; of the
log only the table lookup is kept. -/

def ystrerr (errnum : Int) : Code Unit := ask (.strerr errnum)

def yerr (errnum : Int) : Code Int := do
  Code.modify fun m => { m with yerrno := errnum }
  return errnum

def yreturn (errnum : Int) : Code Int := do
  ystrerr errnum
  yerr errnum

/-- `yreturn(yerrno)`. -/
def yreturnYerrno : Code Int := do
  let m ← Code.get
  yreturn m.yerrno

def yexit {α : Type} (errnum : Int) : Code α := do
  ystrerr errnum
  Code.exit errnum

/-- `yexit(yerrno)`. -/
def yexitYerrno {α : Type} : Code α := do
  let m ← Code.get
  yexit m.yerrno

/-! ## The record of questions -/

/-- The process after some more events that changed nothing but its record. -/
def told (l : JLocal) (es : List JEvent) : JLocal := { l with log := l.log ++ es }

@[simp] theorem told_log (l : JLocal) (es : List JEvent) : (told l es).log = l.log ++ es := rfl

@[simp] theorem told_nil (l : JLocal) : told l [] = l := by simp [told]

@[simp] theorem told_told (l : JLocal) (es es' : List JEvent) :
    told (told l es) es' = told l (es ++ es') := by
  simp [told]

/-- A question changes the record only. -/
theorem after_ask (l : JLocal) (q : Ask) (r : q.Ans) :
    l.after (.ask q : Call) r = told l [⟨.ask q, r⟩] := by
  simp [Local.after, Local.effect, Local.sent, Local.taken, told]

section
variable {pre : JLocal → Call → Prop} {fin : JLocal → Int → Prop} {l : JLocal} {m : Mem}

theorem wp_ask (q : Ask) (Q : JLocal → q.Ans → Mem → Prop) :
    Code.wp pre fin (ask q) Q l m ↔
      pre l (.ask q) ∧ ∀ r, Q (told l [⟨.ask q, r⟩]) r m := by
  rw [ask, Code.wp_call]
  refine and_congr Iff.rfl (forall_congr' fun r => ?_)
  rw [after_ask]
  exact ⟨fun h => h trivial, fun h _ => h⟩

/-- A question, and what is done with the answer. -/
theorem wp_ask_bind {α : Type} (q : Ask) (f : q.Ans → Code α) (Q : JLocal → α → Mem → Prop) :
    Code.wp pre fin (ask q >>= f) Q l m ↔
      pre l (.ask q) ∧ ∀ r, Code.wp pre fin (f r) Q (told l [⟨.ask q, r⟩]) m := by
  rw [Code.wp_bind, wp_ask]

@[simp] theorem wp_ystrerr (errnum : Int) (Q : JLocal → Unit → Mem → Prop) :
    Code.wp pre fin (ystrerr errnum) Q l m ↔
      pre l (.ask (.strerr errnum)) ∧ Q (told l [⟨.ask (.strerr errnum), ()⟩]) () m :=
  (wp_ask (.strerr errnum) Q).trans (and_congr Iff.rfl ⟨fun h => h (), fun h _ => h⟩)

@[simp] theorem wp_modifyCtxt (f : YjudgerCtxt → YjudgerCtxt) (Q : JLocal → Unit → Mem → Prop) :
    Code.wp pre fin (modifyCtxt f) Q l m ↔ Q l () { m with ctxt := f m.ctxt } := Iff.rfl

@[simp] theorem wp_yreturn (errnum : Int) (Q : JLocal → Int → Mem → Prop) :
    Code.wp pre fin (yreturn errnum) Q l m ↔
      pre l (.ask (.strerr errnum)) ∧
        Q (told l [⟨.ask (.strerr errnum), ()⟩]) errnum { m with yerrno := errnum } := by
  simp only [yreturn, wp_ystrerr, yerr, Code.wp_bind, Code.wp_modify, Code.wp_pure]

end

end YaojJudger
