/-
# `YaojJudger.Resource` — limits and usage

`lib/resource.c` and `to_millisecond`.

A limit of 0 means there is none, so `apply_resource_limit_rsc` makes one
`setrlimit` call for each of five fields that is positive, in a fixed order,
and gives up at the first failure (`limitCalls` lists the calls).  The hard
limit is the built-in constant, or the soft limit where that is larger.

`upperbound` divides in `double`; here the division is exact.
-/
import YaojJudger.Context

namespace YaojJudger

open Posix

def toMillisecond (tv : Timeval) : Int32 := (tv.sec * 1000 + tv.usec / 1000).toInt32

/-! ## `common.h` -/

abbrev cpuTimeHLimit : UInt64 := 300
abbrev fsizeHLimit : UInt64 := 64 * 1024 * 1024
abbrev stackHLimit : UInt64 := 64 * 1024 * 1024
abbrev asHLimit : UInt64 := 512 * 1024 * 1024
abbrev nofileHLimit : UInt64 := 50

/-! ## `lib/resource.c` -/

/-- An `int` where an `rlim_t` is expected. -/
def toRlim (x : Int32) : UInt64 := x.toInt64.toUInt64

def setRlimit (type : Rlimit) (cur max : UInt64) : Code Int := do
  let max := if max < cur then cur else max
  if ← Code.call (.setrlimit type cur max) then return 0
  else yreturn eSetrlimit

def upperbound (x : ℚ) : Int32 :=
  let ix := x.num.tdiv x.den
  if x > ix then Int32.ofInt (ix + 1) else Int32.ofInt ix

/-- `cpu_time / 1000.0`, rounded up. -/
def cpuSeconds (cpuTime : Int32) : Int32 := upperbound (mkRat cpuTime.toInt 1000)

/-- One `if (field > 0) …` block: limit `type` to `cur` when the field is
positive, then go on with `next`. -/
def limitField (field : Int32) (type : Rlimit) (cur max : UInt64) (next : Code Int) : Code Int := do
  if field > 0 then
    if (← setRlimit type cur max) ≠ 0 then yreturnYerrno
    else next
  else next

def applyResourceLimitRsc (rctxt : RsclimCtxt) : Code Int := do
  if rctxt.cpuTime < 0 ∨ rctxt.virtualMemory < 0 ∨ rctxt.actualMemory < 0 ∨
      rctxt.stackMemory < 0 ∨ rctxt.outputSize < 0 ∨ rctxt.fileno < 0 then
    yreturn eRscLim
  else
    limitField rctxt.cpuTime .cpu (toRlim (cpuSeconds rctxt.cpuTime)) cpuTimeHLimit <|
    limitField rctxt.virtualMemory .as (toRlim rctxt.virtualMemory) asHLimit <|
    limitField rctxt.outputSize .fsize (toRlim rctxt.outputSize) fsizeHLimit <|
    limitField rctxt.stackMemory .stack (toRlim rctxt.stackMemory) stackHLimit <|
    limitField rctxt.fileno .nofile (toRlim rctxt.fileno) nofileHLimit <|
    return 0

/-- The `setrlimit` call of one block. -/
def limitCall (field : Int32) (type : Rlimit) (cur max : UInt64) : List Call :=
  if field > 0 then [.setrlimit type cur (if max < cur then cur else max)] else []

/-- The calls of `apply_resource_limit_rsc`, in order. -/
def limitCalls (rctxt : RsclimCtxt) : List Call :=
  limitCall rctxt.cpuTime .cpu (toRlim (cpuSeconds rctxt.cpuTime)) cpuTimeHLimit ++
  limitCall rctxt.virtualMemory .as (toRlim rctxt.virtualMemory) asHLimit ++
  limitCall rctxt.outputSize .fsize (toRlim rctxt.outputSize) fsizeHLimit ++
  limitCall rctxt.stackMemory .stack (toRlim rctxt.stackMemory) stackHLimit ++
  limitCall rctxt.fileno .nofile (toRlim rctxt.fileno) nofileHLimit

def applyResourceLimit : Code Int := do
  let m ← Code.get
  applyResourceLimitRsc m.ctxt.rctxt

def getUsageAfterWait : Code Int := do
  match ← ask .getrusage with
  | none => yreturn eGetrusage
  | some r2 =>
      modifyCtxt fun ctxt => { ctxt with rusage := r2 }
      modifyResult fun result =>
        { result with cpuTime := toMillisecond r2.utime + toMillisecond r2.stime }
      return 0

end YaojJudger
