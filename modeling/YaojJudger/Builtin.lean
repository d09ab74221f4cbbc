/-
# `YaojJudger.Builtin` — the builtin hooks, and how a verdict is found

`lib/builtin_hook.c`.  The result is preset to `SE` before the fork; after the
wait the clock is read, then the usage, then the killer is stopped, and last
`analyze_after_wait` reads the verdict off the wait status.

The verdict of a process that was killed is a `switch` over the signal with no
default: a signal it does not name, and a `SIGKILL` within the real time
limit, leave the code as it was.
-/
import YaojJudger.Posix.Wait
import YaojJudger.Hook
import YaojJudger.Resource
import YaojJudger.Policy
import YaojJudger.Tkill

namespace YaojJudger

open Posix

/-! ## Signals -/

abbrev sigabrt : Nat := 6
abbrev sigkill : Nat := 9
abbrev sigusr1 : Nat := 10
abbrev sigsegv : Nat := 11
abbrev sigxcpu : Nat := 24
abbrev sigxfsz : Nat := 25
abbrev sigsys : Nat := 31

/-! ## The hooks -/

def timerAfterFork : Code Int := do
  let now ← ask .gettimeofday
  Code.modify fun m => { m with start := now }
  return 0

def timerAfterWait : Code Int := do
  let now ← ask .gettimeofday
  Code.modify fun m => { m with finish := now }
  let m ← Code.get
  modifyResult fun result =>
    { result with realTime := toMillisecond m.finish - toMillisecond m.start }
  return 0

def initResultBeforeFork : Code Int := do
  modifyResult fun result =>
    { result with code := .se, exitCode := 0, signal := 0, realMemory := 0, realTime := 0 }
  let m ← Code.get
  if ← Code.call (.setCloexec m.logFd) then return 0
  else yreturn eFcntl

def realTle (ctxt : YjudgerCtxt) : Bool :=
  ctxt.rctxt.realTime ≠ rscUnlimited && ctxt.result.realTime > ctxt.rctxt.realTime

def cpuTle (ctxt : YjudgerCtxt) : Bool :=
  ctxt.rctxt.cpuTime ≠ rscUnlimited && ctxt.result.cpuTime > ctxt.rctxt.cpuTime

def realMle (ctxt : YjudgerCtxt) : Bool :=
  ctxt.rctxt.actualMemory ≠ rscUnlimited && ctxt.result.realMemory > ctxt.rctxt.actualMemory

/-- The verdict for a signal; the last case is the missing default. -/
def signalCode (ctxt : YjudgerCtxt) (signal : Nat) : ResultCode :=
  if signal = sigusr1 then .se
  else if signal = sigsys then .dsc
  else if signal = sigxcpu then .tle
  else if signal = sigsegv then
    if ctxt.rctxt.virtualMemory = rscUnlimited then .re else .mle
  else if signal = sigxfsz then .ole
  else if signal = sigkill then
    if realTle ctxt then .tle else ctxt.result.code
  else if signal = sigabrt then .re
  else ctxt.result.code

def setSignalStatus (ctxt : YjudgerCtxt) (signal : Nat) : YjudgerCtxt :=
  { ctxt with
    result := { ctxt.result with signal := Int32.ofNat signal, code := signalCode ctxt signal } }

def exitcodeCode (ctxt : YjudgerCtxt) (code : Nat) : ResultCode :=
  if code = 0 then
    if realMle ctxt then .mle
    else if realTle ctxt ∨ cpuTle ctxt then .tle
    else .ok
  else .ece

def setExitcodeStatus (ctxt : YjudgerCtxt) (code : Nat) : YjudgerCtxt :=
  { ctxt with
    result := { ctxt.result with exitCode := Int32.ofNat code, code := exitcodeCode ctxt code } }

/-- `ru_maxrss * KB`, a product of `long`s stored into an `int`. -/
def realMemory (rusage : Rusage) : Int32 := (rusage.maxrss * kb.toInt64).toInt32

def analyzeAfterWait : Code Int := do
  modifyCtxt fun ctxt =>
    { ctxt with result := { ctxt.result with realMemory := realMemory ctxt.rusage } }
  let m ← Code.get
  if wifsignaled m.ctxt.status then
    modifyCtxt fun ctxt => setSignalStatus ctxt (wtermsig ctxt.status)
    return 0
  else if wifexited m.ctxt.status then
    if wexitstatus m.ctxt.status ≠ 0 then
      -- the warning looks the exit status up among the judger's own errors
      ystrerr (wexitstatus m.ctxt.status)
      modifyCtxt fun ctxt => setExitcodeStatus ctxt (wexitstatus ctxt.status)
      return 0
    else
      modifyCtxt fun ctxt => setExitcodeStatus ctxt (wexitstatus ctxt.status)
      return 0
  else return 0

/-- The function a hook stands for. -/
def hookFn : Hook → Code Int
  | .initResultBeforeFork => initResultBeforeFork
  | .compilePolicyBeforeFork => compilePolicyBeforeFork
  | .startKillerAfterFork => startKillerAfterFork
  | .timerAfterFork => timerAfterFork
  | .analyzeAfterWait => analyzeAfterWait
  | .stopKillerAfterWait => stopKillerAfterWait
  | .getUsageAfterWait => getUsageAfterWait
  | .timerAfterWait => timerAfterWait

end YaojJudger
