/-
# `YaojJudger.General` — the judger for general commands

`judger/general.c` and `signal_pipe.c`.  The parent makes a pipe, forks, and
waits until the child says READY on it; the child confines itself step by
step, says READY and execs, or says FAILED and exits.

Runner arguments: input, output, error output, then the command.
-/
import YaojJudger.Builtin

namespace YaojJudger

open Posix

/-! ## `signal_pipe.c` -/

def signalPipe : Code (Option (Nat × Nat)) := Code.call .pipe

def sendSignal (p : Nat × Nat) (signal : Int) : Code Bool := Code.call (.write p.2 signal)

def waitSignal (p : Nat × Nat) : Code Int := do
  match ← Code.call (.read p.1) with
  | some signal => return signal
  | none => return -1

abbrev failed : Int := 1
abbrev ready : Int := 2

/-- `fork` as C sees it. -/
def fork : Code Int := do
  match ← Code.call .fork with
  | .failed => return -1
  | .parent child => return (child : Int)
  | .child _ => return 0

/-! ## `judger/general.c` -/

def runnerPrework : Code Int := do
  let ctxt := (← Code.get).ctxt.ectxt
  if ctxt.argc < 4 then yreturn eArgc
  else
    let inputFd ← Code.call (.open_ (ctxt.arg 0) .readOnly)
    let outputFd ← Code.call (.open_ (ctxt.arg 1) .writeTruncCreate)
    let errorFd ← Code.call (.open_ (ctxt.arg 2) .writeTruncCreate)
    match inputFd, outputFd, errorFd with
    | some inputFd, some outputFd, some errorFd =>
        if ← Code.call (.dup2 inputFd 0) then
          if ← Code.call (.dup2 outputFd 1) then
            if ← Code.call (.dup2 errorFd 2) then return 0
            else yreturn eDup
          else yreturn eDup
        else yreturn eDup
    | _, _, _ => yreturn eFilefd

/-- Returns only if `execve` fails. -/
def runnerRun : Code Unit := do
  let ctxt := (← Code.get).ctxt.ectxt
  Code.call (.execve (ctxt.arg 3) ((ctxt.argv.drop 3).map Arg.text) (some ctxt.env))

def childPrework : Code Int := do
  if (← runnerPrework) ≠ 0 then yreturnYerrno
  else if (← applyResourceLimit) ≠ 0 then yreturnYerrno
  else if (← applyPolicy) ≠ 0 then yreturnYerrno
  else return 0

/-- The branch of the child process. -/
def generalChild (pRun : Nat × Nat) : Code Int := do
  let pid ← Code.call .getpid
  modifyCtxt fun ctxt => { ctxt with pchild := (pid : Nat) }
  if ← Code.call .setpgid then
    if (← childPrework) ≠ 0 then
      let _ ← sendSignal pRun failed
      yexitYerrno
    else
      let _ ← sendSignal pRun ready
      runnerRun
      yexit eExec
  else
    let _ ← sendSignal pRun failed
    yexit eSetpgid

/-- What follows `waitpid` in the parent. -/
def afterWaitpid (childPid : Int) (status : Option Nat) : Code Int := do
  match status with
  | none =>
      let _ ← Code.call (.killpg childPid.toNat)
      yreturn eWait
  | some status =>
      modifyCtxt fun ctxt => { ctxt with status := status }
      let m ← Code.get
      if (← runHookChain hookFn m.ctxt.hctxt.afterWait) ≠ 0 then yreturnYerrno
      else return 0

/-- The rest of the parent process; both judgers end with it. -/
def judgerParent (pRun : Nat × Nat) (childPid : Int) : Code Int := do
  modifyCtxt fun ctxt => { ctxt with pchild := childPid }
  if (← waitSignal pRun) ≠ ready then yreturn eChild
  else
    let m ← Code.get
    if (← runHookChain hookFn m.ctxt.hctxt.afterFork) ≠ 0 then yreturnYerrno
    else
      let status ← Code.call (.waitpid childPid.toNat true)
      afterWaitpid childPid status

/-- `register_builtin_hook(ctxt->hctxt)` and the `before_fork` chain. -/
def beforeFork : Code Int := do
  modifyCtxt fun ctxt => { ctxt with hctxt := registerBuiltinHook ctxt.hctxt }
  let m ← Code.get
  runHookChain hookFn m.ctxt.hctxt.beforeFork

/-- `ctxt->pself = getpid(); ctxt->pchild = -1;` -/
def judgerStart : Code Unit := do
  let pid ← Code.call .getpid
  modifyCtxt fun ctxt => { ctxt with pself := (pid : Nat), pchild := -1 }

def yjudgerGeneral : Code Int := do
  judgerStart
  match ← signalPipe with
  | none => yreturn ePipe
  | some pRun =>
      if (← beforeFork) ≠ 0 then yreturnYerrno
      else
        let childPid ← fork
        if childPid < 0 then yreturn eFork
        else if childPid = 0 then generalChild pRun
        else judgerParent pRun childPid

end YaojJudger
