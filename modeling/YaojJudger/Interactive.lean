/-
# `YaojJudger.Interactive` — the judger for interactive problems

`judger/interactive.c`.  The child of the parent becomes the interactor and
forks once more; the grandchild becomes the executable.  The two are joined by
the pipes `itoe` and `etoi`; a third pipe, `i_run`, tells the interactor that
the executable is ready, and only then does the interactor say READY to the
parent.

Runner arguments: the executable, the interactor, its input and output files,
its error output, the executable's error output.
-/
import YaojJudger.General

namespace YaojJudger

open Posix

/-- `yexit_notready`. -/
def yexitNotready {α : Type} (code : Int) (spipe : Nat × Nat) : Code α := do
  let _ ← sendSignal spipe failed
  yexit code

/-- `yexit_notready(yerrno, spipe)`. -/
def yexitNotreadyYerrno {α : Type} (spipe : Nat × Nat) : Code α := do
  let m ← Code.get
  yexitNotready m.yerrno spipe

/-- Standard error into the file `argv[i]`: `interactor_prework` and
`executable_prework` differ in `i` only. -/
def errorPrework (i : Nat) : Code Int := do
  let ctxt := (← Code.get).ctxt.ectxt
  match ← Code.call (.open_ (ctxt.arg i) .writeTruncCreate) with
  | none => yreturn eErrfd
  | some errorFd =>
      if ← Code.call (.dup2 errorFd 2) then return 0
      else yreturn eDup

def interactorPrework : Code Int := errorPrework 4

def executablePrework : Code Int := errorPrework 5

/-- `"interactor"` and `"main"`. -/
def interactorName : Bytes := [105, 110, 116, 101, 114, 97, 99, 116, 111, 114]
def mainName : Bytes := [109, 97, 105, 110]

def runInteractor : Code Unit := do
  let ctxt := (← Code.get).ctxt.ectxt
  Code.call (.execve (ctxt.arg 1) [interactorName, ctxt.arg 2, ctxt.arg 3] none)

def runExecutable : Code Unit := do
  let ctxt := (← Code.get).ctxt.ectxt
  Code.call (.execve (ctxt.arg 0) [mainName] none)

def childExecProcess {α : Type} (iRun : Nat × Nat) : Code α := do
  if (← executablePrework) ≠ 0 then yexitNotreadyYerrno iRun
  else if (← applyResourceLimit) ≠ 0 then yexitNotreadyYerrno iRun
  else if (← applyPolicy) ≠ 0 then yexitNotreadyYerrno iRun
  else
    let _ ← sendSignal iRun ready
    runExecutable
    Code.exit eExec

/-- The branch of the executable process. -/
def executableBranch {α : Type} (itoe etoi iRun : Nat × Nat) : Code α := do
  if ← Code.call (.dup2 itoe.1 0) then
    if ← Code.call (.dup2 etoi.2 1) then childExecProcess iRun
    else yexitNotready eDup iRun
  else yexitNotready eDup iRun

/-- What the interactor process does once it is redirected. -/
def interactorReady {α : Type} (pRun iRun : Nat × Nat) : Code α := do
  if (← interactorPrework) ≠ 0 then yexitNotreadyYerrno pRun
  else if (← applyPolicy) ≠ 0 then yexitNotreadyYerrno pRun
  else if (← waitSignal iRun) ≠ ready then yexitNotready eIntactExec pRun
  else
    let _ ← sendSignal pRun ready
    runInteractor
    Code.exit eExec

/-- The branch of the interactor process; it is also taken when the second
`fork` fails. -/
def interactorBranch {α : Type} (pRun itoe etoi iRun : Nat × Nat) : Code α := do
  if ← Code.call (.dup2 etoi.1 0) then
    if ← Code.call (.dup2 itoe.2 1) then interactorReady pRun iRun
    else yexitNotready eDup pRun
  else yexitNotready eDup pRun

def childProcess {α : Type} (pRun : Nat × Nat) : Code α := do
  let pid ← Code.call .getpid
  modifyCtxt fun ctxt => { ctxt with pchild := (pid : Nat) }
  -- the result is ignored
  let _ ← Code.call .setpgid
  match ← Code.call .pipe with
  | none => yexitNotready ePipe pRun
  | some itoe =>
      match ← Code.call .pipe with
      | none => yexitNotready ePipe pRun
      | some etoi =>
          match ← Code.call .pipe with
          | none => yexitNotready ePipe pRun
          | some iRun =>
              let execPid ← fork
              if execPid = 0 then executableBranch itoe etoi iRun
              else interactorBranch pRun itoe etoi iRun

def yjudgerInteractive : Code Int := do
  judgerStart
  match ← signalPipe with
  | none => yreturn ePipe
  | some pRun =>
      let m ← Code.get
      if m.ctxt.ectxt.argc ≠ 6 then yreturn eArgc
      else if (← beforeFork) ≠ 0 then yreturnYerrno
      else
        let childPid ← fork
        if childPid < 0 then yreturn eFork
        else if childPid = 0 then childProcess pRun
        else judgerParent pRun childPid

end YaojJudger
