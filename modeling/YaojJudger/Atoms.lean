/-
# `YaojJudger.Atoms` — a call of a judger, piece by piece

`judgement j` is the call of judger `j` again, cut into atoms: each hook is one,
and so is each of the pieces of the judger between two of them.  Run without
interference it is the judger (`interp_judgement`).

    begin, pipe, argc                 up to the hooks
    register, chain, hook, passOn     the hooks, and `yreturn(yerrno)`
    fork, parent, ready               up to the hooks after the fork
    waitpid, status, killpg           the wait
    child                             the other process; it does not come back
    fail                              `yreturn` of an error number
-/
import YaojJudger.Posix.Pool
import YaojJudger.Judging

namespace YaojJudger

open Posix

/-- The pieces of a judgement. -/
inductive Atom where
  | begin
  | pipe
  | argc
  | register
  | chain (type : HookType)
  | hook (h : Hook)
  | passOn
  | fail (errnum : Int)
  | fork
  | child (j : Judger) (pRun : Nat × Nat)
  | parent (childPid : Int)
  | ready (pRun : Nat × Nat)
  | waitpid (childPid : Int)
  | killpg (childPid : Int)
  | status (status : Nat)

@[reducible] def Atom.Res : Atom → Type
  | .pipe => Option (Nat × Nat)
  | .argc => Nat
  | .chain _ => List Hook
  | .waitpid _ => Option Nat
  | .killpg _ => Bool
  | .hook _ | .passOn | .fail _ | .fork | .child _ _ | .ready _ => Int
  | .begin | .register | .parent _ | .status _ => Unit

/-- The code of a piece. -/
def Atom.code : (a : Atom) → Code a.Res
  | .begin => judgerStart
  | .pipe => signalPipe
  | .argc => do return (← Code.get).ctxt.ectxt.argc
  | .register => modifyCtxt fun ctxt => { ctxt with hctxt := registerBuiltinHook ctxt.hctxt }
  | .chain type => do return (← Code.get).ctxt.hctxt.chain type
  | .hook h => hookFn h
  | .passOn => yreturnYerrno
  | .fail errnum => yreturn errnum
  | .fork => YaojJudger.fork
  | .child j pRun => j.child pRun
  | .parent childPid => modifyCtxt fun ctxt => { ctxt with pchild := childPid }
  | .ready pRun => waitSignal pRun
  | .waitpid childPid => Code.call (.waitpid childPid.toNat true)
  | .killpg childPid => Code.call (.killpg childPid.toNat)
  | .status st => modifyCtxt fun ctxt => { ctxt with status := st }

/-! ## The judgement -/

abbrev Judgement (α : Type) : Type := Prog Atom Atom.Res α

def act (a : Atom) : Judgement a.Res := Prog.perform a

/-- `run_hook_chain`. -/
def hookChain : List Hook → Judgement Int
  | [] => return 0
  | h :: next => do
      if (← act (.hook h)) ≠ 0 then act .passOn
      else hookChain next

def runChain (type : HookType) : Judgement Int := do
  let chain ← act (.chain type)
  hookChain chain

def judgeAfterWaitpid (childPid : Int) (status : Option Nat) : Judgement Int := do
  match status with
  | none =>
      let _ ← act (.killpg childPid)
      act (.fail eWait)
  | some status =>
      act (.status status)
      if (← runChain .afterWait) ≠ 0 then act .passOn
      else return 0

def judgeParent (pRun : Nat × Nat) (childPid : Int) : Judgement Int := do
  act (.parent childPid)
  if (← act (.ready pRun)) ≠ ready then act (.fail eChild)
  else if (← runChain .afterFork) ≠ 0 then act .passOn
  else
    let status ← act (.waitpid childPid)
    judgeAfterWaitpid childPid status

def judgeForked (j : Judger) (pRun : Nat × Nat) : Judgement Int := do
  let childPid ← act .fork
  if childPid < 0 then act (.fail eFork)
  else if childPid = 0 then act (.child j pRun)
  else judgeParent pRun childPid

def judgeBeforeFork : Judgement Int := do
  act .register
  runChain .beforeFork

def judgePrepared (j : Judger) (pRun : Nat × Nat) : Judgement Int := do
  if (← judgeBeforeFork) ≠ 0 then act .passOn
  else judgeForked j pRun

def judgement (j : Judger) : Judgement Int := do
  act .begin
  match ← act .pipe with
  | none => act (.fail ePipe)
  | some pRun =>
      match j with
      | .general => judgePrepared .general pRun
      | .interactive => do
          if (← act .argc) ≠ 6 then act (.fail eArgc)
          else judgePrepared .interactive pRun

/-! ## It is the judger -/

theorem interp_act (a : Atom) : interp Atom.code (act a) = a.code := interp_perform _ a

theorem interp_act_bind {α : Type} (a : Atom) (f : a.Res → Judgement α) :
    interp Atom.code (act a >>= f) = a.code >>= fun r => interp Atom.code (f r) := rfl

theorem interp_hookChain (chain : List Hook) :
    interp Atom.code (hookChain chain) = runHookChain hookFn chain := by
  induction chain with
  | nil => rfl
  | cons h next ih =>
      rw [hookChain, interp_act_bind, runHookChain]
      refine bind_congr fun r => ?_
      rw [interp_ite, interp_act, ih]
      rfl

theorem interp_runChain (type : HookType) :
    interp Atom.code (runChain type) =
      Code.get >>= fun m => runHookChain hookFn (m.ctxt.hctxt.chain type) := by
  show (Code.get >>= fun m => interp Atom.code (hookChain (m.ctxt.hctxt.chain type))) = _
  exact bind_congr fun m => interp_hookChain _

theorem interp_judgeAfterWaitpid (childPid : Int) (status : Option Nat) :
    interp Atom.code (judgeAfterWaitpid childPid status) = afterWaitpid childPid status := by
  cases status with
  | none =>
      rw [judgeAfterWaitpid, interp_act_bind]
      exact bind_congr fun _ => interp_act (.fail eWait)
  | some st =>
      rw [judgeAfterWaitpid, interp_act_bind]
      refine bind_congr fun _ => ?_
      rw [interp_bind, interp_runChain, Code.bind_assoc]
      refine bind_congr fun m => bind_congr fun r => ?_
      rw [interp_ite, interp_act]
      rfl

theorem interp_judgeParent (pRun : Nat × Nat) (childPid : Int) :
    interp Atom.code (judgeParent pRun childPid) = judgerParent pRun childPid := by
  rw [judgeParent, interp_act_bind]
  refine bind_congr fun _ => ?_
  rw [interp_act_bind]
  refine bind_congr fun r => ?_
  rw [interp_ite, interp_act, interp_bind, interp_runChain, Code.bind_assoc]
  refine if_congr Iff.rfl rfl (bind_congr fun m => bind_congr fun r => ?_)
  rw [interp_ite, interp_act, interp_act_bind]
  exact if_congr Iff.rfl rfl (bind_congr fun status => interp_judgeAfterWaitpid _ _)

theorem interp_judgeForked (j : Judger) (pRun : Nat × Nat) :
    interp Atom.code (judgeForked j pRun) = j.forked pRun := by
  rw [judgeForked, interp_act_bind]
  refine bind_congr fun childPid => ?_
  rw [interp_ite, interp_act, interp_ite, interp_act, interp_judgeParent]
  rfl

theorem interp_judgePrepared (j : Judger) (pRun : Nat × Nat) :
    interp Atom.code (judgePrepared j pRun) =
      beforeFork >>= fun r => if r ≠ 0 then yreturnYerrno else j.forked pRun := by
  have hbefore : interp Atom.code judgeBeforeFork = beforeFork := by
    rw [judgeBeforeFork, interp_act_bind]
    exact bind_congr fun _ => interp_runChain .beforeFork
  rw [judgePrepared, interp_bind, hbefore]
  refine bind_congr fun r => ?_
  rw [interp_ite, interp_act, interp_judgeForked]
  rfl

/-- **Left alone, a judgement is the call of its judger.** -/
theorem interp_judgement (j : Judger) : interp Atom.code (judgement j) = j.code := by
  rw [judgement, interp_act_bind]
  cases j with
  | general =>
      refine bind_congr fun _ => ?_
      rw [interp_act_bind]
      refine bind_congr fun ends => ?_
      cases ends with
      | none => exact interp_act (.fail ePipe)
      | some pRun => exact interp_judgePrepared .general pRun
  | interactive =>
      refine bind_congr fun _ => ?_
      rw [interp_act_bind]
      refine bind_congr fun ends => ?_
      cases ends with
      | none => exact interp_act (.fail ePipe)
      | some pRun =>
          rw [interp_act_bind]
          show (Code.get >>= fun m => interp Atom.code (if m.ctxt.ectxt.argc ≠ 6 then
            act (.fail eArgc) else judgePrepared .interactive pRun)) = _
          refine bind_congr fun m => ?_
          rw [interp_ite, interp_act, interp_judgePrepared]
          rfl

end YaojJudger
