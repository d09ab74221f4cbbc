/-
# `YaojJudger.Tkill` — the timeout killer

`lib/tkill.c`.  With a real time limit set, the parent starts a thread that
sleeps for the limit rounded up and then kills the child's process group; the
third `after_wait` hook cancels and joins it.
-/
import YaojJudger.Context

namespace YaojJudger

open Posix

/-- The thread.  It detaches itself first. -/
def timeoutKiller (ctxt : TkillCtxt) : Prog Call Ret Unit := do
  if ← Prog.perform .pthreadDetach then
    if ← Prog.perform (.sleep ((ctxt.time + 1000) / 1000).toUInt32) then
      let _ ← Prog.perform (.killpg ctxt.pid.toNat)
      return ()
    else
      let _ ← Prog.perform (.killpg ctxt.pid.toNat)
      return ()
  else
    let _ ← Prog.perform (.killpg ctxt.pid.toNat)
    return ()

/-- What thread `t` does that is given the address of `tctxt`.  The function of which `tctxt` is a
local may have returned when the thread looks there; `found t tctxt` is what it finds. -/
def killersFinding (found : Nat → TkillCtxt → TkillCtxt) (t : Nat) (tctxt : TkillCtxt) :
    Prog Call Ret Unit :=
  timeoutKiller (found t tctxt)

/-- They find what was put there. -/
abbrev killers : Nat → TkillCtxt → Prog Call Ret Unit := killersFinding fun _ tctxt => tctxt

/-- Cancel, then join; nonzero if either failed. -/
def stopTimeoutKiller (tid : Nat) : Code Int := do
  let cancelled ← Code.call (.pthreadCancel tid)
  let joined ← Code.call (.pthreadJoin tid)
  return if cancelled && joined then 0 else 1

/-- `pthread_create`: what is in `*thread` afterwards.  A call that is refused may leave
anything there. -/
def pthreadCreate (tctxt : TkillCtxt) : Code Nat := do
  match ← Code.call (.pthreadCreate tctxt : Call) with
  | some tid => return tid
  | none => ask .thread

def startKillerAfterFork : Code Int := do
  let m ← Code.get
  if m.ctxt.rctxt.realTime = rscUnlimited then return 0
  else
    let tid ← pthreadCreate { pid := m.ctxt.pchild, time := m.ctxt.rctxt.realTime }
    Code.modify fun m => { m with tid := tid }
    -- whether the thread was created or not
    Code.modify fun m => { m with ctxt := { m.ctxt with tid := m.tid } }
    return 0

def stopKillerAfterWait : Code Int := do
  let m ← Code.get
  if m.ctxt.rctxt.realTime = rscUnlimited then return 0
  else if m.ctxt.tid ≠ 0 then
    -- a failure is logged and ignored
    let _ ← stopTimeoutKiller m.ctxt.tid
    return 0
  else return 0

end YaojJudger
