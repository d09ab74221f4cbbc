/-
# `YaojJudger.Posix.World` — processes, pipes and threads, interleaved

A `World` is a table of processes, the contents of every pipe, and the
threads.  Each process carries its `Local` state and the rest of its program;
`World.step` performs one act:

    sys i o      process i makes its next call, with outcome o
    thr t o      thread t makes its next call
    kill/stop/cont i     a signal from anywhere, at any moment
    quit i n     a program that i has exec'd ends
    regroup i g  a program that i has exec'd moves to process group g
    drain i id   a program that i has exec'd reads from a pipe it has inherited

Only `sys` is under the control of the modelled program; the rest is its
environment.  After `execve` a process runs some other program: it is alive,
may end, stop, change its group, read what is in the pipes it holds or be
killed, and makes no other call of the model.

**Blocking.**  `read` on an empty pipe has no step while some live process has
the write end open, and delivers end of file otherwise; `waitpid` and
`pthread_join` have no step while there is nothing to report.  Each of them
may also fail, which is how an interruption by a signal looks.

Runs are lists of acts, so that a run on fixed inputs can be computed.
-/
import YaojJudger.Posix.Call
import YaojJudger.Posix.Wait

namespace Posix

variable {I : Iface} {α : Type}

/-- What a process is doing. -/
inductive Mode where
  /-- running the modelled program -/
  | code
  /-- running what it has exec'd -/
  | program
  /-- terminated, not waited for -/
  | zombie (status : Nat)
  /-- terminated and waited for -/
  | reaped (status : Nat)
  deriving DecidableEq, Repr

/-- Has the process not terminated? -/
def Mode.alive : Mode → Bool
  | .code | .program => true
  | .zombie _ | .reaped _ => false

/-- A process.  After `execve` or termination `loc` and `code` stay as they were. -/
structure Proc (I : Iface) (α : Type) where
  loc : Local I
  code : Prog (Sys I) Ret α
  mode : Mode
  stopped : Option Nat
  reported : Bool
  ppid : Nat
  pgid : Nat

/-- A thread other than the main one. -/
structure Thread (I : Iface) where
  owner : Nat
  code : Prog (Sys I) Ret Unit
  detached : Bool
  cancelled : Bool
  done : Bool

structure World (I : Iface) (α : Type) where
  procs : Nat → Option (Proc I α)
  next : Nat
  pipe : PipeId → List Int
  threads : List (Thread I)

/-- How the system answers a call. -/
inductive Outcome (I : Iface) where
  | ok
  | fail
  | answer (f : (q : I.Ask) → I.Ans q)

inductive Act (I : Iface) where
  | sys (i : Nat) (o : Outcome I)
  | thr (t : Nat) (o : Outcome I)
  | kill (i sig : Nat) (core : Bool)
  | stop (i sig : Nat)
  | cont (i : Nat)
  | quit (i : Nat) (code : Int)
  | regroup (i g : Nat)
  | drain (i : Nat) (id : PipeId)

namespace Proc

/-- The descriptors the process holds at this moment. -/
def fds (p : Proc I α) : FdTable :=
  match p.mode with
  | .code => p.loc.fds
  | .program => p.loc.fds.afterExec
  | .zombie _ | .reaped _ => FdTable.inheritedBelow 0

/-- The process as `waitpid` leaves it: a zombie is reaped, a stop is reported. -/
def awaited (p : Proc I α) : Proc I α :=
  match p.mode with
  | .zombie st => { p with mode := .reaped st }
  | _ => { p with reported := true }

/-- The process after termination with status `st`; the dead stay as they are. -/
def terminated (st : Nat) (p : Proc I α) : Proc I α :=
  if p.mode.alive then { p with mode := .zombie st, stopped := none } else p

/-- The process after `SIGKILL` to group `g`. -/
def hit (g : Nat) (p : Proc I α) : Proc I α :=
  if p.pgid = g then p.terminated (killStatus 9 false) else p

/-- Can the process make a step of its own? -/
def running (p : Proc I α) : Bool := p.mode.alive && p.stopped.isNone

/-- What `waitpid` would report of the process now. -/
def toReport (p : Proc I α) (untraced : Bool) : Option Nat :=
  match p.mode, p.stopped with
  | .zombie st, _ => some st
  | .code, some sig | .program, some sig =>
      if untraced && !p.reported then some (stopStatus sig) else none
  | _, _ => none

end Proc

namespace World

/-- Change every process. -/
def mapProcs (w : World I α) (f : Nat → Proc I α → Proc I α) : World I α :=
  { w with procs := fun j => (w.procs j).map (f j) }

/-- Change process `i`. -/
def update (w : World I α) (i : Nat) (f : Proc I α → Proc I α) : World I α :=
  w.mapProcs fun j q => if j = i then f q else q

/-- Does some live process hold the write end of pipe `id`? -/
def writeEndOpen (w : World I α) (id : PipeId) : Bool :=
  (List.range w.next).any fun j => (w.procs j).any fun q => q.fds.refersTo (.pipeOut id)

/-- Does `killpg` find somebody in group `g`? -/
def groupExists (w : World I α) (g : Nat) : Bool :=
  (List.range w.next).any fun j => (w.procs j).any fun q =>
    q.pgid == g && match q.mode with | .reaped _ => false | _ => true

/-- `SIGKILL` to the whole group `g`. -/
def killGroup (w : World I α) (g : Nat) : World I α :=
  w.mapProcs fun _ q => q.hit g

/-- The head of pipe `id` is read, by nobody whose record is kept. -/
def drained (w : World I α) (id : PipeId) : World I α :=
  { w with pipe := fun p => if p = id then (w.pipe p).tail else w.pipe p }

/-- Change thread `t`; threads are numbered from 1. -/
def updateThread (w : World I α) (t : Nat) (f : Thread I → Thread I) : World I α :=
  { w with threads := w.threads.modify (t - 1) f }

def thread? (w : World I α) (t : Nat) : Option (Thread I) :=
  if t = 0 then none else w.threads[t - 1]?

/-- The result of the call `c` of process `i`, if it has one now.  `execve`
that succeeds has none. -/
def reply (w : World I α) (i : Nat) (l : Local I) : (c : Sys I) → Outcome I → Option (Ret c)
  | .getpid, .ok => some l.pid
  | .pipe, .ok => some (some l.pipeEnds)
  | .pipe, .fail => some none
  | .fork, .ok => some (.parent w.next)
  | .fork, .fail => some .failed
  | .open_ _ _, .ok => some (some l.fds.lowest)
  | .open_ _ _, .fail => some none
  | .dup2 oldfd _, .ok => if (l.fds.get oldfd).isSome then some true else none
  | .execve _ _ _, .fail => some ()
  | .write fd _, .ok => if l.writable fd then some true else none
  | .read fd, .ok =>
      match l.inPipe fd with
      | none => none
      | some id =>
          match w.pipe id with
          | v :: _ => some (some v)
          | [] => if w.writeEndOpen id then none else some none
  | .read _, .fail => some none
  | .waitpid pid untraced, .ok =>
      match w.procs pid with
      | some q =>
          if q.ppid = i then
            match q.toReport untraced with
            | some st => some (some st)
            | none => none
          else none
      | none => none
  | .waitpid _ _, .fail => some none
  | .killpg g, .ok => if w.groupExists g then some true else none
  | .pthreadCreate _, .ok => some (some (w.threads.length + 1))
  | .pthreadCreate _, .fail => some none
  | .pthreadCancel t, .ok => if (w.thread? t).isSome then some true else none
  | .pthreadJoin t, .ok =>
      if (w.thread? t).any fun th => th.done && !th.detached then some true else none
  | .ask q, .answer f => some (f q)
  | .setpgid, .ok | .setCloexec _, .ok | .setrlimit _ _ _, .ok | .setNoNewPrivs, .ok
  | .setSeccomp _, .ok | .pthreadDetach, .ok | .sleep _, .ok => some true
  | .setpgid, .fail | .dup2 _ _, .fail | .setCloexec _, .fail | .setrlimit _ _ _, .fail
  | .setNoNewPrivs, .fail | .setSeccomp _, .fail | .write _ _, .fail | .killpg _, .fail
  | .pthreadDetach, .fail | .pthreadCancel _, .fail | .pthreadJoin _, .fail
  | .sleep _, .fail => some false
  | _, _ => none

/-- What a call of process `i` does to process `j`, apart from `i`'s own `Local`. -/
def touch (i : Nat) : (c : Sys I) → Ret c → Nat → Proc I α → Proc I α
  | .setpgid, true => fun j q => if j = i then { q with pgid := i } else q
  | .waitpid pid _, some _ => fun j q => if j = pid then q.awaited else q
  | .killpg g, true => fun _ q => q.hit g
  | _, _ => fun _ q => q

/-- The pipes after a call. -/
def pipesAfter (w : World I α) (l : Local I) (c : Sys I) (r : Ret c) (id : PipeId) : List Int :=
  match l.sent c r, l.taken c r with
  | some (p, v), _ => if id = p then w.pipe id ++ [v] else w.pipe id
  | none, some (p, _) => if id = p then (w.pipe id).tail else w.pipe id
  | none, none => w.pipe id

/-- The threads after a call of process `i`; a new one, of number `t`, runs `body t start`. -/
def threadsAfter (body : Nat → I.Start → Prog (Sys I) Ret Unit) (w : World I α) (i : Nat) :
    (c : Sys I) → Ret c → List (Thread I)
  | .pthreadCreate start, some t => w.threads ++
      [{ owner := i, code := body t start, detached := false, cancelled := false, done := false }]
  | .pthreadCancel t, true => w.threads.modify (t - 1) fun th => { th with cancelled := true }
  | _, _ => w.threads

/-- The child of a `fork` that succeeded: it goes on from the same point with
the other result. -/
def childOf (i : Nat) (p : Proc I α) :
    (c : Sys I) → (Ret c → Prog (Sys I) Ret α) → Ret c → Option (Nat × Proc I α)
  | .fork, k, .parent child =>
      some (child, { loc := p.loc.after .fork (.child child), code := k (.child child),
                     mode := .code, stopped := none, reported := false,
                     ppid := i, pgid := p.pgid })
  | _, _, _ => none

/-- The table after a call, before a child is added. -/
def procsAfter (w : World I α) (i : Nat) (p : Proc I α) (c : Sys I)
    (k : Ret c → Prog (Sys I) Ret α) (r : Ret c) (j : Nat) : Option (Proc I α) :=
  (w.procs j).map fun q =>
    if j = i then { touch i c r j q with loc := p.loc.after c r, code := k r }
    else touch i c r j q

/-- The world after process `i`, which is `p`, made the call `c` with result `r`. -/
def afterCall (body : Nat → I.Start → Prog (Sys I) Ret Unit) (w : World I α) (i : Nat) (p : Proc I α)
    (c : Sys I) (k : Ret c → Prog (Sys I) Ret α) (r : Ret c) : World I α where
  procs j :=
    match childOf i p c k r with
    | some (child, q) => if j = child then some q else w.procsAfter i p c k r j
    | none => w.procsAfter i p c k r j
  next :=
    match childOf i p c k r with
    | some _ => w.next + 1
    | none => w.next
  pipe := w.pipesAfter p.loc c r
  threads := w.threadsAfter body i c r

/-- The `execve` of a successful outcome. -/
def isExec : Sys I → Outcome I → Bool
  | .execve _ _ _, .ok => true
  | _, _ => false

/-- Process `i` makes its next step. -/
def sysStep (body : Nat → I.Start → Prog (Sys I) Ret Unit) (w : World I α) (i : Nat) (o : Outcome I) :
    Option (World I α) :=
  match w.procs i with
  | none => none
  | some p =>
      if p.mode = .code ∧ p.stopped = none then
        match p.code with
        | .ret _ => none
        | .exit n => some (w.update i (Proc.terminated (exitStatus n)))
        | .call c k =>
            if isExec c o then some (w.update i fun q => { q with mode := .program })
            else
              match w.reply i p.loc c o with
              | none => none
              | some r => some (w.afterCall body i p c k r)
      else none

/-- Thread `t` makes its next step.  Its calls are `pthread_detach` of itself,
`sleep`, where a cancellation takes effect, and `killpg`. -/
def threadStep (w : World I α) (t : Nat) (o : Outcome I) : Option (World I α) :=
  match w.thread? t with
  | none => none
  | some th =>
      if th.done = false ∧
          (w.procs th.owner).any (fun p => p.mode == .code && p.stopped.isNone) then
        match th.code, o with
        | .ret _, _ => some (w.updateThread t fun th => { th with done := true })
        | .call .pthreadDetach k, .ok =>
            some (w.updateThread t fun th => { th with code := k true, detached := true })
        | .call .pthreadDetach k, .fail =>
            some (w.updateThread t fun th => { th with code := k false })
        | .call (.sleep _) k, o =>
            if th.cancelled then some (w.updateThread t fun th => { th with done := true })
            else match o with
              | .ok => some (w.updateThread t fun th => { th with code := k true })
              | .fail => some (w.updateThread t fun th => { th with code := k false })
              | .answer _ => none
        | .call (.killpg g) k, .ok =>
            if w.groupExists g then
              some ((w.killGroup g).updateThread t fun th => { th with code := k true })
            else none
        | .call (.killpg _) k, .fail =>
            some (w.updateThread t fun th => { th with code := k false })
        | _, _ => none
      else none

/-- One act. -/
def step (body : Nat → I.Start → Prog (Sys I) Ret Unit) (w : World I α) : Act I → Option (World I α)
  | .sys i o => w.sysStep body i o
  | .thr t o => w.threadStep t o
  | .kill i sig core =>
      if IsSignal sig ∧ (w.procs i).any (fun p => p.mode.alive) then
        some (w.update i (Proc.terminated (killStatus sig core)))
      else none
  | .stop i sig =>
      if IsSignal sig ∧ (w.procs i).any Proc.running then
        some (w.update i fun p => { p with stopped := some sig, reported := false })
      else none
  | .cont i =>
      if (w.procs i).any (fun p => p.mode.alive) then
        some (w.update i fun p => { p with stopped := none })
      else none
  | .quit i code =>
      if (w.procs i).any (fun p => p.mode == .program && p.stopped.isNone) then
        some (w.update i (Proc.terminated (exitStatus code)))
      else none
  | .regroup i g =>
      if (w.procs i).any (fun p => p.mode == .program && p.stopped.isNone) then
        some (w.update i fun p => { p with pgid := g })
      else none
  | .drain i id =>
      if (w.procs i).any (fun p => p.mode == .program && p.stopped.isNone &&
          p.fds.refersTo (.pipeIn id)) ∧ w.pipe id ≠ [] then
        some (w.drained id)
      else none

/-- A run. -/
def run (body : Nat → I.Start → Prog (Sys I) Ret Unit) : World I α → List (Act I) → Option (World I α)
  | w, [] => some w
  | w, a :: as =>
      match w.step body a with
      | some w' => run body w' as
      | none => none

end World

end Posix
