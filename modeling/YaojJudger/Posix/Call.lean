/-
# `YaojJudger.Posix.Call` — the calls, and what one call does to its own process

The signature `Sys I` lists the calls a modelled program may make.  Besides
the POSIX ones there is `ask`, a question whose answer comes from outside (a
clock, a usage counter, a library): the interface `I` says which questions
there are.  `fault` has no result: it is where C leaves the behaviour
undefined, and no step leads out of it.

A result is given as what the program can tell from it: `false` or `none` is
the error return.  Any call may fail, at any time.

`Local` is the part of a process no other process can touch: its descriptor
table, and the ghost record of what it did.

    log     the calls made so far, each with its result
    wrote   the (pipe, value) pairs it put into a pipe
    got     the (pipe, value) pairs it took out of one

`fork` copies a `Local`, record included.  So the record of a process tells
the whole line of its ancestors, and a child is told from its parent by the
result of the `fork` in it.

`Local.Can` says which results a call may have; `Local.after` what the process
looks like then.  Both leave open what only the whole system decides, such as
the value a `read` delivers.
-/
import YaojJudger.Prog
import YaojJudger.Posix.Desc
import Mathlib.Data.List.Infix

namespace Posix

/-- What a program may ask of its surroundings, and what it installs there. -/
structure Iface where
  /-- questions answered from outside -/
  Ask : Type
  Ans : Ask → Type
  /-- system call filters -/
  Filter : Type
  /-- what a new thread is started with -/
  Start : Type

/-- The resources of `setrlimit`. -/
inductive Rlimit where
  | cpu | as | fsize | stack | nofile
  deriving DecidableEq, Repr

/-- The three ways `fork` returns. -/
inductive Forked where
  | failed
  | parent (child : Nat)
  | child (self : Nat)
  deriving DecidableEq, Repr

variable {I : Iface}

/-- The calls. -/
inductive Sys (I : Iface) where
  | getpid
  | pipe
  | fork
  | setpgid
  | open_ (path : List UInt8) (mode : OpenMode)
  | dup2 (oldfd newfd : Nat)
  | setCloexec (fd : Nat)
  | setrlimit (res : Rlimit) (cur max : UInt64)
  | setNoNewPrivs
  | setSeccomp (filter : I.Filter)
  | execve (path : List UInt8) (argv : List (List UInt8)) (env : Option (List (List UInt8)))
  | write (fd : Nat) (v : Int)
  | read (fd : Nat)
  | waitpid (pid : Nat) (untraced : Bool)
  | killpg (pgrp : Nat)
  | pthreadCreate (start : I.Start)
  | pthreadDetach
  | pthreadCancel (tid : Nat)
  | pthreadJoin (tid : Nat)
  | sleep (seconds : UInt32)
  | ask (q : I.Ask)
  | fault

/-- Results.  `setpgid` is `setpgid(0, 0)`; `write` and `read` move one `int`;
`execve` returns only when it fails, and without an `env` it passes on the
environment of the caller; `waitpid` delivers a wait status; `killpg`
sends `SIGKILL`. -/
@[reducible] def Ret : Sys I → Type
  | .getpid => Nat
  | .pipe => Option (Nat × Nat)
  | .fork => Forked
  | .open_ _ _ => Option Nat
  | .execve _ _ _ => Unit
  | .read _ => Option Int
  | .waitpid _ _ => Option Nat
  | .pthreadCreate _ => Option Nat
  | .ask q => I.Ans q
  | .fault => Empty
  | .setpgid | .dup2 _ _ | .setCloexec _ | .setrlimit _ _ _ | .setNoNewPrivs | .setSeccomp _
  | .write _ _ | .killpg _ | .pthreadDetach | .pthreadCancel _ | .pthreadJoin _ | .sleep _ => Bool

/-- A call with its result. -/
structure Event (I : Iface) where
  call : Sys I
  result : Ret call

/-- The private state of a process. -/
structure Local (I : Iface) where
  pid : Nat
  fds : FdTable
  npipes : Nat
  log : List (Event I)
  wrote : List (PipeId × Int)
  got : List (PipeId × Int)

namespace Local

/-- Process 1 with descriptor table `t`, before its first call. -/
def start (t : FdTable) : Local I where
  pid := 1
  fds := t
  npipes := 0
  log := []
  wrote := []
  got := []

/-- The pipe a write to `fd` goes into. -/
def outPipe (l : Local I) (fd : Nat) : Option PipeId :=
  match l.fds.get fd with
  | some ⟨.pipeOut id, _⟩ => some id
  | _ => none

/-- The pipe a read from `fd` takes from. -/
def inPipe (l : Local I) (fd : Nat) : Option PipeId :=
  match l.fds.get fd with
  | some ⟨.pipeIn id, _⟩ => some id
  | _ => none

/-- Can a write to `fd` succeed? -/
def writable (l : Local I) (fd : Nat) : Bool :=
  match l.fds.get fd with
  | some ⟨.pipeIn _, _⟩ | none => false
  | some _ => true

/-- The name of the next pipe. -/
def nextPipe (l : Local I) : PipeId := (l.pid, l.npipes)

/-- The table with the two ends of the next pipe in it, each at the lowest
free descriptor. -/
def pipeFds (l : Local I) : FdTable :=
  let t := l.fds.set l.fds.lowest ⟨.pipeIn l.nextPipe, false⟩
  t.set t.lowest ⟨.pipeOut l.nextPipe, false⟩

/-- The descriptors `pipe` hands out. -/
def pipeEnds (l : Local I) : Nat × Nat :=
  (l.fds.lowest, (l.fds.set l.fds.lowest ⟨.pipeIn l.nextPipe, false⟩).lowest)

/-- Which results a call may have. -/
def Can (l : Local I) : (c : Sys I) → Ret c → Prop
  | .getpid, r => r = l.pid
  | .pipe, some ends => ends = l.pipeEnds
  | .open_ _ _, some fd => fd = l.fds.lowest
  | .fork, .parent child => l.pid < child
  | .fork, .child self => l.pid < self
  | .dup2 oldfd _, true => (l.fds.get oldfd).isSome
  | .write fd _, true => l.writable fd
  | .read fd, some _ => (l.inPipe fd).isSome
  | .fault, r => nomatch r
  | _, _ => True

/-- What a call with result `r` changes, the ghost record apart. -/
def effect (l : Local I) : (c : Sys I) → Ret c → Local I
  | .pipe, some _ => { l with fds := l.pipeFds, npipes := l.npipes + 1 }
  | .fork, .child self => { l with pid := self, npipes := 0 }
  | .open_ path mode, some fd => { l with fds := l.fds.set fd ⟨.file path mode, false⟩ }
  | .dup2 oldfd newfd, true =>
      -- onto itself, `dup2` does nothing at all
      if oldfd = newfd then l
      else match l.fds.get oldfd with
        | some d => { l with fds := l.fds.set newfd { d with cloexec := false } }
        | none => l
  | .setCloexec fd, true =>
      match l.fds.get fd with
      | some d => { l with fds := l.fds.set fd { d with cloexec := true } }
      | none => l
  | _, _ => l

/-- What a call with result `r` puts into a pipe. -/
def sent (l : Local I) : (c : Sys I) → Ret c → Option (PipeId × Int)
  | .write fd v, true => (l.outPipe fd).map (·, v)
  | _, _ => none

/-- What a call with result `r` takes out of a pipe. -/
def taken (l : Local I) : (c : Sys I) → Ret c → Option (PipeId × Int)
  | .read fd, some v => (l.inPipe fd).map (·, v)
  | _, _ => none

/-- The process after a call. -/
def after (l : Local I) (c : Sys I) (r : Ret c) : Local I :=
  { l.effect c r with
    log := l.log ++ [⟨c, r⟩]
    wrote := l.wrote ++ (l.sent c r).toList
    got := l.got ++ (l.taken c r).toList }

/-- One call, as far as its own process can tell. -/
def Step (l : Local I) (c : Sys I) (r : Ret c) (l' : Local I) : Prop :=
  l.Can c r ∧ l' = l.after c r

@[simp] theorem after_log (l : Local I) (c : Sys I) (r : Ret c) :
    (l.after c r).log = l.log ++ [⟨c, r⟩] := rfl

@[simp] theorem after_wrote (l : Local I) (c : Sys I) (r : Ret c) :
    (l.after c r).wrote = l.wrote ++ (l.sent c r).toList := rfl

@[simp] theorem after_got (l : Local I) (c : Sys I) (r : Ret c) :
    (l.after c r).got = l.got ++ (l.taken c r).toList := rfl

@[simp] theorem after_fork_wrote (l : Local I) (r : Forked) :
    (l.after .fork r).wrote = l.wrote := List.append_nil _

@[simp] theorem after_fork_got (l : Local I) (r : Forked) :
    (l.after .fork r).got = l.got := List.append_nil _

/-- Only the child's side of a `fork` has a new process number. -/
theorem after_pid {l : Local I} {c : Sys I} {r : Ret c} :
    (l.after c r).pid = l.pid ∨ ∃ self, (⟨c, r⟩ : Event I) = ⟨.fork, .child self⟩ := by
  cases c with
  | fork =>
      cases r with
      | child self => exact Or.inr ⟨self, rfl⟩
      | failed | parent child => exact Or.inl rfl
  | pipe => cases r <;> exact Or.inl rfl
  | open_ path mode => cases r <;> exact Or.inl rfl
  | dup2 oldfd newfd =>
      left
      cases r with
      | false => rfl
      | true =>
          show (l.effect (.dup2 oldfd newfd) true).pid = l.pid
          simp only [effect]
          split
          · rfl
          · split <;> rfl
  | setCloexec fd =>
      left
      cases r with
      | false => rfl
      | true =>
          show (l.effect (.setCloexec fd) true).pid = l.pid
          simp only [effect]
          split <;> rfl
  | _ => exact Or.inl rfl

end Local

/-! ## Lineage -/

/-- The process a `fork` in a record made of its process. -/
def Event.born : Event I → Option Nat
  | ⟨.fork, .child self⟩ => some self
  | _ => none

/-- The processes a record went through, process 1 apart: its ancestors, oldest
first, and its own process last. -/
def lineage (es : List (Event I)) : List Nat := es.filterMap Event.born

@[simp] theorem lineage_nil : lineage ([] : List (Event I)) = [] := rfl

@[simp] theorem lineage_append (es es' : List (Event I)) :
    lineage (es ++ es') = lineage es ++ lineage es' := List.filterMap_append

theorem lineage_child (self : Nat) (es : List (Event I)) :
    lineage (⟨.fork, .child self⟩ :: es) = self :: lineage es := rfl

theorem Event.born_eq_none {e : Event I} (h : ∀ self, e ≠ ⟨.fork, .child self⟩) :
    e.born = none := by
  obtain ⟨c, r⟩ := e
  cases c with
  | fork =>
      cases r with
      | child self => exact absurd rfl (h self)
      | failed | parent child => rfl
  | _ => rfl

theorem lineage_eq_nil {es : List (Event I)} (h : ∀ e ∈ es, e.born = none) : lineage es = [] :=
  List.filterMap_eq_nil_iff.mpr h

theorem Local.lineage_after {l : Local I} {c : Sys I} {r : Ret c}
    (h : (⟨c, r⟩ : Event I).born = none) :
    lineage (l.after c r).log = lineage l.log := by
  have hnil : lineage [(⟨c, r⟩ : Event I)] = [] := by
    refine lineage_eq_nil ?_
    intro e he
    rw [List.mem_singleton.mp he, h]
  rw [after_log, lineage_append, hnil, List.append_nil]

end Posix
