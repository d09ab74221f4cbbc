/-
# `YaojJudger.Shared` — what the calls in one process share

All that a call of a judger works on is in its context, but for a few globals:

    start, end    stamped by the two timers, subtracted by the second
    tid           filled in by `pthread_create`, if at all, then copied to the context
    yerrno        set where something fails, read where that is passed on

Calls on different contexts of one process make a `Pool` of judgements that share
the globals.  `AtomDoes` says what each piece does to a memory, and `Book` keeps
the books of one call: its stamps, its killers, its errors and its child, as its
own pieces and their events tell them.

`Serves g b`: the globals are what the call with book `b` left there, as far as
it will still read them.  A call that finds itself served takes an `OwnStep`, and
a step that is `Harmless` leaves everyone served (`served_step`).
-/
import YaojJudger.Armed
import YaojJudger.Atoms

namespace YaojJudger

open Posix

/-! ## The globals -/

structure Globals where
  yerrno : Int
  start : Timeval
  finish : Timeval
  tid : Nat
  logFd : Nat

/-- The memory is the globals and a context. -/
def memSplit : Mem ≃ Globals × YjudgerCtxt where
  toFun m := (⟨m.yerrno, m.start, m.finish, m.tid, m.logFd⟩, m.ctxt)
  invFun p :=
    { ctxt := p.2
      yerrno := p.1.yerrno
      start := p.1.start
      finish := p.1.finish
      tid := p.1.tid
      logFd := p.1.logFd }
  left_inv _ := rfl
  right_inv _ := rfl

abbrev JEntry := Entry judgerIface Atom.Res

/-- The calls of a process, each with a context of its own. -/
abbrev JPool (ι : Type) := Pool ι judgerIface Globals YjudgerCtxt Atom.Res Int

/-- What one of them can tell: its context, and what it has done. -/
abbrev JView := YjudgerCtxt × List JEntry

/-- A call that nobody comes between is a call of its judger. -/
theorem judgement_alone {ι : Type} [DecidableEq ι] {w₀ w : JPool ι} {i : ι} {j : Judger} {r : Int}
    (hj : w₀.prog i = judgement j)
    (hr : Pool.Reaches Atom.code memSplit (fun _ i' _ => i' = i) w₀ w) (hret : w.prog i = .ret r) :
    Code.Runs j.code w₀.loc (memSplit.symm (w₀.shared, w₀.own i)) r w.loc
      (memSplit.symm (w.shared, w.own i)) := by
  have hrun := hr.runs_alone hret
  rwa [hj, interp_judgement] at hrun

/-! ## What each piece does -/

/-- What a piece can do to a memory; the events matter for the hooks only. -/
inductive AtomDoes : (a : Atom) → Mem → a.Res → List JEvent → Mem → Prop
  | begin {m : Mem} (pid : Nat) (es : List JEvent) : AtomDoes .begin m () es (m.begun pid)
  | pipe {m : Mem} (ends : Option (Nat × Nat)) (es : List JEvent) : AtomDoes .pipe m ends es m
  | argc {m : Mem} (es : List JEvent) : AtomDoes .argc m m.ctxt.ectxt.argc es m
  | register {m : Mem} (es : List JEvent) : AtomDoes .register m () es (hooked m)
  | chain {m : Mem} (type : HookType) (es : List JEvent) :
      AtomDoes (.chain type) m (m.ctxt.hctxt.chain type) es m
  | hook {h : Hook} {m m' : Mem} {r : Int} {es : List JEvent} : HookDoes h m r es m' →
      AtomDoes (.hook h) m r es m'
  | passOn {m : Mem} (es : List JEvent) : AtomDoes .passOn m m.yerrno es m
  | fail {m : Mem} (errnum : Int) (es : List JEvent) :
      AtomDoes (.fail errnum) m errnum es (m.failed errnum)
  | fork {m : Mem} (childPid : Int) (es : List JEvent) : AtomDoes .fork m childPid es m
  | parent {m : Mem} (childPid : Int) (es : List JEvent) :
      AtomDoes (.parent childPid) m () es { m with ctxt := { m.ctxt with pchild := childPid } }
  | ready {m : Mem} (pRun : Nat × Nat) (signal : Int) (es : List JEvent) :
      AtomDoes (.ready pRun) m signal es m
  | waitpid {m : Mem} (childPid : Int) (st : Option Nat) (es : List JEvent) :
      AtomDoes (.waitpid childPid) m st es m
  | killpg {m : Mem} (childPid : Int) (b : Bool) (es : List JEvent) :
      AtomDoes (.killpg childPid) m b es m
  | status {m : Mem} (st : Nat) (es : List JEvent) : AtomDoes (.status st) m () es (m.waited st)

theorem not_runs_child (j : Judger) (pRun : Nat × Nat) {l l' : JLocal} {m m' : Mem} {r : Int} :
    ¬ Code.Runs (j.child pRun) l m r l' m' := by
  cases j with
  | general => exact not_runs_generalChild pRun r
  | interactive => exact not_runs_childProcess pRun r

/-- **What a piece can do.** -/
theorem runs_atom {a : Atom} {l l' : JLocal} {m m' : Mem} {r : a.Res} {es : List JEvent}
    (h : Code.Runs a.code l m r l' m') (hlog : l'.log = l.log ++ es) : AtomDoes a m r es m' := by
  cases a with
  | begin =>
      obtain ⟨pid, -, h⟩ := (Code.runs_call_bind _ _ _).mp h
      obtain ⟨-, rfl⟩ := (runs_modifyCtxt _ _).mp h
      exact .begin pid es
  | pipe =>
      obtain ⟨-, -, rfl⟩ := (Code.runs_call (.pipe : Call) r).mp h
      exact .pipe r es
  | argc =>
      replace h := (Code.runs_get_bind _ _).mp h
      obtain ⟨rfl, -, rfl⟩ := (Code.runs_pure _ _).mp h
      exact .argc es
  | register =>
      obtain ⟨-, rfl⟩ := (runs_modifyCtxt
        (fun ctxt => { ctxt with hctxt := registerBuiltinHook ctxt.hctxt }) r).mp h
      exact .register es
  | chain type =>
      replace h := (Code.runs_get_bind _ _).mp h
      obtain ⟨rfl, -, rfl⟩ := (Code.runs_pure _ _).mp h
      exact .chain type es
  | hook x =>
      obtain ⟨es', hd, hlog'⟩ := runs_hookFn h
      obtain rfl : es = es' := List.append_cancel_left (hlog.symm.trans hlog')
      exact .hook hd
  | passOn =>
      obtain ⟨rfl, -, rfl⟩ := (runs_yreturnYerrno _).mp h
      exact .passOn es
  | fail errnum =>
      obtain ⟨hr, -, rfl⟩ := (runs_yreturn errnum r).mp h
      rw [hr]
      exact .fail errnum es
  | fork =>
      rw [(runs_fork h).1]
      exact .fork r es
  | child j pRun => exact absurd h (not_runs_child j pRun)
  | parent childPid =>
      obtain ⟨-, rfl⟩ := (runs_modifyCtxt (fun ctxt => { ctxt with pchild := childPid }) r).mp h
      exact .parent childPid es
  | ready pRun =>
      obtain ⟨v, -, -, rfl⟩ := runs_waitSignal h
      exact .ready pRun r es
  | waitpid childPid =>
      obtain ⟨-, -, rfl⟩ := (Code.runs_call (.waitpid childPid.toNat true : Call) r).mp h
      exact .waitpid childPid r es
  | killpg childPid =>
      obtain ⟨-, -, rfl⟩ := (Code.runs_call (.killpg childPid.toNat : Call) r).mp h
      exact .killpg childPid r es
  | status st =>
      obtain ⟨-, rfl⟩ := (runs_modifyCtxt (fun ctxt => { ctxt with status := st }) r).mp h
      exact .status st es

/-! ## The books of one call -/

/-- The answer of the clock. -/
def clockAnswer : JEvent → Option Timeval
  | ⟨.ask .gettimeofday, now⟩ => some now
  | _ => none

/-- What a killer was to be started with, and the thread, if there is one. -/
def killerAnswer : JEvent → Option (TkillCtxt × Option Nat)
  | ⟨.pthreadCreate start, t⟩ => some (start, t)
  | _ => none

/-- What a refused `pthread_create` has left in `tid`. -/
def threadAnswer : JEvent → Option Nat
  | ⟨.ask .thread, left⟩ => some left
  | _ => none

def startStamp (e : JEntry) : Option Timeval :=
  match e.atom with
  | .hook .timerAfterFork => e.events.findSome? clockAnswer
  | _ => none

def endStamp (e : JEntry) : Option Timeval :=
  match e.atom with
  | .hook .timerAfterWait => e.events.findSome? clockAnswer
  | _ => none

def killerStart (e : JEntry) : Option (TkillCtxt × Option Nat) :=
  match e.atom with
  | .hook .startKillerAfterFork => e.events.findSome? killerAnswer
  | _ => none

def leftBehind (e : JEntry) : Option Nat :=
  match e.atom with
  | .hook .startKillerAfterFork => e.events.findSome? threadAnswer
  | _ => none

/-- The error code of a step that fails. -/
def errorCode : JEntry → Option Int
  | ⟨.hook _, r, _⟩ => if r = 0 then none else some r
  | ⟨.fail errnum, _, _⟩ => some errnum
  | _ => none

def forkedChild : JEntry → Option Int
  | ⟨.fork, childPid, _⟩ => some childPid
  | _ => none

/-- What a call has done, in order. -/
structure Book where
  starts : List Timeval
  ends : List Timeval
  killers : List (TkillCtxt × Option Nat)
  errors : List Int
  children : List Int

def Book.empty : Book where
  starts := []
  ends := []
  killers := []
  errors := []
  children := []

def Book.add (b : Book) (e : JEntry) : Book where
  starts := b.starts ++ (startStamp e).toList
  ends := b.ends ++ (endStamp e).toList
  killers := b.killers ++ (killerStart e).toList
  errors := b.errors ++ (errorCode e).toList
  children := b.children ++ (forkedChild e).toList

def book (done : List JEntry) : Book := done.foldl Book.add .empty

@[simp] theorem book_append (done : List JEntry) (e : JEntry) :
    book (done ++ [e]) = (book done).add e := by
  simp [book]

/-- The call has stamped more starts than ends. -/
def Book.Timing (b : Book) : Prop := b.ends.length < b.starts.length

instance (b : Book) : Decidable b.Timing := inferInstanceAs (Decidable (_ < _))

/-- The last killer the call has started, 0 if there is none. -/
def Book.tid (b : Book) : Nat := ((b.killers.filterMap Prod.snd).getLast?).getD 0

/-! ### What each piece adds -/

section
variable (b : Book) (r : Int) (es : List JEvent)

/-- The pieces the books do not mention. -/
def Atom.unbooked : Atom → Bool
  | .hook _ | .fail _ | .fork => false
  | _ => true

theorem Book.add_unbooked {a : Atom} (h : a.unbooked = true) (r : a.Res) :
    b.add ⟨a, r, es⟩ = b := by
  cases a with
  | hook | fail | fork => cases h
  | _ => simp [Book.add, startStamp, endStamp, killerStart, errorCode, forkedChild]

theorem Book.add_started (now : Timeval) :
    b.add ⟨.hook .timerAfterFork, (0 : Int), [⟨.ask .gettimeofday, now⟩]⟩ =
      { b with starts := b.starts ++ [now] } := by
  simp [Book.add, startStamp, endStamp, killerStart, errorCode, forkedChild, clockAnswer]

theorem Book.add_ended (now : Timeval) :
    b.add ⟨.hook .timerAfterWait, (0 : Int), [⟨.ask .gettimeofday, now⟩]⟩ =
      { b with ends := b.ends ++ [now] } := by
  simp [Book.add, startStamp, endStamp, killerStart, errorCode, forkedChild, clockAnswer]

/-- The thread that was created, if one was. -/
def Attempt.thread : Attempt → Option Nat
  | .created t => some t
  | .refused _ => none

theorem Book.add_killer (start : TkillCtxt) (t : Attempt) :
    b.add ⟨.hook .startKillerAfterFork, (0 : Int), t.events start⟩ =
      { b with killers := b.killers ++ [(start, t.thread)] } := by
  cases t with
  | created n =>
      simp [Attempt.events, Attempt.thread, Book.add, startStamp, endStamp, killerStart, errorCode,
        forkedChild, killerAnswer]
  | refused left =>
      have hstart : killerStart ⟨.hook .startKillerAfterFork, (0 : Int),
          (Attempt.refused left).events start⟩ = some (start, none) := rfl
      simp [Attempt.thread, Book.add, startStamp, endStamp, hstart, errorCode, forkedChild]

theorem Book.tid_killer (start : TkillCtxt) (t : Option Nat) :
    Book.tid { b with killers := b.killers ++ [(start, t)] } = t.getD b.tid := by
  cases t with
  | none => simp [Book.tid]
  | some t => simp [Book.tid]

theorem Book.add_noLimit : b.add ⟨.hook .startKillerAfterFork, (0 : Int), []⟩ = b := by
  simp [Book.add, startStamp, endStamp, killerStart, errorCode, forkedChild]

/-- The hooks that read the clock or start a killer. -/
def Hook.measures : Hook → Bool
  | .timerAfterFork | .timerAfterWait | .startKillerAfterFork => true
  | _ => false

/-- The other hooks leave a trace only where they fail. -/
theorem Book.add_hook {h : Hook} (hh : h.measures = false) :
    b.add ⟨.hook h, r, es⟩ = { b with errors := b.errors ++ if r = 0 then [] else [r] } := by
  have herrors : (errorCode ⟨.hook h, r, es⟩).toList = if r = 0 then [] else [r] := by
    rw [errorCode]
    split <;> rfl
  cases h with
  | timerAfterFork | timerAfterWait | startKillerAfterFork => cases hh
  | _ => simp [Book.add, startStamp, endStamp, killerStart, forkedChild, herrors]

end

/-! ## Serving and harming -/

/-- The globals that a call will read are what it has written. -/
structure Serves (g : Globals) (b : Book) : Prop where
  start : b.Timing → ∀ s ∈ b.starts.getLast?, toMillisecond g.start = toMillisecond s
  error : ∀ r ∈ b.errors.getLast?, g.yerrno = r

section
variable {ι : Type} [DecidableEq ι]

/-- Everyone who is not over is served. -/
def Served (w : JPool ι) : Prop := ∀ i, w.Running i → Serves w.shared (book (w.done i))

/-- The step `e` of call `i` overwrites nothing that another call will read, nor
does it read what is not its own. -/
structure Harmless (w : JPool ι) (i : ι) (e : JEntry) : Prop where
  start : ∀ now ∈ startStamp e, ∀ j, j ≠ i → w.Running j → (book (w.done j)).Timing →
    ∀ s ∈ (book (w.done j)).starts.getLast?, toMillisecond now = toMillisecond s
  error : ∀ r ∈ errorCode e, ∀ j, j ≠ i → w.Running j →
    ∀ r' ∈ (book (w.done j)).errors.getLast?, r = r'
  tid : ∀ left ∈ leftBehind e, left = (book (w.done i)).tid

end

/-- A step of a call, from globals that serve it. -/
inductive OwnStep : JView → (a : Atom) → a.Res → JView → Prop
  | mk {a : Atom} {m m' : Mem} {r : a.Res} {es : List JEvent} {done : List JEntry} :
      AtomDoes a m r es m' → Serves (memSplit m).1 (book done) →
      (∀ left ∈ leftBehind ⟨a, r, es⟩, left = (book done).tid) →
      OwnStep (m.ctxt, done) a r (m'.ctxt, done ++ [⟨a, r, es⟩])

/-! ## A harmless step leaves everyone served -/

section
variable {a : Atom} {m m' : Mem} {r : a.Res} {es : List JEvent} {b : Book} {e : JEntry}

/-- `yerrno` is set where something fails, and only there. -/
theorem AtomDoes.yerrno (hd : AtomDoes a m r es m') :
    m'.yerrno = (errorCode ⟨a, r, es⟩).getD m.yerrno := by
  cases hd with
  | hook hd =>
      rcases hd.yerrno with ⟨rfl, hy⟩ | ⟨hr, hy⟩
      · exact hy
      · rw [errorCode, if_neg (ne_zero_of_hookErrors hr)]
        exact hy
  | _ => rfl

theorem HookDoes.start {h : Hook} {r : Int} (hd : HookDoes h m r es m') :
    m'.start = (startStamp ⟨.hook h, r, es⟩).getD m.start := by
  cases hd <;> rfl

/-- `start` is set by `timer_after_fork` only. -/
theorem AtomDoes.start (hd : AtomDoes a m r es m') :
    m'.start = (startStamp ⟨a, r, es⟩).getD m.start := by
  cases hd with
  | hook hd => exact hd.start
  | _ => rfl

theorem Book.timing_of_add (hs : startStamp e = none) (h : (b.add e).Timing) : b.Timing := by
  have hle : b.ends.length ≤ (b.add e).ends.length := by simp [Book.add]
  have hstarts : (b.add e).starts = b.starts := by simp [Book.add, hs]
  rw [Book.Timing, hstarts] at h
  exact Nat.lt_of_le_of_lt hle h

/-- A call serves itself. -/
theorem AtomDoes.serves (hd : AtomDoes a m r es m') (hs : Serves (memSplit m).1 b) :
    Serves (memSplit m').1 (b.add ⟨a, r, es⟩) := by
  constructor
  · intro ht s hlast
    show toMillisecond m'.start = _
    rw [hd.start]
    cases hstamp : startStamp ⟨a, r, es⟩ with
    | none =>
        have hstarts : (b.add ⟨a, r, es⟩).starts = b.starts := by simp [Book.add, hstamp]
        rw [hstarts] at hlast
        exact hs.start (Book.timing_of_add hstamp ht) s hlast
    | some now =>
        have hstarts : (b.add ⟨a, r, es⟩).starts.getLast? = some now := by simp [Book.add, hstamp]
        obtain rfl := Option.some.inj (hstarts.symm.trans hlast)
        rfl
  · intro r' hlast
    show m'.yerrno = _
    rw [hd.yerrno]
    cases hcode : errorCode ⟨a, r, es⟩ with
    | none =>
        have herrors : (b.add ⟨a, r, es⟩).errors = b.errors := by simp [Book.add, hcode]
        rw [herrors] at hlast
        exact hs.error r' hlast
    | some c =>
        have herrors : (b.add ⟨a, r, es⟩).errors.getLast? = some c := by simp [Book.add, hcode]
        obtain rfl := Option.some.inj (herrors.symm.trans hlast)
        rfl

/-- And another one, where its stamp and its error are the same. -/
theorem AtomDoes.serves_other (hd : AtomDoes a m r es m') (hs : Serves (memSplit m).1 b)
    (hstart : ∀ now ∈ startStamp ⟨a, r, es⟩, b.Timing →
      ∀ s ∈ b.starts.getLast?, toMillisecond now = toMillisecond s)
    (herror : ∀ c ∈ errorCode ⟨a, r, es⟩, ∀ r' ∈ b.errors.getLast?, c = r') :
    Serves (memSplit m').1 b := by
  constructor
  · intro ht s hlast
    show toMillisecond m'.start = _
    rw [hd.start]
    cases hstamp : startStamp ⟨a, r, es⟩ with
    | none => exact hs.start ht s hlast
    | some now => exact hstart now hstamp ht s hlast
  · intro r' hlast
    show m'.yerrno = _
    rw [hd.yerrno]
    cases hcode : errorCode ⟨a, r, es⟩ with
    | none => exact hs.error r' hlast
    | some c => exact herror c hcode r' hlast

end

/-- **The step lemma.** -/
theorem served_step {ι : Type} [DecidableEq ι] {w w' : JPool ι} {i : ι} {e : JEntry}
    (hw : Served w) (hok : Harmless w i e) (hs : Pool.Step Atom.code memSplit w i e w') :
    OwnStep (w.view i) e.atom e.result (w'.view i) ∧ Served w' := by
  cases hs with
  | @mk k l' m' hp hrun hpid hlog =>
      have hd := runs_atom hrun hlog
      have hself := Pool.after_self (w := w) (i := i) (e := e) (k e.result) l' (memSplit m')
      refine ⟨?_, fun j hj => ?_⟩
      · rw [hself.1]
        exact .mk hd (hw i ⟨_, _, hp⟩) hok.tid
      by_cases hji : j = i
      · subst hji
        have hdone : (w.after j e (k e.result) l' (memSplit m')).done j = w.done j ++ [e] :=
          congrArg Prod.snd hself.1
        rw [hdone, book_append]
        exact hd.serves (hw j ⟨_, _, hp⟩)
      · obtain ⟨hview, hprog⟩ :=
          Pool.after_other (w := w) (e := e) hji (k e.result) l' (memSplit m')
        have hdone : (w.after i e (k e.result) l' (memSplit m')).done j = w.done j :=
          congrArg Prod.snd hview
        have hrunning : w.Running j := by
          rwa [Pool.Running, hprog] at hj
        rw [hdone]
        exact hd.serves_other (hw j hrunning) (fun now hnow => hok.start now hnow j hji hrunning)
          (fun c hc => hok.error c hc j hji hrunning)

end YaojJudger
