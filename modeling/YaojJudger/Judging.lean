/-
# `YaojJudger.Judging` — one call of a judger, from its start to its return

The process that calls a judger gets back from it in one of nine ways, and only
in these: the branches of the two children end in `exit` or in `execve`.

    noPipe       E_PIPE      no pipe
    badArgc      E_ARGC      interactive, and not six arguments
    unprepared   yerrno      a hook before the fork failed
    noFork       E_FORK      no child
    notReady     E_CHILD     the child did not say READY
    unstarted    yerrno      a hook after the fork failed
    noWait       E_WAIT      waitpid failed; the child was killed
    unread       yerrno      a hook after the wait failed
    judged       0

`Judging j l m hs r es m'` says for each of them which hooks `hs` were invoked,
what was returned, which events `es` were recorded and what became of the
memory; `runs_judging` that there is no other way, `Judging.runs` that each can be
gone.
-/
import YaojJudger.Chain
import YaojJudger.Launch

namespace YaojJudger

open Posix

/-! ## The branches of the children do not return -/

section
variable {α : Type} {l l' : JLocal} {m m' : Mem}

@[simp] theorem not_runs_yexitNotready (code : Int) (spipe : Nat × Nat) (a : α) :
    ¬ Code.Runs (yexitNotready code spipe : YaojJudger.Code α) l m a l' m' := by
  simp [yexitNotready]

@[simp] theorem not_runs_yexitNotreadyYerrno (spipe : Nat × Nat) (a : α) :
    ¬ Code.Runs (yexitNotreadyYerrno spipe : YaojJudger.Code α) l m a l' m' := by
  simp [yexitNotreadyYerrno]

theorem not_runs_generalChild (pRun : Nat × Nat) (r : Int) :
    ¬ Code.Runs (generalChild pRun) l m r l' m' := by
  simp [generalChild, Code.runs_ite]

@[simp] theorem not_runs_executableBranch (itoe etoi iRun : Nat × Nat) (a : α) :
    ¬ Code.Runs (executableBranch itoe etoi iRun : YaojJudger.Code α) l m a l' m' := by
  simp [executableBranch, childExecProcess, Code.runs_ite]

@[simp] theorem not_runs_interactorBranch (pRun itoe etoi iRun : Nat × Nat) (a : α) :
    ¬ Code.Runs (interactorBranch pRun itoe etoi iRun : YaojJudger.Code α) l m a l' m' := by
  simp [interactorBranch, interactorReady, Code.runs_ite]

/-- A new pipe, or the end. -/
theorem not_runs_pipe {x : Nat × Nat → YaojJudger.Code α} (pRun : Nat × Nat) (a : α)
    (hx : ∀ ends l m, ¬ Code.Runs (x ends) l m a l' m') :
    ¬ Code.Runs (do
      match ← Code.call .pipe with
      | none => yexitNotready ePipe pRun
      | some ends => x ends) l m a l' m' := by
  intro h
  obtain ⟨r, -, h⟩ := (Code.runs_call_bind _ _ _).mp h
  cases r with
  | none => exact not_runs_yexitNotready _ _ _ h
  | some ends => exact hx ends _ _ h

theorem not_runs_childProcess (pRun : Nat × Nat) (a : α) :
    ¬ Code.Runs (childProcess pRun : YaojJudger.Code α) l m a l' m' := by
  intro h
  obtain ⟨pid, -, h⟩ := (Code.runs_call_bind _ _ _).mp h
  replace h := (Code.runs_modify_bind _ _ _).mp h
  obtain ⟨r, -, h⟩ := (Code.runs_call_bind _ _ _).mp h
  refine not_runs_pipe pRun a (fun itoe l m => ?_) h
  refine not_runs_pipe pRun a fun etoi l m => ?_
  refine not_runs_pipe pRun a fun iRun l m => ?_
  simp [Code.runs_ite]

end

/-! ## The two judgers -/

inductive Judger where
  | general
  | interactive
  deriving DecidableEq, Repr

def Judger.code : Judger → Code Int
  | .general => yjudgerGeneral
  | .interactive => yjudgerInteractive

/-- The number of arguments is checked before the fork by one of them only. -/
def Judger.Accepts (j : Judger) (m : Mem) : Prop := j = .interactive → m.ctxt.ectxt.argc = 6

/-- The memory after `pself = getpid(); pchild = -1`. -/
def Mem.begun (m : Mem) (pid : Nat) : Mem :=
  { m with ctxt := { m.ctxt with pself := (pid : Nat), pchild := -1 } }

/-- The memory of the parent of `n`. -/
def Mem.parent (m : Mem) (n : Nat) : Mem := { m with ctxt := { m.ctxt with pchild := (n : Nat) } }

/-- The memory when `waitpid` has delivered `status`. -/
def Mem.waited (m : Mem) (status : Nat) : Mem := { m with ctxt := { m.ctxt with status := status } }

/-- The first two events of a call that gets its pipe. -/
def opening (l : JLocal) : List JEvent := [⟨.getpid, l.pid⟩, ⟨.pipe, some l.pipeEnds⟩]

/-- The `fork` of `n` and its READY. -/
def handshake (l : JLocal) (n : Nat) : List JEvent :=
  [⟨.fork, .parent n⟩, ⟨.read l.pipeEnds.1, some ready⟩]

/-- The hooks before the fork invoke `hs` and succeed. -/
def Prepares (j : Judger) (l : JLocal) (m : Mem) (hs : List Hook) (es : List JEvent) (m₁ : Mem) :
    Prop :=
  j.Accepts m ∧
    ChainDoes (hooked (m.begun l.pid)).ctxt.hctxt.beforeFork (hooked (m.begun l.pid)) hs 0 es m₁

/-- The ways a call can go. -/
inductive Judging (j : Judger) (l : JLocal) (m : Mem) :
    List Hook → Int → List JEvent → Mem → Prop
  | noPipe : Judging j l m [] ePipe [⟨.getpid, l.pid⟩, ⟨.pipe, none⟩, said ePipe]
      ((m.begun l.pid).failed ePipe)
  | badArgc : ¬ j.Accepts m →
      Judging j l m [] eArgc (opening l ++ [said eArgc]) ((m.begun l.pid).failed eArgc)
  | unprepared {hs : List Hook} {r : Int} {es : List JEvent} {m₁ : Mem} : j.Accepts m →
      ChainDoes (hooked (m.begun l.pid)).ctxt.hctxt.beforeFork (hooked (m.begun l.pid)) hs r es
        m₁ → r ≠ 0 →
      Judging j l m hs m₁.yerrno (opening l ++ es ++ [said m₁.yerrno]) m₁
  | noFork {hs : List Hook} {es : List JEvent} {m₁ : Mem} : Prepares j l m hs es m₁ →
      Judging j l m hs eFork (opening l ++ es ++ [⟨.fork, .failed⟩, said eFork]) (m₁.failed eFork)
  | notReady {hs : List Hook} {es : List JEvent} {m₁ : Mem} {n : Nat} {v : Option Int} :
      Prepares j l m hs es m₁ → l.pid < n → v ≠ some ready →
      Judging j l m hs eChild
        (opening l ++ es ++ [⟨.fork, .parent n⟩, ⟨.read l.pipeEnds.1, v⟩, said eChild])
        ((m₁.parent n).failed eChild)
  | unstarted {hs hs₂ : List Hook} {es es₂ : List JEvent} {m₁ m₂ : Mem} {n : Nat} {r : Int} :
      Prepares j l m hs es m₁ → l.pid < n →
      ChainDoes (m₁.parent n).ctxt.hctxt.afterFork (m₁.parent n) hs₂ r es₂ m₂ → r ≠ 0 →
      Judging j l m (hs ++ hs₂) m₂.yerrno
        (opening l ++ es ++ handshake l n ++ es₂ ++ [said m₂.yerrno]) m₂
  | noWait {hs hs₂ : List Hook} {es es₂ : List JEvent} {m₁ m₂ : Mem} {n : Nat} (b : Bool) :
      Prepares j l m hs es m₁ → l.pid < n →
      ChainDoes (m₁.parent n).ctxt.hctxt.afterFork (m₁.parent n) hs₂ 0 es₂ m₂ →
      Judging j l m (hs ++ hs₂) eWait
        (opening l ++ es ++ handshake l n ++ es₂ ++
          [⟨.waitpid n true, none⟩, ⟨.killpg n, b⟩, said eWait]) (m₂.failed eWait)
  | unread {hs hs₂ hs₃ : List Hook} {es es₂ es₃ : List JEvent} {m₁ m₂ m₃ : Mem} {n status : Nat}
      {r : Int} :
      Prepares j l m hs es m₁ → l.pid < n →
      ChainDoes (m₁.parent n).ctxt.hctxt.afterFork (m₁.parent n) hs₂ 0 es₂ m₂ →
      ChainDoes (m₂.waited status).ctxt.hctxt.afterWait (m₂.waited status) hs₃ r es₃ m₃ → r ≠ 0 →
      Judging j l m (hs ++ hs₂ ++ hs₃) m₃.yerrno
        (opening l ++ es ++ handshake l n ++ es₂ ++ [⟨.waitpid n true, some status⟩] ++ es₃ ++
          [said m₃.yerrno]) m₃
  | judged {hs hs₂ hs₃ : List Hook} {es es₂ es₃ : List JEvent} {m₁ m₂ m₃ : Mem} {n status : Nat} :
      Prepares j l m hs es m₁ → l.pid < n →
      ChainDoes (m₁.parent n).ctxt.hctxt.afterFork (m₁.parent n) hs₂ 0 es₂ m₂ →
      ChainDoes (m₂.waited status).ctxt.hctxt.afterWait (m₂.waited status) hs₃ 0 es₃ m₃ →
      Judging j l m (hs ++ hs₂ ++ hs₃) 0
        (opening l ++ es ++ handshake l n ++ es₂ ++ [⟨.waitpid n true, some status⟩] ++ es₃) m₃

section
variable {l l' : JLocal} {m m' : Mem} {r : Int}

/-- A chain keeps what a handshake relies on. -/
theorem runs_chain_keeps {chain : List Hook}
    (h : Code.Runs (runHookChain hookFn chain) l m r l' m') : Keeps 0 l l' :=
  h.wp (Code.keeps_wp (fun _ hc => hc) (only_hooks chain m) fun _ _ _ _ => trivial
    : Code.wp anyCall anyExit _ _ l m)

theorem runs_fork (h : Code.Runs fork l m r l' m') :
    m' = m ∧ ((r = -1 ∧ l' = l.after (.fork : Call) .failed) ∨
      (∃ n, l.pid < n ∧ r = (n : Nat) ∧ l' = l.after (.fork : Call) (.parent n)) ∨ r = 0) := by
  obtain ⟨f, hf, h⟩ := (Code.runs_call_bind _ _ _).mp h
  cases f with
  | failed =>
      obtain ⟨rfl, rfl, rfl⟩ := (Code.runs_pure _ _).mp h
      exact ⟨rfl, Or.inl ⟨rfl, rfl⟩⟩
  | parent n =>
      obtain ⟨rfl, rfl, rfl⟩ := (Code.runs_pure _ _).mp h
      exact ⟨rfl, Or.inr (Or.inl ⟨n, hf, rfl, rfl⟩)⟩
  | child self =>
      obtain ⟨rfl, rfl, rfl⟩ := (Code.runs_pure _ _).mp h
      exact ⟨rfl, Or.inr (Or.inr rfl)⟩

theorem runs_waitSignal {p : Nat × Nat} (h : Code.Runs (waitSignal p) l m r l' m') :
    ∃ v, r = v.getD (-1) ∧ l' = l.after (.read p.1 : Call) v ∧ m' = m := by
  obtain ⟨v, -, h⟩ := (Code.runs_call_bind _ _ _).mp h
  cases v with
  | none =>
      obtain ⟨rfl, rfl, rfl⟩ := (Code.runs_pure _ _).mp h
      exact ⟨none, rfl, rfl, rfl⟩
  | some v =>
      obtain ⟨rfl, rfl, rfl⟩ := (Code.runs_pure _ _).mp h
      exact ⟨some _, rfl, rfl, rfl⟩

/-- What follows the fork in the parent, put behind the events `before`. -/
theorem runs_judgerParent {j : Judger} {l₀ : JLocal} {m₀ m₁ : Mem} {hs : List Hook}
    {es : List JEvent} {n : Nat} (hp : Prepares j l₀ m₀ hs es m₁) (hn : l₀.pid < n)
    (hlog : l.log = l₀.log ++ (opening l₀ ++ es) ++ [⟨.fork, .parent n⟩])
    (h : Code.Runs (judgerParent l₀.pipeEnds (n : Nat)) l m₁ r l' m') :
    ∃ hs es, Judging j l₀ m₀ hs r es m' ∧ l'.log = l₀.log ++ es := by
  replace h := (Code.runs_modify_bind _ _ _).mp h
  obtain ⟨a, l₂, m₂, hread, h⟩ := (Code.runs_bind _ _ _).mp h
  obtain ⟨v, rfl, rfl, rfl⟩ := runs_waitSignal hread
  rcases (Code.runs_ite _ _ _ _).mp h with ⟨hv, h⟩ | ⟨hv, h⟩
  · obtain ⟨rfl, rfl, rfl⟩ := (runs_yreturn _ _).mp h
    have hne : v ≠ some ready := by
      rintro rfl
      exact hv rfl
    exact ⟨hs, _, .notReady hp hn hne, by simp [hlog]⟩
  obtain rfl : v = some ready := by
    cases v with
    | none => exact absurd (not_not.mp hv) (by decide)
    | some v => exact congrArg some (not_not.mp hv)
  rw [Code.runs_get_bind] at h
  obtain ⟨r₂, l₃, m₃, hrun, h⟩ := (Code.runs_bind _ _ _).mp h
  obtain ⟨hs₂, es₂, hc, hlog₂⟩ := runs_chain hrun
  rcases (Code.runs_ite _ _ _ _).mp h with ⟨hr, h⟩ | ⟨hr, h⟩
  · obtain ⟨rfl, rfl, rfl⟩ := (runs_yreturnYerrno _).mp h
    exact ⟨_, _, .unstarted hp hn hc hr, by simp [hlog₂, hlog, handshake]⟩
  obtain rfl := not_not.mp hr
  obtain ⟨status, -, h⟩ := (Code.runs_call_bind _ _ _).mp h
  cases status with
  | none =>
      obtain ⟨b, -, h⟩ := (Code.runs_call_bind _ _ _).mp h
      obtain ⟨rfl, rfl, rfl⟩ := (runs_yreturn _ _).mp h
      exact ⟨_, _, .noWait b hp hn hc, by simp [hlog₂, hlog, handshake]⟩
  | some status =>
      replace h := (Code.runs_modify_bind _ _ _).mp h
      rw [Code.runs_get_bind] at h
      obtain ⟨r₃, l₄, m₄, hrun₃, h⟩ := (Code.runs_bind _ _ _).mp h
      obtain ⟨hs₃, es₃, hc₃, hlog₃⟩ := runs_chain hrun₃
      rcases (Code.runs_ite _ _ _ _).mp h with ⟨hr₃, h⟩ | ⟨hr₃, h⟩
      · obtain ⟨rfl, rfl, rfl⟩ := (runs_yreturnYerrno _).mp h
        exact ⟨_, _, .unread hp hn hc hc₃ hr₃, by simp [hlog₃, hlog₂, hlog, handshake]⟩
      · obtain rfl := not_not.mp hr₃
        obtain ⟨rfl, rfl, rfl⟩ := (Code.runs_pure _ _).mp h
        exact ⟨_, _, .judged hp hn hc hc₃, by simp [hlog₃, hlog₂, hlog, handshake]⟩

/-- From the hooks before the fork on. -/
theorem runs_prepared {j : Judger} {l₀ : JLocal} {m₀ : Mem} {child : Code Int}
    (hj : j.Accepts m₀) (hchild : ∀ l m r l' m', ¬ Code.Runs child l m r l' m')
    (hlog : l.log = l₀.log ++ opening l₀) (hpid : l.pid = l₀.pid)
    (h : Code.Runs (do
      if (← beforeFork) ≠ 0 then yreturnYerrno
      else
        let childPid ← fork
        if childPid < 0 then yreturn eFork
        else if childPid = 0 then child
        else judgerParent l₀.pipeEnds childPid) l (m₀.begun l₀.pid) r l' m') :
    ∃ hs es, Judging j l₀ m₀ hs r es m' ∧ l'.log = l₀.log ++ es := by
  obtain ⟨r₁, l₁, m₁, hb, h⟩ := (Code.runs_bind _ _ _).mp h
  replace hb := (Code.runs_modify_bind _ _ _).mp hb
  rw [Code.runs_get_bind] at hb
  obtain ⟨hs, es, hc, hlog₁⟩ := runs_chain hb
  rcases (Code.runs_ite _ _ _ _).mp h with ⟨hr, h⟩ | ⟨hr, h⟩
  · obtain ⟨rfl, rfl, rfl⟩ := (runs_yreturnYerrno _).mp h
    exact ⟨hs, _, .unprepared hj hc hr, by simp [hlog₁, hlog]⟩
  obtain rfl := not_not.mp hr
  have hpid₁ : l₁.pid = l₀.pid := (runs_chain_keeps hb).pid.trans hpid
  obtain ⟨f, l₂, m₂, hrun, h⟩ := (Code.runs_bind _ _ _).mp h
  obtain ⟨rfl, hf⟩ := runs_fork hrun
  rcases hf with ⟨rfl, rfl⟩ | ⟨n, hn, rfl, rfl⟩ | rfl
  · obtain ⟨rfl, rfl, rfl⟩ := (runs_yreturn _ _).mp h
    exact ⟨hs, _, .noFork ⟨hj, hc⟩, by simp [hlog₁, hlog]⟩
  · rw [hpid₁] at hn
    have hpos : ¬ ((n : Int) < 0) := by omega
    have hne : ¬ ((n : Int) = 0) := by omega
    rw [if_neg hpos, if_neg hne] at h
    exact runs_judgerParent ⟨hj, hc⟩ hn (by simp [hlog₁, hlog]) h
  · exact absurd h (hchild _ _ _ _ _)

/-- Up to the pipe. -/
theorem runs_opening {x : Nat × Nat → Code Int} (h : Code.Runs (do
      judgerStart
      match ← signalPipe with
      | none => yreturn ePipe
      | some pRun => x pRun) l m r l' m') :
    (r = ePipe ∧ m' = (m.begun l.pid).failed ePipe ∧
      l'.log = l.log ++ [⟨.getpid, l.pid⟩, ⟨.pipe, none⟩, said ePipe]) ∨
    ∃ l₁ : JLocal, Code.Runs (x l.pipeEnds) l₁ (m.begun l.pid) r l' m' ∧
      l₁.log = l.log ++ opening l ∧ l₁.pid = l.pid := by
  obtain ⟨_, l₁, m₁, hstart, h⟩ := (Code.runs_bind _ _ _).mp h
  obtain ⟨pid, hpid, hstart⟩ := (Code.runs_call_bind _ _ _).mp hstart
  obtain rfl : pid = l.pid := hpid
  obtain ⟨rfl, rfl⟩ := (runs_modifyCtxt _ _).mp hstart
  obtain ⟨ends, hends, h⟩ := (Code.runs_call_bind _ _ _).mp h
  cases ends with
  | none =>
      obtain ⟨rfl, rfl, rfl⟩ := (runs_yreturn _ _).mp h
      exact Or.inl ⟨rfl, rfl, by simp⟩
  | some ends =>
      have hp := piped_after hends
      obtain rfl : ends = l.pipeEnds := hends
      exact Or.inr ⟨_, h, by simp [opening], hp.pid⟩

/-- **There is no other way.** -/
theorem runs_judging {j : Judger} (h : Code.Runs j.code l m r l' m') :
    ∃ hs es, Judging j l m hs r es m' ∧ l'.log = l.log ++ es := by
  cases j with
  | general =>
      rcases runs_opening h with ⟨rfl, rfl, hlog⟩ | ⟨l₁, h, hlog, hpid⟩
      · exact ⟨[], _, .noPipe, hlog⟩
      · exact runs_prepared (fun hj => by cases hj)
          (fun _ _ _ _ _ => not_runs_generalChild _ _) hlog hpid h
  | interactive =>
      rcases runs_opening h with ⟨rfl, rfl, hlog⟩ | ⟨l₁, h, hlog, hpid⟩
      · exact ⟨[], _, .noPipe, hlog⟩
      rw [Code.runs_get_bind] at h
      rcases (Code.runs_ite _ _ _ _).mp h with ⟨hargc, h⟩ | ⟨hargc, h⟩
      · obtain ⟨rfl, rfl, rfl⟩ := (runs_yreturn _ _).mp h
        exact ⟨[], _, .badArgc fun hj => hargc (hj rfl), by simp [hlog]⟩
      · exact runs_prepared (fun _ => not_not.mp hargc)
          (fun _ _ _ _ _ => not_runs_childProcess _ _) hlog hpid h

end

/-! ## Each way can be gone -/

/-- The branch of the child. -/
def Judger.child : Judger → Nat × Nat → Code Int
  | .general => generalChild
  | .interactive => childProcess

/-- A judger from its `fork` on. -/
def Judger.forked (j : Judger) (pRun : Nat × Nat) : Code Int := do
  let childPid ← fork
  if childPid < 0 then yreturn eFork
  else if childPid = 0 then j.child pRun
  else judgerParent pRun childPid

section
variable {j : Judger} {l : JLocal} {m m' : Mem} {r : Int} {es : List JEvent} {n : Nat}

theorem records_judgerStart (l : JLocal) (m : Mem) :
    Code.Records judgerStart l m () [⟨.getpid, l.pid⟩] (m.begun l.pid) :=
  Code.records_call_bind (.getpid : Call) l.pid rfl
    ⟨_, (runs_modifyCtxt _ _).mpr ⟨rfl, rfl⟩, (List.append_nil _).symm⟩

/-- The read end is open where it was made. -/
def HoldsRead (l l₁ : JLocal) : Prop :=
  ∃ d, l₁.fds.get l.pipeEnds.1 = some d ∧ d.obj = .pipeIn l.nextPipe

theorem records_opened (hj : j.Accepts m)
    (h : ∀ l₁ : JLocal, l₁.pid = l.pid → HoldsRead l l₁ →
      Code.Records (do if (← beforeFork) ≠ 0 then yreturnYerrno else j.forked l.pipeEnds)
        l₁ (m.begun l.pid) r es m') :
    Code.Records j.code l m r (opening l ++ es) m' := by
  have hstart : ∀ l₁ : JLocal, Code.Runs judgerStart l m () l₁ (m.begun l.pid) →
      l₁ = l.after (.getpid : Call) l.pid := by
    intro l₁ hs
    obtain ⟨pid, hpid, hs⟩ := (Code.runs_call_bind _ _ _).mp hs
    obtain rfl : pid = l.pid := hpid
    exact ((runs_modifyCtxt _ _).mp hs).1
  have hp : Piped (l.after (.getpid : Call) l.pid) _ l.pipeEnds := piped_after rfl
  have hrest := h _ hp.pid ⟨_, hp.readEnd, rfl⟩
  cases j with
  | general =>
      refine (records_judgerStart l m).bind fun l₁ hs => ?_
      obtain rfl := hstart l₁ hs
      exact Code.records_call_bind (.pipe : Call) (some l.pipeEnds) rfl hrest
  | interactive =>
      refine (records_judgerStart l m).bind fun l₁ hs => ?_
      obtain rfl := hstart l₁ hs
      refine Code.records_call_bind (.pipe : Call) (some l.pipeEnds) rfl ?_
      exact Code.records_get_bind (Code.records_else (not_not.mpr (hj rfl)) hrest)

theorem records_beforeFork {hs : List Hook}
    (h : ChainDoes (hooked m).ctxt.hctxt.beforeFork (hooked m) hs r es m') :
    Code.Records beforeFork l m r es m' :=
  Code.records_modify_bind (Code.records_get_bind (h.runs l))

theorem runs_beforeFork {l' : JLocal} (h : Code.Runs beforeFork l m r l' m') : Keeps 0 l l' :=
  runs_chain_keeps ((Code.runs_get_bind _ _).mp ((Code.runs_modify_bind _ _ _).mp h))

/-- The hooks before the fork succeed. -/
theorem records_prepared {hs : List Hook} {es' : List JEvent} {m₁ : Mem}
    (hp : Prepares j l m hs es m₁)
    (h : ∀ l₁ : JLocal, l₁.pid = l.pid → HoldsRead l l₁ →
      Code.Records (j.forked l.pipeEnds) l₁ m₁ r es' m') :
    Code.Records j.code l m r (opening l ++ (es ++ es')) m' := by
  refine records_opened hp.1 fun l₁ hpid hin => ?_
  refine (records_beforeFork hp.2).bind fun l₂ hrun => Code.records_else (not_not.mpr rfl) ?_
  have hk := runs_beforeFork hrun
  exact h l₂ (hk.pid.trans hpid) (keeps_obj hk hin)

theorem records_fork {l₀ : JLocal} (hn : l.pid < n) (hin : HoldsRead l₀ l)
    (h : ∀ l₁ : JLocal, HoldsRead l₀ l₁ →
      Code.Records (judgerParent l₀.pipeEnds (n : Nat)) l₁ m r es m') :
    Code.Records (j.forked l₀.pipeEnds) l m r (⟨.fork, .parent n⟩ :: es) m' := by
  have hpos : ¬ ((n : Int) < 0) := by omega
  have hne : ¬ ((n : Int) = 0) := by omega
  have hfork : Code.Records fork l m (n : Int) [⟨.fork, .parent n⟩] m :=
    Code.records_call_bind (.fork : Call) (.parent n) hn (Code.records_pure _)
  refine hfork.bind fun l₁ hrun => ?_
  have hl₁ : l₁ = l.after (.fork : Call) (.parent n) := by
    obtain ⟨-, ⟨hr, -⟩ | ⟨n', -, hr, hl⟩ | hr⟩ := runs_fork hrun
    · omega
    · obtain rfl : n = n' := by omega
      exact hl
    · omega
  rw [if_neg hpos, if_neg hne, hl₁]
  exact h _ hin

/-- What the parent reads. -/
theorem records_waitSignal {p : Nat × Nat} {v : Option Int}
    (hv : v.isSome → (l.inPipe p.1).isSome) :
    Code.Records (waitSignal p) l m (v.getD (-1)) [⟨.read p.1, v⟩] m := by
  cases v with
  | none => exact Code.records_call_bind (.read p.1 : Call) none trivial (Code.records_pure _)
  | some v =>
      exact Code.records_call_bind (.read p.1 : Call) (some v) (hv rfl) (Code.records_pure _)

/-- The parent, once READY has come. -/
theorem records_ready {l₀ : JLocal} (hin : HoldsRead l₀ l)
    (h : ∀ l₁ : JLocal, Code.Records (do
      if (← runHookChain hookFn m.ctxt.hctxt.afterFork) ≠ 0 then yreturnYerrno
      else
        let status ← Code.call (.waitpid n true : Call)
        afterWaitpid (n : Nat) status) l₁ (m.parent n) r es m') :
    Code.Records (judgerParent l₀.pipeEnds (n : Nat)) l m r
      (⟨.read l₀.pipeEnds.1, some ready⟩ :: es) m' := by
  refine Code.records_modify_bind ?_
  refine (records_waitSignal (v := some ready) fun _ => ?_).bind fun l₁ _ => ?_
  · exact congrArg Option.isSome (inPipe_of_obj hin)
  · exact Code.records_else (not_not.mpr rfl) (Code.records_get_bind (h l₁))

/-- The hooks after the fork succeed. -/
theorem records_started {l₀ : JLocal} (hin : HoldsRead l₀ l) {hs : List Hook} {m₂ : Mem}
    {es₂ : List JEvent}
    (hc : ChainDoes (m.parent n).ctxt.hctxt.afterFork (m.parent n) hs 0 es₂ m₂)
    (h : ∀ l₁ : JLocal, Code.Records (do
      let status ← Code.call (.waitpid n true : Call)
      afterWaitpid (n : Nat) status) l₁ m₂ r es m') :
    Code.Records (judgerParent l₀.pipeEnds (n : Nat)) l m r
      (⟨.read l₀.pipeEnds.1, some ready⟩ :: (es₂ ++ es)) m' :=
  records_ready hin fun l₁ =>
    (hc.runs l₁).bind fun l₂ _ => Code.records_else (not_not.mpr rfl) (h l₂)

/-- The call `signal_pipe` fails. -/
theorem records_noPipe (j : Judger) (l : JLocal) (m : Mem) :
    Code.Records j.code l m ePipe [⟨.getpid, l.pid⟩, ⟨.pipe, none⟩, said ePipe]
      ((m.begun l.pid).failed ePipe) := by
  cases j with
  | general | interactive =>
      exact (records_judgerStart l m).bind fun _ _ =>
        Code.records_call_bind (.pipe : Call) none trivial (records_yreturn _)

theorem records_badArgc (hargc : m.ctxt.ectxt.argc ≠ 6) :
    Code.Records yjudgerInteractive l m eArgc (opening l ++ [said eArgc])
      ((m.begun l.pid).failed eArgc) := by
  refine (records_judgerStart l m).bind fun l₁ hs => ?_
  have hends : l₁.pipeEnds = l.pipeEnds := by
    obtain ⟨pid, -, hs⟩ := (Code.runs_call_bind _ _ _).mp hs
    obtain ⟨rfl, -⟩ := (runs_modifyCtxt _ _).mp hs
    rfl
  refine Code.records_call_bind (.pipe : Call) (some l.pipeEnds) hends.symm ?_
  exact Code.records_get_bind (Code.records_then hargc (records_yreturn _))

/-- **Each way can be gone.** -/
theorem Judging.runs {hs : List Hook} (h : Judging j l m hs r es m') :
    Code.Records j.code l m r es m' := by
  cases h with
  | noPipe => exact records_noPipe j l m
  | badArgc hj =>
      cases j with
      | general => exact absurd (fun h => by cases h) hj
      | interactive => exact records_badArgc fun h => hj fun _ => h
  | @unprepared hs r₁ es m₁ hj hc hr =>
      rw [List.append_assoc]
      refine records_opened hj fun l₁ _ _ => (records_beforeFork hc).bind fun l₂ _ => ?_
      exact Code.records_then hr records_yreturnYerrno
  | @noFork hs es m₁ hp =>
      rw [List.append_assoc]
      refine records_prepared hp fun l₁ _ _ => ?_
      have hfork : Code.Records fork l₁ m₁ (-1) [⟨.fork, .failed⟩] m₁ :=
        Code.records_call_bind (.fork : Call) .failed trivial (Code.records_pure _)
      exact hfork.bind fun l₂ _ => records_yreturn _
  | @notReady hs es m₁ n v hp hn hv =>
      rw [List.append_assoc]
      refine records_prepared hp fun l₁ hpid hin => records_fork (hpid ▸ hn) hin fun l₂ hin => ?_
      refine Code.records_modify_bind ?_
      refine (records_waitSignal (v := v) fun _ => ?_).bind fun l₂ _ => ?_
      · exact congrArg Option.isSome (inPipe_of_obj hin)
      · refine Code.records_then ?_ (records_yreturn _)
        cases v with
        | none => decide
        | some v => exact fun hr => hv (congrArg some hr)
  | @unstarted hs hs₂ es es₂ m₁ m₂ n r₂ hp hn hc hr =>
      have hrun := records_prepared hp fun l₁ hpid hin =>
        records_fork (hpid ▸ hn) hin fun l₁ hin => records_ready hin fun l₂ =>
          (hc.runs l₂).bind fun _ _ => Code.records_then hr records_yreturnYerrno
      simpa [handshake] using hrun
  | @noWait hs hs₂ es es₂ m₁ m₂ n b hp hn hc =>
      have hrun := records_prepared hp fun l₁ hpid hin =>
        records_fork (hpid ▸ hn) hin fun l₁ hin => records_started hin hc fun l₂ =>
          Code.records_call_bind (.waitpid n true : Call) none trivial
            (Code.records_call_bind (.killpg n : Call) b trivial (records_yreturn eWait))
      simpa [handshake] using hrun
  | @unread hs hs₂ hs₃ es es₂ es₃ m₁ m₂ m₃ n status r₃ hp hn hc hc₃ hr =>
      have hrun := records_prepared hp fun l₁ hpid hin =>
        records_fork (hpid ▸ hn) hin fun l₁ hin => records_started hin hc fun l₂ =>
          Code.records_call_bind (.waitpid n true : Call) (some status) trivial
            (Code.records_modify_bind (Code.records_get_bind ((hc₃.runs _).bind fun _ _ =>
              Code.records_then hr records_yreturnYerrno)))
      simpa [handshake] using hrun
  | @judged hs hs₂ hs₃ es es₂ es₃ m₁ m₂ m₃ n status hp hn hc hc₃ =>
      have hrun := records_prepared hp fun l₁ hpid hin =>
        records_fork (hpid ▸ hn) hin fun l₁ hin => records_started hin hc fun l₂ =>
          Code.records_call_bind (.waitpid n true : Call) (some status) trivial
            (Code.records_modify_bind (Code.records_get_bind ((hc₃.runs _).bind fun _ _ =>
              Code.records_else (not_not.mpr rfl) (Code.records_pure 0))))
      simpa [handshake] using hrun

end
/-! ## What is returned -/

/-- The error numbers a judger returns. -/
def judgerErrors : List Int := [ePipe, eArgc, eFork, eChild, eWait] ++ hookErrors

/-- A call that fails sets `yerrno` to what it returns, and one that does not
leaves it alone. -/
theorem Judging.yerrno {j : Judger} {l : JLocal} {m m' : Mem} {hs : List Hook} {r : Int}
    {es : List JEvent} (h : Judging j l m hs r es m') :
    (r = 0 ∧ m'.yerrno = m.yerrno) ∨ (r ∈ judgerErrors ∧ m'.yerrno = r) := by
  have hook : ∀ {r : Int}, r ∈ hookErrors → r ∈ judgerErrors := fun h =>
    List.mem_append_right _ h
  cases h with
  | noPipe | badArgc | noFork | notReady | noWait => exact Or.inr ⟨by decide, rfl⟩
  | unprepared _ hc hr =>
      obtain ⟨hmem, hy⟩ := hc.failed hr
      exact Or.inr ⟨hook (hy ▸ hmem), rfl⟩
  | unstarted _ _ hc hr =>
      obtain ⟨hmem, hy⟩ := hc.failed hr
      exact Or.inr ⟨hook (hy ▸ hmem), rfl⟩
  | unread _ _ _ hc hr =>
      obtain ⟨hmem, hy⟩ := hc.failed hr
      exact Or.inr ⟨hook (hy ▸ hmem), rfl⟩
  | judged hp _ h₂ h₃ => exact Or.inl ⟨rfl, h₃.all.1.trans (h₂.all.1.trans hp.2.all.1)⟩

theorem judgerErrors_bounds {r : Int} (h : r ∈ judgerErrors) : 0 < r ∧ r < 256 := by
  have hall : ∀ r ∈ judgerErrors, 0 < r ∧ r < 256 := by decide
  exact hall r h

end YaojJudger
