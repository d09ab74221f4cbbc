/-
# `YaojJudger.Chain` — what the hooks do, one by one and in a chain

The functions of a judgement are told apart by what they answer to and what
they leave in memory.  `HookDoes h m r es m'` lists, for each builtin hook, its
ways to end: called with memory `m` it returns `r`, has put the events `es` on
the record, and leaves `m'`.  `ChainDoes` does the same for a chain, and says
which of its hooks were invoked.

    hook                  fails                     otherwise
    compile_policy        bad identifier, kafel     the filter is set
    init_result           fcntl                     the code is SE
    timer_after_fork      never                     start
    start_killer          never                     tid, if a limit is set
    timer_after_wait      never                     end, real_time
    get_usage             getrusage                 rusage, cpu_time
    stop_killer           never                     nothing
    analyze               never                     the verdict

`runs_hookFn` and `runs_chain` say that these are all the runs of the code,
`HookDoes.runs` and `ChainDoes.runs` that each of them is one.
-/
import YaojJudger.Posix.Runs
import YaojJudger.Verdict
import YaojJudger.Guard

namespace YaojJudger

open Posix

/-! ## Runs of the small pieces -/

/-- The lookup of an error message. -/
abbrev said (errnum : Int) : JEvent := ⟨.ask (.strerr errnum), ()⟩

/-- Calls that leave nothing but an event. -/
def plain : Call → Bool
  | .pipe | .fork | .open_ _ _ | .dup2 _ _ | .setCloexec _ | .write _ _ | .read _ | .fault => false
  | _ => true

theorem after_plain {l : JLocal} {c : Call} (h : plain c = true) (r : Ret c) :
    l.after c r = told l [⟨c, r⟩] := by
  cases c with
  | pipe | fork | open_ | dup2 | setCloexec | write | read | fault =>
      exact absurd h Bool.false_ne_true
  | _ => simp [Local.after, Local.effect, Local.sent, Local.taken, told]

section
variable {α : Type} {l l' : JLocal} {m m' : Mem}

@[simp] theorem runs_ask (q : Ask) (r : q.Ans) :
    Code.Runs (ask q) l m r l' m' ↔ l' = told l [⟨.ask q, r⟩] ∧ m' = m := by
  rw [ask, Code.runs_call, after_ask]
  exact and_iff_right trivial

theorem runs_ask_bind (q : Ask) (f : q.Ans → YaojJudger.Code α) (a : α) :
    Code.Runs (ask q >>= f) l m a l' m' ↔
      ∃ r, Code.Runs (f r) (told l [⟨.ask q, r⟩]) m a l' m' := by
  rw [ask, Code.runs_call_bind]
  refine exists_congr fun r => ?_
  rw [after_ask]
  exact and_iff_right trivial

@[simp] theorem runs_ystrerr (errnum : Int) (a : Unit) :
    Code.Runs (ystrerr errnum) l m a l' m' ↔ l' = told l [said errnum] ∧ m' = m :=
  runs_ask (.strerr errnum) a

@[simp] theorem runs_yreturn (errnum r : Int) :
    Code.Runs (yreturn errnum) l m r l' m' ↔
      r = errnum ∧ l' = told l [said errnum] ∧ m' = { m with yerrno := errnum } := by
  simp only [yreturn, yerr, Code.runs_bind, runs_ystrerr, Code.runs_modify, Code.runs_pure]
  constructor
  · rintro ⟨-, l₁, m₁, ⟨rfl, rfl⟩, -, l₂, m₂, ⟨rfl, rfl⟩, rfl, rfl, rfl⟩
    exact ⟨rfl, rfl, rfl⟩
  · rintro ⟨rfl, rfl, rfl⟩
    exact ⟨(), _, _, ⟨rfl, rfl⟩, (), _, _, ⟨rfl, rfl⟩, rfl, rfl, rfl⟩

@[simp] theorem runs_yreturnYerrno (r : Int) :
    Code.Runs yreturnYerrno l m r l' m' ↔
      r = m.yerrno ∧ l' = told l [said m.yerrno] ∧ m' = m := by
  simp only [yreturnYerrno, Code.runs_bind, Code.runs_get, runs_yreturn]
  constructor
  · rintro ⟨a, l₁, m₁, ⟨rfl, rfl, rfl⟩, rfl, rfl, rfl⟩
    exact ⟨rfl, rfl, rfl⟩
  · rintro ⟨rfl, rfl, rfl⟩
    exact ⟨_, l, _, ⟨rfl, rfl, rfl⟩, rfl, rfl, rfl⟩

@[simp] theorem runs_yexit (errnum : Int) (a : α) :
    ¬ Code.Runs (yexit errnum : YaojJudger.Code α) l m a l' m' := by
  simp [yexit]

@[simp] theorem runs_yexitYerrno (a : α) :
    ¬ Code.Runs (yexitYerrno : YaojJudger.Code α) l m a l' m' := by
  simp [yexitYerrno]

@[simp] theorem runs_modifyCtxt (f : YjudgerCtxt → YjudgerCtxt) (a : Unit) :
    Code.Runs (modifyCtxt f) l m a l' m' ↔ l' = l ∧ m' = { m with ctxt := f m.ctxt } :=
  Code.runs_modify _ _

end

/-! ## The hooks -/

/-- The memory with `yerrno` set. -/
def Mem.failed (m : Mem) (errnum : Int) : Mem := { m with yerrno := errnum }

/-- The memory with the result preset. -/
def Mem.preset (m : Mem) : Mem := { m with ctxt := { m.ctxt with result := m.ctxt.result.preset } }

/-- The memory with a compiled filter. -/
def Mem.compiled (m : Mem) (prog : SockFprog) : Mem :=
  { m with ctxt := { m.ctxt with pctxt := { m.ctxt.pctxt with prog := prog } } }

/-- The memory once `pthread_create` has put `t` in `*thread`. -/
def Mem.killer (m : Mem) (t : Nat) : Mem := { m with tid := t, ctxt := { m.ctxt with tid := t } }

/-- The memory once the clock has been read for the end. -/
def Mem.ended (m : Mem) (now : Timeval) : Mem :=
  { m with
    finish := now
    ctxt := { m.ctxt with result := { m.ctxt.result with realTime := elapsed m now } } }

/-- The memory with the usage `ru`. -/
def Mem.used (m : Mem) (ru : Rusage) : Mem :=
  { m with ctxt :=
    { m.ctxt with rusage := ru, result := { m.ctxt.result with cpuTime := ru.cpuTime } } }

/-- How `pthread_create` ends, with what is in `*thread` then. -/
inductive Attempt where
  | created (t : Nat)
  | refused (left : Nat)

def Attempt.tid : Attempt → Nat
  | .created t => t
  | .refused left => left

def Attempt.events (start : TkillCtxt) : Attempt → List JEvent
  | .created t => [⟨.pthreadCreate start, some t⟩]
  | .refused left => [⟨.pthreadCreate start, none⟩, ⟨.ask .thread, left⟩]

theorem Attempt.mem_events {start : TkillCtxt} {t : Attempt} {e : JEvent}
    (h : e ∈ t.events start) :
    (∃ r, e = ⟨.pthreadCreate start, r⟩) ∨ ∃ left, e = ⟨.ask .thread, left⟩ := by
  cases t with
  | created t =>
      obtain rfl := List.mem_singleton.mp h
      exact .inl ⟨_, rfl⟩
  | refused left =>
      rcases List.mem_cons.mp h with rfl | h
      · exact .inl ⟨_, rfl⟩
      · obtain rfl := List.mem_singleton.mp h
        exact .inr ⟨_, rfl⟩

/-- The thread that was created. -/
theorem Attempt.created_of_mem {start start' : TkillCtxt} {t : Attempt} {n : Nat}
    (h : (⟨.pthreadCreate start', some n⟩ : JEvent) ∈ t.events start) :
    start' = start ∧ t = .created n := by
  cases t with
  | created t =>
      cases List.mem_singleton.mp h
      exact ⟨rfl, rfl⟩
  | refused left =>
      rcases List.mem_cons.mp h with h | h
      · cases h
      · cases List.mem_singleton.mp h

/-- What the killer is started with. -/
def Mem.tkillCtxt (m : Mem) : TkillCtxt := { pid := m.ctxt.pchild, time := m.ctxt.rctxt.realTime }

/-- The lookup `analyze_after_wait` makes for its warning. -/
def warning (status : Nat) : List JEvent :=
  if wifsignaled status = false ∧ wifexited status = true ∧ wexitstatus status ≠ 0 then
    [said (wexitstatus status)]
  else []

/-- What the builtin hooks can do. -/
inductive HookDoes : Hook → Mem → Int → List JEvent → Mem → Prop
  | badIdent {m : Mem} {content : Bytes} {numStr : Vector UInt8 10} :
      m.ctxt.pctxt.content = some content →
      policyIdentifierHandler (cString content) m.ctxt.ectxt.argv numStr = .error ePolIdt →
      HookDoes .compilePolicyBeforeFork m ePolIdt
        [⟨.ask .numStr, numStr⟩, said ePolIdt, said ePolIdt] (m.failed ePolIdt)
  | notCompiled {m : Mem} {content escContent : Bytes} {numStr : Vector UInt8 10}
      {selected : List Nat} : m.ctxt.pctxt.content = some content →
      policyIdentifierHandler (cString content) m.ctxt.ectxt.argv numStr =
        .done escContent selected →
      HookDoes .compilePolicyBeforeFork m eKafel
        [⟨.ask .numStr, numStr⟩, ⟨.ask (.kafelCompile escContent m.ctxt.pctxt.dirname), none⟩,
          said eKafel] (m.failed eKafel)
  | compiled {m : Mem} {content escContent : Bytes} {numStr : Vector UInt8 10}
      {selected : List Nat} (prog : SockFprog) : m.ctxt.pctxt.content = some content →
      policyIdentifierHandler (cString content) m.ctxt.ectxt.argv numStr =
        .done escContent selected →
      HookDoes .compilePolicyBeforeFork m 0
        [⟨.ask .numStr, numStr⟩,
          ⟨.ask (.kafelCompile escContent m.ctxt.pctxt.dirname), some prog⟩] (m.compiled prog)
  | preset {m : Mem} :
      HookDoes .initResultBeforeFork m 0 [⟨.setCloexec m.logFd, true⟩] m.preset
  | presetFcntl {m : Mem} :
      HookDoes .initResultBeforeFork m eFcntl [⟨.setCloexec m.logFd, false⟩, said eFcntl]
        (m.preset.failed eFcntl)
  | started {m : Mem} (now : Timeval) :
      HookDoes .timerAfterFork m 0 [⟨.ask .gettimeofday, now⟩] { m with start := now }
  | noLimit {m : Mem} : m.ctxt.rctxt.realTime = rscUnlimited →
      HookDoes .startKillerAfterFork m 0 [] m
  | killer {m : Mem} (t : Attempt) : m.ctxt.rctxt.realTime ≠ rscUnlimited →
      HookDoes .startKillerAfterFork m 0 (t.events m.tkillCtxt) (m.killer t.tid)
  | ended {m : Mem} (now : Timeval) :
      HookDoes .timerAfterWait m 0 [⟨.ask .gettimeofday, now⟩] (m.ended now)
  | noUsage {m : Mem} :
      HookDoes .getUsageAfterWait m eGetrusage [⟨.ask .getrusage, none⟩, said eGetrusage]
        (m.failed eGetrusage)
  | used {m : Mem} (ru : Rusage) :
      HookDoes .getUsageAfterWait m 0 [⟨.ask .getrusage, some ru⟩] (m.used ru)
  | noKiller {m : Mem} : m.ctxt.rctxt.realTime = rscUnlimited ∨ m.ctxt.tid = 0 →
      HookDoes .stopKillerAfterWait m 0 [] m
  | stopped {m : Mem} (cancelled joined : Bool) : m.ctxt.rctxt.realTime ≠ rscUnlimited →
      m.ctxt.tid ≠ 0 →
      HookDoes .stopKillerAfterWait m 0
        [⟨.pthreadCancel m.ctxt.tid, cancelled⟩, ⟨.pthreadJoin m.ctxt.tid, joined⟩] m
  | analyzed {m : Mem} :
      HookDoes .analyzeAfterWait m 0 (warning m.ctxt.status)
        { m with ctxt := analyzed m.ctxt }

section
variable {l l' : JLocal} {m m' : Mem} {r : Int}

/-- What `HookDoes` says of a run. -/
abbrev Did (h : Hook) (l : JLocal) (m : Mem) (r : Int) (l' : JLocal) (m' : Mem) : Prop :=
  ∃ es, HookDoes h m r es m' ∧ l'.log = l.log ++ es

theorem runs_compilePolicyBeforeFork
    (h : Code.Runs compilePolicyBeforeFork l m r l' m') :
    Did .compilePolicyBeforeFork l m r l' m' := by
  rw [compilePolicyBeforeFork, Code.runs_get_bind] at h
  cases hc : m.ctxt.pctxt.content with
  | none =>
      rw [hc] at h
      exact absurd h (Code.runs_undefined r)
  | some content =>
      rw [hc] at h
      obtain ⟨numStr, h⟩ := (runs_ask_bind _ _ _).mp h
      cases hout : policyIdentifierHandler (cString content) m.ctxt.ectxt.argv numStr with
      | overrun =>
          rw [hout] at h
          exact absurd h (Code.runs_undefined r)
      | error errnum =>
          obtain rfl := policyIdentifierHandler_error hout
          rw [hout] at h
          simp only [Code.runs_bind, runs_yreturn, runs_yreturnYerrno] at h
          obtain ⟨_, _, _, ⟨rfl, rfl, rfl⟩, rfl, rfl, rfl⟩ := h
          exact ⟨_, .badIdent hc hout, by simp⟩
      | done escContent selected =>
          rw [hout] at h
          obtain ⟨prog, h⟩ := (runs_ask_bind _ _ _).mp h
          cases prog with
          | none =>
              obtain ⟨rfl, rfl, rfl⟩ := (runs_yreturn _ _).mp h
              exact ⟨_, .notCompiled hc hout, by simp⟩
          | some prog =>
              simp only [Code.runs_bind, runs_modifyCtxt, Code.runs_pure] at h
              obtain ⟨_, _, _, ⟨rfl, rfl⟩, rfl, rfl, rfl⟩ := h
              exact ⟨_, .compiled prog hc hout, by simp⟩

theorem runs_initResultBeforeFork (h : Code.Runs initResultBeforeFork l m r l' m') :
    Did .initResultBeforeFork l m r l' m' := by
  rw [initResultBeforeFork, modifyResult, modifyCtxt, Code.runs_modify_bind,
    Code.runs_get_bind] at h
  obtain ⟨b, -, h⟩ := (Code.runs_call_bind _ _ _).mp h
  cases b with
  | true =>
      obtain ⟨rfl, rfl, rfl⟩ := (Code.runs_pure _ _).mp h
      exact ⟨_, .preset, rfl⟩
  | false =>
      obtain ⟨rfl, rfl, rfl⟩ := (runs_yreturn _ _).mp h
      refine ⟨_, .presetFcntl, ?_⟩
      rw [told_log, Local.after_log, List.append_assoc]
      rfl

theorem runs_timerAfterFork (h : Code.Runs timerAfterFork l m r l' m') :
    Did .timerAfterFork l m r l' m' := by
  obtain ⟨now, h⟩ := (runs_ask_bind _ _ _).mp h
  rw [Code.runs_modify_bind] at h
  obtain ⟨rfl, rfl, rfl⟩ := (Code.runs_pure _ _).mp h
  exact ⟨_, .started now, rfl⟩

theorem runs_timerAfterWait (h : Code.Runs timerAfterWait l m r l' m') :
    Did .timerAfterWait l m r l' m' := by
  obtain ⟨now, h⟩ := (runs_ask_bind _ _ _).mp h
  rw [Code.runs_modify_bind, Code.runs_get_bind] at h
  have hset := (Code.runs_modify_bind _ _ _).mp h
  obtain ⟨rfl, rfl, rfl⟩ := (Code.runs_pure _ _).mp hset
  exact ⟨_, .ended now, rfl⟩

theorem runs_getUsageAfterWait (h : Code.Runs getUsageAfterWait l m r l' m') :
    Did .getUsageAfterWait l m r l' m' := by
  obtain ⟨ru, h⟩ := (runs_ask_bind _ _ _).mp h
  cases ru with
  | none =>
      obtain ⟨rfl, rfl, rfl⟩ := (runs_yreturn _ _).mp h
      exact ⟨_, .noUsage, by simp⟩
  | some ru =>
      have hset := (Code.runs_modify_bind _ _ _).mp ((Code.runs_modify_bind _ _ _).mp h)
      obtain ⟨rfl, rfl, rfl⟩ := (Code.runs_pure _ _).mp hset
      exact ⟨_, .used ru, rfl⟩

theorem runs_pthreadCreate {start : TkillCtxt} {tid : Nat} :
    Code.Runs (pthreadCreate start) l m tid l' m' ↔
      ∃ t : Attempt, tid = t.tid ∧ l' = told l (t.events start) ∧ m' = m := by
  rw [pthreadCreate, Code.runs_call_bind]
  constructor
  · rintro ⟨r, -, h⟩
    rw [after_plain rfl] at h
    cases r with
    | none =>
        obtain ⟨rfl, rfl⟩ := (runs_ask _ _).mp h
        exact ⟨.refused tid, rfl, by simp [told, Attempt.events], rfl⟩
    | some t =>
        obtain ⟨rfl, rfl, rfl⟩ := (Code.runs_pure _ _).mp h
        exact ⟨.created tid, rfl, rfl, rfl⟩
  · rintro ⟨t, rfl, rfl, rfl⟩
    cases t with
    | created t =>
        refine ⟨some t, trivial, (Code.runs_pure _ _).mpr ⟨rfl, ?_, rfl⟩⟩
        exact (after_plain (l := l) (c := .pthreadCreate start) rfl (some t)).symm
    | refused left =>
        refine ⟨none, trivial, (runs_ask .thread left).mpr ⟨?_, rfl⟩⟩
        rw [after_plain rfl]
        simp [told, Attempt.events]

theorem runs_startKillerAfterFork (h : Code.Runs startKillerAfterFork l m r l' m') :
    Did .startKillerAfterFork l m r l' m' := by
  rw [startKillerAfterFork, Code.runs_get_bind, Code.runs_ite] at h
  rcases h with ⟨hz, h⟩ | ⟨hz, h⟩
  · obtain ⟨rfl, rfl, rfl⟩ := (Code.runs_pure _ _).mp h
    exact ⟨_, .noLimit hz, by simp⟩
  · obtain ⟨tid, l₁, m₁, hcreate, h⟩ := (Code.runs_bind _ _ _).mp h
    obtain ⟨t, rfl, rfl, rfl⟩ := runs_pthreadCreate.mp hcreate
    simp only [Code.runs_bind, Code.runs_modify, Code.runs_pure] at h
    obtain ⟨_, _, _, ⟨rfl, rfl⟩, _, _, _, ⟨rfl, rfl⟩, rfl, rfl, rfl⟩ := h
    exact ⟨_, .killer t hz, rfl⟩

theorem runs_stopKillerAfterWait (h : Code.Runs stopKillerAfterWait l m r l' m') :
    Did .stopKillerAfterWait l m r l' m' := by
  rw [stopKillerAfterWait, Code.runs_get_bind, Code.runs_ite] at h
  rcases h with ⟨hz, h⟩ | ⟨hz, h⟩
  · obtain ⟨rfl, rfl, rfl⟩ := (Code.runs_pure _ _).mp h
    exact ⟨_, .noKiller (Or.inl hz), by simp⟩
  rcases (Code.runs_ite _ _ _ _).mp h with ⟨ht, h⟩ | ⟨ht, h⟩
  · rw [Code.runs_bind] at h
    obtain ⟨_, l₂, m₂, hstop, h⟩ := h
    obtain ⟨cancelled, -, hstop⟩ := (Code.runs_call_bind _ _ _).mp hstop
    obtain ⟨joined, -, hstop⟩ := (Code.runs_call_bind _ _ _).mp hstop
    obtain ⟨-, rfl, rfl⟩ := (Code.runs_pure _ _).mp hstop
    obtain ⟨rfl, rfl, rfl⟩ := (Code.runs_pure _ _).mp h
    refine ⟨_, .stopped cancelled joined hz ht, ?_⟩
    rw [Local.after_log, Local.after_log, List.append_assoc]
    rfl
  · obtain ⟨rfl, rfl, rfl⟩ := (Code.runs_pure _ _).mp h
    exact ⟨_, .noKiller (Or.inr (not_not.mp ht)), by simp⟩

theorem runs_analyzeAfterWait : Code.Runs analyzeAfterWait l m r l' m' ↔
    r = 0 ∧ l' = told l (warning m.ctxt.status) ∧ m' = { m with ctxt := analyzed m.ctxt } := by
  rw [analyzeAfterWait, modifyCtxt, Code.runs_modify_bind, Code.runs_get_bind]
  cases hs : wifsignaled m.ctxt.status with
  | true =>
      simp only [if_true, modifyCtxt, Code.runs_modify_bind, Code.runs_pure]
      simp [warning, analyzed, hs]
  | false =>
      cases he : wifexited m.ctxt.status with
      | false =>
          simp only [Bool.false_eq_true, if_false, Code.runs_pure]
          simp [warning, analyzed, hs, he]
      | true =>
          by_cases hw : wexitstatus m.ctxt.status = 0
          · simp only [hw, Bool.false_eq_true, if_false, if_true, ne_eq, not_true,
              modifyCtxt, Code.runs_modify_bind, Code.runs_pure]
            simp [warning, analyzed, hs, he, hw]
          · simp only [hw, Bool.false_eq_true, if_false, if_true, ne_eq, not_false_iff,
              modifyCtxt, Code.runs_bind, runs_ystrerr, Code.runs_modify, Code.runs_pure]
            simp only [warning, analyzed, hs, he, hw, Bool.false_eq_true, if_false, if_true,
              ne_eq, not_false_iff, and_self]
            constructor
            · rintro ⟨_, _, _, ⟨rfl, rfl⟩, _, _, _, ⟨rfl, rfl⟩, rfl, rfl, rfl⟩
              exact ⟨rfl, rfl, rfl⟩
            · rintro ⟨rfl, rfl, rfl⟩
              exact ⟨(), _, _, ⟨rfl, rfl⟩, (), _, _, ⟨rfl, rfl⟩, rfl, rfl, rfl⟩

/-- **What each hook can do.** -/
theorem runs_hookFn {h : Hook} (hr : Code.Runs (hookFn h) l m r l' m') : Did h l m r l' m' := by
  cases h with
  | initResultBeforeFork => exact runs_initResultBeforeFork hr
  | compilePolicyBeforeFork => exact runs_compilePolicyBeforeFork hr
  | startKillerAfterFork => exact runs_startKillerAfterFork hr
  | timerAfterFork => exact runs_timerAfterFork hr
  | analyzeAfterWait =>
      obtain ⟨rfl, rfl, rfl⟩ := runs_analyzeAfterWait.mp hr
      exact ⟨_, .analyzed, rfl⟩
  | stopKillerAfterWait => exact runs_stopKillerAfterWait hr
  | getUsageAfterWait => exact runs_getUsageAfterWait hr
  | timerAfterWait => exact runs_timerAfterWait hr

end

section
variable {l : JLocal} {m : Mem}

theorem records_ask_bind {α : Type} (q : Ask) {f : q.Ans → YaojJudger.Code α} {a : α}
    {es : List JEvent} {m' : Mem} (r : q.Ans)
    (h : Code.Records (f r) (told l [⟨.ask q, r⟩]) m a es m') :
    Code.Records (ask q >>= f) l m a (⟨.ask q, r⟩ :: es) m' := by
  rw [← after_ask] at h
  exact Code.records_call_bind (.ask q : Call) r trivial h

theorem records_yreturn (errnum : Int) :
    Code.Records (yreturn errnum) l m errnum [said errnum] (m.failed errnum) :=
  ⟨_, (runs_yreturn _ _).mpr ⟨rfl, rfl, rfl⟩, told_log _ _⟩

theorem records_yreturnYerrno :
    Code.Records yreturnYerrno l m m.yerrno [said m.yerrno] m :=
  ⟨_, (runs_yreturnYerrno _).mpr ⟨rfl, rfl, rfl⟩, told_log _ _⟩

end

/-- Each of them can happen. -/
theorem HookDoes.runs {h : Hook} {m m' : Mem} {r : Int} {es : List JEvent}
    (hd : HookDoes h m r es m') (l : JLocal) : Code.Records (hookFn h) l m r es m' := by
  cases hd with
  | @badIdent _ content numStr hc hout =>
      refine Code.records_get_bind ?_
      simp only [hc]
      refine records_ask_bind .numStr numStr ?_
      simp only [hout]
      exact (records_yreturn _).bind fun _ _ => records_yreturnYerrno
  | @notCompiled _ content escContent numStr selected hc hout =>
      refine Code.records_get_bind ?_
      simp only [hc]
      refine records_ask_bind .numStr numStr ?_
      simp only [hout]
      exact records_ask_bind (.kafelCompile _ _) none (records_yreturn _)
  | @compiled _ content escContent numStr selected prog hc hout =>
      refine Code.records_get_bind ?_
      simp only [hc]
      refine records_ask_bind .numStr numStr ?_
      simp only [hout]
      exact records_ask_bind (.kafelCompile _ _) (some prog)
        (Code.records_modify_bind (Code.records_pure 0))
  | preset =>
      exact Code.records_modify_bind (Code.records_get_bind
        (Code.records_call_bind (.setCloexec _) true trivial (Code.records_pure 0)))
  | presetFcntl =>
      exact Code.records_modify_bind (Code.records_get_bind
        (Code.records_call_bind (.setCloexec _) false trivial (records_yreturn _)))
  | started now =>
      exact records_ask_bind .gettimeofday now (Code.records_modify_bind (Code.records_pure 0))
  | noLimit hz =>
      exact Code.records_get_bind (Code.records_then hz (Code.records_pure 0))
  | killer t hz =>
      have hcreate : Code.Records (pthreadCreate m.tkillCtxt) l m t.tid (t.events m.tkillCtxt) m :=
        ⟨_, runs_pthreadCreate.mpr ⟨t, rfl, rfl, rfl⟩, told_log _ _⟩
      refine Code.records_get_bind (Code.records_else hz ?_)
      rw [← List.append_nil (t.events m.tkillCtxt)]
      refine hcreate.bind fun l' _ => ?_
      exact Code.records_modify_bind (Code.records_modify_bind (Code.records_pure 0))
  | ended now =>
      exact records_ask_bind .gettimeofday now (Code.records_modify_bind
        (Code.records_get_bind (Code.records_modify_bind (Code.records_pure 0))))
  | noUsage => exact records_ask_bind .getrusage none (records_yreturn _)
  | used ru =>
      exact records_ask_bind .getrusage (some ru)
        (Code.records_modify_bind (Code.records_modify_bind (Code.records_pure 0)))
  | noKiller hz =>
      refine Code.records_get_bind ?_
      by_cases h0 : m.ctxt.rctxt.realTime = rscUnlimited
      · exact Code.records_then h0 (Code.records_pure 0)
      · have ht := not_not.mpr (hz.resolve_left h0)
        exact Code.records_else h0 (Code.records_else ht (Code.records_pure 0))
  | stopped cancelled joined hz ht =>
      have hstop : Code.Records (stopTimeoutKiller m.ctxt.tid) l m
          (if cancelled && joined then 0 else 1) _ m :=
        Code.records_call_bind (.pthreadCancel _) cancelled trivial
          (Code.records_call_bind (.pthreadJoin _) joined trivial (Code.records_pure _))
      exact Code.records_get_bind (Code.records_else hz (Code.records_then ht
        (hstop.bind fun _ _ => Code.records_pure 0)))
  | analyzed => exact ⟨_, runs_analyzeAfterWait.mpr ⟨rfl, rfl, rfl⟩, told_log _ _⟩

/-- The error numbers a hook can fail with. -/
def hookErrors : List Int := [ePolIdt, eKafel, eFcntl, eGetrusage]

/-- A hook that fails sets `yerrno` to what it returns, and one that does not
leaves it alone. -/
theorem HookDoes.yerrno {h : Hook} {m m' : Mem} {r : Int} {es : List JEvent}
    (hd : HookDoes h m r es m') :
    (r = 0 ∧ m'.yerrno = m.yerrno) ∨ (r ∈ hookErrors ∧ m'.yerrno = r) := by
  cases hd with
  | badIdent => exact Or.inr ⟨by decide, rfl⟩
  | notCompiled => exact Or.inr ⟨by decide, rfl⟩
  | presetFcntl => exact Or.inr ⟨by decide, rfl⟩
  | noUsage => exact Or.inr ⟨by decide, rfl⟩
  | _ => exact Or.inl ⟨rfl, rfl⟩

theorem ne_zero_of_hookErrors {r : Int} (h : r ∈ hookErrors) : r ≠ 0 := by
  rintro rfl
  exact absurd h (by decide)

/-- What no hook touches. -/
structure HookKeeps (m m' : Mem) : Prop where
  ectxt : m'.ctxt.ectxt = m.ctxt.ectxt
  rctxt : m'.ctxt.rctxt = m.ctxt.rctxt
  hctxt : m'.ctxt.hctxt = m.ctxt.hctxt
  pchild : m'.ctxt.pchild = m.ctxt.pchild
  status : m'.ctxt.status = m.ctxt.status
  content : m'.ctxt.pctxt.content = m.ctxt.pctxt.content
  logFd : m'.logFd = m.logFd

theorem HookKeeps.refl (m : Mem) : HookKeeps m m := ⟨rfl, rfl, rfl, rfl, rfl, rfl, rfl⟩

theorem HookKeeps.trans {m m₁ m₂ : Mem} (h : HookKeeps m m₁) (h' : HookKeeps m₁ m₂) :
    HookKeeps m m₂ :=
  ⟨h'.ectxt.trans h.ectxt, h'.rctxt.trans h.rctxt, h'.hctxt.trans h.hctxt,
    h'.pchild.trans h.pchild, h'.status.trans h.status, h'.content.trans h.content,
    h'.logFd.trans h.logFd⟩

theorem analyzed_keeps (m : Mem) : HookKeeps m { m with ctxt := analyzed m.ctxt } := by
  refine ⟨?_, ?_, ?_, ?_, ?_, ?_, rfl⟩ <;> simp only [analyzed] <;> split <;>
    first | rfl | (split <;> rfl)

theorem HookDoes.keeps {h : Hook} {m m' : Mem} {r : Int} {es : List JEvent}
    (hd : HookDoes h m r es m') : HookKeeps m m' := by
  cases hd with
  | analyzed => exact analyzed_keeps m
  | _ => exact ⟨rfl, rfl, rfl, rfl, rfl, rfl, rfl⟩

/-! ## Chains -/

/-- What a chain can do: `hs` are the hooks it invokes. -/
inductive ChainDoes : List Hook → Mem → List Hook → Int → List JEvent → Mem → Prop
  | nil {m : Mem} : ChainDoes [] m [] 0 [] m
  | stop {h : Hook} {next : List Hook} {m m' : Mem} {r : Int} {es : List JEvent} :
      HookDoes h m r es m' → r ≠ 0 →
      ChainDoes (h :: next) m [h] m'.yerrno (es ++ [said m'.yerrno]) m'
  | next {h : Hook} {next hs : List Hook} {m m₁ m' : Mem} {r : Int} {es es' : List JEvent} :
      HookDoes h m 0 es m₁ → ChainDoes next m₁ hs r es' m' →
      ChainDoes (h :: next) m (h :: hs) r (es ++ es') m'

/-- **What a chain can do.** -/
theorem runs_chain : ∀ {chain : List Hook} {l l' : JLocal} {m m' : Mem} {r : Int},
    Code.Runs (runHookChain hookFn chain) l m r l' m' →
      ∃ hs es, ChainDoes chain m hs r es m' ∧ l'.log = l.log ++ es := by
  intro chain
  induction chain with
  | nil =>
      intro l l' m m' r h
      obtain ⟨rfl, rfl, rfl⟩ := (Code.runs_pure _ _).mp h
      exact ⟨[], [], .nil, by simp⟩
  | cons x xs ih =>
      intro l l' m m' r h
      obtain ⟨a, l₁, m₁, hx, h⟩ := (Code.runs_bind _ _ _).mp h
      obtain ⟨es, hd, hlog⟩ := runs_hookFn hx
      rcases (Code.runs_ite _ _ _ _).mp h with ⟨ha, h⟩ | ⟨ha, h⟩
      · obtain ⟨rfl, rfl, rfl⟩ := (runs_yreturnYerrno _).mp h
        exact ⟨[x], _, .stop hd ha, by rw [told_log, hlog, List.append_assoc]⟩
      · obtain rfl := not_not.mp ha
        obtain ⟨hs, es', hc, hlog'⟩ := ih h
        exact ⟨x :: hs, _, .next hd hc, by rw [hlog', hlog, List.append_assoc]⟩

/-- Each of them can happen. -/
theorem ChainDoes.runs {chain hs : List Hook} {m m' : Mem} {r : Int} {es : List JEvent}
    (h : ChainDoes chain m hs r es m') :
    ∀ l : JLocal, Code.Records (runHookChain hookFn chain) l m r es m' := by
  induction h with
  | nil => exact fun l => Code.records_pure 0
  | stop hd hr =>
      exact fun l => (hd.runs l).bind fun _ _ => Code.records_then hr records_yreturnYerrno
  | next hd _ ih =>
      exact fun l => (hd.runs l).bind fun l₁ _ => Code.records_else (not_not.mpr rfl) (ih l₁)

section
variable {chain hs : List Hook} {m m' : Mem} {r : Int} {es : List JEvent}

/-- A chain that returns 0 has invoked all its hooks. -/
theorem ChainDoes.outcome (h : ChainDoes chain m hs r es m') :
    (r = 0 ∧ m'.yerrno = m.yerrno ∧ hs = chain) ∨ (r ∈ hookErrors ∧ m'.yerrno = r) := by
  induction h with
  | nil => exact Or.inl ⟨rfl, rfl, rfl⟩
  | stop hd hr =>
      rcases hd.yerrno with ⟨h0, -⟩ | ⟨hr', hy⟩
      · exact absurd h0 hr
      · exact Or.inr ⟨hy ▸ hr', rfl⟩
  | next hd _ ih =>
      rcases hd.yerrno with ⟨-, hy⟩ | ⟨hr, -⟩
      · rcases ih with ⟨h0, hy', rfl⟩ | hfail
        · exact Or.inl ⟨h0, hy'.trans hy, rfl⟩
        · exact Or.inr hfail
      · exact absurd rfl (ne_zero_of_hookErrors hr)

theorem ChainDoes.all (h : ChainDoes chain m hs 0 es m') : m'.yerrno = m.yerrno ∧ hs = chain := by
  rcases h.outcome with ⟨-, h⟩ | ⟨h, -⟩
  · exact h
  · exact absurd rfl (ne_zero_of_hookErrors h)

theorem ChainDoes.failed (h : ChainDoes chain m hs r es m') (hr : r ≠ 0) :
    r ∈ hookErrors ∧ m'.yerrno = r := by
  rcases h.outcome with ⟨h0, -⟩ | h
  · exact absurd h0 hr
  · exact h

/-- A chain that succeeds, from its head on. -/
theorem ChainDoes.head {x : Hook} (h : ChainDoes (x :: chain) m hs 0 es m') :
    ∃ es₁ m₁ es₂, HookDoes x m 0 es₁ m₁ ∧ ChainDoes chain m₁ chain 0 es₂ m' ∧ es = es₁ ++ es₂ := by
  generalize hr : (0 : Int) = r at h
  cases h with
  | stop hd hne =>
      rcases hd.yerrno with ⟨h0, -⟩ | ⟨hmem, hy⟩
      · exact absurd h0 hne
      · exact absurd (hr.trans hy) (ne_zero_of_hookErrors hmem).symm
  | next hd hc =>
      subst hr
      obtain ⟨-, rfl⟩ := hc.all
      exact ⟨_, _, _, hd, hc, rfl⟩

/-- The hooks invoked are the first ones of the chain. -/
theorem ChainDoes.invoked (h : ChainDoes chain m hs r es m') : hs <+: chain := by
  induction h with
  | nil => exact List.prefix_refl _
  | stop _ _ => exact List.cons_prefix_cons.mpr ⟨rfl, List.nil_prefix⟩
  | next _ _ ih => exact List.cons_prefix_cons.mpr ⟨rfl, ih⟩

theorem ChainDoes.keeps (h : ChainDoes chain m hs r es m') : HookKeeps m m' := by
  induction h with
  | nil => exact .refl _
  | stop hd _ => exact hd.keeps
  | next hd _ ih => exact hd.keeps.trans ih

/-- What holds of the events of its hooks holds of those of the chain. -/
theorem ChainDoes.forall_events {P : JEvent → Prop} (h : ChainDoes chain m hs r es m')
    (hsaid : ∀ errnum, P (said errnum))
    (hh : ∀ x ∈ chain, ∀ {m r es m'}, HookDoes x m r es m' → ∀ e ∈ es, P e) : ∀ e ∈ es, P e := by
  induction h with
  | nil => exact fun e he => absurd he List.not_mem_nil
  | stop hd _ =>
      refine List.forall_mem_append.mpr ⟨hh _ List.mem_cons_self hd, fun e he => ?_⟩
      rw [List.mem_singleton.mp he]
      exact hsaid _
  | next hd _ ih =>
      exact List.forall_mem_append.mpr ⟨hh _ List.mem_cons_self hd,
        ih fun x hx => hh x (List.mem_cons_of_mem _ hx)⟩

/-- A chain that succeeds, and what comes after it. -/
theorem ChainDoes.then {chain' hs' : List Hook} {m₁ : Mem} {es' : List JEvent}
    (h : ChainDoes chain m hs 0 es m₁) (h' : ChainDoes chain' m₁ hs' r es' m') :
    ChainDoes (chain ++ chain') m (chain ++ hs') r (es ++ es') m' := by
  induction chain generalizing m hs es with
  | nil =>
      cases h with
      | nil => exact h'
  | cons x xs ih =>
      obtain ⟨es₁, m₂, es₂, hd, hc, rfl⟩ := h.head
      rw [List.append_assoc]
      exact .next hd (ih hc)

end

end YaojJudger
