/-
# `YaojJudger.Usage` — several judgements in one process

`get_usage_after_wait` asks for `RUSAGE_CHILDREN`, which is what *all* children
waited for so far have used, not what the last one has:

    children        waited for before      the one being judged
    times           Σ                    + its own
    maxrss          max                  , its own

`Session us l m`: a process has called `yjudger_general` on fresh contexts,
and has waited for children that used `us`.  `Reports us own res`: its next
call returns 0 and reports `res`, the child itself having done `own`.  The
report is a function of `own` alone exactly if `us` is empty
(`uncontaminated_iff`).
-/
import YaojJudger.Rejudge

namespace YaojJudger

open Posix

/-! ## `getrusage(RUSAGE_CHILDREN, …)` -/

/-- What a child used: microseconds, and kilobytes at most. -/
structure Usage where
  utime : Nat
  stime : Nat
  maxrss : Nat
  deriving DecidableEq, Repr

def timevalOf (usec : Nat) : Timeval :=
  ⟨Int64.ofNat (usec / 1000000), Int64.ofNat (usec % 1000000)⟩

/-- The usage of children: the sum of the times, the maximum of the rest. -/
def rusageOf (us : List Usage) : Rusage where
  utime := timevalOf (us.map Usage.utime).sum
  stime := timevalOf (us.map Usage.stime).sum
  maxrss := Int64.ofNat ((us.map Usage.maxrss).foldr max 0)

/-- Has a child been waited for that has terminated? -/
def reaps : JEvent → Bool
  | ⟨.waitpid _ _, some status⟩ => !wifstopped status
  | _ => false

/-- The child of a call whose child used `u`, if it has been waited for. -/
def waitedFor (es : List JEvent) (u : Usage) : List Usage := if es.any reaps then [u] else []

/-- The usage is answered so. -/
def Totals (us : List Usage) (es : List JEvent) : Prop :=
  ∀ ru, (⟨.ask .getrusage, some ru⟩ : JEvent) ∈ es → ru = rusageOf us

/-! ## Sessions -/

/-- A process that calls `yjudger_general` on one fresh context after another. -/
inductive Session : List Usage → JLocal → Mem → Prop
  | start (l : JLocal) (m : Mem) : Session [] l m
  | call {us : List Usage} {l l' : JLocal} {m m' : Mem} {r : Int} {es : List JEvent}
      (ctxt : YjudgerCtxt) (u : Usage) : Session us l m → ctxt.hctxt = hookCtxtCreate →
      Code.Runs yjudgerGeneral l { m with ctxt := ctxt } r l' m' → l'.log = l.log ++ es →
      Totals (us ++ waitedFor es u) es → Session (us ++ waitedFor es u) l' m'

/-- What a judgement has of its own. -/
structure Own where
  usage : Usage
  status : Nat
  start : Timeval
  finish : Timeval
  limits : RsclimCtxt

/-- A reading of the clock. -/
def clockOf : JEvent → Option Timeval
  | ⟨.ask .gettimeofday, now⟩ => some now
  | _ => none

def clocks (es : List JEvent) : List Timeval := es.filterMap clockOf

/-- After a session with `us`, a call with `own` can return 0 and report `res`. -/
def Reports (us : List Usage) (own : Own) (res : YjudgerResult) : Prop :=
  ∃ (l l' : JLocal) (m m' : Mem) (ctxt : YjudgerCtxt) (es : List JEvent), Session us l m ∧
    ctxt.hctxt = hookCtxtCreate ∧ ctxt.rctxt = own.limits ∧
    Code.Runs yjudgerGeneral l { m with ctxt := ctxt } 0 l' m' ∧ l'.log = l.log ++ es ∧
    Totals (us ++ waitedFor es own.usage) es ∧
    (∀ n status, (⟨.waitpid n true, some status⟩ : JEvent) ∈ es → status = own.status) ∧
    clocks es = [own.start, own.finish] ∧ res = m'.ctxt.result

/-- Whatever `n` children used before, the report is the same. -/
def Uncontaminated (n : Nat) (own : Own) : Prop :=
  ∀ us us' res res', us.length = n → us'.length = n → Reports us own res → Reports us' own res' →
    res.code = res'.code ∧ res.cpuTime = res'.cpuTime ∧ res.realMemory = res'.realMemory

/-! ## What is reported -/

/-- The result of a judgement whose usage is found to be `ru`. -/
def Own.result (own : Own) (ru : Rusage) : YjudgerResult :=
  let preset : YjudgerResult :=
    { code := .se, signal := 0, exitCode := 0,
      realTime := toMillisecond own.finish - toMillisecond own.start,
      cpuTime := ru.cpuTime, realMemory := 0 }
  (analyzed
    { yjudgerCtxtCreate preset ru with status := own.status, rctxt := own.limits }).result

/-- The verdict is read off these four. -/
theorem analyzed_result_congr {c c' : YjudgerCtxt} (hresult : c.result = c'.result)
    (hstatus : c.status = c'.status) (hrctxt : c.rctxt = c'.rctxt)
    (hrusage : c.rusage = c'.rusage) : (analyzed c).result = (analyzed c').result := by
  simp only [analyzed, setSignalStatus, setExitcodeStatus, signalCode, exitcodeCode, realTle,
    cpuTle, realMle, hresult, hstatus, hrctxt, hrusage]
  split
  · rfl
  · split
    · rfl
    · rfl

section
variable {l : JLocal} {m : Mem} {a : Course} {us : List Usage} {own : Own}

/-- Of the context only the thread number changes when a killer is started. -/
theorem armed_keeps (m : Mem) (t : Attempt) : (m.armed t).start = m.start ∧
    (m.armed t).ctxt.result = m.ctxt.result ∧ (m.armed t).ctxt.rctxt = m.ctxt.rctxt := by
  rw [Mem.armed]
  split <;> exact ⟨rfl, rfl, rfl⟩

/-- The result of a first call. -/
theorem Course.result (hstatus : a.status = own.status) (hstart : a.start = own.start)
    (hfinish : a.finish = own.finish) (hlimits : m.ctxt.rctxt = own.limits) :
    (a.judged l m).ctxt.result = own.result a.usage := by
  obtain ⟨hst, hresult, hrctxt⟩ := armed_keeps { a.forked l m with start := a.start } a.attempt
  refine analyzed_result_congr ?_ hstatus (hrctxt.trans hlimits) rfl
  show ({ (Mem.armed { a.forked l m with start := a.start } a.attempt).ctxt.result with
    realTime := elapsed (a.waited l m) a.finish, cpuTime := a.usage.cpuTime } : YjudgerResult) = _
  have helapsed : elapsed (a.waited l m) a.finish =
      toMillisecond own.finish - toMillisecond own.start := by
    rw [← hfinish, ← hstart]
    exact congrArg (toMillisecond a.finish - toMillisecond ·) hst
  rw [hresult, helapsed]
  rfl

/-- The clock is read twice. -/
theorem Course.clocks_events : clocks (a.events l m) = [a.start, a.finish] := by
  have hkill : (killerEvents (a.forked l m) a.attempt).filterMap clockOf = [] := by
    rw [killerEvents]
    split
    · rfl
    · cases a.attempt with
      | created | refused => rfl
  have hstop : (stopEvents (a.waited l m) a.cancelled a.joined).filterMap clockOf = [] := by
    rw [stopEvents]
    split <;> rfl
  have hwarn : (warning a.status).filterMap clockOf = [] := by
    rw [warning]
    split <;> rfl
  simp only [clocks, Course.events, opening, handshake, List.filterMap_append,
    List.filterMap_cons, hkill, hstop, hwarn]
  rfl

/-- The child is waited for unless it has only stopped. -/
theorem Course.any_reaps : (a.events l m).any reaps = !wifstopped a.status := by
  have hkill : (killerEvents (a.forked l m) a.attempt).any reaps = false := by
    rw [killerEvents]
    split
    · rfl
    · cases a.attempt with
      | created | refused => rfl
  have hstop : (stopEvents (a.waited l m) a.cancelled a.joined).any reaps = false := by
    rw [stopEvents]
    split <;> rfl
  have hwarn : (warning a.status).any reaps = false := by
    rw [warning]
    split <;> rfl
  simp only [Course.events, opening, handshake, List.any_append, List.any_cons, List.any_nil,
    hkill, hstop, hwarn]
  simp [reaps]

/-- The children of a call that returns 0. -/
def Own.waited (own : Own) : List Usage := if wifstopped own.status then [] else [own.usage]

/-- **What is reported**: a function of the child's own data, and of the total. -/
theorem Reports.result {res : YjudgerResult} (h : Reports us own res) :
    res = own.result (rusageOf (us ++ own.waited)) := by
  obtain ⟨l, l', m, m', ctxt, es, -, hhctxt, hlimits, hrun, hlog, htotals, hstatus, hclocks,
    rfl⟩ := h
  obtain ⟨hs, es', hj, hlog'⟩ := runs_judging (j := .general) hrun
  obtain rfl : es = es' := List.append_cancel_left (hlog.symm.trans hlog')
  obtain ⟨a, rfl, rfl, rfl⟩ := first_judged hj hhctxt
  have hst : a.status = own.status := hstatus a.child _ (by simp [Course.events])
  rw [Course.clocks_events] at hclocks
  obtain ⟨hstart, hfinish⟩ : a.start = own.start ∧ a.finish = own.finish := by
    simpa using hclocks
  rw [Course.result (m := { m with ctxt := ctxt }) hst hstart hfinish hlimits]
  have husage := htotals a.usage (by simp [Course.events])
  rw [husage, waitedFor, Course.any_reaps, hst, Own.waited]
  cases wifstopped own.status <;> rfl

end

/-! ## Every history happens -/

/-- A context with these limits and an empty policy. -/
def plainCtxt (limits : RsclimCtxt) : YjudgerCtxt :=
  { yjudgerCtxtCreate blankResult noRusage with
    rctxt := limits, pctxt := { policyCtxtCreate with content := some [] } }

/-- A call whose child does `own`, without a killer. -/
def Own.course (own : Own) (ru : Rusage) (l : JLocal) : Course where
  numStr := Vector.replicate 10 0
  escContent := []
  prog := []
  child := l.pid + 1
  start := own.start
  attempt := .created 0
  status := own.status
  finish := own.finish
  usage := ru
  cancelled := true
  joined := true

/-- The usage and the status of such a call are on its record. -/
theorem Course.mem_answers {a : Course} {l : JLocal} {m : Mem} :
    (∀ ru, (⟨.ask .getrusage, some ru⟩ : JEvent) ∈ a.events l m → ru = a.usage) ∧
      ∀ n status, (⟨.waitpid n true, some status⟩ : JEvent) ∈ a.events l m → status = a.status := by
  constructor
  · intro ru hmem
    by_contra hne
    have hcalls : (⟨.ask .getrusage, some ru⟩ : JEvent) ∉ a.calls l m := by
      have hsome : ¬ (some ru : Option Rusage) = some a.usage := fun h => hne (Option.some.inj h)
      simpa [Course.calls, opening, handshake, -Option.some.injEq] using hsome
    rcases Course.mem_pieces hmem hcalls with h | h | h
    · exact absurd (Attempt.mem_events (mem_killerEvents h).2) (by simp)
    · rcases mem_stopEvents h with h | h <;> cases h
    · exact absurd (mem_warning h) (by simp)
  · intro n status hmem
    by_contra hne
    rcases Course.mem_pieces hmem (by simp [Course.calls, opening, handshake, hne]) with h | h | h
    · exact absurd (Attempt.mem_events (mem_killerEvents h).2) (by simp)
    · rcases mem_stopEvents h with h | h <;> cases h
    · exact absurd (mem_warning h) (by simp)

/-- After any session the next call can do `own`. -/
theorem call_after (us : List Usage) {l : JLocal} {m : Mem} (own : Own) :
    ∃ es l' m', Code.Runs yjudgerGeneral l { m with ctxt := plainCtxt own.limits } 0 l' m' ∧
      l'.log = l.log ++ es ∧ Totals (us ++ own.waited) es ∧ waitedFor es own.usage = own.waited ∧
      (∀ n status, (⟨.waitpid n true, some status⟩ : JEvent) ∈ es → status = own.status) ∧
      clocks es = [own.start, own.finish] := by
  let m₀ : Mem := { m with ctxt := plainCtxt own.limits }
  let a := own.course (rusageOf (us ++ own.waited)) l
  have hposs : a.Possible .general l m₀ :=
    ⟨fun h => (by cases h), rfl, ⟨[], [], rfl, handler_empty _ _⟩, Nat.lt_succ_self _⟩
  obtain ⟨l', hrun, hlog⟩ := hposs.judging.runs
  have hwaited : waitedFor (a.events l m₀) own.usage = own.waited := by
    rw [waitedFor, Course.any_reaps, Own.waited]
    show (if (!wifstopped own.status) = true then _ else _) = _
    cases wifstopped own.status <;> rfl
  exact ⟨_, l', _, hrun, hlog, Course.mem_answers.1, hwaited, Course.mem_answers.2,
    Course.clocks_events⟩

/-- A child that exited with 0, having used `u`. -/
def Usage.exited (u : Usage) : Own where
  usage := u
  status := 0
  start := ⟨0, 0⟩
  finish := ⟨0, 0⟩
  limits := rsclimCtxtCreate

theorem session_exists (us : List Usage) : ∃ l m, Session us l m := by
  induction us using List.reverseRecOn with
  | nil => exact ⟨.start (.inheritedBelow 4), sampleMem, .start _ _⟩
  | append_singleton us u ih =>
      obtain ⟨l, m, hs⟩ := ih
      obtain ⟨es, l', m', hrun, hlog, htotals, hwaited, -⟩ :=
        call_after us (l := l) (m := m) u.exited
      have hone : waitedFor es u = [u] := hwaited
      have h := Session.call (plainCtxt rsclimCtxtCreate) u hs rfl hrun hlog
        (by rw [hone]; exact htotals)
      rw [hone] at h
      exact ⟨l', m', h⟩

theorem reports_exists (us : List Usage) (own : Own) :
    Reports us own (own.result (rusageOf (us ++ own.waited))) := by
  obtain ⟨l, m, hs⟩ := session_exists us
  obtain ⟨es, l', m', hrun, hlog, htotals, hwaited, hstatus, hclocks⟩ :=
    call_after us (l := l) (m := m) own
  have hr : Reports us own m'.ctxt.result :=
    ⟨l, l', m, m', plainCtxt own.limits, es, hs, rfl, rfl, hrun, hlog,
      by rw [hwaited]; exact htotals, hstatus, hclocks, rfl⟩
  rw [← hr.result]
  exact hr

/-! ## Contamination -/

/-- A second more of user time. -/
theorem toMillisecond_timevalOf_add (n : Nat) :
    toMillisecond (timevalOf (1000000 + n)) = toMillisecond (timevalOf n) + 1000 := by
  have hdiv : (1000000 + n) / 1000000 = n / 1000000 + 1 := by omega
  have hmod : (1000000 + n) % 1000000 = n % 1000000 := by omega
  rw [timevalOf, hdiv, hmod, Int64.ofNat_add, timevalOf]
  have hone : (Int64.ofNat 1).toInt32 = 1 := rfl
  have hsec : (1000 : Int64).toInt32 = 1000 := rfl
  simp only [toMillisecond, Int64.toInt32_add, Int64.toInt32_mul, hone, hsec]
  grind

theorem result_cpuTime (own : Own) (ru : Rusage) : (own.result ru).cpuTime = ru.cpuTime := by
  simp only [Own.result, analyzed, setSignalStatus, setExitcodeStatus]
  split
  · rfl
  · split <;> rfl

/-- **A report is the child's own** exactly in a process that has waited for no
other child. -/
theorem uncontaminated_iff (n : Nat) (own : Own) : Uncontaminated n own ↔ n = 0 := by
  constructor
  · intro h
    by_contra hn
    obtain ⟨n, rfl⟩ := Nat.exists_eq_succ_of_ne_zero hn
    have hcpu := (h (⟨0, 0, 0⟩ :: List.replicate n ⟨0, 0, 0⟩)
      (⟨1000000, 0, 0⟩ :: List.replicate n ⟨0, 0, 0⟩) _ _ (by simp) (by simp)
      (reports_exists _ own) (reports_exists _ own)).2.1
    rw [result_cpuTime, result_cpuTime] at hcpu
    simp only [rusageOf, Rusage.cpuTime, List.cons_append, List.map_cons, List.sum_cons, zero_add,
      toMillisecond_timevalOf_add] at hcpu
    grind
  · rintro rfl us us' res res' hus hus' h h'
    obtain rfl := List.length_eq_zero_iff.mp hus
    obtain rfl := List.length_eq_zero_iff.mp hus'
    rw [h.result, h'.result]
    exact ⟨rfl, rfl, rfl⟩

/-- A child that exits with 0 at once, under a limit of half a second. -/
def quickOwn : Own :=
  { Usage.exited ⟨0, 0, 0⟩ with limits := { rsclimCtxtCreate with cpuTime := 500 } }

/-- It is accepted or not, as an earlier child has used nothing or a second. -/
theorem contaminated : ∃ res res', Reports [⟨0, 0, 0⟩] quickOwn res ∧ res.code = .ok ∧
    Reports [⟨1000000, 0, 0⟩] quickOwn res' ∧ res'.code = .tle ∧ ¬ Uncontaminated 1 quickOwn := by
  have h := reports_exists [⟨0, 0, 0⟩] quickOwn
  have h' := reports_exists [⟨1000000, 0, 0⟩] quickOwn
  have hok : (quickOwn.result (rusageOf ([⟨0, 0, 0⟩] ++ quickOwn.waited))).code = .ok := by
    decide
  have htle : (quickOwn.result (rusageOf ([⟨1000000, 0, 0⟩] ++ quickOwn.waited))).code = .tle := by
    decide
  refine ⟨_, _, h, hok, h', htle, fun hu => ?_⟩
  have hsame := (hu _ _ _ _ rfl rfl h h').1
  rw [hok, htle] at hsame
  cases hsame

end YaojJudger
