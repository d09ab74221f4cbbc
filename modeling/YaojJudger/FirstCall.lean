/-
# `YaojJudger.FirstCall` — the first call on a context, in full

On a fresh context each chain holds its hooks once, and a call that returns 0
goes one way only.  `Course` collects what the system answers on it:

    before_fork    compile_policy    the bytes of the buffer, the filter
                   init_result       -
    fork           the child
    after_fork     timer             start
                   start_killer      the thread, if a limit is set
    waitpid        the status
    after_wait     timer             finish
                   get_usage         the usage
                   stop_killer       whether it was cancelled and joined
                   analyze           -

`first_judged` reads the record and the memory at the end off the answers, and
`Course.Possible.judging` says which answers can come.
-/
import YaojJudger.Judging

namespace YaojJudger

open Posix

/-! ## The chains of a fresh context -/

/-- The hooks that follow the wait. -/
def waitHooks : List Hook :=
  [.timerAfterWait, .getUsageAfterWait, .stopKillerAfterWait, .analyzeAfterWait]

section
variable {hs : List Hook} {m m' : Mem} {es : List JEvent}

/-- The first hooks before the fork, if they succeed. -/
theorem first_before
    (h : ChainDoes [.compilePolicyBeforeFork, .initResultBeforeFork] m hs 0 es m') :
    ∃ numStr escContent prog,
      es = [⟨.ask .numStr, numStr⟩,
        ⟨.ask (.kafelCompile escContent m.ctxt.pctxt.dirname), some prog⟩,
        ⟨.setCloexec m.logFd, true⟩] ∧
      m' = (m.compiled prog).preset := by
  obtain ⟨es₁, m₁, es₂, hd, h₁, rfl⟩ := h.head
  cases hd with
  | compiled prog _ _ =>
      obtain ⟨es₃, m₂, es₄, hd, h₂, rfl⟩ := h₁.head
      cases hd with
      | preset =>
          cases h₂ with
          | nil => exact ⟨_, _, prog, rfl, rfl⟩

/-- The events of starting a killer, if there is a limit. -/
def killerEvents (m : Mem) (t : Attempt) : List JEvent :=
  if m.ctxt.rctxt.realTime = rscUnlimited then [] else t.events m.tkillCtxt

/-- The memory after it. -/
def Mem.armed (m : Mem) (t : Attempt) : Mem :=
  if m.ctxt.rctxt.realTime = rscUnlimited then m else m.killer t.tid

/-- The first hooks after the fork. -/
theorem first_after (h : ChainDoes [.timerAfterFork, .startKillerAfterFork] m hs 0 es m') :
    ∃ now t, es = ⟨.ask .gettimeofday, now⟩ :: killerEvents m t ∧
      m' = Mem.armed { m with start := now } t := by
  obtain ⟨es₁, m₁, es₂, hd, h₁, rfl⟩ := h.head
  cases hd with
  | started now =>
      obtain ⟨es₃, m₂, es₄, hd, h₂, rfl⟩ := h₁.head
      cases h₂ with
      | nil =>
          cases hd with
          | noLimit hz =>
              have hnone : killerEvents m (.created 0) = [] := if_pos hz
              exact ⟨now, .created 0, by rw [hnone]; rfl, (if_pos hz).symm⟩
          | killer t hz =>
              have hsome : killerEvents m t = t.events m.tkillCtxt := if_neg hz
              exact ⟨now, t, by rw [hsome]; simp [Mem.tkillCtxt], (if_neg hz).symm⟩

/-- The events of stopping the killer. -/
def stopEvents (m : Mem) (cancelled joined : Bool) : List JEvent :=
  if m.ctxt.rctxt.realTime = rscUnlimited ∨ m.ctxt.tid = 0 then []
  else [⟨.pthreadCancel m.ctxt.tid, cancelled⟩, ⟨.pthreadJoin m.ctxt.tid, joined⟩]

/-- The first hooks after the wait, if they succeed. -/
theorem first_wait (h : ChainDoes waitHooks m hs 0 es m') :
    ∃ now ru cancelled joined,
      es = [⟨.ask .gettimeofday, now⟩, ⟨.ask .getrusage, some ru⟩] ++
        stopEvents m cancelled joined ++ warning m.ctxt.status ∧
      m' = { (m.ended now).used ru with ctxt := analyzed ((m.ended now).used ru).ctxt } := by
  obtain ⟨es₁, m₁, es₂, hd, h₁, rfl⟩ := h.head
  cases hd with
  | ended now =>
      obtain ⟨es₃, m₂, es₄, hd, h₂, rfl⟩ := h₁.head
      cases hd with
      | used ru =>
          obtain ⟨es₅, m₃, es₆, hd, h₃, rfl⟩ := h₂.head
          obtain ⟨es₇, m₄, es₈, hd', h₄, rfl⟩ := h₃.head
          cases h₄ with
          | nil =>
              cases hd' with
              | analyzed =>
                  cases hd with
                  | noKiller hz =>
                      refine ⟨now, ru, false, false, ?_, rfl⟩
                      have hstop : stopEvents m false false = [] := if_pos hz
                      simp [hstop, Mem.used, Mem.ended]
                  | stopped cancelled joined hz ht =>
                      refine ⟨now, ru, cancelled, joined, ?_, rfl⟩
                      have hstop : stopEvents m cancelled joined = _ :=
                        if_neg (not_or.mpr ⟨hz, ht⟩)
                      simp [hstop, Mem.used, Mem.ended]

end

/-! ## The same, put together -/

section
variable {hs : List Hook} {m m' : Mem} {es : List JEvent}

theorem before_succeeds {content escContent : Bytes} {numStr : Vector UInt8 10}
    {selected : List Nat} (prog : SockFprog) (hcontent : m.ctxt.pctxt.content = some content)
    (hout : policyIdentifierHandler (cString content) m.ctxt.ectxt.argv numStr =
      .done escContent selected) :
    ChainDoes [.compilePolicyBeforeFork, .initResultBeforeFork] m
      [.compilePolicyBeforeFork, .initResultBeforeFork] 0
      [⟨.ask .numStr, numStr⟩,
        ⟨.ask (.kafelCompile escContent m.ctxt.pctxt.dirname), some prog⟩,
        ⟨.setCloexec m.logFd, true⟩] (m.compiled prog).preset :=
  .next (.compiled prog hcontent hout) (.next .preset .nil)

theorem after_succeeds (now : Timeval) (t : Attempt) :
    ChainDoes [.timerAfterFork, .startKillerAfterFork] m [.timerAfterFork, .startKillerAfterFork] 0
      (⟨.ask .gettimeofday, now⟩ :: killerEvents m t)
      (Mem.armed { m with start := now } t) := by
  by_cases hz : m.ctxt.rctxt.realTime = rscUnlimited
  · have hnone : killerEvents m t = [] := if_pos hz
    have harmed : Mem.armed { m with start := now } t = { m with start := now } := if_pos hz
    rw [hnone, harmed]
    exact .next (.started now) (.next (.noLimit (m := { m with start := now }) hz) .nil)
  · have hsome : killerEvents m t = t.events m.tkillCtxt := if_neg hz
    have harmed : Mem.armed { m with start := now } t = Mem.killer { m with start := now } t.tid :=
      if_neg hz
    rw [hsome, harmed, ← List.append_nil (t.events m.tkillCtxt)]
    exact .next (.started now) (.next (.killer (m := { m with start := now }) t hz) .nil)

theorem wait_succeeds (now : Timeval) (ru : Rusage) (cancelled joined : Bool) :
    ChainDoes waitHooks m waitHooks 0
      ([⟨.ask .gettimeofday, now⟩, ⟨.ask .getrusage, some ru⟩] ++
        stopEvents m cancelled joined ++ warning m.ctxt.status)
      { (m.ended now).used ru with ctxt := analyzed ((m.ended now).used ru).ctxt } := by
  have hstop : HookDoes .stopKillerAfterWait ((m.ended now).used ru) 0
      (stopEvents m cancelled joined) ((m.ended now).used ru) := by
    rw [stopEvents]
    split
    case isTrue h => exact .noKiller h
    case isFalse h => exact .stopped cancelled joined (not_or.mp h).1 (not_or.mp h).2
  have h := ChainDoes.next (.ended (m := m) now)
    (.next (.used ru) (.next hstop (.next .analyzed .nil)))
  simpa [waitHooks, Mem.used, Mem.ended] using h

/-- What the system answers in a first call that succeeds. -/
structure Course where
  numStr : Vector UInt8 10
  escContent : Bytes
  prog : SockFprog
  child : Nat
  start : Timeval
  attempt : Attempt
  status : Nat
  finish : Timeval
  usage : Rusage
  cancelled : Bool
  joined : Bool

/-- The memory after the fork. -/
def Course.forked (a : Course) (l : JLocal) (m : Mem) : Mem :=
  (((hooked (m.begun l.pid)).compiled a.prog).preset).parent a.child

/-- The memory after the wait. -/
def Course.waited (a : Course) (l : JLocal) (m : Mem) : Mem :=
  (Mem.armed { a.forked l m with start := a.start } a.attempt).waited a.status

/-- The memory at the end. -/
def Course.judged (a : Course) (l : JLocal) (m : Mem) : Mem :=
  let m₁ := ((a.waited l m).ended a.finish).used a.usage
  { m₁ with ctxt := analyzed m₁.ctxt }

/-- What is put on the record. -/
def Course.events (a : Course) (l : JLocal) (m : Mem) : List JEvent :=
  opening l ++
    [⟨.ask .numStr, a.numStr⟩,
      ⟨.ask (.kafelCompile a.escContent m.ctxt.pctxt.dirname), some a.prog⟩,
      ⟨.setCloexec m.logFd, true⟩] ++
    handshake l a.child ++ (⟨.ask .gettimeofday, a.start⟩ :: killerEvents (a.forked l m) a.attempt) ++
    [⟨.waitpid a.child true, some a.status⟩] ++
    ([⟨.ask .gettimeofday, a.finish⟩, ⟨.ask .getrusage, some a.usage⟩] ++
      stopEvents (a.waited l m) a.cancelled a.joined ++ warning a.status)

/-- The hooks of one registration, in the order of their calls. -/
def firstHooks : List Hook :=
  [.compilePolicyBeforeFork, .initResultBeforeFork, .timerAfterFork, .startKillerAfterFork] ++
    waitHooks

/-- **A first call that succeeds.** -/
theorem first_judged {j : Judger} {l : JLocal} (h : Judging j l m hs 0 es m')
    (hm : m.ctxt.hctxt = hookCtxtCreate) :
    ∃ a : Course, hs = firstHooks ∧ es = a.events l m ∧ m' = a.judged l m := by
  generalize hr : (0 : Int) = r at h
  cases h with
  | noPipe | badArgc | noFork | notReady | noWait => exact absurd hr (by decide)
  | unprepared _ hc hne => exact absurd (hr.trans (hc.failed hne).2).symm hne
  | unstarted _ _ hc hne => exact absurd (hr.trans (hc.failed hne).2).symm hne
  | unread _ _ _ hc hne => exact absurd (hr.trans (hc.failed hne).2).symm hne
  | @judged hs hs₂ hs₃ es es₂ es₃ m₁ m₂ m₃ n status hp _ hc hc₃ =>
      have hreg : registerBuiltinHook m.ctxt.hctxt = registerBuiltinHook hookCtxtCreate :=
        congrArg registerBuiltinHook hm
      have hkeep : m₁.ctxt.hctxt = registerBuiltinHook hookCtxtCreate :=
        hp.2.keeps.hctxt.trans hreg
      have hb := hp.2
      rw [show (hooked (m.begun l.pid)).ctxt.hctxt = registerBuiltinHook hookCtxtCreate from
        hreg] at hb
      rw [show (m₂.waited status).ctxt.hctxt = registerBuiltinHook hookCtxtCreate from
        hc.keeps.hctxt.trans hkeep] at hc₃
      rw [show (m₁.parent n).ctxt.hctxt = registerBuiltinHook hookCtxtCreate from hkeep] at hc
      obtain rfl := hb.all.2
      obtain rfl := hc.all.2
      obtain rfl := hc₃.all.2
      obtain ⟨numStr, escContent, prog, rfl, rfl⟩ := first_before hb
      obtain ⟨start, tid, rfl, rfl⟩ := first_after hc
      obtain ⟨finish, ru, cancelled, joined, rfl, rfl⟩ := first_wait hc₃
      exact ⟨⟨numStr, escContent, prog, n, start, tid, status, finish, ru, cancelled, joined⟩,
        rfl, rfl, rfl⟩

theorem ChainDoes.of_eq {chain chain' : List Hook} {r : Int}
    (h : ChainDoes chain m hs r es m') (heq : chain' = chain) : ChainDoes chain' m hs r es m' :=
  heq ▸ h

/-- An empty policy has no placeholders. -/
theorem handler_empty (argv : List Arg) (numStr : Vector UInt8 10) :
    policyIdentifierHandler [] argv numStr = .done [] [] := by
  rw [policyIdentifierHandler, identLoop]
  rfl

/-- What it takes. -/
structure Course.Possible (a : Course) (j : Judger) (l : JLocal) (m : Mem) : Prop where
  accepts : j.Accepts m
  hctxt : m.ctxt.hctxt = hookCtxtCreate
  compiles : ∃ content selected, m.ctxt.pctxt.content = some content ∧
    policyIdentifierHandler (cString content) m.ctxt.ectxt.argv a.numStr =
      .done a.escContent selected
  child : l.pid < a.child

theorem Course.Possible.judging {a : Course} {j : Judger} {l : JLocal} (h : a.Possible j l m) :
    Judging j l m firstHooks 0 (a.events l m) (a.judged l m) := by
  obtain ⟨content, selected, hcontent, hout⟩ := h.compiles
  have hreg : registerBuiltinHook m.ctxt.hctxt = registerBuiltinHook hookCtxtCreate :=
    congrArg registerBuiltinHook h.hctxt
  have hb := (before_succeeds (m := hooked (m.begun l.pid)) a.prog hcontent hout).of_eq
    (congrArg HookCtxt.beforeFork hreg)
  have hc := (after_succeeds (m := a.forked l m) a.start a.attempt).of_eq
    (congrArg HookCtxt.afterFork hreg)
  have hkeep : (a.waited l m).ctxt.hctxt = registerBuiltinHook hookCtxtCreate :=
    hc.keeps.hctxt.trans hreg
  have hc₃ := (wait_succeeds (m := a.waited l m) a.finish a.usage a.cancelled a.joined).of_eq
    (congrArg HookCtxt.afterWait hkeep)
  exact .judged ⟨h.accepts, hb⟩ h.child hc hc₃

end

theorem mem_killerEvents {m : Mem} {t : Attempt} {e : JEvent} (h : e ∈ killerEvents m t) :
    m.ctxt.rctxt.realTime ≠ rscUnlimited ∧ e ∈ t.events m.tkillCtxt := by
  rw [killerEvents] at h
  split at h
  case isTrue => exact absurd h List.not_mem_nil
  case isFalse hz => exact ⟨hz, h⟩

theorem mem_stopEvents {m : Mem} {b b' : Bool} {e : JEvent} (h : e ∈ stopEvents m b b') :
    e = ⟨.pthreadCancel m.ctxt.tid, b⟩ ∨ e = ⟨.pthreadJoin m.ctxt.tid, b'⟩ := by
  rw [stopEvents] at h
  split at h
  · exact absurd h List.not_mem_nil
  · simpa using h

theorem mem_warning {status : Nat} {e : JEvent} (h : e ∈ warning status) :
    e = said (wexitstatus status) := by
  rw [warning] at h
  split at h
  · simpa using h
  · exact absurd h List.not_mem_nil

/-! ## The record of such a call -/

/-- The events every such call has. -/
def Course.calls (a : Course) (l : JLocal) (m : Mem) : List JEvent :=
  opening l ++
    [⟨.ask .numStr, a.numStr⟩,
      ⟨.ask (.kafelCompile a.escContent m.ctxt.pctxt.dirname), some a.prog⟩,
      ⟨.setCloexec m.logFd, true⟩] ++
    handshake l a.child ++
    [⟨.ask .gettimeofday, a.start⟩, ⟨.waitpid a.child true, some a.status⟩,
      ⟨.ask .gettimeofday, a.finish⟩, ⟨.ask .getrusage, some a.usage⟩]

/-- An event that not every such call has. -/
theorem Course.mem_pieces {a : Course} {l : JLocal} {m : Mem} {e : JEvent}
    (he : e ∈ a.events l m) (hcalls : e ∉ a.calls l m) :
    e ∈ killerEvents (a.forked l m) a.attempt ∨
      e ∈ stopEvents (a.waited l m) a.cancelled a.joined ∨ e ∈ warning a.status := by
  simp only [Course.events, Course.calls, List.mem_append, List.mem_cons, List.not_mem_nil,
    or_false] at he hcalls
  tauto

/-- The killer that is started. -/
theorem Course.attempt_eq {a : Course} {l : JLocal} {m : Mem} {start : TkillCtxt} {t : Nat}
    (he : (⟨.pthreadCreate start, some t⟩ : JEvent) ∈ a.events l m) :
    m.ctxt.rctxt.realTime ≠ rscUnlimited ∧ start = (a.forked l m).tkillCtxt ∧
      a.attempt = .created t := by
  have hk : (⟨.pthreadCreate start, some t⟩ : JEvent) ∈ killerEvents (a.forked l m) a.attempt := by
    rcases Course.mem_pieces he (by simp [Course.calls, opening, handshake]) with he | he | he
    · exact he
    · rcases mem_stopEvents he with h | h <;> cases h
    · exact absurd (mem_warning he) (by simp)
  obtain ⟨hz, hmem⟩ := mem_killerEvents hk
  exact ⟨hz, Attempt.created_of_mem hmem⟩

/-- It is remembered. -/
theorem Course.created {a : Course} {l : JLocal} {m : Mem} {start : TkillCtxt} {t : Nat}
    (he : (⟨.pthreadCreate start, some t⟩ : JEvent) ∈ a.events l m) :
    (a.waited l m).ctxt.rctxt.realTime ≠ rscUnlimited ∧ (a.waited l m).ctxt.tid = t := by
  obtain ⟨hz, -, hattempt⟩ := Course.attempt_eq he
  have harmed : a.waited l m =
      (({ a.forked l m with start := a.start } : Mem).killer a.attempt.tid).waited a.status :=
    congrArg (Mem.waited · a.status) (if_neg hz)
  rw [harmed, hattempt]
  exact ⟨hz, rfl⟩

/-- A killer that is started is the one that is stopped. -/
theorem Course.stopped {a : Course} {l : JLocal} {m : Mem} {start : TkillCtxt}
    {t : Nat} (he : (⟨.pthreadCreate start, some t⟩ : JEvent) ∈ a.events l m) (ht : t ≠ 0) :
    stopEvents (a.waited l m) a.cancelled a.joined =
      [⟨.pthreadCancel t, a.cancelled⟩, ⟨.pthreadJoin t, a.joined⟩] := by
  obtain ⟨hz, htid⟩ := Course.created he
  rw [stopEvents, if_neg (not_or.mpr ⟨hz, htid ▸ ht⟩), htid]

end YaojJudger
