/-
# `YaojJudger.Verdict` — which verdict a run gets

`lib/builtin_hook.c` seen as a function: from the wait status, the usage and
the two stamps to `result.code`.  Each hook of the `after_wait` chain changes
the memory in one way, whatever the calls it makes answer (`…_eval` below); the
chain runs them in the order

    timer_after_wait  get_usage_after_wait  stop_killer_after_wait  analyze_after_wait

so the times are in place when the verdict is read.

Two things are settled.

**Accepting.**  The code compares the memory figure after it has been narrowed
to an `int`, so it accepts a run that is over its memory limit when, and only
when, the low 32 bits of the figure, read as an `int`, are within the limit
(`accepts_iff_not_narrowed`).

**Crashing.**  The `switch` over the signal has no default.  The preset `SE`
survives every signal but five, and `SIGKILL` too unless the real time limit
was exceeded (`crash_verdict_iff`).
-/
import YaojJudger.Builtin
import YaojJudger.Helper

namespace YaojJudger

open Posix

/-! ## What each hook does to the memory -/

/-- The result as `init_result_before_fork` presets it. -/
def YjudgerResult.preset (r : YjudgerResult) : YjudgerResult :=
  { r with code := .se, exitCode := 0, signal := 0, realMemory := 0, realTime := 0 }

/-- `real_time` as `timer_after_wait` computes it, at the time `now`. -/
def elapsed (m : Mem) (now : Timeval) : Int32 := toMillisecond now - toMillisecond m.start

/-- `cpu_time` as `get_usage_after_wait` computes it. -/
def Rusage.cpuTime (ru : Rusage) : Int32 := toMillisecond ru.utime + toMillisecond ru.stime

/-- What `analyze_after_wait` makes of the context. -/
def analyzed (ctxt : YjudgerCtxt) : YjudgerCtxt :=
  let ctxt := { ctxt with result := { ctxt.result with realMemory := realMemory ctxt.rusage } }
  if wifsignaled ctxt.status then setSignalStatus ctxt (wtermsig ctxt.status)
  else if wifexited ctxt.status then setExitcodeStatus ctxt (wexitstatus ctxt.status)
  else ctxt

/-- A table that answers every call. -/
def Answers (h : (c : Call) → Option (Ret c)) : Prop := ∀ c, c ≠ .fault → (h c).isSome

section
variable {h : (c : Call) → Option (Ret c)} (m : Mem)

theorem initResultBeforeFork_eval (hset : h (.setCloexec m.logFd) = some true) :
    (initResultBeforeFork m).eval h =
      .ok (0, { m with ctxt := { m.ctxt with result := m.ctxt.result.preset } }) := by
  simp only [initResultBeforeFork, modifyResult, modifyCtxt, Code.bind_apply, Code.modify_apply,
    Code.get_apply, Code.call_apply, Code.ite_apply, Prog.ret_bind, Prog.call_bind,
    Prog.eval_call hset, if_true]
  rfl

theorem timerAfterWait_eval {now : Timeval} (hnow : h (.ask .gettimeofday) = some now) :
    (timerAfterWait m).eval h = .ok (0,
      { m with
        finish := now
        ctxt := { m.ctxt with result := { m.ctxt.result with realTime := elapsed m now } } }) := by
  simp only [timerAfterWait, ask, Code.bind_apply, Code.call_apply, Prog.call_bind,
    Prog.eval_call hnow]
  rfl

theorem getUsageAfterWait_eval {ru : Rusage} (hru : h (.ask .getrusage) = some (some ru)) :
    (getUsageAfterWait m).eval h = .ok (0,
      { m with ctxt := { m.ctxt with
          rusage := ru
          result := { m.ctxt.result with cpuTime := ru.cpuTime } } }) := by
  simp only [getUsageAfterWait, ask, Code.bind_apply, Code.call_apply, Prog.call_bind,
    Prog.eval_call hru]
  rfl

theorem stopKillerAfterWait_eval (hans : Answers h) :
    (stopKillerAfterWait m).eval h = .ok (0, m) := by
  obtain ⟨cancelled, hc⟩ :=
    Option.isSome_iff_exists.mp (hans (.pthreadCancel m.ctxt.tid) (fun h => by cases h))
  obtain ⟨joined, hj⟩ :=
    Option.isSome_iff_exists.mp (hans (.pthreadJoin m.ctxt.tid) (fun h => by cases h))
  simp only [stopKillerAfterWait, stopTimeoutKiller, Code.bind_apply, Code.get_apply,
    Code.call_apply, Prog.ret_bind, Code.ite_apply]
  split
  · rfl
  · split
    · simp only [Prog.call_bind, Prog.ret_bind, Prog.eval_call hc, Prog.eval_call hj]
      rfl
    · rfl

theorem analyzeAfterWait_eval (hans : Answers h) :
    (analyzeAfterWait m).eval h = .ok (0, { m with ctxt := analyzed m.ctxt }) := by
  have hrun : analyzeAfterWait m =
      if wifsignaled m.ctxt.status then .ret (0, { m with ctxt := analyzed m.ctxt })
      else if wifexited m.ctxt.status then
        if wexitstatus m.ctxt.status ≠ 0 then
          .call (.ask (.strerr (wexitstatus m.ctxt.status)))
            fun _ => .ret (0, { m with ctxt := analyzed m.ctxt })
        else .ret (0, { m with ctxt := analyzed m.ctxt })
      else .ret (0, { m with ctxt := analyzed m.ctxt }) := by
    simp only [analyzeAfterWait, Code.bind_apply, Code.get_apply, Prog.ret_bind, modifyCtxt,
      Code.modify_apply, Code.ite_apply, analyzed]
    split <;> try rfl
    split <;> rfl
  obtain ⟨told, ht⟩ := Option.isSome_iff_exists.mp
    (hans (.ask (.strerr (wexitstatus m.ctxt.status))) (fun h => by cases h))
  rw [hrun]
  split
  · rfl
  · split
    · split
      · exact Prog.eval_call ht _
      · rfl
    · rfl

/-! ## The chain -/

/-- A hook that returns 0 hands its memory on to the rest of the chain. -/
theorem runHookChain_cons_eval {H : Type} (hook : H → Code Int) (x : H) {xs : List H} {m m' : Mem}
    (hx : (hook x m).eval h = .ok (0, m')) :
    (runHookChain hook (x :: xs) m).eval h = (runHookChain hook xs m').eval h := by
  simp only [runHookChain, Code.bind_apply, Prog.eval_bind, hx]
  rfl

/-- The `after_wait` chain that one `register_builtin_hook` leaves. -/
abbrev builtinAfterWait : List Hook := (registerBuiltinHook hookCtxtCreate).afterWait

theorem builtinAfterWait_eq : builtinAfterWait =
    [.timerAfterWait, .getUsageAfterWait, .stopKillerAfterWait, .analyzeAfterWait] := rfl

/-- The context when the verdict is read. -/
def measured (now : Timeval) (ru : Rusage) : YjudgerCtxt :=
  { m.ctxt with
    rusage := ru
    result := { m.ctxt.result with realTime := elapsed m now, cpuTime := ru.cpuTime } }

/-- The run of the whole chain, when the usage can be had. -/
theorem afterWait_eval {now : Timeval} {ru : Rusage} (hans : Answers h)
    (hnow : h (.ask .gettimeofday) = some now) (hru : h (.ask .getrusage) = some (some ru)) :
    (runHookChain hookFn builtinAfterWait m).eval h = .ok (0,
      { m with finish := now, ctxt := analyzed (measured m now ru) }) := by
  rw [builtinAfterWait_eq,
    runHookChain_cons_eval hookFn .timerAfterWait (timerAfterWait_eval m hnow),
    runHookChain_cons_eval hookFn .getUsageAfterWait (getUsageAfterWait_eval _ hru),
    runHookChain_cons_eval hookFn .stopKillerAfterWait (stopKillerAfterWait_eval _ hans),
    runHookChain_cons_eval hookFn .analyzeAfterWait (analyzeAfterWait_eval _ hans)]
  rfl

end

/-! ## The memory figure -/

/-- The memory figure is the exact one modulo `2 ^ 32`, read as an `int`. -/
theorem realMemory_toInt (ru : Rusage) :
    (realMemory ru).toInt = (ru.maxrss.toInt * 1024).bmod (2 ^ 32) := by
  have hkb : (kb.toInt64).toInt = 1024 := rfl
  have hdvd : 2 ^ 32 ∣ 2 ^ 64 := by decide
  rw [realMemory, Int64.toInt_toInt32, Int64.toInt_mul, hkb, Int.bmod_bmod_of_dvd hdvd]

/-- A figure that an `int` can hold is left as it is. -/
theorem bmod_of_le {x : Int} {y : Int32} (h₀ : 0 ≤ x) (h : x ≤ y.toInt) :
    x.bmod (2 ^ 32) = x := by
  have := y.toInt_lt
  exact Int.bmod_eq_of_le (by omega) (by omega)

/-! ## Accepting -/

/-- A limit of 0 is no limit. -/
def Within (x lim : Int32) : Prop := lim = rscUnlimited ∨ x ≤ lim

/-- Exited with 0, and within both time limits. -/
structure InTime (status : Nat) (lim : RsclimCtxt) (realTime cpuTime : Int32) : Prop where
  exited : wifexited status = true
  zero : wexitstatus status = 0
  real : Within realTime lim.realTime
  cpu : Within cpuTime lim.cpuTime

/-- A good run: in time, and the memory used, as an exact number, within its limit. -/
structure Good (status : Nat) (lim : RsclimCtxt) (realTime cpuTime : Int32) (maxrss : Int64) : Prop
    extends InTime status lim realTime cpuTime where
  memory : lim.actualMemory = rscUnlimited ∨ maxrss.toInt * 1024 ≤ lim.actualMemory.toInt

/-- The memory used is over its limit, and its low 32 bits are not. -/
structure Narrowed (lim : RsclimCtxt) (maxrss : Int64) : Prop where
  limited : lim.actualMemory ≠ rscUnlimited
  above : lim.actualMemory.toInt < maxrss.toInt * 1024
  within : (maxrss.toInt * 1024).bmod (2 ^ 32) ≤ lim.actualMemory.toInt

theorem not_exceeded_iff {x lim : Int32} :
    (lim ≠ rscUnlimited && x > lim) = false ↔ Within x lim := by
  have hnot : ¬ lim < x ↔ x ≤ lim := by
    rw [Int32.lt_iff_toInt_lt, Int32.le_iff_toInt_le, Int.not_lt]
  simp only [Within, Bool.and_eq_false_iff, decide_eq_false_iff_not, not_not, hnot, gt_iff_lt]

theorem realTle_eq_false {ctxt : YjudgerCtxt} :
    realTle ctxt = false ↔ Within ctxt.result.realTime ctxt.rctxt.realTime := not_exceeded_iff

theorem cpuTle_eq_false {ctxt : YjudgerCtxt} :
    cpuTle ctxt = false ↔ Within ctxt.result.cpuTime ctxt.rctxt.cpuTime := not_exceeded_iff

theorem realMle_eq_false {ctxt : YjudgerCtxt} :
    realMle ctxt = false ↔ Within ctxt.result.realMemory ctxt.rctxt.actualMemory := not_exceeded_iff

/-- The verdict for an exit code is `OK` when nothing is exceeded. -/
theorem exitcodeCode_eq_ok {ctxt : YjudgerCtxt} {code : Nat} :
    exitcodeCode ctxt code = .ok ↔
      code = 0 ∧ realMle ctxt = false ∧ realTle ctxt = false ∧ cpuTle ctxt = false := by
  unfold exitcodeCode
  split
  case isFalse hc => exact ⟨(fun h => by cases h), fun h => absurd h.1 hc⟩
  case isTrue hc =>
    cases realMle ctxt <;> cases realTle ctxt <;> cases cpuTle ctxt <;> simp [hc]

theorem signalCode_ne_ok {ctxt : YjudgerCtxt} (hse : ctxt.result.code = .se) (signal : Nat) :
    signalCode ctxt signal ≠ .ok := by
  unfold signalCode
  repeat' split
  all_goals simp [hse]

/-- The code accepts when the run is in time and the *narrowed* figure is within
the memory limit. -/
theorem analyzed_eq_ok {ctxt : YjudgerCtxt} (hse : ctxt.result.code = .se) :
    (analyzed ctxt).result.code = .ok ↔
      InTime ctxt.status ctxt.rctxt ctxt.result.realTime ctxt.result.cpuTime ∧
        Within (realMemory ctxt.rusage) ctxt.rctxt.actualMemory := by
  simp only [analyzed]
  split
  case isTrue hsig =>
    refine ⟨fun h => absurd h (signalCode_ne_ok (by exact hse) _), fun h => ?_⟩
    exact absurd h.1.exited (by simp [not_wifexited_of_wifsignaled hsig])
  case isFalse =>
    split
    case isFalse hex =>
      exact ⟨fun h => by simp [hse] at h, fun h => absurd h.1.exited hex⟩
    case isTrue hex =>
      simp only [setExitcodeStatus, exitcodeCode_eq_ok, realMle_eq_false, realTle_eq_false,
        cpuTle_eq_false]
      exact ⟨fun h => ⟨⟨hex, h.1, h.2.2.1, h.2.2.2⟩, h.2.1⟩,
        fun h => ⟨h.1.zero, h.2, h.1.real, h.1.cpu⟩⟩

/-- The narrowed figure tells the truth unless it wraps into the limit. -/
theorem within_realMemory_iff {lim : RsclimCtxt} {ru : Rusage} (hrss : 0 ≤ ru.maxrss.toInt) :
    Within (realMemory ru) lim.actualMemory ↔
      (lim.actualMemory = rscUnlimited ∨ ru.maxrss.toInt * 1024 ≤ lim.actualMemory.toInt) ∨
        Narrowed lim ru.maxrss := by
  have h₀ : 0 ≤ ru.maxrss.toInt * 1024 := by omega
  rw [Within, Int32.le_iff_toInt_le, realMemory_toInt]
  constructor
  · rintro (h | h)
    · exact Or.inl (Or.inl h)
    · by_cases hun : lim.actualMemory = rscUnlimited
      · exact Or.inl (Or.inl hun)
      · by_cases hle : ru.maxrss.toInt * 1024 ≤ lim.actualMemory.toInt
        · exact Or.inl (Or.inr hle)
        · exact Or.inr ⟨hun, Int.not_le.mp hle, h⟩
  · rintro ((h | h) | h)
    · exact Or.inl h
    · exact Or.inr (by rw [bmod_of_le h₀ h]; exact h)
    · exact Or.inr h.within

/-- The verdict of the chain is `OK` exactly for the good runs, unless the run is
in time and its memory figure wraps into the limit. -/
theorem accepts_iff_not_narrowed (h : (c : Call) → Option (Ret c)) (m : Mem) (now : Timeval)
    (ru : Rusage) (hans : Answers h) (hnow : h (.ask .gettimeofday) = some now)
    (hru : h (.ask .getrusage) = some (some ru)) (hse : m.ctxt.result.code = .se)
    (hrss : 0 ≤ ru.maxrss.toInt) :
    ∃ m', (runHookChain hookFn builtinAfterWait m).eval h = .ok (0, m') ∧
      ((m'.ctxt.result.code = .ok ↔
          Good m.ctxt.status m.ctxt.rctxt m'.ctxt.result.realTime m'.ctxt.result.cpuTime
          ru.maxrss) ↔
        ¬ (InTime m.ctxt.status m.ctxt.rctxt (elapsed m now) ru.cpuTime ∧
            Narrowed m.ctxt.rctxt ru.maxrss)) := by
  refine ⟨_, afterWait_eval m hans hnow hru, ?_⟩
  have htimes : (analyzed (measured m now ru)).result.realTime = elapsed m now ∧
      (analyzed (measured m now ru)).result.cpuTime = ru.cpuTime := by
    simp only [analyzed]
    split
    · exact ⟨rfl, rfl⟩
    · split <;> exact ⟨rfl, rfl⟩
  have hgood : Good m.ctxt.status m.ctxt.rctxt (elapsed m now) ru.cpuTime ru.maxrss ↔
      InTime m.ctxt.status m.ctxt.rctxt (elapsed m now) ru.cpuTime ∧
        (m.ctxt.rctxt.actualMemory = rscUnlimited ∨
          ru.maxrss.toInt * 1024 ≤ m.ctxt.rctxt.actualMemory.toInt) :=
    ⟨fun g => ⟨g.toInTime, g.memory⟩, fun g => ⟨g.1, g.2⟩⟩
  have hnot : Narrowed m.ctxt.rctxt ru.maxrss →
      ¬ (m.ctxt.rctxt.actualMemory = rscUnlimited ∨
          ru.maxrss.toInt * 1024 ≤ m.ctxt.rctxt.actualMemory.toInt) := by
    rintro hn (hu | hle)
    · exact hn.limited hu
    · exact absurd hn.above (by omega)
  show ((analyzed (measured m now ru)).result.code = .ok ↔
    Good m.ctxt.status m.ctxt.rctxt (analyzed (measured m now ru)).result.realTime
      (analyzed (measured m now ru)).result.cpuTime ru.maxrss) ↔ _
  rw [htimes.1, htimes.2, hgood, analyzed_eq_ok (by exact hse)]
  show (InTime m.ctxt.status m.ctxt.rctxt (elapsed m now) ru.cpuTime ∧
    Within (realMemory ru) m.ctxt.rctxt.actualMemory ↔ _) ↔ _
  rw [within_realMemory_iff hrss]
  tauto

/-- A table in which every call succeeds, `f` answers the questions, and only
what is undefined has no answer. -/
def succeeding (f : (q : Ask) → q.Ans) : (c : Call) → Option (Ret c)
  | .ask q => some (f q)
  | .fault => none
  | .getpid => some 1
  | .pipe => some (some (3, 4))
  | .fork => some (.parent 2)
  | .open_ _ _ => some (some 5)
  | .execve _ _ _ => some ()
  | .read _ => some (some 2)
  | .waitpid _ _ => some (some 0)
  | .pthreadCreate _ => some (some 1)
  | .setpgid | .dup2 _ _ | .setCloexec _ | .setrlimit _ _ _ | .setNoNewPrivs | .setSeccomp _
  | .write _ _ | .killpg _ | .pthreadDetach | .pthreadCancel _ | .pthreadJoin _ | .sleep _ =>
      some true

theorem succeeding_answers (f : (q : Ask) → q.Ans) : Answers (succeeding f) := by
  intro c hc
  cases c with
  | fault => exact absurd rfl hc
  | _ => rfl

/-- The clock at 1 s, `ru` as the usage. -/
def usageOf (ru : Rusage) : (q : Ask) → q.Ans
  | .gettimeofday => (⟨1, 0⟩ : Timeval)
  | .getrusage => some ru
  | q => q.failing

/-- A child that exited with 0, judged with `limit` bytes of actual memory. -/
def exitedMem (limit : Int32) : Mem :=
  let ctxt := yjudgerCtxtCreate blankResult.preset noRusage
  Mem.create
    { ctxt with
      status := exitStatus 0
      rctxt := { ctxt.rctxt with actualMemory := limit } } 3

/-- A run that uses 8 MB of 16 MB is judged as the specification says. -/
theorem accepts_small : ∃ m',
    (runHookChain hookFn builtinAfterWait (exitedMem 16777216)).eval
      (succeeding (usageOf { noRusage with maxrss := 8192 })) = .ok (0, m') ∧
    (m'.ctxt.result.code = .ok ↔ Good (exitStatus 0) (exitedMem 16777216).ctxt.rctxt
      m'.ctxt.result.realTime m'.ctxt.result.cpuTime 8192) := by
  obtain ⟨m', hrun, hiff⟩ := accepts_iff_not_narrowed
    (succeeding (usageOf { noRusage with maxrss := 8192 })) (exitedMem 16777216) ⟨1, 0⟩
    { noRusage with maxrss := 8192 } (succeeding_answers _) rfl rfl rfl (by decide)
  exact ⟨m', hrun, hiff.mpr fun h => absurd h.2.above (by decide)⟩

/-- 4 GB against a limit of one byte: the figure is narrowed to 0 and the run is accepted. -/
theorem accepts_four_gigabytes : ∃ m',
    (runHookChain hookFn builtinAfterWait (exitedMem 1)).eval
      (succeeding (usageOf { noRusage with maxrss := 4194304 })) = .ok (0, m') ∧
    ¬ (m'.ctxt.result.code = .ok ↔ Good (exitStatus 0) (exitedMem 1).ctxt.rctxt
      m'.ctxt.result.realTime m'.ctxt.result.cpuTime 4194304) := by
  refine ⟨_, afterWait_eval (exitedMem 1) (succeeding_answers _) rfl rfl, fun h => ?_⟩
  have hgood := h.mp (by decide)
  exact absurd hgood.memory (by decide)

/-! ## Crashing -/

/-- The verdicts a crash can get. -/
def crashCodes : List ResultCode := [.re, .mle, .tle, .ole, .dsc]

/-- The signals the `switch` names, `SIGUSR1` and `SIGKILL` apart. -/
def namedSignals : List Nat := [sigsys, sigxcpu, sigsegv, sigxfsz, sigabrt]

/-- The condition under which a crash gets a verdict of its own. -/
def CrashSeen (ctxt : YjudgerCtxt) : Prop :=
  wtermsig ctxt.status ∈ namedSignals ∨
    wtermsig ctxt.status = sigkill ∧ ¬ Within ctxt.result.realTime ctxt.rctxt.realTime

theorem signalCode_of_named {ctxt : YjudgerCtxt} {signal : Nat} (h : signal ∈ namedSignals) :
    signalCode ctxt signal ∈ crashCodes := by
  simp only [namedSignals, List.mem_cons, List.not_mem_nil, or_false] at h
  rcases h with rfl | rfl | rfl | rfl | rfl
  · show ResultCode.dsc ∈ crashCodes; decide
  · show ResultCode.tle ∈ crashCodes; decide
  · show (if ctxt.rctxt.virtualMemory = rscUnlimited then ResultCode.re else .mle) ∈ crashCodes
    split <;> decide
  · show ResultCode.ole ∈ crashCodes; decide
  · show ResultCode.re ∈ crashCodes; decide

theorem signalCode_of_unnamed {ctxt : YjudgerCtxt} {signal : Nat} (h : signal ∉ namedSignals)
    (husr : signal ≠ sigusr1) :
    signalCode ctxt signal =
      if signal = sigkill ∧ realTle ctxt = true then .tle else ctxt.result.code := by
  simp only [namedSignals, List.mem_cons, List.not_mem_nil, or_false, not_or] at h
  obtain ⟨h₁, h₂, h₃, h₄, h₅⟩ := h
  simp only [signalCode, h₁, h₂, h₃, h₄, h₅, husr, if_false]
  by_cases hk : signal = sigkill
  · simp [hk]
  · simp [hk]

theorem se_not_mem_crashCodes : ResultCode.se ∉ crashCodes := by decide

/-- The verdict on a crash that began from `SE`. -/
theorem analyzed_crash {ctxt : YjudgerCtxt} (hse : ctxt.result.code = .se)
    (hsig : wifsignaled ctxt.status = true) (husr : wtermsig ctxt.status ≠ sigusr1) :
    (CrashSeen ctxt → (analyzed ctxt).result.code ∈ crashCodes) ∧
      (¬ CrashSeen ctxt → (analyzed ctxt).result.code = .se) := by
  simp only [analyzed, hsig, if_true, setSignalStatus]
  by_cases hnamed : wtermsig ctxt.status ∈ namedSignals
  · exact ⟨fun _ => signalCode_of_named hnamed, fun h => absurd (Or.inl hnamed) h⟩
  · rw [signalCode_of_unnamed hnamed husr]
    constructor
    · rintro (hn | ⟨hkill, hout⟩)
      · exact absurd hn hnamed
      · have htle : realTle ctxt = true := by
          cases hr : realTle ctxt with
          | true => rfl
          | false => exact absurd (realTle_eq_false.mp hr) hout
        rw [if_pos ⟨hkill, htle⟩]
        decide
    · intro hnot
      rw [if_neg]
      · exact hse
      · rintro ⟨hkill, htle⟩
        refine hnot (Or.inr ⟨hkill, fun hw => ?_⟩)
        have htle' : realTle ctxt = true := htle
        rw [realTle_eq_false.mpr hw] at htle'
        cases htle'

/-- **Which crashes are told from faults of the judger.**  Between the preset and
the reading of the verdict, everything but `result.code` may change. -/
theorem crash_verdict_iff (h : (c : Call) → Option (Ret c)) (m : Mem) (hans : Answers h)
    (hset : h (.setCloexec m.logFd) = some true) :
    ∃ m₁, (initResultBeforeFork m).eval h = .ok (0, m₁) ∧
      ∀ m₂ : Mem, m₂.ctxt.result.code = m₁.ctxt.result.code →
        wifsignaled m₂.ctxt.status = true → wtermsig m₂.ctxt.status ≠ sigusr1 →
        ∃ m₃, (analyzeAfterWait m₂).eval h = .ok (0, m₃) ∧
          (m₃.ctxt.result.code ∈ crashCodes ↔ CrashSeen m₂.ctxt) ∧
          (m₃.ctxt.result.code = .se ↔ ¬ CrashSeen m₂.ctxt) := by
  refine ⟨_, initResultBeforeFork_eval m hset, fun m₂ hcode hsig husr => ?_⟩
  refine ⟨_, analyzeAfterWait_eval m₂ hans, ?_⟩
  obtain ⟨hseen, hunseen⟩ := analyzed_crash hcode hsig husr
  refine ⟨⟨fun hc => ?_, hseen⟩, ⟨fun hc hs => ?_, hunseen⟩⟩
  · by_contra hn
    exact se_not_mem_crashCodes (hunseen hn ▸ hc)
  · exact se_not_mem_crashCodes (hc ▸ hseen hs)

/-- The memory when a child killed by `sig` has been waited for. -/
def killedMem (sig : Nat) : Mem :=
  Mem.create { yjudgerCtxtCreate blankResult.preset noRusage with status := killStatus sig false } 3

/-- A segmentation fault is seen as a crash. -/
theorem crash_sigsegv : ∃ m₁,
    (initResultBeforeFork (killedMem sigsegv)).eval (succeeding (usageOf noRusage)) = .ok (0, m₁) ∧
    ∃ m₃, (analyzeAfterWait (killedMem sigsegv)).eval (succeeding (usageOf noRusage)) =
      .ok (0, m₃) ∧
      m₃.ctxt.result.code ∈ crashCodes := by
  obtain ⟨m₁, hrun, hall⟩ := crash_verdict_iff (succeeding (usageOf noRusage)) (killedMem sigsegv)
    (succeeding_answers _) rfl
  have hm₁ : m₁.ctxt.result.code = .se := by
    have := (initResultBeforeFork_eval (killedMem sigsegv) rfl).symm.trans hrun
    obtain rfl := (Prod.mk.inj (Except.ok.inj this)).2
    rfl
  obtain ⟨m₃, hrun₃, hiff, -⟩ := hall (killedMem sigsegv) hm₁.symm rfl (by decide)
  exact ⟨m₁, hrun, m₃, hrun₃, hiff.mpr (Or.inl (by decide))⟩

/-- A division by zero (`SIGFPE`, 8) is reported as a fault of the judger. -/
theorem crash_sigfpe : ∃ m₁ m₃,
    (initResultBeforeFork (killedMem 8)).eval (succeeding (usageOf noRusage)) = .ok (0, m₁) ∧
    (analyzeAfterWait (killedMem 8)).eval (succeeding (usageOf noRusage)) = .ok (0, m₃) ∧
    (killedMem 8).ctxt.result.code = m₁.ctxt.result.code ∧
    m₃.ctxt.result.code = .se ∧ m₃.ctxt.result.code ∉ crashCodes :=
  ⟨_, _, initResultBeforeFork_eval (killedMem 8) rfl,
    analyzeAfterWait_eval (killedMem 8) (succeeding_answers _), rfl, by decide, by decide⟩

end YaojJudger
