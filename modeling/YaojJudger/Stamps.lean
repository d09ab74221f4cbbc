/-
# `YaojJudger.Stamps` — arithmetic on stamps, in `int`

`to_millisecond` narrows the milliseconds since the epoch to an `int`.  They have
needed more than 32 bits since 1970, so both operands of the difference in
`timer_after_wait` have wrapped already:

    exact       s                    e                    e - s
    narrowed    s - 2^32 * era s     e - 2^32 * era e     differs by a multiple of 2^32

Taken modulo `2 ^ 32` the difference is exact all the same (`realTime_exact`).
C does not take it so: where the difference of the two `int`s is not an `int`, the
behaviour is undefined.  `Strict` has the three pieces of code that add or subtract
stamps under that rule, and `defined_iff` says when they do what the others do.
-/
import YaojJudger.Verdict

namespace YaojJudger

open Posix

/-! ## Stamps -/

/-- The fields are as `gettimeofday` and `getrusage` deliver them. -/
def Timeval.Normal (tv : Timeval) : Prop := 0 ≤ tv.usec.toInt ∧ tv.usec.toInt < 1000000

instance (tv : Timeval) : Decidable tv.Normal := inferInstanceAs (Decidable (_ ∧ _))

/-- In microseconds. -/
def Timeval.micros (tv : Timeval) : Int := tv.sec.toInt * 1000000 + tv.usec.toInt

/-- In milliseconds, rounded down. -/
def Timeval.millis (tv : Timeval) : Int := tv.micros / 1000

section
variable {tv : Timeval}

theorem Timeval.millis_eq (tv : Timeval) :
    tv.millis = tv.sec.toInt * 1000 + tv.usec.toInt / 1000 := by
  rw [Timeval.millis, Timeval.micros]
  omega

/-- The `int` that `to_millisecond` makes of a stamp: the exact number, wrapped. -/
theorem toMillisecond_toInt (h : tv.Normal) :
    (toMillisecond tv).toInt = tv.millis.bmod (2 ^ 32) := by
  have hthousand : (1000 : Int64).toInt = 1000 := rfl
  have hdvd : 2 ^ 32 ∣ 2 ^ 64 := by decide
  have husec : (tv.usec / 1000).toInt = tv.usec.toInt / 1000 := by
    obtain ⟨h₀, h₁⟩ := h
    rw [Int64.toInt_div, hthousand, Int.tdiv_eq_ediv_of_nonneg h₀]
    exact Int.bmod_eq_of_le (by omega) (by omega)
  rw [toMillisecond, Int64.toInt_toInt32, Int64.toInt_add, Int64.toInt_mul, husec, hthousand,
    Int.bmod_bmod_of_dvd hdvd, ← Int.bmod_add_bmod, Int.bmod_bmod_of_dvd hdvd, Int.bmod_add_bmod,
    tv.millis_eq]

/-- Between two stamps the rounding is off by less than a millisecond. -/
theorem millis_sub_micros (start finish : Timeval) :
    |1000 * (finish.millis - start.millis) - (finish.micros - start.micros)| < 1000 := by
  rw [abs_lt, Timeval.millis, Timeval.millis]
  omega

end

/-! ## The time reported -/

section
variable {start finish : Timeval}

/-- Narrowing loses nothing of a difference that is an `int`. -/
theorem toMillisecond_sub (hs : start.Normal) (hf : finish.Normal)
    (hle : start.micros ≤ finish.micros) (hlt : finish.millis - start.millis < 2 ^ 31) :
    (toMillisecond finish - toMillisecond start).toInt = finish.millis - start.millis := by
  have hms : start.millis ≤ finish.millis := Int.ediv_le_ediv (by decide) hle
  rw [Int32.toInt_sub, toMillisecond_toInt hs, toMillisecond_toInt hf, Int.bmod_sub_bmod,
    Int.sub_bmod_bmod]
  exact Int.bmod_eq_of_le (by omega) (by omega)

variable {h h' : (c : Call) → Option (Ret c)}

theorem timerAfterFork_eval (m : Mem) {now : Timeval} (hnow : h (.ask .gettimeofday) = some now) :
    (timerAfterFork m).eval h = .ok (0, { m with start := now }) := by
  simp only [timerAfterFork, ask, Code.bind_apply, Code.call_apply, Prog.call_bind,
    Prog.eval_call hnow]
  rfl

/-- **The time reported is exact to the millisecond**, whatever happens between the
two readings as long as the first is kept. -/
theorem realTime_exact (hs : start.Normal) (hf : finish.Normal)
    (hle : start.micros ≤ finish.micros) (hlt : finish.millis - start.millis < 2 ^ 31)
    (hstart : h (.ask .gettimeofday) = some start)
    (hfinish : h' (.ask .gettimeofday) = some finish) (m : Mem) :
    ∃ m₁, (timerAfterFork m).eval h = .ok (0, m₁) ∧
      ∀ m₂ : Mem, m₂.start = m₁.start →
        ∃ m₃, (timerAfterWait m₂).eval h' = .ok (0, m₃) ∧
          m₃.ctxt.result.realTime.toInt = finish.millis - start.millis ∧
          0 ≤ m₃.ctxt.result.realTime.toInt ∧
          |1000 * m₃.ctxt.result.realTime.toInt - (finish.micros - start.micros)| < 1000 := by
  refine ⟨_, timerAfterFork_eval m hstart, fun m₂ hkept => ?_⟩
  refine ⟨_, timerAfterWait_eval m₂ hfinish, ?_⟩
  have hexact : (elapsed m₂ finish).toInt = finish.millis - start.millis := by
    rw [elapsed, hkept]
    exact toMillisecond_sub hs hf hle hlt
  have hms : start.millis ≤ finish.millis := Int.ediv_le_ediv (by decide) hle
  refine ⟨hexact, ?_, ?_⟩
  · show 0 ≤ (elapsed m₂ finish).toInt
    omega
  · show |1000 * (elapsed m₂ finish).toInt - _| < 1000
    rw [hexact]
    exact millis_sub_micros start finish

/-- A table whose answers are these. -/
def timesOf (now : Timeval) (ru : Rusage) : (c : Call) → Option (Ret c) :=
  succeeding fun q => match q with
    | .gettimeofday => now
    | .getrusage => some ru
    | q => q.failing

/-- The last millisecond of an era of the clock, in March 2025. -/
def lastMilli : Timeval := ⟨1741609238, 527000⟩

/-- 473 ms later. -/
def afterTurn : Timeval := ⟨1741609239, 0⟩

/-- A second before. -/
def beforeTurn : Timeval := ⟨1741609237, 527000⟩

/-- Half a second, over a turn of the 32-bit clock. -/
theorem realTime_exact_turn : ∃ m₁,
    (timerAfterFork (exitedMem 0)).eval (timesOf lastMilli noRusage) = .ok (0, m₁) ∧
      ∀ m₂ : Mem, m₂.start = m₁.start →
        ∃ m₃, (timerAfterWait m₂).eval (timesOf afterTurn noRusage) = .ok (0, m₃) ∧
          m₃.ctxt.result.realTime.toInt = afterTurn.millis - lastMilli.millis ∧
          0 ≤ m₃.ctxt.result.realTime.toInt ∧
          |1000 * m₃.ctxt.result.realTime.toInt - (afterTurn.micros - lastMilli.micros)| < 1000 :=
  realTime_exact (by decide) (by decide) (by decide) (by decide) rfl rfl (exitedMem 0)

end

/-! ## The same under the rule that signed overflow is undefined -/

/-- What an `int` can hold. -/
def IsInt (x : Int) : Prop := -2 ^ 31 ≤ x ∧ x < 2 ^ 31

instance (x : Int) : Decidable (IsInt x) := inferInstanceAs (Decidable (_ ∧ _))

namespace Strict

/-- An operation on `int`s with the exact result `exact`; `wrapped` is its low 32 bits. -/
def arith (exact : Int) (wrapped : Int32) : Prog Call Ret Int32 :=
  if IsInt exact then .ret wrapped else .call .fault fun r => nomatch r

def sub (x y : Int32) : Prog Call Ret Int32 := arith (x.toInt - y.toInt) (x - y)

def add (x y : Int32) : Prog Call Ret Int32 := arith (x.toInt + y.toInt) (x + y)

/-- Arithmetic does not touch the memory. -/
def code (p : Prog Call Ret Int32) : Code Int32 := fun m => p >>= fun x => .ret (x, m)

def timerAfterWait : Code Int := do
  let now ← ask .gettimeofday
  Code.modify fun m => { m with finish := now }
  let m ← Code.get
  let realTime ← code (sub (toMillisecond m.finish) (toMillisecond m.start))
  modifyResult fun result => { result with realTime := realTime }
  return 0

def getUsageAfterWait : Code Int := do
  match ← ask .getrusage with
  | none => yreturn eGetrusage
  | some r2 =>
      modifyCtxt fun ctxt => { ctxt with rusage := r2 }
      let cpuTime ← code (add (toMillisecond r2.utime) (toMillisecond r2.stime))
      modifyResult fun result => { result with cpuTime := cpuTime }
      return 0

def timeoutKiller (ctxt : TkillCtxt) : Prog Call Ret Unit := do
  if ← Prog.perform .pthreadDetach then
    let time ← add ctxt.time 1000
    if ← Prog.perform (.sleep (time / 1000).toUInt32) then
      let _ ← Prog.perform (.killpg ctxt.pid.toNat)
      return ()
    else
      let _ ← Prog.perform (.killpg ctxt.pid.toNat)
      return ()
  else
    let _ ← Prog.perform (.killpg ctxt.pid.toNat)
    return ()

theorem arith_eval {h : (c : Call) → Option (Ret c)} (exact : Int) (wrapped : Int32) :
    (arith exact wrapped).eval h = if IsInt exact then .ok wrapped else .error none := by
  rw [arith]
  split
  · rfl
  · have hfault : h .fault = none := Option.eq_none_iff_forall_ne_some.mpr fun r => r.elim
    simp only [Prog.eval, hfault]

section
variable {h : (c : Call) → Option (Ret c)}

theorem timerAfterWait_eval (m : Mem) {now : Timeval} (hnow : h (.ask .gettimeofday) = some now) :
    (timerAfterWait m).eval h =
      if IsInt ((toMillisecond now).toInt - (toMillisecond m.start).toInt) then
        (YaojJudger.timerAfterWait m).eval h
      else .error none := by
  rw [YaojJudger.timerAfterWait_eval m hnow]
  simp only [timerAfterWait, ask, Code.bind_apply, Code.call_apply, Prog.call_bind,
    Prog.eval_call hnow, Prog.ret_bind, Code.modify_apply, Code.get_apply, code, sub,
    Prog.eval_bind, arith_eval]
  split <;> rfl

theorem getUsageAfterWait_eval (m : Mem) {ru : Rusage}
    (hru : h (.ask .getrusage) = some (some ru)) :
    (getUsageAfterWait m).eval h =
      if IsInt ((toMillisecond ru.utime).toInt + (toMillisecond ru.stime).toInt) then
        (YaojJudger.getUsageAfterWait m).eval h
      else .error none := by
  rw [YaojJudger.getUsageAfterWait_eval m hru]
  simp only [getUsageAfterWait, ask, Code.bind_apply, Code.call_apply, Prog.call_bind,
    Prog.eval_call hru, Prog.ret_bind, modifyCtxt, Code.modify_apply, code, add,
    Prog.eval_bind, arith_eval]
  split <;> rfl

theorem timeoutKiller_eval (ctxt : TkillCtxt) (hdetach : h .pthreadDetach = some true) :
    (timeoutKiller ctxt).eval h =
      if IsInt (ctxt.time.toInt + 1000) then (YaojJudger.timeoutKiller ctxt).eval h
      else .error none := by
  have hthousand : (1000 : Int32).toInt = 1000 := rfl
  simp only [timeoutKiller, YaojJudger.timeoutKiller, Prog.perform, Prog.call_bind,
    Prog.eval_call hdetach, Prog.ret_bind, if_true, Prog.eval_bind, add, arith_eval, hthousand]
  split <;> rfl

end

end Strict

/-- The three pieces are defined on these data, and do what is modelled: the stamps
`start` and `finish`, the usage `ru` of the child and the limit `limit`. -/
structure Defined (start finish : Timeval) (ru : Rusage) (limit : Int32) : Prop where
  timer : ∀ (h : (c : Call) → Option (Ret c)) (m : Mem), m.start = start →
    h (.ask .gettimeofday) = some finish →
    (Strict.timerAfterWait m).eval h = (timerAfterWait m).eval h
  usage : ∀ (h : (c : Call) → Option (Ret c)) (m : Mem), h (.ask .getrusage) = some (some ru) →
    (Strict.getUsageAfterWait m).eval h = (getUsageAfterWait m).eval h
  killer : ∀ (h : (c : Call) → Option (Ret c)) (ctxt : TkillCtxt), ctxt.time = limit →
    (Strict.timeoutKiller ctxt).eval h = (timeoutKiller ctxt).eval h

/-- The data of a run: it is shorter than `2 ^ 31` ms, and so is the time its
children used; the limit is set. -/
structure BriefRun (start finish : Timeval) (ru : Rusage) (limit : Int32) : Prop where
  startNormal : start.Normal
  finishNormal : finish.Normal
  inOrder : start.micros ≤ finish.micros
  short : finish.micros - start.micros < 2 ^ 31 * 1000
  utime : ru.utime.Normal ∧ 0 ≤ ru.utime.micros
  stime : ru.stime.Normal ∧ 0 ≤ ru.stime.micros
  cpu : ru.utime.micros + ru.stime.micros < 2 ^ 31 * 1000
  limited : 0 < limit.toInt

/-- Between two stamps of one era the narrowed clock does not wrap. -/
def Timeval.era (tv : Timeval) : Int := (tv.millis + 2 ^ 31) / 2 ^ 32

/-! ## When an operation overflows -/

section
variable {start finish : Timeval} {ru : Rusage} {limit : Int32}

theorem bmod_eq_sub_era (x : Int) : x.bmod (2 ^ 32) = x - 2 ^ 32 * ((x + 2 ^ 31) / 2 ^ 32) := by
  rw [Int.bmod_def]
  split <;> omega

theorem isInt_sub_iff (h : BriefRun start finish ru limit) :
    IsInt ((toMillisecond finish).toInt - (toMillisecond start).toInt) ↔
      (start.era = finish.era ↔ finish.millis - start.millis < 2 ^ 31) := by
  obtain ⟨hs, hf, hle, hlt, -⟩ := h
  rw [toMillisecond_toInt hs, toMillisecond_toInt hf, bmod_eq_sub_era, bmod_eq_sub_era, IsInt,
    Timeval.era, Timeval.era]
  have hlow : start.millis ≤ finish.millis := Int.ediv_le_ediv (by decide) hle
  have hhigh : finish.millis - start.millis ≤ 2 ^ 31 := by
    rw [Timeval.millis, Timeval.millis]
    omega
  omega

theorem isInt_add (h : BriefRun start finish ru limit) :
    IsInt ((toMillisecond ru.utime).toInt + (toMillisecond ru.stime).toInt) := by
  obtain ⟨hu, hu₀⟩ := h.utime
  obtain ⟨hs, hs₀⟩ := h.stime
  have hcpu := h.cpu
  rw [toMillisecond_toInt hu, toMillisecond_toInt hs, bmod_eq_sub_era, bmod_eq_sub_era, IsInt,
    Timeval.millis, Timeval.millis]
  omega

theorem isInt_limit_iff (h : 0 < limit.toInt) :
    IsInt (limit.toInt + 1000) ↔ limit.toInt < 2 ^ 31 - 1000 := by
  rw [IsInt]
  omega

end

/-! ## When the pieces are defined -/

section
variable {start finish : Timeval} {ru : Rusage} {limit : Int32}

/-- Where an operation overflows the strict code does not get to its end. -/
theorem isInt_of_defined {α : Type} {x : Int} {a : α} {e : Except (Option Int) α}
    (h : (if IsInt x then e else .error none) = .ok a) : IsInt x := by
  by_contra hx
  rw [if_neg hx] at h
  cases h

theorem defined_iff_isInt : Defined start finish ru limit ↔
    IsInt ((toMillisecond finish).toInt - (toMillisecond start).toInt) ∧
      IsInt ((toMillisecond ru.utime).toInt + (toMillisecond ru.stime).toInt) ∧
      IsInt (limit.toInt + 1000) := by
  constructor
  · rintro ⟨htimer, husage, hkiller⟩
    refine ⟨?_, ?_, ?_⟩
    · have h := htimer (timesOf finish ru) { exitedMem 0 with start := start } rfl rfl
      rw [Strict.timerAfterWait_eval _ rfl, timerAfterWait_eval _ rfl] at h
      exact isInt_of_defined h
    · have h := husage (timesOf finish ru) (exitedMem 0) rfl
      rw [Strict.getUsageAfterWait_eval _ rfl, getUsageAfterWait_eval _ rfl] at h
      exact isInt_of_defined h
    · have h := hkiller (timesOf finish ru) ⟨0, limit⟩ rfl
      rw [Strict.timeoutKiller_eval _ rfl] at h
      exact isInt_of_defined (h.trans rfl)
  · rintro ⟨hsub, hadd, hlimit⟩
    refine ⟨fun h m hstart hnow => ?_, fun h m hru => ?_, fun h ctxt htime => ?_⟩
    · subst hstart
      rw [Strict.timerAfterWait_eval m hnow, if_pos hsub]
    · rw [Strict.getUsageAfterWait_eval m hru, if_pos hadd]
    · subst htime
      cases hdetach : h .pthreadDetach with
      | none =>
          simp only [Strict.timeoutKiller, timeoutKiller, Prog.perform, Prog.call_bind, Prog.eval,
            hdetach]
      | some detached =>
          cases detached with
          | true => rw [Strict.timeoutKiller_eval ctxt hdetach, if_pos hlimit]
          | false =>
              simp only [Strict.timeoutKiller, timeoutKiller, Prog.perform, Prog.call_bind,
                Prog.eval_call hdetach]
              rfl

/-- **When the arithmetic on stamps does not overflow.**  The sum of the times used
never does. -/
theorem defined_iff (h : BriefRun start finish ru limit) :
    Defined start finish ru limit ↔
      (start.era = finish.era ↔ finish.millis - start.millis < 2 ^ 31) ∧
        limit.toInt < 2 ^ 31 - 1000 := by
  rw [defined_iff_isInt, isInt_sub_iff h, isInt_limit_iff h.limited]
  exact ⟨fun ⟨hsub, _, hlimit⟩ => ⟨hsub, hlimit⟩, fun ⟨hsub, hlimit⟩ => ⟨hsub, isInt_add h, hlimit⟩⟩

end

theorem briefRun_of {start finish : Timeval} {limit : Int32} (hs : start.Normal)
    (hf : finish.Normal) (hle : start.micros ≤ finish.micros)
    (hlt : finish.micros - start.micros < 2 ^ 31 * 1000) (hlimit : 0 < limit.toInt) :
    BriefRun start finish noRusage limit :=
  ⟨hs, hf, hle, hlt, by decide, by decide, by decide, hlimit⟩

/-- A run of a second within an era, with a limit of two. -/
theorem defined_second : BriefRun beforeTurn lastMilli noRusage 2000 ∧
    (Defined beforeTurn lastMilli noRusage 2000 ↔
      (beforeTurn.era = lastMilli.era ↔ lastMilli.millis - beforeTurn.millis < 2 ^ 31) ∧
        (2000 : Int32).toInt < 2 ^ 31 - 1000) := by
  have h : BriefRun beforeTurn lastMilli noRusage 2000 :=
    briefRun_of (by decide) (by decide) (by decide) (by decide) (by decide)
  exact ⟨h, defined_iff h⟩

/-- A run of half a second that the turn falls into overflows, and so does any run
with the largest limit. -/
theorem undefined_at_turn :
    (BriefRun lastMilli afterTurn noRusage 2000 ∧ ¬ Defined lastMilli afterTurn noRusage 2000) ∧
      BriefRun beforeTurn lastMilli noRusage 2147483647 ∧
        ¬ Defined beforeTurn lastMilli noRusage 2147483647 := by
  refine ⟨⟨briefRun_of (by decide) (by decide) (by decide) (by decide) (by decide), fun h => ?_⟩,
    briefRun_of (by decide) (by decide) (by decide) (by decide) (by decide), fun h => ?_⟩
  · exact absurd (defined_iff_isInt.mp h).1 (by decide)
  · exact absurd (defined_iff_isInt.mp h).2.2 (by decide)

end YaojJudger
