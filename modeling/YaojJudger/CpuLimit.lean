/-
# `YaojJudger.CpuLimit` — what comes of a child that exceeds its CPU limit

`set_rlimit` installs the limit rounded up to seconds as the soft limit, and as
the hard limit the larger of that and 300 seconds.  Every second of CPU time
the kernel compares (`cpuCheck`), the hard limit first:

    limit           ignores SIGXCPU    killed by    verdict
    up to 299 s     no                 SIGXCPU      TLE
    up to 299 s     yes                SIGKILL      as for any SIGKILL
    above           -                  SIGKILL      as for any SIGKILL

and the judger takes a `SIGKILL` for a timeout only if the real time limit was
exceeded.
-/
import YaojJudger.Chain

namespace YaojJudger

open Posix

/-! ## Rounding up -/

/-- Truncation, for a number that is not negative. -/
theorem mkRat_tdiv {n : Int} (h : 0 ≤ n) :
    (mkRat n 1000).num.tdiv (mkRat n 1000).den = n / 1000 := by
  have hnum : 0 ≤ (mkRat n 1000).num := by
    rw [Rat.num_nonneg, Rat.mkRat_eq_div]
    positivity
  rw [Int.tdiv_eq_ediv_of_nonneg hnum, ← Rat.floor_def', Rat.mkRat_eq_div]
  exact_mod_cast Rat.floor_intCast_div_natCast n 1000

theorem mkRat_gt_iff (n : Int) : mkRat n 1000 > ((n / 1000 : Int) : ℚ) ↔ n % 1000 ≠ 0 := by
  rw [Rat.mkRat_eq_div, gt_iff_lt, lt_div_iff₀ (by norm_num)]
  norm_cast
  omega

theorem upperbound_mkRat {n : Int} (h : 0 ≤ n) :
    upperbound (mkRat n 1000) = Int32.ofInt ((n + 999) / 1000) := by
  rw [upperbound]
  simp only [mkRat_tdiv h, mkRat_gt_iff]
  split
  case isTrue hmod =>
      congr 1
      omega
  case isFalse hmod =>
      congr 1
      omega

/-- The CPU limit in seconds. -/
theorem cpuSeconds_toInt {c : Int32} (h : 0 < c) :
    (cpuSeconds c).toInt = (c.toInt + 999) / 1000 := by
  have hpos : 0 < c.toInt := Int32.lt_iff_toInt_lt.mp h
  have hlt := c.toInt_lt
  rw [cpuSeconds, upperbound_mkRat hpos.le, Int32.toInt_ofInt_of_le (by omega) (by omega)]

/-- An `int` that is not negative, as an `rlim_t`. -/
theorem toRlim_toNat {x : Int32} (h : 0 ≤ x.toInt) : ((toRlim x).toNat : Int) = x.toInt := by
  have hwide : x.toInt64.toBitVec.toInt = x.toInt := Int32.toInt_toInt64 x
  have hcond := BitVec.toInt_eq_toNat_cond x.toInt64.toBitVec
  have hnat : (toRlim x).toNat = x.toInt64.toBitVec.toNat := rfl
  have hlt := x.toInt64.toBitVec.isLt
  split at hcond <;> omega

/-! ## The kernel -/

/-- What the kernel does to a process that has used `n` seconds. -/
def cpuCheck (cur max : UInt64) (ignores : Bool) (n : Nat) : Option Nat :=
  if max.toNat ≤ n then some sigkill
  else if cur.toNat ≤ n ∧ ignores = false then some sigxcpu
  else none

/-- It is killed by `sig`: at the first check that does anything. -/
def KilledByCpu (cur max : UInt64) (ignores : Bool) (sig : Nat) : Prop :=
  ∃ n, cpuCheck cur max ignores n = some sig ∧ ∀ k < n, cpuCheck cur max ignores k = none

/-- The soft limit counts if it is below the hard one and not ignored. -/
theorem KilledByCpu.sig {cur max : UInt64} {ignores : Bool} {sig : Nat}
    (h : KilledByCpu cur max ignores sig) :
    sig = if cur.toNat < max.toNat ∧ ignores = false then sigxcpu else sigkill := by
  obtain ⟨n, hn, hbefore⟩ := h
  unfold cpuCheck at hn
  split at hn
  case isTrue hmax =>
      obtain rfl := Option.some.inj hn
      refine (if_neg fun hsoft => ?_).symm
      have hcheck := hbefore cur.toNat (by omega)
      rw [cpuCheck, if_neg (by omega), if_pos ⟨le_refl _, hsoft.2⟩] at hcheck
      cases hcheck
  case isFalse hmax =>
      split at hn
      case isTrue hcur =>
          obtain rfl := Option.some.inj hn
          exact (if_pos ⟨by omega, hcur.2⟩).symm
      case isFalse => cases hn

/-! ## The verdict -/

theorem mem_limitCalls_cpu {rctxt : RsclimCtxt} {cur max : UInt64}
    (he : (⟨.setrlimit .cpu cur max, true⟩ : JEvent) ∈ allSucceeded (limitCalls rctxt)) :
    0 < rctxt.cpuTime ∧ cur = toRlim (cpuSeconds rctxt.cpuTime) ∧
      max = if cpuTimeHLimit < cur then cur else cpuTimeHLimit := by
  have hother : ∀ {field : Int32} {type : Rlimit} {c h : UInt64}, type ≠ .cpu →
      (⟨.setrlimit .cpu cur max, true⟩ : JEvent) ∉ allSucceeded (limitCall field type c h) := by
    intro field type c h hne hmem
    rw [limitCall] at hmem
    split at hmem
    · simp [allSucceeded] at hmem
      exact hne hmem.1.symm
    · simp [allSucceeded] at hmem
  have happ : ∀ cs cs', allSucceeded (cs ++ cs') = allSucceeded cs ++ allSucceeded cs' :=
    fun cs cs' => List.filterMap_append
  simp only [limitCalls, happ, List.mem_append] at he
  rcases he with (((he | he) | he) | he) | he
  · rw [limitCall] at he
    split at he
    case isTrue hpos =>
      simp [allSucceeded] at he
      exact ⟨hpos, he.1, he.1 ▸ he.2⟩
    case isFalse => simp [allSucceeded] at he
  all_goals exact absurd he (hother (by decide))

section
variable {l l' : JLocal} {m m' : Mem} {rctxt : RsclimCtxt} {es : List JEvent} {cur max : UInt64}

/-- The pair that is installed, in seconds. -/
theorem cpu_limit_installed (h : Code.Runs (applyResourceLimitRsc rctxt) l m 0 l' m')
    (hlog : l'.log = l.log ++ es) (he : (⟨.setrlimit .cpu cur max, true⟩ : JEvent) ∈ es) :
    (cur.toNat : Int) = (rctxt.cpuTime.toInt + 999) / 1000 ∧
      max.toNat = if 300 < cur.toNat then cur.toNat else 300 := by
  obtain ⟨-, es', rfl, hlog'⟩ := (h.wp (guarded_applyResourceLimitRsc rctxt l m)).1 rfl
  obtain rfl := List.append_cancel_left (hlog.symm.trans hlog')
  obtain ⟨hpos, rfl, rfl⟩ := mem_limitCalls_cpu he
  have hsec := cpuSeconds_toInt hpos
  have hc : 0 < rctxt.cpuTime.toInt := Int32.lt_iff_toInt_lt.mp hpos
  have hhard : cpuTimeHLimit.toNat = 300 := rfl
  refine ⟨by rw [toRlim_toNat (by omega), hsec], ?_⟩
  simp only [UInt64.lt_iff_toNat_lt, hhard]
  split <;> rfl

/-- The verdict for a signal, when the result is there. -/
theorem analyzed_signal {ctxt : YjudgerCtxt} {sig : Nat} {core : Bool} (hsig : IsSignal sig)
    (hstatus : ctxt.status = killStatus sig core) :
    (analyzed ctxt).result.code =
      signalCode { ctxt with result := { ctxt.result with realMemory := realMemory ctxt.rusage } }
        sig := by
  have hsignaled : wifsignaled ctxt.status = true := by
    rw [hstatus, wifsignaled_killStatus hsig]
  have hterm : wtermsig ctxt.status = sig := by
    rw [hstatus, wtermsig_killStatus hsig]
  simp only [analyzed, hsignaled, if_true, hterm]
  rfl

/-- **Exceeding the CPU limit** is `TLE` exactly when the soft limit is below
300 seconds and not ignored, or the real time limit is exceeded as well. -/
theorem cpu_exceeded_tle_iff {l₁ l₁' : JLocal} {m₁ m₁' : Mem} {ignores core : Bool} {sig : Nat}
    {r : Int} (hlimit : Code.Runs (applyResourceLimitRsc m.ctxt.rctxt) l₁ m₁ 0 l₁' m₁')
    (hlog : l₁'.log = l₁.log ++ es) (he : (⟨.setrlimit .cpu cur max, true⟩ : JEvent) ∈ es)
    (hkill : KilledByCpu cur max ignores sig)
    (hstatus : m.ctxt.status = killStatus sig core)
    (hrun : Code.Runs analyzeAfterWait l m r l' m') :
    m'.ctxt.result.code = .tle ↔
      (m.ctxt.rctxt.cpuTime ≤ 299000 ∧ ignores = false) ∨ realTle m.ctxt = true ∨
        m.ctxt.result.code = .tle := by
  obtain ⟨-, -, rfl⟩ := runs_analyzeAfterWait.mp hrun
  obtain ⟨hcur, hmax⟩ := cpu_limit_installed hlimit hlog he
  have hms : m.ctxt.rctxt.cpuTime ≤ 299000 ↔ m.ctxt.rctxt.cpuTime.toInt ≤ 299000 :=
    Int32.le_iff_toInt_le
  have hsoft : cur.toNat < max.toNat ↔ m.ctxt.rctxt.cpuTime ≤ 299000 := by
    rw [hms, hmax]
    split <;> omega
  obtain rfl := hkill.sig
  simp only [hsoft] at hstatus
  split at hstatus
  case isTrue h =>
      rw [analyzed_signal (by decide) hstatus]
      exact iff_of_true rfl (Or.inl h)
  case isFalse h =>
      have hcode : (analyzed m.ctxt).result.code =
          if realTle m.ctxt then .tle else m.ctxt.result.code :=
        analyzed_signal (by decide) hstatus
      rw [hcode]
      cases realTle m.ctxt <;> simp [h]

end

/-! ## Two limits -/

/-- A result preset to `SE`, a CPU limit of `c` milliseconds and nothing else, a
reported CPU time, and a wait status. -/
def overMem (c cpuTime : Int32) (status : Nat) : Mem :=
  Mem.create { yjudgerCtxtCreate { blankResult.preset with cpuTime := cpuTime } noRusage with
    rctxt := { rsclimCtxtCreate with cpuTime := c }, status := status } 3

/-- The one call of `apply_resource_limit_rsc`. -/
theorem records_cpuOnly {c : Int32} (hc : 0 < c) (l : JLocal) (m : Mem) : ∃ cur max,
    Code.Records (applyResourceLimitRsc { rsclimCtxtCreate with cpuTime := c }) l m 0
      [⟨.setrlimit .cpu cur max, true⟩] m := by
  have hneg : ¬ (c < 0) := Int32.not_lt.mpr (Int32.le_of_lt hc)
  have hset : Code.Records (setRlimit .cpu (toRlim (cpuSeconds c)) cpuTimeHLimit) l m 0 _ m :=
    Code.records_call_bind (.setrlimit .cpu _ _ : Call) true trivial
      (Code.records_then rfl (Code.records_pure 0))
  have hzero : ¬ ((0 : Int32) > 0) := by decide
  exact ⟨_, _, Code.records_else (by simp [hneg, rsclimCtxtCreate]) (Code.records_then hc
    (hset.bind fun _ _ => Code.records_else (not_not.mpr rfl)
      (Code.records_else hzero (Code.records_else hzero (Code.records_else hzero
        (Code.records_else hzero (Code.records_pure 0)))))))⟩

/-- A child that exceeds a limit of one second, and heeds `SIGXCPU`. -/
theorem cpu_exceeded_one_second :
    (analyzed (overMem 1000 1001 (killStatus sigxcpu false)).ctxt).result.code = .tle ↔
      ((1000 : Int32) ≤ 299000 ∧ false = false) ∨
        realTle (overMem 1000 1001 (killStatus sigxcpu false)).ctxt = true ∨
        (overMem 1000 1001 (killStatus sigxcpu false)).ctxt.result.code = .tle := by
  obtain ⟨cur, max, l', hlimit, hlog⟩ := records_cpuOnly (c := 1000) (by decide)
    (.start (.inheritedBelow 4)) (overMem 1000 1001 (killStatus sigxcpu false))
  obtain ⟨hcur, hmax⟩ := cpu_limit_installed hlimit hlog List.mem_cons_self
  have hone : cur.toNat = 1 := by
    have hc : (1000 : Int32).toInt = 1000 := rfl
    rw [hc] at hcur
    omega
  rw [hone] at hmax
  have hkill : KilledByCpu cur max false sigxcpu := by
    refine ⟨1, ?_, fun k hk => ?_⟩
    · rw [cpuCheck, hone, hmax]
      rfl
    · obtain rfl : k = 0 := by omega
      rw [cpuCheck, hone, hmax]
      rfl
  exact cpu_exceeded_tle_iff (m := overMem 1000 1001 (killStatus sigxcpu false)) hlimit hlog
    List.mem_cons_self hkill rfl
    (runs_analyzeAfterWait.mpr ⟨rfl, rfl, rfl⟩ : Code.Runs _ (.start (.inheritedBelow 4)) _ _ _ _)

/-- With a limit of 300 seconds the child is killed by `SIGKILL`, and the judger
reports `SE`. -/
theorem cpu_exceeded_long : ∃ cur max l' es,
    Code.Runs (applyResourceLimitRsc (overMem 300000 300001 9).ctxt.rctxt)
        (.start (.inheritedBelow 4)) (overMem 300000 300001 9) 0 l' (overMem 300000 300001 9) ∧
      l'.log = es ∧ (⟨.setrlimit .cpu cur max, true⟩ : JEvent) ∈ es ∧
      KilledByCpu cur max false sigkill ∧ killStatus sigkill false = 9 ∧
      (overMem 300000 300001 9).ctxt.rctxt.cpuTime <
        (overMem 300000 300001 9).ctxt.result.cpuTime ∧
      ∃ l₂ m₂, Code.Runs analyzeAfterWait (.start (.inheritedBelow 4)) (overMem 300000 300001 9) 0
        l₂ m₂ ∧ m₂.ctxt.result.code = .se := by
  obtain ⟨cur, max, l', hlimit, hlog⟩ := records_cpuOnly (c := 300000) (by decide)
    (.start (.inheritedBelow 4)) (overMem 300000 300001 9)
  obtain ⟨hcur, hmax⟩ := cpu_limit_installed hlimit hlog List.mem_cons_self
  have hcur : cur.toNat = 300 := by
    have hc : (300000 : Int32).toInt = 300000 := rfl
    rw [hc] at hcur
    omega
  have hmax : max.toNat = 300 := by
    rw [hmax, hcur]
    rfl
  have hkill : KilledByCpu cur max false sigkill := by
    refine ⟨300, ?_, fun k hk => ?_⟩
    · rw [cpuCheck, hcur, hmax]
      rfl
    · rw [cpuCheck, hcur, hmax, if_neg (by omega), if_neg (by omega)]
  exact ⟨cur, max, l', _, hlimit, hlog, List.mem_cons_self, hkill, rfl, by decide, _, _,
    runs_analyzeAfterWait.mpr ⟨rfl, rfl, rfl⟩, rfl⟩

end YaojJudger
