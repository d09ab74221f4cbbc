/-
# `YaojJudger.Helper` — contexts, and the limits from the command line

`helper.c` and the option handling of `cli/main.c`.

A context is created with every limit 0 and then changed by one
`yjudger_set_limit` call for each option given, the group options `-t` and
`-m` before the detailed ones, so that a detailed option overrides its group.
What a field should hold at the end is `governing`: the argument of the
detailed option, else of the group, else 0.

Memory and output arguments are given in megabytes and multiplied by `MB` in
`int`.  `limits_exact_iff` says when that is the exact product: as long as each
argument that governs a field is below 2048.
-/
import YaojJudger.Hook

namespace YaojJudger

open Posix

/-! ## Creating a context -/

def rsclimCtxtCreate : RsclimCtxt where
  realTime := 0
  cpuTime := 0
  virtualMemory := 0
  actualMemory := 0
  stackMemory := 0
  outputSize := 0
  fileno := 0

def runnerCtxtCreate : RunnerCtxt := { argv := [], env := [] }

def policyCtxtCreate : PolicyCtxt where
  isBuiltin := false
  dirname := none
  policy := none
  content := none
  prog := []

/-- `result` and `rusage` are what the allocated memory holds.  The status is
`-1`, as its 32 bits. -/
def yjudgerCtxtCreate (result : YjudgerResult) (rusage : Rusage) : YjudgerCtxt where
  pself := -1
  pchild := -1
  status := 2 ^ 32 - 1
  rusage := rusage
  result := result
  pctxt := policyCtxtCreate
  rctxt := rsclimCtxtCreate
  ectxt := runnerCtxtCreate
  hctxt := hookCtxtCreate
  tid := 0

/-- The globals before a judgement. -/
def Mem.create (ctxt : YjudgerCtxt) (logFd : Nat) : Mem where
  ctxt := ctxt
  yerrno := 0
  start := ⟨0, 0⟩
  finish := ⟨0, 0⟩
  tid := 0
  logFd := logFd

/-- A usage and a result of zeros, as fresh memory may hold. -/
def noRusage : Rusage := { utime := ⟨0, 0⟩, stime := ⟨0, 0⟩, maxrss := 0 }

def blankResult : YjudgerResult :=
  { code := .ok, signal := 0, exitCode := 0, realTime := 0, cpuTime := 0, realMemory := 0 }

/-! ## `yjudger_set_limit` -/

/-- `enum rsclim_type`. -/
inductive RsclimType where
  | realTime | cpuTime | time | virMem | virtualMemory | actMem | actualMemory
  | stkMem | stackMemory | out | outputSize | mem | memory | fileno
  deriving DecidableEq, Repr

def RsclimType.toNat : RsclimType → Nat
  | .realTime => 0 | .cpuTime => 1 | .time => 2 | .virMem => 3 | .virtualMemory => 4
  | .actMem => 5 | .actualMemory => 6 | .stkMem => 7 | .stackMemory => 8 | .out => 9
  | .outputSize => 10 | .mem => 11 | .memory => 12 | .fileno => 13

/-- The constant an `int` equals, if it equals one. -/
def RsclimType.ofInt : Int → Option RsclimType
  | 0 => some .realTime | 1 => some .cpuTime | 2 => some .time | 3 => some .virMem
  | 4 => some .virtualMemory | 5 => some .actMem | 6 => some .actualMemory | 7 => some .stkMem
  | 8 => some .stackMemory | 9 => some .out | 10 => some .outputSize | 11 => some .mem
  | 12 => some .memory | 13 => some .fileno
  | _ => none

@[simp] theorem RsclimType.ofInt_toNat (type : RsclimType) :
    RsclimType.ofInt type.toNat = some type := by
  cases type <;> rfl

/-- The cases of the `switch`. -/
def RsclimCtxt.limit (rctxt : RsclimCtxt) (lim : Int32) : RsclimType → RsclimCtxt
  | .realTime => { rctxt with realTime := lim }
  | .cpuTime => { rctxt with cpuTime := lim }
  | .time => { rctxt with realTime := lim, cpuTime := lim }
  | .virMem | .virtualMemory => { rctxt with virtualMemory := lim }
  | .actMem | .actualMemory => { rctxt with actualMemory := lim }
  | .stkMem | .stackMemory => { rctxt with stackMemory := lim }
  | .out | .outputSize => { rctxt with outputSize := lim }
  | .mem | .memory =>
      { rctxt with virtualMemory := lim, actualMemory := lim, stackMemory := lim }
  | .fileno => { rctxt with fileno := lim }

def yjudgerSetLimit (type : Int) (lim : Int32) : Code Int := do
  match RsclimType.ofInt type with
  | some type =>
      modifyCtxt fun ctxt => { ctxt with rctxt := ctxt.rctxt.limit lim type }
      return 0
  | none => yerr eHelperInvalidLim

/-! ## The options -/

/-- The limit options of `struct gengetopt_args_info`: the argument where the
option is given. -/
structure ArgsInfo where
  timeout : Option Int32
  realtime : Option Int32
  cputime : Option Int32
  memory : Option Int32
  virtualMemory : Option Int32
  realMemory : Option Int32
  stackMemory : Option Int32
  outputSize : Option Int32
  fileno : Option Int32
  deriving DecidableEq, Repr

/-- `if (…_given) yjudger_set_limit(ctxt, type, …_arg * unit);` -/
def setIfGiven (type : RsclimType) (unit : Int32) : Option Int32 → Code Unit
  | some arg => do
      let _ ← yjudgerSetLimit type.toNat (arg * unit)
      return ()
  | none => return ()

/-- The limits as `main` sets them. -/
def mainLimits (args : ArgsInfo) : Code Unit := do
  setIfGiven .time 1 args.timeout
  setIfGiven .cpuTime 1 args.cputime
  setIfGiven .realTime 1 args.realtime
  setIfGiven .mem mb args.memory
  setIfGiven .virMem mb args.virtualMemory
  setIfGiven .actMem mb args.realMemory
  setIfGiven .stkMem mb args.stackMemory
  setIfGiven .out mb args.outputSize
  setIfGiven .fileno 1 args.fileno

/-! ## What the fields end up as -/

/-- The argument that governs a field: the detailed option's, else the group's. -/
def governor (detailed group : Option Int32) : Option Int32 := detailed.or group

/-- The number a field should hold, before it is scaled; 0 when no option governs it. -/
def governing (detailed group : Option Int32) : Int :=
  match governor detailed group with
  | some arg => arg.toInt
  | none => 0

/-- The number the code puts there. -/
def stored (unit : Int32) (detailed group : Option Int32) : Int32 :=
  match governor detailed group with
  | some arg => arg * unit
  | none => 0

/-- The effect of one `if`. -/
theorem setIfGiven_apply (type : RsclimType) (unit : Int32) (arg : Option Int32) (m : Mem) :
    setIfGiven type unit arg m = .ret ((),
      { m with ctxt := { m.ctxt with
          rctxt := arg.elim m.ctxt.rctxt fun a => m.ctxt.rctxt.limit (a * unit) type } }) := by
  cases arg with
  | none => rfl
  | some a =>
      simp only [setIfGiven, yjudgerSetLimit, RsclimType.ofInt_toNat]
      rfl

/-- The limits `main` leaves: every field holds what its options store in it. -/
theorem mainLimits_apply (args : ArgsInfo) (m : Mem) (hm : m.ctxt.rctxt = rsclimCtxtCreate) :
    mainLimits args m = .ret ((), { m with ctxt := { m.ctxt with rctxt :=
      { realTime := stored 1 args.realtime args.timeout
        cpuTime := stored 1 args.cputime args.timeout
        virtualMemory := stored mb args.virtualMemory args.memory
        actualMemory := stored mb args.realMemory args.memory
        stackMemory := stored mb args.stackMemory args.memory
        outputSize := stored mb args.outputSize none
        fileno := stored 1 args.fileno none } } }) := by
  obtain ⟨t, r, c, me, v, a, s, o, f⟩ := args
  simp only [mainLimits, Code.bind_apply, setIfGiven_apply, Prog.ret_bind, hm]
  congr 5
  cases t <;> cases r <;> cases c <;> cases me <;> cases v <;> cases a <;> cases s <;> cases o <;>
    cases f <;> rfl

/-! ## When that is the exact product -/

/-- A field holds the exact product, and 0 only if nothing, or 0, governs it. -/
structure FieldExact (field : Int32) (unit : Int) (detailed group : Option Int32) : Prop where
  eq : field.toInt = governing detailed group * unit
  unlimited : field = rscUnlimited → governing detailed group = 0

/-- Every field does. -/
structure LimitsExact (args : ArgsInfo) (rctxt : RsclimCtxt) : Prop where
  realTime : FieldExact rctxt.realTime 1 args.realtime args.timeout
  cpuTime : FieldExact rctxt.cpuTime 1 args.cputime args.timeout
  virtualMemory : FieldExact rctxt.virtualMemory 1048576 args.virtualMemory args.memory
  actualMemory : FieldExact rctxt.actualMemory 1048576 args.realMemory args.memory
  stackMemory : FieldExact rctxt.stackMemory 1048576 args.stackMemory args.memory
  outputSize : FieldExact rctxt.outputSize 1048576 args.outputSize none
  fileno : FieldExact rctxt.fileno 1 args.fileno none

/-- The arguments given. -/
def ArgsInfo.given (args : ArgsInfo) : List Int32 :=
  [args.timeout, args.realtime, args.cputime, args.memory, args.virtualMemory, args.realMemory,
    args.stackMemory, args.outputSize, args.fileno].reduceOption

/-- The arguments that govern the fields measured in bytes. -/
def ArgsInfo.sizes (args : ArgsInfo) : List Int32 :=
  [governor args.virtualMemory args.memory, governor args.realMemory args.memory,
    governor args.stackMemory args.memory, governor args.outputSize none].reduceOption

theorem mem_given {args : ArgsInfo} {arg : Int32} (h : arg ∈ args.sizes) : arg ∈ args.given := by
  have hor : ∀ {d g : Option Int32}, governor d g = some arg → d = some arg ∨ g = some arg := by
    intro d g hdg
    cases d with
    | some x => exact Or.inl hdg
    | none => exact Or.inr hdg
  simp only [ArgsInfo.sizes, List.reduceOption_mem_iff, List.mem_cons, List.not_mem_nil, or_false]
    at h
  simp only [ArgsInfo.given, List.reduceOption_mem_iff, List.mem_cons, List.not_mem_nil, or_false]
  rcases h with h | h | h | h
  · rcases hor h.symm with h | h <;> simp [h]
  · rcases hor h.symm with h | h <;> simp [h]
  · rcases hor h.symm with h | h <;> simp [h]
  · rcases hor h.symm with h | h
    · simp [h]
    · cases h

/-- A field that is not scaled is exact. -/
theorem fieldExact_one (detailed group : Option Int32) :
    FieldExact (stored 1 detailed group) 1 detailed group := by
  have heq : (stored 1 detailed group).toInt = governing detailed group := by
    unfold stored governing
    cases governor detailed group with
    | none => rfl
    | some arg => simp
  exact ⟨by rw [heq, Int.mul_one], fun h => by rw [← heq, h]; rfl⟩

/-- A product below `2 ^ 31` is kept by `int`, and no other one is. -/
theorem mul_mb_toInt_iff {arg : Int32} (h₀ : 0 ≤ arg.toInt) :
    (arg * mb).toInt = arg.toInt * 1048576 ↔ arg.toInt < 2048 := by
  have hmb : mb.toInt = 1048576 := rfl
  have hlt := arg.toInt_lt
  rw [Int32.toInt_mul, hmb]
  constructor
  · intro h
    have := (Int.bmod_lt (x := arg.toInt * 1048576) (m := 2 ^ 32) (by decide))
    omega
  · intro h
    exact Int.bmod_eq_of_le (by omega) (by omega)

theorem fieldExact_mb_iff {detailed group : Option Int32}
    (h₀ : ∀ arg ∈ governor detailed group, 0 ≤ arg.toInt) :
    FieldExact (stored mb detailed group) 1048576 detailed group ↔
      ∀ arg ∈ governor detailed group, arg.toInt < 2048 := by
  cases hg : governor detailed group with
  | none =>
      refine ⟨fun _ arg h => absurd h (Option.not_mem_none arg), fun _ => ⟨?_, fun _ => ?_⟩⟩ <;>
        simp [stored, governing, hg]
  | some arg =>
      have hiff := mul_mb_toInt_iff (h₀ arg hg)
      constructor
      · rintro ⟨h, -⟩ arg' ⟨⟩
        exact hiff.mp (by simpa [stored, governing, hg] using h)
      · intro h
        have heq := hiff.mpr (h arg rfl)
        refine ⟨by simpa [stored, governing, hg] using heq, fun hz => ?_⟩
        simp only [stored, hg] at hz
        simp only [governing, hg]
        have : (arg * mb).toInt = 0 := by rw [hz]; rfl
        omega

/-- **The command line's limits** are the exact ones if and only if every argument
that governs a size is below 2048. -/
theorem limits_exact_iff (args : ArgsInfo) (result : YjudgerResult) (rusage : Rusage) (logFd : Nat)
    (h₀ : ∀ arg ∈ args.given, 0 ≤ arg.toInt) :
    ∃ m', mainLimits args (Mem.create (yjudgerCtxtCreate result rusage) logFd) = .ret ((), m') ∧
      (LimitsExact args m'.ctxt.rctxt ↔ ∀ arg ∈ args.sizes, arg.toInt < 2048) := by
  refine ⟨_, mainLimits_apply args _ rfl, ?_⟩
  have hpos : ∀ g ∈ [governor args.virtualMemory args.memory, governor args.realMemory args.memory,
      governor args.stackMemory args.memory, governor args.outputSize none],
      ∀ arg ∈ g, 0 ≤ arg.toInt := by
    intro g hg arg harg
    exact h₀ arg (mem_given (List.reduceOption_mem_iff.mpr (Option.mem_def.mp harg ▸ hg)))
  simp only [List.forall_mem_cons] at hpos
  obtain ⟨hv, ha, hs, ho, -⟩ := hpos
  have hsizes : (∀ arg ∈ args.sizes, arg.toInt < 2048) ↔
      (∀ arg ∈ governor args.virtualMemory args.memory, arg.toInt < 2048) ∧
      (∀ arg ∈ governor args.realMemory args.memory, arg.toInt < 2048) ∧
      (∀ arg ∈ governor args.stackMemory args.memory, arg.toInt < 2048) ∧
      (∀ arg ∈ governor args.outputSize none, arg.toInt < 2048) := by
    simp only [ArgsInfo.sizes, List.reduceOption_mem_iff, List.mem_cons, List.not_mem_nil, or_false,
      Option.mem_def]
    grind
  rw [hsizes, ← fieldExact_mb_iff hv, ← fieldExact_mb_iff ha, ← fieldExact_mb_iff hs,
    ← fieldExact_mb_iff ho]
  constructor
  · intro h
    exact ⟨h.virtualMemory, h.actualMemory, h.stackMemory, h.outputSize⟩
  · rintro ⟨hv, ha, hs, ho⟩
    exact ⟨fieldExact_one _ _, fieldExact_one _ _, hv, ha, hs, ho, fieldExact_one _ _⟩

/-- No option. -/
def ArgsInfo.none : ArgsInfo :=
  ⟨.none, .none, .none, .none, .none, .none, .none, .none, .none⟩

/-- With `-t 1000 -m 2047 --stack-memory 8` every limit is exact. -/
theorem limits_exact_below : ∃ m',
    mainLimits { ArgsInfo.none with
        timeout := some 1000, memory := some 2047, stackMemory := some 8 }
      (Mem.create (yjudgerCtxtCreate blankResult noRusage) 3) = .ret ((), m') ∧
    LimitsExact { ArgsInfo.none with
      timeout := some 1000, memory := some 2047, stackMemory := some 8 } m'.ctxt.rctxt := by
  have h₀ : ∀ arg ∈ ({ ArgsInfo.none with
      timeout := some 1000, memory := some 2047, stackMemory := some 8 } : ArgsInfo).given,
      0 ≤ arg.toInt := by
    intro arg harg
    change arg ∈ [1000, 2047, 8] at harg
    simp only [List.mem_cons, List.not_mem_nil, or_false] at harg
    rcases harg with rfl | rfl | rfl <;> decide
  obtain ⟨m', hrun, hiff⟩ := limits_exact_iff _ blankResult noRusage 3 h₀
  refine ⟨m', hrun, hiff.mpr ?_⟩
  intro arg harg
  change arg ∈ [2047, 2047, 8] at harg
  simp only [List.mem_cons, List.not_mem_nil, or_false] at harg
  rcases harg with rfl | rfl | rfl <;> decide

/-- With `-m 4096` memory ends up unlimited. -/
theorem limits_wrap_to_unlimited : ∃ m',
    mainLimits { ArgsInfo.none with memory := some 4096 }
      (Mem.create (yjudgerCtxtCreate blankResult noRusage) 3) = .ret ((), m') ∧
    m'.ctxt.rctxt.actualMemory = rscUnlimited ∧
    ¬ LimitsExact { ArgsInfo.none with memory := some 4096 } m'.ctxt.rctxt := by
  refine ⟨_, mainLimits_apply _ _ rfl, by decide, fun h => ?_⟩
  exact absurd (h.actualMemory.unlimited (by decide)) (by decide)

end YaojJudger
