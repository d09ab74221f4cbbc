/-
# `YaojJudger.Cli` — the command line, and what it says of a judgement

`main` of `cli/main.c` from the log file on, with `yjudger_set_runner` and
`atorc` of `helper.c`, `log_set`, and `yjudger_forkexec` with the fork that it
makes.

A judgement is told in up to three places, each time by its code:

    the log        log_print_result, unless the policy could not be loaded
    the terminal   the comparison with --result
    the output     --json

The log comes first.  `result` starts out as `OK` and stays so when the judger
is called in the process itself and fails; only after it has been logged does
`main` look at `yerrno` and make it an `SE`.
-/
import YaojJudger.Main
import YaojJudger.PolicyDir

namespace YaojJudger

open Posix

/-! ## `helper.c`, `mutex_log.c` -/

/-- `result_code_name`. -/
def resultCodeName : ResultCode → Bytes
  | .ok => [79, 75]
  | .re => [82, 69]
  | .mle => [77, 76, 69]
  | .tle => [84, 76, 69]
  | .ole => [79, 76, 69]
  | .se => [83, 69]
  | .dsc => [68, 83, 67]
  | .ece => [69, 67, 69]

/-- The codes, in order. -/
def resultCodes : List ResultCode := [.ok, .re, .mle, .tle, .ole, .se, .dsc, .ece]

def atorc (arg : Bytes) : Code ResultCode :=
  match resultCodes.find? fun code => arg = resultCodeName code with
  | some code => return code
  | none => Code.exit 1

def yjudgerSetRunner (argv : List Arg) (env : List Bytes) : Code Int := do
  modifyCtxt fun ctxt => { ctxt with ectxt := { argv := argv, env := env } }
  return 0

/-- The stream stands for its descriptor.  A failure is itself logged, to the
stream that could not be opened. -/
def logSet (filename : Bytes) : Code Int := do
  match ← ask (.fopen filename true) with
  | none =>
      ystrerr eFp
      Code.undefined
  | some fp =>
      Code.modify fun m => { m with logFd := fp }
      return 0

/-! ## `yjudger_forkexec` -/

/-- A `pid_t` as an argument: `-1` as its 32 bits. -/
def pidArg (pid : Int) : Nat := if pid < 0 then (pid + 2 ^ 32).toNat else pid.toNat

/-- `garbage` is what the local `result` holds, `page` the shared page when the
parent looks at it. -/
def yjudgerForkexec (fn : Code Int) (garbage page : Image) : Code Image := do
  let pid ← fork
  if pid = 0 then
    let flag ← fn
    -- before `exit(0)` the worker copies its result into the page
    Code.exit flag
  else
    match ← Code.call (.waitpid (pidArg pid) true) with
    | none =>
        let _ ← Code.call (.killpg (pidArg pid))
        return forkexecResult garbage page none
    | some status => return forkexecResult garbage page (some status)

/-! ## `cli/main.c` -/

/-- `struct gengetopt_args_info`: an option that may be absent is an `Option`. -/
structure CliArgs where
  log : Option Bytes
  limits : ArgsInfo
  result : Option Bytes
  policyDir : Bytes
  policy : Bytes
  judger : Bytes
  forkFlag : Bool
  jsonGiven : Bool
  jsonFlag : Bool
  inputs : List Arg

/-- `"interactive"` and `"general"`. -/
def Judger.name : Judger → Bytes
  | .interactive => [105, 110, 116, 101, 114, 97, 99, 116, 105, 118, 101]
  | .general => [103, 101, 110, 101, 114, 97, 108]

def Judger.ofName (name : Bytes) : Option Judger :=
  if name = Judger.interactive.name then some .interactive
  else if name = Judger.general.name then some .general
  else none

/-- `if (args_info.log_given) …`. -/
def mainLog : Option Bytes → Code Unit
  | some filename => do
      if (← logSet filename) ≠ 0 then Code.exit 1
      else return ()
  | none => return ()

/-- `result_code`, which is `-1` without `--result`. -/
def mainResultCode : Option Bytes → Code Int
  | some arg => do
      let code ← atorc arg
      return (code.toNat : Int)
  | none => return -1

/-- The judgement, in a worker or in the process itself. -/
def mainJudge (args : CliArgs) (garbage page : Image) : Code Image :=
  match Judger.ofName args.judger with
  | none => Code.exit 1
  | some j =>
      if args.forkFlag then yjudgerForkexec j.code garbage page
      else do
        let _ ← j.code
        directResult

/-- What `main` says: the code in the log, the code compared with `--result`, and
the code in the JSON text; then its return value. -/
structure Outputs where
  logged : Option Nat
  compared : Option Nat
  printed : Option Nat
  returnCode : Int
  deriving DecidableEq, Repr

/-- The result and the line in the log: of a policy that is not loaded there is
none. -/
def mainResult (args : CliArgs) (env : List Bytes) (garbage page : Image) (flag : Int) :
    Code (Image × Option Nat) := do
  if flag ≠ 0 then return (blankResult.image, none)
  else
    let _ ← yjudgerSetRunner args.inputs env
    let result ← mainJudge args garbage page
    return (result, some (result.field .code))

/-- The end of `main`, once `yerrno` has been looked at. -/
def mainOutputs (args : CliArgs) (resultCode : Int) (logged : Option Nat) (result : Image) :
    Outputs where
  logged := logged
  compared := if args.result.isSome then some (result.field .code) else none
  printed := if args.jsonGiven ∧ args.jsonFlag then some (result.field .code) else none
  returnCode := if args.result.isSome ∧ (result.field .code : Int) ≠ resultCode then 1 else 0

/-- `main`, from the context that `yjudger_ctxt_create` makes. -/
def cliMain (list : List BuiltinPolicy) (args : CliArgs) (env : List Bytes)
    (garbage page : Image) : Code Outputs := do
  mainLog args.log
  mainLimits args.limits
  let resultCode ← mainResultCode args.result
  let flag ← policySet list args.policyDir args.policy
  let judged ← mainResult args env garbage page flag
  let result ← mainReport (return judged.1)
  yjudgerCtxtFree
  return mainOutputs args resultCode judged.2 result

/-! ## `yerrno` up to the judgement -/

/-- A call that fails sets `yerrno` to what it returns, one that succeeds leaves it. -/
def SetsYerrno (m : Mem) (r : Int) (m' : Mem) : Prop :=
  (r = 0 ∧ m'.yerrno = m.yerrno) ∨ (r ≠ 0 ∧ m'.yerrno = r)

section
variable {l l' : JLocal} {m m' : Mem}

theorem setsYerrno_writePolicies {tdir : Bytes} {list : List BuiltinPolicy} {r : Int} :
    ∀ {l : JLocal}, Code.Runs (writePolicies tdir list) l m r l' m' → SetsYerrno m r m' := by
  induction list with
  | nil =>
      intro l h
      obtain ⟨rfl, rfl, rfl⟩ := (Code.runs_pure _ _).mp h
      exact Or.inl ⟨rfl, rfl⟩
  | cons p list ih =>
      intro l h
      obtain ⟨fp, h⟩ := (runs_ask_bind _ _ _).mp h
      cases fp with
      | none =>
          obtain ⟨rfl, rfl, rfl⟩ := (runs_yreturn _ _).mp h
          exact Or.inr ⟨by decide, rfl⟩
      | some fp =>
          obtain ⟨n, h⟩ := (runs_ask_bind _ _ _).mp h
          rcases (Code.runs_ite _ _ _ _).mp h with ⟨hn, h⟩ | ⟨hn, h⟩
          · obtain ⟨rfl, rfl, rfl⟩ := (runs_yreturn _ _).mp h
            exact Or.inr ⟨by decide, rfl⟩
          · obtain ⟨_, h⟩ := (runs_ask_bind _ _ _).mp h
            exact ih h

theorem runs_ftos {fp : Nat} {s : Bytes} (h : Code.Runs (ftos fp) l m s l' m') : m' = m := by
  obtain ⟨size, h⟩ := (runs_ask_bind _ _ _).mp h
  obtain ⟨buf, h⟩ := (runs_ask_bind _ _ _).mp h
  obtain ⟨_, h⟩ := (runs_ask_bind _ _ _).mp h
  exact ((Code.runs_pure _ _).mp h).2.2

/-- Loading a policy, by induction on the rounds of `builtin:`. -/
theorem setsYerrno_policySet {list : List BuiltinPolicy} {r : Int} :
    ∀ (n : Nat) {dirname policy : Bytes} {l : JLocal} {m : Mem}, policy.length = n →
      Code.Runs (policySet list dirname policy) l m r l' m' → SetsYerrno m r m' := by
  intro n
  induction n using Nat.strong_induction_on with
  | _ n ih =>
      intro dirname policy l m hn h
      rw [policySet] at h
      cases hb : isBuiltinPolicy policy with
      | false =>
          rw [dif_neg (by simp [hb])] at h
          obtain ⟨fp, h⟩ := (runs_ask_bind _ _ _).mp h
          cases fp with
          | none =>
              obtain ⟨rfl, rfl, rfl⟩ := (runs_yreturn _ _).mp h
              exact Or.inr ⟨by decide, rfl⟩
          | some fp =>
              obtain ⟨content, l₁, m₁, hread, hload⟩ := (Code.runs_bind _ _ _).mp h
              have hm : m₁.yerrno = m.yerrno := congrArg Mem.yerrno (runs_ftos hread)
              obtain ⟨_, l₂, m₂, hset, hret⟩ := (Code.runs_bind _ _ _).mp hload
              obtain ⟨rfl, rfl⟩ := (runs_modifyCtxt _ _).mp hset
              obtain ⟨rfl, rfl, rfl⟩ := (Code.runs_pure _ _).mp hret
              exact Or.inl ⟨rfl, hm⟩
      | true =>
          rw [dif_pos hb, policySetBuiltin] at h
          obtain ⟨tdir, h⟩ := (runs_ask_bind _ _ _).mp h
          cases tdir with
          | none =>
              obtain ⟨rfl, rfl, rfl⟩ := (runs_yreturn _ _).mp h
              exact Or.inr ⟨by decide, rfl⟩
          | some tdir =>
              obtain ⟨flag, l₁, m₁, hwrite, h⟩ := (Code.runs_bind _ _ _).mp h
              have hrep := setsYerrno_writePolicies hwrite
              rcases (Code.runs_ite _ _ _ _).mp h with ⟨hf, h⟩ | ⟨hf, h⟩
              · obtain ⟨rfl, rfl, rfl⟩ := (Code.runs_pure _ _).mp h
                exact hrep
              · obtain ⟨_, l₂, m₂, hset, h⟩ := (Code.runs_bind _ _ _).mp h
                obtain ⟨rfl, rfl⟩ := (runs_modifyCtxt _ _).mp hset
                have hlt : (policy.drop 8).length < n := by
                  have := length_of_isBuiltinPolicy hb
                  rw [List.length_drop]
                  omega
                have hsame : m₁.yerrno = m.yerrno :=
                  (hrep.resolve_right fun hr => hf hr.1).2
                rcases ih _ hlt rfl h with ⟨hr, hy⟩ | hr
                · exact Or.inl ⟨hr, hy.trans hsame⟩
                · exact Or.inr hr

theorem runs_mainLog {log : Option Bytes} {a : Unit} (h : Code.Runs (mainLog log) l m a l' m') :
    ∃ logFd, m' = { m with logFd := logFd } := by
  cases log with
  | none =>
      obtain ⟨-, -, hm⟩ := (Code.runs_pure _ _).mp h
      exact ⟨m.logFd, hm⟩
  | some filename =>
      obtain ⟨r, l₁, m₁, hset, h⟩ := (Code.runs_bind _ _ _).mp h
      obtain ⟨fp, hset⟩ := (runs_ask_bind _ _ _).mp hset
      cases fp with
      | none =>
          obtain ⟨_, l₂, m₂, -, hset⟩ := (Code.runs_bind _ _ _).mp hset
          exact absurd hset (Code.runs_undefined r)
      | some fp =>
          replace hset := (Code.runs_modify_bind _ _ _).mp hset
          obtain ⟨rfl, rfl, rfl⟩ := (Code.runs_pure _ _).mp hset
          rcases (Code.runs_ite _ _ _ _).mp h with ⟨hr, h⟩ | ⟨hr, h⟩
          · exact absurd rfl hr
          · obtain ⟨-, -, rfl⟩ := (Code.runs_pure _ _).mp h
            exact ⟨fp, rfl⟩

theorem yerrno_mainLimits {args : ArgsInfo} {a : Unit} (hm : m.ctxt.rctxt = rsclimCtxtCreate)
    (h : Code.Runs (mainLimits args) l m a l' m') : m'.yerrno = m.yerrno := by
  rw [Code.Runs, mainLimits_apply args m hm, Prog.steps_ret] at h
  rw [(Prod.mk.inj h.1).2]

theorem yerrno_mainResultCode {result : Option Bytes} {r : Int}
    (h : Code.Runs (mainResultCode result) l m r l' m') : m'.yerrno = m.yerrno := by
  cases result with
  | none =>
      obtain ⟨-, -, rfl⟩ := (Code.runs_pure _ _).mp h
      rfl
  | some arg =>
      obtain ⟨code, l₁, m₁, hcode, h⟩ := (Code.runs_bind _ _ _).mp h
      obtain ⟨-, -, rfl⟩ := (Code.runs_pure _ _).mp h
      rw [atorc] at hcode
      split at hcode
      · obtain ⟨-, -, rfl⟩ := (Code.runs_pure _ _).mp hcode
        rfl
      · exact absurd hcode (Code.runs_exit _ _)

/-- The parent of a worker goes on with the memory it had. -/
theorem runs_yjudgerForkexec {fn : Code Int} {garbage page result : Image}
    (h : Code.Runs (yjudgerForkexec fn garbage page) l m result l' m') :
    m' = m ∧ ∃ status, result = forkexecResult garbage page status := by
  obtain ⟨pid, l₁, m₁, hfork, hrest⟩ := (Code.runs_bind _ _ _).mp h
  have hm : m₁ = m := (runs_fork hfork).1
  rcases (Code.runs_ite _ _ _ _).mp hrest with ⟨-, hchild⟩ | ⟨-, hparent⟩
  · obtain ⟨flag, l₂, m₂, -, hexit⟩ := (Code.runs_bind _ _ _).mp hchild
    exact absurd hexit (Code.runs_exit _ _)
  · obtain ⟨status, -, hread⟩ := (Code.runs_call_bind _ _ _).mp hparent
    cases status with
    | none =>
        obtain ⟨b, -, hret⟩ := (Code.runs_call_bind _ _ _).mp hread
        obtain ⟨hres, -, hm'⟩ := (Code.runs_pure _ _).mp hret
        exact ⟨hm'.trans hm, none, hres⟩
    | some status =>
        obtain ⟨hres, -, hm'⟩ := (Code.runs_pure _ _).mp hread
        exact ⟨hm'.trans hm, some status, hres⟩

end

/-! ## Do the outputs agree? -/

/-- The codes told. -/
def Outputs.told (out : Outputs) : List Nat := [out.logged, out.compared, out.printed].reduceOption

/-- All of them are the same. -/
def Outputs.Agree (out : Outputs) : Prop := ∀ a ∈ out.told, ∀ b ∈ out.told, a = b

/-- The result is compared or printed. -/
def CliArgs.Tells (args : CliArgs) : Prop :=
  args.result.isSome = true ∨ (args.jsonGiven = true ∧ args.jsonFlag = true)

theorem mem_told (args : CliArgs) (resultCode : Int) (logged : Option Nat) (result : Image)
    (a : Nat) : a ∈ (mainOutputs args resultCode logged result).told ↔
      a ∈ logged ∨ (args.Tells ∧ a = result.field .code) := by
  have hopt : ∀ b : Prop, [Decidable b] → ∀ x : Nat,
      (some a = if b then some x else none) ↔ b ∧ a = x := by
    intro b _ x
    by_cases hb : b
    · simp [hb]
    · simp [hb]
  simp only [Outputs.told, mainOutputs, List.reduceOption_mem_iff, List.mem_cons, List.not_mem_nil,
    or_false, hopt, CliArgs.Tells, Option.mem_def, eq_comm (a := some a)]
  rw [or_and_right]

theorem agree_mainOutputs_iff (args : CliArgs) (resultCode : Int) (logged : Option Nat)
    (result : Image) :
    (mainOutputs args resultCode logged result).Agree ↔
      (args.Tells → ∀ code ∈ logged, code = result.field .code) := by
  simp only [Outputs.Agree, mem_told]
  constructor
  · intro h ht code hc
    exact h code (Or.inl hc) _ (Or.inr ⟨ht, rfl⟩)
  · rintro h a (ha | ⟨ht, rfl⟩) b (hb | ⟨ht', rfl⟩)
    · exact Option.mem_unique ha hb
    · exact h ht' a ha
    · exact (h ht b hb).symm
    · rfl

/-- How loading the policy and judging can come out. -/
inductive MainEnd where
  | noPolicy (flag : Int)
  | forked (j : Judger)
  | direct (j : Judger) (r : Int)
  deriving DecidableEq, Repr

/-- The memory with the runner set. -/
def Mem.runner (m : Mem) (args : CliArgs) (env : List Bytes) : Mem :=
  { m with ctxt := { m.ctxt with ectxt := { argv := args.inputs, env := env } } }

/-- It came out so, on the way from `l` and `m` to `l'` and `m'`, with the result and the
line in the log `judged`. -/
def MainEnd.Came (list : List BuiltinPolicy) (args : CliArgs) (env : List Bytes)
    (garbage page : Image) (l : JLocal) (m : Mem) (judged : Image × Option Nat) (l' : JLocal)
    (m' : Mem) : MainEnd → Prop
  | noPolicy flag =>
      flag ≠ 0 ∧ Code.Runs (policySet list args.policyDir args.policy) l m flag l' m' ∧
        judged = (blankResult.image, none)
  | forked j =>
      Judger.ofName args.judger = some j ∧ args.forkFlag = true ∧
        ∃ l₁ m₁ result, Code.Runs (policySet list args.policyDir args.policy) l m 0 l₁ m₁ ∧
          Code.Runs (yjudgerForkexec j.code garbage page) l₁ (m₁.runner args env) result l' m' ∧
          judged = (result, some (result.field .code))
  | direct j r =>
      Judger.ofName args.judger = some j ∧ args.forkFlag = false ∧
        ∃ l₁ m₁ l₂ m₂ result, Code.Runs (policySet list args.policyDir args.policy) l m 0 l₁ m₁ ∧
          Code.Runs j.code l₁ (m₁.runner args env) r l₂ m₂ ∧
          Code.Runs directResult l₂ m₂ result l' m' ∧ judged = (result, some (result.field .code))

/-- `main` up to the policy. -/
def mainOptions (args : CliArgs) : Code Int := do
  mainLog args.log
  mainLimits args.limits
  mainResultCode args.result

/-- `main` behind the judgement. -/
def mainFinish (args : CliArgs) (resultCode : Int) (judged : Image × Option Nat) :
    Code Outputs := do
  let result ← mainReport (return judged.1)
  yjudgerCtxtFree
  return mainOutputs args resultCode judged.2 result

/-- The run of `main` to the outputs `out` in which loading and judging came out so. -/
def MainEnd.Run (list : List BuiltinPolicy) (args : CliArgs) (env : List Bytes)
    (garbage page : Image) (l : JLocal) (m : Mem) (out : Outputs) (l' : JLocal) (m' : Mem)
    (e : MainEnd) : Prop :=
  ∃ resultCode l₁ m₁ judged l₂ m₂, Code.Runs (mainOptions args) l m resultCode l₁ m₁ ∧
    e.Came list args env garbage page l₁ m₁ judged l₂ m₂ ∧
    Code.Runs (mainFinish args resultCode judged) l₂ m₂ out l' m'

/-- The judger was called in the process itself, and failed. -/
def MainEnd.Failed : MainEnd → Prop
  | direct _ r => r ≠ 0
  | _ => False

section
variable {list : List BuiltinPolicy} {args : CliArgs} {env : List Bytes} {garbage page : Image}
  {l l₁ l' : JLocal} {m m₁ m' : Mem}

theorem runs_yjudgerSetRunner {r : Int} :
    Code.Runs (yjudgerSetRunner args.inputs env) l m r l' m' ↔
      r = 0 ∧ l' = l ∧ m' = m.runner args env :=
  (Code.runs_modify_bind _ _ _).trans (Code.runs_pure _ _)

/-- Behind the policy. -/
theorem runs_judged {judged : Image × Option Nat} :
    Code.Runs (mainResult args env garbage page 0) l m judged l' m' ↔
      ∃ result, Code.Runs (mainJudge args garbage page) l (m.runner args env) result l' m' ∧
        judged = (result, some (result.field .code)) := by
  rw [mainResult, if_neg (not_not.mpr rfl), Code.runs_bind]
  constructor
  · rintro ⟨r, l₁, m₁, hset, hrest⟩
    obtain ⟨-, rfl, rfl⟩ := runs_yjudgerSetRunner.mp hset
    obtain ⟨result, l₂, m₂, hjudge, hret⟩ := (Code.runs_bind _ _ _).mp hrest
    obtain ⟨rfl, rfl, rfl⟩ := (Code.runs_pure _ _).mp hret
    exact ⟨result, hjudge, rfl⟩
  · rintro ⟨result, hjudge, rfl⟩
    exact ⟨0, l, _, runs_yjudgerSetRunner.mpr ⟨rfl, rfl, rfl⟩, .bind hjudge (.pure _ _ _)⟩

/-- The judgement, in a worker or here. -/
theorem runs_mainJudge {result : Image} :
    Code.Runs (mainJudge args garbage page) l m result l' m' ↔
      ∃ j, Judger.ofName args.judger = some j ∧
        (args.forkFlag = true ∧
            Code.Runs (yjudgerForkexec j.code garbage page) l m result l' m' ∨
          args.forkFlag = false ∧ ∃ r l₁ m₁, Code.Runs j.code l m r l₁ m₁ ∧
            Code.Runs directResult l₁ m₁ result l' m') := by
  rw [mainJudge]
  cases Judger.ofName args.judger with
  | none =>
      refine iff_of_false (Code.runs_exit _ _) ?_
      rintro ⟨j, hj, -⟩
      cases hj
  | some j =>
      simp only [Option.some.injEq, exists_eq_left', Code.runs_ite, Code.runs_bind,
        Bool.not_eq_true]

/-- **Loading and judging come out in one of three ways.** -/
theorem came_iff {judged : Image × Option Nat} :
    (∃ flag l₁ m₁, Code.Runs (policySet list args.policyDir args.policy) l m flag l₁ m₁ ∧
        Code.Runs (mainResult args env garbage page flag) l₁ m₁ judged l' m') ↔
      ∃ e : MainEnd, e.Came list args env garbage page l m judged l' m' := by
  constructor
  · rintro ⟨flag, l₁, m₁, hpolicy, hresult⟩
    by_cases hf : flag = 0
    · subst hf
      obtain ⟨result, hjudge, hjudged⟩ := runs_judged.mp hresult
      obtain ⟨j, hj, ⟨hfork, hworker⟩ | ⟨hfork, r, l₂, m₂, hrun, hdirect⟩⟩ :=
        runs_mainJudge.mp hjudge
      · exact ⟨.forked j, hj, hfork, l₁, m₁, result, hpolicy, hworker, hjudged⟩
      · exact ⟨.direct j r, hj, hfork, l₁, m₁, l₂, m₂, result, hpolicy, hrun, hdirect, hjudged⟩
    · rw [mainResult, if_pos hf, Code.runs_pure] at hresult
      obtain ⟨rfl, rfl, rfl⟩ := hresult
      exact ⟨.noPolicy flag, hf, hpolicy, rfl⟩
  · rintro ⟨e, he⟩
    cases e with
    | noPolicy flag =>
        obtain ⟨hf, hpolicy, rfl⟩ := he
        exact ⟨flag, l', m', hpolicy, by rw [mainResult, if_pos hf]; exact .pure _ _ _⟩
    | forked j =>
        obtain ⟨hj, hfork, l₁, m₁, result, hpolicy, hworker, hjudged⟩ := he
        exact ⟨0, l₁, m₁, hpolicy, runs_judged.mpr
          ⟨result, runs_mainJudge.mpr ⟨j, hj, Or.inl ⟨hfork, hworker⟩⟩, hjudged⟩⟩
    | direct j r =>
        obtain ⟨hj, hfork, l₁, m₁, l₂, m₂, result, hpolicy, hrun, hdirect, hjudged⟩ := he
        exact ⟨0, l₁, m₁, hpolicy, runs_judged.mpr ⟨result, runs_mainJudge.mpr
          ⟨j, hj, Or.inr ⟨hfork, r, l₂, m₂, hrun, hdirect⟩⟩, hjudged⟩⟩

/-- **The runs of `main`**, by how loading and judging come out. -/
theorem runs_cliMain {out : Outputs} :
    Code.Runs (cliMain list args env garbage page) l m out l' m' ↔
      ∃ e : MainEnd, e.Run list args env garbage page l m out l' m' := by
  constructor
  · intro hrun
    obtain ⟨_, l₁, m₁, hlog, hrun⟩ := (Code.runs_bind _ _ _).mp hrun
    obtain ⟨_, l₂, m₂, hlimits, hrun⟩ := (Code.runs_bind _ _ _).mp hrun
    obtain ⟨resultCode, l₃, m₃, hcode, hrun⟩ := (Code.runs_bind _ _ _).mp hrun
    obtain ⟨flag, l₄, m₄, hpolicy, hrun⟩ := (Code.runs_bind _ _ _).mp hrun
    obtain ⟨judged, l₅, m₅, hresult, hfinish⟩ := (Code.runs_bind _ _ _).mp hrun
    obtain ⟨e, hcame⟩ := came_iff.mp ⟨flag, l₄, m₄, hpolicy, hresult⟩
    exact ⟨e, resultCode, l₃, m₃, judged, l₅, m₅, hlog.bind (hlimits.bind hcode), hcame, hfinish⟩
  · rintro ⟨e, resultCode, l₃, m₃, judged, l₅, m₅, hoptions, hcame, hfinish⟩
    obtain ⟨flag, l₄, m₄, hpolicy, hresult⟩ := came_iff.mpr ⟨e, hcame⟩
    obtain ⟨_, l₁, m₁, hlog, hrest⟩ := (Code.runs_bind _ _ _).mp hoptions
    obtain ⟨_, l₂, m₂, hlimits, hcode⟩ := (Code.runs_bind _ _ _).mp hrest
    exact hlog.bind (hlimits.bind (hcode.bind (hpolicy.bind (hresult.bind hfinish))))

/-- Up to the policy `yerrno` stays 0. -/
theorem yerrno_mainOptions {result : YjudgerResult} {rusage : Rusage} {logFd : Nat} {r : Int}
    (h : Code.Runs (mainOptions args) l (Mem.create (yjudgerCtxtCreate result rusage) logFd) r l'
      m') : m'.yerrno = 0 := by
  obtain ⟨_, l₁, m₁, hlog, h⟩ := (Code.runs_bind _ _ _).mp h
  obtain ⟨logFd', rfl⟩ := runs_mainLog hlog
  obtain ⟨_, l₂, m₂, hlimits, hcode⟩ := (Code.runs_bind _ _ _).mp h
  exact (yerrno_mainResultCode hcode).trans (yerrno_mainLimits rfl hlimits)

/-- Where the log is wrong: the result has been logged as `OK`, and `yerrno` is set. -/
theorem MainEnd.Came.logged {e : MainEnd} {judged : Image × Option Nat} (hy : m.yerrno = 0)
    (h : e.Came list args env garbage page l m judged l' m') :
    (∀ code ∈ judged.2,
        code = (if m'.yerrno ≠ 0 then judged.1.setField .code 5 else judged.1).field .code) ↔
      ¬ e.Failed := by
  have loaded : ∀ {l₁ m₁}, Code.Runs (policySet list args.policyDir args.policy) l m 0 l₁ m₁ →
      (m₁.runner args env).yerrno = 0 := by
    intro l₁ m₁ hpolicy
    rcases setsYerrno_policySet _ rfl hpolicy with ⟨-, h0⟩ | ⟨hne, -⟩
    · exact h0.trans hy
    · exact absurd rfl hne
  cases e with
  | noPolicy flag =>
      obtain ⟨-, -, rfl⟩ := h
      simp [MainEnd.Failed]
  | forked j =>
      obtain ⟨-, -, l₁, m₁, result, hpolicy, hworker, rfl⟩ := h
      have hy' : m'.yerrno = 0 := by
        rw [(runs_yjudgerForkexec hworker).1]
        exact loaded hpolicy
      simp [MainEnd.Failed, hy']
  | direct j r =>
      obtain ⟨-, -, l₁, m₁, l₂, m₂, result, hpolicy, hrun, hdirect, rfl⟩ := h
      obtain ⟨hs, es, hjudging, -⟩ := runs_judging hrun
      rw [directResult, Code.runs_get_bind] at hdirect
      rcases hjudging.yerrno with ⟨hr, hy₂⟩ | ⟨hr, hy₂⟩
      · have h0 : m₂.yerrno = 0 := hy₂.trans (loaded hpolicy)
        rw [if_pos h0] at hdirect
        obtain ⟨-, -, rfl⟩ := (Code.runs_pure _ _).mp hdirect
        simp [MainEnd.Failed, hr, h0]
      · have hpos := (judgerErrors_bounds hr).1
        have hne : m₂.yerrno ≠ 0 := by omega
        rw [if_neg hne] at hdirect
        obtain ⟨rfl, -, rfl⟩ := (Code.runs_pure _ _).mp hdirect
        have hok : blankResult.image.field .code = 0 := image_field blankResult .code
        have hrne : r ≠ 0 := by omega
        simp [MainEnd.Failed, hne, hok, hrne]

/-- What the end of `main` tells. -/
theorem runs_mainFinish {resultCode : Int} {judged : Image × Option Nat} {out : Outputs}
    (h : Code.Runs (mainFinish args resultCode judged) l m out l' m') :
    out = mainOutputs args resultCode judged.2
      (if m.yerrno ≠ 0 then judged.1.setField .code 5 else judged.1) := by
  obtain ⟨final, l₁, m₁, hreport, hrest⟩ := (Code.runs_bind _ _ _).mp h
  obtain ⟨result, l₂, m₂, hpure, hfinal⟩ := runs_mainReport hreport
  obtain ⟨hresult, -, hm₂⟩ := (Code.runs_pure _ _).mp hpure
  obtain ⟨_, l₃, m₃, -, hret⟩ := (Code.runs_bind _ _ _).mp hrest
  obtain ⟨rfl, -, -⟩ := (Code.runs_pure _ _).mp hret
  rw [hfinal, hresult, hm₂]

/-- Every run of `main` comes out in one of the three ways, and in each of them **the
outputs agree** if and only if it is not a direct call of a judger that failed and is told
somewhere else than in the log. -/
theorem outputs_agree_iff {result : YjudgerResult} {rusage : Rusage} {logFd : Nat} {out : Outputs}
    (hrun : Code.Runs (cliMain list args env garbage page) l
      (Mem.create (yjudgerCtxtCreate result rusage) logFd) out l' m') :
    (∃ e : MainEnd, e.Run list args env garbage page l
      (Mem.create (yjudgerCtxtCreate result rusage) logFd) out l' m') ∧
    ∀ e : MainEnd, e.Run list args env garbage page l
      (Mem.create (yjudgerCtxtCreate result rusage) logFd) out l' m' →
      (out.Agree ↔ ¬ (e.Failed ∧ args.Tells)) := by
  refine ⟨runs_cliMain.mp hrun, ?_⟩
  rintro e ⟨resultCode, l₁, m₁, judged, l₂, m₂, hoptions, hcame, hfinish⟩
  have hlogged := hcame.logged (yerrno_mainOptions hoptions)
  rw [runs_mainFinish hfinish, agree_mainOutputs_iff, hlogged, not_and]
  exact ⟨fun h hf ht => h ht hf, fun h ht hf => h hf ht⟩

end

/-! ## Two runs -/

/-- `-j general -p a -P . -r SE --json`, and no runner arguments. -/
def sampleArgs : CliArgs where
  log := none
  limits := ArgsInfo.none
  result := some (resultCodeName .se)
  policyDir := [46]
  policy := [97]
  judger := Judger.general.name
  forkFlag := false
  jsonGiven := true
  jsonFlag := true
  inputs := []

/-- The memory at the start, `log_fp` being `stderr`. -/
abbrev cliStart : Mem := Mem.create (yjudgerCtxtCreate blankResult noRusage) 2

/-- A run of the command line that leaves an error. -/
theorem runs_sample {flag : Int} {judged : Image × Option Nat} {es : List JEvent} {m₁ : Mem}
    (hpolicy : ∀ l, Code.Records (policySet [] [46] [97]) l cliStart flag es m₁)
    (hresult : ∀ l, ∃ es' m₂, Code.Records
      (mainResult sampleArgs [] (fun _ => 0) (fun _ => 0) flag) l m₁ judged es' m₂ ∧
        m₂.yerrno ≠ 0 ∧ m₂.ctxt.pctxt.isBuiltin = false) :
    ∃ l' m', Code.Runs (cliMain [] sampleArgs [] (fun _ => 0) (fun _ => 0))
      (.start (.inheritedBelow 4)) cliStart
      (mainOutputs sampleArgs 5 judged.2 (judged.1.setField .code 5)) l' m' := by
  obtain ⟨l₁, hpolicy, -⟩ := hpolicy (.start (.inheritedBelow 4))
  obtain ⟨es', m₂, ⟨l₂, hresult, -⟩, hy, hb⟩ := hresult l₁
  have hlog : Code.Runs (mainLog sampleArgs.log) (.start (.inheritedBelow 4)) cliStart ()
      (.start (.inheritedBelow 4)) cliStart := .pure () _ _
  have hlimits : Code.Runs (mainLimits sampleArgs.limits) (.start (.inheritedBelow 4)) cliStart ()
      (.start (.inheritedBelow 4)) cliStart := Prog.Steps.refl _ _
  have hcode : Code.Runs (mainResultCode sampleArgs.result) (.start (.inheritedBelow 4)) cliStart 5
      (.start (.inheritedBelow 4)) cliStart := .bind (.pure ResultCode.se _ _) (.pure 5 _ _)
  have hreport : Code.Runs (mainReport (return judged.1)) l₂ m₂ (judged.1.setField .code 5)
      (told l₂ [said m₂.yerrno]) m₂ := by
    refine .bind (.pure _ _ _) ?_
    rw [Code.runs_get_bind, if_pos hy]
    exact .bind ((runs_ystrerr _ ()).mpr ⟨rfl, rfl⟩) (.pure _ _ _)
  have hfree : Code.Runs yjudgerCtxtFree (told l₂ [said m₂.yerrno]) m₂ ()
      (told l₂ [said m₂.yerrno]) m₂ := by
    rw [yjudgerCtxtFree, Code.runs_get_bind, if_neg (by simp [hb])]
    exact .pure _ _ _
  exact ⟨_, _, hlog.bind (hlimits.bind (hcode.bind (hpolicy.bind (hresult.bind (hreport.bind
    (hfree.bind (.pure _ _ _)))))))⟩

/-- A user policy whose file is not there. -/
theorem records_policySet_none (l : JLocal) (m : Mem) :
    Code.Records (policySet [] [46] [97]) l m eFp
      [⟨.ask (.fopen (policyFile [46] [97]) false), none⟩, said eFp] (m.failed eFp) := by
  have hb : ¬ isBuiltinPolicy [97] = true := by decide
  rw [policySet, dif_neg hb]
  exact records_ask_bind (.fopen _ false) none (records_yreturn eFp)

/-- The memory with an empty policy loaded from `./a.policy`. -/
def Mem.policyA (m : Mem) : Mem :=
  { m with ctxt := { m.ctxt with pctxt :=
    { m.ctxt.pctxt with content := some [], dirname := some [46], policy := some [97] } } }

/-- A user policy that is empty. -/
theorem records_policySet_empty (l : JLocal) (m : Mem) :
    Code.Records (policySet [] [46] [97]) l m 0
      [⟨.ask (.fopen (policyFile [46] [97]) false), some 5⟩, ⟨.ask (.fsize 5), (0 : Nat)⟩,
        ⟨.ask (.fread 5 0), ([] : Bytes)⟩, ⟨.ask (.fclose 5), ()⟩] m.policyA := by
  have hb : ¬ isBuiltinPolicy [97] = true := by decide
  have hread : ∀ l, Code.Records (ftos 5) l m [] [⟨.ask (.fsize 5), (0 : Nat)⟩,
      ⟨.ask (.fread 5 0), ([] : Bytes)⟩, ⟨.ask (.fclose 5), ()⟩] m := fun l =>
    records_ask_bind (.fsize 5) (0 : Nat) (records_ask_bind (.fread 5 0) ([] : Bytes)
      (records_ask_bind (.fclose 5) () (Code.records_pure _)))
  rw [policySet, dif_neg hb]
  exact records_ask_bind (.fopen _ false) (some 5) ((hread _).bind fun l₁ _ =>
    Code.records_modify_bind (Code.records_pure 0))

/-- Without its policy file the run says `SE` twice. -/
theorem outputs_agree_noPolicy : ∃ l' m',
    Code.Runs (cliMain [] sampleArgs [] (fun _ => 0) (fun _ => 0)) (.start (.inheritedBelow 4))
      cliStart (mainOutputs sampleArgs 5 none (blankResult.image.setField .code 5)) l' m' ∧
    (∃ e : MainEnd, e.Run [] sampleArgs [] (fun _ => 0) (fun _ => 0) (.start (.inheritedBelow 4))
      cliStart (mainOutputs sampleArgs 5 none (blankResult.image.setField .code 5)) l' m') ∧
    ∀ e : MainEnd, e.Run [] sampleArgs [] (fun _ => 0) (fun _ => 0) (.start (.inheritedBelow 4))
        cliStart (mainOutputs sampleArgs 5 none (blankResult.image.setField .code 5)) l' m' →
      ((mainOutputs sampleArgs 5 none (blankResult.image.setField .code 5)).Agree ↔
        ¬ (e.Failed ∧ sampleArgs.Tells)) := by
  have hnone : ∀ l, Code.Records
      (mainResult sampleArgs [] (fun _ => 0) (fun _ => 0) eFp) l (cliStart.failed eFp)
      (blankResult.image, none) [] (cliStart.failed eFp) := fun l =>
    Code.records_then (by decide) (Code.records_pure _)
  obtain ⟨l', m', hrun⟩ := runs_sample (fun l => records_policySet_none l cliStart)
    fun l => ⟨_, _, hnone l, by decide, rfl⟩
  exact ⟨l', m', hrun, outputs_agree_iff hrun⟩

/-- With it, and without a pipe, the log says `OK` and the others say `SE`. -/
theorem log_contradicts_json : ∃ l' m' out,
    Code.Runs (cliMain [] sampleArgs [] (fun _ => 0) (fun _ => 0)) (.start (.inheritedBelow 4))
      cliStart out l' m' ∧
    out.logged = some ResultCode.ok.toNat ∧ out.compared = some ResultCode.se.toNat ∧
      out.printed = some ResultCode.se.toNat ∧ ¬ out.Agree := by
  have hjudge : ∀ l : JLocal, Code.Records
      (mainResult sampleArgs [] (fun _ => 0) (fun _ => 0) 0) l cliStart.policyA
      (blankResult.image, some (blankResult.image.field .code))
      ([] ++ ([⟨.getpid, l.pid⟩, ⟨.pipe, none⟩, said ePipe] ++ [] ++ []))
      (((cliStart.policyA.runner sampleArgs []).begun l.pid).failed ePipe) := by
    intro l
    have hset : Code.Records (yjudgerSetRunner sampleArgs.inputs []) l cliStart.policyA 0 []
        (cliStart.policyA.runner sampleArgs []) :=
      Code.records_modify_bind (Code.records_pure 0)
    refine Code.records_else (by decide) (hset.bind fun l₁ hrun => ?_)
    obtain ⟨-, rfl, -⟩ := runs_yjudgerSetRunner.mp hrun
    have hdirect : ∀ l₂, Code.Records directResult l₂
        (((cliStart.policyA.runner sampleArgs []).begun l₁.pid).failed ePipe) blankResult.image []
        (((cliStart.policyA.runner sampleArgs []).begun l₁.pid).failed ePipe) := fun l₂ =>
      Code.records_get_bind (Code.records_else (show ePipe ≠ 0 by decide) (Code.records_pure _))
    have hcall : Code.Records (mainJudge sampleArgs (fun _ => 0) (fun _ => 0)) l₁
        (cliStart.policyA.runner sampleArgs []) blankResult.image
        ([⟨.getpid, l₁.pid⟩, ⟨.pipe, none⟩, said ePipe] ++ [])
        (((cliStart.policyA.runner sampleArgs []).begun l₁.pid).failed ePipe) :=
      (records_noPipe .general l₁ _).bind fun l₂ _ => hdirect l₂
    exact hcall.bind fun l₂ _ => Code.records_pure _
  obtain ⟨l', m', hrun⟩ := runs_sample (fun l => records_policySet_empty l cliStart)
    fun l => ⟨_, _, hjudge l, show ePipe ≠ 0 by decide, rfl⟩
  have hok : blankResult.image.field .code = 0 := image_field blankResult .code
  refine ⟨l', m', _, hrun, congrArg some hok, ?_, ?_, ?_⟩
  · exact congrArg some (setField_field _ _ _)
  · exact congrArg some (setField_field _ _ _)
  · rw [agree_mainOutputs_iff, setField_field, hok]
    intro h
    exact absurd (h (Or.inl rfl) 0 rfl) (by decide)

end YaojJudger
