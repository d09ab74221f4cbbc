/-
# `YaojJudger.Guard` — what it means that a step succeeded

A function of the judger returns 0 or sets `yerrno` and returns it.  Its
callers chain such functions by `if (f()) yreturn(yerrno)`, which is right only
if a failing function leaves a nonzero `yerrno` behind.  `Guarded R x` says both
halves at once:

    x returned 0         R holds between the state before and the state after
    x returned nonzero   yerrno is nonzero

and `Guarded.seq` is the rule for the chain.  For the functions that confine a
process `R` says which calls were made, with which results: `Logs P`, where `P`
describes the piece that the record has grown by.

The last part says which calls each function can make at all; with the frame
rule of `Posix.Code` that is what it keeps.
-/
import YaojJudger.Interactive
import YaojJudger.Placeholder

namespace YaojJudger

open Posix

/-! ## Returning 0 -/

/-- Any call, any exit. -/
abbrev anyCall : JLocal → Call → Prop := fun _ _ => True
abbrev anyExit : JLocal → Int → Prop := fun _ _ => True

/-- If `x` returns 0 then `R`; if not, `yerrno` is set. -/
def Guarded (R : JLocal → Mem → JLocal → Mem → Prop) (x : Code Int) : Prop :=
  ∀ l m, Code.wp anyCall anyExit x
    (fun l' r m' => (r = 0 → R l m l' m') ∧ (r ≠ 0 → m'.yerrno ≠ 0)) l m

section
variable {R S T : JLocal → Mem → JLocal → Mem → Prop}

theorem Guarded.mono {x : Code Int} (h : ∀ {l m l' m'}, R l m l' m' → S l m l' m')
    (hx : Guarded R x) : Guarded S x := fun l m =>
  Code.wp_post (fun _ _ _ hr => ⟨fun h0 => h (hr.1 h0), hr.2⟩) (hx l m)

theorem guarded_zero (h : ∀ l m, R l m l m) : Guarded R (pure 0) :=
  fun l m => ⟨fun _ => h l m, fun hne => absurd rfl hne⟩

/-- `yreturn` of an error satisfies whatever is asked of a success. -/
theorem yreturn_wp {P : JLocal → Mem → Prop} {errnum : Int} (h : errnum ≠ 0) (l : JLocal)
    (m : Mem) :
    Code.wp anyCall anyExit (yreturn errnum)
      (fun l' r m' => (r = 0 → P l' m') ∧ (r ≠ 0 → m'.yerrno ≠ 0)) l m := by
  rw [wp_yreturn]
  exact ⟨trivial, fun h0 => absurd h0 h, fun _ => h⟩

theorem guarded_yreturn (errnum : Int) (h : errnum ≠ 0) : Guarded R (yreturn errnum) :=
  fun l m => yreturn_wp h l m

/-- A call with a result of two kinds. -/
theorem guarded_call {c : Call} {f : Ret c → Code Int}
    (hf : ∀ l m r, l.Can c r → Code.wp anyCall anyExit (f r)
      (fun l' r m' => (r = 0 → R l m l' m') ∧ (r ≠ 0 → m'.yerrno ≠ 0)) (l.after c r) m) :
    Guarded R (Code.call c >>= f) := by
  intro l m
  rw [Code.wp_bind, Code.wp_call]
  exact ⟨trivial, fun r hr => hf l m r hr⟩

/-- `if (x) yreturn(yerrno); y`. -/
theorem Guarded.seq {x y : Code Int} (hx : Guarded R x) (hy : Guarded S y)
    (h : ∀ {l m l₁ m₁ l₂ m₂}, R l m l₁ m₁ → S l₁ m₁ l₂ m₂ → T l m l₂ m₂) :
    Guarded T (do if (← x) ≠ 0 then yreturnYerrno else y) := by
  intro l m
  rw [Code.wp_bind]
  refine Code.wp_post (fun l₁ r m₁ hr => ?_) (hx l m)
  rw [Code.wp_ite]
  constructor
  · intro hne
    rw [yreturnYerrno, Code.wp_bind, Code.wp_get]
    exact yreturn_wp (hr.2 hne) l₁ m₁
  · intro h0
    have h0 : r = 0 := by simpa using h0
    exact Code.wp_post (fun _ _ _ h' => ⟨fun hz => h (hr.1 h0) (h'.1 hz), h'.2⟩) (hy l₁ m₁)

end

/-- The context is as before, and the record has grown by a piece that `P` describes. -/
def Logs (P : YjudgerCtxt → List JEvent → Prop) (l : JLocal) (m : Mem) (l' : JLocal) (m' : Mem) :
    Prop :=
  m'.ctxt = m.ctxt ∧ ∃ es, P m.ctxt es ∧ l'.log = l.log ++ es

/-- One piece after another. -/
def Then (P Q : YjudgerCtxt → List JEvent → Prop) (ctxt : YjudgerCtxt) (es : List JEvent) : Prop :=
  ∃ es₁ es₂, P ctxt es₁ ∧ Q ctxt es₂ ∧ es = es₁ ++ es₂

theorem Logs.trans {P Q : YjudgerCtxt → List JEvent → Prop} {l l₁ l₂ : JLocal} {m m₁ m₂ : Mem}
    (h : Logs P l m l₁ m₁) (h' : Logs Q l₁ m₁ l₂ m₂) : Logs (Then P Q) l m l₂ m₂ := by
  obtain ⟨hm, es, hP, hl⟩ := h
  obtain ⟨hm', es', hQ, hl'⟩ := h'
  exact ⟨hm'.trans hm, es ++ es', ⟨es, es', hP, hm ▸ hQ, rfl⟩, by rw [hl', hl, List.append_assoc]⟩

/-! ## The resource limits -/

/-- Calls that all succeeded. -/
def allSucceeded (cs : List Call) : List JEvent :=
  cs.filterMap fun
    | .setrlimit type cur max => some ⟨.setrlimit type cur max, true⟩
    | _ => none

theorem guarded_setRlimit (type : Rlimit) (cur max : UInt64) :
    Guarded (Logs fun _ es =>
      es = [⟨.setrlimit type cur (if max < cur then cur else max), true⟩])
      (setRlimit type cur max) := by
  refine guarded_call fun l m r hr => ?_
  cases r with
  | true => exact ⟨fun _ => ⟨rfl, _, rfl, rfl⟩, fun h => absurd rfl h⟩
  | false => exact yreturn_wp (by decide) _ m

theorem guarded_limitField {field : Int32} {type : Rlimit} {cur max : UInt64} {next : Code Int}
    {cs : List Call} (hnext : Guarded (Logs fun _ es => es = allSucceeded cs) next) :
    Guarded (Logs fun _ es => es = allSucceeded (limitCall field type cur max ++ cs))
      (limitField field type cur max next) := by
  unfold limitField limitCall
  split
  case isTrue =>
    refine Guarded.seq (guarded_setRlimit type cur max) hnext fun h h' => ?_
    obtain ⟨hm, es, ⟨es₁, es₂, rfl, rfl, rfl⟩, hl⟩ := h.trans h'
    exact ⟨hm, _, rfl, hl⟩
  case isFalse => exact hnext

theorem guarded_applyResourceLimitRsc (rctxt : RsclimCtxt) :
    Guarded (Logs fun _ es => es = allSucceeded (limitCalls rctxt))
      (applyResourceLimitRsc rctxt) := by
  unfold applyResourceLimitRsc
  split
  case isTrue => exact guarded_yreturn eRscLim (by decide)
  case isFalse =>
    have hnil : Guarded (Logs fun _ es => es = allSucceeded []) (pure 0) :=
      guarded_zero fun l m => ⟨rfl, [], rfl, (List.append_nil _).symm⟩
    rw [limitCalls, List.append_assoc, List.append_assoc, List.append_assoc]
    rw [← List.append_nil (limitCall rctxt.fileno _ _ _)]
    exact guarded_limitField (guarded_limitField (guarded_limitField (guarded_limitField
      (guarded_limitField hnil))))

theorem guarded_applyResourceLimit :
    Guarded (Logs fun ctxt es => es = allSucceeded (limitCalls ctxt.rctxt)) applyResourceLimit := by
  intro l m
  rw [applyResourceLimit, Code.wp_bind, Code.wp_get]
  refine Code.wp_post (fun l' r m' hr => ⟨fun h0 => ?_, hr.2⟩)
    (guarded_applyResourceLimitRsc m.ctxt.rctxt l m)
  obtain ⟨hm, es, he, hl⟩ := hr.1 h0
  exact ⟨hm, es, he, hl⟩

/-! ## The policy -/

/-- The calls of `apply_policy_prog`. -/
def policyEvents (prog : SockFprog) : List JEvent :=
  [⟨.setNoNewPrivs, true⟩, ⟨.setSeccomp prog, true⟩]

theorem guarded_applyPolicyProg (prog : SockFprog) :
    Guarded (Logs fun _ es => es = policyEvents prog) (applyPolicyProg prog) := by
  refine guarded_call fun l m r _ => ?_
  cases r with
  | false => exact yreturn_wp (by decide) _ m
  | true =>
      show Code.wp anyCall anyExit (Code.call (.setSeccomp prog) >>= _) _ _ m
      rw [Code.wp_bind, Code.wp_call]
      refine ⟨trivial, fun r _ => ?_⟩
      cases r with
      | false => exact yreturn_wp (by decide) _ m
      | true => exact ⟨fun _ => ⟨rfl, _, rfl, by simp [policyEvents]⟩, fun h => absurd rfl h⟩

theorem guarded_applyPolicy :
    Guarded (Logs fun ctxt es => es = policyEvents ctxt.pctxt.prog) applyPolicy := by
  intro l m
  rw [applyPolicy, Code.wp_bind, Code.wp_get]
  refine Code.wp_post (fun l' r m' hr => ⟨fun h0 => ?_, hr.2⟩)
    (guarded_applyPolicyProg m.ctxt.pctxt.prog l m)
  obtain ⟨hm, es, he, hl⟩ := hr.1 h0
  exact ⟨hm, es, he, hl⟩

/-! ## The redirections -/

/-- The calls of `runner_prework`. -/
def RunnerEvents (ectxt : RunnerCtxt) (es : List JEvent) : Prop :=
  ∃ inputFd outputFd errorFd, es =
    [⟨.open_ (ectxt.arg 0) .readOnly, some inputFd⟩,
     ⟨.open_ (ectxt.arg 1) .writeTruncCreate, some outputFd⟩,
     ⟨.open_ (ectxt.arg 2) .writeTruncCreate, some errorFd⟩,
     ⟨.dup2 inputFd 0, true⟩, ⟨.dup2 outputFd 1, true⟩, ⟨.dup2 errorFd 2, true⟩]

theorem guarded_runnerPrework :
    Guarded (Logs fun ctxt es => RunnerEvents ctxt.ectxt es) runnerPrework := by
  intro l m
  rw [runnerPrework, Code.wp_bind, Code.wp_get, Code.wp_ite]
  refine ⟨fun _ => yreturn_wp (by decide) l m, fun _ => ?_⟩
  simp only [Code.wp_bind]
  rw [Code.wp_call]
  refine ⟨trivial, fun inputFd _ => ?_⟩
  rw [Code.wp_call]
  refine ⟨trivial, fun outputFd _ => ?_⟩
  rw [Code.wp_call]
  refine ⟨trivial, fun errorFd _ => ?_⟩
  cases inputFd with
  | none => exact yreturn_wp (by decide) _ m
  | some inputFd =>
      cases outputFd with
      | none => exact yreturn_wp (by decide) _ m
      | some outputFd =>
          cases errorFd with
          | none => exact yreturn_wp (by decide) _ m
          | some errorFd =>
              simp only [Code.wp_bind]
              rw [Code.wp_call]
              refine ⟨trivial, fun r _ => ?_⟩
              cases r with
              | false => exact yreturn_wp (by decide) _ m
              | true =>
                  show Code.wp anyCall anyExit (Code.call (.dup2 outputFd 1) >>= _) _ _ m
                  rw [Code.wp_bind, Code.wp_call]
                  refine ⟨trivial, fun r _ => ?_⟩
                  cases r with
                  | false => exact yreturn_wp (by decide) _ m
                  | true =>
                      show Code.wp anyCall anyExit (Code.call (.dup2 errorFd 2) >>= _) _ _ m
                      rw [Code.wp_bind, Code.wp_call]
                      refine ⟨trivial, fun r _ => ?_⟩
                      cases r with
                      | false => exact yreturn_wp (by decide) _ m
                      | true =>
                          refine ⟨fun _ => ⟨rfl, _, ⟨inputFd, outputFd, errorFd, rfl⟩, ?_⟩,
                            fun h => absurd rfl h⟩
                          simp

/-- The calls of `interactor_prework` and `executable_prework`. -/
def ErrorEvents (i : Nat) (ectxt : RunnerCtxt) (es : List JEvent) : Prop :=
  ∃ errorFd, es = [⟨.open_ (ectxt.arg i) .writeTruncCreate, some errorFd⟩, ⟨.dup2 errorFd 2, true⟩]

theorem guarded_errorPrework (i : Nat) :
    Guarded (Logs fun ctxt es => ErrorEvents i ctxt.ectxt es) (errorPrework i) := by
  intro l m
  rw [errorPrework, Code.wp_bind, Code.wp_get, Code.wp_bind, Code.wp_call]
  refine ⟨trivial, fun errorFd _ => ?_⟩
  cases errorFd with
  | none => exact yreturn_wp (by decide) _ m
  | some errorFd =>
      simp only [Code.wp_bind]
      rw [Code.wp_call]
      refine ⟨trivial, fun r _ => ?_⟩
      cases r with
      | false => exact yreturn_wp (by decide) _ m
      | true =>
          refine ⟨fun _ => ⟨rfl, _, ⟨errorFd, rfl⟩, ?_⟩, fun h => absurd rfl h⟩
          simp

/-- The calls of `apply_resource_limit`, of `apply_policy`, and of both. -/
def LimitEvents (ctxt : YjudgerCtxt) (es : List JEvent) : Prop :=
  es = allSucceeded (limitCalls ctxt.rctxt)

def PolicyEvents (ctxt : YjudgerCtxt) (es : List JEvent) : Prop :=
  es = policyEvents ctxt.pctxt.prog

/-- The last link of a chain: `if (x) yreturn(yerrno); return 0`. -/
theorem Guarded.last {R : JLocal → Mem → JLocal → Mem → Prop} {x : Code Int} (hx : Guarded R x) :
    Guarded R (do if (← x) ≠ 0 then yreturnYerrno else return 0) :=
  Guarded.seq (S := fun l m l' m' => l' = l ∧ m' = m) hx (guarded_zero fun _ _ => ⟨rfl, rfl⟩)
    fun h h' => by obtain ⟨rfl, rfl⟩ := h'; exact h

/-- The calls of `child_prework`. -/
def PreworkEvents : YjudgerCtxt → List JEvent → Prop :=
  Then (fun ctxt es => RunnerEvents ctxt.ectxt es) (Then LimitEvents PolicyEvents)

theorem guarded_childPrework : Guarded (Logs PreworkEvents) childPrework :=
  Guarded.seq guarded_runnerPrework
    (Guarded.seq guarded_applyResourceLimit (Guarded.last guarded_applyPolicy) Logs.trans)
    Logs.trans

/-! ## The hooks before the fork -/

/-- The program to install is one the policy compiler delivered. -/
def Compiled (l : JLocal) (m : Mem) : Prop :=
  ∃ content dirname,
    (⟨.ask (.kafelCompile content dirname), some m.ctxt.pctxt.prog⟩ : JEvent) ∈ l.log

theorem compiled_told (l : JLocal) (m : Mem) (content : Bytes) (dirname : Option Bytes) :
    Compiled (told l [⟨.ask (.kafelCompile content dirname), some m.ctxt.pctxt.prog⟩]) m :=
  ⟨content, dirname, List.mem_append_right _ List.mem_cons_self⟩

/-- The runner, its limits and the hooks are as before, and a compiled program
stays one. -/
structure KeepsRun (l : JLocal) (m : Mem) (l' : JLocal) (m' : Mem) : Prop where
  ectxt : m'.ctxt.ectxt = m.ctxt.ectxt
  rctxt : m'.ctxt.rctxt = m.ctxt.rctxt
  hctxt : m'.ctxt.hctxt = m.ctxt.hctxt
  compiled : Compiled l m → Compiled l' m'

theorem KeepsRun.refl (l : JLocal) (m : Mem) : KeepsRun l m l m := ⟨rfl, rfl, rfl, id⟩

theorem KeepsRun.trans {l l₁ l₂ : JLocal} {m m₁ m₂ : Mem} (h : KeepsRun l m l₁ m₁)
    (h' : KeepsRun l₁ m₁ l₂ m₂) : KeepsRun l m l₂ m₂ :=
  ⟨h'.ectxt.trans h.ectxt, h'.rctxt.trans h.rctxt, h'.hctxt.trans h.hctxt,
    fun hc => h'.compiled (h.compiled hc)⟩

theorem guarded_runHookChain {H : Type} {hook : H → Code Int} :
    ∀ {chain : List H}, (∀ h ∈ chain, Guarded KeepsRun (hook h)) →
      Guarded KeepsRun (runHookChain hook chain)
  | [], _ => guarded_zero KeepsRun.refl
  | h :: _, hs =>
      Guarded.seq (hs h List.mem_cons_self)
        (guarded_runHookChain fun h' hm => hs h' (List.mem_cons_of_mem h hm)) KeepsRun.trans

theorem guarded_initResultBeforeFork : Guarded KeepsRun initResultBeforeFork := by
  intro l m
  rw [initResultBeforeFork, modifyResult, Code.wp_bind, wp_modifyCtxt, Code.wp_bind, Code.wp_get,
    Code.wp_bind, Code.wp_call]
  refine ⟨trivial, fun r _ => ?_⟩
  cases r with
  | false => exact yreturn_wp (by decide) _ _
  | true =>
      refine ⟨fun _ => ⟨rfl, rfl, rfl, ?_⟩, fun h => absurd rfl h⟩
      rintro ⟨content, dirname, hm⟩
      exact ⟨content, dirname, List.mem_append_left _ hm⟩

/-- After `compile_policy_before_fork` the program is a compiled one. -/
theorem guarded_compilePolicyBeforeFork :
    Guarded (fun l m l' m' => KeepsRun l m l' m' ∧ Compiled l' m') compilePolicyBeforeFork := by
  intro l m
  rw [compilePolicyBeforeFork, Code.wp_bind, Code.wp_get]
  cases hc : m.ctxt.pctxt.content with
  | none => exact Code.wp_undefined.mpr trivial
  | some content =>
      refine (wp_ask_bind _ _ _).mpr ⟨trivial, fun numStr => ?_⟩
      cases hout : policyIdentifierHandler (cString content) m.ctxt.ectxt.argv numStr with
      | overrun => exact Code.wp_undefined.mpr trivial
      | error errnum =>
          obtain rfl := policyIdentifierHandler_error hout
          rw [Code.wp_bind, wp_yreturn, yreturnYerrno, Code.wp_bind, Code.wp_get]
          exact ⟨trivial, yreturn_wp (show ePolIdt ≠ 0 by decide) _ _⟩
      | done escContent _ =>
          refine (wp_ask_bind _ _ _).mpr ⟨trivial, fun prog => ?_⟩
          cases prog with
          | none => exact yreturn_wp (by decide) _ m
          | some prog =>
              simp only [Code.wp_bind, wp_modifyCtxt, Code.wp_pure]
              exact ⟨fun _ => ⟨⟨rfl, rfl, rfl, fun _ => compiled_told _ _ _ _⟩,
                compiled_told _ _ _ _⟩, fun h => absurd rfl h⟩

/-- The hooks a context made by the judger has before and after the fork. -/
structure BuiltinHooks (hctxt : HookCtxt Hook) : Prop where
  before : ∀ h ∈ hctxt.beforeFork, h = .initResultBeforeFork ∨ h = .compilePolicyBeforeFork
  after : ∀ h ∈ hctxt.afterFork, h = .startKillerAfterFork ∨ h = .timerAfterFork

theorem BuiltinHooks.register {hctxt : HookCtxt Hook} (h : BuiltinHooks hctxt) :
    BuiltinHooks (registerBuiltinHook hctxt) := by
  constructor
  · intro hook hm
    rcases List.mem_cons.mp hm with rfl | hm
    · exact Or.inr rfl
    · rcases List.mem_cons.mp hm with rfl | hm
      · exact Or.inl rfl
      · exact h.before hook hm
  · intro hook hm
    rcases List.mem_cons.mp hm with rfl | hm
    · exact Or.inr rfl
    · rcases List.mem_cons.mp hm with rfl | hm
      · exact Or.inl rfl
      · exact h.after hook hm

/-- So many calls of `register_builtin_hook` leave only those. -/
theorem builtinHooks_iterate (k : Nat) : BuiltinHooks (registerBuiltinHook^[k] hookCtxtCreate) := by
  induction k with
  | zero => exact ⟨fun h hm => absurd hm List.not_mem_nil, fun h hm => absurd hm List.not_mem_nil⟩
  | succ k ih =>
      rw [Function.iterate_succ', Function.comp_apply]
      exact ih.register

/-- The memory the hooks before the fork start from. -/
def hooked (m : Mem) : Mem :=
  { m with ctxt := { m.ctxt with hctxt := registerBuiltinHook m.ctxt.hctxt } }

theorem guarded_beforeFork {m : Mem} (hb : BuiltinHooks m.ctxt.hctxt) (l : JLocal) :
    Code.wp anyCall anyExit beforeFork
      (fun l' r m' => (r = 0 → KeepsRun l (hooked m) l' m' ∧ Compiled l' m') ∧
        (r ≠ 0 → m'.yerrno ≠ 0)) l m := by
  have hhook : ∀ h, h = Hook.initResultBeforeFork ∨ h = .compilePolicyBeforeFork →
      Guarded KeepsRun (hookFn h) := by
    rintro h (rfl | rfl)
    · exact guarded_initResultBeforeFork
    · exact guarded_compilePolicyBeforeFork.mono fun h => h.1
  have hchain : Guarded (fun l m l' m' => KeepsRun l m l' m' ∧ Compiled l' m')
      (runHookChain hookFn (registerBuiltinHook m.ctxt.hctxt).beforeFork) := by
    have hrest : Guarded KeepsRun
        (runHookChain hookFn (.initResultBeforeFork :: m.ctxt.hctxt.beforeFork)) := by
      refine guarded_runHookChain ?_
      intro h hm
      rcases List.mem_cons.mp hm with rfl | hm
      · exact hhook _ (Or.inl rfl)
      · exact hhook h (hb.before h hm)
    exact Guarded.seq guarded_compilePolicyBeforeFork hrest
      fun h h' => ⟨h.1.trans h', h'.compiled h.2⟩
  rw [beforeFork, Code.wp_bind, wp_modifyCtxt, Code.wp_bind, Code.wp_get]
  exact hchain l (hooked m)

/-- The hooks between the fork and `waitpid` never fail. -/
theorem afterHooks_zero {chain : List Hook}
    (hc : ∀ h ∈ chain, h = .startKillerAfterFork ∨ h = .timerAfterFork) (l : JLocal) (m : Mem) :
    Code.wp anyCall anyExit (runHookChain hookFn chain) (fun _ r _ => r = 0) l m := by
  have hhook : ∀ h, h = Hook.startKillerAfterFork ∨ h = .timerAfterFork →
      ∀ l m, Code.wp anyCall anyExit (hookFn h) (fun _ r _ => r = 0) l m := by
    rintro h (rfl | rfl) l m
    · show Code.wp anyCall anyExit startKillerAfterFork _ l m
      rw [startKillerAfterFork, Code.wp_bind, Code.wp_get, Code.wp_ite]
      refine ⟨fun _ => rfl, fun _ => ?_⟩
      simp only [Code.wp_bind, pthreadCreate]
      rw [Code.wp_call]
      refine ⟨trivial, ?_⟩
      intro tid _
      cases tid with
      | some tid => exact rfl
      | none =>
          rw [ask, Code.wp_call]
          exact ⟨trivial, fun left _ => rfl⟩
    · show Code.wp anyCall anyExit timerAfterFork _ l m
      refine (wp_ask_bind _ _ _).mpr ⟨trivial, ?_⟩
      intro now
      exact rfl
  induction chain generalizing l m with
  | nil => exact rfl
  | cons h chain ih =>
      rw [runHookChain, Code.wp_bind]
      refine Code.wp_post ?_ (hhook h (hc h List.mem_cons_self) l m)
      intro l' r m' hr
      rw [Code.wp_ite]
      exact ⟨fun hne => absurd hr hne, fun _ =>
        ih (fun h' hm => hc h' (List.mem_cons_of_mem h hm)) l' m'⟩

/-! ## Which calls a function can make -/

/-- The calls made from the start of the clock on. -/
def startsClock : Call → Bool
  | .pthreadCreate _ | .ask .gettimeofday | .waitpid _ _ => true
  | _ => false

/-- The calls of a process being set up: quiet ones, before the clock starts. -/
def Setup (n : Nat) (c : Call) : Prop := Quiet n c ∧ startsClock c = false

theorem setup_strerr (n : Nat) (errnum : Int) : Setup n (.ask (.strerr errnum)) := ⟨trivial, rfl⟩

/-- Is the behaviour undefined here? -/
def isFault : Call → Bool
  | .fault => true
  | _ => false

/-- The calls of a process that confines itself: the same, and all are defined. -/
structure Confining (n : Nat) (c : Call) : Prop where
  quiet : Quiet n c
  clock : startsClock c = false
  defined : isFault c = false

section
variable {B : Call → Prop}

theorem only_yreturn {errnum : Int} (h : B (.ask (.strerr errnum))) :
    Code.Only B (yreturn errnum) :=
  Code.only_bind (Code.only_call h) fun _ =>
    Code.only_bind (Code.only_modify _) fun _ => Code.only_pure _

theorem only_yreturnYerrno (h : ∀ errnum, B (.ask (.strerr errnum))) : Code.Only B yreturnYerrno :=
  Code.only_bind Code.only_get fun _ => only_yreturn (h _)

/-- `if (x) yreturn(yerrno); y`. -/
theorem only_seq {x y : Code Int} (h : ∀ errnum, B (.ask (.strerr errnum))) (hx : Code.Only B x)
    (hy : Code.Only B y) : Code.Only B (do if (← x) ≠ 0 then yreturnYerrno else y) :=
  Code.only_bind hx fun _ => Code.only_ite (only_yreturnYerrno h) hy

end

/-- The calls by which a process confines itself. -/
def Prework (n : Nat) : Call → Prop
  | .open_ _ _ | .setrlimit _ _ _ | .setNoNewPrivs | .setSeccomp _ | .ask (.strerr _) => True
  | .dup2 _ newfd => newfd < n
  | _ => False

theorem Prework.confining {n : Nat} {c : Call} (h : Prework n c) : Confining n c := by
  cases c with
  | dup2 oldfd newfd => exact ⟨h, rfl, rfl⟩
  | open_ | setrlimit | setNoNewPrivs | setSeccomp => exact ⟨trivial, rfl, rfl⟩
  | ask q =>
      cases q with
      | strerr => exact ⟨trivial, rfl, rfl⟩
      | _ => exact h.elim
  | getpid | pipe | fork | setpgid | setCloexec | execve | write | read | waitpid | killpg
  | pthreadCreate | pthreadDetach | pthreadCancel | pthreadJoin | sleep | fault => exact h.elim

section
variable {n : Nat}

theorem only_limitField {field : Int32} {type : Rlimit} {cur max : UInt64} {next : Code Int}
    (hnext : Code.Only (Prework n) next) :
    Code.Only (Prework n) (limitField field type cur max next) := by
  have hset : Code.Only (Prework n) (setRlimit type cur max) :=
    Code.only_bind (Code.only_call trivial) fun _ =>
      Code.only_ite (Code.only_pure _) (only_yreturn trivial)
  exact Code.only_ite (only_seq (fun _ => trivial) hset hnext) hnext

theorem only_applyResourceLimit : Code.Only (Prework n) applyResourceLimit :=
  Code.only_bind Code.only_get fun _ =>
    Code.only_ite (only_yreturn trivial) <|
      only_limitField <| only_limitField <| only_limitField <| only_limitField <|
        only_limitField (Code.only_pure _)

theorem only_applyPolicy : Code.Only (Prework n) applyPolicy :=
  Code.only_bind Code.only_get fun _ =>
    Code.only_bind (Code.only_call trivial) fun _ =>
      Code.only_ite
        (Code.only_bind (Code.only_call trivial) fun _ =>
          Code.only_ite (Code.only_pure _) (only_yreturn trivial))
        (only_yreturn trivial)

/-- A redirection of one of the three standard descriptors, and what follows it. -/
theorem only_redirect {oldfd newfd : Nat} {x : Code Int} (h : newfd < n)
    (hx : Code.Only (Prework n) x) :
    Code.Only (Prework n) (do if ← Code.call (.dup2 oldfd newfd) then x else yreturn eDup) :=
  Code.only_bind (Code.only_call h) fun _ => Code.only_ite hx (only_yreturn trivial)

theorem only_runnerPrework : Code.Only (Prework 3) runnerPrework := by
  refine Code.only_bind Code.only_get fun m => ?_
  refine Code.only_ite (only_yreturn trivial) ?_
  refine Code.only_bind (Code.only_call trivial) fun inputFd => ?_
  refine Code.only_bind (Code.only_call trivial) fun outputFd => ?_
  refine Code.only_bind (Code.only_call trivial) fun errorFd => ?_
  split
  · exact only_redirect (by decide) (only_redirect (by decide)
      (only_redirect (by decide) (Code.only_pure _)))
  · exact only_yreturn trivial

theorem only_errorPrework (i : Nat) : Code.Only (Prework 3) (errorPrework i) := by
  refine Code.only_bind Code.only_get fun m => ?_
  refine Code.only_bind (Code.only_call trivial) fun errorFd => ?_
  split
  · exact only_yreturn trivial
  · exact only_redirect (by decide) (Code.only_pure _)

theorem only_childPrework : Code.Only (Prework 3) childPrework :=
  only_seq (fun _ => trivial) only_runnerPrework <|
    only_seq (fun _ => trivial) only_applyResourceLimit <|
      only_seq (fun _ => trivial) only_applyPolicy (Code.only_pure _)

/-- The calls of each hook. -/
def hookCall : Hook → Call → Bool
  | .initResultBeforeFork, .setCloexec _ | .initResultBeforeFork, .ask (.strerr _) => true
  | .compilePolicyBeforeFork, .ask .numStr | .compilePolicyBeforeFork, .ask (.kafelCompile _ _)
  | .compilePolicyBeforeFork, .ask (.strerr _) | .compilePolicyBeforeFork, .fault => true
  | .startKillerAfterFork, .pthreadCreate _ | .startKillerAfterFork, .ask .thread => true
  | .timerAfterFork, .ask .gettimeofday => true
  | .analyzeAfterWait, .ask (.strerr _) => true
  | .stopKillerAfterWait, .pthreadCancel _ | .stopKillerAfterWait, .pthreadJoin _ => true
  | .getUsageAfterWait, .ask .getrusage | .getUsageAfterWait, .ask (.strerr _) => true
  | .timerAfterWait, .ask .gettimeofday => true
  | _, _ => false

/-- **A hook makes no other calls.** -/
theorem only_hookFn (h : Hook) : Code.Only (fun c => hookCall h c = true) (hookFn h) := by
  cases h with
  | initResultBeforeFork =>
      exact Code.only_bind (Code.only_modify _) fun _ =>
        Code.only_bind Code.only_get fun _ =>
          Code.only_bind (Code.only_call rfl) fun _ =>
            Code.only_ite (Code.only_pure _) (only_yreturn rfl)
  | compilePolicyBeforeFork =>
      refine Code.only_bind Code.only_get fun m => ?_
      split
      · exact Code.only_undefined rfl
      · refine Code.only_bind (Code.only_call rfl) fun numStr => ?_
        split
        · exact Code.only_undefined rfl
        · exact Code.only_bind (only_yreturn rfl) fun _ => only_yreturnYerrno fun _ => rfl
        · refine Code.only_bind (Code.only_call rfl) fun prog => ?_
          split
          · exact only_yreturn rfl
          · exact Code.only_bind (Code.only_modify _) fun _ => Code.only_pure _
  | startKillerAfterFork =>
      refine Code.only_bind Code.only_get fun m => Code.only_ite (Code.only_pure _) ?_
      refine Code.only_bind (Code.only_bind (Code.only_call rfl) fun tid => ?_) fun _ =>
        Code.only_bind (Code.only_modify _) fun _ =>
          Code.only_bind (Code.only_modify _) fun _ => Code.only_pure _
      cases tid with
      | some tid => exact Code.only_pure _
      | none => exact Code.only_call rfl
  | timerAfterFork =>
      exact Code.only_bind (Code.only_call rfl) fun _ =>
        Code.only_bind (Code.only_modify _) fun _ => Code.only_pure _
  | analyzeAfterWait =>
      refine Code.only_bind (Code.only_modify _) fun _ => Code.only_bind Code.only_get fun m => ?_
      refine Code.only_ite (Code.only_bind (Code.only_modify _) fun _ => Code.only_pure _) ?_
      refine Code.only_ite ?_ (Code.only_pure _)
      refine Code.only_ite ?_ (Code.only_bind (Code.only_modify _) fun _ => Code.only_pure _)
      exact Code.only_bind (Code.only_call rfl) fun _ =>
        Code.only_bind (Code.only_modify _) fun _ => Code.only_pure _
  | stopKillerAfterWait =>
      refine Code.only_bind Code.only_get fun m => Code.only_ite (Code.only_pure _) ?_
      refine Code.only_ite ?_ (Code.only_pure _)
      refine Code.only_bind ?_ fun _ => Code.only_pure _
      exact Code.only_bind (Code.only_call rfl) fun _ =>
        Code.only_bind (Code.only_call rfl) fun _ => Code.only_pure _
  | getUsageAfterWait =>
      refine Code.only_bind (Code.only_call rfl) fun usage => ?_
      split
      · exact only_yreturn rfl
      · exact Code.only_bind (Code.only_modify _) fun _ =>
          Code.only_bind (Code.only_modify _) fun _ => Code.only_pure _
  | timerAfterWait =>
      exact Code.only_bind (Code.only_call rfl) fun _ =>
        Code.only_bind (Code.only_modify _) fun _ => Code.only_bind Code.only_get fun _ =>
          Code.only_bind (Code.only_modify _) fun _ => Code.only_pure _

/-- No hook takes part in the handshake. -/
theorem quiet_of_hookCall {h : Hook} {c : Call} (hc : hookCall h c = true) : Quiet 0 c := by
  unfold hookCall at hc
  split at hc <;> trivial

/-- The hooks before the fork do not start the clock. -/
theorem setup_of_hookCall {h : Hook} {c : Call}
    (hh : h = .initResultBeforeFork ∨ h = .compilePolicyBeforeFork) (hc : hookCall h c = true) :
    Setup 0 c := by
  refine ⟨quiet_of_hookCall hc, ?_⟩
  rcases hh with rfl | rfl
  · unfold hookCall at hc
    split at hc <;> first | rfl | contradiction
  · unfold hookCall at hc
    split at hc <;> first | rfl | contradiction

theorem only_beforeFork {m : Mem} (hb : BuiltinHooks m.ctxt.hctxt) :
    (beforeFork m).Only (Setup 0) := by
  have hchain : Code.Only (Setup 0)
      (runHookChain hookFn (registerBuiltinHook m.ctxt.hctxt).beforeFork) := by
    refine only_runHookChain (setup_strerr 0) fun h hm => ?_
    have hcase : h = .initResultBeforeFork ∨ h = .compilePolicyBeforeFork := by
      rcases List.mem_cons.mp hm with rfl | hm
      · exact Or.inr rfl
      · rcases List.mem_cons.mp hm with rfl | hm
        · exact Or.inl rfl
        · exact hb.before h hm
    exact (only_hookFn h).mono fun c hc => setup_of_hookCall hcase hc
  exact hchain _

theorem only_hooks (chain : List Hook) : Code.Only (Quiet 0) (runHookChain hookFn chain) :=
  only_runHookChain (fun _ => trivial) fun h _ => (only_hookFn h).mono fun _ => quiet_of_hookCall

end

end YaojJudger
