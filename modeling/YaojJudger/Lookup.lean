/-
# `YaojJudger.Lookup` — which error messages are looked up

`ystrerr` is an array access without a check: `yerrmsg` has an entry for each of
the numbers 0 to 26.  What it is asked for comes from four places:

    yreturn(E_…), yexit(E_…)      a constant of `yerr.h`
    yreturn(yerrno), main         what the last failure left in `yerrno`
    analyze_after_wait            the exit status of the program judged

The first are in the table, and so is `yerrno` at all times, since nothing is stored
there but a constant that has just been looked up.  The last is whatever the program
likes.  `Looks` is the invariant under which all is well: no status is stored that is
an exit with more than 26.
-/
import YaojJudger.Cli
import YaojJudger.Posix.Record

namespace YaojJudger

open Posix World

/-! ## What is owed before a lookup -/

/-- The bounds of `yerrmsg`. -/
def InTable (n : Int) : Prop := 0 ≤ n ∧ n ≤ 26

instance (n : Int) : Decidable (InTable n) := inferInstanceAs (Decidable (_ ∧ _))

/-- The process did not exit with more than 26. -/
def SmallStatus (status : Nat) : Prop := wifexited status = true → wexitstatus status ≤ 26

instance (status : Nat) : Decidable (SmallStatus status) := inferInstanceAs (Decidable (_ → _))

/-- No `waitpid` has reported such an exit. -/
def SmallStatuses (es : List JEvent) : Prop :=
  ∀ pid untraced status, (⟨.waitpid pid untraced, some status⟩ : JEvent) ∈ es → SmallStatus status

/-- A lookup is inside the table, if statuses were small up to then. -/
def LookupPre (l : JLocal) : Call → Prop
  | .ask (.strerr n) => SmallStatuses l.log → InTable n
  | _ => True

/-- The two places a number to be looked up is read from. -/
structure Indexed (m : Mem) : Prop where
  yerrno : InTable m.yerrno
  status : SmallStatus m.ctxt.status

/-- The code keeps them so, and looks nothing else up. -/
def Looks {α : Type} (x : Code α) : Prop :=
  ∀ l m, (SmallStatuses l.log → Indexed m) →
    Code.wp LookupPre (fun _ _ => True) x (fun l' _ m' => SmallStatuses l'.log → Indexed m') l m

theorem SmallStatuses.of_prefix {es es' : List JEvent} (h : SmallStatuses es') (hp : es <+: es') :
    SmallStatuses es :=
  fun pid untraced status he => h pid untraced status (hp.subset he)

/-! ## One rule for each way to build a piece of code -/

section
variable {α β : Type}

theorem looks_pure (a : α) : Looks (pure a : Code α) := fun _ _ h => h

theorem looks_bind {x : Code α} {f : α → Code β} (hx : Looks x) (hf : ∀ a, Looks (f a)) :
    Looks (x >>= f) := by
  intro l m h
  rw [Code.wp_bind]
  refine Code.wp_post ?_ (hx l m h)
  intro l' a m' h'
  exact hf a l' m' h'

theorem looks_call {c : Call} (hc : ∀ n, c ≠ .ask (.strerr n)) :
    Looks (Code.call c : Code (Ret c)) := by
  intro l m h
  rw [Code.wp_call]
  refine ⟨?_, fun r _ hsmall => h (hsmall.of_prefix ?_)⟩
  · unfold LookupPre
    split
    case h_1 n => exact absurd rfl (hc n)
    case h_2 => trivial
  · rw [Local.after_log]
    exact List.prefix_append _ _

theorem looks_ask {q : Ask} (hq : ∀ n, q ≠ .strerr n) : Looks (ask q) := by
  refine looks_call fun n h => hq n ?_
  cases h
  rfl

theorem looks_get : Looks (Code.get : Code Mem) := fun _ _ h => h

theorem looks_modify {f : Mem → Mem} (hf : ∀ m, Indexed m → Indexed (f m)) :
    Looks (Code.modify f : Code Unit) := fun _ m h hsmall => hf m (h hsmall)

theorem looks_modifyCtxt {f : YjudgerCtxt → YjudgerCtxt}
    (hf : ∀ ctxt, (f ctxt).status = ctxt.status) :
    Looks (modifyCtxt f) := by
  refine looks_modify fun m h => ⟨h.yerrno, ?_⟩
  show SmallStatus (f m.ctxt).status
  rw [hf]
  exact h.status

theorem looks_modifyResult (f : YjudgerResult → YjudgerResult) : Looks (modifyResult f) :=
  looks_modifyCtxt fun _ => rfl

theorem looks_exit (n : Int) : Looks (Code.exit n : Code α) := fun _ _ _ => trivial

theorem looks_undefined : Looks (Code.undefined : Code α) :=
  fun _ _ _ => (Code.wp_undefined).mpr trivial

theorem looks_ite {b : Prop} [Decidable b] {x y : Code α} (hx : Looks x) (hy : Looks y) :
    Looks (if b then x else y) := by
  split
  · exact hx
  · exact hy

/-- A test, and the two ways to go on. -/
theorem looks_test {x : Code Bool} {y z : Code α} (hx : Looks x) (hy : Looks y) (hz : Looks z) :
    Looks (do if ← x then y else z) :=
  looks_bind hx fun _ => looks_ite hy hz

/-- The same for a function that returns `n` when it succeeds. -/
theorem looks_check {x : Code Int} {y z : Code α} {n : Int} (hx : Looks x) (hy : Looks y)
    (hz : Looks z) : Looks (do if (← x) ≠ n then y else z) :=
  looks_bind hx fun _ => looks_ite hy hz

/-- Once a greater status has been reported nothing is owed. -/
theorem wp_of_not_small {x : Code α} {l : JLocal} {m : Mem} (h : ¬ SmallStatuses l.log) :
    Code.wp LookupPre (fun _ _ => True) x
      (fun l' _ m' => SmallStatuses l'.log → Indexed m') l m := by
  refine Prog.wp_of_stable (S := fun l' : JLocal => ¬ SmallStatuses l'.log) ?_ ?_
    (fun _ => trivial) (fun hs hsmall => absurd hsmall hs) (x m) h
  · rintro s c r s' hs ⟨-, rfl⟩ hsmall
    rw [Local.after_log] at hsmall
    exact hs (hsmall.of_prefix (List.prefix_append _ _))
  · intro s c hs
    unfold LookupPre
    split
    case h_1 n => exact fun hsmall => absurd hsmall hs
    case h_2 => trivial

/-- What is read from the memory may be looked up. -/
theorem looks_read {f : Mem → Code α} (hf : ∀ m, Indexed m → Looks (f m)) :
    Looks (Code.get >>= f) := by
  intro l m h
  by_cases hsmall : SmallStatuses l.log
  · exact hf m (h hsmall) l m h
  · exact wp_of_not_small hsmall

/-- What `waitpid` reports is small. -/
theorem looks_waitpid {pid : Nat} {untraced : Bool} {f : Option Nat → Code α}
    (hf : ∀ status, (∀ st ∈ status, SmallStatus st) → Looks (f status)) :
    Looks (Code.call (.waitpid pid untraced : Call) >>= f) := by
  intro l m h
  rw [Code.wp_bind, Code.wp_call]
  refine ⟨trivial, fun status _ => ?_⟩
  by_cases hsmall : SmallStatuses (l.after (.waitpid pid untraced : Call) status).log
  · refine hf status ?_ _ m fun _ => h ?_
    · rintro st hst
      obtain rfl := Option.mem_def.mp hst
      refine hsmall pid untraced st ?_
      rw [Local.after_log]
      exact List.mem_append_right _ (List.mem_singleton_self _)
    · rw [Local.after_log] at hsmall
      exact hsmall.of_prefix (List.prefix_append _ _)
  · exact wp_of_not_small hsmall

/-! ## `yerr.h` -/

theorem looks_ystrerr {n : Int} (hn : InTable n) : Looks (ystrerr n) := by
  intro l m h
  rw [wp_ystrerr]
  exact ⟨fun _ => hn, fun hsmall => h (hsmall.of_prefix (List.prefix_append _ _))⟩

theorem looks_yreturn {n : Int} (hn : InTable n) : Looks (yreturn n) :=
  looks_bind (looks_ystrerr hn) fun _ =>
    looks_bind (looks_modify fun _ h => ⟨hn, h.status⟩) fun _ => looks_pure n

theorem looks_yexit {n : Int} (hn : InTable n) : Looks (yexit n : Code α) :=
  looks_bind (looks_ystrerr hn) fun _ => looks_exit n

theorem looks_yreturnYerrno : Looks yreturnYerrno :=
  looks_read fun _ h => looks_yreturn h.yerrno

theorem looks_yexitYerrno : Looks (yexitYerrno : Code α) :=
  looks_read fun _ h => looks_yexit h.yerrno

end

/-! ## The pieces without a child -/

section

theorem looks_runHookChain {H : Type} {hook : H → Code Int} (hhook : ∀ h, Looks (hook h)) :
    ∀ chain : List H, Looks (runHookChain hook chain)
  | [] => looks_pure 0
  | h :: next => looks_check (hhook h) looks_yreturnYerrno (looks_runHookChain hhook next)

theorem looks_setRlimit (type : Rlimit) (cur max : UInt64) : Looks (setRlimit type cur max) :=
  looks_test (looks_call (by simp)) (looks_pure 0) (looks_yreturn (by decide))

theorem looks_limitField {field : Int32} {type : Rlimit} {cur max : UInt64} {next : Code Int}
    (hnext : Looks next) : Looks (limitField field type cur max next) :=
  looks_ite (looks_check (looks_setRlimit type cur max) looks_yreturnYerrno hnext) hnext

theorem looks_applyResourceLimit : Looks applyResourceLimit := by
  refine looks_bind looks_get fun m => ?_
  refine looks_ite (looks_yreturn (by decide)) ?_
  refine looks_limitField (looks_limitField (looks_limitField (looks_limitField ?_)))
  exact looks_limitField (looks_pure 0)

theorem looks_applyPolicy : Looks applyPolicy := by
  refine looks_bind looks_get fun m => ?_
  refine looks_test (looks_call (by simp)) ?_ (looks_yreturn (by decide))
  exact looks_test (looks_call (by simp)) (looks_pure 0) (looks_yreturn (by decide))

theorem looks_compilePolicyBeforeFork : Looks compilePolicyBeforeFork := by
  refine looks_bind looks_get fun m => ?_
  cases m.ctxt.pctxt.content with
  | none => exact looks_undefined
  | some content =>
      refine looks_bind (looks_ask (by simp)) fun numStr => ?_
      simp only
      cases hout : policyIdentifierHandler (cString content) m.ctxt.ectxt.argv numStr with
      | overrun => exact looks_undefined
      | error errnum =>
          obtain rfl := policyIdentifierHandler_error hout
          exact looks_bind (looks_yreturn (by decide)) fun _ => looks_yreturnYerrno
      | done escContent selected =>
          refine looks_bind (looks_ask (by simp)) fun prog => ?_
          cases prog with
          | none => exact looks_yreturn (by decide)
          | some prog => exact looks_bind (looks_modifyCtxt fun _ => rfl) fun _ => looks_pure 0

theorem looks_startKillerAfterFork : Looks startKillerAfterFork := by
  refine looks_bind looks_get fun m => looks_ite (looks_pure 0) ?_
  refine looks_bind (looks_bind (looks_call (by simp)) fun tid => ?_) fun _ =>
    looks_bind (looks_modify fun _ h => ⟨h.yerrno, h.status⟩) fun _ =>
      looks_bind (looks_modify fun _ h => ⟨h.yerrno, h.status⟩) fun _ => looks_pure 0
  cases tid with
  | none => exact looks_ask (by simp)
  | some tid => exact looks_pure tid

theorem looks_stopKillerAfterWait : Looks stopKillerAfterWait := by
  refine looks_bind looks_get fun m => looks_ite (looks_pure 0) (looks_ite ?_ (looks_pure 0))
  refine looks_bind ?_ fun _ => looks_pure 0
  refine looks_bind (looks_call (by simp)) fun cancelled => ?_
  exact looks_bind (looks_call (by simp)) fun joined => looks_pure _

/-- The warning looks up an exit status that is in the table. -/
theorem looks_analyzeAfterWait : Looks analyzeAfterWait := by
  refine looks_bind (looks_modifyCtxt fun _ => rfl) fun _ => looks_read fun m h => ?_
  refine looks_ite (looks_bind (looks_modifyCtxt fun _ => rfl) fun _ => looks_pure 0) ?_
  by_cases hex : wifexited m.ctxt.status = true
  · rw [if_pos hex]
    have hset : Looks (do
        modifyCtxt fun ctxt => setExitcodeStatus ctxt (wexitstatus ctxt.status)
        return 0 : Code Int) := looks_bind (looks_modifyCtxt fun _ => rfl) fun _ => looks_pure 0
    have hsmall : InTable (wexitstatus m.ctxt.status) := by
      have hle := h.status hex
      exact ⟨Int.natCast_nonneg _, by omega⟩
    exact looks_ite (looks_bind (looks_ystrerr hsmall) fun _ => hset) hset
  · rw [if_neg hex]
    exact looks_pure 0

theorem looks_hookFn (h : Hook) : Looks (hookFn h) := by
  cases h with
  | initResultBeforeFork =>
      refine looks_bind (looks_modifyResult _) fun _ => looks_bind looks_get fun m => ?_
      exact looks_test (looks_call (by simp)) (looks_pure 0) (looks_yreturn (by decide))
  | compilePolicyBeforeFork => exact looks_compilePolicyBeforeFork
  | startKillerAfterFork => exact looks_startKillerAfterFork
  | timerAfterFork =>
      refine looks_bind (looks_ask (by simp)) fun now => ?_
      exact looks_bind (looks_modify fun _ h => ⟨h.yerrno, h.status⟩) fun _ => looks_pure 0
  | analyzeAfterWait => exact looks_analyzeAfterWait
  | stopKillerAfterWait => exact looks_stopKillerAfterWait
  | getUsageAfterWait =>
      refine looks_bind (looks_ask (by simp)) fun ru => ?_
      cases ru with
      | none => exact looks_yreturn (by decide)
      | some ru =>
          refine looks_bind (looks_modifyCtxt fun _ => rfl) fun _ => ?_
          exact looks_bind (looks_modifyResult _) fun _ => looks_pure 0
  | timerAfterWait =>
      refine looks_bind (looks_ask (by simp)) fun now => ?_
      refine looks_bind (looks_modify fun _ h => ⟨h.yerrno, h.status⟩) fun _ => ?_
      refine looks_bind looks_get fun m => ?_
      exact looks_bind (looks_modifyResult _) fun _ => looks_pure 0

end

/-! ## The judgers -/

section
variable {α : Type}

theorem looks_fork : Looks fork := by
  refine looks_bind (looks_call (by simp)) fun f => ?_
  cases f with
  | failed | parent | child => exact looks_pure _

theorem looks_sendSignal (p : Nat × Nat) (signal : Int) : Looks (sendSignal p signal) :=
  looks_call (by simp)

theorem looks_waitSignal (p : Nat × Nat) : Looks (waitSignal p) := by
  refine looks_bind (looks_call (by simp)) fun signal => ?_
  cases signal with
  | none | some signal => exact looks_pure _

theorem looks_judgerStart : Looks judgerStart :=
  looks_bind (looks_call (by simp)) fun _ => looks_modifyCtxt fun _ => rfl

theorem looks_chain (type : HookCtxt Hook → List Hook) :
    Looks (do let m ← Code.get; runHookChain hookFn (type m.ctxt.hctxt)) :=
  looks_bind looks_get fun _ => looks_runHookChain looks_hookFn _

theorem looks_beforeFork : Looks beforeFork :=
  looks_bind (looks_modifyCtxt fun _ => rfl) fun _ => looks_chain HookCtxt.beforeFork

theorem looks_runnerPrework : Looks runnerPrework := by
  refine looks_bind looks_get fun m => looks_ite (looks_yreturn (by decide)) ?_
  refine looks_bind (looks_call (by simp)) fun inputFd => ?_
  refine looks_bind (looks_call (by simp)) fun outputFd => ?_
  refine looks_bind (looks_call (by simp)) fun errorFd => ?_
  cases inputFd with
  | none => exact looks_yreturn (by decide)
  | some inputFd =>
      cases outputFd with
      | none => exact looks_yreturn (by decide)
      | some outputFd =>
          cases errorFd with
          | none => exact looks_yreturn (by decide)
          | some errorFd =>
              refine looks_test (looks_call (by simp)) ?_ (looks_yreturn (by decide))
              refine looks_test (looks_call (by simp)) ?_ (looks_yreturn (by decide))
              exact looks_test (looks_call (by simp)) (looks_pure 0) (looks_yreturn (by decide))

theorem looks_generalChild (pRun : Nat × Nat) : Looks (generalChild pRun) := by
  refine looks_bind (looks_call (by simp)) fun pid => ?_
  refine looks_bind (looks_modifyCtxt fun _ => rfl) fun _ => ?_
  refine looks_test (looks_call (by simp)) ?_ ?_
  · refine looks_check ?_ ?_ ?_
    · refine looks_check looks_runnerPrework looks_yreturnYerrno ?_
      refine looks_check looks_applyResourceLimit looks_yreturnYerrno ?_
      exact looks_check looks_applyPolicy looks_yreturnYerrno (looks_pure 0)
    · exact looks_bind (looks_sendSignal pRun failed) fun _ => looks_yexitYerrno
    · refine looks_bind (looks_sendSignal pRun ready) fun _ => ?_
      refine looks_bind ?_ fun _ => looks_yexit (by decide)
      exact looks_bind looks_get fun m => looks_call (by simp)
  · exact looks_bind (looks_sendSignal pRun failed) fun _ => looks_yexit (by decide)

/-- The status is stored, and then it is looked up. -/
theorem looks_judgerParent (pRun : Nat × Nat) (childPid : Int) :
    Looks (judgerParent pRun childPid) := by
  refine looks_bind (looks_modifyCtxt fun _ => rfl) fun _ => ?_
  refine looks_check (looks_waitSignal pRun) (looks_yreturn (by decide)) ?_
  refine looks_bind looks_get fun m => ?_
  refine looks_check (looks_runHookChain looks_hookFn _) looks_yreturnYerrno ?_
  refine looks_waitpid fun status hsmall => ?_
  cases status with
  | none => exact looks_bind (looks_call (by simp)) fun _ => looks_yreturn (by decide)
  | some status =>
      refine looks_bind (looks_modify fun m h => ⟨h.yerrno, hsmall status rfl⟩) fun _ => ?_
      refine looks_bind looks_get fun m => ?_
      exact looks_check (looks_runHookChain looks_hookFn _) looks_yreturnYerrno (looks_pure 0)

theorem looks_yexitNotready {n : Int} (hn : InTable n) (spipe : Nat × Nat) :
    Looks (yexitNotready n spipe : Code α) :=
  looks_bind (looks_sendSignal spipe failed) fun _ => looks_yexit hn

theorem looks_yexitNotreadyYerrno (spipe : Nat × Nat) :
    Looks (yexitNotreadyYerrno spipe : Code α) :=
  looks_read fun _ h => looks_yexitNotready h.yerrno spipe

theorem looks_errorPrework (i : Nat) : Looks (errorPrework i) := by
  refine looks_bind looks_get fun m => looks_bind (looks_call (by simp)) fun errorFd => ?_
  cases errorFd with
  | none => exact looks_yreturn (by decide)
  | some errorFd =>
      exact looks_test (looks_call (by simp)) (looks_pure 0) (looks_yreturn (by decide))

theorem looks_executableBranch (itoe etoi iRun : Nat × Nat) :
    Looks (executableBranch itoe etoi iRun : Code α) := by
  refine looks_test (looks_call (by simp)) ?_ (looks_yexitNotready (by decide) iRun)
  refine looks_test (looks_call (by simp)) ?_ (looks_yexitNotready (by decide) iRun)
  refine looks_check (looks_errorPrework 5) (looks_yexitNotreadyYerrno iRun) ?_
  refine looks_check looks_applyResourceLimit (looks_yexitNotreadyYerrno iRun) ?_
  refine looks_check looks_applyPolicy (looks_yexitNotreadyYerrno iRun) ?_
  refine looks_bind (looks_sendSignal iRun ready) fun _ => ?_
  refine looks_bind ?_ fun _ => looks_exit eExec
  exact looks_bind looks_get fun m => looks_call (by simp)

theorem looks_interactorBranch (pRun itoe etoi iRun : Nat × Nat) :
    Looks (interactorBranch pRun itoe etoi iRun : Code α) := by
  refine looks_test (looks_call (by simp)) ?_ (looks_yexitNotready (by decide) pRun)
  refine looks_test (looks_call (by simp)) ?_ (looks_yexitNotready (by decide) pRun)
  refine looks_check (looks_errorPrework 4) (looks_yexitNotreadyYerrno pRun) ?_
  refine looks_check looks_applyPolicy (looks_yexitNotreadyYerrno pRun) ?_
  refine looks_check (looks_waitSignal iRun) (looks_yexitNotready (by decide) pRun) ?_
  refine looks_bind (looks_sendSignal pRun ready) fun _ => ?_
  refine looks_bind ?_ fun _ => looks_exit eExec
  exact looks_bind looks_get fun m => looks_call (by simp)

/-- A pipe between the processes of an interactive judgement. -/
theorem looks_pipe {x : Nat × Nat → Code α} (pRun : Nat × Nat) (hx : ∀ ends, Looks (x ends)) :
    Looks (do
      match ← Code.call .pipe with
      | none => yexitNotready ePipe pRun
      | some ends => x ends) := by
  refine looks_bind (looks_call (by simp)) fun ends => ?_
  cases ends with
  | none => exact looks_yexitNotready (by decide) pRun
  | some ends => exact hx ends

theorem looks_childProcess (pRun : Nat × Nat) : Looks (childProcess pRun : Code α) := by
  refine looks_bind (looks_call (by simp)) fun pid => ?_
  refine looks_bind (looks_modifyCtxt fun _ => rfl) fun _ => ?_
  refine looks_bind (looks_call (by simp)) fun _ => ?_
  refine looks_pipe pRun fun itoe => looks_pipe pRun fun etoi => looks_pipe pRun fun iRun => ?_
  refine looks_bind looks_fork fun execPid => ?_
  exact looks_ite (looks_executableBranch itoe etoi iRun)
    (looks_interactorBranch pRun itoe etoi iRun)

/-- A judger, whatever its child does. -/
theorem looks_forked {child : Nat × Nat → Code Int} (hchild : ∀ pRun, Looks (child pRun))
    (pRun : Nat × Nat) : Looks (do
      if (← beforeFork) ≠ 0 then yreturnYerrno
      else
        let childPid ← fork
        if childPid < 0 then yreturn eFork
        else if childPid = 0 then child pRun
        else judgerParent pRun childPid) := by
  refine looks_check looks_beforeFork looks_yreturnYerrno ?_
  refine looks_bind looks_fork fun childPid => looks_ite (looks_yreturn (by decide)) ?_
  exact looks_ite (hchild pRun) (looks_judgerParent pRun childPid)

theorem looks_judger (j : Judger) : Looks j.code := by
  cases j with
  | general =>
      refine looks_bind looks_judgerStart fun _ => looks_bind (looks_call (by simp)) fun pRun => ?_
      cases pRun with
      | none => exact looks_yreturn (by decide)
      | some pRun => exact looks_forked looks_generalChild pRun
  | interactive =>
      refine looks_bind looks_judgerStart fun _ => looks_bind (looks_call (by simp)) fun pRun => ?_
      cases pRun with
      | none => exact looks_yreturn (by decide)
      | some pRun =>
          refine looks_bind looks_get fun m => looks_ite (looks_yreturn (by decide)) ?_
          exact looks_forked looks_childProcess pRun

end

/-! ## The command line -/

theorem looks_yjudgerSetLimit (type : Int) (lim : Int32) : Looks (yjudgerSetLimit type lim) := by
  rw [yjudgerSetLimit]
  cases RsclimType.ofInt type with
  | none =>
      have hn : InTable eHelperInvalidLim := by decide
      exact looks_bind (looks_modify fun _ h => ⟨hn, h.status⟩) fun _ => looks_pure _
  | some type => exact looks_bind (looks_modifyCtxt fun _ => rfl) fun _ => looks_pure 0

theorem looks_setIfGiven (type : RsclimType) (unit : Int32) (arg : Option Int32) :
    Looks (setIfGiven type unit arg) := by
  cases arg with
  | none => exact looks_pure ()
  | some arg => exact looks_bind (looks_yjudgerSetLimit _ _) fun _ => looks_pure ()

theorem looks_mainLimits (args : ArgsInfo) : Looks (mainLimits args) := by
  refine looks_bind (looks_setIfGiven _ _ _) fun _ => ?_
  refine looks_bind (looks_setIfGiven _ _ _) fun _ => ?_
  refine looks_bind (looks_setIfGiven _ _ _) fun _ => ?_
  refine looks_bind (looks_setIfGiven _ _ _) fun _ => ?_
  refine looks_bind (looks_setIfGiven _ _ _) fun _ => ?_
  refine looks_bind (looks_setIfGiven _ _ _) fun _ => ?_
  refine looks_bind (looks_setIfGiven _ _ _) fun _ => ?_
  refine looks_bind (looks_setIfGiven _ _ _) fun _ => ?_
  exact looks_setIfGiven _ _ _

theorem looks_mainLog (log : Option Bytes) : Looks (mainLog log) := by
  cases log with
  | none => exact looks_pure ()
  | some filename =>
      refine looks_check (looks_bind (looks_ask (by simp)) fun fp => ?_) (looks_exit 1)
        (looks_pure ())
      cases fp with
      | none => exact looks_bind (looks_ystrerr (by decide)) fun _ => looks_undefined
      | some fp =>
          exact looks_bind (looks_modify fun _ h => ⟨h.yerrno, h.status⟩) fun _ => looks_pure 0

theorem looks_mainResultCode (result : Option Bytes) : Looks (mainResultCode result) := by
  cases result with
  | none => exact looks_pure (-1)
  | some arg =>
      refine looks_bind ?_ fun code => looks_pure _
      rw [atorc]
      split
      · exact looks_pure _
      · exact looks_exit 1

theorem looks_ftos (fp : Nat) : Looks (ftos fp) := by
  refine looks_bind (looks_ask (by simp)) fun size => looks_bind (looks_ask (by simp)) fun s => ?_
  exact looks_bind (looks_ask (by simp)) fun _ => looks_pure _

theorem looks_writePolicies (tdir : Bytes) : ∀ list : List BuiltinPolicy,
    Looks (writePolicies tdir list)
  | [] => looks_pure 0
  | p :: list => by
      refine looks_bind (looks_ask (by simp)) fun fp => ?_
      cases fp with
      | none => exact looks_yreturn (by decide)
      | some fp =>
          refine looks_bind (looks_ask (by simp)) fun n => looks_ite (looks_yreturn (by decide)) ?_
          exact looks_bind (looks_ask (by simp)) fun _ => looks_writePolicies tdir list

/-- By induction on the rounds of `builtin:`. -/
theorem looks_policySet (list : List BuiltinPolicy) (n : Nat) : ∀ {dirname policy : Bytes},
    policy.length = n → Looks (policySet list dirname policy) := by
  induction n using Nat.strong_induction_on with
  | _ n ih =>
      intro dirname policy hn
      rw [policySet]
      cases hb : isBuiltinPolicy policy with
      | false =>
          rw [dif_neg (by simp)]
          refine looks_bind (looks_ask (by simp)) fun fp => ?_
          cases fp with
          | none => exact looks_yreturn (by decide)
          | some fp =>
              refine looks_bind (looks_ftos fp) fun content => ?_
              exact looks_bind (looks_modifyCtxt fun _ => rfl) fun _ => looks_pure 0
      | true =>
          rw [dif_pos rfl, policySetBuiltin]
          refine looks_bind (looks_ask (by simp)) fun tdir => ?_
          cases tdir with
          | none => exact looks_yreturn (by decide)
          | some tdir =>
              refine looks_bind (looks_writePolicies tdir list) fun flag => ?_
              refine looks_ite (looks_pure flag) ?_
              refine looks_bind (looks_modifyCtxt fun _ => rfl) fun _ => ih _ ?_ rfl
              have hlen := length_of_isBuiltinPolicy hb
              rw [List.length_drop]
              omega

theorem looks_yjudgerForkexec {fn : Code Int} (hfn : Looks fn) (garbage page : Image) :
    Looks (yjudgerForkexec fn garbage page) := by
  refine looks_bind looks_fork fun pid => looks_ite ?_ ?_
  · exact looks_bind hfn fun flag => looks_exit flag
  · refine looks_waitpid fun status _ => ?_
    cases status with
    | none => exact looks_bind (looks_call (by simp)) fun _ => looks_pure _
    | some status => exact looks_pure _

theorem looks_mainJudge (args : CliArgs) (garbage page : Image) :
    Looks (mainJudge args garbage page) := by
  rw [mainJudge]
  cases Judger.ofName args.judger with
  | none => exact looks_exit 1
  | some j =>
      refine looks_ite (looks_yjudgerForkexec (looks_judger j) garbage page) ?_
      refine looks_bind (looks_judger j) fun _ => looks_bind looks_get fun m => ?_
      exact looks_ite (looks_pure _) (looks_pure _)

theorem looks_mainResult (args : CliArgs) (env : List Bytes) (garbage page : Image) (flag : Int) :
    Looks (mainResult args env garbage page flag) := by
  refine looks_ite (looks_pure _) (looks_bind ?_ fun _ => ?_)
  · exact looks_bind (looks_modifyCtxt fun _ => rfl) fun _ => looks_pure 0
  · exact looks_bind (looks_mainJudge args garbage page) fun _ => looks_pure _

theorem looks_mainReport {judged : Code Image} (hjudged : Looks judged) :
    Looks (mainReport judged) := by
  refine looks_bind hjudged fun result => looks_read fun m h => ?_
  exact looks_ite (looks_bind (looks_ystrerr h.yerrno) fun _ => looks_pure _) (looks_pure _)

theorem looks_removeEntries (path : Bytes) : ∀ names : List Bytes, Looks (removeEntries path names)
  | [] => looks_pure 0
  | name :: names => by
      refine looks_ite (looks_removeEntries path names) ?_
      refine looks_bind (looks_ask (by simp)) fun isDir => ?_
      exact looks_test (looks_ask (by simp)) (looks_removeEntries path names)
        (looks_yreturn (by decide))

theorem looks_rmtreeDepth1 (path : Option Bytes) : Looks (rmtreeDepth1 path) := by
  cases path with
  | none => exact looks_undefined
  | some path =>
      refine looks_test (looks_ask (by simp)) ?_ (looks_yreturn (by decide))
      refine looks_bind (looks_ask (by simp)) fun names => ?_
      cases names with
      | none => exact looks_yreturn (by decide)
      | some names =>
          refine looks_bind (looks_removeEntries path names) fun flag => ?_
          refine looks_ite (looks_pure flag) (looks_test (looks_ask (by simp)) ?_ ?_)
          · exact looks_bind (looks_ask (by simp)) fun _ => looks_pure 0
          · exact looks_yreturn (by decide)

theorem looks_yjudgerCtxtFree : Looks yjudgerCtxtFree := by
  refine looks_bind looks_get fun m => looks_ite ?_ (looks_pure ())
  exact looks_bind (looks_rmtreeDepth1 _) fun _ => looks_pure ()

theorem looks_cliMain (list : List BuiltinPolicy) (args : CliArgs) (env : List Bytes)
    (garbage page : Image) : Looks (cliMain list args env garbage page) := by
  refine looks_bind (looks_mainLog args.log) fun _ => ?_
  refine looks_bind (looks_mainLimits args.limits) fun _ => ?_
  refine looks_bind (looks_mainResultCode args.result) fun resultCode => ?_
  refine looks_bind (looks_policySet list _ rfl) fun flag => ?_
  refine looks_bind (looks_mainResult args env garbage page flag) fun judged => ?_
  refine looks_bind (looks_mainReport (looks_pure _)) fun result => ?_
  exact looks_bind looks_yjudgerCtxtFree fun _ => looks_pure _

/-! ## Every run -/

/-- Is it no report of an exit with more than 26? -/
def smallExit : JEvent → Bool
  | ⟨.waitpid _ _, some status⟩ => SmallStatus status
  | _ => true

/-- No `waitpid` reports an exit with more than 26. -/
def smallReported {α : Type} (w : World judgerIface α) : Act judgerIface → Bool
  | .sys i o => (w.nextEvent i o).all smallExit
  | _ => true

section
variable {list : List BuiltinPolicy} {args : CliArgs} {env : List Bytes} {garbage page : Image}
  {result : YjudgerResult} {rusage : Rusage} {logFd pgid : Nat} {t : FdTable}
  {w : World judgerIface (Outputs × Mem)}

/-- **Every lookup is inside the table** in every process of every run in which no
program that is waited for exits with more than 26. -/
theorem lookups_inside
    (hr : Reaches killers (fun w a => smallReported w a = true)
      (World.init t (cliMain list args env garbage page
        (Mem.create (yjudgerCtxtCreate result rusage) logFd)) pgid) w) {j : Nat}
    {q : Proc judgerIface (Outputs × Mem)} (hj : w.procs j = some q) {n : Int}
    (hn : said n ∈ q.loc.log) : InTable n := by
  have hy : InTable 0 := by decide
  have hst : ¬ wifexited (2 ^ 32 - 1) = true := by decide
  have hindexed : Indexed (Mem.create (yjudgerCtxtCreate result rusage) logFd) :=
    ⟨hy, fun hex => absurd hex hst⟩
  have hwp := looks_cliMain list args env garbage page (.start t) _ fun _ => hindexed
  obtain ⟨before, after, hlog⟩ := List.append_of_mem hn
  obtain ⟨l₁, hbefore, hpre⟩ := paid hwp (hr.positioned hj) hlog
  refine hpre ?_
  have hsmall : SmallStatuses q.loc.log := by
    intro pid untraced status he
    refine of_decide_eq_true (hr.all_events (P := fun e => smallExit e = true) ?_ ?_ hj _ he)
    · exact fun _ => rfl
    · intro w i o e hok hnext
      simpa [smallReported, hnext] using hok
  rw [hbefore]
  exact hsmall.of_prefix ⟨_, hlog.symm⟩

end

/-! ## Two runs -/

/-- Is it a lookup of `n`? -/
def looksUp (n : Int) : JEvent → Bool
  | ⟨.ask (.strerr k), _⟩ => k == n
  | _ => false

theorem said_of_looksUp {n : Int} {es : List JEvent} (h : es.any (looksUp n) = true) :
    said n ∈ es := by
  obtain ⟨e, he, hn⟩ := List.any_eq_true.mp h
  unfold looksUp at hn
  split at hn
  case h_1 k r =>
    obtain rfl := eq_of_beq hn
    exact he
  case h_2 => cases hn

/-- Files can be opened, and are empty. -/
def fileAnswers : (q : Ask) → q.Ans
  | .fopen _ _ => some 5
  | q => sampleAnswers q

/-- `-j general -p a -P . -r SE --json`, with four runner arguments. -/
def fourArgs : CliArgs :=
  { sampleArgs with inputs := List.replicate 4 { addr := 4096, text := [97] } }

/-- The policy is loaded, the child gets to its `execve`, and the program exits with
`status`; the parent gets to the last hook. -/
def exitActs (status : Int) : List (Act judgerIface) :=
  List.replicate 4 (.sys 1 (.answer fileAnswers)) ++ launchActs ++ okActs 2 12 ++
    [.quit 2 status] ++ okActs 1 1 ++ askActs 1 1 ++ okActs 1 1 ++ askActs 1 3

theorem saidIn_of_any {w : World judgerIface (Outputs × Mem)} {n : Int}
    (h : ((w.procs 1).any fun q => q.loc.log.any (looksUp n)) = true) :
    ∃ q, w.procs 1 = some q ∧ said n ∈ q.loc.log := by
  cases hq : w.procs 1 with
  | none => rw [hq] at h; cases h
  | some q =>
      rw [hq] at h
      exact ⟨q, rfl, said_of_looksUp h⟩

/-- A program that exits with 3 has the judger look up message 3. -/
theorem lookups_inside_exit : ∃ w q,
    Reaches killers (fun w a => smallReported w a = true) (World.init (.inheritedBelow 4)
      (cliMain [] fourArgs [] (fun _ => 0) (fun _ => 0) cliStart) 1) w ∧
    w.procs 1 = some q ∧ said 3 ∈ q.loc.log ∧ InTable 3 := by
  have hrun : ((World.init (.inheritedBelow 4)
      (cliMain [] fourArgs [] (fun _ => 0) (fun _ => 0) cliStart) 1).runIf killers
      smallReported (exitActs 3)).any
        (fun w => (w.procs 1).any fun q => q.loc.log.any (looksUp 3)) = true := by
    decide +kernel
  obtain ⟨w, hr, hw⟩ := reaches_of_anyIf hrun
  obtain ⟨q, hq, hsaid⟩ := saidIn_of_any hw
  exact ⟨w, q, hr, hq, hsaid, lookups_inside hr hq hsaid⟩

/-- One that exits with 200 has it look up message 200. -/
theorem lookup_outside : ∃ w q,
    Reaches killers Always (World.init (.inheritedBelow 4)
      (cliMain [] fourArgs [] (fun _ => 0) (fun _ => 0) cliStart) 1) w ∧
    w.procs 1 = some q ∧ said 200 ∈ q.loc.log ∧ ¬ InTable 200 := by
  have hrun : ((World.init (.inheritedBelow 4)
      (cliMain [] fourArgs [] (fun _ => 0) (fun _ => 0) cliStart) 1).run killers
      (exitActs 200)).any (fun w => (w.procs 1).any fun q => q.loc.log.any (looksUp 200)) =
        true := by
    decide +kernel
  obtain ⟨w, hr, hw⟩ := reaches_of_any hrun
  obtain ⟨q, hq, hsaid⟩ := saidIn_of_any hw
  exact ⟨w, q, hr, hq, hsaid, by decide⟩

end YaojJudger
