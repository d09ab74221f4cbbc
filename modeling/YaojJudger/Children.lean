/-
# `YaojJudger.Children` — what only the first process does

The processes that a judger forks mark no descriptor close-on-exec, create no
thread and use none, read no clock and wait for nobody (`ChildCall`); so a process
that does is process 1 (`first_only`).
-/
import YaojJudger.Posix.Given
import YaojJudger.Signals

namespace YaojJudger

open Posix

/-- The calls that are given a thread. -/
def usesHandle : Call → Bool
  | .pthreadCancel _ | .pthreadJoin _ => true
  | _ => false

/-- The calls of the children. -/
structure ChildCall (c : Call) : Prop where
  unmarked : c.marks = false
  clock : startsClock c = false
  unhandled : usesHandle c = false

/-- Only a process without lineage makes the calls of `P`. -/
def FirstOnly (P : Call → Bool) (l : JLocal) (c : Call) : Prop := P c = true → lineage l.log = []

theorem Prework.childCall {n : Nat} {c : Call} (h : Prework n c) : ChildCall c := by
  refine ⟨?_, h.confining.clock, ?_⟩
  · cases c with
    | setCloexec => exact h.elim
    | _ => rfl
  · cases c with
    | pthreadCancel | pthreadJoin => exact h.elim
    | _ => rfl

/-! ## The branches of the children -/

section
variable {α : Type}

theorem within_yexit (errnum : Int) : Code.Within ChildCall (yexit errnum : Code α) :=
  Code.within_bind (Code.within_call ⟨rfl, rfl, rfl⟩) fun _ => Code.within_exit _

theorem within_yexitNotready (code : Int) (spipe : Nat × Nat) :
    Code.Within ChildCall (yexitNotready code spipe : Code α) :=
  Code.within_bind (Code.within_call ⟨rfl, rfl, rfl⟩) fun _ => within_yexit _

theorem within_yexitNotreadyYerrno (spipe : Nat × Nat) :
    Code.Within ChildCall (yexitNotreadyYerrno spipe : Code α) :=
  Code.within_bind Code.within_get fun _ => within_yexitNotready _ _

/-- One step of the confinement, then `y`; `z` is what is done if it fails. -/
theorem within_prework {n : Nat} {x : Code Int} {y z : Code α} (hx : Code.Only (Prework n) x)
    (hz : Code.Within ChildCall z) (hy : Code.Within ChildCall y) :
    Code.Within ChildCall (do if (← x) ≠ 0 then z else y) :=
  Code.within_bind (hx.mono fun _ => Prework.childCall).within fun _ => Code.within_ite hz hy

theorem within_generalChild (pRun : Nat × Nat) : Code.Within ChildCall (generalChild pRun) := by
  refine Code.within_bind (Code.within_call ⟨rfl, rfl, rfl⟩) fun pid => ?_
  refine Code.within_bind (Code.within_modify _) fun _ => ?_
  refine Code.within_bind (Code.within_call ⟨rfl, rfl, rfl⟩) fun r => Code.within_ite ?_ ?_
  · refine within_prework only_childPrework ?_ ?_
    · exact Code.within_bind (Code.within_call ⟨rfl, rfl, rfl⟩) fun _ =>
        Code.within_bind Code.within_get fun _ => within_yexit _
    · refine Code.within_bind (Code.within_call ⟨rfl, rfl, rfl⟩) fun _ => ?_
      refine Code.within_bind (Code.within_bind Code.within_get fun _ => ?_) fun _ =>
        within_yexit _
      exact Code.within_call ⟨rfl, rfl, rfl⟩
  · exact Code.within_bind (Code.within_call ⟨rfl, rfl, rfl⟩) fun _ => within_yexit _

theorem within_executableBranch (itoe etoi iRun : Nat × Nat) :
    Code.Within ChildCall (executableBranch itoe etoi iRun : Code α) := by
  refine Code.within_bind (Code.within_call ⟨rfl, rfl, rfl⟩) fun r =>
    Code.within_ite ?_ (within_yexitNotready _ _)
  refine Code.within_bind (Code.within_call ⟨rfl, rfl, rfl⟩) fun r' =>
    Code.within_ite ?_ (within_yexitNotready _ _)
  refine within_prework (only_errorPrework 5) (within_yexitNotreadyYerrno _) ?_
  refine within_prework (n := 3) only_applyResourceLimit (within_yexitNotreadyYerrno _) ?_
  refine within_prework (n := 3) only_applyPolicy (within_yexitNotreadyYerrno _) ?_
  refine Code.within_bind (Code.within_call ⟨rfl, rfl, rfl⟩) fun _ => ?_
  refine Code.within_bind (Code.within_bind Code.within_get fun _ => ?_) fun _ => Code.within_exit _
  exact Code.within_call ⟨rfl, rfl, rfl⟩

theorem within_waitSignal (p : Nat × Nat) : Code.Within ChildCall (waitSignal p) := by
  refine Code.within_bind (Code.within_call ⟨rfl, rfl, rfl⟩) fun v => ?_
  cases v with
  | none => exact Code.within_pure _
  | some v => exact Code.within_pure _

theorem within_interactorBranch (pRun itoe etoi iRun : Nat × Nat) :
    Code.Within ChildCall (interactorBranch pRun itoe etoi iRun : Code α) := by
  refine Code.within_bind (Code.within_call ⟨rfl, rfl, rfl⟩) fun r =>
    Code.within_ite ?_ (within_yexitNotready _ _)
  refine Code.within_bind (Code.within_call ⟨rfl, rfl, rfl⟩) fun r' =>
    Code.within_ite ?_ (within_yexitNotready _ _)
  refine within_prework (only_errorPrework 4) (within_yexitNotreadyYerrno _) ?_
  refine within_prework (n := 3) only_applyPolicy (within_yexitNotreadyYerrno _) ?_
  refine Code.within_bind (within_waitSignal _) fun v =>
    Code.within_ite (within_yexitNotready _ _) ?_
  refine Code.within_bind (Code.within_call ⟨rfl, rfl, rfl⟩) fun _ => ?_
  refine Code.within_bind (Code.within_bind Code.within_get fun _ => ?_) fun _ => Code.within_exit _
  exact Code.within_call ⟨rfl, rfl, rfl⟩

theorem within_fork : Code.Within ChildCall fork := by
  refine Code.within_bind (Code.within_call ⟨rfl, rfl, rfl⟩) fun r => ?_
  cases r with
  | failed | parent | child => exact Code.within_pure _

theorem within_childProcess (pRun : Nat × Nat) :
    Code.Within ChildCall (childProcess pRun : Code α) := by
  refine Code.within_bind (Code.within_call ⟨rfl, rfl, rfl⟩) fun pid => ?_
  refine Code.within_bind (Code.within_modify _) fun _ => ?_
  refine Code.within_bind (Code.within_call ⟨rfl, rfl, rfl⟩) fun _ => ?_
  refine Code.within_bind (Code.within_call ⟨rfl, rfl, rfl⟩) fun itoe => ?_
  cases itoe with
  | none => exact within_yexitNotready _ _
  | some itoe =>
    refine Code.within_bind (Code.within_call ⟨rfl, rfl, rfl⟩) fun etoi => ?_
    cases etoi with
    | none => exact within_yexitNotready _ _
    | some etoi =>
      refine Code.within_bind (Code.within_call ⟨rfl, rfl, rfl⟩) fun iRun => ?_
      cases iRun with
      | none => exact within_yexitNotready _ _
      | some iRun =>
        refine Code.within_bind within_fork fun execPid => Code.within_ite ?_ ?_
        · exact within_executableBranch _ _ _
        · exact within_interactorBranch _ _ _ _

end

/-- The parent forks no more. -/
theorem only_judgerParent (pRun : Nat × Nat) (childPid : Int) :
    Code.Only (fun c => c ≠ .fork) (judgerParent pRun childPid) := by
  have hooks : ∀ chain, Code.Only (fun c => c ≠ (.fork : Call)) (runHookChain hookFn chain) :=
    fun chain => (only_hooks chain).mono fun c hc hf => by subst hf; exact hc
  refine Code.only_bind (Code.only_modify _) fun _ => ?_
  refine Code.only_bind (Code.only_bind (Code.only_call (by simp)) fun v => ?_) fun v => ?_
  · cases v with
    | none => exact Code.only_pure _
    | some v => exact Code.only_pure _
  refine Code.only_ite (only_yreturn (by simp)) ?_
  refine Code.only_bind Code.only_get fun m => Code.only_bind (hooks _) fun _ => ?_
  refine Code.only_ite (only_yreturnYerrno (by simp)) ?_
  refine Code.only_bind (Code.only_call (by simp)) fun status => ?_
  cases status with
  | none => exact Code.only_bind (Code.only_call (by simp)) fun _ => only_yreturn (by simp)
  | some status =>
      refine Code.only_bind (Code.only_modify _) fun _ => Code.only_bind Code.only_get fun m => ?_
      refine Code.only_bind (hooks _) fun _ => ?_
      exact Code.only_ite (only_yreturnYerrno (by simp)) (Code.only_pure _)

section
variable {P : Call → Bool}

/-- A process without lineage that forks no more goes on without one. -/
theorem judgerParent_firstOnly {pRun : Nat × Nat} {childPid : Int} {l : JLocal}
    (h : lineage l.log = []) (m : Mem) :
    Code.wp (FirstOnly P) anyExit (judgerParent pRun childPid) (fun _ _ _ => True) l m := by
  have hline : Code.wp (FirstOnly P) anyExit (judgerParent pRun childPid)
      (fun l' _ _ => lineage l'.log = lineage l.log) l m := by
    refine Prog.Only.wp (K := fun l l' => lineage l'.log = lineage l.log) (fun _ => rfl) ?_ ?_
      (only_judgerParent pRun childPid m) l ?_
    · exact fun {_ _ _} h h' => Eq.trans h' h
    · rintro l₁ c r l₂ hc ⟨-, rfl⟩
      refine Local.lineage_after (Event.born_eq_none ?_)
      intro self he
      exact hc (congrArg Event.call he)
    · exact fun l₁ c hl₁ _ _ => hl₁.trans h
  exact Code.wp_post (fun _ _ _ _ => trivial) hline

/-- **What the children do not do, only process 1 does.** -/
theorem judger_firstOnly (hP : ∀ c, ChildCall c → P c = false) (t : FdTable) {m : Mem}
    (hb : BuiltinHooks m.ctxt.hctxt) {x : Code Int}
    (hx : x = yjudgerGeneral ∨ x = yjudgerInteractive) :
    Code.wp (FirstOnly P) anyExit x (fun _ _ _ => True) (.start t) m := by
  have hchild : ∀ (l : JLocal) (c : Call), ChildCall c → FirstOnly P l c := by
    intro l c hc h
    rw [hP c hc] at h
    cases h
  rcases hx with rfl | rfl
  · exact yjudgerGeneral_wp hb (fun hl _ _ => hl.line) (fun hl _ => hl.childless.line)
      (fun _ _ => trivial) (fun l m' _ => (within_generalChild _).wp hchild l m')
      fun l m' c _ hl => judgerParent_firstOnly hl.line m'
  · exact yjudgerInteractive_wp hb (fun hl _ _ => hl.line) (fun hl _ => hl.childless.line)
      (fun _ _ => trivial) (fun l m' _ => (within_childProcess _).wp hchild l m')
      fun l m' c _ hl => judgerParent_firstOnly hl.line m'

theorem first_only (hP : ∀ c, ChildCall c → P c = false) {t : FdTable} {m : Mem}
    (hb : BuiltinHooks m.ctxt.hctxt) {x : Code Int}
    (hx : x = yjudgerGeneral ∨ x = yjudgerInteractive) {pgid : Nat}
    {body : Nat → TkillCtxt → Prog Call Ret Unit} {ok : JWorld → Act judgerIface → Prop}
    {w : JWorld} (hr : Reaches body ok (World.init t (x m) pgid) w) {i : Nat}
    {q : Proc judgerIface (Int × Mem)} (hq : w.procs i = some q) {c : Call}
    {k : Ret c → Prog Call Ret (Int × Mem)} (hc : q.code = .call c k) (hPc : P c = true) :
    i = 1 := by
  by_contra hne
  have hw := hr.wp (judger_firstOnly hP t hb hx) hq
  rw [hc] at hw
  have hlast := hr.lineage_last hq hne
  rw [hw.1 hPc] at hlast
  cases hlast

end

end YaojJudger
