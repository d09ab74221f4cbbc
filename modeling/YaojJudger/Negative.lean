/-
# `YaojJudger.Negative` — negative limits are refused

`apply_resource_limit_rsc` begins with a check that none of six of the seven
fields is negative.  It runs in the process that is to exec, so the refusal
travels from there to the caller:

    general       child       → FAILED → parent
    interactive   executable  → FAILED → interactor → FAILED → parent

`negative_refused` is about every run in which one of the six is negative:
nobody comes to an `execve`, no judger returns 0, and the parent does not get stuck
in the handshake.  The seventh field, `real_time`, is not checked, and a judgement
with a negative one goes through.
-/
import YaojJudger.Handshake

namespace YaojJudger

open Posix World

/-- The condition of the first `if` of `apply_resource_limit_rsc`. -/
def Negative (rctxt : RsclimCtxt) : Prop :=
  rctxt.cpuTime < 0 ∨ rctxt.virtualMemory < 0 ∨ rctxt.actualMemory < 0 ∨
    rctxt.stackMemory < 0 ∨ rctxt.outputSize < 0 ∨ rctxt.fileno < 0

/-! ## The check -/

/-- If the limits have been applied, none of them is negative. -/
theorem guarded_limits : Guarded (fun _ m _ _ => ¬ Negative m.ctxt.rctxt) applyResourceLimit := by
  intro l m
  rw [applyResourceLimit, Code.wp_bind, Code.wp_get]
  by_cases hneg : Negative m.ctxt.rctxt
  · unfold Negative at hneg
    rw [applyResourceLimitRsc, if_pos hneg]
    exact yreturn_wp (by decide) l m
  · exact Code.wp_post (fun _ _ _ hr => ⟨fun _ => hneg, hr.2⟩)
      (guarded_applyResourceLimitRsc m.ctxt.rctxt l m)

theorem guarded_prework : Guarded (fun _ m _ _ => ¬ Negative m.ctxt.rctxt) childPrework := by
  have hlimits : Guarded (fun _ m _ _ => ¬ Negative m.ctxt.rctxt)
      (do
        if (← applyResourceLimit) ≠ 0 then yreturnYerrno
        else if (← applyPolicy) ≠ 0 then yreturnYerrno
        else return 0) :=
    Guarded.seq guarded_limits (Guarded.last guarded_applyPolicy) fun h _ => h
  exact Guarded.seq guarded_runnerPrework hlimits fun h h' => h.1 ▸ h'

/-- A guarded step whose condition does not hold does not return 0. -/
theorem Guarded.never {x : Code Int} {l : JLocal} {m : Mem}
    (hx : Guarded (fun _ m _ _ => ¬ Negative m.ctxt.rctxt) x) (hneg : Negative m.ctxt.rctxt) :
    Code.wp anyCall anyExit x (fun _ r _ => r = 0 → False) l m :=
  Code.wp_post (fun _ _ _ hr h0 => hr.1 h0 hneg) (hx l m)

/-! ## What is owed when no process may get through -/

/-- Nobody may send READY. -/
def nobody : PipeId → JLocal → Prop := fun _ _ => False

section
variable {t : FdTable} {m : Mem}

/-- **Under the general judger** nobody sends READY, and nobody execs. -/
theorem yjudgerGeneral_refuses (hb : BuiltinHooks m.ctxt.hctxt) (hneg : Negative m.ctxt.rctxt) :
    Code.wp (Owed nobody fun _ _ => False) (fun l _ => SentBy nobody l) yjudgerGeneral
      (fun l r _ => ParentPaid nobody l r) (.start t) m := by
  refine yjudgerGeneral_wp hb (fun hl hc => owed_launching (notReady_of_wrote hl.wrote) hc)
    (fun hl => owed_of_notReady (notReady_of_wrote hl.wrote) rfl rfl)
    (fun hr hl => (notReady_of_wrote hl.wrote).failed hr) (fun l m' hl => ?_)
    fun _ m' c _ hl => judgerParent_owed c m' hl
  refine generalChild_from hl fun l₁ m₁ before pid hn hctxt hlog => ?_
  have hneg₁ : Negative m₁.ctxt.rctxt := hctxt.rctxt ▸ hneg
  refine prework_owed hn only_childPrework (guarded_prework.never hneg₁)
    (fun l' m' hn' => failed_owed _ m' hn') ?_
  intro l' m' _ _ hfalse
  exact hfalse.elim

/-- No executable may send READY. -/
abbrev noExecutable : Nat → JLocal → Prop := fun _ _ => False

/-- **Under the interactive judger** the executable does not send READY, and execs
nothing. -/
theorem yjudgerInteractive_refuses (hb : BuiltinHooks m.ctxt.hctxt)
    (hneg : Negative m.ctxt.rctxt) :
    Code.wp (InteractiveOwedIf noExecutable m) (fun l _ => InteractiveSentIf noExecutable m l)
      yjudgerInteractive (fun l r _ => ParentPaid (MaySendIf noExecutable m) l r) (.start t) m := by
  refine yjudgerInteractive_wp hb (fun hl hc => owed_launching (notReady_of_wrote hl.wrote) hc)
    (fun hl => owed_of_notReady (notReady_of_wrote hl.wrote) rfl rfl)
    (fun hr hl => (notReady_of_wrote hl.wrote).failed hr) (fun l m' hl => ?_)
    fun _ m' c _ hl => judgerParent_owed c m' hl
  refine childProcess_wp hl (fun hl hc => owed_launching (notReady_of_wrote hl.wrote) hc.launching)
    (fun hl => owed_of_notReady (notReady_of_wrote hl.wrote) rfl rfl)
    (fun code hl => yexitNotready_owed code _ _ (notReady_of_wrote hl.wrote)) ?_ ?_
  · intro l₁ m₁ itoe etoi iRun e hj
    obtain ⟨before, pid, r, -, hctxt, -⟩ := hj.log
    have hneg₁ : Negative m₁.ctxt.rctxt := hctxt.rctxt ▸ hneg
    refine executableBranch_from hj e fun l₂ hn hk hlog => ?_
    rw [childExecProcess]
    refine prework_owed hn (only_errorPrework 5)
      (Code.wp_post (fun _ _ _ h => h.1) (guarded_errorPrework 5 l₂ m₁))
      (fun l' m' hn => yexitNotreadyYerrno_owed iRun m' hn) fun l₃ m₃ hn₃ hk₃ hR₃ => ?_
    have hneg₃ : Negative m₃.ctxt.rctxt := hR₃.1 ▸ hneg₁
    refine prework_owed hn₃ only_applyResourceLimit (guarded_limits.never hneg₃)
      (fun l' m' hn => yexitNotreadyYerrno_owed iRun m' hn) ?_
    intro l' m' _ _ hfalse
    exact hfalse.elim
  · intro l₁ m₁ itoe etoi iRun r hr hj
    exact interactorBranch_owed (D := noExecutable) (fun _ _ _ h _ => h) hj hr

end

/-! ## All processes, in every interleaving -/

/-- Nobody comes to an `execve`, and no judger returns 0. -/
structure Refused (w : JWorld) : Prop where
  exec : ∀ {j l c}, AtCall w j l c → isExecve c = false
  returned : ∀ {j q r m'}, w.procs j = some q → q.code = .ret (r, m') → r ≠ 0

section
variable {P : PipeId → JLocal → Prop} {E : JLocal → Call → Prop} {x : Code Int} {t : FdTable}
  {m : Mem} {pgid : Nat} {ok : JWorld → Act judgerIface → Prop} {w : JWorld}

/-- Where READY on `p_run` cannot come, and nobody may exec. -/
theorem refused_run
    (hx : Code.wp (Owed P E) (fun l _ => SentBy P l) x (fun l r _ => ParentPaid P l r) (.start t) m)
    (hr : Reaches killers ok (World.init t (x m) pgid) w)
    (hgot : ∀ {j q}, w.procs j = some q → (pRunId, ready) ∉ q.loc.got)
    (hexec : ∀ {j q c}, w.procs j = some q → ¬ E q.loc c) : Refused w := by
  have hx' := Code.wp_post (fun _ _ _ h => h.1) hx
  constructor
  · rintro j l c ⟨q, k, hj, rfl, hc⟩
    cases he : isExecve c with
    | false => rfl
    | true => exact absurd ((owed_run hx' hr hj hc).exec he) (hexec hj)
  · intro j q r m' hj hc h0
    have hw := hr.wp hx hj
    rw [hc] at hw
    exact hgot hj (hw.2 h0)

/-- Where nobody is at an `execve`, nobody has left for another program. -/
theorem noProgram_run (hrefused : ∀ {w : JWorld}, Reaches killers ok (World.init t (x m) pgid) w →
      Refused w) (hr : Reaches killers ok (World.init t (x m) pgid) w) :
    ∀ {j q}, w.procs j = some q → q.mode ≠ .program := by
  induction hr with
  | refl =>
      intro j q hq
      simp only [World.init] at hq
      split at hq
      · obtain rfl := Option.some.inj hq
        simp
      · cases hq
  | @tail w w' a hr hok hs ih =>
      intro j q' hq' hm
      have halive : q'.mode.alive = true := by rw [hm]; rfl
      cases step_procs hs hq' with
      | kept hq hk => exact ih hq ((hk.alive halive).symm.trans hm)
      | @exec q c k o _ hq hmode hc hexec _ =>
          have hno := (hrefused hr).exec ⟨q, k, hq, rfl, hc⟩
          cases c with
          | execve => cases hno
          | _ => cases hexec
      | call _ _ _ _ _ _ _ _ hcode => cases hm.symm.trans (hcode halive)
      | born _ _ _ _ _ _ _ _ hcode _ _ => cases hm.symm.trans hcode

/-- So nobody reads what is for another process. -/
theorem quiet_run (hrefused : ∀ {w : JWorld}, Reaches killers Always (World.init t (x m) pgid) w →
      Refused w) (hr : Reaches killers (fun w a => calm w a = true) (World.init t (x m) pgid) w) :
    Reaches killers (fun w a => quiet w a = true) (World.init t (x m) pgid) w := by
  induction hr with
  | refl => exact .refl
  | @tail w w' a hr hok hs ih =>
      refine ih.tail ?_ hs
      rw [quiet, Bool.and_eq_true]
      refine ⟨hok, ?_⟩
      have hany : Reaches killers Always (World.init t (x m) pgid) w :=
        hr.mono fun _ _ _ => trivial
      cases a with
      | drain i id =>
          simp only [step] at hs
          split at hs
          case isFalse => cases hs
          case isTrue hdrain =>
            obtain ⟨q, hq, hmode⟩ := (Option.any_eq_true _ _).mp hdrain.1
            rw [Bool.and_eq_true, Bool.and_eq_true] at hmode
            exact absurd (eq_of_beq hmode.1.1) (noProgram_run hrefused hany hq)
      | _ => rfl

end

/-- **A negative limit is refused**, if it is not `real_time` alone: whatever fails and
whoever runs first, nobody execs and no judger returns 0; and where nobody is killed
and no write and no `fork` is lost in the handshake, the parent does not wait for ever. -/
theorem negative_refused {m : Mem} {k : Nat}
    (hm : m.ctxt.hctxt = registerBuiltinHook^[k] hookCtxtCreate) (hneg : Negative m.ctxt.rctxt)
    (t : FdTable) (pgid : Nat) :
    (∀ {w : JWorld}, Reaches killers Always (World.init t (yjudgerGeneral m) pgid) w →
      Refused w) ∧
    (∀ {w : JWorld}, Reaches killers Always (World.init t (yjudgerInteractive m) pgid) w →
      Refused w) ∧
    (3 ≤ (runPipe t).2 → ∀ {x : Code Int}, x = yjudgerGeneral ∨ x = yjudgerInteractive →
      ∀ {w : JWorld}, Reaches killers (fun w a => calm w a = true)
        (World.init t (x m) pgid) w → ¬ Stuck w) := by
  have hb : BuiltinHooks m.ctxt.hctxt := hm ▸ builtinHooks_iterate k
  have hgeneral : ∀ {w : JWorld},
      Reaches killers Always (World.init t (yjudgerGeneral m) pgid) w → Refused w := by
    intro w hr
    have hx := @yjudgerGeneral_refuses t m hb hneg
    have hx' := Code.wp_post (fun _ _ _ h => h.1) hx
    refine refused_run hx hr ?_ fun _ h => h
    intro j q hj hgot
    obtain ⟨i, p, -, -, hfalse⟩ := sender_run hx' hr hj hgot
    exact hfalse
  have hinteractive : ∀ {w : JWorld},
      Reaches killers Always (World.init t (yjudgerInteractive m) pgid) w → Refused w := by
    intro w hr
    have hx := @yjudgerInteractive_refuses t m hb hneg
    have hx' := Code.wp_post (fun _ _ _ h => h.1) hx
    -- the interactor has not heard from the executable
    have hinteractor : ∀ {j q}, w.procs j = some q → ¬ InteractorReady m q.loc := by
      intro j q hj hready
      obtain ⟨i, p, -, -, hp⟩ := sender_run hx' hr hj hready.2
      exact hp.2 _ rfl
    refine refused_run hx hr ?_ ?_
    · intro j q hj hgot
      obtain ⟨i, p, hi, -, hp⟩ := sender_run hx' hr hj hgot
      exact hinteractor hi (hp.1 rfl)
    · rintro j q c hj (⟨-, i, hfalse⟩ | ⟨-, hready⟩)
      · exact hfalse
      · exact hinteractor hj hready
  refine ⟨hgeneral, hinteractive, ?_⟩
  rintro ht x (rfl | rfl) w hr
  · exact not_stuck (yjudgerGeneral_hand ht hb) (quiet_run hgeneral hr)
  · exact not_stuck (yjudgerInteractive_hand ht hb) (quiet_run hinteractive hr)

/-! ## Runs -/

/-- `sampleMem` with these limits. -/
def limitedMem (rctxt : RsclimCtxt) : Mem :=
  { sampleMem with ctxt := { sampleMem.ctxt with rctxt := rctxt } }

/-- With a negative `cpu_time` the child has sent FAILED, and the parent returns
`E_CHILD`. -/
theorem refused_cpuTime : ∃ w, hasReturned w = true ∧ Refused w := by
  have hneg : Negative (limitedMem { rsclimCtxtCreate with cpuTime := -1 }).ctxt.rctxt :=
    Or.inl (by decide)
  have hrun : ((World.init (.inheritedBelow 4)
      (yjudgerGeneral (limitedMem { rsclimCtxtCreate with cpuTime := -1 })) 1).run killers
      (launchActs ++ okActs 2 8 ++ askActs 2 2 ++ okActs 2 1 ++ okActs 1 1 ++ askActs 1 1)).any
        hasReturned = true := by decide +kernel
  obtain ⟨w, hr, hw⟩ := reaches_of_any hrun
  exact ⟨w, hw, (negative_refused (k := 0) rfl hneg (.inheritedBelow 4) 1).1 hr⟩

/-- Has process 1 returned 0? -/
def returnedZero (w : JWorld) : Bool :=
  (w.procs 1).any fun q => match q.code with
    | .ret (r, _) => r == 0
    | _ => false

/-- With a negative `real_time` alone the child execs, and the judger returns 0. -/
theorem overdue_judged : ∃ w,
    Reaches killers Always (World.init (.inheritedBelow 4)
      (yjudgerGeneral (limitedMem { rsclimCtxtCreate with realTime := -1 })) 1) w ∧
    (limitedMem { rsclimCtxtCreate with realTime := -1 }).ctxt.rctxt.realTime < 0 ∧
    (∃ l c, AtCall w 2 l c ∧ isExecve c = true) ∧ returnedZero w = true ∧ ¬ Refused w := by
  have hrun : ((World.init (.inheritedBelow 4)
      (yjudgerGeneral (limitedMem { rsclimCtxtCreate with realTime := -1 })) 1).run killers
      (launchActs ++ okActs 2 12 ++ okActs 1 1 ++ askActs 1 1 ++ okActs 1 1 ++
        [.thr 1 .ok, .quit 2 0] ++ okActs 1 1 ++ askActs 1 2 ++ okActs 1 1 ++
        [.thr 1 .ok, .sys 1 .fail])).any
        (fun w => atExecve 2 w && returnedZero w) = true := by decide +kernel
  obtain ⟨w, hr, hw⟩ := reaches_of_any hrun
  rw [Bool.and_eq_true] at hw
  obtain ⟨l, c, hat, hc⟩ := atCall_of_atExecve hw.1
  refine ⟨w, hr, by decide, ⟨l, c, hat, hc⟩, hw.2, fun h => ?_⟩
  rw [h.exec hat] at hc
  cases hc

end YaojJudger
