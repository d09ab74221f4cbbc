/-
# `YaojJudger.Reap` — who is left when the parent returns

After the `fork` the parent has five ways to return, and what it has done by
then is in its record:

    read, not READY                      it returns at once
    waitpid, failed; killpg              it returns after the `killpg`
    waitpid, a status                    it runs the hooks, then returns

(`Settled`; the hooks in between, which could fail in principle, do not).
`killpg` and the first way wait for nobody, and a status may report a stop.  So
the child is certain to be reaped only in runs without those (`tame`), and the
processes of an interactive judgement are certain to be dead only if they were
when it mattered (`clean`).

Nothing of this depends on the child: all that is used of it is that its
record shows it is not process 1.
-/
import YaojJudger.Confine
import YaojJudger.Posix.Record

namespace YaojJudger

open Posix World

/-! ## The record of the parent -/

/-- The process has forked nobody but `n`, and waited for nobody else. -/
structure ParentOf (n : Nat) (l : JLocal) : Prop where
  forks : ∀ {c}, (⟨.fork, .parent c⟩ : JEvent) ∈ l.log → c = n
  waits : ∀ {c u r}, (⟨.waitpid c u, r⟩ : JEvent) ∈ l.log → c = n

/-- What the parent of `n` has done when it returns. -/
def Settled (n : Nat) (l : JLocal) : Prop :=
  (∃ fd r, (⟨.read fd, r⟩ : JEvent) ∈ l.log ∧ r ≠ some ready) ∨
    ((⟨.waitpid n true, none⟩ : JEvent) ∈ l.log ∧ ∃ b, (⟨.killpg n, b⟩ : JEvent) ∈ l.log) ∨
    ∃ st, (⟨.waitpid n true, some st⟩ : JEvent) ∈ l.log

/-- What is so whenever process 1 makes a call. -/
def JudgePre (l : JLocal) (c : Call) : Prop :=
  lineage l.log = [] → (∃ n, ParentOf n l) ∧ (c = .fork → Unforked l)

/-- What is so when it returns. -/
def JudgeRet (l : JLocal) : Prop :=
  lineage l.log = [] → Childless l ∨ ∃ n, ParentOf n l ∧ Settled n l

theorem Childless.parentOf {l : JLocal} (h : Childless l) (n : Nat) : ParentOf n l := by
  constructor
  · intro c he
    rcases h.log _ he with (hq | hp) | hf
    · exact hq.elim
    · cases hp
    · cases hf
  · intro c u r he
    rcases h.log _ he with (hq | hp) | hf
    · exact hq.elim
    · cases hp
    · cases hf

/-- Events other than these two do not matter. -/
theorem ParentOf.after {n : Nat} {l : JLocal} (h : ParentOf n l) {c : Call} {r : Ret c}
    (hf : ∀ {s}, (⟨.fork, .parent s⟩ : JEvent) = ⟨c, r⟩ → s = n)
    (hw : ∀ {p u r'}, (⟨.waitpid p u, r'⟩ : JEvent) = ⟨c, r⟩ → p = n) :
    ParentOf n (l.after c r) := by
  constructor
  · intro s he
    rw [Local.after_log, List.mem_append] at he
    rcases he with he | he
    · exact h.forks he
    · exact hf (List.mem_singleton.mp he)
  · intro p u r' he
    rw [Local.after_log, List.mem_append] at he
    rcases he with he | he
    · exact h.waits he
    · exact hw (List.mem_singleton.mp he)

theorem ParentOf.keeps {n : Nat} {l l' : JLocal} (h : ParentOf n l) (hk : Keeps 0 l l') :
    ParentOf n l' := by
  obtain ⟨es, hes, hq⟩ := hk.log
  constructor
  · intro c he
    rw [hes, List.mem_append] at he
    rcases he with he | he
    · exact h.forks he
    · exact (hq _ he).elim
  · intro c u r he
    rw [hes, List.mem_append] at he
    rcases he with he | he
    · exact h.waits he
    · exact (hq _ he).elim

theorem NewParent.parentOf {pRun : Nat × Nat} {n : Nat} {l : JLocal} {m : Mem}
    (h : NewParent pRun n l m) : ParentOf n l := by
  obtain ⟨before, hlog, hbefore⟩ := h.log
  constructor
  · intro c he
    rw [hlog, List.mem_append] at he
    rcases he with he | he
    · rcases hbefore _ he with hq | hp
      · exact hq.elim
      · cases hp
    · cases List.mem_singleton.mp he; rfl
  · intro c u r he
    rw [hlog, List.mem_append] at he
    rcases he with he | he
    · rcases hbefore _ he with hq | hp
      · exact hq.elim
      · cases hp
    · cases List.mem_singleton.mp he

theorem Settled.grow {n : Nat} {l l' : JLocal} (h : Settled n l) (hlog : l.log <+: l'.log) :
    Settled n l' := by
  rcases h with ⟨fd, r, he, hne⟩ | ⟨hw, b, hk⟩ | ⟨st, hw⟩
  · exact Or.inl ⟨fd, r, hlog.subset he, hne⟩
  · exact Or.inr (Or.inl ⟨hlog.subset hw, b, hlog.subset hk⟩)
  · exact Or.inr (Or.inr ⟨st, hlog.subset hw⟩)

/-! ## The parent's branch -/

/-- Only other processes exit. -/
abbrev JudgeExit : JLocal → Int → Prop := fun l _ => lineage l.log ≠ []

theorem judgePre_of {n : Nat} {l : JLocal} (h : ParentOf n l) {c : Call} (hc : c ≠ .fork) :
    JudgePre l c := fun _ => ⟨⟨n, h⟩, fun he => absurd he hc⟩

/-- A settled parent may return. -/
theorem yreturn_settled {n : Nat} {l : JLocal} (errnum : Int) (m : Mem) (h : ParentOf n l)
    (hs : Settled n l) :
    Code.wp JudgePre JudgeExit (yreturn errnum) (fun l _ _ => JudgeRet l) l m := by
  rw [wp_yreturn]
  refine ⟨judgePre_of h (by simp), fun _ => Or.inr ⟨n, ?_, hs.grow (List.prefix_append _ _)⟩⟩
  rw [← after_ask]
  exact h.after (fun he => by cases he) fun he => by cases he

theorem yreturnYerrno_settled {n : Nat} {l : JLocal} (m : Mem) (h : ParentOf n l)
    (hs : Settled n l) :
    Code.wp JudgePre JudgeExit yreturnYerrno (fun l _ _ => JudgeRet l) l m := by
  rw [yreturnYerrno, Code.wp_bind, Code.wp_get]
  exact yreturn_settled m.yerrno m h hs

theorem afterWaitpid_settled {n : Nat} {l : JLocal} (status : Option Nat) (m : Mem)
    (h : ParentOf n l) (hw : (⟨.waitpid n true, status⟩ : JEvent) ∈ l.log) :
    Code.wp JudgePre JudgeExit (afterWaitpid n status) (fun l _ _ => JudgeRet l) l m := by
  cases status with
  | none =>
      rw [afterWaitpid, Code.wp_bind, Code.wp_call]
      refine ⟨judgePre_of h (by simp), ?_⟩
      intro b _
      refine yreturn_settled eWait m (h.after (fun he => by cases he) fun he => by cases he) ?_
      refine Or.inr (Or.inl ⟨?_, b, ?_⟩)
      · rw [Local.after_log]
        exact List.mem_append_left _ hw
      · rw [Local.after_log]
        exact List.mem_append_right _ List.mem_cons_self
  | some st =>
      rw [afterWaitpid, Code.wp_bind, wp_modifyCtxt, Code.wp_bind, Code.wp_get, Code.wp_bind]
      refine Code.wp_post ?_ (Code.keeps_wp (fun _ hc => hc) (only_hooks _ _) ?_)
      · intro l' r m' hk
        have hs : Settled n l' := by
          obtain ⟨es, hes, -⟩ := hk.log
          exact Or.inr (Or.inr ⟨st, by rw [hes]; exact List.mem_append_left _ hw⟩)
        rw [Code.wp_ite]
        exact ⟨fun _ => yreturnYerrno_settled m' (h.keeps hk) hs,
          fun _ _ => Or.inr ⟨n, h.keeps hk, hs⟩⟩
      · intro l' c hk hc
        exact judgePre_of (h.keeps hk) (fun he => (he ▸ hc : Quiet 0 (.fork : Call)).elim)

theorem judgerParent_settled {pRun : Nat × Nat} {n : Nat} {l : JLocal} {m : Mem}
    (hl : NewParent pRun n l m) :
    Code.wp JudgePre JudgeExit (judgerParent pRun n) (fun l _ _ => JudgeRet l) l m := by
  have h := hl.parentOf
  have hread : ∀ r, ParentOf n (l.after (.read pRun.1 : Call) r) := by
    intro r
    exact h.after (fun he => by cases he) fun he => by cases he
  have hbad : ∀ r : Option Int, r ≠ some ready → Settled n (l.after (.read pRun.1 : Call) r) := by
    intro r hr
    refine Or.inl ⟨pRun.1, r, ?_, hr⟩
    rw [Local.after_log]
    exact List.mem_append_right _ List.mem_cons_self
  rw [judgerParent, Code.wp_bind, wp_modifyCtxt, Code.wp_bind, wp_waitSignal]
  refine ⟨judgePre_of h (by simp), ?_, fun v _ => ?_⟩
  · rw [if_pos (by decide)]
    exact yreturn_settled _ _ (hread none) (hbad none (by simp))
  · rw [Code.wp_ite]
    refine ⟨fun hv => yreturn_settled _ _ (hread _) (hbad _ (by simpa using hv)), fun _ => ?_⟩
    rw [Code.wp_bind, Code.wp_get, Code.wp_bind]
    refine Code.frame_wp (fun _ hc => hc) (only_hooks _ _)
      (afterHooks_zero hl.hooks.after _ _) ?_ ?_
    · intro l' c hk hc
      exact judgePre_of ((hread _).keeps hk) (fun he => (he ▸ hc : Quiet 0 (.fork : Call)).elim)
    · intro l' r m' hk hr
      have hp := (hread _).keeps hk
      rw [if_neg (by simp [hr]), Code.wp_bind, Code.wp_call]
      refine ⟨judgePre_of hp (by simp), fun status _ => ?_⟩
      refine afterWaitpid_settled status m' (hp.after (fun he => by cases he) ?_) ?_
      · intro p u r' he
        cases he
        rfl
      · rw [Local.after_log]
        exact List.mem_append_right _ List.mem_cons_self

/-- Whatever a process with a lineage does. -/
theorem child_settled {x : Code Int} {l : JLocal} {m : Mem} (h : lineage l.log ≠ []) :
    Code.wp JudgePre JudgeExit x (fun l _ _ => JudgeRet l) l m := by
  refine Prog.wp_of_stable (S := fun l : JLocal => lineage l.log ≠ []) ?_ ?_ ?_ ?_ (x m) h
  · rintro s c r s' hs ⟨-, rfl⟩ hnil
    rw [Local.after_log, lineage_append] at hnil
    exact hs (List.append_eq_nil_iff.mp hnil).1
  · intro l c hl hnil
    exact absurd hnil hl
  · exact fun hl => hl
  · intro l a hl hnil
    exact absurd hnil hl

theorem NewChild.lineage_ne_nil {m₀ m : Mem} {pRun : Nat × Nat} {l : JLocal}
    (h : NewChild m₀ pRun l m) : lineage l.log ≠ [] := by
  rw [h.line]
  exact List.cons_ne_nil _ _

theorem judgePre_launching {l : JLocal} {c : Call} (hl : Childless l) (hc : Launching c) :
    JudgePre l c := by
  refine judgePre_of (hl.parentOf 0) ?_
  rintro rfl
  rcases hc with hc | hc
  · exact hc.1.elim
  · cases hc

theorem judgePre_fork {l : JLocal} (hl : Unforked l) : JudgePre l .fork :=
  fun _ => ⟨⟨0, hl.childless.parentOf 0⟩, fun _ => hl⟩

theorem yjudgerGeneral_settled (t : FdTable) {m : Mem} (hb : BuiltinHooks m.ctxt.hctxt) :
    Code.wp JudgePre JudgeExit yjudgerGeneral (fun l _ _ => JudgeRet l) (.start t) m :=
  yjudgerGeneral_wp hb judgePre_launching judgePre_fork (fun _ hl _ => Or.inl hl)
    (fun _ _ hl => child_settled hl.lineage_ne_nil) fun _ _ _ _ hl => judgerParent_settled hl

theorem yjudgerInteractive_settled (t : FdTable) {m : Mem} (hb : BuiltinHooks m.ctxt.hctxt) :
    Code.wp JudgePre JudgeExit yjudgerInteractive (fun l _ _ => JudgeRet l) (.start t) m :=
  yjudgerInteractive_wp hb judgePre_launching judgePre_fork (fun _ hl _ => Or.inl hl)
    (fun _ _ hl => child_settled hl.lineage_ne_nil) fun _ _ _ _ hl => judgerParent_settled hl

section
variable {x : Code Int} {t : FdTable} {m : Mem} {pgid : Nat}
  {ok : JWorld → Act judgerIface → Prop} {w : JWorld} {q : Proc judgerIface (Int × Mem)}

/-- Process 1 has waited for nobody but the process it forked. -/
theorem parentOf_run (hx : Code.wp JudgePre JudgeExit x (fun l _ _ => JudgeRet l) (.start t) m)
    (hr : Reaches killers ok (World.init t (x m) pgid) w) (hq : w.procs 1 = some q) :
    ∃ n, ParentOf n q.loc := by
  have hw := hr.wp hx hq
  have hnil := hr.lineage_first hq
  cases hc : q.code with
  | ret a =>
      rw [hc] at hw
      rcases hw hnil with hl | ⟨n, hn, -⟩
      · exact ⟨0, hl.parentOf 0⟩
      · exact ⟨n, hn⟩
  | exit n =>
      rw [hc] at hw
      exact absurd hnil hw
  | call c k =>
      rw [hc] at hw
      exact (hw.1 hnil).1

/-- Process 1 has settled what it has to when it returns. -/
theorem settled_run (hx : Code.wp JudgePre JudgeExit x (fun l _ _ => JudgeRet l) (.start t) m)
    (hr : Reaches killers ok (World.init t (x m) pgid) w) (hq : w.procs 1 = some q)
    {a : Int × Mem} (hc : q.code = .ret a) :
    Childless q.loc ∨ ∃ n, ParentOf n q.loc ∧ Settled n q.loc := by
  have hw := hr.wp hx hq
  rw [hc] at hw
  exact hw (hr.lineage_first hq)

end

/-! ## The general judger: the child is reaped -/

/-- The parent reads READY, and `waitpid` reports the end of a process. -/
def tameEvent : JEvent → Bool
  | ⟨.read _, r⟩ => r == some ready
  | ⟨.waitpid _ _, r⟩ => r.any fun st => !wifstopped st
  | _ => true

/-- An act that is none of the parent's, or adds such an event to its record. -/
def tame (w : JWorld) : Act judgerIface → Bool
  | .sys 1 o => (w.nextEvent 1 o).all tameEvent
  | _ => true

/-- The child has ended when the hooks run, and is reaped when the judger returns. -/
structure Ended (w : JWorld) : Prop where
  /-- `waitpid` has delivered a status, and so the `after_wait` hooks run -/
  hooks : ∀ {l p u st c}, IsProc w 1 l → (⟨.waitpid p u, some st⟩ : JEvent) ∈ l.log →
    (⟨.fork, .parent c⟩ : JEvent) ∈ l.log → ∃ q, w.procs c = some q ∧ q.mode.alive = false
  returned : ∀ {q a c}, w.procs 1 = some q → q.code = .ret a →
    (⟨.fork, .parent c⟩ : JEvent) ∈ q.loc.log → ∃ p st, w.procs c = some p ∧ p.mode = .reaped st

/-- In a tame run the record of process 1 is tame. -/
theorem tame_events {x : Code Int} {t : FdTable} {m : Mem} {pgid : Nat} {w : JWorld}
    (hr : Reaches killers (fun w a => tame w a = true) (World.init t (x m) pgid) w)
    {q : Proc judgerIface (Int × Mem)} (hq : w.procs 1 = some q) :
    ∀ e ∈ q.loc.log, tameEvent e = true := by
  refine hr.events (P := fun e => tameEvent e = true) ?_ hq
  intro w o p c k r _ hok hp hc hreply
  simpa only [tame, nextEvent_eq hp hc hreply, Option.all_some] using hok

/-- **Judging ends with the judged process**, in every run in which the parent
reads READY and `waitpid` reports the end of the child. -/
theorem judging_ends {m : Mem} {k : Nat}
    (hm : m.ctxt.hctxt = registerBuiltinHook^[k] hookCtxtCreate)
    (t : FdTable) (pgid : Nat) {w : JWorld}
    (hr : Reaches killers (fun w a => tame w a = true)
      (World.init t (yjudgerGeneral m) pgid) w) : Ended w := by
  have hx := yjudgerGeneral_settled t (hm ▸ builtinHooks_iterate k : BuiltinHooks m.ctxt.hctxt)
  have hwaited : ∀ {q p u st}, w.procs 1 = some q → (⟨.waitpid p u, some st⟩ : JEvent) ∈ q.loc.log →
      ∃ q', w.procs p = some q' ∧ q'.mode = .reaped st := by
    intro q p u st hq he
    refine hr.waited hq he ?_
    simpa [tameEvent] using tame_events hr hq _ he
  constructor
  · rintro l p u st c ⟨q, hq, rfl⟩ hw hf
    obtain ⟨n, hn⟩ := parentOf_run hx hr hq
    obtain ⟨q', hq', hm'⟩ := hwaited hq hw
    obtain rfl : p = c := (hn.waits hw).trans (hn.forks hf).symm
    exact ⟨q', hq', by rw [hm']; rfl⟩
  · intro q a c hq hc hf
    rcases settled_run hx hr hq hc with hl | ⟨n, hn, hs⟩
    · rcases hl.log _ hf with (h | h) | h
      · exact h.elim
      · cases h
      · cases h
    · obtain rfl := hn.forks hf
      rcases hs with ⟨fd, r, he, hne⟩ | ⟨he, -⟩ | ⟨st, he⟩
      · have := tame_events hr hq _ he
        exact absurd (by simpa [tameEvent] using this) hne
      · have := tame_events hr hq _ he
        cases this
      · obtain ⟨p, hp, hm'⟩ := hwaited hq he
        exact ⟨p, st, hp, hm'⟩

/-- The judger has returned. -/
def hasReturned (w : JWorld) : Bool :=
  (w.procs 1).any fun q => match q.code with
    | .ret _ => true
    | _ => false

theorem returned_of_check {w : JWorld} (h : hasReturned w = true) :
    ∃ q a, w.procs 1 = some q ∧ q.code = .ret a := by
  obtain ⟨q, hq, hc⟩ := (Option.any_eq_true _ _).mp h
  cases hret : q.code with
  | ret a => exact ⟨q, a, hq, hret⟩
  | exit n => rw [hret] at hc; cases hc
  | call c k => rw [hret] at hc; cases hc

/-- Some other process is there, and nobody has ended. -/
def allAlive (w : JWorld) : Bool :=
  (w.procs 2).isSome && (List.range w.next).all fun j => (w.procs j).all fun q => q.mode.alive

/-- A judger that has returned, with nobody ended. -/
theorem not_ended_of_check {x : Code Int} {t : FdTable} {m : Mem} {pgid : Nat} {w : JWorld}
    (hr : Reaches killers Always (World.init t (x m) pgid) w)
    (h : (hasReturned w && allAlive w) = true) : ¬ Ended w := by
  rw [Bool.and_eq_true, allAlive, Bool.and_eq_true] at h
  obtain ⟨hret, htwo, halive⟩ := h
  intro he
  obtain ⟨q, a, hq, hc⟩ := returned_of_check hret
  obtain ⟨p, hp⟩ := Option.isSome_iff_exists.mp htwo
  obtain ⟨q', c, hq', hf⟩ := hr.alone hp (by decide)
  obtain rfl := Option.some.inj (hq.symm.trans hq')
  obtain ⟨p', st, hp', hm⟩ := he.returned hq hc hf
  have := List.all_eq_true.mp halive c (List.mem_range.mpr (hr.numbered.lt_next hp'))
  rw [hp', Option.all_some, hm] at this
  cases this

/-- The child execs and stops itself; `waitpid` reports the stop, and the judger
returns with the child alive. -/
theorem judging_ends_stopped : ∃ w,
    Reaches killers Always (World.init (.inheritedBelow 4) (yjudgerGeneral sampleMem) 1) w ∧
      ¬ Ended w := by
  have hrun : ((World.init (.inheritedBelow 4) (yjudgerGeneral sampleMem) 1).run killers
      (launchActs ++ okActs 2 12 ++ [.stop 2 19] ++ okActs 1 1 ++ askActs 1 1 ++ okActs 1 1 ++
        askActs 1 2)).any (fun w => hasReturned w && allAlive w) = true := by decide +kernel
  obtain ⟨w, hr, hw⟩ := reaches_of_any hrun
  exact ⟨w, hr, not_ended_of_check hr hw⟩

/-- The same, with a child that ends. -/
theorem judging_ends_quit : ∃ w, hasReturned w = true ∧ Ended w := by
  have hrun : ((World.init (.inheritedBelow 4) (yjudgerGeneral sampleMem) 1).runIf killers
      tame (launchActs ++ okActs 2 12 ++ [.quit 2 0] ++ okActs 1 1 ++ askActs 1 1 ++ okActs 1 1 ++
        askActs 1 2)).any hasReturned = true := by decide +kernel
  obtain ⟨w, hr, hw⟩ := reaches_of_anyIf hrun
  exact ⟨w, hw, @judging_ends sampleMem 0 rfl (.inheritedBelow 4) 1 w hr⟩

/-! ## The interactive judger: nobody survives -/

/-- Every process but process 1 has ended. -/
def OthersDead (w : JWorld) : Prop :=
  ∀ j p, j ≠ 1 → w.procs j = some p → p.mode.alive = false

/-- Every process but process 1 has ended, or is in group `g`. -/
def othersIn (w : JWorld) (g : Option Nat) : Bool :=
  (List.range w.next).all fun j =>
    j == 1 || (w.procs j).all fun q => !q.mode.alive || g == some q.pgid

theorem othersIn_spec {w : JWorld} (hn : w.Numbered) {g : Option Nat} (h : othersIn w g = true)
    {j : Nat}     {p : Proc judgerIface (Int × Mem)} (hj : j ≠ 1) (hp : w.procs j = some p) :
    p.mode.alive = false ∨ g = some p.pgid := by
  have := List.all_eq_true.mp h j (List.mem_range.mpr (hn.lt_next hp))
  simpa [hj, hp] using this

theorem othersDead_of_othersIn {w : JWorld} (hn : w.Numbered) (h : othersIn w none = true) :
    OthersDead w := by
  intro j p hj hp
  rcases othersIn_spec hn h hj hp with hd | hg
  · exact hd
  · cases hg

/-- After these events the parent returns without another look at the others. -/
def decisive : JEvent → Bool
  | ⟨.read _, r⟩ => r != some ready
  | ⟨.waitpid _ _, r⟩ => r.isSome
  | ⟨.killpg _, _⟩ => true
  | _ => false

/-- A decisive event comes when the others are dead, or is the `killpg` that
kills them. -/
def cleanEvent (w : JWorld) : JEvent → Bool
  | ⟨.killpg g, true⟩ => othersIn w (some g)
  | e => !decisive e || othersIn w none

/-- An act that is none of the parent's, or adds such an event to its record. -/
def clean (w : JWorld) : Act judgerIface → Bool
  | .sys 1 o => (w.nextEvent 1 o).all (cleanEvent w)
  | _ => true

/-- Once the others are dead they stay so, unless the parent forks. -/
theorem othersDead_step {w w' : JWorld} {a : Act judgerIface}
    (hs : w.step killers a = some w')
    (hd : OthersDead w)
    (hfork : ∀ o q k, a = .sys 1 o → w.procs 1 = some q → q.code ≠ .call .fork k) :
    OthersDead w' := by
  intro j p' hj hp'
  by_contra halive
  have halive : p'.mode.alive = true := by simpa using halive
  cases step_procs hs hp' with
  | kept hp hk =>
      rw [hk.alive halive, hd j _ hj hp] at halive
      cases halive
  | exec _ hp hm _ _ _ =>
      have := hd j _ hj hp
      rw [hm] at this
      cases this
  | call _ hp hm _ _ _ _ _ _ =>
      have := hd j _ hj hp
      rw [hm] at this
      cases this
  | @born i q k o ha hp hm hc _ _ _ _ _ _ _ =>
      by_cases hi : i = 1
      · subst hi
        exact hfork o q k ha hp hc
      · have := hd i _ hi hp
        rw [hm] at this
        cases this

/-- A `killpg` that reaches everybody. -/
theorem othersDead_killpg {w w' : JWorld} (hn : w.Numbered) {o : Outcome judgerIface}
    (hs : w.step killers (.sys 1 o) = some w') {q : Proc judgerIface (Int × Mem)} {g : Nat}
    {k : Bool → Prog Call Ret (Int × Mem)} (hq : w.procs 1 = some q)
    (hc : q.code = .call (.killpg g) k)
    (hr : w.reply 1 q.loc (.killpg g) o = some true) (hg : othersIn w (some g) = true) :
    OthersDead w' := by
  obtain ⟨q₁, hq₁, -, -, hcase⟩ := sysStep_cases hs
  obtain rfl := Option.some.inj (hq.symm.trans hq₁)
  rcases hcase with ⟨n, hc', -⟩ | ⟨c, k', hc', hx, -⟩ | ⟨c, k', r, hc', -, hr', rfl⟩
  · cases hc.symm.trans hc'
  · cases hc.symm.trans hc'
    cases hx
  · cases hc.symm.trans hc'
    obtain rfl : true = r := Option.some.inj (hr.symm.trans hr')
    intro j p' hj hp'
    simp only [afterCall, childOf, procsAfter] at hp'
    obtain ⟨p, hp, rfl⟩ := Option.map_eq_some_iff.mp hp'
    rw [if_neg hj]
    exact hit_dead ((othersIn_spec hn hg hj hp).imp id fun h => (Option.some.inj h).symm)

/-- In a clean run the others are dead once the parent has made a decisive step. -/
theorem othersDead_run {x : Code Int} {t : FdTable} {m : Mem} {pgid : Nat} {w : JWorld}
    (hx : Code.wp JudgePre JudgeExit x (fun l _ _ => JudgeRet l) (.start t) m)
    (hr : Reaches killers (fun w a => clean w a = true) (World.init t (x m) pgid) w)
    {q : Proc judgerIface (Int × Mem)} (hq : w.procs 1 = some q) {e : JEvent} (he : e ∈ q.loc.log)
    (hdec : decisive e = true) : OthersDead w := by
  induction hr generalizing q e with
  | refl =>
      rw [(init_procs hq).2.1] at he
      exact absurd he List.not_mem_nil
  | @tail w w' a hr hok hs ih =>
      obtain ⟨q₀, hq₀⟩ := Option.isSome_iff_exists.mp hr.first
      obtain ⟨q', hq', hf⟩ := step_fate hr.numbered hs hq₀
      obtain rfl := Option.some.inj (hq.symm.trans hq')
      have old : ∀ {e}, e ∈ q₀.loc.log → decisive e = true → OthersDead w' := by
        intro e he hdec
        refine othersDead_step hs (ih hq₀ he hdec) ?_
        intro o q k _ hq hc
        obtain rfl := Option.some.inj (hq.symm.trans hq₀)
        have hw := hr.wp hx hq
        rw [hc] at hw
        have hl := (hw.1 (hr.lineage_first hq)).2 rfl
        obtain ⟨c, r⟩ := e
        rcases hl.log _ he with h | h
        · cases c <;> first | exact h | cases hdec
        · obtain rfl : c = .pipe := h
          cases hdec
      cases hf with
      | kept hk => rw [hk.loc] at he; exact old he hdec
      | exec _ _ _ _ hx => rw [hx] at he; exact old he hdec
      | @call c k o r ha _ hc hreply hl _ _ _ =>
          rw [hl, Local.after_log, List.mem_append] at he
          rcases he with he | he
          · exact old he hdec
          · obtain rfl := List.mem_singleton.mp he
            subst ha
            have hclean : cleanEvent w ⟨c, r⟩ = true := by
              simpa only [clean, nextEvent_eq hq₀ hc hreply, Option.all_some] using hok
            have hdead : othersIn w none = true → c ≠ .fork → OthersDead w' := by
              intro hd hc'
              refine othersDead_step hs (othersDead_of_othersIn hr.numbered hd) ?_
              intro o' q k' _ hq hcode
              obtain rfl := Option.some.inj (hq.symm.trans hq₀)
              cases hc.symm.trans hcode
              exact hc' rfl
            cases c with
            | read fd => exact hdead (by simpa [cleanEvent, hdec] using hclean) (by simp)
            | waitpid p u => exact hdead (by simpa [cleanEvent, hdec] using hclean) (by simp)
            | killpg g =>
                cases r with
                | true => exact othersDead_killpg hr.numbered hs hq₀ hc hreply hclean
                | false => exact hdead (by simpa [cleanEvent, hdec] using hclean) (by simp)
            | _ => cases hdec

/-- When the judger has returned, every process it brought into being has ended. -/
def NoSurvivor (w : JWorld) : Prop :=
  ∀ q a, w.procs 1 = some q → q.code = .ret a → OthersDead w

/-- **No judged process survives**, in every run in which the others are dead
when the parent last looks at them, or are all in the group it kills. -/
theorem no_survivor {m : Mem} {k : Nat} (hm : m.ctxt.hctxt = registerBuiltinHook^[k] hookCtxtCreate)
    (t : FdTable) (pgid : Nat) {w : JWorld}
    (hr : Reaches killers (fun w a => clean w a = true)
      (World.init t (yjudgerInteractive m) pgid) w) : NoSurvivor w := by
  have hx := yjudgerInteractive_settled t (hm ▸ builtinHooks_iterate k : BuiltinHooks m.ctxt.hctxt)
  intro q a hq hc
  rcases settled_run hx hr hq hc with hl | ⟨n, -, hs⟩
  · intro j p hj hp
    obtain ⟨q', c, hq', hf⟩ := hr.alone hp hj
    obtain rfl := Option.some.inj (hq.symm.trans hq')
    rcases hl.log _ hf with (h | h) | h
    · exact h.elim
    · cases h
    · cases h
  · rcases hs with ⟨fd, r, he, hne⟩ | ⟨-, b, he⟩ | ⟨st, he⟩
    · exact othersDead_run hx hr hq he (by simpa [decisive] using hne)
    · exact othersDead_run hx hr hq he rfl
    · exact othersDead_run hx hr hq he rfl

/-- The two processes of an interactive judgement, up to and including their
`execve`. -/
def interactActs : List (Act judgerIface) :=
  launchActs ++ okActs 2 6 ++ okActs 3 8 ++ okActs 2 9

/-- Is process `j` alive? -/
def isAlive (j : Nat) (w : JWorld) : Bool := (w.procs j).any fun q => q.mode.alive

/-- The interactor ends first, the executable goes on, and the judger returns. -/
theorem no_survivor_executable : ∃ w,
    Reaches killers Always
      (World.init (.inheritedBelow 4) (yjudgerInteractive sampleMem) 1) w ∧
      ¬ NoSurvivor w := by
  have hrun : ((World.init (.inheritedBelow 4) (yjudgerInteractive sampleMem) 1).run killers
      (interactActs ++ [.quit 2 0] ++ okActs 1 1 ++ askActs 1 1 ++ okActs 1 1 ++ askActs 1 2)).any
        (fun w => hasReturned w && isAlive 3 w) = true := by decide +kernel
  obtain ⟨w, hr, hw⟩ := reaches_of_any hrun
  rw [Bool.and_eq_true] at hw
  refine ⟨w, hr, fun hns => ?_⟩
  obtain ⟨q, a, hq, hc⟩ := returned_of_check hw.1
  obtain ⟨p, hp, ha⟩ := (Option.any_eq_true _ _).mp hw.2
  rw [hns q a hq hc 3 p (by decide) hp] at ha
  cases ha

/-- The executable ends before the interactor does. -/
theorem no_survivor_quit : ∃ w, hasReturned w = true ∧ NoSurvivor w := by
  have hrun : ((World.init (.inheritedBelow 4) (yjudgerInteractive sampleMem) 1).runIf killers
      clean (interactActs ++ [.quit 3 0, .quit 2 0] ++ okActs 1 1 ++ askActs 1 1 ++ okActs 1 1 ++
        askActs 1 2)).any hasReturned = true := by decide +kernel
  obtain ⟨w, hr, hw⟩ := reaches_of_anyIf hrun
  exact ⟨w, hw, @no_survivor sampleMem 0 rfl (.inheritedBelow 4) 1 w hr⟩

end YaojJudger
