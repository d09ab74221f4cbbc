/-
# `YaojJudger.Launch` — the way to the fork, common to both judgers

Up to its `fork` the judging process makes one pipe and otherwise only quiet
calls.  So what the two processes start with after the `fork` can be said once
for all the properties that follow:

    Unforked    the process before the `fork`, or after one that failed
    NewChild    the child, right after the `fork`
    NewParent   the parent, right after the `fork`

`yjudgerGeneral_wp` and `yjudgerInteractive_wp` reduce a safety condition of a
judger to one of its child's branch and one of its parent's.
-/
import YaojJudger.Guard
import YaojJudger.Helper
import YaojJudger.Posix.Rules

namespace YaojJudger

open Posix

/-- The pipe `p_run`: the first one of process 1. -/
abbrev pRunId : PipeId := (1, 0)

/-- The descriptors of `p_run` in a process that starts with table `t`. -/
def runPipe (t : FdTable) : Nat × Nat := (Local.start t : JLocal).pipeEnds

/-- An event on the way to the `fork`. -/
def Launched (e : JEvent) : Prop := Quiet 0 e.call ∨ e.call = .pipe

/-- The process is on its way to the `fork`: it has sent and received nothing. -/
structure Unforked (l : JLocal) : Prop where
  wrote : l.wrote = []
  got : l.got = []
  log : ∀ e ∈ l.log, Launched e

/-- The same, or its `fork` has failed. -/
structure Childless (l : JLocal) : Prop where
  wrote : l.wrote = []
  got : l.got = []
  log : ∀ e ∈ l.log, Launched e ∨ e = ⟨.fork, .failed⟩

/-- The context a new process works with: runner and limits are those the
judging began with, and the filter is one the policy compiler delivered. -/
structure RunCtxt (m₀ : Mem) (before : List JEvent) (ctxt : YjudgerCtxt) : Prop where
  ectxt : ctxt.ectxt = m₀.ctxt.ectxt
  rctxt : ctxt.rctxt = m₀.ctxt.rctxt
  compiled : ∃ content dirname,
    (⟨.ask (.kafelCompile content dirname), some ctxt.pctxt.prog⟩ : JEvent) ∈ before

/-- The child of the judging process, right after the `fork`. -/
structure NewChild (m₀ : Mem) (pRun : Nat × Nat) (l : JLocal) (m : Mem) : Prop where
  wrote : l.wrote = []
  got : l.got = []
  npipes : l.npipes = 0
  log : ∃ before, l.log = before ++ [⟨.fork, .child l.pid⟩] ∧ RunCtxt m₀ before m.ctxt ∧
    ∀ e ∈ before, Launched e
  writeEnd : ∃ d, l.fds.get pRun.2 = some d ∧ d.obj = .pipeOut pRunId
  full : l.fds.Full 2

/-- The judging process, right after the `fork` of `child`. -/
structure NewParent (pRun : Nat × Nat) (child : Nat) (l : JLocal) (m : Mem) : Prop where
  wrote : l.wrote = []
  got : l.got = []
  log : ∃ before, l.log = before ++ [⟨.fork, .parent child⟩] ∧ ∀ e ∈ before, Launched e
  readEnd : l.inPipe pRun.1 = some pRunId
  hooks : BuiltinHooks m.ctxt.hctxt

/-! ## The steps -/

theorem Unforked.childless {l : JLocal} (h : Unforked l) : Childless l :=
  ⟨h.wrote, h.got, fun e he => Or.inl (h.log e he)⟩

theorem unforked_start (t : FdTable) : Unforked (.start t) :=
  ⟨rfl, rfl, fun _ he => absurd he List.not_mem_nil⟩

theorem Unforked.keeps {l l' : JLocal} (h : Unforked l) (hk : Keeps 0 l l') : Unforked l' := by
  refine ⟨hk.wrote.trans h.wrote, hk.got.trans h.got, ?_⟩
  intro e he
  obtain ⟨es, hes, hq⟩ := hk.log
  rw [hes, List.mem_append] at he
  rcases he with he | he
  · exact h.log e he
  · exact Or.inl (hq e he)

theorem Unforked.pipe {l : JLocal} (h : Unforked l) (r : Option (Nat × Nat)) :
    Unforked (l.after (.pipe : Call) r) := by
  refine ⟨(List.append_nil _).trans h.wrote, (List.append_nil _).trans h.got, ?_⟩
  intro e he
  rw [Local.after_log, List.mem_append] at he
  rcases he with he | he
  · exact h.log e he
  · exact Or.inr (List.mem_singleton.mp he ▸ rfl)

theorem Childless.asked {l : JLocal} (h : Childless l) (errnum : Int) :
    Childless (told l [⟨.ask (.strerr errnum), ()⟩]) := by
  refine ⟨h.wrote, h.got, ?_⟩
  intro e he
  rw [told_log, List.mem_append] at he
  rcases he with he | he
  · exact h.log e he
  · exact Or.inl (Or.inl (List.mem_singleton.mp he ▸ trivial))

theorem Unforked.failed {l : JLocal} (h : Unforked l) :
    Childless (l.after (.fork : Call) .failed) := by
  refine ⟨(Local.after_fork_wrote _ _).trans h.wrote, (Local.after_fork_got _ _).trans h.got, ?_⟩
  intro e he
  rw [Local.after_log, List.mem_append] at he
  rcases he with he | he
  · exact Or.inl (h.log e he)
  · exact Or.inr (List.mem_singleton.mp he)

/-- An entry of the table under an obligation of the frame rule. -/
theorem keeps_obj {l l' : JLocal} (hk : Keeps 0 l l') {fd : Nat} {o : Obj}
    (h : ∃ d, l.fds.get fd = some d ∧ d.obj = o) : ∃ d, l'.fds.get fd = some d ∧ d.obj = o := by
  obtain ⟨d, hd, ho⟩ := h
  obtain ⟨d', hd', ho'⟩ := hk.obj fd d (Nat.zero_le fd) hd
  exact ⟨d', hd', ho'.trans ho⟩

theorem inPipe_of_obj {l : JLocal} {fd : Nat} {id : PipeId}
    (h : ∃ d, l.fds.get fd = some d ∧ d.obj = .pipeIn id) : l.inPipe fd = some id := by
  obtain ⟨⟨o, b⟩, hd, rfl⟩ := h
  simp only [Local.inPipe, hd]

theorem outPipe_of_obj {l : JLocal} {fd : Nat} {id : PipeId}
    (h : ∃ d, l.fds.get fd = some d ∧ d.obj = .pipeOut id) : l.outPipe fd = some id := by
  obtain ⟨⟨o, b⟩, hd, rfl⟩ := h
  simp only [Local.outPipe, hd]

section
variable {pre : JLocal → Call → Prop} {fin : JLocal → Int → Prop} {Q : JLocal → Int → Mem → Prop}

/-- `fork` as the C code sees it. -/
theorem wp_fork {l : JLocal} {m : Mem} :
    Code.wp pre fin fork Q l m ↔
      pre l .fork ∧ Q (l.after (.fork : Call) .failed) (-1) m ∧
        (∀ child, l.pid < child → Q (l.after (.fork : Call) (.parent child)) child m) ∧
        ∀ self, l.pid < self → Q (l.after (.fork : Call) (.child self)) 0 m := by
  rw [fork, Code.wp_bind, Code.wp_call]
  refine and_congr Iff.rfl ⟨fun h => ⟨h .failed trivial, fun child => h (.parent child),
    fun self => h (.child self)⟩, ?_⟩
  rintro ⟨hf, hp, hc⟩ r hr
  cases r with
  | failed => exact hf
  | parent child => exact hp child hr
  | child self => exact hc self hr

/-- `wait_signal`: what was read, or `-1`. -/
theorem wp_waitSignal {p : Nat × Nat} {l : JLocal} {m : Mem} :
    Code.wp pre fin (waitSignal p) Q l m ↔
      pre l (.read p.1) ∧ Q (l.after (.read p.1 : Call) none) (-1) m ∧
        ∀ v, (l.inPipe p.1).isSome → Q (l.after (.read p.1 : Call) (some v)) v m := by
  rw [waitSignal, Code.wp_bind, Code.wp_call]
  refine and_congr Iff.rfl ⟨fun h => ⟨h none trivial, fun v => h (some v)⟩, ?_⟩
  rintro ⟨hnone, hsome⟩ r hr
  cases r with
  | none => exact hnone
  | some v => exact hsome v hr

/-- The calls of a process up to its `fork`. -/
def Launching (c : Call) : Prop := Setup 0 c ∨ c = .pipe

theorem launching_strerr (errnum : Int) : Launching (.ask (.strerr errnum)) := Or.inl ⟨trivial, rfl⟩

theorem childless_yreturn {l : JLocal} {m : Mem} {errnum : Int} (hne : errnum ≠ 0)
    (hl : Childless l) (hpre : ∀ {l c}, Childless l → Launching c → pre l c)
    (hret : ∀ {l r m}, r ≠ 0 → Childless l → Q l r m) :
    Code.wp pre fin (yreturn errnum) Q l m := by
  rw [wp_yreturn]
  exact ⟨hpre hl (launching_strerr errnum), hret hne (hl.asked errnum)⟩

/-- From `before_fork` on. -/
theorem forked_wp {m : Mem} {pRun : Nat × Nat} {child : Code Int} {l : JLocal} (hl : Unforked l)
    (hb : BuiltinHooks m.ctxt.hctxt)
    (hread : ∃ d, l.fds.get pRun.1 = some d ∧ d.obj = .pipeIn pRunId)
    (hwrite : ∃ d, l.fds.get pRun.2 = some d ∧ d.obj = .pipeOut pRunId) (hfull : l.fds.Full 2)
    {m₀ : Mem} (hm : m.ctxt.ectxt = m₀.ctxt.ectxt ∧ m.ctxt.rctxt = m₀.ctxt.rctxt)
    (hpre : ∀ {l c}, Childless l → Launching c → pre l c) (hfork : ∀ {l}, Unforked l → pre l .fork)
    (hret : ∀ {l r m}, r ≠ 0 → Childless l → Q l r m)
    (hchild : ∀ l m, NewChild m₀ pRun l m → Code.wp pre fin child Q l m)
    (hparent : ∀ l m (c : Nat), c ≠ 0 → NewParent pRun c l m →
      Code.wp pre fin (judgerParent pRun c) Q l m) :
    Code.wp pre fin (do
      if (← beforeFork) ≠ 0 then yreturnYerrno
      else
        let childPid ← fork
        if childPid < 0 then yreturn eFork
        else if childPid = 0 then child
        else judgerParent pRun childPid) Q l m := by
  rw [Code.wp_bind]
  refine Code.frame_wp (fun _ hc => hc.1) (only_beforeFork hb) (guarded_beforeFork hb l)
    (fun l' c hk hc => hpre (hl.keeps hk).childless (Or.inl hc)) fun l₁ r m₁ hk hr => ?_
  have hl₁ := hl.keeps hk
  rw [Code.wp_ite]
  constructor
  · intro hne
    rw [yreturnYerrno, Code.wp_bind, Code.wp_get]
    exact childless_yreturn (hr.2 hne) hl₁.childless hpre hret
  · intro h0
    obtain ⟨hrun, hcompiled⟩ := hr.1 (not_not.mp h0)
    rw [Code.wp_bind, wp_fork]
    refine ⟨hfork hl₁, ?_, fun c hc => ?_, fun self hself => ?_⟩
    · exact childless_yreturn (by decide) hl₁.failed hpre hret
    · have hpos : ¬ ((c : Int) < 0) := by omega
      have hne : ¬ ((c : Int) = 0) := by omega
      rw [if_neg hpos, if_neg hne]
      refine hparent _ m₁ c (by omega) ⟨?_, ?_, ⟨l₁.log, rfl, hl₁.log⟩, ?_, ?_⟩
      · exact (Local.after_fork_wrote _ _).trans hl₁.wrote
      · exact (Local.after_fork_got _ _).trans hl₁.got
      · exact inPipe_of_obj (keeps_obj hk hread)
      · exact hrun.hctxt ▸ hb.register
    · refine hchild _ m₁ ⟨?_, ?_, rfl, ⟨l₁.log, rfl, ?_, hl₁.log⟩, keeps_obj hk hwrite,
        hk.full 2 hfull⟩
      · exact (Local.after_fork_wrote _ _).trans hl₁.wrote
      · exact (Local.after_fork_got _ _).trans hl₁.got
      · exact ⟨hrun.ectxt.trans hm.1, hrun.rctxt.trans hm.2, hcompiled⟩

/-- `pself = getpid()`, then the pipe, then `x`. -/
theorem launch_wp {t : FdTable} {m : Mem} {x : Nat × Nat → Code Int}
    (hpre : ∀ {l c}, Childless l → Launching c → pre l c)
    (hret : ∀ {l r m}, r ≠ 0 → Childless l → Q l r m)
    (hx : ∀ l (m' : Mem), Unforked l → m'.ctxt.ectxt = m.ctxt.ectxt ∧ m'.ctxt.rctxt = m.ctxt.rctxt →
      m'.ctxt.hctxt = m.ctxt.hctxt →
      (∃ d, l.fds.get (runPipe t).1 = some d ∧ d.obj = .pipeIn pRunId) →
      (∃ d, l.fds.get (runPipe t).2 = some d ∧ d.obj = .pipeOut pRunId) → l.fds.Full 2 →
      Code.wp pre fin (x (runPipe t)) Q l m') :
    Code.wp pre fin (do
      judgerStart
      match ← signalPipe with
      | none => yreturn ePipe
      | some pRun => x pRun) Q (.start t) m := by
  have h₀ := unforked_start t
  rw [Code.wp_bind, judgerStart, Code.wp_bind, Code.wp_call]
  refine ⟨hpre h₀.childless (Or.inl ⟨trivial, rfl⟩), fun pid hpid => ?_⟩
  rw [wp_modifyCtxt, Code.wp_bind, signalPipe, Code.wp_call]
  have h₁ : Unforked ((Local.start t).after (.getpid : Call) pid) :=
    h₀.keeps (keeps_after (n := 0) trivial hpid)
  refine ⟨hpre h₁.childless (Or.inr rfl), fun ends hends => ?_⟩
  cases ends with
  | none => exact childless_yreturn (by decide) (h₁.pipe none).childless hpre hret
  | some ends =>
      have hp := piped_after hends
      obtain rfl : ends = runPipe t := hends
      refine hx _ _ (h₁.pipe _) ⟨rfl, rfl⟩ rfl ⟨_, hp.readEnd, rfl⟩ ⟨_, hp.writeEnd, rfl⟩ ?_
      exact (hp.full (k := 0) fun n hn => absurd hn (Nat.not_lt_zero n)).2.2

/-- **A safety condition of `yjudger_general`**, from one of each branch. -/
theorem yjudgerGeneral_wp {t : FdTable} {m : Mem} (hb : BuiltinHooks m.ctxt.hctxt)
    (hpre : ∀ {l c}, Childless l → Launching c → pre l c) (hfork : ∀ {l}, Unforked l → pre l .fork)
    (hret : ∀ {l r m}, r ≠ 0 → Childless l → Q l r m)
    (hchild : ∀ l m', NewChild m (runPipe t) l m' →
      Code.wp pre fin (generalChild (runPipe t)) Q l m')
    (hparent : ∀ l m' (c : Nat), c ≠ 0 → NewParent (runPipe t) c l m' →
      Code.wp pre fin (judgerParent (runPipe t) c) Q l m') :
    Code.wp pre fin yjudgerGeneral Q (.start t) m :=
  launch_wp hpre hret fun _ _ hl hm hh hread hwrite hfull =>
    forked_wp hl (hh ▸ hb) hread hwrite hfull hm hpre hfork hret hchild hparent

/-- **A safety condition of `yjudger_interactive`**, from one of each branch. -/
theorem yjudgerInteractive_wp {t : FdTable} {m : Mem} (hb : BuiltinHooks m.ctxt.hctxt)
    (hpre : ∀ {l c}, Childless l → Launching c → pre l c) (hfork : ∀ {l}, Unforked l → pre l .fork)
    (hret : ∀ {l r m}, r ≠ 0 → Childless l → Q l r m)
    (hchild : ∀ l m', NewChild m (runPipe t) l m' →
      Code.wp pre fin (childProcess (runPipe t)) Q l m')
    (hparent : ∀ l m' (c : Nat), c ≠ 0 → NewParent (runPipe t) c l m' →
      Code.wp pre fin (judgerParent (runPipe t) c) Q l m') :
    Code.wp pre fin yjudgerInteractive Q (.start t) m := by
  refine launch_wp hpre hret fun l m' hl hm hh hread hwrite hfull => ?_
  rw [Code.wp_bind, Code.wp_get, Code.wp_ite]
  refine ⟨fun _ => childless_yreturn (by decide) hl.childless hpre hret, fun _ => ?_⟩
  exact forked_wp hl (hh ▸ hb) hread hwrite hfull hm hpre hfork hret hchild hparent

/-! ## The second fork of the interactive judger -/

/-- What the interactor process has done before the second `fork`. -/
def joinEvents (before : List JEvent) (self pid : Nat) (r : Bool) (itoe etoi iRun : Nat × Nat) :
    List JEvent :=
  before ++ [⟨.fork, .child self⟩, ⟨.getpid, pid⟩, ⟨.setpgid, r⟩, ⟨.pipe, some itoe⟩,
    ⟨.pipe, some etoi⟩, ⟨.pipe, some iRun⟩]

/-- A child that has sent and received nothing, and can still write on `p_run`. -/
structure Fresh (pRun : Nat × Nat) (l : JLocal) : Prop where
  wrote : l.wrote = []
  got : l.got = []
  line : lineage l.log = [l.pid]
  writeEnd : ∃ d, l.fds.get pRun.2 = some d ∧ d.obj = .pipeOut pRunId

/-- The interactor process with its three pipes, about to fork. -/
structure Joined (m₀ : Mem) (pRun itoe etoi iRun : Nat × Nat) (l : JLocal) (m : Mem) : Prop where
  fresh : Fresh pRun l
  log : ∃ before pid r, l.log = joinEvents before l.pid pid r itoe etoi iRun ∧
    RunCtxt m₀ before m.ctxt ∧ ∀ e ∈ before, Launched e
  itoeOut : l.fds.get itoe.2 = some ⟨.pipeOut (l.pid, 0), false⟩
  etoiIn : l.fds.get etoi.1 = some ⟨.pipeIn (l.pid, 1), false⟩
  runIn : l.fds.get iRun.1 = some ⟨.pipeIn (l.pid, 2), false⟩
  runOut : l.fds.get iRun.2 = some ⟨.pipeOut (l.pid, 2), false⟩
  itoe_high : 3 ≤ itoe.2
  etoi_high : 3 ≤ etoi.1
  run_high : 3 ≤ iRun.1 ∧ 3 ≤ iRun.2

theorem Fresh.keeps {pRun : Nat × Nat} {l l' : JLocal} (h : Fresh pRun l) (hk : Keeps 0 l l') :
    Fresh pRun l' :=
  ⟨hk.wrote.trans h.wrote, hk.got.trans h.got, hk.line.trans (hk.pid ▸ h.line),
    keeps_obj hk h.writeEnd⟩

theorem Fresh.piped {pRun ends : Nat × Nat} {l l' : JLocal} (h : Fresh pRun l)
    (hp : Piped l l' ends) : Fresh pRun l' := by
  obtain ⟨d, hd, ho⟩ := h.writeEnd
  refine ⟨hp.wrote.trans h.wrote, hp.got.trans h.got, ?_, d, hp.get hd, ho⟩
  rw [hp.log, lineage_append, h.line, hp.pid]
  rfl

theorem Fresh.noPipe {pRun : Nat × Nat} {l : JLocal} (h : Fresh pRun l) :
    Fresh pRun (l.after (.pipe : Call) none) := by
  refine ⟨(List.append_nil _).trans h.wrote, (List.append_nil _).trans h.got, ?_, h.writeEnd⟩
  rw [Local.after_log, lineage_append, h.line]
  rfl

theorem launched_lineage {es : List JEvent} (h : ∀ e ∈ es, Launched e) : lineage es = [] := by
  refine lineage_eq_nil ?_
  intro e he
  refine Event.born_eq_none ?_
  rintro self rfl
  rcases h _ he with hq | hp
  · exact hq.elim
  · cases hp

theorem NewChild.line {m₀ m : Mem} {pRun : Nat × Nat} {l : JLocal} (h : NewChild m₀ pRun l m) :
    lineage l.log = [l.pid] := by
  obtain ⟨before, hlog, -, hbefore⟩ := h.log
  rw [hlog, lineage_append, launched_lineage hbefore]
  rfl

theorem NewChild.fresh {m₀ m : Mem} {pRun : Nat × Nat} {l : JLocal} (h : NewChild m₀ pRun l m) :
    Fresh pRun l := ⟨h.wrote, h.got, h.line, h.writeEnd⟩

/-- Three pipes, one after the other. -/
theorem joined_of_piped {m₀ m : Mem} {pRun itoe etoi iRun : Nat × Nat} {l l₁ l₂ l₃ : JLocal}
    (hp₁ : Piped l l₁ itoe) (hp₂ : Piped l₁ l₂ etoi) (hp₃ : Piped l₂ l₃ iRun) (hf : Fresh pRun l)
    (hn : l.npipes = 0) (hfull : l.fds.Full 2) {before : List JEvent} {pid : Nat} {r : Bool}
    (hlog : l.log = before ++ [⟨.fork, .child l.pid⟩, ⟨.getpid, pid⟩, ⟨.setpgid, r⟩])
    (hctxt : RunCtxt m₀ before m.ctxt)
    (hbefore : ∀ e ∈ before, Launched e) :
    Joined m₀ pRun itoe etoi iRun l₃ m := by
  obtain ⟨-, hitoe, hfull₁⟩ := hp₁.full hfull
  obtain ⟨hetoi, -, hfull₂⟩ := hp₂.full hfull₁
  obtain ⟨hin, hout, -⟩ := hp₃.full hfull₂
  have hpid₂ : l₂.pid = l.pid := hp₂.pid.trans hp₁.pid
  have hpid : l₃.pid = l.pid := hp₃.pid.trans hpid₂
  have hnext₁ : l.nextPipe = (l₃.pid, 0) := by rw [hpid, Local.nextPipe, hn]
  have hnext₂ : l₁.nextPipe = (l₃.pid, 1) := by
    rw [hpid, Local.nextPipe, hp₁.pid, hp₁.npipes, hn]
  have hnext₃ : l₂.nextPipe = (l₃.pid, 2) := by
    rw [hpid, Local.nextPipe, hpid₂, hp₂.npipes, hp₁.npipes, hn]
  refine ⟨((hf.piped hp₁).piped hp₂).piped hp₃, ⟨before, pid, r, ?_, hctxt, hbefore⟩,
    ?_, ?_, ?_, ?_,
    hitoe, by omega, by omega, by omega⟩
  · rw [hp₃.log, hp₂.log, hp₁.log, hlog, joinEvents, hpid]
    simp
  · rw [← hnext₁]; exact hp₃.get (hp₂.get hp₁.writeEnd)
  · rw [← hnext₂]; exact hp₃.get hp₂.readEnd
  · rw [← hnext₃]; exact hp₃.readEnd
  · rw [← hnext₃]; exact hp₃.writeEnd

/-- The calls of the interactor process up to its `fork`. -/
def Joining : Call → Prop
  | .getpid | .setpgid | .pipe => True
  | _ => False

theorem Joining.launching {c : Call} (h : Joining c) : Launching c := by
  cases c <;> first | exact Or.inr rfl | exact Or.inl ⟨trivial, rfl⟩ | exact h.elim

/-- **A safety condition of `child_process`**, from one of each branch. -/
theorem childProcess_wp {m₀ m : Mem} {pRun : Nat × Nat} {l : JLocal} (hl : NewChild m₀ pRun l m)
    (hpre : ∀ {l c}, Fresh pRun l → Joining c → pre l c) (hfork : ∀ {l}, Fresh pRun l → pre l .fork)
    (hexit : ∀ {l m} code, Fresh pRun l → Code.wp pre fin (yexitNotready code pRun) Q l m)
    (hexec : ∀ {l m itoe etoi iRun} e, Joined m₀ pRun itoe etoi iRun l m →
      Code.wp pre fin (executableBranch itoe etoi iRun) Q (l.after (.fork : Call) (.child e)) m)
    (hinteract : ∀ {l m itoe etoi iRun} (r : Forked), (∀ e, r ≠ .child e) →
      Joined m₀ pRun itoe etoi iRun l m →
      Code.wp pre fin (interactorBranch pRun itoe etoi iRun) Q (l.after (.fork : Call) r) m) :
    Code.wp pre fin (childProcess pRun) Q l m := by
  rw [childProcess, Code.wp_bind, Code.wp_call]
  refine ⟨hpre hl.fresh trivial, fun pid hpid => ?_⟩
  have hk := keeps_after (n := 0) (c := (.getpid : Call)) trivial hpid
  rw [Code.wp_bind, wp_modifyCtxt, Code.wp_bind, Code.wp_call]
  refine ⟨hpre (hl.fresh.keeps hk) trivial, fun r hr => ?_⟩
  have hk₀ := hk.trans (keeps_after (n := 0) (c := (.setpgid : Call)) trivial hr)
  have hf₀ := hl.fresh.keeps hk₀
  obtain ⟨before, hlog, hctxt, hbefore⟩ := hl.log
  have hlog₀ : ((l.after (.getpid : Call) pid).after (.setpgid : Call) r).log = before ++
      [⟨.fork, .child ((l.after (.getpid : Call) pid).after (.setpgid : Call) r).pid⟩,
        ⟨.getpid, pid⟩, ⟨.setpgid, r⟩] := by
    simp [hlog, hk₀.pid]
  rw [Code.wp_bind, Code.wp_call]
  refine ⟨hpre hf₀ trivial, fun itoe hitoe => ?_⟩
  cases itoe with
  | none => exact hexit ePipe hf₀.noPipe
  | some itoe =>
    have hp₁ := piped_after hitoe
    have hf₁ := hf₀.piped hp₁
    simp only [Code.wp_bind]
    rw [Code.wp_call]
    refine ⟨hpre hf₁ trivial, fun etoi hetoi => ?_⟩
    cases etoi with
    | none => exact hexit ePipe hf₁.noPipe
    | some etoi =>
      have hp₂ := piped_after hetoi
      have hf₂ := hf₁.piped hp₂
      simp only [Code.wp_bind]
      rw [Code.wp_call]
      refine ⟨hpre hf₂ trivial, fun iRun hiRun => ?_⟩
      cases iRun with
      | none => exact hexit ePipe hf₂.noPipe
      | some iRun =>
        have hp₃ := piped_after hiRun
        have hjoin : ∀ m : Mem, RunCtxt m₀ before m.ctxt → Joined m₀ pRun itoe etoi iRun _ m :=
          fun m hm => joined_of_piped hp₁ hp₂ hp₃ hf₀ (hk₀.npipes.trans hl.npipes)
            (hk₀.full 2 hl.full) hlog₀ hm hbefore
        simp only [Code.wp_bind]
        rw [wp_fork]
        refine ⟨hfork (hf₂.piped hp₃), ?_, fun e he => ?_, fun e _ => ?_⟩
        · exact hinteract .failed (fun e he => by cases he) (hjoin _ ⟨hctxt.1, hctxt.2, hctxt.3⟩)
        · have hne : (e : Int) ≠ 0 := by omega
          rw [if_neg hne]
          exact hinteract (.parent e) (fun e he => by cases he)
            (hjoin _ ⟨hctxt.1, hctxt.2, hctxt.3⟩)
        · exact hexec e (hjoin _ ⟨hctxt.1, hctxt.2, hctxt.3⟩)

end

/-! ## A small judgement, for runs -/

/-- Six arguments, an empty policy, no limits. -/
def sampleMem : Mem :=
  Mem.create { yjudgerCtxtCreate blankResult noRusage with
    ectxt := { argv := List.replicate 6 { addr := 4096, text := [97] }, env := [] }
    pctxt := { policyCtxtCreate with content := some [] } } 3

/-- The policy compiler delivers the empty filter and the usage is zero; nothing
else works. -/
def sampleAnswers : (q : Ask) → q.Ans
  | .kafelCompile _ _ => some []
  | .getrusage => some noRusage
  | q => Ask.failing q

/-- Process `i` makes `n` calls that succeed. -/
def okActs (i n : Nat) : List (Act judgerIface) := List.replicate n (.sys i .ok)

/-- Process `i` gets `n` answers. -/
def askActs (i n : Nat) : List (Act judgerIface) :=
  List.replicate n (.sys i (.answer sampleAnswers))

/-- Process 1 up to and including its `fork`. -/
def launchActs : List (Act judgerIface) := okActs 1 2 ++ askActs 1 2 ++ okActs 1 2

end YaojJudger
