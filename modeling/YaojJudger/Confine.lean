/-
# `YaojJudger.Confine` — nothing is judged unconfined

A process execs only after it has gone through every step of its confinement,
and the parent starts the clock only after the processes it judges have.

What a process has done is read off its record.  The events after the `fork`
it came from are its own, so "all steps succeeded, in this order" says that the
record goes on, right behind that `fork`, with the successful events of those
steps (`GeneralConfined`, `ExecutableConfined`, `InteractorConfined`).

The argument has two halves.

* Per process, by the `wp` rules: no call is made, and no READY is sent, too
  early.  `Owed` is what is owed before a call.
* Between processes, by conservation of messages: who got READY from a pipe
  got it from a process that had the right to send it.

For the second half the pipes must not be mixed up.  The child may have lost
the descriptors of `p_run` to its own `dup2` calls, which is harmless here; the
descriptors of `i_run` it cannot lose, since six others were allocated before.
-/
import YaojJudger.Launch

namespace YaojJudger

open Posix

/-! ## Signals sent and received -/

/-- The pipe `i_run`: the third one of the interactor process `i`. -/
abbrev iRunId (i : Nat) : PipeId := (i, 2)

/-- The process and its ancestors have not sent READY on any pipe. -/
def NotReady (l : JLocal) : Prop := ∀ id, (id, ready) ∉ l.wrote

theorem notReady_of_wrote {l : JLocal} (h : l.wrote = []) : NotReady l :=
  fun _ hm => absurd (h ▸ hm) List.not_mem_nil

theorem NotReady.keeps {n : Nat} {l l' : JLocal} (h : NotReady l) (hk : Keeps n l l') :
    NotReady l' :=
  fun id hm => h id (hk.wrote ▸ hm)

theorem notReady_after {l : JLocal} (h : NotReady l) {c : Call} {r : Ret c}
    (hs : l.sent c r = none) :
    NotReady (l.after c r) := by
  intro id hm
  rw [Local.after_wrote, hs] at hm
  exact h id (by simpa using hm)

/-- Sending anything else keeps it so. -/
theorem notReady_write {l : JLocal} (h : NotReady l) {fd : Nat} {v : Int} (hv : v ≠ ready)
    (r : Bool) :
    NotReady (l.after (.write fd v : Call) r) := by
  intro id hm
  rw [Local.after_wrote, List.mem_append] at hm
  rcases hm with hm | hm
  · exact h id hm
  · cases r with
    | false => exact absurd hm List.not_mem_nil
    | true =>
        obtain ⟨id', -, he⟩ := Option.map_eq_some_iff.mp (Option.mem_toList.mp hm)
        exact hv (Prod.mk.inj he).2

/-- What a successful write of READY adds. -/
theorem mem_wrote_write {l : JLocal} (h : NotReady l) {fd : Nat} {r : Bool} {id : PipeId}
    (hm : (id, ready) ∈ (l.after (.write fd ready : Call) r).wrote) : l.outPipe fd = some id := by
  rw [Local.after_wrote, List.mem_append] at hm
  rcases hm with hm | hm
  · exact absurd hm (h id)
  · cases r with
    | false => exact absurd hm List.not_mem_nil
    | true =>
        obtain ⟨id', hid, he⟩ := Option.map_eq_some_iff.mp (Option.mem_toList.mp hm)
        rw [hid, (Prod.mk.inj he).1]

theorem mem_got_read {l : JLocal} {fd : Nat} {id : PipeId} (hin : l.inPipe fd = some id) (v : Int) :
    (id, v) ∈ (l.after (.read fd : Call) (some v)).got := by
  rw [Local.after_got, Local.taken, hin]
  exact List.mem_append_right _ List.mem_cons_self

/-! ## What is owed -/

def isExecve : Call → Bool
  | .execve _ _ _ => true
  | _ => false

theorem not_execve_of_quiet {n : Nat} {c : Call} (h : Quiet n c) : isExecve c = false := by
  cases c <;> first | rfl | exact h.elim

/-- READY has gone only where it may, by `P`. -/
def SentBy (P : PipeId → JLocal → Prop) (l : JLocal) : Prop := ∀ id, (id, ready) ∈ l.wrote → P id l

/-- What is owed before a call: every READY sent was due, `execve` is due by
`E`, and the clock starts after READY has come. -/
structure Owed (P : PipeId → JLocal → Prop) (E : JLocal → Call → Prop) (l : JLocal) (c : Call) :
    Prop where
  sent : SentBy P l
  exec : isExecve c = true → E l c
  clock : startsClock c = true → (pRunId, ready) ∈ l.got

/-- The record of the same process, later. -/
structure Grows (l l' : JLocal) : Prop where
  pid : l'.pid = l.pid
  log : l.log <+: l'.log
  got : l.got ⊆ l'.got

theorem grows_after {l : JLocal} {c : Call} {r : Ret c} (hpid : (l.after c r).pid = l.pid) :
    Grows l (l.after c r) :=
  ⟨hpid, List.prefix_append _ _, List.subset_append_left _ _⟩

/-- A step that sends nothing. -/
theorem SentBy.grow {P : PipeId → JLocal → Prop} {l l' : JLocal} (h : SentBy P l) (hg : Grows l l')
    (hw : l'.wrote = l.wrote) (hP : ∀ id, P id l → Grows l l' → P id l') : SentBy P l' :=
  fun id hm => hP id (h id (hw ▸ hm)) hg

theorem NotReady.sentBy {P : PipeId → JLocal → Prop} {l : JLocal} (h : NotReady l) : SentBy P l :=
  fun id hm => absurd hm (h id)

section
variable {α : Type} {P : PipeId → JLocal → Prop} {E : JLocal → Call → Prop}
  {Q : JLocal → α → Mem → Prop}

/-- Before READY is sent only `execve` and the clock need a reason. -/
theorem owed_of_notReady {l : JLocal} {c : Call} (hn : NotReady l) (hx : isExecve c = false)
    (hc : startsClock c = false) : Owed P E l c :=
  ⟨hn.sentBy, fun h => absurd (hx.symm.trans h) Bool.false_ne_true,
    fun h => absurd (hc.symm.trans h) Bool.false_ne_true⟩

theorem owed_setup {n : Nat} {l : JLocal} {c : Call} (hn : NotReady l) (hc : Setup n c) :
    Owed P E l c :=
  owed_of_notReady hn (not_execve_of_quiet hc.1) hc.2

theorem owed_launching {l : JLocal} {c : Call} (hn : NotReady l) (hc : Launching c) :
    Owed P E l c := by
  rcases hc with hc | rfl
  · exact owed_setup hn hc
  · exact owed_of_notReady hn rfl rfl

theorem owed_quiet {l : JLocal} {c : Call} (hn : NotReady l) (hc : Quiet 0 c)
    (hgot : (pRunId, ready) ∈ l.got) : Owed P E l c :=
  ⟨hn.sentBy, fun h => absurd ((not_execve_of_quiet hc).symm.trans h) Bool.false_ne_true,
    fun _ => hgot⟩

/-! ## The parent -/

/-- When the parent returns 0, READY has come. -/
def ParentPaid (P : PipeId → JLocal → Prop) (l : JLocal) (r : Int) : Prop :=
  SentBy P l ∧ (r = 0 → (pRunId, ready) ∈ l.got)

theorem NotReady.failed {l : JLocal} {r : Int} (hn : NotReady l) (hr : r ≠ 0) :
    ParentPaid P l r :=
  ⟨hn.sentBy, fun h0 => absurd h0 hr⟩

theorem NotReady.heard {l : JLocal} {r : Int} (hn : NotReady l) (hgot : (pRunId, ready) ∈ l.got) :
    ParentPaid P l r :=
  ⟨hn.sentBy, fun _ => hgot⟩

theorem yreturn_owed {Q : JLocal → Int → Mem → Prop} {l : JLocal} (errnum : Int) (m : Mem)
    (hn : NotReady l) (hQ : ∀ {l' m'}, NotReady l' → l'.got = l.got → Q l' errnum m') :
    Code.wp (Owed P E) (fun l _ => SentBy P l) (yreturn errnum) Q l m := by
  rw [wp_yreturn]
  exact ⟨owed_of_notReady hn rfl rfl, hQ hn rfl⟩

/-- An error after READY has come. -/
theorem yreturnYerrno_owed {l : JLocal} (m : Mem) (hn : NotReady l)
    (hgot : (pRunId, ready) ∈ l.got) :
    Code.wp (Owed P E) (fun l _ => SentBy P l) yreturnYerrno (fun l r _ => ParentPaid P l r)
      l m := by
  rw [yreturnYerrno, Code.wp_bind, Code.wp_get]
  exact yreturn_owed m.yerrno m hn fun hn he => hn.heard (he ▸ hgot)

/-- A chain of hooks run after READY. -/
theorem hooks_owed {l : JLocal} (chain : List Hook) (m : Mem) (hn : NotReady l)
    (hgot : (pRunId, ready) ∈ l.got) :
    Code.wp (Owed P E) (fun l _ => SentBy P l) (runHookChain hookFn chain)
      (fun l' _ _ => NotReady l' ∧ (pRunId, ready) ∈ l'.got) l m := by
  refine Code.wp_post (fun l' _ _ hk => ⟨hn.keeps hk, hk.got ▸ hgot⟩)
    (Code.keeps_wp (fun _ hc => hc) (only_hooks chain m) ?_)
  exact fun l' c hk hc => owed_quiet (hn.keeps hk) hc (hk.got ▸ hgot)

theorem afterWaitpid_owed {l : JLocal} (childPid : Int) (status : Option Nat) (m : Mem)
    (hn : NotReady l) (hgot : (pRunId, ready) ∈ l.got) :
    Code.wp (Owed P E) (fun l _ => SentBy P l) (afterWaitpid childPid status)
      (fun l r _ => ParentPaid P l r) l m := by
  cases status with
  | none =>
      rw [afterWaitpid, Code.wp_bind, Code.wp_call]
      refine ⟨owed_of_notReady hn rfl rfl, fun r _ => ?_⟩
      exact yreturn_owed _ m (notReady_after hn rfl) fun hn _ => hn.failed (by decide)
  | some status =>
      rw [afterWaitpid, Code.wp_bind, wp_modifyCtxt, Code.wp_bind, Code.wp_get, Code.wp_bind]
      refine Code.wp_post (fun l' r m' h => ?_) (hooks_owed _ _ hn hgot)
      rw [Code.wp_ite]
      exact ⟨fun _ => yreturnYerrno_owed m' h.1 h.2, fun _ => h.1.heard h.2⟩

/-- The parent from the fork on. -/
theorem judgerParent_owed {l : JLocal} {pRun : Nat × Nat} {child : Nat} {m₀ : Mem} (childPid : Int)
    (m : Mem) (hl : NewParent pRun child l m₀) :
    Code.wp (Owed P E) (fun l _ => SentBy P l) (judgerParent pRun childPid)
      (fun l r _ => ParentPaid P l r) l m := by
  have hn := notReady_of_wrote hl.wrote
  have hn' : ∀ r, NotReady (l.after (.read pRun.1 : Call) r) := fun r => notReady_after hn rfl
  rw [judgerParent, Code.wp_bind, wp_modifyCtxt, Code.wp_bind, wp_waitSignal]
  refine ⟨owed_of_notReady hn rfl rfl, ?_, fun v _ => ?_⟩
  · rw [if_pos (by decide)]
    exact yreturn_owed _ _ (hn' none) fun hn _ => hn.failed (by decide)
  · rw [Code.wp_ite]
    refine ⟨fun _ => yreturn_owed _ _ (hn' _) fun hn _ => hn.failed (by decide), fun hv => ?_⟩
    obtain rfl : v = ready := not_not.mp hv
    rw [Code.wp_bind, Code.wp_get, Code.wp_bind]
    refine Code.wp_post (fun l' r m' h => ?_)
      (hooks_owed _ _ (hn' _) (mem_got_read hl.readEnd ready))
    rw [Code.wp_ite]
    refine ⟨fun _ => yreturnYerrno_owed m' h.1 h.2, fun _ => ?_⟩
    rw [Code.wp_bind, Code.wp_call]
    refine ⟨⟨h.1.sentBy, (fun h => by cases h), fun _ => h.2⟩, fun status _ => ?_⟩
    refine afterWaitpid_owed childPid status m' (notReady_after h.1 rfl) ?_
    rw [Local.after_got]
    exact List.mem_append_left _ h.2

/-! ## A process that confines itself -/

theorem yexit_owed {l : JLocal} (errnum : Int) (m : Mem) (hn : NotReady l) :
    Code.wp (Owed P E) (fun l _ => SentBy P l) (yexit errnum : Code α) Q l m := by
  rw [yexit, Code.wp_bind, wp_ystrerr, Code.wp_exit]
  exact ⟨owed_of_notReady hn rfl rfl, NotReady.sentBy (l := told l _) hn⟩

/-- FAILED, and the end. -/
theorem yexitNotready_owed {l : JLocal} (code : Int) (spipe : Nat × Nat) (m : Mem)
    (hn : NotReady l) :
    Code.wp (Owed P E) (fun l _ => SentBy P l) (yexitNotready code spipe : Code α) Q l m := by
  rw [yexitNotready, sendSignal, Code.wp_bind, Code.wp_call]
  exact ⟨owed_of_notReady hn rfl rfl,
    fun r _ => yexit_owed code m (notReady_write hn (by decide) r)⟩

theorem yexitNotreadyYerrno_owed {l : JLocal} (spipe : Nat × Nat) (m : Mem) (hn : NotReady l) :
    Code.wp (Owed P E) (fun l _ => SentBy P l) (yexitNotreadyYerrno spipe : Code α) Q l m := by
  rw [yexitNotreadyYerrno, Code.wp_bind, Code.wp_get]
  exact yexitNotready_owed m.yerrno spipe m hn

/-- One step `x` of the confinement, then `y`; `z` is what is done if `x` fails. -/
theorem prework_owed {x : Code Int} {y z : Code α} {R : JLocal → Mem → Prop} {l : JLocal} {m : Mem}
    (hn : NotReady l) (hx : Code.Only (Prework 3) x)
    (hR : Code.wp anyCall anyExit x (fun l' r m' => r = 0 → R l' m') l m)
    (hz : ∀ l' m', NotReady l' → Code.wp (Owed P E) (fun l _ => SentBy P l) z Q l' m')
    (hy : ∀ l' m', NotReady l' → Keeps 3 l l' → R l' m' →
      Code.wp (Owed P E) (fun l _ => SentBy P l) y Q l' m') :
    Code.wp (Owed P E) (fun l _ => SentBy P l) (do if (← x) ≠ 0 then z else y) Q l m := by
  rw [Code.wp_bind]
  refine Code.frame_wp (fun _ hc => hc.confining.quiet) (hx m) hR
    (fun l' c hk hc => owed_setup (hn.keeps hk) ⟨hc.confining.quiet, hc.confining.clock⟩)
    fun l' r m' hk hr => ?_
  rw [Code.wp_ite]
  exact ⟨fun _ => hz l' m' (hn.keeps hk), fun h0 => hy l' m' (hn.keeps hk) hk (hr (not_not.mp h0))⟩

/-- One redirection, then `y`. -/
theorem redirect_owed {oldfd newfd : Nat} {y z : Code α} {l : JLocal} {m : Mem} (hn : NotReady l)
    (hfd : newfd < 3)
    (hz : ∀ l', NotReady l' → Code.wp (Owed P E) (fun l _ => SentBy P l) z Q l' m)
    (hy : l.Can (.dup2 oldfd newfd : Call) true →
      NotReady (l.after (.dup2 oldfd newfd : Call) true) →
      Keeps 3 l (l.after (.dup2 oldfd newfd : Call) true) →
      Code.wp (Owed P E) (fun l _ => SentBy P l) y Q (l.after (.dup2 oldfd newfd : Call) true) m) :
    Code.wp (Owed P E) (fun l _ => SentBy P l)
      (do if ← Code.call (.dup2 oldfd newfd) then y else z) Q l m := by
  rw [Code.wp_bind, Code.wp_call]
  refine ⟨owed_of_notReady hn rfl rfl, fun r hr => ?_⟩
  have hk := keeps_after (n := 3) (c := (.dup2 oldfd newfd : Call)) hfd hr
  cases r with
  | true => exact hy hr (hn.keeps hk) hk
  | false => exact hz _ (hn.keeps hk)

end

/-! ## The child of the general judger -/

/-- The process went, right after the `fork` it came from, through `setpgid`,
the redirections, the limits and the filter, and each of them succeeded. -/
def GeneralConfined (m₀ : Mem) (l : JLocal) : Prop :=
  ∃ before ctxt pid es rest, RunCtxt m₀ before ctxt ∧ PreworkEvents ctxt es ∧
    l.log = before ++ [⟨.fork, .child l.pid⟩, ⟨.getpid, pid⟩, ⟨.setpgid, true⟩] ++ es ++ rest

theorem GeneralConfined.grow {m₀ : Mem} {l l' : JLocal} (h : GeneralConfined m₀ l)
    (hg : Grows l l') : GeneralConfined m₀ l' := by
  obtain ⟨before, ctxt, pid, es, rest, hctxt, hes, he⟩ := h
  obtain ⟨more, hmore⟩ := hg.log
  refine ⟨before, ctxt, pid, es, rest ++ more, hctxt, hes, ?_⟩
  rw [← hmore, he, hg.pid, List.append_assoc _ rest more]

abbrev GeneralOwed (m₀ : Mem) : JLocal → Call → Prop :=
  Owed (fun _ l => GeneralConfined m₀ l) (fun l _ => GeneralConfined m₀ l)

abbrev GeneralSent (m₀ : Mem) : JLocal → Prop := SentBy fun _ l => GeneralConfined m₀ l

section
variable {P : PipeId → JLocal → Prop} {E : JLocal → Call → Prop} {Q : JLocal → Int → Mem → Prop}

/-- READY, then `execve`. -/
theorem generalRun_owed {m₀ m : Mem} {l : JLocal} (pRun : Nat × Nat) (hn : NotReady l)
    (hc : GeneralConfined m₀ l) :
    Code.wp (GeneralOwed m₀) (fun l _ => GeneralSent m₀ l)
      (do let _ ← sendSignal pRun ready; runnerRun; yexit eExec : Code Int) Q l m := by
  rw [Code.wp_bind, sendSignal, Code.wp_call]
  refine ⟨owed_of_notReady hn rfl rfl, fun r _ => ?_⟩
  have hsent : ∀ {l}, GeneralConfined m₀ l → GeneralSent m₀ l := fun hc _ _ => hc
  have hc₁ := hc.grow (grows_after (c := (.write pRun.2 ready : Call)) (r := r) rfl)
  rw [Code.wp_bind, runnerRun, Code.wp_bind, Code.wp_get, Code.wp_call]
  refine ⟨⟨hsent hc₁, fun _ => hc₁, fun h => by cases h⟩, fun r' _ => ?_⟩
  have hc₂ := hc₁.grow (grows_after (c := (.execve (m.ctxt.ectxt.arg 3)
    ((m.ctxt.ectxt.argv.drop 3).map Arg.text) (some m.ctxt.ectxt.env) : Call)) (r := r') rfl)
  rw [yexit, Code.wp_bind, wp_ystrerr, Code.wp_exit, ← after_ask]
  exact ⟨⟨hsent hc₂, (fun h => by cases h), fun h => by cases h⟩,
    hsent (hc₂.grow (grows_after rfl))⟩

/-- FAILED, and the end, with the last error. -/
theorem failed_owed {l : JLocal} (pRun : Nat × Nat) (m : Mem) (hn : NotReady l) :
    Code.wp (Owed P E) (fun l _ => SentBy P l)
      (do let _ ← sendSignal pRun failed; yexitYerrno : Code Int) Q l m := by
  rw [Code.wp_bind, sendSignal, Code.wp_call]
  refine ⟨owed_of_notReady hn rfl rfl, fun r _ => ?_⟩
  rw [yexitYerrno, Code.wp_bind, Code.wp_get]
  exact yexit_owed m.yerrno m (notReady_write hn (by decide) r)

/-- The child of the general judger, from its `child_prework` on. -/
theorem generalChild_from {m₀ m : Mem} {pRun : Nat × Nat} {l : JLocal} (hl : NewChild m₀ pRun l m)
    (hrest : ∀ l₁ m₁ before pid, NotReady l₁ → RunCtxt m₀ before m₁.ctxt →
      l₁.log = before ++ [⟨.fork, .child l₁.pid⟩, ⟨.getpid, pid⟩, ⟨.setpgid, true⟩] →
      Code.wp (Owed P E) (fun l _ => SentBy P l)
        (do
          if (← childPrework) ≠ 0 then
            let _ ← sendSignal pRun failed
            yexitYerrno
          else
            let _ ← sendSignal pRun ready
            runnerRun
            yexit eExec) Q l₁ m₁) :
    Code.wp (Owed P E) (fun l _ => SentBy P l) (generalChild pRun) Q l m := by
  have hn := notReady_of_wrote hl.wrote
  obtain ⟨before, hlog, hctxt, -⟩ := hl.log
  rw [generalChild, Code.wp_bind, Code.wp_call]
  refine ⟨owed_of_notReady hn rfl rfl, fun pid hpid => ?_⟩
  have hk := keeps_after (n := 0) (c := (.getpid : Call)) trivial hpid
  rw [Code.wp_bind, wp_modifyCtxt, Code.wp_bind, Code.wp_call]
  refine ⟨owed_of_notReady (hn.keeps hk) rfl rfl, fun r hr => ?_⟩
  have hk₁ := hk.trans (keeps_after (n := 0) (c := (.setpgid : Call)) trivial hr)
  cases r with
  | false => exact yexitNotready_owed eSetpgid pRun _ (hn.keeps hk₁)
  | true =>
      refine hrest _ _ before pid (hn.keeps hk₁) ⟨hctxt.1, hctxt.2, hctxt.3⟩ ?_
      rw [hk₁.pid]
      simp [hlog]

theorem generalChild_owed {m₀ m : Mem} {pRun : Nat × Nat} {l : JLocal} (hl : NewChild m₀ pRun l m) :
    Code.wp (GeneralOwed m₀) (fun l _ => GeneralSent m₀ l) (generalChild pRun) Q l m := by
  refine generalChild_from hl fun l₁ m₁ before pid hn hctxt hlog => ?_
  refine prework_owed hn only_childPrework
    (Code.wp_post (fun _ _ _ h => h.1) (guarded_childPrework _ _))
    (fun l' m' hn' => failed_owed pRun m' hn') fun l' m' hn' hk' hR => generalRun_owed pRun hn' ?_
  obtain ⟨-, es, hes, hl'⟩ := hR
  refine ⟨before, _, pid, es, [], hctxt, hes, ?_⟩
  rw [hl', hlog, hk'.pid, List.append_nil]

end

/-- **What every process of the general judger owes.** -/
theorem yjudgerGeneral_owed (t : FdTable) {m : Mem} (hb : BuiltinHooks m.ctxt.hctxt) :
    Code.wp (GeneralOwed m) (fun l _ => GeneralSent m l) yjudgerGeneral
      (fun l _ _ => GeneralSent m l) (.start t) m := by
  exact yjudgerGeneral_wp hb (fun hl hc => owed_launching (notReady_of_wrote hl.wrote) hc)
    (fun hl => owed_of_notReady (notReady_of_wrote hl.wrote) rfl rfl)
    (fun _ hl => (notReady_of_wrote hl.wrote).sentBy) (fun _ _ hl => generalChild_owed hl)
    fun _ m' c _ hl => Code.wp_post (fun _ _ _ h => h.1) (judgerParent_owed c m' hl)

/-! ## The two processes of the interactive judger -/

/-- The process went, right after the second `fork`, through the three
redirections, the limits and the filter; its parent is process `i`. -/
def ExecutableConfined (m₀ : Mem) (i : Nat) (l : JLocal) : Prop :=
  ∃ before pid r itoe etoi iRun ctxt es rest, RunCtxt m₀ before ctxt ∧
    Then (fun ctxt es => ErrorEvents 5 ctxt.ectxt es) (Then LimitEvents PolicyEvents) ctxt es ∧
    l.log = joinEvents before i pid r itoe etoi iRun ++
      [⟨.fork, .child l.pid⟩, ⟨.dup2 itoe.1 0, true⟩, ⟨.dup2 etoi.2 1, true⟩] ++ es ++ rest

/-- The process went, right after the second `fork`, through the three
redirections and the filter. -/
def InteractorConfined (m₀ : Mem) (l : JLocal) : Prop :=
  ∃ before pid r itoe etoi iRun forked ctxt es rest, RunCtxt m₀ before ctxt ∧
    Then (fun ctxt es => ErrorEvents 4 ctxt.ectxt es) PolicyEvents ctxt es ∧
    (∀ e, forked ≠ .child e) ∧
    l.log = joinEvents before l.pid pid r itoe etoi iRun ++
      [⟨.fork, forked⟩, ⟨.dup2 etoi.1 0, true⟩, ⟨.dup2 itoe.2 1, true⟩] ++ es ++ rest

theorem ExecutableConfined.grow {m₀ : Mem} {i : Nat} {l l' : JLocal} (h : ExecutableConfined m₀ i l)
    (hg : Grows l l') : ExecutableConfined m₀ i l' := by
  obtain ⟨before, pid, r, itoe, etoi, iRun, ctxt, es, rest, hctxt, hes, he⟩ := h
  obtain ⟨more, hmore⟩ := hg.log
  refine ⟨before, pid, r, itoe, etoi, iRun, ctxt, es, rest ++ more, hctxt, hes, ?_⟩
  rw [← hmore, he, hg.pid, List.append_assoc _ rest more]

theorem InteractorConfined.grow {m₀ : Mem} {l l' : JLocal} (h : InteractorConfined m₀ l)
    (hg : Grows l l') : InteractorConfined m₀ l' := by
  obtain ⟨before, pid, r, itoe, etoi, iRun, forked, ctxt, es, rest, hctxt, hes, hf, he⟩ := h
  obtain ⟨more, hmore⟩ := hg.log
  refine ⟨before, pid, r, itoe, etoi, iRun, forked, ctxt, es, rest ++ more, hctxt, hes, hf, ?_⟩
  rw [← hmore, he, hg.pid, List.append_assoc _ rest more]

/-- The interactor may go on: it is confined, and the executable is ready. -/
def InteractorReady (m₀ : Mem) (l : JLocal) : Prop :=
  InteractorConfined m₀ l ∧ (iRunId l.pid, ready) ∈ l.got

/-- Who may send READY on a pipe. -/
def MaySend (m₀ : Mem) (id : PipeId) (l : JLocal) : Prop :=
  (id = pRunId → InteractorReady m₀ l) ∧ ∀ i, id = iRunId i → ExecutableConfined m₀ i l

theorem InteractorReady.grow {m₀ : Mem} {l l' : JLocal} (h : InteractorReady m₀ l)
    (hg : Grows l l') :
    InteractorReady m₀ l' :=
  ⟨h.1.grow hg, hg.pid ▸ hg.got h.2⟩

theorem maySend_grow {m₀ : Mem} {l l' : JLocal} (id : PipeId) (h : MaySend m₀ id l)
    (hg : Grows l l') : MaySend m₀ id l' :=
  ⟨fun hid => (h.1 hid).grow hg, fun i hi => (h.2 i hi).grow hg⟩

/-- Who may exec what. -/
def MayExec (m₀ : Mem) (l : JLocal) (c : Call) : Prop :=
  (c = .execve (m₀.ctxt.ectxt.arg 0) [mainName] none ∧ ∃ i, ExecutableConfined m₀ i l) ∨
    (c = .execve (m₀.ctxt.ectxt.arg 1)
        [interactorName, m₀.ctxt.ectxt.arg 2, m₀.ctxt.ectxt.arg 3] none ∧
      InteractorReady m₀ l)

/-- The same with `D i` in place of what an executable whose parent is `i` has done. -/
def MaySendIf (D : Nat → JLocal → Prop) (m₀ : Mem) (id : PipeId) (l : JLocal) : Prop :=
  (id = pRunId → InteractorReady m₀ l) ∧ ∀ i, id = iRunId i → D i l

def MayExecIf (D : Nat → JLocal → Prop) (m₀ : Mem) (l : JLocal) (c : Call) : Prop :=
  (c = .execve (m₀.ctxt.ectxt.arg 0) [mainName] none ∧ ∃ i, D i l) ∨
    (c = .execve (m₀.ctxt.ectxt.arg 1)
        [interactorName, m₀.ctxt.ectxt.arg 2, m₀.ctxt.ectxt.arg 3] none ∧
      InteractorReady m₀ l)

abbrev InteractiveOwed (m₀ : Mem) : JLocal → Call → Prop := Owed (MaySend m₀) (MayExec m₀)

abbrev InteractiveOwedIf (D : Nat → JLocal → Prop) (m₀ : Mem) : JLocal → Call → Prop :=
  Owed (MaySendIf D m₀) (MayExecIf D m₀)

abbrev InteractiveSentIf (D : Nat → JLocal → Prop) (m₀ : Mem) : JLocal → Prop :=
  SentBy (MaySendIf D m₀)

abbrev InteractiveSent (m₀ : Mem) : JLocal → Prop := SentBy (MaySend m₀)

section
variable {α : Type} {Q : JLocal → α → Mem → Prop}

/-- READY on `i_run`, then `execve`. -/
theorem executableRun_owed {m₀ m : Mem} {i : Nat} {l : JLocal} {iRun : Nat × Nat} (hn : NotReady l)
    (hout : l.outPipe iRun.2 = some (iRunId i)) (hm : m.ctxt.ectxt = m₀.ctxt.ectxt)
    (hc : ExecutableConfined m₀ i l) :
    Code.wp (InteractiveOwed m₀) (fun l _ => InteractiveSent m₀ l)
      (do let _ ← sendSignal iRun ready; runExecutable; Code.exit eExec : Code α) Q l m := by
  rw [Code.wp_bind, sendSignal, Code.wp_call]
  refine ⟨owed_of_notReady hn rfl rfl, fun r _ => ?_⟩
  have hc₁ := hc.grow (grows_after (c := (.write iRun.2 ready : Call)) (r := r) rfl)
  have hsent : InteractiveSent m₀ (l.after (.write iRun.2 ready : Call) r) := by
    intro id hid
    obtain rfl : iRunId i = id := Option.some.inj (hout.symm.trans (mem_wrote_write hn hid))
    refine ⟨(fun h => by cases (Prod.mk.inj h).2), fun j hj => ?_⟩
    rw [← (Prod.mk.inj hj).1]
    exact hc₁
  rw [Code.wp_bind, runExecutable, Code.wp_bind, Code.wp_get, Code.wp_call, hm]
  refine ⟨⟨hsent, fun _ => Or.inl ⟨rfl, i, hc₁⟩, fun h => by cases h⟩, fun _ _ => ?_⟩
  rw [Code.wp_exit]
  exact hsent.grow (grows_after rfl) (List.append_nil _) (maySend_grow)

theorem childExecProcess_owed {m₀ m : Mem} {i : Nat} {l : JLocal} {iRun : Nat × Nat}
    {before : List JEvent} {pid e : Nat} {r : Bool} {itoe etoi : Nat × Nat} (hn : NotReady l)
    (hrun : 3 ≤ iRun.2) (hout : ∃ d, l.fds.get iRun.2 = some d ∧ d.obj = .pipeOut (iRunId i))
    (hctxt : RunCtxt m₀ before m.ctxt) (hpid : l.pid = e)
    (hlog : l.log = joinEvents before i pid r itoe etoi iRun ++
      [⟨.fork, .child e⟩, ⟨.dup2 itoe.1 0, true⟩, ⟨.dup2 etoi.2 1, true⟩]) :
    Code.wp (InteractiveOwed m₀) (fun l _ => InteractiveSent m₀ l)
      (childExecProcess iRun : Code α) Q l m := by
  rw [childExecProcess]
  refine prework_owed hn (only_errorPrework 5)
    (Code.wp_post (fun _ _ _ h => h.1) (guarded_errorPrework 5 l m))
    (fun l' m' hn => yexitNotreadyYerrno_owed iRun m' hn) fun l₁ m₁ hn₁ hk₁ hR₁ => ?_
  refine prework_owed hn₁ only_applyResourceLimit
    (Code.wp_post (fun _ _ _ h => h.1) (guarded_applyResourceLimit l₁ m₁))
    (fun l' m' hn => yexitNotreadyYerrno_owed iRun m' hn) fun l₂ m₂ hn₂ hk₂ hR₂ => ?_
  refine prework_owed hn₂ only_applyPolicy
    (Code.wp_post (fun _ _ _ h => h.1) (guarded_applyPolicy l₂ m₂))
    (fun l' m' hn => yexitNotreadyYerrno_owed iRun m' hn) fun l₃ m₃ hn₃ hk₃ hR₃ => ?_
  have hk := hk₁.trans (hk₂.trans hk₃)
  obtain ⟨hm, es, hes, hl⟩ := hR₁.trans (hR₂.trans hR₃)
  obtain ⟨d, hd, ho⟩ := hout
  obtain ⟨d', hd', ho'⟩ := hk.obj iRun.2 d hrun hd
  refine executableRun_owed hn₃ (outPipe_of_obj ⟨d', hd', ho'.trans ho⟩) (hm ▸ hctxt.ectxt) ?_
  refine ⟨before, pid, r, itoe, etoi, iRun, m.ctxt, es, [], hctxt, hes, ?_⟩
  rw [hl, hlog, hk.pid, hpid, List.append_nil]

/-- The executable, from its `child_exec_process` on. -/
theorem executableBranch_from {P : PipeId → JLocal → Prop} {E : JLocal → Call → Prop}
    {m₀ m : Mem} {l : JLocal} {pRun itoe etoi iRun : Nat × Nat}
    (hl : Joined m₀ pRun itoe etoi iRun l m) (e : Nat)
    (hrest : ∀ l₂, NotReady l₂ → Keeps 3 (l.after (.fork : Call) (.child e)) l₂ →
      l₂.log = l.log ++ [⟨.fork, .child e⟩, ⟨.dup2 itoe.1 0, true⟩, ⟨.dup2 etoi.2 1, true⟩] →
      Code.wp (Owed P E) (fun l _ => SentBy P l) (childExecProcess iRun : Code α) Q l₂ m) :
    Code.wp (Owed P E) (fun l _ => SentBy P l)
      (executableBranch itoe etoi iRun : Code α) Q (l.after (.fork : Call) (.child e)) m := by
  have hn : NotReady (l.after (.fork : Call) (.child e)) :=
    notReady_of_wrote ((Local.after_fork_wrote _ _).trans hl.fresh.wrote)
  rw [executableBranch]
  refine redirect_owed hn (by decide) (fun l' hn => yexitNotready_owed eDup iRun m hn)
    fun _ hn₁ hk₁ => ?_
  refine redirect_owed hn₁ (by decide) (fun l' hn => yexitNotready_owed eDup iRun m hn)
    fun _ hn₂ hk₂ => ?_
  exact hrest _ hn₂ (hk₁.trans hk₂) (by simp)

theorem executableBranch_owed {m₀ m : Mem} {l : JLocal} {pRun itoe etoi iRun : Nat × Nat}
    (hl : Joined m₀ pRun itoe etoi iRun l m) (e : Nat) :
    Code.wp (InteractiveOwed m₀) (fun l _ => InteractiveSent m₀ l)
      (executableBranch itoe etoi iRun : Code α) Q (l.after (.fork : Call) (.child e)) m := by
  obtain ⟨before, pid, r, hlog, hctxt, -⟩ := hl.log
  refine executableBranch_from hl e fun l₂ hn hk hlog₂ => ?_
  obtain ⟨d, hd, ho⟩ := hk.obj iRun.2 _ hl.run_high.2 hl.runOut
  rw [hlog] at hlog₂
  exact childExecProcess_owed hn hl.run_high.2 ⟨d, hd, ho⟩ hctxt hk.pid hlog₂

/-! ### The interactor -/

/-- The descriptor is in use, and not for the write end of a third pipe. -/
def NotRunEnd (fd : Nat) (l : JLocal) : Prop :=
  ∃ d, l.fds.get fd = some d ∧ ∀ id, d.obj = .pipeOut id → id.2 = 0

theorem NotRunEnd.keeps {fd : Nat} {l l' : JLocal} (h : NotRunEnd fd l) (hk : Keeps 0 l l') :
    NotRunEnd fd l' := by
  obtain ⟨d, hd, ho⟩ := h
  obtain ⟨d', hd', ho'⟩ := hk.obj fd d (Nat.zero_le fd) hd
  exact ⟨d', hd', fun id hid => ho id (ho' ▸ hid)⟩

/-- `dup2` from such a descriptor leaves the others such. -/
theorem NotRunEnd.dup2 {fd oldfd newfd : Nat} {l : JLocal} (h : NotRunEnd fd l)
    (hold : NotRunEnd oldfd l) (r : Bool) :
    NotRunEnd fd (l.after (.dup2 oldfd newfd : Call) r) := by
  cases r with
  | false => exact h
  | true =>
      obtain ⟨d, hd, ho⟩ := hold
      obtain ⟨d₁, hd₁, ho₁⟩ := h
      by_cases heq : oldfd = newfd
      · have hfds : (l.after (.dup2 oldfd newfd : Call) true).fds = l.fds := by
          simp [Local.after, Local.effect, heq]
        exact ⟨d₁, by rw [hfds]; exact hd₁, ho₁⟩
      · have hfds : (l.after (.dup2 oldfd newfd : Call) true).fds =
            l.fds.set newfd { d with cloexec := false } := by
          simp [Local.after, Local.effect, heq, hd]
        by_cases hnew : fd = newfd
        · refine ⟨{ d with cloexec := false }, ?_, ho⟩
          rw [hfds, hnew, FdTable.set_get_self]
        · refine ⟨d₁, ?_, ho₁⟩
          rw [hfds, FdTable.set_get_ne _ _ hnew]
          exact hd₁

/-- `interactor_prework` duplicates a file. -/
theorem errorPrework_notRunEnd {fd i : Nat} {l : JLocal} {m : Mem} (h : NotRunEnd fd l) :
    Code.wp anyCall anyExit (errorPrework i) (fun l' _ _ => NotRunEnd fd l') l m := by
  rw [errorPrework, Code.wp_bind, Code.wp_get, Code.wp_bind, Code.wp_call]
  refine ⟨trivial, fun errorFd hr => ?_⟩
  have hk := keeps_after (n := 0)
    (c := (.open_ (m.ctxt.ectxt.arg i) .writeTruncCreate : Call)) trivial hr
  have h₁ := h.keeps hk
  cases errorFd with
  | none =>
      show Code.wp anyCall anyExit (yreturn eErrfd) _ _ m
      rw [wp_yreturn]
      exact ⟨trivial, h₁⟩
  | some errorFd =>
      have hfile : NotRunEnd errorFd
          (l.after (.open_ (m.ctxt.ectxt.arg i) .writeTruncCreate : Call) (some errorFd)) :=
        ⟨_, FdTable.set_get_self _ _ _, fun id hid => by cases hid⟩
      simp only [Code.wp_bind]
      rw [Code.wp_call]
      refine ⟨trivial, fun r _ => ?_⟩
      have h₂ : NotRunEnd fd (Local.after _ (.dup2 errorFd 2 : Call) r) := h₁.dup2 hfile r
      rw [Code.wp_ite]
      refine ⟨fun _ => h₂, fun _ => ?_⟩
      rw [wp_yreturn]
      exact ⟨trivial, h₂⟩

theorem applyPolicy_notRunEnd {fd : Nat} {l : JLocal} {m : Mem} (h : NotRunEnd fd l) :
    Code.wp anyCall anyExit applyPolicy (fun l' _ _ => NotRunEnd fd l') l m :=
  Code.wp_post (fun _ _ _ hk => h.keeps hk)
    (Code.keeps_wp (fun _ hc => hc.confining.quiet) (only_applyPolicy m) fun _ _ _ _ => trivial)

theorem Guarded.notRunEnd {x : Code Int} {R : JLocal → Mem → JLocal → Mem → Prop} {fd : Nat}
    {l : JLocal} {m : Mem} (hx : Guarded R x)
    (hend : Code.wp anyCall anyExit x (fun l' _ _ => NotRunEnd fd l') l m) :
    Code.wp anyCall anyExit x (fun l' r m' => r = 0 → R l m l' m' ∧ NotRunEnd fd l') l m :=
  Code.wp_mono (fun _ _ _ => trivial) (fun _ _ _ => trivial) (fun _ _ _ h h0 => ⟨h.1.1 h0, h.2⟩)
    (Code.wp_and (hx l m) hend)

theorem NotRunEnd.outPipe {fd : Nat} {l : JLocal} (h : NotRunEnd fd l) {id : PipeId}
    (hout : l.outPipe fd = some id) : id.2 = 0 := by
  obtain ⟨⟨o, b⟩, hd, ho⟩ := h
  simp only [Local.outPipe, hd] at hout
  cases o with
  | pipeOut id' => exact Option.some.inj hout ▸ ho id' rfl
  | file path mode | pipeIn id' | inherited n => cases hout

section
variable {D : Nat → JLocal → Prop} (hD : ∀ i l l', D i l → Grows l l' → D i l')
include hD

/-- READY on `p_run`, then `execve`. -/
theorem interactorRun_owed {m₀ m : Mem} {l : JLocal} {pRun : Nat × Nat} (hn : NotReady l)
    (hrun : NotRunEnd pRun.2 l) (hm : m.ctxt.ectxt = m₀.ctxt.ectxt) (hr : InteractorReady m₀ l) :
    Code.wp (InteractiveOwedIf D m₀) (fun l _ => InteractiveSentIf D m₀ l)
      (do let _ ← sendSignal pRun ready; runInteractor; Code.exit eExec : Code α) Q l m := by
  rw [Code.wp_bind, sendSignal, Code.wp_call]
  refine ⟨owed_of_notReady hn rfl rfl, fun r _ => ?_⟩
  have hr₁ := hr.grow (grows_after (c := (.write pRun.2 ready : Call)) (r := r) rfl)
  have hsent : InteractiveSentIf D m₀ (l.after (.write pRun.2 ready : Call) r) := by
    intro id hid
    refine ⟨fun _ => hr₁, fun i hi => ?_⟩
    have h0 := hrun.outPipe (mem_wrote_write hn hid)
    rw [hi] at h0
    exact absurd h0 (by decide : (2 : Nat) ≠ 0)
  rw [Code.wp_bind, runInteractor, Code.wp_bind, Code.wp_get, Code.wp_call, hm]
  refine ⟨⟨hsent, fun _ => Or.inr ⟨rfl, hr₁⟩, fun h => by cases h⟩, fun _ _ => ?_⟩
  rw [Code.wp_exit]
  refine hsent.grow (grows_after rfl) (List.append_nil _) fun id h hg => ?_
  exact ⟨fun hid => (h.1 hid).grow hg, fun i hi => hD i _ _ (h.2 i hi) hg⟩

theorem interactorReady_owed {m₀ m : Mem} {l : JLocal} {pRun iRun : Nat × Nat}
    {before : List JEvent} {i pid : Nat} {r : Bool} {itoe etoi : Nat × Nat} {forked : Forked}
    (hn : NotReady l) (hrun : 3 ≤ iRun.1) (hend : NotRunEnd pRun.2 l) (hpid : l.pid = i)
    (hin : ∃ d, l.fds.get iRun.1 = some d ∧ d.obj = .pipeIn (iRunId i))
    (hctxt : RunCtxt m₀ before m.ctxt) (hf : ∀ e, forked ≠ .child e)
    (hlog : l.log = joinEvents before i pid r itoe etoi iRun ++
      [⟨.fork, forked⟩, ⟨.dup2 etoi.1 0, true⟩, ⟨.dup2 itoe.2 1, true⟩]) :
    Code.wp (InteractiveOwedIf D m₀) (fun l _ => InteractiveSentIf D m₀ l)
      (interactorReady pRun iRun : Code α) Q l m := by
  rw [interactorReady]
  refine prework_owed hn (only_errorPrework 4)
    ((guarded_errorPrework 4).notRunEnd (errorPrework_notRunEnd hend))
    (fun l' m' hn => yexitNotreadyYerrno_owed pRun m' hn) fun l₁ m₁ hn₁ hk₁ hR₁ => ?_
  refine prework_owed hn₁ only_applyPolicy
    (guarded_applyPolicy.notRunEnd (applyPolicy_notRunEnd hR₁.2))
    (fun l' m' hn => yexitNotreadyYerrno_owed pRun m' hn) fun l₂ m₂ hn₂ hk₂ hR₂ => ?_
  have hk := hk₁.trans hk₂
  obtain ⟨hm, es, hes, hl⟩ := hR₁.1.trans hR₂.1
  have hconf : InteractorConfined m₀ l₂ := by
    refine ⟨before, pid, r, itoe, etoi, iRun, forked, m.ctxt, es, [], hctxt, hes, hf, ?_⟩
    rw [hl, hlog, hk.pid, hpid, List.append_nil]
  have hin₂ : l₂.inPipe iRun.1 = some (iRunId l₂.pid) := by
    obtain ⟨d, hd, ho⟩ := hin
    obtain ⟨d', hd', ho'⟩ := hk.obj iRun.1 d hrun hd
    exact inPipe_of_obj ⟨d', hd', by rw [ho', ho, hk.pid, hpid]⟩
  rw [Code.wp_bind, wp_waitSignal]
  refine ⟨owed_of_notReady hn₂ rfl rfl, ?_, fun v _ => ?_⟩
  · rw [if_pos (by decide)]
    exact yexitNotready_owed eIntactExec pRun m₂ (notReady_after hn₂ rfl)
  · have hn₃ : NotReady (l₂.after (.read iRun.1 : Call) (some v)) := notReady_after hn₂ rfl
    rw [Code.wp_ite]
    refine ⟨fun _ => yexitNotready_owed eIntactExec pRun m₂ hn₃, fun hv => ?_⟩
    obtain rfl : v = ready := not_not.mp hv
    exact interactorRun_owed hD hn₃ hR₂.2 (hm ▸ hctxt.ectxt)
      ⟨hconf.grow (grows_after rfl), mem_got_read hin₂ ready⟩

theorem interactorBranch_owed {m₀ m : Mem} {l : JLocal} {pRun itoe etoi iRun : Nat × Nat}
    (hl : Joined m₀ pRun itoe etoi iRun l m) {forked : Forked} (hf : ∀ e, forked ≠ .child e) :
    Code.wp (InteractiveOwedIf D m₀) (fun l _ => InteractiveSentIf D m₀ l)
      (interactorBranch pRun itoe etoi iRun : Code α) Q (l.after (.fork : Call) forked) m := by
  obtain ⟨before, pid, r, hlog, hctxt, -⟩ := hl.log
  have hn : NotReady (l.after (.fork : Call) forked) :=
    notReady_of_wrote ((Local.after_fork_wrote _ _).trans hl.fresh.wrote)
  have hafter : (l.after (.fork : Call) forked).fds = l.fds ∧
      (l.after (.fork : Call) forked).pid = l.pid := by
    cases forked with
    | child e => exact absurd rfl (hf e)
    | failed | parent e => exact ⟨rfl, rfl⟩
  obtain ⟨hfds, hpid⟩ := hafter
  have hend : NotRunEnd pRun.2 (l.after (.fork : Call) forked) := by
    obtain ⟨d, hd, ho⟩ := hl.fresh.writeEnd
    exact ⟨d, hfds ▸ hd, fun id hid => by rw [ho] at hid; cases hid; rfl⟩
  have hetoi : NotRunEnd etoi.1 (l.after (.fork : Call) forked) :=
    ⟨_, hfds ▸ hl.etoiIn, fun id hid => by cases hid⟩
  have hitoe : NotRunEnd itoe.2 (l.after (.fork : Call) forked) :=
    ⟨_, hfds ▸ hl.itoeOut, fun id hid => by cases hid; rfl⟩
  rw [interactorBranch]
  refine redirect_owed hn (by decide) (fun l' hn => yexitNotready_owed eDup pRun m hn)
    fun _ hn₁ hk₁ => ?_
  refine redirect_owed hn₁ (by decide) (fun l' hn => yexitNotready_owed eDup pRun m hn)
    fun _ hn₂ hk₂ => ?_
  have hk := hk₁.trans hk₂
  obtain ⟨d, hd, ho⟩ := hk.obj iRun.1 _ hl.run_high.1 (hfds ▸ hl.runIn)
  have hlog₂ : (((l.after (.fork : Call) forked).after (.dup2 etoi.1 0 : Call) true).after
      (.dup2 itoe.2 1 : Call) true).log = joinEvents before l.pid pid r itoe etoi iRun ++
        [⟨.fork, forked⟩, ⟨.dup2 etoi.1 0, true⟩, ⟨.dup2 itoe.2 1, true⟩] := by
    simp [hlog]
  exact interactorReady_owed hD hn₂ hl.run_high.1
    ((hend.dup2 hetoi true).dup2 (hitoe.dup2 hetoi true) true) (hk.pid.trans hpid) ⟨d, hd, ho⟩ hctxt
    hf hlog₂

end

/-- **What every process of the interactive judger owes.** -/
theorem yjudgerInteractive_owed (t : FdTable) {m : Mem} (hb : BuiltinHooks m.ctxt.hctxt) :
    Code.wp (InteractiveOwed m) (fun l _ => InteractiveSent m l) yjudgerInteractive
      (fun l _ _ => InteractiveSent m l) (.start t) m := by
  refine yjudgerInteractive_wp hb (fun hl hc => owed_launching (notReady_of_wrote hl.wrote) hc)
    (fun hl => owed_of_notReady (notReady_of_wrote hl.wrote) rfl rfl)
    (fun _ hl => (notReady_of_wrote hl.wrote).sentBy) (fun l m' hl => ?_)
    fun _ m' c _ hl => Code.wp_post (fun _ _ _ h => h.1) (judgerParent_owed c m' hl)
  exact childProcess_wp hl (fun hl hc => owed_launching (notReady_of_wrote hl.wrote) hc.launching)
    (fun hl => owed_of_notReady (notReady_of_wrote hl.wrote) rfl rfl)
    (fun code hl => yexitNotready_owed code _ _ (notReady_of_wrote hl.wrote))
    (fun e hj => executableBranch_owed hj e) fun r hr hj =>
      interactorBranch_owed (D := ExecutableConfined m) (fun _ _ _ h => h.grow) hj hr

end

/-! ## All processes, in every interleaving -/

/-- A world of the judger. -/
abbrev JWorld := World judgerIface (Int × Mem)

section
variable {P : PipeId → JLocal → Prop} {E : JLocal → Call → Prop} {x : Code Int} {t : FdTable}
  {m : Mem} {pgid : Nat} {ok : JWorld → Act judgerIface → Prop} {w : JWorld}

/-- A process at a call has paid what it owes. -/
theorem owed_run
    (hx : Code.wp (Owed P E) (fun l _ => SentBy P l) x (fun l _ _ => SentBy P l) (.start t) m)
    (hr : Reaches killers ok (World.init t (x m) pgid) w) {j : Nat}
    {q : Proc judgerIface (Int × Mem)} (hj : w.procs j = some q) {c : Call}
    {k : Ret c → Prog Call Ret (Int × Mem)} (hc : q.code = .call c k) : Owed P E q.loc c := by
  have hw := hr.wp hx hj
  rw [hc] at hw
  exact hw.1

theorem sentBy_run
    (hx : Code.wp (Owed P E) (fun l _ => SentBy P l) x (fun l _ _ => SentBy P l) (.start t) m)
    (hr : Reaches killers ok (World.init t (x m) pgid) w) {j : Nat}
    {q : Proc judgerIface (Int × Mem)} (hj : w.procs j = some q) : SentBy P q.loc := by
  have hw := hr.wp hx hj
  cases hc : q.code with
  | ret a => rw [hc] at hw; exact hw
  | exit n => rw [hc] at hw; exact hw
  | call c k => rw [hc] at hw; exact hw.1.sent

/-- Who got READY got it from somebody who had the right to send it. -/
theorem sender_run
    (hx : Code.wp (Owed P E) (fun l _ => SentBy P l) x (fun l _ _ => SentBy P l) (.start t) m)
    (hr : Reaches killers ok (World.init t (x m) pgid) w) {j : Nat}
    {q : Proc judgerIface (Int × Mem)} (hj : w.procs j = some q) {id : PipeId}
    (hgot : (id, ready) ∈ q.loc.got) :
    ∃ i p, w.procs i = some p ∧ (id, ready) ∈ p.loc.wrote ∧ P id p.loc := by
  obtain ⟨i, p, hi, hw⟩ := hr.conserved.got_wrote ⟨j, q, hj, hgot⟩
  exact ⟨i, p, hi, hw, sentBy_run hx hr hi id hw⟩

end

/-- A process of `w`, about to make a call or dead before it could. -/
def AtCall (w : JWorld) (j : Nat) (l : JLocal) (c : Call) : Prop :=
  ∃ q k, w.procs j = some q ∧ q.loc = l ∧ q.code = .call c k

/-- A process of `w`. -/
def IsProc (w : JWorld) (j : Nat) (l : JLocal) : Prop := ∃ q, w.procs j = some q ∧ q.loc = l

/-- Nothing runs unconfined under the general judger. -/
structure GeneralSafe (m₀ : Mem) (w : JWorld) : Prop where
  /-- a process at `execve`, or past it, is confined -/
  exec : ∀ {j l c}, AtCall w j l c → isExecve c = true → GeneralConfined m₀ l
  /-- the clock starts after READY -/
  clock : ∀ {j l c}, AtCall w j l c → startsClock c = true → (pRunId, ready) ∈ l.got
  /-- after READY the child is confined -/
  parent : ∀ {j l}, IsProc w j l → (pRunId, ready) ∈ l.got →
    ∃ i l', IsProc w i l' ∧ GeneralConfined m₀ l'

/-- Nothing runs unconfined under the interactive judger. -/
structure InteractiveSafe (m₀ : Mem) (w : JWorld) : Prop where
  /-- a process at `execve`, or past it, may exec what it does -/
  exec : ∀ {j l c}, AtCall w j l c → isExecve c = true → MayExec m₀ l c
  /-- after READY on `i_run` the executable is confined -/
  interactor : ∀ {j l}, IsProc w j l → (iRunId j, ready) ∈ l.got →
    ∃ e l', IsProc w e l' ∧ (iRunId j, ready) ∈ l'.wrote ∧ ExecutableConfined m₀ j l'
  /-- the clock starts after READY -/
  clock : ∀ {j l c}, AtCall w j l c → startsClock c = true → (pRunId, ready) ∈ l.got
  /-- after READY on `p_run` the interactor and the executable are confined -/
  parent : ∀ {j l}, IsProc w j l → (pRunId, ready) ∈ l.got →
    ∃ i l', IsProc w i l' ∧ InteractorConfined m₀ l' ∧
      ∃ e l'', IsProc w e l'' ∧ ExecutableConfined m₀ i l''

/-- **Nothing is judged unconfined**, whatever fails and whoever runs first. -/
theorem never_unconfined {m : Mem} {k : Nat}
    (hm : m.ctxt.hctxt = registerBuiltinHook^[k] hookCtxtCreate)
    (t : FdTable) (pgid : Nat) :
    (∀ {w : JWorld}, Reaches killers Always (World.init t (yjudgerGeneral m) pgid) w →
      GeneralSafe m w) ∧
    ∀ {w : JWorld}, Reaches killers Always (World.init t (yjudgerInteractive m) pgid) w →
      InteractiveSafe m w := by
  have hb : BuiltinHooks m.ctxt.hctxt := hm ▸ builtinHooks_iterate k
  refine ⟨fun {w} hr => ?_, fun {w} hr => ?_⟩
  · have hx := yjudgerGeneral_owed t hb
    constructor
    · rintro j l c ⟨q, k, hj, rfl, hc⟩ he
      exact (owed_run hx hr hj hc).exec he
    · rintro j l c ⟨q, k, hj, rfl, hc⟩ hs
      exact (owed_run hx hr hj hc).clock hs
    · rintro j l ⟨q, hj, rfl⟩ hg
      obtain ⟨i, p, hi, -, hp⟩ := sender_run hx hr hj hg
      exact ⟨i, p.loc, ⟨p, hi, rfl⟩, hp⟩
  · have hx := yjudgerInteractive_owed t hb
    have hinteractor : ∀ {j l}, IsProc w j l → (iRunId j, ready) ∈ l.got →
        ∃ e l', IsProc w e l' ∧ (iRunId j, ready) ∈ l'.wrote ∧ ExecutableConfined m j l' := by
      rintro j l ⟨q, hj, rfl⟩ hg
      obtain ⟨e, p, he, hw, hp⟩ := sender_run hx hr hj hg
      exact ⟨e, p.loc, ⟨p, he, rfl⟩, hw, hp.2 j rfl⟩
    refine ⟨?_, hinteractor, ?_, ?_⟩
    · rintro j l c ⟨q, k, hj, rfl, hc⟩ he
      exact (owed_run hx hr hj hc).exec he
    · rintro j l c ⟨q, k, hj, rfl, hc⟩ hs
      exact (owed_run hx hr hj hc).clock hs
    · rintro j l ⟨q, hj, rfl⟩ hg
      obtain ⟨i, p, hi, -, hp⟩ := sender_run hx hr hj hg
      obtain ⟨hconf, hgot⟩ := hp.1 rfl
      rw [hr.numbered.pid hi] at hgot
      obtain ⟨e, l'', he, -, hl''⟩ := hinteractor ⟨p, hi, rfl⟩ hgot
      exact ⟨i, p.loc, ⟨p, hi, rfl⟩, hconf, e, l'', he, hl''⟩

/-- Is process `j` at `execve`? -/
def atExecve (j : Nat) (w : JWorld) : Bool :=
  (w.procs j).any fun q => match q.code with
    | .call c _ => isExecve c
    | _ => false

theorem atCall_of_atExecve {j : Nat} {w : JWorld} (h : atExecve j w = true) :
    ∃ l c, AtCall w j l c ∧ isExecve c = true := by
  obtain ⟨q, hj, hq⟩ := (Option.any_eq_true _ _).mp h
  cases hc : q.code with
  | ret a => rw [hc] at hq; cases hq
  | exit n => rw [hc] at hq; cases hq
  | call c k => rw [hc] at hq; exact ⟨q.loc, c, ⟨q, k, hj, rfl, hc⟩, hq⟩

/-- Two runs to an `execve`: of the child, and of the interactor. -/
theorem never_unconfined_sample :
    (∃ w l c, AtCall w 2 l c ∧ isExecve c = true ∧ GeneralSafe sampleMem w) ∧
      ∃ w l c, AtCall w 2 l c ∧ isExecve c = true ∧ InteractiveSafe sampleMem w := by
  have hsafe := @never_unconfined sampleMem 0 rfl (.inheritedBelow 4) 1
  have hrun : ((World.init (.inheritedBelow 4) (yjudgerGeneral sampleMem) 1).run killers
      (launchActs ++ okActs 2 11)).any (atExecve 2) = true := by decide +kernel
  have hrun' : ((World.init (.inheritedBelow 4) (yjudgerInteractive sampleMem) 1).run killers
      (launchActs ++ okActs 2 6 ++ okActs 3 7 ++ okActs 2 8)).any (atExecve 2) = true := by
    decide +kernel
  obtain ⟨w, hr, hw⟩ := reaches_of_any hrun
  obtain ⟨w', hr', hw'⟩ := reaches_of_any hrun'
  obtain ⟨l, c, hat, hc⟩ := atCall_of_atExecve hw
  obtain ⟨l', c', hat', hc'⟩ := atCall_of_atExecve hw'
  exact ⟨⟨w, l, c, hat, hc, hsafe.1 hr⟩, w', l', c', hat', hc', hsafe.2 hr'⟩

end YaojJudger
