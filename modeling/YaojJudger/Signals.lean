/-
# `YaojJudger.Signals` — who signals on what, and who waits for it

The judgers are started by signals through two pipes.  Who sends on which, and
who listens to which, is told by a lineage:

    process         lineage    signals on    listens to
    parent          []         -             p_run
    child           [i]        p_run         i_run, when it is an interactor
    executable      [i, e]     i_run         -

`Due` is what is owed before each call.  Its core is that a process does
not exit or exec before it has tried to signal (`Sent`), and that it waits for
a signal only where it is ready to (`AtWait`).

The child signals on a descriptor that the parent has made, and redirects its
own descriptors 0, 1 and 2 before it does; so the write end of `p_run` must not
be one of those.
-/
import YaojJudger.Confine

namespace YaojJudger

open Posix

/-! ## What is owed -/

/-- The pipe a process of this lineage signals on. -/
def targetOf : List Nat → Option PipeId
  | [_] => some pRunId
  | [i, _] => some (iRunId i)
  | _ => none

/-- The pipe a process of this lineage listens to. -/
def sourceOf : List Nat → Option PipeId
  | [] => some pRunId
  | [i] => some (iRunId i)
  | _ => none

/-- The process has sent and received on its own pipes only. -/
structure Tidy (l : JLocal) : Prop where
  wrote : ∀ m ∈ l.wrote, targetOf (lineage l.log) = some m.1
  got : ∀ m ∈ l.got, sourceOf (lineage l.log) = some m.1

/-- A write that failed. -/
def lostWrite : JEvent → Bool
  | ⟨.write _ _, b⟩ => !b
  | _ => false

/-- The process has signalled, or tried to. -/
def Sent (l : JLocal) : Prop := l.wrote ≠ [] ∨ ∃ e ∈ l.log, lostWrite e = true

/-- The parent is about to wait for the child `n` it has just forked; or the
interactor has just installed its filter, after a `fork` that came back to it. -/
def AtWait (l : JLocal) : Prop :=
  (∃ before n, lineage l.log = [] ∧ l.log = before ++ [⟨.fork, .parent n⟩]) ∨
    ∃ before r after prog, lineage l.log = [l.pid] ∧ lineage before = [l.pid] ∧
      (∀ e, r ≠ .child e) ∧ l.log = before ++ ⟨.fork, r⟩ :: after ++ [⟨.setSeccomp prog, true⟩]

/-- What a call of its kind needs. -/
def Due (l : JLocal) : Call → Prop
  | .write fd _ => ∃ id, targetOf (lineage l.log) = some id ∧ l.outPipe fd = some id
  | .read fd =>
      l.got = [] ∧ AtWait l ∧ ∃ id, sourceOf (lineage l.log) = some id ∧ l.inPipe fd = some id
  | .execve _ _ _ => Sent l ∧ lineage l.log ≠ []
  | .killpg _ | .pthreadCreate _ => l.got ≠ [] ∧ lineage l.log = []
  | .fork => lineage l.log = [] → Unforked l
  | .fault => lineage l.log = []
  | _ => True

/-- What is owed before a call. -/
structure HandPre (l : JLocal) (c : Call) : Prop where
  tidy : Tidy l
  due : Due l c

/-- A process, not the parent, that has signalled or tried to. -/
structure Done (l : JLocal) : Prop where
  tidy : Tidy l
  sent : Sent l
  line : lineage l.log ≠ []

/-- What is so at an exit, and what is so at a return. -/
abbrev HandExit : JLocal → Int → Prop := fun l _ => Done l

abbrev HandRet (l : JLocal) : Prop := Tidy l ∧ lineage l.log = []

/-- The process can signal on `id` through `fd`. -/
structure Holds (fd : Nat) (id : PipeId) (l : JLocal) : Prop where
  tidy : Tidy l
  target : targetOf (lineage l.log) = some id
  writeEnd : ∃ d, l.fds.get fd = some d ∧ d.obj = .pipeOut id

/-- The parent has been signalled. -/
structure Heard (l : JLocal) : Prop where
  tidy : Tidy l
  got : l.got ≠ []
  line : lineage l.log = []

/-! ## What the calls do to it -/

theorem tidy_of_nil {l : JLocal} (hw : l.wrote = []) (hg : l.got = []) : Tidy l := by
  constructor
  · intro m hm
    rw [hw] at hm
    exact absurd hm List.not_mem_nil
  · intro m hm
    rw [hg] at hm
    exact absurd hm List.not_mem_nil

section
variable {l : JLocal} {c : Call} {r : Ret c}

/-- A call that moves no signal. -/
theorem Tidy.after (h : Tidy l) (hb : (⟨c, r⟩ : JEvent).born = none) (hs : l.sent c r = none)
    (ht : l.taken c r = none) : Tidy (l.after c r) := by
  have hline := Local.lineage_after (l := l) hb
  constructor
  · intro m hm
    rw [Local.after_wrote, hs] at hm
    exact hline ▸ h.wrote m (by simpa using hm)
  · intro m hm
    rw [Local.after_got, ht] at hm
    exact hline ▸ h.got m (by simpa using hm)

theorem Sent.after (h : Sent l) : Sent (l.after c r) := by
  rcases h with h | ⟨e, he, hlost⟩
  · exact Or.inl (List.append_ne_nil_of_left_ne_nil h _)
  · exact Or.inr ⟨e, List.mem_append_left _ he, hlost⟩

theorem Done.after (h : Done l) (hb : (⟨c, r⟩ : JEvent).born = none) (hs : l.sent c r = none)
    (ht : l.taken c r = none) : Done (l.after c r) :=
  ⟨h.tidy.after hb hs ht, h.sent.after, (Local.lineage_after hb).trans_ne h.line⟩

theorem Heard.after (h : Heard l) (hb : (⟨c, r⟩ : JEvent).born = none) (hs : l.sent c r = none)
    (ht : l.taken c r = none) : Heard (l.after c r) :=
  ⟨h.tidy.after hb hs ht, List.append_ne_nil_of_left_ne_nil h.got _,
    (Local.lineage_after hb).trans h.line⟩

end

theorem Tidy.keeps {n : Nat} {l l' : JLocal} (h : Tidy l) (hk : Keeps n l l') : Tidy l' := by
  constructor
  · intro m hm
    rw [hk.wrote] at hm
    exact hk.line ▸ h.wrote m hm
  · intro m hm
    rw [hk.got] at hm
    exact hk.line ▸ h.got m hm

theorem Heard.keeps {n : Nat} {l l' : JLocal} (h : Heard l) (hk : Keeps n l l') : Heard l' :=
  ⟨h.tidy.keeps hk, hk.got ▸ h.got, hk.line.trans h.line⟩

theorem Holds.keeps {n fd : Nat} {id : PipeId} {l l' : JLocal} (h : Holds fd id l) (hfd : n ≤ fd)
    (hk : Keeps n l l') : Holds fd id l' := by
  obtain ⟨d, hd, ho⟩ := h.writeEnd
  obtain ⟨d', hd', ho'⟩ := hk.obj fd d hfd hd
  exact ⟨h.tidy.keeps hk, hk.line ▸ h.target, d', hd', ho'.trans ho⟩

theorem targetOf_ne_nil {line : List Nat} {id : PipeId} (h : targetOf line = some id) :
    line ≠ [] := by
  rintro rfl
  cases h

/-- A signal sent, or lost. -/
theorem Holds.done {fd : Nat} {id : PipeId} {l : JLocal} (h : Holds fd id l) (v : Int) (r : Bool) :
    Done (l.after (.write fd v : Call) r) := by
  have hline : lineage (l.after (.write fd v : Call) r).log = lineage l.log :=
    Local.lineage_after rfl
  have hout := outPipe_of_obj h.writeEnd
  refine ⟨⟨?_, ?_⟩, ?_, hline ▸ targetOf_ne_nil h.target⟩
  · intro m hm
    rw [Local.after_wrote, List.mem_append] at hm
    rw [hline]
    rcases hm with hm | hm
    · exact h.tidy.wrote m hm
    · cases r with
      | false => exact absurd hm List.not_mem_nil
      | true =>
          simp only [Local.sent, hout, Option.map_some, Option.toList_some,
            List.mem_singleton] at hm
          rw [h.target, hm]
  · intro m hm
    rw [Local.after_got] at hm
    rw [hline]
    exact h.tidy.got m (by simpa [Local.taken] using hm)
  · cases r with
    | false => exact Or.inr ⟨⟨.write fd v, false⟩, List.mem_append_right _ List.mem_cons_self, rfl⟩
    | true => exact Or.inl (by simp [Local.sent, hout])

/-- A signal taken from the pipe the process listens to. -/
theorem Tidy.read {fd : Nat} {id : PipeId} {l : JLocal} (h : Tidy l)
    (hs : sourceOf (lineage l.log) = some id) (hin : l.inPipe fd = some id) (r : Option Int) :
    Tidy (l.after (.read fd : Call) r) := by
  have hline : lineage (l.after (.read fd : Call) r).log = lineage l.log := Local.lineage_after rfl
  constructor
  · intro m hm
    rw [Local.after_wrote] at hm
    rw [hline]
    exact h.wrote m (by simpa [Local.sent] using hm)
  · intro m hm
    rw [Local.after_got, List.mem_append] at hm
    rw [hline]
    rcases hm with hm | hm
    · exact h.got m hm
    · cases r with
      | none => exact absurd hm List.not_mem_nil
      | some v =>
          simp only [Local.taken, hin, Option.map_some, Option.toList_some,
            List.mem_singleton] at hm
          rw [hs, hm]

theorem Holds.read {fd fd' : Nat} {id id' : PipeId} {l : JLocal} (h : Holds fd id l)
    (hs : sourceOf (lineage l.log) = some id') (hin : l.inPipe fd' = some id') (r : Option Int) :
    Holds fd id (l.after (.read fd' : Call) r) := by
  have hline : lineage (l.after (.read fd' : Call) r).log = lineage l.log := Local.lineage_after rfl
  exact ⟨h.tidy.read hs hin r, hline ▸ h.target, h.writeEnd⟩

theorem due_confining {n : Nat} {l : JLocal} {c : Call} (hc : Confining n c) : Due l c := by
  cases c <;> first
    | trivial
    | exact hc.quiet.elim
    | exact Bool.noConfusion hc.clock
    | exact Bool.noConfusion hc.defined

theorem due_heard {l : JLocal} {c : Call} (h : Heard l) (hc : Quiet 0 c) : Due l c := by
  cases c <;> first
    | trivial
    | exact ⟨h.got, h.line⟩
    | exact h.line

/-! ## The branches of the children -/

section
variable {α : Type} {Q : JLocal → α → Mem → Prop}

theorem yexit_hand {l : JLocal} (errnum : Int) (m : Mem) (h : Done l) :
    Code.wp HandPre HandExit (yexit errnum : Code α) Q l m := by
  rw [yexit, Code.wp_bind, wp_ystrerr, Code.wp_exit, ← after_ask]
  exact ⟨⟨h.tidy, trivial⟩, h.after rfl rfl rfl⟩

/-- FAILED, and the end. -/
theorem yexitNotready_hand {id : PipeId} {l : JLocal} {spipe : Nat × Nat} (code : Int) (m : Mem)
    (h : Holds spipe.2 id l) :
    Code.wp HandPre HandExit (yexitNotready code spipe : Code α) Q l m := by
  rw [yexitNotready, sendSignal, Code.wp_bind, Code.wp_call]
  refine ⟨⟨h.tidy, id, h.target, outPipe_of_obj h.writeEnd⟩, ?_⟩
  intro r _
  exact yexit_hand code m (h.done failed r)

theorem yexitNotreadyYerrno_hand {id : PipeId} {l : JLocal} {spipe : Nat × Nat} (m : Mem)
    (h : Holds spipe.2 id l) :
    Code.wp HandPre HandExit (yexitNotreadyYerrno spipe : Code α) Q l m := by
  rw [yexitNotreadyYerrno, Code.wp_bind, Code.wp_get]
  exact yexitNotready_hand m.yerrno m h

/-- READY, then `execve`, then `y` if that fails. -/
theorem ready_hand {id : PipeId} {l : JLocal} {spipe : Nat × Nat} {x : Code Unit} {y : Code α}
    {m : Mem} {path : Bytes} {argv : List Bytes} {env : Option (List Bytes)}
    (h : Holds spipe.2 id l) (hx : x m = .call (.execve path argv env) fun _ => .ret ((), m))
    (hy : ∀ l, Done l → Code.wp HandPre HandExit y Q l m) :
    Code.wp HandPre HandExit (do let _ ← sendSignal spipe ready; x; y) Q l m := by
  rw [Code.wp_bind, sendSignal, Code.wp_call]
  refine ⟨⟨h.tidy, id, h.target, outPipe_of_obj h.writeEnd⟩, ?_⟩
  intro r _
  have hd := h.done ready r
  have hexec : ∀ Q' : JLocal → Unit → Mem → Prop, (∀ l, Done l → Q' l () m) →
      Code.wp HandPre HandExit x Q' (l.after (.write spipe.2 ready : Call) r) m := by
    intro Q' hQ
    rw [Code.wp, hx]
    refine ⟨⟨hd.tidy, hd.sent, hd.line⟩, ?_⟩
    rintro r' _ ⟨-, rfl⟩
    exact hQ _ (hd.after rfl rfl rfl)
  rw [Code.wp_bind]
  exact hexec _ hy

/-- One step `x` of the confinement, then `y`; `z` is what is done if `x` fails. -/
theorem prework_hand {x : Code Int} {y z : Code α} {fd : Nat} {id : PipeId} {l : JLocal} {m : Mem}
    (h : Holds fd id l) (hfd : 3 ≤ fd) (hx : Code.Only (Prework 3) x)
    (hz : ∀ l' m', Holds fd id l' → Code.wp HandPre HandExit z Q l' m')
    (hy : ∀ l' m', Holds fd id l' → Keeps 3 l l' → Code.wp HandPre HandExit y Q l' m') :
    Code.wp HandPre HandExit (do if (← x) ≠ 0 then z else y) Q l m := by
  rw [Code.wp_bind]
  refine Code.wp_post ?_ (Code.keeps_wp (fun _ hc => hc.confining.quiet) (hx m) ?_)
  · intro l' r m' hk
    rw [Code.wp_ite]
    exact ⟨fun _ => hz l' m' (h.keeps hfd hk), fun _ => hy l' m' (h.keeps hfd hk) hk⟩
  · intro l' c hk hc
    exact ⟨h.tidy.keeps hk, due_confining hc.confining⟩

/-- One redirection, then `y`. -/
theorem redirect_hand {oldfd newfd fd : Nat} {y z : Code α} {id : PipeId} {l : JLocal} {m : Mem}
    (h : Holds fd id l) (hfd : 3 ≤ fd) (hnew : newfd < 3)
    (hz : ∀ l', Holds fd id l' → Code.wp HandPre HandExit z Q l' m)
    (hy : ∀ l', Holds fd id l' → Keeps 3 l l' → Code.wp HandPre HandExit y Q l' m) :
    Code.wp HandPre HandExit (do if ← Code.call (.dup2 oldfd newfd) then y else z) Q l m := by
  rw [Code.wp_bind, Code.wp_call]
  refine ⟨⟨h.tidy, trivial⟩, ?_⟩
  intro r hr
  have hk := keeps_after (n := 3) (c := (.dup2 oldfd newfd : Call)) hnew hr
  cases r with
  | true => exact hy _ (h.keeps hfd hk) hk
  | false => exact hz _ (h.keeps hfd hk)

theorem fresh_holds {pRun : Nat × Nat} {l : JLocal} (h : Fresh pRun l) : Holds pRun.2 pRunId l :=
  ⟨tidy_of_nil h.wrote h.got, by rw [h.line]; rfl, h.writeEnd⟩

theorem generalChild_hand {m₀ m : Mem} {pRun : Nat × Nat} {l : JLocal}
    {Q : JLocal → Int → Mem → Prop}
    (hl : NewChild m₀ pRun l m) (hfd : 3 ≤ pRun.2) :
    Code.wp HandPre HandExit (generalChild pRun) Q l m := by
  have h := fresh_holds hl.fresh
  have hfail : ∀ l m, Holds pRun.2 pRunId l → Code.wp HandPre HandExit
      (do let _ ← sendSignal pRun failed; yexitYerrno : Code Int) Q l m := by
    intro l m h
    exact yexitNotreadyYerrno_hand m h
  rw [generalChild, Code.wp_bind, Code.wp_call]
  refine ⟨⟨h.tidy, trivial⟩, ?_⟩
  intro pid hpid
  have hk := keeps_after (n := 0) (c := (.getpid : Call)) trivial hpid
  rw [Code.wp_bind, wp_modifyCtxt, Code.wp_bind, Code.wp_call]
  refine ⟨⟨h.tidy.keeps hk, trivial⟩, ?_⟩
  intro r hr
  have hk₁ := hk.trans (keeps_after (n := 0) (c := (.setpgid : Call)) trivial hr)
  have h₁ := h.keeps (Nat.zero_le _) hk₁
  cases r with
  | false => exact yexitNotready_hand eSetpgid _ h₁
  | true =>
      refine prework_hand h₁ hfd only_childPrework hfail ?_
      intro l' m' h' _
      exact ready_hand h' rfl fun l hd => yexit_hand eExec m' hd

theorem exit_hand {l : JLocal} (n : Int) (m : Mem) (h : Done l) :
    Code.wp HandPre HandExit (Code.exit n : Code α) Q l m := (Code.wp_exit n).mpr h

theorem childExecProcess_hand {m : Mem} {id : PipeId} {iRun : Nat × Nat} {l : JLocal}
    (h : Holds iRun.2 id l) (hfd : 3 ≤ iRun.2) :
    Code.wp HandPre HandExit (childExecProcess iRun : Code α) Q l m := by
  have hfail : ∀ l m, Holds iRun.2 id l →
      Code.wp HandPre HandExit (yexitNotreadyYerrno iRun : Code α) Q l m := by
    intro l m h
    exact yexitNotreadyYerrno_hand m h
  rw [childExecProcess]
  refine prework_hand h hfd (only_errorPrework 5) hfail ?_
  intro l₁ m₁ h₁ _
  refine prework_hand h₁ hfd only_applyResourceLimit hfail ?_
  intro l₂ m₂ h₂ _
  refine prework_hand h₂ hfd only_applyPolicy hfail ?_
  intro l₃ m₃ h₃ _
  exact ready_hand h₃ rfl fun l hd => exit_hand eExec m₃ hd

theorem executableBranch_hand {m₀ m : Mem} {pRun itoe etoi iRun : Nat × Nat} {l : JLocal} (e : Nat)
    (hj : Joined m₀ pRun itoe etoi iRun l m) :
    Code.wp HandPre HandExit (executableBranch itoe etoi iRun : Code α) Q
      (l.after (.fork : Call) (.child e)) m := by
  have hfd := hj.run_high.2
  have h : Holds iRun.2 (iRunId l.pid) (l.after (.fork : Call) (.child e)) := by
    refine ⟨?_, ?_, _, hj.runOut, rfl⟩
    · exact tidy_of_nil ((Local.after_fork_wrote _ _).trans hj.fresh.wrote)
        ((Local.after_fork_got _ _).trans hj.fresh.got)
    · rw [Local.after_log, lineage_append, hj.fresh.line]
      rfl
  rw [executableBranch]
  refine redirect_hand h hfd (by decide) (fun l' h' => yexitNotready_hand eDup m h') ?_
  intro l₁ h₁ _
  refine redirect_hand h₁ hfd (by decide) (fun l' h' => yexitNotready_hand eDup m h') ?_
  intro l₂ h₂ _
  exact childExecProcess_hand h₂ hfd

/-! ### The interactor -/

/-- What the interactor does with what it reads. -/
theorem interactorHeard_hand {m : Mem} {pRun : Nat × Nat} {l : JLocal} (h : Holds pRun.2 pRunId l)
    (v : Int) :
    Code.wp HandPre HandExit (do
      if v ≠ ready then yexitNotready eIntactExec pRun
      else
        let _ ← sendSignal pRun ready
        runInteractor
        Code.exit eExec : Code α) Q l m := by
  rw [Code.wp_ite]
  constructor
  · intro _
    exact yexitNotready_hand eIntactExec m h
  · intro _
    exact ready_hand h rfl fun l hd => exit_hand eExec m hd

/-- The interactor once it is redirected; `l₀` is the process before its `fork`. -/
theorem interactorReady_hand {m : Mem} {pRun iRun : Nat × Nat} (l₀ : JLocal) {l : JLocal}
    {r : Forked}
    (h : Holds pRun.2 pRunId l) (hfd : 3 ≤ pRun.2) (hrun : 3 ≤ iRun.1) (hgot : l.got = [])
    (hl₀ : lineage l₀.log = [l.pid]) (hr : ∀ e, r ≠ .child e)
    (hlog : ∃ es, l.log = l₀.log ++ ⟨.fork, r⟩ :: es) (hline : lineage l.log = [l.pid])
    (hin : ∃ d, l.fds.get iRun.1 = some d ∧ d.obj = .pipeIn (iRunId l.pid)) :
    Code.wp HandPre HandExit (interactorReady pRun iRun : Code α) Q l m := by
  have hfail : ∀ l m, Holds pRun.2 pRunId l →
      Code.wp HandPre HandExit (yexitNotreadyYerrno pRun : Code α) Q l m := by
    intro l m h
    exact yexitNotreadyYerrno_hand m h
  rw [interactorReady]
  refine prework_hand h hfd (only_errorPrework 4) hfail ?_
  intro l₁ m₁ h₁ hk₁
  rw [Code.wp_bind]
  refine Code.frame_wp (n := 3) (B := Prework 3) (fun _ hc => hc.confining.quiet)
    (only_applyPolicy m₁) (guarded_applyPolicy l₁ m₁) ?_ ?_
  · intro l' c hk hc
    exact ⟨h₁.tidy.keeps hk, due_confining hc.confining⟩
  · intro l₂ r₂ m₂ hk₂ hR
    have h₂ := h₁.keeps hfd hk₂
    have hk := hk₁.trans hk₂
    rw [Code.wp_ite]
    refine ⟨fun _ => hfail l₂ m₂ h₂, fun h0 => ?_⟩
    have hline₂ : lineage l₂.log = [l₂.pid] := by rw [hk.line, hline, hk.pid]
    have hwait : AtWait l₂ := by
      obtain ⟨-, _, rfl, hes⟩ := hR.1 (not_not.mp h0)
      obtain ⟨es₁, hes₁, -⟩ := hk₁.log
      obtain ⟨es, hes₀⟩ := hlog
      refine Or.inr ⟨l₀.log, r, es ++ es₁ ++ [⟨.setNoNewPrivs, true⟩], m₁.ctxt.pctxt.prog, hline₂,
        hl₀.trans (by rw [hk.pid]), hr, ?_⟩
      rw [hes, hes₁, hes₀, policyEvents]
      simp
    have hsource : sourceOf (lineage l₂.log) = some (iRunId l₂.pid) := by rw [hline₂]; rfl
    have hin₂ : l₂.inPipe iRun.1 = some (iRunId l₂.pid) := by
      obtain ⟨d, hd, ho⟩ := hin
      obtain ⟨d', hd', ho'⟩ := hk.obj iRun.1 d hrun hd
      exact inPipe_of_obj ⟨d', hd', by rw [ho', ho, hk.pid]⟩
    rw [Code.wp_bind, wp_waitSignal]
    refine ⟨⟨h₂.tidy, hk.got.trans hgot, hwait, _, hsource, hin₂⟩, ?_, ?_⟩
    · exact interactorHeard_hand (h₂.read hsource hin₂ none) (-1)
    · intro v _
      exact interactorHeard_hand (h₂.read hsource hin₂ (some v)) v

theorem interactorBranch_hand {m₀ m : Mem} {pRun itoe etoi iRun : Nat × Nat} {l : JLocal}
    {r : Forked} (hr : ∀ e, r ≠ .child e) (hj : Joined m₀ pRun itoe etoi iRun l m)
    (hfd : 3 ≤ pRun.2) :
    Code.wp HandPre HandExit (interactorBranch pRun itoe etoi iRun : Code α) Q
      (l.after (.fork : Call) r) m := by
  have hafter : (l.after (.fork : Call) r).fds = l.fds ∧
      (l.after (.fork : Call) r).pid = l.pid := by
    cases r with
    | child e => exact absurd rfl (hr e)
    | failed | parent e => exact ⟨rfl, rfl⟩
  obtain ⟨hfds, hpid⟩ := hafter
  have hline : lineage (l.after (.fork : Call) r).log = [l.pid] := by
    refine (Local.lineage_after (Event.born_eq_none ?_)).trans hj.fresh.line
    intro self he
    cases he
    exact hr self rfl
  have hgot : (l.after (.fork : Call) r).got = [] := (Local.after_fork_got _ _).trans hj.fresh.got
  have h : Holds pRun.2 pRunId (l.after (.fork : Call) r) := by
    refine ⟨?_, by rw [hline]; rfl, hfds ▸ hj.fresh.writeEnd⟩
    exact tidy_of_nil ((Local.after_fork_wrote _ _).trans hj.fresh.wrote) hgot
  rw [interactorBranch]
  refine redirect_hand h hfd (by decide) (fun l' h' => yexitNotready_hand eDup m h') ?_
  intro l₁ h₁ hk₁
  refine redirect_hand h₁ hfd (by decide) (fun l' h' => yexitNotready_hand eDup m h') ?_
  intro l₂ h₂ hk₂
  have hk := hk₁.trans hk₂
  have hpid₂ : l₂.pid = l.pid := hk.pid.trans hpid
  refine interactorReady_hand l h₂ hfd hj.run_high.1 (hk.got.trans hgot) ?_ hr ?_ ?_ ?_
  · rw [hj.fresh.line, hpid₂]
  · obtain ⟨es, hes, -⟩ := hk.log
    exact ⟨es, by rw [hes, Local.after_log, List.append_assoc]; rfl⟩
  · rw [hk.line, hline, hpid₂]
  · obtain ⟨d, hd, ho⟩ := hk.obj iRun.1 _ hj.run_high.1 (hfds ▸ hj.runIn)
    exact ⟨d, hd, by rw [ho, hpid₂]⟩

end

/-! ## The parent -/

theorem NewParent.line {pRun : Nat × Nat} {n : Nat} {l : JLocal} {m : Mem}
    (h : NewParent pRun n l m) : lineage l.log = [] := by
  obtain ⟨before, hlog, hbefore⟩ := h.log
  rw [hlog, lineage_append, launched_lineage hbefore]
  rfl

theorem Childless.line {l : JLocal} (h : Childless l) : lineage l.log = [] := by
  refine lineage_eq_nil ?_
  intro e he
  refine Event.born_eq_none ?_
  rintro self rfl
  rcases h.log _ he with (hq | hp) | hf
  · exact hq.elim
  · cases hp
  · cases hf

theorem Childless.tidy {l : JLocal} (h : Childless l) : Tidy l := tidy_of_nil h.wrote h.got

theorem yreturn_hand {l : JLocal} (errnum : Int) (m : Mem) (ht : Tidy l) (hl : lineage l.log = []) :
    Code.wp HandPre HandExit (yreturn errnum) (fun l _ _ => HandRet l) l m := by
  rw [wp_yreturn, ← after_ask]
  exact ⟨⟨ht, trivial⟩, ht.after rfl rfl rfl, (Local.lineage_after rfl).trans hl⟩

theorem yreturnYerrno_hand {l : JLocal} (m : Mem) (ht : Tidy l) (hl : lineage l.log = []) :
    Code.wp HandPre HandExit yreturnYerrno (fun l _ _ => HandRet l) l m := by
  rw [yreturnYerrno, Code.wp_bind, Code.wp_get]
  exact yreturn_hand m.yerrno m ht hl

/-- A chain of hooks run after the signal. -/
theorem hooks_hand {l : JLocal} (chain : List Hook) (m : Mem) (h : Heard l) :
    Code.wp HandPre HandExit (runHookChain hookFn chain) (fun l' _ _ => Heard l') l m := by
  refine Code.wp_post ?_ (Code.keeps_wp (fun _ hc => hc) (only_hooks chain m) ?_)
  · intro l' r m' hk
    exact h.keeps hk
  · intro l' c hk hc
    exact ⟨(h.keeps hk).tidy, due_heard (h.keeps hk) hc⟩

theorem afterWaitpid_hand {l : JLocal} (childPid : Int) (status : Option Nat) (m : Mem)
    (h : Heard l) :
    Code.wp HandPre HandExit (afterWaitpid childPid status) (fun l _ _ => HandRet l) l m := by
  cases status with
  | none =>
      rw [afterWaitpid, Code.wp_bind, Code.wp_call]
      refine ⟨⟨h.tidy, h.got, h.line⟩, ?_⟩
      intro r _
      have h' : Heard (l.after (.killpg childPid.toNat : Call) r) := h.after rfl rfl rfl
      exact yreturn_hand eWait m h'.tidy h'.line
  | some status =>
      rw [afterWaitpid, Code.wp_bind, wp_modifyCtxt, Code.wp_bind, Code.wp_get, Code.wp_bind]
      refine Code.wp_post ?_ (hooks_hand _ _ h)
      intro l' r m' h'
      rw [Code.wp_ite]
      exact ⟨fun _ => yreturnYerrno_hand m' h'.tidy h'.line, fun _ => ⟨h'.tidy, h'.line⟩⟩

theorem judgerParent_hand {pRun : Nat × Nat} {n : Nat} {l : JLocal} {m : Mem}
    (hl : NewParent pRun n l m) :
    Code.wp HandPre HandExit (judgerParent pRun n) (fun l _ _ => HandRet l) l m := by
  have ht : Tidy l := tidy_of_nil hl.wrote hl.got
  have hs : sourceOf (lineage l.log) = some pRunId := by rw [hl.line]; rfl
  have hread := ht.read hs hl.readEnd
  have hline : ∀ r, lineage (l.after (.read pRun.1 : Call) r).log = [] := by
    intro r
    exact (Local.lineage_after rfl).trans hl.line
  have hwait : AtWait l := by
    obtain ⟨before, hlog, -⟩ := hl.log
    exact Or.inl ⟨before, n, hl.line, hlog⟩
  rw [judgerParent, Code.wp_bind, wp_modifyCtxt, Code.wp_bind, wp_waitSignal]
  refine ⟨⟨ht, hl.got, hwait, _, hs, hl.readEnd⟩, ?_, ?_⟩
  · rw [if_pos (by decide)]
    exact yreturn_hand _ _ (hread none) (hline none)
  · intro v _
    have h : Heard (l.after (.read pRun.1 : Call) (some v)) := by
      exact ⟨hread _, List.ne_nil_of_mem (mem_got_read hl.readEnd v), hline _⟩
    rw [Code.wp_ite]
    refine ⟨fun _ => yreturn_hand _ _ h.tidy h.line, fun _ => ?_⟩
    rw [Code.wp_bind, Code.wp_get, Code.wp_bind]
    refine Code.wp_post ?_ (hooks_hand _ _ h)
    intro l' r m' h'
    rw [Code.wp_ite]
    refine ⟨fun _ => yreturnYerrno_hand m' h'.tidy h'.line, fun _ => ?_⟩
    rw [Code.wp_bind, Code.wp_call]
    refine ⟨⟨h'.tidy, trivial⟩, ?_⟩
    intro status _
    exact afterWaitpid_hand n status m' (h'.after rfl rfl rfl)

/-! ## The two judgers -/

theorem handPre_launching {l : JLocal} {c : Call} (hl : Childless l) (hc : Launching c) :
    HandPre l c := by
  refine ⟨hl.tidy, ?_⟩
  rcases hc with ⟨hq, hs⟩ | rfl
  · cases c <;> first
      | trivial
      | exact hl.line
  · trivial

theorem handPre_fork {l : JLocal} (hl : Unforked l) : HandPre l .fork :=
  ⟨hl.childless.tidy, fun _ => hl⟩

/-- **What every process of the general judger owes.** -/
theorem yjudgerGeneral_hand {t : FdTable} (ht : 3 ≤ (runPipe t).2) {m : Mem}
    (hb : BuiltinHooks m.ctxt.hctxt) :
    Code.wp HandPre HandExit yjudgerGeneral (fun l _ _ => HandRet l) (.start t) m :=
  yjudgerGeneral_wp hb handPre_launching handPre_fork (fun _ hl => ⟨hl.tidy, hl.line⟩)
    (fun _ _ hl => generalChild_hand hl ht) fun _ _ _ _ hl => judgerParent_hand hl

/-- **What every process of the interactive judger owes.** -/
theorem yjudgerInteractive_hand {t : FdTable} (ht : 3 ≤ (runPipe t).2) {m : Mem}
    (hb : BuiltinHooks m.ctxt.hctxt) :
    Code.wp HandPre HandExit yjudgerInteractive (fun l _ _ => HandRet l) (.start t) m := by
  refine yjudgerInteractive_wp hb handPre_launching handPre_fork (fun _ hl => ⟨hl.tidy, hl.line⟩) ?_
    fun _ _ _ _ hl => judgerParent_hand hl
  intro l m' hl
  refine childProcess_wp hl ?_ ?_ ?_ ?_ ?_
  · intro l c hf hc
    exact ⟨(fresh_holds hf).tidy, by cases c <;> trivial⟩
  · intro l hf
    refine ⟨(fresh_holds hf).tidy, fun hnil => ?_⟩
    rw [hf.line] at hnil
    exact absurd hnil (List.cons_ne_nil _ _)
  · intro l m code hf
    exact yexitNotready_hand code m (fresh_holds hf)
  · intro l m itoe etoi iRun e hj
    exact executableBranch_hand e hj
  · intro l m itoe etoi iRun r hr hj
    exact interactorBranch_hand hr hj ht

end YaojJudger
