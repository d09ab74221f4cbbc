/-
# `YaojJudger.Handshake` — when the start handshake gets stuck

The parent reads `p_run`.  It keeps the write end open itself, so no end of
file ever comes: if nobody writes, it waits for ever.

A process that has yet to signal can be driven to it: let each call fail, and
the program runs into the error path that signals (`signal_or_read`).  The one
exception is the interactor at its own read; it goes on as soon as the
executable has signalled, and that one can be driven too.  So the handshake is
alive as long as nobody dies before its signal is out, no write and no inner
`fork` fails, and no program that has inherited a pipe reads the signal before
the process it is for (`quiet`).  When that fails it can get stuck.
-/
import YaojJudger.Signals
import YaojJudger.Reap
import YaojJudger.Posix.Setback

namespace YaojJudger

open Posix World

/-- A process of the judger. -/
abbrev JProc := Proc judgerIface (Int × Mem)

/-- A process is safe where it is. -/
abbrev SafeAt (q : JProc) : Prop :=
  Prog.wp Local.Step HandPre HandExit q.code (fun l _ => HandRet l) q.loc

/-! ## Being stuck -/

/-- The parent is blocked in `wait_signal(p_run)`. -/
def Waiting (w : JWorld) : Prop :=
  ∃ q fd k, w.procs 1 = some q ∧ q.mode = .code ∧ q.code = .call (.read fd) k ∧
    q.loc.inPipe fd = some pRunId ∧ w.reply 1 q.loc (.read fd) .ok = none

/-- An act that is none of the parent's.  A `read` does not fail by itself. -/
def ofOthers (w : JWorld) (a : Act judgerIface) : Prop :=
  (∀ o, a ≠ .sys 1 o) ∧
    ∀ i (q : JProc) fd k, a = .sys i .fail → w.procs i = some q → q.code ≠ .call (.read fd) k

/-- The others can still put a signal into `p_run`. -/
def CanSignal (w : JWorld) : Prop :=
  ∃ w', Reaches killers ofOthers w w' ∧ w'.pipe pRunId ≠ []

/-- The parent waits for a signal that cannot come. -/
def Stuck (w : JWorld) : Prop := Waiting w ∧ ¬ CanSignal w

/-! ## Driving a process to its signal -/

theorem not_sent_grow {l l' : JLocal} {es : List JEvent} (h : ¬ Sent l) (hw : l'.wrote = l.wrote)
    (hlog : l'.log = l.log ++ es) (hes : ∀ e ∈ es, lostWrite e = false) : ¬ Sent l' := by
  rintro (hne | ⟨e, he, hlost⟩)
  · exact h (Or.inl (hw ▸ hne))
  · rw [hlog, List.mem_append] at he
    rcases he with he | he
    · exact h (Or.inr ⟨e, he, hlost⟩)
    · rw [hes e he] at hlost
      cases hlost

theorem AtWait.last {l : JLocal} (h : AtWait l) :
    ∃ es e, l.log = es ++ [e] ∧
      ((∃ n, e = ⟨.fork, .parent n⟩) ∨ ∃ prog, e = ⟨.setSeccomp prog, true⟩) := by
  rcases h with ⟨before, n, -, hlog⟩ | ⟨before, r, after, prog, -, -, -, hlog⟩
  · exact ⟨before, _, hlog, Or.inl ⟨n, rfl⟩⟩
  · exact ⟨before ++ ⟨.fork, r⟩ :: after, _, hlog, Or.inr ⟨prog, rfl⟩⟩

/-- Nobody waits right after a setback. -/
theorem not_atWait_setback {l : JLocal} {before es : List JEvent} (hlog : l.log = before ++ es)
    (hes : ∀ e ∈ es, IsSetback Ask.failing e) (hne : es ≠ []) : ¬ AtWait l := by
  intro h
  obtain ⟨es₀, e, hlast, he⟩ := h.last
  obtain ⟨es', e', rfl⟩ := List.eq_nil_or_concat es |>.resolve_left hne
  have hlog' : es₀ ++ [e] = (before ++ es') ++ [e'] := by
    rw [← hlast, hlog, List.concat_eq_append, List.append_assoc]
  obtain ⟨-, heq⟩ := List.append_inj' hlog' rfl
  obtain rfl : e = e' := (List.cons.inj heq).1
  obtain ⟨l', hl'⟩ := hes e (by simp)
  rcases he with ⟨n, rfl⟩ | ⟨prog, rfl⟩
  · cases Option.some.inj hl'
  · cases Option.some.inj hl'

section
variable {w : JWorld} {i : Nat} {q : JProc} {id : PipeId}

theorem ofOthers_ok (hi : i ≠ 1) : ofOthers w (.sys i .ok) := by
  constructor
  · intro o ho
    exact hi (Act.sys.inj ho).1
  · intro j p fd k ha
    cases (Act.sys.inj ha).2

/-- A signal written. -/
theorem pipe_write {fd : Nat} {v : Int} {k : Bool → Prog Call Ret (Int × Mem)}
    (hout : q.loc.outPipe fd = some id) :
    (w.afterCall killers i q (.write fd v) k true).pipe id ≠ [] := by
  simp [afterCall, pipesAfter, Local.sent, hout]

theorem writable_of_outPipe {l : JLocal} {fd : Nat} (h : l.outPipe fd = some id) :
    l.writable fd = true := by
  unfold Local.outPipe at h
  unfold Local.writable
  split at h
  case h_1 hd => rw [hd]
  case h_2 => cases h

/-- **A process that has yet to signal can be driven to it**, or to its read. -/
theorem signal_or_read (hi : i ≠ 1) (hq : w.procs i = some q) (hm : q.mode = .code)
    (hst : q.stopped = none) (hw : SafeAt q) (hun : ¬ Sent q.loc)
    (ht : targetOf (lineage q.loc.log) = some id) :
    (∃ w', Reaches killers ofOthers w w' ∧ w'.pipe id ≠ [] ∧
      ∀ j, j ≠ i → w'.procs j = w.procs j) ∨
      ∃ fd k, q.code = .call (.read fd) k := by
  have hok : ∀ (w : JWorld) (p : JProc) (c : Call) k, w.procs i = some p → p.code = .call c k →
      c.firm = false → ofOthers w (.sys i (wayOut Ask.failing c)) := by
    intro w p c k hp hc hf
    refine ⟨fun o ho => hi (Act.sys.inj ho).1, ?_⟩
    intro j p' fd k' ha hp' hc'
    obtain ⟨rfl, -⟩ := Act.sys.inj ha
    obtain rfl := Option.some.inj (hp.symm.trans hp')
    cases hc.symm.trans hc'
    cases hf
  have hdrive : ∃ w₁ q₁ es, Reaches killers ofOthers w w₁ ∧
      Driven Ask.failing i q w w₁ q₁ es := drive Ask.failing hok hq rfl hm hst
  obtain ⟨w₁, q₁, es, hreach, hd⟩ := hdrive
  have hlog : q₁.loc.log = q.loc.log ++ es := by rw [hd.loc]
  have hline : lineage q₁.loc.log = lineage q.loc.log := by
    rw [hlog, lineage_append, lineage_eq_nil fun e he => (hd.setbacks e he).born, List.append_nil]
  have hun₁ : ¬ Sent q₁.loc := by
    refine not_sent_grow hun (by rw [hd.loc]) hlog ?_
    intro e he
    have hf := (hd.setbacks e he).not_firm
    obtain ⟨c, r⟩ := e
    cases c <;> first | rfl | cases hf
  have hw₁ := hd.steps.wp hw
  cases hc : q₁.code with
  | ret a =>
      rw [hc] at hw₁
      exact absurd (hline.symm.trans hw₁.2) (targetOf_ne_nil ht)
  | exit n =>
      rw [hc] at hw₁
      exact absurd hw₁.sent hun₁
  | call c k =>
      rw [hc] at hw₁
      have hdue := hw₁.1.due
      have hfirm := hd.firm hc
      cases c with
      | write fd v =>
          left
          obtain ⟨id', hid', hout⟩ := hdue
          obtain rfl : id = id' := Option.some.inj (ht.symm.trans (hline ▸ hid'))
          have hreply : w₁.reply i q₁.loc (.write fd v) .ok = some true := by
            simp [reply, writable_of_outPipe hout]
          obtain ⟨hstep, -, hothers⟩ := call_idle killers hd.procs hd.mode hd.stopped hc rfl
            hreply (fun _ _ => rfl) rfl
          refine ⟨_, hreach.tail (ofOthers_ok hi) hstep, pipe_write hout, ?_⟩
          intro j hj
          exact (hothers j hj).trans (hd.others j hj)
      | read fd =>
          right
          by_cases hes : es = []
          · obtain rfl := hd.still hes
            exact ⟨fd, k, hc⟩
          · exact absurd hdue.2.1 (not_atWait_setback hlog hd.setbacks hes)
      | fault => exact absurd (hline.symm.trans hdue) (targetOf_ne_nil ht)
      | _ => cases hfirm

/-- A process that is stopped can be woken. -/
theorem wake (hq : w.procs i = some q) (hm : q.mode = .code) :
    ∃ w', Reaches killers ofOthers w w' ∧ w'.procs i = some { q with stopped := none } ∧
      w'.pipe = w.pipe ∧ ∀ j, j ≠ i → w'.procs j = w.procs j := by
  have hstep : w.step killers (.cont i) =
      some (w.update i fun p => { p with stopped := none }) := by
    simp [step, hq, hm, Mode.alive]
  refine ⟨_, Reaches.refl.tail ⟨?_, ?_⟩ hstep, ?_, rfl, ?_⟩
  · intro o ho
    cases ho
  · intro j p fd k ha
    cases ha
  · simp [hq]
  · intro j hj
    simp [hj]

/-- **A process that is not at a read can signal.** -/
theorem can_signal (hi : i ≠ 1) (hq : w.procs i = some q) (hm : q.mode = .code) (hw : SafeAt q)
    (hun : ¬ Sent q.loc) (ht : targetOf (lineage q.loc.log) = some id)
    (hread : ∀ fd k, q.code ≠ .call (.read fd) k) :
    ∃ w', Reaches killers ofOthers w w' ∧ w'.pipe id ≠ [] ∧
      ∀ j, j ≠ i → w'.procs j = w.procs j := by
  obtain ⟨w₁, hreach, hq₁, -, hothers⟩ := wake hq hm
  rcases signal_or_read hi hq₁ hm rfl hw hun ht with ⟨w₂, hreach₂, hpipe, hothers₂⟩ | ⟨fd, k, hc⟩
  · exact ⟨w₂, hreach.trans hreach₂, hpipe, fun j hj => (hothers₂ j hj).trans (hothers j hj)⟩
  · exact absurd hc (hread fd k)

/-- **One that is at a read can when there is something to read.** -/
theorem can_signal_read (hi : i ≠ 1) (hq : w.procs i = some q) (hm : q.mode = .code) (hw : SafeAt q)
    (hun : ¬ Sent q.loc) (ht : targetOf (lineage q.loc.log) = some id) {fd : Nat}
    {k : Option Int → Prog Call Ret (Int × Mem)} (hc : q.code = .call (.read fd) k) {id' : PipeId}
    (hin : q.loc.inPipe fd = some id') (hpipe : w.pipe id' ≠ []) :
    ∃ w', Reaches killers ofOthers w w' ∧ w'.pipe id ≠ [] := by
  obtain ⟨w₁, hreach, hq₁, hpipe₁, -⟩ := wake hq hm
  obtain ⟨v, vs, hvs⟩ := List.exists_cons_of_ne_nil (hpipe₁ ▸ hpipe)
  have hreply : w₁.reply i q.loc (.read fd) .ok = some (some v) := by simp [reply, hin, hvs]
  obtain ⟨hstep, hself, -⟩ := call_idle killers hq₁ hm rfl hc rfl hreply (fun _ _ => rfl) rfl
  have hlog : (q.loc.after (.read fd : Call) (some v)).log =
      q.loc.log ++ [⟨.read fd, some v⟩] := rfl
  have hw₁ : Prog.wp Local.Step HandPre HandExit (k (some v)) (fun l _ => HandRet l)
      (q.loc.after (.read fd : Call) (some v)) := by
    unfold SafeAt at hw
    rw [hc] at hw
    exact hw.2 (some v) _ ⟨Option.isSome_iff_exists.mpr ⟨id', hin⟩, rfl⟩
  have hun₁ : ¬ Sent (q.loc.after (.read fd : Call) (some v)) := by
    refine not_sent_grow hun (List.append_nil _) hlog ?_
    intro e he
    rw [List.mem_singleton.mp he]
    rfl
  have ht₁ : targetOf (lineage (q.loc.after (.read fd : Call) (some v)).log) = some id := by
    rw [Local.lineage_after rfl]
    exact ht
  -- it does not read twice
  have hread : ∀ fd' k', k (some v) ≠ .call (.read fd') k' := by
    intro fd' k' hc'
    rw [hc'] at hw₁
    obtain ⟨es, e, hlast, he⟩ := hw₁.1.due.2.1.last
    obtain ⟨-, heq⟩ := List.append_inj' (hlog.symm.trans hlast) rfl
    rcases he with ⟨n, rfl⟩ | ⟨prog, rfl⟩
    · cases (List.cons.inj heq).1
    · cases (List.cons.inj heq).1
  obtain ⟨w₂, hreach₂, hp, -⟩ := can_signal hi hself hm hw₁ hun₁ ht₁ hread
  exact ⟨w₂, (hreach.tail (ofOthers_ok hi) hstep).trans hreach₂, hp⟩

end

/-! ## Calm runs -/

/-- Has somebody signalled on `p_run`? -/
def signalled (w : JWorld) : Bool :=
  (List.range w.next).any fun j => (w.procs j).any fun q => q.loc.wrote.any fun m => m.1 == pRunId

/-- A `fork` that failed. -/
def lostFork : JEvent → Bool
  | ⟨.fork, .failed⟩ => true
  | _ => false

/-- No process but the parent is killed before it has signalled, and no write
and no `fork` of theirs fails. -/
def calmAct (w : JWorld) : Act judgerIface → Bool
  | .kill i _ _ => i == 1 || (w.procs i).any fun q => !q.loc.wrote.isEmpty
  | .sys i o => i == 1 || (w.nextEvent i o).all fun e => !lostWrite e && !lostFork e
  | _ => true

/-- The same, until `p_run` has been signalled on. -/
def calm (w : JWorld) (a : Act judgerIface) : Bool := signalled w || calmAct w a

/-- Has the process that made pipe `id` read from it? -/
def heard (w : JWorld) (id : PipeId) : Bool :=
  (w.procs id.1).any fun q => q.loc.got.any fun m => m.1 == id

/-- No program that was exec'd reads from a pipe before the process that made it. -/
def spares (w : JWorld) : Act judgerIface → Bool
  | .drain _ id => heard w id
  | _ => true

/-- Calm, and nothing is read that is for another process. -/
def quiet (w : JWorld) (a : Act judgerIface) : Bool := calm w a && spares w a

theorem spares_of_quiet {w : JWorld} {a : Act judgerIface} (h : quiet w a = true) : w.Spares a := by
  rintro i id rfl
  obtain ⟨q, hq, hgot⟩ := (Option.any_eq_true _ _).mp (Bool.and_eq_true_iff.mp h).2
  obtain ⟨⟨id', u⟩, hmem, heq⟩ := List.any_eq_true.mp hgot
  obtain rfl : id' = id := eq_of_beq heq
  exact ⟨u, _, q, hq, hmem⟩

theorem signalled_iff {w : JWorld} (hn : w.Numbered) :
    signalled w = true ↔ ∃ v, w.Wrote (pRunId, v) := by
  constructor
  · intro h
    obtain ⟨j, -, hj⟩ := List.any_eq_true.mp h
    obtain ⟨q, hq, hm⟩ := (Option.any_eq_true _ _).mp hj
    obtain ⟨⟨id, v⟩, hmem, hid⟩ := List.any_eq_true.mp hm
    obtain rfl : id = pRunId := eq_of_beq hid
    exact ⟨v, j, q, hq, hmem⟩
  · rintro ⟨v, j, q, hq, hmem⟩
    refine List.any_eq_true.mpr ⟨j, List.mem_range.mpr (hn.lt_next hq), ?_⟩
    rw [hq, Option.any_some]
    exact List.any_eq_true.mpr ⟨_, hmem, beq_self_eq_true _⟩

/-- Before the signal: whoever has left the program has signalled, nobody has
lost a write or a `fork`, and there are no threads. -/
structure Sound (w : JWorld) : Prop where
  mode : ∀ {j q}, j ≠ 1 → w.procs j = some q → q.mode ≠ .code → q.loc.wrote ≠ []
  log : ∀ {j q}, j ≠ 1 → w.procs j = some q →
    ∀ e ∈ q.loc.log, lostWrite e = false ∧ lostFork e = false
  threads : w.threads = []

section
variable {x : Code Int} {t : FdTable} {m : Mem} {pgid : Nat} {ok : JWorld → Act judgerIface → Prop}
  {w w' : JWorld} {a : Act judgerIface}

theorem tidy_of_safe {q : JProc} (h : SafeAt q) : Tidy q.loc := by
  unfold SafeAt at h
  cases hc : q.code with
  | ret a => rw [hc] at h; exact h.1
  | exit n => rw [hc] at h; exact h.tidy
  | call c k => rw [hc] at h; exact h.1.tidy

/-- Who has received a signal. -/
theorem listener (hr : Reaches killers ok (World.init t (x m) pgid) w) {j : Nat} {q : JProc}
    (hj : w.procs j = some q) (ht : Tidy q.loc) {id : PipeId} {v : Int} (hm : (id, v) ∈ q.loc.got) :
    id = pRunId ∧ j = 1 ∨ id = iRunId j := by
  have hs := ht.got _ hm
  by_cases h1 : j = 1
  · subst h1
    rw [hr.lineage_first hj] at hs
    exact Or.inl ⟨(Option.some.inj hs).symm, rfl⟩
  · have hlast := hr.lineage_last hj h1
    match hl : lineage q.loc.log with
    | [] => rw [hl] at hlast; cases hlast
    | [i] =>
        rw [hl] at hs hlast
        obtain rfl : i = j := Option.some.inj hlast
        exact Or.inr (Option.some.inj hs).symm
    | _ :: _ :: _ => rw [hl] at hs; cases hs

/-- The parent has heard, so somebody has signalled. -/
theorem signalled_of_got (hr : Reaches killers ok (World.init t (x m) pgid) w) {i : Nat}
    {p : JProc} (hp : w.procs i = some p) (ht : Tidy p.loc) (hgot : p.loc.got ≠ [])
    (hl : lineage p.loc.log = []) :
    signalled w = true := by
  obtain ⟨⟨id, v⟩, hm⟩ := List.exists_mem_of_ne_nil _ hgot
  have hs := ht.got _ hm
  rw [hl] at hs
  obtain rfl : pRunId = id := Option.some.inj hs
  exact (signalled_iff hr.numbered).mpr ⟨v, hr.conserved.got_wrote ⟨i, p, hp, hm⟩⟩

/-- A process that leaves the program in a calm run has signalled. -/
theorem wrote_of_ending (hx : Code.wp HandPre HandExit x (fun l _ _ => HandRet l) (.start t) m)
    (hr : Reaches killers ok (World.init t (x m) pgid) w) (hs : Sound w)
    (hns : signalled w = false) (hok : calmAct w a = true) {j : Nat} {q : JProc} (hj : j ≠ 1)
    (hq : w.procs j = some q) (he : Ending w a j q) (hstep : w.step killers a = some w') :
    q.loc.wrote ≠ [] := by
  have hsafe : SafeAt q := hr.wp hx hq
  have hsent : Sent q.loc → q.loc.wrote ≠ [] := by
    rintro (h | ⟨e, he, hlost⟩)
    · exact h
    · rw [(hs.log hj hq e he).1] at hlost
      cases hlost
  unfold SafeAt at hsafe
  cases he with
  | exit _ hc =>
      rw [hc] at hsafe
      exact hsent hsafe.sent
  | @exec o c k _ hc hxc =>
      rw [hc] at hsafe
      cases c <;> first
        | exact hsent hsafe.1.due.1
        | cases hxc
  | kill ha =>
      subst ha
      simpa [calmAct, hj, hq] using hok
  | @killpg i g o p k _ hp hc =>
      have hp' := hr.wp hx hp
      rw [hc] at hp'
      obtain ⟨hgot, hl⟩ := hp'.1.due
      rw [signalled_of_got hr hp hp'.1.tidy hgot hl] at hns
      cases hns
  | thread ha =>
      subst ha
      have hnone : ∀ n, w.thread? n = none := by
        intro n
        unfold thread?
        split
        · rfl
        · simp [hs.threads]
      simp [step, threadStep, hnone] at hstep

theorem Launched.lucky {e : JEvent} (h : Launched e) :
    lostWrite e = false ∧ lostFork e = false := by
  obtain ⟨c, r⟩ := e
  rcases h with hq | hp
  · cases c <;> first
      | exact ⟨rfl, rfl⟩
      | exact hq.elim
  · obtain rfl : c = .pipe := hp
    exact ⟨rfl, rfl⟩

theorem sound_step (hx : Code.wp HandPre HandExit x (fun l _ _ => HandRet l) (.start t) m)
    (hr : Reaches killers ok (World.init t (x m) pgid) w) (hs : Sound w)
    (hns : signalled w = false) (hok : calmAct w a = true)
    (hstep : w.step killers a = some w') :
    Sound w' := by
  constructor
  · intro j q' hj hq' hm'
    cases hq : w.procs j with
    | some q =>
        obtain ⟨q₁, hq₁, hf⟩ := step_fate hr.numbered hstep hq
        obtain rfl := Option.some.inj (hq'.symm.trans hq₁)
        have hne : q.loc.wrote ≠ [] := by
          by_cases hm : q.mode = .code
          · exact wrote_of_ending hx hr hs hns hok hj hq
              (step_ending hr.numbered hstep hq hm hq' hm') hstep
          · exact hs.mode hj hq hm
        obtain ⟨msg, hmsg⟩ := List.exists_mem_of_ne_nil _ hne
        exact List.ne_nil_of_mem (hf.wrote hmsg)
    | none =>
        cases step_procs hstep hq' with
        | kept hq₁ _ => cases hq.symm.trans hq₁
        | exec _ hq₁ _ _ _ _ => cases hq.symm.trans hq₁
        | call _ hq₁ _ _ _ _ _ _ _ => cases hq.symm.trans hq₁
        | born _ _ _ _ _ _ _ _ hm _ _ => exact absurd hm hm'
  · intro j q' hj hq' e he
    cases step_procs hstep hq' with
    | kept hq hk =>
        rw [hk.loc] at he
        exact hs.log hj hq e he
    | exec _ hq _ _ _ hx' =>
        rw [hx'] at he
        exact hs.log hj hq e he
    | call ha hq _ hc hreply hl _ _ _ =>
        rw [hl, Local.after_log, List.mem_append] at he
        rcases he with he | he
        · exact hs.log hj hq e he
        · obtain rfl := List.mem_singleton.mp he
          subst ha
          simpa [calmAct, hj, nextEvent_eq hq hc hreply] using hok
    | @born i q k o _ hq _ hc _ _ hl _ _ _ _ =>
        rw [hl, Local.after_log, List.mem_append] at he
        rcases he with he | he
        · by_cases hi : i = 1
          · subst hi
            have hw := hr.wp hx hq
            rw [hc] at hw
            exact ((hw.1.due (hr.lineage_first hq)).log e he).lucky
          · exact hs.log hi hq e he
        · obtain rfl := List.mem_singleton.mp he
          exact ⟨rfl, rfl⟩
  · rcases step_threads hstep hs.threads with ht | ⟨i, o, p, start, k, -, hp, hc⟩
    · exact ht
    · have hw := hr.wp hx hp
      rw [hc] at hw
      obtain ⟨hgot, hl⟩ := hw.1.due
      rw [signalled_of_got hr hp hw.1.tidy hgot hl] at hns
      cases hns

/-- **In a calm run** `p_run` has been signalled on, or nothing is lost yet. -/
theorem sound_run (hx : Code.wp HandPre HandExit x (fun l _ _ => HandRet l) (.start t) m)
    (hr : Reaches killers (fun w a => calm w a = true) (World.init t (x m) pgid) w) :
    signalled w = true ∨ Sound w := by
  induction hr with
  | refl =>
      refine Or.inr ⟨?_, ?_, rfl⟩
      · intro j q hj hq
        exact absurd (init_procs hq).1 hj
      · intro j q hj hq
        exact absurd (init_procs hq).1 hj
  | @tail w w' a hr hok hstep ih =>
      cases hs : signalled w with
      | true =>
          obtain ⟨v, hv⟩ := (signalled_iff hr.numbered).mp hs
          exact Or.inl ((signalled_iff (numbered_step hr.numbered hstep)).mpr
            ⟨v, wrote_step hr.numbered hstep hv⟩)
      | false =>
          have hact : calmAct w a = true := by simpa [calm, hs] using hok
          have hsound := ih.resolve_left (by simp [hs])
          exact Or.inr (sound_step hx hr hsound hs hact hstep)

/-! ## The handshake is alive -/

/-- A process whose pipe is empty, with nobody who took anything from it, has
sent nothing; in a calm run it can still do so. -/
theorem unsent (hdel : w.Delivered) (hs : Sound w) {j : Nat}
    {q : JProc} (hj : j ≠ 1) (hq : w.procs j = some q) (ht : Tidy q.loc) {id : PipeId}
    (htarget : targetOf (lineage q.loc.log) = some id) (hpipe : w.pipe id = [])
    (hgot : ∀ v, ¬ w.Got (id, v)) : q.mode = .code ∧ ¬ Sent q.loc := by
  have hnil : q.loc.wrote = [] := by
    by_contra hne
    obtain ⟨⟨id', v⟩, hmsg⟩ := List.exists_mem_of_ne_nil _ hne
    obtain rfl : id = id' := Option.some.inj (htarget.symm.trans (ht.wrote _ hmsg))
    rcases hdel ⟨j, q, hq, hmsg⟩ with hv | ⟨u, hg⟩
    · rw [hpipe] at hv
      exact absurd hv List.not_mem_nil
    · exact hgot u hg
  constructor
  · by_contra hm
    exact hs.mode hj hq hm hnil
  · rintro (hne | ⟨e, he, hlost⟩)
    · exact hne hnil
    · rw [(hs.log hj hq e he).1] at hlost
      cases hlost

/-- The interactor at its read can signal. -/
theorem interactor_can_signal
    (hx : Code.wp HandPre HandExit x (fun l _ _ => HandRet l) (.start t) m)
    (hr : Reaches killers ok (World.init t (x m) pgid) w) (hdel : w.Delivered) (hs : Sound w)
    {i fd : Nat} {q : JProc}
    {k : Option Int → Prog Call Ret (Int × Mem)} (hi : i ≠ 1) (hq : w.procs i = some q)
    (hm : q.mode = .code) (hun : ¬ Sent q.loc) (hline : lineage q.loc.log = [i])
    (hc : q.code = .call (.read fd) k) : CanSignal w := by
  have hsafe : SafeAt q := hr.wp hx hq
  have hpre : HandPre q.loc (.read fd) := by
    unfold SafeAt at hsafe
    rw [hc] at hsafe
    exact hsafe.1
  obtain ⟨hgot, hwait, id, hid, hin⟩ := hpre.due
  rw [hline] at hid
  obtain rfl : iRunId i = id := Option.some.inj hid
  have htarget : targetOf (lineage q.loc.log) = some pRunId := by rw [hline]; rfl
  by_cases hpipe : w.pipe (iRunId i) = []
  case neg => exact can_signal_read hi hq hm hsafe hun htarget hc hin hpipe
  case pos =>
    -- the executable it waits for is there, and has not signalled
    rcases hwait with ⟨before, n, hnil, -⟩ | ⟨before, r, after, prog, -, hbefore, hr', hlog⟩
    · rw [hline] at hnil
      cases hnil
    rw [List.append_assoc, List.cons_append] at hlog
    cases r with
    | child e => exact absurd rfl (hr' e)
    | failed =>
        have hlost := (hs.log hi hq ⟨.fork, .failed⟩ (by rw [hlog]; simp)).2
        cases hlost
    | parent e =>
        obtain ⟨p, own, hp, hplog, hown⟩ := hr.forked hq hlog
        have hpline : lineage p.loc.log = [i, e] := by
          rw [hplog, lineage_append, lineage_child, hbefore, hown, hr.numbered.pid hq]
          rfl
        have he : e ≠ 1 := by
          rintro rfl
          rw [hr.lineage_first hp] at hpline
          cases hpline
        have hne : i ≠ e := by
          rintro rfl
          obtain rfl := Option.some.inj (hq.symm.trans hp)
          rw [hline] at hpline
          cases hpline
        have hpsafe : SafeAt p := hr.wp hx hp
        have hptarget : targetOf (lineage p.loc.log) = some (iRunId i) := by rw [hpline]; rfl
        have hnone : ∀ v, ¬ w.Got (iRunId i, v) := by
          rintro v ⟨j, q', hj, hmsg⟩
          rcases listener hr hj (tidy_of_safe (hr.wp hx hj)) hmsg with ⟨hid, -⟩ | hid
          · cases (Prod.mk.inj hid).2
          · obtain rfl : i = j := (Prod.mk.inj hid).1
            obtain rfl := Option.some.inj (hq.symm.trans hj)
            rw [hgot] at hmsg
            exact absurd hmsg List.not_mem_nil
        obtain ⟨hpm, hpun⟩ := unsent hdel hs he hp (tidy_of_safe hpsafe) hptarget hpipe hnone
        have hread : ∀ fd k, p.code ≠ .call (.read fd) k := by
          intro fd' k' hc'
          unfold SafeAt at hpsafe
          rw [hc'] at hpsafe
          obtain ⟨-, -, id, hid, -⟩ := hpsafe.1.due
          rw [hpline] at hid
          cases hid
        obtain ⟨w₁, hreach, hpipe₁, hothers⟩ := can_signal he hp hpm hpsafe hpun hptarget hread
        obtain ⟨w₂, hreach₂, hpipe₂⟩ := can_signal_read hi ((hothers i hne).trans hq) hm hsafe hun
          htarget hc hin hpipe₁
        exact ⟨w₂, hreach.trans hreach₂, hpipe₂⟩

/-- **The handshake is alive** in every quiet run of a program that pays what it owes. -/
theorem not_stuck (hx : Code.wp HandPre HandExit x (fun l _ _ => HandRet l) (.start t) m)
    (hr : Reaches killers (fun w a => quiet w a = true) (World.init t (x m) pgid) w) :
    ¬ Stuck w := by
  rintro ⟨⟨q, fd, k, hq, hm, hc, hin, hblock⟩, hcannot⟩
  apply hcannot
  have hpipe : w.pipe pRunId = [] := by
    cases hp : w.pipe pRunId with
    | nil => rfl
    | cons v vs => simp [reply, hin, hp] at hblock
  have hline := hr.lineage_first hq
  have hpre : HandPre q.loc (.read fd) := by
    have hw := hr.wp hx hq
    rw [hc] at hw
    exact hw.1
  obtain ⟨hgot, hwait, -⟩ := hpre.due
  have hnone : ∀ v, ¬ w.Got (pRunId, v) := by
    rintro v ⟨j, q', hj, hmsg⟩
    rcases listener hr hj (tidy_of_safe (hr.wp hx hj)) hmsg with ⟨-, rfl⟩ | hid
    · obtain rfl := Option.some.inj (hq.symm.trans hj)
      rw [hgot] at hmsg
      exact absurd hmsg List.not_mem_nil
    · cases (Prod.mk.inj hid).2
  have hdel : w.Delivered := hr.delivered fun w a h => spares_of_quiet h
  have hcalm : Reaches killers (fun w a => calm w a = true) (World.init t (x m) pgid) w :=
    hr.mono fun w a h => (Bool.and_eq_true_iff.mp h).1
  have hs : Sound w := by
    refine (sound_run hx hcalm).resolve_left ?_
    intro hsig
    obtain ⟨v, hv⟩ := (signalled_iff hr.numbered).mp hsig
    rcases hdel hv with hv | ⟨u, hg⟩
    · rw [hpipe] at hv
      exact absurd hv List.not_mem_nil
    · exact hnone u hg
  -- the child it waits for is there, and has not signalled
  rcases hwait with ⟨before, n, -, hlog⟩ | ⟨before, r, after, prog, hpid, -⟩
  case inr =>
    rw [hline] at hpid
    cases hpid
  obtain ⟨p, own, hp, hplog, hown⟩ := hr.forked hq hlog
  have hbefore : lineage before = [] := by
    rw [hlog, lineage_append] at hline
    exact (List.append_eq_nil_iff.mp hline).1
  have hpline : lineage p.loc.log = [n] := by
    rw [hplog, lineage_append, lineage_child, hbefore, hown]
    rfl
  have hn : n ≠ 1 := by
    rintro rfl
    rw [hr.lineage_first hp] at hpline
    cases hpline
  have hpsafe : SafeAt p := hr.wp hx hp
  have htarget : targetOf (lineage p.loc.log) = some pRunId := by rw [hpline]; rfl
  obtain ⟨hpm, hpun⟩ := unsent hdel hs hn hp (tidy_of_safe hpsafe) htarget hpipe hnone
  by_cases hread : ∃ fd k, p.code = .call (.read fd) k
  case pos =>
    obtain ⟨fd', k', hc'⟩ := hread
    exact interactor_can_signal hx hr hdel hs hn hp hpm hpun hpline hc'
  case neg =>
    have hread : ∀ fd k, p.code ≠ .call (.read fd) k := fun fd k hc' => hread ⟨fd, k, hc'⟩
    obtain ⟨w', hreach, hpipe', -⟩ := can_signal hn hp hpm hpsafe hpun htarget hread
    exact ⟨w', hreach, hpipe'⟩

end

/-- **The start handshake does not get stuck**, in every run in which, as long
as `p_run` has not been signalled on, nobody but the parent is killed before it has
signalled and no write and no `fork` of theirs fails, and in which no program that
was exec'd reads from a pipe before the process that waits for the signal. -/
theorem handshake_alive {m : Mem} {k : Nat}
    (hm : m.ctxt.hctxt = registerBuiltinHook^[k] hookCtxtCreate)
    {t : FdTable} (ht : 3 ≤ (runPipe t).2) (pgid : Nat) :
    (∀ {w : JWorld}, Reaches killers (fun w a => quiet w a = true)
        (World.init t (yjudgerGeneral m) pgid) w → ¬ Stuck w) ∧
      ∀ {w : JWorld}, Reaches killers (fun w a => quiet w a = true)
        (World.init t (yjudgerInteractive m) pgid) w → ¬ Stuck w := by
  have hb : BuiltinHooks m.ctxt.hctxt := hm ▸ builtinHooks_iterate k
  constructor
  · intro w hr
    exact not_stuck (yjudgerGeneral_hand ht hb) hr
  · intro w hr
    exact not_stuck (yjudgerInteractive_hand ht hb) hr

/-! ## Runs -/

/-- The same as `Waiting`, computed. -/
def isWaiting (w : JWorld) : Bool :=
  (w.procs 1).any fun q => q.mode == .code && match q.code with
    | .call (.read fd) _ =>
        q.loc.inPipe fd == some pRunId && (w.reply 1 q.loc (.read fd) .ok).isNone
    | _ => false

/-- Is process `j` at a read? -/
def atRead (j : Nat) (w : JWorld) : Bool :=
  (w.procs j).any fun q => match q.code with
    | .call (.read _) _ => true
    | _ => false

theorem read_of_check {j : Nat} {w : JWorld} (h : atRead j w = true) :
    ∃ q fd k, w.procs j = some q ∧ q.code = .call (.read fd) k := by
  obtain ⟨q, hq, hr⟩ := (Option.any_eq_true _ _).mp h
  cases hc : q.code with
  | ret a => rw [hc] at hr; cases hr
  | exit n => rw [hc] at hr; cases hr
  | call c k =>
      rw [hc] at hr
      cases c <;> first
        | exact ⟨q, _, k, hq, hc⟩
        | cases hr

theorem waiting_of_check {w : JWorld} (h : isWaiting w = true) : Waiting w := by
  obtain ⟨q, hq, hw⟩ := (Option.any_eq_true _ _).mp h
  rw [Bool.and_eq_true] at hw
  obtain ⟨hm, hread⟩ := hw
  cases hc : q.code with
  | ret a => rw [hc] at hread; cases hread
  | exit n => rw [hc] at hread; cases hread
  | call c k =>
      rw [hc] at hread
      cases c with
      | read fd =>
          rw [Bool.and_eq_true] at hread
          exact ⟨q, fd, k, hq, eq_of_beq hm, hc, eq_of_beq hread.1,
            Option.isNone_iff_eq_none.mp hread.2⟩
      | _ => cases hread

/-- Nobody but the parent runs the program any more. -/
def OthersOut (w : JWorld) : Prop := ∀ {j q}, j ≠ 1 → w.procs j = some q → q.mode ≠ .code

def othersOut (w : JWorld) : Bool :=
  (List.range w.next).all fun j => j == 1 || (w.procs j).all fun q => q.mode != .code

theorem othersOut_spec {w : JWorld} (hn : w.Numbered) (h : othersOut w = true) : OthersOut w := by
  intro j q hj hq
  have hall := List.all_eq_true.mp h j (List.mem_range.mpr (hn.lt_next hq))
  simpa [hj, hq] using hall

theorem othersOut_step {w w' : JWorld} {a : Act judgerIface} (hs : w.step killers a = some w')
    (ha : ∀ o, a ≠ .sys 1 o) (h : OthersOut w) : OthersOut w' := by
  intro j q' hj hq' hm
  cases step_procs hs hq' with
  | kept hq hk =>
      have halive : q'.mode.alive = true := by rw [hm]; rfl
      exact h hj hq ((hk.alive halive).symm.trans hm)
  | exec _ hq hm' _ _ _ => exact h hj hq hm'
  | call _ hq hm' _ _ _ _ _ _ => exact h hj hq hm'
  | @born i q k o hsys hq hm' _ _ _ _ _ _ _ _ =>
      have hi : i ≠ 1 := by
        rintro rfl
        exact ha o hsys
      exact h hi hq hm'

/-- Those do not signal. -/
theorem cannot_signal {w : JWorld} (hd : OthersOut w) (hpipe : w.pipe pRunId = []) :
    ¬ CanSignal w := by
  rintro ⟨w', hr, hne⟩
  have hinv : OthersOut w' ∧ w'.pipe pRunId = [] := by
    refine hr.invariant (P := fun w => OthersOut w ∧ w.pipe pRunId = []) ⟨hd, hpipe⟩ ?_
    intro w w' a hw hok hs
    refine ⟨othersOut_step hs hok.1 hw.1, ?_⟩
    rcases step_silent_or_call hs with hsil | ⟨i, o, p, c, k, r, rfl, hp, -⟩
    · refine List.eq_nil_iff_forall_not_mem.mpr fun v hv => ?_
      have hmem := hsil.mem_pipe hv
      rw [hw.2] at hmem
      exact List.not_mem_nil hmem
    · obtain ⟨p', hp', hm, -⟩ := sysStep_cases hs
      have hi : i ≠ 1 := by
        rintro rfl
        exact hok.1 o rfl
      exact absurd hm (hw.1 hi hp')
  exact hne hinv.2

theorem stuck_of_check {w : JWorld} (hn : w.Numbered)
    (h : (isWaiting w && (othersOut w && (w.pipe pRunId).isEmpty)) = true) : Stuck w := by
  rw [Bool.and_eq_true, Bool.and_eq_true] at h
  obtain ⟨hwait, hout, hpipe⟩ := h
  exact ⟨waiting_of_check hwait, cannot_signal (othersOut_spec hn hout) (List.isEmpty_iff.mp hpipe)⟩

/-- The child is killed right after the `fork`, and the parent waits for ever; or all
goes well, and what the child has exec'd reads the signal before the parent does, and ends. -/
theorem handshake_stuck :
    (∃ w, Reaches killers Always (World.init (.inheritedBelow 4) (yjudgerGeneral sampleMem) 1) w ∧
      Stuck w) ∧
    ∃ w, Reaches killers (fun w a => calm w a = true)
      (World.init (.inheritedBelow 4) (yjudgerGeneral sampleMem) 1) w ∧ Stuck w := by
  constructor
  · have hrun : ((World.init (.inheritedBelow 4) (yjudgerGeneral sampleMem) 1).run killers
        (launchActs ++ [.kill 2 9 false])).any
          (fun w => isWaiting w && (othersOut w && (w.pipe pRunId).isEmpty)) = true := by
      decide +kernel
    obtain ⟨w, hr, hw⟩ := reaches_of_any hrun
    exact ⟨w, hr, stuck_of_check hr.numbered hw⟩
  · have hrun : ((World.init (.inheritedBelow 4) (yjudgerGeneral sampleMem) 1).runIf killers
        calm (launchActs ++ okActs 2 12 ++ [.drain 2 pRunId, .quit 2 0])).any
          (fun w => isWaiting w && (othersOut w && (w.pipe pRunId).isEmpty)) = true := by
      decide +kernel
    obtain ⟨w, hr, hw⟩ := reaches_of_anyIf hrun
    exact ⟨w, hr, stuck_of_check hr.numbered hw⟩

/-- Two quiet runs: to the child of the general judger at its start, and to the
interactor at its read. -/
theorem handshake_alive_sample : (∃ w, Waiting w ∧ ¬ Stuck w) ∧
    ∃ w q fd k, Waiting w ∧ w.procs 2 = some q ∧ q.code = .call (.read fd) k ∧ ¬ Stuck w := by
  have halive := @handshake_alive sampleMem 0 rfl (.inheritedBelow 4) (by decide) 1
  have hrun : ((World.init (.inheritedBelow 4) (yjudgerGeneral sampleMem) 1).runIf killers
      quiet launchActs).any isWaiting = true := by decide +kernel
  have hrun' : ((World.init (.inheritedBelow 4) (yjudgerInteractive sampleMem) 1).runIf
      killers quiet (launchActs ++ okActs 2 12)).any (fun w => isWaiting w && atRead 2 w) =
        true := by decide +kernel
  obtain ⟨w, hr, hw⟩ := reaches_of_anyIf hrun
  obtain ⟨w', hr', hw'⟩ := reaches_of_anyIf hrun'
  rw [Bool.and_eq_true] at hw'
  obtain ⟨q, fd, k, hq, hc⟩ := read_of_check hw'.2
  exact ⟨⟨w, waiting_of_check hw, halive.1 hr⟩,
    w', q, fd, k, waiting_of_check hw'.1, hq, hc, halive.2 hr'⟩

end YaojJudger
