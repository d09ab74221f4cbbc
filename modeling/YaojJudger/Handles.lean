/-
# `YaojJudger.Handles` — is the thread still there that is cancelled and joined?

A thread may be cancelled until it has been joined, or has ended detached, and
joined only if it is not detached (`HandlesValid`).  The code does not see to
it: the killer begins by detaching itself, so the `pthread_join` that follows is
given a detached thread, and if the killer has shot in between, the
`pthread_cancel` too; and after a refused `pthread_create` there may be anything
in `*thread`.  What has to be the case instead (`tidy`):

    getrusage succeeds          what `pthread_create` stored last is 0, or a
                                thread of this call that is neither detached
                                nor joined
    pthread_detach succeeds     not in that thread, until it has been joined

`get_usage_after_wait` is the hook before the one that stops the killer, so a
call that never comes to stop it is free to do what it likes.
-/
import YaojJudger.Armed

namespace YaojJudger

open Posix World

/-! ## The condition -/

/-- The thread a call is given. -/
def handleOf : Call → Option Nat
  | .pthreadCancel t | .pthreadJoin t => some t
  | _ => none

/-- Does process 1 stand at a call that is given `t`? -/
def stopping (w : JWorld) (t : Nat) : Bool :=
  (w.procs 1).any fun q => match q.code with
    | .call c _ => handleOf c == some t
    | _ => false

/-- Has `t` been joined? -/
def joinsThread (t : Nat) : JEvent → Bool
  | ⟨.pthreadJoin n, true⟩ => n == t
  | _ => false

/-- Is `t` there, not detached, and with no join on the record `es`? -/
def joinable (w : JWorld) (es : List JEvent) (t : Nat) : Bool :=
  (w.thread? t).any (fun th => !th.detached) && es.all fun e => !joinsThread t e

/-- Does a step of the thread with outcome `o` detach it? -/
def detaches (th : Thread judgerIface) (o : Outcome judgerIface) : Bool :=
  match th.code, o with
  | .call .pthreadDetach _, .ok => true
  | _, _ => false

/-- What the parent may get for an answer, after `es`. -/
def tidyEvent (w : JWorld) (es : List JEvent) : JEvent → Bool
  | ⟨.ask .getrusage, some _⟩ => (lastStored es).all fun t => t == 0 || joinable w es t
  | _ => true

/-- The condition on a step. -/
def tidy (w : JWorld) : Act judgerIface → Bool
  | .sys i o => i != 1 || (w.procs 1).all fun q => (w.nextEvent 1 o).all (tidyEvent w q.loc.log)
  | .thr t o => (w.thread? t).all fun th => !detaches th o || !stopping w t
  | _ => true

/-! ## The property -/

/-- The thread `t` exists and has not been joined. -/
def Unjoined (w : JWorld) (es : List JEvent) (t : Nat) (th : Thread judgerIface) : Prop :=
  w.thread? t = some th ∧ (⟨.pthreadJoin t, true⟩ : JEvent) ∉ es

/-- Whoever is about to cancel or to join a thread may do so. -/
structure HandlesValid (w : JWorld) : Prop where
  cancelled : ∀ {i q t k}, w.procs i = some q → q.code = .call (.pthreadCancel t) k →
    ∃ th, Unjoined w q.loc.log t th ∧ ¬ (th.detached = true ∧ th.done = true)
  joined : ∀ {i q t k}, w.procs i = some q → q.code = .call (.pthreadJoin t) k →
    ∃ th, Unjoined w q.loc.log t th ∧ th.detached = false

/-- A thread that may be joined. -/
def Joinable (w : JWorld) (es : List JEvent) (t : Nat) : Prop :=
  ∃ th, Unjoined w es t th ∧ th.detached = false

theorem joinable_iff {w : JWorld} {es : List JEvent} {t : Nat} :
    joinable w es t = true ↔ Joinable w es t := by
  have hjoin : (es.all fun e => !joinsThread t e) = true ↔ (⟨.pthreadJoin t, true⟩ : JEvent) ∉ es := by
    rw [List.all_eq_true]
    constructor
    · intro h hmem
      simpa [joinsThread] using h _ hmem
    · intro h e he
      by_contra hj
      rw [Bool.not_eq_true', Bool.not_eq_false] at hj
      unfold joinsThread at hj
      split at hj
      case h_1 n => exact h (beq_iff_eq.mp hj ▸ he)
      case h_2 => cases hj
  rw [joinable, Bool.and_eq_true, hjoin, Option.any_eq_true]
  constructor
  · rintro ⟨⟨th, hth, hd⟩, hnot⟩
    exact ⟨th, ⟨hth, hnot⟩, by simpa using hd⟩
  · rintro ⟨th, ⟨hth, hnot⟩, hd⟩
    exact ⟨⟨th, hth, by simpa using hd⟩, hnot⟩

/-! ## Where the parent uses the thread -/

/-- The hook that stops the killer comes behind the one that reads the usage. -/
theorem stop_after_usage {k : Nat} {before after : List Hook}
    (h : (registerBuiltinHook^[k] hookCtxtCreate).afterWait =
      before ++ .stopKillerAfterWait :: after) :
    ∃ rest, before = rest ++ [.getUsageAfterWait] := by
  induction k generalizing before with
  | zero => exact absurd h.symm (List.append_ne_nil_of_right_ne_nil _ (List.cons_ne_nil _ _))
  | succ k ih =>
      rw [Function.iterate_succ_apply'] at h
      replace h : .timerAfterWait :: .getUsageAfterWait :: .stopKillerAfterWait :: .analyzeAfterWait ::
          (registerBuiltinHook^[k] hookCtxtCreate).afterWait =
            before ++ Hook.stopKillerAfterWait :: after := h
      match before with
      | [] => cases h
      | [_] => cases h
      | [_, _] =>
          cases h
          exact ⟨[.timerAfterWait], rfl⟩
      | [_, _, _] => cases h
      | a :: b :: c :: d :: before =>
          obtain ⟨rest, rfl⟩ := ih (List.cons.inj (List.cons.inj (List.cons.inj
            (List.cons.inj h).2).2).2).2
          exact ⟨a :: b :: c :: d :: rest, rfl⟩

section
variable {chain hs : List Hook} {j : Judger} {l : JLocal} {m m' m₂ : Mem} {r : Int} {n : Nat}
  {es : List JEvent}

/-- Hooks of which the last has read the usage. -/
theorem ChainDoes.usage_last
    (hc : ChainDoes (chain ++ [.getUsageAfterWait]) m (chain ++ [.getUsageAfterWait]) 0 es m') :
    ∃ es' ru, es = es' ++ [⟨.ask .getrusage, some ru⟩] := by
  induction chain generalizing m es with
  | nil =>
      obtain ⟨es₁, m₁, es₂, hd, hrest, rfl⟩ := hc.head
      cases hd with
      | used ru =>
          cases hrest with
          | nil => exact ⟨[], ru, rfl⟩
  | cons x chain ih =>
      obtain ⟨es₁, m₁, es₂, hd, hrest, rfl⟩ := hc.head
      obtain ⟨es', ru, rfl⟩ := ih hrest
      exact ⟨es₁ ++ es', ru, (List.append_assoc _ _ _).symm⟩

/-- The hook that stops the killer, at one of its calls. -/
theorem Stopping.handle {c : Call} (h : Stopping m es c) :
    handleOf c = some m.ctxt.tid ∧ m.ctxt.rctxt.realTime ≠ rscUnlimited ∧ m.ctxt.tid ≠ 0 ∧
      ∀ e ∈ es, storedTid e = none := by
  cases h with
  | cancel hz ht => exact ⟨rfl, hz, ht, fun e he => absurd he List.not_mem_nil⟩
  | join b hz ht => exact ⟨rfl, hz, ht, by simp [storedTid]⟩

/-- The chains are those that were registered. -/
theorem Waits.hctxt (hw : Waits j l m n es m₂) :
    m₂.ctxt.hctxt = registerBuiltinHook m.ctxt.hctxt := by
  obtain ⟨hs, es₁, m₁, hs₂, es₂, hp, -, hc, -⟩ := hw
  exact hc.keeps.hctxt.trans hp.hctxt

/-- What comes right before a use of the thread `t`. -/
inductive Coming (t : Nat) (es : List JEvent) : Call → Prop
  | usage {ru : Rusage} {es' : List JEvent} : es = es' ++ [⟨.ask .getrusage, some ru⟩] →
      Coming t es (.pthreadCancel t)
  | cancel {b : Bool} {es' : List JEvent} : es = es' ++ [⟨.pthreadCancel t, b⟩] →
      Coming t es (.pthreadJoin t)

/-- **The thread the parent cancels or joins** is what was stored last. -/
theorem AtWindup.handle {k : Nat} (hm : m.ctxt.hctxt = registerBuiltinHook^[k] hookCtxtCreate)
    {c : Call} {l' : JLocal} {next : Ret c → Prog Call Ret (Int × Mem)}
    (h : AtWindup j l m c l' next) (hl : l.log = []) {t : Nat} (hc : handleOf c = some t) :
    t ≠ 0 ∧ lastStored l'.log = some t ∧ Coming t l'.log c := by
  have hb : BuiltinHooks m.ctxt.hctxt := hm ▸ builtinHooks_iterate k
  obtain ⟨es, m', hwind, hlog, -⟩ := h
  rw [hl, List.nil_append] at hlog
  rw [hlog]
  cases hwind with
  | waiting => cases hc
  | @stopping n status es es₃ es₄ m₂ _ before after _ hw hchain hbefore hs =>
      have hchain' : (registerBuiltinHook^[k + 1] hookCtxtCreate).afterWait =
          before ++ .stopKillerAfterWait :: after := by
        rw [Function.iterate_succ_apply', ← hm, ← hw.hctxt]
        exact hchain
      have hwait : ∀ x ∈ before, x ≠ .startKillerAfterFork := by
        rintro x hx rfl
        have hmem : Hook.startKillerAfterFork ∈
            (registerBuiltinHook^[k + 1] hookCtxtCreate).afterWait := by
          rw [hchain']
          exact List.mem_append_left _ hx
        exact absurd (waitHooks_iterate (k + 1) _ hmem) (by decide)
      have htid : m'.ctxt.tid = m₂.ctxt.tid := (hbefore.tid hwait).2
      have hlimit : m'.ctxt.rctxt.realTime = m.ctxt.rctxt.realTime := by
        rw [hbefore.keeps.rctxt]
        exact hw.limit
      obtain ⟨hhandle, hz, hne, hnone₄⟩ := hs.handle
      obtain rfl : m'.ctxt.tid = t := Option.some.inj (hhandle.symm.trans hc)
      refine ⟨hne, ?_, ?_⟩
      · -- nothing is stored after the wait
        rw [lastStored_append, lastStored_append, lastStored_append, lastStored_eq_none hnone₄,
          lastStored_eq_none (hbefore.stores hwait), lastStored_eq_none (by simp [storedTid]), htid]
        exact hw.tid hb (hlimit ▸ hz)
      · cases hs with
        | cancel =>
            obtain ⟨rest, rfl⟩ := stop_after_usage hchain'
            obtain ⟨es', ru, rfl⟩ := hbefore.usage_last
            have heq : es ++ [⟨.waitpid n true, some status⟩] ++
                (es' ++ [⟨.ask .getrusage, some ru⟩]) ++ [] =
                  (es ++ [⟨.waitpid n true, some status⟩] ++ es') ++ [⟨.ask .getrusage, some ru⟩] := by
              simp only [List.append_nil, List.append_assoc]
            exact .usage heq
        | join b => exact .cancel rfl

end

/-! ## A tidy run -/

section
variable {x : Code Int} {t : FdTable} {m : Mem} {pgid k : Nat} {w w' : JWorld}
  {a : Act judgerIface} {ok : JWorld → Act judgerIface → Prop}
  {body : Nat → TkillCtxt → Prog Call Ret Unit}

/-- Whatever process 1 is about to cancel or to join may be joined. -/
def Ready (w : JWorld) : Prop :=
  ∀ {q c next n}, w.procs 1 = some q → q.code = .call c next → handleOf c = some n →
    Joinable w q.loc.log n

/-- A thread that may be joined may be joined after the step, if the step does not
detach or join it. -/
theorem Joinable.step {es es' : List JEvent} {n : Nat} (h : Joinable w es n)
    (hs : w.step body a = some w') (hjoin : (⟨.pthreadJoin n, true⟩ : JEvent) ∉ es')
    (hdetach : ∀ o th, a = .thr n o → w.thread? n = some th → detaches th o = false) :
    Joinable w' es' n := by
  obtain ⟨th, ⟨hth, -⟩, hd⟩ := h
  obtain ⟨th', hth'⟩ := Option.isSome_iff_exists.mp
    (thread?_step hs (Option.isSome_iff_exists.mpr ⟨th, hth⟩))
  refine ⟨th', ⟨hth', hjoin⟩, ?_⟩
  cases step_threadOrigin hs hth' with
  | kept hth₀ hkept _ =>
      obtain rfl := Option.some.inj (hth.symm.trans hth₀)
      exact hkept.detached.trans hd
  | stepped ha hth₀ _ hstepped =>
      obtain rfl := Option.some.inj (hth.symm.trans hth₀)
      cases hstepped with
      | detached hc ho =>
          have hno := hdetach _ _ ha hth
          simp [detaches, hc, ho] at hno
      | ended | cancelled | attached | slept | shot => exact hd
  | born _ _ _ _ hnew => rw [hnew]

/-- What the parent is about to use, it could use one event before. -/
theorem Coming.joinable {e : JEvent} {q : Proc judgerIface (Int × Mem)}
    {n : Nat} {c : Call} {o : Outcome judgerIface} (hw : Ready w) (hq : w.procs 1 = some q)
    (hb : Coming n (q.loc.log ++ [e]) c) (hn : n ≠ 0)
    (hlast : lastStored (q.loc.log ++ [e]) = some n) (he : w.nextEvent 1 o = some e)
    (hok : tidyEvent w q.loc.log e = true) :
    Joinable w q.loc.log n ∧ (⟨.pthreadJoin n, true⟩ : JEvent) ∉ q.loc.log ++ [e] := by
  cases hb with
  | usage heq =>
      obtain ⟨-, heq⟩ := List.append_inj' heq rfl
      obtain rfl := (List.cons.inj heq).1
      have hbefore : lastStored q.loc.log = some n := by
        rw [lastStored_append, lastStored_eq_none (by simp [storedTid]), Option.none_or] at hlast
        exact hlast
      have hjoinable : Joinable w q.loc.log n := by
        simpa [tidyEvent, hbefore, hn, joinable_iff] using hok
      obtain ⟨th, ⟨hth, hnot⟩, hd⟩ := hjoinable
      exact ⟨⟨th, ⟨hth, hnot⟩, hd⟩, by simp [hnot]⟩
  | cancel heq =>
      obtain ⟨-, heq⟩ := List.append_inj' heq rfl
      obtain rfl := (List.cons.inj heq).1
      obtain ⟨p, c, next, r, hp, hc, -, hevent⟩ := nextEvent_call he
      obtain rfl := Option.some.inj (hq.symm.trans hp)
      cases hevent
      obtain ⟨th, ⟨hth, hnot⟩, hd⟩ := hw hq hc rfl
      exact ⟨⟨th, ⟨hth, hnot⟩, hd⟩, by simp [hnot]⟩

/-- **One tidy step keeps the thread that is about to be used.** -/
theorem ready_step (hm : m.ctxt.hctxt = registerBuiltinHook^[k] hookCtxtCreate)
    (hx : x = yjudgerGeneral ∨ x = yjudgerInteractive)
    (hr : Reaches body ok (World.init t (x m) pgid) w) (hokall : ok w a) (hw : Ready w)
    (hok : tidy w a = true) (h : w.step body a = some w') : Ready w' := by
  intro q' c next n hq' hc hn
  have hb : BuiltinHooks m.ctxt.hctxt := hm ▸ builtinHooks_iterate k
  have hwinds : windsUp c = true := by
    cases c with
    | pthreadCancel | pthreadJoin => rfl
    | _ => cases hn
  obtain ⟨j, hat⟩ := Reaches.atWindup hb hx (hr.tail hokall h) hq' hc hwinds
  obtain ⟨hne, hlast, hbefore⟩ := hat.handle hm rfl hn
  obtain ⟨q, hq⟩ := Option.isSome_iff_exists.mp hr.first
  obtain ⟨q₁, hq₁, hf⟩ := step_fate hr.numbered h hq
  obtain rfl := Option.some.inj (hq'.symm.trans hq₁)
  -- the thread does not detach itself while the parent stands where it stood
  have undetached : q.code = q'.code →
      ∀ o th, a = .thr n o → w.thread? n = some th → detaches th o = false := by
    rintro hcode o th rfl hth
    have hstop : stopping w n = true := by simp [stopping, hq, hcode, hc, hn]
    simpa [tidy, hth, hstop] using hok
  cases hf with
  | kept hk =>
      have hj : Joinable w q.loc.log n := hw hq (hk.code ▸ hc) hn
      obtain ⟨th, ⟨hth, hnot⟩, hd⟩ := hj
      exact Joinable.step ⟨th, ⟨hth, hnot⟩, hd⟩ h (hk.loc ▸ hnot) (undetached hk.code.symm)
  | exec _ _ hcq hexec hq'' =>
      rw [hq''] at hc
      cases hcq.symm.trans hc
      cases c with
      | pthreadCancel | pthreadJoin => cases hexec
      | _ => cases hn
  | @call c₀ next₀ o r ha _ hcq hreply hloc hcode _ _ =>
      subst ha
      have he : w.nextEvent 1 o = some ⟨c₀, r⟩ := nextEvent_eq hq hcq hreply
      have hlog : q'.loc.log = q.loc.log ++ [⟨c₀, r⟩] := by rw [hloc, Local.after_log]
      rw [hlog] at hlast hbefore ⊢
      obtain ⟨hj, hnot⟩ := hbefore.joinable hw hq hne hlast he (by simpa [tidy, hq, he] using hok)
      exact hj.step h hnot fun _ _ ha => by cases ha

theorem ready_run (hm : m.ctxt.hctxt = registerBuiltinHook^[k] hookCtxtCreate)
    (hx : x = yjudgerGeneral ∨ x = yjudgerInteractive)
    (hr : Reaches body (fun w a => tidy w a = true) (World.init t (x m) pgid) w) : Ready w := by
  induction hr with
  | refl =>
      intro q c next n hq hc hn
      have hb : BuiltinHooks m.ctxt.hctxt := hm ▸ builtinHooks_iterate k
      have hwinds : windsUp c = true := by
        cases c with
        | pthreadCancel | pthreadJoin => rfl
        | _ => cases hn
      have hinit : Reaches body Always (World.init t (x m) pgid) (World.init t (x m) pgid) := .refl
      obtain ⟨j, hat⟩ := Reaches.atWindup hb hx hinit hq hc hwinds
      obtain ⟨-, hlast, -⟩ := hat.handle hm rfl hn
      rw [(init_procs hq).2.1] at hlast
      cases hlast
  | tail hr hok hs ih => exact ready_step hm hx hr hok ih hok hs

/-- **Threads are cancelled and joined only while that is allowed**, in every tidy
run, whatever the killers find at the address they are given. -/
theorem handles_valid (hm : m.ctxt.hctxt = registerBuiltinHook^[k] hookCtxtCreate)
    (hx : x = yjudgerGeneral ∨ x = yjudgerInteractive) {found : Nat → TkillCtxt → TkillCtxt}
    (hr : Reaches (killersFinding found) (fun w a => tidy w a = true) (World.init t (x m) pgid) w) :
    HandlesValid w := by
  have hb : BuiltinHooks m.ctxt.hctxt := hm ▸ builtinHooks_iterate k
  have hready : Ready w := ready_run hm hx hr
  constructor
  · intro i q n next hq hc
    obtain rfl : i = 1 := first_only (P := usesHandle) (fun _ h => h.unhandled) hb hx hr hq hc rfl
    obtain ⟨th, hth, hattached⟩ := hready hq hc rfl
    refine ⟨th, hth, fun h => ?_⟩
    rw [hattached] at h
    cases h.1
  · intro i q n next hq hc
    obtain rfl : i = 1 := first_only (P := usesHandle) (fun _ h => h.unhandled) hb hx hr hq hc rfl
    exact hready hq hc rfl

end

/-- `pthread_detach` fails in the killer, which shoots at once, and the join waits
for its end. -/
theorem handles_valid_undetached : ∃ w, hasReturned w = true ∧ w.threads ≠ [] ∧
    HandlesValid w := by
  have hrun : ((World.init (.inheritedBelow 4) (yjudgerGeneral timedMem) 1).runIf killers
      tidy (limitActs ++ okActs 1 1 ++ [.thr 1 .fail, .thr 1 .ok] ++ okActs 1 1 ++
        askActs 1 2 ++ okActs 1 1 ++ [.thr 1 .ok] ++ okActs 1 1)).any
      (fun w => hasReturned w && !w.threads.isEmpty) = true := by decide +kernel
  obtain ⟨w, hr, hw⟩ := reaches_of_anyIf hrun
  rw [Bool.and_eq_true] at hw
  refine ⟨w, hw.1, fun hnil => ?_, handles_valid (k := 0) (m := timedMem) rfl (Or.inl rfl) hr⟩
  rw [hnil] at hw
  cases hw.2

/-- Is process 1 about to join a detached thread? -/
def joinsDetached (w : JWorld) : Bool :=
  (w.procs 1).any fun q => match q.code with
    | .call (.pthreadJoin t) _ => (w.thread? t).any Thread.detached
    | _ => false

/-- Is it about to cancel one that has ended? -/
def cancelsEnded (w : JWorld) : Bool :=
  (w.procs 1).any fun q => match q.code with
    | .call (.pthreadCancel t) _ => (w.thread? t).any fun th => th.detached && th.done
    | _ => false

/-- Is it about to cancel one that does not exist? -/
def cancelsNone (w : JWorld) : Bool :=
  (w.procs 1).any fun q => match q.code with
    | .call (.pthreadCancel t) _ => (w.thread? t).isNone
    | _ => false

theorem not_valid_of_joinsDetached {w : JWorld} (h : joinsDetached w = true) :
    ¬ HandlesValid w := by
  intro hv
  obtain ⟨q, hq, hc⟩ := (Option.any_eq_true _ _).mp h
  split at hc
  case h_2 => cases hc
  case h_1 t next heq =>
    obtain ⟨th, ⟨hth, -⟩, hattached⟩ := hv.joined hq heq
    rw [hth, Option.any_some, hattached] at hc
    cases hc

theorem not_valid_of_cancelsEnded {w : JWorld} (h : cancelsEnded w = true) :
    ¬ HandlesValid w := by
  intro hv
  obtain ⟨q, hq, hc⟩ := (Option.any_eq_true _ _).mp h
  split at hc
  case h_2 => cases hc
  case h_1 t next heq =>
    obtain ⟨th, ⟨hth, -⟩, hlive⟩ := hv.cancelled hq heq
    rw [hth, Option.any_some, Bool.and_eq_true] at hc
    exact hlive hc

theorem not_valid_of_cancelsNone {w : JWorld} (h : cancelsNone w = true) : ¬ HandlesValid w := by
  intro hv
  obtain ⟨q, hq, hc⟩ := (Option.any_eq_true _ _).mp h
  split at hc
  case h_2 => cases hc
  case h_1 t next heq =>
    obtain ⟨th, ⟨hth, -⟩, -⟩ := hv.cancelled hq heq
    rw [hth] at hc
    cases hc

/-- The killer is asleep when the child ends, and a detached thread is joined; or it has shot and
ended, and what is cancelled is no longer there; or it was never created, and what is cancelled is
what the refused call left behind. -/
theorem handles_invalid :
    (∃ w, Reaches killers Always (World.init (.inheritedBelow 4) (yjudgerGeneral timedMem) 1)
      w ∧ joinsDetached w = true ∧ ¬ HandlesValid w) ∧
    (∃ w, Reaches killers Always (World.init (.inheritedBelow 4) (yjudgerGeneral timedMem) 1)
      w ∧ cancelsEnded w = true ∧ ¬ HandlesValid w) ∧
    ∃ w, Reaches killers Always (World.init (.inheritedBelow 4) (yjudgerGeneral timedMem) 1)
      w ∧ cancelsNone w = true ∧ ¬ HandlesValid w := by
  refine ⟨?_, ?_, ?_⟩
  · have hrun : ((World.init (.inheritedBelow 4) (yjudgerGeneral timedMem) 1).run killers
        (napActs ++ okActs 1 1 ++ askActs 1 2 ++ okActs 1 1)).any joinsDetached = true := by
      decide +kernel
    obtain ⟨w, hr, hw⟩ := reaches_of_any hrun
    exact ⟨w, hr, hw, not_valid_of_joinsDetached hw⟩
  · have hrun : ((World.init (.inheritedBelow 4) (yjudgerGeneral timedMem) 1).run killers
        (limitActs ++ okActs 1 1 ++ List.replicate 4 (.thr 1 .ok) ++ okActs 1 1 ++
          askActs 1 2)).any cancelsEnded = true := by
      decide +kernel
    obtain ⟨w, hr, hw⟩ := reaches_of_any hrun
    exact ⟨w, hr, hw, not_valid_of_cancelsEnded hw⟩
  · have hrun : ((World.init (.inheritedBelow 4) (yjudgerGeneral timedMem) 1).run killers
        (limitActs ++ [.sys 1 .fail, .sys 1 (.answer (leaving 7)), .quit 2 0] ++ okActs 1 1 ++
          askActs 1 2)).any cancelsNone = true := by
      decide +kernel
    obtain ⟨w, hr, hw⟩ := reaches_of_any hrun
    exact ⟨w, hr, hw, not_valid_of_cancelsNone hw⟩

end YaojJudger
