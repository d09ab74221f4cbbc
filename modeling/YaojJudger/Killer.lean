/-
# `YaojJudger.Killer` — the timeout killer and what it shoots at

A killer may not shoot at a child that has been waited for, and none may be
left when the judger has returned (`KillerSafe`).  The code does not see to it.
The thread is told to stop by a hook that runs after the wait, so its sleep may
end in between; a call that returns before that hook leaves it alone; and
because the thread has detached itself, the `pthread_join` that follows the
cancellation need not wait for it.

It is a matter of timing, and `Timely` says which:

    waitpid reaps the child    no killer is between its sleep and its shot
    the sleep ends             no child has been reaped, or it is cancelled
    the detach fails           no child has been reaped
    pthread_join, or a failed waitpid or getrusage, or a refused
    pthread_create that leaves 0 in *thread
                               every killer has ended

`killerLeft` reads off the record of process 1 whether a killer may be left: one
is, from its creation until an event of the last kind.  In such a run every
killer has ended while the record says no (`idle_of_killerLeft`), and it says no
when the judger returns (`Judging.settled`).
-/
import YaojJudger.Posix.Threads
import YaojJudger.Children
import YaojJudger.Reap
import YaojJudger.Rejudge

namespace YaojJudger

open Posix World

/-! ## The positions of a killer -/

/-- The shot. -/
abbrev shoot (ctxt : TkillCtxt) : Prog Call Ret Unit :=
  .call (.killpg ctxt.pid.toNat) fun _ => .ret ()

/-- How long it sleeps. -/
def napLength (ctxt : TkillCtxt) : UInt32 := ((ctxt.time + 1000) / 1000).toUInt32

/-- What a killer started with `ctxt` may have before it. -/
inductive Killing (ctxt : TkillCtxt) : Prog Call Ret Unit → Prop
  | detach {k k' : Bool → Prog Call Ret Unit} : k true = .call (.sleep (napLength ctxt)) k' →
      (∀ r, k' r = shoot ctxt) → k false = shoot ctxt → Killing ctxt (.call .pthreadDetach k)
  | sleep {k : Bool → Prog Call Ret Unit} : (∀ r, k r = shoot ctxt) →
      Killing ctxt (.call (.sleep (napLength ctxt)) k)
  | shoot : Killing ctxt (shoot ctxt)
  | gone : Killing ctxt (.ret ())

theorem killing_timeoutKiller (ctxt : TkillCtxt) : Killing ctxt (timeoutKiller ctxt) := by
  show Killing ctxt (.call .pthreadDetach fun r : Bool =>
    if r = true then
      .call (.sleep (napLength ctxt)) fun r => if r = true then shoot ctxt else shoot ctxt
    else shoot ctxt)
  exact .detach (if_pos rfl) (fun r => ite_self _) (if_neg Bool.false_ne_true)

section
variable {th th' : Thread judgerIface} {o : Outcome judgerIface} {ctxt : TkillCtxt}

/-- What a step of a killer can be. -/
inductive KillerStep (ctxt : TkillCtxt) (th : Thread judgerIface) (o : Outcome judgerIface)
    (th' : Thread judgerIface) : Prop
  | toSleep {k k' : Bool → Prog Call Ret Unit} : th.code = .call .pthreadDetach k → o = .ok →
      th'.code = .call (.sleep (napLength ctxt)) k' → (∀ r, k' r = shoot ctxt) →
      KillerStep ctxt th o th'
  | undetached {k : Bool → Prog Call Ret Unit} : th.code = .call .pthreadDetach k → o = .fail →
      th'.code = shoot ctxt → KillerStep ctxt th o th'
  | awake {k : Bool → Prog Call Ret Unit} : th.code = .call (.sleep (napLength ctxt)) k →
      th.cancelled = false → th'.code = shoot ctxt → KillerStep ctxt th o th'
  | shot : th.code = shoot ctxt → th'.code = .ret () → KillerStep ctxt th o th'
  | ended : th'.code = th.code → th'.done = true → KillerStep ctxt th o th'

/-- **What a step of a killer can be.** -/
theorem Killing.step (h : Killing ctxt th.code) (hs : Stepped th o th') :
    KillerStep ctxt th o th' := by
  cases hs with
  | ended hc => exact .ended rfl rfl
  | cancelled hc _ => exact .ended rfl rfl
  | detached hc ho =>
      rw [hc] at h
      cases h with
      | detach htrue hk hfalse => exact .toSleep hc ho htrue hk
  | attached hc ho =>
      rw [hc] at h
      cases h with
      | detach htrue hk hfalse => exact .undetached hc ho hfalse
  | slept r hc hcan _ =>
      rw [hc] at h
      cases h with
      | sleep hk => exact .awake hc hcan (hk r)
  | shot r hc =>
      rw [hc] at h
      cases h with
      | shoot => exact .shot hc rfl

theorem KillerStep.killing (h : Killing ctxt th.code) (hs : KillerStep ctxt th o th') :
    Killing ctxt th'.code := by
  cases hs with
  | toSleep _ _ h' hk => rw [h']; exact .sleep hk
  | undetached _ _ h' => rw [h']; exact .shoot
  | awake _ _ h' => rw [h']; exact .shoot
  | shot _ h' => rw [h']; exact .gone
  | ended h' _ => rw [h']; exact h

end

/-! ## What the record of the parent tells -/

/-- A killer has been created. -/
def createsKiller : JEvent → Bool
  | ⟨.pthreadCreate _, some _⟩ => true
  | _ => false

/-- The parent goes on as if there were no killer. -/
def settlesKiller : JEvent → Bool
  | ⟨.pthreadJoin _, _⟩ | ⟨.waitpid _ _, none⟩ | ⟨.ask .getrusage, none⟩ => true
  | ⟨.ask .thread, t⟩ => t == (0 : Nat)
  | _ => false

/-- May a killer be left after one more event? -/
def leftAfter (left : Bool) (e : JEvent) : Bool :=
  if createsKiller e then true else left && !settlesKiller e

/-- May a killer be left? -/
def killerLeft (es : List JEvent) : Bool := es.foldl leftAfter false

section
variable {es es' : List JEvent}

theorem killerLeft_concat (e : JEvent) :
    killerLeft (es ++ [e]) = leftAfter (killerLeft es) e := by
  rw [killerLeft, List.foldl_append]
  rfl

/-- Without a killer to begin with, and none created, there is none. -/
theorem foldl_leftAfter_false (h : ∀ e ∈ es, createsKiller e = false) :
    es.foldl leftAfter false = false := by
  induction es with
  | nil => rfl
  | cons e es ih =>
      have hstep : leftAfter false e = false := by
        simp [leftAfter, h e List.mem_cons_self]
      rw [List.foldl_cons, hstep]
      exact ih fun e' he' => h e' (List.mem_cons_of_mem e he')

/-- None is left once the parent has settled it, and created none since. -/
theorem foldl_leftAfter_settled {left : Bool} (h : ∀ e ∈ es, createsKiller e = false)
    (hs : ∃ e ∈ es, settlesKiller e = true) : es.foldl leftAfter left = false := by
  obtain ⟨e, he, hse⟩ := hs
  obtain ⟨as, bs, rfl⟩ := List.append_of_mem he
  have hstep : ∀ left, leftAfter left e = false := by
    intro left
    simp [leftAfter, h e (by simp), hse]
  rw [List.foldl_append, List.foldl_cons, hstep]
  exact foldl_leftAfter_false fun e' he' => h e' (by simp [he'])

/-- A record in two pieces, of which the second creates no killer. -/
theorem killerLeft_append (h : ∀ e ∈ es', createsKiller e = false)
    (hs : (∃ e ∈ es', settlesKiller e = true) ∨ ∀ e ∈ es, createsKiller e = false) :
    killerLeft (es ++ es') = false := by
  rw [killerLeft, List.foldl_append]
  rcases hs with hs | hs
  · exact foldl_leftAfter_settled h hs
  · rw [foldl_leftAfter_false hs]
    exact foldl_leftAfter_false h

end

/-- The memory holds a killer: a limit is set and the thread has a number. -/
structure HasKiller (m : Mem) : Prop where
  limit : m.ctxt.rctxt.realTime ≠ rscUnlimited
  tid : m.tid ≠ 0
  ctxtTid : m.ctxt.tid ≠ 0

/-- Threads have numbers. -/
def NumbersThreads (es : List JEvent) : Prop :=
  ∀ start t, (⟨.pthreadCreate start, some t⟩ : JEvent) ∈ es → t ≠ 0

section
variable {h : Hook} {chain hs : List Hook} {m m' : Mem} {r : Int} {es : List JEvent}

theorem warning_creates (status : Nat) : ∀ e ∈ warning status, createsKiller e = false := by
  intro e he
  rw [warning] at he
  split at he
  · rw [List.mem_singleton.mp he]; rfl
  · cases he

/-- Only one hook creates killers. -/
theorem HookDoes.creates (hd : HookDoes h m r es m') (hne : h ≠ .startKillerAfterFork) :
    ∀ e ∈ es, createsKiller e = false := by
  cases hd with
  | noLimit | killer => exact absurd rfl hne
  | analyzed => exact warning_creates _
  | _ => simp [createsKiller]

theorem ChainDoes.creates (hc : ChainDoes chain m hs r es m')
    (hne : ∀ h ∈ chain, h ≠ .startKillerAfterFork) : ∀ e ∈ es, createsKiller e = false :=
  hc.forall_events (fun _ => rfl) fun h hm => fun hd => hd.creates (hne h hm)

/-- Nor does any other write down its number. -/
theorem HookDoes.tid (hd : HookDoes h m r es m') (hne : h ≠ .startKillerAfterFork) :
    m'.tid = m.tid ∧ m'.ctxt.tid = m.ctxt.tid := by
  cases hd with
  | noLimit | killer => exact absurd rfl hne
  | analyzed => exact ⟨rfl, analyzed_tid _⟩
  | _ => exact ⟨rfl, rfl⟩

/-- Nothing else makes it look as if one were left. -/
theorem foldl_leftAfter_true {left : Bool} (h : ∀ e ∈ es, createsKiller e = false)
    (hl : es.foldl leftAfter left = true) : left = true := by
  cases left with
  | true => rfl
  | false =>
      rw [foldl_leftAfter_false h] at hl
      exact hl

/-- While a killer may be left, the memory holds it. -/
theorem HookDoes.hasKiller {left : Bool} (hd : HookDoes h m r es m') (hn : NumbersThreads es)
    (hk : left = true → HasKiller m) (hl : es.foldl leftAfter left = true) : HasKiller m' := by
  by_cases hne : h = .startKillerAfterFork
  · subst hne
    cases hd with
    | noLimit hz => exact hk hl
    | killer t hz =>
        cases t with
        | created t =>
            have ht : t ≠ 0 := hn _ t List.mem_cons_self
            exact ⟨hz, ht, ht⟩
        | refused n =>
            have hne : n ≠ 0 := by
              rintro rfl
              simp [Attempt.events, leftAfter, createsKiller, settlesKiller] at hl
            exact ⟨hz, hne, hne⟩
  · have hk := hk (foldl_leftAfter_true (hd.creates hne) hl)
    obtain ⟨htid, hctxt⟩ := hd.tid hne
    exact ⟨hd.keeps.rctxt ▸ hk.limit, htid ▸ hk.tid, hctxt ▸ hk.ctxtTid⟩

theorem ChainDoes.hasKiller {left : Bool} (hc : ChainDoes chain m hs r es m')
    (hn : NumbersThreads es) (hk : left = true → HasKiller m)
    (hl : es.foldl leftAfter left = true) : HasKiller m' := by
  induction hc generalizing left with
  | nil => exact hk hl
  | stop hd _ =>
      rw [List.foldl_append] at hl
      refine hd.hasKiller (fun start t hm => hn start t (List.mem_append_left _ hm)) hk ?_
      exact foldl_leftAfter_true (by simp [createsKiller]) hl
  | next hd _ ih =>
      rw [List.foldl_append] at hl
      refine ih (fun start t hm => hn start t (List.mem_append_right _ hm)) ?_ hl
      exact hd.hasKiller (fun start t hm => hn start t (List.mem_append_left _ hm)) hk

/-- The hooks after the wait settle it, if they come to the one that stops it. -/
theorem ChainDoes.settles (hc : ChainDoes chain m hs 0 es m')
    (hne : ∀ h ∈ chain, h ≠ .startKillerAfterFork) (hstop : .stopKillerAfterWait ∈ chain)
    (hk : HasKiller m) : ∃ e ∈ es, settlesKiller e = true := by
  generalize hr : (0 : Int) = r at hc
  induction hc with
  | nil => cases hstop
  | stop hd hne' =>
      rcases hd.yerrno with ⟨hzero, -⟩ | ⟨-, hy⟩
      · exact absurd hzero hne'
      · exact absurd (hr.trans hy).symm hne'
  | @next h next hs m m₁ m' r es es' hd hc ih =>
      by_cases hh : h = .stopKillerAfterWait
      · subst hh
        cases hd with
        | noKiller hz => exact absurd hz (not_or.mpr ⟨hk.limit, hk.ctxtTid⟩)
        | stopped cancelled joined _ _ =>
            exact ⟨_, List.mem_append_left _ (List.mem_cons_of_mem _ List.mem_cons_self), rfl⟩
      · have hmem : .stopKillerAfterWait ∈ next :=
          (List.mem_cons.mp hstop).resolve_left (Ne.symm hh)
        obtain ⟨htid, hctxt⟩ := hd.tid (hne _ List.mem_cons_self)
        have hk₁ : HasKiller m₁ :=
          ⟨hd.keeps.rctxt ▸ hk.limit, htid ▸ hk.tid, hctxt ▸ hk.ctxtTid⟩
        obtain ⟨e, he, hse⟩ := ih (fun h hm => hne h (List.mem_cons_of_mem _ hm)) hmem hk₁ hr
        exact ⟨e, List.mem_append_right _ he, hse⟩

end

section
variable {j : Judger} {l : JLocal} {m m' : Mem} {hs : List Hook} {r : Int} {es : List JEvent}

/-- The hooks before the fork create no killer. -/
theorem before_creates {chain : List Hook} {m₁ : Mem}
    (hc : ChainDoes chain m hs r es m₁)
    (hb : ∀ h ∈ chain, h = .initResultBeforeFork ∨ h = .compilePolicyBeforeFork) :
    ∀ e ∈ es, createsKiller e = false := by
  refine hc.creates fun h hm => ?_
  rcases hb h hm with rfl | rfl <;> decide

theorem wait_creates {chain : List Hook} {m₁ : Mem} (hc : ChainDoes chain m hs r es m₁)
    (hb : ∀ h ∈ chain, h ∈ waitHooks) : ∀ e ∈ es, createsKiller e = false := by
  refine hc.creates fun h hm => ?_
  rintro rfl
  exact absurd (hb _ hm) (by decide)

theorem opening_creates (l : JLocal) : ∀ e ∈ opening l, createsKiller e = false := by
  simp [opening, createsKiller]

/-- **When a judger returns, its record tells of no killer left.** -/
theorem Judging.settled (h : Judging j l m hs r es m') (hb : BuiltinHooks m.ctxt.hctxt)
    (hw : ∀ h ∈ m.ctxt.hctxt.afterWait, h ∈ waitHooks) (hn : NumbersThreads es) :
    killerLeft es = false := by
  -- the record up to the hooks after the fork
  have before : ∀ {hs₁ : List Hook} {es₁ : List JEvent} {m₁ : Mem} {r₁ : Int},
      ChainDoes (hooked (m.begun l.pid)).ctxt.hctxt.beforeFork (hooked (m.begun l.pid)) hs₁ r₁ es₁
        m₁ → ∀ e ∈ opening l ++ es₁, createsKiller e = false := fun hc =>
    List.forall_mem_append.mpr ⟨opening_creates l, before_creates hc hb.register.before⟩
  have launched : ∀ {hs₁ : List Hook} {es₁ rest : List JEvent} {m₁ : Mem} {r₁ : Int},
      ChainDoes (hooked (m.begun l.pid)).ctxt.hctxt.beforeFork (hooked (m.begun l.pid)) hs₁ r₁ es₁
        m₁ → (∀ e ∈ rest, createsKiller e = false) →
      killerLeft (opening l ++ es₁ ++ rest) = false :=
    fun hc hrest => foldl_leftAfter_false (List.forall_mem_append.mpr ⟨before hc, hrest⟩)
  have waiting : ∀ (status : Nat) {hs₁ : List Hook} {es₁ : List JEvent} {m₁ m₂ : Mem} {n : Nat},
      Prepares j l m hs₁ es₁ m₁ → HookKeeps (m₁.parent n) m₂ →
        ∀ h ∈ (m₂.waited status).ctxt.hctxt.afterWait, h ∈ waitHooks := by
    intro status hs₁ es₁ m₁ m₂ n hp hk
    rw [show (m₂.waited status).ctxt.hctxt = registerBuiltinHook m.ctxt.hctxt from
      hk.hctxt.trans hp.hctxt]
    exact waitHooks_register hw
  cases h with
  | noPipe => rfl
  | badArgc => rfl
  | unprepared _ hc _ => exact launched hc (by simp [createsKiller])
  | noFork hp => exact launched hp.2 (by simp [createsKiller])
  | notReady hp => exact launched hp.2 (by simp [createsKiller])
  | unstarted hp _ hc hr => exact absurd (started_succeeds hc (hp.afterHooks hb)) hr
  | noWait b hp _ hc =>
      exact killerLeft_append (by simp [createsKiller])
        (Or.inl ⟨_, List.mem_cons_self, rfl⟩)
  | @unread hs₁ hs₂ hs₃ es₁ es₂ es₃ m₁ m₂ m₃ n status r₃ hp _ hc hc₃ hr =>
      have hwait := waiting status hp hc.keeps
      rw [List.append_assoc]
      refine killerLeft_append (List.forall_mem_append.mpr
        ⟨wait_creates hc₃ hwait, by simp [createsKiller]⟩)
        (Or.inl ⟨⟨.ask .getrusage, none⟩, ?_, rfl⟩)
      exact List.mem_append_left _ (wait_failed hc₃ hwait hr)
  | @judged hs₁ hs₂ hs₃ es₁ es₂ es₃ m₁ m₂ m₃ n status hp _ hc hc₃ =>
      have hwait := waiting status hp hc.keeps
      have hbefore : killerLeft (opening l ++ es₁ ++ handshake l n) = false :=
        launched hp.2 (by simp [handshake, createsKiller])
      have hsplit : opening l ++ es₁ ++ handshake l n ++ es₂ ++
          [⟨.waitpid n true, some status⟩] ++ es₃ = (opening l ++ es₁ ++ handshake l n) ++ (es₂ ++
            ([⟨.waitpid n true, some status⟩] ++ es₃)) := by simp only [List.append_assoc]
      have hrest : ∀ e ∈ [(⟨.waitpid n true, some status⟩ : JEvent)] ++ es₃,
          createsKiller e = false :=
        List.forall_mem_append.mpr ⟨by simp [createsKiller], wait_creates hc₃ hwait⟩
      rw [hsplit, killerLeft, List.foldl_append, ← killerLeft, hbefore, List.foldl_append]
      cases hleft : es₂.foldl leftAfter false with
      | false => exact foldl_leftAfter_false hrest
      | true =>
          have hkiller : HasKiller m₂ := by
            refine hc.hasKiller (fun start t hm => hn start t ?_) (fun h => by cases h) hleft
            simp [hm]
          have hstop : .stopKillerAfterWait ∈ (m₂.waited status).ctxt.hctxt.afterWait := by
            rw [show (m₂.waited status).ctxt.hctxt = registerBuiltinHook m.ctxt.hctxt from
              hc.keeps.hctxt.trans hp.hctxt]
            simp [registerBuiltinHook, registerHook, pushfrontHook]
          have hnostart : ∀ h ∈ (m₂.waited status).ctxt.hctxt.afterWait,
              h ≠ .startKillerAfterFork := by
            rintro h hm rfl
            exact absurd (hwait _ hm) (by decide)
          obtain ⟨e, he, hse⟩ := hc₃.settles hnostart hstop
            ⟨hkiller.limit, hkiller.tid, hkiller.ctxtTid⟩
          exact foldl_leftAfter_settled hrest ⟨e, List.mem_append_right _ he, hse⟩

end

/-! ## The timing -/

/-- The group a thread is about to shoot at. -/
def aim : Prog Call Ret Unit → Option Nat
  | .call (.killpg g) _ => some g
  | _ => none

/-- Is the thread about to shoot? -/
def aiming (th : Thread judgerIface) : Bool := !th.done && (aim th.code).isSome

/-- Does a step of the thread with outcome `o` bring it to its shot? -/
def draws (th : Thread judgerIface) (o : Outcome judgerIface) : Bool :=
  match th.code, o with
  | .call .pthreadDetach _, .fail => true
  | .call (.sleep _) _, _ => !th.cancelled
  | _, _ => false

/-- Has somebody been waited for? -/
def anyGone (w : JWorld) : Bool :=
  (List.range w.next).any fun j => (w.procs j).any fun q => q.mode.gone

/-- Nobody aims when the child is reaped, and everybody is done when the parent
goes on as if there were no killer. -/
def timelyEvent (w : JWorld) (e : JEvent) : Bool :=
  ((w.reaps e).isNone || w.threads.all fun th => !aiming th) && (!settlesKiller e || w.idle)

/-- The timing on which it depends whom the killer hits. -/
def timely (w : JWorld) : Act judgerIface → Bool
  | .sys i o => (w.nextEvent i o).all (timelyEvent w)
  | .thr t o => (w.thread? t).all fun th => !draws th o || !anyGone w
  | _ => true

/-- Nobody aims at a process that has been waited for. -/
def AimsAtLiving (w : JWorld) : Prop :=
  ∀ {t th g q}, w.thread? t = some th → th.done = false → aim th.code = some g →
    w.procs g = some q → q.mode.gone = false

/-- When the judger has returned, no killer is left. -/
def NoneLeft (w : JWorld) : Prop := ∀ {q a}, w.procs 1 = some q → q.code = .ret a → w.idle = true

/-- The killer only shoots at its own child while that is there, and does not
outlive the call. -/
structure KillerSafe (w : JWorld) : Prop where
  living : AimsAtLiving w
  none_left : NoneLeft w

/-- Every thread is a killer. -/
def AllKillers (w : JWorld) : Prop :=
  ∀ {t th}, w.thread? t = some th → ∃ ctxt, Killing ctxt th.code

theorem allKillers_step {w w' : JWorld} {a : Act judgerIface} (hw : AllKillers w)
    (h : w.step killers a = some w') : AllKillers w' := by
  intro t th' ht
  cases step_threadOrigin h ht with
  | kept hth hk _ => rw [hk.code]; exact hw hth
  | stepped _ hth _ hs =>
      obtain ⟨ctxt, hk⟩ := hw hth
      exact ⟨ctxt, (hk.step hs).killing hk⟩
  | @born _ _ _ start _ _ _ _ _ hth' =>
      rw [hth']
      exact ⟨start, killing_timeoutKiller start⟩

theorem aiming_of_aim {th : Thread judgerIface} {g : Nat} (hd : th.done = false)
    (ha : aim th.code = some g) : aiming th = true := by
  simp [aiming, hd, ha]

theorem anyGone_of_gone {w : JWorld} (hn : w.Numbered) {j : Nat}
    {q : Proc judgerIface (Int × Mem)} (hq : w.procs j = some q) (hgone : q.mode.gone = true) :
    anyGone w = true :=
  List.any_eq_true.mpr ⟨j, List.mem_range.mpr (hn.lt_next hq), by simp [hq, hgone]⟩

/-- A killer that comes to its shot draws. -/
theorem KillerStep.draws {ctxt : TkillCtxt} {th th' : Thread judgerIface}
    {o : Outcome judgerIface} (hs : KillerStep ctxt th o th') {g : Nat} (hd : th'.done = false)
    (ha : aim th'.code = some g) : draws th o = true := by
  cases hs with
  | toSleep _ _ h' _ => rw [h'] at ha; cases ha
  | undetached h ho _ => subst ho; simp [YaojJudger.draws, h]
  | awake h hcan _ => simp [YaojJudger.draws, h, hcan]
  | shot _ h' => rw [h'] at ha; cases ha
  | ended _ hdone => rw [hdone] at hd; cases hd

/-- One step keeps the aim. -/
theorem aimsAtLiving_step {w w' : JWorld} {a : Act judgerIface} (hn : w.Numbered)
    (hk : AllKillers w) (hw : AimsAtLiving w) (hok : timely w a = true)
    (h : w.step killers a = some w') : AimsAtLiving w' := by
  intro t th' g q' ht hd ha hq'
  by_contra hgone
  have hgone : q'.mode.gone = true := by simpa using hgone
  cases step_threadOrigin h ht with
  | @kept th hth hkept _ =>
      have hd₀ : th.done = false := hkept.done ▸ hd
      have ha₀ : aim th.code = some g := hkept.code ▸ ha
      rcases gone_origin hn h hq' hgone with ⟨q, hq, hold⟩ | ⟨i, o, e, rfl, he, hreaps⟩
      · rw [hw hth hd₀ ha₀ hq] at hold
        cases hold
      · simp only [timely, he, Option.all_some, timelyEvent, hreaps, Option.isNone_some,
          Bool.false_or, Bool.and_eq_true, List.all_eq_true] at hok
        have hfree := hok.1 th (List.mem_of_getElem? (thread?_eq_some.mp hth).2)
        rw [aiming_of_aim hd₀ ha₀] at hfree
        cases hfree
  | @stepped o th ha' hth hdone hs =>
      subst ha'
      rcases gone_origin hn h hq' hgone with ⟨q, hq, hold⟩ | ⟨i, o', e, ha', -⟩
      · obtain ⟨ctxt, hkill⟩ := hk hth
        simp [timely, hth, (hkill.step hs).draws hd ha, anyGone_of_gone hn hq hold] at hok
      · cases ha'
  | born _ _ _ _ hth' =>
      rw [hth'] at ha
      cases ha

section
variable {x : Code Int} {t : FdTable} {m : Mem} {pgid : Nat} {w : JWorld}

/-- **Unless the record of process 1 says that a killer may be left, none is.** -/
theorem idle_of_killerLeft (hx : x = yjudgerGeneral ∨ x = yjudgerInteractive)
    (hb : BuiltinHooks m.ctxt.hctxt)
    (hr : Reaches killers (fun w a => timely w a = true) (World.init t (x m) pgid) w)
    {q : Proc judgerIface (Int × Mem)} (hq : w.procs 1 = some q)
    (hleft : killerLeft q.loc.log = false) : w.idle = true := by
  induction hr generalizing q with
  | refl => rfl
  | @tail w w' a hr hok hs ih =>
      obtain ⟨q₀, hq₀⟩ := Option.isSome_iff_exists.mp hr.first
      -- only process 1 creates threads
      have created : w.idle = true → w'.idle = true ∨ ∃ o start n, a = .sys 1 o ∧
          w.nextEvent 1 o = some ⟨.pthreadCreate start, some n⟩ := by
        intro hidle
        rcases idle_step hs hidle with hidle' | ⟨i, o, start, n, rfl, he⟩
        · exact Or.inl hidle'
        · obtain ⟨p, c, k, r, hp, hc, -, he'⟩ := nextEvent_call he
          cases he'
          obtain rfl : i = 1 :=
            first_only (P := startsClock) (fun _ h => h.clock) hb hx hr hp hc rfl
          exact Or.inr ⟨o, start, n, rfl, he⟩
      by_cases hevent : ∃ o e, a = .sys 1 o ∧ w.nextEvent 1 o = some e
      · obtain ⟨o, e, rfl, he⟩ := hevent
        obtain ⟨q', hq', hlog⟩ := step_logged hr.numbered hs hq₀ he
        obtain rfl := Option.some.inj (hq.symm.trans hq')
        rw [hlog, killerLeft_concat, leftAfter] at hleft
        cases hce : createsKiller e with
        | true => simp [hce] at hleft
        | false =>
            have hidle : w.idle = true := by
              simp only [hce, Bool.false_eq_true, if_false, Bool.and_eq_false_iff,
                Bool.not_eq_false'] at hleft
              rcases hleft with hleft | hsettles
              · exact ih hq₀ hleft
              · simp only [timely, he, Option.all_some, timelyEvent, hsettles, Bool.not_true,
                  Bool.false_or, Bool.and_eq_true] at hok
                exact hok.2
            rcases created hidle with hidle' | ⟨o', start, n, ha, he'⟩
            · exact hidle'
            · cases ha
              cases he.symm.trans he'
              cases hce
      · have hlog : q.loc.log = q₀.loc.log := by
          obtain ⟨q', hq', hlog | ⟨o, e, ha, he, -⟩⟩ := step_record hr.numbered hs hq₀
          · obtain rfl := Option.some.inj (hq.symm.trans hq')
            exact hlog
          · exact absurd ⟨o, e, ha, he⟩ hevent
        rcases created (ih hq₀ (hlog ▸ hleft)) with hidle' | ⟨o, start, n, ha, he⟩
        · exact hidle'
        · exact absurd ⟨o, _, ha, he⟩ hevent

/-- A judgement that has returned has gone one of the ways. -/
theorem judging_of_returned {ok : JWorld → Act judgerIface → Prop}
    (hx : x = yjudgerGeneral ∨ x = yjudgerInteractive)
    (hr : Reaches killers ok (World.init t (x m) pgid) w)
    {q : Proc judgerIface (Int × Mem)} {r : Int} {m' : Mem} (hq : w.procs 1 = some q)
    (hret : q.code = .ret (r, m')) : ∃ j hs, Judging j (.start t) m hs r q.loc.log m' := by
  have hrun : Code.Runs x (.start t) m r q.loc m' := by
    have hsteps := hr.positioned hq
    rw [hret] at hsteps
    exact hsteps
  have judged : ∀ j : Judger, Code.Runs j.code (.start t) m r q.loc m' →
      ∃ j hs, Judging j (.start t) m hs r q.loc.log m' := by
    intro j h
    obtain ⟨hs, es, hj, hlog⟩ := runs_judging h
    obtain rfl : q.loc.log = es := hlog
    exact ⟨j, hs, hj⟩
  rcases hx with rfl | rfl
  · exact judged .general hrun
  · exact judged .interactive hrun

/-- **The killer only ever shoots at its own living child, and is gone when the
judger returns**, in every run whose timing allows it. -/
theorem killer_safe {k : Nat} (hm : m.ctxt.hctxt = registerBuiltinHook^[k] hookCtxtCreate)
    (hx : x = yjudgerGeneral ∨ x = yjudgerInteractive)
    (hr : Reaches killers (fun w a => timely w a = true) (World.init t (x m) pgid) w) :
    KillerSafe w := by
  have hb : BuiltinHooks m.ctxt.hctxt := hm ▸ builtinHooks_iterate k
  constructor
  · have hinv : w.Numbered ∧ AllKillers w ∧ AimsAtLiving w := by
      refine hr.invariant (P := fun w => w.Numbered ∧ AllKillers w ∧ AimsAtLiving w) ?_ ?_
      · have hinit : Reaches killers Always (World.init t (x m) pgid)
            (World.init t (x m) pgid) := .refl
        refine ⟨hinit.numbered, ?_, ?_⟩
        · intro t th h
          exact absurd h (by simp [thread?_eq_some, World.init])
        · intro t th g q h
          exact absurd h (by simp [thread?_eq_some, World.init])
      · rintro w w' a ⟨hn, hk, ha⟩ hok hs
        exact ⟨numbered_step hn hs, allKillers_step hk hs, aimsAtLiving_step hn hk ha hok hs⟩
    exact @hinv.2.2
  · intro q a hq hc
    obtain ⟨r, m'⟩ := a
    have hnumbers : NumbersThreads q.loc.log := by
      intro start n he
      refine hr.events (P := fun e => ∀ start n, e = ⟨.pthreadCreate start, some n⟩ → n ≠ 0) ?_ hq
        _ he start n rfl
      rintro w o p c k r - - - - hreply start n heq
      cases heq
      rw [reply_create hreply]
      exact Nat.succ_ne_zero _
    obtain ⟨j, hs, hj⟩ := judging_of_returned hx hr hq hc
    exact idle_of_killerLeft hx hb hr hq (hj.settled hb (hm ▸ waitHooks_iterate k) hnumbers)

end

/-- A judgement with a time limit, up to the `waitpid`: the killer is asleep, and
the program has ended. -/
def napActs : List (Act judgerIface) :=
  launchActs ++ okActs 2 12 ++ okActs 1 1 ++ askActs 1 1 ++ okActs 1 1 ++ [.thr 1 .ok, .quit 2 0]

/-- The killer is cancelled in its sleep, and has ended by the time it is joined. -/
theorem killer_safe_cancelled : ∃ w, hasReturned w = true ∧ w.threads ≠ [] ∧ KillerSafe w := by
  have hrun : ((World.init (.inheritedBelow 4) (yjudgerGeneral timedMem) 1).runIf killers
      timely (napActs ++ okActs 1 1 ++ askActs 1 2 ++ okActs 1 1 ++ [.thr 1 .ok, .sys 1 .fail])).any
        (fun w => hasReturned w && !w.threads.isEmpty) = true := by decide +kernel
  obtain ⟨w, hr, hw⟩ := reaches_of_anyIf hrun
  rw [Bool.and_eq_true] at hw
  refine ⟨w, hw.1, fun hnil => ?_, killer_safe (k := 0) rfl (Or.inl rfl) hr⟩
  rw [hnil] at hw
  cases hw.2

/-- Is thread 1 about to shoot at process 2, which has been waited for? -/
def aimsAtGone (w : JWorld) : Bool :=
  (w.thread? 1).any fun th => !th.done && aim th.code == some 2 &&
    (w.procs 2).any fun q => q.mode.gone

/-- The program ends just before the killer wakes up; it is cancelled too late. -/
theorem killer_safe_overtaken : ∃ w,
    Reaches killers Always (World.init (.inheritedBelow 4) (yjudgerGeneral timedMem) 1) w ∧
      ¬ AimsAtLiving w ∧ ¬ NoneLeft w := by
  have hrun : ((World.init (.inheritedBelow 4) (yjudgerGeneral timedMem) 1).run killers
      (napActs ++ [.thr 1 .ok] ++ okActs 1 1 ++ askActs 1 2 ++ okActs 1 1 ++ [.sys 1 .fail])).any
        (fun w => hasReturned w && aimsAtGone w) = true := by decide +kernel
  obtain ⟨w, hr, hw⟩ := reaches_of_any hrun
  rw [Bool.and_eq_true] at hw
  obtain ⟨th, hth, hcheck⟩ := (Option.any_eq_true _ _).mp hw.2
  simp only [Bool.and_eq_true, Bool.not_eq_true', beq_iff_eq] at hcheck
  obtain ⟨⟨hd, ha⟩, hgone⟩ := hcheck
  refine ⟨w, hr, fun h => ?_, fun h => ?_⟩
  · obtain ⟨q, hq, hg⟩ := (Option.any_eq_true _ _).mp hgone
    rw [h hth hd ha hq] at hg
    cases hg
  · obtain ⟨q, a, hq, hc⟩ := returned_of_check hw.1
    rw [idle_iff.mp (h hq hc) 1 th hth] at hd
    cases hd

end YaojJudger
