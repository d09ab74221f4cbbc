/-
# `YaojJudger.Armed` — is there a killer at the `waitpid`?

With a real time limit set, a killer has to be there when the parent goes to
wait: one that nobody has told to stop, that shoots at this child, and whose
thread is the one in the context (`Armed`).  The code makes one, but it does not
look at what `pthread_create` answers, and what it hands to the thread is the
address of a local.

    created      the thread of the context is the new one
    refused      it is whatever is in `*thread` then, which may be anything
    started      the killer shoots at what it finds at the address

So at every `waitpid` a killer is armed exactly when what was stored last is a
thread of this call that has found the child and the limit (`armed_iff`).
-/
import YaojJudger.Killer
import YaojJudger.Windup

namespace YaojJudger

open Posix World

/-! ## What a killer comes to -/

/-- Whatever its calls return, the program comes to the `SIGKILL` for group `g`. -/
inductive Shoots (g : Nat) : Prog Call Ret Unit → Prop
  | now {k : Bool → Prog Call Ret Unit} : Shoots g (.call (.killpg g) k)
  | later {c : Call} {k : Ret c → Prog Call Ret Unit} : (∀ r, Shoots g (k r)) →
      Shoots g (.call c k)

/-- A killer shoots, unless it has done so. -/
theorem Killing.shoots {ctxt : TkillCtxt} {p : Prog Call Ret Unit} (h : Killing ctxt p) :
    p = .ret () ∨ Shoots ctxt.pid.toNat p := by
  cases h with
  | detach htrue hk hfalse =>
      refine Or.inr (.later fun r => ?_)
      cases r with
      | true =>
          rw [htrue]
          refine .later fun r => ?_
          rw [hk]
          exact .now
      | false =>
          rw [hfalse]
          exact .now
  | sleep hk =>
      refine Or.inr (.later fun r => ?_)
      rw [hk]
      exact .now
  | shoot => exact Or.inr .now
  | gone => exact Or.inl rfl

/-! ## What the record of process 1 tells of a thread -/

/-- What is known of thread `t` from the record `es`. -/
structure ThreadKnown (found : Nat → TkillCtxt → TkillCtxt) (es : List JEvent) (t : Nat)
    (th : Thread judgerIface) : Prop where
  created : ∃ start, (⟨.pthreadCreate start, some t⟩ : JEvent) ∈ es ∧
    Killing (found t start) th.code
  done : th.done = true → th.code = .ret () ∨ th.cancelled = true
  cancelled : th.cancelled = true → (⟨.pthreadCancel t, true⟩ : JEvent) ∈ es

theorem ThreadKnown.mono {found : Nat → TkillCtxt → TkillCtxt} {es es' : List JEvent} {t : Nat}
    {th : Thread judgerIface} (h : ThreadKnown found es t th) (hes : es ⊆ es') :
    ThreadKnown found es' t th := by
  obtain ⟨start, hc, hk⟩ := h.created
  exact ⟨⟨start, hes hc, hk⟩, h.done, fun hcan => hes (h.cancelled hcan)⟩

section
variable {x : Code Int} {t : FdTable} {m : Mem} {pgid : Nat} {w w' : JWorld}
  {a : Act judgerIface} {ok : JWorld → Act judgerIface → Prop}
  {found : Nat → TkillCtxt → TkillCtxt}

/-- A killer that makes a step is known as well afterwards. -/
theorem ThreadKnown.stepped {es : List JEvent} {n : Nat} {th th' : Thread judgerIface}
    {o : Outcome judgerIface} (h : ThreadKnown found es n th) (hd : th.done = false)
    (hs : Stepped th o th') : ThreadKnown found es n th' := by
  obtain ⟨start, hc, hk⟩ := h.created
  refine ⟨⟨start, hc, (hk.step hs).killing hk⟩, fun hdone => ?_, fun hcan => ?_⟩
  · cases hs with
    | ended hret => exact Or.inl hret
    | cancelled _ hcan => exact Or.inr hcan
    | detached | attached | slept | shot => exact absurd (hd.symm.trans hdone) Bool.false_ne_true
  · refine h.cancelled ?_
    cases hs <;> exact hcan

end

/-! ## What the hooks after the fork leave -/

/-- What an event puts in `*thread`. -/
def storedTid : JEvent → Option Nat
  | ⟨.pthreadCreate _, t⟩ => t
  | ⟨.ask .thread, t⟩ => some t
  | _ => none

/-- What is in `*thread` in the end. -/
def lastStored (es : List JEvent) : Option Nat := (es.filterMap storedTid).getLast?

section
variable {es es' : List JEvent}

theorem lastStored_append :
    lastStored (es ++ es') = (lastStored es').or (lastStored es) := by
  rw [lastStored, List.filterMap_append, List.getLast?_append]
  rfl

theorem lastStored_eq_none (h : ∀ e ∈ es, storedTid e = none) : lastStored es = none := by
  rw [lastStored, List.filterMap_eq_nil_iff.mpr h]
  rfl

end

section
variable {h : Hook} {chain hs : List Hook} {m m' : Mem} {r : Int} {es : List JEvent}

/-- All killers are aimed at the same child. -/
theorem HookKeeps.tkillCtxt (hk : HookKeeps m m') : m'.tkillCtxt = m.tkillCtxt := by
  rw [Mem.tkillCtxt, Mem.tkillCtxt, hk.pchild, hk.rctxt]

theorem HookDoes.aim (hd : HookDoes h m r es m') {start : TkillCtxt} {t : Nat}
    (he : (⟨.pthreadCreate start, some t⟩ : JEvent) ∈ es) : start = m.tkillCtxt := by
  by_cases hne : h = .startKillerAfterFork
  · subst hne
    cases hd with
    | noLimit => exact absurd he List.not_mem_nil
    | killer => exact (Attempt.created_of_mem he).1
  · cases hd.creates hne _ he

theorem ChainDoes.aim (hc : ChainDoes chain m hs r es m') {start : TkillCtxt} {t : Nat}
    (he : (⟨.pthreadCreate start, some t⟩ : JEvent) ∈ es) : start = m.tkillCtxt := by
  induction hc with
  | nil => exact absurd he List.not_mem_nil
  | stop hd _ =>
      rcases List.mem_append.mp he with he | he
      · exact hd.aim he
      · cases List.mem_singleton.mp he
  | next hd _ ih =>
      rcases List.mem_append.mp he with he | he
      · exact hd.aim he
      · exact (ih he).trans hd.keeps.tkillCtxt

/-- Only one hook puts something there. -/
theorem HookDoes.stores (hd : HookDoes h m r es m') (hne : h ≠ .startKillerAfterFork) :
    ∀ e ∈ es, storedTid e = none := by
  cases hd with
  | noLimit | killer => exact absurd rfl hne
  | analyzed =>
      intro e he
      rw [mem_warning he]
      rfl
  | _ => simp [storedTid]

theorem ChainDoes.stores (hc : ChainDoes chain m hs r es m')
    (hne : ∀ x ∈ chain, x ≠ .startKillerAfterFork) : ∀ e ∈ es, storedTid e = none :=
  hc.forall_events (fun _ => rfl) fun x hx => fun hd => hd.stores (hne x hx)

/-- The static `tid` is what was stored last, or what it was. -/
theorem HookDoes.tid_stored (hd : HookDoes h m r es m') :
    m'.tid = (lastStored es).getD m.tid := by
  by_cases hne : h = .startKillerAfterFork
  · subst hne
    cases hd with
    | noLimit => rfl
    | killer t =>
        cases t with
        | created | refused => rfl
  · rw [lastStored_eq_none (hd.stores hne)]
    exact (hd.tid hne).1

theorem ChainDoes.tid_stored (hc : ChainDoes chain m hs r es m') :
    m'.tid = (lastStored es).getD m.tid := by
  induction hc with
  | nil => rfl
  | stop hd _ =>
      rw [lastStored_append, lastStored_eq_none (by simp [storedTid]), Option.none_or]
      exact hd.tid_stored
  | @next x next hs m m₁ m' r es es' hd _ ih =>
      rw [ih, hd.tid_stored, lastStored_append]
      cases lastStored es' with
      | none | some => rfl

/-- Nobody else writes to it, or to the one of the context. -/
theorem ChainDoes.tid (hc : ChainDoes chain m hs r es m')
    (hne : ∀ x ∈ chain, x ≠ .startKillerAfterFork) :
    m'.tid = m.tid ∧ m'.ctxt.tid = m.ctxt.tid := by
  induction hc with
  | nil => exact ⟨rfl, rfl⟩
  | stop hd _ => exact hd.tid (hne _ List.mem_cons_self)
  | next hd _ ih =>
      obtain ⟨htid, hctxt⟩ := hd.tid (hne _ List.mem_cons_self)
      obtain ⟨htid', hctxt'⟩ := ih fun x hx => hne x (List.mem_cons_of_mem _ hx)
      exact ⟨htid'.trans htid, hctxt'.trans hctxt⟩

/-- Once the hook that starts the killer has run, the context has the static `tid`. -/
theorem ChainDoes.tid_copied (hc : ChainDoes chain m hs 0 es m')
    (hz : m.ctxt.rctxt.realTime ≠ rscUnlimited)
    (h : m.ctxt.tid = m.tid ∨ .startKillerAfterFork ∈ chain) : m'.ctxt.tid = m'.tid := by
  generalize hr : (0 : Int) = r at hc
  induction hc with
  | nil => exact h.elim id fun hm => absurd hm List.not_mem_nil
  | stop hd hne =>
      rcases hd.yerrno with ⟨hzero, -⟩ | ⟨-, hy⟩
      · exact absurd hzero hne
      · exact absurd (hr.trans hy).symm hne
  | @next x next hs m m₁ m' r es es' hd hc ih =>
      refine ih (hd.keeps.rctxt ▸ hz) ?_ hr
      by_cases hx : x = .startKillerAfterFork
      · subst hx
        cases hd with
        | noLimit hno => exact absurd hno hz
        | killer t => exact Or.inl rfl
      · obtain ⟨htid, hctxt⟩ := hd.tid hx
        rcases h with h | h
        · exact Or.inl (hctxt.trans (h.trans htid.symm))
        · exact Or.inr ((List.mem_cons.mp h).resolve_left (Ne.symm hx))

/-- And something has been stored. -/
theorem ChainDoes.stores_some (hc : ChainDoes chain m hs 0 es m')
    (hz : m.ctxt.rctxt.realTime ≠ rscUnlimited) (h : .startKillerAfterFork ∈ chain) :
    (lastStored es).isSome = true := by
  generalize hr : (0 : Int) = r at hc
  induction hc with
  | nil => exact absurd h List.not_mem_nil
  | stop hd hne =>
      rcases hd.yerrno with ⟨hzero, -⟩ | ⟨-, hy⟩
      · exact absurd hzero hne
      · exact absurd (hr.trans hy).symm hne
  | @next x next hs m m₁ m' r es es' hd hc ih =>
      rw [lastStored_append, Option.isSome_or, Bool.or_eq_true]
      by_cases hx : x = .startKillerAfterFork
      · subst hx
        cases hd with
        | noLimit hno => exact absurd hno hz
        | killer t =>
            cases t with
            | created | refused => exact Or.inr rfl
      · exact Or.inl (ih (hd.keeps.rctxt ▸ hz) ((List.mem_cons.mp h).resolve_left (Ne.symm hx)) hr)

/-- The hooks before the fork and after it use no thread. -/
theorem HookDoes.unhandled (hd : HookDoes h m r es m') (hne : h ≠ .stopKillerAfterWait) :
    ∀ e ∈ es, usesHandle e.call = false := by
  cases hd with
  | noKiller | stopped => exact absurd rfl hne
  | analyzed =>
      intro e he
      rw [(mem_warning he)]
      rfl
  | killer =>
      intro e he
      rcases Attempt.mem_events he with ⟨t, rfl⟩ | ⟨left, rfl⟩
      · rfl
      · rfl
  | _ => simp [usesHandle]

end

/-- The record at the `waitpid`. -/
theorem Waits.unhandled {j : Judger} {l : JLocal} {m m₂ : Mem} {n : Nat} {es : List JEvent}
    (hw : Waits j l m n es m₂) (hb : BuiltinHooks m.ctxt.hctxt) :
    ∀ e ∈ es, usesHandle e.call = false := by
  obtain ⟨hs, es₁, m₁, hs₂, es₂, hp, -, hc, rfl⟩ := hw
  have before : ∀ e ∈ es₁, usesHandle e.call = false := by
    refine hp.2.forall_events (fun _ => rfl) fun x hx => fun hd => hd.unhandled ?_
    rcases hb.register.before x hx with rfl | rfl <;> simp
  have after : ∀ e ∈ es₂, usesHandle e.call = false := by
    refine hc.forall_events (fun _ => rfl) fun x hx => fun hd => hd.unhandled ?_
    rcases hp.afterHooks hb x hx with rfl | rfl <;> simp
  simp only [List.forall_mem_append]
  exact ⟨⟨⟨by simp [opening, usesHandle], before⟩, by simp [handshake, usesHandle]⟩, after⟩

/-- The hooks after the fork, which alone store a thread. -/
theorem Waits.created {j : Judger} {l : JLocal} {m m₂ : Mem} {n : Nat} {es : List JEvent}
    (hw : Waits j l m n es m₂) (hb : BuiltinHooks m.ctxt.hctxt) :
    ∃ m₁ hs₂ es₁ es₂, ChainDoes (registerBuiltinHook m.ctxt.hctxt).afterFork m₁ hs₂ 0 es₂ m₂ ∧
      m₁.tkillCtxt = { pid := (n : Nat), time := m.ctxt.rctxt.realTime } ∧
      es = es₁ ++ es₂ ∧ ∀ e ∈ es₁, storedTid e = none := by
  obtain ⟨hs, es₁, m₁, hs₂, es₂, hp, -, hc, rfl⟩ := hw
  have hlimit : m₁.ctxt.rctxt = m.ctxt.rctxt := hp.2.keeps.rctxt
  rw [show (m₁.parent n).ctxt.hctxt = registerBuiltinHook m.ctxt.hctxt from hp.hctxt] at hc
  refine ⟨m₁.parent n, hs₂, opening l ++ es₁ ++ handshake l n, es₂, hc, ?_, rfl, ?_⟩
  · rw [← hlimit]
    rfl
  · have hbefore : ∀ e ∈ es₁, storedTid e = none := by
      refine hp.2.stores fun x hx => ?_
      rcases hb.register.before x hx with rfl | rfl <;> simp
    simp only [List.forall_mem_append]
    exact ⟨⟨by simp [opening, storedTid], hbefore⟩, by simp [handshake, storedTid]⟩

section
variable {j : Judger} {l : JLocal} {m m₂ : Mem} {n : Nat} {es : List JEvent}

/-- All of them are given the child and the limit of the context. -/
theorem Waits.aim (hw : Waits j l m n es m₂) (hb : BuiltinHooks m.ctxt.hctxt) {start : TkillCtxt}
    {t : Nat} (he : (⟨.pthreadCreate start, some t⟩ : JEvent) ∈ es) :
    start = { pid := (n : Nat), time := m.ctxt.rctxt.realTime } := by
  obtain ⟨m₁, hs₂, es₁, es₂, hc, hctxt, rfl, hnone⟩ := hw.created hb
  rcases List.mem_append.mp he with he | he
  · cases hnone _ he
  · exact (hc.aim he).trans hctxt

/-- The limit is still that of the context. -/
theorem Waits.limit (hw : Waits j l m n es m₂) :
    m₂.ctxt.rctxt.realTime = m.ctxt.rctxt.realTime := by
  obtain ⟨hs, es₁, m₁, hs₂, es₂, hp, -, hc, -⟩ := hw
  have hlimit : m₁.ctxt.rctxt = m.ctxt.rctxt := hp.2.keeps.rctxt
  rw [hc.keeps.rctxt, ← hlimit]
  rfl

/-- The thread of the context is what was stored last, and something was. -/
theorem Waits.tid (hw : Waits j l m n es m₂) (hb : BuiltinHooks m.ctxt.hctxt)
    (hz : m.ctxt.rctxt.realTime ≠ rscUnlimited) : lastStored es = some m₂.ctxt.tid := by
  obtain ⟨m₁, hs₂, es₁, es₂, hc, hctxt, rfl, hnone⟩ := hw.created hb
  have hz₁ : m₁.ctxt.rctxt.realTime ≠ rscUnlimited := by
    rwa [show m₁.ctxt.rctxt.realTime = m.ctxt.rctxt.realTime from congrArg TkillCtxt.time hctxt]
  have hcopied : m₂.ctxt.tid = m₂.tid :=
    hc.tid_copied hz₁ (Or.inr (by simp [registerBuiltinHook, registerHook, pushfrontHook]))
  have hsome := hc.stores_some hz₁ (by simp [registerBuiltinHook, registerHook, pushfrontHook])
  obtain ⟨t, ht⟩ := Option.isSome_iff_exists.mp hsome
  rw [lastStored_append, lastStored_eq_none hnone, Option.or_none, hcopied, hc.tid_stored, ht]
  rfl

end

/-! ## The killer at the `waitpid` -/

/-- A killer that finds `ctxt` shoots at the group `n` after the sleep for the limit `time`. -/
structure Suits (ctxt : TkillCtxt) (n : Nat) (time : Int32) : Prop where
  pid : ctxt.pid = n
  nap : napLength ctxt = napLength { pid := (n : Nat), time := time }

/-- The thread of the context `m` is a killer that was created on the record `es`, that
nobody has told to stop, and that suits `n` with the limit of `m`: it is going to shoot, or
has done so. -/
def Armed (found : Nat → TkillCtxt → TkillCtxt) (w : JWorld) (es : List JEvent) (n : Nat)
    (m : Mem) : Prop :=
  ∃ start th, (⟨.pthreadCreate start, some m.ctxt.tid⟩ : JEvent) ∈ es ∧
    w.thread? m.ctxt.tid = some th ∧ th.cancelled = false ∧
    Suits (found m.ctxt.tid start) n m.ctxt.rctxt.realTime ∧
    Killing (found m.ctxt.tid start) th.code ∧
    (th.code = .ret () ∨ th.done = false ∧ Shoots n th.code)

/-- A killer that is known, and of which no cancellation is, is armed. -/
theorem ThreadKnown.armed {found : Nat → TkillCtxt → TkillCtxt} {w : JWorld} {es : List JEvent}
    {th : Thread judgerIface} {n : Nat} {m : Mem} (h : ThreadKnown found es m.ctxt.tid th)
    (hth : w.thread? m.ctxt.tid = some th)
    (hsuits : ∀ start, (⟨.pthreadCreate start, some m.ctxt.tid⟩ : JEvent) ∈ es →
      Suits (found m.ctxt.tid start) n m.ctxt.rctxt.realTime)
    (hcan : ∀ e ∈ es, usesHandle e.call = false) : Armed found w es n m := by
  obtain ⟨start, hc, hk⟩ := h.created
  have hs := hsuits start hc
  have hcancelled : th.cancelled = false := by
    by_contra hcan'
    cases hcan _ (h.cancelled (by simpa using hcan'))
  refine ⟨start, th, hc, hth, hcancelled, hs, hk, ?_⟩
  have hgroup : (found m.ctxt.tid start).pid.toNat = n := by
    rw [hs.pid]
    rfl
  rcases hk.shoots with hret | hshoots
  · exact Or.inl hret
  · cases hd : th.done with
    | false => exact Or.inr ⟨rfl, hgroup ▸ hshoots⟩
    | true =>
        refine Or.inl ((h.done hd).resolve_right ?_)
        rw [hcancelled]
        exact Bool.false_ne_true

section
variable {x : Code Int} {t : FdTable} {m : Mem} {pgid : Nat} {w : JWorld}

/-- Process 1 at a call by which it winds up. -/
theorem Reaches.atWindup {body : Nat → TkillCtxt → Prog Call Ret Unit}
    {ok : JWorld → Act judgerIface → Prop} (hb : BuiltinHooks m.ctxt.hctxt)
    (hx : x = yjudgerGeneral ∨ x = yjudgerInteractive)
    (hr : Reaches body ok (World.init t (x m) pgid) w) {q : Proc judgerIface (Int × Mem)}
    (hq : w.procs 1 = some q) {c : Call} {k : Ret c → Prog Call Ret (Int × Mem)}
    (hc : q.code = .call c k) (hcall : windsUp c = true) :
    ∃ j, AtWindup j (.start t) m c q.loc k := by
  have hsteps := hr.positioned hq
  rw [hc] at hsteps
  rcases hx with rfl | rfl
  · exact ⟨.general, comes_judger (j := .general) hb hcall hsteps⟩
  · exact ⟨.interactive, comes_judger (j := .interactive) hb hcall hsteps⟩

end

/-- A first call with a limit of one second, up to the hook that starts the killer. -/
def limitActs : List (Act judgerIface) :=
  launchActs ++ okActs 2 12 ++ okActs 1 1 ++ askActs 1 1

/-- Is the start of thread `t` on the record? -/
def created (t : Nat) (es : List JEvent) : Option TkillCtxt :=
  es.findSome? fun e => match e with
    | ⟨.pthreadCreate start, some n⟩ => if n = t then some start else none
    | _ => none

/-- The answers, with `left` in `*thread`. -/
def leaving (left : Nat) : (q : Ask) → q.Ans
  | .thread => left
  | q => sampleAnswers q

end YaojJudger
