/-
# `YaojJudger.Windup` — where a judgement is when it waits and stops its killer

`Judging` tells a call of a judger from its end.  Here it is told from the
calls by which it is wound up: the `waitpid` for the child, and what is given
the thread, `pthread_cancel` and `pthread_join`.  `WindingUp j l m es m' c` says
that `c` can be next, with the events `es` on the record and `m'` in memory; at
the `waitpid` all that is left is `awaitChild`.

    opening   hooks before   handshake   hooks after   waitpid
                                                       hooks after the wait
                                                         cancel   join
-/
import YaojJudger.Children
import YaojJudger.Rejudge

namespace YaojJudger

open Posix

/-- The calls by which the parent winds up. -/
def windsUp : Call → Bool
  | .waitpid _ _ | .pthreadCancel _ | .pthreadJoin _ => true
  | _ => false

theorem not_windsUp_child {c : Call} (hc : windsUp c = true) : ¬ ChildCall c := by
  intro h
  cases c with
  | waitpid => cases h.clock
  | pthreadCancel | pthreadJoin => cases h.unhandled
  | _ => cases hc

/-! ## In a hook -/

/-- The events of a hook before it makes the call `c` with a thread. -/
inductive Stopping (m : Mem) : List JEvent → Call → Prop
  | cancel : m.ctxt.rctxt.realTime ≠ rscUnlimited → m.ctxt.tid ≠ 0 →
      Stopping m [] (.pthreadCancel m.ctxt.tid)
  | join (cancelled : Bool) : m.ctxt.rctxt.realTime ≠ rscUnlimited → m.ctxt.tid ≠ 0 →
      Stopping m [⟨.pthreadCancel m.ctxt.tid, cancelled⟩] (.pthreadJoin m.ctxt.tid)

section
variable {l l' : JLocal} {m : Mem} {c : Call} {k : Ret c → Prog Call Ret (Int × Mem)}

theorem comes_stopKiller (h : Code.Comes stopKillerAfterWait l m c l' k) :
    ∃ es, Stopping m es c ∧ l'.log = l.log ++ es := by
  rcases Code.comes_ite h.of_get_bind with ⟨-, h⟩ | ⟨hz, h⟩
  · exact absurd h (Code.not_comes_pure _)
  rcases Code.comes_ite h with ⟨ht, h⟩ | ⟨-, h⟩
  · rcases h.of_bind with ⟨k', h, -⟩ | ⟨_, _, _, -, h⟩
    · rcases h.of_call_bind with ⟨rfl, heq⟩ | ⟨b, -, h⟩
      · cases heq
        exact ⟨[], .cancel hz ht, (List.append_nil _).symm⟩
      · rcases h.of_call_bind with ⟨rfl, heq⟩ | ⟨_, -, h⟩
        · cases heq
          exact ⟨_, .join b hz ht, Local.after_log _ _ _⟩
        · exact absurd h (Code.not_comes_pure _)
    · exact absurd h (Code.not_comes_pure _)
  · exact absurd h (Code.not_comes_pure _)

/-- Only one hook makes such calls. -/
theorem comes_hookFn {x : Hook} (hc : windsUp c = true) (h : Code.Comes (hookFn x) l m c l' k) :
    x = .stopKillerAfterWait ∧ ∃ es, Stopping m es c ∧ l'.log = l.log ++ es := by
  by_cases hx : x = .stopKillerAfterWait
  · subst hx
    exact ⟨rfl, comes_stopKiller h⟩
  · refine absurd h (Code.Within.not_comes (only_hookFn x).within fun hcall => hx ?_)
    cases c with
    | waitpid | pthreadCancel | pthreadJoin => cases x <;> trivial
    | _ => cases hc

theorem not_comes_yreturn {errnum : Int} (hc : windsUp c = true) :
    ¬ Code.Comes (yreturn errnum) l m c l' k := by
  have honly : Code.Only (fun c => windsUp c = false) (yreturn errnum) := only_yreturn rfl
  exact honly.within.not_comes (by simp [hc])

theorem not_comes_yreturnYerrno (hc : windsUp c = true) :
    ¬ Code.Comes yreturnYerrno l m c l' k :=
  fun h => not_comes_yreturn hc h.of_get_bind

/-- In a chain: the hooks `before` have returned 0, and `x` makes the call. -/
theorem comes_chain (hc : windsUp c = true) : ∀ {chain : List Hook} {l m},
    Code.Comes (runHookChain hookFn chain) l m c l' k →
      ∃ before after es m₁ es', chain = before ++ .stopKillerAfterWait :: after ∧
        ChainDoes before m before 0 es m₁ ∧ Stopping m₁ es' c ∧ l'.log = l.log ++ (es ++ es') := by
  intro chain
  induction chain with
  | nil => exact fun h => absurd h (Code.not_comes_pure _)
  | cons x next ih =>
      intro l m h
      rcases h.of_bind with ⟨k', hx, -⟩ | ⟨r, l₁, m₁, hx, h⟩
      · obtain ⟨rfl, es, hs, hlog⟩ := comes_hookFn hc hx
        exact ⟨[], next, [], m, es, rfl, .nil, hs, hlog⟩
      · obtain ⟨es, hd, hlog⟩ := runs_hookFn hx
        rcases Code.comes_ite h with ⟨-, h⟩ | ⟨hr, h⟩
        · exact absurd h (not_comes_yreturnYerrno hc)
        · obtain rfl := not_not.mp hr
          obtain ⟨before, after, es₁, m₂, es₂, rfl, hb, hs, hlog'⟩ := ih h
          exact ⟨x :: before, after, es ++ es₁, m₂, es₂, rfl, .next hd hb, hs,
            by rw [hlog', hlog, List.append_assoc, List.append_assoc]⟩

end

/-! ## In a judgement -/

/-- `waitpid` for the child `n`, and what follows it. -/
def awaitChild (n : Nat) : Code Int := do
  let status ← Code.call (.waitpid n true)
  afterWaitpid (n : Nat) status

/-- The parent of `n` has run its hooks after the fork, with the events `es` and
the memory `m₂`. -/
def Waits (j : Judger) (l : JLocal) (m : Mem) (n : Nat) (es : List JEvent) (m₂ : Mem) : Prop :=
  ∃ hs es₁ m₁ hs₂ es₂, Prepares j l m hs es₁ m₁ ∧ l.pid < n ∧
    ChainDoes (m₁.parent n).ctxt.hctxt.afterFork (m₁.parent n) hs₂ 0 es₂ m₂ ∧
    es = opening l ++ es₁ ++ handshake l n ++ es₂

/-- The call `c` by which it winds up, and what comes before it. -/
inductive WindingUp (j : Judger) (l : JLocal) (m : Mem) : List JEvent → Mem → Call → Prop
  | waiting {n : Nat} {es : List JEvent} {m₂ : Mem} : Waits j l m n es m₂ →
      WindingUp j l m es m₂ (.waitpid n true)
  | stopping {n status : Nat} {es es₃ es₄ : List JEvent} {m₂ m₃ : Mem} {before after : List Hook}
      {c : Call} : Waits j l m n es m₂ →
      (m₂.waited status).ctxt.hctxt.afterWait = before ++ .stopKillerAfterWait :: after →
      ChainDoes before (m₂.waited status) before 0 es₃ m₃ → Stopping m₃ es₄ c →
      WindingUp j l m (es ++ [⟨.waitpid n true, some status⟩] ++ es₃ ++ es₄) m₃ c

/-- Process `l'` is about to make the call `c`, and goes on with `k`. -/
def AtWindup (j : Judger) (l₀ : JLocal) (m₀ : Mem) (c : Call) (l' : JLocal)
    (k : Ret c → Prog Call Ret (Int × Mem)) : Prop :=
  ∃ es m', WindingUp j l₀ m₀ es m' c ∧ l'.log = l₀.log ++ es ∧
    ∀ n u, c = .waitpid n u → Prog.call c k = awaitChild n m'

section
variable {l l' : JLocal} {m : Mem} {c : Call} {k : Ret c → Prog Call Ret (Int × Mem)}

theorem comes_waitSignal {p : Nat × Nat} {k : Ret c → Prog Call Ret (Int × Mem)}
    (hc : windsUp c = true) : ¬ Code.Comes (waitSignal p) l m c l' k := by
  intro h
  rcases h.of_call_bind with ⟨-, heq⟩ | ⟨v, -, h⟩
  · cases heq
    cases hc
  · cases v with
    | none => exact Code.not_comes_pure _ h
    | some v => exact Code.not_comes_pure _ h

/-- What follows the fork in the parent, put behind the events `es`. -/
theorem comes_judgerParent {j : Judger} {l₀ : JLocal} {m₀ m₁ : Mem} {hs : List Hook}
    {es : List JEvent} {n : Nat} (hb : BuiltinHooks m₀.ctxt.hctxt) (hc : windsUp c = true)
    (hp : Prepares j l₀ m₀ hs es m₁)
    (hn : l₀.pid < n) (hlog : l.log = l₀.log ++ (opening l₀ ++ es) ++ [⟨.fork, .parent n⟩])
    (h : Code.Comes (judgerParent l₀.pipeEnds (n : Nat)) l m₁ c l' k) :
    AtWindup j l₀ m₀ c l' k := by
  rcases h.of_modify_bind.of_bind with ⟨k', h, -⟩ | ⟨a, l₂, m₂, hread, h⟩
  · exact absurd h (comes_waitSignal hc)
  obtain ⟨v, rfl, rfl, rfl⟩ := runs_waitSignal hread
  rcases Code.comes_ite h with ⟨-, h⟩ | ⟨hv, h⟩
  · exact absurd h (not_comes_yreturn hc)
  obtain rfl : v = some ready := by
    cases v with
    | none => exact absurd (not_not.mp hv) (by decide)
    | some v => exact congrArg some (not_not.mp hv)
  rcases h.of_get_bind.of_bind with ⟨k', h, -⟩ | ⟨r₂, l₃, m₃, hrun, h⟩
  · -- the hook that stops the killer does not run before the wait
    obtain ⟨before, after, -, -, -, hchain, -⟩ := comes_chain hc h
    have hmem : Hook.stopKillerAfterWait ∈ (m₁.parent n).ctxt.hctxt.afterFork := by
      rw [show (m₁.parent n).ctxt.hctxt.afterFork = _ from hchain]
      simp
    rcases hp.afterHooks hb _ hmem with hx | hx <;> cases hx
  obtain ⟨hs₂, es₂, hc₂, hlog₂⟩ := runs_chain hrun
  rcases Code.comes_ite h with ⟨-, h⟩ | ⟨hr, h⟩
  · exact absurd h (not_comes_yreturnYerrno hc)
  obtain rfl := not_not.mp hr
  have hwaits : Waits j l₀ m₀ n (opening l₀ ++ es ++ handshake l₀ n ++ es₂) m₃ :=
    ⟨hs, es, m₁, hs₂, es₂, hp, hn, hc₂, rfl⟩
  have hlog₃ : l₃.log = l₀.log ++ (opening l₀ ++ es ++ handshake l₀ n ++ es₂) := by
    simp [hlog₂, hlog, handshake]
  rcases h.of_call_bind with ⟨rfl, heq⟩ | ⟨status, -, h⟩
  · cases heq
    refine ⟨_, m₃, .waiting hwaits, hlog₃, fun n' u hn' => ?_⟩
    cases hn'
    rfl
  · cases status with
    | none =>
        rcases h.of_call_bind with ⟨-, heq⟩ | ⟨b, -, h⟩
        · cases heq
          cases hc
        · exact absurd h (not_comes_yreturn hc)
    | some status =>
        rcases h.of_modify_bind.of_get_bind.of_bind with ⟨k', h, -⟩ | ⟨r₃, l₄, m₄, hrun₃, h⟩
        · obtain ⟨before, after, es₃, m₃', es₄, hchain, hb, hs, hlog₄⟩ := comes_chain hc h
          refine ⟨_, m₃', .stopping hwaits hchain hb hs, ?_, fun n' u hn' => ?_⟩
          · simp [hlog₄, hlog₃]
          · subst hn'
            cases hs
        · rcases Code.comes_ite h with ⟨-, h⟩ | ⟨-, h⟩
          · exact absurd h (not_comes_yreturnYerrno hc)
          · exact absurd h (Code.not_comes_pure _)

theorem comes_fork (hc : windsUp c = true) : ¬ Code.Comes fork l m c l' k := by
  intro h
  rcases h.of_call_bind with ⟨-, heq⟩ | ⟨r, -, h⟩
  · cases heq
    cases hc
  · cases r with
    | failed | parent | child => exact Code.not_comes_pure _ h

/-- From the hooks before the fork on. -/
theorem comes_prepared {j : Judger} {l₀ : JLocal} {m₀ : Mem} {child : Code Int}
    (hb : BuiltinHooks m₀.ctxt.hctxt) (hc : windsUp c = true) (hj : j.Accepts m₀)
    (hchild : Code.Within ChildCall child) (hlog : l.log = l₀.log ++ opening l₀)
    (hpid : l.pid = l₀.pid)
    (h : Code.Comes (do
        if (← beforeFork) ≠ 0 then yreturnYerrno
        else
          let childPid ← fork
          if childPid < 0 then yreturn eFork
          else if childPid = 0 then child
          else judgerParent l₀.pipeEnds childPid) l (m₀.begun l₀.pid) c l' k) :
    AtWindup j l₀ m₀ c l' k := by
  rcases h.of_bind with ⟨k', h, -⟩ | ⟨r₁, l₁, m₁, hrun, h⟩
  · obtain ⟨before, after, -, -, -, hchain, -⟩ := comes_chain hc h.of_modify_bind.of_get_bind
    have hmem : Hook.stopKillerAfterWait ∈ (registerBuiltinHook m₀.ctxt.hctxt).beforeFork := by
      rw [show (registerBuiltinHook m₀.ctxt.hctxt).beforeFork = _ from hchain]
      simp
    rcases hb.register.before _ hmem with hx | hx <;> cases hx
  replace hrun := (Code.runs_modify_bind _ _ _).mp hrun
  rw [Code.runs_get_bind] at hrun
  obtain ⟨hs, es, hdo, hlog₁⟩ := runs_chain hrun
  rcases Code.comes_ite h with ⟨-, h⟩ | ⟨hr, h⟩
  · exact absurd h (not_comes_yreturnYerrno hc)
  obtain rfl := not_not.mp hr
  have hpid₁ : l₁.pid = l₀.pid := (runs_chain_keeps hrun).pid.trans hpid
  rcases h.of_bind with ⟨k', h, -⟩ | ⟨f, l₂, m₂, hfork, h⟩
  · exact absurd h (comes_fork hc)
  obtain ⟨rfl, hf⟩ := runs_fork hfork
  rcases hf with ⟨rfl, rfl⟩ | ⟨n, hn, rfl, rfl⟩ | rfl
  · exact absurd h (not_comes_yreturn hc)
  · rw [hpid₁] at hn
    have hpos : ¬ ((n : Int) < 0) := by omega
    have hne : ¬ ((n : Int) = 0) := by omega
    rw [if_neg hpos, if_neg hne] at h
    exact comes_judgerParent hb hc ⟨hj, hdo⟩ hn (by simp [hlog₁, hlog]) h
  · exact absurd h (hchild.not_comes (not_windsUp_child hc))

/-- Up to the pipe. -/
theorem comes_opening {x : Nat × Nat → Code Int} (hc : windsUp c = true) (h : Code.Comes (do
      judgerStart
      match ← signalPipe with
      | none => yreturn ePipe
      | some pRun => x pRun) l m c l' k) :
    ∃ l₁ : JLocal, Code.Comes (x l.pipeEnds) l₁ (m.begun l.pid) c l' k ∧
      l₁.log = l.log ++ opening l ∧ l₁.pid = l.pid := by
  rcases h.of_bind with ⟨k', h, -⟩ | ⟨_, l₁, m₁, hstart, h⟩
  · rcases h.of_call_bind with ⟨-, heq⟩ | ⟨pid, -, h⟩
    · cases heq
      cases hc
    · cases Prog.not_steps_ret h
  obtain ⟨pid, hpid, hstart⟩ := (Code.runs_call_bind _ _ _).mp hstart
  obtain rfl : pid = l.pid := hpid
  obtain ⟨rfl, rfl⟩ := (runs_modifyCtxt _ _).mp hstart
  rcases h.of_call_bind with ⟨-, heq⟩ | ⟨ends, hends, h⟩
  · cases heq
    cases hc
  cases ends with
  | none => exact absurd h (not_comes_yreturn hc)
  | some ends =>
      have hp := piped_after hends
      obtain rfl : ends = l.pipeEnds := hends
      exact ⟨_, h, by simp [opening], hp.pid⟩

/-- **Where a judger may come to a call by which it winds up.** -/
theorem comes_judger {j : Judger} (hb : BuiltinHooks m.ctxt.hctxt) (hc : windsUp c = true)
    (h : Code.Comes j.code l m c l' k) : AtWindup j l m c l' k := by
  cases j with
  | general =>
      obtain ⟨l₁, h, hlog, hpid⟩ := comes_opening hc h
      exact comes_prepared hb hc (fun hj => by cases hj) (within_generalChild _) hlog hpid h
  | interactive =>
      obtain ⟨l₁, h, hlog, hpid⟩ := comes_opening hc h
      rcases Code.comes_ite h.of_get_bind with ⟨-, h⟩ | ⟨hargc, h⟩
      · exact absurd h (not_comes_yreturn hc)
      · exact comes_prepared hb hc (fun _ => not_not.mp hargc) (within_childProcess _) hlog hpid h

end

end YaojJudger
