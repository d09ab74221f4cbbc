/-
# `YaojJudger.Rejudge` — judging one context again and again

A judger registers its hooks at every call and nobody takes them off again, so
after `k` calls that came that far each chain holds them `k` times:

    before_fork     compile_policy, init_result, …
    after_fork      timer, start_killer, …
    after_wait      timer, get_usage, stop_killer, analyze, …

and the next call runs through them `k + 1` times.  Two things follow.  A hook
is invoked once in a call only if the chains were empty before it
(`once_each_iff`).  And the result is preset to `SE` by the second hook of the
first chain, so a call that fails before it leaves the code it found, and one
that fails to get the usage a second time the code it has just computed
(`failed_is_se_iff`).
-/
import YaojJudger.FirstCall

namespace YaojJudger

open Posix

/-! ## The calls on one context -/

/-- A call of a judger: it returns `r`, having put `es` on the record. -/
def Called (j : Judger) (m : Mem) (r : Int) (es : List JEvent) (m' : Mem) : Prop :=
  ∃ l, Code.Records j.code l m r es m'

/-- The memories a context goes through.  Between two calls its owner may set
what he likes; the chains are left alone. -/
inductive Rejudged (m₀ : Mem) : Mem → Prop
  | fresh : Rejudged m₀ m₀
  | set {m m' : Mem} : Rejudged m₀ m → m'.ctxt.hctxt = m.ctxt.hctxt → Rejudged m₀ m'
  | call {j : Judger} {m m' : Mem} {r : Int} {es : List JEvent} : Rejudged m₀ m →
      Called j m r es m' → Rejudged m₀ m'

section
variable {j : Judger} {l : JLocal} {m m' : Mem} {hs : List Hook} {r : Int} {es : List JEvent}

/-- A call leaves the chains as it found them, or with its hooks in front. -/
theorem Judging.hctxt (h : Judging j l m hs r es m') :
    m'.ctxt.hctxt = m.ctxt.hctxt ∨ m'.ctxt.hctxt = registerBuiltinHook m.ctxt.hctxt := by
  cases h with
  | noPipe | badArgc => exact Or.inl rfl
  | unprepared _ hc _ => exact Or.inr hc.keeps.hctxt
  | noFork hp => exact Or.inr hp.2.keeps.hctxt
  | notReady hp => exact Or.inr hp.2.keeps.hctxt
  | unstarted hp _ hc _ => exact Or.inr (hc.keeps.hctxt.trans hp.2.keeps.hctxt)
  | noWait _ hp _ hc => exact Or.inr (hc.keeps.hctxt.trans hp.2.keeps.hctxt)
  | unread hp _ hc hc₃ _ =>
      exact Or.inr (hc₃.keeps.hctxt.trans (hc.keeps.hctxt.trans hp.2.keeps.hctxt))
  | judged hp _ hc hc₃ =>
      exact Or.inr (hc₃.keeps.hctxt.trans (hc.keeps.hctxt.trans hp.2.keeps.hctxt))

theorem Called.judging (h : Called j m r es m') : ∃ l hs, Judging j l m hs r es m' := by
  obtain ⟨l, l', hrun, hlog⟩ := h
  obtain ⟨hs, es', hj, hlog'⟩ := runs_judging hrun
  obtain rfl : es = es' := List.append_cancel_left (hlog.symm.trans hlog')
  exact ⟨l, hs, hj⟩

/-- The chains hold so many registrations. -/
theorem Rejudged.registered {m₀ : Mem} (h0 : m₀.ctxt.hctxt = hookCtxtCreate)
    (h : Rejudged m₀ m) : ∃ k, m.ctxt.hctxt = registerBuiltinHook^[k] hookCtxtCreate := by
  induction h with
  | fresh => exact ⟨0, h0⟩
  | set _ hset ih =>
      obtain ⟨k, hk⟩ := ih
      exact ⟨k, hset.trans hk⟩
  | call _ hcall ih =>
      obtain ⟨k, hk⟩ := ih
      obtain ⟨l, hs, hj⟩ := hcall.judging
      rcases hj.hctxt with heq | heq
      · exact ⟨k, heq.trans hk⟩
      · exact ⟨k + 1, by rw [heq, hk, Function.iterate_succ_apply']⟩

end

/-! ## What a failed call leaves in the code -/

/-- The policy compiler has delivered a filter. -/
def Delivered (es : List JEvent) : Prop :=
  ∃ content dirname prog, (⟨.ask (.kafelCompile content dirname), some prog⟩ : JEvent) ∈ es

/-- The usage was got once and could not be got again. -/
def Lost (es : List JEvent) : Prop :=
  (∃ ru, (⟨.ask .getrusage, some ru⟩ : JEvent) ∈ es) ∧ (⟨.ask .getrusage, none⟩ : JEvent) ∈ es

theorem waitHooks_register {hctxt : HookCtxt Hook} (hw : ∀ h ∈ hctxt.afterWait, h ∈ waitHooks) :
    ∀ h ∈ (registerBuiltinHook hctxt).afterWait, h ∈ waitHooks := by
  intro h hm
  rcases List.mem_append.mp (show h ∈ waitHooks ++ _ from hm) with hm | hm
  · exact hm
  · exact hw h hm

theorem waitHooks_iterate (k : Nat) :
    ∀ h ∈ (registerBuiltinHook^[k] hookCtxtCreate).afterWait, h ∈ waitHooks := by
  induction k with
  | zero => exact fun h hm => absurd hm List.not_mem_nil
  | succ k ih =>
      rw [Function.iterate_succ_apply']
      exact waitHooks_register ih

section
variable {chain hs : List Hook} {m m' : Mem} {r : Int} {es : List JEvent}

/-- A hook before the fork keeps the code or presets it. -/
theorem before_code (h : ChainDoes chain m hs r es m')
    (hb : ∀ h ∈ chain, h = .initResultBeforeFork ∨ h = .compilePolicyBeforeFork) :
    m'.ctxt.result.code = m.ctxt.result.code ∨ m'.ctxt.result.code = .se := by
  have hook : ∀ {h : Hook} {m m' : Mem} {r : Int} {es : List JEvent}, HookDoes h m r es m' →
      h = .initResultBeforeFork ∨ h = .compilePolicyBeforeFork →
      m'.ctxt.result.code = m.ctxt.result.code ∨ m'.ctxt.result.code = .se := by
    rintro h m m' r es hd (rfl | rfl)
    · cases hd <;> exact Or.inr rfl
    · cases hd <;> exact Or.inl rfl
  induction h with
  | nil => exact Or.inl rfl
  | stop hd _ => exact hook hd (hb _ List.mem_cons_self)
  | next hd _ ih =>
      rcases ih fun h hm => hb h (List.mem_cons_of_mem _ hm) with heq | heq
      · rw [heq]
        exact hook hd (hb _ List.mem_cons_self)
      · exact Or.inr heq

/-- The code after the hooks before the fork: preset once a filter has been
delivered, and untouched without one. -/
theorem prepared_code
    (h : ChainDoes (.compilePolicyBeforeFork :: .initResultBeforeFork :: chain) m hs r es m')
    (hb : ∀ h ∈ chain, h = .initResultBeforeFork ∨ h = .compilePolicyBeforeFork) :
    (Delivered es ∧ m'.ctxt.result.code = .se) ∨
      (¬ Delivered es ∧ r ≠ 0 ∧ m'.ctxt.result.code = m.ctxt.result.code) := by
  cases h with
  | stop hd hr =>
      refine Or.inr ?_
      cases hd with
      | badIdent => exact ⟨by simp [Delivered], (by decide : ePolIdt ≠ 0), rfl⟩
      | notCompiled => exact ⟨by simp [Delivered], (by decide : eKafel ≠ 0), rfl⟩
      | compiled => exact absurd rfl hr
  | next hd hc =>
      refine Or.inl ?_
      cases hd with
      | compiled prog hcontent hout =>
          refine ⟨⟨_, _, prog,
            List.mem_append_left _ (List.mem_cons_of_mem _ List.mem_cons_self)⟩, ?_⟩
          cases hc with
          | stop hd _ => cases hd <;> rfl
          | next hd hc =>
              cases hd with
              | preset => exact (before_code hc hb).elim id id

/-- A hook after the fork leaves the result alone. -/
theorem started_code (h : ChainDoes chain m hs r es m')
    (hb : ∀ h ∈ chain, h = .startKillerAfterFork ∨ h = .timerAfterFork) :
    m'.ctxt.result.code = m.ctxt.result.code := by
  have hook : ∀ {h : Hook} {m m' : Mem} {r : Int} {es : List JEvent}, HookDoes h m r es m' →
      h = .startKillerAfterFork ∨ h = .timerAfterFork →
      m'.ctxt.result.code = m.ctxt.result.code := by
    rintro h m m' r es hd (rfl | rfl) <;> cases hd <;> rfl
  induction h with
  | nil => rfl
  | stop hd _ => exact hook hd (hb _ List.mem_cons_self)
  | next hd _ ih =>
      exact (ih fun h hm => hb h (List.mem_cons_of_mem _ hm)).trans
        (hook hd (hb _ List.mem_cons_self))

/-- Nor does it fail. -/
theorem started_succeeds (h : ChainDoes chain m hs r es m')
    (hb : ∀ h ∈ chain, h = .startKillerAfterFork ∨ h = .timerAfterFork) : r = 0 := by
  induction h with
  | nil => rfl
  | stop hd hne =>
      rcases hb _ List.mem_cons_self with rfl | rfl <;> cases hd <;> exact absurd rfl hne
  | next _ _ ih => exact ih fun h hm => hb h (List.mem_cons_of_mem _ hm)

/-- Only `getrusage` can fail after the wait. -/
theorem wait_failed (h : ChainDoes chain m hs r es m') (hb : ∀ h ∈ chain, h ∈ waitHooks)
    (hr : r ≠ 0) : (⟨.ask .getrusage, none⟩ : JEvent) ∈ es := by
  induction h with
  | nil => exact absurd rfl hr
  | stop hd hne =>
      cases hd with
      | noUsage => simp
      | badIdent | notCompiled | presetFcntl =>
          exact absurd (hb _ List.mem_cons_self) (by decide)
      | _ => exact absurd rfl hne
  | next _ _ ih =>
      exact List.mem_append_right _ (ih (fun h hm => hb h (List.mem_cons_of_mem _ hm)) hr)

/-- The code after a failure to get the usage, unless it had been got before. -/
theorem unread_code (h : ChainDoes (.timerAfterWait :: .getUsageAfterWait :: chain) m hs r es m')
    (hb : ∀ h ∈ chain, h ∈ waitHooks) (hr : r ≠ 0) (hl : ¬ Lost es) :
    m'.ctxt.result.code = m.ctxt.result.code := by
  cases h with
  | stop hd hne =>
      cases hd with
      | ended => exact absurd rfl hne
  | next hd hc =>
      cases hd with
      | ended now =>
          cases hc with
          | stop hd hne =>
              cases hd with
              | noUsage => rfl
              | used => exact absurd rfl hne
          | next hd hc =>
              cases hd with
              | used ru =>
                  refine absurd ⟨⟨ru, by simp⟩, ?_⟩ hl
                  simp [wait_failed hc hb hr]

end

@[simp] theorem not_delivered_said (errnum : Int) : ¬ Delivered [said errnum] := by
  simp [Delivered]

@[simp] theorem not_delivered_opening (l : JLocal) : ¬ Delivered (opening l) := by
  simp [Delivered, opening]

@[simp] theorem delivered_append (es es' : List JEvent) :
    Delivered (es ++ es') ↔ Delivered es ∨ Delivered es' := by
  simp only [Delivered, List.mem_append, exists_or]

theorem Lost.mono {es es' : List JEvent} (hsub : es ⊆ es') (h : Lost es) : Lost es' := by
  obtain ⟨⟨ru, hru⟩, hn⟩ := h
  exact ⟨⟨ru, hsub hru⟩, hsub hn⟩

section
variable {j : Judger} {l : JLocal} {m m' : Mem} {hs : List Hook} {r : Int} {es : List JEvent}

theorem Prepares.hctxt {m₁ : Mem} (hp : Prepares j l m hs es m₁) :
    m₁.ctxt.hctxt = registerBuiltinHook m.ctxt.hctxt :=
  hp.2.keeps.hctxt

/-- The hooks before the fork, in a call that gets past them. -/
theorem Prepares.code {m₁ : Mem} (hp : Prepares j l m hs es m₁)
    (hb : BuiltinHooks m.ctxt.hctxt) : Delivered es ∧ m₁.ctxt.result.code = .se := by
  rcases prepared_code hp.2 hb.before with h | ⟨-, hr, -⟩
  · exact h
  · exact absurd rfl hr

theorem Prepares.afterHooks {m₁ : Mem} {n : Nat} (hp : Prepares j l m hs es m₁)
    (hb : BuiltinHooks m.ctxt.hctxt) : ∀ h ∈ (m₁.parent n).ctxt.hctxt.afterFork,
      h = .startKillerAfterFork ∨ h = .timerAfterFork := by
  rw [show (m₁.parent n).ctxt.hctxt = registerBuiltinHook m.ctxt.hctxt from hp.hctxt]
  exact hb.register.after

/-- The hooks after the fork change nothing in that. -/
theorem Prepares.started_code {m₁ m₂ : Mem} {n : Nat} {hs₂ : List Hook} {es₂ : List JEvent}
    (hp : Prepares j l m hs es m₁) (hb : BuiltinHooks m.ctxt.hctxt)
    (hc : ChainDoes (m₁.parent n).ctxt.hctxt.afterFork (m₁.parent n) hs₂ r es₂ m₂) :
    Delivered es ∧ m₂.ctxt.result.code = .se := by
  obtain ⟨hd, hse⟩ := hp.code hb
  exact ⟨hd, (YaojJudger.started_code hc (hp.afterHooks hb)).trans hse⟩

/-- A failed call, from any memory. -/
theorem Judging.failed_code (h : Judging j l m hs r es m') (hb : BuiltinHooks m.ctxt.hctxt)
    (hw : ∀ h ∈ m.ctxt.hctxt.afterWait, h ∈ waitHooks) (hr : r ≠ 0) (hl : ¬ Lost es) :
    (Delivered es ∧ m'.ctxt.result.code = .se) ∨
      (¬ Delivered es ∧ m'.ctxt.result.code = m.ctxt.result.code) := by
  cases h with
  | noPipe => exact Or.inr ⟨by simp [Delivered], rfl⟩
  | badArgc => exact Or.inr ⟨by simp, rfl⟩
  | unprepared _ hc _ =>
      rcases prepared_code hc hb.before with ⟨hd, hse⟩ | ⟨hd, -, heq⟩
      · exact Or.inl ⟨by simp [hd], hse⟩
      · exact Or.inr ⟨by simp [hd], heq⟩
  | noFork hp =>
      obtain ⟨hd, hse⟩ := hp.code hb
      exact Or.inl ⟨by simp [hd], hse⟩
  | notReady hp =>
      obtain ⟨hd, hse⟩ := hp.code hb
      exact Or.inl ⟨by simp [hd], hse⟩
  | unstarted hp _ hc _ =>
      obtain ⟨hd, hse⟩ := hp.started_code hb hc
      exact Or.inl ⟨by simp [hd], hse⟩
  | noWait _ hp _ hc =>
      obtain ⟨hd, hse⟩ := hp.started_code hb hc
      exact Or.inl ⟨by simp [hd], hse⟩
  | @unread hs hs₂ hs₃ es es₂ es₃ m₁ m₂ m₃ n status r₃ hp _ hc hc₃ hne =>
      obtain ⟨hd, hse⟩ := hp.started_code hb hc
      refine Or.inl ⟨by simp [hd], ?_⟩
      rw [show (m₂.waited status).ctxt.hctxt = registerBuiltinHook m.ctxt.hctxt from
        hc.keeps.hctxt.trans hp.hctxt] at hc₃
      have hold : ∀ h ∈ .stopKillerAfterWait :: .analyzeAfterWait :: m.ctxt.hctxt.afterWait,
          h ∈ waitHooks := by
        simpa [waitHooks] using hw
      refine (unread_code hc₃ hold hne fun h => hl (h.mono ?_)).trans hse
      intro e he
      simp [he]
  | judged => exact absurd rfl hr

end

/-- **A call that failed** shows `SE` if and only if the policy compiler had
delivered, or the code was `SE` all along; provided the usage was not lost. -/
theorem failed_is_se_iff {j : Judger} {m₀ m m' : Mem} {r : Int} {es : List JEvent}
    (h0 : m₀.ctxt.hctxt = hookCtxtCreate) (hm : Rejudged m₀ m) (hcall : Called j m r es m')
    (hr : r ≠ 0) (hl : ¬ Lost es) :
    m'.ctxt.result.code = .se ↔ Delivered es ∨ m.ctxt.result.code = .se := by
  obtain ⟨k, hk⟩ := hm.registered h0
  obtain ⟨l, hs, hj⟩ := hcall.judging
  have hb : BuiltinHooks m.ctxt.hctxt := hk ▸ builtinHooks_iterate k
  have hw : ∀ h ∈ m.ctxt.hctxt.afterWait, h ∈ waitHooks := hk ▸ waitHooks_iterate k
  rcases hj.failed_code hb hw hr hl with ⟨hd, hse⟩ | ⟨hd, heq⟩
  · exact iff_of_true hse (Or.inl hd)
  · rw [heq]
    exact ⟨Or.inr, fun h => h.resolve_left hd⟩

/-- Without a pipe, the code of a fresh context stays what it was. -/
theorem failed_is_se_noPipe :
    ((sampleMem.begun 1).failed ePipe).ctxt.result.code = .se ↔
      Delivered [⟨.getpid, (1 : Nat)⟩, ⟨.pipe, none⟩, said ePipe] ∨
        sampleMem.ctxt.result.code = .se :=
  failed_is_se_iff rfl .fresh ⟨.start (.inheritedBelow 4), records_noPipe .general _ sampleMem⟩
    (by decide) (by simp [Lost])

/-- What it was may be `OK`. -/
theorem failed_shows_ok :
    Called .general sampleMem ePipe [⟨.getpid, (1 : Nat)⟩, ⟨.pipe, none⟩, said ePipe]
        ((sampleMem.begun 1).failed ePipe) ∧
      ePipe ≠ 0 ∧ ((sampleMem.begun 1).failed ePipe).ctxt.result.code = .ok :=
  ⟨⟨.start (.inheritedBelow 4), records_noPipe .general _ sampleMem⟩, by decide, rfl⟩

/-! ## A second call -/

section
variable {m : Mem}

/-- The hooks after the fork start two killers. -/
theorem second_after (hz : m.ctxt.rctxt.realTime ≠ rscUnlimited) (t₁ t₂ : Nat) :
    ∃ m', ChainDoes (registerBuiltinHook (registerBuiltinHook hookCtxtCreate)).afterFork m
        (registerBuiltinHook (registerBuiltinHook hookCtxtCreate)).afterFork 0
        [⟨.ask .gettimeofday, ⟨0, 0⟩⟩, ⟨.pthreadCreate m.tkillCtxt, some t₁⟩,
          ⟨.ask .gettimeofday, ⟨0, 0⟩⟩, ⟨.pthreadCreate m.tkillCtxt, some t₂⟩] m' ∧
      m'.ctxt.tid = t₂ := by
  have h := ChainDoes.next (.started (m := m) ⟨0, 0⟩) (.next (.killer (.created t₁) hz)
    (.next (.started ⟨0, 0⟩) (.next (.killer (.created t₂) hz) .nil)))
  exact ⟨_, h, rfl⟩

theorem analyzed_tid (ctxt : YjudgerCtxt) : (analyzed ctxt).tid = ctxt.tid := by
  simp only [analyzed]
  split
  · rfl
  · split <;> rfl

/-- The hooks after the wait stop one of them twice. -/
theorem second_wait (hstatus : m.ctxt.status = 0) :
    ∃ es m', ChainDoes (registerBuiltinHook (registerBuiltinHook hookCtxtCreate)).afterWait m
        (registerBuiltinHook (registerBuiltinHook hookCtxtCreate)).afterWait 0 es m' ∧
      ∀ t b, (⟨.pthreadCancel t, b⟩ : JEvent) ∈ es → t = m.ctxt.tid := by
  have hwarn : warning m.ctxt.status = [] := by
    rw [hstatus]
    rfl
  obtain ⟨m₁, hfirst, htid⟩ : ∃ m₁, ChainDoes waitHooks m waitHooks 0
      ([⟨.ask .gettimeofday, ⟨0, 0⟩⟩, ⟨.ask .getrusage, some noRusage⟩] ++
        stopEvents m true true ++ warning m.ctxt.status) m₁ ∧ m₁.ctxt.tid = m.ctxt.tid :=
    ⟨_, wait_succeeds ⟨0, 0⟩ noRusage true true, analyzed_tid _⟩
  have hsecond := wait_succeeds (m := m₁) ⟨0, 0⟩ noRusage true true
  refine ⟨_, _, hfirst.then hsecond, fun t b hmem => ?_⟩
  rw [hfirst.keeps.status, hwarn] at hmem
  have hmem' : (⟨.pthreadCancel t, b⟩ : JEvent) ∈ stopEvents m true true ∨
      (⟨.pthreadCancel t, b⟩ : JEvent) ∈ stopEvents m₁ true true := by
    simpa using hmem
  rcases hmem' with hmem | hmem
  · rcases mem_stopEvents hmem with h | h
    · exact Sys.pthreadCancel.inj (Event.mk.inj h).1
    · cases h
  · rcases mem_stopEvents hmem with h | h
    · exact (Sys.pthreadCancel.inj (Event.mk.inj h).1).trans htid
    · cases h

/-- A second call can compile the policy twice, and start two killers of which
only the second is stopped. -/
theorem second_call {l : JLocal} (hm : m.ctxt.hctxt = registerBuiltinHook hookCtxtCreate)
    (hcontent : m.ctxt.pctxt.content = some [])
    (hout : ∀ numStr, policyIdentifierHandler [] m.ctxt.ectxt.argv numStr = .done [] [])
    (hz : m.ctxt.rctxt.realTime ≠ rscUnlimited) {n : Nat} (hn : l.pid < n) {t₁ t₂ : Nat}
    (hne : t₁ ≠ t₂) :
    ∃ hs es m', Judging .general l m hs 0 es m' ∧ hs.count .compilePolicyBeforeFork = 2 ∧
      (∃ start, (⟨.pthreadCreate start, some t₁⟩ : JEvent) ∈ es) ∧
      ∀ b, (⟨.pthreadCancel t₁, b⟩ : JEvent) ∉ es := by
  have hreg : registerBuiltinHook m.ctxt.hctxt =
      registerBuiltinHook (registerBuiltinHook hookCtxtCreate) := congrArg registerBuiltinHook hm
  have hb := ((before_succeeds (m := hooked (m.begun l.pid)) [] hcontent
    (hout (Vector.replicate 10 0))).then (before_succeeds [] hcontent
      (hout (Vector.replicate 10 0)))).of_eq (congrArg HookCtxt.beforeFork hreg)
  generalize hm₁ : (((hooked (m.begun l.pid)).compiled []).preset.compiled []).preset = m₁ at hb
  have hk := hb.keeps
  obtain ⟨m₂, hc, htid⟩ := second_after (m := m₁.parent n) (hk.rctxt ▸ hz) t₁ t₂
  have hc := hc.of_eq (congrArg HookCtxt.afterFork (hk.hctxt.trans hreg))
  have hkc := hc.keeps
  obtain ⟨es₃, m₃, hc₃, hstop⟩ := second_wait (m := m₂.waited 0) rfl
  have hc₃ : ChainDoes (m₂.waited 0).ctxt.hctxt.afterWait (m₂.waited 0) _ 0 es₃ m₃ :=
    hc₃.of_eq (congrArg HookCtxt.afterWait (hkc.hctxt.trans (hk.hctxt.trans hreg)))
  have hj : Judging .general l m _ 0 _ m₃ := .judged ⟨fun h => (by cases h), hb⟩ hn hc hc₃
  refine ⟨_, _, _, hj, rfl, ⟨(m₁.parent n).tkillCtxt, by simp⟩, fun b hmem => ?_⟩
  have hmem' : (⟨.pthreadCancel t₁, b⟩ : JEvent) ∈ es₃ := by
    simpa [opening, handshake] using hmem
  exact hne ((hstop _ _ hmem').trans htid)

end

/-- A context with a real time limit of one second. -/
def timedMem : Mem :=
  { sampleMem with
    ctxt := { sampleMem.ctxt with rctxt := { sampleMem.ctxt.rctxt with realTime := 1000 } } }

/-- A first call that starts thread 1. -/
def firstCourse : Course where
  numStr := Vector.replicate 10 0
  escContent := []
  prog := []
  child := 2
  start := ⟨0, 0⟩
  attempt := .created 1
  status := 0
  finish := ⟨0, 0⟩
  usage := noRusage
  cancelled := true
  joined := false

theorem firstCourse_judging : Judging .general (.start (.inheritedBelow 4)) timedMem firstHooks 0
    (firstCourse.events (.start (.inheritedBelow 4)) timedMem)
    (firstCourse.judged (.start (.inheritedBelow 4)) timedMem) :=
  Course.Possible.judging
    ⟨fun h => (by cases h), rfl, ⟨[], [], rfl, handler_empty _ _⟩, by decide⟩

/-! ## Each hook once -/

/-- Is this a compilation of the policy? -/
def isCompile : JEvent → Bool
  | ⟨.ask (.kafelCompile _ _), _⟩ => true
  | _ => false

/-- Is this the start of a killer thread? -/
def isCreate : JEvent → Bool
  | ⟨.pthreadCreate _, _⟩ => true
  | _ => false

/-- Every builtin hook is invoked once; the policy is compiled once, at most one
killer is started, and it is the one that is cancelled.  (No thread has number 0.) -/
structure OnceEach (hs : List Hook) (es : List JEvent) : Prop where
  hook : ∀ h, hs.count h = 1
  compile : es.countP isCompile = 1
  create : es.countP isCreate ≤ 1
  cancelled : ∀ start t, (⟨.pthreadCreate start, some t⟩ : JEvent) ∈ es → t ≠ 0 →
    (∃ b, (⟨.pthreadCancel t, b⟩ : JEvent) ∈ es) ∧
      ∀ t' b, (⟨.pthreadCancel t', b⟩ : JEvent) ∈ es → t' = t

/-- Did a call fail on which the judger gives up? -/
def gaveUp : JEvent → Bool
  | ⟨.pipe, r⟩ => r.isNone
  | ⟨.fork, r⟩ => r == .failed
  | ⟨.read _, r⟩ => r != some ready
  | ⟨.waitpid _ _, r⟩ => r.isNone
  | ⟨.setCloexec _, r⟩ => !r
  | ⟨.ask (.kafelCompile _ _), r⟩ => r.isNone
  | ⟨.ask .getrusage, r⟩ => r.isNone
  | _ => false

/-- Nothing stands in the way of a call. -/
structure Unhindered (j : Judger) (m : Mem) (es : List JEvent) : Prop where
  accepts : j.Accepts m
  delivered : Delivered es
  calls : ∀ e ∈ es, gaveUp e = false

section
variable {j : Judger} {l : JLocal} {m m' : Mem} {hs : List Hook} {r : Int} {es : List JEvent}

/-- The hooks of a call: some of those before the fork, or all of those and some
others. -/
theorem Judging.hooks (h : Judging j l m hs r es m') :
    hs <+: (registerBuiltinHook m.ctxt.hctxt).beforeFork ∨
      ∃ hs', hs = (registerBuiltinHook m.ctxt.hctxt).beforeFork ++ hs' := by
  have hall : ∀ {hs : List Hook} {es : List JEvent} {m₁ : Mem}, Prepares j l m hs es m₁ →
      hs = (registerBuiltinHook m.ctxt.hctxt).beforeFork := fun hp => hp.2.all.2
  cases h with
  | noPipe | badArgc => exact Or.inl List.nil_prefix
  | unprepared _ hc _ => exact Or.inl hc.invoked
  | noFork hp => exact Or.inl (hall hp ▸ List.prefix_refl _)
  | notReady hp => exact Or.inl (hall hp ▸ List.prefix_refl _)
  | @unstarted hs hs₂ es es₂ m₁ m₂ n r₂ hp => exact Or.inr ⟨hs₂, by rw [hall hp]⟩
  | @noWait hs hs₂ es es₂ m₁ m₂ n b hp => exact Or.inr ⟨hs₂, by rw [hall hp]⟩
  | @unread hs hs₂ hs₃ es es₂ es₃ m₁ m₂ m₃ n status r₃ hp =>
      exact Or.inr ⟨hs₂ ++ hs₃, by rw [hall hp, List.append_assoc]⟩
  | @judged hs hs₂ hs₃ es es₂ es₃ m₁ m₂ m₃ n status hp =>
      exact Or.inr ⟨hs₂ ++ hs₃, by rw [hall hp, List.append_assoc]⟩

/-- A call that stops before the fork has not started the clock. -/
theorem not_onceEach_initial (hb : BuiltinHooks m.ctxt.hctxt)
    (hpre : hs <+: (registerBuiltinHook m.ctxt.hctxt).beforeFork) : ¬ OnceEach hs es := by
  intro ho
  have hmem : Hook.timerAfterFork ∈ hs := List.count_pos_iff.mp (by rw [ho.hook]; omega)
  rcases hb.register.before _ (hpre.subset hmem) with h | h <;> cases h

/-- A second registration makes the hooks before the fork run twice. -/
theorem not_onceEach_register (h : Judging j l m hs r es m') (hb : BuiltinHooks m.ctxt.hctxt)
    {hctxt : HookCtxt Hook} (hm : m.ctxt.hctxt = registerBuiltinHook hctxt) :
    ¬ OnceEach hs es := by
  rcases h.hooks with hpre | ⟨hs', rfl⟩
  · exact not_onceEach_initial hb hpre
  · intro ho
    have hone := ho.hook .compilePolicyBeforeFork
    have hchain : (registerBuiltinHook m.ctxt.hctxt).beforeFork =
        [.compilePolicyBeforeFork, .initResultBeforeFork, .compilePolicyBeforeFork,
          .initResultBeforeFork] ++ hctxt.beforeFork := by
      rw [hm]
      rfl
    rw [hchain, List.append_assoc, List.count_append] at hone
    have htwo : List.count Hook.compilePolicyBeforeFork [.compilePolicyBeforeFork,
      .initResultBeforeFork, .compilePolicyBeforeFork, .initResultBeforeFork] = 2 := by decide
    omega

/-- What happens when the first hooks before the fork fail. -/
theorem first_unprepared
    (h : ChainDoes [.compilePolicyBeforeFork, .initResultBeforeFork] m hs r es m') (hr : r ≠ 0)
    (hd : Delivered es) : ∃ e ∈ es, gaveUp e = true := by
  cases h with
  | stop hdoes hne =>
      cases hdoes with
      | badIdent => exact absurd hd (by simp [Delivered])
      | notCompiled => exact absurd hd (by simp [Delivered])
      | compiled => exact absurd rfl hne
  | next hdoes hc =>
      cases hc with
      | stop hdoes hne =>
          cases hdoes with
          | preset => exact absurd rfl hne
          | presetFcntl =>
              exact ⟨_, List.mem_append_right _ List.mem_cons_self, rfl⟩
      | next _ hc =>
          cases hc with
          | nil => exact absurd rfl hr

/-- What happens when the first hooks after the wait fail. -/
theorem first_unread (h : ChainDoes waitHooks m hs r es m') (hr : r ≠ 0) :
    Hook.analyzeAfterWait ∉ hs ∧ ∃ e ∈ es, gaveUp e = true := by
  refine ⟨?_, ⟨.ask .getrusage, none⟩, wait_failed h (fun h hm => hm) hr, rfl⟩
  cases h with
  | stop hd hne =>
      cases hd with
      | ended => exact absurd rfl hne
  | next _ h =>
      cases h with
      | stop _ _ => decide
      | next _ h =>
          cases h with
          | stop hd hne => cases hd <;> exact absurd rfl hne
          | next _ h =>
              cases h with
              | stop hd hne =>
                  cases hd with
                  | analyzed => exact absurd rfl hne
              | next _ h =>
                  cases h with
                  | nil => exact absurd rfl hr

/-- Counting events, where the stop of a killer and a warning do not count. -/
theorem Course.countP_events (p : JEvent → Bool)
    (hstop : ∀ t b, p ⟨.pthreadCancel t, b⟩ = false ∧ p ⟨.pthreadJoin t, b⟩ = false)
    (hsaid : ∀ errnum, p (said errnum) = false) (a : Course) (l : JLocal) (m : Mem) :
    (a.events l m).countP p =
      (a.calls l m).countP p + (killerEvents (a.forked l m) a.attempt).countP p := by
  have hs : (stopEvents (a.waited l m) a.cancelled a.joined).countP p = 0 := by
    rw [stopEvents]
    split
    · rfl
    · simp [hstop]
  have hw : (warning a.status).countP p = 0 := by
    rw [warning]
    split
    · simp [hsaid]
    · rfl
  simp only [Course.events, Course.calls, List.countP_append, List.countP_cons, List.countP_nil,
    hs, hw]
  omega

theorem countP_killerEvents (p : JEvent → Bool) (m : Mem) (t : Attempt)
    (hcreate : ∀ r, p ⟨.pthreadCreate m.tkillCtxt, r⟩ = false)
    (hleft : ∀ left, p ⟨.ask .thread, left⟩ = false) : (killerEvents m t).countP p = 0 := by
  rw [killerEvents]
  split
  · rfl
  · rw [List.countP_eq_zero]
    intro e he
    rcases Attempt.mem_events he with ⟨r, rfl⟩ | ⟨left, rfl⟩
    · simp [hcreate]
    · simp [hleft]

theorem Course.onceEach (a : Course) (l : JLocal) (m : Mem) :
    OnceEach firstHooks (a.events l m) := by
  constructor
  case hook => intro h; cases h <;> decide
  case compile =>
      rw [a.countP_events isCompile (fun _ _ => ⟨rfl, rfl⟩) (fun _ => rfl),
        countP_killerEvents isCompile _ _ (fun _ => rfl) fun _ => rfl]
      rfl
  case create =>
      rw [a.countP_events isCreate (fun _ _ => ⟨rfl, rfl⟩) (fun _ => rfl)]
      have hcalls : (a.calls l m).countP isCreate = 0 := rfl
      have hkill : (killerEvents (a.forked l m) a.attempt).countP isCreate ≤ 1 := by
        rw [killerEvents]
        split
        · exact Nat.zero_le 1
        · cases a.attempt with
          | created | refused => exact Nat.le_refl 1
      omega
  case cancelled =>
      intro start t he ht
      have hstop := Course.stopped he ht
      refine ⟨⟨a.cancelled, ?_⟩, fun t' b hc => ?_⟩
      · simp [Course.events, hstop]
      · rcases Course.mem_pieces hc (by simp [Course.calls, opening, handshake]) with hc | hc | hc
        · exact absurd (Attempt.mem_events (mem_killerEvents hc).2) (by simp)
        · rw [hstop] at hc
          simp only [List.mem_cons, List.not_mem_nil, or_false] at hc
          rcases hc with hc | hc
          · exact Sys.pthreadCancel.inj (Event.mk.inj hc).1
          · cases hc
        · exact absurd (mem_warning hc) (by simp)

theorem Course.delivered (a : Course) (l : JLocal) (m : Mem) : Delivered (a.events l m) :=
  ⟨a.escContent, m.ctxt.pctxt.dirname, a.prog, by simp [Course.events]⟩

theorem Course.not_gaveUp (a : Course) (l : JLocal) (m : Mem) :
    ∀ e ∈ a.events l m, gaveUp e = false := by
  intro e he
  have hnone : (a.events l m).countP gaveUp = 0 := by
    rw [a.countP_events gaveUp (fun _ _ => ⟨rfl, rfl⟩) (fun _ => rfl),
      countP_killerEvents gaveUp _ _ (fun _ => rfl) fun _ => rfl]
    rfl
  exact Bool.eq_false_iff.mpr (List.countP_eq_zero.mp hnone e he)

/-- The first call invokes each hook once if nothing hinders it. -/
theorem first_onceEach (h : Judging j l m hs r es m') (hm : m.ctxt.hctxt = hookCtxtCreate) :
    OnceEach hs es ↔ Unhindered j m es := by
  have hb : BuiltinHooks m.ctxt.hctxt := hm ▸ builtinHooks_iterate 0
  have hfail : ∀ {es : List JEvent}, (∃ e ∈ es, gaveUp e = true) → ¬ Unhindered j m es := by
    rintro es ⟨e, he, hgave⟩ hu
    exact absurd (hu.calls e he) (by simp [hgave])
  have hall : ∀ {hs : List Hook} {es : List JEvent} {m₁ : Mem}, Prepares j l m hs es m₁ →
      hs <+: (registerBuiltinHook m.ctxt.hctxt).beforeFork :=
    fun hp => hp.2.all.2 ▸ List.prefix_refl _
  have hnot : ∀ {hs hs₂ : List Hook} {es es₂ : List JEvent} {m₁ m₂ : Mem} {n : Nat},
      Prepares j l m hs es m₁ →
      ChainDoes (m₁.parent n).ctxt.hctxt.afterFork (m₁.parent n) hs₂ 0 es₂ m₂ →
      Hook.analyzeAfterWait ∉ hs ++ hs₂ := by
    intro hs hs₂ es es₂ m₁ m₂ n hp hc hmem
    rcases List.mem_append.mp hmem with hmem | hmem
    · rcases hb.register.before _ ((hall hp).subset hmem) with h | h <;> cases h
    · rcases hp.afterHooks hb _ (hc.invoked.subset hmem) with h | h <;> cases h
  cases h with
  | noPipe =>
      refine iff_of_false (not_onceEach_initial hb List.nil_prefix) (hfail ?_)
      exact ⟨⟨.pipe, none⟩, by simp, rfl⟩
  | badArgc hj =>
      exact iff_of_false (not_onceEach_initial hb List.nil_prefix) fun hu => hj hu.accepts
  | unprepared _ hc hr =>
      refine iff_of_false (not_onceEach_initial hb hc.invoked) fun hu => ?_
      rw [show (hooked (m.begun l.pid)).ctxt.hctxt = registerBuiltinHook hookCtxtCreate from
        congrArg registerBuiltinHook hm] at hc
      obtain ⟨e, he, hgave⟩ := first_unprepared hc hr (by simpa using hu.delivered)
      exact hfail ⟨e, by simp [he], hgave⟩ hu
  | noFork hp =>
      refine iff_of_false (not_onceEach_initial hb (hall hp)) (hfail ?_)
      exact ⟨⟨.fork, .failed⟩, by simp, rfl⟩
  | @notReady _ _ _ _ v hp _ hv =>
      refine iff_of_false (not_onceEach_initial hb (hall hp)) (hfail ?_)
      exact ⟨⟨.read l.pipeEnds.1, v⟩, by simp, by simpa [gaveUp] using hv⟩
  | unstarted hp _ hc hr =>
      exact absurd (started_succeeds hc (hp.afterHooks hb)) hr
  | @noWait hs hs₂ es es₂ m₁ m₂ n b hp _ hc =>
      refine iff_of_false (fun ho => ?_) (hfail ⟨⟨.waitpid n true, none⟩, by simp, rfl⟩)
      have hmem : Hook.analyzeAfterWait ∈ hs ++ hs₂ :=
        List.count_pos_iff.mp (by rw [ho.hook]; omega)
      exact absurd hmem (hnot hp hc)
  | @unread hs hs₂ hs₃ es es₂ es₃ m₁ m₂ m₃ n status r₃ hp _ hc hc₃ hr =>
      rw [show (m₂.waited status).ctxt.hctxt = registerBuiltinHook hookCtxtCreate from
        (hc.keeps.hctxt.trans hp.hctxt).trans (congrArg registerBuiltinHook hm)] at hc₃
      obtain ⟨hnot₃, e, he, hgave⟩ := first_unread hc₃ hr
      refine iff_of_false (fun ho => ?_) (hfail ⟨e, by simp [he], hgave⟩)
      have hmem : Hook.analyzeAfterWait ∈ hs ++ hs₂ ++ hs₃ :=
        List.count_pos_iff.mp (by rw [ho.hook]; omega)
      rcases List.mem_append.mp hmem with hmem | hmem
      · exact absurd hmem (hnot hp hc)
      · exact absurd hmem hnot₃
  | judged hp hn hc hc₃ =>
      obtain ⟨a, hhs, hes, -⟩ := first_judged (.judged hp hn hc hc₃) hm
      rw [hhs, hes]
      exact iff_of_true (a.onceEach l m) ⟨hp.1, a.delivered l m, a.not_gaveUp l m⟩

/-- **Each hook once**: exactly in a first call that nothing hinders. -/
theorem once_each_iff {m₀ : Mem} {l' : JLocal} (h0 : m₀.ctxt.hctxt = hookCtxtCreate)
    (hm : Rejudged m₀ m) (hrun : Code.Runs j.code l m r l' m') :
    (∃ hs es, Judging j l m hs r es m' ∧ l'.log = l.log ++ es) ∧
      ∀ hs es, Judging j l m hs r es m' → l'.log = l.log ++ es →
        (OnceEach hs es ↔ m.ctxt.hctxt = hookCtxtCreate ∧ Unhindered j m es) := by
  refine ⟨runs_judging hrun, fun hs es hj _ => ?_⟩
  obtain ⟨k, hk⟩ := hm.registered h0
  have hb : BuiltinHooks m.ctxt.hctxt := hk ▸ builtinHooks_iterate k
  cases k with
  | zero =>
      rw [first_onceEach hj hk]
      exact (and_iff_right hk).symm
  | succ k =>
      rw [Function.iterate_succ_apply'] at hk
      refine iff_of_false (not_onceEach_register hj hb hk) ?_
      rintro ⟨h, -⟩
      rw [hk] at h
      exact absurd (congrArg HookCtxt.beforeFork h) (List.cons_ne_nil _ _)

end

/-- A first call that nothing hinders. -/
theorem once_each_first :
    OnceEach firstHooks (firstCourse.events (.start (.inheritedBelow 4)) timedMem) ↔
      timedMem.ctxt.hctxt = hookCtxtCreate ∧
        Unhindered .general timedMem
          (firstCourse.events (.start (.inheritedBelow 4)) timedMem) := by
  obtain ⟨l', hrun, hlog⟩ := firstCourse_judging.runs
  exact (once_each_iff rfl .fresh hrun).2 _ _ firstCourse_judging hlog

/-- The second of two calls runs a hook twice and leaves a killer alone. -/
theorem once_each_repeated : ∃ m₁ hs es m₂,
    Rejudged timedMem m₁ ∧ Judging .general (.start (.inheritedBelow 4)) m₁ hs 0 es m₂ ∧
      hs.count .compilePolicyBeforeFork = 2 ∧
      (∃ start, (⟨.pthreadCreate start, some 2⟩ : JEvent) ∈ es) ∧
      (∀ b, (⟨.pthreadCancel 2, b⟩ : JEvent) ∉ es) ∧ ¬ OnceEach hs es := by
  have hfirst := firstCourse_judging
  obtain ⟨hs, es, m₂, hj, hcount, hcreate, hstop⟩ := second_call (l := .start (.inheritedBelow 4))
    (m := firstCourse.judged (.start (.inheritedBelow 4)) timedMem) (n := 3)
    rfl rfl (handler_empty _) (by decide) (by decide) (show (2 : Nat) ≠ 3 by decide)
  refine ⟨_, hs, es, m₂, .call .fresh ⟨_, hfirst.runs⟩, hj, hcount, hcreate, hstop, fun ho => ?_⟩
  have hone := ho.hook .compilePolicyBeforeFork
  omega

end YaojJudger
