/-
# `YaojJudger.Timeout` — what a kill by the clock is reported as

The killer sleeps for whole seconds, `t / 1000 + 1` of them for a limit of `t`
milliseconds.  The clock is read before it is created and after the child has
been waited for, so a child it kills has run, as far as the judger knows, for at
least that long, and the comparison in `real_tle` is strict: the verdict is
`TLE`.

    c₀ start   c pthread_create   c + nap ≤ τ kill   c₁ waitpid   c₂ finish

That presupposes that `waitpid` waits for the end of the child.  It asks for
stops too (`WUNTRACED`), and nothing tells them apart: a child that is stopped,
and killed before the killer is told to stop, is a system error.
-/
import YaojJudger.Posix.Timed
import YaojJudger.CpuLimit
import YaojJudger.Killer
import YaojJudger.Usage

namespace YaojJudger

open Posix World

/-! ## Milliseconds -/

theorem toMillisecond_timevalOf (c : Nat) :
    toMillisecond (timevalOf c) = Int32.ofNat (c / 1000) := by
  have husec : Int64.ofNat (c % 1000000) / 1000 = Int64.ofNat (c % 1000000 / 1000) := by
    have hlt : c % 1000000 < 1000000 := Nat.mod_lt _ (by decide)
    have hthousand : (1000 : Int64).toInt = 1000 := rfl
    refine Int64.toInt.inj ?_
    rw [Int64.toInt_div, Int64.toInt_ofNat_of_lt (by omega), Int64.toInt_ofNat_of_lt (by omega),
      hthousand, Int.tdiv_eq_ediv_of_nonneg (by omega)]
    exact Int.bmod_eq_of_le (by omega) (by omega)
  have hsum : c / 1000 = c / 1000000 * 1000 + c % 1000000 / 1000 := by omega
  rw [toMillisecond, timevalOf, husec, hsum, Int32.ofNat_add, Int32.ofNat_mul, Int64.toInt32_add,
    Int64.toInt32_mul, Int64.toInt32_ofNat', Int64.toInt32_ofNat']
  rfl

theorem napLength_toNat {ctxt : TkillCtxt} (hlow : 1 ≤ ctxt.time.toInt)
    (hhigh : ctxt.time.toInt ≤ 2147483647 - 1000) :
    ((napLength ctxt).toNat : Int) = ctxt.time.toInt / 1000 + 1 := by
  have hthousand : (1000 : Int32).toInt = 1000 := rfl
  have hsum : (ctxt.time + 1000).toInt = ctxt.time.toInt + 1000 := by
    rw [Int32.toInt_add, hthousand]
    exact Int.bmod_eq_of_le (by omega) (by omega)
  have hdiv : ((ctxt.time + 1000) / 1000).toInt = ctxt.time.toInt / 1000 + 1 := by
    rw [Int32.toInt_div, hsum, hthousand, Int.tdiv_eq_ediv_of_nonneg (by omega)]
    rw [Int.bmod_eq_of_le (by omega) (by omega)]
    omega
  have hnonneg : 0 ≤ (ctxt.time + 1000) / 1000 := by
    rw [Int32.le_iff_toInt_le, hdiv]
    have : (0 : Int32).toInt = 0 := rfl
    omega
  rw [napLength, Int32.toNat_toUInt32_of_le hnonneg, ← Int32.toNat_toInt, hdiv]
  exact Int.toNat_of_nonneg (by omega)

/-- What the judger takes for the time between two readings. -/
theorem elapsed_toInt {c₀ c₂ : Nat} (hle : c₀ ≤ c₂) (hlt : c₂ / 1000 < c₀ / 1000 + 2 ^ 31) :
    (toMillisecond (timevalOf c₂) - toMillisecond (timevalOf c₀)).toInt =
      (c₂ / 1000 - c₀ / 1000 : Nat) := by
  rw [toMillisecond_timevalOf, toMillisecond_timevalOf,
    ← Int32.ofNat_sub _ _ (Nat.div_le_div_right hle)]
  exact Int32.toInt_ofNat_of_lt (by omega)

/-- **Who has run for the length of a nap has run for longer than the limit.** -/
theorem limit_lt_elapsed {ctxt : TkillCtxt} {c₀ c₂ : Nat} (hlow : 1 ≤ ctxt.time.toInt)
    (hhigh : ctxt.time.toInt ≤ 2147483647 - 1000)
    (hnap : c₀ + Timed.napTime (napLength ctxt) ≤ c₂) (hlt : c₂ / 1000 < c₀ / 1000 + 2 ^ 31) :
    ctxt.time < toMillisecond (timevalOf c₂) - toMillisecond (timevalOf c₀) := by
  have hlength := napLength_toNat hlow hhigh
  have hms : c₀ / 1000 + (napLength ctxt).toNat * 1000 ≤ c₂ / 1000 := by
    rw [Timed.napTime] at hnap
    omega
  rw [Int32.lt_iff_toInt_lt, elapsed_toInt (by omega) hlt]
  omega

/-! ## The killer and the clock -/

/-- `gettimeofday` tells the time; nothing else depends on it. -/
def tellsTime : (q : Ask) → q.Ans → Nat → Bool
  | .gettimeofday, now, clock => now == timevalOf clock
  | _, _, _ => true

abbrev JTimed := Timed judgerIface (Int × Mem)

/-- A killer that was created at time `c`: it went to sleep no sooner, and if it
has slept, that was the length of a nap ago. -/
structure NapSince (s : JTimed) (t : Nat) (th : Thread judgerIface) (ctxt : TkillCtxt) (c : Nat) :
    Prop where
  created : ((⟨.pthreadCreate ctxt, some t⟩, c) : JEvent × Nat) ∈ s.record
  killing : Killing ctxt th.code
  since : (s.world.nap t).isSome → c ≤ s.since t
  slept : s.slept t = true → c + Timed.napTime (napLength ctxt) ≤ s.clock

/-- A kill came the length of a nap after the creation of the killer. -/
def KilledByNap (s : JTimed) (τ : Nat) : Prop :=
  ∃ ctxt t c, ((⟨.pthreadCreate ctxt, some t⟩, c) : JEvent × Nat) ∈ s.record ∧
    c + Timed.napTime (napLength ctxt) ≤ τ

/-- What holds of the times in every run. -/
structure OnTime (s : JTimed) : Prop where
  recorded : Timed.Recorded tellsTime s
  slept : ∀ {t}, s.slept t = true → (s.world.thread? t).isSome
  naps : ∀ {t th}, s.world.thread? t = some th → ∃ ctxt c, NapSince s t th ctxt c
  killed : ∀ {j τ}, s.killed j = some τ → s.KilledAt j τ ∧ KilledByNap s τ

section
variable {x : Code Int} {t : FdTable} {m : Mem} {pgid : Nat} {clock d : Nat} {s s' : JTimed}
  {a : Act judgerIface} {ok : JWorld → Act judgerIface → Prop}

theorem nap_eq {w : JWorld} {n : Nat} {th : Thread judgerIface} (hth : w.thread? n = some th)
    (hd : th.done = false) {k : Bool → Prog Call Ret Unit} {len : UInt32}
    (hc : th.code = .call (.sleep len) k) : w.nap n = some len := by
  simp [World.nap, hth, hd, hc]

theorem not_nap {w : JWorld} {n : Nat} {th : Thread judgerIface} (hth : w.thread? n = some th)
    (hc : ∀ len k, th.code ≠ .call (.sleep len) k) : w.nap n = none := by
  rw [World.nap, hth, Option.bind_some]
  split
  · rfl
  · split
    · rename_i len k h
      exact absurd h (hc len k)
    · rfl

/-- A killer that wakes up has slept as long as it should. -/
theorem NapSince.wakes {n c : Nat} {th th' : Thread judgerIface} {ctxt : TkillCtxt} {w' : JWorld}
    {o : Outcome judgerIface} (hn : NapSince s n th ctxt c) (hth : s.world.thread? n = some th)
    (hth' : w'.thread? n = some th') (hd : th.done = false) (hs : KillerStep ctxt th o th')
    (hallows : s.allows tellsTime (s.clock + d) (.thr n o) = true)
    (hw : Timed.wakes s.world w' n (.thr n o) = true) :
    c + Timed.napTime (napLength ctxt) ≤ s.clock + d := by
  cases o with
  | fail => cases hw
  | answer f => cases hw
  | ok =>
      simp only [Timed.wakes, Bool.and_eq_true, hth', Option.any_some, Bool.not_eq_true'] at hw
      obtain ⟨⟨⟨-, hnap⟩, -⟩, hlive⟩ := hw
      cases hs with
      | toSleep h => rw [not_nap hth (by simp [h])] at hnap; cases hnap
      | undetached h => rw [not_nap hth (by simp [h])] at hnap; cases hnap
      | shot h => rw [not_nap hth (by simp [h])] at hnap; cases hnap
      | ended _ hdone => rw [hdone] at hlive; cases hlive
      | awake h hcan _ =>
          have hlen := nap_eq hth hd h
          have hawake := Timed.napTime_le_of_allows hallows hth hcan hlen
          have hsince := hn.since (by rw [hlen]; rfl)
          exact (Nat.add_le_add_right hsince _).trans hawake

/-- **One step keeps what is known of the naps.** -/
theorem naps_step (hb : BuiltinHooks m.ctxt.hctxt)
    (hx : x = yjudgerGeneral ∨ x = yjudgerInteractive)
    (hr : Reaches killers ok (World.init t (x m) pgid) s.world) (hs : OnTime s)
    (h : s.step killers tellsTime d a = some s') {n : Nat} {th' : Thread judgerIface}
    (ht : s'.world.thread? n = some th') : ∃ ctxt c, NapSince s' n th' ctxt c := by
  obtain ⟨w', hallows, hw', rfl⟩ := Timed.step_cases h
  -- what is left to show of a killer that was there
  have old : ∀ {th ctxt c}, NapSince s n th ctxt c → Killing ctxt th'.code →
      (Timed.wakes s.world w' n a = true → c + Timed.napTime (napLength ctxt) ≤ s.clock + d) →
      NapSince (s.after (s.clock + d) a w') n th' ctxt c := by
    intro th ctxt c hn hk hw
    refine ⟨List.mem_append_left _ hn.created, hk, fun hnap => ?_, fun hslept => ?_⟩
    · have hpast := hs.recorded.past hn.created
      simp only [Timed.after] at hnap ⊢
      split
      case isTrue => omega
      case isFalse hsame =>
        refine hn.since (Option.ne_none_iff_isSome.mp fun hnone => hsame ?_)
        rw [hnone, hnap]
        rfl
    · simp only [Timed.after, Bool.or_eq_true] at hslept
      rcases hslept with hslept | hslept
      · exact (hn.slept hslept).trans (Nat.le_add_right _ _)
      · exact hw hslept
  cases step_threadOrigin hw' ht with
  | @kept th hth hkept _ =>
      obtain ⟨ctxt, c, hn⟩ := hs.naps hth
      refine ⟨ctxt, c, old hn (hkept.code ▸ hn.killing) fun hw => ?_⟩
      have hsame : w'.nap n = s.world.nap n := by
        rw [World.nap, World.nap, show w'.thread? n = some th' from ht, hth, Option.bind_some,
          Option.bind_some, hkept.code, hkept.done]
      obtain ⟨hnap, hnone, -⟩ := Timed.naps_of_wakes hw
      rw [hsame, Option.isNone_iff_eq_none] at hnone
      rw [hnone] at hnap
      cases hnap
  | @stepped o th ha hth hdone hst =>
      subst ha
      obtain ⟨ctxt, c, hn⟩ := hs.naps hth
      have hstep := hn.killing.step hst
      exact ⟨ctxt, c, old hn (hstep.killing hn.killing) (hn.wakes hth ht hdone hstep hallows)⟩
  | @born i o p start k ha hp hc hr' hth' =>
      subst ha
      obtain rfl : i = 1 := first_only (P := startsClock) (fun _ h => h.clock) hb hx hr hp hc rfl
      have hnew : s.world.thread? n = none := by
        rw [← Option.not_isSome_iff_eq_none, thread?_isSome, reply_create hr']
        omega
      have hnap : s.world.nap n = none := by
        rw [World.nap, hnew]
        rfl
      refine ⟨start, s.clock + d, ?_, hth' ▸ killing_timeoutKiller start, fun hnap' => ?_,
        fun hslept => ?_⟩
      · exact Timed.record_logged hr.numbered hr.first h (nextEvent_eq hp hc hr')
      · simp only [Timed.after] at hnap' ⊢
        rw [hnap, hnap']
        exact Nat.le_refl _
      · simp only [Timed.after, Bool.or_eq_true] at hslept
        rcases hslept with hslept | hslept
        · have hthere := hs.slept hslept
          rw [hnew] at hthere
          cases hthere
        · cases hslept

/-- **One step keeps everything that is known of the times.** -/
theorem onTime_step (hb : BuiltinHooks m.ctxt.hctxt)
    (hx : x = yjudgerGeneral ∨ x = yjudgerInteractive)
    (hr : Reaches killers ok (World.init t (x m) pgid) s.world) (hs : OnTime s)
    (h : s.step killers tellsTime d a = some s') : OnTime s' := by
  have hrecord : ∀ {p}, p ∈ s.record → p ∈ s'.record := by
    obtain ⟨w', -, -, rfl⟩ := Timed.step_cases h
    exact fun hp => List.mem_append_left _ hp
  have hclock : s.clock ≤ s'.clock := by
    obtain ⟨w', -, -, rfl⟩ := Timed.step_cases h
    exact Nat.le_add_right _ _
  refine ⟨Timed.recorded_step hr.numbered hr.first h hs.recorded, fun {n} hslept => ?_,
    naps_step hb hx hr hs h, fun {j τ} hk => ⟨?_, ?_⟩⟩
  · obtain ⟨w', -, hw', rfl⟩ := Timed.step_cases h
    simp only [Timed.after, Bool.or_eq_true] at hslept
    rcases hslept with hslept | hslept
    · exact thread?_step hw' (hs.slept hslept)
    · exact (Timed.naps_of_wakes hslept).2.2
  · exact Timed.killedAt_step hr hs.recorded h (fun hold => (hs.killed hold).1) hk
  · rcases Timed.killed_step h hk with hold | ⟨rfl, n, hnew⟩
    · obtain ⟨ctxt, n, c, hc, hτ⟩ := (hs.killed hold).2
      exact ⟨ctxt, n, c, hrecord hc, hτ⟩
    · obtain ⟨th, hth⟩ := Option.isSome_iff_exists.mp (hs.slept hnew.slept)
      obtain ⟨ctxt, c, hn⟩ := hs.naps hth
      exact ⟨ctxt, n, c, hrecord hn.created, (hn.slept hnew.slept).trans hclock⟩

theorem onTime_run (hb : BuiltinHooks m.ctxt.hctxt)
    (hx : x = yjudgerGeneral ∨ x = yjudgerInteractive)
    (hr : Timed.Reaches killers tellsTime ok
      (Timed.start (World.init t (x m) pgid) clock) s) : OnTime s := by
  induction hr with
  | refl =>
      refine ⟨⟨rfl, List.Pairwise.nil, fun h => absurd h List.not_mem_nil,
        fun h => absurd h List.not_mem_nil⟩, fun h => (by cases h), fun {n th} h => ?_,
        fun h => (by cases h)⟩
      exact absurd h (by simp [thread?_eq_some, Timed.start, World.init])
  | tail hr _ hstep ih => exact onTime_step hb hx hr.untimed ih hstep

end

/-! ## The first call -/

/-- A stop is not the end of the child, and without the usage there is no verdict. -/
def reportsEnd : JEvent → Bool
  | ⟨.waitpid _ _, some status⟩ => !wifstopped status
  | ⟨.ask .getrusage, none⟩ => false
  | _ => true

/-- What `waitpid` reports is the end of the child, and the usage can be had. -/
def endReported (w : JWorld) : Act judgerIface → Bool
  | .sys i o => (w.nextEvent i o).all reportsEnd
  | _ => true

section
variable {j : Judger} {l : JLocal} {m m' : Mem} {hs : List Hook} {r : Int} {es : List JEvent}

/-- The hooks wait for nobody. -/
theorem ChainDoes.quiet {chain : List Hook} (h : ChainDoes chain m hs r es m') (l : JLocal) :
    ∀ e ∈ es, Quiet 0 e.call := by
  obtain ⟨l', hrun, hlog⟩ := h.runs l
  obtain ⟨es', hlog', hquiet⟩ := (runs_chain_keeps hrun).log
  obtain rfl := List.append_cancel_left (hlog.symm.trans hlog')
  exact hquiet

/-- A call that has got a wait status and all it asked for returns 0. -/
theorem Judging.completes (h : Judging j l m hs r es m') (hb : BuiltinHooks m.ctxt.hctxt)
    (hw : ∀ h ∈ m.ctxt.hctxt.afterWait, h ∈ waitHooks) {n st : Nat}
    (hwait : (⟨.waitpid n true, some st⟩ : JEvent) ∈ es)
    (husage : (⟨.ask .getrusage, none⟩ : JEvent) ∉ es) : r = 0 := by
  cases h with
  | noPipe => simp at hwait
  | badArgc => simp [opening] at hwait
  | @unprepared hs₁ r₁ es₁ m₁ _ hc _ =>
      have hmem : (⟨.waitpid n true, some st⟩ : JEvent) ∈ es₁ := by simpa [opening] using hwait
      exact (hc.quiet l _ hmem).elim
  | @noFork hs₁ es₁ m₁ hp =>
      have hmem : (⟨.waitpid n true, some st⟩ : JEvent) ∈ es₁ := by simpa [opening] using hwait
      exact (hp.2.quiet l _ hmem).elim
  | @notReady hs₁ es₁ m₁ n₁ v hp _ _ =>
      have hmem : (⟨.waitpid n true, some st⟩ : JEvent) ∈ es₁ := by simpa [opening] using hwait
      exact (hp.2.quiet l _ hmem).elim
  | unstarted hp _ hc hr => exact absurd (started_succeeds hc (hp.afterHooks hb)) hr
  | @noWait hs₁ hs₂ es₁ es₂ m₁ m₂ n₁ b hp _ hc =>
      have hmem : (⟨.waitpid n true, some st⟩ : JEvent) ∈ es₁ ∨
          (⟨.waitpid n true, some st⟩ : JEvent) ∈ es₂ := by
        simpa [opening, handshake] using hwait
      rcases hmem with hmem | hmem
      · exact (hp.2.quiet l _ hmem).elim
      · exact (hc.quiet l _ hmem).elim
  | @unread hs₁ hs₂ hs₃ es₁ es₂ es₃ m₁ m₂ m₃ n₁ status r₃ hp _ hc hc₃ hr =>
      rw [show (m₂.waited status).ctxt.hctxt = registerBuiltinHook m.ctxt.hctxt from
        hc.keeps.hctxt.trans hp.hctxt] at hc₃
      have hfailed := wait_failed hc₃ (waitHooks_register hw) hr
      exact absurd (by simp [hfailed]) husage
  | judged => rfl

/-- The limit is the one of the context. -/
theorem Course.tkillCtxt_time (a : Course) (l : JLocal) (m : Mem) :
    (a.forked l m).tkillCtxt.time = m.ctxt.rctxt.realTime := rfl

/-- The order of the four events that matter. -/
theorem Course.events_split (a : Course) (l : JLocal) {m : Mem}
    (hz : m.ctxt.rctxt.realTime ≠ rscUnlimited) {n : Nat} (hn : a.attempt = .created n) : ∃ as bs,
    a.events l m = as ++ ⟨.ask .gettimeofday, a.start⟩ ::
      ⟨.pthreadCreate (a.forked l m).tkillCtxt, some n⟩ ::
      ⟨.waitpid a.child true, some a.status⟩ :: ⟨.ask .gettimeofday, a.finish⟩ :: bs ∧
    ∀ ctxt t, (⟨.pthreadCreate ctxt, t⟩ : JEvent) ∉ as := by
  have hkill : killerEvents (a.forked l m) a.attempt =
      [⟨.pthreadCreate (a.forked l m).tkillCtxt, some n⟩] := by
    rw [hn]
    exact if_neg hz
  refine ⟨opening l ++
      [⟨.ask .numStr, a.numStr⟩,
        ⟨.ask (.kafelCompile a.escContent m.ctxt.pctxt.dirname), some a.prog⟩,
        ⟨.setCloexec m.logFd, true⟩] ++ handshake l a.child,
    ⟨.ask .getrusage, some a.usage⟩ ::
      (stopEvents (a.waited l m) a.cancelled a.joined ++ warning a.status), ?_, ?_⟩
  · rw [Course.events, hkill]
    simp only [List.append_assoc, List.cons_append, List.nil_append]
  · simp [opening, handshake]

/-- The times of four events in a row, and of what is neither before them nor the
first of them. -/
theorem times_of_record {record : List (JEvent × Nat)}
    (ho : record.Pairwise fun x y => x.2 ≤ y.2) {as bs : List JEvent} {e₀ e₁ e₂ e₃ : JEvent}
    (h : record.map Prod.fst = as ++ e₀ :: e₁ :: e₂ :: e₃ :: bs) :
    ∃ c₀ c₂ c₃, (e₀, c₀) ∈ record ∧ (e₂, c₂) ∈ record ∧ (e₃, c₃) ∈ record ∧ c₂ ≤ c₃ ∧
      ∀ e c, (e, c) ∈ record → e ∉ as → e ≠ e₀ → c₀ ≤ c := by
  obtain ⟨l₁, l₂, hrecord, rfl, h₂⟩ := List.map_eq_append_iff.mp h
  obtain ⟨⟨e₀, c₀⟩, l₃, rfl, rfl, h₃⟩ := List.map_eq_cons_iff.mp h₂
  obtain ⟨⟨e₁, c₁⟩, l₄, rfl, rfl, h₄⟩ := List.map_eq_cons_iff.mp h₃
  obtain ⟨⟨e₂, c₂⟩, l₅, rfl, rfl, h₅⟩ := List.map_eq_cons_iff.mp h₄
  obtain ⟨⟨e₃, c₃⟩, l₆, rfl, rfl, -⟩ := List.map_eq_cons_iff.mp h₅
  subst hrecord
  have hrow := (List.pairwise_append.mp ho).2.1
  obtain ⟨hfirst, hrest⟩ := List.pairwise_cons.mp hrow
  refine ⟨c₀, c₂, c₃, by simp, by simp, by simp, ?_, ?_⟩
  · have h₂ := (List.pairwise_cons.mp (List.pairwise_cons.mp hrest).2).1
    exact h₂ (e₃, c₃) List.mem_cons_self
  · intro e c hm has hne
    rcases List.mem_append.mp hm with hm | hm
    · exact absurd (List.mem_map_of_mem hm) has
    · rcases List.mem_cons.mp hm with heq | hm
      · exact absurd (Prod.mk.inj heq).1 hne
      · exact hfirst (e, c) hm

/-- The child is the one that is waited for. -/
theorem Course.child_of_mem {a : Course} {n st : Nat}
    (h : (⟨.waitpid n true, some st⟩ : JEvent) ∈ a.events l m) : n = a.child ∧ st = a.status := by
  refine ⟨?_, Course.mem_answers.2 n st h⟩
  by_contra hne
  have hcalls : (⟨.waitpid n true, some st⟩ : JEvent) ∉ a.calls l m := by
    simp [Course.calls, opening, handshake, hne]
  rcases Course.mem_pieces h hcalls with h | h | h
  · exact absurd (Attempt.mem_events (mem_killerEvents h).2) (by simp)
  · rcases mem_stopEvents h with h | h <;> cases h
  · exact absurd (mem_warning h) (by simp)

/-- The verdict of a first call whose child was killed, when the limit is exceeded. -/
theorem Course.judged_tle {a : Course} (hst : a.status = killStatus 9 false)
    (hz : m.ctxt.rctxt.realTime ≠ rscUnlimited)
    (hlimit : m.ctxt.rctxt.realTime < toMillisecond a.finish - toMillisecond a.start) :
    (a.judged l m).ctxt.result.code = .tle := by
  let own : Own :=
    { usage := ⟨0, 0, 0⟩, status := a.status, start := a.start, finish := a.finish,
      limits := m.ctxt.rctxt }
  have hstatus : a.status = own.status := rfl
  rw [Course.result hstatus rfl rfl rfl, Own.result, analyzed_signal (by decide) hst]
  have htle : realTle
      { yjudgerCtxtCreate
          { code := .se, signal := 0, exitCode := 0,
            realTime := toMillisecond a.finish - toMillisecond a.start,
            cpuTime := a.usage.cpuTime, realMemory := realMemory a.usage } a.usage with
        status := a.status, rctxt := m.ctxt.rctxt } = true := by
    simp only [realTle, Bool.and_eq_true, decide_eq_true_eq]
    exact ⟨hz, hlimit⟩
  exact if_pos htle

end

/-- The readings of the clock are less than 2³¹ milliseconds apart. -/
def ShortRun (s : JTimed) : Prop :=
  ∀ {now now' : Timeval} {c c' : Nat}, ((⟨.ask .gettimeofday, now⟩, c) : JEvent × Nat) ∈ s.record →
    ((⟨.ask .gettimeofday, now'⟩, c') : JEvent × Nat) ∈ s.record → c' / 1000 < c / 1000 + 2 ^ 31

/-- **A kill by an expired timeout is reported as `TLE`** on the first call of a
context, when what `waitpid` reports is the end of the child and the usage can be
had. -/
theorem timeout_is_tle {m : Mem} (hm : m.ctxt.hctxt = hookCtxtCreate)
    (hlow : 1 ≤ m.ctxt.rctxt.realTime.toInt)
    (hhigh : m.ctxt.rctxt.realTime.toInt ≤ 2147483647 - 1000) (t : FdTable) (pgid clock : Nat)
    {x : Code Int} (hx : x = yjudgerGeneral ∨ x = yjudgerInteractive) {s : JTimed}
    (hr : Timed.Reaches killers tellsTime (fun w a => endReported w a = true)
      (Timed.start (World.init t (x m) pgid) clock) s)
    {q : Proc judgerIface (Int × Mem)} {r : Int} {m' : Mem} (hq : s.world.procs 1 = some q)
    (hret : q.code = .ret (r, m')) {n st τ : Nat}
    (hwait : (⟨.waitpid n true, some st⟩ : JEvent) ∈ q.loc.log)
    (hkill : s.killed n = some τ) (hshort : ShortRun s) : m'.ctxt.result.code = .tle := by
  have hz : m.ctxt.rctxt.realTime ≠ rscUnlimited := by
    intro h
    rw [h] at hlow
    exact absurd hlow (by decide)
  have hb : BuiltinHooks m.ctxt.hctxt := hm ▸ builtinHooks_iterate 0
  have hw : ∀ h ∈ m.ctxt.hctxt.afterWait, h ∈ waitHooks := hm ▸ waitHooks_iterate 0
  have hworld := hr.untimed
  have hon := onTime_run hb hx hr
  -- what the record says
  have hends : ∀ e ∈ q.loc.log, reportsEnd e = true := by
    refine hworld.events ?_ hq
    intro w o p c k r _ hok hp hc hreply
    simpa [endReported, nextEvent_eq hp hc hreply] using hok
  have hlog : s.record.map Prod.fst = q.loc.log := by
    rw [hon.recorded.events, World.firstLog, hq]
  -- the call, from its start to its return
  obtain ⟨j, hs, hj⟩ := judging_of_returned hx hworld hq hret
  obtain rfl : r = 0 :=
    hj.completes hb hw hwait fun h => absurd (hends _ h) (by decide)
  obtain ⟨a, -, hevents, rfl⟩ := first_judged hj hm
  rw [hevents] at hwait hlog hends
  obtain ⟨rfl, rfl⟩ := Course.child_of_mem hwait
  obtain ⟨hkilled, ctxt, n, c, hcreated, hτ⟩ := hon.killed hkill
  -- the status is that of the shot
  have hst : a.status = killStatus 9 false := by
    have hnonstop : wifstopped a.status = false := by simpa [reportsEnd] using hends _ hwait
    obtain ⟨p, hp, hreaped⟩ := hworld.waited hq (hevents ▸ hwait) hnonstop
    obtain ⟨p', hp', hmode⟩ := hkilled.felled
    obtain rfl := Option.some.inj (hp.symm.trans hp')
    rw [hreaped] at hmode
    rcases hmode with hmode | hmode
    · cases hmode
    · exact Mode.reaped.inj hmode
  -- the two readings are a nap apart
  have hmem := List.mem_map_of_mem (f := Prod.fst) hcreated
  rw [hlog] at hmem
  obtain ⟨-, hctxt, hattempt⟩ := Course.attempt_eq hmem
  obtain ⟨as, bs, hsplit, hnone⟩ := a.events_split (.start t) hz hattempt
  rw [hsplit] at hlog
  obtain ⟨c₀, c₂, c₃, h₀, h₂, h₃, h₂₃, hafter⟩ := times_of_record hon.recorded.order hlog
  have hstart : a.start = timevalOf c₀ := eq_of_beq (hon.recorded.honest h₀)
  have hfinish : a.finish = timevalOf c₃ := eq_of_beq (hon.recorded.honest h₃)
  have hcreate : c₀ ≤ c := hafter _ _ hcreated (hnone ctxt (some n)) (by simp)
  have hlimit : ctxt.time = m.ctxt.rctxt.realTime := by
    rw [hctxt, Course.tkillCtxt_time]
  have hnonstop : wifstopped a.status = false := by simpa [reportsEnd] using hends _ hwait
  have hwaited : τ ≤ c₂ := hkilled.awaited h₂ hnonstop
  refine Course.judged_tle hst hz ?_
  rw [hstart, hfinish, ← hlimit]
  refine limit_lt_elapsed (hlimit ▸ hlow) (hlimit ▸ hhigh) ?_ (hshort h₀ h₃)
  omega

/-! ## Two judgements with a limit of one second -/

/-- The answers at time `clock`. -/
def answersAt (clock : Nat) : (q : Ask) → q.Ans
  | .gettimeofday => timevalOf clock
  | q => sampleAnswers q

/-- The acts `as`, without delay. -/
def atOnce (as : List (Act judgerIface)) : List (Nat × Act judgerIface) := as.map fun a => (0, a)

/-- At time 0 the child execs, the clock is read, a killer is started, and it goes
to sleep. -/
def startActs : List (Nat × Act judgerIface) :=
  atOnce (launchActs ++ okActs 2 12 ++ okActs 1 1 ++
    [Act.sys 1 (.answer (answersAt 0)), .sys 1 .ok, .thr 1 .ok])

/-- The code of the result, if the judger has returned. -/
def verdictOf (s : JTimed) : Option ResultCode :=
  (s.world.procs 1).bind fun q =>
    match q.code with
    | .ret (_, m') => some m'.ctxt.result.code
    | _ => none

/-- Is it a status of process 2? -/
def isStatus : JEvent → Bool
  | ⟨.waitpid n true, some _⟩ => n == 2
  | _ => false

/-- Has the judger returned, by time `last`, process 2 having been waited for, and
killed by a killer that had slept? -/
def endsShot (last : Nat) (s : JTimed) : Bool :=
  (verdictOf s).isSome && s.world.firstLog.any isStatus && (s.killed 2).isSome &&
    s.record.all fun p => decide (p.2 ≤ last)

theorem endsShot_spec {last : Nat} {s : JTimed} (h : endsShot last s = true)
    (hlast : last < 2 ^ 31) :
    ∃ q r m' st τ, s.world.procs 1 = some q ∧ q.code = .ret (r, m') ∧
      (⟨.waitpid 2 true, some st⟩ : JEvent) ∈ q.loc.log ∧ s.killed 2 = some τ ∧ ShortRun s ∧
      verdictOf s = some m'.ctxt.result.code := by
  simp only [endsShot, Bool.and_eq_true, List.any_eq_true, List.all_eq_true,
    decide_eq_true_eq] at h
  obtain ⟨⟨⟨hverdict, ⟨c, r'⟩, he, hstatus⟩, hkilled⟩, hall⟩ := h
  obtain ⟨code, hcode⟩ := Option.isSome_iff_exists.mp hverdict
  obtain ⟨q, hq, hret⟩ := Option.bind_eq_some_iff.mp hcode
  obtain ⟨τ, hτ⟩ := Option.isSome_iff_exists.mp hkilled
  have hshort : ShortRun s := by
    intro now now' c c' _ hc'
    have hle : c' ≤ last := hall _ hc'
    omega
  rw [World.firstLog, hq] at he
  cases hq' : q.code with
  | exit n => rw [hq'] at hret; cases hret
  | call c k => rw [hq'] at hret; cases hret
  | ret a =>
      obtain ⟨r, m'⟩ := a
      rw [hq'] at hret
      cases c with
      | waitpid n u =>
          cases u with
          | false => cases hstatus
          | true =>
              cases r' with
              | none => cases hstatus
              | some st =>
                  obtain rfl : n = 2 := eq_of_beq hstatus
                  exact ⟨q, r, m', st, τ, hq, hq', he, hτ, hshort, hcode.trans hret.symm⟩
      | _ => cases hstatus

/-- The killer shoots after two seconds, and the parent waits for the child. -/
theorem timeout_is_tle_shot : ∃ s, (s.killed 2).isSome ∧ verdictOf s = some .tle := by
  have hrun : ((Timed.start (World.init (.inheritedBelow 4) (yjudgerGeneral timedMem) 1) 0).runIf
      killers tellsTime endReported
      (startActs ++ (2000000, .thr 1 .ok) :: atOnce ([Act.thr 1 .ok] ++ okActs 1 1 ++
        [.sys 1 (.answer (answersAt 2000000)), .sys 1 (.answer sampleAnswers), .sys 1 .ok,
          .sys 1 .fail]))).any (endsShot 2000000) = true := by decide +kernel
  obtain ⟨s, hr, hs⟩ := Timed.reaches_of_anyIf hrun
  obtain ⟨q, r, m', st, τ, hq, hret, hwait, hkill, hshort, hverdict⟩ :=
    endsShot_spec hs (by decide)
  refine ⟨s, by rw [hkill]; rfl, hverdict.trans (congrArg some ?_)⟩
  exact timeout_is_tle (m := timedMem) rfl (by decide) (by decide) _ _ _ (Or.inl rfl) hr hq hret
    hwait hkill hshort

/-- The child is stopped just before that: `waitpid` reports the stop, and the
killer shoots before it is cancelled. -/
theorem timeout_is_tle_stopped : ∃ s q r m' st τ,
    Timed.Reaches killers tellsTime (fun _ _ => True)
        (Timed.start (World.init (.inheritedBelow 4) (yjudgerGeneral timedMem) 1) 0) s ∧
      s.world.procs 1 = some q ∧ q.code = .ret (r, m') ∧
      (⟨.waitpid 2 true, some st⟩ : JEvent) ∈ q.loc.log ∧ s.killed 2 = some τ ∧ ShortRun s ∧
      m'.ctxt.result.code = .se := by
  have hrun : ((Timed.start (World.init (.inheritedBelow 4) (yjudgerGeneral timedMem) 1) 0).runIf
      killers tellsTime (fun _ _ => true)
      (startActs ++ (1999999, .stop 2 19) :: atOnce (okActs 1 1 ++
        [Act.sys 1 (.answer (answersAt 1999999)), .sys 1 (.answer sampleAnswers)]) ++
        (1, .thr 1 .ok) :: atOnce [.thr 1 .ok, .sys 1 .ok, .sys 1 .fail])).any
      (fun s => endsShot 2000000 s && verdictOf s == some .se) = true := by decide +kernel
  obtain ⟨s, hr, hs⟩ := Timed.reaches_of_anyIf hrun
  rw [Bool.and_eq_true] at hs
  obtain ⟨q, r, m', st, τ, hq, hret, hwait, hkill, hshort, hverdict⟩ :=
    endsShot_spec hs.1 (by decide)
  have hse : some m'.ctxt.result.code = some .se := hverdict.symm.trans (eq_of_beq hs.2)
  exact ⟨s, q, r, m', st, τ, hr.mono fun _ _ _ => trivial, hq, hret, hwait, hkill, hshort,
    Option.some.inj hse⟩

end YaojJudger
