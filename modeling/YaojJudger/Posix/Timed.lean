/-
# `YaojJudger.Posix.Timed` — runs against a clock

A `Timed` world is a world with a clock, which never goes back, and with what an
observer remembers of times:

    record    the record of process 1, each event with its time
    since     when a thread went to sleep
    slept     the threads whose sleep has run out
    killed    when a thread that has slept killed a process

The clock has a say in two things only (`allows`): a question about the time is
answered by `honest`, and a sleep runs out no sooner than it should.  A sleep
that is interrupted or cancelled ends at any time.
-/
import YaojJudger.Posix.Threads

namespace Posix

open World

variable {I : Iface} {α : Type}

/-- How long thread `t`, if it sleeps now, is to sleep. -/
def World.nap (w : World I α) (t : Nat) : Option UInt32 :=
  (w.thread? t).bind fun th =>
    if th.done then none
    else match th.code with
      | .call (.sleep n) _ => some n
      | _ => none

/-- Is process `j` alive? -/
def World.lives (w : World I α) (j : Nat) : Bool := (w.procs j).any fun q => q.mode.alive

/-- The record of process 1. -/
def World.firstLog (w : World I α) : List (Event I) :=
  match w.procs 1 with
  | some q => q.loc.log
  | none => []

structure Timed (I : Iface) (α : Type) where
  world : World I α
  clock : Nat
  record : List (Event I × Nat)
  since : Nat → Nat
  slept : Nat → Bool
  killed : Nat → Option Nat

namespace Timed

/-- Nothing has happened yet. -/
def start (w : World I α) (clock : Nat) : Timed I α where
  world := w
  clock := clock
  record := []
  since _ := 0
  slept _ := false
  killed _ := none

/-- Microseconds. -/
def napTime (n : UInt32) : Nat := n.toNat * 1000000

/-- Does the clock, at time `now`, allow the act? -/
def allows (honest : (q : I.Ask) → I.Ans q → Nat → Bool) (s : Timed I α) (now : Nat) :
    Act I → Bool
  | .sys i o => (s.world.nextEvent i o).all fun e =>
      match e with
      | ⟨.ask q, r⟩ => honest q r now
      | _ => true
  | .thr t .ok => (s.world.thread? t).all fun th =>
      th.cancelled || (s.world.nap t).all fun n => decide (s.since t + napTime n ≤ now)
  | _ => true

/-- Did the act end the sleep of thread `t` as it should end? -/
def wakes (w w' : World I α) (t : Nat) : Act I → Bool
  | .thr t' .ok =>
      t' == t && (w.nap t).isSome && (w'.nap t).isNone && (w'.thread? t).any fun th => !th.done
  | _ => false

/-- What is remembered after an act that led to `w'` at time `now`. -/
def after (s : Timed I α) (now : Nat) (a : Act I) (w' : World I α) : Timed I α where
  world := w'
  clock := now
  record := s.record ++ (w'.firstLog.drop s.world.firstLog.length).map fun e => (e, now)
  since t := if (s.world.nap t).isNone && (w'.nap t).isSome then now else s.since t
  slept t := s.slept t || wakes s.world w' t a
  killed j :=
    if s.world.lives j && !w'.lives j then
      match a with
      | .thr t _ => if s.slept t then some now else none
      | _ => none
    else s.killed j

/-- One act, after a delay of `d`. -/
def step (body : Nat → I.Start → Prog (Sys I) Ret Unit)
    (honest : (q : I.Ask) → I.Ans q → Nat → Bool) (s : Timed I α) (d : Nat) (a : Act I) :
    Option (Timed I α) :=
  if s.allows honest (s.clock + d) a then
    (s.world.step body a).map (s.after (s.clock + d) a)
  else none

/-- A run, each act after its delay, in which every act meets `ok`. -/
def runIf (body : Nat → I.Start → Prog (Sys I) Ret Unit)
    (honest : (q : I.Ask) → I.Ans q → Nat → Bool) (ok : World I α → Act I → Bool) :
    Timed I α → List (Nat × Act I) → Option (Timed I α)
  | s, [] => some s
  | s, (d, a) :: as =>
      if ok s.world a then
        match s.step body honest d a with
        | some s' => runIf body honest ok s' as
        | none => none
      else none

/-- Reachability by acts that meet `ok`. -/
inductive Reaches (body : Nat → I.Start → Prog (Sys I) Ret Unit)
    (honest : (q : I.Ask) → I.Ans q → Nat → Bool) (ok : World I α → Act I → Prop)
    (s₀ : Timed I α) : Timed I α → Prop
  | refl : Reaches body honest ok s₀ s₀
  | tail {s s' : Timed I α} {d : Nat} {a : Act I} : Reaches body honest ok s₀ s →
      ok s.world a → s.step body honest d a = some s' → Reaches body honest ok s₀ s'

variable {body : Nat → I.Start → Prog (Sys I) Ret Unit} {honest : (q : I.Ask) → I.Ans q → Nat → Bool}
  {ok : World I α → Act I → Prop} {s₀ s s' : Timed I α} {d : Nat} {a : Act I}

theorem step_cases (h : s.step body honest d a = some s') :
    ∃ w', s.allows honest (s.clock + d) a = true ∧ s.world.step body a = some w' ∧
      s' = s.after (s.clock + d) a w' := by
  rw [step] at h
  split at h
  case isFalse => cases h
  case isTrue hallows =>
    obtain ⟨w', hw', rfl⟩ := Option.map_eq_some_iff.mp h
    exact ⟨w', hallows, hw', rfl⟩

theorem Reaches.mono {ok' : World I α → Act I → Prop} (h : ∀ w a, ok w a → ok' w a)
    (hr : Reaches body honest ok s₀ s) : Reaches body honest ok' s₀ s := by
  induction hr with
  | refl => exact .refl
  | tail _ hok hs ih => exact .tail ih (h _ _ hok) hs

theorem reaches_of_runIf {ok : World I α → Act I → Bool} {s₁ : Timed I α} :
    ∀ {as : List (Nat × Act I)} {s : Timed I α},
      Reaches body honest (fun w a => ok w a = true) s₀ s →
      s.runIf body honest ok as = some s₁ → Reaches body honest (fun w a => ok w a = true) s₀ s₁
  | [], s, hr, h => by
      obtain rfl := Option.some.inj h
      exact hr
  | (d, a) :: as, s, hr, h => by
      rw [runIf] at h
      split at h
      case isFalse => cases h
      case isTrue hok =>
        split at h
        · rename_i s' hs
          exact reaches_of_runIf (.tail hr hok hs) h
        · cases h

/-- What a computed run shows of its end is so somewhere. -/
theorem reaches_of_anyIf {ok : World I α → Act I → Bool} {as : List (Nat × Act I)}
    {check : Timed I α → Bool} (h : (s₀.runIf body honest ok as).any check = true) :
    ∃ s, Reaches body honest (fun w a => ok w a = true) s₀ s ∧ check s = true := by
  obtain ⟨s, hs, hc⟩ := (Option.any_eq_true _ _).mp h
  exact ⟨s, reaches_of_runIf .refl hs, hc⟩

/-- A sleep that is not cancelled ends no sooner than it should. -/
theorem napTime_le_of_allows {now t : Nat} {th : Thread I} {n : UInt32}
    (h : s.allows honest now (.thr t .ok) = true) (hth : s.world.thread? t = some th)
    (hcan : th.cancelled = false) (hnap : s.world.nap t = some n) :
    s.since t + napTime n ≤ now := by
  have hall : (th.cancelled || (s.world.nap t).all fun n => decide (s.since t + napTime n ≤ now)) =
      true := by
    rw [allows, hth] at h
    exact h
  rw [hcan, hnap, Bool.false_or, Option.all_some] at hall
  exact of_decide_eq_true hall

/-- A timed run is a run. -/
theorem Reaches.untimed (h : Reaches body honest ok s₀ s) :
    Posix.Reaches body ok s₀.world s.world := by
  induction h with
  | refl => exact .refl
  | tail _ hok hs ih =>
      obtain ⟨w', -, hw', rfl⟩ := step_cases hs
      exact .tail ih hok hw'

end Timed

/-! ## The record of process 1 -/

section
variable {body : Nat → I.Start → Prog (Sys I) Ret Unit} {w w' : World I α} {a : Act I}

/-- What a step adds to the record of process 1. -/
theorem firstLog_step (hn : w.Numbered) (hfirst : (w.procs 1).isSome)
    (h : w.step body a = some w') :
    w'.firstLog = w.firstLog ∨ ∃ o e, a = .sys 1 o ∧ w.nextEvent 1 o = some e ∧
      w'.firstLog = w.firstLog ++ [e] := by
  obtain ⟨q, hq⟩ := Option.isSome_iff_exists.mp hfirst
  obtain ⟨q', hq', hf⟩ := step_fate hn h hq
  have hold : w.firstLog = q.loc.log := by rw [World.firstLog, hq]
  have hnew : w'.firstLog = q'.loc.log := by rw [World.firstLog, hq']
  rw [hold, hnew]
  cases hf with
  | kept hk => exact Or.inl (by rw [hk.loc])
  | exec _ _ _ _ hx => exact Or.inl (by rw [hx])
  | call ha _ hc hreply hl _ _ _ =>
      exact Or.inr ⟨_, _, ha, nextEvent_eq hq hc hreply, by rw [hl, Local.after_log]⟩

end

namespace Timed

variable {body : Nat → I.Start → Prog (Sys I) Ret Unit} {honest : (q : I.Ask) → I.Ans q → Nat → Bool}
  {ok : World I α → Act I → Prop} {s₀ s s' : Timed I α} {d : Nat} {a : Act I}

/-- The record is that of process 1, in the order of the clock. -/
structure Recorded (honest : (q : I.Ask) → I.Ans q → Nat → Bool) (s : Timed I α) : Prop where
  events : s.record.map Prod.fst = s.world.firstLog
  order : s.record.Pairwise fun x y => x.2 ≤ y.2
  past : ∀ {e c}, (e, c) ∈ s.record → c ≤ s.clock
  honest : ∀ {q r c}, ((⟨.ask q, r⟩, c) : Event I × Nat) ∈ s.record → honest q r c = true

/-- What a step adds to the record. -/
theorem record_step (hn : s.world.Numbered) (hfirst : (s.world.procs 1).isSome)
    (h : s.step body honest d a = some s') :
    (s'.record = s.record ∧ s'.world.firstLog = s.world.firstLog) ∨
      ∃ o e, a = .sys 1 o ∧ s.world.nextEvent 1 o = some e ∧
        s'.record = s.record ++ [(e, s'.clock)] ∧
        s'.world.firstLog = s.world.firstLog ++ [e] := by
  obtain ⟨w', -, hw', rfl⟩ := step_cases h
  rcases firstLog_step hn hfirst hw' with heq | ⟨o, e, ha, he, heq⟩
  · exact Or.inl ⟨by simp [after, heq], heq⟩
  · exact Or.inr ⟨o, e, ha, he, by simp [after, heq], heq⟩

/-- The next event of process 1 is recorded at its time. -/
theorem record_logged (hn : s.world.Numbered) (hfirst : (s.world.procs 1).isSome)
    {o : Outcome I} {e : Event I} (h : s.step body honest d (.sys 1 o) = some s')
    (he : s.world.nextEvent 1 o = some e) : (e, s'.clock) ∈ s'.record := by
  obtain ⟨w', -, hw', rfl⟩ := step_cases h
  obtain ⟨q, hq⟩ := Option.isSome_iff_exists.mp hfirst
  obtain ⟨q', hq', hlog⟩ := step_logged hn hw' hq he
  have hgrown : w'.firstLog = s.world.firstLog ++ [e] := by
    rw [World.firstLog, World.firstLog, hq, hq']
    exact hlog
  simp [after, hgrown]

/-- A sleep that ends as it should has ended, and its thread has not. -/
theorem naps_of_wakes {w w' : World I α} {t : Nat} (h : wakes w w' t a = true) :
    (w.nap t).isSome ∧ (w'.nap t).isNone ∧ (w'.thread? t).isSome := by
  cases a with
  | thr t' o =>
      cases o with
      | ok =>
          simp only [wakes, Bool.and_eq_true] at h
          refine ⟨h.1.1.2, h.1.2, ?_⟩
          obtain ⟨th, hth, -⟩ := (Option.any_eq_true _ _).mp h.2
          rw [hth]
          rfl
      | fail | answer => cases h
  | sys | kill | stop | cont | quit | regroup | drain => cases h

theorem recorded_step (hn : s.world.Numbered) (hfirst : (s.world.procs 1).isSome)
    (h : s.step body honest d a = some s') (hs : Recorded honest s) : Recorded honest s' := by
  have hclock : s.clock ≤ s'.clock := by
    obtain ⟨w', -, -, rfl⟩ := step_cases h
    exact Nat.le_add_right _ _
  rcases record_step hn hfirst h with ⟨hrec, hlog⟩ | ⟨o, e, rfl, he, hrec, hlog⟩
  · refine ⟨by rw [hrec, hlog, hs.events], by rw [hrec]; exact hs.order, ?_, ?_⟩
    · intro e c hm
      exact (hs.past (hrec ▸ hm)).trans hclock
    · intro q r c hm
      exact hs.honest (hrec ▸ hm)
  · refine ⟨by rw [hrec, hlog, List.map_append, hs.events]; rfl, ?_, ?_, ?_⟩
    · rw [hrec]
      refine List.pairwise_append.mpr ⟨hs.order, List.pairwise_singleton _ _, ?_⟩
      rintro ⟨e₁, c₁⟩ h₁ y hy
      rw [List.mem_singleton.mp hy]
      exact (hs.past h₁).trans hclock
    · intro e₁ c₁ hm
      rw [hrec] at hm
      rcases List.mem_append.mp hm with hm | hm
      · exact (hs.past hm).trans hclock
      · cases List.mem_singleton.mp hm
        exact Nat.le_refl _
    · intro q r c hm
      rw [hrec] at hm
      rcases List.mem_append.mp hm with hm | hm
      · exact hs.honest hm
      · cases List.mem_singleton.mp hm
        obtain ⟨w', hallows, -, rfl⟩ := step_cases h
        simpa [allows, he, after] using hallows

/-! ## Who was killed by a thread that had slept -/

/-- Process `j` is dead of `SIGKILL`. -/
def Felled (w : World I α) (j : Nat) : Prop :=
  ∃ q, w.procs j = some q ∧
    (q.mode = .zombie (killStatus 9 false) ∨ q.mode = .reaped (killStatus 9 false))

/-- A process that was killed at time `τ` is dead of it, and waited for, if ever,
no sooner. -/
structure KilledAt (s : Timed I α) (j τ : Nat) : Prop where
  past : τ ≤ s.clock
  felled : Felled s.world j
  awaited : ∀ {u st c}, ((⟨.waitpid j u, some st⟩, c) : Event I × Nat) ∈ s.record →
    wifstopped st = false → τ ≤ c

/-- A process that a thread that had slept has just killed. -/
structure NewKill (s s' : Timed I α) (a : Act I) (j t : Nat) : Prop where
  act : ∃ o, a = .thr t o
  slept : s.slept t = true
  alive : s.world.lives j = true
  dead : s'.world.lives j = false

/-- How a kill comes to be remembered. -/
theorem killed_step (h : s.step body honest d a = some s') {j τ : Nat}
    (hk : s'.killed j = some τ) :
    s.killed j = some τ ∨ (τ = s'.clock ∧ ∃ t, NewKill s s' a j t) := by
  obtain ⟨w', -, -, rfl⟩ := step_cases h
  simp only [after] at hk
  split at hk
  case isFalse => exact Or.inl hk
  case isTrue hdies =>
    simp only [Bool.and_eq_true, Bool.not_eq_true'] at hdies
    cases a with
    | thr t o =>
        simp only at hk
        split at hk
        case isFalse => cases hk
        case isTrue hslept =>
          exact Or.inr ⟨(Option.some.inj hk).symm, t, ⟨o, rfl⟩, hslept, hdies.1, hdies.2⟩
    | sys i o | kill i sig core | stop i sig | cont i | quit i code | regroup i g | drain i id =>
        cases hk

theorem NewKill.felled {j t : Nat} (hn : s.world.Numbered) (h : s.step body honest d a = some s')
    (hk : NewKill s s' a j t) : Felled s'.world j := by
  obtain ⟨w', -, hw', rfl⟩ := step_cases h
  obtain ⟨q, hq, halive⟩ := (Option.any_eq_true _ _).mp hk.alive
  obtain ⟨q', hq', hmode⟩ := step_mode hn hw' hq
  have hdead : q'.mode.alive = false := by
    have hlives := hk.dead
    simp only [World.lives, after, hq', Option.any_some] at hlives
    exact hlives
  obtain ⟨o, ha⟩ := hk.act
  refine ⟨q', hq', Or.inl ?_⟩
  generalize q'.mode = m' at hmode hdead
  cases hmode with
  | same => rw [halive] at hdead; cases hdead
  | exec => cases hdead
  | ended st _ hst => rw [hst ⟨t, o, ha⟩]
  | reaped hz => rw [hz] at halive; cases halive

/-- **What is remembered of a kill stays true.** -/
theorem killedAt_step {t : FdTable} {p₀ : Prog (Sys I) Ret α} {pgid : Nat}
    (hr : Posix.Reaches body ok (init t p₀ pgid) s.world) (hs : Recorded honest s)
    (h : s.step body honest d a = some s') {j τ : Nat}
    (hold : s.killed j = some τ → KilledAt s j τ) (hk : s'.killed j = some τ) :
    KilledAt s' j τ := by
  have hclock : s.clock ≤ s'.clock := by
    obtain ⟨w', -, -, rfl⟩ := step_cases h
    exact Nat.le_add_right _ _
  have hstep : s.world.step body a = some s'.world := by
    obtain ⟨w', -, hw', rfl⟩ := step_cases h
    exact hw'
  rcases killed_step h hk with hkept | ⟨rfl, t', hnew⟩
  · obtain ⟨hpast, ⟨q, hq, hm⟩, hawaited⟩ := hold hkept
    refine ⟨hpast.trans hclock, dead_step hr.numbered hstep hq hm, ?_⟩
    intro u st c hmem hst
    rcases record_step hr.numbered hr.first h with ⟨hrec, -⟩ | ⟨o, e, -, -, hrec, -⟩
    · exact hawaited (hrec ▸ hmem) hst
    · rw [hrec] at hmem
      rcases List.mem_append.mp hmem with hmem | hmem
      · exact hawaited hmem hst
      · cases List.mem_singleton.mp hmem
        exact hpast.trans hclock
  · refine ⟨Nat.le_refl _, hnew.felled hr.numbered h, ?_⟩
    intro u st c hmem hst
    -- who has been waited for is not there to be killed
    obtain ⟨o, rfl⟩ := hnew.act
    rcases record_step hr.numbered hr.first h with ⟨hrec, -⟩ | ⟨o', e, ha, -⟩
    · obtain ⟨q₁, hq₁⟩ := Option.isSome_iff_exists.mp hr.first
      have hlog : (⟨.waitpid j u, some st⟩ : Event I) ∈ q₁.loc.log := by
        have hmem' := List.mem_map_of_mem (f := Prod.fst) (hrec ▸ hmem)
        rw [hs.events, World.firstLog, hq₁] at hmem'
        exact hmem'
      obtain ⟨p, hp, hreaped⟩ := hr.waited hq₁ hlog hst
      have halive := hnew.alive
      simp [World.lives, hp, hreaped, Mode.alive] at halive
    · cases ha

end Timed

end Posix
