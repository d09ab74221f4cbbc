/-
# `YaojJudger.Posix.Threads` — what a step does to the threads

Threads are numbered in the order in which they were created.  What a step can
do to them is said once:

    threadStep_cases    what a thread's own step can be
    step_threadOrigin   where a thread of the new world comes from
    step_threadCount    how many threads there are
    step_record         what is put on a record
    reaped_origin       who is reaped in the new world

A thread that is done stays so, and there is a new one only after
`pthread_create`.
-/
import YaojJudger.Posix.Record

namespace Posix

open World

variable {I : Iface} {α : Type} {body : Nat → I.Start → Prog (Sys I) Ret Unit} {w w' : World I α}
  {a : Act I}

/-- What thread `th` may be after a step of its own with outcome `o`. -/
inductive Stepped (th : Thread I) (o : Outcome I) : Thread I → Prop
  | ended : th.code = .ret () → Stepped th o { th with done := true }
  | cancelled {n : UInt32} {k : Bool → Prog (Sys I) Ret Unit} :
      th.code = .call (.sleep n) k → th.cancelled = true → Stepped th o { th with done := true }
  | detached {k : Bool → Prog (Sys I) Ret Unit} : th.code = .call .pthreadDetach k → o = .ok →
      Stepped th o { th with code := k true, detached := true }
  | attached {k : Bool → Prog (Sys I) Ret Unit} : th.code = .call .pthreadDetach k → o = .fail →
      Stepped th o { th with code := k false }
  | slept {n : UInt32} {k : Bool → Prog (Sys I) Ret Unit} (r : Bool) :
      th.code = .call (.sleep n) k → th.cancelled = false → (r = true ↔ o = .ok) →
      Stepped th o { th with code := k r }
  | shot {g : Nat} {k : Bool → Prog (Sys I) Ret Unit} (r : Bool) :
      th.code = .call (.killpg g) k → Stepped th o { th with code := k r }

/-- A thread stays with its process. -/
theorem Stepped.owner {th th' : Thread I} {o : Outcome I} (h : Stepped th o th') :
    th'.owner = th.owner := by
  cases h <;> rfl

theorem thread?_zero : w.thread? 0 = none := rfl

theorem thread?_eq_some {t : Nat} {th : Thread I} :
    w.thread? t = some th ↔ t ≠ 0 ∧ w.threads[t - 1]? = some th := by
  rw [thread?]
  by_cases ht : t = 0
  · simp [ht]
  · simp [ht]

theorem thread?_congr (h : w'.threads = w.threads) (t : Nat) : w'.thread? t = w.thread? t := by
  rw [thread?, thread?, h]

/-- Changing one thread. -/
theorem thread?_modify {t t' : Nat} (ht : t ≠ 0) {f : Thread I → Thread I}
    (h : w'.threads = w.threads.modify (t - 1) f) :
    w'.thread? t' = (w.thread? t').map fun th => if t' = t then f th else th := by
  by_cases ht' : t' = 0
  · subst ht'
    rfl
  · rw [thread?, thread?, if_neg ht', if_neg ht', h, List.getElem?_modify]
    have hiff : t - 1 = t' - 1 ↔ t' = t := by omega
    simp only [hiff]
    rfl

/-- What is put in place of an entry may depend on it. -/
theorem modify_congr {β : Type} {l : List β} {i : Nat} {b : β} {f g : β → β} (hb : l[i]? = some b)
    (h : f b = g b) : l.modify i f = l.modify i g := by
  refine List.ext_getElem? fun j => ?_
  rw [List.getElem?_modify, List.getElem?_modify]
  by_cases hij : i = j
  · subst hij
    simp [hb, h]
  · simp [hij]

/-- **What a thread's own step can be.** -/
theorem threadStep_cases {t : Nat} {o : Outcome I} (h : w.threadStep t o = some w') :
    ∃ th th', w.thread? t = some th ∧ th.done = false ∧ Stepped th o th' ∧
      w'.threads = w.threads.modify (t - 1) fun _ => th' := by
  have settle : ∀ {th : Thread I} {w₁ : World I α} {f : Thread I → Thread I},
      w.thread? t = some th → w₁.threads = w.threads → w' = w₁.updateThread t f →
      w'.threads = w.threads.modify (t - 1) fun _ => f th := by
    rintro th w₁ f hth hw₁ rfl
    rw [updateThread, hw₁]
    exact modify_congr (thread?_eq_some.mp hth).2 rfl
  simp only [threadStep] at h
  cases hth : w.thread? t with
  | none => simp [hth] at h
  | some th =>
      simp only [hth] at h
      split at h
      case isFalse => cases h
      case isTrue hrun =>
        refine ⟨th, ?_⟩
        split at h
        · rename_i hc
          exact ⟨_, rfl, hrun.1, .ended hc, settle hth rfl (Option.some.inj h).symm⟩
        · rename_i k hc
          exact ⟨_, rfl, hrun.1, .detached hc rfl, settle hth rfl (Option.some.inj h).symm⟩
        · rename_i k hc
          exact ⟨_, rfl, hrun.1, .attached hc rfl, settle hth rfl (Option.some.inj h).symm⟩
        · rename_i n k o hc
          split at h
          · rename_i hcan
            exact ⟨_, rfl, hrun.1, .cancelled hc hcan, settle hth rfl (Option.some.inj h).symm⟩
          · rename_i hcan
            have hcan : th.cancelled = false := by simpa using hcan
            split at h
            · exact ⟨_, rfl, hrun.1, .slept true hc hcan (by simp),
                settle hth rfl (Option.some.inj h).symm⟩
            · exact ⟨_, rfl, hrun.1, .slept false hc hcan (by simp),
                settle hth rfl (Option.some.inj h).symm⟩
            · cases h
        · rename_i g k hc
          split at h
          · exact ⟨_, rfl, hrun.1, .shot true hc,
              @settle _ (w.killGroup g) _ hth rfl (Option.some.inj h).symm⟩
          · cases h
        · rename_i g k hc
          exact ⟨_, rfl, hrun.1, .shot false hc, settle hth rfl (Option.some.inj h).symm⟩
        · cases h

/-- What a thread keeps while it makes no step. -/
structure Rests (th th' : Thread I) : Prop where
  code : th'.code = th.code
  done : th'.done = th.done
  owner : th'.owner = th.owner
  detached : th'.detached = th.detached

theorem Rests.refl (th : Thread I) : Rests th th := ⟨rfl, rfl, rfl, rfl⟩

/-- Where thread `t` of the world after act `a`, now `th'`, comes from. -/
inductive ThreadOrigin (body : Nat → I.Start → Prog (Sys I) Ret Unit) (w : World I α) (a : Act I)
    (t : Nat) (th' : Thread I) : Prop
  /-- it was there and made no step; a cancellation may have been sent to it -/
  | kept {th : Thread I} : w.thread? t = some th → Rests th th' →
      (th'.cancelled = th.cancelled ∨ (th'.cancelled = true ∧
        ∃ i o, a = .sys i o ∧ w.nextEvent i o = some ⟨.pthreadCancel t, true⟩)) →
      ThreadOrigin body w a t th'
  /-- it made a step -/
  | stepped {o : Outcome I} {th : Thread I} : a = .thr t o → w.thread? t = some th →
      th.done = false → Stepped th o th' → ThreadOrigin body w a t th'
  /-- it was created -/
  | born {i : Nat} {o : Outcome I} {p : Proc I α} {start : I.Start}
      {k : Ret (.pthreadCreate start : Sys I) → Prog (Sys I) Ret α} :
      a = .sys i o → w.procs i = some p → p.code = .call (.pthreadCreate start) k →
      w.reply i p.loc (.pthreadCreate start) o = some (some t) →
      th' = { owner := i, code := body t start, detached := false, cancelled := false,
              done := false } →
      ThreadOrigin body w a t th'

/-- A new thread has the next number. -/
theorem reply_create {i : Nat} {l : Local I} {start : I.Start} {o : Outcome I} {t : Nat}
    (h : w.reply i l (.pthreadCreate start) o = some (some t)) : t = w.threads.length + 1 := by
  cases o with
  | ok => exact (Option.some.inj (Option.some.inj h)).symm
  | fail => cases Option.some.inj h
  | answer f => cases h

/-- Only a thread can be cancelled. -/
theorem reply_cancel {i : Nat} {l : Local I} {o : Outcome I} {t : Nat}
    (h : w.reply i l (.pthreadCancel t) o = some true) : t ≠ 0 := by
  rintro rfl
  cases o with
  | ok => exact absurd h (by simp [reply, thread?_zero])
  | fail => cases Option.some.inj h
  | answer f => cases h

/-- The threads after a call. -/
theorem threadOrigin_afterCall {i : Nat} {o : Outcome I} {p : Proc I α} {c : Sys I}
    {k : Ret c → Prog (Sys I) Ret α} {r : Ret c} (hp : w.procs i = some p)
    (hc : p.code = .call c k) (hr : w.reply i p.loc c o = some r) {t : Nat} {th' : Thread I}
    (h : (w.afterCall body i p c k r).thread? t = some th') :
    ThreadOrigin body w (.sys i o) t th' := by
  have same : (w.afterCall body i p c k r).threads = w.threads →
      ThreadOrigin body w (.sys i o) t th' := by
    intro heq
    rw [thread?_congr heq] at h
    exact .kept h (.refl _) (Or.inl rfl)
  cases c with
  | pthreadCreate start =>
      cases r with
      | none => exact same rfl
      | some t₀ =>
          obtain rfl := reply_create hr
          obtain ⟨ht, hget⟩ := thread?_eq_some.mp h
          change (w.threads ++ [_])[t - 1]? = some th' at hget
          rcases Nat.lt_trichotomy (t - 1) w.threads.length with hlt | heq | hgt
          · rw [List.getElem?_append_left hlt] at hget
            exact .kept (thread?_eq_some.mpr ⟨ht, hget⟩) (.refl _) (Or.inl rfl)
          · rw [heq, List.getElem?_concat_length] at hget
            obtain rfl := Option.some.inj hget
            obtain rfl : w.threads.length + 1 = t := by omega
            exact .born rfl hp hc hr rfl
          · rw [List.getElem?_eq_none (by rw [List.length_append, List.length_singleton]; omega)]
              at hget
            cases hget
  | pthreadCancel t₀ =>
      cases r with
      | false => exact same rfl
      | true =>
          rw [thread?_modify (reply_cancel hr) rfl] at h
          obtain ⟨th, hth, rfl⟩ := Option.map_eq_some_iff.mp h
          by_cases ht : t = t₀
          · subst ht
            rw [if_pos rfl]
            exact .kept hth ⟨rfl, rfl, rfl, rfl⟩
              (Or.inr ⟨rfl, i, o, rfl, nextEvent_eq hp hc hr⟩)
          · rw [if_neg ht]
            exact .kept hth (.refl _) (Or.inl rfl)
  | _ => exact same rfl

/-- **Where the threads of a new world come from.** -/
theorem step_threadOrigin (h : w.step body a = some w') {t : Nat} {th' : Thread I}
    (ht : w'.thread? t = some th') : ThreadOrigin body w a t th' := by
  cases a with
  | sys i o =>
      obtain ⟨p, hp, -, -, hcase⟩ := sysStep_cases h
      rcases hcase with ⟨n, -, rfl⟩ | ⟨c, k, -, -, rfl⟩ | ⟨c, k, r, hc, -, hr, rfl⟩
      · exact .kept ht (.refl _) (Or.inl rfl)
      · exact .kept ht (.refl _) (Or.inl rfl)
      · exact threadOrigin_afterCall hp hc hr ht
  | thr n o =>
      obtain ⟨th, th₁, hth, hdone, hs, hthreads⟩ := threadStep_cases h
      rw [thread?_modify (thread?_eq_some.mp hth).1 hthreads] at ht
      obtain ⟨th₀, hth₀, rfl⟩ := Option.map_eq_some_iff.mp ht
      by_cases htn : t = n
      · subst htn
        obtain rfl := Option.some.inj (hth.symm.trans hth₀)
        rw [if_pos rfl]
        exact .stepped rfl hth hdone hs
      · rw [if_neg htn]
        exact .kept hth₀ (.refl _) (Or.inl rfl)
  | kill i sig core | stop i sig | cont i | quit i code | regroup i g | drain i id =>
      simp only [step] at h
      split at h
      case isFalse => cases h
      case isTrue =>
        obtain rfl := Option.some.inj h
        exact .kept ht (.refl _) (Or.inl rfl)

/-- What the next event of a process is the result of. -/
theorem nextEvent_call {i : Nat} {o : Outcome I} {e : Event I} (h : w.nextEvent i o = some e) :
    ∃ p c k r, w.procs i = some p ∧ p.code = .call c k ∧ w.reply i p.loc c o = some r ∧
      e = ⟨c, r⟩ := by
  rw [World.nextEvent] at h
  cases hp : w.procs i with
  | none => rw [hp] at h; cases h
  | some p =>
      rw [hp] at h
      cases hc : p.code with
      | ret a => simp only [hc] at h; cases h
      | exit n => simp only [hc] at h; cases h
      | call c k =>
          simp only [hc] at h
          obtain ⟨r, hr, rfl⟩ := Option.map_eq_some_iff.mp h
          exact ⟨p, c, k, r, rfl, hc, hr, rfl⟩

/-- The world after the next event. -/
theorem step_afterCall {i : Nat} {o : Outcome I} {c : Sys I} {r : Ret c}
    (h : w.step body (.sys i o) = some w') (he : w.nextEvent i o = some ⟨c, r⟩) :
    ∃ p k, w.procs i = some p ∧ p.code = .call c k ∧ w.reply i p.loc c o = some r ∧
      w' = w.afterCall body i p c k r := by
  obtain ⟨p, c', k, r', hp, hc, hr, heq⟩ := nextEvent_call he
  cases heq
  obtain ⟨p₁, hp₁, -, -, hcase⟩ := sysStep_cases h
  obtain rfl := Option.some.inj (hp.symm.trans hp₁)
  rcases hcase with ⟨n, hc', -⟩ | ⟨c', k', hc', hx, -⟩ | ⟨c', k', r', hc', -, hr', rfl⟩
  · cases hc.symm.trans hc'
  · cases hc.symm.trans hc'
    cases c with
    | execve path argv env =>
        cases o with
        | ok => cases hr
        | fail | answer => cases hx
    | _ => cases hx
  · cases hc.symm.trans hc'
    obtain rfl := Option.some.inj (hr.symm.trans hr')
    exact ⟨p, k, hp, hc, hr, rfl⟩

/-- **How many threads there are after a step**: one more after `pthread_create`. -/
theorem step_threadCount (h : w.step body a = some w') :
    (w'.threads.length = w.threads.length ∧
      ∀ i o start t, a = .sys i o → w.nextEvent i o ≠ some ⟨.pthreadCreate start, some t⟩) ∨
    ∃ i o start, a = .sys i o ∧
      w.nextEvent i o = some ⟨.pthreadCreate start, some (w.threads.length + 1)⟩ ∧
      w'.threads.length = w.threads.length + 1 := by
  by_cases hborn : ∃ i o start t, a = .sys i o ∧
      w.nextEvent i o = some ⟨.pthreadCreate start, some t⟩
  · obtain ⟨i, o, start, t, rfl, he⟩ := hborn
    obtain ⟨p, k, hp, -, hr, rfl⟩ := step_afterCall h he
    obtain rfl := reply_create hr
    refine Or.inr ⟨i, o, start, rfl, he, ?_⟩
    show (w.threads ++ [_]).length = _
    rw [List.length_append, List.length_singleton]
  · have hnone : ∀ i o start t, a = .sys i o →
        w.nextEvent i o ≠ some ⟨.pthreadCreate start, some t⟩ :=
      fun i o start t ha he => hborn ⟨i, o, start, t, ha, he⟩
    refine Or.inl ⟨?_, hnone⟩
    cases a with
    | sys i o =>
        obtain ⟨p, hp, -, -, hcase⟩ := sysStep_cases h
        rcases hcase with ⟨n, -, rfl⟩ | ⟨c, k, -, -, rfl⟩ | ⟨c, k, r, hc, -, hr, rfl⟩
        · rfl
        · rfl
        · show (w.threadsAfter body i c r).length = _
          unfold threadsAfter
          split
          · exact absurd (nextEvent_eq hp hc hr) (hnone i o _ _ rfl)
          · rw [List.length_modify]
          · rfl
    | thr n o =>
        obtain ⟨th, th', -, -, -, hthreads⟩ := threadStep_cases h
        rw [hthreads, List.length_modify]
    | kill i sig core | stop i sig | cont i | quit i code | regroup i g | drain i id =>
        simp only [step] at h
        split at h
        case isFalse => cases h
        case isTrue =>
          obtain rfl := Option.some.inj h
          rfl

/-- Threads do not disappear. -/
theorem threads_length_step (h : w.step body a = some w') :
    w.threads.length ≤ w'.threads.length := by
  rcases step_threadCount h with ⟨heq, -⟩ | ⟨_, _, _, -, -, heq⟩
  · exact heq.ge
  · rw [heq]
    exact Nat.le_succ _

theorem thread?_isSome {t : Nat} : (w.thread? t).isSome ↔ t ≠ 0 ∧ t ≤ w.threads.length := by
  rw [thread?]
  by_cases ht : t = 0
  · simp [ht]
  · rw [if_neg ht, isSome_getElem?]
    omega

theorem thread?_step (h : w.step body a = some w') {t : Nat} (ht : (w.thread? t).isSome) :
    (w'.thread? t).isSome := by
  rw [thread?_isSome] at ht ⊢
  exact ⟨ht.1, ht.2.trans (threads_length_step h)⟩

/-- Is every thread done? -/
def World.idle (w : World I α) : Bool := w.threads.all Thread.done

theorem idle_iff : w.idle = true ↔ ∀ t th, w.thread? t = some th → th.done = true := by
  rw [World.idle, List.all_eq_true]
  constructor
  · intro h t th hth
    exact h th (List.mem_of_getElem? (thread?_eq_some.mp hth).2)
  · intro h th hmem
    obtain ⟨n, hn⟩ := List.mem_iff_getElem?.mp hmem
    exact h (n + 1) th (thread?_eq_some.mpr ⟨Nat.succ_ne_zero n, hn⟩)

/-- Threads that are done stay done, and a new one comes from `pthread_create`. -/
theorem idle_step (h : w.step body a = some w') (hw : w.idle = true) :
    w'.idle = true ∨ ∃ i o start t, a = .sys i o ∧
      w.nextEvent i o = some ⟨.pthreadCreate start, some t⟩ := by
  by_cases hborn : ∃ i o start t, a = .sys i o ∧
      w.nextEvent i o = some ⟨.pthreadCreate start, some t⟩
  · exact Or.inr hborn
  · refine Or.inl (idle_iff.mpr fun t th' ht => ?_)
    cases step_threadOrigin h ht with
    | kept hth hk _ => exact hk.done.trans (idle_iff.mp hw _ _ hth)
    | stepped _ hth hdone _ => exact absurd (idle_iff.mp hw _ _ hth) (by simp [hdone])
    | born ha hp hc hr _ => exact absurd ⟨_, _, _, _, ha, nextEvent_eq hp hc hr⟩ hborn

/-- The next event is put on the record. -/
theorem step_logged (hn : w.Numbered) {i : Nat} {o : Outcome I} {e : Event I} {q : Proc I α}
    (h : w.step body (.sys i o) = some w') (hq : w.procs i = some q)
    (he : w.nextEvent i o = some e) :
    ∃ q', w'.procs i = some q' ∧ q'.loc.log = q.loc.log ++ [e] := by
  obtain ⟨p, k, hp, -, hr, rfl⟩ := step_afterCall h he
  obtain rfl := Option.some.inj (hq.symm.trans hp)
  obtain ⟨q', hq', hl⟩ := afterCall_self hn hq hr
  exact ⟨q', hq', by rw [hl, Local.after_log]⟩

/-- **What a step puts on the record** of a process: nothing, or its next event. -/
theorem step_record (hn : w.Numbered) (h : w.step body a = some w') {j : Nat} {q : Proc I α}
    (hq : w.procs j = some q) :
    ∃ q', w'.procs j = some q' ∧ (q'.loc.log = q.loc.log ∨ ∃ o e, a = .sys j o ∧
      w.nextEvent j o = some e ∧ q'.loc.log = q.loc.log ++ [e]) := by
  obtain ⟨q', hq', hf⟩ := step_fate hn h hq
  refine ⟨q', hq', ?_⟩
  cases hf with
  | kept hk => exact Or.inl (by rw [hk.loc])
  | exec _ _ _ _ hx => exact Or.inl (by rw [hx])
  | call ha _ hc hr hl _ _ _ =>
      exact Or.inr ⟨_, _, ha, nextEvent_eq hq hc hr, by rw [hl, Local.after_log]⟩

/-- Has the process been waited for? -/
def Mode.gone : Mode → Bool
  | .reaped _ => true
  | _ => false

/-- Would `waitpid` reap it? -/
def Mode.ended : Mode → Bool
  | .zombie _ => true
  | _ => false

/-- The process that the call of `e` reaps. -/
def World.reaps (w : World I α) : Event I → Option Nat
  | ⟨.waitpid n _, some _⟩ => if (w.procs n).any (fun q => q.mode.ended) then some n else none
  | _ => none

/-- What a step makes of the mode `m` of process `j`. -/
inductive ModeChange (w : World I α) (a : Act I) (j : Nat) (m : Mode) : Mode → Prop
  | same : ModeChange w a j m m
  | exec : m = .code → ModeChange w a j m .program
  /-- it ends; a thread ends it by `SIGKILL` -/
  | ended (st : Nat) : m.alive = true → ((∃ t o, a = .thr t o) → st = killStatus 9 false) →
      ModeChange w a j m (.zombie st)
  | reaped {i st : Nat} {o : Outcome I} {e : Event I} : m = .zombie st → a = .sys i o →
      w.nextEvent i o = some e → w.reaps e = some j → ModeChange w a j m (.reaped st)

theorem modeChange_terminated {j st : Nat} (q : Proc I α)
    (hst : (∃ t o, a = .thr t o) → st = killStatus 9 false) :
    ModeChange w a j q.mode (q.terminated st).mode := by
  rw [Proc.terminated]
  split
  case isTrue halive => exact .ended st halive hst
  case isFalse => exact .same

theorem modeChange_hit {g j : Nat} (q : Proc I α) : ModeChange w a j q.mode (q.hit g).mode := by
  rw [Proc.hit]
  split
  · exact modeChange_terminated q fun _ => rfl
  · exact .same

theorem modeChange_touch {i j : Nat} {o : Outcome I} {c : Sys I} {r : Ret c} {q : Proc I α}
    (hq : w.procs j = some q) (he : w.nextEvent i o = some ⟨c, r⟩) :
    ModeChange w (.sys i o) j q.mode (touch i c r j q).mode := by
  cases c with
  | setpgid =>
      cases r with
      | false => exact .same
      | true =>
          simp only [touch]
          split <;> exact .same
  | waitpid pid u =>
      cases r with
      | none => exact .same
      | some st =>
          simp only [touch]
          split
          · rename_i hpid
            subst hpid
            rw [Proc.awaited]
            split
            · rename_i st' hm
              exact .reaped hm rfl he (by simp [World.reaps, hq, hm, Mode.ended])
            · exact .same
          · exact .same
  | killpg g =>
      cases r with
      | false => exact .same
      | true => exact modeChange_hit q
  | _ => exact .same

/-- A call leaves a process in the mode in which it leaves it by what it touches. -/
theorem afterCall_mode (hn : w.Numbered) {i j : Nat} {o : Outcome I} {p q : Proc I α} {c : Sys I}
    {k : Ret c → Prog (Sys I) Ret α} {r : Ret c} (hq : w.procs j = some q)
    (hr : w.reply i p.loc c o = some r) :
    ∃ q', (w.afterCall body i p c k r).procs j = some q' ∧ q'.mode = (touch i c r j q).mode := by
  have hold : ∃ q', w.procsAfter i p c k r j = some q' ∧ q'.mode = (touch i c r j q).mode := by
    rw [procsAfter, hq]
    refine ⟨_, rfl, ?_⟩
    split <;> rfl
  simp only [afterCall]
  cases hch : childOf i p c k r with
  | none => exact hold
  | some cq =>
      obtain ⟨child, q₀⟩ := cq
      have hchild : child = w.next := by
        cases c with
        | fork =>
            rcases reply_fork hr with rfl | rfl
            · exact (Prod.mk.inj (Option.some.inj hch)).1.symm
            · cases hch
        | _ => cases hch
      have hlt := hn.lt_next hq
      have hne : j ≠ child := by omega
      simp only [if_neg hne]
      exact hold

/-- **What a step makes of a process's mode.** -/
theorem step_mode (hn : w.Numbered) (h : w.step body a = some w') {j : Nat} {q : Proc I α}
    (hq : w.procs j = some q) :
    ∃ q', w'.procs j = some q' ∧ ModeChange w a j q.mode q'.mode := by
  -- an act that changes processes in place
  have inPlace : ∀ {f : Nat → Proc I α → Proc I α}, ModeChange w a j q.mode (f j q).mode →
      w'.procs = (w.mapProcs f).procs →
      ∃ q', w'.procs j = some q' ∧ ModeChange w a j q.mode q'.mode := by
    intro f hf heq
    exact ⟨f j q, by rw [heq, mapProcs_procs, hq]; rfl, hf⟩
  have atOne : ∀ {i : Nat} {f : Proc I α → Proc I α}, (j = i → ModeChange w a j q.mode (f q).mode) →
      w' = w.update i f → ∃ q', w'.procs j = some q' ∧ ModeChange w a j q.mode q'.mode := by
    rintro i f hf rfl
    refine inPlace (f := fun j q => if j = i then f q else q) ?_ rfl
    split
    · exact hf ‹_›
    · exact .same
  cases a with
  | sys i o =>
      obtain ⟨p, hp, hm, -, hcase⟩ := sysStep_cases h
      rcases hcase with ⟨n, -, rfl⟩ | ⟨c, k, -, -, rfl⟩ | ⟨c, k, r, hc, -, hr, rfl⟩
      · exact atOne (fun _ => modeChange_terminated q (by rintro ⟨_, _, h⟩; cases h)) rfl
      · refine atOne (fun hj => ?_) rfl
        subst hj
        obtain rfl := Option.some.inj (hp.symm.trans hq)
        exact .exec hm
      · obtain ⟨q', hq', hmode⟩ : ∃ q', (w.afterCall body i p c k r).procs j = some q' ∧
            q'.mode = (touch i c r j q).mode := afterCall_mode hn hq hr
        exact ⟨q', hq', hmode ▸ modeChange_touch hq (nextEvent_eq hp hc hr)⟩
  | thr t o =>
      obtain ⟨-, -, hprocs | ⟨g, hprocs⟩⟩ := threadStep_procs h
      · exact ⟨q, by rw [hprocs, hq], .same⟩
      · exact inPlace (f := fun _ q => q.hit g) (modeChange_hit q) hprocs
  | kill i sig core =>
      simp only [step] at h
      split at h
      case isFalse => cases h
      case isTrue =>
        exact atOne (fun _ => modeChange_terminated q (by rintro ⟨_, _, h⟩; cases h))
          (Option.some.inj h).symm
  | quit i code =>
      simp only [step] at h
      split at h
      case isFalse => cases h
      case isTrue =>
        exact atOne (fun _ => modeChange_terminated q (by rintro ⟨_, _, h⟩; cases h))
          (Option.some.inj h).symm
  | stop i sig | cont i | regroup i g =>
      simp only [step] at h
      split at h
      case isFalse => cases h
      case isTrue =>
        refine atOne ?_ (Option.some.inj h).symm
        exact fun _ => .same
  | drain i id =>
      simp only [step] at h
      split at h
      case isFalse => cases h
      case isTrue =>
        obtain rfl := Option.some.inj h
        exact ⟨q, hq, .same⟩

/-- **Who is gone in the new world** was so before, unless this step is the
`waitpid` that reaps it. -/
theorem gone_origin (hn : w.Numbered) (h : w.step body a = some w') {j : Nat} {q' : Proc I α}
    (hj : w'.procs j = some q') (hgone : q'.mode.gone = true) :
    (∃ q, w.procs j = some q ∧ q.mode.gone = true) ∨
      ∃ i o e, a = .sys i o ∧ w.nextEvent i o = some e ∧ w.reaps e = some j := by
  have old : ∀ {q}, w.procs j = some q → (∃ q, w.procs j = some q ∧ q.mode.gone = true) ∨
      ∃ i o e, a = .sys i o ∧ w.nextEvent i o = some e ∧ w.reaps e = some j := by
    intro q hq
    obtain ⟨q₁, hq₁, hmode⟩ := step_mode hn h hq
    obtain rfl := Option.some.inj (hj.symm.trans hq₁)
    generalize hm : q'.mode = m' at hmode hgone
    cases hmode with
    | same => exact Or.inl ⟨q, hq, hgone⟩
    | exec | ended => cases hgone
    | reaped _ ha he hr => exact Or.inr ⟨_, _, _, ha, he, hr⟩
  cases step_procs h hj with
  | kept hq _ => exact old hq
  | exec _ hq => exact old hq
  | call _ hq => exact old hq
  | born _ _ _ _ _ _ _ _ hm => rw [hm] at hgone; cases hgone

/-- The dead keep their status. -/
theorem dead_step (hn : w.Numbered) (h : w.step body a = some w') {j st : Nat} {q : Proc I α}
    (hq : w.procs j = some q) (hm : q.mode = .zombie st ∨ q.mode = .reaped st) :
    ∃ q', w'.procs j = some q' ∧ (q'.mode = .zombie st ∨ q'.mode = .reaped st) := by
  obtain ⟨q', hq', hmode⟩ := step_mode hn h hq
  refine ⟨q', hq', ?_⟩
  generalize q'.mode = m' at hmode
  cases hmode with
  | same => exact hm
  | exec h => rw [h] at hm; rcases hm with hm | hm <;> cases hm
  | ended _ h => rcases hm with hm | hm <;> (rw [hm] at h; cases h)
  | reaped h _ _ _ =>
      rw [h] at hm
      rcases hm with hm | hm
      · cases hm; exact Or.inr rfl
      · cases hm

end Posix
