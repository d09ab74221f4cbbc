/-
# `YaojJudger.Posix.Record` — what the records tell of the world

A record is private to its process, but some of its events are about other
processes.  Three rules say what they tell, in every world reached:

    fork, parent c       there is a process c, whose record goes on from this
                         point with its own half of the `fork` (`forked`)
    waitpid c, status    process c has terminated with that status and is
                         waited for, or the status reports a stop (`waited`)
    no fork, parent      process 1 is the only one (`alone`)

And what is true of each call of process 1 when it is made stays true of its
record (`events`), since nobody inherits a record to process 1.
-/
import YaojJudger.Posix.Rules

namespace Posix

open World

variable {I : Iface} {α : Type} {body : Nat → I.Start → Prog (Sys I) Ret Unit}
  {ok : World I α → Act I → Prop} {w w' : World I α} {a : Act I}
  {t : FdTable} {p₀ : Prog (Sys I) Ret α} {pgid : Nat}

/-! ## Process 1 -/

/-- Process 1 is always there. -/
theorem Reaches.first (hr : Reaches body ok (init t p₀ pgid) w) : (w.procs 1).isSome := by
  induction hr with
  | refl => rfl
  | tail _ _ hs ih => exact step_isSome hs ih

/-- The event that process `i` adds to its record if its next call has outcome `o`. -/
def World.nextEvent (w : World I α) (i : Nat) (o : Outcome I) : Option (Event I) :=
  match w.procs i with
  | none => none
  | some p =>
      match p.code with
      | .call c _ => (w.reply i p.loc c o).map fun r => ⟨c, r⟩
      | .ret _ | .exit _ => none

theorem nextEvent_eq {i : Nat} {o : Outcome I} {p : Proc I α} {c : Sys I}
    {k : Ret c → Prog (Sys I) Ret α} {r : Ret c} (hp : w.procs i = some p) (hc : p.code = .call c k)
    (hr : w.reply i p.loc c o = some r) : w.nextEvent i o = some ⟨c, r⟩ := by
  simp only [World.nextEvent, hp, hc, hr, Option.map_some]

/-- What holds of each call of process 1 when it is made holds of its record. -/
theorem Reaches.events {P : Event I → Prop} (hr : Reaches body ok (init t p₀ pgid) w)
    (hP : ∀ {w o p c k r}, Reaches body ok (init t p₀ pgid) w → ok w (.sys 1 o) →
      w.procs 1 = some p → p.code = .call c k → w.reply 1 p.loc c o = some r → P ⟨c, r⟩)
    {q : Proc I α} (hq : w.procs 1 = some q) : ∀ e ∈ q.loc.log, P e := by
  induction hr generalizing q with
  | refl =>
      intro e he
      rw [(init_procs hq).2.1] at he
      exact absurd he List.not_mem_nil
  | @tail w w' a hr hok hs ih =>
      intro e he
      obtain ⟨q₀, hq₀⟩ := Option.isSome_iff_exists.mp hr.first
      obtain ⟨q', hq', hf⟩ := step_fate hr.numbered hs hq₀
      obtain rfl := Option.some.inj (hq.symm.trans hq')
      cases hf with
      | kept hk => rw [hk.loc] at he; exact ih hq₀ e he
      | exec _ _ _ _ hx => rw [hx] at he; exact ih hq₀ e he
      | call ha _ hc hreply hl _ _ _ =>
          rw [hl, Local.after_log, List.mem_append] at he
          rcases he with he | he
          · exact ih hq₀ e he
          · obtain rfl := List.mem_singleton.mp he
            subst ha
            exact hP hr hok hq₀ hc hreply

/-- What holds of each event when it happens, and of what a child gets from `fork`,
holds of every record. -/
theorem Reaches.all_events {P : Event I → Prop} (hr : Reaches body ok (init t p₀ pgid) w)
    (hfork : ∀ self, P ⟨.fork, .child self⟩)
    (hP : ∀ {w i o e}, ok w (.sys i o) → w.nextEvent i o = some e → P e) :
    ∀ {j : Nat} {q : Proc I α}, w.procs j = some q → ∀ e ∈ q.loc.log, P e := by
  induction hr with
  | refl =>
      intro j q hq e he
      rw [(init_procs hq).2.1] at he
      exact absurd he List.not_mem_nil
  | @tail w w' a hr hok hs ih =>
      intro j q hq e he
      cases step_procs hs hq with
      | kept hq₀ hk => rw [hk.loc] at he; exact ih hq₀ e he
      | exec _ hq₀ _ _ _ hx => rw [hx] at he; exact ih hq₀ e he
      | call ha hq₀ _ hc hreply hl _ _ _ =>
          rw [hl, Local.after_log, List.mem_append] at he
          rcases he with he | he
          · exact ih hq₀ e he
          · obtain rfl := List.mem_singleton.mp he
            subst ha
            exact hP hok (nextEvent_eq hq₀ hc hreply)
      | born _ hq₀ _ _ _ _ hl _ _ _ _ =>
          rw [hl, Local.after_log, List.mem_append] at he
          rcases he with he | he
          · exact ih hq₀ e he
          · obtain rfl := List.mem_singleton.mp he
            exact hfork j

/-- A call that the world answers does not come back as a child. -/
theorem reply_born {i : Nat} {l : Local I} {c : Sys I} {o : Outcome I} {r : Ret c}
    (h : w.reply i l c o = some r) : (⟨c, r⟩ : Event I).born = none := by
  refine Event.born_eq_none ?_
  intro self he
  cases he
  rcases reply_fork h with h' | h' <;> cases h'

/-- Process 1 has no lineage. -/
theorem Reaches.lineage_first (hr : Reaches body ok (init t p₀ pgid) w) {q : Proc I α}
    (hq : w.procs 1 = some q) : lineage q.loc.log = [] :=
  lineage_eq_nil (hr.events (fun _ _ _ _ h => reply_born h) hq)

/-- The last of the lineage of any other process is the process itself. -/
theorem Reaches.lineage_last (hr : Reaches body ok (init t p₀ pgid) w) {j : Nat} {q : Proc I α}
    (hj : w.procs j = some q) (hne : j ≠ 1) : (lineage q.loc.log).getLast? = some j := by
  induction hr generalizing j q with
  | refl => exact absurd (init_procs hj).1 hne
  | tail hr _ hs ih =>
      cases step_procs hs hj with
      | kept hq hk => rw [hk.loc]; exact ih hq hne
      | exec _ hq _ _ _ he =>
          have hlast := ih hq hne
          rw [he]
          exact hlast
      | @call q₀ c k o r _ hq _ _ hreply hl _ _ _ =>
          have hnil : lineage [(⟨c, r⟩ : Event I)] = [] := by
            refine lineage_eq_nil ?_
            intro e he
            rw [List.mem_singleton.mp he]
            exact reply_born hreply
          rw [hl, Local.after_log, lineage_append, hnil, List.append_nil]
          exact ih hq hne
      | born _ _ _ _ _ _ hl _ _ _ _ =>
          rw [hl, Local.after_log, lineage_append, lineage_child]
          simp

/-- The forks of process 1 are what brings others into being. -/
theorem Reaches.alone (hr : Reaches body ok (init t p₀ pgid) w) {j : Nat} {p : Proc I α}
    (hj : w.procs j = some p) (hne : j ≠ 1) :
    ∃ q c, w.procs 1 = some q ∧ (⟨.fork, .parent c⟩ : Event I) ∈ q.loc.log := by
  induction hr generalizing j p with
  | refl => exact absurd (init_procs hj).1 hne
  | @tail w w' a hr hok hs ih =>
      have grown : (∃ q c, w.procs 1 = some q ∧ (⟨.fork, .parent c⟩ : Event I) ∈ q.loc.log) →
          ∃ q c, w'.procs 1 = some q ∧ (⟨.fork, .parent c⟩ : Event I) ∈ q.loc.log := by
        rintro ⟨q, c, hq, he⟩
        obtain ⟨q', hq', hf⟩ := step_fate hr.numbered hs hq
        exact ⟨q', c, hq', hf.log.subset he⟩
      rcases step_silent_or_call hs with hsil | ⟨i, o, p₁, c, k, r, -, hp₁, hc, hreply, rfl⟩
      · obtain ⟨q, hq, -⟩ := hsil.loc hj
        exact grown (ih hq hne)
      · by_cases hi : i = 1
        · subst hi
          cases hw : w.procs j with
          | some q => exact grown (ih hw hne)
          | none =>
              simp only [afterCall, procsAfter, hw] at hj
              cases hch : childOf 1 p₁ c k r with
              | none => simp [hch] at hj
              | some cq =>
                  cases c with
                  | fork =>
                      cases r with
                      | parent child =>
                          obtain ⟨q, hq, hl⟩ := afterCall_self hr.numbered hp₁ hreply
                          refine ⟨q, child, hq, ?_⟩
                          rw [hl, Local.after_log]
                          exact List.mem_append_right _ List.mem_cons_self
                      | failed | child self => cases hch
                  | _ => cases hch
        · exact grown (ih hp₁ hi)

/-! ## `waitpid` -/

/-- Who is waited for stays so. -/
theorem reaped_step (hn : w.Numbered) (h : w.step body a = some w') {j st : Nat} {q : Proc I α}
    (hq : w.procs j = some q) (hm : q.mode = .reaped st) :
    ∃ q', w'.procs j = some q' ∧ q'.mode = .reaped st := by
  obtain ⟨q', hq', hf⟩ := step_fate hn h hq
  refine ⟨q', hq', ?_⟩
  cases hf with
  | kept hk => exact hk.reaped hm
  | exec _ hc _ _ _ => cases hc.symm.trans hm
  | call _ hc _ _ _ _ _ _ => cases hc.symm.trans hm

/-- A status that reports no stop comes from a zombie. -/
theorem zombie_of_toReport {q : Proc I α} {u : Bool} {st : Nat} (h : q.toReport u = some st)
    (hst : wifstopped st = false) : q.mode = .zombie st := by
  unfold Proc.toReport at h
  split at h
  case h_1 hm => rw [hm, Option.some.inj h]
  case h_4 => cases h
  all_goals
    split at h
    · obtain rfl := Option.some.inj h
      rw [wifstopped_stopStatus] at hst
      cases hst
    · cases h

theorem reply_waitpid {i pid st : Nat} {u : Bool} {l : Local I} {o : Outcome I}
    (h : w.reply i l (.waitpid pid u) o = some (some st)) (hst : wifstopped st = false) :
    ∃ q, w.procs pid = some q ∧ q.mode = .zombie st := by
  cases o with
  | fail => cases h
  | answer f => cases h
  | ok =>
      simp only [reply] at h
      cases hq : w.procs pid with
      | none => simp [hq] at h
      | some q =>
          simp only [hq] at h
          split at h
          case isFalse => cases h
          case isTrue =>
            split at h
            case h_1 st' hst' =>
              obtain rfl := Option.some.inj (Option.some.inj h)
              exact ⟨q, rfl, zombie_of_toReport hst' hst⟩
            case h_2 => cases h

theorem reaped_waitpid {i pid st : Nat} {u : Bool} {p q : Proc I α}
    {k : Ret (.waitpid pid u : Sys I) → Prog (Sys I) Ret α} (hq : w.procs pid = some q)
    (hz : q.mode = .zombie st) :
    ∃ q', (w.afterCall body i p (.waitpid pid u) k (some st)).procs pid = some q' ∧
      q'.mode = .reaped st := by
  have htouch : (touch i (.waitpid pid u : Sys I) (some st) pid q).mode = .reaped st := by
    simp [touch, Proc.awaited, hz]
  simp only [afterCall, childOf, procsAfter, hq, Option.map_some]
  by_cases hi : pid = i
  · exact ⟨_, rfl, by simp [hi, ← htouch]⟩
  · exact ⟨_, rfl, by simp [hi, ← htouch]⟩

/-- **What `waitpid` has told**: the process has ended with that status and is
reaped, unless the status reports a stop. -/
theorem Reaches.waited (hr : Reaches body ok (init t p₀ pgid) w) {j pid st : Nat} {u : Bool}
    {q : Proc I α} (hj : w.procs j = some q)
    (he : (⟨.waitpid pid u, some st⟩ : Event I) ∈ q.loc.log) (hst : wifstopped st = false) :
    ∃ p, w.procs pid = some p ∧ p.mode = .reaped st := by
  induction hr generalizing j q with
  | refl =>
      rw [(init_procs hj).2.1] at he
      exact absurd he List.not_mem_nil
  | @tail w w' a hr hok hs ih =>
      have old : ∀ {j q}, w.procs j = some q → (⟨.waitpid pid u, some st⟩ : Event I) ∈ q.loc.log →
          ∃ p, w'.procs pid = some p ∧ p.mode = .reaped st := by
        intro j q hq he
        obtain ⟨p, hp, hm⟩ := ih hq he
        exact reaped_step hr.numbered hs hp hm
      rcases step_silent_or_call hs with hsil | ⟨i, o, p, c, k, r, -, hp, hc, hreply, rfl⟩
      · obtain ⟨q₀, hq₀, hl⟩ := hsil.loc hj
        exact old hq₀ (hl ▸ he)
      · rcases afterCall_loc hj with hl | ⟨q₀, hq₀, hl⟩ | ⟨self, hl⟩
        · rw [hl, Local.after_log, List.mem_append] at he
          rcases he with he | he
          · exact old hp he
          · cases List.mem_singleton.mp he
            obtain ⟨q₀, hq₀, hz⟩ := reply_waitpid hreply hst
            exact reaped_waitpid hq₀ hz
        · exact old hq₀ (hl ▸ he)
        · rw [hl, Local.after_log, List.mem_append] at he
          rcases he with he | he
          · exact old hp he
          · cases List.mem_singleton.mp he

/-! ## `fork` -/

/-- A record goes on with events of its own process. -/
theorem record_step (hn : w.Numbered) (h : w.step body a = some w') {j : Nat} {q : Proc I α}
    (hq : w.procs j = some q) :
    ∃ q' own, w'.procs j = some q' ∧ q'.loc.log = q.loc.log ++ own ∧ lineage own = [] := by
  obtain ⟨q', hq', hf⟩ := step_fate hn h hq
  cases hf with
  | kept hk => exact ⟨q', [], hq', by rw [hk.loc, List.append_nil], rfl⟩
  | exec _ _ _ _ he => exact ⟨q', [], hq', by rw [he, List.append_nil], rfl⟩
  | @call c _ _ r _ _ _ hr hl _ _ _ =>
      refine ⟨q', [⟨c, r⟩], hq', by rw [hl]; rfl, lineage_eq_nil ?_⟩
      intro e he
      rw [List.mem_singleton.mp he]
      exact reply_born hr

/-- In a record that has grown by one event, an event stands in the old part or
is the new one. -/
theorem split_snoc {es before after : List (Event I)} {e e' : Event I}
    (h : es ++ [e] = before ++ e' :: after) :
    (∃ after', es = before ++ e' :: after') ∨ es = before ∧ e = e' := by
  rcases List.eq_nil_or_concat after with rfl | ⟨after', e'', rfl⟩
  · obtain ⟨h₁, h₂⟩ := List.append_inj' h rfl
    exact Or.inr ⟨h₁, (List.cons.inj h₂).1⟩
  · left
    refine ⟨after', ?_⟩
    have h' : es ++ [e] = (before ++ e' :: after') ++ [e''] := by simpa using h
    exact (List.append_inj' h' rfl).1

/-- **What is owed before a call was paid before each call of a record.** -/
theorem paid {pre : Local I → Sys I → Prop} {fin : Local I → Int → Prop}
    {Q : Local I → α → Prop} {p p' : Prog (Sys I) Ret α} {l : Local I}
    (hw : Prog.wp Local.Step pre fin p Q (.start t))
    (h : Prog.Steps Local.Step (.start t) p l p') {before after : List (Event I)} {e : Event I}
    (he : l.log = before ++ e :: after) : ∃ l₁, l₁.log = before ∧ pre l₁ e.call := by
  induction h generalizing after with
  | refl => exact absurd he.symm (by simp [Local.start])
  | @tail l l' p c k r h hstep ih =>
      obtain ⟨-, rfl⟩ := hstep
      rcases split_snoc he with ⟨after', he'⟩ | ⟨hlog, rfl⟩
      · exact ih hw he'
      · exact ⟨l, hlog, (h.wp hw).1⟩

/-- **What `fork` has told the parent**: the child exists, and its record goes on
from the same point. -/
theorem Reaches.forked (hr : Reaches body ok (init t p₀ pgid) w) {j c : Nat} {q : Proc I α}
    (hj : w.procs j = some q) {before after : List (Event I)}
    (he : q.loc.log = before ++ ⟨.fork, .parent c⟩ :: after) :
    ∃ p own, w.procs c = some p ∧ p.loc.log = before ++ ⟨.fork, .child c⟩ :: own ∧
      lineage own = [] := by
  induction hr generalizing j q before after with
  | refl =>
      rw [(init_procs hj).2.1] at he
      exact absurd he (List.append_ne_nil_of_right_ne_nil _ (List.cons_ne_nil _ _)).symm
  | @tail w w' a hr hok hs ih =>
      have old : ∀ {j q after}, w.procs j = some q →
          q.loc.log = before ++ ⟨.fork, .parent c⟩ :: after →
          ∃ p own, w'.procs c = some p ∧ p.loc.log = before ++ ⟨.fork, .child c⟩ :: own ∧
            lineage own = [] := by
        intro j q after hq he
        obtain ⟨p, own, hp, hl, hown⟩ := ih hq he
        obtain ⟨p', own', hp', hl', hown'⟩ := record_step hr.numbered hs hp
        refine ⟨p', own ++ own', hp', ?_, by rw [lineage_append, hown, hown']; rfl⟩
        rw [hl', hl, List.append_assoc, List.cons_append]
      rcases step_silent_or_call hs with hsil | ⟨i, o, p, c₀, k, r, -, hp, hc, hreply, rfl⟩
      · obtain ⟨q₀, hq₀, hl⟩ := hsil.loc hj
        exact old hq₀ (hl ▸ he)
      · rcases afterCall_loc hj with hl | ⟨q₀, hq₀, hl⟩ | ⟨self, hl⟩
        · rw [hl, Local.after_log] at he
          rcases split_snoc he with ⟨after', he'⟩ | ⟨rfl, he'⟩
          · exact old hp he'
          · cases he'
            exact ⟨_, [], by simp only [afterCall, childOf, if_true]; rfl, rfl, rfl⟩
        · exact old hq₀ (hl ▸ he)
        · rw [hl, Local.after_log] at he
          rcases split_snoc he with ⟨after', he'⟩ | ⟨-, he'⟩
          · exact old hp he'
          · cases he'

/-! ## Making a call -/

/-- A process that can go on makes its call when the world answers it. -/
theorem step_of_reply {i : Nat} {o : Outcome I} {p : Proc I α} {c : Sys I}
    {k : Ret c → Prog (Sys I) Ret α} {r : Ret c} (hp : w.procs i = some p) (hm : p.mode = .code)
    (hst : p.stopped = none) (hc : p.code = .call c k) (hx : isExec c o = false)
    (hr : w.reply i p.loc c o = some r) :
    w.step body (.sys i o) = some (w.afterCall body i p c k r) := by
  simp [step, sysStep, hp, hm, hst, hc, hx, hr]

/-- A call that touches nobody changes its own process only. -/
theorem afterCall_idle {i : Nat} {p : Proc I α} {c : Sys I} {k : Ret c → Prog (Sys I) Ret α}
    {r : Ret c} (hp : w.procs i = some p) (ht : ∀ j (q : Proc I α), touch i c r j q = q)
    (hch : childOf i p c k r = none) :
    (w.afterCall body i p c k r).procs i = some { p with loc := p.loc.after c r, code := k r } ∧
      ∀ j, j ≠ i → (w.afterCall body i p c k r).procs j = w.procs j := by
  constructor
  · simp [afterCall, hch, procsAfter, hp, ht]
  · intro j hj
    simp [afterCall, hch, procsAfter, hj, ht]

/-- Both together: the call is made, and only its own process has changed. -/
theorem call_idle (body : Nat → I.Start → Prog (Sys I) Ret Unit) {i : Nat} {o : Outcome I} {p : Proc I α}
    {c : Sys I} {k : Ret c → Prog (Sys I) Ret α} {r : Ret c} (hp : w.procs i = some p)
    (hm : p.mode = .code) (hst : p.stopped = none) (hc : p.code = .call c k)
    (hx : isExec c o = false)
    (hr : w.reply i p.loc c o = some r) (ht : ∀ j (q : Proc I α), touch i c r j q = q)
    (hch : childOf i p c k r = none) :
    w.step body (.sys i o) = some (w.afterCall body i p c k r) ∧
      (w.afterCall body i p c k r).procs i = some { p with loc := p.loc.after c r, code := k r } ∧
        ∀ j, j ≠ i → (w.afterCall body i p c k r).procs j = w.procs j :=
  ⟨step_of_reply hp hm hst hc hx hr, afterCall_idle hp ht hch⟩

/-! ## Ends and threads -/

/-- How a process that runs the program may stop doing so in one step. -/
inductive Ending (w : World I α) (a : Act I) (j : Nat) (q : Proc I α) : Prop
  | exit {o : Outcome I} {n : Int} : a = .sys j o → q.code = .exit n → Ending w a j q
  | exec {o : Outcome I} {c : Sys I} {k : Ret c → Prog (Sys I) Ret α} :
      a = .sys j o → q.code = .call c k → isExec c o = true → Ending w a j q
  | kill {sig : Nat} {core : Bool} : a = .kill j sig core → Ending w a j q
  | killpg {i g : Nat} {o : Outcome I} {p : Proc I α} {k : Bool → Prog (Sys I) Ret α} :
      a = .sys i o → w.procs i = some p → p.code = .call (.killpg g) k → Ending w a j q
  | thread {n : Nat} {o : Outcome I} : a = .thr n o → Ending w a j q

theorem touch_mode {i j : Nat} {c : Sys I} {r : Ret c} {q : Proc I α} (hm : q.mode = .code)
    (hc : ∀ g, c ≠ .killpg g) : (touch i c r j q).mode = .code := by
  unfold touch
  split
  · split <;> exact hm
  · split
    · simp [Proc.awaited, hm]
    · exact hm
  case h_3 g => exact absurd rfl (hc g)
  · exact hm

/-- After an act that changes one process in place, the others run on. -/
theorem update_mode {i j : Nat} {f : Proc I α → Proc I α} {q q' : Proc I α}
    (hq : w.procs j = some q)
    (hm : q.mode = .code) (hq' : (w.update i f).procs j = some q') (hm' : q'.mode ≠ .code) :
    j = i ∧ (f q).mode ≠ .code := by
  rw [update_procs, hq, Option.map_some, Option.some.injEq] at hq'
  subst hq'
  by_cases hj : j = i
  · exact ⟨hj, by simpa [hj] using hm'⟩
  · exact absurd hm (by simpa [hj] using hm')

/-- **How a process may stop running the program.** -/
theorem step_ending (hn : w.Numbered) (h : w.step body a = some w') {j : Nat} {q q' : Proc I α}
    (hq : w.procs j = some q) (hm : q.mode = .code) (hq' : w'.procs j = some q')
    (hm' : q'.mode ≠ .code) : Ending w a j q := by
  cases a with
  | sys i o =>
      obtain ⟨p, hp, -, -, hcase⟩ := sysStep_cases h
      rcases hcase with ⟨n, hc, rfl⟩ | ⟨c, k, hc, hx, rfl⟩ | ⟨c, k, r, hc, -, hr, rfl⟩
      · obtain ⟨rfl, -⟩ := update_mode hq hm hq' hm'
        obtain rfl := Option.some.inj (hq.symm.trans hp)
        exact .exit rfl hc
      · obtain ⟨rfl, -⟩ := update_mode hq hm hq' hm'
        obtain rfl := Option.some.inj (hq.symm.trans hp)
        exact .exec rfl hc hx
      · by_cases hkill : ∃ g, c = .killpg g
        · obtain ⟨g, rfl⟩ := hkill
          exact .killpg rfl hp hc
        · have hmode := touch_mode (i := i) (j := j) (r := r) hm fun g hg => hkill ⟨g, hg⟩
          have hold : w.procsAfter i p c k r j = some q' := by
            simp only [afterCall] at hq'
            cases hch : childOf i p c k r with
            | none => rw [hch] at hq'; exact hq'
            | some cq =>
                rw [hch] at hq'
                have hne : j ≠ cq.1 := by
                  cases c with
                  | fork =>
                      rcases reply_fork hr with rfl | rfl
                      · obtain rfl := Option.some.inj hch
                        exact Nat.ne_of_lt (hn.lt_next hq)
                      · cases hch
                  | _ => cases hch
                simpa [hne] using hq'
          rw [procsAfter, hq, Option.map_some, Option.some.injEq] at hold
          subst hold
          refine absurd ?_ hm'
          split
          · exact hmode
          · exact hmode
  | thr n o => exact .thread rfl
  | kill i sig core =>
      simp only [step] at h
      split at h
      case isFalse => cases h
      case isTrue =>
        obtain rfl := Option.some.inj h
        obtain ⟨rfl, -⟩ := update_mode hq hm hq' hm'
        exact .kill rfl
  | quit i code =>
      simp only [step] at h
      split at h
      case isFalse => cases h
      case isTrue hprog =>
        obtain rfl := Option.some.inj h
        obtain ⟨rfl, -⟩ := update_mode hq hm hq' hm'
        simp [hq, hm] at hprog
  | stop i sig | cont i | regroup i g =>
      simp only [step] at h
      split at h
      case isFalse => cases h
      case isTrue =>
        obtain rfl := Option.some.inj h
        exact absurd hm (update_mode hq hm hq' hm').2
  | drain i id =>
      simp only [step] at h
      split at h
      case isFalse => cases h
      case isTrue =>
        obtain rfl := Option.some.inj h
        obtain rfl := Option.some.inj (hq.symm.trans hq')
        exact absurd hm hm'

/-- Threads come from `pthread_create`. -/
theorem step_threads (h : w.step body a = some w') (ht : w.threads = []) :
    w'.threads = [] ∨ ∃ i o p start k, a = .sys i o ∧ w.procs i = some p ∧
      p.code = .call (.pthreadCreate start) k := by
  cases a with
  | sys i o =>
      obtain ⟨p, hp, -, -, hcase⟩ := sysStep_cases h
      rcases hcase with ⟨n, -, rfl⟩ | ⟨c, k, -, -, rfl⟩ | ⟨c, k, r, hc, -, -, rfl⟩
      · exact Or.inl ht
      · exact Or.inl ht
      · by_cases hcreate : ∃ start, c = .pthreadCreate start
        · obtain ⟨start, rfl⟩ := hcreate
          exact Or.inr ⟨i, o, p, start, k, rfl, hp, hc⟩
        · left
          show w.threadsAfter body i c r = []
          unfold threadsAfter
          split
          case h_1 start _ => exact absurd ⟨start, rfl⟩ hcreate
          case h_2 => rw [ht]; exact List.modify_nil _ _
          case h_3 => exact ht
  | thr n o =>
      have hnone : w.thread? n = none := by
        unfold thread?
        split
        · rfl
        · simp [ht]
      simp [step, threadStep, hnone] at h
  | kill i sig core | stop i sig | cont i | quit i code | regroup i g | drain i id =>
      simp only [step] at h
      split at h
      case isFalse => cases h
      case isTrue =>
        obtain rfl := Option.some.inj h
        exact Or.inl ht

end Posix
