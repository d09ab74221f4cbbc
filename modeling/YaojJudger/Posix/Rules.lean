/-
# `YaojJudger.Posix.Rules` — what holds of every run

A step of the world is one of a few things, and every invariant below is
derived from the two lemmas that say which:

    sysStep_cases    what a process's own step can be
    step_procs       where a process of the new world comes from

With those, three rules for all reachable worlds:

* **Positions** (`Reaches.positioned`).  Each process, living or dead, is at a
  position of the one program the run started with: it is the same program all
  along, and `fork` is the call that two processes leave with different
  results.  So a `wp` condition of that program speaks about every process.
* **Messages** (`Reaches.conserved`, `Reaches.delivered`).  A value taken from a
  pipe was put there by some process, and a value put into a pipe is still
  there, unless some process has taken one, or a program that was exec'd has.
* **Numbers** (`Reaches.numbered`).  A process is filed under its own number,
  and a child's number is new.

`Reaches ok` is reachability by steps that each meet a condition `ok`; with the
condition that is always true it is plain reachability.
-/
import YaojJudger.Posix.World

namespace Posix

variable {I : Iface} {α : Type} (body : Nat → I.Start → Prog (Sys I) Ret Unit)

/-- Reachability from `w₀` by acts that meet `ok` in the world they act on. -/
inductive Reaches (ok : World I α → Act I → Prop) (w₀ : World I α) : World I α → Prop
  | refl : Reaches ok w₀ w₀
  | tail {w w' : World I α} {a : Act I} :
      Reaches ok w₀ w → ok w a → w.step body a = some w' → Reaches ok w₀ w'

/-- The condition every act meets. -/
def Always : World I α → Act I → Prop := fun _ _ => True

variable {body} {ok : World I α → Act I → Prop} {w₀ w w' : World I α} {a : Act I}

theorem Reaches.mono {ok' : World I α → Act I → Prop} (h : ∀ w a, ok w a → ok' w a)
    (hr : Reaches body ok w₀ w) : Reaches body ok' w₀ w := by
  induction hr with
  | refl => exact .refl
  | tail _ hok hs ih => exact .tail ih (h _ _ hok) hs

/-- What holds at the start and is kept by every step that meets the condition
holds of every world reached. -/
theorem Reaches.invariant {P : World I α → Prop} (h₀ : P w₀)
    (hstep : ∀ {w w' a}, P w → ok w a → w.step body a = some w' → P w')
    (hr : Reaches body ok w₀ w) : P w := by
  induction hr with
  | refl => exact h₀
  | tail _ hok hs ih => exact hstep ih hok hs

/-- A computed run is a way of reaching its last world. -/
theorem reaches_of_run : ∀ {as : List (Act I)} {w : World I α}, Reaches body Always w₀ w →
    w.run body as = some w' → Reaches body Always w₀ w'
  | [], _, hr, h => by cases h; exact hr
  | a :: as, w, hr, h => by
      simp only [World.run] at h
      cases hs : w.step body a with
      | none => simp [hs] at h
      | some w₁ =>
          rw [hs] at h
          exact reaches_of_run (.tail hr trivial hs) h

/-- What a computed run shows of its last world is so in a world reached. -/
theorem reaches_of_any {as : List (Act I)} {check : World I α → Bool}
    (h : (w₀.run body as).any check = true) : ∃ w, Reaches body Always w₀ w ∧ check w = true := by
  cases hw : w₀.run body as with
  | none => rw [hw] at h; cases h
  | some w => rw [hw] at h; exact ⟨w, reaches_of_run .refl hw, h⟩

/-- A run whose acts are checked against a condition as it goes. -/
def World.runIf (body : Nat → I.Start → Prog (Sys I) Ret Unit) (ok : World I α → Act I → Bool) :
    World I α → List (Act I) → Option (World I α)
  | w, [] => some w
  | w, a :: as =>
      if ok w a then
        match w.step body a with
        | some w' => runIf body ok w' as
        | none => none
      else none

theorem reaches_of_runIf {ok : World I α → Act I → Bool} : ∀ {as : List (Act I)} {w : World I α},
    Reaches body (fun w a => ok w a = true) w₀ w → w.runIf body ok as = some w' →
      Reaches body (fun w a => ok w a = true) w₀ w'
  | [], _, hr, h => by cases h; exact hr
  | a :: as, w, hr, h => by
      simp only [World.runIf] at h
      split at h
      case isFalse => cases h
      case isTrue hok =>
        cases hs : w.step body a with
        | none => simp [hs] at h
        | some w₁ =>
            rw [hs] at h
            exact reaches_of_runIf (.tail hr hok hs) h

theorem reaches_of_anyIf {ok : World I α → Act I → Bool} {as : List (Act I)}
    {check : World I α → Bool} (h : (w₀.runIf body ok as).any check = true) :
    ∃ w, Reaches body (fun w a => ok w a = true) w₀ w ∧ check w = true := by
  cases hw : w₀.runIf body ok as with
  | none => rw [hw] at h; cases h
  | some w => rw [hw] at h; exact ⟨w, reaches_of_runIf .refl hw, h⟩

namespace World

/-! ## The shape of a step -/

@[simp] theorem mapProcs_procs (w : World I α) (f : Nat → Proc I α → Proc I α) (j : Nat) :
    (w.mapProcs f).procs j = (w.procs j).map (f j) := rfl

@[simp] theorem update_procs (w : World I α) (i : Nat) (f : Proc I α → Proc I α) (j : Nat) :
    (w.update i f).procs j = (w.procs j).map fun q => if j = i then f q else q := rfl

/-- A process's own step: it exits, it execs, or it makes a call. -/
theorem sysStep_cases {i : Nat} {o : Outcome I} (h : w.sysStep body i o = some w') :
    ∃ p, w.procs i = some p ∧ p.mode = .code ∧ p.stopped = none ∧
      ((∃ n, p.code = .exit n ∧ w' = w.update i (Proc.terminated (exitStatus n))) ∨
       (∃ c k, p.code = .call c k ∧ isExec c o = true ∧
          w' = w.update i fun q => { q with mode := .program }) ∨
       (∃ c k r, p.code = .call c k ∧ isExec c o = false ∧ w.reply i p.loc c o = some r ∧
          w' = w.afterCall body i p c k r)) := by
  simp only [sysStep] at h
  cases hp : w.procs i with
  | none => simp [hp] at h
  | some p =>
      simp only [hp] at h
      split at h
      case isFalse => cases h
      case isTrue hm =>
        refine ⟨p, rfl, hm.1, hm.2, ?_⟩
        cases hc : p.code with
        | ret a => simp [hc] at h
        | exit n =>
            simp only [hc, Option.some.injEq] at h
            exact Or.inl ⟨n, rfl, h.symm⟩
        | call c k =>
            simp only [hc] at h
            cases hx : isExec c o with
            | true =>
                simp only [hx, if_true, Option.some.injEq] at h
                exact Or.inr (Or.inl ⟨c, k, rfl, hx, h.symm⟩)
            | false =>
                cases hr : w.reply i p.loc c o with
                | none => simp [hx, hr] at h
                | some r =>
                    simp only [hx, hr, Bool.false_eq_true, if_false, Option.some.injEq] at h
                    exact Or.inr (Or.inr ⟨c, k, r, rfl, hx, hr, h.symm⟩)

/-- A process another one's step left in the same place: same `Local`, same
program to go, same parent, and still dead, or gone, if it was. -/
structure Kept (q q' : Proc I α) : Prop where
  loc : q'.loc = q.loc
  code : q'.code = q.code
  ppid : q'.ppid = q.ppid
  alive : q'.mode.alive = true → q'.mode = q.mode
  reaped : ∀ {st}, q.mode = .reaped st → q'.mode = .reaped st

theorem Kept.refl (q : Proc I α) : Kept q q := ⟨rfl, rfl, rfl, fun _ => rfl, id⟩

theorem kept_terminated (st : Nat) (q : Proc I α) : Kept q (q.terminated st) := by
  unfold Proc.terminated
  split
  case isTrue h =>
    refine ⟨rfl, rfl, rfl, fun h => by simp [Mode.alive] at h, fun hr => ?_⟩
    rw [hr] at h
    cases h
  case isFalse => exact Kept.refl q

theorem kept_awaited (q : Proc I α) : Kept q q.awaited := by
  unfold Proc.awaited
  split
  case h_1 st hz =>
    refine ⟨rfl, rfl, rfl, fun h => by simp [Mode.alive] at h, fun hr => ?_⟩
    rw [hz] at hr
    cases hr
  case h_2 => exact ⟨rfl, rfl, rfl, fun _ => rfl, id⟩

theorem kept_hit (g : Nat) (q : Proc I α) : Kept q (q.hit g) := by
  unfold Proc.hit
  split
  · exact kept_terminated _ q
  · exact Kept.refl q

theorem terminated_dead (st : Nat) (q : Proc I α) : (q.terminated st).mode.alive = false := by
  unfold Proc.terminated
  split
  case isTrue => rfl
  case isFalse h => simpa using h

theorem hit_dead {g : Nat} {q : Proc I α} (h : q.mode.alive = false ∨ q.pgid = g) :
    (q.hit g).mode.alive = false := by
  unfold Proc.hit
  split
  case isTrue => exact terminated_dead _ q
  case isFalse hg => exact h.resolve_right hg

theorem kept_touch (i : Nat) (c : Sys I) (r : Ret c) (j : Nat) (q : Proc I α) :
    Kept q (touch i c r j q) := by
  unfold touch
  split
  · split
    · exact ⟨rfl, rfl, rfl, fun _ => rfl, id⟩
    · exact Kept.refl q
  · split
    · exact kept_awaited q
    · exact Kept.refl q
  · exact kept_hit _ q
  · exact Kept.refl q

/-- Where process `j` of the world after act `a`, now `q'`, comes from. -/
inductive Origin (w : World I α) (a : Act I) (w' : World I α) (j : Nat) (q' : Proc I α) : Prop
  /-- it was there and made no step of its own -/
  | kept {q : Proc I α} : w.procs j = some q → Kept q q' → Origin w a w' j q'
  /-- it exec'd -/
  | exec {q : Proc I α} {c : Sys I} {k : Ret c → Prog (Sys I) Ret α} {o : Outcome I} :
      a = .sys j o → w.procs j = some q → q.mode = .code → q.code = .call c k →
      isExec c o = true → q' = { q with mode := .program } → Origin w a w' j q'
  /-- it made a call -/
  | call {q : Proc I α} {c : Sys I} {k : Ret c → Prog (Sys I) Ret α} {o : Outcome I} {r : Ret c} :
      a = .sys j o → w.procs j = some q → q.mode = .code → q.code = .call c k →
      w.reply j q.loc c o = some r →
      q'.loc = q.loc.after c r → q'.code = k r → q'.ppid = q.ppid →
      (q'.mode.alive = true → q'.mode = .code) → Origin w a w' j q'
  /-- it was forked -/
  | born {i : Nat} {q : Proc I α} {k : Ret (.fork : Sys I) → Prog (Sys I) Ret α} {o : Outcome I} :
      a = .sys i o → w.procs i = some q → q.mode = .code → q.code = .call .fork k →
      j = w.next → w'.next = w.next + 1 → q'.loc = q.loc.after .fork (.child j) →
      q'.code = k (.child j) →
      q'.mode = .code → q'.ppid = i → q'.pgid = q.pgid → Origin w a w' j q'

theorem reply_fork {i : Nat} {l : Local I} {o : Outcome I} {r : Forked}
    (h : w.reply i l .fork o = some r) : r = .parent w.next ∨ r = .failed := by
  cases o with
  | ok => exact Or.inl (Option.some.inj h).symm
  | fail => exact Or.inr (Option.some.inj h).symm
  | answer f => cases h

/-- Processes after an act that changes each of them in place. -/
theorem origin_mapProcs {f : Nat → Proc I α → Proc I α} (hf : ∀ j q, Kept q (f j q)) {j : Nat}
    {q' : Proc I α} (h : (w.procs j).map (f j) = some q') : Origin w a w' j q' := by
  obtain ⟨q, hq, rfl⟩ := Option.map_eq_some_iff.mp h
  exact .kept hq (hf j q)

theorem origin_update {i : Nat} {f : Proc I α → Proc I α} (hf : ∀ q, Kept q (f q)) {j : Nat}
    {q' : Proc I α} (h : (w.update i f).procs j = some q') : Origin w a w' j q' := by
  rw [update_procs] at h
  obtain ⟨q, hq, rfl⟩ := Option.map_eq_some_iff.mp h
  split
  · exact .kept hq (hf q)
  · exact .kept hq (Kept.refl q)

theorem origin_afterCall {i j : Nat} {p q' : Proc I α} {c : Sys I}
    {k : Ret c → Prog (Sys I) Ret α} {r : Ret c} {o : Outcome I} (hp : w.procs i = some p)
    (hm : p.mode = .code) (hc : p.code = .call c k) (hr : w.reply i p.loc c o = some r)
    (h : (w.afterCall body i p c k r).procs j = some q') :
    Origin w (.sys i o) (w.afterCall body i p c k r) j q' := by
  have old : ∀ {q'}, w.procsAfter i p c k r j = some q' →
      Origin w (.sys i o) (w.afterCall body i p c k r) j q' := by
    intro q' h
    obtain ⟨q, hq, rfl⟩ := Option.map_eq_some_iff.mp h
    have hk := kept_touch i c r j q
    by_cases hj : j = i
    · subst hj
      obtain rfl : q = p := Option.some.inj (hq.symm.trans hp)
      simp only [if_true]
      exact .call rfl hq hm hc hr rfl rfl hk.ppid fun ha => (hk.alive ha).trans hm
    · simp only [hj, if_false]
      exact .kept hq hk
  simp only [afterCall] at h
  cases hch : childOf i p c k r with
  | none => rw [hch] at h; exact old h
  | some cq =>
      obtain ⟨child, q⟩ := cq
      rw [hch] at h
      simp only at h
      split at h
      case isFalse => exact old h
      case isTrue hj =>
        cases c with
        | fork =>
            rcases reply_fork hr with rfl | rfl
            · simp only [childOf, Option.some.injEq, Prod.mk.injEq] at hch
              obtain ⟨rfl, rfl⟩ := hch
              obtain rfl := Option.some.inj h
              subst hj
              exact .born rfl hp hm hc rfl rfl rfl rfl rfl rfl rfl
            · cases hch
        | _ => cases hch

theorem threadStep_procs {t : Nat} {o : Outcome I} (h : w.threadStep t o = some w') :
    w'.next = w.next ∧ w'.pipe = w.pipe ∧
      (w'.procs = w.procs ∨ ∃ g, w'.procs = (w.killGroup g).procs) := by
  simp only [threadStep] at h
  cases hth : w.thread? t with
  | none => simp [hth] at h
  | some th =>
      simp only [hth] at h
      split at h
      case isFalse => cases h
      case isTrue =>
        split at h
        · obtain rfl := Option.some.inj h; exact ⟨rfl, rfl, Or.inl rfl⟩
        · obtain rfl := Option.some.inj h; exact ⟨rfl, rfl, Or.inl rfl⟩
        · obtain rfl := Option.some.inj h; exact ⟨rfl, rfl, Or.inl rfl⟩
        · split at h
          · obtain rfl := Option.some.inj h; exact ⟨rfl, rfl, Or.inl rfl⟩
          · split at h
            · obtain rfl := Option.some.inj h; exact ⟨rfl, rfl, Or.inl rfl⟩
            · obtain rfl := Option.some.inj h; exact ⟨rfl, rfl, Or.inl rfl⟩
            · cases h
        · rename_i g k _
          split at h
          · obtain rfl := Option.some.inj h; exact ⟨rfl, rfl, Or.inr ⟨g, rfl⟩⟩
          · cases h
        · obtain rfl := Option.some.inj h; exact ⟨rfl, rfl, Or.inl rfl⟩
        · cases h

/-- **Where the processes of a new world come from.** -/
theorem step_procs (h : w.step body a = some w') {j : Nat} {q' : Proc I α}
    (hj : w'.procs j = some q') : Origin w a w' j q' := by
  cases a with
  | sys i o =>
      obtain ⟨p, hp, hm, -, hcase⟩ := sysStep_cases h
      rcases hcase with ⟨n, -, rfl⟩ | ⟨c, k, hc, hx, rfl⟩ | ⟨c, k, r, hc, -, hr, rfl⟩
      · exact origin_update (kept_terminated _) hj
      · obtain ⟨q, hq, rfl⟩ := Option.map_eq_some_iff.mp hj
        by_cases hij : j = i
        · subst hij
          obtain rfl : q = p := Option.some.inj (hq.symm.trans hp)
          simp only [if_true]
          exact .exec rfl hq hm hc hx rfl
        · simp only [hij, if_false]
          exact .kept hq (Kept.refl q)
      · exact origin_afterCall hp hm hc hr hj
  | thr t o =>
      obtain ⟨-, -, hprocs | ⟨g, hprocs⟩⟩ := threadStep_procs h
      · rw [hprocs] at hj
        exact .kept hj (Kept.refl q')
      · rw [hprocs] at hj
        exact origin_mapProcs (fun _ q => kept_hit g q) hj
  | kill i sig core =>
      simp only [step] at h
      split at h
      · obtain rfl := Option.some.inj h
        exact origin_update (kept_terminated _) hj
      · cases h
  | stop i sig =>
      simp only [step] at h
      split at h
      · obtain rfl := Option.some.inj h
        refine origin_update ?_ hj
        exact fun q => ⟨rfl, rfl, rfl, fun _ => rfl, id⟩
      · cases h
  | cont i =>
      simp only [step] at h
      split at h
      · obtain rfl := Option.some.inj h
        refine origin_update ?_ hj
        exact fun q => ⟨rfl, rfl, rfl, fun _ => rfl, id⟩
      · cases h
  | quit i code =>
      simp only [step] at h
      split at h
      · obtain rfl := Option.some.inj h
        exact origin_update (kept_terminated _) hj
      · cases h
  | regroup i g =>
      simp only [step] at h
      split at h
      · obtain rfl := Option.some.inj h
        refine origin_update ?_ hj
        exact fun q => ⟨rfl, rfl, rfl, fun _ => rfl, id⟩
      · cases h
  | drain i id =>
      simp only [step] at h
      split at h
      · obtain rfl := Option.some.inj h
        exact .kept hj (Kept.refl q')
      · cases h

/-! ## Process numbers -/

/-- A process is filed under its own number, and numbers not handed out yet are free. -/
structure Numbered (w : World I α) : Prop where
  lt_next : ∀ {j q}, w.procs j = some q → j < w.next
  pid : ∀ {j q}, w.procs j = some q → q.loc.pid = j

theorem step_next (h : w.step body a = some w') : w.next ≤ w'.next := by
  cases a with
  | sys i o =>
      obtain ⟨p, -, -, -, hcase⟩ := sysStep_cases h
      rcases hcase with ⟨n, -, rfl⟩ | ⟨c, k, -, -, rfl⟩ | ⟨c, k, r, -, -, -, rfl⟩
      · exact Nat.le_refl _
      · exact Nat.le_refl _
      · simp only [afterCall]
        split
        · exact Nat.le_succ _
        · exact Nat.le_refl _
  | thr t o => exact Nat.le_of_eq (threadStep_procs h).1.symm
  | kill i sig core =>
      simp only [step] at h
      split at h
      · obtain rfl := Option.some.inj h; exact Nat.le_refl _
      · cases h
  | stop i sig =>
      simp only [step] at h
      split at h
      · obtain rfl := Option.some.inj h; exact Nat.le_refl _
      · cases h
  | cont i | quit i code | regroup i g | drain i id =>
      simp only [step] at h
      split at h
      · obtain rfl := Option.some.inj h; exact Nat.le_refl _
      · cases h

/-- The result of a call the world answers is one the caller can have. -/
theorem reply_can {i : Nat} {l : Local I} {c : Sys I} {o : Outcome I} {r : Ret c}
    (hl : l.pid < w.next) (h : w.reply i l c o = some r) : l.Can c r := by
  cases c with
  | getpid =>
      cases o with
      | ok => exact (Option.some.inj h).symm
      | fail | answer f => cases h
  | pipe =>
      cases o with
      | ok => obtain rfl := Option.some.inj h; exact rfl
      | fail => obtain rfl := Option.some.inj h; trivial
      | answer f => cases h
  | fork =>
      rcases reply_fork h with rfl | rfl
      · exact hl
      · trivial
  | open_ path mode =>
      cases o with
      | ok => obtain rfl := Option.some.inj h; exact rfl
      | fail => obtain rfl := Option.some.inj h; trivial
      | answer f => cases h
  | dup2 oldfd newfd =>
      cases o with
      | ok =>
          simp only [reply] at h
          split at h
          case isTrue hs => obtain rfl := Option.some.inj h; exact hs
          case isFalse => cases h
      | fail => obtain rfl := Option.some.inj h; trivial
      | answer f => cases h
  | write fd v =>
      cases o with
      | ok =>
          simp only [reply] at h
          split at h
          case isTrue hs => obtain rfl := Option.some.inj h; exact hs
          case isFalse => cases h
      | fail => obtain rfl := Option.some.inj h; trivial
      | answer f => cases h
  | read fd =>
      cases o with
      | ok =>
          simp only [reply] at h
          cases hin : l.inPipe fd with
          | none => rw [hin] at h; cases h
          | some id =>
              cases r with
              | none => trivial
              | some v => exact Option.isSome_iff_exists.mpr ⟨id, hin⟩
      | fail => obtain rfl := Option.some.inj h; trivial
      | answer f => cases h
  | fault => cases o <;> cases h
  | ask q => trivial
  | _ => cases r <;> trivial

theorem numbered_step (hw : w.Numbered) (h : w.step body a = some w') : w'.Numbered := by
  have key : ∀ {j q'}, w'.procs j = some q' → j < w'.next ∧ q'.loc.pid = j := by
    intro j q' hj
    have hle := step_next h
    cases step_procs h hj with
    | kept hq hk => exact ⟨Nat.lt_of_lt_of_le (hw.lt_next hq) hle, hk.loc ▸ hw.pid hq⟩
    | exec _ hq _ _ _ hq' =>
        refine ⟨Nat.lt_of_lt_of_le (hw.lt_next hq) hle, ?_⟩
        simpa [hq'] using hw.pid hq
    | @call q c k o r _ hq _ _ hr hloc _ _ _ =>
        refine ⟨Nat.lt_of_lt_of_le (hw.lt_next hq) hle, ?_⟩
        rw [hloc]
        rcases Local.after_pid (l := q.loc) (c := c) (r := r) with hpid | ⟨self, he⟩
        · rw [hpid]; exact hw.pid hq
        · cases he
          rcases reply_fork hr with h' | h' <;> cases h'
    | born _ _ _ _ hjn hnext hloc _ _ _ _ =>
        exact ⟨by omega, by rw [hloc]; rfl⟩
  exact ⟨fun hj => (key hj).1, fun hj => (key hj).2⟩

/-! ## Positions -/

/-- Every process is at a position of the program `p₀` started from `l₀`. -/
def Positioned (l₀ : Local I) (p₀ : Prog (Sys I) Ret α) (w : World I α) : Prop :=
  ∀ {j q}, w.procs j = some q → Prog.Steps Local.Step l₀ p₀ q.loc q.code

theorem positioned_step {l₀ : Local I} {p₀ : Prog (Sys I) Ret α} (hn : w.Numbered)
    (hw : w.Positioned l₀ p₀) (h : w.step body a = some w') : w'.Positioned l₀ p₀ := by
  intro j q' hj
  cases step_procs h hj with
  | kept hq hk => rw [hk.loc, hk.code]; exact hw hq
  | exec _ hq _ _ _ hq' => simpa [hq'] using hw hq
  | call _ hq _ hc hr hloc hcode _ _ =>
      have hs := hw hq
      rw [hc] at hs
      rw [hcode]
      exact .tail hs ⟨reply_can (hn.pid hq ▸ hn.lt_next hq) hr, hloc⟩
  | @born i q k o _ hq _ hc hjn _ hloc hcode _ _ _ =>
      have hs := hw hq
      rw [hc] at hs
      rw [hcode]
      refine .tail hs ⟨?_, hloc⟩
      show q.loc.pid < j
      rw [hn.pid hq, hjn]
      exact hn.lt_next hq

/-! ## Messages -/

/-- Some process has `m` in its record of what it put into pipes. -/
def Wrote (w : World I α) (m : PipeId × Int) : Prop :=
  ∃ j q, w.procs j = some q ∧ m ∈ q.loc.wrote

/-- Some process has `m` in its record of what it took out of pipes. -/
def Got (w : World I α) (m : PipeId × Int) : Prop :=
  ∃ j q, w.procs j = some q ∧ m ∈ q.loc.got

/-- What is in a pipe or was taken out of it was put in. -/
structure Conserved (w : World I α) : Prop where
  pipe_wrote : ∀ {id v}, v ∈ w.pipe id → w.Wrote (id, v)
  got_wrote : ∀ {m}, w.Got m → w.Wrote m

/-- What was put into a pipe is there, until a process has taken something out. -/
def Delivered (w : World I α) : Prop :=
  ∀ {id v}, w.Wrote (id, v) → v ∈ w.pipe id ∨ ∃ u, w.Got (id, u)

/-- No program reads from a pipe before a process has. -/
def Spares (w : World I α) (a : Act I) : Prop :=
  ∀ {i id}, a = .drain i id → ∃ u, w.Got (id, u)

/-- No process disappears from the table. -/
theorem step_isSome (h : w.step body a = some w') {j : Nat} (hj : (w.procs j).isSome) :
    (w'.procs j).isSome := by
  cases a with
  | sys i o =>
      obtain ⟨p, -, -, -, hcase⟩ := sysStep_cases h
      rcases hcase with ⟨n, -, rfl⟩ | ⟨c, k, -, -, rfl⟩ | ⟨c, k, r, -, -, -, rfl⟩
      · simpa using hj
      · simpa using hj
      · simp only [afterCall, procsAfter]
        split
        · split
          · rfl
          · simpa using hj
        · simpa using hj
  | thr t o =>
      obtain ⟨-, -, hprocs | ⟨g, hprocs⟩⟩ := threadStep_procs h
      · rw [hprocs]; exact hj
      · rw [hprocs]; simpa [killGroup] using hj
  | kill i sig core | stop i sig | cont i | quit i code | regroup i g =>
      simp only [step] at h
      split at h
      · obtain rfl := Option.some.inj h; simpa using hj
      · cases h
  | drain i id =>
      simp only [step] at h
      split at h
      · obtain rfl := Option.some.inj h; exact hj
      · cases h

/-- What may have happened to a process in one step, seen from before it. -/
inductive Fate (w : World I α) (a : Act I) (j : Nat) (q q' : Proc I α) : Prop
  | kept : Kept q q' → Fate w a j q q'
  | exec {c : Sys I} {k : Ret c → Prog (Sys I) Ret α} {o : Outcome I} :
      a = .sys j o → q.mode = .code → q.code = .call c k → isExec c o = true →
      q' = { q with mode := .program } → Fate w a j q q'
  | call {c : Sys I} {k : Ret c → Prog (Sys I) Ret α} {o : Outcome I} {r : Ret c} :
      a = .sys j o → q.mode = .code → q.code = .call c k → w.reply j q.loc c o = some r →
      q'.loc = q.loc.after c r → q'.code = k r → q'.ppid = q.ppid →
      (q'.mode.alive = true → q'.mode = .code) → Fate w a j q q'

/-- **What becomes of a process in one step.** -/
theorem step_fate (hn : w.Numbered) (h : w.step body a = some w') {j : Nat} {q : Proc I α}
    (hq : w.procs j = some q) : ∃ q', w'.procs j = some q' ∧ Fate w a j q q' := by
  obtain ⟨q', hq'⟩ :=
    Option.isSome_iff_exists.mp (step_isSome h (by simp [hq] : (w.procs j).isSome))
  refine ⟨q', hq', ?_⟩
  cases step_procs h hq' with
  | kept hq₁ hk => obtain rfl := Option.some.inj (hq.symm.trans hq₁); exact .kept hk
  | exec ha hq₁ hm hc hx he =>
      obtain rfl := Option.some.inj (hq.symm.trans hq₁); exact .exec ha hm hc hx he
  | call ha hq₁ hm hc hr hl hk hp hal =>
      obtain rfl := Option.some.inj (hq.symm.trans hq₁); exact .call ha hm hc hr hl hk hp hal
  | born _ _ _ _ hjn => exact absurd (hn.lt_next hq) (by omega)

theorem Fate.wrote {j : Nat} {q q' : Proc I α} (h : Fate w a j q q') :
    q.loc.wrote ⊆ q'.loc.wrote := by
  cases h with
  | kept hk => rw [hk.loc]; exact fun _ h => h
  | exec _ _ _ _ he => rw [he]; exact fun _ h => h
  | call _ _ _ _ hl _ _ _ => rw [hl]; exact List.subset_append_left _ _

theorem Fate.got {j : Nat} {q q' : Proc I α} (h : Fate w a j q q') :
    q.loc.got ⊆ q'.loc.got := by
  cases h with
  | kept hk => rw [hk.loc]; exact fun _ h => h
  | exec _ _ _ _ he => rw [he]; exact fun _ h => h
  | call _ _ _ _ hl _ _ _ => rw [hl]; exact List.subset_append_left _ _

theorem Fate.log {j : Nat} {q q' : Proc I α} (h : Fate w a j q q') :
    q.loc.log <+: q'.loc.log := by
  cases h with
  | kept hk => rw [hk.loc]
  | exec _ _ _ _ he => rw [he]
  | call _ _ _ _ hl _ _ _ => rw [hl]; exact List.prefix_append _ _

theorem wrote_step (hn : w.Numbered) (h : w.step body a = some w') {m : PipeId × Int}
    (hm : w.Wrote m) : w'.Wrote m := by
  obtain ⟨j, q, hq, hm⟩ := hm
  obtain ⟨q', hq', hf⟩ := step_fate hn h hq
  exact ⟨j, q', hq', hf.wrote hm⟩

theorem got_step (hn : w.Numbered) (h : w.step body a = some w') {m : PipeId × Int}
    (hm : w.Got m) : w'.Got m := by
  obtain ⟨j, q, hq, hm⟩ := hm
  obtain ⟨q', hq', hf⟩ := step_fate hn h hq
  exact ⟨j, q', hq', hf.got hm⟩

/-- A step in which no process makes a call: records stay, and so do the pipes if
no program reads. -/
structure Silent (w : World I α) (a : Act I) (w' : World I α) : Prop where
  pipe : w'.pipe = w.pipe ∨ ∃ i id, a = .drain i id ∧ w'.pipe = (w.drained id).pipe
  loc : ∀ {j q'}, w'.procs j = some q' → ∃ q, w.procs j = some q ∧ q'.loc = q.loc

theorem silent_mapProcs {f : Nat → Proc I α → Proc I α} (hf : ∀ j q, (f j q).loc = q.loc) :
    Silent w a (w.mapProcs f) := by
  refine ⟨Or.inl rfl, fun {j q'} h => ?_⟩
  obtain ⟨q, hq, rfl⟩ := Option.map_eq_some_iff.mp h
  exact ⟨q, hq, hf j q⟩

theorem silent_update {i : Nat} {f : Proc I α → Proc I α} (hf : ∀ q, (f q).loc = q.loc) :
    Silent w a (w.update i f) := by
  refine silent_mapProcs fun j q => ?_
  split
  · exact hf q
  · rfl

/-- Nothing comes into a pipe. -/
theorem Silent.mem_pipe (h : Silent w a w') {id : PipeId} {v : Int} (hv : v ∈ w'.pipe id) :
    v ∈ w.pipe id := by
  rcases h.pipe with hpipe | ⟨i, id', -, hpipe⟩
  · rwa [hpipe] at hv
  · rw [hpipe] at hv
    simp only [drained] at hv
    split at hv
    · exact List.mem_of_mem_tail hv
    · exact hv

theorem Silent.wrote (h : Silent w a w') {m : PipeId × Int} (hm : w'.Wrote m) : w.Wrote m := by
  obtain ⟨j, q', hj, hm⟩ := hm
  obtain ⟨q, hq, hl⟩ := h.loc hj
  exact ⟨j, q, hq, hl ▸ hm⟩

theorem Silent.got (h : Silent w a w') {m : PipeId × Int} (hm : w'.Got m) : w.Got m := by
  obtain ⟨j, q', hj, hm⟩ := hm
  obtain ⟨q, hq, hl⟩ := h.loc hj
  exact ⟨j, q, hq, hl ▸ hm⟩

/-- A step is silent, or one process makes one call. -/
theorem step_silent_or_call (h : w.step body a = some w') :
    Silent w a w' ∨ ∃ i o p c k r, a = .sys i o ∧ w.procs i = some p ∧ p.code = .call c k ∧
      w.reply i p.loc c o = some r ∧ w' = w.afterCall body i p c k r := by
  cases a with
  | sys i o =>
      obtain ⟨p, hp, -, -, hcase⟩ := sysStep_cases h
      rcases hcase with ⟨n, -, rfl⟩ | ⟨c, k, -, -, rfl⟩ | ⟨c, k, r, hc, -, hr, rfl⟩
      · exact Or.inl (silent_update fun q => (kept_terminated _ q).loc)
      · exact Or.inl (silent_update fun q => rfl)
      · exact Or.inr ⟨i, o, p, c, k, r, rfl, hp, hc, hr, rfl⟩
  | thr t o =>
      obtain ⟨-, hpipe, hprocs⟩ := threadStep_procs h
      refine Or.inl ⟨Or.inl hpipe, fun {j q'} hj => ?_⟩
      rcases hprocs with hprocs | ⟨g, hprocs⟩
      · exact ⟨q', hprocs ▸ hj, rfl⟩
      · rw [hprocs] at hj
        obtain ⟨q, hq, rfl⟩ := Option.map_eq_some_iff.mp hj
        exact ⟨q, hq, (kept_hit g q).loc⟩
  | kill i sig core | quit i code =>
      simp only [step] at h
      split at h
      · obtain rfl := Option.some.inj h
        exact Or.inl (silent_update fun q => (kept_terminated _ q).loc)
      · cases h
  | stop i sig | cont i | regroup i g =>
      simp only [step] at h
      split at h
      · obtain rfl := Option.some.inj h
        exact Or.inl (silent_update fun q => rfl)
      · cases h
  | drain i id =>
      simp only [step] at h
      split at h
      · obtain rfl := Option.some.inj h
        exact Or.inl ⟨Or.inr ⟨i, id, rfl, rfl⟩, fun {j q'} hj => ⟨q', hj, rfl⟩⟩
      · cases h

section afterCall
variable {i : Nat} {p : Proc I α} {c : Sys I} {k : Ret c → Prog (Sys I) Ret α} {r : Ret c}

/-- The caller's record after its call. -/
theorem afterCall_self (hn : w.Numbered) (hp : w.procs i = some p) {o : Outcome I}
    (hr : w.reply i p.loc c o = some r) :
    ∃ q, (w.afterCall body i p c k r).procs i = some q ∧ q.loc = p.loc.after c r := by
  have hne : ∀ child q, childOf i p c k r = some (child, q) → i ≠ child := by
    intro child q hch
    have hlt := hn.lt_next hp
    cases c with
    | fork =>
        rcases reply_fork hr with rfl | rfl
        · simp only [childOf, Option.some.injEq, Prod.mk.injEq] at hch
          omega
        · cases hch
    | _ => cases hch
  simp only [afterCall, procsAfter, hp]
  cases hch : childOf i p c k r with
  | none => exact ⟨_, rfl, by simp⟩
  | some cq =>
      obtain ⟨child, q⟩ := cq
      simp only [hne child q hch, if_false]
      exact ⟨_, rfl, by simp⟩

/-- The records after a call: the caller's has grown, a child's is the caller's
with one more `fork` in it, the others are as before. -/
theorem afterCall_loc {j : Nat} {q' : Proc I α}
    (h : (w.afterCall body i p c k r).procs j = some q') :
    q'.loc = p.loc.after c r ∨ (∃ q, w.procs j = some q ∧ q'.loc = q.loc) ∨
      ∃ self, q'.loc = p.loc.after .fork (.child self) := by
  have old : w.procsAfter i p c k r j = some q' →
      q'.loc = p.loc.after c r ∨ (∃ q, w.procs j = some q ∧ q'.loc = q.loc) ∨
        ∃ self, q'.loc = p.loc.after .fork (.child self) := by
    intro h
    obtain ⟨q, hq, rfl⟩ := Option.map_eq_some_iff.mp h
    by_cases hj : j = i
    · exact Or.inl (by simp [hj])
    · exact Or.inr (Or.inl ⟨q, hq, by simp [hj, (kept_touch i c r j q).loc]⟩)
  simp only [afterCall] at h
  cases hch : childOf i p c k r with
  | none => rw [hch] at h; exact old h
  | some cq =>
      obtain ⟨child, q⟩ := cq
      rw [hch] at h
      simp only at h
      split at h
      case isFalse => exact old h
      case isTrue hj =>
        obtain rfl := Option.some.inj h
        right; right
        cases c with
        | fork =>
            cases r with
            | parent child' =>
                simp only [childOf, Option.some.injEq, Prod.mk.injEq] at hch
                exact ⟨child', by rw [← hch.2]⟩
            | failed | child self => cases hch
        | _ => cases hch

/-- A value in some record after a call was in a record before, or is the one
the call put in. -/
theorem afterCall_wrote (hp : w.procs i = some p) {m : PipeId × Int}
    (h : (w.afterCall body i p c k r).Wrote m) : w.Wrote m ∨ p.loc.sent c r = some m := by
  obtain ⟨j, q', hj, hm⟩ := h
  rcases afterCall_loc hj with hl | ⟨q, hq, hl⟩ | ⟨self, hl⟩
  · rw [hl, Local.after_wrote, List.mem_append] at hm
    rcases hm with hm | hm
    · exact Or.inl ⟨i, p, hp, hm⟩
    · exact Or.inr (by simpa using hm)
  · exact Or.inl ⟨j, q, hq, hl ▸ hm⟩
  · rw [hl] at hm
    exact Or.inl ⟨i, p, hp, Local.after_fork_wrote p.loc (.child self) ▸ hm⟩

theorem afterCall_got (hp : w.procs i = some p) {m : PipeId × Int}
    (h : (w.afterCall body i p c k r).Got m) : w.Got m ∨ p.loc.taken c r = some m := by
  obtain ⟨j, q', hj, hm⟩ := h
  rcases afterCall_loc hj with hl | ⟨q, hq, hl⟩ | ⟨self, hl⟩
  · rw [hl, Local.after_got, List.mem_append] at hm
    rcases hm with hm | hm
    · exact Or.inl ⟨i, p, hp, hm⟩
    · exact Or.inr (by simpa using hm)
  · exact Or.inl ⟨j, q, hq, hl ▸ hm⟩
  · rw [hl] at hm
    exact Or.inl ⟨i, p, hp, Local.after_fork_got p.loc (.child self) ▸ hm⟩

end afterCall

/-- What a call takes is the head of its pipe. -/
theorem reply_taken {i : Nat} {l : Local I} {c : Sys I} {o : Outcome I} {r : Ret c} {id : PipeId}
    {v : Int} (h : w.reply i l c o = some r) (ht : l.taken c r = some (id, v)) :
    ∃ vs, w.pipe id = v :: vs := by
  cases c with
  | read fd =>
      cases r with
      | none => cases ht
      | some u =>
          obtain ⟨id', hin, he⟩ := Option.map_eq_some_iff.mp ht
          obtain ⟨rfl, rfl⟩ := Prod.mk.inj he
          cases o with
          | ok =>
              simp only [reply, hin] at h
              split at h
              case h_1 v' vs hpipe =>
                obtain rfl := Option.some.inj (Option.some.inj h)
                exact ⟨vs, hpipe⟩
              case h_2 =>
                split at h
                · cases h
                · cases h
          | fail => cases h
          | answer f => cases h
  | _ => cases ht

theorem conserved_step (hn : w.Numbered) (hw : w.Conserved) (h : w.step body a = some w') :
    w'.Conserved := by
  rcases step_silent_or_call h with hs | ⟨i, o, p, c, k, r, -, hp, -, hr, rfl⟩
  · exact ⟨fun hv => wrote_step hn h (hw.pipe_wrote (hs.mem_pipe hv)),
      fun hm => wrote_step hn h (hw.got_wrote (hs.got hm))⟩
  · obtain ⟨q, hq, hl⟩ : ∃ q, (w.afterCall body i p c k r).procs i = some q ∧
        q.loc = p.loc.after c r := afterCall_self hn hp hr
    refine ⟨fun {id v} hv => ?_, fun {m} hm => ?_⟩
    · -- what is in a pipe was there, or is what the caller has just put in
      simp only [afterCall, pipesAfter] at hv
      split at hv
      case h_1 id' u hsent =>
        split at hv
        case isTrue hid =>
          rcases List.mem_append.mp hv with hv | hv
          · exact wrote_step hn h (hw.pipe_wrote hv)
          · obtain rfl := List.mem_singleton.mp hv
            exact ⟨i, q, hq, by rw [hl, Local.after_wrote, hsent, hid]; simp⟩
        case isFalse => exact wrote_step hn h (hw.pipe_wrote hv)
      case h_2 =>
        split at hv
        · exact wrote_step hn h (hw.pipe_wrote (List.mem_of_mem_tail hv))
        · exact wrote_step hn h (hw.pipe_wrote hv)
      case h_3 => exact wrote_step hn h (hw.pipe_wrote hv)
    · rcases afterCall_got hp hm with hm | ht
      · exact wrote_step hn h (hw.got_wrote hm)
      · obtain ⟨vs, hpipe⟩ := reply_taken hr ht
        exact wrote_step hn h (hw.pipe_wrote (by rw [hpipe]; exact List.mem_cons_self))

theorem delivered_step (hn : w.Numbered) (hw : w.Delivered) (hspare : w.Spares a)
    (h : w.step body a = some w') : w'.Delivered := by
  intro id v hm
  have old : (∃ u, w.Got (id, u)) → v ∈ w'.pipe id ∨ ∃ u, w'.Got (id, u) :=
    fun ⟨u, hu⟩ => Or.inr ⟨u, got_step hn h hu⟩
  rcases step_silent_or_call h with hs | ⟨i, o, p, c, k, r, -, hp, -, hr, rfl⟩
  · rcases hw (hs.wrote hm) with hv | hg
    · rcases hs.pipe with hpipe | ⟨j, id', ha, hpipe⟩
      · exact Or.inl (hpipe ▸ hv)
      · by_cases hid : id = id'
        · exact old (hid ▸ hspare ha)
        · left
          rw [hpipe]
          simp only [drained, hid, if_false]
          exact hv
    · exact old hg
  · obtain ⟨q, hq, hl⟩ : ∃ q, (w.afterCall body i p c k r).procs i = some q ∧
        q.loc = p.loc.after c r := afterCall_self hn hp hr
    rcases afterCall_wrote hp hm with hm | hsent
    · rcases hw hm with hv | hg
      · -- it was in the pipe: it still is, unless the caller has just taken one
        simp only [afterCall, pipesAfter]
        split
        case h_1 =>
          split
          · exact Or.inl (List.mem_append_left _ hv)
          · exact Or.inl hv
        case h_2 id' u _ ht =>
          split
          case isTrue hid =>
            subst hid
            exact Or.inr ⟨u, i, q, hq, by rw [hl, Local.after_got, ht]; simp⟩
          case isFalse => exact Or.inl hv
        case h_3 => exact Or.inl hv
      · exact old hg
    · left
      simp only [afterCall, pipesAfter, hsent, if_true]
      exact List.mem_append_right _ List.mem_cons_self

/-! ## The start, and all reachable worlds -/

/-- The world in which process 1, and nothing else, is about to run `p₀`. -/
def init (t : FdTable) (p₀ : Prog (Sys I) Ret α) (pgid : Nat) : World I α where
  procs j :=
    if j = 1 then
      some { loc := .start t, code := p₀, mode := .code, stopped := none, reported := false,
             ppid := 0, pgid := pgid }
    else none
  next := 2
  pipe _ := []
  threads := []

variable {t : FdTable} {p₀ : Prog (Sys I) Ret α} {pgid : Nat}

theorem init_procs {j : Nat} {q : Proc I α} (h : (init t p₀ pgid).procs j = some q) :
    j = 1 ∧ q.loc = .start t ∧ q.code = p₀ := by
  simp only [init] at h
  split at h
  case isTrue hj => obtain rfl := Option.some.inj h; exact ⟨hj, rfl, rfl⟩
  case isFalse => cases h

end World

open World

variable {t : FdTable} {p₀ : Prog (Sys I) Ret α} {pgid : Nat}

theorem Reaches.numbered (hr : Reaches body ok (init t p₀ pgid) w) : w.Numbered := by
  refine hr.invariant ⟨fun hj => ?_, fun hj => ?_⟩ (fun hw _ h => numbered_step hw h)
  · exact (init_procs hj).1 ▸ Nat.lt_succ_self 1
  · obtain ⟨rfl, hl, -⟩ := init_procs hj
    rw [hl]; rfl

/-- **Every process is at a position of the program the run began with.** -/
theorem Reaches.positioned (hr : Reaches body ok (init t p₀ pgid) w) :
    w.Positioned (.start t) p₀ := by
  induction hr with
  | refl =>
      intro j q hj
      obtain ⟨-, hl, hc⟩ := init_procs hj
      rw [hl, hc]
      exact .refl _ _
  | tail hr _ hs ih => exact positioned_step hr.numbered ih hs

/-- **A safety condition of the program holds of every process**, where it is. -/
theorem Reaches.wp (hr : Reaches body ok (init t p₀ pgid) w) {pre : Local I → Sys I → Prop}
    {fin : Local I → Int → Prop} {Q : Local I → α → Prop}
    (hw : Prog.wp Local.Step pre fin p₀ Q (.start t)) {j : Nat} {q : Proc I α}
    (hj : w.procs j = some q) : Prog.wp Local.Step pre fin q.code Q q.loc :=
  (hr.positioned hj).wp hw

/-- **Messages are not made up.** -/
theorem Reaches.conserved (hr : Reaches body ok (init t p₀ pgid) w) : w.Conserved := by
  induction hr with
  | refl =>
      refine ⟨fun hv => absurd hv List.not_mem_nil, fun hm => ?_⟩
      obtain ⟨j, q, hq, hm⟩ := hm
      rw [(init_procs hq).2.1] at hm
      exact absurd hm List.not_mem_nil
  | tail hr _ hs ih => exact conserved_step hr.numbered ih hs

/-- **Nor lost**, if no program that was exec'd reads them first. -/
theorem Reaches.delivered (hspare : ∀ w a, ok w a → w.Spares a)
    (hr : Reaches body ok (init t p₀ pgid) w) : w.Delivered := by
  induction hr with
  | refl =>
      rintro id v ⟨j, q, hq, hm⟩
      rw [(init_procs hq).2.1] at hm
      exact absurd hm List.not_mem_nil
  | tail hr hok hs ih => exact delivered_step hr.numbered ih (hspare _ _ hok) hs

end Posix
