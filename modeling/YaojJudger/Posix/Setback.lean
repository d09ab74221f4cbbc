/-
# `YaojJudger.Posix.Setback` — how far a process gets when nothing works for it

Whether a process *can* still do something is a question about the runs that
are open to it.  The one run that is easy to follow is the one in which every
call fails that can: it needs nobody's help, it changes nothing outside the
process, and it leads to a call that cannot be failed (`firm`), to `exit`, or
to a returned value.  `Reaches.drive` is that run.
-/
import YaojJudger.Posix.Record

namespace Posix

open World

variable {I : Iface} {α : Type} {body : Nat → I.Start → Prog (Sys I) Ret Unit}
  {ok : World I α → Act I → Prop} {w₀ w w' : World I α}

/-- The calls that stop such a run. -/
def Sys.firm : Sys I → Bool
  | .write _ _ | .read _ | .fault => true
  | _ => false

/-- The result of the call when it fails, or of one that always succeeds. -/
def setback (failing : (q : I.Ask) → I.Ans q) (l : Local I) : (c : Sys I) → Option (Ret c)
  | .getpid => some l.pid
  | .pipe => some none
  | .fork => some .failed
  | .open_ _ _ => some none
  | .execve _ _ _ => some ()
  | .waitpid _ _ => some none
  | .pthreadCreate _ => some none
  | .ask q => some (failing q)
  | .write _ _ | .read _ | .fault => none
  | .setpgid | .dup2 _ _ | .setCloexec _ | .setrlimit _ _ _ | .setNoNewPrivs | .setSeccomp _
  | .killpg _ | .pthreadDetach | .pthreadCancel _ | .pthreadJoin _ | .sleep _ => some false

/-- How the system brings it about. -/
def wayOut (failing : (q : I.Ask) → I.Ans q) : Sys I → Outcome I
  | .getpid => .ok
  | .ask _ => .answer failing
  | _ => .fail

section
variable {failing : (q : I.Ask) → I.Ans q} {l : Local I} {c : Sys I} {r : Ret c}

theorem setback_isSome (hc : c.firm = false) : ∃ r, setback failing l c = some r := by
  cases c <;> first | exact ⟨_, rfl⟩ | cases hc

theorem reply_setback {i : Nat} (h : setback failing l c = some r) :
    w.reply i l c (wayOut failing c) = some r := by
  cases c <;> first | exact h | cases h

theorem isExec_wayOut (c : Sys I) : isExec c (wayOut failing c) = false := by
  cases c <;> rfl

theorem can_setback (h : setback failing l c = some r) : l.Can c r := by
  cases c <;> first
    | (obtain rfl := Option.some.inj h; first | rfl | trivial)
    | cases h

/-- It changes nothing but the record. -/
theorem after_setback (h : setback failing l c = some r) :
    l.after c r = { l with log := l.log ++ [⟨c, r⟩] } := by
  cases c <;> first
    | (obtain rfl := Option.some.inj h
       simp [Local.after, Local.effect, Local.sent, Local.taken])
    | cases h

theorem touch_setback (h : setback failing l c = some r) (i j : Nat) (q : Proc I α) :
    touch i c r j q = q := by
  cases c <;> first | (obtain rfl := Option.some.inj h; rfl) | cases h

theorem childOf_setback (h : setback failing l c = some r) (i : Nat) (p : Proc I α)
    (k : Ret c → Prog (Sys I) Ret α) : childOf i p c k r = none := by
  cases c <;> first | (obtain rfl := Option.some.inj h; rfl) | cases h

theorem pipes_setback (h : setback failing l c = some r) : w.pipesAfter l c r = w.pipe := by
  funext id
  cases c <;> first
    | (obtain rfl := Option.some.inj h; simp [pipesAfter, Local.sent, Local.taken])
    | cases h

end

/-- An event of such a run. -/
def IsSetback (failing : (q : I.Ask) → I.Ans q) (e : Event I) : Prop :=
  ∃ l, setback failing l e.call = some e.result

theorem IsSetback.not_firm {failing : (q : I.Ask) → I.Ans q} {e : Event I}
    (h : IsSetback failing e) :
    e.call.firm = false := by
  obtain ⟨l, hl⟩ := h
  obtain ⟨c, r⟩ := e
  cases c <;> first | rfl | cases hl

theorem IsSetback.born {failing : (q : I.Ask) → I.Ans q} {e : Event I} (h : IsSetback failing e) :
    e.born = none := by
  refine Event.born_eq_none ?_
  rintro self rfl
  obtain ⟨l, hl⟩ := h
  cases Option.some.inj hl

theorem Reaches.trans (h : Reaches body ok w₀ w) (h' : Reaches body ok w w') :
    Reaches body ok w₀ w' := by
  induction h' with
  | refl => exact h
  | tail _ hok hs ih => exact .tail ih hok hs

/-- What has become of process `i`, which was `q`, and of everything else; `es`
is what it has gone through. -/
structure Driven (failing : (q : I.Ask) → I.Ans q) (i : Nat) (q : Proc I α) (w w' : World I α)
    (q' : Proc I α) (es : List (Event I)) : Prop where
  procs : w'.procs i = some q'
  others : ∀ j, j ≠ i → w'.procs j = w.procs j
  pipe : w'.pipe = w.pipe
  loc : q'.loc = { q.loc with log := q.loc.log ++ es }
  setbacks : ∀ e ∈ es, IsSetback failing e
  mode : q'.mode = .code
  stopped : q'.stopped = none
  steps : Prog.Steps Local.Step q.loc q.code q'.loc q'.code
  firm : ∀ {c k}, q'.code = .call c k → c.firm = true
  still : es = [] → q' = q

/-- **A process can be driven** to its next firm call, or to its end. -/
theorem drive (failing : (q : I.Ask) → I.Ans q) {i : Nat}
    (hok : ∀ (w : World I α) q c k, w.procs i = some q → q.code = .call c k → c.firm = false →
      ok w (.sys i (wayOut failing c))) :
    ∀ {p : Prog (Sys I) Ret α} {w : World I α} {q : Proc I α}, w.procs i = some q → q.code = p →
      q.mode = .code → q.stopped = none →
      ∃ w' q' es, Reaches body ok w w' ∧ Driven failing i q w w' q' es := by
  have stay : ∀ {w : World I α} {q : Proc I α}, w.procs i = some q → q.mode = .code →
      q.stopped = none → (∀ {c k}, q.code = .call c k → c.firm = true) →
      ∃ w' q' es, Reaches body ok w w' ∧ Driven failing i q w w' q' es := by
    intro w q hq hm hst hfirm
    refine ⟨w, q, [], .refl, hq, fun _ _ => rfl, rfl, ?_, ?_, hm, hst, .refl _ _, hfirm,
      fun _ => rfl⟩
    · rw [List.append_nil]
    · exact fun e he => absurd he List.not_mem_nil
  intro p
  induction p with
  | ret a =>
      intro w q hq hc hm hst
      exact stay hq hm hst fun h => by cases hc.symm.trans h
  | exit n =>
      intro w q hq hc hm hst
      exact stay hq hm hst fun h => by cases hc.symm.trans h
  | call c k ih =>
      intro w q hq hc hm hst
      cases hf : c.firm with
      | true =>
          refine stay hq hm hst ?_
          intro c' k' hc'
          cases hc.symm.trans hc'
          exact hf
      | false =>
          obtain ⟨r, hr⟩ : ∃ r, setback failing q.loc c = some r := setback_isSome hf
          obtain ⟨hstep, hself, hothers⟩ := call_idle body hq hm hst hc (isExec_wayOut c)
            (reply_setback hr) (touch_setback hr i) (childOf_setback hr i q k)
          obtain ⟨w', q', es, hreach, hd⟩ := ih r hself rfl hm hst
          have hloc := after_setback hr
          refine ⟨w', q', ⟨c, r⟩ :: es, ?_, hd.procs, ?_, ?_, ?_, ?_, hd.mode, hd.stopped, ?_,
            hd.firm,
            fun h => by cases h⟩
          · exact (Reaches.refl.tail (hok w q c k hq hc hf) hstep).trans hreach
          · exact fun j hj => (hd.others j hj).trans (hothers j hj)
          · exact hd.pipe.trans (pipes_setback hr)
          · rw [hd.loc, hloc, List.append_assoc]
            rfl
          · intro e he
            rcases List.mem_cons.mp he with rfl | he
            · exact ⟨q.loc, hr⟩
            · exact hd.setbacks e he
          · rw [hc]
            exact ((Prog.Steps.refl q.loc (.call c k)).tail ⟨can_setback hr, rfl⟩).trans hd.steps

end Posix
