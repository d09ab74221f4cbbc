/-
# `YaojJudger.Posix.Given` — the descriptors a process was given

`pipe` and `open` give a process new descriptors, each the lowest one free.  No
call of the signature closes one.  So the descriptors a process was given, in
the order of its record,

    climb, and none of them was in use at the start   (`Climbed`)
    pass an `exec`, unless one was marked since       (`Passing`)

Both are facts about tables; the record only says which descriptors are meant.
-/
import YaojJudger.Posix.Record

namespace Posix

namespace FdTable

/-- `u` has come from `t` by overwriting entries and by giving out, in turn, `gs`. -/
structure Climbed (t u : FdTable) (gs : List Nat) : Prop where
  keeps : ∀ {fd}, (t.get fd).isSome → (u.get fd).isSome
  climbs : gs.Pairwise (· < ·)
  full : ∀ fd ∈ gs, u.Full (fd + 1)
  fresh : ∀ fd ∈ gs, t.get fd = none

/-- The descriptors `gs` are in use, and `exec` does not close them. -/
def Passing (u : FdTable) (gs : List Nat) : Prop :=
  ∀ fd ∈ gs, ∃ d, u.get fd = some d ∧ d.cloexec = false

theorem climbed_refl (t : FdTable) : Climbed t t [] :=
  ⟨id, List.Pairwise.nil, fun _ h => absurd h List.not_mem_nil,
    fun _ h => absurd h List.not_mem_nil⟩

theorem set_get_isSome {t : FdTable} {fd : Nat} (h : (t.get fd).isSome) (fd₀ : Nat) (d : Desc) :
    ((t.set fd₀ d).get fd).isSome := by
  by_cases hfd : fd = fd₀
  · subst hfd; simp
  · rw [t.set_get_ne d hfd]; exact h

variable {t u : FdTable} {gs : List Nat} {d : Desc}

/-- An entry overwritten. -/
theorem Climbed.set (h : Climbed t u gs) (fd : Nat) (d : Desc) : Climbed t (u.set fd d) gs where
  keeps hfd := set_get_isSome (h.keeps hfd) fd d
  climbs := h.climbs
  full g hg := (h.full g hg).set fd d
  fresh := h.fresh

/-- A descriptor given out. -/
theorem Climbed.give (h : Climbed t u gs) (d : Desc) :
    Climbed t (u.set u.lowest d) (gs ++ [u.lowest]) where
  keeps hfd := set_get_isSome (h.keeps hfd) _ d
  climbs := by
    refine List.pairwise_append.mpr ⟨h.climbs, List.pairwise_singleton _ _, ?_⟩
    rintro g hg fd hfd
    obtain rfl := List.mem_singleton.mp hfd
    exact (h.full g hg).le_lowest
  full := by
    intro g hg
    rcases List.mem_append.mp hg with hg | hg
    · exact (h.full g hg).set _ d
    · obtain rfl := List.mem_singleton.mp hg
      exact full_set_lowest u d
  fresh := by
    intro g hg
    rcases List.mem_append.mp hg with hg | hg
    · exact h.fresh g hg
    · obtain rfl := List.mem_singleton.mp hg
      by_contra hne
      have hsome := h.keeps (Option.isSome_iff_ne_none.mpr hne)
      rw [u.get_lowest] at hsome
      cases hsome

theorem Passing.set (h : Passing u gs) (hd : d.cloexec = false) (fd : Nat) :
    Passing (u.set fd d) gs := by
  intro g hg
  by_cases hfd : g = fd
  · subst hfd; exact ⟨d, u.set_get_self g d, hd⟩
  · rw [u.set_get_ne d hfd]; exact h g hg

theorem Passing.give (h : Passing u gs) (hd : d.cloexec = false) :
    Passing (u.set u.lowest d) (gs ++ [u.lowest]) := by
  intro g hg
  rcases List.mem_append.mp hg with hg | hg
  · exact h.set hd _ g hg
  · obtain rfl := List.mem_singleton.mp hg
    exact ⟨d, u.set_get_self _ d, hd⟩

/-- So many numbers that climb lead up so far. -/
theorem length_le_of_climbs {gs : List Nat} (h : gs.Pairwise (· < ·)) :
    ∀ {n : Nat}, (∀ g ∈ gs, g < n) → gs.length ≤ n := by
  induction gs using List.reverseRecOn with
  | nil => exact fun _ => Nat.zero_le _
  | append_singleton gs g ih =>
      intro n hn
      obtain ⟨hgs, -, hlt⟩ := List.pairwise_append.mp h
      have hle := ih hgs fun g' hg' => hlt g' hg' g (List.mem_singleton_self g)
      have := hn g (List.mem_append_right _ (List.mem_singleton_self g))
      rw [List.length_append, List.length_singleton]
      omega

theorem afterExec_get_isSome (t : FdTable) (fd : Nat) :
    (t.afterExec.get fd).isSome = true ↔ ∃ d, t.get fd = some d ∧ d.cloexec = false := by
  cases h : t.get fd with
  | none => simp [afterExec, h]
  | some d => simp [afterExec, h]

end FdTable

open FdTable

variable {I : Iface} {α : Type}

/-- The descriptors an event gave its process. -/
def Event.given : Event I → List Nat
  | ⟨.pipe, some ends⟩ => [ends.1, ends.2]
  | ⟨.open_ _ _, some fd⟩ => [fd]
  | _ => []

/-- The descriptors a record gave its process, in order. -/
def given (es : List (Event I)) : List Nat := es.flatMap Event.given

/-- Does the call mark a descriptor close-on-exec? -/
def Sys.marks : Sys I → Bool
  | .setCloexec _ => true
  | _ => false

@[simp] theorem given_append (es es' : List (Event I)) :
    given (es ++ es') = given es ++ given es' := List.flatMap_append

@[simp] theorem given_cons (e : Event I) (es : List (Event I)) :
    given (e :: es) = e.given ++ given es := rfl

@[simp] theorem given_nil : given ([] : List (Event I)) = [] := rfl

/-- What a call can do to a table `u`, and the descriptors it gives out by that;
`marks` is whether it marks an entry close-on-exec. -/
inductive Reissued (u : FdTable) (marks : Bool) : FdTable → List Nat → Prop
  | same : Reissued u marks u []
  | set (fd : Nat) (d : Desc) : (marks = false → d.cloexec = false) →
      Reissued u marks (u.set fd d) []
  | give (d : Desc) : d.cloexec = false → Reissued u marks (u.set u.lowest d) [u.lowest]
  | pair (d d' : Desc) : d.cloexec = false → d'.cloexec = false →
      Reissued u marks ((u.set u.lowest d).set (u.set u.lowest d).lowest d')
        ([u.lowest] ++ [(u.set u.lowest d).lowest])

theorem Reissued.climbed {t u u' : FdTable} {marks : Bool} {gs new : List Nat}
    (hu : Reissued u marks u' new) (h : Climbed t u gs) : Climbed t u' (gs ++ new) := by
  cases hu with
  | same => rw [List.append_nil]; exact h
  | set fd d => rw [List.append_nil]; exact h.set fd d
  | give d => exact h.give d
  | pair d d' => rw [← List.append_assoc]; exact (h.give d).give d'

theorem Reissued.passing {u u' : FdTable} {gs new : List Nat} (hu : Reissued u false u' new)
    (h : Passing u gs) : Passing u' (gs ++ new) := by
  cases hu with
  | same => rw [List.append_nil]; exact h
  | set fd d hd => rw [List.append_nil]; exact h.set (hd rfl) fd
  | give d hd => exact h.give hd
  | pair d d' hd hd' => rw [← List.append_assoc]; exact (h.give hd).give hd'

/-- **What a call does to the table of its process.** -/
theorem reissued_after {l : Local I} {c : Sys I} {r : Ret c} (hr : l.Can c r) :
    Reissued l.fds c.marks (l.after c r).fds (Event.given ⟨c, r⟩) := by
  cases c with
  | pipe =>
      cases r with
      | none => exact .same
      | some ends =>
          obtain rfl : ends = l.pipeEnds := hr
          exact .pair ⟨.pipeIn l.nextPipe, false⟩ ⟨.pipeOut l.nextPipe, false⟩ rfl rfl
  | open_ path mode =>
      cases r with
      | none => exact .same
      | some fd =>
          obtain rfl : fd = l.fds.lowest := hr
          exact .give ⟨.file path mode, false⟩ rfl
  | dup2 oldfd newfd =>
      cases r with
      | false => exact .same
      | true =>
          simp only [Local.after, Local.effect]
          split
          · exact .same
          · split
            · exact .set newfd _ fun _ => rfl
            · exact .same
  | setCloexec fd =>
      cases r with
      | false => exact .same
      | true =>
          simp only [Local.after, Local.effect]
          split
          · exact .set fd _ fun h => by cases h
          · exact .same
  | fork =>
      cases r with
      | failed | parent | child => exact .same
  | fault => exact Empty.elim r
  | getpid | setpgid | setrlimit | setNoNewPrivs | setSeccomp | execve | write | read | waitpid
  | killpg | pthreadCreate | pthreadDetach | pthreadCancel | pthreadJoin | sleep | ask =>
      exact .same

section
variable {t : FdTable} {p p' : Prog (Sys I) Ret α} {l : Local I}

/-- **What a process was given climbs.** -/
theorem climbed_of_steps (h : Prog.Steps Local.Step (.start t) p l p') :
    Climbed t l.fds (given l.log) := by
  induction h with
  | refl => exact climbed_refl t
  | tail h hstep ih =>
      obtain ⟨hr, rfl⟩ := hstep
      rw [Local.after_log, given_append, given_cons, given_nil, List.append_nil]
      exact (reissued_after hr).climbed ih

/-- **What a process was given passes an `exec`**, unless a call marked something since. -/
theorem passing_of_steps (h : Prog.Steps Local.Step (.start t) p l p') {es es' : List (Event I)}
    (hlog : l.log = es ++ es') (hes : ∀ e ∈ es', e.call.marks = false) :
    Passing l.fds (given es') := by
  induction h generalizing es' with
  | refl =>
      obtain ⟨-, rfl⟩ := List.append_eq_nil_iff.mp hlog.symm
      exact fun _ h => absurd h List.not_mem_nil
  | tail h hstep ih =>
      obtain ⟨hr, rfl⟩ := hstep
      rw [Local.after_log] at hlog
      rcases List.eq_nil_or_concat' es' with rfl | ⟨es'', e, rfl⟩
      · exact fun _ h => absurd h List.not_mem_nil
      · rw [← List.append_assoc] at hlog
        obtain ⟨hold, hnew⟩ := List.append_inj' hlog rfl
        obtain rfl := List.singleton_inj.mp hnew
        have hmark := hes _ (List.mem_append_right _ (List.mem_singleton_self _))
        rw [given_append, given_cons, given_nil, List.append_nil]
        refine Reissued.passing ?_ (ih hold fun e he => hes e (List.mem_append_left _ he))
        exact hmark ▸ reissued_after hr

/-- **A descriptor that reaches the program.**  What a process was given after so many
others, and nothing was marked since, was not open at the start and passes an `exec`. -/
theorem given_passes (h : Prog.Steps Local.Step (.start t) p l p') {es es' : List (Event I)}
    (hlog : l.log = es ++ es') (hes : ∀ e ∈ es', e.call.marks = false) {fd : Nat}
    (hfd : fd ∈ given es') :
    (given es).length ≤ fd ∧ t.get fd = none ∧ (l.fds.afterExec.get fd).isSome := by
  have hc := climbed_of_steps h
  rw [hlog, given_append] at hc
  obtain ⟨hclimb, -, hlt⟩ := List.pairwise_append.mp hc.climbs
  refine ⟨length_le_of_climbs hclimb fun g hg => hlt g hg fd hfd,
    hc.fresh fd (List.mem_append_right _ hfd), ?_⟩
  exact (afterExec_get_isSome _ _).mpr (passing_of_steps h hlog hes fd hfd)

end

end Posix
