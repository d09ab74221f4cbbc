/-
# `YaojJudger.Independent` — when the calls of a process do not mix

A call that has returned owes its context three things (`OwnReturn`):

    real_time    its last end minus its last start
    tid          the last killer it started, for its own child
    the return   0, or the error code of its one step that failed

Each of them goes through a global, and each goes wrong in some interleaving of
two calls (`calls_mix`): the start of the other, the killer of the other where
none could be created, the error of the other.  In a run of harmless steps none
does, whatever the order (`calls_independent`).  The proof looks at one call: all
it knows of the others is that it is served.
-/
import YaojJudger.Shared

namespace YaojJudger

open Posix

/-- The context holds what its own call has measured and started. -/
structure OwnValues (ctxt : YjudgerCtxt) (b : Book) : Prop where
  realTime : ∀ e ∈ b.ends.getLast?, ∃ s ∈ b.starts.getLast?,
    ctxt.result.realTime = toMillisecond e - toMillisecond s
  tid : b.killers ≠ [] → ctxt.tid = b.tid
  aim : ∀ k ∈ b.killers, b.children = [k.1.pid]

/-- What a call that returned `r` owes to its context and its caller. -/
structure OwnReturn (ctxt : YjudgerCtxt) (b : Book) (r : Int) : Prop where
  values : OwnValues ctxt b
  error : r ≠ 0 → b.errors = [r]
  timed : r = 0 → b.ends ≠ []
  armed : r = 0 → ctxt.rctxt.realTime ≠ rscUnlimited → b.killers ≠ []

theorem OwnReturn.failed {ctxt : YjudgerCtxt} {b : Book} {r : Int} (hr : r ≠ 0)
    (hv : OwnValues ctxt b) (he : b.errors = [r]) : OwnReturn ctxt b r :=
  ⟨hv, fun _ => he, fun h => absurd h hr, fun h => absurd h hr⟩

theorem OwnValues.of_nil {ctxt : YjudgerCtxt} {b : Book} (hends : b.ends = [])
    (hkillers : b.killers = []) : OwnValues ctxt b := by
  refine ⟨?_, fun h => absurd hkillers h, ?_⟩
  · rw [hends]
    exact fun e he => absurd he (by simp)
  · rw [hkillers]
    exact fun k hk => absurd hk List.not_mem_nil

/-! ## The chains of a context -/

/-- Hooks where they belong, and a start for every end. -/
structure Arranged (hctxt : HookCtxt Hook) : Prop where
  hooks : BuiltinHooks hctxt
  wait : ∀ h ∈ hctxt.afterWait, h ∈ waitHooks
  balanced : hctxt.afterWait.count .timerAfterWait ≤ hctxt.afterFork.count .timerAfterFork

theorem count_register (hctxt : HookCtxt Hook) :
    (registerBuiltinHook hctxt).afterWait.count .timerAfterWait =
        hctxt.afterWait.count .timerAfterWait + 1 ∧
      (registerBuiltinHook hctxt).afterFork.count .timerAfterFork =
        hctxt.afterFork.count .timerAfterFork + 1 ∧
      (registerBuiltinHook hctxt).afterFork.count .startKillerAfterFork =
        hctxt.afterFork.count .startKillerAfterFork + 1 := by
  simp [registerBuiltinHook, registerHook, pushfrontHook]

theorem Arranged.register {hctxt : HookCtxt Hook} (h : Arranged hctxt) :
    Arranged (registerBuiltinHook hctxt) := by
  refine ⟨h.hooks.register, waitHooks_register h.wait, ?_⟩
  obtain ⟨hwait, hafter, -⟩ := count_register hctxt
  rw [hwait, hafter]
  exact Nat.succ_le_succ h.balanced

/-- The chains a call runs through, its own hooks in front. -/
structure Registered (hctxt : HookCtxt Hook) : Prop extends Arranged hctxt where
  timer : 0 < hctxt.afterWait.count .timerAfterWait
  killer : 0 < hctxt.afterFork.count .startKillerAfterFork

theorem Arranged.registered {hctxt : HookCtxt Hook} (h : Arranged hctxt) :
    Registered (registerBuiltinHook hctxt) := by
  obtain ⟨hwait, -, hkiller⟩ := count_register hctxt
  exact ⟨h.register, hwait ▸ Nat.succ_pos _, hkiller ▸ Nat.succ_pos _⟩

theorem arranged_iterate (k : Nat) : Arranged (registerBuiltinHook^[k] hookCtxtCreate) := by
  induction k with
  | zero => exact ⟨builtinHooks_iterate 0, waitHooks_iterate 0, Nat.le_refl 0⟩
  | succ k ih =>
      rw [Function.iterate_succ_apply']
      exact ih.register

/-! ## One call by itself -/

/-- Whatever the globals, as long as they serve the call. -/
abbrev Yields {α : Type} (p : Judgement α) (Q : JView → α → Prop) (v : JView) : Prop :=
  Prog.wp OwnStep (fun _ _ => True) (fun _ _ => True) p Q v

section
variable {α : Type} {v v' : JView} {a : Atom} {r : Int}

theorem yields_act {Q : JView → a.Res → Prop} (h : ∀ r v', OwnStep v a r v' → Q v' r) :
    Yields (act a) Q v := ⟨trivial, h⟩

theorem yields_act_bind {f : a.Res → Judgement α} {Q : JView → α → Prop}
    (h : ∀ r v', OwnStep v a r v' → Yields (f r) Q v') : Yields (act a >>= f) Q v := ⟨trivial, h⟩

/-- The error of the call comes through `yerrno`. -/
theorem OwnReturn.passOn {r' : Int} (h : OwnReturn v.1 (book v.2) r) (hr : r ≠ 0)
    (hs : OwnStep v .passOn r' v') : r' = r ∧ OwnReturn v'.1 (book v'.2) r := by
  cases hs with
  | mk hd hserves _ =>
      cases hd with
      | passOn es =>
          have herrors := h.error hr
          refine ⟨hserves.error r ?_, ?_⟩
          · rw [herrors]
            rfl
          · rw [book_append, Book.add_unbooked _ _ rfl]
            exact h

/-- **A chain**: `K` holds of what is left of it, until a hook fails. -/
theorem yields_hookChain {K : List Hook → YjudgerCtxt → Book → Prop}
    (hK : ∀ {h next v r v'}, K (h :: next) v.1 (book v.2) → OwnStep v (.hook h) r v' →
      (r = 0 → K next v'.1 (book v'.2)) ∧ (r ≠ 0 → OwnReturn v'.1 (book v'.2) r)) :
    ∀ {chain : List Hook} {v : JView}, K chain v.1 (book v.2) →
      Yields (hookChain chain) (fun v' r => (r = 0 ∧ K [] v'.1 (book v'.2)) ∨
        (r ≠ 0 ∧ OwnReturn v'.1 (book v'.2) r)) v := by
  intro chain
  induction chain with
  | nil => intro v hv; exact Or.inl ⟨rfl, hv⟩
  | cons h next ih =>
      intro v hv
      refine yields_act_bind fun r v₁ hs => ?_
      obtain ⟨hzero, hfail⟩ := hK hv hs
      by_cases hr : r = 0
      · rw [if_neg (not_not.mpr hr)]
        exact ih (hzero hr)
      · rw [if_pos hr]
        refine yields_act fun r' v₂ hs' => Or.inr ?_
        obtain ⟨rfl, hret⟩ := (hfail hr).passOn hr hs'
        exact ⟨hr, hret⟩

end

/-! ## The three chains -/

section
variable {hctxt : HookCtxt Hook} {n : Int} {h : Hook} {next : List Hook} {v v' : JView} {r : Int}

/-- Before the fork the books are empty. -/
structure Before (hctxt : HookCtxt Hook) (chain : List Hook) (ctxt : YjudgerCtxt) (b : Book) :
    Prop where
  placed : ∀ h ∈ chain, h = .initResultBeforeFork ∨ h = .compilePolicyBeforeFork
  hooks : ctxt.hctxt = hctxt
  fresh : b = .empty

theorem Before.hook (hv : Before hctxt (h :: next) v.1 (book v.2))
    (hs : OwnStep v (.hook h) r v') :
    (r = 0 → Before hctxt next v'.1 (book v'.2)) ∧ (r ≠ 0 → OwnReturn v'.1 (book v'.2) r) := by
  cases hs with
  | @mk _ m m' _ es done hd _ _ =>
      cases hd with
      | hook hd =>
          have hadd : book (done ++ [⟨.hook h, r, es⟩]) =
              { Book.empty with errors := if r = 0 then [] else [r] } := by
            have hempty : book done = .empty := hv.fresh
            rw [book_append, hempty]
            rcases hv.placed h List.mem_cons_self with rfl | rfl
            · exact Book.add_hook _ _ _ rfl
            · exact Book.add_hook _ _ _ rfl
          rw [hadd]
          constructor
          · rintro rfl
            exact ⟨fun x hx => hv.placed x (List.mem_cons_of_mem _ hx),
              hd.keeps.hctxt.trans hv.hooks, rfl⟩
          · intro hr
            exact .failed hr (.of_nil rfl rfl) (if_neg hr)

/-- After the fork of `n`, with `chain` left of the hooks. -/
structure After (hctxt : HookCtxt Hook) (n : Int) (chain : List Hook) (ctxt : YjudgerCtxt)
    (b : Book) : Prop where
  placed : ∀ h ∈ chain, h = .startKillerAfterFork ∨ h = .timerAfterFork
  hooks : ctxt.hctxt = hctxt
  pchild : ctxt.pchild = n
  errors : b.errors = []
  ends : b.ends = []
  children : b.children = [n]
  starts : b.starts.length + chain.count .timerAfterFork = hctxt.afterFork.count .timerAfterFork
  killers : ctxt.rctxt.realTime ≠ rscUnlimited →
    b.killers.length + chain.count .startKillerAfterFork =
      hctxt.afterFork.count .startKillerAfterFork
  values : OwnValues ctxt b

/-- Without a limit there is no killer to start. -/
theorem After.noLimit {ctxt : YjudgerCtxt} {b : Book} (hz : ctxt.rctxt.realTime = rscUnlimited)
    (hv : After hctxt n (.startKillerAfterFork :: next) ctxt b) : After hctxt n next ctxt b :=
  { hv with
    placed := fun x hx => hv.placed x (List.mem_cons_of_mem _ hx)
    starts := by simpa using hv.starts
    killers := fun hlim => absurd hz hlim }

/-- The hook that starts a killer, or takes what is in the static `tid`. -/
theorem After.killer {m : Mem} {b : Book} {t : Attempt}
    (htid : ∀ left, t = .refused left → left = b.tid)
    (hv : After hctxt n (.startKillerAfterFork :: next) m.ctxt b) :
    After hctxt n next (m.killer t.tid).ctxt
      { b with killers := b.killers ++ [(m.tkillCtxt, t.thread)] } := by
  have htid' : t.tid = t.thread.getD b.tid := by
    cases t with
    | created t => rfl
    | refused left => exact htid left rfl
  exact { hv with
    placed := fun x hx => hv.placed x (List.mem_cons_of_mem _ hx)
    starts := by simpa using hv.starts
    killers := by
      intro hlim
      have hcount := hv.killers hlim
      rw [List.count_cons_self] at hcount
      simp only [List.length_append, List.length_singleton]
      omega
    values := {
      realTime := hv.values.realTime
      tid := fun _ => htid'.trans (Book.tid_killer b _ t.thread).symm
      aim := by
        refine List.forall_mem_append.mpr ⟨hv.values.aim, ?_⟩
        intro k hk
        rw [List.mem_singleton.mp hk]
        show b.children = [m.ctxt.pchild]
        rw [hv.children, hv.pchild] } }

/-- The hook that reads the clock first. -/
theorem After.started {ctxt : YjudgerCtxt} {b : Book} (now : Timeval)
    (hv : After hctxt n (.timerAfterFork :: next) ctxt b) :
    After hctxt n next ctxt { b with starts := b.starts ++ [now] } := by
  have hends := hv.ends
  exact { hv with
    placed := fun x hx => hv.placed x (List.mem_cons_of_mem _ hx)
    starts := by
      have hcount := hv.starts
      rw [List.count_cons_self] at hcount
      simp only [List.length_append, List.length_singleton]
      omega
    killers := by
      intro hlim
      simpa using hv.killers hlim
    values := { hv.values with
      realTime := by
        intro e he
        rw [hends] at he
        cases he } }

theorem After.hook (hv : After hctxt n (h :: next) v.1 (book v.2))
    (hs : OwnStep v (.hook h) r v') :
    (r = 0 → After hctxt n next v'.1 (book v'.2)) ∧ (r ≠ 0 → OwnReturn v'.1 (book v'.2) r) := by
  cases hs with
  | @mk _ m m' _ es done hd _ htid =>
      replace hv : After hctxt n (h :: next) m.ctxt (book done) := hv
      rw [book_append]
      generalize book done = b at hv htid
      cases hd with
      | hook hd =>
          rcases hv.placed h List.mem_cons_self with rfl | rfl
          · cases hd with
            | noLimit hz =>
                rw [Book.add_noLimit]
                exact ⟨fun _ => hv.noLimit hz, fun hr => absurd rfl hr⟩
            | killer t hz =>
                rw [Book.add_killer]
                have hrefused : ∀ left, t = .refused left → left = b.tid := by
                  rintro left rfl
                  exact htid left rfl
                exact ⟨fun _ => hv.killer hrefused, fun hr => absurd rfl hr⟩
          · cases hd with
            | started now =>
                rw [Book.add_started]
                exact ⟨fun _ => hv.started now, fun hr => absurd rfl hr⟩

/-- After the wait, with `chain` left of the hooks. -/
structure Waited (hctxt : HookCtxt Hook) (chain : List Hook) (ctxt : YjudgerCtxt) (b : Book) :
    Prop where
  placed : ∀ h ∈ chain, h ∈ waitHooks
  errors : b.errors = []
  starts : b.starts.length = hctxt.afterFork.count .timerAfterFork
  ends : b.ends.length + chain.count .timerAfterWait = hctxt.afterWait.count .timerAfterWait
  killers : ctxt.rctxt.realTime ≠ rscUnlimited →
    b.killers.length = hctxt.afterFork.count .startKillerAfterFork
  values : OwnValues ctxt b

/-- The context has kept what it owes. -/
theorem OwnValues.congr {ctxt ctxt' : YjudgerCtxt} {b : Book} (h : OwnValues ctxt b)
    (htime : ctxt'.result.realTime = ctxt.result.realTime) (htid : ctxt'.tid = ctxt.tid) :
    OwnValues ctxt' b := by
  refine ⟨fun e he => ?_, fun hne => htid.trans (h.tid hne), h.aim⟩
  obtain ⟨s, hs, heq⟩ := h.realTime e he
  exact ⟨s, hs, htime.trans heq⟩

theorem analyzed_realTime (ctxt : YjudgerCtxt) :
    (analyzed ctxt).result.realTime = ctxt.result.realTime := by
  simp only [analyzed]
  split
  · rfl
  · split <;> rfl

/-- A hook that measures nothing. -/
theorem Waited.quiet {ctxt ctxt' : YjudgerCtxt} {b : Book} (hv : Waited hctxt (h :: next) ctxt b)
    (hh : h ≠ .timerAfterWait) (hlim : ctxt'.rctxt = ctxt.rctxt)
    (htime : ctxt'.result.realTime = ctxt.result.realTime) (htid : ctxt'.tid = ctxt.tid) :
    Waited hctxt next ctxt' { b with errors := b.errors ++ [] } := by
  have hends := hv.ends
  rw [List.count_cons_of_ne hh] at hends
  have hvalues := hv.values.congr htime htid
  exact {
    placed := fun x hx => hv.placed x (List.mem_cons_of_mem _ hx)
    errors := by rw [List.append_nil]; exact hv.errors
    starts := hv.starts
    ends := hends
    killers := hlim ▸ hv.killers
    values := ⟨hvalues.realTime, hvalues.tid, hvalues.aim⟩ }

/-- The hook that reads the clock again. -/
theorem Waited.ended {m : Mem} {b : Book} (now : Timeval)
    (hbalanced : hctxt.afterWait.count .timerAfterWait ≤ hctxt.afterFork.count .timerAfterFork)
    (hv : Waited hctxt (.timerAfterWait :: next) m.ctxt b) (hserves : Serves (memSplit m).1 b) :
    Waited hctxt next (m.ended now).ctxt { b with ends := b.ends ++ [now] } := by
  have hends := hv.ends
  have hstarts := hv.starts
  rw [List.count_cons_self] at hends
  have htiming : b.Timing := by
    rw [Book.Timing]
    omega
  have hne : b.starts ≠ [] := by
    rintro hnil
    rw [Book.Timing, hnil] at htiming
    exact Nat.not_lt_zero _ htiming
  have hlast := List.getLast?_eq_some_getLast hne
  have hstart : toMillisecond m.start = toMillisecond (b.starts.getLast hne) :=
    hserves.start htiming _ hlast
  exact { hv with
    placed := fun x hx => hv.placed x (List.mem_cons_of_mem _ hx)
    ends := by
      rw [List.length_append, List.length_singleton]
      omega
    values := { hv.values with
      realTime := by
        intro e he
        obtain rfl : now = e := by simpa using he
        refine ⟨_, hlast, ?_⟩
        rw [← hstart]
        rfl } }

theorem Waited.hook (hbalanced : hctxt.afterWait.count .timerAfterWait ≤
      hctxt.afterFork.count .timerAfterFork) (hv : Waited hctxt (h :: next) v.1 (book v.2))
    (hs : OwnStep v (.hook h) r v') :
    (r = 0 → Waited hctxt next v'.1 (book v'.2)) ∧ (r ≠ 0 → OwnReturn v'.1 (book v'.2) r) := by
  cases hs with
  | @mk _ m m' _ es done hd hserves _ =>
      replace hv : Waited hctxt (h :: next) m.ctxt (book done) := hv
      rw [book_append]
      generalize book done = b at hv hserves
      cases hd with
      | hook hd =>
          have hplaced := hv.placed h List.mem_cons_self
          simp only [waitHooks, List.mem_cons, List.not_mem_nil, or_false] at hplaced
          rcases hplaced with rfl | rfl | rfl | rfl
          · cases hd with
            | ended now =>
                refine ⟨fun _ => ?_, fun hr => absurd rfl hr⟩
                rw [Book.add_ended]
                exact hv.ended now hbalanced hserves
          · rw [Book.add_hook _ _ _ rfl]
            cases hd with
            | noUsage =>
                refine ⟨fun h0 => absurd h0 (by decide), fun hr => .failed hr ?_ ?_⟩
                · exact ⟨hv.values.realTime, hv.values.tid, hv.values.aim⟩
                · rw [hv.errors, if_neg hr]
                  rfl
            | used ru => exact ⟨fun _ => hv.quiet (by decide) rfl rfl rfl, fun hr => absurd rfl hr⟩
          · rw [Book.add_hook _ _ _ rfl]
            have hquiet : Waited hctxt next m.ctxt { b with errors := b.errors ++ [] } :=
              hv.quiet (by decide) rfl rfl rfl
            cases hd with
            | noKiller _ => exact ⟨fun _ => hquiet, fun hr => absurd rfl hr⟩
            | stopped _ _ _ _ => exact ⟨fun _ => hquiet, fun hr => absurd rfl hr⟩
          · rw [Book.add_hook _ _ _ rfl]
            have hlim := hd.keeps.rctxt
            cases hd with
            | analyzed =>
                exact ⟨fun _ => hv.quiet (by decide) hlim (analyzed_realTime _) (analyzed_tid _),
                  fun hr => absurd rfl hr⟩

end

/-! ## The judgement -/

section
variable {hctxt : HookCtxt Hook} {v v' : JView} {r : Int}

/-- What is to be shown of a call. -/
abbrev Returns (v : JView) (r : Int) : Prop := OwnReturn v.1 (book v.2) r

/-- The pieces that leave the context alone. -/
def Atom.reads : Atom → Bool
  | .pipe | .argc | .chain _ | .fail _ | .fork | .ready _ | .waitpid _ | .killpg _ => true
  | _ => false

theorem OwnStep.ctxt {a : Atom} {r : a.Res} (hs : OwnStep v a r v') (h : a.reads = true) :
    v'.1 = v.1 := by
  cases hs with
  | mk hd _ _ =>
      cases hd with
      | begin | register | hook | passOn | parent | status => cases h
      | _ => rfl

theorem OwnStep.book {a : Atom} {r : a.Res} (hs : OwnStep v a r v') (h : a.unbooked = true) :
    book v'.2 = book v.2 := by
  cases hs with
  | mk _ _ _ => rw [book_append, Book.add_unbooked _ _ h]

theorem yields_fail {errnum : Int} (hne : errnum ≠ 0) (hv : OwnValues v.1 (book v.2))
    (he : (book v.2).errors = []) : Yields (act (.fail errnum)) Returns v := by
  refine yields_act fun r v' hs => ?_
  have hctxt := hs.ctxt rfl
  cases hs with
  | @mk _ m m' _ es done hd _ _ =>
      cases hd with
      | fail _ _ =>
          have hadd : book (done ++ [⟨.fail errnum, errnum, es⟩]) =
              { book done with errors := [errnum] } := by
            rw [book_append]
            have hnil : (book done).errors = [] := he
            simp [Book.add, startStamp, endStamp, killerStart, errorCode, forkedChild, hnil]
          refine .failed hne ?_ ?_
          · rw [hadd]
            exact ⟨hv.realTime, hv.tid, hv.aim⟩
          · rw [hadd]

theorem yields_passOn (hr : r ≠ 0) (h : OwnReturn v.1 (book v.2) r) :
    Yields (act .passOn) Returns v := by
  refine yields_act fun r' v' hs => ?_
  obtain ⟨rfl, hret⟩ := h.passOn hr hs
  exact hret

/-- A chain in place, and what comes after it. -/
theorem yields_runChain {α : Type} {K : List Hook → YjudgerCtxt → Book → Prop} {type : HookType}
    (hK : ∀ {h next v r v'}, K (h :: next) v.1 (book v.2) → OwnStep v (.hook h) r v' →
      (r = 0 → K next v'.1 (book v'.2)) ∧ (r ≠ 0 → OwnReturn v'.1 (book v'.2) r))
    (hv : K (v.1.hctxt.chain type) v.1 (book v.2)) {f : Int → Judgement α} {Q : JView → α → Prop}
    (hzero : ∀ v', K [] v'.1 (book v'.2) → Yields (f 0) Q v')
    (hfail : ∀ r v', r ≠ 0 → OwnReturn v'.1 (book v'.2) r → Yields (f r) Q v') :
    Yields (runChain type >>= f) Q v := by
  rw [Yields, Prog.wp_bind]
  refine yields_act_bind fun chain v' hs => ?_
  have hctxt := hs.ctxt rfl
  have hbook := hs.book rfl
  have hchain : chain = v.1.hctxt.chain type := by
    cases hs with
    | mk hd _ _ => cases hd; rfl
  rw [← hchain, ← hctxt, ← hbook] at hv
  refine Prog.wp_post (fun v' r h => ?_) (yields_hookChain hK hv)
  rcases h with ⟨rfl, hend⟩ | ⟨hr, hret⟩
  · exact hzero v' hend
  · exact hfail r v' hr hret

theorem yields_judgeAfterWaitpid (hr : Registered hctxt) {n : Int} (st : Option Nat)
    (hv : After hctxt n [] v.1 (book v.2)) : Yields (judgeAfterWaitpid n st) Returns v := by
  cases st with
  | none =>
      refine yields_act_bind fun b v₁ hs => yields_fail (by decide) ?_ ?_
      · rw [hs.ctxt rfl, hs.book rfl]
        exact hv.values
      · rw [hs.book rfl]
        exact hv.errors
  | some st =>
      refine yields_act_bind fun _ v₁ hs => ?_
      have hbook := hs.book rfl
      have hwaited : Waited hctxt (v₁.1.hctxt.chain .afterWait) v₁.1 (book v₁.2) := by
        obtain rfl := hv.hooks
        rw [hbook]
        cases hs with
        | mk hd _ _ =>
            cases hd with
            | status _ _ =>
                exact {
                  placed := hr.wait
                  errors := hv.errors
                  starts := by simpa using hv.starts
                  ends := by rw [hv.ends]; exact Nat.zero_add _
                  killers := fun hlim => by simpa using hv.killers hlim
                  values := hv.values.congr rfl rfl }
      refine yields_runChain (K := Waited hctxt) (Waited.hook hr.balanced) hwaited ?_ ?_
      · intro v₂ hend
        have hends := hend.ends
        rw [List.count_nil, Nat.add_zero] at hends
        refine ⟨hend.values, fun h0 => absurd rfl h0, fun _ hnil => ?_, fun _ hlim hnil => ?_⟩
        · have htimer := hr.timer
          rw [hnil] at hends
          exact absurd hends.symm htimer.ne'
        · have hkillers := hend.killers hlim
          have hkiller := hr.killer
          rw [hnil] at hkillers
          exact absurd hkillers.symm hkiller.ne'
      · intro r v₂ hne hret
        rw [if_pos hne]
        exact yields_passOn hne hret

theorem yields_judgeParent (hr : Registered hctxt) {n : Int} (pRun : Nat × Nat)
    (hhooks : v.1.hctxt = hctxt) (hbook : book v.2 = { Book.empty with children := [n] }) :
    Yields (judgeParent pRun n) Returns v := by
  refine yields_act_bind fun _ v₁ hs => ?_
  have hafter : After hctxt n (v₁.1.hctxt.chain .afterFork) v₁.1 (book v₁.2) := by
    obtain rfl := hhooks
    rw [hs.book rfl, hbook]
    cases hs with
    | mk hd _ _ =>
        cases hd with
        | parent _ _ =>
            exact {
              placed := hr.hooks.after
              hooks := rfl
              pchild := rfl
              errors := rfl
              ends := rfl
              children := rfl
              starts := Nat.zero_add _
              killers := fun _ => Nat.zero_add _
              values := .of_nil rfl rfl }
  refine yields_act_bind fun signal v₂ hs₂ => ?_
  rw [← hs₂.ctxt rfl, ← hs₂.book rfl] at hafter
  by_cases hready : signal = ready
  · rw [if_neg (not_not.mpr hready)]
    refine yields_runChain (K := After hctxt n) After.hook hafter ?_ ?_
    · intro v₃ hend
      refine yields_act_bind fun st v₄ hs₄ => yields_judgeAfterWaitpid hr st ?_
      rw [hs₄.ctxt rfl, hs₄.book rfl]
      exact hend
    · intro r v₃ hne hret
      rw [if_pos hne]
      exact yields_passOn hne hret
  · rw [if_pos hready]
    exact yields_fail (by decide) hafter.values hafter.errors

theorem yields_judgeForked (hr : Registered hctxt) (j : Judger) (pRun : Nat × Nat)
    (hhooks : v.1.hctxt = hctxt) (hbook : book v.2 = .empty) :
    Yields (judgeForked j pRun) Returns v := by
  refine yields_act_bind fun childPid v₁ hs => ?_
  have hhooks₁ : v₁.1.hctxt = hctxt := (congrArg _ (hs.ctxt rfl)).trans hhooks
  have hbook₁ : book v₁.2 = { Book.empty with children := [childPid] } := by
    cases hs with
    | mk _ _ _ =>
        rw [book_append, show book _ = Book.empty from hbook]
        rfl
  have hvalues : OwnValues v₁.1 (book v₁.2) := hbook₁ ▸ .of_nil rfl rfl
  by_cases hneg : childPid < 0
  · rw [if_pos hneg]
    exact yields_fail (by decide) hvalues (by rw [hbook₁]; rfl)
  rw [if_neg hneg]
  by_cases hzero : childPid = 0
  · -- the child is another process
    rw [if_pos hzero]
    refine yields_act fun r v₂ hs₂ => ?_
    cases hs₂ with
    | mk hd _ _ => cases hd
  · rw [if_neg hzero]
    exact yields_judgeParent hr pRun hhooks₁ hbook₁

theorem yields_judgePrepared (h : Arranged v.1.hctxt) (j : Judger) (pRun : Nat × Nat)
    (hbook : book v.2 = .empty) : Yields (judgePrepared j pRun) Returns v := by
  have hr := h.registered
  rw [judgePrepared, judgeBeforeFork, Yields, bind_assoc]
  refine yields_act_bind fun _ v₁ hs => ?_
  have hbefore : Before (registerBuiltinHook v.1.hctxt) (v₁.1.hctxt.chain .beforeFork) v₁.1
      (book v₁.2) := by
    rw [hs.book rfl]
    cases hs with
    | mk hd _ _ =>
        cases hd with
        | register _ => exact ⟨hr.hooks.before, rfl, hbook⟩
  refine yields_runChain (K := Before _) Before.hook hbefore ?_ ?_
  · intro v₂ hend
    exact yields_judgeForked hr j pRun hend.hooks hend.fresh
  · intro r v₂ hne hret
    rw [if_pos hne]
    exact yields_passOn hne hret

/-- **One call**, whatever the others do as long as it is served. -/
theorem yields_judgement (h : Arranged v.1.hctxt) (j : Judger) (hbook : book v.2 = .empty) :
    Yields (judgement j) Returns v := by
  refine yields_act_bind fun _ v₁ hs => ?_
  have h₁ : v₁.1.hctxt = v.1.hctxt := by
    cases hs with
    | mk hd _ _ => cases hd; rfl
  have hbook₁ := (hs.book rfl).trans hbook
  refine yields_act_bind fun ends v₂ hs₂ => ?_
  have h₂ : v₂.1.hctxt = v.1.hctxt := (congrArg _ (hs₂.ctxt rfl)).trans h₁
  have hbook₂ := (hs₂.book rfl).trans hbook₁
  have hvalues : OwnValues v₂.1 (book v₂.2) := hbook₂ ▸ .of_nil rfl rfl
  cases ends with
  | none => exact yields_fail (by decide) hvalues (by rw [hbook₂]; rfl)
  | some pRun =>
      cases j with
      | general => exact yields_judgePrepared (h₂ ▸ h) .general pRun hbook₂
      | interactive =>
          refine yields_act_bind fun argc v₃ hs₃ => ?_
          have h₃ : v₃.1.hctxt = v.1.hctxt := (congrArg _ (hs₃.ctxt rfl)).trans h₂
          have hbook₃ := (hs₃.book rfl).trans hbook₂
          by_cases hargc : argc = 6
          · rw [if_neg (not_not.mpr hargc)]
            exact yields_judgePrepared (h₃ ▸ h) .interactive pRun hbook₃
          · rw [if_pos hargc]
            exact yields_fail (by decide) (hbook₃ ▸ .of_nil rfl rfl) (by rw [hbook₃]; rfl)

end

/-! ## All calls together -/

section
variable {ι : Type}

/-- Calls about to begin, each on a context that has been judged some number of
times. -/
structure Beginning (w : JPool ι) : Prop where
  prog : ∀ i, ∃ j, w.prog i = judgement j
  hooks : ∀ i, ∃ k, (w.own i).hctxt = registerBuiltinHook^[k] hookCtxtCreate
  done : ∀ i, w.done i = []

/-- Every call that has returned has kept to its own. -/
def Independent (w : JPool ι) : Prop :=
  ∀ i r, w.prog i = .ret r → OwnReturn (w.own i) (book (w.done i)) r

theorem Beginning.served {w : JPool ι} (h : Beginning w) : Served w := by
  intro i _
  rw [h.done i]
  constructor
  · intro ht
    exact absurd ht (Nat.not_lt_zero _)
  · intro r hr
    exact absurd hr (by simp [book, Book.empty])

/-- **Harmless steps, in whatever order.** -/
theorem calls_independent [DecidableEq ι] {w₀ w : JPool ι} (h₀ : Beginning w₀)
    (hr : Pool.Reaches Atom.code memSplit Harmless w₀ w) : Independent w := by
  have hsafe : ∀ i, Yields (w₀.prog i) Returns (w₀.view i) := by
    intro i
    obtain ⟨j, hj⟩ := h₀.prog i
    obtain ⟨k, hk⟩ := h₀.hooks i
    have hbook : book (w₀.done i) = .empty := congrArg book (h₀.done i)
    rw [hj]
    exact yields_judgement (hk ▸ arranged_iterate k) j hbook
  obtain ⟨-, hall⟩ := hr.safe served_step h₀.served hsafe
  intro i r hret
  have hi := hall i
  rw [hret] at hi
  exact hi

end

/-! ## Two calls in one process -/

/-- Answers of a system in which a second goes by with every call, and the calls
`refused` says fail, `pthread_create` leaving what was in `tid`. -/
def poolAnswers (refused : JLocal → Call → Bool) (l : JLocal) : (c : Call) → Option (Ret c)
  | .getpid => some l.pid
  | .pipe => some (some l.pipeEnds)
  | .fork => some (.parent (l.pid + l.log.length + 1))
  | .read fd => some (if (l.inPipe fd).isSome then some ready else none)
  | .setCloexec fd => some (!refused l (.setCloexec fd))
  | .pthreadCreate start =>
      some (if refused l (.pthreadCreate start) then none else some (l.log.length + 1))
  | .ask .gettimeofday => some (⟨Int64.ofNat l.log.length, 0⟩ : Timeval)
  | .ask .getrusage => some (if refused l (.ask .getrusage) then none else some noRusage)
  | .ask .thread => some ((lastStored l.log).getD 0)
  | .ask q => some (sampleAnswers q)
  | .waitpid _ _ => some (some (0 : Nat))
  | .pthreadCancel _ | .pthreadJoin _ => some true
  | _ => none

theorem poolAnswers_can {refused : JLocal → Call → Bool} {l : JLocal} {c : Call} {r : Ret c}
    (h : poolAnswers refused l c = some r) : l.Can c r := by
  cases c with
  | getpid => exact (Option.some.inj h).symm
  | pipe =>
      obtain rfl := Option.some.inj h
      rfl
  | fork =>
      obtain rfl := Option.some.inj h
      show l.pid < l.pid + l.log.length + 1
      omega
  | read fd =>
      obtain rfl := Option.some.inj h
      by_cases hin : (l.inPipe fd).isSome
      · rw [if_pos hin]
        exact hin
      · rw [if_neg hin]
        trivial
  | setCloexec | pthreadCreate | waitpid | pthreadCancel | pthreadJoin | ask => trivial
  | _ => cases h

/-- Two calls with a limit of one second. -/
def twoCalls : JPool Bool where
  loc := .start (.inheritedBelow 4)
  shared := (memSplit timedMem).1
  own := fun _ => timedMem.ctxt
  prog := fun _ => judgement .general
  done := fun _ => []

theorem twoCalls_beginning : Beginning twoCalls where
  prog := fun _ => ⟨.general, rfl⟩
  hooks := fun _ => ⟨0, rfl⟩
  done := fun _ => rfl

/-- The steps of the two calls: so many of the first, so many of the second, and
so on. -/
def turns (ns : List (Nat × Nat)) : List Bool :=
  ns.flatMap fun n => List.replicate n.1 false ++ List.replicate n.2 true

def returns (w : JPool Bool) (i : Bool) (r : Int) : Bool :=
  match w.prog i with
  | .ret r' => r' == r
  | .exit _ | .call _ _ => false

theorem prog_of_returns {w : JPool Bool} {i : Bool} {r : Int} (h : returns w i r = true) :
    w.prog i = .ret r := by
  rw [returns] at h
  split at h
  case h_1 r' hret => rw [hret, eq_of_beq h]
  case h_2 => cases h
  case h_3 => cases h

instance (ctxt : YjudgerCtxt) (b : Book) : Decidable (OwnValues ctxt b) :=
  decidable_of_iff ((∀ e ∈ b.ends.getLast?, ∃ s ∈ b.starts.getLast?,
      ctxt.result.realTime = toMillisecond e - toMillisecond s) ∧
      (b.killers ≠ [] → ctxt.tid = b.tid) ∧ ∀ k ∈ b.killers, b.children = [k.1.pid])
    ⟨fun h => ⟨h.1, h.2.1, h.2.2⟩, fun h => ⟨h.1, h.2, h.3⟩⟩

instance (w : JPool Bool) (i : Bool) (e : JEntry) : Decidable (Harmless w i e) :=
  decidable_of_iff ((∀ now ∈ startStamp e, ∀ j, j ≠ i → w.Running j → (book (w.done j)).Timing →
      ∀ s ∈ (book (w.done j)).starts.getLast?, toMillisecond now = toMillisecond s) ∧
      (∀ r ∈ errorCode e, ∀ j, j ≠ i → w.Running j →
        ∀ r' ∈ (book (w.done j)).errors.getLast?, r = r') ∧
      ∀ left ∈ leftBehind e, left = (book (w.done i)).tid)
    ⟨fun h => ⟨h.1, h.2.1, h.2.2⟩, fun h => ⟨h.1, h.2, h.3⟩⟩

/-- The other call stamps its start after this one has stamped its end. -/
theorem calls_independent_sample : ∃ w, Pool.Reaches Atom.code memSplit Harmless twoCalls w ∧
    w.prog false = .ret 0 ∧ w.prog true = .ret 0 ∧ Independent w := by
  have hrun : (Pool.playAll Atom.code memSplit (poolAnswers fun _ _ => false)
      (fun w i e => decide (Harmless w i e)) (turns [(6, 6), (10, 10), (3, 3)]) twoCalls).any
      (fun w => returns w false 0 && returns w true 0) = true := by decide +kernel
  obtain ⟨w, hr, hw⟩ := Pool.reaches_of_any (fun _ _ _ h => poolAnswers_can h)
    (fun _ _ _ h => of_decide_eq_true h) hrun
  rw [Bool.and_eq_true] at hw
  exact ⟨w, hr, prog_of_returns hw.1, prog_of_returns hw.2,
    calls_independent twoCalls_beginning hr⟩

/-! ### Three ways to mix them -/

/-- Any interleaving. -/
abbrev AnyOrder : JPool Bool → Bool → JEntry → Prop := fun _ _ _ => True

theorem reaches_of_turns {refused : JLocal → Call → Bool} {ns : List (Nat × Nat)}
    {good : JPool Bool → Bool}
    (hrun : (Pool.playAll Atom.code memSplit (poolAnswers refused) (fun _ _ _ => true) (turns ns)
      twoCalls).any good = true) :
    ∃ w, Pool.Reaches Atom.code memSplit AnyOrder twoCalls w ∧ good w = true :=
  Pool.reaches_of_any (fun _ _ _ h => poolAnswers_can h) (fun _ _ _ _ => trivial) hrun

/-- The second call stamps its start before the first stamps its end. -/
theorem mixes_time : ∃ w, Pool.Reaches Atom.code memSplit AnyOrder twoCalls w ∧
    w.prog false = .ret 0 ∧ w.prog true = .ret 0 ∧
    ¬ ∀ e ∈ (book (w.done false)).ends.getLast?, ∃ s ∈ (book (w.done false)).starts.getLast?,
      (w.own false).result.realTime = toMillisecond e - toMillisecond s := by
  have hrun : (Pool.playAll Atom.code memSplit (poolAnswers fun _ _ => false) (fun _ _ _ => true)
      (turns [(11, 11), (8, 8)]) twoCalls).any (fun w => returns w false 0 && returns w true 0 &&
        decide (¬ ∀ e ∈ (book (w.done false)).ends.getLast?,
          ∃ s ∈ (book (w.done false)).starts.getLast?,
            (w.own false).result.realTime = toMillisecond e - toMillisecond s)) = true := by
    decide +kernel
  obtain ⟨w, hr, hw⟩ := reaches_of_turns hrun
  rw [Bool.and_eq_true, Bool.and_eq_true] at hw
  exact ⟨w, hr, prog_of_returns hw.1.1, prog_of_returns hw.1.2, of_decide_eq_true hw.2⟩

/-- A second thread is refused. -/
def secondKiller (l : JLocal) : Call → Bool
  | .pthreadCreate _ => l.log.any createsKiller
  | _ => false

/-- The second call gets no killer, and keeps the first one's. -/
theorem mixes_tid : ∃ w, Pool.Reaches Atom.code memSplit AnyOrder twoCalls w ∧
    w.prog false = .ret 0 ∧ w.prog true = .ret 0 ∧
    (w.own true).tid = (book (w.done false)).tid ∧
    (w.own true).tid ≠ (book (w.done true)).tid := by
  have hrun : (Pool.playAll Atom.code memSplit (poolAnswers secondKiller) (fun _ _ _ => true)
      (turns [(19, 19)]) twoCalls).any (fun w => returns w false 0 && returns w true 0 &&
        decide ((w.own true).tid = (book (w.done false)).tid ∧
          (w.own true).tid ≠ (book (w.done true)).tid)) = true := by
    decide +kernel
  obtain ⟨w, hr, hw⟩ := reaches_of_turns hrun
  rw [Bool.and_eq_true, Bool.and_eq_true] at hw
  obtain ⟨htid, hne⟩ := of_decide_eq_true hw.2
  exact ⟨w, hr, prog_of_returns hw.1.1, prog_of_returns hw.1.2, htid, hne⟩

def asksUsage : JEvent → Bool
  | ⟨.ask .getrusage, _⟩ => true
  | _ => false

/-- The usage cannot be got, and no descriptor be marked after that. -/
def noUsageNoFcntl (l : JLocal) : Call → Bool
  | .ask .getrusage => true
  | .setCloexec _ => l.log.any asksUsage
  | _ => false

/-- Both calls fail, and the first returns the error of the second. -/
theorem mixes_error : ∃ w, Pool.Reaches Atom.code memSplit AnyOrder twoCalls w ∧
    w.prog false = .ret eFcntl ∧ (book (w.done false)).errors = [eGetrusage] ∧
    w.prog true = .ret eFcntl ∧ (book (w.done true)).errors = [eFcntl] := by
  have hrun : (Pool.playAll Atom.code memSplit (poolAnswers noUsageNoFcntl) (fun _ _ _ => true)
      (turns [(17, 6), (2, 2)]) twoCalls).any (fun w => returns w false eFcntl &&
        returns w true eFcntl && decide ((book (w.done false)).errors = [eGetrusage] ∧
          (book (w.done true)).errors = [eFcntl])) = true := by
    decide +kernel
  obtain ⟨w, hr, hw⟩ := reaches_of_turns hrun
  rw [Bool.and_eq_true, Bool.and_eq_true] at hw
  obtain ⟨hfirst, hsecond⟩ := of_decide_eq_true hw.2
  exact ⟨w, hr, prog_of_returns hw.1.1, hfirst, prog_of_returns hw.1.2, hsecond⟩

/-- **Two complete calls can mix**, in each of the three things. -/
theorem calls_mix :
    (∃ w, Pool.Reaches Atom.code memSplit AnyOrder twoCalls w ∧
      w.prog false = .ret 0 ∧ w.prog true = .ret 0 ∧
      ¬ ∀ e ∈ (book (w.done false)).ends.getLast?, ∃ s ∈ (book (w.done false)).starts.getLast?,
        (w.own false).result.realTime = toMillisecond e - toMillisecond s) ∧
    (∃ w, Pool.Reaches Atom.code memSplit AnyOrder twoCalls w ∧
      w.prog false = .ret 0 ∧ w.prog true = .ret 0 ∧
      (w.own true).tid = (book (w.done false)).tid ∧
      (w.own true).tid ≠ (book (w.done true)).tid) ∧
    ∃ w, Pool.Reaches Atom.code memSplit AnyOrder twoCalls w ∧
      w.prog false = .ret eFcntl ∧ (book (w.done false)).errors = [eGetrusage] ∧
      w.prog true = .ret eFcntl ∧ (book (w.done true)).errors = [eFcntl] :=
  ⟨mixes_time, mixes_tid, mixes_error⟩

end YaojJudger
