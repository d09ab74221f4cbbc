/-
# `YaojJudger.HookChain` — chains of any hooks

`hook.c` once more, now for hooks the judger knows nothing about: `hook` gives
each of them some code, which may do anything, fail, and set `yerrno` or not.

A run of a chain is a row of invocations, each with what it returned.

    InTurn        they happened one after another
    UpToFailure   they are the head of the chain, and only the last may have
                  failed; it has if the chain is longer

The order is right and nothing else is invoked.  The return value is not what
`hook.h` says it is: `run_hook_chain` passes `yerrno` on, so after a hook that
failed and left `yerrno` at 0 it returns 0, and the judger goes on.
-/
import YaojJudger.Chain

namespace YaojJudger

open Posix

/-! ## Registering -/

/-- The constant an `int` equals, if it equals one. -/
def HookType.ofInt : Int → Option HookType
  | 0 => some .beforeFork
  | 1 => some .afterFork
  | 2 => some .afterWait
  | _ => none

section
variable {H : Type}

/-- `register_hook` with any `int`; an unknown type is only logged. -/
def registerHookInt (ctxt : HookCtxt H) (type : Int) (hook : H) : HookCtxt H :=
  match HookType.ofInt type with
  | some type => registerHook ctxt type hook
  | none => ctxt

/-- The context after some calls of `register_hook`. -/
def registered (regs : List (Int × H)) : HookCtxt H :=
  regs.foldl (fun ctxt reg => registerHookInt ctxt reg.1 reg.2) hookCtxtCreate

/-- The hooks those calls name for a type, in the order of the calls. -/
def registeredFor (type : HookType) (regs : List (Int × H)) : List H :=
  (regs.filter fun reg => HookType.ofInt reg.1 = some type).map Prod.snd

theorem chain_registerHook (ctxt : HookCtxt H) (type type' : HookType) (hook : H) :
    (registerHook ctxt type hook).chain type' =
      if type = type' then hook :: ctxt.chain type' else ctxt.chain type' := by
  cases type <;> cases type' <;> rfl

theorem chain_foldl (type : HookType) (regs : List (Int × H)) :
    ∀ ctxt : HookCtxt H,
      (regs.foldl (fun ctxt reg => registerHookInt ctxt reg.1 reg.2) ctxt).chain type =
        (registeredFor type regs).reverse ++ ctxt.chain type := by
  induction regs with
  | nil =>
      intro ctxt
      rfl
  | cons reg regs ih =>
      intro ctxt
      rw [List.foldl_cons, ih]
      cases ht : HookType.ofInt reg.1 with
      | none => simp [registerHookInt, registeredFor, ht]
      | some type' =>
          simp only [registerHookInt, ht, chain_registerHook]
          by_cases heq : type' = type
          · simp [registeredFor, ht, heq]
          · simp [registeredFor, ht, heq]

/-- A chain holds what was registered for its type, the last first. -/
theorem chain_registered (type : HookType) (regs : List (Int × H)) :
    (registered regs).chain type = (registeredFor type regs).reverse := by
  have hnil : (hookCtxtCreate : HookCtxt H).chain type = [] := by cases type <;> rfl
  rw [registered, chain_foldl, hnil, List.append_nil]

/-! ## Invocations -/

/-- `calls` are the hooks invoked one after another, from `l` and `m` to `l'`
and `m'`, each with what it returned. -/
inductive InTurn (hook : H → Code Int) : List (H × Int) → JLocal → Mem → JLocal → Mem → Prop
  | nil {l : JLocal} {m : Mem} : InTurn hook [] l m l m
  | cons {h : H} {r : Int} {calls : List (H × Int)} {l l₁ l' : JLocal} {m m₁ m' : Mem} :
      Code.Runs (hook h) l m r l₁ m₁ → InTurn hook calls l₁ m₁ l' m' →
      InTurn hook ((h, r) :: calls) l m l' m'

/-- Some invocation failed. -/
def HookFails (calls : List (H × Int)) : Prop := ∃ call ∈ calls, call.2 ≠ 0

/-- The chain is gone through from its head up to the first hook that fails, or
to its end. -/
structure UpToFailure (chain : List H) (calls : List (H × Int)) : Prop where
  invoked : calls.map Prod.fst <+: chain
  before : ∀ call ∈ calls.dropLast, call.2 = 0
  all : ¬ HookFails calls → calls.map Prod.fst = chain

variable {hook : H → Code Int} {h : H} {chain : List H} {r : Int} {calls : List (H × Int)}

theorem hookFails_cons : HookFails ((h, r) :: calls) ↔ r ≠ 0 ∨ HookFails calls := by
  simp [HookFails]

theorem upToFailure_nil : UpToFailure ([] : List H) [] :=
  ⟨List.prefix_refl _, fun _ hc => absurd hc List.not_mem_nil, fun _ => rfl⟩

theorem upToFailure_stop (hr : r ≠ 0) : UpToFailure (h :: chain) [(h, r)] := by
  refine ⟨List.cons_prefix_cons.mpr ⟨rfl, List.nil_prefix⟩, ?_, fun hok => ?_⟩
  · intro call hc
    exact absurd hc List.not_mem_nil
  · exact absurd (hookFails_cons.mpr (Or.inl hr)) hok

theorem UpToFailure.next (hc : UpToFailure chain calls) :
    UpToFailure (h :: chain) ((h, 0) :: calls) := by
  refine ⟨List.cons_prefix_cons.mpr ⟨rfl, hc.invoked⟩, ?_, fun hok => ?_⟩
  · intro call hmem
    cases calls with
    | nil => exact absurd hmem List.not_mem_nil
    | cons c cs =>
        rcases List.mem_cons.mp hmem with rfl | hmem
        · rfl
        · exact hc.before call hmem
  · have hall := hc.all fun hf => hok (hookFails_cons.mpr (Or.inr hf))
    rw [List.map_cons, hall]

/-- The two ways to go through a chain that has a head. -/
theorem UpToFailure.cases (hc : UpToFailure (h :: chain) calls) :
    (∃ r, r ≠ 0 ∧ calls = [(h, r)]) ∨
      ∃ calls', calls = (h, 0) :: calls' ∧ UpToFailure chain calls' := by
  obtain ⟨hinv, hbefore, hall⟩ := hc
  cases calls with
  | nil =>
      have hnone : ¬ HookFails ([] : List (H × Int)) := fun hf => by simp [HookFails] at hf
      exact absurd (hall hnone).symm (List.cons_ne_nil _ _)
  | cons call calls =>
      obtain ⟨h', r⟩ := call
      obtain ⟨rfl, htail⟩ := List.cons_prefix_cons.mp hinv
      by_cases hr : r = 0
      · subst hr
        refine Or.inr ⟨calls, rfl, htail, fun call hmem => hbefore call ?_, fun hok => ?_⟩
        · cases calls with
          | nil => exact absurd hmem List.not_mem_nil
          | cons c cs => exact List.mem_cons_of_mem _ hmem
        · have hok' : ¬ HookFails ((h', (0 : Int)) :: calls) := fun hf =>
            hok ((hookFails_cons.mp hf).resolve_left (not_not.mpr rfl))
          exact (List.cons.inj (hall hok')).2
      · cases calls with
        | nil => exact Or.inl ⟨r, hr, rfl⟩
        | cons c cs => exact absurd (hbefore (h', r) List.mem_cons_self) hr

/-! ## Runs -/

/-- How a chain returns once its hooks have been invoked. -/
def ChainReturns (calls : List (H × Int)) (l₁ : JLocal) (m₁ : Mem) (r : Int) (l' : JLocal)
    (m' : Mem) : Prop :=
  (HookFails calls → r = m₁.yerrno ∧ l' = told l₁ [said m₁.yerrno] ∧ m' = m₁) ∧
    (¬ HookFails calls → r = 0 ∧ l' = l₁ ∧ m' = m₁)

variable {l l₁ l' : JLocal} {m m₁ m' : Mem}

theorem chainReturns_stop {r' : Int} (hr : r ≠ 0) :
    ChainReturns [(h, r)] l₁ m₁ r' l' m' ↔
      r' = m₁.yerrno ∧ l' = told l₁ [said m₁.yerrno] ∧ m' = m₁ := by
  have hf : HookFails [(h, r)] := hookFails_cons.mpr (Or.inl hr)
  exact ⟨fun hret => hret.1 hf, fun hret => ⟨fun _ => hret, fun hok => absurd hf hok⟩⟩

theorem chainReturns_next {r' : Int} :
    ChainReturns ((h, 0) :: calls) l₁ m₁ r' l' m' ↔ ChainReturns calls l₁ m₁ r' l' m' := by
  have hf : HookFails ((h, 0) :: calls) ↔ HookFails calls :=
    hookFails_cons.trans (or_iff_right (not_not.mpr rfl))
  rw [ChainReturns, ChainReturns, hf]

/-- **The runs of a chain**: its hooks are invoked in turn up to the first one that
fails, and then it returns. -/
theorem runs_runHookChain (hook : H → Code Int) (chain : List H) :
    ∀ {l : JLocal} {m : Mem}, Code.Runs (runHookChain hook chain) l m r l' m' ↔
      ∃ calls l₁ m₁, InTurn hook calls l m l₁ m₁ ∧ UpToFailure chain calls ∧
        ChainReturns calls l₁ m₁ r l' m' := by
  induction chain with
  | nil =>
      intro l m
      rw [runHookChain, Code.runs_pure]
      constructor
      · rintro ⟨rfl, rfl, rfl⟩
        refine ⟨[], _, _, .nil, upToFailure_nil, fun hf => ?_, fun _ => ⟨rfl, rfl, rfl⟩⟩
        simp [HookFails] at hf
      · rintro ⟨calls, l₁, m₁, hin, hup, hret⟩
        have hnil : calls = [] := List.map_eq_nil_iff.mp (List.prefix_nil.mp hup.invoked)
        subst hnil
        cases hin with
        | nil => exact hret.2 fun hf => by simp [HookFails] at hf
  | cons h next ih =>
      intro l m
      rw [runHookChain, Code.runs_bind]
      constructor
      · rintro ⟨r₁, l₁, m₁, hrun, hrest⟩
        rcases (Code.runs_ite _ _ _ _).mp hrest with ⟨hr, hrest⟩ | ⟨hr, hrest⟩
        · refine ⟨[(h, r₁)], l₁, m₁, .cons hrun .nil, upToFailure_stop hr, ?_⟩
          exact (chainReturns_stop hr).mpr ((runs_yreturnYerrno _).mp hrest)
        · obtain rfl := not_not.mp hr
          obtain ⟨calls, l₂, m₂, hin, hup, hret⟩ := ih.mp hrest
          exact ⟨_, l₂, m₂, .cons hrun hin, hup.next, chainReturns_next.mpr hret⟩
      · rintro ⟨calls, l₂, m₂, hin, hup, hret⟩
        rcases hup.cases with ⟨r₁, hr, rfl⟩ | ⟨calls', rfl, hnext⟩
        · cases hin with
          | cons hrun hnil =>
              cases hnil with
              | nil =>
                  refine ⟨r₁, l₂, m₂, hrun, (Code.runs_ite _ _ _ _).mpr (Or.inl ⟨hr, ?_⟩)⟩
                  exact (runs_yreturnYerrno _).mpr ((chainReturns_stop hr).mp hret)
        · cases hin with
          | cons hrun hin =>
              refine ⟨0, _, _, hrun, (Code.runs_ite _ _ _ _).mpr (Or.inr ⟨not_not.mpr rfl, ?_⟩)⟩
              exact ih.mpr ⟨calls', l₂, m₂, hin, hnext, chainReturns_next.mp hret⟩

/-- The last of the hooks invoked leaves the memory, so one that fails does. -/
theorem InTurn.yerrno (hin : InTurn hook calls l m l₁ m₁)
    (hsets : ∀ {h : H} {r : Int} {l l' : JLocal} {m m' : Mem},
      Code.Runs (hook h) l m r l' m' → r ≠ 0 → m'.yerrno ≠ 0)
    (hup : UpToFailure chain calls) (hf : HookFails calls) : m₁.yerrno ≠ 0 := by
  induction hin generalizing chain with
  | nil => simp [HookFails] at hf
  | @cons h r calls l l₂ l₁ m m₂ m₁ hrun hin ih =>
      cases chain with
      | nil => exact absurd (List.prefix_nil.mp hup.invoked) (List.cons_ne_nil _ _)
      | cons x xs =>
          obtain ⟨rfl, -⟩ := List.cons_prefix_cons.mp hup.invoked
          rcases hup.cases with ⟨r', hr, heq⟩ | ⟨calls', heq, hnext⟩
          · obtain ⟨hr', rfl⟩ := List.cons.inj heq
            obtain rfl : r = r' := congrArg Prod.snd hr'
            cases hin with
            | nil => exact hsets hrun hr
          · obtain ⟨hr', rfl⟩ := List.cons.inj heq
            obtain rfl : r = 0 := congrArg Prod.snd hr'
            exact ih hnext ((hookFails_cons.mp hf).resolve_left (not_not.mpr rfl))

/-- When a run of a chain reports faithfully. -/
theorem ChainReturns.faithful_iff (hret : ChainReturns calls l₁ m₁ r l' m') :
    (r ≠ 0 ↔ HookFails calls) ↔ (HookFails calls → m₁.yerrno ≠ 0) := by
  by_cases hf : HookFails calls
  · obtain ⟨rfl, -, -⟩ := hret.1 hf
    simp [hf]
  · obtain ⟨rfl, -, -⟩ := hret.2 hf
    simp [hf]

/-- Hooks that set `yerrno` when they fail, as all the judger's own do, are reported
faithfully. -/
theorem chainReturns_faithful
    (hsets : ∀ {h : H} {r : Int} {l l' : JLocal} {m m' : Mem},
      Code.Runs (hook h) l m r l' m' → r ≠ 0 → m'.yerrno ≠ 0)
    (hrun : Code.Runs (runHookChain hook chain) l m r l' m') :
    ∃ calls l₁ m₁, InTurn hook calls l m l₁ m₁ ∧ UpToFailure chain calls ∧
      ChainReturns calls l₁ m₁ r l' m' ∧ (r ≠ 0 ↔ HookFails calls) := by
  obtain ⟨calls, l₁, m₁, hin, hup, hret⟩ := (runs_runHookChain hook chain).mp hrun
  exact ⟨calls, l₁, m₁, hin, hup, hret, hret.faithful_iff.mpr (hin.yerrno hsets hup)⟩

/-- **The runs of a chain of registered hooks** are those in which the hooks are invoked
in turn, the last registered first, up to the first that fails, and then the chain
returns; it **reports faithfully** if and only if a hook that fails leaves `yerrno` set. -/
theorem hookChain_faithful_iff (hook : H → Code Int) (regs : List (Int × H)) (type : HookType)
    {l l' : JLocal} {m m' : Mem} {r : Int} :
    Code.Runs (runHookChain hook ((registered regs).chain type)) l m r l' m' ↔
      ∃ calls l₁ m₁, InTurn hook calls l m l₁ m₁ ∧
        UpToFailure (registeredFor type regs).reverse calls ∧
        ChainReturns calls l₁ m₁ r l' m' ∧
        ((r ≠ 0 ↔ HookFails calls) ↔ (HookFails calls → m₁.yerrno ≠ 0)) := by
  rw [chain_registered, runs_runHookChain]
  constructor
  · rintro ⟨calls, l₁, m₁, hin, hup, hret⟩
    exact ⟨calls, l₁, m₁, hin, hup, hret, hret.faithful_iff⟩
  · rintro ⟨calls, l₁, m₁, hin, hup, hret, -⟩
    exact ⟨calls, l₁, m₁, hin, hup, hret⟩

end

/-- The judger's own hooks. -/
theorem builtinChain_faithful {chain : List Hook} {l l' : JLocal} {m m' : Mem} {r : Int}
    (hrun : Code.Runs (runHookChain hookFn chain) l m r l' m') :
    ∃ calls l₁ m₁, InTurn hookFn calls l m l₁ m₁ ∧ UpToFailure chain calls ∧
      ChainReturns calls l₁ m₁ r l' m' ∧ (r ≠ 0 ↔ HookFails calls) := by
  refine chainReturns_faithful (fun hh hr => ?_) hrun
  obtain ⟨es, hd, -⟩ := runs_hookFn hh
  rcases hd.yerrno with ⟨h0, -⟩ | ⟨-, hy⟩
  · exact absurd h0 hr
  · exact hy ▸ hr

/-- Two hooks: one succeeds, one fails and sets `yerrno`. -/
def twoHooks (fails : Bool) : Code Int := if fails then yerr eError else return 0

/-- Four registrations, one of an unknown type; two are for the chain before the fork,
and the second of these runs first. -/
theorem twoHooks_faithful : ∃ l' m',
    Code.Runs (runHookChain twoHooks
      ((registered [(1, true), (0, true), (0, false), (7, true)]).chain .beforeFork))
      (.start (.inheritedBelow 4)) (Mem.create (yjudgerCtxtCreate blankResult noRusage) 3)
      eError l' m' ∧
    ∃ calls l₁ m₁, InTurn twoHooks calls (.start (.inheritedBelow 4))
        (Mem.create (yjudgerCtxtCreate blankResult noRusage) 3) l₁ m₁ ∧
      UpToFailure (registeredFor .beforeFork
        [((1 : Int), true), (0, true), (0, false), (7, true)]).reverse calls ∧
      ChainReturns calls l₁ m₁ eError l' m' ∧
      ((eError ≠ 0 ↔ HookFails calls) ↔ (HookFails calls → m₁.yerrno ≠ 0)) := by
  have hfirst : ∀ (l : JLocal) (m : Mem), Code.Records (twoHooks false) l m 0 [] m := fun l m =>
    Code.records_pure 0
  have hsecond : ∀ (l : JLocal) (m : Mem),
      Code.Records (twoHooks true) l m eError [] (m.failed eError) := fun l m =>
    Code.records_modify_bind (Code.records_pure eError)
  obtain ⟨l', hrun, -⟩ : Code.Records (runHookChain twoHooks
      ((registered [(1, true), (0, true), (0, false), (7, true)]).chain .beforeFork))
      (.start (.inheritedBelow 4)) (Mem.create (yjudgerCtxtCreate blankResult noRusage) 3)
      eError ([] ++ ([] ++ [said eError]))
      ((Mem.create (yjudgerCtxtCreate blankResult noRusage) 3).failed eError) :=
    (hfirst _ _).bind fun l₁ _ => Code.records_else (not_not.mpr rfl)
      ((hsecond l₁ _).bind fun l₂ _ => Code.records_then (by decide) records_yreturnYerrno)
  exact ⟨l', _, hrun, (hookChain_faithful_iff twoHooks _ .beforeFork).mp hrun⟩

/-- A hook that returns 1 and leaves `yerrno` alone is reported as a success. -/
theorem hookChain_hides_failure : ∃ l' m',
    Code.Runs (runHookChain (fun _ : Unit => return 1) ((registered [(0, ())]).chain .beforeFork))
      (.start (.inheritedBelow 4)) (Mem.create (yjudgerCtxtCreate blankResult noRusage) 3)
      0 l' m' ∧
    ∀ calls l₁ m₁, InTurn (fun _ : Unit => return 1) calls (.start (.inheritedBelow 4))
        (Mem.create (yjudgerCtxtCreate blankResult noRusage) 3) l₁ m₁ →
      UpToFailure (registeredFor .beforeFork [((0 : Int), ())]).reverse calls →
      ¬ ((0 : Int) ≠ 0 ↔ HookFails calls) := by
  obtain ⟨l', hrun, -⟩ : Code.Records
      (runHookChain (fun _ : Unit => return 1) ((registered [(0, ())]).chain .beforeFork))
      (.start (.inheritedBelow 4)) (Mem.create (yjudgerCtxtCreate blankResult noRusage) 3) 0
      ([] ++ [said 0]) (Mem.create (yjudgerCtxtCreate blankResult noRusage) 3) :=
    (Code.records_pure 1).bind fun l₁ _ => Code.records_then (by decide) records_yreturnYerrno
  refine ⟨l', _, hrun, fun calls l₁ m₁ hin hup hiff => ?_⟩
  rcases hup.cases with ⟨r, hr, rfl⟩ | ⟨calls', rfl, -⟩
  · exact absurd rfl (hiff.mpr (hookFails_cons.mpr (Or.inl hr)))
  · cases hin with
    | cons hone _ =>
        -- the hook returns 1, not 0
        obtain ⟨h, -, -⟩ := (Code.runs_pure _ _).mp hone
        exact absurd h (by decide)

end YaojJudger
