/-
# `YaojJudger.Posix.Pool` — several programs in one process

Calls of a library run side by side in one process.  Each of them is a program
over *atoms*, pieces of C code that nothing comes between; part of the memory
is the same for all, and each has a part of its own.

    interp       the code of a program over atoms, if nobody interferes
    Pool         the process: what is left of each program, and what it has done
    Pool.Step    one atom of one of them
    Pool.Reaches the pools some interleaving leads to

A program is to be verified without the others.  What it can tell is its
`view`, its own part of the memory and what it has done, and nobody else
changes that.  So its safety is a `wp` over views, and the rest is an invariant
`J` of the pool: where each step, taken where `J` holds, is one the `wp`
reckons with, and keeps `J`, all programs stay safe (`Reaches.safe`).
-/
import YaojJudger.Posix.Runs
import Mathlib.Logic.Equiv.Defs
import Mathlib.Logic.Function.Basic

namespace Posix

variable {I : Iface} {M S P A α β : Type} {R : A → Type}

/-! ## Programs over atoms -/

section interp

theorem Code.bind_assoc {γ : Type} (x : Code I M α) (f : α → Code I M β) (g : β → Code I M γ) :
    (x >>= f) >>= g = x >>= fun a => f a >>= g :=
  funext fun m => Prog.bind_assoc (x m) _ _

theorem Code.bind_pure (x : Code I M α) : x >>= pure = x :=
  funext fun m => Prog.bind_ret (x m)

/-- The code of a program over atoms. -/
def interp (atom : (a : A) → Code I M (R a)) : Prog A R α → Code I M α
  | .ret a => pure a
  | .exit n => Code.exit n
  | .call a k => atom a >>= fun r => interp atom (k r)

variable (atom : (a : A) → Code I M (R a))

@[simp] theorem interp_pure (a : α) : interp atom (pure a : Prog A R α) = pure a := rfl

@[simp] theorem interp_perform (a : A) : interp atom (Prog.perform a : Prog A R (R a)) = atom a :=
  Code.bind_pure (atom a)

@[simp] theorem interp_bind (p : Prog A R α) (f : α → Prog A R β) :
    interp atom (p >>= f) = interp atom p >>= fun a => interp atom (f a) := by
  induction p with
  | ret a => rfl
  | exit n => rfl
  | call a k ih =>
      show (atom a >>= fun r => interp atom (k r >>= f)) =
        (atom a >>= fun r => interp atom (k r)) >>= fun b => interp atom (f b)
      rw [Code.bind_assoc]
      exact congrArg (atom a >>= ·) (funext ih)

@[simp] theorem interp_ite (b : Prop) [Decidable b] (p q : Prog A R α) :
    interp atom (if b then p else q) = if b then interp atom p else interp atom q := by
  split <;> rfl

/-- A run of the code takes one atom after the other. -/
theorem runs_interp {l l' : Local I} {m m' : M} {p : Prog A R α} {a : α} :
    Code.Runs (interp atom p) l m a l' m' ↔
      Prog.Steps (fun s a r s' => Code.Runs (atom a) s.1 s.2 r s'.1 s'.2) (l, m) p (l', m')
        (.ret a) := by
  induction p generalizing l m with
  | ret b =>
      show Code.Runs (pure b) l m a l' m' ↔ _
      rw [Code.runs_pure, Prog.steps_ret, Prod.mk.injEq]
  | exit n =>
      exact ⟨fun h => absurd h (Code.runs_exit n a), fun h => absurd h Prog.not_steps_exit⟩
  | call c k ih =>
      show Code.Runs (atom c >>= fun r => interp atom (k r)) l m a l' m' ↔ _
      rw [Code.runs_bind, Prog.steps_call]
      constructor
      · rintro ⟨r, l₁, m₁, hc, h⟩
        exact ⟨r, (l₁, m₁), hc, (ih r).mp h⟩
      · rintro ⟨r, ⟨l₁, m₁⟩, hc, h⟩
        exact ⟨r, l₁, m₁, hc, (ih r).mpr h⟩

end interp

/-! ## Pools -/

/-- An atom that has been executed, and the events it put on the record. -/
structure Entry (I : Iface) (R : A → Type) where
  atom : A
  result : R atom
  events : List (Event I)

/-- A process in which the programs `prog i` run. -/
structure Pool (ι : Type) (I : Iface) (S P : Type) (R : A → Type) (α : Type) where
  loc : Local I
  shared : S
  own : ι → P
  prog : ι → Prog A R α
  done : ι → List (Entry I R)

namespace Pool

variable {ι : Type} [DecidableEq ι]

/-- What program `i` can tell. -/
def view (w : Pool ι I S P R α) (i : ι) : P × List (Entry I R) := (w.own i, w.done i)

/-- Program `i` is not over. -/
def Running (w : Pool ι I S P R α) (i : ι) : Prop := ∃ a k, w.prog i = .call a k

instance (w : Pool ι I S P R α) (i : ι) : Decidable (w.Running i) :=
  match h : w.prog i with
  | .call a k => isTrue ⟨a, k, h⟩
  | .ret _ => isFalse fun ⟨_, _, h'⟩ => by cases h.symm.trans h'
  | .exit _ => isFalse fun ⟨_, _, h'⟩ => by cases h.symm.trans h'

/-- The pool after program `i` has executed `e`, with `p` left to do. -/
def after (w : Pool ι I S P R α) (i : ι) (e : Entry I R) (p : Prog A R α) (l' : Local I)
    (sp : S × P) : Pool ι I S P R α where
  loc := l'
  shared := sp.1
  own := Function.update w.own i sp.2
  prog := Function.update w.prog i p
  done := Function.update w.done i (w.done i ++ [e])

section
variable (atom : (a : A) → Code I M (R a)) (split : M ≃ S × P)

/-- Program `i` executes `e`; the other side of a `fork` is another process. -/
inductive Step (w : Pool ι I S P R α) (i : ι) (e : Entry I R) : Pool ι I S P R α → Prop
  | mk {k : R e.atom → Prog A R α} {l' : Local I} {m' : M} :
      w.prog i = .call e.atom k →
      Code.Runs (atom e.atom) w.loc (split.symm (w.shared, w.own i)) e.result l' m' →
      l'.pid = w.loc.pid → l'.log = w.loc.log ++ e.events →
      Step w i e (w.after i e (k e.result) l' (split m'))

/-- The pools that steps allowed by `ok` lead to. -/
inductive Reaches (ok : Pool ι I S P R α → ι → Entry I R → Prop) (w₀ : Pool ι I S P R α) :
    Pool ι I S P R α → Prop
  | refl : Reaches ok w₀ w₀
  | tail {w w' : Pool ι I S P R α} {i : ι} {e : Entry I R} : Reaches ok w₀ w → ok w i e →
      Step atom split w i e w' → Reaches ok w₀ w'

end

section
variable {atom : (a : A) → Code I M (R a)} {split : M ≃ S × P} {w w' w₀ : Pool ι I S P R α}
  {i j : ι} {e : Entry I R} {ok : Pool ι I S P R α → ι → Entry I R → Prop}

theorem after_self (p : Prog A R α) (l' : Local I) (sp : S × P) :
    (w.after i e p l' sp).view i = (sp.2, w.done i ++ [e]) ∧ (w.after i e p l' sp).prog i = p := by
  simp [after, view]

theorem after_other (h : j ≠ i) (p : Prog A R α) (l' : Local I) (sp : S × P) :
    (w.after i e p l' sp).view j = w.view j ∧ (w.after i e p l' sp).prog j = w.prog j := by
  simp [after, view, h]

/-- Nobody else's step changes what a program can tell, or has left to do. -/
theorem Step.other (h : Step atom split w i e w') (hj : j ≠ i) :
    w'.view j = w.view j ∧ w'.prog j = w.prog j := by
  cases h with
  | mk _ _ _ _ => exact after_other hj _ _ _

theorem Reaches.mono {ok' : Pool ι I S P R α → ι → Entry I R → Prop}
    (h : Reaches atom split ok w₀ w) (hok : ∀ w i e, ok w i e → ok' w i e) :
    Reaches atom split ok' w₀ w := by
  induction h with
  | refl => exact .refl
  | tail _ ho hs ih => exact .tail ih (hok _ _ _ ho) hs

/-- **Each program by itself.** -/
theorem Reaches.safe {T : P × List (Entry I R) → (a : A) → R a → P × List (Entry I R) → Prop}
    {pre : P × List (Entry I R) → A → Prop} {fin : P × List (Entry I R) → Int → Prop}
    {Q : ι → P × List (Entry I R) → α → Prop} {J : Pool ι I S P R α → Prop}
    (hstep : ∀ {w i e w'}, J w → ok w i e → Step atom split w i e w' →
      T (w.view i) e.atom e.result (w'.view i) ∧ J w')
    (hJ : J w₀) (hwp : ∀ i, Prog.wp T pre fin (w₀.prog i) (Q i) (w₀.view i))
    (hr : Reaches atom split ok w₀ w) :
    J w ∧ ∀ i, Prog.wp T pre fin (w.prog i) (Q i) (w.view i) := by
  induction hr with
  | refl => exact ⟨hJ, hwp⟩
  | @tail w w' i e hr hok hs ih =>
      obtain ⟨hJ, hwp⟩ := ih
      obtain ⟨hT, hJ'⟩ := hstep hJ hok hs
      refine ⟨hJ', fun j => ?_⟩
      by_cases hj : j = i
      · subst hj
        have hj := hwp j
        cases hs with
        | @mk k l' m' hp _ _ _ =>
            rw [hp] at hj
            have hrest := hj.2 _ _ hT
            rwa [← (after_self (w := w) (e := e) (i := j) (k e.result) l' (split m')).2] at hrest
      · obtain ⟨hview, hprog⟩ := hs.other hj
        rw [hview, hprog]
        exact hwp j

/-- A program that is left alone runs as its code does. -/
theorem Reaches.runs_alone {a : α} (hr : Reaches atom split (fun _ j _ => j = i) w₀ w)
    (hret : w.prog i = .ret a) :
    Code.Runs (interp atom (w₀.prog i)) w₀.loc (split.symm (w₀.shared, w₀.own i)) a w.loc
      (split.symm (w.shared, w.own i)) := by
  rw [runs_interp, ← hret]
  clear hret
  induction hr with
  | refl => exact .refl _ _
  | @tail w w' j e _ hj hs ih =>
      subst hj
      cases hs with
      | @mk k l' m' hp hrun _ _ =>
          rw [hp] at ih
          have hrest : Prog.Steps _ _ _ (l', m') (k e.result) := ih.tail hrun
          have hm : split.symm ((split m').1, (split m').2) = m' := split.symm_apply_apply m'
          simpa [after, hm] using hrest

end

end Pool

/-! ## Sample runs -/

section play
variable (h : Local I → (c : Sys I) → Option (Ret c))

/-- The run of process `l` in which the calls are answered by `h`. -/
def playProg : Prog (Sys I) Ret β → Local I → Option (β × Local I)
  | .ret b, l => some (b, l)
  | .exit _, _ => none
  | .call c k, l => (h l c).bind fun r => playProg (k r) (l.after c r)

variable {h}

theorem steps_of_playProg (hcan : ∀ l c r, h l c = some r → l.Can c r) {b : β} {l' : Local I} :
    ∀ {p : Prog (Sys I) Ret β} {l : Local I}, playProg h p l = some (b, l') →
      Prog.Steps Local.Step l p l' (.ret b) := by
  intro p
  induction p with
  | ret c =>
      intro l hp
      obtain ⟨rfl, rfl⟩ := Prod.mk.inj (Option.some.inj hp)
      exact .refl _ _
  | exit n => intro l hp; cases hp
  | call c k ih =>
      intro l hp
      obtain ⟨r, hr, hp⟩ := Option.bind_eq_some_iff.mp hp
      exact Prog.steps_call.mpr ⟨r, _, ⟨hcan _ _ _ hr, rfl⟩, ih r hp⟩

end play

namespace Pool

variable {ι : Type} [DecidableEq ι] (atom : (a : A) → Code I M (R a)) (split : M ≃ S × P)
  (h : Local I → (c : Sys I) → Option (Ret c))

/-- Program `i` goes on, its calls answered by `h`. -/
def play (w : Pool ι I S P R α) (i : ι) : Option (Entry I R × Pool ι I S P R α) :=
  match w.prog i with
  | .ret _ | .exit _ => none
  | .call a k =>
      (playProg h (atom a (split.symm (w.shared, w.own i))) w.loc).bind fun p =>
        if p.2.pid = w.loc.pid then
          let e : Entry I R := ⟨a, p.1.1, p.2.log.drop w.loc.log.length⟩
          some (e, w.after i e (k p.1.1) p.2 (split p.1.2))
        else none

/-- The programs go on in the order of the list, as far as `ok` allows. -/
def playAll (ok : Pool ι I S P R α → ι → Entry I R → Bool) :
    List ι → Pool ι I S P R α → Option (Pool ι I S P R α)
  | [], w => some w
  | i :: is, w =>
      (play atom split h w i).bind fun ew => if ok w i ew.1 then playAll ok is ew.2 else none

variable {atom split h} {w w' w₀ : Pool ι I S P R α} {i : ι} {e : Entry I R}

theorem step_of_play (hcan : ∀ l c r, h l c = some r → l.Can c r)
    (hp : play atom split h w i = some (e, w')) : Step atom split w i e w' := by
  rw [play] at hp
  cases hprog : w.prog i with
  | ret a => rw [hprog] at hp; cases hp
  | exit n => rw [hprog] at hp; cases hp
  | call a k =>
      rw [hprog] at hp
      obtain ⟨⟨⟨r, m'⟩, l'⟩, hplay, hp⟩ := Option.bind_eq_some_iff.mp hp
      split at hp
      case isTrue hpid =>
          obtain ⟨rfl, rfl⟩ := Prod.mk.inj (Option.some.inj hp)
          have hrun : Code.Runs (atom a) w.loc (split.symm (w.shared, w.own i)) r l' m' :=
            steps_of_playProg hcan hplay
          refine .mk (e := ⟨a, r, l'.log.drop w.loc.log.length⟩) hprog hrun hpid ?_
          exact List.prefix_iff_eq_append.mp hrun.log |>.symm
      case isFalse => cases hp

theorem reaches_of_playAll {ok : Pool ι I S P R α → ι → Entry I R → Prop}
    {okB : Pool ι I S P R α → ι → Entry I R → Bool}
    (hcan : ∀ l c r, h l c = some r → l.Can c r) (hok : ∀ w i e, okB w i e = true → ok w i e) :
    ∀ {is : List ι} {w : Pool ι I S P R α}, Reaches atom split ok w₀ w →
      playAll atom split h okB is w = some w' → Reaches atom split ok w₀ w' := by
  intro is
  induction is with
  | nil =>
      intro w hr hp
      obtain rfl := Option.some.inj hp
      exact hr
  | cons i is ih =>
      intro w hr hp
      obtain ⟨⟨e, w₁⟩, hplay, hp⟩ := Option.bind_eq_some_iff.mp hp
      split at hp
      case isTrue ho => exact ih (.tail hr (hok _ _ _ ho) (step_of_play hcan hplay)) hp
      case isFalse => cases hp

theorem reaches_of_any {ok : Pool ι I S P R α → ι → Entry I R → Prop}
    {okB : Pool ι I S P R α → ι → Entry I R → Bool} {is : List ι} {good : Pool ι I S P R α → Bool}
    (hcan : ∀ l c r, h l c = some r → l.Can c r) (hok : ∀ w i e, okB w i e = true → ok w i e)
    (hrun : (playAll atom split h okB is w₀).any good = true) :
    ∃ w, Reaches atom split ok w₀ w ∧ good w = true := by
  obtain ⟨w, hw, hgood⟩ := (Option.any_eq_true _ _).mp hrun
  exact ⟨w, reaches_of_playAll hcan hok .refl hw, hgood⟩

end Pool

end Posix
