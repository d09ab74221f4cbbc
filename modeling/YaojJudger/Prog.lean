/-
# `YaojJudger.Prog` — programs as trees of calls

A C function that talks to its surroundings is, seen from outside, a tree: it
asks for one call, gets one of the possible results back, and goes on from
there.  `Prog C R α` is that tree for a signature `C` of calls whose results
have type `R c`; a leaf is either a value returned to the caller or `exit`,
which no caller survives.

Everything here is independent of what the calls are.  Three things are
provided:

    Steps     the positions a program can be in after some calls
    wp        what must hold at the root so that every position is safe
    eval      the run against a fixed table of answers

and the rules that connect them.  `wp` carries three predicates: `pre s c`,
owed whenever the call `c` is about to be made in state `s`; `fin s n`, owed
at `exit n`; and the postcondition at a returned value.  A function of the
modelled program gets one `wp` rule, and `wp_bind` composes the rules.
-/
import Mathlib.Tactic.Common

/-- A program that makes calls of `C`, answered in `R`. -/
inductive Prog (C : Type) (R : C → Type) (α : Type) : Type where
  | ret (a : α)
  | exit (code : Int)
  | call (c : C) (k : R c → Prog C R α)

namespace Prog

variable {C : Type} {R : C → Type} {α β γ : Type}

/-- Sequencing; `exit` drops the continuation. -/
def bind : Prog C R α → (α → Prog C R β) → Prog C R β
  | .ret a, f => f a
  | .exit n, _ => .exit n
  | .call c k, f => .call c (fun r => (k r).bind f)

instance : Monad (Prog C R) where
  pure := ret
  bind := bind

@[simp] theorem pure_eq (a : α) : (pure a : Prog C R α) = .ret a := rfl

@[simp] theorem ret_bind (a : α) (f : α → Prog C R β) : (.ret a : Prog C R α) >>= f = f a := rfl

@[simp] theorem exit_bind (n : Int) (f : α → Prog C R β) :
    (.exit n : Prog C R α) >>= f = .exit n := rfl

@[simp] theorem call_bind (c : C) (k : R c → Prog C R α) (f : α → Prog C R β) :
    (.call c k : Prog C R α) >>= f = .call c (fun r => k r >>= f) := rfl

theorem bind_ret (p : Prog C R α) : p >>= Prog.ret = p := by
  induction p with
  | ret a => rfl
  | exit n => rfl
  | call c k ih => simp only [call_bind, ih]

theorem bind_assoc (p : Prog C R α) (f : α → Prog C R β) (g : β → Prog C R γ) :
    (p >>= f) >>= g = p >>= fun a => f a >>= g := by
  induction p with
  | ret a => rfl
  | exit n => rfl
  | call c k ih => simp only [call_bind, ih]

instance : LawfulMonad (Prog C R) :=
  LawfulMonad.mk' (Prog C R) bind_ret (fun _ _ => rfl) bind_assoc

/-- One call. -/
def perform (c : C) : Prog C R (R c) := .call c .ret

/-! ## Positions -/

section Steps
variable {σ : Type} (step : σ → (c : C) → R c → σ → Prop)

/-- `Steps step s p s' p'`: from state `s` and program `p`, some calls lead to
`s'` with `p'` left to do. -/
inductive Steps : σ → Prog C R α → σ → Prog C R α → Prop
  | refl (s : σ) (p : Prog C R α) : Steps s p s p
  | tail {s s' s'' : σ} {p : Prog C R α} {c : C} {k : R c → Prog C R α} {r : R c} :
      Steps s p s' (.call c k) → step s' c r s'' → Steps s p s'' (k r)

variable {step} in
theorem Steps.trans {s s' s'' : σ} {p p' p'' : Prog C R α} (h : Steps step s p s' p')
    (h' : Steps step s' p' s'' p'') : Steps step s p s'' p'' := by
  induction h' with
  | refl => exact h
  | tail _ hs ih => exact .tail (ih h) hs

/-! ### Positions at a returned value -/

/-- What comes before the first call can be told apart from what comes after it. -/
theorem Steps.head {s s' : σ} {p p' : Prog C R α} (h : Steps step s p s' p') :
    (s' = s ∧ p' = p) ∨ ∃ c k r s₁, p = .call c k ∧ step s c r s₁ ∧ Steps step s₁ (k r) s' p' := by
  induction h with
  | refl => exact Or.inl ⟨rfl, rfl⟩
  | @tail s' s'' p c k r hp hs ih =>
      rcases ih with ⟨rfl, rfl⟩ | ⟨c₀, k₀, r₀, s₁, rfl, h₀, h₁⟩
      · exact Or.inr ⟨c, k, r, s'', rfl, hs, .refl _ _⟩
      · exact Or.inr ⟨c₀, k₀, r₀, s₁, rfl, h₀, .tail h₁ hs⟩

variable {step} {s s' : σ}

theorem steps_ret {a b : α} :
    Steps step s (.ret a : Prog C R α) s' (.ret b) ↔ b = a ∧ s' = s := by
  constructor
  · intro h
    rcases h.head step with ⟨rfl, heq⟩ | ⟨c, k, r, s₁, h, -⟩
    · exact ⟨ret.inj heq, rfl⟩
    · cases h
  · rintro ⟨rfl, rfl⟩
    exact .refl _ _

theorem not_steps_exit {n : Int} {a : α} :
    ¬ Steps step s (.exit n : Prog C R α) s' (.ret a) := by
  intro h
  rcases h.head step with ⟨-, h⟩ | ⟨c, k, r, s₁, h, -⟩
  · cases h
  · cases h

theorem steps_call {c : C} {k : R c → Prog C R α} {a : α} :
    Steps step s (.call c k) s' (.ret a) ↔
      ∃ r s₁, step s c r s₁ ∧ Steps step s₁ (k r) s' (.ret a) := by
  constructor
  · intro h
    rcases h.head step with ⟨-, h⟩ | ⟨c, k, r, s₁, h, hs, hr⟩
    · cases h
    · cases h
      exact ⟨r, s₁, hs, hr⟩
  · rintro ⟨r, s₁, hs, hr⟩
    exact (Steps.tail (.refl _ _) hs).trans hr

theorem steps_bind {p : Prog C R α} {f : α → Prog C R β} {b : β} :
    Steps step s (p >>= f) s' (.ret b) ↔
      ∃ a s₁, Steps step s p s₁ (.ret a) ∧ Steps step s₁ (f a) s' (.ret b) := by
  induction p generalizing s with
  | ret a =>
      constructor
      · intro h
        exact ⟨a, s, .refl _ _, h⟩
      · rintro ⟨a', s₁, h, hf⟩
        obtain ⟨rfl, rfl⟩ := steps_ret.mp h
        exact hf
  | exit n =>
      constructor
      · intro h
        exact absurd h not_steps_exit
      · rintro ⟨a, s₁, h, -⟩
        exact absurd h not_steps_exit
  | call c k ih =>
      rw [call_bind, steps_call]
      constructor
      · rintro ⟨r, s₁, hs, h⟩
        obtain ⟨a, s₂, hk, hf⟩ := (ih r).mp h
        exact ⟨a, s₂, steps_call.mpr ⟨r, s₁, hs, hk⟩, hf⟩
      · rintro ⟨a, s₂, h, hf⟩
        obtain ⟨r, s₁, hs, hk⟩ := steps_call.mp h
        exact ⟨r, s₁, hs, (ih r).mpr ⟨a, s₂, hk, hf⟩⟩

/-- A position of the first part of a sequence is one of the sequence. -/
theorem Steps.bind {p p' : Prog C R α} {f : α → Prog C R β} (h : Steps step s p s' p') :
    Steps step s (p >>= f) s' (p' >>= f) := by
  induction h with
  | refl => exact .refl _ _
  | tail _ hs ih => exact .tail ih hs

/-! ### Positions at a call -/

section
variable {c : C} {k : R c → Prog C R α}

theorem not_steps_ret {a : α} : ¬ Steps step s (.ret a : Prog C R α) s' (.call c k) := by
  intro h
  rcases h.head step with ⟨-, h⟩ | ⟨c', k', r, s₁, h, -⟩
  · cases h
  · cases h

theorem not_steps_exit_call {n : Int} :
    ¬ Steps step s (.exit n : Prog C R α) s' (.call c k) := by
  intro h
  rcases h.head step with ⟨-, h⟩ | ⟨c', k', r, s₁, h, -⟩
  · cases h
  · cases h

/-- On the way to a call, the first call is that one or comes before it. -/
theorem Steps.at_call {c₀ : C} {k₀ : R c₀ → Prog C R α}
    (h : Steps step s (.call c₀ k₀) s' (.call c k)) :
    (s' = s ∧ Prog.call c k = .call c₀ k₀) ∨
      ∃ r s₁, step s c₀ r s₁ ∧ Steps step s₁ (k₀ r) s' (.call c k) := by
  rcases h.head step with ⟨hs', heq⟩ | ⟨c', k', r, s₁, heq, hs, hr⟩
  · exact Or.inl ⟨hs', heq⟩
  · cases heq
    exact Or.inr ⟨r, s₁, hs, hr⟩

/-- A call of a sequence is made by its first part, or once that has returned. -/
theorem Steps.of_bind {p : Prog C R β} {f : β → Prog C R α}
    (h : Steps step s (p >>= f) s' (.call c k)) :
    (∃ k', Steps step s p s' (.call c k') ∧ k = fun r => k' r >>= f) ∨
      ∃ a s₁, Steps step s p s₁ (.ret a) ∧ Steps step s₁ (f a) s' (.call c k) := by
  induction p generalizing s with
  | ret a => exact Or.inr ⟨a, s, .refl _ _, h⟩
  | exit n => exact absurd h not_steps_exit_call
  | call c₀ k₀ ih =>
      rw [call_bind] at h
      rcases h.at_call with ⟨rfl, heq⟩ | ⟨r, s₁, hs, h⟩
      · cases heq
        exact Or.inl ⟨k₀, .refl _ _, rfl⟩
      · rcases ih r h with ⟨k', hk, rfl⟩ | ⟨a, s₂, hk, hf⟩
        · exact Or.inl ⟨k', (Steps.tail (.refl _ _) hs).trans hk, rfl⟩
        · exact Or.inr ⟨a, s₂, steps_call.mpr ⟨r, s₁, hs, hk⟩, hf⟩

end

/-! ## The safety condition -/

variable (step) (pre : σ → C → Prop) (fin : σ → Int → Prop)

/-- Every call, every `exit` and every returned value of `p`, reached from `s`
in whatever way the calls are answered, satisfies its predicate. -/
def wp : Prog C R α → (σ → α → Prop) → σ → Prop
  | .ret a, Q, s => Q s a
  | .exit n, _, s => fin s n
  | .call c k, Q, s => pre s c ∧ ∀ r s', step s c r s' → wp (k r) Q s'

variable {step pre fin}

@[simp] theorem wp_ret (a : α) (Q : σ → α → Prop) (s : σ) :
    wp step pre fin (.ret a) Q s ↔ Q s a := Iff.rfl

@[simp] theorem wp_exit (n : Int) (Q : σ → α → Prop) (s : σ) :
    wp step pre fin (.exit n) Q s ↔ fin s n := Iff.rfl

theorem wp_call (c : C) (k : R c → Prog C R α) (Q : σ → α → Prop) (s : σ) :
    wp step pre fin (.call c k) Q s ↔
      pre s c ∧ ∀ r s', step s c r s' → wp step pre fin (k r) Q s' := Iff.rfl

theorem wp_bind (p : Prog C R α) (f : α → Prog C R β) (Q : σ → β → Prop) (s : σ) :
    wp step pre fin (p >>= f) Q s ↔
      wp step pre fin p (fun s' a => wp step pre fin (f a) Q s') s := by
  induction p generalizing s with
  | ret a => exact Iff.rfl
  | exit n => exact Iff.rfl
  | call c k ih =>
      exact and_congr Iff.rfl
        (forall_congr' fun r => forall_congr' fun s' => imp_congr Iff.rfl (ih r s'))

/-- The rule of consequence, in all three predicates. -/
theorem wp_mono {pre' : σ → C → Prop} {fin' : σ → Int → Prop} {Q Q' : σ → α → Prop}
    (hpre : ∀ s c, pre s c → pre' s c) (hfin : ∀ s n, fin s n → fin' s n)
    (hQ : ∀ s a, Q s a → Q' s a) :
    ∀ (p : Prog C R α) (s : σ), wp step pre fin p Q s → wp step pre' fin' p Q' s := by
  intro p
  induction p with
  | ret a => intro s h; exact hQ s a h
  | exit n => intro s h; exact hfin s n h
  | call c k ih => intro s h; exact ⟨hpre s c h.1, fun r s' hs => ih r s' (h.2 r s' hs)⟩

theorem wp_post {Q Q' : σ → α → Prop} (hQ : ∀ s a, Q s a → Q' s a) {p : Prog C R α} {s : σ}
    (h : wp step pre fin p Q s) : wp step pre fin p Q' s :=
  wp_mono (fun _ _ h => h) (fun _ _ h => h) hQ p s h

/-- Where a condition that no call can break is enough, any program is safe. -/
theorem wp_of_stable {S : σ → Prop} (hstep : ∀ {s c r s'}, S s → step s c r s' → S s')
    (hpre : ∀ {s c}, S s → pre s c) (hfin : ∀ {s n}, S s → fin s n) {Q : σ → α → Prop}
    (hQ : ∀ {s a}, S s → Q s a) : ∀ (p : Prog C R α) {s : σ}, S s → wp step pre fin p Q s := by
  intro p
  induction p with
  | ret a => intro s h; exact hQ h
  | exit n => intro s h; exact hfin h
  | call c k ih => intro s h; exact ⟨hpre h, fun r s' hs => ih r (hstep h hs)⟩

/-- Two safety conditions of one program hold together. -/
theorem wp_and {pre' : σ → C → Prop} {fin' : σ → Int → Prop} {Q Q' : σ → α → Prop} :
    ∀ (p : Prog C R α) (s : σ), wp step pre fin p Q s → wp step pre' fin' p Q' s →
      wp step (fun s c => pre s c ∧ pre' s c) (fun s n => fin s n ∧ fin' s n) p
        (fun s a => Q s a ∧ Q' s a) s := by
  intro p
  induction p with
  | ret a => intro s h h'; exact ⟨h, h'⟩
  | exit n => intro s h h'; exact ⟨h, h'⟩
  | call c k ih =>
      intro s h h'
      exact ⟨⟨h.1, h'.1⟩, fun r s' hs => ih r s' (h.2 r s' hs) (h'.2 r s' hs)⟩

/-- A safe program is safe at every position it reaches. -/
theorem Steps.wp {s s' : σ} {p p' : Prog C R α} (h : Steps step s p s' p') {Q : σ → α → Prop}
    (hw : Prog.wp step pre fin p Q s) : Prog.wp step pre fin p' Q s' := by
  induction h with
  | refl => exact hw
  | tail _ hs ih => exact (ih hw).2 _ _ hs

/-- Where every call that comes up can be answered, there is a run to the end. -/
theorem exists_run (hpre : ∀ s c, pre s c → ∃ r s', step s c r s') {Q : σ → α → Prop} :
    ∀ (p : Prog C R α) (s : σ), wp step pre (fun _ _ => False) p Q s →
      ∃ s' a, Steps step s p s' (.ret a) ∧ Q s' a := by
  intro p
  induction p with
  | ret a => intro s h; exact ⟨s, a, .refl _ _, h⟩
  | exit n => intro s h; exact h.elim
  | call c k ih =>
      intro s h
      obtain ⟨r, s₁, hs⟩ := hpre s c h.1
      obtain ⟨s', a, hrun, hQ⟩ := ih r s₁ (h.2 r s₁ hs)
      exact ⟨s', a, steps_call.mpr ⟨r, s₁, hs, hrun⟩, hQ⟩

/-! ## Programs confined to some of the calls -/

/-- `p` only makes calls of the class `B`, and never exits. -/
def Only (B : C → Prop) : Prog C R α → Prop
  | .ret _ => True
  | .exit _ => False
  | .call c k => B c ∧ ∀ r, Only B (k r)

theorem Only.bind {B : C → Prop} {p : Prog C R α} {f : α → Prog C R β} (hp : p.Only B)
    (hf : ∀ a, (f a).Only B) : (p >>= f).Only B := by
  induction p with
  | ret a => exact hf a
  | exit n => exact hp.elim
  | call c k ih => exact ⟨hp.1, fun r => ih r (hp.2 r)⟩

/-- If the calls of `B` keep the reflexive and transitive relation `K` between
states, a program confined to `B` ends in a state related to the first. -/
theorem Only.wp {B : C → Prop} {K : σ → σ → Prop} (hrefl : ∀ s, K s s)
    (htrans : ∀ {s s' s'' : σ}, K s s' → K s' s'' → K s s'')
    (hstep : ∀ {s c r s'}, B c → step s c r s' → K s s')
    {p : Prog C R α} (hp : p.Only B) (s : σ)
    (hpre : ∀ s' c, K s s' → B c → pre s' c) :
    Prog.wp step pre fin p (fun s' _ => K s s') s := by
  suffices key : ∀ (p : Prog C R α), p.Only B → ∀ s', K s s' →
      Prog.wp step pre fin p (fun s'' _ => K s s'') s' from key p hp s (hrefl s)
  intro p
  induction p with
  | ret a => intro _ s' h; exact h
  | exit n => intro h; exact h.elim
  | call c k ih =>
      intro hB s' h
      exact ⟨hpre s' c h hB.1, fun r s'' hs => ih r (hB.2 r) s'' (htrans h (hstep hB.1 hs))⟩

end Steps

/-! ## Running against a table of answers -/

/-- The run in which every call `c` is answered by `h c`: the value returned, or
the exit code, or `none` at a call the table has no answer for. -/
def eval (h : (c : C) → Option (R c)) : Prog C R α → Except (Option Int) α
  | .ret a => .ok a
  | .exit n => .error (some n)
  | .call c k =>
      match h c with
      | some r => (k r).eval h
      | none => .error none

section eval
variable {h : (c : C) → Option (R c)}

@[simp] theorem eval_ret (a : α) : (.ret a : Prog C R α).eval h = .ok a := rfl

@[simp] theorem eval_exit (n : Int) : (.exit n : Prog C R α).eval h = .error (some n) := rfl

theorem eval_call {c : C} {r : R c} (hc : h c = some r) (k : R c → Prog C R α) :
    (.call c k : Prog C R α).eval h = (k r).eval h := by
  simp only [eval, hc]

theorem eval_bind (p : Prog C R α) (f : α → Prog C R β) :
    (p >>= f).eval h = p.eval h >>= fun a => (f a).eval h := by
  induction p with
  | ret a => rfl
  | exit n => rfl
  | call c k ih =>
      simp only [call_bind, eval]
      cases h c with
      | none => rfl
      | some r => exact ih r

/-- A run against answers that the world could give is a way through the program. -/
theorem steps_of_eval {σ : Type} {step : σ → (c : C) → R c → σ → Prop} {K : σ → σ → Prop}
    (hrefl : ∀ s, K s s) (htrans : ∀ {s s' s'' : σ}, K s s' → K s' s'' → K s s'')
    (hstep : ∀ s c r, h c = some r → ∃ s', step s c r s' ∧ K s s') {a : α} :
    ∀ {p : Prog C R α}, p.eval h = .ok a → ∀ s, ∃ s', Steps step s p s' (.ret a) ∧ K s s' := by
  suffices key : ∀ (p₀ p : Prog C R α) (s₀ s : σ), Steps step s₀ p₀ s p → K s₀ s →
      p.eval h = .ok a → ∃ s', Steps step s₀ p₀ s' (.ret a) ∧ K s₀ s' from
    fun {p} he s => key p p s s (.refl s p) (hrefl s) he
  intro p₀ p
  induction p with
  | ret b =>
      intro s₀ s hs hk he
      obtain rfl := Except.ok.inj he
      exact ⟨s, hs, hk⟩
  | exit n => intro s₀ s _ _ he; cases he
  | call c k ih =>
      intro s₀ s hs hk he
      simp only [eval] at he
      cases hc : h c with
      | none => rw [hc] at he; cases he
      | some r =>
          rw [hc] at he
          obtain ⟨s', hs', hk'⟩ := hstep s c r hc
          exact ih r s₀ s' (.tail hs hs') (htrans hk hk') he

end eval

end Prog
