/-
# `YaojJudger.Posix.Runs` — what a run of a piece of code has done

`Code.Runs x l m a l' m'`: some run of `x`, begun by process `l` with memory
`m`, returns `a` and leaves process and memory as `l'` and `m'`.  It is the
other side of `wp`:

    wp      says something of every run
    Runs    is one of them

The rules below are equivalences, one for each way to build a `Code`, and are
used as a simp set: they take a run apart.  `Comes` is a run that is not over, up
to some call.  To put one together, `Records` only keeps what it adds to the
record.
-/
import YaojJudger.Posix.Code

namespace Posix

variable {I : Iface} {M α β : Type}

namespace Code

/-- `x` can return `a`, and leave `l'` and `m'`. -/
def Runs (x : Code I M α) (l : Local I) (m : M) (a : α) (l' : Local I) (m' : M) : Prop :=
  Prog.Steps Local.Step l (x m) l' (.ret (a, m'))

section
variable {l l' : Local I} {m m' : M}

@[simp] theorem runs_pure (a b : α) :
    Runs (pure a : Code I M α) l m b l' m' ↔ b = a ∧ l' = l ∧ m' = m := by
  rw [Runs, pure_apply, Prog.steps_ret]
  constructor
  · rintro ⟨h, rfl⟩
    obtain ⟨rfl, rfl⟩ := Prod.mk.inj h
    exact ⟨rfl, rfl, rfl⟩
  · rintro ⟨rfl, rfl, rfl⟩
    exact ⟨rfl, rfl⟩

@[simp] theorem runs_bind (x : Code I M α) (f : α → Code I M β) (b : β) :
    Runs (x >>= f) l m b l' m' ↔
      ∃ a l₁ m₁, Runs x l m a l₁ m₁ ∧ Runs (f a) l₁ m₁ b l' m' := by
  rw [Runs, bind_apply, Prog.steps_bind]
  constructor
  · rintro ⟨⟨a, m₁⟩, l₁, hx, hf⟩
    exact ⟨a, l₁, m₁, hx, hf⟩
  · rintro ⟨a, l₁, m₁, hx, hf⟩
    exact ⟨(a, m₁), l₁, hx, hf⟩

@[simp] theorem runs_call (c : Sys I) (r : Ret c) :
    Runs (call c : Code I M (Ret c)) l m r l' m' ↔ l.Can c r ∧ l' = l.after c r ∧ m' = m := by
  rw [Runs, call_apply, Prog.steps_call]
  constructor
  · rintro ⟨r', l₁, ⟨hc, rfl⟩, h⟩
    obtain ⟨hr, rfl⟩ := Prog.steps_ret.mp h
    obtain ⟨rfl, rfl⟩ := Prod.mk.inj hr
    exact ⟨hc, rfl, rfl⟩
  · rintro ⟨hc, rfl, rfl⟩
    exact ⟨r, _, ⟨hc, rfl⟩, .refl _ _⟩

@[simp] theorem runs_exit (n : Int) (a : α) : ¬ Runs (exit n : Code I M α) l m a l' m' :=
  Prog.not_steps_exit

@[simp] theorem runs_undefined (a : α) : ¬ Runs (undefined : Code I M α) l m a l' m' := by
  intro h
  obtain ⟨r, -⟩ := Prog.steps_call.mp h
  exact r.elim

@[simp] theorem runs_get (a : M) :
    Runs (get : Code I M M) l m a l' m' ↔ a = m ∧ l' = l ∧ m' = m := by
  rw [Runs, get_apply, Prog.steps_ret]
  constructor
  · rintro ⟨h, rfl⟩
    obtain ⟨rfl, rfl⟩ := Prod.mk.inj h
    exact ⟨rfl, rfl, rfl⟩
  · rintro ⟨rfl, rfl, rfl⟩
    exact ⟨rfl, rfl⟩

@[simp] theorem runs_modify (f : M → M) (a : Unit) :
    Runs (modify f : Code I M Unit) l m a l' m' ↔ l' = l ∧ m' = f m := by
  rw [Runs, modify_apply, Prog.steps_ret]
  constructor
  · rintro ⟨h, rfl⟩
    exact ⟨rfl, (Prod.mk.inj h).2⟩
  · rintro ⟨rfl, rfl⟩
    exact ⟨rfl, rfl⟩

/-- The run of a value. -/
theorem Runs.pure (a : α) (l : Local I) (m : M) : Runs (Pure.pure a : Code I M α) l m a l m :=
  (runs_pure a a).mpr ⟨rfl, rfl, rfl⟩

/-- One run after another. -/
theorem Runs.bind {x : Code I M α} {f : α → Code I M β} {l₁ : Local I} {m₁ : M} {a : α} {b : β}
    (hx : Runs x l m a l₁ m₁) (hf : Runs (f a) l₁ m₁ b l' m') : Runs (x >>= f) l m b l' m' :=
  (runs_bind x f b).mpr ⟨a, l₁, m₁, hx, hf⟩

/-- Where a run of the first piece leads. -/
theorem Runs.steps {x : Code I M α} {f : α → Code I M β} {l₁ : Local I} {m₁ : M} {a : α}
    (hx : Runs x l m a l₁ m₁) : Prog.Steps Local.Step l ((x >>= f) m) l₁ (f a m₁) :=
  Prog.Steps.bind hx

/-! The same, with what comes after. -/

theorem runs_get_bind (f : M → Code I M α) (a : α) :
    Runs (get >>= f) l m a l' m' ↔ Runs (f m) l m a l' m' := by
  rw [runs_bind]
  constructor
  · rintro ⟨m₀, l₁, m₁, hg, h⟩
    obtain ⟨rfl, rfl, rfl⟩ := (runs_get m₀).mp hg
    exact h
  · intro h
    exact ⟨m, l, m, (runs_get m).mpr ⟨rfl, rfl, rfl⟩, h⟩

theorem runs_modify_bind (g : M → M) (f : Unit → Code I M α) (a : α) :
    Runs (modify g >>= f) l m a l' m' ↔ Runs (f ()) l (g m) a l' m' := by
  rw [runs_bind]
  constructor
  · rintro ⟨_, l₁, m₁, hg, h⟩
    obtain ⟨rfl, rfl⟩ := (runs_modify g ()).mp hg
    exact h
  · intro h
    exact ⟨(), l, g m, (runs_modify g ()).mpr ⟨rfl, rfl⟩, h⟩

theorem runs_call_bind (c : Sys I) (f : Ret c → Code I M α) (a : α) :
    Runs (call c >>= f) l m a l' m' ↔ ∃ r, l.Can c r ∧ Runs (f r) (l.after c r) m a l' m' := by
  rw [runs_bind]
  constructor
  · rintro ⟨r, l₁, m₁, hc, h⟩
    obtain ⟨hr, rfl, rfl⟩ := (runs_call c r).mp hc
    exact ⟨r, hr, h⟩
  · rintro ⟨r, hr, h⟩
    exact ⟨r, _, m, (runs_call c r).mpr ⟨hr, rfl, rfl⟩, h⟩

theorem runs_ite (b : Prop) [Decidable b] (x y : Code I M α) (a : α) :
    Runs (if b then x else y) l m a l' m' ↔
      (b ∧ Runs x l m a l' m') ∨ (¬ b ∧ Runs y l m a l' m') := by
  split
  case isTrue h => simp [h]
  case isFalse h => simp [h]

end

/-- What a rule says of `x` holds of each of its runs. -/
theorem Runs.wp {x : Code I M α} {l l' : Local I} {m m' : M} {a : α} (h : Runs x l m a l' m')
    {pre : Local I → Sys I → Prop} {fin : Local I → Int → Prop} {Q : Local I → α → M → Prop}
    (hw : Code.wp pre fin x Q l m) : Q l' a m' :=
  Prog.Steps.wp h hw

/-- A run only adds to the record. -/
theorem Runs.log {x : Code I M α} {l l' : Local I} {m m' : M} {a : α} (h : Runs x l m a l' m') :
    l.log <+: l'.log := by
  have hgrow : Prog.wp Local.Step (fun _ _ => True) (fun _ _ => True) (x m)
      (fun l₁ _ => l.log <+: l₁.log) l := by
    refine Prog.wp_of_stable (S := fun l₁ : Local I => l.log <+: l₁.log) ?_ (fun _ => trivial)
      (fun _ => trivial) (fun h => h) _ (List.prefix_refl _)
    intro s c r s' hs hstep
    obtain ⟨-, rfl⟩ := hstep
    exact hs.trans (List.prefix_append _ _)
  exact Prog.Steps.wp h hgrow

/-! ## On the way to a call -/

/-- `x` can come to the call `c`, as process `l'`, with `k` left to do after it. -/
def Comes (x : Code I M α) (l : Local I) (m : M) (c : Sys I) (l' : Local I)
    (k : Ret c → Prog (Sys I) Ret (α × M)) : Prop :=
  Prog.Steps Local.Step l (x m) l' (.call c k)

section
variable {l l' : Local I} {m : M} {c : Sys I} {k : Ret c → Prog (Sys I) Ret (α × M)}

theorem not_comes_pure (a : α) : ¬ Comes (pure a : Code I M α) l m c l' k :=
  Prog.not_steps_ret

theorem Comes.of_bind {x : Code I M β} {f : β → Code I M α} (h : Comes (x >>= f) l m c l' k) :
    (∃ k', Comes x l m c l' k' ∧ k = fun r => k' r >>= fun am => f am.1 am.2) ∨
      ∃ a l₁ m₁, Runs x l m a l₁ m₁ ∧ Comes (f a) l₁ m₁ c l' k := by
  rw [Comes, bind_apply] at h
  rcases h.of_bind with hx | ⟨⟨a, m₁⟩, l₁, hx, hf⟩
  · exact Or.inl hx
  · exact Or.inr ⟨a, l₁, m₁, hx, hf⟩

theorem Comes.of_get_bind {f : M → Code I M α} (h : Comes (get >>= f) l m c l' k) :
    Comes (f m) l m c l' k := h

theorem Comes.of_modify_bind {g : M → M} {f : Unit → Code I M α}
    (h : Comes (modify g >>= f) l m c l' k) : Comes (f ()) l (g m) c l' k := h

theorem Comes.of_call_bind {c₀ : Sys I} {f : Ret c₀ → Code I M α}
    (h : Comes (call c₀ >>= f) l m c l' k) :
    (l' = l ∧ Prog.call c k = .call c₀ fun r => f r m) ∨
      ∃ r, l.Can c₀ r ∧ Comes (f r) (l.after c₀ r) m c l' k := by
  rcases Prog.Steps.at_call h with h | ⟨r, s₁, ⟨hr, rfl⟩, h⟩
  · exact Or.inl h
  · exact Or.inr ⟨r, hr, h⟩

theorem comes_ite {b : Prop} [Decidable b] {x y : Code I M α}
    (h : Comes (if b then x else y) l m c l' k) :
    (b ∧ Comes x l m c l' k) ∨ (¬ b ∧ Comes y l m c l' k) := by
  split at h
  case isTrue hb => exact Or.inl ⟨hb, h⟩
  case isFalse hb => exact Or.inr ⟨hb, h⟩

/-- Code that is confined to other calls does not come to this one. -/
theorem Within.not_comes {B : Sys I → Prop} {x : Code I M α} (hx : Within B x) (hc : ¬ B c) :
    ¬ Comes x l m c l' k :=
  fun h => hc (Prog.Steps.wp h (hx l m)).1

end

/-! ## Putting a run together -/

/-- `x` can return `a` and leave `m'`, having put the events `es` on the record. -/
def Records (x : Code I M α) (l : Local I) (m : M) (a : α) (es : List (Event I)) (m' : M) : Prop :=
  ∃ l', Runs x l m a l' m' ∧ l'.log = l.log ++ es

section
variable {l : Local I} {m m₁ m' : M} {es es' : List (Event I)}

theorem records_pure (a : α) : Records (pure a : Code I M α) l m a [] m :=
  ⟨l, (runs_pure _ _).mpr ⟨rfl, rfl, rfl⟩, (List.append_nil _).symm⟩

/-- What comes next may depend on the run of the first piece. -/
theorem Records.bind {x : Code I M α} {f : α → Code I M β} {a : α} {b : β}
    (hx : Records x l m a es m₁) (hf : ∀ l₁, Runs x l m a l₁ m₁ → Records (f a) l₁ m₁ b es' m') :
    Records (x >>= f) l m b (es ++ es') m' := by
  obtain ⟨l₁, hx, hlog⟩ := hx
  obtain ⟨l₂, hf, hlog'⟩ := hf l₁ hx
  exact ⟨l₂, (runs_bind _ _ _).mpr ⟨a, l₁, m₁, hx, hf⟩, by rw [hlog', hlog, List.append_assoc]⟩

theorem records_call_bind (c : Sys I) {f : Ret c → Code I M α} {a : α} (r : Ret c)
    (hr : l.Can c r) (h : Records (f r) (l.after c r) m a es m') :
    Records (call c >>= f) l m a (⟨c, r⟩ :: es) m' := by
  obtain ⟨l', h, hlog⟩ := h
  exact ⟨l', (runs_call_bind _ _ _).mpr ⟨r, hr, h⟩, by simp [hlog]⟩

theorem records_get_bind {f : M → Code I M α} {a : α} (h : Records (f m) l m a es m') :
    Records (get >>= f) l m a es m' := by
  obtain ⟨l', h, hlog⟩ := h
  exact ⟨l', (runs_get_bind _ _).mpr h, hlog⟩

theorem records_modify_bind {g : M → M} {f : Unit → Code I M α} {a : α}
    (h : Records (f ()) l (g m) a es m') : Records (modify g >>= f) l m a es m' := by
  obtain ⟨l', h, hlog⟩ := h
  exact ⟨l', (runs_modify_bind _ _ _).mpr h, hlog⟩

theorem records_then {b : Prop} [Decidable b] {x y : Code I M α} {a : α} (hb : b)
    (h : Records x l m a es m') : Records (if b then x else y) l m a es m' := by
  rwa [if_pos hb]

theorem records_else {b : Prop} [Decidable b] {x y : Code I M α} {a : α} (hb : ¬ b)
    (h : Records y l m a es m') : Records (if b then x else y) l m a es m' := by
  rwa [if_neg hb]

end

end Code

end Posix
