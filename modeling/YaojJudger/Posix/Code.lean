/-
# `YaojJudger.Posix.Code` — C code over a memory, and its rules

A C function of the modelled program is a `Code I M α`: given the memory `M`
of the process (its globals and whatever its pointers lead to) it is a program
of calls that ends with a result and a new memory.  `fork` copies the memory
with everything else, since the continuation of the call is copied.

`Code.wp` is the safety condition of `Prog` with the memory made visible; the
rules below are equivalences, one for each way to build a `Code`, and are used
as a simp set.  The frame rule is `Quiet`: a call that can only touch
descriptors below `n` keeps everything the handshake protocols rely on
(`Keeps n`), so code confined to such calls does.
-/
import YaojJudger.Posix.Call

namespace Posix

variable {I : Iface} {M α β : Type}

/-- C code with memory `M`. -/
def Code (I : Iface) (M α : Type) : Type := M → Prog (Sys I) Ret (α × M)

namespace Code

instance : Monad (Code I M) where
  pure a := fun m => .ret (a, m)
  bind x f := fun m => x m >>= fun am => f am.1 am.2

/-- A call. -/
def call (c : Sys I) : Code I M (Ret c) := fun m => .call c fun r => .ret (r, m)

/-- `exit(n)`. -/
def exit (n : Int) : Code I M α := fun _ => .exit n

/-- Read the memory. -/
def get : Code I M M := fun m => .ret (m, m)

/-- Change the memory. -/
def modify (f : M → M) : Code I M Unit := fun m => .ret ((), f m)

/-- A place where C leaves the behaviour undefined. -/
def undefined : Code I M α := fun _ => .call .fault fun r => nomatch r

@[simp] theorem pure_apply (a : α) (m : M) : (pure a : Code I M α) m = .ret (a, m) := rfl

@[simp] theorem bind_apply (x : Code I M α) (f : α → Code I M β) (m : M) :
    (x >>= f) m = x m >>= fun am => f am.1 am.2 := rfl

@[simp] theorem call_apply (c : Sys I) (m : M) :
    (call c : Code I M (Ret c)) m = .call c fun r => .ret (r, m) := rfl

@[simp] theorem exit_apply (n : Int) (m : M) : (exit n : Code I M α) m = .exit n := rfl

@[simp] theorem get_apply (m : M) : (get : Code I M M) m = .ret (m, m) := rfl

@[simp] theorem modify_apply (f : M → M) (m : M) :
    (modify f : Code I M Unit) m = .ret ((), f m) := rfl

theorem ite_apply (b : Prop) [Decidable b] (x y : Code I M α) (m : M) :
    (if b then x else y) m = if b then x m else y m := by
  split <;> rfl

/-! ## The safety condition -/

section wp
variable {pre : Local I → Sys I → Prop} {fin : Local I → Int → Prop}

/-- `Prog.wp` with the memory made visible. -/
def wp (pre : Local I → Sys I → Prop) (fin : Local I → Int → Prop) (x : Code I M α)
    (Q : Local I → α → M → Prop) (l : Local I) (m : M) : Prop :=
  Prog.wp Local.Step pre fin (x m) (fun l' am => Q l' am.1 am.2) l

variable {Q : Local I → α → M → Prop} {l : Local I} {m : M}

@[simp] theorem wp_pure (a : α) : wp pre fin (pure a) Q l m ↔ Q l a m := Iff.rfl

@[simp] theorem wp_bind (x : Code I M β) (f : β → Code I M α) :
    wp pre fin (x >>= f) Q l m ↔
      wp pre fin x (fun l' a m' => wp pre fin (f a) Q l' m') l m := Prog.wp_bind _ _ _ _

@[simp] theorem wp_call (c : Sys I) (Q : Local I → Ret c → M → Prop) :
    wp pre fin (call c) Q l m ↔ pre l c ∧ ∀ r, l.Can c r → Q (l.after c r) r m := by
  refine and_congr Iff.rfl ⟨fun h r hr => h r _ ⟨hr, rfl⟩, ?_⟩
  rintro h r l' ⟨hr, rfl⟩
  exact h r hr

@[simp] theorem wp_exit (n : Int) : wp pre fin (exit n : Code I M α) Q l m ↔ fin l n := Iff.rfl

@[simp] theorem wp_get (Q : Local I → M → M → Prop) : wp pre fin get Q l m ↔ Q l m m := Iff.rfl

@[simp] theorem wp_modify (f : M → M) (Q : Local I → Unit → M → Prop) :
    wp pre fin (modify f) Q l m ↔ Q l () (f m) := Iff.rfl

@[simp] theorem wp_undefined :
    wp pre fin (undefined : Code I M α) Q l m ↔ pre l .fault :=
  ⟨fun h => h.1, fun h => ⟨h, fun r => nomatch r⟩⟩

theorem wp_ite (b : Prop) [Decidable b] (x y : Code I M α) :
    wp pre fin (if b then x else y) Q l m ↔
      (b → wp pre fin x Q l m) ∧ (¬ b → wp pre fin y Q l m) := by
  split
  case isTrue h => exact ⟨fun hx => ⟨fun _ => hx, fun hn => absurd h hn⟩, fun hx => hx.1 h⟩
  case isFalse h => exact ⟨fun hy => ⟨fun hb => absurd hb h, fun _ => hy⟩, fun hy => hy.2 h⟩

theorem wp_mono {pre' : Local I → Sys I → Prop} {fin' : Local I → Int → Prop}
    {Q' : Local I → α → M → Prop} (hpre : ∀ l c, pre l c → pre' l c)
    (hfin : ∀ l n, fin l n → fin' l n) (hQ : ∀ l a m, Q l a m → Q' l a m) {x : Code I M α}
    (h : wp pre fin x Q l m) : wp pre' fin' x Q' l m := by
  refine Prog.wp_mono hpre hfin ?_ (x m) l h
  exact fun l am => hQ l am.1 am.2

theorem wp_post {Q' : Local I → α → M → Prop} (hQ : ∀ l a m, Q l a m → Q' l a m)
    {x : Code I M α} (h : wp pre fin x Q l m) : wp pre fin x Q' l m :=
  wp_mono (fun _ _ h => h) (fun _ _ h => h) hQ h

theorem wp_and {pre' : Local I → Sys I → Prop} {fin' : Local I → Int → Prop}
    {Q' : Local I → α → M → Prop} {x : Code I M α} (h : wp pre fin x Q l m)
    (h' : wp pre' fin' x Q' l m) :
    wp (fun l c => pre l c ∧ pre' l c) (fun l n => fin l n ∧ fin' l n) x
      (fun l a m => Q l a m ∧ Q' l a m) l m :=
  Prog.wp_and (x m) l h h'

end wp

/-! ## Code confined to some of the calls -/

/-- `x` only makes calls of the class `B`, and never exits. -/
def Only (B : Sys I → Prop) (x : Code I M α) : Prop := ∀ m, (x m).Only B

section Only
variable {B : Sys I → Prop}

theorem only_pure (a : α) : Only B (pure a : Code I M α) := fun _ => trivial

theorem only_bind {x : Code I M α} {f : α → Code I M β} (hx : Only B x) (hf : ∀ a, Only B (f a)) :
    Only B (x >>= f) := fun m => (hx m).bind fun am => hf am.1 am.2

theorem only_call {c : Sys I} (h : B c) : Only B (call c : Code I M (Ret c)) :=
  fun _ => ⟨h, fun _ => trivial⟩

theorem only_get : Only B (get : Code I M M) := fun _ => trivial

theorem only_modify (f : M → M) : Only B (modify f : Code I M Unit) := fun _ => trivial

theorem only_undefined (h : B .fault) : Only B (undefined : Code I M α) :=
  fun _ => ⟨h, fun r => nomatch r⟩

theorem only_ite {b : Prop} [Decidable b] {x y : Code I M α} (hx : Only B x) (hy : Only B y) :
    Only B (if b then x else y) := by
  split
  · exact hx
  · exact hy

theorem Only.mono {B' : Sys I → Prop} (h : ∀ c, B c → B' c) {x : Code I M α} (hx : Only B x) :
    Only B' x := by
  have key : ∀ p : Prog (Sys I) Ret (α × M), p.Only B → p.Only B' := by
    intro p
    induction p with
    | ret a => exact fun _ => trivial
    | exit n => exact fun hp => hp
    | call c k ih => exact fun hp => ⟨h c hp.1, fun r => ih r (hp.2 r)⟩
  exact fun m => key _ (hx m)

end Only

/-- `x` only makes calls of the class `B`; it may exit. -/
def Within (B : Sys I → Prop) (x : Code I M α) : Prop :=
  ∀ l m, wp (fun _ c => B c) (fun _ _ => True) x (fun _ _ _ => True) l m

section Within
variable {B : Sys I → Prop}

theorem within_pure (a : α) : Within B (pure a : Code I M α) := fun _ _ => trivial

theorem within_exit (n : Int) : Within B (exit n : Code I M α) := fun _ _ => trivial

theorem within_call {c : Sys I} (h : B c) : Within B (call c : Code I M (Ret c)) :=
  fun _ _ => ⟨h, fun _ _ _ => trivial⟩

theorem within_get : Within B (get : Code I M M) := fun _ _ => trivial

theorem within_modify (f : M → M) : Within B (modify f : Code I M Unit) := fun _ _ => trivial

theorem within_bind {x : Code I M α} {f : α → Code I M β} (hx : Within B x)
    (hf : ∀ a, Within B (f a)) : Within B (x >>= f) := by
  intro l m
  rw [wp_bind]
  exact wp_post (fun l' a m' _ => hf a l' m') (hx l m)

theorem within_ite {b : Prop} [Decidable b] {x y : Code I M α} (hx : Within B x)
    (hy : Within B y) : Within B (if b then x else y) := by
  split
  · exact hx
  · exact hy

theorem Only.within {x : Code I M α} (hx : Only B x) : Within B x := by
  intro l m
  exact Prog.Only.wp (K := fun _ _ => True) (fun _ => trivial) (fun _ _ => trivial)
    (fun _ _ => trivial) (hx m) l fun _ _ _ hc => hc

/-- What such code owes before a call may also depend on the state. -/
theorem Within.wp {pre : Local I → Sys I → Prop} {x : Code I M α} (hx : Within B x)
    (hpre : ∀ l c, B c → pre l c) (l : Local I) (m : M) :
    Code.wp pre (fun _ _ => True) x (fun _ _ _ => True) l m :=
  wp_mono (fun l c hc => hpre l c hc) (fun _ _ h => h) (fun _ _ _ h => h) (hx l m)

end Within

end Code

/-! ## A new pipe -/

/-- What `pipe` does: two new descriptors, above all those that have none free
below them, and nothing else. -/
structure Piped (l l' : Local I) (ends : Nat × Nat) : Prop where
  pid : l'.pid = l.pid
  npipes : l'.npipes = l.npipes + 1
  wrote : l'.wrote = l.wrote
  got : l'.got = l.got
  log : l'.log = l.log ++ [⟨.pipe, some ends⟩]
  readEnd : l'.fds.get ends.1 = some ⟨.pipeIn l.nextPipe, false⟩
  writeEnd : l'.fds.get ends.2 = some ⟨.pipeOut l.nextPipe, false⟩
  get : ∀ {fd d}, l.fds.get fd = some d → l'.fds.get fd = some d
  full : ∀ {k}, l.fds.Full k → k ≤ ends.1 ∧ k < ends.2 ∧ l'.fds.Full (k + 2)

theorem piped_after {l : Local I} {ends : Nat × Nat} (h : l.Can .pipe (some ends)) :
    Piped l (l.after .pipe (some ends)) ends := by
  obtain rfl : ends = l.pipeEnds := h
  have hin := l.fds.set_get_self l.fds.lowest ⟨.pipeIn l.nextPipe, false⟩
  have hne := FdTable.ne_lowest _ hin
  refine ⟨rfl, rfl, List.append_nil _, List.append_nil _, rfl, ?_, ?_, ?_, ?_⟩
  · exact (FdTable.set_get_ne _ _ hne).trans hin
  · exact FdTable.set_get_self _ _ _
  · intro fd d hd
    have hd' := (l.fds.set_get_ne ⟨.pipeIn l.nextPipe, false⟩ (l.fds.ne_lowest hd)).trans hd
    exact (FdTable.set_get_ne _ _ (FdTable.ne_lowest _ hd')).trans hd'
  · intro k hk
    have h₁ := l.fds.full_set_lowest ⟨.pipeIn l.nextPipe, false⟩
    have h₂ := (l.fds.set l.fds.lowest ⟨.pipeIn l.nextPipe, false⟩).full_set_lowest
      ⟨.pipeOut l.nextPipe, false⟩
    have hle := hk.le_lowest
    have hlt := h₁.le_lowest
    exact ⟨hle, Nat.lt_of_le_of_lt hle hlt, h₂.mono (by omega)⟩

/-! ## The frame of quiet calls -/

/-- A call that takes no part in a protocol between processes and can only
overwrite descriptors below `n`. -/
def Quiet (n : Nat) : Sys I → Prop
  | .dup2 _ newfd => newfd < n
  | .pipe | .fork | .execve _ _ _ | .write _ _ | .read _ | .waitpid _ _ | .killpg _ => False
  | _ => True

/-- What quiet calls keep. -/
structure Keeps (n : Nat) (l l' : Local I) : Prop where
  pid : l'.pid = l.pid
  npipes : l'.npipes = l.npipes
  wrote : l'.wrote = l.wrote
  got : l'.got = l.got
  obj : ∀ fd d, n ≤ fd → l.fds.get fd = some d → ∃ d', l'.fds.get fd = some d' ∧ d'.obj = d.obj
  full : ∀ k, l.fds.Full k → l'.fds.Full k
  log : ∃ es, l'.log = l.log ++ es ∧ ∀ e ∈ es, Quiet n e.call

theorem Keeps.line {n : Nat} {l l' : Local I} (h : Keeps n l l') :
    lineage l'.log = lineage l.log := by
  obtain ⟨es, hes, hq⟩ := h.log
  have hnil : lineage es = [] := by
    refine lineage_eq_nil ?_
    intro e he
    refine Event.born_eq_none ?_
    rintro self rfl
    exact (hq _ he).elim
  rw [hes, lineage_append, hnil, List.append_nil]

theorem Keeps.refl (n : Nat) (l : Local I) : Keeps n l l :=
  ⟨rfl, rfl, rfl, rfl, fun _ d _ h => ⟨d, h, rfl⟩, fun _ h => h,
    [], by simp, fun _ h => absurd h List.not_mem_nil⟩

theorem Keeps.trans {n : Nat} {l l' l'' : Local I} (h : Keeps n l l') (h' : Keeps n l' l'') :
    Keeps n l l'' := by
  refine ⟨h'.pid.trans h.pid, h'.npipes.trans h.npipes, h'.wrote.trans h.wrote,
    h'.got.trans h.got, ?_, fun k hk => h'.full k (h.full k hk), ?_⟩
  · intro fd d hfd hd
    obtain ⟨d₁, hd₁, ho₁⟩ := h.obj fd d hfd hd
    obtain ⟨d₂, hd₂, ho₂⟩ := h'.obj fd d₁ hfd hd₁
    exact ⟨d₂, hd₂, ho₂.trans ho₁⟩
  · obtain ⟨es, hes, hq⟩ := h.log
    obtain ⟨es', hes', hq'⟩ := h'.log
    refine ⟨es ++ es', by rw [hes', hes, List.append_assoc], fun e he => ?_⟩
    rcases List.mem_append.mp he with he | he
    · exact hq e he
    · exact hq' e he

/-- An entry put at the lowest free descriptor, or below `n`, keeps the others. -/
theorem obj_set {n fd₀ : Nat} {t : FdTable} {d₀ : Desc} (h : fd₀ < n ∨ fd₀ = t.lowest) :
    ∀ fd d, n ≤ fd → t.get fd = some d →
      ∃ d', (t.set fd₀ d₀).get fd = some d' ∧ d'.obj = d.obj := by
  intro fd d hn hd
  have hne : fd ≠ fd₀ := by
    rcases h with h | h
    · omega
    · exact h ▸ t.ne_lowest hd
  exact ⟨d, by rw [t.set_get_ne d₀ hne, hd], rfl⟩

theorem keeps_after {n : Nat} {l : Local I} {c : Sys I} {r : Ret c} (hc : Quiet n c)
    (hr : l.Can c r) : Keeps n l (l.after c r) := by
  have hlog : ∃ es, (l.after c r).log = l.log ++ es ∧ ∀ e ∈ es, Quiet n e.call :=
    ⟨[⟨c, r⟩], rfl, fun e he => by obtain rfl := List.mem_singleton.mp he; exact hc⟩
  have same : ∀ l' : Local I, l'.pid = l.pid → l'.npipes = l.npipes → l'.wrote = l.wrote →
      l'.got = l.got → l'.fds = l.fds →
      (∃ es, l'.log = l.log ++ es ∧ ∀ e ∈ es, Quiet n e.call) → Keeps n l l' := by
    intro l' h₁ h₂ h₃ h₄ h₅ h₆
    exact ⟨h₁, h₂, h₃, h₄, fun fd d _ hd => ⟨d, by rw [h₅]; exact hd, rfl⟩,
      fun k hk => by rw [h₅]; exact hk, h₆⟩
  have hnil : ∀ {β : Type} (xs : List β), xs ++ (none : Option β).toList = xs :=
    fun xs => List.append_nil xs
  cases c with
  | open_ path mode =>
      cases r with
      | none => exact same _ rfl rfl (hnil _) (hnil _) rfl hlog
      | some fd =>
          exact ⟨rfl, rfl, hnil _, hnil _, obj_set (Or.inr hr), fun k hk => hk.set _ _, hlog⟩
  | dup2 oldfd newfd =>
      cases r with
      | false => exact same _ rfl rfl (hnil _) (hnil _) rfl hlog
      | true =>
          by_cases heq : oldfd = newfd
          · refine same _ ?_ ?_ (hnil _) (hnil _) ?_ hlog <;> simp [Local.after, Local.effect, heq]
          · obtain ⟨d, hd⟩ := Option.isSome_iff_exists.mp hr
            have he : l.effect (.dup2 oldfd newfd) true =
                { l with fds := l.fds.set newfd { d with cloexec := false } } := by
              simp [Local.effect, heq, hd]
            refine ⟨?_, ?_, hnil _, hnil _, ?_, ?_, hlog⟩
            · simp [Local.after, he]
            · simp [Local.after, he]
            · simp only [Local.after, he]
              exact obj_set (Or.inl hc)
            · simp only [Local.after, he]
              exact fun k hk => hk.set _ _
  | setCloexec fd =>
      cases r with
      | false => exact same _ rfl rfl (hnil _) (hnil _) rfl hlog
      | true =>
          cases hd : l.fds.get fd with
          | none =>
              refine same _ ?_ ?_ (hnil _) (hnil _) ?_ hlog <;>
                simp [Local.after, Local.effect, hd]
          | some d =>
              have he : l.effect (.setCloexec fd) true =
                  { l with fds := l.fds.set fd { d with cloexec := true } } := by
                simp [Local.effect, hd]
              refine ⟨?_, ?_, hnil _, hnil _, ?_, ?_, hlog⟩
              · simp [Local.after, he]
              · simp [Local.after, he]
              · simp only [Local.after, he]
                intro fd' d' _ hd'
                by_cases hfd : fd' = fd
                · subst hfd
                  obtain rfl := Option.some.inj (hd.symm.trans hd')
                  exact ⟨_, FdTable.set_get_self _ _ _, rfl⟩
                · exact ⟨d', by rw [FdTable.set_get_ne _ _ hfd]; exact hd', rfl⟩
              · simp only [Local.after, he]
                exact fun k hk => hk.set _ _
  | fault => cases r
  | pipe | fork | execve | write | read | waitpid | killpg => exact hc.elim
  | _ => exact same _ rfl rfl (hnil _) (hnil _) rfl hlog

/-- **The frame rule**: code confined to quiet calls keeps what they keep. -/
theorem Code.keeps_wp {n : Nat} {B : Sys I → Prop} (hB : ∀ c, B c → Quiet n c)
    {pre : Local I → Sys I → Prop} {fin : Local I → Int → Prop} {x : Code I M α} {l : Local I}
    {m : M} (hx : (x m).Only B) (hpre : ∀ l' c, Keeps n l l' → B c → pre l' c) :
    Code.wp pre fin x (fun l' _ _ => Keeps n l l') l m :=
  hx.wp (Keeps.refl n) (fun h h' => h.trans h')
    (fun hc hs => by obtain ⟨hr, rfl⟩ := hs; exact keeps_after (hB _ hc) hr) l hpre

/-- A rule for quiet code and the frame rule, together. -/
theorem Code.frame_wp {n : Nat} {B : Sys I → Prop} (hB : ∀ c, B c → Quiet n c)
    {pre : Local I → Sys I → Prop} {fin : Local I → Int → Prop} {x : Code I M α} {l : Local I}
    {m : M} {R Q : Local I → α → M → Prop} (hx : (x m).Only B)
    (hR : Code.wp (fun _ _ => True) (fun _ _ => True) x R l m)
    (hpre : ∀ l' c, Keeps n l l' → B c → pre l' c)
    (hQ : ∀ l' a m', Keeps n l l' → R l' a m' → Q l' a m') : Code.wp pre fin x Q l m :=
  Code.wp_mono (fun _ _ h => h.1) (fun _ _ h => h.1) (fun l' a m' h => hQ l' a m' h.1 h.2)
    (Code.wp_and (Code.keeps_wp hB hx hpre) hR)

end Posix
