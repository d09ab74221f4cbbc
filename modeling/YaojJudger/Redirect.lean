/-
# `YaojJudger.Redirect` — standard input, output and error of the judged program

`runner_prework` opens three files and moves them to the descriptors 0, 1 and 2
one after the other.  A `dup2` onto 1 or 2 would destroy a file that was opened
there and is still needed, so the order is right only if the files lie high
enough.

They do, whatever the judger was started with.  The pipe it makes first takes
the two lowest free descriptors, so that 0 and 1 are in use from then on; the
hooks and the fork free nothing; and each `open` takes a descriptor above the
one before:

    input_fd ≥ 2,   output_fd ≥ 3,   error_fd ≥ 4
-/
import YaojJudger.FirstCall

namespace YaojJudger

open Posix

/-! ## One call -/

section
variable {l : JLocal}

/-- What a successful `open` does to the table. -/
structure FileOpened (l l' : JLocal) (fd : Nat) (obj : Obj) : Prop where
  self : l'.fds.get fd = some ⟨obj, false⟩
  others : ∀ {n}, n ≠ fd → l'.fds.get n = l.fds.get n
  full : ∀ {k}, l.fds.Full k → k ≤ fd ∧ l'.fds.Full (fd + 1)

theorem fileOpened_after {path : Bytes} {mode : OpenMode} {fd : Nat}
    (h : l.Can (.open_ path mode : Call) (some fd)) :
    FileOpened l (l.after (.open_ path mode : Call) (some fd)) fd (.file path mode) := by
  obtain rfl : fd = l.fds.lowest := h
  refine ⟨FdTable.set_get_self _ _ _, fun hne => FdTable.set_get_ne _ _ hne, fun hk => ?_⟩
  exact ⟨hk.le_lowest, l.fds.full_set_lowest _⟩

theorem dup2_get {oldfd newfd : Nat} {obj : Obj} (hold : l.fds.get oldfd = some ⟨obj, false⟩) :
    (l.after (.dup2 oldfd newfd : Call) true).fds.get newfd = some ⟨obj, false⟩ := by
  by_cases heq : oldfd = newfd
  · subst heq
    simpa [Local.after, Local.effect] using hold
  · simp [Local.after, Local.effect, heq, hold]

theorem dup2_get_ne {oldfd newfd n : Nat} (hn : n ≠ newfd) :
    (l.after (.dup2 oldfd newfd : Call) true).fds.get n = l.fds.get n := by
  by_cases heq : oldfd = newfd
  · simp [Local.after, Local.effect, heq]
  · cases hd : l.fds.get oldfd with
    | none => simp [Local.after, Local.effect, heq, hd]
    | some d => simp [Local.after, Local.effect, heq, hd, FdTable.set_get_ne _ _ hn]

end

/-! ## `runner_prework` -/

/-- The file that is to become descriptor `n`. -/
def stdFile (ectxt : RunnerCtxt) (n : Nat) : Obj :=
  .file (ectxt.arg n) (if n = 0 then .readOnly else .writeTruncCreate)

/-- Descriptor `n` is that file. -/
def RefersTo (ectxt : RunnerCtxt) (l : JLocal) (fd n : Nat) : Prop :=
  l.fds.get fd = some ⟨stdFile ectxt n, false⟩

/-- Before a `dup2` the source still is the file it was opened for. -/
def SourceIntact (ectxt : RunnerCtxt) (l : JLocal) : Call → Prop
  | .dup2 oldfd newfd => RefersTo ectxt l oldfd newfd
  | _ => True

/-- The three descriptors are in place. -/
def Redirected (ectxt : RunnerCtxt) (l : JLocal) : Prop := ∀ n < 3, RefersTo ectxt l n n

section
variable {ectxt : RunnerCtxt} {fin : JLocal → Int → Prop} {l : JLocal} {m : Mem}

/-- A failure owes nothing. -/
theorem redirect_fails {errnum : Int} (hne : errnum ≠ 0) :
    Code.wp (SourceIntact ectxt) fin (yreturn errnum)
      (fun l' r _ => r = 0 → Redirected ectxt l') l m := by
  rw [wp_yreturn]
  exact ⟨trivial, fun h => absurd h hne⟩

/-- One `dup2`, and what comes after it. -/
theorem redirect_wp {oldfd newfd : Nat} {next : Code Int} (hold : RefersTo ectxt l oldfd newfd)
    (hnext : RefersTo ectxt (l.after (.dup2 oldfd newfd : Call) true) newfd newfd →
      Code.wp (SourceIntact ectxt) fin next (fun l' r _ => r = 0 → Redirected ectxt l')
        (l.after (.dup2 oldfd newfd : Call) true) m) :
    Code.wp (SourceIntact ectxt) fin
      (do if ← Code.call (.dup2 oldfd newfd) then next else yreturn eDup)
      (fun l' r _ => r = 0 → Redirected ectxt l') l m := by
  rw [Code.wp_bind, Code.wp_call]
  refine ⟨hold, fun b _ => ?_⟩
  rw [Code.wp_ite]
  refine ⟨fun hb => ?_, fun _ => redirect_fails (by decide)⟩
  subst hb
  exact hnext (dup2_get hold)

theorem RefersTo.dup2 {fd n oldfd newfd : Nat} (h : RefersTo ectxt l fd n) (hne : fd ≠ newfd) :
    RefersTo ectxt (l.after (.dup2 oldfd newfd : Call) true) fd n :=
  (dup2_get_ne hne).trans h

/-- The three `dup2` calls: nothing on the way to 0 and 1 is still needed. -/
theorem redirects_wp {i o e : Nat} (hi : RefersTo ectxt l i 0) (ho : RefersTo ectxt l o 1)
    (he : RefersTo ectxt l e 2) (hlo : 0 < o) (hle : 1 < e) :
    Code.wp (SourceIntact ectxt) fin
      (do
        if ← Code.call (.dup2 i 0) then
          if ← Code.call (.dup2 o 1) then
            if ← Code.call (.dup2 e 2) then return 0
            else yreturn eDup
          else yreturn eDup
        else yreturn eDup)
      (fun l' r _ => r = 0 → Redirected ectxt l') l m := by
  refine redirect_wp hi fun h0 => ?_
  refine redirect_wp (ho.dup2 (by omega)) fun h1 => ?_
  refine redirect_wp ((he.dup2 (by omega)).dup2 (by omega)) fun h2 => ?_
  intro _ n hn
  obtain rfl | rfl | rfl : n = 0 ∨ n = 1 ∨ n = 2 := by omega
  · exact (h0.dup2 (by omega)).dup2 (by omega)
  · exact h1.dup2 (by omega)
  · exact h2

/-- **The files are opened high enough**, if 0 and 1 are in use. -/
theorem runnerPrework_wp (hfull : l.fds.Full 2) :
    Code.wp (SourceIntact m.ctxt.ectxt) fin runnerPrework
      (fun l' r _ => r = 0 → Redirected m.ctxt.ectxt l') l m := by
  rw [runnerPrework, Code.wp_bind, Code.wp_get, Code.wp_ite]
  refine ⟨fun _ => redirect_fails (by decide), fun _ => ?_⟩
  simp only [Code.wp_bind]
  rw [Code.wp_call]
  refine ⟨trivial, fun inputFd hinput => ?_⟩
  rw [Code.wp_call]
  refine ⟨trivial, fun outputFd houtput => ?_⟩
  rw [Code.wp_call]
  refine ⟨trivial, fun errorFd herror => ?_⟩
  cases inputFd with
  | none => exact redirect_fails (by decide)
  | some inputFd =>
      cases outputFd with
      | none => exact redirect_fails (by decide)
      | some outputFd =>
          cases errorFd with
          | none => exact redirect_fails (by decide)
          | some errorFd =>
              have hi := fileOpened_after hinput
              have ho := fileOpened_after houtput
              have he := fileOpened_after herror
              obtain ⟨hli, hfull₁⟩ := hi.full hfull
              obtain ⟨hlo, hfull₂⟩ := ho.full hfull₁
              obtain ⟨hle, -⟩ := he.full hfull₂
              refine redirects_wp ?_ ?_ he.self (by omega) (by omega)
              · exact (he.others (by omega)).trans ((ho.others (by omega)).trans hi.self)
              · exact (he.others (by omega)).trans ho.self

end

/-! ## From the start of the judger to `runner_prework` -/

/-- The child up to `runner_prework`; the answer is that of `setpgid`. -/
def childStart : Code Bool := do
  let pid ← Code.call .getpid
  modifyCtxt fun ctxt => { ctxt with pchild := (pid : Nat) }
  Code.call .setpgid

/-- The child of a `yjudger_general` begun in `l₀` and `m₀` enters `runner_prework`
in `l` and `m`: the pipe was made, the hooks succeeded, and the process is the
child of the fork. -/
inductive EntersPrework (l₀ : JLocal) (m₀ : Mem) (l : JLocal) (m : Mem) : Prop
  | mk {pRun : Nat × Nat} {l₁ l₂ l₃ l₄ : JLocal} {m₁ m₂ m₃ m₄ : Mem} :
      Code.Runs judgerStart l₀ m₀ () l₁ m₁ → Code.Runs signalPipe l₁ m₁ (some pRun) l₂ m₂ →
      Code.Runs beforeFork l₂ m₂ 0 l₃ m₃ → Code.Runs fork l₃ m₃ 0 l₄ m₄ →
      Code.Runs childStart l₄ m₄ true l m → EntersPrework l₀ m₀ l m

section
variable {l₀ l l' : JLocal} {m₀ m m' : Mem}

/-- It is a position of the judger. -/
theorem EntersPrework.steps (h : EntersPrework l₀ m₀ l m) : ∃ rest : Int → Code Int,
    Prog.Steps Local.Step l₀ (yjudgerGeneral m₀) l ((childPrework >>= rest) m) := by
  cases h with
  | @mk pRun l₁ l₂ l₃ l₄ m₁ m₂ m₃ m₄ hstart hpipe hhooks hfork hchild =>
      have hrest : ∃ rest : Int → Code Int,
          Prog.Steps Local.Step l₄ (generalChild pRun m₄) l ((childPrework >>= rest) m) :=
        ⟨_, hchild.steps (f := fun ok => if ok = true then childPrework >>= _ else _)⟩
      obtain ⟨rest, hrest⟩ := hrest
      have hforked : Prog.Steps Local.Step l₃ ((fork >>= fun childPid =>
          if childPid < 0 then yreturn eFork
          else if childPid = 0 then generalChild pRun
          else judgerParent pRun childPid) m₃) l ((childPrework >>= rest) m) :=
        hfork.steps.trans hrest
      exact ⟨rest, hstart.steps.trans (hpipe.steps.trans (hhooks.steps.trans hforked))⟩

theorem full_childStart {k : Nat} {b : Bool} (h : Code.Runs childStart l m b l' m')
    (hfull : l.fds.Full k) : l'.fds.Full k := by
  obtain ⟨pid, -, h⟩ := (Code.runs_call_bind _ _ _).mp h
  obtain ⟨_, l₁, m₁, hset, h⟩ := (Code.runs_bind _ _ _).mp h
  obtain ⟨rfl, -⟩ := (runs_modifyCtxt _ _).mp hset
  obtain ⟨-, rfl, -⟩ := (Code.runs_call _ _).mp h
  exact hfull

theorem full_fork {k : Nat} {r : Int} (h : Code.Runs fork l m r l' m') (hfull : l.fds.Full k) :
    l'.fds.Full k := by
  obtain ⟨f, -, h⟩ := (Code.runs_call_bind _ _ _).mp h
  cases f with
  | failed | parent | child =>
      obtain ⟨-, rfl, -⟩ := (Code.runs_pure _ _).mp h
      exact hfull

/-- When the child enters `runner_prework`, 0 and 1 are in use. -/
theorem EntersPrework.full (h : EntersPrework l₀ m₀ l m) : l.fds.Full 2 := by
  obtain ⟨hstart, hpipe, hhooks, hfork, hchild⟩ := h
  obtain ⟨hends, rfl, -⟩ := (Code.runs_call _ _).mp hpipe
  have hpiped := piped_after hends
  have hfull := (hpiped.full fun n hn => absurd hn (Nat.not_lt_zero n)).2.2
  exact full_childStart hchild (full_fork hfork ((runs_beforeFork hhooks).full 2 hfull))

/-- **Redirection**, whatever descriptors the judger was started with: when
`runner_prework` has returned 0 the three descriptors are the three files, and each
`dup2` on the way found its source untouched. -/
theorem redirected (h : EntersPrework l₀ m₀ l m) :
    (∀ oldfd newfd l₁ k, Code.Comes runnerPrework l m (.dup2 oldfd newfd : Call) l₁ k →
      RefersTo m.ctxt.ectxt l₁ oldfd newfd) ∧
    (Code.Runs runnerPrework l m 0 l' m' → Redirected m.ctxt.ectxt l') := by
  have hwp : Code.wp (SourceIntact m.ctxt.ectxt) (fun _ _ => True) runnerPrework
      (fun l' r _ => r = 0 → Redirected m.ctxt.ectxt l') l m :=
    runnerPrework_wp h.full
  refine ⟨fun oldfd newfd l₁ k hcomes => ?_, fun hrun => ?_⟩
  · exact (Prog.Steps.wp hcomes hwp).1
  · exact hrun.wp hwp rfl

end

/-! ## With nothing open at first -/

theorem runs_redirect {ectxt : RunnerCtxt} {l l' : JLocal} {m m' : Mem} {oldfd newfd : Nat}
    {next : Code Int} {r : Int} (hold : RefersTo ectxt l oldfd newfd)
    (h : Code.Runs next (l.after (.dup2 oldfd newfd : Call) true) m r l' m') :
    Code.Runs (do if ← Code.call (.dup2 oldfd newfd) then next else yreturn eDup) l m r l' m' := by
  have hcan : l.Can (.dup2 oldfd newfd : Call) true := by
    show (l.fds.get oldfd).isSome = true
    rw [hold]
    rfl
  exact (Code.runs_call_bind _ _ _).mpr ⟨true, hcan, h⟩

/-- An `open` that succeeds, and what comes after it. -/
theorem runs_open {path : Bytes} {mode : OpenMode} {l l' : JLocal} {m m' : Mem}
    {next : Option Nat → Code Int} {r : Int}
    (h : Code.Runs (next (some l.fds.lowest))
      (l.after (.open_ path mode : Call) (some l.fds.lowest)) m r l' m') :
    Code.Runs (Code.call (.open_ path mode) >>= next) l m r l' m' :=
  (Code.runs_call_bind _ _ _).mpr ⟨some l.fds.lowest, rfl, h⟩

/-- `runner_prework` can succeed wherever it has its arguments. -/
theorem runs_runnerPrework {l : JLocal} {m : Mem} (hfull : l.fds.Full 2)
    (hargc : 4 ≤ m.ctxt.ectxt.argc) : ∃ l', Code.Runs runnerPrework l m 0 l' m := by
  have hi := @fileOpened_after l (m.ctxt.ectxt.arg 0) .readOnly l.fds.lowest rfl
  generalize hl₁ : l.after (.open_ (m.ctxt.ectxt.arg 0) .readOnly : Call) (some l.fds.lowest) =
    l₁ at hi
  have ho := @fileOpened_after l₁ (m.ctxt.ectxt.arg 1) .writeTruncCreate l₁.fds.lowest rfl
  generalize hl₂ : l₁.after (.open_ (m.ctxt.ectxt.arg 1) .writeTruncCreate : Call)
    (some l₁.fds.lowest) = l₂ at ho
  have he := @fileOpened_after l₂ (m.ctxt.ectxt.arg 2) .writeTruncCreate l₂.fds.lowest rfl
  generalize hl₃ : l₂.after (.open_ (m.ctxt.ectxt.arg 2) .writeTruncCreate : Call)
    (some l₂.fds.lowest) = l₃ at he
  obtain ⟨hli, hfull₁⟩ := hi.full hfull
  obtain ⟨hlo, hfull₂⟩ := ho.full hfull₁
  obtain ⟨hle, -⟩ := he.full hfull₂
  have hri : RefersTo m.ctxt.ectxt l₃ l.fds.lowest 0 :=
    (he.others (by omega)).trans ((ho.others (by omega)).trans hi.self)
  have hro : RefersTo m.ctxt.ectxt l₃ l₁.fds.lowest 1 := (he.others (by omega)).trans ho.self
  have hre : RefersTo m.ctxt.ectxt l₃ l₂.fds.lowest 2 := he.self
  refine ⟨((l₃.after (.dup2 l.fds.lowest 0 : Call) true).after
    (.dup2 l₁.fds.lowest 1 : Call) true).after (.dup2 l₂.fds.lowest 2 : Call) true, ?_⟩
  refine (Code.runs_get_bind _ _).mpr ((Code.runs_ite _ _ _ _).mpr
    (Or.inr ⟨Nat.not_lt.mpr hargc, ?_⟩))
  refine runs_open ?_
  rw [hl₁]
  refine runs_open ?_
  rw [hl₂]
  refine runs_open ?_
  rw [hl₃]
  refine runs_redirect hri (runs_redirect (hro.dup2 (by omega)) ?_)
  exact runs_redirect ((hre.dup2 (by omega)).dup2 (by omega)) (.pure 0 _ m)

/-- The child gets to `runner_prework` wherever the hooks can succeed. -/
theorem enters_prework {l₀ : JLocal} {m₀ m₁ : Mem} {hs : List Hook} {es : List JEvent}
    (h : ChainDoes (hooked (m₀.begun l₀.pid)).ctxt.hctxt.beforeFork (hooked (m₀.begun l₀.pid))
      hs 0 es m₁) :
    ∃ l m, EntersPrework l₀ m₀ l m ∧ m.ctxt.ectxt = m₁.ctxt.ectxt := by
  generalize hl₁ : l₀.after (.getpid : Call) l₀.pid = l₁
  generalize hl₂ : l₁.after (.pipe : Call) (some l₁.pipeEnds) = l₂
  have hstart : Code.Runs judgerStart l₀ m₀ () l₁ (m₀.begun l₀.pid) :=
    (Code.runs_call_bind _ _ _).mpr ⟨l₀.pid, rfl, (runs_modifyCtxt _ _).mpr ⟨hl₁.symm, rfl⟩⟩
  have hpipe : Code.Runs signalPipe l₁ (m₀.begun l₀.pid) (some l₁.pipeEnds) l₂
      (m₀.begun l₀.pid) :=
    (Code.runs_call (.pipe : Call) _).mpr ⟨rfl, hl₂.symm, rfl⟩
  obtain ⟨l₃, hhooks, -⟩ := records_beforeFork (l := l₂) h
  have hfork : Code.Runs fork l₃ m₁ 0 (l₃.after (.fork : Call) (.child (l₃.pid + 1))) m₁ :=
    (Code.runs_call_bind _ _ _).mpr ⟨.child (l₃.pid + 1), Nat.lt_succ_self _, .pure _ _ _⟩
  generalize l₃.after (.fork : Call) (.child (l₃.pid + 1)) = l₄ at hfork
  have hchild : Code.Runs childStart l₄ m₁ true _ (m₁.parent l₄.pid) :=
    (Code.runs_call_bind _ _ _).mpr ⟨l₄.pid, rfl, (Code.runs_bind _ _ _).mpr ⟨(), _, _,
      (runs_modifyCtxt _ _).mpr ⟨rfl, rfl⟩, (Code.runs_call _ _).mpr ⟨trivial, rfl, rfl⟩⟩⟩
  exact ⟨_, _, .mk hstart hpipe hhooks hfork hchild, rfl⟩

/-- The judger is started with no descriptor at all. -/
theorem redirected_closed : ∃ l m l' m',
    EntersPrework (.start (.inheritedBelow 0)) sampleMem l m ∧
      Code.Runs runnerPrework l m 0 l' m' ∧
      (∀ oldfd newfd l₁ k, Code.Comes runnerPrework l m (.dup2 oldfd newfd : Call) l₁ k →
        RefersTo m.ctxt.ectxt l₁ oldfd newfd) ∧
      (Code.Runs runnerPrework l m 0 l' m' → Redirected m.ctxt.ectxt l') := by
  have hhooks : ChainDoes (hooked (sampleMem.begun 1)).ctxt.hctxt.beforeFork
      (hooked (sampleMem.begun 1)) _ 0 _ _ :=
    .next (.compiled [] rfl (handler_empty _ (Vector.replicate 10 0))) (.next .preset .nil)
  obtain ⟨l, m, henters, hectxt⟩ := @enters_prework (.start (.inheritedBelow 0)) _ _ _ _ hhooks
  have hargc : 4 ≤ m.ctxt.ectxt.argc := by
    rw [hectxt]
    show 4 ≤ (List.replicate 6 _).length
    simp
  obtain ⟨l', hrun⟩ := runs_runnerPrework henters.full hargc
  exact ⟨l, m, l', m, henters, hrun, redirected henters⟩

end YaojJudger
