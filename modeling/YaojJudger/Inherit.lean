/-
# `YaojJudger.Inherit` — what crosses the `exec`

A judged program should find open the descriptors 0, 1 and 2, and what the
caller of the judger left open for it (`InheritsOnly`).  The judgers close
nothing, and the only descriptor they ever mark close-on-exec is the log file's,
before the `fork`.  So whatever a child was given after that reaches the
program: the file for its error output at least, which is never one of the
three, since `p_run` and two more descriptors were given before it.

Who made `p_run` is told by `paid`: no process forks before it has a pipe, and no
process with a lineage marks anything.
-/
import YaojJudger.Children

namespace YaojJudger

open Posix

/-- Of all that `exec` leaves open only the standard descriptors were not left
open by the table `t`. -/
def InheritsOnly (t : FdTable) (l : JLocal) : Prop :=
  ∀ fd, (l.fds.afterExec.get fd).isSome → fd < 3 ∨ (t.afterExec.get fd).isSome

/-! ## Nobody closes or marks a descriptor after the fork -/

/-- A process that forks has made a pipe. -/
def PipedPre (l : JLocal) (c : Call) : Prop :=
  c = .fork → ∃ ends, (⟨.pipe, some ends⟩ : JEvent) ∈ l.log

/-- Only a process without lineage marks descriptors. -/
theorem judger_marks (t : FdTable) {m : Mem} (hb : BuiltinHooks m.ctxt.hctxt) {x : Code Int}
    (hx : x = yjudgerGeneral ∨ x = yjudgerInteractive) :
    Code.wp (FirstOnly Sys.marks) anyExit x (fun _ _ _ => True) (.start t) m :=
  judger_firstOnly (fun _ h => h.unmarked) t hb hx

/-- Both judgers make their first pipe before anything else. -/
theorem launch_piped {t : FdTable} {m : Mem} {x : Nat × Nat → Code Int} :
    Code.wp PipedPre anyExit (do
      judgerStart
      match ← signalPipe with
      | none => yreturn ePipe
      | some pRun => x pRun) (fun _ _ _ => True) (.start t) m := by
  rw [Code.wp_bind, judgerStart, Code.wp_bind, Code.wp_call]
  refine ⟨fun h => (by cases h), fun pid _ => ?_⟩
  rw [wp_modifyCtxt, Code.wp_bind, signalPipe, Code.wp_call]
  refine ⟨fun h => (by cases h), fun ends _ => ?_⟩
  cases ends with
  | none => rw [wp_yreturn]; exact ⟨fun h => (by cases h), trivial⟩
  | some ends =>
      refine Prog.wp_of_stable (S := fun l => (⟨.pipe, some ends⟩ : JEvent) ∈ l.log) ?_
        (fun h _ => ⟨ends, h⟩) (fun _ => trivial) (fun _ => trivial) _ ?_
      · rintro l c r l' hl ⟨-, rfl⟩
        exact List.mem_append_left _ hl
      · exact List.mem_append_right _ (List.mem_singleton_self _)

/-! ## What is inherited -/

section
variable {x : Code Int} {t : FdTable} {m : Mem} {pgid : Nat}
  {ok : JWorld → Act judgerIface → Prop} {w : JWorld} {j : Nat} {q : Proc judgerIface (Int × Mem)}

/-- **What a process was given after the fork it inherits**, from the second descriptor on. -/
theorem inherits_given
    (hmark : Code.wp (FirstOnly Sys.marks) anyExit x (fun _ _ _ => True) (.start t) m)
    (hpiped : Code.wp PipedPre anyExit x (fun _ _ _ => True) (.start t) m)
    (hr : Reaches killers ok (World.init t (x m) pgid) w) (hj : w.procs j = some q)
    {before es es' : List JEvent} {self : Nat} (fd : Nat)
    (hlog : q.loc.log = before ++ ⟨.fork, .child self⟩ :: (es ++ es'))
    (hes : 1 ≤ (given es).length) (hfd : fd ∈ given es') : ¬ InheritsOnly t q.loc := by
  have hsteps := hr.positioned hj
  have hbefore : 2 ≤ (given before).length := by
    obtain ⟨l₁, rfl, hpipe⟩ := paid hpiped hsteps hlog
    obtain ⟨ends, hends⟩ := hpipe rfl
    obtain ⟨as, bs, hsplit⟩ := List.append_of_mem hends
    rw [hsplit, given_append, given_cons, List.length_append, List.length_append]
    have : (Event.given (⟨.pipe, some ends⟩ : JEvent)).length = 2 := rfl
    omega
  have hsplit : q.loc.log = (before ++ ⟨.fork, .child self⟩ :: es) ++ es' := by
    rw [hlog, List.append_assoc, List.cons_append]
  have hunmarked : ∀ e ∈ es', e.call.marks = false := by
    intro e he
    obtain ⟨as, bs, rfl⟩ := List.append_of_mem he
    rw [← List.append_assoc] at hsplit
    obtain ⟨l₁, hl₁, hpre⟩ := paid hmark hsteps hsplit
    cases hm : e.call.marks with
    | false => rfl
    | true =>
        have hline := hpre hm
        rw [hl₁, List.append_assoc, lineage_append, List.cons_append, lineage_child] at hline
        cases (List.append_eq_nil_iff.mp hline).2
  obtain ⟨hhigh, hnew, hpass⟩ := given_passes hsteps hsplit hunmarked hfd
  rw [given_append, given_cons, List.length_append, List.length_append] at hhigh
  intro hinherits
  rcases hinherits fd hpass with hlow | hold
  · omega
  · obtain ⟨d, hd, -⟩ := (FdTable.afterExec_get_isSome _ _).mp hold
    rw [hnew] at hd
    cases hd

/-- A process of the general judger that is confined was given its output file
after its input file. -/
theorem generalConfined_inherits
    (hmark : Code.wp (FirstOnly Sys.marks) anyExit x (fun _ _ _ => True) (.start t) m)
    (hpiped : Code.wp PipedPre anyExit x (fun _ _ _ => True) (.start t) m)
    (hr : Reaches killers ok (World.init t (x m) pgid) w) (hj : w.procs j = some q)
    (hc : GeneralConfined m q.loc) : ¬ InheritsOnly t q.loc := by
  obtain ⟨before, ctxt, pid, es, rest, -, ⟨files, limits, hfiles, -, rfl⟩, hlog⟩ := hc
  obtain ⟨inputFd, outputFd, errorFd, rfl⟩ := hfiles
  have hsplit : q.loc.log = before ++ ⟨.fork, .child q.loc.pid⟩ ::
      ([⟨.getpid, pid⟩, ⟨.setpgid, true⟩,
          ⟨.open_ (ctxt.ectxt.arg 0) .readOnly, some inputFd⟩] ++
        ([⟨.open_ (ctxt.ectxt.arg 1) .writeTruncCreate, some outputFd⟩,
          ⟨.open_ (ctxt.ectxt.arg 2) .writeTruncCreate, some errorFd⟩,
          ⟨.dup2 inputFd 0, true⟩, ⟨.dup2 outputFd 1, true⟩, ⟨.dup2 errorFd 2, true⟩] ++
            limits ++ rest)) := by
    rw [hlog]
    simp only [List.append_assoc, List.cons_append, List.nil_append]
  exact inherits_given hmark hpiped hr hj outputFd hsplit (Nat.le_refl 1) List.mem_cons_self

/-- The two processes of the interactive judger were given three pipes. -/
theorem joined_inherits
    (hmark : Code.wp (FirstOnly Sys.marks) anyExit x (fun _ _ _ => True) (.start t) m)
    (hpiped : Code.wp PipedPre anyExit x (fun _ _ _ => True) (.start t) m)
    (hr : Reaches killers ok (World.init t (x m) pgid) w) (hj : w.procs j = some q)
    {before rest : List JEvent} {i pid : Nat} {r : Bool} {itoe etoi iRun : Nat × Nat}
    (hlog : q.loc.log = joinEvents before i pid r itoe etoi iRun ++ rest) :
    ¬ InheritsOnly t q.loc := by
  have hsplit : q.loc.log = before ++ ⟨.fork, .child i⟩ ::
      ([⟨.getpid, pid⟩, ⟨.setpgid, r⟩, ⟨.pipe, some itoe⟩] ++
        ([⟨.pipe, some etoi⟩, ⟨.pipe, some iRun⟩] ++ rest)) := by
    rw [hlog, joinEvents]
    simp only [List.append_assoc, List.cons_append, List.nil_append]
  exact inherits_given hmark hpiped hr hj etoi.1 hsplit (Nat.le_add_left 1 1) List.mem_cons_self

end

/-- **Every judged program inherits more than it should**: no process of either
judger is ever at an `execve` that only passes on the standard descriptors and
those of the caller. -/
theorem inherits_more {m : Mem} {k : Nat}
    (hm : m.ctxt.hctxt = registerBuiltinHook^[k] hookCtxtCreate) (t : FdTable) (pgid : Nat)
    {x : Code Int} (hx : x = yjudgerGeneral ∨ x = yjudgerInteractive) {w : JWorld}
    (hr : Reaches killers Always (World.init t (x m) pgid) w) {j : Nat} {l : JLocal}
    {c : Call} (hat : AtCall w j l c) (hc : isExecve c = true) : ¬ InheritsOnly t l := by
  have hb : BuiltinHooks m.ctxt.hctxt := hm ▸ builtinHooks_iterate k
  obtain ⟨q, k, hj, rfl, hcode⟩ := hat
  have hmark := judger_marks t hb hx
  rcases hx with rfl | rfl
  · have hconf := (owed_run (yjudgerGeneral_owed t hb) hr hj hcode).exec hc
    exact generalConfined_inherits hmark launch_piped hr hj hconf
  · rcases (owed_run (yjudgerInteractive_owed t hb) hr hj hcode).exec hc with
      ⟨-, i, hconf⟩ | ⟨-, hconf, -⟩
    · obtain ⟨before, pid, r, itoe, etoi, iRun, ctxt, es, rest, -, -, hlog⟩ := hconf
      rw [List.append_assoc, List.append_assoc] at hlog
      exact joined_inherits hmark launch_piped hr hj hlog
    · obtain ⟨before, pid, r, itoe, etoi, iRun, forked, ctxt, es, rest, -, -, -, hlog⟩ := hconf
      rw [List.append_assoc, List.append_assoc] at hlog
      exact joined_inherits hmark launch_piped hr hj hlog

/-- A run of the interactive judger to the `execve` of the executable. -/
theorem inherits_more_interactive : ∃ w l c,
    Reaches killers Always
        (World.init (.inheritedBelow 4) (yjudgerInteractive sampleMem) 1) w ∧
      AtCall w 3 l c ∧ isExecve c = true ∧ ¬ InheritsOnly (.inheritedBelow 4) l := by
  have hrun : ((World.init (.inheritedBelow 4) (yjudgerInteractive sampleMem) 1).run killers
      (launchActs ++ okActs 2 6 ++ okActs 3 7)).any (atExecve 3) = true := by decide +kernel
  obtain ⟨w, hr, hw⟩ := reaches_of_any hrun
  obtain ⟨l, c, hat, hc⟩ := atCall_of_atExecve hw
  exact ⟨w, l, c, hr, hat, hc, inherits_more (k := 0) rfl _ _ (Or.inr rfl) hr hat hc⟩

/-- Does descriptor `fd` of process `j` stay open across an `exec`, for `o`? -/
def passesOn (j fd : Nat) (o : Obj) (w : JWorld) : Bool :=
  (w.procs j).any fun q => (q.loc.fds.afterExec.get fd).any fun d => d.obj == o

/-- A judgement in which nothing fails: the program finds the write end of `p_run`
open, and could say READY itself. -/
theorem inherits_run_pipe : ∃ w l c,
    Reaches killers Always (World.init (.inheritedBelow 4) (yjudgerGeneral sampleMem) 1) w ∧
      AtCall w 2 l c ∧ isExecve c = true ∧
      (∃ d, l.fds.afterExec.get 5 = some d ∧ d.obj = .pipeOut pRunId) ∧
      ¬ InheritsOnly (.inheritedBelow 4) l := by
  have hrun : ((World.init (.inheritedBelow 4) (yjudgerGeneral sampleMem) 1).run killers
      (launchActs ++ okActs 2 11)).any
        (fun w => atExecve 2 w && passesOn 2 5 (.pipeOut pRunId) w) = true := by decide +kernel
  obtain ⟨w, hr, hw⟩ := reaches_of_any hrun
  rw [Bool.and_eq_true] at hw
  obtain ⟨l, c, hat, hc⟩ := atCall_of_atExecve hw.1
  obtain ⟨q, k, hq, rfl, -⟩ := id hat
  obtain ⟨q', hq', hpass⟩ := (Option.any_eq_true _ _).mp hw.2
  obtain rfl := Option.some.inj (hq.symm.trans hq')
  obtain ⟨d, hd, ho⟩ := (Option.any_eq_true _ _).mp hpass
  refine ⟨w, _, c, hr, hat, hc, ⟨d, hd, eq_of_beq ho⟩, fun h => ?_⟩
  rcases h 5 (Option.isSome_iff_exists.mpr ⟨d, hd⟩) with hlow | hold
  · omega
  · exact absurd hold (by decide)

end YaojJudger
