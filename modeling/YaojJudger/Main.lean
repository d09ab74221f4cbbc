/-
# `YaojJudger.Main` — the two ways the command line judges

The end of `cli/main.c`.  Without `--fork` the judger is called in the process
itself, and its result taken if `yerrno` is 0; with `--fork` a worker calls it,
and the parent goes by the exit status and the shared page.  After either,
`yerrno` is looked at once more.

    the call returned    without --fork                with --fork
    0                    the result                    the copy of the result
    an error             yerrno set, so SE             exit status nonzero, so SE

That both columns say the same rests on two things: a judger returns 0 exactly
if it leaves `yerrno` at 0, and no error number is a multiple of 256.
-/
import YaojJudger.FirstCall
import YaojJudger.ForkExec

namespace YaojJudger

open Posix

/-! ## `cli/main.c` -/

/-- The branch without `--fork` after the call of the judger; `result` is the
global, whose code `main` has set to `OK`. -/
def directResult : Code Image := do
  let m ← Code.get
  if m.yerrno = 0 then return m.ctxt.result.image
  else return blankResult.image

/-- The branch with `--fork`: what `yjudger_forkexec` returns. -/
def forkResult (garbage page : Image) (status : Option Nat) : Code Image :=
  return forkexecResult garbage page status

/-- `if (yerrno) { … ystrerr(yerrno) …; result.code = SE; }` -/
def mainReport (judged : Code Image) : Code Image := do
  let result ← judged
  let m ← Code.get
  if m.yerrno ≠ 0 then
    ystrerr m.yerrno
    return result.setField .code ResultCode.se.toNat.toUInt32
  else return result

/-! ## Agreement -/

section
variable {l l' : JLocal} {m m' : Mem} {img : Image}

/-- What is reported is the result, or `SE` if `yerrno` is set. -/
theorem runs_mainReport {judged : Code Image} (h : Code.Runs (mainReport judged) l m img l' m') :
    ∃ result l₁ m₁, Code.Runs judged l m result l₁ m₁ ∧
      img = if m₁.yerrno ≠ 0 then result.setField .code 5 else result := by
  obtain ⟨result, l₁, m₁, hj, h⟩ := (Code.runs_bind _ _ _).mp h
  rw [Code.runs_get_bind] at h
  refine ⟨result, l₁, m₁, hj, ?_⟩
  rcases (Code.runs_ite _ _ _ _).mp h with ⟨hy, h⟩ | ⟨hy, h⟩
  · obtain ⟨_, _, _, -, h⟩ := (Code.runs_bind _ _ _).mp h
    obtain ⟨rfl, rfl, rfl⟩ := (Code.runs_pure _ _).mp h
    rw [if_pos hy]
    rfl
  · obtain ⟨rfl, rfl, rfl⟩ := (Code.runs_pure _ _).mp h
    rw [if_neg hy]

/-- The direct branch. -/
theorem runs_direct (h : Code.Runs (mainReport directResult) l m img l' m') :
    (m.yerrno = 0 → img = m.ctxt.result.image) ∧
      (m.yerrno ≠ 0 → img.field .code = ResultCode.se.toNat) := by
  obtain ⟨result, l₁, m₁, hd, rfl⟩ := runs_mainReport h
  replace hd := (Code.runs_get_bind _ _).mp hd
  rcases (Code.runs_ite _ _ _ _).mp hd with ⟨hy, hd⟩ | ⟨hy, hd⟩
  · obtain ⟨rfl, rfl, rfl⟩ := (Code.runs_pure _ _).mp hd
    exact ⟨fun _ => if_neg (not_not.mpr hy), fun hn => absurd hy hn⟩
  · obtain ⟨rfl, rfl, rfl⟩ := (Code.runs_pure _ _).mp hd
    refine ⟨fun h0 => absurd h0 hy, fun _ => ?_⟩
    rw [if_pos hy, setField_field]
    rfl

/-- The branch with `--fork`, in a process whose `yerrno` is 0. -/
theorem runs_forked {garbage page : Image} {status : Option Nat} (hy : m.yerrno = 0)
    (h : Code.Runs (mainReport (forkResult garbage page status)) l m img l' m') :
    img = forkexecResult garbage page status := by
  obtain ⟨result, l₁, m₁, hd, rfl⟩ := runs_mainReport h
  obtain ⟨rfl, rfl, rfl⟩ := (Code.runs_pure _ _).mp hd
  rw [if_neg (not_not.mpr hy)]

end

/-- A worker whose `fn` has returned `flag` exits with it, having copied the
result if it is 0. -/
theorem worker_exit {order : List (Fin 24)} (hall : ∀ i, i ∈ order) {flag : Int32}
    {result : YjudgerResult} {s : Shared} {n : Int}
    (h : Prog.Steps WorkStep (Shared.start.after .fn (.returned flag result))
      (afterFn order (.returned flag result)) s (.exit n)) :
    n = flag.toInt ∧ (flag = 0 → s.page = result.image) := by
  have hw : Prog.wp WorkStep (fun _ _ => True)
      (fun s n => n = flag.toInt ∧ (flag = 0 → s.page = result.image))
      (afterFn order (.returned flag result)) (fun _ _ => True)
      (Shared.start.after .fn (.returned flag result)) := by
    by_cases hflag : flag = 0
    · subst hflag
      show Prog.wp _ _ _ (storeAll result.image order >>= fun _ => Prog.exit 0) _ _
      rw [Prog.wp_bind]
      refine Prog.wp_mono (fun _ _ _ => trivial) (fun _ _ h => h) (fun _ _ h => h) _ _
        (storeAll_wp order _ rfl (fun _ => rfl) fun s' _ hp hmem => ?_)
      refine ⟨rfl, fun _ => funext fun i => ?_⟩
      rw [hp i, if_pos (hmem i (Or.inr (hall i)))]
    · show Prog.wp _ _ _ (if flag ≠ 0 then Prog.exit flag.toInt else _) _ _
      rw [if_pos hflag]
      exact ⟨rfl, fun h => absurd h hflag⟩
  exact h.wp hw

/-- **`--fork` does not change the verdict**, whatever the call of the judger
comes back with. -/
theorem fork_agrees (j : Judger) {l l' l₁ l₂ l₃ : JLocal} {m m' m₂ m₃ : Mem} {r : Int}
    (hy : m.yerrno = 0) (hrun : Code.Runs j.code l m r l' m')
    {order : List (Fin 24)} (hall : ∀ i, i ∈ order) {garbage : Image} {s : Shared} {n : Int}
    (hwork : Prog.Steps WorkStep
      (Shared.start.after .fn (.returned (Int32.ofInt r) m'.ctxt.result))
      (afterFn order (.returned (Int32.ofInt r) m'.ctxt.result)) s (.exit n))
    {direct forked : Image} (hdirect : Code.Runs (mainReport directResult) l' m' direct l₂ m₂)
    (hforked : Code.Runs (mainReport (forkResult garbage s.page (some (exitStatus n)))) l₁ m
      forked l₃ m₃) :
    (m'.yerrno = 0 ↔ r = 0) ∧ direct.field .code = forked.field .code ∧
      (r = 0 → ∀ f, direct.field f = forked.field f) := by
  obtain ⟨hs, es, hj, -⟩ := runs_judging hrun
  obtain ⟨hd₀, hd₁⟩ := runs_direct hdirect
  obtain rfl := runs_forked hy hforked
  obtain ⟨hn, hpage⟩ := worker_exit hall hwork
  rcases hj.yerrno with ⟨rfl, hy'⟩ | ⟨hr, hy'⟩
  · obtain rfl : n = 0 := hn
    have hsame : direct = forkexecResult garbage s.page (some (exitStatus 0)) := by
      rw [hd₀ (hy'.trans hy), ← hpage rfl]
      rfl
    exact ⟨⟨fun _ => rfl, fun _ => hy'.trans hy⟩, by rw [hsame], fun _ f => by rw [hsame]⟩
  · obtain ⟨hpos, hlt⟩ := judgerErrors_bounds hr
    have hn' : n = r := by
      rw [hn, Int32.toInt_ofInt_of_le (by omega) (by omega)]
    have hne : r ≠ 0 := by omega
    refine ⟨⟨fun h0 => absurd (hy' ▸ h0) hne, fun h0 => absurd h0 hne⟩, ?_,
      fun h0 => absurd h0 hne⟩
    rw [hd₁ (hy' ▸ hne), forkexecResult_se]
    intro st hst
    obtain rfl := Option.some.inj hst
    rw [wexitstatus_exitStatus, hn']
    omega

/-- The copy can be made, whatever is done next. -/
theorem storeAll_steps (img : Image) (next : Prog WorkCall WorkRet Empty) :
    ∀ (order : List (Fin 24)) (s : Shared),
      ∃ s', Prog.Steps WorkStep s (storeAll img order >>= fun _ => next) s' next
  | [], s => ⟨s, .refl _ _⟩
  | i :: order, s => by
      obtain ⟨s', hs⟩ := storeAll_steps img next order (s.after (.store i (img i)) ())
      exact ⟨s', ((Prog.Steps.refl s _).tail (c := WorkCall.store i (img i)) (r := ()) rfl).trans hs⟩

/-- A first call in which the child exits with 1 and has taken 300 ms. -/
def sampleCourse : Course where
  numStr := Vector.replicate 10 0
  escContent := []
  prog := []
  child := 2
  start := ⟨0, 0⟩
  attempt := .created 0
  status := exitStatus 1
  finish := ⟨0, 300000⟩
  usage := noRusage
  cancelled := false
  joined := false

/-- The verdict on that child is the same with `--fork` and without, copied byte by byte. -/
theorem fork_agrees_judged : ∃ (l' : JLocal) (forked : Image),
    Code.Runs yjudgerGeneral (.start (.inheritedBelow 4)) sampleMem 0 l'
      (sampleCourse.judged (.start (.inheritedBelow 4)) sampleMem) ∧
    (sampleCourse.judged (.start (.inheritedBelow 4)) sampleMem).ctxt.result.realTime = 300 ∧
    (sampleCourse.judged (.start (.inheritedBelow 4)) sampleMem).ctxt.result.image.field .code =
      forked.field .code ∧
    ∀ f, (sampleCourse.judged (.start (.inheritedBelow 4)) sampleMem).ctxt.result.image.field f =
      forked.field f := by
  have hposs : sampleCourse.Possible .general (.start (.inheritedBelow 4)) sampleMem :=
    ⟨fun h => (by cases h), rfl, ⟨[], [], rfl, handler_empty _ _⟩, by decide⟩
  obtain ⟨l', hrun, -⟩ := hposs.judging.runs
  obtain ⟨s, hwork⟩ := storeAll_steps
    (sampleCourse.judged (.start (.inheritedBelow 4)) sampleMem).ctxt.result.image (.exit 0)
    (List.finRange 24) (Shared.start.after .fn (.returned (Int32.ofInt 0)
      (sampleCourse.judged (.start (.inheritedBelow 4)) sampleMem).ctxt.result))
  have hdirect : Code.Runs (mainReport directResult) l'
      (sampleCourse.judged (.start (.inheritedBelow 4)) sampleMem)
      (sampleCourse.judged (.start (.inheritedBelow 4)) sampleMem).ctxt.result.image l'
      (sampleCourse.judged (.start (.inheritedBelow 4)) sampleMem) :=
    .bind (.pure _ _ _) (.pure _ _ _)
  have hforked : Code.Runs (mainReport (forkResult (fun _ => 0) s.page (some (exitStatus 0))))
      (.start (.inheritedBelow 4)) sampleMem
      (forkexecResult (fun _ => 0) s.page (some (exitStatus 0))) (.start (.inheritedBelow 4))
      sampleMem :=
    .bind (.pure _ _ _) (.pure _ _ _)
  have hagree := fork_agrees .general rfl hrun List.mem_finRange hwork hdirect hforked
  exact ⟨l', _, hrun, by decide +kernel, hagree.2.1, hagree.2.2 rfl⟩

end YaojJudger
