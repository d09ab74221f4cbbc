/-
# `YaojJudger.Posix.Wait` — wait statuses

The number `waitpid` stores, and the macros that take it apart.  Three shapes
occur, told apart by the low byte:

    exit code n        n mod 256 in the second byte, low byte 0
    killed by sig      sig in the low seven bits, bit 7 for a core dump
    stopped by sig     sig in the second byte, low byte 0x7f

The shapes are disjoint, which is what lets a verdict be read off the status.
-/
import Mathlib.Tactic.Common

namespace Posix

def wifexited (status : Nat) : Bool := status % 128 == 0
def wexitstatus (status : Nat) : Nat := status / 256 % 256
def wifsignaled (status : Nat) : Bool := status % 128 != 0 && status % 128 != 127
def wtermsig (status : Nat) : Nat := status % 128
def wifstopped (status : Nat) : Bool := status % 256 == 127

/-- The status of a process that called `exit(code)`. -/
def exitStatus (code : Int) : Nat := (code % 256).toNat * 256

/-- The status of a process killed by `sig`. -/
def killStatus (sig : Nat) (core : Bool) : Nat := sig + if core then 128 else 0

/-- The status of a process stopped by `sig`. -/
def stopStatus (sig : Nat) : Nat := sig * 256 + 127

/-- The signals: `1` to `64`. -/
def IsSignal (sig : Nat) : Prop := 1 ≤ sig ∧ sig ≤ 64

instance (sig : Nat) : Decidable (IsSignal sig) := inferInstanceAs (Decidable (_ ∧ _))

@[simp] theorem wifexited_exitStatus (code : Int) : wifexited (exitStatus code) = true := by
  simp only [wifexited, exitStatus, beq_iff_eq]; omega

@[simp] theorem wexitstatus_exitStatus (code : Int) :
    wexitstatus (exitStatus code) = (code % 256).toNat := by
  simp only [wexitstatus, exitStatus]; omega

@[simp] theorem wifstopped_exitStatus (code : Int) : wifstopped (exitStatus code) = false := by
  simp only [wifstopped, exitStatus, beq_eq_false_iff_ne]; omega

@[simp] theorem wifstopped_stopStatus (sig : Nat) : wifstopped (stopStatus sig) = true := by
  simp only [wifstopped, stopStatus, beq_iff_eq]; omega

theorem wifsignaled_killStatus {sig : Nat} (h : IsSignal sig) (core : Bool) :
    wifsignaled (killStatus sig core) = true := by
  obtain ⟨h₁, h₂⟩ := h
  cases core <;> simp [wifsignaled, killStatus] <;> omega

theorem wtermsig_killStatus {sig : Nat} (h : IsSignal sig) (core : Bool) :
    wtermsig (killStatus sig core) = sig := by
  obtain ⟨h₁, h₂⟩ := h
  cases core <;> simp [wtermsig, killStatus] <;> omega

/-- A process that was killed did not exit. -/
theorem not_wifexited_of_wifsignaled {status : Nat} (h : wifsignaled status = true) :
    wifexited status = false := by
  simp only [wifsignaled, Bool.and_eq_true, bne_iff_ne] at h
  simpa [wifexited] using h.1

end Posix
