/-
# `YaojJudger.Bpf.Words` — 64-bit values on a 32-bit machine

A 64-bit value is two words.  Bit operations go word by word; a comparison is
decided by the high words unless they are equal.
-/
import Mathlib

namespace Bpf

/-- The two words of a value. -/
inductive Word where
  | high
  | low
  deriving DecidableEq, Repr

def Word.of (w : Word) (v : UInt64) : UInt32 :=
  match w with
  | .high => (v >>> 32).toUInt32
  | .low => v.toUInt32

variable {a b : UInt64} {w : Word}

theorem toNat_low : (Word.low.of a).toNat = a.toNat % 2 ^ 32 := by
  unfold Word.of
  exact UInt64.toNat_toUInt32 a

theorem toNat_high : (Word.high.of a).toNat = a.toNat / 2 ^ 32 := by
  unfold Word.of
  rw [UInt64.toNat_toUInt32, UInt64.toNat_shiftRight, Nat.shiftRight_eq_div_pow]
  have h := a.toNat_lt
  rw [Nat.mod_eq_of_lt]
  · rfl
  · show a.toNat / 2 ^ 32 < 2 ^ 32
    omega

theorem Word.of_and : w.of (a &&& b) = w.of a &&& w.of b := by
  cases w with
  | high => simp [Word.of, UInt64.shiftRight_and]
  | low => simp [Word.of]

theorem Word.of_or : w.of (a ||| b) = w.of a ||| w.of b := by
  cases w with
  | high => simp [Word.of, UInt64.shiftRight_or]
  | low => simp [Word.of]

theorem eq_iff_words : a = b ↔ Word.high.of a = Word.high.of b ∧ Word.low.of a = Word.low.of b := by
  rw [← UInt64.toNat_inj, ← UInt32.toNat_inj, ← UInt32.toNat_inj, toNat_high, toNat_high, toNat_low,
    toNat_low]
  omega

theorem lt_iff_words : a < b ↔ Word.high.of a < Word.high.of b ∨
    Word.high.of a = Word.high.of b ∧ Word.low.of a < Word.low.of b := by
  rw [UInt64.lt_iff_toNat_lt, UInt32.lt_iff_toNat_lt, UInt32.lt_iff_toNat_lt, ← UInt32.toNat_inj,
    toNat_high, toNat_high, toNat_low, toNat_low]
  omega

theorem le_iff_words : a ≤ b ↔ Word.high.of a < Word.high.of b ∨
    Word.high.of a = Word.high.of b ∧ Word.low.of a ≤ Word.low.of b := by
  rw [UInt64.le_iff_toNat_le, UInt32.lt_iff_toNat_lt, UInt32.le_iff_toNat_le, ← UInt32.toNat_inj,
    toNat_high, toNat_high, toNat_low, toNat_low]
  omega

/-- A value that is its low word. -/
theorem high_eq_zero_iff : Word.high.of a = 0 ↔ a.toNat < 2 ^ 32 := by
  rw [← UInt32.toNat_inj, toNat_high]
  show a.toNat / 2 ^ 32 = 0 ↔ _
  omega

end Bpf
