/-
# `YaojJudger.Bits` — the bits of a mask, one at a time

`x & ~(x - 1)` is the lowest bit of `x`; taken away again and again it leaves
nothing after 32 times at most (`mem_each`), and the bits come in increasing order
(`pairwise_each`).
-/
import Mathlib.Data.Nat.Factorization.Basic
import Mathlib.Data.List.Sort

namespace Bits

/-- The lowest bit set. -/
def lowest (x : UInt32) : UInt32 := x &&& ~~~(x - 1)

/-- The bits set, lowest first, `n` of them at most. -/
def each : Nat → UInt32 → List UInt32
  | 0, _ => []
  | n + 1, x => if x = 0 then [] else lowest x :: each n (x &&& ~~~lowest x)

variable {x b : UInt32} {i j k n : Nat}

abbrev Has (x : UInt32) (k : Nat) : Prop := x.toNat.testBit k = true

theorem testBit_not : (~~~x).toNat.testBit i = (decide (i < 32) && !x.toNat.testBit i) := by
  have hx := x.toNat_lt
  rw [UInt32.toNat_not]
  have hsub : UInt32.size - 1 - x.toNat = 2 ^ 32 - (x.toNat + 1) := by
    show 2 ^ 32 - 1 - x.toNat = _
    omega
  rw [hsub]
  exact Nat.testBit_two_pow_sub_succ hx i

theorem testBit_of_le (h : 32 ≤ i) : x.toNat.testBit i = false :=
  Nat.testBit_lt_two_pow (Nat.lt_of_lt_of_le x.toNat_lt (Nat.pow_le_pow_right (Nat.le_succ 1) h))

/-- One less: the lowest bit goes, and those below it come. -/
theorem testBit_sub_one {m : Nat} (hx : x.toNat = 2 ^ k * (2 * m + 1)) :
    (x - 1).toNat.testBit i =
      if i < k then true else (2 * m).testBit (i - k) := by
  have hpos : 1 ≤ 2 ^ k := Nat.one_le_two_pow
  have hle : (1 : UInt32) ≤ x := by
    rw [UInt32.le_iff_toNat_le, hx]
    show 1 ≤ _
    exact Nat.le_trans hpos (Nat.le_mul_of_pos_right _ (Nat.succ_pos _))
  have hsub : (x - 1).toNat = 2 ^ k * (2 * m) + (2 ^ k - 1) := by
    rw [UInt32.toNat_sub_of_le _ _ hle, hx, Nat.mul_add, Nat.mul_one]
    show _ - 1 = _
    omega
  rw [hsub, Nat.testBit_two_pow_mul_add _ (Nat.sub_lt (Nat.two_pow_pos k) Nat.one_pos)]
  split
  case isTrue hlt => rw [Nat.testBit_two_pow_sub_one, decide_eq_true hlt]
  case isFalse => rfl

/-- **`lowest` is the lowest.** -/
theorem lowest_spec (h : x ≠ 0) : ∃ k, k < 32 ∧ Has x k ∧ (∀ j, j < k → ¬ Has x j) ∧
    (lowest x).toNat = 2 ^ k := by
  have h0 : x.toNat ≠ 0 := fun h0 => h (UInt32.toNat_inj.mp h0)
  obtain ⟨k, n, ⟨m, rfl⟩, hx⟩ := Nat.exists_eq_two_pow_mul_odd h0
  have hbit : ∀ i, x.toNat.testBit i = (decide (i ≥ k) && (2 * m + 1).testBit (i - k)) := by
    intro i
    rw [hx]
    exact Nat.testBit_two_pow_mul
  have hk : Has x k := by
    rw [Has, hbit, Nat.sub_self, decide_eq_true (Nat.le_refl k), Nat.testBit_zero]
    simp
  have hlt : k < 32 := by
    by_contra hle
    rw [Has, testBit_of_le (Nat.not_lt.mp hle)] at hk
    cases hk
  refine ⟨k, hlt, hk, ?_, Nat.eq_of_testBit_eq fun i => ?_⟩
  · intro j hj hjx
    rw [Has, hbit, decide_eq_false (Nat.not_le.mpr hj)] at hjx
    cases hjx
  · rw [lowest, UInt32.toNat_and, Nat.testBit_and, testBit_not, testBit_sub_one hx,
      Nat.testBit_two_pow, hbit]
    rcases Nat.lt_trichotomy i k with hi | rfl | hi
    · rw [decide_eq_false (Nat.not_le.mpr hi), decide_eq_false (Nat.ne_of_gt hi)]
      rfl
    · simp [hlt]
    · obtain ⟨j, rfl⟩ := Nat.exists_eq_add_of_lt hi
      have hj : k + j + 1 - k = j + 1 := by omega
      rw [hj, if_neg (by omega), decide_eq_false (show ¬ k = k + j + 1 by omega)]
      have h₁ : (2 * m + 1).testBit (j + 1) = m.testBit j := by
        rw [Nat.testBit_succ]
        congr 1
        omega
      have h₂ : (2 * m).testBit (j + 1) = m.testBit j := by
        rw [Nat.testBit_succ]
        congr 1
        omega
      rw [h₁, h₂]
      cases m.testBit j with
      | true | false => simp

/-- The others stay. -/
theorem has_clear (hb : b.toNat = 2 ^ k) : Has (x &&& ~~~b) i ↔ Has x i ∧ i ≠ k := by
  unfold Has
  rw [UInt32.toNat_and, Nat.testBit_and, testBit_not, hb, Nat.testBit_two_pow, Bool.and_eq_true,
    Bool.and_eq_true]
  constructor
  · rintro ⟨hx, -, hne⟩
    refine ⟨hx, ?_⟩
    rintro rfl
    simp at hne
  · rintro ⟨hx, hne⟩
    refine ⟨hx, decide_eq_true ?_, ?_⟩
    · by_contra hle
      rw [testBit_of_le (Nat.not_lt.mp hle)] at hx
      cases hx
    · rw [decide_eq_false (Ne.symm hne)]
      rfl

/-- With no bit below `j`, there are `32 - j` at most. -/
theorem mem_each_of (hj : ∀ i, i < j → ¬ Has x i) (hn : 32 ≤ n + j) :
    b ∈ each n x ↔ ∃ k, Has x k ∧ b.toNat = 2 ^ k := by
  induction n generalizing x j with
  | zero =>
      have hx : ∀ k, ¬ Has x k := by
        intro k hk
        by_cases hkj : k < j
        · exact hj k hkj hk
        · rw [Has, testBit_of_le (by omega)] at hk
          cases hk
      rw [each]
      constructor
      · intro hb
        cases hb
      · rintro ⟨k, hk, -⟩
        exact absurd hk (hx k)
  | succ n ih =>
      rw [each]
      by_cases h0 : x = 0
      · rw [if_pos h0, h0]
        constructor
        · intro hb
          cases hb
        · rintro ⟨k, hk, -⟩
          rw [Has, show (0 : UInt32).toNat = 0 from rfl, Nat.zero_testBit] at hk
          cases hk
      · rw [if_neg h0]
        obtain ⟨k, hk, hxk, hlow, hl⟩ := lowest_spec h0
        have hjk : j ≤ k := by
          by_contra hlt
          exact hj k (Nat.not_le.mp hlt) hxk
        have hrest : ∀ i, i < k + 1 → ¬ Has (x &&& ~~~lowest x) i := by
          intro i hi hx
          obtain ⟨hxi, hne⟩ := (has_clear hl).mp hx
          exact hlow i (by omega) hxi
        rw [List.mem_cons, ih hrest (by omega)]
        constructor
        · rintro (rfl | ⟨i, hi, hb⟩)
          · exact ⟨k, hxk, hl⟩
          · exact ⟨i, ((has_clear hl).mp hi).1, hb⟩
        · rintro ⟨i, hi, hb⟩
          by_cases hik : i = k
          · subst hik
            exact .inl (UInt32.toNat_inj.mp (hb.trans hl.symm))
          · exact .inr ⟨i, (has_clear hl).mpr ⟨hi, hik⟩, hb⟩

/-- **All bits are met.** -/
theorem mem_each : b ∈ each 32 x ↔ ∃ k, Has x k ∧ b.toNat = 2 ^ k :=
  mem_each_of (j := 0) (fun i hi => absurd hi (Nat.not_lt_zero i)) (Nat.le_refl 32)

theorem le_of_mem_each (hj : ∀ i, i < j → ¬ Has x i) (hb : b ∈ each n x) :
    ∃ k, j ≤ k ∧ b.toNat = 2 ^ k := by
  induction n generalizing x j with
  | zero => cases hb
  | succ n ih =>
      rw [each] at hb
      split at hb
      case isTrue => cases hb
      case isFalse h0 =>
          obtain ⟨k, hk, hxk, hlow, hl⟩ := lowest_spec h0
          have hjk : j ≤ k := by
            by_contra hlt
            exact hj k (Nat.not_le.mp hlt) hxk
          rcases List.mem_cons.mp hb with rfl | hb
          · exact ⟨k, hjk, hl⟩
          · refine ih ?_ hb
            intro i hi hx
            exact hj i hi ((has_clear hl).mp hx).1

/-- **They increase.** -/
theorem pairwise_each : (each n x).Pairwise (· < ·) := by
  induction n generalizing x with
  | zero => exact List.Pairwise.nil
  | succ n ih =>
      rw [each]
      split
      case isTrue => exact List.Pairwise.nil
      case isFalse h0 =>
          obtain ⟨k, hk, hxk, hlow, hl⟩ := lowest_spec h0
          refine List.pairwise_cons.mpr ⟨?_, ih⟩
          intro b hb
          have hrest : ∀ i, i < k + 1 → ¬ Has (x &&& ~~~lowest x) i := by
            intro i hi hx
            obtain ⟨hxi, hne⟩ := (has_clear hl).mp hx
            exact hlow i (by omega) hxi
          obtain ⟨i, hi, hb⟩ := le_of_mem_each hrest hb
          rw [UInt32.lt_iff_toNat_lt, hl, hb]
          exact Nat.pow_lt_pow_right (Nat.lt_succ_self 1) hi

end Bits
