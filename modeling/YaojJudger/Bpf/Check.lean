/-
# `YaojJudger.Bpf.Check` — what a loader asks of a program

A program is accepted if no jump leaves it and nothing runs off its end, which
`Closed` says of a buffer: each instruction stays within what is behind it.
Closed programs return (`Closed.run_isSome`).

`length_lt_of_rets` is about a cache of exits: returns that are near have
distinct offsets, and at one offset there is no return.
-/
import YaojJudger.Bpf.Machine
import Mathlib.Data.List.Perm.Subperm
import Mathlib.Data.List.Nodup

namespace Bpf

variable {d : Nat → UInt32} {p q : List Instr} {s : St} {i : Instr} {n : Nat}

/-! ## Within the program -/

/-- With `n` instructions behind it, it does not leave the program. -/
def Instr.Stays (n : Nat) : Instr → Prop
  | .ja off => off < n
  | .jmp _ _ jt jf => jt < n ∧ jf < n
  | .ret _ => True
  | _ => 0 < n

def Closed : List Instr → Prop
  | [] => True
  | i :: p => i.Stays p.length ∧ Closed p

/-- **A closed program returns.** -/
theorem Closed.run_isSome (h : Closed p) (hn : n < p.length) : (run d p n s).isSome = true := by
  induction p generalizing n s with
  | nil => exact absurd hn (Nat.not_lt_zero n)
  | cons i p ih =>
      obtain ⟨hi, hp⟩ := h
      cases n with
      | succ n =>
          rw [run_skip]
          exact ih hp (Nat.lt_of_succ_lt_succ hn)
      | zero =>
          cases i with
          | ret => rw [run_ret, Option.isSome_some]
          | ja off =>
              rw [run_ja]
              exact ih hp hi
          | jmp op src jt jf =>
              rw [run_jmp]
              refine ih hp ?_
              split
              case isTrue => exact hi.1
              case isFalse => exact hi.2
          | ldAbs | ldImm | ldxMem | st | alu | tax =>
              rw [run_step rfl]
              exact ih hp hi

theorem Instr.stays_of_straight (h : i.isStraight = true) (hn : 0 < n) : i.Stays n := by
  cases i with
  | ja | jmp | ret => cases h
  | ldAbs | ldImm | ldxMem | st | alu | tax => exact hn

theorem ahead_lt (h : n < p.length) : ahead p n < p.length := by
  unfold ahead
  omega

/-! ## Returns in front -/

/-- How many returns the buffer begins with. -/
def leadingRets (p : List Instr) : Nat := (p.takeWhile Instr.isRet).length

theorem leadingRets_cons_le : leadingRets (i :: p) ≤ leadingRets p + 1 := by
  unfold leadingRets
  rw [List.takeWhile_cons]
  split
  case isTrue => exact Nat.le_refl _
  case isFalse => exact Nat.zero_le _

theorem leadingRets_cons_of_not (h : i.isRet = false) : leadingRets (i :: p) = 0 := by
  unfold leadingRets
  rw [List.takeWhile_cons, h]
  rfl

/-- Behind them there is none. -/
theorem not_ret_of_leadingRets {k : UInt32} : p[leadingRets p]? ≠ some (.ret k) := by
  induction p with
  | nil => simp [leadingRets]
  | cons i p ih =>
      cases hi : i.isRet with
      | false =>
          rw [leadingRets_cons_of_not hi, List.getElem?_cons_zero]
          rintro h
          obtain rfl := Option.some.inj h
          cases hi
      | true =>
          have h : leadingRets (i :: p) = leadingRets p + 1 := by
            unfold leadingRets
            rw [List.takeWhile_cons, hi]
            rfl
          rw [h, List.getElem?_cons_succ]
          exact ih

theorem ahead_inj {m : Nat} (hn : n < p.length) (hm : m < p.length) (h : ahead p n = ahead p m) :
    n = m := by
  unfold ahead at h
  omega

/-- Locations of returns, all among the last `m` instructions, are less than `m`
if these do not all return. -/
theorem length_lt_of_rets {m : Nat} {l : List Nat} (hl : l.Nodup)
    (hret : ∀ n ∈ l, ∃ k, instrAt p n = some (.ret k)) (hnear : ∀ n ∈ l, ahead p n < m)
    (hm : leadingRets p < m) : l.length < m := by
  have hlt : ∀ n ∈ l, n < p.length := by
    intro n hn
    obtain ⟨k, hk⟩ := hret n hn
    exact lt_of_instrAt hk
  have hnodup : (l.map (ahead p)).Nodup :=
    hl.map_on fun n hn m hm h => ahead_inj (hlt n hn) (hlt m hm) h
  have hsub : l.map (ahead p) ⊆ (List.range m).erase (leadingRets p) := by
    intro x hx
    obtain ⟨n, hn, rfl⟩ := List.mem_map.mp hx
    obtain ⟨k, hk⟩ := hret n hn
    rw [instrAt_eq_getElem? (hlt n hn)] at hk
    refine (List.mem_erase_of_ne ?_).mpr (List.mem_range.mpr (hnear n hn))
    intro h
    rw [h] at hk
    exact not_ret_of_leadingRets hk
  have hle := (List.subperm_of_subset hnodup hsub).length_le
  rw [List.length_map, List.length_erase_of_mem (List.mem_range.mpr hm), List.length_range] at hle
  omega

end Bpf
