/-
# `YaojJudger.Posix.Desc` — descriptor tables

A process sees files and pipes through a table from small numbers to open
objects.  Three facts of POSIX carry everything later: a new descriptor is the
*lowest* one not in use, `dup2` overwrites the entry it is aimed at whatever
was there, and `exec` closes the entries marked close-on-exec.

A table is finite; the bound is a field, so a table with no free number
cannot be built and `lowest` needs no side condition.

The one idea with a name of its own is `Full n`: every number below `n` is in
use.  It is what makes a sequence of allocations climb: the first free number
of a table that is full below `n` is at least `n`, and the table is then full
below `n + 1`.
-/
import Mathlib.Tactic.Common

namespace Posix

/-- A pipe is named by the process that made it and by how many it had made
before. -/
abbrev PipeId := Nat × Nat

/-- How a file is opened. -/
inductive OpenMode where
  | readOnly
  | writeTruncCreate
  deriving DecidableEq, Repr

/-- What a descriptor refers to. -/
inductive Obj where
  | file (path : List UInt8) (mode : OpenMode)
  | pipeIn (id : PipeId)
  | pipeOut (id : PipeId)
  | inherited (n : Nat)
  deriving DecidableEq, Repr

/-- An open descriptor. -/
structure Desc where
  obj : Obj
  cloexec : Bool
  deriving DecidableEq, Repr

/-- A descriptor table. -/
structure FdTable where
  get : Nat → Option Desc
  bound : Nat
  beyond : ∀ fd, bound ≤ fd → get fd = none

/-- The first number from `n` on that `get` has no entry for, in `fuel` tries. -/
def firstFree (get : Nat → Option Desc) : Nat → Nat → Nat
  | 0, n => n
  | fuel + 1, n => if (get n).isSome then firstFree get fuel (n + 1) else n

namespace FdTable

/-- The lowest descriptor not in use. -/
def lowest (t : FdTable) : Nat := firstFree t.get t.bound 0

/-- The table with `d` at `fd`, whatever was there. -/
def set (t : FdTable) (fd : Nat) (d : Desc) : FdTable where
  get n := if n = fd then some d else t.get n
  bound := max t.bound (fd + 1)
  beyond n hn := by
    have hne : n ≠ fd := by omega
    simp only [hne, if_false]
    exact t.beyond n (by omega)

/-- The table after `exec`. -/
def afterExec (t : FdTable) : FdTable where
  get n := (t.get n).filter (fun d => !d.cloexec)
  bound := t.bound
  beyond n hn := by simp [t.beyond n hn]

/-- Does some entry refer to `o`? -/
def refersTo (t : FdTable) (o : Obj) : Bool :=
  (List.range t.bound).any fun fd => (t.get fd).any fun d => d.obj == o

/-- The table in which `0`, `1`, …, `n - 1` are the inherited descriptors. -/
def inheritedBelow (n : Nat) : FdTable where
  get fd := if fd < n then some ⟨.inherited fd, false⟩ else none
  bound := n
  beyond fd h := by simp [Nat.not_lt.mpr h]

@[simp] theorem set_get_self (t : FdTable) (fd : Nat) (d : Desc) :
    (t.set fd d).get fd = some d := by
  simp [set]

theorem set_get_ne (t : FdTable) {fd n : Nat} (d : Desc) (h : n ≠ fd) :
    (t.set fd d).get n = t.get n := by
  simp [set, h]

/-! ## The lowest free descriptor -/

theorem firstFree_spec {get : Nat → Option Desc} {b : Nat} (hb : ∀ fd, b ≤ fd → get fd = none) :
    ∀ (fuel n : Nat), b ≤ n + fuel →
      get (firstFree get fuel n) = none ∧
        n ≤ firstFree get fuel n ∧ ∀ m, n ≤ m → m < firstFree get fuel n → (get m).isSome
  | 0, n, h => ⟨hb n (by omega), Nat.le_refl n, fun m h₁ h₂ => absurd h₂ (Nat.not_lt.mpr h₁)⟩
  | fuel + 1, n, h => by
      cases hn : (get n).isSome with
      | true =>
          obtain ⟨h₁, h₂, h₃⟩ := firstFree_spec hb fuel (n + 1) (by omega)
          simp only [firstFree, hn, if_true]
          refine ⟨h₁, by omega, fun m hm hlt => ?_⟩
          rcases Nat.eq_or_lt_of_le hm with rfl | hm'
          · exact hn
          · exact h₃ m hm' hlt
      | false =>
          have hnone : get n = none := by simpa using hn
          simp only [firstFree, hn]
          exact ⟨by simpa using hnone, by simp, fun m h₁ h₂ => by simp at h₂; omega⟩

theorem get_lowest (t : FdTable) : t.get t.lowest = none :=
  (firstFree_spec t.beyond t.bound 0 (by omega)).1

theorem isSome_of_lt_lowest (t : FdTable) {m : Nat} (h : m < t.lowest) : (t.get m).isSome :=
  (firstFree_spec t.beyond t.bound 0 (by omega)).2.2 m (Nat.zero_le m) h

/-- A descriptor in use is not the lowest free one. -/
theorem ne_lowest (t : FdTable) {fd : Nat} {d : Desc} (h : t.get fd = some d) : fd ≠ t.lowest := by
  rintro rfl
  rw [t.get_lowest] at h
  cases h

/-! ## Tables full from below -/

/-- Every descriptor below `n` is in use. -/
def Full (t : FdTable) (n : Nat) : Prop := ∀ m, m < n → (t.get m).isSome

theorem Full.le_lowest {t : FdTable} {n : Nat} (h : t.Full n) : n ≤ t.lowest := by
  by_contra hlt
  have := h t.lowest (Nat.not_le.mp hlt)
  rw [t.get_lowest] at this
  cases this

/-- Overwriting or adding an entry frees nothing. -/
theorem Full.set {t : FdTable} {n : Nat} (h : t.Full n) (fd : Nat) (d : Desc) :
    (t.set fd d).Full n := by
  intro m hm
  by_cases hfd : m = fd
  · subst hfd; simp
  · rw [t.set_get_ne d hfd]; exact h m hm

/-- After an allocation the table is full up to and including the new entry. -/
theorem full_set_lowest (t : FdTable) (d : Desc) : (t.set t.lowest d).Full (t.lowest + 1) := by
  intro m hm
  by_cases h : m = t.lowest
  · subst h; simp
  · rw [t.set_get_ne d h]; exact t.isSome_of_lt_lowest (by omega)

theorem Full.mono {t : FdTable} {n m : Nat} (h : t.Full n) (hm : m ≤ n) : t.Full m :=
  fun k hk => h k (by omega)

end FdTable

end Posix
