/-
# `YaojJudger.FirstMatch.Sort` — sorting rules by key does not change what is found first

A rule has a key and a place in line.  Sorted by the key, and among those of one
key by the place, the rules of that key stand in the order they had; so whatever
looks at rules of one key only finds the same one first.
-/
import Mathlib.Data.List.Sort

namespace FirstMatch

variable {α ρ : Type}

/-- What is not looked at may be left out. -/
theorem findSome?_filter {p : α → Bool} {f : α → Option ρ} {l : List α}
    (hf : ∀ a ∈ l, p a = false → f a = none) : (l.filter p).findSome? f = l.findSome? f := by
  induction l with
  | nil => rfl
  | cons a l ih =>
      obtain ⟨ha, hl⟩ := List.forall_mem_cons.mp hf
      cases hp : p a with
      | true => rw [List.filter_cons_of_pos hp, List.findSome?_cons, List.findSome?_cons, ih hl]
      | false =>
          rw [List.filter_cons_of_neg (by rw [hp]; exact Bool.false_ne_true), ih hl,
            List.findSome?_cons, ha hp]

/-- Two rules do not have one place. -/
theorem place_ne {place : α → Int} {l : List α} (hl : l.Pairwise fun a b => place a < place b)
    {a b : α} (ha : a ∈ l) (hb : b ∈ l) (hne : a ≠ b) : place a ≠ place b := by
  induction l with
  | nil => cases ha
  | cons x l ih =>
      obtain ⟨hx, hl⟩ := List.pairwise_cons.mp hl
      rcases List.mem_cons.mp ha with rfl | ha'
      · rcases List.mem_cons.mp hb with rfl | hb'
        · exact absurd rfl hne
        · exact (hx b hb').ne
      · rcases List.mem_cons.mp hb with rfl | hb'
        · exact (hx a ha').ne'
        · exact ih hl ha' hb'

/-- A rearrangement that keeps the order of the rules looked at. -/
theorem findSome?_perm {p : α → Bool} {f : α → Option ρ} {place : α → Int} {l l' : List α}
    (hf : ∀ a ∈ l, p a = false → f a = none) (hperm : l'.Perm l)
    (hl : l.Pairwise fun a b => place a < place b)
    (hl' : (l'.filter p).Pairwise fun a b => place a ≤ place b) :
    l'.findSome? f = l.findSome? f := by
  have heq : l'.filter p = l.filter p := by
    have hle : (l.filter p).Pairwise fun a b => place a ≤ place b :=
      (hl.filter p).imp fun h => h.le
    refine List.Perm.eq_of_pairwise ?_ hl' hle (hperm.filter p)
    · intro a b ha hb hab hba
      by_contra hne
      exact place_ne hl (hperm.mem_iff.mp (List.mem_of_mem_filter ha)) (List.mem_of_mem_filter hb)
        hne (Int.le_antisymm hab hba)
  rw [← findSome?_filter fun a ha => hf a (hperm.mem_iff.mp ha), heq, findSome?_filter hf]

end FirstMatch
