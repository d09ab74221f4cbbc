/-
# `YaojJudger.Scan` — cutting a text at the words of a language

A language is a set `P` of words.  A text is cut at the leftmost word in it,
among those that begin there at the longest, and then the rest of it is cut the
same way:

    s = L₀ P₁ L₁ P₂ … Pₘ Lₘ

`Cut` says that the pieces `(L₀, P₁), (L₁, P₂), …` and the tail `Lₘ` come about
like that.  There is at most one such cut (`Cut.unique`), and no word is left in
what lies between the words (`Cut.free`).

The last section is about texts put together from others: a letter that no word
has, begins with, or ends with, is a place no word can straddle.
-/
import Mathlib.Data.List.Infix

namespace Scan

variable {α : Type*} {P : List α → Prop}

/-- No word of `P` is in `s`. -/
def Free (P : List α → Prop) (s : List α) : Prop := ∀ m, P m → ¬ m <:+: s

/-- `m` is the longest of the leftmost words of `P` in `s`; `lit` is before it and
`rest` behind. -/
structure Leftmost (P : List α → Prop) (s lit m rest : List α) : Prop where
  eq : s = lit ++ m ++ rest
  word : P m
  leftmost : ∀ {lit' m' rest'}, s = lit' ++ m' ++ rest' → P m' → lit.length ≤ lit'.length
  longest : ∀ {m' rest'}, s = lit ++ m' ++ rest' → P m' → m'.length ≤ m.length

/-- The cut of `s`: words with what is before each, and the tail. -/
inductive Cut (P : List α → Prop) : List α → List (List α × List α) → List α → Prop
  | done {s : List α} : Free P s → Cut P s [] s
  | next {s lit m rest tail : List α} {pieces : List (List α × List α)} :
      Leftmost P s lit m rest → Cut P rest pieces tail → Cut P s ((lit, m) :: pieces) tail

/-! ## The cut is unique -/

section
variable {s lit m rest lit' m' rest' tail tail' : List α} {pieces pieces' : List (List α × List α)}

theorem Leftmost.infix (h : Leftmost P s lit m rest) : m <:+: s := ⟨lit, rest, h.eq.symm⟩

theorem Leftmost.unique (h : Leftmost P s lit m rest) (h' : Leftmost P s lit' m' rest') :
    lit' = lit ∧ m' = m ∧ rest' = rest := by
  have hlen : lit'.length = lit.length :=
    Nat.le_antisymm (h'.leftmost h.eq h.word) (h.leftmost h'.eq h'.word)
  have heq : lit' ++ (m' ++ rest') = lit ++ (m ++ rest) := by
    rw [← List.append_assoc, ← List.append_assoc, ← h.eq, ← h'.eq]
  obtain ⟨rfl, htail⟩ := List.append_inj heq hlen
  have hword : m'.length = m.length :=
    Nat.le_antisymm (h.longest h'.eq h'.word) (h'.longest h.eq h.word)
  obtain ⟨rfl, rfl⟩ := List.append_inj htail hword
  exact ⟨rfl, rfl, rfl⟩

/-- **A text has at most one cut.** -/
theorem Cut.unique (h : Cut P s pieces tail) (h' : Cut P s pieces' tail') :
    pieces' = pieces ∧ tail' = tail := by
  induction h generalizing pieces' tail' with
  | done hfree =>
      cases h' with
      | done _ => exact ⟨rfl, rfl⟩
      | next hl _ => exact absurd hl.infix (hfree _ hl.word)
  | next hl _ ih =>
      cases h' with
      | done hfree => exact absurd hl.infix (hfree _ hl.word)
      | next hl' hc' =>
          obtain ⟨rfl, rfl, rfl⟩ := hl.unique hl'
          obtain ⟨rfl, rfl⟩ := ih hc'
          exact ⟨rfl, rfl⟩

/-- The pieces, in order, are the text. -/
theorem Cut.join (h : Cut P s pieces tail) :
    s = (pieces.flatMap fun p => p.1 ++ p.2) ++ tail := by
  induction h with
  | done _ => rfl
  | next hl _ ih =>
      rw [hl.eq, ih]
      simp

/-- No word is in what is before the leftmost one. -/
theorem Leftmost.free (hne : ∀ m, P m → m ≠ []) (h : Leftmost P s lit m rest) : Free P lit := by
  intro w hw
  rintro ⟨a, b, hab⟩
  have heq : s = a ++ w ++ (b ++ m ++ rest) := by
    rw [h.eq, ← hab]
    simp
  have hle := h.leftmost heq hw
  have hlen : lit.length = a.length + w.length + b.length := by
    rw [← hab, List.length_append, List.length_append]
  have hpos := List.length_pos_of_ne_nil (hne w hw)
  omega

/-- **No word is left between the words**, nor in the tail. -/
theorem Cut.free (hne : ∀ m, P m → m ≠ []) (h : Cut P s pieces tail) :
    (∀ p ∈ pieces, Free P p.1) ∧ Free P tail := by
  induction h with
  | done hfree => exact ⟨fun p hp => absurd hp List.not_mem_nil, hfree⟩
  | next hl _ ih =>
      refine ⟨?_, ih.2⟩
      intro p hp
      rcases List.mem_cons.mp hp with rfl | hp
      · exact hl.free hne
      · exact ih.1 p hp

end

/-! ## Places no word can straddle -/

section
variable {x : α} {s u v : List α}

/-- A letter no word begins with can be put in front. -/
theorem Free.cons (hx : ∀ m, P m → m.head? ≠ some x) (hne : ∀ m, P m → m ≠ [])
    (h : Free P s) : Free P (x :: s) := by
  intro m hm hin
  rcases List.infix_cons_iff.mp hin with hpre | hin
  · obtain ⟨t, ht⟩ := hpre
    cases m with
    | nil => exact hne [] hm rfl
    | cons y m =>
        obtain ⟨rfl, -⟩ := List.cons.inj ht
        exact hx _ hm rfl
  · exact h m hm hin

theorem Free.append_left (hx : ∀ m, P m → ∀ x ∈ u, m.head? ≠ some x) (hne : ∀ m, P m → m ≠ [])
    (h : Free P s) : Free P (u ++ s) := by
  induction u with
  | nil => exact h
  | cons y u ih =>
      refine Free.cons (fun m hm => hx m hm y List.mem_cons_self) hne (ih ?_)
      intro m hm x hmem
      exact hx m hm x (List.mem_cons_of_mem y hmem)

/-- A letter no word ends with can be put behind. -/
theorem Free.concat (hx : ∀ m, P m → m.getLast? ≠ some x) (hne : ∀ m, P m → m ≠ [])
    (h : Free P s) : Free P (s ++ [x]) := by
  intro m hm
  rintro ⟨a, b, hab⟩
  rcases List.eq_nil_or_concat b with rfl | ⟨b, y, rfl⟩
  · obtain ⟨m', y, rfl⟩ := (List.eq_nil_or_concat m).resolve_left (hne m hm)
    rw [List.append_nil, List.concat_eq_append, ← List.append_assoc] at hab
    obtain ⟨-, heq⟩ := List.append_inj' hab rfl
    obtain rfl : y = x := (List.cons.inj heq).1
    exact hx _ hm (by simp)
  · rw [List.concat_eq_append, ← List.append_assoc] at hab
    obtain ⟨heq, -⟩ := List.append_inj' hab rfl
    exact h m hm ⟨a, b, heq⟩

/-- A letter no word has keeps two texts apart. -/
theorem Free.append_cons (hx : ∀ m, P m → x ∉ m) (hu : Free P u) (hv : Free P v) :
    Free P (u ++ x :: v) := by
  intro m hm
  rintro ⟨a, b, hab⟩
  have hnot := hx m hm
  rw [List.append_assoc] at hab
  rcases List.append_eq_append_iff.mp hab with ⟨c, rfl, hc⟩ | ⟨c, rfl, hc⟩
  · -- the word begins in `u`, so it ends there too
    rcases List.append_eq_append_iff.mp hc with ⟨d, rfl, -⟩ | ⟨d, rfl, hd⟩
    · exact hu m hm ⟨a, d, by simp⟩
    · cases d with
      | nil => exact hu _ hm ⟨a, [], by simp⟩
      | cons y d =>
          obtain ⟨rfl, -⟩ := List.cons.inj hd
          exact absurd (List.mem_append_right _ List.mem_cons_self) hnot
  · cases c with
    | nil =>
        cases m with
        | nil => exact hu [] hm (List.nil_infix)
        | cons y m =>
            obtain ⟨rfl, -⟩ := List.cons.inj hc
            exact absurd List.mem_cons_self hnot
    | cons y c =>
        obtain ⟨-, rfl⟩ := List.cons.inj hc
        exact hv m hm ⟨c, b, by simp⟩

end

end Scan
