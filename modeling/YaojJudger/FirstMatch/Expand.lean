/-
# `YaojJudger.FirstMatch.Expand` — rule lists that include others

A list of entries is gone through until an item decides.  An entry can also use
another list, which stands for all its entries (`Decides`).  The lists are given
by number in a book.

`walk` goes through them with a stack of what is left of each list, and enters
each list once.  What it skips makes no difference: the list was entered before,
and by the time it is met again all its entries have been gone through without
being decided by.  That holds because lists use only lists of a lesser rank, so
the list in question is not on the stack.

| | |
| :-- | :-- |
| `walk_eq` | the walk visits its items in order |
| `decides_rename_iff` | what lists are called by makes no difference |
| `items_decides` | the first item to decide is that of the full expansion |
| `items_mem` | an item visited is in one of the lists |
| `items_weight` | no list is gone through twice |
| `items_isSome` | how much fuel is enough |
-/
import Mathlib

namespace FirstMatch

inductive Entry (ι α : Type) where
  | use (i : ι)
  | item (a : α)
  deriving DecidableEq, Repr

variable {ι α ρ σ : Type}

/-- The result of going through a list, each use expanded in full. -/
inductive Decides (book : ι → List (Entry ι α)) (f : α → Option ρ) :
    List (Entry ι α) → Option ρ → Prop
  | nil : Decides book f [] none
  | useHit {i : ι} {es : List (Entry ι α)} {r : ρ} :
      Decides book f (book i) (some r) → Decides book f (.use i :: es) (some r)
  | useMiss {i : ι} {es : List (Entry ι α)} {r : Option ρ} :
      Decides book f (book i) none → Decides book f es r → Decides book f (.use i :: es) r
  | itemHit {a : α} {es : List (Entry ι α)} {r : ρ} :
      f a = some r → Decides book f (.item a :: es) (some r)
  | itemMiss {a : α} {es : List (Entry ι α)} {r : Option ρ} :
      f a = none → Decides book f es r → Decides book f (.item a :: es) r

/-- Go through the lists of a stack; none if the fuel does not do, or a visit fails. -/
def walk [DecidableEq ι] (book : ι → List (Entry ι α)) (visit : σ → α → Option σ) :
    Nat → List ι → σ → List (List (Entry ι α)) → Option σ
  | _, _, s, [] => some s
  | 0, _, _, _ :: _ => none
  | n + 1, used, s, [] :: stack => walk book visit n used s stack
  | n + 1, used, s, (.use i :: rest) :: stack =>
    if i ∈ used then walk book visit n used s (rest :: stack)
    else
      walk book visit n (i :: used) s
        (book i :: if rest.isEmpty then stack else rest :: stack)
  | n + 1, used, s, (.item a :: rest) :: stack => do
    let s ← visit s a
    walk book visit n used s (rest :: stack)

/-- The items a walk visits. -/
def items [DecidableEq ι] (book : ι → List (Entry ι α)) : Nat → List ι → List (List (Entry ι α)) →
    Option (List α)
  | _, _, [] => some []
  | 0, _, _ :: _ => none
  | n + 1, used, [] :: stack => items book n used stack
  | n + 1, used, (.use i :: rest) :: stack =>
    if i ∈ used then items book n used (rest :: stack)
    else items book n (i :: used) (book i :: if rest.isEmpty then stack else rest :: stack)
  | n + 1, used, (.item a :: rest) :: stack =>
    (items book n used (rest :: stack)).map (a :: ·)

variable {book : ι → List (Entry ι α)} {f : α → Option ρ} {es es' : List (Entry ι α)}
  {r r' : Option ρ}

theorem walk_eq [DecidableEq ι] {visit : σ → α → Option σ} {n : Nat} {used : List ι} {s : σ}
    {stack : List (List (Entry ι α))} :
    walk book visit n used s stack =
      (items book n used stack).bind fun as => as.foldlM visit s := by
  induction n generalizing used s stack with
  | zero =>
      cases stack with
      | nil => rfl
      | cons => rfl
  | succ n ih =>
      match stack with
      | [] => rfl
      | [] :: stack => exact ih
      | (.use i :: rest) :: stack =>
          rw [walk, items]
          split
          case isTrue => exact ih
          case isFalse => exact ih
      | (.item a :: rest) :: stack =>
          rw [walk, items]
          cases hv : visit s a with
          | none =>
              cases items book n used (rest :: stack) with
              | none => rfl
              | some => simp [hv]
          | some s' =>
              rw [Option.bind_eq_bind, Option.bind_some, ih]
              cases items book n used (rest :: stack) with
              | none => rfl
              | some => simp [hv]

/-! ## Full expansion -/

theorem Decides.unique (h : Decides book f es r) (h' : Decides book f es r') : r = r' := by
  induction h generalizing r' with
  | nil =>
      cases h'
      rfl
  | useHit _ ih =>
      cases h' with
      | useHit h' => exact ih h'
      | useMiss h' _ => cases ih h'
  | useMiss _ _ ihi ih =>
      cases h' with
      | useHit h' => cases ihi h'
      | useMiss _ h' => exact ih h'
  | itemHit h =>
      cases h' with
      | itemHit h' => exact h.symm.trans h'
      | itemMiss h' _ => cases h.symm.trans h'
  | itemMiss h _ ih =>
      cases h' with
      | itemHit h' => cases h.symm.trans h'
      | itemMiss _ h' => exact ih h'

theorem Decides.append_none (h : Decides book f es none) (h' : Decides book f es' r) :
    Decides book f (es ++ es') r := by
  generalize hn : (none : Option ρ) = o at h
  induction h with
  | nil => exact h'
  | useHit | itemHit => cases hn
  | useMiss hi _ _ ih => exact .useMiss hi (ih hn)
  | itemMiss ha _ ih => exact .itemMiss ha (ih hn)

theorem Decides.append_some {a : ρ} (h : Decides book f es (some a)) :
    Decides book f (es ++ es') (some a) := by
  generalize hn : some a = o at h
  induction h with
  | nil => cases hn
  | useHit hi => exact .useHit hi
  | useMiss hi _ _ ih => exact .useMiss hi (ih hn)
  | itemHit ha => exact .itemHit ha
  | itemMiss ha _ ih => exact .itemMiss ha (ih hn)

/-- A use may be written out. -/
theorem decides_use {i : ι} (h : Decides book f (.use i :: es) r) :
    Decides book f (book i ++ es) r := by
  cases h with
  | useHit h => exact h.append_some
  | useMiss h h' => exact h.append_none h'

theorem decides_append_none (h : Decides book f (es ++ es') none) :
    Decides book f es none ∧ Decides book f es' none := by
  induction es with
  | nil => exact ⟨.nil, h⟩
  | cons e es ih =>
      cases h with
      | useMiss hi h => exact ⟨.useMiss hi (ih h).1, (ih h).2⟩
      | itemMiss ha h => exact ⟨.itemMiss ha (ih h).1, (ih h).2⟩

/-! ## Other names -/

/-- Two entries stand for the same: `R` relates the names of lists, `S` the items. -/
inductive Entry.Like {κ β : Type} (R : ι → κ → Prop) (S : α → β → Prop) :
    Entry ι α → Entry κ β → Prop
  | use {i : ι} {k : κ} : R i k → Entry.Like R S (.use i) (.use k)
  | item {a : α} {b : β} : S a b → Entry.Like R S (.item a) (.item b)

theorem Entry.Like.flip {κ β : Type} {R : ι → κ → Prop} {S : α → β → Prop} {e : Entry ι α}
    {e' : Entry κ β} (h : Entry.Like R S e e') :
    Entry.Like (fun k i => R i k) (fun b a => S a b) e' e := by
  cases h with
  | use hik => exact .use hik
  | item hab => exact .item hab

theorem like_flip {κ β : Type} {R : ι → κ → Prop} {S : α → β → Prop} {fs : List (Entry κ β)}
    (h : List.Forall₂ (Entry.Like R S) es fs) :
    List.Forall₂ (Entry.Like (fun k i => R i k) (fun b a => S a b)) fs es := by
  induction h with
  | nil => exact .nil
  | cons he _ ih => exact .cons he.flip ih

theorem Decides.rename {κ β : Type} {R : ι → κ → Prop} {S : α → β → Prop}
    {book' : κ → List (Entry κ β)} {g : β → Option ρ} {fs : List (Entry κ β)}
    (hbook : ∀ i k, R i k → List.Forall₂ (Entry.Like R S) (book i) (book' k))
    (hitem : ∀ a b, S a b → f a = g b) (hes : List.Forall₂ (Entry.Like R S) es fs)
    (h : Decides book f es r) : Decides book' g fs r := by
  induction h generalizing fs with
  | nil =>
      cases hes
      exact .nil
  | useHit _ ih =>
      cases hes with
      | cons he _ =>
          cases he with
          | use hik => exact .useHit (ih (hbook _ _ hik))
  | useMiss _ _ ihi ih =>
      cases hes with
      | cons he hes =>
          cases he with
          | use hik => exact .useMiss (ihi (hbook _ _ hik)) (ih hes)
  | itemHit ha =>
      cases hes with
      | cons he _ =>
          cases he with
          | item hab => exact .itemHit ((hitem _ _ hab).symm.trans ha)
  | itemMiss ha _ ih =>
      cases hes with
      | cons he hes =>
          cases he with
          | item hab => exact .itemMiss ((hitem _ _ hab).symm.trans ha) (ih hes)

/-- **Lists that are the same under other names come to the same.** -/
theorem decides_rename_iff {κ β : Type} {R : ι → κ → Prop} {S : α → β → Prop}
    {book' : κ → List (Entry κ β)} {g : β → Option ρ} {fs : List (Entry κ β)}
    (hbook : ∀ i k, R i k → List.Forall₂ (Entry.Like R S) (book i) (book' k))
    (hitem : ∀ a b, S a b → f a = g b) (hes : List.Forall₂ (Entry.Like R S) es fs) :
    Decides book f es r ↔ Decides book' g fs r :=
  ⟨Decides.rename hbook hitem hes,
    Decides.rename (fun k i hik => like_flip (hbook i k hik)) (fun b a hab => (hitem a b hab).symm)
      (like_flip hes)⟩

/-! ## Ranks -/

/-- Every list used has a rank below `b`. -/
def Below (rank : ι → Nat) (b : Nat) (es : List (Entry ι α)) : Prop :=
  ∀ i, Entry.use i ∈ es → rank i < b

/-- Lists use lists of a lesser rank only. -/
def Ranked (rank : ι → Nat) (book : ι → List (Entry ι α)) : Prop :=
  ∀ i, Below rank (rank i) (book i)

variable {rank : ι → Nat} {b : Nat} {e : Entry ι α}

theorem Below.tail (h : Below rank b (e :: es)) : Below rank b es :=
  fun i hi => h i (List.mem_cons_of_mem _ hi)

/-- Every list comes to a result. -/
theorem Ranked.decides (hr : Ranked rank book) :
    ∀ {b : Nat} {es : List (Entry ι α)}, Below rank b es → ∃ r, Decides book f es r := by
  intro b
  induction b using Nat.strong_induction_on with
  | _ b ihb =>
      intro es h
      induction es with
      | nil => exact ⟨none, .nil⟩
      | cons e es ih =>
          obtain ⟨r, hes⟩ := ih h.tail
          cases e with
          | use i =>
              obtain ⟨r', hi⟩ := ihb _ (h i (List.mem_cons_self ..)) (hr i)
              cases r' with
              | none => exact ⟨r, .useMiss hi hes⟩
              | some r' => exact ⟨some r', .useHit hi⟩
          | item a =>
              cases ha : f a with
              | none => exact ⟨r, .itemMiss ha hes⟩
              | some r' => exact ⟨some r', .itemHit ha⟩

/-! ## What is skipped makes no difference -/

/-- The stack, each list with a bound on the ranks it uses. -/
abbrev Frames (ι α : Type) := List (Nat × List (Entry ι α))

/-- What is left of all lists. -/
def Frames.left (fs : Frames ι α) : List (Entry ι α) := fs.flatMap Prod.snd

/-- What is left of the lists within a bound. -/
def Frames.upTo (fs : Frames ι α) (b : Nat) : List (Entry ι α) :=
  Frames.left (fs.filter fun x => decide (x.1 ≤ b))

/-- The bounds hold, and rise from the top down. -/
structure Frames.Ordered (rank : ι → Nat) (fs : Frames ι α) : Prop where
  below : ∀ x ∈ fs, Below rank x.1 x.2
  rises : fs.Pairwise fun x y => x.1 ≤ y.1

/-- A list that was entered decides nothing once what is left of it, and of the
lists above it, has decided nothing. -/
def Covered (rank : ι → Nat) (book : ι → List (Entry ι α)) (f : α → Option ρ) (used : List ι)
    (fs : Frames ι α) : Prop :=
  ∀ i ∈ used, Decides book f (fs.upTo (rank i)) none → Decides book f (book i) none

variable {fs : Frames ι α} {used : List ι} {i : ι}

@[simp] theorem Frames.left_cons {x : Nat × List (Entry ι α)} :
    Frames.left (x :: fs) = x.2 ++ Frames.left fs := rfl

theorem Frames.upTo_cons {x : Nat × List (Entry ι α)} :
    Frames.upTo (x :: fs) b = (if x.1 ≤ b then x.2 else []) ++ Frames.upTo fs b := by
  unfold upTo
  by_cases hx : x.1 ≤ b
  · rw [List.filter_cons_of_pos (by simpa using hx), left_cons, if_pos hx]
  · rw [List.filter_cons_of_neg (by simpa using hx), if_neg hx, List.nil_append]

theorem Frames.Ordered.tail {x : Nat × List (Entry ι α)} (h : Frames.Ordered rank (x :: fs)) :
    Frames.Ordered rank fs :=
  ⟨fun y hy => h.below y (List.mem_cons_of_mem _ hy), h.rises.of_cons⟩

/-- Below the bound of the top there is nothing on the stack. -/
theorem Frames.Ordered.upTo_eq_nil {b' : Nat} (h : Frames.Ordered rank ((b, es) :: fs))
    (hb : b' < b) : Frames.upTo fs b' = [] := by
  have hall : fs.filter (fun x => decide (x.1 ≤ b')) = [] := by
    rw [List.filter_eq_nil_iff]
    intro x hx
    have hle := (List.pairwise_cons.mp h.rises).1 x hx
    simp only [decide_eq_true_eq]
    omega
  rw [upTo, hall]
  rfl

/-- The top list cut down to what comes after its first entry. -/
theorem Frames.Ordered.cut (h : Frames.Ordered rank ((b, e :: es) :: fs)) :
    Frames.Ordered rank ((b, es) :: fs) := by
  refine ⟨?_, ?_⟩
  · intro x hx
    rcases List.mem_cons.mp hx with rfl | hx
    · exact Below.tail (h.below (b, e :: es) (List.mem_cons_self ..))
    · exact h.below x (List.mem_cons_of_mem _ hx)
  · exact List.pairwise_cons.mpr ⟨(List.pairwise_cons.mp h.rises).1, h.rises.of_cons⟩

/-- A list entered above the top. -/
theorem Frames.Ordered.enter (hr : Ranked rank book)
    (h : Frames.Ordered rank ((b, .use i :: es) :: fs)) :
    Frames.Ordered rank ((rank i, book i) :: (b, es) :: fs) := by
  have hlt : rank i < b :=
    h.below (b, .use i :: es) (List.mem_cons_self ..) i (List.mem_cons_self ..)
  refine ⟨?_, ?_⟩
  · intro x hx
    rcases List.mem_cons.mp hx with rfl | hx
    · exact hr i
    · exact h.cut.below x hx
  · refine List.pairwise_cons.mpr ⟨?_, h.cut.rises⟩
    intro x hx
    rcases List.mem_cons.mp hx with rfl | hx
    · exact hlt.le
    · exact hlt.le.trans ((List.pairwise_cons.mp h.rises).1 x hx)

/-- An entry that does not decide may be dropped. -/
theorem Covered.cut (hc : Covered rank book f used ((b, e :: es) :: fs))
    (he : ∀ es, Decides book f es none → Decides book f (e :: es) none) :
    Covered rank book f used ((b, es) :: fs) := by
  intro k hk hn
  refine hc k hk ?_
  rw [Frames.upTo_cons] at hn ⊢
  by_cases hb : b ≤ rank k
  · rw [if_pos hb] at hn ⊢
    exact he _ hn
  · rw [if_neg hb] at hn ⊢
    exact hn

/-- A list used and not entered yet is entered. -/
theorem Covered.enter (ho : Frames.Ordered rank ((b, .use i :: es) :: fs))
    (hc : Covered rank book f used ((b, .use i :: es) :: fs)) :
    Covered rank book f (i :: used) ((rank i, book i) :: (b, es) :: fs) := by
  have hlt : rank i < b :=
    ho.below (b, .use i :: es) (List.mem_cons_self ..) i (List.mem_cons_self ..)
  intro k hk hn
  rw [Frames.upTo_cons, Frames.upTo_cons] at hn
  rcases List.mem_cons.mp hk with rfl | hk
  · rw [if_pos (Nat.le_refl _)] at hn
    exact (decides_append_none hn).1
  · refine hc k hk ?_
    rw [Frames.upTo_cons]
    by_cases hb : b ≤ rank k
    · rw [if_pos (hlt.le.trans hb), if_pos hb] at hn
      rw [if_pos hb]
      exact .useMiss (decides_append_none hn).1 (decides_append_none hn).2
    · rw [if_neg hb, ho.upTo_eq_nil (Nat.lt_of_not_le hb)]
      exact .nil

/-- At the use of a list that was entered, the list decides nothing. -/
theorem Covered.undecided (ho : Frames.Ordered rank ((b, .use i :: es) :: fs))
    (hc : Covered rank book f used ((b, .use i :: es) :: fs)) (hi : i ∈ used) :
    Decides book f (book i) none := by
  have hlt : rank i < b :=
    ho.below (b, .use i :: es) (List.mem_cons_self ..) i (List.mem_cons_self ..)
  refine hc i hi ?_
  rw [Frames.upTo_cons, if_neg (Nat.not_le.mpr hlt), ho.upTo_eq_nil hlt]
  exact .nil

/-- A list of which nothing is left may be dropped. -/
theorem Frames.Ordered.drop {x : Nat × List (Entry ι α)}
    (h : Frames.Ordered rank (x :: (b, []) :: fs)) : Frames.Ordered rank (x :: fs) := by
  refine ⟨?_, ?_⟩
  · intro y hy
    rcases List.mem_cons.mp hy with rfl | hy
    · exact h.below y (List.mem_cons_self ..)
    · exact h.below y (List.mem_cons_of_mem _ (List.mem_cons_of_mem _ hy))
  · refine List.pairwise_cons.mpr ⟨?_, h.rises.of_cons.of_cons⟩
    intro y hy
    exact (List.pairwise_cons.mp h.rises).1 y (List.mem_cons_of_mem _ hy)

theorem Frames.upTo_drop {b' : Nat} {x : Nat × List (Entry ι α)} :
    Frames.upTo (x :: (b, []) :: fs) b' = Frames.upTo (x :: fs) b' := by
  rw [upTo_cons, upTo_cons, upTo_cons, ite_self, List.nil_append]

theorem Covered.drop {x : Nat × List (Entry ι α)}
    (h : Covered rank book f used (x :: (b, []) :: fs)) : Covered rank book f used (x :: fs) := by
  intro k hk hn
  refine h k hk ?_
  rw [Frames.upTo_drop]
  exact hn

/-- **The first item visited that decides is the first of the full expansion.** -/
theorem items_decides [DecidableEq ι] (hr : Ranked rank book) {n : Nat} {as : List α}
    (ho : Frames.Ordered rank fs) (h : items book n used (fs.map Prod.snd) = some as)
    (hc : Covered rank book f used fs) (hd : Decides book f fs.left r) : as.findSome? f = r := by
  induction n generalizing used fs as r with
  | zero =>
      cases fs with
      | nil =>
          cases h
          cases hd
          rfl
      | cons => cases h
  | succ n ih =>
      match fs with
      | [] =>
          cases h
          cases hd
          rfl
      | (b, []) :: fs =>
          refine ih ho.tail h ?_ hd
          intro k hk hn
          refine hc k hk ?_
          rw [Frames.upTo_cons, ite_self, List.nil_append]
          exact hn
      | (b, .use i :: es) :: fs =>
          rw [List.map_cons, items] at h
          split at h
          case isTrue hi =>
              have hnone := hc.undecided ho hi
              have hd' : Decides book f (Frames.left ((b, es) :: fs)) r := by
                cases hd with
                | useHit hit => cases hnone.unique hit
                | useMiss _ hd => exact hd
              exact ih ho.cut h (hc.cut fun _ => .useMiss hnone) hd'
          case isFalse hi =>
              have ho' := ho.enter hr
              have hc' := hc.enter ho
              have hd' : Decides book f (Frames.left ((rank i, book i) :: (b, es) :: fs)) r :=
                decides_use hd
              cases es with
              | nil => exact ih ho'.drop h hc'.drop hd'
              | cons e es => exact ih ho' h hc' hd'
      | (b, .item a :: es) :: fs =>
          rw [List.map_cons, items] at h
          obtain ⟨as, has, rfl⟩ := Option.map_eq_some_iff.mp h
          rw [List.findSome?_cons]
          cases hd with
          | itemHit ha => rw [ha]
          | itemMiss ha hd =>
              rw [ha]
              exact ih ho.cut has (hc.cut fun _ => .itemMiss ha) hd

/-- Every item visited is in one of the lists. -/
theorem items_mem [DecidableEq ι] {n : Nat} {stack : List (List (Entry ι α))} {as : List α} {a : α}
    (h : items book n used stack = some as) (ha : a ∈ as) :
    (∃ es ∈ stack, Entry.item a ∈ es) ∨ ∃ i, Entry.item a ∈ book i := by
  induction n generalizing used stack as with
  | zero =>
      cases stack with
      | nil =>
          cases h
          cases ha
      | cons => cases h
  | succ n ih =>
      match stack with
      | [] =>
          cases h
          cases ha
      | [] :: stack =>
          rcases ih h ha with ⟨es, hes, hmem⟩ | hbook
          · exact .inl ⟨es, List.mem_cons_of_mem _ hes, hmem⟩
          · exact .inr hbook
      | (.use i :: es) :: stack =>
          have hback : (∃ es' ∈ es :: stack, Entry.item a ∈ es') →
              ∃ es' ∈ (.use i :: es) :: stack, Entry.item a ∈ es' := by
            rintro ⟨es', hes', hmem⟩
            rcases List.mem_cons.mp hes' with rfl | hes'
            · exact ⟨_, List.mem_cons_self .., List.mem_cons_of_mem _ hmem⟩
            · exact ⟨es', List.mem_cons_of_mem _ hes', hmem⟩
          rw [items] at h
          split at h
          case isTrue => exact (ih h ha).imp_left hback
          case isFalse =>
              rcases ih h ha with ⟨es', hes', hmem⟩ | hbook
              · rcases List.mem_cons.mp hes' with rfl | hes'
                · exact .inr ⟨i, hmem⟩
                · refine .inl (hback ⟨es', ?_, hmem⟩)
                  split at hes'
                  · exact List.mem_cons_of_mem _ hes'
                  · exact hes'
              · exact .inr hbook
      | (.item b :: es) :: stack =>
          rw [items] at h
          obtain ⟨as, has, rfl⟩ := Option.map_eq_some_iff.mp h
          rcases List.mem_cons.mp ha with rfl | ha
          · exact .inl ⟨_, List.mem_cons_self .., List.mem_cons_self ..⟩
          · rcases ih has ha with ⟨es', hes', hmem⟩ | hbook
            · rcases List.mem_cons.mp hes' with rfl | hes'
              · exact .inl ⟨_, List.mem_cons_self .., List.mem_cons_of_mem _ hmem⟩
              · exact .inl ⟨es', List.mem_cons_of_mem _ hes', hmem⟩
            · exact .inr hbook

/-! ## No list twice -/

/-- Something counted over a list of entries, `w` for an item. -/
def Entry.weigh (w : α → Nat) : Entry ι α → Nat
  | .use _ => 0
  | .item a => w a

def weight (w : α → Nat) (es : List (Entry ι α)) : Nat := (es.map (Entry.weigh w)).sum

/-- The lists below `m` not entered yet. -/
def fresh (m : Nat) (used : List Nat) : Finset Nat := (Finset.range m).filter fun i => i ∉ used

theorem sum_fresh {m i : Nat} {used : List Nat} (g : Nat → Nat) (hi : i ∉ used) (hm : i < m) :
    ∑ k ∈ fresh m used, g k = g i + ∑ k ∈ fresh m (i :: used), g k := by
  have hmem : i ∈ fresh m used := by simp [fresh, hi, hm]
  have herase : (fresh m used).erase i = fresh m (i :: used) := by
    ext k
    simp only [fresh, Finset.mem_erase, Finset.mem_filter, Finset.mem_range, List.mem_cons, not_or]
    tauto
  rw [← Finset.add_sum_erase _ _ hmem, herase]

/-- The lists used are those of the book. -/
def Within (m : Nat) (es : List (Entry Nat α)) : Prop := ∀ i, Entry.use i ∈ es → i < m

variable {m : Nat} {book : Nat → List (Entry Nat α)} {e : Entry Nat α} {es : List (Entry Nat α)}
  {used : List Nat} {stack : List (List (Entry Nat α))}

theorem within_cut (hs : ∀ es' ∈ (e :: es) :: stack, Within m es') :
    ∀ es' ∈ es :: stack, Within m es' := by
  intro es' hes'
  rcases List.mem_cons.mp hes' with rfl | hes'
  · exact fun k hk => hs _ (List.mem_cons_self ..) k (List.mem_cons_of_mem _ hk)
  · exact hs es' (List.mem_cons_of_mem _ hes')

/-- **What is visited is counted once for each list.** -/
theorem items_weight {w : α → Nat} {n : Nat} {as : List α} (hb : ∀ i, Within m (book i))
    (hs : ∀ es ∈ stack, Within m es) (h : items book n used stack = some as) :
    (as.map w).sum ≤ (stack.map (weight w)).sum + ∑ k ∈ fresh m used, weight w (book k) := by
  induction n generalizing used stack as with
  | zero =>
      cases stack with
      | nil =>
          cases h
          exact Nat.zero_le _
      | cons => cases h
  | succ n ih =>
      match stack with
      | [] =>
          cases h
          exact Nat.zero_le _
      | [] :: stack =>
          have h' := ih (fun es hes => hs es (List.mem_cons_of_mem _ hes)) h
          rw [List.map_cons, List.sum_cons]
          exact h'.trans (by simp [weight])
      | (.use i :: es) :: stack =>
          have hcut := within_cut hs
          have hw : weight w (.use i :: es) = weight w es := by simp [weight, Entry.weigh]
          rw [items] at h
          rw [List.map_cons, List.sum_cons, hw]
          split at h
          case isTrue =>
              have h' := ih hcut h
              rwa [List.map_cons, List.sum_cons] at h'
          case isFalse hi =>
              have him : i < m := hs _ (List.mem_cons_self ..) i (List.mem_cons_self ..)
              rw [sum_fresh _ hi him]
              cases es with
              | nil =>
                  have h' := ih (List.forall_mem_cons.mpr
                    ⟨hb i, (List.forall_mem_cons.mp hcut).2⟩) h
                  rw [List.map_cons, List.sum_cons] at h'
                  omega
              | cons e es =>
                  have h' := ih (List.forall_mem_cons.mpr ⟨hb i, hcut⟩) h
                  rw [List.map_cons, List.map_cons, List.sum_cons, List.sum_cons] at h'
                  omega
      | (.item a :: es) :: stack =>
          have hcut := within_cut hs
          rw [items] at h
          obtain ⟨as, has, rfl⟩ := Option.map_eq_some_iff.mp h
          have h' := ih hcut has
          have hw : weight w (.item a :: es) = w a + weight w es := by simp [weight, Entry.weigh]
          rw [List.map_cons, List.sum_cons, List.map_cons, List.sum_cons, hw]
          rw [List.map_cons, List.sum_cons] at h'
          omega

/-- **How many steps a walk takes**: one for each entry and one for each end of a list. -/
theorem items_isSome {n : Nat} (hb : ∀ i, Within m (book i)) (hs : ∀ es ∈ stack, Within m es)
    (hn : (stack.map fun es => es.length + 1).sum + ∑ k ∈ fresh m used, ((book k).length + 1) ≤ n) :
    ∃ as, items book n used stack = some as := by
  induction n generalizing used stack with
  | zero =>
      cases stack with
      | nil => exact ⟨[], rfl⟩
      | cons es stack =>
          rw [List.map_cons, List.sum_cons] at hn
          omega
  | succ n ih =>
      match stack with
      | [] => exact ⟨[], rfl⟩
      | [] :: stack =>
          rw [List.map_cons, List.sum_cons, List.length_nil] at hn
          exact ih (fun es hes => hs es (List.mem_cons_of_mem _ hes)) (by omega)
      | (e :: es) :: stack =>
          have hcut := within_cut hs
          rw [List.map_cons, List.sum_cons, List.length_cons] at hn
          cases e with
          | use i =>
              rw [items]
              split
              case isTrue => exact ih hcut (by rw [List.map_cons, List.sum_cons]; omega)
              case isFalse hi =>
                  have him : i < m := hs _ (List.mem_cons_self ..) i (List.mem_cons_self ..)
                  rw [sum_fresh _ hi him] at hn
                  cases es with
                  | nil =>
                      refine ih (List.forall_mem_cons.mpr
                        ⟨hb i, (List.forall_mem_cons.mp hcut).2⟩) ?_
                      simp only [List.length_nil, List.isEmpty_nil, if_true, List.map_cons,
                        List.sum_cons] at hn ⊢
                      omega
                  | cons e es =>
                      refine ih (List.forall_mem_cons.mpr ⟨hb i, hcut⟩) ?_
                      simp only [List.isEmpty_cons, Bool.false_eq_true, if_false,
                        List.length_cons, List.map_cons, List.sum_cons] at hn ⊢
                      omega
          | item a =>
              have hrest : ∃ as, items book n used (es :: stack) = some as :=
                ih hcut (by rw [List.map_cons, List.sum_cons]; omega)
              obtain ⟨as, has⟩ := hrest
              exact ⟨a :: as, by rw [items, has]; rfl⟩

/-! ## One after the other -/

/-- They are asked in turn, until one decides. -/
inductive InTurn (decides : ι → Option ρ → Prop) : List ι → Option ρ → Prop
  | nil : InTurn decides [] none
  | found {i : ι} {is : List ι} {r : ρ} : decides i (some r) → InTurn decides (i :: is) (some r)
  | next {i : ι} {is : List ι} {r : Option ρ} :
      decides i none → InTurn decides is r → InTurn decides (i :: is) r

variable {decides decides' : ι → Option ρ → Prop} {is : List ι}

theorem inTurn_exists (h : ∀ i, ∃ r, decides i r) : ∃ r, InTurn decides is r := by
  induction is with
  | nil => exact ⟨none, .nil⟩
  | cons i is ih =>
      obtain ⟨r, hr⟩ := h i
      cases r with
      | none =>
          obtain ⟨r', hr'⟩ := ih
          exact ⟨r', .next hr hr'⟩
      | some r => exact ⟨some r, .found hr⟩

theorem inTurn_congr (h : ∀ i r, decides i r ↔ decides' i r) :
    InTurn decides is r ↔ InTurn decides' is r := by
  have heq : decides = decides' := funext fun i => funext fun r => propext (h i r)
  rw [heq]

end FirstMatch
