/-
# `YaojJudger.Rewrite` — the text that is compiled

`policy_identifier_handler` cuts the policy text at its placeholders, the
leftmost longest matches of `%[0-9][0-9]*s`, and puts an address where each one
was.  Nothing else is lost, doubled or moved, and the loop makes one iteration
for each placeholder and one for the tail (`rewrites_faithfully`).

What comes out has no placeholder in it, so the handler leaves it as it is
(`rewriting_complete`).  A placeholder could only have come about across a seam,
and none can: an address is `0x` and lower-case hexadecimal digits,

    …lit 0 x 1 f 4 0 lit…

and no placeholder has an `x` in it, ends in a `0`, or begins with a digit.
-/
import YaojJudger.Placeholder
import YaojJudger.Scan

namespace YaojJudger

open Scan (Cut Free Leftmost)

/-! ## The pattern -/

/-- The words of `%[0-9][0-9]*s`. -/
def IsPlaceholder (m : Bytes) : Prop :=
  ∃ ds, m = 37 :: (ds ++ [115]) ∧ ds ≠ [] ∧ ∀ b ∈ ds, isDigit b = true

theorem IsPlaceholder.ne_nil {m : Bytes} (h : IsPlaceholder m) : m ≠ [] := by
  obtain ⟨ds, rfl, -⟩ := h
  exact List.cons_ne_nil _ _

theorem IsPlaceholder.head {m : Bytes} (h : IsPlaceholder m) : m.head? = some 37 := by
  obtain ⟨ds, rfl, -⟩ := h
  rfl

theorem IsPlaceholder.last {m : Bytes} (h : IsPlaceholder m) : m.getLast? = some 115 := by
  obtain ⟨ds, rfl, -⟩ := h
  simp [List.getLast?_cons]

/-- The letters of a placeholder. -/
theorem IsPlaceholder.letter {m : Bytes} (h : IsPlaceholder m) {b : UInt8} (hb : b ∈ m) :
    b = 37 ∨ b = 115 ∨ isDigit b = true := by
  obtain ⟨ds, rfl, -, hds⟩ := h
  rcases List.mem_cons.mp hb with rfl | hb
  · exact Or.inl rfl
  · rcases List.mem_append.mp hb with hb | hb
    · exact Or.inr (Or.inr (hds b hb))
    · exact Or.inr (Or.inl (List.mem_singleton.mp hb))

/-! ## `regexec` finds the leftmost longest match -/

/-- A placeholder at the head of the text is matched, all of it. -/
theorem matchHere_append {m rest : Bytes} (h : IsPlaceholder m) :
    matchHere (m ++ rest) = some m.length := by
  obtain ⟨ds, rfl, hne, hds⟩ := h
  have hnot : isDigit 115 = false := by decide
  have htake : (ds ++ 115 :: rest).takeWhile isDigit = ds := by
    rw [takeWhile_digits hds, List.takeWhile_cons, hnot]
    simp
  have hdrop : (ds ++ 115 :: rest).dropWhile isDigit = 115 :: rest := by
    rw [List.dropWhile_append_of_pos hds, List.dropWhile_cons, hnot]
    simp
  have htext : 37 :: (ds ++ [115]) ++ rest = 37 :: (ds ++ 115 :: rest) := by simp
  rw [htext, matchHere, htake, hdrop]
  cases ds with
  | nil => exact absurd rfl hne
  | cons d ds => simp

/-- What is found is no further to the right than any placeholder. -/
theorem regexec_le {m rest : Bytes} (hm : IsPlaceholder m) :
    ∀ lit : Bytes, ∃ so eo, regexec (lit ++ m ++ rest) = some (so, eo) ∧ so ≤ lit.length := by
  intro lit
  induction lit with
  | nil =>
      have hhere := @matchHere_append _ rest hm
      obtain ⟨ds, rfl, -⟩ := hm
      refine ⟨0, (37 :: (ds ++ [115])).length, ?_, Nat.le_refl 0⟩
      rw [List.nil_append]
      rw [List.cons_append] at hhere ⊢
      rw [regexec, hhere]
  | cons b lit ih =>
      obtain ⟨so, eo, hfound, hle⟩ := ih
      show ∃ so eo, regexec (b :: (lit ++ m ++ rest)) = some (so, eo) ∧ so ≤ lit.length + 1
      rw [regexec]
      cases matchHere (b :: (lit ++ m ++ rest)) with
      | some n => exact ⟨0, n, rfl, Nat.zero_le _⟩
      | none =>
          rw [hfound]
          exact ⟨so + 1, eo + 1, rfl, by omega⟩

theorem free_of_regexec {s : Bytes} (h : regexec s = none) : Free IsPlaceholder s := by
  intro m hm
  rintro ⟨lit, rest, rfl⟩
  obtain ⟨so, eo, hfound, -⟩ := regexec_le hm lit
  rw [h] at hfound
  cases hfound

theorem regexec_of_free {s : Bytes} (h : Free IsPlaceholder s) : regexec s = none := by
  cases hm : regexec s with
  | none => rfl
  | some p =>
      obtain ⟨so, eo⟩ := p
      obtain ⟨lit, ds, rest, rfl, -, -, hne, hds⟩ := regexec_spec hm
      refine absurd ?_ (h (37 :: (ds ++ [115])) ⟨ds, rfl, hne, hds⟩)
      exact ⟨lit, rest, by simp⟩

theorem leftmost_of_regexec {lit ds rest : Bytes} (hne : ds ≠ [])
    (hds : ∀ b ∈ ds, isDigit b = true)
    (h : regexec (lit ++ 37 :: (ds ++ 115 :: rest)) =
      some (lit.length, lit.length + ds.length + 2)) :
    Leftmost IsPlaceholder (lit ++ 37 :: (ds ++ 115 :: rest)) lit (37 :: (ds ++ [115])) rest := by
  have hword : IsPlaceholder (37 :: (ds ++ [115])) := ⟨ds, rfl, hne, hds⟩
  refine ⟨by simp, hword, ?_, ?_⟩
  · intro lit' m' rest' heq hm'
    obtain ⟨so, eo, hfound, hle⟩ := @regexec_le _ rest' hm' lit'
    rw [← heq, h] at hfound
    obtain ⟨rfl, -⟩ := Prod.mk.inj (Option.some.inj hfound)
    exact hle
  · intro m' rest' heq hm'
    have htext : 37 :: (ds ++ [115]) ++ rest = m' ++ rest' := by
      rw [List.append_assoc] at heq
      simpa using List.append_cancel_left heq
    have hsame := (@matchHere_append _ rest hword).symm.trans
      (htext ▸ @matchHere_append _ rest' hm')
    exact Nat.le_of_eq (Option.some.inj hsame).symm

/-- A placeholder as a piece of the text. -/
def Placeholder.piece (p : Placeholder) : Bytes × Bytes := (p.lit, 37 :: (p.ds ++ [115]))

/-- **`split` is the cut at the placeholders.** -/
theorem cut_split (s : Bytes) :
    Cut IsPlaceholder s ((placeholders s).map Placeholder.piece) (split s).2 := by
  induction hn : s.length using Nat.strong_induction_on generalizing s with
  | _ n ih =>
      cases hm : regexec s with
      | none =>
          rw [placeholders, split_none hm]
          exact .done (free_of_regexec hm)
      | some m =>
          obtain ⟨so, eo⟩ := m
          obtain ⟨lit, ds, rest, rfl, rfl, rfl, hne, hds⟩ := regexec_spec hm
          have hrest : rest.length < n := by
            rw [← hn]
            simp only [List.length_append, List.length_cons]
            omega
          rw [placeholders, split_append hm]
          exact .next (leftmost_of_regexec hne hds hm) (ih rest.length hrest rest rfl)

/-! ## How many iterations -/

/-- The loop ends with `out` in the `n`-th iteration from `st`. -/
inductive EndsIn (content : Bytes) (argv : List Arg) : IdentState → Nat → IdentOut → Prop
  | last {st : IdentState} {out : IdentOut} : identStep content argv st = .inr out →
      EndsIn content argv st 1 out
  | next {st st' : IdentState} {n : Nat} {out : IdentOut} : identStep content argv st = .inl st' →
      EndsIn content argv st' n out → EndsIn content argv st (n + 1) out

section
variable {content : Bytes} {argv : List Arg} {st : IdentState}

/-- The loop ends in one iteration only, and in one way. -/
theorem EndsIn.unique {n n' : Nat} {out out' : IdentOut} (h : EndsIn content argv st n out)
    (h' : EndsIn content argv st n' out') : n' = n ∧ out' = out := by
  induction h generalizing n' out' with
  | last hs =>
      cases h' with
      | last hs' => exact ⟨rfl, Sum.inr.inj (hs'.symm.trans hs)⟩
      | next hs' _ => cases hs'.symm.trans hs
  | next hs _ ih =>
      cases h' with
      | last hs' => cases hs'.symm.trans hs
      | next hs' hr' =>
          obtain rfl := Sum.inl.inj (hs'.symm.trans hs)
          obtain ⟨rfl, rfl⟩ := ih hr'
          exact ⟨rfl, rfl⟩

/-- An iteration goes on behind where it began, and chooses one argument. -/
theorem identStep_inl {st' : IdentState} (h : identStep content argv st = .inl st') :
    content.length - st'.pos < content.length - st.pos ∧
      st'.selected.length = st.selected.length + 1 := by
  unfold identStep at h
  cases hm : regexec (content.drop st.pos) with
  | none =>
      rw [hm] at h
      cases h
  | some m =>
      obtain ⟨so, eo⟩ := m
      rw [hm] at h
      simp only at h
      have hbound := regexec_bound hm
      rw [List.length_drop] at hbound
      split at h
      case h_1 => cases h
      case h_2 =>
        split at h
        case isFalse => cases h
        case isTrue =>
          obtain rfl := Sum.inl.inj h
          refine ⟨?_, ?_⟩
          · show content.length - (st.pos + eo) < content.length - st.pos
            omega
          · rw [List.length_append, List.length_singleton]

/-- The loop ends. -/
theorem endsIn_identLoop : ∃ n, EndsIn content argv st n (identLoop content argv st) := by
  induction hn : content.length - st.pos using Nat.strong_induction_on generalizing st with
  | _ n ih =>
      rw [identLoop_step]
      cases hs : identStep content argv st with
      | inr out => exact ⟨1, .last hs⟩
      | inl st' =>
          obtain ⟨k, hk⟩ := ih _ (hn ▸ (identStep_inl hs).1) rfl
          exact ⟨k + 1, .next hs hk⟩

/-- Every iteration but the last has chosen an argument. -/
theorem EndsIn.selected {n : Nat} {res : Bytes} {selected : List Nat}
    (h : EndsIn content argv st n (.done res selected)) :
    n + st.selected.length = selected.length + 1 := by
  generalize hout : IdentOut.done res selected = out at h
  induction h with
  | @last st out hs =>
      subst hout
      unfold identStep at hs
      split at hs
      case h_2 =>
        obtain ⟨-, rfl⟩ := IdentOut.done.inj (Sum.inr.inj hs)
        omega
      case h_1 =>
        simp only at hs
        split at hs
        · cases hs
        · split at hs
          · cases hs
          · cases hs
  | next hs _ ih =>
      have := ih hout
      have := (identStep_inl hs).2
      omega

end

/-! ## What comes out -/

/-- The pieces with the words replaced by `addrs`, and the tail. -/
def woven : List (Bytes × Bytes) → List Bytes → Bytes → Bytes
  | (lit, _) :: pieces, addr :: addrs, tail => lit ++ addr ++ woven pieces addrs tail
  | _, _, tail => tail

theorem filled_eq_woven (tail : Bytes) :
    ∀ (ps : List Placeholder) (addrs : List Bytes),
      filled tail ps addrs = woven (ps.map Placeholder.piece) addrs tail
  | [], _ => rfl
  | p :: ps, [] => rfl
  | p :: ps, addr :: addrs => by
      rw [filled, filled_eq_woven tail ps addrs]
      rfl

theorem readings_length : ∀ (numStr : Vector UInt8 10) (dss : List Bytes),
    (readings numStr dss).length = dss.length
  | _, [] => rfl
  | _, _ :: dss => congrArg Nat.succ (readings_length _ dss)

section
variable {content res : Bytes} {argv : List Arg} {numStr : Vector UInt8 10} {selected : List Nat}

/-- What a run that returns 0 has chosen, and put together. -/
theorem handler_done (h : policyIdentifierHandler content argv numStr = .done res selected) :
    selected.length = (placeholders content).length ∧ (∀ n ∈ selected, n < argv.length) ∧
      res = woven ((placeholders content).map Placeholder.piece) (selected.map (printed argv))
        (split content).2 := by
  rw [policyIdentifierHandler, identLoop_eq_readLoop content argv _ rfl] at h
  have hexp := readLoop_explained argv (split content).2 (placeholders content) numStr [] []
  rw [List.drop_zero] at h
  rw [h] at hexp
  obtain ⟨hall, -, hsel, hres⟩ := hexp
  rw [List.nil_append] at hsel hres
  subst hsel
  refine ⟨?_, hall.2, ?_⟩
  · rw [readings_length, digits, List.length_map]
  · rw [hres, filled_eq_woven]

/-- **The rewriter is a faithful tokenise-and-replace.** -/
theorem rewrites_faithfully
    (h : policyIdentifierHandler content argv numStr = .done res selected) :
    ∃ pieces tail, Cut IsPlaceholder content pieces tail ∧
      (∀ pieces' tail', Cut IsPlaceholder content pieces' tail' → pieces' = pieces ∧ tail' = tail) ∧
      EndsIn content argv (identStart numStr) (pieces.length + 1) (.done res selected) ∧
      selected.length = pieces.length ∧ (∀ n ∈ selected, n < argv.length) ∧
      res = woven pieces (selected.map (printed argv)) tail := by
  obtain ⟨hlen, hlt, hres⟩ := handler_done h
  have hcut := cut_split content
  refine ⟨_, _, hcut, fun pieces' tail' h' => hcut.unique h', ?_, ?_, hlt, hres⟩
  · obtain ⟨n, hn⟩ := @endsIn_identLoop content argv (identStart numStr)
    have hout : identLoop content argv (identStart numStr) = .done res selected := h
    rw [hout] at hn
    have hcount : n + 0 = selected.length + 1 := hn.selected
    rw [List.length_map, ← hlen, ← hcount]
    exact hn
  · rw [hlen, List.length_map]

end

/-- `a%0s%1sb`. -/
def twoOf : Bytes := [97, 37, 48, 115, 37, 49, 115, 98]

theorem split_twoOf : split twoOf = ([⟨[97], [48]⟩, ⟨[], [49]⟩], [98]) := by
  have h₁ : split twoOf =
      (⟨[97], [48]⟩ :: (split [37, 49, 115, 98]).1, (split [37, 49, 115, 98]).2) :=
    @split_append [97] [48] [37, 49, 115, 98] (by decide)
  have h₂ : split [37, 49, 115, 98] = (⟨[], [49]⟩ :: (split [98]).1, (split [98]).2) :=
    @split_append [] [49] [98] (by decide)
  rw [h₁, h₂, split_none (by decide)]

/-- `a0x10000x2000b`. -/
def twoRes : Bytes := [97, 48, 120, 49, 48, 48, 48, 48, 120, 50, 48, 48, 48, 98]

theorem handler_twoOf :
    policyIdentifierHandler twoOf twoArgv (Vector.replicate 10 0) = .done twoRes [0, 1] := by
  rw [policyIdentifierHandler, identLoop_eq_readLoop _ _ _ rfl]
  simp only [List.drop_zero, placeholders, split_twoOf]
  decide

theorem rewrites_faithfully_twoOf :
    ∃ pieces tail, Cut IsPlaceholder twoOf pieces tail ∧
      (∀ pieces' tail', Cut IsPlaceholder twoOf pieces' tail' →
        pieces' = pieces ∧ tail' = tail) ∧
      EndsIn twoOf twoArgv (identStart (Vector.replicate 10 0)) (pieces.length + 1)
        (.done twoRes [0, 1]) ∧
      [0, 1].length = pieces.length ∧ (∀ n ∈ [0, 1], n < twoArgv.length) ∧
      twoRes = woven pieces ([0, 1].map (printed twoArgv)) tail :=
  rewrites_faithfully handler_twoOf

/-! ## Nothing is left to replace -/

theorem IsPlaceholder.head_not {m : Bytes} (h : IsPlaceholder m) {b : UInt8} (hb : b ≠ 37) :
    m.head? ≠ some b := by
  rw [h.head]
  intro heq
  exact hb (Option.some.inj heq).symm

theorem IsPlaceholder.last_not {m : Bytes} (h : IsPlaceholder m) {b : UInt8} (hb : b ≠ 115) :
    m.getLast? ≠ some b := by
  rw [h.last]
  intro heq
  exact hb (Option.some.inj heq).symm

/-- No placeholder has an `x` in it. -/
theorem IsPlaceholder.no_x {m : Bytes} (h : IsPlaceholder m) : 120 ∉ m := by
  intro hx
  rcases h.letter hx with hx | hx | hx
  · exact absurd hx (by decide)
  · exact absurd hx (by decide)
  · exact absurd hx (by decide)

/-- Hexadecimal digits are no place for a placeholder to begin. -/
theorem free_hexDigits (n a : Nat) {s : Bytes} (h : Free IsPlaceholder s) :
    Free IsPlaceholder (hexDigits n a ++ s) := by
  refine Free.append_left (fun m hm b hb => hm.head_not ?_) (fun m hm => hm.ne_nil) h
  exact hexDigits_all (p := fun b => b ≠ 37) (by decide) n a b hb

/-- No placeholder comes about around an address. -/
theorem free_printPtr {lit s : Bytes} (addr : UInt64) (hlit : Free IsPlaceholder lit)
    (hs : Free IsPlaceholder s) : Free IsPlaceholder (lit ++ printPtr addr ++ s) := by
  have hseam : lit ++ printPtr addr ++ s =
      (lit ++ [48]) ++ 120 :: (hexDigits 16 addr.toNat ++ s) := by
    rw [printPtr]
    simp
  rw [hseam]
  refine Free.append_cons (fun m hm => hm.no_x) ?_ (free_hexDigits 16 _ hs)
  exact Free.concat (fun m hm => hm.last_not (by decide)) (fun m hm => hm.ne_nil) hlit

/-- What is printed for an argument there is, is its address. -/
theorem printed_of_lt {argv : List Arg} {n : Nat} (h : n < argv.length) :
    ∃ addr, printed argv n = printPtr addr := by
  refine ⟨argv[n].addr, ?_⟩
  rw [printed, List.getElem?_eq_getElem h]

theorem free_woven {argv : List Arg} {tail : Bytes} (htail : Free IsPlaceholder tail) :
    ∀ {pieces : List (Bytes × Bytes)} {selected : List Nat},
      (∀ p ∈ pieces, Free IsPlaceholder p.1) → (∀ n ∈ selected, n < argv.length) →
      Free IsPlaceholder (woven pieces (selected.map (printed argv)) tail)
  | [], _, _, _ => by
      rw [woven]
      · exact htail
      · intro lit m pieces addr addrs heq
        cases heq
  | (lit, m) :: pieces, [], _, _ => by
      rw [List.map_nil, woven]
      · exact htail
      · intro lit' m' pieces' addr addrs _ heq
        cases heq
  | (lit, m) :: pieces, n :: selected, hp, hn => by
      obtain ⟨addr, haddr⟩ := printed_of_lt (hn n List.mem_cons_self)
      have hrest := free_woven htail (fun p h => hp p (List.mem_cons_of_mem _ h))
        (fun k h => hn k (List.mem_cons_of_mem _ h))
      rw [List.map_cons, woven, haddr]
      exact free_printPtr addr (hp _ List.mem_cons_self) hrest

/-- A text without placeholders is left as it is. -/
theorem handler_of_free {s : Bytes} (h : Free IsPlaceholder s) (argv : List Arg)
    (numStr : Vector UInt8 10) : policyIdentifierHandler s argv numStr = .done s [] := by
  have hnone : regexec (s.drop 0) = none := by
    rw [List.drop_zero]
    exact regexec_of_free h
  rw [policyIdentifierHandler, identLoop_step, identStep_none hnone]
  show IdentOut.done ([] ++ (s.drop 0).take (s.length - 0)) [] = .done s []
  rw [List.nil_append, List.drop_zero, Nat.sub_zero, List.take_length]

/-- **Rewriting is complete and idempotent.** -/
theorem rewriting_complete {content res : Bytes} {argv : List Arg} {numStr : Vector UInt8 10}
    {selected : List Nat}
    (h : policyIdentifierHandler content argv numStr = .done res selected) :
    Free IsPlaceholder res ∧
      ∀ argv' numStr', policyIdentifierHandler res argv' numStr' = .done res [] := by
  obtain ⟨-, hlt, rfl⟩ := handler_done h
  obtain ⟨hlits, htail⟩ := (cut_split content).free fun m hm => hm.ne_nil
  have hfree := @free_woven argv _ htail _ _ hlits hlt
  exact ⟨hfree, handler_of_free hfree⟩

theorem rewriting_complete_twoOf : Free IsPlaceholder twoRes ∧
    ∀ argv' numStr', policyIdentifierHandler twoRes argv' numStr' = .done twoRes [] :=
  rewriting_complete handler_twoOf

end YaojJudger
