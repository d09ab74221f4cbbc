/-
# `YaojJudger.Overrun` — the ten bytes of `num_str`

For a match of length `len` the code copies the `len - 2` digits to `num_str`
and writes the terminator to `num_str[len - 1]`.  The pattern takes any number
of digits, the buffer has room for ten bytes:

    %00000001s      8 digits   bytes 0 … 7, terminator at 9
    %000000001s     9 digits   bytes 0 … 8, terminator at 10

so what keeps the writes inside is that no placeholder has more than eight
digits (`writes_in_bounds_iff`).  In a given run only the placeholders it comes
to count: those up to the first that is read as the number of no argument.
-/
import YaojJudger.Placeholder
import Mathlib.Logic.Relation

namespace YaojJudger

/-- The indices of `num_str` written for a match of length `len`: those of
`strncpy(num_str, …, len - 2)`, and that of the terminator. -/
def numStrWrites (len : Nat) : List Nat := List.range (len - 2) ++ [len - 1]

/-- `while (1)` goes from `st` to `st'` in one iteration. -/
def Iterates (content : Bytes) (argv : List Arg) (st st' : IdentState) : Prop :=
  identStep content argv st = .inl st'

/-- The match met in `st`, if there is one, is stored inside `num_str`. -/
def StoresInside (content : Bytes) (st : IdentState) : Prop :=
  ∀ so eo, regexec (content.drop st.pos) = some (so, eo) → ∀ i ∈ numStrWrites (eo - so), i < 10

/-- Every match met from `st` on is. -/
def InsideFrom (content : Bytes) (argv : List Arg) (st : IdentState) : Prop :=
  ∀ st', Relation.ReflTransGen (Iterates content argv) st st' → StoresInside content st'

/-- All writes of the handler are inside `num_str`. -/
def WritesInside (content : Bytes) (argv : List Arg) (numStr : Vector UInt8 10) : Prop :=
  InsideFrom content argv (identStart numStr)

/-- The placeholders are short, up to and including the first one that is read as
the number of no argument. -/
def MetShort (argc : Nat) : Vector UInt8 10 → List Bytes → Prop
  | _, [] => True
  | numStr, ds :: dss =>
      Short ds ∧ (readAs numStr ds < argc → MetShort argc ((storeDigits numStr ds).getD numStr) dss)

/-! ## One match -/

theorem numStrWrites_inside (n : Nat) : (∀ i ∈ numStrWrites (n + 2), i < 10) ↔ n ≤ 8 := by
  rw [numStrWrites]
  constructor
  · intro h
    have hlast := h (n + 2 - 1) (List.mem_append_right _ (List.mem_singleton.mpr rfl))
    omega
  · intro hn i hi
    rcases List.mem_append.mp hi with hi | hi
    · have := List.mem_range.mp hi
      omega
    · have := List.mem_singleton.mp hi
      omega

section
variable {content : Bytes} {argv : List Arg} {st : IdentState}

theorem storesInside_match {lit ds : Bytes}
    (h : regexec (content.drop st.pos) = some (lit.length, lit.length + ds.length + 2)) :
    StoresInside content st ↔ Short ds := by
  have hlen : lit.length + ds.length + 2 - lit.length = ds.length + 2 := by omega
  rw [Short, ← numStrWrites_inside, ← hlen]
  constructor
  · intro hin
    exact hin _ _ h
  · intro hin so eo hm
    obtain ⟨rfl, rfl⟩ := Prod.mk.inj (Option.some.inj (hm.symm.trans h))
    exact hin

/-! ## All of them -/

/-- What is met from `st` on is what is met in `st`, and from the next state on. -/
theorem insideFrom_iff : InsideFrom content argv st ↔
    StoresInside content st ∧
      ∀ st', Iterates content argv st st' → InsideFrom content argv st' := by
  constructor
  · intro h
    refine ⟨h st .refl, ?_⟩
    intro st₁ hstep st' hrest
    exact h st' (.head hstep hrest)
  · rintro ⟨hhere, hnext⟩ st' hrun
    rcases Relation.ReflTransGen.cases_head hrun with rfl | ⟨st₁, hstep, hrest⟩
    · exact hhere
    · exact hnext st₁ hstep st' hrest

/-- **In a run, the placeholders it comes to must be short.** -/
theorem insideFrom_iff_metShort (hlas : st.las = st.pos) :
    InsideFrom content argv st ↔
      MetShort argv.length st.numStr (digits (placeholders (content.drop st.pos))) := by
  induction hn : content.length - st.pos using Nat.strong_induction_on generalizing st with
  | _ n ih =>
      rw [insideFrom_iff]
      cases hm : regexec (content.drop st.pos) with
      | none =>
          have hstep := @identStep_none content argv st hm
          rw [placeholders, split_none hm]
          refine ⟨fun _ => trivial, fun _ => ⟨?_, ?_⟩⟩
          · intro so eo h
            cases hm.symm.trans h
          · intro st' h
            cases hstep.symm.trans h
      | some m =>
          obtain ⟨so, eo⟩ := m
          obtain ⟨lit, ds, rest, hdrop, rfl, rfl, -, hds⟩ := regexec_spec hm
          have hrest := drop_match hdrop
          have hpos := pos_lt_of_match hm
          have hstep := @identStep_match content argv st lit ds rest hlas hdrop hds hm
          have hdigits : digits (placeholders (content.drop st.pos)) =
              ds :: digits (placeholders rest) := by
            rw [placeholders, hdrop, split_append (hdrop ▸ hm)]
            rfl
          have hiter : ∀ st', Iterates content argv st st' ↔ identStep content argv st = .inl st' :=
            fun _ => Iff.rfl
          rw [storesInside_match hm, hdigits, MetShort]
          simp only [hiter, hstep]
          refine and_congr_right fun hshort => ?_
          obtain ⟨numStr, hst⟩ := Option.isSome_iff_exists.mp
            ((@storeDigits_isSome_iff st.numStr ds).mpr hshort)
          rw [hst]
          by_cases hlt : readAs st.numStr ds < argv.length
          · simp only [hlt, if_true, forall_const, Option.getD_some, Sum.inl.injEq, forall_eq']
            rw [ih _ ?_ rfl rfl, hrest]
            simp only
            omega
          · simp only [hlt, if_false, false_implies, iff_true]
            intro st' heq
            cases heq

end

/-! ## Texts none of whose runs writes behind the buffer -/

/-- At most eight digits and the byte behind them are read as a number below
`10 ^ 9`. -/
theorem readAs_lt {numStr : Vector UInt8 10} {ds : Bytes} (hds : ∀ b ∈ ds, isDigit b = true)
    (hshort : Short ds) : readAs numStr ds < 10 ^ 9 := by
  have hpow : ∀ n ≤ 9, 10 ^ n ≤ 10 ^ 9 := fun n hn => Nat.pow_le_pow_right (by decide) hn
  unfold Short at hshort
  unfold readAs
  split
  case isTrue hb =>
    refine Nat.lt_of_lt_of_le (decimal_lt ?_) (hpow _ ?_)
    · intro b hm
      rcases List.mem_append.mp hm with hm | hm
      · exact hds b hm
      · obtain rfl := List.mem_singleton.mp hm
        exact hb
    · rw [List.length_append, List.length_singleton]
      omega
  case isFalse => exact Nat.lt_of_lt_of_le (decimal_lt hds) (hpow _ (by omega))

/-- With enough arguments, all placeholders up to the first long one are met. -/
theorem metShort_iff {argc : Nat} (hargc : 10 ^ 9 ≤ argc) :
    ∀ {dss : List Bytes} (numStr : Vector UInt8 10), (∀ ds ∈ dss, ∀ b ∈ ds, isDigit b = true) →
      (MetShort argc numStr dss ↔ ∀ ds ∈ dss, Short ds)
  | [], _, _ => ⟨fun _ ds h => absurd h List.not_mem_nil, fun _ => trivial⟩
  | ds :: dss, numStr, hdigits => by
      have ih := metShort_iff hargc ((storeDigits numStr ds).getD numStr)
        (fun ds' h => hdigits ds' (List.mem_cons_of_mem ds h))
      rw [MetShort, ih, List.forall_mem_cons]
      refine and_congr_right fun hshort => ?_
      have hread := @readAs_lt numStr ds (hdigits ds List.mem_cons_self) hshort
      exact ⟨fun h => h (Nat.lt_of_lt_of_le hread hargc), fun h _ => h⟩

theorem metShort_of_all {argc : Nat} : ∀ {dss : List Bytes} (numStr : Vector UInt8 10),
    (∀ ds ∈ dss, Short ds) → MetShort argc numStr dss
  | [], _, _ => trivial
  | _ :: _, _, h => ⟨h _ List.mem_cons_self, fun _ =>
      metShort_of_all _ fun ds' h' => h ds' (List.mem_cons_of_mem _ h')⟩

/-- **When the digits stay inside `num_str`**: in one run, and in all runs on a
text. -/
theorem writes_inside_iff (content : Bytes) :
    (∀ argv numStr, WritesInside content argv numStr ↔
      MetShort argv.length numStr (digits (placeholders content))) ∧
    ((∀ argv numStr, WritesInside content argv numStr) ↔
      ∀ p ∈ placeholders content, p.ds.length ≤ 8) := by
  have hrun : ∀ argv numStr, WritesInside content argv numStr ↔
      MetShort argv.length numStr (digits (placeholders content)) :=
    fun argv numStr => insideFrom_iff_metShort rfl
  refine ⟨hrun, ?_⟩
  constructor
  · intro h p hp
    obtain ⟨argv, hargv⟩ : ∃ argv : List Arg, argv.length = 10 ^ 9 :=
      ⟨List.replicate _ ⟨0, []⟩, List.length_replicate⟩
    have hmet := (hrun argv (Vector.replicate 10 0)).mp (h _ _)
    refine (metShort_iff hargv.ge _ ?_).mp hmet p.ds (List.mem_map_of_mem hp)
    intro ds hds
    obtain ⟨q, hq, rfl⟩ := List.mem_map.mp hds
    exact (placeholders_digits content q hq).2
  · intro h argv numStr
    refine (hrun argv numStr).mpr (metShort_of_all numStr ?_)
    intro ds hds
    obtain ⟨q, hq, rfl⟩ := List.mem_map.mp hds
    exact h q hq

/-- `%000000001s`: nine digits. -/
def nineDigits : Bytes := 37 :: (List.replicate 8 48 ++ [49, 115])

/-- The terminator goes to `num_str[10]`. -/
theorem nineDigits_overrun :
    ¬ WritesInside nineDigits [⟨4096, []⟩, ⟨8192, []⟩] (Vector.replicate 10 0) ∧
      policyIdentifierHandler nineDigits [⟨4096, []⟩, ⟨8192, []⟩] (Vector.replicate 10 0) =
        .overrun := by
  have hmatch : regexec (nineDigits.drop 0) = some (0, 11) := by decide
  refine ⟨?_, ?_⟩
  · intro h
    have hin := h _ .refl 0 11 hmatch 10 (by decide)
    exact absurd hin (by decide)
  · have hstep : identStep nineDigits [⟨4096, []⟩, ⟨8192, []⟩]
        (identStart (Vector.replicate 10 0)) = .inr .overrun := rfl
    show identLoop nineDigits [⟨4096, []⟩, ⟨8192, []⟩] (identStart (Vector.replicate 10 0)) =
      .overrun
    rw [identLoop_step, hstep]

end YaojJudger
