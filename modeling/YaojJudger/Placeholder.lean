/-
# `YaojJudger.Placeholder` — what a placeholder is replaced by

`policy_identifier_handler` against its specification.  A policy text is cut
into placeholders, each with the text before it (`split`); a placeholder with
the digits `ds` stands for the argument number `decimal ds`.

The code reads the number out of a buffer in which the digits are followed by
one byte it has not written, and only then by the terminator:

    0 … n-1   the digits
    n         whatever was there: the initial contents, a digit of an earlier,
              longer placeholder, or the terminator of one a byte shorter
    n+1       0

so a digit at `n` is read as one more digit (`readAs`).  `readLoop` is the loop
by recursion on the placeholders, `identLoop_eq_readLoop` says it is the one of
the source, and `decodes_iff` when its outcome is the specified one.
-/
import YaojJudger.Policy

namespace YaojJudger

/-! ## Digits -/

theorem isDigit_iff {b : UInt8} : isDigit b = true ↔ 48 ≤ b.toNat ∧ b.toNat ≤ 57 := by
  simp [isDigit, UInt8.le_iff_toNat_le]

@[simp] theorem decimal_nil : decimal [] = 0 := rfl

@[simp] theorem decimal_append_singleton (ds : Bytes) (b : UInt8) :
    decimal (ds ++ [b]) = 10 * decimal ds + (b.toNat - 48) := by
  simp [decimal, List.foldl_append]

/-- `n` digits stand for a number below `10 ^ n`. -/
theorem decimal_lt {ds : Bytes} (h : ∀ b ∈ ds, isDigit b = true) : decimal ds < 10 ^ ds.length := by
  induction ds using List.reverseRecOn with
  | nil => decide
  | append_singleton ds b ih =>
      have hb := isDigit_iff.mp (h b (by simp))
      have hds := ih fun x hx => h x (List.mem_append_left _ hx)
      rw [decimal_append_singleton, List.length_append, List.length_singleton, Nat.pow_succ]
      omega

theorem takeWhile_digits {ds rest : Bytes} (h : ∀ b ∈ ds, isDigit b = true) :
    (ds ++ rest).takeWhile isDigit = ds ++ rest.takeWhile isDigit :=
  List.takeWhile_append_of_pos h

/-- What all hexadecimal digits have in common, all of `hexDigits` have. -/
theorem hexDigits_all {p : UInt8 → Prop} (h : ∀ d : Fin 16, p (hexDigit d)) :
    ∀ (n a : Nat), ∀ b ∈ hexDigits n a, p b
  | 0, _, _, hb => absurd hb List.not_mem_nil
  | n + 1, a, b, hb => by
      rw [hexDigits] at hb
      split at hb
      case isTrue hlt =>
        obtain rfl := List.mem_singleton.mp hb
        exact h ⟨a, hlt⟩
      case isFalse =>
        rcases List.mem_append.mp hb with hb | hb
        · exact hexDigits_all h n _ b hb
        · obtain rfl := List.mem_singleton.mp hb
          exact h ⟨a % 16, Nat.mod_lt _ (by decide)⟩

/-- The value of a lower-case hexadecimal digit. -/
def hexVal (b : UInt8) : Option Nat :=
  if 48 ≤ b ∧ b ≤ 57 then some (b.toNat - 48)
  else if 97 ≤ b ∧ b ≤ 102 then some (b.toNat - 87)
  else none

def hexValue (ds : Bytes) : Nat := ds.foldl (fun n b => 16 * n + (hexVal b).getD 0) 0

theorem hexVal_hexDigit : ∀ d : Fin 16, hexVal (hexDigit d) = some d.val := by decide

theorem hexValue_hexDigits : ∀ (n a : Nat), a < 16 ^ n → hexValue (hexDigits n a) = a
  | 0, a, h => by
      obtain rfl : a = 0 := by omega
      rfl
  | n + 1, a, h => by
      rw [hexDigits]
      split
      case isTrue hlt =>
        simp [hexValue, hexVal_hexDigit ⟨a, hlt⟩]
      case isFalse =>
        have hdiv : a / 16 < 16 ^ n := Nat.div_lt_of_lt_mul (by rwa [Nat.pow_succ, mul_comm] at h)
        have ih := hexValue_hexDigits n (a / 16) hdiv
        rw [hexValue] at ih ⊢
        rw [List.foldl_append, ih]
        simp only [List.foldl_cons, List.foldl_nil,
          hexVal_hexDigit ⟨a % 16, Nat.mod_lt _ (by decide)⟩, Option.getD_some]
        omega

/-- Different addresses are printed differently. -/
theorem printPtr_inj {a b : UInt64} : printPtr a = printPtr b ↔ a = b := by
  refine ⟨fun h => ?_, fun h => by rw [h]⟩
  have hdigits : hexDigits 16 a.toNat = hexDigits 16 b.toNat :=
    (List.cons.inj (List.cons.inj h).2).2
  rw [← UInt64.toNat_inj, ← hexValue_hexDigits 16 _ a.toNat_lt, hdigits,
    hexValue_hexDigits 16 _ b.toNat_lt]

/-! ## The matches of the pattern -/

/-- What a match at the head of the text looks like. -/
theorem matchHere_spec {s : Bytes} {n : Nat} (h : matchHere s = some n) :
    ∃ ds rest, s = 37 :: (ds ++ 115 :: rest) ∧ n = ds.length + 2 ∧ ds ≠ [] ∧
      ∀ b ∈ ds, isDigit b = true := by
  unfold matchHere at h
  split at h
  case h_2 => cases h
  case h_1 rest =>
    split at h
    case h_1 => cases h
    case h_3 => cases h
    case h_2 tl hd hne =>
      obtain rfl := Option.some.inj h
      refine ⟨rest.takeWhile isDigit, tl, ?_, rfl, hne, ?_⟩
      · rw [← hd, List.takeWhile_append_dropWhile]
      · exact fun b hb => List.all_eq_true.mp List.all_takeWhile b hb

/-- A match cuts the text into what is before it, its digits, and the rest. -/
theorem regexec_spec : ∀ {s : Bytes} {so eo : Nat}, regexec s = some (so, eo) →
    ∃ lit ds rest, s = lit ++ 37 :: (ds ++ 115 :: rest) ∧ so = lit.length ∧
      eo = lit.length + ds.length + 2 ∧ ds ≠ [] ∧ ∀ b ∈ ds, isDigit b = true
  | [], _, _, h => nomatch h
  | b :: s, so, eo, h => by
      unfold regexec at h
      split at h
      case h_1 n hn =>
        obtain ⟨rfl, rfl⟩ := Prod.mk.inj (Option.some.inj h)
        obtain ⟨ds, rest, hs, rfl, hne, hds⟩ := matchHere_spec hn
        exact ⟨[], ds, rest, hs, rfl, by simp, hne, hds⟩
      case h_2 =>
        obtain ⟨⟨so', eo'⟩, hm, he⟩ := Option.map_eq_some_iff.mp h
        obtain ⟨rfl, rfl⟩ := Prod.mk.inj he
        obtain ⟨lit, ds, rest, rfl, rfl, rfl, hne, hds⟩ := regexec_spec hm
        refine ⟨b :: lit, ds, rest, rfl, rfl, ?_, hne, hds⟩
        simp only [List.length_cons]
        omega

/-- A placeholder: the text before it, and its digits. -/
structure Placeholder where
  lit : Bytes
  ds : Bytes
  deriving DecidableEq, Repr

/-- The placeholders of a text, and what follows the last one. -/
def split (s : Bytes) : List Placeholder × Bytes :=
  match _h : regexec s with
  | some (so, eo) =>
      let r := split (s.drop eo)
      (⟨s.take so, (s.drop (so + 1)).take (eo - so - 2)⟩ :: r.1, r.2)
  | none => ([], s)
termination_by s.length
decreasing_by
  have := regexec_bound _h
  simp only [List.length_drop]
  omega

def placeholders (s : Bytes) : List Placeholder := (split s).1

theorem split_none {s : Bytes} (h : regexec s = none) : split s = ([], s) := by
  rw [split]
  split
  case h_1 so eo h' => rw [h] at h'; cases h'
  case h_2 => rfl

theorem split_some {s : Bytes} {so eo : Nat} (h : regexec s = some (so, eo)) :
    split s = (⟨s.take so, (s.drop (so + 1)).take (eo - so - 2)⟩ :: (split (s.drop eo)).1,
      (split (s.drop eo)).2) := by
  rw [split]
  split
  case h_1 so' eo' h' =>
    obtain ⟨rfl, rfl⟩ := Prod.mk.inj (Option.some.inj (h.symm.trans h'))
    rfl
  case h_2 h' => rw [h] at h'; cases h'

/-- `split` on a text cut at its first match. -/
theorem split_append {lit ds rest : Bytes}
    (h : regexec (lit ++ 37 :: (ds ++ 115 :: rest)) =
      some (lit.length, lit.length + ds.length + 2)) :
    split (lit ++ 37 :: (ds ++ 115 :: rest)) = (⟨lit, ds⟩ :: (split rest).1, (split rest).2) := by
  have hdrop : (lit ++ 37 :: (ds ++ 115 :: rest)).drop (lit.length + ds.length + 2) = rest := by
    rw [Nat.add_assoc, List.drop_append]
    simp
  have hds : ((lit ++ 37 :: (ds ++ 115 :: rest)).drop (lit.length + 1)).take
      (lit.length + ds.length + 2 - lit.length - 2) = ds := by
    have : lit.length + ds.length + 2 - lit.length - 2 = ds.length := by omega
    rw [this, List.drop_append, List.drop_eq_nil_of_le (by omega)]
    simp
  rw [split_some h, hdrop, hds]
  simp

/-- The digits of a placeholder are digits. -/
theorem placeholders_digits (s : Bytes) :
    ∀ p ∈ placeholders s, p.ds ≠ [] ∧ ∀ b ∈ p.ds, isDigit b = true := by
  induction hn : s.length using Nat.strong_induction_on generalizing s with
  | _ n ih =>
      cases hm : regexec s with
      | none =>
          intro p hp
          rw [placeholders, split_none hm] at hp
          exact absurd hp List.not_mem_nil
      | some m =>
          obtain ⟨so, eo⟩ := m
          obtain ⟨lit, ds, rest, rfl, rfl, rfl, hne, hds⟩ := regexec_spec hm
          intro p hp
          rw [placeholders, split_append hm] at hp
          rcases List.mem_cons.mp hp with rfl | hp
          · exact ⟨hne, hds⟩
          · refine ih rest.length ?_ rest rfl p hp
            rw [← hn]
            simp only [List.length_append, List.length_cons]
            omega

/-! ## Reading a number out of the buffer -/

/-- The byte behind the digits. -/
def stale (numStr : Vector UInt8 10) (ds : Bytes) : UInt8 := numStr.toList.getD ds.length 0

/-- The number the code reads for the digits `ds`. -/
def readAs (numStr : Vector UInt8 10) (ds : Bytes) : Nat :=
  if isDigit (stale numStr ds) then decimal (ds ++ [stale numStr ds]) else decimal ds

/-- The buffer with the digits stored. -/
theorem storeDigits_toList {numStr numStr' : Vector UInt8 10} {ds : Bytes}
    (h : storeDigits numStr ds = some numStr') :
    numStr'.toList = ds ++ stale numStr ds :: 0 :: numStr.toList.drop (ds.length + 2) := by
  unfold storeDigits at h
  split at h
  case isFalse => cases h
  case isTrue hlen =>
    obtain rfl := Option.some.inj h
    refine List.ext_getElem (by simp; omega) fun i h₁ h₂ => ?_
    simp only [Vector.length_toList] at h₁
    simp only [Vector.getElem_toList, Vector.getElem_ofFn, List.getElem_append, stale]
    rcases Nat.lt_trichotomy i ds.length with hi | rfl | hi
    · have hne : i ≠ ds.length + 1 := by omega
      grind
    · grind
    · grind

/-- `atoi` of it. -/
theorem atoi_storeDigits {numStr numStr' : Vector UInt8 10} {ds : Bytes}
    (hds : ∀ b ∈ ds, isDigit b = true) (h : storeDigits numStr ds = some numStr') :
    (atoi numStr'.toList).toInt = readAs numStr ds := by
  have hlen : ds.length + 1 < 10 := by
    unfold storeDigits at h
    split at h
    case isTrue hlen => exact hlen
    case isFalse => cases h
  have hsmall : ∀ xs : Bytes, (∀ b ∈ xs, isDigit b = true) → xs.length ≤ 9 →
      (Int32.ofNat (decimal xs)).toInt = decimal xs := by
    intro xs hxs hle
    have hlt := decimal_lt hxs
    have hpow : 10 ^ xs.length ≤ 10 ^ 9 := Nat.pow_le_pow_right (by decide) hle
    exact Int32.toInt_ofNat_of_lt (by omega)
  rw [atoi, storeDigits_toList h, takeWhile_digits hds]
  unfold readAs
  split
  case isTrue hb =>
    have htw : (stale numStr ds :: 0 :: numStr.toList.drop (ds.length + 2)).takeWhile isDigit =
        [stale numStr ds] := by
      simp only [List.takeWhile_cons, hb, if_true]
      rfl
    rw [htw]
    refine hsmall _ ?_ (by simp; omega)
    intro b hm
    rcases List.mem_append.mp hm with hm | hm
    · exact hds b hm
    · obtain rfl := List.mem_singleton.mp hm; exact hb
  case isFalse hb =>
    have htw : (stale numStr ds :: 0 :: numStr.toList.drop (ds.length + 2)).takeWhile isDigit =
        [] := by
      simp only [List.takeWhile_cons, hb]
      rfl
    rw [htw, List.append_nil]
    exact hsmall ds hds (by omega)

/-! ## The loop, one iteration after another -/

/-- The address of `argv[n]`, printed. -/
def printed (argv : List Arg) (n : Nat) : Bytes :=
  match argv[n]? with
  | some a => printPtr a.addr
  | none => []

/-- One iteration of `while (1)`: the variables after it, or how the loop ends. -/
def identStep (content : Bytes) (argv : List Arg) (st : IdentState) : IdentState ⊕ IdentOut :=
  match regexec (content.drop st.pos) with
  | some (so, eo) =>
      let offset := so + st.pos
      let len := eo - so
      match storeDigits st.numStr ((content.drop (offset + 1)).take (len - 2)) with
      | none => .inr .overrun
      | some numStr =>
          let num := (atoi numStr.toList).toInt
          if 0 ≤ num ∧ num < argv.length then
            let address :=
              match argv[num.toNat]? with
              | some a => printPtr a.addr
              | none => []
            let extraLen : Int := (offset : Int) - st.las + address.length
            .inl
              { pos := st.pos + eo
                las := offset + len
                resLen := st.resLen + extraLen
                result := st.result ++ (content.drop st.las).take (offset - st.las) ++ address
                numStr := numStr
                selected := st.selected ++ [num.toNat] }
          else .inr (.error ePolIdt)
  | none =>
      .inr (.done (st.result ++ (content.drop st.las).take (content.length - st.las)) st.selected)

/-- The variables before the first iteration. -/
def identStart (numStr : Vector UInt8 10) : IdentState :=
  { pos := 0, las := 0, resLen := 1, result := [], numStr := numStr, selected := [] }

section
variable {content : Bytes} {argv : List Arg} {st : IdentState}

theorem identLoop_step : identLoop content argv st =
    match identStep content argv st with
    | .inl st' => identLoop content argv st'
    | .inr out => out := by
  rw [identLoop, identStep]
  cases regexec (content.drop st.pos) with
  | none => rfl
  | some m =>
      obtain ⟨so, eo⟩ := m
      simp only
      cases storeDigits st.numStr ((content.drop (so + st.pos + 1)).take (eo - so - 2)) with
      | none => rfl
      | some numStr =>
          simp only
          split <;> rfl

/-- The last iteration. -/
theorem identStep_none (h : regexec (content.drop st.pos) = none) :
    identStep content argv st =
      .inr (.done (st.result ++ (content.drop st.las).take (content.length - st.las))
        st.selected) := by
  rw [identStep, h]

/-- One iteration, at a match with the digits `ds` after the text `lit`. -/
theorem identStep_match {lit ds rest : Bytes}
    (hlas : st.las = st.pos) (hdrop : content.drop st.pos = lit ++ 37 :: (ds ++ 115 :: rest))
    (hds : ∀ b ∈ ds, isDigit b = true)
    (h : regexec (content.drop st.pos) = some (lit.length, lit.length + ds.length + 2)) :
    identStep content argv st =
      match storeDigits st.numStr ds with
      | none => .inr .overrun
      | some numStr =>
          if readAs st.numStr ds < argv.length then
            .inl
              { pos := st.pos + (lit.length + ds.length + 2)
                las := st.pos + (lit.length + ds.length + 2)
                resLen := st.resLen + (lit.length + (printed argv (readAs st.numStr ds)).length)
                result := st.result ++ lit ++ printed argv (readAs st.numStr ds)
                numStr := numStr
                selected := st.selected ++ [readAs st.numStr ds] }
          else .inr (.error ePolIdt) := by
  have hcopy : (content.drop (lit.length + st.pos + 1)).take
      (lit.length + ds.length + 2 - lit.length - 2) = ds := by
    have h₁ : lit.length + st.pos + 1 = st.pos + (lit.length + 1) := by omega
    have h₂ : lit.length + ds.length + 2 - lit.length - 2 = ds.length := by omega
    rw [h₁, h₂, ← List.drop_drop, hdrop, List.drop_append, List.drop_eq_nil_of_le (by omega)]
    simp
  have hlit : (content.drop st.las).take (lit.length + st.pos - st.las) = lit := by
    have h₁ : lit.length + st.pos - st.las = lit.length := by omega
    rw [h₁, hlas, hdrop]
    simp
  rw [identStep, h]
  simp only [hcopy, hlit]
  cases hst : storeDigits st.numStr ds with
  | none => rfl
  | some numStr =>
      have hnum := atoi_storeDigits hds hst
      simp only [hnum, Int.toNat_natCast, Int.natCast_nonneg, true_and, Int.ofNat_lt]
      split
      case isFalse => rfl
      case isTrue hlt =>
        have h₁ : lit.length + st.pos + (lit.length + ds.length + 2 - lit.length) =
            st.pos + (lit.length + ds.length + 2) := by omega
        have h₂ : ((lit.length + st.pos : Nat) : Int) - st.las = lit.length := by omega
        simp only [h₁, h₂]
        rfl

/-- What is behind the match. -/
theorem drop_match {lit ds rest : Bytes}
    (hdrop : content.drop st.pos = lit ++ 37 :: (ds ++ 115 :: rest)) :
    content.drop (st.pos + (lit.length + ds.length + 2)) = rest := by
  rw [← List.drop_drop, hdrop, List.drop_append, List.drop_eq_nil_of_le (by omega)]
  have : lit.length + ds.length + 2 - lit.length = ds.length + 1 + 1 := by omega
  simp [this]

/-- Where a placeholder is found, there is text left. -/
theorem pos_lt_of_match {m : Nat × Nat} (h : regexec (content.drop st.pos) = some m) :
    st.pos < content.length := by
  by_contra hge
  rw [List.drop_eq_nil_of_le (by omega)] at h
  cases h

end

/-! ## The loop, by recursion on the placeholders -/

/-- The loop from the buffer `numStr` on, with `result` and `selected` so far. -/
def readLoop (argv : List Arg) (tail : Bytes) :
    Vector UInt8 10 → List Placeholder → Bytes → List Nat → IdentOut
  | _, [], result, selected => .done (result ++ tail) selected
  | numStr, p :: ps, result, selected =>
      match storeDigits numStr p.ds with
      | none => .overrun
      | some numStr' =>
          if readAs numStr p.ds < argv.length then
            readLoop argv tail numStr' ps (result ++ p.lit ++ printed argv (readAs numStr p.ds))
              (selected ++ [readAs numStr p.ds])
          else .error ePolIdt

/-- **The loop of the source is the recursion.** -/
theorem identLoop_eq_readLoop (content : Bytes) (argv : List Arg) (st : IdentState)
    (hlas : st.las = st.pos) :
    identLoop content argv st =
      readLoop argv (split (content.drop st.pos)).2 st.numStr (placeholders (content.drop st.pos))
        st.result st.selected := by
  induction hn : content.length - st.pos using Nat.strong_induction_on generalizing st with
  | _ n ih =>
      cases hm : regexec (content.drop st.pos) with
      | none =>
          rw [identLoop_step, identStep_none hm, placeholders, split_none hm, hlas, readLoop]
          show IdentOut.done _ _ = .done _ _
          congr 2
          exact List.take_of_length_le (by simp)
      | some m =>
          obtain ⟨so, eo⟩ := m
          obtain ⟨lit, ds, rest, hdrop, rfl, rfl, -, hds⟩ := regexec_spec hm
          have hrest := drop_match hdrop
          have hpos := pos_lt_of_match hm
          rw [identLoop_step, identStep_match hlas hdrop hds hm, placeholders, hdrop,
            split_append (hdrop ▸ hm), readLoop]
          cases storeDigits st.numStr ds with
          | none => rfl
          | some numStr =>
              simp only
              by_cases hlt : readAs st.numStr ds < argv.length
              · simp only [hlt, if_true]
                rw [ih _ ?_ _ rfl rfl, hrest, placeholders]
                simp only
                omega
              · simp only [hlt, if_false]

/-! ## The numbers read -/

/-- The numbers read for the placeholders with the digits `dss`, one after the
other: each leaves the buffer as `storeDigits` does. -/
def readings : Vector UInt8 10 → List Bytes → List Nat
  | _, [] => []
  | numStr, ds :: dss =>
      readAs numStr ds :: readings ((storeDigits numStr ds).getD numStr) dss

/-- At most eight digits: the terminator stays inside the buffer. -/
def Short (ds : Bytes) : Prop := ds.length ≤ 8

/-- Every placeholder is short and read as the number of an argument. -/
def ReadsAll (argc : Nat) (numStr : Vector UInt8 10) (dss : List Bytes) : Prop :=
  (∀ ds ∈ dss, Short ds) ∧ ∀ v ∈ readings numStr dss, v < argc

/-- Some placeholder is read as a number that is too large; it and those before
it are short, and those before it are read as numbers of arguments. -/
def StopsAt (argc : Nat) (numStr : Vector UInt8 10) (dss : List Bytes) : Prop :=
  ∃ k, (∀ ds ∈ dss.take (k + 1), Short ds) ∧ (∀ v ∈ (readings numStr dss).take k, v < argc) ∧
    ∃ v, (readings numStr dss)[k]? = some v ∧ argc ≤ v

/-- The text with the placeholders replaced by `addrs`. -/
def filled (tail : Bytes) : List Placeholder → List Bytes → Bytes
  | p :: ps, addr :: addrs => p.lit ++ addr ++ filled tail ps addrs
  | _, _ => tail

theorem storeDigits_isSome_iff {numStr : Vector UInt8 10} {ds : Bytes} :
    (storeDigits numStr ds).isSome ↔ Short ds := by
  simp only [storeDigits, Short]
  split
  case isTrue h => exact ⟨fun _ => by omega, fun _ => rfl⟩
  case isFalse h => exact ⟨(fun hs => by cases hs), fun hle => absurd hle (by omega)⟩

section cons
variable {argc : Nat} {numStr : Vector UInt8 10} {ds : Bytes} {dss : List Bytes}

theorem readsAll_cons : ReadsAll argc numStr (ds :: dss) ↔
    Short ds ∧ readAs numStr ds < argc ∧
      ReadsAll argc ((storeDigits numStr ds).getD numStr) dss := by
  simp only [ReadsAll, readings, List.forall_mem_cons]
  tauto

theorem not_stopsAt_nil : ¬ StopsAt argc numStr [] := by
  rintro ⟨k, -, -, v, hv, -⟩
  cases hv

theorem stopsAt_cons : StopsAt argc numStr (ds :: dss) ↔
    Short ds ∧ (argc ≤ readAs numStr ds ∨ readAs numStr ds < argc ∧
      StopsAt argc ((storeDigits numStr ds).getD numStr) dss) := by
  constructor
  · rintro ⟨k, hshort, hlt, v, hv, hle⟩
    cases k with
    | zero =>
        obtain rfl := Option.some.inj hv
        exact ⟨hshort ds (by simp), Or.inl hle⟩
    | succ k =>
        simp only [readings, List.take_succ_cons, List.forall_mem_cons] at hshort hlt
        exact ⟨hshort.1, Or.inr ⟨hlt.1, k, hshort.2, hlt.2, v, hv, hle⟩⟩
  · rintro ⟨hs, hle | ⟨hlt, k, hshort, hall, v, hv, hle⟩⟩
    · exact ⟨0, by simpa using hs, by simp, _, rfl, hle⟩
    · refine ⟨k + 1, ?_, ?_, v, hv, hle⟩
      · simp only [List.take_succ_cons, List.forall_mem_cons]
        exact ⟨hs, hshort⟩
      · simp only [readings, List.take_succ_cons, List.forall_mem_cons]
        exact ⟨hlt, hall⟩

end cons

/-- The digits of some placeholders. -/
abbrev digits (ps : List Placeholder) : List Bytes := ps.map Placeholder.ds

/-- What each outcome of the loop says about the readings. -/
def Explained (argv : List Arg) (tail : Bytes) (numStr : Vector UInt8 10) (ps : List Placeholder)
    (result : Bytes) (selected : List Nat) : IdentOut → Prop
  | .overrun => ¬ ReadsAll argv.length numStr (digits ps) ∧ ¬ StopsAt argv.length numStr (digits ps)
  | .error errnum => errnum = ePolIdt ∧ StopsAt argv.length numStr (digits ps) ∧
      ¬ ReadsAll argv.length numStr (digits ps)
  | .done res sel => ReadsAll argv.length numStr (digits ps) ∧
      ¬ StopsAt argv.length numStr (digits ps) ∧ sel = selected ++ readings numStr (digits ps) ∧
      res = result ++ filled tail ps ((readings numStr (digits ps)).map (printed argv))

theorem readLoop_explained (argv : List Arg) (tail : Bytes) :
    ∀ (ps : List Placeholder) (numStr : Vector UInt8 10) (result : Bytes) (selected : List Nat),
      Explained argv tail numStr ps result selected (readLoop argv tail numStr ps result selected)
  | [], numStr, result, selected => by
      refine ⟨⟨?_, ?_⟩, not_stopsAt_nil, ?_, ?_⟩ <;> simp [digits, readings, filled]
  | p :: ps, numStr, result, selected => by
      rw [readLoop]
      cases hst : storeDigits numStr p.ds with
      | none =>
          have hlong : ¬ Short p.ds := by
            rw [← @storeDigits_isSome_iff numStr p.ds, hst]
            exact Bool.false_ne_true
          exact ⟨fun h => hlong (readsAll_cons.mp h).1, fun h => hlong (stopsAt_cons.mp h).1⟩
      | some numStr' =>
          have hshort : Short p.ds := storeDigits_isSome_iff.mp (by rw [hst]; rfl)
          have hnext : (storeDigits numStr p.ds).getD numStr = numStr' := by rw [hst]; rfl
          simp only
          split
          case isFalse hge =>
            refine ⟨rfl, stopsAt_cons.mpr ⟨hshort, Or.inl (by omega)⟩, fun h => ?_⟩
            exact hge (readsAll_cons.mp h).2.1
          case isTrue hlt =>
            have ih := readLoop_explained argv tail ps numStr'
              (result ++ p.lit ++ printed argv (readAs numStr p.ds))
              (selected ++ [readAs numStr p.ds])
            have hall : ReadsAll argv.length numStr (digits (p :: ps)) ↔
                ReadsAll argv.length numStr' (digits ps) := by
              rw [digits, List.map_cons, readsAll_cons, hnext]
              exact ⟨fun h => h.2.2, fun h => ⟨hshort, hlt, h⟩⟩
            have hstop : StopsAt argv.length numStr (digits (p :: ps)) ↔
                StopsAt argv.length numStr' (digits ps) := by
              rw [digits, List.map_cons, stopsAt_cons, hnext]
              refine ⟨fun h => ?_, fun h => ⟨hshort, Or.inr ⟨hlt, h⟩⟩⟩
              rcases h.2 with hle | h
              · exact absurd hlt (by omega)
              · exact h.2
            revert ih
            cases readLoop argv tail numStr' ps _ _ with
            | overrun => exact fun ih => ⟨fun h => ih.1 (hall.mp h), fun h => ih.2 (hstop.mp h)⟩
            | error errnum =>
                exact fun ih => ⟨ih.1, hstop.mpr ih.2.1, fun h => ih.2.2 (hall.mp h)⟩
            | done res sel =>
                rintro ⟨h₁, h₂, h₃, h₄⟩
                refine ⟨hall.mpr h₁, fun h => h₂ (hstop.mp h), ?_, ?_⟩
                · rw [h₃]
                  simp [digits, readings, hnext]
                · rw [h₄]
                  simp [digits, readings, filled, hnext]

/-- The only error is `E_POL_IDT`. -/
theorem policyIdentifierHandler_error {content : Bytes} {argv : List Arg}
    {numStr : Vector UInt8 10} {errnum : Int}
    (h : policyIdentifierHandler content argv numStr = .error errnum) : errnum = ePolIdt := by
  rw [policyIdentifierHandler, identLoop_eq_readLoop content argv _ rfl] at h
  have hexp := readLoop_explained argv (split (content.drop 0)).2 (placeholders (content.drop 0))
    numStr [] []
  rw [h] at hexp
  exact hexp.1

/-- The specification: some placeholder names no argument and the error says so,
or every placeholder is replaced by the address of the argument it names. -/
def Decodes (content : Bytes) (argv : List Arg) : IdentOut → Prop
  | .overrun => False
  | .error errnum => errnum = ePolIdt ∧ ∃ p ∈ placeholders content, argv.length ≤ decimal p.ds
  | .done res selected =>
      (∀ p ∈ placeholders content, decimal p.ds < argv.length) ∧
      selected.map (printed argv) =
        (placeholders content).map (fun p => printed argv (decimal p.ds)) ∧
      res = filled (split content).2 (placeholders content)
        ((placeholders content).map fun p => printed argv (decimal p.ds))

/-! ## Which byte is behind the digits -/

/-- The buffer after the digits `dss` have been stored, one after the other. -/
def bufferAfter : Vector UInt8 10 → List Bytes → Vector UInt8 10
  | numStr, [] => numStr
  | numStr, ds :: dss => bufferAfter ((storeDigits numStr ds).getD numStr) dss

theorem bufferAfter_append_singleton {numStr : Vector UInt8 10} {dss : List Bytes} {ds : Bytes} :
    bufferAfter numStr (dss ++ [ds]) =
      (storeDigits (bufferAfter numStr dss) ds).getD (bufferAfter numStr dss) := by
  induction dss generalizing numStr with
  | nil => rfl
  | cons ds' dss ih => exact ih

/-- The byte at place `n` of a buffer that held `numStr` at first, by the digits of the
placeholders before, the last one first: a digit of the last one with more than `n` of
them, unless one with `n - 1` came after it and ended there; or what was there at first. -/
def behind (numStr : Vector UInt8 10) (n : Nat) : List Bytes → UInt8
  | [] => numStr.toList.getD n 0
  | ds :: before =>
      if n < ds.length then ds.getD n 0
      else if n = ds.length + 1 then 0
      else behind numStr n before

theorem getD_bufferAfter {numStr : Vector UInt8 10} {n : Nat} {dss : List Bytes}
    (h : ∀ ds ∈ dss, Short ds) : (bufferAfter numStr dss).toList.getD n 0 =
      behind numStr n dss.reverse := by
  induction dss using List.reverseRecOn with
  | nil => rfl
  | append_singleton dss ds ih =>
      have hds : Short ds := h ds (by simp)
      obtain ⟨numStr', hst⟩ : ∃ numStr', storeDigits (bufferAfter numStr dss) ds = some numStr' :=
        Option.isSome_iff_exists.mp (storeDigits_isSome_iff.mpr hds)
      have hbefore := ih fun x hx => h x (List.mem_append_left _ hx)
      rw [bufferAfter_append_singleton, hst, Option.getD_some, storeDigits_toList hst,
        List.reverse_append, List.reverse_singleton, List.singleton_append, behind, ← hbefore]
      rcases Nat.lt_trichotomy n ds.length with hn | rfl | hn
      · rw [if_pos hn, List.getD_append _ _ _ _ hn]
      · rw [if_neg (Nat.lt_irrefl _), if_neg (by omega), List.getD_append_right _ _ _ _ le_rfl,
          Nat.sub_self]
        rfl
      · rw [if_neg (by omega), List.getD_append_right _ _ _ _ hn.le]
        obtain ⟨i, hi⟩ : ∃ i, n - ds.length = i + 1 := ⟨n - ds.length - 1, by omega⟩
        rw [hi, List.getD_cons_succ]
        cases i with
        | zero => rw [if_pos (by omega), List.getD_cons_zero]
        | succ i =>
            have hlen : ds.length + 2 + i = n := by omega
            rw [if_neg (by omega), List.getD_cons_succ]
            simp [hlen]

/-- Which number is read, by the byte behind the digits. -/
theorem readAs_bufferAfter {numStr : Vector UInt8 10} {before : List Bytes} {ds : Bytes}
    (h : ∀ x ∈ before, Short x) : readAs (bufferAfter numStr before) ds =
      if isDigit (behind numStr ds.length before.reverse) then
        10 * decimal ds + ((behind numStr ds.length before.reverse).toNat - 48)
      else decimal ds := by
  rw [readAs, stale, getD_bufferAfter h, decimal_append_singleton]

section splits
variable {argc : Nat} {numStr : Vector UInt8 10} {x ds : Bytes} {xs dss : List Bytes}

/-- The places of a list are its head and those of its tail. -/
theorem forall_place_cons {P : List Bytes → Bytes → Prop} :
    (∀ before ds after, x :: xs = before ++ ds :: after → P before ds) ↔
      P [] x ∧ ∀ before ds after, xs = before ++ ds :: after → P (x :: before) ds := by
  constructor
  · intro h
    exact ⟨h [] x xs rfl, fun before ds after heq => h (x :: before) ds after (by rw [heq]; rfl)⟩
  · rintro ⟨hx, hxs⟩ before ds after heq
    cases before with
    | nil =>
        obtain ⟨rfl, -⟩ := List.cons.inj heq
        exact hx
    | cons y before =>
        obtain ⟨rfl, htail⟩ := List.cons.inj heq
        exact hxs before ds after htail

theorem readsAll_iff : ReadsAll argc numStr dss ↔
    ∀ before ds after, dss = before ++ ds :: after →
      Short ds ∧ readAs (bufferAfter numStr before) ds < argc := by
  induction dss generalizing numStr with
  | nil => simp [ReadsAll, readings]
  | cons ds dss ih =>
      rw [readsAll_cons, ih,
        forall_place_cons
          (P := fun before ds => Short ds ∧ readAs (bufferAfter numStr before) ds < argc),
        and_assoc]
      rfl

theorem map_readings_iff {f : Nat → Bytes} :
    (readings numStr dss).map f = dss.map (fun ds => f (decimal ds)) ↔
      ∀ before ds after, dss = before ++ ds :: after →
        f (readAs (bufferAfter numStr before) ds) = f (decimal ds) := by
  induction dss generalizing numStr with
  | nil => simp [readings]
  | cons ds dss ih =>
      rw [readings, List.map_cons, List.map_cons, List.cons.injEq, ih,
        forall_place_cons (P := fun before ds =>
          f (readAs (bufferAfter numStr before) ds) = f (decimal ds))]
      rfl

theorem stopsAt_iff : StopsAt argc numStr dss ↔
    ∃ before ds after, dss = before ++ ds :: after ∧ (∀ x ∈ before, Short x) ∧ Short ds ∧
      argc ≤ readAs (bufferAfter numStr before) ds := by
  induction dss generalizing numStr with
  | nil => simp [not_stopsAt_nil]
  | cons x dss ih =>
      rw [stopsAt_cons]
      constructor
      · rintro ⟨hx, hle | ⟨-, hstop⟩⟩
        · exact ⟨[], x, dss, rfl, fun y hy => absurd hy List.not_mem_nil, hx, hle⟩
        · obtain ⟨before, ds, after, rfl, hbefore, hds, hle⟩ := ih.mp hstop
          exact ⟨x :: before, ds, after, rfl, List.forall_mem_cons.mpr ⟨hx, hbefore⟩, hds, hle⟩
      · rintro ⟨before, ds, after, heq, hbefore, hds, hle⟩
        cases before with
        | nil =>
            obtain ⟨rfl, -⟩ := List.cons.inj heq
            exact ⟨hds, Or.inl hle⟩
        | cons y before =>
            obtain ⟨rfl, htail⟩ := List.cons.inj heq
            obtain ⟨hx, hbefore⟩ := List.forall_mem_cons.mp hbefore
            refine ⟨hx, (Nat.lt_or_ge _ argc).elim (fun hlt => Or.inr ⟨hlt, ?_⟩) Or.inl⟩
            exact ih.mpr ⟨before, ds, after, htail, hbefore, hds, hle⟩

end splits

/-! ## When the outcome is the specified one -/

/-- The byte behind the digits `ds`, after placeholders with the digits `before`, does no
harm: it is not a digit, or the argument whose number it makes is the same one. -/
def HarmlessBehind (argv : List Arg) (numStr : Vector UInt8 10) (before : List Bytes) (ds : Bytes) :
    Prop :=
  isDigit (behind numStr ds.length before.reverse) = true →
    ∃ a a', argv[decimal ds]? = some a ∧
      argv[10 * decimal ds + ((behind numStr ds.length before.reverse).toNat - 48)]? = some a' ∧
      a'.addr = a.addr

/-- The digits `ds` stand for a number that is too large, or do so with the byte behind them. -/
def TooLarge (argc : Nat) (numStr : Vector UInt8 10) (before : List Bytes) (ds : Bytes) : Prop :=
  argc ≤ decimal ds ∨ isDigit (behind numStr ds.length before.reverse) = true ∧
    argc ≤ 10 * decimal ds + ((behind numStr ds.length before.reverse).toNat - 48)

/-- The bytes behind the digits do no harm: every placeholder has at most eight digits,
names an argument, and the byte behind its digits is harmless; or one names no argument,
and so does one, taken with the byte behind it or without, up to which there are at most
eight digits each. -/
def StaleHarmless (content : Bytes) (argv : List Arg) (numStr : Vector UInt8 10) : Prop :=
  (∀ before ds after, digits (placeholders content) = before ++ ds :: after →
    Short ds ∧ decimal ds < argv.length ∧ HarmlessBehind argv numStr before ds) ∨
  (∃ p ∈ placeholders content, argv.length ≤ decimal p.ds) ∧
    ∃ before ds after, digits (placeholders content) = before ++ ds :: after ∧
      (∀ x ∈ before, Short x) ∧ Short ds ∧ TooLarge argv.length numStr before ds

theorem printed_inj {argv : List Arg} {i j : Nat} (hi : i < argv.length) :
    (j < argv.length ∧ printed argv j = printed argv i) ↔
      ∃ a a', argv[i]? = some a ∧ argv[j]? = some a' ∧ a'.addr = a.addr := by
  have hprinted : ∀ {n a}, argv[n]? = some a → printed argv n = printPtr a.addr := by
    intro n a h
    rw [printed, h]
  constructor
  · rintro ⟨hj, heq⟩
    refine ⟨_, _, List.getElem?_eq_getElem hi, List.getElem?_eq_getElem hj, ?_⟩
    rwa [hprinted (List.getElem?_eq_getElem hi), hprinted (List.getElem?_eq_getElem hj),
      printPtr_inj] at heq
  · rintro ⟨a, a', ha, ha', haddr⟩
    exact ⟨(List.getElem?_eq_some_iff.mp ha').1, by rw [hprinted ha, hprinted ha', haddr]⟩

/-- Read as a number with the same address. -/
theorem harmlessBehind_iff {argv : List Arg} {numStr : Vector UInt8 10} {before : List Bytes}
    {ds : Bytes} (hbefore : ∀ x ∈ before, Short x) (hlt : decimal ds < argv.length) :
    (readAs (bufferAfter numStr before) ds < argv.length ∧
      printed argv (readAs (bufferAfter numStr before) ds) = printed argv (decimal ds)) ↔
      HarmlessBehind argv numStr before ds := by
  rw [readAs_bufferAfter hbefore, HarmlessBehind]
  split
  case isTrue hb => rw [printed_inj hlt]; exact ⟨fun h _ => h, fun h => h hb⟩
  case isFalse hb => exact ⟨fun _ h => absurd h hb, fun _ => ⟨hlt, rfl⟩⟩

theorem tooLarge_iff {argc : Nat} {numStr : Vector UInt8 10} {before : List Bytes} {ds : Bytes}
    (hbefore : ∀ x ∈ before, Short x) :
    argc ≤ readAs (bufferAfter numStr before) ds ↔ TooLarge argc numStr before ds := by
  rw [readAs_bufferAfter hbefore, TooLarge]
  split
  case isTrue hb =>
    refine ⟨fun h => Or.inr ⟨hb, h⟩, fun h => h.elim (fun hle => ?_) fun h => h.2⟩
    omega
  case isFalse hb => exact ⟨Or.inl, fun h => h.resolve_right fun h => hb h.1⟩

/-- The first way to do no harm, in terms of what is read. -/
theorem readsAll_same_iff {argv : List Arg} {numStr : Vector UInt8 10} {dss : List Bytes} :
    (ReadsAll argv.length numStr dss ∧ (∀ ds ∈ dss, decimal ds < argv.length) ∧
      (readings numStr dss).map (printed argv) = dss.map fun ds => printed argv (decimal ds)) ↔
      ∀ before ds after, dss = before ++ ds :: after →
        Short ds ∧ decimal ds < argv.length ∧ HarmlessBehind argv numStr before ds := by
  rw [readsAll_iff, map_readings_iff]
  constructor
  · rintro ⟨hall, hargs, hsame⟩ before ds after heq
    have hbefore : ∀ x ∈ before, Short x := by
      intro x hx
      obtain ⟨l₁, l₂, rfl⟩ := List.append_of_mem hx
      exact (hall l₁ x (l₂ ++ ds :: after) (by rw [heq]; simp)).1
    have hlt := hargs ds (by rw [heq]; simp)
    obtain ⟨hds, hread⟩ := hall before ds after heq
    exact ⟨hds, hlt, (harmlessBehind_iff hbefore hlt).mp ⟨hread, hsame before ds after heq⟩⟩
  · intro h
    have hshort : ∀ x ∈ dss, Short x := by
      intro x hx
      obtain ⟨l₁, l₂, rfl⟩ := List.append_of_mem hx
      exact (h l₁ x l₂ rfl).1
    have hread : ∀ before ds after, dss = before ++ ds :: after →
        readAs (bufferAfter numStr before) ds < argv.length ∧
          printed argv (readAs (bufferAfter numStr before) ds) = printed argv (decimal ds) := by
      intro before ds after heq
      obtain ⟨-, hlt, hharm⟩ := h before ds after heq
      refine (harmlessBehind_iff (fun x hx => hshort x ?_) hlt).mpr hharm
      rw [heq]
      exact List.mem_append_left _ hx
    refine ⟨fun before ds after heq => ⟨(h before ds after heq).1, (hread before ds after heq).1⟩,
      fun ds hds => ?_, fun before ds after heq => (hread before ds after heq).2⟩
    obtain ⟨l₁, l₂, rfl⟩ := List.append_of_mem hds
    exact (h l₁ ds l₂ rfl).2.1

/-- **When placeholders are decoded as specified.** -/
theorem decodes_iff (content : Bytes) (argv : List Arg) (numStr : Vector UInt8 10) :
    Decodes content argv (policyIdentifierHandler content argv numStr) ↔
      StaleHarmless content argv numStr := by
  have hall : StaleHarmless content argv numStr ↔
      (ReadsAll argv.length numStr (digits (placeholders content)) ∧
        (∀ p ∈ placeholders content, decimal p.ds < argv.length) ∧
        (readings numStr (digits (placeholders content))).map (printed argv) =
          (placeholders content).map (fun p => printed argv (decimal p.ds))) ∨
      (∃ p ∈ placeholders content, argv.length ≤ decimal p.ds) ∧
        StopsAt argv.length numStr (digits (placeholders content)) := by
    have hdigits : (∀ p ∈ placeholders content, decimal p.ds < argv.length) ↔
        ∀ ds ∈ digits (placeholders content), decimal ds < argv.length := by
      simp [digits]
    have hmap : (placeholders content).map (fun p => printed argv (decimal p.ds)) =
        (digits (placeholders content)).map fun ds => printed argv (decimal ds) := by
      rw [digits, List.map_map]
      rfl
    rw [StaleHarmless, hdigits, hmap, readsAll_same_iff, stopsAt_iff]
    refine or_congr Iff.rfl (and_congr_right fun _ => ?_)
    refine exists₃_congr fun before ds after => and_congr_right fun _ => ?_
    refine and_congr_right fun hb => ?_
    rw [tooLarge_iff hb]
  rw [hall, policyIdentifierHandler, identLoop_eq_readLoop content argv _ rfl]
  simp only [List.drop_zero]
  have h := readLoop_explained argv (split content).2 (placeholders content) numStr [] []
  revert h
  cases readLoop argv (split content).2 numStr (placeholders content) [] [] with
  | overrun =>
      rintro ⟨hreads, hstop⟩
      refine ⟨False.elim, ?_⟩
      rintro (h | h)
      · exact hreads h.1
      · exact hstop h.2
  | error errnum =>
      rintro ⟨rfl, hstop, hreads⟩
      refine ⟨fun h => Or.inr ⟨h.2, hstop⟩, ?_⟩
      rintro (h | h)
      · exact absurd h.1 hreads
      · exact ⟨rfl, h.1⟩
  | done res selected =>
      rintro ⟨hreads, hstop, hsel, hres⟩
      rw [List.nil_append] at hsel hres
      constructor
      · rintro ⟨hargs, haddr, -⟩
        exact Or.inl ⟨hreads, hargs, hsel ▸ haddr⟩
      · rintro (⟨-, hargs, haddr⟩ | h)
        · exact ⟨hargs, by rw [hsel, haddr], by rw [hres, haddr]⟩
        · exact absurd h.2 hstop

/-- Arguments at 4096 and 8192. -/
def twoArgv : List Arg := [⟨4096, []⟩, ⟨8192, []⟩]

/-- `%01s%1s`: argument 1 twice, first written with two digits. -/
def twoOnes : Bytes := [37, 48, 49, 115, 37, 49, 115]

theorem split_twoOnes : split twoOnes = ([⟨[], [48, 49]⟩, ⟨[], [49]⟩], []) := by
  have h₁ : split twoOnes =
      (⟨[], [48, 49]⟩ :: (split [37, 49, 115]).1, (split [37, 49, 115]).2) :=
    @split_append [] [48, 49] [37, 49, 115] (by decide)
  have h₂ : split [37, 49, 115] = (⟨[], [49]⟩ :: (split []).1, (split []).2) :=
    @split_append [] [49] [] (by decide)
  rw [h₁, h₂, split_none (by decide)]

/-- With two arguments, and a buffer that starts out as zeros, the second
placeholder is read as 11 and the policy is refused. -/
theorem twoOnes_refused :
    policyIdentifierHandler twoOnes twoArgv (Vector.replicate 10 0) = .error ePolIdt ∧
      ¬ Decodes twoOnes twoArgv
        (policyIdentifierHandler twoOnes twoArgv (Vector.replicate 10 0)) := by
  have hrun : policyIdentifierHandler twoOnes twoArgv (Vector.replicate 10 0) = .error ePolIdt := by
    rw [policyIdentifierHandler, identLoop_eq_readLoop _ _ _ rfl]
    simp only [List.drop_zero, placeholders, split_twoOnes]
    decide
  refine ⟨hrun, ?_⟩
  rw [hrun]
  rintro ⟨-, p, hp, hle⟩
  rw [placeholders, split_twoOnes] at hp
  revert p
  decide

end YaojJudger
