/-
# `YaojJudger.Kafel.CountMissing` — `normalize_rules_count_missing`

One turn of the loop takes a rule into the table: the rules of one number become
one, equal neighbours one range, a gap next to a range with the default action
is filled by it.  Before the loop the rule of the least number is taken down to 0,
and after it that of the greatest up to `MAX_SYSCALL_NR`, where that can be done.

**Proved here.**  The table has what the rules gone through come to
(`countStep_spec`, `countLoop_spec`), and the number counted is that of its gaps,
the two at its ends included (`fixFirst_spec`, `fixLast_spec`).
-/
import YaojJudger.Kafel.Ranges

namespace Kafel

open FirstMatch

variable {default action : Action} {data : SeccompData} {rule prev cur top : RangeRule}
  {rules rules' rest : List RangeRule} {args : Fin 6 → UInt64} {k : Nat}
  {D : SeccompData → Prop} {v v' : SeccompData → Action}

/-! ## One turn of the loop -/

/-- The rules gone through reach up to the end of the top, where the table has what
they come to. -/
structure Reached (done : List RangeRule) (prev : RangeRule) : Prop where
  mem : ∃ r ∈ done, r.first = prev.last
  le : ∀ r ∈ done, r.first ≤ prev.last
  outcome : ∀ data : SeccompData, data.nr = prev.last →
    prev.outcome data.args = done.findSome? (RangeRule.decides data)

/-- What the rules gone through come to. -/
def found (default : Action) (done : List RangeRule) (data : SeccompData) : Action :=
  (done.findSome? (RangeRule.decides data)).getD default

variable {done : List RangeRule} {c c' : Counted}

theorem RangeRule.Single.decides_eq (h : rule.Single) :
    rule.decides data = if rule.first = data.nr then rule.outcome data.args else none := by
  rw [RangeRule.decides]
  exact if_congr (covers_iff h.first_eq) rfl rfl

theorem findSome?_concat :
    (done ++ [cur]).findSome? (RangeRule.decides data) =
      (done.findSome? (RangeRule.decides data)).or (cur.decides data) := by
  rw [List.findSome?_append, List.findSome?_singleton]

/-- Nothing is found above the rules gone through. -/
theorem not_found (hs : ∀ r ∈ done, r.Single) (hlt : ∀ r ∈ done, r.first < data.nr) :
    done.findSome? (RangeRule.decides data) = none := by
  rw [List.findSome?_eq_none_iff]
  intro r hr
  rw [(hs r hr).decides_eq, if_neg]
  intro heq
  have h := hlt r hr
  rw [heq] at h
  exact UInt32.lt_irrefl _ h

theorem found_concat (hs : ∀ r ∈ done, r.Single) (hc : cur.Single)
    (hlt : ∀ r ∈ done, r.first < cur.first) :
    found default (done ++ [cur]) data =
      if cur.first = data.nr then (cur.outcome data.args).getD default
      else found default done data := by
  rw [found, findSome?_concat, hc.decides_eq]
  split
  case isTrue heq =>
      rw [not_found hs (by rw [← heq]; exact hlt), Option.none_or]
  case isFalse => rw [Option.or_none, found]

/-- A rule above the ones gone through. -/
theorem reached_concat (hs : ∀ r ∈ done, r.Single) (hc : cur.Single)
    (hlt : ∀ r ∈ done, r.first < cur.first) (hlast : top.last = cur.first)
    (hout : ∀ args, top.outcome args = cur.outcome args) : Reached (done ++ [cur]) top := by
  refine ⟨⟨cur, List.mem_append_right _ (List.mem_singleton_self _), hlast.symm⟩, ?_, ?_⟩
  · intro r hr
    rw [hlast]
    rcases List.mem_append.mp hr with hr | hr
    · exact UInt32.le_of_lt (hlt r hr)
    · obtain rfl := List.mem_singleton.mp hr
      exact UInt32.le_refl _
  · intro data hdata
    rw [findSome?_concat, hc.decides_eq, if_pos (hdata.trans hlast).symm, hout,
      not_found hs (by rw [hdata, hlast]; exact hlt), Option.none_or]

/-- The rule put on top of a table of what was found. -/
theorem Table.pushFound (h : Table default D k (found default done) prev rest)
    (hs : ∀ r ∈ done, r.Single) (hc : cur.Single) (hclean : ∀ data, D data → cur.Clean data)
    (hlt : ∀ r ∈ done, r.first < cur.first) (hprev : prev.last < cur.first) :
    Table default D ((if cur.first.toNat = prev.last.toNat + 1 then 0 else 1) + k)
      (found default (done ++ [cur])) cur (prev :: rest) := by
  refine (h.push hc.formed hclean hprev).congr ?_
  intro data
  rw [found_concat hs hc hlt]
  exact if_congr (RangeRule.covers_iff hc.first_eq) rfl rfl

/-- A rule for the last number of the table. -/
theorem Table.absorb (h : Table default D k (found default done) prev rest)
    (hr : Reached done prev) (hc : cur.Single) (hclean : ∀ data, D data → cur.Clean data)
    (heq : cur.first = prev.last) :
    Table default D k (found default (done ++ [cur])) (prev.absorb cur) rest ∧
      Reached (done ++ [cur]) (prev.absorb cur) := by
  have hp := h.formed prev (List.mem_cons_self ..)
  obtain ⟨hfirst, hlast, hformed, hout⟩ := absorb_spec hp hc
  have hdec : ∀ data, data.nr = prev.last → (done ++ [cur]).findSome? (RangeRule.decides data) =
      (prev.absorb cur).outcome data.args := by
    intro data hdata
    rw [findSome?_concat, hc.decides_eq, if_pos (heq.trans hdata.symm), hout, hr.outcome data hdata]
  refine ⟨?_, ?_⟩
  · refine (h.swapTop hformed ?_ hfirst hlast).congr ?_
    · intro data hd hcov expr action hmem
      have hcovp : prev.Covers data.nr := by
        rw [RangeRule.Covers, hfirst, hlast] at hcov
        exact hcov
      -- a condition of either of the two
      rcases hp.shape with ⟨a, ha, hl⟩ | ⟨hn, hfl, -⟩
      · rw [RangeRule.absorb, if_neg (by rw [ha]; simp), hl] at hmem
        cases hmem
      · have hnr : cur.Covers data.nr := by
          rw [RangeRule.covers_iff hc.first_eq, heq, ← hfl]
          exact (RangeRule.covers_iff hfl).mp hcovp
        have hsplit : (some expr, action) ∈ prev.exprList ∨ (some expr, action) ∈ cur.exprList := by
          unfold RangeRule.absorb RangeRule.addExpr at hmem
          split at hmem
          · split at hmem
            · exact List.mem_append.mp hmem
            · split at hmem
              · exact .inl hmem
              · refine (List.mem_append.mp hmem).imp_right ?_
                intro hmem
                have h := Prod.mk.inj (List.mem_singleton.mp hmem)
                cases h.1
          · exact .inl hmem
        rcases hsplit with hmem | hmem
        · exact h.clean data hd prev (List.mem_cons_self ..) hcovp expr action hmem
        · exact hclean data hd hnr expr action hmem
    · intro data
      by_cases hnr : data.nr = prev.last
      · have hcov : prev.Covers data.nr := ⟨hnr ▸ hp.proper, hnr ▸ UInt32.le_refl _⟩
        rw [if_pos hcov, found, hdec data hnr]
      · have hsame : found default (done ++ [cur]) data = found default done data := by
          rw [found, findSome?_concat, hc.decides_eq, if_neg (fun h => hnr (h.symm.trans heq)),
            Option.or_none, found]
        rw [hsame]
        split
        case isTrue hcov =>
            rw [← h.value data, tableValue_cons_of_covers hcov, hout]
            rcases hp.shape with ⟨a, ha, -⟩ | ⟨-, hfl, -⟩
            · rw [outcome_of_some ha]
              rfl
            · exact absurd ((RangeRule.covers_iff hfl).mp hcov).symm (hfl ▸ hnr)
        case isFalse => rfl
  · refine ⟨⟨cur, List.mem_append_right _ (List.mem_singleton_self _), heq.trans hlast.symm⟩,
      ?_, ?_⟩
    · intro r hr'
      rw [hlast]
      rcases List.mem_append.mp hr' with hr' | hr'
      · exact hr.le r hr'
      · obtain rfl := List.mem_singleton.mp hr'
        exact heq ▸ UInt32.le_refl _
    · intro data hdata
      exact (hdec data (hdata.trans hlast)).symm

/-- **One turn of the loop**: no assertion fails, and the table is that of one rule more. -/
theorem countStep_spec (hrules : c.rules = prev :: rest)
    (h : Table default D c.toAdd (found default done) prev rest) (hr : Reached done prev)
    (hs : ∀ r ∈ done, r.Single) (hc : cur.Single) (hle : ∀ r ∈ done, r.first ≤ cur.first)
    (hclean : ∀ data, D data → cur.Clean data) :
    ∃ c' prev' rest', countStep default c cur = some c' ∧ c'.rules = prev' :: rest' ∧
      Table default D c'.toAdd (found default (done ++ [cur])) prev' rest' ∧
      Reached (done ++ [cur]) prev' := by
  have hp := h.formed prev (List.mem_cons_self ..)
  have hassert : ¬ (cur.first ≠ cur.last ∨ prev.action = none ∧ prev.first ≠ prev.last) := by
    rintro (hne | ⟨hn, hne⟩)
    · exact hne hc.first_eq
    · rcases hp.shape with ⟨a, ha, -⟩ | ⟨-, hfl, -⟩
      · rw [hn] at ha
        cases ha
      · exact hne hfl
  have hge : prev.last ≤ cur.first := by
    obtain ⟨r, hrd, hrl⟩ := hr.mem
    exact hrl ▸ hle r hrd
  unfold countStep
  rw [hrules]
  simp only
  rw [if_neg hassert]
  by_cases heq : cur.first = prev.last
  · obtain ⟨ht, hreached⟩ := h.absorb hr hc hclean heq
    rw [if_pos heq]
    exact ⟨_, _, _, rfl, rfl, ht, hreached⟩
  rw [if_neg heq]
  have hlt : prev.last < cur.first := UInt32.lt_of_le_of_ne hge (Ne.symm heq)
  have hdone : ∀ r ∈ done, r.first < cur.first :=
    fun r hrd => UInt32.lt_of_le_of_lt (hr.le r hrd) hlt
  have hsucc := toNat_succ hlt
  have hpred := toNat_pred hlt
  have hltN := UInt32.lt_iff_toNat_lt.mp hlt
  have hlast : ∀ args, cur.outcome args = cur.outcome args := fun _ => rfl
  by_cases hnext : cur.first = prev.last + 1
  · -- next to the top: one range if the actions are the same
    have hnextN : cur.first.toNat = prev.last.toNat + 1 := by rw [hnext, hsucc]
    rw [if_pos hnext]
    by_cases hsame : prev.action ≠ none ∧ prev.action = cur.action
    · rw [if_pos hsame]
      obtain ⟨a, ha⟩ := Option.ne_none_iff_exists'.mp hsame.1
      have hca : cur.action = some a := hsame.2.symm.trans ha
      have hm : prev.last ≤ cur.last := hc.first_eq ▸ hge
      refine ⟨_, _, _, rfl, rfl, (h.extend ha hm).congr ?_, ?_⟩
      · intro data
        rw [found_concat hs hc hdone, outcome_of_some hca]
        refine if_congr ?_ rfl rfl
        rw [← hc.first_eq, UInt32.lt_iff_toNat_lt, UInt32.le_iff_toNat_le, ← UInt32.toNat_inj]
        omega
      · refine reached_concat hs hc hdone hc.first_eq.symm ?_
        intro args
        rw [outcome_of_some hca]
        exact outcome_of_some ha
    · rw [if_neg hsame]
      have ht := h.pushFound hs hc hclean hdone hlt
      rw [if_pos hnextN, Nat.zero_add] at ht
      exact ⟨_, _, _, rfl, rfl, ht, reached_concat hs hc hdone hc.first_eq.symm hlast⟩
  rw [if_neg hnext]
  have hgapN : cur.first.toNat ≠ prev.last.toNat + 1 := by
    intro hN
    exact hnext (UInt32.toNat_inj.mp (hN.trans hsucc.symm))
  have hbefore : cur.first - 1 < cur.first := by
    rw [UInt32.lt_iff_toNat_lt, hpred]
    omega
  have habove : prev.last < cur.first - 1 := by
    rw [UInt32.lt_iff_toNat_lt, hpred]
    omega
  have hclose : cur.first.toNat = (cur.first - 1).toNat + 1 := by omega
  by_cases hprev : prev.action = some default
  · -- the top reaches up to the rule
    rw [if_pos hprev]
    have ht := (h.widen hprev (UInt32.le_of_lt habove)).pushFound hs hc hclean hdone hbefore
    rw [if_pos hclose, Nat.zero_add] at ht
    exact ⟨_, _, _, rfl, rfl, ht, reached_concat hs hc hdone hc.first_eq.symm hlast⟩
  rw [if_neg hprev]
  by_cases hcur : cur.action = some default
  · -- the rule reaches down to the top
    rw [if_pos hcur]
    have hl : cur.exprList = [] := by
      rcases hc.shape with ⟨a, -, hl⟩ | ⟨e, a, hn, -⟩
      · exact hl
      · rw [hcur] at hn
        cases hn
    have hrule : { cur with first := prev.last + 1 } =
        (⟨prev.last + 1, cur.last, some default, cur.priority, []⟩ : RangeRule) := by
      rw [← hcur, ← hl]
    rw [hrule]
    refine ⟨_, _, _, rfl, rfl, (h.fill cur.priority (hc.first_eq ▸ hlt)).congr ?_, ?_⟩
    · intro data
      rw [found_concat hs hc hdone, outcome_of_some hcur]
      split
      case isTrue heqn =>
          rw [found, not_found hs (by rw [← heqn]; exact hdone)]
          rfl
      case isFalse => rfl
    · refine reached_concat hs hc hdone hc.first_eq.symm ?_
      intro args
      rw [outcome_of_some hcur]
      exact outcome_of_some rfl
  rw [if_neg hcur]
  by_cases hslack : 0 < c.slack
  · -- there is room for the gap
    rw [if_pos hslack]
    have ht := (h.fill 0 habove).pushFound hs hc hclean hdone hbefore
    rw [if_pos hclose, Nat.zero_add] at ht
    exact ⟨_, _, _, rfl, rfl, ht, reached_concat hs hc hdone hc.first_eq.symm hlast⟩
  · -- the gap is counted
    rw [if_neg hslack]
    have ht := h.pushFound hs hc hclean hdone hlt
    rw [if_neg hgapN, Nat.add_comm] at ht
    exact ⟨_, _, _, rfl, rfl, ht, reached_concat hs hc hdone hc.first_eq.symm hlast⟩

/-- **The loop.** -/
theorem countLoop_spec (hrules : c.rules = prev :: rest)
    (h : Table default D c.toAdd (found default done) prev rest) (hr : Reached done prev)
    (hs : ∀ r ∈ done ++ rules, r.Single)
    (hsorted : (done ++ rules).Pairwise fun a b => a.first ≤ b.first)
    (hclean : ∀ data, D data → ∀ r ∈ rules, r.Clean data) :
    ∃ c' prev' rest', rules.foldlM (countStep default) c = some c' ∧ c'.rules = prev' :: rest' ∧
      Table default D c'.toAdd (found default (done ++ rules)) prev' rest' := by
  induction rules generalizing done c prev rest with
  | nil =>
      rw [List.append_nil]
      exact ⟨c, prev, rest, rfl, hrules, h⟩
  | cons cur rules ih =>
      have hle : ∀ r ∈ done, r.first ≤ cur.first := by
        intro r hrd
        exact (List.pairwise_append.mp hsorted).2.2 r hrd cur (List.mem_cons_self ..)
      obtain ⟨c', prev', rest', hstep, hrules', h', hr'⟩ := countStep_spec hrules h hr
        (fun r hrd => hs r (List.mem_append_left _ hrd))
        (hs cur (List.mem_append_right _ (List.mem_cons_self ..))) hle
        (fun data hd => hclean data hd cur (List.mem_cons_self ..))
      have happ : done ++ cur :: rules = (done ++ [cur]) ++ rules := by simp
      rw [happ] at hs hsorted ⊢
      rw [List.foldlM_cons, hstep, Option.bind_eq_bind, Option.bind_some]
      exact ih hrules' h' hr' hs hsorted fun data hd r hrr =>
        hclean data hd r (List.mem_cons_of_mem _ hrr)

/-! ## Both ends -/

/-- The gaps below `lo`, down to 0. -/
def missing : Nat → List RangeRule → Nat
  | lo, [] => if lo = 0 then 0 else 1
  | lo, rule :: rules =>
    (if lo = rule.last.toNat + 1 then 0 else 1) + missing rule.first.toNat rules

variable {first : RangeRule} {lo : Nat}

theorem missing_concat :
    missing lo (rules ++ [first]) =
      gaps lo (rules ++ [first]) + if first.first.toNat = 0 then 0 else 1 := by
  induction rules generalizing lo with
  | nil => simp [missing, gaps]
  | cons rule rules ih => rw [List.cons_append, missing, gaps, ih, Nat.add_assoc]

theorem gaps_concat {first' : RangeRule} (h : first'.last = first.last) :
    gaps lo (rules ++ [first']) = gaps lo (rules ++ [first]) := by
  induction rules generalizing lo with
  | nil => rw [List.nil_append, List.nil_append, gaps, gaps, h, gaps, gaps]
  | cons rule rules ih => rw [List.cons_append, List.cons_append, gaps, gaps, ih]

theorem tableValue_concat {first' : RangeRule} (ha : first.action = some default)
    (ha' : first'.action = some default) :
    tableValue default data (rules ++ [first']) = tableValue default data (rules ++ [first]) := by
  induction rules with
  | nil =>
      have hone : ∀ x : RangeRule, x.action = some default →
          tableValue default data [x] = default := by
        intro x hx
        rw [tableValue, outcome_of_some hx, tableValue]
        exact ite_self default
      rw [List.nil_append, List.nil_append, hone _ ha', hone _ ha]
  | cons rule rules ih => rw [List.cons_append, List.cons_append, tableValue, tableValue, ih]

/-- The first rule, at the end of the list, made to start at 0. -/
theorem Table.fixBottom (h : Table default D k v top rest) (hl : top :: rest = rules ++ [first])
    (ha : first.action = some default) :
    ∃ top' rest', rules ++ [{ first with first := 0 }] = top' :: rest' ∧
      Table default D k v top' rest' := by
  have hformed := h.formed
  have hfalls := h.falls
  have hvalue := h.value
  have hclean := h.clean
  rw [hl] at hformed hfalls hvalue hclean
  have hplain : first.exprList = [] := by
    rcases (hformed first (List.mem_append_right _ (List.mem_singleton_self _))).shape with
      ⟨a, -, he⟩ | ⟨hn, -⟩
    · exact he
    · rw [ha] at hn
      cases hn
  have hzero : ∀ x : UInt32, 0 ≤ x := by
    intro x
    rw [UInt32.le_iff_toNat_le]
    exact Nat.zero_le _
  have hformed' : ∀ x ∈ rules ++ [{ first with first := 0 }], x.Formed := by
    intro x hx
    rcases List.mem_append.mp hx with hx | hx
    · exact hformed x (List.mem_append_left _ hx)
    · obtain rfl := List.mem_singleton.mp hx
      exact ⟨hzero _, .inl ⟨default, ha, hplain⟩⟩
  have hfalls' : List.Pairwise (fun x y : RangeRule => y.last < x.first)
      (rules ++ [{ first with first := 0 }]) := by
    obtain ⟨h₁, -, h₂⟩ := List.pairwise_append.mp hfalls
    refine List.pairwise_append.mpr ⟨h₁, List.pairwise_singleton _ _, ?_⟩
    intro x hx y hy
    obtain rfl := List.mem_singleton.mp hy
    exact h₂ x hx first (List.mem_singleton_self _)
  have hvalue' : ∀ data,
      tableValue default data (rules ++ [{ first with first := 0 }]) = v data := by
    intro data
    rw [← hvalue data]
    exact tableValue_concat ha ha
  have hclean' : ∀ data, D data → ∀ x ∈ rules ++ [{ first with first := 0 }], x.Clean data := by
    intro data hd x hx
    rcases List.mem_append.mp hx with hx | hx
    · exact hclean data hd x (List.mem_append_left _ hx)
    · obtain rfl := List.mem_singleton.mp hx
      intro _ expr a hmem
      rw [show RangeRule.exprList { first with first := 0 } = [] from hplain] at hmem
      cases hmem
  have hk := h.gaps
  cases rules with
  | nil =>
      obtain ⟨rfl, rfl⟩ := List.cons.inj hl
      exact ⟨_, _, rfl, hformed', hfalls', hk, hvalue', hclean'⟩
  | cons x rules =>
      obtain ⟨rfl, rfl⟩ := List.cons.inj hl
      refine ⟨_, _, rfl, hformed', hfalls', ?_, hvalue', hclean'⟩
      have hsame : Kafel.gaps top.first.toNat (rules ++ [first]) =
          Kafel.gaps top.first.toNat (rules ++ [{ first with first := 0 }]) := gaps_concat rfl
      exact hk.trans hsame

theorem fixFirst_spec (h : Table default D k v top rest) :
    ∃ toAdd top' rest',
      (fixFirst default (top :: rest).reverse k) = ((top' :: rest').reverse, toAdd) ∧
        Table default D k v top' rest' ∧ toAdd = missing top'.first.toNat rest' := by
  obtain ⟨first, before, hrev⟩ : ∃ first before, (top :: rest).reverse = first :: before :=
    List.exists_cons_of_ne_nil (by simp)
  have hl : top :: rest = before.reverse ++ [first] := by
    rw [← List.reverse_reverse (top :: rest), hrev, List.reverse_cons]
  -- the gaps below the top, and the one below the first rule
  have hmissing : ∀ {f : RangeRule} {t : RangeRule} {r : List RangeRule},
      before.reverse ++ [f] = t :: r → Table default D k v t r →
        missing t.first.toNat r = k + if f.first.toNat = 0 then 0 else 1 := by
    intro f t r hf ht
    rw [ht.gaps]
    cases hb : before.reverse with
    | nil =>
        rw [hb] at hf
        obtain ⟨rfl, rfl⟩ := List.cons.inj hf
        rw [missing, gaps, Nat.zero_add]
    | cons x xs =>
        rw [hb] at hf
        obtain ⟨rfl, rfl⟩ := List.cons.inj hf
        exact missing_concat
  rw [hrev, fixFirst]
  by_cases h0 : first.first ≠ 0
  · have h0N : first.first.toNat ≠ 0 := fun hN => h0 (UInt32.toNat_inj.mp hN)
    rw [if_pos h0]
    by_cases ha : first.action = some default
    · rw [if_pos ha]
      obtain ⟨top', rest', hl', ht⟩ := h.fixBottom hl ha
      refine ⟨k, top', rest', ?_, ht, ?_⟩
      · rw [← hl', List.reverse_append, List.reverse_reverse]
        rfl
      · rw [hmissing hl' ht]
        simp
    · rw [if_neg ha]
      refine ⟨k + 1, top, rest, by rw [hrev], h, ?_⟩
      rw [hmissing hl.symm h, if_neg h0N]
  · rw [if_neg h0]
    refine ⟨k, top, rest, by rw [hrev], h, ?_⟩
    rw [hmissing hl.symm h, if_pos (by rw [not_not.mp h0]; rfl), Nat.add_zero]

theorem maxSyscallNr_toNat : maxSyscallNr.toNat + 1 = 2 ^ 32 := rfl

theorem le_maxSyscallNr {x : UInt32} : x ≤ maxSyscallNr := by
  have h := x.toNat_lt
  have hmax := maxSyscallNr_toNat
  rw [UInt32.le_iff_toNat_le]
  omega

theorem ne_maxSyscallNr {x : UInt32} : x ≠ maxSyscallNr ↔ 2 ^ 32 ≠ x.toNat + 1 := by
  rw [← maxSyscallNr_toNat, Ne, Ne, ← UInt32.toNat_inj]
  omega

theorem fixLast_spec (h : Table default D k v top rest) {toAdd : Nat}
    (hadd : toAdd = missing top.first.toNat rest) :
    ∃ top', fixLast default (top :: rest) toAdd = (top' :: rest, missing (2 ^ 32) (top' :: rest)) ∧
      Table default D k v top' rest ∧ (top'.last ≠ maxSyscallNr → top'.action ≠ some default) := by
  rw [fixLast]
  by_cases hlast : top.last ≠ maxSyscallNr
  · rw [if_pos hlast]
    by_cases ha : top.action = some default
    · rw [if_pos ha]
      refine ⟨_, ?_, h.widen ha le_maxSyscallNr, fun hne => absurd rfl hne⟩
      rw [missing, if_pos maxSyscallNr_toNat.symm, Nat.zero_add, hadd]
    · rw [if_neg ha]
      refine ⟨top, ?_, h, fun _ => ha⟩
      rw [missing, if_neg (ne_maxSyscallNr.mp hlast), hadd, Nat.add_comm]
  · rw [if_neg hlast]
    refine ⟨top, ?_, h, fun hne => absurd hne hlast⟩
    rw [missing, if_pos (by rw [not_not.mp hlast]; rfl), Nat.zero_add, hadd]

end Kafel
