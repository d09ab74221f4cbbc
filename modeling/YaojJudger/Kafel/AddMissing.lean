/-
# `YaojJudger.Kafel.AddMissing` — `add_missing_rules`, and `normalize_rules` as a whole

The rules are gone through from the last one down.  Each moves up by the gaps
still to be filled below it, a gap gets a rule with the default action, and a list
of conditions gets that action at its end.

**Proved here** (`normalizeRules_spec`).  No assertion fails; the table tiles the
numbers from 0 to `MAX_SYSCALL_NR`; and the rule of a number comes to what the
first rule for it came to before, or to the default action if none applied.
-/
import YaojJudger.Kafel.CountMissing

namespace Kafel

open FirstMatch

variable {default action : Action} {data : SeccompData} {rule prev cur top : RangeRule}
  {rules rules' rest : List RangeRule} {args : Fin 6 → UInt64} {k : Nat}
  {D : SeccompData → Prop} {v v' : SeccompData → Action} {first : RangeRule} {lo : Nat}

/-! ## The gaps that are left -/

/-- A rule of the finished table: a range with an action, or one number with
conditions and an action for when none of them holds. -/
structure RangeRule.Finished (rule : RangeRule) : Prop where
  proper : rule.first ≤ rule.last
  shape : (∃ action, rule.action = some action) ∨
    rule.action = none ∧ rule.first = rule.last ∧ Ladder rule.exprList

/-- The rules cover every number from `lo` on once, in order. -/
def Tiles : Nat → List RangeRule → Prop
  | lo, [] => lo = 2 ^ 32
  | lo, rule :: rules =>
    rule.first.toNat = lo ∧ rule.first ≤ rule.last ∧ Tiles (rule.last.toNat + 1) rules

/-- A finished part of the table, from `lo` up. -/
structure Done (D : SeccompData → Prop) (lo : Nat) (out : List RangeRule) : Prop where
  tiles : Tiles lo out
  finished : ∀ x ∈ out, x.Finished
  clean : ∀ data, D data → ∀ x ∈ out, x.Clean data

variable {out : List RangeRule}

/-- The rule that takes the place of one of the table. -/
def closed (default : Action) (rule : RangeRule) : RangeRule :=
  if rule.action = none then rule.addExpr none default else rule

theorem closed_spec (hf : rule.Formed) :
    (closed default rule).first = rule.first ∧ (closed default rule).last = rule.last ∧
      (closed default rule).Finished ∧
      (∀ args,
        ((closed default rule).outcome args).getD default = (rule.outcome args).getD default) ∧
      ∀ data, rule.Clean data → (closed default rule).Clean data := by
  unfold closed
  rcases hf.shape with ⟨a, ha, -⟩ | ⟨hn, hfl, hl⟩
  · rw [if_neg (by rw [ha]; simp)]
    exact ⟨rfl, rfl, ⟨hf.proper, .inl ⟨a, ha⟩⟩, fun _ => rfl, fun _ => id⟩
  · rw [if_pos hn]
    obtain ⟨h₁, h₂, h₃⟩ := @addExpr_fields default rule none
    refine ⟨h₁, h₂, ⟨?_, .inr ⟨h₃.trans hn, ?_, ?_⟩⟩, ?_, ?_⟩
    · rw [h₁, h₂]
      exact hf.proper
    · rw [h₁, h₂, hfl]
    · have h : ∀ args, Ladder (rule.addExpr none default).exprList ∧
          (rule.addExpr none default).outcome args = (rule.outcome args).or (some default) :=
        fun _ => addExpr_none hn hl
      exact (h fun _ => 0).1
    · intro args
      rw [(addExpr_none hn hl).2]
      cases rule.outcome args with
      | none => rfl
      | some => rfl
    · intro data hclean hcov expr action hmem
      have hcov' : rule.Covers data.nr := by
        rw [RangeRule.Covers, h₁, h₂] at hcov
        exact hcov
      refine hclean hcov' expr action ?_
      unfold RangeRule.addExpr at hmem
      split at hmem
      · exact hmem
      · refine (List.mem_append.mp hmem).resolve_right ?_
        intro hmem
        cases (Prod.mk.inj (List.mem_singleton.mp hmem)).1

/-- A finished rule in front. -/
theorem Done.cons (h : Done D lo out) (hf : rule.Finished)
    (hclean : ∀ data, D data → rule.Clean data)
    (hlo : rule.last.toNat + 1 = lo) : Done D rule.first.toNat (rule :: out) :=
  ⟨⟨rfl, hf.proper, hlo ▸ h.tiles⟩, List.forall_mem_cons.mpr ⟨hf, h.finished⟩,
    fun data hd => List.forall_mem_cons.mpr ⟨hclean data hd, h.clean data hd⟩⟩

/-- The rule of a gap. -/
theorem gap_spec {first last : UInt32} (h : first ≤ last) :
    (RangeRule.gap first last default).Finished ∧
      ∀ data, (RangeRule.gap first last default).Clean data :=
  ⟨⟨h, .inl ⟨default, rfl⟩⟩, fun _ => clean_plain⟩

/-- Above all its rules a table has the default action. -/
theorem tableValue_above (h : ∀ x ∈ rules, x.last.toNat < data.nr.toNat) :
    tableValue default data rules = default := by
  induction rules with
  | nil => rfl
  | cons x rules ih =>
      have hx := h x (List.mem_cons_self ..)
      rw [tableValue_cons_of_not (fun hcov => by rw [RangeRule.covers_iff_toNat] at hcov; omega)]
      exact ih fun y hy => h y (List.mem_cons_of_mem _ hy)

/-- What the loop has made of the part from `lo'` to `lo`. -/
structure Filled (default : Action) (rules : List RangeRule) (lo lo' : Nat)
    (out out' : List RangeRule) : Prop where
  le : lo' ≤ lo
  kept : ∀ data : SeccompData, lo ≤ data.nr.toNat →
    tableValue default data out' = tableValue default data out
  filled : ∀ data : SeccompData, lo' ≤ data.nr.toNat → data.nr.toNat < lo →
    tableValue default data out' = tableValue default data rules
  below : ∀ data : SeccompData, data.nr.toNat < lo' → tableValue default data rules = default

/-- A rule put in place above the gap. -/
theorem filled_step {lo' : Nat} {out' : List RangeRule} (hf : cur.Formed)
    (hlast : cur.last.toNat + 1 = lo)
    (h : Filled default rules cur.first.toNat lo' (closed default cur :: out) out') :
    Filled default (cur :: rules) lo lo' out out' := by
  obtain ⟨h₁, h₂, -, hout, -⟩ := @closed_spec default cur hf
  have hproper := UInt32.le_iff_toNat_le.mp hf.proper
  have hle := h.le
  have hcov : ∀ nr : UInt32, (closed default cur).Covers nr ↔ cur.Covers nr := by
    intro nr
    rw [RangeRule.Covers, RangeRule.Covers, h₁, h₂]
  refine ⟨by omega, ?_, ?_, ?_⟩
  · intro data hnr
    rw [h.kept data (by omega)]
    exact tableValue_cons_of_not fun hc => by
      rw [hcov, RangeRule.covers_iff_toNat] at hc
      omega
  · intro data hge hlt
    by_cases hnr : cur.first.toNat ≤ data.nr.toNat
    · have hc : cur.Covers data.nr := by
        rw [RangeRule.covers_iff_toNat]
        omega
      rw [h.kept data hnr, tableValue_cons_of_covers ((hcov _).mpr hc),
        tableValue_cons_of_covers hc, hout]
    · rw [h.filled data hge (by omega)]
      exact (tableValue_cons_of_not fun hc => by
        rw [RangeRule.covers_iff_toNat] at hc
        omega).symm
  · intro data hlt
    rw [tableValue_cons_of_not fun hc => by
      rw [RangeRule.covers_iff_toNat] at hc
      omega]
    exact h.below data hlt

/-- A gap filled above the rules. -/
theorem filled_gap {lo₁ lo' : Nat} {out' : List RangeRule} {gap : RangeRule}
    (hgap : gap.action = some default) (hfirst : gap.first.toNat = lo₁)
    (hlast : gap.last.toNat + 1 = lo) (hle : lo₁ ≤ lo) (hr : ∀ x ∈ rules, x.last.toNat < lo₁)
    (h : Filled default rules lo₁ lo' (gap :: out) out') :
    Filled default rules lo lo' out out' := by
  refine ⟨h.le.trans hle, ?_, ?_, h.below⟩
  · intro data hnr
    rw [h.kept data (hle.trans hnr)]
    exact tableValue_cons_of_not fun hc => by
      rw [RangeRule.covers_iff_toNat] at hc
      omega
  · intro data hge hlt
    by_cases hnr : lo₁ ≤ data.nr.toNat
    · have hc : gap.Covers data.nr := by
        rw [RangeRule.covers_iff_toNat]
        omega
      rw [h.kept data hnr, tableValue_cons_of_covers hc, outcome_of_some hgap,
        tableValue_above fun x hx => (hr x hx).trans_le hnr]
      rfl
    · exact h.filled data hge (by omega)

/-- Where the loop stands: right above the next rule at first, and then at the rule
it put in place last. -/
def Stands (rules : List RangeRule) (lo : Nat) : Option RangeRule → Prop
  | none => ∃ cur rest, rules = cur :: rest ∧ lo = cur.last.toNat + 1
  | some prev => prev.first.toNat = lo

/-- **The loop of `add_missing_rules`**: all gaps but the last are filled, and the
count is right. -/
theorem addMissingLoop_spec {prev : Option RangeRule} (hf : ∀ x ∈ rules, x.Formed)
    (hfalls : rules.Pairwise fun x y => y.last < x.first) (hlo : ∀ x ∈ rules, x.last.toNat < lo)
    (hc : ∀ data, D data → ∀ x ∈ rules, x.Clean data) (hstands : Stands rules lo prev)
    (h : Done D lo out) :
    ∃ out' lo', addMissingLoop default rules (missing lo rules) out prev =
        some (out', if lo' = 0 then 0 else 1) ∧
      Done D lo' out' ∧ Filled default rules lo lo' out out' ∧
      ∀ x ∈ rules, lo' ≤ x.first.toNat := by
  induction rules generalizing lo out prev with
  | nil =>
      refine ⟨out, lo, rfl, h, ⟨Nat.le_refl _, fun _ _ => rfl, ?_, fun _ _ => rfl⟩, fun _ hx => by
        cases hx⟩
      intro data hge hlt
      omega
  | cons cur rules ih =>
      obtain ⟨hcur, hf⟩ := List.forall_mem_cons.mp hf
      obtain ⟨hbelow, hfalls⟩ := List.pairwise_cons.mp hfalls
      obtain ⟨hcurlo, hlo⟩ := List.forall_mem_cons.mp hlo
      have hccur : ∀ data, D data → cur.Clean data :=
        fun data hd => (List.forall_mem_cons.mp (hc data hd)).1
      have hc' : ∀ data, D data → ∀ x ∈ rules, x.Clean data :=
        fun data hd => (List.forall_mem_cons.mp (hc data hd)).2
      obtain ⟨h₁, h₂, hfin, -, hcl⟩ := @closed_spec default cur hcur
      have hproper := UInt32.le_iff_toNat_le.mp hcur.proper
      have hbelowN : ∀ x ∈ rules, x.last.toNat < cur.first.toNat :=
        fun x hx => UInt32.lt_iff_toNat_lt.mp (hbelow x hx)
      -- the rule put in place, whatever is above it
      have hplace : ∀ {out}, Done D (cur.last.toNat + 1) out →
          ∃ out' lo', addMissingLoop default rules (missing cur.first.toNat rules)
              (closed default cur :: out) (some (closed default cur)) =
                some (out', if lo' = 0 then 0 else 1) ∧
            Done D lo' out' ∧ Filled default (cur :: rules) (cur.last.toNat + 1) lo' out out' ∧
            ∀ x ∈ cur :: rules, lo' ≤ x.first.toNat := by
        intro out hout
        have hdone := hout.cons hfin (fun data hd => hcl data (hccur data hd)) (by rw [h₂])
        rw [h₁] at hdone
        have hst : Stands rules cur.first.toNat (some (closed default cur)) := by rw [Stands, h₁]
        obtain ⟨out', lo', hloop, hd', hfill, hall⟩ := ih hf hfalls hbelowN hc' hst hdone
        exact ⟨out', lo', hloop, hd', filled_step hcur rfl hfill,
          List.forall_mem_cons.mpr ⟨hfill.le, hall⟩⟩
      by_cases hadj : lo = cur.last.toNat + 1
      · subst hadj
        obtain ⟨out', lo', hloop, hd', hfill, hall⟩ := hplace h
        refine ⟨out', lo', ?_, hd', hfill, hall⟩
        rw [← hloop, missing, if_pos rfl, Nat.zero_add]
        cases prev with
        | none => rfl
        | some p =>
            have hnext : p.first = cur.last + 1 := by
              rw [← UInt32.toNat_inj, show p.first.toNat = _ from hstands]
              refine (toNat_succ (b := p.first) ?_).symm
              rw [UInt32.lt_iff_toNat_lt, show p.first.toNat = _ from hstands]
              omega
            rw [addMissingLoop]
            exact if_neg fun hne => hne hnext
      · cases prev with
        | none =>
            obtain ⟨cur', rest, hcons, hlo'⟩ := hstands
            obtain ⟨rfl, -⟩ := List.cons.inj hcons
            exact absurd hlo' hadj
        | some p =>
            have hp : p.first.toNat = lo := hstands
            have hlt : cur.last < p.first := by
              rw [UInt32.lt_iff_toNat_lt]
              omega
            have hsucc := toNat_succ hlt
            have hpred := toNat_pred hlt
            have hgapN : cur.last.toNat + 1 ≤ lo - 1 := by omega
            have hgle : cur.last + 1 ≤ p.first - 1 := by
              rw [UInt32.le_iff_toNat_le, hsucc, hpred, hp]
              exact hgapN
            obtain ⟨hgfin, hgclean⟩ := @gap_spec default _ _ hgle
            have hlastN :
                (RangeRule.gap (cur.last + 1) (p.first - 1) default).last.toNat + 1 = lo := by
              show (p.first - 1).toNat + 1 = lo
              omega
            have hdone := h.cons hgfin (fun data _ => hgclean data) hlastN
            rw [show (RangeRule.gap (cur.last + 1) (p.first - 1) default).first.toNat =
              cur.last.toNat + 1 from hsucc] at hdone
            obtain ⟨out', lo', hloop, hd', hfill, hall⟩ := hplace hdone
            refine ⟨out', lo', ?_, hd', filled_gap rfl hsucc hlastN (by omega) ?_ hfill, hall⟩
            · have hne : p.first ≠ cur.last + 1 := by
                intro heq
                rw [← UInt32.toNat_inj, hsucc] at heq
                omega
              rw [← hloop, missing, if_neg hadj, addMissingLoop]
              rw [if_pos hne, if_neg (by omega), Nat.add_sub_cancel_left]
              rfl
            · intro x hx
              rcases List.mem_cons.mp hx with rfl | hx
              · omega
              · have := hbelowN x hx
                omega

/-- What `normalize_rules` makes of a table. -/
structure Normal (default : Action) (D : SeccompData → Prop) (v : SeccompData → Action)
    (out : List RangeRule) : Prop where
  done : Done D 0 out
  value : ∀ data, tableValue default data out = v data

/-- The gap before the first rule. -/
theorem addMissingFirst_spec {out out' : List RangeRule} {lo' : Nat} (hne : rules ≠ [])
    (h : Done D lo' out') (hfill : Filled default rules (2 ^ 32) lo' out out')
    (hall : ∀ x ∈ rules, lo' ≤ x.first.toNat) :
    ∃ out'', addMissingFirst default (out', if lo' = 0 then 0 else 1) = some out'' ∧
      Normal default D (fun data => tableValue default data rules) out'' := by
  by_cases h0 : lo' = 0
  · subst h0
    rw [if_pos rfl]
    refine ⟨out', by cases out' <;> rfl, h, ?_⟩
    intro data
    exact hfill.filled data (Nat.zero_le _) (UInt32.toNat_lt _)
  · obtain ⟨x, xs, rfl⟩ := List.exists_cons_of_ne_nil hne
    have hlt : lo' < 2 ^ 32 :=
      (hall x (List.mem_cons_self ..)).trans_lt (UInt32.toNat_lt _)
    rw [if_neg h0]
    cases out' with
    | nil => exact absurd h.tiles (Nat.ne_of_lt hlt)
    | cons rule rest =>
        have hfirst : rule.first.toNat = lo' := h.tiles.1
        have hpos : 0 < rule.first := by
          rw [UInt32.lt_iff_toNat_lt, hfirst]
          exact Nat.pos_of_ne_zero h0
        have hpred := toNat_pred hpos
        have hzero : (0 : UInt32) ≤ rule.first - 1 := by
          rw [UInt32.le_iff_toNat_le]
          exact Nat.zero_le _
        obtain ⟨hgfin, hgclean⟩ := @gap_spec default _ _ hzero
        have hlast : (RangeRule.gap 0 (rule.first - 1) default).last.toNat + 1 = lo' := by
          show (rule.first - 1).toNat + 1 = lo'
          omega
        refine ⟨_, if_pos hpos, h.cons hgfin (fun data _ => hgclean data) hlast, ?_⟩
        intro data
        by_cases hnr : lo' ≤ data.nr.toNat
        · rw [tableValue_cons_of_not fun hc => by
            rw [RangeRule.covers_iff_toNat] at hc
            omega]
          exact hfill.filled data hnr (UInt32.toNat_lt _)
        · have hc : (RangeRule.gap 0 (rule.first - 1) default).Covers data.nr := by
            rw [RangeRule.covers_iff_toNat]
            exact ⟨Nat.zero_le _, by omega⟩
          rw [tableValue_cons_of_covers hc, outcome_of_some rfl,
            hfill.below data (Nat.lt_of_not_le hnr)]
          rfl

theorem addMissingRules_spec (h : Table default D k v top rest)
    (hlast : top.last ≠ maxSyscallNr → top.action ≠ some default) :
    ∃ out, addMissingRules default (top :: rest) (missing (2 ^ 32) (top :: rest)) = some out ∧
      Normal default D v out := by
  have hnil : Done D (2 ^ 32) [] :=
    ⟨rfl, fun _ hx => (List.not_mem_nil hx).elim, fun _ _ _ hx => (List.not_mem_nil hx).elim⟩
  have hstands : Stands (top :: rest) (top.last.toNat + 1) none := ⟨top, rest, rfl, rfl⟩
  have hlo : ∀ x ∈ top :: rest, x.last.toNat < top.last.toNat + 1 := by
    intro x hx
    rcases List.mem_cons.mp hx with rfl | hx
    · exact Nat.lt_succ_self _
    · have hlt := UInt32.lt_iff_toNat_lt.mp ((List.pairwise_cons.mp h.falls).1 x hx)
      have hproper := UInt32.le_iff_toNat_le.mp (h.formed top (List.mem_cons_self ..)).proper
      omega
  rw [addMissingRules]
  by_cases hmax : top.last ≠ maxSyscallNr
  · have hgap : 2 ^ 32 ≠ top.last.toNat + 1 := ne_maxSyscallNr.mp hmax
    have hlt : top.last < maxSyscallNr := UInt32.lt_of_le_of_ne le_maxSyscallNr hmax
    have hsucc := toNat_succ hlt
    have hle : top.last + 1 ≤ maxSyscallNr := le_maxSyscallNr
    obtain ⟨hgfin, hgclean⟩ := @gap_spec default _ _ hle
    have hdone := hnil.cons hgfin (fun data _ => hgclean data) maxSyscallNr_toNat
    rw [show (RangeRule.gap (top.last + 1) maxSyscallNr default).first.toNat = top.last.toNat + 1
      from hsucc] at hdone
    obtain ⟨out', lo', hloop, hd', hfill, hall⟩ :=
      addMissingLoop_spec h.formed h.falls hlo h.clean hstands hdone
    have hfill' : Filled default (top :: rest) (2 ^ 32) lo' [] out' := by
      refine filled_gap rfl hsucc maxSyscallNr_toNat ?_ hlo hfill
      have := top.last.toNat_lt
      omega
    obtain ⟨out'', hout, hn⟩ := addMissingFirst_spec (List.cons_ne_nil _ _) hd' hfill' hall
    refine ⟨out'', ?_, hn.done, fun data => (hn.value data).trans (h.value data)⟩
    have hcount : missing (2 ^ 32) (top :: rest) =
        1 + missing (top.last.toNat + 1) (top :: rest) := by
      rw [missing, if_neg hgap, missing, if_pos rfl, Nat.zero_add]
    rw [if_pos hmax, if_neg, hcount, Nat.add_sub_cancel_left, hloop]
    · exact hout
    · rintro (ha | hz)
      · exact hlast hmax ha
      · omega
  · have heq : top.last.toNat + 1 = 2 ^ 32 := by
      rw [not_not.mp hmax]
      exact maxSyscallNr_toNat
    rw [heq] at hstands hlo
    obtain ⟨out', lo', hloop, hd', hfill, hall⟩ :=
      addMissingLoop_spec h.formed h.falls hlo h.clean hstands hnil
    obtain ⟨out'', hout, hn⟩ := addMissingFirst_spec (List.cons_ne_nil _ _) hd' hfill hall
    refine ⟨out'', ?_, hn.done, fun data => (hn.value data).trans (h.value data)⟩
    rw [if_neg hmax, hloop]
    exact hout

/-! ## `normalize_rules` -/

instance : Std.Total bySyscallAndPriority where
  total a b := by
    rcases Nat.lt_trichotomy a.first.toNat b.first.toNat with h | h | h
    · exact .inl (.inl (UInt32.lt_iff_toNat_lt.mpr h))
    · have heq := UInt32.toNat_inj.mp h
      rcases Int.le_total a.priority b.priority with hp | hp
      · exact .inl (.inr ⟨heq, hp⟩)
      · exact .inr (.inr ⟨heq.symm, hp⟩)
    · exact .inr (.inl (UInt32.lt_iff_toNat_lt.mpr h))

instance : IsTrans RangeRule bySyscallAndPriority where
  trans a b c hab hbc := by
    rcases hab with hab | ⟨hab, hp⟩
    · rcases hbc with hbc | ⟨hbc, -⟩
      · exact .inl (UInt32.lt_trans hab hbc)
      · exact .inl (hbc ▸ hab)
    · rcases hbc with hbc | ⟨hbc, hp'⟩
      · exact .inl (hab ▸ hbc)
      · exact .inr ⟨hab.trans hbc, hp.trans hp'⟩

theorem toInt_of_lt {n : Nat} (h : n < 2 ^ 31) : toInt n = n := by
  unfold toInt
  rw [Int.bmod_def]
  omega

/-- The priorities rise as long as they are numbers an `int` holds. -/
theorem Built.rising (hb : Built rules) (hlen : rules.length < 2 ^ 31) :
    rules.Pairwise fun a b => a.priority < b.priority := by
  have hmap : (rules.map RangeRule.priority).Pairwise (· < ·) := by
    rw [hb.priority, List.pairwise_map]
    refine List.Pairwise.imp_of_mem ?_ List.pairwise_lt_range
    intro i j hi hj hij
    rw [List.mem_range] at hi hj
    rw [toInt_of_lt (by omega), toInt_of_lt (by omega)]
    omega
  exact List.pairwise_map.mp hmap

/-- The rules sorted by number; of one number, the first to apply is the same. -/
theorem sortRangeRules_spec (hb : Built rules) (hlen : rules.length < 2 ^ 31) :
    (sortRangeRules rules).Perm rules ∧
      (sortRangeRules rules).Pairwise (fun a b => a.first ≤ b.first) ∧
      ∀ data, (sortRangeRules rules).findSome? (RangeRule.decides data) =
        rules.findSome? (RangeRule.decides data) := by
  have hperm : (sortRangeRules rules).Perm rules := List.perm_insertionSort _ rules
  have hsorted : (sortRangeRules rules).Pairwise bySyscallAndPriority :=
    List.pairwise_insertionSort _ rules
  refine ⟨hperm, hsorted.imp ?_, ?_⟩
  · rintro a b (h | ⟨h, -⟩)
    · exact UInt32.le_of_lt h
    · exact h ▸ UInt32.le_refl _
  · intro data
    have hlook : ∀ r ∈ rules, decide (r.first = data.nr) = false → r.decides data = none := by
      intro r hr hne
      rw [(hb.single r hr).decides_eq, if_neg (of_decide_eq_false hne)]
    refine findSome?_perm hlook hperm (hb.rising hlen) ?_
    refine List.Pairwise.imp_of_mem ?_ (hsorted.filter _)
    intro a b ha hb hab
    have hfa := of_decide_eq_true (List.mem_filter.mp ha).2
    have hfb := of_decide_eq_true (List.mem_filter.mp hb).2
    rcases hab with hlt | ⟨-, hp⟩
    · rw [hfa, hfb] at hlt
      exact absurd hlt (UInt32.lt_irrefl _)
    · exact hp

/-- **`normalize_rules`.**  It returns a table of all numbers, which comes to what
the first rule for a number does, and to the default action where there is none. -/
theorem normalizeRules_spec (default : Action) (hb : Built rules) (hlen : rules.length < 2 ^ 31)
    (hclean : ∀ data, D data → ∀ rule ∈ rules, rule.Clean data) :
    ∃ out, normalizeRules default rules = some out ∧
      Normal default D (found default rules) out := by
  cases rules with
  | nil =>
      have hzero : (0 : UInt32) ≤ maxSyscallNr := le_maxSyscallNr
      obtain ⟨hfin, hcl⟩ := @gap_spec default _ _ hzero
      refine ⟨_, rfl, ⟨⟨rfl, hzero, maxSyscallNr_toNat⟩, ?_, ?_⟩, ?_⟩
      · intro x hx
        obtain rfl := List.mem_singleton.mp hx
        exact ⟨hzero, .inl ⟨default, rfl⟩⟩
      · intro data _ x hx
        obtain rfl := List.mem_singleton.mp hx
        exact clean_plain
      · intro data
        exact ite_self default
  | cons rule rules =>
      obtain ⟨hperm, hsorted, hfound⟩ := sortRangeRules_spec hb hlen
      have hsame : ∀ data, found default (sortRangeRules (rule :: rules)) data =
          found default (rule :: rules) data := by
        intro data
        rw [found, hfound, found]
      have hsingle : ∀ r ∈ sortRangeRules (rule :: rules), r.Single :=
        fun r hr => hb.single r (hperm.mem_iff.mp hr)
      have hclean' : ∀ data, D data → ∀ r ∈ sortRangeRules (rule :: rules), r.Clean data :=
        fun data hd r hr => hclean data hd r (hperm.mem_iff.mp hr)
      obtain ⟨first, others, hs⟩ :
          ∃ first others, sortRangeRules (rule :: rules) = first :: others :=
        List.exists_cons_of_ne_nil fun hnil => by
          rw [hnil] at hperm
          exact List.cons_ne_nil _ _ hperm.symm.eq_nil
      rw [hs] at hsorted hsame hsingle hclean'
      have hfirst := hsingle first (List.mem_cons_self ..)
      -- the first rule is a table of its own
      have hstart : Table default D 0 (found default [first]) first [] := by
        refine (Table.singleton hfirst.formed fun data hd =>
          hclean' data hd first (List.mem_cons_self ..)).congr ?_
        intro data
        rw [tableValue, found, List.findSome?_singleton, hfirst.decides_eq, tableValue]
        rw [if_congr (RangeRule.covers_iff hfirst.first_eq) rfl rfl]
        split
        case isTrue => rfl
        case isFalse => rfl
      have hreached : Reached [first] first := by
        rw [← List.nil_append [first]]
        exact reached_concat (fun _ hx => (List.not_mem_nil hx).elim) hfirst
          (fun _ hx => (List.not_mem_nil hx).elim) hfirst.first_eq.symm fun _ => rfl
      obtain ⟨c, prev, rest, hloop, hrules, ht⟩ := countLoop_spec (c := ⟨[first], 0, 0⟩) rfl hstart
        hreached hsingle hsorted fun data hd r hr => hclean' data hd r (List.mem_cons_of_mem _ hr)
      obtain ⟨toAdd, top', rest', hfix, ht', hadd⟩ := fixFirst_spec ht
      obtain ⟨top'', hfix', ht'', hlast⟩ := fixLast_spec ht' hadd
      obtain ⟨out, hout, hn⟩ := addMissingRules_spec ht'' hlast
      refine ⟨out, ?_, hn.done, fun data => (hn.value data).trans (hsame data)⟩
      have hcount : normalizeRulesCountMissing default (first :: others) =
          some (top'' :: rest', missing (2 ^ 32) (top'' :: rest')) := by
        rw [normalizeRulesCountMissing, hloop, Option.bind_eq_bind, Option.bind_some, hrules, hfix]
        simp only
        rw [List.reverse_reverse, hfix']
      rw [normalizeRules, hs, hcount]
      · exact hout
      · exact List.cons_ne_nil _ _

/-- **`normalize_rules`** returns, for the rules of `add_policy_rules`, a table that has each number
from 0 to `MAX_SYSCALL_NR` once; there it has what the first rule for the number came to. -/
theorem normalizeRules_correct (default : Action) (hb : Built rules)
    (hlen : rules.length < 2 ^ 31) :
    ∃ out, normalizeRules default rules = some out ∧ Tiles 0 out ∧ (∀ x ∈ out, x.Finished) ∧
      ∀ data, tableValue default data out = found default rules data := by
  obtain ⟨out, e, hnormal⟩ := normalizeRules_spec (D := fun _ => False) default hb hlen
    fun _ hfalse => hfalse.elim
  exact ⟨out, e, hnormal.done.tiles, hnormal.done.finished, hnormal.value⟩

/-- Two rules for one number. -/
theorem normalizeRules_correct_twice : ∃ out,
    normalizeRules (.basic .kill) (addRangeRule (addRangeRule [] (.single 5 (some (.basic .allow))))
      (.single 5 (some (.errno 1)))) = some out ∧ Tiles 0 out := by
  have hbuilt : Built (addRangeRule (addRangeRule [] (.single 5 (some (.basic .allow))))
      (.single 5 (some (.errno 1)))) :=
    (built_nil.addRangeRule single_action).addRangeRule single_action
  obtain ⟨out, e, htiles, -⟩ := normalizeRules_correct (.basic .kill) hbuilt (by decide)
  exact ⟨out, e, htiles⟩

end Kafel
