/-
# `YaojJudger.Kafel.Ranges` — the second half of `range_rules.c`: `normalize_rules`

The rules of single numbers become a table that covers every number once:

    sort             by number, and by priority among the rules of one number
    count_missing    the rules of one number become one, equal neighbours one
                     range, and a gap next to a range with the default action is
                     filled by it; the gaps that are left are counted
    add_missing      the rest of the gaps is filled, and every list of conditions
                     gets the default action at its end

The C works in place.  `count_missing` writes to slot `j` while it reads slot
`i`; where `j < i` there is room for the rule of a gap and the gap need not be
counted.  `add_missing` moves the rules up by as many slots as there are gaps
still to be filled below.  Here the slots below `j` are a list with the last one
first, and `i - j` is a number of its own.

Here are the definitions, and what holds of a table with gaps (`Table`).
-/
import YaojJudger.Kafel.Policy
import YaojJudger.FirstMatch.Sort

namespace Kafel

open FirstMatch

/-! ## Sorting -/

/-- `MAX_SYSCALL_NR`. -/
def maxSyscallNr : UInt32 := 0xffffffff

/-- `by_syscall_and_priority` does not return 1. -/
def bySyscallAndPriority (a b : RangeRule) : Prop :=
  a.first < b.first ∨ a.first = b.first ∧ a.priority ≤ b.priority

instance : DecidableRel bySyscallAndPriority :=
  fun a b => inferInstanceAs
    (Decidable (a.first < b.first ∨ a.first = b.first ∧ a.priority ≤ b.priority))

/-- `sort_range_rules`. -/
def sortRangeRules (rules : List RangeRule) : List RangeRule :=
  rules.insertionSort bySyscallAndPriority

/-! ## `normalize_rules_count_missing` -/

/-- The slots below `j`, the last one first; `i - j`; and `to_add`. -/
structure Counted where
  rules : List RangeRule
  slack : Nat
  toAdd : Nat
  deriving DecidableEq, Repr

/-- A rule for the number that is the last of `prev`. -/
def RangeRule.absorb (prev cur : RangeRule) : RangeRule :=
  if prev.action = none ∧ prev.hasCatchAllExpr = false then
    match cur.action with
    | none => { prev with exprList := prev.exprList ++ cur.exprList }
    | some action => prev.addExpr none action
  else prev

/-- A range with the default action. -/
def RangeRule.gap (first last : UInt32) (default : Action) : RangeRule :=
  { first := first, last := last, action := some default, priority := 0, exprList := [] }

/-- One turn of the loop; none if an assertion fails. -/
def countStep (default : Action) (c : Counted) (cur : RangeRule) : Option Counted :=
  match c.rules with
  | [] => none
  | prev :: rest =>
    if cur.first ≠ cur.last ∨ prev.action = none ∧ prev.first ≠ prev.last then none
    else if cur.first = prev.last then
      some { c with rules := prev.absorb cur :: rest, slack := c.slack + 1 }
    else if cur.first = prev.last + 1 then
      if prev.action ≠ none ∧ prev.action = cur.action then
        some { c with rules := { prev with last := cur.last } :: rest, slack := c.slack + 1 }
      else some { c with rules := cur :: prev :: rest }
    else if prev.action = some default then
      some { c with rules := cur :: { prev with last := cur.first - 1 } :: rest }
    else if cur.action = some default then
      some { c with rules := { cur with first := prev.last + 1 } :: prev :: rest }
    else if 0 < c.slack then
      some { c with
        rules := cur :: .gap (prev.last + 1) (cur.first - 1) default :: prev :: rest
        slack := c.slack - 1 }
    else some { c with rules := cur :: prev :: rest, toAdd := c.toAdd + 1 }

/-- The first rule is made to start at 0. -/
def fixFirst (default : Action) (rules : List RangeRule) (toAdd : Nat) : List RangeRule × Nat :=
  match rules with
  | [] => ([], toAdd)
  | first :: rest =>
    if first.first ≠ 0 then
      if first.action = some default then ({ first with first := 0 } :: rest, toAdd)
      else (first :: rest, toAdd + 1)
    else (first :: rest, toAdd)

/-- The last rule, here the first in the list, is made to end at the last number. -/
def fixLast (default : Action) (rules : List RangeRule) (toAdd : Nat) : List RangeRule × Nat :=
  match rules with
  | [] => ([], toAdd)
  | last :: rest =>
    if last.last ≠ maxSyscallNr then
      if last.action = some default then ({ last with last := maxSyscallNr } :: rest, toAdd)
      else (last :: rest, toAdd + 1)
    else (last :: rest, toAdd)

/-- `normalize_rules_count_missing`: the rules with the last one first, and `to_add`. -/
def normalizeRulesCountMissing (default : Action) (rules : List RangeRule) :
    Option (List RangeRule × Nat) :=
  match rules with
  | [] => none
  | rule :: rules => do
    let c ← rules.foldlM (countStep default) ⟨[rule], 0, 0⟩
    let (rules, toAdd) := fixFirst default c.rules.reverse c.toAdd
    some (fixLast default rules.reverse toAdd)

/-! ## `add_missing_rules` -/

/-- The loop, from the last rule down: what is already in place, and the rule put there last. -/
def addMissingLoop (default : Action) :
    List RangeRule → Nat → List RangeRule → Option RangeRule → Option (List RangeRule × Nat)
  | [], toAdd, out, _ => some (out, toAdd)
  | cur :: rules, toAdd, out, prev =>
    let dst := if cur.action = none then cur.addExpr none default else cur
    match prev with
    | some p =>
      if p.first ≠ cur.last + 1 then
        if toAdd = 0 then none
        else
          addMissingLoop default rules (toAdd - 1)
            (dst :: .gap (cur.last + 1) (p.first - 1) default :: out) (some dst)
      else addMissingLoop default rules toAdd (dst :: out) (some dst)
    | none => addMissingLoop default rules toAdd (dst :: out) (some dst)

/-- The end of it: the gap before the first rule. -/
def addMissingFirst (default : Action) : List RangeRule × Nat → Option (List RangeRule)
  | (out, 0) => some out
  | (rule :: out, 1) =>
    if 0 < rule.first then some (.gap 0 (rule.first - 1) default :: rule :: out) else none
  | _ => none

/-- `add_missing_rules`, of the rules with the last one first. -/
def addMissingRules (default : Action) (rules : List RangeRule) (toAdd : Nat) :
    Option (List RangeRule) :=
  match rules with
  | [] => none
  | lastRule :: _ =>
    if lastRule.last ≠ maxSyscallNr then
      if lastRule.action = some default ∨ toAdd = 0 then none
      else do
        addMissingFirst default
          (← addMissingLoop default rules (toAdd - 1)
            [.gap (lastRule.last + 1) maxSyscallNr default] none)
    else do addMissingFirst default (← addMissingLoop default rules toAdd [] none)

/-- `normalize_rules`. -/
def normalizeRules (default : Action) (rules : List RangeRule) : Option (List RangeRule) :=
  match rules with
  | [] => some (addRangeRule [] (.gap 0 maxSyscallNr default))
  | rules => do
    let (rules, toAdd) ← normalizeRulesCountMissing default (sortRangeRules rules)
    addMissingRules default rules toAdd

/-! ## Tables -/

/-- What a table comes to, whichever way it is ordered. -/
def tableValue (default : Action) (data : SeccompData) : List RangeRule → Action
  | [] => default
  | rule :: rules =>
    if rule.Covers data.nr then (rule.outcome data.args).getD default
    else tableValue default data rules

/-- Conditions only, none of them a constant. -/
def Rungs (l : List (Option (Expr Arg) × Action)) : Prop := ∀ x ∈ l, ∃ e, x.1 = some e ∧ e.Plain

/-- Conditions, and an action for when none holds. -/
def Ladder (l : List (Option (Expr Arg) × Action)) : Prop :=
  ∃ rungs action, l = rungs ++ [(none, action)] ∧ Rungs rungs

/-- A rule of a table: a range with an action, or one number with conditions. -/
structure RangeRule.Formed (rule : RangeRule) : Prop where
  proper : rule.first ≤ rule.last
  shape : (∃ action, rule.action = some action ∧ rule.exprList = []) ∨
    rule.action = none ∧ rule.first = rule.last ∧ (Rungs rule.exprList ∨ Ladder rule.exprList)

variable {default action : Action} {data : SeccompData} {rule prev cur top : RangeRule}
  {rules rules' rest : List RangeRule} {args : Fin 6 → UInt64} {k : Nat}

theorem toNat_succ {a b : UInt32} (h : a < b) : (a + 1).toNat = a.toNat + 1 := by
  rw [UInt32.lt_iff_toNat_lt] at h
  have hb := b.toNat_lt
  rw [UInt32.toNat_add, show (1 : UInt32).toNat = 1 from rfl]
  exact Nat.mod_eq_of_lt (by omega)

theorem toNat_pred {a b : UInt32} (h : a < b) : (b - 1).toNat = b.toNat - 1 := by
  rw [UInt32.lt_iff_toNat_lt] at h
  have hle : (1 : UInt32) ≤ b := by
    rw [UInt32.le_iff_toNat_le, show (1 : UInt32).toNat = 1 from rfl]
    omega
  rw [UInt32.toNat_sub_of_le _ _ hle]
  rfl

theorem RangeRule.covers_iff_toNat {nr : UInt32} :
    rule.Covers nr ↔ rule.first.toNat ≤ nr.toNat ∧ nr.toNat ≤ rule.last.toNat := by
  rw [Covers, UInt32.le_iff_toNat_le, UInt32.le_iff_toNat_le]

theorem tableValue_cons_of_covers (h : rule.Covers data.nr) :
    tableValue default data (rule :: rules) = (rule.outcome data.args).getD default := by
  rw [tableValue, if_pos h]

theorem tableValue_cons_of_not (h : ¬ rule.Covers data.nr) :
    tableValue default data (rule :: rules) = tableValue default data rules := by
  rw [tableValue, if_neg h]

/-! ## Lists of conditions -/

theorem hasCatchAllExpr_of_rungs (h : Rungs rule.exprList) : rule.hasCatchAllExpr = false := by
  unfold RangeRule.hasCatchAllExpr
  cases hl : rule.exprList.getLast? with
  | none => rfl
  | some x =>
      obtain ⟨e, he, hplain⟩ := h x (List.mem_of_getLast? hl)
      obtain ⟨expr, action⟩ := x
      obtain rfl : expr = some e := he
      have hne : e ≠ .tt := by
        rintro rfl
        exact hplain
      simp [hne]

theorem hasCatchAllExpr_of_ladder (h : Ladder rule.exprList) : rule.hasCatchAllExpr = true := by
  obtain ⟨rungs, action, hl, -⟩ := h
  unfold RangeRule.hasCatchAllExpr
  rw [hl, List.getLast?_append_of_ne_nil _ (List.cons_ne_nil _ _)]
  rfl

theorem Rungs.append {l l' : List (Option (Expr Arg) × Action)} (h : Rungs l) (h' : Rungs l') :
    Rungs (l ++ l') := by
  intro x hx
  rcases List.mem_append.mp hx with hx | hx
  · exact h x hx
  · exact h' x hx

/-- What a list of conditions comes to. -/
def ladderOutcome (args : Fin 6 → UInt64) (l : List (Option (Expr Arg) × Action)) : Option Action :=
  l.findSome? fun x =>
    if x.1.all fun expr => expr.holds (Arg.value args) then some x.2 else none

theorem outcome_of_none (h : rule.action = none) :
    rule.outcome args = ladderOutcome args rule.exprList := by
  rw [RangeRule.outcome, h]
  rfl

theorem outcome_of_some (h : rule.action = some action) : rule.outcome args = some action := by
  rw [RangeRule.outcome, h]

theorem ladderOutcome_append {l l' : List (Option (Expr Arg) × Action)} :
    ladderOutcome args (l ++ l') = (ladderOutcome args l).or (ladderOutcome args l') :=
  List.findSome?_append

theorem ladderOutcome_none : ladderOutcome args [(none, action)] = some action := rfl

theorem ladderOutcome_isSome {l : List (Option (Expr Arg) × Action)} (h : Ladder l) :
    ∃ a, ladderOutcome args l = some a := by
  obtain ⟨rungs, action, rfl, -⟩ := h
  rw [ladderOutcome_append, ladderOutcome_none]
  cases ladderOutcome args rungs with
  | none => exact ⟨action, rfl⟩
  | some a => exact ⟨a, rfl⟩

/-- A default at the end of the conditions. -/
theorem addExpr_none (hn : rule.action = none)
    (h : Rungs rule.exprList ∨ Ladder rule.exprList) :
    Ladder (rule.addExpr none action).exprList ∧
      (rule.addExpr none action).outcome args = (rule.outcome args).or (some action) := by
  unfold RangeRule.addExpr
  rcases h with h | h
  · rw [hasCatchAllExpr_of_rungs h]
    refine ⟨⟨rule.exprList, action, rfl, h⟩, ?_⟩
    have hadd : RangeRule.outcome args { rule with exprList := rule.exprList ++ [(none, action)] } =
        ladderOutcome args (rule.exprList ++ [(none, action)]) := outcome_of_none hn
    rw [outcome_of_none hn, ← @ladderOutcome_none _ args, ← ladderOutcome_append]
    exact hadd
  · rw [hasCatchAllExpr_of_ladder h]
    refine ⟨h, ?_⟩
    obtain ⟨a, ha⟩ : ∃ a, ladderOutcome args rule.exprList = some a := ladderOutcome_isSome h
    rw [if_pos rfl, outcome_of_none hn, ha]
    rfl

theorem addExpr_fields {expr : Option (Expr Arg)} :
    (rule.addExpr expr action).first = rule.first ∧ (rule.addExpr expr action).last = rule.last ∧
      (rule.addExpr expr action).action = rule.action := by
  unfold RangeRule.addExpr
  split
  · exact ⟨rfl, rfl, rfl⟩
  · exact ⟨rfl, rfl, rfl⟩

theorem RangeRule.Single.formed (h : rule.Single) : rule.Formed := by
  refine ⟨h.first_eq ▸ UInt32.le_refl _, ?_⟩
  rcases h.shape with hp | ⟨e, a, hn, hl, hplain⟩
  · exact .inl hp
  · refine .inr ⟨hn, h.first_eq, .inl ?_⟩
    rw [hl]
    intro x hx
    obtain rfl := List.mem_singleton.mp hx
    exact ⟨e, rfl, hplain⟩

/-- The rules of one number become one. -/
theorem absorb_spec (hp : prev.Formed) (hc : cur.Single) :
    (prev.absorb cur).first = prev.first ∧ (prev.absorb cur).last = prev.last ∧
      (prev.absorb cur).Formed ∧
      ∀ args, (prev.absorb cur).outcome args = (prev.outcome args).or (cur.outcome args) := by
  unfold RangeRule.absorb
  rcases hp.shape with ⟨a, ha, -⟩ | ⟨hn, hfl, hopen | hladder⟩
  · rw [if_neg (by rw [ha]; simp)]
    refine ⟨rfl, rfl, hp, ?_⟩
    intro args
    rw [outcome_of_some ha]
    rfl
  · rw [if_pos ⟨hn, hasCatchAllExpr_of_rungs hopen⟩]
    rcases hc.shape with ⟨a, ha, -⟩ | ⟨e, a, hcn, hl, hplain⟩
    · rw [ha]
      have hadd : ∀ args, Ladder (prev.addExpr none a).exprList ∧
          (prev.addExpr none a).outcome args = (prev.outcome args).or (some a) :=
        fun _ => addExpr_none hn (.inl hopen)
      obtain ⟨h₁, h₂, h₃⟩ := @addExpr_fields a prev none
      refine ⟨h₁, h₂, ⟨?_, .inr ⟨h₃.trans hn, ?_, .inr (hadd fun _ => 0).1⟩⟩, ?_⟩
      · rw [h₁, h₂]
        exact hp.proper
      · rw [h₁, h₂, hfl]
      · intro args
        rw [outcome_of_some ha]
        exact (hadd args).2
    · rw [hcn]
      refine ⟨rfl, rfl, ⟨hp.proper, .inr ⟨hn, hfl, .inl ?_⟩⟩, ?_⟩
      · refine hopen.append ?_
        rw [hl]
        intro x hx
        obtain rfl := List.mem_singleton.mp hx
        exact ⟨e, rfl, hplain⟩
      · intro args
        rw [outcome_of_none hcn, outcome_of_none hn, ← ladderOutcome_append]
        exact outcome_of_none hn
  · rw [if_neg (by rw [hasCatchAllExpr_of_ladder hladder]; simp)]
    refine ⟨rfl, rfl, hp, ?_⟩
    intro args
    obtain ⟨a, ha⟩ : ∃ a, ladderOutcome args prev.exprList = some a := ladderOutcome_isSome hladder
    rw [outcome_of_none hn, ha]
    rfl

/-! ## Tables with gaps -/

/-- The gaps below a rule that starts at `lo`. -/
def gaps : Nat → List RangeRule → Nat
  | _, [] => 0
  | lo, rule :: rules => (if lo = rule.last.toNat + 1 then 0 else 1) + gaps rule.first.toNat rules

/-- A table with the last rule first: its gaps, and what it comes to.  `D` are
the calls the conditions are clean for. -/
structure Table (default : Action) (D : SeccompData → Prop) (k : Nat) (v : SeccompData → Action)
    (top : RangeRule) (rest : List RangeRule) : Prop where
  formed : ∀ x ∈ top :: rest, x.Formed
  falls : (top :: rest).Pairwise fun x y => y.last < x.first
  gaps : k = gaps top.first.toNat rest
  value : ∀ data, tableValue default data (top :: rest) = v data
  clean : ∀ data, D data → ∀ x ∈ top :: rest, x.Clean data

variable {D : SeccompData → Prop} {v v' : SeccompData → Action}

theorem Table.congr (h : Table default D k v top rest) (hv : ∀ data, v data = v' data) :
    Table default D k v' top rest :=
  ⟨h.formed, h.falls, h.gaps, fun data => (h.value data).trans (hv data), h.clean⟩

/-- Above the top there is nothing. -/
theorem Table.above (h : Table default D k v top rest) (hnr : top.last < data.nr) :
    v data = default := by
  have hall : ∀ x ∈ top :: rest, ¬ x.Covers data.nr := by
    intro x hx hcov
    rw [RangeRule.covers_iff_toNat] at hcov
    rw [UInt32.lt_iff_toNat_lt] at hnr
    rcases List.mem_cons.mp hx with rfl | hx
    · omega
    · have hlt := (List.pairwise_cons.mp h.falls).1 x hx
      have hproper := (h.formed top (List.mem_cons_self ..)).proper
      rw [UInt32.lt_iff_toNat_lt] at hlt
      rw [UInt32.le_iff_toNat_le] at hproper
      omega
  rw [← h.value]
  clear h hnr
  generalize top :: rest = l at hall
  induction l with
  | nil => rfl
  | cons x l ih =>
      rw [tableValue_cons_of_not (hall x (List.mem_cons_self ..))]
      exact ih fun y hy => hall y (List.mem_cons_of_mem _ hy)

theorem Table.singleton (hf : top.Formed) (hc : ∀ data, D data → top.Clean data) :
    Table default D 0 (fun data => tableValue default data [top]) top [] := by
  refine ⟨?_, List.pairwise_singleton _ _, rfl, fun _ => rfl, ?_⟩
  · intro x hx
    obtain rfl := List.mem_singleton.mp hx
    exact hf
  · intro data hd x hx
    obtain rfl := List.mem_singleton.mp hx
    exact hc data hd

/-- A rule on top. -/
theorem Table.push (h : Table default D k v prev rest) (hf : cur.Formed)
    (hc : ∀ data, D data → cur.Clean data) (hlt : prev.last < cur.first) :
    Table default D ((if cur.first.toNat = prev.last.toNat + 1 then 0 else 1) + k)
      (fun data => if cur.Covers data.nr then (cur.outcome data.args).getD default else v data)
      cur (prev :: rest) := by
  refine ⟨?_, ?_, ?_, ?_, ?_⟩
  · exact List.forall_mem_cons.mpr ⟨hf, h.formed⟩
  · refine List.pairwise_cons.mpr ⟨?_, h.falls⟩
    intro x hx
    rcases List.mem_cons.mp hx with rfl | hx
    · exact hlt
    · have hproper := (h.formed prev (List.mem_cons_self ..)).proper
      have hbelow := (List.pairwise_cons.mp h.falls).1 x hx
      rw [UInt32.lt_iff_toNat_lt] at hlt hbelow ⊢
      rw [UInt32.le_iff_toNat_le] at hproper
      omega
  · rw [Kafel.gaps, ← h.gaps]
  · intro data
    rw [tableValue, h.value]
  · intro data hd
    exact List.forall_mem_cons.mpr ⟨hc data hd, h.clean data hd⟩

/-- Another top of the same range. -/
theorem Table.swapTop (h : Table default D k v prev rest) (hf : top.Formed)
    (hc : ∀ data, D data → top.Clean data) (hfirst : top.first = prev.first)
    (hlast : top.last = prev.last) :
    Table default D k
      (fun data => if prev.Covers data.nr then (top.outcome data.args).getD default else v data)
      top rest := by
  have hcov : ∀ nr, top.Covers nr ↔ prev.Covers nr := by
    intro nr
    rw [RangeRule.Covers, RangeRule.Covers, hfirst, hlast]
  refine ⟨?_, ?_, ?_, ?_, ?_⟩
  · exact List.forall_mem_cons.mpr ⟨hf, (List.forall_mem_cons.mp h.formed).2⟩
  · refine List.pairwise_cons.mpr ⟨?_, h.falls.of_cons⟩
    rw [hfirst]
    exact (List.pairwise_cons.mp h.falls).1
  · rw [hfirst]
    exact h.gaps
  · intro data
    rw [tableValue, ← h.value data, tableValue]
    by_cases hp : prev.Covers data.nr
    · rw [if_pos ((hcov _).mpr hp), if_pos hp]
    · rw [if_neg (fun ht => hp ((hcov _).mp ht)), if_neg hp, if_neg hp]
  · intro data hd
    exact List.forall_mem_cons.mpr ⟨hc data hd, (List.forall_mem_cons.mp (h.clean data hd)).2⟩

/-- The top reaches further up. -/
theorem Table.extend (h : Table default D k v prev rest) (ha : prev.action = some action)
    {m : UInt32} (hm : prev.last ≤ m) :
    Table default D k
      (fun data => if prev.last < data.nr ∧ data.nr ≤ m then action else v data)
      { prev with last := m } rest := by
  have hf := h.formed prev (List.mem_cons_self ..)
  have hl : prev.exprList = [] := by
    rcases hf.shape with ⟨a, -, hl⟩ | ⟨hn, -⟩
    · exact hl
    · rw [hn] at ha
      cases ha
  refine ⟨?_, ?_, h.gaps, ?_, ?_⟩
  · refine List.forall_mem_cons.mpr ⟨⟨?_, .inl ⟨action, ha, hl⟩⟩,
      (List.forall_mem_cons.mp h.formed).2⟩
    exact UInt32.le_trans hf.proper hm
  · exact List.pairwise_cons.mpr ⟨(List.pairwise_cons.mp h.falls).1, h.falls.of_cons⟩
  · intro data
    have hout : RangeRule.outcome data.args { prev with last := m } = some action :=
      outcome_of_some ha
    have hproper := hf.proper
    have hcov : RangeRule.Covers { prev with last := m } data.nr ↔
        prev.Covers data.nr ∨ prev.last < data.nr ∧ data.nr ≤ m := by
      rw [RangeRule.covers_iff_toNat, RangeRule.covers_iff_toNat, UInt32.lt_iff_toNat_lt,
        UInt32.le_iff_toNat_le]
      rw [UInt32.le_iff_toNat_le] at hm hproper
      simp only
      omega
    by_cases hnr : prev.last < data.nr ∧ data.nr ≤ m
    · rw [tableValue_cons_of_covers (hcov.mpr (.inr hnr)), hout, if_pos hnr]
      rfl
    · rw [if_neg hnr, ← h.value data, tableValue, tableValue]
      refine if_congr (by rw [hcov, or_iff_left hnr]) ?_ rfl
      rw [hout, outcome_of_some ha]
  · intro data hd
    refine List.forall_mem_cons.mpr ⟨?_, (List.forall_mem_cons.mp (h.clean data hd)).2⟩
    intro _ expr a hmem
    rw [show RangeRule.exprList { prev with last := m } = prev.exprList from rfl, hl] at hmem
    cases hmem

/-- A top with the default action may reach further up without any difference. -/
theorem Table.widen (h : Table default D k v prev rest) (ha : prev.action = some default)
    {m : UInt32} (hm : prev.last ≤ m) : Table default D k v { prev with last := m } rest := by
  refine (h.extend ha hm).congr ?_
  intro data
  split
  case isTrue hnr => exact (h.above hnr.1).symm
  case isFalse => rfl

theorem formed_plain {first last : UInt32} {priority : Int} (h : first ≤ last) :
    RangeRule.Formed ⟨first, last, some action, priority, []⟩ :=
  ⟨h, .inl ⟨action, rfl, rfl⟩⟩

theorem clean_plain {first last : UInt32} {priority : Int} {act : Option Action} :
    RangeRule.Clean data ⟨first, last, act, priority, []⟩ := by
  intro _ expr a hmem
  cases hmem

/-- A rule with the default action on top, from the end of the table on, makes no
difference. -/
theorem Table.fill (h : Table default D k v prev rest) (priority : Int) {m : UInt32}
    (hm : prev.last < m) :
    Table default D k v ⟨prev.last + 1, m, some default, priority, []⟩ (prev :: rest) := by
  have hsucc := toNat_succ hm
  have hlt : prev.last < prev.last + 1 := by
    rw [UInt32.lt_iff_toNat_lt, hsucc]
    omega
  have hle : prev.last + 1 ≤ m := by
    rw [UInt32.le_iff_toNat_le, hsucc]
    rw [UInt32.lt_iff_toNat_lt] at hm
    omega
  have hformed : RangeRule.Formed ⟨prev.last + 1, m, some default, priority, []⟩ :=
    formed_plain hle
  have hp := h.push hformed (fun _ _ => clean_plain) hlt
  rw [if_pos hsucc, Nat.zero_add] at hp
  refine hp.congr ?_
  intro data
  split
  case isTrue hcov => exact (h.above (UInt32.lt_of_lt_of_le hlt hcov.1)).symm
  case isFalse => rfl

end Kafel
