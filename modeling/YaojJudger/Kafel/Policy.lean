/-
# `YaojJudger.Kafel.Policy` — `policy.c` and the first half of `range_rules.c`

A policy is a list of entries: `ACTION { filters }`, or `USE` of another policy.
`add_policy_rules` turns the main policy into a list of rules, one for each
filter, in the order in which they are to be tried.

**Its meaning** is that of the list with every `USE` written out
(`PolicyDecides`): the first filter that admits the call decides.  The C enters
each policy once for an architecture; that this comes to the same is
`FirstMatch.items_decides`.

**Proved here.**  `add_policy_rules` returns if every name it looks up is there
(`addPolicyRules_isSome`), its rules decide as the policy does
(`addPolicyRules_decides`), and there are no more of them than filters
(`addPolicyRules_length`).
-/
import YaojJudger.Kafel.Expr
import YaojJudger.FirstMatch.Expand
import Mathlib.Algebra.BigOperators.Fin

namespace Kafel

open FirstMatch

/-! ## `policy.h`, `syscall.h` -/

/-- The actions up to `ACTION_BASIC_MAX`. -/
inductive BasicAction where
  | kill
  | allow
  | log
  | killProcess
  | userNotif
  deriving DecidableEq, Repr

inductive Action where
  | basic (b : BasicAction)
  | trap (value : UInt16)
  | errno (value : UInt16)
  | trace (value : UInt16)
  deriving DecidableEq, Repr

/-- `struct syscall_descriptor`. -/
structure SyscallDescriptor where
  name : String
  nr : UInt32
  args : SyscallArgs

/-- `struct syscall_list`. -/
structure SyscallList where
  kafelArch : UInt32
  auditArch : UInt32
  syscalls : List SyscallDescriptor

/-- `syscall_lookup`. -/
def syscallLookup (list : SyscallList) (name : String) : Option SyscallDescriptor :=
  list.syscalls.find? fun desc => name == desc.name

inductive SyscallSpecType where
  | id (identifier : Identifier)
  | custom (syscallNr : UInt32)
  deriving DecidableEq, Repr

/-- `struct syscall_spec`; the arguments are there if they were declared. -/
structure SyscallSpec where
  type : SyscallSpecType
  customArgs : Option SyscallArgs

/-- `syscall_spec_get_syscall_nr`. -/
def SyscallSpec.getSyscallNr (spec : SyscallSpec) (list : SyscallList) : Option UInt32 :=
  match spec.type with
  | .id identifier => (syscallLookup list identifier.id).map (·.nr)
  | .custom syscallNr => some syscallNr

/-- `syscall_spec_get_args`. -/
def SyscallSpec.getArgs (spec : SyscallSpec) (list : SyscallList) : Option SyscallArgs :=
  match spec.customArgs with
  | some args => some args
  | none =>
    match spec.type with
    | .id identifier => (syscallLookup list identifier.id).map (·.args)
    | .custom _ => some fun _ => ⟨none, 0⟩

/-- `struct syscall_filter`. -/
structure SyscallFilter where
  syscall : SyscallSpec
  expr : Option (Expr Identifier)

/-- What a `POLICY_ACTION` entry holds. -/
structure ActionBlock where
  action : Action
  filters : List SyscallFilter

/-- `struct policy_entry`; a policy used is given by its number. -/
abbrev PolicyEntry := Entry Nat ActionBlock

/-! ## `range_rules.h` -/

/-- `struct syscall_range_rule`; no action is `ACTION_CONDITIONAL`, no condition `NULL`. -/
structure RangeRule where
  first : UInt32
  last : UInt32
  action : Option Action
  priority : Int
  exprList : List (Option (Expr Arg) × Action)
  deriving DecidableEq, Repr

/-- `rule_has_catch_all_expr`. -/
def RangeRule.hasCatchAllExpr (rule : RangeRule) : Bool :=
  match rule.exprList.getLast? with
  | none => false
  | some (expr, _) => expr == none || expr == some .tt

/-- `rule_add_expr`. -/
def RangeRule.addExpr (rule : RangeRule) (expr : Option (Expr Arg)) (action : Action) :
    RangeRule :=
  if rule.hasCatchAllExpr then rule
  else { rule with exprList := rule.exprList ++ [(expr, action)] }

/-- A length as an `int`. -/
def toInt (len : Nat) : Int := Int.bmod len 4294967296

/-- `add_range_rule`. -/
def addRangeRule (rules : List RangeRule) (rule : RangeRule) : List RangeRule :=
  rules ++ [{ rule with priority := toInt (rules.length + 1) }]

/-- The rule of one number as it starts out. -/
def RangeRule.single (nr : UInt32) (action : Option Action) : RangeRule :=
  { first := nr, last := nr, action := action, priority := 0, exprList := [] }

/-- The same with one condition. -/
def RangeRule.conditional (nr : UInt32) (expr : Expr Arg) (action : Action) : RangeRule :=
  (RangeRule.single nr none).addExpr (some expr) action

/-- The body of the loop of `add_filters`. -/
def addFilter (list : SyscallList) (action : Action) (rules : List RangeRule)
    (filter : SyscallFilter) : Option (List RangeRule) := do
  let syscallNr ← filter.syscall.getSyscallNr list
  match filter.expr with
  | none => some (addRangeRule rules (.single syscallNr (some action)))
  | some expr =>
    let args ← filter.syscall.getArgs list
    let expr ← expr.resolve args
    match expr.simplify with
    | .tt => some (addRangeRule rules (.single syscallNr (some action)))
    | .ff => some rules
    | expr => some (addRangeRule rules (.conditional syscallNr expr action))

/-- `add_filters`. -/
def addFilters (list : SyscallList) (rules : List RangeRule) (entry : ActionBlock) :
    Option (List RangeRule) :=
  entry.filters.foldlM (addFilter list entry.action) rules

/-- The entries of the policy of a number. -/
def book (policies : List (List PolicyEntry)) (i : Nat) : List PolicyEntry := policies.getD i []

/-- The policies of a context.  A policy can be used once it is registered, so
there is an order in which each uses only those before it. -/
structure Policies where
  entries : List (List PolicyEntry)
  ranked : ∃ rank, Ranked rank (book entries)
  within : ∀ i, Within entries.length (book entries i)

/-- More steps than the loop takes. -/
def Policies.fuel (policies : Policies) (i : Nat) : Nat :=
  (book policies.entries i).length + 1 +
    (policies.entries.map fun entries => entries.length + 1).sum

/-- `add_policy_rules` of a policy, none being marked as used. -/
def addPolicyRules (policies : Policies) (list : SyscallList) (rules : List RangeRule)
    (policy : Nat) : Option (List RangeRule) :=
  walk (book policies.entries) (addFilters list) (policies.fuel policy) [] rules
    [book policies.entries policy]

/-! ## What a policy means -/

/-- `struct seccomp_data`. -/
structure SeccompData where
  nr : UInt32
  arch : UInt32
  instructionPointer : UInt64
  args : Fin 6 → UInt64

/-- The value of an identifier in a filter. -/
def SyscallFilter.value (list : SyscallList) (filter : SyscallFilter) (data : SeccompData)
    (identifier : Identifier) : UInt64 :=
  match (filter.syscall.getArgs list).bind fun args => resolveId args identifier.id with
  | some arg => arg.value data.args
  | none => 0

/-- A filter is for this call, and its condition holds. -/
def SyscallFilter.admits (list : SyscallList) (data : SeccompData) (filter : SyscallFilter) :
    Bool :=
  filter.syscall.getSyscallNr list == some data.nr &&
    filter.expr.all fun expr => expr.holds (filter.value list data)

def ActionBlock.decides (list : SyscallList) (data : SeccompData) (entry : ActionBlock) :
    Option Action :=
  if entry.filters.any (SyscallFilter.admits list data) then some entry.action else none

/-- **What a policy does with a call**; none if nothing in it applies. -/
def PolicyDecides (policies : Policies) (list : SyscallList) (data : SeccompData) (policy : Nat)
    (r : Option Action) : Prop :=
  Decides (book policies.entries) (ActionBlock.decides list data) (book policies.entries policy) r

/-- What a rule comes to on its numbers. -/
def RangeRule.outcome (args : Fin 6 → UInt64) (rule : RangeRule) : Option Action :=
  match rule.action with
  | some action => some action
  | none =>
    rule.exprList.findSome? fun x =>
      if x.1.all fun expr => expr.holds (Arg.value args) then some x.2 else none

def RangeRule.Covers (rule : RangeRule) (nr : UInt32) : Prop := rule.first ≤ nr ∧ nr ≤ rule.last

instance (rule : RangeRule) (nr : UInt32) : Decidable (rule.Covers nr) :=
  inferInstanceAs (Decidable (_ ∧ _))

def RangeRule.decides (data : SeccompData) (rule : RangeRule) : Option Action :=
  if rule.Covers data.nr then rule.outcome data.args else none

/-- The filter's condition on the arguments of its call. -/
def SyscallFilter.condition (list : SyscallList) (filter : SyscallFilter) : Option (Expr Arg) := do
  let expr ← filter.expr
  let args ← filter.syscall.getArgs list
  expr.resolve args

/-- The call is clean for a filter, unless the filter is for another call. -/
def SyscallFilter.Clean (list : SyscallList) (data : SeccompData) (filter : SyscallFilter) : Prop :=
  filter.syscall.getSyscallNr list = some data.nr →
    ∀ expr, filter.condition list = some expr → expr.Clean data.args

/-- A property of all filters of all policies. -/
def Policies.All (policies : Policies) (P : SyscallFilter → Prop) : Prop :=
  ∀ i entry, Entry.item entry ∈ book policies.entries i → ∀ filter ∈ entry.filters, P filter

/-- The conditions of a rule are clean for the calls it is for. -/
def RangeRule.Clean (data : SeccompData) (rule : RangeRule) : Prop :=
  rule.Covers data.nr → ∀ expr action, (some expr, action) ∈ rule.exprList → expr.Clean data.args

/-- A rule as `add_filters` makes it. -/
structure RangeRule.Single (rule : RangeRule) : Prop where
  first_eq : rule.first = rule.last
  shape : (∃ action, rule.action = some action ∧ rule.exprList = []) ∨
    (∃ expr action, rule.action = none ∧ rule.exprList = [(some expr, action)] ∧ expr.Plain)

variable {list : SyscallList} {data : SeccompData} {filter : SyscallFilter} {action : Action}
  {rules rules' : List RangeRule} {policies : Policies} {policy : Nat}

/-! ## A filter -/

theorem resolve_operand_value {sargs : SyscallArgs} {args : Fin 6 → UInt64}
    {val : Identifier → UInt64}
    (hval : ∀ v arg, resolveId sargs v.id = some arg → val v = arg.value args)
    {o : Operand Identifier}
    {o' : Operand Arg} (h : o.resolve sargs = some o') :
    o'.value (Arg.value args) = o.value val := by
  induction o generalizing o' with
  | number =>
      cases h
      rfl
  | var id =>
      obtain ⟨arg, harg, rfl⟩ := Option.map_eq_some_iff.mp h
      exact (hval id arg harg).symm
  | bit op left right ihl ihr =>
      simp only [Operand.resolve, Option.bind_eq_bind, Option.bind_eq_some_iff] at h
      obtain ⟨left', hl, right', hr, ho⟩ := h
      obtain rfl := Option.some.inj ho
      rw [Operand.value, Operand.value, ihl hl, ihr hr]

/-- A condition means the same by name and by number. -/
theorem resolve_holds {sargs : SyscallArgs} {args : Fin 6 → UInt64} {val : Identifier → UInt64}
    (hval : ∀ v arg, resolveId sargs v.id = some arg → val v = arg.value args) {e : Expr Identifier}
    {e' : Expr Arg} (h : e.resolve sargs = some e') : e'.holds (Arg.value args) = e.holds val := by
  induction e generalizing e' with
  | tt | ff =>
      cases h
      rfl
  | not child ih =>
      obtain ⟨child', hc, rfl⟩ := Option.map_eq_some_iff.mp h
      rw [Expr.holds, Expr.holds, ih hc]
  | logic op left right ihl ihr =>
      simp only [Expr.resolve, Option.bind_eq_bind, Option.bind_eq_some_iff] at h
      obtain ⟨left', hl, right', hr, ho⟩ := h
      obtain rfl := Option.some.inj ho
      rw [Expr.holds, Expr.holds, ihl hl, ihr hr]
  | cmp op left right =>
      simp only [Expr.resolve, Option.bind_eq_bind, Option.bind_eq_some_iff] at h
      obtain ⟨left', hl, right', hr, ho⟩ := h
      obtain rfl := Option.some.inj ho
      rw [Expr.holds, Expr.holds, resolve_operand_value hval hl, resolve_operand_value hval hr]

theorem condition_holds {expr : Expr Identifier} {expr' : Expr Arg} (he : filter.expr = some expr)
    (h : filter.condition list = some expr') :
    expr'.holds (Arg.value data.args) = expr.holds (filter.value list data) := by
  simp only [SyscallFilter.condition, he, Option.bind_eq_bind, Option.bind_some,
    Option.bind_eq_some_iff] at h
  obtain ⟨sargs, hargs, hres⟩ := h
  refine resolve_holds ?_ hres
  intro id arg harg
  rw [SyscallFilter.value, hargs, Option.bind_some, harg]

/-- What one filter can do to the rules. -/
theorem addFilter_cases (h : addFilter list action rules filter = some rules') :
    ∃ nr, filter.syscall.getSyscallNr list = some nr ∧
      ((filter.expr = none ∨ ∃ expr, filter.condition list = some expr ∧ expr.simplify = .tt) ∧
          rules' = addRangeRule rules (.single nr (some action)) ∨
        (∃ expr, filter.condition list = some expr ∧ expr.simplify = .ff) ∧ rules' = rules ∨
        (∃ expr, filter.condition list = some expr ∧ expr.simplify.Plain ∧
          rules' = addRangeRule rules (.conditional nr expr.simplify action))) := by
  simp only [addFilter, Option.bind_eq_bind, Option.bind_eq_some_iff] at h
  obtain ⟨nr, hnr, h⟩ := h
  refine ⟨nr, hnr, ?_⟩
  cases he : filter.expr with
  | none =>
      rw [he] at h
      exact .inl ⟨.inl rfl, (Option.some.inj h).symm⟩
  | some expr =>
      rw [he] at h
      simp only [Option.bind_eq_some_iff] at h
      obtain ⟨sargs, hargs, expr', hres, h⟩ := h
      have hcond : filter.condition list = some expr' := by
        simp only [SyscallFilter.condition, he, hargs, Option.bind_eq_bind, Option.bind_some, hres]
      rcases expr'.simplify_reduced with hs | hs | hs
      · rw [hs] at h
        exact .inl ⟨.inr ⟨expr', hcond, hs⟩, (Option.some.inj h).symm⟩
      · rw [hs] at h
        exact .inr (.inl ⟨⟨expr', hcond, hs⟩, (Option.some.inj h).symm⟩)
      · refine .inr (.inr ⟨expr', hcond, hs, ?_⟩)
        revert h hs
        cases expr'.simplify with
        | tt | ff => exact fun _ hs => hs.elim
        | not | logic | cmp => exact fun h _ => (Option.some.inj h).symm

theorem decides_priority {rule : RangeRule} {priority : Int} :
    RangeRule.decides data { rule with priority := priority } = rule.decides data := rfl

theorem findSome?_addRangeRule {rule : RangeRule} :
    (addRangeRule rules rule).findSome? (RangeRule.decides data) =
      (rules.findSome? (RangeRule.decides data)).or (rule.decides data) := by
  rw [addRangeRule, List.findSome?_append, List.findSome?_singleton, decides_priority]

theorem RangeRule.covers_iff {rule : RangeRule} (h : rule.first = rule.last) :
    rule.Covers data.nr ↔ rule.first = data.nr := by
  constructor
  · intro hc
    exact UInt32.le_antisymm hc.1 (h ▸ hc.2)
  · intro hdata
    exact ⟨hdata ▸ UInt32.le_refl _, hdata ▸ h ▸ UInt32.le_refl _⟩

theorem decides_single {nr : UInt32} :
    (RangeRule.single nr (some action)).decides data =
      if nr = data.nr then some action else none := by
  unfold RangeRule.decides
  exact if_congr (RangeRule.covers_iff rfl) rfl rfl

theorem conditional_eq {nr : UInt32} {expr : Expr Arg} :
    RangeRule.conditional nr expr action = ⟨nr, nr, none, 0, [(some expr, action)]⟩ := rfl

theorem decides_condition {nr : UInt32} {expr : Expr Arg} :
    (RangeRule.conditional nr expr action).decides data =
      if nr = data.nr ∧ expr.holds (Arg.value data.args) = true then some action else none := by
  unfold RangeRule.decides
  rw [if_congr (RangeRule.covers_iff rfl) rfl rfl, ite_and]
  refine if_congr Iff.rfl ?_ rfl
  rw [conditional_eq]
  simp [RangeRule.outcome]

/-- A filter of a clean call adds what it decides. -/
theorem addFilter_decides (hc : filter.Clean list data)
    (h : addFilter list action rules filter = some rules') :
    rules'.findSome? (RangeRule.decides data) = (rules.findSome? (RangeRule.decides data)).or
      (if filter.admits list data then some action else none) := by
  obtain ⟨nr, hnr, hcase⟩ := addFilter_cases h
  have hadmits : filter.admits list data = true ↔
      nr = data.nr ∧ (filter.expr.all fun expr => expr.holds (filter.value list data)) = true := by
    rw [SyscallFilter.admits, hnr, Bool.and_eq_true, beq_iff_eq, Option.some.injEq]
  -- the condition of the filter, simplified, on a call of its number
  have hcond : ∀ expr, filter.condition list = some expr → nr = data.nr →
      expr.simplify.holds (Arg.value data.args) =
        filter.expr.all fun expr => expr.holds (filter.value list data) := by
    intro expr hexpr hdata
    rw [Expr.simplify_holds (hc (by rw [hnr, hdata]) expr hexpr)]
    cases he : filter.expr with
    | none => simp [SyscallFilter.condition, he] at hexpr
    | some source => exact condition_holds he hexpr
  rcases hcase with ⟨htrue, rfl⟩ | ⟨⟨expr, hexpr, hff⟩, rfl⟩ | ⟨expr, hexpr, -, rfl⟩
  · rw [findSome?_addRangeRule, decides_single]
    congr 1
    refine if_congr ?_ rfl rfl
    rw [hadmits]
    constructor
    · intro hdata
      refine ⟨hdata, ?_⟩
      rcases htrue with hnone | ⟨expr, hexpr, htt⟩
      · rw [hnone]
        rfl
      · rw [← hcond expr hexpr hdata, htt]
        rfl
    · exact And.left
  · have hno : ¬ filter.admits list data = true := by
      rw [hadmits]
      rintro ⟨hdata, hall⟩
      rw [← hcond expr hexpr hdata, hff] at hall
      cases hall
    rw [if_neg hno, Option.or_none]
  · rw [findSome?_addRangeRule, decides_condition]
    congr 1
    refine if_congr ?_ rfl rfl
    rw [hadmits]
    refine and_congr_right ?_
    intro hdata
    rw [hcond expr hexpr hdata]

/-! ## A block of filters -/

theorem or_any {α : Type} {p : α → Bool} {x : α} {xs : List α} {o : Option Action} :
    (o.or (if p x then some action else none)).or (if xs.any p then some action else none) =
      o.or (if (x :: xs).any p then some action else none) := by
  rw [Option.or_assoc, List.any_cons]
  cases p x with
  | true => simp
  | false => simp

theorem addFilters_decides {entry : ActionBlock}
    (hc : ∀ filter ∈ entry.filters, filter.Clean list data)
    (h : addFilters list rules entry = some rules') :
    rules'.findSome? (RangeRule.decides data) =
      (rules.findSome? (RangeRule.decides data)).or (entry.decides list data) := by
  obtain ⟨action, filters⟩ := entry
  unfold addFilters ActionBlock.decides at *
  simp only at h hc ⊢
  induction filters generalizing rules with
  | nil =>
      cases h
      simp
  | cons filter filters ih =>
      rw [List.foldlM_cons] at h
      simp only [Option.bind_eq_bind, Option.bind_eq_some_iff] at h
      obtain ⟨mid, hmid, h⟩ := h
      rw [ih (fun f hf => hc f (List.mem_cons_of_mem _ hf)) h,
        addFilter_decides (hc filter (List.mem_cons_self ..)) hmid, or_any]

/-- Blocks gone through in order decide as the first of them that does. -/
theorem foldlM_addFilters_decides {blocks : List ActionBlock}
    (hc : ∀ entry ∈ blocks, ∀ filter ∈ entry.filters, filter.Clean list data)
    (h : blocks.foldlM (addFilters list) rules = some rules') :
    rules'.findSome? (RangeRule.decides data) =
      (rules.findSome? (RangeRule.decides data)).or
        (blocks.findSome? (ActionBlock.decides list data)) := by
  induction blocks generalizing rules with
  | nil =>
      cases h
      simp
  | cons entry blocks ih =>
      rw [List.foldlM_cons] at h
      simp only [Option.bind_eq_bind, Option.bind_eq_some_iff] at h
      obtain ⟨mid, hmid, h⟩ := h
      rw [ih (fun e he => hc e (List.mem_cons_of_mem _ he)) h,
        addFilters_decides (hc entry (List.mem_cons_self ..)) hmid, Option.or_assoc,
        List.findSome?_cons]
      cases entry.decides list data with
      | none => rfl
      | some => rfl

/-! ## What the rules are like -/

/-- Rules as `add_policy_rules` makes them: one number each, and the priorities in order. -/
structure Built (rules : List RangeRule) : Prop where
  single : ∀ rule ∈ rules, rule.Single
  priority : rules.map RangeRule.priority =
    (List.range rules.length).map fun i => toInt (i + 1)

theorem built_nil : Built [] := by
  constructor
  · intro rule h
    cases h
  · rfl

theorem Built.addRangeRule {rule : RangeRule} (h : Built rules) (hr : rule.Single) :
    Built (addRangeRule rules rule) := by
  unfold Kafel.addRangeRule
  refine ⟨?_, ?_⟩
  · intro rule' hrule'
    rcases List.mem_append.mp hrule' with hrule' | hrule'
    · exact h.single rule' hrule'
    · obtain rfl := List.mem_singleton.mp hrule'
      exact ⟨hr.first_eq, hr.shape⟩
  · rw [List.map_append, h.priority, List.length_append, List.length_singleton, List.range_succ,
      List.map_append, List.map_singleton, List.map_singleton]

theorem single_action {nr : UInt32} : (RangeRule.single nr (some action)).Single :=
  ⟨rfl, .inl ⟨action, rfl, rfl⟩⟩

theorem addFilter_built (hb : Built rules) (h : addFilter list action rules filter = some rules') :
    Built rules' := by
  obtain ⟨nr, -, ⟨-, rfl⟩ | ⟨-, rfl⟩ | ⟨expr, -, hplain, rfl⟩⟩ := addFilter_cases h
  · exact hb.addRangeRule single_action
  · exact hb
  · exact hb.addRangeRule ⟨rfl, .inr ⟨expr.simplify, action, rfl, rfl, hplain⟩⟩

theorem addFilter_length (h : addFilter list action rules filter = some rules') :
    rules'.length ≤ rules.length + 1 := by
  obtain ⟨nr, -, ⟨-, rfl⟩ | ⟨-, rfl⟩ | ⟨expr, -, -, rfl⟩⟩ := addFilter_cases h
  · simp [addRangeRule]
  · exact Nat.le_succ _
  · simp [addRangeRule]

theorem addFilter_clean (hc : filter.Clean list data) (hr : ∀ rule ∈ rules, rule.Clean data)
    (h : addFilter list action rules filter = some rules') : ∀ rule ∈ rules', rule.Clean data := by
  obtain ⟨nr, hnr, ⟨-, rfl⟩ | ⟨-, rfl⟩ | ⟨expr, hexpr, -, rfl⟩⟩ := addFilter_cases h
  · intro rule hrule
    rcases List.mem_append.mp hrule with hrule | hrule
    · exact hr rule hrule
    · obtain rfl := List.mem_singleton.mp hrule
      intro _ expr action' hmem
      cases hmem
  · exact hr
  · intro rule hrule
    rcases List.mem_append.mp hrule with hrule | hrule
    · exact hr rule hrule
    · obtain rfl := List.mem_singleton.mp hrule
      intro hcov expr' action' hmem
      have hdata : nr = data.nr := UInt32.le_antisymm hcov.1 hcov.2
      have heq : expr' = expr.simplify :=
        Option.some.inj (Prod.mk.inj (List.mem_singleton.mp hmem)).1
      rw [heq]
      exact Expr.simplify_clean (hc (by rw [hnr, hdata]) expr hexpr)

/-- What every filter keeps is kept by blocks of filters. -/
theorem foldlM_addFilters_keeps {P : List RangeRule → Prop} {blocks : List ActionBlock}
    (hstep : ∀ entry ∈ blocks, ∀ filter ∈ entry.filters, ∀ rules rules',
      P rules → addFilter list entry.action rules filter = some rules' → P rules')
    (hP : P rules) (h : blocks.foldlM (addFilters list) rules = some rules') : P rules' := by
  induction blocks generalizing rules with
  | nil =>
      cases h
      exact hP
  | cons entry blocks ih =>
      rw [List.foldlM_cons] at h
      simp only [Option.bind_eq_bind, Option.bind_eq_some_iff] at h
      obtain ⟨mid, hmid, h⟩ := h
      refine ih (fun e he => hstep e (List.mem_cons_of_mem _ he)) ?_ h
      have hentry := hstep entry (List.mem_cons_self ..)
      obtain ⟨action, filters⟩ := entry
      unfold addFilters at hmid
      simp only at hmid hentry
      clear h ih hstep
      induction filters generalizing rules with
      | nil =>
          cases hmid
          exact hP
      | cons filter filters ih =>
          rw [List.foldlM_cons] at hmid
          simp only [Option.bind_eq_bind, Option.bind_eq_some_iff] at hmid
          obtain ⟨next, hnext, hmid⟩ := hmid
          exact ih (hentry filter (List.mem_cons_self ..) _ _ hP hnext) hmid
            fun f hf => hentry f (List.mem_cons_of_mem _ hf)

/-- The numbers of filters add up. -/
theorem foldlM_addFilters_length {blocks : List ActionBlock}
    (h : blocks.foldlM (addFilters list) rules = some rules') :
    rules'.length ≤ rules.length + (blocks.map fun entry => entry.filters.length).sum := by
  induction blocks generalizing rules with
  | nil =>
      cases h
      exact Nat.le_add_right _ _
  | cons entry blocks ih =>
      rw [List.foldlM_cons] at h
      simp only [Option.bind_eq_bind, Option.bind_eq_some_iff] at h
      obtain ⟨mid, hmid, h⟩ := h
      have hlen := ih h
      have hblock : mid.length ≤ rules.length + entry.filters.length := by
        obtain ⟨action, filters⟩ := entry
        unfold addFilters at hmid
        simp only at hmid ⊢
        clear h ih hlen
        induction filters generalizing rules with
        | nil =>
            cases hmid
            exact Nat.le_add_right _ _
        | cons filter filters ih =>
            rw [List.foldlM_cons] at hmid
            simp only [Option.bind_eq_bind, Option.bind_eq_some_iff] at hmid
            obtain ⟨next, hnext, hmid⟩ := hmid
            have h₁ := addFilter_length hnext
            have h₂ := ih hmid
            rw [List.length_cons]
            omega
      rw [List.map_cons, List.sum_cons]
      omega

/-! ## `add_policy_rules` -/

/-- Every name in a filter is found. -/
def SyscallFilter.Valid (list : SyscallList) (filter : SyscallFilter) : Prop :=
  (∃ nr, filter.syscall.getSyscallNr list = some nr) ∧
    (filter.expr.isSome → ∃ expr, filter.condition list = some expr)

theorem addFilter_isSome (hv : filter.Valid list) :
    ∃ rules', addFilter list action rules filter = some rules' := by
  obtain ⟨⟨nr, hnr⟩, hexpr⟩ := hv
  rw [addFilter, hnr, Option.bind_eq_bind, Option.bind_some]
  cases he : filter.expr with
  | none => exact ⟨_, rfl⟩
  | some expr =>
      obtain ⟨expr', hcond⟩ := hexpr (by rw [he]; rfl)
      simp only [SyscallFilter.condition, he, Option.bind_eq_bind, Option.bind_some,
        Option.bind_eq_some_iff] at hcond
      obtain ⟨sargs, hargs, hres⟩ := hcond
      simp only [hargs, hres, Option.bind_eq_bind, Option.bind_some]
      cases expr'.simplify with
      | tt | ff | not | logic | cmp => exact ⟨_, rfl⟩

theorem addFilters_isSome {entry : ActionBlock} (hv : ∀ filter ∈ entry.filters, filter.Valid list) :
    ∃ rules', addFilters list rules entry = some rules' := by
  obtain ⟨action, filters⟩ := entry
  unfold addFilters
  simp only at hv ⊢
  induction filters generalizing rules with
  | nil => exact ⟨rules, rfl⟩
  | cons filter filters ih =>
      have hstep : ∃ mid, addFilter list action rules filter = some mid :=
        addFilter_isSome (hv filter (List.mem_cons_self ..))
      obtain ⟨mid, hmid⟩ := hstep
      have hrest : ∃ rules', filters.foldlM (addFilter list action) mid = some rules' :=
        ih fun f hf => hv f (List.mem_cons_of_mem _ hf)
      obtain ⟨rules', h⟩ := hrest
      exact ⟨rules', by rw [List.foldlM_cons, hmid, Option.bind_eq_bind, Option.bind_some, h]⟩

theorem foldlM_addFilters_isSome {blocks : List ActionBlock}
    (hv : ∀ entry ∈ blocks, ∀ filter ∈ entry.filters, filter.Valid list) :
    ∃ rules', blocks.foldlM (addFilters list) rules = some rules' := by
  induction blocks generalizing rules with
  | nil => exact ⟨rules, rfl⟩
  | cons entry blocks ih =>
      have hstep : ∃ mid, addFilters list rules entry = some mid :=
        addFilters_isSome (hv entry (List.mem_cons_self ..))
      obtain ⟨mid, hmid⟩ := hstep
      have hrest : ∃ rules', blocks.foldlM (addFilters list) mid = some rules' :=
        ih fun e he => hv e (List.mem_cons_of_mem _ he)
      obtain ⟨rules', h⟩ := hrest
      exact ⟨rules', by rw [List.foldlM_cons, hmid, Option.bind_eq_bind, Option.bind_some, h]⟩

/-- The blocks `add_policy_rules` goes through. -/
theorem addPolicyRules_blocks (h : addPolicyRules policies list rules policy = some rules') :
    ∃ blocks, items (book policies.entries) (policies.fuel policy) []
        [book policies.entries policy] = some blocks ∧
      blocks.foldlM (addFilters list) rules = some rules' := by
  rw [addPolicyRules, walk_eq] at h
  exact Option.bind_eq_some_iff.mp h

/-- What holds of all filters holds of those gone through. -/
theorem Policies.All.blocks {P : SyscallFilter → Prop} (hP : policies.All P)
    {blocks : List ActionBlock} {n : Nat}
    (h : items (book policies.entries) n [] [book policies.entries policy] = some blocks) :
    ∀ entry ∈ blocks, ∀ filter ∈ entry.filters, P filter := by
  intro entry hentry
  rcases items_mem h hentry with ⟨es, hes, hmem⟩ | ⟨i, hmem⟩
  · obtain rfl := List.mem_singleton.mp hes
    exact hP policy entry hmem
  · exact hP i entry hmem

/-- **The rules decide as the policy does**, after those that were there. -/
theorem addPolicyRules_decides (hc : policies.All (SyscallFilter.Clean list data))
    (h : addPolicyRules policies list rules policy = some rules') {r : Option Action}
    (hd : PolicyDecides policies list data policy r) :
    rules'.findSome? (RangeRule.decides data) =
      (rules.findSome? (RangeRule.decides data)).or r := by
  obtain ⟨blocks, hblocks, hfold⟩ := addPolicyRules_blocks h
  obtain ⟨rank, hr⟩ := policies.ranked
  rw [foldlM_addFilters_decides (hc.blocks hblocks) hfold]
  congr 1
  let frames : Frames Nat ActionBlock := [(rank policy, book policies.entries policy)]
  have hframes : frames.map Prod.snd = [book policies.entries policy] := rfl
  rw [← hframes] at hblocks
  refine items_decides hr ?_ hblocks ?_ ?_
  · refine ⟨?_, List.pairwise_singleton _ _⟩
    intro x hx
    obtain rfl := List.mem_singleton.mp hx
    exact hr policy
  · intro i hi
    cases hi
  · rw [Frames.left_cons]
    exact (List.append_nil _).symm ▸ hd

/-- A policy does one thing with a call. -/
theorem PolicyDecides.unique {r r' : Option Action} (h : PolicyDecides policies list data policy r)
    (h' : PolicyDecides policies list data policy r') : r = r' :=
  Decides.unique h h'

theorem policyDecides_exists : ∃ r, PolicyDecides policies list data policy r := by
  obtain ⟨rank, hr⟩ := policies.ranked
  exact hr.decides (hr policy)

theorem addPolicyRules_built (hb : Built rules)
    (h : addPolicyRules policies list rules policy = some rules') : Built rules' := by
  obtain ⟨blocks, -, hfold⟩ := addPolicyRules_blocks h
  exact foldlM_addFilters_keeps (fun _ _ _ _ _ _ hb h => addFilter_built hb h) hb hfold

theorem addPolicyRules_clean (hc : policies.All (SyscallFilter.Clean list data))
    (hr : ∀ rule ∈ rules, rule.Clean data)
    (h : addPolicyRules policies list rules policy = some rules') :
    ∀ rule ∈ rules', rule.Clean data := by
  obtain ⟨blocks, hblocks, hfold⟩ := addPolicyRules_blocks h
  have hclean := hc.blocks hblocks
  exact foldlM_addFilters_keeps
    (fun entry hentry filter hfilter _ _ hr h =>
      addFilter_clean (hclean entry hentry filter hfilter) hr h)
    hr hfold

/-- The filters of a list of entries. -/
def filterCount (entries : List PolicyEntry) : Nat :=
  weight (fun entry => entry.filters.length) entries

theorem sum_fresh_book {g : List PolicyEntry → Nat} :
    ∑ k ∈ fresh policies.entries.length [], g (book policies.entries k) =
      (policies.entries.map g).sum := by
  have hall : fresh policies.entries.length [] = Finset.range policies.entries.length := by
    simp [fresh]
  rw [hall, Finset.sum_range]
  have hget : ∀ k : Fin policies.entries.length, book policies.entries k = policies.entries[k] := by
    intro k
    simp [book]
  simp only [hget]
  exact Fin.sum_univ_fun_getElem policies.entries g

/-- **No more rules than filters**, those of the policy itself counted twice. -/
theorem addPolicyRules_length (h : addPolicyRules policies list rules policy = some rules') :
    rules'.length ≤ rules.length + filterCount (book policies.entries policy) +
      (policies.entries.map filterCount).sum := by
  obtain ⟨blocks, hblocks, hfold⟩ := addPolicyRules_blocks h
  have hlen := foldlM_addFilters_length hfold
  have hweight := items_weight (w := fun entry => entry.filters.length) policies.within
    (by
      intro es hes
      obtain rfl := List.mem_singleton.mp hes
      exact policies.within policy) hblocks
  rw [sum_fresh_book (g := weight fun entry => entry.filters.length), List.map_singleton,
    List.sum_singleton] at hweight
  exact hlen.trans (by rw [Nat.add_assoc]; exact Nat.add_le_add_left hweight _)

/-- **`add_policy_rules` ends, and no assertion in it fails.** -/
theorem addPolicyRules_isSome (rules : List RangeRule) (policy : Nat)
    (hv : policies.All (SyscallFilter.Valid list)) :
    ∃ rules', addPolicyRules policies list rules policy = some rules' := by
  have hvisit : ∃ blocks, items (book policies.entries) (policies.fuel policy) []
      [book policies.entries policy] = some blocks := by
    refine items_isSome policies.within ?_ ?_
    · intro es hes
      obtain rfl := List.mem_singleton.mp hes
      exact policies.within policy
    · rw [sum_fresh_book (g := fun entries => entries.length + 1), List.map_singleton,
        List.sum_singleton]
      exact Nat.le_refl _
  obtain ⟨blocks, hblocks⟩ := hvisit
  have hfold : ∃ rules', blocks.foldlM (addFilters list) rules = some rules' :=
    foldlM_addFilters_isSome (hv.blocks hblocks)
  obtain ⟨rules', h⟩ := hfold
  exact ⟨rules', by rw [addPolicyRules, walk_eq, hblocks, Option.bind_some, h]⟩

/-- **`add_policy_rules`** returns.  Behind the rules there were it puts those of the policy, no
more than it has filters, counted with those of all policies; the first of them to decide does
what the policy does with every `USE` written out. -/
theorem addPolicyRules_correct (hv : policies.All (SyscallFilter.Valid list)) :
    ∃ rules', addPolicyRules policies list rules policy = some rules' ∧
      rules'.length ≤ rules.length + filterCount (book policies.entries policy) +
        (policies.entries.map filterCount).sum ∧
      ∀ data r, policies.All (SyscallFilter.Clean list data) →
        PolicyDecides policies list data policy r →
        rules'.findSome? (RangeRule.decides data) =
          (rules.findSome? (RangeRule.decides data)).or r := by
  obtain ⟨rules', h⟩ := addPolicyRules_isSome rules policy hv
  refine ⟨rules', h, addPolicyRules_length h, ?_⟩
  intro data r hc hd
  exact addPolicyRules_decides hc h hd

/-- A table with `read(fd, buf, count)`. -/
def readList : SyscallList where
  kafelArch := 0x10
  auditArch := 0xc000003e
  syscalls := [⟨"read", 0, fun i =>
    match i.val with
    | 0 => ⟨some "fd", 4⟩
    | 1 => ⟨some "buf", 8⟩
    | 2 => ⟨some "count", 8⟩
    | _ => ⟨none, 0⟩⟩]

theorem isIdentifier_read : isIdentifier "read" = true := by decide

def allowRead : ActionBlock :=
  ⟨.basic .allow, [⟨⟨.id ⟨"read", ⟨1, 1⟩, isIdentifier_read⟩, none⟩, none⟩]⟩

/-- The second policy uses the first, twice. -/
def readPolicies : Policies where
  entries := [[.item allowRead], [.use 0, .use 0]]
  ranked := by
    refine ⟨id, ?_⟩
    intro i j hj
    match i with
    | 0 => cases List.mem_singleton.mp hj
    | 1 =>
        have hj : Entry.use j ∈ [Entry.use 0, Entry.use (α := ActionBlock) 0] := hj
        simp only [List.mem_cons, List.not_mem_nil, or_false, or_self, Entry.use.injEq] at hj
        show j < 1
        omega
    | i + 2 => cases hj
  within := by
    intro i j hj
    match i with
    | 0 => cases List.mem_singleton.mp hj
    | 1 =>
        have hj : Entry.use j ∈ [Entry.use 0, Entry.use (α := ActionBlock) 0] := hj
        simp only [List.mem_cons, List.not_mem_nil, or_false, or_self, Entry.use.injEq] at hj
        show j < 2
        omega
    | i + 2 => cases hj

theorem valid_readPolicies : readPolicies.All (SyscallFilter.Valid readList) := by
  intro i block hblock
  match i with
  | 0 =>
      cases List.mem_singleton.mp hblock
      intro filter hfilter
      cases List.mem_singleton.mp hfilter
      exact ⟨⟨0, rfl⟩, fun h => by cases h⟩
  | 1 =>
      have hblock : Entry.item block ∈ [Entry.use 0, Entry.use (α := ActionBlock) 0] := hblock
      simp at hblock
  | i + 2 => cases hblock

/-- One rule comes of it. -/
theorem addPolicyRules_correct_used : ∃ rules',
    addPolicyRules readPolicies readList [] 1 = some rules' ∧ rules'.length ≤ 1 := by
  obtain ⟨rules', h, hlen, -⟩ :=
    @addPolicyRules_correct readList [] readPolicies 1 valid_readPolicies
  exact ⟨rules', h, hlen⟩

end Kafel
