/-
# `YaojJudger.Kafel.Parser` — the actions of `parser.y`, `context.c`

The parser makes a tree of the text and runs an action at every node, from left
to right.  Here are the trees, without what the grammar needs to tell them apart
(parentheses, the levels of the operators), and the actions as functions on them.
An error ends the parse; its text is what `append_error` is given.

**The context** grows statement by statement.  A `POLICY` is registered at its end
and can be used from then on, so it uses only policies registered before it.  The
statements outside of any `POLICY` all go to one policy, `@main`, which no name in
the text can stand for.  It may be registered before the policies it uses.

**Proved here** (`program_wf`).  In every context the parser makes the policies can
be ranked so that each uses lesser ones only, and a use is of a policy that is there;
names are unique.  `ParserCtxt.toPolicies` is the context `compile_policy` works on.
-/
import YaojJudger.Kafel.Policy

namespace Kafel

open FirstMatch

/-! ## The trees -/

/-- `bit_or_expr`, `bit_and_expr` and `operand`. -/
inductive OperandTree where
  | number (n : UInt64)
  | identifier (identifier : Identifier)
  | bit (loc : SourceLocation) (op : BitOp) (left right : OperandTree)
  deriving DecidableEq, Repr

/-- `bool_expr` and what is below it; `,` is `||`. -/
inductive BoolTree where
  | not (loc : SourceLocation) (child : BoolTree)
  | logic (loc : SourceLocation) (op : LogicOp) (left right : BoolTree)
  | cmp (loc : SourceLocation) (op : CmpOp) (left right : OperandTree)
  deriving DecidableEq, Repr

/-- `action`; the location is that of the number. -/
inductive ActionTree where
  | basic (b : BasicAction)
  | errno (loc : SourceLocation) (value : UInt64)
  | trace (loc : SourceLocation) (value : UInt64)
  | trap (loc : SourceLocation) (value : UInt64)
  deriving DecidableEq, Repr

/-- `syscall_id`. -/
inductive SyscallIdTree where
  | identifier (identifier : Identifier)
  | number (n : UInt64)
  deriving DecidableEq, Repr

/-- `syscall`; the names of the arguments are there if there are parentheses. -/
structure SyscallTree where
  id : SyscallIdTree
  args : Option (List Identifier)
  deriving DecidableEq, Repr

/-- `syscall_filter`. -/
structure FilterTree where
  syscall : SyscallTree
  expr : Option BoolTree
  deriving DecidableEq, Repr

/-- `policy_statement`. -/
inductive StatementTree where
  | use (identifier : Identifier)
  | action (action : ActionTree) (filters : List FilterTree)
  deriving DecidableEq, Repr

/-- `program_stmt`. -/
inductive ProgramStmt where
  | constDef (loc : SourceLocation) (name : Identifier) (value : UInt64)
  | policy (loc : SourceLocation) (name : Identifier) (statements : List StatementTree)
  | statements (statements : List StatementTree)
  | default (loc : SourceLocation) (action : ActionTree)
  deriving DecidableEq, Repr

/-- `program`: the grammar has no text without a statement. -/
structure ProgramTree where
  stmts : List ProgramStmt
  nonempty : stmts ≠ []

/-! ## `context.c` -/

/-- `struct policy`. -/
structure Policy where
  name : String
  entries : List PolicyEntry

/-- `struct kafel_constant`, all of them. -/
abbrev Constants := List (String × UInt64)

/-- `struct kafel_ctxt`, what the parser keeps in it; the main policy by its number. -/
structure ParserCtxt where
  policies : List Policy
  mainPolicy : Option Nat
  defaultAction : Option Action
  constants : Constants

/-- After `kafel_ctxt_reset`. -/
def ParserCtxt.reset : ParserCtxt := ⟨[], none, none, []⟩

/-- `register_policy`. -/
def registerPolicy (ctxt : ParserCtxt) (policy : Policy) : ParserCtxt :=
  { ctxt with policies := ctxt.policies ++ [policy] }

/-- `lookup_policy`. -/
def lookupPolicy (ctxt : ParserCtxt) (name : String) : Option Nat :=
  ctxt.policies.findIdx? fun policy => policy.name = name

/-- `register_const`. -/
def registerConst (ctxt : ParserCtxt) (name : String) (value : UInt64) : ParserCtxt :=
  { ctxt with constants := ctxt.constants ++ [(name, value)] }

/-- `lookup_const`. -/
def lookupConst (constants : Constants) (name : String) : Option UInt64 :=
  (constants.find? fun constant => name = constant.1).map Prod.snd

/-- `emit_error`. -/
def emitError (loc : SourceLocation) (msg : String) : String :=
  toString loc.firstLine ++ ":" ++ toString loc.firstColumn ++ ": " ++ msg

/-! ## Conditions -/

/-- `MAX_EXPRESSION_DEPTH`. -/
def maxExpressionDepth : Nat := 200

variable {V : Type}

/-- `depth` of an operand, as `expr_create_binary` sets it. -/
def Operand.depth : Operand V → Nat
  | .number _ | .var _ => 0
  | .bit _ left right => max (left.depth + 1) (right.depth + 1)

def Expr.depth : Expr V → Nat
  | .tt | .ff => 0
  | .not child => child.depth + 1
  | .logic _ left right => max (left.depth + 1) (right.depth + 1)
  | .cmp _ left right => max (left.depth + 1) (right.depth + 1)

/-- `checked_expr_binary` and `checked_expr_unary`: a node, if what is below it is not too deep. -/
def checkedExpr {α : Type} (loc : SourceLocation) (depths : List Nat) (result : α) :
    Except String α :=
  if depths.any (maxExpressionDepth ≤ ·) then
    .error (emitError loc ("Max expression depth (" ++ toString maxExpressionDepth ++ ") exceeded"))
  else .ok result

def operand (constants : Constants) : OperandTree → Except String (Operand Identifier)
  | .number n => .ok (.number n)
  | .identifier identifier =>
    match lookupConst constants identifier.id with
    | some value => .ok (.number value)
    | none => .ok (.var identifier)
  | .bit loc op left right => do
    let left ← operand constants left
    let right ← operand constants right
    checkedExpr loc [left.depth, right.depth] (.bit op left right)

def boolExpr (constants : Constants) : BoolTree → Except String (Expr Identifier)
  | .not loc child => do
    let child ← boolExpr constants child
    checkedExpr loc [child.depth] (.not child)
  | .logic loc op left right => do
    let left ← boolExpr constants left
    let right ← boolExpr constants right
    checkedExpr loc [left.depth, right.depth] (.logic op left right)
  | .cmp loc op left right => do
    let left ← operand constants left
    let right ← operand constants right
    checkedExpr loc [left.depth, right.depth] (.cmp op left right)

/-! ## Filters -/

/-- The three actions with a number. -/
def valuedAction (what : String) (action : UInt16 → Action) (loc : SourceLocation)
    (value : UInt64) : Except String Action :=
  if value > 0xffff then
    .error (emitError loc (what ++ " value " ++ toString value.toNat ++ " out of range (0-65535)"))
  else .ok (action value.toUInt16)

def action : ActionTree → Except String Action
  | .basic b => .ok (.basic b)
  | .errno loc value => valuedAction "Errno" .errno loc value
  | .trace loc value => valuedAction "Trace" .trace loc value
  | .trap loc value => valuedAction "Trap" .trap loc value

/-- `SYSCALL_MAX_ARGS`. -/
def syscallMaxArgs : Nat := 6

/-- `syscall_args`, behind the names there are. -/
def syscallArgs (names : List String) : List Identifier → Except String (List String)
  | [] => .ok names
  | identifier :: args =>
    if identifier.id ∈ names then
      .error (emitError identifier.loc ("Redefinition of argument `" ++ identifier.id ++ "'"))
    else if names.length = syscallMaxArgs then
      .error (emitError identifier.loc "Too many arguments defined for syscall")
    else syscallArgs (names ++ [identifier.id]) args

/-- `custom_args`, of the names. -/
def customArgs (names : List String) : SyscallArgs := fun i =>
  ⟨names[i.val]?, if i.val < names.length then 8 else 0⟩

/-- `syscall_id`; `syscall_spec_create_custom` takes an `int`. -/
def syscallId (constants : Constants) : SyscallIdTree → SyscallSpecType
  | .identifier identifier =>
    match lookupConst constants identifier.id with
    | some value => .custom value.toUInt32
    | none => .id identifier
  | .number n => .custom n.toUInt32

def syscall (constants : Constants) (tree : SyscallTree) : Except String SyscallSpec :=
  match tree.args with
  | none => .ok ⟨syscallId constants tree.id, none⟩
  | some args => do
    let names ← syscallArgs [] args
    .ok ⟨syscallId constants tree.id, some (customArgs names)⟩

def syscallFilter (constants : Constants) (tree : FilterTree) : Except String SyscallFilter := do
  let spec ← syscall constants tree.syscall
  match tree.expr with
  | none => .ok ⟨spec, none⟩
  | some expr => do
    let expr ← boolExpr constants expr
    .ok ⟨spec, some expr⟩

/-! ## Policies, and the program -/

def actionBlock (constants : Constants) (tree : ActionTree) (filters : List FilterTree) :
    Except String ActionBlock := do
  let action ← action tree
  let filters ← filters.mapM (syscallFilter constants)
  .ok ⟨action, filters⟩

def policyStatement (ctxt : ParserCtxt) : StatementTree → Except String PolicyEntry
  | .use identifier =>
    match lookupPolicy ctxt identifier.id with
    | some used => .ok (.use used)
    | none => .error (emitError identifier.loc ("Undefined policy `" ++ identifier.id ++ "'"))
  | .action action filters => (actionBlock ctxt.constants action filters).map .item

/-- The entries of a policy that is there already, with more behind them. -/
def concatEntries (entries : List PolicyEntry) (policy : Policy) : Policy :=
  { policy with entries := policy.entries ++ entries }

def programStmt (ctxt : ParserCtxt) : ProgramStmt → Except String ParserCtxt
  | .constDef loc name value =>
    match lookupConst ctxt.constants name.id with
    | some old =>
      if old ≠ value then
        .error (emitError loc ("Redefinition of constant `" ++ name.id ++
          "' with different value (was: " ++ toString old.toNat ++ " is: " ++
          toString value.toNat ++ ")"))
      else .ok ctxt
    | none => .ok (registerConst ctxt name.id value)
  | .policy loc name statements => do
    let entries ← statements.mapM (policyStatement ctxt)
    if (lookupPolicy ctxt name.id).isSome then
      .error (emitError loc ("Redefinition of policy `" ++ name.id ++ "'"))
    else .ok (registerPolicy ctxt ⟨name.id, entries⟩)
  | .statements statements => do
    let entries ← statements.mapM (policyStatement ctxt)
    match ctxt.mainPolicy with
    | none =>
      .ok { registerPolicy ctxt ⟨"@main", entries⟩ with mainPolicy := some ctxt.policies.length }
    | some main =>
      .ok { ctxt with policies := ctxt.policies.modify main (concatEntries entries) }
  | .default loc tree => do
    let action ← action tree
    if ctxt.defaultAction.isSome then .error (emitError loc "Redefinition of default action")
    else .ok { ctxt with defaultAction := some action }

/-- `program`. -/
def program (text : ProgramTree) : Except String ParserCtxt :=
  text.stmts.foldlM programStmt .reset

variable {ctxt ctxt' : ParserCtxt} {name : String} {i j : Nat} {policy : Policy}
  {entries : List PolicyEntry} {stmt : ProgramStmt} {text : ProgramTree}

/-! ## What a statement does -/

theorem except_bind {α β : Type} {x : Except String α} {f : α → Except String β} {b : β} :
    x >>= f = .ok b ↔ ∃ a, x = .ok a ∧ f a = .ok b := by
  cases x with
  | error e =>
      constructor
      · intro h
        cases h
      · rintro ⟨a, h, -⟩
        cases h
  | ok a =>
      constructor
      · intro h
        exact ⟨a, rfl, h⟩
      · rintro ⟨a', h, hf⟩
        cases h
        exact hf

/-- **What an accepted statement does to the context.** -/
inductive StmtDoes (ctxt : ParserCtxt) : ProgramStmt → ParserCtxt → Prop
  | known {loc : SourceLocation} {name : Identifier} {value : UInt64} :
      lookupConst ctxt.constants name.id = some value →
      StmtDoes ctxt (.constDef loc name value) ctxt
  | const {loc : SourceLocation} {name : Identifier} {value : UInt64} :
      lookupConst ctxt.constants name.id = none →
      StmtDoes ctxt (.constDef loc name value) (registerConst ctxt name.id value)
  | policy {loc : SourceLocation} {name : Identifier} {statements : List StatementTree}
      {entries : List PolicyEntry} :
      statements.mapM (policyStatement ctxt) = .ok entries → lookupPolicy ctxt name.id = none →
      StmtDoes ctxt (.policy loc name statements) (registerPolicy ctxt ⟨name.id, entries⟩)
  | first {statements : List StatementTree} {entries : List PolicyEntry} :
      statements.mapM (policyStatement ctxt) = .ok entries → ctxt.mainPolicy = none →
      StmtDoes ctxt (.statements statements)
        { registerPolicy ctxt ⟨"@main", entries⟩ with mainPolicy := some ctxt.policies.length }
  | more {statements : List StatementTree} {entries : List PolicyEntry} {main : Nat} :
      statements.mapM (policyStatement ctxt) = .ok entries → ctxt.mainPolicy = some main →
      StmtDoes ctxt (.statements statements)
        { ctxt with policies := ctxt.policies.modify main (concatEntries entries) }
  | default {loc : SourceLocation} {tree : ActionTree} {a : Action} :
      action tree = .ok a → ctxt.defaultAction = none →
      StmtDoes ctxt (.default loc tree) { ctxt with defaultAction := some a }

theorem programStmt_iff : programStmt ctxt stmt = .ok ctxt' ↔ StmtDoes ctxt stmt ctxt' := by
  constructor
  · intro h
    cases stmt with
    | constDef loc name value =>
        rw [programStmt] at h
        cases hl : lookupConst ctxt.constants name.id with
        | none =>
            rw [hl] at h
            cases h
            exact .const hl
        | some old =>
            rw [hl] at h
            by_cases hold : old = value
            · subst hold
              dsimp only at h
              rw [if_neg (not_not.mpr rfl)] at h
              cases h
              exact .known hl
            · dsimp only at h
              rw [if_pos hold] at h
              cases h
    | policy loc name statements =>
        obtain ⟨entries, he, h⟩ := except_bind.mp h
        cases hl : lookupPolicy ctxt name.id with
        | none =>
            rw [hl] at h
            cases h
            exact .policy he hl
        | some old =>
            rw [hl] at h
            cases h
    | statements statements =>
        obtain ⟨entries, he, h⟩ := except_bind.mp h
        cases hm : ctxt.mainPolicy with
        | none =>
            rw [hm] at h
            cases h
            exact .first he hm
        | some main =>
            rw [hm] at h
            cases h
            have hdoes := StmtDoes.more he hm
            rw [hm] at hdoes
            exact hdoes
    | default loc tree =>
        obtain ⟨a, ha, h⟩ := except_bind.mp h
        cases hd : ctxt.defaultAction with
        | none =>
            rw [hd] at h
            cases h
            exact .default ha hd
        | some old =>
            rw [hd] at h
            cases h
  · intro h
    cases h with
    | known hl =>
        rw [programStmt, hl]
        exact if_neg (not_not.mpr rfl)
    | const hl =>
        rw [programStmt, hl]
    | policy he hl =>
        refine except_bind.mpr ⟨_, he, ?_⟩
        rw [hl]
        rfl
    | first he hm =>
        refine except_bind.mpr ⟨_, he, ?_⟩
        rw [hm]
    | more he hm =>
        refine except_bind.mpr ⟨_, he, ?_⟩
        rw [hm]
    | default ha hd =>
        refine except_bind.mpr ⟨_, ha, ?_⟩
        rw [hd]
        rfl

theorem mapM_ok {α β : Type} {f : α → Except String β} {xs : List α} {ys : List β} :
    xs.mapM f = .ok ys ↔ List.Forall₂ (fun x y => f x = .ok y) xs ys := by
  induction xs generalizing ys with
  | nil =>
      rw [List.mapM_nil, List.forall₂_nil_left_iff]
      constructor
      · intro h
        cases h
        rfl
      · rintro rfl
        rfl
  | cons x xs ih =>
      rw [List.mapM_cons, List.forall₂_cons_left_iff, except_bind]
      constructor
      · rintro ⟨y, hy, h⟩
        obtain ⟨ys', hys, h⟩ := except_bind.mp h
        cases h
        exact ⟨y, ys', hy, ih.mp hys, rfl⟩
      · rintro ⟨y, ys', hy, hys, rfl⟩
        exact ⟨y, hy, except_bind.mpr ⟨ys', ih.mpr hys, rfl⟩⟩

/-! ## The policies of a context -/

theorem lookupPolicy_some (h : lookupPolicy ctxt name = some j) :
    ∃ policy, ctxt.policies[j]? = some policy ∧ policy.name = name := by
  obtain ⟨hj, hname, -⟩ := List.findIdx?_eq_some_iff_getElem.mp h
  exact ⟨ctxt.policies[j], List.getElem?_eq_getElem hj, of_decide_eq_true hname⟩

theorem lookupPolicy_none :
    lookupPolicy ctxt name = none ↔ name ∉ ctxt.policies.map Policy.name := by
  rw [lookupPolicy, List.findIdx?_eq_none_iff, List.mem_map]
  constructor
  · rintro h ⟨policy, hp, hname⟩
    exact of_decide_eq_false (h policy hp) hname
  · intro h policy hp
    exact decide_eq_false fun hname => h ⟨policy, hp, hname⟩

/-- No name in the text is that of the main policy. -/
theorem Identifier.ne_main (identifier : Identifier) : identifier.id ≠ "@main" := by
  intro h
  have hok := identifier.ok
  rw [h] at hok
  exact absurd hok (by decide)

/-- **What holds of every context of the parser.** -/
structure ParserCtxt.Wf (ctxt : ParserCtxt) : Prop where
  names : (ctxt.policies.map Policy.name).Nodup
  main : ∀ main, ctxt.mainPolicy = some main ↔
    ∃ policy, ctxt.policies[main]? = some policy ∧ policy.name = "@main"
  uses : ∀ i policy, ctxt.policies[i]? = some policy → ∀ j, Entry.use j ∈ policy.entries →
    j < ctxt.policies.length ∧ ctxt.mainPolicy ≠ some j ∧ (ctxt.mainPolicy = some i ∨ j < i)

theorem wf_reset : ParserCtxt.reset.Wf where
  names := List.nodup_nil
  main := by
    intro main
    constructor
    · intro h
      cases h
    · rintro ⟨policy, h, -⟩
      cases h
  uses := by
    intro i policy h
    cases h

/-- What is used has been registered, and is not the main policy. -/
theorem ParserCtxt.Wf.used (h : ctxt.Wf) {statements : List StatementTree}
    (he : statements.mapM (policyStatement ctxt) = .ok entries) (hj : Entry.use j ∈ entries) :
    j < ctxt.policies.length ∧ ctxt.mainPolicy ≠ some j := by
  have hall := mapM_ok.mp he
  obtain ⟨tree, -, htree⟩ : ∃ tree ∈ statements, policyStatement ctxt tree = .ok (.use j) := by
    clear he
    induction hall with
    | nil => cases hj
    | cons hx _ ih =>
        rcases List.mem_cons.mp hj with rfl | hj
        · exact ⟨_, List.mem_cons_self, hx⟩
        · obtain ⟨tree, hmem, htree⟩ := ih hj
          exact ⟨tree, List.mem_cons_of_mem _ hmem, htree⟩
  cases tree with
  | use identifier =>
      rw [policyStatement] at htree
      cases hl : lookupPolicy ctxt identifier.id with
      | none =>
          rw [hl] at htree
          cases htree
      | some used =>
          rw [hl] at htree
          cases htree
          obtain ⟨policy, hp, hname⟩ := lookupPolicy_some hl
          obtain ⟨hlt, -⟩ := List.getElem?_eq_some_iff.mp hp
          refine ⟨hlt, ?_⟩
          intro hmain
          obtain ⟨policy', hp', hname'⟩ := (h.main j).mp hmain
          rw [hp] at hp'
          cases hp'
          exact identifier.ne_main (hname.symm.trans hname')
  | action tree filters =>
      rw [policyStatement] at htree
      cases hb : actionBlock ctxt.constants tree filters with
      | error e =>
          rw [hb] at htree
          cases htree
      | ok block =>
          rw [hb] at htree
          cases htree

/-- Constants and the default action do not matter here. -/
theorem ParserCtxt.Wf.congr (h : ctxt.Wf) (hp : ctxt'.policies = ctxt.policies)
    (hm : ctxt'.mainPolicy = ctxt.mainPolicy) : ctxt'.Wf := by
  refine ⟨?_, ?_, ?_⟩
  · rw [hp]
    exact h.names
  · rw [hp, hm]
    exact h.main
  · rw [hp, hm]
    exact h.uses

/-- One more policy, which uses policies that were there. -/
theorem ParserCtxt.Wf.register (policy : Policy) (h : ctxt.Wf)
    (hname : policy.name ∉ ctxt.policies.map Policy.name)
    (huses : ∀ j, Entry.use j ∈ policy.entries →
      j < ctxt.policies.length ∧ ctxt.mainPolicy ≠ some j)
    (hpolicies : ctxt'.policies = ctxt.policies ++ [policy])
    (hmain : policy.name ≠ "@main" ∧ ctxt'.mainPolicy = ctxt.mainPolicy ∨
      policy.name = "@main" ∧ ctxt'.mainPolicy = some ctxt.policies.length) : ctxt'.Wf := by
  have hnone : policy.name = "@main" → ctxt.mainPolicy = none := by
    intro hp
    rw [← Option.not_isSome_iff_eq_none, Option.isSome_iff_exists]
    rintro ⟨main, hmain⟩
    obtain ⟨policy', hp', hname'⟩ := (h.main main).mp hmain
    rw [hp, ← hname'] at hname
    exact hname (List.mem_map_of_mem (List.mem_of_getElem? hp'))
  have hkeeps : ∀ j, j < ctxt.policies.length → ctxt.mainPolicy ≠ some j →
      ctxt'.mainPolicy ≠ some j := by
    intro j hj hne
    rcases hmain with ⟨-, hm⟩ | ⟨-, hm⟩
    · rw [hm]
      exact hne
    · rw [hm]
      intro he
      rw [Option.some.injEq] at he
      omega
  refine ⟨?_, ?_, ?_⟩
  · rw [hpolicies, List.map_append, List.map_singleton]
    refine List.nodup_append.mpr ⟨h.names, List.nodup_singleton _, ?_⟩
    intro name hmem name' hmem' he
    rw [List.mem_singleton.mp hmem'] at he
    exact hname (he ▸ hmem)
  · intro main
    rw [hpolicies]
    rcases Nat.lt_trichotomy main ctxt.policies.length with hlt | rfl | hgt
    · rw [List.getElem?_append_left hlt, ← h.main main]
      rcases hmain with ⟨-, hm⟩ | ⟨hp, hm⟩
      · rw [hm]
      · rw [hm, hnone hp]
        constructor
        · intro he
          rw [Option.some.injEq] at he
          omega
        · intro he
          cases he
    · rw [List.getElem?_append_right (Nat.le_refl _), Nat.sub_self]
      rcases hmain with ⟨hp, hm⟩ | ⟨hp, hm⟩
      · rw [hm]
        constructor
        · intro he
          obtain ⟨policy', hp', -⟩ := (h.main _).mp he
          have hlt := (List.getElem?_eq_some_iff.mp hp').1
          omega
        · rintro ⟨policy', he, hname'⟩
          cases he
          exact absurd hname' hp
      · rw [hm]
        constructor
        · intro _
          exact ⟨policy, rfl, hp⟩
        · intro _
          rfl
    · rw [List.getElem?_eq_none (by rw [List.length_append, List.length_singleton]; omega)]
      constructor
      · intro he
        exfalso
        rcases hmain with ⟨-, hm⟩ | ⟨-, hm⟩
        · rw [hm] at he
          obtain ⟨policy', hp', -⟩ := (h.main _).mp he
          have hlt := (List.getElem?_eq_some_iff.mp hp').1
          omega
        · rw [hm, Option.some.injEq] at he
          omega
      · rintro ⟨policy', he, -⟩
        cases he
  · intro i policy' hi j hj
    rw [hpolicies] at hi ⊢
    rw [List.length_append, List.length_singleton]
    obtain ⟨hlt, -⟩ := List.getElem?_eq_some_iff.mp hi
    rw [List.length_append, List.length_singleton] at hlt
    by_cases hi' : i < ctxt.policies.length
    · rw [List.getElem?_append_left hi'] at hi
      obtain ⟨hjlt, hne, hor⟩ := h.uses i policy' hi j hj
      refine ⟨by omega, hkeeps j hjlt hne, ?_⟩
      rcases hor with hor | hor
      · rcases hmain with ⟨-, hm⟩ | ⟨hp, -⟩
        · exact .inl (hm.trans hor)
        · rw [hnone hp] at hor
          cases hor
      · exact .inr hor
    · obtain rfl : i = ctxt.policies.length := by omega
      rw [List.getElem?_append_right (Nat.le_refl _), Nat.sub_self] at hi
      cases hi
      obtain ⟨hjlt, hne⟩ := huses j hj
      exact ⟨by omega, hkeeps j hjlt hne, .inr hjlt⟩

theorem names_modify {policies : List Policy} {main : Nat} :
    (policies.modify main (concatEntries entries)).map Policy.name = policies.map Policy.name := by
  refine List.ext_getElem? ?_
  intro i
  rw [List.getElem?_map, List.getElem?_map, List.getElem?_modify]
  cases policies[i]? with
  | none => rfl
  | some policy =>
      show some (if main = i then concatEntries entries policy else policy).name = some policy.name
      split
      case isTrue => rfl
      case isFalse => rfl

/-- More entries of the main policy. -/
theorem ParserCtxt.Wf.concat {main : Nat} (h : ctxt.Wf) (hm : ctxt.mainPolicy = some main)
    (huses : ∀ j, Entry.use j ∈ entries → j < ctxt.policies.length ∧ ctxt.mainPolicy ≠ some j) :
    { ctxt with policies := ctxt.policies.modify main (concatEntries entries) }.Wf := by
  have hname : ∀ i : Nat,
      ((ctxt.policies.modify main (concatEntries entries))[i]?).map Policy.name =
      (ctxt.policies[i]?).map Policy.name := by
    intro i
    rw [← List.getElem?_map, ← List.getElem?_map, names_modify]
  refine ⟨?_, ?_, ?_⟩
  · dsimp only
    rw [names_modify]
    exact h.names
  · intro k
    rw [h.main k]
    have hiff : ∀ l : List Policy, (∃ policy, l[k]? = some policy ∧ policy.name = "@main") ↔
        (l[k]?).map Policy.name = some "@main" := by
      intro l
      rw [Option.map_eq_some_iff]
    dsimp only
    rw [hiff, hiff, hname]
  · intro i policy hi j hj
    dsimp only at hi ⊢
    rw [List.length_modify]
    rw [List.getElem?_modify] at hi
    obtain ⟨old, hold, rfl⟩ := Option.map_eq_some_iff.mp hi
    split at hj
    case isTrue hmi =>
        subst hmi
        rcases List.mem_append.mp hj with hj | hj
        · exact h.uses _ old hold j hj
        · obtain ⟨hlt, hne⟩ := huses j hj
          exact ⟨hlt, hne, .inl hm⟩
    case isFalse => exact h.uses i old hold j hj

/-- **A statement keeps a context well formed.** -/
theorem StmtDoes.wf (hd : StmtDoes ctxt stmt ctxt') (h : ctxt.Wf) : ctxt'.Wf := by
  cases hd with
  | known => exact h
  | const => exact h.congr rfl rfl
  | @policy loc name statements entries he hl =>
      exact h.register ⟨name.id, entries⟩ (lookupPolicy_none.mp hl)
        (fun j hj => h.used he hj) rfl (.inl ⟨name.ne_main, rfl⟩)
  | @first statements entries he hm =>
      refine h.register ⟨"@main", entries⟩ ?_ (fun j hj => h.used he hj) rfl
        (.inr ⟨rfl, rfl⟩)
      intro hmem
      obtain ⟨policy, hp, hname⟩ := List.mem_map.mp hmem
      obtain ⟨i, hi⟩ := List.getElem?_of_mem hp
      rw [(h.main i).mpr ⟨policy, hi, hname⟩] at hm
      cases hm
  | more he hm => exact h.concat hm fun j hj => h.used he hj
  | default => exact h.congr rfl rfl

/-- What holds at the start and is kept by every accepted statement holds of every context. -/
theorem program_induct {P : List ProgramStmt → ParserCtxt → Prop} (hreset : P [] .reset)
    (hstep : ∀ before ctxt stmt ctxt', P before ctxt → StmtDoes ctxt stmt ctxt' →
      P (before ++ [stmt]) ctxt')
    (h : program text = .ok ctxt) : P text.stmts ctxt := by
  have hrun : ∀ stmts before start, P before start → stmts.foldlM programStmt start = .ok ctxt →
      P (before ++ stmts) ctxt := by
    intro stmts
    induction stmts with
    | nil =>
        intro before start hs h
        cases h
        rw [List.append_nil]
        exact hs
    | cons stmt stmts ih =>
        intro before start hs h
        rw [List.foldlM_cons] at h
        obtain ⟨mid, hmid, h⟩ := except_bind.mp h
        rw [List.append_cons]
        exact ih _ mid (hstep _ _ _ _ hs (programStmt_iff.mp hmid)) h
  exact hrun text.stmts [] _ hreset h

/-- **Every context of the parser is well formed.** -/
theorem program_wf (h : program text = .ok ctxt) : ctxt.Wf :=
  program_induct (P := fun _ ctxt => ctxt.Wf) wf_reset (fun _ _ _ _ hs hd => hd.wf hs) h

/-- The rank of a policy: its number, and the main policy above all others. -/
def ParserCtxt.rank (ctxt : ParserCtxt) (i : Nat) : Nat :=
  if ctxt.mainPolicy = some i then ctxt.policies.length else i

theorem book_map_entries {policies : List Policy} (i : Nat) :
    book (policies.map Policy.entries) i = (policies[i]?.map Policy.entries).getD [] := by
  rw [book, List.getD_eq_getElem?_getD, List.getElem?_map]

/-- The policies, as `compile_policy` goes through them. -/
def ParserCtxt.toPolicies (ctxt : ParserCtxt) (h : ctxt.Wf) : Policies where
  entries := ctxt.policies.map Policy.entries
  ranked := by
    refine ⟨ctxt.rank, ?_⟩
    intro i j hj
    rw [book_map_entries] at hj
    cases hp : ctxt.policies[i]? with
    | none =>
        rw [hp] at hj
        cases hj
    | some policy =>
        rw [hp] at hj
        obtain ⟨hlt, hne, hor⟩ := h.uses i policy hp j hj
        rw [ParserCtxt.rank, ParserCtxt.rank, if_neg hne]
        split
        case isTrue => exact hlt
        case isFalse hi => exact hor.resolve_left hi
  within := by
    intro i j hj
    rw [List.length_map]
    rw [book_map_entries] at hj
    cases hp : ctxt.policies[i]? with
    | none =>
        rw [hp] at hj
        cases hj
    | some policy =>
        rw [hp] at hj
        exact (h.uses i policy hp j hj).1

/-- **An accepted text** has no two policies of one name, and `USE` cannot go round in a circle. -/
theorem program_ranked (h : program text = .ok ctxt) :
    (ctxt.policies.map Policy.name).Nodup ∧ ∃ rank : Nat → Nat, ∀ i policy j,
      ctxt.policies[i]? = some policy → Entry.use j ∈ policy.entries →
        j < ctxt.policies.length ∧ rank j < rank i := by
  have hwf := program_wf h
  obtain ⟨rank, hrank⟩ := (ctxt.toPolicies hwf).ranked
  refine ⟨hwf.names, rank, ?_⟩
  intro i policy j hp hj
  refine ⟨(hwf.uses i policy hp j hj).1, hrank i j ?_⟩
  show Entry.use j ∈ book (ctxt.policies.map Policy.entries) i
  rw [book_map_entries, hp]
  exact hj

/-- `POLICY a {} USE a`. -/
theorem program_ranked_use : ∃ ctxt, program ⟨[.policy ⟨1, 1⟩ ⟨"a", ⟨1, 8⟩, by decide⟩ [],
      .statements [.use ⟨"a", ⟨1, 17⟩, by decide⟩]], List.cons_ne_nil _ _⟩ = .ok ctxt ∧
    (ctxt.policies.map Policy.name).Nodup := by
  have h : program ⟨[.policy ⟨1, 1⟩ ⟨"a", ⟨1, 8⟩, by decide⟩ [],
      .statements [.use ⟨"a", ⟨1, 17⟩, by decide⟩]], List.cons_ne_nil _ _⟩ =
      .ok ⟨[⟨"a", []⟩, ⟨"@main", [.use 0]⟩], some 1, none, []⟩ := rfl
  exact ⟨_, h, (program_ranked h).1⟩

end Kafel
