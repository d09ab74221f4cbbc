/-
# `YaojJudger.Kafel.Text` — what a policy text means, and which texts are accepted

A text is read from top to bottom.  What has been read is a `Scope`: the constants
by then, the policies with their names, the statements outside of any policy.  A
name in a condition is a constant if there is one of that name at that point, and
otherwise an argument of the call; a `USE` stands for all the statements of the
policy it names (`TextDecides`).

**Proved here.**  A condition, a filter, an action is built if and only if its tree
is `Fine`, and then it means what the tree does (`syscallFilter_ok`,
`syscallFilter_isOk_iff` and their like).  The text as a whole is the matter of
`Reading.lean`.
-/
import YaojJudger.Kafel.Parser

namespace Kafel

open FirstMatch

/-! ## Conditions by name -/

def OperandTree.value (constants : Constants) (val : Identifier → UInt64) : OperandTree → UInt64
  | .number n => n
  | .identifier v => (lookupConst constants v.id).getD (val v)
  | .bit _ op left right => op.eval (left.value constants val) (right.value constants val)

def BoolTree.holds (constants : Constants) (val : Identifier → UInt64) : BoolTree → Bool
  | .not _ child => !child.holds constants val
  | .logic _ op left right => op.eval (left.holds constants val) (right.holds constants val)
  | .cmp _ op left right => op.eval (left.value constants val) (right.value constants val)

def OperandTree.depth : OperandTree → Nat
  | .number _ | .identifier _ => 0
  | .bit _ _ left right => max (left.depth + 1) (right.depth + 1)

def BoolTree.depth : BoolTree → Nat
  | .not _ child => child.depth + 1
  | .logic _ _ left right => max (left.depth + 1) (right.depth + 1)
  | .cmp _ _ left right => max (left.depth + 1) (right.depth + 1)

/-! ## Filters -/

/-- The number of the call: a constant, or by the table. -/
def SyscallTree.nr (constants : Constants) (list : SyscallList) (tree : SyscallTree) :
    Option UInt32 :=
  match tree.id with
  | .number n => some n.toUInt32
  | .identifier identifier =>
    match lookupConst constants identifier.id with
    | some value => some value.toUInt32
    | none => (syscallLookup list identifier.id).map (·.nr)

/-- Its arguments: those declared, all of 8 bytes, or those of the table. -/
def SyscallTree.sargs (constants : Constants) (list : SyscallList) (tree : SyscallTree) :
    Option SyscallArgs :=
  match tree.args with
  | some names => some (customArgs (names.map Identifier.id))
  | none =>
    match tree.id with
    | .number _ => some fun _ => ⟨none, 0⟩
    | .identifier identifier =>
      match lookupConst constants identifier.id with
      | some _ => some fun _ => ⟨none, 0⟩
      | none => (syscallLookup list identifier.id).map (·.args)

def FilterTree.value (constants : Constants) (list : SyscallList) (data : SeccompData)
    (tree : FilterTree) (identifier : Identifier) : UInt64 :=
  match (tree.syscall.sargs constants list).bind fun args => resolveId args identifier.id with
  | some arg => arg.value data.args
  | none => 0

def FilterTree.admits (constants : Constants) (list : SyscallList) (data : SeccompData)
    (tree : FilterTree) : Bool :=
  tree.syscall.nr constants list == some data.nr &&
    tree.expr.all fun expr => expr.holds constants (tree.value constants list data)

def ActionTree.result : ActionTree → Action
  | .basic b => .basic b
  | .errno _ value => .errno value.toUInt16
  | .trace _ value => .trace value.toUInt16
  | .trap _ value => .trap value.toUInt16

/-- An action block, with the constants there were. -/
structure Block where
  constants : Constants
  action : ActionTree
  filters : List FilterTree

def Block.decides (list : SyscallList) (data : SeccompData) (block : Block) : Option Action :=
  if block.filters.any (FilterTree.admits block.constants list data) then some block.action.result
  else none

/-! ## The text -/

/-- A statement, with the constants there were. -/
def StatementTree.entry (constants : Constants) : StatementTree → Entry String Block
  | .use name => .use name.id
  | .action tree filters => .item ⟨constants, tree, filters⟩

def blocks (constants : Constants) (statements : List StatementTree) : List (Entry String Block) :=
  statements.map (StatementTree.entry constants)

/-- What has been read. -/
structure Scope where
  constants : Constants
  named : List (String × List (Entry String Block))
  main : List (Entry String Block)
  default : Option ActionTree

def Scope.empty : Scope := ⟨[], [], [], none⟩

def Scope.add (scope : Scope) : ProgramStmt → Scope
  | .constDef _ name value =>
    if (lookupConst scope.constants name.id).isSome then scope
    else { scope with constants := scope.constants ++ [(name.id, value)] }
  | .policy _ name statements =>
    { scope with named := scope.named ++ [(name.id, blocks scope.constants statements)] }
  | .statements statements => { scope with main := scope.main ++ blocks scope.constants statements }
  | .default _ action => { scope with default := some action }

def readAll (stmts : List ProgramStmt) : Scope := stmts.foldl Scope.add .empty

/-- The statements of the policy of a name. -/
def Scope.book (scope : Scope) (name : String) : List (Entry String Block) :=
  ((scope.named.find? fun x => x.1 = name).map Prod.snd).getD []

/-- **What a text does with a call**; none if nothing in it applies. -/
def TextDecides (stmts : List ProgramStmt) (list : SyscallList) (data : SeccompData)
    (r : Option Action) : Prop :=
  Decides (readAll stmts).book (Block.decides list data) (readAll stmts).main r

/-! ## What is accepted -/

/-- At most six arguments, no two of one name. -/
def SyscallTree.Fine (tree : SyscallTree) : Prop :=
  ∀ names, tree.args = some names → (names.map Identifier.id).Nodup ∧ names.length ≤ syscallMaxArgs

def FilterTree.Fine (tree : FilterTree) : Prop :=
  tree.syscall.Fine ∧ ∀ expr, tree.expr = some expr → expr.depth ≤ maxExpressionDepth

def ActionTree.Fine : ActionTree → Prop
  | .basic _ => True
  | .errno _ value | .trace _ value | .trap _ value => value ≤ 0xffff

/-- A `USE` is of a policy that has ended. -/
def StatementTree.Fine (scope : Scope) : StatementTree → Prop
  | .use name => name.id ∈ scope.named.map Prod.fst
  | .action tree filters => tree.Fine ∧ ∀ filter ∈ filters, filter.Fine

/-- Nothing is defined twice, except a constant as what it is. -/
def ProgramStmt.Fine (scope : Scope) : ProgramStmt → Prop
  | .constDef _ name value =>
    ∀ old, lookupConst scope.constants name.id = some old → old = value
  | .policy _ name trees =>
    name.id ∉ scope.named.map Prod.fst ∧ ∀ statement ∈ trees, statement.Fine scope
  | .statements trees => ∀ statement ∈ trees, statement.Fine scope
  | .default _ tree => tree.Fine ∧ scope.default = none

variable {constants : Constants} {list : SyscallList} {data : SeccompData}
  {val : Identifier → UInt64} {scope scope' : Scope} {ctxt ctxt' : ParserCtxt}
  {stmt : ProgramStmt} {stmts : List ProgramStmt} {name : String} {i j : Nat}

/-! ## Conditions -/

theorem checkedExpr_ok {α : Type} {loc : SourceLocation} {depths : List Nat} {x y : α} :
    checkedExpr loc depths x = .ok y ↔ (∀ d ∈ depths, d < maxExpressionDepth) ∧ x = y := by
  unfold checkedExpr
  split
  case isTrue h =>
      obtain ⟨d, hd, hle⟩ := List.any_eq_true.mp h
      constructor
      · intro he
        cases he
      · rintro ⟨hall, -⟩
        exact absurd (hall d hd) (Nat.not_lt.mpr (of_decide_eq_true hle))
  case isFalse h =>
      constructor
      · intro he
        cases he
        refine ⟨?_, rfl⟩
        intro d hd
        by_contra hlt
        exact h (List.any_eq_true.mpr ⟨d, hd, decide_eq_true (Nat.not_lt.mp hlt)⟩)
      · rintro ⟨-, rfl⟩
        rfl

/-- An operand that was built: as deep as its tree, and of the same value. -/
theorem operand_ok {tree : OperandTree} {o : Operand Identifier}
    (h : operand constants tree = .ok o) :
    o.depth = tree.depth ∧ ∀ val, o.value val = tree.value constants val := by
  induction tree generalizing o with
  | number n =>
      cases h
      exact ⟨rfl, fun _ => rfl⟩
  | identifier identifier =>
      rw [operand] at h
      cases hl : lookupConst constants identifier.id with
      | none =>
          rw [hl] at h
          cases h
          refine ⟨rfl, ?_⟩
          intro val
          rw [OperandTree.value, hl]
          rfl
      | some value =>
          rw [hl] at h
          cases h
          refine ⟨rfl, ?_⟩
          intro val
          rw [OperandTree.value, hl]
          rfl
  | bit loc op left right ihl ihr =>
      obtain ⟨left', hl, h⟩ := except_bind.mp h
      obtain ⟨right', hr, h⟩ := except_bind.mp h
      obtain ⟨-, rfl⟩ := checkedExpr_ok.mp h
      obtain ⟨hdl, hvl⟩ := ihl hl
      obtain ⟨hdr, hvr⟩ := ihr hr
      refine ⟨?_, ?_⟩
      · rw [Operand.depth, OperandTree.depth, hdl, hdr]
      · intro val
        rw [Operand.value, OperandTree.value, hvl, hvr]

theorem boolExpr_ok {tree : BoolTree} {e : Expr Identifier}
    (h : boolExpr constants tree = .ok e) :
    e.depth = tree.depth ∧ ∀ val, e.holds val = tree.holds constants val := by
  induction tree generalizing e with
  | not loc child ih =>
      obtain ⟨child', hc, h⟩ := except_bind.mp h
      obtain ⟨-, rfl⟩ := checkedExpr_ok.mp h
      obtain ⟨hd, hv⟩ := ih hc
      refine ⟨?_, ?_⟩
      · rw [Expr.depth, BoolTree.depth, hd]
      · intro val
        rw [Expr.holds, BoolTree.holds, hv]
  | logic loc op left right ihl ihr =>
      obtain ⟨left', hl, h⟩ := except_bind.mp h
      obtain ⟨right', hr, h⟩ := except_bind.mp h
      obtain ⟨-, rfl⟩ := checkedExpr_ok.mp h
      obtain ⟨hdl, hvl⟩ := ihl hl
      obtain ⟨hdr, hvr⟩ := ihr hr
      refine ⟨?_, ?_⟩
      · rw [Expr.depth, BoolTree.depth, hdl, hdr]
      · intro val
        rw [Expr.holds, BoolTree.holds, hvl, hvr]
  | cmp loc op left right =>
      obtain ⟨left', hl, h⟩ := except_bind.mp h
      obtain ⟨right', hr, h⟩ := except_bind.mp h
      obtain ⟨-, rfl⟩ := checkedExpr_ok.mp h
      obtain ⟨hdl, hvl⟩ := operand_ok hl
      obtain ⟨hdr, hvr⟩ := operand_ok hr
      refine ⟨?_, ?_⟩
      · rw [Expr.depth, BoolTree.depth, hdl, hdr]
      · intro val
        rw [Expr.holds, BoolTree.holds, hvl, hvr]

theorem two_lt_iff {m n k : Nat} :
    (∀ d ∈ [m, n], d < k) ↔ max (m + 1) (n + 1) ≤ k := by
  rw [List.forall_mem_cons, List.forall_mem_singleton, Nat.max_le]
  rfl

/-- An operand is built if it is not too deep. -/
theorem operand_isOk_iff {tree : OperandTree} :
    (∃ o, operand constants tree = .ok o) ↔ tree.depth ≤ maxExpressionDepth := by
  induction tree with
  | number n => exact ⟨fun _ => Nat.zero_le _, fun _ => ⟨_, rfl⟩⟩
  | identifier identifier =>
      refine ⟨fun _ => Nat.zero_le _, ?_⟩
      intro _
      rw [operand]
      cases lookupConst constants identifier.id with
      | none => exact ⟨_, rfl⟩
      | some value => exact ⟨_, rfl⟩
  | bit loc op left right ihl ihr =>
      rw [OperandTree.depth]
      constructor
      · rintro ⟨o, h⟩
        obtain ⟨left', hl, h⟩ := except_bind.mp h
        obtain ⟨right', hr, h⟩ := except_bind.mp h
        rw [← (operand_ok hl).1, ← (operand_ok hr).1]
        exact two_lt_iff.mp (checkedExpr_ok.mp h).1
      · intro h
        obtain ⟨left', hl⟩ := ihl.mpr (by omega)
        obtain ⟨right', hr⟩ := ihr.mpr (by omega)
        rw [← (operand_ok hl).1, ← (operand_ok hr).1] at h
        refine ⟨.bit op left' right', except_bind.mpr ⟨left', hl, except_bind.mpr ⟨right', hr, ?_⟩⟩⟩
        exact checkedExpr_ok.mpr ⟨two_lt_iff.mpr h, rfl⟩

theorem boolExpr_isOk_iff {tree : BoolTree} :
    (∃ e, boolExpr constants tree = .ok e) ↔ tree.depth ≤ maxExpressionDepth := by
  induction tree with
  | not loc child ih =>
      rw [BoolTree.depth]
      constructor
      · rintro ⟨e, h⟩
        obtain ⟨child', hc, h⟩ := except_bind.mp h
        rw [← (boolExpr_ok hc).1]
        exact (checkedExpr_ok.mp h).1 _ List.mem_cons_self
      · intro h
        obtain ⟨child', hc⟩ := ih.mpr (by omega)
        rw [← (boolExpr_ok hc).1] at h
        refine ⟨.not child', except_bind.mpr ⟨child', hc, checkedExpr_ok.mpr ⟨?_, rfl⟩⟩⟩
        exact List.forall_mem_singleton.mpr h
  | logic loc op left right ihl ihr =>
      rw [BoolTree.depth]
      constructor
      · rintro ⟨e, h⟩
        obtain ⟨left', hl, h⟩ := except_bind.mp h
        obtain ⟨right', hr, h⟩ := except_bind.mp h
        rw [← (boolExpr_ok hl).1, ← (boolExpr_ok hr).1]
        exact two_lt_iff.mp (checkedExpr_ok.mp h).1
      · intro h
        obtain ⟨left', hl⟩ := ihl.mpr (by omega)
        obtain ⟨right', hr⟩ := ihr.mpr (by omega)
        rw [← (boolExpr_ok hl).1, ← (boolExpr_ok hr).1] at h
        refine ⟨.logic op left' right',
          except_bind.mpr ⟨left', hl, except_bind.mpr ⟨right', hr, ?_⟩⟩⟩
        exact checkedExpr_ok.mpr ⟨two_lt_iff.mpr h, rfl⟩
  | cmp loc op left right =>
      rw [BoolTree.depth]
      constructor
      · rintro ⟨e, h⟩
        obtain ⟨left', hl, h⟩ := except_bind.mp h
        obtain ⟨right', hr, h⟩ := except_bind.mp h
        rw [← (operand_ok hl).1, ← (operand_ok hr).1]
        exact two_lt_iff.mp (checkedExpr_ok.mp h).1
      · intro h
        obtain ⟨left', hl⟩ := (@operand_isOk_iff constants left).mpr (by omega)
        obtain ⟨right', hr⟩ := (@operand_isOk_iff constants right).mpr (by omega)
        rw [← (operand_ok hl).1, ← (operand_ok hr).1] at h
        refine ⟨.cmp op left' right', except_bind.mpr ⟨left', hl, except_bind.mpr ⟨right', hr, ?_⟩⟩⟩
        exact checkedExpr_ok.mpr ⟨two_lt_iff.mpr h, rfl⟩

/-! ## Filters and actions -/

theorem syscallArgs_ok {names names' : List String} {args : List Identifier} (hn : names.Nodup)
    (hlen : names.length ≤ syscallMaxArgs) :
    syscallArgs names args = .ok names' ↔ names' = names ++ args.map Identifier.id ∧
      (names ++ args.map Identifier.id).Nodup ∧ names.length + args.length ≤ syscallMaxArgs := by
  induction args generalizing names with
  | nil =>
      rw [List.map_nil, List.append_nil, List.length_nil, Nat.add_zero]
      constructor
      · intro h
        cases h
        exact ⟨rfl, hn, hlen⟩
      · rintro ⟨rfl, -⟩
        rfl
  | cons identifier args ih =>
      rw [syscallArgs, List.map_cons, List.length_cons]
      split
      case isTrue hmem =>
          constructor
          · intro h
            cases h
          · rintro ⟨-, hnodup, -⟩
            exact absurd rfl
              ((List.nodup_append.mp hnodup).2.2 _ hmem _ List.mem_cons_self)
      case isFalse hmem =>
          split
          case isTrue hfull =>
              constructor
              · intro h
                cases h
              · rintro ⟨-, -, hle⟩
                omega
          case isFalse hfull =>
              have hn' : (names ++ [identifier.id]).Nodup := by
                refine List.nodup_append.mpr ⟨hn, List.nodup_singleton _, ?_⟩
                intro name hname name' hname' he
                rw [List.mem_singleton.mp hname'] at he
                exact hmem (he ▸ hname)
              have hlen' : (names ++ [identifier.id]).length ≤ syscallMaxArgs := by
                rw [List.length_append, List.length_singleton]
                omega
              rw [ih hn' hlen', List.append_assoc, List.singleton_append, List.length_append,
                List.length_singleton, Nat.add_assoc, Nat.add_comm 1]

theorem syscall_ok {tree : SyscallTree} {spec : SyscallSpec}
    (h : syscall constants tree = .ok spec) :
    spec.getSyscallNr list = tree.nr constants list ∧
      spec.getArgs list = tree.sargs constants list := by
  obtain ⟨id, args⟩ := tree
  cases args with
  | none =>
      cases h
      cases id with
      | number n => exact ⟨rfl, rfl⟩
      | identifier v =>
          unfold SyscallSpec.getSyscallNr SyscallSpec.getArgs SyscallTree.nr SyscallTree.sargs
          dsimp only [syscallId]
          cases lookupConst constants v.id with
          | none => exact ⟨rfl, rfl⟩
          | some value => exact ⟨rfl, rfl⟩
  | some args =>
      obtain ⟨names, hnames, h⟩ := except_bind.mp h
      cases h
      obtain ⟨rfl, -⟩ := (syscallArgs_ok List.nodup_nil (Nat.zero_le _)).mp hnames
      cases id with
      | number n => exact ⟨rfl, rfl⟩
      | identifier v =>
          unfold SyscallSpec.getSyscallNr SyscallSpec.getArgs SyscallTree.nr SyscallTree.sargs
          dsimp only [syscallId]
          cases lookupConst constants v.id with
          | none => exact ⟨rfl, rfl⟩
          | some value => exact ⟨rfl, rfl⟩

theorem syscall_isOk_iff {tree : SyscallTree} :
    (∃ spec, syscall constants tree = .ok spec) ↔ tree.Fine := by
  obtain ⟨id, args⟩ := tree
  cases args with
  | none =>
      constructor
      · intro _ names hnames
        cases hnames
      · intro _
        exact ⟨_, rfl⟩
  | some args =>
      have hiff := fun names => @syscallArgs_ok [] names args List.nodup_nil (Nat.zero_le _)
      simp only [List.nil_append, List.length_nil, Nat.zero_add] at hiff
      constructor
      · rintro ⟨spec, h⟩ names hnames
        obtain ⟨names', hargs, -⟩ := except_bind.mp h
        cases hnames
        exact ((hiff names').mp hargs).2
      · intro hfine
        exact ⟨⟨syscallId constants id, some (customArgs (args.map Identifier.id))⟩,
          except_bind.mpr ⟨_, (hiff _).mpr ⟨rfl, hfine args rfl⟩, rfl⟩⟩

/-- A filter that was built admits what its tree does. -/
theorem syscallFilter_ok {tree : FilterTree} {filter : SyscallFilter}
    (h : syscallFilter constants tree = .ok filter) :
    filter.admits list data = tree.admits constants list data := by
  obtain ⟨spec, hspec, h⟩ := except_bind.mp h
  obtain ⟨hnr, hargs⟩ := @syscall_ok constants list _ _ hspec
  obtain ⟨stree, expr⟩ := tree
  cases expr with
  | none =>
      cases h
      rw [SyscallFilter.admits, FilterTree.admits, hnr]
      rfl
  | some expr =>
      obtain ⟨expr', hexpr, h⟩ := except_bind.mp h
      cases h
      rw [SyscallFilter.admits, FilterTree.admits, hnr]
      dsimp only
      rw [Option.all_some, Option.all_some, (boolExpr_ok hexpr).2]
      congr 2
      funext v
      rw [SyscallFilter.value, hargs]
      rfl

theorem syscallFilter_isOk_iff {tree : FilterTree} :
    (∃ filter, syscallFilter constants tree = .ok filter) ↔ tree.Fine := by
  obtain ⟨stree, expr⟩ := tree
  constructor
  · rintro ⟨filter, h⟩
    obtain ⟨spec, hspec, h⟩ := except_bind.mp h
    refine ⟨syscall_isOk_iff.mp ⟨spec, hspec⟩, ?_⟩
    rintro expr rfl
    obtain ⟨expr', hexpr, -⟩ := except_bind.mp h
    exact boolExpr_isOk_iff.mp ⟨expr', hexpr⟩
  · rintro ⟨hsyscall, hexpr⟩
    obtain ⟨spec, hspec⟩ := (@syscall_isOk_iff constants stree).mpr hsyscall
    cases expr with
    | none => exact ⟨⟨spec, none⟩, except_bind.mpr ⟨spec, hspec, rfl⟩⟩
    | some expr =>
        obtain ⟨expr', h⟩ := (@boolExpr_isOk_iff constants expr).mpr (hexpr expr rfl)
        exact ⟨⟨spec, some expr'⟩,
          except_bind.mpr ⟨spec, hspec, except_bind.mpr ⟨expr', h, rfl⟩⟩⟩

theorem valuedAction_ok {what : String} {f : UInt16 → Action} {loc : SourceLocation}
    {value : UInt64} {a : Action} :
    valuedAction what f loc value = .ok a ↔ value ≤ 0xffff ∧ f value.toUInt16 = a := by
  unfold valuedAction
  split
  case isTrue h =>
      constructor
      · intro he
        cases he
      · rintro ⟨hle, -⟩
        exact absurd hle (UInt64.not_le.mpr h)
  case isFalse h =>
      constructor
      · intro he
        cases he
        exact ⟨UInt64.not_lt.mp h, rfl⟩
      · rintro ⟨-, rfl⟩
        rfl

theorem action_ok {tree : ActionTree} {a : Action} :
    action tree = .ok a ↔ tree.Fine ∧ tree.result = a := by
  cases tree with
  | basic b =>
      constructor
      · intro h
        cases h
        exact ⟨trivial, rfl⟩
      · rintro ⟨-, rfl⟩
        rfl
  | errno | trace | trap => exact valuedAction_ok

theorem any_admits {filters : List FilterTree} {filters' : List SyscallFilter}
    (h : List.Forall₂ (fun x y => syscallFilter constants x = .ok y) filters filters') :
    filters.any (FilterTree.admits constants list data) =
      filters'.any (SyscallFilter.admits list data) := by
  induction h with
  | nil => rfl
  | cons hx _ ih => rw [List.any_cons, List.any_cons, syscallFilter_ok hx, ih]

/-- A block that was built decides as its trees do. -/
theorem actionBlock_ok {tree : ActionTree} {filters : List FilterTree} {block : ActionBlock}
    (h : actionBlock constants tree filters = .ok block) :
    (⟨constants, tree, filters⟩ : Block).decides list data = block.decides list data := by
  obtain ⟨a, ha, h⟩ := except_bind.mp h
  obtain ⟨filters', hfilters, h⟩ := except_bind.mp h
  cases h
  obtain ⟨-, rfl⟩ := action_ok.mp ha
  rw [Block.decides, ActionBlock.decides, any_admits (mapM_ok.mp hfilters)]

theorem mapM_isOk_iff {α β : Type} {f : α → Except String β} {xs : List α} :
    (∃ ys, xs.mapM f = .ok ys) ↔ ∀ x ∈ xs, ∃ y, f x = .ok y := by
  induction xs with
  | nil =>
      constructor
      · intro _ x hx
        cases hx
      · intro _
        exact ⟨[], rfl⟩
  | cons x xs ih =>
      rw [List.forall_mem_cons, ← ih, List.mapM_cons]
      constructor
      · rintro ⟨ys, h⟩
        obtain ⟨y, hy, h⟩ := except_bind.mp h
        obtain ⟨ys', hys, -⟩ := except_bind.mp h
        exact ⟨⟨y, hy⟩, ⟨ys', hys⟩⟩
      · rintro ⟨⟨y, hy⟩, ⟨ys', hys⟩⟩
        exact ⟨y :: ys', except_bind.mpr ⟨y, hy, except_bind.mpr ⟨ys', hys, rfl⟩⟩⟩

theorem actionBlock_isOk_iff {tree : ActionTree} {filters : List FilterTree} :
    (∃ block, actionBlock constants tree filters = .ok block) ↔
      tree.Fine ∧ ∀ filter ∈ filters, filter.Fine := by
  constructor
  · rintro ⟨block, h⟩
    obtain ⟨a, ha, h⟩ := except_bind.mp h
    obtain ⟨filters', hfilters, -⟩ := except_bind.mp h
    refine ⟨(action_ok.mp ha).1, ?_⟩
    intro filter hmem
    exact syscallFilter_isOk_iff.mp (mapM_isOk_iff.mp ⟨filters', hfilters⟩ filter hmem)
  · rintro ⟨htree, hall⟩
    obtain ⟨filters', hfilters⟩ := mapM_isOk_iff.mpr fun filter hmem =>
      (@syscallFilter_isOk_iff constants filter).mpr (hall filter hmem)
    exact ⟨⟨tree.result, filters'⟩,
      except_bind.mpr ⟨_, action_ok.mpr ⟨htree, rfl⟩, except_bind.mpr ⟨filters', hfilters, rfl⟩⟩⟩

end Kafel
