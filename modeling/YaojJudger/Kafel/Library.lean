/-
# `YaojJudger.Kafel.Library` — `kafel.c`: from a text to a filter

    kafel_compile    parse, then validate_references, then compile_policy

Every name in a policy is looked for in the table of every target before any code is
made, also in policies that no one uses.

**Proved here.**  Names pass if every target's table has them
(`validateReferences_ok_iff`).  `kafel_compile` returns, a filter or an error: no
assertion fails.  A filter it makes returns for every call (`kafelCompile_returns`) and
does with the call what the text says (`kafelCompile_run`).
An error comes from the text, from a missing name or from the size of the code.
-/
import YaojJudger.Kafel.Reading
import YaojJudger.Kafel.Filter

namespace Kafel

open Bpf FirstMatch
open YaojJudger (SockFprog)

/-! ## `validate_references` -/

/-- `kafel_arch_to_string`. -/
def kafelArchToString (arch : UInt32) : String :=
  match arch.toNat with
  | 16 => "x86-64"
  | 4 => "AArch64"
  | 2 => "ARM"
  | 8 => "X86"
  | 32 => "mips"
  | 64 => "mips64"
  | 128 => "riscv64"
  | _ => "Unknown"

def undefinedIdentifier (identifier : Identifier) : String :=
  emitError identifier.loc ("Undefined identifier `" ++ identifier.id ++ "'")

/-- `validate_references_in_expr`, on an operand. -/
def validateReferencesInOperand (args : SyscallArgs) : Operand Identifier → Except String Unit
  | .number _ => .ok ()
  | .var identifier =>
    if (resolveId args identifier.id).isSome then .ok ()
    else .error (undefinedIdentifier identifier ++ "\n")
  | .bit _ left right => do
    validateReferencesInOperand args left
    validateReferencesInOperand args right

/-- `validate_references_in_expr`. -/
def validateReferencesInExpr (args : SyscallArgs) : Expr Identifier → Except String Unit
  | .tt | .ff => .ok ()
  | .not child => validateReferencesInExpr args child
  | .logic _ left right => do
    validateReferencesInExpr args left
    validateReferencesInExpr args right
  | .cmp _ left right => do
    validateReferencesInOperand args left
    validateReferencesInOperand args right

/-- The name of the call. -/
def validateSyscall (list : SyscallList) (spec : SyscallSpec) : Except String Unit :=
  match spec.type with
  | .id identifier =>
    if (syscallLookup list identifier.id).isNone then .error (undefinedIdentifier identifier)
    else .ok ()
  | .custom _ => .ok ()

/-- The body of the loop over the filters; by then the name of the call has been found. -/
def validateFilter (list : SyscallList) (filter : SyscallFilter) : Except String Unit := do
  validateSyscall list filter.syscall
  match filter.expr with
  | none => .ok ()
  | some expr =>
    validateReferencesInExpr ((filter.syscall.getArgs list).getD fun _ => ⟨none, 0⟩) expr

def validateEntry (list : SyscallList) : PolicyEntry → Except String Unit
  | .use _ => .ok ()
  | .item block => block.filters.forM (validateFilter list)

/-- `validate_references_for_arch`. -/
def validateReferencesForArch (platform : Platform) (policies : List Policy) (targetArch : UInt32) :
    Except String Unit :=
  match syscallsLookup platform targetArch with
  | none =>
    .error ("Cannot resolve syscall list for architecture " ++ kafelArchToString targetArch ++ "\n")
  | some list => policies.forM fun policy => policy.entries.forM (validateEntry list)

/-- The targets of a compilation, one bit each. -/
def targetBits (platform : Platform) (targetArchs : UInt32) : List UInt32 :=
  Bits.each 32 (if targetArchs = 0 then platform.defaultTargetArch else targetArchs)

/-- `validate_references`. -/
def validateReferences (platform : Platform) (targetArchs : UInt32) (policies : List Policy) :
    Except String Unit :=
  (targetBits platform targetArchs).forM (validateReferencesForArch platform policies)

/-! ## `kafel_compile` -/

/-- The context `compile_policy` is given. -/
def ParserCtxt.toKafelCtxt (ctxt : ParserCtxt) (h : ctxt.Wf) (targetArchs : UInt32) : KafelCtxt :=
  ⟨ctxt.toPolicies h, ctxt.mainPolicy, ctxt.defaultAction, targetArchs⟩

/-- `compile_policy` at its end: the filter, or what `append_error` is given. -/
def outcome : Except CompileError (List Instr) → Except String SockFprog
  | .error e => .error e.message
  | .ok p => .ok (p.map encode)

/-- What `kafel_compile` does behind the parser; none if an assertion fails. -/
def compileCtxt (platform : Platform) (targetArchs : UInt32) (ctxt : ParserCtxt) (h : ctxt.Wf) :
    Option (Except String SockFprog) :=
  match validateReferences platform targetArchs ctxt.policies with
  | .error e => some (.error e)
  | .ok _ => (compilePolicy platform (ctxt.toKafelCtxt h targetArchs)).map outcome

/-- `kafel_compile`, of the trees of a text. -/
def kafelCompile (platform : Platform) (targetArchs : UInt32) (text : ProgramTree) :
    Option (Except String SockFprog) :=
  match h : program text with
  | .error e => some (.error e)
  | .ok ctxt => compileCtxt platform targetArchs ctxt (program_wf h)

variable {platform : Platform} {targetArchs : UInt32} {text : ProgramTree}
  {ctxt ctxt' : ParserCtxt} {h : ctxt.Wf} {args : SyscallArgs} {list : SyscallList}
  {filter : SyscallFilter} {data : SeccompData} {action : Action} {r : Option Action}
  {policies : List Policy} {prog : SockFprog} {constants : Constants}

/-! ## What `validate_references` finds -/

theorem except_seq {x y : Except String Unit} :
    (do x; y) = .ok () ↔ x = .ok () ∧ y = .ok () := by
  rw [except_bind]
  constructor
  · rintro ⟨⟨⟩, hx, hy⟩
    exact ⟨hx, hy⟩
  · rintro ⟨hx, hy⟩
    exact ⟨(), hx, hy⟩

theorem forM_ok {α : Type} {f : α → Except String Unit} {xs : List α} :
    xs.forM f = .ok () ↔ ∀ x ∈ xs, f x = .ok () := by
  induction xs with
  | nil =>
      constructor
      · intro _ x hx
        cases hx
      · intro _
        rfl
  | cons x xs ih =>
      rw [List.forall_mem_cons, ← ih]
      exact except_seq

theorem validateOperand_ok_iff {o : Operand Identifier} :
    validateReferencesInOperand args o = .ok () ↔ ∃ o', o.resolve args = some o' := by
  induction o with
  | number n => exact ⟨fun _ => ⟨_, rfl⟩, fun _ => rfl⟩
  | var identifier =>
      rw [validateReferencesInOperand, Operand.resolve]
      cases resolveId args identifier.id with
      | none =>
          constructor
          · intro h
            cases h
          · rintro ⟨o', h⟩
            cases h
      | some arg => exact ⟨fun _ => ⟨_, rfl⟩, fun _ => rfl⟩
  | bit op left right ihl ihr =>
      rw [validateReferencesInOperand, except_seq, ihl, ihr, Operand.resolve]
      simp only [Option.bind_eq_bind, Option.bind_eq_some_iff, Option.some.injEq]
      constructor
      · rintro ⟨⟨l, hl⟩, ⟨r, hr⟩⟩
        exact ⟨_, l, hl, r, hr, rfl⟩
      · rintro ⟨-, l, hl, r, hr, -⟩
        exact ⟨⟨l, hl⟩, ⟨r, hr⟩⟩

theorem validateExpr_ok_iff {e : Expr Identifier} :
    validateReferencesInExpr args e = .ok () ↔ ∃ e', e.resolve args = some e' := by
  induction e with
  | tt | ff => exact ⟨fun _ => ⟨_, rfl⟩, fun _ => rfl⟩
  | not child ih =>
      rw [validateReferencesInExpr, ih, Expr.resolve]
      simp only [Option.map_eq_some_iff]
      constructor
      · rintro ⟨c, hc⟩
        exact ⟨_, c, hc, rfl⟩
      · rintro ⟨-, c, hc, -⟩
        exact ⟨c, hc⟩
  | logic op left right ihl ihr =>
      rw [validateReferencesInExpr, except_seq, ihl, ihr, Expr.resolve]
      simp only [Option.bind_eq_bind, Option.bind_eq_some_iff, Option.some.injEq]
      constructor
      · rintro ⟨⟨l, hl⟩, ⟨r, hr⟩⟩
        exact ⟨_, l, hl, r, hr, rfl⟩
      · rintro ⟨-, l, hl, r, hr, -⟩
        exact ⟨⟨l, hl⟩, ⟨r, hr⟩⟩
  | cmp op left right =>
      rw [validateReferencesInExpr, except_seq, validateOperand_ok_iff, validateOperand_ok_iff,
        Expr.resolve]
      simp only [Option.bind_eq_bind, Option.bind_eq_some_iff, Option.some.injEq]
      constructor
      · rintro ⟨⟨l, hl⟩, ⟨r, hr⟩⟩
        exact ⟨_, l, hl, r, hr, rfl⟩
      · rintro ⟨-, l, hl, r, hr, -⟩
        exact ⟨⟨l, hl⟩, ⟨r, hr⟩⟩

theorem validateSyscall_ok_iff {spec : SyscallSpec} :
    validateSyscall list spec = .ok () ↔ ∃ nr, spec.getSyscallNr list = some nr := by
  obtain ⟨type, customArgs⟩ := spec
  cases type with
  | custom nr => exact ⟨fun _ => ⟨_, rfl⟩, fun _ => rfl⟩
  | id identifier =>
      rw [validateSyscall, SyscallSpec.getSyscallNr]
      dsimp only
      cases syscallLookup list identifier.id with
      | none =>
          constructor
          · intro h
            cases h
          · rintro ⟨nr, h⟩
            cases h
      | some desc => exact ⟨fun _ => ⟨_, rfl⟩, fun _ => rfl⟩

/-- A call that is found has arguments. -/
theorem getArgs_of_nr {spec : SyscallSpec} {nr : UInt32} (hnr : spec.getSyscallNr list = some nr) :
    ∃ args, spec.getArgs list = some args := by
  obtain ⟨type, customArgs⟩ := spec
  cases customArgs with
  | some args => exact ⟨args, rfl⟩
  | none =>
      cases type with
      | custom nr => exact ⟨_, rfl⟩
      | id identifier =>
          rw [SyscallSpec.getSyscallNr] at hnr
          obtain ⟨desc, hdesc, -⟩ := Option.map_eq_some_iff.mp hnr
          refine ⟨desc.args, ?_⟩
          rw [SyscallSpec.getArgs]
          dsimp only
          rw [hdesc]
          rfl

/-- **A filter passes if its names are found.** -/
theorem validateFilter_ok_iff : validateFilter list filter = .ok () ↔ filter.Valid list := by
  rw [validateFilter, except_seq, validateSyscall_ok_iff, SyscallFilter.Valid]
  refine and_congr_right ?_
  rintro ⟨nr, hnr⟩
  obtain ⟨args, hargs⟩ := getArgs_of_nr hnr
  cases he : filter.expr with
  | none =>
      constructor
      · intro _ hsome
        cases hsome
      · intro _
        rfl
  | some expr =>
      dsimp only
      rw [hargs, Option.getD_some, validateExpr_ok_iff, SyscallFilter.condition, he, hargs]
      exact ⟨fun h _ => h, fun h => h rfl⟩

/-- **Which contexts pass**: each target has a table, with every name in it. -/
theorem validateReferences_ok_iff :
    validateReferences platform targetArchs policies = .ok () ↔
      ∀ target ∈ targetBits platform targetArchs,
        ∃ list, syscallsLookup platform target = some list ∧
          ∀ policy ∈ policies, ∀ block, Entry.item block ∈ policy.entries →
            ∀ filter ∈ block.filters, filter.Valid list := by
  rw [validateReferences, forM_ok]
  refine forall₂_congr fun target _ => ?_
  rw [validateReferencesForArch]
  cases syscallsLookup platform target with
  | none =>
      constructor
      · intro h
        cases h
      · rintro ⟨list, h, -⟩
        cases h
  | some list =>
      have hentries : ∀ entries : List PolicyEntry, entries.forM (validateEntry list) = .ok () ↔
          ∀ block, Entry.item block ∈ entries → ∀ filter ∈ block.filters, filter.Valid list := by
        intro entries
        rw [forM_ok]
        constructor
        · intro h block hblock filter hfilter
          have hitem : block.filters.forM (validateFilter list) = .ok () := h _ hblock
          exact validateFilter_ok_iff.mp (forM_ok.mp hitem filter hfilter)
        · intro h entry hentry
          cases entry with
          | use j => rfl
          | item block =>
              show block.filters.forM (validateFilter list) = .ok ()
              exact forM_ok.mpr fun filter hfilter =>
                validateFilter_ok_iff.mpr (h block hentry filter hfilter)
      dsimp only
      rw [forM_ok]
      simp only [hentries]
      constructor
      · intro h
        exact ⟨list, rfl, h⟩
      · rintro ⟨list', hlist, h⟩
        cases hlist
        exact h

/-! ## How many filters there are -/

def StatementTree.filterCount : StatementTree → Nat
  | .use _ => 0
  | .action _ filters => filters.length

/-- The filters of a statement of the text. -/
def ProgramStmt.filterCount : ProgramStmt → Nat
  | .constDef .. | .default .. => 0
  | .policy _ _ trees | .statements trees => (trees.map StatementTree.filterCount).sum

/-- The filters of statements of the text. -/
def stmtsFilters (stmts : List ProgramStmt) : Nat := (stmts.map ProgramStmt.filterCount).sum

/-- The filters of a text. -/
def textFilters (text : ProgramTree) : Nat := stmtsFilters text.stmts

/-- The filters of a context. -/
def ParserCtxt.filters (ctxt : ParserCtxt) : Nat :=
  (ctxt.policies.map fun policy => filterCount policy.entries).sum

theorem filterCount_of_tree {tree : StatementTree} {e : PolicyEntry}
    (h : policyStatement ctxt tree = .ok e) : filterCount [e] = tree.filterCount := by
  cases tree with
  | use identifier =>
      rw [policyStatement] at h
      cases hl : lookupPolicy ctxt identifier.id with
      | none =>
          rw [hl] at h
          cases h
      | some used =>
          rw [hl] at h
          cases h
          rfl
  | action tree filters =>
      rw [policyStatement] at h
      cases hb : actionBlock ctxt.constants tree filters with
      | error e =>
          rw [hb] at h
          cases h
      | ok block =>
          rw [hb] at h
          cases h
          obtain ⟨a, -, hb⟩ := except_bind.mp hb
          obtain ⟨filters', hfilters, hb⟩ := except_bind.mp hb
          cases hb
          exact (mapM_ok.mp hfilters).length_eq.symm

theorem filterCount_append {es es' : List PolicyEntry} :
    filterCount (es ++ es') = filterCount es + filterCount es' := by
  rw [filterCount, weight, List.map_append, List.sum_append]
  rfl

theorem filterCount_of_trees {trees : List StatementTree} {entries : List PolicyEntry}
    (h : trees.mapM (policyStatement ctxt) = .ok entries) :
    filterCount entries = (trees.map StatementTree.filterCount).sum := by
  have hall := mapM_ok.mp h
  clear h
  induction hall with
  | nil => rfl
  | @cons tree e trees entries hx _ ih =>
      rw [← List.singleton_append, filterCount_append, filterCount_of_tree hx, ih]
      rfl

/-- More entries of one policy. -/
theorem filters_modify {main : Nat} {policy : Policy} {entries : List PolicyEntry}
    (h : policies[main]? = some policy) :
    ((policies.modify main (concatEntries entries)).map fun p => filterCount p.entries).sum =
      (policies.map fun p => filterCount p.entries).sum + filterCount entries := by
  induction policies generalizing main with
  | nil => cases h
  | cons p policies ih =>
      cases main with
      | zero =>
          rw [List.modify_zero_cons, List.map_cons, List.map_cons, List.sum_cons, List.sum_cons,
            concatEntries, filterCount_append]
          omega
      | succ main =>
          rw [List.modify_succ_cons, List.map_cons, List.map_cons, List.sum_cons, List.sum_cons,
            ih h]
          omega

/-- **The context has the filters of the text.** -/
theorem program_filters (h : program text = .ok ctxt) : ctxt.filters = textFilters text := by
  have hboth : ctxt.Wf ∧ ctxt.filters = textFilters text := by
    refine program_induct (P := fun before ctxt => ctxt.Wf ∧ ctxt.filters = stmtsFilters before)
      ⟨wf_reset, rfl⟩ ?_ h
    rintro before ctxt stmt ctxt' ⟨hwf, hcount⟩ hd
    refine ⟨hd.wf hwf, ?_⟩
    rw [stmtsFilters, List.map_append, List.sum_append, ← stmtsFilters, ← hcount]
    show _ = _ + (stmt.filterCount + 0)
    have hregister : ∀ policy : Policy, (registerPolicy ctxt policy).filters =
        ctxt.filters + filterCount policy.entries := by
      intro policy
      rw [ParserCtxt.filters, registerPolicy, List.map_append, List.sum_append]
      rfl
    cases hd with
    | known | const | default => rfl
    | policy he hl => exact (hregister _).trans (congrArg _ (filterCount_of_trees he))
    | first he hm => exact (hregister _).trans (congrArg _ (filterCount_of_trees he))
    | @more trees entries main he hm =>
        obtain ⟨policy, hp, -⟩ := (hwf.main main).mp hm
        show ((ctxt.policies.modify main _).map _).sum = _
        rw [filters_modify hp, filterCount_of_trees he]
        rfl
  exact hboth.2

/-! ## The context fits -/

theorem withMain_book {i : Nat} : book (ctxt.toKafelCtxt h targetArchs).withMain.1.entries i =
    (ctxt.policies[i]?.map Policy.entries).getD [] := by
  rw [← book_map_entries, KafelCtxt.withMain]
  split
  case h_1 => rfl
  case h_2 => rw [Policies.registerEmpty, book_concat_nil]; rfl

theorem targets_toKafelCtxt :
    (ctxt.toKafelCtxt h targetArchs).targets platform = targetBits platform targetArchs := rfl

/-- The filters of a context, one policy after the other. -/
theorem withMain_all {P : SyscallFilter → Prop}
    (hP : ∀ policy ∈ ctxt.policies, ∀ block, Entry.item block ∈ policy.entries →
      ∀ filter ∈ block.filters, P filter) :
    (ctxt.toKafelCtxt h targetArchs).withMain.1.All P := by
  intro i block hblock
  rw [withMain_book] at hblock
  cases hp : ctxt.policies[i]? with
  | none =>
      rw [hp] at hblock
      cases hblock
  | some policy =>
      rw [hp] at hblock
      exact hP policy (List.mem_of_getElem? hp) block hblock

theorem withMain_bound :
    (ctxt.toKafelCtxt h targetArchs).withMain.1.ruleBound
      (ctxt.toKafelCtxt h targetArchs).withMain.2 ≤ 2 * ctxt.filters := by
  have hsum : ((ctxt.toKafelCtxt h targetArchs).withMain.1.entries.map filterCount).sum =
      ctxt.filters := by
    have hpolicies : ((ctxt.policies.map Policy.entries).map filterCount).sum = ctxt.filters := by
      rw [List.map_map]
      rfl
    rw [KafelCtxt.withMain]
    split
    case h_1 => exact hpolicies
    case h_2 =>
        rw [Policies.registerEmpty, List.map_append, List.sum_append]
        exact hpolicies
  have hmain : ∀ i, filterCount (book (ctxt.toKafelCtxt h targetArchs).withMain.1.entries i) ≤
      ctxt.filters := by
    intro i
    rw [withMain_book]
    cases hp : ctxt.policies[i]? with
    | none => exact Nat.zero_le _
    | some policy =>
        exact List.single_le_sum (fun _ _ => Nat.zero_le _) _
          (List.mem_map_of_mem (List.mem_of_getElem? hp))
  have := hmain (ctxt.toKafelCtxt h targetArchs).withMain.2
  rw [Policies.ruleBound, hsum]
  omega

/-- What has been validated can be compiled. -/
theorem fit_of_validated (hv : validateReferences platform targetArchs ctxt.policies = .ok ())
    (hcount : ctxt.filters < 2 ^ 25) : (ctxt.toKafelCtxt h targetArchs).Fit platform where
  lookup := by
    intro target htarget
    obtain ⟨list, hlist, -⟩ := validateReferences_ok_iff.mp hv target htarget
    exact ⟨list, hlist⟩
  valid := by
    intro list hlist
    obtain ⟨target, htarget, hl⟩ := List.mem_filterMap.mp hlist
    obtain ⟨list', hl', hvalid⟩ := validateReferences_ok_iff.mp hv target htarget
    cases hl.symm.trans hl'
    exact withMain_all hvalid
  bound := Nat.lt_of_le_of_lt withMain_bound (by omega)

/-! ## Clean calls -/

/-- Arguments with a name and less than 8 bytes have nothing in the high word. -/
def SyscallArgs.Extended (args : SyscallArgs) (vals : Fin 6 → UInt64) : Prop :=
  ∀ i, (args i).name.isSome → (args i).size ≠ 8 → Word.high.of (vals i) = 0

/-- That is so for the arguments of the call, as the table has them. -/
def SyscallList.ZeroExtended (list : SyscallList) (data : SeccompData) : Prop :=
  ∀ desc ∈ list.syscalls, desc.nr = data.nr → desc.args.Extended data.args

/-- Arguments that were declared all have 8 bytes. -/
def SyscallFilter.Declared (filter : SyscallFilter) : Prop :=
  ∀ args, filter.syscall.customArgs = some args → ∃ names, args = customArgs names

theorem resolveIn_some {id : String} {is : List (Fin 6)} {arg : Arg}
    (h : resolveIn args id is = some arg) :
    (args arg.idx).name.isSome ∧ arg.size = (args arg.idx).size := by
  induction is with
  | nil => cases h
  | cons i is ih =>
      rw [resolveIn] at h
      cases hname : (args i).name with
      | none =>
          rw [hname] at h
          cases h
      | some name =>
          rw [hname] at h
          dsimp only at h
          split at h
          case isTrue =>
              cases h
              exact ⟨Option.isSome_iff_exists.mpr ⟨name, hname⟩, rfl⟩
          case isFalse => exact ih h

variable {vals : Fin 6 → UInt64}

theorem SyscallArgs.Extended.operand {o : Operand Identifier} {o' : Operand Arg}
    (hx : args.Extended vals) (h : o.resolve args = some o') : o'.ZeroExtended vals := by
  induction o generalizing o' with
  | number n =>
      cases h
      trivial
  | var identifier =>
      obtain ⟨arg, harg, rfl⟩ := Option.map_eq_some_iff.mp h
      obtain ⟨hname, hsize⟩ := resolveIn_some harg
      intro hne
      exact hx arg.idx hname (hsize ▸ hne)
  | bit op left right ihl ihr =>
      obtain ⟨l, hl, h⟩ := Option.bind_eq_some_iff.mp h
      obtain ⟨r, hr, h⟩ := Option.bind_eq_some_iff.mp h
      cases h
      exact ⟨ihl hl, ihr hr⟩

/-- Whatever is said of such arguments is clean. -/
theorem SyscallArgs.Extended.expr {e : Expr Identifier} {e' : Expr Arg}
    (hx : args.Extended vals) (h : e.resolve args = some e') : e'.Clean vals := by
  induction e generalizing e' with
  | tt | ff =>
      cases h
      trivial
  | not child ih =>
      obtain ⟨c, hc, rfl⟩ := Option.map_eq_some_iff.mp h
      show c.Clean vals
      exact ih hc
  | logic op left right ihl ihr =>
      obtain ⟨l, hl, h⟩ := Option.bind_eq_some_iff.mp h
      obtain ⟨r, hr, h⟩ := Option.bind_eq_some_iff.mp h
      cases h
      exact ⟨ihl hl, ihr hr⟩
  | cmp op left right =>
      obtain ⟨l, hl, h⟩ := Option.bind_eq_some_iff.mp h
      obtain ⟨r, hr, h⟩ := Option.bind_eq_some_iff.mp h
      cases h
      intro _
      exact ⟨hx.operand hl, hx.operand hr⟩

theorem extended_customArgs {names : List String} :
    SyscallArgs.Extended (customArgs names) vals := by
  intro i hname hsize
  obtain ⟨name, hn⟩ := Option.isSome_iff_exists.mp hname
  obtain ⟨hlt, -⟩ := List.getElem?_eq_some_iff.mp (show names[i.val]? = some name from hn)
  exact absurd (if_pos hlt) hsize

/-- **A filter of the parser finds the call clean.** -/
theorem SyscallFilter.Declared.clean (hd : filter.Declared) (hz : list.ZeroExtended data) :
    filter.Clean list data := by
  intro hnr expr hcond
  obtain ⟨e, -, hcond⟩ := Option.bind_eq_some_iff.mp hcond
  obtain ⟨args, hargs, hres⟩ := Option.bind_eq_some_iff.mp hcond
  refine SyscallArgs.Extended.expr ?_ hres
  obtain ⟨⟨type, custom⟩, expr'⟩ := filter
  cases custom with
  | some declared =>
      cases hargs
      obtain ⟨names, rfl⟩ := hd _ rfl
      exact extended_customArgs
  | none =>
      cases type with
      | custom nr =>
          cases hargs
          intro i hname
          cases hname
      | id identifier =>
          obtain ⟨desc, hdesc, rfl⟩ := Option.map_eq_some_iff.mp
            (show (syscallLookup list identifier.id).map (·.args) = some args from hargs)
          obtain ⟨desc', hdesc', hdnr⟩ := Option.map_eq_some_iff.mp
            (show (syscallLookup list identifier.id).map (·.nr) = some data.nr from hnr)
          cases hdesc.symm.trans hdesc'
          exact hz desc (List.mem_of_find?_eq_some hdesc) hdnr

theorem declared_of_tree {tree : FilterTree} (h : syscallFilter constants tree = .ok filter) :
    filter.Declared := by
  obtain ⟨⟨id, trees⟩, expr⟩ := tree
  obtain ⟨spec, hspec, h⟩ := except_bind.mp h
  have hsyscall : filter.syscall = spec := by
    cases expr with
    | none =>
        cases h
        rfl
    | some expr =>
        obtain ⟨e, -, h⟩ := except_bind.mp h
        cases h
        rfl
  rw [SyscallFilter.Declared, hsyscall]
  intro args hargs
  cases trees with
  | none =>
      cases hspec
      cases hargs
  | some trees =>
      obtain ⟨names, -, hspec⟩ := except_bind.mp hspec
      cases hspec
      cases hargs
      exact ⟨names, rfl⟩

/-- The filters of a list of entries. -/
def DeclaredIn (entries : List PolicyEntry) : Prop :=
  ∀ block, Entry.item block ∈ entries → ∀ filter ∈ block.filters, filter.Declared

theorem declaredIn_of_trees {trees : List StatementTree} {entries : List PolicyEntry}
    (h : trees.mapM (policyStatement ctxt) = .ok entries) : DeclaredIn entries := by
  have hall := matches_blocks h
  clear h
  generalize blocks ctxt.constants trees = xs at hall
  induction hall with
  | nil =>
      intro block hblock
      cases hblock
  | @cons x e xs entries hx _ ih =>
      intro block hblock filter hfilter
      rcases List.mem_cons.mp hblock with rfl | hblock
      · cases hx with
        | item hb =>
            obtain ⟨a, -, hb⟩ := except_bind.mp hb
            obtain ⟨filters, hfilters, hb⟩ := except_bind.mp hb
            cases hb
            obtain ⟨k, hk, rfl⟩ := List.getElem_of_mem hfilter
            exact declared_of_tree
              ((List.forall₂_iff_get.mp (mapM_ok.mp hfilters)).2 k
                (by rw [(mapM_ok.mp hfilters).length_eq]; exact hk) hk)
      · exact ih block hblock filter hfilter

theorem program_declared (h : program text = .ok ctxt) :
    ∀ policy ∈ ctxt.policies, DeclaredIn policy.entries := by
  refine program_induct (P := fun _ ctxt => ∀ policy ∈ ctxt.policies, DeclaredIn policy.entries)
    ?_ ?_ h
  · intro policy hp
    cases hp
  · intro before ctxt stmt ctxt' hs hd
    have hregister : ∀ new : Policy, DeclaredIn new.entries →
        ∀ policy ∈ (registerPolicy ctxt new).policies, DeclaredIn policy.entries := by
      intro new hnew policy hp
      rcases List.mem_append.mp hp with hp | hp
      · exact hs policy hp
      · obtain rfl := List.mem_singleton.mp hp
        exact hnew
    cases hd with
    | known | const | default => exact hs
    | policy he hl => exact hregister _ (declaredIn_of_trees he)
    | first he hm => exact hregister _ (declaredIn_of_trees he)
    | more he hm =>
        intro policy hp
        obtain ⟨i, hi⟩ := List.getElem?_of_mem hp
        rw [List.getElem?_modify] at hi
        obtain ⟨old, hold, rfl⟩ := Option.map_eq_some_iff.mp hi
        have hdeclared := hs old (List.mem_of_getElem? hold)
        split
        case isTrue =>
            intro block hblock
            rcases List.mem_append.mp hblock with hblock | hblock
            · exact hdeclared block hblock
            · exact declaredIn_of_trees he block hblock
        case isFalse => exact hdeclared

/-! ## What the text says -/

/-- The default action of a text. -/
def textDefault (text : ProgramTree) : Action :=
  ((readAll text.stmts).default.map ActionTree.result).getD (.basic .kill)

/-- The tables a call is read by. -/
def callLists (platform : Platform) (targetArchs : UInt32) (arch : UInt32) : List SyscallList :=
  listsOf platform (targetBits platform targetArchs) arch

/-- **What a text says of a call**: what it decides by the tables of the call's architecture, the
default action where it does not decide, and to kill on any other architecture. -/
def Prescribes (platform : Platform) (targetArchs : UInt32) (text : ProgramTree)
    (data : SeccompData) (action : Action) : Prop :=
  let lists := callLists platform targetArchs data.arch
  lists = [] ∧ action = .basic .kill ∨
    lists ≠ [] ∧ ∃ r, InTurn (fun list r => TextDecides text.stmts list data r) lists r ∧
      action = r.getD (textDefault text)

/-- The call comes with its short arguments extended. -/
def CallExtended (platform : Platform) (targetArchs : UInt32) (data : SeccompData) : Prop :=
  ∀ list ∈ callLists platform targetArchs data.arch, list.ZeroExtended data

/-- On each target some such call is not killed. -/
def TextLetsThrough (platform : Platform) (targetArchs : UInt32) (text : ProgramTree) :
    Prop :=
  ∀ arch, callLists platform targetArchs arch ≠ [] → ∃ data action, data.arch = arch ∧
    CallExtended platform targetArchs data ∧ Prescribes platform targetArchs text data action ∧
    action ≠ .basic .kill

theorem decides_registerEmpty {policies : Policies} :
    PolicyDecides policies.registerEmpty list data policies.entries.length r ↔ r = none := by
  have hnil : book policies.registerEmpty.entries policies.entries.length = [] := by
    rw [Policies.registerEmpty, book_concat_nil, book, List.getD_eq_getElem?_getD,
      List.getElem?_eq_none (Nat.le_refl _)]
    rfl
  rw [PolicyDecides, hnil]
  constructor
  · intro hd
    cases hd
    rfl
  · rintro rfl
    exact .nil

/-- The policy that is compiled decides as the text does. -/
theorem textDecides_withMain_iff (hp : program text = .ok ctxt) :
    TextDecides text.stmts list data r ↔
      PolicyDecides (ctxt.toKafelCtxt h targetArchs).withMain.1 list data
        (ctxt.toKafelCtxt h targetArchs).withMain.2 r := by
  cases hm : ctxt.mainPolicy with
  | none =>
      have hmain : (ctxt.toKafelCtxt h targetArchs).withMain =
          ((ctxt.toPolicies h).registerEmpty, (ctxt.toPolicies h).entries.length) := by
        rw [KafelCtxt.withMain, ParserCtxt.toKafelCtxt]
        dsimp only
        rw [hm]
      rw [hmain, textDecides_none_iff hp hm, decides_registerEmpty]
  | some main =>
      have hmain : (ctxt.toKafelCtxt h targetArchs).withMain = (ctxt.toPolicies h, main) := by
        rw [KafelCtxt.withMain, ParserCtxt.toKafelCtxt]
        dsimp only
        rw [hm]
      rw [hmain, textDecides_iff hp hm]

theorem default_toKafelCtxt (hp : program text = .ok ctxt) :
    (ctxt.toKafelCtxt h targetArchs).default = textDefault text := by
  show ctxt.defaultAction.getD _ = _
  rw [(program_reads hp).default]
  rfl

theorem prescribes_iff (hp : program text = .ok ctxt) :
    Prescribes platform targetArchs text data action ↔
      ContextDecides platform (ctxt.toKafelCtxt h targetArchs) data action := by
  have hturn : ∀ lists r, InTurn (fun list r => TextDecides text.stmts list data r) lists r ↔
      ListsDecide (ctxt.toKafelCtxt h targetArchs).withMain.1
        (ctxt.toKafelCtxt h targetArchs).withMain.2 data lists r :=
    fun lists r => inTurn_congr fun list r => textDecides_withMain_iff hp
  unfold Prescribes ContextDecides
  simp only [default_toKafelCtxt hp, hturn, targets_toKafelCtxt, callLists]

theorem clean_of_extended (hp : program text = .ok ctxt)
    (hz : CallExtended platform targetArchs data) :
    (ctxt.toKafelCtxt h targetArchs).Clean platform data := by
  intro list hlist
  exact withMain_all fun policy hpolicy block hblock filter hfilter =>
    (program_declared hp policy hpolicy block hblock filter hfilter).clean (hz list hlist)

theorem letsThrough_of_text (hp : program text = .ok ctxt)
    (hl : TextLetsThrough platform targetArchs text) :
    (ctxt.toKafelCtxt h targetArchs).LetsThrough platform := by
  intro arch harch
  obtain ⟨data, action, hdata, hz, hmeans, hne⟩ := hl arch harch
  exact ⟨data, action, hdata, clean_of_extended hp hz, (prescribes_iff hp).mp hmeans, hne⟩

/-! ## The whole -/

theorem kafelCompile_eq (hp : program text = .ok ctxt) :
    kafelCompile platform targetArchs text =
      compileCtxt platform targetArchs ctxt (program_wf hp) := by
  unfold kafelCompile
  split
  case h_1 e he => cases he.symm.trans hp
  case h_2 ctxt' hp' =>
      cases hp.symm.trans hp'
      rfl

/-- A filter comes out of all three stages. -/
theorem kafelCompile_ok (hc : kafelCompile platform targetArchs text = some (.ok prog)) :
    ∃ (ctxt : ParserCtxt) (hp : program text = .ok ctxt) (p : List Instr),
      validateReferences platform targetArchs ctxt.policies = .ok () ∧
      compilePolicy platform (ctxt.toKafelCtxt (program_wf hp) targetArchs) = some (.ok p) ∧
      prog = p.map encode := by
  unfold kafelCompile at hc
  split at hc
  case h_1 => cases hc
  case h_2 ctxt hp =>
      rw [compileCtxt] at hc
      cases hv : validateReferences platform targetArchs ctxt.policies with
      | error e =>
          rw [hv] at hc
          cases hc
      | ok u =>
          rw [hv] at hc
          obtain ⟨res, hres, hc⟩ := Option.map_eq_some_iff.mp hc
          cases res with
          | error e => cases hc
          | ok p =>
              cases hc
              exact ⟨ctxt, hp, p, hv, hres, rfl⟩

/-- A context that fits is compiled as the text says. -/
theorem compiled_run {p : List Instr} (hp : program text = .ok ctxt)
    (hfit : (ctxt.toKafelCtxt h targetArchs).Fit platform)
    (hl : (ctxt.toKafelCtxt h targetArchs).LetsThrough platform)
    (hc : compilePolicy platform (ctxt.toKafelCtxt h targetArchs) = some (.ok p))
    (hlen : (p.map encode).length ≤ 256) (hz : CallExtended platform targetArchs data)
    (hmeans : Prescribes platform targetArchs text data action) :
    runFilter data (p.map encode) = some (actionToBpf action) := by
  rw [List.length_map] at hlen
  have hfits := fits_of_length (compilePolicy_accepted hfit hc) hlen
  rw [runFilter, decodeAll_eq_iff.mpr hfits, Option.bind_some]
  exact compilePolicy_run hfit hl hc (clean_of_extended hp hz) ((prescribes_iff hp).mp hmeans)

theorem isIdentifier_fd : isIdentifier "fd" = true := by decide

/-- `ALLOW { read { fd == 3 } } DEFAULT ERRNO(1)`. -/
def readText : ProgramTree where
  stmts := [.statements [.action (.basic .allow)
      [⟨⟨.identifier ⟨"read", ⟨1, 9⟩, isIdentifier_read⟩, none⟩,
        some (.cmp ⟨1, 16⟩ .eq (.identifier ⟨"fd", ⟨1, 16⟩, isIdentifier_fd⟩) (.number 3))⟩]],
    .default ⟨2, 1⟩ (.errno ⟨2, 15⟩ 1)]
  nonempty := List.cons_ne_nil _ _

def readFilter : SockFprog :=
  [⟨0x20, 0, 0, 4⟩, ⟨0x15, 1, 0, 0xc000003e⟩, ⟨0x06, 0, 0, 0⟩, ⟨0x20, 0, 0, 0⟩, ⟨0x35, 2, 0, 1⟩,
    ⟨0x20, 0, 0, 16⟩, ⟨0x15, 1, 0, 3⟩, ⟨0x06, 0, 0, 0x00050001⟩, ⟨0x06, 0, 0, 0x7fff0000⟩]

theorem readFilter_compiled : kafelCompile readPlatform 0 readText = some (.ok readFilter) := by
  decide +kernel

/-- `read(3, buf, count)`. -/
def readCall : SeccompData :=
  ⟨0, 0xc000003e, 0, fun i => match i.val with | 0 => 3 | _ => 0⟩

theorem callLists_readCall : callLists readPlatform 0 readCall.arch = [readList] := by rfl

theorem extended_readCall : CallExtended readPlatform 0 readCall := by
  intro list hlist desc hdesc _
  rw [callLists_readCall] at hlist
  obtain rfl := List.mem_singleton.mp hlist
  obtain rfl := List.mem_singleton.mp hdesc
  intro i _ _
  show Word.high.of (match i.val with | 0 => 3 | _ => 0) = 0
  split
  case h_1 => rfl
  case h_2 => rfl

theorem prescribes_readCall : Prescribes readPlatform 0 readText readCall (.basic .allow) := by
  refine .inr ⟨?_, some (.basic .allow), ?_, rfl⟩
  · rw [callLists_readCall]
    exact List.cons_ne_nil _ _
  · rw [callLists_readCall]
    exact .found (.itemHit (by rfl))

/-- **`kafel_compile` returns**, an error or a filter; the filter has at most 65535 instructions and
returns for every call. -/
theorem kafelCompile_returns (hcount : textFilters text < 2 ^ 25) :
    (∃ e, kafelCompile platform targetArchs text = some (.error e)) ∨
      ∃ prog, kafelCompile platform targetArchs text = some (.ok prog) ∧
        prog ≠ [] ∧ prog.length ≤ 65535 ∧ ∀ data, (runFilter data prog).isSome = true := by
  cases hp : program text with
  | error e =>
      refine .inl ⟨e, ?_⟩
      unfold kafelCompile
      split
      case h_1 e' he => cases hp.symm.trans he; rfl
      case h_2 ctxt' hp' => cases hp.symm.trans hp'
  | ok ctxt =>
      rw [kafelCompile_eq hp, compileCtxt]
      cases hv : validateReferences platform targetArchs ctxt.policies with
      | error e => exact .inl ⟨e, rfl⟩
      | ok u =>
          have hfit : (ctxt.toKafelCtxt (program_wf hp) targetArchs).Fit platform :=
            fit_of_validated hv (program_filters hp ▸ hcount)
          obtain ⟨-, -, -, c, -, -, -, -, hc⟩ := compilePolicy_stages hfit
          rw [hc]
          cases hcheck : checkProgram c with
          | error e => exact .inl ⟨e.message, rfl⟩
          | ok p =>
              rw [hcheck] at hc
              have hacc := compilePolicy_accepted hfit hc
              refine .inr ⟨p.map encode, rfl, ?_, ?_, fun data => runFilter_isSome hacc⟩
              · intro hnil
                exact hacc.ne_nil (List.map_eq_nil_iff.mp hnil)
              · rw [List.length_map]
                exact hacc.length

theorem kafelCompile_returns_read :
    (∃ e, kafelCompile readPlatform 0 readText = some (.error e)) ∨
      ∃ prog, kafelCompile readPlatform 0 readText = some (.ok prog) ∧
        prog ≠ [] ∧ prog.length ≤ 65535 ∧ ∀ data, (runFilter data prog).isSome = true :=
  kafelCompile_returns (by decide)

/-- **The filter does with a call what the text says**, if on each target some call is let
through. -/
theorem kafelCompile_run (hcount : textFilters text < 2 ^ 25)
    (hc : kafelCompile platform targetArchs text = some (.ok prog)) (hlen : prog.length ≤ 256)
    (hl : TextLetsThrough platform targetArchs text)
    (hz : CallExtended platform targetArchs data)
    (hmeans : Prescribes platform targetArchs text data action) :
    runFilter data prog = some (actionToBpf action) := by
  obtain ⟨ctxt, hp, p, hv, hcompile, rfl⟩ := kafelCompile_ok hc
  have hfit := fit_of_validated (h := program_wf hp) hv (program_filters hp ▸ hcount)
  exact compiled_run hp hfit (letsThrough_of_text hp hl) hcompile hlen hz hmeans

theorem kafelCompile_run_read :
    runFilter readCall readFilter = some (actionToBpf (.basic .allow)) := by
  refine @kafelCompile_run readPlatform 0 readText readCall (.basic .allow) readFilter (by decide)
    readFilter_compiled (by decide) ?_ extended_readCall prescribes_readCall
  intro arch harch
  by_cases hread : arch = readCall.arch
  · exact ⟨readCall, .basic .allow, hread.symm, extended_readCall, prescribes_readCall, by decide⟩
  · refine absurd ?_ harch
    refine List.filter_eq_nil_iff.mpr ?_
    intro list hlist
    have hall :
        (targetBits readPlatform 0).filterMap (syscallsLookup readPlatform) = [readList] := by
      rfl
    rw [hall] at hlist
    obtain rfl := List.mem_singleton.mp hlist
    exact fun h => hread (of_decide_eq_true h).symm

/-- **With a default action other than `KILL` nothing more is asked of the text.** -/
theorem kafelCompile_run_default (hcount : textFilters text < 2 ^ 25)
    (hc : kafelCompile platform targetArchs text = some (.ok prog)) (hlen : prog.length ≤ 256)
    (hne : textDefault text ≠ .basic .kill) (hz : CallExtended platform targetArchs data)
    (hmeans : Prescribes platform targetArchs text data action) :
    runFilter data prog = some (actionToBpf action) := by
  obtain ⟨ctxt, hp, p, hv, hcompile, rfl⟩ := kafelCompile_ok hc
  have hfit := fit_of_validated (h := program_wf hp) hv (program_filters hp ▸ hcount)
  refine compiled_run hp hfit (letsThrough_of_default hfit ?_) hcompile hlen hz hmeans
  rw [default_toKafelCtxt hp]
  exact hne

theorem kafelCompile_run_default_read :
    runFilter readCall readFilter = some (actionToBpf (.basic .allow)) :=
  kafelCompile_run_default (by decide) readFilter_compiled (by decide) (by decide) extended_readCall
    prescribes_readCall

/-! ## Why there is no filter -/

/-- A target has no table, or a name is not in it. -/
def NameMissing (platform : Platform) (targetArchs : UInt32) (policies : List Policy) : Prop :=
  ∃ target ∈ targetBits platform targetArchs, ∀ list, syscallsLookup platform target = some list →
    ∃ policy ∈ policies, ∃ block, Entry.item block ∈ policy.entries ∧
      ∃ filter ∈ block.filters, ¬ filter.Valid list

theorem nameMissing_iff :
    NameMissing platform targetArchs policies ↔
      validateReferences platform targetArchs policies ≠ .ok () := by
  rw [ne_eq, validateReferences_ok_iff, NameMissing]
  push Not
  rfl

/-- What `compile_policy` says when it gives up: the code is there, and it is too much. -/
theorem compilePolicy_error {kafelCtxt : KafelCtxt} {err : CompileError}
    (hc : compilePolicy platform kafelCtxt = some (.error err)) :
    ∃ c, generateFilter platform kafelCtxt = some c ∧
      (16 ≤ c.maxStackPtr ∧ err = .stackSize ∨
        65535 < c.buffer.length ∧ err = .filterLength c.buffer.length) := by
  obtain ⟨c, hgen, hcheck⟩ := Option.map_eq_some_iff.mp hc
  refine ⟨c, hgen, ?_⟩
  unfold checkProgram at hcheck
  split at hcheck
  case isTrue hstack =>
      cases hcheck
      exact .inl ⟨hstack, rfl⟩
  case isFalse =>
      split at hcheck
      case isTrue hlen =>
          cases hcheck
          exact .inr ⟨hlen, rfl⟩
      case isFalse => cases hcheck

/-- **Why `kafel_compile` returns an error** on the statements of a text: one of them is refused, a
name is missing in the table of a target, or the code made of them is too much for the machine. -/
theorem kafelCompile_error_cause {e : String}
    (hc : kafelCompile platform targetArchs text = some (.error e)) :
    program text = .error e ∨
      ∃ (ctxt : ParserCtxt) (hp : program text = .ok ctxt),
        NameMissing platform targetArchs ctxt.policies ∨
        ∃ c, generateFilter platform (ctxt.toKafelCtxt (program_wf hp) targetArchs) = some c ∧
          (16 ≤ c.maxStackPtr ∧ e = CompileError.stackSize.message ∨
            65535 < c.buffer.length ∧ e = (CompileError.filterLength c.buffer.length).message) := by
  have hparse : (∃ e', program text = .error e') ∨ ∃ ctxt, program text = .ok ctxt := by
    cases program text with
    | error e' => exact .inl ⟨e', rfl⟩
    | ok ctxt => exact .inr ⟨ctxt, rfl⟩
  rcases hparse with ⟨e', hp⟩ | ⟨ctxt, hp⟩
  · unfold kafelCompile at hc
    split at hc
    case h_1 e'' he =>
        cases hc
        exact .inl he
    case h_2 ctxt' hp' => cases hp.symm.trans hp'
  · refine .inr ⟨ctxt, hp, ?_⟩
    rw [kafelCompile_eq hp, compileCtxt] at hc
    cases hv : validateReferences platform targetArchs ctxt.policies with
    | error e' =>
        refine .inl (nameMissing_iff.mpr ?_)
        intro hok
        cases hv.symm.trans hok
    | ok u =>
        rw [hv] at hc
        obtain ⟨res, hres, hout⟩ := Option.map_eq_some_iff.mp hc
        cases res with
        | ok p => cases hout
        | error err =>
            cases hout
            obtain ⟨c, hgen, hbig⟩ := compilePolicy_error hres
            refine .inr ⟨c, hgen, ?_⟩
            rcases hbig with ⟨hstack, rfl⟩ | ⟨hlen, rfl⟩
            · exact .inl ⟨hstack, rfl⟩
            · exact .inr ⟨hlen, rfl⟩

theorem isIdentifier_write : isIdentifier "write" = true := by decide

def writeName : Identifier := ⟨"write", ⟨1, 9⟩, isIdentifier_write⟩

/-- `ALLOW { write }`, for a platform that has `read` alone. -/
def writeText : ProgramTree where
  stmts := [.statements [.action (.basic .allow) [⟨⟨.identifier writeName, none⟩, none⟩]]]
  nonempty := List.cons_ne_nil _ _

theorem writeText_refused :
    kafelCompile readPlatform 0 writeText = some (.error (undefinedIdentifier writeName)) := by
  decide +kernel

theorem kafelCompile_error_cause_write :
    program writeText = .error (undefinedIdentifier writeName) ∨
      ∃ (ctxt : ParserCtxt) (hp : program writeText = .ok ctxt),
        NameMissing readPlatform 0 ctxt.policies ∨
        ∃ c, generateFilter readPlatform (ctxt.toKafelCtxt (program_wf hp) 0) = some c ∧
          (16 ≤ c.maxStackPtr ∧ undefinedIdentifier writeName = CompileError.stackSize.message ∨
            65535 < c.buffer.length ∧ undefinedIdentifier writeName =
              (CompileError.filterLength c.buffer.length).message) :=
  kafelCompile_error_cause writeText_refused

/-- **Every name of a text that gives a filter is in the table of every target**, also in policies
that no one uses. -/
theorem kafelCompile_names (hc : kafelCompile platform targetArchs text = some (.ok prog)) :
    ∃ ctxt, program text = .ok ctxt ∧ ¬ NameMissing platform targetArchs ctxt.policies := by
  obtain ⟨ctxt, hp, p, hv, -, -⟩ := kafelCompile_ok hc
  exact ⟨ctxt, hp, fun hm => nameMissing_iff.mp hm hv⟩

theorem kafelCompile_names_read :
    ∃ ctxt, program readText = .ok ctxt ∧ ¬ NameMissing readPlatform 0 ctxt.policies :=
  kafelCompile_names readFilter_compiled

end Kafel
