/-
# `YaojJudger.Kafel.Reading` — the parser reads a text as it is meant

`Reads scope ctxt` says that the context holds what has been read: the constants,
every policy under its name with statements that were built from those of the text,
and the statements outside of policies in one place.  The numbers that stand for
names never change, for policies are registered at the end (`Names`).

| | |
| :-- | :-- |
| `program_isOk_iff` | a text is accepted if and only if each statement fits what was read before |
| `textDecides_iff` | the context decides as the text does |
-/
import YaojJudger.Kafel.Text

namespace Kafel

open FirstMatch

/-- `j` is the number of the policy of this name. -/
def Names (ctxt : ParserCtxt) (name : String) (j : Nat) : Prop :=
  name ≠ "@main" ∧ lookupPolicy ctxt name = some j

/-- The block in the context was built from that of the text. -/
def Elaborates (block : Block) (built : ActionBlock) : Prop :=
  actionBlock block.constants block.action block.filters = .ok built

/-- The statements in the context are those of the text. -/
abbrev Matches (ctxt : ParserCtxt) : List (Entry String Block) → List PolicyEntry → Prop :=
  List.Forall₂ (Entry.Like (Names ctxt) Elaborates)

/-- **The context after what has been read.** -/
structure Reads (scope : Scope) (ctxt : ParserCtxt) : Prop where
  wf : ctxt.Wf
  constants : ctxt.constants = scope.constants
  named : ∀ x ∈ scope.named, ∃ j policy, Names ctxt x.1 j ∧ ctxt.policies[j]? = some policy ∧
    Matches ctxt x.2 policy.entries
  complete : ∀ policy ∈ ctxt.policies, policy.name ≠ "@main" →
    policy.name ∈ scope.named.map Prod.fst
  main : ctxt.mainPolicy = none ∧ scope.main = [] ∨
    ∃ main policy, ctxt.mainPolicy = some main ∧ ctxt.policies[main]? = some policy ∧
      Matches ctxt scope.main policy.entries
  default : ctxt.defaultAction = scope.default.map ActionTree.result

variable {scope : Scope} {ctxt ctxt' : ParserCtxt} {stmt : ProgramStmt} {text : ProgramTree}
  {name : String} {i j : Nat} {entries : List PolicyEntry} {es : List (Entry String Block)}
  {list : SyscallList} {data : SeccompData} {r : Option Action} {policy : Policy}

theorem reads_empty : Reads .empty .reset where
  wf := wf_reset
  constants := rfl
  named := by
    intro x hx
    cases hx
  complete := by
    intro policy hp
    cases hp
  main := .inl ⟨rfl, rfl⟩
  default := rfl

/-! ## Statements -/

/-- The names that can be used are those of the policies that have ended. -/
theorem Reads.lookup_iff (h : Reads scope ctxt) (identifier : Identifier) :
    (∃ j, lookupPolicy ctxt identifier.id = some j) ↔
      identifier.id ∈ scope.named.map Prod.fst := by
  constructor
  · rintro ⟨j, hj⟩
    obtain ⟨policy, hp, hname⟩ := lookupPolicy_some hj
    rw [← hname]
    refine h.complete policy (List.mem_of_getElem? hp) ?_
    rw [hname]
    exact identifier.ne_main
  · intro hmem
    obtain ⟨x, hx, hname⟩ := List.mem_map.mp hmem
    obtain ⟨j, -, ⟨-, hj⟩, -⟩ := h.named x hx
    exact ⟨j, hname ▸ hj⟩

theorem policyStatement_ok {tree : StatementTree} {e : PolicyEntry}
    (h : policyStatement ctxt tree = .ok e) :
    Entry.Like (Names ctxt) Elaborates (tree.entry ctxt.constants) e := by
  cases tree with
  | use identifier =>
      rw [policyStatement] at h
      cases hl : lookupPolicy ctxt identifier.id with
      | none =>
          rw [hl] at h
          cases h
      | some used =>
          rw [hl] at h
          cases h
          exact .use ⟨identifier.ne_main, hl⟩
  | action tree filters =>
      rw [policyStatement] at h
      cases hb : actionBlock ctxt.constants tree filters with
      | error e =>
          rw [hb] at h
          cases h
      | ok block =>
          rw [hb] at h
          cases h
          exact .item hb

theorem matches_blocks {statements : List StatementTree}
    (h : statements.mapM (policyStatement ctxt) = .ok entries) :
    Matches ctxt (blocks ctxt.constants statements) entries := by
  have hall := mapM_ok.mp h
  clear h
  induction hall with
  | nil => exact .nil
  | cons hx _ ih => exact .cons (policyStatement_ok hx) ih

theorem Reads.statement_isOk_iff (h : Reads scope ctxt) {tree : StatementTree} :
    (∃ e, policyStatement ctxt tree = .ok e) ↔ tree.Fine scope := by
  cases tree with
  | use identifier =>
      rw [StatementTree.Fine, ← h.lookup_iff identifier, policyStatement]
      cases lookupPolicy ctxt identifier.id with
      | none =>
          constructor
          · rintro ⟨e, he⟩
            cases he
          · rintro ⟨j, hj⟩
            cases hj
      | some used => exact ⟨fun _ => ⟨used, rfl⟩, fun _ => ⟨_, rfl⟩⟩
  | action tree filters =>
      rw [StatementTree.Fine, ← @actionBlock_isOk_iff ctxt.constants, policyStatement]
      cases actionBlock ctxt.constants tree filters with
      | error e =>
          constructor
          · rintro ⟨e, he⟩
            cases he
          · rintro ⟨block, hb⟩
            cases hb
      | ok block => exact ⟨fun _ => ⟨block, rfl⟩, fun _ => ⟨_, rfl⟩⟩

theorem Reads.statements_isOk_iff (h : Reads scope ctxt) {statements : List StatementTree} :
    (∃ entries, statements.mapM (policyStatement ctxt) = .ok entries) ↔
      ∀ statement ∈ statements, statement.Fine scope := by
  rw [mapM_isOk_iff]
  exact forall₂_congr fun _ _ => h.statement_isOk_iff

/-- **A statement is accepted if it fits what was read before.** -/
theorem Reads.stmt_isOk_iff (h : Reads scope ctxt) :
    (∃ ctxt', programStmt ctxt stmt = .ok ctxt') ↔ stmt.Fine scope := by
  simp only [programStmt_iff]
  cases stmt with
  | constDef loc name value =>
      rw [ProgramStmt.Fine, ← h.constants]
      constructor
      · rintro ⟨ctxt', hd⟩ old hold
        cases hd with
        | known hl => exact Option.some.inj (hold.symm.trans hl)
        | const hl => cases hold.symm.trans hl
      · intro hfine
        cases hl : lookupConst ctxt.constants name.id with
        | none => exact ⟨_, .const hl⟩
        | some old =>
            obtain rfl := hfine old hl
            exact ⟨_, .known hl⟩
  | policy loc name trees =>
      rw [ProgramStmt.Fine, ← h.statements_isOk_iff, ← h.lookup_iff name]
      constructor
      · rintro ⟨ctxt', hd⟩
        cases hd with
        | policy he hl =>
            refine ⟨?_, _, he⟩
            rintro ⟨j, hj⟩
            cases hl.symm.trans hj
      · rintro ⟨hnew, entries, he⟩
        exact ⟨_, .policy he (Option.eq_none_iff_forall_ne_some.mpr fun j hj => hnew ⟨j, hj⟩)⟩
  | statements trees =>
      rw [ProgramStmt.Fine, ← h.statements_isOk_iff]
      constructor
      · rintro ⟨ctxt', hd⟩
        cases hd with
        | first he _ => exact ⟨_, he⟩
        | more he _ => exact ⟨_, he⟩
      · rintro ⟨entries, he⟩
        cases hm : ctxt.mainPolicy with
        | none => exact ⟨_, .first he hm⟩
        | some main => exact ⟨_, .more he hm⟩
  | default loc tree =>
      rw [ProgramStmt.Fine]
      have hnone : ctxt.defaultAction = none ↔ scope.default = none := by
        rw [h.default, Option.map_eq_none_iff]
      constructor
      · rintro ⟨ctxt', hd⟩
        cases hd with
        | default ha hd => exact ⟨(action_ok.mp ha).1, hnone.mp hd⟩
      · rintro ⟨hfine, hd⟩
        exact ⟨_, .default (action_ok.mpr ⟨hfine, rfl⟩) (hnone.mpr hd)⟩

/-! ## What stays as it was -/

theorem lookupPolicy_register : lookupPolicy (registerPolicy ctxt policy) name =
    (lookupPolicy ctxt name).or
      (if policy.name = name then some ctxt.policies.length else none) := by
  rw [lookupPolicy, registerPolicy, List.findIdx?_append, lookupPolicy]
  congr 1
  rw [List.findIdx?_singleton]
  by_cases hname : policy.name = name
  · rw [if_pos (decide_eq_true hname), if_pos hname, Option.map_some, Nat.zero_add]
  · rw [if_neg (by rw [decide_eq_false hname]; exact Bool.false_ne_true), if_neg hname]
    rfl

/-- The number of a name depends on the names only. -/
theorem lookupPolicy_congr
    (h : ctxt'.policies.map Policy.name = ctxt.policies.map Policy.name) :
    lookupPolicy ctxt' name = lookupPolicy ctxt name := by
  have heq : ∀ c : ParserCtxt, lookupPolicy c name =
      (c.policies.map Policy.name).findIdx? fun x => x = name := by
    intro c
    rw [List.findIdx?_map]
    rfl
  rw [heq, heq, h]

theorem Matches.mono (h : Matches ctxt es entries)
    (hkeep : ∀ name j, Names ctxt name j → Names ctxt' name j) : Matches ctxt' es entries := by
  refine List.Forall₂.imp ?_ h
  intro x y hxy
  cases hxy with
  | use hn => exact .use (hkeep _ _ hn)
  | item hb => exact .item hb

theorem names_register (h : Names ctxt name j) : Names (registerPolicy ctxt policy) name j := by
  refine ⟨h.1, ?_⟩
  rw [lookupPolicy_register, h.2]
  rfl

theorem names_congr (h : ctxt'.policies.map Policy.name = ctxt.policies.map Policy.name)
    (hn : Names ctxt name j) : Names ctxt' name j :=
  ⟨hn.1, (lookupPolicy_congr h).trans hn.2⟩

theorem getElem?_register (h : ctxt.policies[j]? = some policy) {new : Policy} :
    (registerPolicy ctxt new).policies[j]? = some policy := by
  obtain ⟨hlt, -⟩ := List.getElem?_eq_some_iff.mp h
  rw [registerPolicy]
  exact (List.getElem?_append_left hlt).trans h

/-- A policy under a name of the text is the one the text has there. -/
theorem Reads.at_name (h : Reads scope ctxt) (hn : Names ctxt name j) :
    ∃ x ∈ scope.named, x.1 = name ∧ ∃ policy, ctxt.policies[j]? = some policy ∧
      Matches ctxt x.2 policy.entries := by
  obtain ⟨policy, hp, hname⟩ := lookupPolicy_some hn.2
  have hmem := h.complete policy (List.mem_of_getElem? hp) (hname ▸ hn.1)
  rw [hname] at hmem
  obtain ⟨x, hx, hxname⟩ := List.mem_map.mp hmem
  obtain ⟨j', policy', ⟨-, hj'⟩, hp', hmatch⟩ := h.named x hx
  rw [hxname, hn.2] at hj'
  cases hj'
  exact ⟨x, hx, hxname, policy', hp', hmatch⟩

/-! ## One statement -/

theorem Reads.const (h : Reads scope ctxt) {loc : SourceLocation} {name : Identifier}
    {value : UInt64} (hl : lookupConst ctxt.constants name.id = none) :
    Reads (scope.add (.constDef loc name value)) (registerConst ctxt name.id value) := by
  rw [h.constants] at hl
  rw [Scope.add, hl]
  exact {
    wf := h.wf.congr rfl rfl
    constants := congrArg (· ++ [(name.id, value)]) h.constants
    named := h.named
    complete := h.complete
    main := h.main
    default := h.default }

theorem Reads.registered (h : Reads scope ctxt) {loc : SourceLocation} {name : Identifier}
    {statements : List StatementTree}
    (he : statements.mapM (policyStatement ctxt) = .ok entries)
    (hl : lookupPolicy ctxt name.id = none) :
    Reads (scope.add (.policy loc name statements)) (registerPolicy ctxt ⟨name.id, entries⟩) where
  wf := (show StmtDoes ctxt (.policy loc name statements) _ from .policy he hl).wf h.wf
  constants := h.constants
  named := by
    intro x hx
    rcases List.mem_append.mp hx with hx | hx
    · obtain ⟨j, policy, hn, hp, hmatch⟩ := h.named x hx
      exact ⟨j, policy, names_register hn, getElem?_register hp,
        hmatch.mono fun _ _ => names_register⟩
    · obtain rfl := List.mem_singleton.mp hx
      refine ⟨ctxt.policies.length, ⟨name.id, entries⟩, ⟨name.ne_main, ?_⟩, ?_, ?_⟩
      · rw [lookupPolicy_register, hl, Option.none_or]
        exact if_pos rfl
      · exact List.getElem?_concat_length
      · rw [← h.constants]
        exact (matches_blocks he).mono fun _ _ => names_register
  complete := by
    intro policy hp hne
    show policy.name ∈ (scope.named ++ [_]).map Prod.fst
    rw [List.map_append]
    rcases List.mem_append.mp hp with hp | hp
    · exact List.mem_append_left _ (h.complete policy hp hne)
    · obtain rfl := List.mem_singleton.mp hp
      exact List.mem_append_right _ List.mem_cons_self
  main := by
    rcases h.main with hnone | ⟨main, policy, hm, hp, hmatch⟩
    · exact .inl hnone
    · exact .inr ⟨main, policy, hm, getElem?_register hp, hmatch.mono fun _ _ => names_register⟩
  default := h.default

theorem Reads.first (h : Reads scope ctxt) {statements : List StatementTree}
    (he : statements.mapM (policyStatement ctxt) = .ok entries) (hm : ctxt.mainPolicy = none) :
    Reads (scope.add (.statements statements))
      { registerPolicy ctxt ⟨"@main", entries⟩ with mainPolicy := some ctxt.policies.length } where
  wf := (StmtDoes.first he hm).wf h.wf
  constants := h.constants
  named := by
    intro x hx
    obtain ⟨j, policy, hn, hp, hmatch⟩ := h.named x hx
    exact ⟨j, policy, names_register hn, getElem?_register hp,
      hmatch.mono fun _ _ => names_register⟩
  complete := by
    intro policy hp hne
    rcases List.mem_append.mp hp with hp | hp
    · exact h.complete policy hp hne
    · obtain rfl := List.mem_singleton.mp hp
      exact absurd rfl hne
  main := by
    refine .inr ⟨ctxt.policies.length, ⟨"@main", entries⟩, rfl, List.getElem?_concat_length, ?_⟩
    rcases h.main with ⟨-, hnil⟩ | ⟨main, policy, hmain, -⟩
    · show Matches _ (scope.main ++ blocks scope.constants statements) entries
      rw [hnil, List.nil_append, ← h.constants]
      exact (matches_blocks he).mono fun _ _ => names_register
    · cases hm.symm.trans hmain
  default := h.default

theorem Reads.more (h : Reads scope ctxt) {statements : List StatementTree} {main : Nat}
    (he : statements.mapM (policyStatement ctxt) = .ok entries)
    (hm : ctxt.mainPolicy = some main) :
    Reads (scope.add (.statements statements))
      { ctxt with policies := ctxt.policies.modify main (concatEntries entries) } := by
  have hkeep : ∀ name j, Names ctxt name j →
      Names { ctxt with policies := ctxt.policies.modify main (concatEntries entries) } name j := by
    intro name j hn
    exact names_congr names_modify hn
  obtain ⟨old, hold, hname⟩ := (h.wf.main main).mp hm
  refine ⟨(StmtDoes.more he hm).wf h.wf, h.constants, ?_, ?_, .inr ?_, h.default⟩
  · intro x hx
    obtain ⟨j, policy, hn, hp, hmatch⟩ := h.named x hx
    refine ⟨j, policy, hkeep _ _ hn, ?_, hmatch.mono hkeep⟩
    have hne : main ≠ j := by
      rintro rfl
      obtain ⟨policy', hp', hname'⟩ := lookupPolicy_some hn.2
      rw [hold] at hp'
      cases hp'
      exact hn.1 (hname'.symm.trans hname)
    dsimp only
    rw [List.getElem?_modify, hp]
    exact congrArg some (if_neg hne)
  · intro policy hp hne
    have hmem : policy.name ∈ ctxt.policies.map Policy.name := by
      rw [← names_modify]
      exact List.mem_map_of_mem hp
    obtain ⟨policy', hp', hname'⟩ := List.mem_map.mp hmem
    rw [← hname']
    exact h.complete policy' hp' (hname' ▸ hne)
  · refine ⟨main, concatEntries entries old, hm, ?_, ?_⟩
    · dsimp only
      rw [List.getElem?_modify, hold]
      exact congrArg some (if_pos rfl)
    · rcases h.main with ⟨hnone, -⟩ | ⟨main', policy, hmain, hp, hmatch⟩
      · cases hm.symm.trans hnone
      · cases hm.symm.trans hmain
        cases hold.symm.trans hp
        refine List.rel_append (hmatch.mono hkeep) ?_
        rw [← h.constants]
        exact (matches_blocks he).mono hkeep

/-- **After an accepted statement the context holds what has been read.** -/
theorem Reads.add (h : Reads scope ctxt) (hd : StmtDoes ctxt stmt ctxt') :
    Reads (scope.add stmt) ctxt' := by
  cases hd with
  | @known loc name value hl =>
      rw [h.constants] at hl
      rw [Scope.add, hl]
      exact h
  | const hl => exact h.const hl
  | policy he hl => exact h.registered he hl
  | first he hm => exact h.first he hm
  | more he hm => exact h.more he hm
  | @default loc tree a ha hd =>
      obtain ⟨-, rfl⟩ := action_ok.mp ha
      exact {
        wf := h.wf.congr rfl rfl
        constants := h.constants
        named := h.named
        complete := h.complete
        main := h.main
        default := rfl }

/-! ## The text -/

/-- **What an accepted text leaves in the context.** -/
theorem program_reads (h : program text = .ok ctxt) : Reads (readAll text.stmts) ctxt := by
  refine program_induct (P := fun before ctxt => Reads (readAll before) ctxt) reads_empty ?_ h
  intro before ctxt stmt ctxt' hs hd
  rw [readAll, List.foldl_append]
  exact hs.add hd

/-- **A text is accepted if and only if each statement fits what was read before it.** -/
theorem program_isOk_iff : (∃ ctxt, program text = .ok ctxt) ↔
    ∀ before stmt after, text.stmts = before ++ stmt :: after → stmt.Fine (readAll before) := by
  have hrun : ∀ stmts scope start, Reads scope start →
      ((∃ ctxt, stmts.foldlM programStmt start = .ok ctxt) ↔
        ∀ before stmt after, stmts = before ++ stmt :: after →
          stmt.Fine (before.foldl Scope.add scope)) := by
    intro stmts
    induction stmts with
    | nil =>
        intro scope start _
        constructor
        · intro _ before stmt after h
          cases before with
          | nil | cons => cases h
        · intro _
          exact ⟨start, rfl⟩
    | cons stmt stmts ih =>
        intro scope start hs
        simp only [List.foldlM_cons, except_bind]
        constructor
        · rintro ⟨ctxt, mid, hmid, h⟩ before stmt' after heq
          cases before with
          | nil =>
              cases heq
              exact hs.stmt_isOk_iff.mp ⟨mid, hmid⟩
          | cons b before =>
              cases heq
              exact (ih _ mid (hs.add (programStmt_iff.mp hmid))).mp ⟨ctxt, h⟩
                before stmt' after rfl
        · intro hall
          obtain ⟨mid, hmid⟩ := hs.stmt_isOk_iff.mpr (hall [] stmt stmts rfl)
          obtain ⟨ctxt, h⟩ := (ih _ mid (hs.add (programStmt_iff.mp hmid))).mpr
            fun before stmt' after heq => hall (stmt :: before) stmt' after (congrArg _ heq)
          exact ⟨ctxt, mid, hmid, h⟩
  exact hrun text.stmts _ _ reads_empty

/-- The statements of a name are those of the policy of its number. -/
theorem Reads.book_matches (h : Reads scope ctxt) (hn : Names ctxt name j) :
    Matches ctxt (scope.book name) (book (ctxt.policies.map Policy.entries) j) := by
  obtain ⟨x, hx, hxname, -⟩ := h.at_name hn
  cases hfind : scope.named.find? fun x => x.1 = name with
  | none => exact absurd (decide_eq_true hxname) (List.find?_eq_none.mp hfind x hx)
  | some y =>
      obtain ⟨k, policy, ⟨-, hk⟩, hp, hmatch⟩ := h.named y (List.mem_of_find?_eq_some hfind)
      have hsome := List.find?_some hfind
      have hyname : y.1 = name := of_decide_eq_true hsome
      rw [hyname, hn.2] at hk
      cases hk
      rw [Scope.book, hfind, book_map_entries, hp]
      exact hmatch

/-- **Statements decide in the context as they do in the text.** -/
theorem Reads.decides_iff (h : Reads scope ctxt) (hes : Matches ctxt es entries) :
    Decides scope.book (Block.decides list data) es r ↔
      Decides (book (ctxt.policies.map Policy.entries)) (ActionBlock.decides list data) entries r :=
  decides_rename_iff (fun _ _ hn => h.book_matches hn) (fun _ _ hb => actionBlock_ok hb) hes

/-- The main policy decides as the text does. -/
theorem textDecides_iff {main : Nat} (h : program text = .ok ctxt)
    (hm : ctxt.mainPolicy = some main) :
    TextDecides text.stmts list data r ↔
      PolicyDecides (ctxt.toPolicies (program_wf h)) list data main r := by
  have hreads := program_reads h
  rcases hreads.main with ⟨hnone, -⟩ | ⟨main', policy, hmain, hp, hmatch⟩
  · cases hm.symm.trans hnone
  · cases hm.symm.trans hmain
    have hentries : book (ctxt.policies.map Policy.entries) main = policy.entries := by
      rw [book_map_entries, hp]
      rfl
    show Decides _ _ _ _ ↔ Decides (book (ctxt.policies.map Policy.entries)) _
      (book (ctxt.policies.map Policy.entries) main) _
    rw [hentries]
    exact hreads.decides_iff hmatch

/-- A text without statements outside of policies decides nothing. -/
theorem textDecides_none_iff (h : program text = .ok ctxt) (hm : ctxt.mainPolicy = none) :
    TextDecides text.stmts list data r ↔ r = none := by
  have hnil : (readAll text.stmts).main = [] := by
    rcases (program_reads h).main with ⟨-, hnil⟩ | ⟨main, policy, hmain, -⟩
    · exact hnil
    · cases hm.symm.trans hmain
  rw [TextDecides, hnil]
  constructor
  · intro hd
    cases hd
    rfl
  · rintro rfl
    exact .nil

end Kafel
