/-
# `YaojJudger.Kafel.Compile` — `compile_policy`: from policies to a filter

For each group of targets there is code; a chain of comparisons behind a load of
the architecture goes to that of the call.  An architecture that is not a target
is killed.

**Proved here.**  `compile_policy` returns: no assertion fails, no array is
overrun (`compilePolicy_stages`).  The kernel takes the filter
(`compilePolicy_accepted`), and the filter does with a clean call what the policy
says (`compilePolicy_run`).

The last needs a policy that lets a call through, in each group.  Where it does
not, code that is emitted and not reached stands before everything else, and the
filter begins with it: `resolve_location` finds a `RET KILL` in it and emits none.
-/
import YaojJudger.Kafel.Archs

namespace Kafel

open Bpf FirstMatch

/-! ## The context -/

/-- `struct kafel_ctxt` after the parser; no main policy and no default action are `NULL` and 0. -/
structure KafelCtxt where
  policies : Policies
  mainPolicy : Option Nat
  defaultAction : Option Action
  targetArchs : UInt32

theorem book_concat_nil {entries : List (List PolicyEntry)} :
    book (entries ++ [[]]) = book entries := by
  funext i
  unfold book
  rw [List.getD_eq_getElem?_getD, List.getD_eq_getElem?_getD, List.getElem?_append]
  split
  case isTrue => rfl
  case isFalse h =>
      rw [List.getElem?_eq_none (Nat.not_lt.mp h)]
      cases i - entries.length with
      | zero | succ n => rfl

/-- `register_policy` of a policy without entries. -/
def Policies.registerEmpty (policies : Policies) : Policies where
  entries := policies.entries ++ [[]]
  ranked := by
    rw [book_concat_nil]
    exact policies.ranked
  within := by
    intro i j hj
    rw [book_concat_nil] at hj
    rw [List.length_append]
    exact Nat.lt_of_lt_of_le (policies.within i j hj) (Nat.le_add_right _ _)

/-- The start of `compile_policy_impl`: the policies, and the number of the main one. -/
def KafelCtxt.withMain (ctxt : KafelCtxt) : Policies × Nat :=
  match ctxt.mainPolicy with
  | some main => (ctxt.policies, main)
  | none => (ctxt.policies.registerEmpty, ctxt.policies.entries.length)

def KafelCtxt.default (ctxt : KafelCtxt) : Action := ctxt.defaultAction.getD (.basic .kill)

/-- The targets, as bits. -/
def KafelCtxt.targets (platform : Platform) (ctxt : KafelCtxt) : List UInt32 :=
  Bits.each 32 (if ctxt.targetArchs = 0 then platform.defaultTargetArch else ctxt.targetArchs)

/-! ## `compile_policy` -/

/-- The loop over `archs`. -/
def compileArchs (platform : Platform) (policies : Policies) (main : Nat) (default : Action) :
    CodegenCtxt → Loc → List (UInt32 × UInt32) → Option (Loc × CodegenCtxt)
  | ctxt, next, [] => some (next, ctxt)
  | ctxt, next, (auditArch, targetArchs) :: archs => do
    let (policy, ctxt) ← compilePolicyForArchs platform policies main default ctxt targetArchs
    if policy ≠ .exit (.basic .kill) then do
      let (next, ctxt) ← addJump ctxt .jeq (.k auditArch) policy next
      compileArchs platform policies main default ctxt next archs
    else compileArchs platform policies main default ctxt next archs

inductive CompileError where
  | stackSize
  | filterLength (len : Nat)
  deriving DecidableEq, Repr

/-- What `append_error` is given. -/
def CompileError.message : CompileError → String
  | .stackSize => "Required stack size exceeds available BPF memory\n"
  | .filterLength len =>
    "Filter length exceeds maximum seccomp filter length: " ++ toString len ++ " > 65535\n"

/-- The end of `compile_policy_impl`, on the location of the whole. -/
def finish (ctxt : CodegenCtxt) (next : Loc) : Option CodegenCtxt :=
  let (next, ctxt) :=
    if next.isAfter 0 then (Bpf.Loc.code ctxt.buffer.length, addInstruction ctxt (.ldAbs 4))
    else (next, ctxt)
  match next with
  | .code _ => some ctxt
  | .exit _ => (resolveLocation ctxt next).map Prod.snd

/-- The checks. -/
def checkProgram (ctxt : CodegenCtxt) : Except CompileError (List Instr) :=
  if ctxt.maxStackPtr ≥ 16 then .error .stackSize
  else if ctxt.buffer.length > 65535 then .error (.filterLength ctxt.buffer.length)
  else .ok ctxt.buffer

/-- `compile_policy_impl` up to its checks; none if an assertion fails. -/
def generateFilter (platform : Platform) (kafelCtxt : KafelCtxt) : Option CodegenCtxt := do
  let start := kafelCtxt.withMain
  let archs ← groupArchs platform (kafelCtxt.targets platform) []
  let (next, ctxt) ← compileArchs platform start.1 start.2 kafelCtxt.default contextCreate
    (.exit (.basic .kill)) archs
  finish ctxt next

/-- `compile_policy`; none if an assertion fails.  The buffer is the program, for its head
is what was emitted last. -/
def compilePolicy (platform : Platform) (kafelCtxt : KafelCtxt) :
    Option (Except CompileError (List Instr)) :=
  (generateFilter platform kafelCtxt).map checkProgram

variable {platform : Platform} {policies : Policies} {main : Nat} {default action : Action}
  {data : SeccompData} {lists : List SyscallList} {list : SyscallList}
  {rules rules' : List RangeRule}
  {c c' c'' : CodegenCtxt} {l next : Loc} {archs targets : List UInt32} {r : Option Action}
  {groups done : List (UInt32 × UInt32)} {mask : UInt32} {s : St} {p : List Instr}

/-! ## All groups -/

/-- What is done with a call: the group of its architecture decides. -/
def GroupsDecide (platform : Platform) (policies : Policies) (main : Nat) (default : Action)
    (groups : List (UInt32 × UInt32)) (data : SeccompData) (action : Action) : Prop :=
  (∃ group ∈ groups, group.1 = data.arch ∧ ∃ r,
    ListsDecide policies main data (groupLists platform group.2) r ∧ action = r.getD default) ∨
  (∀ group ∈ groups, group.1 ≠ data.arch) ∧ action = .basic .kill

/-- The call is clean for the lists of its architecture. -/
def CleanCall (platform : Platform) (policies : Policies) (groups : List (UInt32 × UInt32))
    (data : SeccompData) : Prop :=
  ∀ group ∈ groups, group.1 = data.arch → CleanFor policies (groupLists platform group.2) data

/-- Some clean call is not killed. -/
def Live (platform : Platform) (policies : Policies) (main : Nat) (default : Action)
    (mask : UInt32) : Prop :=
  ∃ data r, CleanFor policies (groupLists platform mask) data ∧
    ListsDecide policies main data (groupLists platform mask) r ∧ r.getD default ≠ .basic .kill

/-- From here on the architecture is in the accumulator. -/
abbrev HasArch (data : SeccompData) (s : St) : Prop := s.a = data.arch

/-- The groups of `done` have been gone through.  If each lets a call through, `next` is the
newest instruction and goes on as they decide. -/
structure Dispatched (platform : Platform) (policies : Policies) (main : Nat) (default : Action)
    (done : List (UInt32 × UInt32)) (next : Loc) (c : CodegenCtxt) : Prop where
  ready : c.Ready
  grows : Grows contextCreate c
  valid : next.Valid c.buffer
  place : next = .exit (.basic .kill) ∨ ∃ n, next = .code n
  head : (∀ group ∈ done, Live platform policies main default group.2) →
    done = [] ∧ next = .exit (.basic .kill) ∧ c.buffer = [] ∨
      next = .code (c.buffer.length - 1) ∧ 0 < c.buffer.length
  leads : (∀ group ∈ done, Live platform policies main default group.2) →
    ∀ data action, CleanCall platform policies done data →
      GroupsDecide platform policies main default done data action →
      next.Leads actionToBpf data.word c.buffer (HasArch data) action

theorem dispatched_nil :
    Dispatched platform policies main default [] (.exit (.basic .kill)) contextCreate where
  ready := ready_contextCreate
  grows := .refl
  valid := trivial
  place := .inl rfl
  head := by
    intro _
    exact .inl ⟨rfl, rfl, rfl⟩
  leads := by
    rintro - data action - (⟨group, hg, -⟩ | ⟨-, rfl⟩)
    · cases hg
    · exact Bpf.Loc.leads_exit

/-- A group whose code is an exit that kills has no call it lets through. -/
theorem not_live (h : GroupCode platform policies main default mask c (.exit (.basic .kill)) c') :
    ¬ Live platform policies main default mask := by
  rintro ⟨data, r, hc, hd, hne⟩
  have hrun := h.reaches data r hc hd .init trivial
  exact hne (actionToBpf_inj (Option.some.inj hrun)).symm

variable {group : UInt32 × UInt32} {policy : Loc}

/-- The group is gone by: all its calls are killed. -/
theorem Dispatched.skip (h : Dispatched platform policies main default done next c)
    (hg : GroupCode platform policies main default group.2 c (.exit (.basic .kill)) c') :
    Dispatched platform policies main default (group :: done) next c' where
  ready := hg.ready
  grows := h.grows.trans hg.grows
  valid := h.valid.suffix hg.grows.suffix
  place := h.place
  head := by
    intro hlive
    exact absurd (hlive group List.mem_cons_self) (not_live hg)
  leads := by
    intro hlive
    exact absurd (hlive group List.mem_cons_self) (not_live hg)

/-- The group has a jump in front of the others. -/
theorem Dispatched.jump (group : UInt32 × UInt32)
    (h : Dispatched platform policies main default done next c)
    (hg : GroupCode platform policies main default group.2 c policy c')
    (hpolicy : policy ≠ .exit (.basic .kill)) (hnew : ∀ g ∈ done, g.1 ≠ group.1) :
    ∃ next' c'', addJump c' .jeq (.k group.1) policy next = some (next', c'') ∧
      Dispatched platform policies main default (group :: done) next' c'' := by
  have hne : policy ≠ next := by
    rintro rfl
    rcases hg.place with rfl | ⟨rfl, hlt⟩
    · rcases h.place with hk | ⟨n, hn⟩
      · exact hpolicy hk
      · cases hn
    · exact ne_newest h.valid hlt rfl
  have hvalid := h.valid.suffix hg.grows.suffix
  obtain ⟨c'', e, hlt, hb⟩ :=
    addJump_new .jeq (.k group.1) hg.ready hg.valid hvalid hne
  refine ⟨_, c'', e, hb.ready, (h.grows.trans hg.grows).trans hb.grows, ?_, .inr ⟨_, rfl⟩, ?_, ?_⟩
  · show c''.buffer.length - 1 < c''.buffer.length
    omega
  · intro _
    exact .inr ⟨rfl, by omega⟩
  · intro hlive data action hclean hd s hs
    obtain ⟨_, hlive⟩ := List.forall_mem_cons.mp hlive
    obtain ⟨hcg, hclean⟩ := List.forall_mem_cons.mp hclean
    rw [hb.run]
    show (if (s.a == group.1) = true then policy else next).run _ _ _ _ = _
    rw [show s.a = data.arch from hs]
    by_cases harch : group.1 = data.arch
    · rw [if_pos (beq_iff_eq.mpr harch.symm)]
      -- no other group is for this architecture
      have hr : ∃ r, ListsDecide policies main data (groupLists platform group.2) r ∧
          action = r.getD default := by
        rcases hd with ⟨g, hmem, hga, hr⟩ | ⟨hno, _⟩
        · rcases List.mem_cons.mp hmem with rfl | hmem
          · exact hr
          · exact absurd (hga.trans harch.symm) (hnew g hmem)
        · exact absurd harch (hno group List.mem_cons_self)
      obtain ⟨r, hr, rfl⟩ := hr
      exact hg.reaches data r (hcg harch) hr s trivial
    · rw [if_neg fun heq => harch (beq_iff_eq.mp heq).symm, Loc.run_suffix hg.grows.suffix h.valid]
      refine h.leads hlive data action hclean ?_ s hs
      rcases hd with ⟨g, hmem, hga, hr⟩ | ⟨hno, hkill⟩
      · rcases List.mem_cons.mp hmem with rfl | hmem
        · exact absurd hga harch
        · exact .inl ⟨g, hmem, hga, hr⟩
      · exact .inr ⟨fun g hmem => hno g (List.mem_cons_of_mem _ hmem), hkill⟩

/-- What the loop over the groups asks of each: its targets are in the table, its names in
their lists, its rules not too many. -/
structure GroupFit (platform : Platform) (policies : Policies) (main : Nat) (mask : UInt32) :
    Prop where
  lookup : ∀ arch ∈ Bits.each 32 mask, ∃ list, syscallsLookup platform arch = some list
  valid : ValidFor policies (groupLists platform mask)
  bound : (groupLists platform mask).length * policies.ruleBound main < 2 ^ 31

/-- **The loop over `archs`.** -/
theorem compileArchs_spec (default : Action)
    (h : Dispatched platform policies main default done next c)
    (hfit : ∀ group ∈ groups, GroupFit platform policies main group.2)
    (hnodup : (groups.map Prod.fst).Nodup) (hnew : ∀ group ∈ groups, ∀ g ∈ done, g.1 ≠ group.1) :
    ∃ next' c', compileArchs platform policies main default c next groups = some (next', c') ∧
      Dispatched platform policies main default (groups.reverseAux done) next' c' := by
  induction groups generalizing done next c with
  | nil => exact ⟨next, c, rfl, h⟩
  | cons group groups ih =>
      obtain ⟨hgroup, hrest⟩ := List.forall_mem_cons.mp hfit
      obtain ⟨hfresh, hothers⟩ := List.forall_mem_cons.mp hnew
      obtain ⟨hnotin, hdistinct⟩ := List.nodup_cons.mp hnodup
      obtain ⟨policy, c₁, e₁, hcode⟩ := compilePolicyForArchs_spec default h.ready
        hgroup.lookup hgroup.valid hgroup.bound
      have hnew' : ∀ g ∈ groups, ∀ x ∈ group :: done, x.1 ≠ g.1 := by
        intro g hg x hx
        rcases List.mem_cons.mp hx with rfl | hx
        · intro heq
          exact hnotin (heq ▸ List.mem_map_of_mem hg)
        · exact hothers g hg x hx
      obtain ⟨audit, mask⟩ := group
      by_cases hkill : policy = .exit (.basic .kill)
      · subst hkill
        obtain ⟨next', c', e, hd⟩ := ih (h.skip hcode) hrest hdistinct hnew'
        refine ⟨next', c', ?_, hd⟩
        rw [compileArchs, e₁, Option.bind_eq_bind, Option.bind_some]
        exact e
      · obtain ⟨next₁, c₂, e₂, hd₁⟩ := h.jump (audit, mask) hcode hkill hfresh
        obtain ⟨next', c', e, hd⟩ := ih hd₁ hrest hdistinct hnew'
        refine ⟨next', c', ?_, hd⟩
        rw [compileArchs, e₁, Option.bind_eq_bind, Option.bind_some]
        dsimp only
        rw [if_pos hkill, e₂]
        exact e

/-! ## The whole -/

/-- The buffer is a program, and its instructions are of the generator's kind. -/
structure Program (ctxt : CodegenCtxt) : Prop where
  closed : Closed ctxt.buffer
  ne_nil : ctxt.buffer ≠ []
  sound : ∀ i ∈ ctxt.buffer, Sound ctxt.maxStackPtr i

theorem program_of (hok : c.Ok) (hg : Grows contextCreate c) (hne : c.buffer ≠ []) : Program c where
  closed := hok.closed
  ne_nil := hne
  sound := by
    refine hg.sound c.maxStackPtr (Nat.le_refl _) ?_
    intro i hi
    cases hi

theorem isAfter_zero {n : Nat} : (Bpf.Loc.code n : Loc).isAfter 0 = true :=
  decide_eq_true (Nat.zero_le n)

theorem arch_sound {m : Nat} : Sound m (.ldAbs 4) := ⟨rfl, by show 4 < 64; omega⟩

/-- The end of `compile_policy_impl` returns. -/
theorem finish_spec (h : Dispatched platform policies main default done next c) :
    ∃ c', finish c next = some c' ∧ Program c' := by
  rcases h.place with rfl | ⟨n, rfl⟩
  · obtain ⟨n, c', e, hr⟩ := @resolveLocation_spec c (.exit (.basic .kill)) h.ready.toOk
      (Nat.le_trans (Nat.le_of_eq h.ready.leading) (Nat.zero_le 2)) trivial
    refine ⟨c', ?_, program_of hr.ok (h.grows.trans hr.grows) ?_⟩
    · show (resolveLocation c (.exit (.basic .kill))).map Prod.snd = some c'
      rw [e]
      rfl
    · exact List.ne_nil_of_length_pos (Nat.lt_of_le_of_lt (Nat.zero_le n) hr.lt)
  · have hne : c.buffer ≠ [] :=
      List.ne_nil_of_length_pos (Nat.lt_of_le_of_lt (Nat.zero_le n) h.valid)
    refine ⟨addInstruction c (.ldAbs 4), ?_, program_of (ready_straight h.ready hne rfl).toOk
      (h.grows.trans (grows_push fun m _ => arch_sound)) (List.cons_ne_nil _ _)⟩
    unfold finish
    rw [isAfter_zero]
    rfl

/-- The program decides as the groups do, if each lets a call through. -/
theorem finish_decides (h : Dispatched platform policies main default done next c)
    (hlive : ∀ group ∈ done, Live platform policies main default group.2)
    (he : finish c next = some c') (hclean : CleanCall platform policies done data)
    (hd : GroupsDecide platform policies main default done data action) :
    run data.word c'.buffer 0 .init = some (actionToBpf action) := by
  have hleads := h.leads hlive data action hclean hd
  rcases h.head hlive with ⟨rfl, rfl, hnil⟩ | ⟨rfl, hlen⟩
  · obtain ⟨n, c₁, e, hr⟩ := @resolveLocation_spec c (.exit (.basic .kill)) h.ready.toOk
      (Nat.le_trans (Nat.le_of_eq h.ready.leading) (Nat.zero_le 2)) trivial
    have he' : (resolveLocation c (.exit (.basic .kill))).map Prod.snd = some c' := he
    rw [e] at he'
    obtain rfl : c₁ = c' := Option.some.inj he'
    -- the buffer holds the one return
    have hzero : ahead c₁.buffer n = 0 := by
      have hlt := hr.lt
      unfold ahead
      rcases hr.buffer with hb | ⟨i, hb, _⟩
      · rw [hb, hnil] at hlt
        exact absurd hlt (Nat.not_lt_zero n)
      · rw [hb, hnil] at hlt ⊢
        show 1 - 1 - n = 0
        omega
    have hinit := hr.run data.word .init
    rw [runAt, hzero] at hinit
    rw [hinit]
    exact hleads ⟨data.arch, 0, fun _ => 0⟩ rfl
  · have hne : c.buffer ≠ [] := List.ne_nil_of_length_pos hlen
    have he' : finish c (.code (c.buffer.length - 1)) = some (addInstruction c (.ldAbs 4)) := by
      unfold finish
      rw [isAfter_zero]
      rfl
    rw [he'] at he
    obtain rfl := Option.some.inj he
    have hreach := reaches_load 4 rfl h.ready hne (fun m => arch_sound) hleads
    have hrun := hreach .init trivial
    have hhead : runAt data.word (.ldAbs 4 :: c.buffer) c.buffer.length .init =
        run data.word (.ldAbs 4 :: c.buffer) 0 .init := runAt_head
    exact hhead.symm.trans hrun

/-- **What a context decides**: the lists of the call's architecture, the default action
where they do not, and no other architecture. -/
def ContextDecides (platform : Platform) (kafelCtxt : KafelCtxt) (data : SeccompData)
    (action : Action) : Prop :=
  let lists := listsOf platform (kafelCtxt.targets platform) data.arch
  lists = [] ∧ action = .basic .kill ∨
    lists ≠ [] ∧ ∃ r, ListsDecide kafelCtxt.withMain.1 kafelCtxt.withMain.2 data lists r ∧
      action = r.getD kafelCtxt.default

/-- What `validate_references` has found, and a bound no policy comes near. -/
structure KafelCtxt.Fit (platform : Platform) (kafelCtxt : KafelCtxt) : Prop where
  lookup : ∀ target ∈ kafelCtxt.targets platform, ∃ list, syscallsLookup platform target = some list
  valid : ValidFor kafelCtxt.withMain.1
    ((kafelCtxt.targets platform).filterMap (syscallsLookup platform))
  bound : kafelCtxt.withMain.1.ruleBound kafelCtxt.withMain.2 < 2 ^ 26

variable {kafelCtxt : KafelCtxt}

theorem groups_exist (hfit : kafelCtxt.Fit platform) :
    ∃ groups, groupArchs platform (kafelCtxt.targets platform) [] = some groups ∧
      Grouped platform (kafelCtxt.targets platform) groups := by
  refine groupArchs_spec grouped_nil hfit.lookup ?_ ?_
  · intro target ht
    obtain ⟨k, -, hk⟩ := Bits.mem_each.mp ht
    exact ⟨k, hk⟩
  · rw [List.length_nil, Nat.zero_add]
    exact length_each

theorem listsOf_subset {arch : UInt32} :
    listsOf platform targets arch ⊆ targets.filterMap (syscallsLookup platform) := by
  intro list hlist
  exact List.mem_of_mem_filter hlist

theorem listsOf_ne_nil {arch : UInt32} :
    listsOf platform targets arch ≠ [] ↔ ∃ b ∈ targets, HasAudit platform b arch := by
  unfold listsOf HasAudit
  constructor
  · intro hne
    obtain ⟨list, hlist⟩ := List.exists_mem_of_ne_nil _ hne
    obtain ⟨hmem, ha⟩ := List.mem_filter.mp hlist
    obtain ⟨b, hb, hl⟩ := List.mem_filterMap.mp hmem
    exact ⟨b, hb, list, hl, of_decide_eq_true ha⟩
  · rintro ⟨b, hb, list, hl, ha⟩
    exact List.ne_nil_of_mem (List.mem_filter.mpr
      ⟨List.mem_filterMap.mpr ⟨b, hb, hl⟩, decide_eq_true ha⟩)

/-- There is a group for each architecture that has a list. -/
theorem Grouped.mem_iff {arch : UInt32} (h : Grouped platform targets groups) :
    arch ∈ groups.map Prod.fst ↔ listsOf platform targets arch ≠ [] := by
  rw [listsOf_ne_nil]
  constructor
  · exact h.inhabited arch
  · rintro ⟨b, hb, ha⟩
    exact h.complete b hb arch ha

theorem Grouped.fit (hfit : kafelCtxt.Fit platform)
    (h : Grouped platform (kafelCtxt.targets platform) groups) :
    ∀ group ∈ groups, GroupFit platform kafelCtxt.withMain.1 kafelCtxt.withMain.2 group.2 := by
  intro group hg
  have hlists := h.groupLists_eq hg
  refine ⟨?_, ?_, ?_⟩
  · intro arch harch
    obtain ⟨k, hk, hb⟩ := Bits.mem_each.mp harch
    obtain ⟨b, hbmem, hbk, -⟩ := (h.bits group hg k).mp hk
    obtain rfl : b = arch := UInt32.toNat_inj.mp (hbk.trans hb.symm)
    exact hfit.lookup b hbmem
  · rw [hlists]
    intro list hlist
    exact hfit.valid list (listsOf_subset hlist)
  · have hle : (groupLists platform group.2).length ≤ 32 :=
      Nat.le_trans (List.length_filterMap_le _ _) length_each
    have hbound := hfit.bound
    have hmul := Nat.mul_le_mul_right (kafelCtxt.withMain.1.ruleBound kafelCtxt.withMain.2) hle
    omega

/-- The groups decide as the context does. -/
theorem groupsDecide_of (h : Grouped platform (kafelCtxt.targets platform) groups)
    (hd : ContextDecides platform kafelCtxt data action) :
    GroupsDecide platform kafelCtxt.withMain.1 kafelCtxt.withMain.2 kafelCtxt.default groups data
      action := by
  rcases hd with ⟨hnil, hkill⟩ | ⟨hne, r, hr, haction⟩
  · refine .inr ⟨?_, hkill⟩
    intro group hg harch
    exact h.mem_iff.mp (harch ▸ List.mem_map_of_mem hg) hnil
  · obtain ⟨group, hg, harch⟩ := List.mem_map.mp (h.mem_iff.mpr hne)
    refine .inl ⟨group, hg, harch, r, ?_, haction⟩
    rw [h.groupLists_eq hg, harch]
    exact hr

/-- The stages of a compilation. -/
theorem compilePolicy_stages (hfit : kafelCtxt.Fit platform) :
    ∃ groups next c c', Grouped platform (kafelCtxt.targets platform) groups ∧
      Dispatched platform kafelCtxt.withMain.1 kafelCtxt.withMain.2 kafelCtxt.default
        (groups.reverseAux []) next c ∧
      finish c next = some c' ∧ Program c' ∧
      compilePolicy platform kafelCtxt = some (checkProgram c') := by
  obtain ⟨groups, e₁, hg⟩ := groups_exist hfit
  obtain ⟨next, c, e₂, hd⟩ := compileArchs_spec kafelCtxt.default dispatched_nil
    (hg.fit hfit) hg.nodup (fun _ _ g hmem => absurd hmem List.not_mem_nil)
  obtain ⟨c', e₃, hprog⟩ := finish_spec hd
  refine ⟨groups, next, c, c', hg, hd, e₃, hprog, ?_⟩
  unfold compilePolicy generateFilter
  rw [e₁, Option.bind_eq_bind, Option.bind_some, e₂, Option.bind_eq_bind, Option.bind_some]
  show (finish c next).map checkProgram = _
  rw [e₃]
  rfl

theorem checkProgram_ok (h : checkProgram c = .ok p) :
    c.buffer = p ∧ c.maxStackPtr < 16 ∧ c.buffer.length ≤ 65535 := by
  unfold checkProgram at h
  split at h
  case isTrue => cases h
  case isFalse hs =>
      split at h
      case isTrue => cases h
      case isFalse hl =>
          cases h
          exact ⟨rfl, by omega, by omega⟩

/-- A call is clean if the lists of its architecture find it so. -/
def KafelCtxt.Clean (platform : Platform) (kafelCtxt : KafelCtxt) (data : SeccompData) : Prop :=
  CleanFor kafelCtxt.withMain.1 (listsOf platform (kafelCtxt.targets platform) data.arch) data

/-- On each target some clean call is not killed. -/
def KafelCtxt.LetsThrough (platform : Platform) (kafelCtxt : KafelCtxt) : Prop :=
  ∀ arch, listsOf platform (kafelCtxt.targets platform) arch ≠ [] →
    ∃ data action, data.arch = arch ∧ kafelCtxt.Clean platform data ∧
      ContextDecides platform kafelCtxt data action ∧ action ≠ .basic .kill

theorem Grouped.live (h : Grouped platform (kafelCtxt.targets platform) groups)
    (hl : kafelCtxt.LetsThrough platform) : ∀ group ∈ groups,
      Live platform kafelCtxt.withMain.1 kafelCtxt.withMain.2 kafelCtxt.default group.2 := by
  intro group hg
  have hne := h.mem_iff.mp (List.mem_map_of_mem hg)
  obtain ⟨data, action, harch, hclean, hd, hkill⟩ := hl group.1 hne
  rcases hd with ⟨hnil, -⟩ | ⟨-, r, hr, rfl⟩
  · rw [harch] at hnil
    exact absurd hnil hne
  · unfold KafelCtxt.Clean at hclean
    rw [harch] at hclean hr
    refine ⟨data, r, ?_, ?_, hkill⟩
    · rw [h.groupLists_eq hg]
      exact hclean
    · rw [h.groupLists_eq hg]
      exact hr

theorem Grouped.cleanCall (h : Grouped platform (kafelCtxt.targets platform) groups)
    (hc : kafelCtxt.Clean platform data) :
    CleanCall platform kafelCtxt.withMain.1 groups data := by
  intro group hg harch
  rw [h.groupLists_eq hg, harch]
  exact hc

/-- **The filter does what the policy says.** -/
theorem compilePolicy_run (hfit : kafelCtxt.Fit platform) (hl : kafelCtxt.LetsThrough platform)
    (h : compilePolicy platform kafelCtxt = some (.ok p)) (hc : kafelCtxt.Clean platform data)
    (hd : ContextDecides platform kafelCtxt data action) :
    run data.word p 0 .init = some (actionToBpf action) := by
  obtain ⟨groups, next, c, c', hg, hdisp, hfin, -, heq⟩ := compilePolicy_stages hfit
  rw [heq] at h
  obtain ⟨rfl, -, -⟩ := checkProgram_ok (Option.some.inj h)
  have hmem : ∀ group, group ∈ groups.reverseAux [] ↔ group ∈ groups := by
    intro group
    rw [List.reverseAux_eq, List.append_nil, List.mem_reverse]
  refine finish_decides hdisp ?_ hfin ?_ ?_
  · intro group hgroup
    exact hg.live hl group ((hmem group).mp hgroup)
  · intro group hgroup
    exact hg.cleanCall hc group ((hmem group).mp hgroup)
  · rcases groupsDecide_of hg hd with ⟨group, hgroup, hrest⟩ | ⟨hno, hkill⟩
    · exact .inl ⟨group, (hmem group).mpr hgroup, hrest⟩
    · exact .inr ⟨fun group hgroup => hno group ((hmem group).mp hgroup), hkill⟩

/-- If the default action is another, a call that no rule is for is not killed. -/
theorem letsThrough_of_default (hfit : kafelCtxt.Fit platform)
    (hne : kafelCtxt.default ≠ .basic .kill) : kafelCtxt.LetsThrough platform := by
  intro arch harch
  obtain ⟨groups, -, hg⟩ := groups_exist hfit
  obtain ⟨group, hmem, rfl⟩ := List.mem_map.mp (hg.mem_iff.mpr harch)
  have hgroup := hg.fit hfit group hmem
  obtain ⟨rules, -, hrules⟩ := addArchRules_spec kafelCtxt.withMain.2 [] hgroup.lookup hgroup.valid
  have hlen : rules.length < 2 ^ 32 := by
    have hle := hrules.length
    rw [List.length_nil, Nat.zero_add] at hle
    exact Nat.lt_of_le_of_lt hle (Nat.lt_trans hgroup.bound (by omega))
  obtain ⟨nr, hnr⟩ := exists_unused hlen
  have hexists : ∃ r, ListsDecide kafelCtxt.withMain.1 kafelCtxt.withMain.2
      (plainCall nr group.1) (groupLists platform group.2) r :=
    inTurn_exists fun _ => policyDecides_exists
  obtain ⟨r, hr⟩ := hexists
  have hnone := hrules.decides _ r cleanFor_plainCall hr
  rw [findSome?_unused (hrules.built built_nil) hnr, List.findSome?_nil, Option.none_or] at hnone
  subst hnone
  rw [hg.groupLists_eq hmem] at hr
  exact ⟨plainCall nr group.1, kafelCtxt.default, rfl, cleanFor_plainCall,
    .inr ⟨harch, none, hr, rfl⟩, hne⟩

/-- What the kernel's check of jumps, loads and the length asks of a filter. -/
structure Accepted (p : List Instr) : Prop where
  closed : Closed p
  ne_nil : p ≠ []
  length : p.length ≤ 65535
  sound : ∀ i ∈ p, Sound 15 i

theorem Sound.mono {m n : Nat} {i : Instr} (h : Sound m i) (hle : m ≤ n) : Sound n i := by
  cases i with
  | ldxMem | st => exact Nat.le_trans h hle
  | ldAbs | jmp => exact h
  | ldImm | alu | tax | ja | ret => trivial

theorem compilePolicy_accepted (hfit : kafelCtxt.Fit platform)
    (h : compilePolicy platform kafelCtxt = some (.ok p)) : Accepted p := by
  obtain ⟨groups, next, c, c', -, -, -, hprog, heq⟩ := compilePolicy_stages hfit
  rw [heq] at h
  obtain ⟨rfl, hstack, hlen⟩ := checkProgram_ok (Option.some.inj h)
  exact ⟨hprog.closed, hprog.ne_nil, hlen,
    fun i hi => (hprog.sound i hi).mono (Nat.le_of_lt_succ hstack)⟩

/-- **The array of groups has room**, and there is one group for each architecture that has a
table, with the tables of that architecture in the order of the bits. -/
theorem groupArchs_correct {x : UInt32}
    (hl : ∀ target ∈ Bits.each 32 x, ∃ list, syscallsLookup platform target = some list) :
    ∃ groups, groupArchs platform (Bits.each 32 x) [] = some groups ∧ groups.length ≤ 32 ∧
      (groups.map Prod.fst).Nodup ∧
      (∀ arch, arch ∈ groups.map Prod.fst ↔ listsOf platform (Bits.each 32 x) arch ≠ []) ∧
      ∀ group ∈ groups,
        groupLists platform group.2 = listsOf platform (Bits.each 32 x) group.1 := by
  have hbit : ∀ target ∈ Bits.each 32 x, ∃ k, target.toNat = 2 ^ k := by
    intro target ht
    obtain ⟨k, -, hk⟩ := Bits.mem_each.mp ht
    exact ⟨k, hk⟩
  have hroom : ([] : List UInt32).length + (Bits.each 32 x).length ≤ 32 := by
    rw [List.length_nil, Nat.zero_add]
    exact length_each
  obtain ⟨groups, e, hg⟩ := groupArchs_spec grouped_nil hl hbit hroom
  rw [List.nil_append] at hg
  exact ⟨groups, e, Nat.le_trans hg.length length_each, hg.nodup, fun _ => hg.mem_iff,
    fun _ hgroup => hg.groupLists_eq hgroup⟩

/-- A platform with one table. -/
def readPlatform : Platform := ⟨[readList], 0x10⟩

theorem lookup_readPlatform : ∀ target ∈ Bits.each 32 0x10,
    ∃ list, syscallsLookup readPlatform target = some list := by
  intro target ht
  have heach : Bits.each 32 0x10 = [0x10] := by decide
  rw [heach] at ht
  obtain rfl := List.mem_singleton.mp ht
  exact ⟨readList, rfl⟩

/-- A table without names. -/
def emptyList (kafelArch auditArch : UInt32) : SyscallList := ⟨kafelArch, auditArch, []⟩

/-- Three targets, of which the kernel knows the first and the last by one number. -/
def sharedPlatform : Platform :=
  ⟨[emptyList 4 0xc000003e, emptyList 1 0xc000003e, emptyList 2 0x40000003], 7⟩

theorem lookup_sharedPlatform : ∀ target ∈ Bits.each 32 7,
    ∃ list, syscallsLookup sharedPlatform target = some list := by
  intro target ht
  have heach : Bits.each 32 7 = [1, 2, 4] := by decide
  rw [heach] at ht
  simp only [List.mem_cons, List.not_mem_nil, or_false] at ht
  rcases ht with rfl | rfl | rfl
  · exact ⟨emptyList 1 0xc000003e, rfl⟩
  · exact ⟨emptyList 2 0x40000003, rfl⟩
  · exact ⟨emptyList 4 0xc000003e, rfl⟩

/-- The tables come in the order of the bits, not in that of the platform. -/
theorem groupArchs_correct_shared :
    groupArchs sharedPlatform (Bits.each 32 7) [] = some [(0xc000003e, 5), (0x40000003, 2)] ∧
      groupLists sharedPlatform 5 = [emptyList 1 0xc000003e, emptyList 4 0xc000003e] ∧
      groupLists sharedPlatform 2 = [emptyList 2 0x40000003] := by
  have hgroups :
      groupArchs sharedPlatform (Bits.each 32 7) [] = some [(0xc000003e, 5), (0x40000003, 2)] := by
    decide
  obtain ⟨groups, e, -, -, -, hlists⟩ := groupArchs_correct lookup_sharedPlatform
  obtain rfl := Option.some.inj (e.symm.trans hgroups)
  refine ⟨hgroups, ?_, ?_⟩
  · exact (hlists (0xc000003e, 5) List.mem_cons_self).trans (by rfl)
  · exact (hlists (0x40000003, 2) (List.mem_cons_of_mem _ List.mem_cons_self)).trans (by rfl)

/-- **`compile_policy`** returns.  If it returns a program, the jumps stay in it and its loads and
cells are those of the machine; and the program does with a clean call what the policy says, if on
each target some call is let through. -/
theorem compilePolicy_correct (hfit : kafelCtxt.Fit platform) :
    ∃ res, compilePolicy platform kafelCtxt = some res ∧ ∀ p, res = .ok p → Accepted p ∧
      (kafelCtxt.LetsThrough platform → ∀ data action, kafelCtxt.Clean platform data →
        ContextDecides platform kafelCtxt data action →
        run data.word p 0 .init = some (actionToBpf action)) := by
  obtain ⟨-, -, -, c, -, -, -, -, e⟩ := compilePolicy_stages hfit
  refine ⟨_, e, ?_⟩
  intro p hp
  rw [hp] at e
  exact ⟨compilePolicy_accepted hfit e,
    fun hl data action hc hd => compilePolicy_run hfit hl e hc hd⟩

/-- `read` is allowed, by a policy that is used twice; the rest fails. -/
def readCtxt : KafelCtxt := ⟨readPolicies, some 1, some (.errno 1), 0⟩

theorem fit_readCtxt : readCtxt.Fit readPlatform where
  lookup := lookup_readPlatform
  valid := by
    intro list hlist
    obtain ⟨target, ht, hl⟩ := List.mem_filterMap.mp hlist
    have heach : readCtxt.targets readPlatform = [0x10] := by decide
    rw [heach] at ht
    obtain rfl := List.mem_singleton.mp ht
    cases hl
    exact valid_readPolicies
  bound := by decide

/-- `read` with arguments 0. -/
theorem contextDecides_read :
    ContextDecides readPlatform readCtxt (plainCall 0 0xc000003e) (.basic .allow) := by
  have hlists : listsOf readPlatform (readCtxt.targets readPlatform) 0xc000003e = [readList] := by
    rfl
  have hpolicy : PolicyDecides readPolicies readList (plainCall 0 0xc000003e) 1
      (some (.basic .allow)) := .useHit (.itemHit (by rfl))
  refine .inr ⟨?_, some (.basic .allow), ?_, rfl⟩
  · rw [show (plainCall 0 0xc000003e).arch = 0xc000003e from rfl, hlists]
    exact List.cons_ne_nil _ _
  · rw [show (plainCall 0 0xc000003e).arch = 0xc000003e from rfl, hlists]
    exact .found hpolicy

theorem compilePolicy_correct_read : ∃ p, compilePolicy readPlatform readCtxt = some (.ok p) ∧
    Accepted p ∧ run (plainCall 0 0xc000003e).word p 0 .init =
      some (actionToBpf (.basic .allow)) := by
  obtain ⟨res, e, hall⟩ := compilePolicy_correct fit_readCtxt
  have hok : ∃ p, compilePolicy readPlatform readCtxt = some (.ok p) := ⟨_, rfl⟩
  obtain ⟨p, hp⟩ := hok
  obtain ⟨hacc, hrun⟩ := hall p (Option.some.inj (e.symm.trans hp))
  exact ⟨p, hp, hacc, hrun (letsThrough_of_default fit_readCtxt (by decide)) _ _
    cleanFor_plainCall contextDecides_read⟩

end Kafel
