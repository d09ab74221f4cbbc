/-
# `YaojJudger.Kafel.Archs` — the targets of a compilation

The targets are bits of a mask.  Bits that the kernel knows by one number make
one group.  The rules of a group are those of its lists, one list after the other
(`ListsDecide`); they become a table, and the table a search tree behind a load
of the number of the call.

**Proved here.**  `compile_policy_for_archs` returns code that does what the
lists decide (`compilePolicyForArchs_spec`); the array of groups has room, and a
group has the lists of its number in their order (`groupArchs_spec`,
`Grouped.groupLists_eq`).
-/
import YaojJudger.Kafel.Tree
import YaojJudger.Bits

namespace Kafel

open Bpf FirstMatch

/-! ## `syscall.c` -/

/-- What the build has put in: `syscall_lists`, `KAFEL_DEFAULT_TARGET_ARCH`. -/
structure Platform where
  syscallLists : List SyscallList
  defaultTargetArch : UInt32

/-- `syscalls_lookup`. -/
def syscallsLookup (platform : Platform) (kafelArch : UInt32) : Option SyscallList :=
  platform.syscallLists.find? fun list => list.kafelArch = kafelArch

/-! ## Groups -/

/-- The loop of `compile_policy_for_archs`. -/
def addArchRules (platform : Platform) (policies : Policies) (main : Nat) :
    List UInt32 → List RangeRule → Option (List RangeRule)
  | [], rules => some rules
  | arch :: archs, rules => do
    let list ← syscallsLookup platform arch
    let rules ← addPolicyRules policies list rules main
    addArchRules platform policies main archs rules

/-- `compile_policy_for_archs`. -/
def compilePolicyForArchs (platform : Platform) (policies : Policies) (main : Nat)
    (default : Action) (ctxt : CodegenCtxt) (targetArchs : UInt32) :
    Option (Loc × CodegenCtxt) := do
  let rules ← addArchRules platform policies main (Bits.each 32 targetArchs) []
  let rules ← normalizeRules default rules
  let (next, ctxt') ← generateRules ctxt rules
  if next.isAfter ctxt.buffer.length then
    some (.code ctxt'.buffer.length, addInstruction ctxt' (.ldAbs 0))
  else some (.exit default, ctxt')

/-- A target goes to the group of its number. -/
def addArch (auditArch targetArch : UInt32) : List (UInt32 × UInt32) → List (UInt32 × UInt32)
  | [] => [(auditArch, targetArch)]
  | group :: archs =>
    if group.1 = auditArch then (group.1, group.2 ||| targetArch) :: archs
    else group :: addArch auditArch targetArch archs

/-- The loop that fills `archs`; none if a target is not in the table, or `archs` has no room. -/
def groupArchs (platform : Platform) : List UInt32 → List (UInt32 × UInt32) →
    Option (List (UInt32 × UInt32))
  | [], archs => some archs
  | arch :: targets, archs => do
    let list ← syscallsLookup platform arch
    let archs := addArch list.auditArch arch archs
    if archs.length ≤ 32 then groupArchs platform targets archs else none

variable {platform : Platform} {policies : Policies} {main : Nat} {default action : Action}
  {data : SeccompData} {lists : List SyscallList} {list : SyscallList}
  {rules rules' : List RangeRule}
  {c c' : CodegenCtxt} {l : Loc} {archs targets : List UInt32} {r : Option Action}
  {groups : List (UInt32 × UInt32)} {mask : UInt32} {s : St}

/-! ## What the lists of an architecture decide -/

/-- The lists are tried in turn. -/
abbrev ListsDecide (policies : Policies) (main : Nat) (data : SeccompData) :
    List SyscallList → Option Action → Prop :=
  InTurn fun list r => PolicyDecides policies list data main r

/-- The call is clean for every filter, whatever list it is read by. -/
def CleanFor (policies : Policies) (lists : List SyscallList) (data : SeccompData) : Prop :=
  ∀ list ∈ lists, policies.All (SyscallFilter.Clean list data)

/-- Every name in a filter is in every list. -/
def ValidFor (policies : Policies) (lists : List SyscallList) : Prop :=
  ∀ list ∈ lists, policies.All (SyscallFilter.Valid list)

/-- How many rules one list can give. -/
def Policies.ruleBound (policies : Policies) (main : Nat) : Nat :=
  filterCount (book policies.entries main) + (policies.entries.map filterCount).sum

/-- The rules of several lists, one list after the other. -/
structure ArchRules (policies : Policies) (main : Nat) (lists : List SyscallList)
    (rules rules' : List RangeRule) : Prop where
  built : Built rules → Built rules'
  length : rules'.length ≤ rules.length + lists.length * policies.ruleBound main
  clean : ∀ data, CleanFor policies lists data → (∀ rule ∈ rules, rule.Clean data) →
    ∀ rule ∈ rules', rule.Clean data
  decides : ∀ data r, CleanFor policies lists data → ListsDecide policies main data lists r →
    rules'.findSome? (RangeRule.decides data) = (rules.findSome? (RangeRule.decides data)).or r

theorem addArchRules_spec (main : Nat) (rules : List RangeRule)
    (hl : ∀ arch ∈ archs, ∃ list, syscallsLookup platform arch = some list)
    (hv : ValidFor policies (archs.filterMap (syscallsLookup platform))) :
    ∃ rules', addArchRules platform policies main archs rules = some rules' ∧
      ArchRules policies main (archs.filterMap (syscallsLookup platform)) rules rules' := by
  induction archs generalizing rules with
  | nil =>
      refine ⟨rules, rfl, id, Nat.le_add_right _ _, fun _ _ h => h, ?_⟩
      intro data r _ hr
      cases hr
      exact Option.or_none.symm
  | cons arch archs ih =>
      obtain ⟨⟨list, hlist⟩, hl⟩ := List.forall_mem_cons.mp hl
      rw [List.filterMap_cons_some hlist] at hv ⊢
      obtain ⟨hvalid, hv⟩ := List.forall_mem_cons.mp hv
      obtain ⟨mid, hmid⟩ := addPolicyRules_isSome rules main hvalid
      obtain ⟨rules', e, ha⟩ := ih mid hl hv
      refine ⟨rules', ?_, ?_, ?_, ?_, ?_⟩
      · rw [addArchRules, hlist, Option.bind_eq_bind, Option.bind_some, hmid]
        exact e
      · intro hb
        exact ha.built (addPolicyRules_built hb hmid)
      · have h₁ := addPolicyRules_length hmid
        have h₂ := ha.length
        rw [List.length_cons, Nat.add_mul, Nat.one_mul]
        unfold Policies.ruleBound at h₂ ⊢
        omega
      · intro data hc hr
        obtain ⟨hclean, hc⟩ := List.forall_mem_cons.mp hc
        exact ha.clean data hc (addPolicyRules_clean hclean hr hmid)
      · intro data r hc hd
        obtain ⟨hclean, hc⟩ := List.forall_mem_cons.mp hc
        cases hd with
        | found h =>
            have hexists : ∃ r', ListsDecide policies main data
                (archs.filterMap (syscallsLookup platform)) r' :=
              inTurn_exists fun _ => policyDecides_exists
            obtain ⟨r', hr'⟩ := hexists
            rw [ha.decides data r' hc hr', addPolicyRules_decides hclean hmid h, Option.or_assoc]
            rfl
        | next h hrest =>
            rw [ha.decides data r hc hrest, addPolicyRules_decides hclean hmid h, Option.or_none]

/-! ## A call that no rule is for -/

theorem clean_zero {e : Expr Arg} : e.Clean fun _ => 0 := by
  have hzero : ∀ o : Operand Arg, o.ZeroExtended fun _ => 0 := by
    intro o
    induction o with
    | number => trivial
    | var v =>
        intro _
        exact high_eq_zero_iff.mpr (Nat.two_pow_pos 32)
    | bit op left right ihl ihr => exact ⟨ihl, ihr⟩
  induction e with
  | tt | ff => trivial
  | not child ih => exact ih
  | logic op left right ihl ihr => exact ⟨ihl, ihr⟩
  | cmp op left right =>
      intro _
      exact ⟨hzero left, hzero right⟩

/-- The call of a number, its arguments all 0. -/
def plainCall (nr arch : UInt32) : SeccompData := ⟨nr, arch, 0, fun _ => 0⟩

theorem cleanFor_plainCall {nr arch : UInt32} : CleanFor policies lists (plainCall nr arch) := by
  intro list _ i entry _ filter _ _ expr _
  exact clean_zero

/-- Fewer rules than numbers. -/
theorem exists_unused (h : rules.length < 2 ^ 32) :
    ∃ nr : UInt32, ∀ rule ∈ rules, rule.first ≠ nr := by
  by_contra hall
  simp only [not_exists, not_forall, not_not] at hall
  have hsub : List.range (2 ^ 32) ⊆ rules.map fun rule => rule.first.toNat := by
    intro n hn
    obtain ⟨rule, hrule, hfirst⟩ := hall (UInt32.ofNat n)
    refine List.mem_map.mpr ⟨rule, hrule, ?_⟩
    rw [hfirst]
    exact Nat.mod_eq_of_lt (List.mem_range.mp hn)
  have hle := (List.subperm_of_subset List.nodup_range hsub).length_le
  rw [List.length_range, List.length_map] at hle
  omega

/-- No rule decides on its number. -/
theorem findSome?_unused {nr arch : UInt32} (hb : Built rules)
    (h : ∀ rule ∈ rules, rule.first ≠ nr) :
    rules.findSome? (RangeRule.decides (plainCall nr arch)) = none := by
  rw [List.findSome?_eq_none_iff]
  intro rule hrule
  rw [(hb.single rule hrule).decides_eq]
  exact if_neg (h rule hrule)

/-! ## One group -/

/-- The lists of a group. -/
def groupLists (platform : Platform) (mask : UInt32) : List SyscallList :=
  (Bits.each 32 mask).filterMap (syscallsLookup platform)

/-- Code for a group: an exit with the default action, or the newest instruction. -/
structure GroupCode (platform : Platform) (policies : Policies) (main : Nat) (default : Action)
    (mask : UInt32) (c : CodegenCtxt) (l : Loc) (c' : CodegenCtxt) : Prop where
  ready : c'.Ready
  grows : Grows c c'
  place : l = .exit default ∨ l = .code (c'.buffer.length - 1) ∧ c.buffer.length < c'.buffer.length
  reaches : ∀ data r, CleanFor policies (groupLists platform mask) data →
    ListsDecide policies main data (groupLists platform mask) r →
    Reaches data c' l (r.getD default)

theorem GroupCode.valid (h : GroupCode platform policies main default mask c l c') :
    l.Valid c'.buffer := by
  rcases h.place with rfl | ⟨rfl, hlt⟩
  · trivial
  · show c'.buffer.length - 1 < c'.buffer.length
    omega

/-- A load of a word of the call, in front of code that goes by it. -/
theorem reaches_load (off : Nat) {w : UInt32} (hoff : data.word off = w) (hc : c.Ready)
    (hne : c.buffer ≠ []) (hs : ∀ m, Sound m (.ldAbs off))
    (h : (Bpf.Loc.code (c.buffer.length - 1) : Loc).Leads actionToBpf data.word c.buffer
      (fun s => s.a = w) action) :
    Reaches data (addInstruction c (.ldAbs off)) (.code c.buffer.length) action := by
  intro s _
  have he : Emitted c [.ldAbs off] (addInstruction c (.ldAbs off)) :=
    emitted_push hc hne rfl fun m _ => hs m
  have hrun := run_front (d := data.word) (s := s) he rfl
  have hlen : (addInstruction c (.ldAbs off)).buffer.length - 1 = c.buffer.length := rfl
  rw [hlen] at hrun
  rw [hrun]
  exact h _ hoff

/-- **`compile_policy_for_archs`.** -/
theorem compilePolicyForArchs_spec (default : Action) (h : c.Ready)
    (hl : ∀ arch ∈ Bits.each 32 mask, ∃ list, syscallsLookup platform arch = some list)
    (hv : ValidFor policies (groupLists platform mask))
    (hlen : (groupLists platform mask).length * policies.ruleBound main < 2 ^ 31) :
    ∃ l c', compilePolicyForArchs platform policies main default c mask = some (l, c') ∧
      GroupCode platform policies main default mask c l c' := by
  obtain ⟨rules, e₁, hrules⟩ := addArchRules_spec main [] hl hv
  have hbuilt := hrules.built built_nil
  have hlength : rules.length < 2 ^ 31 := by
    have hle := hrules.length
    rw [List.length_nil, Nat.zero_add] at hle
    exact Nat.lt_of_le_of_lt hle hlen
  have hclean : ∀ data, CleanFor policies (groupLists platform mask) data →
      ∀ rule ∈ rules, rule.Clean data := by
    intro data hc
    refine hrules.clean data hc ?_
    intro rule hrule
    cases hrule
  obtain ⟨out, e₂, hnormal⟩ := normalizeRules_spec default hbuilt hlength hclean
  obtain ⟨l, c₁, e₃, hready, hgrows, hvalid, hplace, hleads⟩ :=
    generateRules_spec default h hnormal.done
  -- what the table comes to is what the lists decide
  have hvalue : ∀ data r, CleanFor policies (groupLists platform mask) data →
      ListsDecide policies main data (groupLists platform mask) r →
      tableValue default data out = r.getD default := by
    intro data r hc hd
    rw [hnormal.value, found, hrules.decides data r hc hd]
    rfl
  have hcompile : compilePolicyForArchs platform policies main default c mask =
      if l.isAfter c.buffer.length then
        some (.code c₁.buffer.length, addInstruction c₁ (.ldAbs 0))
      else some (.exit default, c₁) := by
    rw [compilePolicyForArchs, e₁, Option.bind_eq_bind, Option.bind_some, e₂, Option.bind_some, e₃]
    rfl
  rw [hcompile]
  rcases hplace with ⟨a, rfl⟩ | ⟨rfl, hlt⟩
  · -- no instruction is reached: the action is that of a number no rule is for
    have hconst : ∀ data, CleanFor policies (groupLists platform mask) data →
        tableValue default data out = a := by
      intro data hc
      have hrun := hleads data hc ⟨data.nr, 0, fun _ => 0⟩ rfl
      exact (actionToBpf_inj (Option.some.inj hrun)).symm
    have hfew : rules.length < 2 ^ 32 := by omega
    obtain ⟨nr, hnr⟩ := exists_unused hfew
    have hdefault : default = a := by
      have ha := hconst (plainCall nr 0) cleanFor_plainCall
      rw [hnormal.value, found, findSome?_unused hbuilt hnr] at ha
      exact ha
    refine ⟨_, c₁, rfl, hready, hgrows, .inl rfl, ?_⟩
    intro data r hc hd
    rw [← hvalue data r hc hd, hconst data hc, hdefault]
    exact Bpf.Loc.leads_exit
  · have hne : c₁.buffer ≠ [] := List.ne_nil_of_length_pos (by omega)
    have hafter : (Bpf.Loc.code (c₁.buffer.length - 1) : Loc).isAfter c.buffer.length = true :=
      decide_eq_true (by omega)
    have hsound : ∀ m, Sound m (.ldAbs 0) := fun m => ⟨rfl, by show 0 < 64; omega⟩
    rw [hafter, if_pos rfl]
    refine ⟨_, _, rfl, ready_straight hready hne rfl, hgrows.trans (grows_push fun m _ => hsound m),
      .inr ⟨rfl, Nat.lt_succ_of_lt hlt⟩, ?_⟩
    intro data r hc hd
    rw [← hvalue data r hc hd]
    exact reaches_load _ rfl hready hne hsound (hleads data hc)

/-! ## The groups -/

/-- The lists that go by the number `arch`, in the order of their bits. -/
def listsOf (platform : Platform) (targets : List UInt32) (arch : UInt32) : List SyscallList :=
  (targets.filterMap (syscallsLookup platform)).filter fun list => list.auditArch = arch

/-- A target is in the table under this number. -/
def HasAudit (platform : Platform) (target arch : UInt32) : Prop :=
  ∃ list, syscallsLookup platform target = some list ∧ list.auditArch = arch

/-- The groups of the targets gone through: one for each number, with their bits. -/
structure Grouped (platform : Platform) (targets : List UInt32) (groups : List (UInt32 × UInt32)) :
    Prop where
  nodup : (groups.map Prod.fst).Nodup
  bits : ∀ group ∈ groups, ∀ k, Bits.Has group.2 k ↔
    ∃ b ∈ targets, b.toNat = 2 ^ k ∧ HasAudit platform b group.1
  complete : ∀ b ∈ targets, ∀ arch, HasAudit platform b arch → arch ∈ groups.map Prod.fst
  inhabited : ∀ arch ∈ groups.map Prod.fst, ∃ b ∈ targets, HasAudit platform b arch
  length : groups.length ≤ targets.length

theorem grouped_nil : Grouped platform [] [] where
  nodup := List.nodup_nil
  bits := by
    intro group hg
    cases hg
  complete := by
    intro b hb
    cases hb
  inhabited := by
    intro arch harch
    cases harch
  length := Nat.le_refl 0

theorem length_addArch {audit target : UInt32} :
    (addArch audit target groups).length ≤ groups.length + 1 := by
  induction groups with
  | nil => exact Nat.le_refl _
  | cons group groups ih =>
      rw [addArch]
      split
      case isTrue => exact Nat.le_succ _
      case isFalse => exact Nat.succ_le_succ ih

theorem fst_addArch {audit target : UInt32} :
    (addArch audit target groups).map Prod.fst =
      if audit ∈ groups.map Prod.fst then groups.map Prod.fst
      else groups.map Prod.fst ++ [audit] := by
  induction groups with
  | nil => rfl
  | cons group groups ih =>
      rw [addArch, List.map_cons]
      by_cases heq : group.1 = audit
      · rw [if_pos heq, if_pos (List.mem_cons.mpr (.inl heq.symm))]
        rfl
      · rw [if_neg heq, List.map_cons, ih]
        by_cases hmem : audit ∈ groups.map Prod.fst
        · rw [if_pos hmem, if_pos (List.mem_cons_of_mem _ hmem)]
        · rw [if_neg hmem, if_neg, List.cons_append]
          rintro h
          exact (List.mem_cons.mp h).elim (fun h => heq h.symm) hmem

/-- A group after one more target. -/
theorem mem_addArch {audit target : UInt32} (hnodup : (groups.map Prod.fst).Nodup)
    {group : UInt32 × UInt32} (h : group ∈ addArch audit target groups) :
    group.1 ≠ audit ∧ group ∈ groups ∨
      group.1 = audit ∧ ((∃ mask, (audit, mask) ∈ groups ∧ group.2 = mask ||| target) ∨
        audit ∉ groups.map Prod.fst ∧ group.2 = target) := by
  induction groups with
  | nil =>
      obtain rfl := List.mem_singleton.mp h
      exact .inr ⟨rfl, .inr ⟨List.not_mem_nil, rfl⟩⟩
  | cons g groups ih =>
      obtain ⟨hnotin, hrest⟩ := List.nodup_cons.mp hnodup
      rw [addArch] at h
      by_cases heq : g.1 = audit
      · rw [if_pos heq] at h
        rcases List.mem_cons.mp h with rfl | h
        · exact .inr ⟨heq, .inl ⟨g.2, heq ▸ List.mem_cons_self, rfl⟩⟩
        · refine .inl ⟨?_, List.mem_cons_of_mem _ h⟩
          rintro heq'
          exact hnotin (heq.trans heq'.symm ▸ List.mem_map_of_mem h)
      · rw [if_neg heq] at h
        rcases List.mem_cons.mp h with rfl | h
        · exact .inl ⟨heq, List.mem_cons_self⟩
        · rcases ih hrest h with ⟨hne, hmem⟩ | ⟨ha, ⟨mask, hmem, hb⟩ | ⟨hno, hb⟩⟩
          · exact .inl ⟨hne, List.mem_cons_of_mem _ hmem⟩
          · exact .inr ⟨ha, .inl ⟨mask, List.mem_cons_of_mem _ hmem, hb⟩⟩
          · refine .inr ⟨ha, .inr ⟨?_, hb⟩⟩
            intro hmem
            exact (List.mem_cons.mp hmem).elim (fun h => heq h.symm) hno

theorem has_or {x y : UInt32} {k : Nat} : Bits.Has (x ||| y) k ↔ Bits.Has x k ∨ Bits.Has y k := by
  unfold Bits.Has
  rw [UInt32.toNat_or, Nat.testBit_or, Bool.or_eq_true]

theorem has_bit {b : UInt32} {j k : Nat} (hb : b.toNat = 2 ^ j) :
    Bits.Has b k ↔ b.toNat = 2 ^ k := by
  unfold Bits.Has
  rw [hb, Nat.testBit_two_pow, decide_eq_true_iff]
  constructor
  · rintro rfl
    rfl
  · intro h
    exact Nat.pow_right_injective (Nat.le_refl 2) h

theorem Grouped.add {target : UInt32} (h : Grouped platform targets groups)
    (hlist : syscallsLookup platform target = some list) (hbit : ∃ k, target.toNat = 2 ^ k) :
    Grouped platform (targets ++ [target]) (addArch list.auditArch target groups) where
  nodup := by
    rw [fst_addArch]
    split
    case isTrue => exact h.nodup
    case isFalse hno =>
        refine List.nodup_append.mpr ⟨h.nodup, List.nodup_singleton _, ?_⟩
        intro a ha b hb hab
        obtain rfl := List.mem_singleton.mp hb
        exact hno (hab ▸ ha)
  bits := by
    obtain ⟨j, hj⟩ := hbit
    intro group hg k
    have haudit : ∀ arch, HasAudit platform target arch ↔ list.auditArch = arch := by
      intro arch
      unfold HasAudit
      rw [hlist]
      constructor
      · rintro ⟨l, hl, ha⟩
        obtain rfl := Option.some.inj hl
        exact ha
      · intro ha
        exact ⟨list, rfl, ha⟩
    simp only [List.mem_append, List.mem_singleton, or_and_right, exists_or, exists_eq_left, haudit]
    rcases mem_addArch h.nodup hg with ⟨hne, hmem⟩ | ⟨ha, ⟨mask, hmem, hb⟩ | ⟨hno, hb⟩⟩
    · rw [h.bits group hmem k]
      constructor
      · exact .inl
      · rintro (h | ⟨-, ha⟩)
        · exact h
        · exact absurd ha.symm hne
    · rw [hb, has_or, h.bits _ hmem k, has_bit hj, ha]
      simp
    · rw [hb, has_bit hj, ha]
      constructor
      · intro hk
        exact .inr ⟨hk, rfl⟩
      · rintro (⟨b, hb', -, ha'⟩ | ⟨hk, -⟩)
        · exact absurd (h.complete b hb' _ ha') hno
        · exact hk
  complete := by
    intro b hb arch harch
    rw [fst_addArch]
    rcases List.mem_append.mp hb with hb | hb
    · have hmem := h.complete b hb arch harch
      split
      case isTrue => exact hmem
      case isFalse => exact List.mem_append_left _ hmem
    · obtain rfl := List.mem_singleton.mp hb
      obtain ⟨l, hl, rfl⟩ := harch
      rw [hlist] at hl
      obtain rfl := Option.some.inj hl
      split
      case isTrue hmem => exact hmem
      case isFalse => exact List.mem_append_right _ (List.mem_singleton.mpr rfl)
  inhabited := by
    intro arch harch
    have hold : arch ∈ groups.map Prod.fst →
        ∃ b ∈ targets ++ [target], HasAudit platform b arch := by
      intro hmem
      obtain ⟨b, hb, ha⟩ := h.inhabited arch hmem
      exact ⟨b, List.mem_append_left _ hb, ha⟩
    rw [fst_addArch] at harch
    split at harch
    case isTrue => exact hold harch
    case isFalse =>
        rcases List.mem_append.mp harch with hmem | hmem
        · exact hold hmem
        · obtain rfl := List.mem_singleton.mp hmem
          exact ⟨target, List.mem_append_right _ (List.mem_singleton.mpr rfl), list, hlist, rfl⟩
  length := by
    rw [List.length_append]
    exact Nat.le_trans length_addArch (Nat.succ_le_succ h.length)

/-- **The loop that fills `archs`** has room. -/
theorem groupArchs_spec {seen : List UInt32} (h : Grouped platform seen groups)
    (hl : ∀ target ∈ targets, ∃ list, syscallsLookup platform target = some list)
    (hbit : ∀ target ∈ targets, ∃ k, target.toNat = 2 ^ k)
    (hlen : seen.length + targets.length ≤ 32) :
    ∃ groups', groupArchs platform targets groups = some groups' ∧
      Grouped platform (seen ++ targets) groups' := by
  induction targets generalizing seen groups with
  | nil =>
      rw [List.append_nil]
      exact ⟨groups, rfl, h⟩
  | cons target targets ih =>
      obtain ⟨⟨list, hlist⟩, hl⟩ := List.forall_mem_cons.mp hl
      obtain ⟨hb, hbit⟩ := List.forall_mem_cons.mp hbit
      have hadd := h.add hlist hb
      rw [List.length_cons] at hlen
      have hroom : (addArch list.auditArch target groups).length ≤ 32 := by
        have := hadd.length
        rw [List.length_append, List.length_singleton] at this
        omega
      obtain ⟨groups', e, hg⟩ := ih hadd hl hbit (by
        rw [List.length_append, List.length_singleton]
        omega)
      refine ⟨groups', ?_, by rwa [List.append_assoc] at hg⟩
      rw [groupArchs, hlist, Option.bind_eq_bind, Option.bind_some]
      dsimp only
      rw [if_pos hroom]
      exact e

theorem length_each {n : Nat} {x : UInt32} : (Bits.each n x).length ≤ n := by
  induction n generalizing x with
  | zero => exact Nat.le_refl 0
  | succ n ih =>
      rw [Bits.each]
      split
      case isTrue => exact Nat.zero_le _
      case isFalse => exact Nat.succ_le_succ ih

/-- **A group has the lists of its number**, in their order. -/
theorem Grouped.groupLists_eq {x : UInt32} (h : Grouped platform (Bits.each 32 x) groups)
    {group : UInt32 × UInt32} (hg : group ∈ groups) :
    groupLists platform group.2 = listsOf platform (Bits.each 32 x) group.1 := by
  have heach : Bits.each 32 group.2 = (Bits.each 32 x).filter fun b =>
      ((syscallsLookup platform b).map SyscallList.auditArch) = some group.1 := by
    refine Bits.pairwise_each.eq_of_mem_iff (Bits.pairwise_each.filter _) ?_
    intro b
    have haudit : HasAudit platform b group.1 ↔
        ((syscallsLookup platform b).map SyscallList.auditArch) = some group.1 := by
      rw [Option.map_eq_some_iff]
      rfl
    rw [Bits.mem_each, List.mem_filter, decide_eq_true_iff, ← haudit]
    constructor
    · rintro ⟨k, hk, hb⟩
      obtain ⟨b', hb', hbk, ha⟩ := (h.bits group hg k).mp hk
      obtain rfl : b' = b := UInt32.toNat_inj.mp (hbk.trans hb.symm)
      exact ⟨hb', ha⟩
    · rintro ⟨hb, ha⟩
      obtain ⟨k, -, hk⟩ := Bits.mem_each.mp hb
      exact ⟨k, (h.bits group hg k).mpr ⟨b, hb, hk, ha⟩, hk⟩
  rw [groupLists, listsOf, heach]
  induction Bits.each 32 x with
  | nil => rfl
  | cons b bs ih =>
      cases hb : syscallsLookup platform b with
      | none =>
          rw [List.filterMap_cons_none hb, List.filter_cons_of_neg (by simp [hb])]
          exact ih
      | some list =>
          rw [List.filterMap_cons_some hb]
          by_cases ha : list.auditArch = group.1
          · rw [List.filter_cons_of_pos (by simp [hb, ha]), List.filterMap_cons_some hb,
              List.filter_cons_of_pos (by simp [ha]), ih]
          · rw [List.filter_cons_of_neg (by simp [hb, ha]), List.filter_cons_of_neg (by simp [ha]),
              ih]

end Kafel
