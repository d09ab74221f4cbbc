/-
# `YaojJudger.Kafel.Tree` — `generate_rules`: a search tree over the numbers

The rules of a finished table are gone through from the highest number down, each
a leaf of a tree of `JGE` jumps.  The trees not yet joined stand on a stack of 33
places: two of one level become one of the next, as in a binary counter, and a
rule that goes where the one before it goes is joined to that without a jump.

A tree of level `k` is over at least `2 ^ k` numbers, and the trees that stand on
the stack when a leaf is put there have different levels.  So there are never more
than 33 (`two_pow_length_le`): the array is not overrun.

**Proved here.**  With the number of the call in the accumulator the tree goes on
at what the table comes to (`generateRules_spec`).
-/
import YaojJudger.Kafel.Cond

namespace Kafel

open Bpf

/-- An element of `buf`. -/
structure Node where
  level : Nat
  action : Loc
  nr : UInt32

/-- The first loop over `buf`: trees of one level are joined.  The newest tree is `top`. -/
def mergeLevels (ctxt : CodegenCtxt) (top : Node) : List Node → Option (List Node × CodegenCtxt)
  | [] => some ([top], ctxt)
  | node :: buf =>
    if node.level = top.level then do
      let (action, ctxt) ← addJump ctxt .jge (.k node.nr) node.action top.action
      mergeLevels ctxt ⟨node.level + 1, action, top.nr⟩ buf
    else some (top :: node :: buf, ctxt)

/-- The second: all are joined. -/
def mergeAll (ctxt : CodegenCtxt) (top : Node) : List Node → Option (Loc × CodegenCtxt)
  | [] => some (top.action, ctxt)
  | node :: buf => do
    let (action, ctxt) ← addJump ctxt .jge (.k node.nr) node.action top.action
    mergeAll ctxt ⟨node.level, action, top.nr⟩ buf

/-- The body of the loop over the rules; none if an assertion fails, or `buf` has no room. -/
def rulesStep (ctxt : CodegenCtxt) (buf : List Node) (rule : RangeRule) :
    Option (List Node × CodegenCtxt) := do
  let (action, ctxt) ← generateAction ctxt rule
  match buf with
  | [] => some ([⟨0, action, rule.first⟩], ctxt)
  | top :: rest =>
    if rule.last + 1 ≠ top.nr then none
    else if top.action = action then some ({ top with nr := rule.first } :: rest, ctxt)
    else do
      let (buf, ctxt) ← mergeLevels ctxt top rest
      if buf.length < 33 then some (⟨0, action, rule.first⟩ :: buf, ctxt) else none

/-- The loop, from the last rule to the first. -/
def rulesLoop (ctxt : CodegenCtxt) : List RangeRule → Option (List Node × CodegenCtxt)
  | [] => some ([], ctxt)
  | rule :: rules => do
    let (buf, ctxt) ← rulesLoop ctxt rules
    rulesStep ctxt buf rule

/-- `generate_rules`. -/
def generateRules (ctxt : CodegenCtxt) (rules : List RangeRule) : Option (Loc × CodegenCtxt) := do
  let (buf, ctxt) ← rulesLoop ctxt rules
  match buf with
  | [] => none
  | top :: buf => if top.nr = 0 then mergeAll ctxt top buf else none

/-! ## How many trees -/

theorem sum_two_pow {l : List Nat} {k : Nat} (hl : l.Pairwise (· < ·)) (hk : ∀ x ∈ l, k ≤ x) :
    (2 ^ l.length - 1) * 2 ^ k ≤ (l.map (2 ^ ·)).sum := by
  induction l generalizing k with
  | nil => exact Nat.le_of_eq (Nat.zero_mul _)
  | cons a l ih =>
      obtain ⟨ha, hl⟩ := List.pairwise_cons.mp hl
      have hrest := ih hl ha
      have hka : 2 ^ k ≤ 2 ^ a := Nat.pow_le_pow_right (Nat.le_succ 1) (hk a List.mem_cons_self)
      have hpos : 1 ≤ 2 ^ l.length := Nat.one_le_two_pow
      have hlen : 2 ^ (a :: l).length - 1 = 2 * (2 ^ l.length - 1) + 1 := by
        rw [List.length_cons, Nat.pow_succ]
        omega
      calc (2 ^ (a :: l).length - 1) * 2 ^ k
          ≤ (2 ^ (a :: l).length - 1) * 2 ^ a := Nat.mul_le_mul_left _ hka
        _ = 2 ^ a + (2 ^ l.length - 1) * 2 ^ (a + 1) := by
            rw [hlen, Nat.pow_succ, Nat.add_mul, Nat.one_mul, Nat.mul_comm (2 ^ a) 2,
              ← Nat.mul_assoc, Nat.mul_comm 2, Nat.add_comm]
        _ ≤ ((a :: l).map (2 ^ ·)).sum := by
            rw [List.map_cons, List.sum_cons]
            exact Nat.add_le_add_left hrest _

/-- **Different levels**: as many trees are over as many numbers as there are below `2 ^ n`. -/
theorem two_pow_length_le {l : List Nat} (hl : l.Pairwise (· < ·)) :
    2 ^ l.length ≤ (l.map (2 ^ ·)).sum + 1 := by
  have h := sum_two_pow hl fun x _ => Nat.zero_le x
  rw [Nat.pow_zero, Nat.mul_one] at h
  omega

variable {D : SeccompData → Prop} {v v' : SeccompData → Action} {data : SeccompData}
  {c c' c'' : CodegenCtxt} {node top : Node} {buf buf' : List Node} {rule : RangeRule}
  {rules : List RangeRule} {hi lo : Nat} {l tloc floc : Loc} {default : Action} {p : List Instr}

/-! ## What the stack holds -/

/-- From here on the number of the call is in the accumulator. -/
abbrev HasNr (data : SeccompData) (s : St) : Prop := s.a = data.nr

/-- A tree goes on at the action of each number from its own up to `hi`. -/
structure Node.Serves (D : SeccompData → Prop) (v : SeccompData → Action) (c : CodegenCtxt)
    (node : Node) (hi : Nat) : Prop where
  valid : node.action.Valid c.buffer
  leads : ∀ data, D data → node.nr.toNat ≤ data.nr.toNat → data.nr.toNat < hi →
    node.action.Leads actionToBpf data.word c.buffer (HasNr data) (v data)

/-- The number behind the trees not yet joined. -/
def upTo : List Node → Nat
  | [] => 2 ^ 32
  | node :: _ => node.nr.toNat

/-- Every tree serves the numbers up to the next, and is over as many as its level says. -/
def Served (D : SeccompData → Prop) (v : SeccompData → Action) (c : CodegenCtxt) :
    List Node → Prop
  | [] => True
  | node :: buf =>
    node.Serves D v c (upTo buf) ∧ node.nr.toNat + 2 ^ node.level ≤ upTo buf ∧ Served D v c buf

/-- Neighbours go on at different places. -/
def Apart (buf : List Node) : Prop := buf.IsChain fun a b => a.action ≠ b.action

theorem Node.Serves.mono (h : node.Serves D v c hi) (hg : Grows c c') :
    node.Serves D v c' hi where
  valid := h.valid.suffix hg.suffix
  leads := by
    intro data hD hlo hhi
    exact (h.leads data hD hlo hhi).suffix hg.suffix h.valid

theorem Node.Serves.congr (h : node.Serves D v c hi)
    (hv : ∀ data, D data → node.nr.toNat ≤ data.nr.toNat → v data = v' data) :
    node.Serves D v' c hi where
  valid := h.valid
  leads := by
    intro data hD hlo hhi
    exact hv data hD hlo ▸ h.leads data hD hlo hhi

theorem Served.mono (h : Served D v c buf) (hg : Grows c c') : Served D v c' buf := by
  induction buf with
  | nil => trivial
  | cons node buf ih => exact ⟨h.1.mono hg, h.2.1, ih h.2.2⟩

theorem Served.lt (h : Served D v c (node :: buf)) : node.nr.toNat < upTo buf := by
  have := h.2.1
  have hpos : 0 < 2 ^ node.level := Nat.two_pow_pos _
  omega

/-- Another value below the first tree. -/
theorem Served.congr (h : Served D v c buf)
    (hv : ∀ data, D data → upTo buf ≤ data.nr.toNat → v data = v' data) : Served D v' c buf := by
  induction buf with
  | nil => trivial
  | cons node buf ih =>
      refine ⟨h.1.congr hv, h.2.1, ih h.2.2 ?_⟩
      intro data hD hle
      exact hv data hD (Nat.le_trans (Nat.le_of_lt h.lt) hle)

/-- The trees are over different numbers. -/
theorem Served.sum_le (h : Served D v c buf) :
    (buf.map fun node => 2 ^ node.level).sum + upTo buf ≤ 2 ^ 32 := by
  induction buf with
  | nil => exact Nat.le_of_eq (Nat.zero_add _)
  | cons node buf ih =>
      have hrest := ih h.2.2
      have hnode := h.2.1
      rw [List.map_cons, List.sum_cons]
      show _ + node.nr.toNat ≤ 2 ^ 32
      omega

/-- **There is room for one more.** -/
theorem Served.length_lt (h : Served D v c buf)
    (hlevels : (buf.map Node.level).Pairwise (· < ·)) : buf.length < 33 := by
  have hle := two_pow_length_le hlevels
  have hsum := h.sum_le
  rw [List.map_map, List.length_map] at hle
  have hcomp : ((2 ^ ·) ∘ Node.level) = fun node : Node => 2 ^ node.level := rfl
  rw [hcomp] at hle
  by_contra hlong
  have hpow : 2 ^ 33 ≤ 2 ^ buf.length := Nat.pow_le_pow_right (Nat.le_succ 1) (Nat.not_lt.mp hlong)
  omega

/-! ## Joining two trees -/

/-- Two trees become one. -/
theorem join_spec (h : c.Ready) (hs : Served D v c (top :: node :: buf))
    (hne : node.action ≠ top.action) :
    ∃ c', addJump c .jge (.k node.nr) node.action top.action =
        some (.code (c'.buffer.length - 1), c') ∧
      c'.Ready ∧ Grows c c' ∧ c.buffer.length < c'.buffer.length ∧
      ∀ level, (⟨level, .code (c'.buffer.length - 1), top.nr⟩ : Node).Serves D v c' (upTo buf) := by
  obtain ⟨htop, _, hnode, _, _⟩ := hs
  obtain ⟨c', e, hlt, hb⟩ := addJump_new .jge (.k node.nr) h hnode.valid htop.valid hne
  refine ⟨c', e, hb.ready, hb.grows, hlt, fun level => ⟨?_, ?_⟩⟩
  · show c'.buffer.length - 1 < c'.buffer.length
    omega
  · intro data hD hlo hhi s hs
    rw [hb.run]
    show (if decide (node.nr ≤ s.a) = true then node.action else top.action).run _ _ _ _ = _
    rw [show s.a = data.nr from hs]
    by_cases hle : node.nr ≤ data.nr
    · rw [if_pos (decide_eq_true hle)]
      exact hnode.leads data hD (UInt32.le_iff_toNat_le.mp hle) hhi s hs
    · rw [if_neg (by rw [decide_eq_false hle]; exact Bool.false_ne_true)]
      rw [UInt32.le_iff_toNat_le] at hle
      exact htop.leads data hD hlo (Nat.not_le.mp hle) s hs

/-- An old location is not the newest. -/
theorem ne_newest (hl : l.Valid c.buffer) (hlt : c.buffer.length < c'.buffer.length) :
    l ≠ .code (c'.buffer.length - 1) := by
  rintro rfl
  have hl : c'.buffer.length - 1 < c.buffer.length := hl
  omega

theorem Apart.cons (h : Apart buf) (hne : ∀ x ∈ buf, node.action ≠ x.action) :
    Apart (node :: buf) := by
  cases buf with
  | nil => exact List.isChain_singleton _
  | cons x buf => exact List.isChain_cons_cons.mpr ⟨hne x List.mem_cons_self, h⟩

theorem Served.valid (h : Served D v c buf) : ∀ x ∈ buf, x.action.Valid c.buffer := by
  induction buf with
  | nil =>
      intro x hx
      cases hx
  | cons node buf ih => exact List.forall_mem_cons.mpr ⟨h.1.valid, ih h.2.2⟩

/-- The tree on top has been joined to others, or is the one it was. -/
structure Merged (D : SeccompData → Prop) (v : SeccompData → Action) (c : CodegenCtxt) (top : Node)
    (buf' : List Node) (c' : CodegenCtxt) : Prop where
  ready : c'.Ready
  grows : Grows c c'
  served : Served D v c' buf'
  apart : Apart buf'
  levels : (buf'.map Node.level).Pairwise (· < ·)
  top : ∃ top' rest, buf' = top' :: rest ∧ top'.nr = top.nr ∧
    (top'.action = top.action ∨ ∃ n, top'.action = .code n ∧ c.buffer.length ≤ n)

/-- **The first loop over `buf`.** -/
theorem mergeLevels_spec (h : c.Ready) (hs : Served D v c (top :: buf)) (ha : Apart (top :: buf))
    (hlevels : (buf.map Node.level).Pairwise (· < ·)) (htop : ∀ x ∈ buf, top.level ≤ x.level) :
    ∃ buf' c', mergeLevels c top buf = some (buf', c') ∧ Merged D v c top buf' c' := by
  induction buf generalizing c top with
  | nil =>
      refine ⟨[top], c, rfl, h, .refl, hs, ha, List.pairwise_singleton _ _, top, [], rfl, rfl,
        .inl rfl⟩
  | cons node buf ih =>
      obtain ⟨hle, htop'⟩ := List.forall_mem_cons.mp htop
      obtain ⟨hlt, hlevels'⟩ := List.pairwise_cons.mp hlevels
      rw [mergeLevels]
      by_cases heq : node.level = top.level
      · rw [if_pos heq]
        obtain ⟨hne, _⟩ := List.isChain_cons_cons.mp ha
        obtain ⟨c₁, e₁, hready, hgrows, hnew, hserves⟩ := join_spec h hs hne.symm
        have hbuf := hs.2.2.2.2
        have hserved :
            Served D v c₁ (⟨node.level + 1, .code (c₁.buffer.length - 1), top.nr⟩ :: buf) := by
          refine ⟨hserves _, ?_, hbuf.mono hgrows⟩
          have h₁ : top.nr.toNat + 2 ^ top.level ≤ node.nr.toNat := hs.2.1
          have h₂ : node.nr.toNat + 2 ^ node.level ≤ upTo buf := hs.2.2.2.1
          show top.nr.toNat + 2 ^ (node.level + 1) ≤ upTo buf
          rw [heq] at h₂ ⊢
          rw [Nat.pow_succ]
          omega
        have hapart : Apart (⟨node.level + 1, .code (c₁.buffer.length - 1), top.nr⟩ :: buf) :=
          Apart.cons ha.tail.tail fun x hx => (ne_newest (hbuf.valid x hx) hnew).symm
        have hup : ∀ x ∈ buf, node.level + 1 ≤ x.level :=
          fun x hx => hlt _ (List.mem_map_of_mem hx)
        obtain ⟨buf', c', e', hm⟩ := ih hready hserved hapart hlevels' hup
        obtain ⟨top', rest, hb, hnr, hact⟩ := hm.top
        refine ⟨buf', c', ?_, hm.ready, hgrows.trans hm.grows, hm.served, hm.apart, hm.levels,
          top', rest, hb, hnr, .inr ?_⟩
        · rw [e₁, Option.bind_eq_bind, Option.bind_some]
          exact e'
        · rcases hact with hact | ⟨n, hact, hn⟩
          · exact ⟨_, hact, by omega⟩
          · exact ⟨n, hact, by omega⟩
      · rw [if_neg heq]
        refine ⟨top :: node :: buf, c, rfl, h, .refl, hs, ha, ?_, top, node :: buf, rfl, rfl,
          .inl rfl⟩
        refine List.pairwise_cons.mpr ⟨?_, hlevels⟩
        intro m hm
        have hlt' : top.level < node.level := by omega
        rcases List.mem_cons.mp hm with rfl | hm
        · exact hlt'
        · exact Nat.lt_trans hlt' (hlt m hm)

/-! ## The loop over the rules -/

/-- The stack when the rules from `lo` up are done. -/
structure Stacked (D : SeccompData → Prop) (v : SeccompData → Action) (c : CodegenCtxt)
    (buf : List Node) (lo : Nat) (c' : CodegenCtxt) : Prop where
  ready : c'.Ready
  grows : Grows c c'
  served : Served D v c' buf
  apart : Apart buf
  levels : (buf.tail.map Node.level).Pairwise (· < ·)
  top : ∀ top rest, buf = top :: rest → ∀ x ∈ rest, top.level ≤ x.level
  upTo_eq : upTo buf = lo
  single : ∀ node, buf = [node] → (∃ action, node.action = .exit action) ∨
    node.nr.toNat + 1 = 2 ^ 32

theorem outcome_of_finished (h : rule.Finished) (args : Fin 6 → UInt64) :
    ∃ action, rule.outcome args = some action := by
  rcases h.shape with ⟨action, ha⟩ | ⟨ha, _, hl⟩
  · exact ⟨action, outcome_of_some ha⟩
  · rw [outcome_of_none ha]
    exact ladderOutcome_isSome hl

/-- A rule's location serves its numbers. -/
theorem leaf_serves (default : Action) (level : Nat) (rules : List RangeRule) (hr : rule.Finished)
    (hclean : ∀ data, D data → rule.Clean data)
    (hv : Valued c (fun args => rule.sees args) l c') (hlast : rule.last.toNat + 1 = lo) :
    (⟨level, l, rule.first⟩ : Node).Serves D
      (fun data => tableValue default data (rule :: rules)) c'
      lo where
  valid := hv.valid
  leads := by
    intro data hD hlo hhi
    have hcov : rule.Covers data.nr := by
      rw [RangeRule.covers_iff_toNat]
      exact ⟨hlo, by omega⟩
    obtain ⟨action, ha⟩ := outcome_of_finished hr data.args
    rw [tableValue_cons_of_covers hcov, ha, Option.getD_some]
    refine (hv.reaches data action ?_).imp fun _ _ => trivial
    rw [RangeRule.sees_eq_outcome (hclean data hD) hcov, ha]

/-- The rules above do not change what a number below comes to, nor the other way round. -/
theorem served_below (hs : Served D (fun data => tableValue default data rules) c buf)
    (hlast : rule.last.toNat + 1 = upTo buf) :
    Served D (fun data => tableValue default data (rule :: rules)) c buf := by
  refine hs.congr ?_
  intro data _ hle
  rw [tableValue_cons_of_not]
  rw [RangeRule.covers_iff_toNat]
  omega

/-- A rule that goes where the tree on top goes. -/
theorem stacked_continue (hr : rule.Finished) (hclean : ∀ data, D data → rule.Clean data)
    (hs : Stacked D (fun data => tableValue default data rules) c (top :: buf) lo c')
    (hlast : rule.last.toNat + 1 = lo)
    (hv : Valued c' (fun args => rule.sees args) top.action c'') :
    Stacked D (fun data => tableValue default data (rule :: rules)) c
      ({ top with nr := rule.first } :: buf) rule.first.toNat c'' := by
  have hup : top.nr.toNat = lo := hs.upTo_eq
  have hfirst : rule.first.toNat ≤ rule.last.toNat := UInt32.le_iff_toNat_le.mp hr.proper
  have hserved := (served_below hs.served (by rw [hs.upTo_eq]; exact hlast)).mono hv.grows
  have hleaf := leaf_serves default 0 rules hr hclean hv hlast
  refine ⟨hv.ready, hs.grows.trans hv.grows, ⟨⟨hv.valid, ?_⟩, ?_, hserved.2.2⟩, ?_, hs.levels, ?_,
    rfl, ?_⟩
  · intro data hD hlo hhi
    by_cases hle : top.nr.toNat ≤ data.nr.toNat
    · exact hserved.1.leads data hD hle hhi
    · exact hleaf.leads data hD hlo (by omega)
  · have := hserved.2.1
    show rule.first.toNat + 2 ^ top.level ≤ upTo buf
    omega
  · have hapart := hs.apart
    cases buf with
    | nil => exact List.isChain_singleton _
    | cons x buf => exact List.isChain_cons_cons.mpr (List.isChain_cons_cons.mp hapart)
  · intro top' rest h
    obtain ⟨rfl, rfl⟩ := List.cons.inj h
    exact hs.top top _ rfl
  · intro node h
    obtain ⟨rfl, rfl⟩ := List.cons.inj h
    rcases hv.fresh with hexit | hafter
    · exact .inl hexit
    · rw [not_isAfter hs.served.1.valid] at hafter
      cases hafter

/-- A rule that goes elsewhere, on top of the trees joined. -/
theorem stacked_push (hr : rule.Finished) (hclean : ∀ data, D data → rule.Clean data)
    (hs : Stacked D (fun data => tableValue default data rules) c (top :: buf) lo c')
    (hlast : rule.last.toNat + 1 = lo) (hv : Valued c' (fun args => rule.sees args) l c'')
    (hne : top.action ≠ l) :
    ∃ buf' c₃, mergeLevels c'' top buf = some (buf', c₃) ∧ buf'.length < 33 ∧
      Stacked D (fun data => tableValue default data (rule :: rules)) c
        (⟨0, l, rule.first⟩ :: buf') rule.first.toNat c₃ := by
  have hup : top.nr.toNat = lo := hs.upTo_eq
  have hfirst : rule.first.toNat ≤ rule.last.toNat := UInt32.le_iff_toNat_le.mp hr.proper
  have hserved := (served_below hs.served (by rw [hs.upTo_eq]; exact hlast)).mono hv.grows
  obtain ⟨buf', c₃, e, hm⟩ :=
    mergeLevels_spec hv.ready hserved hs.apart hs.levels (hs.top top buf rfl)
  obtain ⟨top', rest, rfl, hnr, hact⟩ := hm.top
  have hup' : upTo (top' :: rest) = lo := by
    show top'.nr.toNat = lo
    rw [hnr, hup]
  refine ⟨_, c₃, e, hm.served.length_lt hm.levels, hm.ready,
    (hs.grows.trans hv.grows).trans hm.grows, ⟨?_, ?_, hm.served⟩, ?_, hm.levels, ?_, rfl, ?_⟩
  · rw [hup']
    exact (leaf_serves default _ rules hr hclean hv hlast).mono hm.grows
  · rw [hup']
    show rule.first.toNat + 2 ^ 0 ≤ lo
    omega
  · refine List.isChain_cons_cons.mpr ⟨?_, hm.apart⟩
    show l ≠ top'.action
    rcases hact with hact | ⟨n, hact, hn⟩
    · rw [hact]
      exact hne.symm
    · rw [hact]
      rintro rfl
      exact absurd hn (Nat.not_le.mpr hv.valid)
  · intro x rest' h y _
    obtain ⟨rfl, _⟩ := List.cons.inj h
    exact Nat.zero_le _
  · intro node h
    cases h

theorem rulesStep_spec (hr : rule.Finished) (hclean : ∀ data, D data → rule.Clean data)
    (hs : Stacked D (fun data => tableValue default data rules) c buf lo c')
    (hlast : rule.last.toNat + 1 = lo) :
    ∃ buf' c'', rulesStep c' buf rule = some (buf', c'') ∧
      Stacked D (fun data => tableValue default data (rule :: rules)) c buf'
        rule.first.toNat c'' := by
  obtain ⟨l, c₁, e₁, hv, hexit⟩ := generateAction_spec hr hs.ready
  unfold rulesStep
  rw [e₁, Option.bind_eq_bind, Option.bind_some]
  cases buf with
  | nil =>
      have hlo : 2 ^ 32 = lo := hs.upTo_eq
      have hfirst : rule.first.toNat ≤ rule.last.toNat := UInt32.le_iff_toNat_le.mp hr.proper
      refine ⟨_, c₁, rfl, hv.ready, hs.grows.trans hv.grows,
        ⟨leaf_serves default _ _ hr hclean hv (hlast.trans hlo.symm), ?_, trivial⟩,
        List.isChain_singleton _,
        List.Pairwise.nil, ?_, rfl, ?_⟩
      · show rule.first.toNat + 2 ^ 0 ≤ 2 ^ 32
        omega
      · intro x rest' h y hy
        obtain ⟨_, rfl⟩ := List.cons.inj h
        cases hy
      · intro node h
        obtain ⟨rfl, _⟩ := List.cons.inj h
        by_cases heq : rule.first = rule.last
        · refine .inr ?_
          show rule.first.toNat + 1 = 2 ^ 32
          rw [heq]
          omega
        · exact .inl (hexit heq)
  | cons top buf =>
      have hup : top.nr.toNat = lo := hs.upTo_eq
      have hnr : rule.last + 1 = top.nr := by
        have hlt : rule.last < top.nr := by
          rw [UInt32.lt_iff_toNat_lt]
          omega
        rw [← UInt32.toNat_inj, toNat_succ hlt]
        omega
      dsimp only
      rw [if_neg (not_not.mpr hnr)]
      by_cases hact : top.action = l
      · subst hact
        rw [if_pos rfl]
        exact ⟨_, c₁, rfl, stacked_continue hr hclean hs hlast hv⟩
      · rw [if_neg hact]
        obtain ⟨buf', c₂, e₂, hlt, hpush⟩ := stacked_push hr hclean hs hlast hv hact
        refine ⟨_, c₂, ?_, hpush⟩
        rw [e₂, Option.bind_eq_bind, Option.bind_some]
        exact if_pos hlt

theorem rulesLoop_spec (default : Action) (h : c.Ready) (hd : Done D lo rules) :
    ∃ buf c', rulesLoop c rules = some (buf, c') ∧
      Stacked D (fun data => tableValue default data rules) c buf lo c' := by
  induction rules generalizing lo with
  | nil =>
      refine ⟨[], c, rfl, h, .refl, trivial, List.isChain_nil, List.Pairwise.nil, ?_,
        (show lo = 2 ^ 32 from hd.tiles).symm, ?_⟩
      · intro top rest he
        cases he
      · intro node he
        cases he
  | cons rule rules ih =>
      obtain ⟨hfirst, _, htiles⟩ := hd.tiles
      obtain ⟨hr, hrs⟩ := List.forall_mem_cons.mp hd.finished
      have hrest : Done D (rule.last.toNat + 1) rules :=
        ⟨htiles, hrs, fun data hD x hx => hd.clean data hD x (List.mem_cons_of_mem _ hx)⟩
      obtain ⟨buf, c', e, hs⟩ := ih hrest
      obtain ⟨buf', c'', e', hs'⟩ := rulesStep_spec hr
        (fun data hD => hd.clean data hD rule List.mem_cons_self) hs rfl
      rw [hfirst] at hs'
      refine ⟨buf', c'', ?_, hs'⟩
      rw [rulesLoop, e]
      exact e'

/-! ## The whole tree -/

/-- **The second loop over `buf`.** -/
theorem mergeAll_spec (h : c.Ready) (hs : Served D v c (top :: buf)) (ha : Apart (top :: buf)) :
    ∃ l c', mergeAll c top buf = some (l, c') ∧ c'.Ready ∧ Grows c c' ∧
      (buf = [] ∧ l = top.action ∨ l = .code (c'.buffer.length - 1) ∧
        c.buffer.length < c'.buffer.length) ∧
      ∀ level, (⟨level, l, top.nr⟩ : Node).Serves D v c' (2 ^ 32) := by
  induction buf generalizing c top with
  | nil =>
      exact ⟨top.action, c, rfl, h, .refl, .inl ⟨rfl, rfl⟩, fun _ => ⟨hs.1.valid, hs.1.leads⟩⟩
  | cons node buf ih =>
      obtain ⟨hne, _⟩ := List.isChain_cons_cons.mp ha
      obtain ⟨c₁, e₁, hready, hgrows, hnew, hserves⟩ := join_spec h hs hne.symm
      have hbuf := hs.2.2.2.2
      have hserved : Served D v c₁ (⟨node.level, .code (c₁.buffer.length - 1), top.nr⟩ :: buf) := by
        refine ⟨hserves _, ?_, hbuf.mono hgrows⟩
        have h₁ : top.nr.toNat < node.nr.toNat := hs.lt
        have h₂ : node.nr.toNat + 2 ^ node.level ≤ upTo buf := hs.2.2.2.1
        show top.nr.toNat + 2 ^ node.level ≤ upTo buf
        omega
      have hapart : Apart (⟨node.level, .code (c₁.buffer.length - 1), top.nr⟩ :: buf) :=
        Apart.cons ha.tail.tail fun x hx => (ne_newest (hbuf.valid x hx) hnew).symm
      obtain ⟨l, c', e', hready', hgrows', hl, hall⟩ := ih hready hserved hapart
      have hle := hgrows'.suffix.length_le
      refine ⟨l, c', ?_, hready', hgrows.trans hgrows', .inr ?_, hall⟩
      · rw [mergeAll, e₁, Option.bind_eq_bind, Option.bind_some]
        exact e'
      · rcases hl with ⟨rfl, hl⟩ | ⟨hl, hlt⟩
        · obtain ⟨hc', hl'⟩ : c' = c₁ ∧ l = .code (c₁.buffer.length - 1) := by
            have := Option.some.inj e'
            exact ⟨(congrArg Prod.snd this).symm, hl⟩
          rw [hc']
          exact ⟨hl', hnew⟩
        · exact ⟨hl, by omega⟩

/-- **`generate_rules`** returns on a finished table, and `buf` has room.  With the number
of the call in the accumulator the tree comes to what the table does. -/
theorem generateRules_spec (default : Action) (h : c.Ready) (hd : Done D 0 rules) :
    ∃ l c', generateRules c rules = some (l, c') ∧ c'.Ready ∧ Grows c c' ∧ l.Valid c'.buffer ∧
      ((∃ action, l = .exit action) ∨
        l = .code (c'.buffer.length - 1) ∧ c.buffer.length < c'.buffer.length) ∧
      ∀ data, D data → l.Leads actionToBpf data.word c'.buffer (HasNr data)
        (tableValue default data rules) := by
  obtain ⟨buf, c₁, e₁, hs⟩ := rulesLoop_spec default h hd
  cases buf with
  | nil =>
      have hzero : 2 ^ 32 = 0 := hs.upTo_eq
      omega
  | cons top buf =>
      have hzero : top.nr.toNat = 0 := hs.upTo_eq
      obtain ⟨l, c₂, e₂, hready, hgrows, hl, hserves⟩ := mergeAll_spec hs.ready hs.served hs.apart
      have hserve := hserves 0
      have hle := hs.grows.suffix.length_le
      refine ⟨l, c₂, ?_, hready, hs.grows.trans hgrows, hserve.valid, ?_, ?_⟩
      · rw [generateRules, e₁, Option.bind_eq_bind, Option.bind_some]
        dsimp only
        rw [if_pos (UInt32.toNat_inj.mp hzero)]
        exact e₂
      · rcases hl with ⟨rfl, rfl⟩ | ⟨hl, hlt⟩
        · rcases hs.single top rfl with hexit | hone
          · exact .inl hexit
          · omega
        · exact .inr ⟨hl, by omega⟩
      · intro data hD
        refine hserve.leads data hD ?_ data.nr.toNat_lt
        show top.nr.toNat ≤ data.nr.toNat
        omega

/-- **`generate_rules`** returns: `buf` has room for the trees not yet joined.  With the number of a
call in the accumulator the code comes to what the table has for the call. -/
theorem generateRules_correct (default : Action) (h : c.Ready) (ht : Tiles 0 rules)
    (hf : ∀ x ∈ rules, x.Finished) :
    ∃ l c', generateRules c rules = some (l, c') ∧ c'.Ready ∧ c.buffer <:+ c'.buffer ∧
      ∀ data s, (∀ x ∈ rules, x.Clean data) → s.a = data.nr →
        l.run actionToBpf data.word c'.buffer s =
          some (actionToBpf (tableValue default data rules)) := by
  have hdone : Done (fun data => ∀ x ∈ rules, x.Clean data) 0 rules :=
    ⟨ht, hf, fun data hclean => hclean⟩
  obtain ⟨l, c', e, hready, hgrows, -, -, hleads⟩ := generateRules_spec default h hdone
  exact ⟨l, c', e, hready, hgrows.suffix, fun data s hclean hs => hleads data hclean s hs⟩

/-- Up to 4, 5, and from 6 on. -/
def threeRules : List RangeRule :=
  [⟨0, 4, some (.basic .kill), 0, []⟩, ⟨5, 5, some (.basic .allow), 0, []⟩,
    ⟨6, 0xffffffff, some (.basic .kill), 0, []⟩]

theorem finished_threeRules : ∀ x ∈ threeRules, x.Finished := by
  intro x hx
  simp only [threeRules, List.mem_cons, List.not_mem_nil, or_false] at hx
  rcases hx with rfl | rfl | rfl
  · exact ⟨by decide, .inl ⟨_, rfl⟩⟩
  · exact ⟨by decide, .inl ⟨_, rfl⟩⟩
  · exact ⟨by decide, .inl ⟨_, rfl⟩⟩

theorem clean_threeRules {data : SeccompData} : ∀ x ∈ threeRules, x.Clean data := by
  intro x hx _ expr action hmem
  simp only [threeRules, List.mem_cons, List.not_mem_nil, or_false] at hx
  rcases hx with rfl | rfl | rfl
  · cases hmem
  · cases hmem
  · cases hmem

/-- The call of number 5 is allowed. -/
theorem generateRules_correct_three : ∃ l c',
    generateRules contextCreate threeRules = some (l, c') ∧ c'.Ready ∧
      ∀ (data : SeccompData) (s : St), data.nr = 5 → s.a = 5 →
        l.run actionToBpf data.word c'.buffer s = some (actionToBpf (.basic .allow)) := by
  have htiles : Tiles 0 threeRules := ⟨rfl, by decide, rfl, by decide, rfl, by decide, rfl⟩
  obtain ⟨l, c', e, hready, -, hrun⟩ :=
    generateRules_correct (.basic .kill) ready_contextCreate htiles finished_threeRules
  refine ⟨l, c', e, hready, ?_⟩
  intro data s hnr hs
  have hvalue : tableValue (.basic .kill) data threeRules = .basic .allow := by
    have hlow : ¬ (⟨0, 4, some (.basic .kill), 0, []⟩ : RangeRule).Covers data.nr := by
      rw [hnr]
      decide
    have hfive : (⟨5, 5, some (.basic .allow), 0, []⟩ : RangeRule).Covers data.nr := by
      rw [hnr]
      decide
    rw [threeRules, tableValue, if_neg hlow, tableValue, if_pos hfive]
    rfl
  rw [hrun data s clean_threeRules (hs.trans hnr.symm), hvalue]

end Kafel
