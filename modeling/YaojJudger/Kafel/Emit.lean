/-
# `YaojJudger.Kafel.Emit` — the first half of `codegen.c`: returns and jumps

The generator builds the filter from its end.  A location is an instruction
emitted before, or an action whose `RET` need not have been emitted (a negative
number in the C); a `RET` that is near is used again.

    resolve_location   where an offset of 8 bits reaches, with a `JA` or a new `RET` if need be
    add_jump           both targets resolved, then the first again, then the jump

**Proved here.**  The jump decides between the two locations as they were
(`Jumped`), whatever was emitted to reach them.  The cache never overflows: that
is an assertion of the C (`resolveAction_spec`).  The offset taken if the test holds fits 8 bits;
the other is at most 256, for the second look at the first target may emit one
more instruction (`Instr.Sound`).
-/
import YaojJudger.Bpf.Check
import YaojJudger.Kafel.Policy

namespace Kafel

open Bpf

/-- Where to go on: after an action, nowhere. -/
abbrev Loc := Bpf.Loc Action

/-- `ACTION_TO_BPF`. -/
def actionToBpf : Action → UInt32
  | .basic .kill => 0
  | .basic .killProcess => 0x80000000
  | .basic .allow => 0x7fff0000
  | .basic .log => 0x7ffc0000
  | .basic .userNotif => 0x7fc00000
  | .trap value => 0x00030000 ||| value.toUInt32
  | .errno value => 0x00050000 ||| value.toUInt32
  | .trace value => 0x7ff00000 ||| value.toUInt32

/-- `struct codegen_ctxt`; the newest instruction is the head of the buffer. -/
structure CodegenCtxt where
  buffer : List Instr
  basicActions : BasicAction → Option Nat
  cache : List (Action × Nat)
  maxStackPtr : Nat

/-- `context_create`. -/
def contextCreate : CodegenCtxt := ⟨[], fun _ => none, [], 0⟩

/-- `MAX_JUMP`. -/
def maxJump : Nat := 255

/-- `LOC_TO_JUMP`. -/
def locToJump (ctxt : CodegenCtxt) (loc : Nat) : Nat := ahead ctxt.buffer loc

/-- `add_instruction`; the location is the length before. -/
def addInstruction (ctxt : CodegenCtxt) (inst : Instr) : CodegenCtxt :=
  { ctxt with buffer := inst :: ctxt.buffer }

/-- `purge_location_cache`. -/
def purgeLocationCache (ctxt : CodegenCtxt) : CodegenCtxt :=
  { ctxt with cache := ctxt.cache.filter fun e => locToJump ctxt e.2 < maxJump }

/-- The cache with a new location in the first entry of the action. -/
def relocate (action : Action) (loc : Nat) : List (Action × Nat) → List (Action × Nat)
  | [] => []
  | e :: cache => if e.1 = action then (e.1, loc) :: cache else e :: relocate action loc cache

/-- `resolve_action` up to `ACTION_BASIC_MAX`. -/
def resolveBasic (ctxt : CodegenCtxt) (b : BasicAction) : Nat × CodegenCtxt :=
  match (ctxt.basicActions b).filter fun loc => locToJump ctxt loc ≤ maxJump with
  | some loc => (loc, ctxt)
  | none =>
    (ctxt.buffer.length,
      { addInstruction ctxt (.ret (actionToBpf (.basic b))) with
        basicActions := Function.update ctxt.basicActions b (some ctxt.buffer.length) })

/-- The other actions, which have a cache; none if the assertion on its size fails. -/
def resolveCached (ctxt : CodegenCtxt) (action : Action) : Option (Nat × CodegenCtxt) :=
  match ctxt.cache.find? fun e => e.1 = action with
  | some (_, loc) =>
    if locToJump ctxt loc > maxJump then
      some (ctxt.buffer.length,
        { addInstruction ctxt (.ret (actionToBpf action)) with
          cache := relocate action ctxt.buffer.length ctxt.cache })
    else some (loc, ctxt)
  | none =>
    let ctxt := purgeLocationCache ctxt
    if ctxt.cache.length < maxJump then
      some (ctxt.buffer.length,
        { addInstruction ctxt (.ret (actionToBpf action)) with
          cache := ctxt.cache ++ [(action, ctxt.buffer.length)] })
    else none

/-- `resolve_action`. -/
def resolveAction (ctxt : CodegenCtxt) (action : Action) : Option (Nat × CodegenCtxt) :=
  match action with
  | .basic b => some (resolveBasic ctxt b)
  | action => resolveCached ctxt action

/-- `resolve_location`; none if the location is not there. -/
def resolveLocation (ctxt : CodegenCtxt) : Loc → Option (Nat × CodegenCtxt)
  | .exit action => resolveAction ctxt action
  | .code loc =>
    if loc < ctxt.buffer.length then
      if locToJump ctxt loc > maxJump then
        some (ctxt.buffer.length, addInstruction ctxt (.ja (locToJump ctxt loc)))
      else some (loc, ctxt)
    else none

/-- `add_jump`; the second look at `tloc` is for what `floc` put in between. -/
def addJump (ctxt : CodegenCtxt) (op : JmpOp) (src : Src) (tloc floc : Loc) :
    Option (Loc × CodegenCtxt) :=
  if tloc = floc then some (tloc, ctxt)
  else do
    let (_, ctxt) ← resolveLocation ctxt tloc
    let (fpos, ctxt) ← resolveLocation ctxt floc
    let (tpos, ctxt) ← resolveLocation ctxt tloc
    some (.code ctxt.buffer.length, addInstruction ctxt (jmpTo ctxt.buffer op src tpos fpos))

/-- `add_jump_ge`. -/
def addJumpGe (ctxt : CodegenCtxt) (than : UInt32) (tloc floc : Loc) : Option (Loc × CodegenCtxt) :=
  if than = 0 then some (tloc, ctxt) else addJump ctxt .jge (.k than) tloc floc

/-- `add_jump_gt`. -/
def addJumpGt (ctxt : CodegenCtxt) (than : UInt32) (tloc floc : Loc) : Option (Loc × CodegenCtxt) :=
  if than = 0xffffffff then some (floc, ctxt) else addJump ctxt .jgt (.k than) tloc floc

/-- `add_jump_set`. -/
def addJumpSet (ctxt : CodegenCtxt) (what : UInt32) (tloc floc : Loc) :
    Option (Loc × CodegenCtxt) :=
  if what = 0 then some (floc, ctxt) else addJump ctxt .jset (.k what) tloc floc

/-- `ADD_JUMP_K`. -/
def addJumpK (ctxt : CodegenCtxt) (op : JmpOp) (k : UInt32) (tloc floc : Loc) :
    Option (Loc × CodegenCtxt) :=
  match op with
  | .jgt => addJumpGt ctxt k tloc floc
  | .jge => addJumpGe ctxt k tloc floc
  | .jset => addJumpSet ctxt k tloc floc
  | .jeq => addJump ctxt .jeq (.k k) tloc floc

/-- `ADD_JUMP_X`. -/
def addJumpX (ctxt : CodegenCtxt) (op : JmpOp) (tloc floc : Loc) : Option (Loc × CodegenCtxt) :=
  addJump ctxt op .x tloc floc

variable {c c' c'' : CodegenCtxt} {action a b : Action} {i : Instr} {l tloc floc : Loc}
  {n k : Nat} {op : JmpOp} {src : Src} {p q : List Instr} {d : Nat → UInt32} {s : St}

/-! ## Actions have returns of their own -/

theorem toNat_or_value (base : UInt32) (hbase : base.toNat % 2 ^ 16 = 0) (v : UInt16) :
    (base ||| v.toUInt32).toNat = base.toNat + v.toNat := by
  have hv := v.toNat_lt
  rw [UInt32.toNat_or, UInt16.toNat_toUInt32]
  have hb : base.toNat = 2 ^ 16 * (base.toNat / 2 ^ 16) := by omega
  rw [hb]
  exact (Nat.two_pow_add_eq_or_of_lt hv _).symm

/-- The value in the low half, what the action is in the high one. -/
theorem toNat_actionToBpf : (actionToBpf a).toNat =
    (match a with
      | .basic .kill => 0
      | .basic .killProcess => 0x80000000
      | .basic .allow => 0x7fff0000
      | .basic .log => 0x7ffc0000
      | .basic .userNotif => 0x7fc00000
      | .trap v => 0x00030000 + v.toNat
      | .errno v => 0x00050000 + v.toNat
      | .trace v => 0x7ff00000 + v.toNat) := by
  cases a with
  | basic b =>
      cases b with
      | kill | killProcess | allow | log | userNotif => rfl
  | trap v | errno v | trace v => exact toNat_or_value _ rfl v

theorem actionToBpf_inj (h : actionToBpf a = actionToBpf b) : a = b := by
  have hn : (actionToBpf a).toNat = (actionToBpf b).toNat := by rw [h]
  rw [toNat_actionToBpf, toNat_actionToBpf] at hn
  cases a with
  | basic a =>
      cases b with
      | basic b => cases a <;> cases b <;> first | rfl | (exfalso; simp at hn)
      | trap v | errno v | trace v =>
          have := v.toNat_lt
          cases a <;> simp only at hn <;> omega
  | trap v | errno v | trace v =>
      have := v.toNat_lt
      cases b with
      | basic b => cases b <;> simp only at hn <;> omega
      | trap w | errno w | trace w =>
          have := w.toNat_lt
          simp only at hn
          first
            | omega
            | exact congrArg _ (UInt16.toNat_inj.mp (by omega))

/-! ## What holds of every buffer -/

/-- An instruction as the generator emits them, `stack` being the highest cell of the
scratch memory it uses. -/
def Sound (stack : Nat) : Instr → Prop
  | .ldAbs off => off % 4 = 0 ∧ off < 64
  | .ldxMem cell | .st cell => cell ≤ stack
  | .jmp _ _ jt jf => jt ≤ 255 ∧ jf ≤ 256
  | _ => True

/-- The location holds the return of the action. -/
def Holds (p : List Instr) (loc : Nat) (action : Action) : Prop :=
  instrAt p loc = some (.ret (actionToBpf action))

theorem Holds.lt (h : Holds p n a) : n < p.length := lt_of_instrAt h

theorem Holds.append (h : Holds p n a) : Holds (q ++ p) n a := instrAt_append h

theorem Holds.cons (h : Holds p n a) : Holds (i :: p) n a := Holds.append (q := [i]) h

theorem holds_head : Holds (.ret (actionToBpf a) :: p) p.length a := instrAt_head

theorem Holds.runAt (h : Holds p n a) : runAt d p n s = some (actionToBpf a) := runAt_ret h

/-- What the locations kept in a context promise. -/
structure CodegenCtxt.Ok (c : CodegenCtxt) : Prop where
  closed : Closed c.buffer
  basic : ∀ b loc, c.basicActions b = some loc → Holds c.buffer loc (.basic b)
  cached : ∀ e ∈ c.cache, Holds c.buffer e.2 e.1
  nodup : (c.cache.map Prod.fst).Nodup

theorem ok_contextCreate : contextCreate.Ok where
  closed := trivial
  basic := by
    intro b loc h
    cases h
  cached := by
    intro e he
    cases he
  nodup := List.nodup_nil

/-- One more instruction. -/
theorem CodegenCtxt.Ok.push (h : c.Ok) (hstay : i.Stays c.buffer.length) :
    (addInstruction c i).Ok where
  closed := ⟨hstay, h.closed⟩
  basic := by
    intro b loc hb
    exact (h.basic b loc hb).cons
  cached := by
    intro e he
    exact (h.cached e he).cons
  nodup := h.nodup

/-- Different actions have been cached at different locations. -/
theorem CodegenCtxt.Ok.nodup_locations (h : c.Ok) : (c.cache.map Prod.snd).Nodup := by
  have hp : c.cache.Pairwise fun x y => x.1 ≠ y.1 := List.pairwise_map.mp h.nodup
  refine List.pairwise_map.mpr (hp.imp_of_mem ?_)
  intro x y hx hy hne heq
  have hxy := h.cached x hx
  rw [heq, Holds, h.cached y hy, Option.some.injEq, Instr.ret.injEq] at hxy
  exact hne (actionToBpf_inj hxy).symm

/-! ## `resolve_location` -/

/-- A location in reach that runs as `l` did, and at most one instruction more. -/
structure Resolved (c : CodegenCtxt) (l : Loc) (n : Nat) (c' : CodegenCtxt) : Prop where
  ok : c'.Ok
  stack : c'.maxStackPtr = c.maxStackPtr
  buffer : c'.buffer = c.buffer ∨ ∃ i, c'.buffer = i :: c.buffer ∧ ∀ stack, Sound stack i
  lt : n < c'.buffer.length
  near : ahead c'.buffer n ≤ 255
  run : ∀ d s, runAt d c'.buffer n s = l.run actionToBpf d c.buffer s

theorem ahead_cons_length : ahead (i :: p) p.length = 0 := by
  rw [ahead, List.length_cons, Nat.add_sub_cancel, Nat.sub_self]

theorem resolved_here (ok : c.Ok) (hn : Holds c.buffer n a) (hnear : ahead c.buffer n ≤ 255) :
    Resolved c (.exit a) n c where
  ok := ok
  stack := rfl
  buffer := .inl rfl
  lt := hn.lt
  near := hnear
  run := by
    intro d s
    exact hn.runAt

theorem resolved_new (ok : c'.Ok) (hs : c'.maxStackPtr = c.maxStackPtr)
    (hb : c'.buffer = .ret (actionToBpf a) :: c.buffer) :
    Resolved c (.exit a) c.buffer.length c' where
  ok := ok
  stack := hs
  buffer := .inr ⟨_, hb, fun _ => trivial⟩
  lt := by
    rw [hb]
    exact holds_head.lt
  near := by
    rw [hb, ahead_cons_length]
    exact Nat.zero_le 255
  run := by
    intro d s
    rw [hb]
    exact holds_head.runAt

theorem resolveBasic_spec (ok : c.Ok) {b : BasicAction} :
    Resolved c (.exit (.basic b)) (resolveBasic c b).1 (resolveBasic c b).2 := by
  unfold resolveBasic
  split
  next loc h =>
      obtain ⟨hb, hnear⟩ := Option.filter_eq_some_iff.mp h
      exact resolved_here ok (ok.basic b loc hb) (of_decide_eq_true hnear)
  next =>
      have hok := @CodegenCtxt.Ok.push _ (.ret (actionToBpf (.basic b))) ok trivial
      refine resolved_new ⟨hok.closed, ?_, hok.cached, hok.nodup⟩ rfl rfl
      intro b' loc h
      have h : Function.update c.basicActions b (some c.buffer.length) b' = some loc := h
      rw [Function.update_apply] at h
      split at h
      case isTrue hbb =>
          obtain rfl := Option.some.inj h
          subst hbb
          exact holds_head
      case isFalse => exact hok.basic b' loc h

theorem mem_relocate {cache : List (Action × Nat)} {e : Action × Nat}
    (h : e ∈ relocate action n cache) : e = (action, n) ∨ e ∈ cache := by
  induction cache with
  | nil => cases h
  | cons x cache ih =>
      rw [relocate] at h
      split at h
      case isTrue hx =>
          rcases List.mem_cons.mp h with rfl | h
          · exact .inl (by rw [hx])
          · exact .inr (List.mem_cons_of_mem _ h)
      case isFalse =>
          rcases List.mem_cons.mp h with rfl | h
          · exact .inr List.mem_cons_self
          · exact (ih h).imp id (List.mem_cons_of_mem _)

theorem map_fst_relocate {cache : List (Action × Nat)} :
    (relocate action n cache).map Prod.fst = cache.map Prod.fst := by
  induction cache with
  | nil => rfl
  | cons x cache ih =>
      rw [relocate]
      split
      case isTrue => rfl
      case isFalse => rw [List.map_cons, List.map_cons, ih]

theorem CodegenCtxt.Ok.purge (ok : c.Ok) : (purgeLocationCache c).Ok where
  closed := ok.closed
  basic := ok.basic
  cached := by
    intro e he
    exact ok.cached e (List.mem_of_mem_filter he)
  nodup := ok.nodup.sublist (List.Sublist.map _ List.filter_sublist)

/-- After the purge there is room, for not all of the last instructions are cached returns. -/
theorem length_purge_lt (ok : c.Ok) (hr : leadingRets c.buffer ≤ 2) :
    (purgeLocationCache c).cache.length < maxJump := by
  rw [← List.length_map (f := Prod.snd)]
  refine length_lt_of_rets (p := c.buffer) ok.purge.nodup_locations ?_ ?_ ?_
  · intro n hn
    obtain ⟨e, he, rfl⟩ := List.mem_map.mp hn
    exact ⟨_, ok.purge.cached e he⟩
  · intro n hn
    obtain ⟨e, he, rfl⟩ := List.mem_map.mp hn
    exact of_decide_eq_true (List.mem_filter.mp he).2
  · exact Nat.lt_of_le_of_lt hr (by decide)

theorem resolveCached_spec (ok : c.Ok) (hr : leadingRets c.buffer ≤ 2) :
    ∃ n c', resolveCached c action = some (n, c') ∧ Resolved c (.exit action) n c' := by
  unfold resolveCached
  split
  next a loc h =>
      have ha : a = action := of_decide_eq_true (List.find?_some h :)
      subst ha
      have hloc := ok.cached _ (List.mem_of_find?_eq_some h)
      split
      case isTrue =>
          have hok := @CodegenCtxt.Ok.push _ (.ret (actionToBpf a)) ok trivial
          refine ⟨_, _, rfl, resolved_new ⟨hok.closed, hok.basic, ?_, ?_⟩ rfl rfl⟩
          · intro e he
            rcases mem_relocate he with rfl | he
            · exact holds_head
            · exact hok.cached e he
          · rw [map_fst_relocate]
            exact ok.nodup
      case isFalse hfar => exact ⟨_, _, rfl, resolved_here ok hloc (Nat.not_lt.mp hfar)⟩
  next h =>
      have hok := @CodegenCtxt.Ok.push _ (.ret (actionToBpf action)) ok.purge trivial
      dsimp only
      rw [if_pos (length_purge_lt ok hr)]
      refine ⟨_, _, rfl, resolved_new ⟨hok.closed, hok.basic, ?_, ?_⟩ rfl rfl⟩
      · intro e he
        rcases List.mem_append.mp he with he | he
        · exact hok.cached e he
        · obtain rfl := List.mem_singleton.mp he
          exact holds_head
      · rw [List.map_append]
        refine List.nodup_append.mpr ⟨ok.purge.nodup, List.nodup_singleton _, ?_⟩
        intro x hx y hy hxy
        obtain ⟨e, he, rfl⟩ := List.mem_map.mp hx
        obtain rfl := List.mem_singleton.mp hy
        exact absurd hxy (by simpa using List.find?_eq_none.mp h e (List.mem_of_mem_filter he))

theorem resolveAction_spec (ok : c.Ok) (hr : leadingRets c.buffer ≤ 2) :
    ∃ n c', resolveAction c action = some (n, c') ∧ Resolved c (.exit action) n c' := by
  cases action with
  | basic b => exact ⟨_, _, rfl, resolveBasic_spec ok⟩
  | trap | errno | trace => exact resolveCached_spec ok hr

/-- **`resolve_location`.** -/
theorem resolveLocation_spec (ok : c.Ok) (hr : leadingRets c.buffer ≤ 2) (hl : l.Valid c.buffer) :
    ∃ n c', resolveLocation c l = some (n, c') ∧ Resolved c l n c' := by
  cases l with
  | exit action => exact resolveAction_spec ok hr
  | code loc =>
      have hlt : loc < c.buffer.length := hl
      rw [resolveLocation, if_pos hlt]
      split
      case isTrue =>
          refine ⟨_, _, rfl, ok.push (ahead_lt hlt), rfl, .inr ⟨_, rfl, fun _ => trivial⟩,
            ?_, ?_, ?_⟩
          · exact Nat.lt_succ_self _
          · show ahead (_ :: c.buffer) c.buffer.length ≤ 255
            rw [ahead_cons_length]
            exact Nat.zero_le 255
          · intro d s
            show runAt d (_ :: c.buffer) c.buffer.length s = _
            rw [runAt_head, run_ja]
            rfl
      case isFalse hfar =>
          refine ⟨_, _, rfl, ok, rfl, .inl rfl, hlt, Nat.not_lt.mp hfar, ?_⟩
          intro d s
          rfl

/-- The buffer has grown; cells of the scratch memory are within those in use, if at the
end all that are used are. -/
structure Grows (c c' : CodegenCtxt) : Prop where
  suffix : c.buffer <:+ c'.buffer
  stack : c.maxStackPtr ≤ c'.maxStackPtr
  sound : ∀ m, c'.maxStackPtr ≤ m → (∀ i ∈ c.buffer, Sound m i) → ∀ i ∈ c'.buffer, Sound m i

theorem Grows.refl : Grows c c := ⟨List.suffix_refl _, Nat.le_refl _, fun _ _ h => h⟩

theorem Grows.trans (h : Grows c c') (h' : Grows c' c'') : Grows c c'' where
  suffix := h.suffix.trans h'.suffix
  stack := Nat.le_trans h.stack h'.stack
  sound := by
    intro m hm hc
    exact h'.sound m hm (h.sound m (Nat.le_trans h'.stack hm) hc)

theorem grows_push (hi : ∀ m, c.maxStackPtr ≤ m → Sound m i) : Grows c (addInstruction c i) where
  suffix := List.suffix_cons i _
  stack := Nat.le_refl _
  sound := by
    intro m hm hc
    exact List.forall_mem_cons.mpr ⟨hi m hm, hc⟩

theorem Resolved.grows (h : Resolved c l n c') : Grows c c' where
  suffix := by
    rcases h.buffer with hb | ⟨i, hb, _⟩
    · exact hb ▸ List.suffix_refl _
    · exact hb ▸ List.suffix_cons i _
  stack := Nat.le_of_eq h.stack.symm
  sound := by
    intro m hm hc
    rcases h.buffer with hb | ⟨i, hb, hi⟩
    · exact hb ▸ hc
    · rw [hb]
      exact List.forall_mem_cons.mpr ⟨hi m, hc⟩

theorem Resolved.leadingRets_le (h : Resolved c l n c') (hr : leadingRets c.buffer ≤ k) :
    leadingRets c'.buffer ≤ k + 1 := by
  rcases h.buffer with hb | ⟨i, hb, _⟩
  · rw [hb]
    omega
  · rw [hb]
    exact Nat.le_trans leadingRets_cons_le (Nat.succ_le_succ hr)

/-- A location resolved before is one instruction further away at most. -/
theorem Resolved.ahead_le (h : Resolved c l n c') (hk : k < c.buffer.length) :
    ahead c'.buffer k ≤ ahead c.buffer k + 1 := by
  unfold ahead
  rcases h.buffer with hb | ⟨i, hb, _⟩
  · rw [hb]
    omega
  · rw [hb, List.length_cons]
    omega

/-! ## `add_jump` -/

/-- Between two steps of the generator no return is in front. -/
structure CodegenCtxt.Ready (c : CodegenCtxt) : Prop extends c.Ok where
  leading : leadingRets c.buffer = 0

theorem ready_contextCreate : contextCreate.Ready := ⟨ok_contextCreate, rfl⟩

theorem CodegenCtxt.Ready.push (h : c.Ready) (hstay : i.Stays c.buffer.length)
    (hr : i.isRet = false) : (addInstruction c i).Ready :=
  ⟨h.toOk.push hstay, leadingRets_cons_of_not hr⟩

/-- Going on at `l` is to go on at `tloc` or `floc`, as the state decides.  Either nothing
was emitted, or `l` is the newest instruction. -/
structure Branch (c : CodegenCtxt) (test : St → Bool) (tloc floc l : Loc) (c' : CodegenCtxt) :
    Prop where
  ready : c'.Ready
  grows : Grows c c'
  run : ∀ d s, l.run actionToBpf d c'.buffer s =
    (if test s then tloc else floc).run actionToBpf d c.buffer s
  shape : c' = c ∧ (∀ s, l = if test s then tloc else floc) ∨
    ∃ n, l = .code n ∧ c.buffer.length ≤ n ∧ n + 1 = c'.buffer.length

theorem branch_left {test : St → Bool} (h : c.Ready) (ht : ∀ s, test s = true) :
    Branch c test tloc floc tloc c := by
  have hl : ∀ s, tloc = if test s then tloc else floc := by
    intro s
    rw [ht s, if_pos rfl]
  exact ⟨h, .refl, fun d s => by rw [← hl s], .inl ⟨rfl, hl⟩⟩

theorem branch_right {test : St → Bool} (h : c.Ready) (ht : ∀ s, test s = false) :
    Branch c test tloc floc floc c := by
  have hl : ∀ s, floc = if test s then tloc else floc := by
    intro s
    rw [ht s, if_neg Bool.false_ne_true]
  exact ⟨h, .refl, fun d s => by rw [← hl s], .inl ⟨rfl, hl⟩⟩

/-- A jump between different locations is the newest instruction. -/
theorem addJump_new (op : JmpOp) (src : Src) (h : c.Ready) (ht : tloc.Valid c.buffer)
    (hf : floc.Valid c.buffer)
    (hne : tloc ≠ floc) :
    ∃ c', addJump c op src tloc floc = some (.code (c'.buffer.length - 1), c') ∧
      c.buffer.length < c'.buffer.length ∧
      Branch c (fun s => op.eval s.a (src.eval s)) tloc floc (.code (c'.buffer.length - 1)) c' := by
  -- the first target, the second, and the first again: one return at most for each
  have hr₀ : leadingRets c.buffer ≤ 0 := Nat.le_of_eq h.leading
  obtain ⟨_, c₁, e₁, r₁⟩ := resolveLocation_spec h.toOk (by omega) ht
  have hr₁ := r₁.leadingRets_le hr₀
  obtain ⟨fpos, c₂, e₂, r₂⟩ :=
    resolveLocation_spec r₁.ok (by omega) (hf.suffix r₁.grows.suffix)
  have hr₂ := r₂.leadingRets_le hr₁
  have g₂ := r₁.grows.trans r₂.grows
  obtain ⟨tpos, c₃, e₃, r₃⟩ := resolveLocation_spec r₂.ok hr₂ (ht.suffix g₂.suffix)
  have g₃ := g₂.trans r₃.grows
  have hle := g₃.suffix.length_le
  have hfpos : fpos < c₃.buffer.length := Nat.lt_of_lt_of_le r₂.lt r₃.grows.suffix.length_le
  have hstay : (jmpTo c₃.buffer op src tpos fpos).Stays c₃.buffer.length :=
    ⟨ahead_lt r₃.lt, ahead_lt hfpos⟩
  have hnear : ∀ m, Sound m (jmpTo c₃.buffer op src tpos fpos) :=
    fun _ => ⟨r₃.near, Nat.le_trans (r₃.ahead_le r₂.lt) (Nat.succ_le_succ r₂.near)⟩
  refine ⟨addInstruction c₃ (jmpTo c₃.buffer op src tpos fpos), ?_, Nat.lt_succ_of_le hle,
    ⟨r₃.ok.push hstay, leadingRets_cons_of_not rfl⟩, g₃.trans (grows_push fun m _ => hnear m), ?_,
    .inr ⟨_, rfl, hle, rfl⟩⟩
  · rw [addJump, if_neg hne]
    simp only [e₁, e₂, e₃, Option.bind_eq_bind, Option.bind_some]
    rfl
  · intro d s
    show runAt d (_ :: c₃.buffer) c₃.buffer.length s = _
    rw [runAt_head, run_jmpTo, r₃.run, runAt_suffix r₃.grows.suffix r₂.lt, r₂.run,
      Loc.run_suffix g₂.suffix ht, Loc.run_suffix r₁.grows.suffix hf]
    split <;> rfl

/-- **`add_jump`.** -/
theorem addJump_spec (h : c.Ready) (ht : tloc.Valid c.buffer) (hf : floc.Valid c.buffer) :
    ∃ l c', addJump c op src tloc floc = some (l, c') ∧
      Branch c (fun s => op.eval s.a (src.eval s)) tloc floc l c' := by
  by_cases heq : tloc = floc
  · subst heq
    refine ⟨tloc, c, if_pos rfl, h, .refl, ?_, .inl ⟨rfl, ?_⟩⟩
    · intro d s
      rw [ite_self]
    · intro s
      rw [ite_self]
  · obtain ⟨c', e, _, hb⟩ := addJump_new op src h ht hf heq
    exact ⟨_, c', e, hb⟩

theorem addJumpX_spec (h : c.Ready) (ht : tloc.Valid c.buffer) (hf : floc.Valid c.buffer) :
    ∃ l c', addJumpX c op tloc floc = some (l, c') ∧
      Branch c (fun s => op.eval s.a s.x) tloc floc l c' :=
  addJump_spec h ht hf

/-- **`ADD_JUMP_K`**: a test that cannot fail, or cannot hold, is left out. -/
theorem addJumpK_spec {k : UInt32} (h : c.Ready) (ht : tloc.Valid c.buffer)
    (hf : floc.Valid c.buffer) :
    ∃ l c', addJumpK c op k tloc floc = some (l, c') ∧
      Branch c (fun s => op.eval s.a k) tloc floc l c' := by
  cases op with
  | jeq => exact addJump_spec h ht hf
  | jgt =>
      rw [addJumpK, addJumpGt]
      split
      case isTrue hk =>
          refine ⟨_, _, rfl, branch_right h ?_⟩
          intro s
          have hle : ¬ k < s.a := by
            have := s.a.toNat_lt
            rw [hk, UInt32.lt_iff_toNat_lt]
            show ¬ 2 ^ 32 - 1 < s.a.toNat
            omega
          exact decide_eq_false hle
      case isFalse => exact addJump_spec h ht hf
  | jge =>
      rw [addJumpK, addJumpGe]
      split
      case isTrue hk =>
          refine ⟨_, _, rfl, branch_left h ?_⟩
          intro s
          have hle : k ≤ s.a := by
            rw [hk, UInt32.le_iff_toNat_le]
            exact Nat.zero_le _
          exact decide_eq_true hle
      case isFalse => exact addJump_spec h ht hf
  | jset =>
      rw [addJumpK, addJumpSet]
      split
      case isTrue hk =>
          refine ⟨_, _, rfl, branch_right h ?_⟩
          intro s
          rw [hk, JmpOp.eval, UInt32.and_zero]
          rfl
      case isFalse => exact addJump_spec h ht hf

theorem Branch.valid {test : St → Bool} (h : Branch c test tloc floc l c')
    (ht : tloc.Valid c.buffer) (hf : floc.Valid c.buffer) : l.Valid c'.buffer := by
  rcases h.shape with ⟨rfl, hl⟩ | ⟨n, rfl, _, hn⟩
  · rw [hl .init]
    split
    case isTrue => exact ht
    case isFalse => exact hf
  · show n < c'.buffer.length
    omega

/-- **`add_jump`** returns: the cache has room.  Whatever is emitted to reach the targets, going on
at the result is going on at the one or the other as they were. -/
theorem addJump_correct (op : JmpOp) (src : Src) (h : c.Ready) (ht : tloc.Valid c.buffer)
    (hf : floc.Valid c.buffer) :
    ∃ l c', addJump c op src tloc floc = some (l, c') ∧ c'.Ready ∧ c.buffer <:+ c'.buffer ∧
      l.Valid c'.buffer ∧ ∀ d s, l.run actionToBpf d c'.buffer s =
        (if op.eval s.a (src.eval s) then tloc else floc).run actionToBpf d c.buffer s := by
  obtain ⟨l, c', e, hb⟩ := @addJump_spec _ _ _ op src h ht hf
  exact ⟨l, c', e, hb.ready, hb.grows.suffix, hb.valid ht hf, hb.run⟩

/-- Two returns and a jump, out of nothing. -/
theorem addJump_correct_fresh : ∃ l c', addJump contextCreate .jeq (.k 3) (.exit (.basic .allow))
      (.exit (.errno 1)) = some (l, c') ∧
    ∀ d s, l.run actionToBpf d c'.buffer s =
      some (actionToBpf (if s.a == 3 then .basic .allow else .errno 1)) := by
  obtain ⟨l, c', e, -, -, -, hrun⟩ := @addJump_correct contextCreate (.exit (.basic .allow))
    (.exit (.errno 1)) .jeq (.k 3) ready_contextCreate trivial trivial
  refine ⟨l, c', e, ?_⟩
  intro d s
  rw [hrun]
  show (if (s.a == 3) = true then (.exit (.basic .allow) : Loc) else .exit (.errno 1)).run _ _ _ _ =
    some (actionToBpf (if (s.a == 3) = true then .basic .allow else .errno 1))
  split
  case isTrue => rfl
  case isFalse => rfl

end Kafel
