/-
# `YaojJudger.Kafel.Filter` — the program as `struct sock_filter`s

The offsets of a conditional jump are bytes there.  `resolve_location` sees to it
that both targets are at most 255 away; but the second look at the first target
can put a `JA` in between, and then the second target is 256 away and its byte is 0
(`addJump_overflows_iff` says exactly when).

The kernel takes the program all the same, and it returns (`runFilter_isSome`).  It
is the program that was meant if every offset fits (`decodeAll_eq_iff`), as it does
in programs of at most 256 instructions (`fits_of_length`).
-/
import YaojJudger.Kafel.Compile
import YaojJudger.Context

namespace Kafel

open Bpf
open YaojJudger (SockFilter SockFprog)

/-! ## Instructions -/

/-- `BPF_STMT`. -/
def bpfStmt (code : UInt16) (k : UInt32) : SockFilter := ⟨code, 0, 0, k⟩

/-- `BPF_JUMP`. -/
def bpfJump (code : UInt16) (k : UInt32) (jt jf : Nat) : SockFilter :=
  ⟨code, UInt8.ofNat jt, UInt8.ofNat jf, k⟩

def jmpCode : JmpOp → UInt16
  | .jeq => 0x10
  | .jgt => 0x20
  | .jge => 0x30
  | .jset => 0x40

def aluCode : AluOp → UInt16
  | .or => 0x40
  | .and => 0x50

/-- `BPF_K` or `BPF_X`. -/
def srcCode : Src → UInt16
  | .k _ => 0x00
  | .x => 0x08

def srcK : Src → UInt32
  | .k v => v
  | .x => 0

def encode : Instr → SockFilter
  | .ldAbs off => bpfStmt 0x20 (UInt32.ofNat off)
  | .ldImm k => bpfStmt 0x00 k
  | .ldxMem i => bpfStmt 0x61 (UInt32.ofNat i)
  | .st i => bpfStmt 0x02 (UInt32.ofNat i)
  | .alu op src => bpfStmt (0x04 ||| aluCode op ||| srcCode src) (srcK src)
  | .tax => bpfStmt 0x07 0
  | .ja off => bpfStmt 0x05 (UInt32.ofNat off)
  | .jmp op src jt jf => bpfJump (0x05 ||| jmpCode op ||| srcCode src) (srcK src) jt jf
  | .ret k => bpfStmt 0x06 k

/-- The instruction of a code, as the kernel reads it. -/
def decode (inst : SockFilter) : Option Instr :=
  match inst.code.toNat with
  | 0x00 => some (.ldImm inst.k)
  | 0x02 => some (.st inst.k.toNat)
  | 0x05 => some (.ja inst.k.toNat)
  | 0x06 => some (.ret inst.k)
  | 0x07 => some .tax
  | 0x20 => some (.ldAbs inst.k.toNat)
  | 0x61 => some (.ldxMem inst.k.toNat)
  | 0x44 => some (.alu .or (.k inst.k))
  | 0x4c => some (.alu .or .x)
  | 0x54 => some (.alu .and (.k inst.k))
  | 0x5c => some (.alu .and .x)
  | 0x15 => some (.jmp .jeq (.k inst.k) inst.jt.toNat inst.jf.toNat)
  | 0x1d => some (.jmp .jeq .x inst.jt.toNat inst.jf.toNat)
  | 0x25 => some (.jmp .jgt (.k inst.k) inst.jt.toNat inst.jf.toNat)
  | 0x2d => some (.jmp .jgt .x inst.jt.toNat inst.jf.toNat)
  | 0x35 => some (.jmp .jge (.k inst.k) inst.jt.toNat inst.jf.toNat)
  | 0x3d => some (.jmp .jge .x inst.jt.toNat inst.jf.toNat)
  | 0x45 => some (.jmp .jset (.k inst.k) inst.jt.toNat inst.jf.toNat)
  | 0x4d => some (.jmp .jset .x inst.jt.toNat inst.jf.toNat)
  | _ => none

/-- What is left of an instruction. -/
def cut : Instr → Instr
  | .ldAbs off => .ldAbs (off % 2 ^ 32)
  | .ldxMem i => .ldxMem (i % 2 ^ 32)
  | .st i => .st (i % 2 ^ 32)
  | .ja off => .ja (off % 2 ^ 32)
  | .jmp op src jt jf => .jmp op src (jt % 2 ^ 8) (jf % 2 ^ 8)
  | i => i

/-- Every number has room in its field. -/
def Fits : Instr → Prop
  | .ldAbs n | .ldxMem n | .st n | .ja n => n < 2 ^ 32
  | .jmp _ _ jt jf => jt ≤ 255 ∧ jf ≤ 255
  | _ => True

instance : DecidablePred Fits
  | .ldAbs _ | .ldxMem _ | .st _ | .ja _ => inferInstanceAs (Decidable (_ < _))
  | .jmp .. => inferInstanceAs (Decidable (_ ∧ _))
  | .ldImm _ | .alu .. | .tax | .ret _ => .isTrue trivial

/-- The program as the kernel reads it. -/
def decodeAll (prog : SockFprog) : Option (List Instr) := prog.mapM decode

/-- The filter on a call. -/
def runFilter (data : SeccompData) (prog : SockFprog) : Option UInt32 :=
  (decodeAll prog).bind fun p => run data.word p 0 .init

variable {p : List Instr} {i : Instr} {data : SeccompData} {c c' : CodegenCtxt} {op : JmpOp}
  {src : Src} {l tloc floc : Loc} {m n : Nat}

theorem decode_encode : decode (encode i) = some (cut i) := by
  cases i with
  | ldAbs off | ldxMem off | st off | ja off => rfl
  | ldImm k | tax | ret k => rfl
  | alu op src =>
      cases op with
      | or | and =>
          cases src with
          | x => rfl
          | k v =>
              rw [encode, srcCode]
              rfl
  | jmp op src jt jf =>
      cases op with
      | jeq | jgt | jge | jset =>
          cases src with
          | x => rfl
          | k v =>
              rw [encode, srcCode]
              rfl

theorem cut_eq_iff : cut i = i ↔ Fits i := by
  cases i with
  | ldAbs n | ldxMem n | st n | ja n =>
      simp only [cut, Fits, Instr.ldAbs.injEq, Instr.ldxMem.injEq, Instr.st.injEq, Instr.ja.injEq]
      omega
  | ldImm k | tax | ret k | alu op src => exact ⟨fun _ => trivial, fun _ => rfl⟩
  | jmp op src jt jf =>
      simp only [cut, Fits, Instr.jmp.injEq, true_and]
      omega

theorem decodeAll_encode : decodeAll (p.map encode) = some (p.map cut) := by
  unfold decodeAll
  induction p with
  | nil => rfl
  | cons i p ih =>
      rw [List.map_cons, List.mapM_cons, decode_encode, Option.bind_eq_bind, Option.bind_some, ih]
      rfl

/-- **The kernel reads the program that was meant if and only if every offset fits.** -/
theorem decodeAll_eq_iff : decodeAll (p.map encode) = some p ↔ ∀ i ∈ p, Fits i := by
  rw [decodeAll_encode, Option.some.injEq]
  constructor
  · intro h i hi
    obtain ⟨k, hk, rfl⟩ := List.getElem_of_mem hi
    have hcut : (p.map cut)[k]? = p[k]? := by rw [h]
    rw [List.getElem?_map, List.getElem?_eq_getElem hk, Option.map_some, Option.some.injEq] at hcut
    exact cut_eq_iff.mp hcut
  · intro h
    rw [List.map_congr_left fun i hi => cut_eq_iff.mpr (h i hi), List.map_id']

/-! ## Whatever fits or not -/

theorem stays_cut (h : i.Stays n) : (cut i).Stays n := by
  cases i with
  | ja off => exact Nat.lt_of_le_of_lt (Nat.mod_le _ _) h
  | jmp op src jt jf =>
      exact ⟨Nat.lt_of_le_of_lt (Nat.mod_le _ _) h.1, Nat.lt_of_le_of_lt (Nat.mod_le _ _) h.2⟩
  | ldAbs | ldxMem | st | ldImm | alu | tax | ret => exact h

theorem closed_cut (h : Closed p) : Closed (p.map cut) := by
  induction p with
  | nil => trivial
  | cons i p ih =>
      obtain ⟨hi, hp⟩ := h
      refine ⟨?_, ih hp⟩
      rw [List.length_map]
      exact stays_cut hi

/-- **The filter returns for every call.** -/
theorem runFilter_isSome (h : Accepted p) : (runFilter data (p.map encode)).isSome = true := by
  rw [runFilter, decodeAll_encode, Option.bind_some]
  refine (closed_cut h.closed).run_isSome ?_
  rw [List.length_map]
  exact List.length_pos_of_ne_nil h.ne_nil

/-- An instruction in a short program. -/
theorem fits_of_stays (hs : Sound 15 i) (h : i.Stays n) (hn : n ≤ 255) : Fits i := by
  cases i with
  | ldAbs off =>
      have hoff : off < 64 := hs.2
      show off < 2 ^ 32
      omega
  | ldxMem k =>
      have hk : k ≤ 15 := hs
      show k < 2 ^ 32
      omega
  | st k =>
      have hk : k ≤ 15 := hs
      show k < 2 ^ 32
      omega
  | ja off =>
      have hoff : off < n := h
      show off < 2 ^ 32
      omega
  | jmp op src jt jf =>
      obtain ⟨ht, hf⟩ : jt < n ∧ jf < n := h
      exact ⟨by omega, by omega⟩
  | ldImm | alu | tax | ret => trivial

/-- **In a program of at most 256 instructions every offset fits.** -/
theorem fits_of_length (h : Accepted p) (hlen : p.length ≤ 256) : ∀ i ∈ p, Fits i := by
  have hall : ∀ q : List Instr, Closed q → q.length ≤ 256 → (∀ i ∈ q, Sound 15 i) →
      ∀ i ∈ q, Fits i := by
    intro q
    induction q with
    | nil =>
        intro _ _ _ i hi
        cases hi
    | cons i q ih =>
        intro hc hlen hs
        rw [List.length_cons] at hlen
        obtain ⟨hsi, hs⟩ := List.forall_mem_cons.mp hs
        exact List.forall_mem_cons.mpr
          ⟨fits_of_stays hsi hc.1 (by omega), ih hc.2 (by omega) hs⟩
  exact hall p h.closed hlen h.sound

/-! ## Where an offset overflows -/

/-- The location that is used for `l`, if it is near. -/
def CodegenCtxt.known (ctxt : CodegenCtxt) : Loc → Option Nat
  | .code loc => if loc < ctxt.buffer.length then some loc else none
  | .exit (.basic b) => ctxt.basicActions b
  | .exit action => (ctxt.cache.find? fun e => e.1 = action).map Prod.snd

theorem known_addInstruction (hl : l.Valid c.buffer) :
    (addInstruction c i).known l = c.known l := by
  cases l with
  | code loc =>
      have hlt : loc < c.buffer.length := hl
      have hlt' : loc < (addInstruction c i).buffer.length := Nat.lt_succ_of_lt hlt
      rw [CodegenCtxt.known, CodegenCtxt.known, if_pos hlt, if_pos hlt']
  | exit action =>
      cases action with
      | basic b => rfl
      | trap | errno | trace => rfl

theorem ahead_cons_eq_iff {k : Nat} (hk : 1 < k) : ahead (i :: p) m = k ↔ ahead p m + 1 = k := by
  unfold ahead
  rw [List.length_cons]
  omega

theorem find?_relocate {action : Action} {cache : List (Action × Nat)} {e : Action × Nat}
    (h : (cache.find? fun e => e.1 = action) = some e) :
    ((relocate action n cache).find? fun e => e.1 = action) = some (action, n) := by
  induction cache with
  | nil => cases h
  | cons x cache ih =>
      rw [relocate]
      by_cases hx : x.1 = action
      · rw [if_pos hx, hx]
        exact List.find?_cons_of_pos (decide_eq_true rfl)
      · rw [List.find?_cons_of_neg (by simpa using hx)] at h
        rw [if_neg hx, List.find?_cons_of_neg (by simpa using hx)]
        exact ih h

theorem resolveBasic_cases {b : BasicAction} (h : resolveBasic c b = (n, c')) :
    c.basicActions b = some n ∧ ahead c.buffer n ≤ 255 ∧ c' = c ∨
      (∀ m, c.basicActions b = some m → 255 < ahead c.buffer m) ∧ n = c.buffer.length ∧
        (∃ i, c'.buffer = i :: c.buffer) ∧ c'.basicActions b = some n := by
  rw [resolveBasic] at h
  split at h
  next loc hloc =>
      cases h
      obtain ⟨hb, hnear⟩ := Option.filter_eq_some_iff.mp hloc
      exact .inl ⟨hb, of_decide_eq_true hnear, rfl⟩
  next hnone =>
      cases h
      refine .inr ⟨?_, rfl, ⟨_, rfl⟩, Function.update_self ..⟩
      intro m hm
      have hfar := Option.filter_eq_none_iff.mp hnone m hm
      exact Nat.not_le.mp fun hle => hfar (decide_eq_true hle)

/-- An action with a number: it is in the cache, or it is put there. -/
theorem resolveCached_cases {action : Action} (h : resolveCached c action = some (n, c')) :
    (c.cache.find? fun e => e.1 = action).map Prod.snd = some n ∧ ahead c.buffer n ≤ 255 ∧ c' = c ∨
      (∀ m, (c.cache.find? fun e => e.1 = action).map Prod.snd = some m →
        255 < ahead c.buffer m) ∧ n = c.buffer.length ∧ (∃ i, c'.buffer = i :: c.buffer) ∧
        (c'.cache.find? fun e => e.1 = action).map Prod.snd = some n := by
  rw [resolveCached] at h
  cases hf : c.cache.find? fun e => e.1 = action with
  | none =>
      rw [hf] at h
      dsimp only at h
      split at h
      case isFalse => cases h
      case isTrue =>
          cases h
          refine .inr ⟨fun m hm => ?_, rfl, ⟨_, rfl⟩, ?_⟩
          · cases hm
          · have hnone : (purgeLocationCache c).cache.find? (fun e => e.1 = action) = none := by
              rw [List.find?_eq_none] at hf ⊢
              intro e he
              exact hf e (List.mem_of_mem_filter he)
            show (((purgeLocationCache c).cache ++ [_]).find? _).map Prod.snd = _
            rw [List.find?_append, hnone, Option.none_or, List.find?_singleton]
            simp
  | some e =>
      rw [hf] at h
      dsimp only at h
      split at h
      case isTrue hfar =>
          cases h
          refine .inr ⟨fun m hm => ?_, rfl, ⟨_, rfl⟩, ?_⟩
          · cases hm
            exact hfar
          · show ((relocate action _ c.cache).find? _).map Prod.snd = _
            rw [find?_relocate hf]
            rfl
      case isFalse hnear =>
          cases h
          exact .inl ⟨rfl, Nat.not_lt.mp hnear, rfl⟩

/-- What is near is used, and nothing is emitted; else one instruction is, and that is used. -/
theorem resolveLocation_cases (h : resolveLocation c l = some (n, c')) :
    c.known l = some n ∧ ahead c.buffer n ≤ 255 ∧ c' = c ∨
      (∀ m, c.known l = some m → 255 < ahead c.buffer m) ∧ n = c.buffer.length ∧
        (∃ i, c'.buffer = i :: c.buffer) ∧ ∀ action, l = .exit action → c'.known l = some n := by
  cases l with
  | code loc =>
      rw [resolveLocation] at h
      split at h
      case isFalse => cases h
      case isTrue hlt =>
          rw [CodegenCtxt.known, if_pos hlt]
          split at h
          case isTrue hfar =>
              cases h
              refine .inr ⟨?_, rfl, ⟨_, rfl⟩, ?_⟩
              · intro m hm
                cases hm
                exact hfar
              · intro action hl
                cases hl
          case isFalse hnear =>
              cases h
              exact .inl ⟨rfl, Nat.not_lt.mp hnear, rfl⟩
  | exit action =>
      cases action with
      | basic b =>
          rcases resolveBasic_cases (Option.some.inj h) with h | ⟨hfar, hn, hb, hk⟩
          · exact .inl h
          · exact .inr ⟨hfar, hn, hb, fun _ _ => hk⟩
      | trap v | errno v | trace v =>
          rcases resolveCached_cases h with h | ⟨hfar, hn, hb, hk⟩
          · exact .inl h
          · exact .inr ⟨hfar, hn, hb, fun _ _ => hk⟩

theorem resolveLocation_same_iff (hl : l.Valid c.buffer) (ok : c.Ok)
    (hr : leadingRets c.buffer ≤ 2) :
    resolveLocation c l = some (n, c) ↔ c.known l = some n ∧ ahead c.buffer n ≤ 255 := by
  obtain ⟨m, c', e, -⟩ := resolveLocation_spec ok hr hl
  rw [e, Option.some.injEq, Prod.mk.injEq]
  rcases resolveLocation_cases e with ⟨hk, hnear, rfl⟩ | ⟨hfar, rfl, ⟨i, hb⟩, -⟩
  · rw [hk, Option.some.injEq]
    constructor
    · rintro ⟨rfl, -⟩
      exact ⟨rfl, hnear⟩
    · rintro ⟨rfl, -⟩
      exact ⟨rfl, rfl⟩
  · constructor
    · rintro ⟨-, rfl⟩
      exact absurd hb.symm (List.cons_ne_self _ _)
    · rintro ⟨hk, hle⟩
      exact absurd (hfar n hk) (Nat.not_lt.mpr hle)

/-- A target that is far is reached by a `JA`. -/
theorem resolveLocation_far (hn : n < c.buffer.length) (hfar : 255 < ahead c.buffer n) :
    resolveLocation c (.code n) =
      some (c.buffer.length, addInstruction c (.ja (ahead c.buffer n))) := by
  rw [resolveLocation, if_pos hn]
  exact if_pos hfar

/-- Any other one stays where it was put. -/
theorem known_of_resolve (h : resolveLocation c l = some (n, c'))
    (hfar : ¬ ∃ m, l = .code m ∧ 255 < ahead c.buffer m) : c'.known l = some n := by
  cases l with
  | exit action =>
      rcases resolveLocation_cases h with ⟨hk, -, rfl⟩ | ⟨-, -, -, hk⟩
      · exact hk
      · exact hk action rfl
  | code loc =>
      rcases resolveLocation_cases h with ⟨hk, -, rfl⟩ | ⟨hall, -⟩
      · exact hk
      · rw [resolveLocation] at h
        split at h
        case isFalse => cases h
        case isTrue hlt => exact absurd ⟨loc, rfl, hall loc (if_pos hlt)⟩ hfar

/-- **Which jump does not fit**: the target if the test holds was far, so there was a `JA` to
it, and the other one was 254 away.  With the first `JA` in between that is 255, and the
second look takes another `JA`. -/
theorem addJump_overflows_iff (h : c.Ready) (ht : tloc.Valid c.buffer) (hf : floc.Valid c.buffer)
    (hne : tloc ≠ floc) (he : addJump c op src tloc floc = some (l, c')) :
    (∃ i, c'.buffer.head? = some i ∧ ¬ Fits i) ↔
      (∃ n, tloc = .code n ∧ 255 < ahead c.buffer n) ∧
        ∃ m, resolveLocation c floc = some (m, c) ∧ ahead c.buffer m = 254 := by
  have hr₀ : leadingRets c.buffer ≤ 0 := Nat.le_of_eq h.leading
  obtain ⟨tpos₁, c₁, e₁, r₁⟩ := resolveLocation_spec h.toOk (by omega) ht
  have hr₁ := r₁.leadingRets_le hr₀
  have hf₁ := hf.suffix r₁.grows.suffix
  obtain ⟨fpos, c₂, e₂, r₂⟩ := resolveLocation_spec r₁.ok (by omega) hf₁
  have hr₂ := r₂.leadingRets_le hr₁
  obtain ⟨tpos, c₃, e₃, r₃⟩ :=
    resolveLocation_spec r₂.ok hr₂ (ht.suffix (r₁.grows.trans r₂.grows).suffix)
  rw [addJump, if_neg hne] at he
  simp only [e₁, e₂, e₃, Option.bind_eq_bind, Option.bind_some, Option.some.injEq,
    Prod.mk.injEq] at he
  obtain ⟨-, rfl⟩ := he
  have hhead : (∃ i, (addInstruction c₃ (jmpTo c₃.buffer op src tpos fpos)).buffer.head? = some i ∧
      ¬ Fits i) ↔ 255 < ahead c₃.buffer fpos := by
    have hnear := r₃.near
    constructor
    · rintro ⟨i, hi, hfits⟩
      cases hi
      by_contra hlt
      exact hfits ⟨hnear, Nat.not_lt.mp hlt⟩
    · intro hlt
      refine ⟨_, rfl, ?_⟩
      rintro ⟨-, hle⟩
      have hle : ahead c₃.buffer fpos ≤ 255 := hle
      omega
  rw [hhead]
  by_cases hfar : ∃ n, tloc = .code n ∧ 255 < ahead c.buffer n
  · rw [and_iff_right hfar]
    obtain ⟨n, rfl, hn⟩ := hfar
    have hlt : n < c.buffer.length := ht
    rw [resolveLocation_far hlt hn] at e₁
    cases e₁
    -- it is far again
    have hgrow := r₂.grows.suffix.length_le
    have hlen :
        (addInstruction c (.ja (ahead c.buffer n))).buffer.length = c.buffer.length + 1 := rfl
    have hn₂ : 255 < ahead c₂.buffer n := by
      unfold ahead at hn ⊢
      omega
    rw [resolveLocation_far (by omega) hn₂] at e₃
    cases e₃
    have hnear := r₂.near
    have hsame : 255 < ahead (Instr.ja (ahead c₂.buffer n) :: c₂.buffer) fpos ↔
        ahead c₂.buffer fpos = 255 := by
      have hiff := @ahead_cons_eq_iff c₂.buffer (.ja (ahead c₂.buffer n)) fpos 256 (by omega)
      have hle := r₃.ahead_le r₂.lt
      have hle : ahead (Instr.ja (ahead c₂.buffer n) :: c₂.buffer) fpos ≤
        ahead c₂.buffer fpos + 1 := hle
      omega
    have hknown : (addInstruction c (.ja (ahead c.buffer n))).known floc = c.known floc :=
      known_addInstruction hf
    refine hsame.trans ?_
    constructor
    · intro h255
      rcases resolveLocation_cases e₂ with ⟨hk, -, rfl⟩ | ⟨-, rfl, ⟨i, hb⟩, -⟩
      · have h254 : ahead c.buffer fpos + 1 = 255 := (ahead_cons_eq_iff (by omega)).mp h255
        refine ⟨fpos, (resolveLocation_same_iff hf h.toOk (by omega)).mpr ⟨?_, by omega⟩, by omega⟩
        rw [← hknown]
        exact hk
      · rw [hb, ahead_cons_length] at h255
        omega
    · rintro ⟨m, hm, h254⟩
      obtain ⟨hk, -⟩ := (resolveLocation_same_iff hf h.toOk (by omega)).mp hm
      have h255 : ahead (addInstruction c (.ja (ahead c.buffer n))).buffer m = 255 :=
        (ahead_cons_eq_iff (by omega)).mpr (by omega)
      rw [(resolveLocation_same_iff hf₁ r₁.ok (by omega)).mpr
        ⟨hknown.trans hk, Nat.le_of_eq h255⟩] at e₂
      cases e₂
      exact h255
  · refine iff_of_false ?_ fun hand => hfar hand.1
    rw [Nat.not_lt]
    rcases resolveLocation_cases e₂ with ⟨-, -, rfl⟩ | ⟨-, rfl, ⟨i, hb⟩, -⟩
    · -- the second look finds what the first one did
      rw [(resolveLocation_same_iff (ht.suffix r₁.grows.suffix) r₁.ok (by omega)).mpr
        ⟨known_of_resolve e₁ hfar, r₁.near⟩] at e₃
      cases e₃
      exact r₂.near
    · refine Nat.le_trans (r₃.ahead_le r₂.lt) ?_
      rw [hb, ahead_cons_length]
      omega

/-- A load in front of 299 returns. -/
def farCtxt : CodegenCtxt := addInstruction
  { contextCreate with buffer := List.replicate 299 (.ret 0) } (.ldAbs 0)

theorem ready_farCtxt : farCtxt.Ready := by
  have hclosed : ∀ k, Closed (List.replicate k (.ret 0)) := by
    intro k
    induction k with
    | zero => trivial
    | succ k ih => exact ⟨trivial, ih⟩
  refine ⟨⟨⟨?_, hclosed 299⟩, ?_, ?_, List.nodup_nil⟩, rfl⟩
  · show 0 < (List.replicate 299 (Instr.ret 0)).length
    rw [List.length_replicate]
    omega
  · intro b loc h
    cases h
  · intro e he
    cases he

theorem ahead_farCtxt (n : Nat) : ahead farCtxt.buffer n = 299 - n := by
  have hlen : farCtxt.buffer.length = 300 := by
    show (List.replicate 299 (Instr.ret 0)).length + 1 = 300
    rw [List.length_replicate]
  rw [ahead, hlen]

theorem valid_farCtxt {n : Nat} (h : n < 300) : (Bpf.Loc.code n : Loc).Valid farCtxt.buffer := by
  show n < (List.replicate 299 (Instr.ret 0)).length + 1
  rw [List.length_replicate]
  exact h

theorem addJump_overflows_far : ∃ l c', addJump farCtxt .jeq (.k 0) (.code 0) (.code 45) =
    some (l, c') ∧ ∃ i, c'.buffer.head? = some i ∧ ¬ Fits i := by
  have ht := @valid_farCtxt 0 (by omega)
  have hf := @valid_farCtxt 45 (by omega)
  have hne : (Bpf.Loc.code 0 : Loc) ≠ .code 45 := by
    intro h
    cases h
  have hnear : resolveLocation farCtxt (.code 45) = some (45, farCtxt) := by
    have hlt : 45 < farCtxt.buffer.length := hf
    rw [resolveLocation, if_pos hlt]
    refine if_neg ?_
    show ¬ ahead farCtxt.buffer 45 > 255
    rw [ahead_farCtxt]
    omega
  obtain ⟨l, c', e, -⟩ := @addJump_spec farCtxt _ _ .jeq (.k 0) ready_farCtxt ht hf
  refine ⟨l, c', e,
    (addJump_overflows_iff ready_farCtxt ht hf hne e).mpr ⟨⟨0, rfl, ?_⟩, 45, hnear, ?_⟩⟩
  · rw [ahead_farCtxt]
    omega
  · rw [ahead_farCtxt]

/-- **A program and its filter.**  The kernel reads the program that was meant if and only if every
number fits its field, as it does in programs of at most 256 instructions; and the filter returns
for every call whether or not they fit. -/
theorem filter_roundTrip (h : Accepted p) :
    (decodeAll (p.map encode) = some p ↔ ∀ i ∈ p, Fits i) ∧
      (p.length ≤ 256 → decodeAll (p.map encode) = some p) ∧
      ∀ data, (runFilter data (p.map encode)).isSome = true :=
  ⟨decodeAll_eq_iff, fun hlen => decodeAll_eq_iff.mpr (fits_of_length h hlen),
    fun _ => runFilter_isSome h⟩

/-- A load, a jump and two returns. -/
theorem filter_roundTrip_short :
    decodeAll ([Instr.ldAbs 4, .jmp .jeq (.k 0xc000003e) 0 1, .ret 0x7fff0000, .ret 0].map encode) =
      some [.ldAbs 4, .jmp .jeq (.k 0xc000003e) 0 1, .ret 0x7fff0000, .ret 0] := by
  have hsound : ∀ i ∈ [Instr.ldAbs 4, .jmp .jeq (.k 0xc000003e) 0 1, .ret 0x7fff0000, .ret 0],
      Sound 15 i := by
    intro i hi
    simp only [List.mem_cons, List.not_mem_nil, or_false] at hi
    rcases hi with rfl | rfl | rfl | rfl
    · exact arch_sound
    · exact ⟨by omega, by omega⟩
    · trivial
    · trivial
  have hclosed : Closed [Instr.ldAbs 4, .jmp .jeq (.k 0xc000003e) 0 1, .ret 0x7fff0000, .ret 0] :=
    ⟨Nat.succ_pos 2, ⟨by decide, by decide⟩, trivial, trivial, trivial⟩
  have hacc : Accepted [Instr.ldAbs 4, .jmp .jeq (.k 0xc000003e) 0 1, .ret 0x7fff0000, .ret 0] :=
    ⟨hclosed, List.cons_ne_nil _ _, by decide, hsound⟩
  exact (filter_roundTrip hacc).2.1 (by decide)

end Kafel
