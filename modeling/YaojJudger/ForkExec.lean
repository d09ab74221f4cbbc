/-
# `YaojJudger.ForkExec` — the result of a worker process

`yjudger_forkexec`.  A forked worker runs `fn(ctxt)` and copies its result into
a page shared with the parent; the parent waits and reads the page.

The worker is a program of two calls, `fn`, which may do anything and need not
come back, and the store of one byte, of which `memcpy` makes 24 in some order.
It may be killed or stopped between any two of them, so what the parent finds
is the page at *some* position of that program together with a wait status:

    how it ended                      what the parent goes by
    fn returned 0, copied, exit(0)    the copy
    exit(n)                           n mod 256
    killed                            the second byte of the status, which is 0
    stopped by sig                    sig
    fork failed                       waitpid(-1): an error, or another child

A second byte of 0 sends the parent to the page, where a byte nobody wrote is 0
and the code 0 is `OK`.  `invents_nothing_iff` says exactly when that is right.
-/
import YaojJudger.Posix.Wait
import YaojJudger.Helper

namespace YaojJudger

open Posix

/-! ## The bytes of a result -/

/-- The bytes of a `struct yjudger_result`: six words, low byte first. -/
abbrev Image : Type := Fin 24 → UInt8

/-- The six fields. -/
inductive Field where
  | code | signal | exitCode | realTime | cpuTime | realMemory
  deriving DecidableEq, Repr

/-- The first byte of a field. -/
def Field.offset : Field → Nat
  | .code => 0 | .signal => 4 | .exitCode => 8 | .realTime => 12 | .cpuTime => 16
  | .realMemory => 20

theorem Field.offset_add_lt (f : Field) {k : Nat} (hk : k < 4) : f.offset + k < 24 := by
  cases f <;> simp only [Field.offset] <;> omega

/-- The field byte `i` belongs to. -/
def fieldAt (i : Fin 24) : Field :=
  match i.val / 4 with
  | 0 => .code | 1 => .signal | 2 => .exitCode | 3 => .realTime | 4 => .cpuTime
  | _ => .realMemory

theorem fieldAt_offset (f : Field) {k : Nat} (hk : k < 4) :
    fieldAt ⟨f.offset + k, f.offset_add_lt hk⟩ = f := by
  have hdiv : (f.offset + k) / 4 = f.offset / 4 := by
    cases f <;> simp only [Field.offset] <;> omega
  simp only [fieldAt, hdiv]
  cases f <;> rfl

/-- The 32 bits of a field. -/
def YjudgerResult.field (r : YjudgerResult) : Field → UInt32
  | .code => r.code.toNat.toUInt32
  | .signal => r.signal.toUInt32
  | .exitCode => r.exitCode.toUInt32
  | .realTime => r.realTime.toUInt32
  | .cpuTime => r.cpuTime.toUInt32
  | .realMemory => r.realMemory.toUInt32

/-- Byte `k` of a word. -/
def byteOf (x : UInt32) (k : Nat) : UInt8 := (x.toNat / 256 ^ k).toUInt8

def YjudgerResult.image (r : YjudgerResult) : Image := fun i =>
  byteOf (r.field (fieldAt i)) (i.val % 4)

/-- Byte `k` of a field. -/
def Image.byte (img : Image) (f : Field) (k : Fin 4) : Nat :=
  (img ⟨f.offset + k.val, f.offset_add_lt k.isLt⟩).toNat

/-- A field, read from the bytes. -/
def Image.field (img : Image) (f : Field) : Nat :=
  img.byte f 0 + 256 * img.byte f 1 + 65536 * img.byte f 2 + 16777216 * img.byte f 3

/-- The bytes with one field overwritten. -/
def Image.setField (img : Image) (f : Field) (x : UInt32) : Image :=
  fun i => if fieldAt i = f then byteOf x (i.val % 4) else img i

theorem byteOf_toNat (x : UInt32) (k : Nat) : (byteOf x k).toNat = x.toNat / 256 ^ k % 256 := by
  simp [byteOf]

theorem four_bytes (x : UInt32) :
    x.toNat / 256 ^ 0 % 256 + 256 * (x.toNat / 256 ^ 1 % 256) + 65536 * (x.toNat / 256 ^ 2 % 256) +
      16777216 * (x.toNat / 256 ^ 3 % 256) = x.toNat := by
  have := x.toNat_lt
  omega

theorem offset_add_mod (f : Field) {k : Nat} (hk : k < 4) : (f.offset + k) % 4 = k := by
  cases f <;> simp only [Field.offset] <;> omega

theorem image_byte (r : YjudgerResult) (f : Field) (k : Fin 4) :
    r.image.byte f k = (r.field f).toNat / 256 ^ k.val % 256 := by
  simp only [Image.byte, YjudgerResult.image, fieldAt_offset f k.isLt, offset_add_mod f k.isLt,
    byteOf_toNat]

/-- The bytes of a result are its fields. -/
theorem image_field (r : YjudgerResult) (f : Field) : r.image.field f = (r.field f).toNat := by
  simp only [Image.field, image_byte]
  exact four_bytes _

@[simp] theorem setField_field (img : Image) (f : Field) (x : UInt32) :
    (img.setField f x).field f = x.toNat := by
  have hbyte : ∀ k : Fin 4, (img.setField f x).byte f k = x.toNat / 256 ^ k.val % 256 := by
    intro k
    simp only [Image.byte, Image.setField, fieldAt_offset f k.isLt, offset_add_mod f k.isLt,
      if_true, byteOf_toNat]
  simp only [Image.field, hbyte]
  exact four_bytes _

theorem setField_field_ne (img : Image) {f g : Field} (x : UInt32) (h : g ≠ f) :
    (img.setField f x).field g = img.field g := by
  have hbyte : ∀ k : Fin 4, (img.setField f x).byte g k = img.byte g k := by
    intro k
    simp only [Image.byte, Image.setField, fieldAt_offset g k.isLt, h, if_false]
  simp only [Image.field, hbyte]

/-! ## The worker -/

/-- How `fn(ctxt)` ends, where it ends: it returns `flag`, with `result` in the
context, or it calls `exit`. -/
inductive FnEnd where
  | returned (flag : Int32) (result : YjudgerResult)
  | exited (code : Int)

inductive WorkCall where
  | fn
  | store (i : Fin 24) (b : UInt8)

@[reducible] def WorkRet : WorkCall → Type
  | .fn => FnEnd
  | .store _ _ => Unit

/-- `memcpy`, byte by byte in the given order. -/
def storeAll (img : Image) : List (Fin 24) → Prog WorkCall WorkRet Unit
  | [] => .ret ()
  | i :: order => do
      let _ ← Prog.perform (.store i (img i))
      storeAll img order

/-- What the worker does once `fn` has ended. -/
def afterFn (order : List (Fin 24)) : FnEnd → Prog WorkCall WorkRet Empty
  | .exited code => .exit code
  | .returned flag result =>
      if flag ≠ 0 then .exit flag.toInt
      else do
        storeAll result.image order
        .exit 0

def worker (order : List (Fin 24)) : Prog WorkCall WorkRet Empty := .call .fn (afterFn order)

/-- The shared page, and what the worker has done: the result in its context
once `fn` has returned 0, and the bytes copied. -/
structure Shared where
  page : Image
  result : Option YjudgerResult
  copied : List (Fin 24)

/-- `mmap` fills the page with zeros. -/
def Shared.start : Shared := { page := fun _ => 0, result := none, copied := [] }

def Shared.after (s : Shared) : (c : WorkCall) → WorkRet c → Shared
  | .fn, .returned flag result => { s with result := if flag = 0 then some result else none }
  | .fn, .exited _ => s
  | .store i b, _ => { s with page := Function.update s.page i b, copied := i :: s.copied }

def WorkStep (s : Shared) (c : WorkCall) (r : WorkRet c) (s' : Shared) : Prop := s' = s.after c r

/-- The worker can be at a position with `p` still to do and the page as in `s`. -/
abbrev At (order : List (Fin 24)) (s : Shared) (p : Prog WorkCall WorkRet Empty) : Prop :=
  Prog.Steps WorkStep .start (worker order) s p

/-- The worker copied all of the result. -/
def Shared.Complete (s : Shared) (r : YjudgerResult) : Prop := s.result = some r ∧ ∀ i, i ∈ s.copied

/-- The page holds the bytes copied so far, and zeros. -/
def Shared.Torn (s : Shared) : Prop :=
  (s.copied = [] ∧ ∀ i, s.page i = 0) ∨
    ∃ r, s.result = some r ∧ ∀ i, s.page i = if i ∈ s.copied then r.image i else 0

theorem torn_start : Shared.start.Torn := Or.inl ⟨rfl, fun _ => rfl⟩

/-- One byte of `memcpy`. -/
theorem torn_store {s : Shared} {r : YjudgerResult}
    (hp : ∀ i, s.page i = if i ∈ s.copied then r.image i else 0) (i : Fin 24) :
    ∀ j, (s.after (.store i (r.image i)) ()).page j =
      if j ∈ (s.after (.store i (r.image i)) ()).copied then r.image j else 0 := by
  intro j
  simp only [Shared.after, Function.update_apply, List.mem_cons]
  by_cases hj : j = i
  · simp [hj]
  · simp [hj, hp j]

/-- The page is torn at every position of the copy, and complete at its end. -/
theorem storeAll_wp {r : YjudgerResult} {fin : Shared → Int → Prop} {Q : Shared → Unit → Prop} :
    ∀ (order : List (Fin 24)) (s : Shared), s.result = some r →
      (∀ i, s.page i = if i ∈ s.copied then r.image i else 0) →
      (∀ s', s'.result = some r → (∀ i, s'.page i = if i ∈ s'.copied then r.image i else 0) →
        (∀ i, i ∈ s.copied ∨ i ∈ order → i ∈ s'.copied) → Q s' ()) →
      Prog.wp WorkStep (fun s _ => s.Torn) fin (storeAll r.image order) Q s
  | [], s, hr, hp, hQ => hQ s hr hp fun i h => h.resolve_right List.not_mem_nil
  | i :: order, s, hr, hp, hQ => by
      refine ⟨Or.inr ⟨r, hr, hp⟩, ?_⟩
      rintro ⟨⟩ s' rfl
      refine storeAll_wp order _ hr (torn_store hp i) fun s' hr' hp' hmem => hQ s' hr' hp' ?_
      intro j hj
      refine hmem j ?_
      rcases hj with hj | hj
      · exact Or.inl (List.mem_cons_of_mem i hj)
      · rcases List.mem_cons.mp hj with rfl | hj
        · exact Or.inl List.mem_cons_self
        · exact Or.inr hj

/-- At an `exit` of the worker after `fn` returned 0, everything `order` names is copied. -/
def Finished (order : List (Fin 24)) (s : Shared) : Prop :=
  s.Torn ∧ ∀ r, s.result = some r → ∀ i ∈ order, i ∈ s.copied

theorem worker_wp (order : List (Fin 24)) :
    Prog.wp WorkStep (fun s _ => s.Torn) (fun s _ => Finished order s) (worker order)
      (fun _ _ => True) .start := by
  refine ⟨torn_start, ?_⟩
  rintro (⟨flag, result⟩ | code) s' rfl
  · by_cases hflag : flag = 0
    · subst hflag
      have hstart : ∀ i, (Shared.start.after .fn (.returned 0 result)).page i =
          if i ∈ (Shared.start.after .fn (.returned 0 result)).copied then result.image i else 0 :=
        fun i => rfl
      show Prog.wp _ _ _ (storeAll result.image order >>= fun _ => Prog.exit 0) _ _
      rw [Prog.wp_bind]
      refine storeAll_wp order _ rfl hstart fun s' hr' hp' hmem => ?_
      exact ⟨Or.inr ⟨result, hr', hp'⟩, fun r _ i hi => hmem i (Or.inr hi)⟩
    · show Prog.wp _ _ _ (if flag ≠ 0 then Prog.exit flag.toInt else _) _ _
      rw [if_pos hflag]
      refine ⟨Or.inl ⟨rfl, fun _ => rfl⟩, fun r hr => ?_⟩
      simp only [Shared.after, hflag, if_false] at hr
      cases hr
  · exact ⟨torn_start, fun r hr => by cases hr⟩

/-- At every position of the worker the page is torn. -/
theorem At.torn {order : List (Fin 24)} {s : Shared} {p : Prog WorkCall WorkRet Empty}
    (h : At order s p) : s.Torn := by
  have hw := h.wp (worker_wp order)
  cases p with
  | ret a => cases a
  | exit n => exact hw.1
  | call c k => exact hw.1

/-- A worker that gets to its `exit` after `fn` returned 0 has copied all of it. -/
theorem At.complete {order : List (Fin 24)} {s : Shared} {n : Int} (hall : ∀ i, i ∈ order)
    (h : At order s (.exit n)) {r : YjudgerResult} (hr : s.result = some r) : s.Complete r :=
  ⟨hr, fun i => (h.wp (worker_wp order)).2 r hr i (hall i)⟩

/-! ## The parent -/

/-- `yjudger_forkexec` after the fork: what `waitpid` delivered, the page, and
what the local `result` held before it was set. -/
def forkexecResult (garbage page : Image) : Option Nat → Image
  | none => (garbage.setField .code 5).setField .exitCode eWait.toNat.toUInt32
  | some status =>
      if wexitstatus status ≠ 0 then
        (garbage.setField .code 5).setField .exitCode (wexitstatus status).toUInt32
      else page

/-- What `waitpid(…, WUNTRACED)` reports of a child. -/
inductive Reported : Nat → Prop
  | exited (code : Int) : Reported (exitStatus code)
  | killed (sig : Nat) (core : Bool) : IsSignal sig → Reported (killStatus sig core)
  | stopped (sig : Nat) : IsSignal sig → Reported (stopStatus sig)

/-- How a judgement in a worker can go: what `waitpid` delivers, with the page as
the parent then finds it. -/
inductive Judged (order : List (Fin 24)) : Option Nat → Shared → Prop
  /-- no worker: `waitpid(-1)` fails or reports another child -/
  | forkFailed {status : Option Nat} : (∀ st, status = some st → Reported st) →
      Judged order status .start
  | waitFailed {s : Shared} {p : Prog WorkCall WorkRet Empty} : At order s p → Judged order none s
  | exited {s : Shared} {n : Int} : At order s (.exit n) → Judged order (some (exitStatus n)) s
  | killed {s : Shared} {p : Prog WorkCall WorkRet Empty} (sig : Nat) (core : Bool) :
      At order s p → IsSignal sig → Judged order (some (killStatus sig core)) s
  | stopped {s : Shared} {p : Prog WorkCall WorkRet Empty} (sig : Nat) :
      At order s p → IsSignal sig → Judged order (some (stopStatus sig)) s

theorem Judged.torn {order : List (Fin 24)} {status : Option Nat} {s : Shared}
    (h : Judged order status s) : s.Torn := by
  cases h with
  | forkFailed _ => exact torn_start
  | waitFailed h | exited h | killed _ _ h _ | stopped _ h _ => exact h.torn

/-- A verdict other than `SE` is the worker's: `fn` returned 0, the copy was
completed, and the result is the copy in every field. -/
def NotInvented (s : Shared) (res : Image) : Prop :=
  res.field .code ≠ ResultCode.se.toNat →
    ∃ r, s.Complete r ∧ ∀ f, res.field f = (r.field f).toNat

/-- When the parent does not read the page, finds it complete, or finds at least
the code of a result that is `SE`. -/
def PageTrusted (status : Option Nat) (s : Shared) : Prop :=
  (∀ st, status = some st → wexitstatus st ≠ 0) ∨ (∃ r, s.Complete r) ∨
    (0 ∈ s.copied ∧ ∃ r, s.result = some r ∧ r.code = .se)

theorem code_image_byte (r : YjudgerResult) (k : Fin 4) :
    r.image.byte .code k = if k = 0 then r.code.toNat else 0 := by
  rw [image_byte]
  have hcode : (r.field .code).toNat = r.code.toNat := by
    simp only [YjudgerResult.field]
    cases r.code <;> rfl
  rw [hcode]
  match k with
  | 0 | 1 | 2 | 3 => cases r.code <;> rfl

/-- The code found on a torn page: the worker's if its first byte was copied, else 0. -/
theorem torn_code {s : Shared} {r : YjudgerResult}
    (hp : ∀ i, s.page i = if i ∈ s.copied then r.image i else 0) :
    Image.field s.page .code = if 0 ∈ s.copied then r.code.toNat else 0 := by
  have hbyte : ∀ k : Fin 4,
      Image.byte s.page .code k = if k = 0 ∧ 0 ∈ s.copied then r.code.toNat else 0 := by
    intro k
    have hk := code_image_byte r k
    simp only [Image.byte] at hk ⊢
    rw [hp]
    by_cases hmem :
        (⟨Field.code.offset + k.val, Field.code.offset_add_lt k.isLt⟩ : Fin 24) ∈ s.copied
    · rw [if_pos hmem, hk]
      by_cases h0 : k = 0
      · subst h0
        have : (0 : Fin 24) ∈ s.copied := hmem
        simp [this]
      · simp [h0]
    · rw [if_neg hmem]
      by_cases h0 : k = 0
      · subst h0
        have : (0 : Fin 24) ∉ s.copied := hmem
        simp [this]
      · simp [h0]
  simp only [Image.field, hbyte]
  simp

theorem forkexecResult_se (garbage page : Image) {status : Option Nat}
    (h : ∀ st, status = some st → wexitstatus st ≠ 0) :
    (forkexecResult garbage page status).field .code = ResultCode.se.toNat := by
  have hne : Field.code ≠ Field.exitCode := by decide
  cases status with
  | none => rw [forkexecResult, setField_field_ne _ _ hne, setField_field]; rfl
  | some st =>
      rw [forkexecResult, if_pos (h st rfl), setField_field_ne _ _ hne, setField_field]
      rfl

/-- **No verdict is invented** if and only if the page can be trusted. -/
theorem invents_nothing_iff (order : List (Fin 24)) (garbage : Image) (status : Option Nat)
    (s : Shared) (h : Judged order status s) :
    NotInvented s (forkexecResult garbage s.page status) ↔ PageTrusted status s := by
  by_cases hread : ∀ st, status = some st → wexitstatus st ≠ 0
  · exact ⟨fun _ => Or.inl hread, fun _ hne => absurd (forkexecResult_se garbage s.page hread) hne⟩
  · obtain ⟨st, hst, h0⟩ : ∃ st, status = some st ∧ wexitstatus st = 0 := by
      by_contra hno
      exact hread fun st hst h0 => hno ⟨st, hst, h0⟩
    have hres : forkexecResult garbage s.page status = s.page := by
      rw [hst, forkexecResult, if_neg (fun hn => hn h0)]
    rw [hres]
    constructor
    · intro hni
      rcases h.torn with ⟨hnil, hz⟩ | ⟨r, hr, hp⟩
      · -- nothing was copied: the code read is 0
        have hcode : Image.field s.page .code = 0 := by simp [Image.field, Image.byte, hz]
        obtain ⟨r, hc, -⟩ := hni (by rw [hcode]; decide)
        exact Or.inr (Or.inl ⟨r, hc⟩)
      · by_cases hse : 0 ∈ s.copied ∧ r.code = .se
        · exact Or.inr (Or.inr ⟨hse.1, r, hr, hse.2⟩)
        · have hcode : Image.field s.page .code ≠ ResultCode.se.toNat := by
            rw [torn_code hp]
            split
            case isFalse => decide
            case isTrue h0 =>
              intro heq
              refine hse ⟨h0, ?_⟩
              revert heq
              cases r.code <;> decide
          obtain ⟨r', hc, -⟩ := hni hcode
          exact Or.inr (Or.inl ⟨r', hc⟩)
    · rintro (hall | ⟨r, hc⟩ | ⟨h0, r, hr, hse⟩) hne
      · exact absurd hall hread
      · refine ⟨r, hc, fun f => ?_⟩
        rcases h.torn with ⟨hnil, -⟩ | ⟨r', hr', hp⟩
        · have := hc.2 0
          rw [hnil] at this
          exact absurd this List.not_mem_nil
        · obtain rfl : r' = r := Option.some.inj (hr'.symm.trans hc.1)
          have himg : s.page = r'.image := funext fun i => by rw [hp i, if_pos (hc.2 i)]
          rw [himg, image_field]
      · refine absurd ?_ hne
        rcases h.torn with ⟨hnil, -⟩ | ⟨r', hr', hp⟩
        · rw [hnil] at h0
          exact absurd h0 List.not_mem_nil
        · obtain rfl : r' = r := Option.some.inj (hr'.symm.trans hr)
          rw [torn_code hp, if_pos h0, hse]

/-- A worker whose `fn` fails with 3 is reported as `SE`. -/
theorem invents_nothing_failed_fn :
    NotInvented (Shared.start.after .fn (.returned 3 blankResult))
      (forkexecResult (fun _ => 0) (Shared.start.after .fn (.returned 3 blankResult)).page
        (some (exitStatus 3))) := by
  have hstart : At (List.finRange 24) .start (.call .fn (afterFn (List.finRange 24))) := .refl _ _
  have hat : At (List.finRange 24) (Shared.start.after .fn (.returned 3 blankResult)) (.exit 3) :=
    hstart.tail (r := FnEnd.returned 3 blankResult) rfl
  refine (invents_nothing_iff (List.finRange 24) (fun _ => 0) _ _ (.exited hat)).mpr (Or.inl ?_)
  intro st hst
  obtain rfl := Option.some.inj hst
  decide

/-- A worker killed before `fn` returns is reported as accepted. -/
theorem invents_ok_for_killed :
    Judged (List.finRange 24) (some (killStatus 9 false)) .start ∧
      (forkexecResult (fun _ => 0) Shared.start.page (some (killStatus 9 false))).field .code =
        ResultCode.ok.toNat ∧
      ¬ NotInvented .start
        (forkexecResult (fun _ => 0) Shared.start.page (some (killStatus 9 false))) := by
  refine ⟨.killed 9 false (.refl _ _) (by decide), by decide, fun h => ?_⟩
  obtain ⟨r, hc, -⟩ := h (by decide)
  cases hc.1

end YaojJudger
