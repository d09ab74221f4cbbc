/-
# `YaojJudger.Buffer` — the buffer the policy text is built in

`policy_identifier_handler` lets its buffer grow by what the iteration is about to
append, and five bytes more, before it appends it:

    extra_len = offset - las + strlen(address)
    res_len  += extra_len
    realloc(result, res_len + 5)        room for  strlen(result) + extra_len + 1 + 5
    strncat(result, content + las, offset - las)
    strcat(result, address)

The sizes are right because `res_len` is the length of what is in the buffer, its
terminator included, at the top of each iteration (`Grown`), and because no
placeholder begins before the last one ended.
-/
import YaojJudger.Overrun

namespace YaojJudger

/-- `strlen`. -/
def strlen (s : Bytes) : Nat := (cString s).length

/-- Where the iteration in `st` finds the text to end that it appends, and the
address it appends after it; `none` if the handler gives up before. -/
def identAppends (content : Bytes) (argv : List Arg) (st : IdentState) : Option (Nat × Bytes) :=
  match regexec (content.drop st.pos) with
  | some (so, eo) =>
      let offset := so + st.pos
      match storeDigits st.numStr ((content.drop (offset + 1)).take (eo - so - 2)) with
      | none => none
      | some numStr =>
          let num := (atoi numStr.toList).toInt
          if 0 ≤ num ∧ num < argv.length then
            some (offset,
              match argv[num.toNat]? with
              | some a => printPtr a.addr
              | none => [])
          else none
  | none => some (content.length, [])

/-- `extra_len`. -/
def IdentState.extraLen (st : IdentState) (offset : Nat) (address : Bytes) : Int :=
  (offset : Int) - st.las + address.length

/-- The size of the buffer once it has been reallocated. -/
def IdentState.bufferSize (st : IdentState) (offset : Nat) (address : Bytes) : Int :=
  st.resLen + st.extraLen offset address + 5

/-- What the buffer holds then. -/
def IdentState.appended (content : Bytes) (st : IdentState) (offset : Nat) (address : Bytes) :
    Bytes :=
  st.result ++ (content.drop st.las).take (offset - st.las) ++ address

/-- At the top of each iteration. -/
structure Grown (content : Bytes) (st : IdentState) : Prop where
  resLen : st.resLen = st.result.length + 1
  proper : 0 ∉ st.result
  las : st.las = st.pos
  inside : st.pos ≤ content.length

/-! ## Strings without a 0 -/

theorem strlen_of_proper {s : Bytes} (h : 0 ∉ s) : strlen s = s.length := by
  have hall : ∀ b ∈ s, decide (b ≠ 0) = true := by
    intro b hb
    exact decide_eq_true fun h0 => h (h0 ▸ hb)
  rw [strlen, cString, List.takeWhile_eq_self_iff.mpr hall]

theorem cString_proper (s : Bytes) : 0 ∉ cString s := by
  intro h
  have hne : decide ((0 : UInt8) ≠ 0) = true := List.all_eq_true.mp List.all_takeWhile 0 h
  cases hne

theorem hexDigits_length : ∀ n a : Nat, (hexDigits n a).length ≤ n
  | 0, _ => Nat.le_refl 0
  | n + 1, a => by
      rw [hexDigits]
      split
      · exact Nat.succ_le_succ (Nat.zero_le n)
      · rw [List.length_append]
        exact Nat.succ_le_succ (hexDigits_length n (a / 16))

theorem printPtr_length (addr : UInt64) : (printPtr addr).length ≤ 18 :=
  Nat.add_le_add_right (hexDigits_length 16 addr.toNat) 2

theorem printPtr_proper (addr : UInt64) : 0 ∉ printPtr addr := by
  have hdigits := hexDigits_all (p := fun b => b ≠ 0) (by decide) 16 addr.toNat
  intro h
  rcases List.mem_cons.mp h with h | h
  · cases h
  · rcases List.mem_cons.mp h with h | h
    · cases h
    · exact hdigits 0 h rfl

/-! ## One iteration -/

section
variable {content : Bytes} {argv : List Arg} {st st' : IdentState} {offset : Nat} {address : Bytes}

/-- What is appended ends no sooner than the text already taken over, and inside the text. -/
theorem Grown.appends (h : Grown content st)
    (ha : identAppends content argv st = some (offset, address)) :
    st.las ≤ offset ∧ offset ≤ content.length ∧ address.length < 50 ∧ 0 ∉ address := by
  have hlas := h.las
  have hinside := h.inside
  rw [identAppends] at ha
  split at ha
  case h_2 =>
    obtain ⟨rfl, rfl⟩ := Prod.mk.inj (Option.some.inj ha)
    exact ⟨by omega, Nat.le_refl _, by decide, List.not_mem_nil⟩
  case h_1 so eo hm =>
    obtain ⟨hlt, hle⟩ := regexec_bound hm
    rw [List.length_drop] at hle
    simp only at ha
    split at ha
    case h_1 => cases ha
    case h_2 numStr _ =>
      split at ha
      case isFalse => cases ha
      case isTrue =>
        obtain ⟨rfl, rfl⟩ := Prod.mk.inj (Option.some.inj ha)
        refine ⟨by omega, by omega, ?_⟩
        split
        case h_1 a _ => exact ⟨by have := printPtr_length a.addr; omega, printPtr_proper a.addr⟩
        case h_2 => exact ⟨by decide, List.not_mem_nil⟩

/-- An iteration that goes on appends just that, and leaves the cursors at the end of
the match. -/
theorem Iterates.appends (h : Iterates content argv st st') : ∃ so eo address,
    regexec (content.drop st.pos) = some (so, eo) ∧
      identAppends content argv st = some (so + st.pos, address) ∧
      st'.result = st.appended content (so + st.pos) address ∧
      st'.resLen = st.resLen + st.extraLen (so + st.pos) address ∧
      st'.las = so + st.pos + (eo - so) ∧ st'.pos = st.pos + eo := by
  rw [Iterates, identStep] at h
  rw [identAppends]
  cases hm : regexec (content.drop st.pos) with
  | none =>
      rw [hm] at h
      cases h
  | some m =>
      obtain ⟨so, eo⟩ := m
      rw [hm] at h
      simp only at h ⊢
      cases hst : storeDigits st.numStr ((content.drop (so + st.pos + 1)).take (eo - so - 2)) with
      | none =>
          rw [hst] at h
          cases h
      | some numStr =>
          rw [hst] at h
          simp only at h
          split at h
          case isFalse => cases h
          case isTrue hnum =>
            obtain rfl := Sum.inl.inj h
            exact ⟨so, eo, _, rfl, if_pos hnum, rfl, rfl, rfl, rfl⟩

/-- The result of the handler is what the last iteration leaves in the buffer. -/
theorem identStep_done {res : Bytes} {selected : List Nat}
    (h : identStep content argv st = .inr (.done res selected)) :
    identAppends content argv st = some (content.length, []) ∧
      res = st.appended content content.length [] := by
  rw [identStep] at h
  rw [identAppends]
  cases hm : regexec (content.drop st.pos) with
  | none =>
      rw [hm] at h
      obtain ⟨rfl, -⟩ := IdentOut.done.inj (Sum.inr.inj h)
      exact ⟨rfl, (List.append_nil _).symm⟩
  | some m =>
      rw [hm] at h
      simp only at h
      split at h
      · cases h
      · split at h <;> cases h

/-- The length of what the buffer holds after the iteration. -/
theorem Grown.appended_length (h : Grown content st)
    (ha : identAppends content argv st = some (offset, address)) :
    ((st.appended content offset address).length : Int) + 1 =
      st.resLen + st.extraLen offset address := by
  obtain ⟨hlow, hhigh, -⟩ := h.appends ha
  have hresLen := h.resLen
  rw [IdentState.appended, IdentState.extraLen, List.length_append, List.length_append,
    List.length_take, List.length_drop]
  omega

theorem Grown.appended_proper (h : Grown content st) (hcontent : 0 ∉ content)
    (ha : identAppends content argv st = some (offset, address)) :
    0 ∉ st.appended content offset address := by
  obtain ⟨-, -, -, haddress⟩ := h.appends ha
  rw [IdentState.appended, List.mem_append, List.mem_append]
  rintro ((hres | htext) | haddr)
  · exact h.proper hres
  · exact hcontent (List.mem_of_mem_drop (List.mem_of_mem_take htext))
  · exact haddress haddr

/-- **An iteration keeps `res_len` right.** -/
theorem Grown.step (h : Grown content st) (hcontent : 0 ∉ content)
    (hstep : Iterates content argv st st') : Grown content st' := by
  obtain ⟨so, eo, address, hm, ha, hresult, hresLen, hlas, hpos⟩ := hstep.appends
  obtain ⟨hlt, hle⟩ := regexec_bound hm
  have hinside := h.inside
  rw [List.length_drop] at hle
  refine ⟨?_, ?_, by omega, by omega⟩
  · rw [hresLen, hresult, h.appended_length ha]
  · rw [hresult]
    exact h.appended_proper hcontent ha

theorem grown_start (numStr : Vector UInt8 10) : Grown content (identStart numStr) :=
  ⟨rfl, List.not_mem_nil, rfl, Nat.zero_le _⟩

/-- **It is right at the top of each iteration.** -/
theorem grown_run {numStr : Vector UInt8 10} (hcontent : 0 ∉ content)
    (h : Relation.ReflTransGen (Iterates content argv) (identStart numStr) st) :
    Grown content st := by
  induction h with
  | refl => exact grown_start numStr
  | tail _ hstep ih => exact ih.step hcontent hstep

end

/-- In the iteration in `st` the buffer is large enough, no length is negative, and
`identAppends` is what is appended. -/
structure RoomIn (content : Bytes) (argv : List Arg) (st : IdentState) : Prop where
  resLen : st.resLen = strlen st.result + 1
  room : ∀ offset address, identAppends content argv st = some (offset, address) →
    st.las ≤ offset ∧ strlen address < 50 ∧
      strlen st.result + ((offset - st.las : Int) + strlen address) + 1 ≤
        st.bufferSize offset address
  goesOn : ∀ st', Iterates content argv st st' → ∃ offset address,
    identAppends content argv st = some (offset, address) ∧
      st'.result = st.appended content offset address
  ends : ∀ res selected, identStep content argv st = .inr (.done res selected) →
    ∃ offset address, identAppends content argv st = some (offset, address) ∧
      res = st.appended content offset address

/-- **The buffer is large enough** in each iteration of the handler. -/
theorem buffer_never_overflows (content : Bytes) (argv : List Arg) (numStr : Vector UInt8 10)
    {st : IdentState}
    (h : Relation.ReflTransGen (Iterates (cString content) argv) (identStart numStr) st) :
    RoomIn (cString content) argv st := by
  have hgrown := grown_run (cString_proper content) h
  have hresLen := hgrown.resLen
  have hstrlen := strlen_of_proper hgrown.proper
  refine ⟨by rw [hstrlen, hresLen], fun offset address ha => ?_, fun st' hstep => ?_,
    fun res selected hdone => ?_⟩
  · obtain ⟨hlow, -, hshort, haddress⟩ := hgrown.appends ha
    rw [hstrlen, strlen_of_proper haddress, IdentState.bufferSize, IdentState.extraLen]
    exact ⟨hlow, hshort, by omega⟩
  · obtain ⟨so, eo, address, -, ha, hresult, -⟩ := hstep.appends
    exact ⟨_, address, ha, hresult⟩
  · exact ⟨_, [], identStep_done hdone⟩

/-- `%0s%1s`: the third iteration finds no more placeholders. -/
theorem buffer_never_overflows_twice : ∃ st,
    Relation.ReflTransGen (Iterates (cString [37, 48, 115, 37, 49, 115]) twoArgv)
      (identStart (Vector.replicate 10 0)) st ∧
    st.result = printPtr 4096 ++ printPtr 8192 ∧
    RoomIn (cString [37, 48, 115, 37, 49, 115]) twoArgv st := by
  have hsteps : ∃ st₁, identStep (cString [37, 48, 115, 37, 49, 115]) twoArgv
      (identStart (Vector.replicate 10 0)) = .inl st₁ ∧ ∃ st₂,
      identStep (cString [37, 48, 115, 37, 49, 115]) twoArgv st₁ = .inl st₂ ∧
      st₂.result = printPtr 4096 ++ printPtr 8192 := ⟨_, rfl, _, rfl, rfl⟩
  obtain ⟨st₁, hstep₁, st₂, hstep₂, hresult⟩ := hsteps
  have hrun := (Relation.ReflTransGen.single (r := Iterates _ _) hstep₁).tail hstep₂
  exact ⟨st₂, hrun, hresult, buffer_never_overflows _ _ _ hrun⟩

end YaojJudger
