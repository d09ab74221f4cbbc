/-
# `YaojJudger.ExecPolicy` — do the builtin policies allow the judger's own `execve`?

`cstdio.policy` and `cfileio.policy` allow one `execve`, that of the string at
the address `%0s` is replaced by.  The judgers exec other arguments:

    general       runner_run        argv[3]
    interactive   run_executable    argv[0]
                  run_interactor    argv[1]

both under the one filter.  What `%0s` comes to depends on the byte the buffer
holds behind the 0 (`readAs`).  If it is no digit, `argv[0]` is allowed and
nothing else; the one accident in which the general judger can exec is that the
byte is a 3, and there is none for the interactive one.

The policy compiler is a parameter (`Kafel`): of what it does only the meaning
of `path == N` is used.
-/
import YaojJudger.Chain
import YaojJudger.Placeholder

namespace YaojJudger

open Posix

/-! ## `builtin_policy` -/

def ascii (s : String) : Bytes := s.toList.map fun c => UInt8.ofNat c.toNat

/-- A policy with the rule `path == %Ns` and no other placeholder. -/
structure PathPolicy where
  head : Bytes
  ds : Bytes
  tail : Bytes
  sole : split (head ++ 37 :: (ds ++ 115 :: tail)) = ([⟨head, ds⟩], tail)

/-- The text in the policy file. -/
def PathPolicy.text (p : PathPolicy) : Bytes := p.head ++ 37 :: (p.ds ++ 115 :: p.tail)

/-- The text with an address for the placeholder. -/
def PathPolicy.withPath (p : PathPolicy) (addr : UInt64) : Bytes :=
  p.head ++ printPtr addr ++ p.tail

/-- Both policies up to the placeholder. -/
def execHead : Bytes :=
  ascii "#include \"lib.polib\"\n\nPOLICY main \x7b\n  USE basic_allow,\n  ALLOW \x7b\n" ++
    ascii "    execve(path, argv, envp) \x7b\n      path == "

def cstdioTail : Bytes := ascii "\n    \x7d\n  \x7d\n\x7d\n\nUSE main DEFAULT KILL"

def cfileioTail : Bytes := ascii "\n    \x7d,\n    dup3\n  \x7d\n\x7d\n\nUSE main DEFAULT KILL"

theorem split_sole {head ds tail : Bytes}
    (h : regexec (head ++ 37 :: (ds ++ 115 :: tail)) =
      some (head.length, head.length + ds.length + 2)) (ht : regexec tail = none) :
    split (head ++ 37 :: (ds ++ 115 :: tail)) = ([⟨head, ds⟩], tail) := by
  rw [split_append h, split_none ht]

/-- `cstdio.policy`. -/
def cstdio : PathPolicy where
  head := execHead
  ds := [48]
  tail := cstdioTail
  sole := split_sole (by decide +kernel) (by decide +kernel)

/-- `cfileio.policy`. -/
def cfileio : PathPolicy where
  head := execHead
  ds := [48]
  tail := cfileioTail
  sole := split_sole (by decide +kernel) (by decide +kernel)

/-- Neither text has a 0 in it. -/
theorem cString_text {p : PathPolicy} (hp : p = cstdio ∨ p = cfileio) :
    cString p.text = p.text := by
  rcases hp with rfl | rfl
  · decide +kernel
  · decide +kernel

/-! ## The compiler, and what is asked of its filter -/

/-- The policy compiler: the filter it makes of a text and a search path, and
whether a filter allows an `execve` by its first argument. -/
structure Kafel where
  compile : Bytes → Option Bytes → Option SockFprog
  admits : SockFprog → UInt64 → Bool
  /-- under `DEFAULT KILL`, `path == N` allows the `execve` whose first argument is `N` -/
  path_eq : ∀ {p : PathPolicy} {addr : UInt64} {dirname : Option Bytes} {prog : SockFprog},
    p = cstdio ∨ p = cfileio → compile (p.withPath addr) dirname = some prog →
      ∀ a, admits prog a = true ↔ a = addr

/-- Every answer of the compiler in the record is the compiler's. -/
def Kafel.Answers (K : Kafel) (es : List JEvent) : Prop :=
  ∀ content dirname r,
    (⟨.ask (.kafelCompile content dirname), r⟩ : JEvent) ∈ es → r = K.compile content dirname

/-- The arguments the processes of a judger exec: `runner_run`; `run_executable`
and `run_interactor`. -/
def generalExecs : List Nat := [3]

def interactiveExecs : List Nat := [0, 1]

/-- The filter allows the exec of each of these arguments. -/
def Kafel.Admits (K : Kafel) (m : Mem) (execs : List Nat) : Prop :=
  ∀ i ∈ execs, ∀ a, m.ctxt.ectxt.argv[i]? = some a → K.admits m.ctxt.pctxt.prog a.addr = true

/-! ## What the filter allows -/

/-- What the placeholder of such a policy is replaced by. -/
theorem handler_path {p : PathPolicy} {argv : List Arg} {numStr : Vector UInt8 10} {esc : Bytes}
    {selected : List Nat} (h : policyIdentifierHandler p.text argv numStr = .done esc selected) :
    ∃ a, argv[readAs numStr p.ds]? = some a ∧ esc = p.withPath a.addr := by
  rw [policyIdentifierHandler, identLoop_eq_readLoop _ _ _ rfl] at h
  simp only [List.drop_zero, placeholders, PathPolicy.text, p.sole] at h
  have hex := readLoop_explained argv p.tail [⟨p.head, p.ds⟩] numStr [] []
  rw [h] at hex
  obtain ⟨hreads, -, -, rfl⟩ := hex
  have hlt : readAs numStr p.ds < argv.length :=
    hreads.2 _ (List.mem_singleton_self _)
  refine ⟨argv[readAs numStr p.ds], List.getElem?_eq_getElem hlt, ?_⟩
  simp [digits, readings, filled, printed, PathPolicy.withPath, List.getElem?_eq_getElem hlt]

/-- A run of `compile_policy_before_fork` that returns 0: it asks for the
buffer, and its filter allows the exec of one argument. -/
theorem compiled_admits (K : Kafel) {p : PathPolicy} (hp : p = cstdio ∨ p = cfileio)
    {m m' : Mem} {es : List JEvent} (hcontent : m.ctxt.pctxt.content = some p.text)
    (hd : HookDoes .compilePolicyBeforeFork m 0 es m') (hK : K.Answers es)
    {numStr : Vector UInt8 10} (hnum : (⟨.ask .numStr, numStr⟩ : JEvent) ∈ es) :
    m'.ctxt.ectxt = m.ctxt.ectxt ∧ ∃ a, m.ctxt.ectxt.argv[readAs numStr p.ds]? = some a ∧
      ∀ x, K.admits m'.ctxt.pctxt.prog x = true ↔ x = a.addr := by
  generalize hr : (0 : Int) = r at hd
  cases hd with
  | badIdent => cases hr
  | notCompiled => cases hr
  | @compiled _ content esc numStr₀ selected prog hc hout =>
      obtain rfl := Option.some.inj (hcontent.symm.trans hc)
      have hnum₀ : numStr = numStr₀ := by
        rcases List.mem_cons.mp hnum with he | he
        · cases he; rfl
        · cases List.mem_singleton.mp he
      subst hnum₀
      rw [cString_text hp] at hout
      obtain ⟨a, ha, rfl⟩ := handler_path hout
      have hcompile := hK _ _ _ (List.mem_cons_of_mem _ (List.mem_singleton_self _))
      exact ⟨rfl, a, ha, K.path_eq hp hcompile.symm⟩

/-- How `%0s` is read. -/
theorem readAs_zero (numStr : Vector UInt8 10) :
    readAs numStr [48] = if isDigit numStr[1] then numStr[1].toNat - 48 else 0 := by
  have hstale : stale numStr [48] = numStr[1] := by
    simp [stale]
  rw [readAs, hstale]
  split
  · rw [decimal_append_singleton]
    simp [decimal]
  · rfl

theorem readAs_zero_eq_three (numStr : Vector UInt8 10) :
    readAs numStr [48] = 3 ↔ numStr[1] = 51 := by
  rw [readAs_zero]
  constructor
  · intro h
    split at h
    case isTrue hd =>
      have := isDigit_iff.mp hd
      exact UInt8.toNat_inj.mp (by rw [show (51 : UInt8).toNat = 51 from rfl]; omega)
    case isFalse => omega
  · intro h
    rw [h]
    decide

/-- **What the judgers may exec**, in terms of the number read for `%0s`. -/
theorem admits_iff (K : Kafel) {p : PathPolicy} (hp : p = cstdio ∨ p = cfileio) {m m' : Mem}
    {es : List JEvent} (hcontent : m.ctxt.pctxt.content = some p.text)
    (hdistinct : (m.ctxt.ectxt.argv.map Arg.addr).Nodup)
    (hd : HookDoes .compilePolicyBeforeFork m 0 es m') (hK : K.Answers es)
    {numStr : Vector UInt8 10} (hnum : (⟨.ask .numStr, numStr⟩ : JEvent) ∈ es) {execs : List Nat}
    (hexecs : ∀ i ∈ execs, i < m.ctxt.ectxt.argc) :
    K.Admits m' execs ↔ ∀ i ∈ execs, i = readAs numStr p.ds := by
  obtain ⟨hargv, a, ha, hadmits⟩ := compiled_admits K hp hcontent hd hK hnum
  unfold Kafel.Admits
  rw [hargv]
  refine forall₂_congr fun i hi => ?_
  have hi' : i < m.ctxt.ectxt.argv.length := hexecs i hi
  constructor
  · intro h
    have haddr := (hadmits _).mp (h _ (List.getElem?_eq_getElem hi'))
    obtain ⟨hv, rfl⟩ := List.getElem?_eq_some_iff.mp ha
    have hi'' : i < (m.ctxt.ectxt.argv.map Arg.addr).length := by rwa [List.length_map]
    have hv' : readAs numStr p.ds < (m.ctxt.ectxt.argv.map Arg.addr).length := by
      rwa [List.length_map]
    have hsame : (m.ctxt.ectxt.argv.map Arg.addr)[i] =
        (m.ctxt.ectxt.argv.map Arg.addr)[readAs numStr p.ds] := by
      rwa [List.getElem_map, List.getElem_map]
    exact hdistinct.getElem_inj_iff.mp hsame
  · rintro rfl a' ha'
    obtain rfl := Option.some.inj (ha.symm.trans ha')
    exact (hadmits _).mpr rfl

/-- **When the builtin policies allow the judger's own `execve`**: the general
judger's if the buffer holds a 3 behind the 0, both of the interactive one never. -/
theorem own_exec_iff (K : Kafel) {p : PathPolicy} (hp : p = cstdio ∨ p = cfileio)
    {l l' : JLocal} {m m' : Mem} {es : List JEvent}
    (hcontent : m.ctxt.pctxt.content = some p.text)
    (hdistinct : (m.ctxt.ectxt.argv.map Arg.addr).Nodup)
    (hrun : Code.Runs compilePolicyBeforeFork l m 0 l' m') (hlog : l'.log = l.log ++ es)
    (hK : K.Answers es) {numStr : Vector UInt8 10}
    (hnum : (⟨.ask .numStr, numStr⟩ : JEvent) ∈ es) :
    (4 ≤ m.ctxt.ectxt.argc → (K.Admits m' generalExecs ↔ numStr[1] = 51)) ∧
      (m.ctxt.ectxt.argc = 6 → ¬ K.Admits m' interactiveExecs) := by
  obtain ⟨es', hd, hlog'⟩ := runs_compilePolicyBeforeFork hrun
  obtain rfl : es = es' := List.append_cancel_left (hlog.symm.trans hlog')
  have hds : p.ds = [48] := by
    rcases hp with rfl | rfl
    · rfl
    · rfl
  constructor
  · intro hargc
    have hexecs : ∀ i ∈ generalExecs, i < m.ctxt.ectxt.argc := fun i hi => by
      obtain rfl := List.mem_singleton.mp hi
      omega
    rw [admits_iff K hp hcontent hdistinct hd hK hnum hexecs, hds, ← readAs_zero_eq_three]
    exact ⟨fun h => (h 3 (List.mem_singleton_self 3)).symm, fun h i hi => by
      rw [h]; exact List.mem_singleton.mp hi⟩
  · intro hargc h
    have hexecs : ∀ i ∈ interactiveExecs, i < m.ctxt.ectxt.argc := fun i hi => by
      have : i = 0 ∨ i = 1 := by simpa [interactiveExecs] using hi
      omega
    have hall := (admits_iff K hp hcontent hdistinct hd hK hnum hexecs).mp h
    have h₀ := hall 0 (by simp [interactiveExecs])
    have h₁ := hall 1 (by simp [interactiveExecs])
    omega

/-! ## A compiler for these two policies -/

theorem hexDigits_isHex (n a : Nat) : ∀ b ∈ hexDigits n a, (hexVal b).isSome :=
  hexDigits_all (fun d => hexVal_hexDigit d ▸ rfl) n a

/-- A filter that compares both halves of the first argument. -/
def pathFilter (a : UInt64) : SockFprog :=
  [⟨21, 0, 1, a.toUInt32⟩, ⟨21, 0, 1, (a >>> 32).toUInt32⟩]

theorem pathFilter_inj {a b : UInt64} (h : pathFilter a = pathFilter b) : a = b := by
  simp only [pathFilter, List.cons.injEq, SockFilter.mk.injEq, true_and, and_true] at h
  have hlow := congrArg UInt32.toNat h.1
  have hhigh := congrArg UInt32.toNat h.2
  simp at hlow hhigh
  have ha := a.toNat_lt
  have hb := b.toNat_lt
  refine UInt64.toNat_inj.mp ?_
  omega

/-- The address behind the head of the two policies. -/
def pathOf (text : Bytes) : UInt64 :=
  UInt64.ofNat (hexValue
    ((text.drop (execHead.length + 2)).takeWhile fun b => (hexVal b).isSome))

theorem pathOf_withPath {p : PathPolicy} (hp : p = cstdio ∨ p = cfileio) (addr : UInt64) :
    pathOf (p.withPath addr) = addr := by
  obtain ⟨b, tail, hhead, htail, hb⟩ : ∃ b tail, p.head = execHead ∧ p.tail = b :: tail ∧
      hexVal b = none := by
    rcases hp with rfl | rfl
    · exact ⟨10, cstdioTail.tail, rfl, rfl, rfl⟩
    · exact ⟨10, cfileioTail.tail, rfl, rfl, rfl⟩
  have hdrop : (p.withPath addr).drop (execHead.length + 2) =
      hexDigits 16 addr.toNat ++ b :: tail := by
    rw [PathPolicy.withPath, hhead, htail, List.append_assoc, List.drop_append]
    simp [printPtr]
  rw [pathOf, hdrop, List.takeWhile_append_of_pos (hexDigits_isHex 16 addr.toNat),
    List.takeWhile_cons_of_neg (by simp [hb]), List.append_nil,
    hexValue_hexDigits 16 _ (by have := addr.toNat_lt; omega), UInt64.ofNat_toNat]

/-- A compiler that knows the two policies. -/
def pathKafel : Kafel where
  compile text _ := some (pathFilter (pathOf text))
  admits prog a := prog == pathFilter a
  path_eq {p addr dirname prog} hp h a := by
    obtain rfl := Option.some.inj h
    rw [pathOf_withPath hp, beq_iff_eq]
    exact ⟨fun h => (pathFilter_inj h).symm, fun h => h ▸ rfl⟩

/-- Four arguments at different addresses, under `cstdio.policy`. -/
def cstdioMem : Mem :=
  Mem.create { yjudgerCtxtCreate blankResult noRusage with
    ectxt := { argv := [⟨4096, []⟩, ⟨8192, []⟩, ⟨12288, []⟩, ⟨16384, [97]⟩], env := [] }
    pctxt := { policyCtxtCreate with content := some cstdio.text } } 3

/-- The buffer, with the byte behind the first digit. -/
def bufferWith (b : UInt8) : Vector UInt8 10 := (Vector.replicate 10 0).set 1 b

/-- The policy compiles, with that buffer. -/
theorem cstdio_compiles (b : UInt8) {a : Arg}
    (ha : cstdioMem.ctxt.ectxt.argv[readAs (bufferWith b) [48]]? = some a) :
    HookDoes .compilePolicyBeforeFork cstdioMem 0
      [⟨.ask .numStr, bufferWith b⟩,
        ⟨.ask (.kafelCompile (cstdio.withPath a.addr) none), some (pathFilter a.addr)⟩]
      (cstdioMem.compiled (pathFilter a.addr)) := by
  obtain ⟨hlt, rfl⟩ := List.getElem?_eq_some_iff.mp ha
  refine @HookDoes.compiled _ _ _ _ [readAs (bufferWith b) [48]] _ rfl ?_
  rw [cString_text (Or.inl rfl), policyIdentifierHandler, identLoop_eq_readLoop _ _ _ rfl]
  simp only [List.drop_zero, placeholders]
  rw [show split cstdio.text = ([⟨cstdio.head, [48]⟩], cstdio.tail) from cstdio.sole]
  have hshort : (storeDigits (bufferWith b) [48]).isSome :=
    storeDigits_isSome_iff.mpr (show ([48] : Bytes).length ≤ 8 by decide)
  obtain ⟨numStr', hstore⟩ := Option.isSome_iff_exists.mp hshort
  simp only [readLoop, hstore, if_pos hlt, printed, ha]
  rfl

theorem pathKafel_answers (numStr : Vector UInt8 10) (addr : UInt64) (dirname : Option Bytes) :
    pathKafel.Answers [⟨.ask .numStr, numStr⟩,
      ⟨.ask (.kafelCompile (cstdio.withPath addr) dirname), some (pathFilter addr)⟩] := by
  intro content dirname' r h
  rcases List.mem_cons.mp h with h | h
  · cases h
  · cases List.mem_singleton.mp h
    exact congrArg some (congrArg pathFilter (pathOf_withPath (Or.inl rfl) addr).symm)

/-- With a 3 behind the 0 the general judger may exec. -/
theorem own_exec_three : ∃ l' m',
    Code.Runs compilePolicyBeforeFork (.start (.inheritedBelow 4)) cstdioMem 0 l' m' ∧
      pathKafel.Admits m' generalExecs := by
  obtain ⟨l', hrun, hlog⟩ := (cstdio_compiles 51 (a := ⟨16384, [97]⟩) (by decide)).runs
    (.start (.inheritedBelow 4))
  exact ⟨l', _, hrun, ((own_exec_iff pathKafel (Or.inl rfl) rfl (by decide) hrun hlog
    (pathKafel_answers _ _ _) List.mem_cons_self).1 (by decide)).mpr (by decide)⟩

/-- With a buffer of zeros the filter kills the general judger's `execve`. -/
theorem own_exec_killed : ∃ l' m',
    Code.Runs compilePolicyBeforeFork (.start (.inheritedBelow 4)) cstdioMem 0 l' m' ∧
      (cstdioMem.ctxt.ectxt.argv.map Arg.addr).Nodup ∧ 4 ≤ cstdioMem.ctxt.ectxt.argc ∧
      ¬ pathKafel.Admits m' generalExecs := by
  have hd := cstdio_compiles 0 (a := ⟨4096, []⟩) (by decide)
  obtain ⟨l', hrun, -⟩ := hd.runs (.start (.inheritedBelow 4))
  refine ⟨l', _, hrun, by decide, by decide, fun h => ?_⟩
  have hall := (admits_iff pathKafel (Or.inl rfl) rfl (by decide) hd (pathKafel_answers _ _ _)
    List.mem_cons_self (by decide)).mp h
  exact absurd (hall 3 (List.mem_singleton_self 3)) (by decide)

end YaojJudger
