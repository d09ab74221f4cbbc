/-
# `YaojJudger.PolicyDir` — the directory a policy comes from

The first half of `lib/policy.c`, with `path_join`, `ftos` and `rmtree_depth1`
of `common.c` and `yjudger_ctxt_free` of `helper.c`.

A builtin policy is written out into a directory of its own, made by `mkdtemp`,
and then loaded from there like a user policy; `is_builtin` records that the
directory is to be deleted when the context is freed.  `policy_set` and
`policy_set_builtin` call each other: the name loses its `builtin:` at each
round.

The list of builtin policies is generated when the judger is built, so it is a
parameter.  Every file system call may fail.
-/
import YaojJudger.Helper

namespace YaojJudger

open Posix

/-! ## `common.c` -/

abbrev slash : UInt8 := 47
abbrev dot : UInt8 := 46

def pathJoin (first : Bytes) (seperator : UInt8) (second : Bytes) : Bytes :=
  (if first.getLast? = some seperator then first.dropLast else first) ++ seperator :: second

/-- The buffer, up to the 0 that is put behind it. -/
def ftos (fp : Nat) : Code Bytes := do
  let size ← ask (.fsize fp)
  let s ← ask (.fread fp size)
  let _ ← ask (.fclose fp)
  return s.take size

/-- The loop over the entries of `path`; 0 when all of them are gone. -/
def removeEntries (path : Bytes) : List Bytes → Code Int
  | [] => return 0
  | name :: names => do
      if name = [dot] ∨ name = [dot, dot] then removeEntries path names
      else
        let fullPath := pathJoin path slash name
        let _ ← ask (.stat fullPath)
        if ← ask (.unlink fullPath) then removeEntries path names
        else yreturn eError

/-- A null `path` is undefined. -/
def rmtreeDepth1 : Option Bytes → Code Int
  | none => Code.undefined
  | some path => do
      if ← ask (.stat path) then
        match ← ask (.opendir path) with
        | none => yreturn eError
        | some names =>
            let flag ← removeEntries path names
            if flag ≠ 0 then return flag
            else if ← ask (.rmdir path) then
              let _ ← ask .closedir
              return 0
            else yreturn eError
      else yreturn eError

/-! ## `lib/policy.c` -/

/-- `"builtin:"`. -/
def builtinPrefix : Bytes := [98, 117, 105, 108, 116, 105, 110, 58]

/-- `"/tmp/yjudger.XXXXXX"`. -/
def tmpTemplate : Bytes :=
  [47, 116, 109, 112, 47, 121, 106, 117, 100, 103, 101, 114, 46, 88, 88, 88, 88, 88, 88]

/-- `"policy"`. -/
def policySuffix : Bytes := [112, 111, 108, 105, 99, 121]

def isBuiltinPolicy (policy : Bytes) : Bool := builtinPrefix.isPrefixOf policy

/-- `struct builtin_policy`. -/
structure BuiltinPolicy where
  filename : Bytes
  content : Bytes
  deriving DecidableEq, Repr

/-- Change the policy context. -/
def modifyPolicy (f : PolicyCtxt → PolicyCtxt) : Code Unit :=
  modifyCtxt fun ctxt => { ctxt with pctxt := f ctxt.pctxt }

/-- The loop that writes the builtin policies into `tdir`; 0 when all are written. -/
def writePolicies (tdir : Bytes) : List BuiltinPolicy → Code Int
  | [] => return 0
  | p :: list => do
      match ← ask (.fopen (pathJoin tdir slash p.filename) true) with
      | none => yreturn eFp
      | some fp =>
          if (← ask (.fwrite p.content fp)) ≠ p.content.length then yreturn eBultinPol
          else
            let _ ← ask (.fclose fp)
            writePolicies tdir list

/-- `policy_set_builtin`, where `policySetIn` is `policy_set` of the shorter name. -/
def policySetBuiltin (list : List BuiltinPolicy) (policySetIn : Bytes → Code Int) : Code Int := do
  match ← ask (.mkdtemp tmpTemplate) with
  | none => yreturn eBultinPol
  | some tdir =>
      let flag ← writePolicies tdir list
      if flag ≠ 0 then return flag
      else
        modifyPolicy fun pctxt => { pctxt with isBuiltin := true }
        policySetIn tdir

theorem length_of_isBuiltinPolicy {policy : Bytes} (h : isBuiltinPolicy policy = true) :
    8 ≤ policy.length :=
  (List.isPrefixOf_iff_prefix.mp h).length_le

/-- The file a policy is read from. -/
def policyFile (dirname policy : Bytes) : Bytes :=
  pathJoin (pathJoin dirname slash policy) dot policySuffix

def policySet (list : List BuiltinPolicy) (dirname policy : Bytes) : Code Int := do
  if _h : isBuiltinPolicy policy then
    policySetBuiltin list fun tdir => policySet list tdir (policy.drop 8)
  else
    match ← ask (.fopen (policyFile dirname policy) false) with
    | none => yreturn eFp
    | some fp =>
        let content ← ftos fp
        modifyPolicy fun pctxt =>
          { pctxt with content := some content, dirname := some dirname, policy := some policy }
        return 0
termination_by policy.length
decreasing_by
  have := length_of_isBuiltinPolicy _h
  simp only [List.length_drop]
  omega

/-! ## `yjudger_ctxt_free` -/

def yjudgerCtxtFree : Code Unit := do
  let m ← Code.get
  if m.ctxt.pctxt.isBuiltin then
    let _ ← rmtreeDepth1 m.ctxt.pctxt.dirname
    return ()
  else return ()

/-! ## What the events of a call say -/

/-- `mkdtemp` made `dir`. -/
def MadeIn (es : List JEvent) (dir : Bytes) : Prop :=
  (⟨.ask (.mkdtemp tmpTemplate), some dir⟩ : JEvent) ∈ es

/-- The policy file was opened. -/
def Opened (es : List JEvent) : Prop :=
  ∃ path fp, (⟨.ask (.fopen path false), some fp⟩ : JEvent) ∈ es

def isMkdtemp : JEvent → Bool
  | ⟨.ask (.mkdtemp _), _⟩ => true
  | _ => false

def isReadOpen : JEvent → Bool
  | ⟨.ask (.fopen _ false), _⟩ => true
  | _ => false

/-- `policy_set` was entered again from `policy_set_builtin`: it tried to open a
policy file, or to make a second directory. -/
def Reentered (es : List JEvent) : Prop := es.any isReadOpen = true ∨ 2 ≤ es.countP isMkdtemp

/-- An event of neither kind. -/
def Neutral (e : JEvent) : Prop := isMkdtemp e = false ∧ isReadOpen e = false

theorem not_opened_of_no_readOpen {es : List JEvent} (h : es.any isReadOpen = false) :
    ¬ Opened es := by
  rintro ⟨path, fp, hmem⟩
  have := List.any_eq_false.mp h _ hmem
  exact this rfl

theorem neutral_any {es : List JEvent} (h : ∀ e ∈ es, Neutral e) : es.any isReadOpen = false :=
  List.any_eq_false.mpr fun e he => by simp [(h e he).2]

theorem neutral_countP {es : List JEvent} (h : ∀ e ∈ es, Neutral e) : es.countP isMkdtemp = 0 :=
  List.countP_eq_zero.mpr fun e he => by simp [(h e he).1]

/-! ## What each function does to the policy context -/

section
variable {pre : JLocal → Call → Prop} {fin : JLocal → Int → Prop}

/-- Writing the builtin policies leaves the context alone. -/
theorem writePolicies_wp (tdir : Bytes) (hpre : ∀ l q, pre l (.ask q)) :
    ∀ (list : List BuiltinPolicy) (l : JLocal) (m : Mem) (Q : JLocal → Int → Mem → Prop),
      (∀ es r m', (∀ e ∈ es, Neutral e) → m'.ctxt = m.ctxt → Q (told l es) r m') →
      Code.wp pre fin (writePolicies tdir list) Q l m
  | [], l, m, Q, hQ => by
      have := hQ [] 0 m (fun e he => absurd he List.not_mem_nil) rfl
      rw [told_nil] at this
      exact this
  | p :: list, l, m, Q, hQ => by
      refine (wp_ask_bind _ _ _).mpr ⟨hpre _ _, fun fp => ?_⟩
      cases fp with
      | none =>
          simp only [wp_yreturn, told_told]
          refine ⟨hpre _ _, hQ _ _ _ ?_ rfl⟩
          simp [Neutral, isMkdtemp, isReadOpen]
      | some fp =>
          refine (wp_ask_bind _ _ _).mpr ⟨hpre _ _, fun n => ?_⟩
          rw [Code.wp_ite, wp_yreturn, told_told, told_told]
          refine ⟨fun _ => ⟨hpre _ _, hQ _ _ _ ?_ rfl⟩, fun _ => ?_⟩
          · simp [Neutral, isMkdtemp, isReadOpen]
          · refine (wp_ask_bind _ _ _).mpr ⟨hpre _ _, fun _ => ?_⟩
            refine writePolicies_wp tdir hpre list _ m Q fun es r m' hes hm => ?_
            rw [told_told, told_told]
            refine hQ _ r m' ?_ hm
            simp only [List.forall_mem_append]
            refine ⟨?_, ?_, hes⟩ <;> simp [Neutral, isMkdtemp, isReadOpen]

end

/-- What `policy_set(dirname, policy)` does, by what happened in it. -/
structure SetSpec (dirname policy : Bytes) (pctxt pctxt' : PolicyCtxt) (r : Int)
    (es : List JEvent) : Prop where
  started : es.any isReadOpen = true ∨ 1 ≤ es.countP isMkdtemp
  result : r = 0 ↔ Opened es
  opened : Opened es → pctxt'.isBuiltin = (pctxt.isBuiltin || isBuiltinPolicy policy) ∧
    ∃ dir, pctxt'.dirname = some dir ∧ (isBuiltinPolicy policy = true → MadeIn es dir) ∧
      (isBuiltinPolicy policy = false → dir = dirname)
  failed : ¬ Opened es → pctxt' = { pctxt with isBuiltin := pctxt'.isBuiltin } ∧
    (pctxt'.isBuiltin = true ↔
      pctxt.isBuiltin = true ∨ isBuiltinPolicy policy = true ∧ Reentered es)

/-- A builtin policy that fails before the flag is set. -/
theorem setSpec_early {dirname policy : Bytes} {pctxt : PolicyCtxt} {r : Int} {es : List JEvent}
    (hr : r ≠ 0) (hmk : es.countP isMkdtemp = 1) (hro : es.any isReadOpen = false) :
    SetSpec dirname policy pctxt pctxt r es where
  started := Or.inr (by omega)
  result := ⟨fun h => absurd h hr, fun h => absurd h (not_opened_of_no_readOpen hro)⟩
  opened := fun h => absurd h (not_opened_of_no_readOpen hro)
  failed := fun _ => by
    refine ⟨rfl, fun h => Or.inl h, fun h => h.resolve_right ?_⟩
    rintro ⟨-, h | h⟩
    · rw [hro] at h; cases h
    · omega

/-- A builtin policy whose directory `tdir` has been filled, from the rest. -/
theorem setSpec_builtin {dirname policy tdir : Bytes} {pctxt pctxt' : PolicyCtxt} {r : Int}
    {es es' : List JEvent} (hb : isBuiltinPolicy policy = true) (hes : ∀ e ∈ es, Neutral e)
    (h : SetSpec tdir (policy.drop 8) { pctxt with isBuiltin := true } pctxt' r es') :
    SetSpec dirname policy pctxt pctxt' r
      ((⟨.ask (.mkdtemp tmpTemplate), some tdir⟩ : JEvent) :: es ++ es') := by
  have hmk : ((⟨.ask (.mkdtemp tmpTemplate), some tdir⟩ : JEvent) :: es ++ es').countP isMkdtemp =
      1 + es'.countP isMkdtemp := by
    rw [List.countP_append, List.countP_cons, neutral_countP hes]
    simp [isMkdtemp]
  have hro : ((⟨.ask (.mkdtemp tmpTemplate), some tdir⟩ : JEvent) :: es ++ es').any isReadOpen =
      es'.any isReadOpen := by
    rw [List.any_append, List.any_cons, neutral_any hes]
    simp [isReadOpen]
  have hop : Opened ((⟨.ask (.mkdtemp tmpTemplate), some tdir⟩ : JEvent) :: es ++ es') →
      Opened es' := by
    rintro ⟨path, fp, hm⟩
    refine ⟨path, fp, ?_⟩
    rcases List.mem_append.mp hm with hm | hm
    · rcases List.mem_cons.mp hm with hm | hm
      · cases hm
      · cases (hes _ hm).2
    · exact hm
  have hop' : Opened es' →
      Opened ((⟨.ask (.mkdtemp tmpTemplate), some tdir⟩ : JEvent) :: es ++ es') := by
    rintro ⟨path, fp, hm⟩
    exact ⟨path, fp, List.mem_append_right _ hm⟩
  have hre : Reentered ((⟨.ask (.mkdtemp tmpTemplate), some tdir⟩ : JEvent) :: es ++ es') := by
    rw [Reentered, hmk, hro]
    exact h.started.imp id fun h => by omega
  refine ⟨Or.inr (by rw [hmk]; omega), h.result.trans ⟨hop', hop⟩, fun ho => ?_, fun ho => ?_⟩
  · obtain ⟨hflag, dir, hdir, hyes, hno⟩ := h.opened (hop ho)
    refine ⟨by rw [hflag, hb]; simp, dir, hdir, fun _ => ?_, fun hn => ?_⟩
    · cases hb' : isBuiltinPolicy (policy.drop 8) with
      | true => exact List.mem_append_right _ (hyes hb')
      | false =>
          obtain rfl := hno hb'
          exact List.mem_append_left _ List.mem_cons_self
    · rw [hb] at hn; cases hn
  · obtain ⟨hsame, hflag⟩ := h.failed fun h => ho (hop' h)
    exact ⟨hsame, fun _ => Or.inr ⟨hb, hre⟩, fun _ => hflag.mpr (Or.inl rfl)⟩

/-- A user policy whose file cannot be opened. -/
theorem setSpec_user_failed {dirname policy : Bytes} {pctxt : PolicyCtxt} {r : Int}
    {es : List JEvent} (hr : r ≠ 0) (hb : isBuiltinPolicy policy = false)
    (hro : es.any isReadOpen = true) (ho : ¬ Opened es) :
    SetSpec dirname policy pctxt pctxt r es where
  started := Or.inl hro
  result := ⟨fun h => absurd h hr, fun h => absurd h ho⟩
  opened := fun h => absurd h ho
  failed := fun _ => ⟨rfl, fun h => Or.inl h, fun h => h.resolve_right fun h => by simp [hb] at h⟩

/-- A user policy that is loaded. -/
theorem setSpec_user_opened {dirname policy content : Bytes} {pctxt : PolicyCtxt}
    {es : List JEvent} (hb : isBuiltinPolicy policy = false) (hro : es.any isReadOpen = true)
    (ho : Opened es) :
    SetSpec dirname policy pctxt
      { pctxt with
        content := some content, dirname := some dirname, policy := some policy } 0 es where
  started := Or.inl hro
  result := ⟨fun _ => ho, fun _ => rfl⟩
  opened := fun _ =>
    ⟨by simp [hb], dirname, rfl, fun h => absurd h (by simp [hb]), fun _ => rfl⟩
  failed := fun h => absurd ho h

theorem ftos_wp {pre : JLocal → Call → Prop} {fin : JLocal → Int → Prop}
    (hpre : ∀ l q, pre l (.ask q)) (fp : Nat) (l : JLocal) (m : Mem)
    (Q : JLocal → Bytes → Mem → Prop)
    (hQ : ∀ es s, Q (told l es) s m) : Code.wp pre fin (ftos fp) Q l m := by
  refine (wp_ask_bind _ _ _).mpr ⟨hpre _ _, fun size => ?_⟩
  refine (wp_ask_bind _ _ _).mpr ⟨hpre _ _, fun s => ?_⟩
  refine (wp_ask_bind _ _ _).mpr ⟨hpre _ _, fun _ => ?_⟩
  rw [told_told, told_told]
  exact hQ _ _

theorem policySet_wp {pre : JLocal → Call → Prop} {fin : JLocal → Int → Prop}
    (hpre : ∀ l q, pre l (.ask q)) (list : List BuiltinPolicy) :
    ∀ (n : Nat) (dirname policy : Bytes) (l : JLocal) (m : Mem) (Q : JLocal → Int → Mem → Prop),
      policy.length = n →
      (∀ es r m', SetSpec dirname policy m.ctxt.pctxt m'.ctxt.pctxt r es → Q (told l es) r m') →
      Code.wp pre fin (policySet list dirname policy) Q l m := by
  intro n
  induction n using Nat.strong_induction_on with
  | _ n ih =>
      intro dirname policy l m Q hn hQ
      rw [policySet]
      cases hb : isBuiltinPolicy policy with
      | true =>
          rw [dif_pos rfl]
          refine (wp_ask_bind _ _ _).mpr ⟨hpre _ _, fun made => ?_⟩
          cases made with
          | none =>
              simp only [wp_yreturn, told_told]
              exact ⟨hpre _ _, hQ _ _ _ (setSpec_early (by decide) rfl rfl)⟩
          | some tdir =>
              rw [Code.wp_bind]
              refine writePolicies_wp tdir hpre list _ m _ fun es r m' hes hm => ?_
              rw [told_told, Code.wp_ite]
              constructor
              · intro hr
                refine hQ _ r m' ?_
                rw [hm]
                refine setSpec_early hr ?_ ?_
                · rw [List.countP_append, neutral_countP hes]; rfl
                · rw [List.any_append, neutral_any hes]; rfl
              · intro _
                rw [modifyPolicy, Code.wp_bind, wp_modifyCtxt]
                have hlen := length_of_isBuiltinPolicy hb
                refine ih (policy.drop 8).length (by simp only [List.length_drop]; omega) tdir _ _ _
                  Q rfl fun es' r m'' hspec => ?_
                rw [told_told]
                refine hQ _ r m'' (setSpec_builtin hb hes ?_)
                rw [← hm]
                exact hspec
      | false =>
          rw [dif_neg (by simp)]
          refine (wp_ask_bind _ _ _).mpr ⟨hpre _ _, fun fp => ?_⟩
          cases fp with
          | none =>
              simp only [wp_yreturn, told_told]
              refine ⟨hpre _ _, hQ _ _ _ (setSpec_user_failed (by decide) hb rfl ?_)⟩
              rintro ⟨path, fp, hm⟩
              simp at hm
          | some fp =>
              rw [Code.wp_bind]
              refine ftos_wp hpre fp _ m _ fun es content => ?_
              rw [told_told, modifyPolicy, Code.wp_bind, wp_modifyCtxt]
              exact hQ _ 0 _ (setSpec_user_opened hb rfl ⟨_, fp, List.mem_cons_self⟩)

/-! ## Only own directories are deleted -/

/-- While `is_builtin` is set, the directory is one that `mkdtemp` made. -/
def DirOwned (l : JLocal) (m : Mem) : Prop :=
  m.ctxt.pctxt.isBuiltin = true → ∃ dir, m.ctxt.pctxt.dirname = some dir ∧ MadeIn l.log dir

/-- A call that deletes at most something of a directory made by `mkdtemp`, and
has no null path. -/
def MayDelete (l : JLocal) : Call → Prop
  | .ask (.unlink path) => ∃ dir name, MadeIn l.log dir ∧ path = pathJoin dir slash name
  | .ask (.rmdir path) => MadeIn l.log path
  | .fault => False
  | _ => True

/-- Freeing the context now deletes nothing else, however the calls of
`rmtree_depth1` are answered. -/
def FreeSafe (l : JLocal) (m : Mem) : Prop :=
  Code.wp MayDelete (fun _ _ => True) yjudgerCtxtFree (fun _ _ _ => True) l m

theorem MadeIn.told {l : JLocal} {dir : Bytes} (h : MadeIn l.log dir) (es : List JEvent) :
    MadeIn (told l es).log dir := List.mem_append_left _ h

theorem removeEntries_wp {fin : JLocal → Int → Prop} {path : Bytes} :
    ∀ (names : List Bytes) (l : JLocal) (m : Mem) (Q : JLocal → Int → Mem → Prop),
      MadeIn l.log path → (∀ es r m', Q (told l es) r m') →
      Code.wp MayDelete fin (removeEntries path names) Q l m
  | [], l, m, Q, _, hQ => by
      have := hQ [] 0 m
      rw [told_nil] at this
      exact this
  | name :: names, l, m, Q, hmade, hQ => by
      rw [removeEntries, Code.wp_ite]
      refine ⟨fun _ => removeEntries_wp names l m Q hmade hQ, fun _ => ?_⟩
      refine (wp_ask_bind _ _ _).mpr ⟨trivial, fun _ => ?_⟩
      refine (wp_ask_bind _ _ _).mpr ⟨⟨path, name, hmade.told _, rfl⟩, fun removed => ?_⟩
      rw [told_told, Code.wp_ite, wp_yreturn, told_told]
      refine ⟨fun _ => ?_, fun _ => ⟨trivial, hQ _ _ _⟩⟩
      refine removeEntries_wp names _ m Q (hmade.told _) fun es r m' => ?_
      rw [told_told]
      exact hQ _ r m'

theorem rmtreeDepth1_wp {fin : JLocal → Int → Prop} {path : Bytes} {l : JLocal} {m : Mem}
    {Q : JLocal → Int → Mem → Prop} (hmade : MadeIn l.log path)
    (hQ : ∀ es r m', Q (told l es) r m') :
    Code.wp MayDelete fin (rmtreeDepth1 (some path)) Q l m := by
  refine (wp_ask_bind _ _ _).mpr ⟨trivial, fun isDir => ?_⟩
  rw [Code.wp_ite, wp_yreturn, told_told]
  refine ⟨fun _ => ?_, fun _ => ⟨trivial, hQ _ _ _⟩⟩
  refine (wp_ask_bind _ _ _).mpr ⟨trivial, fun names => ?_⟩
  cases names with
  | none =>
      simp only [wp_yreturn, told_told]
      exact ⟨trivial, hQ _ _ _⟩
  | some names =>
      rw [Code.wp_bind, told_told]
      refine removeEntries_wp names _ m _ (hmade.told _) fun es flag m' => ?_
      rw [told_told, Code.wp_ite, Code.wp_pure]
      refine ⟨fun _ => hQ _ _ _, fun _ => ?_⟩
      refine (wp_ask_bind _ _ _).mpr ⟨hmade.told _, fun removed => ?_⟩
      rw [told_told, Code.wp_ite, wp_yreturn, told_told]
      refine ⟨fun _ => ?_, fun _ => ⟨trivial, hQ _ _ _⟩⟩
      refine (wp_ask_bind _ _ _).mpr ⟨trivial, fun _ => ?_⟩
      rw [told_told, Code.wp_pure]
      exact hQ _ _ _

theorem DirOwned.freeSafe {l : JLocal} {m : Mem} (h : DirOwned l m) : FreeSafe l m := by
  rw [FreeSafe, yjudgerCtxtFree, Code.wp_bind, Code.wp_get, Code.wp_ite]
  refine ⟨fun hflag => ?_, fun _ => trivial⟩
  obtain ⟨dir, hdir, hmade⟩ := h hflag
  rw [hdir, Code.wp_bind]
  exact rmtreeDepth1_wp hmade fun _ _ _ => trivial

/-- The directory is the judger's own, and freeing the context deletes nothing else. -/
def Safe (l : JLocal) (m : Mem) : Prop := DirOwned l m ∧ FreeSafe l m

/-! ## Sequences of calls -/

/-- The call `x` can take `l` and `m` to `l'` and `m'`. -/
def Ends {α : Type} (x : Code α) (l : JLocal) (m : Mem) (l' : JLocal) (m' : Mem) : Prop :=
  ∃ a, Prog.Steps Local.Step l (x m) l' (.ret (a, m'))

/-- What a rule says of a call holds at its end. -/
theorem Ends.wp {α : Type} {x : Code α} {l l' : JLocal} {m m' : Mem} (h : Ends x l m l' m')
    {Q : JLocal → α → Mem → Prop}
    (hw : Code.wp (fun _ _ => True) (fun _ _ => True) x Q l m) : ∃ a, Q l' a m' := by
  obtain ⟨a, hs⟩ := h
  exact ⟨a, hs.wp hw⟩

/-- The step does not go wrong: a user policy is set while the flag is clear, or
its file cannot be opened, or its directory is one that was made; a builtin
policy is set while the flag is set, or finds its file, or fails before the flag
is set, or leaves a directory that was made. -/
def KeepsOwn (pctxt : PolicyCtxt) (dirname policy : Bytes) (l' : JLocal) (es : List JEvent) :
    Prop :=
  if isBuiltinPolicy policy then
    pctxt.isBuiltin = true ∨ Opened es ∨ ¬ Reentered es ∨
      ∃ dir, pctxt.dirname = some dir ∧ MadeIn l'.log dir
  else
    pctxt.isBuiltin = false ∨ ¬ Opened es ∨ MadeIn l'.log dirname

/-- The contexts reached by calls of `yjudger_set_policy` that each meet `ok`. -/
inductive SetPolicies (list : List BuiltinPolicy)
    (ok : PolicyCtxt → Bytes → Bytes → JLocal → List JEvent → Prop) (l₀ : JLocal) (m₀ : Mem) :
    JLocal → Mem → Prop
  | start : SetPolicies list ok l₀ m₀ l₀ m₀
  | call {l l' : JLocal} {m m' : Mem} {dirname policy : Bytes} {es : List JEvent} :
      SetPolicies list ok l₀ m₀ l m → Ends (policySet list dirname policy) l m l' m' →
      l'.log = l.log ++ es → ok m.ctxt.pctxt dirname policy l' es →
      SetPolicies list ok l₀ m₀ l' m'

/-- The end of a call meets its specification. -/
theorem Ends.setSpec {list : List BuiltinPolicy} {l l' : JLocal} {m m' : Mem}
    {dirname policy : Bytes} {es : List JEvent}
    (h : Ends (policySet list dirname policy) l m l' m') (hlog : l'.log = l.log ++ es) :
    ∃ r, SetSpec dirname policy m.ctxt.pctxt m'.ctxt.pctxt r es := by
  obtain ⟨r, es', rfl, hs⟩ := h.wp (Q := fun l' r m' =>
    ∃ es, l' = told l es ∧ SetSpec dirname policy m.ctxt.pctxt m'.ctxt.pctxt r es)
    (policySet_wp (fun _ _ => trivial) list _ dirname policy l m _ rfl
      fun es _ m' hs => ⟨es, rfl, hs⟩)
  obtain rfl : es' = es := List.append_cancel_left hlog
  exact ⟨r, hs⟩

/-- One call, from a context that owns its directory. -/
theorem dirOwned_call_iff {list : List BuiltinPolicy} {l l' : JLocal} {m m' : Mem}
    {dirname policy : Bytes} {es : List JEvent} (hown : DirOwned l m)
    (h : Ends (policySet list dirname policy) l m l' m') (hlog : l'.log = l.log ++ es) :
    DirOwned l' m' ↔ KeepsOwn m.ctxt.pctxt dirname policy l' es := by
  obtain ⟨_, hspec⟩ := h.setSpec hlog
  have hmono : ∀ {dir}, MadeIn l.log dir → MadeIn l'.log dir := fun hd => by
    rw [hlog]; exact List.mem_append_left _ hd
  have hnew : ∀ {dir}, MadeIn es dir → MadeIn l'.log dir := fun hd => by
    rw [hlog]; exact List.mem_append_right _ hd
  unfold KeepsOwn DirOwned
  by_cases hop : Opened es
  · obtain ⟨hflag, dir, hdir, hyes, hno⟩ := hspec.opened hop
    rw [hdir]
    cases hb : isBuiltinPolicy policy with
    | true => exact ⟨fun _ => Or.inr (Or.inl hop), fun _ _ => ⟨dir, rfl, hnew (hyes hb)⟩⟩
    | false =>
        obtain rfl := hno hb
        rw [hflag, hb, Bool.or_false]
        constructor
        · intro hi
          cases hm : m.ctxt.pctxt.isBuiltin with
          | false => exact Or.inl rfl
          | true =>
              obtain ⟨dir', he, hmade⟩ := hi hm
              obtain rfl := Option.some.inj he
              exact Or.inr (Or.inr hmade)
        · rintro (hm | hn | hmade) hi
          · rw [hm] at hi; cases hi
          · exact absurd hop hn
          · exact ⟨dir, rfl, hmade⟩
  · obtain ⟨hdir, hflag⟩ := hspec.failed hop
    rw [congrArg PolicyCtxt.dirname hdir, hflag]
    cases hb : isBuiltinPolicy policy with
    | true =>
        simp only [if_true, true_and]
        constructor
        · intro hi
          by_cases hm : m.ctxt.pctxt.isBuiltin = true
          · exact Or.inl hm
          · by_cases hre : Reentered es
            · exact Or.inr (Or.inr (Or.inr (hi (Or.inr hre))))
            · exact Or.inr (Or.inr (Or.inl hre))
        · rintro (hm | ho | hre | hd) hi
          · obtain ⟨dir, he, hmade⟩ := hown hm
            exact ⟨dir, he, hmono hmade⟩
          · exact absurd ho hop
          · rcases hi with hm | hre'
            · obtain ⟨dir, he, hmade⟩ := hown hm
              exact ⟨dir, he, hmono hmade⟩
            · exact absurd hre' hre
          · exact hd
    | false =>
        refine ⟨fun _ => Or.inr (Or.inl hop), fun _ hi => ?_⟩
        obtain ⟨dir, he, hmade⟩ := hown (hi.resolve_right fun h => by simp at h)
        exact ⟨dir, he, hmono hmade⟩

/-- **Only own directories are deleted**, in every run whose calls meet the
condition; and the first call that does not meet it breaks this. -/
theorem deletes_only_own (list : List BuiltinPolicy) (l₀ : JLocal) (result : YjudgerResult)
    (rusage : Rusage) (logFd : Nat) (l : JLocal) (m : Mem)
    (h : SetPolicies list KeepsOwn l₀ (Mem.create (yjudgerCtxtCreate result rusage) logFd) l m) :
    Safe l m ∧ ∀ dirname policy l' m' es, Ends (policySet list dirname policy) l m l' m' →
      l'.log = l.log ++ es → (Safe l' m' ↔ KeepsOwn m.ctxt.pctxt dirname policy l' es) := by
  have hown : DirOwned l m := by
    induction h with
    | start =>
        intro hflag
        cases hflag
    | call _ hends hlog hok ih => exact (dirOwned_call_iff ih hends hlog).mpr hok
  refine ⟨⟨hown, hown.freeSafe⟩, fun dirname policy l' m' es hends hlog => ?_⟩
  rw [← dirOwned_call_iff hown hends hlog]
  exact ⟨fun hs => hs.1, fun ho => ⟨ho, ho.freeSafe⟩⟩

/-! ## Two calls on a working file system -/

/-- `/tmp/a`, made by `mkdtemp`. -/
def tmpDir : Bytes := [47, 116, 109, 112, 47, 97]

/-- `/u`, a directory of the user. -/
def userDir : Bytes := [47, 117]

/-- Every file can be opened and written. -/
def workingFs : (q : Ask) → q.Ans
  | .mkdtemp _ => some tmpDir
  | .fopen _ _ => some (3 : Nat)
  | .fwrite content _ => content.length
  | q => q.failing

/-- Only questions are answered. -/
def answering (f : (q : Ask) → q.Ans) : (c : Call) → Option (Ret c)
  | .ask q => some (f q)
  | _ => none

/-- Between `l` and `l'` the record has grown by answers of `f`. -/
def AnsweredBy (f : (q : Ask) → q.Ans) (l l' : JLocal) : Prop :=
  ∃ es, l'.log = l.log ++ es ∧ ∀ q r, (⟨.ask q, r⟩ : JEvent) ∈ es → r = f q

theorem AnsweredBy.trans {f : (q : Ask) → q.Ans} {l l' l'' : JLocal} (h : AnsweredBy f l l')
    (h' : AnsweredBy f l' l'') : AnsweredBy f l l'' := by
  obtain ⟨es, h₁, hes⟩ := h
  obtain ⟨es', h₂, hes'⟩ := h'
  refine ⟨es ++ es', by rw [h₂, h₁, List.append_assoc], fun q r hm => ?_⟩
  rcases List.mem_append.mp hm with hm | hm
  · exact hes q r hm
  · exact hes' q r hm

theorem answeredBy_step {f : (q : Ask) → q.Ans} (l : JLocal) (c : Call) (r : Ret c)
    (hc : answering f c = some r) : ∃ l', Local.Step l c r l' ∧ AnsweredBy f l l' := by
  cases c with
  | ask q =>
      obtain rfl := Option.some.inj hc
      refine ⟨_, ⟨trivial, rfl⟩, [⟨.ask q, f q⟩], rfl, fun q' r hm => ?_⟩
      cases List.mem_singleton.mp hm
      rfl
  | _ => cases hc

/-- A call evaluated against `f` can end like that, with a record of `f`'s answers. -/
theorem ends_of_eval {α : Type} {f : (q : Ask) → q.Ans} {x : Code α} {m m' : Mem} {a : α}
    (h : (x m).eval (answering f) = .ok (a, m')) (l : JLocal) :
    ∃ l', Ends x l m l' m' ∧ AnsweredBy f l l' := by
  have hrefl : ∀ l, AnsweredBy f l l :=
    fun l => ⟨[], by simp, fun q r hm => absurd hm List.not_mem_nil⟩
  obtain ⟨l', hs, hans⟩ := Prog.steps_of_eval hrefl AnsweredBy.trans answeredBy_step h l
  exact ⟨l', ⟨a, hs⟩, hans⟩

/-- A user policy loads. -/
theorem policySet_user_eval (list : List BuiltinPolicy) {dirname policy : Bytes}
    (hb : isBuiltinPolicy policy = false) (m : Mem) :
    (policySet list dirname policy m).eval (answering workingFs) = .ok (0,
      { m with ctxt := { m.ctxt with pctxt := { m.ctxt.pctxt with
          content := some [], dirname := some dirname, policy := some policy } } }) := by
  rw [policySet, dif_neg (by simp [hb])]
  rfl

/-- A builtin policy loads, when there is nothing to write. -/
theorem policySet_builtin_eval {dirname policy : Bytes} (hb : isBuiltinPolicy policy = true)
    (hb' : isBuiltinPolicy (policy.drop 8) = false) (m : Mem) :
    (policySet [] dirname policy m).eval (answering workingFs) = .ok (0,
      { m with ctxt := { m.ctxt with pctxt := { m.ctxt.pctxt with
          isBuiltin := true, content := some [], dirname := some tmpDir,
          policy := some (policy.drop 8) } } }) := by
  rw [policySet, dif_pos hb]
  exact policySet_user_eval [] hb' _

/-- A context fresh from `yjudger_ctxt_create`. -/
def freshMem : Mem := Mem.create (yjudgerCtxtCreate blankResult noRusage) 3

/-- The context with the empty policy `a` of the user loaded. -/
def userMem : Mem :=
  { freshMem with ctxt := { freshMem.ctxt with pctxt := { freshMem.ctxt.pctxt with
      content := some [], dirname := some userDir, policy := some [97] } } }

/-- A user policy and then a builtin policy: the flag is set, and the directory that
freeing the context deletes is the one that was made. -/
theorem deletes_only_own_builtin : ∃ l m,
    SetPolicies [] KeepsOwn (.start (.inheritedBelow 3)) freshMem l m ∧
      m.ctxt.pctxt.isBuiltin = true ∧ m.ctxt.pctxt.dirname = some tmpDir ∧
      MadeIn l.log tmpDir ∧ Safe l m := by
  obtain ⟨l₁, hends₁, es₁, hlog₁, -⟩ :=
    ends_of_eval (@policySet_user_eval [] userDir [97] rfl freshMem) (.start (.inheritedBelow 3))
  obtain ⟨l₂, hends₂, es₂, hlog₂, -⟩ :=
    ends_of_eval (@policySet_builtin_eval userDir (builtinPrefix ++ [97]) rfl rfl userMem) l₁
  have hopened : Opened es₂ := by
    by_contra hop
    obtain ⟨r, hspec⟩ := hends₂.setSpec hlog₂
    have hsame : some tmpDir = some userDir := congrArg PolicyCtxt.dirname (hspec.failed hop).1
    exact absurd hsame (by decide)
  have hfirst : SetPolicies [] KeepsOwn (.start (.inheritedBelow 3)) freshMem l₁ userMem :=
    .call .start hends₁ hlog₁ (Or.inl rfl)
  have hrun := SetPolicies.call hfirst hends₂ hlog₂ (Or.inr (Or.inl hopened))
  have hsafe := (deletes_only_own [] (.start (.inheritedBelow 3)) blankResult noRusage 3 _ _ hrun).1
  obtain ⟨dir, hdir, hmade⟩ := hsafe.1 rfl
  obtain rfl := Option.some.inj hdir
  exact ⟨l₂, _, hrun, rfl, rfl, hmade, hsafe⟩

/-- A builtin policy and then a user policy: freeing the context deletes the
files of the user's directory. -/
theorem deletes_user_files : ∃ l m,
    SetPolicies [] (fun _ _ _ _ _ => True) (.start (.inheritedBelow 3)) freshMem l m ∧
      m.ctxt.pctxt.isBuiltin = true ∧ m.ctxt.pctxt.dirname = some userDir ∧ ¬ Safe l m := by
  obtain ⟨l₁, hends₁, es₁, hlog₁, hes₁⟩ :=
    ends_of_eval (@policySet_builtin_eval userDir (builtinPrefix ++ [97]) rfl rfl freshMem)
      (.start (.inheritedBelow 3))
  obtain ⟨l₂, hends₂, es₂, hlog₂, hes₂⟩ :=
    ends_of_eval (@policySet_user_eval [] userDir [97] rfl _) l₁
  refine ⟨l₂, _, .call (.call .start hends₁ hlog₁ trivial) hends₂ hlog₂ trivial, rfl, rfl, ?_⟩
  rintro ⟨hown, -⟩
  obtain ⟨dir, hdir, hmade⟩ := hown rfl
  obtain rfl := Option.some.inj hdir
  rw [MadeIn, hlog₂, hlog₁] at hmade
  have hother : (some userDir : Option Bytes) ≠ some tmpDir := by decide
  rcases List.mem_append.mp hmade with hmade | hmade
  · rcases List.mem_append.mp hmade with hmade | hmade
    · exact absurd hmade List.not_mem_nil
    · exact hother (hes₁ _ _ hmade)
  · exact hother (hes₂ _ _ hmade)

end YaojJudger
