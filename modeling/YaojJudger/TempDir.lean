/-
# `YaojJudger.TempDir` — what becomes of the temporary directories

Every builtin policy makes a directory, and a name with a repeated `builtin:`
makes one for each.  The context remembers one directory and one flag:

    mkdtemp        a directory is made
    is_builtin     set when the directory has been filled
    dirname        set when the policy file is open

`yjudger_ctxt_free` deletes `dirname` if the flag is set, and nothing else does.
So the directories are all cleaned up exactly if the flag is set whenever one
was made, and `dirname` is the only one made (`OwnsAll`).  `KeepsAll` says which
calls keep it so.
-/
import YaojJudger.PolicyDir

namespace YaojJudger

open Posix

/-! ## What is to be shown -/

/-- The file system lets the context be freed: the directory `dirname` is found
and can be listed, and no `unlink` and no `rmdir` fails. -/
structure Works (dirname : Option Bytes) (es : List JEvent) : Prop where
  stat : ∀ path, (⟨.ask (.stat path), false⟩ : JEvent) ∈ es → dirname ≠ some path
  opendir : ∀ path, (⟨.ask (.opendir path), none⟩ : JEvent) ∉ es
  unlink : ∀ path, (⟨.ask (.unlink path), false⟩ : JEvent) ∉ es
  rmdir : ∀ path, (⟨.ask (.rmdir path), false⟩ : JEvent) ∉ es

/-- Freeing the context now is defined, and where the file system lets it, it
removes every directory that was made. -/
def Cleans (l : JLocal) (m : Mem) : Prop :=
  Code.wp (fun _ c => c ≠ .fault) (fun _ _ => True) yjudgerCtxtFree
    (fun l' _ _ => ∃ es, l' = told l es ∧ (Works m.ctxt.pctxt.dirname es →
      ∀ dir, MadeIn l.log dir → (⟨.ask (.rmdir dir), true⟩ : JEvent) ∈ es)) l m

/-- Whatever directory was made is the one the context will delete. -/
def OwnsAll (l : JLocal) (m : Mem) : Prop :=
  ∀ dir, MadeIn l.log dir → m.ctxt.pctxt.isBuiltin = true ∧ m.ctxt.pctxt.dirname = some dir

/-- The flag is set only if a directory was made. -/
def Flagged (l : JLocal) (m : Mem) : Prop :=
  m.ctxt.pctxt.isBuiltin = true → ∃ dir, MadeIn l.log dir

/-! ## Freeing the context -/

section
variable {fin : JLocal → Int → Prop} {l : JLocal} {m : Mem}

/-- The loop over the entries stops only at an `unlink` that fails. -/
theorem removeEntries_told {path : Bytes} :
    ∀ (names : List Bytes) (l : JLocal) (m : Mem) (Q : JLocal → Int → Mem → Prop),
      (∀ es r m', (r ≠ 0 → ∃ file, (⟨.ask (.unlink file), false⟩ : JEvent) ∈ es) →
        Q (told l es) r m') →
      Code.wp (fun _ c => c ≠ (.fault : Call)) fin (removeEntries path names) Q l m
  | [], l, m, Q, hQ => by
      have := hQ [] 0 m fun h => absurd rfl h
      rw [told_nil] at this
      exact this
  | name :: names, l, m, Q, hQ => by
      rw [removeEntries, Code.wp_ite]
      refine ⟨fun _ => removeEntries_told names l m Q hQ, fun _ => ?_⟩
      refine (wp_ask_bind _ _ _).mpr ⟨by simp, fun isDir => ?_⟩
      refine (wp_ask_bind _ _ _).mpr ⟨by simp, fun removed => ?_⟩
      rw [told_told, Code.wp_ite, wp_yreturn, told_told]
      constructor
      · intro _
        refine removeEntries_told names _ m Q fun es r m' hr => ?_
        rw [told_told]
        refine hQ _ r m' fun h0 => ?_
        obtain ⟨file, hfile⟩ := hr h0
        exact ⟨file, List.mem_append_right _ hfile⟩
      · intro hfail
        obtain rfl : removed = false := Bool.eq_false_iff.mpr hfail
        exact ⟨by simp, hQ _ _ _ fun _ => ⟨_, List.mem_append_left _
          (List.mem_append_right _ (List.mem_singleton_self _))⟩⟩

/-- `rmtree_depth1` removes its directory, where the file system lets it. -/
theorem rmtreeDepth1_removes (path : Bytes) :
    Code.wp (fun _ c => c ≠ .fault) fin (rmtreeDepth1 (some path))
      (fun l' _ _ => ∃ es, l' = told l es ∧
        (Works (some path) es → (⟨.ask (.rmdir path), true⟩ : JEvent) ∈ es)) l m := by
  refine (wp_ask_bind _ _ _).mpr ⟨by simp, fun isDir => ?_⟩
  rw [Code.wp_ite, wp_yreturn, told_told]
  refine ⟨fun _ => ?_, fun hno => ?_⟩
  · refine (wp_ask_bind _ _ _).mpr ⟨by simp, fun names => ?_⟩
    cases names with
    | none =>
        simp only [wp_yreturn, told_told]
        refine ⟨by simp, _, rfl, fun h => absurd ?_ (h.opendir path)⟩
        simp
    | some names =>
        rw [Code.wp_bind, told_told]
        refine removeEntries_told names _ m _ fun es flag m' hflag => ?_
        rw [told_told, Code.wp_ite, Code.wp_pure]
        refine ⟨fun hne => ⟨_, rfl, fun h => ?_⟩, fun _ => ?_⟩
        · obtain ⟨file, hfile⟩ := hflag hne
          exact absurd (List.mem_append_right _ hfile) (h.unlink file)
        · refine (wp_ask_bind _ _ _).mpr ⟨by simp, fun removed => ?_⟩
          rw [told_told, Code.wp_ite, wp_yreturn, told_told]
          refine ⟨fun hyes => ?_, fun hno => ⟨by simp, _, rfl, fun h => ?_⟩⟩
          · obtain rfl : removed = true := hyes
            refine (wp_ask_bind _ _ _).mpr ⟨by simp, fun _ => ?_⟩
            rw [told_told, Code.wp_pure]
            exact ⟨_, rfl, fun _ => List.mem_append_left _
              (List.mem_append_right _ (List.mem_singleton_self _))⟩
          · obtain rfl : removed = false := Bool.eq_false_iff.mpr hno
            exact absurd (List.mem_append_left _ (List.mem_append_right _
              (List.mem_singleton_self _))) (h.rmdir path)
  · obtain rfl : isDir = false := Bool.eq_false_iff.mpr hno
    refine ⟨by simp, _, rfl, fun h => absurd rfl (h.stat path ?_)⟩
    exact List.mem_append_left _ (List.mem_singleton_self _)

/-- A directory on an obliging file system: it is removed, and nothing else is. -/
theorem rmdir_of_cleans {path dir : Bytes}
    (h : Code.wp (fun _ c => c ≠ .fault) fin (rmtreeDepth1 (some path))
      (fun l' _ _ => ∃ es, l' = told l es ∧
        (Works (some path) es → (⟨.ask (.rmdir dir), true⟩ : JEvent) ∈ es)) l m) :
    dir = path := by
  have h₁ := ((wp_ask_bind _ _ _).mp h).2 true
  rw [Code.wp_ite] at h₁
  have h₂ := ((wp_ask_bind _ _ _).mp (h₁.1 rfl)).2 (some [])
  have h₃ := (Code.wp_bind (removeEntries path []) _).mp h₂
  rw [removeEntries, Code.wp_pure, Code.wp_ite] at h₃
  have h₄ := ((wp_ask_bind _ _ _).mp (h₃.2 (by simp))).2 true
  rw [Code.wp_ite] at h₄
  obtain ⟨es, hes, hrm⟩ := ((wp_ask_bind _ _ _).mp (h₄.1 rfl)).2 ()
  rw [told_told, told_told, told_told] at hes
  obtain rfl := List.append_cancel_left (congrArg Local.log hes)
  have := hrm ⟨by simp, by simp, by simp, by simp⟩
  simpa using this

/-- **When freeing the context cleans up.** -/
theorem cleans_iff (hf : Flagged l m) : Cleans l m ↔ OwnsAll l m := by
  rw [Cleans, yjudgerCtxtFree, Code.wp_bind, Code.wp_get, Code.wp_ite, Code.wp_pure]
  constructor
  · rintro ⟨hyes, hno⟩ dir hdir
    cases hb : m.ctxt.pctxt.isBuiltin with
    | false =>
        obtain ⟨es, hes, hrm⟩ := hno (by rw [hb]; exact Bool.false_ne_true)
        obtain rfl : es = [] := by
          have hlog := congrArg Local.log hes
          rw [told_log] at hlog
          exact List.self_eq_append_right.mp hlog
        have := hrm ⟨by simp, by simp, by simp, by simp⟩ dir hdir
        cases this
    | true =>
        refine ⟨rfl, ?_⟩
        have h := hyes hb
        cases hd : m.ctxt.pctxt.dirname with
        | none =>
            rw [hd, Code.wp_bind] at h
            exact absurd rfl (Code.wp_undefined.mp h)
        | some path =>
            rw [hd, Code.wp_bind] at h
            refine congrArg some (rmdir_of_cleans (Code.wp_post ?_ h)).symm
            rintro l' r m' ⟨es, rfl, hrm⟩
            exact ⟨es, rfl, fun hw => hrm hw dir hdir⟩
  · intro ht
    constructor
    · intro hb
      obtain ⟨dir, hdir⟩ := hf hb
      rw [(ht dir hdir).2, Code.wp_bind]
      refine Code.wp_post ?_ (rmtreeDepth1_removes dir)
      rintro l' r m' ⟨es, rfl, hrm⟩
      refine ⟨es, rfl, fun hw dir' hdir' => ?_⟩
      obtain rfl := Option.some.inj ((ht dir hdir).2.symm.trans (ht dir' hdir').2)
      exact hrm hw
    · intro hb
      refine ⟨[], (told_nil l).symm, fun _ dir hdir => ?_⟩
      exact absurd (ht dir hdir).1 hb

end

/-! ## What one call makes -/

/-- A user policy makes no directory; a builtin one has made one when it comes
back to `policy_set`. -/
structure MadeSpec (policy : Bytes) (es : List JEvent) : Prop where
  user : isBuiltinPolicy policy = false → ∀ dir, ¬ MadeIn es dir
  builtin : isBuiltinPolicy policy = true → Reentered es → ∃ dir, MadeIn es dir

theorem madeSpec_user {policy : Bytes} {es : List JEvent} (hb : isBuiltinPolicy policy = false)
    (hes : ∀ dir, ¬ MadeIn es dir) : MadeSpec policy es :=
  ⟨fun _ => hes, fun h => by rw [hb] at h; cases h⟩

theorem madeSpec_made {policy dir : Bytes} {es : List JEvent} (hb : isBuiltinPolicy policy = true)
    (hes : MadeIn es dir) : MadeSpec policy es :=
  ⟨fun h => by (rw [hb] at h; cases h), fun _ _ => ⟨dir, hes⟩⟩

theorem policySet_made (list : List BuiltinPolicy) (dirname policy : Bytes) (l : JLocal) (m : Mem) :
    Code.wp (fun _ _ => True) (fun _ _ => True) (policySet list dirname policy)
      (fun l' _ _ => ∃ es, l' = told l es ∧ MadeSpec policy es) l m := by
  rw [policySet]
  cases hb : isBuiltinPolicy policy with
  | true =>
      rw [dif_pos rfl]
      refine (wp_ask_bind _ _ _).mpr ⟨trivial, fun made => ?_⟩
      cases made with
      | none =>
          simp only [wp_yreturn, told_told]
          refine ⟨trivial, _, rfl, fun h => (by rw [hb] at h; cases h), fun _ hre => ?_⟩
          rcases hre with hre | hre
          · exact absurd hre (by decide)
          · exact absurd hre (by decide)
      | some tdir =>
          have hmade : ∀ es : List JEvent, MadeSpec policy
              ([⟨.ask (.mkdtemp tmpTemplate), some tdir⟩] ++ es) :=
            fun es => madeSpec_made hb (List.mem_append_left _ (List.mem_singleton_self _))
          rw [Code.wp_bind]
          refine writePolicies_wp tdir (fun _ _ => trivial) list _ m _ fun es r m' _ _ => ?_
          rw [told_told, Code.wp_ite]
          refine ⟨fun _ => ⟨_, rfl, hmade es⟩, fun _ => ?_⟩
          rw [modifyPolicy, Code.wp_bind, wp_modifyCtxt]
          refine policySet_wp (fun _ _ => trivial) list _ tdir _ _ _ _ rfl fun es' r m' _ => ?_
          rw [told_told, List.append_assoc]
          exact ⟨_, rfl, hmade (es ++ es')⟩
  | false =>
      rw [dif_neg (by simp)]
      refine (wp_ask_bind _ _ _).mpr ⟨trivial, fun fp => ?_⟩
      cases fp with
      | none =>
          simp only [wp_yreturn, told_told]
          exact ⟨trivial, _, rfl, madeSpec_user hb (by simp [MadeIn])⟩
      | some fp =>
          rw [Code.wp_bind]
          refine (wp_ask_bind _ _ _).mpr ⟨trivial, fun size => ?_⟩
          refine (wp_ask_bind _ _ _).mpr ⟨trivial, fun s => ?_⟩
          refine (wp_ask_bind _ _ _).mpr ⟨trivial, fun _ => ?_⟩
          rw [told_told, told_told, told_told]
          exact ⟨_, rfl, madeSpec_user hb (by simp [MadeIn])⟩

/-- What one call does, and what it makes. -/
theorem call_spec {list : List BuiltinPolicy} {l l' : JLocal} {m m' : Mem}
    {dirname policy : Bytes} {es : List JEvent}
    (h : Ends (policySet list dirname policy) l m l' m') (hlog : l'.log = l.log ++ es) :
    ∃ r, SetSpec dirname policy m.ctxt.pctxt m'.ctxt.pctxt r es ∧ MadeSpec policy es := by
  obtain ⟨r, hset⟩ := h.setSpec hlog
  obtain ⟨-, es', rfl, hmade⟩ := h.wp (policySet_made list dirname policy l m)
  obtain rfl : es' = es := List.append_cancel_left hlog
  exact ⟨r, hset, hmade⟩

/-! ## Sequences of calls -/

/-- No other directory was made. -/
def Sole (l : JLocal) (dir : Bytes) : Prop := ∀ dir', MadeIn l.log dir' → dir' = dir

/-- The call leaves no directory behind: a user policy's file cannot be opened,
or the directory it is in is the only one made; a builtin policy makes no
directory, or finds its file and makes the only one there is, or its directory
is the one the context has already. -/
def KeepsAll (pctxt : PolicyCtxt) (dirname policy : Bytes) (l' : JLocal) (es : List JEvent) :
    Prop :=
  if isBuiltinPolicy policy then
    (∀ dir, ¬ MadeIn es dir) ∨ (Opened es ∧ ∃ dir, Sole l' dir) ∨
      ¬ Opened es ∧ (pctxt.isBuiltin = true ∨ Reentered es) ∧
        ∃ dir, pctxt.dirname = some dir ∧ Sole l' dir
  else ¬ Opened es ∨ Sole l' dirname

section
variable {list : List BuiltinPolicy} {l l' : JLocal} {m m' : Mem} {dirname policy : Bytes}
  {es : List JEvent}

theorem madeIn_append {es es' : List JEvent} {dir : Bytes} :
    MadeIn (es ++ es') dir ↔ MadeIn es dir ∨ MadeIn es' dir := List.mem_append

theorem flagged_call (hf : Flagged l m) (h : Ends (policySet list dirname policy) l m l' m')
    (hlog : l'.log = l.log ++ es) : Flagged l' m' := by
  obtain ⟨r, hset, hmade⟩ := call_spec h hlog
  intro hflag
  rw [hlog]
  have hold : m.ctxt.pctxt.isBuiltin = true → ∃ dir, MadeIn (l.log ++ es) dir := fun hb => by
    obtain ⟨dir, hdir⟩ := hf hb
    exact ⟨dir, madeIn_append.mpr (Or.inl hdir)⟩
  by_cases hop : Opened es
  · obtain ⟨hb', dir, -, hyes, -⟩ := hset.opened hop
    rw [hb', Bool.or_eq_true] at hflag
    rcases hflag with hb | hb
    · exact hold hb
    · exact ⟨dir, madeIn_append.mpr (Or.inr (hyes hb))⟩
  · rcases (hset.failed hop).2.mp hflag with hb | ⟨hb, hre⟩
    · exact hold hb
    · obtain ⟨dir, hdir⟩ := hmade.builtin hb hre
      exact ⟨dir, madeIn_append.mpr (Or.inr hdir)⟩

/-- **One call**, from a context that will delete all that was made. -/
theorem ownsAll_call_iff (ht : OwnsAll l m) (h : Ends (policySet list dirname policy) l m l' m')
    (hlog : l'.log = l.log ++ es) :
    OwnsAll l' m' ↔ KeepsAll m.ctxt.pctxt dirname policy l' es := by
  obtain ⟨r, hset, hmade⟩ := call_spec h hlog
  unfold KeepsAll OwnsAll
  by_cases hop : Opened es
  · obtain ⟨hflag, dir, hdir, hyes, hno⟩ := hset.opened hop
    rw [hdir, hflag]
    cases hb : isBuiltinPolicy policy with
    | true =>
        have hnew : MadeIn es dir := hyes hb
        rw [Bool.or_true]
        constructor
        · intro ht'
          exact Or.inr (Or.inl ⟨hop, dir, fun dir' hd => (Option.some.inj (ht' dir' hd).2).symm⟩)
        · rintro (hnone | ⟨-, dir₀, hsole⟩ | ⟨hn, -⟩) dir' hd
          · exact absurd hnew (hnone dir)
          · have hdir₀ := hsole dir (by rw [hlog]; exact madeIn_append.mpr (Or.inr hnew))
            exact ⟨rfl, congrArg some (hdir₀.trans (hsole dir' hd).symm)⟩
          · exact absurd hop hn
    | false =>
        obtain rfl := hno hb
        rw [Bool.or_false]
        constructor
        · intro ht'
          exact Or.inr fun dir' hd => (Option.some.inj (ht' dir' hd).2).symm
        · rintro (hn | hsole) dir' hd
          · exact absurd hop hn
          · refine ⟨?_, congrArg some (hsole dir' hd).symm⟩
            rw [hlog] at hd
            exact (ht dir' ((madeIn_append.mp hd).resolve_right (hmade.user hb dir'))).1
  · obtain ⟨hdir, hflag⟩ := hset.failed hop
    rw [hdir]
    cases hb : isBuiltinPolicy policy with
    | true =>
        constructor
        · intro ht'
          by_cases hnone : ∀ dir, ¬ MadeIn es dir
          · exact Or.inl hnone
          · obtain ⟨dir, hnew⟩ := not_forall_not.mp hnone
            obtain ⟨hb', hd'⟩ := ht' dir (by rw [hlog]; exact madeIn_append.mpr (Or.inr hnew))
            refine Or.inr (Or.inr ⟨hop, ?_, dir, hd', fun dir' hd => ?_⟩)
            · exact (hflag.mp hb').imp_right And.right
            · exact Option.some.inj ((ht' dir' hd).2.symm.trans hd')
        · rintro (hnone | ⟨ho, -⟩ | ⟨-, hre, dir, hd', hsole⟩) dir' hd
          · rw [hlog] at hd
            have hold := ht dir' ((madeIn_append.mp hd).resolve_right (hnone dir'))
            exact ⟨hflag.mpr (Or.inl hold.1), hold.2⟩
          · exact absurd ho hop
          · exact ⟨hflag.mpr (hre.imp_right fun h => ⟨hb, h⟩), by rw [hd', hsole dir' hd]⟩
    | false =>
        refine ⟨fun _ => Or.inl hop, fun _ dir' hd => ?_⟩
        rw [hlog] at hd
        have hold := ht dir' ((madeIn_append.mp hd).resolve_right (hmade.user hb dir'))
        exact ⟨hflag.mpr (Or.inl hold.1), hold.2⟩

end

/-- **The temporary directories are cleaned up**, in every run whose calls meet
the condition; and the first call that does not meet it breaks this. -/
theorem cleans_up (list : List BuiltinPolicy) (t : FdTable) (result : YjudgerResult)
    (rusage : Rusage) (logFd : Nat) (l : JLocal) (m : Mem)
    (h : SetPolicies list KeepsAll (.start t)
      (Mem.create (yjudgerCtxtCreate result rusage) logFd) l m) :
    Cleans l m ∧ ∀ dirname policy l' m' es, Ends (policySet list dirname policy) l m l' m' →
      l'.log = l.log ++ es → (Cleans l' m' ↔ KeepsAll m.ctxt.pctxt dirname policy l' es) := by
  have hinv : OwnsAll l m ∧ Flagged l m := by
    induction h with
    | start => exact ⟨fun dir hdir => absurd hdir List.not_mem_nil, fun hflag => by cases hflag⟩
    | call _ hends hlog hok ih =>
        exact ⟨(ownsAll_call_iff ih.1 hends hlog).mpr hok, flagged_call ih.2 hends hlog⟩
  refine ⟨(cleans_iff hinv.2).mpr hinv.1, fun dirname policy l' m' es hends hlog => ?_⟩
  rw [cleans_iff (flagged_call hinv.2 hends hlog)]
  exact ownsAll_call_iff hinv.1 hends hlog

/-! ## A builtin policy, and another policy after it -/

/-- A builtin policy that has been loaded has made the directory the context has. -/
theorem made_of_loaded {list : List BuiltinPolicy} {l l' : JLocal} {m m' : Mem}
    {dirname policy dir : Bytes} {es : List JEvent}
    (h : Ends (policySet list dirname policy) l m l' m') (hlog : l'.log = l.log ++ es)
    (hb : isBuiltinPolicy policy = true) (hnone : m.ctxt.pctxt.dirname = none)
    (hdir : m'.ctxt.pctxt.dirname = some dir) : Opened es ∧ MadeIn es dir := by
  obtain ⟨r, hset, -⟩ := call_spec h hlog
  by_cases hop : Opened es
  · obtain ⟨-, dir', hdir', hyes, -⟩ := hset.opened hop
    obtain rfl := Option.some.inj (hdir'.symm.trans hdir)
    exact ⟨hop, hyes hb⟩
  · rw [congrArg PolicyCtxt.dirname (hset.failed hop).1, hnone] at hdir
    cases hdir

/-- After one builtin policy, freeing the context cleans up. -/
theorem cleans_up_builtin : ∃ l m,
    Ends (policySet [] userDir (builtinPrefix ++ [97])) (.start (.inheritedBelow 3)) freshMem l m ∧
      m.ctxt.pctxt.isBuiltin = true ∧ Cleans l m := by
  obtain ⟨l, hends, es, hlog, hes⟩ :=
    ends_of_eval (@policySet_builtin_eval userDir (builtinPrefix ++ [97]) rfl rfl freshMem)
      (.start (.inheritedBelow 3))
  obtain ⟨hop, -⟩ := made_of_loaded hends hlog rfl rfl rfl
  have hsole : Sole l tmpDir := by
    intro dir hdir
    rw [hlog] at hdir
    exact Option.some.inj (hes _ _ hdir)
  refine ⟨l, _, hends, rfl, (cleans_up [] _ blankResult noRusage 3 l _
    (.call .start hends hlog ?_)).1⟩
  exact Or.inr (Or.inl ⟨hop, tmpDir, hsole⟩)

/-- A builtin policy and then a user policy: the directory of the first one stays. -/
theorem leaves_directory : ∃ l m,
    SetPolicies [] (fun _ _ _ _ _ => True) (.start (.inheritedBelow 3)) freshMem l m ∧
      MadeIn l.log tmpDir ∧ m.ctxt.pctxt.dirname = some userDir ∧ ¬ Cleans l m := by
  obtain ⟨l₁, hends₁, es₁, hlog₁, -⟩ :=
    ends_of_eval (@policySet_builtin_eval userDir (builtinPrefix ++ [97]) rfl rfl freshMem)
      (.start (.inheritedBelow 3))
  obtain ⟨l₂, hends₂, es₂, hlog₂, -⟩ :=
    ends_of_eval (@policySet_user_eval [] userDir [97] rfl _) l₁
  have hmade : MadeIn l₂.log tmpDir := by
    obtain ⟨-, hnew⟩ := made_of_loaded hends₁ hlog₁ rfl rfl rfl
    rw [hlog₂, hlog₁]
    exact madeIn_append.mpr (Or.inl (madeIn_append.mpr (Or.inr hnew)))
  refine ⟨l₂, _, .call (.call .start hends₁ hlog₁ trivial) hends₂ hlog₂ trivial, hmade, rfl, ?_⟩
  intro hcleans
  have ht := (cleans_iff fun _ => ⟨tmpDir, hmade⟩).mp hcleans
  exact absurd (ht tmpDir hmade).2 (by decide)

end YaojJudger
