/-
# `YaojJudger.PolicyFile` — the file of a policy, and a call that fails

`yjudger_set_policy` of `helper.c` as its callers see it.

The file of a user policy is `[dirname]/[policy].policy`, put together by two
`path_join`s, the second with `.` as its separator.  A `path_join` drops one
separator at the end of its left operand, so a dot at the end of the name is
lost, and

    a      →  dirname/a.policy
    a.     →  dirname/a.policy

(`opens_documented_iff`).

A call that fails should leave the policy context alone.  It does, except that
`is_builtin` is set as soon as the builtin policies are written out, before the
file is looked for among them (`failed_unchanged_iff`).
-/
import YaojJudger.PolicyDir

namespace YaojJudger

open Posix

def yjudgerSetPolicy (list : List BuiltinPolicy) (dirname policy : Bytes) : Code Int :=
  policySet list dirname policy

/-! ## A call that fails -/

/-- The fields `policy_set` may write are as they were. -/
structure Unchanged (pctxt pctxt' : PolicyCtxt) : Prop where
  isBuiltin : pctxt'.isBuiltin = pctxt.isBuiltin
  dirname : pctxt'.dirname = pctxt.dirname
  policy : pctxt'.policy = pctxt.policy
  content : pctxt'.content = pctxt.content

/-- What the call does in the run from `l` and `m` in which it returns `r`. -/
theorem setPolicy_spec {list : List BuiltinPolicy} {dirname policy : Bytes} {l l' : JLocal}
    {m m' : Mem} {r : Int} {es : List JEvent}
    (h : Prog.Steps Local.Step l (yjudgerSetPolicy list dirname policy m) l' (.ret (r, m')))
    (hlog : l'.log = l.log ++ es) :
    SetSpec dirname policy m.ctxt.pctxt m'.ctxt.pctxt r es := by
  have hspec : Code.wp (fun _ _ => True) (fun _ _ => True) (policySet list dirname policy)
      (fun l' r m' => ∃ es, l' = told l es ∧
        SetSpec dirname policy m.ctxt.pctxt m'.ctxt.pctxt r es) l m :=
    policySet_wp (fun _ _ => trivial) list _ dirname policy l m _ rfl
      fun es _ m' hs => ⟨es, rfl, hs⟩
  obtain ⟨es', rfl, hs⟩ := h.wp hspec
  obtain rfl : es' = es := List.append_cancel_left hlog
  exact hs

/-- **A failed call leaves the context as it was**, if and only if it does not fail
after the builtin policies have been written, unless the flag was set before. -/
theorem failed_unchanged_iff {list : List BuiltinPolicy} {dirname policy : Bytes} {l l' : JLocal}
    {m m' : Mem} {r : Int} {es : List JEvent}
    (h : Prog.Steps Local.Step l (yjudgerSetPolicy list dirname policy m) l' (.ret (r, m')))
    (hlog : l'.log = l.log ++ es) :
    (r ≠ 0 → Unchanged m.ctxt.pctxt m'.ctxt.pctxt) ↔
      Opened es ∨ m.ctxt.pctxt.isBuiltin = true ∨ isBuiltinPolicy policy = false ∨
        ¬ Reentered es := by
  have hspec := setPolicy_spec h hlog
  rw [ne_eq, hspec.result]
  constructor
  · intro hsame
    by_cases hop : Opened es
    · exact Or.inl hop
    · refine Or.inr ?_
      have hflag := (hspec.failed hop).2
      rw [(hsame hop).isBuiltin] at hflag
      by_cases hm : m.ctxt.pctxt.isBuiltin = true
      · exact Or.inl hm
      · refine Or.inr ?_
        cases hb : isBuiltinPolicy policy with
        | false => exact Or.inl rfl
        | true => exact Or.inr fun hre => hm (hflag.mpr (Or.inr ⟨hb, hre⟩))
  · intro hcond hop
    obtain ⟨hsame, hflag⟩ := hspec.failed hop
    refine ⟨?_, ?_, ?_, ?_⟩
    · rw [Bool.eq_iff_iff, hflag]
      refine ⟨fun hor => ?_, fun hm => Or.inl hm⟩
      rcases hcond with ho | hm | hb | hre
      · exact absurd ho hop
      · exact hm
      · exact hor.resolve_right fun hor => by
          rw [hb] at hor
          exact Bool.false_ne_true hor.1
      · exact hor.resolve_right fun hor => hre hor.2
    · rw [hsame]
    · rw [hsame]
    · rw [hsame]

/-- A file system on which directories can be made, and no file is there. -/
def emptyFs : (q : Ask) → q.Ans
  | .mkdtemp _ => some tmpDir
  | q => q.failing

/-- A user policy that is not there. -/
theorem setPolicy_user_missing (list : List BuiltinPolicy) {dirname policy : Bytes}
    (hb : isBuiltinPolicy policy = false) (m : Mem) :
    (yjudgerSetPolicy list dirname policy m).eval (answering emptyFs) =
      .ok (eFp, { m with yerrno := eFp }) := by
  rw [yjudgerSetPolicy, policySet, dif_neg (by simp [hb])]
  rfl

/-- A builtin policy that is not there, when there is nothing to write. -/
theorem setPolicy_builtin_missing {dirname policy : Bytes} (hb : isBuiltinPolicy policy = true)
    (hb' : isBuiltinPolicy (policy.drop 8) = false) (m : Mem) :
    (yjudgerSetPolicy [] dirname policy m).eval (answering emptyFs) =
      .ok (eFp, { m with
        ctxt := { m.ctxt with pctxt := { m.ctxt.pctxt with isBuiltin := true } }
        yerrno := eFp }) := by
  rw [yjudgerSetPolicy, policySet, dif_pos hb]
  exact setPolicy_user_missing [] hb' _

/-- A run answered by `f`, with what was recorded in it. -/
theorem steps_of_answers {α : Type} {f : (q : Ask) → q.Ans} {x : Code α} {m m' : Mem} {a : α}
    (h : (x m).eval (answering f) = .ok (a, m')) (l : JLocal) :
    ∃ l' es, Prog.Steps Local.Step l (x m) l' (.ret (a, m')) ∧ l'.log = l.log ++ es ∧
      ∀ q r, (⟨.ask q, r⟩ : JEvent) ∈ es → r = f q := by
  have hrefl : ∀ l, AnsweredBy f l l :=
    fun l => ⟨[], by simp, fun q r hm => absurd hm List.not_mem_nil⟩
  obtain ⟨l', hs, es, hlog, hes⟩ := Prog.steps_of_eval hrefl AnsweredBy.trans answeredBy_step h l
  exact ⟨l', es, hs, hlog, hes⟩

/-- A missing user policy leaves a fresh context as it was. -/
theorem failed_unchanged_user : ∃ l' m',
    Prog.Steps Local.Step (.start (.inheritedBelow 3)) (yjudgerSetPolicy [] userDir [97] freshMem)
      l' (.ret (eFp, m')) ∧ Unchanged freshMem.ctxt.pctxt m'.ctxt.pctxt := by
  obtain ⟨l', es, hrun, hlog, -⟩ :=
    steps_of_answers (@setPolicy_user_missing [] userDir [97] rfl freshMem)
      (.start (.inheritedBelow 3))
  exact ⟨l', _, hrun, (failed_unchanged_iff hrun hlog).mpr (Or.inr (Or.inr (Or.inl rfl)))
    (by decide)⟩

/-- A missing builtin policy does not: the flag is set, and the directory null. -/
theorem failed_sets_flag : ∃ l' m',
    Prog.Steps Local.Step (.start (.inheritedBelow 3))
      (yjudgerSetPolicy [] userDir (builtinPrefix ++ [97]) freshMem) l' (.ret (eFp, m')) ∧
    eFp ≠ 0 ∧ freshMem.ctxt.pctxt.isBuiltin = false ∧ m'.ctxt.pctxt.isBuiltin = true ∧
    m'.ctxt.pctxt.dirname = none ∧ ¬ Unchanged freshMem.ctxt.pctxt m'.ctxt.pctxt := by
  obtain ⟨l', es, hrun, -, -⟩ :=
    steps_of_answers (@setPolicy_builtin_missing userDir (builtinPrefix ++ [97]) rfl rfl freshMem)
      (.start (.inheritedBelow 3))
  refine ⟨l', _, hrun, by decide, rfl, rfl, rfl, ?_⟩
  intro hsame
  cases hsame.isBuiltin

/-! ## Which file is opened -/

def isFopen : JEvent → Bool
  | ⟨.ask (.fopen _ _), _⟩ => true
  | _ => false

/-- In every run of the call the one file opened is `path`, for reading. -/
def OpensOnly (list : List BuiltinPolicy) (dirname policy path : Bytes) : Prop :=
  ∀ l m l' m' r es,
    Prog.Steps Local.Step l (policySet list dirname policy m) l' (.ret (r, m')) →
    l'.log = l.log ++ es →
    ∃ ans : Option Nat, es.filter isFopen = [⟨.ask (.fopen path false), ans⟩]

/-- `[dirname]/[policy].policy`, one `/` at the end of `dirname` being merged. -/
def documentedFile (dirname policy : Bytes) : Bytes :=
  (if dirname.getLast? = some slash then dirname.dropLast else dirname) ++
    slash :: (policy ++ dot :: policySuffix)

/-- A user policy is read from `policyFile`. -/
theorem policySet_opens (list : List BuiltinPolicy) {dirname policy : Bytes}
    (hb : isBuiltinPolicy policy = false) (l : JLocal) (m : Mem) :
    Code.wp (fun _ _ => True) (fun _ _ => True) (policySet list dirname policy)
      (fun l' _ _ => ∃ es, ∃ ans : Option Nat, l' = told l es ∧
        es.filter isFopen = [⟨.ask (.fopen (policyFile dirname policy) false), ans⟩]) l m := by
  rw [policySet, dif_neg (by simp [hb])]
  refine (wp_ask_bind _ _ _).mpr ⟨trivial, fun fp => ?_⟩
  cases fp with
  | none =>
      simp only [wp_yreturn, told_told]
      exact ⟨trivial, _, none, rfl, rfl⟩
  | some fp =>
      rw [Code.wp_bind]
      refine (wp_ask_bind _ _ _).mpr ⟨trivial, fun size => ?_⟩
      refine (wp_ask_bind _ _ _).mpr ⟨trivial, fun s => ?_⟩
      refine (wp_ask_bind _ _ _).mpr ⟨trivial, fun _ => ?_⟩
      rw [told_told, told_told, told_told]
      exact ⟨_, some fp, rfl, rfl⟩

theorem opensOnly_iff (list : List BuiltinPolicy) {dirname policy path : Bytes}
    (hb : isBuiltinPolicy policy = false) :
    OpensOnly list dirname policy path ↔ path = policyFile dirname policy := by
  have hopens : OpensOnly list dirname policy (policyFile dirname policy) := by
    intro l m l' m' r es hrun hlog
    obtain ⟨es', ans, rfl, hans⟩ := hrun.wp (policySet_opens list hb l m)
    obtain rfl : es' = es := List.append_cancel_left hlog
    exact ⟨ans, hans⟩
  constructor
  · intro h
    obtain ⟨l', es, hrun, hlog, -⟩ :=
      steps_of_answers (setPolicy_user_missing list hb freshMem) (.start (.inheritedBelow 3))
    obtain ⟨ans, hans⟩ := h _ _ _ _ _ es hrun hlog
    obtain ⟨ans', hans'⟩ := hopens _ _ _ _ _ es hrun hlog
    have hevent := (List.cons.inj (hans.symm.trans hans')).1
    injection hevent with hcall _
    injection hcall with hask
    injection hask
  · rintro rfl
    exact hopens

/-! ## Dots at the end of a name -/

/-- The name without a dot at its end. -/
def stem (policy : Bytes) : Bytes :=
  if policy.getLast? = some dot then policy.dropLast else policy

/-- The file is the documented one of the name without a dot at its end. -/
theorem policyFile_eq (dirname policy : Bytes) :
    policyFile dirname policy = documentedFile dirname (stem policy) := by
  rw [policyFile, documentedFile, stem, pathJoin, pathJoin]
  generalize (if dirname.getLast? = some slash then dirname.dropLast else dirname) = d
  rcases List.eq_nil_or_concat policy with rfl | ⟨name, b, rfl⟩
  · have hlast : (d ++ [slash]).getLast? = some slash := List.getLast?_concat
    have hne : slash ≠ dot := by decide
    rw [hlast]
    simp [hne]
  · have hlast : (d ++ slash :: name.concat b).getLast? = some b := by
      rw [List.concat_eq_append, ← List.cons_append, ← List.append_assoc]
      exact List.getLast?_concat
    have hname : (name.concat b).getLast? = some b := by
      rw [List.concat_eq_append]
      exact List.getLast?_concat
    rw [hlast, hname]
    split
    case isFalse => simp
    case isTrue =>
      have hdrop : (d ++ slash :: name.concat b).dropLast = d ++ slash :: name := by
        rw [List.concat_eq_append, ← List.cons_append, ← List.append_assoc, List.dropLast_concat]
      rw [hdrop, List.concat_eq_append, List.dropLast_concat]
      simp

/-- Different names have different documented files. -/
theorem documentedFile_inj {dirname p q : Bytes} :
    documentedFile dirname p = documentedFile dirname q ↔ p = q := by
  refine ⟨fun h => ?_, fun h => by rw [h]⟩
  have hname := List.append_cancel_left h
  exact List.append_cancel_right (List.cons.inj hname).2

theorem stem_of_not {policy : Bytes} (h : policy.getLast? ≠ some dot) : stem policy = policy :=
  if_neg h

theorem stem_concat (name : Bytes) : stem (name ++ [dot]) = name := by
  rw [stem, List.getLast?_concat, if_pos rfl, List.dropLast_concat]

theorem eq_concat_of_last {policy : Bytes} (h : policy.getLast? = some dot) :
    policy = stem policy ++ [dot] := by
  obtain ⟨name, rfl⟩ := List.getLast?_eq_some_iff.mp h
  rw [stem_concat]

/-- A name keeps all its bytes if and only if it does not end in a dot. -/
theorem stem_eq_iff {policy : Bytes} : stem policy = policy ↔ policy.getLast? ≠ some dot := by
  refine ⟨fun h hlast => ?_, stem_of_not⟩
  have hlen := congrArg List.length (eq_concat_of_last hlast)
  rw [h, List.length_append, List.length_singleton] at hlen
  omega

/-- `q` is `p` with a dot behind it, the only one there. -/
def Dotted (p q : Bytes) : Prop := p.getLast? ≠ some dot ∧ q = p ++ [dot]

/-- Two names have one stem if and only if they are the same up to a dot. -/
theorem stem_inj_iff {p q : Bytes} : stem p = stem q ↔ p = q ∨ Dotted p q ∨ Dotted q p := by
  constructor
  · intro h
    by_cases hp : p.getLast? = some dot
    · by_cases hq : q.getLast? = some dot
      · refine Or.inl ?_
        rw [eq_concat_of_last hp, eq_concat_of_last hq, h]
      · refine Or.inr (Or.inr ⟨hq, ?_⟩)
        rw [← stem_of_not hq, ← h]
        exact eq_concat_of_last hp
    · by_cases hq : q.getLast? = some dot
      · refine Or.inr (Or.inl ⟨hp, ?_⟩)
        rw [← stem_of_not hp, h]
        exact eq_concat_of_last hq
      · rw [stem_of_not hp, stem_of_not hq] at h
        exact Or.inl h
  · rintro (rfl | ⟨hp, rfl⟩ | ⟨hq, rfl⟩)
    · rfl
    · rw [stem_concat, stem_of_not hp]
    · rw [stem_concat, stem_of_not hq]

/-- **A policy name denotes its documented file, and no other name denotes it**, if
and only if no name ends in a dot.  Two names denote one file if and only if they
are the same up to one dot at the end. -/
theorem opens_documented_iff (list : List BuiltinPolicy) (dirname : Bytes) {p q : Bytes}
    (hp : isBuiltinPolicy p = false) (hq : isBuiltinPolicy q = false) :
    ((OpensOnly list dirname p (documentedFile dirname p) ∧
        OpensOnly list dirname q (documentedFile dirname q) ∧
        (p ≠ q → ∀ path, OpensOnly list dirname p path → ¬ OpensOnly list dirname q path)) ↔
      p.getLast? ≠ some dot ∧ q.getLast? ≠ some dot) ∧
    ((p ≠ q → ∀ path, OpensOnly list dirname p path → ¬ OpensOnly list dirname q path) ↔
      ¬ Dotted p q ∧ ¬ Dotted q p) := by
  have hdoc : ∀ name, isBuiltinPolicy name = false →
      (OpensOnly list dirname name (documentedFile dirname name) ↔
        name.getLast? ≠ some dot) := fun name hname => by
    rw [opensOnly_iff list hname, policyFile_eq, documentedFile_inj, eq_comm, stem_eq_iff]
  have hpath : (∀ path, OpensOnly list dirname p path → ¬ OpensOnly list dirname q path) ↔
      stem p ≠ stem q := by
    simp only [opensOnly_iff list hp, opensOnly_iff list hq, policyFile_eq, forall_eq]
    rw [documentedFile_inj]
  have hdiffer : (p ≠ q → stem p ≠ stem q) ↔ ¬ Dotted p q ∧ ¬ Dotted q p := by
    rw [ne_eq (stem p), stem_inj_iff]
    constructor
    · intro h
      refine ⟨fun hd => ?_, fun hd => ?_⟩
      · exact h (fun heq => by simpa [heq] using hd.2) (Or.inr (Or.inl hd))
      · exact h (fun heq => by simpa [heq] using hd.2) (Or.inr (Or.inr hd))
    · rintro ⟨h₁, h₂⟩ hne (heq | hd | hd)
      · exact hne heq
      · exact h₁ hd
      · exact h₂ hd
  rw [hpath, hdoc p hp, hdoc q hq, hdiffer]
  refine ⟨⟨fun h => ⟨h.1, h.2.1⟩, fun h => ⟨h.1, h.2, ?_, ?_⟩⟩, Iff.rfl⟩
  · rintro ⟨-, rfl⟩
    exact h.2 List.getLast?_concat
  · rintro ⟨-, rfl⟩
    exact h.1 List.getLast?_concat

/-- `a` and `b` denote their documented files, which differ. -/
theorem opens_documented_ab :
    OpensOnly [] userDir [97] (documentedFile userDir [97]) ∧
      OpensOnly [] userDir [98] (documentedFile userDir [98]) ∧
      ([97] ≠ ([98] : Bytes) →
        ∀ path, OpensOnly [] userDir [97] path → ¬ OpensOnly [] userDir [98] path) :=
  (@opens_documented_iff [] userDir [97] [98] rfl rfl).1.mpr (by decide)

/-- `a.` and `a` denote one file, `/u/a.policy`. -/
theorem opens_one_file :
    slash ∉ ([97, dot] : Bytes) ∧ slash ∉ ([97] : Bytes) ∧
      isBuiltinPolicy [97, dot] = false ∧ isBuiltinPolicy [97] = false ∧
      ([97, dot] : Bytes) ≠ [97] ∧
      OpensOnly [] userDir [97, dot] (documentedFile userDir [97]) ∧
      OpensOnly [] userDir [97] (documentedFile userDir [97]) ∧
      ¬ OpensOnly [] userDir [97, dot] (documentedFile userDir [97, dot]) := by
  refine ⟨by decide, by decide, rfl, rfl, by decide, ?_, ?_, ?_⟩
  · exact (opensOnly_iff [] rfl).mpr rfl
  · exact (opensOnly_iff [] rfl).mpr rfl
  · intro h
    exact absurd ((opensOnly_iff [] rfl).mp h) (by decide)

end YaojJudger
