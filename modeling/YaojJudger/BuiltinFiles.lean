/-
# `YaojJudger.BuiltinFiles` — a builtin policy is loaded as it was compiled in

`policy_set("…", "builtin:p")` on a file system that does what it is asked.

    mkdtemp     a directory `tdir` of its own
    fopen "w", fwrite, fclose       once for each entry of the list
    fopen "r", fseek, fread, fclose `tdir/p.policy`

While the entries have different names, none of them with a `/`, they end up in
`tdir` one beside the other, and the one that is read back is the one that was
written (`builtin_loads`).  The first argument of `policy_set` is not looked at.
-/
import YaojJudger.PolicyFile
import YaojJudger.Posix.Files

namespace YaojJudger

open Posix

/-! ## The calls on a file system -/

/-- The calls `policy_set` makes, with their results and what they do to the files. -/
def FsStep (fs : Files) : (c : Call) → Ret c → Files → Prop
  | .ask (.mkdtemp template), made, fs' => ∃ dir, made = some dir ∧ fs.Makes template dir fs'
  | .ask (.fopen path write), fp, fs' => fs.Opens path write fp fs'
  | .ask (.fwrite content fp), n, fs' => fs.Writes content fp n fs'
  | .ask (.fsize fp), size, fs' => fs.Sizes fp size fs'
  | .ask (.fread fp size), buffer, fs' => fs.Reads fp size buffer fs'
  | .ask (.fclose fp), _, fs' => fs.Closes fp fs'
  | .ask (.strerr _), _, fs' => fs' = fs
  | _, _, _ => False

/-- The file system has an answer. -/
def Answered (fs : Files) (c : Call) : Prop := ∃ r fs', FsStep fs c r fs'

/-- There is a stream to open, and a directory to make. -/
structure Roomy (fs : Files) : Prop where
  stream : ∃ fp, fs.streams fp = none
  dir : ∃ dir fs', fs.Makes tmpTemplate dir fs'

/-- What is left to do is nothing, and `Q` holds; or it begins with a call that
has an answer. -/
def Fine (fs : Files) (Q : Files → Int → Mem → Prop) : Prog Call Ret (Int × Mem) → Prop
  | .ret (r, m) => Q fs r m
  | .exit _ => False
  | .call c _ => Answered fs c

/-- The safety condition of `Prog`, on files. -/
def FsWp {α : Type} (x : Code α) (Q : Files → α → Mem → Prop) (fs : Files) (m : Mem) : Prop :=
  Prog.wp FsStep Answered (fun _ _ => False) (x m) (fun fs' am => Q fs' am.1 am.2) fs

section
variable {α β : Type} {fs : Files} {m : Mem}

theorem fsWp_bind (x : Code α) (f : α → Code β) (Q : Files → β → Mem → Prop) :
    FsWp (x >>= f) Q fs m ↔ FsWp x (fun fs' a m' => FsWp (f a) Q fs' m') fs m :=
  Prog.wp_bind _ _ _ _

theorem fsWp_pure (a : α) (Q : Files → α → Mem → Prop) : FsWp (pure a) Q fs m ↔ Q fs a m := Iff.rfl

theorem fsWp_ask_bind (q : Ask) (f : q.Ans → Code α) (Q : Files → α → Mem → Prop) :
    FsWp (ask q >>= f) Q fs m ↔
      Answered fs (.ask q) ∧ ∀ r fs', FsStep fs (.ask q) r fs' → FsWp (f r) Q fs' m := Iff.rfl

theorem fsWp_modifyPolicy (f : PolicyCtxt → PolicyCtxt) (Q : Files → Unit → Mem → Prop) :
    FsWp (modifyPolicy f) Q fs m ↔
      Q fs () { m with ctxt := { m.ctxt with pctxt := f m.ctxt.pctxt } } := Iff.rfl

/-- A program that is safe is fine at every position. -/
theorem FsWp.fine {x : Code Int} {Q : Files → Int → Mem → Prop} (h : FsWp x Q fs m) {fs' : Files}
    {p : Prog Call Ret (Int × Mem)} (hrun : Prog.Steps FsStep fs (x m) fs' p) : Fine fs' Q p := by
  have hw := hrun.wp h
  cases p with
  | ret rm => exact hw
  | exit n => exact hw
  | call c k => exact hw.1

end

/-! ## One file -/

section
variable {fs : Files} {m : Mem} {dir name : Bytes}

theorem answered_mkdtemp (h : Roomy fs) : Answered fs (.ask (.mkdtemp tmpTemplate)) := by
  obtain ⟨dir, fs', hmakes⟩ := h.dir
  exact ⟨some dir, fs', dir, rfl, hmakes⟩

theorem answered_fopen_write {path : Bytes} (hfree : ∃ fp, fs.streams fp = none)
    (hat : Posix.At path dir name) (hdir : fs.HasDir dir) :
    Answered fs (.ask (.fopen path true)) := by
  obtain ⟨fp, hfree⟩ := hfree
  exact ⟨some fp, _, .write hat hdir hfree⟩

theorem answered_fopen_read {path : Bytes} (hfree : ∃ fp, fs.streams fp = none)
    (hat : Posix.At path dir name) (hfile : (fs.get dir name).isSome) :
    Answered fs (.ask (.fopen path false)) := by
  obtain ⟨fp, hfree⟩ := hfree
  exact ⟨some fp, _, .read hat hfile hfree⟩

theorem answered_fwrite {fp : Nat} {s : Stream} {content bytes : Bytes} (h : fs.In fp s content) :
    Answered fs (.ask (.fwrite bytes fp)) :=
  ⟨bytes.length, _, s, content, h, rfl, rfl⟩

theorem answered_fclose {fp : Nat} {s : Stream} {content : Bytes} (h : fs.In fp s content) :
    Answered fs (.ask (.fclose fp)) :=
  ⟨(), _, s, content, h, rfl⟩

theorem answered_fsize {fp : Nat} {s : Stream} {content : Bytes} (h : fs.In fp s content) :
    Answered fs (.ask (.fsize fp)) :=
  ⟨content.length, _, s, content, h, rfl, rfl⟩

theorem answered_fread {fp : Nat} {s : Stream} {content : Bytes} (h : fs.In fp s content) :
    Answered fs (.ask (.fread fp content.length)) := by
  refine ⟨(content.drop s.pos).take content.length ++ List.replicate (min s.pos content.length) 0,
    _, s, content, h, ?_, List.prefix_append _ _, rfl⟩
  rw [List.length_append, List.length_take, List.length_drop, List.length_replicate]
  omega

end

/-! ## All of them -/

/-- The files after the entries of `list` have been written into `tdir`. -/
def written (tdir : Bytes) (fs : Files) (list : List BuiltinPolicy) : Files :=
  list.foldl (fun fs p => fs.put tdir p.filename p.content) fs

section
variable {tdir : Bytes}

theorem written_cons (fs : Files) (p : BuiltinPolicy) (list : List BuiltinPolicy) :
    written tdir fs (p :: list) = written tdir (fs.put tdir p.filename p.content) list := rfl

theorem written_streams (list : List BuiltinPolicy) :
    ∀ fs, (written tdir fs list).streams = fs.streams := by
  induction list with
  | nil => intro fs; rfl
  | cons p list ih => intro fs; rw [written_cons, ih, Files.put_streams]

theorem written_hasDir (dir : Bytes) (list : List BuiltinPolicy) :
    ∀ fs, (written tdir fs list).HasDir dir ↔ fs.HasDir dir := by
  induction list with
  | nil => intro fs; rfl
  | cons p list ih => intro fs; rw [written_cons, ih, Files.hasDir_put]

/-- Other directories are left alone. -/
theorem written_other {dir : Bytes} (h : dir ≠ tdir) (list : List BuiltinPolicy) :
    ∀ fs, (written tdir fs list).dirs dir = fs.dirs dir := by
  induction list with
  | nil => intro fs; rfl
  | cons p list ih => intro fs; rw [written_cons, ih, Files.put_of_ne _ _ _ _ _ h]

/-- A name that is not in the list keeps its contents. -/
theorem written_get_other {name : Bytes} {list : List BuiltinPolicy}
    (h : name ∉ list.map BuiltinPolicy.filename) :
    ∀ fs, (written tdir fs list).get tdir name = fs.get tdir name := by
  induction list with
  | nil => intro fs; rfl
  | cons p list ih =>
      intro fs
      rw [List.map_cons, List.mem_cons, not_or] at h
      rw [written_cons, ih h.2, Files.get_put_of_ne _ _ _ _ _ h.1]

/-- Entries with different names do not overwrite each other. -/
theorem written_get {list : List BuiltinPolicy} (hnodup : (list.map BuiltinPolicy.filename).Nodup)
    {e : BuiltinPolicy} (he : e ∈ list) :
    ∀ fs : Files, fs.HasDir tdir → (written tdir fs list).get tdir e.filename = some e.content := by
  induction list with
  | nil => exact absurd he List.not_mem_nil
  | cons p list ih =>
      intro fs hdir
      rw [List.map_cons, List.nodup_cons] at hnodup
      rw [written_cons]
      rcases List.mem_cons.mp he with rfl | he
      · rw [written_get_other hnodup.1, Files.get_put_self _ _ _ _ hdir]
      · exact ih hnodup.2 he _ ((Files.hasDir_put ..).mpr hdir)

/-- A file directly in `tdir`. -/
theorem at_pathJoin {name : Bytes} (htdir : tdir.getLast? ≠ some slash) (hname : slash ∉ name) :
    Posix.At (pathJoin tdir slash name) tdir name := by
  rw [pathJoin, if_neg htdir]
  exact ⟨rfl, hname⟩

/-- **The loop writes every entry**, and comes to 0. -/
theorem writePolicies_files (htdir : tdir.getLast? ≠ some slash) :
    ∀ {list : List BuiltinPolicy} {fs : Files} {m : Mem} {Q : Files → Int → Mem → Prop},
      (∀ e ∈ list, slash ∉ e.filename) → fs.HasDir tdir → (∃ fp, fs.streams fp = none) →
      Q (written tdir fs list) 0 m → FsWp (writePolicies tdir list) Q fs m
  | [], _, _, _, _, _, _, hQ => hQ
  | p :: list, fs, m, Q, hnames, hdir, hfree, hQ => by
      have hat := at_pathJoin htdir (hnames p List.mem_cons_self)
      refine (fsWp_ask_bind _ _ _).mpr ⟨answered_fopen_write hfree hat hdir, ?_⟩
      intro r fs₁ hopen
      obtain ⟨fp, rfl, hfp, rfl⟩ := Files.Opens.write_inv hopen hat hdir
      have hin := Files.in_stream fp 0 (Files.get_put_self fs tdir p.filename [] hdir)
      refine (fsWp_ask_bind _ _ _).mpr ⟨answered_fwrite hin, ?_⟩
      intro n fs₂ hwrite
      obtain ⟨rfl, rfl⟩ := Files.Writes.inv hdir hwrite
      rw [if_neg (not_not.mpr rfl)]
      refine (fsWp_ask_bind _ _ _).mpr ⟨answered_fclose (Files.in_stream _ _
        (Files.get_put_self fs tdir p.filename p.content hdir)), ?_⟩
      intro _ fs₃ hclose
      obtain rfl := Files.Closes.inv (by exact hfp) hclose
      refine writePolicies_files htdir (fun e he => hnames e (List.mem_cons_of_mem p he)) ?_ ?_ hQ
      · exact (Files.hasDir_put ..).mpr hdir
      · exact hfree

/-- **A policy whose file is there is loaded from it**, byte for byte. -/
theorem policySet_files {list : List BuiltinPolicy} {policy content : Bytes} {fs : Files} {m : Mem}
    {Q : Files → Int → Mem → Prop} (htdir : tdir.getLast? ≠ some slash)
    (hb : isBuiltinPolicy policy = false) (hdot : policy.getLast? ≠ some dot)
    (hname : slash ∉ policy ++ dot :: policySuffix)
    (hfile : fs.get tdir (policy ++ dot :: policySuffix) = some content)
    (hfree : ∃ fp, fs.streams fp = none)
    (hQ : Q fs 0 { m with ctxt := { m.ctxt with pctxt := { m.ctxt.pctxt with
      content := some content, dirname := some tdir, policy := some policy } } }) :
    FsWp (policySet list tdir policy) Q fs m := by
  have hat : Posix.At (policyFile tdir policy) tdir (policy ++ dot :: policySuffix) := by
    rw [policyFile_eq, stem_of_not hdot, documentedFile, if_neg htdir]
    exact ⟨rfl, hname⟩
  rw [policySet, dif_neg (by simp [hb])]
  refine (fsWp_ask_bind _ _ _).mpr ⟨answered_fopen_read hfree hat (by rw [hfile]; rfl), ?_⟩
  intro r fs₁ hopen
  obtain ⟨fp, rfl, hfp, rfl⟩ :=
    Files.Opens.read_inv hopen hat (by rw [hfile]; exact Option.some_ne_none _)
  rw [fsWp_bind]
  refine (fsWp_ask_bind _ _ _).mpr ⟨answered_fsize (Files.in_stream _ _ hfile), ?_⟩
  intro size fs₂ hsize
  obtain ⟨rfl, rfl⟩ := Files.Sizes.inv hfile hsize
  refine (fsWp_ask_bind _ _ _).mpr ⟨answered_fread (Files.in_stream _ _ hfile), ?_⟩
  intro buffer fs₃ hread
  obtain ⟨hbuffer, rfl⟩ := Files.Reads.inv hfile hread
  refine (fsWp_ask_bind _ _ _).mpr ⟨answered_fclose (Files.in_stream _ _ hfile), ?_⟩
  intro _ fs₄ hclose
  obtain rfl := Files.Closes.inv hfp hclose
  rw [fsWp_pure, hbuffer, List.take_length]
  exact hQ

end

/-! ## The call -/

/-- At the end: the context has the contents of `e`, and the directory `tdir`, which
is new, has the entries of `list` in it and nothing else. -/
structure Loaded (list : List BuiltinPolicy) (e : BuiltinPolicy) (fs : Files) (tdir : Bytes)
    (fs' : Files) (pctxt : PolicyCtxt) : Prop where
  content : pctxt.content = some e.content
  dirname : pctxt.dirname = some tdir
  fresh : ¬ fs.HasDir tdir
  made : fs'.HasDir tdir
  files : ∀ name content, fs'.get tdir name = some content ↔
    ∃ p ∈ list, p.filename = name ∧ p.content = content
  noDirs : ∀ sub, ¬ fs'.HasDir (tdir ++ slash :: sub)
  others : ∀ dir, dir ≠ tdir → fs'.dirs dir = fs.dirs dir

section
variable {list : List BuiltinPolicy} {e : BuiltinPolicy} {tdir : Bytes} {fs fs' : Files}

/-- The directory `mkdtemp` makes has no `/` at its end. -/
theorem makes_last {template : Bytes} (h : fs.Makes template tdir fs') :
    tdir.getLast? ≠ some slash := by
  obtain ⟨stem, suffix, -, rfl, hlen, hslash⟩ := h.name
  rcases List.eq_nil_or_concat suffix with rfl | ⟨init, b, rfl⟩
  · cases hlen
  · intro hlast
    rw [List.concat_eq_append, ← List.append_assoc, List.getLast?_concat] at hlast
    obtain rfl := Option.some.inj hlast
    exact hslash (by simp)

/-- A new directory with the entries written into it. -/
theorem loaded_written {template : Bytes} {pctxt : PolicyCtxt} (h : fs.Makes template tdir fs')
    (hnodup : (list.map BuiltinPolicy.filename).Nodup) (hcontent : pctxt.content = some e.content)
    (hdirname : pctxt.dirname = some tdir) :
    Loaded list e fs tdir (written tdir fs' list) pctxt := by
  have hmade : fs'.HasDir tdir := by
    rw [h.eq]
    exact Files.hasDir_mkdir ..
  refine ⟨hcontent, hdirname, h.fresh, (written_hasDir tdir list fs').mpr hmade, ?_, ?_, ?_⟩
  · intro name content
    constructor
    · intro hget
      by_cases hin : name ∈ list.map BuiltinPolicy.filename
      · obtain ⟨p, hp, rfl⟩ := List.mem_map.mp hin
        rw [written_get hnodup hp fs' hmade] at hget
        exact ⟨p, hp, rfl, Option.some.inj hget⟩
      · rw [written_get_other hin, h.eq, Files.get, Files.mkdir_self] at hget
        cases hget
    · rintro ⟨p, hp, rfl, rfl⟩
      exact written_get hnodup hp fs' hmade
  · intro sub
    rw [written_hasDir, h.eq, Files.HasDir, Files.mkdir_of_ne _ _ _ (by simp)]
    exact h.empty sub
  · intro dir hne
    rw [written_other hne, h.eq, Files.mkdir_of_ne _ _ _ hne]

theorem policySet_builtin (list : List BuiltinPolicy) (dirname p : Bytes) :
    policySet list dirname (builtinPrefix ++ p) =
      policySetBuiltin list fun tdir => policySet list tdir p := by
  have hb : isBuiltinPolicy (builtinPrefix ++ p) = true :=
    List.isPrefixOf_iff_prefix.mpr (List.prefix_append _ _)
  have hdrop : (builtinPrefix ++ p).drop 8 = p := List.drop_left' rfl
  rw [policySet, dif_pos hb, hdrop]

/-- **A builtin policy is loaded as it was compiled in**: whatever the first argument
is, the call is the same; it can be answered to its end, and however it is
answered it comes to 0 with the policy loaded. -/
theorem builtin_loads (list : List BuiltinPolicy)
    (hnodup : (list.map BuiltinPolicy.filename).Nodup) (hnames : ∀ e ∈ list, slash ∉ e.filename)
    (p : Bytes) (e : BuiltinPolicy) (he : e ∈ list) (hname : e.filename = p ++ dot :: policySuffix)
    (hb : isBuiltinPolicy p = false) (hdot : p.getLast? ≠ some dot) (dirname : Bytes)
    (fs : Files) (hroom : Roomy fs) (m : Mem) :
    (∀ dirname', yjudgerSetPolicy list dirname' (builtinPrefix ++ p) =
      yjudgerSetPolicy list dirname (builtinPrefix ++ p)) ∧
    (∃ fs' m', Prog.Steps FsStep fs (yjudgerSetPolicy list dirname (builtinPrefix ++ p) m) fs'
      (.ret (0, m'))) ∧
    ∀ fs' x, Prog.Steps FsStep fs (yjudgerSetPolicy list dirname (builtinPrefix ++ p) m) fs' x →
      Fine fs' (fun fs' r m' => r = 0 ∧ ∃ tdir, Loaded list e fs tdir fs' m'.ctxt.pctxt) x := by
  have hsafe : FsWp (yjudgerSetPolicy list dirname (builtinPrefix ++ p))
      (fun fs' r m' => r = 0 ∧ ∃ tdir, Loaded list e fs tdir fs' m'.ctxt.pctxt) fs m := by
    rw [yjudgerSetPolicy, policySet_builtin]
    refine (fsWp_ask_bind _ _ _).mpr ⟨answered_mkdtemp hroom, ?_⟩
    rintro _ fs₁ ⟨tdir, rfl, hmakes⟩
    have hlast := makes_last hmakes
    have hmade : fs₁.HasDir tdir := by
      rw [hmakes.eq]
      exact Files.hasDir_mkdir ..
    have hfree : ∃ fp, fs₁.streams fp = none := by
      rw [hmakes.eq]
      exact hroom.stream
    refine (fsWp_bind _ _ _).mpr (writePolicies_files hlast hnames hmade hfree ?_)
    refine (fsWp_bind _ _ _).mpr ?_
    rw [fsWp_modifyPolicy]
    refine policySet_files hlast hb hdot (hname ▸ hnames e he)
      (hname ▸ written_get hnodup he fs₁ hmade) ?_ ⟨rfl, tdir, loaded_written hmakes hnodup rfl rfl⟩
    rw [written_streams]
    exact hfree
  refine ⟨?_, ?_, fun fs' x hrun => hsafe.fine hrun⟩
  · intro dirname'
    rw [yjudgerSetPolicy, yjudgerSetPolicy, policySet_builtin, policySet_builtin]
  · obtain ⟨fs', ⟨r, m'⟩, hrun, rfl, -⟩ := Prog.exists_run (fun _ _ h => h) _ _ hsafe
    exact ⟨fs', m', hrun⟩

end

/-- A file system with nothing in it. -/
def noFiles : Files := ⟨fun _ => none, fun _ => none⟩

theorem roomy_noFiles : Roomy noFiles where
  stream := ⟨3, rfl⟩
  dir := by
    refine ⟨tmpTemplate.take 13 ++ List.replicate 6 97, _, ?_, ?_, ?_, rfl⟩
    · exact ⟨tmpTemplate.take 13, List.replicate 6 97, by decide, rfl, rfl, by decide⟩
    · exact Bool.false_ne_true
    · exact fun _ => Bool.false_ne_true

/-- `a.policy` and `b.policy`. -/
def twoPolicies : List BuiltinPolicy :=
  [⟨97 :: dot :: policySuffix, [37, 48, 115]⟩, ⟨98 :: dot :: policySuffix, [0, 1]⟩]

/-- `builtin:b` of two entries, on an empty file system; the contents have a 0 in them. -/
theorem builtin_loads_two :
    (∀ dirname', yjudgerSetPolicy twoPolicies dirname' (builtinPrefix ++ [98]) =
      yjudgerSetPolicy twoPolicies userDir (builtinPrefix ++ [98])) ∧
    (∃ fs' m', Prog.Steps FsStep noFiles
      (yjudgerSetPolicy twoPolicies userDir (builtinPrefix ++ [98]) freshMem) fs'
      (.ret (0, m'))) ∧
    ∀ fs' x, Prog.Steps FsStep noFiles
      (yjudgerSetPolicy twoPolicies userDir (builtinPrefix ++ [98]) freshMem) fs' x →
      Fine fs' (fun fs' r m' => r = 0 ∧ ∃ tdir, Loaded twoPolicies
        ⟨98 :: dot :: policySuffix, [0, 1]⟩ noFiles tdir fs' m'.ctxt.pctxt) x :=
  builtin_loads twoPolicies (by decide) (by decide) [98] ⟨98 :: dot :: policySuffix, [0, 1]⟩
    (by decide) rfl rfl (by decide) userDir noFiles roomy_noFiles freshMem

end YaojJudger
