/-
# `YaojJudger.Rmtree` — what `rmtree_depth1` does to the tree of files

`rmtree_depth1` of `common.c` is run against a tree of files: `TreeStep` says how a
tree answers each of its calls, and what becomes of it.  A call that is to change the
tree may fail for any reason, and then changes nothing; the listing may miss an entry, or
repeat one.

    stat         whether the path leads to a directory
    opendir      fails exactly if that is none that can be read
    unlink       takes away an entry that is not a directory
    rmdir        takes away a directory without entries

All paths but the first are joined from `path` and the name of an entry, so they lead to
where `path` leads, and one name further (`components_pathJoin`).  While the loop runs the
tree is `Pruned`: it has lost some entries of that directory, none of them a directory.

What is lost may be a link, and `path` may lead through it.  Then the directory is still
there when the function fails, but `path` does not name it any more.
-/
import YaojJudger.PolicyDir
import YaojJudger.Chain
import YaojJudger.Posix.FileTree

namespace YaojJudger

open Posix

/-! ## The calls on a tree of files -/

/-- From the tree `t` the call is answered so, and leaves `t'`. -/
def TreeStep (cwd : Location) (t : FileTree) : JEvent → FileTree → Prop
  | ⟨.ask (.stat path), isDir⟩, t' =>
      t' = t ∧ ∀ links loc, t.Names cwd path links loc → (isDir = true ↔ t.IsDir loc)
  | ⟨.ask (.opendir path), none⟩, t' =>
      t' = t ∧ ∀ links loc, t.Names cwd path links loc → ¬ t.Readable loc
  | ⟨.ask (.opendir path), some names⟩, t' =>
      t' = t ∧ ∃ links loc, t.Names cwd path links loc ∧ t.Readable loc ∧ t.Lists loc names
  | ⟨.ask (.unlink path), removed⟩, t' =>
      (removed = true → t.Unlinks cwd path t') ∧ (removed = false → t' = t)
  | ⟨.ask (.rmdir path), removed⟩, t' =>
      (removed = true → t.Rmdirs cwd path t') ∧ (removed = false → t' = t)
  | ⟨.ask .closedir, _⟩, t' => t' = t
  | ⟨.ask (.strerr _), _⟩, t' => t' = t
  | _, _ => True

/-- The same for a list of calls. -/
def TreeSteps (cwd : Location) : FileTree → List JEvent → FileTree → Prop
  | t, [], t' => t' = t
  | t, e :: es, t' => ∃ t₁, TreeStep cwd t e t₁ ∧ TreeSteps cwd t₁ es t'

/-- An `unlink` or `rmdir` that failed. -/
def refused : JEvent → Bool
  | ⟨.ask (.unlink _), false⟩ => true
  | ⟨.ask (.rmdir _), false⟩ => true
  | _ => false

section
variable {cwd loc : Location} {t t' t₁ t₂ : FileTree}

theorem treeSteps_singleton {e : JEvent} : TreeSteps cwd t [e] t' ↔ TreeStep cwd t e t' := by
  constructor
  · rintro ⟨t₁, h, rfl⟩
    exact h
  · intro h
    exact ⟨t', h, rfl⟩

theorem treeSteps_append {es es' : List JEvent} :
    TreeSteps cwd t (es ++ es') t' ↔ ∃ t₁, TreeSteps cwd t es t₁ ∧ TreeSteps cwd t₁ es' t' := by
  induction es generalizing t with
  | nil =>
      constructor
      · intro h
        exact ⟨t, rfl, h⟩
      · rintro ⟨t₁, rfl, h⟩
        exact h
  | cons e es ih =>
      constructor
      · rintro ⟨t₁, he, h⟩
        obtain ⟨t₂, hes, h⟩ := ih.mp h
        exact ⟨t₂, ⟨t₁, he, hes⟩, h⟩
      · rintro ⟨t₂, ⟨t₁, he, hes⟩, h⟩
        exact ⟨t₁, he, ih.mpr ⟨t₂, hes, h⟩⟩

/-! ## Joined paths -/

theorem components_pathJoin (path : Bytes) {n : FileName} (hn : ProperName n) :
    components (pathJoin path slash n) = components path ++ [n] := by
  rw [pathJoin, components_append, components_name hn]
  by_cases h : path.getLast? = some slash
  · obtain ⟨p, rfl⟩ := List.getLast?_eq_some_iff.mp h
    rw [if_pos h, List.dropLast_concat, components_append]
    exact congrArg (· ++ [n]) (List.append_nil _).symm
  · rw [if_neg h]

theorem startOf_pathJoin {path : Bytes} (hne : path ≠ []) (n : FileName) :
    startOf cwd (pathJoin path slash n) = startOf cwd path := by
  have hhead : (pathJoin path slash n).head? = path.head? := by
    rw [pathJoin]
    by_cases h : path.getLast? = some slash
    · obtain ⟨p, rfl⟩ := List.getLast?_eq_some_iff.mp h
      rw [if_pos h, List.dropLast_concat]
      cases p with
      | nil => rfl
      | cons b p => rfl
    · rw [if_neg h, List.head?_append_of_ne_nil _ hne]
  rw [startOf, startOf, hhead]

theorem getLast?_pathJoin (path : Bytes) {n : FileName} (hn : ProperName n) :
    (pathJoin path slash n).getLast? ≠ some slash := by
  intro h
  rw [pathJoin, List.append_cons, List.getLast?_append_of_ne_nil _ hn.1] at h
  exact hn.2.2.2 (List.mem_of_getLast? h)

/-! ## The tree while the loop runs -/

/-- `t'` is `t` without some of the entries of `loc` that are not directories. -/
def Pruned (t : FileTree) (loc : Location) (t' : FileTree) : Prop :=
  ∀ x, t'.node x = t.node x ∨ (t'.node x = none ∧ ∃ n, x = loc ++ [n] ∧ ¬ t.IsDir x)

theorem Pruned.refl (t : FileTree) (loc : Location) : Pruned t loc t := fun _ => Or.inl rfl

theorem Pruned.le (h : Pruned t loc t') : t' ≤ t := by
  intro x k hk
  rcases h x with hx | ⟨hx, -⟩
  · rw [← hx, hk]
  · rw [hx] at hk
    cases hk

theorem Pruned.dir {x : Location} (h : Pruned t loc t') (hd : t.IsDir x) :
    t'.node x = t.node x := by
  rcases h x with hx | ⟨-, n, -, hnd⟩
  · exact hx
  · exact absurd hd hnd

theorem Pruned.self (h : Pruned t loc t') : t'.node loc = t.node loc := by
  rcases h loc with hx | ⟨-, n, hn, -⟩
  · exact hx
  · exact absurd hn.symm (by simp)

/-- One entry less. -/
theorem Pruned.loses {n : FileName} (h : Pruned t loc t₁) (hd : ¬ t₁.IsDir (loc ++ [n]))
    (hl : t₁.Loses (loc ++ [n]) t₂) : Pruned t loc t₂ := by
  intro x
  by_cases hx : x = loc ++ [n]
  · subst hx
    refine Or.inr ⟨hl.1, n, rfl, fun hdir => hd ?_⟩
    obtain ⟨r, s, hrs⟩ := hdir
    exact ⟨r, s, by rw [h.dir ⟨r, s, hrs⟩, hrs]⟩
  · rw [hl.2 x hx]
    exact h x

variable {path : Bytes} {links : List Location}

/-- What `unlink` of a joined path takes away is an entry of the directory. -/
theorem Pruned.unlinks {n : FileName} (h : Pruned t loc t₁) (hpath : t.Names cwd path links loc)
    (hn : ProperName n) (hu : t₁.Unlinks cwd (pathJoin path slash n) t₂) : Pruned t loc t₂ := by
  obtain ⟨d, n', hentry, -, -, hnd, hl⟩ := hu
  obtain ⟨cs, links', hcs, hw, -⟩ := hentry.walk
  rw [components_pathJoin path hn] at hcs
  rw [startOf_pathJoin hpath.nonempty, ← (List.append_inj' hcs rfl).1] at hw
  obtain ⟨-, rfl⟩ := hpath.walk.unique (hw.mono h.le)
  exact h.loses hnd hl

/-- What `rmdir` takes away is the directory, when all its entries are gone. -/
theorem Pruned.rmdirs (h : Pruned t loc t₁) (hpath : t.Names cwd path links loc)
    (hr : t₁.Rmdirs cwd path t₂) :
    (∀ n, t₁.node (loc ++ [n]) = none) ∧ t₁.Loses loc t₂ := by
  obtain ⟨d, n, hentry, ⟨r, s, hrs⟩, hempty, hl⟩ := hr
  obtain ⟨cs, links', hcs, hw, -⟩ := hentry.walk
  have hwalk := hw.snoc hentry.searchable hrs fun _ hk => by cases hk
  rw [← hcs] at hwalk
  obtain ⟨-, hd⟩ := hpath.walk.unique (hwalk.mono h.le)
  rw [hd] at hempty hl
  exact ⟨hempty, hl⟩

/-- Where no link of the path is gone, it still names the directory. -/
theorem Pruned.names (h : Pruned t loc t') (hpath : t.Names cwd path links loc) :
    t'.Names cwd path links loc ↔ ∀ x ∈ links, (t'.node x).isSome := by
  constructor
  · intro h'
    exact h'.walk.isSome_links
  · intro hlinks
    refine ⟨hpath.nonempty, hpath.walk.keep (fun x => h.dir) (fun x hx => ?_) h.self, hpath.few,
      fun hs => ?_⟩
    · refine (h x).resolve_right fun hx' => ?_
      have hsome := hlinks x hx
      rw [hx'.1] at hsome
      cases hsome
    · obtain ⟨r, s, hrs⟩ := hpath.dir hs
      exact ⟨r, s, by rw [h.self, hrs]⟩

/-- A list of names leaves only names to be joined, once `.` and `..` are passed over. -/
theorem properName_of_lists {names : List Bytes} {n : Bytes} (h : t.Lists loc names)
    (hn : n ∈ names) (hdot : ¬ (n = [dot] ∨ n = [dot, dot])) : ProperName n := by
  rcases h n hn with h1 | h2 | hentry
  · exact absurd (Or.inl h1) hdot
  · exact absurd (Or.inr h2) hdot
  · exact t.named hentry

end

/-! ## The loop over the entries -/

/-- These events leave a pruned tree pruned. -/
def Prunes (cwd : Location) (t : FileTree) (loc : Location) (es : List JEvent) : Prop :=
  ∀ t₁ t₂, Pruned t loc t₁ → TreeSteps cwd t₁ es t₂ → Pruned t loc t₂

section
variable {cwd loc : Location} {t t' : FileTree} {path : Bytes} {links : List Location}
variable {l : JLocal} {m : Mem}

theorem prunes_nil : Prunes cwd t loc [] := by
  intro t₁ t₂ h hs
  rw [show t₂ = t₁ from hs]
  exact h

theorem Prunes.append {es es' : List JEvent} (h : Prunes cwd t loc es)
    (h' : Prunes cwd t loc es') : Prunes cwd t loc (es ++ es') := by
  intro t₁ t₃ hp hs
  obtain ⟨t₂, hs, hs'⟩ := treeSteps_append.mp hs
  exact h' t₂ t₃ (h t₁ t₂ hp hs) hs'

theorem prunes_stat (p : Bytes) (isDir : Bool) :
    Prunes cwd t loc [⟨.ask (.stat p), isDir⟩] := by
  intro t₁ t₂ h hs
  obtain ⟨rfl, -⟩ := treeSteps_singleton.mp hs
  exact h

theorem prunes_said (errnum : Int) : Prunes cwd t loc [said errnum] := by
  intro t₁ t₂ h hs
  rw [show t₂ = t₁ from treeSteps_singleton.mp hs]
  exact h

theorem prunes_unlink {n : FileName} (hpath : t.Names cwd path links loc) (hn : ProperName n)
    (removed : Bool) : Prunes cwd t loc [⟨.ask (.unlink (pathJoin path slash n)), removed⟩] := by
  intro t₁ t₂ h hs
  obtain ⟨hyes, hno⟩ := treeSteps_singleton.mp hs
  cases removed with
  | true => exact h.unlinks hpath hn (hyes rfl)
  | false =>
      rw [hno rfl]
      exact h

/-- The loop takes away entries that are not directories, and returns 0 exactly if no
`unlink` of it failed. -/
theorem removeEntries_prunes (hpath : t.Names cwd path links loc) :
    ∀ (names : List Bytes) (l : JLocal) (m : Mem) (Q : JLocal → Int → Mem → Prop),
      (∀ es r m', (t.Lists loc names → Prunes cwd t loc es) →
        (r = 0 ↔ ∀ e ∈ es, refused e = false) → Q (told l es) r m') →
      Code.wp (fun _ _ => True) (fun _ _ => True) (removeEntries path names) Q l m
  | [], l, m, Q, hQ => by
      have := hQ [] 0 m (fun _ => prunes_nil)
        ⟨fun _ e he => absurd he List.not_mem_nil, fun _ => rfl⟩
      rw [told_nil] at this
      exact this
  | n :: names, l, m, Q, hQ => by
      have hrest : t.Lists loc (n :: names) → t.Lists loc names :=
        fun h n' hn' => h n' (List.mem_cons_of_mem _ hn')
      rw [removeEntries, Code.wp_ite]
      constructor
      · intro _
        exact removeEntries_prunes hpath names l m Q fun es r m' hes hr =>
          hQ es r m' (fun h => hes (hrest h)) hr
      · intro hdot
        refine (wp_ask_bind _ _ _).mpr ⟨trivial, fun isDir => ?_⟩
        refine (wp_ask_bind _ _ _).mpr ⟨trivial, fun removed => ?_⟩
        have hstep : t.Lists loc (n :: names) →
            Prunes cwd t loc ([⟨.ask (.stat (pathJoin path slash n)), isDir⟩] ++
              [⟨.ask (.unlink (pathJoin path slash n)), removed⟩]) := by
          intro h
          have hn := properName_of_lists h List.mem_cons_self hdot
          exact (prunes_stat _ isDir).append (prunes_unlink hpath hn removed)
        rw [told_told, Code.wp_ite, wp_yreturn, told_told]
        constructor
        · intro hyes
          obtain rfl : removed = true := hyes
          refine removeEntries_prunes hpath names _ m Q fun es r m' hes hr => ?_
          rw [told_told]
          refine hQ _ r m' (fun h => (hstep h).append (hes (hrest h))) (hr.trans ?_)
          simp [refused]
        · intro hno
          obtain rfl : removed = false := Bool.eq_false_iff.mpr hno
          refine ⟨trivial, hQ _ _ _ (fun h => (hstep h).append (prunes_said _)) ?_⟩
          simp [refused, eError]

theorem exists_refused {es : List JEvent} (h : ¬ ∀ e ∈ es, refused e = false) :
    ∃ e ∈ es, refused e = true := by
  by_contra hno
  exact h fun e he => Bool.eq_false_iff.mpr fun hyes => hno ⟨e, he, hyes⟩

/-! ## The whole function -/

/-- What `rmtree_depth1` has done to the tree `t`, by what it returned: `path` named what
is at `loc`, through the links `links`. -/
structure Flattened (cwd : Location) (path : Bytes) (links : List Location) (loc : Location)
    (t : FileTree) (es : List JEvent) (r : Int) (t' : FileTree) : Prop where
  only : ∀ x, t'.node x ≠ t.node x →
    t'.node x = none ∧ (x = loc ∨ ∃ n, x = loc ++ [n] ∧ ¬ t.IsDir x)
  result : r = 0 ↔
    t.Readable loc ∧ (∀ n, ¬ t.IsDir (loc ++ [n])) ∧ ∀ e ∈ es, refused e = false
  gone : r = 0 → ∀ links' loc', ¬ t'.Names cwd path links' loc'
  kept : r ≠ 0 → t'.node loc = t.node loc
  named : r ≠ 0 → (t'.Names cwd path links loc ↔ ∀ x ∈ links, (t'.node x).isSome)

/-- The function failed, and a call or the tree is to blame. -/
theorem Pruned.flattened {es : List JEvent} {r : Int} (h : Pruned t loc t')
    (hpath : t.Names cwd path links loc) (hr : r ≠ 0)
    (hwhy : t.Readable loc → ∃ e ∈ es, refused e = true) :
    Flattened cwd path links loc t es r t' where
  only := by
    intro x hx
    obtain ⟨hnone, hentry⟩ := (h x).resolve_left hx
    exact ⟨hnone, Or.inr hentry⟩
  result := by
    refine ⟨fun h0 => absurd h0 hr, ?_⟩
    rintro ⟨hread, -, hall⟩
    obtain ⟨e, he, hrefused⟩ := hwhy hread
    rw [hall e he] at hrefused
    cases hrefused
  gone := fun h0 => absurd h0 hr
  kept := fun _ => h.self
  named := fun _ => h.names hpath

/-- The function succeeded: the directory went last, when it was empty. -/
theorem Pruned.flattened_rmdir {es : List JEvent} {t₁ : FileTree} (h : Pruned t loc t₁)
    (hpath : t.Names cwd path links loc) (hread : t.Readable loc)
    (hall : ∀ e ∈ es, refused e = false) (hrm : t₁.Rmdirs cwd path t') :
    Flattened cwd path links loc t es 0 t' := by
  obtain ⟨hempty, hl⟩ := h.rmdirs hpath hrm
  refine ⟨fun x hx => ?_, ⟨fun _ => ⟨hread, fun n hd => ?_, hall⟩, fun _ => rfl⟩,
    fun _ links' loc' hn => ?_, fun h0 => absurd rfl h0, fun h0 => absurd rfl h0⟩
  · by_cases hloc : x = loc
    · rw [hloc]
      exact ⟨hl.1, Or.inl rfl⟩
    · rw [hl.2 x hloc] at hx ⊢
      obtain ⟨hnone, hentry⟩ := (h x).resolve_left hx
      exact ⟨hnone, Or.inr hentry⟩
  · obtain ⟨r, s, hrs⟩ := hd
    have hsame := h.dir ⟨r, s, hrs⟩
    rw [hempty n, hrs] at hsame
    cases hsame
  · obtain ⟨-, rfl⟩ := hpath.unique (hn.mono (hl.le.trans h.le))
    have hsome := hn.walk.isSome
    rw [hl.1] at hsome
    cases hsome

/-- The events up to the loop. -/
def listed (path : Bytes) (isDir : Bool) (names : List Bytes) : List JEvent :=
  [⟨.ask (.stat path), isDir⟩] ++ [⟨.ask (.opendir path), some names⟩]

section
variable {isDir : Bool} {names : List Bytes} {es : List JEvent}

/-- After the listing and the loop. -/
theorem pruned_of_listed (hpath : t.Names cwd path links loc)
    (hes : t.Lists loc names → Prunes cwd t loc es)
    (hs : TreeSteps cwd t (listed path isDir names ++ es) t') :
    t.Readable loc ∧ Pruned t loc t' := by
  obtain ⟨t₁, ⟨rfl, -⟩, t₂, ⟨rfl, links', loc', hpath', hread, hlist⟩, hs⟩ := hs
  obtain ⟨-, rfl⟩ := hpath.unique hpath'
  exact ⟨hread, hes hlist _ _ (Pruned.refl _ _) hs⟩

/-- The loop fails. -/
theorem flattened_loop {r : Int} (hpath : t.Names cwd path links loc)
    (hes : t.Lists loc names → Prunes cwd t loc es)
    (hflag : r = 0 ↔ ∀ e ∈ es, refused e = false) (hr : r ≠ 0)
    (hs : TreeSteps cwd t (listed path isDir names ++ es) t') :
    Flattened cwd path links loc t (listed path isDir names ++ es) r t' := by
  obtain ⟨-, hpr⟩ := pruned_of_listed hpath hes hs
  refine hpr.flattened hpath hr ?_
  intro _
  obtain ⟨e, he, hrefused⟩ := exists_refused fun hall => hr (hflag.mpr hall)
  exact ⟨e, List.mem_append_right _ he, hrefused⟩

/-- `rmdir` fails. -/
theorem flattened_rmdir_fails (hpath : t.Names cwd path links loc)
    (hes : t.Lists loc names → Prunes cwd t loc es)
    (hs : TreeSteps cwd t (listed path isDir names ++ es ++ [⟨.ask (.rmdir path), false⟩] ++
      [said eError]) t') :
    Flattened cwd path links loc t
      (listed path isDir names ++ es ++ [⟨.ask (.rmdir path), false⟩] ++ [said eError]) eError
      t' := by
  obtain ⟨t₂, hs, hsaid⟩ := treeSteps_append.mp hs
  obtain ⟨t₁, hs, hrm⟩ := treeSteps_append.mp hs
  obtain ⟨-, hpr⟩ := pruned_of_listed hpath hes hs
  obtain ⟨-, hsame⟩ := treeSteps_singleton.mp hrm
  rw [show t' = t₂ from treeSteps_singleton.mp hsaid, hsame rfl]
  refine hpr.flattened hpath (by decide) ?_
  intro _
  refine ⟨⟨.ask (.rmdir path), false⟩, ?_, rfl⟩
  exact List.mem_append_left _ (List.mem_append_right _ (List.mem_singleton_self _))

/-- All goes well. -/
theorem flattened_rmdir (hpath : t.Names cwd path links loc)
    (hes : t.Lists loc names → Prunes cwd t loc es) (hall : ∀ e ∈ es, refused e = false)
    (hs : TreeSteps cwd t (listed path isDir names ++ es ++ [⟨.ask (.rmdir path), true⟩] ++
      [⟨.ask .closedir, ()⟩]) t') :
    Flattened cwd path links loc t
      (listed path isDir names ++ es ++ [⟨.ask (.rmdir path), true⟩] ++ [⟨.ask .closedir, ()⟩]) 0
      t' := by
  obtain ⟨t₂, hs, hclose⟩ := treeSteps_append.mp hs
  obtain ⟨t₁, hs, hrm⟩ := treeSteps_append.mp hs
  obtain ⟨hread, hpr⟩ := pruned_of_listed hpath hes hs
  obtain ⟨hyes, -⟩ := treeSteps_singleton.mp hrm
  rw [show t' = t₂ from treeSteps_singleton.mp hclose]
  refine hpr.flattened_rmdir hpath hread ?_ (hyes rfl)
  simp only [List.forall_mem_append, List.forall_mem_singleton, listed]
  exact ⟨⟨⟨⟨rfl, rfl⟩, hall⟩, rfl⟩, rfl⟩

end

/-- Every run of the function flattens the tree it is made on. -/
theorem rmtreeDepth1_flattens (hpath : t.Names cwd path links loc) :
    Code.wp (fun _ _ => True) (fun _ _ => True) (rmtreeDepth1 (some path))
      (fun l' r _ => ∃ es, l' = told l es ∧
        ∀ t', TreeSteps cwd t es t' → Flattened cwd path links loc t es r t') l m := by
  refine (wp_ask_bind _ _ _).mpr ⟨trivial, fun isDir => ?_⟩
  rw [Code.wp_ite, wp_yreturn, told_told]
  constructor
  · intro _
    refine (wp_ask_bind _ _ _).mpr ⟨trivial, fun answer => ?_⟩
    cases answer with
    | none =>
        simp only [wp_yreturn, told_told]
        refine ⟨trivial, _, rfl, ?_⟩
        intro t' hs
        obtain ⟨t₁, ⟨rfl, -⟩, t₂, ⟨rfl, hno⟩, t₃, rfl, rfl⟩ := hs
        exact (Pruned.refl _ loc).flattened hpath (by decide) fun hread =>
          absurd hread (hno links loc hpath)
    | some names =>
        rw [Code.wp_bind, told_told]
        refine removeEntries_prunes hpath names _ m _ ?_
        intro es flag m' hes hflag
        rw [told_told, Code.wp_ite, Code.wp_pure]
        constructor
        · intro hne
          exact ⟨_, rfl, fun t' hs => flattened_loop hpath hes hflag hne hs⟩
        · intro hzero
          have hall := hflag.mp (not_not.mp hzero)
          refine (wp_ask_bind _ _ _).mpr ⟨trivial, fun removed => ?_⟩
          rw [told_told, Code.wp_ite, wp_yreturn, told_told]
          constructor
          · intro hyes
            obtain rfl : removed = true := hyes
            refine (wp_ask_bind _ _ _).mpr ⟨trivial, fun _ => ?_⟩
            rw [told_told, Code.wp_pure]
            exact ⟨_, rfl, fun t' hs => flattened_rmdir hpath hes hall hs⟩
          · intro hno
            obtain rfl : removed = false := Bool.eq_false_iff.mpr hno
            exact ⟨trivial, _, rfl, fun t' hs => flattened_rmdir_fails hpath hes hs⟩
  · intro hno
    refine ⟨trivial, _, rfl, ?_⟩
    intro t' hs
    obtain ⟨t₁, ⟨rfl, hdir⟩, t₂, rfl, rfl⟩ := hs
    exact (Pruned.refl _ loc).flattened hpath (by decide) fun hread =>
      absurd ((hdir links loc hpath).mpr hread.isDir) hno

/-- **What `rmtree_depth1` removes**, in every run and from any tree in which `path` names
what is at `loc`. -/
theorem rmtree_flat {r : Int} {l' : JLocal} {m' : Mem} {es : List JEvent}
    (hpath : t.Names cwd path links loc)
    (hrun : Code.Runs (rmtreeDepth1 (some path)) l m r l' m') (hlog : l'.log = l.log ++ es)
    (hsteps : TreeSteps cwd t es t') : Flattened cwd path links loc t es r t' := by
  obtain ⟨es', rfl, hflat⟩ := hrun.wp (rmtreeDepth1_flattens hpath)
  obtain rfl : es' = es := List.append_cancel_left hlog
  exact hflat t' hsteps

end

/-! ## A directory with one entry -/

/-- `/d`, and nothing else. -/
def oneDir : FileTree :=
  FileTree.bare.add [] [100] (.dir true true) ⟨true, true, rfl⟩ rfl (by decide)

/-- `/d` with the entry `s`. -/
def oneEntry (k : Node) : FileTree :=
  oneDir.add [[100]] [115] k ⟨true, true, rfl⟩ rfl (by decide)

/-- `.`, `..` and `s`. -/
def listing : List Bytes := [[dot], [dot, dot], [115]]

/-- The events of the loop over that listing, when `unlink` succeeds. -/
def entryEvents (path : Bytes) (isDir : Bool) : List JEvent :=
  [⟨.ask (.stat (pathJoin path slash [115])), isDir⟩,
    ⟨.ask (.unlink (pathJoin path slash [115])), true⟩]

theorem records_listing (path : Bytes) (isDir : Bool) (l : JLocal) (m : Mem) :
    Code.Records (removeEntries path listing) l m 0 (entryEvents path isDir) m := by
  refine Code.records_then (Or.inl rfl) (Code.records_then (Or.inr rfl) ?_)
  refine Code.records_else (by decide) ?_
  refine records_ask_bind (.stat _) isDir ?_
  refine records_ask_bind (.unlink _) true ?_
  exact Code.records_then rfl (Code.records_pure 0)

theorem oneEntry_loses {k : Node} : (oneEntry k).Loses [[100], [115]] oneDir :=
  ⟨rfl, fun _ hy => (if_neg hy).symm⟩

theorem oneEntry_lists (k : Node) : (oneEntry k).Lists [[100]] listing := by
  intro n hn
  rcases List.mem_cons.mp hn with h | hn
  · exact Or.inl h
  · rcases List.mem_cons.mp hn with h | hn
    · exact Or.inr (Or.inl h)
    · rw [List.mem_singleton.mp hn]
      exact Or.inr (Or.inr rfl)

theorem oneEntry_unlinks {k : Node} {path : Bytes} {cs : List FileName} {links : List Location}
    (hk : ∀ r s, k ≠ .dir r s) (hcs : components path = cs ++ [[115]])
    (hw : (oneEntry k).Walk (startOf [] path) cs links [[100]]) (hfew : links.length ≤ symloopMax)
    (hslash : path.getLast? ≠ some 47) : (oneEntry k).Unlinks [] path oneDir := by
  refine ⟨[[100]], [115], ⟨by decide, ⟨cs, links, hcs, hw, hfew⟩, ⟨true, rfl⟩⟩, hslash, rfl, ?_,
    oneEntry_loses⟩
  rintro ⟨r, s, hrs⟩
  exact hk r s (Option.some.inj hrs)

/-- `d` -/
def dPath : Bytes := [100]

/-- `d/s` -/
def dsPath : Bytes := [100, 47, 115]

theorem oneEntry_names (k : Node) : (oneEntry k).Names [] dPath [] [[100]] where
  nonempty := by decide
  walk := .down ⟨true, rfl⟩ rfl (fun _ h => by cases h) (.done rfl)
  few := by decide
  dir := fun h => by cases h

/-- The events of a run that removes the entry `s`, up to its `rmdir`. -/
def rmtreeEvents (path : Bytes) (isDir : Bool) (rest : List JEvent) : List JEvent :=
  ⟨.ask (.stat path), true⟩ :: ⟨.ask (.opendir path), some listing⟩ ::
    (entryEvents path isDir ++ rest)

theorem records_rmdir (path : Bytes) (isDir : Bool) (l : JLocal) (m : Mem) :
    Code.Records (rmtreeDepth1 (some path)) l m 0
      (rmtreeEvents path isDir [⟨.ask (.rmdir path), true⟩, ⟨.ask .closedir, ()⟩]) m := by
  refine records_ask_bind (.stat _) true (Code.records_then rfl ?_)
  refine records_ask_bind (.opendir _) (some listing) ?_
  refine (records_listing path isDir _ _).bind fun l₁ _ => Code.records_else (by decide) ?_
  refine records_ask_bind (.rmdir _) true (Code.records_then rfl ?_)
  exact records_ask_bind .closedir () (Code.records_pure 0)

theorem records_rmdir_fails (path : Bytes) (isDir : Bool) (l : JLocal) (m : Mem) :
    Code.Records (rmtreeDepth1 (some path)) l m eError
      (rmtreeEvents path isDir [⟨.ask (.rmdir path), false⟩, said eError]) (m.failed eError) := by
  refine records_ask_bind (.stat _) true (Code.records_then rfl ?_)
  refine records_ask_bind (.opendir _) (some listing) ?_
  refine (records_listing path isDir _ _).bind fun l₁ _ => Code.records_else (by decide) ?_
  refine records_ask_bind (.rmdir _) false (Code.records_else (by decide) ?_)
  exact records_yreturn eError

/-- Up to its `rmdir`, such a run can be made on the tree, where `path` names the directory. -/
theorem treeSteps_rmtreeEvents {k : Node} {path : Bytes} {links links' : List Location}
    {loc' : Location} {isDir : Bool} {rest : List JEvent} {t' : FileTree}
    (hpath : (oneEntry k).Names [] path links [[100]])
    (hentry : (oneEntry k).Walk (startOf [] path) (components path ++ [[115]]) links' loc')
    (hdir : isDir = true ↔ (oneEntry k).IsDir loc') (hk : ∀ r s, k ≠ .dir r s)
    (hrest : TreeSteps [] oneDir rest t') :
    TreeSteps [] (oneEntry k) (rmtreeEvents path isDir rest) t' := by
  have hs : ProperName [115] := by decide
  have hjoin := components_pathJoin path hs
  have hstart : startOf [] (pathJoin path slash [115]) = startOf [] path :=
    startOf_pathJoin hpath.nonempty _
  refine ⟨_, ⟨rfl, fun links₁ loc₁ h => ?_⟩, _, ⟨rfl, links, [[100]], hpath, ⟨true, rfl⟩,
    oneEntry_lists k⟩, _, ⟨rfl, fun links₁ loc₁ h => ?_⟩, oneDir, ⟨fun _ => ?_, fun h => ?_⟩,
    hrest⟩
  · obtain ⟨-, rfl⟩ := hpath.unique h
    exact ⟨fun _ => ⟨true, true, rfl⟩, fun _ => rfl⟩
  · have hw := h.walk
    rw [hjoin, hstart] at hw
    obtain ⟨-, rfl⟩ := hentry.unique hw
    exact hdir
  · exact oneEntry_unlinks hk hjoin (hstart ▸ hpath.walk) hpath.few
      (getLast?_pathJoin path hs)
  · cases h

/-- A directory with one file is removed, with the file. -/
theorem rmtree_flat_file : ∃ es l' m',
    Code.Runs (rmtreeDepth1 (some dPath)) (.start (.inheritedBelow 3)) freshMem 0 l' m' ∧
      TreeSteps [] (oneEntry .file) es FileTree.bare ∧
      Flattened [] dPath [] [[100]] (oneEntry .file) es 0 FileTree.bare := by
  have hd := oneEntry_names .file
  obtain ⟨l', hrun, hlog⟩ := records_rmdir dPath false (.start (.inheritedBelow 3)) freshMem
  have hentry : (oneEntry .file).Walk [] [[100], [115]] [] [[100], [115]] :=
    .down ⟨true, rfl⟩ rfl (fun _ h => by cases h)
      (.down ⟨true, rfl⟩ rfl (fun _ h => by cases h) (.done rfl))
  have hfile : ¬ (oneEntry .file).IsDir [[100], [115]] := by
    rintro ⟨r, s, h⟩
    cases h
  have hrm : oneDir.Rmdirs [] dPath FileTree.bare := by
    refine ⟨[], [100], ⟨by decide, ⟨[], [], rfl, .done rfl, by decide⟩, ⟨true, rfl⟩⟩,
      ⟨true, true, rfl⟩, fun n => ?_, rfl, fun _ hy => (if_neg hy).symm⟩
    simp [oneDir, FileTree.add, FileTree.bare]
  have hend : TreeSteps [] oneDir [⟨.ask (.rmdir dPath), true⟩, ⟨.ask .closedir, ()⟩]
      FileTree.bare :=
    ⟨FileTree.bare, ⟨fun _ => hrm, fun h => absurd h.symm Bool.false_ne_true⟩, _, rfl, rfl⟩
  have hsteps := treeSteps_rmtreeEvents hd hentry (iff_of_false Bool.false_ne_true hfile)
    (fun _ _ h => by cases h) hend
  exact ⟨_, l', _, hrun, hsteps, rmtree_flat hd hrun hlog hsteps⟩

/-- A directory whose entry `s` is a link to the directory itself, removed as `d/s`: the link
goes first, and then nothing has that name. -/
theorem rmtree_loses_path :
    (oneEntry (.link [46])).Names [] dsPath [[[100], [115]]] [[100]] ∧
      ∃ es l' m',
        Code.Runs (rmtreeDepth1 (some dsPath)) (.start (.inheritedBelow 3)) freshMem eError l' m' ∧
        l'.log = es ∧ TreeSteps [] (oneEntry (.link [46])) es oneDir ∧ eError ≠ 0 ∧
        ∀ links loc, ¬ oneDir.Names [] dsPath links loc := by
  have hself : ∀ {rest links loc}, (oneEntry (.link [46])).Walk [[100]] rest links loc →
      (oneEntry (.link [46])).Walk [[100]] ([115] :: rest) ([[100], [115]] :: links) loc := by
    intro rest links loc h
    exact .follow ⟨true, rfl⟩ rfl (by decide) (fun h => by cases h) (.here ⟨true, rfl⟩ h)
  have hd : ∀ {rest links loc}, (oneEntry (.link [46])).Walk [[100]] rest links loc →
      (oneEntry (.link [46])).Walk [] ([100] :: rest) links loc := by
    intro rest links loc h
    exact .down ⟨true, rfl⟩ rfl (fun _ h => by cases h) h
  have hds : (oneEntry (.link [46])).Names [] dsPath [[[100], [115]]] [[100]] :=
    ⟨by decide, hd (hself (.done rfl)), by decide, fun h => by cases h⟩
  obtain ⟨l', hrun, hlog⟩ :=
    records_rmdir_fails dsPath true (.start (.inheritedBelow 3)) freshMem
  have hend : TreeSteps [] oneDir [⟨.ask (.rmdir dsPath), false⟩, said eError] oneDir :=
    ⟨oneDir, ⟨fun h => absurd h Bool.false_ne_true, fun _ => rfl⟩, oneDir, rfl, rfl⟩
  have hsteps := treeSteps_rmtreeEvents hds (hd (hself (hself (.done rfl))))
    (iff_of_true rfl ⟨true, true, rfl⟩) (fun _ _ h => by cases h) hend
  refine ⟨hds, _, l', _, hrun, hlog, hsteps, by decide, fun links loc h => ?_⟩
  obtain ⟨rfl, -⟩ := hds.unique (h.mono oneEntry_loses.le)
  have hgone := h.walk.isSome_links [[100], [115]] (List.mem_singleton_self _)
  cases hgone

end YaojJudger
