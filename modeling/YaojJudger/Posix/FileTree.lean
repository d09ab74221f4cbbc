/-
# `YaojJudger.Posix.FileTree` — files by their place, and how a path finds one

A tree of files gives for each location, the list of names on the way to it from the
root, what is there:

    file         anything that is not one of the others
    dir          a directory, which may be one to be read, and one to be searched
    link         a symbolic link, with the path it stands for

Only a directory has entries, and their names are proper ones; a `FileTree` carries that.
`Walk` is how a path is followed, component by component and through links.  It keeps
a list of the links it has gone through: when a tree loses some of its files and links,
a path can still be followed if none of those is gone (`Walk.keep`), and otherwise it
leads nowhere, but never anywhere else (`Walk.mono`, `Walk.unique`).
-/
import Mathlib.Order.Basic
import Mathlib.Tactic.Common

namespace Posix

abbrev FileName := List UInt8

abbrev Location := List FileName

inductive Node where
  | file
  | dir (readable searchable : Bool)
  | link (target : List UInt8)
  deriving DecidableEq, Repr

/-- Can be the name of an entry. -/
def ProperName (n : FileName) : Prop := n ≠ [] ∧ n ≠ [46] ∧ n ≠ [46, 46] ∧ 47 ∉ n

instance (n : FileName) : Decidable (ProperName n) := inferInstanceAs (Decidable (_ ∧ _))

structure FileTree where
  node : Location → Option Node
  root : ∃ r s, node [] = some (.dir r s)
  parent : ∀ {loc n}, (node (loc ++ [n])).isSome → ∃ r s, node loc = some (.dir r s)
  named : ∀ {loc n}, (node (loc ++ [n])).isSome → ProperName n

/-! ## The components of a path -/

/-- What is before the first `/`, and the components after it. -/
def cutPath : List UInt8 → FileName × List FileName
  | [] => ([], [])
  | b :: s =>
      let r := cutPath s
      if b = 47 then ([], if r.1 = [] then r.2 else r.1 :: r.2)
      else (b :: r.1, r.2)

/-- The components; a `/` more or less makes no difference. -/
def components (path : List UInt8) : List FileName :=
  let r := cutPath path
  if r.1 = [] then r.2 else r.1 :: r.2

theorem cutPath_append (s s' : List UInt8) :
    cutPath (s ++ 47 :: s') = ((cutPath s).1, (cutPath s).2 ++ components s') := by
  induction s with
  | nil => simp [cutPath, components]
  | cons b s ih =>
      rw [List.cons_append, cutPath, ih, cutPath]
      by_cases hb : b = 47
      · by_cases hr : (cutPath s).1 = []
        · simp [hb, hr]
        · simp [hb, hr]
      · simp [hb]

theorem components_append (s s' : List UInt8) :
    components (s ++ 47 :: s') = components s ++ components s' := by
  show (if (cutPath (s ++ 47 :: s')).1 = [] then _ else _) =
    (if (cutPath s).1 = [] then _ else _) ++ _
  rw [cutPath_append]
  by_cases hr : (cutPath s).1 = []
  · rw [if_pos hr, if_pos hr]
  · rw [if_neg hr, if_neg hr, List.cons_append]

theorem cutPath_name {n : FileName} (h : 47 ∉ n) : cutPath n = (n, []) := by
  induction n with
  | nil => rfl
  | cons b n ih =>
      obtain ⟨hb, hn⟩ := List.ne_and_not_mem_of_not_mem_cons h
      rw [cutPath, ih hn, if_neg hb.symm]

theorem components_name {n : FileName} (h : ProperName n) : components n = [n] := by
  rw [components, cutPath_name h.2.2.2]
  simp [h.1]

/-- Where a path sets out. -/
def startOf (cwd : Location) (path : List UInt8) : Location :=
  if path.head? = some 47 then [] else cwd

/-- The most links that are followed for one path. -/
def symloopMax : Nat := 40

namespace FileTree

/-- Nothing is in `t'` that is not in `t`. -/
instance : Preorder FileTree where
  le t' t := ∀ x k, t'.node x = some k → t.node x = some k
  le_refl _ _ _ h := h
  le_trans _ _ _ h h' x k hk := h' x k (h x k hk)

variable {t t' : FileTree} {cwd loc : Location}

def IsDir (t : FileTree) (loc : Location) : Prop := ∃ r s, t.node loc = some (.dir r s)

def Readable (t : FileTree) (loc : Location) : Prop := ∃ s, t.node loc = some (.dir true s)

def Searchable (t : FileTree) (loc : Location) : Prop := ∃ r, t.node loc = some (.dir r true)

theorem Readable.isDir (h : t.Readable loc) : t.IsDir loc := by
  obtain ⟨s, h⟩ := h
  exact ⟨true, s, h⟩

theorem Searchable.isDir (h : t.Searchable loc) : t.IsDir loc := by
  obtain ⟨r, h⟩ := h
  exact ⟨r, true, h⟩

theorem Searchable.mono (hle : t' ≤ t) (h : t'.Searchable loc) : t.Searchable loc := by
  obtain ⟨r, h⟩ := h
  exact ⟨r, hle _ _ h⟩

theorem IsDir.mono (hle : t' ≤ t) (h : t'.IsDir loc) : t.IsDir loc := by
  obtain ⟨r, s, h⟩ := h
  exact ⟨r, s, hle _ _ h⟩

/-- The tree of an empty root. -/
def bare : FileTree where
  node x := if x = [] then some (.dir true true) else none
  root := ⟨true, true, if_pos rfl⟩
  parent {loc n} h := by simp at h
  named {loc n} h := by simp at h

/-- With one more entry in the directory `loc`. -/
def add (t : FileTree) (loc : Location) (n : FileName) (k : Node) (hdir : t.IsDir loc)
    (hfree : t.node (loc ++ [n]) = none) (hn : ProperName n) : FileTree where
  node x := if x = loc ++ [n] then some k else t.node x
  root := by
    rw [if_neg (by simp)]
    exact t.root
  parent {x m} h := by
    have hx : t.IsDir x := by
      by_cases hm : x ++ [m] = loc ++ [n]
      · rw [(List.append_inj' hm rfl).1]
        exact hdir
      · rw [if_neg hm] at h
        exact t.parent h
    have hne : x ≠ loc ++ [n] := by
      rintro rfl
      obtain ⟨r, s, hrs⟩ := hx
      rw [hfree] at hrs
      cases hrs
    rw [if_neg hne]
    exact hx
  named {x m} h := by
    by_cases hm : x ++ [m] = loc ++ [n]
    · rw [List.singleton_inj.mp (List.append_inj' hm rfl).2]
      exact hn
    · rw [if_neg hm] at h
      exact t.named h

/-! ## Following a path -/

/-- From `cur` the components lead through the links `links` to `loc`. -/
inductive Walk (t : FileTree) : Location → List FileName → List Location → Location → Prop
  | done {cur : Location} : (t.node cur).isSome → Walk t cur [] [] cur
  | here {cur loc : Location} {rest : List FileName} {links : List Location} :
      t.Searchable cur → Walk t cur rest links loc → Walk t cur ([46] :: rest) links loc
  | up {cur loc : Location} {rest : List FileName} {links : List Location} :
      t.Searchable cur → Walk t cur.dropLast rest links loc →
      Walk t cur ([46, 46] :: rest) links loc
  | down {cur loc : Location} {rest : List FileName} {links : List Location} {n : FileName}
      {k : Node} :
      t.Searchable cur → t.node (cur ++ [n]) = some k → (∀ target, k ≠ .link target) →
      Walk t (cur ++ [n]) rest links loc → Walk t cur (n :: rest) links loc
  | follow {cur loc : Location} {rest : List FileName} {links : List Location} {n : FileName}
      {target : List UInt8} :
      t.Searchable cur → t.node (cur ++ [n]) = some (.link target) → target ≠ [] →
      (target.getLast? = some 47 → rest = [] → t.IsDir loc) →
      Walk t (startOf cur target) (components target ++ rest) links loc →
      Walk t cur (n :: rest) ((cur ++ [n]) :: links) loc

variable {cur : Location} {cs : List FileName} {links links' : List Location}

theorem not_entry_here : t.node (cur ++ [[46]]) = none := by
  by_contra h
  exact (t.named (Option.isSome_iff_ne_none.mpr h)).2.1 rfl

theorem not_entry_up : t.node (cur ++ [[46, 46]]) = none := by
  by_contra h
  exact (t.named (Option.isSome_iff_ne_none.mpr h)).2.2.1 rfl

/-- What is followed in a tree that lost something was there before. -/
theorem Walk.mono (hle : t' ≤ t) (h : t'.Walk cur cs links loc) : t.Walk cur cs links loc := by
  induction h with
  | done h =>
      obtain ⟨k, hk⟩ := Option.isSome_iff_exists.mp h
      exact .done (Option.isSome_iff_exists.mpr ⟨k, hle _ _ hk⟩)
  | here hs _ ih => exact .here (hs.mono hle) ih
  | up hs _ ih => exact .up (hs.mono hle) ih
  | down hs hk hl _ ih => exact .down (hs.mono hle) (hle _ _ hk) hl ih
  | follow hs hk hne hd _ ih =>
      exact .follow (hs.mono hle) (hle _ _ hk) hne (fun hsl hr => (hd hsl hr).mono hle) ih

/-- A path leads to one place. -/
theorem Walk.unique {loc' : Location} (h : t.Walk cur cs links loc)
    (h' : t.Walk cur cs links' loc') : links' = links ∧ loc' = loc := by
  induction h generalizing links' with
  | done _ =>
      cases h' with
      | done _ => exact ⟨rfl, rfl⟩
  | here _ _ ih =>
      cases h' with
      | here _ h' => exact ih h'
      | down _ hk _ _ => rw [not_entry_here] at hk; cases hk
      | follow _ hk _ _ _ => rw [not_entry_here] at hk; cases hk
  | up _ _ ih =>
      cases h' with
      | up _ h' => exact ih h'
      | down _ hk _ _ => rw [not_entry_up] at hk; cases hk
      | follow _ hk _ _ _ => rw [not_entry_up] at hk; cases hk
  | down _ hk hl _ ih =>
      cases h' with
      | here _ _ => rw [not_entry_here] at hk; cases hk
      | up _ _ => rw [not_entry_up] at hk; cases hk
      | down _ _ _ h' => exact ih h'
      | follow _ hk' _ _ _ =>
          rw [hk] at hk'
          exact absurd (Option.some.inj hk') (hl _)
  | follow _ hk _ _ _ ih =>
      cases h' with
      | here _ _ => rw [not_entry_here] at hk; cases hk
      | up _ _ => rw [not_entry_up] at hk; cases hk
      | down _ hk' hl' _ =>
          rw [hk] at hk'
          exact absurd (Option.some.inj hk').symm (hl' _)
      | follow _ hk' _ _ h' =>
          rw [hk] at hk'
          obtain rfl := Node.link.inj (Option.some.inj hk')
          obtain ⟨rfl, rfl⟩ := ih h'
          exact ⟨rfl, rfl⟩

/-- One component more. -/
theorem Walk.snoc {n : FileName} {k : Node} (h : t.Walk cur cs links loc)
    (hs : t.Searchable loc) (hk : t.node (loc ++ [n]) = some k) (hl : ∀ target, k ≠ .link target) :
    t.Walk cur (cs ++ [n]) links (loc ++ [n]) := by
  induction h with
  | done _ => exact .down hs hk hl (.done (by rw [hk]; rfl))
  | here hc _ ih => exact .here hc (ih hs hk)
  | up hc _ ih => exact .up hc (ih hs hk)
  | down hc hn hnl _ ih => exact .down hc hn hnl (ih hs hk)
  | follow hc hn hne _ _ ih =>
      refine .follow hc hn hne (fun _ hr => ?_) ?_
      · exact absurd hr (List.append_ne_nil_of_right_ne_nil _ (List.cons_ne_nil _ _))
      · have hw := ih hs hk
        rw [List.append_assoc] at hw
        exact hw

/-- From what is not a directory, one gets nowhere. -/
theorem Walk.of_not_dir (h : t.Walk cur cs links loc) (hd : ¬ t.IsDir cur) : loc = cur := by
  cases h with
  | done _ => rfl
  | here hs _ => exact absurd hs.isDir hd
  | up hs _ => exact absurd hs.isDir hd
  | down hs _ _ _ => exact absurd hs.isDir hd
  | follow hs _ _ _ _ => exact absurd hs.isDir hd

theorem Walk.isSome (h : t.Walk cur cs links loc) : (t.node loc).isSome := by
  induction h with
  | done h => exact h
  | here _ _ ih => exact ih
  | up _ _ ih => exact ih
  | down _ _ _ _ ih => exact ih
  | follow _ _ _ _ _ ih => exact ih

/-- The links on the way are there. -/
theorem Walk.isSome_links (h : t.Walk cur cs links loc) : ∀ x ∈ links, (t.node x).isSome := by
  induction h with
  | done _ =>
      intro x hx
      exact absurd hx List.not_mem_nil
  | here _ _ ih => exact ih
  | up _ _ ih => exact ih
  | down _ _ _ _ ih => exact ih
  | follow _ hk _ _ _ ih =>
      intro x hx
      rcases List.mem_cons.mp hx with rfl | hx
      · rw [hk]; rfl
      · exact ih x hx

/-- A path can still be followed where directories, its links and its end are the same. -/
theorem Walk.keep (hdir : ∀ x, t.IsDir x → t'.node x = t.node x)
    (h : t.Walk cur cs links loc) (hlinks : ∀ x ∈ links, t'.node x = t.node x)
    (hloc : t'.node loc = t.node loc) : t'.Walk cur cs links loc := by
  have hsearch : ∀ {x}, t.Searchable x → t'.Searchable x := by
    intro x hs
    obtain ⟨r, hr⟩ := hs
    exact ⟨r, by rw [hdir x ⟨r, true, hr⟩, hr]⟩
  induction h with
  | done h => exact .done (by rw [hloc]; exact h)
  | here hs _ ih => exact .here (hsearch hs) (ih hlinks hloc)
  | up hs _ ih => exact .up (hsearch hs) (ih hlinks hloc)
  | @down cur _ _ _ n k hs hk hl hw ih =>
      refine .down (hsearch hs) ?_ hl (ih hlinks hloc)
      by_cases hd : t.IsDir (cur ++ [n])
      · rw [hdir _ hd, hk]
      · rw [← hw.of_not_dir hd, hloc, hw.of_not_dir hd, hk]
  | follow hs hk hne hd _ ih =>
      refine .follow (hsearch hs) ?_ hne (fun hsl hr => ?_)
        (ih (fun x hx => hlinks x (List.mem_cons_of_mem _ hx)) hloc)
      · rw [hlinks _ List.mem_cons_self, hk]
      · obtain ⟨r, s, hrs⟩ := hd hsl hr
        exact ⟨r, s, by rw [hloc, hrs]⟩

/-! ## What a path names -/

/-- `path` names what is at `loc`, and `links` are the links on the way. -/
structure Names (t : FileTree) (cwd : Location) (path : List UInt8) (links : List Location)
    (loc : Location) : Prop where
  nonempty : path ≠ []
  walk : t.Walk (startOf cwd path) (components path) links loc
  few : links.length ≤ symloopMax
  dir : path.getLast? = some 47 → t.IsDir loc

/-- `path` stands for the entry `n` of the directory `loc`; a link in the last place is
not followed. -/
structure Entry (t : FileTree) (cwd : Location) (path : List UInt8) (loc : Location)
    (n : FileName) : Prop where
  proper : ProperName n
  walk : ∃ cs links, components path = cs ++ [n] ∧
    t.Walk (startOf cwd path) cs links loc ∧ links.length ≤ symloopMax
  searchable : t.Searchable loc

theorem Names.mono {path : List UInt8} (hle : t' ≤ t) (h : t'.Names cwd path links loc) :
    t.Names cwd path links loc :=
  ⟨h.nonempty, h.walk.mono hle, h.few, fun hs => (h.dir hs).mono hle⟩

theorem Names.unique {path : List UInt8} {loc' : Location} (h : t.Names cwd path links loc)
    (h' : t.Names cwd path links' loc') : links' = links ∧ loc' = loc :=
  h.walk.unique h'.walk

/-! ## The calls that change a tree -/

/-- `t'` is `t` without what is at `x`. -/
def Loses (t : FileTree) (x : Location) (t' : FileTree) : Prop :=
  t'.node x = none ∧ ∀ y, y ≠ x → t'.node y = t.node y

theorem Loses.le {x : Location} (h : t.Loses x t') : t' ≤ t := by
  intro y k hk
  by_cases hy : y = x
  · rw [hy, h.1] at hk
    cases hk
  · rw [← h.2 y hy, hk]

/-- `unlink`: an entry that is not a directory is gone. -/
def Unlinks (t : FileTree) (cwd : Location) (path : List UInt8) (t' : FileTree) : Prop :=
  ∃ loc n, t.Entry cwd path loc n ∧ path.getLast? ≠ some 47 ∧
    (t.node (loc ++ [n])).isSome ∧ ¬ t.IsDir (loc ++ [n]) ∧ t.Loses (loc ++ [n]) t'

/-- `rmdir`: a directory without entries is gone. -/
def Rmdirs (t : FileTree) (cwd : Location) (path : List UInt8) (t' : FileTree) : Prop :=
  ∃ loc n, t.Entry cwd path loc n ∧ t.IsDir (loc ++ [n]) ∧
    (∀ n', t.node (loc ++ [n] ++ [n']) = none) ∧ t.Loses (loc ++ [n]) t'

/-- `readdir`: names of entries, and the two that every directory has. -/
def Lists (t : FileTree) (loc : Location) (names : List FileName) : Prop :=
  ∀ n ∈ names, n = [46] ∨ n = [46, 46] ∨ (t.node (loc ++ [n])).isSome

end FileTree

end Posix
