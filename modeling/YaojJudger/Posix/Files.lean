/-
# `YaojJudger.Posix.Files` — directories, files and streams

As much of a file system as a program needs that makes a directory, writes files
into it and reads them back.  A directory holds the contents of its files by
name; a path is the path of a directory, a `/`, and a name without one (`At`);
an open stream stands at a position in a file.

The operations are relations: which directory `mkdtemp` comes up with, and which
stream `fopen` gives out, is only known to be a free one.  They do not fail but
for the reason that what is named is not there.  A stream that is opened, used
and closed leaves nothing behind but what was written.
-/
import Mathlib.Logic.Function.Basic

namespace Posix

abbrev Path := List UInt8

/-- `path` is that of `name` in the directory `dir`. -/
def At (path dir name : Path) : Prop := path = dir ++ 47 :: name ∧ 47 ∉ name

/-- The contents of the files, by name. -/
abbrev Dir := Path → Option (List UInt8)

structure Stream where
  dir : Path
  name : Path
  pos : Nat

structure Files where
  dirs : Path → Option Dir
  streams : Nat → Option Stream

/-- A path is in one directory only, under one name. -/
theorem At.unique {path dir dir' name name' : Path} (h : At path dir name)
    (h' : At path dir' name') : dir' = dir ∧ name' = name := by
  obtain ⟨heq, hname⟩ := h
  obtain ⟨heq', hname'⟩ := h'
  rcases List.append_eq_append_iff.mp (heq'.symm.trans heq) with ⟨c, rfl, hc⟩ | ⟨c, rfl, hc⟩
  · cases c with
    | nil => exact ⟨(List.append_nil dir').symm, (List.cons.inj hc).2⟩
    | cons x c =>
        obtain ⟨rfl, rfl⟩ := List.cons.inj hc
        exact absurd (List.mem_append_right c List.mem_cons_self) hname'
  · cases c with
    | nil => exact ⟨List.append_nil dir, (List.cons.inj hc).2.symm⟩
    | cons x c =>
        obtain ⟨rfl, rfl⟩ := List.cons.inj hc
        exact absurd (List.mem_append_right c List.mem_cons_self) hname

namespace Files

/-! ## The state -/

/-- The file `name` of the directory `dir`. -/
def get (fs : Files) (dir name : Path) : Option (List UInt8) := (fs.dirs dir).bind fun d => d name

/-- The directory `dir` is there. -/
def HasDir (fs : Files) (dir : Path) : Prop := (fs.dirs dir).isSome

/-- Let the directory `dir` be `d`. -/
def setDir (fs : Files) (dir : Path) (d : Option Dir) : Files :=
  { fs with dirs := Function.update fs.dirs dir d }

/-- Make the directory `dir`, empty. -/
def mkdir (fs : Files) (dir : Path) : Files := fs.setDir dir (some fun _ => none)

/-- Give the file `name` of `dir` new contents. -/
def put (fs : Files) (dir name : Path) (content : List UInt8) : Files :=
  fs.setDir dir ((fs.dirs dir).map fun d => Function.update d name (some content))

/-- Let the stream `fp` be `s`, or closed. -/
def stream (fs : Files) (fp : Nat) (s : Option Stream) : Files :=
  { fs with streams := Function.update fs.streams fp s }

section
variable (fs : Files) (dir dir' name name' : Path) (content content' : List UInt8) (fp : Nat)
  (s s' : Option Stream)

@[simp] theorem mkdir_streams : (fs.mkdir dir).streams = fs.streams := rfl
@[simp] theorem put_streams : (fs.put dir name content).streams = fs.streams := rfl
@[simp] theorem stream_dirs : (fs.stream fp s).dirs = fs.dirs := rfl
@[simp] theorem get_stream : (fs.stream fp s).get dir name = fs.get dir name := rfl

@[simp] theorem stream_self : (fs.stream fp s).streams fp = s := Function.update_self ..

@[simp] theorem mkdir_self : (fs.mkdir dir).dirs dir = some fun _ => none :=
  Function.update_self ..

@[simp] theorem put_self : (fs.put dir name content).dirs dir =
    (fs.dirs dir).map fun d => Function.update d name (some content) := Function.update_self ..

theorem put_of_ne (h : dir' ≠ dir) : (fs.put dir name content).dirs dir' = fs.dirs dir' :=
  Function.update_of_ne h ..

theorem mkdir_of_ne (h : dir' ≠ dir) : (fs.mkdir dir).dirs dir' = fs.dirs dir' :=
  Function.update_of_ne h ..

@[simp] theorem hasDir_mkdir : (fs.mkdir dir).HasDir dir := by
  rw [HasDir, mkdir_self]
  rfl

/-- Writing keeps the directories there are. -/
@[simp] theorem hasDir_put : (fs.put dir name content).HasDir dir' ↔ fs.HasDir dir' := by
  unfold HasDir
  by_cases h : dir' = dir
  · rw [h, put_self, Option.isSome_map]
  · rw [put_of_ne fs dir dir' name content h]

theorem get_put_self (h : fs.HasDir dir) :
    (fs.put dir name content).get dir name = some content := by
  obtain ⟨d, hd⟩ := Option.isSome_iff_exists.mp h
  rw [get, put_self, hd]
  show Function.update d name (some content) name = some content
  exact Function.update_self ..

theorem get_put_of_ne (h : name' ≠ name) :
    (fs.put dir name content).get dir name' = fs.get dir name' := by
  rw [get, get, put_self]
  cases fs.dirs dir with
  | none => rfl
  | some d =>
      show Function.update d name (some content) name' = d name'
      exact Function.update_of_ne h ..

/-- The last contents count. -/
theorem put_put : (fs.put dir name content).put dir name content' = fs.put dir name content' := by
  rw [put, put_self, put, put, setDir, setDir, setDir, Function.update_idem, Option.map_map]
  have hidem : ((fun d => Function.update d name (some content')) ∘
      fun d : Dir => Function.update d name (some content)) =
        fun d => Function.update d name (some content') := by
    funext d
    exact Function.update_idem ..
  rw [hidem]

theorem stream_stream : (fs.stream fp s).stream fp s' = fs.stream fp s' := by
  simp only [stream, Function.update_idem]

theorem stream_put :
    (fs.stream fp s).put dir name content = (fs.put dir name content).stream fp s := rfl

theorem stream_of_eq (h : fs.streams fp = s) : fs.stream fp s = fs := by
  rw [stream, ← h, Function.update_eq_self]

end

/-! ## The operations -/

variable {fs fs' : Files}

/-- `mkdtemp(template)`: a directory that was not there, named like the template
but for its last six bytes. -/
structure Makes (fs : Files) (template dir : Path) (fs' : Files) : Prop where
  name : ∃ stem suffix, template = stem ++ List.replicate 6 88 ∧ dir = stem ++ suffix ∧
    suffix.length = 6 ∧ 47 ∉ suffix
  fresh : ¬ fs.HasDir dir
  empty : ∀ sub, ¬ fs.HasDir (dir ++ 47 :: sub)
  eq : fs' = fs.mkdir dir

/-- `fopen(path, "w")` and `fopen(path, "r")`. -/
inductive Opens (fs : Files) (path : Path) : Bool → Option Nat → Files → Prop
  | write {dir name : Path} {fp : Nat} : At path dir name → fs.HasDir dir →
      fs.streams fp = none →
      Opens fs path true (some fp) ((fs.put dir name []).stream fp (some ⟨dir, name, 0⟩))
  | noDir : (∀ dir name, At path dir name → ¬ fs.HasDir dir) → Opens fs path true none fs
  | read {dir name : Path} {fp : Nat} : At path dir name → (fs.get dir name).isSome →
      fs.streams fp = none →
      Opens fs path false (some fp) (fs.stream fp (some ⟨dir, name, 0⟩))
  | noFile : (∀ dir name, At path dir name → fs.get dir name = none) → Opens fs path false none fs

/-- The stream `fp` is in a file with these contents. -/
structure In (fs : Files) (fp : Nat) (s : Stream) (content : List UInt8) : Prop where
  stream : fs.streams fp = some s
  file : fs.get s.dir s.name = some content

/-- `fwrite` of all of `bytes`. -/
def Writes (fs : Files) (bytes : List UInt8) (fp n : Nat) (fs' : Files) : Prop :=
  ∃ s content, fs.In fp s content ∧ n = bytes.length ∧
    fs' = (fs.put s.dir s.name (content.take s.pos ++ bytes ++
      content.drop (s.pos + bytes.length))).stream fp
        (some { s with pos := s.pos + bytes.length })

/-- The size of the file, found by going to its end and back to its beginning. -/
def Sizes (fs : Files) (fp n : Nat) (fs' : Files) : Prop :=
  ∃ s content, fs.In fp s content ∧ n = content.length ∧
    fs' = fs.stream fp (some { s with pos := 0 })

/-- `fread` into a buffer of `size` bytes, which holds `s` afterwards. -/
def Reads (fs : Files) (fp size : Nat) (buffer : List UInt8) (fs' : Files) : Prop :=
  ∃ s content, fs.In fp s content ∧ buffer.length = size ∧
    (content.drop s.pos).take size <+: buffer ∧
    fs' = fs.stream fp (some { s with pos := s.pos + size })

/-- `fclose`. -/
def Closes (fs : Files) (fp : Nat) (fs' : Files) : Prop :=
  ∃ s content, fs.In fp s content ∧ fs' = fs.stream fp none

section
variable {path dir name : Path} {r : Option Nat}

/-- A file of a directory that is there can be written. -/
theorem Opens.write_inv (h : Opens fs path true r fs') (hat : At path dir name)
    (hdir : fs.HasDir dir) : ∃ fp, r = some fp ∧ fs.streams fp = none ∧
      fs' = (fs.put dir name []).stream fp (some ⟨dir, name, 0⟩) := by
  cases h with
  | write hat' _ hfree =>
      obtain ⟨rfl, rfl⟩ := hat.unique hat'
      exact ⟨_, rfl, hfree, rfl⟩
  | noDir hno => exact absurd hdir (hno dir name hat)

/-- A file that is there can be read. -/
theorem Opens.read_inv (h : Opens fs path false r fs') (hat : At path dir name)
    (hfile : fs.get dir name ≠ none) : ∃ fp, r = some fp ∧ fs.streams fp = none ∧
      fs' = fs.stream fp (some ⟨dir, name, 0⟩) := by
  cases h with
  | read hat' _ hfree =>
      obtain ⟨rfl, rfl⟩ := hat.unique hat'
      exact ⟨_, rfl, hfree, rfl⟩
  | noFile hno => exact absurd (hno dir name hat) hfile

theorem In.unique {fp : Nat} {s s' : Stream} {content content' : List UInt8}
    (h : fs.In fp s content) (h' : fs.In fp s' content') : s' = s ∧ content' = content := by
  obtain rfl := Option.some.inj (h'.stream.symm.trans h.stream)
  exact ⟨rfl, Option.some.inj (h'.file.symm.trans h.file)⟩

/-- A stream that has just been opened. -/
theorem in_stream {content : List UInt8} (fp pos : Nat) (h : fs.get dir name = some content) :
    (fs.stream fp (some ⟨dir, name, pos⟩)).In fp ⟨dir, name, pos⟩ content :=
  ⟨stream_self .., h⟩

/-! ## From opening to closing -/

/-- Writing to a file just opened. -/
theorem Writes.inv {fp n : Nat} {bytes : List UInt8} (hdir : fs.HasDir dir)
    (h : Writes ((fs.put dir name []).stream fp (some ⟨dir, name, 0⟩)) bytes fp n fs') :
    n = bytes.length ∧
      fs' = (fs.put dir name bytes).stream fp (some ⟨dir, name, bytes.length⟩) := by
  obtain ⟨s, content, hin, rfl, rfl⟩ := h
  obtain ⟨rfl, rfl⟩ := (in_stream _ _ (get_put_self fs dir name [] hdir)).unique hin
  refine ⟨rfl, ?_⟩
  rw [stream_put, put_put, stream_stream]
  simp

/-- Closing a stream that was free before it was opened. -/
theorem Closes.inv {fp : Nat} {s : Option Stream} (hfree : fs.streams fp = none)
    (h : Closes (fs.stream fp s) fp fs') : fs' = fs := by
  obtain ⟨s', content, -, rfl⟩ := h
  rw [stream_stream]
  exact stream_of_eq _ _ _ hfree

theorem Sizes.inv {fp n pos : Nat} {content : List UInt8} (hfile : fs.get dir name = some content)
    (h : Sizes (fs.stream fp (some ⟨dir, name, pos⟩)) fp n fs') :
    n = content.length ∧ fs' = fs.stream fp (some ⟨dir, name, 0⟩) := by
  obtain ⟨s, content', hin, rfl, rfl⟩ := h
  obtain ⟨rfl, rfl⟩ := (in_stream _ _ hfile).unique hin
  exact ⟨rfl, stream_stream ..⟩

/-- Reading all of a file from its beginning. -/
theorem Reads.inv {fp : Nat} {content buffer : List UInt8} (hfile : fs.get dir name = some content)
    (h : Reads (fs.stream fp (some ⟨dir, name, 0⟩)) fp content.length buffer fs') :
    buffer = content ∧ fs' = fs.stream fp (some ⟨dir, name, 0 + content.length⟩) := by
  obtain ⟨s, content', hin, hlen, hpre, rfl⟩ := h
  obtain ⟨rfl, rfl⟩ := (in_stream _ _ hfile).unique hin
  rw [List.drop_zero, List.take_length] at hpre
  exact ⟨(hpre.eq_of_length hlen.symm).symm, stream_stream ..⟩

end

end Files

end Posix
