/-
# `YaojJudger.LimitTable` — which limits are installed

`apply_resource_limit_rsc` as a change of the table of limits the kernel keeps
for a process.  The five blocks are a list of settings, in the order of the
source; each is skipped when its field is 0, and the first `setrlimit` that
fails ends the function:

    returns 0    the table has every setting in it
    fails        the table has the settings before the one that failed

The soft limit for CPU time is `cpu_time` in seconds, rounded up, so a program
is not stopped before `cpu_time` and at most a second late.
-/
import YaojJudger.CpuLimit

namespace YaojJudger

open Posix

/-! ## The table -/

/-- The resources of the system: the five that are limited, and the others. -/
inductive Resource where
  | limited (type : Rlimit)
  | other (n : Nat)
  deriving DecidableEq, Repr

/-- `struct rlimit`. -/
structure RlimitPair where
  cur : UInt64
  max : UInt64
  deriving DecidableEq, Repr

/-- The limits of a process. -/
abbrev RlimitTable := Resource → RlimitPair

/-- The table after an event; a `setrlimit` that fails changes nothing. -/
def RlimitTable.after (t : RlimitTable) : JEvent → RlimitTable
  | ⟨.setrlimit type cur max, true⟩ => Function.update t (.limited type) ⟨cur, max⟩
  | _ => t

/-- The table after some events. -/
def RlimitTable.run (t : RlimitTable) (es : List JEvent) : RlimitTable := es.foldl .after t

@[simp] theorem run_nil (t : RlimitTable) : t.run [] = t := rfl

@[simp] theorem run_append (t : RlimitTable) (es es' : List JEvent) :
    t.run (es ++ es') = (t.run es).run es' := List.foldl_append

@[simp] theorem run_set (t : RlimitTable) (type : Rlimit) (cur max : UInt64) :
    t.run [⟨.setrlimit type cur max, true⟩] = Function.update t (.limited type) ⟨cur, max⟩ := rfl

@[simp] theorem run_unset (t : RlimitTable) (type : Rlimit) (cur max : UInt64) :
    t.run [⟨.setrlimit type cur max, false⟩] = t := rfl

@[simp] theorem run_said (t : RlimitTable) (errnum : Int) : t.run [said errnum] = t := rfl

/-! ## The settings -/

/-- One `if (field > 0) …` block. -/
structure Setting where
  field : Int32
  type : Rlimit
  cur : UInt64
  max : UInt64

/-- What the block puts into the table. -/
def Setting.pair (s : Setting) : RlimitPair := ⟨s.cur, if s.max < s.cur then s.cur else s.max⟩

/-- The block, with what comes after it. -/
def Setting.code (s : Setting) (next : Code Int) : Code Int :=
  limitField s.field s.type s.cur s.max next

/-- The five blocks. -/
def settings (rctxt : RsclimCtxt) : List Setting :=
  [⟨rctxt.cpuTime, .cpu, toRlim (cpuSeconds rctxt.cpuTime), cpuTimeHLimit⟩,
    ⟨rctxt.virtualMemory, .as, toRlim rctxt.virtualMemory, asHLimit⟩,
    ⟨rctxt.outputSize, .fsize, toRlim rctxt.outputSize, fsizeHLimit⟩,
    ⟨rctxt.stackMemory, .stack, toRlim rctxt.stackMemory, stackHLimit⟩,
    ⟨rctxt.fileno, .nofile, toRlim rctxt.fileno, nofileHLimit⟩]

/-- The limits the function accepts; `real_time` is not looked at. -/
structure RsclimCtxt.Valid (rctxt : RsclimCtxt) : Prop where
  cpuTime : 0 ≤ rctxt.cpuTime
  virtualMemory : 0 ≤ rctxt.virtualMemory
  actualMemory : 0 ≤ rctxt.actualMemory
  stackMemory : 0 ≤ rctxt.stackMemory
  outputSize : 0 ≤ rctxt.outputSize
  fileno : 0 ≤ rctxt.fileno

theorem applyResourceLimitRsc_eq {rctxt : RsclimCtxt} (h : rctxt.Valid) :
    applyResourceLimitRsc rctxt = (settings rctxt).foldr Setting.code (return 0) := by
  have hpass : ¬ (rctxt.cpuTime < 0 ∨ rctxt.virtualMemory < 0 ∨ rctxt.actualMemory < 0 ∨
      rctxt.stackMemory < 0 ∨ rctxt.outputSize < 0 ∨ rctxt.fileno < 0) := by
    simp only [not_or, Int32.not_lt]
    exact ⟨h.cpuTime, h.virtualMemory, h.actualMemory, h.stackMemory, h.outputSize, h.fileno⟩
  rw [applyResourceLimitRsc, if_neg hpass]
  rfl

/-! ## Going through the blocks -/

/-- The table with a setting in it. -/
def RlimitTable.install (t : RlimitTable) (s : Setting) : RlimitTable :=
  if s.field > 0 then Function.update t (.limited s.type) s.pair else t

/-- How the blocks can end: all settings are in the table, or those before the one
whose `setrlimit` failed. -/
inductive Applied (ss : List Setting) : Int → List JEvent → Prop
  | all {es : List JEvent} : (∀ t : RlimitTable, t.run es = ss.foldl .install t) →
      (∀ e ∈ es, ∀ type cur max, e ≠ ⟨.setrlimit type cur max, false⟩) → Applied ss 0 es
  | failed {es : List JEvent} {before after : List Setting} {s : Setting} :
      ss = before ++ s :: after → (∀ t : RlimitTable, t.run es = before.foldl .install t) →
      (∀ type cur max, (⟨.setrlimit type cur max, false⟩ : JEvent) ∈ es → type = s.type) →
      Applied ss eSetrlimit es

variable {l l' : JLocal} {m m' : Mem} {r : Int}

theorem runs_setRlimit {type : Rlimit} {cur max : UInt64}
    (h : Code.Runs (setRlimit type cur max) l m r l' m') :
    (r = 0 ∧ l'.log = l.log ++
      [⟨.setrlimit type cur (if max < cur then cur else max), true⟩]) ∨
    (r = eSetrlimit ∧ m'.yerrno = eSetrlimit ∧ l'.log = l.log ++
      [⟨.setrlimit type cur (if max < cur then cur else max), false⟩, said eSetrlimit]) := by
  obtain ⟨b, -, h⟩ := (Code.runs_call_bind _ _ _).mp h
  rcases (Code.runs_ite _ _ _ _).mp h with ⟨hb, h⟩ | ⟨hb, h⟩
  · obtain ⟨rfl, rfl, rfl⟩ := (Code.runs_pure _ _).mp h
    refine Or.inl ⟨rfl, ?_⟩
    rw [Local.after_log, hb]
  · obtain ⟨rfl, rfl, rfl⟩ := (runs_yreturn _ _).mp h
    refine Or.inr ⟨rfl, rfl, ?_⟩
    rw [told_log, Local.after_log, List.append_assoc, Bool.eq_false_iff.mpr hb]
    rfl

/-- One more block before the others. -/
theorem Applied.cons {ss : List Setting} {es es₀ : List JEvent} {s : Setting}
    (hs : ∀ t : RlimitTable, t.run es₀ = t.install s)
    (hok : ∀ e ∈ es₀, ∀ type cur max, e ≠ ⟨.setrlimit type cur max, false⟩)
    (h : Applied ss r es) : Applied (s :: ss) r (es₀ ++ es) := by
  cases h with
  | all hrun hnone =>
      refine .all (fun t => ?_) fun e he => ?_
      · rw [run_append, hs, hrun, List.foldl_cons]
      · rcases List.mem_append.mp he with he | he
        · exact hok e he
        · exact hnone e he
  | @failed _ before after s' hss hrun htype =>
      have hsplit : s :: ss = (s :: before) ++ s' :: after := by rw [hss, List.cons_append]
      refine .failed hsplit (fun t => ?_) fun type cur max he => ?_
      · rw [run_append, hs, hrun, List.foldl_cons]
      · rcases List.mem_append.mp he with he | he
        · exact absurd rfl (hok _ he type cur max)
        · exact htype type cur max he

/-- **The blocks**, by induction on their list. -/
theorem runs_settings (ss : List Setting) :
    ∀ {l : JLocal} {m : Mem}, Code.Runs (ss.foldr Setting.code (return 0)) l m r l' m' →
      ∃ es, l'.log = l.log ++ es ∧ Applied ss r es := by
  induction ss with
  | nil =>
      intro l m h
      obtain ⟨rfl, rfl, rfl⟩ := (Code.runs_pure _ _).mp h
      refine ⟨[], (List.append_nil _).symm, .all (fun _ => rfl) ?_⟩
      intro e he
      exact absurd he List.not_mem_nil
  | cons s ss ih =>
      intro l m h
      rcases (Code.runs_ite _ _ _ _).mp h with ⟨hpos, h⟩ | ⟨hpos, h⟩
      · obtain ⟨b, l₁, m₁, hset, h⟩ := (Code.runs_bind _ _ _).mp h
        rcases runs_setRlimit hset with ⟨rfl, hlog⟩ | ⟨rfl, hy, hlog⟩
        · obtain ⟨es, hes, happ⟩ := ih h
          have hlog' : l'.log = l.log ++ ([⟨.setrlimit s.type s.cur s.pair.max, true⟩] ++ es) := by
            rw [hes, hlog, List.append_assoc]
            rfl
          refine ⟨_, hlog', happ.cons (fun t => ?_) fun e he => ?_⟩
          · rw [RlimitTable.install, if_pos hpos]
            rfl
          · rw [List.mem_singleton.mp he]
            intro type cur max heq
            cases heq
        · obtain ⟨hr, rfl, -⟩ := (runs_yreturnYerrno _).mp h
          have hlog' : l₁.log ++ [said m₁.yerrno] = l.log ++
              [⟨.setrlimit s.type s.cur s.pair.max, false⟩, said eSetrlimit, said m₁.yerrno] := by
            rw [hlog, List.append_assoc]
            rfl
          refine ⟨_, hlog', ?_⟩
          rw [hr, hy]
          refine .failed (s := s) (List.nil_append _).symm (fun t => rfl) fun type cur max he => ?_
          simp only [List.mem_cons, List.not_mem_nil, or_false] at he
          rcases he with he | he | he
          · cases he
            rfl
          · cases he
          · cases he
      · obtain ⟨es, hes, happ⟩ := ih h
        have hskip : ∀ t : RlimitTable, t.run [] = t.install s := by
          intro t
          rw [RlimitTable.install, if_neg hpos]
          rfl
        exact ⟨es, hes, happ.cons hskip fun e he => absurd he List.not_mem_nil⟩

/-! ## What is in the table -/

theorem install_other (t : RlimitTable) (s : Setting) (n : Nat) :
    t.install s (.other n) = t (.other n) := by
  rw [RlimitTable.install]
  split
  · exact Function.update_of_ne (by simp) _ _
  · rfl

theorem install_ne (t : RlimitTable) {s : Setting} {type : Rlimit} (h : type ≠ s.type) :
    t.install s (.limited type) = t (.limited type) := by
  rw [RlimitTable.install]
  split
  · exact Function.update_of_ne (by simpa using h) _ _
  · rfl

theorem install_self (t : RlimitTable) (s : Setting) :
    t.install s (.limited s.type) = if s.field > 0 then s.pair else t (.limited s.type) := by
  rw [RlimitTable.install]
  split
  · exact Function.update_self _ _ _
  · rfl

theorem foldl_install_other (ss : List Setting) (n : Nat) :
    ∀ t : RlimitTable, ss.foldl .install t (.other n) = t (.other n) := by
  induction ss with
  | nil => exact fun _ => rfl
  | cons s ss ih =>
      intro t
      rw [List.foldl_cons, ih, install_other]

theorem foldl_install_notMem {type : Rlimit} (ss : List Setting) :
    type ∉ ss.map Setting.type →
      ∀ t : RlimitTable, ss.foldl .install t (.limited type) = t (.limited type) := by
  induction ss with
  | nil => exact fun _ _ => rfl
  | cons s ss ih =>
      intro h t
      rw [List.map_cons, List.mem_cons, not_or] at h
      rw [List.foldl_cons, ih h.2, install_ne t h.1]

theorem foldl_install_mem {s : Setting} (ss : List Setting) :
    (ss.map Setting.type).Nodup → s ∈ ss → ∀ t : RlimitTable,
      ss.foldl .install t (.limited s.type) =
        if s.field > 0 then s.pair else t (.limited s.type) := by
  induction ss with
  | nil => exact fun _ h => absurd h List.not_mem_nil
  | cons x ss ih =>
      intro hnodup hmem t
      rw [List.map_cons, List.nodup_cons] at hnodup
      rw [List.foldl_cons]
      rcases List.mem_cons.mp hmem with rfl | hmem
      · rw [foldl_install_notMem ss hnodup.1, install_self]
      · have hne : s.type ≠ x.type := fun heq =>
          hnodup.1 (heq ▸ List.mem_map_of_mem hmem)
        rw [ih hnodup.2 hmem, install_ne t hne]

/-- The place of a resource in the order of the source. -/
def limitPlace : Rlimit → Nat
  | .cpu => 0 | .as => 1 | .fsize => 2 | .stack => 3 | .nofile => 4

theorem settings_sorted (rctxt : RsclimCtxt) :
    ((settings rctxt).map Setting.type).Pairwise fun a b => limitPlace a < limitPlace b := by
  simp [settings, limitPlace]

theorem settings_nodup (rctxt : RsclimCtxt) : ((settings rctxt).map Setting.type).Nodup :=
  (settings_sorted rctxt).imp fun h heq => by rw [heq] at h; omega

/-- A field and the entry of its resource: untouched if the field is 0, else `soft`
and the larger of `soft` and `hard`. -/
def FieldInstalled (field : Int32) (soft hard : Int) (before after : RlimitPair) : Prop :=
  (field = 0 → after = before) ∧
    (field ≠ 0 → (after.cur.toNat : Int) = soft ∧ (after.max.toNat : Int) = max soft hard)

/-- The configured limits, and nothing else, have come into the table. -/
structure LimitsInstalled (rctxt : RsclimCtxt) (t t' : RlimitTable) : Prop where
  cpu : FieldInstalled rctxt.cpuTime ⌈(rctxt.cpuTime.toInt : ℚ) / 1000⌉ cpuTimeHLimit.toNat
    (t (.limited .cpu)) (t' (.limited .cpu))
  as : FieldInstalled rctxt.virtualMemory rctxt.virtualMemory.toInt asHLimit.toNat
    (t (.limited .as)) (t' (.limited .as))
  fsize : FieldInstalled rctxt.outputSize rctxt.outputSize.toInt fsizeHLimit.toNat
    (t (.limited .fsize)) (t' (.limited .fsize))
  stack : FieldInstalled rctxt.stackMemory rctxt.stackMemory.toInt stackHLimit.toNat
    (t (.limited .stack)) (t' (.limited .stack))
  nofile : FieldInstalled rctxt.fileno rctxt.fileno.toInt nofileHLimit.toNat
    (t (.limited .nofile)) (t' (.limited .nofile))
  other : ∀ n, t' (.other n) = t (.other n)

theorem ceil_thousand (n : Int) : ⌈(n : ℚ) / 1000⌉ = (n + 999) / 1000 := by
  have h := Rat.ceil_intCast_div_natCast n 1000
  push_cast at h
  rw [h]
  omega

/-- One block that leaves its setting behind, if its soft limit is `soft`. -/
theorem Setting.fieldInstalled {s : Setting} {soft : Int} {before after : RlimitPair}
    (h : after = if s.field > 0 then s.pair else before) (hvalid : 0 ≤ s.field)
    (hcur : 0 < s.field → (s.cur.toNat : Int) = soft) :
    FieldInstalled s.field soft s.max.toNat before after := by
  have hsign : s.field ≠ 0 ↔ 0 < s.field := by
    constructor
    · intro hne
      exact Int32.lt_of_le_of_ne hvalid hne.symm
    · intro hpos h0
      rw [h0] at hpos
      exact absurd hpos (by decide)
  refine ⟨fun h0 => ?_, fun hne => ?_⟩
  · rw [h, if_neg fun hpos => hsign.mpr hpos h0]
  · have hpos := hsign.mp hne
    rw [h, if_pos hpos]
    refine ⟨hcur hpos, ?_⟩
    rw [← hcur hpos, Setting.pair]
    simp only [UInt64.lt_iff_toNat_lt]
    split <;> omega

/-- The soft limit for an `int` that is positive. -/
theorem toRlim_pos {x : Int32} (h : 0 < x) : ((toRlim x).toNat : Int) = x.toInt :=
  toRlim_toNat (Int32.lt_iff_toInt_lt.mp h).le

/-- The soft limit for CPU time, in seconds. -/
theorem toRlim_cpuSeconds {c : Int32} (h : 0 < c) :
    ((toRlim (cpuSeconds c)).toNat : Int) = ⌈(c.toInt : ℚ) / 1000⌉ := by
  have hpos : 0 < c.toInt := Int32.lt_iff_toInt_lt.mp h
  have hsec := cpuSeconds_toInt h
  rw [toRlim_toNat (by omega), hsec, ceil_thousand]

/-- A table with all the settings in it. -/
theorem limitsInstalled_settings {rctxt : RsclimCtxt} (hvalid : rctxt.Valid) (t : RlimitTable) :
    LimitsInstalled rctxt t ((settings rctxt).foldl .install t) := by
  have hfield : ∀ s ∈ settings rctxt, 0 ≤ s.field → ∀ soft : Int,
      (0 < s.field → (s.cur.toNat : Int) = soft) →
        FieldInstalled s.field soft s.max.toNat (t (.limited s.type))
          ((settings rctxt).foldl .install t (.limited s.type)) := by
    intro s hs hpos soft hcur
    exact Setting.fieldInstalled (foldl_install_mem _ (settings_nodup rctxt) hs t) hpos hcur
  constructor
  case cpu =>
    exact hfield ⟨rctxt.cpuTime, .cpu, toRlim (cpuSeconds rctxt.cpuTime), cpuTimeHLimit⟩
      (by simp [settings]) hvalid.cpuTime _ toRlim_cpuSeconds
  case as =>
    exact hfield ⟨rctxt.virtualMemory, .as, toRlim rctxt.virtualMemory, asHLimit⟩
      (by simp [settings]) hvalid.virtualMemory _ toRlim_pos
  case fsize =>
    exact hfield ⟨rctxt.outputSize, .fsize, toRlim rctxt.outputSize, fsizeHLimit⟩
      (by simp [settings]) hvalid.outputSize _ toRlim_pos
  case stack =>
    exact hfield ⟨rctxt.stackMemory, .stack, toRlim rctxt.stackMemory, stackHLimit⟩
      (by simp [settings]) hvalid.stackMemory _ toRlim_pos
  case nofile =>
    exact hfield ⟨rctxt.fileno, .nofile, toRlim rctxt.fileno, nofileHLimit⟩
      (by simp [settings]) hvalid.fileno _ toRlim_pos
  case other => exact fun n => foldl_install_other _ n t

/-- A program is not stopped before its CPU time, nor a second after it. -/
theorem LimitsInstalled.cpu_bounds {rctxt : RsclimCtxt} {t t' : RlimitTable}
    (h : LimitsInstalled rctxt t t') (hcpu : rctxt.cpuTime ≠ 0) :
    rctxt.cpuTime.toInt ≤ 1000 * ((t' (.limited .cpu)).cur.toNat : Int) ∧
      1000 * ((t' (.limited .cpu)).cur.toNat : Int) < rctxt.cpuTime.toInt + 1000 := by
  rw [(h.cpu.2 hcpu).1, ceil_thousand]
  omega

/-- **Exactly the configured limits** are installed when the function returns 0;
when a `setrlimit` fails it does not return 0, and the limits of that resource and
of the later ones are as before. -/
theorem limits_installed {rctxt : RsclimCtxt} (hvalid : rctxt.Valid) (t : RlimitTable)
    {es : List JEvent} (hrun : Code.Runs (applyResourceLimitRsc rctxt) l m r l' m')
    (hlog : l'.log = l.log ++ es) :
    (r = 0 → LimitsInstalled rctxt t (t.run es) ∧
      (rctxt.cpuTime ≠ 0 →
        rctxt.cpuTime.toInt ≤ 1000 * ((t.run es (.limited .cpu)).cur.toNat : Int) ∧
          1000 * ((t.run es (.limited .cpu)).cur.toNat : Int) < rctxt.cpuTime.toInt + 1000)) ∧
      ∀ type cur max, (⟨.setrlimit type cur max, false⟩ : JEvent) ∈ es →
        r ≠ 0 ∧ ∀ later : Rlimit, limitPlace type ≤ limitPlace later →
          t.run es (.limited later) = t (.limited later) := by
  rw [applyResourceLimitRsc_eq hvalid] at hrun
  obtain ⟨es', hes', happ⟩ := runs_settings _ hrun
  obtain rfl := List.append_cancel_left (hlog.symm.trans hes')
  cases happ with
  | all htable hnone =>
      have hall : LimitsInstalled rctxt t (t.run es) := htable t ▸ limitsInstalled_settings hvalid t
      refine ⟨fun _ => ⟨hall, hall.cpu_bounds⟩, fun type cur max he => ?_⟩
      exact absurd rfl (hnone _ he type cur max)
  | @failed _ before after s hss htable htype =>
      refine ⟨fun h => absurd h (by decide), fun type cur max he => ?_⟩
      obtain rfl := htype type cur max he
      refine ⟨by decide, fun later hlater => ?_⟩
      rw [htable, foldl_install_notMem]
      -- what stands before the setting that failed has a lower place
      intro hin
      have hsorted := settings_sorted rctxt
      rw [hss, List.map_append, List.pairwise_append] at hsorted
      have hlt := hsorted.2.2 later hin s.type List.mem_cons_self
      omega

/-- A CPU limit of 1.5 seconds, in a table of zeros. -/
theorem limits_installed_cpu : ∃ es,
    (0 = (0 : Int) → LimitsInstalled { rsclimCtxtCreate with cpuTime := 1500 } (fun _ => ⟨0, 0⟩)
        (RlimitTable.run (fun _ => ⟨0, 0⟩) es) ∧
      ((1500 : Int32) ≠ 0 →
        (1500 : Int32).toInt ≤ 1000 *
            ((RlimitTable.run (fun _ => ⟨0, 0⟩) es (.limited .cpu)).cur.toNat : Int) ∧
          1000 * ((RlimitTable.run (fun _ => ⟨0, 0⟩) es (.limited .cpu)).cur.toNat : Int) <
            (1500 : Int32).toInt + 1000)) ∧
      ∀ type cur max, (⟨.setrlimit type cur max, false⟩ : JEvent) ∈ es →
        (0 : Int) ≠ 0 ∧ ∀ later : Rlimit, limitPlace type ≤ limitPlace later →
          RlimitTable.run (fun _ => ⟨0, 0⟩) es (.limited later) = ⟨0, 0⟩ := by
  obtain ⟨cur, max, l', hrun, hlog⟩ := records_cpuOnly (c := 1500) (by decide)
    (.start (.inheritedBelow 4)) (Mem.create (yjudgerCtxtCreate blankResult noRusage) 3)
  have hvalid : RsclimCtxt.Valid { rsclimCtxtCreate with cpuTime := 1500 } := by
    constructor <;> decide
  exact ⟨_, limits_installed hvalid (fun _ => ⟨0, 0⟩) hrun hlog⟩

end YaojJudger
