import Mathlib
import AptosCore.Collections.ModifyFirst

/-!
# The report of a specification test

`run_spec_test` proves every mutant of the mutator's report. For each one it counts a tested
mutant under the mutant's file and `module::function`, then either a killed mutant, when the
prover fails, or the diff of a mutant that survived. `Report` keeps these counts per file, in a
vector of `MutantStats` per file, each found by its `module_func` or pushed when missing.

The report after any sequence of proved mutants is the abstract one computed from the sequence
(`stat?_runSpecTestReport`): one entry per file and `module::function` that occurred, holding
the number of mutants tested there, the number killed and the diffs of the others. The keys stay
distinct (`wellFormed_runSpecTestReport`) and the totals count the mutants
(`mutantsTested_runSpecTestReport`, `mutantsKilled_runSpecTestReport`). The counters are `u32`.
The workspace builds with overflow checks, so the code panics where a count would pass
`2 ^ 32 - 1`; the model's `UInt32` additions wrap there instead and the panic is not modelled.
Below `2 ^ 32` mutants, where the results are stated, no count overflows and the two agree.
-/

namespace AptosCore.SpecTest

open AptosCore.Collections

/-- `MutantStats`. -/
structure MutantStats where
  moduleFunc : String
  tested : UInt32
  killed : UInt32
  mutantsAliveDiffs : List String
  deriving DecidableEq, Repr

def MutantStats.new (moduleFunc : String) : MutantStats := ⟨moduleFunc, 0, 0, []⟩

/-- `Report`: the stats of each file. The `BTreeMap` is a list with one entry per path; its
order is read by `print_table` only. -/
structure Report (P : Type) where
  files : List (P × List MutantStats)

namespace Report

variable {P : Type} [DecidableEq P]

def new : Report P := ⟨[]⟩

/-- What `increment_stat` does to the vector of a file: the first stat of `module_func` is
changed, or a new one is pushed and changed. -/
def updateEntry (moduleFunc : String) (increment : MutantStats → MutantStats)
    (entry : P × List MutantStats) : P × List MutantStats :=
  (entry.1, modifyFirst MutantStats.moduleFunc moduleFunc (MutantStats.new moduleFunc) increment
    entry.2)

/-- `increment_stat`: `files.entry(path).or_insert(vec![MutantStats::new(module_func)])`, then
the update of that vector. -/
def incrementStat (report : Report P) (path : P) (moduleFunc : String)
    (increment : MutantStats → MutantStats) : Report P :=
  ⟨modifyFirst Prod.fst path (path, [MutantStats.new moduleFunc]) (updateEntry moduleFunc increment)
    report.files⟩

def incrementMutantsTested (report : Report P) (path : P) (moduleFunc : String) : Report P :=
  report.incrementStat path moduleFunc fun stat ↦ { stat with tested := stat.tested + 1 }

def incrementMutantsKilled (report : Report P) (path : P) (moduleFunc : String) : Report P :=
  report.incrementStat path moduleFunc fun stat ↦ { stat with killed := stat.killed + 1 }

/-- `add_mutants_alive_diff`. Its body repeats the find-or-push of `increment_stat`, with the
push of the diff as the change. -/
def addMutantsAliveDiff (report : Report P) (path : P) (moduleFunc diff : String) : Report P :=
  report.incrementStat path moduleFunc fun stat ↦
    { stat with mutantsAliveDiffs := stat.mutantsAliveDiffs ++ [diff] }

/-- `total_count`: the sum over all files and stats, in `u32` arithmetic; a sum past
`2 ^ 32 - 1`, which panics in the code, wraps here. -/
def totalCount (report : Report P) (count : MutantStats → UInt32) : UInt32 :=
  (report.files.map fun entry ↦ (entry.2.map count).sum).sum

def mutantsTested (report : Report P) : UInt32 := report.totalCount (·.tested)

def mutantsKilled (report : Report P) : UInt32 := report.totalCount (·.killed)

/-- The stats of `moduleFunc` in the file `path`, as `files.get(path)` and `find` read them. -/
def stat? (report : Report P) (path : P) (moduleFunc : String) : Option MutantStats :=
  (findKey Prod.fst path report.files).bind fun entry ↦
    findKey MutantStats.moduleFunc moduleFunc entry.2

/-- Distinct keys: one entry per path, and one stat per `module_func` in each. -/
structure WellFormed (report : Report P) : Prop where
  paths_nodup : (report.files.map Prod.fst).Nodup
  moduleFuncs_nodup : ∀ entry ∈ report.files, (entry.2.map MutantStats.moduleFunc).Nodup

end Report

/-- What proving one mutant gives: the prover failed, or the mutant survived with its diff. -/
inductive ProveOutcome where
  | killed
  | alive (diff : String)
  deriving DecidableEq, Repr

/-- One mutant of the mutator's report, as the proving loop sees it: the original file relative
to the package, `module::function`, and the prover's outcome. -/
structure MutantEntry (P : Type) where
  path : P
  moduleFunc : String
  outcome : ProveOutcome
  deriving DecidableEq, Repr

variable {P : Type} [DecidableEq P]

/-- One turn of the proving loop of `run_spec_test`. -/
def processEntry (report : Report P) (entry : MutantEntry P) : Report P :=
  let report := report.incrementMutantsTested entry.path entry.moduleFunc
  match entry.outcome with
  | .killed => report.incrementMutantsKilled entry.path entry.moduleFunc
  | .alive diff => report.addMutantsAliveDiff entry.path entry.moduleFunc diff

theorem processEntry_of_killed {report : Report P} {entry : MutantEntry P}
    (houtcome : entry.outcome = .killed) :
    processEntry report entry =
      (report.incrementMutantsTested entry.path entry.moduleFunc).incrementMutantsKilled
        entry.path entry.moduleFunc := by
  unfold processEntry
  rw [houtcome]

theorem processEntry_of_alive {report : Report P} {entry : MutantEntry P} {diff : String}
    (houtcome : entry.outcome = .alive diff) :
    processEntry report entry =
      (report.incrementMutantsTested entry.path entry.moduleFunc).addMutantsAliveDiff
        entry.path entry.moduleFunc diff := by
  unfold processEntry
  rw [houtcome]

/-- The `spec_report` that the proving loop of `run_spec_test` builds. -/
def runSpecTestReport (entries : List (MutantEntry P)) : Report P :=
  entries.foldl processEntry Report.new

/-! ## The report a sequence of mutants should give -/

/-- Whether the prover killed the mutant. -/
def ProveOutcome.isKilled : ProveOutcome → Bool
  | .killed => true
  | .alive _ => false

/-- The diff of a surviving mutant. -/
def ProveOutcome.aliveDiff : ProveOutcome → Option String
  | .killed => none
  | .alive diff => some diff

@[simp] theorem ProveOutcome.isKilled_killed : ProveOutcome.killed.isKilled = true := rfl

@[simp] theorem ProveOutcome.isKilled_alive (diff : String) :
    (ProveOutcome.alive diff).isKilled = false := rfl

@[simp] theorem ProveOutcome.aliveDiff_killed : ProveOutcome.killed.aliveDiff = none := rfl

@[simp] theorem ProveOutcome.aliveDiff_alive (diff : String) :
    (ProveOutcome.alive diff).aliveDiff = some diff := rfl

/-- The mutants of `moduleFunc` in the file `path`. -/
def entriesFor (entries : List (MutantEntry P)) (path : P) (moduleFunc : String) :
    List (MutantEntry P) :=
  entries.filter fun entry ↦ entry.path = path ∧ entry.moduleFunc = moduleFunc

/-- The stats `moduleFunc` in `path` should have: its mutants counted, those killed counted,
and the diffs of the others in order. -/
def expectedStats (entries : List (MutantEntry P)) (path : P) (moduleFunc : String) :
    MutantStats :=
  ⟨moduleFunc, UInt32.ofNat (entriesFor entries path moduleFunc).length,
    UInt32.ofNat ((entriesFor entries path moduleFunc).filter (·.outcome.isKilled)).length,
    (entriesFor entries path moduleFunc).filterMap (·.outcome.aliveDiff)⟩

/-- What one mutant adds to its stats. -/
def MutantStats.record (stat : MutantStats) : ProveOutcome → MutantStats
  | .killed => { stat with tested := stat.tested + 1, killed := stat.killed + 1 }
  | .alive diff =>
    { stat with tested := stat.tested + 1, mutantsAliveDiffs := stat.mutantsAliveDiffs ++ [diff] }

@[simp] theorem MutantStats.record_killed (stat : MutantStats) :
    stat.record .killed = { stat with tested := stat.tested + 1, killed := stat.killed + 1 } :=
  rfl

@[simp] theorem MutantStats.record_alive (stat : MutantStats) (diff : String) :
    stat.record (.alive diff) =
      { stat with tested := stat.tested + 1,
                  mutantsAliveDiffs := stat.mutantsAliveDiffs ++ [diff] } := rfl

theorem expectedStats_append_self (entries : List (MutantEntry P)) (entry : MutantEntry P) :
    expectedStats (entries ++ [entry]) entry.path entry.moduleFunc =
      (expectedStats entries entry.path entry.moduleFunc).record entry.outcome := by
  cases houtcome : entry.outcome <;>
    simp [expectedStats, entriesFor, houtcome, UInt32.ofNat_add]

theorem expectedStats_append_of_ne (entries : List (MutantEntry P)) {entry : MutantEntry P}
    {path : P} {moduleFunc : String} (hne : ¬ (entry.path = path ∧ entry.moduleFunc = moduleFunc)) :
    expectedStats (entries ++ [entry]) path moduleFunc = expectedStats entries path moduleFunc := by
  simp [expectedStats, entriesFor, hne]

theorem expectedStats_nil_entries {entries : List (MutantEntry P)} {path : P}
    {moduleFunc : String} (hnone : entriesFor entries path moduleFunc = []) :
    expectedStats entries path moduleFunc = MutantStats.new moduleFunc := by
  simp [expectedStats, hnone, MutantStats.new]

/-! ## One update -/

namespace Report

variable {report : Report P} {path : P} {moduleFunc : String}
  {increment : MutantStats → MutantStats}

theorem findKey_incrementStat_self :
    findKey Prod.fst path (report.incrementStat path moduleFunc increment).files =
      some (updateEntry moduleFunc increment
        ((findKey Prod.fst path report.files).getD (path, [MutantStats.new moduleFunc]))) :=
  findKey_modifyFirst_self (fun _ ↦ by rfl) (by rfl) report.files

theorem findKey_incrementStat_of_ne {path' : P} (hne : path' ≠ path) :
    findKey Prod.fst path' (report.incrementStat path moduleFunc increment).files =
      findKey Prod.fst path' report.files :=
  findKey_modifyFirst_of_ne (fun _ ↦ by rfl) (by rfl) hne report.files

section Keep

variable (hkeep : ∀ stat, (increment stat).moduleFunc = stat.moduleFunc)
include hkeep

omit [DecidableEq P] in
theorem findKey_updateEntry_self (entry : P × List MutantStats) :
    findKey MutantStats.moduleFunc moduleFunc (updateEntry moduleFunc increment entry).2 =
      some (increment ((findKey MutantStats.moduleFunc moduleFunc entry.2).getD
        (MutantStats.new moduleFunc))) :=
  findKey_modifyFirst_self hkeep (by rfl) entry.2

omit [DecidableEq P] in
theorem findKey_updateEntry_of_ne {moduleFunc' : String} (hne : moduleFunc' ≠ moduleFunc)
    (entry : P × List MutantStats) :
    findKey MutantStats.moduleFunc moduleFunc' (updateEntry moduleFunc increment entry).2 =
      findKey MutantStats.moduleFunc moduleFunc' entry.2 :=
  findKey_modifyFirst_of_ne hkeep (by rfl) hne entry.2

theorem stat?_incrementStat_self :
    (report.incrementStat path moduleFunc increment).stat? path moduleFunc =
      some (increment ((report.stat? path moduleFunc).getD (MutantStats.new moduleFunc))) := by
  rw [stat?, findKey_incrementStat_self, Option.bind_some, findKey_updateEntry_self hkeep]
  cases hfile : findKey Prod.fst path report.files with
  | none => simp [stat?, hfile, findKey_cons, MutantStats.new]
  | some entry => simp [stat?, hfile]

theorem stat?_incrementStat_of_ne {path' : P} {moduleFunc' : String}
    (hne : ¬ (path = path' ∧ moduleFunc = moduleFunc')) :
    (report.incrementStat path moduleFunc increment).stat? path' moduleFunc' =
      report.stat? path' moduleFunc' := by
  by_cases hpath : path' = path
  · subst hpath
    have hfunc : moduleFunc' ≠ moduleFunc := fun h ↦ hne ⟨rfl, h.symm⟩
    rw [stat?, findKey_incrementStat_self, Option.bind_some,
      findKey_updateEntry_of_ne hkeep hfunc]
    cases hfile : findKey Prod.fst path' report.files with
    | none => simp [stat?, hfile, findKey_cons, MutantStats.new, Ne.symm hfunc]
    | some entry => simp [stat?, hfile]
  · rw [stat?, stat?, findKey_incrementStat_of_ne hpath]

end Keep

theorem WellFormed.incrementStat (hwf : report.WellFormed)
    (hkeep : ∀ stat, (increment stat).moduleFunc = stat.moduleFunc) :
    (report.incrementStat path moduleFunc increment).WellFormed := by
  have hpaths : ((report.incrementStat path moduleFunc increment).files.map Prod.fst).Nodup :=
    nodup_map_modifyFirst (fun _ ↦ by rfl) (by rfl) hwf.paths_nodup
  refine ⟨hpaths, ?_⟩
  intro entry hentry
  rcases mem_modifyFirst hentry with hold | ⟨old, hold, rfl⟩
  · exact hwf.moduleFuncs_nodup entry hold
  · have hnodup : (old.2.map MutantStats.moduleFunc).Nodup := by
      rcases hold with hold | rfl
      · exact hwf.moduleFuncs_nodup old hold
      · simp
    exact nodup_map_modifyFirst hkeep (by rfl) hnodup

/-- In a well-formed report, a stat of a file is what `stat?` finds for its function. -/
theorem WellFormed.stat?_of_mem (hwf : report.WellFormed) {entry : P × List MutantStats}
    (hentry : entry ∈ report.files) {stat : MutantStats} (hstat : stat ∈ entry.2) :
    report.stat? entry.1 stat.moduleFunc = some stat := by
  rw [stat?, findKey_of_mem hwf.paths_nodup hentry, Option.bind_some,
    findKey_of_mem (hwf.moduleFuncs_nodup entry hentry) hstat]

end Report

/-- A change that adds `delta` to a counted field adds `delta` to the sum of any update. -/
theorem sum_map_modifyFirst {β κ : Type} [DecidableEq κ] {key : β → κ} {k : κ} {d : β}
    {f : β → β} (count : β → UInt32) {delta : UInt32}
    (hcount : ∀ b, count (f b) = count b + delta) (hd : count d = 0) (xs : List β) :
    ((modifyFirst key k d f xs).map count).sum = (xs.map count).sum + delta := by
  induction xs with
  | nil => simp [hcount, hd]
  | cons b rest ih =>
    by_cases hkey : key b = k
    · simp only [modifyFirst_cons, hkey, if_true, List.map_cons, List.sum_cons, hcount]
      grind
    · simp only [modifyFirst_cons, hkey, if_false, List.map_cons, List.sum_cons, ih]
      grind

namespace Report

variable {report : Report P} {path : P} {moduleFunc : String}
  {increment : MutantStats → MutantStats}

theorem totalCount_incrementStat (count : MutantStats → UInt32) {delta : UInt32}
    (hcount : ∀ stat, count (increment stat) = count stat + delta)
    (hnew : count (MutantStats.new moduleFunc) = 0) :
    (report.incrementStat path moduleFunc increment).totalCount count =
      report.totalCount count + delta := by
  have hentry : ∀ entry : P × List MutantStats,
      ((updateEntry moduleFunc increment entry).2.map count).sum = (entry.2.map count).sum + delta :=
    fun entry ↦ sum_map_modifyFirst count hcount hnew entry.2
  have hfresh : (([MutantStats.new moduleFunc]).map count).sum = 0 := by simp [hnew]
  exact sum_map_modifyFirst (fun entry : P × List MutantStats ↦ (entry.2.map count).sum) hentry
    hfresh report.files

end Report

/-! ## One mutant, and the whole loop -/

section Loop

variable {report : Report P} {entry : MutantEntry P}

theorem stat?_processEntry (path : P) (moduleFunc : String) :
    (processEntry report entry).stat? path moduleFunc =
      if entry.path = path ∧ entry.moduleFunc = moduleFunc then
        some (((report.stat? path moduleFunc).getD (MutantStats.new moduleFunc)).record
          entry.outcome)
      else report.stat? path moduleFunc := by
  split_ifs with hself
  · obtain ⟨rfl, rfl⟩ := hself
    cases houtcome : entry.outcome with
    | killed =>
      simp [processEntry_of_killed houtcome, Report.incrementMutantsTested,
        Report.incrementMutantsKilled, Report.stat?_incrementStat_self]
    | alive diff =>
      simp [processEntry_of_alive houtcome, Report.incrementMutantsTested,
        Report.addMutantsAliveDiff, Report.stat?_incrementStat_self]
  · cases houtcome : entry.outcome with
    | killed =>
      simp [processEntry_of_killed houtcome, Report.incrementMutantsTested,
        Report.incrementMutantsKilled, Report.stat?_incrementStat_of_ne _ hself]
    | alive diff =>
      simp [processEntry_of_alive houtcome, Report.incrementMutantsTested,
        Report.addMutantsAliveDiff, Report.stat?_incrementStat_of_ne _ hself]

theorem wellFormed_processEntry (hwf : report.WellFormed) :
    (processEntry report entry).WellFormed := by
  have htested : (report.incrementMutantsTested entry.path entry.moduleFunc).WellFormed :=
    hwf.incrementStat fun _ ↦ rfl
  cases houtcome : entry.outcome with
  | killed =>
    rw [processEntry_of_killed houtcome]
    exact htested.incrementStat fun _ ↦ rfl
  | alive diff =>
    rw [processEntry_of_alive houtcome]
    exact htested.incrementStat fun _ ↦ rfl

theorem mutantsTested_processEntry :
    (processEntry report entry).mutantsTested = report.mutantsTested + 1 := by
  have htested : (report.incrementMutantsTested entry.path entry.moduleFunc).mutantsTested =
      report.mutantsTested + 1 :=
    Report.totalCount_incrementStat _ (fun _ ↦ rfl) rfl
  cases houtcome : entry.outcome with
  | killed =>
    have hkilled : ((report.incrementMutantsTested entry.path entry.moduleFunc).incrementMutantsKilled
        entry.path entry.moduleFunc).mutantsTested =
        (report.incrementMutantsTested entry.path entry.moduleFunc).mutantsTested + 0 :=
      Report.totalCount_incrementStat _ (fun stat ↦ (UInt32.add_zero stat.tested).symm) rfl
    rw [processEntry_of_killed houtcome, hkilled, htested, UInt32.add_zero]
  | alive diff =>
    have halive : ((report.incrementMutantsTested entry.path entry.moduleFunc).addMutantsAliveDiff
        entry.path entry.moduleFunc diff).mutantsTested =
        (report.incrementMutantsTested entry.path entry.moduleFunc).mutantsTested + 0 :=
      Report.totalCount_incrementStat _ (fun stat ↦ (UInt32.add_zero stat.tested).symm) rfl
    rw [processEntry_of_alive houtcome, halive, htested, UInt32.add_zero]

theorem mutantsKilled_processEntry :
    (processEntry report entry).mutantsKilled =
      report.mutantsKilled + if entry.outcome.isKilled then 1 else 0 := by
  have htested : (report.incrementMutantsTested entry.path entry.moduleFunc).mutantsKilled =
      report.mutantsKilled + 0 :=
    Report.totalCount_incrementStat _ (fun stat ↦ (UInt32.add_zero stat.killed).symm) rfl
  cases houtcome : entry.outcome with
  | killed =>
    have hkilled : ((report.incrementMutantsTested entry.path entry.moduleFunc).incrementMutantsKilled
        entry.path entry.moduleFunc).mutantsKilled =
        (report.incrementMutantsTested entry.path entry.moduleFunc).mutantsKilled + 1 :=
      Report.totalCount_incrementStat _ (fun _ ↦ rfl) rfl
    simp only [processEntry_of_killed houtcome, hkilled, htested, UInt32.add_zero,
      ProveOutcome.isKilled_killed, if_true]
  | alive diff =>
    have halive : ((report.incrementMutantsTested entry.path entry.moduleFunc).addMutantsAliveDiff
        entry.path entry.moduleFunc diff).mutantsKilled =
        (report.incrementMutantsTested entry.path entry.moduleFunc).mutantsKilled + 0 :=
      Report.totalCount_incrementStat _ (fun stat ↦ (UInt32.add_zero stat.killed).symm) rfl
    simp only [processEntry_of_alive houtcome, halive, htested, UInt32.add_zero,
      ProveOutcome.isKilled_alive, Bool.false_eq_true, if_false]

end Loop

theorem runSpecTestReport_append (entries : List (MutantEntry P)) (entry : MutantEntry P) :
    runSpecTestReport (entries ++ [entry]) = processEntry (runSpecTestReport entries) entry := by
  simp [runSpecTestReport, List.foldl_append]

/-- The keys of the report stay distinct along the loop. -/
theorem wellFormed_runSpecTestReport (entries : List (MutantEntry P)) :
    (runSpecTestReport entries).WellFormed := by
  induction entries using List.reverseRecOn with
  | nil => exact ⟨List.nodup_nil, by simp [runSpecTestReport, Report.new]⟩
  | append_singleton entries entry ih =>
    rw [runSpecTestReport_append]
    exact wellFormed_processEntry ih

theorem mutantsTested_runSpecTestReport (entries : List (MutantEntry P)) :
    (runSpecTestReport entries).mutantsTested = UInt32.ofNat entries.length := by
  induction entries using List.reverseRecOn with
  | nil => rfl
  | append_singleton entries entry ih =>
    rw [runSpecTestReport_append, mutantsTested_processEntry, ih, List.length_append,
      List.length_singleton, UInt32.ofNat_add]
    rfl

theorem mutantsKilled_runSpecTestReport (entries : List (MutantEntry P)) :
    (runSpecTestReport entries).mutantsKilled =
      UInt32.ofNat (entries.filter (·.outcome.isKilled)).length := by
  induction entries using List.reverseRecOn with
  | nil => rfl
  | append_singleton entries entry ih =>
    rw [runSpecTestReport_append, mutantsKilled_processEntry, ih, List.filter_append]
    cases houtcome : entry.outcome <;> simp [houtcome, UInt32.ofNat_add]

theorem entriesFor_append_self (entries : List (MutantEntry P)) (entry : MutantEntry P) :
    entriesFor (entries ++ [entry]) entry.path entry.moduleFunc =
      entriesFor entries entry.path entry.moduleFunc ++ [entry] := by
  simp [entriesFor]

theorem entriesFor_append_of_ne (entries : List (MutantEntry P)) {entry : MutantEntry P}
    {path : P} {moduleFunc : String} (hne : ¬ (entry.path = path ∧ entry.moduleFunc = moduleFunc)) :
    entriesFor (entries ++ [entry]) path moduleFunc = entriesFor entries path moduleFunc := by
  simp [entriesFor, hne]

/-- The report of the loop is the abstract one: a stat for each file and `module::function`
that occurred, holding what the mutants there should give. -/
theorem stat?_runSpecTestReport (entries : List (MutantEntry P)) (path : P)
    (moduleFunc : String) :
    (runSpecTestReport entries).stat? path moduleFunc =
      if entriesFor entries path moduleFunc = [] then none
      else some (expectedStats entries path moduleFunc) := by
  induction entries using List.reverseRecOn with
  | nil => simp [runSpecTestReport, Report.new, Report.stat?, entriesFor]
  | append_singleton entries entry ih =>
    rw [runSpecTestReport_append, stat?_processEntry, ih]
    by_cases hself : entry.path = path ∧ entry.moduleFunc = moduleFunc
    · obtain ⟨rfl, rfl⟩ := hself
      have hgetD : (if entriesFor entries entry.path entry.moduleFunc = [] then none
          else some (expectedStats entries entry.path entry.moduleFunc)).getD
            (MutantStats.new entry.moduleFunc) =
          expectedStats entries entry.path entry.moduleFunc := by
        split_ifs with hnone
        · exact (expectedStats_nil_entries hnone).symm
        · rfl
      have hsome : entriesFor entries entry.path entry.moduleFunc ++ [entry] ≠ [] := by simp
      rw [if_pos ⟨rfl, rfl⟩, hgetD, entriesFor_append_self, if_neg hsome,
        expectedStats_append_self]
    · rw [if_neg hself, entriesFor_append_of_ne entries hself,
        expectedStats_append_of_ne entries hself]

omit [DecidableEq P] in
/-- Every mutant is either killed or leaves its diff. -/
theorem length_eq_killed_add_alive (entries : List (MutantEntry P)) :
    entries.length = (entries.filter (·.outcome.isKilled)).length +
      (entries.filterMap (·.outcome.aliveDiff)).length := by
  induction entries with
  | nil => rfl
  | cons entry rest ih =>
    cases houtcome : entry.outcome <;>
      simp [houtcome, ih] <;> omega

/-- The bookkeeping of the proving loop: the keys of the report are distinct, every stat counts
its function's tested mutants as the killed ones plus the surviving diffs, and the totals count
all mutants and the killed ones, while fewer than `2 ^ 32` mutants are proved. -/
theorem runSpecTestReport_counts (entries : List (MutantEntry P)) (hbound : entries.length < 2 ^ 32) :
    (runSpecTestReport entries).WellFormed ∧
    (∀ entry ∈ (runSpecTestReport entries).files, ∀ stat ∈ entry.2,
      stat.tested.toNat = stat.killed.toNat + stat.mutantsAliveDiffs.length ∧
      stat.tested.toNat = (entriesFor entries entry.1 stat.moduleFunc).length) ∧
    (runSpecTestReport entries).mutantsTested.toNat = entries.length ∧
    (runSpecTestReport entries).mutantsKilled.toNat =
      (entries.filter (·.outcome.isKilled)).length := by
  have hwf := wellFormed_runSpecTestReport entries
  have hkilledLe : (entries.filter (·.outcome.isKilled)).length < 2 ^ 32 :=
    Nat.lt_of_le_of_lt (List.length_filter_le _ _) hbound
  refine ⟨hwf, ?_, ?_, ?_⟩
  · intro entry hentry stat hstat
    have hfound := hwf.stat?_of_mem hentry hstat
    rw [stat?_runSpecTestReport] at hfound
    split_ifs at hfound with hnone
    have hexpected := Option.some.inj hfound
    have htested : stat.tested = UInt32.ofNat (entriesFor entries entry.1 stat.moduleFunc).length :=
      (congrArg MutantStats.tested hexpected).symm
    have hkilled : stat.killed = UInt32.ofNat ((entriesFor entries entry.1 stat.moduleFunc).filter
        (·.outcome.isKilled)).length :=
      (congrArg MutantStats.killed hexpected).symm
    have hdiffs : stat.mutantsAliveDiffs =
        (entriesFor entries entry.1 stat.moduleFunc).filterMap (·.outcome.aliveDiff) :=
      (congrArg MutantStats.mutantsAliveDiffs hexpected).symm
    have hmine : (entriesFor entries entry.1 stat.moduleFunc).length < 2 ^ 32 :=
      Nat.lt_of_le_of_lt (List.length_filter_le _ _) hbound
    have hmineKilled : ((entriesFor entries entry.1 stat.moduleFunc).filter
        (·.outcome.isKilled)).length < 2 ^ 32 :=
      Nat.lt_of_le_of_lt (List.length_filter_le _ _) hmine
    have hsplit := length_eq_killed_add_alive (entriesFor entries entry.1 stat.moduleFunc)
    have htestedNat : stat.tested.toNat = (entriesFor entries entry.1 stat.moduleFunc).length := by
      rw [htested, UInt32.toNat_ofNat', Nat.mod_eq_of_lt hmine]
    have hkilledNat : stat.killed.toNat =
        ((entriesFor entries entry.1 stat.moduleFunc).filter (·.outcome.isKilled)).length := by
      rw [hkilled, UInt32.toNat_ofNat', Nat.mod_eq_of_lt hmineKilled]
    rw [htestedNat, hkilledNat, hdiffs]
    exact ⟨hsplit, rfl⟩
  · rw [mutantsTested_runSpecTestReport, UInt32.toNat_ofNat', Nat.mod_eq_of_lt hbound]
  · rw [mutantsKilled_runSpecTestReport, UInt32.toNat_ofNat', Nat.mod_eq_of_lt hkilledLe]

/-- Two mutants of `m::f` in `sources/m.move`, one killed and one surviving. -/
def sampleEntries : List (MutantEntry String) :=
  [⟨"sources/m.move", "m::f", .killed⟩, ⟨"sources/m.move", "m::f", .alive "diff"⟩]

theorem runSpecTestReport_counts_sample :
    sampleEntries.length < 2 ^ 32 ∧
    ((runSpecTestReport sampleEntries).WellFormed ∧
    (∀ entry ∈ (runSpecTestReport sampleEntries).files, ∀ stat ∈ entry.2,
      stat.tested.toNat = stat.killed.toNat + stat.mutantsAliveDiffs.length ∧
      stat.tested.toNat = (entriesFor sampleEntries entry.1 stat.moduleFunc).length) ∧
    (runSpecTestReport sampleEntries).mutantsTested.toNat = sampleEntries.length ∧
    (runSpecTestReport sampleEntries).mutantsKilled.toNat =
      (sampleEntries.filter (·.outcome.isKilled)).length) :=
  ⟨by decide, runSpecTestReport_counts sampleEntries (by decide)⟩

end AptosCore.SpecTest
