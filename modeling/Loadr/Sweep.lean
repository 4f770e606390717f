import Mathlib.Data.List.Induction
import Mathlib.Data.String.Basic

/-!
# Parameter sweeps

`loadr sweep` runs a plan once for every combination of the values of its axes.  Each run exports
its summary to a file named after the combination, and the rows are read from these files.
-/

namespace Loadr.Sweep

open List Function

/-- One `--var`, whose values `parse_var` gets by splitting at commas. -/
structure SweepVar where
  name : String
  values : List String
  nonempty : values ≠ []

abbrev Combo := List (String × String)

def expandMatrix (vars : List SweepVar) : List Combo :=
  vars.foldl (fun combos var => combos.flatMap fun combo =>
    var.values.map fun value => combo ++ [(var.name, value)]) [[]]

def comboLabel (combo : Combo) : String :=
  " ".intercalate (combo.map fun (n, v) => n ++ "=" ++ v)

def slugChar (c : Char) : Char :=
  if c.isAlphanum || c == '.' then c else '-'

def sanitize (s : String) : String := String.ofList (s.toList.map slugChar)

def slugPart (p : String × String) : String := sanitize p.1 ++ "-" ++ sanitize p.2

def comboSlug (combo : Combo) : String := "_".intercalate (combo.map slugPart)

def exportName (combo : Combo) : String := "sweep-" ++ comboSlug combo ++ ".json"

/-! ## Runs -/

/-- What a spawned process did: its exit code, and the export that it wrote if it got that far. -/
structure Child where
  code : ℤ
  wrote : Option String

structure Job where
  combo : Combo
  child : Option Child

abbrev Files := String → Option String

structure SweepResult (Summary : Type*) where
  label : String
  exportFile : String
  exitCode : ℤ
  summary : Option Summary

section Run

variable {Summary : Type*} (parse : String → Option Summary)

def run (job : Job) (files : Files) : Option (Summary × ℤ) × Files :=
  match job.child with
  | none => (none, files)
  | some child =>
    let name := exportName job.combo
    let files := match child.wrote with
      | some text => update files name (some text)
      | none => files
    (((files name).bind parse).map fun summary => (summary, child.code), files)

def runSweep : List Job → Files → List (SweepResult Summary)
  | [], _ => []
  | job :: jobs, files =>
    let (outcome, files) := run parse job files
    { label := comboLabel job.combo, exportFile := exportName job.combo,
      exitCode := (outcome.map Prod.snd).getD (-1), summary := outcome.map Prod.fst } ::
      runSweep jobs files

def sweepJobs (vars : List SweepVar) (child : ℕ → Option Child) : List Job :=
  (expandMatrix vars).mapIdx fun i combo => ⟨combo, child i⟩

def Job.wrote (job : Job) : Option String := job.child.bind Child.wrote

/-- What is under the name after the jobs: the export of the last of them that wrote one there. -/
def leftBehind (files : Files) (jobs : List Job) (name : String) : Option String :=
  (jobs.reverse.findSome? fun job => if exportName job.combo = name then job.wrote else none).or
    (files name)

variable {parse}

theorem run_files (job : Job) (files : Files) (name : String) :
    (run parse job files).2 name =
      (if exportName job.combo = name then job.wrote else none).or (files name) := by
  obtain ⟨combo, _ | ⟨code, _ | text⟩⟩ := job
  · simp [run, Job.wrote]
  · simp [run, Job.wrote]
  · by_cases hname : exportName combo = name
    · subst hname
      simp [run, Job.wrote]
    · simp [run, hname, update_of_ne (Ne.symm hname)]

theorem leftBehind_cons (parse : String → Option Summary) (job : Job) (jobs : List Job)
    (files : Files) : leftBehind files (job :: jobs) = leftBehind (run parse job files).2 jobs := by
  funext name
  simp [leftBehind, run_files, findSome?_append, Option.or_assoc]

theorem run_summary (job : Job) (files : Files) :
    (run parse job files).1.map Prod.fst = job.wrote.bind parse ↔
      (job.child.isSome → job.wrote = none → (files (exportName job.combo)).bind parse = none) := by
  obtain ⟨combo, _ | ⟨code, _ | text⟩⟩ := job
  · simp [run, Job.wrote]
  · simp [run, Job.wrote]
  · simp [run, Job.wrote, Function.comp_def]

theorem runSweep_summaries (jobs : List Job) (files : Files) :
    (runSweep parse jobs files).map SweepResult.summary =
        jobs.map (fun job => job.wrote.bind parse) ↔
      ∀ i, ∀ job ∈ jobs[i]?, job.child.isSome → job.wrote = none →
        (leftBehind files (jobs.take i) (exportName job.combo)).bind parse = none := by
  induction jobs generalizing files with
  | nil => simp [runSweep]
  | cons job jobs ih =>
    rw [← Nat.and_forall_add_one]
    simp only [runSweep, map_cons, cons.injEq, run_summary, ih, take_succ_cons,
      getElem?_cons_succ, leftBehind_cons parse]
    simp [leftBehind]

end Run

/-! ## Export files -/

theorem mem_expandMatrix_append {vars : List SweepVar} {var : SweepVar} {combo : Combo} :
    combo ∈ expandMatrix (vars ++ [var]) ↔
      ∃ c ∈ expandMatrix vars, ∃ v ∈ var.values, c ++ [(var.name, v)] = combo := by
  simp [expandMatrix]

theorem exists_mem_expandMatrix (vars : List SweepVar) : ∃ combo, combo ∈ expandMatrix vars := by
  induction vars using reverseRecOn with
  | nil => exact ⟨[], by simp [expandMatrix]⟩
  | append_singleton vars var ih =>
    obtain ⟨c, hc⟩ := ih
    obtain ⟨v, hv⟩ := exists_mem_of_ne_nil _ var.nonempty
    exact ⟨_, mem_expandMatrix_append.2 ⟨c, hc, v, hv, rfl⟩⟩

theorem slugPart_ne (p : String × String) : '_' ∉ (slugPart p).toList := by
  have hchar : ∀ c : Char, slugChar c ≠ '_' := by
    intro c
    unfold slugChar
    split_ifs with h
    · rintro rfl
      simp at h
    · decide
  simp [slugPart, sanitize, hchar]

theorem slugPart_inj {n v w : String} : slugPart (n, v) = slugPart (n, w) ↔
    sanitize v = sanitize w := by
  simp [slugPart]

/-- The parts of a slug can be told apart, since they contain no underscore. -/
theorem comboSlug_inj {c d : Combo} :
    comboSlug c = comboSlug d ↔ c.map slugPart = d.map slugPart := by
  have hsplit : ∀ {c : Combo}, c ≠ [] →
      (comboSlug c).toList.splitOn '_' = (c.map slugPart).map String.toList := by
    intro c hc
    rw [comboSlug, String.toList_intercalate]
    refine splitOn_intercalate '_' ?_ (by simpa using hc)
    simpa using fun _ n v _ h => h ▸ slugPart_ne (n, v)
  have hempty : ∀ {c : Combo}, comboSlug c = "" → c = [] := by
    intro c h
    by_contra hc
    have h' := hsplit hc
    obtain ⟨p, c, rfl⟩ := exists_cons_of_ne_nil hc
    simp [h, slugPart] at h'
  refine ⟨fun h => ?_, fun h => by rw [comboSlug, h, comboSlug]⟩
  by_cases hc : c = []
  · subst hc
    rw [hempty (c := d) (h.symm.trans rfl)]
  · by_cases hd : d = []
    · subst hd
      exact absurd (hempty (h.trans rfl)) hc
    · exact map_injective_iff.2 (fun _ _ => String.toList_injective)
        ((hsplit hc).symm.trans (h ▸ hsplit hd))

theorem exportName_inj {c d : Combo} :
    exportName c = exportName d ↔ c.map slugPart = d.map slugPart := by
  rw [← comboSlug_inj]
  simp [exportName]

theorem exports_distinct (vars : List SweepVar) :
    (∀ c ∈ expandMatrix vars, ∀ d ∈ expandMatrix vars, exportName c = exportName d → c = d) ↔
      ∀ var ∈ vars, ∀ v ∈ var.values, ∀ w ∈ var.values, sanitize v = sanitize w → v = w := by
  simp only [exportName_inj]
  induction vars using reverseRecOn with
  | nil => simp [expandMatrix]
  | append_singleton vars var ih =>
    obtain ⟨c₀, hc₀⟩ := exists_mem_expandMatrix vars
    obtain ⟨v₀, hv₀⟩ := exists_mem_of_ne_nil _ var.nonempty
    simp only [forall_mem_append, ← ih, forall_mem_singleton, mem_expandMatrix_append]
    constructor
    · refine fun h => ⟨fun c hc d hd he => ?_, fun v hv w hw he => ?_⟩
      · simpa using h _ ⟨c, hc, v₀, hv₀, rfl⟩ _ ⟨d, hd, v₀, hv₀, rfl⟩ (by simp [he])
      · simpa using h _ ⟨c₀, hc₀, v, hv, rfl⟩ _ ⟨c₀, hc₀, w, hw, rfl⟩
          (by simpa using slugPart_inj.2 he)
    · rintro ⟨hprev, hlast⟩ _ ⟨c, hc, v, hv, rfl⟩ _ ⟨d, hd, w, hw, rfl⟩ he
      rw [map_append, map_append] at he
      obtain ⟨hinit, hpart⟩ := append_inj' he rfl
      rw [hprev c hc d hd hinit, hlast v hv w hw (slugPart_inj.1 (cons.inj hpart).1)]

/-- Rows report their own runs exactly if the values of each axis have different slugs and no run
that exports nothing finds a summary under its name. -/
theorem rows_own_iff {Summary : Type*} (parse : String → Option Summary) (vars : List SweepVar)
    (child : ℕ → Option Child) (files : Files) :
    ((∀ c ∈ expandMatrix vars, ∀ d ∈ expandMatrix vars, exportName c = exportName d → c = d) ∧
      (runSweep parse (sweepJobs vars child) files).map SweepResult.summary =
        (sweepJobs vars child).map fun job => job.wrote.bind parse) ↔
    (∀ var ∈ vars, ∀ v ∈ var.values, ∀ w ∈ var.values, sanitize v = sanitize w → v = w) ∧
      ∀ i, ∀ job ∈ (sweepJobs vars child)[i]?, job.child.isSome → job.wrote = none →
        (leftBehind files ((sweepJobs vars child).take i) (exportName job.combo)).bind parse =
          none :=
  and_congr (exports_distinct vars) (runSweep_summaries _ _)

/-- The second run ends before it exports, and its row shows the summary of the first. -/
theorem rows_shared :
    (runSweep some (sweepJobs [⟨"rate", ["50/s", "50-s"], by decide⟩]
      fun i => some (if i = 0 then ⟨0, some "first"⟩ else ⟨1, none⟩)) fun _ => none).map
        (fun row => (row.label, row.exportFile, row.summary)) =
      [("rate=50/s", "sweep-rate-50-s.json", some "first"),
        ("rate=50-s", "sweep-rate-50-s.json", some "first")] := by
  decide +kernel

end Loadr.Sweep
