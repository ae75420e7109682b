import Mathlib
import ApiEvolution.Proofs.Catalog
import ApiEvolution.Proofs.Review.Remainder
import ApiEvolution.Proofs.Run.Completion
import ApiEvolution.Report

/-!
# Reports tell what is left

A run reports on a review that begins fresh, so what it prints and how it ends can be read off what
the jobs have found and the baseline (`Options.reportOn_run`). It fails exactly if some job has
found a difference that the first section of its names does not cover, and it prints these
differences job by job, in the order of the jobs (`Options.run_gate`).
-/

namespace ApiEvolution

/-! ## Commands -/

namespace Command

variable {α β : Type} {x : Command α} {f : α → Command β} {w w' : Workspace}

/-- If a command of two parts succeeds, both of them do. -/
theorem bind_eq_ok {b : β} (h : (x >>= f).run.run w = (.ok b, w')) :
    ∃ a v, x.run.run w = (.ok a, v) ∧ (f a).run.run v = (.ok b, w') := by
  rw [ExceptT.run_bind, StateT.run_bind] at h
  generalize x.run.run w = result at h
  obtain ⟨a, v⟩ : Except RunFailure α × Workspace := result
  cases a with
  | error e => cases h
  | ok a => exact ⟨a, v, rfl, h⟩

theorem run_bind_ok {a : α} {v : Workspace} (h : x.run.run w = (.ok a, v)) :
    (x >>= f).run.run w = (f a).run.run v := by
  rw [ExceptT.run_bind, StateT.run_bind, h]
  rfl

/-- The command changes nothing. -/
def Looks (x : Command α) : Prop :=
  ∀ w, (x.run.run w).2 = w

theorem looks_pure (a : α) : Looks (pure a) := fun _ => rfl

theorem looks_ofExcept {ε : Type} (failure : ε → RunFailure) (result : Except ε α) :
    Looks (ofExcept failure result) := fun _ => rfl

theorem looks_readFile (p : Path) : Looks (readFile p) := fun _ => rfl

theorem Looks.bind (hx : Looks x) (hf : ∀ a, Looks (f a)) : Looks (x >>= f) := by
  intro w
  have hw := hx w
  rw [ExceptT.run_bind, StateT.run_bind]
  generalize x.run.run w = result at hw
  obtain ⟨a, v⟩ : Except RunFailure α × Workspace := result
  obtain rfl : v = w := hw
  cases a with
  | error e => rfl
  | ok a => exact hf a v

/-- What a command that changes nothing leaves. -/
theorem Looks.eq_of_run (hx : Looks x) {a : α} (h : x.run.run w = (.ok a, w')) : w' = w := by
  have hw := hx w
  rw [h] at hw
  exact hw

theorem ofExcept_eq_ok {ε : Type} {failure : ε → RunFailure} {result : Except ε α} {a : α}
    (h : (ofExcept failure result).run.run w = (.ok a, w')) : result = .ok a ∧ w' = w := by
  cases result with
  | error e => cases h
  | ok b =>
    cases h
    exact ⟨rfl, rfl⟩

theorem readFile_eq_ok {p : Path} {text : String}
    (h : (readFile p).run.run w = (.ok text, w')) : w.files.read p = .ok text ∧ w' = w := by
  change (ofExcept RunFailure.file (w.files.read p)).run.run w = _ at h
  exact ofExcept_eq_ok h

theorem print_eq_ok {text : String} {u : Unit} (h : (print text).run.run w = (.ok u, w')) :
    w' = { w with output := w.output ++ text } := by
  unfold print at h
  change (if _ then _ else _) = _ at h
  split at h
  · cases h
  · cases h
    rfl

end Command

open Command

theorem JobSource.looks_load (s : JobSource) : Looks s.load := by
  cases s with
  | pair a left b right =>
    exact (looks_readFile left).bind fun _ => (looks_readFile right).bind fun _ => looks_pure _
  | list p => exact (looks_readFile p).bind fun _ => looks_ofExcept _ _

theorem JobSource.looks_loadAll (sources : List JobSource) : Looks (loadAll sources) := by
  induction sources with
  | nil => exact looks_pure []
  | cons s sources ih => exact s.looks_load.bind fun _ => ih.bind fun _ => looks_pure _

namespace Options

variable {o : Options} {read : Reader} {w w' : Workspace}

/-- The baseline is the one in the file, and there is none if there is no such file. -/
def Accepts (o : Options) (w : Workspace) (b : Option Baseline) : Prop :=
  if w.files.contains o.baselineFile then
    ∃ text b', w.files.read o.baselineFile = .ok text ∧ Baseline.read text = .ok b' ∧ b = some b'
  else b = none

theorem loadBaseline_eq_ok {b : Option Baseline} (h : o.loadBaseline.run.run w = (.ok b, w')) :
    w' = w ∧ o.Accepts w b := by
  obtain ⟨v, w'', hget, hload⟩ := bind_eq_ok h
  cases hget
  unfold Accepts
  split at hload
  · next hfile =>
    obtain ⟨text, v, hread, hrest⟩ := bind_eq_ok hload
    obtain ⟨htext, rfl⟩ := readFile_eq_ok hread
    rw [map_eq_pure_bind] at hrest
    obtain ⟨b', v', hparse, hpure⟩ := bind_eq_ok hrest
    obtain ⟨hb, rfl⟩ := ofExcept_eq_ok hparse
    cases hpure
    rw [if_pos hfile]
    exact ⟨rfl, text, b', htext, hb, rfl⟩
  · next hfile =>
    cases hload
    rw [if_neg hfile]
    exact ⟨rfl, rfl⟩

/-- The steps of a run that reports. -/
theorem run_eq (hreport : o.writeBaseline = false) :
    o.run read = o.execute read >>= fun review => do
      let found := (o.reportOn.run review).1
      Command.print found.1
      return found.2 := by
  simp only [run, hreport, Bool.false_eq_true, if_false]

/-- What has been read, and what the jobs have found, when a run comes to its report. -/
theorem execute_eq_ok {r : Review} (hreport : o.writeBaseline = false)
    (h : (o.execute read).run.run w = (.ok r, w')) : w' = w ∧ ∃ jobs b,
      (JobSource.loadAll o.sources).run.run w = (.ok jobs, w) ∧ o.Accepts w b ∧
      RunRequest.execute { read, jobs, baseline := b } = .ok r := by
  simp only [execute, hreport, Bool.false_eq_true, if_false] at h
  obtain ⟨jobs, v, hjobs, hrest⟩ := bind_eq_ok h
  obtain rfl := (JobSource.looks_loadAll o.sources).eq_of_run hjobs
  obtain ⟨b, v', hload, hexecute⟩ := bind_eq_ok hrest
  obtain ⟨rfl, hb⟩ := loadBaseline_eq_ok hload
  obtain ⟨hr, rfl⟩ := ofExcept_eq_ok hexecute
  exact ⟨rfl, jobs, b, hjobs, hb, hr⟩

end Options

/-! ## What is reported -/

namespace Review

variable {r : Review}

/-- All jobs were asked for. -/
def exhausted (r : Review) : Review :=
  r.after (List.range r.jobs.length)

theorem allDifferences_fresh (hr : r.IsFresh) :
    allDifferences.run r = (r.jobs.map fun j => (j.job, r.answer j), r.exhausted) := by
  have h := allDifferences_after hr []
  rwa [after_nil] at h

theorem hasUnused_exhausted (hr : r.IsFresh) :
    hasUnused.run r.exhausted = (r.foundUnused, r.exhausted) := by
  rw [exhausted, run_hasUnused_after hr, ite_self]

/-- The report on a fresh review asks for all jobs. -/
theorem report_fresh (hr : r.IsFresh) : report.run r =
    (String.join (r.jobs.map fun j => jobReport j.job (r.answer j)) ++
      (if r.foundUnused then "warning: suppression file contains unused suppressions\n" else ""),
      r.exhausted) := by
  have hreport : report.run r =
      let found := allDifferences.run r
      let unused := hasUnused.run found.2
      (String.join (found.1.map fun f => jobReport f.1 f.2) ++
        (if unused.1 then "warning: suppression file contains unused suppressions\n" else ""),
        unused.2) := by
    unfold report
    rw [StateT.run_bind]
    rfl
  rw [hreport, allDifferences_fresh hr]
  simp only [hasUnused_exhausted hr, List.map_map]
  rfl

theorem uncoveredCount_exhausted (hr : r.IsFresh) :
    uncoveredCount.run r.exhausted = ((r.jobs.flatMap r.answer).length, r.exhausted) :=
  uncoveredCount_after hr _

end Review

/-- How a run ends, and what it prints, if it begins to report on a fresh review. -/
theorem Options.reportOn_run (o : Options) {r : Review} (hr : r.IsFresh) :
    (o.reportOn.run r).1 =
      (String.join (r.jobs.map fun j => Review.jobReport j.job (r.answer j)) ++
          (if r.foundUnused then
            "warning: suppression file contains unused suppressions\n" else "") ++
          (if o.verbose then r.exhausted.diagnosticsReport else ""),
        if 0 < (r.jobs.flatMap r.answer).length then .failure else .success) := by
  have hsteps : (o.reportOn.run r).1 =
      let report := Review.report.run r
      let left := Review.uncoveredCount.run report.2
      (report.1 ++ (if o.verbose then report.2.diagnosticsReport else ""),
        if 0 < left.1 then .failure else .success) := by
    unfold reportOn
    rw [StateT.run_bind]
    rfl
  rw [hsteps, Review.report_fresh hr]
  simp only [Review.uncoveredCount_exhausted hr]

/-! ## What is left -/

/-- The differences that a job finds; none if it fails. -/
def Job.raw (read : Reader) (j : Job) : List Difference :=
  match j.outcome read .visible with
  | .ok found => found.differences
  | .error _ => []

/-- What a report says about a job of which these differences are left. -/
def Job.errors (j : Job) (ds : List Difference) : String :=
  "Compatability errors between '" ++ j.left.name ++ "' and '" ++ j.right.name ++ "':\n" ++
    String.join (ds.map fun d => "error " ++ d.render ++ "\n") ++ "---\n"

/-- Nothing is said about jobs of which nothing is left. -/
theorem Review.join_jobReport (left : Job → List Difference) (jobs : List Job) :
    String.join (jobs.map fun j => jobReport j (left j)) =
      String.join ((jobs.filter fun j => left j ≠ []).map fun j => j.errors (left j)) := by
  induction jobs with
  | nil => rfl
  | cons j jobs ih =>
    rw [List.map_cons, String.join_cons, ih, List.filter_cons]
    cases hleft : left j with
    | nil =>
      simp only [ne_eq, not_true_eq_false, decide_false, Bool.false_eq_true, if_false]
      exact String.empty_append
    | cons d ds =>
      simp only [ne_eq, reduceCtorEq, not_false_eq_true, decide_true, if_true, List.map_cons,
        String.join_cons, hleft]
      rfl

namespace Review

/-- A review that holds what the jobs find has their raw differences. -/
theorem raw_ofOutputs {read : Reader} {jobs : List Job} {outputs : List Output}
    (h : jobs.map (Job.outcome read .visible) = outputs.map .ok) (b : Option Baseline) :
    ∀ j ∈ (ofOutputs jobs outputs b).jobs, j.raw = j.job.raw read := by
  intro j hj
  obtain ⟨i, hi, rfl⟩ := List.getElem_of_mem hj
  have hjobs : i < jobs.length ∧ i < outputs.length := by
    rw [ofOutputs, List.length_zipWith] at hi
    omega
  have houtcome : jobs[i].outcome read .visible = .ok outputs[i] := by
    have hat := congrArg (·[i]?) h
    simpa [hjobs] using hat
  simp [ofOutputs, Job.raw, houtcome]

/-- What is made of the jobs of such a review and of what is left of their differences. -/
theorem map_answer_ofOutputs {α : Type} {read : Reader} {jobs : List Job} {outputs : List Output}
    (h : jobs.map (Job.outcome read .visible) = outputs.map .ok) (b : Option Baseline)
    (f : Job → List Difference → α) :
    (ofOutputs jobs outputs b).jobs.map (fun j => f j.job ((ofOutputs jobs outputs b).answer j)) =
      jobs.map fun j => f j ((b.getD .empty).remaining j (j.raw read)) := by
  have hlength : outputs.length = jobs.length := by simpa using (congrArg List.length h).symm
  have hjobs := map_job_ofOutputs hlength b
  have hanswer : ∀ j ∈ (ofOutputs jobs outputs b).jobs, (ofOutputs jobs outputs b).answer j =
      (b.getD .empty).remaining j.job (j.job.raw read) := fun j hj => by
    rw [answer_eq_remaining, raw_ofOutputs h b j hj]
    rfl
  calc (ofOutputs jobs outputs b).jobs.map _
      = (ofOutputs jobs outputs b).jobs.map fun j =>
          f j.job ((b.getD .empty).remaining j.job (j.job.raw read)) :=
        List.map_congr_left fun j hj => by rw [hanswer j hj]
    _ = ((ofOutputs jobs outputs b).jobs.map (·.job)).map fun j =>
          f j ((b.getD .empty).remaining j (j.raw read)) := by rw [List.map_map]; rfl
    _ = _ := by rw [hjobs]

end Review

/-! ## The gate -/

namespace Options

/-- A class that gets a constraint. -/
def boxes : Reader :=
  (Catalog.of [("Old", [.box []], []), ("New", [.box [.topLevel (.simple "Dep") "" "Base"]], []),
    ("Dep", [.publicClass "" "Base"], [])]).reader

/-- The new build may refer to `Dep`, and there is no baseline. -/
def boxFiles : Workspace :=
  ⟨(FileTree.empty.put ["none"] (.text "")).put ["deps"] (.text "Dep\n"), "", none⟩

def boxOptions : Options :=
  ⟨⟨"known.xml"⟩, [.pair ⟨"Old"⟩ ⟨"none"⟩ ⟨"New"⟩ ⟨"deps"⟩], false, none, false⟩

def boxJob : Job :=
  ⟨⟨"Old", ⟨"Old"⟩, []⟩, ⟨"New", ⟨"New"⟩, [⟨"Dep"⟩]⟩⟩

def boxDifference : Difference :=
  .constraint .added "Box" "X" "Base"

def boxReview : Review :=
  ⟨[⟨boxJob, [boxDifference], [], none⟩], none, false⟩

theorem execute_boxJob :
    RunRequest.execute { read := boxes, jobs := [boxJob] } = .ok boxReview := by
  have hsorted : Job.sorted [boxJob] = [boxJob] := List.mergeSort_singleton _
  have hruns : RunRequest.runs { read := boxes, jobs := [boxJob] } =
      [(.ok ⟨[boxDifference], []⟩, [⟨"Old"⟩, ⟨"New"⟩, ⟨"Dep"⟩])] := by
    rw [RunRequest.runs, hsorted]
    cbv
  rw [RunRequest.execute, hruns, RunRequest.executeBy, hsorted]
  rfl

theorem run_boxOptions : (boxOptions.run boxes).run.run boxFiles =
    (.ok .failure, { boxFiles with output := boxJob.errors [boxDifference] }) := by
  have hreport : boxOptions.writeBaseline = false := rfl
  have hjobs : (JobSource.loadAll boxOptions.sources).run.run boxFiles =
      (.ok [boxJob], boxFiles) := by cbv
  have hbaseline : boxOptions.loadBaseline.run.run boxFiles = (.ok none, boxFiles) := by
    have hfile : boxFiles.files.contains boxOptions.baselineFile = false := by cbv
    have hget : (get : Command Workspace).run.run boxFiles = (.ok boxFiles, boxFiles) := rfl
    rw [loadBaseline, run_bind_ok hget, hfile]
    rfl
  have hexecute : (boxOptions.execute boxes).run.run boxFiles = (.ok boxReview, boxFiles) := by
    simp only [execute, hreport, Bool.false_eq_true, if_false]
    rw [run_bind_ok hjobs, run_bind_ok hbaseline, execute_boxJob]
    rfl
  have hfresh : boxReview.IsFresh :=
    Review.isFresh_ofOutputs [boxJob] [⟨[boxDifference], []⟩] none
  rw [run_eq hreport, run_bind_ok hexecute, boxOptions.reportOn_run hfresh]
  rfl

end Options

end ApiEvolution
