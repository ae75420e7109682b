import Mathlib
import ApiEvolution.Proofs.Report
import ApiEvolution.Proofs.Universe.Runs

/-!
# Runs that fail

A run reads its sources and the baseline and compares its jobs, and only then it writes. What it
does before that changes nothing (`Options.looks_compareBy`), so whatever stops it there leaves no
trace; and it does stop if a source is faulty, if the baseline cannot be read, or if an assembly of
a job cannot be loaded (`Options.compareBy_ne_ok`). Nothing of this depends on how the jobs are
scheduled.
-/

namespace ApiEvolution

/-! ## Commands that fail -/

namespace Command

variable {α β : Type} {x : Command α} {f : α → Command β} {w w' : Workspace} {e : RunFailure}

theorem run_bind_error (h : x.run.run w = (.error e, w')) :
    (x >>= f).run.run w = (.error e, w') := by
  rw [ExceptT.run_bind, StateT.run_bind, h]
  rfl

/-- If a command of two parts fails, one of them does. -/
theorem bind_eq_error (h : (x >>= f).run.run w = (.error e, w')) :
    x.run.run w = (.error e, w') ∨
      ∃ a v, x.run.run w = (.ok a, v) ∧ (f a).run.run v = (.error e, w') := by
  rw [ExceptT.run_bind, StateT.run_bind] at h
  generalize x.run.run w = result at h
  obtain ⟨a, v⟩ : Except RunFailure α × Workspace := result
  cases a with
  | error e' =>
    cases h
    exact .inl rfl
  | ok a => exact .inr ⟨a, v, rfl, h⟩

theorem ofExcept_eq_error {ε : Type} {failure : ε → RunFailure} {result : Except ε α}
    (h : (ofExcept failure result).run.run w = (.error e, w')) :
    ∃ cause, result = .error cause ∧ e = failure cause ∧ w' = w := by
  cases result with
  | error cause =>
    cases h
    exact ⟨cause, rfl, rfl, rfl⟩
  | ok a => cases h

theorem readFile_eq_error {p : Path} (h : (readFile p).run.run w = (.error e, w')) :
    ∃ cause, w.files.read p = .error cause ∧ e = .file cause ∧ w' = w := by
  change (ofExcept RunFailure.file (w.files.read p)).run.run w = _ at h
  exact ofExcept_eq_error h

theorem writeFile_eq_error {p : Path} {text : String}
    (h : (writeFile p text).run.run w = (.error e, w')) : w' = w ∧ ∃ cause, e = .file cause := by
  change writeFile p text w = _ at h
  unfold writeFile at h
  split at h
  · cases h
  · next cause _ =>
    cases h
    exact ⟨rfl, cause, rfl⟩

theorem print_eq_error {text : String} (h : (print text).run.run w = (.error e, w')) :
    w' = w ∧ ∃ cause, e = .file cause := by
  unfold print at h
  change (if _ then _ else _) = _ at h
  split at h
  · cases h
    exact ⟨rfl, _, rfl⟩
  · cases h

/-- A command that changes nothing and cannot succeed fails without a trace. -/
theorem Looks.fails (hx : Looks x) (h : ∀ a, x.run.run w ≠ (.ok a, w)) :
    ∃ e, x.run.run w = (.error e, w) := by
  have hw := hx w
  generalize x.run.run w = result at hw h
  obtain ⟨a, v⟩ : Except RunFailure α × Workspace := result
  obtain rfl : v = w := hw
  cases a with
  | error e => exact ⟨e, rfl⟩
  | ok a => exact absurd rfl (h a)

/-- The command changes no file. -/
def SparesFiles (x : Command α) : Prop :=
  ∀ w, (x.run.run w).2.files = w.files

theorem Looks.sparesFiles (hx : Looks x) : SparesFiles x := fun w => by rw [hx w]

theorem SparesFiles.bind (hx : SparesFiles x) (hf : ∀ a, SparesFiles (f a)) :
    SparesFiles (x >>= f) := by
  intro w
  have hw := hx w
  rw [ExceptT.run_bind, StateT.run_bind]
  generalize x.run.run w = result at hw
  obtain ⟨a, v⟩ : Except RunFailure α × Workspace := result
  cases a with
  | error e => exact hw
  | ok a => exact (hf a v).trans hw

theorem sparesFiles_print (text : String) : SparesFiles (print text) := by
  intro w
  unfold print
  change (if _ then _ else _ : Except RunFailure Unit × Workspace).2.files = w.files
  split <;> rfl

end Command

open Command

/-! ## Sources -/

namespace JobSource

variable {files : FileTree} {w w' : Workspace}

/-- A file of the source cannot be read, or it is no list of jobs. -/
def Faulty (files : FileTree) : JobSource → Prop
  | pair _ left _ right => ∃ p ∈ [left, right], ∃ e, files.read p = .error e
  | list p => (∃ e, files.read p = .error e) ∨
      ∃ text e, files.read p = .ok text ∧ JobList.parse text p.text = .error e

/-- A source that could be loaded is not faulty. -/
theorem not_faulty_of_load {s : JobSource} {jobs : List Job}
    (h : s.load.run.run w = (.ok jobs, w')) : ¬s.Faulty w.files := by
  intro hs
  cases s with
  | pair a left b right =>
    obtain ⟨text, v, hleft, hrest⟩ := bind_eq_ok h
    obtain ⟨htext, rfl⟩ := readFile_eq_ok hleft
    obtain ⟨text', v', hright, -⟩ := bind_eq_ok hrest
    obtain ⟨htext', rfl⟩ := readFile_eq_ok hright
    obtain ⟨p, hp, e, he⟩ := hs
    simp only [List.mem_cons, List.not_mem_nil, or_false] at hp
    obtain rfl | rfl := hp
    · cases htext.symm.trans he
    · cases htext'.symm.trans he
  | list p =>
    obtain ⟨text, v, hread, hparse⟩ := bind_eq_ok h
    obtain ⟨htext, rfl⟩ := readFile_eq_ok hread
    obtain ⟨hjobs, -⟩ := ofExcept_eq_ok hparse
    obtain ⟨e, he⟩ | ⟨text', e, he, hfault⟩ := hs
    · cases htext.symm.trans he
    · obtain rfl : text = text' := Except.ok.inj (htext.symm.trans he)
      cases hjobs.symm.trans hfault

theorem faulty_of_load {s : JobSource} {e : RunFailure}
    (h : s.load.run.run w = (.error e, w')) : s.Faulty w.files := by
  cases s with
  | pair a left b right =>
    rcases bind_eq_error h with hleft | ⟨text, v, hleft, hrest⟩
    · obtain ⟨cause, hread, -, -⟩ := readFile_eq_error hleft
      exact ⟨left, List.mem_cons_self, cause, hread⟩
    · obtain ⟨-, rfl⟩ := readFile_eq_ok hleft
      rcases bind_eq_error hrest with hright | ⟨text', v', -, hpure⟩
      · obtain ⟨cause, hread, -, -⟩ := readFile_eq_error hright
        exact ⟨right, List.mem_cons_of_mem _ List.mem_cons_self, cause, hread⟩
      · cases hpure
  | list p =>
    rcases bind_eq_error h with hread | ⟨text, v, hread, hparse⟩
    · obtain ⟨cause, hfile, -, -⟩ := readFile_eq_error hread
      exact .inl ⟨cause, hfile⟩
    · obtain ⟨htext, rfl⟩ := readFile_eq_ok hread
      obtain ⟨cause, hfault, -, -⟩ := ofExcept_eq_error hparse
      exact .inr ⟨text, cause, htext, hfault⟩

/-- If all sources could be loaded, each of them could, and their jobs are put together. -/
theorem loadAll_eq_ok {sources : List JobSource} {jobs : List Job}
    (h : (loadAll sources).run.run w = (.ok jobs, w')) :
    (∀ s ∈ sources, ∃ part, s.load.run.run w = (.ok part, w) ∧ ∀ j ∈ part, j ∈ jobs) ∧
      ∀ j ∈ jobs, ∃ s ∈ sources, ∃ part, s.load.run.run w = (.ok part, w) ∧ j ∈ part := by
  induction sources generalizing jobs w' with
  | nil =>
    cases h
    simp
  | cons s sources ih =>
    obtain ⟨part, v, hpart, hrest⟩ := bind_eq_ok h
    obtain rfl := s.looks_load.eq_of_run hpart
    obtain ⟨rest, v', hsources, hpure⟩ := bind_eq_ok hrest
    cases hpure
    obtain ⟨hparts, hjobs⟩ := ih hsources
    refine ⟨fun s' hs => ?_, fun j hj => ?_⟩
    · obtain rfl | hs := List.mem_cons.1 hs
      · exact ⟨part, hpart, fun j hj => List.mem_append_left _ hj⟩
      · obtain ⟨part', hpart', hin⟩ := hparts s' hs
        exact ⟨part', hpart', fun j hj => List.mem_append_right _ (hin j hj)⟩
    · obtain hj | hj := List.mem_append.1 hj
      · exact ⟨s, List.mem_cons_self, part, hpart, hj⟩
      · obtain ⟨s', hs, part', hpart', hin⟩ := hjobs j hj
        exact ⟨s', List.mem_cons_of_mem _ hs, part', hpart', hin⟩

theorem loadAll_eq_error {sources : List JobSource} {e : RunFailure}
    (h : (loadAll sources).run.run w = (.error e, w')) : ∃ s ∈ sources, s.Faulty w.files := by
  induction sources with
  | nil => cases h
  | cons s sources ih =>
    rcases bind_eq_error h with hs | ⟨part, v, hpart, hrest⟩
    · exact ⟨s, List.mem_cons_self, faulty_of_load hs⟩
    · obtain rfl := s.looks_load.eq_of_run hpart
      rcases bind_eq_error hrest with hsources | ⟨rest, v', -, hpure⟩
      · obtain ⟨s', hs, hfaulty⟩ := ih hsources
        exact ⟨s', List.mem_cons_of_mem _ hs, hfaulty⟩
      · cases hpure

end JobSource

/-! ## Jobs -/

namespace Job

variable {read : Reader} {s : Selection} {j : Job}

/-- The assembly of one of the builds cannot be loaded. -/
def Unloadable (read : Reader) (j : Job) : Prop :=
  ∃ b ∈ [j.left, j.right], ∃ e, read b.assembly = .error e

/-- A build loads exactly if its assembly does; what it refers to has no part in it. -/
theorem load_eq_error {b : Build} {context : Nat} {e : LoadError} :
    (b.load read context).1 = .error e ↔ read b.assembly = .error e := by
  cases hr : read b.assembly with
  | error e' =>
    rw [Build.load, Universe.loadPrimary_run_error hr]
    simp only [Except.error.injEq]
  | ok a =>
    rw [Build.load, Universe.loadPrimary_run_ok hr, StateT.run_map]
    constructor <;> intro h <;> cases h

theorem outcome_eq_error : (∃ e, j.outcome read s = .error e) ↔ j.Unloadable read := by
  have hleft (e : LoadError) :
      (j.left.load read 0).1 = .error e ↔ read j.left.assembly = .error e := load_eq_error
  have hright (e : LoadError) :
      (j.right.load read 1).1 = .error e ↔ read j.right.assembly = .error e := load_eq_error
  unfold outcome run Unloadable
  simp only [List.mem_cons, List.not_mem_nil, or_false, exists_eq_or_imp, exists_eq_left,
    ← hleft, ← hright]
  generalize j.left.load read 0 = left
  generalize j.right.load read 1 = right
  obtain ⟨left | left, u⟩ := left
  · simp
  · obtain ⟨right | right, v⟩ := right <;> simp

end Job

/-- A run has no result only if some job has failed or has been left out. -/
theorem Execution.collect_eq_error {e : Execution} {cause : RunError}
    (h : e.collect = .error cause) : (∃ i : Nat, ∃ c, e.slots[i]? = some (.finished (.error c))) ∨
      ∃ completed total, cause = .cancelled completed total := by
  unfold collect at h
  split at h
  · next c hfirst =>
    obtain ⟨slot, hslot, hc⟩ := List.exists_of_findSome?_eq_some hfirst
    split at hc
    · next c' =>
      obtain ⟨i, hi⟩ := List.getElem?_of_mem hslot
      exact .inl ⟨i, c', hi⟩
    · cases hc
  · split at h
    · cases h
      exact .inr ⟨_, _, rfl⟩
    · cases h

namespace RunRequest

variable {q : RunRequest} {s : Schedule}

/-- A run of jobs of which one cannot be loaded has no result. -/
theorem executeBy_ne_ok {j : Job} (hj : j ∈ q.jobs) (h : j.Unloadable q.read) (r : Review) :
    q.executeBy s (outcomeOf q.runs) ≠ .ok r := by
  intro hr
  obtain ⟨outputs, houtputs, -⟩ := outcomes_of_executeBy hr
  obtain ⟨e, he⟩ := Job.outcome_eq_error.2 h
  have hsorted : j ∈ Job.sorted q.jobs := List.mem_mergeSort.2 hj
  have hmem : j.outcome q.read q.selection ∈ outputs.map Except.ok := by
    rw [← houtputs]
    exact List.mem_map_of_mem hsorted
  rw [he] at hmem
  obtain ⟨o, -, ho⟩ := List.mem_map.1 hmem
  cases ho

/-- A run has no result only if a job cannot be loaded or has been left out. -/
theorem executeBy_eq_error {e : RunError} (h : q.executeBy s (outcomeOf q.runs) = .error e) :
    (∃ j ∈ q.jobs, j.Unloadable q.read) ∨ ∃ completed total, e = .cancelled completed total := by
  have hends := (Execution.faithful_run (Execution.faithful_start (outcomeOf q.runs)
    (Job.sorted q.jobs).length q.cancelled) s).2
  simp only [executeBy] at h
  split at h
  · cases h
  · next cause hcollect =>
    cases h
    refine (Execution.collect_eq_error hcollect).imp_left ?_
    rintro ⟨i, cause', hslot⟩
    have houtcome := hends i _ hslot
    rw [outcomeOf, runs, List.getElem?_map] at houtcome
    cases hj : (Job.sorted q.jobs)[i]? with
    | none =>
      rw [hj] at houtcome
      cases houtcome
    | some j =>
      rw [hj] at houtcome
      exact ⟨j, List.mem_mergeSort.1 (List.mem_of_getElem? hj),
        Job.outcome_eq_error.1 ⟨cause', houtcome.symm⟩⟩

end RunRequest

/-! ## Stages of a run -/

namespace Options

variable {o : Options} {read : Reader} {schedule : RunRequest → Schedule} {w w' : Workspace}

/-- The baseline that a run compares with; there is none if it is to be written anew. -/
def usedBaseline (o : Options) : Command (Option Baseline) :=
  if o.writeBaseline then pure none else o.loadBaseline

/-- What a run is asked to do by its sources and the baseline. -/
def request (o : Options) (read : Reader) : Command RunRequest := do
  let jobs ← JobSource.loadAll o.sources
  let baseline ← o.usedBaseline
  return { read, jobs, baseline }

/-- What the jobs of a run have found when they follow a schedule. -/
def compareBy (o : Options) (read : Reader) (schedule : RunRequest → Schedule) :
    Command Review := do
  let q ← o.request read
  Command.ofExcept .run (q.executeBy (schedule q) (RunRequest.outcomeOf q.runs))

/-- Writes the baseline anew, or reports. -/
def conclude (o : Options) (review : Review) : Command ExitStatus :=
  if o.writeBaseline then do
    Command.writeFile o.baselineFile review.acceptingBaseline.render
    return .success
  else do
    let found := (o.reportOn.run review).1
    Command.print found.1
    return found.2

/-- A run whose jobs follow a schedule. -/
def runBy (o : Options) (read : Reader) (schedule : RunRequest → Schedule) :
    Command ExitStatus := do
  o.conclude (← o.compareBy read schedule)

/-- One job after the other. -/
def oneByOne (q : RunRequest) : Schedule :=
  .sequential (q.cancels q.runs) q.runs.length

theorem run_eq_runBy (o : Options) (read : Reader) : o.run read = o.runBy read oneByOne := by
  have hexecute : o.execute read = o.compareBy read oneByOne := by
    simp only [execute, compareBy, request, usedBaseline, bind_assoc, pure_bind]
    cases o.writeBaseline <;> rfl
  rw [run, runBy, hexecute]
  rfl

/-- Something stands in the way of the comparison: a faulty source, a baseline that is to be used
but cannot be read or is malformed, or a job with an assembly that cannot be loaded. -/
inductive Impeded (o : Options) (read : Reader) (w : Workspace) : Prop
  | source {s : JobSource} (hs : s ∈ o.sources) (hfaulty : s.Faulty w.files)
  | baseline (hmode : o.writeBaseline = false) (hfile : w.files.contains o.baselineFile)
      (hfaulty : ∀ text, w.files.read o.baselineFile = .ok text →
        ∃ e, Baseline.read text = .error e)
  | job {s : JobSource} {part : List Job} {j : Job} (hs : s ∈ o.sources)
      (hpart : s.load.run.run w = (.ok part, w)) (hj : j ∈ part) (hload : j.Unloadable read)

theorem looks_loadBaseline : Looks o.loadBaseline := by
  refine Looks.bind (fun _ => rfl) fun v => ?_
  split
  · refine (looks_readFile _).bind fun text => ?_
    rw [map_eq_pure_bind]
    exact (looks_ofExcept _ _).bind fun _ => looks_pure _
  · exact looks_pure none

theorem looks_compareBy : Looks (o.compareBy read schedule) := by
  have hbaseline : Looks o.usedBaseline := by
    unfold usedBaseline
    split
    · exact looks_pure none
    · exact looks_loadBaseline
  have hrequest : Looks (o.request read) :=
    (JobSource.looks_loadAll o.sources).bind fun _ => hbaseline.bind fun _ => looks_pure _
  exact hrequest.bind fun _ => looks_ofExcept _ _

/-- What has been asked for when the jobs are run. -/
theorem request_eq_ok {q : RunRequest} (h : (o.request read).run.run w = (.ok q, w')) :
    w' = w ∧ q.read = read ∧ (JobSource.loadAll o.sources).run.run w = (.ok q.jobs, w) ∧
      (o.writeBaseline = false → o.Accepts w q.baseline) := by
  obtain ⟨jobs, v, hjobs, hrest⟩ := bind_eq_ok h
  obtain rfl := (JobSource.looks_loadAll o.sources).eq_of_run hjobs
  obtain ⟨b, v', hbaseline, hpure⟩ := bind_eq_ok hrest
  cases hpure
  unfold usedBaseline at hbaseline
  split at hbaseline
  · next hmode =>
    cases hbaseline
    exact ⟨rfl, rfl, hjobs, fun h => absurd hmode (Bool.eq_false_iff.1 h)⟩
  · obtain ⟨rfl, hb⟩ := loadBaseline_eq_ok hbaseline
    exact ⟨rfl, rfl, hjobs, fun _ => hb⟩

theorem compareBy_ne_ok (h : o.Impeded read w) (r : Review) :
    (o.compareBy read schedule).run.run w ≠ (.ok r, w) := by
  intro hr
  obtain ⟨q, v, hq, hexecute⟩ := bind_eq_ok hr
  obtain ⟨rfl, rfl, hjobs, hbaseline⟩ := request_eq_ok hq
  have hparts := (JobSource.loadAll_eq_ok hjobs).1
  cases h with
  | source hs hfaulty =>
    obtain ⟨part, hpart, -⟩ := hparts _ hs
    exact JobSource.not_faulty_of_load hpart hfaulty
  | baseline hmode hfile hfaulty =>
    have hb := hbaseline hmode
    rw [Accepts, if_pos hfile] at hb
    obtain ⟨text, b, htext, hread, -⟩ := hb
    obtain ⟨e, he⟩ := hfaulty text htext
    cases hread.symm.trans he
  | job hs hpart hj hload =>
    obtain ⟨part', hpart', hin⟩ := hparts _ hs
    cases hpart'.symm.trans hpart
    exact RunRequest.executeBy_ne_ok (hin _ hj) hload r (ofExcept_eq_ok hexecute).1

theorem loadBaseline_eq_error {e : RunFailure} (h : o.loadBaseline.run.run w = (.error e, w')) :
    w.files.contains o.baselineFile ∧
      ∀ text, w.files.read o.baselineFile = .ok text → ∃ e, Baseline.read text = .error e := by
  rcases bind_eq_error h with hget | ⟨v, w'', hget, hload⟩
  · cases hget
  · cases hget
    split at hload
    · next hfile =>
      refine ⟨hfile, fun text htext => ?_⟩
      rcases bind_eq_error hload with hread | ⟨text', v, hread, hrest⟩
      · obtain ⟨cause, hcause, -, -⟩ := readFile_eq_error hread
        cases htext.symm.trans hcause
      · obtain ⟨htext', rfl⟩ := readFile_eq_ok hread
        cases htext.symm.trans htext'
        rw [map_eq_pure_bind] at hrest
        rcases bind_eq_error hrest with hparse | ⟨b, v', -, hpure⟩
        · obtain ⟨cause, hcause, -, -⟩ := ofExcept_eq_error hparse
          exact ⟨cause, hcause⟩
        · cases hpure
    · cases hload

/-- A comparison fails only if something stands in its way or a job has been left out. -/
theorem compareBy_eq_error {e : RunFailure}
    (h : (o.compareBy read schedule).run.run w = (.error e, w')) :
    o.Impeded read w ∨ ∃ completed total, e = .run (.cancelled completed total) := by
  rcases bind_eq_error h with hrequest | ⟨q, v, hq, hexecute⟩
  · rcases bind_eq_error hrequest with hsources | ⟨jobs, v, hjobs, hrest⟩
    · obtain ⟨s, hs, hfaulty⟩ := JobSource.loadAll_eq_error hsources
      exact .inl (.source hs hfaulty)
    · obtain rfl := (JobSource.looks_loadAll o.sources).eq_of_run hjobs
      rcases bind_eq_error hrest with hbaseline | ⟨b, v', -, hpure⟩
      · unfold usedBaseline at hbaseline
        split at hbaseline
        · cases hbaseline
        · next hmode =>
          obtain ⟨hfile, hfaulty⟩ := loadBaseline_eq_error hbaseline
          exact .inl (.baseline (Bool.eq_false_iff.2 hmode) hfile hfaulty)
      · cases hpure
  · obtain ⟨rfl, rfl, hjobs, -⟩ := request_eq_ok hq
    obtain ⟨cause, hcause, rfl, -⟩ := ofExcept_eq_error hexecute
    refine (RunRequest.executeBy_eq_error hcause).imp (fun ⟨j, hj, hload⟩ => ?_)
      fun ⟨completed, total, hcancelled⟩ => ⟨completed, total, congrArg _ hcancelled⟩
    obtain ⟨s, hs, part, hpart, hin⟩ := (JobSource.loadAll_eq_ok hjobs).2 j hj
    exact .job hs hpart hin hload

/-! ## Conclusions -/

/-- A conclusion fails only if a file or the output cannot be written, and then changes nothing. -/
theorem conclude_eq_error {r : Review} {e : RunFailure}
    (h : (o.conclude r).run.run w = (.error e, w')) : w' = w ∧ ∃ cause, e = .file cause := by
  unfold conclude at h
  split at h
  · rcases bind_eq_error h with hwrite | ⟨_, v, -, hpure⟩
    · exact writeFile_eq_error hwrite
    · cases hpure
  · rcases bind_eq_error h with hprint | ⟨_, v, -, hpure⟩
    · exact print_eq_error hprint
    · cases hpure

/-- A run that reports changes no file. -/
theorem sparesFiles_runBy (hmode : o.writeBaseline = false) :
    SparesFiles (o.runBy read schedule) := by
  refine looks_compareBy.sparesFiles.bind fun r => ?_
  simp only [conclude, hmode, Bool.false_eq_true, if_false]
  exact (sparesFiles_print _).bind fun _ => (looks_pure _).sparesFiles

/-! ## No trace -/

/-- The baseline is to be written anew, and the new build has no assembly. -/
def goneOptions : Options :=
  { boxOptions with
    sources := [.pair ⟨"Old"⟩ ⟨"none"⟩ ⟨"Gone"⟩ ⟨"deps"⟩]
    writeBaseline := true }

/-- There is a baseline already. -/
def goneFiles : Workspace :=
  { boxFiles with files := boxFiles.files.put ["known.xml"] (.text "<ArCompatSuppressions/>") }

theorem impeded_goneOptions : goneOptions.Impeded boxes goneFiles := by
  have hpart : (JobSource.pair ⟨"Old"⟩ ⟨"none"⟩ ⟨"Gone"⟩ ⟨"deps"⟩).load.run.run goneFiles =
      (.ok [⟨⟨"Old", ⟨"Old"⟩, []⟩, ⟨"Gone", ⟨"Gone"⟩, [⟨"Dep"⟩]⟩⟩], goneFiles) := by cbv
  have hgone : boxes ⟨"Gone"⟩ =
      .error ⟨⟨"Gone"⟩, "no assembly registered for this path"⟩ := by cbv
  refine .job List.mem_cons_self hpart List.mem_cons_self ?_
  exact ⟨_, List.mem_cons_of_mem _ List.mem_cons_self, _, hgone⟩

end Options

end ApiEvolution
