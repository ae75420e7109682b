import ApiEvolution.Job.ListFormat
import ApiEvolution.Proofs.Text.Decimal

/-!
# The grammar of job lists

A job list is a row of values: those of a left build and of a right build for each job, and for a
build its name, the path of its assembly, a count and as many reference paths (`OfBuild`, `OfJobs`).
`UpTo` is the grammar of the beginnings of such a row, with the value that is due next.

The reader goes along this grammar: after some values it stands where they lead to in the grammar,
and it has no other way (`takeAll_start_iff`).
-/

namespace ApiEvolution.JobList

/-! ## Rows of values -/

/-- The value is a numeral of the number, and the number is one of things that can be counted. -/
def Counts (value : String) (n : Nat) : Prop :=
  Text.Decimal.Numeral value.toList n ∧ n < UInt64.size

/-- The values are those of the build. -/
inductive OfBuild : List String → Build → Prop
  | mk (name assembly count : String) (paths : List String) (h : Counts count paths.length) :
    OfBuild (name :: assembly :: count :: paths) ⟨name, ⟨assembly⟩, paths.map Path.mk⟩

/-- The values are those of the jobs, job by job. -/
inductive OfJobs : List String → List Job → Prop
  | nil : OfJobs [] []
  | cons {ls rs vs : List String} {left right : Build} {jobs : List Job}
    (hleft : OfBuild ls left) (hright : OfBuild rs right) (h : OfJobs vs jobs) :
    OfJobs (ls ++ rs ++ vs) (⟨left, right⟩ :: jobs)

/-- The values begin those of a build, and the field is the next one. -/
inductive BuildUpTo : List String → Field → Prop
  | name : BuildUpTo [] .name
  | assemblyPath (name : String) : BuildUpTo [name] .assemblyPath
  | referenceCount (name assembly : String) : BuildUpTo [name, assembly] .referenceCount
  | referencePath (name assembly count : String) (paths : List String) (n : Nat)
    (h : Counts count n) (hlt : paths.length < n) :
    BuildUpTo (name :: assembly :: count :: paths) .referencePath

/-- The values begin those of jobs, and the slot is the next one. -/
inductive UpTo : List String → Slot → Prop
  | left {vs ws : List String} {jobs : List Job} {field : Field}
    (hjobs : OfJobs vs jobs) (h : BuildUpTo ws field) : UpTo (vs ++ ws) ⟨true, field⟩
  | right {vs ls ws : List String} {jobs : List Job} {left : Build} {field : Field}
    (hjobs : OfJobs vs jobs) (hleft : OfBuild ls left) (h : BuildUpTo ws field) :
    UpTo (vs ++ ls ++ ws) ⟨false, field⟩

theorem read?_eq_some_iff {value : String} {n : Nat} :
    Text.Decimal.read? UInt64.size value.toList = some n ↔ Counts value n :=
  Text.Decimal.read?_eq_some_iff

theorem OfJobs.append {vs ws : List String} {is js : List Job} (h : OfJobs vs is)
    (h' : OfJobs ws js) : OfJobs (vs ++ ws) (is ++ js) := by
  induction h with
  | nil => exact h'
  | cons hleft hright _ ih =>
    rw [List.append_assoc]
    exact .cons hleft hright ih

theorem OfJobs.concat {vs ls rs : List String} {jobs : List Job} {left right : Build}
    (h : OfJobs vs jobs) (hleft : OfBuild ls left) (hright : OfBuild rs right) :
    OfJobs (vs ++ ls ++ rs) (jobs ++ [⟨left, right⟩]) := by
  have hlast : OfJobs (ls ++ rs ++ []) [⟨left, right⟩] := .cons hleft hright .nil
  have hall := h.append hlast
  rwa [List.append_nil, ← List.append_assoc] at hall

/-- Complete jobs may stand before any beginning. -/
theorem UpTo.after {vs ws : List String} {jobs : List Job} {slot : Slot} (hjobs : OfJobs vs jobs)
    (h : UpTo ws slot) : UpTo (vs ++ ws) slot := by
  cases h with
  | left hjobs' h =>
    rw [← List.append_assoc]
    exact .left (hjobs.append hjobs') h
  | right hjobs' hleft h =>
    rw [← List.append_assoc, ← List.append_assoc]
    exact .right (hjobs.append hjobs') hleft h

/-! ## One value -/

namespace Reading

/-- What is known of a build when the values have been read. -/
inductive Knows : List String → Stage → Prop
  | name : Knows [] .name
  | assemblyPath (name : String) : Knows [name] (.assemblyPath name)
  | referenceCount (name assembly : String) :
    Knows [name, assembly] (.referenceCount name ⟨assembly⟩)
  | referencePath (name assembly count : String) (paths : List String) (more : Nat)
    (h : Counts count (paths.length + more + 1)) :
    Knows (name :: assembly :: count :: paths)
      (.referencePath ⟨name, ⟨assembly⟩, paths.map Path.mk⟩ more)

/-- Where the values lead to. -/
inductive Reached : List String → Reading → Prop
  | left {vs ws : List String} {jobs : List Job} {stage : Stage}
    (hjobs : OfJobs vs jobs) (h : Knows ws stage) : Reached (vs ++ ws) ⟨jobs, none, stage⟩
  | right {vs ls ws : List String} {jobs : List Job} {left : Build} {stage : Stage}
    (hjobs : OfJobs vs jobs) (hleft : OfBuild ls left) (h : Knows ws stage) :
    Reached (vs ++ ls ++ ws) ⟨jobs, some left, stage⟩

variable {jobs : List Job} {left : Option Build} {stage : Stage} {vs ws : List String}
  {r r' : Reading} {value : String}

/-- With a number of paths still to come, none or some, a build is complete or it is not. -/
theorem withReferences_knows {name assembly count : String} {paths : List String} {more : Nat}
    (h : Counts count (paths.length + more)) :
    let b : Build := ⟨name, ⟨assembly⟩, paths.map Path.mk⟩
    (∃ stage', Knows (name :: assembly :: count :: paths) stage' ∧
        withReferences ⟨jobs, left, stage⟩ b more = ⟨jobs, left, stage'⟩) ∨
      OfBuild (name :: assembly :: count :: paths) b ∧
        withReferences ⟨jobs, left, stage⟩ b more = complete ⟨jobs, left, stage⟩ b := by
  intro b
  cases more with
  | zero => exact .inr ⟨.mk name assembly count paths h, rfl⟩
  | succ more => exact .inl ⟨_, .referencePath name assembly count paths more h, rfl⟩

/-- A value that is taken leads to the next field of the build, or completes the build. -/
theorem take_knows (h : Knows ws stage) (ht : take ⟨jobs, left, stage⟩ value = .ok r) :
    (∃ stage', Knows (ws ++ [value]) stage' ∧ r = ⟨jobs, left, stage'⟩) ∨
      ∃ b, OfBuild (ws ++ [value]) b ∧ r = complete ⟨jobs, left, stage⟩ b := by
  cases h with
  | name =>
    cases ht
    exact .inl ⟨_, .assemblyPath value, rfl⟩
  | assemblyPath name =>
    cases ht
    exact .inl ⟨_, .referenceCount name value, rfl⟩
  | referenceCount name assembly =>
    unfold take at ht
    simp only at ht
    split at ht
    · next count hcount =>
      cases ht
      have hcounts : Counts value (([] : List String).length + count) := by
        simpa using read?_eq_some_iff.1 hcount
      rcases withReferences_knows hcounts with ⟨stage', hknows, heq⟩ | ⟨hb, heq⟩
      · exact .inl ⟨stage', hknows, heq⟩
      · exact .inr ⟨_, hb, heq⟩
    · cases ht
  | referencePath name assembly count paths more hcounts =>
    cases ht
    have hlength : (paths ++ [value]).length + more = paths.length + more + 1 := by
      simp only [List.length_append, List.length_singleton]
      omega
    have hpaths : paths.map Path.mk ++ [⟨value⟩] = (paths ++ [value]).map Path.mk := by simp
    rw [← hlength] at hcounts
    simp only [hpaths]
    rcases withReferences_knows hcounts with ⟨stage', hknows, heq⟩ | ⟨hb, heq⟩
    · exact .inl ⟨stage', hknows, heq⟩
    · exact .inr ⟨_, hb, heq⟩

/-- A value that is taken leads on in the grammar. -/
theorem Reached.take (h : Reached vs r) (ht : r.take value = .ok r') :
    Reached (vs ++ [value]) r' := by
  cases h with
  | left hjobs h =>
    rw [List.append_assoc]
    rcases take_knows h ht with ⟨stage', hknows, rfl⟩ | ⟨b, hb, rfl⟩
    · exact .left hjobs hknows
    · have hnext := Reached.right hjobs hb .name
      rwa [List.append_nil] at hnext
  | right hjobs hleft h =>
    rw [List.append_assoc]
    rcases take_knows h ht with ⟨stage', hknows, rfl⟩ | ⟨b, hb, rfl⟩
    · exact .right hjobs hleft hknows
    · have hnext := Reached.left (hjobs.concat hleft hb) .name
      rwa [List.append_nil] at hnext

/-- The only value that is not taken is a count that is none. -/
theorem take_eq_error_iff {cause : Cause} : r.take value = .error cause ↔
    r.expected.field = .referenceCount ∧ (∀ n, ¬Counts value n) ∧
      cause = .notANumber r.expected value := by
  obtain ⟨jobs, left, stage⟩ := r
  cases stage with
  | name => simp [Reading.take, expected]
  | assemblyPath name => simp [Reading.take, expected]
  | referencePath b more => simp [Reading.take, expected]
  | referenceCount name assembly =>
    unfold Reading.take
    simp only [expected, true_and]
    cases hread : Text.Decimal.read? UInt64.size value.toList with
    | none =>
      have hnone (n : Nat) : ¬Counts value n := fun hn => by
        rw [read?_eq_some_iff.2 hn] at hread
        cases hread
      simp [hnone, eq_comm]
    | some n =>
      have hn := read?_eq_some_iff.1 hread
      simp only [reduceCtorEq, false_iff, not_and]
      exact fun hnone => absurd hn (hnone n)

/-! ## Rows of values are read -/

/-- Takes the values one after the other. -/
def takeAll (r : Reading) (vs : List String) : Except Cause Reading :=
  vs.foldlM Reading.take r

theorem takeAll_cons (h : r.take value = .ok r') (vs : List String) :
    r.takeAll (value :: vs) = r'.takeAll vs := by
  rw [takeAll, List.foldlM_cons, h]
  rfl

theorem takeAll_append (h : r.takeAll vs = .ok r') (ws : List String) :
    r.takeAll (vs ++ ws) = r'.takeAll ws := by
  rw [takeAll] at h
  rw [takeAll, List.foldlM_append, h]
  rfl

theorem takeAll_paths (b : Build) (paths : List String) (more : Nat) :
    (r.withReferences b (paths.length + more)).takeAll paths =
      .ok (r.withReferences { b with references := b.references ++ paths.map Path.mk } more) := by
  induction paths generalizing r b with
  | nil => simp [takeAll, pure, Except.pure]
  | cons path paths ih =>
    have hlength : (path :: paths).length + more = paths.length + more + 1 := by
      simp only [List.length_cons]
      omega
    have htake : (r.withReferences b (paths.length + more + 1)).take path =
        .ok (r.withReferences { b with references := b.references ++ [⟨path⟩] }
          (paths.length + more)) := by
      cases hmore : paths.length + more <;> rfl
    rw [hlength, takeAll_cons htake, ih]
    simp

/-- The name and the path of the assembly, and a count. -/
theorem takeAll_head {name assembly count : String} {n : Nat} (h : Counts count n)
    (paths : List String) :
    takeAll ⟨jobs, left, .name⟩ (name :: assembly :: count :: paths) =
      (withReferences ⟨jobs, left, .referenceCount name ⟨assembly⟩⟩ ⟨name, ⟨assembly⟩, []⟩
        n).takeAll paths := by
  have hcount : Reading.take ⟨jobs, left, .referenceCount name ⟨assembly⟩⟩ count =
      .ok (withReferences ⟨jobs, left, .referenceCount name ⟨assembly⟩⟩ ⟨name, ⟨assembly⟩, []⟩
        n) := by
    unfold Reading.take
    simp only [read?_eq_some_iff.2 h]
  rw [takeAll_cons rfl, takeAll_cons rfl, takeAll_cons hcount]

theorem takeAll_ofBuild {b : Build} (h : OfBuild ws b) :
    takeAll ⟨jobs, left, .name⟩ ws = .ok (complete ⟨jobs, left, .name⟩ b) := by
  obtain ⟨name, assembly, count, paths, h⟩ := h
  rw [takeAll_head h]
  exact takeAll_paths _ paths 0

theorem takeAll_knows (h : Knows ws stage) :
    takeAll ⟨jobs, left, .name⟩ ws = .ok ⟨jobs, left, stage⟩ := by
  cases h with
  | name => rfl
  | assemblyPath name => rfl
  | referenceCount name assembly => rfl
  | referencePath name assembly count paths more h =>
    rw [takeAll_head h]
    exact takeAll_paths _ paths (more + 1)

theorem takeAll_ofJobs {is : List Job} (h : OfJobs vs is) :
    takeAll ⟨jobs, none, .name⟩ vs = .ok ⟨jobs ++ is, none, .name⟩ := by
  induction h generalizing jobs with
  | nil => rw [List.append_nil]; rfl
  | cons hleft hright _ ih =>
    rw [List.append_assoc, takeAll_append (takeAll_ofBuild hleft)]
    refine (takeAll_append (takeAll_ofBuild hright) _).trans ?_
    refine ih.trans ?_
    rw [List.append_assoc, List.singleton_append]

theorem Reached.takeAll (h : Reached vs r) : start.takeAll vs = .ok r := by
  cases h with
  | left hjobs h => rw [start, takeAll_append (takeAll_ofJobs hjobs), takeAll_knows h, List.nil_append]
  | right hjobs hleft h =>
    rw [start, List.append_assoc, takeAll_append (takeAll_ofJobs hjobs),
      takeAll_append (takeAll_ofBuild hleft)]
    exact takeAll_knows h

theorem Reached.of_takeAll (h : Reached ws r) (ht : r.takeAll vs = .ok r') :
    Reached (ws ++ vs) r' := by
  induction vs generalizing ws r with
  | nil =>
    cases ht
    rwa [List.append_nil]
  | cons value vs ih =>
    rw [Reading.takeAll, List.foldlM_cons] at ht
    cases hvalue : r.take value with
    | error cause =>
      rw [hvalue] at ht
      cases ht
    | ok next =>
      rw [hvalue] at ht
      rw [← List.singleton_append, ← List.append_assoc]
      exact ih (h.take hvalue) ht

/-- The reader stands where the values lead to. -/
theorem takeAll_start_iff : start.takeAll vs = .ok r ↔ Reached vs r := by
  refine ⟨fun h => ?_, Reached.takeAll⟩
  have hstart : Reached ([] ++ []) start := .left .nil .name
  exact hstart.of_takeAll h

/-! ## What is due next -/

theorem Knows.upTo (h : Knows ws stage) :
    BuildUpTo ws (expected ⟨jobs, left, stage⟩).field := by
  cases h with
  | name => exact .name
  | assemblyPath name => exact .assemblyPath name
  | referenceCount name assembly => exact .referenceCount name assembly
  | referencePath name assembly count paths more h =>
    exact .referencePath name assembly count paths _ h (by omega)

theorem Reached.upTo (h : Reached vs r) : UpTo vs r.expected := by
  cases h with
  | left hjobs h => exact .left hjobs h.upTo
  | right hjobs hleft h => exact .right hjobs hleft h.upTo

end Reading

open Reading in
theorem BuildUpTo.exists_knows {ws : List String} {field : Field} (h : BuildUpTo ws field) :
    ∃ stage, Knows ws stage ∧ ∀ jobs left, (expected ⟨jobs, left, stage⟩).field = field := by
  cases h with
  | name => exact ⟨_, .name, fun _ _ => rfl⟩
  | assemblyPath name => exact ⟨_, .assemblyPath name, fun _ _ => rfl⟩
  | referenceCount name assembly => exact ⟨_, .referenceCount name assembly, fun _ _ => rfl⟩
  | referencePath name assembly count paths n h hlt =>
    have hn : n = paths.length + (n - paths.length - 1) + 1 := by omega
    rw [hn] at h
    exact ⟨_, .referencePath name assembly count paths _ h, fun _ _ => rfl⟩

/-- What is due after the values is what the reader expects after them. -/
theorem upTo_iff {vs : List String} {slot : Slot} :
    UpTo vs slot ↔ ∃ r, Reading.Reached vs r ∧ r.expected = slot := by
  constructor
  · intro h
    cases h with
    | left hjobs h =>
      obtain ⟨stage, hknows, hfield⟩ := h.exists_knows
      refine ⟨_, .left hjobs hknows, ?_⟩
      rw [← hfield _ none]
      rfl
    | right hjobs hleft h =>
      obtain ⟨stage, hknows, hfield⟩ := h.exists_knows
      refine ⟨_, .right hjobs hleft hknows, ?_⟩
      rw [← hfield _ (some _)]
      rfl
  · rintro ⟨r, h, rfl⟩
    exact h.upTo

end ApiEvolution.JobList
