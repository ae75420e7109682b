import ApiEvolution.Proofs.Job.Parsing

/-!
# Written job lists

Jobs can be written if their texts can stand in lines of their own (`Writable`). The values are put
in lines with any blanks around them and any blank lines between them (`LaidOut`); the line ends may
have carriage returns, which are blanks, and the last line need not be ended.

The main statement is `parse_grammar`: a text is read as the jobs whose values its lines hold, and
however jobs are written they are read again.
-/

namespace ApiEvolution.JobList

open Text

/-- A text that can stand in a line: without blanks around it, and with no line feed in it. -/
structure IsValue (value : String) : Prop where
  trimmed : trim value.toList = value.toList
  nonempty : value.toList ≠ []
  oneLine : '\n' ∉ value.toList

/-- The lines hold the values, one in a line. -/
inductive LaidOut : List String → List (List Char) → Prop
  | nil : LaidOut [] []
  | blank {values : List String} {ls : List (List Char)} {line : List Char}
    (hblank : Blank line) (hline : '\n' ∉ line) (h : LaidOut values ls) :
    LaidOut values (line :: ls)
  | value {values : List String} {ls : List (List Char)} {before after : List Char}
    {value : String} (hbefore : Blank before) (hafter : Blank after)
    (hline : '\n' ∉ before ++ after) (h : LaidOut values ls) :
    LaidOut (value :: values) ((before ++ value.toList ++ after) :: ls)

/-- The texts of a build. -/
def texts (b : Build) : List String :=
  b.name :: b.assembly.text :: b.references.map (·.text)

/-- The texts of the build can stand in lines, and there are no more references than can be counted.
-/
structure WritableBuild (b : Build) : Prop where
  values : ∀ value ∈ texts b, IsValue value
  counted : b.references.length < UInt64.size

/-- The jobs can be written. -/
def Writable (jobs : List Job) : Prop :=
  ∀ j ∈ jobs, WritableBuild j.left ∧ WritableBuild j.right

instance : DecidablePred IsValue := fun value =>
  decidable_of_iff
    (trim value.toList = value.toList ∧ value.toList ≠ [] ∧ '\n' ∉ value.toList)
    ⟨fun ⟨htrimmed, hnonempty, hline⟩ => ⟨htrimmed, hnonempty, hline⟩,
      fun h => ⟨h.trimmed, h.nonempty, h.oneLine⟩⟩

instance : DecidablePred WritableBuild := fun b =>
  decidable_of_iff ((∀ value ∈ texts b, IsValue value) ∧ b.references.length < UInt64.size)
    ⟨fun ⟨hvalues, hcounted⟩ => ⟨hvalues, hcounted⟩, fun h => ⟨h.values, h.counted⟩⟩

instance : DecidablePred Writable := fun jobs =>
  inferInstanceAs (Decidable (∀ j ∈ jobs, WritableBuild j.left ∧ WritableBuild j.right))

/-! ## Values -/

/-- A count can stand in a line. -/
theorem Counts.isValue {value : String} {n : Nat} (h : Counts value n) : IsValue value := by
  obtain ⟨⟨ds, hne, hlt, -, hs⟩, -⟩ := h
  have hdigits : ∀ d < 10, isBlank (Nat.digitChar d) = false ∧ Nat.digitChar d ≠ '\n' := by decide
  have hplus : isBlank '+' = false ∧ '+' ≠ '\n' := by decide
  have hrow : ∀ c ∈ Decimal.rowOf ds, isBlank c = false ∧ c ≠ '\n' := by
    intro c hc
    obtain ⟨d, hd, rfl⟩ := List.mem_map.1 hc
    exact hdigits d (hlt d hd)
  have hall : ∀ c ∈ value.toList, isBlank c = false ∧ c ≠ '\n' := by
    intro c hc
    rcases hs with hs | hs
    · exact hrow c (hs ▸ hc)
    · rcases List.mem_cons.1 (hs ▸ hc) with rfl | hc
      · exact hplus
      · exact hrow c hc
  refine ⟨trim_of_forall_not_blank fun c hc => (hall c hc).1, ?_, fun hc => (hall _ hc).2 rfl⟩
  rcases hs with hs | hs
  · simpa [hs, Decimal.rowOf] using hne
  · simp [hs]

/-- The values of jobs that can be written can stand in lines. -/
theorem isValue_of_ofBuild {b : Build} {vs : List String} (hb : WritableBuild b)
    (h : OfBuild vs b) : ∀ value ∈ vs, IsValue value := by
  obtain ⟨name, assembly, count, paths, hcount⟩ := h
  have hpaths : (paths.map Path.mk).map (·.text) = paths := by simp [Function.comp_def]
  have hvalues := hb.values
  simp only [texts, hpaths, List.forall_mem_cons] at hvalues
  obtain ⟨hname, hassembly, hrest⟩ := hvalues
  simp only [List.forall_mem_cons]
  exact ⟨hname, hassembly, hcount.isValue, hrest⟩

theorem isValue_of_ofJobs {jobs : List Job} {vs : List String} (hjobs : Writable jobs)
    (h : OfJobs vs jobs) : ∀ value ∈ vs, IsValue value := by
  induction h with
  | nil => exact nofun
  | cons hleft hright _ ih =>
    obtain ⟨⟨hl, hr⟩, hrest⟩ := List.forall_mem_cons.1 hjobs
    intro value hvalue
    rcases List.mem_append.1 hvalue with hvalue | hvalue
    · rcases List.mem_append.1 hvalue with hvalue | hvalue
      · exact isValue_of_ofBuild hl hleft value hvalue
      · exact isValue_of_ofBuild hr hright value hvalue
    · exact ih hrest value hvalue

theorem ofBuild_buildValues {b : Build} (h : WritableBuild b) : OfBuild (buildValues b) b := by
  obtain ⟨name, ⟨assembly⟩, references⟩ := b
  have hpaths : (references.map (·.text)).map Path.mk = references := by
    rw [List.map_map]
    exact List.map_id references
  have hcounts : Counts (Decimal.render references.length) (references.map (·.text)).length := by
    rw [List.length_map]
    exact ⟨Decimal.numeral_render _, h.counted⟩
  have hbuild := OfBuild.mk name assembly _ _ hcounts
  rwa [hpaths] at hbuild

/-- The values that are written are those of the jobs. -/
theorem ofJobs_jobValues {jobs : List Job} (h : Writable jobs) : OfJobs (jobValues jobs) jobs := by
  induction jobs with
  | nil => exact .nil
  | cons j jobs ih =>
    obtain ⟨⟨hleft, hright⟩, hrest⟩ := List.forall_mem_cons.1 h
    rw [jobValues, List.flatMap_cons]
    exact .cons (ofBuild_buildValues hleft) (ofBuild_buildValues hright) (ih hrest)

/-! ## Lines -/

/-- Lines in which values are laid out hold these values. -/
theorem LaidOut.held_eq {vs : List String} {ls : List (List Char)} (h : LaidOut vs ls)
    (hvs : ∀ value ∈ vs, IsValue value) : held ls = vs ∧ ∀ l ∈ ls, '\n' ∉ l := by
  induction h with
  | nil => exact ⟨rfl, nofun⟩
  | blank hblank hline _ ih =>
    obtain ⟨hheld, hlines⟩ := ih hvs
    rw [held_cons, held_of_blank hblank, hheld]
    exact ⟨rfl, List.forall_mem_cons.2 ⟨hline, hlines⟩⟩
  | @value values ls before after value hbefore hafter hline _ ih =>
    obtain ⟨hvalue, hrest⟩ := List.forall_mem_cons.1 hvs
    obtain ⟨hheld, hlines⟩ := ih hrest
    have htrim : trim (before ++ value.toList ++ after) = value.toList := by
      rw [trim_pad hbefore hafter, hvalue.trimmed]
    have hone : held [before ++ value.toList ++ after] = [value] := by
      rw [held, List.map_singleton, htrim]
      simp [hvalue.nonempty]
    rw [held_cons, hone, hheld]
    refine ⟨rfl, List.forall_mem_cons.2 ⟨fun hmem => ?_, hlines⟩⟩
    have hboth := hvalue.oneLine
    simp only [List.mem_append, not_or] at hmem hline
    rcases hmem with (hmem | hmem) | hmem
    · exact hline.1 hmem
    · exact hboth hmem
    · exact hline.2 hmem

/-- A text is read as the jobs whose values its lines hold, and as no other jobs; and jobs that can
be written are read again, however their counts are spelt and their values laid out. -/
theorem parse_grammar (text source : String) (jobs : List Job) :
    (parse text source = .ok jobs ↔ OfJobs (held (lines text.toList)) jobs) ∧
      (Writable jobs → OfJobs (jobValues jobs) jobs ∧ ∀ vs ls, OfJobs vs jobs → LaidOut vs ls →
        parse (String.ofList (join ['\n'] ls)) source = .ok jobs) := by
  refine ⟨parse_eq_ok_iff, fun hjobs => ⟨ofJobs_jobValues hjobs, fun vs ls hvs hls => ?_⟩⟩
  obtain ⟨hheld, hlines⟩ := hls.held_eq (isValue_of_ofJobs hjobs hvs)
  rw [parse_eq_ok_iff, String.toList_ofList, held_lines_join hlines, hheld]
  exact hvs

/-- Two builds, of which the old one has a reference. -/
def paddedJobs : List Job :=
  [⟨⟨"old", ⟨"a.dll"⟩, [⟨"b.dll"⟩]⟩, ⟨"new", ⟨"c.dll"⟩, []⟩⟩]

/-- A line with blanks around a value. -/
def padded (before value after : String) : List Char :=
  before.toList ++ value.toList ++ after.toList

/-- The lines of a list with carriage returns, blank lines, and a sign and a zero before a count. -/
def paddedLines : List (List Char) :=
  [padded "  " "old" "\r", " \r".toList, padded "" "a.dll" "\r", padded "\t" "+01" "\r",
    padded "" "b.dll" " \r", "".toList, padded "" "new" "", padded "" "c.dll" "", padded "" "0" ""]

theorem parse_grammar_padded :
    let vs := ["old", "a.dll", "+01", "b.dll", "new", "c.dll", "0"]
    Writable paddedJobs ∧ OfJobs vs paddedJobs ∧ LaidOut vs paddedLines ∧
      parse (String.ofList (join ['\n'] paddedLines)) "jobs.txt" = .ok paddedJobs := by
  intro vs
  have hcount (value : String) (n : Nat)
      (h : Decimal.read? UInt64.size value.toList = some n) : Counts value n :=
    read?_eq_some_iff.1 h
  have hwritable : Writable paddedJobs := by decide
  have hvs : OfJobs vs paddedJobs :=
    .cons (.mk "old" "a.dll" "+01" ["b.dll"] (hcount _ _ (by decide)))
      (.mk "new" "c.dll" "0" [] (hcount _ _ (by decide))) .nil
  have hls : LaidOut vs paddedLines :=
    .value (by decide) (by decide) (by decide) <| .blank (by decide) (by decide) <|
    .value (by decide) (by decide) (by decide) <| .value (by decide) (by decide) (by decide) <|
    .value (by decide) (by decide) (by decide) <| .blank (by decide) (by decide) <|
    .value (by decide) (by decide) (by decide) <| .value (by decide) (by decide) (by decide) <|
    .value (by decide) (by decide) (by decide) .nil
  exact ⟨hwritable, hvs, hls, ((parse_grammar "" "jobs.txt" paddedJobs).2 hwritable).2 vs _ hvs hls⟩

end ApiEvolution.JobList
