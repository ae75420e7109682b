import ApiEvolution.Proofs.Job.Grammar
import ApiEvolution.Proofs.Text.Lines

/-!
# Job lists are read line by line

What is read from a job list depends on what its lines hold (`Text.held`): it is a list of jobs
exactly if that is in the grammar (`parse_eq_ok_iff`). Otherwise there is a first violation of the
grammar: a line that holds something else than the count that is due there, or the end of the text
within the values of a job. The fault that is reported is this violation, with the line that it is
in or with the one behind the last line (`parse_eq_error_iff`).
-/

namespace ApiEvolution.JobList

open Text

/-! ## Lines with their numbers -/

/-- The values in the lines and the numbers of the lines, of which the first one is given. -/
def numbered (number : Nat) (ls : List (List Char)) : List (Nat × String) :=
  (ls.zipIdx number).filterMap fun l =>
    match trim l.1 with
    | [] => none
    | value => some (l.2, String.ofList value)

theorem parse_eq (text source : String) : parse text source =
    readValues source (lines text.toList).length .start (numbered 1 (lines text.toList)) := rfl

theorem numbered_cons (number : Nat) (l : List Char) (ls : List (List Char)) :
    numbered number (l :: ls) = (held [l]).map (number, ·) ++ numbered (number + 1) ls := by
  unfold numbered
  rw [List.zipIdx_cons, List.filterMap_cons]
  cases hl : trim l <;> simp [held, hl]

/-- A line holds one value or none. -/
theorem held_singleton (l : List Char) : held [l] = [] ∨ ∃ value, held [l] = [value] := by
  cases hl : trim l with
  | nil => exact .inl (by simp [held, hl])
  | cons c cs => exact .inr ⟨String.ofList (c :: cs), by simp [held, hl]⟩

/-! ## Reading on -/

section
variable {source : String} {count number : Nat} {r r' : Reading} {value : String}

theorem readValues_cons (h : r.take value = .ok r') (rest : List (Nat × String)) :
    readValues source count r ((number, value) :: rest) = readValues source count r' rest := by
  rw [readValues, h]

/-- Lines whose values can be taken bring the reader to the lines behind them. -/
theorem readValues_append {ls : List (List Char)} (h : r.takeAll (held ls) = .ok r')
    (rest : List (List Char)) : readValues source count r (numbered number (ls ++ rest)) =
      readValues source count r' (numbered (number + ls.length) rest) := by
  induction ls generalizing number r with
  | nil =>
    cases h
    rfl
  | cons l ls ih =>
    have hlength : number + (l :: ls).length = number + 1 + ls.length := by
      simp only [List.length_cons]
      omega
    rw [List.cons_append, numbered_cons, hlength]
    rw [held_cons] at h
    rcases held_singleton l with hl | ⟨value, hl⟩
    · rw [hl, List.nil_append] at h
      rw [hl]
      exact ih h
    · rw [hl, List.singleton_append, Reading.takeAll, List.foldlM_cons] at h
      cases hvalue : r.take value with
      | error cause =>
        rw [hvalue] at h
        cases h
      | ok next =>
        rw [hvalue] at h
        rw [hl, List.map_singleton, List.singleton_append, readValues_cons hvalue]
        exact ih h

/-- All values can be taken, or there is a first one that cannot. -/
theorem takeAll_or_exists (r : Reading) (ls : List (List Char)) :
    (∃ r', r.takeAll (held ls) = .ok r') ∨
      ∃ before line after value r' cause, ls = before ++ line :: after ∧ held [line] = [value] ∧
        r.takeAll (held before) = .ok r' ∧ r'.take value = .error cause := by
  induction ls generalizing r with
  | nil => exact .inl ⟨r, rfl⟩
  | cons l ls ih =>
    -- what is found behind a line that leaves the reader at `next` is found from here
    have hback (next : Reading) (hnext : r.takeAll (held [l]) = .ok next) :
        (∃ r', r.takeAll (held (l :: ls)) = .ok r') ∨
          ∃ before line after value r' cause, l :: ls = before ++ line :: after ∧
            held [line] = [value] ∧ r.takeAll (held before) = .ok r' ∧
              r'.take value = .error cause := by
      rcases ih next with ⟨r', hr'⟩ | ⟨before, line, after, value, r', cause, rfl, hv, hr', he⟩
      · exact .inl ⟨r', by rw [held_cons, Reading.takeAll_append hnext, hr']⟩
      · refine .inr ⟨l :: before, line, after, value, r', cause, rfl, hv, ?_, he⟩
        rw [held_cons, Reading.takeAll_append hnext, hr']
    rcases held_singleton l with hl | ⟨value, hl⟩
    · exact hback r (by rw [hl]; rfl)
    · cases hvalue : r.take value with
      | error cause => exact .inr ⟨[], l, ls, value, r, cause, rfl, hl, rfl, hvalue⟩
      | ok next => exact hback next (by rw [hl, Reading.takeAll_cons hvalue]; rfl)

end

/-! ## What is read from a text -/

/-- The first violation of the grammar in the lines, and the line that it is in. -/
inductive Violation (ls : List (List Char)) : Nat → Cause → Prop
  /-- a line holds a value that is no count where a count is due -/
  | count {before after : List (List Char)} {line : List Char} {value : String} {slot : Slot}
    (hls : ls = before ++ line :: after) (hvalue : held [line] = [value])
    (h : UpTo (held before) slot) (hslot : slot.field = .referenceCount)
    (hnone : ∀ n, ¬Counts value n) : Violation ls (before.length + 1) (.notANumber slot value)
  /-- the text ends where something is due, and that is not the first value of a job -/
  | ending {slot : Slot} (h : UpTo (held ls) slot) (hopen : slot ≠ ⟨true, .name⟩) :
    Violation ls (ls.length + 1) (.missing slot)

namespace Reading

variable {r : Reading} {vs : List String}

theorem finish_eq_ok_iff {jobs : List Job} : r.finish = .ok jobs ↔ r = ⟨jobs, none, .name⟩ := by
  obtain ⟨js, left, stage⟩ := r
  unfold finish
  split
  · next h =>
    obtain ⟨rfl, rfl⟩ := h
    simp
  · next h =>
    simp only [reduceCtorEq, false_iff, Reading.mk.injEq, not_and]
    exact fun _ hleft hstage => h ⟨hleft, hstage⟩

theorem finish_eq_error_iff {cause : Cause} :
    r.finish = .error cause ↔ r.expected ≠ ⟨true, .name⟩ ∧ cause = .missing r.expected := by
  obtain ⟨jobs, left, stage⟩ := r
  have hopen : expected ⟨jobs, left, stage⟩ = ⟨true, .name⟩ ↔ left = none ∧ stage = .name := by
    unfold expected
    cases stage <;> simp
  rw [ne_eq, hopen, finish]
  split <;> simp_all [eq_comm]

theorem reached_complete_iff {jobs : List Job} :
    Reached vs ⟨jobs, none, .name⟩ ↔ OfJobs vs jobs := by
  constructor
  · intro h
    cases h with
    | left hjobs h =>
      cases h
      rwa [List.append_nil]
  · intro h
    have hvs := Reached.left h .name
    rwa [List.append_nil] at hvs

end Reading

section
variable {text source : String}

/-- All values of the text can be taken. -/
theorem parse_of_takeAll {r : Reading}
    (h : Reading.start.takeAll (held (lines text.toList)) = .ok r) :
    parse text source = r.finish.mapError fun cause =>
      ⟨source, (lines text.toList).length + 1, cause⟩ := by
  have hread : parse text source = readValues source (lines text.toList).length r [] := by
    have hall : readValues source (lines text.toList).length .start
        (numbered 1 (lines text.toList ++ [])) = _ := readValues_append h []
    rw [List.append_nil] at hall
    exact hall
  rw [hread, readValues]
  cases r.finish <;> rfl

/-- Some value of the text cannot be taken. -/
theorem parse_of_take {before after : List (List Char)} {line : List Char} {value : String}
    {r : Reading} {cause : Cause} (hlines : lines text.toList = before ++ line :: after)
    (hvalue : held [line] = [value]) (hr : Reading.start.takeAll (held before) = .ok r)
    (h : r.take value = .error cause) :
    parse text source = .error ⟨source, before.length + 1, cause⟩ := by
  rw [parse_eq, hlines, readValues_append hr, Nat.add_comm 1, numbered_cons, hvalue,
    List.map_singleton, List.singleton_append, readValues, h]

/-- What is read are the jobs whose values the lines hold. -/
theorem parse_eq_ok_iff {jobs : List Job} :
    parse text source = .ok jobs ↔ OfJobs (held (lines text.toList)) jobs := by
  rw [← Reading.reached_complete_iff, ← Reading.takeAll_start_iff]
  constructor
  · intro h
    rcases takeAll_or_exists .start (lines text.toList) with
      ⟨r, hr⟩ | ⟨before, line, after, value, r, cause, hls, hv, hr, he⟩
    · rw [parse_of_takeAll hr] at h
      cases hfinish : r.finish with
      | error cause =>
        rw [hfinish] at h
        cases h
      | ok js =>
        rw [hfinish] at h
        cases h
        rw [hr, Reading.finish_eq_ok_iff.1 hfinish]
    · rw [parse_of_take hls hv hr he] at h
      cases h
  · intro h
    rw [parse_of_takeAll h, Reading.finish_eq_ok_iff.2 rfl]
    rfl

/-- What is reported is the first violation of the grammar. -/
theorem parse_eq_error_iff {f : Fault} : parse text source = .error f ↔
    f.source = source ∧ Violation (lines text.toList) f.line f.cause := by
  obtain ⟨origin, line, cause⟩ := f
  constructor
  · intro h
    rcases takeAll_or_exists .start (lines text.toList) with
      ⟨r, hr⟩ | ⟨before, line, after, value, r, cause, hls, hv, hr, he⟩
    · rw [parse_of_takeAll hr] at h
      cases hfinish : r.finish with
      | ok jobs =>
        rw [hfinish] at h
        cases h
      | error cause =>
        rw [hfinish] at h
        cases h
        obtain ⟨hopen, rfl⟩ := Reading.finish_eq_error_iff.1 hfinish
        exact ⟨rfl, .ending (Reading.takeAll_start_iff.1 hr).upTo hopen⟩
    · rw [parse_of_take hls hv hr he] at h
      cases h
      obtain ⟨hfield, hnone, rfl⟩ := Reading.take_eq_error_iff.1 he
      exact ⟨rfl, .count hls hv (Reading.takeAll_start_iff.1 hr).upTo hfield hnone⟩
  · rintro ⟨rfl, h⟩
    cases h with
    | count hls hv h hslot hnone =>
      obtain ⟨r, hr, rfl⟩ := upTo_iff.1 h
      exact parse_of_take hls hv hr.takeAll (Reading.take_eq_error_iff.2 ⟨hslot, hnone, rfl⟩)
    | ending h hopen =>
      obtain ⟨r, hr, rfl⟩ := upTo_iff.1 h
      rw [parse_of_takeAll hr.takeAll, Reading.finish_eq_error_iff.2 ⟨hopen, rfl⟩]
      rfl

end

end ApiEvolution.JobList
