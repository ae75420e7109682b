import Mathlib
import ApiEvolution.Proofs.Job.Parsing

/-!
# Faults in job lists

The fault of a text that is no job list is the first violation of the grammar: it has the line of a
value that is no count where one is due, or else the line behind the last one, and then its message
names the value that is missing (`message_eq_missing_iff`). Complete jobs before it move its line and
change nothing else (`Violation.behind`).

The main statement is `parse_fault`.
-/

namespace ApiEvolution.JobList

open Text

/-! ## Messages -/

theorem Slot.render_inj {s t : Slot} (h : s.render = t.render) : s = t := by
  obtain ⟨sleft, sfield⟩ := s
  obtain ⟨tleft, tfield⟩ := t
  revert h
  cases sleft <;> cases sfield <;> cases tleft <;> cases tfield <;> decide

/-- A text that begins with a slot begins with its side. -/
theorem Slot.render_append_ne (slot : Slot) (rest rest' : String) :
    slot.render ++ rest ≠ "unexpected end of job list, expected " ++ rest' := by
  intro h
  have hside : (slot.render ++ rest).toList.head? = some (if slot.ofLeft then 'l' else 'r') := by
    obtain ⟨ofLeft, field⟩ := slot
    cases ofLeft <;> simp [Slot.render]
  simp only [h, String.toList_append] at hside
  cases hleft : slot.ofLeft <;> simp [hleft] at hside

/-- A message names the value that is missing if one is, and else it says something else. -/
theorem message_eq_missing_iff {cause : Cause} {slot : Slot} :
    cause.message = "unexpected end of job list, expected " ++ slot.render ↔
      cause = .missing slot := by
  constructor
  · intro h
    cases cause with
    | missing slot' =>
      change "unexpected end of job list, expected " ++ slot'.render = _ at h
      have hrender : slot'.render = slot.render := (String.append_right_inj _).1 h
      exact congrArg Cause.missing (Slot.render_inj hrender)
    | notANumber slot' value =>
      change slot'.render ++ " '" ++ value ++ "' is not a number" = _ at h
      rw [String.append_assoc, String.append_assoc] at h
      exact absurd h (slot'.render_append_ne _ _)
  · rintro rfl
    rfl

/-! ## Jobs before a fault -/

/-- Complete jobs before the lines of a violation move it to a later line. -/
theorem Violation.behind {ls done : List (List Char)} {jobs : List Job} {line : Nat} {cause : Cause}
    (hdone : OfJobs (held done) jobs) (h : Violation ls line cause) :
    Violation (done ++ ls) (done.length + line) cause := by
  cases h with
  | @count before after line value slot hls hvalue h hslot hnone =>
    have hbefore : UpTo (held (done ++ before)) slot := by
      rw [held_append]
      exact h.after hdone
    have hlines : done ++ ls = done ++ before ++ line :: after := by rw [hls, List.append_assoc]
    have hmoved := Violation.count hlines hvalue hbefore hslot hnone
    rwa [List.length_append, Nat.add_assoc] at hmoved
  | @ending slot h hopen =>
    have hall : UpTo (held (done ++ ls)) slot := by
      rw [held_append]
      exact h.after hdone
    have hmoved := Violation.ending hall hopen
    rwa [List.length_append, Nat.add_assoc] at hmoved

theorem lines_ended_append (first text : String) : lines (first ++ "\n" ++ text).toList =
    lines (first ++ "\n").toList ++ lines text.toList := by
  have hboth : (first ++ "\n" ++ text).toList = first.toList ++ '\n' :: text.toList := by simp
  have hfirst : (first ++ "\n").toList = first.toList ++ ['\n'] := by simp
  rw [hboth, hfirst, lines_append]

/-! ## Faults -/

/-- A text that is no job list has the fault of its first violation, at the line of it; the message
names a value exactly if the text ends where this value is due; and complete jobs before the text
move the fault by their lines. -/
theorem parse_fault (text source : String) :
    (∀ f, parse text source = .error f ↔
      f.source = source ∧ Violation (lines text.toList) f.line f.cause) ∧
    (∀ f slot, parse text source = .error f →
      (f.cause.message = "unexpected end of job list, expected " ++ slot.render ↔
        UpTo (held (lines text.toList)) slot ∧ slot ≠ ⟨true, .name⟩)) ∧
    ∀ first jobs f, parse (first ++ "\n") source = .ok jobs → parse text source = .error f →
      parse (first ++ "\n" ++ text) source =
        .error { f with line := (lines (first ++ "\n").toList).length + f.line } := by
  refine ⟨fun f => parse_eq_error_iff, fun f slot hf => ?_, fun first jobs f hfirst hf => ?_⟩
  · rw [message_eq_missing_iff]
    constructor
    · intro hcause
      obtain ⟨-, h⟩ := parse_eq_error_iff.1 hf
      rw [hcause] at h
      generalize f.line = line at h
      cases h with
      | ending h hopen => exact ⟨h, hopen⟩
    · rintro ⟨h, hopen⟩
      have hend : parse text source =
          .error ⟨source, (lines text.toList).length + 1, .missing slot⟩ :=
        parse_eq_error_iff.2 ⟨rfl, .ending h hopen⟩
      rw [hf] at hend
      cases hend
      rfl
  · obtain ⟨hsource, h⟩ := parse_eq_error_iff.1 hf
    rw [parse_eq_error_iff, lines_ended_append]
    exact ⟨hsource, h.behind (parse_eq_ok_iff.1 hfirst)⟩

/-- A count that is too large, behind a blank line and a job of six lines. -/
theorem parse_fault_tooLarge :
    let f : Fault := ⟨"jobs.txt", 4, .notANumber ⟨true, .referenceCount⟩ "18446744073709551616"⟩
    let text := "old\r\n\r\nold.dll\r\n18446744073709551616\r\nnew"
    let first := "a\nb\n0\nc\nd\n0"
    (∃ jobs, parse (first ++ "\n") "jobs.txt" = .ok jobs) ∧ parse text "jobs.txt" = .error f ∧
      parse (first ++ "\n" ++ text) "jobs.txt" = .error { f with line := 10 } := by
  intro f text first
  have hfirst : parse (first ++ "\n") "jobs.txt" =
      .ok [⟨⟨"a", ⟨"b"⟩, []⟩, ⟨"c", ⟨"d"⟩, []⟩⟩] := by cbv
  have hf : parse text "jobs.txt" = .error f := by cbv
  have hlines : (lines (first ++ "\n").toList).length = 6 := by cbv
  have hmoved := (parse_fault text "jobs.txt").2.2 first _ f hfirst hf
  rw [hlines] at hmoved
  exact ⟨⟨_, hfirst⟩, hf, hmoved⟩

end ApiEvolution.JobList
