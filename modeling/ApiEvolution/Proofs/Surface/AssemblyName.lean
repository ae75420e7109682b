import ApiEvolution.Surface.AssemblyName
import ApiEvolution.Proofs.Text.Decimal
import ApiEvolution.Proofs.Text.Lines

/-!
# Reading assembly names back

The reader of assembly names is lenient: blanks around the parts, unknown and repeated components,
plus signs and leading zeros, missing parts of a version. Whatever it accepts, the name it gives is
canonical (`canonical_of_parse`), and the written form of a canonical name is read as that very name
(`parse_render_of_canonical`). So the names that some text is read as are the ones that their own
written form is read as (`parse_render_iff`).
-/

namespace ApiEvolution

/-! ## Versions -/

namespace Version

/-- Digits are no blanks and no points. -/
theorem not_blank_of_mem_render {n : Nat} {c : Char} (h : c ∈ (Text.Decimal.render n).toList) :
    Text.isBlank c = false ∧ c ≠ '.' ∧ c ≠ ',' := by
  have hdigit : ∀ d < 10, Text.isBlank d.digitChar = false ∧ d.digitChar ≠ '.' ∧
      d.digitChar ≠ ',' := by decide
  obtain ⟨ds, -, hds, -, hs⟩ := Text.Decimal.numeral_render n
  rcases hs with hs | hs
  · rw [hs] at h
    obtain ⟨d, hd, rfl⟩ := List.mem_map.1 h
    exact hdigit d (hds d hd)
  · rw [hs] at h
    rcases List.mem_cons.1 h with rfl | h
    · decide
    · obtain ⟨d, hd, rfl⟩ := List.mem_map.1 h
      exact hdigit d (hds d hd)

/-- A written part is read back. -/
theorem readPart_render (n : UInt16) : readPart (Text.Decimal.render n.toNat).toList = .ok n := by
  have hread := Text.Decimal.read?_eq_some_iff.2 ⟨Text.Decimal.numeral_render n.toNat, n.toNat_lt⟩
  rw [readPart, Text.trim_of_forall_not_blank fun c hc => (not_blank_of_mem_render hc).1, hread]
  simp only [UInt16.ofNat_toNat]

theorem pieces_render (v : Version) :
    Text.pieces '.' v.render.toList = v.parts.map fun n => (Text.Decimal.render n).toList := by
  rw [render, Text.toList_joined, List.map_map]
  refine Text.pieces_join (by simp [parts]) fun part hpart => ?_
  obtain ⟨n, -, rfl⟩ := List.mem_map.1 hpart
  exact fun hmem => (not_blank_of_mem_render hmem).2.1 rfl

/-- A written version is read back. -/
theorem parse_render (v : Version) : parse v.render.toList = .ok v := by
  have hlength : (v.parts.map fun n => (Text.Decimal.render n).toList).length ≤ 4 := by
    simp [parts]
  rw [parse, pieces_render, if_pos hlength]
  simp only [parts, List.map_cons, List.map_nil, List.mapM_cons, List.mapM_nil, readPart_render]
  rfl

/-- A written version has no blanks and no commas. -/
theorem not_blank_of_mem (v : Version) {c : Char} (h : c ∈ v.render.toList) :
    Text.isBlank c = false ∧ c ≠ ',' := by
  rw [render, Text.toList_joined] at h
  rcases Text.mem_of_mem_join h with hpoint | ⟨part, hpart, hmem⟩
  · rw [List.mem_singleton.1 hpoint]
    decide
  · rw [List.map_map] at hpart
    obtain ⟨n, -, rfl⟩ := List.mem_map.1 hpart
    obtain ⟨hblank, -, hcomma⟩ := not_blank_of_mem_render hmem
    exact ⟨hblank, hcomma⟩

end Version

namespace AssemblyName

/-! ## Canonical names -/

/-- The text can stand for a culture other than the neutral one. -/
structure IsCulture (culture : String) : Prop where
  comma : ',' ∉ culture.toList
  trimEnd : Text.trimEnd culture.toList = culture.toList
  neutral : ¬Text.sameLetters culture "neutral"

/-- The simple name is there, and neither it nor the culture holds anything that reading takes
away or takes for something else. -/
structure Canonical (n : AssemblyName) : Prop where
  name : n.name ≠ ""
  comma : ',' ∉ n.name.toList
  trim : Text.trim n.name.toList = n.name.toList
  culture : ∀ culture ∈ n.culture, IsCulture culture

/-! ## Components -/

theorem valueOf?_append (key : String) (value : List Char) :
    valueOf? key (key.toList ++ value) = some value := by
  rw [valueOf?, if_pos (by simp), ← String.length_toList, List.drop_left]

theorem eq_append_of_valueOf? {key : String} {text value : List Char}
    (h : valueOf? key text = some value) : text = key.toList ++ value := by
  unfold valueOf? at h
  split at h
  · next hprefix =>
    cases h
    obtain ⟨rest, rfl⟩ := List.isPrefixOf_iff_prefix.1 hprefix
    rw [← String.length_toList, List.drop_left]
  · cases h

/-- What one component of a text may change. -/
theorem component_ok {a b : AssemblyName} {text : List Char} (h : a.component text = .ok b) :
    b = a ∨ (∃ v, b = { a with version := v }) ∨
    ∃ value, text = "Culture=".toList ++ value ∧
      ¬Text.sameLetters (String.ofList value) "neutral" ∧
      b = { a with culture := some (String.ofList value) } := by
  unfold component at h
  split at h
  · split at h
    · next v _ => exact .inr (.inl ⟨v, (Except.ok.inj h).symm⟩)
    · cases h
  · split at h
    · next value hvalue =>
      split at h
      · exact .inl (Except.ok.inj h).symm
      · next hneutral =>
        exact .inr (.inr ⟨value, eq_append_of_valueOf? hvalue, hneutral, (Except.ok.inj h).symm⟩)
    · exact .inl (Except.ok.inj h).symm

/-- A component without commas and blanks at its end leaves a canonical name canonical. -/
theorem Canonical.component {a b : AssemblyName} {text : List Char} (ha : a.Canonical)
    (hcomma : ',' ∉ text) (htrim : Text.trimEnd text = text) (h : a.component text = .ok b) :
    b.Canonical := by
  obtain rfl | ⟨v, rfl⟩ | ⟨value, rfl, hneutral, rfl⟩ := component_ok h
  · exact ha
  · exact ⟨ha.name, ha.comma, ha.trim, ha.culture⟩
  · refine ⟨ha.name, ha.comma, ha.trim, ?_⟩
    rintro _ ⟨⟩
    refine ⟨?_, ?_, hneutral⟩
    · rw [String.toList_ofList]
      exact fun hmem => hcomma (List.mem_append_right _ hmem)
    · rw [String.toList_ofList]
      exact Text.trimEnd_eq_self_of_append htrim

theorem Canonical.components {a b : AssemblyName} {texts : List (List Char)} (ha : a.Canonical)
    (htexts : ∀ text ∈ texts, ',' ∉ text ∧ Text.trimEnd text = text)
    (h : a.components texts = .ok b) : b.Canonical := by
  induction texts generalizing a with
  | nil => exact Except.ok.inj h ▸ ha
  | cons text rest ih =>
    obtain ⟨⟨hcomma, htrim⟩, hrest⟩ := List.forall_mem_cons.1 htexts
    unfold AssemblyName.components at h
    split at h
    · next c hc => exact ih (ha.component hcomma htrim hc) hrest h
    · cases h

/-- What is read is canonical. -/
theorem canonical_of_parse {text : String} {n : AssemblyName} (h : parse text = .ok n) :
    n.Canonical := by
  have htexts : ∀ part ∈ (Text.pieces ',' text.toList).map Text.trim,
      ',' ∉ part ∧ Text.trim part = part := by
    intro part hpart
    obtain ⟨piece, hpiece, rfl⟩ := List.mem_map.1 hpart
    exact ⟨fun hmem => Text.not_mem_of_mem_pieces hpiece (Text.mem_of_mem_trim hmem),
      Text.trim_trim piece⟩
  unfold parse at h
  split at h
  · cases h
  · cases h
  · next name rest hne heq =>
    rw [heq, List.forall_mem_cons] at htexts
    obtain ⟨⟨hcomma, htrim⟩, hrest⟩ := htexts
    have hstart : (AssemblyName.mk (String.ofList name) .zero none).Canonical := by
      refine ⟨?_, ?_, ?_, nofun⟩
      · exact fun hempty => hne (by simpa using hempty)
      · rwa [String.toList_ofList]
      · rwa [String.toList_ofList]
    exact hstart.components
      (fun part hpart => ⟨(hrest part hpart).1, Text.trimEnd_of_trim (hrest part hpart).2⟩) h

/-! ## Written names -/

theorem component_version (a : AssemblyName) (v : Version) :
    a.component ("Version=".toList ++ v.render.toList) = .ok { a with version := v } := by
  simp only [component, valueOf?_append, Version.parse_render]

theorem component_culture {a : AssemblyName} {culture : Option String} (ha : a.culture = none)
    (h : ∀ c ∈ culture, IsCulture c) :
    a.component ("Culture=".toList ++ (culture.getD "neutral").toList) =
      .ok { a with culture := culture } := by
  have hversion (value : List Char) : valueOf? "Version=" ("Culture=".toList ++ value) = none := rfl
  simp only [component, hversion, valueOf?_append, String.ofList_toList]
  cases culture with
  | none =>
    rw [Option.getD_none, if_pos (Text.sameLetters_refl "neutral"), ← ha]
  | some c => exact if_neg (h c rfl).neutral

/-- The culture that is written has no commas and no blanks at its end. -/
theorem Canonical.written_culture {n : AssemblyName} (hn : n.Canonical) :
    ',' ∉ (n.culture.getD "neutral").toList ∧
      Text.trimEnd (n.culture.getD "neutral").toList = (n.culture.getD "neutral").toList := by
  cases hculture : n.culture with
  | none => decide
  | some c => exact ⟨(hn.culture c hculture).comma, (hn.culture c hculture).trimEnd⟩

/-- The blank before a component is trimmed away. -/
theorem trim_component {key value : List Char} (hkey : Text.trim key = key) (hne : key ≠ [])
    (hvalue : Text.trimEnd value = value) : Text.trim (' ' :: (key ++ value)) = key ++ value := by
  have hblank : Text.Blank [' '] := by decide
  have hstart : Text.trimStart (' ' :: (key ++ value)) = Text.trimStart (key ++ value) :=
    Text.trimStart_append_of_blank hblank (key ++ value)
  rw [Text.trim, hstart, ← Text.trim, Text.trim_append hkey hne hvalue]

/-- The parts of a written name, without the blanks before them. -/
theorem pieces_render {n : AssemblyName} (hn : n.Canonical) :
    (Text.pieces ',' n.render.toList).map Text.trim =
      [n.name.toList, "Version=".toList ++ n.version.render.toList,
        "Culture=".toList ++ (n.culture.getD "neutral").toList] := by
  obtain ⟨hculture, hcultureEnd⟩ := hn.written_culture
  have hrender : n.render.toList = n.name.toList ++ ',' :: (' ' :: ("Version=".toList ++
      n.version.render.toList) ++ ',' :: ' ' :: ("Culture=".toList ++
      (n.culture.getD "neutral").toList)) := by
    simp [render]
  have hversion : ',' ∉ n.version.render.toList := fun h => (n.version.not_blank_of_mem h).2 rfl
  have hversionEnd : Text.trimEnd n.version.render.toList = n.version.render.toList :=
    Text.trimEnd_of_trim (Text.trim_of_forall_not_blank fun c hc =>
      (n.version.not_blank_of_mem hc).1)
  have hfirst : ',' ∉ ' ' :: ("Version=".toList ++ n.version.render.toList) := by
    simpa using hversion
  have hsecond : ',' ∉ ' ' :: ("Culture=".toList ++ (n.culture.getD "neutral").toList) := by
    simpa using hculture
  rw [hrender, Text.pieces_append, Text.pieces_append, Text.pieces_of_not_mem hn.comma,
    Text.pieces_of_not_mem hfirst, Text.pieces_of_not_mem hsecond, List.singleton_append,
    List.singleton_append, List.map_cons, List.map_cons, List.map_singleton, hn.trim,
    trim_component (by decide) (by decide) hversionEnd,
    trim_component (by decide) (by decide) hcultureEnd]

theorem parse_render_of_canonical {n : AssemblyName} (hn : n.Canonical) : parse n.render = .ok n := by
  have hname : n.name.toList ≠ [] := by simpa using hn.name
  unfold parse
  rw [pieces_render hn]
  split
  · next heq => cases heq
  · next heq => exact absurd (List.cons.inj heq).1 hname
  · next name rest _ heq =>
    obtain ⟨rfl, rfl⟩ := List.cons.inj heq
    simp only [components, component_version, String.ofList_toList]
    rw [component_culture rfl hn.culture]

/-- The names that can be read are the canonical ones, and they are the names that their own
written form is read as. -/
theorem parse_render_iff (n : AssemblyName) :
    (parse n.render = .ok n ↔ ∃ text, parse text = .ok n) ∧
      (parse n.render = .ok n ↔ n.Canonical) :=
  ⟨⟨fun h => ⟨n.render, h⟩, fun ⟨_, h⟩ => parse_render_of_canonical (canonical_of_parse h)⟩,
    canonical_of_parse, parse_render_of_canonical⟩

/-- What a lenient spelling is read as, and how that is written. -/
example :
    (parse " Lib , Culture=de, Mask=x, Version= +01 .2, Culture= fr ").map render =
      .ok "Lib, Version=1.2.0.0, Culture= fr" := by
  decide +kernel

end AssemblyName

end ApiEvolution
