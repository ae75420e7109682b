import ApiEvolution.Baseline.Document
import ApiEvolution.Proofs.Markup.Rendering

/-!
# The written form of a baseline reads back

`read_render`: reading what `Baseline.render` writes gives the sorted baseline, for every baseline:
with sections without suppressions, with repeated sections and suppressions, with texts that are
absent, empty, blank or full of markup. The reader is followed element by element
(`readEvents_field`, `readEvents_suppression`, `readEvents_section`), in the states in which each
can be met.
-/

namespace ApiEvolution

open Markup Document

/-! ## Names -/

theorem isName_rootName : IsName rootName.toList := by decide
theorem isName_sectionName : IsName sectionName.toList := by decide
theorem isName_suppressionName : IsName suppressionName.toList := by decide

theorem Document.Field.isName_name (f : Field) : IsName f.name.toList := by
  cases f <;> decide

theorem namedAll_map {α : Type} {f : α → Tree} {xs : List α} (h : ∀ x ∈ xs, (f x).Named) :
    Tree.NamedAll (xs.map f) := by
  induction xs with
  | nil => trivial
  | cons x xs ih =>
    exact ⟨h x List.mem_cons_self, ih fun y hy => h y (List.mem_cons_of_mem _ hy)⟩

theorem Suppression.isName_attributes (x : Suppression) :
    ∀ a ∈ [(changeName, x.change.render)], IsName a.1.toList := by
  intro a ha
  have hk : a.1 = changeName := by rw [List.mem_singleton.1 ha]
  rw [hk]
  decide

theorem Section.isName_attributes (s : Section) :
    ∀ a ∈ [(leftName, s.left), (rightName, s.right)], IsName a.1.toList := by
  intro a ha
  have hk : a.1 = leftName ∨ a.1 = rightName := by
    rcases List.mem_cons.1 ha with rfl | ha
    · exact .inl rfl
    · rw [List.mem_singleton.1 ha]; exact .inr rfl
  rcases hk with hk | hk <;> rw [hk] <;> decide

theorem Suppression.named_toTree (s : Suppression) : s.toTree.Named := by
  refine ⟨isName_suppressionName, s.isName_attributes, ?_⟩
  cases s.typeName <;> cases s.message <;>
    simp [Tree.NamedAll, Tree.Named, Field.isName_name]

theorem Section.named_toTree (s : Section) : s.toTree.Named :=
  ⟨isName_sectionName, s.isName_attributes, namedAll_map fun x _ => x.named_toTree⟩

theorem Baseline.named_toTree (b : Baseline) : b.toTree.Named :=
  ⟨isName_rootName, by simp, namedAll_map fun s _ => s.named_toTree⟩

/-! ## Tags -/

theorem required_tagOf {name : String} {as : List (String × String)} (hn : IsName name.toList)
    (ha : ∀ a ∈ as, IsName a.1.toList) (hd : (as.map (·.1)).Nodup) (key : String) {value : String}
    (h : as.lookup key = some value) : required (tagOf name as) key = .ok value := by
  rw [required, attribute?_render hn ha hd, h]

theorem expectName_tagOf {name : String} (hn : IsName name.toList) (as : List (String × String)) :
    expectName name (tagOf name as) = .ok () := by
  rw [expectName, tagOf_name hn, if_pos rfl]

/-- The tag of a section opens a section of the same names. -/
theorem sectionOf_tagOf (s : Section) :
    sectionOf (tagOf sectionName [(leftName, s.left), (rightName, s.right)]) =
      .ok ⟨s.left, s.right, []⟩ := by
  have hd : ([(leftName, s.left), (rightName, s.right)].map (·.1)).Nodup := by
    show [leftName, rightName].Nodup
    decide
  have hl := required_tagOf isName_sectionName s.isName_attributes hd leftName rfl
  have hr := required_tagOf isName_sectionName s.isName_attributes hd rightName rfl
  rw [sectionOf, expectName_tagOf isName_sectionName, hl, hr]
  rfl

/-- The tag of a suppression opens a suppression of the same change. -/
theorem suppressionOf_tagOf (x : Suppression) :
    suppressionOf (tagOf suppressionName [(changeName, x.change.render)]) =
      .ok ⟨x.change, none, none⟩ := by
  have hd : ([(changeName, x.change.render)].map (·.1)).Nodup := by
    show [changeName].Nodup
    decide
  have hr := required_tagOf isName_suppressionName x.isName_attributes hd changeName rfl
  rw [suppressionOf, expectName_tagOf isName_suppressionName, hr]
  simp only [bind, Except.bind, Change.ofText?_render]
  rfl

/-! ## Following the reader -/

theorem readEvents_next {state state' : Reading} {e : Event} (h : advance state e = .ok state')
    (rest : Events) (hs : ∀ b, state ≠ .finished b := by nofun) :
    readEvents state (.next e rest) = readEvents state' rest := by
  rw [readEvents]
  · rw [h]
  · exact hs

theorem isLayout_newline (depth : Nat) : isLayout (newline depth) = true := by
  simp [isLayout, newline, Markup.isSpace]

theorem layout_newline (place : String) (depth : Nat) (state : Reading) :
    layout place (newline depth) state = .ok state := by
  rw [layout, if_pos (isLayout_newline depth)]

/-- Layout in front of an element is passed over in the states in which one can follow. -/
theorem readEvents_layout (depth : Nat) (rest : Events) :
    readEvents .outside (.next (layoutEvent depth) rest) = readEvents .outside rest ∧
      (∀ ss, readEvents (.inRoot ss) (.next (layoutEvent depth) rest) =
        readEvents (.inRoot ss) rest) ∧
      (∀ ss s, readEvents (.inSection ss s) (.next (layoutEvent depth) rest) =
        readEvents (.inSection ss s) rest) ∧
      ∀ ss s x, readEvents (.inSuppression ss s x) (.next (layoutEvent depth) rest) =
        readEvents (.inSuppression ss s x) rest := by
  have hpass (state : Reading) (h : advance state (layoutEvent depth) = .ok state)
      (hs : ∀ b, state ≠ .finished b) :
      readEvents state (.next (layoutEvent depth) rest) = readEvents state rest :=
    readEvents_next h rest hs
  exact ⟨hpass .outside (layout_newline _ _ _) nofun,
    fun ss => hpass (.inRoot ss) (layout_newline _ _ _) nofun,
    fun ss s => hpass (.inSection ss s) (layout_newline _ _ _) nofun,
    fun ss s x => hpass (.inSuppression ss s x) (layout_newline _ _ _) nofun⟩

theorem Document.Field.ofName?_tagOf (f : Field) : Field.ofName? (tagOf f.name []).name = some f := by
  rw [tagOf_name f.isName_name]
  cases f <;> decide

/-- A leaf of a suppression gives the text it was written with. -/
theorem readEvents_field (ss : List Section) (s : Section) (x : Suppression) (f : Field)
    (text : String) (depth : Nat) (rest : Events) :
    readEvents (.inSuppression ss s x) (.prepend ((Tree.leaf f.name text).events depth) rest) =
      readEvents (.inSuppression ss s (fill x f text)) rest := by
  have hf := f.ofName?_tagOf
  unfold Tree.events
  split
  · next he =>
    have ht : text = "" := by simpa using he
    have hempty : advance (.inSuppression ss s x) (.empty (tagOf f.name [])) =
        .ok (.inSuppression ss s (fill x f text)) := by
      simp only [advance, hf, ht]
    exact readEvents_next hempty rest
  · have hopen : advance (.inSuppression ss s x) (.opening (tagOf f.name [])) =
        .ok (.inField ss s x f []) := by
      simp only [advance, hf]
    have htext : advance (.inField ss s x f []) (.text (escapeText text.toList)) =
        .ok (.inField ss s x f text.toList) := by
      simp only [advance, unescape_escapeText, List.nil_append]
    have hclose : advance (.inField ss s x f text.toList) (.closing f.name.toList) =
        .ok (.inSuppression ss s (fill x f text)) := by
      simp only [advance, String.ofList_toList]
    simp only [Events.prepend_cons, Events.prepend_nil]
    rw [readEvents_next hopen, readEvents_next htext, readEvents_next hclose]

/-- The texts of a suppression, in the order in which they are written. -/
def Suppression.fields (x : Suppression) : List (Field × String) :=
  (x.typeName.map (Field.typeName, ·)).toList ++ (x.message.map (Field.message, ·)).toList

theorem Suppression.toTree_eq (x : Suppression) :
    x.toTree = .branch suppressionName [(changeName, x.change.render)]
      (x.fields.map fun f => .leaf f.1.name f.2) := by
  obtain ⟨change, typeName, message⟩ := x
  cases typeName <;> cases message <;> rfl

/-- Entering the texts of a suppression gives it back. -/
theorem Suppression.foldl_fill (x : Suppression) :
    x.fields.foldl (fun y f => fill y f.1 f.2) ⟨x.change, none, none⟩ = x := by
  obtain ⟨change, typeName, message⟩ := x
  cases typeName <;> cases message <;> rfl

theorem readEvents_fields (ss : List Section) (s : Section) (x : Suppression)
    (fs : List (Field × String)) (depth : Nat) (rest : Events) :
    readEvents (.inSuppression ss s x)
        (.prepend (Tree.eventsAll depth (fs.map fun f => .leaf f.1.name f.2)) rest) =
      readEvents (.inSuppression ss s (fs.foldl (fun y f => fill y f.1 f.2) x)) rest := by
  induction fs generalizing x with
  | nil => rfl
  | cons f fs ih =>
    simp only [List.map_cons, Tree.eventsAll, List.cons_append, Events.prepend_cons,
      Events.prepend_append, List.foldl_cons]
    rw [(readEvents_layout depth _).2.2.2, readEvents_field, ih]

/-- The element of a suppression adds it to the section. -/
theorem readEvents_suppression (ss : List Section) (s : Section) (x : Suppression) (depth : Nat)
    (rest : Events) :
    readEvents (.inSection ss s) (.prepend (x.toTree.events depth) rest) =
      readEvents (.inSection ss (addTo s x)) rest := by
  have htag := suppressionOf_tagOf x
  have hfill := x.foldl_fill
  have hempty : advance (.inSection ss s)
      (.empty (tagOf suppressionName [(changeName, x.change.render)])) =
        .ok (.inSection ss (addTo s ⟨x.change, none, none⟩)) := by
    simp only [advance, htag]; rfl
  have hopen : advance (.inSection ss s)
      (.opening (tagOf suppressionName [(changeName, x.change.render)])) =
        .ok (.inSuppression ss s ⟨x.change, none, none⟩) := by
    simp only [advance, htag]; rfl
  have hclose : advance (.inSuppression ss s x) (.closing suppressionName.toList) =
      .ok (.inSection ss (addTo s x)) := rfl
  rw [x.toTree_eq]
  cases hf : x.fields with
  | nil =>
    rw [hf, List.foldl_nil] at hfill
    rw [hfill] at hempty
    exact readEvents_next hempty rest
  | cons f fs =>
    rw [← hf, Tree.events_branch _ _ _ (by simp [hf])]
    simp only [List.cons_append, Events.prepend_cons, Events.prepend_append, Events.prepend_nil]
    rw [readEvents_next hopen, readEvents_fields, hfill, (readEvents_layout _ _).2.2.2,
      readEvents_next hclose]

theorem readEvents_suppressions (ss : List Section) (s : Section) (xs : List Suppression)
    (depth : Nat) (rest : Events) :
    readEvents (.inSection ss s) (.prepend (Tree.eventsAll depth (xs.map (·.toTree))) rest) =
      readEvents (.inSection ss { s with suppressions := s.suppressions ++ xs }) rest := by
  induction xs generalizing s with
  | nil => simp [Tree.eventsAll]
  | cons x xs ih =>
    simp only [List.map_cons, Tree.eventsAll, List.cons_append, Events.prepend_cons,
      Events.prepend_append]
    rw [(readEvents_layout depth _).2.2.1, readEvents_suppression, ih]
    simp [addTo]

/-- The element of a section adds it to the sections. -/
theorem readEvents_section (ss : List Section) (s : Section) (depth : Nat) (rest : Events) :
    readEvents (.inRoot ss) (.prepend (s.toTree.events depth) rest) =
      readEvents (.inRoot (ss ++ [s])) rest := by
  have htag := sectionOf_tagOf s
  have hempty : advance (.inRoot ss)
      (.empty (tagOf sectionName [(leftName, s.left), (rightName, s.right)])) =
        .ok (.inRoot (ss ++ [⟨s.left, s.right, []⟩])) := by
    simp only [advance, htag]; rfl
  have hopen : advance (.inRoot ss)
      (.opening (tagOf sectionName [(leftName, s.left), (rightName, s.right)])) =
        .ok (.inSection ss ⟨s.left, s.right, []⟩) := by
    simp only [advance, htag]; rfl
  have hclose (t : Section) : advance (.inSection ss t) (.closing sectionName.toList) =
      .ok (.inRoot (ss ++ [t])) := rfl
  obtain ⟨left, right, xs⟩ := s
  cases xs with
  | nil => exact readEvents_next hempty rest
  | cons x xs =>
    rw [Section.toTree, Tree.events_branch _ _ _ (by simp)]
    simp only [List.cons_append, Events.prepend_cons, Events.prepend_append, Events.prepend_nil]
    rw [readEvents_next hopen, readEvents_suppressions, (readEvents_layout _ _).2.2.1,
      readEvents_next (hclose _)]
    rfl

theorem readEvents_sections (ss ts : List Section) (depth : Nat) (rest : Events) :
    readEvents (.inRoot ss) (.prepend (Tree.eventsAll depth (ts.map (·.toTree))) rest) =
      readEvents (.inRoot (ss ++ ts)) rest := by
  induction ts generalizing ss with
  | nil => simp [Tree.eventsAll]
  | cons t ts ih =>
    simp only [List.map_cons, Tree.eventsAll, List.cons_append, Events.prepend_cons,
      Events.prepend_append]
    rw [(readEvents_layout depth _).2.1, readEvents_section, ih]
    simp

/-- The root element is the whole baseline; nothing behind it is read. -/
theorem readEvents_root (b : Baseline) (rest : Events) :
    readEvents .outside (.prepend (b.toTree.events 0) rest) = .ok b := by
  have hopen : advance .outside (.opening (tagOf rootName [])) = .ok (.inRoot []) := by
    simp only [advance, expectName_tagOf isName_rootName]; rfl
  have hempty : advance .outside (.empty (tagOf rootName [])) = .ok (.finished ⟨[]⟩) := by
    simp only [advance, expectName_tagOf isName_rootName]; rfl
  have hclose (ss : List Section) : advance (.inRoot ss) (.closing rootName.toList) =
      .ok (.finished ⟨ss⟩) := rfl
  obtain ⟨ss⟩ := b
  cases ss with
  | nil =>
    simp only [Baseline.toTree, List.map_nil, Tree.events, Events.prepend_cons,
      Events.prepend_nil]
    rw [readEvents_next hempty, readEvents]
  | cons s ss =>
    rw [Baseline.toTree, Tree.events_branch _ _ _ (by simp)]
    simp only [List.cons_append, Events.prepend_cons, Events.prepend_append, Events.prepend_nil]
    rw [readEvents_next hopen, readEvents_sections, (readEvents_layout _ _).2.1,
      readEvents_next (hclose _), readEvents]
    rfl

theorem Baseline.read_document (b : Baseline) :
    Baseline.read (String.ofList b.toTree.document) = .ok b := by
  have hdeclaration : advance .outside .ignored = .ok .outside := rfl
  rw [Baseline.read, String.toList_ofList, events_document _ b.named_toTree,
    readEvents_next hdeclaration, (readEvents_layout 0 _).1, readEvents_root]

end ApiEvolution
