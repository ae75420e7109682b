import Mathlib
import ApiEvolution.Proofs.Catalog
import ApiEvolution.Proofs.Run.Forwarding

/-!
# A job whose new build forwards a type

The primary assembly of the new build gives a type away to an assembly that is new to the build and
forwards it there. The job then has the differences that it had before, entry by entry
(`Job.differences_relocated`).

Three things are needed for this apart from the move being as described: descriptors of definitions
are made of definitions only, no exported type ahead of the forwarder leads to where the type
belongs, and the old build does not read the files that change. None of them can be left out
(`Job.exists_differences_relocated_ne`).
-/

namespace ApiEvolution

open Universe

/-! ## The move -/

namespace Relocation

variable (m : Relocation) {read : Reader} {primary home p : Path}

/-- What is read after the move, if the assembly at `primary` forwards the type to the one at
`home`. -/
def reader (primary home : Path) (read : Reader) : Reader := fun p =>
  if p.agrees primary then .ok m.facade.build
  else if p.agrees home then .ok m.home.build
  else read p

theorem reader_primary (h : p.agrees primary) : m.reader primary home read p = .ok m.facade.build :=
  if_pos h

theorem reader_home (h : ¬p.agrees primary) (h' : p.agrees home) :
    m.reader primary home read p = .ok m.home.build := by
  rw [reader, if_neg h, if_pos h']

theorem reader_other (h : ¬p.agrees primary) (h' : ¬p.agrees home) :
    m.reader primary home read p = read p := by
  rw [reader, if_neg h, if_neg h']

end Relocation

/-- The build with a path at position `i` of its references, or behind all of them. -/
def Build.withReference (b : Build) (i : Nat) (p : Path) : Build :=
  { b with references := b.references.take i ++ p :: b.references.drop i }

/-- The job whose new build may refer to the assembly at `p` as well. -/
def Job.withReference (j : Job) (i : Nat) (p : Path) : Job :=
  { j with right := j.right.withReference i p }

/-- What a job and its assemblies are like before the move to `home`. -/
structure Relocation.Possible (m : Relocation) (read : Reader) (j : Job) (home : Path) : Prop where
  primary : ∀ p : Path, p.agrees j.right.assembly → read p = .ok m.before.build
  unique : m.Unique
  elsewhere : key m.target ≠ key m.origin
  unmentioned : j.right.Reads read fun a => ∀ t ∈ a.references, m.Spares t
  stem : home.stem?.any (Text.sameLetters · m.target.name)
  onlyStem : ∀ p ∈ j.right.references, ¬p.stem?.any (Text.sameLetters · m.target.name)
  apart : ¬home.agrees j.right.assembly
  shallowLeft : ∀ a, read j.left.assembly = .ok a → (j.left.world read a).Shallow maxForwards
  shallowRight : (j.right.world read m.before.build).Shallow maxForwards

/-- Nothing that the old build reads changes. -/
def Job.LeftApart (j : Job) (home : Path) : Prop :=
  ∀ p ∈ j.left.assembly :: j.left.references, ¬p.agrees j.right.assembly ∧ ¬p.agrees home

/-! ## What is read after the move -/

namespace Relocation

variable {m : Relocation} {read : Reader} {primary home : Path}

theorem pristine_facade (h : m.before.build.Pristine) : m.facade.build.Pristine := by
  refine h.build fun r hr => ?_
  rcases List.mem_append.1 hr with hr | hr
  · obtain ⟨d, hd, hr⟩ := (AssemblyDeclaration.mem_typeRefs_build (.assembly m.origin)).1 hr
    rw [types_facade] at hd
    refine .inl (List.mem_append_left _ ?_)
    refine (AssemblyDeclaration.mem_typeRefs_build (.assembly m.origin)).2 ⟨d, ?_, hr⟩
    rw [types_before]
    rcases List.mem_append.1 hd with hd | hd
    · exact List.mem_append_left _ hd
    · exact List.mem_append_right _ (List.mem_cons_of_mem _ hd)
  · rw [AssemblyDeclaration.exported_build, exported_facade] at hr
    rw [Assembly.references, AssemblyDeclaration.exported_build, exported_before]
    rcases List.mem_append.1 hr with hr | hr
    · exact .inl (List.mem_append_right _ (List.mem_append_left _ hr))
    · rcases List.mem_cons.1 hr with rfl | hr
      · exact .inr ⟨rfl, rfl⟩
      · exact .inl (List.mem_append_right _ (List.mem_append_right _ hr))

theorem pristine_home (h : m.before.build.Pristine) : m.home.build.Pristine := by
  refine h.build fun r hr => ?_
  rcases List.mem_append.1 hr with hr | hr
  · obtain ⟨d, hd, hr⟩ := (AssemblyDeclaration.mem_typeRefs_build (.assembly m.origin)).1 hr
    have hself : d = m.type := List.mem_singleton.1 hd
    refine .inl (List.mem_append_left _ ?_)
    refine (AssemblyDeclaration.mem_typeRefs_build (.assembly m.origin)).2 ⟨d, ?_, hr⟩
    rw [types_before, hself]
    exact List.mem_append_right _ List.mem_cons_self
  · rw [exported_home] at hr
    exact absurd hr List.not_mem_nil

end Relocation

namespace Build

variable {read read' : Reader} {a : Assembly}

/-- What is read from other paths does not matter to a build. -/
theorem world_congr {b : Build} (h : ∀ p ∈ b.references, read' p = read p) :
    b.world read' a = b.world read a := by
  funext k
  unfold world
  split
  · rfl
  · refine Option.bind_congr fun p hp => ?_
    rw [h p (List.mem_of_find?_eq_some hp)]

theorem load_error {b : Build} {e : LoadError} (he : read b.assembly = .error e) (context : Nat) :
    (b.load read context).1 = .error e := by
  rw [load, loadPrimary]
  simp only [StateT.run_bind]
  rw [he]
  rfl

theorem mem_withReference {b : Build} {i : Nat} {home p : Path}
    (hp : p ∈ (b.withReference i home).assembly :: (b.withReference i home).references) :
    p = home ∨ p ∈ b.assembly :: b.references := by
  rcases List.mem_cons.1 hp with rfl | hp
  · exact .inr List.mem_cons_self
  · rcases List.mem_append.1 hp with hp | hp
    · exact .inr (List.mem_cons_of_mem _ (List.mem_of_mem_take hp))
    · rcases List.mem_cons.1 hp with rfl | hp
      · exact .inl rfl
      · exact .inr (List.mem_cons_of_mem _ (List.mem_of_mem_drop hp))

theorem find?_withReference (b : Build) (i : Nat) {q : Path → Bool} {home : Path}
    (hq : q home = false) : (b.withReference i home).references.find? q = b.references.find? q := by
  have hsplit : b.references = b.references.take i ++ b.references.drop i :=
    (List.take_append_drop i _).symm
  rw [withReference, List.find?_append, List.find?_cons, hq, ← List.find?_append, ← hsplit]

theorem find?_withReference_self (b : Build) (i : Nat) {q : Path → Bool} {home : Path}
    (hq : q home) (hother : ∀ p ∈ b.references, ¬q p) :
    (b.withReference i home).references.find? q = some home := by
  have hahead : (b.references.take i).find? q = none :=
    List.find?_eq_none.2 fun p hp => hother p (List.mem_of_mem_take hp)
  rw [withReference, List.find?_append, hahead, List.find?_cons, hq, Option.none_or]

end Build

namespace Relocation.Possible

variable {m : Relocation} {read : Reader} {j : Job} {home : Path}

theorem primary_self (h : m.Possible read j home) : read j.right.assembly = .ok m.before.build :=
  h.primary _ (Path.agrees_refl _)

theorem any_stem (h : m.Possible read j home) {k : String} :
    home.stem?.any (Text.lower · == k) ↔ k = key m.target := by
  obtain ⟨stem, hstem, hsame⟩ := (Option.any_eq_true _ _).1 h.stem
  rw [hstem, Option.any_some, beq_iff_eq, Text.sameLetters_iff.1 hsame]
  exact eq_comm

/-- No reference path leads where the new one does. -/
theorem not_agrees_home (h : m.Possible read j home) {p : Path} (hp : p ∈ j.right.references) :
    ¬p.agrees home := by
  intro hagrees
  refine h.onlyStem p hp ?_
  rw [Path.stem?_eq_of_agrees hagrees]
  exact h.stem

/-- Assemblies are as they were declared after the move, too. -/
theorem pristine (h : m.Possible read j home) (hread : j.Pristine read) (hleft : j.LeftApart home)
    (i : Nat) : (j.withReference i home).Pristine (m.reader j.right.assembly home read) := by
  have hbefore : m.before.build.Pristine := hread.2 _ List.mem_cons_self _ h.primary_self
  refine ⟨fun p hp a ha => ?_, fun p hp a ha => ?_⟩
  · rw [m.reader_other (hleft p hp).1 (hleft p hp).2] at ha
    exact hread.1 p hp a ha
  · rw [Relocation.reader] at ha
    split at ha
    · cases ha
      exact Relocation.pristine_facade hbefore
    · next hprimary =>
      split at ha
      · cases ha
        exact Relocation.pristine_home hbefore
      · next hhome =>
        refine hread.2 p ?_ a ha
        have hmem := Build.mem_withReference hp
        rcases hmem with rfl | hmem
        · exact absurd (Path.agrees_refl p) hhome
        · exact hmem

/-- The move, in the worlds of the new build. -/
theorem relocated (h : m.Possible read j home) (hread : j.Pristine read) (i : Nat) :
    Relocated m (j.right.world read m.before.build)
      ((j.right.withReference i home).world (m.reader j.right.assembly home read)
        m.facade.build) where
  unique := h.unique
  elsewhere := h.elsewhere
  pristine := Build.world_pristine hread.2 h.primary_self
  spared _ _ ha := h.unmentioned.of_world h.primary_self ha
  target := by
    have hother : ∀ p ∈ j.right.references, ¬p.stem?.any (Text.lower · == key m.target) :=
      h.onlyStem
    have hne : key m.target ≠ key m.facade.build.name := h.elsewhere
    rw [Build.world, if_neg hne, Build.find?_withReference_self _ _ (h.any_stem.2 rfl) hother,
      Option.bind_some, m.reader_home h.apart (Path.agrees_refl _)]
    rfl
  others := by
    intro k hk
    have hname : m.facade.build.name = m.before.build.name := rfl
    have hstem : home.stem?.any (Text.lower · == k) = false :=
      Bool.not_eq_true _ ▸ fun hany => hk (h.any_stem.1 hany)
    unfold Build.world
    rw [Build.find?_withReference _ _ hstem, hname]
    by_cases hown : k = key m.before.build.name
    · rw [if_pos hown, if_pos hown]
      exact .inr ⟨rfl, rfl⟩
    · rw [if_neg hown, if_neg hown]
      cases hp : j.right.references.find? fun p => p.stem?.any (Text.lower · == k) with
      | none => exact .inl rfl
      | some p =>
        rw [Option.bind_some, Option.bind_some]
        by_cases hprimary : p.agrees j.right.assembly
        · rw [m.reader_primary hprimary, h.primary p hprimary]
          exact .inr ⟨rfl, rfl⟩
        · rw [m.reader_other hprimary (h.not_agrees_home (List.mem_of_find?_eq_some hp))]
          exact .inl rfl

end Relocation.Possible

/-! ## Registering assemblies -/

namespace Catalog

variable {c : Catalog}

theorem pristine_reader (h : ∀ e ∈ c.entries, e.2.Pristine) (j : Job) : j.Pristine c.reader := by
  refine ⟨fun p _ a ha => ?_, fun p _ a ha => ?_⟩
  · obtain ⟨e, he, rfl⟩ := mem_of_reader ha
    exact h e he
  · obtain ⟨e, he, rfl⟩ := mem_of_reader ha
    exact h e he

/-- Without exported types nothing is followed. -/
theorem shallow_world {b : Build} (ha : c.reader b.assembly = .ok a)
    (h : ∀ e ∈ c.entries, e.2.exported = []) : (b.world c.reader a).Shallow maxForwards := by
  have hreads : b.Reads c.reader fun d => d.exported = [] := by
    intro p _ d hd
    obtain ⟨e, he, rfl⟩ := mem_of_reader hd
    exact h e he
  exact World.shallow_of_exported_nil (fun _ _ hd => hreads.of_world ha hd) (by decide)

end Catalog

/-- The move is made by registering the two assemblies. -/
theorem Relocation.reader_insert {m : Relocation} (h : m.before.build.Pristine) (c : Catalog)
    {primary home : Path} (hapart : ¬home.agrees primary) :
    ((c.insert primary m.facade.build).insert home m.home.build).reader =
      m.reader primary home c.reader := by
  funext p
  rw [Catalog.reader_insert, Catalog.reader_insert, (pristine_facade h).unbound,
    (pristine_home h).unbound, reader, Path.agrees_comm home p, Path.agrees_comm primary p]
  by_cases hprimary : p.agrees primary
  · have hhome : ¬p.agrees home := fun hhome =>
      hapart (Path.agrees_trans (Path.agrees_comm p home ▸ hhome) hprimary)
    rw [if_neg hhome, if_pos hprimary, if_pos hprimary]
  · rw [if_neg hprimary, if_neg hprimary]

/-! ## The differences -/

theorem Job.outcome_of_left_error {read : Reader} {j : Job} {e : LoadError}
    (he : read j.left.assembly = .error e) (s : Selection) : j.outcome read s = .error e := by
  have hload := Build.load_error he 0
  rw [outcome, run]
  cases hrun : j.left.load read 0 with
  | mk result u =>
    rw [hrun] at hload
    subst hload
    rfl

/-- Forwarding a type of the new build to another assembly changes no difference. -/
theorem Job.differences_relocated {m : Relocation} {read : Reader} {j : Job} {home : Path}
    (h : m.Possible read j home) (hread : j.Pristine read) (hleft : j.LeftApart home)
    (hforemost : m.Foremost (j.right.world read m.before.build)) (i : Nat) :
    ((j.withReference i home).outcome (m.reader j.right.assembly home read) .visible).map
        (·.differences) =
      (j.outcome read .visible).map (·.differences) := by
  have hsame : ∀ p ∈ j.left.assembly :: j.left.references,
      m.reader j.right.assembly home read p = read p := fun p hp =>
    m.reader_other (hleft p hp).1 (hleft p hp).2
  have hassembly := hsame _ List.mem_cons_self
  cases ha : read j.left.assembly with
  | error e =>
    rw [ha] at hassembly
    have hafter := outcome_of_left_error (j := j.withReference i home) hassembly .visible
    rw [outcome_of_left_error ha, hafter]
  | ok a =>
    rw [ha] at hassembly
    have hworld : j.left.world (m.reader j.right.assembly home read) a = j.left.world read a :=
      Build.world_congr fun p hp => hsame p (List.mem_cons_of_mem _ hp)
    have hrelocated := h.relocated hread i
    have hshallow := (h.shallowLeft a ha).succ
    have hbefore := differences_outcome hread ha h.primary_self hshallow h.shallowRight.succ
      Selection.blind_visible
    have hafter := differences_outcome (h.pristine hread hleft i) hassembly
      (m.reader_primary (Path.agrees_refl _)) (hworld ▸ hshallow)
      (hrelocated.shallow h.shallowRight) Selection.blind_visible
    have hseen : j.left.seen (m.reader j.right.assembly home read) .visible a =
        j.left.seen read .visible a := by
      rw [Build.seen, hworld, Build.seen]
    rw [hbefore, hafter]
    refine congrArg Except.ok ((congrArg (Selection.differencesOf _ _ · _) hseen).trans ?_)
    exact Selection.differencesOf_congr fun path =>
      (hrelocated.typesAt_surface h.shallowRight Selection.blind_visible Build.world_own hforemost
        path).symm

/-! ## Moves of a small class -/

namespace Relocation

def plain (name : String) : AssemblyName :=
  ⟨name, .zero, none⟩

/-- A class that moves from `L` to `N`, a type that stays, and exported types. -/
def small (type stays : TypeDeclaration) (exported : List TypeRef) : Relocation where
  origin := plain "L"
  target := plain "N"
  modulesAhead := []
  moduleName := "L.dll"
  typesAhead := []
  type
  typesBehind := [stays]
  exportedAhead := exported
  exportedBehind := []
  modulesBehind := []

def smallJob (lefts rights : List Path) : Job :=
  ⟨⟨"v1", ⟨"O"⟩, lefts⟩, ⟨"v2", ⟨"L"⟩, rights⟩⟩

/-- An assembly of a few types. -/
def holding (name : String) (types : List TypeDeclaration) : Assembly :=
  AssemblyDeclaration.build ⟨plain name, [AssemblyDeclaration.mainModule (plain name) types []]⟩

/-- The assemblies of a small job: the old one, the one with the class, and others. -/
def smallCatalog (m : Relocation) (old : Assembly) (others : List (Path × Assembly)) : Catalog :=
  ⟨(⟨"O"⟩, old) :: (⟨"L"⟩, m.before.build) :: others⟩

theorem reader_small_new (m : Relocation) (old : Assembly) (others : List (Path × Assembly)) :
    (smallCatalog m old others).reader ⟨"L"⟩ = .ok m.before.build := by
  have hother : (Path.mk "O").agrees ⟨"L"⟩ = false := by decide
  rw [Catalog.reader, Catalog.find?, smallCatalog, List.find?_cons, hother, List.find?_cons,
    Path.agrees_refl]
  rfl

theorem reader_small_old (m : Relocation) (old : Assembly) (others : List (Path × Assembly)) :
    (smallCatalog m old others).reader ⟨"O"⟩ = .ok old := by
  rw [Catalog.reader, Catalog.find?, smallCatalog, List.find?_cons, Path.agrees_refl]
  rfl

theorem possible_small {type stays : TypeDeclaration} {exported : List TypeRef} {old : Assembly}
    {others : List (Path × Assembly)} {lefts rights : List Path}
    (hunique : (small type stays exported).Unique)
    (hrefs : ∀ e ∈ (smallCatalog (small type stays exported) old others).entries,
      ∀ t ∈ e.2.references, key t.assembly ≠ "n")
    (hstems : ∀ p ∈ rights, ¬p.stem?.any (Text.sameLetters · "N"))
    (hleft : ((smallJob lefts rights).left.world
      (smallCatalog (small type stays exported) old others).reader old).Shallow maxForwards)
    (hright : ((smallJob lefts rights).right.world
      (smallCatalog (small type stays exported) old others).reader
      (small type stays exported).before.build).Shallow maxForwards) :
    (small type stays exported).Possible
      (smallCatalog (small type stays exported) old others).reader (smallJob lefts rights)
      ⟨"N"⟩ where
  primary _ hp := Catalog.reader_of_agrees hp (reader_small_new _ old others)
  unique := hunique
  elsewhere := by
    have hkeys : key (plain "N") ≠ key (plain "L") := by decide
    exact hkeys
  unmentioned := by
    intro p _ a ha t ht
    obtain ⟨e, he, rfl⟩ := Catalog.mem_of_reader ha
    have hkey : key (plain "N") = "n" := by decide
    intro hsame
    exact hrefs e he t ht (hsame.trans hkey)
  stem := by
    have hstem : (Path.mk "N").stem?.any (Text.sameLetters · "N") := by decide
    exact hstem
  onlyStem := hstems
  apart := by
    have hpaths : ¬(Path.mk "N").agrees ⟨"L"⟩ := by decide
    exact hpaths
  shallowLeft a ha := by
    cases (reader_small_old _ old others).symm.trans ha
    exact hleft
  shallowRight := hright

theorem pristine_small {m : Relocation} {old : Assembly} {others : List (Path × Assembly)}
    (hold : old.Pristine) (hm : m.before.build.Pristine) (hothers : ∀ e ∈ others, e.2.Pristine)
    (j : Job) : j.Pristine (smallCatalog m old others).reader := by
  refine Catalog.pristine_reader (fun e he => ?_) j
  rcases List.mem_cons.1 he with rfl | he
  · exact hold
  · rcases List.mem_cons.1 he with rfl | he
    · exact hm
    · exact hothers e he

/-- A class that no types can be derived from any more, although it is not sealed. -/
def closing : Relocation :=
  small (.publicClass "" "Shell") (.hidden "Other") []

def closingCatalog : Catalog :=
  smallCatalog closing
    (holding "L" [(TypeDeclaration.publicClass "" "Shell").member (.constructor .publicScope)]) []

theorem possible_closing : closing.Possible closingCatalog.reader (smallJob [] []) ⟨"N"⟩ :=
  possible_small ⟨by decide, by decide⟩ (by decide) (by decide)
    (Catalog.shallow_world rfl (by decide)) (Catalog.shallow_world rfl (by decide))

theorem pristine_closing : (smallJob [] []).Pristine closingCatalog.reader :=
  pristine_small ⟨⟨_, rfl⟩, rfl, by decide⟩ ⟨⟨_, rfl⟩, rfl, by decide⟩
    (fun _ he => absurd he List.not_mem_nil) _

theorem foremost_small (type stays : TypeDeclaration) (w : World) :
    (small type stays []).Foremost w :=
  fun _ he => absurd he List.not_mem_nil

theorem leftApart_small (rights : List Path) : (smallJob [] rights).LeftApart ⟨"N"⟩ := by
  have hpaths : ¬(Path.mk "O").agrees ⟨"L"⟩ ∧ ¬(Path.mk "O").agrees ⟨"N"⟩ := by decide
  intro p hp
  rw [List.mem_singleton.1 hp]
  exact hpaths

end Relocation

open Relocation

theorem Job.differences_relocated_closing :
    (((smallJob [] []).withReference 0 ⟨"N"⟩).outcome
        (closing.reader ⟨"L"⟩ ⟨"N"⟩ closingCatalog.reader) .visible).map (·.differences) =
      .ok [.sealing "Shell" false] := by
  have hsame := Job.differences_relocated possible_closing pristine_closing (leftApart_small [])
    (foremost_small _ _ _) 0
  refine hsame.trans ?_
  cbv

/-! ## What is needed of other assemblies -/

namespace Relocation

/-- A nested class; types can be derived from it if it has a constructor. -/
def inner (members : List MemberDeclaration) : TypeDeclaration :=
  { (TypeDeclaration.hidden "Inner").visibility TypeDefinition.nestedPublicFlag with members }

/-- A class whose type parameter has a constraint. -/
def user (constraint : TypeRef) : TypeDeclaration :=
  (TypeDeclaration.publicClass "" "User").generic
    { name := "X", constraints := [.named constraint] }

def shellIn (assembly : AssemblyName) : TypeRef :=
  .topLevel assembly "" "Shell"

/-- The old build describes a definition that is nested in something that is none. -/
def chaining : Relocation :=
  small ((TypeDeclaration.hidden "Shell").nest (inner []))
    (user (.mk "" "Inner" (.nested (shellIn ⟨"L", .zero, some "en"⟩)) .unbound)) []

def chainingCatalog : Catalog :=
  smallCatalog chaining
    (holding "A" [user (.mk "" "Inner" (.nested (shellIn (plain "L"))) .definition)]) []

theorem possible_chaining : chaining.Possible chainingCatalog.reader (smallJob [] []) ⟨"N"⟩ :=
  possible_small ⟨by decide, by decide⟩ (by decide) (by decide)
    (Catalog.shallow_world rfl (by decide)) (Catalog.shallow_world rfl (by decide))

theorem differences_chaining :
    ((smallJob [] []).outcome chainingCatalog.reader .visible).map (·.differences) = .ok [] ∧
      (((smallJob [] []).withReference 0 ⟨"N"⟩).outcome
          (chaining.reader ⟨"L"⟩ ⟨"N"⟩ chainingCatalog.reader) .visible).map (·.differences) =
        .ok [.constraint .added "User" "X" "Shell+Inner",
          .constraint .removed "User" "X" "Shell+Inner"] :=
  ⟨by cbv, by cbv⟩

/-- The old build refers to the assembly that the class leaves. -/
def sharing : Relocation :=
  small (.hidden "Shell") (user (shellIn ⟨"L", .zero, some "en"⟩)) []

def sharingCatalog : Catalog :=
  smallCatalog sharing (holding "A" [user (shellIn (plain "L"))]) []

theorem possible_sharing : sharing.Possible sharingCatalog.reader (smallJob [⟨"L"⟩] []) ⟨"N"⟩ :=
  possible_small ⟨by decide, by decide⟩ (by decide) (by decide)
    (Catalog.shallow_world rfl (by decide)) (Catalog.shallow_world rfl (by decide))

theorem pristine_sharing : (smallJob [⟨"L"⟩] []).Pristine sharingCatalog.reader :=
  pristine_small ⟨⟨_, rfl⟩, rfl, by decide⟩ ⟨⟨_, rfl⟩, rfl, by decide⟩
    (fun _ he => absurd he List.not_mem_nil) _

theorem differences_sharing :
    ((smallJob [⟨"L"⟩] []).outcome sharingCatalog.reader .visible).map (·.differences) = .ok [] ∧
      (((smallJob [⟨"L"⟩] []).withReference 0 ⟨"N"⟩).outcome
          (sharing.reader ⟨"L"⟩ ⟨"N"⟩ sharingCatalog.reader) .visible).map (·.differences) =
        .ok [.constraint .added "User" "X" "Shell"] :=
  ⟨by cbv, by cbv⟩

/-- An exported type leads to a class of the same path as one that is nested in the moved one. -/
def echoing : Relocation :=
  small ((TypeDeclaration.publicClass "" "Shell").nest (inner [.constructor .publicScope]))
    (.hidden "Other") [.mk "" "Inner" (.nested (shellIn (plain "E"))) .unbound]

def echoingOld : Assembly :=
  holding "L" [(TypeDeclaration.publicClass "" "Shell").nest (inner [.constructor .publicScope])]

def echoingCatalog : Catalog :=
  smallCatalog echoing echoingOld
    [(⟨"E"⟩, holding "E" [(TypeDeclaration.publicClass "" "Shell").nest (inner [])])]

theorem shallow_echoing_left (read : Reader) :
    ((smallJob [] [⟨"E"⟩]).left.world read echoingOld).Shallow maxForwards := by
  refine World.shallow_of_exported_nil (fun k a ha => ?_) (by decide)
  rcases Build.mem_of_world ha with rfl | ⟨p, hp, -⟩
  · rfl
  · exact absurd hp List.not_mem_nil

theorem shallow_echoing_right : ((smallJob [] [⟨"E"⟩]).right.world echoingCatalog.reader
    echoing.before.build).Shallow maxForwards := by
  refine World.shallow_of_rank (fun k => if k = "l" then 1 else 0) (fun k a ha e he => ?_)
    fun k => ?_
  · have hkey : key echoing.before.build.name = "l" := by decide
    unfold Build.world at ha
    rw [hkey] at ha
    split at ha
    · next hk =>
      cases ha
      have hexported : ∀ e ∈ echoing.before.build.exported, key e.assembly ≠ "l" := by decide
      simp [hk, hexported e he]
    · obtain ⟨p, hp, ha⟩ := Option.bind_eq_some_iff.1 ha
      rw [List.mem_singleton.1 (List.mem_of_find?_eq_some hp)] at ha
      cases ha
      exact absurd he List.not_mem_nil
  · simp only [maxForwards]
    split <;> omega

theorem possible_echoing :
    echoing.Possible echoingCatalog.reader (smallJob [] [⟨"E"⟩]) ⟨"N"⟩ :=
  possible_small ⟨by decide, by decide⟩ (by decide) (by decide) (shallow_echoing_left _)
    shallow_echoing_right

theorem pristine_echoing : (smallJob [] [⟨"E"⟩]).Pristine echoingCatalog.reader := by
  refine pristine_small ⟨⟨_, rfl⟩, rfl, by decide⟩ ⟨⟨_, rfl⟩, rfl, by decide⟩ (fun e he => ?_) _
  rw [List.mem_singleton.1 he]
  exact ⟨⟨_, rfl⟩, rfl, by decide⟩

theorem differences_echoing :
    ((smallJob [] [⟨"E"⟩]).outcome echoingCatalog.reader .visible).map (·.differences) =
        .ok [.sealing "Shell+Inner" false] ∧
      (((smallJob [] [⟨"E"⟩]).withReference 0 ⟨"N"⟩).outcome
          (echoing.reader ⟨"L"⟩ ⟨"N"⟩ echoingCatalog.reader) .visible).map (·.differences) =
        .ok [] := by
  have hrelocated := possible_echoing.relocated pristine_echoing 0
  refine ⟨?_, ?_⟩
  · rw [Job.differences_outcome (a := echoingOld) (b := echoing.before.build) pristine_echoing rfl
      rfl (shallow_echoing_left _).succ shallow_echoing_right.succ Selection.blind_visible]
    cbv
  · have hread := possible_echoing.pristine pristine_echoing (leftApart_small _) 0
    have hnew : echoing.reader ⟨"L"⟩ ⟨"N"⟩ echoingCatalog.reader ⟨"L"⟩ = .ok echoing.facade.build :=
      reader_primary echoing (Path.agrees_refl _)
    have hafter := Job.differences_outcome (a := echoingOld) hread rfl hnew
      (shallow_echoing_left _).succ (hrelocated.shallow shallow_echoing_right)
      Selection.blind_visible
    refine hafter.trans ?_
    cbv

end Relocation

/-- Forwarding may change differences if the old build describes a definition that is nested in
something else, if an exported type ahead of the forwarder leads to a definition of the same path,
or if the old build reads the assembly that the type leaves. -/
theorem Job.exists_differences_relocated_ne :
    (chaining.Possible chainingCatalog.reader (smallJob [] []) ⟨"N"⟩ ∧
      (∀ p a, chainingCatalog.reader p = .ok a → (∃ d, AssemblyDeclaration.build d = a) ∧
        a.detached = a) ∧
      (smallJob [] []).LeftApart ⟨"N"⟩ ∧
      chaining.Foremost
        ((smallJob [] []).right.world chainingCatalog.reader chaining.before.build) ∧
      (((smallJob [] []).withReference 0 ⟨"N"⟩).outcome
          (chaining.reader ⟨"L"⟩ ⟨"N"⟩ chainingCatalog.reader) .visible).map (·.differences) ≠
        ((smallJob [] []).outcome chainingCatalog.reader .visible).map (·.differences)) ∧
    (echoing.Possible echoingCatalog.reader (smallJob [] [⟨"E"⟩]) ⟨"N"⟩ ∧
      (smallJob [] [⟨"E"⟩]).Pristine echoingCatalog.reader ∧ (smallJob [] [⟨"E"⟩]).LeftApart ⟨"N"⟩ ∧
      (((smallJob [] [⟨"E"⟩]).withReference 0 ⟨"N"⟩).outcome
          (echoing.reader ⟨"L"⟩ ⟨"N"⟩ echoingCatalog.reader) .visible).map (·.differences) ≠
        ((smallJob [] [⟨"E"⟩]).outcome echoingCatalog.reader .visible).map (·.differences)) ∧
    (sharing.Possible sharingCatalog.reader (smallJob [⟨"L"⟩] []) ⟨"N"⟩ ∧
      (smallJob [⟨"L"⟩] []).Pristine sharingCatalog.reader ∧
      sharing.Foremost
        ((smallJob [⟨"L"⟩] []).right.world sharingCatalog.reader sharing.before.build) ∧
      (((smallJob [⟨"L"⟩] []).withReference 0 ⟨"N"⟩).outcome
          (sharing.reader ⟨"L"⟩ ⟨"N"⟩ sharingCatalog.reader) .visible).map (·.differences) ≠
        ((smallJob [⟨"L"⟩] []).outcome sharingCatalog.reader .visible).map (·.differences)) := by
  refine ⟨⟨possible_chaining, fun p a ha => ?_, leftApart_small _, foremost_small _ _ _, ?_⟩,
    ⟨possible_echoing, pristine_echoing, leftApart_small _, ?_⟩,
    ⟨possible_sharing, pristine_sharing, foremost_small _ _ _, ?_⟩⟩
  · obtain ⟨e, he, rfl⟩ := Catalog.mem_of_reader ha
    simp only [chainingCatalog, smallCatalog, List.mem_cons, List.not_mem_nil, or_false] at he
    rcases he with rfl | rfl
    · exact ⟨⟨_, rfl⟩, rfl⟩
    · exact ⟨⟨_, rfl⟩, rfl⟩
  · rw [differences_chaining.1, differences_chaining.2]
    nofun
  · rw [differences_echoing.1, differences_echoing.2]
    nofun
  · rw [differences_sharing.1, differences_sharing.2]
    nofun

end ApiEvolution
