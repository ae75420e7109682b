import ApiEvolution.Catalog
import ApiEvolution.Proofs.Surface.Declared

/-!
# What a catalog reads

A path reads what was registered last under a path that agrees with it (`Catalog.reader_insert`),
and nothing is read that was not entered (`Catalog.mem_of_reader`). The catalogs of examples hold
assemblies of one module under their simple names (`Catalog.of`).
-/

namespace ApiEvolution

theorem Path.agrees_congr {p q : Path} (h : p.agrees q) (r : Path) : r.agrees p = r.agrees q := by
  simp only [agrees, beq_iff_eq] at h ⊢
  rw [h]

namespace Catalog

variable {c : Catalog} {p q : Path} {a : Assembly}

/-- A path reads what was registered for it last. -/
theorem find?_insert (c : Catalog) (p q : Path) (a : Assembly) :
    (c.insert p a).find? q = if p.agrees q then some a.detached else c.find? q := by
  have hreplace (r : Path) : ((fun e : Path × Assembly => e.1.agrees r) ∘
      fun e : Path × Assembly => if e.1.agrees p then (e.1, a.detached) else e) =
        fun e => e.1.agrees r := by
    funext e
    simp only [Function.comp_apply]
    split <;> rfl
  rw [insert]
  split
  · next hc =>
    rw [find?, List.find?_map, hreplace, Option.map_map]
    by_cases hpq : p.agrees q
    · obtain ⟨e, he⟩ := Option.isSome_iff_exists.1 (Option.isSome_map.symm.trans hc)
      have hagrees := List.find?_some (p := fun e : Path × Assembly => e.1.agrees p) he
      simp only [Path.agrees_congr hpq] at he hagrees
      rw [if_pos hpq, he, Option.map_some, Function.comp_apply, Path.agrees_congr hpq,
        if_pos hagrees]
    · rw [if_neg hpq, find?]
      refine Option.map_congr fun e he => ?_
      have hq := List.find?_some (p := fun e : Path × Assembly => e.1.agrees q) he
      have hp : ¬e.1.agrees p := fun hp => hpq (Path.agrees_trans (Path.agrees_comm p e.1 ▸ hp) hq)
      rw [Function.comp_apply, if_neg hp]
  · next hc =>
    rw [find?, List.find?_append, List.find?_singleton]
    by_cases hpq : p.agrees q
    · have hnone : c.entries.find? (fun e => e.1.agrees p) = none :=
        Option.map_eq_none_iff.1 (Option.not_isSome_iff_eq_none.1 hc)
      simp only [Path.agrees_congr hpq] at hnone
      rw [if_pos hpq, if_pos hpq, hnone]
      rfl
    · rw [if_neg hpq, if_neg hpq, Option.or_none, find?]

theorem reader_insert (c : Catalog) (p : Path) (a : Assembly) (q : Path) :
    (c.insert p a).reader q = if p.agrees q then .ok a.detached else c.reader q := by
  rw [reader, find?_insert]
  by_cases hpq : p.agrees q
  · rw [if_pos hpq, if_pos hpq]
  · rw [if_neg hpq, if_neg hpq, reader]

theorem mem_of_reader (h : c.reader p = .ok a) : ∃ e ∈ c.entries, e.2 = a := by
  rw [reader] at h
  split at h
  · next b hb =>
    cases h
    obtain ⟨e, he, hfound⟩ := Option.map_eq_some_iff.1 hb
    exact ⟨e, List.mem_of_find?_eq_some he, hfound⟩
  · cases h

theorem reader_of_agrees (h : p.agrees q) (hq : c.reader q = .ok a) : c.reader p = .ok a := by
  have hfind : c.find? p = c.find? q := by
    rw [find?, find?]
    simp only [Path.agrees_congr h]
  rw [reader, hfind]
  rw [reader] at hq
  split at hq
  · exact hq
  · cases hq

end Catalog

/-! ## Small catalogs -/

/-- The neutral name of an assembly without a version. -/
def AssemblyName.simple (name : String) : AssemblyName :=
  ⟨name, .zero, none⟩

/-- A public class whose type parameter has these constraints. -/
def TypeDeclaration.box (constraints : List TypeRef) : TypeDeclaration :=
  (publicClass "" "Box").generic { name := "X", constraints := constraints.map .named }

/-- An assembly of one module. -/
def Assembly.of (name : String) (types : List TypeDeclaration) (exported : List TypeRef) :
    Assembly :=
  AssemblyDeclaration.build
    ⟨.simple name, [AssemblyDeclaration.mainModule (.simple name) types exported]⟩

/-- The assemblies with these names, types and exported types. -/
def Catalog.of (assemblies : List (String × List TypeDeclaration × List TypeRef)) : Catalog :=
  ⟨assemblies.map fun a => (⟨a.1⟩, .of a.1 a.2.1 a.2.2)⟩

theorem Catalog.built_of {assemblies : List (String × List TypeDeclaration × List TypeRef)}
    (h : ∀ a ∈ assemblies, ∀ r ∈ (Assembly.of a.1 a.2.1 a.2.2).references, r.detached = r) (p : Path)
    (a : Assembly) (ha : (Catalog.of assemblies).reader p = .ok a) : a.Built := by
  obtain ⟨e, he, rfl⟩ := mem_of_reader ha
  obtain ⟨b, hb, rfl⟩ := List.mem_map.1 he
  exact ⟨⟨_, rfl⟩, AssemblyDeclaration.detached_build (h b hb)⟩

end ApiEvolution
