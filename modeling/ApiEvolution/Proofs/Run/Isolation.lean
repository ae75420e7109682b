import Mathlib
import ApiEvolution.Proofs.Catalog
import ApiEvolution.Proofs.Universe.Renaming

/-!
# A job sees only its own files

A job asks for assemblies by simple names that it finds in other assemblies, so what it reads
depends on what it has read before. It never leaves its own paths: readers that agree on these lead
to the same run (`Job.run_isolated`).
-/

namespace ApiEvolution

/-- Readers that agree on the paths of a build load it alike. -/
theorem Build.load_congr {b : Build} {read read' : Reader}
    (h : ∀ p ∈ b.assembly :: b.references, read' p = read p) (context : Nat) :
    b.load read' context = b.load read context := by
  have hread : Renaming.identity.Reads (b.assembly :: b.references) read read' := by
    intro p hp
    rw [h p hp, funext Renaming.assembly_identity]
    cases read p <;> rfl
  have hload := load_renamed rfl rfl hread context
  have hfound : (b.load read context).1.map Renaming.identity.loaded = (b.load read context).1 := by
    rw [funext Renaming.loaded_identity]
    cases (b.load read context).1 <;> rfl
  rw [hfound, Renaming.image_identity] at hload
  exact hload

namespace Job

/-- The files of a job. -/
def paths (j : Job) : List Path :=
  j.left.assembly :: j.left.references ++ j.right.assembly :: j.right.references

variable {j : Job} {read read' : Reader}

theorem load_left_congr (h : ∀ p ∈ j.paths, read' p = read p) (context : Nat) :
    j.left.load read' context = j.left.load read context :=
  Build.load_congr (fun p hp => h p (List.mem_append_left _ hp)) context

theorem load_right_congr (h : ∀ p ∈ j.paths, read' p = read p) (context : Nat) :
    j.right.load read' context = j.right.load read context :=
  Build.load_congr (fun p hp => h p (List.mem_append_right _ hp)) context

/-- Readers that agree on the files of a job lead to the same error or to the same differences and
diagnostics, and to the same reads; and an assembly that is entered under any other path, whatever
its name, has no part in the run. -/
theorem run_isolated (j : Job) (s : Selection) :
    (∀ read read' : Reader, (∀ p ∈ j.paths, read' p = read p) → j.run read' s = j.run read s) ∧
      ∀ (c : Catalog) (p : Path) (a : Assembly), (∀ q ∈ j.paths, p.agrees q = false) →
        j.run (c.insert p a).reader s = j.run c.reader s := by
  have hagree : ∀ read read' : Reader, (∀ p ∈ j.paths, read' p = read p) →
      j.run read' s = j.run read s := by
    intro read read' h
    rw [run, run, load_left_congr h, load_right_congr h]
  refine ⟨hagree, fun c p a hp => hagree _ _ fun q hq => ?_⟩
  rw [Catalog.reader_insert, hp q hq]
  rfl

/-- Another assembly of the same name under another path leaves a constraint type where it is. -/
theorem run_isolated_twoBases :
    let c := Catalog.of [("Old", [.box []], []),
      ("New", [.box [.topLevel (.simple "Dep") "" "Base"]], []),
      ("Dep", [.publicClass "" "Base"], [])]
    let j : Job := ⟨⟨"v1", ⟨"Old"⟩, []⟩, ⟨"v2", ⟨"New"⟩, [⟨"Dep"⟩]⟩⟩
    ((j.run (c.insert ⟨"other/Dep"⟩ (.of "Dep" [] [])).reader .visible).1.map (·.differences)) =
      .ok [.constraint .added "Box" "X" "Base"] := by
  intro c j
  have hsame := (run_isolated j .visible).2 c ⟨"other/Dep"⟩ (.of "Dep" [] []) (by decide)
  rw [hsame]
  cbv

end Job

end ApiEvolution
