import ApiEvolution.Proofs.Pairing.Renaming
import ApiEvolution.Proofs.Run.Isolation

/-!
# Versions and letter case of assembly names

The names of assemblies may be written in other letter case and with other versions, each occurrence
in its own way: in the names of assemblies themselves, in the scopes of references and of types, and
in exported types. The differences of a job stay the same (`Job.differences_respelled`). For all
spellings fold to one, and folding a job renames it.
-/

namespace ApiEvolution

namespace Text

theorem lowerChar_lowerChar (c : Char) : lowerChar (lowerChar c) = lowerChar c := by
  unfold lowerChar
  by_cases h : 65 ≤ c.toNat ∧ c.toNat ≤ 90
  · have hsmall : (Char.ofNat (c.toNat + 32)).toNat = c.toNat + 32 := by
      have hvalid : (c.toNat + 32).isValidChar := Or.inl (by omega)
      rw [Char.ofNat, dif_pos hvalid]
      rfl
    rw [if_pos h, hsmall, if_neg (by omega)]
  · rw [if_neg h, if_neg h]

theorem lower_lower (s : String) : lower (lower s) = lower s := by
  have hchars : lowerChar ∘ lowerChar = lowerChar := funext lowerChar_lowerChar
  rw [lower, lower, String.toList_ofList, List.map_map, hchars]

end Text

/-- Simple names are written in small letters, and versions are left out. -/
def Renaming.folding : Renaming where
  simpleName := Text.lower
  version _ := .zero
  context := id
  lower_simpleName := Text.lower_lower
  injective := Function.injective_id

/-- The assembly with every name of an assembly in it in small letters and without a version. -/
def Assembly.folded (a : Assembly) : Assembly :=
  Renaming.folding.assembly a

namespace Job

variable {read read' : Reader} {j : Job}

/-- The two builds of a job are renamed alike, and differ as they did before. -/
theorem differences_renamed {s : Selection} {F : Renaming} (hcontext : ∀ n, F.context n = n)
    (hF : s.comparer.Overlooks F) (hread : F.Reads j.paths read read') :
    (j.outcome read' s).map (·.differences) = (j.outcome read (s.along F)).map (·.differences) := by
  have hleft := Build.load_renamed rfl rfl (fun p hp => hread p (List.mem_append_left _ hp)) 0
  have hright := Build.load_renamed rfl rfl (fun p hp => hread p (List.mem_append_right _ hp)) 1
  rw [hcontext] at hleft hright
  rw [outcome, outcome, run, run, hleft, hright]
  obtain ⟨l, u⟩ := j.left.load read 0
  cases l with
  | error e => rfl
  | ok l =>
    obtain ⟨r, v⟩ := j.right.load read 1
    cases r with
    | error e => rfl
    | ok r => exact congrArg Except.ok (compareLoaded_renamed hF (l, u) (r, v))

/-- Respelling names of assemblies, here and there and as one likes, does not change what differs.
-/
theorem differences_respelled
    (h : ∀ p ∈ j.paths, (read' p).map Assembly.folded = (read p).map Assembly.folded) :
    (j.outcome read' .visible).map (·.differences) =
      (j.outcome read .visible).map (·.differences) := by
  -- both readers fold to the same one
  let folded : Reader := fun p => (read p).map Assembly.folded
  have hread : Renaming.folding.Reads j.paths read folded := fun _ _ => rfl
  have hread' : Renaming.folding.Reads j.paths read' folded := fun p hp => (h p hp).symm
  have hoverlooks := Comparer.agnostic_overlooks .folding
  have hsame := differences_renamed (s := .visible) (fun _ => rfl) hoverlooks hread
  have hsame' := differences_renamed (s := .visible) (fun _ => rfl) hoverlooks hread'
  rw [Selection.visible_along] at hsame hsame'
  exact hsame'.symm.trans hsame

/-- A class gets a constraint, whose type is asked for in the assembly `asked` and is declared in
`own`. -/
def spelled (own asked : AssemblyName) : Reader := fun p =>
  if p.text = "Old" then .ok (.of "Old" [.box []] [])
  else if p.text = "New" then .ok (.of "New" [.box [.topLevel asked "" "Base"]] [])
  else .ok (AssemblyDeclaration.build ⟨own, [⟨"Dep.dll", [.publicClass "" "Base"], []⟩]⟩)

theorem folded_spelled {own own' asked asked' : AssemblyName}
    (hown : Renaming.folding.name own' = Renaming.folding.name own)
    (hasked : Renaming.folding.name asked' = Renaming.folding.name asked) (p : Path) :
    (spelled own' asked' p).map Assembly.folded = (spelled own asked p).map Assembly.folded := by
  have hnew : (Assembly.of "New" [.box [.topLevel asked' "" "Base"]] []).folded =
      (Assembly.of "New" [.box [.topLevel asked "" "Base"]] []).folded := by
    have hconstraint : Renaming.folding.ref (.topLevel asked' "" "Base") =
        Renaming.folding.ref (.topLevel asked "" "Base") :=
      congrArg (TypeRef.mk "" "Base" · .unbound) (congrArg Scope.assembly hasked)
    simp only [Assembly.folded, Renaming.assembly, Assembly.map, Module.map, Assembly.of,
      AssemblyDeclaration.build, AssemblyDeclaration.mainModule, TypeDeclaration.box,
      TypeDeclaration.generic, TypeDeclaration.publicClass, TypeDeclaration.hidden,
      TypeDeclaration.buildAll, TypeDeclaration.build, TypeDefinition.mapAll, TypeDefinition.map,
      GenericDeclaration.buildAll, GenericDeclaration.build, GenericParameter.map,
      Signature.mapAll, Signature.map, List.map, List.zipIdx, List.nil_append, hconstraint]
  have hdep :
      (AssemblyDeclaration.build ⟨own', [⟨"Dep.dll", [.publicClass "" "Base"], []⟩]⟩).folded =
      (AssemblyDeclaration.build ⟨own, [⟨"Dep.dll", [.publicClass "" "Base"], []⟩]⟩).folded := by
    simp only [Assembly.folded, Renaming.assembly, Assembly.map, Module.map,
      AssemblyDeclaration.build, TypeDeclaration.publicClass, TypeDeclaration.hidden,
      TypeDeclaration.buildAll, TypeDeclaration.build, TypeDefinition.mapAll, TypeDefinition.map,
      List.map, Renaming.ref, Renaming.scope, hown]
  unfold spelled
  split
  · rfl
  · split
    · exact congrArg Except.ok hnew
    · exact congrArg Except.ok hdep

theorem differences_respelled_dep :
    let read := spelled (.simple "Dep") (.simple "Dep")
    let read' := spelled ⟨"dEP", ⟨1, 2, 3, 4⟩, none⟩ ⟨"DEP", ⟨9, 0, 0, 0⟩, none⟩
    let j : Job := ⟨⟨"v1", ⟨"Old"⟩, []⟩, ⟨"v2", ⟨"New"⟩, [⟨"Dep"⟩]⟩⟩
    (j.outcome read' .visible).map (·.differences) =
        (j.outcome read .visible).map (·.differences) ∧
      (j.outcome read .visible).map (·.differences) =
        .ok [.constraint .added "Box" "X" "Base"] := by
  intro read read' j
  have hfolded : ∀ p ∈ j.paths, (read' p).map Assembly.folded = (read p).map Assembly.folded :=
    fun p _ => folded_spelled (by decide) (by decide) p
  exact ⟨differences_respelled hfolded, by cbv⟩

end Job

end ApiEvolution
