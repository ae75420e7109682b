import ApiEvolution.Pairing.Pair
import ApiEvolution.Proofs.Identity.Definitions
import ApiEvolution.Proofs.Surface.Mapping

/-!
# Replacing references unnoticed

The references of the two sides of a comparison may be replaced by others without any effect, as
long as the comparer takes two of the new ones for the same exactly if it takes the old ones for the
same. A `Disguise` is such a replacement, one function for each side. Signatures and kinds of
members are compared as before (`Disguise.sameSignature`, `Disguise.sameKind`), and they are written
as before (`Signature.fullName_map`, `Member.fullName_congr`).
-/

namespace ApiEvolution

/-- What replaces references of some kind on each side, unnoticed by the comparer. -/
structure Disguise (c : Comparer) where
  Fits : TypeRef → Prop
  map : Side → TypeRef → TypeRef
  sameType : ∀ i j {t u}, Fits t → Fits u → c.sameType (map i t) (map j u) = c.sameType t u
  fullName : ∀ i t, (map i t).fullName = t.fullName
  isSome_definition? : ∀ i t, (map i t).definition?.isSome = t.definition?.isSome

/-! ## What is written -/

namespace Signature

variable {f : TypeRef → TypeRef}

mutual

theorem fullName_map (hf : ∀ r, (f r).fullName = r.fullName) : (s : Signature) →
    (s.map f).fullName = s.fullName
  | named t => hf t
  | generic t ss => by rw [map, fullName, fullName, hf t, fullNames_mapAll hf ss]
  | typeParameter _ => rfl
  | methodParameter _ => rfl
  | array s => by rw [map, fullName, fullName, fullName_map hf s]
  | byReference s => by rw [map, fullName, fullName, fullName_map hf s]
  | pointer s => by rw [map, fullName, fullName, fullName_map hf s]

theorem fullNames_mapAll (hf : ∀ r, (f r).fullName = r.fullName) : (ss : List Signature) →
    fullNames (mapAll f ss) = fullNames ss
  | [] => rfl
  | s :: ss => by rw [mapAll, fullNames, fullNames, fullName_map hf s, fullNames_mapAll hf ss]

end

theorem isResolved_map (hf : ∀ r, (f r).definition?.isSome = r.definition?.isSome) :
    (s : Signature) → (s.map f).isResolved = s.isResolved
  | named t => hf t
  | generic t _ => hf t
  | typeParameter _ => rfl
  | methodParameter _ => rfl
  | array s => isResolved_map hf s
  | byReference s => isResolved_map hf s
  | pointer s => isResolved_map hf s

end Signature

/-- Names are all that the full name of a member depends on. -/
theorem Member.fullName_congr {f : TypeRef → TypeRef} (hf : ∀ r, (f r).fullName = r.fullName)
    {m : Member} {t : TypeRef} (ht : t.fullName = m.declaringType.fullName) :
    Member.fullName { m with declaringType := t, kind := m.kind.map f } = m.fullName := by
  have hsignature : Signature.fullName ∘ Signature.map f = Signature.fullName :=
    funext (Signature.fullName_map hf)
  have hgenerics : ((fun p : GenericParameter => p.name) ∘ GenericParameter.map f) = (·.name) := rfl
  have hrender (ps : List GenericParameter) :
      renderGenerics (ps.map (GenericParameter.map f)) = renderGenerics ps := by
    cases ps with
    | nil => rfl
    | cons p ps =>
      simp only [List.map_cons, renderGenerics, List.map_map, hgenerics]
      rfl
  obtain ⟨name, declaringType, access, kind⟩ := m
  cases kind with
  | method m =>
    simp only [fullName, MemberKind.map, Method.map, ht, hrender, Signature.mapAll_eq,
      Option.map_map, List.map_map, hsignature]
  | field t | property t | event t =>
    cases t with
    | none => simp only [fullName, MemberKind.map, ht, Option.map_none]
    | some t => simp only [fullName, MemberKind.map, ht, Option.map_some, Signature.fullName_map hf]

/-- So are paths for its fingerprint, apart from how many parameters it has. -/
theorem Member.fingerprint_congr {f : TypeRef → TypeRef} {m : Member} {t : TypeRef}
    (ht : t.path = m.declaringType.path) :
    Member.fingerprint { m with declaringType := t, kind := m.kind.map f } = m.fingerprint := by
  have hkind : (m.kind.map f).fingerprint = m.kind.fingerprint := by
    cases m.kind with
    | method k => simp only [MemberKind.map, MemberKind.fingerprint, Method.map, List.length_map,
        Signature.mapAll_eq]
    | _ => rfl
  rw [fingerprint, fingerprint, TypeRef.fingerprint_eq_of_path ht, hkind]

/-! ## What is the same -/

namespace Disguise

variable {c : Comparer} (D : Disguise c) (i j : Side)

open Signature

mutual

theorem sameSignature : (s t : Signature) → (∀ r ∈ s.refs, D.Fits r) → (∀ r ∈ t.refs, D.Fits r) →
    c.sameSignature (s.map (D.map i)) (t.map (D.map j)) = c.sameSignature s t
  | .named t, u, hs, hu => by
    cases u with
    | named u =>
      exact D.sameType i j (hs t (List.mem_singleton_self t)) (hu u (List.mem_singleton_self u))
    | _ => rfl
  | .generic t ss, u, hs, hu => by
    cases u with
    | generic u us =>
      have hhead := D.sameType i j (hs t List.mem_cons_self) (hu u List.mem_cons_self)
      have hrest := sameSignatures ss us (fun r hr => hs r (List.mem_cons_of_mem t hr))
        fun r hr => hu r (List.mem_cons_of_mem u hr)
      rw [Signature.map, Signature.map, Comparer.sameSignature, Comparer.sameSignature, hhead,
        hrest]
    | _ => rfl
  | .typeParameter _, u, _, _ => by cases u <;> rfl
  | .methodParameter _, u, _, _ => by cases u <;> rfl
  | .array s, u, hs, hu => by
    cases u with
    | array u => exact sameSignature s u hs hu
    | _ => rfl
  | .byReference s, u, hs, hu => by
    cases u with
    | byReference u => exact sameSignature s u hs hu
    | _ => rfl
  | .pointer s, u, hs, hu => by
    cases u with
    | pointer u => exact sameSignature s u hs hu
    | _ => rfl

theorem sameSignatures : (ss ts : List Signature) → (∀ r ∈ refsOf ss, D.Fits r) →
    (∀ r ∈ refsOf ts, D.Fits r) →
    c.sameSignatures (mapAll (D.map i) ss) (mapAll (D.map j) ts) = c.sameSignatures ss ts
  | [], ts, _, _ => by cases ts <;> rfl
  | s :: ss, ts, hs, ht => by
    cases ts with
    | nil => rfl
    | cons t ts =>
      have hhead := sameSignature s t (fun r hr => hs r (List.mem_append_left _ hr))
        fun r hr => ht r (List.mem_append_left _ hr)
      have hrest := sameSignatures ss ts (fun r hr => hs r (List.mem_append_right _ hr))
        fun r hr => ht r (List.mem_append_right _ hr)
      rw [mapAll, mapAll, Comparer.sameSignatures, Comparer.sameSignatures, hrest]
      exact congrArg (· && _) hhead

end

theorem sameValueType {s t : Option Signature} (hs : ∀ r ∈ refsOf s.toList, D.Fits r)
    (ht : ∀ r ∈ refsOf t.toList, D.Fits r) :
    c.sameValueType (s.map (Signature.map (D.map i))) (t.map (Signature.map (D.map j))) =
      c.sameValueType s t := by
  cases s with
  | none => rfl
  | some s =>
    cases t with
    | none => rfl
    | some t =>
      exact D.sameSignature i j s t (fun r hr => hs r (List.mem_append_left _ hr))
        fun r hr => ht r (List.mem_append_left _ hr)

theorem sameKind {k l : MemberKind} (hk : ∀ r ∈ k.refs, D.Fits r) (hl : ∀ r ∈ l.refs, D.Fits r) :
    c.sameKind (k.map (D.map i)) (l.map (D.map j)) = c.sameKind k l := by
  cases k with
  | method m =>
    cases l with
    | method n =>
      have hparameters := D.sameSignatures i j m.parameters n.parameters
        (fun r hr => hk r (List.mem_append_left _ (List.mem_append_right _ hr)))
        fun r hr => hl r (List.mem_append_left _ (List.mem_append_right _ hr))
      simp only [MemberKind.map, Method.map, Comparer.sameKind, List.length_map, hparameters]
    | _ => rfl
  | field s => cases l <;> rfl
  | property s =>
    cases l with
    | property t => exact D.sameValueType i j hk hl
    | _ => rfl
  | event s =>
    cases l with
    | event t => exact D.sameValueType i j hk hl
    | _ => rfl

end Disguise

end ApiEvolution
