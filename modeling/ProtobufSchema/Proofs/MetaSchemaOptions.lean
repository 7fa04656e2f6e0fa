import ProtobufSchema.Proofs.InterpretedOptions

/-!
The options types of the schema of schemas are plain, and a file is read by them unless it declares
an options type itself or sees another file that does.
-/

namespace ProtobufSchema

open MetaSchema

variable {f : LinkedFile}

theorem SymbolIndex.get?_insert (index : SymbolIndex) (entry : String × Definition)
    (name : String) :
    (index.insert entry).get? name = (index.get? name).or ([entry].lookup name) := by
  obtain ⟨key, d⟩ := entry
  unfold insert
  split
  · rename_i hdefined
    cases hname : name == key with
    | false => simp [List.lookup_cons, hname]
    | true =>
      obtain ⟨x, hx⟩ := Option.isSome_iff_exists.mp hdefined
      rw [beq_iff_eq.mp hname, hx]
      rfl
  · simp [get?, List.lookup_append]

theorem SymbolIndex.get?_ofFile (f : FileDescriptor) (name : String) :
    (ofFile f).get? name = f.definitions.lookup name := by
  have hfold (defs : List (String × Definition)) (index : SymbolIndex) :
      (defs.foldl insert index).get? name = (index.get? name).or (defs.lookup name) := by
    induction defs generalizing index with
    | nil => simp
    | cons entry defs ih =>
      rw [List.foldl_cons, ih, get?_insert, Option.or_assoc, ← List.lookup_append]
      rfl
  rw [ofFile, hfold]
  exact Option.none_or

namespace MetaSchema

variable (kind : OptionsKind)

def optionsOf : OptionsKind → MessageDescriptor
  | .file => fileOptions
  | .message => messageOptions
  | .field => fieldOptions
  | .oneof => optionsType "OneofOptions" []
  | .enum => enumOptions
  | .enumValue => enumValueOptions
  | .service => optionsType "ServiceOptions" [flag "deprecated" 33]
  | .method => methodOptions
  | .extensionRange => optionsType "ExtensionRangeOptions" []

def optionsIndex : OptionsKind → Int32
  | .extensionRange => 3
  | .file => 10
  | .message => 11
  | .field => 12
  | .oneof => 13
  | .enum => 14
  | .enumValue => 15
  | .service => 16
  | .method => 17

theorem get?_options :
    file.index.get? kind.typeName = some (.message [Tag.fileMessage.step, optionsIndex kind]) := by
  rw [file, LinkedFile.link, SymbolIndex.get?_ofFile]
  cases kind <;> decide

theorem messageOf?_options :
    proto.messageOf? (.message [Tag.fileMessage.step, optionsIndex kind]) =
      some (optionsOf kind) := by
  cases kind <;> rfl

theorem isPlain_options : (optionsOf kind).IsPlainOptions := by
  cases kind <;> decide

end MetaSchema

/-- What a finished file is read in: the types it can use and the extensions it sees. -/
def LinkedFile.readContext (f : LinkedFile) : DecodeContext :=
  ⟨(Pool.full f).types, some f.registry⟩

def LinkedFile.DeclaresNoOptionsType (f : LinkedFile) : Prop :=
  ∀ kind : OptionsKind, f.index.get? kind.typeName = none

theorem Pool.lookup?_declared {p : Pool} {name : String} {d : Definition}
    (hf : f ∈ p.visible ++ p.fallback?.toList) (hd : f.index.get? name = some d)
    (hown : p.index.get? name = none)
    (hother : ∀ x ∈ p.visible ++ p.fallback?.toList, x = f ∨ x.index.get? name = none) :
    p.lookup? name = some (f.proto, d) := by
  simp only [lookup?, hown]
  generalize p.visible ++ p.fallback?.toList = xs at hf hother
  induction xs with
  | nil => cases hf
  | cons x xs ih =>
    obtain ⟨hhead, htail⟩ := List.forall_mem_cons.mp hother
    rw [List.findSome?_cons]
    rcases hhead with rfl | hnone
    · rw [hd]
      rfl
    · rw [hnone]
      refine ih ?_ htail
      rcases List.mem_cons.mp hf with rfl | hf
      · rw [hd] at hnone
        cases hnone
      · exact hf

theorem Pool.withFallback_cases (p : Pool) (f : LinkedFile) :
    (∃ d ∈ p.visible, d.name = f.name) ∧ p.withFallback f = p ∨
      p.withFallback f = { p with fallback? := some f } := by
  unfold withFallback
  split
  · rename_i hany
    obtain ⟨d, hd, hname⟩ := List.any_eq_true.mp hany
    exact .inl ⟨⟨d, hd, beq_iff_eq.mp hname⟩, rfl⟩
  · exact .inr rfl

namespace LinkedFile

theorem mem_full {x : LinkedFile}
    (h : ∀ d ∈ visible f.dependencies, d = file ∨ d.name ≠ metaSchemaFile) :
    x ∈ (Pool.full f).visible ++ (Pool.full f).fallback?.toList ↔ x ∈ visible f.dependencies ∨
      x = file := by
  rcases (Pool.ofFile f).withFallback_cases file with ⟨⟨d, hd, hname⟩, heq⟩ | heq
  · have hfile : file ∈ visible f.dependencies := by
      rcases h d hd with rfl | hne
      · exact hd
      · exact absurd hname hne
    rw [Pool.full, heq]
    simp only [Pool.ofFile, Pool.ofDependencies, Option.toList_none, List.append_nil]
    exact ⟨.inl, fun hx => hx.elim id fun hx => hx ▸ hfile⟩
  · rw [Pool.full, heq]
    simp [Pool.ofFile, Pool.ofDependencies]

theorem index_full (f : LinkedFile) : (Pool.full f).index = f.index := by
  rcases (Pool.ofFile f).withFallback_cases file with ⟨_, heq⟩ | heq
  · rw [Pool.full, heq]
    rfl
  · rw [Pool.full, heq]
    rfl

/-- Declares no options type and sees none but those of the schema of schemas. -/
structure HasStandardOptions (f : LinkedFile) : Prop where
  own : f.DeclaresNoOptionsType
  seen : ∀ d ∈ visible f.dependencies, d = MetaSchema.file ∨
    d.name ≠ metaSchemaFile ∧ d.DeclaresNoOptionsType

variable {f : LinkedFile}

theorem HasStandardOptions.message?_options (h : f.HasStandardOptions) (kind : OptionsKind) :
    (Pool.full f).types.message? kind.typeName = some (optionsOf kind) := by
  have hmem {x : LinkedFile} := mem_full (x := x) fun d hd => (h.seen d hd).imp id And.left
  have hlookup := Pool.lookup?_declared (hmem.mpr (.inr rfl)) (get?_options kind)
    (by rw [index_full]; exact h.own kind) (by
      intro x hx
      rcases hmem.mp hx with hx | rfl
      · exact (h.seen x hx).imp id fun hother => hother.2 kind
      · exact .inl rfl)
  simp only [Pool.types, hlookup, Option.bind_some]
  exact messageOf?_options kind

theorem HasStandardOptions.optionsArePlain (h : f.HasStandardOptions) :
    f.readContext.OptionsArePlain := by
  intro kind
  refine ⟨optionsOf kind, h.message?_options kind, isPlain_options kind, ?_⟩
  rintro rfl
  decide

end LinkedFile

end ProtobufSchema
