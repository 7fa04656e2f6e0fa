import ProtobufSchema.Proofs.PlacedMembers

/-! Each reference of a file is answered on its own, from what depends on none of its references; so
a second time changes nothing. -/

namespace ProtobufSchema

open List FileDescriptor Pool

variable {d : Diagnostic} (g : Option Options → Option Options) (fullName : String)
  (f : FileDescriptor)

theorem Name.isAbsolute_qualify : isAbsolute (qualify fullName) = true := by
  have hchars : (qualify fullName).toList = '.' :: fullName.toList := by
    rw [qualify, String.toList_append]
    rfl
  simp [isAbsolute, absolute?, hchars]

theorem Name.relative?_qualify : relative? (some (qualify fullName)) = none := by
  simp [relative?, isAbsolute_qualify]

theorem FieldDescriptor.eq_of_bare {f f' : FieldDescriptor} (hbare : f'.bare = f.bare)
    (hoptions : f'.options = f.options) : f' = f := by
  obtain ⟨_, _, _, _, _, _, _, _, _, _, _⟩ := f
  cases hbare
  cases hoptions
  rfl

abbrev MethodDescriptor.bare (m : MethodDescriptor) : MethodDescriptor := m.mapOptions fun _ => none

theorem MethodDescriptor.eq_of_bare {m m' : MethodDescriptor} (hbare : m'.bare = m.bare)
    (hoptions : m'.options = m.options) : m' = m := by
  obtain ⟨_, _, _, _, _, _⟩ := m
  cases hbare
  cases hoptions
  rfl

namespace Pool

variable (p : Pool)

/-- What a name stands for if it is relative and denotes something acceptable. -/
def qualified? (name? : Option String) (scope : String) (accepts : SymbolKind → Bool) :
    Option (String × SymbolKind) :=
  (Name.relative? name?).bind fun name => (p.resolve? name scope).filter fun x => accepts x.2

def missing (name? : Option String) (scope what : String) (accepts : SymbolKind → Bool) :
    List Diagnostic :=
  match Name.relative? name?, p.qualified? name? scope accepts with
  | some name, none =>
    [(Diagnostic.violation .unresolvedTypeName (what ++ " \"" ++ name ++
      "\" is not defined (referenced from \"" ++ scope ++ "\")")).inFile p.file.name]
  | _, _ => []

def settled (name? : Option String) (scope : String) (accepts : SymbolKind → Bool) :
    Option String :=
  ((p.qualified? name? scope accepts).map fun x => Name.qualify x.1).or name?

section Name

variable {name? : Option String} {scope what : String} {accepts : SymbolKind → Bool}

theorem qualify?_eq : p.qualify? name? scope what accepts =
    reporting (p.missing name? scope what accepts) (p.qualified? name? scope accepts) := by
  unfold qualify? missing qualified?
  cases Name.relative? name? with
  | none => exact pure_eq_reporting none
  | some name =>
    simp only [Option.bind_some]
    cases (p.resolve? name scope).filter fun x => accepts x.2 with
    | none => exact report_eq_reporting _ none
    | some found => exact pure_eq_reporting (some found)

theorem qualifyMessage_eq : p.qualifyMessage name? scope what =
    reporting (p.missing name? scope what (· == .message))
      (p.settled name? scope (· == .message)) := by
  unfold qualifyMessage
  rw [qualify?_eq]
  rfl

variable {p}

section

variable (h : Name.relative? name? = none)
include h

theorem qualified?_of_absolute : p.qualified? name? scope accepts = none := by
  simp [qualified?, h]

theorem missing_of_absolute : p.missing name? scope what accepts = [] := by
  simp [missing, h]

theorem settled_of_absolute : p.settled name? scope accepts = name? := by
  simp [settled, qualified?_of_absolute h]

end

theorem settled_cases : (∃ found, p.qualified? name? scope accepts = some found ∧
      p.settled name? scope accepts = some (Name.qualify found.1)) ∨
    (p.qualified? name? scope accepts = none ∧ p.settled name? scope accepts = name?) := by
  cases h : p.qualified? name? scope accepts with
  | none => exact .inr ⟨rfl, by simp [settled, h]⟩
  | some found => exact .inl ⟨found, rfl, by simp [settled, h]⟩

theorem qualified?_settled : p.qualified? (p.settled name? scope accepts) scope accepts = none := by
  rcases settled_cases with ⟨found, _, hsettled⟩ | ⟨hnone, hsettled⟩
  · rw [hsettled]
    exact qualified?_of_absolute (Name.relative?_qualify found.1)
  · rw [hsettled, hnone]

theorem missing_settled : p.missing (p.settled name? scope accepts) scope what accepts =
    p.missing name? scope what accepts := by
  rcases settled_cases with ⟨found, hfound, hsettled⟩ | ⟨_, hsettled⟩
  · rw [hsettled, missing_of_absolute (Name.relative?_qualify found.1)]
    simp [missing, hfound]
  · rw [hsettled]

theorem settled_settled : p.settled (p.settled name? scope accepts) scope accepts =
    p.settled name? scope accepts := by
  rw [settled, qualified?_settled]
  rfl

theorem relative?_settled (h : p.missing name? scope what accepts = []) :
    Name.relative? (p.settled name? scope accepts) = none := by
  rcases settled_cases with ⟨found, _, hsettled⟩ | ⟨hnone, hsettled⟩
  · rw [hsettled]
    exact Name.relative?_qualify found.1
  · rw [hsettled]
    cases hname : Name.relative? name? with
    | none => rfl
    | some name => simp [missing, hname, hnone] at h

theorem mem_missing (h : d ∈ p.missing name? scope what accepts) :
    d.file? = some p.file.name ∧ d.cause? = some .unresolvedTypeName := by
  unfold missing at h
  split at h
  · cases mem_singleton.mp h
    exact ⟨rfl, rfl⟩
  · cases h

end Name

def qualifiedField (scope : String) (f : FieldDescriptor) : FieldDescriptor :=
  let typed := (p.qualified? f.typeName? scope SymbolKind.isType).elim f fun x => f.withType x.1 x.2
  { typed with extendee? := p.settled f.extendee? scope (· == .message) }

def missingInField (scope : String) (f : FieldDescriptor) : List Diagnostic :=
  p.missing f.typeName? scope "type" SymbolKind.isType ++
    p.missing f.extendee? scope "extendee" (· == .message)

def qualifiedMethod (scope : String) (m : MethodDescriptor) : MethodDescriptor :=
  { m with
    inputType? := p.settled m.inputType? scope (· == .message)
    outputType? := p.settled m.outputType? scope (· == .message) }

def missingInMethod (scope : String) (m : MethodDescriptor) : List Diagnostic :=
  p.missing m.inputType? scope "message type" (· == .message) ++
    p.missing m.outputType? scope "message type" (· == .message)

section Element

variable {scope : String} {f : FieldDescriptor} {m : MethodDescriptor}

theorem qualifyField_eq (scope : String) (f : FieldDescriptor) :
    p.qualifyField scope f = reporting (p.missingInField scope f) (p.qualifiedField scope f) := by
  unfold qualifyField missingInField qualifiedField
  rw [qualify?_eq]
  simp only [qualifyMessage_eq, pure_eq_reporting, reporting_bind, append_nil]
  cases p.qualified? f.typeName? scope SymbolKind.isType <;> rfl

theorem qualifyMethod_eq (scope : String) (m : MethodDescriptor) :
    p.qualifyMethod scope m =
      reporting (p.missingInMethod scope m) (p.qualifiedMethod scope m) := by
  unfold qualifyMethod missingInMethod qualifiedMethod
  simp [qualifyMessage_eq, pure_eq_reporting, reporting_bind]

variable {p}

theorem qualifiedField_extendee? :
    (p.qualifiedField scope f).extendee? = p.settled f.extendee? scope (· == .message) := rfl

theorem qualifiedField_typeName? :
    (p.qualifiedField scope f).typeName? = p.settled f.typeName? scope SymbolKind.isType := by
  unfold qualifiedField settled
  cases p.qualified? f.typeName? scope SymbolKind.isType <;> rfl

theorem qualifiedField_name : (p.qualifiedField scope f).name = f.name := by
  unfold qualifiedField
  cases p.qualified? f.typeName? scope SymbolKind.isType <;> rfl

theorem qualifiedField_qualifiedField :
    p.qualifiedField scope (p.qualifiedField scope f) = p.qualifiedField scope f := by
  have htype :
      p.qualified? (p.qualifiedField scope f).typeName? scope SymbolKind.isType = none := by
    rw [qualifiedField_typeName?, qualified?_settled]
  have hextendee : p.settled (p.qualifiedField scope f).extendee? scope (· == .message) =
      (p.qualifiedField scope f).extendee? := settled_settled
  rw [qualifiedField, htype, hextendee]
  rfl

theorem missingInField_qualifiedField :
    p.missingInField scope (p.qualifiedField scope f) = p.missingInField scope f := by
  rw [missingInField, qualifiedField_typeName?, qualifiedField_extendee?, missing_settled,
    missing_settled]
  rfl

theorem qualifiedMethod_qualifiedMethod :
    p.qualifiedMethod scope (p.qualifiedMethod scope m) = p.qualifiedMethod scope m := by
  simp [qualifiedMethod, settled_settled]

theorem missingInMethod_qualifiedMethod :
    p.missingInMethod scope (p.qualifiedMethod scope m) = p.missingInMethod scope m := by
  simp [missingInMethod, qualifiedMethod, missing_settled]

theorem isQualified_qualifiedField (h : p.missingInField scope f = []) :
    (p.qualifiedField scope f).isQualified = true := by
  obtain ⟨htype, hextendee⟩ := append_eq_nil_iff.mp h
  simp [FieldDescriptor.isQualified, qualifiedField_typeName?, qualifiedField_extendee?,
    relative?_settled htype, relative?_settled hextendee]

theorem isQualified_qualifiedMethod (h : p.missingInMethod scope m = []) :
    (p.qualifiedMethod scope m).isQualified = true := by
  obtain ⟨hinput, houtput⟩ := append_eq_nil_iff.mp h
  simp [MethodDescriptor.isQualified, qualifiedMethod, relative?_settled hinput,
    relative?_settled houtput]

theorem qualifiedField_of_isQualified (h : f.isQualified = true) :
    p.qualifiedField scope f = f ∧ p.missingInField scope f = [] := by
  obtain ⟨htype, hextendee⟩ : Name.relative? f.typeName? = none ∧
      Name.relative? f.extendee? = none := by
    simpa [FieldDescriptor.isQualified] using h
  constructor
  · rw [qualifiedField, qualified?_of_absolute htype, settled_of_absolute hextendee]
    rfl
  · rw [missingInField, missing_of_absolute htype, missing_of_absolute hextendee]
    rfl

theorem qualifiedMethod_of_isQualified (h : m.isQualified = true) :
    p.qualifiedMethod scope m = m ∧ p.missingInMethod scope m = [] := by
  obtain ⟨hinput, houtput⟩ : Name.relative? m.inputType? = none ∧
      Name.relative? m.outputType? = none := by
    simpa [MethodDescriptor.isQualified] using h
  constructor
  · rw [qualifiedMethod, settled_of_absolute hinput, settled_of_absolute houtput]
  · rw [missingInMethod, missing_of_absolute hinput, missing_of_absolute houtput]
    rfl

variable (g : Option Options → Option Options)

theorem missingInField_mapOptions :
    p.missingInField scope (f.mapOptions g) = p.missingInField scope f := rfl

theorem missingInMethod_mapOptions :
    p.missingInMethod scope (m.mapOptions g) = p.missingInMethod scope m := rfl

theorem qualifiedMethod_mapOptions :
    p.qualifiedMethod scope (m.mapOptions g) = (p.qualifiedMethod scope m).mapOptions g := rfl

theorem qualifiedField_mapOptions :
    p.qualifiedField scope (f.mapOptions g) = (p.qualifiedField scope f).mapOptions g := by
  unfold qualifiedField FieldDescriptor.mapOptions
  cases p.qualified? f.typeName? scope SymbolKind.isType <;> rfl

theorem qualifiedField_options : (p.qualifiedField scope f).options = f.options := by
  unfold qualifiedField
  cases p.qualified? f.typeName? scope SymbolKind.isType <;> rfl

theorem qualifiedField_of_bare {x : FieldDescriptor}
    (h : (p.qualifiedField scope f).bare = x.bare) : p.qualifiedField scope x = x := by
  refine FieldDescriptor.eq_of_bare ?_ qualifiedField_options
  calc (p.qualifiedField scope x).bare = p.qualifiedField scope x.bare :=
    (qualifiedField_mapOptions _).symm
    _ = (p.qualifiedField scope (p.qualifiedField scope f)).bare := by
      rw [← h, qualifiedField_mapOptions]
    _ = x.bare := by rw [qualifiedField_qualifiedField, h]

theorem qualifiedMethod_of_bare {x : MethodDescriptor}
    (h : (p.qualifiedMethod scope m).bare = x.bare) : p.qualifiedMethod scope x = x := by
  refine MethodDescriptor.eq_of_bare ?_ (by rfl)
  calc (p.qualifiedMethod scope x).bare
      = p.qualifiedMethod scope x.bare := (qualifiedMethod_mapOptions _).symm
    _ = (p.qualifiedMethod scope (p.qualifiedMethod scope m)).bare := by
      rw [← h, qualifiedMethod_mapOptions]
    _ = x.bare := by rw [qualifiedMethod_qualifiedMethod, h]

end Element

def withFile (file : FileDescriptor) : Pool := { p with file := file }

section File

variable {p} {file : FileDescriptor}
variable (name : String)

theorem ofDependencies_withFile (file : FileDescriptor) (index : SymbolIndex)
    (dependencies : List LinkedFile) :
    (ofDependencies f index dependencies).withFile file = ofDependencies file index dependencies :=
  rfl

theorem withFallback_withFile (p : Pool) (file : FileDescriptor) (f : LinkedFile) :
    (p.withFile file).withFallback f = (p.withFallback f).withFile file := by
  unfold withFallback withFile
  cases p.visible.any (·.name == f.name) <;> rfl

theorem lookup?_withFile (fullName : String) :
    ((p.withFile file).lookup? fullName).map Prod.snd = (p.lookup? fullName).map Prod.snd := by
  unfold lookup? withFile
  cases p.index.get? fullName <;> rfl

theorem resolveWith?_withFile (scope : String) (accept : Definition → Bool) :
    ((p.withFile file).resolveWith? name scope accept).map (fun r => (r.fullName, r.definition)) =
      (p.resolveWith? name scope accept).map fun r => (r.fullName, r.definition) := by
  have hview (p : Pool) (fullName : String) (accept : Definition → Bool) :
      ((((p.lookup? fullName).filter fun x => accept x.2).map fun x =>
        (⟨fullName, x.1, x.2⟩ : Found)).map fun r => (r.fullName, r.definition)) =
      (((p.lookup? fullName).map Prod.snd).filter accept).map (fullName, ·) := by
    cases p.lookup? fullName with
    | none => rfl
    | some x => cases haccept : accept x.2 <;> simp [Option.filter]
  unfold resolveWith?
  cases Name.absolute? name with
  | some fullName => simp only [hview, lookup?_withFile]
  | none => simp [Function.comp_def, hview, lookup?_withFile]

theorem resolve?_withFile (scope : String) :
    (p.withFile file).resolve? name scope = p.resolve? name scope := by
  have hresolve (p : Pool) : p.resolve? name scope =
      ((p.resolveWith? name scope fun d => d.symbolKind?.any (· != .package)).map
        fun r => (r.fullName, r.definition)).bind
            fun x => x.2.symbolKind?.map fun kind => (x.1, kind) := by
    rw [Option.bind_map]
    rfl
  rw [hresolve, resolveWith?_withFile, ← hresolve]

theorem qualified?_withFile (name? : Option String) (scope : String) (accepts : SymbolKind → Bool) :
    (p.withFile file).qualified? name? scope accepts = p.qualified? name? scope accepts := by
  simp [qualified?, resolve?_withFile]

theorem qualifiedField_withFile : (p.withFile file).qualifiedField = p.qualifiedField := by
  funext scope f
  simp [qualifiedField, settled, qualified?_withFile]

theorem qualifiedMethod_withFile : (p.withFile file).qualifiedMethod = p.qualifiedMethod := by
  funext scope m
  simp [qualifiedMethod, settled, qualified?_withFile]

theorem missing_withFile (hname : file.name = p.file.name) :
    (p.withFile file).missing = p.missing := by
  funext name? scope what accepts
  have hfile : (p.withFile file).file.name = p.file.name := hname
  simp [missing, qualified?_withFile, hfile]

end File

end Pool

theorem MessageDescriptor.fieldsWithin_mapOptions (scope : String) (d : MessageDescriptor) :
    (d.mapOptions g).fieldsWithin scope =
      (d.fieldsWithin scope).map fun x => (x.1, x.2.mapOptions g) := by
  induction d using nesting generalizing scope with
  | _ _ _ ih =>
    simp only [mapOptions, fieldsWithin, mapNestedOptions_eq, nestedFieldsWithin_eq, flatMap_map,
      map_append, map_map, map_flatMap]
    congr 1
    exact flatMap_congr fun x hx => ih x hx _

theorem FileDescriptor.allFields_mapOptions :
    (f.mapOptions g).allFields = f.allFields.map fun x => (x.1, x.2.mapOptions g) := by
  simp [allFields, mapOptions, package, MessageDescriptor.nestedFieldsWithin_eq, flatMap_map,
    map_flatMap, MessageDescriptor.fieldsWithin_mapOptions]

theorem FileDescriptor.allMethods_mapOptions :
    (f.mapOptions g).allMethods = f.allMethods.map fun x => (x.1, x.2.mapOptions g) := by
  simp [allMethods, mapOptions, package, ServiceDescriptor.mapOptions, ServiceDescriptor.name,
    flatMap_map, map_flatMap, Function.comp_def]

namespace Canonicalizer

variable (c : Canonicalizer) (f : FileDescriptor)

def qualified : FileDescriptor :=
  (f.mapFields (c.pool f).qualifiedField).mapMethods (c.pool f).qualifiedMethod

def missingNames : List Diagnostic :=
  (f.allFields.flatMap fun x => (c.pool f).missingInField x.1 x.2) ++
    f.allMethods.flatMap fun x => (c.pool f).missingInMethod x.1 x.2

theorem allFields_qualified : (c.qualified f).allFields =
    f.allFields.map fun x => (x.1, (c.pool f).qualifiedField x.1 x.2) :=
  f.allFields_mapFields _

theorem allMethods_qualified : (c.qualified f).allMethods =
    f.allMethods.map fun x => (x.1, (c.pool f).qualifiedMethod x.1 x.2) :=
  (f.mapFields _).allMethods_mapMethods _

theorem definitions_qualified : (c.qualified f).definitions = f.definitions := by
  rw [qualified, definitions_mapMethods]
  exact definitions_mapFields (fun _ _ => qualifiedField_name) f

theorem pool_file : (c.pool f).file = f := by
  unfold pool
  dsimp only
  split
  · rfl
  · split
    · rfl
    · unfold withFallback
      split <;> rfl

theorem pool_eq_withFile {f f' : FileDescriptor} (hname : f'.name = f.name)
    (hdefinitions : f'.definitions = f.definitions) : c.pool f' = (c.pool f).withFile f' := by
  have hindex : SymbolIndex.ofFile f' = .ofFile f := by
    rw [SymbolIndex.ofFile, SymbolIndex.ofFile, hdefinitions]
  unfold pool
  rw [hindex, hname, ← ofDependencies_withFile f f']
  split
  · rfl
  · split
    · rfl
    · exact withFallback_withFile _ f' _

theorem qualifyNames_eq : c.qualifyNames f = reporting (c.missingNames f) (c.qualified f) := by
  unfold qualifyNames
  split
  · rename_i hqualified
    obtain ⟨hfields, hmethods⟩ := isQualified_iff.mp hqualified
    have hsame : c.qualified f = f := by
      rw [qualified, mapFields_eq_self fun x hx =>
        (qualifiedField_of_isQualified (hfields x hx)).1]
      exact mapMethods_eq_self fun x hx =>
        (qualifiedMethod_of_isQualified (hmethods x hx)).1
    have hnone : c.missingNames f = [] := by
      rw [missingNames, append_eq_nil_iff, flatMap_eq_nil_iff, flatMap_eq_nil_iff]
      exact ⟨fun x hx => (qualifiedField_of_isQualified (hfields x hx)).2,
        fun x hx => (qualifiedMethod_of_isQualified (hmethods x hx)).2⟩
    rw [hsame, hnone, pure_eq_reporting]
  · simp only [traverseFields_note (c.pool f).qualifyField_eq,
      traverseMethods_note (c.pool f).qualifyMethod_eq, Noting.bind_eq]
    rfl

theorem mem_missingNames (h : d ∈ c.missingNames f) :
    d.file? = some f.name ∧ d.cause? = some .unresolvedTypeName := by
  rw [← congrArg name (c.pool_file f)]
  simp only [missingNames, missingInField, missingInMethod, mem_append, mem_flatMap] at h
  rcases h with ⟨_, _, h | h⟩ | ⟨_, _, h | h⟩ <;> exact mem_missing h

variable {c f}

theorem qualifyNames_of_isQualified (h : f.isQualified = true) : c.qualifyNames f = pure f := by
  simp [qualifyNames, h]

theorem isQualified_qualified (h : c.missingNames f = []) : (c.qualified f).isQualified = true := by
  rw [missingNames, append_eq_nil_iff, flatMap_eq_nil_iff, flatMap_eq_nil_iff] at h
  obtain ⟨hfields, hmethods⟩ := h
  rw [isQualified_iff, allFields_qualified, allMethods_qualified, forall_mem_map, forall_mem_map]
  constructor
  · intro x hx
    exact isQualified_qualifiedField (hfields x hx)
  · intro x hx
    exact isQualified_qualifiedMethod (hmethods x hx)

section Again

variable {q : FileDescriptor} (hbare : q.bare = (c.qualified f).bare)
include hbare

theorem name_of_bare : q.name = f.name := by
  have hname := congrArg name hbare
  exact hname

theorem pool_of_bare : c.pool q = (c.pool f).withFile q := by
  have hdefinitions := congrArg definitions hbare
  rw [definitions_mapOptions, definitions_mapOptions, definitions_qualified] at hdefinitions
  exact c.pool_eq_withFile (name_of_bare hbare) hdefinitions

theorem allFields_of_bare : q.allFields.map (fun x => (x.1, x.2.bare)) =
    f.allFields.map fun x => (x.1, ((c.pool f).qualifiedField x.1 x.2).bare) := by
  have hfields := congrArg allFields hbare
  rwa [allFields_mapOptions, allFields_mapOptions, allFields_qualified, map_map] at hfields

theorem allMethods_of_bare : q.allMethods.map (fun x => (x.1, x.2.bare)) =
    f.allMethods.map fun x => (x.1, ((c.pool f).qualifiedMethod x.1 x.2).bare) := by
  have hmethods := congrArg allMethods hbare
  rwa [allMethods_mapOptions, allMethods_mapOptions, allMethods_qualified, map_map] at hmethods

theorem missingNames_of_bare : c.missingNames q = c.missingNames f := by
  have hmissing : (c.pool q).missing = (c.pool f).missing := by
    rw [pool_of_bare hbare]
    exact missing_withFile (by rw [name_of_bare hbare, pool_file])
  have hfields :=
    congrArg (flatMap fun x => (c.pool f).missingInField x.1 x.2) (allFields_of_bare hbare)
  have hmethods :=
    congrArg (flatMap fun x => (c.pool f).missingInMethod x.1 x.2) (allMethods_of_bare hbare)
  simp only [flatMap_map, missingInField_mapOptions, missingInMethod_mapOptions,
    missingInField_qualifiedField, missingInMethod_qualifiedMethod] at hfields hmethods
  rw [missingNames, missingNames, ← hfields, ← hmethods]
  simp [missingInField, missingInMethod, hmissing]

theorem qualified_of_bare : c.qualified q = q := by
  have hfield : ∀ x ∈ q.allFields, (c.pool q).qualifiedField x.1 x.2 = x.2 := by
    intro x hx
    have hmem := mem_map_of_mem (f := fun x => (x.1, x.2.bare)) hx
    rw [allFields_of_bare hbare] at hmem
    obtain ⟨z, _, hz⟩ := mem_map.mp hmem
    obtain ⟨hscope, hsame⟩ := Prod.mk.inj hz
    rw [pool_of_bare hbare, qualifiedField_withFile, ← hscope]
    exact qualifiedField_of_bare hsame
  have hmethod : ∀ x ∈ q.allMethods, (c.pool q).qualifiedMethod x.1 x.2 = x.2 := by
    intro x hx
    have hmem := mem_map_of_mem (f := fun x => (x.1, x.2.bare)) hx
    rw [allMethods_of_bare hbare] at hmem
    obtain ⟨z, _, hz⟩ := mem_map.mp hmem
    obtain ⟨hscope, hsame⟩ := Prod.mk.inj hz
    rw [pool_of_bare hbare, qualifiedMethod_withFile, ← hscope]
    exact qualifiedMethod_of_bare hsame
  rw [qualified, mapFields_eq_self hfield]
  exact mapMethods_eq_self hmethod

theorem qualifyNames_again : c.qualifyNames q = reporting (c.missingNames f) q := by
  rw [qualifyNames_eq, missingNames_of_bare hbare, qualified_of_bare hbare]

end Again

end Canonicalizer

end ProtobufSchema
