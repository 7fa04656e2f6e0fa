import ProtobufSchema.Descriptor.Basic

/-! Going through a file's fields, methods and options. Each comes with the full name of the scope
that names in it are looked up from. The lists are what the traversals visit, in the same order. -/

namespace ProtobufSchema

section

variable {m : Type → Type} [Monad m]

def FieldDescriptor.traverseOptions (visit : Options → m Options) (f : FieldDescriptor) :
    m FieldDescriptor := do
  return { f with options := ← f.options.mapM visit }

def EnumDescriptor.traverseOptions (visit : Options → m Options) (e : EnumDescriptor) :
    m EnumDescriptor := do
  let options ← e.options.mapM visit
  let values ← e.values.mapM fun v => do return { v with options := ← v.options.mapM visit }
  return { e with options := options, values := values }

def EnumDescriptor.optionsList (e : EnumDescriptor) : List Options :=
  e.options.toList ++ e.values.flatMap (·.options.toList)

def ServiceDescriptor.traverseOptions (visit : String → Options → m Options) (scope : String)
    (s : ServiceDescriptor) : m ServiceDescriptor := do
  let options ← s.options.mapM (visit scope)
  let methods ← s.methods.mapM fun x => do
    return { x with options := ← x.options.mapM (visit (Name.join scope s.name)) }
  return { s with options := options, methods := methods }

def ServiceDescriptor.optionsList (scope : String) (s : ServiceDescriptor) :
    List (String × Options) :=
  s.options.toList.map (scope, ·) ++
    s.methods.flatMap fun x => x.options.toList.map (Name.join scope s.name, ·)

namespace MessageDescriptor

mutual

def traverseFields (visit : String → FieldDescriptor → m FieldDescriptor) (scope : String) :
    MessageDescriptor → m MessageDescriptor
  | ⟨name?, fields, extensions, nested, enums, ranges, oneofs, options, reserved, names⟩ => do
    let inner := Name.join scope (name?.getD "")
    let fields ← fields.mapM (visit inner)
    let extensions ← extensions.mapM (visit inner)
    let nested ← traverseNestedFields visit inner nested
    return ⟨name?, fields, extensions, nested, enums, ranges, oneofs, options, reserved, names⟩

def traverseNestedFields (visit : String → FieldDescriptor → m FieldDescriptor) (scope : String) :
    List MessageDescriptor → m (List MessageDescriptor)
  | [] => return []
  | d :: ds => do
    let d ← traverseFields visit scope d
    let ds ← traverseNestedFields visit scope ds
    return d :: ds

end

mutual

def fieldsWithin (scope : String) : MessageDescriptor → List (String × FieldDescriptor)
  | ⟨name?, fields, extensions, nested, _, _, _, _, _, _⟩ =>
    let inner := Name.join scope (name?.getD "")
    (fields ++ extensions).map (inner, ·) ++ nestedFieldsWithin inner nested

def nestedFieldsWithin (scope : String) : List MessageDescriptor → List (String × FieldDescriptor)
  | [] => []
  | d :: ds => fieldsWithin scope d ++ nestedFieldsWithin scope ds

end

mutual

def traverseOptions (visit : String → Options → m Options) (scope : String) :
    MessageDescriptor → m MessageDescriptor
  | ⟨name?, fields, extensions, nested, enums, ranges, oneofs, options, reserved, names⟩ => do
    let inner := Name.join scope (name?.getD "")
    let options ← options.mapM (visit scope)
    let fields ← fields.mapM (·.traverseOptions (visit inner))
    let extensions ← extensions.mapM (·.traverseOptions (visit inner))
    let oneofs ← oneofs.mapM fun o => do return { o with options := ← o.options.mapM (visit inner) }
    let ranges ← ranges.mapM fun r => do return { r with options := ← r.options.mapM (visit inner) }
    let enums ← enums.mapM (·.traverseOptions (visit inner))
    let nested ← traverseNestedOptions visit inner nested
    return ⟨name?, fields, extensions, nested, enums, ranges, oneofs, options, reserved, names⟩

def traverseNestedOptions (visit : String → Options → m Options) (scope : String) :
    List MessageDescriptor → m (List MessageDescriptor)
  | [] => return []
  | d :: ds => do
    let d ← traverseOptions visit scope d
    let ds ← traverseNestedOptions visit scope ds
    return d :: ds

end

mutual

def optionsWithin (scope : String) : MessageDescriptor → List (String × Options)
  | ⟨name?, fields, extensions, nested, enums, ranges, oneofs, options, _, _⟩ =>
    let inner := Name.join scope (name?.getD "")
    let own := (fields ++ extensions).flatMap (·.options.toList) ++
      oneofs.flatMap (·.options.toList) ++ ranges.flatMap (·.options.toList) ++
      enums.flatMap EnumDescriptor.optionsList
    options.toList.map (scope, ·) ++ own.map (inner, ·) ++ nestedOptionsWithin inner nested

def nestedOptionsWithin (scope : String) : List MessageDescriptor → List (String × Options)
  | [] => []
  | d :: ds => optionsWithin scope d ++ nestedOptionsWithin scope ds

end

end MessageDescriptor

namespace FileDescriptor

def traverseFields (visit : String → FieldDescriptor → m FieldDescriptor) (f : FileDescriptor) :
    m FileDescriptor := do
  let extensions ← f.extensions.mapM (visit f.package)
  let messages ← MessageDescriptor.traverseNestedFields visit f.package f.messageTypes
  return { f with extensions := extensions, messageTypes := messages }

def allFields (f : FileDescriptor) : List (String × FieldDescriptor) :=
  f.extensions.map (f.package, ·) ++ MessageDescriptor.nestedFieldsWithin f.package f.messageTypes

def traverseMethods (visit : String → MethodDescriptor → m MethodDescriptor) (f : FileDescriptor) :
    m FileDescriptor := do
  let services ← f.services.mapM fun s => do
    return { s with methods := ← s.methods.mapM (visit (Name.join f.package s.name)) }
  return { f with services := services }

def allMethods (f : FileDescriptor) : List (String × MethodDescriptor) :=
  f.services.flatMap fun s => s.methods.map (Name.join f.package s.name, ·)

def traverseOptions (visit : String → Options → m Options) (f : FileDescriptor) :
    m FileDescriptor := do
  let options ← f.options.mapM (visit f.package)
  let messages ← MessageDescriptor.traverseNestedOptions visit f.package f.messageTypes
  let enums ← f.enumTypes.mapM (·.traverseOptions (visit f.package))
  let extensions ← f.extensions.mapM (·.traverseOptions (visit f.package))
  let services ← f.services.mapM (·.traverseOptions visit f.package)
  return { f with
    options := options, messageTypes := messages, enumTypes := enums
    extensions := extensions, services := services }

def allOptions (f : FileDescriptor) : List (String × Options) :=
  f.options.toList.map (f.package, ·) ++
    MessageDescriptor.nestedOptionsWithin f.package f.messageTypes ++
    (f.enumTypes.flatMap EnumDescriptor.optionsList ++
      f.extensions.flatMap (·.options.toList)).map (f.package, ·) ++
    f.services.flatMap (·.optionsList f.package)

end FileDescriptor

end

end ProtobufSchema
