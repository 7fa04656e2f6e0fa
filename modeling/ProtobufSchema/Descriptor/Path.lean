import ProtobufSchema.Descriptor.Basic

/-!
Structural paths. An element of a file is addressed by the field numbers and positions that lead to
it from the file; a position that is negative or past the end addresses nothing.
-/

namespace ProtobufSchema

abbrev Path := List Int32

inductive Tag where
  | filePackage
  | fileDependency
  | fileMessage
  | fileEnum
  | fileService
  | fileExtension
  | fileOptions
  | messageField
  | messageNested
  | messageEnum
  | messageRange
  | messageExtension
  | messageOptions
  | messageOneof
  | rangeOptions
  | fieldOptions
  | oneofOptions
  | enumValue
  | enumOptions
  | enumValueOptions
  | serviceMethod
  | serviceOptions
  | methodOptions
  | uninterpreted
  deriving DecidableEq, Repr

def Tag.number : Tag → UInt32
  | filePackage => 2
  | fileDependency => 3
  | fileMessage => 4
  | fileEnum => 5
  | fileService => 6
  | fileExtension => 7
  | fileOptions => 8
  | messageField => 2
  | messageNested => 3
  | messageEnum => 4
  | messageRange => 5
  | messageExtension => 6
  | messageOptions => 7
  | messageOneof => 8
  | rangeOptions => 3
  | fieldOptions => 8
  | oneofOptions => 2
  | enumValue => 2
  | enumOptions => 3
  | enumValueOptions => 3
  | serviceMethod => 2
  | serviceOptions => 3
  | methodOptions => 4
  | uninterpreted => 999

def Tag.step (t : Tag) : Int32 := t.number.toInt32

def OptionsKind.tag : OptionsKind → Tag
  | .file => .fileOptions
  | .message => .messageOptions
  | .field => .fieldOptions
  | .oneof => .oneofOptions
  | .enum => .enumOptions
  | .enumValue => .enumValueOptions
  | .service => .serviceOptions
  | .method => .methodOptions
  | .extensionRange => .rangeOptions

def Path.at? {α : Type} (xs : List α) (i : Int32) : Option α :=
  if 0 ≤ i then xs[i.toInt.toNat]? else none

def Path.modifyAt? {α : Type} (xs : List α) (i : Int32) (f : α → Option α) : Option (List α) :=
  (at? xs i).bind fun x => (f x).map fun y => xs.set i.toInt.toNat y

namespace MessageDescriptor

def nestedAt? (m : MessageDescriptor) : Path → Option MessageDescriptor
  | [] => some m
  | [_] => none
  | tag :: i :: rest =>
    if tag = Tag.messageNested.step then
      (Path.at? m.nestedTypes i).bind fun inner => inner.nestedAt? rest
    else none

def modifyNestedAt? (m : MessageDescriptor) (path : Path)
    (f : MessageDescriptor → Option MessageDescriptor) : Option MessageDescriptor :=
  match path with
  | [] => f m
  | [_] => none
  | tag :: i :: rest =>
    if tag = Tag.messageNested.step then
      (Path.modifyAt? m.nestedTypes i fun inner => inner.modifyNestedAt? rest f).map fun nested =>
        { m with nestedTypes := nested }
    else none

def own? (tag i : Int32) (m : MessageDescriptor) : Option FieldDescriptor :=
  if tag = Tag.messageField.step then Path.at? m.fields i
  else if tag = Tag.messageExtension.step then Path.at? m.extensions i
  else none

def modifyOwn? (tag i : Int32) (g : FieldDescriptor → FieldDescriptor) (m : MessageDescriptor) :
    Option MessageDescriptor :=
  if tag = Tag.messageField.step then
    (Path.modifyAt? m.fields i (some ∘ g)).map fun xs => { m with fields := xs }
  else if tag = Tag.messageExtension.step then
    (Path.modifyAt? m.extensions i (some ∘ g)).map fun xs => { m with extensions := xs }
  else none

end MessageDescriptor

namespace FileDescriptor

def messageAt? (file : FileDescriptor) : Path → Option MessageDescriptor
  | tag :: i :: rest =>
    if tag = Tag.fileMessage.step then
      (Path.at? file.messageTypes i).bind fun m => m.nestedAt? rest
    else none
  | _ => none

def modifyMessageAt? (file : FileDescriptor) (path : Path)
    (f : MessageDescriptor → Option MessageDescriptor) : Option FileDescriptor :=
  match path with
  | tag :: i :: rest =>
    if tag = Tag.fileMessage.step then
      (Path.modifyAt? file.messageTypes i fun m => m.modifyNestedAt? rest f).map fun messages =>
        { file with messageTypes := messages }
    else none
  | _ => none

def splitLast? (path : Path) : Option (Path × Int32 × Int32) :=
  match path.reverse with
  | i :: tag :: parent => some (parent.reverse, tag, i)
  | _ => none

def fieldAt? (file : FileDescriptor) (path : Path) : Option FieldDescriptor :=
  (splitLast? path).bind fun (parent, tag, i) =>
    if parent = [] then
      if tag = Tag.fileExtension.step then Path.at? file.extensions i else none
    else
      (file.messageAt? parent).bind (·.own? tag i)

def modifyFieldAt? (file : FileDescriptor) (path : Path) (f : FieldDescriptor → FieldDescriptor) :
    Option FileDescriptor :=
  (splitLast? path).bind fun (parent, tag, i) =>
    if parent = [] then
      if tag = Tag.fileExtension.step then
        (Path.modifyAt? file.extensions i (some ∘ f)).map fun xs => { file with extensions := xs }
      else none
    else
      file.modifyMessageAt? parent (·.modifyOwn? tag i f)

def enumAt? (file : FileDescriptor) (path : Path) : Option EnumDescriptor :=
  (splitLast? path).bind fun (parent, tag, i) =>
    if parent = [] then
      if tag = Tag.fileEnum.step then Path.at? file.enumTypes i else none
    else if tag = Tag.messageEnum.step then
      (file.messageAt? parent).bind fun m => Path.at? m.enumTypes i
    else none

def methodAt? (file : FileDescriptor) : Path → Option MethodDescriptor
  | [service, s, method, i] =>
    if service = Tag.fileService.step ∧ method = Tag.serviceMethod.step then
      (Path.at? file.services s).bind fun svc => Path.at? svc.methods i
    else none
  | _ => none

def modifyMethodAt? (file : FileDescriptor) (path : Path)
    (f : MethodDescriptor → MethodDescriptor) : Option FileDescriptor :=
  match path with
  | [service, s, method, i] =>
    if service = Tag.fileService.step ∧ method = Tag.serviceMethod.step then
      (Path.modifyAt? file.services s fun svc =>
        (Path.modifyAt? svc.methods i (some ∘ f)).map fun ms => { svc with methods := ms }).map
          fun services => { file with services := services }
    else none
  | _ => none

end FileDescriptor

end ProtobufSchema
