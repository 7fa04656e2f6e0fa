import ProtobufSchema.Descriptor.Basic

/-! The extensions that are known, by the message and number they extend and by their full names. A
number belongs to the extension that took it first, a name to the one that was registered under it
last. -/

namespace ProtobufSchema

structure ExtensionInfo where
  fullName : String
  extendee : String
  number : Int32
  field : FieldDescriptor
  file : String
  default? : Option Value
  deriving BEq, Repr

def ExtensionInfo.defaultOf? (f : FieldDescriptor) : Option Value :=
  f.type?.bind fun type =>
    if type.isMessage then some (.message (.empty f.typeName)) else Value.default? type

def ExtensionInfo.ofField (fullName : String) (f : FieldDescriptor) (file : String) :
    ExtensionInfo :=
  ⟨fullName, f.extendee, f.number, f, file, defaultOf? f⟩

structure Registry where
  byNumber : List ((String × Int32) × ExtensionInfo)
  byName : List (String × (String × Int32))
  deriving BEq, Repr

namespace Registry

def empty : Registry := ⟨[], []⟩

def size (r : Registry) : Nat := r.byNumber.length

def isEmpty (r : Registry) : Bool := r.byNumber.isEmpty

def find? (r : Registry) (extendee : String) (number : Int32) : Option ExtensionInfo :=
  r.byNumber.lookup (extendee, number)

def findNamed? (r : Registry) (fullName : String) : Option ExtensionInfo :=
  (r.byName.lookup fullName).bind fun key => r.byNumber.lookup key

/-- Every extension that its name still leads to, in the order of the names. -/
def toList (r : Registry) : List ExtensionInfo :=
  r.byName.filterMap fun (_, key) => r.byNumber.lookup key

def extensionsOf (r : Registry) (extendee : String) : List ExtensionInfo :=
  r.toList.filter (·.extendee == extendee)

/-- Binds a key in place, or at the end if it is new. -/
def bind {β : Type} (key : String) (value : β) : List (String × β) → List (String × β)
  | [] => [(key, value)]
  | (k, v) :: rest => if k = key then (k, value) :: rest else (k, v) :: bind key value rest

/-- Registers an extension, unless another has its number, which is the answer then. -/
def insert (r : Registry) (info : ExtensionInfo) : Except ExtensionInfo Registry :=
  match r.find? info.extendee info.number with
  | some existing => .error existing
  | none =>
    let key := (info.extendee, info.number)
    .ok ⟨r.byNumber ++ [(key, info)], bind info.fullName key r.byName⟩

/-- Registers extensions in order, and pairs each one refused with the one in its way. -/
def insertAll (r : Registry) :
    List ExtensionInfo → Registry × List (ExtensionInfo × ExtensionInfo)
  | [] => (r, [])
  | info :: more =>
    match r.insert info with
    | .ok r' => r'.insertAll more
    | .error existing =>
      let (r', collisions) := r.insertAll more
      (r', (info, existing) :: collisions)

end Registry

mutual

def MessageDescriptor.extensionInfos (scope file : String) :
    MessageDescriptor → List ExtensionInfo
  | ⟨name?, _, extensions, nestedTypes, _, _, _, _, _, _⟩ =>
    let full := Name.join scope (name?.getD "")
    extensions.map (fun f => .ofField (Name.join full f.name) f file) ++
      MessageDescriptor.nestedExtensionInfos full file nestedTypes

def MessageDescriptor.nestedExtensionInfos (scope file : String) :
    List MessageDescriptor → List ExtensionInfo
  | [] => []
  | m :: ms => m.extensionInfos scope file ++ MessageDescriptor.nestedExtensionInfos scope file ms

end

def FileDescriptor.extensionInfos (f : FileDescriptor) : List ExtensionInfo :=
  f.extensions.map (fun x => .ofField (Name.join f.package x.name) x f.name) ++
    MessageDescriptor.nestedExtensionInfos f.package f.name f.messageTypes

def Registry.addFile (r : Registry) (f : FileDescriptor) :
    Registry × List (ExtensionInfo × ExtensionInfo) :=
  r.insertAll f.extensionInfos

end ProtobufSchema
