import ProtobufSchema.Descriptor.Path

/-! The stack of elements that are open while a file is assembled. A frame owns the element it
opened, or it is a block whose fields belong to the element below. Closing a frame hands its element
to the owner of the frame below. -/

namespace ProtobufSchema

inductive BuildError where
  | optionValue (option reason : String)
  | aggregate (option reason : String)
  | invalidScope (operation scope : String)
  | closedRoot
  | unknownOptionsType (name : String)
  | reserialize (reason : String)
  | overflow (e : Overflow)
  deriving DecidableEq, Repr

def BuildError.message : BuildError → String
  | optionValue option reason => "invalid value for option '" ++ option ++ "': " ++ reason
  | aggregate option reason =>
    "error parsing aggregate value for option '" ++ option ++ "': " ++ reason
  | invalidScope operation scope =>
    "'" ++ operation ++ "' is not valid inside a " ++ scope ++ " scope"
  | closedRoot => "cannot close the root scope"
  | unknownOptionsType name => "options type '" ++ name ++ "' is not defined by the meta-schema"
  | reserialize reason => "option storage could not be reserialized: " ++ reason
  | overflow e => e.message

inductive Element where
  | file (f : FileDescriptor)
  | message (m : MessageDescriptor)
  | field (f : FieldDescriptor)
  | enum (e : EnumDescriptor)
  | enumValue (v : EnumValueDescriptor)
  | service (s : ServiceDescriptor)
  | method (m : MethodDescriptor)
  | oneof (o : OneofDescriptor)
  | extensionRange (r : ExtensionRange)
  | option (o : RawOption)
  deriving BEq, Repr

def Options.adding (kind : OptionsKind) (options : Option Options) (raw : RawOption) :
    Option Options :=
  let o := options.getD (.empty kind)
  some { o with uninterpreted := o.uninterpreted ++ [raw] }

namespace Element

def kindName : Element → String
  | file _ => "file"
  | message _ => "message"
  | field _ => "field"
  | enum _ => "enum"
  | enumValue _ => "enum value"
  | service _ => "service"
  | method _ => "method"
  | oneof _ => "oneof"
  | extensionRange _ => "extension range"
  | option _ => "option"

def optionsKind? : Element → Option OptionsKind
  | file _ => some .file
  | message _ => some .message
  | field _ => some .field
  | enum _ => some .enum
  | enumValue _ => some .enumValue
  | service _ => some .service
  | method _ => some .method
  | oneof _ => some .oneof
  | extensionRange _ => some .extensionRange
  | option _ => none

def addOption? (raw : RawOption) : Element → Option Element
  | file f => some (file { f with options := Options.adding .file f.options raw })
  | message m => some (message { m with options := Options.adding .message m.options raw })
  | field f => some (field { f with options := Options.adding .field f.options raw })
  | enum e => some (enum { e with options := Options.adding .enum e.options raw })
  | enumValue v => some (enumValue { v with options := Options.adding .enumValue v.options raw })
  | service s => some (service { s with options := Options.adding .service s.options raw })
  | method m => some (method { m with options := Options.adding .method m.options raw })
  | oneof o => some (oneof { o with options := Options.adding .oneof o.options raw })
  | extensionRange r =>
    some (extensionRange { r with options := Options.adding .extensionRange r.options raw })
  | option _ => none

end Element

inductive Block where
  | extend (extendee : String)
  | oneof (index : Nat)
  deriving DecidableEq, Repr

inductive FrameTarget where
  | owns (e : Element)
  | block (b : Block)
  deriving BEq, Repr

structure Frame where
  target : FrameTarget
  counts : List (Tag × Nat)
  path : Path
  deriving BEq, Repr

namespace Frame

def ofElement (e : Element) (path : Path) : Frame := ⟨.owns e, [], path⟩

def count (f : Frame) (tag : Tag) : Nat := (f.counts.lookup tag).getD 0

def counting (f : Frame) (tag : Tag) : Frame :=
  { f with counts := (tag, f.count tag + 1) :: f.counts.filter (·.1 ≠ tag) }

def element? (f : Frame) : Option Element :=
  match f.target with
  | .owns e => some e
  | .block _ => none

def block? (f : Frame) : Option Block :=
  match f.target with
  | .owns _ => none
  | .block b => some b

def kindName (f : Frame) : String :=
  match f.target with
  | .owns e => e.kindName
  | .block (.extend _) => "extend"
  | .block (.oneof _) => "oneof"

end Frame

structure ScopeStack where
  frames : List Frame
  deriving BEq, Repr

namespace ScopeStack

def ofFile (file : FileDescriptor) : ScopeStack := ⟨[.ofElement (.file file) []]⟩

def depth (s : ScopeStack) : Nat := s.frames.length

def path (s : ScopeStack) : Path := (s.frames.head?.map (·.path)).getD []

def kindName (s : ScopeStack) : String := (s.frames.head?.map Frame.kindName).getD ""

def current? (s : ScopeStack) : Option Element := s.frames.head?.bind Frame.element?

def block? (s : ScopeStack) : Option Block := s.frames.head?.bind Frame.block?

def ownerFrame? (s : ScopeStack) : Option Frame := s.frames.find? (·.element?.isSome)

def owner? (s : ScopeStack) : Option Element := s.ownerFrame?.bind Frame.element?

def modifyOwnerFrame (f : Frame → Frame) : List Frame → List Frame
  | [] => []
  | frame :: below =>
    if frame.element?.isSome then f frame :: below else frame :: modifyOwnerFrame f below

def modifyOwner (s : ScopeStack) (f : Element → Element) : ScopeStack :=
  ⟨modifyOwnerFrame (fun frame =>
    match frame.target with
    | .owns e => { frame with target := .owns (f e) }
    | .block _ => frame) s.frames⟩

/-- The tag under which an owner holds a child, if the child may be opened there. -/
def childTag? (owner : Element) (block : Option Block) (child : Element) : Option Tag :=
  match owner, child, block with
  | .file _, .message _, _ => some .fileMessage
  | .file _, .enum _, none => some .fileEnum
  | .file _, .service _, none => some .fileService
  | .file _, .field _, some (.extend _) => some .fileExtension
  | .message _, .field _, some (.extend _) => some .messageExtension
  | .message _, .field _, _ => some .messageField
  | .message _, .message _, _ => some .messageNested
  | .message _, .enum _, none => some .messageEnum
  | .message _, .extensionRange _, none => some .messageRange
  | .enum _, .enumValue _, _ => some .enumValue
  | .service _, .method _, _ => some .serviceMethod
  | _, _, _ => none

def optionsKind? (s : ScopeStack) : Option OptionsKind :=
  s.frames.head?.bind fun frame =>
    match frame.target with
    | .owns e => e.optionsKind?
    | .block (.oneof _) => some .oneof
    | .block (.extend _) => none

def refuse {α : Type} (s : ScopeStack) (operation : String) : Except BuildError α :=
  .error (.invalidScope operation s.kindName)

def openOption (s : ScopeStack) (raw : RawOption) : Except BuildError ScopeStack :=
  match s.optionsKind?, s.frames with
  | some kind, top :: below =>
    let path :=
      top.path ++ [kind.tag.step, Tag.uninterpreted.step, .ofNat (top.count .uninterpreted)]
    .ok ⟨.ofElement (.option raw) path :: top.counting .uninterpreted :: below⟩
  | _, _ => s.refuse (Element.option raw).kindName

/-- Opens an element as a child of the current owner. Files and oneofs are opened by other means. -/
def openElement (s : ScopeStack) (e : Element) : Except BuildError ScopeStack :=
  match e with
  | .option raw => s.openOption raw
  | _ =>
    match s.ownerFrame?, s.owner?.bind fun owner => childTag? owner s.block? e with
    | some frame, some tag =>
      let path := frame.path ++ [tag.step, .ofNat (frame.count tag)]
      .ok ⟨.ofElement e path :: modifyOwnerFrame (Frame.counting · tag) s.frames⟩
    | _, _ => s.refuse e.kindName

def openBlock (s : ScopeStack) (b : Block) (path : Path) : ScopeStack :=
  ⟨⟨.block b, [], path⟩ :: s.frames⟩

def openExtend (s : ScopeStack) (extendee : String) : Except BuildError ScopeStack :=
  match s.current? with
  | some (.file _) => .ok (s.openBlock (.extend extendee) (s.path ++ [Tag.fileExtension.step]))
  | some (.message _) =>
    .ok (s.openBlock (.extend extendee) (s.path ++ [Tag.messageExtension.step]))
  | _ => s.refuse "extend"

/-- Adds a oneof to the current message and opens the block of its fields. -/
def openOneof (s : ScopeStack) (o : OneofDescriptor) : Except BuildError (ScopeStack × Nat) :=
  match s.current? with
  | some (.message m) =>
    let index := m.oneofs.length
    let s' := s.modifyOwner fun _ => .message { m with oneofs := m.oneofs ++ [o] }
    .ok (s'.openBlock (.oneof index) (s.path ++ [Tag.messageOneof.step, .ofNat index]), index)
  | _ => s.refuse "oneof"

def addOneofOption? (m : MessageDescriptor) (index : Nat) (raw : RawOption) :
    Option MessageDescriptor :=
  (m.oneofs[index]?).map fun o =>
    let o := { o with options := Options.adding .oneof o.options raw }
    { m with oneofs := m.oneofs.set index o }

def attachOption (owner : Element) (block : Option Block) (raw : RawOption) :
    Except BuildError Element :=
  match owner, block with
  | .message m, some (.oneof index) =>
    match addOneofOption? m index raw with
    | some m' => .ok (.message m')
    | none => .error (.invalidScope "option" "oneof")
  | e, none =>
    match e.addOption? raw with
    | some e' => .ok e'
    | none => .error (.invalidScope "option" "option")
  | _, _ => .error (.invalidScope "option" "extend")

def attach (owner : Element) (block : Option Block) (child : Element) : Except BuildError Element :=
  match owner, child, block with
  | _, .option raw, _ => attachOption owner block raw
  | .file f, .message m, _ => .ok (.file { f with messageTypes := f.messageTypes ++ [m] })
  | .file f, .enum e, _ => .ok (.file { f with enumTypes := f.enumTypes ++ [e] })
  | .file f, .service s, _ => .ok (.file { f with services := f.services ++ [s] })
  | .file f, .field x, some (.extend extendee) =>
    .ok (.file { f with extensions := f.extensions ++ [{ x with extendee? := some extendee }] })
  | .file f, .field x, _ => .ok (.file { f with extensions := f.extensions ++ [x] })
  | .message m, .field x, some (.extend extendee) =>
    .ok (.message { m with extensions := m.extensions ++ [{ x with extendee? := some extendee }] })
  | .message m, .field x, some (.oneof index) =>
    .ok (.message { m with fields := m.fields ++ [{ x with oneofIndex? := some (.ofNat index) }] })
  | .message m, .field x, none => .ok (.message { m with fields := m.fields ++ [x] })
  | .message m, .message inner, _ =>
    .ok (.message { m with nestedTypes := m.nestedTypes ++ [inner] })
  | .message m, .enum e, _ => .ok (.message { m with enumTypes := m.enumTypes ++ [e] })
  | .message m, .extensionRange r, _ =>
    .ok (.message { m with extensionRanges := m.extensionRanges ++ [r] })
  | .enum e, .enumValue v, _ => .ok (.enum { e with values := e.values ++ [v] })
  | .service s, .method m, _ => .ok (.service { s with methods := s.methods ++ [m] })
  | _, _, _ => .error (.invalidScope child.kindName owner.kindName)

def close (s : ScopeStack) : Except BuildError ScopeStack :=
  match s.frames with
  | [] | [_] => .error .closedRoot
  | top :: below =>
    let rest : ScopeStack := ⟨below⟩
    match top.target with
    | .block _ => .ok rest
    | .owns e =>
      match rest.owner? with
      | none => .error .closedRoot
      | some owner => do
        let changed ← attach owner rest.block? e
        return rest.modifyOwner fun _ => changed

def addOption (s : ScopeStack) (raw : RawOption) : Except BuildError ScopeStack := do
  (← s.openOption raw).close

def finish (s : ScopeStack) : Except BuildError FileDescriptor :=
  match s.frames with
  | [frame] =>
    match frame.target with
    | .owns (.file f) => .ok f
    | _ => .error .closedRoot
  | _ => s.refuse "finish"

end ScopeStack

end ProtobufSchema
