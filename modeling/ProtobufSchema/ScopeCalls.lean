import ProtobufSchema.Scope

/-! The stack of open elements as its callers hold it. Calls change the frames in place, and a call
that fails leaves them as it has made them by then. The position of a frame is the number of frames
below it. -/

namespace ProtobufSchema

inductive CallError where
  | refused (e : BuildError)
  /-- The frame that elements should be added to owns none. No call is meant to end like this. -/
  | unowned
  deriving DecidableEq, Repr

inductive HeldTarget where
  | owns (e : Element)
  /-- Elements opened in the block are added to the frame at a position. -/
  | delegates (ancestor : Nat) (b : Block)
  deriving BEq, Repr

structure HeldFrame where
  target : HeldTarget
  parent? : Option Nat
  counts : List (Tag × Nat)
  path : Path
  deriving BEq, Repr

namespace HeldFrame

def element? (f : HeldFrame) : Option Element :=
  match f.target with
  | .owns e => some e
  | .delegates _ _ => none

def block? (f : HeldFrame) : Option Block :=
  match f.target with
  | .owns _ => none
  | .delegates _ b => some b

def kindName (f : HeldFrame) : String :=
  match f.target with
  | .owns e => e.kindName
  | .delegates _ (.extend _) => "extend"
  | .delegates _ (.oneof _) => "oneof"

def optionsKind? (f : HeldFrame) : Option OptionsKind :=
  match f.target with
  | .owns e => e.optionsKind?
  | .delegates _ (.oneof _) => some .oneof
  | .delegates _ (.extend _) => none

def count (f : HeldFrame) (tag : Tag) : Nat := (f.counts.lookup tag).getD 0

def counting (f : HeldFrame) (tag : Tag) : HeldFrame :=
  { f with counts := (tag, f.count tag + 1) :: f.counts.filter (·.1 ≠ tag) }

def holding (f : HeldFrame) (e : Element) : HeldFrame := { f with target := .owns e }

def at? : List HeldFrame → Nat → Option HeldFrame
  | [], _ => none
  | f :: below, i => if i = below.length then some f else at? below i

def modifyAt (i : Nat) (g : HeldFrame → HeldFrame) : List HeldFrame → List HeldFrame
  | [] => []
  | f :: below => if i = below.length then g f :: below else f :: modifyAt i g below

end HeldFrame

structure HeldStack where
  frames : List HeldFrame
  deriving BEq, Repr

namespace HeldStack

def ofFile (file : FileDescriptor) : HeldStack := ⟨[⟨.owns (.file file), none, [], []⟩]⟩

def depth (s : HeldStack) : Nat := s.frames.length

def top (s : HeldStack) : Nat := s.frames.length - 1

def frameAt? (s : HeldStack) (i : Nat) : Option HeldFrame := HeldFrame.at? s.frames i

def modifyAt (s : HeldStack) (i : Nat) (g : HeldFrame → HeldFrame) : HeldStack :=
  ⟨HeldFrame.modifyAt i g s.frames⟩

def path (s : HeldStack) : Path := ((s.frameAt? s.top).map (·.path)).getD []

def kindName (s : HeldStack) : String := ((s.frameAt? s.top).map HeldFrame.kindName).getD ""

def block? (s : HeldStack) : Option Block := (s.frameAt? s.top).bind HeldFrame.block?

def current? (s : HeldStack) : Option Element := (s.frameAt? s.top).bind HeldFrame.element?

/-- The position of the frame that receives what is added at a position. -/
def ownerIndex (s : HeldStack) (i : Nat) : Nat :=
  match (s.frameAt? i).map HeldFrame.target with
  | some (.delegates ancestor _) => ancestor
  | _ => i

def ownerFrame? (s : HeldStack) : Option HeldFrame := s.frameAt? (s.ownerIndex s.top)

abbrev Call := EStateM CallError HeldStack

def owner : Call Element := do
  match (← get).ownerFrame?.bind HeldFrame.element? with
  | some e => return e
  | none => throw .unowned

def modifyOwner (g : Element → Element) : Call Unit := do
  let e ← owner
  modify fun s => s.modifyAt (s.ownerIndex s.top) (·.holding (g e))

def refuse {α : Type} (operation : String) : Call α := do
  throw (.refused (.invalidScope operation (← get).kindName))

/-- Counts one more element under a tag of a frame, and answers where it will be. -/
def nextPath (i : Nat) (tag : Tag) (steps : Nat → Path) : Call Path := do
  match (← get).frameAt? i with
  | some f => do
    modify (·.modifyAt i (·.counting tag))
    return f.path ++ steps (f.count tag)
  | none => throw .unowned

def push (target : HeldTarget) (path : Path) : Call Unit :=
  modify fun s => ⟨⟨target, some s.top, [], path⟩ :: s.frames⟩

def optionPath : Call Path := do
  let s ← get
  match (s.frameAt? s.top).bind HeldFrame.optionsKind? with
  | some kind =>
    nextPath s.top .uninterpreted fun i => [kind.tag.step, Tag.uninterpreted.step, .ofNat i]
  | none => refuse "option"

def childPath (e : Element) : Call Path := do
  let owner ← owner
  let s ← get
  match ScopeStack.childTag? owner s.block? e with
  | some tag => nextPath (s.ownerIndex s.top) tag fun i => [tag.step, .ofNat i]
  | none => refuse e.kindName

def openElement (e : Element) : Call Path := do
  let path ←
    match e with
    | .option _ => optionPath
    | .file _ | .oneof _ => refuse e.kindName
    | _ => childPath e
  push (.owns e) path
  return path

def openExtend (extendee : String) : Call Path := do
  let s ← get
  let i := s.ownerIndex s.top
  match s.frameAt? i with
  | some f =>
    match f.target, i == s.top with
    | .owns (.file _), true => openBlock i (f.path ++ [Tag.fileExtension.step])
    | .owns (.message _), true => openBlock i (f.path ++ [Tag.messageExtension.step])
    | _, _ => refuse "extend"
  | none => throw .unowned
where
  openBlock (i : Nat) (path : Path) : Call Path := do
    push (.delegates i (.extend extendee)) path
    return path

def openOneof (o : OneofDescriptor) : Call Nat := do
  let s ← get
  match s.current? with
  | some (.message m) => do
    let index := m.oneofs.length
    modify (·.modifyAt s.top (·.holding (.message { m with oneofs := m.oneofs ++ [o] })))
    let path ← nextPath s.top .messageOneof fun _ => [Tag.messageOneof.step, .ofNat index]
    push (.delegates s.top (.oneof index)) path
    return index
  | _ => refuse "oneof"

def hand (e : Element) : Call Unit := do
  let s ← get
  match s.ownerFrame?.map HeldFrame.target, e with
  | some (.owns owner), _ =>
    match ScopeStack.attach owner s.block? e with
    | .ok changed => set (s.modifyAt (s.ownerIndex s.top) (·.holding changed))
    | .error err => throw (.refused err)
  | some (.delegates _ _), .option _ => throw (.refused (.invalidScope "option" "extend"))
  | _, _ => throw .unowned

/-- Closes the innermost frame. It is gone before its element is handed on. -/
def close : Call Unit := do
  match (← get).frames with
  | [] | [_] => throw (.refused .closedRoot)
  | f :: below => do
    set (⟨below⟩ : HeldStack)
    match f.target with
    | .delegates _ _ => return
    | .owns e => hand e

def addOption (raw : RawOption) : Call Unit := do
  let _ ← openElement (.option raw)
  close

def finish (s : HeldStack) : Except BuildError FileDescriptor :=
  match s.frames with
  | [f] =>
    match f.target with
    | .owns (.file file) => .ok file
    | _ => .error .closedRoot
  | _ => .error (.invalidScope "finish" s.kindName)

end HeldStack

inductive ScopeCall where
  | openElement (e : Element)
  | openExtend (extendee : String)
  | openOneof (o : OneofDescriptor)
  | close
  | addOption (raw : RawOption)
  deriving BEq, Repr

namespace ScopeCall

inductive Answer where
  | path (path : Path)
  | index (i : Nat)
  | done
  deriving DecidableEq, Repr

def perform : ScopeCall → HeldStack.Call Answer
  | openElement e => return .path (← HeldStack.openElement e)
  | openExtend extendee => return .path (← HeldStack.openExtend extendee)
  | openOneof o => return .index (← HeldStack.openOneof o)
  | close => do
    HeldStack.close
    return .done
  | addOption raw => do
    HeldStack.addOption raw
    return .done

end ScopeCall

def HeldStack.after (s : HeldStack) (c : ScopeCall) : HeldStack :=
  match c.perform s with
  | .ok _ s' => s'
  | .error _ s' => s'

def HeldStack.run (s : HeldStack) (calls : List ScopeCall) : HeldStack := calls.foldl after s

end ProtobufSchema
