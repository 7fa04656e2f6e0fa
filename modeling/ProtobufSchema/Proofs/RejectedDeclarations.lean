import ProtobufSchema.Proofs.FollowedDeclarations

/-! A declaration is rejected for a name, a number, an option or a range that cannot be had, and
then the state is as before but for what was reported; or it is recorded. -/

namespace ProtobufSchema

variable {comment? : Option String}

namespace Assembly

open ProtobufSchema.Tree

variable {α β σ : Type} {a a' : Assembly} {before after : List Level}

/-! ### Declarations that are recorded -/

def Records (x : Assemble α) : Prop :=
  ∀ ⦃a r a'⦄, x a = .ok r a' → a.locations.spans.length < a'.locations.spans.length

namespace Records

theorem bind (before after : List Level) {x : Assemble α} {f : α → Assemble β} (hx : Records x)
    (hf : ∀ r, Orderly before (f r) after) : Records (x >>= f) := by
  intro a r a' h
  obtain ⟨s, a₁, hs, h⟩ := bind_ok h
  exact lt_of_lt_of_le (hx hs) ((hf s).spans h).length_le

theorem following (before after : List Level) {x : Assemble α} {f : α → Assemble β}
    (hx : Orderly before x after) (hf : ∀ r, Records (f r)) : Records (x >>= f) := by
  intro a r a' h
  obtain ⟨s, a₁, hs, h⟩ := bind_ok h
  exact lt_of_le_of_lt (hx.spans hs).length_le (hf s h)

theorem look {f : Assembly → Assemble α} (h : ∀ a, Records (f a)) : Records (get >>= f) :=
  fun a _ _ hrun => h a hrun

theorem recordLocation (path : Path) (span : Span) (comment? : Option String) :
    Records (recordLocation path span comment?) := by
  rintro a _ _ ⟨⟩
  simp [Locations.record]

theorem openElement (levels : List Level) {e : Element} {span : Span} {f : Path → Assemble α}
    (hf : ∀ path, Orderly (.element e.optionsKind? :: levels) (f path) levels) :
    Records (openElement e span comment? >>= f) := by
  refine .bind _ _ ?_ hf
  intro a r a' h
  obtain ⟨_, _, hstack, h⟩ := bind_ok h
  obtain ⟨_, _, rfl⟩ := onStack_ok hstack
  cases h
  simp [Locations.record]

end Records

abbrev inMessage : List Level := [.element (some .message)]

/-- The number of a field is claimed, unless it is an extension, or its name is in use. -/
def Clashes (a : Assembly) (context : FieldContext) (name : String) (number : Int32) : Prop :=
  (context.isExtend = false ∧ number ∈ a.claims.fields.map (·.number)) ∨ a.InUse a.scope name

/-- A declaration is rejected, and all that happens is that this is reported, or it is recorded. -/
def Settles (IsRejected : Prop) (x : Assemble σ) (c : σ) (a : Assembly) : Prop :=
  (IsRejected ∧ ∃ ds, ds ≠ [] ∧ x a = .ok c { a with log := a.log.extend ds }) ∨
    (¬IsRejected ∧ ∀ r a', x a = .ok r a' → a.locations.spans.length < a'.locations.spans.length)

namespace Settles

variable {P : Prop} {x y : Assemble σ} {c : σ}

theorem rejected (hP : P) {ds : List Diagnostic} (hds : ds ≠ [])
    (hx : x a = .ok c { a with log := a.log.extend ds }) : Settles P x c a :=
  .inl ⟨hP, ds, hds, hx⟩

theorem reported (hP : P) (hx : ∃ d, x a = .ok c { a with log := a.log.report d }) :
    Settles P x c a := by
  obtain ⟨d, hx⟩ := hx
  exact .rejected hP (List.cons_ne_nil d []) hx

theorem kept (hP : ¬P) (hx : x a = y a') (hy : Records y) (hsame : a'.locations = a.locations) :
    Settles P x c a :=
  .inr ⟨hP, fun _ _ hrun => hsame ▸ hy (hx.symm.trans hrun)⟩

theorem congr {Q : Prop} (hPQ : P ↔ Q) (h : Settles P x c a) : Settles Q x c a := by rwa [← hPQ]

end Settles

variable {name typeName : String} {number : Int32} {span : Span} {context : FieldContext}

theorem Settles.bind {τ : Type} {P : Prop} {x : Assemble σ} {c : σ} {f : σ → Assemble τ} {d : τ}
    (h : Settles P x c a) (hc : ∀ log, f c { a with log := log } = .ok d { a with log := log })
    (hf : ∀ r, Steady inMessage (f r)) : Settles P (x >>= f) d a := by
  rcases h with ⟨hP, ds, hds, hx⟩ | ⟨hP, hx⟩
  · exact .rejected hP hds ((bind_run hx).trans (hc _))
  · refine .inr ⟨hP, fun r a' hrun => ?_⟩
    obtain ⟨s, a₁, hs, hrun⟩ := bind_ok hrun
    exact lt_of_lt_of_le (hx s a₁ hs) ((hf s).spans hrun).length_le

/-! ### The kinds of declarations -/

variable {options : List Assignment}

end Assembly

open Assembly Tree

/-- What is declared in one step of a walk, by what the walk carries along besides its state:
nothing, the names of the options that were set, or what an enum has declared. -/
inductive Declaration : Type → Type 1
  | field (f : FieldMember) (context : FieldContext) : Declaration Unit
  | map (m : MapField) : Declaration Unit
  | oneof (o : Oneof) : Declaration Unit
  | message (m : Tree.Message) : Declaration Unit
  | enum (e : Enum) : Declaration Unit
  | enumValue (scope : Nat) (v : EnumValue) : Declaration EnumClaims
  | enumOption (scope : Nat) (x : Assignment) : Declaration EnumClaims
  | service (s : Service) : Declaration Unit
  | method (node : Nat) (m : Method) : Declaration (List String)
  | extensionRange (x : Extensions) (first last : Int32) : Declaration Unit
  | option (x : Assignment) : Declaration (List String)
  | messageOption (x : Assignment) : Declaration Unit
  | stored (x : Assignment) : Declaration (FieldDescriptor × List String)

namespace Declaration

/-- A name is in use, a number is claimed, an option is set already, or a range is not free. -/
def IsRejected : {σ : Type} → Declaration σ → σ → Assembly → Prop
  | _, field (.field f) context, _, a => a.Clashes context f.name f.number
  | _, field (.group g) context, _, a => a.Clashes context (groupFieldName g.name) g.number ∨
      a.InUse a.scope g.name ∨ g.name = groupFieldName g.name
  | _, map m, _, a => a.Clashes .message m.name m.number ∨
    a.InUse a.scope (Name.mapEntryName m.name)
  | _, oneof o, _, a => a.InUse a.scope o.name
  | _, message m, _, a => a.InUse a.scope m.name
  | _, enum e, _, a => a.InUse a.scope e.name
  | _, enumValue scope v, _, a => a.InUse scope v.name
  | _, enumOption _ x, c, _ => ∃ name ∈ x.simpleName?, name ∈ c.seen
  | _, service s, _, a => a.InUse a.scope s.name
  | _, method node m, _, a => a.InUse node m.name
  | _, extensionRange _ first last, _, a => ∃ e,
    a.claims.ranges.insert (.ofBounds first last) = .error e
  | _, option x, seen, _ => ∃ name ∈ x.simpleName?, name ∈ seen
  | _, messageOption x, _, a => ∃ name ∈ x.simpleName?, name ∈ a.claims.optionNames
  | _, stored x, (_, seen), _ => x.simpleName?.getD "" ∈ seen

end Declaration

end ProtobufSchema
