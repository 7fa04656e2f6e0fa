import ProtobufSchema.Compiler.Finish
import ProtobufSchema.Proofs.CanonicalFixpoint
import ProtobufSchema.Proofs.OrderlyAssembly
import ProtobufSchema.Proofs.UntypedFiles

/-! The options on the stack stay as they are assembled, and what a file says of itself never
changes. -/

namespace ProtobufSchema

variable {name : String} {log log' : Log} {built : Assembled} {tree : File}
variable {Q : Element → Prop}

theorem ScopeStack.Operation.each (hQ : Closed Q) {before after : List Level}
    {op : ScopeStack → Except BuildError ScopeStack} (hop : Operation before op after)
    {s s' : ScopeStack} (hs : s.Each Q) (h : op s = .ok s') : s'.Each Q := by
  cases hop with
  | openElement he hadmits =>
    refine hs.openElement (hQ.fresh he fun hkind => ?_) h
    rw [hkind] at hadmits
    exact Level.not_admits_file hadmits
  | openExtend => exact hs.openExtend h
  | @openOneof _ o ho =>
    dsimp only at h
    cases hopen : s.openOneof o with
    | error e =>
      rw [hopen] at h
      cases h
    | ok r =>
      rw [hopen] at h
      cases h
      exact hs.openOneof hQ ho hopen
  | close => exact hs.close hQ h
  | reviseMessage hf =>
    unfold ScopeStack.reviseMessage at h
    split at h
    · rename_i m hm
      cases h
      exact hs.modifyOwner (hQ.message (hf m) (hs.current? hm))
    · cases h
  | reviseEnum hf =>
    unfold ScopeStack.reviseEnum at h
    split at h
    · rename_i x hx
      cases h
      exact hs.modifyOwner (hQ.enum (hf x) (hs.current? hx))
    · cases h

theorem Assembly.walkFile_each (hQ : ScopeStack.Closed Q) {tree : Tree.File}
    {a : Assembly} {f : FileDescriptor} (hheader : Q (.file (header name tree)))
    (hwalk : walkFile tree (initial name tree log) = .ok () a) (hfinish : a.stack.finish = .ok f) :
    Q (.file f) := by
  have hstack : a.stack.Each Q :=
    (walkFile_orderly tree).keeps (fun _ _ _ hop _ _ hs h => hop.each hQ hs h)
      (.ofFile hheader) hwalk
  exact hstack.finish hfinish

theorem Assembly.isFresh_header (name : String) (tree : Tree.File) :
    (header name tree).IsFresh := by
  constructor <;> simp [header, AreFresh, OptionsKind.slot]

theorem Tree.File.assemble_eq_ok {before after : Log}
    (h : tree.assemble name before = .ok built after) :
    ∃ a f, Assembly.walkFile tree (.initial name tree before) = .ok () a ∧ a.stack.finish = .ok f ∧
      (built.file, built.unresolved) = Reference.resolveAll a.symbols f a.references ∧
      after = a.log ∧ built.symbols = a.symbols := by
  unfold assemble at h
  cases hwalk : Assembly.walkFile tree (.initial name tree before) with
  | error e a => rw [hwalk] at h; cases h
  | ok u a =>
    rw [hwalk] at h
    dsimp only at h
    cases hfinish : a.stack.finish with
    | error e => rw [hfinish] at h; cases h
    | ok f =>
      rw [hfinish] at h
      cases h
      exact ⟨a, f, rfl, hfinish, rfl, rfl, rfl⟩

theorem Tree.File.assemble_isFresh (h : tree.assemble name log = .ok built log') :
    built.file.IsFresh := by
  obtain ⟨a, f, hwalk, hfinish, hresolved, _⟩ := assemble_eq_ok h
  have hf : f.IsFresh := Assembly.walkFile_each ScopeStack.closed_isFresh
    (Assembly.isFresh_header name tree) hwalk hfinish
  have hslots := congrArg (·.1.untyped.slots) hresolved
  rw [FileDescriptor.slots_untyped, Reference.untyped_resolveAll,
    FileDescriptor.slots_untyped] at hslots
  rw [FileDescriptor.isFresh_iff, hslots]
  exact FileDescriptor.isFresh_iff.mp hf

/-! ### Headings -/

namespace FileDescriptor

def heading (f : FileDescriptor) : FileDescriptor :=
  { f with messageTypes := [], enumTypes := [], services := [], extensions := [], options := none }

variable {f f' : FileDescriptor}

theorem name_of_heading (h : f'.heading = f.heading) : f'.name = f.name := by
  have hnames := congrArg name h
  exact hnames

theorem dependencies_of_heading (h : f'.heading = f.heading) :
    f'.dependencies = f.dependencies := by
  have hdependencies := congrArg dependencies h
  exact hdependencies

theorem heading_of_untyped (h : f'.untyped = f.untyped) : f'.heading = f.heading := by
  have hheadings := congrArg heading h
  exact hheadings

end FileDescriptor

def Element.heading? : Element → Option FileDescriptor
  | .file f => some f.heading
  | _ => none

namespace ScopeStack

variable {e e' : Element}
variable {block : Option Block}

theorem heading?_attachOption {raw : RawOption}
    (h : attachOption e block raw = .ok e') : e'.heading? = e.heading? := by
  unfold attachOption at h
  split at h
  · split at h
    · cases h
      rfl
    · cases h
  · split at h
    · rename_i hadd
      cases h
      cases e <;> cases hadd <;> rfl
    · cases h
  · cases h

theorem heading?_attach {child : Element} (h : attach e block child = .ok e') :
    e'.heading? = e.heading? := by
  unfold attach at h
  split at h
  · exact heading?_attachOption h
  all_goals
    cases h
    try rfl

theorem closed_heading (heading : FileDescriptor) :
    Closed fun e => ∀ x ∈ e.heading?, x = heading where
  fresh {e} _ hkind := by
    cases e with
    | file => exact absurd rfl hkind
    | _ => nofun
  attach ho _ hattach := heading?_attach hattach ▸ ho
  message _ _ := nofun
  enum _ _ := nofun

end ScopeStack

theorem Tree.File.assemble_heading (h : tree.assemble name log = .ok built log') :
    built.file.heading = Assembly.header name tree := by
  obtain ⟨a, f, hwalk, hfinish, hresolved, _⟩ := assemble_eq_ok h
  have hf : ∀ x ∈ (Element.file f).heading?, x = Assembly.header name tree :=
    Assembly.walkFile_each (ScopeStack.closed_heading _) (fun _ hx => (Option.some.inj hx).symm)
      hwalk hfinish
  have huntyped := congrArg (·.1.untyped) hresolved
  exact (FileDescriptor.heading_of_untyped
    (huntyped.trans (Reference.untyped_resolveAll _ _ _))).trans (hf _ rfl)

theorem Canonicalizer.canonicalize_heading {c : Canonicalizer} {p q : FileDescriptor}
    (h : c.canonicalize p log = .ok q log') : q.heading = p.heading := by
  obtain ⟨file, hinterprets, hq⟩ := canonicalize_cases h
  have hbare := congrArg FileDescriptor.heading hinterprets.bare_eq
  have hfile : file.heading = p.heading := hbare
  rcases hq with rfl | rfl
  · exact hfile
  · exact hfile

end ProtobufSchema
