import ProtobufSchema.Proofs.AssembledInputs
import ProtobufSchema.Proofs.Finishing
import ProtobufSchema.Proofs.OwnNames

/-! References are answered by the file's own symbols or by the files it imports, and in the end
each mention of a type has its own answer, whatever the order. -/

namespace ProtobufSchema

open Reference Mention

variable {r : Reference} {rs : List Reference}

namespace Mention

/-- The symbol of the file itself that is mentioned, if it is of an acceptable kind. -/
def own? (f : FileDescriptor) (m : Mention) : Option (String × SymbolKind) :=
  (f.ownSymbol? m.name m.scope).filter fun x => m.kind.accepts x.2

/-- What is mentioned among all that can be used. Where names need not be strict, one that is
written out in full is taken to be a message. -/
def seen? (p : Pool) (strict : Bool) (m : Mention) : Option (String × SymbolKind) :=
  match p.resolveWith? m.name m.scope fun d => d.symbolKind?.any m.kind.accepts with
  | some found => some (found.fullName, found.definition.symbolKind?.getD .message)
  | none => (if strict then none else Name.absolute? m.name).map (·, .message)

def answer? (f : FileDescriptor) (p : Pool) (strict : Bool) (m : Mention) :
    Option (String × SymbolKind) :=
  (m.own? f).or (m.seen? p strict)

end Mention

namespace Reference

section Answers

variable {found A : Answering} {r : Reference} {rs : List Reference} {f : FileDescriptor}

def answers (found A : Answering) (rs : List Reference) : Answering := fun m =>
  if m ∈ rs.map mention then (found m).or (A m) else A m

theorem answers_nil : answers found A [] = A := by
  funext m
  simp [answers]

theorem answers_cons_some {x : String × SymbolKind} (h : found r.mention = some x) :
    answers found (Function.update A r.mention (some x)) rs = answers found A (r :: rs) := by
  funext m
  by_cases hm : m = r.mention
  · subst hm
    simp [answers, h]
  · simp [answers, hm]

theorem answers_cons_none (h : found r.mention = none) :
    answers found A rs = answers found A (r :: rs) := by
  funext m
  by_cases hm : m = r.mention
  · subst hm
    simp [answers, h]
  · simp [answers, hm]

theorem answers_singleton : answers found (answers found A [r]) rs = answers found A (r :: rs) := by
  cases h : found r.mention with
  | none => rw [← answers_cons_none h, ← answers_cons_none h, answers_nil]
  | some x => rw [← answers_cons_some h, ← answers_cons_some h, answers_nil]

end Answers

end Reference

namespace Ledger

/-- The references that the file's own symbols do not answer. -/
def unresolved (l : Ledger) (f : FileDescriptor) : List Reference :=
  l.references.filter fun r => (r.mention.own? f).isNone

namespace Describes

variable {l : Ledger} {f : FileDescriptor}

variable (h : l.Describes f)
include h

theorem filter_resolved? (hr : r ∈ l.references) :
    ((l.symbols.resolved? r.name r.scopeNode).filter fun s => r.kind.accepts s.kind).map
      (fun s => (s.fullName, s.kind)) = r.mention.own? f := by
  obtain ⟨hnode, hscope⟩ := h.traces r hr
  have hresolved := h.resolved?_eq hnode r.name
  rw [← hscope] at hresolved
  rw [own?, mention, ← hresolved]
  cases l.symbols.resolved? r.name r.scopeNode with
  | none => rfl
  | some s => cases haccepts : r.kind.accepts s.kind <;> simp [Option.filter]

theorem mention_mem (hr : r ∈ l.references) : r.mention ∈ f.mentions :=
  h.mentions.subset (List.mem_map_of_mem hr)

theorem exists_reference {m : Mention} (hm : m ∈ f.mentions) : ∃ r ∈ l.references, r.mention = m :=
  List.mem_map.mp (h.mentions.symm.subset hm)

theorem perm_unresolved : ((l.unresolved f).map mention).Perm
    (f.mentions.filter fun m => (m.own? f).isNone) := by
  have hperm := h.mentions.filter fun m => (m.own? f).isNone
  rwa [List.filter_map] at hperm

theorem resolveAll_eq (hf : f.isAddressable = true)
    (hrs : ∀ r ∈ rs, r ∈ l.references) {t : SymbolTable} (hnodes : t.nodes = l.symbols.nodes)
    (hcache : t.Remembers) (A : Answering) : resolveAll t (f.answered A) rs =
      (f.answered (answers (own? f) A rs), rs.filter fun r => (r.mention.own? f).isNone) := by
  induction rs generalizing t A with
  | nil => rw [answers_nil]; rfl
  | cons r rs ih =>
    obtain ⟨hr, hrest⟩ := List.forall_mem_cons.mp hrs
    obtain ⟨hanswer, hsame, hremembers⟩ := SymbolTable.resolve_spec hcache r.name r.scopeNode
    have hown := h.filter_resolved? hr
    rw [← SymbolTable.resolved?_congr hnodes, ← hanswer] at hown
    have htable := hsame.trans hnodes
    unfold resolveAll
    dsimp only
    generalize t.resolve r.name r.scopeNode = step at hown htable hremembers
    cases hfound : step.2.filter fun s => r.kind.accepts s.kind with
    | none =>
      rw [hfound] at hown
      rw [ih hrest htable hremembers, answers_cons_none hown.symm, List.filter_cons, ← hown]
      rfl
    | some s =>
      rw [hfound] at hown
      rw [Option.bind_some, write?_answered hf (h.mention_mem hr)]
      dsimp only
      rw [ih hrest htable hremembers, answers_cons_some hown.symm, List.filter_cons, ← hown]
      rfl

theorem resolveAll_references (hf : f.isAddressable = true) :
    resolveAll l.symbols f l.references = (f.answered (own? f), l.unresolved f) := by
  have hremembers : l.symbols.Remembers := by
    intro scope hscope
    rw [h.sound.cache] at hscope
    cases hscope
  have hall := h.resolveAll_eq hf (fun _ hr => hr) rfl hremembers fun _ => none
  rw [FileDescriptor.answered_none] at hall
  refine hall.trans (Prod.ext (FileDescriptor.answered_congr fun m hm => ?_) rfl)
  obtain ⟨r, hr, rfl⟩ := h.exists_reference hm
  rw [answers, if_pos (List.mem_map_of_mem hr), Option.or_none]

end Describes

end Ledger

namespace Pool

variable {f : FileDescriptor}
variable (p : Pool) (strict : Bool) (A : Answering)

theorem resolveReference_answered (hf : f.isAddressable = true) (hr : r.mention ∈ f.mentions) :
    ∃ ds, p.resolveReference strict (f.answered A) r =
        reporting ds (f.answered (answers (seen? p strict) A [r])) ∧
      (ds = [] ↔ (r.mention.seen? p strict).isSome) := by
  have hwrite (fullName : String) (kind : SymbolKind)
      (hseen : r.mention.seen? p strict = some (fullName, kind)) :
      reporting [] (f.answered (answers (seen? p strict) A [r])) =
        pure ((r.write? (f.answered A) fullName kind).getD (f.answered A)) := by
    rw [write?_answered hf hr, ← answers_cons_some hseen, pure_eq_reporting]
    rfl
  unfold resolveReference
  cases hfound : p.resolveWith? r.name r.scope fun d => d.symbolKind?.any r.kind.accepts with
  | some found =>
    have hseen : r.mention.seen? p strict =
        some (found.fullName, found.definition.symbolKind?.getD .message) := by
      unfold seen? mention
      rw [hfound]
    exact ⟨[], (hwrite _ _ hseen).symm, by simp [hseen]⟩
  | none =>
    have hseen : r.mention.seen? p strict =
        (if strict then none else Name.absolute? r.name).map (·, .message) := by
      unfold seen? mention
      rw [hfound]
    cases hfull : (if strict then none else Name.absolute? r.name) with
    | some fullName =>
      rw [hfull] at hseen
      exact ⟨[], (hwrite _ _ hseen).symm, by simp [hseen]⟩
    | none =>
      rw [hfull] at hseen
      rw [← answers_cons_none hseen]
      exact ⟨[_], report_eq_reporting _ _, by simp [hseen]⟩

theorem foldlM_resolveReference (hf : f.isAddressable = true)
    (hrs : ∀ r ∈ rs, r.mention ∈ f.mentions) :
    ∃ ds, rs.foldlM (p.resolveReference strict) (f.answered A) =
        reporting ds (f.answered (answers (seen? p strict) A rs)) ∧
      (ds = [] ↔ ∀ r ∈ rs, (r.mention.seen? p strict).isSome) := by
  induction rs generalizing A with
  | nil => exact ⟨[], by rw [answers_nil]; exact pure_eq_reporting _, by simp⟩
  | cons r rs ih =>
    obtain ⟨hr, hrest⟩ := List.forall_mem_cons.mp hrs
    obtain ⟨ds, hfirst, hds⟩ := resolveReference_answered p strict A hf hr
    obtain ⟨es, hlater, hes⟩ := ih (answers (seen? p strict) A [r]) hrest
    rw [answers_singleton] at hlater
    refine ⟨ds ++ es, ?_, by rw [List.append_eq_nil_iff, hds, hes, List.forall_mem_cons]⟩
    rw [List.foldlM_cons, hfirst]
    funext log
    have hrun := congrFun hlater (log.extend ds)
    simpa [reporting, bind, StateT.bind] using hrun

end Pool

def PendingFile.pool (p : PendingFile) (dependencies : List LinkedFile) : Pool :=
  (Pool.ofDependencies p.file (.ofFile p.file) dependencies).withFallback MetaSchema.file

theorem PendingFile.resolve_answered {l : Ledger} {f : FileDescriptor} (hl : l.Describes f)
    (hf : f.isAddressable = true) {p : PendingFile} (hfile : p.file = f.answered (own? f))
    (hunresolved : p.unresolved = l.unresolved f) (strict : Bool) (dependencies : List LinkedFile) :
    ∃ ds, p.resolve strict dependencies =
      reporting ds (f.answered (answer? f (p.pool dependencies) strict)) ∧
      (ds = [] ↔ ∀ m ∈ f.mentions, (m.answer? f (p.pool dependencies) strict).isSome) := by
  have hmem {r : Reference} : r ∈ l.unresolved f ↔ r ∈ l.references ∧ r.mention.own? f = none := by
    simp [Ledger.unresolved]
  obtain ⟨ds, hrun, hds⟩ := (p.pool dependencies).foldlM_resolveReference strict (own? f) hf
    fun r hr => hl.mention_mem (hmem.mp hr).1
  refine ⟨ds, ?_, hds.trans ?_⟩
  · have hresolve : p.resolve strict dependencies =
        p.unresolved.foldlM ((p.pool dependencies).resolveReference strict) p.file := rfl
    rw [hresolve, hunresolved, hfile, hrun]
    refine congrArg (reporting ds) (FileDescriptor.answered_congr fun m hm => ?_)
    obtain ⟨r, hr, rfl⟩ := hl.exists_reference hm
    unfold answers answer?
    cases hown : r.mention.own? f with
    | none => rw [if_pos (List.mem_map_of_mem (hmem.mpr ⟨hr, hown⟩)), Option.or_none,
        Option.none_or]
    | some x =>
      -- A mention of a symbol of the file itself is not among those that are left.
      rw [if_neg, Option.some_or]
      rintro hleft
      obtain ⟨r', hr', hsame⟩ := List.mem_map.mp hleft
      rw [← hsame, (hmem.mp hr').2] at hown
      cases hown
  · constructor
    · intro hall m hm
      obtain ⟨r, hr, rfl⟩ := hl.exists_reference hm
      unfold answer?
      cases hown : r.mention.own? f with
      | none => exact hall r (hmem.mpr ⟨hr, hown⟩)
      | some x => rfl
    · intro hall r hr
      obtain ⟨hr, hown⟩ := hmem.mp hr
      have hsome := hall _ (hl.mention_mem hr)
      rwa [answer?, hown, Option.none_or] at hsome

/-- The descriptor of a file as it is written: no name of a type is resolved yet. -/
def Tree.File.written? (tree : File) (name : String) : Option FileDescriptor :=
  match Assembly.walkFile tree (Assembly.initial name tree .empty) with
  | .ok () a => a.stack.finish.toOption
  | .error _ _ => none

theorem Tree.File.assemble_ok {tree : File} {name : String} {built : Assembled} {log : Log}
    (htree : tree.IsWritten) (h : tree.assemble name .empty = .ok built log)
    (hbuilt : built.file.isAddressable = true) :
    ∃ (f : FileDescriptor) (l : Ledger), tree.written? name = some f ∧ l.Describes f ∧
      f.isAddressable = true ∧ built.file = f.answered (own? f) ∧
      built.unresolved = l.unresolved f := by
  obtain ⟨a, f, hwalk, hfinish, hresolved, _⟩ := assemble_eq_ok h
  have hf : f.isAddressable = true := by
    rw [← isAddressable_resolveAll a.symbols f a.references, ← hresolved]
    exact hbuilt
  have hl := Assembly.describes_of_walk htree hwalk hfinish
  obtain ⟨hfile, hunresolved⟩ := Prod.mk.inj (hresolved.trans (hl.resolveAll_references hf))
  refine ⟨f, a.ledger, ?_, hl, hf, hfile, hunresolved⟩
  rw [written?, hwalk]
  dsimp only
  rw [hfinish]
  rfl

namespace SchemaInput

variable {text name : String} {p : PendingFile}

theorem assembled?_tree {tree : Tree.File} (h : (SchemaInput.tree tree).assembled? name = some p) :
    ∃ built log, tree.assemble name .empty = .ok built log ∧
      p = ⟨built.file, built.unresolved⟩ := by
  unfold assembled? Compiler.assemble at h
  dsimp only at h
  cases hbuilt : tree.assemble name .empty with
  | error e log => rw [hbuilt] at h; cases h
  | ok built log =>
    rw [hbuilt] at h
    cases h
    exact ⟨built, log, rfl, rfl⟩

theorem assembled?_eq_some (h : (source text).assembled? name = some p) :
    ∃ tree built log, Tree.File.parse text = .ok tree ∧ tree.assemble name .empty = .ok built log ∧
      p = ⟨built.file, built.unresolved⟩ := by
  unfold assembled? at h
  cases hparse : Tree.File.parse text with
  | error e => rw [Compiler.assemble_unparsed hparse] at h; cases h
  | ok tree =>
    rw [Compiler.assemble_source hparse] at h
    obtain ⟨built, log, hbuilt, hp⟩ := assembled?_tree h
    exact ⟨tree, built, log, rfl, hbuilt, hp⟩

theorem assembled?_source (h : (source text).assembled? name = some p)
    (hp : p.file.isAddressable = true) :
    ∃ (tree : Tree.File) (f : FileDescriptor) (l : Ledger), Tree.File.parse text = .ok tree ∧
      tree.written? name = some f ∧ l.Describes f ∧ f.isAddressable = true ∧
      p.file = f.answered (own? f) ∧ p.unresolved = l.unresolved f := by
  obtain ⟨tree, built, log, hparse, hbuilt, rfl⟩ := assembled?_eq_some h
  obtain ⟨f, l, hparts⟩ := Tree.File.assemble_ok (Tree.File.parse_isWritten hparse) hbuilt hp
  exact ⟨tree, f, l, hparse, hparts⟩

end SchemaInput

end ProtobufSchema
