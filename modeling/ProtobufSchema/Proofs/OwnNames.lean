import ProtobufSchema.Proofs.FollowedWalks
import ProtobufSchema.Proofs.MetaSchemaOptions
import ProtobufSchema.Proofs.ParsedTrees

/-! Before any reference is resolved, the ledger of an assembled file describes it. -/

namespace ProtobufSchema

open List
open Name (join dotted segments IsSegment)
open ScopeStack (Place)
open SymbolTable

variable {f : FileDescriptor} {full : String} {kind : SymbolKind} {i a : Nat}

namespace FileDescriptor

def uses (f : FileDescriptor) : List (Placed Use) := (Element.file f).uses f.package []

theorem mentions_eq (f : FileDescriptor) : f.mentions = f.uses.flatMap Placed.useMentions := by
  have huses : f.uses = f.placedFields.map (.map FieldDescriptor.use) ++
      f.placedMethods.map (.map MethodDescriptor.use) := rfl
  rw [huses, flatMap_append, flatMap_map, flatMap_map]
  rfl

theorem mem_mentions {m : Mention} : m ∈ f.mentions ↔ ∃ w ∈ f.uses, m ∈ w.useMentions := by
  rw [mentions_eq, mem_flatMap]

theorem mem_definitions {x : String × Definition} : x ∈ f.definitions ↔
    x ∈ (packagePrefixes "" ((segments f.package).filter (· ≠ ""))).map (fun p => (p, .package)) ∨
      x ∈ (Element.file f).names f.package [] := by
  simp [definitions, Element.names]

end FileDescriptor

namespace Ledger

structure Describes (l : Ledger) (f : FileDescriptor) : Prop where
  sound : l.IsSound
  symbols : ∀ full kind, (∃ d, (full, d) ∈ f.definitions ∧ d.symbolKind? = some kind) ↔
    l.HasFrom 1 full kind
  extensions : ∀ full d, (full, d) ∈ f.definitions → d.symbolKind? = none → l.Takes full
  mentions : (l.references.map Reference.mention).Perm f.mentions
  traces : ∀ r ∈ l.references, l.Traces r
  settled : ∀ w ∈ f.uses, w.value.IsSettled l.symbols

end Ledger

namespace Assembly

open ProtobufSchema.Tree

theorem finish_ok {s : ScopeStack} {counts : List (Tag × Nat)} {e : Element}
    (hs : filePlace.Holds e counts s) (h : s.finish = .ok f) : e = .file f := by
  obtain ⟨lead, hlead, hframes⟩ := hs
  cases hlead
  simp only [ScopeStack.finish, hframes, nil_append, filePlace] at h
  split at h
  · next hfile =>
    cases h
    exact FrameTarget.owns.inj hfile
  · cases h

theorem dotted_package {tree : File} (h : tree.IsWritten) :
    dotted ((segments ((tree.package?.map (·.name)).getD "")).filter (· ≠ "")) =
      (tree.package?.map (·.name)).getD "" := by
  obtain ⟨ss, hss, hname⟩ := h.exists_package
  rw [hname, Name.filter_segments_dotted hss]

variable {name : String} {tree : File} {log : Log}

theorem initial_references : (initial name tree log).ledger.references = [] := rfl

theorem initial_hasFrom :
    (initial name tree log).ledger.HasFrom 1 full kind ↔ kind = .package ∧
      full ∈ FileDescriptor.packagePrefixes ""
        ((segments ((tree.package?.map (·.name)).getD "")).filter (· ≠ "")) := by
  obtain ⟨_, _, _, _, _, hprefixes⟩ := ofPackage_spec ((tree.package?.map (·.name)).getD "")
  rw [hprefixes]
  constructor
  · rintro ⟨i, hle, hlt, hfull, hk⟩
    rw [← Option.some.inj ((initial_kind? hlt).symm.trans hk)]
    exact ⟨rfl, i, by omega, hlt, hfull⟩
  · rintro ⟨rfl, i, hne, hlt, hfull⟩
    have hkind : (initial name tree log).symbols.kind? i = some .package := initial_kind? hlt
    exact ⟨i, by omega, hlt, hfull, hkind⟩

theorem describes_of_walk {a : Assembly} (htree : tree.IsWritten)
    (hwalk : walkFile tree (initial name tree log) = .ok () a) (hfinish : a.stack.finish = .ok f) :
    a.ledger.Describes f := by
  obtain ⟨kept, _, henters, _⟩ := walkFile_follows rfl rfl initial_works htree hwalk
  obtain ⟨_, _, hopen⟩ := henters.after.stack
  obtain ⟨uses, names, haccounts, huses, hnames⟩ := henters.brings
  have hhead := Element.head_having ({ raws := waiting kept.options } ++ .all (Item.contents
    (initial name tree log).dialect (initial name tree log).here) kept.items)
    (.file (header name tree))
  rw [finish_ok hopen hfinish] at huses hnames hhead
  obtain ⟨_, _, _, hpackage, hfull, _⟩ := ofPackage_spec ((tree.package?.map (·.name)).getD "")
  have hname : f.package = (tree.package?.map (·.name)).getD "" := Element.Head.file.inj hhead
  have hhere : (initial name tree log).here = f.package := by
    rw [hname]
    exact hfull.trans (dotted_package htree)
  rw [hhere] at huses hnames
  have huses' : f.uses.Perm uses := huses
  have hnames' (x : String × Definition) : x ∈ (Element.file f).names f.package [] ↔ x ∈ names := by
    have hnone : (Element.file (header name tree)).names f.package [] = [] := rfl
    rw [show ([] : Path) = filePlace.path from rfl, hnames x, show filePlace.path = [] from rfl,
      hnone]
    simp
  obtain ⟨more, hmore, htraces, hmentions⟩ := haccounts.mentions
  rw [initial_references, nil_append] at hmore
  refine ⟨haccounts.sound, ?_, ?_, ?_, hmore ▸ htraces,
    fun w hw => haccounts.settled w (huses'.subset hw)⟩
  · intro full kind
    have hsize : 1 ≤ (initial name tree log).ledger.size := Nat.zero_lt_of_lt hpackage
    have hown := haccounts.symbols full kind
    simp only [not_mem_nil, or_false] at hown
    rw [Ledger.hasFrom_iff initial_works.sound haccounts.sound haccounts.nodes hsize, hown,
      initial_hasFrom, ← hname]
    simp only [FileDescriptor.mem_definitions, hnames', or_and_right, exists_or]
    refine or_congr ?_ .rfl
    constructor
    · rintro ⟨d, hd, hkind⟩
      obtain ⟨x, hx, heq⟩ := mem_map.mp hd
      cases heq
      exact ⟨(Option.some.inj hkind).symm, hx⟩
    · rintro ⟨rfl, hx⟩
      exact ⟨.package, mem_map.mpr ⟨full, hx, rfl⟩, rfl⟩
  · intro full d hd hnone
    rcases FileDescriptor.mem_definitions.mp hd with hd | hd
    · obtain ⟨x, hx, heq⟩ := mem_map.mp hd
      cases heq
      cases hnone
    · exact haccounts.extensions full d ((hnames' _).mp hd) hnone
  · rw [FileDescriptor.mentions_eq, hmore]
    exact hmentions.trans (huses'.flatMap_right _).symm

end Assembly

/-! ### Looking names up -/

/-- The kind of the symbol that a file itself declares under a full name. -/
def FileDescriptor.symbolKind? (f : FileDescriptor) (full : String) : Option SymbolKind :=
  ((SymbolIndex.ofFile f).get? full).bind Definition.symbolKind?

/-- The symbol that a name denotes among those that the file itself declares. The closest scope
where it denotes one decides. -/
def FileDescriptor.ownSymbol? (f : FileDescriptor) (name scope : String) :
    Option (String × SymbolKind) :=
  let found? (full : String) := (f.symbolKind? full).map fun kind => (full, kind)
  match Name.absolute? name with
  | some full => found? full
  | none => (Name.enclosing scope).findSome? fun s => found? (join s name)

namespace SymbolTable

variable {t : SymbolTable}

theorem exists_kind? (h : i < t.nodes.length) : ∃ kind, t.kind? i = some kind :=
  ⟨_, congrArg (Option.map _) (getElem?_eq_getElem h)⟩

theorem IsTree.walk?_segments (h : t.IsTree) {b : Nat} (ha : a < t.nodes.length) {name : String} :
    t.walk? a (segments name) = some b ↔
      b ≠ 0 ∧ b < t.nodes.length ∧ t.fullName b = join (t.fullName a) name := by
  have hpath : join (t.fullName a) name = dotted (t.path a ++ segments name) :=
    Name.join_dotted (fun s hs => h.isSegment_of_mem_path ha s hs) name
  rw [h.walk?_eq_some_iff ha, hpath, fullName_eq]
  constructor
  · rintro ⟨hb, heq⟩
    refine ⟨?_, hb, by rw [heq]⟩
    rintro rfl
    rw [h.path_root] at heq
    exact Name.segments_ne_nil name (append_eq_nil_iff.mp heq.symm).2
  · rintro ⟨hne, hb, heq⟩
    refine ⟨hb, Name.dotted_injective (h.path_ne_nil hb hne) ?_ ?_ ?_ heq⟩
    · simp [Name.segments_ne_nil]
    · exact fun s hs => (h.isSegment_of_mem_path hb s hs).2
    · intro s hs
      rcases mem_append.mp hs with hs | hs
      · exact (h.isSegment_of_mem_path ha s hs).2
      · exact Name.not_mem_of_mem_segments hs

end SymbolTable

namespace Ledger

namespace Describes

variable {l : Ledger} {f : FileDescriptor}
variable {node : Nat}

variable (h : l.Describes f)
include h

theorem fullName_ne_of_takes (htakes : l.Takes full)
    (hne : i ≠ 0) (hi : i < l.size) : l.symbols.fullName i ≠ full := by
  obtain ⟨node, name, hmem, hname, rfl⟩ := htakes
  obtain ⟨hnode, hnone⟩ := h.sound.taken _ hmem
  intro hfull
  have hwalk := (h.sound.tree.walk?_segments hnode).mpr ⟨hne, hi, hfull⟩
  rw [Name.segments_of_isSegment hname] at hwalk
  unfold walk? at hwalk
  split at hwalk
  · rw [hnone] at hwalk
    cases hwalk
  · cases hwalk

theorem symbolKind?_eq_some_iff : f.symbolKind? full = some kind ↔ l.HasFrom 1 full kind := by
  rw [FileDescriptor.symbolKind?, SymbolIndex.get?_ofFile, Option.bind_eq_some_iff]
  have hmem {d : Definition} (hd : f.definitions.lookup full = some d) :
      (full, d) ∈ f.definitions := by
    obtain ⟨before, after, heq, _⟩ := lookup_eq_some_iff.mp hd
    simp [heq]
  constructor
  · rintro ⟨d, hd, hkind⟩
    exact (h.symbols full kind).mp ⟨d, hmem hd, hkind⟩
  · intro hhas
    obtain ⟨node, hne, hnode, hfull, hkind⟩ := hhas
    obtain ⟨d', hd', _⟩ := (h.symbols full kind).mpr ⟨node, hne, hnode, hfull, hkind⟩
    cases hd : f.definitions.lookup full with
    | none => simpa using lookup_eq_none_iff.mp hd (full, d') hd'
    | some d =>
      refine ⟨d, rfl, ?_⟩
      cases hk : d.symbolKind? with
      | none =>
        have htakes := h.extensions full d (hmem hd) hk
        exact absurd hfull (h.fullName_ne_of_takes htakes (Nat.one_le_iff_ne_zero.mp hne) hnode)
      | some kind' =>
        -- A full name belongs to one node, so the kinds agree.
        obtain ⟨node', _, hnode', hfull', hkind'⟩ := (h.symbols full kind').mp ⟨d, hmem hd, hk⟩
        have hsame := h.sound.tree.fullName_injective hnode' hnode (hfull'.trans hfull.symm)
        rw [← hkind', hsame, hkind]

theorem symbolKind?_fullName (hnode : l.symbols.kind? node = some .message) :
    f.symbolKind? (l.symbols.fullName node) = some .message := by
  have hne : node ≠ 0 := by
    rintro rfl
    rw [kind?, h.sound.tree.root] at hnode
    cases hnode
  exact h.symbolKind?_eq_some_iff.mpr
    ⟨node, Nat.one_le_iff_ne_zero.mpr hne, lt_length_of_kind? hnode, rfl, hnode⟩

theorem walk?_symbol? (ha : a < l.size) (name : String) :
    ((l.symbols.walk? a (segments name)).bind l.symbols.symbol?).map
      (fun s => (s.fullName, s.kind)) =
      (f.symbolKind? (join (l.symbols.fullName a) name)).map fun kind =>
        (join (l.symbols.fullName a) name, kind) := by
  cases hwalk : l.symbols.walk? a (segments name) with
  | none =>
    cases hkind : f.symbolKind? (join (l.symbols.fullName a) name) with
    | none => rfl
    | some kind =>
      obtain ⟨node, hne, hnode, hfull, _⟩ := h.symbolKind?_eq_some_iff.mp hkind
      have hsome :=
        (h.sound.tree.walk?_segments ha).mpr ⟨Nat.one_le_iff_ne_zero.mp hne, hnode, hfull⟩
      rw [hwalk] at hsome
      cases hsome
  | some b =>
    obtain ⟨hne, hb, hfull⟩ := (h.sound.tree.walk?_segments ha).mp hwalk
    obtain ⟨kind, hkind⟩ := exists_kind? hb
    have hdeclared :=
      h.symbolKind?_eq_some_iff.mpr ⟨b, Nat.one_le_iff_ne_zero.mpr hne, hb, hfull, hkind⟩
    simp [symbol?, hkind, hfull, hdeclared]

theorem resolved?_eq (hnode : node < l.size) (name : String) :
    (l.symbols.resolved? name node).map (fun s => (s.fullName, s.kind)) =
      f.ownSymbol? name (l.symbols.fullName node) := by
  unfold resolved? FileDescriptor.ownSymbol?
  cases Name.absolute? name with
  | some full =>
    have hroot := h.sound.tree.fullName_root
    have hwalk := h.walk?_symbol? (IsTree.lt_length h.sound.tree.root) full
    rw [hroot] at hwalk
    exact hwalk
  | none =>
    dsimp only
    rw [← h.sound.tree.map_fullName_ancestors hnode, search?]
    have hancestors := h.sound.tree.lt_of_mem_ancestors hnode
    generalize l.symbols.ancestors node = scopes at hancestors
    induction scopes with
    | nil => rfl
    | cons a scopes ih =>
      obtain ⟨ha, hrest⟩ := forall_mem_cons.mp hancestors
      have hfirst := h.walk?_symbol? ha name
      rw [findSome?_cons, map_cons, findSome?_cons, ← hfirst]
      cases hwalk : l.symbols.walk? a (segments name) with
      | none => exact ih hrest
      | some b =>
        obtain ⟨_, hb, _⟩ := (h.sound.tree.walk?_segments ha).mp hwalk
        obtain ⟨kind, hkind⟩ := exists_kind? hb
        simp [symbol?, hkind]

end Describes

end Ledger

end ProtobufSchema
