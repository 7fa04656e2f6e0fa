import ProtobufSchema.Proofs.ResolvedReferences

/-! Names and numbers are distinct in each scope of an assembled file, and a declaration is left out
only if it clashes with what was kept before it. -/

namespace ProtobufSchema

namespace Assembly

open ProtobufSchema.Tree

variable {name : String} {tree : File} {log : Log} {a : Assembly} {f : FileDescriptor}

theorem initial_here (h : tree.IsWritten) :
    (initial name tree log).here = (header name tree).package := by
  obtain ⟨_, _, _, _, hfull, _⟩ := SymbolTable.ofPackage_spec ((tree.package?.map (·.name)).getD "")
  exact hfull.trans (dotted_package h)

theorem scopeNames_subperm (kept : File) (name : String) :
    (kept.descriptor name).scopeNames.Subperm (Usage.all Item.usage kept.items).names := by
  have hbears := Contents.bears_all (Item.bears kept.dialect (header name kept).package) kept.items
  refine .trans (List.subperm_ext_iff.mpr fun x _ => ?_) hbears.names.subperm
  simp only [FileDescriptor.scopeNames, File.descriptor, Contents.names, List.count_append]
  omega

theorem raws_items (dialect : Dialect) (scope : String) (items : List Item) :
    (Contents.all (Item.contents dialect scope) items).raws = [] := by
  induction items with
  | nil => rfl
  | cons i items ih =>
    have hitem : (i.contents dialect scope).raws = [] := by
      cases i with
      | extend x => exact (FieldMember.contentsOf_plain dialect scope _ x.fields).2
      | _ => rfl
    simp [Contents.all, Contents.append_def, hitem, ih]

theorem finish_eq_descriptor (hwritten : tree.IsWritten)
    (hwalk : walkFile tree (initial name tree log) = .ok () a) (hfinish : a.stack.finish = .ok f) :
    ∃ kept, tree.Sifts kept ∧ f = kept.descriptor name ∧ f.IsDistinct ∧
      (a.log.size = log.size → kept = tree) := by
  obtain ⟨kept, hsifts, henters, hquiet⟩ := walkFile_follows rfl rfl initial_works hwritten hwalk
  obtain ⟨_, _, hopen⟩ := henters.after.stack
  have hfile := finish_ok hopen hfinish
  have hparts := henters.after.parts
  rw [hfile] at hparts
  have hheader : header name tree = header name kept := by
    rw [hsifts.rest]
    rfl
  have hdialect : (initial name tree log).dialect = kept.dialect := by
    rw [hsifts.rest]
    rfl
  rw [initial_here hwritten, hdialect, hheader] at hfile
  obtain rfl : kept.descriptor name = f := by
    refine .trans ?_ (Element.file.inj hfile)
    simp [File.descriptor, Contents.append_def, header, raws_items]
  refine ⟨kept, hsifts, rfl, ⟨?_, hparts.1, hparts.2⟩, hquiet⟩
  have hnames := henters.after.names_nodup
  exact nodup_of_subperm (scopeNames_subperm kept name) hnames

end Assembly

namespace Tree.File

def assembling? (text name : String) : Option (File × Assembled × Log) :=
  match parse text with
  | .ok tree =>
    match tree.assemble name .empty with
    | .ok built after => some (tree, built, after)
    | .error _ _ => none
  | .error _ => none

theorem exists_of_assembling? {text name : String} {q : File × Assembled × Log → Bool}
    (h : (assembling? text name).any q = true) : ∃ tree built after, parse text = .ok tree ∧
      tree.assemble name .empty = .ok built after ∧ q (tree, built, after) = true := by
  unfold assembling? at h
  split at h
  · rename_i tree hparse
    split at h
    · rename_i built after hbuilt
      exact ⟨tree, built, after, hparse, hbuilt, h⟩
    · cases h
  · cases h

def assemblingFrom? (start : Cursor) (name : String) : Option (File × Assembled × Log) :=
  match Grammar.file start with
  | .ok tree _ =>
    match tree.assemble name .empty with
    | .ok built after => some (tree, built, after)
    | .error _ _ => none
  | .error _ _ => none

theorem any_assembling?_ofList {cs : List Char} {name : String} {q : File × Assembled × Log → Bool}
    (h : (assemblingFrom? (.ofBytes (cs.flatMap String.utf8EncodeChar)) name).any q = true) :
    (assembling? (.ofList cs) name).any q = true := by
  have hstart : Cursor.ofText (.ofList cs) = .ofBytes (cs.flatMap String.utf8EncodeChar) := by
    simp [Cursor.ofText, Utf8.encode, List.utf8Encode]
  rw [← hstart] at h
  unfold assembling? parse
  unfold assemblingFrom? at h
  cases hparse : Grammar.file (.ofText (.ofList cs)) <;> rw [hparse] at h <;> exact h

end Tree.File

theorem Tree.File.exists_kept {text name : String} {tree : File} {built : Assembled}
    {before after : Log} (hparse : parse text = .ok tree)
    (hbuilt : tree.assemble name before = .ok built after) :
    ∃ kept, tree.Sifts kept ∧ built.file.untyped = (kept.descriptor name).untyped ∧
      built.file.IsDistinct := by
  obtain ⟨a, f, hwalk, hfinish, hresolved, _⟩ := assemble_eq_ok hbuilt
  obtain ⟨kept, hsifts, rfl, hdistinct, _⟩ := Assembly.finish_eq_descriptor
    (parse_isWritten hparse) hwalk hfinish
  have huntyped : built.file.untyped = (kept.descriptor name).untyped :=
    (congrArg (·.1.untyped) hresolved).trans (Reference.untyped_resolveAll _ _ _)
  exact ⟨kept, hsifts, huntyped, hdistinct.of_untyped_eq huntyped⟩

/-- In every scope of the file that is assembled from a text the names are distinct, and so are the
numbers of fields. All that was written is in the file but for what clashed with something kept. -/
theorem assembled_distinct {text name : String} {tree : Tree.File} {built : Assembled}
    {before after : Log} (hparse : Tree.File.parse text = .ok tree)
    (hbuilt : tree.assemble name before = .ok built after) :
    built.file.IsDistinct ∧
      ∃ kept, tree.Sifts kept ∧ built.file.untyped = (kept.descriptor name).untyped := by
  obtain ⟨kept, hsifts, huntyped, hdistinct⟩ := Tree.File.exists_kept hparse hbuilt
  exact ⟨hdistinct, kept, hsifts, huntyped⟩

namespace Clashing

/-- Declarations that clash by name, by number, or by the message that is made for them. -/
def text : String :=
  "message M {
    optional int32 a = 1; optional int32 a = 2; optional int32 b = 1;
    optional group CEntry = 3 {} map<int32, int32> c = 4; optional int32 c = 4;
    oneof o { int32 d = 5; } message o { message P {} } enum E { X = 0; o = 1; }
  }
  enum E { M = 0; } service S { rpc m (M) returns (M); rpc m (E) returns (M); }"

set_option maxRecDepth 100000 in
theorem assembled_distinct_clashing : ∃ tree built after, Tree.File.parse text = .ok tree ∧
    tree.assemble "a.proto" .empty = .ok built after ∧ after.size = 7 ∧
    built.file.messageTypes.map (fun m => m.fields.map (·.name)) = [["a", "centry", "c", "d"]] ∧
    built.file.IsDistinct ∧
    ∃ kept, tree.Sifts kept ∧ built.file.untyped = (kept.descriptor "a.proto").untyped := by
  have hrun :
      (Tree.File.assembling? text "a.proto").any (fun (_, built, after) => after.size == 7 &&
      built.file.messageTypes.map (fun m => m.fields.map (·.name)) ==
          [["a", "centry", "c", "d"]]) = true :=
    Tree.File.any_assembling?_ofList (by decide +kernel)
  obtain ⟨tree, built, after, hparse, hbuilt, hrun⟩ := Tree.File.exists_of_assembling? hrun
  obtain ⟨hsize, hfields⟩ := Bool.and_eq_true_iff.mp hrun
  exact ⟨tree, built, after, hparse, hbuilt, eq_of_beq hsize, eq_of_beq hfields,
    assembled_distinct hparse hbuilt⟩

end Clashing

/-- Where nothing is reported, the file that is assembled from a text holds one element for each
declaration, in order, and nothing else. Names of types are as they were written, but for those that
the file's own symbols answer. -/
theorem assembled_complete {text name : String} {tree : Tree.File} {built : Assembled} {log : Log}
    (hparse : Tree.File.parse text = .ok tree) (hbuilt : tree.assemble name log = .ok built log) :
    built.file.untyped = (tree.descriptor name).untyped ∧
      (built.file.isAddressable = true →
        built.file = (tree.descriptor name).answered (Mention.own? (tree.descriptor name))) := by
  obtain ⟨a, f, hwalk, hfinish, hresolved, hlog, -⟩ := Tree.File.assemble_eq_ok hbuilt
  have hwritten := Tree.File.parse_isWritten hparse
  obtain ⟨kept, _, rfl, _, hquiet⟩ := Assembly.finish_eq_descriptor hwritten hwalk hfinish
  obtain rfl := hquiet (congrArg Log.size hlog.symm)
  have hfile := congrArg Prod.fst hresolved
  dsimp only at hfile
  refine ⟨by rw [hfile, Reference.untyped_resolveAll], fun haddressable => ?_⟩
  have hf : (kept.descriptor name).isAddressable = true := by
    rw [hfile, Reference.isAddressable_resolveAll] at haddressable
    exact haddressable
  have hdescribes := Assembly.describes_of_walk hwritten hwalk hfinish
  exact hfile.trans (congrArg Prod.fst (hdescribes.resolveAll_references hf))

namespace Extended

def text : String := "message M { extensions 1 to 5; } extend M { optional int32 x = 1; }"

set_option maxRecDepth 100000 in
/-- The extension is held with the full name of the message in place of the name that was
written. -/
theorem extendee_qualified : ∃ tree built, Tree.File.parse text = .ok tree ∧
    tree.assemble "a.proto" .empty = .ok built .empty ∧
    (tree.descriptor "a.proto").extensions.map (·.extendee?) = [some "M"] ∧
    built.file.extensions.map (·.extendee?) = [some ".M"] := by
  have hrun :
      (Tree.File.assembling? text "a.proto").any (fun (tree, built, after) => after == .empty &&
      ((tree.descriptor "a.proto").extensions.map (·.extendee?) == [some "M"] &&
        built.file.extensions.map (·.extendee?) == [some ".M"])) = true :=
    Tree.File.any_assembling?_ofList (by decide +kernel)
  obtain ⟨tree, built, after, hparse, hbuilt, hrun⟩ := Tree.File.exists_of_assembling? hrun
  obtain ⟨hquiet, hextendees⟩ := Bool.and_eq_true_iff.mp hrun
  obtain ⟨hwritten, hheld⟩ := Bool.and_eq_true_iff.mp hextendees
  obtain rfl := eq_of_beq hquiet
  exact ⟨tree, built, hparse, hbuilt, eq_of_beq hwritten, eq_of_beq hheld⟩

/-- Groups in a oneof and in an extend block, a map, ranges and options. -/
def nested : String :=
  r"package p; option java_package = 'x';
  message M {
    optional int32 a = 1 [deprecated = true, json_name = 'b'];
    oneof o { option (q) = 1; group G = 2 { map<string, M> c = 1; } .p.M.G d = 3; }
    extensions 10 to 19, 30 to max [verified = true]; reserved 20 to 29, 4; reserved 'z';
    extend M {
      repeated group X = 10 { enum E { option allow_alias = true; A = 0; } optional E e = 1; }
    }
  }
  service S { rpc m (stream M) returns (Other) { option deprecated = true; } }"

set_option maxRecDepth 100000 in
theorem exists_nested : ∃ tree built, Tree.File.parse nested = .ok tree ∧
    tree.assemble "a.proto" .empty = .ok built .empty ∧ built.file.isAddressable = true ∧
    built.unresolved.map (·.name) = ["Other"] := by
  have hrun :
      (Tree.File.assembling? nested "a.proto").any (fun (_, built, after) => after == .empty &&
      (built.file.isAddressable && built.unresolved.map (·.name) == ["Other"])) = true :=
    Tree.File.any_assembling?_ofList (by decide +kernel)
  obtain ⟨tree, built, after, hparse, hbuilt, hrun⟩ := Tree.File.exists_of_assembling? hrun
  obtain ⟨hquiet, hrun⟩ := Bool.and_eq_true_iff.mp hrun
  obtain ⟨haddressable, hnames⟩ := Bool.and_eq_true_iff.mp hrun
  obtain rfl := eq_of_beq hquiet
  exact ⟨tree, built, hparse, hbuilt, haddressable, eq_of_beq hnames⟩

theorem assembled_complete_nested : ∃ tree built, Tree.File.parse nested = .ok tree ∧
    tree.assemble "a.proto" .empty = .ok built .empty ∧ built.file.isAddressable = true ∧
    built.file.untyped = (tree.descriptor "a.proto").untyped ∧
    built.file =
      (tree.descriptor "a.proto").answered (Mention.own? (tree.descriptor "a.proto")) := by
  obtain ⟨tree, built, hparse, hbuilt, haddressable, _⟩ := exists_nested
  obtain ⟨huntyped, hanswered⟩ := assembled_complete hparse hbuilt
  exact ⟨tree, built, hparse, hbuilt, haddressable, huntyped, hanswered haddressable⟩

end Extended

end ProtobufSchema
