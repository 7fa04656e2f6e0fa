import ProtobufSchema.Proofs.OneofMembership
import ProtobufSchema.Proofs.OptionTypes

/-! Where the names of a scope are distinct segments, so are the full names below it. In a file
built from a text each full name is declared once, and in files it sees only as a package. -/

namespace ProtobufSchema

open List
open Name (join dotted segments IsSegment)
open MessageDescriptor

variable {α : Type} (scope : String) (path : Path)

/-! ### Names below a scope -/

namespace Name

variable {rest : List String}

def Continues (ss : List String) (s full : String) : Prop :=
  ∃ rest, (∀ x ∈ rest, IsSegment x) ∧ full = dotted (ss ++ s :: rest)

variable {ss : List String} {s t full : String}

theorem Continues.outer (h : Continues (ss ++ [s]) t full) (ht : IsSegment t) :
    Continues ss s full := by
  obtain ⟨rest, hrest, rfl⟩ := h
  exact ⟨t :: rest, forall_mem_cons.mpr ⟨ht, hrest⟩, by simp⟩

section

variable (hss : ∀ x ∈ ss, IsSegment x)
include hss

theorem join_segment (hs : IsSegment s) :
    join (dotted ss) s = dotted (ss ++ [s]) := by
  rw [join_dotted hss, segments_of_isSegment hs]

theorem isSegment_append (hs : IsSegment s) : ∀ x ∈ ss ++ [s], IsSegment x :=
  forall_mem_append.mpr ⟨hss, forall_mem_singleton.mpr hs⟩

theorem Continues.join (hs : IsSegment s) :
    Continues ss s (join (dotted ss) s) :=
  ⟨[], forall_mem_nil _, join_segment hss hs⟩

theorem Continues.isSegment (hs : IsSegment s)
    (hrest : ∀ x ∈ rest, IsSegment x) : ∀ x ∈ ss ++ s :: rest, IsSegment x :=
  forall_mem_append.mpr ⟨hss, forall_mem_cons.mpr ⟨hs, hrest⟩⟩

end

theorem Continues.unique (h : Continues ss s full) (h' : Continues ss t full)
    (hss : ∀ x ∈ ss, IsSegment x) (hs : IsSegment s) (ht : IsSegment t) : s = t := by
  obtain ⟨rest, hrest, rfl⟩ := h
  obtain ⟨rest', hrest', heq⟩ := h'
  have hsame := dotted_injective (by simp) (by simp) (fun x hx => (isSegment hss hs hrest x hx).2)
    (fun x hx => (isSegment hss ht hrest' x hx).2) heq
  exact (cons.inj (append_cancel_left hsame)).1

theorem Continues.ne_dotted {first : List String} (h : Continues (first ++ rest) s full)
    (hss : ∀ x ∈ first ++ rest, IsSegment x) (hs : IsSegment s) : full ≠ dotted first := by
  rintro rfl
  obtain ⟨more, hmore, heq⟩ := h
  have hall := isSegment hss hs hmore
  by_cases hfirst : first = []
  · subst hfirst
    exact dotted_ne_empty (by simp) hall heq.symm
  · have hsame := dotted_injective hfirst (by simp) (fun x hx => (hss x (mem_append_left _ hx)).2)
      (fun x hx => (hall x hx).2) heq
    have hlength := congrArg length hsame
    simp only [length_append, length_cons] at hlength
    omega

end Name

/-! ### Named descriptors -/

inductive MessageDescriptor.IsNamed : MessageDescriptor → Prop
  | mk {m : MessageDescriptor} (names : ∀ s ∈ m.scopeNames, IsSegment s)
    (nested : ∀ x ∈ m.nestedTypes, IsNamed x) : IsNamed m

/-- What is declared in a file is called by segments, in a package that is a row of segments. -/
structure FileDescriptor.IsNamed (f : FileDescriptor) : Prop where
  package : ∃ ss, (∀ s ∈ ss, IsSegment s) ∧ f.package = dotted ss
  names : ∀ s ∈ f.scopeNames, IsSegment s
  messages : ∀ m ∈ f.messageTypes, m.IsNamed

namespace Tree

variable {dialect : Dialect}

theorem IsBody.isNamed {m : MessageDescriptor} {scope : String} {b : String × List Member}
    (h : IsBody dialect scope b m) (hnamed : ∀ x ∈ b.2, x.IsNamed) : m.IsNamed := by
  induction m using MessageDescriptor.induction generalizing b scope with
  | _ m ih =>
    cases h with
    | declared name ms =>
      have hshows : Shows dialect (join scope name)
          (Member.contentsFrom dialect (join scope name) 0 ms) _ _ _ :=
        Member.shows_contentsFrom 0 ms
      have hbears := Member.bears_contentsFrom dialect (join scope name) 0 ms
      refine ⟨fun s hs => ?_, fun x hx => ?_⟩
      · have hs :=
          mem_append_left
          ((Member.contentsFrom dialect (join scope name) 0 ms).services.map (·.name)) hs
        rw [Contents.scopeNames_message name, hbears.names.mem_iff, Usage.names_all,
          mem_flatMap] at hs
        obtain ⟨x, hx, hs⟩ := hs
        exact (hnamed x hx).names s hs
      · obtain ⟨c, hc, hbody⟩ := exists_of_forall₂ hshows.messages hx
        obtain ⟨y, hy, hc⟩ := mem_flatMap.mp hc
        exact ih x hx hbody ((hnamed y hy).bodies c hc)
    | entry m =>
      have hkey : IsSegment "key" := ⟨by decide, by decide⟩
      have hvalue : IsSegment "value" := ⟨by decide, by decide⟩
      exact ⟨forall_mem_cons.mpr ⟨hkey, forall_mem_singleton.mpr hvalue⟩, nofun⟩

theorem File.IsWritten.isNamed_descriptor {tree kept : File} (h : tree.IsWritten)
    (hsifts : tree.Sifts kept) (name : String) : (kept.descriptor name).IsNamed := by
  have hitems := h.sifts hsifts
  refine ⟨?_, fun s hs => ?_, fun m hm => ?_⟩
  · have hpackage : (kept.descriptor name).package = (tree.package?.map (·.name)).getD "" := by
      rw [hsifts.rest]
      rfl
    rw [hpackage]
    exact h.exists_package
  · have hs := (Assembly.scopeNames_subperm kept name).subset hs
    rw [Usage.names_all, mem_flatMap] at hs
    obtain ⟨i, hi, hs⟩ := hs
    exact (hitems i hi).names s hs
  · obtain ⟨c, hc, hbody⟩ := exists_of_forall₂ (Item.shows kept.items).messages hm
    obtain ⟨i, hi, hc⟩ := mem_flatMap.mp hc
    exact hbody.isNamed ((hitems i hi).bodies c hc)

end Tree

/-! ### Distinct full names -/

theorem Definition.map_fst_listed (tag : Tag)
    (define : Path → Definition) (name : α → String) (xs : List α) :
    (listed scope path tag define name xs).map Prod.fst = xs.map fun x => join scope (name x) := by
  simp only [listed]
  apply ext_getElem?
  simp [Function.comp_def]

namespace MessageDescriptor

variable {ms : List MessageDescriptor} (m : MessageDescriptor)

def fullNames (scope : String) (m : MessageDescriptor) : List String :=
  (m.definitions scope []).map Prod.fst

def namesUnder (scope : String) (ms : List MessageDescriptor) (others : List String) :
    List String :=
  ms.flatMap (fullNames scope) ++ others.map (join scope)

theorem map_fst_definitionsFrom {scope : String}
    (h : ∀ m ∈ ms, ∀ path, (m.definitions scope path).map Prod.fst = m.fullNames scope)
    (path : Path) (tag : Tag) (i : Nat) :
    (definitionsFrom scope path tag i ms).map Prod.fst = ms.flatMap (fullNames scope) := by
  induction ms generalizing i with
  | nil => rfl
  | cons m ms ih =>
    obtain ⟨hm, hms⟩ := forall_mem_cons.mp h
    rw [definitionsFrom, map_append, hm, ih hms, flatMap_cons]

theorem map_fst_definitions :
    (m.definitions scope path).map Prod.fst = namesUnder (join scope m.name) m.nestedTypes
        (m.enumTypes.map (·.name) ++ m.extensions.map (·.name)) ++ [join scope m.name] := by
  induction m using nesting generalizing scope path with
  | _ name? nested ih =>
    have hnested : ∀ x ∈ nested, ∀ path,
        (x.definitions (join scope (name?.getD "")) path).map Prod.fst =
        x.fullNames (join scope (name?.getD "")) := by
      intro x hx path
      rw [ih x hx, fullNames, ih x hx]
    simp only [definitions, map_append, map_fst_definitionsFrom hnested, Definition.map_fst_listed,
      namesUnder, map_map, append_assoc]
    rfl

theorem map_fst_eq_fullNames : (m.definitions scope path).map Prod.fst = m.fullNames scope := by
  rw [map_fst_definitions, fullNames, map_fst_definitions]

section Distinct

variable {ss : List String} (hss : ∀ x ∈ ss, IsSegment x)
include hss

theorem nodup_namesUnder {others : List String} (hnames : (ms.map (·.name) ++ others).Nodup)
    (hms : ∀ m ∈ ms, IsSegment m.name ∧ (m.fullNames (dotted ss)).Nodup ∧
      ∀ full ∈ m.fullNames (dotted ss), Name.Continues ss m.name full)
    (hothers : ∀ s ∈ others, IsSegment s) :
    (namesUnder (dotted ss) ms others).Nodup ∧
      ∀ full ∈ namesUnder (dotted ss) ms others, ∃ s, IsSegment s ∧ Name.Continues ss s full := by
  obtain ⟨hmessages, hnodup, hdisjoint⟩ := nodup_append'.mp hnames
  constructor
  · refine nodup_append'.mpr ⟨nodup_flatMap.mpr ⟨fun m hm => (hms m hm).2.1, ?_⟩, ?_, ?_⟩
    · refine (pairwise_map.mp hmessages).imp_of_mem fun hm hm' hne full hfull hfull' => hne ?_
      exact ((hms _ hm).2.2 full hfull).unique ((hms _ hm').2.2 full hfull') hss (hms _ hm).1
        (hms _ hm').1
    · refine hnodup.map_on fun s hs t ht heq => ?_
      have hjoin := Name.Continues.join hss (hothers t ht)
      rw [← heq] at hjoin
      exact (Name.Continues.join hss (hothers s hs)).unique hjoin hss (hothers s hs) (hothers t ht)
    · intro full hfull hfull'
      obtain ⟨m, hm, hfull⟩ := mem_flatMap.mp hfull
      obtain ⟨s, hs, rfl⟩ := mem_map.mp hfull'
      have hsame := ((hms m hm).2.2 _ hfull).unique (.join hss (hothers s hs)) hss (hms m hm).1
        (hothers s hs)
      exact hdisjoint (mem_map_of_mem hm) (hsame ▸ hs)
  · intro full hfull
    rcases mem_append.mp hfull with hfull | hfull
    · obtain ⟨m, hm, hfull⟩ := mem_flatMap.mp hfull
      exact ⟨m.name, (hms m hm).1, (hms m hm).2.2 full hfull⟩
    · obtain ⟨s, hs, rfl⟩ := mem_map.mp hfull
      exact ⟨s, hothers s hs, .join hss (hothers s hs)⟩

omit hss in
theorem sublist_scopeNames (es : List EnumDescriptor) :
    (es.map (·.name)).Sublist (es.flatMap (·.scopeNames)) := by
  induction es with
  | nil => exact .refl _
  | cons e es ih => exact (ih.trans (sublist_append_right _ _)).cons_cons _

theorem nodup_fullNames {m : MessageDescriptor} (hname : IsSegment m.name)
    (hdistinct : m.IsDistinct) (hnamed : m.IsNamed) :
    IsSegment m.name ∧ (m.fullNames (dotted ss)).Nodup ∧
      ∀ full ∈ m.fullNames (dotted ss), Name.Continues ss m.name full := by
  induction m using induction generalizing ss with
  | _ m ih =>
    obtain ⟨hscope, _, hnested⟩ := hdistinct
    obtain ⟨hsegments, hnestedNamed⟩ := hnamed
    have hinner := Name.isSegment_append hss hname
    have hfull := Name.join_segment hss hname
    have hsub : (m.nestedTypes.map (·.name) ++
        (m.enumTypes.map (·.name) ++ m.extensions.map (·.name))).Subperm m.scopeNames := by
      refine subperm_ext_iff.mpr fun x _ => ?_
      have henum := (sublist_scopeNames m.enumTypes).count_le x
      simp only [scopeNames, count_append]
      omega
    obtain ⟨hnames, hothers⟩ := forall_mem_append.mp fun s hs => hsegments s (hsub.subset hs)
    obtain ⟨hunder, hcontinues⟩ := nodup_namesUnder hinner (nodup_of_subperm hsub hscope)
      (fun x hx => ih x hx hinner (hnames _ (mem_map_of_mem hx)) (hnested x hx) (hnestedNamed x hx))
      hothers
    rw [fullNames, map_fst_definitions, hfull]
    refine ⟨hname, nodup_append'.mpr ⟨hunder, nodup_singleton _, ?_⟩, ?_⟩
    · intro full hmem hself
      obtain ⟨s, hs, hcontinue⟩ := hcontinues full hmem
      rw [← append_nil (ss ++ [m.name])] at hcontinue
      exact hcontinue.ne_dotted (by simpa using hinner) hs (mem_singleton.mp hself)
    · refine forall_mem_append.mpr ⟨fun full hmem => ?_, forall_mem_singleton.mpr ?_⟩
      · obtain ⟨s, hs, hcontinue⟩ := hcontinues full hmem
        exact hcontinue.outer hs
      · exact ⟨[], forall_mem_nil _, rfl⟩

end Distinct

end MessageDescriptor

theorem FileDescriptor.nodup_packagePrefixes {before ss : List String}
    (hbefore : ∀ x ∈ before, IsSegment x) (hss : ∀ x ∈ ss, IsSegment x) :
    (packagePrefixes (dotted before) ss).Nodup ∧
      ∀ full ∈ packagePrefixes (dotted before) ss, ∃ s, IsSegment s ∧
      Name.Continues before s full := by
  induction ss generalizing before with
  | nil => exact ⟨.nil, forall_mem_nil _⟩
  | cons s ss ih =>
    obtain ⟨hs, hss⟩ := forall_mem_cons.mp hss
    have hinner := Name.isSegment_append hbefore hs
    obtain ⟨hnodup, hcontinues⟩ := ih hinner hss
    rw [packagePrefixes, Name.join_segment hbefore hs]
    refine ⟨nodup_cons.mpr ⟨fun hmem => ?_, hnodup⟩, forall_mem_cons.mpr ⟨?_, fun full hmem => ?_⟩⟩
    · obtain ⟨t, ht, hcontinue⟩ := hcontinues _ hmem
      rw [← append_nil (before ++ [s])] at hcontinue
      exact hcontinue.ne_dotted (by simpa using hinner) ht (by simp)
    · exact ⟨s, hs, [], forall_mem_nil _, rfl⟩
    · obtain ⟨t, ht, hcontinue⟩ := hcontinues full hmem
      exact ⟨s, hs, hcontinue.outer ht⟩

/-- Each full name is declared once in a file whose scopes have distinct segments for names. -/
theorem FileDescriptor.nodup_definitions {f : FileDescriptor} (hdistinct : f.IsDistinct)
    (hnamed : f.IsNamed) : (f.definitions.map Prod.fst).Nodup := by
  obtain ⟨ss, hss, hpackage⟩ := hnamed.package
  have hsegments : (segments f.package).filter (· ≠ "") = ss := by
    rw [hpackage, Name.filter_segments_dotted hss]
  have hsub :
      (f.messageTypes.map (·.name) ++ (f.enumTypes.map (·.name) ++ (f.services.map (·.name) ++
      f.extensions.map (·.name)))).Subperm f.scopeNames := by
    refine subperm_ext_iff.mpr fun x _ => ?_
    have henum := (sublist_scopeNames f.enumTypes).count_le x
    simp only [scopeNames, count_append]
    omega
  obtain ⟨hnames, hothers⟩ := forall_mem_append.mp fun s hs => hnamed.names s (hsub.subset hs)
  obtain ⟨hunder, hcontinues⟩ := nodup_namesUnder hss (nodup_of_subperm hsub hdistinct.names)
    (fun m hm => nodup_fullNames hss (hnames _ (mem_map_of_mem hm)) (hdistinct.messages m hm)
      (hnamed.messages m hm)) hothers
  have hkeys : f.definitions.map Prod.fst = packagePrefixes (dotted []) ss ++
      namesUnder (dotted ss) f.messageTypes (f.enumTypes.map (·.name) ++
        (f.services.map (·.name) ++ f.extensions.map (·.name))) := by
    simp only [definitions, map_append,
      map_fst_definitionsFrom fun m _ path => m.map_fst_eq_fullNames f.package path,
      Definition.map_fst_listed, hsegments, namesUnder, ← hpackage, map_map,
      Function.comp_def, append_assoc, map_id']
    rfl
  rw [hkeys]
  have hprefixes := nodup_packagePrefixes (forall_mem_nil _) hss
  refine nodup_append'.mpr ⟨hprefixes.1, hunder, fun full hfull hfull' => ?_⟩
  obtain ⟨s, hs, hcontinue⟩ := hcontinues full hfull'
  obtain ⟨first, rest, rfl, rfl⟩ := exists_of_mem_packagePrefixes hss (forall_mem_nil _) hfull
  exact hcontinue.ne_dotted hss hs rfl

/-! ### What is declared in a file -/

/-- What is declared in a message that stands at a path of a file, and in the messages inside it:
under which full name, and where. -/
inductive MessageDescriptor.Declares : MessageDescriptor → String → Path → String → Definition →
  Element → Prop
  | self (m : MessageDescriptor) (scope : String) (path : Path) :
    Declares m scope path (join scope m.name) (.message path) (.message m)
  | nested {m x : MessageDescriptor} {scope full : String} {path : Path} {i : Int32}
    {d : Definition} {y : Element} (hx : Path.at? m.nestedTypes i = some x)
    (hy : Declares x (join scope m.name) (path ++ [Tag.messageNested.step, i]) full d y) :
    Declares m scope path full d y
  | enum {m : MessageDescriptor} {scope : String} {path : Path} {i : Int32} {e : EnumDescriptor}
    (he : Path.at? m.enumTypes i = some e) :
    Declares m scope path (join (join scope m.name) e.name)
      (.enum (path ++ [Tag.messageEnum.step, i])) (.enum e)
  | extension {m : MessageDescriptor} {scope : String} {path : Path} {i : Int32}
    {x : FieldDescriptor} (hx : Path.at? m.extensions i = some x) :
    Declares m scope path (join (join scope m.name) x.name)
      (.extension (path ++ [Tag.messageExtension.step, i])) (.field x)

/-- What is declared anywhere in a file: under which full name, and where. -/
inductive FileDescriptor.Declares (f : FileDescriptor) : String → Definition → Element → Prop
  | message {full : String} {i : Int32} {m : MessageDescriptor} {d : Definition} {y : Element}
    (hm : Path.at? f.messageTypes i = some m)
    (hy : m.Declares f.package [Tag.fileMessage.step, i] full d y) : Declares f full d y
  | enum {i : Int32} {e : EnumDescriptor} (he : Path.at? f.enumTypes i = some e) :
    Declares f (join f.package e.name) (.enum [Tag.fileEnum.step, i]) (.enum e)
  | service {i : Int32} {s : ServiceDescriptor} (hs : Path.at? f.services i = some s) :
    Declares f (join f.package s.name) (.service [Tag.fileService.step, i]) (.service s)
  | extension {i : Int32} {x : FieldDescriptor} (hx : Path.at? f.extensions i = some x) :
    Declares f (join f.package x.name) (.extension [Tag.fileExtension.step, i]) (.field x)

theorem Definition.mem_listed_of_at? {scope : String} {path : Path} {tag : Tag}
    {define : Path → Definition} {name : α → String} {xs : List α} {i : Int32} {x : α}
    (h : Path.at? xs i = some x) :
    (join scope (name x), define (path ++ [tag.step, i])) ∈
      listed scope path tag define name xs := by
  obtain ⟨j, hj, rfl⟩ := Path.getElem?_of_at? h
  exact mem_listed.mpr ⟨j, x, hj, rfl⟩

namespace MessageDescriptor

variable {m : MessageDescriptor} {scope full : String} {path : Path} {d : Definition} {x : Element}

theorem Declares.mem_definitions (h : m.Declares scope path full d x) :
    (full, d) ∈ m.definitions scope path := by
  induction h with
  | self m => exact MessageDescriptor.mem_definitions.mpr (.inr (.inr (.inr rfl)))
  | nested hx _ ih =>
    obtain ⟨j, hj, rfl⟩ := Path.getElem?_of_at? hx
    exact MessageDescriptor.mem_definitions.mpr (.inl ⟨j, _, hj, ih⟩)
  | enum he =>
    exact MessageDescriptor.mem_definitions.mpr (.inr (.inl (Definition.mem_listed_of_at? he)))
  | extension hx =>
    exact MessageDescriptor.mem_definitions.mpr
      (.inr (.inr (.inl (Definition.mem_listed_of_at? hx))))

theorem Declares.found (h : m.Declares scope path full d x) : ∃ rest y, m.nestedAt? rest = some y ∧
    (d = .message (path ++ rest) ∧ x = .message y ∨
      (∃ i e, Path.at? y.enumTypes i = some e ∧
        d = .enum (path ++ rest ++ [Tag.messageEnum.step, i]) ∧
        x = .enum e) ∨
      ∃ i e, Path.at? y.extensions i = some e ∧
        d = .extension (path ++ rest ++ [Tag.messageExtension.step, i]) ∧ x = .field e) := by
  induction h with
  | self m => exact ⟨[], m, rfl, .inl ⟨by simp, rfl⟩⟩
  | @nested m x scope _ path i _ _ hx _ ih =>
    obtain ⟨rest, y, hy, hcases⟩ := ih
    refine ⟨Tag.messageNested.step :: i :: rest, y, ?_, ?_⟩
    · rw [nestedAt?, hx]
      exact hy
    · simpa using hcases
  | @enum m _ _ i e he => exact ⟨[], m, rfl, .inr (.inl ⟨i, e, he, by simp, rfl⟩)⟩
  | @extension m _ _ i e hx => exact ⟨[], m, rfl, .inr (.inr ⟨i, e, hx, by simp, rfl⟩)⟩

end MessageDescriptor

namespace FileDescriptor

variable {f : FileDescriptor} {full : String} {d : Definition} {x : Element}

theorem Declares.mem_definitions (h : f.Declares full d x) : (full, d) ∈ f.definitions := by
  simp only [definitions, mem_append]
  cases h with
  | message hm hy =>
    obtain ⟨j, hj, rfl⟩ := Path.getElem?_of_at? hm
    refine .inl (.inl (.inl (.inr (mem_definitionsFrom.mpr ⟨j, _, hj, ?_⟩))))
    rw [zero_add]
    exact hy.mem_definitions
  | enum he => exact .inl (.inl (.inr (Definition.mem_listed_of_at? he)))
  | service hs => exact .inl (.inr (Definition.mem_listed_of_at? hs))
  | extension hx => exact .inr (Definition.mem_listed_of_at? hx)

theorem Declares.ne_package (h : f.Declares full d x) : d ≠ .package := by
  cases h with
  | message _ hy => exact MessageDescriptor.ne_package _ _ _ _ hy.mem_definitions
  | _ => simp

def FindsAt (f : FileDescriptor) (d : Definition) : Element → Prop
  | .message m => f.messageOf? d = some m
  | .enum e => f.enumOf? d = some e
  | .field x => f.extensionOf? d = some x
  | _ => True

theorem Declares.findsAt (h : f.Declares full d x) : f.FindsAt d x := by
  cases h with
  | @message _ i m _ _ hm hy =>
    obtain ⟨rest, y, hrest, hcases⟩ := hy.found
    have hreach : f.messageAt? ([Tag.fileMessage.step, i] ++ rest) = some y := by
      rw [cons_append, cons_append, messageAt?, hm]
      exact hrest
    have hne : [Tag.fileMessage.step, i] ++ rest ≠ [] := by simp
    rcases hcases with ⟨rfl, rfl⟩ | ⟨j, e, he, rfl, rfl⟩ | ⟨j, e, he, rfl, rfl⟩
    · exact hreach
    · rw [FindsAt, enumOf?, enumAt?, splitLast?_append, Option.bind_some]
      dsimp only
      rw [if_neg hne, if_pos rfl, hreach, Option.bind_some, he]
    · have hother : Tag.messageExtension.step ≠ Tag.messageField.step := by decide
      rw [FindsAt, extensionOf?, fieldAt?, splitLast?_append, Option.bind_some]
      dsimp only
      rw [if_neg hne, hreach, Option.bind_some, MessageDescriptor.own?, if_neg hother, if_pos rfl,
        he]
  | @enum i e he =>
    rw [FindsAt, enumOf?, enumAt?, ← nil_append [Tag.fileEnum.step, i], splitLast?_append,
      Option.bind_some]
    dsimp only
    rw [if_pos rfl, if_pos rfl, he]
  | service hs => trivial
  | @extension i x hx =>
    rw [FindsAt, extensionOf?, fieldAt?, ← nil_append [Tag.fileExtension.step, i],
      splitLast?_append, Option.bind_some]
    dsimp only
    rw [if_pos rfl, if_pos rfl, hx]

end FileDescriptor

def TypeLookup.Finds (t : TypeLookup) (full : String) : Element → Prop
  | .message m => t.message? full = some m
  | .enum e => t.enum? full = some e
  | .field x => t.extension? full = some x
  | _ => True

set_option maxRecDepth 100000 in
theorem MetaSchema.nodup_definitions : (proto.definitions.map Prod.fst).Nodup := by
  decide +kernel

/-! ### Files that are built from texts -/

namespace Compiler

variable {c : Compiler} (hc : c.IsAccepted) (hsources : ∀ x ∈ c.inputs, ∃ text, x.2 = .source text)
  {name : String} {l : LinkedFile}
include hc hsources

variable {d : Definition} {full : String}

theorem Builds.nodup_definitions (h : c.Builds name l) : l.index = .ofFile l.proto ∧
    (l.proto.definitions.map Prod.fst).Nodup := by
  rcases h.linked with ⟨rfl, _⟩ | ⟨f, q, dependencies, _, _, hfinish, input, hinput, hassembled, _⟩
  · exact ⟨by rw [MetaSchema.file, LinkedFile.link], MetaSchema.nodup_definitions⟩
  · obtain ⟨text, rfl⟩ := hsources _ ((mem_inputs_iff hc).mp hinput)
    obtain ⟨hindex, hdefinitions⟩ := Finishes.definitions hfinish
    obtain ⟨tree, built, log, hparse, hbuilt, rfl⟩ := SchemaInput.assembled?_eq_some hassembled
    obtain ⟨a, f, hwalk, hclosed, hresolved, _⟩ := Tree.File.assemble_eq_ok hbuilt
    have hwritten := Tree.File.parse_isWritten hparse
    obtain ⟨kept, hsifts, rfl, hdistinct, _⟩ := Assembly.finish_eq_descriptor hwritten hwalk hclosed
    have hfile : built.file.definitions = (kept.descriptor name).definitions :=
      (congrArg (·.1.definitions) hresolved).trans (Reference.definitions_resolveAll _ _ _)
    refine ⟨hindex, ?_⟩
    rw [hdefinitions, hfile]
    exact FileDescriptor.nodup_definitions hdistinct (hwritten.isNamed_descriptor hsifts name)

theorem Builds.get?_eq_some (h : c.Builds name l)
    (hd : (full, d) ∈ l.proto.definitions) : l.index.get? full = some d := by
  obtain ⟨hindex, hnodup⟩ := h.nodup_definitions hc hsources
  rw [hindex, SymbolIndex.get?_ofFile]
  exact (lookup_eq_some_iff_mem hnodup).mpr hd

omit hc hsources in
theorem Finishes.eq_package {f : PendingFile} {dependencies : List LinkedFile}
    (h : c.Finishes name f dependencies (some l) []) {d' : Definition}
    (hd : l.index.get? full = some d) (hne : d ≠ .package) {g : LinkedFile}
    (hg : g ∈ LinkedFile.visible dependencies) (hd' : g.index.get? full = some d') :
    d' = .package := by
  obtain ⟨_, q, _, _, hduplicates, _, rfl⟩ := some_iff.mp h
  have hentry : (full, d) ∈ (SymbolIndex.ofFile q).entries := by
    obtain ⟨before, after, heq, _⟩ := List.lookup_eq_some_iff.mp hd
    have hentries : (SymbolIndex.ofFile q).entries = before ++ (full, d) :: after := heq
    simp [hentries]
  have hnone := filterMap_eq_nil_iff.mp hduplicates _ hentry
  dsimp only at hnone
  rw [if_neg hne, Option.map_eq_none_iff, find?_eq_none] at hnone
  simpa [hd'] using hnone g hg

end Compiler

/-- In a file that is built from a text, each message, enum, service and extension is what its full
name denotes, and no file that it sees declares this name as anything but a package. -/
theorem own_symbols_unambiguous {c : Compiler} (hc : c.IsAccepted)
    (hsources : ∀ x ∈ c.inputs, ∃ text, x.2 = .source text) {set : FileSet} {before after : Log}
    (h : c.build before = .ok set after) {name : String} {l : LinkedFile}
    (hl : (name, l) ∈ set.files) (hname : name ≠ metaSchemaFile) {full : String} {d : Definition}
    {x : Element} (hx : l.proto.Declares full d x) :
    l.index.get? full = some d ∧ (Pool.ofFile l).lookup? full = some (l.proto, d) ∧
    (Pool.ofFile l).types.Finds full x ∧
    ∀ g ∈ LinkedFile.visible l.dependencies, ∀ d', (full, d') ∈ g.proto.definitions →
    d' = .package := by
  have hbuilds := Compiler.builds_of_build hc h hl
  have hget := hbuilds.get?_eq_some hc hsources hx.mem_definitions
  have hlookup : (Pool.ofFile l).lookup? full = some (l.proto, d) := by
    simp only [Pool.lookup?, Pool.ofFile, Pool.ofDependencies, hget]
  refine ⟨hget, hlookup, ?_, ?_⟩
  · have hfinds := hx.findsAt
    cases x with
    | message | enum | field =>
      simp only [TypeLookup.Finds, Pool.types, hlookup, Option.bind_some]
      exact hfinds
    | _ => trivial
  · intro g hg d' hd'
    rcases hbuilds.linked with ⟨_, heq⟩ | ⟨f, q, dependencies, _, hlink, hfinish, _⟩
    · exact absurd heq hname
    · have hreaches := (LinkedFile.sees_of_mem_visible hg).reaches
      have hother : g.index.get? full = some d' := by
        rcases hbuilds.reaches hreaches with rfl | ⟨y, hy⟩
        · rw [MetaSchema.file, LinkedFile.link, SymbolIndex.get?_ofFile]
          exact (lookup_eq_some_iff_mem MetaSchema.nodup_definitions).mpr hd'
        · exact hy.get?_eq_some hc hsources hd'
      have hdependencies : l.dependencies = dependencies := by rw [hlink, LinkedFile.link]
      rw [hdependencies] at hg
      exact hfinish.eq_package hget hx.ne_package hg hother

namespace Overlapping

/-- A message that is called like a package of the imported file, with an extension inside another
one. -/
def compiler : Compiler := .ofTexts {} [
  ("dep.proto", "package M.d; message T {}"),
  ("main.proto", r#"import "dep.proto"; message M { extensions 1 to 9; "# ++
    r"message N { extend M { optional d.T x = 1; } } }")]

set_option maxRecDepth 100000 in
theorem own_symbols_unambiguous_overlapping :
    ∃ set after l x, compiler.build .empty = .ok set after ∧
    ("main.proto", l) ∈ set.files ∧
    l.proto.Declares "M.N.x" (.extension [4, 0, 3, 0, 6, 0]) (.field x) ∧
    (Pool.ofFile l).types.extension? "M.N.x" = some x ∧
    l.index.get? "M" = some (.message [4, 0]) ∧
    ∃ g ∈ LinkedFile.visible l.dependencies, ("M", .package) ∈ g.proto.definitions := by
  have hcheck : (compiler.returned? "main.proto").any (fun l => l.proto.package == "" &&
      ((LinkedFile.visible l.dependencies).any
      fun g => g.proto.definitions.contains ("M", .package)) &&
      (Path.at? l.proto.messageTypes 0).any fun m => m.name == "M" &&
        (Path.at? m.nestedTypes 0).any fun n => n.name == "N" &&
          (Path.at? n.extensions 0).any fun x => x.name == "x") = true := by
    decide +kernel
  obtain ⟨l, hl, hcheck⟩ := (Option.any_eq_true _ _).mp hcheck
  obtain ⟨hcheck, hmessage⟩ := Bool.and_eq_true_iff.mp hcheck
  obtain ⟨hpackage, hseen⟩ := Bool.and_eq_true_iff.mp hcheck
  obtain ⟨m, hm, hmessage⟩ := (Option.any_eq_true _ _).mp hmessage
  obtain ⟨hmname, hnested⟩ := Bool.and_eq_true_iff.mp hmessage
  obtain ⟨n, hn, hnested⟩ := (Option.any_eq_true _ _).mp hnested
  obtain ⟨hnname, hextension⟩ := Bool.and_eq_true_iff.mp hnested
  obtain ⟨x, hx, hxname⟩ := (Option.any_eq_true _ _).mp hextension
  obtain ⟨g, hg, hdeclares⟩ := any_eq_true.mp hseen
  obtain ⟨set, after, hbuild, hmem⟩ := Compiler.mem_of_returned? hl
  have houter := FileDescriptor.Declares.message hm (.self m _ _)
  have hinner := FileDescriptor.Declares.message hm (.nested hn (.extension hx))
  rw [eq_of_beq hpackage, eq_of_beq hmname] at houter hinner
  rw [eq_of_beq hnname, eq_of_beq hxname] at hinner
  have hsources : ∀ x ∈ compiler.inputs, ∃ text, x.2 = .source text := by
    simp [compiler, Compiler.ofTexts]
  have hc : compiler.IsAccepted := Compiler.isAccepted_ofTexts {} (by decide)
  obtain ⟨_, _, hfinds, _⟩ := own_symbols_unambiguous hc hsources hbuild hmem (by decide) hinner
  obtain ⟨hget, _⟩ := own_symbols_unambiguous hc hsources hbuild hmem (by decide) houter
  exact ⟨set, after, l, x, hbuild, hmem, hinner, hfinds, hget, g, hg, contains_iff_mem.mp hdeclares⟩

end Overlapping

end ProtobufSchema
