import ProtobufSchema.Proofs.FollowedScopes

/-! The walk through a file, followed by induction over its tree: what is kept of the declarations
is entered in the descriptor of the file, and all of them are kept if nothing is reported. -/

namespace ProtobufSchema

open Name (join IsSegment)
open ScopeStack (Place)
open Contents

namespace Assembly

open ProtobufSchema.Tree

variable {α β : Type}

/-! ### Walks -/

section Walks

variable {dialect : Dialect}
variable (d : Dialect) (scope : String) (n : Nat)

theorem contentsFrom_append (xs ys : List Member) :
    Member.contentsFrom d scope n (xs ++ ys) = Member.contentsFrom d scope n xs ++
      Member.contentsFrom d scope (n + (Member.contentsFrom d scope n xs).oneofs.length) ys := by
  induction xs generalizing n with
  | nil => exact (empty_append _).symm
  | cons x xs ih =>
    rw [List.cons_append, Member.contentsFrom, Member.contentsFrom, ih, append_assoc]
    simp [append_def, add_assoc]

theorem contentsFrom_map {f : α → Member} {g : α → Contents}
    (hf : ∀ x n, (f x).contents d scope n = g x) (xs : List α) (n : Nat) :
    Member.contentsFrom d scope n (xs.map f) = all g xs := by
  induction xs generalizing n with
  | nil => rfl
  | cons x xs ih => rw [List.map_cons, Member.contentsFrom, ih, hf, all]

theorem contentsOf_eq_all (block? : Option Block) (fs : List FieldMember) :
    FieldMember.contentsOf d scope block? fs = all (FieldMember.contents d scope block?) fs := by
  induction fs with
  | nil => rfl
  | cons f fs ih => rw [FieldMember.contentsOf, all, ih]

theorem Usage.all_map (usage : β → Usage) (f : α → β) (xs : List α) :
    Usage.all usage (xs.map f) = .all (fun x => usage (f x)) xs := by
  induction xs with
  | nil => rfl
  | cons x xs ih => rw [List.map_cons, Usage.all, Usage.all, ih]

theorem Usage.all_empty (xs : List α) : Usage.all (fun _ => {}) xs = {} := by
  induction xs with
  | nil => rfl
  | cons x xs ih => rw [Usage.all, ih, Usage.append_empty]

theorem contentsOf_oneofFields (ks : List FieldMember) (kept : List OneofMember) :
    OneofMember.contentsOf d scope n (ks.map .field ++ kept) =
      FieldMember.contentsOf d scope (some (.oneof n)) ks ++
        OneofMember.contentsOf d scope n kept := by
  induction ks with
  | nil => exact (empty_append _).symm
  | cons k ks ih =>
    rw [List.map_cons, List.cons_append, OneofMember.contentsOf, FieldMember.contentsOf, ih,
      append_assoc]

theorem contentsOf_oneofOptions (ks : List Assignment) (kept : List OneofMember) :
    OneofMember.contentsOf d scope n (ks.map .option ++ kept) =
      OneofMember.contentsOf d scope n kept := by
  induction ks with
  | nil => rfl
  | cons k ks ih => rw [List.map_cons, List.cons_append, OneofMember.contentsOf, ih]

theorem flatMap_raws_options (ks : List Assignment) :
    (ks.map .option).flatMap OneofMember.raws = waiting ks := by
  induction ks with
  | nil => rfl
  | cons k ks ih =>
    rw [List.map_cons, List.flatMap_cons, ih, OneofMember.raws, ← waiting_append,
      List.singleton_append]

mutual

theorem walkFieldMember_follows {context : FieldContext} {place : FieldPlace} {p : Place}
    {e : Element} {u : Usage} {a a' : Assembly} {r : Unit} (hfits : context.Fits p.block?)
    (hcontainer : e.head.isContainer = true) (h : a.Works p e u) :
    ∀ {f : FieldMember}, f.IsWritten dialect place → walkFieldMember context f a = .ok r a' →
      Follows p e u a [f] (FieldMember.Sifts (p.block?.any Block.isExtend) u f)
        (FieldMember.contentsOf a.dialect a.here p.block?)
          (FieldMember.usage (p.block?.any Block.isExtend)) a'
  | .field f, hwritten, hrun => by
    rw [walkFieldMember] at hrun
    cases hwritten with
    | field _ _ hf => exact walkField_follows hf.name.segment hfits h hrun
  | .group ⟨label?, name, number, options, members, span, comment?⟩, hwritten, hrun => by
    rw [walkFieldMember] at hrun
    cases hwritten with
    | group _ _ hname hupper _ _ hmembers =>
      exact groupWith_follows hname.segment hupper (walkMembers_follow hmembers) hfits
        hcontainer h hrun

theorem walkFieldMembers_follow {context : FieldContext} {place : FieldPlace} {p : Place}
    {e : Element} {u : Usage} {a a' : Assembly} {r : Unit} (hfits : context.Fits p.block?)
    (hcontainer : e.head.isContainer = true) (h : a.Works p e u) :
    ∀ {fs : List FieldMember}, (∀ f ∈ fs, f.IsWritten dialect place) →
      walkFieldMembers context fs a = .ok r a' →
      Follows p e u a fs
        (SiftsAll (FieldMember.Sifts (p.block?.any Block.isExtend))
          (FieldMember.usage (p.block?.any Block.isExtend))
          u fs)
        (FieldMember.contentsOf a.dialect a.here p.block?)
          (FieldMember.usage (p.block?.any Block.isExtend)) a'
  | [], _, hrun => by
    rw [walkFieldMembers] at hrun
    cases hrun
    exact .nil h rfl
  | f :: fs, hwritten, hrun => by
    rw [walkFieldMembers] at hrun
    obtain ⟨hf, hfs⟩ := List.forall_mem_cons.mp hwritten
    obtain ⟨_, a₁, hfirst, hrest⟩ := bind_ok hrun
    refine (walkFieldMember_follows hfits hcontainer h hf hfirst).cons
      (fun _ => FieldMember.contentsOf a.dialect a.here p.block?) (fun ks henters => ?_)
      fun ks kept => ?_
    · have hmore :=
        walkFieldMembers_follow hfits (Element.head_having _ e ▸ hcontainer) henters.after hfs hrest
      rw [henters.advances.dialect, henters.advances.here] at hmore
      exact hmore
    · rw [contentsOf_eq_all, contentsOf_eq_all, contentsOf_eq_all, all_append]

theorem walkOneofMembers_follow : ∀ {ms : List OneofMember},
    (∀ f, .field f ∈ ms → f.IsWritten dialect .oneof) → OneofFollows ms
  | [], _ => by
    intro p m name raws c u seen a a' r hp hc h hrun
    rw [walkOneofMembers] at hrun
    cases hrun
    refine ⟨[], .nil u, ?_, (Alike.refl a).advances, ?_, fun _ => rfl⟩
    all_goals rw [List.flatMap_nil, List.append_nil, OneofMember.contentsOf, append_empty]
    · exact (Usage.append_empty u).symm ▸ h
    · exact .of_like h.sound (.refl _)
  | .field f :: ms, hwritten => by
    intro p m name raws c u seen a a' r hp hc h hrun
    rw [walkOneofMembers] at hrun
    obtain ⟨_, a₁, hfirst, hrest⟩ := bind_ok hrun
    have hfits : FieldContext.oneof.Fits p.block? := hp ▸ .oneof _
    have hfollows := walkFieldMember_follows hfits rfl h (hwritten f List.mem_cons_self) hfirst
    rw [hp] at hfollows
    obtain ⟨ks, hks, henters, hquiet⟩ := hfollows
    have hworks := henters.after
    have hbrings := henters.brings
    rw [Element.having, MessageDescriptor.having_append, append_assoc] at hworks hbrings
    have hnone :
        (c ++ FieldMember.contentsOf a.dialect a.here (some (.oneof m.oneofs.length)) ks).oneofs =
        [] := by
      simp [append_def, hc, (FieldMember.contentsOf_plain _ _ _ _).1]
    obtain ⟨kept, hkept, hworks', hadvances, hbrings', hquiet'⟩ :=
      walkOneofMembers_follow (fun f hf => hwritten f (List.mem_cons_of_mem _ hf)) hp hnone
        hworks hrest
    have husage : Usage.all OneofMember.usage (ks.map .field) =
        Usage.all (FieldMember.usage false) ks :=
      Usage.all_map _ _ ks
    rw [henters.advances.dialect, henters.advances.here, append_assoc, ← contentsOf_oneofFields]
      at hworks' hbrings'
    have hraws : (ks.map OneofMember.field).flatMap OneofMember.raws = [] := by
      simp [List.flatMap_map, OneofMember.raws]
    refine ⟨ks.map .field ++ kept, .cons (.field hks) (husage ▸ hkept), ?_,
      henters.advances.trans hadvances, ?_, ?_⟩
    · rw [List.flatMap_append, hraws, List.nil_append, Usage.all_append, husage,
        ← Usage.append_assoc]
      exact hworks'
    · rw [List.flatMap_append, hraws, List.nil_append]
      exact hbrings.trans hbrings'
    · intro hlog
      have hle := henters.advances.log
      have hle' := hadvances.log
      rw [hquiet (by omega), hquiet' (by omega)]
      rfl
  | .option x :: ms, hwritten => by
    intro p m name raws c u seen a a' r hp hc h hrun
    rw [walkOneofMembers] at hrun
    obtain ⟨seen', a₁, hfirst, hrest⟩ := bind_ok hrun
    obtain ⟨hworks, ha, _, hquiet⟩ := h.addOption hfirst
    have hlike := Element.like_noting p.block? (waiting (unrepeated seen [x]))
      (.message (m.having ({ oneofs := [oneofOf name raws] } ++ c)))
    rw [hp, Element.noting, awaitingAt_having hc] at hworks hlike
    obtain ⟨kept, hkept, hworks', hadvances, hbrings, hquiet'⟩ :=
      walkOneofMembers_follow (fun f hf => hwritten f (List.mem_cons_of_mem _ hf)) hp hc
        hworks hrest
    rw [ha.dialect, ha.here_eq] at hworks' hbrings
    rw [ha.ledger] at hbrings
    have husage : Usage.all OneofMember.usage ((unrepeated seen [x]).map .option) = {} := by
      rw [Usage.all_map]
      exact Usage.all_empty _
    refine ⟨(unrepeated seen [x]).map .option ++ kept,
      .cons (.option (unrepeated_sublist seen [x])) ?_, ?_, ha.advances.trans hadvances, ?_, ?_⟩
    · rw [husage, Usage.append_empty]
      exact hkept
    · rw [List.flatMap_append, flatMap_raws_options, contentsOf_oneofOptions, Usage.all_append,
        husage, Usage.empty_append, ← List.append_assoc]
      exact hworks'
    · rw [List.flatMap_append, flatMap_raws_options, contentsOf_oneofOptions, ← List.append_assoc]
      exact (Ledger.Brings.of_like h.sound hlike).trans hbrings
    · intro hlog
      have hle := ha.log
      have hle' := hadvances.log
      rw [hquiet (by omega), hquiet' (by omega)]
      rfl

theorem walkExtend_follows {p : Place} {e : Element} {u : Usage} {a a' : Assembly} {r : Unit}
    (hcontainer : e.head.isContainer = true) (h : a.Works p e u) :
    ∀ {x : Extend}, (∀ f ∈ x.fields, f.IsWritten dialect .extend) → walkExtend x a = .ok r a' →
      Follows p e u a [x] (Extend.Sifts u x) (all (Extend.contents a.dialect a.here))
        Extend.usage a'
  | ⟨extendee, fields, span⟩, hwritten, hrun => by
    rw [walkExtend] at hrun
    refine extendWith_follows (fun inner a a' r hinner hworks hfields => ?_) h hrun
    have hfits : (FieldContext.extend extendee).Fits inner.block? := hinner ▸ .extend extendee
    have hfollows := walkFieldMembers_follow hfits hcontainer hworks hwritten hfields
    rw [hinner] at hfollows
    exact hfollows

theorem walkMessage_follows {p : Place} {e : Element} {u : Usage} {a a' : Assembly} {r : Unit}
    (hcontainer : e.head.isContainer = true) (h : a.Works p e u) :
    ∀ {m : Tree.Message}, IsSegment m.name → (∀ x ∈ m.members, x.IsWritten dialect) →
      walkMessage m a = .ok r a' →
      Follows p e u a [m] (Message.Sifts u m)
        (all fun m => { messages := [m.descriptor a.dialect a.here] }) Message.usage a'
  | ⟨name, members, span, comment?⟩, hname, hwritten, hrun => by
    rw [walkMessage] at hrun
    exact messageWith_follows hname (walkMembers_follow hwritten) hcontainer h hrun

theorem walkMember_follows {p : Place} {m : MessageDescriptor} {u : Usage} {a a' : Assembly}
    {r : Unit} (hp : p.block? = none) (h : a.Works p (.message m) u) :
    ∀ {x : Member}, x.IsWritten dialect → walkMember x a = .ok r a' →
      Follows p (.message m) u a [x] (Member.Sifts u x)
        (Member.contentsFrom a.dialect a.here m.oneofs.length) Member.usage a'
  | .field f, hwritten, hrun => by
    rw [walkMember] at hrun
    cases hwritten with
    | field hf =>
      have hfollows := walkFieldMember_follows (hp ▸ .message) rfl h hf hrun
      rw [hp] at hfollows
      refine hfollows.image (List.map .field) (fun ks hks => .field hks) (fun ks => ?_)
        (fun ks => Usage.all_map _ _ ks) rfl
      rw [contentsOf_eq_all]
      exact contentsFrom_map _ _ (fun f n => by rw [Member.contents]) ks _
  | .map x, hwritten, hrun => by
    rw [walkMember] at hrun
    cases hwritten with
    | map hx => exact walkMap_follows _ hx.name.segment hx.isMapKey hp rfl h hrun
  | .oneof ⟨name, members, span⟩, hwritten, hrun => by
    rw [walkMember] at hrun
    cases hwritten with
    | oneof _ hfields _ => exact oneofWith_follows (walkOneofMembers_follow hfields) h hrun
  | .message x, hwritten, hrun => by
    rw [walkMember] at hrun
    cases hwritten with
    | message hname hmembers =>
      refine (walkMessage_follows rfl h hname.segment hmembers hrun).image (List.map .message)
        (fun ks hks => .message hks) (fun ks => ?_) (fun ks => Usage.all_map _ _ ks) rfl
      exact contentsFrom_map _ _ (fun ⟨_, _, _, _⟩ n => by rw [Member.contents]; rfl) ks _
  | .enum x, hwritten, hrun => by
    rw [walkMember] at hrun
    cases hwritten with
    | enum hx =>
      refine (walkEnum_follows hx.name.segment rfl h hrun).image (List.map .enum)
        (fun ks hks => .enum hks) (fun ks => ?_) (fun ks => Usage.all_map _ _ ks) rfl
      exact contentsFrom_map _ _ (fun f n => by rw [Member.contents]) ks _
  | .extend x, hwritten, hrun => by
    rw [walkMember] at hrun
    cases hwritten with
    | extend _ hfields =>
      refine (walkExtend_follows rfl h hfields hrun).image (List.map .extend)
        (fun ks hks => .extend hks) (fun ks => ?_) (fun ks => Usage.all_map _ _ ks) rfl
      exact contentsFrom_map _ _ (fun ⟨_, _, _⟩ n => by rw [Member.contents]; rfl) ks _
  | .extensions x, hwritten, hrun => by
    rw [walkMember] at hrun
    cases hwritten with
    | extensions hx => exact walkExtensions_follows _ hx.ranges.ne_nil h hrun
  | .reserved x, _, hrun => by
    rw [walkMember] at hrun
    exact walkReserved_follows _ h hrun
  | .option x, _, hrun => by
    rw [walkMember] at hrun
    exact walkMessageOption_follows _ hp h hrun

theorem walkMembers_follow :
    ∀ {ms : List Member}, (∀ m ∈ ms, m.IsWritten dialect) → MembersFollow ms
  | [], _ => by
    intro p m u a a' r hp h hrun
    rw [walkMembers] at hrun
    cases hrun
    exact .nil h rfl
  | x :: xs, hwritten => by
    intro p m u a a' r hp h hrun
    rw [walkMembers] at hrun
    obtain ⟨hx, hxs⟩ := List.forall_mem_cons.mp hwritten
    obtain ⟨_, a₁, hfirst, hrest⟩ := bind_ok hrun
    refine (walkMember_follows hp h hx hfirst).cons (fun ks => Member.contentsFrom a.dialect a.here
      (m.oneofs.length + (Member.contentsFrom a.dialect a.here m.oneofs.length ks).oneofs.length))
      (fun ks henters => ?_) (contentsFrom_append _ _ _)
    have hmore := walkMembers_follow hxs hp henters.after hrest
    rw [henters.advances.dialect, henters.advances.here, MessageDescriptor.having,
      List.length_append] at hmore
    exact hmore

end

end Walks

/-! ### Files -/

section Files

variable {p : Place} {e : Element} {u : Usage} {a a' : Assembly} {dialect : Dialect}
variable {r : Unit}

theorem contents_all_map (contents : β → Contents) (f : α → β) (xs : List α) :
    all contents (xs.map f) = all (fun x => contents (f x)) xs := by
  induction xs with
  | nil => rfl
  | cons x xs ih => rw [List.map_cons, all, all, ih]

theorem walkItem_follows {x : Item} (hcontainer : e.head.isContainer = true)
    (hnumbers : u.numbers = []) (h : a.Works p e u) (hwritten : x.IsWritten dialect)
    (hrun : walkItem x a = .ok r a') :
    Follows p e u a [x] (Item.Sifts u x) (all (Item.contents a.dialect a.here)) Item.usage a' := by
  cases hwritten with
  | message hname hmembers =>
    exact (walkMessage_follows hcontainer h hname.segment hmembers hrun).image (.map .message)
      (fun ks hks => .message hks) (contents_all_map _ _) (Usage.all_map _ _) rfl
  | enum hx =>
    exact (walkEnum_follows hx.name.segment hcontainer h hrun).image (.map .enum)
      (fun ks hks => .enum hks) (contents_all_map _ _) (Usage.all_map _ _) rfl
  | service hx =>
    exact (walkService_follows hx.name.segment hcontainer hnumbers h hrun).image (.map .service)
      (fun ks hks => .service hks) (contents_all_map _ _) (Usage.all_map _ _) rfl
  | extend _ hfields =>
    exact (walkExtend_follows hcontainer h hfields hrun).image (.map .extend)
      (fun ks hks => .extend hks) (contents_all_map _ _) (Usage.all_map _ _) rfl

theorem numbers_all {usage : α → Usage} (h : ∀ x, (usage x).numbers = []) (xs : List α) :
    (Usage.all usage xs).numbers = [] := by
  induction xs with
  | nil => rfl
  | cons x xs ih => rw [Usage.all, Usage.append_def, h, ih, List.nil_append]

theorem numbers_item (x : Item) : x.usage.numbers = [] := by
  cases x with
  | message m => rfl
  | enum x => exact (EnumMember.bears_all x.members).2
  | service x => rfl
  | extend x =>
    refine numbers_all (fun f => ?_) x.fields
    cases f <;> rfl

theorem walkItems_follow {xs : List Item} {r : PUnit} (hcontainer : e.head.isContainer = true)
    (hnumbers : u.numbers = []) (h : a.Works p e u) (hwritten : ∀ x ∈ xs, x.IsWritten dialect)
    (hrun : xs.forM walkItem a = .ok r a') :
    Follows p e u a xs (SiftsAll Item.Sifts Item.usage u xs) (all (Item.contents a.dialect a.here))
      Item.usage a' := by
  induction xs generalizing a e u with
  | nil =>
    cases hrun
    exact .nil h rfl
  | cons x xs ih =>
    obtain ⟨hx, hxs⟩ := List.forall_mem_cons.mp hwritten
    obtain ⟨_, a₁, hfirst, hrest⟩ := bind_ok hrun
    refine (walkItem_follows hcontainer hnumbers h hx hfirst).cons
      (fun _ => all (Item.contents a.dialect a.here)) (fun ks henters => ?_) (all_append _)
    have hmore : (u ++ .all Item.usage ks).numbers = [] := by
      rw [Usage.append_def, hnumbers, numbers_all numbers_item, List.nil_append]
    have hfollows := ih (Element.head_having _ e ▸ hcontainer) hmore henters.after hxs hrest
    rw [henters.advances.dialect, henters.advances.here] at hfollows
    exact hfollows

theorem walkFile_follows {tree : File} (hcontainer : e.head.isContainer = true)
    (hp : p.block? = none) (h : a.Works p e {}) (hwritten : tree.IsWritten)
    (hrun : walkFile tree a = .ok r a') :
    ∃ kept, tree.Sifts kept ∧ Enters [] p e {} a ({ raws := waiting kept.options } ++
        all (Item.contents a.dialect a.here) kept.items) (Usage.all Item.usage kept.items) a' ∧
      (a'.log.size = a.log.size → kept = tree) := by
  have hrest : ∃ a₁, Alike a a₁ ∧ a₁.stack = a.stack ∧ (do
      let _ ← addOptions [] tree.options
      tree.items.forM walkItem) a₁ = .ok r a' := by
    have himports : LeavesAlone (tree.imports.zipIdx.forM fun x => recordImport x.2 x.1) :=
      .forM (fun _ => .recordLocation _ _ _) _
    unfold walkFile at hrun
    cases hpackage : tree.package? with
    | none =>
      rw [hpackage] at hrun
      obtain ⟨_, a₁, hfirst, hrun⟩ := bind_ok hrun
      obtain ⟨ha, hstack, _⟩ := himports hfirst
      exact ⟨a₁, ha, hstack, hrun⟩
    | some package =>
      rw [hpackage] at hrun
      obtain ⟨_, a₀, hrecord, hrun⟩ := bind_ok hrun
      obtain ⟨_, a₁, hfirst, hrun⟩ := bind_ok hrun
      obtain ⟨ha₀, hstack₀, _⟩ := LeavesAlone.recordLocation _ _ _ hrecord
      obtain ⟨ha, hstack, _⟩ := himports hfirst
      exact ⟨a₁, ha₀.trans ha, hstack.trans hstack₀, hrun⟩
  obtain ⟨a₁, ha₁, hstack, hrun⟩ := hrest
  obtain ⟨_, a₂, hoptions, hitems⟩ := bind_ok hrun
  have hworks := h.stay ha₁ hstack
  obtain ⟨hworks₂, ha₂, hquiet⟩ := hworks.addOptions hp hoptions
  have hfirst : Enters [] p e {} a₁ { raws := waiting (unrepeated [] tree.options) } {} a₂ :=
    .of_alike hworks₂ ha₂
  obtain ⟨items, hsifts, hsecond, hquiet'⟩ :=
    walkItems_follow (Element.head_having _ e ▸ hcontainer) rfl hfirst.after hwritten.items hitems
  rw [hfirst.advances.dialect, hfirst.advances.here, ha₁.dialect, ha₁.here_eq] at hsecond
  refine ⟨{ tree with options := unrepeated [] tree.options, items := items }, ⟨hsifts, rfl⟩, ?_,
    fun hlog => ?_⟩
  · have hall := (hfirst.trans hsecond).after_alike ha₁
    exact hall
  · have hle₁ := ha₁.log
    have hle₂ := hfirst.advances.log
    have hle' := hsecond.advances.log
    rw [hquiet (by omega), hquiet' (by omega)]

end Files

end Assembly

/-! ### The beginning -/

theorem SymbolTable.addPackage_childless {t : SymbolTable} {node : Nat} {ss : List String}
    (hbound : ∀ n ∈ t.nodes, ∀ p, n.parent? = some p → p < t.nodes.length)
    (hnode : node < t.nodes.length) (hleaf : ∀ n ∈ t.nodes, n.parent? ≠ some node) :
    ∀ n ∈ (t.addPackage node ss).1.nodes, n.parent? ≠ some (t.addPackage node ss).2 := by
  induction ss generalizing t node with
  | nil => exact hleaf
  | cons s ss ih =>
    have hnone : t.child? node s = none :=
      child?_eq_none_iff.mpr fun n hn hparent => absurd hparent (hleaf n hn)
    rw [addPackage, add, hnone]
    refine ih ?_ ?_ ?_
    · refine List.forall_mem_append.mpr ⟨fun n hn p hparent => ?_, ?_⟩
      · simpa using Nat.lt_succ_of_lt (hbound n hn p hparent)
      · simpa using Nat.lt_succ_of_lt hnode
    · simp
    · refine List.forall_mem_append.mpr ⟨fun n hn hparent => ?_, ?_⟩
      · exact lt_irrefl _ (hbound n hn _ hparent)
      · simpa using ne_of_lt hnode

theorem SymbolTable.ofPackage_childless (package : String) :
    ∀ n ∈ (ofPackage package).nodes, n.parent? ≠ some (ofPackage package).package :=
  addPackage_childless (by simp [empty]) (by simp [empty, root]) (by simp [empty])

namespace Assembly

open ProtobufSchema.Tree

variable {name : String} {tree : File} {log : Log}

def filePlace : Place := ⟨none, [], []⟩

theorem initial_kind? {i : Nat} (hi : i < (initial name tree log).ledger.size) :
    (initial name tree log).symbols.kind? i = some .package := by
  obtain ⟨_, _, hkinds, _⟩ := SymbolTable.ofPackage_spec ((tree.package?.map (·.name)).getD "")
  have hkind := hkinds _ (List.getElem_mem hi)
  exact (congrArg (Option.map _) (List.getElem?_eq_getElem hi)).trans (congrArg some hkind)

theorem initial_works : (initial name tree log).Works filePlace (.file (header name tree)) {} := by
  obtain ⟨htree, hcache, _, hpackage, _, _⟩ :=
    SymbolTable.ofPackage_spec ((tree.package?.map (·.name)).getD "")
  refine ⟨⟨[], ScopeStack.fits_nil fun t => by cases t <;> rfl, [], .nothing, rfl⟩,
    ⟨htree, hcache, ?_⟩, hpackage, ?_, ?_, rfl, .nil, .nil, ?_⟩
  · exact fun x hx => nomatch hx
  · intro _
    have hkind : (initial name tree log).symbols.kind? (initial name tree log).scope =
        some .package :=
      initial_kind? hpackage
    rw [hkind]
    rfl
  · intro s
    refine ⟨?_, fun hmem => nomatch hmem⟩
    rintro (huse | huse)
    · obtain ⟨n, hn, hparent, _⟩ := SymbolTable.child?_isSome_iff.mp huse
      exact absurd hparent (SymbolTable.ofPackage_childless _ n hn)
    · exact nomatch huse
  · exact ⟨fun m hm => (nomatch hm), fun s hs => (nomatch hs)⟩

end Assembly

end ProtobufSchema
