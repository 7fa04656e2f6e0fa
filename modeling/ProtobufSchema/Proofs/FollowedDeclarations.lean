import ProtobufSchema.Proofs.EnteredChildren
import ProtobufSchema.Proofs.WrittenTrees

/-! Declarations without scopes of their own: each is kept and enters what it comes to, or something
it needs is in use and that is reported. -/

namespace ProtobufSchema

open Name (join IsSegment)
open ScopeStack (Place)
open Element Usage FieldType

variable (n : Nat) (scope : String)

/-! ### Names that are made up -/

namespace Name

theorem underscore_not_mem_camelChars (upper : Bool) (cs : List Char) :
    '_' ∉ camelChars upper cs := by
  induction cs generalizing upper with
  | nil => simp [camelChars]
  | cons c cs ih =>
    unfold camelChars
    split
    · exact ih true
    · next hc =>
      rw [List.mem_cons, not_or]
      refine ⟨?_, ih false⟩
      cases upper with
      | false => exact Ne.symm hc
      | true => exact (toUpper_ne (by decide) hc).symm

theorem length_camelChars {upper : Bool} {cs : List Char} (h : '_' ∉ cs) :
    (camelChars upper cs).length = cs.length := by
  induction cs generalizing upper with
  | nil => rfl
  | cons c cs ih =>
    rw [List.mem_cons, not_or] at h
    rw [camelChars, if_neg (Ne.symm h.1), List.length_cons, List.length_cons, ih h.2]

theorem mapEntryName_ne (name : String) : mapEntryName name ≠ name := by
  intro heq
  have hchars : camelChars true name.toList ++ "Entry".toList = name.toList := by
    have hlist := congrArg String.toList heq
    simpa [mapEntryName] using hlist
  have hnot : '_' ∉ name.toList := by
    rw [← hchars, List.mem_append, not_or]
    exact ⟨underscore_not_mem_camelChars true _, by decide⟩
  have hlength := congrArg List.length hchars
  rw [List.length_append, length_camelChars hnot] at hlength
  exact absurd hlength (by simp)

end Name

theorem Tree.groupFieldName_ne {name : String} (h : name.toList.head?.any Char.isUpper = true) :
    groupFieldName name ≠ name := by
  intro heq
  have hchars : name.toList.map .toLower = name.toList := by
    have hlist := congrArg String.toList heq
    rwa [groupFieldName, String.toList_ofList] at hlist
  cases hname : name.toList with
  | nil => simp [hname] at h
  | cons c cs =>
    rw [hname] at h hchars
    have hcapital : c.isUpper = true := by simpa using h
    have hupper : 'A'.val ≤ c.val ∧ c.val ≤ 'Z'.val := of_decide_eq_true hcapital
    have hlower : c.toLower = c := (List.cons.inj hchars).1
    unfold Char.toLower at hlower
    split at hlower
    · have hval := congrArg (fun c : Char => c.val.toNat) hlower
      simp at hval hupper
      omega
    · next hnot => exact hnot hupper

variable {α : Type}

theorem Usage.all_append (usage : α → Usage) (xs ys : List α) :
    all usage (xs ++ ys) = all usage xs ++ all usage ys := by
  induction xs with
  | nil => exact (empty_append _).symm
  | cons x xs ih => rw [List.cons_append, all, all, ih, append_assoc]

theorem Contents.all_append (contents : α → Contents) (xs ys : List α) :
    all contents (xs ++ ys) = all contents xs ++ all contents ys := by
  induction xs with
  | nil => exact (empty_append _).symm
  | cons x xs ih => rw [List.cons_append, all, all, ih, append_assoc]

theorem Tree.contentsFrom_singleton (dialect : Dialect) (scope : String) (n : Nat) (m : Member) :
    Member.contentsFrom dialect scope n [m] = m.contents dialect scope n :=
  Contents.append_empty _

theorem Usage.all_singleton (usage : α → Usage) (x : α) : all usage [x] = usage x := append_empty _

namespace Assembly

open ProtobufSchema.Tree

variable {word : String} {first last : Int32} (m : MapField) (path : Path) (block? : Option Block)

/-- Of some declarations a part is kept and entered; all of them, if nothing is reported. -/
def Follows {α : Type} (p : Place) (e : Element) (u : Usage) (a : Assembly) (xs : List α)
    (sifts : List α → Prop) (contents : List α → Contents) (usage : α → Usage) (a' : Assembly) :
    Prop :=
  ∃ ks, sifts ks ∧ Enters [] p e u a (contents ks) (Usage.all usage ks) a' ∧
    (a'.log.size = a.log.size → ks = xs)

section Follows

variable {α β : Type} {p inner : Place} {e : Element} {u v : Usage} {d : Contents}
  {a a' a'' : Assembly} {x : α} {xs : List α} {sifts : List α → Prop} {contents : List α → Contents}
  {usage : α → Usage}

namespace Follows

theorem clash (h : Enters [] p e u a {} {} a') (hlog : a.log.size < a'.log.size) (hsifts : sifts [])
    (hcontents : contents [] = {}) : Follows p e u a xs sifts contents usage a' :=
  ⟨[], hsifts, hcontents ▸ h, fun heq => absurd heq (by omega)⟩

theorem kept {k : α} (h : Enters [] p e u a d v a') (hsifts : sifts [k])
    (hcontents : contents [k] = d) (husage : usage k = v)
    (hquiet : a'.log.size = a.log.size → k = x) : Follows p e u a [x] sifts contents usage a' := by
  refine ⟨[k], hsifts, ?_, fun hlog => by rw [hquiet hlog]⟩
  rw [hcontents, all_singleton, husage]
  exact h

theorem option {x : Assignment} {make : Assignment → α} {seen : List String}
    (h : Enters [] p e u a { raws := waiting (unrepeated seen [x]) } {} a')
    (hquiet : a'.log.size = a.log.size → unrepeated seen [x] = [x])
    (hsifts : ∀ ks : List Assignment, ks.Sublist [x] → sifts (ks.map make))
    (hnil : contents [] = {}) (hone : contents [make x] = { raws := waiting [x] })
    (husage : usage (make x) = {}) : Follows p e u a [make x] sifts contents usage a' := by
  have hsublist := unrepeated_sublist seen [x]
  refine ⟨(unrepeated seen [x]).map make, hsifts _ hsublist, ?_,
    fun hlog => by rw [hquiet hlog, List.map_singleton]⟩
  rcases List.sublist_singleton.mp hsublist with hks | hks
  · rw [hks] at h ⊢
    rw [List.map_nil, hnil]
    exact h
  · rw [hks] at h ⊢
    rw [List.map_singleton, hone, all_singleton, husage]
    exact h

theorem image {ys : List β} {sifts' : List β → Prop} {contents' : List β → Contents}
    {usage' : β → Usage} (h : Follows p e u a xs sifts contents usage a') (g : List α → List β)
    (hsifts : ∀ ks, sifts ks → sifts' (g ks)) (hcontents : ∀ ks, contents' (g ks) = contents ks)
    (husage : ∀ ks, all usage' (g ks) = all usage ks) (hg : g xs = ys) :
    Follows p e u a ys sifts' contents' usage' a' := by
  obtain ⟨ks, hks, henters, hquiet⟩ := h
  refine ⟨g ks, hsifts ks hks, ?_, fun hlog => by rw [hquiet hlog, hg]⟩
  rw [hcontents, husage]
  exact henters

variable {sifts : Usage → α → List α → Prop}

theorem nil (h : a.Works p e u) (hcontents : contents [] = {}) :
    Follows p e u a [] (SiftsAll sifts usage u []) contents usage a := by
  refine ⟨[], .nil u, ?_, fun _ => rfl⟩
  rw [hcontents]
  exact .refl h

theorem cons (more : List α → List α → Contents)
    (h : Follows p e u a [x] (sifts u x) contents usage a')
    (h' : ∀ ks, Enters [] p e u a (contents ks) (all usage ks) a' →
      Follows p (e.having (contents ks)) (u ++ all usage ks) a' xs
        (SiftsAll sifts usage (u ++ all usage ks) xs) (more ks) usage a'')
    (hcontents : ∀ ks kept, contents (ks ++ kept) = contents ks ++ more ks kept) :
    Follows p e u a (x :: xs) (SiftsAll sifts usage u (x :: xs)) contents usage a'' := by
  obtain ⟨ks, hks, henters, hquiet⟩ := h
  obtain ⟨kept, hkept, henters', hquiet'⟩ := h' ks henters
  refine ⟨ks ++ kept, .cons hks hkept, ?_, fun hlog => ?_⟩
  · rw [hcontents, all_append]
    exact henters.trans henters'
  · have hle := henters.advances.log
    have hle' := henters'.advances.log
    rw [hquiet (by omega), hquiet' (by omega), List.singleton_append]

theorem foldlM {σ : Type} {step : Nat → σ → α → Assemble σ} {each : α → Contents} {scope : Nat}
    {c c' : σ}
    (hstep : ∀ {x : α} {c c' : σ} {e : Element} {u : Usage} {a a' : Assembly}, a.Works p e u →
      step a.scope c x a = .ok c' a' → Follows p e u a [x] (sifts u x) (.all each) usage a')
    (h : a.Works p e u) (hscope : a.scope = scope) (hrun : xs.foldlM (step scope) c a = .ok c' a') :
    Follows p e u a xs (SiftsAll sifts usage u xs) (.all each) usage a' := by
  induction xs generalizing a e u c with
  | nil =>
    cases hrun
    exact .nil h rfl
  | cons x xs ih =>
    obtain ⟨c₁, a₁, hfirst, hrest⟩ := bind_ok hrun
    rw [← hscope] at hfirst
    refine (hstep h hfirst).cons _ (fun ks henters => ?_) (Contents.all_append _)
    exact ih henters.after (henters.advances.scope.trans hscope) hrest

end Follows

end Follows

variable {p inner : Place} {e : Element} {u : Usage} {a a' : Assembly}

/-! ### Fields -/

variable {r : Unit} {context : FieldContext} {x : Extensions}

theorem referExtendee_notes {span : Span} {path : Path}
    (h : referExtendee context span path a = .ok r a') :
    Notes (context.extendee?.map fun extendee => ⟨path, .extendee, a.here, extendee⟩).toList
      a a' := by
  cases context with
  | extend extendee => exact refer_notes h
  | message =>
    cases h
    exact .refl a
  | oneof =>
    cases h
    exact .refl a

theorem isScalar_of_ofKeyword? {type : FieldType} (h : ofKeyword? word = some type) :
    type.isScalar = true := by
  have hfound := List.find?_some h
  simp only [Bool.and_eq_true] at hfound
  exact hfound.1

theorem isSettled_keyword (t : SymbolTable) (word : String) (extendee? : Option String) :
    Use.IsSettled t (.field (ofKeyword? word)
      (if (ofKeyword? word).isNone then some word else none) extendee?) := by
  cases htype : ofKeyword? word with
  | none => exact .named word extendee?
  | some type => exact .scalar (isScalar_of_ofKeyword? htype) extendee?

theorem isExtend_of_fits {block? : Option Block} (h : context.Fits block?) :
    context.isExtend = block?.any Block.isExtend := by
  cases h <;> rfl

theorem walkField_follows {f : Field} (hname : IsSegment f.name) (hfits : context.Fits p.block?)
    (h : a.Works p e u) (hrun : walkField f context a = .ok r a') :
    Follows p e u a [.field f] (FieldMember.Sifts (p.block?.any Block.isExtend) u (.field f))
      (FieldMember.contentsOf a.dialect a.here p.block?)
        (FieldMember.usage (p.block?.any Block.isExtend))
      a' := by
  have hextend := isExtend_of_fits hfits
  obtain ⟨claimed, a₁, hclaim, hrun⟩ := bind_ok hrun
  rcases h.claimField hclaim with ⟨rfl, hclash, henters, hlog⟩ | ⟨rfl, henters, -, htaken, -⟩
  · cases hrun
    rw [hextend] at hclash
    exact .clash henters hlog (.clash hclash) rfl
  · obtain ⟨hfield, hquiet⟩ := henters.works.addField hrun hfits rfl hname htaken
      (isSettled_keyword _ _ _) (by
      intro path r a₂ a₃ hrefer
      cases htype : ofKeyword? f.typeName with
      | none =>
        rw [htype] at hrefer
        obtain ⟨_, a₄, hfirst, hsecond⟩ := bind_ok hrefer
        have hnotes := (refer_notes hfirst).trans (referExtendee_notes hsecond)
        rw [(refer_notes hfirst).here_eq] at hnotes
        cases context <;> exact hnotes
      | some type =>
        rw [htype] at hrefer
        have hnotes := referExtendee_notes hrefer
        cases context <;> exact hnotes)
    have hall := henters.later hfield
    rw [append_empty] at hall
    refine .kept hall (.field _ u f) ?_ ?_ fun hlog => ?_
    · rw [FieldMember.contentsOf, FieldMember.contentsOf, Contents.append_empty,
        FieldMember.contents, Field.descriptor, ownJsonName?, ← hextend, henters.advances.dialect]
    · rw [FieldMember.usage, fieldUsage, hextend]
    · have hle := henters.advances.log
      have hle' := hfield.advances.log
      rw [hquiet (by omega)]

/-! ### Maps -/

theorem isDistinct_mapEntry : (mapEntry m).IsDistinct := by
  refine ⟨?_, ?_, ?_⟩
  · have hnames : (mapEntry m).scopeNames = ["key", "value"] := rfl
    rw [hnames]
    decide
  · have hnumbers : (mapEntry m).fields.map (·.number) = [1, 2] := rfl
    rw [hnumbers]
    decide
  · exact fun x hx => nomatch hx

def mapEntryUses (m : MapField) (scope : String) (path : Path) : List (Placed Use) :=
  let full := join scope (Name.mapEntryName m.name)
  let value? := FieldType.ofKeyword? m.valueType
  [⟨path ++ [Tag.messageField.step, 0], full, scope,
    .field (FieldType.ofKeyword? m.keyType) none none⟩,
    ⟨path ++ [Tag.messageField.step, 1], full, scope,
      .field value? (if value?.isNone then some m.valueType else none) none⟩]

theorem isSettled_key (h : Grammar.isMapKey word = true) (t : SymbolTable) :
    Use.IsSettled t (.field (ofKeyword? word) none none) := by
  unfold Grammar.isMapKey at h
  cases htype : ofKeyword? word with
  | none =>
    rw [htype] at h
    cases h
  | some type => exact .scalar (isScalar_of_ofKeyword? htype) none

theorem Works.claimTyped {name typeName : String} {number : Int32} {span : Span}
    {rest : Nat → Assemble Unit} (h : a.Works p e u) (hcontainer : e.head.isContainer = true)
    (hname : IsSegment typeName) (hne : typeName ≠ name)
    (hrun : (do
      if !(← Assembly.claimField name number span context) then return
      match ← Assembly.declare typeName .message span with
      | none => releaseField name number context
      | some node => rest node) a = .ok r a') :
    (u.Clashes (fieldUsage context.isExtend name number ++ { names := [typeName] }) ∧
        Enters [] p e u a {} {} a' ∧ a.log.size < a'.log.size) ∨
      ∃ node a₁, Enters [(join a.here typeName, .message)] p e u a {}
          (fieldUsage context.isExtend name number ++ { names := [typeName] }) a₁ ∧
        a₁.IsVacant typeName .message node ∧ a.ledger.size ≤ node ∧ (a₁.scope, name) ∈ a₁.taken ∧
        rest node a₁ = .ok r a' := by
  obtain ⟨claimed, a₁, hclaim, hrun⟩ := bind_ok hrun
  rcases h.claimField hclaim with ⟨rfl, hclash, henters, hlog⟩ |
    ⟨rfl, henters, hstack, htaken, hback⟩
  · cases hrun
    refine .inl ⟨hclash.mono ?_ ?_, henters, hlog⟩
    · exact List.subset_append_left _ _
    · exact List.subset_append_left _ _
  · obtain ⟨node?, a₂, hdeclare, hrun⟩ := bind_ok hrun
    rcases henters.works.declare hcontainer hname hdeclare with
      ⟨rfl, huse, ha₂, hstack₂, hlog⟩ | ⟨node, rfl, hdeclared, hvacant, hfresh⟩
    · obtain ⟨ha, hstack', hlog'⟩ := hback ha₂ hrun
      refine .inl ⟨?_, .of_stay h ha (hstack'.trans (hstack₂.trans hstack)), ?_⟩
      · refine .inl ⟨typeName, by simp [append_def], ?_⟩
        simpa [append_def, fieldUsage, hne] using huse
      · have hle := henters.advances.log
        rw [hlog']
        omega
    · have hfresh := henters.advances.nodes.length_le.trans hfresh
      have hkept : (a₂.scope, name) ∈ a₂.taken := by
        obtain ⟨_, _, haccounts, _⟩ := hdeclared.brings
        rw [hdeclared.advances.scope]
        exact haccounts.taken _ htaken
      rw [henters.advances.here] at hdeclared
      exact .inr ⟨node, a₂, henters.later hdeclared, hvacant, hfresh, hkept, hrun⟩

theorem Enters.mapEntry {m : MapField} {path : Path} {v : Usage} {a₁ a₂ a₃ : Assembly}
    (h : Enters [(join a.here (Name.mapEntryName m.name), .message)] p e u a {} v a₁)
    (hkey : Grammar.isMapKey m.keyType = true)
    (hopen : openElement (.message (mapEntry m)) m.span none a₁ = .ok path a₂)
    (hclose : close a₂ = .ok r a₃)
    (hnotes : Notes (if (ofKeyword? m.valueType).isNone then
      [⟨path ++ [Tag.messageField.step, 1], .fieldType, a₃.here, m.valueType⟩] else []) a₃ a') :
    Enters [] p e u a { messages := [mapEntry m] } v a' := by
  obtain ⟨tag, inner, hopened, rfl, hholds, ha₂, _⟩ := h.works.openElement (by simp [head]) hopen
  obtain ⟨hs, ha₃⟩ := close_alike hclose
  have ha := ha₂.trans ha₃
  obtain ⟨e', hattach, hat⟩ := hopened.opens.close hopened.tag hholds hs
  rw [ScopeStack.attach_having hopened.tag] at hattach
  cases hattach
  have hworks : a₃.Works p (e.having { messages := [Assembly.mapEntry m] }) (u ++ v) := by
    refine h.works.alike ha hat (h.works.parts.having ⟨?_, by simp⟩) ?_
    · simpa using isDistinct_mapEntry m
    · rw [head_having]
      exact h.works.container
  refine ⟨hworks.notes hnotes, (h.advances.trans ha.advances).trans hnotes.advances, ?_⟩
  have hbrings := h.brings
  rw [having_empty] at hbrings
  have haccounts :
      Ledger.Accounts [] a₃.ledger a'.ledger (mapEntryUses m a.here inner.path) [] := by
    refine hnotes.accounts hworks.sound hworks.scope ?_ ?_ (by simp)
    · rw [ha.here_eq, h.advances.here]
      cases htype : ofKeyword? m.valueType <;>
        simp [mapEntryUses, Placed.useMentions, Placed.mention?, htype]
    · simp only [mapEntryUses, List.forall_mem_cons]
      exact ⟨isSettled_key hkey _, isSettled_keyword _ _ _, by simp⟩
  rw [ha.ledger] at haccounts
  exact hbrings.child hopened.opens (ScopeStack.takes_having hopened.tag) haccounts
    (.refl _) (fun _ => .rfl) rfl

theorem walkMap_follows {m : MapField} (hname : IsSegment m.name)
    (hkey : Grammar.isMapKey m.keyType = true) (hp : p.block? = none)
    (hcontainer : e.head.isContainer = true) (h : a.Works p e u) (hrun : walkMap m a = .ok r a') :
    Follows p e u a [.map m] (Member.Sifts u (.map m)) (Member.contentsFrom a.dialect a.here n)
      Member.usage a' := by
  have husage : fieldUsage false m.name m.number ++ { names := [Name.mapEntryName m.name] } =
    m.usage := rfl
  rcases h.claimTyped hcontainer (Name.isSegment_mapEntryName hname) (Name.mapEntryName_ne m.name)
      hrun with
    ⟨hclash, henters, hlog⟩ | ⟨node, a₂, henters, hvacant, -, htaken, hrun⟩
  · exact .clash henters hlog (.mapClash (husage ▸ hclash)) rfl
  · obtain ⟨path, a₃, hopen, hrun⟩ := bind_ok hrun
    obtain ⟨_, a₄, hclose, hrun⟩ := bind_ok hrun
    have ha₄ := (openElement_alike hopen).2.2.1.trans (close_alike hclose).2
    have hrest : ∃ a₅, Notes (if (ofKeyword? m.valueType).isNone then
          [⟨path ++ [Tag.messageField.step, 1], .fieldType, a₄.here, m.valueType⟩] else []) a₄ a₅ ∧
        addField (mapField m (a₅.symbols.fullName node)) m.options m.span m.comment?
          (fun _ => return) a₅ = .ok r a' := by
      cases htype : ofKeyword? m.valueType with
      | none =>
        rw [htype] at hrun
        obtain ⟨_, a₅, hrefer, hrun⟩ := bind_ok hrun
        exact ⟨a₅, refer_notes hrefer, hrun⟩
      | some type =>
        rw [htype] at hrun
        exact ⟨a₄, .refl a₄, hrun⟩
    obtain ⟨a₅, hnotes, hadd⟩ := hrest
    have hentry := henters.mapEntry hkey hopen hclose hnotes
    have hsame : a₅.symbols = a₂.symbols ∧ a₅.scope = a₂.scope ∧ a₅.taken = a₂.taken := by
      obtain ⟨_, rfl, _⟩ := hnotes
      exact ⟨ha₄.symbols, ha₄.scope, congrArg Ledger.taken ha₄.ledger⟩
    have hfits : FieldContext.message.Fits p.block? := hp ▸ .message
    obtain ⟨hfield, hquiet⟩ := hentry.after.addField hadd hfits rfl
      hname (by rwa [hsame.2.1, hsame.2.2]) (.made rfl (by rw [hsame.1, hvacant.kind?]) none) (by
        intro path r a₆ a₇ hdone
        cases hdone
        exact .refl a₆)
    have hfull : a₅.symbols.fullName node = join a.here (Name.mapEntryName m.name) := by
      rw [hsame.1, hvacant.fullName, henters.advances.here]
    have hall := hentry.trans hfield
    refine .kept hall (.map u m) ?_ husage.symm fun hlog => ?_
    · rw [hp, hfull]
      rfl
    · have hle₅ := hentry.advances.log
      have hle' := hfield.advances.log
      rw [hquiet (by omega)]

/-! ### Ranges -/

theorem stop_of_check (h : (NumberRange.ofBounds first last).check = .ok ()) :
    (NumberRange.ofBounds first last).stop = last + 1 := by
  by_cases hlast : last = .maxValue
  · subst hlast
    have hbounded := (NumberRange.IsValid.of_check h).bounded
    have hlast : (NumberRange.ofBounds first .maxValue).stop.toInt = 2147483647 := rfl
    omega
  · exact if_neg hlast

theorem walkExtensionRange_cases (h : a.Works p e u)
    (hrun : walkExtensionRange x first last a = .ok r a') :
    (Enters [] p e u a {} {} a' ∧ a.log.size < a'.log.size) ∨
      Enters [] p e u a { ranges := [rangeOf (unrepeated [] x.options) (first, last)] } {} a' ∧
        (a'.log.size = a.log.size → unrepeated [] x.options = x.options) := by
  have hreported (d : Diagnostic) : Enters [] p e u a {} {} { a with log := a.log.report d } ∧
      a.log.size < (a.log.report d).size := ⟨.of_stay h (report_alike d) rfl, size_report _ d⟩
  have hrun := get_ok hrun
  cases hinsert : a.claims.ranges.insert (.ofBounds first last) with
  | error violation =>
    rw [hinsert] at hrun
    cases violation <;> cases hrun <;> exact .inl (hreported _)
  | ok ranges =>
    rw [hinsert] at hrun
    obtain ⟨_, _, hclaim, hrun⟩ := bind_ok hrun
    cases hclaim
    obtain ⟨path, a₂, hopen, hrun⟩ := bind_ok hrun
    obtain ⟨_, a₃, hoptions, hclose⟩ := bind_ok hrun
    have hstop : (NumberRange.ofBounds first last).stop = last + 1 := by
      refine stop_of_check ?_
      unfold RangeSet.insert at hinsert
      split at hinsert
      · cases hinsert
      · assumption
    have ha : Alike a { a with claims := { a.claims with ranges := ranges } } :=
      ⟨rfl, rfl, rfl, rfl, le_refl _⟩
    obtain ⟨henters, hquiet⟩ := (h.stay ha rfl).leaf (by simp [head]) rfl
      (fun _ => rfl) hopen (.refl _) hoptions hclose fun _ _ hc => hc ▸ .nothing _
    refine .inr ⟨?_, hquiet⟩
    have henters := henters.after_alike ha
    rw [hstop] at henters
    exact henters

theorem walkExtensionRanges_cases {ranges : List (Int32 × Int32)} {r : PUnit} (h : a.Works p e u)
    (hrun : (ranges.forM fun (first, last) => walkExtensionRange x first last) a = .ok r a') :
    ∃ kept, kept.Sublist ranges ∧
      Enters [] p e u a { ranges := kept.map (rangeOf (unrepeated [] x.options)) } {} a' ∧
      (a'.log.size = a.log.size → kept = ranges ∧
        (ranges ≠ [] → unrepeated [] x.options = x.options)) := by
  induction ranges generalizing a e u with
  | nil =>
    cases hrun
    exact ⟨[], .refl _, .refl h, fun _ => ⟨rfl, fun hne => absurd rfl hne⟩⟩
  | cons bounds ranges ih =>
    obtain ⟨_, a₁, hfirst, hrest⟩ := bind_ok hrun
    rcases walkExtensionRange_cases h hfirst with ⟨henters, hlog⟩ | ⟨henters, hquiet⟩
    · have hworks := henters.works
      rw [append_empty] at hworks
      obtain ⟨kept, hkept, henters', _⟩ := ih hworks hrest
      refine ⟨kept, hkept.cons _, henters.later (by rwa [append_empty]), fun heq => ?_⟩
      have hle := henters'.advances.log
      omega
    · obtain ⟨kept, hkept, henters', hquiet'⟩ := ih henters.after hrest
      refine ⟨bounds :: kept, hkept.cons_cons _, henters.trans henters', fun heq => ?_⟩
      have hle := henters.advances.log
      have hle' := henters'.advances.log
      exact ⟨by rw [(hquiet' (by omega)).1], fun _ => hquiet (by omega)⟩

theorem walkExtensions_follows {r : PUnit} (hx : x.ranges ≠ []) (h : a.Works p e u)
    (hrun : (x.ranges.forM fun (first, last) => walkExtensionRange x first last) a = .ok r a') :
    Follows p e u a [.extensions x] (Member.Sifts u (.extensions x))
      (Member.contentsFrom a.dialect a.here n) Member.usage a' := by
  obtain ⟨kept, hkept, henters, hquiet⟩ := walkExtensionRanges_cases h hrun
  refine .kept henters (.extensions u hkept) (contentsFrom_singleton _ _ n _) rfl fun hlog => ?_
  obtain ⟨hall, hoptions⟩ := hquiet hlog
  rw [hall, hoptions hx]

/-! ### What is reserved -/

theorem Works.modifyMessage {f : MessageDescriptor → MessageDescriptor} (h : a.Works p e u)
    (hrun : modifyMessage f a = .ok r a') (hf : ∀ m, (message m).Like (.message (f m))) :
    ∃ m, e = .message m ∧ p.IsAt (.message (f m)) a'.stack ∧ Alike a a' := by
  rw [modifyMessage_eq] at hrun
  obtain ⟨s, hs, rfl⟩ := onStack_ok hrun
  unfold ScopeStack.reviseMessage at hs
  split at hs
  · next m hcurrent =>
    cases hs
    obtain ⟨counts, _, hholds⟩ := h.stack
    obtain ⟨_, rfl⟩ := hholds.eq_of_current? hcurrent
    exact ⟨m, rfl, h.stack.modifyOwner (hf m), ⟨rfl, rfl, rfl, rfl, le_refl _⟩⟩
  · cases hs

theorem walkReserved_follows {x : Reserved} (h : a.Works p e u)
    (hrun : walkReserved x a = .ok r a') :
    Follows p e u a [.reserved x] (Member.Sifts u (.reserved x))
      (Member.contentsFrom a.dialect a.here n)
      Member.usage a' := by
  obtain ⟨_, a₁, hmodify, hclaim⟩ := bind_ok hrun
  obtain ⟨m, rfl, hat, ha⟩ :=
    h.modifyMessage hmodify fun _ => like_message rfl rfl rfl rfl rfl rfl rfl
  cases hclaim
  have hhaving : .having { reservedRanges := x.descriptors, reservedNames := x.names } m =
      { m with
        reservedRanges := m.reservedRanges ++ x.descriptors
        reservedNames := m.reservedNames ++ x.names } := by
    simp [MessageDescriptor.having, Options.awaiting_nil]
  have henters : Enters [] p (.message m) u a
      { reservedRanges := x.descriptors, reservedNames := x.names } {} a₁ := by
    refine .of_alike ?_ ha
    rw [having, hhaving]
    refine h.alike ha ?_ h.parts h.container
    simpa only [Reserved.descriptors, List.map_map, Function.comp_def] using hat
  have ha₁ (claims : Claims) (hclaims : claims.fields = a₁.claims.fields) :
      Alike a₁ { a₁ with claims := claims } := ⟨rfl, rfl, rfl, hclaims, Nat.le_refl _⟩
  exact .kept (henters.then_alike (ha₁ _ rfl) rfl) (.reserved u x)
    (contentsFrom_singleton _ _ n _) rfl fun _ => rfl

theorem walkMessageOption_follows {x : Assignment} (hp : p.block? = none) (h : a.Works p e u)
    (hrun : walkMessageOption x a = .ok r a') :
    Follows p e u a [.option x] (Member.Sifts u (.option x))
      (Member.contentsFrom a.dialect a.here n)
      Member.usage a' := by
  have hrun := get_ok hrun
  obtain ⟨seen, a₁, hadd, hclaim⟩ := bind_ok hrun
  cases hclaim
  obtain ⟨hworks, ha, _, hquiet⟩ := h.addOption hadd
  rw [hp] at hworks
  have henters :
      Enters [] p e u a { raws := waiting (unrepeated a.claims.optionNames [x]) } {} a₁ :=
    .of_alike hworks ha
  have ha₁ : Alike a₁ { a₁ with claims := { a₁.claims with optionNames := seen } } :=
    ⟨rfl, rfl, rfl, rfl, le_refl _⟩
  exact .option (henters.then_alike ha₁ rfl) hquiet (fun _ hks => .option hks) rfl
    (contentsFrom_singleton _ _ n _) rfl

/-! ### Enums -/

/-- A step that changes neither the account nor what is open. -/
def LeavesAlone (x : Assemble Unit) : Prop :=
  ∀ ⦃a r a'⦄, x a = .ok r a' → Alike a a' ∧ a'.stack = a.stack ∧ a'.claims = a.claims

namespace LeavesAlone

theorem recordLocation (span : Span) (comment? : Option String) :
    LeavesAlone (recordLocation path span comment?) := by
  intro a r a' h
  cases h
  exact ⟨⟨rfl, rfl, rfl, rfl, le_refl _⟩, rfl, rfl⟩

theorem pure : LeavesAlone (pure ()) := by
  intro a r a' h
  cases h
  exact ⟨.refl _, rfl, rfl⟩

theorem report (cause : Cause) (span : Span) (message : String) :
    LeavesAlone (report cause span message) := by
  intro a r a' h
  cases h
  exact ⟨report_alike _, rfl, rfl⟩

theorem bind {x : Assemble Unit} {f : Unit → Assemble Unit} (hx : LeavesAlone x)
    (hf : ∀ r, LeavesAlone (f r)) : LeavesAlone (x >>= f) := by
  intro a r a' h
  obtain ⟨r₁, a₁, hfirst, hrest⟩ := bind_ok h
  obtain ⟨ha₁, hstack₁, hclaims₁⟩ := hx hfirst
  obtain ⟨ha, hstack, hclaims⟩ := hf r₁ hrest
  exact ⟨ha₁.trans ha, hstack.trans hstack₁, hclaims.trans hclaims₁⟩

theorem ite {c : Prop} [Decidable c] {x y : Assemble Unit} (hx : LeavesAlone x)
    (hy : LeavesAlone y) : LeavesAlone (if c then x else y) := by
  split
  · exact hx
  · exact hy

theorem forM {f : α → Assemble Unit} (h : ∀ x, LeavesAlone (f x)) (xs : List α) :
    LeavesAlone (xs.forM f) := by
  induction xs with
  | nil => exact .pure
  | cons x xs ih => exact (h x).bind fun _ => ih

end LeavesAlone

theorem checkReserved_leavesAlone {kind : String} {f : ClaimedField} {number name : Bool} :
    LeavesAlone (checkReserved kind f number name) := by
  refine .ite ((LeavesAlone.report _ _ _).bind fun _ => ?_) ?_
  · exact .ite (.report _ _ _) .pure
  · exact .ite (.report _ _ _) .pure

theorem walkEnumMember_follows {m : EnumMember} {c c' : EnumClaims} (hp : p.block? = none)
    (h : a.Works p e u) (hrun : walkEnumMember a.scope c m a = .ok c' a') :
    Follows p e u a [m] (EnumMember.Sifts u m) (.all EnumMember.contents) EnumMember.usage a' := by
  cases m with
  | value v =>
    obtain ⟨added, a₁, hvalue, hrun⟩ := bind_ok hrun
    obtain rfl : a' = a₁ := by cases added <;> cases hrun <;> rfl
    obtain ⟨taken, a₁, htake, hvalue⟩ := bind_ok hvalue
    rcases h.takeName htake with ⟨rfl, huse, henters, hlog⟩ | ⟨rfl, henters⟩
    · cases hvalue
      exact .clash henters hlog (.clash huse) rfl
    · obtain ⟨path, a₂, hopen, hvalue⟩ := bind_ok hvalue
      obtain ⟨_, a₃, hoptions, hvalue⟩ := bind_ok hvalue
      obtain ⟨_, a₄, hclose, hdone⟩ := bind_ok hvalue
      cases hdone
      obtain ⟨hleaf, hquiet⟩ := henters.works.leaf (by simp [head]) rfl
        (fun _ => rfl) hopen (.refl _) hoptions hclose fun _ _ hc => hc ▸ .nothing _
      refine .kept (henters.later hleaf) (.value u v) rfl rfl fun hlog => ?_
      have hle := henters.advances.log
      have hle' := hleaf.advances.log
      rw [hquiet (by omega)]
  | option x =>
    obtain ⟨seen, a₁, hadd, hdone⟩ := bind_ok hrun
    cases hdone
    obtain ⟨hworks, ha, _, hquiet⟩ := h.addOption hadd
    rw [hp] at hworks
    exact .option (.of_alike hworks ha) hquiet (fun _ hks => .option hks) rfl
      (Contents.append_empty _) rfl
  | reserved x =>
    rw [walkEnumMember_reserved] at hrun
    obtain ⟨_, a₁, hrevise, hdone⟩ := bind_ok hrun
    cases hdone
    obtain ⟨s, hs, rfl⟩ := onStack_ok hrevise
    unfold ScopeStack.reviseEnum at hs
    split at hs
    · next y hcurrent =>
      cases hs
      obtain ⟨counts, _, hholds⟩ := h.stack
      obtain ⟨_, rfl⟩ := hholds.eq_of_current? hcurrent
      have ha (s : ScopeStack) : Alike a { a with stack := s } := ⟨rfl, rfl, rfl, rfl, le_refl _⟩
      have hhaving : (enum y).having (EnumMember.reserved x).contents = .enum { y with
          reservedRanges := y.reservedRanges ++
            x.ranges.map fun (first, last) => (⟨some first, some last⟩ : ReservedRange)
          reservedNames := y.reservedNames ++ x.names } := by
        simp [having, EnumMember.contents, Options.awaiting_nil]
      have hat := h.stack.modifyOwner
        ((enum y).like_having [] (x.ranges.map fun (first, last) =>
        ⟨some first, some last⟩) x.names)
      refine .kept (.of_alike ?_ (ha _)) (.reserved u x) (Contents.append_empty _) rfl fun _ => rfl
      exact h.alike (ha _) (hhaving ▸ hat) trivial h.container
    · cases hs

theorem walkEnum_follows {x : Enum} (hname : IsSegment x.name)
    (hcontainer : e.head.isContainer = true) (h : a.Works p e u) (hrun : walkEnum x a = .ok r a') :
    Follows p e u a [x] (Enum.Sifts u x) (.all fun x => { enums := [x.descriptor] })
      Enum.usage a' := by
  have hrun := get_ok hrun
  obtain ⟨node?, a₁, hdeclare, hrun⟩ := bind_ok hrun
  rcases h.declare hcontainer hname hdeclare with ⟨rfl, huse, ha, hstack, hlog⟩ |
    ⟨node, rfl, henters, -⟩
  · cases hrun
    exact .clash (.of_stay h ha hstack) hlog (.clash huse) rfl
  · obtain ⟨path, a₂, hopen, hrun⟩ := bind_ok hrun
    obtain ⟨claims, a₃, hmembers, hrun⟩ := bind_ok hrun
    obtain ⟨_, a₄, hchecks, hclose⟩ := bind_ok hrun
    obtain ⟨tag, inner, hopened, -, hworks₂, ha₂⟩ :=
      henters.works.inside (c := .enum _) (by simp [head]) rfl
      (fun t => by cases t <;> rfl) trivial hopen
    have hscope : a₂.scope = a.scope := ha₂.scope.trans henters.advances.scope
    obtain ⟨kept, hkept, hentered, hquiet⟩ :=
      Follows.foldlM (fun h => walkEnumMember_follows hopened.opens.block? h) hworks₂
        hscope hmembers
    obtain ⟨ha₄, hstack₄, _⟩ :=
      LeavesAlone.forM (fun _ => checkReserved_leavesAlone) claims.values hchecks
    have hinner := hentered.then_alike ha₄ hstack₄
    have hadvances := ha₂.advances.trans hinner.advances
    obtain ⟨hworks', ha', htakes⟩ :=
      henters.works.handed hopened hadvances hinner.after (head_having _ _) (.of_nil rfl rfl) hclose
    -- Inside the enum nothing is said about types and no symbol is declared.
    have haccounts : Ledger.Accounts [] a₁.ledger a'.ledger [] [] := by
      obtain ⟨uses, names, haccounts, huses, hnames⟩ := hinner.brings
      have huses : uses = [] := huses.symm.eq_nil
      have hnames : names = [] := List.eq_nil_iff_forall_not_mem.mpr fun x hx => by
        cases (hnames x).mpr (.inr hx)
      rwa [huses, hnames, ha₂.ledger, ← ha'.ledger] at haccounts
    have hbrings := henters.brings
    rw [having_empty] at hbrings
    have hall : Enters [] p e u a _ _ a' := ⟨(append_assoc u _ _) ▸ hworks',
      (henters.advances.trans hadvances).trans ha'.advances,
      hbrings.child hopened.opens htakes haccounts (.refl _) (fun _ => .rfl) rfl⟩
    refine .kept hall (.kept hkept) rfl rfl fun hlog => ?_
    have hle := henters.advances.log
    have hle₂ := ha₂.log
    have hle₃ := hentered.advances.log
    have hle₄ := ha₄.log
    have hle' := ha'.log
    rw [hquiet (by omega)]

end Assembly

end ProtobufSchema
