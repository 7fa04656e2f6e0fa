import ProtobufSchema.Proofs.EnteredDeclarations

/-! Children that are entered in the open element: recorded assignments, and elements that are
opened and closed again. -/

namespace ProtobufSchema

open List hiding head
open Name (join IsSegment)
open ScopeStack (Place)
open Assembly Element

variable {options : List Assignment}

namespace Element

variable (block? : Option Block) (raws : List RawOption) (e : Element)

def Head.isLeaf : Head → Bool
  | file _ | message _ _ | service _ => false
  | _ => true

def noting (block? : Option Block) (raws : List RawOption) (e : Element) : Element :=
  match block? with
  | some (.oneof index) => e.awaitingAt index raws
  | _ => e.having { raws := raws }

theorem head_noting : (e.noting block? raws).head = e.head := by
  unfold noting
  split
  · cases e <;> rfl
  · exact head_having _ e

theorem PartsDistinct.noting {e : Element} (h : e.PartsDistinct) (block? : Option Block)
    (raws : List RawOption) : (e.noting block? raws).PartsDistinct := by
  unfold Element.noting
  split
  · cases e <;> exact h
  · exact h.having (.of_nil rfl rfl)

theorem noting_nil : e.noting block? [] = e := by
  unfold noting
  split
  · cases e with
    | message m =>
      have hsame : m.oneofs.modify ‹_›
          (fun o => { o with options := Options.awaiting .oneof o.options [] }) =
          m.oneofs := modify_id _ _
      rw [awaitingAt, hsame]
      cases m
      rfl
    | _ => rfl
  · exact having_empty e

theorem like_noting : e.Like (e.noting block? raws) := by
  unfold noting
  split
  · cases e with
    | message m => exact like_message rfl rfl rfl rfl rfl rfl rfl
    | _ => exact .refl _
  · exact like_having e raws [] []

end Element

namespace Assembly

open ProtobufSchema.Tree

variable {p inner : Place} {e e' c c' : Element} {u v w : Usage} {d d' : Contents}
  {a a' a'' : Assembly} {span : Span} {comment? : Option String} {path : Path} {r : PUnit}
  {seen seen' : List String} {ms : List Mention}
variable {x : Assignment} {a₂ : Assembly}

theorem attachOption_noting {block? : Option Block} {raw : RawOption}
    (h : ScopeStack.attachOption e block? raw = .ok e') : e' = e.noting block? [raw] := by
  rcases block? with _ | (extendee | index)
  · exact ScopeStack.attachOption_having h
  · cases e <;> simp [ScopeStack.attachOption] at h
  · exact ScopeStack.attachOption_oneof h

theorem openElement_alike (h : openElement c span comment? a = .ok path a') :
    a.stack.openElement c = .ok a'.stack ∧ path = a'.stack.path ∧ Alike a a' ∧
      a'.claims = a.claims := by
  obtain ⟨_, _, hstack, h⟩ := bind_ok h
  obtain ⟨s, hopen, rfl⟩ := onStack_ok hstack
  cases h
  exact ⟨hopen, rfl, ⟨rfl, rfl, rfl, rfl, le_refl _⟩, rfl⟩

theorem close_alike (h : close a = .ok r a') : a.stack.close = .ok a'.stack ∧ Alike a a' := by
  obtain ⟨s, hclose, rfl⟩ := onStack_ok h
  exact ⟨hclose, ⟨rfl, rfl, rfl, rfl, le_refl _⟩⟩

theorem Works.record {r : Unit} (h : a.Works p e u) (hrun : addOption.record x a = .ok r a') :
    a'.Works p (e.noting p.block? (waiting [x])) u ∧ Alike a a' := by
  unfold addOption.record at hrun
  cases hraw : x.raw with
  | error err =>
    rw [hraw] at hrun
    cases hrun
  | ok raw =>
    rw [hraw] at hrun
    obtain ⟨_, a₁, hopen, hclose⟩ := bind_ok hrun
    obtain ⟨hs, _, ha₁, _⟩ := openElement_alike hopen
    obtain ⟨hs', ha'⟩ := close_alike hclose
    obtain ⟨e', hattach, hat⟩ := h.stack.addOption hs hs'
    obtain rfl := attachOption_noting hattach
    have hwaiting : waiting [x] = [raw] := by
      simp [waiting, Assignment.awaited, hraw, Except.toOption]
    rw [hwaiting]
    refine ⟨h.alike (ha₁.trans ha') hat (h.parts.noting _ _) ?_, ha₁.trans ha'⟩
    rw [head_noting]
    exact h.container

theorem Works.addOption (h : a.Works p e u) (hrun : addOption seen x a = .ok seen' a') :
    a'.Works p (e.noting p.block? (waiting (unrepeated seen [x]))) u ∧ Alike a a' ∧
      (∀ xs, unrepeated seen (x :: xs) = unrepeated seen [x] ++ unrepeated seen' xs) ∧
      (a'.log.size = a.log.size → unrepeated seen [x] = [x]) := by
  unfold Assembly.addOption at hrun
  cases hname : x.simpleName? with
  | none =>
    rw [hname] at hrun
    obtain ⟨_, _, hrecord, hdone⟩ := bind_ok hrun
    cases hdone
    obtain ⟨hworks, ha⟩ := h.record hrecord
    have hkept : unrepeated seen [x] = [x] := unrepeated_cons_of_none hname
    rw [hkept]
    exact ⟨hworks, ha, fun xs => unrepeated_cons_of_none hname, fun _ => rfl⟩
  | some name =>
    rw [hname] at hrun
    by_cases hseen : name ∈ seen
    · have hleft (xs : List Assignment) : unrepeated seen (x :: xs) = unrepeated seen xs := by
        rw [unrepeated_cons_of_named hname, if_pos hseen]
      simp only [contains_iff_mem.mpr hseen] at hrun
      obtain ⟨_, _, hreport, hdone⟩ := bind_ok hrun
      cases hreport
      cases hdone
      refine ⟨?_, report_alike _, ?_, ?_⟩
      · rw [hleft, unrepeated, waiting, map_nil, noting_nil]
        exact h.stay (report_alike _) rfl
      · intro xs
        rw [hleft, hleft, unrepeated, nil_append]
      · simp [Log.report, Log.size]
    · have hkept (xs : List Assignment) : unrepeated seen (x :: xs) =
          x :: unrepeated (name :: seen) xs := by
        rw [unrepeated_cons_of_named hname, if_neg hseen]
      have hcontains : seen.contains name = false := by simpa using hseen
      simp only [hcontains] at hrun
      obtain ⟨_, _, hrecord, hdone⟩ := bind_ok hrun
      cases hdone
      obtain ⟨hworks, ha⟩ := h.record hrecord
      have hone : unrepeated seen [x] = [x] := hkept []
      rw [hone]
      exact ⟨hworks, ha, hkept, fun _ => rfl⟩

theorem waiting_append (xs ys : List Assignment) : waiting (xs ++ ys) = waiting xs ++ waiting ys :=
  map_append

theorem Works.addOptions {xs : List Assignment} (h : a.Works p e u) (hp : p.block? = none)
    (hrun : addOptions seen xs a = .ok seen' a') :
    a'.Works p (e.having { raws := waiting (unrepeated seen xs) }) u ∧ Alike a a' ∧
      (a'.log.size = a.log.size → unrepeated seen xs = xs) := by
  induction xs generalizing a e seen with
  | nil =>
    cases hrun
    exact ⟨(having_empty e).symm ▸ h, .refl _, fun _ => rfl⟩
  | cons x xs ih =>
    obtain ⟨seen₁, a₁, hfirst, hrest⟩ := bind_ok hrun
    obtain ⟨hworks₁, ha₁, hsplit, hquiet₁⟩ := h.addOption hfirst
    rw [hp] at hworks₁
    obtain ⟨hworks, ha, hquiet⟩ := ih (e := e.having _) hworks₁ hrest
    refine ⟨?_, ha₁.trans ha, fun hlog => ?_⟩
    · rw [hsplit, waiting_append]
      rw [having_append] at hworks
      exact hworks
    · have hle₁ := ha₁.log
      have hle := ha.log
      rw [hsplit, hquiet₁ (by omega), hquiet (by omega), singleton_append]

/-! ### Children -/

theorem Works.notes (h : a.Works p e u) (hnotes : Notes ms a a') : a'.Works p e u := by
  obtain ⟨more, rfl, _⟩ := hnotes
  exact { h with sound := ⟨h.sound.tree, h.sound.cache, h.sound.taken⟩ }

theorem Notes.advances (h : Notes ms a a') : Advances a a' := by
  obtain ⟨more, rfl, _⟩ := h
  exact ⟨rfl, rfl, rfl, prefix_rfl, fun _ _ _ _ => .rfl, le_refl _⟩

/-- A child is open in an element, in the place where it will be. -/
structure Opened (p : Place) (e : Element) (tag : Tag) (inner : Place) (c : Element) : Prop where
  opens : p.Opens e tag inner
  tag : ScopeStack.childTag? e p.block? c = some tag

theorem Works.openElement (h : a.Works p e u) (hc : c.head ≠ .option)
    (hrun : openElement c span comment? a = .ok path a') :
    ∃ tag inner, Opened p e tag inner c ∧ path = inner.path ∧ inner.Holds c [] a'.stack ∧
      Alike a a' ∧
      a'.claims = a.claims := by
  obtain ⟨hs, rfl, ha, hclaims⟩ := openElement_alike hrun
  obtain ⟨tag, inner, htag, hopens, hholds⟩ := h.stack.openElement hc hs
  exact ⟨tag, inner, ⟨hopens, htag⟩, hholds.path hopens.block?, hholds, ha, hclaims⟩

theorem Works.handed {tag : Tag} (h : a.Works p e u) (hopened : Opened p e tag inner c)
    (hadvances : Advances a a₂) (hworks : a₂.Works inner c' v) (hhead : c'.head = c.head)
    (hparts : (c'.contentsIn p.block?).PartsDistinct) (hrun : close a₂ = .ok r a') :
    a'.Works p (e.having (c'.contentsIn p.block?)) v ∧ Alike a₂ a' ∧
      e.Takes tag (c'.inBlock p.block?) (e.having (c'.contentsIn p.block?)) := by
  obtain ⟨hs, ha'⟩ := close_alike hrun
  have htag := (ScopeStack.childTag?_congr hhead).trans hopened.tag
  obtain ⟨counts, _, hholds⟩ := hworks.stack
  obtain ⟨e', hattach, hat⟩ := hopened.opens.close htag hholds hs
  rw [ScopeStack.attach_having htag] at hattach
  cases hattach
  refine ⟨hworks.alike ha' hat (h.parts.having hparts) ?_, ha', ScopeStack.takes_having htag⟩
  rw [head_having, hadvances.scope, SymbolTable.kind?_of_extends hadvances.nodes h.scope]
  exact h.container

theorem Works.inside (h : a.Works p e u) (hc : c.head ≠ .option)
    (hcontainer : c.head.isContainer = false) (hsize : ∀ t, c.size t = 0) (hparts : c.PartsDistinct)
    (hrun : Assembly.openElement c span comment? a = .ok path a') :
    ∃ tag inner, Opened p e tag inner c ∧ path = inner.path ∧ a'.Works inner c u ∧ Alike a a' := by
  obtain ⟨tag, inner, hopened, hpath, hholds, ha, _⟩ := h.openElement hc hrun
  refine ⟨tag, inner, hopened, hpath,
    h.alike ha ⟨[], ScopeStack.fits_nil hsize, hholds⟩ hparts ?_, ha⟩
  rw [hcontainer]
  exact fun hno => nomatch hno

theorem partsDistinct_contentsIn_of_isLeaf (hleaf : c.head.isLeaf = true) (block? : Option Block) :
    (c.contentsIn block?).PartsDistinct := by
  cases c with
  | field x =>
    simp only [contentsIn, Contents.ofField]
    split <;> exact .of_nil rfl rfl
  | file _ => cases hleaf
  | message _ => cases hleaf
  | service _ => cases hleaf
  | _ => exact .of_nil rfl rfl

theorem partsDistinct_of_isLeaf (hleaf : c.head.isLeaf = true) : c.PartsDistinct := by
  cases c with
  | file _ => cases hleaf
  | message _ => cases hleaf
  | _ => trivial

theorem not_isContainer_of_isLeaf {h : Head} (hleaf : h.isLeaf = true) : h.isContainer = false := by
  cases h <;> first | rfl | cases hleaf

/-- What a child without children says about types is mentioned in the references, and if it brings
a name that is taken. -/
structure Accounted (ms : List Mention) (a : Assembly) (uses : List (Placed Use))
    (names : List (String × Definition)) : Prop where
  mentions : uses.flatMap Placed.useMentions = ms
  settled : ∀ w ∈ uses, w.value.IsSettled a.symbols
  taken : ∀ full d, (full, d) ∈ names → d.symbolKind? = none ∧ a.ledger.Takes full

theorem Accounted.nothing (a : Assembly) : Accounted [] a [] [] := ⟨rfl, by simp, by simp⟩

theorem Works.leaf {a₁ a₃ : Assembly} (h : a.Works p e u) (hc : c.head ≠ .option)
    (hleaf : c.head.isLeaf = true) (hsize : ∀ t, c.size t = 0)
    (hopen : Assembly.openElement c span comment? a = .ok path a₁) (hnotes : Notes ms a₁ a₂)
    (hoptions : Assembly.addOptions seen options a₂ = .ok seen' a₃) (hclose : close a₃ = .ok r a')
    (htold : ∀ tag c', c' = (c.having { raws := waiting (unrepeated seen options) }).inBlock
      p.block? → Accounted ms a (c'.childUses a.here path) (c'.childNames a.here path tag)) :
    Enters [] p e u a ((c.having { raws := waiting (unrepeated seen options) }).contentsIn p.block?)
      {} a' ∧
      (a'.log.size = a.log.size → unrepeated seen options = options) := by
  obtain ⟨tag, inner, hopened, rfl, hworks, ha₁⟩ :=
    h.inside hc (not_isContainer_of_isLeaf hleaf) hsize (partsDistinct_of_isLeaf hleaf) hopen
  obtain ⟨hworks₃, ha₃, hquiet⟩ := (hworks.notes hnotes).addOptions hopened.opens.block? hoptions
  have hadvances := (ha₁.advances.trans hnotes.advances).trans ha₃.advances
  have hhead : (c.having { raws := waiting (unrepeated seen options) }).head = c.head :=
    head_having _ c
  obtain ⟨hworks', ha', htakes⟩ := h.handed hopened hadvances hworks₃ hhead
    (partsDistinct_contentsIn_of_isLeaf (hhead ▸ hleaf) _) hclose
  refine ⟨⟨by rwa [Usage.append_empty], hadvances.trans ha'.advances,
    .of_takes hopened.opens htakes ?_⟩, ?_⟩
  · obtain ⟨hms, hsettled, htaken⟩ := htold tag _ rfl
    rw [← ha₁.symbols] at hsettled
    rw [← ha₁.ledger] at htaken
    rw [ha'.ledger, ha₃.ledger, ← ha₁.ledger]
    exact hnotes.accounts hworks.sound hworks.scope hms hsettled htaken
  · intro hlog
    have hle₂ := (ha₁.advances.trans hnotes.advances).log
    have hle₃ := ha₃.log
    have hle' := ha'.log
    exact hquiet (by omega)

/-! ### Fields -/

end Assembly

namespace Tree

variable {options : List Assignment} {x : FieldDescriptor}
variable {seen : List String} {a : Assignment}

theorem jsonNameOf?_eq_none (h : ∀ y ∈ options, y.simpleName? ≠ some "json_name") :
    jsonNameOf? options = none := by
  rw [jsonNameOf?, findSome?_eq_none_iff]
  intro y hy
  split
  · next hname _ => exact absurd hname (h y hy)
  · rfl

theorem defaultOf?_eq_none (h : ∀ y ∈ options, y.simpleName? ≠ some "default") :
    defaultOf? options = none := by
  rw [defaultOf?, findSome?_eq_none_iff]
  intro y hy
  exact if_neg (h y hy)

theorem findSome?_filter_of {α β : Type} {f : α → Option β} {q : α → Bool}
    (h : ∀ y, q y = false → f y = none) (ys : List α) :
    (ys.filter q).findSome? f = ys.findSome? f := by
  induction ys with
  | nil => rfl
  | cons y ys ih =>
    cases hq : q y with
    | true => rw [filter_cons_of_pos hq, findSome?_cons, findSome?_cons, ih]
    | false => rw [filter_cons_of_neg (by simp [hq]), findSome?_cons, h y hq, ih]

theorem storing_filter (options : List Assignment) (x : FieldDescriptor) :
    storing (options.filter isStored) x = storing options x := by
  have hjson : jsonNameOf? (options.filter isStored) = jsonNameOf? options := by
    refine findSome?_filter_of (fun y hy => ?_) options
    split
    · next hname _ => simp [isStored, hname] at hy
    · rfl
  have hdefault : defaultOf? (options.filter isStored) = defaultOf? options := by
    refine findSome?_filter_of (fun y hy => if_neg fun hname => ?_) options
    simp [isStored, hname] at hy
  rw [storing, hjson, hdefault, storing]

theorem storing_jsonName {content : Bytes} (hname : a.simpleName? = some "json_name")
    (hvalue : a.value = .string content) (h : ∀ y ∈ options, y.simpleName? ≠ some "json_name") :
    storing options { x with jsonName? := some (Utf8.decodeLossy content) } =
      storing (a :: options) x := by
  have hjson : jsonNameOf? (a :: options) = some (Utf8.decodeLossy content) := by
    simp [jsonNameOf?, hname, hvalue]
  have hdefault : defaultOf? (a :: options) = defaultOf? options := by simp [defaultOf?, hname]
  rw [storing, storing, hjson, hdefault, jsonNameOf?_eq_none h]
  rfl

theorem storing_default (hname : a.simpleName? = some "default")
    (h : ∀ y ∈ options, y.simpleName? ≠ some "default") :
    storing options { x with defaultValue? := some (a.value.defaultText x.type?) } =
      storing (a :: options) x := by
  have hdefault : defaultOf? (a :: options) = some a.value := by simp [defaultOf?, hname]
  have hjson : jsonNameOf? (a :: options) = jsonNameOf? options := by simp [jsonNameOf?, hname]
  rw [storing, storing, hjson, hdefault, defaultOf?_eq_none h]
  rfl

theorem unrepeated_isStored (seen : List String) (options : List Assignment) :
    unrepeated seen (options.filter isStored) = (unrepeated seen options).filter isStored :=
  unrepeated_filter (q := fun n? => n? == some "default" || n? == some "json_name")
    (fun _ _ => .rfl) options

/-- What was seen among the assignments that are stored in a field does not matter to the others. -/
theorem unrepeated_not_isStored (h : ∀ n ∈ seen, n = "default" ∨ n = "json_name")
    (options : List Assignment) : unrepeated seen (options.filter (!Assembly.isStored ·)) =
      (unrepeated [] options).filter (!Assembly.isStored ·) := by
  refine unrepeated_filter (q := fun n? => !(n? == some "default" || n? == some "json_name"))
    ?_ options
  intro name hname
  have hnot : name ∉ seen := by
    intro hmem
    rcases h name hmem with rfl | rfl <;> simp at hname
  simp [hnot]

theorem unrepeated_eq_self
    (hstored : (unrepeated seen options).filter isStored = options.filter isStored)
    (hothers : (unrepeated seen options).filter (!Assembly.isStored ·) =
      options.filter (!Assembly.isStored ·)) : unrepeated seen options = options := by
  refine (unrepeated_sublist seen options).eq_of_length ?_
  rw [length_eq_length_filter_add isStored, hstored, hothers,
    ← length_eq_length_filter_add isStored]

end Tree

namespace Assembly

open ProtobufSchema.Tree

variable {p : Place} {e : Element} {u : Usage} {a a' : Assembly}

theorem applyStored_cases {field : FieldDescriptor} {r : FieldDescriptor × List String}
    (h : applyStored options field a = .ok r a') :
    Alike a a' ∧ a'.stack = a.stack ∧ r.1 = storing (unrepeated [] options) field ∧
      (∀ n ∈ r.2, n = "default" ∨ n = "json_name") ∧
      (a'.log.size = a.log.size → (unrepeated [] options).filter isStored =
        options.filter isStored) := by
  unfold applyStored at h
  rw [← storing_filter, ← unrepeated_isStored]
  have hxs : ∀ x ∈ options.filter isStored, isStored x = true := fun x hx => (mem_filter.mp hx).2
  have hseen : ∀ n ∈ ([] : List String), n = "default" ∨ n = "json_name" := by simp
  generalize options.filter isStored = xs at h hxs ⊢
  generalize ([] : List String) = seen at h hseen ⊢
  induction xs generalizing a field seen with
  | nil =>
    cases h
    exact ⟨.refl _, rfl, rfl, hseen, fun _ => rfl⟩
  | cons x xs ih =>
    obtain ⟨hx, hxs⟩ := forall_mem_cons.mp hxs
    rw [foldlM_cons] at h
    obtain ⟨⟨field', seen'⟩, a₁, hstep, hrest⟩ := bind_ok h
    have hname : x.simpleName? = some "default" ∨ x.simpleName? = some "json_name" := by
      simpa [isStored] using hx
    by_cases hrepeated : (x.simpleName?.getD "") ∈ seen
    · have hleft : unrepeated seen (x :: xs) = unrepeated seen xs := by
        rcases hname with hname | hname <;>
          rw [unrepeated_cons_of_named hname, if_pos (by simpa [hname] using hrepeated)]
      simp only [storeAssignment, contains_iff_mem.mpr hrepeated, if_true] at hstep
      cases hstep
      obtain ⟨ha, hstack, hfield, hnames, _⟩ := ih hxs seen hrest hseen
      have hmore := ha.log
      rw [hleft]
      refine ⟨(report_alike _).trans ha, hstack, hfield, hnames, fun hlog => ?_⟩
      simp [Log.report, Log.size] at hmore hlog
      omega
    · have hcontains : seen.contains (x.simpleName?.getD "") = false := by simpa using hrepeated
      simp only [storeAssignment, hcontains, Bool.false_eq_true, if_false] at hstep
      rcases hname with hname | hname
      · simp only [hname, Option.getD_some] at hstep hrepeated
        cases hstep
        obtain ⟨ha, hstack, hfield, hnames, hquiet⟩ :=
          ih hxs _ hrest (forall_mem_cons.mpr ⟨.inl rfl, hseen⟩)
        rw [unrepeated_cons_of_named hname, if_neg hrepeated]
        refine ⟨ha, hstack, ?_, hnames, fun hlog => by rw [hquiet hlog]⟩
        rw [hfield, storing_default hname (simpleName?_ne_of_mem_unrepeated mem_cons_self)]
      · simp only [hname, Option.getD_some] at hstep hrepeated
        cases hvalue : x.value with
        | string content =>
          simp only [hvalue] at hstep
          cases hstep
          obtain ⟨ha, hstack, hfield, hnames, hquiet⟩ :=
            ih hxs _ hrest (forall_mem_cons.mpr ⟨.inr rfl, hseen⟩)
          rw [unrepeated_cons_of_named hname, if_neg hrepeated]
          refine ⟨ha, hstack, ?_, hnames, fun hlog => by rw [hquiet hlog]⟩
          rw [hfield,
            storing_jsonName hname hvalue (simpleName?_ne_of_mem_unrepeated mem_cons_self)]
        | _ =>
          simp only [hvalue] at hstep
          cases hstep

end Assembly

inductive FieldContext.Fits : FieldContext → Option Block → Prop
  | message : Fits .message none
  | oneof (index : Nat) : Fits .oneof (some (.oneof index))
  | extend (extendee : String) : Fits (.extend extendee) (some (.extend extendee))

def FieldContext.extendee? : FieldContext → Option String
  | .extend extendee => some extendee
  | .message | .oneof => none

theorem FieldContext.Fits.inBlock {context : FieldContext} {block? : Option Block}
    (h : context.Fits block?) {x : FieldDescriptor} (hx : x.extendee? = none) :
    ∃ y, (field x).inBlock block? = .field y ∧
      y.name = x.name ∧ y.use = .field x.type? x.typeName? context.extendee? := by
  cases h with
  | extend extendee => exact ⟨_, rfl, rfl, rfl⟩
  | _ => exact ⟨_, rfl, rfl, by simp [FieldDescriptor.use, hx, extendee?]⟩

namespace Assembly

open ProtobufSchema.Tree

variable {p : Place} {e : Element} {u : Usage} {a a' : Assembly}

theorem Works.addField {field : FieldDescriptor} {options : List Assignment} {span : Span}
    {comment? : Option String} {referTo : Path → Assemble Unit} {context : FieldContext}
    {r : Unit} (h : a.Works p e u)
    (hrun : addField field options span comment? referTo a = .ok r a')
    (hfits : context.Fits p.block?) (hextendee : field.extendee? = none)
    (hname : IsSegment field.name) (htaken : (a.scope, field.name) ∈ a.taken)
    (hsettled : Use.IsSettled a.symbols (.field field.type? field.typeName? context.extendee?))
    (hrefer : ∀ ⦃path r a₁ a₂⦄, referTo path a₁ = .ok r a₂ →
      Notes (Placed.useMentions ⟨path, a₁.here, a₁.here,
      .field field.type? field.typeName? context.extendee?⟩) a₁ a₂) :
    Enters [] p e u a
      (.ofField p.block? ((withOptions (unrepeated [] options) field).inBlock p.block?)) {} a' ∧
      (a'.log.size = a.log.size → unrepeated [] options = options) := by
  obtain ⟨⟨x, seen⟩, a₀, hstored, hrun⟩ := bind_ok hrun
  obtain ⟨path, a₁, hopen, hrun⟩ := bind_ok hrun
  obtain ⟨_, a₂, hnotes, hrun⟩ := bind_ok hrun
  obtain ⟨_, a₃, hoptions, hclose⟩ := bind_ok hrun
  obtain ⟨ha, hstack, hx, hseen, hquiet⟩ := applyStored_cases hstored
  obtain rfl : x = storing (unrepeated [] options) field := hx
  have hnoted := hrefer hnotes
  rw [(openElement_alike hopen).2.2.1.here_eq] at hnoted
  obtain ⟨henters, hquiet'⟩ :=
    (h.stay ha hstack).leaf (by simp [head]) rfl (fun _ => rfl) hopen hnoted hoptions hclose (by
      intro tag c hc
      obtain ⟨y, hy, hyname, hyuse⟩ :=
          hfits.inBlock (x := { storing (unrepeated [] options) field with
        options := Options.awaiting .field field.options
          (waiting (unrepeated seen (options.filter fun a => !isStored a))) }) hextendee
      obtain rfl : c = .field y := hc.trans hy
      change y.use = .field field.type? field.typeName? context.extendee? at hyuse
      refine ⟨by simp [childUses, hyuse], ?_, ?_⟩
      · simp only [childUses, forall_mem_singleton, hyuse, ha.symbols]
        exact hsettled
      · intro full d hd
        simp only [childNames] at hd
        split at hd
        · cases mem_singleton.mp hd
          refine ⟨rfl, a₀.scope, field.name, ?_, hname, by rw [hyname]; rfl⟩
          rw [ha.ledger, ha.scope]
          exact htaken
        · cases hd)
  rw [unrepeated_not_isStored hseen] at henters hquiet'
  refine ⟨henters.after_alike ha, fun hlog => ?_⟩
  have hle := ha.log
  have hle' := henters.advances.log
  exact unrepeated_eq_self (hquiet (by omega)) (hquiet' (by omega))

end Assembly

end ProtobufSchema
