import ProtobufSchema.Proofs.FollowedDeclarations

/-! Declarations with members. A body is a scope in which nothing is in use at first, and blocks
enter what they hold in the element around them; all for any members that can be followed. -/

namespace ProtobufSchema

open Name (join IsSegment)
open ScopeStack (Place)
open Element Contents

variable {m : MessageDescriptor} {path : Path}

theorem Element.childUses_message {scope : String} {block? : Option Block}
    (h : m.isMapEntry = false) :
    ((message m).inBlock block?).childUses scope path =
      (message m).uses (join scope m.name) path := by
  have hwritten : m.writtenScope scope = join scope m.name := by
    rw [MessageDescriptor.writtenScope, h]
    rfl
  simp only [inBlock, childUses, uses]
  rw [m.placedFields_eq, hwritten]

theorem Element.mem_childNames_message {scope : String}
    {block? : Option Block} {tag : Tag} {x : String × Definition} :
    x ∈ ((message m).inBlock block?).childNames scope path tag ↔
      x ∈ (join scope m.name, .message path) :: (message m).names (join scope m.name) path := by
  cases m
  rw [List.mem_cons, or_comm]
  simp only [inBlock, childNames, names, MessageDescriptor.definitions, List.mem_append,
    List.mem_singleton]
  rfl

namespace Assembly

open ProtobufSchema.Tree

/-! ### Scopes -/

theorem within_ok {a a' : Assembly} {node : Nat} {body : Assemble Unit} {u : Unit}
    (h : within node body a = .ok u a') :
    ∃ a₁, body { a with scope := node } = .ok () a₁ ∧ a' = { a₁ with scope := a.scope } := by
  have h := get_ok h
  obtain ⟨_, _, hset, h⟩ := bind_ok h
  cases hset
  obtain ⟨_, a₁, hbody, h⟩ := bind_ok h
  cases h
  exact ⟨a₁, hbody, rfl⟩

section Scopes

variable {p inner : Place} {e c c' : Element} {u v w : Usage} {d : Contents}
  {a₀ a a₁ a₂ a' : Assembly} {name : String} {kind : SymbolKind} {node : Nat} {tag : Tag}

theorem Works.enterScope {span : Span} {comment? : Option String} (h : a.Works p e u)
    (hvacant : a.IsVacant name kind node) (hc : c.head ≠ .option) (hsize : ∀ t, c.size t = 0)
    (hkind : c.head.isContainer = true → kind.isContainer = true) (hparts : c.PartsDistinct)
    (claims : Claims) (hnumbers : (claims.fields.map (·.number)).Nodup)
    (hopen : Assembly.openElement c span comment? a = .ok path a₁) :
    ∃ tag inner, Opened p e tag inner c ∧
      Works inner c ⟨[], claims.fields.map (·.number)⟩ { a₁ with scope := node, claims := claims } ∧
      Alike a a₁ ∧ a₁.claims = a.claims := by
  obtain ⟨tag, inner, hopened, _, hholds, ha, hclaims⟩ := h.openElement hc hopen
  have hsound : a₁.ledger.IsSound := ha.ledger ▸ h.sound
  refine ⟨tag, inner, hopened,
    ⟨⟨[], ScopeStack.fits_nil hsize, hholds⟩, hsound, ?_, ?_, ?_, rfl, .nil, hnumbers,
    hparts⟩, ha, hclaims⟩
  · have hnode : node < a.ledger.size := SymbolTable.lt_length_of_kind? hvacant.kind?
    rwa [← ha.ledger] at hnode
  · intro hhead
    simp only [ha.symbols, hvacant.kind?]
    exact hkind hhead
  · intro s
    refine ⟨fun huse => absurd ?_ (hvacant.empty s), fun hmem => nomatch hmem⟩
    exact (ha.inUse node s).mp huse

/-- When the body of a symbol is left, the scope around it is as it was, with one more child. It
brings the name of the symbol, and all that was added in the body. -/
theorem Enters.leaveScope {claims : Claims} {r : PUnit} {x : Definition}
    (hfirst : Enters [(join a.here name, kind)] p e u a₀ d v a)
    (hvacant : a.IsVacant name kind node) (hfresh : a₀.ledger.size ≤ node)
    (hopened : Opened p (e.having d) tag inner c) (ha₁ : Alike a a₁)
    (hbody : Advances { a₁ with scope := node, claims := claims } a₂) (hworks : a₂.Works inner c' w)
    (hbrings : Ledger.Brings [] (join a.here name) inner.path a.ledger c a₂.ledger c')
    (hempty : c.uses (join a.here name) inner.path = [] ∧
      c.names (join a.here name) inner.path = [])
    (hhead : c'.head = c.head) (hx : x.symbolKind? = some kind)
    (huses : (c'.inBlock p.block?).childUses a.here inner.path =
      c'.uses (join a.here name) inner.path)
    (hnames : ∀ y, y ∈ (c'.inBlock p.block?).childNames a.here inner.path tag ↔
      y ∈ (join a.here name, x) :: c'.names (join a.here name) inner.path)
    (hparts : (c'.contentsIn p.block?).PartsDistinct) (outer : Claims)
    (houter : outer.fields.map (·.number) = (u ++ v).numbers)
    (hclose : close { a₂ with scope := a₁.scope, claims := outer } = .ok r a') :
    Enters [] p e u a₀ (d ++ c'.contentsIn p.block?) v a' := by
  obtain ⟨hs, ha'⟩ := close_alike hclose
  have htag := (ScopeStack.childTag?_congr hhead).trans hopened.tag
  obtain ⟨counts, _, hholds⟩ := hworks.stack
  obtain ⟨e', hattach, hat⟩ := hopened.opens.close htag hholds hs
  rw [ScopeStack.attach_having htag] at hattach
  cases hattach
  have hledger : a'.ledger = a₂.ledger := ha'.ledger
  have hscope : a'.scope = a.scope := ha'.scope.trans ha₁.scope
  have hnodes : a.symbols.nodes <+: a'.symbols.nodes := by
    rw [ha'.symbols, ← ha₁.symbols]
    exact hbody.nodes
  have huse {n : Nat} (hn : n < a.ledger.size) (hne : n ≠ node) (s : String) :
      a'.InUse n s ↔ a.InUse n s := by
    rw [ha'.inUse, ← ha₁.inUse]
    exact hbody.elsewhere n (by rwa [← ha₁.ledger] at hn) hne s
  have hbefore := hfirst.after
  have hsound : a'.ledger.IsSound := hledger ▸ hworks.sound
  have hhere : a'.here = a.here := by
    rw [here, hscope]
    exact Ledger.fullName_of_grown hbefore.sound hsound hnodes hbefore.scope
  refine ⟨⟨?_, hsound, ?_, ?_, ?_, ?_, hbefore.names_nodup, hbefore.numbers_nodup, ?_⟩, ?_, ?_⟩
  · rw [← having_append]
    exact hat
  · rw [hscope]
    exact lt_of_lt_of_le hbefore.scope hnodes.length_le
  · rw [head_having, hscope, SymbolTable.kind?_of_extends hnodes hbefore.scope]
    have hcontainer := hbefore.container
    rwa [head_having] at hcontainer
  · intro s
    rw [hscope, huse hbefore.scope hvacant.ne.symm]
    exact hbefore.names s
  · rw [ha'.claims]
    exact houter
  · rw [← having_append]
    exact hbefore.parts.having hparts
  · refine ⟨?_, hhere.trans hfirst.advances.here, ?_, hfirst.advances.nodes.trans hnodes, ?_, ?_⟩
    · rw [hscope, hfirst.advances.scope]
    · rw [ha'.dialect, ← hfirst.advances.dialect, ← ha₁.dialect]
      exact hbody.dialect
    · intro n hn hne s
      rw [huse (lt_of_lt_of_le hn hfirst.advances.nodes.length_le) (by omega)]
      exact hfirst.advances.elsewhere n hn hne s
    · exact ((hfirst.advances.log.trans ha₁.log).trans hbody.log).trans ha'.log
  · obtain ⟨uses, names, haccounts, hadded, hbrought⟩ := hbrings
    rw [hempty.1] at hadded
    rw [hledger, ← having_append]
    have hfirst' := hfirst.brings
    rw [← hfirst.advances.here] at hfirst' ⊢
    refine hfirst'.child hopened.opens (ScopeStack.takes_having htag) haccounts
      (huses ▸ hadded) ?_ hx
    intro y
    rw [hnames, List.mem_cons, hbrought, hempty.2]
    simp

end Scopes

/-! ### Messages -/

section Messages

variable {p : Place} {e : Element} {u v : Usage} {d : Contents} {a₀ a a' : Assembly} {name : String}
  {node : Nat} {ms : List Member} {r : Unit} {span : Span} {comment? : Option String}

/-- Whatever message the members are declared in, what is kept of them is entered in it. -/
def MembersFollow (ms : List Member) : Prop :=
  ∀ ⦃p : Place⦄ ⦃m : MessageDescriptor⦄ ⦃u : Usage⦄ ⦃a a' : Assembly⦄ ⦃r : Unit⦄, p.block? = none →
    a.Works p (.message m) u → walkMembers ms a = .ok r a' →
    Follows p (.message m) u a ms (SiftsAll Member.Sifts Member.usage u ms)
      (Member.contentsFrom a.dialect a.here m.oneofs.length) Member.usage a'

theorem checkField_leavesAlone (c : Claims) (f : ClaimedField) : LeavesAlone (checkField c f) := by
  unfold checkField
  cases c.ranges.rangeOf? f.number with
  | some r => exact (LeavesAlone.report _ _ _).bind fun _ => checkReserved_leavesAlone
  | none => exact checkReserved_leavesAlone

theorem addOptionalOneofs_uses (used : List String) (oneofs : List OneofDescriptor)
    (fs : List FieldDescriptor) :
    (addOptionalOneofs used oneofs fs).1.map FieldDescriptor.use = fs.map FieldDescriptor.use := by
  induction fs generalizing used oneofs with
  | nil => rfl
  | cons f fs ih =>
    unfold addOptionalOneofs
    split
    · simp only [List.map_cons, ih]
      rfl
    · simp [ih]

theorem finishMessage_works {inner : Place} (h : a.Works inner e u)
    (hrun : finishMessage a = .ok r a') :
    ∃ m, e = .message m ∧ a'.Works inner (.message m.withOptionalOneofs) u ∧ Alike a a' ∧
      (message m).Like (.message m.withOptionalOneofs) := by
  have hrun := get_ok hrun
  obtain ⟨_, a₁, hchecks, hmodify⟩ := bind_ok hrun
  obtain ⟨ha₁, hstack, _⟩ :=
    LeavesAlone.forM (checkField_leavesAlone a.claims) a.claims.fields hchecks
  have hlike (m : MessageDescriptor) : (message m).Like (.message m.withOptionalOneofs) :=
    like_message rfl rfl (addOptionalOneofs_uses _ _ _) rfl rfl rfl rfl
  obtain ⟨m, rfl, hat, ha⟩ := (h.stay ha₁ hstack).modifyMessage hmodify hlike
  exact ⟨m, rfl, h.alike (ha₁.trans ha) hat h.parts h.container, ha₁.trans ha, hlike m⟩

theorem withOptionalOneofs_having (c : Contents) (name : String) :
    (MessageDescriptor.having c { name? := some name }).withOptionalOneofs = c.message name := by
  simp [MessageDescriptor.having, Contents.message]

theorem messageBody_enters (hmembers : MembersFollow ms)
    (hfirst : Enters [(join a.here name, .message)] p e u a₀ d v a)
    (hvacant : a.IsVacant name .message node) (hfresh : a₀.ledger.size ≤ node)
    (hrun : messageBody node name span comment? (walkMembers ms) a = .ok r a') :
    ∃ kept, SiftsAll Member.Sifts Member.usage {} ms kept ∧ Enters [] p e u a₀
        (d ++
          { messages := [(Member.contentsFrom a.dialect (join a.here name) 0 kept).message name] })
          v a' ∧
      a.log.size ≤ a'.log.size ∧ (a'.log.size = a.log.size → kept = ms) := by
  obtain ⟨path, a₁, hopen, hrun⟩ := bind_ok hrun
  have hrun := get_ok hrun
  obtain ⟨_, _, hset, hrun⟩ := bind_ok hrun
  cases hset
  obtain ⟨_, a₂, hwithin, hrun⟩ := bind_ok hrun
  obtain ⟨a₃, hbody, rfl⟩ := within_ok hwithin
  obtain ⟨_, _, hset, hclose⟩ := bind_ok hrun
  cases hset
  obtain ⟨_, a₄, hmembersRun, hfinish⟩ := bind_ok hbody
  have hnew : (message { name? := some name }).PartsDistinct := fun x hx => nomatch hx
  obtain ⟨tag, inner, hopened, hworks, ha₁, hclaims⟩ := hfirst.after.enterScope hvacant
    (by simp [head]) (fun t => by cases t <;> rfl) (fun _ => rfl) hnew .empty List.nodup_nil hopen
  have hhere : here { a₁ with scope := node, claims := .empty } = join a.here name := by
    rw [← hvacant.fullName, ← ha₁.symbols]
    rfl
  have hfollows := hmembers hopened.opens.block? hworks hmembersRun
  rw [hhere] at hfollows
  obtain ⟨kept, hkept, henters, hquiet⟩ := hfollows
  obtain ⟨m, hm, hworks₃, ha₃, hlike⟩ := finishMessage_works henters.after hfinish
  have hbrings := henters.brings
  rw [hhere] at hbrings
  have hhead := (hlike.head.trans (congrArg head hm.symm)).trans (head_having _ _)
  cases hm
  rw [withOptionalOneofs_having] at hworks₃ hlike hhead
  have hdialect : dialect { a₁ with scope := node, claims := .empty } = a.dialect := ha₁.dialect
  rw [hdialect] at hworks₃ hbrings hlike hhead
  have hbrought : Ledger.Brings [] (join a.here name) inner.path a.ledger
      (.message { name? := some name }) a₃.ledger
      (.message ((Member.contentsFrom a.dialect (join a.here name) 0 kept).message name)) := by
    rw [← ha₁.ledger, ha₃.ledger]
    exact hbrings.trans (.of_like henters.after.sound hlike)
  -- In the body the names and numbers of the message are those in use, each of them once.
  have hdistinct :
      ((Member.contentsFrom a.dialect (join a.here name) 0 kept).message name).IsDistinct := by
    refine (Member.bears_contentsFrom _ _ _ kept).isDistinct ?_ ?_ hworks₃.parts name
    · simpa [Usage.append_def] using hworks₃.names_nodup
    · simpa [Usage.append_def, Claims.empty] using hworks₃.numbers_nodup
  obtain ⟨hname, hentry⟩ := Head.message.inj hhead
  have hle₁ := ha₁.log
  have hle₂ := henters.advances.log
  have hle₃ := ha₃.log
  have hle' := (close_alike hclose).2.log
  simp only at hle₂ hle'
  refine ⟨kept, hkept, ?_, by omega, fun hlog => hquiet (by simp only; omega)⟩
  refine hfirst.leaveScope (x := .message inner.path) hvacant hfresh hopened ha₁
    (henters.advances.trans ha₃.advances) hworks₃ hbrought ⟨rfl, rfl⟩ hhead rfl ?_ (fun y => ?_) ?_
    _ ?_ hclose
  · rw [childUses_message hentry]
    rfl
  · rw [mem_childNames_message]
    rfl
  · exact ⟨by simpa [contentsIn] using hdistinct, by simp [contentsIn]⟩
  · rw [hclaims]
    exact hfirst.after.numbers

theorem messageWith_follows (hname : IsSegment name) (hmembers : MembersFollow ms)
    (hcontainer : e.head.isContainer = true) (h : a.Works p e u)
    (hrun : messageWith name span comment? (walkMembers ms) a = .ok r a') :
    Follows p e u a [⟨name, ms, span, comment?⟩] (Message.Sifts u ⟨name, ms, span, comment?⟩)
      (all fun m => { messages := [m.descriptor a.dialect a.here] }) Message.usage a' := by
  obtain ⟨node?, a₁, hdeclare, hrun⟩ := bind_ok hrun
  rcases h.declare hcontainer hname hdeclare with
    ⟨rfl, huse, ha, hstack, hlog⟩ | ⟨node, rfl, henters, hvacant, hfresh⟩
  · cases hrun
    exact .clash (.of_stay h ha hstack) hlog (.clash huse) rfl
  · rw [← henters.advances.here] at henters
    obtain ⟨kept, hkept, hbody, hle, hquiet⟩ :=
      messageBody_enters hmembers henters hvacant hfresh hrun
    rw [henters.advances.dialect, henters.advances.here] at hbody
    refine .kept hbody (.kept hkept) rfl rfl fun hlog => ?_
    have hle₁ := henters.advances.log
    rw [hquiet (by omega)]

theorem groupWith_follows {label? : Option Label} {number : Int32} {options : List Assignment}
    {context : FieldContext} (hname : IsSegment name)
    (hupper : name.toList.head?.any Char.isUpper = true) (hmembers : MembersFollow ms)
    (hfits : context.Fits p.block?) (hcontainer : e.head.isContainer = true) (h : a.Works p e u)
    (hrun : groupWith label? name number options span comment? context (walkMembers ms) a =
      .ok r a') :
    Follows p e u a [.group ⟨label?, name, number, options, ms, span, comment?⟩]
      (FieldMember.Sifts (p.block?.any Block.isExtend) u
        (.group ⟨label?, name, number, options, ms, span, comment?⟩))
      (FieldMember.contentsOf a.dialect a.here p.block?)
        (FieldMember.usage (p.block?.any Block.isExtend))
      a' := by
  have hextend := isExtend_of_fits hfits
  have husage : fieldUsage context.isExtend (groupFieldName name) number ++ { names := [name] } =
      FieldMember.usage (p.block?.any Block.isExtend)
        (.group ⟨label?, name, number, options, ms, span, comment?⟩) := by
    rw [Usage.append_def, List.append_nil, hextend]
    rfl
  rcases h.claimTyped hcontainer hname (groupFieldName_ne hupper).symm hrun with
    ⟨hclash, henters, hlog⟩ | ⟨node, a₁, henters, hvacant, hfresh, htaken, hrun⟩
  · exact .clash henters hlog (.clash (husage ▸ hclash)) rfl
  · have hrun := get_ok hrun
    obtain ⟨_, a₂, hadd, hbody⟩ := bind_ok hrun
    obtain ⟨hfield, hquiet⟩ :=
      henters.works.addField hadd hfits rfl (Name.isSegment_lower hname) htaken
      (.made rfl hvacant.kind? _) (by
        intro path r a₃ a₄ hrefer
        have hnotes := referExtendee_notes hrefer
        cases context <;> exact hnotes)
    have hboth := henters.later hfield
    have hvacant₂ := hvacant.later henters.works hfield.after hfield.advances
    rw [← hboth.advances.here] at hboth
    obtain ⟨kept, hkept, hmessage, hle, hquiet'⟩ :=
      messageBody_enters hmembers hboth hvacant₂ hfresh hbody
    rw [hboth.advances.dialect, hboth.advances.here] at hmessage
    refine .kept hmessage (.group _ u hkept) ?_ (husage.symm.trans (Usage.append_empty _).symm)
      fun hlog => ?_
    · rw [FieldMember.contentsOf, FieldMember.contentsOf, append_empty, FieldMember.contents,
        groupField, ownJsonName?, ← hextend, hvacant.fullName, henters.advances.here]
      rfl
    · have hle₁ := henters.advances.log
      have hle₂ := hfield.advances.log
      rw [hquiet (by omega), hquiet' (by omega)]

end Messages

/-! ### Services -/

section Services

variable {p : Place} {e : Element} {u : Usage} {a a' : Assembly}

theorem walkServiceMember_follows {m : ServiceMember} {seen seen' : List String}
    (hp : p.block? = none) (h : a.Works p e u)
    (hrun : walkServiceMember a.scope seen m a = .ok seen' a') :
    Follows p e u a [m] (ServiceMember.Sifts u m) (all ServiceMember.contents)
      ServiceMember.usage a' := by
  cases m with
  | method m =>
    obtain ⟨_, a₁, hmethod, hdone⟩ := bind_ok hrun
    cases hdone
    obtain ⟨taken, a₁, htake, hmethod⟩ := bind_ok hmethod
    rcases h.takeName htake with ⟨rfl, huse, henters, hlog⟩ | ⟨rfl, henters⟩
    · cases hmethod
      exact .clash henters hlog (.clash huse) rfl
    · obtain ⟨path, a₂, hopen, hmethod⟩ := bind_ok hmethod
      obtain ⟨_, a₃, hinput, hmethod⟩ := bind_ok hmethod
      obtain ⟨_, a₄, houtput, hmethod⟩ := bind_ok hmethod
      obtain ⟨_, a₅, hoptions, hclose⟩ := bind_ok hmethod
      have hnoted := (refer_notes hinput).trans (refer_notes houtput)
      rw [(refer_notes hinput).here_eq, (openElement_alike hopen).2.2.1.here_eq] at hnoted
      obtain ⟨hleaf, hquiet⟩ := henters.works.leaf (by simp [head]) rfl (fun _ => rfl) hopen
        hnoted hoptions hclose fun _ _ hc => by
          subst hc
          refine ⟨?_, ?_, fun _ _ hd => by cases hd⟩
          · simp [having, inBlock, childUses, MethodDescriptor.use, Placed.useMentions,
              Placed.mention?]
          · simp only [having, inBlock, childUses, List.forall_mem_singleton]
            exact .method _ _
      refine .kept (henters.later hleaf) (.method u m) rfl rfl fun hlog => ?_
      have hle := henters.advances.log
      have hle' := hleaf.advances.log
      rw [hquiet (by omega)]
  | option x =>
    obtain ⟨hworks, ha, _, hquiet⟩ := h.addOption hrun
    rw [hp] at hworks
    exact .option (.of_alike hworks ha) hquiet (fun _ hks => .option hks) rfl (append_empty _) rfl

theorem ServiceMember.usage_names (ms : List ServiceMember) :
    (Usage.all ServiceMember.usage ms).numbers = [] ∧
      (all ServiceMember.contents ms).methods.map (·.name) =
        (Usage.all ServiceMember.usage ms).names := by
  induction ms with
  | nil => exact ⟨rfl, rfl⟩
  | cons m ms ih =>
    obtain ⟨hnumbers, hnames⟩ := ih
    cases m with
    | method m =>
      have hname : m.descriptor.name = m.name := rfl
      simp [Usage.all, Usage.append_def, all, append_def, hnumbers, hnames,
        ServiceMember.usage, ServiceMember.contents, hname]
    | option x => simp [Usage.all, Usage.append_def, all, append_def, hnumbers, hnames,
        ServiceMember.usage, ServiceMember.contents]

theorem walkService_follows {x : Service} {r : Unit} (hname : IsSegment x.name)
    (hcontainer : e.head.isContainer = true) (hnumbers : u.numbers = []) (h : a.Works p e u)
    (hrun : walkService x a = .ok r a') :
    Follows p e u a [x] (Service.Sifts u x) (all fun x => { services := [x.descriptor] })
      Service.usage a' := by
  obtain ⟨node?, a₁, hdeclare, hrun⟩ := bind_ok hrun
  rcases h.declare hcontainer hname hdeclare with
    ⟨rfl, huse, ha, hstack, hlog⟩ | ⟨node, rfl, henters, hvacant, hfresh⟩
  · cases hrun
    exact .clash (.of_stay h ha hstack) hlog (.clash huse) rfl
  · obtain ⟨path, a₂, hopen, hrun⟩ := bind_ok hrun
    obtain ⟨_, a₃, hbody, hclose⟩ := bind_ok hrun
    obtain ⟨a₄, hmembers, rfl⟩ := within_ok hbody
    obtain ⟨seen, a₅, hmembers, hdone⟩ := bind_ok hmembers
    cases hdone
    have hnone : a₁.claims.fields.map (·.number) = [] := by
      rw [henters.after.numbers, Usage.append_def, hnumbers]
      rfl
    rw [← henters.advances.here] at henters
    obtain ⟨tag, inner, hopened, hworks, ha₂, hclaims⟩ := henters.after.enterScope
      (c := .service { name? := some x.name }) hvacant (by simp [head])
      (fun t => by cases t <;> rfl)
      (fun hno => nomatch hno) trivial a₁.claims (by rw [hnone]; exact List.nodup_nil) hopen
    rw [hnone] at hworks
    have hsame : ({ a₂ with scope := node, claims := a₁.claims } : Assembly) =
        { a₂ with scope := node } := by
      rw [← hclaims]
    rw [hsame] at hworks
    obtain ⟨kept, hkept, hentered, hquiet⟩ :=
      Follows.foldlM (fun h => walkServiceMember_follows hopened.opens.block? h) hworks rfl hmembers
    have hadvances := hentered.advances
    have hhere : here { a₂ with scope := node } = join a₁.here x.name := by
      rw [← hvacant.fullName, ← ha₂.symbols]
      rfl
    have hbrings := hentered.brings
    rw [hhere] at hbrings
    obtain ⟨hempty, hmethods⟩ := ServiceMember.usage_names kept
    have hout := henters.leaveScope hvacant hfresh hopened ha₂ hadvances hentered.after
      (ha₂.ledger ▸ hbrings) ⟨rfl, rfl⟩ (head_having _ _) rfl rfl (fun _ => .rfl)
      ⟨by simp [contentsIn, having], by
        simpa [contentsIn, having, hmethods, Usage.append_def] using hentered.after.names_nodup⟩
      a₄.claims (by simp [hentered.after.numbers, Usage.append_def, hempty, hnumbers]) hclose
    refine .kept hout (.kept hkept) rfl rfl fun hlog => ?_
    have hle := henters.advances.log
    have hle₂ := ha₂.log
    have hle₃ := hentered.advances.log
    have hle' := (close_alike hclose).2.log
    simp only at hle₃ hle'
    rw [hquiet (by simp only; omega)]

end Services

/-! ### Blocks -/

section Blocks

variable {p : Place} {e : Element} {u : Usage} {a a' : Assembly} {span : Span} {r : Unit}
variable {name : String} (dialect : Dialect) (scope : String) (block? : Option Block)

theorem block_ok {op : ScopeStack → Except BuildError ScopeStack} {body : Assemble Unit} (hrun : (do
      onStack op
      recordLocation (← get).stack.path span none
      body
      close) a = .ok r a') :
    ∃ a₁ a₂, op a.stack = .ok a₁.stack ∧ Alike a a₁ ∧ body a₁ = .ok () a₂ ∧
      a₂.stack.close = .ok a'.stack ∧ Alike a₂ a' := by
  obtain ⟨_, a₀, hopen, hrun⟩ := bind_ok hrun
  obtain ⟨s, hs, rfl⟩ := onStack_ok hopen
  have hrun := get_ok hrun
  obtain ⟨_, a₁, hrecord, hrun⟩ := bind_ok hrun
  obtain ⟨_, a₂, hbody, hclose⟩ := bind_ok hrun
  obtain ⟨hs', ha⟩ := close_alike hclose
  refine ⟨a₁, a₂, ?_, ?_, hbody, hs', ha⟩
  · cases hrecord
    exact hs
  · cases hrecord
    exact ⟨rfl, rfl, rfl, rfl, le_refl _⟩

theorem Works.closeBlock {b : Block} (h : a.Works (p.inside b) e u) (hp : p.block? = none)
    (hclose : a.stack.close = .ok a'.stack) (ha : Alike a a') : a'.Works p e u :=
  h.alike ha (h.stack.closeBlock hp hclose) h.parts h.container

theorem extendWith_follows {extendee : String} {fs : List FieldMember}
    (hfields : ∀ ⦃inner : Place⦄ ⦃a a' : Assembly⦄ ⦃r : Unit⦄, inner.block? =
      some (.extend extendee) → a.Works inner e u →
      walkFieldMembers (.extend extendee) fs a = .ok r a' →
      Follows inner e u a fs (SiftsAll (FieldMember.Sifts true) (FieldMember.usage true) u fs)
      (FieldMember.contentsOf a.dialect a.here (some (.extend extendee)))
      (FieldMember.usage true) a')
    (h : a.Works p e u)
    (hrun : extendWith extendee span (walkFieldMembers (.extend extendee) fs) a = .ok r a') :
    Follows p e u a [⟨extendee, fs, span⟩] (Extend.Sifts u ⟨extendee, fs, span⟩)
      (all (Extend.contents a.dialect a.here)) Extend.usage a' := by
  obtain ⟨a₁, a₂, hopen, ha₁, hbody, hclose, ha'⟩ := block_ok hrun
  obtain ⟨hp, hinside⟩ := h.stack.openExtend hopen
  obtain ⟨kept, hkept, henters, hquiet⟩ :=
    hfields rfl (h.alike ha₁ hinside h.parts h.container) hbody
  rw [ha₁.dialect, ha₁.here_eq] at henters
  have hall :
      Enters [] p e u a (FieldMember.contentsOf a.dialect a.here (some (.extend extendee)) kept)
      (.all (FieldMember.usage true) kept) a' := by
    refine ⟨henters.after.closeBlock hp hclose ha',
      (ha₁.advances.trans henters.advances).trans ha'.advances, ?_⟩
    have hbrings := henters.brings
    rwa [ha₁.here_eq, ha₁.ledger, ← ha'.ledger] at hbrings
  refine .kept hall (.kept hkept) (append_empty _) rfl fun hlog => ?_
  have hle₁ := ha₁.log
  have hle₂ := henters.advances.log
  have hle' := ha'.log
  rw [hquiet (by omega)]

/-! The element around a oneof while the oneof is open: the oneof stands behind the others, with the
assignments so far, and what its fields add holds no oneofs. -/

theorem modify_length_append {α : Type} (f : α → α) (xs : List α) (x : α) :
    (xs ++ [x]).modify xs.length f = xs ++ [f x] := by
  induction xs with
  | nil => rfl
  | cons y ys ih => simp [ih]

theorem awaitingAt_having {raws more : List RawOption} {c : Contents} (hc : c.oneofs = []) :
    (message (m.having ({ oneofs := [oneofOf name raws] } ++ c))).awaitingAt m.oneofs.length more =
      .message (m.having ({ oneofs := [oneofOf name (raws ++ more)] } ++ c)) := by
  have honeofs (raws : List RawOption) :
      (m.having ({ oneofs := [oneofOf name raws] } ++ c)).oneofs =
          m.oneofs ++ [oneofOf name raws] := by
    simp [MessageDescriptor.having, append_def, hc]
  have hmodified := modify_length_append
    (fun o : OneofDescriptor => { o with options := Options.awaiting .oneof o.options more })
    m.oneofs
  rw [awaitingAt, honeofs, hmodified]
  simp [MessageDescriptor.having, append_def, hc, oneofOf, Options.awaiting_append]

theorem FieldMember.contents_plain (f : FieldMember) :
    (f.contents dialect scope block?).oneofs = [] ∧
      (f.contents dialect scope block?).raws = [] := by
  cases f with
  | field f =>
    rw [FieldMember.contents, ofField]
    split <;> exact ⟨rfl, rfl⟩
  | group g =>
    obtain ⟨label?, name, number, options, members, span, comment?⟩ := g
    rw [FieldMember.contents, ofField]
    split <;> exact ⟨rfl, rfl⟩

theorem FieldMember.contentsOf_plain
    (fs : List FieldMember) : (FieldMember.contentsOf dialect scope block? fs).oneofs = [] ∧
      (FieldMember.contentsOf dialect scope block? fs).raws = [] := by
  induction fs with
  | nil => exact ⟨rfl, rfl⟩
  | cons f fs ih =>
    rw [FieldMember.contentsOf, append_def]
    simp [contents_plain, ih]

/-- Whatever message the oneof is in, what is kept of its members is entered in the message and the
oneof. -/
def OneofFollows (ms : List OneofMember) : Prop :=
  ∀ ⦃p : Place⦄ ⦃m : MessageDescriptor⦄ ⦃name : String⦄ ⦃raws : List RawOption⦄ ⦃c : Contents⦄
    ⦃u : Usage⦄ ⦃seen : List String⦄ ⦃a a' : Assembly⦄ ⦃r : Unit⦄,
    p.block? = some (.oneof m.oneofs.length) → c.oneofs = [] →
    a.Works p (.message (m.having ({ oneofs := [oneofOf name raws] } ++ c))) u →
    walkOneofMembers seen ms a = .ok r a' →
    ∃ kept, SiftsAll OneofMember.Sifts OneofMember.usage u ms kept ∧
      a'.Works p
        (.message (m.having ({ oneofs := [oneofOf name (raws ++ kept.flatMap OneofMember.raws)] } ++
        (c ++ OneofMember.contentsOf a.dialect a.here m.oneofs.length kept))))
        (u ++ Usage.all OneofMember.usage kept) ∧
      Advances a a' ∧ Ledger.Brings [] a.here p.path a.ledger
        (.message (m.having ({ oneofs := [oneofOf name raws] } ++ c))) a'.ledger
        (.message (m.having ({ oneofs := [oneofOf name (raws ++ kept.flatMap OneofMember.raws)] } ++
          (c ++ OneofMember.contentsOf a.dialect a.here m.oneofs.length kept)))) ∧
      (a'.log.size = a.log.size → kept = ms)

theorem oneofWith_follows {ms : List OneofMember}
    (hmembers : OneofFollows ms) (h : a.Works p (.message m) u)
    (hrun : oneofWith name span (walkOneofMembers [] ms) a = .ok r a') :
    Follows p (.message m) u a [.oneof ⟨name, ms, span⟩] (Member.Sifts u (.oneof ⟨name, ms, span⟩))
      (Member.contentsFrom a.dialect a.here m.oneofs.length) Member.usage a' := by
  have hrun := get_ok hrun
  obtain ⟨taken, a₁, htake, hrun⟩ := bind_ok hrun
  rcases h.takeName htake with ⟨rfl, huse, henters, hlog⟩ | ⟨rfl, henters⟩
  · cases hrun
    exact .clash henters hlog (.oneofClash huse) rfl
  · obtain ⟨a₂, a₃, hopen, ha₂, hbody, hclose, ha'⟩ := block_ok hrun
    obtain ⟨hp, m', hm, hinside⟩ := henters.works.stack.openOneof hopen
    cases hm
    have hnew : { m with oneofs := m.oneofs ++ [{ name? := some name }] } =
        m.having ({ oneofs := [oneofOf name []] } ++ {}) := by
      simp [MessageDescriptor.having, append_def, oneofOf, Options.awaiting_nil]
    have hlike :
        (message m).Like (.message (m.having ({ oneofs := [oneofOf name []] } ++ {}))) := by
      rw [← hnew]
      exact like_message rfl rfl rfl rfl rfl rfl rfl
    have hworks₂ : a₂.Works (p.inside (.oneof m.oneofs.length))
        (.message (m.having ({ oneofs := [oneofOf name []] } ++ {})))
            (u ++ { names := [name] }) := by
      rw [← hnew]
      exact henters.works.alike ha₂ hinside henters.works.parts henters.works.container
    obtain ⟨kept, hkept, hworks₃, hadvances, hbrings, hquiet⟩ := hmembers rfl rfl hworks₂ hbody
    rw [ha₂.dialect, ha₂.here_eq, henters.advances.dialect,
      henters.advances.here] at hworks₃ hbrings
    rw [Usage.append_assoc] at hworks₃
    have hbefore := henters.brings
    rw [having_empty] at hbefore
    have hinner := (Ledger.Brings.of_like henters.works.sound hlike).trans (ha₂.ledger ▸ hbrings)
    have hall : Enters [] p (.message m) u a _ _ a' := ⟨hworks₃.closeBlock hp hclose ha',
      ((henters.advances.trans ha₂.advances).trans hadvances).trans ha'.advances,
      ha'.ledger ▸ hbefore.trans hinner⟩
    refine .kept hall (.oneof hkept) ?_ rfl fun hlog => ?_
    · rw [contentsFrom_singleton, Member.contents, empty_append, List.nil_append]
    · have hle := henters.advances.log
      have hle₂ := ha₂.log
      have hle₃ := hadvances.log
      have hle' := ha'.log
      rw [hquiet (by omega)]

end Blocks

end Assembly

end ProtobufSchema
