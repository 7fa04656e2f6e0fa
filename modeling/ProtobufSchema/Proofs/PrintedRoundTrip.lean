import ProtobufSchema.Proofs.ReadTrees

/-! What a text was parsed to, printed and parsed again, is the same tree apart from places and
comments. -/

namespace ProtobufSchema

open List Reads Name

theorem IsWord.isDotted {s : String} (h : IsWord s) : IsDotted s :=
  ⟨s, [], by simpa using h, (dotted_singleton s).symm⟩

theorem IsWord.words_eq {s : String} (h : IsWord s) : words s = [s] := by
  have hwords : words (dotted [s]) = [s] := words_dotted (by simpa using h.segment)
  rwa [dotted_singleton] at hwords

namespace Tree

theorem FieldMember.listWords_eq (fs : List FieldMember) : listWords fs = fs.flatMap words := by
  induction fs with
  | nil => rfl
  | cons f fs ih => rw [listWords, ih, flatMap_cons]

theorem FieldMember.bareList_eq (fs : List FieldMember) : bareList fs = fs.map .bare := by
  induction fs with
  | nil => rfl
  | cons f fs ih => rw [bareList, ih, map_cons]

theorem OneofMember.listWords_eq (ms : List OneofMember) : listWords ms = ms.flatMap words := by
  induction ms with
  | nil => rfl
  | cons m ms ih => rw [listWords, ih, flatMap_cons]

theorem OneofMember.bareList_eq (ms : List OneofMember) : bareList ms = ms.map .bare := by
  induction ms with
  | nil => rfl
  | cons m ms ih => rw [bareList, ih, map_cons]

theorem Member.listWords_eq (ms : List Member) : listWords ms = ms.flatMap words := by
  induction ms with
  | nil => rfl
  | cons m ms ih => rw [listWords, ih, flatMap_cons]

theorem Member.bareList_eq (ms : List Member) : bareList ms = ms.map .bare := by
  induction ms with
  | nil => rfl
  | cons m ms ih => rw [bareList, ih, map_cons]

namespace Grammar

open Parse

variable {ws : List String} {t : Token}
variable (g : Group)

/-- A way to read the members of a message that goes over as many words as a bound allows. -/
def ReadsBodies (dialect : Dialect) (body : Parse (List Member)) (bound : Nat) : Prop :=
  ∀ ms : List Member, (∀ m ∈ ms, m.IsWritten dialect) → (Member.listWords ms).length < bound →
    ∀ ws, Reads body (Member.listWords ms ++ r"}" :: ws) ws (Member.bareList · = Member.bareList ms)

def fieldRest (f : Field) (ws : List String) : List String :=
  Name.words f.typeName ++ f.name :: "=" :: numberWord f.number ::
    (bracketWords f.options ++ ";" :: ws)

theorem words_field (f : Field) (ws : List String) :
    FieldMember.words (.field f) ++ ws = labelWords f.label? ++ fieldRest f ws := by
  simp [FieldMember.words, Field.words, fieldRest]

theorem words_group (ws : List String) :
    FieldMember.words (.group g) ++ ws = labelWords g.label? ++ "group" :: g.name :: "=" ::
      numberWord g.number :: (bracketWords g.options ++ r"{" ::
        (Member.listWords g.members ++ r"}" :: ws)) := by
  cases g
  simp [FieldMember.words]

theorem bare_group : FieldMember.bare (.group g) = .group { g with
      options := g.options.map .bare
      members := Member.bareList g.members
      span := .nowhere
      comment? := none } := by
  cases g
  rfl

section Body

variable {dialect : Dialect} {body : Parse (List Member)} {bound : Nat} {place : FieldPlace}
  {f : FieldMember} {name : String}
variable {label? : Option Label} {rest : List String} {α : Type} {lt : LocatedToken}

theorem reads_labelled {Q : FieldMember → Prop}
    (hallows : place.Allows dialect label?) (hrest : Opens rest t)
    (hnone : label? = none → ∀ w, t = .name w → Label.ofKeyword? w = none)
    (hafter : ∀ start, Reads (afterLabel dialect body start label?) rest ws Q) :
    Reads (fieldMember dialect body place.isLabelled) (labelWords label? ++ rest) ws Q := by
  refine (peek (opens_labelled label? hrest)).bind fun start _ => ?_
  cases hplace : place.isLabelled with
  | true =>
    refine (reads_fieldLabel hplace hallows hrest hnone).seq ?_
    exact hafter start
  | false =>
    obtain rfl : label? = none := by
      cases place with
      | oneof => exact hallows
      | message | extend => cases hplace
    exact hafter start

theorem reads_fieldMember (hbody : ReadsBodies dialect body bound) (hf : f.IsWritten dialect place)
    (hbound : f.words.length ≤ bound) :
    Reads (fieldMember dialect body place.isLabelled) (f.words ++ ws) ws (·.bare = f.bare) := by
  cases hf with
  | @field _ f hallows htype hf =>
    obtain ⟨w, hfirst, hopens⟩ := opens_reference hf.type
      (f.name :: "=" :: numberWord f.number :: (bracketWords f.options ++ ";" :: ws))
    obtain ⟨t, hopens, ht⟩ : ∃ t, Opens (fieldRest f ws) t ∧ ∀ w', t = .name w' → w' = w := by
      rcases hopens with ⟨-, hopens⟩ | hopens
      · exact ⟨_, hopens, nofun⟩
      · exact ⟨_, hopens, fun w' hw' => (Token.name.inj hw').symm⟩
    rw [words_field]
    refine reads_labelled hallows hopens (fun hnone w' hw' => ?_) fun start => ?_
    · exact ht w' hw' ▸ htype.label hnone w hfirst
    · refine (peek hopens).bind fun lt hlt => ?_
      have hgroup : ¬ lt.token = .name "group" := by
        intro hgroup
        exact htype.group (by rw [hfirst, ht _ (hlt.symm.trans hgroup)])
      rw [if_neg hgroup]
      exact (reads_field hf start).bind fun f' hf' => .pure (congrArg FieldMember.field hf')
  | @group _ g hdialect hallows hname hupper hnumber hoptions hmembers =>
    subst hdialect
    have hgroup : Spells "group" (.name "group") := spells_keyword rfl
    have hlength : (Member.listWords g.members).length < bound := by
      have hwords := congrArg length (words_group g [])
      simp only [length_append, length_cons] at hwords
      omega
    rw [words_group]
    refine reads_labelled hallows (opens_cons hgroup) ?_ fun start => ?_
    · rintro - w ⟨⟩
      rfl
    · refine (peek (opens_cons hgroup)).bind fun lt hlt => ?_
      rw [if_pos hlt]
      refine (reads_groupHead hname hupper hnumber hoptions start).bind fun head hhead => ?_
      obtain ⟨hname, hnumber, hoptions⟩ := hhead
      refine (hbody g.members hmembers hlength ws).bind fun members hread => .pure ?_
      simp [bare_group, hname, hnumber, hoptions, hread]

theorem label_not_taken {l : Label} (hallows : place.Allows dialect label?) (hl : label? = some l) :
    l.name ∉ place.taken ∧ (place.isLabelled = false → Label.ofKeyword? l.name = none) := by
  subst hl
  refine ⟨by cases place <;> cases l <;> decide, fun hplace => ?_⟩
  cases place with
  | oneof => cases hallows
  | message | extend => cases hplace

def BeginsField (place : FieldPlace) (t : Token) : Prop :=
  t = .symbol '.' ∨ ∃ w, t = .name w ∧ w ∉ place.taken ∧
    (place.isLabelled = false → Label.ofKeyword? w = none)

theorem opens_fieldMember (hf : f.IsWritten dialect place) (ws : List String) :
    ∃ t, Opens (f.words ++ ws) t ∧ BeginsField place t := by
  cases hf with
  | @field _ f hallows htype hf =>
    rw [words_field]
    cases hl : f.label? with
    | some l => exact ⟨_, opens_cons (spells_label l), .inr ⟨_, rfl, label_not_taken hallows hl⟩⟩
    | none =>
      obtain ⟨w, hfirst, ⟨-, hopens⟩ | hopens⟩ := opens_reference hf.type
        (f.name :: "=" :: numberWord f.number :: (bracketWords f.options ++ ";" :: ws))
      · exact ⟨_, hopens, .inl rfl⟩
      · exact ⟨_, hopens, .inr ⟨w, rfl, htype.taken hl w hfirst, fun _ => htype.label hl w hfirst⟩⟩
  | @group _ g hdialect hallows =>
    rw [words_group]
    cases hl : g.label? with
    | some l => exact ⟨_, opens_cons (spells_label l), .inr ⟨_, rfl, label_not_taken hallows hl⟩⟩
    | none =>
      refine ⟨_, opens_cons (spells_keyword rfl), .inr ⟨_, rfl, ?_, fun _ => rfl⟩⟩
      cases place <;> decide

theorem words_fieldMember_ne_nil (f : FieldMember) : f.words ≠ [] := by
  intro hnil
  cases f with
  | field f => simpa [hnil, fieldRest] using words_field f []
  | group g => simpa [hnil] using words_group g []

theorem readsMember_field {member : LocatedToken → Parse α} {Q : α → Prop}
    (hf : f.IsWritten dialect place)
    (hread : ∀ ws lt, Opens (f.words ++ ws) lt.token → BeginsField place lt.token →
      Reads (member lt) (f.words ++ ws) ws Q) : ReadsMember member f.words Q := by
  refine ⟨words_fieldMember_ne_nil f, fun ws _ _ _ => ?_⟩
  obtain ⟨t, hopens, ht⟩ := opens_fieldMember hf ws
  refine ⟨t, hopens, ?_, ?_, fun lt hlt => hread ws lt (hlt ▸ hopens) (hlt ▸ ht)⟩
  · rcases ht with rfl | ⟨w, rfl, -⟩
    · decide
    · exact nofun
  · rcases ht with rfl | ⟨w, rfl, -⟩
    · decide
    · exact nofun

theorem length_le_flatMap {α : Type} {words : α → List String} {xs : List α} {x : α} (h : x ∈ xs) :
    (words x).length ≤ (xs.flatMap words).length := by
  exact (sublist_flatten_of_mem (mem_map_of_mem h)).length_le

theorem words_extend (e : Extend) (ws : List String) : e.words ++ ws =
    "extend" ::
      (words e.extendee ++ r"{" :: (e.fields.flatMap FieldMember.words ++ r"}" :: ws)) := by
  cases e
  simp [Extend.words, FieldMember.listWords_eq]

theorem words_message (m : Message) (ws : List String) :
    m.words ++ ws = "message" :: m.name :: r"{" :: (Member.listWords m.members ++ r"}" :: ws) := by
  cases m
  simp [Message.words]

section

variable (hbody : ReadsBodies dialect body bound)
include hbody

theorem reads_oneofMember {m : OneofMember}
    (hfield : ∀ f, m = .field f → FieldMember.IsWritten dialect .oneof f)
    (hoption : ∀ a, m = .option a → a.IsWritten) (hbound : m.words.length ≤ bound) :
    ReadsMember (oneofMember dialect body) m.words (·.bare = m.bare) := by
  cases m with
  | option a =>
    refine readsMember_option (f := .option) (hoption a rfl) (fun b hb => ?_) fun lt hlt => ?_
    · simp [OneofMember.bare, hb]
    · rw [oneofMember, hlt]
      rfl
  | field f =>
    refine readsMember_field (hfield f rfl) fun ws lt _ ht => ?_
    have hread : Reads (do return .field (← fieldMember dialect body false) : Parse OneofMember)
        (f.words ++ ws) ws (·.bare = (OneofMember.field f).bare) := by
      refine (reads_fieldMember hbody (hfield f rfl) hbound).bind fun f' hf' => .pure ?_
      simp [OneofMember.bare, hf']
    unfold oneofMember
    rcases ht with hlt | ⟨w, hlt, htaken, hlabel⟩
    · rw [hlt]
      exact hread
    · rw [hlt]
      split
      · exact absurd (by simp_all [FieldPlace.taken]) htaken
      · rename_i word _ hword
        cases hword
        rw [hlabel rfl]
        exact hread
      · rename_i hdot
        cases hdot
      · rename_i hother _
        exact absurd rfl (hother w)

theorem reads_oneof {o : Oneof} (hname : IsWord o.name)
    (hfields : ∀ f, .field f ∈ o.members → FieldMember.IsWritten dialect .oneof f)
    (hoptions : ∀ a, .option a ∈ o.members → a.IsWritten) (hbound : o.words.length ≤ bound) :
    Reads (oneof dialect body) (o.words ++ ws) ws (·.bare = o.bare) := by
  obtain ⟨name, members, span⟩ := o
  simp only [Oneof.words, OneofMember.listWords_eq, append_assoc, length_cons,
    length_append] at hbound ⊢
  refine (reads_messageHead rfl hname).bind fun head hhead => ?_
  have hmember : ∀ m ∈ members,
      ReadsMember (oneofMember dialect body) m.words (·.bare = m.bare) := by
    intro m hm
    have hlength : m.words.length ≤ (members.flatMap OneofMember.words).length :=
      length_le_flatMap hm
    exact reads_oneofMember hbody (fun f hf => hfields f (hf ▸ hm))
      (fun a ha => hoptions a (ha ▸ hm)) (by omega)
  refine (reads_membersWith hmember).bind fun found hfound => .pure ?_
  simp [Oneof.bare, OneofMember.bareList_eq, hhead, hfound]

theorem reads_extendMember (hf : f.IsWritten dialect .extend)
    (hbound : f.words.length ≤ bound) :
    ReadsMember (extendMember dialect body) f.words (·.bare = f.bare) := by
  refine readsMember_field hf fun ws lt _ ht => ?_
  unfold extendMember
  rcases ht with hlt | ⟨w, hlt, -⟩
  · rw [hlt]
    exact reads_fieldMember hbody hf hbound
  · rw [hlt]
    exact reads_fieldMember hbody hf hbound

theorem reads_extend {e : Extend}
    (hextendee : IsReference e.extendee) (hfields : ∀ f ∈ e.fields, f.IsWritten dialect .extend)
    (hbound : e.words.length ≤ bound) :
    Reads (extend dialect body) (e.words ++ ws) ws (·.bare = e.bare) := by
  have hmember : ∀ f ∈ e.fields,
      ReadsMember (extendMember dialect body) f.words (·.bare = f.bare) := by
    intro f hf
    have hlength : f.words.length ≤ (e.fields.flatMap FieldMember.words).length :=
      length_le_flatMap hf
    have hwords := congrArg length (words_extend e [])
    simp only [length_append, length_cons] at hwords
    exact reads_extendMember hbody (hfields f hf) (by omega)
  rw [words_extend]
  refine .keyword rfl fun start => ?_
  refine (reference hextendee (opens_symbol (c := '{') rfl) (by decide)).seq ?_
  refine .symbol rfl ?_
  refine (reads_membersWith hmember).bind fun fields hfound => .pure ?_
  cases e
  simp [Extend.bare, FieldMember.bareList_eq, hfound]

theorem reads_message {m : Message} (hname : IsWord m.name)
    (hmembers : ∀ x ∈ m.members, x.IsWritten dialect) (hbound : m.words.length ≤ bound) :
    Reads (message body) (m.words ++ ws) ws (·.bare = m.bare) := by
  have hlength : (Member.listWords m.members).length < bound := by
    have hwords := congrArg length (words_message m [])
    simp only [length_append, length_cons] at hwords
    omega
  rw [words_message]
  refine (reads_messageHead rfl hname).bind fun head hhead => ?_
  refine (hbody m.members hmembers hlength ws).bind fun members hread => .pure ?_
  cases m
  simp [Message.bare, hhead, hread]

end

theorem readsMember_keyword {read : Parse α} {make : α → Member} {bare : α → α} {x : α}
    {words : List String} {keyword : String} (kind : MemberKind)
    (hkeyword : keywords.contains keyword)
    (hof : memberOf dialect body kind = do return make (← read))
    (hbare : ∀ y, (make y).bare = make (bare y)) (hwords : words.head? = some keyword)
    (hkind : ∀ ws lt, lt.token = .name keyword →
      Reads (memberKind lt) (words ++ ws) (words ++ ws) (· = kind))
    (hread : ∀ ws, Reads read (words ++ ws) ws (bare · = bare x)) :
    ReadsMember (member dialect body) words (·.bare = (make x).bare) := by
  obtain ⟨rest, hrest⟩ := head?_eq_some_iff.mp hwords
  refine ⟨by simp [hrest], fun ws _ _ _ => ⟨.name keyword, ?_, nofun, nofun, fun lt hlt => ?_⟩⟩
  · rw [hrest]
    exact opens_cons (spells_keyword hkeyword)
  · refine (hkind ws lt hlt).seq ?_
    rw [hof]
    exact (hread ws).bind fun y hy => .pure (by rw [hbare, hbare, hy])

theorem reads_declared {keyword : String} (hkeyword : keywords.contains keyword)
    (hname : IsReference name) (kind : MemberKind) :
    Reads (memberKind.declared kind) (keyword :: (words name ++ r"{" :: ws))
      (keyword :: (words name ++ r"{" :: ws)) (· = kind) := by
  have hbrace : Opens (r"{" :: ws) (.symbol '{') := opens_symbol rfl
  refine (reads_isDeclaration (spells_keyword hkeyword) hname hbrace (by decide)).seq ?_
  exact .pure rfl

theorem reads_declared_word {keyword : String} (hkeyword : keywords.contains keyword)
    (hname : IsWord name) (kind : MemberKind) :
    Reads (memberKind.declared kind) (keyword :: name :: r"{" :: ws) (keyword :: name :: r"{" :: ws)
      (· = kind) := by
  have hread : Reads (memberKind.declared kind) (keyword :: (words name ++ r"{" :: ws)) _ _ :=
    reads_declared hkeyword (.inl hname.isDotted) kind
  rwa [hname.words_eq] at hread

theorem after_first_word {ss : List String} (hss : ∀ x ∈ ss, IsWord x) (hname : IsWord name)
    (hws : Opens ws (.symbol '=')) : ∃ ref rest t, IsReference ref ∧
      (ss.flatMap fun x => [".", x]) ++ name :: ws = words ref ++ rest ∧ Opens rest t ∧
      t ≠ .symbol '.' ∧ t ≠ .symbol '{' := by
  cases ss with
  | nil =>
    exact ⟨name, ws, _, .inl hname.isDotted, by rw [hname.words_eq]; rfl, hws, by decide, by decide⟩
  | cons x ss =>
    refine ⟨"." ++ dotted (x :: ss), name :: ws, .name name, .inr ⟨_, ⟨x, ss, hss, rfl⟩, rfl⟩, ?_,
      opens_cons hname.spells, nofun, nofun⟩
    rw [words_qualified fun s hs => (hss s hs).segment]
    rfl

theorem reads_memberKind_word {s w : String} {ss : List String}
    (hs : IsWord s) (hss : ∀ x ∈ ss, IsWord x) (hw : IsWord w) (hrest : Opens rest (.symbol '='))
    (htaken : s ∉ FieldPlace.message.taken) (hlt : lt.token = .name s) :
    Reads (memberKind lt) (s :: ((ss.flatMap fun x => [".", x]) ++ w :: rest))
      (s :: ((ss.flatMap fun x => [".", x]) ++ w :: rest)) (· = .field) := by
  obtain ⟨ref, rest', t, href, heq, hnext, hdot, hbrace⟩ := after_first_word hss hw hrest
  rw [heq]
  have hdeclared (kind : MemberKind) : Reads (memberKind.declared kind) (s :: (words ref ++ rest'))
      (s :: (words ref ++ rest')) (· = .field) := by
    refine (reads_isDeclaration hs.spells href hnext hdot).seq ?_
    rw [beq_eq_false_iff_ne.mpr hbrace]
    exact .pure rfl
  have hmap : Reads (do return if ← secondIs '<' then .map else .field : Parse MemberKind)
      (s :: (words ref ++ rest')) (s :: (words ref ++ rest')) (· = .field) := by
    obtain ⟨first, -, hopens⟩ := opens_reference href rest'
    rcases hopens with ⟨-, hopens⟩ | hopens
    all_goals
      exact (reads_secondIs '<' hs.spells hopens).bind fun found hfound =>
        .pure (by rw [hfound]; rfl)
  simp only [FieldPlace.taken, mem_cons, not_mem_nil, or_false, not_or] at htaken
  unfold memberKind
  rw [hlt]
  split
  iterate 4 · exact hdeclared _
  · rename_i hword
    exact absurd (Token.name.inj hword) htaken.1
  · rename_i hword
    exact absurd (Token.name.inj hword) htaken.2.1
  · rename_i hword
    exact absurd (Token.name.inj hword) htaken.2.2
  · exact hmap
  · exact .pure rfl
  iterate 2
    · rename_i hword
      cases hword
  · rename_i hother _ _
    exact absurd rfl (hother s)

theorem reads_memberKind_field (hf : f.IsWritten dialect .message)
    (hopens : Opens (f.words ++ ws) lt.token) (hbegins : BeginsField .message lt.token) :
    Reads (memberKind lt) (f.words ++ ws) (f.words ++ ws) (· = .field) := by
  have hlabelled {l : Label} {rest : List String}
      (hopens : Opens (labelWords (some l) ++ rest) lt.token) :
      Reads (memberKind lt) (labelWords (some l) ++ rest) (labelWords (some l) ++ rest)
          (· = .field) := by
    have hlt : lt.token = .name l.name := opens_unique hopens (opens_cons (spells_label l))
    rw [memberKind, hlt]
    cases l <;> exact .pure rfl
  cases hf with
  | @group _ g hdialect hallows =>
    subst hdialect
    rw [words_group] at hopens ⊢
    obtain ⟨l, hl⟩ := Option.ne_none_iff_exists'.mp hallows
    rw [hl] at hopens ⊢
    exact hlabelled hopens
  | @field _ f hallows htype hf =>
    rw [words_field] at hopens ⊢
    cases hl : f.label? with
    | some l =>
      rw [hl] at hopens
      exact hlabelled hopens
    | none =>
      rw [hl] at hopens
      rcases hf.type with ⟨s, ss, hwords, hname⟩ | ⟨n, ⟨s, ss, hwords, rfl⟩, hname⟩
      · have hsegments : ∀ x ∈ s :: ss, IsSegment x := fun x hx => (hwords x hx).segment
        rw [fieldRest, hname, words_dotted hsegments] at hopens ⊢
        obtain ⟨hs, hss⟩ := forall_mem_cons.mp hwords
        have hlt : lt.token = .name s := opens_unique hopens (opens_cons hs.spells)
        refine reads_memberKind_word hs hss hf.name (opens_symbol rfl) ?_ hlt
        rcases hbegins with hdot | ⟨w, hw, htaken, -⟩
        · cases hlt.symm.trans hdot
        · cases hlt.symm.trans hw
          exact htaken
      · have hsegments : ∀ x ∈ s :: ss, IsSegment x := fun x hx => (hwords x hx).segment
        rw [fieldRest, hname, words_qualified hsegments] at hopens ⊢
        have hlt : lt.token = .symbol '.' := opens_unique hopens (opens_symbol rfl)
        rw [memberKind, hlt]
        exact .pure rfl

theorem reads_member (hbody : ReadsBodies dialect body bound) {m : Member}
    (hm : m.IsWritten dialect) (hbound : m.words.length ≤ bound) :
    ReadsMember (member dialect body) m.words (·.bare = m.bare) := by
  cases hm with
  | @field f hf =>
    rw [Member.words] at hbound ⊢
    refine readsMember_field hf fun ws lt hopens hbegins => ?_
    refine (reads_memberKind_field hf hopens hbegins).seq ?_
    refine (reads_fieldMember hbody hf hbound).bind fun f' hf' => .pure ?_
    simp [Member.bare, hf']
  | @map m hm =>
    refine readsMember_keyword .map rfl rfl (fun _ => rfl) rfl (fun _ _ hlt => ?_)
      fun _ => reads_map hm
    have hmap : Spells "map" (.name "map") := spells_keyword rfl
    rw [memberKind, hlt]
    exact (reads_secondIs '<' hmap (opens_symbol (c := '<') rfl)).bind
      fun found hfound => .pure (by rw [hfound]; rfl)
  | @oneof o hname hfields hoptions =>
    rw [Member.words] at hbound ⊢
    refine readsMember_keyword .oneof rfl rfl (fun _ => rfl) (by cases o; rfl) (fun _ _ hlt => ?_)
      fun _ => reads_oneof hbody hname hfields hoptions hbound
    rw [memberKind, hlt]
    cases o
    exact reads_declared_word rfl hname .oneof
  | @message m hname hmembers =>
    rw [Member.words] at hbound ⊢
    refine readsMember_keyword .message rfl rfl (fun _ => rfl) (by cases m; rfl) (fun _ _ hlt => ?_)
      fun _ => reads_message hbody hname hmembers hbound
    rw [memberKind, hlt]
    cases m
    exact reads_declared_word rfl hname .message
  | @enum e he =>
    refine readsMember_keyword .enum rfl rfl (fun _ => rfl) rfl (fun _ _ hlt => ?_)
      fun _ => reads_enum he
    rw [memberKind, hlt]
    exact reads_declared_word rfl he.name .enum
  | @extend e hextendee hfields =>
    rw [Member.words] at hbound ⊢
    refine readsMember_keyword .extend rfl rfl (fun _ => rfl) (by cases e; rfl) (fun _ _ hlt => ?_)
      fun _ => reads_extend hbody hextendee hfields hbound
    rw [memberKind, hlt, words_extend]
    exact reads_declared rfl hextendee .extend
  | @extensions e he =>
    refine readsMember_keyword .extensions rfl rfl (fun _ => rfl) rfl (fun _ _ hlt => ?_)
      fun _ => reads_extensions he
    rw [memberKind, hlt]
    exact .pure rfl
  | @reserved r hr =>
    refine readsMember_keyword .reserved rfl rfl (fun _ => rfl) rfl (fun _ _ hlt => ?_)
      fun _ => reads_reserved hr
    rw [memberKind, hlt]
    exact .pure rfl
  | @option a ha =>
    refine readsMember_keyword .option rfl rfl (fun _ => rfl) rfl (fun _ _ hlt => ?_)
      fun _ => reads_optionStatement ha
    rw [memberKind, hlt]
    exact .pure rfl

end Body

theorem reads_messageBody (dialect : Dialect) (depth : Nat) :
    ReadsBodies dialect (messageBody dialect depth) depth := by
  induction depth with
  | zero => exact fun ms _ hlength => absurd hlength (Nat.not_lt_zero _)
  | succ depth ih =>
    intro ms hms hlength ws
    rw [Member.listWords_eq] at hlength ⊢
    have hmember : ∀ m ∈ ms,
        ReadsMember (member dialect (messageBody dialect depth)) m.words (·.bare = m.bare) := by
      intro m hm
      have hle : m.words.length ≤ (ms.flatMap Member.words).length := length_le_flatMap hm
      exact reads_member ih (hms m hm) (by omega)
    refine (reads_membersWith hmember).mono fun found hfound => ?_
    rw [Member.bareList_eq, Member.bareList_eq, hfound]

theorem reads_fueledBody (dialect : Dialect) (bound : Nat) :
    ReadsBodies dialect (fueled (messageBody dialect)) bound := by
  intro ms hms _ ws
  refine fueled fun fuel hfuel _ => reads_messageBody dialect fuel ms hms ?_ ws
  simp only [length_append, length_cons] at hfuel
  omega

end Grammar

inductive Statement where
  | ofImport (i : Import)
  | ofOption (a : Assignment)
  | ofItem (item : Item)

namespace Statement

def words : Statement → List String
  | ofImport i => i.words
  | ofOption a => optionWords a
  | ofItem item => item.words

def bare : Statement → Statement
  | ofImport i => ofImport i.bare
  | ofOption a => ofOption a.bare
  | ofItem item => ofItem item.bare

def addTo (file : File) : Statement → File
  | ofImport i => { file with imports := file.imports ++ [i] }
  | ofOption a => { file with options := file.options ++ [a] }
  | ofItem item => { file with items := file.items ++ [item] }

def IsWritten (dialect : Dialect) : Statement → Prop
  | ofImport _ => True
  | ofOption a => a.IsWritten
  | ofItem item => item.IsWritten dialect

theorem dialect_addTo (file : File) (s : Statement) : (s.addTo file).dialect = file.dialect := by
  cases s <;> rfl

theorem bare_addTo (file : File) (s : Statement) :
    (s.addTo file).bare = s.bare.addTo file.bare := by
  cases s <;> simp [addTo, bare, File.bare]

end Statement

namespace File

def statements (f : File) : List Statement :=
  f.imports.map .ofImport ++ f.options.map .ofOption ++ f.items.map .ofItem

def head (f : File) : File :=
  { dialect := f.dialect, isExplicit := f.isExplicit, package? := f.package? }

theorem words_eq (f : File) : f.words = f.dialectWords ++
      (f.package?.toList.flatMap Package.words ++ f.statements.flatMap Statement.words) := by
  simp [words, statements, flatMap_map, Statement.words]

theorem foldl_statements (f : File) : f.statements.foldl Statement.addTo f.head = f := by
  have himports (file : File) (is : List Import) : (is.map .ofImport).foldl Statement.addTo file =
        { file with imports := file.imports ++ is } := by
    induction is generalizing file with
    | nil => simp
    | cons i is ih => simp [ih, Statement.addTo]
  have hoptions (file : File) (as : List Assignment) :
        (as.map .ofOption).foldl Statement.addTo file =
        { file with options := file.options ++ as } := by
    induction as generalizing file with
    | nil => simp
    | cons a as ih => simp [ih, Statement.addTo]
  have hitems (file : File) (items : List Item) : (items.map .ofItem).foldl Statement.addTo file =
        { file with items := file.items ++ items } := by
    induction items generalizing file with
    | nil => simp
    | cons item items ih => simp [ih, Statement.addTo]
  rw [statements, foldl_append, foldl_append, himports, hoptions, hitems]
  rfl

theorem bare_foldl (ss : List Statement) (file : File) :
    (ss.foldl Statement.addTo file).bare = (ss.map .bare).foldl Statement.addTo file.bare := by
  induction ss generalizing file with
  | nil => rfl
  | cons s ss ih => rw [foldl_cons, ih, Statement.bare_addTo, map_cons, foldl_cons]

end File

namespace Grammar

open Parse

variable {ws : List String} {t : Token} {file : File} {ss : List Statement}

theorem reads_importKind (kind : ImportKind) (content : Bytes) :
    Reads importKind (Import.kindWords kind ++ Escape.literal content :: ws)
      (Escape.literal content :: ws)
      (· = kind) := by
  have hliteral : Opens (Escape.literal content :: ws) (.string content) :=
    opens_cons (spells_literal content)
  cases kind with
  | plain =>
    refine (eat_not (t := .name "public") hliteral nofun).seq ?_
    refine (eat_not (t := .name "weak") hliteral nofun).seq ?_
    exact .pure rfl
  | isPublic =>
    refine (eat (spells_keyword rfl)).seq ?_
    exact .pure rfl
  | weak =>
    have hweak : Spells "weak" (.name "weak") := spells_keyword rfl
    refine (eat_not (opens_cons hweak) (by decide)).seq ?_
    refine (eat hweak).seq ?_
    exact .pure rfl

structure ReadsStatement (file : File) (words : List String) (Q : File → Prop) (keyword : String) :
    Prop where
  mem_keywords : keyword ∈ keywords
  ne_syntax : keyword ≠ "syntax"
  head_eq : words.head? = some keyword
  reads : ∀ ws lt, lt.token = .name keyword → Reads (statement file lt) (words ++ ws) ws Q

theorem reads_statement {s : Statement} (hs : s.IsWritten file.dialect) :
    ∃ keyword, ReadsStatement file s.words (·.bare = s.bare.addTo file.bare) keyword := by
  have hbody (bound : Nat) := reads_fueledBody file.dialect bound
  cases s with
  | ofImport i =>
    refine ⟨"import", by decide, by decide, rfl, fun ws lt hlt => ?_⟩
    have hwords : (Statement.ofImport i).words ++ ws =
        "import" ::
            (Import.kindWords i.kind ++ Escape.literal (Utf8.encode i.path) :: ";" :: ws) := by
      simp [Statement.words, Import.words]
    rw [statement, hlt, hwords]
    refine .keyword rfl fun _ => ?_
    refine (reads_importKind i.kind _).seq ?_
    refine (expectString _ (opens_symbol (c := ';') rfl) nofun).bind fun path hpath => ?_
    refine .symbol rfl (.pure ?_)
    simp [File.bare, Statement.addTo, Statement.bare, Import.bare, hpath, Utf8.decodeLossy_encode]
  | ofOption a =>
    refine ⟨"option", by decide, by decide, rfl, fun ws lt hlt => ?_⟩
    rw [statement, hlt]
    refine (reads_optionStatement hs).bind fun a' ha' => .pure ?_
    simp [File.bare, Statement.addTo, Statement.bare, ha']
  | ofItem item =>
    cases hs with
    | @message m hname hmembers =>
      refine ⟨"message", by decide, by decide, by cases m; rfl, fun ws lt hlt => ?_⟩
      rw [statement, hlt]
      refine (reads_message (hbody _) hname hmembers le_rfl).bind fun m' hm' => .pure ?_
      simp [File.bare, Statement.addTo, Statement.bare, Item.bare, hm']
    | @enum e he =>
      refine ⟨"enum", by decide, by decide, rfl, fun ws lt hlt => ?_⟩
      rw [statement, hlt]
      refine (reads_enum he).bind fun e' he' => .pure ?_
      simp [File.bare, Statement.addTo, Statement.bare, Item.bare, he']
    | @service s hs =>
      refine ⟨"service", by decide, by decide, rfl, fun ws lt hlt => ?_⟩
      rw [statement, hlt]
      refine (reads_service hs).bind fun s' hs' => .pure ?_
      simp [File.bare, Statement.addTo, Statement.bare, Item.bare, hs']
    | @extend e hextendee hfields =>
      refine ⟨"extend", by decide, by decide, by cases e; rfl, fun ws lt hlt => ?_⟩
      rw [statement, hlt]
      refine (reads_extend (hbody _) hextendee hfields le_rfl).bind fun e' he' => .pure ?_
      simp [File.bare, Statement.addTo, Statement.bare, Item.bare, he']

theorem reads_package {p : Package} (hp : IsDotted p.name) (hfile : file.package? = none) :
    ReadsStatement file p.words (·.bare = { file with package? := some p }.bare) "package" := by
  refine ⟨by decide, by decide, rfl, fun ws lt hlt => ?_⟩
  have hwords : p.words ++ ws = "package" :: (words p.name ++ ";" :: ws) := by simp [Package.words]
  rw [statement, hlt, hwords]
  refine .keyword rfl fun _ => ?_
  rw [hfile]
  refine (dottedName hp (opens_symbol (c := ';') rfl) (by decide)).seq ?_
  refine .symbol rfl (.pure ?_)
  simp [File.bare, Package.bare]

theorem ReadsStatement.opens {words : List String} {Q : File → Prop} {keyword : String}
    (h : ReadsStatement file words Q keyword) (ws : List String) :
    Opens (words ++ ws) (.name keyword) := by
  obtain ⟨rest, hrest⟩ := head?_eq_some_iff.mp h.head_eq
  rw [hrest]
  exact opens_cons (spells_keyword (contains_iff_mem.mpr h.mem_keywords))

theorem reads_statements_step {words : List String} {Q R : File → Prop} {keyword : String}
    {fuel : Nat} (h : ReadsStatement file words Q keyword)
    (hrest : ∀ file', Q file' → Reads (statements file' fuel) ws [] R) :
    Reads (statements file (fuel + 1)) (words ++ ws) [] R := by
  refine (peek (h.opens ws)).bind fun lt hlt => ?_
  rw [if_neg (by rw [hlt]; exact nofun)]
  exact (h.reads ws lt hlt).bind hrest

theorem reads_statements (hss : ∀ s ∈ ss, s.IsWritten file.dialect) {fuel : Nat}
    (hfuel : ss.length < fuel) :
    Reads (statements file fuel) (ss.flatMap Statement.words) []
      (·.bare = (ss.map .bare).foldl Statement.addTo file.bare) := by
  induction ss generalizing file fuel with
  | nil =>
    obtain ⟨fuel, rfl⟩ := Nat.exists_eq_add_one.mpr hfuel
    refine (peek ⟨[], token_end⟩).bind fun lt hlt => ?_
    rw [if_pos hlt]
    exact .pure rfl
  | cons s ss ih =>
    obtain ⟨fuel, rfl⟩ := Nat.exists_eq_add_one.mpr (Nat.zero_lt_of_lt hfuel)
    obtain ⟨hs, hss⟩ := forall_mem_cons.mp hss
    obtain ⟨keyword, hread⟩ := reads_statement hs
    refine reads_statements_step hread fun file' hfile' => ?_
    have hdialect : file'.dialect = file.dialect :=
      (congrArg File.dialect hfile').trans (Statement.dialect_addTo file.bare s.bare)
    rw [map_cons, foldl_cons, ← hfile']
    exact ih (hdialect ▸ hss) (Nat.lt_of_succ_lt_succ hfuel)

theorem length_le_statements (ss : List Statement) :
    2 * ss.length ≤ (ss.flatMap Statement.words).length := by
  induction ss with
  | nil => exact Nat.zero_le _
  | cons s ss ih =>
    have hwords : 2 ≤ s.words.length := by
      rcases s with i | a | ⟨⟨_, _, _, _⟩ | e | s | ⟨_, _, _⟩⟩ <;>
        simp only [Statement.words, Import.words, optionWords, Item.words, Message.words,
          Enum.words, Service.words, Extend.words, length_append, length_cons] <;>
        omega
    rw [flatMap_cons, length_append, length_cons]
    omega

theorem opens_statements (hss : ∀ s ∈ ss, s.IsWritten file.dialect) :
    ∃ t, Opens (ss.flatMap Statement.words) t ∧ t ≠ .name "syntax" := by
  cases ss with
  | nil => exact ⟨_, ⟨[], token_end⟩, nofun⟩
  | cons s ss =>
    obtain ⟨keyword, hread⟩ := reads_statement (hss s mem_cons_self)
    exact ⟨_, hread.opens _, fun h => hread.ne_syntax (Token.name.inj h)⟩

theorem reads_dialect {f : File} (hf : f.isExplicit = false → f.dialect = .proto2)
    (hws : Opens ws t) (ht : t ≠ .name "syntax") :
    Reads dialectStatement (f.dialectWords ++ ws) ws
      fun dialect? => dialect?.getD .proto2 = f.dialect ∧ dialect?.isSome = f.isExplicit := by
  cases hexplicit : f.isExplicit with
  | false =>
    rw [File.dialectWords, hexplicit]
    refine (eat_not hws ht).seq ?_
    exact .pure ⟨(hf hexplicit).symm, rfl⟩
  | true =>
    have hname : Dialect.ofName? f.dialect.name = some f.dialect := by cases f.dialect <;> rfl
    rw [File.dialectWords, hexplicit]
    refine (eat (spells_keyword rfl)).seq ?_
    refine .symbol rfl ?_
    refine (token (spells_literal _)).located fun _ _ => ?_
    dsimp only
    rw [Utf8.decodeLossy_encode, hname]
    exact .symbol rfl (.pure ⟨rfl, rfl⟩)

theorem reads_file {f : File} (hf : f.IsWritten) :
    Reads Grammar.file f.words [] (·.bare = f.bare) := by
  have hss : ∀ s ∈ f.statements, s.IsWritten f.dialect := by
    simp only [File.statements, forall_mem_append, forall_mem_map]
    exact ⟨⟨fun _ _ => trivial, hf.options⟩, hf.items⟩
  have hlength := length_le_statements f.statements
  have hrun {fuel : Nat} {head : File} (hhead : head.bare = f.head.bare)
      (hfuel : f.statements.length < fuel) :
      Reads (statements head fuel) (f.statements.flatMap Statement.words) [] (·.bare = f.bare) := by
    have hdialect : head.bare.dialect = f.dialect := by rw [hhead]; rfl
    have hwritten : ∀ s ∈ f.statements, s.IsWritten head.dialect := hdialect ▸ hss
    refine (reads_statements hwritten hfuel).mono fun found hfound => ?_
    rw [hfound, hhead, ← File.bare_foldl, File.foldl_statements]
  rw [File.words_eq]
  cases hpackage : f.package? with
  | none =>
    obtain ⟨t, hopens, ht⟩ := opens_statements hss
    refine (reads_dialect hf.dialect hopens ht).bind fun dialect? hdialect => ?_
    refine fueled fun fuel hfuel _ => hrun ?_ (by omega)
    rw [hdialect.1, hdialect.2, File.head, hpackage]
  | some p =>
    have hp {file : File} (hfile : file.package? = none) :=
      reads_package (hf.package p hpackage) hfile
    have hopens : Opens (p.words ++ f.statements.flatMap Statement.words) (.name "package") :=
      opens_cons (spells_keyword rfl)
    rw [Option.toList_some, flatMap_singleton]
    refine (reads_dialect hf.dialect hopens (by decide)).bind fun dialect? hdialect => ?_
    refine fueled fun fuel hfuel hpos => ?_
    obtain ⟨fuel, rfl⟩ := Nat.exists_eq_add_one.mpr hpos
    refine reads_statements_step (hp rfl) fun head hhead => hrun ?_ ?_
    · rw [hhead, hdialect.1, hdialect.2, File.head, hpackage]
    · simp only [Package.words, length_append, length_cons] at hfuel
      omega

end Grammar

/-- A tree that was read is printed to a text that is read as the same tree. -/
theorem File.parse_print {text : String} {tree : File} (h : parse text = .ok tree) :
    ∃ tree', parse tree.print = .ok tree' ∧ tree'.bare = tree.bare := by
  have hwords : (Cursor.ofText tree.print).Ahead tree.words := .inl rfl
  obtain ⟨tree', c, hread, -, hbare⟩ := Grammar.reads_file (parse_isWritten h) _ hwords
  exact ⟨tree', by rw [parse, hread], hbare⟩

/-- Types called like keywords, numbers without digits, empty statements and literals in pieces. -/
def File.wordy : String :=
  r#"syntax = 'proto3'; package a . b; import public "x"; option (a.b).c = { x: 1 };
  message M {
    message.T a = 1; map b = 2 [x = +inf, y = - nan]; oneof o { .group g = 3; }; reserved 4 to max;
  }
  enum E { option = 0; reserved = -1; }
  service S { rpc m (stream) returns (stream .T) { option x = 'a' "b"; }; }"#

set_option maxRecDepth 100000 in
theorem File.parse_print_wordy : ∃ tree, parse wordy = .ok tree ∧ tree.items.length = 3 ∧
    ∃ tree', parse tree.print = .ok tree' ∧ tree'.bare = tree.bare := by
  have hread : (parse wordy).toOption.any (·.items.length == 3) = true := by decide +kernel
  cases htree : parse wordy with
  | ok tree =>
    rw [htree] at hread
    exact ⟨tree, rfl, beq_iff_eq.mp hread, parse_print htree⟩
  | error e =>
    rw [htree] at hread
    cases hread

end Tree

end ProtobufSchema
