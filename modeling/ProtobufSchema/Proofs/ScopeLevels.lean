import ProtobufSchema.Proofs.OpenElements

/-! A frame has a level: the kind of the element it owns, or the kind of block it is. On a sound
stack the levels decide what can be opened and closed. -/

namespace ProtobufSchema

open List ScopeStack

variable {below : List Frame}
variable {b : Block}

/-- What a frame is, whatever it holds. An option is an element without options of its own. -/
inductive Level where
  | element (kind? : Option OptionsKind)
  | extend
  | oneof
  deriving DecidableEq, Repr

namespace Level

def ofTarget : FrameTarget → Level
  | .owns e => .element e.optionsKind?
  | .block (.extend _) => .extend
  | .block (.oneof _) => .oneof

/-- Whether an element of a kind can be opened at these levels, the innermost first. -/
def admits : List Level → Option OptionsKind → Bool
  | .element (some _) :: _, none => true
  | .oneof :: .element (some .message) :: _, none => true
  | .element (some .file) :: _, some kind => [.message, .enum, .service].contains kind
  | .extend :: .element (some .file) :: _, some kind => [.message, .field].contains kind
  | .element (some .message) :: _, some kind =>
    [.field, .message, .enum, .extensionRange].contains kind
  | .extend :: .element (some .message) :: _, some kind => [.message, .field].contains kind
  | .oneof :: .element (some .message) :: _, some kind => [.message, .field].contains kind
  | .element (some .enum) :: _, some kind => kind == .enumValue
  | .element (some .service) :: _, some kind => kind == .method
  | _, _ => false

theorem not_admits_file {levels : List Level} : ¬admits levels (some .file) = true := by
  unfold admits
  split <;> grind

end Level

open Level (admits)

def Block.fits : Block → Element → Bool
  | .extend _, .file _ => true
  | .extend _, .message _ => true
  | .oneof index, .message m => index < m.oneofs.length
  | _, _ => false

theorem Block.fits_cases {o : Element} (h : b.fits o = true) :
    (∃ extendee f, b = .extend extendee ∧ o = .file f) ∨
      (∃ extendee m, b = .extend extendee ∧ o = .message m) ∨
      ∃ index m, b = .oneof index ∧ o = .message m ∧ index < m.oneofs.length := by
  cases b with
  | extend extendee =>
    cases o with
    | file f => exact .inl ⟨_, _, rfl, rfl⟩
    | message m => exact .inr (.inl ⟨_, _, rfl, rfl⟩)
    | _ => cases h
  | oneof index =>
    cases o with
    | message m => exact .inr (.inr ⟨_, _, rfl, rfl, of_decide_eq_true h⟩)
    | _ => cases h

namespace ScopeStack

variable {e : Element} {counts : List (Tag × Nat)} {frames : List Frame} {path : Path}

def levelsOf (frames : List Frame) : List Level := frames.map fun f => Level.ofTarget f.target

def levels (s : ScopeStack) : List Level := levelsOf s.frames

/-- The file is at the bottom, a block stands on the element it is open in, and an element on what
admits it. -/
inductive Sound : List Frame → Prop
  | root (f : FileDescriptor) (counts : List (Tag × Nat)) (path : Path) :
    Sound [⟨.owns (.file f), counts, path⟩]
  | block {e : Element} {counts : List (Tag × Nat)} {path : Path} {below : List Frame} {b : Block}
    (h : Sound (⟨.owns e, counts, path⟩ :: below)) (hb : b.fits e = true)
    (counts' : List (Tag × Nat)) (path' : Path) :
    Sound (⟨.block b, counts', path'⟩ :: ⟨.owns e, counts, path⟩ :: below)
  | child {below : List Frame} {c : Element} (h : Sound below)
    (hc : admits (levelsOf below) c.optionsKind? = true) (counts : List (Tag × Nat)) (path : Path) :
    Sound (⟨.owns c, counts, path⟩ :: below)

theorem Sound.of_block {rest : List Frame} (h : Sound (⟨.block b, counts, path⟩ :: rest)) :
    ∃ e counts' path' below, rest = ⟨.owns e, counts', path'⟩ :: below := by
  cases h
  exact ⟨_, _, _, _, rfl⟩

theorem Sound.of_cons {f : Frame} (h : Sound (f :: below)) (hne : below ≠ []) : Sound below := by
  cases h with
  | root => exact absurd rfl hne
  | block h => exact h
  | child h => exact h

section Attach

variable {o c o' : Element} {block? : Option Block} {raw : RawOption}
variable {rest : List Level}

def leading (block? : Option Block) (o : Element) : List Level :=
  (block?.map fun b => Level.ofTarget (.block b)).toList ++ [.element o.optionsKind?]

theorem isSome_childTag? (hb : ∀ b ∈ block?, b.fits o = true) (hc : c.optionsKind? ≠ none)
    (rest : List Level) :
    (childTag? o block? c).isSome = admits (leading block? o ++ rest) c.optionsKind? := by
  rcases block? with _ | b
  · cases o <;> cases c <;> first | rfl | exact absurd rfl hc
  · rcases Block.fits_cases (hb b rfl) with ⟨_, _, rfl, rfl⟩ | ⟨_, _, rfl, rfl⟩ |
      ⟨_, _, rfl, rfl, _⟩
    all_goals cases c <;> first | rfl | exact absurd rfl hc

theorem admits_option (rest : List Level) :
    admits (leading block? o ++ rest) none = match block? with
    | none => o.optionsKind?.isSome
    | some (.oneof _) => o.optionsKind? == some .message
    | some (.extend _) => false := by
  rcases block? with _ | (_ | _) <;> cases o <;> rfl

/-- An element that has the kind of another, and in which the same blocks can be open. -/
def Resembles (o o' : Element) : Prop :=
  o'.optionsKind? = o.optionsKind? ∧ ∀ b : Block, b.fits o = true → b.fits o' = true

theorem resembles_of_message {m m' : MessageDescriptor} (h : m.oneofs.length ≤ m'.oneofs.length) :
    Resembles (.message m) (.message m') := by
  refine ⟨rfl, fun b hb => ?_⟩
  cases b with
  | extend extendee => rfl
  | oneof index =>
    simp only [Block.fits, decide_eq_true_eq] at hb ⊢
    omega

theorem resembles_of_kind (h : o'.optionsKind? = o.optionsKind?)
    (ho : o.optionsKind? ≠ some .message) : Resembles o o' := by
  refine ⟨h, fun b hb => ?_⟩
  rcases Block.fits_cases hb with ⟨_, _, rfl, rfl⟩ | ⟨_, _, rfl, rfl⟩ | ⟨_, _, rfl, rfl, _⟩
  · cases o' with
    | file f => rfl
    | _ => cases h
  · exact absurd rfl ho
  · exact absurd rfl ho

section

variable (hb : ∀ b ∈ block?, b.fits o = true)
include hb

theorem attachOption_ok (h : admits (leading block? o ++ rest) none = true) :
    ∃ o', attachOption o block? raw = .ok o' ∧ Resembles o o' := by
  rcases block? with _ | b
  · cases o with
    | option raw => cases h
    | message m => exact ⟨_, rfl, resembles_of_message (le_refl _)⟩
    | _ => exact ⟨_, rfl, resembles_of_kind rfl nofun⟩
  · rcases Block.fits_cases (hb b rfl) with ⟨_, _, rfl, rfl⟩ | ⟨_, _, rfl, rfl⟩ |
      ⟨index, m, rfl, rfl, hindex⟩
    · cases h
    · cases h
    · simp only [attachOption, addOneofOption?, getElem?_eq_getElem hindex]
      exact ⟨_, rfl, resembles_of_message (le_of_eq length_set.symm)⟩

theorem attach_child_ok (htag : (childTag? o block? c).isSome) :
    ∃ o', attach o block? c = .ok o' ∧ Resembles o o' := by
  rcases block? with _ | b
  · cases o <;> cases c <;> cases htag
    all_goals first
      | exact ⟨_, rfl, resembles_of_message (le_refl _)⟩
      | exact ⟨_, rfl, resembles_of_kind rfl nofun⟩
  · rcases Block.fits_cases (hb b rfl) with ⟨_, _, rfl, rfl⟩ | ⟨_, _, rfl, rfl⟩ |
      ⟨_, _, rfl, rfl, _⟩
    all_goals cases c <;> cases htag
    all_goals first
      | exact ⟨_, rfl, resembles_of_message (le_refl _)⟩
      | exact ⟨_, rfl, resembles_of_kind rfl nofun⟩

theorem attach_ok (h : admits (leading block? o ++ rest) c.optionsKind? = true) :
    ∃ o', attach o block? c = .ok o' ∧ Resembles o o' := by
  by_cases hc : c.optionsKind? = none
  · cases c with
    | option raw =>
      exact attachOption_ok hb h
    | _ => cases hc
  · rw [← isSome_childTag? hb hc] at h
    exact attach_child_ok hb h

end

theorem Resembles.file (h : Resembles o o') (ho : ∃ f, o = .file f) : ∃ f, o' = .file f := by
  obtain ⟨f, rfl⟩ := ho
  cases o' with
  | file f' => exact ⟨f', rfl⟩
  | _ => cases h.1

end Attach

/-! ### Steps on a sound stack -/

namespace Place

variable {p : Place} {e e' : Element} {counts : List (Tag × Nat)} {s : ScopeStack}

/-- An element that may be at a place: the file at the bottom, and elsewhere what is admitted
there. -/
structure Suits (p : Place) (e : Element) : Prop where
  block : ∀ b ∈ p.block?, b.fits e = true
  below : (p.below = [] ∧ ∃ f, e = .file f) ∨
    (Sound p.below ∧ admits (levelsOf p.below) e.optionsKind? = true)

theorem Suits.resembles (h : p.Suits e) (he : Resembles e e') : p.Suits e' := by
  refine ⟨fun b hb => he.2 b (h.block b hb), ?_⟩
  rcases h.below with ⟨hnil, hfile⟩ | ⟨hsound, hadmits⟩
  · exact .inl ⟨hnil, he.file hfile⟩
  · exact .inr ⟨hsound, he.1 ▸ hadmits⟩

theorem Suits.owned (h : p.Suits e) (counts : List (Tag × Nat)) :
    Sound (⟨.owns e, counts, p.path⟩ :: p.below) := by
  rcases h.below with ⟨hnil, f, rfl⟩ | ⟨hsound, hadmits⟩
  · rw [hnil]
    exact .root f counts p.path
  · exact .child hsound hadmits counts p.path

theorem Holds.sound (h : p.Holds e counts s) (he : p.Suits e) : Sound s.frames := by
  obtain ⟨lead, hlead, hframes⟩ := h
  rw [hframes]
  generalize hblock : p.block? = block? at hlead
  cases hlead with
  | nothing => exact he.owned counts
  | block b counts' path' => exact .block (he.owned counts) (he.block b hblock) counts' path'

theorem Holds.levels (h : p.Holds e counts s) :
    s.levels = leading p.block? e ++ levelsOf p.below := by
  obtain ⟨lead, hlead, hframes⟩ := h
  rw [ScopeStack.levels, hframes]
  generalize p.block? = block? at hlead
  cases hlead <;> rfl

end Place

theorem Sound.owned (h : Sound (⟨.owns e, counts, path⟩ :: below)) (block? : Option Block)
    (hb : ∀ b ∈ block?, b.fits e = true) : Place.Suits ⟨block?, path, below⟩ e := by
  refine ⟨hb, ?_⟩
  cases h with
  | root f => exact .inl ⟨rfl, f, rfl⟩
  | child hsound hadmits => exact .inr ⟨hsound, hadmits⟩

variable {s s' : ScopeStack} {c : Element}

theorem Sound.place (h : Sound s.frames) :
    ∃ (p : Place) (e : Element) (counts : List (Tag × Nat)), p.Holds e counts s ∧ p.Suits e := by
  obtain ⟨frames⟩ := s
  cases h with
  | root f counts path =>
    exact ⟨⟨none, path, []⟩, _, counts, ⟨[], .nothing, rfl⟩, owned (.root f counts path) none nofun⟩
  | block hsound hb counts' path' =>
    refine ⟨⟨some _, _, _⟩, _, _, ⟨[_], .block _ counts' path', rfl⟩, hsound.owned (some _) ?_⟩
    intro b hmem
    obtain rfl := Option.mem_some.mp hmem
    exact hb
  | child hsound hadmits counts path =>
    exact ⟨⟨none, path, _⟩, _, counts, ⟨[], .nothing, rfl⟩,
      owned (.child hsound hadmits counts path) none nofun⟩

theorem levelsOf_congr {frames' : List Frame}
    (h : frames'.map Frame.target = frames.map Frame.target) :
    levelsOf frames' = levelsOf frames := by
  have heq (fs : List Frame) : levelsOf fs = (fs.map Frame.target).map .ofTarget := by
    rw [map_map]
    rfl
  rw [heq, heq, h]

theorem Sound.congr (h : Sound frames) : ∀ {frames' : List Frame},
    frames'.map Frame.target = frames.map Frame.target → Sound frames' := by
  induction h with
  | root f counts path =>
    intro frames' h
    obtain ⟨⟨_, counts', path'⟩, rfl, rfl⟩ := map_eq_singleton_iff.mp h
    exact .root f counts' path'
  | block h hb counts' path' ih =>
    intro frames' h
    obtain ⟨⟨_, counts'', path''⟩, rest, rfl, rfl, hrest⟩ := map_eq_cons_iff.mp h
    obtain ⟨⟨_, _, _⟩, _, rfl, rfl, _⟩ := map_eq_cons_iff.mp hrest
    exact .block (ih hrest) hb counts'' path''
  | child h hc counts path ih =>
    intro frames' h
    obtain ⟨⟨_, counts', path'⟩, rest, rfl, rfl, hrest⟩ := map_eq_cons_iff.mp h
    exact .child (ih hrest) (levelsOf_congr hrest ▸ hc) counts' path'

theorem map_target_counting (tag : Tag) (frames : List Frame) :
    (modifyOwnerFrame (.counting · tag) frames).map Frame.target = frames.map Frame.target := by
  induction frames with
  | nil => rfl
  | cons f below ih =>
    unfold modifyOwnerFrame
    split
    · rfl
    · rw [map_cons, ih, map_cons]

theorem openElement_frames (hopen : s.openElement c = .ok s') : ∃ path below,
    s'.frames = .ofElement c path :: below ∧
      below.map Frame.target = s.frames.map Frame.target := by
  unfold openElement at hopen
  split at hopen
  · unfold openOption at hopen
    split at hopen
    · next htop =>
      cases hopen
      exact ⟨_, _, rfl, by rw [htop]; rfl⟩
    · cases hopen
  · split at hopen
    · cases hopen
      exact ⟨_, _, rfl, map_target_counting _ _⟩
    · cases hopen

section

variable (h : Sound s.frames)
include h

theorem isOk_openOption (raw : RawOption) : (s.openOption raw).isOk = admits s.levels none := by
  have hisSome : (s.openOption raw).isOk = s.optionsKind?.isSome := by
    unfold openOption
    cases hkind : s.optionsKind? with
    | none => rfl
    | some kind =>
      cases hframes : s.frames with
      | nil => simp [optionsKind?, hframes] at hkind
      | cons top below => rfl
  obtain ⟨p, e, counts, hholds, hsuits⟩ := h.place
  have hfits := hsuits.block
  rw [hisSome, hholds.levels, admits_option]
  obtain ⟨lead, hlead, hframes⟩ := hholds
  generalize p.block? = block? at hlead hfits ⊢
  cases hlead with
  | nothing => simp only [optionsKind?, hframes, nil_append, head?_cons, Option.bind_some]
  | block b counts' path' =>
    simp only [optionsKind?, hframes]
    rcases Block.fits_cases (hfits b rfl) with ⟨_, _, rfl, rfl⟩ | ⟨_, _, rfl, rfl⟩ |
      ⟨_, _, rfl, rfl, _⟩ <;> rfl

theorem isOk_openElement : (s.openElement c).isOk = admits s.levels c.optionsKind? := by
  by_cases hc : c.optionsKind? = none
  · cases c with
    | option raw => exact isOk_openOption h raw
    | _ => cases hc
  · obtain ⟨p, e, counts, hholds, hsuits⟩ := h.place
    rw [hholds.levels, ← isSome_childTag? hsuits.block hc]
    unfold openElement
    split
    · exact absurd rfl hc
    · simp only [hholds.ownerFrame?, hholds.owner?, hholds.block?, Option.bind_some]
      cases childTag? e p.block? c <;> rfl

theorem Sound.openElement (hopen : s.openElement c = .ok s') :
    Sound s'.frames ∧ s'.levels = .element c.optionsKind? :: s.levels := by
  have hadmits := isOk_openElement (c := c) h
  rw [hopen] at hadmits
  obtain ⟨path, below, hframes, htargets⟩ := openElement_frames hopen
  have hbelow := h.congr htargets
  have hlevels := levelsOf_congr htargets
  rw [levels, hframes]
  refine ⟨.child hbelow ?_ [] path, ?_⟩
  · rw [hlevels]
    exact hadmits.symm
  · exact congrArg _ hlevels

theorem Sound.close {f : Frame} (hframes : s.frames = f :: below) (hne : below ≠ []) :
    ∃ s', s.close = .ok s' ∧ Sound s'.frames ∧ s'.levels = levelsOf below := by
  rw [hframes] at h
  cases h with
  | root => exact absurd rfl hne
  | block h =>
    refine ⟨_, ?_, h, rfl⟩
    simp [close, hframes]
  | child h hc =>
    obtain ⟨p, o, counts, hholds, hsuits⟩ := place h
    have hlevels := hholds.levels
    rw [levels] at hlevels
    rw [hlevels] at hc
    obtain ⟨o', hattach, hlike⟩ := attach_ok hsuits.block hc
    have hholds' := hholds.modifyOwner fun _ => o'
    refine ⟨_, ?_, hholds'.sound (hsuits.resembles hlike), ?_⟩
    · rw [close_owned hframes hne hholds.owner?, hholds.block?, hattach]
      rfl
    · rw [hholds'.levels, hlevels, leading, leading, hlike.1]

theorem exists_close_of_openElement (hopen : s.openElement c = .ok s') : ∃ t, s'.close = .ok t := by
  obtain ⟨path, below, hframes, htargets⟩ := openElement_frames hopen
  have hne : below ≠ [] := by
    rintro rfl
    have hnil : s.frames = [] := by simpa using htargets.symm
    rw [hnil] at h
    cases h
  obtain ⟨t, hclose, -⟩ := (h.openElement hopen).1.close hframes hne
  exact ⟨t, hclose⟩

theorem Sound.close_ok (hclose : s.close = .ok s') : Sound s'.frames := by
  obtain ⟨frames⟩ := s
  rcases frames with _ | ⟨f, _ | ⟨g, below⟩⟩
  · cases hclose
  · cases hclose
  · obtain ⟨t, hclose', hsound, -⟩ := h.close rfl (cons_ne_nil g below)
    cases hclose.symm.trans hclose'
    exact hsound

end

theorem addOption_ok {raw : RawOption} {t : ScopeStack} (h : s.addOption raw = .ok t) :
    ∃ s', s.openElement (.option raw) = .ok s' ∧ s'.close = .ok t := by
  rw [addOption] at h
  cases hopen : s.openOption raw with
  | error e =>
    rw [hopen] at h
    cases h
  | ok s' =>
    rw [hopen] at h
    exact ⟨s', hopen, h⟩

theorem frames_of_current? (h : s.current? = some e) :
    ∃ counts path below, s.frames = ⟨.owns e, counts, path⟩ :: below := by
  cases hframes : s.frames with
  | nil => simp [current?, hframes] at h
  | cons f below =>
    obtain ⟨target, counts, path⟩ := f
    cases target with
    | owns e' =>
      simp only [current?, hframes, head?_cons, Option.bind_some, Frame.element?,
        Option.some.injEq] at h
      exact ⟨counts, path, below, h ▸ rfl⟩
    | block b => simp [current?, hframes, Frame.element?] at h

theorem Sound.modifyCurrent {e e' : Element} (h : Sound s.frames) (he : s.current? = some e)
    (hlike : Resembles e e') :
    Sound (s.modifyOwner fun _ => e').frames ∧ (s.modifyOwner fun _ => e').levels = s.levels ∧
      (s.modifyOwner fun _ => e').current? = some e' := by
  obtain ⟨counts, path, below, hframes⟩ := frames_of_current? he
  have hmodified : (s.modifyOwner fun _ => e').frames = ⟨.owns e', counts, path⟩ :: below := by
    simp [modifyOwner, hframes, modifyOwnerFrame, Frame.element?]
  rw [hframes] at h
  refine ⟨?_, ?_, ?_⟩
  · rw [hmodified]
    exact (h.owned none fun _ hb => by cases hb).resembles hlike |>.owned counts
  · rw [levels, levels, hmodified, hframes, levelsOf, levelsOf, map_cons,
      map_cons, Level.ofTarget, Level.ofTarget, hlike.1]
  · rw [current?, hmodified]
    rfl

theorem Sound.openBlock {e : Element} {b : Block} (h : Sound s.frames) (he : s.current? = some e)
    (hb : b.fits e = true) (path : Path) :
    Sound (s.openBlock b path).frames ∧ (s.openBlock b path).levels =
      .ofTarget (.block b) :: s.levels := by
  obtain ⟨counts, path', below, hframes⟩ := frames_of_current? he
  refine ⟨?_, rfl⟩
  rw [ScopeStack.openBlock, hframes]
  rw [hframes] at h
  exact .block h hb [] path

theorem Sound.openExtend {extendee : String} (h : Sound s.frames)
    (hopen : s.openExtend extendee = .ok s') :
    Sound s'.frames ∧ s'.levels = .extend :: s.levels := by
  unfold ScopeStack.openExtend at hopen
  split at hopen
  · next hcurrent =>
    cases hopen
    exact h.openBlock hcurrent rfl _
  · next hcurrent =>
    cases hopen
    exact h.openBlock hcurrent rfl _
  · cases hopen

theorem Sound.openOneof {o : OneofDescriptor} {index : Nat} (h : Sound s.frames)
    (hopen : s.openOneof o = .ok (s', index)) :
    Sound s'.frames ∧ s'.levels = .oneof :: s.levels := by
  unfold ScopeStack.openOneof at hopen
  split at hopen
  · next m hcurrent =>
    cases hopen
    have hlike : Resembles (.message m) (.message { m with oneofs := m.oneofs ++ [o] }) :=
      resembles_of_message (by simp)
    obtain ⟨hsound, hlevels, hcurrent'⟩ := h.modifyCurrent hcurrent hlike
    rw [← hlevels]
    exact hsound.openBlock hcurrent' (by simp [Block.fits]) _
  · cases hopen

end ScopeStack

end ProtobufSchema
