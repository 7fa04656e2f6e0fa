import ProtobufSchema.RangeSet

/-! The boundaries of a set of extension numbers ascend, so an odd number of them at or below a
number means that one of the ranges contains it. -/

namespace ProtobufSchema

open List

variable {before after : List NumberRange} {n : Int32}

namespace NumberRange

variable {r : NumberRange}
variable (rs : List NumberRange)

/-- A range that can be extension numbers, whatever the others are. -/
structure IsValid (r : NumberRange) : Prop where
  positive : 1 ≤ r.start.toInt
  nonempty : r.start.toInt < r.stop.toInt
  bounded : r.stop.toInt - 1 ≤ 536870911
  start_free : ¬(19000 ≤ r.start.toInt ∧ r.start.toInt < 20000)
  last_free : ¬(19000 ≤ r.stop.toInt - 1 ∧ r.stop.toInt - 1 < 20000)

/-- A range whose last number has more than 32 bits, as far as that number is asked for. -/
def LastOverflows (r : NumberRange) : Prop := 1 ≤ r.start.toInt ∧ r.stop.toInt = -2147483648

theorem IsValid.lastFits (h : r.IsValid) : ¬r.LastOverflows := by
  intro hover
  have hnonempty := h.nonempty
  have hstart := hover.1
  have hstop := hover.2
  omega

def Meets (r q : NumberRange) : Prop := ∃ n, r.contains n = true ∧ q.contains n = true

theorem contains_iff : r.contains n = true ↔ r.start ≤ n ∧ n < r.stop := by
  simp [contains]

theorem meets_iff {q : NumberRange} (hr : r.start < r.stop) (hq : q.start < q.stop) :
    r.Meets q ↔ r.start < q.stop ∧ q.start < r.stop := by
  simp only [Meets, contains_iff, Int32.lt_iff_toInt_lt, Int32.le_iff_toInt_le] at hr hq ⊢
  constructor
  · omega
  · rintro ⟨hstart, hstop⟩
    rcases Int.le_total q.start.toInt r.start.toInt with hle | hle
    · exact ⟨r.start, ⟨Int.le_refl _, hr⟩, hle, hstart⟩
    · exact ⟨q.start, ⟨hle, hstop⟩, Int.le_refl _, hq⟩

theorem isReservedNumber_iff : isReservedNumber n = true ↔ 19000 ≤ n.toInt ∧ n.toInt < 20000 := by
  simp only [isReservedNumber, Bool.and_eq_true, decide_eq_true_eq, Int32.lt_iff_toInt_lt,
    Int32.le_iff_toInt_le]
  exact .rfl

/-- A range is valid or refused, unless the message about it cannot be written. -/
theorem check_cases (r : NumberRange) : (r.IsValid ∧ r.check = .ok ()) ∨
    (r.LastOverflows ∧ r.check = .error (.overflow .subtraction)) ∨
    (¬r.IsValid ∧ ¬r.LastOverflows ∧ ∃ reason, r.check = .error (.invalid reason)) := by
  have hone : (1 : Int32).toInt = 1 := rfl
  have hmin : Int32.minValue.toInt = -2147483648 := rfl
  have hmax : maxFieldNumber.toInt = 536870911 := rfl
  have hlow := r.stop.le_toInt
  have hhigh := r.stop.toInt_lt
  by_cases hpositive : r.start < 1
  · refine .inr (.inr ⟨fun h => ?_, fun h => ?_, _, by rw [check, if_pos hpositive]⟩)
    · exact absurd h.positive (by rw [Int32.lt_iff_toInt_lt] at hpositive; omega)
    · exact absurd h.1 (by rw [Int32.lt_iff_toInt_lt] at hpositive; omega)
  rw [check, if_neg hpositive]
  rw [Int32.lt_iff_toInt_lt] at hpositive
  by_cases hover : r.last < Int32.minValue.toInt
  · rw [last] at hover
    exact .inr (.inl ⟨⟨by omega, by omega⟩, if_pos hover⟩)
  rw [if_neg hover]
  rw [last] at hover
  have hfits : ¬r.LastOverflows := fun h => by have := h.2; omega
  have hlast : (r.stop - 1).toInt = r.stop.toInt - 1 := by
    rw [Int32.toInt_sub]
    exact Int.bmod_eq_of_le (by omega) (by omega)
  by_cases hempty : r.stop ≤ r.start
  · refine .inr (.inr ⟨fun h => ?_, hfits, _, if_pos hempty⟩)
    exact absurd h.nonempty (by rw [Int32.le_iff_toInt_le] at hempty; omega)
  rw [if_neg hempty]
  rw [Int32.le_iff_toInt_le] at hempty
  by_cases hlarge : maxFieldNumber.toInt < r.last
  · exact .inr
      (.inr ⟨fun h => absurd h.bounded (by rw [last] at hlarge; omega), hfits, _, if_pos hlarge⟩)
  rw [if_neg hlarge]
  rw [last] at hlarge
  by_cases hreserved : (isReservedNumber r.start || isReservedNumber (r.stop - 1)) = true
  · refine .inr (.inr ⟨fun h => ?_, hfits, _, if_pos hreserved⟩)
    rw [Bool.or_eq_true, isReservedNumber_iff, isReservedNumber_iff, hlast] at hreserved
    exact hreserved.elim h.start_free h.last_free
  · rw [if_neg hreserved]
    rw [Bool.or_eq_true, isReservedNumber_iff, isReservedNumber_iff, hlast, not_or] at hreserved
    exact .inl ⟨⟨by omega, by omega, by omega, hreserved.1, hreserved.2⟩, rfl⟩

theorem IsValid.of_check (h : r.check = .ok ()) : r.IsValid := by
  rcases r.check_cases with ⟨hvalid, -⟩ | ⟨-, hcheck⟩ | ⟨-, -, _, hcheck⟩
  · exact hvalid
  · cases hcheck.symm.trans h
  · cases hcheck.symm.trans h

theorem check_ofBounds (first last : Int32) (e : Overflow) :
    (ofBounds first last).check ≠ .error (.overflow e) := by
  intro h
  rcases check_cases (ofBounds first last) with ⟨-, hcheck⟩ | ⟨⟨-, hstop⟩, -⟩ | ⟨-, -, _, hcheck⟩
  · cases hcheck.symm.trans h
  · have hlow := last.le_toInt
    have hhigh := last.toInt_lt
    have hone : (1 : Int32).toInt = 1 := rfl
    have hmax : Int32.maxValue.toInt = 2147483647 := rfl
    rw [ofBounds] at hstop
    split at hstop
    · next hlast => rw [hlast] at hstop; cases hstop
    · next hlast =>
      have hne : last.toInt ≠ 2147483647 := fun h => hlast (Int32.toInt_inj.mp (h.trans hmax.symm))
      rw [Int32.toInt_add, Int.bmod_eq_of_le (by omega) (by omega)] at hstop
      omega
  · cases hcheck.symm.trans h

def edges (rs : List NumberRange) : List Int32 := rs.flatMap fun r => [r.start, r.stop]

@[simp] theorem edges_cons (r : NumberRange) (rs : List NumberRange) :
    edges (r :: rs) = r.start :: r.stop :: edges rs := rfl

@[simp] theorem edges_append (qs : List NumberRange) :
    edges (rs ++ qs) = edges rs ++ edges qs := flatMap_append

@[simp] theorem length_edges : (edges rs).length = 2 * rs.length := by
  induction rs with
  | nil => rfl
  | cons r rs ih =>
    simp only [edges_cons, length_cons]
    omega

theorem pairUp_edges : pairUp (edges rs) = rs := by
  induction rs with
  | nil => rfl
  | cons r rs ih => rw [edges_cons, pairUp, ih]

/-- Each range ends before or where the next one starts. -/
structure Ascending (rs : List NumberRange) : Prop where
  nonempty : ∀ r ∈ rs, r.start < r.stop
  apart : rs.Pairwise fun r q => r.stop ≤ q.start

theorem Ascending.exists_split {rs : List NumberRange} (h : Ascending rs) (n : Int32) :
    ∃ before after, rs = before ++ after ∧ (∀ r ∈ before, r.stop ≤ n) ∧
      ∀ r ∈ after, n < r.stop := by
  induction rs with
  | nil => exact ⟨[], [], rfl, by nofun, by nofun⟩
  | cons r rs ih =>
    obtain ⟨hnext, hapart⟩ := pairwise_cons.mp h.apart
    by_cases hr : r.stop ≤ n
    · obtain ⟨before, after, rfl, hbefore, hafter⟩ :=
        ih ⟨fun q hq => h.nonempty q (.tail _ hq), hapart⟩
      exact ⟨r :: before, after, rfl, forall_mem_cons.mpr ⟨hr, hbefore⟩, hafter⟩
    · refine ⟨[], r :: rs, rfl, by nofun, forall_mem_cons.mpr ⟨Int32.not_le.mp hr, fun q hq => ?_⟩⟩
      exact Int32.lt_of_lt_of_le (Int32.not_le.mp hr) (Int32.le_trans (hnext q hq)
        (Int32.le_of_lt (h.nonempty q (.tail _ hq))))

theorem Ascending.next (h : Ascending (before ++ r :: after)) : ∀ q ∈ after, r.stop ≤ q.start :=
  (pairwise_cons.mp (pairwise_append.mp h.apart).2.1).1

end NumberRange

namespace RangeSet

open NumberRange

variable {s : RangeSet} {rs : List NumberRange} {r : NumberRange}

structure Holds (s : RangeSet) (rs : List NumberRange) : Prop where
  boundaries_eq : s.boundaries = edges rs
  ascending : Ascending rs

theorem Holds.empty : empty.Holds [] := ⟨rfl, ⟨by nofun, .nil⟩⟩

theorem Holds.ranges_eq (h : s.Holds rs) : s.ranges = rs := by
  rw [ranges, h.boundaries_eq, pairUp_edges]

theorem rangeFrom_eq {i : Nat} (heven : i % 2 = 0)
    (hi : i < s.boundaries.length) (h : s.boundaries = edges (before ++ r :: after))
    (hlength : i = 2 * before.length) : s.rangeFrom i heven hi = r := by
  obtain ⟨bs, hpaired⟩ := s
  subst h hlength
  simp [rangeFrom]

theorem Holds.reached_cases (h : s.Holds rs) (n : Int32) :
    ∃ before after, rs = before ++ after ∧ (∀ r ∈ before, r.stop ≤ n) ∧
      ((s.reached n = 2 * before.length ∧ ∀ r ∈ after, n < r.start) ∨
        ∃ r rest, after = r :: rest ∧ r.start ≤ n ∧ n < r.stop ∧
        s.reached n = 2 * before.length + 1) := by
  obtain ⟨before, after, rfl, hbefore, hafter⟩ := h.ascending.exists_split n
  have hprefix : ∀ b ∈ edges before, decide (b ≤ n) = true := by
    intro b hb
    obtain ⟨r, hr, hb⟩ := mem_flatMap.mp hb
    have hstart := h.ascending.nonempty r (mem_append_left _ hr)
    have hstop := hbefore r hr
    simp only [mem_cons, not_mem_nil, or_false] at hb
    simp only [decide_eq_true_eq, Int32.lt_iff_toInt_lt, Int32.le_iff_toInt_le] at *
    rcases hb with rfl | rfl <;> omega
  have hreached : s.reached n = 2 * before.length + ((edges after).takeWhile (· ≤ n)).length := by
    rw [reached, h.boundaries_eq, edges_append, takeWhile_append_of_pos hprefix, length_append,
      length_edges]
  refine ⟨before, after, rfl, hbefore, ?_⟩
  cases after with
  | nil => exact .inl ⟨hreached, by nofun⟩
  | cons r rest =>
    have hstop := hafter r (.head _)
    by_cases hstart : r.start ≤ n
    · refine .inr ⟨r, rest, rfl, hstart, hstop, ?_⟩
      rw [hreached, edges_cons, takeWhile_cons_of_pos (by simpa using hstart),
        takeWhile_cons_of_neg (by simpa using hstop)]
      rfl
    · have hstart := Int32.not_le.mp hstart
      refine .inl ⟨?_, forall_mem_cons.mpr ⟨hstart, fun q hq => ?_⟩⟩
      · rw [hreached, edges_cons, takeWhile_cons_of_neg (by simpa using hstart)]
        rfl
      · exact Int32.lt_trans hstart
          (Int32.lt_of_lt_of_le (h.ascending.nonempty r (by simp)) (h.ascending.next q hq))

theorem Holds.rangeOf?_eq_some_iff (h : s.Holds rs) :
    s.rangeOf? n = some r ↔ r ∈ rs ∧ r.contains n = true := by
  obtain ⟨before, after, rfl, hbefore, ⟨hreached, hafter⟩ |
      ⟨q, rest, rfl, hstart, hstop, hreached⟩⟩ :=
    h.reached_cases n
  · rw [rangeOf?, dif_neg (by omega)]
    refine ⟨by nofun, fun ⟨hr, hn⟩ => ?_⟩
    obtain ⟨hstart, hstop⟩ := contains_iff.mp hn
    rcases mem_append.mp hr with hr | hr
    · exact absurd hstop (Int32.not_lt.mpr (hbefore r hr))
    · exact absurd hstart (Int32.not_le.mpr (hafter r hr))
  · rw [rangeOf?, dif_pos (by omega), rangeFrom_eq _ _ h.boundaries_eq (by omega), Option.some_inj]
    constructor
    · rintro rfl
      exact ⟨by simp, contains_iff.mpr ⟨hstart, hstop⟩⟩
    · rintro ⟨hr, hn⟩
      obtain ⟨hstart', hstop'⟩ := contains_iff.mp hn
      rcases mem_append.mp hr with hr | hr
      · exact absurd hstop' (Int32.not_lt.mpr (hbefore r hr))
      · rcases mem_cons.mp hr with rfl | hr
        · rfl
        · have hafter := Int32.lt_of_lt_of_le hstop (h.ascending.next r hr)
          exact absurd hstart' (Int32.not_le.mpr hafter)

theorem contains_eq (s : RangeSet) (n : Int32) : s.contains n = (s.rangeOf? n).isSome := by
  by_cases hodd : s.reached n % 2 = 1 <;> simp [contains, rangeOf?, hodd]

theorem Holds.overlapping?_cases (h : s.Holds rs) (hr : r.start < r.stop) :
    (∃ q ∈ rs, r.Meets q ∧ s.overlapping? r = some q) ∨
      s.overlapping? r = none ∧ ∃ before after, rs = before ++ after ∧
        s.reached r.start = 2 * before.length ∧ (∀ q ∈ before, q.stop ≤ r.start) ∧
        ∀ q ∈ after, r.stop ≤ q.start := by
  have hmeets (q : NumberRange) (hq : q ∈ rs) := meets_iff hr (h.ascending.nonempty q hq)
  obtain ⟨before, after, rfl, hbefore, ⟨hreached, hafter⟩ |
      ⟨q, rest, rfl, hstart, hstop, hreached⟩⟩ :=
    h.reached_cases r.start
  · rw [overlapping?, dif_neg (by omega)]
    cases after with
    | nil =>
      rw [dif_neg (by simp [hreached, h.boundaries_eq])]
      exact .inr ⟨rfl, before, [], rfl, hreached, hbefore, by nofun⟩
    | cons q rest =>
      have hi : s.reached r.start < s.boundaries.length := by
        simp only [h.boundaries_eq, length_edges, length_append, length_cons]
        omega
      rw [dif_pos hi, rangeFrom_eq _ _ h.boundaries_eq hreached]
      have hfirst := hafter q (.head _)
      have hq := h.ascending.nonempty q (by simp)
      by_cases hbelow : q.start < r.stop
      · refine .inl ⟨q, by simp, (hmeets q (by simp)).mpr ⟨?_, hbelow⟩, by simp [hbelow]⟩
        exact Int32.lt_trans hfirst hq
      · refine .inr ⟨by simp [Option.filter, hbelow], before, q :: rest, rfl, hreached, hbefore, ?_⟩
        have hstop := Int32.le_trans (Int32.not_lt.mp hbelow) (Int32.le_of_lt hq)
        exact forall_mem_cons.mpr ⟨Int32.not_lt.mp hbelow, fun q' hq' =>
          Int32.le_trans hstop (h.ascending.next q' hq')⟩
  · rw [overlapping?, dif_pos (by omega)]
    refine .inl ⟨q, by simp, (hmeets q (by simp)).mpr ⟨hstop, Int32.lt_of_le_of_lt hstart hr⟩, ?_⟩
    exact h.rangeOf?_eq_some_iff.mpr ⟨by simp, contains_iff.mpr ⟨hstart, hstop⟩⟩

theorem Holds.insert_cases (h : s.Holds rs) (r : NumberRange) :
    (r.IsValid ∧ (∀ q ∈ rs, ¬r.Meets q) ∧ ∃ s' before after, s.insert r = .ok s' ∧
      rs = before ++ after ∧ s'.Holds (before ++ r :: after)) ∨
    (r.LastOverflows ∧ s.insert r = .error (.overflow .subtraction)) ∨
    (¬r.IsValid ∧ ¬r.LastOverflows ∧ ∃ reason, s.insert r = .error (.invalid reason)) ∨
    r.IsValid ∧ ∃ q ∈ rs, r.Meets q ∧ s.insert r = .error (.overlap q) := by
  rcases r.check_cases with ⟨hvalid, hcheck⟩ | ⟨hover, hcheck⟩ | ⟨hvalid, hfits, reason, hcheck⟩
  · have hr : r.start < r.stop := Int32.lt_iff_toInt_lt.mpr hvalid.nonempty
    rcases h.overlapping?_cases hr with
      ⟨q, hq, hmeets, hsome⟩ | ⟨hnone, before, after, rfl, hreached, hbefore, hafter⟩
    · exact .inr (.inr (.inr ⟨hvalid, q, hq, hmeets, by simp [insert, hcheck, hsome]⟩))
    · refine .inl ⟨hvalid, fun q hq hmeets => ?_, _, before, after,
        by simp only [insert, hcheck, hnone]; rfl, rfl, ?_, ?_, ?_⟩
      · obtain ⟨hstart, hstop⟩ := (meets_iff hr (h.ascending.nonempty q hq)).mp hmeets
        rcases mem_append.mp hq with hq | hq
        · exact absurd hstart (Int32.not_lt.mpr (hbefore q hq))
        · exact absurd hstop (Int32.not_lt.mpr (hafter q hq))
      · have hlength : s.reached r.start = (edges before).length := by rw [hreached, length_edges]
        simp [h.boundaries_eq, hlength]
      · simpa [or_imp, forall_and, hr] using h.ascending.nonempty
      · obtain ⟨hfirst, hrest, hacross⟩ := pairwise_append.mp h.ascending.apart
        refine pairwise_append.mpr ⟨hfirst, .cons hafter hrest, fun q hq x hx => ?_⟩
        rcases mem_cons.mp hx with rfl | hx
        · exact hbefore q hq
        · exact hacross q hq x hx
  · exact .inr (.inl ⟨hover, by rw [insert, hcheck]⟩)
  · exact .inr (.inr (.inl ⟨hvalid, hfits, reason, by rw [insert, hcheck]⟩))

theorem insert_ofBounds (s : RangeSet) (first last : Int32) (e : Overflow) :
    s.insert (.ofBounds first last) ≠ .error (.overflow e) := by
  intro h
  unfold insert at h
  split at h
  · next hcheck =>
    cases h
    exact check_ofBounds first last e hcheck
  · split at h <;> cases h

/-! ### Sets that ranges were offered to -/

/-- Offers a range to a set. A set that takes it is kept with the ranges it has taken. Nothing is
left where the program stops. -/
def offer (x : RangeSet × List NumberRange) (r : NumberRange) :
    Option (RangeSet × List NumberRange) :=
  match x.1.insert r with
  | .ok s => some (s, x.2 ++ [r])
  | .error (.overflow _) => none
  | .error _ => some x

/-- The set that took ranges out of those that were offered, one after the other, and what it
took. -/
def offered (rs : List NumberRange) : Option (RangeSet × List NumberRange) :=
  rs.foldlM offer (empty, [])

/-- A set with the ranges it has taken. -/
def Took (s : RangeSet) (taken : List NumberRange) : Prop :=
  (∀ q ∈ taken, q.IsValid) ∧ ∃ rs, s.Holds rs ∧ rs.Perm taken

theorem Took.offer_cases {taken : List NumberRange} (h : s.Took taken) (r : NumberRange) :
    (r.LastOverflows ∧ offer (s, taken) r = none) ∨
      ¬r.LastOverflows ∧ ∃ s' taken', offer (s, taken) r = some (s', taken') ∧ s'.Took taken' := by
  obtain ⟨hvalid, rs, hholds, hperm⟩ := h
  rcases hholds.insert_cases r with ⟨hr, -, s', before, after, hinsert, rfl, hholds'⟩ |
    ⟨hover, hinsert⟩ | ⟨-, hfits, _, hinsert⟩ | ⟨hr, q, -, -, hinsert⟩
  · refine .inr ⟨hr.lastFits, s', taken ++ [r], by simp only [offer, hinsert], ?_, _, hholds', ?_⟩
    · exact forall_mem_append.mpr ⟨hvalid, by simpa using hr⟩
    · exact perm_middle.trans ((Perm.cons r hperm).trans (perm_append_singleton r taken).symm)
  · exact .inl ⟨hover, by simp only [offer, hinsert]⟩
  · exact .inr ⟨hfits, s, taken, by simp only [offer, hinsert], hvalid, rs, hholds, hperm⟩
  · exact .inr ⟨hr.lastFits, s, taken, by simp only [offer, hinsert], hvalid, rs, hholds, hperm⟩

theorem offered_cases (offers : List NumberRange) :
    ((∃ q ∈ offers, q.LastOverflows) ∧ offered offers = none) ∨
      (∀ q ∈ offers, ¬q.LastOverflows) ∧
        ∃ s taken, offered offers = some (s, taken) ∧ s.Took taken := by
  have hfold (s : RangeSet) (taken : List NumberRange) (h : s.Took taken) :
      ((∃ q ∈ offers, q.LastOverflows) ∧ offers.foldlM offer (s, taken) = none) ∨
        (∀ q ∈ offers, ¬q.LastOverflows) ∧
          ∃ s' taken', offers.foldlM offer (s, taken) = some (s', taken') ∧ s'.Took taken' := by
    induction offers generalizing s taken with
    | nil => exact .inr ⟨by nofun, s, taken, rfl, h⟩
    | cons r offers ih =>
      rw [foldlM_cons]
      rcases h.offer_cases r with ⟨hover, hnone⟩ | ⟨hfits, s', taken', hsome, h'⟩
      · exact .inl ⟨⟨r, .head _, hover⟩, by rw [hnone]; rfl⟩
      · rw [hsome]
        exact (ih s' taken' h').imp (.imp_left fun ⟨q, hq, hover⟩ => ⟨q, .tail _ hq, hover⟩)
          (.imp_left fun hrest => forall_mem_cons.mpr ⟨hfits, hrest⟩)
  exact hfold _ _ ⟨by nofun, [], .empty, .nil⟩

/-- Whichever ranges are offered to a set, the program stops at one whose last number overflows, and
at no other. As long as it goes on, the next range is taken if it is valid and meets none of those
that were taken, and changes nothing otherwise. Where an overlap is reported it is with a range that
was taken. The set lists what was taken in ascending order, and finds for each number the range it
is in. -/
theorem offered_correct (offers : List NumberRange) (r : NumberRange) (n : Int32) :
    ((∃ q ∈ offers, q.LastOverflows) ∧ offered offers = none) ∨
    (∀ q ∈ offers, ¬q.LastOverflows) ∧ ∃ s taken, offered offers = some (s, taken) ∧
      ((∃ e, s.insert r = .error (.overflow e)) ↔ r.LastOverflows) ∧
      ((∃ s', s.insert r = .ok s') ↔ r.IsValid ∧ ∀ q ∈ taken, ¬r.Meets q) ∧
      (∀ violation, s.insert r = .error violation → ¬r.LastOverflows →
        offered (offers ++ [r]) = some (s, taken) ∧
        ∀ q, violation = .overlap q → q ∈ taken ∧ r.Meets q) ∧
      (∀ q ∈ taken, q.IsValid) ∧ s.ranges.Perm taken ∧ Ascending s.ranges ∧
      (s.contains n = true ↔ ∃ q ∈ taken, q.contains n = true) ∧
      ∀ q, s.rangeOf? n = some q ↔ q ∈ taken ∧ q.contains n = true := by
  refine (offered_cases offers).imp_right (.imp_right ?_)
  rintro ⟨s, taken, hoffered, hvalid, rs, hholds, hperm⟩
  have hmem (q : NumberRange) : q ∈ taken ↔ q ∈ rs := hperm.mem_iff.symm
  refine ⟨s, taken, hoffered, ?_, ?_, fun violation herror hfits => ?_, hvalid, ?_, ?_, ?_, ?_⟩
  · rcases hholds.insert_cases r with ⟨hr, -, _, _, _, hinsert, -⟩ | ⟨hover, hinsert⟩ |
      ⟨-, hfits, _, hinsert⟩ | ⟨hr, _, -, -, hinsert⟩ <;> rw [hinsert]
    · simpa using hr.lastFits
    · simpa using hover
    · simpa using hfits
    · simpa using hr.lastFits
  · simp only [hmem]
    rcases hholds.insert_cases r with ⟨hr, hapart, s', _, _, hinsert, -⟩ | ⟨hover, hinsert⟩ |
      ⟨hr, -, _, hinsert⟩ | ⟨-, q, hq, hmeets, hinsert⟩ <;> rw [hinsert]
    · exact ⟨fun _ => ⟨hr, hapart⟩, fun _ => ⟨s', rfl⟩⟩
    · exact ⟨by nofun, fun h => absurd hover h.1.lastFits⟩
    · exact ⟨by nofun, fun h => absurd h.1 hr⟩
    · exact ⟨by nofun, fun h => absurd hmeets (h.2 q hq)⟩
  · have hnext : offered (offers ++ [r]) = offer (s, taken) r := by
      rw [offered, foldlM_append, ← offered, hoffered]
      simp
    rcases hholds.insert_cases r with ⟨-, -, _, _, _, hinsert, -⟩ | ⟨hover, -⟩ |
      ⟨-, -, _, hinsert⟩ | ⟨-, q, hq, hmeets, hinsert⟩
    · cases hinsert.symm.trans herror
    · exact absurd hover hfits
    · cases hinsert.symm.trans herror
      exact ⟨by rw [hnext, offer, hinsert], by nofun⟩
    · cases hinsert.symm.trans herror
      refine ⟨by rw [hnext, offer, hinsert], ?_⟩
      rintro _ ⟨⟩
      exact ⟨(hmem q).mpr hq, hmeets⟩
  · rwa [hholds.ranges_eq]
  · rw [hholds.ranges_eq]
    exact hholds.ascending
  · rw [contains_eq, Option.isSome_iff_exists]
    simp only [hholds.rangeOf?_eq_some_iff, hmem]
  · intro q
    rw [hholds.rangeOf?_eq_some_iff, hmem]

theorem offered_leastEnd : offered [⟨1, Int32.minValue⟩] = none := by
  decide

end RangeSet

end ProtobufSchema
