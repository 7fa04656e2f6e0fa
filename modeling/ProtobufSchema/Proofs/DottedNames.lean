import Mathlib.Data.List.Basic
import ProtobufSchema.Text.Name

/-! Dotted names as lists of segments. -/

namespace ProtobufSchema

open List

namespace Name

variable {ss : List String} {name s : String} {cs : List Char}
variable {c d : Char}

def IsSegment (s : String) : Prop := s ≠ "" ∧ '.' ∉ s.toList

def dotted (ss : List String) : String := ".".intercalate ss

theorem dotted_nil : dotted [] = "" := String.intercalate_nil

theorem dotted_singleton (s : String) : dotted [s] = s := String.intercalate_singleton

theorem segments_ne_nil (name : String) : segments name ≠ [] := by
  simp [segments]

theorem dotted_segments (name : String) : dotted (segments name) = name := by
  apply String.toList_inj.mp
  have hchars : (segments name).map String.toList = name.toList.splitOn '.' := by simp [segments]
  rw [dotted, String.toList_intercalate, hchars]
  exact intercalate_splitOn '.'

theorem segments_dotted (hss : ss ≠ []) (h : ∀ s ∈ ss, '.' ∉ s.toList) :
    segments (dotted ss) = ss := by
  have hchars : (dotted ss).toList.splitOn '.' = ss.map String.toList := by
    rw [dotted, String.toList_intercalate]
    exact splitOn_intercalate '.' (by simpa using h) (by simpa using hss)
  rw [segments, hchars]
  simp

theorem dotted_injective {ts : List String} (hss : ss ≠ []) (hts : ts ≠ [])
    (hs : ∀ s ∈ ss, '.' ∉ s.toList) (ht : ∀ t ∈ ts, '.' ∉ t.toList) (h : dotted ss = dotted ts) :
    ss = ts := by
  rw [← segments_dotted hss hs, h, segments_dotted hts ht]

theorem not_mem_of_mem_segments (h : s ∈ segments name) : '.' ∉ s.toList := by
  have hpieces (cs : List Char) : ∀ piece ∈ cs.splitOn '.', '.' ∉ piece := by
    induction cs with
    | nil => simp
    | cons c cs ih =>
      rw [splitOn_cons_eq_if_modifyHead]
      split
      · simpa using ih
      · rename_i hc
        obtain ⟨first, more, hsplit⟩ := exists_cons_of_ne_nil (splitOn_ne_nil '.' cs)
        rw [hsplit] at ih ⊢
        obtain ⟨hfirst, hmore⟩ := forall_mem_cons.mp ih
        refine forall_mem_cons.mpr ⟨?_, hmore⟩
        rw [mem_cons, not_or]
        exact ⟨fun hdot => hc (by simp [← hdot]), hfirst⟩
  obtain ⟨piece, hpiece, rfl⟩ := mem_map.mp h
  simpa using hpieces name.toList piece hpiece

theorem dotted_ne_empty (hss : ss ≠ []) (h : ∀ s ∈ ss, IsSegment s) : dotted ss ≠ "" := by
  intro hempty
  have hsame : ss = [""] := by
    refine dotted_injective hss (by simp) (fun s hs => (h s hs).2) (by simp) ?_
    rw [hempty, dotted_singleton]
  exact (h "" (by simp [hsame])).1 rfl

theorem join_dotted (h : ∀ s ∈ ss, IsSegment s) (name : String) :
    join (dotted ss) name = dotted (ss ++ segments name) := by
  by_cases hss : ss = []
  · subst hss
    rw [dotted_nil, join, if_pos rfl, nil_append, dotted_segments]
  · rw [join, if_neg (dotted_ne_empty hss h), dotted, dotted,
      String.intercalate_append_of_ne_nil hss (segments_ne_nil name)]
    congr 1
    exact (dotted_segments name).symm

theorem segments_of_isSegment (h : IsSegment s) : segments s = [s] := by
  have hone : segments (dotted [s]) = [s] := segments_dotted (by simp) (by simpa using h.2)
  rwa [dotted_singleton] at hone

theorem filter_segments_dotted (h : ∀ s ∈ ss, IsSegment s) :
    (segments (dotted ss)).filter (· ≠ "") = ss := by
  by_cases hnil : ss = []
  · subst hnil
    rfl
  · rw [segments_dotted hnil fun s hs => (h s hs).2, filter_eq_self.mpr]
    simpa using fun s hs => (h s hs).1

theorem outerReversed_append (hcs : '.' ∉ cs) (rest : List Char) :
    outerReversed (cs ++ '.' :: rest) = rest :: outerReversed rest := by
  induction cs with
  | nil => rw [nil_append, outerReversed, if_pos rfl]
  | cons c cs ih =>
    rw [mem_cons, not_or] at hcs
    obtain ⟨hc, hcs⟩ := hcs
    rw [cons_append, outerReversed, if_neg (Ne.symm hc), if_neg (by simp), ih hcs]

theorem outerReversed_segment (hne : cs ≠ []) (hcs : '.' ∉ cs) : outerReversed cs = [[]] := by
  induction cs with
  | nil => exact absurd rfl hne
  | cons c cs ih =>
    rw [mem_cons, not_or] at hcs
    obtain ⟨hc, hcs⟩ := hcs
    rw [outerReversed, if_neg (Ne.symm hc)]
    by_cases hlast : cs = []
    · rw [if_pos hlast]
    · rw [if_neg hlast, ih hlast hcs]

theorem enclosing_empty : enclosing "" = [""] := rfl

theorem enclosing_join (scope : String) (h : IsSegment s) :
    enclosing (join scope s) = join scope s :: enclosing scope := by
  obtain ⟨hne, hdot⟩ := h
  have hchars : s.toList.reverse ≠ [] := by simpa using hne
  have hdot : '.' ∉ s.toList.reverse := by simpa using hdot
  unfold join
  by_cases hscope : scope = ""
  · rw [if_pos hscope, hscope, enclosing, outerReversed_segment hchars hdot]
    rfl
  · have hreverse : (scope ++ "." ++ s).toList.reverse =
        s.toList.reverse ++ '.' :: scope.toList.reverse := by simp
    rw [if_neg hscope, enclosing, hreverse, outerReversed_append hdot, map_cons, enclosing,
      reverse_reverse, String.ofList_toList]

theorem absolute?_qualify (fullName : String) : absolute? (qualify fullName) = some fullName := by
  have hchars : (qualify fullName).toList = '.' :: fullName.toList := by
    rw [qualify, String.toList_append]
    rfl
  simp [absolute?, hchars]

theorem eq_qualify_of_absolute? {fullName : String} (h : absolute? name = some fullName) :
    name = qualify fullName := by
  unfold absolute? at h
  split at h
  · rename_i rest hchars
    cases h
    apply String.toList_inj.mp
    rw [hchars, qualify]
    simp
  · cases h

/-! ### Names that are made from others -/

theorem toLower_ne (hd : ¬(97 ≤ d.val ∧ d.val ≤ 122)) (h : c ≠ d) : c.toLower ≠ d := by
  unfold Char.toLower
  split
  · next hc =>
    rintro rfl
    simp [UInt32.le_iff_toNat_le] at hd hc
    omega
  · exact h

theorem toUpper_ne (hd : ¬(65 ≤ d.val ∧ d.val ≤ 90)) (h : c ≠ d) : c.toUpper ≠ d := by
  unfold Char.toUpper
  split
  · next hc =>
    rintro rfl
    simp [UInt32.le_iff_toNat_le] at hd hc
    omega
  · exact h

theorem isSegment_lower (h : IsSegment name) : IsSegment (.ofList (name.toList.map .toLower)) := by
  obtain ⟨hne, hdot⟩ := h
  constructor
  · intro hempty
    have hnil := congrArg String.toList hempty
    simp only [String.toList_ofList, String.toList_empty, map_eq_nil_iff] at hnil
    exact hne (String.toList_eq_nil_iff.mp hnil)
  · simp only [String.toList_ofList, mem_map, not_exists, not_and]
    intro c hc
    exact toLower_ne (by decide) fun heq => hdot (heq ▸ hc)

theorem not_mem_camelChars {upper : Bool} (h : '.' ∉ cs) : '.' ∉ camelChars upper cs := by
  induction cs generalizing upper with
  | nil => exact h
  | cons c cs ih =>
    rw [mem_cons, not_or] at h
    obtain ⟨hc, hcs⟩ := h
    unfold camelChars
    split
    · exact ih hcs
    · rw [mem_cons, not_or]
      refine ⟨?_, ih hcs⟩
      cases upper with
      | false => exact hc
      | true => exact (toUpper_ne (by decide) (.symm hc)).symm

theorem isSegment_mapEntryName (h : IsSegment name) : IsSegment (mapEntryName name) := by
  have hchars : (mapEntryName name).toList = camelChars true name.toList ++ "Entry".toList := by
    simp [mapEntryName]
  constructor
  · intro hempty
    rw [hempty] at hchars
    simp at hchars
  · rw [hchars, mem_append, not_or]
    exact ⟨not_mem_camelChars h.2, by decide⟩

end Name

end ProtobufSchema
