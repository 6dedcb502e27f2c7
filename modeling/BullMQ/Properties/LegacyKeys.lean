import BullMQ.Text.Search

/-!
# Legacy keys of repeatable jobs

Older versions kept a repeatable job under a key `name:id:endDate:tz:pattern`, where the end date
may be missing and the pattern is a cron pattern or an interval. `hasLegacyRepeatableKeyShape` scans
a key for its four colons and tests the two parts; `hasLegacyRepeatableKeyShape_iff` says that it
accepts the keys of that form. A string is the list of its UTF-16 code units.
-/

namespace BullMQ

open Text

/-- The code units that the scanner knows. -/
abbrev colon : UInt16 := 58

abbrev space : UInt16 := 32

/-- The code unit of an ASCII digit. -/
def isDigit (charCode : UInt16) : Bool := decide (48 ≤ charCode) && decide (charCode ≤ 57)

/-- `isNumericSegment`. -/
def isNumericSegment (key : List UInt16) (start stop : ℕ) : Bool :=
  if stop ≤ start then false else ((key.drop start).take (stop - start)).all isDigit

/-- `hasLegacyRepeatableKeyShape`. -/
def hasLegacyRepeatableKeyShape (key : List UInt16) : Bool :=
  match indexOf key colon 0 with
  | none => false
  | some firstColon =>
    match indexOf key colon (firstColon + 1) with
    | none => false
    | some secondColon =>
      match indexOf key colon (secondColon + 1) with
      | none => false
      | some thirdColon =>
        match indexOf key colon (thirdColon + 1) with
        | none => false
        | some fourthColon =>
          if secondColon + 1 < thirdColon ∧
              isNumericSegment key (secondColon + 1) thirdColon = false then false
          else
            let suffixStart := fourthColon + 1
            if key.length ≤ suffixStart then false
            else if (indexOf key space suffixStart).isSome then true
            else isNumericSegment key suffixStart key.length

/-- The form `name:id:endDate:tz:suffix` of a legacy key. -/
structure LegacyKey (key name id endDate tz suffix : List UInt16) : Prop where
  parts : key = name ++ colon :: (id ++ colon :: (endDate ++ colon :: (tz ++ colon :: suffix)))
  name_free : colon ∉ name
  id_free : colon ∉ id
  endDate_free : colon ∉ endDate
  tz_free : colon ∉ tz
  endDate_digits : endDate = [] ∨ ∀ c ∈ endDate, isDigit c
  suffix_ne : suffix ≠ []
  suffix_shape : space ∈ suffix ∨ ∀ c ∈ suffix, isDigit c

section Scan

variable {key front part rest : List UInt16}

/-- The scan for the next colon after a part that has been read. -/
theorem indexOf_next (hkey : key = front ++ (part ++ colon :: rest)) (hpart : colon ∉ part) :
    indexOf key colon front.length = some (front.length + part.length) := by
  rw [hkey]
  exact indexOf_append hpart

theorem isNumericSegment_iff (hkey : key = front ++ (part ++ rest)) (hpart : part ≠ []) :
    isNumericSegment key front.length (front.length + part.length) = true ↔
      ∀ c ∈ part, isDigit c := by
  have hpos := List.length_pos_iff.mpr hpart
  rw [isNumericSegment, if_neg (by omega), hkey, List.drop_left, Nat.add_sub_cancel_left,
    List.take_left, List.all_eq_true]

end Scan

/-- What the scanner says of a key with four colons. -/
theorem hasLegacyRepeatableKeyShape_parts {key name id endDate tz suffix : List UInt16}
    (hkey : key = name ++ colon :: (id ++ colon :: (endDate ++ colon :: (tz ++ colon :: suffix))))
    (hname : colon ∉ name) (hid : colon ∉ id) (hend : colon ∉ endDate) (htz : colon ∉ tz) :
    hasLegacyRepeatableKeyShape key = true ↔
      (endDate = [] ∨ ∀ c ∈ endDate, isDigit c) ∧ suffix ≠ [] ∧
        (space ∈ suffix ∨ ∀ c ∈ suffix, isDigit c) := by
  -- What has been read before each of the five parts.
  let read₁ := name ++ [colon]
  let read₂ := read₁ ++ (id ++ [colon])
  let read₃ := read₂ ++ (endDate ++ [colon])
  let read₄ := read₃ ++ (tz ++ [colon])
  have hlen₁ : read₁.length = name.length + 1 := by simp [read₁]
  have hlen₂ : read₂.length = read₁.length + id.length + 1 := by simp [read₂]; omega
  have hlen₃ : read₃.length = read₂.length + endDate.length + 1 := by simp [read₃]; omega
  have hlen₄ : read₄.length = read₃.length + tz.length + 1 := by simp [read₄]; omega
  have hkey₁ : key = read₁ ++ (id ++ colon :: (endDate ++ colon :: (tz ++ colon :: suffix))) := by
    simp [hkey, read₁]
  have hkey₂ : key = read₂ ++ (endDate ++ colon :: (tz ++ colon :: suffix)) := by
    simp [hkey, read₁, read₂]
  have hkey₃ : key = read₃ ++ (tz ++ colon :: suffix) := by simp [hkey, read₁, read₂, read₃]
  have hkey₄ : key = read₄ ++ (suffix ++ []) := by simp [hkey, read₁, read₂, read₃, read₄]
  have hlen : key.length = read₄.length + suffix.length := by
    rw [hkey₄, List.append_nil, List.length_append]
  have h₁ : indexOf key colon 0 = some name.length := by
    have h := indexOf_next (show key = [] ++ _ from hkey) hname
    simpa using h
  have h₂ : indexOf key colon read₁.length = some (read₁.length + id.length) :=
    indexOf_next hkey₁ hid
  have h₃ : indexOf key colon read₂.length = some (read₂.length + endDate.length) :=
    indexOf_next hkey₂ hend
  have h₄ : indexOf key colon read₃.length = some (read₃.length + tz.length) :=
    indexOf_next hkey₃ htz
  have hspace : (indexOf key space read₄.length).isSome = true ↔ space ∈ suffix := by
    rw [Option.isSome_iff_ne_none, ne_eq, hkey₄, indexOf_eq_none, not_not, List.append_nil]
  have hcond : ∀ digits : Bool, (read₂.length < read₂.length + endDate.length ∧ digits = false) ↔
      endDate ≠ [] ∧ digits = false := by
    intro digits
    rw [ne_eq, ← List.length_eq_zero_iff]
    refine and_congr_left fun _ => ?_
    omega
  have hscan : hasLegacyRepeatableKeyShape key =
      if endDate ≠ [] ∧
          isNumericSegment key read₂.length (read₂.length + endDate.length) = false then false
      else if key.length ≤ read₄.length then false
      else if (indexOf key space read₄.length).isSome then true
      else isNumericSegment key read₄.length key.length := by
    rw [hasLegacyRepeatableKeyShape, h₁]
    dsimp only
    rw [← hlen₁, h₂]
    dsimp only
    rw [← hlen₂, h₃]
    dsimp only
    rw [← hlen₃, h₄]
    dsimp only
    rw [← hlen₄]
    simp only [hcond]
  rw [hscan]
  by_cases hsuffix : suffix = []
  · have hle : key.length ≤ read₄.length := by rw [hlen, hsuffix]; simp
    simp [hsuffix, if_pos hle]
  · have hpos := List.length_pos_iff.mpr hsuffix
    have hgt : ¬ key.length ≤ read₄.length := by omega
    have hnum := isNumericSegment_iff hkey₄ hsuffix
    rw [← hlen] at hnum
    rw [if_neg hgt]
    have htail : (if (indexOf key space read₄.length).isSome = true then true
        else isNumericSegment key read₄.length key.length) = true ↔
          space ∈ suffix ∨ ∀ c ∈ suffix, isDigit c := by
      rw [← hspace, ← hnum]
      by_cases hsp : (indexOf key space read₄.length).isSome = true
      · simp [hsp]
      · rw [if_neg hsp]
        exact (or_iff_right hsp).symm
    by_cases hempty : endDate = []
    · rw [if_neg fun h => h.1 hempty, htail]
      simp [hempty, hsuffix]
    · have hdigits := isNumericSegment_iff hkey₂ hempty
      cases hseg : isNumericSegment key read₂.length (read₂.length + endDate.length) with
      | true =>
        rw [if_neg (by simp), htail]
        exact ⟨fun h => ⟨.inr (hdigits.mp hseg), hsuffix, h⟩, fun h => h.2.2⟩
      | false =>
        have hnot : ¬ ∀ c ∈ endDate, isDigit c := fun h => by
          rw [hdigits.mpr h] at hseg
          cases hseg
        rw [if_pos ⟨hempty, rfl⟩]
        simp [hempty, hnot]

/-- The scanner accepts exactly the keys of the legacy form. -/
theorem hasLegacyRepeatableKeyShape_iff (key : List UInt16) :
    hasLegacyRepeatableKeyShape key = true ↔
      ∃ name id endDate tz suffix, LegacyKey key name id endDate tz suffix := by
  constructor
  · intro h
    have hcut : ∀ front rest, key = front ++ rest → indexOf key colon front.length ≠ none →
        ∃ part after, rest = part ++ colon :: after ∧ colon ∉ part := by
      intro front rest hkey hne
      rw [hkey, ne_eq, indexOf_eq_none, not_not] at hne
      exact List.eq_append_cons_of_mem hne
    -- The scanner ends early unless it finds four colons, one after the other.
    obtain ⟨name, rest₁, hkey₁, hname⟩ := hcut [] key rfl fun hnone => by
      simp only [List.length_nil] at hnone
      simp [hasLegacyRepeatableKeyShape, hnone] at h
    have h₁ := indexOf_next (show key = [] ++ _ from hkey₁) hname
    simp only [List.length_nil, Nat.zero_add] at h₁
    have hread₁ : key = name ++ [colon] ++ rest₁ := by simp [hkey₁]
    obtain ⟨id, rest₂, rfl, hid⟩ := hcut _ _ hread₁ fun hnone => by
      simp only [List.length_append, List.length_singleton] at hnone
      simp [hasLegacyRepeatableKeyShape, h₁, hnone] at h
    have h₂ := indexOf_next hread₁ hid
    simp only [List.length_append, List.length_singleton] at h₂
    have hread₂ : key = name ++ [colon] ++ (id ++ [colon]) ++ rest₂ := by simp [hkey₁]
    obtain ⟨endDate, rest₃, rfl, hend⟩ := hcut _ _ hread₂ fun hnone => by
      simp only [List.length_append, List.length_singleton, ← Nat.add_assoc] at hnone
      simp [hasLegacyRepeatableKeyShape, h₁, h₂, hnone] at h
    have h₃ := indexOf_next hread₂ hend
    simp only [List.length_append, List.length_singleton, ← Nat.add_assoc] at h₃
    have hread₃ : key = name ++ [colon] ++ (id ++ [colon]) ++ (endDate ++ [colon]) ++ rest₃ := by
      simp [hkey₁]
    obtain ⟨tz, suffix, rfl, htz⟩ := hcut _ _ hread₃ fun hnone => by
      simp only [List.length_append, List.length_singleton, ← Nat.add_assoc] at hnone
      simp [hasLegacyRepeatableKeyShape, h₁, h₂, h₃, hnone] at h
    obtain ⟨hdigits, hne, hshape⟩ :=
      (hasLegacyRepeatableKeyShape_parts hkey₁ hname hid hend htz).mp h
    exact ⟨name, id, endDate, tz, suffix, hkey₁, hname, hid, hend, htz, hdigits, hne, hshape⟩
  · rintro ⟨name, id, endDate, tz, suffix, hkey⟩
    exact (hasLegacyRepeatableKeyShape_parts hkey.parts hkey.name_free hkey.id_free
      hkey.endDate_free hkey.tz_free).mpr
      ⟨hkey.endDate_digits, hkey.suffix_ne, hkey.suffix_shape⟩

end BullMQ
