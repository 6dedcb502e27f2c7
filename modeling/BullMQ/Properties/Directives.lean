import BullMQ.Model.ScriptLoader
import Mathlib.Data.Bool.AllAny
import Mathlib.Data.List.TakeWhile
import Mathlib.Data.Option.Basic

/-!
# The include directives of a file

A directive is at the start of a line, and what comes after its line are characters that may follow
the closing quote (`Directive`). Whether there is one depends on the line only
(`matchInclude_isSome`), so that the loop of `resolveDependencies` finds the directives of the file
in their order (`directives`), although it replaces each of them by tokens before it looks for the
next one.
-/

namespace BullMQ

open Text

variable {s rest line after x y : Chars} {quote : Char} {found : IncludeMatch} {atStart : Bool}

/-- The characters that end a line, as separators. -/
def Ends (c : Char) : Prop := isLineTerminator c = true

instance : DecidablePred Ends := fun c => inferInstanceAs (Decidable (isLineTerminator c = true))

/-- The text of a directive: a line that starts with a dash, and what follows it. -/
def Directive (text : Chars) : Prop :=
  ∃ line trailing, text = '-' :: line ++ trailing ∧ (∀ c ∈ line, ¬ Ends c) ∧
    ∀ c ∈ trailing, isTrailing c = true

theorem Directive.notAfter {text : Chars} (h : Directive text) {c : Char}
    (hc : isTrailing c = false) :
    NotAfter Ends c text := by
  obtain ⟨line, trailing, rfl, hline, htrailing⟩ := h
  refine notAfter_append (fun a ha => ?_) fun hmem => by simp [htrailing c hmem] at hc
  obtain rfl | ha := List.mem_cons.mp ha
  · decide
  · exact hline a ha

/-! ### The parts of the expression -/

theorem stripTrailing_eq (h : stripTrailing s = some rest) :
    ∃ trailing, s = trailing ++ rest ∧ (∀ c ∈ trailing, isTrailing c = true) ∧
      StartsAt Ends rest := by
  induction s with
  | nil =>
    obtain rfl : [] = rest := Option.some.inj h
    exact ⟨[], rfl, by simp, startsAt_nil⟩
  | cons c s ih =>
    rw [stripTrailing] at h
    split at h
    · next rest' hrest =>
      obtain rfl : rest' = rest := Option.some.inj h
      split at hrest
      · next hc =>
        obtain ⟨trailing, rfl, htrailing, hstarts⟩ := ih hrest
        exact ⟨c :: trailing, rfl, by simpa [hc] using htrailing, hstarts⟩
      · cases hrest
    · split at h
      · next hc =>
        obtain rfl : c :: s = rest := Option.some.inj h
        exact ⟨[], rfl, by simp, by simpa [StartsAt, Ends] using hc⟩
      · cases h

theorem stripTrailing_isSome_append (hline : ∀ c ∈ line, ¬ Ends c) (hafter : StartsAt Ends after) :
    (stripTrailing (line ++ after)).isSome = (stripTrailing line).isSome := by
  induction line with
  | nil =>
    cases after with
    | nil => rfl
    | cons c after =>
      have hc : isLineTerminator c = true := hafter c rfl
      simp only [List.nil_append, stripTrailing, hc]
      split <;> rfl
  | cons c line ih =>
    have hc : isLineTerminator c = false := by simpa [Ends] using hline c (by simp)
    have ih := ih fun a ha => hline a (List.mem_cons_of_mem c ha)
    rw [List.cons_append, stripTrailing, stripTrailing, hc]
    by_cases htrailing : isTrailing c = true
    · simp only [htrailing, if_true]
      cases hleft : stripTrailing (line ++ after) <;> cases hright : stripTrailing line <;>
        simp_all
    · simp [htrailing]

theorem stripReference_eq {reference : Chars}
    (h : stripReference quote s = some (reference, rest)) :
    ∃ trailing, s = reference ++ quote :: trailing ++ rest ∧ (∀ c ∈ reference, ¬ Ends c) ∧
      (∀ c ∈ trailing, isTrailing c = true) ∧ StartsAt Ends rest := by
  induction s generalizing reference with
  | nil => cases h
  | cons c s ih =>
    cases s with
    | nil => cases h
    | cons d s =>
      rw [stripReference] at h
      split at h
      · cases h
      · next hc =>
        split at h
        · next rest' hrest =>
          obtain ⟨rfl, rfl⟩ := Prod.mk.inj (Option.some.inj h)
          split at hrest
          · next hd =>
            obtain ⟨trailing, rfl, htrailing, hstarts⟩ := stripTrailing_eq hrest
            exact ⟨trailing, by rw [hd]; rfl, by simpa [Ends] using hc, htrailing, hstarts⟩
          · cases hrest
        · obtain ⟨⟨inner, rest'⟩, hinner, heq⟩ := Option.map_eq_some_iff.mp h
          obtain ⟨rfl, rfl⟩ := Prod.mk.inj heq
          obtain ⟨trailing, hs, hreference, htrailing, hstarts⟩ := ih hinner
          refine ⟨trailing, by rw [hs]; rfl, ?_, htrailing, hstarts⟩
          simpa [Ends, hc] using hreference

theorem stripReference_of_startsAt (quote : Char) (hafter : StartsAt Ends after) :
    stripReference quote after = none := by
  cases after with
  | nil => rfl
  | cons c after =>
    have hc : isLineTerminator c = true := hafter c rfl
    cases after with
    | nil => rfl
    | cons d after => rw [stripReference, if_pos hc]

theorem stripReference_isSome_append (hquote : ¬ Ends quote) (hline : ∀ c ∈ line, ¬ Ends c)
    (hafter : StartsAt Ends after) :
    (stripReference quote (line ++ after)).isSome = (stripReference quote line).isSome := by
  induction line with
  | nil => rw [List.nil_append, stripReference_of_startsAt quote hafter]; rfl
  | cons c line ih =>
    have hc : isLineTerminator c = false := by simpa [Ends] using hline c (by simp)
    have hline' : ∀ a ∈ line, ¬ Ends a := fun a ha => hline a (List.mem_cons_of_mem c ha)
    have ih := ih hline'
    cases line with
    | nil =>
      rw [List.nil_append, stripReference_of_startsAt quote hafter] at ih
      cases after with
      | nil => rfl
      | cons d after =>
        have hd : d ≠ quote := by
          rintro rfl
          exact hquote (hafter d rfl)
        simp [stripReference, hc, hd, stripReference_of_startsAt quote hafter]
    | cons d line =>
      have htrailing := stripTrailing_isSome_append
        (fun a ha => hline' a (List.mem_cons_of_mem d ha)) hafter
      simp only [List.cons_append] at ih ⊢
      rw [stripReference, stripReference, hc]
      by_cases hd : d = quote
      · simp only [hd, if_true, Bool.false_eq_true, if_false] at ih ⊢
        cases hleft : stripTrailing (line ++ after) <;> cases hright : stripTrailing line <;>
          simp_all
      · simpa [hd] using ih

theorem stripPrefix_append {word : Chars} (hword : ∀ c ∈ word, ¬ Ends c)
    (hafter : StartsAt Ends after) :
    stripPrefix word (line ++ after) = (stripPrefix word line).map (· ++ after) := by
  by_cases h : word <+: line
  · obtain ⟨tail, rfl⟩ := h
    simp [stripPrefix]
  · have hnot : ¬ word <+: line ++ after := fun hfronts =>
      h (prefix_of_append_startsAt hword hafter hfronts)
    simp [stripPrefix, h, hnot]

theorem stripDashes_append (line : Chars) (hafter : StartsAt Ends after) :
    stripDashes (line ++ after) = (stripDashes line).map (· ++ after) := by
  have hthree : ∀ c ∈ "---".toList, ¬ Ends c := List.all_iff_forall_prop.mp (by decide)
  have htwo : ∀ c ∈ "--".toList, ¬ Ends c := List.all_iff_forall_prop.mp (by decide)
  rw [stripDashes, stripDashes, stripPrefix_append hthree hafter, stripPrefix_append htwo hafter]
  cases stripPrefix "---".toList line <;> rfl

theorem isBlank_eq_false {c : Char} (h : Ends c) : isBlank c = false ∧ isQuote c = false := by
  simp only [Ends, isLineTerminator, Bool.or_eq_true, decide_eq_true_eq] at h
  obtain ((rfl | rfl) | rfl) | rfl := h <;> decide

theorem stripQuote_append (line : Chars) (hafter : StartsAt Ends after) :
    stripQuote (line ++ after) = (stripQuote line).map fun found =>
      (found.1, found.2 ++ after) := by
  cases line with
  | nil =>
    cases after with
    | nil => rfl
    | cons c after => simp [stripQuote, (isBlank_eq_false (hafter c rfl)).2]
  | cons c line =>
    rw [List.cons_append, stripQuote, stripQuote]
    split <;> rfl

/-- The end of a line is not blank. -/
theorem isBlank_line_append (line : Chars) (hafter : StartsAt Ends after) :
    (line ++ after).dropWhile isBlank = line.dropWhile isBlank ++ after ∧
      (line ++ after).takeWhile isBlank = line.takeWhile isBlank := by
  induction line with
  | nil =>
    cases after with
    | nil => exact ⟨rfl, rfl⟩
    | cons c after =>
      have hc : isBlank c = false := by
        have hends : isLineTerminator c = true := hafter c rfl
        simp only [isLineTerminator, isBlank, Bool.or_eq_true, decide_eq_true_eq] at hends ⊢
        obtain ((rfl | rfl) | rfl) | rfl := hends <;> decide
      simp [hc]
  | cons c line ih =>
    by_cases hc : isBlank c = true
    · simpa [hc] using ih
    · simp [hc]

theorem stripHeader_append (line : Chars) (hafter : StartsAt Ends after) :
    stripHeader (line ++ after) =
      (stripHeader line).map fun found => (found.1, found.2 ++ after) := by
  have hword : ∀ c ∈ "@include".toList, ¬ Ends c := List.all_iff_forall_prop.mp (by decide)
  rw [stripHeader, stripHeader, stripDashes_append line hafter]
  cases stripDashes line with
  | none => rfl
  | some s =>
    simp only [Option.map_some, Option.bind_eq_bind, Option.bind_some,
      (isBlank_line_append s hafter).1, stripPrefix_append hword hafter]
    cases stripPrefix "@include".toList (s.dropWhile isBlank) with
    | none => rfl
    | some s =>
      simp only [Option.map_some, Option.bind_some, isBlank_line_append s hafter,
        stripQuote_append _ hafter]
      by_cases hblank : (s.takeWhile isBlank).length ≠ 0
      · rw [guard, if_pos hblank]
        rfl
      · rw [guard, if_neg hblank]
        rfl

theorem stripPrefix_eq {word : Chars} (h : stripPrefix word s = some rest) : s = word ++ rest := by
  rw [stripPrefix] at h
  split at h
  · next hfronts =>
    obtain rfl := Option.some.inj h
    obtain ⟨tail, rfl⟩ := hfronts
    rw [List.drop_left]
  · cases h

theorem not_ends_of_isBlank {c : Char} (h : isBlank c = true) : ¬ Ends c := fun hends => by
  simp [(isBlank_eq_false hends).1] at h

theorem stripHeader_eq {inner : Chars} (h : stripHeader s = some (quote, inner)) :
    ∃ header, s = '-' :: header ++ quote :: inner ∧ (∀ c ∈ header, ¬ Ends c) ∧ ¬ Ends quote := by
  obtain ⟨s₁, h₁, hline⟩ := Option.bind_eq_some_iff.mp h
  obtain ⟨s₂, h₂, hblank⟩ := Option.bind_eq_some_iff.mp hline
  obtain ⟨-, -, hopen⟩ := Option.bind_eq_some_iff.mp hblank
  clear h hline hblank
  have hfirst : ∃ dashes, s = '-' :: dashes ++ s₁ ∧ ∀ c ∈ dashes, ¬ Ends c := by
    obtain h₁ | ⟨-, h₁⟩ := Option.or_eq_some_iff.mp h₁
    · exact ⟨"--".toList, stripPrefix_eq h₁, List.all_iff_forall_prop.mp (by decide)⟩
    · exact ⟨"-".toList, stripPrefix_eq h₁, List.all_iff_forall_prop.mp (by decide)⟩
  obtain ⟨dashes, rfl, hdashes⟩ := hfirst
  have hquote : s₂.dropWhile isBlank = quote :: inner ∧ isQuote quote = true := by
    cases hs : s₂.dropWhile isBlank with
    | nil => simp [hs, stripQuote] at hopen
    | cons c s =>
      rw [hs, stripQuote] at hopen
      split at hopen
      · next hc =>
        obtain ⟨rfl, rfl⟩ := Prod.mk.inj (Option.some.inj hopen)
        exact ⟨rfl, hc⟩
      · cases hopen
  have hs₂ : s₂ = s₂.takeWhile isBlank ++ quote :: inner := by
    rw [← hquote.1, List.takeWhile_append_dropWhile]
  have hs₁ : s₁ = s₁.takeWhile isBlank ++ ("@include".toList ++ s₂) := by
    rw [← stripPrefix_eq h₂, List.takeWhile_append_dropWhile]
  refine ⟨dashes ++ s₁.takeWhile isBlank ++ "@include".toList ++ s₂.takeWhile isBlank, ?_, ?_, ?_⟩
  · calc
      '-' :: dashes ++ s₁ = '-' :: dashes ++ (s₁.takeWhile isBlank ++ ("@include".toList ++
          (s₂.takeWhile isBlank ++ quote :: inner))) := by rw [← hs₂, ← hs₁]
      _ = _ := by simp only [List.append_assoc, List.cons_append]
  · have hword : ∀ c ∈ "@include".toList, ¬ Ends c := List.all_iff_forall_prop.mp (by decide)
    intro c hc
    simp only [List.mem_append] at hc
    obtain ((hc | hc) | hc) | hc := hc
    · exact hdashes c hc
    · exact not_ends_of_isBlank (List.mem_takeWhile_imp hc)
    · exact hword c hc
    · exact not_ends_of_isBlank (List.mem_takeWhile_imp hc)
  · intro hends
    simp [(isBlank_eq_false hends).2] at hquote

/-! ### A directive -/

theorem matchInclude_eq (h : matchInclude s = some found) :
    found.before = [] ∧ s = found.text ++ found.rest ∧ Directive found.text ∧
      StartsAt Ends found.rest := by
  simp only [matchInclude, Option.bind_eq_bind, Option.bind_eq_some_iff] at h
  obtain ⟨⟨quote, inner⟩, hheader, ⟨reference, rest⟩, hreference, h⟩ := h
  obtain rfl := Option.some.inj h
  obtain ⟨header, rfl, hfree, hquote⟩ := stripHeader_eq hheader
  have hreference : stripReference quote inner = some (reference, rest) := hreference
  obtain ⟨trailing, rfl, hinner, htrailing, hstarts⟩ := stripReference_eq hreference
  have hline : ∀ c ∈ header ++ [quote] ++ reference ++ [quote], ¬ Ends c := by
    intro c hc
    simp only [List.mem_append, List.mem_singleton] at hc
    obtain ((hc | rfl) | hc) | rfl := hc
    · exact hfree c hc
    · exact hquote
    · exact hinner c hc
    · exact hquote
  have htext : '-' :: header ++ quote :: (reference ++ quote :: trailing ++ rest) =
      ('-' :: (header ++ [quote] ++ reference ++ [quote]) ++ trailing) ++ rest := by simp
  have htake (core : Chars) : (core ++ rest).take ((core ++ rest).length - rest.length) = core := by
    simp
  simp only [htext, htake]
  exact ⟨trivial, trivial, ⟨_, trailing, rfl, hline, htrailing⟩, hstarts⟩

/-- Whether there is a directive depends on the line only. -/
theorem matchInclude_isSome (hline : ∀ c ∈ line, ¬ Ends c) (hafter : StartsAt Ends after) :
    (matchInclude (line ++ after)).isSome = (matchInclude line).isSome := by
  simp only [matchInclude, stripHeader_append line hafter]
  cases hheader : stripHeader line with
  | none => rfl
  | some found =>
    obtain ⟨quote, inner⟩ := found
    obtain ⟨header, heq, -, hquote⟩ := stripHeader_eq hheader
    have hinner : ∀ c ∈ inner, ¬ Ends c := fun c hc => hline c (by simp [heq, hc])
    have hreference := stripReference_isSome_append hquote hinner hafter
    cases hleft : stripReference quote (inner ++ after) <;>
      cases hright : stripReference quote inner <;> simp_all

/-- The same for a text with the end of a line before another one. -/
theorem matchInclude_isSome_append (hx : ∃ a ∈ x, Ends a) (y y' : Chars) :
    (matchInclude (x ++ y)).isSome = (matchInclude (x ++ y')).isSome := by
  have hfree : ∀ c ∈ x.takeWhile (¬ Ends ·), ¬ Ends c := fun c hc => by
    simpa using List.mem_takeWhile_imp hc
  have hstarts : ∀ y, StartsAt Ends (x.dropWhile (¬ Ends ·) ++ y) := by
    intro y
    cases hdrop : x.dropWhile (¬ Ends ·) with
    | nil =>
      obtain ⟨a, ha, hends⟩ := hx
      exact absurd hends (by simpa using List.dropWhile_eq_nil_iff.mp hdrop a ha)
    | cons c rest =>
      have hc := List.head?_dropWhile_not (p := fun c => decide (¬ Ends c)) x
      rw [hdrop] at hc
      simpa [StartsAt] using hc
  rw [← x.takeWhile_append_dropWhile (p := fun c => decide (¬ Ends c)), List.append_assoc,
    List.append_assoc, matchInclude_isSome hfree (hstarts y),
      matchInclude_isSome hfree (hstarts y')]

theorem matchInclude_of_head_ne {c : Char} (hc : c ≠ '-') (s : Chars) :
    matchInclude (c :: s) = none := by
  cases h : matchInclude (c :: s) with
  | none => rfl
  | some found =>
    obtain ⟨-, heq, ⟨line, trailing, htext, -⟩, -⟩ := matchInclude_eq h
    rw [htext] at heq
    exact absurd (List.head_eq_of_cons_eq heq) hc

/-! ### Directives and tokens -/

/-- A text after another one. -/
def IncludeMatch.prepend (x : Chars) (found : IncludeMatch) : IncludeMatch :=
  { found with before := x ++ found.before }

theorem execInclude_cons (c : Char) (s : Chars)
    (h : atStart = true → matchInclude (c :: s) = none) :
    execInclude atStart (c :: s) =
      (execInclude (isLineTerminator c) s).map (IncludeMatch.prepend [c]) := by
  have hnone : (if atStart then matchInclude (c :: s) else none) = none := by
    split
    · next hstart => exact h hstart
    · rfl
  rw [execInclude, hnone]
  rfl

/-- Either a directive is at the start, or the text goes on. -/
theorem execInclude_cons_cases (h : execInclude atStart s = some found) :
    (atStart = true ∧ matchInclude s = some found) ∨
    ∃ c tail found', s = c :: tail ∧ (atStart = true → matchInclude s = none) ∧
      execInclude (isLineTerminator c) tail = some found' ∧ found = found'.prepend [c] := by
  cases s with
  | nil => cases h
  | cons c s =>
    by_cases hstart : atStart = true ∧ (matchInclude (c :: s)).isSome = true
    · obtain ⟨rfl, hsome⟩ := hstart
      obtain ⟨found', hfound⟩ := Option.isSome_iff_exists.mp hsome
      rw [execInclude, if_pos rfl, hfound] at h
      exact .inl ⟨rfl, h ▸ hfound⟩
    · have hnone : atStart = true → matchInclude (c :: s) = none := fun h => by
        simpa [h] using hstart
      rw [execInclude_cons c s hnone] at h
      obtain ⟨found', hfound, rfl⟩ := Option.map_eq_some_iff.mp h
      exact .inr ⟨c, s, found', rfl, hnone, hfound, rfl⟩

/-- What a directive that has been found is, and where. -/
theorem execInclude_eq (h : execInclude atStart s = some found) :
    s = found.before ++ (found.text ++ found.rest) ∧ EndsAt Ends found.before ∧
      (found.before = [] → atStart = true) ∧ Directive found.text ∧ StartsAt Ends found.rest := by
  induction s generalizing atStart found with
  | nil => cases h
  | cons c s ih =>
    obtain ⟨rfl, hmatch⟩ | ⟨c, tail, found', heq, -, hfound, rfl⟩ := execInclude_cons_cases h
    · obtain ⟨hbefore, heq, hdirective, hstarts⟩ := matchInclude_eq hmatch
      rw [hbefore]
      exact ⟨heq, endsAt_nil, fun _ => rfl, hdirective, hstarts⟩
    · obtain ⟨rfl, rfl⟩ := List.cons_eq_cons.mp heq
      obtain ⟨heq, hends, hnil, hdirective, hstarts⟩ := ih hfound
      refine ⟨congrArg (c :: ·) heq, ?_, by simp [IncludeMatch.prepend], hdirective, hstarts⟩
      refine EndsAt.append (x := [c]) hends fun hbefore => ?_
      simpa [EndsAt, Ends] using hnil hbefore

theorem execInclude_match (h : execInclude atStart s = some found) :
    ∃ first, matchInclude (found.text ++ found.rest) = some first ∧
      first.reference = found.reference := by
  induction s generalizing atStart found with
  | nil => cases h
  | cons c s ih =>
    obtain ⟨rfl, hmatch⟩ | ⟨c, tail, found', heq, -, hfound, rfl⟩ := execInclude_cons_cases h
    · exact ⟨found, (matchInclude_eq hmatch).2.1 ▸ hmatch, rfl⟩
    · obtain ⟨rfl, rfl⟩ := List.cons_eq_cons.mp heq
      obtain ⟨first, hmatch, hreference⟩ := ih hfound
      exact ⟨first, hmatch, hreference⟩

/-- A directive at the start of a line is found, or one that ends before. -/
theorem execInclude_of_match (hx : EndsAt Ends x) (hstart : x = [] → atStart = true)
    (h : matchInclude s = some found) :
    ∃ first, execInclude atStart (x ++ s) = some first ∧
      (first.reference = found.reference ∨
        ∃ tail, tail ≠ [] ∧ EndsAt Ends tail ∧ x = first.before ++ (first.text ++ tail)) := by
  obtain ⟨-, heq, ⟨line, trailing, htext, -⟩, -⟩ := matchInclude_eq h
  have hdash : s = '-' :: (line ++ trailing ++ found.rest) := by rw [heq, htext]; simp
  induction x generalizing atStart with
  | nil =>
    refine ⟨found, ?_, .inl rfl⟩
    have hmatch : matchInclude ('-' :: (line ++ trailing ++ found.rest)) = some found := hdash ▸ h
    rw [List.nil_append, hdash, execInclude, hstart rfl, if_pos rfl, hmatch]
  | cons c x ih =>
    cases hmatch : (if atStart then matchInclude (c :: (x ++ s)) else none) with
    | none =>
      obtain ⟨first, hfirst, hcases⟩ := ih hx.tail fun hnil => by
        simpa [hnil, EndsAt, Ends] using hx
      refine ⟨first.prepend [c], ?_, hcases.imp_right ?_⟩
      · rw [List.cons_append, execInclude, hmatch, hfirst]
        rfl
      · rintro ⟨tail, hne, hends, rfl⟩
        exact ⟨tail, hne, hends, rfl⟩
    | some first =>
      have hmatch' : matchInclude (c :: (x ++ s)) = some first := by
        split at hmatch
        · exact hmatch
        · cases hmatch
      obtain ⟨hbefore, heq', hdirective, hrest⟩ := matchInclude_eq hmatch'
      refine ⟨first, by rw [List.cons_append, execInclude, hmatch], .inr ?_⟩
      rw [← List.cons_append] at heq'
      obtain ⟨mid, htext', hmid⟩ | ⟨mid, hx', hmid⟩ := List.append_eq_append_iff.mp heq'
      · have hmem := hx.exists_mem (List.cons_ne_nil c x)
        cases mid with
        | nil =>
          rw [List.nil_append] at hmid
          rw [← hmid, hdash] at hrest
          exact absurd (hrest '-' rfl) (by decide)
        | cons d mid =>
          -- a directive does not go on with a dash after the end of a line
          rw [hdash] at hmid
          obtain ⟨a, ha, hends⟩ := hmem
          have hd : '-' = d := List.head_eq_of_cons_eq hmid
          rw [← hd] at htext'
          exact absurd hends (hdirective.notAfter (by decide) _ _ htext' a ha)
      · refine ⟨mid, ?_, ?_, by rw [hbefore]; exact hx'⟩
        · rintro rfl
          rw [List.nil_append] at hmid
          rw [hmid, hdash] at hrest
          exact absurd (hrest '-' rfl) (by decide)
        · rw [hx'] at hx
          exact hx.of_append

/-- No directive starts inside a line. -/
theorem execInclude_append (hx : ∀ c ∈ x, ¬ Ends c) (y : Chars) :
    execInclude false (x ++ y) = (execInclude false y).map (IncludeMatch.prepend x) := by
  induction x with
  | nil =>
    rw [List.nil_append]
    cases execInclude false y <;> rfl
  | cons c x ih =>
    have hc : isLineTerminator c = false := by simpa [Ends] using hx c (by simp)
    rw [List.cons_append, execInclude_cons c _ (by simp), hc,
      ih fun a ha => hx a (List.mem_cons_of_mem c ha), Option.map_map]
    rfl

/-- A text in one line that starts with an at sign, as a token does. -/
def IsToken (token : Chars) : Prop := ∃ tail, token = '@' :: tail ∧ ∀ c ∈ tail, ¬ Ends c

/-- The tokens of the files of one directive. -/
theorem execInclude_tokens {tokens : List Chars} (hne : tokens ≠ [])
    (htokens : ∀ token ∈ tokens, IsToken token) (atStart : Bool) (y : Chars) :
    execInclude atStart (['\n'].intercalate tokens ++ y) =
      (execInclude false y).map (IncludeMatch.prepend (['\n'].intercalate tokens)) := by
  have hone : ∀ token, IsToken token → ∀ atStart z, execInclude atStart (token ++ z) =
      (execInclude false z).map (IncludeMatch.prepend token) := by
    rintro token ⟨tail, rfl, htail⟩ atStart z
    rw [List.cons_append, execInclude_cons '@' _ fun _ => matchInclude_of_head_ne (by decide) _]
    have hat : isLineTerminator '@' = false := by decide
    rw [hat, execInclude_append htail, Option.map_map]
    rfl
  induction tokens generalizing atStart with
  | nil => exact absurd rfl hne
  | cons token tokens ih =>
    have htoken := htokens token List.mem_cons_self
    cases tokens with
    | nil =>
      rw [List.intercalate_singleton]
      exact hone token htoken atStart y
    | cons next tokens =>
      have hnext := ih (List.cons_ne_nil next tokens)
        (fun token h => htokens token (List.mem_cons_of_mem _ h)) true
      have hend : isLineTerminator '\n' = true := by decide
      rw [List.intercalate_cons_cons, List.append_assoc, List.append_assoc, hone token htoken,
        List.cons_append, List.nil_append,
        execInclude_cons '\n' _ fun _ => matchInclude_of_head_ne (by decide) _, hend, hnext,
        Option.map_map, Option.map_map]
      congr 1
      funext found
      simp [IncludeMatch.prepend]

/-- With tokens in the place of a directive, the next one is looked for after them. -/
theorem execInclude_substitution {tokens : List Chars} (h : execInclude atStart s = some found)
    (hne : tokens ≠ []) (htokens : ∀ token ∈ tokens, IsToken token) (y : Chars) :
    execInclude atStart (found.before ++ (['\n'].intercalate tokens ++ y)) =
      (execInclude false y).map
        (IncludeMatch.prepend (found.before ++ ['\n'].intercalate tokens)) := by
  induction s generalizing atStart found with
  | nil => cases h
  | cons c s ih =>
    obtain ⟨rfl, hmatch⟩ | ⟨c, tail, found', heq, hnone, hfound, rfl⟩ := execInclude_cons_cases h
    · rw [(matchInclude_eq hmatch).1]
      exact execInclude_tokens hne htokens true y
    · obtain ⟨rfl, rfl⟩ := List.cons_eq_cons.mp heq
      obtain ⟨heq, hends, hnil, -⟩ := execInclude_eq h
      have hmem := hends.exists_mem (by simp [IncludeMatch.prepend])
      have hnone' : atStart = true → matchInclude
          (c :: (found'.before ++ (['\n'].intercalate tokens ++ y))) = none := by
        intro hstart
        have hsome := matchInclude_isSome_append hmem (found'.text ++ found'.rest)
          (['\n'].intercalate tokens ++ y)
        have heq : c :: s = (found'.prepend [c]).before ++ (found'.text ++ found'.rest) := heq
        rw [← heq, hnone hstart] at hsome
        simpa [IncludeMatch.prepend] using hsome.symm
      change execInclude atStart (c :: (found'.before ++ (['\n'].intercalate tokens ++ y))) = _
      rw [execInclude_cons c _ hnone', ih hfound, Option.map_map]
      rfl

/-- What is looked for after the text that has been scanned. -/
def Scanned (atStart : Bool) (done : Chars) : Prop :=
  ∀ s, (atStart = false → StartsAt Ends s) →
    execInclude true (done ++ s) = (execInclude atStart s).map (IncludeMatch.prepend done)

theorem scanned_nil : Scanned true [] := by
  intro s _
  rw [List.nil_append]
  cases execInclude true s <;> rfl

/-- A directive has been replaced by tokens. -/
theorem Scanned.step {done : Chars} {tokens : List Chars} (hdone : Scanned atStart done)
    (hs : atStart = false → StartsAt Ends s) (h : execInclude atStart s = some found)
    (hne : tokens ≠ []) (htokens : ∀ token ∈ tokens, IsToken token) :
    Scanned false (done ++ (found.before ++ ['\n'].intercalate tokens)) := by
  intro y hy
  obtain ⟨rfl, -, hbefore, -⟩ := execInclude_eq h
  have hstarts : atStart = false →
      StartsAt Ends (found.before ++ (['\n'].intercalate tokens ++ y)) := by
    intro hstart
    cases hfront : found.before with
    | nil => simp [hbefore hfront] at hstart
    | cons c front =>
      have hs := hs hstart
      rw [hfront] at hs
      simpa [StartsAt] using hs
  rw [List.append_assoc, List.append_assoc, hdone _ hstarts,
    execInclude_substitution h hne htokens, Option.map_map]
  congr 1
  funext found'
  simp [IncludeMatch.prepend]

end BullMQ
