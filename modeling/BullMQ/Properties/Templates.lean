import BullMQ.Properties.Directives

/-!
# The content of a resolved file

A file is its texts and the files that are included between them (`Template`). Unless the text of a
directive occurs in the file before the directive (`FirstFound`), resolving the file replaces each
directive by the tokens of its files (`Template.render`).
-/

namespace BullMQ

open Text

variable {host : Host} {s text x rest : Chars} {found : IncludeMatch} {atStart : Bool}

/-! ### Replacing -/

/-- The texts that are special in a replacement. -/
def specials : List Chars := [['$', '$'], ['$', '&'], ['$', Char.ofNat 96], ['$', Char.ofNat 39]]

/-- A text without special texts. -/
def Plain (s : Chars) : Prop := ∀ word ∈ specials, ¬ word <:+: s

theorem Plain.tail {c : Char} (h : Plain (c :: s)) : Plain s :=
  fun word hword hocc => h word hword (List.infix_cons_iff.mpr (.inr hocc))

theorem plain_of_not_mem (h : '$' ∉ s) : Plain s := by
  intro word hword hocc
  have hmem : '$' ∈ word := by
    simp only [specials, List.mem_cons, List.not_mem_nil, or_false] at hword
    obtain rfl | rfl | rfl | rfl := hword <;> simp
  exact h (hocc.subset hmem)

theorem getSubstitution_of_plain (matched before after : Chars) (h : Plain s) :
    getSubstitution matched before after s = s := by
  induction s with
  | nil => rfl
  | cons a s ih =>
    have ih := ih h.tail
    cases s with
    | nil =>
      unfold getSubstitution
      split <;> simp_all [getSubstitution]
    | cons c s =>
      have hword : ∀ word ∈ specials, word ≠ [a, c] := by
        rintro word hword rfl
        exact h _ hword (List.prefix_append [a, c] s).isInfix
      by_cases ha : a = '$'
      · subst ha
        have hc : c ≠ '$' ∧ c ≠ '&' ∧ c ≠ Char.ofNat 96 ∧ c ≠ Char.ofNat 39 := by
          simp only [specials, List.forall_mem_cons, ne_eq, List.cons.injEq, true_and, and_true,
            List.not_mem_nil, false_implies, implies_true] at hword
          obtain ⟨h₁, h₂, h₃, h₄⟩ := hword
          exact ⟨Ne.symm h₁, Ne.symm h₂, Ne.symm h₃, Ne.symm h₄⟩
        rw [getSubstitution, if_neg hc.1, if_neg hc.2.1, if_neg hc.2.2.1, if_neg hc.2.2.2, ih]
      · rw [getSubstitution, ih]
        exact fun _ _ heq _ => ha heq

/-- What has been replaced before a directive: a text up to the directive, and tokens. -/
structure Substituted (text : Chars) (part : Chars × Chars) : Prop where
  ends : EndsAt Ends part.1
  absent : ¬ text <:+: part.1
  token : ∃ tail, part.2 = '@' :: tail
  no_dash : '-' ∉ part.2

/-- The parts of a text that have been replaced. -/
def substituted (parts : List (Chars × Chars)) : Chars := parts.flatMap fun part => part.1 ++ part.2

/-- The text of a directive is first found at the directive. -/
theorem splitFirst_substituted (hdirective : Directive text) {parts : List (Chars × Chars)}
    (hparts : ∀ part ∈ parts, Substituted text part) (y : Chars) :
    splitFirst text (substituted parts ++ y) =
      (splitFirst text y).map fun split => (substituted parts ++ split.1, split.2) := by
  induction parts with
  | nil => simp [substituted]
  | cons part parts ih =>
    obtain ⟨before, tokens⟩ := part
    obtain ⟨hends, habsent, ⟨tail, htoken⟩, hdash⟩ := hparts _ List.mem_cons_self
    have ih := ih fun part h => hparts part (List.mem_cons_of_mem _ h)
    have hcons : substituted ((before, tokens) :: parts) ++ y =
        before ++ (tokens ++ (substituted parts ++ y)) := by simp [substituted]
    have hfirst : splitFirst text (before ++ (tokens ++ (substituted parts ++ y))) =
        (splitFirst text (tokens ++ (substituted parts ++ y))).map fun split =>
          (before ++ split.1, split.2) := by
      obtain rfl : tokens = '@' :: tail := htoken
      exact splitFirst_append (hdirective.notAfter (by decide)) hends habsent
    have hskip : splitFirst text (tokens ++ (substituted parts ++ y)) =
        (splitFirst text (substituted parts ++ y)).map fun split =>
          (tokens ++ split.1, split.2) := by
      obtain ⟨line, trailing, rfl, -⟩ := hdirective
      exact splitFirst_append_of_not_mem hdash _ _
    rw [hcons, hfirst, hskip, ih, Option.map_map, Option.map_map]
    congr 1
    funext split
    simp [substituted]

/-- A directive is replaced where it is. -/
theorem replace_directive {parts : List (Chars × Chars)}
    (h : execInclude atStart s = some found)
    (hparts : ∀ part ∈ parts, Substituted found.text part)
    (habsent : ¬ found.text <:+: found.before)
    (hx : '$' ∉ x) :
    replace (substituted parts ++ s) found.text x =
      substituted (parts ++ [(found.before, x)]) ++ found.rest := by
  obtain ⟨rfl, hends, -, hdirective, -⟩ := execInclude_eq h
  have hsplit : splitFirst found.text (found.before ++ (found.text ++ found.rest)) =
      some (found.before, found.rest) := by
    have hdash := hdirective.notAfter (c := '-') (by decide)
    obtain ⟨line, trailing, htext, -⟩ := hdirective
    have hself := splitFirst_self_append found.text found.rest
    simp only [htext, List.cons_append] at hself hdash habsent ⊢
    rw [splitFirst_append hdash hends habsent, hself]
    simp
  rw [replace, splitFirst_substituted hdirective hparts, hsplit]
  simp [getSubstitution_of_plain _ _ _ (plain_of_not_mem hx), substituted]

/-! ### Templates -/

/-- The texts of a file up to each file that it includes, and the text after them. -/
structure Template where
  slots : List (Chars × Chars)
  last : Chars

def Template.paths (T : Template) : List Chars := T.slots.map (·.2)

def Template.texts (T : Template) : List Chars := T.slots.map (·.1) ++ [T.last]

/-- The content of a resolved file. -/
def Template.render (host : Host) (T : Template) : Chars :=
  T.slots.flatMap (fun slot => slot.1 ++ getPathHash host slot.2) ++ T.last

/-- The directives of a text, and what follows the last of them. -/
def directives : ℕ → Bool → Chars → List IncludeMatch × Chars
  | 0, _, s => ([], s)
  | n + 1, atStart, s =>
    match execInclude atStart s with
    | none => ([], s)
    | some found =>
      let (others, last) := directives n false found.rest
      (found :: others, last)

/-- The directives of a file. -/
def fileDirectives (content : Chars) : List IncludeMatch × Chars :=
  directives content.length true content

/-- The files that a reference stands for. -/
def included (host : Host) (dir reference : Chars) : List Chars :=
  match includePaths host [] dir reference with
  | .ok paths => paths
  | .error _ => []

/-- The slots of a directive. The tokens of its files are in lines of their own. -/
def slotsOf (before : Chars) : List Chars → List (Chars × Chars)
  | [] => []
  | path :: paths => (before, path) :: paths.map fun path => (['\n'], path)

def template (host : Host) (dir content : Chars) : Template where
  slots := (fileDirectives content).1.flatMap fun found =>
    slotsOf found.before (included host dir found.reference)
  last := (fileDirectives content).2

/-- The text of a directive is in no text of the file before it. -/
def FirstFound (content : Chars) : Prop :=
  ∀ front found, front ++ [found] <+: (fileDirectives content).1 →
    ∀ earlier ∈ front ++ [found], ¬ found.text <:+: earlier.before

theorem resolvePath_eq_ok {stack : List Chars} {scriptName path : Chars}
    (h : resolvePath host scriptName stack = .ok path) (stack' : List Chars) :
    resolvePath host scriptName stack' = .ok path := by
  unfold resolvePath at h ⊢
  split at h
  · exact h
  · split at h
    · exact h
    · split at h
      · cases h
      · exact h
  · exact h

/-- The stack is in the errors only. -/
theorem includePaths_eq_ok {stack : List Chars} {dir reference : Chars} {paths : List Chars}
    (h : includePaths host stack dir reference = .ok paths) (stack' : List Chars) :
    includePaths host stack' dir reference = .ok paths := by
  rw [includePaths] at h ⊢
  split at h
  · next hmapped =>
    cases hpath : resolvePath host (ensureExt host reference) stack with
    | error e =>
      rw [hpath] at h
      cases h
    | ok path =>
      rw [hpath] at h
      rw [if_pos hmapped, resolvePath_eq_ok hpath]
      exact h
  · next hmapped =>
    rw [if_neg hmapped]
    exact h

theorem included_eq {stack : List Chars} {dir reference : Chars} {paths : List Chars}
    (h : includePaths host stack dir reference = .ok paths) :
    included host dir reference = paths := by
  rw [included, includePaths_eq_ok h]

theorem render_slotsOf (before : Chars) {paths : List Chars} (hne : paths ≠ []) :
    (slotsOf before paths).flatMap (fun slot => slot.1 ++ getPathHash host slot.2) =
      before ++ ['\n'].intercalate (paths.map (getPathHash host)) := by
  cases paths with
  | nil => exact absurd rfl hne
  | cons path paths =>
    rw [slotsOf, List.flatMap_cons, List.append_assoc]
    congr 1
    induction paths generalizing path with
    | nil => simp
    | cons next paths ih =>
      rw [List.map_cons, List.flatMap_cons, List.map_cons, List.map_cons,
        List.intercalate_cons_cons, ← List.map_cons, ← ih next (List.cons_ne_nil _ _)]
      simp

/-! ### The lines of a template -/

/-- Each file is included in a line of its own. -/
def Lined : Bool → List (Chars × Chars) → Chars → Prop
  | atStart, [], last => atStart = false → StartsAt Ends last
  | atStart, slot :: slots, last =>
    EndsAt Ends slot.1 ∧ (atStart = false → slot.1 ≠ [] ∧ StartsAt Ends slot.1) ∧
      Lined false slots last

theorem Lined.of_false {slots : List (Chars × Chars)} {last : Chars} (h : Lined false slots last)
    (atStart : Bool) : Lined atStart slots last := by
  cases slots with
  | nil => exact fun _ => h rfl
  | cons slot slots => exact ⟨h.1, fun _ => h.2.1 rfl, h.2.2⟩

theorem lined_slotsOf {before last : Chars} {slots : List (Chars × Chars)}
    (hends : EndsAt Ends before)
    (hstarts : atStart = false → before ≠ [] ∧ StartsAt Ends before) (h : Lined false slots last)
    (paths : List Chars) : Lined atStart (slotsOf before paths ++ slots) last := by
  have hend : Ends '\n' := by decide
  cases paths with
  | nil => exact h.of_false atStart
  | cons path paths =>
    refine ⟨hends, hstarts, ?_⟩
    induction paths with
    | nil => exact h
    | cons next paths ih =>
      exact ⟨by simpa [EndsAt] using hend, fun _ => ⟨by simp, by simpa [StartsAt] using hend⟩, ih⟩

theorem directives_lined (host : Host) (dir : Chars) (n : ℕ) (atStart : Bool) (s : Chars)
    (hs : atStart = false → StartsAt Ends s) :
    Lined atStart ((directives n atStart s).1.flatMap fun found =>
      slotsOf found.before (included host dir found.reference)) (directives n atStart s).2 := by
  induction n generalizing atStart s with
  | zero => exact hs
  | succ n ih =>
    rw [directives]
    cases hfound : execInclude atStart s with
    | none => exact hs
    | some found =>
      obtain ⟨rfl, hends, hnil, -, hrest⟩ := execInclude_eq hfound
      refine lined_slotsOf hends (fun hstart => ?_) (ih false found.rest fun _ => hrest) _
      have hne : found.before ≠ [] := fun hbefore => by simp [hnil hbefore] at hstart
      refine ⟨hne, ?_⟩
      have hs := hs hstart
      cases hbefore : found.before with
      | nil => exact absurd hbefore hne
      | cons c before =>
        rw [hbefore] at hs
        simpa [StartsAt] using hs

theorem template_lined (host : Host) (dir content : Chars) :
    Lined true (template host dir content).slots (template host dir content).last :=
  directives_lined host dir content.length true content (by simp)

/-- The directives of a text are at the start of a line. -/
theorem mem_directives {n : ℕ} (hs : atStart = false → StartsAt Ends s)
    (h : found ∈ (directives n atStart s).1) :
    ∃ x z first, s = x ++ z ∧ EndsAt Ends x ∧ (x = [] → atStart = true) ∧
      matchInclude z = some first ∧ first.reference = found.reference := by
  induction n generalizing atStart s with
  | zero => cases h
  | succ n ih =>
    rw [directives] at h
    cases hfound : execInclude atStart s with
    | none => simp [hfound] at h
    | some next =>
      rw [hfound] at h
      obtain ⟨rfl, hends, hnil, -, hrest⟩ := execInclude_eq hfound
      obtain rfl | h := List.mem_cons.mp h
      · obtain ⟨first, hmatch, hreference⟩ := execInclude_match hfound
        exact ⟨found.before, found.text ++ found.rest, first, rfl, hends, hnil, hmatch, hreference⟩
      · obtain ⟨x, z, first, heq, hx, hstart, hmatch, hreference⟩ := ih (fun _ => hrest) h
        have hne : x ≠ [] := fun hnil => by simpa using hstart hnil
        refine ⟨next.before ++ (next.text ++ x), z, first, by simp [heq], ?_, by simp [hne],
          hmatch, hreference⟩
        exact EndsAt.append (EndsAt.append hx fun h => absurd h hne) fun h =>
          absurd (List.append_eq_nil_iff.mp h).2 hne

/-- The fuel is enough for all directives. -/
theorem directives_of_some {n : ℕ} (hn : s.length ≤ n) (h : execInclude atStart s = some found) :
    ∃ m, found.rest.length ≤ m ∧
      directives n atStart s =
        (found :: (directives m false found.rest).1, (directives m false found.rest).2) := by
  obtain ⟨rfl, -, -, ⟨line, trailing, htext, -⟩, -⟩ := execInclude_eq h
  cases n with
  | zero => simp [htext] at hn
  | succ n =>
    refine ⟨n, ?_, ?_⟩
    · simp only [htext, List.length_append, List.length_cons] at hn
      omega
    · rw [directives, h]

theorem directives_of_none (n : ℕ) (h : execInclude atStart s = none) :
    directives n atStart s = ([], s) := by
  cases n with
  | zero => rfl
  | succ n => rw [directives, h]

end BullMQ
