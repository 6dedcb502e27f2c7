import BullMQ.Properties.LoaderEnds

/-!
# The text of a script

`interpolate` puts the texts of a file out with those of each file that it includes in the place of
the token, once (`Resolved.emits`), if the tokens can be told apart from the texts and no included
text is special in a replacement (`Interpolable`). So a script whose inclusions have no cycle is
assembled (`IsAssembly`), and one with a cycle is an error, whatever its texts are.

The condition on the texts is needed: a dollar sign before an apostrophe in an included file stands
for what follows its token.
-/

namespace BullMQ

open Relation Text Inclusion

variable {host : Host} {reached : Chars → Prop} {G : Chars → Template} {W : Set Chars}
  {slots : List (Chars × Chars)} {last acc : Chars} {atStart : Bool}

/-- The tokens of the files that are reached. -/
def tokensOf (host : Host) (reached : Chars → Prop) : Set Chars :=
  {token | ∃ path, reached path ∧ token = getPathHash host path}

/-! ### The content of a file with some tokens left -/

theorem Lined.render_startsAt (h : Lined false slots last) :
    StartsAt Ends (Template.render host { slots, last }) := by
  cases slots with
  | nil => exact h rfl
  | cons slot slots =>
    obtain ⟨hne, hstarts⟩ := h.2.1 rfl
    rw [Template.render, List.flatMap_cons, List.append_assoc, List.append_assoc]
    exact hstarts.append fun hnil => absurd hnil hne

/-- A token that is not one of those in the content is not in the content. -/
theorem Lined.not_infix_render {w : Chars} (hw : ∀ c ∈ w, ¬ Ends c) (h : Lined atStart slots last)
    (hlast : ¬ w <:+: last) (hslots : ∀ slot ∈ slots, ¬ w <:+: slot.1)
    (htokens : ∀ slot ∈ slots, ¬ w <:+: getPathHash host slot.2) :
    ¬ w <:+: Template.render host { slots, last } := by
  induction slots generalizing atStart with
  | nil => simpa [Template.render] using hlast
  | cons slot slots ih =>
    intro hocc
    have ih := ih h.2.2 (fun slot hmem => hslots slot (List.mem_cons_of_mem _ hmem))
      fun slot hmem => htokens slot (List.mem_cons_of_mem _ hmem)
    have hrender : Template.render host { slots := slot :: slots, last } =
        slot.1 ++ getPathHash host slot.2 ++ Template.render host { slots, last } := by
      simp [Template.render]
    rw [hrender] at hocc
    obtain hocc | hocc | hocc := infix_append_append hw h.1 h.2.2.render_startsAt hocc
    · exact hslots slot List.mem_cons_self hocc
    · exact htokens slot List.mem_cons_self hocc
    · exact ih hocc

theorem getPathHash_not_infix (h : Hashes host) {p q : Chars}
    (hne : host.sha1 p ≠ host.sha1 q) : ¬ getPathHash host p <:+: getPathHash host q := by
  intro hocc
  have hlength : (getPathHash host p).length = (getPathHash host q).length := by
    simp [getPathHash, h.length]
  have heq := hocc.eq_of_length hlength
  simp only [getPathHash, List.cons.injEq, true_and] at heq
  exact hne heq

/-- The first place of a token is filled, and there is no other one. -/
theorem fill_token {token content rest replacement : Chars} (hfree : ∀ c ∈ token, ¬ Ends c)
    (hne : token ≠ []) (hacc : EndsAt Ends acc) (hrest : StartsAt Ends rest)
    (hnotAcc : ¬ token <:+: acc) (hnotRest : ¬ token <:+: rest) (hnot : ¬ token <:+: replacement)
    (hplain : Plain replacement) (hcontent : content = acc ++ (token ++ rest)) :
    (if replacement = [] then replaceAll content token []
      else replaceAll (replace content token replacement) token []) =
      acc ++ replacement ++ rest := by
  split
  · next hnil =>
    rw [hcontent, hnil, replaceAll, replaceAll_append_self hfree hne hacc hnotAcc hnotRest]
  · have hreplace : replace content token replacement = acc ++ replacement ++ rest := by
      rw [replace, hcontent, splitFirst_append_self hfree hne hacc hnotAcc]
      simp only [getSubstitution_of_plain _ _ _ hplain]
    rw [hreplace, replaceAll, replaceAll_of_not_infix]
    intro hocc
    exact (infix_append_append hfree hacc hrest hocc).elim hnotAcc
      fun h => h.elim hnot hnotRest

/-! ### Filling in the texts -/

/-- The sets of texts that are looked for: the tokens, and what is special in a replacement. -/
def IsLookedFor (host : Host) (reached : Chars → Prop) (W : Set Chars) : Prop :=
  W = tokensOf host reached ∨ W = {word | word ∈ specials}

theorem IsLookedFor.free (hhashes : Hashes host) (hW : IsLookedFor host reached W) :
    ∀ word ∈ W, ∀ c ∈ word, ¬ Ends c := by
  obtain rfl | rfl := hW
  · rintro _ ⟨path, -, rfl⟩
    obtain ⟨tail, heq, htail⟩ := (getPathHash_isToken hhashes path).1
    rw [heq]
    exact List.forall_mem_cons.mpr ⟨by decide, htail⟩
  · intro word hword
    simp only [Set.mem_ofPred_eq, specials, List.mem_cons, List.not_mem_nil, or_false] at hword
    obtain rfl | rfl | rfl | rfl := hword <;> exact List.all_iff_forall_prop.mp (by decide)

/-- The texts that are put out for a file, depending on what has been processed. -/
def Emits (host : Host) (reached : Chars → Prop) (G : Chars → Template) (file : ScriptMetadata) :
    Prop :=
  ∀ processed : List Chars, Closed (fun p => (G p).slots) {q | q ∈ processed} →
    ∃ pieces, (interpolate file processed).1 = pieces.flatMap (·.2) ∧
      Emission (fun p => (G p).slots) (fun p => (G p).last) file.path {q | q ∈ processed}
        {q | q ∈ (interpolate file processed).2} pieces ∧
      ∀ W, IsLookedFor host reached W → Avoids W (interpolate file processed).1

theorem IsLookedFor.avoids_nil (hW : IsLookedFor host reached W) : Avoids W [] := by
  intro word hword hocc
  obtain rfl := List.infix_nil.mp hocc
  obtain rfl | rfl := hW
  · obtain ⟨path, -, heq⟩ := hword
    cases heq
  · simp [specials] at hword

/-- What `interpolate` puts in the place of a token. -/
theorem Emits.replacement {child : ScriptMetadata} (h : Emits host reached G child)
    (processed : List Chars) (hclosed : Closed (fun p => (G p).slots) {q | q ∈ processed}) :
    ∃ childPieces added : List (Chars × Chars),
      (if child.path ∈ processed then [] else (interpolate child processed).1) =
        added.flatMap (·.2) ∧
      (child.path ∈ {q | q ∈ processed} ∧ added = [] ∨
        child.path ∉ {q | q ∈ processed} ∧ added = childPieces) ∧
      Emission (fun p => (G p).slots) (fun p => (G p).last) child.path {q | q ∈ processed}
        {q | q ∈ (interpolate child processed).2} childPieces ∧
      ∀ W, IsLookedFor host reached W → Avoids W (added.flatMap (·.2)) := by
  obtain ⟨childPieces, htext, hemission, havoids⟩ := h processed hclosed
  by_cases hmem : child.path ∈ processed
  · exact ⟨childPieces, [], if_pos hmem, .inl ⟨hmem, rfl⟩, hemission, fun W hW => hW.avoids_nil⟩
  · exact ⟨childPieces, childPieces, (if_neg hmem).trans htext, .inr ⟨hmem, rfl⟩, hemission,
      fun W hW => htext ▸ havoids W hW⟩

theorem interpolateIncludes_cons (child : ScriptMetadata) (includes : List ScriptMetadata)
    (content : Chars) (processed : List Chars) {replacement : Chars}
    (h : (if child.path ∈ processed then [] else (interpolate child processed).1) = replacement) :
    interpolateIncludes (child :: includes) content processed =
      interpolateIncludes includes
        (if replacement = [] then replaceAll content child.token []
          else replaceAll (replace content child.token replacement) child.token [])
        (child.path :: (interpolate child processed).2) := by
  rw [interpolateIncludes, ← h]

/-- The loop over the files that a file includes, from some of its slots on. -/
theorem interpolateIncludes_emits (hhashes : Hashes host)
    (hdistinct : ∀ p q, reached p → reached q → host.sha1 p = host.sha1 q → p = q) {p : Chars}
    (hp : ¬ TransGen (Includes fun p => (G p).slots) p p) (before : Set Chars)
    (hbefore : Closed (fun p => (G p).slots) before) (children : List ScriptMetadata)
    (htoken : ∀ child ∈ children, child.token = getPathHash host child.path)
    (hemits : ∀ child ∈ children, Emits host reached G child) (front back : List (Chars × Chars))
    (hslots : (G p).slots = front ++ back) (hpaths : children.map (·.path) = back.map (·.2))
    (hnodup : (back.map (·.2)).Nodup) (hreached : ∀ slot ∈ back, reached slot.2)
    (atStart : Bool) (hlined : Lined atStart back (G p).last)
    (htexts : ∀ slot ∈ back, Avoids (tokensOf host reached) slot.1)
    (hlast : Avoids (tokensOf host reached) (G p).last) (processed : List Chars)
    (pieces : List (Chars × Chars))
    (hpieces : Emitting (fun p => (G p).slots) (fun p => (G p).last) p front before
      {q | q ∈ processed} pieces)
    (hacc : Avoids (tokensOf host reached) (pieces.flatMap (·.2)))
    (hstart : atStart = true → pieces.flatMap (·.2) = []) (result : Chars × List Chars)
    (hresult : interpolateIncludes children (pieces.flatMap (·.2) ++
      Template.render host { slots := back, last := (G p).last }) processed = result) :
    ∃ pieces', result.1 = pieces'.flatMap (·.2) ∧
      Emission (fun p => (G p).slots) (fun p => (G p).last) p before {q | q ∈ result.2} pieces' ∧
      ∀ W, IsLookedFor host reached W → (∀ slot ∈ back, Avoids W slot.1) → Avoids W (G p).last →
        Avoids W (pieces.flatMap (·.2)) → Avoids W result.1 := by
  -- By induction on the files, each of which fills the next slot of the text: `front` holds the
  -- slots that are filled, `back` those that are not.
  induction children generalizing front back atStart processed pieces with
  | nil =>
    obtain rfl : back = [] := by
      cases back with
      | nil => rfl
      | cons slot back => cases hpaths
    rw [List.append_nil] at hslots
    rw [← hslots] at hpieces
    rw [interpolateIncludes] at hresult
    obtain rfl := hresult
    refine ⟨pieces ++ [(p, (G p).last)], by simp [Template.render], hpieces.finish hp, ?_⟩
    intro W hW _ hlastW haccW
    refine haccW.append (hW.free hhashes) (by simpa [Template.render] using hlastW) ?_
    cases atStart with
    | true => exact .inl (by rw [hstart rfl]; exact endsAt_nil)
    | false => exact .inr (by simpa [Template.render] using hlined rfl)
  | cons child children ih =>
    cases back with
    | nil => cases hpaths
    | cons slot back =>
      obtain ⟨hpath, hpaths⟩ := List.cons_eq_cons.mp hpaths
      obtain ⟨hends, hstarts, hlined'⟩ := hlined
      have hcase : EndsAt Ends (pieces.flatMap (·.2)) ∨ StartsAt Ends slot.1 := by
        cases atStart with
        | true => exact .inl (by rw [hstart rfl]; exact endsAt_nil)
        | false => exact .inr (hstarts rfl).2
      have hends' : EndsAt Ends (pieces.flatMap (·.2) ++ slot.1) := by
        refine hends.append fun hnil => ?_
        cases atStart with
        | true => rw [hstart rfl]; exact endsAt_nil
        | false => exact absurd hnil (hstarts rfl).1
      obtain ⟨childPieces, added, hreplacement, hadded, hemission, havoids⟩ :=
        (hemits child List.mem_cons_self).replacement processed (hpieces.closed hbefore)
      have htokens : IsLookedFor host reached (tokensOf host reached) := .inl rfl
      have hpath : child.path = slot.2 := hpath
      have htokenEq : child.token = getPathHash host slot.2 := by
        rw [htoken child List.mem_cons_self, hpath]
      have hmem : child.token ∈ tokensOf host reached :=
        ⟨slot.2, hreached slot List.mem_cons_self, htokenEq⟩
      -- The token stands in the text exactly once, at its own slot: neither before it, nor in the
      -- slots and texts behind it, nor in what replaces it.
      have hfree := htokens.free hhashes child.token hmem
      have hrest : ¬ child.token <:+: Template.render host
          { slots := back, last := (G p).last } := by
        refine hlined'.not_infix_render hfree (hlast _ hmem)
          (fun slot' h => htexts slot' (List.mem_cons_of_mem _ h) _ hmem) fun slot' h => ?_
        rw [htokenEq]
        refine getPathHash_not_infix hhashes fun heq => ?_
        have hsame := hdistinct slot.2 slot'.2 (hreached slot List.mem_cons_self)
          (hreached slot' (List.mem_cons_of_mem _ h)) heq
        have hmem : slot.2 ∈ back.map (·.2) := by
          rw [hsame]
          exact List.mem_map_of_mem h
        exact (List.nodup_cons.mp hnodup).1 hmem
      have hfill := fill_token hfree (by rw [htokenEq]; simp [getPathHash]) hends'
        hlined'.render_startsAt
        (hacc.append (htokens.free hhashes) (htexts slot List.mem_cons_self) hcase _ hmem)
        hrest (havoids _ htokens _ hmem) (fun word hword => havoids _ (.inr rfl) word hword) rfl
      have hrender : Template.render host { slots := slot :: back, last := (G p).last } =
          slot.1 ++ (child.token ++
            Template.render host { slots := back, last := (G p).last }) := by
        simp [Template.render, htokenEq]
      have hnext : (pieces ++ (p, slot.1) :: added).flatMap (·.2) =
          pieces.flatMap (·.2) ++ slot.1 ++ added.flatMap (·.2) := by simp
      rw [interpolateIncludes_cons child children _ processed hreplacement, hrender,
        ← List.append_assoc, hfill, ← hnext] at hresult
      -- What is written so far, and the text and the pieces of this file, are again in order.
      have hconcat : Emitting (fun p => (G p).slots) (fun p => (G p).last) p
        (front ++ [slot]) before
          {q | q ∈ child.path :: (interpolate child processed).2}
          (pieces ++ (p, slot.1) :: added) := by
        have hset : {q | q ∈ child.path :: (interpolate child processed).2} =
            insert slot.2 {q | q ∈ (interpolate child processed).2} := by
          ext q
          simp [hpath]
        rw [hpath] at hemission hadded
        rw [hset]
        exact hpieces.concat ⟨back, by rw [hslots, List.append_assoc]; rfl⟩ hp hbefore
          hemission hadded
      have haccNext : ∀ W, IsLookedFor host reached W → Avoids W slot.1 →
          Avoids W (pieces.flatMap (·.2)) →
          Avoids W ((pieces ++ (p, slot.1) :: added).flatMap (·.2)) := by
        intro W hW hslot hacc
        rw [hnext]
        exact (hacc.append (hW.free hhashes) hslot hcase).append (hW.free hhashes) (havoids W hW)
          (.inl hends')
      obtain ⟨pieces', htext, hemission', hclean⟩ := ih
        (fun child' h => htoken child' (List.mem_cons_of_mem _ h))
        (fun child' h => hemits child' (List.mem_cons_of_mem _ h)) (front ++ [slot]) back
        (by rw [hslots, List.append_assoc]; rfl) hpaths (List.nodup_cons.mp hnodup).2
        (fun slot' h => hreached slot' (List.mem_cons_of_mem _ h)) false hlined'
        (fun slot' h => htexts slot' (List.mem_cons_of_mem _ h)) _ _ hconcat
        (haccNext _ htokens (htexts slot List.mem_cons_self) hacc) (by simp) hresult
      refine ⟨pieces', htext, hemission', fun W hW htextsW hlastW haccW => ?_⟩
      exact hclean W hW (fun slot' h => htextsW slot' (List.mem_cons_of_mem _ h)) hlastW
        (haccNext W hW (htextsW slot List.mem_cons_self) haccW)

theorem interpolate_eq (file : ScriptMetadata) (processed : List Chars) :
    interpolate file processed = interpolateIncludes file.includes file.content processed := by
  cases file
  rw [interpolate]

/-- A file that has been resolved puts its texts out. -/
theorem Resolved.emits (hhashes : Hashes host)
    (hdistinct : ∀ p q, reached p → reached q → host.sha1 p = host.sha1 q → p = q)
    (hG : ∀ p, reached p → G p = diskTemplate host p)
    (hclosed : ∀ p, reached p → ∀ q, Includes (fun p => (G p).slots) p q → reached q)
    (hacyclic : ∀ p, reached p → ¬ TransGen (Includes fun p => (G p).slots) p p)
    (hnodup : ∀ p, reached p → (G p).paths.Nodup)
    (htexts : ∀ p, reached p → ∀ W, IsLookedFor host reached W → ∀ text ∈ (G p).texts,
    Avoids W text)
    {file : ScriptMetadata} (h : Resolved host True file) (hfile : reached file.path) :
    Emits host reached G file := by
  induction h with
  | @intro file content read dir token scanned covers content_eq paths includes ih =>
    have content_eq := content_eq trivial
    have paths := paths trivial
    intro processed hprocessed
    rw [← hG file.path hfile] at content_eq paths
    have htext : ∀ W, IsLookedFor host reached W → ∀ slot ∈ (G file.path).slots, Avoids W slot.1 :=
      fun W hW slot hslot => htexts file.path hfile W hW slot.1
        (List.mem_append_left _ (List.mem_map_of_mem hslot))
    have hlast : ∀ W, IsLookedFor host reached W → Avoids W (G file.path).last :=
      fun W hW => htexts file.path hfile W hW _ (List.mem_append_right _ List.mem_cons_self)
    have hincludes : ∀ q ∈ (G file.path).paths, reached q := fun q hq => hclosed _ hfile q hq
    have hemits : ∀ child ∈ file.includes, Emits host reached G child := fun child hchild =>
      ih child hchild (hincludes _ (paths ▸ List.mem_map_of_mem hchild))
    have hlined : Lined true (G file.path).slots (G file.path).last := by
      rw [hG file.path hfile]
      exact template_lined _ _ _
    obtain ⟨pieces, heq, hemission, hclean⟩ := interpolateIncludes_emits hhashes hdistinct
      (hacyclic _ hfile) _ hprocessed file.includes
        (fun child h => (includes child h).token_eq) hemits
      [] (G file.path).slots rfl paths (hnodup _ hfile)
      (fun slot h => hincludes _ (List.mem_map_of_mem h)) true hlined (htext _ (.inl rfl))
      (hlast _ (.inl rfl)) processed [] (emitting_nil _ _ _ _)
      (IsLookedFor.avoids_nil (.inl rfl)) (fun _ => rfl) _ rfl
    have hinterpolate : interpolate file processed = interpolateIncludes file.includes
        (([] : List (Chars × Chars)).flatMap (·.2) ++
          Template.render host { slots := (G file.path).slots, last := (G file.path).last })
        processed := by
      rw [interpolate_eq, content_eq]
      rfl
    refine ⟨pieces, ?_, ?_, fun W hW => ?_⟩
    · rw [hinterpolate, heq]
    · rw [hinterpolate]
      exact hemission
    · rw [hinterpolate]
      exact hclean W hW (htext W hW) (hlast W hW) hW.avoids_nil

/-! ### A script -/

/-- The files that a script includes, directly or not. -/
def Reaches (host : Host) (dir content path : Chars) : Prop :=
  Leads (diskSlots host) (template host dir content).slots path

/-- The templates of the script and of the files on the disk. -/
def scriptTemplate (host : Host) (dir name content path : Chars) : Template :=
  if path = name then template host dir content else diskTemplate host path

/-- The texts of the script and of the files that it includes make up a text, each of them once and
in its order. What a file includes before one of its texts comes before that text, and no token is
left. -/
def IsAssembly (host : Host) (dir name content out : Chars) : Prop :=
  ∃ pieces : List (Chars × Chars), out = pieces.flatMap (·.2) ∧
    (∀ path, path = name ∨ Reaches host dir content path →
      textsOf path pieces = (scriptTemplate host dir name content path).texts) ∧
    (∀ piece ∈ pieces, piece.1 = name ∨ Reaches host dir content piece.1) ∧
    InOrder (fun path => (scriptTemplate host dir name content path).slots) pieces ∧
    ∀ path, Reaches host dir content path → ¬ getPathHash host path <:+: out

/-- The files that a script includes can be told apart from each other and from the script, and
their tokens from the texts; and no text of them is special in a replacement. -/
structure Interpolable (host : Host) (dir name content : Chars) : Prop where
  other : ¬ Reaches host dir content name
  distinct : ∀ p q, Reaches host dir content p → Reaches host dir content q →
    host.sha1 p = host.sha1 q → p = q
  tokens : ∀ p, p = name ∨ Reaches host dir content p →
    ∀ text ∈ (scriptTemplate host dir name content p).texts,
      Avoids (tokensOf host (Reaches host dir content)) text
  plain : ∀ p, Reaches host dir content p →
    ∀ text ∈ (scriptTemplate host dir name content p).texts, Plain text

variable {dir name content : Chars} {files : Finset Chars} {cache : ScriptCache}

theorem Reaches.includes {p q : Chars} (h : Reaches host dir content p)
    (hq : Includes (diskSlots host) p q) : Reaches host dir content q :=
  Leads.includes h hq

/-- The text of a script that has been resolved. -/
theorem Built.isAssembly {raw script : ScriptMetadata} (hhashes : Hashes host)
    (hdir : raw.dir = dir) (hpath : raw.path = name) (hcontent : raw.content = content)
    (h : Built host True raw script) (hacyclic : ∀ p, Reaches host dir content p →
      ¬ TransGen (Includes (diskSlots host)) p p) (hloadable : Loadable host dir content)
    (hloadables : ∀ p, Reaches host dir content p →
      Loadable host (host.dirname p) ((host.readFile p).getD []))
    (hinter : Interpolable host dir name content) :
    IsAssembly host dir name content (interpolate script []).1 := by
  subst hdir hpath hcontent
  -- The root's text is the one that was parsed, all others are those on the disk; no file includes
  -- the root, so the two inclusion relations agree below it.
  let G := scriptTemplate host raw.dir raw.path raw.content
  have hroot : G raw.path = template host raw.dir raw.content := if_pos rfl
  have hG : ∀ p, Reaches host raw.dir raw.content p → G p = diskTemplate host p := by
    rintro p hp
    refine if_neg ?_
    rintro rfl
    exact hinter.other hp
  have hincludes : ∀ p, Reaches host raw.dir raw.content p → ∀ q,
      Includes (fun p => (G p).slots) p q ↔ Includes (diskSlots host) p q := by
    intro p hp q
    rw [Includes, Includes, hG p hp]
    rfl
  have hclosed : ∀ p, Reaches host raw.dir raw.content p → ∀ q,
      Includes (fun p => (G p).slots) p q → Reaches host raw.dir raw.content q := fun p hp q hq =>
    hp.includes ((hincludes p hp q).mp hq)
  have hagree : ∀ p, Reaches host raw.dir raw.content p → ∀ q,
      Includes (fun p => (G p).slots) p q → Includes (diskSlots host) p q := fun p hp q hq =>
    (hincludes p hp q).mp hq
  have hfirst : ∀ q, Includes (fun p => (G p).slots) raw.path q →
      Reaches host raw.dir raw.content q := by
    intro q hq
    rw [Includes, hroot] at hq
    exact ⟨q, hq, .refl⟩
  have hreach : ∀ q, TransGen (Includes fun p => (G p).slots) raw.path q ↔
      Reaches host raw.dir raw.content q := by
    intro q
    rw [TransGen.head'_iff]
    constructor
    · rintro ⟨c, hc, hq⟩
      exact (reflTransGen_of_agree hclosed hagree (hfirst c hc) hq).2
    · rintro ⟨c, hc, hq⟩
      have hcG : Includes (fun p => (G p).slots) raw.path c := by
        rw [Includes, hroot]
        exact hc
      refine ⟨c, hcG, (reflTransGen_of_agree (A := Reaches host raw.dir raw.content)
        (fun p hp q hq => hp.includes hq) (fun p hp q hq => (hincludes p hp q).mpr hq)
        (hfirst c hcG) hq).1⟩
  have hacyclicG : ∀ p, Reaches host raw.dir raw.content p →
      ¬ TransGen (Includes fun p => (G p).slots) p p := fun p hp htrans =>
    hacyclic p hp (transGen_of_agree hclosed hagree hp htrans)
  have hnodup : ∀ p, Reaches host raw.dir raw.content p → (G p).paths.Nodup := by
    intro p hp
    rw [hG p hp]
    exact (hloadables p hp).nodup
  have htexts : ∀ p, Reaches host raw.dir raw.content p → ∀ W,
      IsLookedFor host (Reaches host raw.dir raw.content) W → ∀ text ∈ (G p).texts,
        Avoids W text := by
    rintro p hp W (rfl | rfl) text htext
    · exact hinter.tokens p (.inr hp) text htext
    · exact hinter.plain p hp text htext
  have htextsRoot := hinter.tokens raw.path (.inl rfl)
  have hpaths : script.includes.map (·.path) = (G raw.path).slots.map (·.2) := by
    rw [h.paths trivial, hroot]
    rfl
  have hreachedSlot : ∀ slot ∈ (G raw.path).slots, Reaches host raw.dir raw.content slot.2 :=
    fun slot hslot => hfirst _ (List.mem_map_of_mem hslot)
  have hemits : ∀ child ∈ script.includes,
      Emits host (Reaches host raw.dir raw.content) G child := by
    intro child hchild
    have hmem : child.path ∈ (G raw.path).slots.map (·.2) := hpaths ▸ List.mem_map_of_mem hchild
    exact (h.includes child hchild).emits hhashes hinter.distinct hG hclosed hacyclicG hnodup htexts
      (hfirst _ hmem)
  have hlined : Lined true (G raw.path).slots (G raw.path).last := by
    rw [hroot]
    exact template_lined _ _ _
  -- The loop over all slots of the root, with nothing written before it.
  obtain ⟨pieces, hout, hemission, hclean⟩ := interpolateIncludes_emits hhashes hinter.distinct
    (fun htrans => hinter.other ((hreach raw.path).mp htrans)) {q | q ∈ []}
    (fun q hq => absurd hq List.not_mem_nil) script.includes
    (fun child hchild => (h.includes child hchild).token_eq) hemits [] (G raw.path).slots rfl hpaths
    (hroot ▸ hloadable.nodup) hreachedSlot true hlined
    (fun slot hslot => htextsRoot _ (List.mem_append_left _ (List.mem_map_of_mem hslot)))
    (htextsRoot _ (List.mem_append_right _ List.mem_cons_self)) [] [] (emitting_nil _ _ _ _)
    (IsLookedFor.avoids_nil (.inl rfl)) (fun _ => rfl) _ rfl
  have hinterpolate : interpolate script [] = interpolateIncludes script.includes
      (([] : List (Chars × Chars)).flatMap (·.2) ++
        Template.render host { slots := (G raw.path).slots, last := (G raw.path).last }) [] := by
    rw [interpolate_eq, h.content trivial, hroot]
    rfl
  rw [← hinterpolate] at hout hclean
  refine ⟨pieces, hout, fun p hp => ?_, fun piece hpiece => ?_, hemission.order, fun p hp => ?_⟩
  · refine hemission.once p (hp.imp_right fun hp => ?_)
    exact ⟨(hreach p).mpr hp, List.not_mem_nil⟩
  · exact (hemission.only piece hpiece).imp_right fun hpiece => (hreach _).mp hpiece.1
  · exact hclean _ (.inl rfl)
      (fun slot hslot => htextsRoot _ (List.mem_append_left _ (List.mem_map_of_mem hslot)))
      (htextsRoot _ (List.mem_append_right _ List.mem_cons_self))
      (IsLookedFor.avoids_nil (.inl rfl)) _ ⟨p, hp, rfl⟩

/-- What the loader returns for a script. It is safe to load a script whose inclusions have no
cycle, if each file that it leads to can be loaded. -/
theorem parseScript_yields {exact safe : Prop} {reached : Chars → Prop}
    (hdisk : DiskOk host exact reached safe) (hcache : CacheOk host exact [] cache)
    (hreached : ∀ q ∈ (template host dir content).paths, reached q)
    (hfirst : exact → FirstFound content)
    (hsafe : safe → Loadable host dir content ∧ ¬ Reaches host dir content name) (fuel : ℕ) :
    Yields (parseScript host fuel dir name content cache) safe fun result =>
      Built host exact
        { dir, path := name, content, token := getPathHash host name, includes := [] } result.1 ∧
      CacheOk host exact [] result.2 := by
  have hfile := (resolves hdisk fuel).2.2.2
    { dir, path := name, content, token := getPathHash host name, includes := [] } cache false [] []
    rfl hfirst hreached (fun h => (hsafe h).1)
    (fun h => ⟨List.not_mem_nil, fun q hq r hr hmem => ?_⟩) hcache (List.nil_subset _)
  · refine hfile.mono ?_
    rintro ⟨script, cache'⟩ ⟨hbuilt, cache₁, hcache₁, heq⟩
    obtain rfl : cache' = cache₁ := heq
    exact ⟨hbuilt, hcache₁⟩
  · obtain rfl : r = name := by simpa using hmem
    exact (hsafe h).2 ⟨q, hq, hr⟩

/-- What has been loaded has no cycle. -/
theorem parseScript_not_cyclic (hhashes : Hashes host) (hcache : CacheOk host False [] cache)
    {fuel : ℕ} {loaded : ScriptMetadata × ScriptCache}
    (h : parseScript host fuel dir name content cache = some (.ok loaded)) {p : Chars}
    (hp : Reaches host dir content p) : ¬ TransGen (Includes (diskSlots host)) p p := by
  have hdisk : DiskOk host False (fun _ => True) False :=
    { hashes := hhashes
      closed := fun _ _ _ _ => trivial
      firstFound := False.elim
      any := fun _ _ => trivial
      safe_exact := id
      loadable := False.elim
      acyclic := False.elim }
  have hyields : Yields (parseScript host fuel dir name content cache) False _ :=
    parseScript_yields hdisk hcache (fun _ _ => trivial) False.elim False.elim fuel
  obtain ⟨c, hc, hp⟩ := hp
  have hbuilt := (hyields.ok loaded h).1
  obtain ⟨child, hchild, rfl⟩ := List.mem_map.mp (hbuilt.covers hc)
  exact not_transGen_of_acc (hbuilt.includes child hchild).acc hp

/-- With finitely many files, a script whose inclusions have a cycle is an error. One whose
inclusions have none, and whose files can be loaded and interpolated, is assembled, if the text of a
directive does not occur before it in its file. -/
theorem assembleScript_assembles (hhashes : Hashes host)
    (hfiles : ∀ path, (host.readFile path).isSome = true → path ∈ files)
    (hcache : CacheOk host False [] cache) :
    ((∃ p, Reaches host dir content p ∧ TransGen (Includes (diskSlots host)) p p) →
      ∃ n e, ∀ fuel, n ≤ fuel →
        assembleScript host fuel dir name content cache = some (.error e)) ∧
    ((∀ p, Reaches host dir content p → ¬ TransGen (Includes (diskSlots host)) p p) →
      CacheOk host True [] cache →
      Loadable host dir content →
      (∀ p, Reaches host dir content p →
        Loadable host (host.dirname p) ((host.readFile p).getD [])) →
      FirstFound content →
      (∀ p, Reaches host dir content p → FirstFound ((host.readFile p).getD [])) →
      Interpolable host dir name content →
      ∃ n out cache', (∀ fuel, n ≤ fuel →
          assembleScript host fuel dir name content cache = some (.ok (out, cache'))) ∧
        IsAssembly host dir name content out ∧ CacheOk host True [] cache') := by
  have hcacheIn : CacheIn files cache := by
    intro path file hfile
    obtain ⟨rfl, hmem | hresolved⟩ := hcache path file hfile
    · cases hmem
    · refine ⟨rfl, hfiles _ ?_⟩
      cases hresolved with
      | intro content read _ _ _ _ _ _ _ => simp [read]
  -- The loader ends in any case, by the number of files; what remains is what it answers.
  obtain ⟨n, result, hresult, -⟩ := parseScript_halts hfiles dir name content hcacheIn
  let finish (loaded : ScriptMetadata × ScriptCache) : Load (Chars × ScriptCache) :=
    pure ((interpolate loaded.1 []).1, loaded.2)
  have hassemble : ∀ fuel, n ≤ fuel → assembleScript host fuel dir name content cache =
      ((show Load (ScriptMetadata × ScriptCache) from some result) >>= finish) := fun fuel hfuel =>
    congrArg (fun load : Load (ScriptMetadata × ScriptCache) => load >>= finish)
      (hresult fuel hfuel)
  constructor
  · rintro ⟨p, hp, hcycle⟩
    cases result with
    | error e => exact ⟨n, e, hassemble⟩
    | ok loaded =>
      -- A script that was loaded has no cycle, whatever the cache held.
      exact absurd hcycle (parseScript_not_cyclic hhashes hcache (hresult n le_rfl) hp)
  · intro hacyclic hcache hloadable hloadables hfirst hfirsts hinter
    have hdisk : DiskOk host True (Reaches host dir content) True :=
      { hashes := hhashes
        closed := fun p hp q hq => hp.includes hq
        firstFound := fun _ => hfirsts
        any := fun h => absurd trivial h
        safe_exact := id
        loadable := fun _ => hloadables
        acyclic := fun _ => hacyclic }
    have hyields : Yields (parseScript host n dir name content cache) True _ :=
      parseScript_yields hdisk hcache (fun q hq => ⟨q, hq, .refl⟩) (fun _ => hfirst)
        (fun _ => ⟨hloadable, hinter.other⟩) n
    cases result with
    | error e => exact absurd trivial (hyields.error e (hresult n le_rfl))
    | ok loaded =>
      obtain ⟨hbuilt, hcache'⟩ := hyields.ok loaded (hresult n le_rfl)
      exact ⟨n, _, loaded.2, hassemble,
        hbuilt.isAssembly hhashes rfl rfl rfl hacyclic hloadable hloadables hinter, hcache'⟩

/-! ### Two examples -/

/-- A host with some files, for references without patterns and mappings. -/
def sampleHost (files : List (Chars × Chars)) : Host where
  rootPath := "/s".toList
  pathMapper _ := none
  join dir file := dir ++ '/' :: file
  normalize := id
  resolve dir file := dir ++ '/' :: file
  resolveMatched := id
  dirname path := ((path.reverse.dropWhile (· ≠ '/')).drop 1).reverse
  extname path :=
    let base := path.reverse.takeWhile (· ≠ '/')
    if '.' ∈ base then '.' :: (base.takeWhile (· ≠ '.')).reverse else []
  hasMagic path := path.any (· ∈ "*?[(!+@".toList)
  glob _ := []
  sha1 path :=
    if path = "main".toList then "b28b7af69320201d1cf206ebf28373980add1451".toList
    else if path = "/s/a.lua".toList then "1fb7ef85c1f86e34a02fba599794e55c8bfde9b8".toList
    else if path = "/s/b.lua".toList then "4d5beda1ba3d006f9ed158b859fb00d68c5fd515".toList
    else List.replicate 40 '0'
  readFile path := files.lookup path

theorem hashes_sampleHost (files : List (Chars × Chars)) : Hashes (sampleHost files) where
  digits path := by
    unfold sampleHost
    dsimp only
    split_ifs <;> exact List.all_iff_forall_prop.mp (by decide)
  length path := by
    unfold sampleHost
    dsimp only
    split_ifs <;> rfl

theorem mem_of_readFile_sampleHost {files : List (Chars × Chars)} {path : Chars}
    (h : ((sampleHost files).readFile path).isSome = true) : path ∈ (files.map (·.1)).toFinset := by
  obtain ⟨content, hcontent⟩ := Option.isSome_iff_exists.mp h
  obtain ⟨front, back, heq, -⟩ := List.lookup_eq_some_iff.mp hcontent
  simp [heq]

/-- A file that does not exist includes nothing. -/
theorem includes_sampleHost {files : List (Chars × Chars)} {p q : Chars}
    (h : Includes (diskSlots (sampleHost files)) p q) : p ∈ files.map (·.1) := by
  cases hread : (sampleHost files).readFile p with
  | none =>
    rw [Includes, diskSlots, diskTemplate, hread] at h
    cases h
  | some content => simpa using mem_of_readFile_sampleHost (by rw [hread]; rfl)

/-- The texts of directives that are in no text between them are first found at the directives. -/
theorem firstFound_of_forall {content : Chars}
    (h : ∀ found ∈ (fileDirectives content).1, ∀ earlier ∈ (fileDirectives content).1,
      ¬ found.text <:+: earlier.before) : FirstFound content := by
  intro front found hfronts earlier hearlier
  exact h found (hfronts.subset (by simp)) earlier (hfronts.subset hearlier)

theorem avoids_tokensOf {text : Chars} (h : '@' ∉ text) :
    Avoids (tokensOf host reached) text := by
  rintro _ ⟨path, -, rfl⟩ hocc
  exact h (hocc.subset List.mem_cons_self)

theorem cacheOk_empty (host : Host) (exact : Prop) (active : List Chars) :
    CacheOk host exact active fun _ => none := by
  intro path file h
  cases h

/-- Two files, where the first one includes the second one. -/
def sampleFiles : List (Chars × Chars) :=
  [("/s/a.lua".toList, "-- @include \"b\"\nlocal a = b".toList),
    ("/s/b.lua".toList, "local b = 1".toList)]

/-- A script that includes both. -/
def sampleScript : Chars := "-- @include \"a\"\n-- @include \"b\"\nreturn f()".toList

theorem sampleFiles_includes {p q : Chars}
    (h : Includes (diskSlots (sampleHost sampleFiles)) p q) :
    p = "/s/a.lua".toList ∧ q = "/s/b.lua".toList := by
  have hp := includes_sampleHost h
  simp only [sampleFiles, List.map_cons, List.map_nil, List.mem_cons, List.not_mem_nil,
    or_false] at hp
  have hslots : (diskSlots (sampleHost sampleFiles) "/s/a.lua".toList).map (·.2) =
      ["/s/b.lua".toList] ∧ diskSlots (sampleHost sampleFiles) "/s/b.lua".toList = [] := by
    decide +kernel
  obtain rfl | rfl := hp
  · rw [Includes, hslots.1] at h
    exact ⟨rfl, List.mem_singleton.mp h⟩
  · rw [Includes, hslots.2] at h
    cases h

theorem sampleFiles_reaches {p : Chars}
    (h : Reaches (sampleHost sampleFiles) "/s".toList sampleScript p) :
    p = "/s/a.lua".toList ∨ p = "/s/b.lua".toList := by
  obtain ⟨c, hc, hp⟩ := h
  cases hp with
  | refl =>
    have hpaths : (template (sampleHost sampleFiles) "/s".toList sampleScript).slots.map (·.2) =
        ["/s/a.lua".toList, "/s/b.lua".toList] := by decide +kernel
    rw [hpaths] at hc
    simpa using hc
  | tail _ hstep => exact .inr (sampleFiles_includes hstep).2

theorem sampleFiles_acyclic (p : Chars) :
    ¬ TransGen (Includes (diskSlots (sampleHost sampleFiles))) p p := by
  intro hcycle
  obtain ⟨q, hpq, hqp⟩ := TransGen.head'_iff.mp hcycle
  obtain ⟨rfl, rfl⟩ := sampleFiles_includes hpq
  obtain heq | ⟨r, hstep, -⟩ := ReflTransGen.cases_head hqp
  · exact absurd heq (by decide)
  · exact absurd (sampleFiles_includes hstep).1 (by decide)

theorem sampleFiles_texts (p : Chars)
    (hp : p = "main".toList ∨ Reaches (sampleHost sampleFiles) "/s".toList sampleScript p) :
    ∀ text ∈ (scriptTemplate (sampleHost sampleFiles) "/s".toList "main".toList sampleScript
    p).texts,
      '@' ∉ text ∧ '$' ∉ text := by
  obtain rfl | rfl | rfl := hp.imp_right sampleFiles_reaches <;> decide +kernel

theorem sampleFiles_loadable (dir content : Chars)
    (h : (dir, content) ∈ [("/s".toList, sampleScript),
      ("/s".toList, "-- @include \"b\"\nlocal a = b".toList),
      ("/s".toList, "local b = 1".toList)]) :
    Loadable (sampleHost sampleFiles) dir content ∧ FirstFound content := by
  simp only [List.mem_cons, List.not_mem_nil, or_false, Prod.mk.injEq] at h
  have hfound : (∀ found ∈ (fileDirectives content).1,
      includePaths (sampleHost sampleFiles) [] dir found.reference =
          .ok (included (sampleHost sampleFiles) dir found.reference) ∧
        included (sampleHost sampleFiles) dir found.reference ≠ []) ∧
      (∀ path ∈ (template (sampleHost sampleFiles) dir content).paths,
        ((sampleHost sampleFiles).readFile path).isSome = true) ∧
      (template (sampleHost sampleFiles) dir content).paths.Nodup ∧
      ∀ found ∈ (fileDirectives content).1, ∀ earlier ∈ (fileDirectives content).1,
        ¬ found.text <:+: earlier.before := by
    obtain ⟨rfl, rfl⟩ | ⟨rfl, rfl⟩ | ⟨rfl, rfl⟩ := h <;> decide +kernel
  obtain ⟨hfound, hexist, hnodup, hfirst⟩ := hfound
  exact ⟨⟨fun found h => ⟨_, hfound found h⟩, hexist, hnodup⟩, firstFound_of_forall hfirst⟩

/-- The two files and the script are assembled. -/
theorem assembleScript_assembles_sample :
    ∃ n out cache', (∀ fuel, n ≤ fuel →
      assembleScript (sampleHost sampleFiles) fuel "/s".toList "main".toList sampleScript
        (fun _ => none) = some (.ok (out, cache'))) ∧
      IsAssembly (sampleHost sampleFiles) "/s".toList "main".toList sampleScript out := by
  have hloadable := sampleFiles_loadable "/s".toList sampleScript List.mem_cons_self
  have hloadables : ∀ p, Reaches (sampleHost sampleFiles) "/s".toList sampleScript p →
      Loadable (sampleHost sampleFiles) ((sampleHost sampleFiles).dirname p)
          (((sampleHost sampleFiles).readFile p).getD []) ∧
        FirstFound (((sampleHost sampleFiles).readFile p).getD []) := by
    intro p hp
    refine sampleFiles_loadable _ _ ?_
    obtain rfl | rfl := sampleFiles_reaches hp <;> decide +kernel
  have hinter : Interpolable (sampleHost sampleFiles) "/s".toList "main".toList sampleScript :=
    { other := fun h => (sampleFiles_reaches h).elim (absurd · (by decide)) (absurd · (by decide))
      distinct := fun p q hp hq h => by
        obtain rfl | rfl := sampleFiles_reaches hp <;> obtain rfl | rfl := sampleFiles_reaches hq
        · rfl
        · exact absurd h (by decide)
        · exact absurd h (by decide)
        · rfl
      tokens := fun p hp text htext => avoids_tokensOf (sampleFiles_texts p hp text htext).1
      plain := fun p hp text htext =>
        plain_of_not_mem (sampleFiles_texts p (.inr hp) text htext).2 }
  obtain ⟨n, out, cache', hout, hassembly, -⟩ :=
    (assembleScript_assembles (hashes_sampleHost sampleFiles) (fun _ => mem_of_readFile_sampleHost)
      (cacheOk_empty _ _ _)).2 (fun p _ => sampleFiles_acyclic p) (cacheOk_empty _ _ _)
      hloadable.1 (fun p hp => (hloadables p hp).1) hloadable.2 (fun p hp => (hloadables p hp).2)
      hinter
  exact ⟨n, out, cache', hout, hassembly⟩

/-- A file with a dollar sign before an apostrophe. -/
def dollarFiles : List (Chars × Chars) :=
  [("/s/a.lua".toList, "local s = '$'".toList)]

/-- A script that includes it. -/
def dollarScript : Chars := "-- @include \"a\"\nreturn f()".toList

theorem dollarFiles_includes {p q : Chars} :
    ¬ Includes (diskSlots (sampleHost dollarFiles)) p q := by
  intro h
  have hp := includes_sampleHost h
  obtain rfl : p = "/s/a.lua".toList := by simpa [dollarFiles] using hp
  have hslots : diskSlots (sampleHost dollarFiles) "/s/a.lua".toList = [] := by decide +kernel
  rw [Includes, hslots] at h
  cases h

/-- The inclusions have no cycle, and no text contains a token. But the apostrophe and what follows
the token take the place of the dollar sign, and the text of the file is not there. -/
theorem assembleScript_dollar :
    (∀ p, ¬ TransGen (Includes (diskSlots (sampleHost dollarFiles))) p p) ∧
      (∀ p, p = "main".toList ∨ Reaches (sampleHost dollarFiles) "/s".toList dollarScript p →
        ∀ text ∈ (scriptTemplate (sampleHost dollarFiles) "/s".toList "main".toList
          dollarScript p).texts,
          Avoids (tokensOf (sampleHost dollarFiles)
            (Reaches (sampleHost dollarFiles) "/s".toList dollarScript)) text) ∧
      (assembleScript (sampleHost dollarFiles) 8 "/s".toList "main".toList dollarScript
        (fun _ => none)).run.map (·.map (·.1)) =
          some (.ok "local s = '\nreturn f()\nreturn f()".toList) ∧
      ¬ IsAssembly (sampleHost dollarFiles) "/s".toList "main".toList dollarScript
        "local s = '\nreturn f()\nreturn f()".toList := by
  have hpaths : (template (sampleHost dollarFiles) "/s".toList dollarScript).slots.map (·.2) =
      ["/s/a.lua".toList] := by decide +kernel
  have hreaches : ∀ p, Reaches (sampleHost dollarFiles) "/s".toList dollarScript p ↔
      p = "/s/a.lua".toList := by
    intro p
    rw [Reaches, Leads, hpaths]
    constructor
    · rintro ⟨c, hc, hp⟩
      cases hp with
      | refl => exact List.mem_singleton.mp hc
      | tail _ hstep => exact absurd hstep dollarFiles_includes
    · rintro rfl
      exact ⟨_, List.mem_cons_self, .refl⟩
  refine ⟨fun p hcycle => ?_, fun p hp text htext => avoids_tokensOf ?_, by decide +kernel, ?_⟩
  · obtain ⟨q, hpq, -⟩ := TransGen.head'_iff.mp hcycle
    exact dollarFiles_includes hpq
  · have hnot : ∀ text ∈ (scriptTemplate (sampleHost dollarFiles) "/s".toList "main".toList
        dollarScript p).texts, '@' ∉ text := by
      obtain rfl | rfl := hp.imp_right (hreaches p).mp <;> decide +kernel
    exact hnot text htext
  · rintro ⟨pieces, hout, honce, -⟩
    have htexts := honce _ (.inr ((hreaches _).mpr rfl))
    have hlast : "local s = '$'".toList ∈ textsOf "/s/a.lua".toList pieces := by
      rw [htexts]
      decide +kernel
    obtain ⟨piece, hpiece, heq⟩ := List.mem_map.mp hlast
    have hdollar : '$' ∈ pieces.flatMap (·.2) := by
      refine List.mem_flatMap.mpr ⟨piece, List.mem_of_mem_filter hpiece, ?_⟩
      rw [heq]
      decide
    rw [← hout] at hdollar
    exact absurd hdollar (by decide)

end BullMQ
