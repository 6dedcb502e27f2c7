import BullMQ.Properties.Templates
import BullMQ.Text.Inclusion

/-!
# Resolving a script

What `resolveDependencies` returns for a file (`Built`): the template of the file with the tokens in
it, and the files that it includes, which are resolved in turn (`Resolved`). A file in the cache has
been resolved before, or is being resolved (`CacheOk`). If the inclusions have no cycle and each
file can be loaded, there is no error; a cycle is always one, since what is resolved has none
(`Resolved.acc`). Where the text of a directive occurs before it in its file, the tokens go to the
wrong place (`exact` does not hold), but the files of each directive are still included.
-/

namespace BullMQ

open Relation Text

variable {host : Host} {α β : Type}

/-- The hash is made of hexadecimal digits. -/
structure Hashes (host : Host) : Prop where
  digits : ∀ path, ∀ c ∈ host.sha1 path, c ∈ "0123456789abcdef".toList
  length : ∀ path, (host.sha1 path).length = 40

/-- The template of a file on the disk. -/
def diskTemplate (host : Host) (path : Chars) : Template :=
  template host (host.dirname path) ((host.readFile path).getD [])

def diskSlots (host : Host) (path : Chars) : List (Chars × Chars) := (diskTemplate host path).slots

/-- A file that has been resolved, with all that it includes. If `exact` holds, its content is its
template. -/
inductive Resolved (host : Host) (exact : Prop) : ScriptMetadata → Prop
  | intro {file : ScriptMetadata} (content : Chars)
      (read : host.readFile file.path = some content)
      (dir : file.dir = host.dirname file.path)
      (token : file.token = getPathHash host file.path)
      (scanned : execInclude true file.content = none)
      (covers : (diskTemplate host file.path).paths ⊆ file.includes.map (·.path))
      (content_eq : exact → file.content = (diskTemplate host file.path).render host)
      (paths : exact → file.includes.map (·.path) = (diskTemplate host file.path).paths)
      (includes : ∀ child ∈ file.includes, Resolved host exact child) :
      Resolved host exact file

/-- The content and the included files of a file that has been resolved from another one. -/
structure Built (host : Host) (exact : Prop) (raw file : ScriptMetadata) : Prop where
  dir : file.dir = raw.dir
  path : file.path = raw.path
  token : file.token = raw.token
  scanned : execInclude true file.content = none
  covers : (template host raw.dir raw.content).paths ⊆ file.includes.map (·.path)
  content : exact → file.content = (template host raw.dir raw.content).render host
  paths : exact → file.includes.map (·.path) = (template host raw.dir raw.content).paths
  includes : ∀ child ∈ file.includes, Resolved host exact child

/-- The files in the cache are resolved, apart from some that are being resolved. -/
def CacheOk (host : Host) (exact : Prop) (active : List Chars) (cache : ScriptCache) : Prop :=
  ∀ path file, cache path = some file →
    file.path = path ∧ (path ∈ active ∨ Resolved host exact file)

/-- The directives of a file lead to files that exist, each of which is included once. -/
structure Loadable (host : Host) (dir content : Chars) : Prop where
  found : ∀ found ∈ (fileDirectives content).1, ∃ paths,
    includePaths host [] dir found.reference = .ok paths ∧ paths ≠ []
  exist : ∀ path ∈ (template host dir content).paths, (host.readFile path).isSome = true
  nodup : (template host dir content).paths.Nodup

/-! ### Results of the loader -/

/-- What holds of a result of the loader; there is no error if `safe` holds. -/
structure Yields (load : Load α) (safe : Prop) (post : α → Prop) : Prop where
  ok : ∀ a, load = some (.ok a) → post a
  error : ∀ e, load = some (.error e) → ¬ safe

variable {load : Load α} {safe : Prop} {post : α → Prop}

theorem Yields.pure {a : α} (h : post a) : Yields (Pure.pure a : Load α) safe post where
  ok b hb := by
    obtain rfl : a = b := Except.ok.inj (Option.some.inj hb)
    exact h
  error e he := by cases Option.some.inj he

theorem Yields.throw {e : ScriptLoaderError} (h : ¬ safe) :
    Yields (MonadExcept.throw e : Load α) safe post where
  ok a ha := by cases Option.some.inj ha
  error _ _ := h

theorem Yields.lift {result : Except ScriptLoaderError α} (hok : ∀ a, result = .ok a → post a)
    (herror : ∀ e, result = .error e → ¬ safe) : Yields (liftM result : Load α) safe post where
  ok a ha := hok a (Option.some.inj ha)
  error e he := herror e (Option.some.inj he)

theorem Yields.outOfFuel : Yields (ExceptT.mk none : Load α) safe post where
  ok a ha := by cases ha
  error e he := by cases he

theorem Yields.bind {next : α → Load β} {goal : β → Prop} (h : Yields load safe post)
    (hnext : ∀ a, post a → Yields (next a) safe goal) : Yields (load >>= next) safe goal := by
  have hbind : ∀ result : Option (Except ScriptLoaderError α), load = result →
      Yields ((show Load α from result) >>= next) safe goal := by
    intro result hload
    cases result with
    | none => exact .outOfFuel
    | some result =>
      cases result with
      | error e => exact .throw (h.error e hload)
      | ok a => exact hnext a (h.ok a hload)
  exact hbind load rfl

theorem Yields.mono {post' : α → Prop} (h : Yields load safe post) (hpost : ∀ a, post a → post' a) :
    Yields load safe post' where
  ok a ha := hpost a (h.ok a ha)
  error := h.error

/-! ### One file -/

variable {exact : Prop} {reached : Chars → Prop} {file : ScriptMetadata} {cache : ScriptCache}
  {active stack : List Chars} {found : IncludeMatch} {paths : List Chars}

/-- The files that a directive leads to are reached. If the loader is safe, none of them is included
twice, and each exists and does not lead back to a file on the stack. -/
structure Addable (host : Host) (reached : Chars → Prop) (safe : Prop) (stack included : List Chars)
    (paths : List Chars) : Prop where
  reached : ∀ path ∈ paths, reached path
  nodup : safe → (included ++ paths).Nodup
  exist : safe → ∀ path ∈ paths, (host.readFile path).isSome = true
  leaves : safe → ∀ path ∈ paths, ∀ q,
    ReflTransGen (Inclusion.Includes (diskSlots host)) path q → q ∉ stack

/-- What is known of the files that are reached. If `exact` does not hold, any file may be. -/
structure DiskOk (host : Host) (exact : Prop) (reached : Chars → Prop) (safe : Prop) : Prop where
  hashes : Hashes host
  closed : ∀ p, reached p → ∀ q, Inclusion.Includes (diskSlots host) p q → reached q
  firstFound : exact → ∀ p, reached p → FirstFound ((host.readFile p).getD [])
  any : ¬ exact → ∀ p, reached p
  safe_exact : safe → exact
  loadable : safe → ∀ p, reached p → Loadable host (host.dirname p) ((host.readFile p).getD [])
  acyclic : safe → ∀ p, reached p → ¬ TransGen (Inclusion.Includes (diskSlots host)) p p

/-- A text with tokens after it, as it is left in the place of a directive. -/
structure IsPart (part : Chars × Chars) : Prop where
  ends : EndsAt Ends part.1
  token : ∃ tail, part.2 = '@' :: tail
  no_dash : '-' ∉ part.2

/-- The slots of some directives in a file. -/
def slotsOfAll (host : Host) (dir : Chars) (found : List IncludeMatch) : List (Chars × Chars) :=
  found.flatMap fun found => slotsOf found.before (included host dir found.reference)

/-- The loop over the files of a directive. -/
def AddsIncludes (host : Host) (exact : Prop) (reached : Chars → Prop) (safe : Prop)
    (fuel : ℕ) : Prop :=
  ∀ file found paths cache active stack, CacheOk host exact active cache → active ⊆ stack →
    Addable host reached safe stack (file.includes.map (·.path)) paths →
    Yields (addIncludes host fuel file found paths cache stack) safe fun result =>
      CacheOk host exact active result.2.2 ∧ result.2.1 = paths.map (getPathHash host) ∧
      ∃ children, result.1 = { file with includes := file.includes ++ children } ∧
        children.map (·.path) = paths ∧ ∀ child ∈ children, Resolved host exact child

/-- The loop over the directives, where some have been replaced. -/
def ResolvesIncludes (host : Host) (exact : Prop) (reached : Chars → Prop) (safe : Prop)
    (fuel : ℕ) : Prop :=
  ∀ file parts s atStart n cache active stack,
    Scanned atStart (substituted parts) → (atStart = false → StartsAt Ends s) → s.length ≤ n →
    (∀ part ∈ parts, IsPart part) →
    (∀ front found, front ++ [found] <+: (directives n atStart s).1 →
      (∀ part ∈ parts, ¬ found.text <:+: part.1) ∧
      ∀ earlier ∈ front ++ [found], ¬ found.text <:+: earlier.before) →
    (safe → ∀ found ∈ (directives n atStart s).1, ∃ paths,
      includePaths host [] file.dir found.reference = .ok paths ∧ paths ≠ []) →
    Addable host reached safe stack (file.includes.map (·.path))
      ((slotsOfAll host file.dir (directives n atStart s).1).map (·.2)) →
    CacheOk host exact active cache → active ⊆ stack →
    Yields (resolveIncludes host fuel file (substituted parts ++ s) cache stack) safe fun result =>
      CacheOk host exact active result.2 ∧ execInclude true result.1.content = none ∧
      ∃ children, result.1 = { file with
          content := substituted parts ++ Template.render host
            { slots := slotsOfAll host file.dir (directives n atStart s).1
              last := (directives n atStart s).2 }
          includes := file.includes ++ children } ∧
        children.map (·.path) = (slotsOfAll host file.dir (directives n atStart s).1).map (·.2) ∧
        ∀ child ∈ children, Resolved host exact child

/-- The same loop, wherever the tokens go: the files of each directive are included. -/
def CoversIncludes (host : Host) (exact : Prop) (reached : Chars → Prop) (safe : Prop) (fuel : ℕ) :
    Prop :=
  ∀ file content cache active stack, CacheOk host exact active cache → active ⊆ stack →
    (∀ p, reached p) → ¬ safe →
    Yields (resolveIncludes host fuel file content cache stack) safe fun result =>
      CacheOk host exact active result.2 ∧ execInclude true result.1.content = none ∧
      result.1.dir = file.dir ∧ result.1.path = file.path ∧ result.1.token = file.token ∧
      (∃ children, result.1.includes = file.includes ++ children ∧
        ∀ child ∈ children, Resolved host exact child) ∧
      ∀ x z found, content = x ++ z → EndsAt Ends x → matchInclude z = some found →
        included host file.dir found.reference ⊆ result.1.includes.map (·.path)

/-- A file that has just been read. -/
def ResolvesFile (host : Host) (exact : Prop) (reached : Chars → Prop) (safe : Prop)
    (fuel : ℕ) : Prop :=
  ∀ file cache isInclude active stack, file.includes = [] →
    (exact → FirstFound file.content) →
    (∀ q ∈ (template host file.dir file.content).paths, reached q) →
    (safe → Loadable host file.dir file.content) →
    (safe → file.path ∉ stack ∧ ∀ q ∈ (template host file.dir file.content).paths, ∀ r,
      ReflTransGen (Inclusion.Includes (diskSlots host)) q r → r ∉ stack ++ [file.path]) →
    CacheOk host exact active cache → active ⊆ stack ++ [file.path] →
    Yields (resolveDependencies host fuel file cache isInclude stack) safe fun result =>
      Built host exact file result.1 ∧ ∃ cache', CacheOk host exact active cache' ∧
        result.2 = if isInclude then Function.update cache' file.path (some result.1) else cache'

theorem getPathHash_isToken (h : Hashes host) (path : Chars) :
    IsToken (getPathHash host path) ∧ '-' ∉ getPathHash host path ∧
    '$' ∉ getPathHash host path := by
  have hdigits : ∀ c ∈ '@' :: "0123456789abcdef".toList, ¬ Ends c ∧ '-' ≠ c ∧ '$' ≠ c :=
    List.all_iff_forall_prop.mp (by decide)
  have hall : ∀ c ∈ getPathHash host path, ¬ Ends c ∧ '-' ≠ c ∧ '$' ≠ c := by
    intro c hc
    refine hdigits c ?_
    simp only [getPathHash, List.mem_cons] at hc
    obtain rfl | rfl | hc := hc
    · exact List.mem_cons_self
    · exact List.mem_cons_self
    · exact List.mem_cons_of_mem _ (h.digits path c hc)
  refine ⟨⟨_, rfl, fun c hc => (hall c (List.mem_cons_of_mem _ hc)).1⟩, fun hc => ?_, fun hc => ?_⟩
  · exact (hall _ hc).2.1 rfl
  · exact (hall _ hc).2.2 rfl

theorem mem_intercalate {c : Char} {tokens : List Chars} (h : c ∈ ['\n'].intercalate tokens) :
    c = '\n' ∨ ∃ token ∈ tokens, c ∈ token := by
  induction tokens with
  | nil => simp at h
  | cons token tokens ih =>
    cases tokens with
    | nil => exact .inr ⟨token, by simp, by simpa using h⟩
    | cons next tokens =>
      rw [List.intercalate_cons_cons, List.mem_append, List.mem_append, List.mem_singleton] at h
      obtain (h | h) | h := h
      · exact .inr ⟨token, by simp, h⟩
      · exact .inl h
      · exact (ih h).imp_right fun ⟨token, hmem, hc⟩ => ⟨token, List.mem_cons_of_mem _ hmem, hc⟩

theorem slotsOf_paths (before : Chars) (paths : List Chars) :
    (slotsOf before paths).map (·.2) = paths := by
  cases paths with
  | nil => rfl
  | cons path paths => simp [slotsOf, Function.comp_def]

theorem resolvesFile_succ {fuel : ℕ} (hdisk : DiskOk host exact reached safe)
    (hexactLoop : ResolvesIncludes host exact reached safe fuel)
    (hloop : CoversIncludes host exact reached safe fuel) :
    ResolvesFile host exact reached safe (fuel + 1) := by
  intro file cache isInclude active stack hincludes hfirst hreached hloadable hleaves hcache hactive
  rw [resolveDependencies]
  split
  · next hmem => exact .throw fun hsafe => (hleaves hsafe).1 hmem
  · -- Where the first directive found is the first in the text, the result is known exactly;
    -- elsewhere only that it covers all directives of the file.
    by_cases hexact : exact
    · have hadd : Addable host reached safe (stack ++ [file.path]) (file.includes.map (·.path))
          (template host file.dir file.content).paths :=
        { reached := hreached
          nodup := fun hsafe => by simpa [hincludes] using (hloadable hsafe).nodup
          exist := fun hsafe => (hloadable hsafe).exist
          leaves := fun hsafe => (hleaves hsafe).2 }
      refine Yields.bind (hexactLoop file [] file.content true file.content.length cache active
        (stack ++ [file.path]) scanned_nil (by simp) le_rfl (by simp)
        (fun front found hfronts => ⟨by simp, hfirst hexact front found hfronts⟩)
        (fun hsafe => (hloadable hsafe).found) hadd hcache hactive) ?_
      rintro ⟨file', cache'⟩ ⟨hcache', hscanned, children, rfl, hpaths, hchildren⟩
      refine .pure ⟨?_, cache', hcache', rfl⟩
      have hpaths' : (file.includes ++ children).map (·.path) =
          (template host file.dir file.content).paths := by
        rw [hincludes]
        exact hpaths
      refine ⟨rfl, rfl, rfl, hscanned, hpaths' ▸ List.Subset.refl _, fun _ => rfl, fun _ => hpaths',
        ?_⟩
      rw [hincludes]
      exact hchildren
    · refine Yields.bind (hloop file file.content cache active (stack ++ [file.path]) hcache hactive
        (hdisk.any hexact) fun hsafe => hexact (hdisk.safe_exact hsafe)) ?_
      rintro ⟨file', cache'⟩ ⟨hcache', hscanned, hdir, hpath, htoken, hchildren, hcovers⟩
      refine .pure ⟨⟨hdir, hpath, htoken, hscanned, ?_, fun h => absurd h hexact,
        fun h => absurd h hexact, ?_⟩, cache', hcache', by rw [hpath]⟩
      · intro q hq
        obtain ⟨slot, hslot, rfl⟩ := List.mem_map.mp hq
        obtain ⟨found, hfound, hslot⟩ := List.mem_flatMap.mp hslot
        obtain ⟨x, z, first, heq, hx, -, hmatch, hreference⟩ := mem_directives (by simp) hfound
        refine hcovers x z first heq hx hmatch ?_
        rw [hreference, ← slotsOf_paths found.before (included host file.dir found.reference)]
        exact List.mem_map_of_mem hslot
      · obtain ⟨children, heq, hresolved⟩ := hchildren
        rw [heq, hincludes]
        exact hresolved

/-- A file that is in the cache and resolved. -/
theorem resolveDependencies_of_resolved (fuel : ℕ) (hfile : Resolved host exact file)
    (cache : ScriptCache) (stack : List Chars) (hstack : safe → file.path ∉ stack) :
    Yields (resolveDependencies host fuel file cache true stack) safe fun result =>
      result = (file, Function.update cache file.path (some file)) := by
  have hscanned : execInclude true file.content = none := by
    cases hfile
    assumption
  cases fuel with
  | zero => exact .outOfFuel
  | succ fuel =>
    rw [resolveDependencies]
    split
    · next hmem => exact .throw fun hsafe => hstack hsafe hmem
    · cases fuel with
      | zero => exact .outOfFuel
      | succ fuel =>
        rw [resolveIncludes, hscanned]
        exact .pure (by cases file; rfl)

/-- A file that is on the stack. -/
theorem resolveDependencies_of_mem (fuel : ℕ) (cache : ScriptCache) {isInclude : Bool}
    (hmem : file.path ∈ stack) (hsafe : ¬ safe) {post : ScriptMetadata × ScriptCache → Prop} :
    Yields (resolveDependencies host fuel file cache isInclude stack) safe post := by
  cases fuel with
  | zero => exact .outOfFuel
  | succ fuel =>
    rw [resolveDependencies, if_pos hmem]
    exact .throw hsafe

theorem CacheOk.mono {active' : List Chars} (h : CacheOk host exact active cache)
    (hsub : active ⊆ active') : CacheOk host exact active' cache := fun path file hfile =>
  ⟨(h path file hfile).1, (h path file hfile).2.imp_left (hsub ·)⟩

theorem CacheOk.update {path : Chars} (h : CacheOk host exact active cache)
    (hpath : file.path = path)
    (hfile : path ∈ active ∨ Resolved host exact file) :
    CacheOk host exact active (Function.update cache path (some file)) := by
  intro q file' hq
  by_cases heq : q = path
  · subst heq
    rw [Function.update_self] at hq
    obtain rfl := Option.some.inj hq
    exact ⟨hpath, hfile⟩
  · rw [Function.update_of_ne heq] at hq
    exact h q file' hq

/-- The entry of a file that has been resolved replaces that of the file being resolved. -/
theorem CacheOk.done {path : Chars} (h : CacheOk host exact (active ++ [path]) cache)
    (hpath : file.path = path) (hfile : Resolved host exact file) :
    CacheOk host exact active (Function.update cache path (some file)) := by
  intro q file' hq
  by_cases heq : q = path
  · subst heq
    rw [Function.update_self] at hq
    obtain rfl := Option.some.inj hq
    exact ⟨hpath, .inr hfile⟩
  · rw [Function.update_of_ne heq] at hq
    obtain ⟨hq, hmem | hresolved⟩ := h q file' hq
    · exact ⟨hq, .inl (by simpa [heq] using hmem)⟩
    · exact ⟨hq, .inr hresolved⟩

/-- What has been built from a file on the disk is resolved. -/
theorem Built.resolved {raw : ScriptMetadata} {content : Chars} (h : Built host exact raw file)
    (hread : host.readFile raw.path = some content) (hcontent : raw.content = content)
    (hdir : raw.dir = host.dirname raw.path) (htoken : raw.token = getPathHash host raw.path) :
    Resolved host exact file := by
  have htemplate : diskTemplate host file.path = template host raw.dir raw.content := by
    rw [diskTemplate, h.path, hread, hdir, hcontent]
    rfl
  refine .intro content (by rw [h.path, hread]) (by rw [h.dir, h.path, hdir])
    (by rw [h.token, h.path, htoken]) h.scanned ?_ (fun hexact => ?_) (fun hexact => ?_) h.includes
  · rw [htemplate]
    exact h.covers
  · rw [htemplate, h.content hexact]
  · rw [htemplate, h.paths hexact]

theorem Resolved.token_eq (h : Resolved host exact file) :
    file.token = getPathHash host file.path := by
  cases h
  assumption

/-- An included file is read from the cache or from the disk, and resolved. -/
theorem readInclude_resolves {fuel : ℕ} {path : Chars} (hsound : DiskOk host exact reached safe)
    (hfile : ResolvesFile host exact reached safe fuel) (hcache : CacheOk host exact active cache)
    (hactive : active ⊆ stack) (hreached : reached path)
    (hexist : safe → (host.readFile path).isSome = true)
    (hleaves : safe → ∀ q, ReflTransGen (Inclusion.Includes (diskSlots host)) path q → q ∉ stack)
    (file : ScriptMetadata) (found : IncludeMatch) :
    Yields (readInclude host file found path cache stack) safe fun child =>
      Yields (resolveDependencies host fuel child.1 child.2 true stack) safe fun result =>
        child.1.token = getPathHash host path ∧ CacheOk host exact active result.2 ∧
        result.1.path = path ∧ Resolved host exact result.1 := by
  have hstack : safe → path ∉ stack := fun hsafe => hleaves hsafe path .refl
  rw [readInclude]
  -- A cached file is done, or it is one that the calls around this one are resolving, which is a
  -- cycle.
  cases hentry : cache path with
  | some child =>
    obtain ⟨rfl, hactive' | hchild⟩ := hcache path child hentry
    · have hmem := hactive hactive'
      exact .pure (resolveDependencies_of_mem fuel cache hmem fun hsafe => hstack hsafe hmem)
    · refine .pure ((resolveDependencies_of_resolved fuel hchild cache stack hstack).mono ?_)
      rintro _ rfl
      exact ⟨hchild.token_eq, hcache.update rfl (.inr hchild), rfl, hchild⟩
  | none =>
    cases hread : host.readFile path with
    | none => exact .throw fun hsafe => by simpa [hread] using hexist hsafe
    | some content =>
      let raw : ScriptMetadata :=
        { dir := host.dirname path
          path := path
          content := content
          token := getPathHash host path
          includes := [] }
      have htemplate : template host raw.dir raw.content = diskTemplate host path := by
        rw [diskTemplate, hread]
        rfl
      have hincludes : ∀ q ∈ (template host raw.dir raw.content).paths,
          Inclusion.Includes (diskSlots host) path q := fun q hq => by
        rw [htemplate] at hq
        exact hq
      have hcontent : (host.readFile path).getD [] = content := by rw [hread]; rfl
      have hfirst : exact → FirstFound raw.content := fun hexact => by
        have h := hsound.firstFound hexact path hreached
        rwa [hcontent] at h
      have hloadable : safe → Loadable host raw.dir raw.content := fun hsafe => by
        have h := hsound.loadable hsafe path hreached
        rwa [hcontent] at h
      -- No file of the stack is reached from here, and the file does not reach itself.
      have hleaves' : safe → ∀ q ∈ (template host raw.dir raw.content).paths, ∀ r,
          ReflTransGen (Inclusion.Includes (diskSlots host)) q r → r ∉ stack ++ [raw.path] := by
        intro hsafe q hq r hr hmem
        have hpr : TransGen (Inclusion.Includes (diskSlots host)) path r :=
          .head' (hincludes q hq) hr
        obtain hmem | hmem := List.mem_append.mp hmem
        · exact hleaves hsafe r hpr.to_reflTransGen hmem
        · rw [List.mem_singleton.mp hmem] at hpr
          exact hsound.acyclic hsafe path hreached hpr
      have hraw := hfile raw (Function.update cache path (some raw)) true (active ++ [path])
        stack rfl
        hfirst (fun q hq => hsound.closed path hreached q (hincludes q hq)) hloadable
        (fun hsafe => ⟨hstack hsafe, hleaves' hsafe⟩)
        ((hcache.mono (List.subset_append_left active [path])).update rfl (.inl (by simp)))
        (List.append_subset.mpr ⟨List.subset_append_of_subset_left [path] hactive, by simp [raw]⟩)
      refine .pure (hraw.mono ?_)
      rintro result ⟨hbuilt, cache₁, hcache₁, hresult⟩
      have hresolved := hbuilt.resolved hread rfl rfl rfl
      rw [hresult]
      exact ⟨rfl, hcache₁.done hbuilt.path hresolved, hbuilt.path, hresolved⟩

theorem addsIncludes_succ {fuel : ℕ} (hsound : DiskOk host exact reached safe)
    (hfile : ResolvesFile host exact reached safe fuel)
    (hadds : AddsIncludes host exact reached safe fuel) :
    AddsIncludes host exact reached safe (fuel + 1) := by
  intro file found paths cache active stack hcache hactive hadd
  cases paths with
  | nil =>
    rw [addIncludes]
    exact .pure ⟨hcache, rfl, [], by cases file; simp, rfl, by simp⟩
  | cons path paths =>
    rw [addIncludes]
    split
    · next hmem =>
      refine .throw fun hsafe => ?_
      have hne := (List.nodup_append.mp (hadd.nodup hsafe)).2.2
      exact hne path hmem path List.mem_cons_self rfl
    · have hpath : safe → path ∉ stack := fun hsafe =>
        hadd.leaves hsafe path List.mem_cons_self path .refl
      -- The file is read and resolved, and the loop goes on with the cache this leaves.
      have hchild := readInclude_resolves hsound hfile hcache hactive
        (hadd.reached path List.mem_cons_self)
          (fun hsafe => hadd.exist hsafe path List.mem_cons_self)
        (fun hsafe => hadd.leaves hsafe path List.mem_cons_self) file found
      refine hchild.bind ?_
      rintro ⟨includeMetadata, cache₁⟩ hchild
      refine hchild.bind ?_
      rintro ⟨child, cache₂⟩ ⟨htoken, hcache₂, rfl, hresolved⟩
      have hrest := hadds { file with includes := file.includes ++ [child] } found paths
        cache₂ active
        stack hcache₂ hactive
        { reached := fun p hp => hadd.reached p (List.mem_cons_of_mem _ hp)
          nodup := fun hsafe => by simpa using hadd.nodup hsafe
          exist := fun hsafe p hp => hadd.exist hsafe p (List.mem_cons_of_mem _ hp)
          leaves := fun hsafe p hp => hadd.leaves hsafe p (List.mem_cons_of_mem _ hp) }
      refine hrest.bind ?_
      rintro ⟨file', tokens, cache₃⟩ ⟨hcache₃, htokens, children, rfl, hpaths, hchildren⟩
      refine .pure ⟨hcache₃, ?_, child :: children, ?_, ?_, ?_⟩
      · exact congrArg₂ (· :: ·) htoken htokens
      · simp
      · simp [hpaths]
      · simpa [hresolved] using hchildren

/-- The tokens in the place of a directive. -/
theorem isPart_hashes (h : Hashes host) {before : Chars} (hends : EndsAt Ends before)
    (hne : paths ≠ []) :
    IsPart (before, ['\n'].intercalate (paths.map (getPathHash host))) ∧
      '$' ∉ ['\n'].intercalate (paths.map (getPathHash host)) := by
  have habsent : ∀ c, c ≠ '\n' → (∀ path, c ∉ getPathHash host path) →
      c ∉ ['\n'].intercalate (paths.map (getPathHash host)) := by
    intro c hc hnot hmem
    obtain rfl | ⟨token, htoken, hmem⟩ := mem_intercalate hmem
    · exact hc rfl
    · obtain ⟨path, -, rfl⟩ := List.mem_map.mp htoken
      exact hnot path hmem
  refine ⟨⟨hends, ?_, habsent '-' (by decide) fun path => (getPathHash_isToken h path).2.1⟩,
    habsent '$' (by decide) fun path => (getPathHash_isToken h path).2.2⟩
  obtain ⟨path, paths, rfl⟩ := List.exists_cons_of_ne_nil hne
  cases paths with
  | nil => exact ⟨'@' :: host.sha1 path, by simp [getPathHash]⟩
  | cons next paths => exact ⟨_, List.intercalate_cons_cons⟩

theorem resolvesIncludes_succ {fuel : ℕ} (hhashes : Hashes host)
    (hadds : AddsIncludes host exact reached safe fuel)
    (hloop : ResolvesIncludes host exact reached safe fuel) :
    ResolvesIncludes host exact reached safe (fuel + 1) := by
  intro file parts s atStart n cache active stack hscanned hs hn hparts hfirst hfound hadd hcache
    hactive
  rw [resolveIncludes, hscanned s hs]
  -- The loop replaces the first directive of the text, and goes on behind it.
  cases hexec : execInclude atStart s with
  | none =>
    rw [directives_of_none n hexec]
    refine .pure ⟨hcache, ?_, [], ?_, rfl, by simp⟩
    · rw [hscanned s hs, hexec]
      rfl
    · simp [slotsOfAll, Template.render]
  | some found =>
    obtain ⟨m, hm, hdirectives⟩ := directives_of_some hn hexec
    obtain ⟨-, hends, -, -, hrest⟩ := execInclude_eq hexec
    rw [hdirectives] at hfirst hfound hadd ⊢
    have hpaths : Yields (liftM (includePaths host stack file.dir found.reference) : Load _) safe
        fun paths => included host file.dir found.reference = paths ∧ (safe → paths ≠ []) := by
      refine .lift (fun paths h => ⟨included_eq h, fun hsafe => ?_⟩) fun e h hsafe => ?_
      · obtain ⟨paths', hpaths', hne⟩ := hfound hsafe found List.mem_cons_self
        rw [← included_eq h, included_eq hpaths']
        exact hne
      · obtain ⟨paths', hpaths', -⟩ := hfound hsafe found List.mem_cons_self
        rw [includePaths_eq_ok hpaths' stack] at h
        cases h
    refine hpaths.bind ?_
    rintro paths ⟨hincluded, hne⟩
    split
    · next hempty => exact .throw fun hsafe => hne hsafe hempty
    · next hne =>
      let others := directives m false found.rest
      have hslots : slotsOfAll host file.dir (found :: others.1) =
          slotsOf found.before paths ++ slotsOfAll host file.dir others.1 := by
        simp [slotsOfAll, hincluded]
      have hpathsAll : (slotsOfAll host file.dir (found :: others.1)).map (·.2) =
          paths ++ (slotsOfAll host file.dir others.1).map (·.2) := by
        rw [hslots, List.map_append, slotsOf_paths]
      rw [hpathsAll] at hadd
      have hadded := hadds file (found.prepend (substituted parts)) paths cache active stack hcache
        hactive
        { reached := fun p hp => hadd.reached p (List.mem_append_left _ hp)
          nodup := fun hsafe => (hadd.nodup hsafe).sublist (by simp)
          exist := fun hsafe p hp => hadd.exist hsafe p (List.mem_append_left _ hp)
          leaves := fun hsafe p hp => hadd.leaves hsafe p (List.mem_append_left _ hp) }
      refine hadded.bind ?_
      rintro ⟨file₁, tokens, cache₁⟩ ⟨hcache₁, htokens, children, rfl, hchildrenPaths, hchildren⟩
      obtain rfl : tokens = paths.map (getPathHash host) := htokens
      have htokens : ∀ token ∈ paths.map (getPathHash host), IsToken token := by
        rintro token hmem
        obtain ⟨path, -, rfl⟩ := List.mem_map.mp hmem
        exact (getPathHash_isToken hhashes path).1
      have htokensNe : paths.map (getPathHash host) ≠ [] := by simpa using hne
      obtain ⟨hpart, hdollar⟩ := isPart_hashes hhashes hends hne
      have hplace := hfirst [] found (by simp)
      -- The replacement by text finds the directive where it was matched, as it does not occur
      -- before.
      have hcontent := replace_directive hexec (fun part hpart => ⟨(hparts part hpart).ends,
        hplace.1 part hpart, (hparts part hpart).token, (hparts part hpart).no_dash⟩)
        (hplace.2 found (by simp)) hdollar
      have hscanned' : Scanned false (substituted
          (parts ++ [(found.before, ['\n'].intercalate (paths.map (getPathHash host)))])) := by
        have h := hscanned.step hs hexec htokensNe htokens
        simpa [substituted] using h
      have hrun := hloop { file with includes := file.includes ++ children }
        (parts ++ [(found.before, ['\n'].intercalate (paths.map (getPathHash host)))]) found.rest
        false m cache₁ active stack hscanned' (fun _ => hrest) hm ?_ ?_
        (fun hsafe found' hmem => hfound hsafe found' (List.mem_cons_of_mem _ hmem)) ?_
          hcache₁ hactive
      · -- What is rendered so far with the rest of the slots is the whole file with all of its
        -- slots.
        rw [← hcontent] at hrun
        refine hrun.mono ?_
        rintro ⟨file₂, cache₂⟩ ⟨hcache₂, hnone, children', rfl, hpaths', hchildren'⟩
        have hrender : substituted
            (parts ++ [(found.before, ['\n'].intercalate (paths.map (getPathHash host)))]) ++
              Template.render host
                { slots := slotsOfAll host file.dir others.1, last := others.2 } =
            substituted parts ++ Template.render host
              { slots := slotsOfAll host file.dir (found :: others.1), last := others.2 } := by
          rw [hslots, Template.render, Template.render, List.flatMap_append,
            render_slotsOf _ hne]
          simp [substituted]
        refine ⟨hcache₂, hnone, children ++ children', ?_, ?_, ?_⟩
        · rw [← List.append_assoc]
          exact congrArg (fun content => { file with
            content, includes := file.includes ++ children ++ children' }) hrender
        · rw [List.map_append, hchildrenPaths, hpathsAll]
          exact congrArg (paths ++ ·) hpaths'
        · intro child hmem
          exact (List.mem_append.mp hmem).elim (hchildren child) (hchildren' child)
      · intro part hmem
        obtain hmem | hmem := List.mem_append.mp hmem
        · exact hparts part hmem
        · rw [List.mem_singleton.mp hmem]
          exact hpart
      · intro front next hfronts
        have h := hfirst (found :: front) next (List.cons_prefix_cons.mpr ⟨rfl, hfronts⟩)
        refine ⟨fun part hmem => ?_, fun earlier hmem => h.2 earlier (List.mem_cons_of_mem _ hmem)⟩
        obtain hmem | hmem := List.mem_append.mp hmem
        · exact h.1 part hmem
        · rw [List.mem_singleton.mp hmem]
          exact h.2 found List.mem_cons_self
      · rw [List.map_append, hchildrenPaths]
        exact {
          reached := fun p hp => hadd.reached p (List.mem_append_right _ hp)
          nodup := fun hsafe => by simpa using hadd.nodup hsafe
          exist := fun hsafe p hp => hadd.exist hsafe p (List.mem_append_right _ hp)
          leaves := fun hsafe p hp => hadd.leaves hsafe p (List.mem_append_right _ hp) }

/-- The place of a directive is left as it is while a directive before it is replaced. -/
theorem replace_before {x z text tail before substitution : Chars}
    (hx : x = before ++ (text ++ tail))
    (hne : tail ≠ []) (hends : EndsAt Ends tail) :
    ∃ x', replace (x ++ z) text substitution = x' ++ z ∧ EndsAt Ends x' := by
  obtain ⟨front, back, hsplit, heq, hlength⟩ := splitFirst_of_mem text before (tail ++ z)
  have hback : ∃ mid, back = mid ++ (tail ++ z) := by
    rw [← List.append_assoc, ← List.append_assoc front] at heq
    obtain ⟨extra, hfront, htail⟩ | ⟨mid, -, hback⟩ := List.append_eq_append_iff.mp heq
    · have hnil : extra = [] := by
        have h := congrArg List.length hfront
        simp only [List.length_append] at h
        exact List.eq_nil_of_length_eq_zero (by omega)
      exact ⟨[], by rw [htail, hnil]; rfl⟩
    · exact ⟨mid, hback⟩
  obtain ⟨mid, rfl⟩ := hback
  have hx' : x ++ z = before ++ (text ++ (tail ++ z)) := by simp [hx]
  refine ⟨front ++ getSubstitution text front (mid ++ (tail ++ z)) substitution ++ mid ++ tail, ?_,
    hends.append fun h => absurd h hne⟩
  rw [hx', replace, hsplit]
  simp

theorem coversIncludes_succ {fuel : ℕ} (hadds : AddsIncludes host exact reached safe fuel)
    (hloop : CoversIncludes host exact reached safe fuel) :
    CoversIncludes host exact reached safe (fuel + 1) := by
  intro file content cache active stack hcache hactive hreached hsafe
  rw [resolveIncludes]
  cases hexec : execInclude true content with
  | none =>
    refine .pure ⟨hcache, hexec, rfl, rfl, rfl, ⟨[], by simp, by simp⟩, ?_⟩
    rintro x z found rfl hx hmatch
    obtain ⟨first, hfirst, -⟩ := execInclude_of_match hx (fun _ => rfl) hmatch
    rw [hexec] at hfirst
    cases hfirst
  | some first =>
    have hpaths : Yields (liftM (includePaths host stack file.dir first.reference) : Load _) safe
        fun paths => included host file.dir first.reference = paths :=
      .lift (fun paths h => included_eq h) fun e h => hsafe
    refine hpaths.bind ?_
    rintro paths rfl
    split
    · exact .throw hsafe
    · have hadded := hadds file first (included host file.dir first.reference) cache active stack
        hcache hactive
        { reached := fun p _ => hreached p
          nodup := fun h => absurd h hsafe
          exist := fun h => absurd h hsafe
          leaves := fun h => absurd h hsafe }
      refine hadded.bind ?_
      rintro ⟨file₁, tokens, cache₁⟩ ⟨hcache₁, -, children, rfl, hchildrenPaths, hchildren⟩
      refine (hloop { file with includes := file.includes ++ children } _ cache₁ active
        stack hcache₁
        hactive hreached hsafe).mono ?_
      rintro ⟨file₂, cache₂⟩
        ⟨hcache₂, hnone, hdir, hpath, htoken, ⟨children', heq, hchildren'⟩, hcovers⟩
      refine ⟨hcache₂, hnone, hdir, hpath, htoken, ⟨children ++ children', ?_, ?_⟩, ?_⟩
      · rw [heq, List.append_assoc]
      · exact fun child h => (List.mem_append.mp h).elim (hchildren child) (hchildren' child)
      · -- The directive is the one replaced, or it stands behind it and is still there in the new
        -- text.
        rintro x z found rfl hx hmatch
        obtain ⟨first', hfirst', hcases⟩ := execInclude_of_match hx (fun _ => rfl) hmatch
        rw [hexec] at hfirst'
        obtain rfl := Option.some.inj hfirst'
        obtain hreference | ⟨tail, hne, hends, htail⟩ := hcases
        · rw [← hreference, ← hchildrenPaths, heq]
          simp
        · obtain ⟨x', hx', hends'⟩ := replace_before (z := z) htail hne hends
          exact hcovers x' z found hx' hends' hmatch

/-- What the loader does for each file that is reached, for any fuel. -/
theorem resolves (hdisk : DiskOk host exact reached safe) (fuel : ℕ) :
    AddsIncludes host exact reached safe fuel ∧ ResolvesIncludes host exact reached safe fuel ∧
      CoversIncludes host exact reached safe fuel ∧ ResolvesFile host exact reached safe fuel := by
  induction fuel with
  | zero =>
    refine ⟨fun file found paths cache active stack _ _ _ => ?_,
      fun file parts s atStart n cache active stack _ _ _ _ _ _ _ _ _ => ?_,
      fun file content cache active stack _ _ _ _ => ?_,
      fun file cache isInclude active stack _ _ _ _ _ _ _ => ?_⟩ <;> exact .outOfFuel
  | succ fuel ih =>
    obtain ⟨hadds, hexactLoop, hloop, hfile⟩ := ih
    exact ⟨addsIncludes_succ hdisk hfile hadds,
      resolvesIncludes_succ hdisk.hashes hadds hexactLoop, coversIncludes_succ hadds hloop,
      resolvesFile_succ hdisk hexactLoop hloop⟩

/-- What has been resolved has no cycle. -/
theorem Resolved.acc (h : Resolved host exact file) :
    Acc (fun q p => Inclusion.Includes (diskSlots host) p q) file.path := by
  induction h with
  | intro content read dir token scanned covers content_eq paths includes ih =>
    refine .intro _ fun q hq => ?_
    obtain ⟨child, hchild, rfl⟩ := List.mem_map.mp (covers hq)
    exact ih child hchild

end BullMQ
