import BullMQ.Properties.Resolution
import Mathlib.Data.Finset.Card

/-!
# The loader ends

With finitely many files on the disk the loader returns: the files on the stack are different ones,
and so are the files that one file includes (`resolveDependencies_halts`).
-/

namespace BullMQ

variable {host : Host} {α β : Type} {run body : ℕ → Load α} {post : α → Prop}

/-- With enough fuel the loader returns one result, and something holds of it if it is no error. -/
def Halts (run : ℕ → Load α) (post : α → Prop) : Prop :=
  ∃ n result, (∀ fuel, n ≤ fuel → run fuel = some result) ∧ ∀ a, result = .ok a → post a

theorem Halts.pure {a : α} (h : post a) : Halts (fun _ => (Pure.pure a : Load α)) post :=
  ⟨0, .ok a, fun _ _ => rfl, fun b hb => by
    obtain rfl := Except.ok.inj hb
    exact h⟩

theorem Halts.throw (e : ScriptLoaderError) :
    Halts (fun _ => (MonadExcept.throw e : Load α)) post :=
  ⟨0, .error e, fun _ _ => rfl, fun b hb => by cases hb⟩

theorem Halts.succ (hbody : Halts body post) (h : ∀ n, run (n + 1) = body n) : Halts run post := by
  obtain ⟨n, result, hresult, hpost⟩ := hbody
  refine ⟨n + 1, result, fun fuel hfuel => ?_, hpost⟩
  obtain ⟨m, rfl⟩ : ∃ m, fuel = m + 1 := ⟨fuel - 1, by omega⟩
  rw [h]
  exact hresult m (by omega)

theorem Halts.bind {next : ℕ → α → Load β} {goal : β → Prop} (h : Halts run post)
    (hnext : ∀ a, post a → Halts (fun n => next n a) goal) :
    Halts (fun n => run n >>= next n) goal := by
  obtain ⟨n, result, hresult, hpost⟩ := h
  cases result with
  | error e =>
    refine ⟨n, .error e, fun fuel hfuel => ?_, fun b hb => by cases hb⟩
    exact congrArg (fun load : Load α => load >>= next fuel) (hresult fuel hfuel)
  | ok a =>
    obtain ⟨m, result', hresult', hgoal⟩ := hnext a (hpost a rfl)
    refine ⟨max n m, result', fun fuel hfuel => ?_, hgoal⟩
    have hbind := congrArg (fun load : Load α => load >>= next fuel)
      (hresult fuel ((le_max_left n m).trans hfuel))
    exact hbind.trans (hresult' fuel ((le_max_right n m).trans hfuel))

/-- The entries of the cache are files on the disk. -/
def CacheIn (files : Finset Chars) (cache : ScriptCache) : Prop :=
  ∀ path file, cache path = some file → file.path = path ∧ path ∈ files

variable {files : Finset Chars} {stack : List Chars}

/-- The loader returns for each file with this stack. -/
def HaltsOn (host : Host) (files : Finset Chars) (stack : List Chars) : Prop :=
  ∀ file cache, file.path ∈ files → CacheIn files cache →
    Halts (fun n => resolveDependencies host n file cache true stack) fun result =>
      result.1.path = file.path ∧ CacheIn files result.2

theorem CacheIn.update {cache : ScriptCache} {file : ScriptMetadata} {path : Chars}
    (h : CacheIn files cache) (hpath : file.path = path) (hmem : path ∈ files) :
    CacheIn files (Function.update cache path (some file)) := by
  intro q file' hq
  by_cases heq : q = path
  · subst heq
    rw [Function.update_self] at hq
    obtain rfl := Option.some.inj hq
    exact ⟨hpath, hmem⟩
  · rw [Function.update_of_ne heq] at hq
    exact h q file' hq

theorem readInclude_halts (hfiles : ∀ path, (host.readFile path).isSome = true → path ∈ files)
    {cache : ScriptCache} (hcache : CacheIn files cache) (file : ScriptMetadata)
    (found : IncludeMatch) (path : Chars) :
    Halts (fun _ => readInclude host file found path cache stack) fun result =>
      result.1.path = path ∧ path ∈ files ∧ CacheIn files result.2 := by
  unfold readInclude
  cases hentry : cache path with
  | some child => exact .pure ⟨(hcache path child hentry).1, (hcache path child hentry).2, hcache⟩
  | none =>
    cases hread : host.readFile path with
    | none => exact .throw _
    | some content =>
      have hpath := hfiles path (by simp [hread])
      exact .pure ⟨rfl, hpath, hcache.update rfl hpath⟩

/-- The loop over the files of a directive. It ends, since it goes over a list. -/
theorem addIncludes_halts (hfiles : ∀ path, (host.readFile path).isSome = true → path ∈ files)
    (hstack : HaltsOn host files stack) (found : IncludeMatch) (paths : List Chars)
    (file : ScriptMetadata) (cache : ScriptCache) (hcache : CacheIn files cache) :
    Halts (fun n => addIncludes host n file found paths cache stack) fun result =>
      (∃ children, result.1 = { file with includes := file.includes ++ children } ∧
        children.map (·.path) = paths) ∧
      (∀ path ∈ paths, path ∈ files ∧ path ∉ file.includes.map (·.path)) ∧
      CacheIn files result.2.2 := by
  induction paths generalizing file cache with
  | nil =>
    have hpure : Halts (fun _ => (pure (file, ([] : List Chars), cache) : Load _)) fun result =>
        (∃ children, result.1 = { file with includes := file.includes ++ children } ∧
          children.map (·.path) = []) ∧
        (∀ path ∈ [], path ∈ files ∧ path ∉ file.includes.map (·.path)) ∧
        CacheIn files result.2.2 :=
      .pure ⟨⟨[], by cases file; simp, rfl⟩, by simp, hcache⟩
    exact hpure.succ fun n => by rw [addIncludes]
  | cons path paths ih =>
    -- A path that is included already is an error, so every call adds a new one.
    by_cases hmem : path ∈ file.includes.map (·.path)
    · exact (Halts.throw _).succ fun n => by rw [addIncludes, if_pos hmem]
    · let last (n : ℕ) (includeMetadata : ScriptMetadata) (child : ScriptMetadata × ScriptCache) :
          Load (ScriptMetadata × List Chars × ScriptCache) :=
        addIncludes host n { file with includes := file.includes ++ [child.1] } found paths child.2
          stack >>= fun rest => pure (rest.1, includeMetadata.token :: rest.2.1, rest.2.2)
      let next (n : ℕ) (child : ScriptMetadata × ScriptCache) :=
        resolveDependencies host n child.1 child.2 true stack >>= last n child.1
      have hnext : ∀ n, addIncludes host (n + 1) file found (path :: paths) cache stack =
          readInclude host file found path cache stack >>= next n := by
        intro n
        rw [addIncludes, if_neg hmem]
      refine Halts.succ (Halts.bind (readInclude_halts hfiles hcache file found path) ?_) hnext
      rintro ⟨includeMetadata, cache₁⟩ ⟨rfl, hpath, hcache₁⟩
      refine Halts.bind (hstack includeMetadata cache₁ hpath hcache₁) ?_
      rintro ⟨child, cache₂⟩ ⟨hchild, hcache₂⟩
      refine Halts.bind (ih { file with includes := file.includes ++ [child] } cache₂ hcache₂) ?_
      rintro ⟨file', tokens, cache₃⟩ ⟨⟨children, rfl, rfl⟩, hpaths, hcache₃⟩
      refine .pure ⟨⟨child :: children, ?_, ?_⟩, ?_, hcache₃⟩
      · simp
      · exact congrArg (· :: _) hchild
      · intro q hq
        obtain rfl | hq := List.mem_cons.mp hq
        · exact ⟨hpath, hmem⟩
        · obtain ⟨hfilesq, hnot⟩ := hpaths q hq
          exact ⟨hfilesq, fun hmem => hnot (by simp [hmem])⟩

theorem Halts.lift (result : Except ScriptLoaderError α) :
    Halts (fun _ => (liftM result : Load α)) fun _ => True :=
  ⟨0, result, fun _ _ => rfl, fun _ _ => trivial⟩

theorem card_sdiff_append_lt {xs ys : List Chars} {y : Chars} (hy : y ∈ ys) (hmem : y ∈ files)
    (hnot : y ∉ xs) : (files \ (xs ++ ys).toFinset).card < (files \ xs.toFinset).card := by
  refine Finset.card_lt_card ⟨fun a ha => ?_, fun hsub => ?_⟩
  · simp only [Finset.mem_sdiff, List.mem_toFinset, List.mem_append, not_or] at ha ⊢
    exact ⟨ha.1, ha.2.1⟩
  · have hy' := hsub (Finset.mem_sdiff.mpr ⟨hmem, by simpa using hnot⟩)
    simp [hy] at hy'

/-- The loop over the directives. It ends, since each of them includes a file that the file has not
included before. -/
theorem resolveIncludes_halts (hfiles : ∀ path, (host.readFile path).isSome = true → path ∈ files)
    (hstack : HaltsOn host files stack) (file : ScriptMetadata) (content : Chars)
    (cache : ScriptCache) (hcache : CacheIn files cache) :
    Halts (fun n => resolveIncludes host n file content cache stack) fun result =>
      result.1.path = file.path ∧ CacheIn files result.2 := by
  -- By induction on the number of files that are not included yet.
  induction hk : (files \ (file.includes.map (·.path)).toFinset).card using Nat.strong_induction_on
    generalizing file content cache with
  | _ k ih =>
  cases hfound : execInclude true content with
  | none =>
    have hpure : Halts (fun _ => (pure ({ file with content }, cache) : Load _)) fun result =>
        result.1.path = file.path ∧ CacheIn files result.2 := .pure ⟨rfl, hcache⟩
    exact hpure.succ fun n => by rw [resolveIncludes, hfound]
  | some found =>
    let last (n : ℕ) (result : ScriptMetadata × List Chars × ScriptCache) :
        Load (ScriptMetadata × ScriptCache) :=
      resolveIncludes host n result.1
        (replace content found.text (['\n'].intercalate result.2.1)) result.2.2 stack
    let next (n : ℕ) (paths : List Chars) : Load (ScriptMetadata × ScriptCache) :=
      if paths = [] then throw (raiseError (includeNotFound found.reference) file stack found.text)
      else addIncludes host n file found paths cache stack >>= last n
    have hnext : ∀ n, resolveIncludes host (n + 1) file content cache stack =
        liftM (includePaths host stack file.dir found.reference) >>= next n := by
      intro n
      rw [resolveIncludes, hfound]
    refine Halts.succ (Halts.bind (Halts.lift _) fun paths _ => ?_) hnext
    by_cases hne : paths = []
    · simp only [next, if_pos hne]
      exact .throw _
    · simp only [next, if_neg hne]
      refine Halts.bind (addIncludes_halts hfiles hstack found paths file cache hcache) ?_
      rintro ⟨file', tokens, cache'⟩ ⟨⟨children, rfl, rfl⟩, hpaths, hcache'⟩
      refine ih _ ?_ { file with includes := file.includes ++ children } _ cache' hcache' rfl
      obtain ⟨path, tail, hcons⟩ := List.exists_cons_of_ne_nil hne
      have hpath : path ∈ children.map (·.path) := by simp [hcons]
      rw [← hk, List.map_append]
      exact card_sdiff_append_lt hpath (hpaths path hpath).1 (hpaths path hpath).2

/-- The loader returns for a file of the disk: the files on the stack are different ones. -/
theorem haltsOn (hfiles : ∀ path, (host.readFile path).isSome = true → path ∈ files)
    (stack : List Chars) : HaltsOn host files stack := by
  induction hk : (files \ stack.toFinset).card using Nat.strong_induction_on generalizing stack with
  | _ k ih =>
  intro file cache hpath hcache
  by_cases hmem : file.path ∈ stack
  · exact (Halts.throw _).succ fun n => by rw [resolveDependencies, if_pos hmem]
  · have hstack : HaltsOn host files (stack ++ [file.path]) := by
      refine ih _ ?_ _ rfl
      rw [← hk]
      exact card_sdiff_append_lt List.mem_cons_self hpath hmem
    let last (_ : ℕ) (result : ScriptMetadata × ScriptCache) :
      Load (ScriptMetadata × ScriptCache) :=
      pure (result.1, Function.update result.2 result.1.path (some result.1))
    have hlast : ∀ n, resolveDependencies host (n + 1) file cache true stack =
        resolveIncludes host n file file.content cache (stack ++ [file.path]) >>= last n := by
      intro n
      rw [resolveDependencies, if_neg hmem]
      rfl
    refine Halts.succ (Halts.bind
      (resolveIncludes_halts hfiles hstack file file.content cache hcache) ?_) hlast
    rintro ⟨file', cache'⟩ ⟨hpath', hcache'⟩
    exact .pure ⟨hpath', hcache'.update rfl (by rw [hpath']; exact hpath)⟩

/-- The loader returns for a script. -/
theorem parseScript_halts (hfiles : ∀ path, (host.readFile path).isSome = true → path ∈ files)
    (dir name content : Chars) {cache : ScriptCache} (hcache : CacheIn files cache) :
    Halts (fun n => parseScript host n dir name content cache) fun _ => True := by
  let file : ScriptMetadata :=
    { dir, path := name, content, token := getPathHash host name, includes := [] }
  let last (_ : ℕ) (result : ScriptMetadata × ScriptCache) : Load (ScriptMetadata × ScriptCache) :=
    pure result
  have hlast : ∀ n, parseScript host (n + 1) dir name content cache =
      resolveIncludes host n file content cache [name] >>= last n := by
    intro n
    rw [parseScript, resolveDependencies, if_neg List.not_mem_nil]
    rfl
  refine Halts.succ (Halts.bind
    (resolveIncludes_halts hfiles (haltsOn hfiles [name]) file content cache hcache) ?_) hlast
  exact fun _ _ => .pure trivial

end BullMQ
