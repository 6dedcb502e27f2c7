import BullMQ.Placement.Basic

/-!
# Reading jobs

`getJobs` reads ids and hashes of the containers of a queue. It is not a mere reader: where the wait
or the paused list ends in a legacy marker, the marker is popped first. `getDependencies` reads the
children of a job page by page.
-/

namespace BullMQ

open Redis

/-- `LRANGE` and `ZRANGE`: negative indexes count from the end. -/
def lrange {α : Type} (l : List α) (start stop : ℤ) : List α :=
  let start := if start < 0 then max 0 (start + l.length) else start
  let stop := if stop < 0 then stop + l.length else stop
  if stop < start then [] else (l.drop start.toNat).take (stop - start + 1).toNat

/-- `fetchIds`: a slice of the ids of a container. Ascending slices of a list are counted from its
end, and cut off by its length where that is known. -/
def fetchIds (p : String) (asc : Bool) (c : Container) (sliceStart sliceEnd : ℤ)
    (listLength : Option ℕ) (s : Store) : List String :=
  match c with
  | .inl l =>
    if asc then
      let modifiedRangeStart := if sliceStart = -1 then 0 else -(sliceStart + 1)
      let modifiedRangeEnd := if sliceEnd = -1 then 0 else -(sliceEnd + 1)
      if listLength.any fun n => 0 ≤ sliceStart ∧ 0 ≤ sliceEnd ∧ n ≤ sliceStart then []
      else (lrange (s (.list l) p) modifiedRangeEnd modifiedRangeStart).reverse
    else lrange (s (.list l) p) sliceStart sliceEnd
  | .inr z =>
    if asc then lrange (s (.zset z) p).members sliceStart sliceEnd
    else lrange (s (.zset z) p).members.reverse sliceStart sliceEnd

/-- `appendJob`: the hash of an id, if there is one. -/
def readJob (p : String) (s : Store) (jobId : String) : Option (String × Job) :=
  (s .hash (p ++ jobId)).map fun job => (jobId, job)

/-- `cleanupDeprecatedMarker`: pop a legacy marker, unless it is all the list holds. Returns the
length of the list without it. -/
def cleanupDeprecatedMarker (p : String) (c : Container) (s : Store) : Option ℕ × Store :=
  match c with
  | .inl .active | .inr _ => (none, s)
  | .inl l =>
    match rpop (s (.list l) p) with
    | some (marker, rest) =>
      if isLegacyMarker marker then
        if 1 < (s (.list l) p).length then (some rest.length, s.set (.list l) p rest)
        else (some 0, s)
      else (none, s)
    | none => (none, s)

/-- The loop of `collectJobs` over a bounded range: read on until enough jobs are found, or the
iterations are used up. -/
def backfill (p : String) (asc : Bool) (c : Container) (needed : ℕ) (listLength : Option ℕ)
    (s : Store) : ℕ → ℤ → List (String × Job) → List (String × Job)
  | 0, _, entries => entries
  | iterations + 1, cursor, entries =>
    if entries.length < needed then
      let ids := fetchIds p asc c cursor (cursor + needed - 1) listLength s
      if ids = [] then entries
      else
        backfill p asc c needed listLength s iterations (cursor + ids.length)
          ((entries ++ ids.filterMap (readJob p s)).take needed)
    else entries

/-- `collectJobs`. -/
def collectJobs (p : String) (rangeStart rangeEnd : ℤ) (asc : Bool) (maxIterations : ℕ)
    (c : Container) (s : Store) : List (String × Job) × Store :=
  let (cleanedListLength, s) := cleanupDeprecatedMarker p c s
  let listLength :=
    match c with
    | .inl l =>
      if asc ∧ 0 ≤ rangeStart ∧ 0 ≤ rangeEnd then
        some (cleanedListLength.getD (s (.list l) p).length)
      else none
    | .inr _ => none
  if rangeStart < 0 ∨ rangeEnd < 0 then
    ((fetchIds p asc c rangeStart rangeEnd listLength s).filterMap (readJob p s), s)
  else
    (backfill p asc c (rangeEnd - rangeStart + 1).toNat listLength s maxIterations rangeStart [], s)

/-- `getJobs`. -/
def Script.getJobs (p : String) (rangeStart rangeEnd : ℤ) (asc : Bool) (maxIterations : ℕ) :
    List Container → Store → List (List (String × Job)) × Store
  | [], s => ([], s)
  | c :: types, s =>
    let (entries, s) := collectJobs p rangeStart rangeEnd asc maxIterations c s
    let (results, s) := getJobs p rangeStart rangeEnd asc maxIterations types s
    (entries :: results, s)

/-! ### Children that failed -/

/-- The options of `getDependencies` for one of the sets of children, with their defaults. -/
structure PageOpts where
  cursor : ℤ := 0
  count : ℤ := 20
  deriving DecidableEq, Repr

/-- The `failed` part of `getDependencies`: a page of the keys of failed children and the cursor of
the next page. A cursor of zero is no cursor, and then both are left out. -/
def failedDependencies (p jobId : String) (failedOpts : PageOpts) (s : Store) :
    Option (List String × ℤ) :=
  let failedCursor := failedOpts.cursor + failedOpts.count
  let failed :=
    lrange (s .unsuccessful (p ++ jobId)).members failedOpts.cursor (failedOpts.count - 1)
  if failedCursor = 0 then none else some (failed, failedCursor)

/-- The pages of so many calls, each with the cursor that the one before returned. -/
def failedPages (p jobId : String) (count : ℤ) (s : Store) : ℕ → ℤ → List (List String)
  | 0, _ => []
  | n + 1, cursor =>
    match failedDependencies p jobId ⟨cursor, count⟩ s with
    | none => []
    | some (page, nextFailedCursor) => page :: failedPages p jobId count s n nextFailedCursor

end BullMQ
