import BullMQ.Model.Paginate

/-!
# Pages of sets and hashes

However a scan cuts a collection into chunks, and wherever a page lies in it, the loop of `paginate`
returns the elements at the positions of the page (`paginate_page`). A call of `findPage` goes on by
some chunks of the scan, or completes the page (`FindsPage`); between two calls the elements
collected so far are those of the page in the chunks read so far.
-/

namespace BullMQ

open Redis

section Elements

variable {members : List Item}

/-- The command that scans elements of this kind. -/
def Item.command : Item → ScanCommand
  | .member _ => .sscan
  | .field _ _ => .hscan

/-- A reply is read back as the elements that it was made of. -/
theorem elements_raw {command : ScanCommand} (h : ∀ m ∈ members, m.command = command) :
    command.elements (members.flatMap Item.raw) = members := by
  induction members with
  | nil => cases command <;> rfl
  | cons m members ih =>
    have hm : m.command = command := h m List.mem_cons_self
    have hrest := ih fun x hx => h x (List.mem_cons_of_mem _ hx)
    cases m <;> subst hm <;>
      simpa [List.flatMap_cons, Item.raw, Item.command, ScanCommand.elements] using hrest

theorem slice_cons_of_pos {α : Type} {a b : ℕ} (ha : 0 < a) (m : α) (l : List α) :
    slice a b (m :: l) = slice (a - 1) (b - 1) l := by
  obtain ⟨a, rfl⟩ : ∃ k, a = k + 1 := ⟨a - 1, by omega⟩
  cases b with
  | zero => simp [slice]
  | succ b => simp [slice]

end Elements

section FindPage

variable {ρ : Type} {hgetall : String → ρ} {fetchJobs : Bool} {a b : ℕ}
  {scan : String → String × List String} {command : ScanCommand}

/-- The jobs that are fetched along with the items. -/
def jobsOf (hgetall : String → ρ) (fetchJobs : Bool) (items : List Item) : List ρ :=
  if fetchJobs then items.map fun m => hgetall m.id else []

theorem jobsOf_append (items items' : List Item) :
    jobsOf hgetall fetchJobs (items ++ items') =
      jobsOf hgetall fetchJobs items ++ jobsOf hgetall fetchJobs items' := by
  cases fetchJobs <;> simp [jobsOf]

/-- The loop over a chunk adds the elements of the page, and stops where the page ends within it. -/
theorem addElements_eq {members : List Item} {r : Page ρ} (hoffset : r.offset ≤ b) :
    addElements hgetall fetchJobs a b members r =
      ({ r with
          offset := min (r.offset + members.length) b
          items := r.items ++ slice (a - r.offset) (b - r.offset) members
          jobs := r.jobs ++
            jobsOf hgetall fetchJobs (slice (a - r.offset) (b - r.offset) members) },
        decide (b < r.offset + members.length)) := by
  induction members generalizing r with
  | nil =>
    have hmin : min r.offset b = r.offset := by omega
    have hlt : ¬ b < r.offset := by omega
    simp [addElements, jobsOf, hmin, hlt]
  | cons m members ih =>
    -- The element is behind the page, in it, or in front of it.
    by_cases hend : b ≤ r.offset
    · have hmin : min (r.offset + (members.length + 1)) b = r.offset := by omega
      have hlt : b < r.offset + (members.length + 1) := by omega
      have hb : b - r.offset = 0 := by omega
      simp [addElements, hend, hmin, hlt, hb, slice, jobsOf]
    · have hnext : r.offset + 1 ≤ b := by omega
      have hb : b - r.offset = b - (r.offset + 1) + 1 := by omega
      have hlen : r.offset + 1 + members.length = r.offset + (m :: members).length := by
        rw [List.length_cons]
        omega
      by_cases hstart : a ≤ r.offset
      · have ha : a - r.offset = 0 := by omega
        have ha' : a - (r.offset + 1) = 0 := by omega
        have hslice : slice (a - r.offset) (b - r.offset) (m :: members) =
            m :: slice (a - (r.offset + 1)) (b - (r.offset + 1)) members := by
          rw [ha, ha', hb]
          rfl
        rw [addElements, if_neg (by omega), if_pos (by omega), ih hnext]
        simp only [hslice, hlen]
        cases fetchJobs <;> simp [jobsOf]
      · have hslice : slice (a - r.offset) (b - r.offset) (m :: members) =
            slice (a - (r.offset + 1)) (b - (r.offset + 1)) members := by
          rw [slice_cons_of_pos (by omega), Nat.sub_sub, Nat.sub_sub]
        rw [addElements, if_neg (by omega), if_neg (by omega), ih hnext]
        simp only [hslice, hlen]

/-- The reply to a scan command that returns the given chunks. -/
def replies (chunks : List (List Item)) : List (List String) :=
  chunks.map fun chunk => chunk.flatMap Item.raw

/-- What a call has done from `r` to `r'` where the given chunks are still to come: either the page
is complete, or some chunks have been read. -/
inductive FindsPage (hgetall : String → ρ) (fetchJobs : Bool) (a b : ℕ)
    (scan : String → String × List String) (chunks : List (List Item)) (r r' : Page ρ) : Prop where
  | done
      (hitems : r'.items = r.items ++ slice (a - r.offset) (b - r.offset) chunks.flatten)
      (hjobs : r'.jobs = r.jobs ++
        jobsOf hgetall fetchJobs (slice (a - r.offset) (b - r.offset) chunks.flatten))
      (hend : r'.cursor = "0" ∨ b ≤ r.offset + chunks.flatten.length)
  | more (now later : List (List Item)) (hchunks : chunks = now ++ later) (hnow : now ≠ [])
      (hlater : Enumerates scan r'.cursor (replies later)) (hcursor : r'.cursor ≠ "0")
      (hoffset : r'.offset = r.offset + now.flatten.length) (hle : r'.offset ≤ b)
      (hitems : r'.items = r.items ++ slice (a - r.offset) (b - r.offset) now.flatten)
      (hjobs : r'.jobs = r.jobs ++
        jobsOf hgetall fetchJobs (slice (a - r.offset) (b - r.offset) now.flatten))

/-- After one chunk the call goes on as from there. -/
theorem FindsPage.cons {chunk : List Item} {chunks : List (List Item)} {r r₁ r' : Page ρ}
    (hoffset : r₁.offset = r.offset + chunk.length)
    (hitems : r₁.items = r.items ++ slice (a - r.offset) (b - r.offset) chunk)
    (hjobs : r₁.jobs = r.jobs ++
      jobsOf hgetall fetchJobs (slice (a - r.offset) (b - r.offset) chunk))
    (h : FindsPage hgetall fetchJobs a b scan chunks r₁ r') :
    FindsPage hgetall fetchJobs a b scan (chunk :: chunks) r r' := by
  have hslice : ∀ l : List Item, slice (a - r.offset) (b - r.offset) (chunk ++ l) =
      slice (a - r.offset) (b - r.offset) chunk ++ slice (a - r₁.offset) (b - r₁.offset) l := by
    intro l
    rw [slice_append, hoffset, Nat.sub_sub, Nat.sub_sub]
  cases h with
  | done hitems' hjobs' hend =>
    refine .done ?_ ?_ (hend.imp_right fun h => ?_)
    · rw [hitems', hitems, List.flatten_cons, hslice, List.append_assoc]
    · rw [hjobs', hjobs, List.flatten_cons, hslice, jobsOf_append, List.append_assoc]
    · rw [List.flatten_cons, List.length_append]
      omega
  | more now later hchunks hnow hlater hcursor hoffset' hle hitems' hjobs' =>
    refine .more (chunk :: now) later (by rw [hchunks, List.cons_append]) (List.cons_ne_nil _ _)
      hlater hcursor ?_ hle ?_ ?_
    · rw [hoffset', hoffset, List.flatten_cons, List.length_append, Nat.add_assoc]
    · rw [hitems', hitems, List.flatten_cons, hslice, List.append_assoc]
    · rw [hjobs', hjobs, List.flatten_cons, hslice, jobsOf_append, List.append_assoc]

/-- A call that ends after one chunk. -/
theorem FindsPage.single {chunk : List Item} {chunks : List (List Item)} {r r₁ : Page ρ}
    (hoffset : r₁.offset = r.offset + chunk.length) (hle : r₁.offset ≤ b)
    (hitems : r₁.items = r.items ++ slice (a - r.offset) (b - r.offset) chunk)
    (hjobs : r₁.jobs = r.jobs ++
      jobsOf hgetall fetchJobs (slice (a - r.offset) (b - r.offset) chunk))
    (hrest : chunks = [] ∧ r₁.cursor = "0" ∨
      Enumerates scan r₁.cursor (replies chunks) ∧ r₁.cursor ≠ "0") :
    FindsPage hgetall fetchJobs a b scan (chunk :: chunks) r r₁ := by
  rcases hrest with ⟨rfl, hcursor⟩ | ⟨hlater, hcursor⟩
  · exact .done (by simpa using hitems) (by simpa using hjobs) (.inl hcursor)
  · exact .more [chunk] chunks rfl (List.cons_ne_nil _ _) hlater hcursor
      (by simpa using hoffset) hle
      (by simpa using hitems) (by simpa using hjobs)

/-- A call that meets the end of the page within a chunk. -/
theorem FindsPage.full {chunk : List Item} {chunks : List (List Item)} {r r₁ : Page ρ}
    (hfull : b < r.offset + chunk.length)
    (hitems : r₁.items = r.items ++ slice (a - r.offset) (b - r.offset) chunk)
    (hjobs : r₁.jobs = r.jobs ++
      jobsOf hgetall fetchJobs (slice (a - r.offset) (b - r.offset) chunk)) :
    FindsPage hgetall fetchJobs a b scan (chunk :: chunks) r r₁ := by
  have hslice : slice (a - r.offset) (b - r.offset) (chunk :: chunks).flatten =
      slice (a - r.offset) (b - r.offset) chunk := by
    rw [List.flatten_cons, slice_append_of_le (by omega)]
  refine .done (by rw [hslice, hitems]) (by rw [hslice, hjobs]) (.inr ?_)
  rw [List.flatten_cons, List.length_append]
  omega

/-- What one reply of a scan that is under way looks like. -/
theorem reply_of_enumerates {cursor : String} {chunks : List (List Item)}
    (h : Enumerates scan cursor (replies chunks)) :
    ∃ cursor' chunk later, chunks = chunk :: later ∧
      scan cursor = (cursor', chunk.flatMap Item.raw) ∧
      (later = [] ∧ cursor' = "0" ∨ Enumerates scan cursor' (replies later) ∧ cursor' ≠ "0") := by
  cases chunks with
  | nil => exact absurd rfl h.ne_nil
  | cons chunk later =>
    refine ⟨(scan cursor).1, chunk, later, rfl, ?_⟩
    rw [replies, List.map_cons] at h
    generalize hlater : later.map (fun chunk => chunk.flatMap Item.raw) = rest at h
    generalize hreply : chunk.flatMap Item.raw = reply at h
    cases h with
    | last hscan =>
      rw [hscan]
      exact ⟨rfl, .inl ⟨List.map_eq_nil_iff.mp hlater, rfl⟩⟩
    | next hscan hcursor hrest =>
      rw [hscan]
      refine ⟨rfl, .inr ⟨?_, hcursor⟩⟩
      rw [replies, hlater]
      exact hrest

variable (hgetall fetchJobs) in
/-- One iteration of `findPage`: it reads a chunk to its end, or meets the end of the page in it. -/
theorem findPageStep_finds {chunk : List Item} {r : Page ρ} {cursor : String}
    (hscan : scan r.cursor = (cursor, chunk.flatMap Item.raw))
    (hcommand : ∀ m ∈ chunk, m.command = command) (hoffset : r.offset ≤ b)
    (hbound : a ≤ b ∨ r.offset + chunk.length ≤ b) :
    ∃ r₁ returned, findPageStep hgetall fetchJobs a b scan command r = (r₁, returned) ∧
      r₁.items = r.items ++ slice (a - r.offset) (b - r.offset) chunk ∧
      r₁.jobs = r.jobs ++ jobsOf hgetall fetchJobs (slice (a - r.offset) (b - r.offset) chunk) ∧
      r₁.cursor = cursor ∧
      (r₁.offset = r.offset + chunk.length ∧ r₁.offset ≤ b ∨
        returned = true ∧ b < r.offset + chunk.length) := by
  have hmembers : command.elements (chunk.flatMap Item.raw) = chunk := elements_raw hcommand
  unfold findPageStep
  simp only [hscan, hmembers]
  by_cases hnil : chunk = []
  · rw [if_pos hnil]
    exact ⟨_, _, rfl, by simp [hnil], by simp [hnil, jobsOf], rfl,
      .inl (by simpa [hnil] using hoffset)⟩
  rw [if_neg hnil]
  -- A chunk that ends in front of the page is only counted.
  by_cases hbefore : r.offset + chunk.length < a
  · have hlt : (r.offset + chunk.length : ℤ) < a := by omega
    have hslice : slice (a - r.offset) (b - r.offset) chunk = [] := slice_of_length_le (by omega)
    rw [if_pos hlt]
    refine ⟨_, _, rfl, by simp [hslice], by simp [hslice, jobsOf], rfl, .inl ⟨rfl, ?_⟩⟩
    exact hbound.elim (fun h => Nat.le_of_lt (Nat.lt_of_lt_of_le hbefore h)) id
  · have hge : ¬ (r.offset + chunk.length : ℤ) < a := by omega
    have hle : ¬ (b : ℤ) < r.offset := by omega
    rw [if_neg hge, if_neg hle, addElements_eq (by exact hoffset)]
    refine ⟨_, _, rfl, rfl, rfl, rfl, ?_⟩
    by_cases hfull : b < r.offset + chunk.length
    · exact .inr ⟨decide_eq_true hfull, hfull⟩
    · have hmin : min (r.offset + chunk.length) b = r.offset + chunk.length := by omega
      exact .inl ⟨hmin, Nat.min_le_right _ _⟩

/-- A call of `findPage` completes the page, or reads on by some chunks. -/
theorem findPage_finds (iterations : ℕ) {chunks : List (List Item)} {r : Page ρ}
    (hoffset : r.offset ≤ b) (hcommand : ∀ chunk ∈ chunks, ∀ m ∈ chunk, m.command = command)
    (hbound : a ≤ b ∨ r.offset + chunks.flatten.length ≤ b)
    (h : Enumerates scan r.cursor (replies chunks)) :
    FindsPage hgetall fetchJobs a b scan chunks r
      (findPage hgetall fetchJobs a b scan command iterations r) := by
  induction iterations generalizing chunks r with
  | zero =>
    obtain ⟨cursor, chunk, later, rfl, hscan, hrest⟩ := reply_of_enumerates h
    rw [List.flatten_cons, List.length_append] at hbound
    obtain ⟨r₁, returned, hstep, hitems, hjobs, hcursor, hread⟩ := findPageStep_finds hgetall
      fetchJobs hscan
      (hcommand chunk List.mem_cons_self) hoffset (hbound.imp_right fun h => by omega)
    rw [findPage, hstep]
    subst hcursor
    rcases hread with ⟨hnext, hle⟩ | ⟨-, hfull⟩
    · exact .single hnext hle hitems hjobs hrest
    · exact .full hfull hitems hjobs
  | succ k ih =>
    obtain ⟨cursor, chunk, later, rfl, hscan, hrest⟩ := reply_of_enumerates h
    rw [List.flatten_cons, List.length_append] at hbound
    obtain ⟨r₁, returned, hstep, hitems, hjobs, hcursor, hread⟩ := findPageStep_finds hgetall
      fetchJobs hscan
      (hcommand chunk List.mem_cons_self) hoffset (hbound.imp_right fun h => by omega)
    simp only [findPage, hstep]
    subst hcursor
    -- Read on only if the chunk did not end the page and was not the last one.
    rcases hread with ⟨hnext, hle⟩ | ⟨hreturned, hfull⟩
    · by_cases hgo : returned = true ∨ r₁.cursor = "0"
      · rw [if_pos hgo]
        exact .single hnext hle hitems hjobs hrest
      · have hlater : Enumerates scan r₁.cursor (replies later) :=
          hrest.elim (fun h => absurd (.inr h.2) hgo) fun h => h.1
        rw [if_neg hgo]
        exact .cons hnext hitems hjobs (ih hle
          (fun chunk h => hcommand chunk (List.mem_cons_of_mem _ h))
          (hbound.imp_right fun h => by omega) hlater)
    · rw [if_pos (.inl hreturned)]
      exact .full hfull hitems hjobs

end FindPage

section Client

variable {ρ : Type} {hgetall : String → ρ} {stored : Stored} {scan : String → String × List String}
  {opts : PaginateOpts}

/-- The position behind the last one of the page. -/
def PaginateOpts.pageEnd (opts : PaginateOpts) (total : ℕ) : ℕ :=
  if opts.stop = -1 then total + 1 else (opts.stop + 1).toNat

/-- The options name a range of positions: `start` to `stop`, or `start` to the last one. -/
def PaginateOpts.InRange (opts : PaginateOpts) : Prop :=
  0 ≤ opts.start ∧ (opts.start ≤ opts.stop ∨ opts.stop = -1)

/-- A set or a hash. -/
def Stored.Scannable (stored : Stored) : Prop :=
  stored ≠ .other

/-- Redis scans what is stored: each element once, cut into chunks in some way. -/
structure ScannedAs (stored : Stored) (scan : String → String × List String)
    (chunks : List (List Item)) : Prop where
  enumerates : Enumerates scan "0" (replies chunks)
  perm : chunks.flatten.Perm stored.items

/-- The command that scans what is stored. -/
def Stored.command : Stored → ScanCommand
  | .hash _ => .hscan
  | _ => .sscan

theorem command_of_mem_items {m : Item} (h : m ∈ stored.items) : m.command = stored.command := by
  cases stored with
  | set members =>
    obtain ⟨x, -, rfl⟩ := List.mem_map.mp h
    rfl
  | hash fields =>
    obtain ⟨f, -, rfl⟩ := List.mem_map.mp h
    rfl
  | other => exact absurd h List.not_mem_nil

/-- A set or a hash that is there is scanned by the command for its elements. -/
theorem script_paginate_eq (hscannable : stored.Scannable) (hne : stored.items ≠ [])
    (fetchJobs : Bool) (startOffset endOffset : ℤ) (cursor : String) (offset maxIterations : ℕ) :
    Script.paginate hgetall fetchJobs stored scan startOffset endOffset cursor offset
        maxIterations =
      .ok (findPage hgetall fetchJobs startOffset
        ((if endOffset = -1 then (stored.items.length : ℤ) else endOffset) + 1) scan stored.command
        (maxIterations - 1) ⟨cursor, offset, [], []⟩, stored.items.length) := by
  have hend : ∀ e : ℤ, startOffset + (e - startOffset + 1) = e + 1 := by intro e; omega
  cases stored with
  | set members =>
    have hmembers : members ≠ [] := fun h => hne (by simp [Stored.items, h])
    simp only [Script.paginate, Stored.type, if_neg hmembers, hend, Stored.command]
  | hash fields =>
    have hfields : fields ≠ [] := fun h => hne (by simp [Stored.items, h])
    simp only [Script.paginate, Stored.type, if_neg hfields, hend, Stored.command]
  | other => exact absurd rfl hscannable

/-- Nothing is stored under the key. -/
theorem script_paginate_none (hscannable : stored.Scannable) (hnil : stored.items = [])
    (fetchJobs : Bool) (startOffset endOffset : ℤ) (cursor : String) (offset maxIterations : ℕ) :
    Script.paginate hgetall fetchJobs stored scan startOffset endOffset cursor offset
        maxIterations =
      .ok (⟨"0", 0, [], []⟩, 0) := by
  cases stored with
  | set members =>
    have hmembers : members = [] := List.map_eq_nil_iff.mp hnil
    simp only [Script.paginate, Stored.type, if_pos hmembers]
  | hash fields =>
    have hfields : fields = [] := List.map_eq_nil_iff.mp hnil
    simp only [Script.paginate, Stored.type, if_pos hfields]
  | other => exact absurd rfl hscannable

/-- The end of the page as the script reckons it. -/
theorem pageEnd_eq (hrange : opts.InRange) (total : ℕ) :
    (if opts.stop = -1 then (total : ℤ) else opts.stop) + 1 = opts.pageEnd total := by
  obtain ⟨hstart, hstop⟩ := hrange
  unfold PaginateOpts.pageEnd
  split
  · rfl
  · have hpos : 0 ≤ opts.stop + 1 := by omega
    rw [Int.toNat_of_nonneg hpos]

theorem start_le_pageEnd (hrange : opts.InRange) (total : ℕ) :
    opts.start.toNat ≤ opts.pageEnd total ∨ total ≤ opts.pageEnd total := by
  obtain ⟨hstart, hstop⟩ := hrange
  unfold PaginateOpts.pageEnd
  split
  · exact .inr (by omega)
  · exact .inl (by omega)

variable (hgetall) in
/-- Collecting the pages: as soon as the elements collected are those of the page in the part of the
scan that has been read, they stay so until the page is complete or the scan over. -/
theorem paginateLoop_eq (hscannable : stored.Scannable) (hrange : opts.InRange) (calls : ℕ)
    {seen : List Item} {later : List (List Item)} {cursor : String}
    (hperm : (seen ++ later.flatten).Perm stored.items) (hne : stored.items ≠ [])
    (henum : Enumerates scan cursor (replies later)) (hcalls : later.length ≤ calls)
    (hle : seen.length ≤ opts.pageEnd stored.items.length) :
    ∃ cursor', paginateLoop hgetall stored scan opts calls cursor seen.length
        (slice opts.start.toNat (opts.pageEnd stored.items.length) seen)
        (jobsOf hgetall opts.fetchJobs
          (slice opts.start.toNat (opts.pageEnd stored.items.length) seen)) =
      some (.ok (cursor',
        slice opts.start.toNat (opts.pageEnd stored.items.length) (seen ++ later.flatten),
        stored.items.length,
        jobsOf hgetall opts.fetchJobs (slice opts.start.toNat
          (opts.pageEnd stored.items.length) (seen ++ later.flatten)))) := by
  induction calls generalizing seen later cursor with
  | zero => exact absurd (List.length_eq_zero_iff.mp (Nat.le_zero.mp hcalls)) (by
      rintro rfl
      exact henum.ne_nil rfl)
  | succ calls ih =>
    generalize hb : opts.pageEnd stored.items.length = b at *
    generalize ha : opts.start.toNat = a at *
    have hstart : opts.start = (a : ℤ) := by have := hrange.1; omega
    have hlen : seen.length + later.flatten.length = stored.items.length := by
      rw [← hperm.length_eq, List.length_append]
    have hpage : (slice a b seen).length = min b seen.length - a := length_slice _ _ _
    -- the next position of the page, counted from what has been read
    have hfrom : a + (slice a b seen).length - seen.length = a - seen.length := by omega
    have hcommand : ∀ chunk ∈ later, ∀ m ∈ chunk, m.command = stored.command :=
      fun chunk hchunk m hm => command_of_mem_items (hperm.subset (List.mem_append_right _
        (List.mem_flatten.mpr ⟨chunk, hchunk, hm⟩)))
    have hbound : a + (slice a b seen).length ≤ b ∨ seen.length + later.flatten.length ≤ b := by
      have := start_le_pageEnd hrange stored.items.length
      rw [hb, ha] at this
      omega
    have hfind : FindsPage hgetall opts.fetchJobs (a + (slice a b seen).length) b scan later
        ⟨cursor, seen.length, [], []⟩ (findPage hgetall opts.fetchJobs
          (a + (slice a b seen).length : ℕ) b scan stored.command 4
            ⟨cursor, seen.length, [], []⟩) :=
      findPage_finds 4 hle hcommand hbound henum
    have hend := pageEnd_eq hrange stored.items.length
    rw [hb] at hend
    rw [paginateLoop, script_paginate_eq hscannable hne, hend, hstart, ← Int.natCast_add]
    generalize findPage hgetall opts.fetchJobs (a + (slice a b seen).length : ℕ) b scan
      stored.command 4 ⟨cursor, seen.length, [], []⟩ = r at hfind
    cases hfind with
    | done hitems hjobs hlast =>
      have hpage' : slice a b seen ++ r.items = slice a b (seen ++ later.flatten) := by
        rw [hitems, slice_append, hfrom, List.nil_append]
      have hjobs' : jobsOf hgetall opts.fetchJobs (slice a b seen) ++ r.jobs =
          jobsOf hgetall opts.fetchJobs (slice a b (seen ++ later.flatten)) := by
        rw [hjobs, ← hpage', jobsOf_append, hitems, List.nil_append, List.nil_append]
      have hstop : ¬ (r.cursor ≠ "0" ∧ (0 ≤ opts.stop →
          ((slice a b seen ++ r.items).length : ℤ) < opts.stop - a + 1)) := by
        rintro ⟨hcursor, hshort⟩
        have hreached : b ≤ seen.length + later.flatten.length := hlast.resolve_left hcursor
        have hlength : (slice a b (seen ++ later.flatten)).length =
            min b (seen.length + later.flatten.length) - a := by
          rw [length_slice, List.length_append]
        rw [hpage', hlength] at hshort
        unfold PaginateOpts.pageEnd at hb
        have hrange' := hrange.2
        split at hb <;> omega
      exact ⟨r.cursor, by dsimp only; rw [if_neg hstop, hpage', hjobs']⟩
    | more now later' hchunks hnow hlater hcursor hoffset hle' hitems hjobs =>
      have hflat : seen ++ later.flatten = seen ++ now.flatten ++ later'.flatten := by
        rw [hchunks, List.flatten_append, List.append_assoc]
      have hpage' : slice a b seen ++ r.items = slice a b (seen ++ now.flatten) := by
        rw [hitems, slice_append, hfrom, List.nil_append]
      have hjobs' : jobsOf hgetall opts.fetchJobs (slice a b seen) ++ r.jobs =
          jobsOf hgetall opts.fetchJobs (slice a b (seen ++ now.flatten)) := by
        rw [hjobs, ← hpage', jobsOf_append, hitems, List.nil_append, List.nil_append]
      have hoffset' : r.offset = (seen ++ now.flatten).length := by
        rw [hoffset, List.length_append]
      have hfewer : later'.length ≤ calls := by
        have hpos : 0 < now.length := List.length_pos_iff.mpr hnow
        rw [hchunks, List.length_append] at hcalls
        omega
      by_cases hgo : r.cursor ≠ "0" ∧ (0 ≤ opts.stop →
          ((slice a b seen ++ r.items).length : ℤ) < opts.stop - a + 1)
      · obtain ⟨cursor', h⟩ := ih (hflat ▸ hperm) hlater hfewer (by rwa [← hoffset'])
        refine ⟨cursor', ?_⟩
        dsimp only
        rw [if_pos hgo, hpage', hjobs', hoffset', h, hflat]
      · have hfull : b ≤ (seen ++ now.flatten).length := by
          have hlength : (slice a b (seen ++ now.flatten)).length =
              min b (seen ++ now.flatten).length - a := length_slice _ _ _
          rw [hpage', hlength, not_and, Classical.not_imp] at hgo
          have hshort := hgo hcursor
          unfold PaginateOpts.pageEnd at hb
          have hrange' := hrange.2
          split at hb <;> omega
        refine ⟨r.cursor, ?_⟩
        dsimp only
        rw [if_neg hgo, hpage', hjobs', hflat, slice_append_of_le hfull]

/-- The elements that the options ask for: those at the positions `start` to `stop` of a scan, or
from `start` to the last one. -/
def PaginateOpts.page (opts : PaginateOpts) (scanned : List Item) : List Item :=
  if opts.stop = -1 then scanned.drop opts.start.toNat
  else (scanned.drop opts.start.toNat).take (opts.stop - opts.start + 1).toNat

theorem page_eq_slice (hrange : opts.InRange) (scanned : List Item) :
    opts.page scanned = slice opts.start.toNat (opts.pageEnd scanned.length) scanned := by
  unfold PaginateOpts.page PaginateOpts.pageEnd
  split
  · rw [slice_of_le (by omega)]
  · have hwidth : (opts.stop - opts.start + 1).toNat =
        (opts.stop + 1).toNat - opts.start.toNat := by
      have := hrange.1
      omega
    rw [slice, List.drop_take, hwidth]

/-- For every range of positions the loop ends, after no more calls than there are chunks, and
returns the elements at these positions of the scan, in its order, with the number of all elements.
-/
theorem paginate_page {V : Type} {chunks : List (List Item)} (hscans : ScannedAs stored scan chunks)
    (hscannable : stored.Scannable) (hrange : opts.InRange) (parse : String → Except String V)
    {calls : ℕ} (hcalls : chunks.length ≤ calls) :
    ∃ cursor, paginate hgetall stored scan opts parse calls =
      some (.ok
        { cursor
          items := (opts.page chunks.flatten).map (Item.result parse)
          total := stored.items.length
          jobs := if opts.fetchJobs then (opts.page chunks.flatten).map fun m => hgetall m.id
            else [] }) := by
  have hlen : chunks.flatten.length = stored.items.length := hscans.perm.length_eq
  by_cases hnil : stored.items = []
  · have hflat : chunks.flatten = [] := List.length_eq_zero_iff.mp (by rw [hlen, hnil]; rfl)
    have hpage : opts.page chunks.flatten = [] := by
      rw [page_eq_slice hrange, hflat, slice_nil]
    obtain ⟨calls, rfl⟩ : ∃ k, calls = k + 1 := by
      have := List.length_pos_iff.mpr (hscans.enumerates.ne_nil)
      rw [replies, List.length_map] at this
      exact ⟨calls - 1, by omega⟩
    refine ⟨"0", ?_⟩
    have hloop : paginateLoop hgetall stored scan opts (calls + 1) "0" 0 [] [] =
        some (.ok ("0", [], 0, [])) := by
      rw [paginateLoop, script_paginate_none hscannable hnil]
      rfl
    rw [paginate, hloop, hpage, hnil]
    simp only [List.map_nil, List.length_nil, ite_self]
    rfl
  · have hperm : ([] ++ chunks.flatten).Perm stored.items := hscans.perm
    have hjobs : jobsOf hgetall opts.fetchJobs [] = [] := by simp [jobsOf]
    obtain ⟨cursor, h⟩ := paginateLoop_eq hgetall hscannable hrange calls hperm hnil
      hscans.enumerates hcalls (Nat.zero_le _)
    rw [slice_nil, List.nil_append, List.length_nil, hjobs] at h
    exact ⟨cursor, by rw [page_eq_slice hrange, hlen, paginate, h]; rfl⟩

/-- A set of three elements in two chunks, the first of them empty: its second and third element. -/
theorem paginate_three :
    ∃ cursor, paginate (fun id => id) (.set ["x", "y", "z"])
      (fun cursor => if cursor = "0" then ("7", []) else ("0", ["z", "x", "y"])) ⟨1, 2, true⟩
      (fun _ => (.error "no value" : Except String Unit)) 2 =
      some (.ok ⟨cursor, [⟨"x", none, none⟩, ⟨"y", none, none⟩], 3, ["x", "y"]⟩) := by
  have hscans : ScannedAs (.set ["x", "y", "z"])
      (fun cursor => if cursor = "0" then ("7", []) else ("0", ["z", "x", "y"]))
      [[], [.member "z", .member "x", .member "y"]] :=
    ⟨.next (by rfl) (by decide) (.last (by rfl)), by decide⟩
  exact paginate_page hscans (by rintro ⟨⟩) ⟨by decide, .inl (by decide)⟩ _ (by decide)

end Client

end BullMQ
