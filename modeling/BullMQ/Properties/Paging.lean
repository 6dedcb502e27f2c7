import BullMQ.Model.GetJobs

/-!
# Paging through the jobs of a state

A bounded range of `getJobs` is read window by window, so that ids without a hash are made up for by
later ones. `backfill_eq` says what the loop collects, in terms of the ids in the order asked for.
Where all ids have hashes a page is a window, and the pages make up the state (`getJobs_pages`).
-/

namespace BullMQ

open Redis

/-- The ids of a container. -/
def idsIn (p : String) (c : Container) (s : Store) : List String :=
  match c with
  | .inl l => s (.list l) p
  | .inr z => (s (.zset z) p).members

/-- The ids of a container in the order asked for: lists are pushed on the left, so that the oldest
id is the last. -/
def orderedIds (p : String) (asc : Bool) (c : Container) (s : Store) : List String :=
  match c with
  | .inl _ => if asc then (idsIn p c s).reverse else idsIn p c s
  | .inr _ => if asc then idsIn p c s else (idsIn p c s).reverse

section Windows

variable {α : Type} {l : List α}

theorem lrange_window (l : List α) (n needed : ℕ) (hneeded : 0 < needed) :
    lrange l n (n + needed - 1) = (l.drop n).take needed := by
  have hn : ¬ (n : ℤ) < 0 := by omega
  have hstop : ¬ (n + needed - 1 : ℤ) < 0 := by omega
  have hlt : ¬ (n + needed - 1 : ℤ) < n := by omega
  have hlen : (n + needed - 1 - n + 1 : ℤ).toNat = needed := by omega
  simp only [lrange, if_neg hn, if_neg hstop, if_neg hlt, hlen, Int.toNat_natCast]

/-- A window counted from the end, read backwards. -/
theorem reverse_lrange_window {n needed : ℕ} (hneeded : 0 < needed) (hn : n < l.length) :
    (lrange l (-(n + needed - 1 + 1)) (-(n + 1))).reverse = (l.reverse.drop n).take needed := by
  have hstart : (-(n + needed - 1 + 1) : ℤ) < 0 := by omega
  have hstop : (-(n + 1) : ℤ) < 0 := by omega
  have hmax : max 0 (-(n + needed - 1 + 1) + l.length : ℤ) = (l.length - n - needed : ℕ) := by omega
  have hlt : ¬ (-(n + 1) + l.length : ℤ) < (l.length - n - needed : ℕ) := by omega
  have hlen : (-(n + 1) + l.length - (l.length - n - needed : ℕ) + 1 : ℤ).toNat =
      l.length - n - (l.length - n - needed) := by omega
  have htake : (l.take (l.length - n)).length = l.length - n := by simp
  simp only [lrange, if_pos hstart, if_pos hstop, hmax, if_neg hlt, hlen, Int.toNat_natCast]
  rw [List.drop_reverse, List.take_reverse, htake, List.drop_take]

/-- Reading on from where a window ends. -/
theorem take_window_append (l : List α) (a b : ℕ) :
    l.take (a + b) = l.take a ++ (l.drop (l.take a).length).take b := by
  rw [List.take_add]
  by_cases h : a ≤ l.length
  · rw [List.length_take_of_le h]
  · have hle : l.length ≤ a := by omega
    rw [List.take_of_length_le hle, List.drop_of_length_le hle, List.drop_length]

theorem take_append_take (l l' : List α) (n : ℕ) : (l.take n ++ l').take n = (l ++ l').take n := by
  by_cases h : l.length ≤ n
  · rw [List.take_of_length_le h]
  · have hlen : (l.take n).length = n := List.length_take_of_le (by omega)
    rw [List.take_append_of_le_length (by omega), List.take_append_of_le_length (by omega),
      List.take_take, Nat.min_self]

/-- Consecutive windows make up a list. -/
theorem flatMap_windows (l : List α) (k n : ℕ) :
    (List.range n).flatMap (fun i => (l.drop (i * k)).take k) = l.take (n * k) := by
  induction n with
  | zero => simp
  | succ n ih =>
    rw [List.range_succ, List.flatMap_append, ih, Nat.add_mul, Nat.one_mul, List.take_add]
    simp

end Windows

section Collect

variable {p : String} {asc : Bool} {c : Container} {s : Store}

/-- The length by which ascending slices of a list are cut off, if it is known. -/
def knownLength (p : String) (asc : Bool) (c : Container) (s : Store) : Option ℕ :=
  match c with
  | .inl l => if asc then some (s (.list l) p).length else none
  | .inr _ => none

theorem fetchIds_window (n needed : ℕ) (hneeded : 0 < needed) :
    fetchIds p asc c n (n + needed - 1) (knownLength p asc c s) s =
      ((orderedIds p asc c s).drop n).take needed := by
  cases c with
  | inl l =>
    cases asc with
    | false => exact lrange_window _ n needed hneeded
    | true =>
      have hstart : (n : ℤ) ≠ -1 := by omega
      have hstop : (n + needed - 1 : ℤ) ≠ -1 := by omega
      simp only [fetchIds, knownLength, orderedIds, idsIn, if_true, if_neg hstart, if_neg hstop]
      split
      · next hguard =>
        have hbeyond : (0 : ℤ) ≤ n ∧ (0 : ℤ) ≤ n + needed - 1 ∧
            ((s (.list l) p).length : ℤ) ≤ n := of_decide_eq_true hguard
        rw [List.drop_of_length_le (by rw [List.length_reverse]; omega), List.take_nil]
      · next hguard =>
        have hwithin : ¬ ((0 : ℤ) ≤ n ∧ (0 : ℤ) ≤ n + needed - 1 ∧
            ((s (.list l) p).length : ℤ) ≤ n) := fun h => hguard (decide_eq_true h)
        exact reverse_lrange_window hneeded (by omega)
  | inr z =>
    cases asc with
    | false => exact lrange_window _ n needed hneeded
    | true => exact lrange_window _ n needed hneeded

/-- What the loop collects: the entries that are present in the windows it reads, as many as are
needed. -/
theorem backfill_eq {needed : ℕ} (hneeded : 0 < needed) (iterations cursor : ℕ)
    {entries : List (String × Job)} (hle : entries.length ≤ needed) :
    backfill p asc c needed (knownLength p asc c s) s iterations cursor entries =
      (entries ++ (((orderedIds p asc c s).drop cursor).take (needed * iterations)).filterMap
        (readJob p s)).take needed := by
  induction iterations generalizing cursor entries with
  | zero => simp [backfill, List.take_of_length_le hle]
  | succ iterations ih =>
    rw [backfill]
    by_cases hlt : entries.length < needed
    · rw [if_pos hlt]
      simp only [fetchIds_window cursor needed hneeded]
      by_cases hnil : ((orderedIds p asc c s).drop cursor).take needed = []
      · have hdone : (orderedIds p asc c s).drop cursor = [] :=
          (List.take_eq_nil_iff.mp hnil).resolve_left (by omega)
        rw [if_pos hnil, hdone]
        simp [List.take_of_length_le hle]
      · rw [if_neg hnil, ← Nat.cast_add, ih _ (by simp), take_append_take, List.append_assoc,
          ← List.filterMap_append, Nat.mul_succ, Nat.add_comm (needed * iterations),
          take_window_append, List.drop_drop]
    · have hfull : entries.length = needed := by omega
      rw [if_neg hlt, List.take_append_of_le_length (by omega), List.take_of_length_le hle]

/-- A container whose ids have hashes and do not look like legacy markers. -/
def Readable (p : String) (c : Container) (s : Store) : Prop :=
  ∀ id ∈ idsIn p c s, s.jobExists (p ++ id) = true ∧ isLegacyMarker id = false

/-- The legacy markers in a container, if there are any, have no hash. -/
def BareMarkers (p : String) (c : Container) (s : Store) : Prop :=
  ∀ id ∈ idsIn p c s, isLegacyMarker id = true → s.jobExists (p ++ id) = false

theorem cleanupDeprecatedMarker_readable (h : Readable p c s) :
    cleanupDeprecatedMarker p c s = (none, s) := by
  unfold cleanupDeprecatedMarker
  split
  · rfl
  · rfl
  · next l _ =>
    split
    · next marker rest hpop =>
      have hmem : marker ∈ s (.list l) p := by rw [rpop_eq_some hpop]; simp
      rw [if_neg (by rw [(h marker hmem).2]; decide)]
    · rfl

/-- The cleanup leaves a list whose length it knows, or a marker that is all the list holds. -/
theorem cleanupDeprecatedMarker_cases (p : String) (c : Container) (s : Store) :
    let r := cleanupDeprecatedMarker p c s
    r.1 = none ∧ r.2 = s ∨ r.1 = some (idsIn p c r.2).length ∨
      r.1 = some 0 ∧ r.2 = s ∧ ∃ marker, idsIn p c s = [marker] ∧ isLegacyMarker marker = true := by
  dsimp only
  unfold cleanupDeprecatedMarker
  split
  · exact .inl ⟨rfl, rfl⟩
  · exact .inl ⟨rfl, rfl⟩
  · next l _ =>
    split
    · next marker rest hpop =>
      split
      · next hmarker =>
        split
        · refine .inr (.inl ?_)
          simp only [idsIn, Keyspace.set_self, Function.update_self]
        · next hlen =>
          have hlist := rpop_eq_some hpop
          have hrest : rest = [] := by
            rw [hlist, List.length_append, List.length_singleton] at hlen
            exact List.eq_nil_iff_length_eq_zero.mpr (by omega)
          exact .inr (.inr ⟨rfl, rfl, marker, by simp [idsIn, hlist, hrest], hmarker⟩)
      · exact .inl ⟨rfl, rfl⟩
    · exact .inl ⟨rfl, rfl⟩

/-- A bounded range: the first entries that are present in the windows from its start on. -/
theorem collectJobs_bounded (hmarkers : BareMarkers p c s) (start stop : ℕ) (maxIterations : ℕ) :
    collectJobs p start stop asc maxIterations c s =
      (((((orderedIds p asc c (cleanupDeprecatedMarker p c s).2).drop start).take
          ((stop + 1 - start) * maxIterations)).filterMap
            (readJob p (cleanupDeprecatedMarker p c s).2)).take (stop + 1 - start),
        (cleanupDeprecatedMarker p c s).2) := by
  have hcases := cleanupDeprecatedMarker_cases p c s
  have hrange : ¬ ((start : ℤ) < 0 ∨ (stop : ℤ) < 0) := by omega
  have hneeded : ((stop : ℤ) - start + 1).toNat = stop + 1 - start := by omega
  obtain ⟨cleaned, s', hclean⟩ : ∃ cleaned s', cleanupDeprecatedMarker p c s = (cleaned, s') :=
    ⟨_, _, rfl⟩
  rw [hclean] at hcases
  dsimp only at hcases
  simp only [collectJobs, hclean, if_neg hrange, hneeded]
  congr 1
  obtain hzero | hpos := Nat.eq_zero_or_pos (stop + 1 - start)
  · rw [hzero]
    cases maxIterations <;> simp [backfill]
  · have hknown : ∀ listLength, listLength = knownLength p asc c s' →
        backfill p asc c (stop + 1 - start) listLength s' maxIterations start [] =
          ((((orderedIds p asc c s').drop start).take
            ((stop + 1 - start) * maxIterations)).filterMap (readJob p s')).take
              (stop + 1 - start) := by
      rintro _ rfl
      exact backfill_eq hpos maxIterations start (Nat.zero_le _)
    cases c with
    | inr z => exact hknown _ rfl
    | inl l =>
      cases asc with
      | false => exact hknown _ rfl
      | true =>
        -- The length is that of the list, read after a marker was popped; or zero, where a marker
        -- is all that the list holds.
        obtain ⟨rfl, rfl⟩ | rfl | ⟨rfl, rfl, marker, hlist, hmarker⟩ := hcases
        · exact hknown _ (by simp [knownLength])
        · exact hknown _ (by simp [knownLength, idsIn])
        · -- Nothing is read of a list that holds a marker only, and the marker has no hash.
          have hread : readJob p s' marker = none := by
            have hbare := hmarkers marker (by rw [hlist]; simp) hmarker
            rw [Store.jobExists, Option.isSome_eq_false_iff, Option.isNone_iff_eq_none] at hbare
            rw [readJob, hbare]
            rfl
          have hnone : ∀ ids ⊆ [marker], ids.filterMap (readJob p s') = [] := by
            intro ids hids
            rw [List.filterMap_eq_nil_iff]
            intro id hid
            rw [List.mem_singleton.mp (hids hid), hread]
          have hright : ((((orderedIds p true (.inl l) s').drop start).take
              ((stop + 1 - start) * maxIterations)).filterMap (readJob p s')) = [] := by
            refine hnone _ fun id hid => ?_
            have hmem := List.mem_of_mem_drop (List.mem_of_mem_take hid)
            rwa [orderedIds, if_pos rfl, hlist] at hmem
          rw [hright, List.take_nil]
          cases maxIterations with
          | zero => rfl
          | succ n =>
            have hfetch : fetchIds p true (.inl l) start
                ((start : ℤ) + (stop + 1 - start : ℕ) - 1) (some 0) s' = [] := by
              have hguard : (0 : ℤ) ≤ start ∧ (0 : ℤ) ≤ start + (stop + 1 - start : ℕ) - 1 ∧
                  (0 : ℤ) ≤ start := by omega
              simp only [fetchIds, if_true]
              split
              · rfl
              · next hno => exact absurd (decide_eq_true hguard) hno
            simp [backfill, hpos, hfetch]

theorem map_fst_filterMap_readJob (ids : List String) :
    ((ids.filterMap (readJob p s)).map Prod.fst).Sublist ids := by
  induction ids with
  | nil => simp
  | cons id ids ih =>
    cases hread : s .hash (p ++ id) with
    | none =>
      rw [List.filterMap_cons_none (by rw [readJob, hread]; rfl)]
      exact ih.cons id
    | some job =>
      rw [List.filterMap_cons_some (b := (id, job)) (by rw [readJob, hread]; rfl)]
      exact ih.cons_cons id

theorem mem_orderedIds {id : String} : id ∈ orderedIds p asc c s ↔ id ∈ idsIn p c s := by
  unfold orderedIds
  cases c <;> cases asc <;> simp

theorem length_orderedIds : (orderedIds p asc c s).length = (idsIn p c s).length := by
  unfold orderedIds
  cases c <;> cases asc <;> simp

/-- Where all ids have hashes, nothing is skipped. -/
theorem map_fst_filterMap_readJob_of_exists {ids : List String}
    (h : ∀ id ∈ ids, s.jobExists (p ++ id) = true) :
    (ids.filterMap (readJob p s)).map Prod.fst = ids := by
  refine (map_fst_filterMap_readJob ids).eq_of_length_le ?_
  induction ids with
  | nil => rfl
  | cons id ids ih =>
    obtain ⟨job, hjob⟩ := Option.isSome_iff_exists.mp (h id (by simp))
    rw [List.filterMap_cons_some (b := (id, job)) (by rw [readJob, hjob]; rfl)]
    simpa using ih fun i hi => h i (by simp [hi])

theorem take_filterMap_readJob {ids : List String}
    (h : ∀ id ∈ ids, s.jobExists (p ++ id) = true) (k : ℕ) :
    (ids.filterMap (readJob p s)).take k = (ids.take k).filterMap (readJob p s) := by
  induction ids generalizing k with
  | nil => simp
  | cons id ids ih =>
    obtain ⟨job, hjob⟩ := Option.isSome_iff_exists.mp (h id (by simp))
    have hread : readJob p s id = some (id, job) := by rw [readJob, hjob]; rfl
    cases k with
    | zero => rfl
    | succ k =>
      rw [List.filterMap_cons_some hread, List.take_succ_cons, List.take_succ_cons,
        List.filterMap_cons_some hread, ih fun i hi => h i (by simp [hi])]

theorem Readable.bareMarkers (h : Readable p c s) : BareMarkers p c s := by
  intro id hid hmarker
  rw [(h id hid).2] at hmarker
  cases hmarker

/-- A page of a container whose ids all have hashes is a window of it. -/
theorem Readable.page (h : Readable p c s) {k maxIterations : ℕ} (hk : 1 ≤ k)
    (hiterations : 1 ≤ maxIterations) (i : ℕ) :
    collectJobs p (i * k : ℕ) (i * k + k - 1 : ℕ) asc maxIterations c s =
      ((((orderedIds p asc c s).drop (i * k)).take k).filterMap (readJob p s), s) := by
  rw [collectJobs_bounded h.bareMarkers, cleanupDeprecatedMarker_readable h,
    show i * k + k - 1 + 1 - i * k = k by omega]
  have hexist : ∀ id ∈ ((orderedIds p asc c s).drop (i * k)).take (k * maxIterations),
      s.jobExists (p ++ id) = true := fun id hid =>
    (h id (mem_orderedIds.mp (List.mem_of_mem_drop (List.mem_of_mem_take hid)))).1
  have hle : k ≤ k * maxIterations := Nat.le_mul_of_pos_right k hiterations
  rw [take_filterMap_readJob hexist, List.take_take, Nat.min_eq_left hle]

/-- The pages of a state make it up, in order, and those beyond its end are empty; and a bounded
range that skips ids without a hash has the first entries that are present in its windows. -/
theorem getJobs_pages (p : String) (asc : Bool) (c : Container) (s : Store) :
    (Readable p c s → ∀ k maxIterations : ℕ, 1 ≤ k → 1 ≤ maxIterations →
      (∀ n, (idsIn p c s).length ≤ n * k →
        ((List.range n).flatMap fun i =>
          (collectJobs p (i * k : ℕ) (i * k + k - 1 : ℕ) asc maxIterations c s).1).map Prod.fst =
            orderedIds p asc c s) ∧
      ∀ i, (idsIn p c s).length ≤ i * k →
        collectJobs p (i * k : ℕ) (i * k + k - 1 : ℕ) asc maxIterations c s = ([], s)) ∧
    (BareMarkers p c s → ∀ start stop maxIterations : ℕ, start ≤ stop →
      let s' := (cleanupDeprecatedMarker p c s).2
      let r := collectJobs p start stop asc maxIterations c s
      r = (((((orderedIds p asc c s').drop start).take
        ((stop + 1 - start) * maxIterations)).filterMap (readJob p s')).take
        (stop + 1 - start), s') ∧
      (r.1.map Prod.fst).Sublist ((orderedIds p asc c s').drop start)) := by
  refine ⟨fun h k maxIterations hk hiterations => ⟨fun n hn => ?_, fun i hi => ?_⟩,
    fun h start stop maxIterations hle => ?_⟩
  · have hexist : ∀ id ∈ orderedIds p asc c s, s.jobExists (p ++ id) = true := fun id hid =>
      (h id (mem_orderedIds.mp hid)).1
    simp only [h.page hk hiterations]
    rw [← List.filterMap_flatMap, flatMap_windows,
      List.take_of_length_le (by rwa [length_orderedIds]),
        map_fst_filterMap_readJob_of_exists hexist]
  · rw [h.page hk hiterations, List.drop_of_length_le (by rwa [length_orderedIds])]
    simp
  · dsimp only
    rw [collectJobs_bounded h]
    refine ⟨rfl, ?_⟩
    exact ((List.take_sublist _ _).map _).trans
      ((map_fst_filterMap_readJob _).trans (List.take_sublist _ _))

end Collect

/-- Three waiting jobs, the oldest at the right end, the second without a hash. -/
def threeWaiting : Store :=
  ((Store.empty.set (.list .wait) "bull:q:" ["3", "2", "1"]).set .hash "bull:q:1"
    (some {})).set .hash
    "bull:q:3" (some {})

/-- The pages of the three, once the second has its hash, and the two that are found before. -/
theorem getJobs_three :
    (List.range 2).flatMap (fun i => (collectJobs "bull:q:" (i * 2 : ℕ) (i * 2 + 2 - 1 : ℕ) true 1
        (.inl .wait) (threeWaiting.set .hash "bull:q:2" (some {}))).1.map Prod.fst) =
          ["1", "2", "3"] ∧
      ((collectJobs "bull:q:" (0 : ℕ) (1 : ℕ) true 5 (.inl .wait) threeWaiting).1.map Prod.fst) =
        ["1", "3"] := by
  have hpages := (getJobs_pages "bull:q:" true (.inl .wait)
    (threeWaiting.set .hash "bull:q:2" (some {}))).1 (by unfold Readable; decide) 2 1 (by decide)
    (by decide)
  have hskip := (getJobs_pages "bull:q:" true (.inl .wait) threeWaiting).2
    (by unfold BareMarkers; decide) 0 1 5 (by decide)
  refine ⟨?_, ?_⟩
  · rw [← List.map_flatMap]
    exact (hpages.1 2 (by decide)).trans (by decide)
  · rw [hskip.1]
    decide

end BullMQ
