import Mathlib.Data.List.Chain
import BullMQ.Model.Finish
import BullMQ.Postgres.Metrics

/-!
# Metrics

The data points of a metric are recovered from a running total at the boundaries of minutes. On both
backends one call does the same to them (`metrics_agree`). Each data point is the number of calls in
its minute as long as no pause between two calls exceeds the number of points that are kept; after a
longer one the calls before the pause are counted in a minute in which there were none
(`minutes_counted_iff`).
-/

namespace BullMQ

open Redis

/-! ### One call -/

/-- What one call does to a metric. -/
def Metrics.collect (x : Metrics) (maxDataPoints timestamp : ℤ) : Metrics :=
  match x.prevTS with
  | none => { x with count := x.count + 1, prevTS := some timestamp, prevCount := 0 }
  | some prevTS =>
    let N := min (timestamp / 60000 - prevTS / 60000) maxDataPoints
    if 0 < N then
      { count := x.count + 1
        prevTS := some timestamp
        prevCount := x.count
        data := (List.replicate (N.toNat - 1) 0 ++ (x.count - x.prevCount) :: x.data).take
          maxDataPoints.toNat }
    else { x with count := x.count + 1 }

theorem foldl_lpush (points data : List ℤ) :
    points.foldl (fun data x => lpush x data) data = points.reverse ++ data := by
  induction points generalizing data with
  | nil => rfl
  | cons x points ih =>
    rw [List.foldl_cons, ih, List.reverse_cons, List.append_assoc]
    rfl

/-- Pushing in batches is pushing one after the other. -/
theorem foldl_batches_lpush (points data : List ℤ) :
    (batches points.length 7000).foldl
        (fun data range => (unpack points range).foldl (fun data x => lpush x data) data) data =
      points.reverse ++ data := by
  rw [← List.foldl_flatMap, flatMap_batches points (by decide), foldl_lpush]

theorem collectMetrics_metrics (key : String) (m t : ℤ) (s : Store) :
    collectMetrics key m t s .metrics =
      Function.update (s .metrics) key ((s .metrics key).collect m t) := by
  rw [collectMetrics, Keyspace.modify_self]
  congr 1
  unfold Metrics.collect
  cases (s .metrics key).prevTS with
  | none => rfl
  | some prevTS =>
    dsimp only
    split
    · next hN =>
      rw [foldl_batches_lpush, List.reverse_cons, List.reverse_replicate, List.append_assoc]
      rfl
    · rfl

/-- The metric after some calls, each with the number of points to keep and its time. -/
def metricsAfter (key : String) (calls : List (ℤ × ℤ)) : Metrics :=
  (calls.foldl (fun s c => collectMetrics key c.1 c.2 s) Store.empty) .metrics key

theorem metricsAfter_concat (key : String) (calls : List (ℤ × ℤ)) (c : ℤ × ℤ) :
    metricsAfter key (calls ++ [c]) = (metricsAfter key calls).collect c.1 c.2 := by
  rw [metricsAfter, List.foldl_append, List.foldl_cons, List.foldl_nil, collectMetrics_metrics,
    Function.update_self]
  rfl

/-! ### Both backends -/

/-- The table `metrics` after some calls. -/
def Postgres.metricsAfter (queue kind : String) (calls : List (ℤ × ℤ)) :
    Sql.Table (String × String) Postgres.MetricsRow :=
  calls.foldl (fun t c => Postgres.collectMetrics queue kind c.1 c.2 t) ∅

/-- The backends hold the same metric. -/
structure SameMetrics (x : Metrics) (row : Postgres.MetricsRow) : Prop where
  count : (x.count : ℤ) = row.count
  prevTS : x.prevTS = row.prevTs
  prevCount : x.prevCount = row.prevCount
  data : x.data = row.data

section Agreement

variable {queue kind : String} {x : Metrics} {t : Sql.Table (String × String) Postgres.MetricsRow}
  {max ts : ℤ}

/-- The two ways in which data points are put in front of older ones. -/
theorem points_eq (row : Postgres.MetricsRow) {n : ℤ} (hn : 0 < n) (delta max : ℤ) :
    row.points n delta max =
      (List.replicate (n.toNat - 1) 0 ++ delta :: row.data).take max.toNat := by
  unfold Postgres.MetricsRow.points
  dsimp only
  congr 1
  split
  · have hlen : (n - 1).toNat = n.toNat - 1 := by omega
    rw [hlen, List.append_assoc]
    rfl
  · have hlen : n.toNat - 1 = 0 := by omega
    rw [hlen]
    rfl

/-- The first call writes the same metric. -/
theorem collect_first (hrow : t.find (queue, kind) = none) :
    ∃ row, (Postgres.collectMetrics queue kind max ts t).find (queue, kind) = some row ∧
      SameMetrics (Metrics.collect {} max ts) row := by
  refine ⟨⟨1, some ts, 0, []⟩, ?_, ⟨rfl, rfl, rfl, rfl⟩⟩
  simp [Postgres.collectMetrics, Sql.Table.find_upsert, Sql.Table.find_updateKey, hrow]

/-- A later call changes the metric in the same way. -/
theorem collect_next {row : Postgres.MetricsRow} (hrow : t.find (queue, kind) = some row)
    (hsame : SameMetrics x row) {prevTS : ℤ} (hprev : x.prevTS = some prevTS) (hpos : 0 ≤ prevTS)
    (hts : 0 ≤ ts) :
    ∃ row', (Postgres.collectMetrics queue kind max ts t).find (queue, kind) = some row' ∧
      SameMetrics (x.collect max ts) row' := by
  have hminutes : ts.tdiv 60000 - prevTS.tdiv 60000 = ts / 60000 - prevTS / 60000 := by
    rw [Int.tdiv_eq_ediv_of_nonneg hts, Int.tdiv_eq_ediv_of_nonneg hpos]
  have hprev' : row.prevTs = some prevTS := hsame.prevTS.symm.trans hprev
  simp only [Postgres.collectMetrics, Sql.Table.find_upsert, if_true, hrow, Option.elim_some,
    hprev', hminutes, Metrics.collect, hprev]
  split
  · next hN =>
    rw [Sql.Table.find_updateKey, if_pos rfl, Sql.Table.find_upsert, if_pos rfl]
    refine ⟨_, rfl, ?_⟩
    rw [points_eq _ hN]
    refine ⟨?_, rfl, ?_, ?_⟩
    · simp [hrow, hsame.count]
    · simp [hsame.count]
    · simp [hsame.count, hsame.prevCount, hsame.data]
  · refine ⟨_, by rw [Sql.Table.find_upsert, if_pos rfl], ?_⟩
    refine ⟨?_, ?_, ?_, ?_⟩
    · simp [hrow, hsame.count]
    · simp [hrow, hprev']
    · simp [hrow, hsame.prevCount]
    · simp [hrow, hsame.data]

/-- The time that a call leaves is its own or the one before. -/
theorem collect_prevTS (x : Metrics) (max ts : ℤ) :
    (x.collect max ts).prevTS = some ts ∨
      ∃ τ, x.prevTS = some τ ∧ (x.collect max ts).prevTS = some τ := by
  unfold Metrics.collect
  split
  · exact .inl rfl
  · next τ hτ =>
    dsimp only
    split
    · exact .inl rfl
    · exact .inr ⟨τ, hτ, hτ⟩

/-- After every call, both backends hold the same metric. -/
theorem metrics_agree (key queue kind : String) {calls : List (ℤ × ℤ)} (hcalls : calls ≠ [])
    (hvalid : ∀ c ∈ calls, 1 ≤ c.1 ∧ 0 ≤ c.2) :
    ∃ row, (Postgres.metricsAfter queue kind calls).find (queue, kind) = some row ∧
      SameMetrics (metricsAfter key calls) row := by
  -- The times that are kept stay nonnegative, where the two divisions agree.
  suffices hinv : ∀ calls : List (ℤ × ℤ), (∀ c ∈ calls, 1 ≤ c.1 ∧ 0 ≤ c.2) → calls ≠ [] →
      (∃ τ, (metricsAfter key calls).prevTS = some τ ∧ 0 ≤ τ) ∧
      ∃ row, (Postgres.metricsAfter queue kind calls).find (queue, kind) = some row ∧
        SameMetrics (metricsAfter key calls) row from (hinv calls hvalid hcalls).2
  intro calls
  induction calls using List.reverseRecOn with
  | nil => exact fun _ h => absurd rfl h
  | append_singleton calls c ih =>
    intro hvalid _
    have hlast : 0 ≤ c.2 := (hvalid c (by simp)).2
    have hbefore : ∀ c' ∈ calls, 1 ≤ c'.1 ∧ 0 ≤ c'.2 := fun c' hc' => hvalid c' (by simp [hc'])
    have htable : Postgres.metricsAfter queue kind (calls ++ [c]) =
        Postgres.collectMetrics queue kind c.1 c.2 (Postgres.metricsAfter queue kind calls) := by
      rw [Postgres.metricsAfter, List.foldl_append]
      rfl
    rw [htable, metricsAfter_concat]
    by_cases hnil : calls = []
    · subst hnil
      exact ⟨⟨c.2, rfl, hlast⟩, collect_first rfl⟩
    · obtain ⟨⟨τ, hτ, hpos⟩, row, hrow, hsame⟩ := ih hbefore hnil
      refine ⟨?_, collect_next hrow hsame hτ hpos hlast⟩
      obtain hnew | ⟨τ', hτ', hold⟩ := collect_prevTS (metricsAfter key calls) c.1 c.2
      · exact ⟨c.2, hnew, hlast⟩
      · obtain rfl := Option.some.inj (hτ.symm.trans hτ')
        exact ⟨τ, hold, hpos⟩

theorem metrics_agree_twice :
    (∀ c ∈ [((3 : ℤ), (0 : ℤ)), (2, 200000)], 1 ≤ c.1 ∧ 0 ≤ c.2) ∧
      ∃ row, (Postgres.metricsAfter "q" "completed" [(3, 0), (2, 200000)]).find ("q", "completed") =
        some row ∧ SameMetrics
        (metricsAfter "bull:q:metrics:completed" [(3, 0), (2, 200000)]) row :=
  ⟨by decide, metrics_agree _ _ _ (by decide) (by decide)⟩

end Agreement

/-! ### Data points -/

/-- The minute of a time. -/
def minuteOf (t : ℤ) : ℤ := t / 60000

/-- The number of calls in a minute. -/
def callsIn (calls : List ℤ) (minute : ℤ) : ℕ := calls.countP fun t => decide (minuteOf t = minute)

/-- The metric counts the calls, and every data point those of its minute. -/
structure MinutesCounted (m : ℤ) (calls : List ℤ) (x : Metrics) : Prop where
  count : x.count = calls.length
  length : (x.data.length : ℤ) ≤ m
  points : ∀ prevTS, x.prevTS = some prevTS → ∀ (i : ℕ) (a : ℤ), x.data[i]? = some a →
    a = callsIn calls (minuteOf prevTS - 1 - i)

/-- No pause between two calls is longer than the minutes that are kept. -/
def ShortPauses (m : ℤ) (calls : List ℤ) : Prop :=
  calls.IsChain fun t t' => minuteOf t' - minuteOf t ≤ m

/-- A metric after calls, the last of them in the given minute. -/
structure Collected (m : ℤ) (calls : List ℤ) (minute : ℤ) (x : Metrics) : Prop where
  counted : MinutesCounted m calls x
  prev : ∃ τ, x.prevTS = some τ ∧ minuteOf τ = minute
  upTo : ∀ t ∈ calls, minuteOf t ≤ minute
  attained : ∃ t ∈ calls, minuteOf t = minute
  prevCount : x.prevCount + callsIn calls minute = calls.length

section Minutes

variable {m minute t : ℤ} {calls : List ℤ} {x : Metrics}

theorem callsIn_concat (calls : List ℤ) (t minute : ℤ) :
    callsIn (calls ++ [t]) minute =
      callsIn calls minute + if minuteOf t = minute then 1 else 0 := by
  simp [callsIn, List.countP_append, List.countP_cons]

theorem callsIn_eq_zero (h : ∀ t ∈ calls, minuteOf t ≤ minute) {minute' : ℤ}
    (hlt : minute < minute') : callsIn calls minute' = 0 := by
  refine List.countP_eq_zero.mpr fun t ht => ?_
  have hle := h t ht
  simp only [decide_eq_true_eq]
  omega

theorem collected_first (m t : ℤ) (hm : 1 ≤ m) :
    Collected m [t] (minuteOf t) (Metrics.collect {} m t) where
  counted := ⟨rfl, by show ((0 : ℕ) : ℤ) ≤ m; omega, fun _ _ i a ha => by cases ha⟩
  prev := ⟨t, rfl, rfl⟩
  upTo := fun t' ht' => by rw [List.mem_singleton.mp ht']
  attained := ⟨t, List.mem_singleton.mpr rfl, rfl⟩
  prevCount := by simp [Metrics.collect, callsIn]

/-- A call in the same minute is only counted. -/
theorem Collected.same (h : Collected m calls minute x) (ht : minuteOf t = minute) :
    Collected m (calls ++ [t]) minute (x.collect m t) := by
  obtain ⟨τ, hτ, hminute⟩ := h.prev
  have hcollect : x.collect m t = { x with count := x.count + 1 } := by
    have hN : ¬ 0 < min (t / 60000 - τ / 60000) m := by
      rw [minuteOf] at ht hminute
      omega
    simp only [Metrics.collect, hτ, if_neg hN]
  rw [hcollect]
  refine ⟨⟨?_, h.counted.length, ?_⟩, ⟨τ, hτ, hminute⟩, ?_, ?_, ?_⟩
  · simp [h.counted.count]
  · intro prevTS hprev i a ha
    obtain rfl := Option.some.inj (hτ.symm.trans hprev)
    rw [h.counted.points τ hτ i a ha, callsIn_concat, if_neg (by omega), Nat.add_zero]
  · intro t' ht'
    obtain ht' | ht' := List.mem_append.mp ht'
    · exact h.upTo t' ht'
    · rw [List.mem_singleton.mp ht', ht]
  · exact ⟨t, by simp, ht⟩
  · have hprev := h.prevCount
    rw [callsIn_concat, if_pos ht, List.length_append, List.length_singleton]
    push_cast
    omega

/-- The data points that a call in a later minute leaves. -/
theorem Collected.collect_later (h : Collected m calls minute x) (hm : 1 ≤ m)
    (ht : minute < minuteOf t) : x.collect m t =
      { count := x.count + 1
        prevTS := some t
        prevCount := x.count
        data := (List.replicate ((min (minuteOf t - minute) m).toNat - 1) 0 ++
          (callsIn calls minute : ℤ) :: x.data).take m.toNat } := by
  obtain ⟨τ, hτ, hminute⟩ := h.prev
  have hN : 0 < min (t / 60000 - τ / 60000) m := by
    rw [minuteOf] at ht hminute
    omega
  have hdelta : (x.count : ℤ) - x.prevCount = callsIn calls minute := by
    have hprev := h.prevCount
    rw [h.counted.count]
    omega
  have hpause : t / 60000 - τ / 60000 = minuteOf t - minute := by rw [← hminute, minuteOf, minuteOf]
  rw [hpause] at hN
  simp only [Metrics.collect, hτ, hdelta, hpause, if_pos hN]

theorem getElem?_points (k : ℕ) (delta : ℤ) (data : List ℤ) (i : ℕ) :
    (List.replicate k 0 ++ delta :: data)[i]? =
      if i < k then some 0 else if i = k then some delta else data[i - k - 1]? := by
  rw [List.getElem?_append, List.length_replicate]
  split
  · next hlt => rw [List.getElem?_replicate, if_pos hlt]
  · next hge =>
    split
    · next heq => simp [heq]
    · next hne =>
      obtain ⟨j, hj⟩ : ∃ j, i - k = j + 1 := ⟨i - k - 1, by omega⟩
      rw [hj, List.getElem?_cons_succ, Nat.add_sub_cancel]

/-- A call in a later minute, after a short pause, adds the data points of the minutes between. -/
theorem Collected.later (h : Collected m calls minute x) (hm : 1 ≤ m) (ht : minute < minuteOf t)
    (hpause : minuteOf t - minute ≤ m) :
    Collected m (calls ++ [t]) (minuteOf t) (x.collect m t) := by
  obtain ⟨τ, hτ, hminute⟩ := h.prev
  rw [h.collect_later hm ht, min_eq_left hpause]
  refine ⟨⟨?_, ?_, ?_⟩, ⟨t, rfl, rfl⟩, ?_, ?_, ?_⟩
  · simp [h.counted.count]
  · have hlen := List.length_take_le m.toNat
      (List.replicate ((minuteOf t - minute).toNat - 1) 0 ++ (callsIn calls minute : ℤ) :: x.data)
    dsimp only
    omega
  · intro prevTS hprev i a ha
    obtain rfl := Option.some.inj hprev
    have hlater : minuteOf t ≠ minuteOf t - 1 - i := by omega
    rw [callsIn_concat, if_neg hlater, Nat.add_zero]
    -- The position tells the minutes of the pause, the last minute and the older ones apart.
    dsimp only at ha
    rw [List.getElem?_take] at ha
    split at ha
    · rw [getElem?_points] at ha
      split at ha
      · rw [callsIn_eq_zero h.upTo (by omega)]
        exact (Option.some.inj ha).symm
      · split at ha
        · have hlast : minuteOf t - 1 - i = minute := by omega
          rw [hlast]
          exact (Option.some.inj ha).symm
        · have hold : minuteOf t - 1 - i =
              minuteOf τ - 1 - ((i - ((minuteOf t - minute).toNat - 1) - 1 : ℕ) : ℤ) := by omega
          rw [hold]
          exact h.counted.points τ hτ _ a ha
    · cases ha
  · intro t' ht'
    obtain ht' | ht' := List.mem_append.mp ht'
    · exact (h.upTo t' ht').trans ht.le
    · rw [List.mem_singleton.mp ht']
  · exact ⟨t, by simp, rfl⟩
  · have hnone := callsIn_eq_zero h.upTo ht
    rw [callsIn_concat, hnone, if_pos rfl, List.length_append, List.length_singleton,
      h.counted.count]
    push_cast
    omega

/-- The metric after calls with short pauses. -/
theorem collected_of_shortPauses (key : String) (hm : 1 ≤ m) (hsorted : calls.Pairwise (· ≤ ·))
    (hshort : ShortPauses m calls) {last : ℤ} (hlast : calls.getLast? = some last) :
    Collected m calls (minuteOf last) (metricsAfter key (calls.map fun t => (m, t))) := by
  induction calls using List.reverseRecOn generalizing last with
  | nil => cases hlast
  | append_singleton calls t ih =>
    obtain rfl : t = last := by simpa using hlast
    rw [List.map_append, List.map_singleton, metricsAfter_concat]
    obtain ⟨hbefore, -, hgap⟩ := List.isChain_append.mp hshort
    cases hprev : calls.getLast? with
    | none =>
      rw [List.getLast?_eq_none_iff] at hprev
      subst hprev
      exact collected_first m t hm
    | some prev =>
      have hle : prev ≤ t :=
        (List.pairwise_append.mp hsorted).2.2 prev (List.mem_of_getLast? hprev) t (by simp)
      have hminutes : minuteOf prev ≤ minuteOf t := Int.ediv_le_ediv (by decide) hle
      have hcollected := ih (List.pairwise_append.mp hsorted).1 hbefore hprev
      obtain heq | hlt := hminutes.eq_or_lt
      · rw [← heq]
        exact hcollected.same heq.symm
      · exact hcollected.later hm hlt (hgap prev hprev t rfl)

/-- After a pause that is too long, the calls before it are counted in a minute without calls. -/
theorem Collected.not_counted (h : Collected m calls minute x) (hm : 1 ≤ m)
    (hpause : m < minuteOf t - minute) : ¬ MinutesCounted m (calls ++ [t]) (x.collect m t) := by
  intro hcounted
  rw [h.collect_later hm (by omega), min_eq_right hpause.le] at hcounted
  have hpoint := hcounted.points t rfl (m.toNat - 1) (callsIn calls minute) (by
    dsimp only
    rw [List.getElem?_take, if_pos (by omega), getElem?_points, if_neg (by omega), if_pos rfl])
  have hnone : callsIn (calls ++ [t]) (minuteOf t - 1 - (m.toNat - 1 : ℕ)) = 0 := by
    rw [callsIn_concat, if_neg (by omega), callsIn_eq_zero h.upTo (by omega)]
  obtain ⟨t', ht', hminute⟩ := h.attained
  have hsome : 0 < callsIn calls minute := List.countP_pos_iff.mpr ⟨t', ht', by simpa using hminute⟩
  omega

/-- The data points count the calls of their minutes, after every call of a sequence, exactly if no
pause is longer than the minutes that are kept. -/
theorem minutes_counted_iff (key : String) (hm : 1 ≤ m) (hsorted : calls.Pairwise (· ≤ ·)) :
    (∀ before, before <+: calls →
        MinutesCounted m before (metricsAfter key (before.map fun t => (m, t)))) ↔
      ShortPauses m calls := by
  constructor
  · intro hcounted
    induction calls using List.reverseRecOn with
    | nil => exact .nil
    | append_singleton calls t ih =>
      have hbefore : ShortPauses m calls := ih (List.pairwise_append.mp hsorted).1
        fun before hbefore => hcounted before (hbefore.trans (List.prefix_append _ _))
      refine List.isChain_append.mpr ⟨hbefore, .singleton t, fun prev hprev t' ht' => ?_⟩
      obtain rfl : t = t' := Option.some.inj ht'
      by_contra hlong
      have hcollected := collected_of_shortPauses key hm (List.pairwise_append.mp hsorted).1
        hbefore hprev
      have hall := hcounted (calls ++ [t]) (List.prefix_refl _)
      rw [List.map_append, List.map_singleton, metricsAfter_concat] at hall
      exact hcollected.not_counted hm (not_le.mp hlong) hall
  · intro hshort before hbefore
    have hsorted' := hsorted.sublist hbefore.sublist
    have hshort' : ShortPauses m before := hshort.prefix hbefore
    cases hlast : before.getLast? with
    | none =>
      rw [List.getLast?_eq_none_iff] at hlast
      subst hlast
      exact ⟨rfl, by show ((0 : ℕ) : ℤ) ≤ m; omega, fun _ h => by cases h⟩
    | some last => exact (collected_of_shortPauses key hm hsorted' hshort' hlast).counted

end Minutes

theorem minutes_counted_four :
    ((1 : ℤ) ≤ 3 ∧ [(0 : ℤ), 10, 60000, 130000].Pairwise (· ≤ ·)) ∧
      MinutesCounted 3 [0, 10, 60000, 130000]
        (metricsAfter "bull:q:metrics:completed" ([0, 10, 60000, 130000].map fun t => (3, t))) :=
  ⟨by decide, (minutes_counted_iff _ (by decide) (by decide)).mpr (by
    unfold ShortPauses
    decide) _ (List.prefix_refl _)⟩

/-- With one data point, a call in minute 5 reports the call of minute 0 as one of minute 4. -/
theorem pause_miscounted :
    (metricsAfter "bull:q:metrics:completed" [(1, 0), (1, 300000)]).data = [1] ∧
      callsIn [0, 300000] (minuteOf 300000 - 1 - 0) = 0 ∧
      ¬ MinutesCounted 1 [0, 300000]
        (metricsAfter "bull:q:metrics:completed" ([0, 300000].map fun t => (1, t))) := by
  refine ⟨by decide, by decide, fun h => ?_⟩
  have hpoint := h.points 300000 (by decide) 0 1 (by decide)
  revert hpoint
  decide

end BullMQ
