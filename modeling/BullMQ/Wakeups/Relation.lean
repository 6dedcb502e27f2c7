import BullMQ.Model.Enqueue
import BullMQ.Model.Dedup

/-!
# Markers announce the jobs of a queue

A worker that has found no job blocks on the marker key of its queue, and the scripts that put a job
into `wait` or `prioritized` leave the marker `0` there for it. `Wakes p` is what every script does
to the queue `p`: it leaves the marker or puts no job into an empty line, and it never takes the
marker away.
-/

namespace BullMQ

open Redis

variable {p q j : String} {s s' s'' : Store} {κ : Kind} {W : List Kind}

/-! ### The relation -/

/-- The queue hands out its jobs: it is not paused, and no global concurrency is set. -/
structure HandsOut (p : String) (s : Store) : Prop where
  running : s .metaPaused p = false
  unbounded : s .metaConcurrency p = none

/-- No job waits in line. -/
structure EmptyLine (p : String) (s : Store) : Prop where
  wait : s (.list .wait) p = []
  prioritized : s (.zset .prioritized) p = ∅

/-- The marker of an available job. -/
def Marks (p : String) (s : Store) : Prop := (s .marker p).zscore "0" = some 0

/-- The metadata of the queue is as it was, and its marker is not taken away. -/
structure KeepsMarker (p : String) (s s' : Store) : Prop where
  paused : s' .metaPaused p = s .metaPaused p
  concurrency : s' .metaConcurrency p = s .metaConcurrency p
  marker : Marks p s → Marks p s'

/-- Besides, an empty line stays empty or the marker announces what came. -/
structure Wakes (p : String) (s s' : Store) : Prop extends KeepsMarker p s s' where
  line : HandsOut p s → Marks p s' ∨ (EmptyLine p s → EmptyLine p s')

theorem KeepsMarker.refl (p : String) (s : Store) : KeepsMarker p s s := ⟨rfl, rfl, id⟩

theorem KeepsMarker.trans (h : KeepsMarker p s s') (h' : KeepsMarker p s' s'') :
    KeepsMarker p s s'' :=
  ⟨h'.paused.trans h.paused, h'.concurrency.trans h.concurrency, h'.marker ∘ h.marker⟩

theorem KeepsMarker.handsOut (h : KeepsMarker p s s') : HandsOut p s' ↔ HandsOut p s :=
  ⟨fun hs => ⟨h.paused ▸ hs.running, h.concurrency ▸ hs.unbounded⟩,
    fun hs => ⟨h.paused.trans hs.running, h.concurrency.trans hs.unbounded⟩⟩

theorem HandsOut.not_maxed (h : HandsOut p s) : isQueuePausedOrMaxed p s = false := by
  simp [isQueuePausedOrMaxed, h.running, h.unbounded]

/-- The families that a step may not write if it is to keep the marker. -/
def announceKinds : List Kind := [.metaPaused, .metaConcurrency, .marker]

/-- The families that say whether a queue has jobs in line. -/
def queuedKinds : List Kind := [.list .wait, .zset .prioritized]

theorem KeepsMarker.of_frame (hW : ∀ κ ∈ announceKinds, κ ∉ W) (hs : ∀ {κ}, κ ∉ W → s' κ = s κ) :
    KeepsMarker p s s' where
  paused := by rw [hs (hW _ (by decide))]
  concurrency := by rw [hs (hW _ (by decide))]
  marker := by rw [Marks, Marks, hs (hW .marker (by decide))]; exact id

theorem EmptyLine.of_eq (hwait : s' (.list .wait) p = s (.list .wait) p)
    (hprio : s' (.zset .prioritized) p = s (.zset .prioritized) p) (h : EmptyLine p s) :
    EmptyLine p s' :=
  ⟨hwait.trans h.wait, hprio.trans h.prioritized⟩

namespace Wakes

theorem refl (p : String) (s : Store) : Wakes p s s := ⟨.refl p s, fun _ => .inr id⟩

theorem trans (h : Wakes p s s') (h' : Wakes p s' s'') : Wakes p s s'' := by
  refine ⟨h.toKeepsMarker.trans h'.toKeepsMarker, fun hs => ?_⟩
  rcases h'.line (h.handsOut.mpr hs) with hmark | hempty
  · exact .inl hmark
  · exact (h.line hs).imp h'.marker fun hfirst => hempty ∘ hfirst

/-- A change of other families. -/
theorem of_frame (hW : ∀ κ ∈ announceKinds ++ queuedKinds, κ ∉ W) (hs : ∀ {κ}, κ ∉ W → s' κ = s κ) :
    Wakes p s s' where
  toKeepsMarker := .of_frame (fun κ hκ => hW κ (by simp [hκ])) hs
  line _ := .inr (.of_eq (by rw [hs (hW _ (by decide))]) (by rw [hs (hW _ (by decide))]))

/-- A line that shrinks. -/
theorem of_emptyLine (h : KeepsMarker p s s') (hempty : EmptyLine p s → EmptyLine p s') :
    Wakes p s s' :=
  ⟨h, fun _ => .inr hempty⟩

theorem foldl {α : Type} {f : Store → α → Store} (hf : ∀ s a, Wakes p s (f s a)) (l : List α)
    (s : Store) : Wakes p s (l.foldl f s) := by
  induction l generalizing s with
  | nil => exact .refl p s
  | cons a l ih => exact (hf s a).trans (ih _)

theorem ite {c : Prop} [Decidable c] {a b : Store} (ha : Wakes p s a) (hb : Wakes p s b) :
    Wakes p s (if c then a else b) := by
  split
  · exact ha
  · exact hb

theorem xadd (e : Event) : Wakes p s (s.xadd q e) :=
  of_frame (W := [.events]) (by decide) fun hκ => Store.xadd_of_ne _ _ _ (by simpa using hκ)

theorem hset (k : String) (f : Job → Job) : Wakes p s (s.hset k f) :=
  of_frame (W := [.hash]) (by decide) fun hκ => Store.hset_of_ne _ _ _ (by simpa using hκ)

theorem hdel (k : String) (f : Job → Job) : Wakes p s (s.hdel k f) :=
  of_frame (W := [.hash]) (by decide) fun hκ => Store.hdel_of_ne _ _ _ (by simpa using hκ)

theorem modify (hκ : κ ∉ announceKinds ++ queuedKinds) (k : String) (f : Val κ → Val κ) :
    Wakes p s (s.modify κ k f) :=
  of_frame (W := [κ]) (fun κ' h h' => hκ (by rw [List.mem_singleton] at h'; exact h' ▸ h))
    fun h => Keyspace.modify_of_ne _ (by simpa using h) ..

theorem set (hκ : κ ∉ announceKinds ++ queuedKinds) (k : String) (v : Val κ) :
    Wakes p s (s.set κ k v) :=
  of_frame (W := [κ]) (fun κ' h h' => hκ (by rw [List.mem_singleton] at h'; exact h' ▸ h))
    fun h => Keyspace.set_of_ne _ (by simpa using h) ..

end Wakes

/-! ### Putting jobs into line -/

/-- Jobs are put into the line of the queue `q` only. -/
structure Feeds (q p : String) (s s' : Store) : Prop extends KeepsMarker p s s' where
  others : q ≠ p → EmptyLine p s → EmptyLine p s'

theorem Feeds.refl (q p : String) (s : Store) : Feeds q p s s := ⟨.refl p s, fun _ => id⟩

theorem Feeds.trans (h : Feeds q p s s') (h' : Feeds q p s' s'') : Feeds q p s s'' :=
  ⟨h.toKeepsMarker.trans h'.toKeepsMarker, fun hne => h'.others hne ∘ h.others hne⟩

theorem Feeds.foldl {α : Type} {f : Store → α → Store} (hf : ∀ s a, Feeds q p s (f s a))
    (l : List α) (s : Store) : Feeds q p s (l.foldl f s) := by
  induction l generalizing s with
  | nil => exact .refl q p s
  | cons a l ih => exact (hf s a).trans (ih _)

/-- A change that puts no job into line. -/
theorem Feeds.of_frame (hW : ∀ κ ∈ announceKinds ++ queuedKinds, κ ∉ W)
    (hs : ∀ {κ}, κ ∉ W → s' κ = s κ) : Feeds q p s s' where
  toKeepsMarker := .of_frame (fun κ hκ => hW κ (by simp [hκ])) hs
  others _ := .of_eq (by rw [hs (hW _ (by decide))]) (by rw [hs (hW _ (by decide))])

theorem Feeds.modify (hκ : κ ∉ announceKinds) (f : Val κ → Val κ) :
    Feeds q p s (s.modify κ q f) where
  toKeepsMarker := .of_frame (W := [κ])
    (fun κ' h h' => hκ (by rw [List.mem_singleton] at h'; exact h' ▸ h))
    fun h => Keyspace.modify_of_ne _ (by simpa using h) ..
  others hne := by
    have hother : ∀ κ', s.modify κ q f κ' p = s κ' p := fun κ' => by
      by_cases h : κ' = κ
      · subst h
        rw [Keyspace.modify_self, Function.update_of_ne (Ne.symm hne)]
      · rw [Keyspace.modify_of_ne _ h]
    exact .of_eq (hother _) (hother _)

/-- The marker is left for what was put into line, unless the queue is paused or maxed. -/
theorem Feeds.mark (h : Feeds q p s s') {b : Bool} (hb : q = p → HandsOut p s → b = false) :
    Wakes p s (addBaseMarkerIfNeeded q b s') := by
  have hframe : ∀ {κ}, κ ≠ .marker → addBaseMarkerIfNeeded q b s' κ = s' κ := fun hκ =>
    addBaseMarkerIfNeeded_frame q b s' (by simpa using hκ)
  have hmarks : ∀ r, Marks r s' → Marks r (addBaseMarkerIfNeeded q b s') := by
    intro r hr
    unfold addBaseMarkerIfNeeded
    split
    · exact hr
    · simp only [Marks, Keyspace.modify_self, Function.update_apply]
      split
      · simp [SortedSet.zscore_zadd]
      · exact hr
  refine ⟨⟨?_, ?_, hmarks p ∘ h.marker⟩, fun hs => ?_⟩
  · rw [hframe (by decide), h.paused]
  · rw [hframe (by decide), h.concurrency]
  · by_cases hq : q = p
    · subst hq
      refine .inl ?_
      rw [hb rfl hs]
      simp [Marks, addBaseMarkerIfNeeded, Keyspace.modify_self, SortedSet.zscore_zadd]
    · exact .inr fun hempty => (h.others hq hempty).of_eq (by rw [hframe (by decide)])
        (by rw [hframe (by decide)])

/-! ### The helpers -/

namespace Wakes

theorem addJobInTargetList (c : PushCmd) {b : Bool} (hb : q = p → HandsOut p s → b = false) :
    Wakes p s (BullMQ.addJobInTargetList q c b j s) :=
  (Feeds.modify (by decide) _).mark hb

theorem addJobWithPriority (n : ℤ) {b : Bool} (hb : q = p → HandsOut p s → b = false) :
    Wakes p s (BullMQ.addJobWithPriority q n j b s) :=
  ((Feeds.modify (by decide) _).trans (.modify (by decide) _)).mark hb

/-- Whether the queue is paused or maxed, as the scripts ask before they put a job into line. -/
theorem asked : q = p → HandsOut p s → isQueuePausedOrMaxed q s = false := by
  rintro rfl hs
  exact hs.not_maxed

/-- The same, where the script has asked earlier. -/
theorem asked_of {t : Store} (h : KeepsMarker p t s) :
    q = p → HandsOut p s → isQueuePausedOrMaxed q t = false := by
  rintro rfl hs
  exact (h.handsOut.mp hs).not_maxed

theorem addDelayMarkerIfNeeded : Wakes p s (BullMQ.addDelayMarkerIfNeeded q s) := by
  have hframe : ∀ {κ}, κ ≠ .marker → BullMQ.addDelayMarkerIfNeeded q s κ = s κ := fun hκ =>
    addDelayMarkerIfNeeded_frame q s (by simpa using hκ)
  refine of_emptyLine ⟨by rw [hframe (by decide)], by rw [hframe (by decide)], fun hmark => ?_⟩
    (.of_eq (by rw [hframe (by decide)]) (by rw [hframe (by decide)]))
  unfold BullMQ.addDelayMarkerIfNeeded
  split
  · simp only [Marks, Keyspace.modify_self, Function.update_apply]
    split
    · next h =>
      subst h
      simpa [SortedSet.zscore_zadd, Marks] using hmark
    · exact hmark
  · exact hmark

theorem getOrSetMaxEvents : Wakes p s (BullMQ.getOrSetMaxEvents q s) :=
  of_frame (W := [.metaMaxLenEvents]) (by decide) fun hκ => getOrSetMaxEvents_frame q s hκ

theorem addDelayedJob (t d : ℤ) : Wakes p s (BullMQ.addDelayedJob q j t d s) :=
  ((modify (by decide) _ _).trans (xadd _)).trans addDelayMarkerIfNeeded

theorem moveJobToWait (c : PushCmd) : Wakes p s (BullMQ.moveJobToWait q j c s) :=
  (addJobInTargetList c asked).trans (xadd _)

theorem storeJob (n d : String) (o : JobOpts) (t : ℤ) (P : Option Parent) (r : Option String) :
    Wakes p s (BullMQ.storeJob q j n d o t P r s) :=
  of_frame (W := [.hash, .events]) (by decide) fun hκ => storeJob_frame _ _ _ _ _ _ _ _ _ hκ

theorem addParentDependency (P : Option Parent) (k : String) :
    Wakes p s (BullMQ.addParentDependency P k s) :=
  of_frame (W := [.dependencies]) (by decide) fun hκ =>
    addParentDependency_frame _ _ _ (by simpa using hκ)

theorem storeAndEnqueueJob (n d : String) (o : JobOpts) (t : ℤ) (P : Option Parent)
    (r : Option String) : Wakes p s (BullMQ.storeAndEnqueueJob q j n d o t P r s) := by
  have hstore : Wakes p s (BullMQ.storeJob q j n d o t P r s) := storeJob n d o t P r
  simp only [BullMQ.storeAndEnqueueJob]
  split
  · exact hstore.trans (addDelayedJob _ _)
  · exact (hstore.trans (ite (addJobWithPriority _ asked) (addJobInTargetList _ asked))).trans
      (xadd _)

theorem promoteDelayedJobs (t : ℤ) {b : Bool} (hb : q = p → HandsOut p s → b = false) :
    Wakes p s (BullMQ.promoteDelayedJobs q t b s) := by
  have hround : ∀ s j, Feeds q p s (promoteDelayedJob q s j) := by
    intro s j
    have hrest : ∀ t : Store, Feeds q p t ((t.xadd q (.waiting j (some "delayed"))).hset (q ++ j)
        fun job => { job with delay := some 0 }) := fun t =>
      .of_frame (W := [.events, .hash]) (by decide) fun hκ => by
        simp only [List.mem_cons, List.not_mem_nil, or_false, not_or] at hκ
        rw [Store.hset_of_ne _ _ _ hκ.2, Store.xadd_of_ne _ _ _ hκ.1]
    simp only [promoteDelayedJob]
    refine .trans ?_ (hrest _)
    split
    · exact .modify (by decide) _
    · exact (Feeds.modify (κ := .pc) (by decide) _).trans (.modify (by decide) _)
  simp only [BullMQ.promoteDelayedJobs]
  split
  · exact .refl p s
  · exact ((Feeds.modify (by decide) _).trans (.foldl hround _ _)).mark hb

end Wakes

end BullMQ
