import BullMQ.Naming.Scripts

/-!
# Jobs stay in the containers of their queue

`Housed p j s` says that the job `j` of the queue `p`, if it exists, is in a container. Adds,
fetches, finishes and stalled checks keep it so without any assumption on the other ids in the
store: a helper that takes an id out of a container puts it into another one or deletes the job.
`Keeps` states this of a step, together with what the lists hold.
-/

namespace BullMQ

open Redis

/-- The id is in one of the lists of the queue. -/
def OnList (p j : String) (s : Store) : Prop := ∃ l, j ∈ s (.list l) p

/-- The id is in a container of the queue. -/
def Held (p j : String) (s : Store) : Prop := OnList p j s ∨ ∃ z, j ∈ s (.zset z) p

/-- The job, if it exists, is in a container. -/
def Housed (p j : String) (s : Store) : Prop := s.jobExists (p ++ j) = true → Held p j s

/-- What a step keeps of an id: it stays on the lists, it stays in a container while the job exists,
and its job does not come into existence outside the containers. -/
structure Keeps (p j : String) (s s' : Store) : Prop where
  lists : OnList p j s → OnList p j s'
  held : Held p j s → Housed p j s'
  born : s'.jobExists (p ++ j) = true → s.jobExists (p ++ j) = true ∨ Held p j s'

theorem held_push (c : PushCmd) (l : ListKey) (q i : String) (s : Store) :
    Held q i (s.modify (.list l) q (c.push i)) := by
  refine .inl ⟨l, ?_⟩
  rw [Keyspace.modify_self, Function.update_self]
  exact PushCmd.mem_push.mpr (.inl rfl)

theorem held_zadd (z : ZSetKey) (n : ℤ) (q i : String) (s : Store) :
    Held q i (s.modify (.zset z) q (·.zadd n i)) := by
  refine .inr ⟨z, ?_⟩
  rw [Keyspace.modify_self, Function.update_self]
  exact SortedSet.mem_zadd.mpr (.inl rfl)

theorem Held.housed {p j : String} {s : Store} (h : Held p j s) : Housed p j s := fun _ => h

theorem Housed.keeps {p j : String} {s s' : Store} (h : Housed p j s) (hk : Keeps p j s s') :
    Housed p j s' := by
  intro hex
  obtain hbefore | hheld := hk.born hex
  · exact hk.held (h hbefore) hex
  · exact hheld

namespace Keeps

variable {p q i j k : String} {s s' s₁ : Store}

theorem refl (p j : String) (s : Store) : Keeps p j s s := ⟨id, fun h => h.housed, .inl⟩

theorem trans (h : Keeps p j s s₁) (h' : Keeps p j s₁ s') : Keeps p j s s' where
  lists hs := h'.lists (h.lists hs)
  held hs := (h.held hs).keeps h'
  born hex := by
    obtain hmid | hheld := h'.born hex
    · obtain hs | hheld := h.born hmid
      · exact .inl hs
      · exact .inr (h'.held hheld hex)
    · exact .inr hheld

/-! ### Single writes -/

/-- The containers only grow, and no job comes into existence. -/
theorem of_mono (hlist : ∀ l, j ∈ s (.list l) p → j ∈ s' (.list l) p)
    (hzset : ∀ z, j ∈ s (.zset z) p → j ∈ s' (.zset z) p)
    (hex : s'.jobExists (p ++ j) = true → s.jobExists (p ++ j) = true) : Keeps p j s s' := by
  have hlists : OnList p j s → OnList p j s' := fun ⟨l, hl⟩ => ⟨l, hlist l hl⟩
  refine ⟨hlists, fun hheld _ => ?_, fun h => .inl (hex h)⟩
  obtain hl | ⟨z, hz⟩ := hheld
  · exact .inl (hlists hl)
  · exact .inr ⟨z, hzset z hz⟩

theorem of_frame {W : List Kind} (hW : ∀ κ ∈ placeKinds, κ ∉ W) (hs : ∀ {κ}, κ ∉ W → s' κ = s κ) :
    Keeps p j s s' := by
  refine .of_mono (fun l => ?_) (fun z => ?_) fun hex => ?_
  · rw [hs (hW _ (by cases l <;> decide))]
    exact id
  · rw [hs (hW _ (by cases z <;> decide))]
    exact id
  · rwa [Store.jobExists, hs (hW _ (by decide)), ← Store.jobExists] at hex

theorem modify {κ : Kind} (hκ : κ ∉ placeKinds) (k : String) (f : Val κ → Val κ) :
    Keeps p j s (s.modify κ k f) :=
  .of_frame (W := [κ]) (fun κ' hκ' h => hκ (List.mem_singleton.mp h ▸ hκ')) fun h =>
    Keyspace.modify_of_ne _ (by simpa using h) ..

theorem set {κ : Kind} (hκ : κ ∉ placeKinds) (k : String) (v : Val κ) : Keeps p j s (s.set κ k v) :=
  .modify hκ k fun _ => v

theorem xadd (q : String) (e : Event) : Keeps p j s (s.xadd q e) := .modify (by decide) q _

theorem modify_list {l : ListKey} {f : List String → List String}
    (hf : q = p → j ∈ s (.list l) p → j ∈ f (s (.list l) p)) :
    Keeps p j s (s.modify (.list l) q f) := by
  refine .of_mono (fun l' hmem => ?_) (fun z => ?_) fun hex => ?_
  · by_cases hl : l' = l
    · subst hl
      rw [Keyspace.modify_self, Function.update_apply]
      split
      · next hq =>
        subst hq
        exact hf rfl hmem
      · exact hmem
    · rwa [Keyspace.modify_of_ne _ (by simpa using hl)]
  · rw [Keyspace.modify_of_ne _ (by simp)]
    exact id
  · rwa [Store.jobExists, Keyspace.modify_of_ne _ (by simp), ← Store.jobExists] at hex

theorem modify_zset {z : ZSetKey} {f : ZSet → ZSet}
    (hf : q = p → j ∈ s (.zset z) p → j ∈ f (s (.zset z) p)) :
    Keeps p j s (s.modify (.zset z) q f) := by
  refine .of_mono (fun l => ?_) (fun z' hmem => ?_) fun hex => ?_
  · rw [Keyspace.modify_of_ne _ (by simp)]
    exact id
  · by_cases hz : z' = z
    · subst hz
      rw [Keyspace.modify_self, Function.update_apply]
      split
      · next hq =>
        subst hq
        exact hf rfl hmem
      · exact hmem
    · rwa [Keyspace.modify_of_ne _ (by simpa using hz)]
  · rwa [Store.jobExists, Keyspace.modify_of_ne _ (by simp), ← Store.jobExists] at hex

theorem push (c : PushCmd) (l : ListKey) (q i : String) :
    Keeps p j s (s.modify (.list l) q (c.push i)) :=
  .modify_list fun _ hmem => PushCmd.mem_push.mpr (.inr hmem)

theorem zadd (z : ZSetKey) (n : ℤ) (q i : String) :
    Keeps p j s (s.modify (.zset z) q (·.zadd n i)) :=
  .modify_zset fun _ hmem => SortedSet.mem_zadd.mpr (.inr hmem)

/-- Fields are written to a job that exists, or is in a container. -/
theorem hset (hk : k = p ++ j → s.jobExists k = true ∨ Held p j s) (f : Job → Job) :
    Keeps p j s (s.hset k f) := by
  have hplaces : ∀ κ ∈ placeKinds, κ ≠ .hash → s.hset k f κ = s κ := fun κ _ hne =>
    Store.hset_of_ne _ _ _ hne
  have hheld : Held p j s → Held p j (s.hset k f) := by
    rintro (⟨l, hl⟩ | ⟨z, hz⟩)
    · exact .inl ⟨l, by rwa [Store.hset_of_ne _ _ _ (by simp)]⟩
    · exact .inr ⟨z, by rwa [Store.hset_of_ne _ _ _ (by simp)]⟩
  refine ⟨fun ⟨l, hl⟩ => ⟨l, by rwa [Store.hset_of_ne _ _ _ (by simp)]⟩,
    fun h => (hheld h).housed, fun hex => ?_⟩
  rw [Store.jobExists, Store.hset_hash] at hex
  split at hex
  · next heq =>
    obtain hbefore | hin := hk heq.symm
    · exact .inl (heq ▸ hbefore)
    · exact .inr (hheld hin)
  · exact .inl hex

theorem hdel (k : String) (f : Job → Job) : Keeps p j s (s.hdel k f) := by
  refine .of_mono (fun l => ?_) (fun z => ?_) fun hex => ?_
  · rw [Store.hdel_of_ne _ _ _ (by simp)]
    exact id
  · rw [Store.hdel_of_ne _ _ _ (by simp)]
    exact id
  · rw [Store.jobExists, Store.hdel_hash] at hex
    split at hex
    · simpa [Store.jobExists] using hex
    · exact hex

theorem removeJobKeys (k : String) : Keeps p j s (BullMQ.removeJobKeys k s) := by
  refine .of_mono (fun l => ?_) (fun z => ?_) fun hex => ?_
  · rw [removeJobKeys_frame _ _ (by cases l <;> decide)]
    exact id
  · rw [removeJobKeys_frame _ _ (by cases z <;> decide)]
    exact id
  · rw [Store.jobExists, removeJobKeys_hash, Function.update_apply] at hex
    split at hex
    · cases hex
    · exact hex

theorem foldl {α : Type} {f : Store → α → Store} {l : List α}
    (hf : ∀ a ∈ l, ∀ s, Keeps p j s (f s a)) : Keeps p j s (l.foldl f s) := by
  induction l generalizing s with
  | nil => exact .refl p j s
  | cons a l ih =>
    exact (hf a (.head _) s).trans (ih fun b hb => hf b (.tail _ hb))

/-! ### Ids that change hands -/

/-- Ids leave a set, and what follows houses those of them that have a job. -/
theorem of_filter {z : ZSetKey} {f : ZSet → ZSet} (hs₁ : s₁ = s.modify (.zset z) q f)
    (hlost : q = p → j ∈ s (.zset z) p → j ∉ f (s (.zset z) p) → Housed p j s')
    (h : Keeps p j s₁ s') : Keeps p j s s' := by
  subst hs₁
  by_cases hout : q = p ∧ j ∈ s (.zset z) p ∧ j ∉ f (s (.zset z) p)
  · obtain ⟨rfl, hin, hnot⟩ := hout
    have hhoused := hlost rfl hin hnot
    refine ⟨fun ⟨l, hl⟩ => h.lists ⟨l, by rwa [Keyspace.modify_of_ne _ (by simp)]⟩,
      fun _ => hhoused, fun hex => .inr (hhoused hex)⟩
  · refine Keeps.trans (.modify_zset fun hq hmem => ?_) h
    by_contra hnot
    exact hout ⟨hq, hmem, hnot⟩

theorem of_zrem {z : ZSetKey} (hlost : q = p → i = j → Housed p j s')
    (h : Keeps p j (s.modify (.zset z) q (·.zrem i)) s') : Keeps p j s s' := by
  refine of_filter rfl (fun hq hmem hnot => hlost hq ?_) h
  by_contra hne
  exact hnot (SortedSet.mem_zrem.mpr ⟨hmem, Ne.symm hne⟩)

/-- A container is left for another. -/
theorem held_of_same (h : Held p j s) (hs : ∀ κ ∈ placeKinds, κ ≠ .hash → s' κ = s κ) :
    Held p j s' := by
  obtain ⟨l, hl⟩ | ⟨z, hz⟩ := h
  · exact .inl ⟨l, by rwa [hs _ (by cases l <;> decide) (by simp)]⟩
  · exact .inr ⟨z, by rwa [hs _ (by cases z <;> decide) (by simp)]⟩

/-! ### Enqueueing -/

theorem getOrSetMaxEvents (q : String) : Keeps p j s (BullMQ.getOrSetMaxEvents q s) :=
  .of_frame (W := [.metaMaxLenEvents]) (by decide) fun hκ => getOrSetMaxEvents_frame _ _ hκ

theorem addBaseMarkerIfNeeded (q : String) (b : Bool) :
    Keeps p j s (BullMQ.addBaseMarkerIfNeeded q b s) :=
  .of_frame (W := [.marker]) (by decide) fun hκ => addBaseMarkerIfNeeded_frame _ _ _ hκ

end Keeps

/-- A step that keeps the ids of the queues and puts the id `i` of `q` into a container. -/
structure Houses (Q : QueueSet) (q i : String) (s s' : Store) : Prop where
  keeps : ∀ {p j}, Q.Base p → Keeps p j s s'
  held : Held q i s'

namespace Houses

variable {Q : QueueSet} {p q i j k : String} {s s' s₁ : Store}

theorem after (h : ∀ {p j}, Q.Base p → Keeps p j s s₁) (h' : Houses Q q i s₁ s') :
    Houses Q q i s s' := ⟨fun hp => (h hp).trans (h'.keeps hp), h'.held⟩

theorem then_frame {W : List Kind} (h : Houses Q q i s s₁) (hW : ∀ κ ∈ placeKinds, κ ∉ W)
    (hs : ∀ {κ}, κ ∉ W → s' κ = s₁ κ) : Houses Q q i s s' :=
  ⟨fun hp => (h.keeps hp).trans (.of_frame hW hs),
    Keeps.held_of_same h.held fun κ hκ _ => hs (hW κ hκ)⟩

theorem then_xadd (h : Houses Q q i s s₁) (r : String) (e : Event) :
    Houses Q q i s (s₁.xadd r e) :=
  h.then_frame (W := [.events]) (by decide) fun hκ => Store.xadd_of_ne _ _ _ (by simpa using hκ)

/-- Fields are written to the job that was just put into a container. -/
theorem then_hset (h : Houses Q q i s s₁) (hq : Q.Base q) (f : Job → Job) :
    Houses Q q i s (s₁.hset (q ++ i) f) := by
  refine ⟨fun hp => (h.keeps hp).trans (.hset (fun heq => .inr ?_) f),
    Keeps.held_of_same h.held fun κ _ hne => Store.hset_of_ne _ _ _ hne⟩
  obtain rfl := Q.apart hq hp heq
  obtain rfl := (String.append_right_inj _).mp heq
  exact h.held

theorem push (c : PushCmd) (l : ListKey) (q i : String) (s : Store) :
    Houses Q q i s (s.modify (.list l) q (c.push i)) :=
  ⟨fun _ => .push c l q i, held_push c l q i s⟩

theorem zadd (z : ZSetKey) (n : ℤ) (q i : String) (s : Store) :
    Houses Q q i s (s.modify (.zset z) q (·.zadd n i)) :=
  ⟨fun _ => .zadd z n q i, held_zadd z n q i s⟩

/-- What leaves a set is put into a container. -/
theorem of_zrem {z : ZSetKey} (h : Houses Q q i (s.modify (.zset z) q (·.zrem i)) s') :
    Houses Q q i s s' :=
  ⟨fun hp => .of_zrem (fun hq hi => by subst hq hi; exact h.held.housed) (h.keeps hp), h.held⟩

/-! ### Enqueueing -/

theorem addJobInTargetList (c : PushCmd) (b : Bool) (q i : String) (s : Store) :
    Houses Q q i s (BullMQ.addJobInTargetList q c b i s) :=
  (push c .wait q i s).then_frame (W := [.marker]) (by decide) fun hκ =>
    addBaseMarkerIfNeeded_frame _ _ _ hκ

theorem addJobWithPriority (n : ℤ) (b : Bool) (q i : String) (s : Store) :
    Houses Q q i s (BullMQ.addJobWithPriority q n i b s) :=
  (after (fun _ => .modify (κ := .pc) (by decide) q (· + 1)) (zadd .prioritized _ q i _)).then_frame
    (W := [.marker]) (by decide) fun hκ => addBaseMarkerIfNeeded_frame _ _ _ hκ

theorem addDelayedJob (t d : ℤ) (q i : String) (s : Store) :
    Houses Q q i s (BullMQ.addDelayedJob q i t d s) :=
  ((zadd .delayed _ q i s).then_xadd q _).then_frame (W := [.marker]) (by decide) fun hκ =>
    addDelayMarkerIfNeeded_frame _ _ hκ

theorem moveJobToWait (c : PushCmd) (q i : String) (s : Store) :
    Houses Q q i s (BullMQ.moveJobToWait q i c s) := (addJobInTargetList c _ q i s).then_xadd q _

/-- A job is stored and then put into a container. -/
theorem of_storeJob (hq : Q.Base q) {n d : String} {o : JobOpts} {t : ℤ} {P : Option Parent}
    {r : Option String} (h : Houses Q q i (BullMQ.storeJob q i n d o t P r s) s') :
    Houses Q q i s s' := by
  have hsame : ∀ κ ∈ placeKinds, κ ≠ .hash → BullMQ.storeJob q i n d o t P r s κ = s κ := by
    intro κ hκ hne
    refine storeJob_frame _ _ _ _ _ _ _ _ _ fun hmem => ?_
    obtain rfl | rfl : κ = .hash ∨ κ = .events := by simpa using hmem
    · exact hne rfl
    · exact absurd hκ (by decide)
  refine ⟨fun {p j} hp => ⟨fun ⟨l, hl⟩ => (h.keeps hp).lists ⟨l, ?_⟩, fun hheld =>
    (h.keeps hp).held (Keeps.held_of_same hheld hsame), fun hex => ?_⟩, h.held⟩
  · rwa [hsame _ (by cases l <;> decide) (by simp)]
  · obtain hmid | hheld := (h.keeps hp).born hex
    · by_cases heq : p ++ j = q ++ i
      · obtain rfl := Q.apart hp hq heq
        obtain rfl := (String.append_right_inj _).mp heq
        exact .inr h.held
      · rw [Store.jobExists, BullMQ.storeJob, Store.xadd_of_ne _ _ _ (by decide), Store.hset_hash,
          if_neg heq] at hmid
        exact .inl hmid
    · exact .inr hheld

theorem storeAndEnqueueJob (hq : Q.Base q) (i n d : String) (o : JobOpts) (t : ℤ)
    (P : Option Parent) (r : Option String) (s : Store) :
    Houses Q q i s (BullMQ.storeAndEnqueueJob q i n d o t P r s) := by
  refine .of_storeJob hq (n := n) (d := d) (o := o) (t := t) (P := P) (r := r) ?_
  simp only [BullMQ.storeAndEnqueueJob]
  split
  · exact .addDelayedJob _ _ q i _
  · split
    · exact (addJobWithPriority _ _ q i _).then_xadd q _
    · exact (addJobInTargetList _ _ q i _).then_xadd q _

theorem promoteDelayedJob (hq : Q.Base q) (i : String) (s : Store) :
    Houses Q q i s (BullMQ.promoteDelayedJob q s i) := by
  simp only [BullMQ.promoteDelayedJob]
  split
  · exact ((push .lpush .wait q i s).then_xadd q _).then_hset hq _
  · exact ((after (fun _ => .modify (κ := .pc) (by decide) q (· + 1))
      (zadd .prioritized _ q i _)).then_xadd q _).then_hset hq _

theorem moveParentToWait (P : Parent) (t : ℤ) (s : Store) :
    Houses Q P.base P.id s (BullMQ.moveParentToWait P t s) := by
  simp only [BullMQ.moveParentToWait]
  split
  · exact ((zadd .delayed _ _ _ s).then_xadd _ _).then_frame (W := [.marker]) (by decide) fun hκ =>
      addDelayMarkerIfNeeded_frame _ _ hκ
  · split
    · exact (addJobInTargetList _ _ _ _ s).then_xadd _ _
    · exact (addJobWithPriority _ _ _ _ s).then_xadd _ _

end Houses

namespace Keeps

variable {Q : QueueSet} {p q i j k : String} {s s' s₁ : Store}

/-- Due jobs leave the delayed set one and all, and are put elsewhere one by one. -/
theorem promoteDelayedJobs (hp : Q.Base p) (hq : Q.Base q) (t : ℤ) (b : Bool) :
    Keeps p j s (BullMQ.promoteDelayedJobs q t b s) := by
  have hturn : ∀ i s, Keeps p j s (BullMQ.promoteDelayedJob q s i) := fun i s =>
    (Houses.promoteDelayedJob hq i s).keeps hp
  simp only [BullMQ.promoteDelayedJobs]
  split
  · exact .refl p j s
  · refine .trans (show Keeps p j s ((dueJobs q t s).foldl (BullMQ.promoteDelayedJob q)
      (s.modify (.zset .delayed) q (·.zremAll (dueJobs q t s)))) from ?_)
      (.addBaseMarkerIfNeeded q b)
    refine .of_filter rfl (fun hqp hmem hnot => ?_) (.foldl fun i _ s => hturn i s)
    subst hqp
    have hdue : j ∈ dueJobs q t s := by
      by_contra hout
      exact hnot (SortedSet.mem_zremAll.mpr ⟨hmem, hout⟩)
    obtain ⟨before, after, hsplit⟩ := List.append_of_mem hdue
    rw [hsplit, List.foldl_append, List.foldl_cons]
    exact (Houses.promoteDelayedJob hq j _).held.housed.keeps (.foldl fun i _ s => hturn i s)

/-! ### Parents -/

theorem moveParentToWaitIfNeeded (hp : Q.Base p) (P : Parent) (t : ℤ) :
    Keeps p j s (BullMQ.moveParentToWaitIfNeeded P t s) := by
  unfold BullMQ.moveParentToWaitIfNeeded
  split
  · exact (Houses.of_zrem (.moveParentToWait P t _)).keeps hp
  · exact .refl p j s

theorem moveParentToWaitIfNoPendingDependencies (hp : Q.Base p) (P : Parent) (t : ℤ) :
    Keeps p j s (BullMQ.moveParentToWaitIfNoPendingDependencies P t s) := by
  unfold BullMQ.moveParentToWaitIfNoPendingDependencies
  split
  · exact .moveParentToWaitIfNeeded hp P t
  · exact .refl p j s

theorem updateParentDepsIfNeeded (hp : Q.Base p) (P : Parent) (k v : String) (t : ℤ) :
    Keeps p j s (BullMQ.updateParentDepsIfNeeded P k v t s) :=
  .trans (.modify (κ := .processed) (by decide) P.key _)
    (.moveParentToWaitIfNoPendingDependencies hp P t)

theorem handleChildFailureAndMoveParentToWait (hp : Q.Base p) (P : Parent) (k : String) (t : ℤ) :
    Keeps p j s (BullMQ.handleChildFailureAndMoveParentToWait P k t s) := by
  simp only [BullMQ.handleChildFailureAndMoveParentToWait]
  split
  · next hex =>
    have hmove : ∀ (s₁ : Store) (z : ZSetKey) (f : Job → Job), s₁.jobExists P.key = true →
        Keeps p j s₁ (moveParentToWait P t
          (Store.hset (s₁.modify (.zset z) P.base (·.zrem P.id)) P.key f)) := by
      intro s₁ z f hex₁
      have hset : ∀ {p j}, Q.Base p → Keeps p j (s₁.modify (.zset z) P.base (·.zrem P.id))
          (Store.hset (s₁.modify (.zset z) P.base (·.zrem P.id)) P.key f) := fun _ =>
        .hset (fun _ => .inl (by
          rwa [Store.jobExists, Keyspace.modify_of_ne _ (by simp), ← Store.jobExists])) f
      exact (Houses.of_zrem (.after hset (.moveParentToWait P t _))).keeps hp
    split
    · exact hmove s .waitingChildren _ hex
    · split
      · refine .trans (.hset (fun _ => .inl hex) _) (hmove _ .delayed _ ?_)
        rw [Store.jobExists, Store.hset_hash, if_pos rfl]
        rfl
      · split
        · exact .refl p j s
        · exact .hset (fun _ => .inl hex) _
  · exact .refl p j s

theorem moveChildFromDependenciesIfNeeded (hp : Q.Base p) (R : Option Parent) (k r : String)
    (t : ℤ) : Keeps p j s (BullMQ.moveChildFromDependenciesIfNeeded R k r t s) := by
  cases R with
  | none => exact .refl p j s
  | some P =>
    have hleft : Keeps p j s (s.modify .dependencies P.key (·.srem k)) :=
      .modify (κ := .dependencies) (by decide) P.key _
    simp only [BullMQ.moveChildFromDependenciesIfNeeded]
    split
    · split
      · exact (hleft.trans (.modify (κ := .unsuccessful) (by decide) P.key _)).trans
          (.handleChildFailureAndMoveParentToWait hp P k t)
      · split
        · exact (hleft.trans (.modify (κ := .failedChildren) (by decide) P.key _)).trans
            (.moveParentToWaitIfNeeded hp P t)
        · split
          · have hfree := hleft.trans (.moveParentToWaitIfNoPendingDependencies hp P t)
            split
            · exact hfree.trans (.modify (κ := .failedChildren) (by decide) P.key _)
            · exact hfree
          · exact .refl p j s
    · exact .refl p j s

theorem unlinkChild (hp : Q.Base p) (k k' : String) :
    Keeps p j s (BullMQ.unlinkChild k k' s).2 := by
  have hleft : Keeps p j s (s.modify .dependencies k' (·.srem k)) :=
    .modify (κ := .dependencies) (by decide) k' _
  simp only [BullMQ.unlinkChild]
  split
  · split
    · split
      · exact hleft.trans
          ((Houses.of_zrem ((Houses.addJobInTargetList _ _ _ _ _).then_xadd _ _)).keeps hp)
      · exact hleft
    · exact hleft
  · exact .refl p j s

theorem removeParentDependencyKey (hp : Q.Base p) (k : String) (o : Option String) :
    Keeps p j s (BullMQ.removeParentDependencyKey k o s).2 := by
  unfold BullMQ.removeParentDependencyKey
  split
  · exact .unlinkChild hp _ _
  · split
    · split
      · exact .unlinkChild hp _ _
      · exact .refl p j s
    · exact .refl p j s

theorem addParentDependency (P : Option Parent) (k : String) :
    Keeps p j s (BullMQ.addParentDependency P k s) :=
  .of_frame (W := [.dependencies]) (by decide) fun hκ => addParentDependency_frame _ _ _
    (by simpa using hκ)

/-! ### Deduplication -/

theorem setDeduplicationKey (k i : String) (t : Option ℤ) :
    Keeps p j s (BullMQ.setDeduplicationKey k i t s) := .set (κ := .de) (by decide) _ _

theorem storeDeduplicatedNextJob (q : String) (de : DeduplicationOpts) (c i : String)
    (a : AddArgs) :
    Keeps p j s (BullMQ.storeDeduplicatedNextJob q de c i a s).2 :=
  .of_frame (by decide) fun hκ => storeDeduplicatedNextJob_frame q de c i a s hκ

theorem deduplicateJobWithoutReplace (q : String) (de : DeduplicationOpts) (i : String)
    (a : AddArgs) : Keeps p j s (BullMQ.deduplicateJobWithoutReplace q de i a s).2 :=
  .of_frame (by decide) fun hκ => deduplicateJobWithoutReplace_frame q de i a s hκ

/-- The delayed job that is replaced leaves its set and is deleted. -/
theorem removeDelayedJob (hp : Q.Base p) (q c i d : String) :
    Keeps p j s (BullMQ.removeDelayedJob q c i d s).2 := by
  simp only [BullMQ.removeDelayedJob]
  split
  · refine .of_zrem (fun hq hc hex => ?_) ((Keeps.removeJobKeys _).trans ((Keeps.xadd _ _).trans
      (.xadd _ _)))
    subst hq hc
    rw [Store.jobExists, Store.xadd_of_ne _ _ _ (by decide), Store.xadd_of_ne _ _ _ (by decide),
      removeJobKeys_hash, Function.update_self] at hex
    cases hex
  · exact .refl p j s

theorem deduplicateJob (hp : Q.Base p) (q : String) (de : DeduplicationOpts) (i : String)
    (a : AddArgs) : Keeps p j s (BullMQ.deduplicateJob q de i a s).2 := by
  simp only [BullMQ.deduplicateJob]
  split
  · split
    · next current _ =>
      have hrem : Keeps p j s (BullMQ.removeDelayedJob q current.jobId i de.id s).2 :=
        .removeDelayedJob hp q current.jobId i de.id
      split
      · next s' heq =>
        rw [heq] at hrem
        split
        · exact hrem.trans (.setDeduplicationKey _ _ _)
        · split
          · exact hrem.trans (.set (κ := .de) (by decide) _ _)
          · exact hrem.trans (.setDeduplicationKey _ _ _)
      · next s' heq =>
        rw [heq] at hrem
        exact hrem.trans (.storeDeduplicatedNextJob _ _ _ _ _)
    · exact .setDeduplicationKey _ _ _
  · exact .deduplicateJobWithoutReplace q de i a

theorem removeDeduplicationKeyIfNeededOnFinalization (q : String) (o : Option String) (i : String) :
    Keeps p j s (BullMQ.removeDeduplicationKeyIfNeededOnFinalization q o i s) :=
  .of_frame (W := [.de]) (by decide) fun hκ =>
    removeDeduplicationKeyIfNeededOnFinalization_frame _ _ _ _ (by simpa using hκ)

theorem requeueDeduplicatedJob (hp : Q.Base p) (hq : Q.Base q) (o : Option String) (t : ℤ) :
    Keeps p j s (BullMQ.requeueDeduplicatedJob q o t s) := by
  unfold BullMQ.requeueDeduplicatedJob
  split
  · exact .refl p j s
  · split
    · exact .refl p j s
    · simp only
      refine .trans ?_ (.set (κ := .dn) (by decide) _ _)
      refine .trans ?_ (.addParentDependency _ _)
      refine .trans ?_ ((Houses.storeAndEnqueueJob hq _ _ _ _ _ _ _ _).keeps hp)
      refine .trans ?_ (.getOrSetMaxEvents q)
      exact .trans (.modify (κ := .id) (by decide) q _) (.setDeduplicationKey _ _ _)

/-! ### Adds -/

theorem handleDuplicatedJob (hp : Q.Base p) (hex : s.jobExists (q ++ i) = true) (P : Option Parent)
    (t : ℤ) : Keeps p j s (BullMQ.handleDuplicatedJob q i P t s).2 := by
  have hupd : Keeps p j s (updateExistingJobsParent q i P t s) := by
    cases P with
    | none => exact .refl p j s
    | some P =>
      simp only [updateExistingJobsParent]
      split
      · refine .trans (.updateParentDepsIfNeeded hp _ _ _ _) (.hset (fun _ => .inl ?_) _)
        rwa [Store.jobExists, updateParentDepsIfNeeded_frame _ _ _ _ _ (by decide),
          ← Store.jobExists]
      · refine .trans (.modify (κ := .dependencies) (by decide) _ _) (.hset (fun _ => .inl ?_) _)
        rwa [Store.jobExists, Keyspace.modify_of_ne _ (by decide), ← Store.jobExists]
  unfold BullMQ.handleDuplicatedJob
  split
  · exact hupd.trans (.xadd q _)
  · split
    · exact hupd.trans (.xadd q _)
    · split
      · exact .refl p j s
      · exact .xadd q _

theorem drawId (q : String) : Keeps p j s (BullMQ.drawId q s) :=
  .trans (.modify (κ := .id) (by decide) q _) (.getOrSetMaxEvents q)

/-- A mode of adding that keeps ids and puts the new one into a container. -/
structure Adds (Q : QueueSet) (q : String) (mode : AddMode) : Prop where
  deduplicate : ∀ {p j i de a s}, Q.Base p → Keeps p j s (mode.deduplicate de i a s).2
  enqueue : ∀ i a s, Houses Q q i s (mode.enqueue i a s)

theorem standardMode_adds : Adds Q q (standardMode q) :=
  ⟨fun hp => .deduplicateJob hp q _ _ _,
    fun i _ s => (Houses.addJobInTargetList _ _ q i s).then_xadd q _⟩

theorem delayedMode_adds : Adds Q q (delayedMode q) :=
  ⟨fun hp => .deduplicateJob hp q _ _ _, fun i _ s => .addDelayedJob _ _ q i s⟩

theorem prioritizedMode_adds : Adds Q q (prioritizedMode q) :=
  ⟨fun hp => .deduplicateJob hp q _ _ _,
    fun i _ s => (Houses.addJobWithPriority _ _ q i s).then_xadd q _⟩

theorem parentMode_adds : Adds Q q (parentMode q) :=
  ⟨fun _ => .deduplicateJobWithoutReplace q _ _ _,
    fun i _ s => (Houses.zadd .waitingChildren _ q i s).then_xadd q _⟩

theorem addJobWith {mode : AddMode} (hmode : Adds Q q mode) (hp : Q.Base p) (hq : Q.Base q)
    (a : AddArgs) : Keeps p j s (BullMQ.addJobWith mode q a s).2 := by
  have hstore : ∀ i s, Keeps p j s (storeNewJob mode q i a s) := fun i s =>
    .trans ((Houses.of_storeJob hq (hmode.enqueue i a _)).keeps hp) (.addParentDependency _ _)
  obtain ⟨-, heq⟩ | ⟨-, hex, -, heq⟩ | ⟨i, -, -, heq⟩ := addJobWith_ends mode q a s <;> rw [heq]
  · exact .refl p j s
  · refine .trans (.drawId q) (.handleDuplicatedJob hp ?_ _ _)
    rwa [Store.jobExists, drawId_frame _ _ (by decide), ← Store.jobExists]
  · refine .trans (.drawId q) ?_
    unfold addNewJob
    cases a.opts.de with
    | none => exact hstore i _
    | some de =>
      have hded : Keeps p j (BullMQ.drawId q s) (mode.deduplicate de i a (BullMQ.drawId q s)).2 :=
        hmode.deduplicate hp
      rcases hres : mode.deduplicate de i a (BullMQ.drawId q s) with ⟨_ | winner, s'⟩ <;>
        rw [hres] at hded
      · simp only [hres]
        exact hded.trans (hstore i s')
      · simpa only [hres] using hded

end Keeps

end BullMQ
