import BullMQ.Model.Store

/-!
# Where a job is

A job id can occur in eight containers of a queue: three lists and five sorted sets. `occ` counts
its occurrences in all of them. Scripts move ids between containers; what they do is described by
relations between the store before and after:

* `SamePlaces`: the counts and the set of existing job hashes are as they were;
* `Enters p j`: the id `j` occurs once more in the queue `p`; read backwards, it has left;
* `Deletes p l`: the ids of `l` occur nowhere in `p` any more and their hashes are gone.

A move is an id that leaves and enters again (`Enters.move`).
-/

namespace BullMQ

open Redis

/-! ### Occurrences -/

/-- The containers of job ids. -/
abbrev Container := ListKey ⊕ ZSetKey

/-- The family of a container. -/
def Container.kind : Container → Kind
  | .inl l => .list l
  | .inr z => .zset z

/-- How often an id occurs in a container. -/
def countIn (s : Store) : Container → String → String → ℕ
  | .inl l, p, j => (s (.list l) p).count j
  | .inr z, p, j => (s (.zset z) p).card j

/-- How often an id occurs in the containers of a queue. -/
def occ (s : Store) (p j : String) : ℕ :=
  countIn s (.inl .wait) p j + countIn s (.inl .paused) p j + countIn s (.inl .active) p j +
    countIn s (.inr .prioritized) p j + countIn s (.inr .delayed) p j +
    countIn s (.inr .completed) p j + countIn s (.inr .failed) p j +
    countIn s (.inr .waitingChildren) p j

variable {s s' s'' : Store} {p q j i : String}

theorem countIn_le_occ (s : Store) (c : Container) (p j : String) :
    countIn s c p j ≤ occ s p j := by
  rcases c with (_ | _ | _) | (_ | _ | _ | _ | _) <;> unfold occ <;> omega

/-- An id that occurs in one container only. -/
theorem countIn_eq_zero_of_ne {c d : Container} (h : occ s p j ≤ 1) (hc : countIn s c p j ≠ 0)
    (hne : d ≠ c) : countIn s d p j = 0 := by
  unfold occ at h
  rcases c with (_ | _ | _) | (_ | _ | _ | _ | _) <;>
    rcases d with (_ | _ | _) | (_ | _ | _ | _ | _) <;>
    first
    | exact absurd rfl hne
    | omega

theorem exists_container (h : occ s p j ≠ 0) : ∃ c, countIn s c p j ≠ 0 := by
  by_contra hno
  simp only [not_exists, not_not] at hno
  exact h (by simp [occ, hno])

/-- If one container changes, the count changes as that container does. -/
theorem occ_of_one (c : Container) (h : ∀ c', c' ≠ c → countIn s' c' p j = countIn s c' p j) :
    occ s' p j + countIn s c p j = occ s p j + countIn s' c p j := by
  unfold occ
  rcases c with (_ | _ | _) | (_ | _ | _ | _ | _) <;> simp (disch := decide) only [h] <;> omega

theorem mem_zset_iff {z : ZSetKey} : j ∈ s (.zset z) p ↔ countIn s (.inr z) p j ≠ 0 := by
  rw [← SortedSet.card_pos]
  exact Nat.pos_iff_ne_zero

theorem mem_list_iff {l : ListKey} : j ∈ s (.list l) p ↔ countIn s (.inl l) p j ≠ 0 := by
  rw [← List.count_pos_iff]
  exact Nat.pos_iff_ne_zero

theorem occ_ne_zero_of_mem_list {l : ListKey} (h : j ∈ s (.list l) p) : occ s p j ≠ 0 := by
  have hc := mem_list_iff.mp h
  have hle := countIn_le_occ s (.inl l) p j
  omega

theorem occ_ne_zero_of_mem_zset {z : ZSetKey} (h : j ∈ s (.zset z) p) : occ s p j ≠ 0 := by
  have hc := mem_zset_iff.mp h
  have hle := countIn_le_occ s (.inr z) p j
  omega

theorem notMem_zset_of_occ {z : ZSetKey} (h : occ s p j = 0) : j ∉ s (.zset z) p := fun hj =>
  occ_ne_zero_of_mem_zset hj h

/-! ### Relations between stores -/

/-- The occurrences and the existing hashes are as they were. -/
structure SamePlaces (s s' : Store) : Prop where
  occ : ∀ q i, occ s' q i = occ s q i
  exist : ∀ k, s'.jobExists k = s.jobExists k

/-- The id `j` occurs once more in the queue `p`. -/
structure Enters (p j : String) (s s' : Store) : Prop where
  occ : ∀ q i, BullMQ.occ s' q i = BullMQ.occ s q i + if q = p ∧ i = j then 1 else 0
  exist : ∀ k, s'.jobExists k = s.jobExists k

/-- The ids of `l` occur nowhere in the queue `p` any more and their hashes are gone. -/
structure Deletes (p : String) (l : List String) (s s' : Store) : Prop where
  occ : ∀ q i, BullMQ.occ s' q i = if q = p ∧ i ∈ l then 0 else BullMQ.occ s q i
  exist : ∀ k, s'.jobExists k = (s.jobExists k && decide (∀ i ∈ l, k ≠ p ++ i))

namespace SamePlaces

theorem refl (s : Store) : SamePlaces s s := ⟨fun _ _ => rfl, fun _ => rfl⟩

theorem trans (h : SamePlaces s s') (h' : SamePlaces s' s'') : SamePlaces s s'' :=
  ⟨fun q i => (h'.occ q i).trans (h.occ q i), fun k => (h'.exist k).trans (h.exist k)⟩

theorem symm (h : SamePlaces s s') : SamePlaces s' s :=
  ⟨fun q i => (h.occ q i).symm, fun k => (h.exist k).symm⟩

end SamePlaces

/-- The families that say where jobs are. -/
def placeKinds : List Kind :=
  [.hash, .list .wait, .list .paused, .list .active, .zset .prioritized, .zset .delayed,
    .zset .completed, .zset .failed, .zset .waitingChildren]

theorem countIn_congr {c : Container} (h : s' c.kind = s c.kind) (p j : String) :
    countIn s' c p j = countIn s c p j := by
  rcases c with l | z
  · exact congrArg (fun f : String → List String => (f p).count j) h
  · exact congrArg (fun f : String → ZSet => (f p).card j) h

theorem occ_congr (h : ∀ c : Container, s' c.kind = s c.kind) (p j : String) :
    occ s' p j = occ s p j := by
  have hc : ∀ c : Container, countIn s' c p j = countIn s c p j := fun c =>
    countIn_congr (h c) p j
  simp only [occ, hc]

/-- A change of other families keeps the places. -/
theorem SamePlaces.of_frame {W : List Kind} (hW : ∀ κ ∈ placeKinds, κ ∉ W)
    (hs : ∀ {κ}, κ ∉ W → s' κ = s κ) : SamePlaces s s' := by
  have hc : ∀ c : Container, s' c.kind = s c.kind := by
    intro c
    refine hs (hW _ ?_)
    rcases c with (_ | _ | _) | (_ | _ | _ | _ | _) <;> decide
  refine ⟨fun q i => ?_, fun k => ?_⟩
  · exact occ_congr hc q i
  · rw [Store.jobExists, hs (hW .hash (by decide)), Store.jobExists]

/-- A change of one container and of other families. -/
theorem occ_of_frame {W : List Kind} (c : Container) (hs : ∀ {κ}, κ ∉ W → s' κ = s κ)
    (hW : ∀ c', c' ≠ c → Container.kind c' ∉ W) (p j : String) :
    occ s' p j + countIn s c p j = occ s p j + countIn s' c p j :=
  occ_of_one c fun c' hc => countIn_congr (hs (hW c' hc)) p j

theorem SamePlaces.hset {k : String} {f : Job → Job} (h : s.jobExists k = true) :
    SamePlaces s (s.hset k f) := by
  refine ⟨fun q i => ?_, fun k' => ?_⟩
  · have hc : ∀ c : Container, (s.hset k f) c.kind = s c.kind := fun c =>
      Store.hset_of_ne _ _ _ (by rcases c with _ | _ <;> simp [Container.kind])
    exact occ_congr hc q i
  · rw [Store.jobExists, Store.hset_hash]
    split
    · next hk =>
      subst hk
      rw [h]
      rfl
    · rfl

theorem SamePlaces.hdel (s : Store) (k : String) (f : Job → Job) : SamePlaces s (s.hdel k f) := by
  refine ⟨fun q i => ?_, fun k' => ?_⟩
  · have hc : ∀ c : Container, (s.hdel k f) c.kind = s c.kind := fun c =>
      Store.hdel_of_ne _ _ _ (by rcases c with _ | _ <;> simp [Container.kind])
    exact occ_congr hc q i
  · rw [Store.jobExists, Store.hdel_hash, Store.jobExists]
    split <;> simp

/-! ### Entering and leaving -/

namespace Enters

theorem same_left (h : SamePlaces s s') (h' : Enters p j s' s'') : Enters p j s s'' :=
  ⟨fun q i => by rw [h'.occ, h.occ], fun k => (h'.exist k).trans (h.exist k)⟩

theorem same_right (h : Enters p j s s') (h' : SamePlaces s' s'') : Enters p j s s'' :=
  ⟨fun q i => by rw [h'.occ, h.occ], fun k => (h'.exist k).trans (h.exist k)⟩

/-- An id that left and entered again has moved. -/
theorem move (h : Enters p j s' s) (h' : Enters p j s' s'') : SamePlaces s s'' :=
  ⟨fun q i => by rw [h'.occ, h.occ], fun k => (h'.exist k).trans (h.exist k).symm⟩

/-- An id that left a queue where it occurred at most once is gone. -/
theorem occ_eq_zero (h : Enters p j s' s) (hs : BullMQ.occ s p j ≤ 1) : BullMQ.occ s' p j = 0 := by
  have hocc := h.occ p j
  rw [if_pos ⟨rfl, rfl⟩] at hocc
  omega

/-- A write to one container of one queue that changes the count of one id by one. -/
theorem of_countIn {W : List Kind} (c : Container) (hs : ∀ {κ}, κ ∉ W → s' κ = s κ)
    (hW : ∀ c', c' ≠ c → Container.kind c' ∉ W) (hhash : Kind.hash ∉ W)
    (hc : ∀ q i, countIn s' c q i = countIn s c q i + if q = p ∧ i = j then 1 else 0) :
    Enters p j s s' := by
  refine ⟨fun q i => ?_, fun k => ?_⟩
  · have hone := occ_of_frame c hs hW q i
    rw [hc] at hone
    omega
  · rw [Store.jobExists, hs hhash, Store.jobExists]

end Enters

theorem kind_ne_of_ne {c c' : Container} (h : c' ≠ c) : c'.kind ∉ [c.kind] := by
  rcases c with l | z <;> rcases c' with l' | z' <;> simp [Container.kind] at h ⊢ <;> exact h

theorem modify_notMem {κ : Kind} {p : String} {f : Val κ → Val κ} {κ' : Kind} (h : κ' ∉ [κ]) :
    s.modify κ p f κ' = s κ' :=
  Keyspace.modify_of_ne _ (by simpa using h) ..

/-- Pushing an id to a list. -/
theorem enters_push (s : Store) (l : ListKey) (p : String) (c : PushCmd) (j : String) :
    Enters p j s (s.modify (.list l) p (c.push j)) := by
  refine .of_countIn (W := [.list l]) (.inl l) modify_notMem (fun _ => kind_ne_of_ne) (by simp)
    fun q i => ?_
  simp only [countIn, Keyspace.modify_self, Function.update_apply]
  by_cases hq : q = p
  · subst hq
    simp [eq_comm]
  · simp [hq]

/-- Adding an id to a sorted set it is not in. -/
theorem enters_zadd {z : ZSetKey} (h : j ∉ s (.zset z) p) (k : ℤ) :
    Enters p j s (s.modify (.zset z) p (·.zadd k j)) := by
  refine .of_countIn (W := [.zset z]) (.inr z) modify_notMem (fun _ => kind_ne_of_ne) (by simp)
    fun q i => ?_
  simp only [countIn, Keyspace.modify_self, Function.update_apply]
  by_cases hq : q = p
  · subst hq
    by_cases hi : i = j
    · subst hi
      simp [SortedSet.card_eq, h]
    · simp [SortedSet.card_eq, hi]
  · simp [hq]

/-- Removing an id from a sorted set it is in. -/
theorem leaves_zrem {z : ZSetKey} (h : j ∈ s (.zset z) p) :
    Enters p j (s.modify (.zset z) p (·.zrem j)) s := by
  refine .of_countIn (W := [.zset z]) (.inr z) (fun hκ => (modify_notMem hκ).symm)
    (fun _ => kind_ne_of_ne) (by simp) fun q i => ?_
  simp only [countIn, Keyspace.modify_self, Function.update_apply]
  by_cases hq : q = p
  · subst hq
    by_cases hi : i = j
    · subst hi
      simp [SortedSet.card_eq, h]
    · simp [SortedSet.card_eq, hi]
  · simp [hq]

/-- Removing one occurrence of an id from a list it is in. -/
theorem leaves_lrem {l : ListKey} {f : List String → List String} (h : j ∈ s (.list l) p)
    (hf : ∀ i, (f (s (.list l) p)).count i = (s (.list l) p).count i - if j = i then 1 else 0) :
    Enters p j (s.modify (.list l) p f) s := by
  refine .of_countIn (W := [.list l]) (.inl l) (fun hκ => (modify_notMem hκ).symm)
    (fun _ => kind_ne_of_ne) (by simp) fun q i => ?_
  simp only [countIn, Keyspace.modify_self, Function.update_apply]
  by_cases hq : q = p
  · subst hq
    rw [if_pos rfl, hf i]
    by_cases hi : i = j
    · subst hi
      have hpos : 0 < (s (.list l) q).count i := List.count_pos_iff.mpr h
      simp only [if_true, and_self]
      omega
    · rw [if_neg (Ne.symm hi), if_neg (by simp [hi])]
      omega
  · simp [hq]

theorem leaves_lremLeft {l : ListKey} (h : j ∈ s (.list l) p) :
    Enters p j (s.modify (.list l) p (lremLeft j)) s :=
  leaves_lrem h fun i => count_lremLeft j i _

theorem leaves_lremRight {l : ListKey} (h : j ∈ s (.list l) p) :
    Enters p j (s.modify (.list l) p (lremRight j)) s :=
  leaves_lrem h fun i => count_lremRight j i _

/-! ### Several ids at once -/

/-- The ids of `l` occur once more in the queue `p`, each as often as it is listed. -/
structure EntersAll (p : String) (l : List String) (s s' : Store) : Prop where
  occ : ∀ q i, BullMQ.occ s' q i = BullMQ.occ s q i + if q = p then l.count i else 0
  exist : ∀ k, s'.jobExists k = s.jobExists k

namespace EntersAll

theorem nil (h : SamePlaces s s') : EntersAll p [] s s' :=
  ⟨fun q i => by simp [h.occ], h.exist⟩

theorem cons {l : List String} (h : Enters p j s s') (h' : EntersAll p l s' s'') :
    EntersAll p (j :: l) s s'' := by
  refine ⟨fun q i => ?_, fun k => (h'.exist k).trans (h.exist k)⟩
  rw [h'.occ, h.occ, List.count_cons]
  by_cases hq : q = p
  · by_cases hi : i = j
    · simp only [hq, hi, and_self, if_true, beq_self_eq_true]
      omega
    · have hi' : ¬ j = i := fun h => hi h.symm
      simp [hq, hi, hi']
  · simp [hq]

/-- Ids that left and entered again have moved. -/
theorem move {l : List String} (h : EntersAll p l s' s) (h' : EntersAll p l s' s'') :
    SamePlaces s s'' :=
  ⟨fun q i => by rw [h'.occ, h.occ], fun k => (h'.exist k).trans (h.exist k).symm⟩

end EntersAll

/-- Removing several ids from a sorted set they are in. -/
theorem leaves_zremAll {z : ZSetKey} {l : List String} (hnodup : l.Nodup)
    (h : ∀ i ∈ l, i ∈ s (.zset z) p) : EntersAll p l (s.modify (.zset z) p (·.zremAll l)) s := by
  refine ⟨fun q i => ?_, fun k => ?_⟩
  · have hone : occ (s.modify (.zset z) p (·.zremAll l)) q i + countIn s (.inr z) q i =
        occ s q i + countIn (s.modify (.zset z) p (·.zremAll l)) (.inr z) q i :=
      occ_of_frame (.inr z) (W := [.zset z]) modify_notMem (fun _ => kind_ne_of_ne) q i
    simp only [countIn, Keyspace.modify_self, Function.update_apply] at hone
    by_cases hq : q = p
    · subst hq
      simp only [if_true, SortedSet.card_eq, SortedSet.mem_zremAll, hnodup.count] at hone ⊢
      by_cases hi : i ∈ l
      · have hz := h i hi
        simp only [hi, hz, not_true, and_false, if_true, if_false] at hone ⊢
        omega
      · simp only [hi, not_false_eq_true, and_true, if_false] at hone ⊢
        omega
    · simp only [hq, if_false] at hone ⊢
      omega
  · rw [Store.jobExists, Store.jobExists, modify_notMem (by simp)]

end BullMQ
