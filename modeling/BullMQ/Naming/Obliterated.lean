import BullMQ.Placement.Retention
import BullMQ.Naming.Sweeps

/-!
# What an obliterate deletes

`obliterate` sweeps all containers of a queue but one: the jobs that wait for children are deleted
only with their last child, in the hard mode of the removal. `Cleared` says of the store before
which jobs are gone at the end, and `Clearable` that no integer is left as the name of a job: this
is what deleting the id counter takes for granted.
-/

namespace BullMQ

open Redis

/-- A job in one of the containers that `obliterate` sweeps. -/
def Swept (s : Store) (p j : String) : Prop :=
  (∃ l, j ∈ s (.list l) p) ∨ ∃ z, z ≠ .waitingChildren ∧ j ∈ s (.zset z) p

/-- A job that waits for children, all of which name it as their parent. -/
structure AwaitsOwn (s : Store) (p k : String) : Prop where
  base : keyBase k = p
  exist : s.jobExists k = true
  waits : getJobIdFromKey k ∈ s (.zset .waitingChildren) p
  unswept : ∀ j, Swept s p j → k ≠ p ++ j
  pending : ∃ c, c ∈ s .dependencies k
  links : ∀ c ∈ s .dependencies k, (s.parentOf c).map Parent.key = some k

/-- The keys of the jobs that an obliterate of the queue `p` deletes: those of the swept containers,
and those that wait for deleted jobs alone. -/
inductive Cleared (s : Store) (p : String) : String → Prop
  | swept {j : String} (hj : Swept s p j) : Cleared s p (p ++ j)
  | parent {k : String} (hk : AwaitsOwn s p k) (hdeps : ∀ c ∈ s .dependencies k, Cleared s p c) :
      Cleared s p k

/-- The winner `i` of the deduplication id `d` is swept, and no job under this id has a parent: the
payload kept for the id goes with the winner. -/
structure Reserves (s : Store) (p d i : String) : Prop where
  swept : Swept s p i
  stays : i ∉ s (.zset .waitingChildren) p
  carries : s.deidOf (p ++ i) = some d
  holds : (s .de (deduplicationKey p d)).map DeduplicationKey.jobId = some i
  root : ∀ c, s.deidOf c = some d → s.parentOf c = none

/-- An obliterate of the queue `p` leaves no job, and no payload, whose id is a positive integer. -/
structure Clearable (s : Store) (p : String) : Prop where
  jobs : ∀ n : ℕ, 0 < n → s.jobExists (p ++ n.repr) = true → Cleared s p (p ++ n.repr)
  waiting : ∀ n : ℕ, 0 < n → n.repr ∈ s (.zset .waitingChildren) p →
    AwaitsOwn s p (p ++ n.repr) ∧ Cleared s p (p ++ n.repr)
  payloads : ∀ n : ℕ, 0 < n → ∀ d next, s .dn (deduplicationNextKey p d) = some next →
    next.jid = n.repr → ∃ i, Reserves s p d i

/-! ### One removal -/

/-- A store in the middle of a sweep of the queue `p` that began in `s₀`: the jobs `D` are deleted
or about to be, and those of `E` have left the accounts of their parents. -/
structure Unwinds (p : String) (s₀ : Store) (D E : Set String) (s : Store) : Prop where
  same : ∀ {k}, k ∉ D → s .hash k = s₀ .hash k
  hash : ∀ k, s .hash k = s₀ .hash k ∨ s .hash k = none
  sub : ∀ {j}, j ∈ s (.zset .waitingChildren) p → j ∈ s₀ (.zset .waitingChildren) p
  waits : ∀ {k}, k ∉ D → AwaitsOwn s₀ p k → getJobIdFromKey k ∈ s (.zset .waitingChildren) p
  out : ∀ {k}, k ∈ D → AwaitsOwn s₀ p k → getJobIdFromKey k ∉ s (.zset .waitingChildren) p
  deps : ∀ {k x}, k ∉ D → AwaitsOwn s₀ p k →
    (x ∈ s .dependencies k ↔ x ∈ s₀ .dependencies k ∧ x ∉ E)
  pending : ∀ {k}, k ∉ D → AwaitsOwn s₀ p k → ∃ x, x ∈ s .dependencies k

namespace Unwinds

variable {p c k : String} {s₀ s s' : Store} {D E : Set String}

theorem refl (p : String) (s : Store) : Unwinds p s ∅ ∅ s where
  same _ := rfl
  hash _ := .inl rfl
  sub h := h
  waits _ h := h.waits
  out h := h.elim
  deps _ _ := by simp
  pending _ h := h.pending

/-- A step that leaves the hashes, the accounts and the waiting jobs of the queue as they are. -/
theorem of_same (h : Unwinds p s₀ D E s) (hhash : s' .hash = s .hash)
    (hdeps : s' .dependencies = s .dependencies)
    (hwait : s' (.zset .waitingChildren) p = s (.zset .waitingChildren) p) :
    Unwinds p s₀ D E s' where
  same hk := by rw [hhash, h.same hk]
  hash k := by rw [hhash]; exact h.hash k
  sub hj := h.sub (by rwa [hwait] at hj)
  waits hk haw := by rw [hwait]; exact h.waits hk haw
  out hk haw := by rw [hwait]; exact h.out hk haw
  deps hk haw := by rw [hdeps]; exact h.deps hk haw
  pending hk haw := by rw [hdeps]; exact h.pending hk haw

/-- Two waiting jobs with the same id are the same. -/
theorem awaits_eq {k'} (hk : keyBase k = p) (hk' : keyBase k' = p)
    (heq : getJobIdFromKey k = getJobIdFromKey k') : k = k' := by
  rw [← getJobKeyPrefix_append_getJobIdFromKey k, ← getJobKeyPrefix_append_getJobIdFromKey k']
  change keyBase k ++ _ = keyBase k' ++ _
  rw [hk, hk', heq]

/-- The job that is about to be deleted is linked in the account of the parent it names, and of no
other waiting job. -/
theorem parent_of_mem (h : Unwinds p s₀ D E s) (hc : c ∉ E → s .hash c = s₀ .hash c) (hk : k ∉ D)
    (haw : AwaitsOwn s₀ p k) (hmem : c ∈ s .dependencies k) :
    (s.parentOf c).map Parent.key = some k := by
  obtain ⟨hmem₀, hE⟩ := (h.deps hk haw).mp hmem
  have hlink := haw.links c hmem₀
  rwa [Store.parentOf, ← hc hE] at hlink

/-- An account of another job loses a child. -/
theorem srem (h : Unwinds p s₀ D E s) (hD : ∀ x ∈ insert c E, x ∈ D)
    (hno : ∀ {k'}, k' ∉ D → AwaitsOwn s₀ p k' → k' ≠ k → c ∉ s .dependencies k')
    (hmore : k ∉ D → AwaitsOwn s₀ p k → ∃ x ∈ s .dependencies k, x ≠ c) :
    Unwinds p s₀ D (insert c E) (s.modify .dependencies k (·.srem c)) := by
  have hdeps : ∀ k' x, x ∈ s.modify .dependencies k (·.srem c) .dependencies k' ↔
      x ∈ s .dependencies k' ∧ (k' = k → x ≠ c) := by
    intro k' x
    rw [Keyspace.modify_self, Function.update_apply]
    split
    · next heq => subst heq; simp [MemberSet.mem_srem, and_comm]
    · next hne => simp [hne]
  refine {
    same := fun hk => ?_
    hash := fun k' => ?_
    sub := fun hj => ?_
    waits := fun hk haw => ?_
    out := fun hk haw => ?_
    deps := fun {k' x} hk haw => ?_
    pending := fun {k'} hk haw => ?_ }
  · rw [Keyspace.modify_of_ne _ (by decide), h.same hk]
  · rw [Keyspace.modify_of_ne _ (by decide)]
    exact h.hash k'
  · rw [Keyspace.modify_of_ne _ (by decide)] at hj
    exact h.sub hj
  · rw [Keyspace.modify_of_ne _ (by decide)]
    exact h.waits hk haw
  · rw [Keyspace.modify_of_ne _ (by decide)]
    exact h.out hk haw
  · rw [hdeps, h.deps hk haw, Set.mem_insert_iff, not_or]
    by_cases heq : k' = k
    · simp only [heq, true_implies]
      tauto
    · have hne : x ∈ s₀ .dependencies k' → x ∉ E → x ≠ c := by
        rintro hx hE rfl
        exact hno hk haw heq ((h.deps hk haw).mpr ⟨hx, hE⟩)
      simp only [heq, false_implies, and_true]
      tauto
  · by_cases heq : k' = k
    · subst heq
      obtain ⟨x, hx, hne⟩ := hmore hk haw
      exact ⟨x, (hdeps _ x).mpr ⟨hx, fun _ => hne⟩⟩
    · obtain ⟨x, hx⟩ := h.pending hk haw
      exact ⟨x, (hdeps _ x).mpr ⟨hx, fun h => absurd h heq⟩⟩

/-- The keys of a job that is about to be deleted are deleted. -/
theorem removeJobKeys (h : Unwinds p s₀ D E s) (hk : k ∈ D) :
    Unwinds p s₀ D E (BullMQ.removeJobKeys k s) := by
  have hne : ∀ {k'}, k' ∉ D → k' ≠ k := fun hk' heq => hk' (heq ▸ hk)
  refine {
    same := fun hk' => ?_
    hash := fun k' => ?_
    sub := fun hj => ?_
    waits := fun hk' haw => ?_
    out := fun hk' haw => ?_
    deps := fun hk' haw => ?_
    pending := fun hk' haw => ?_ }
  · rw [removeJobKeys_hash, Function.update_of_ne (hne hk'), h.same hk']
  · rw [removeJobKeys_hash, Function.update_apply]
    split
    · exact .inr rfl
    · exact h.hash k'
  · rw [removeJobKeys_frame _ _ (by decide)] at hj
    exact h.sub hj
  · rw [removeJobKeys_frame _ _ (by decide)]
    exact h.waits hk' haw
  · rw [removeJobKeys_frame _ _ (by decide)]
    exact h.out hk' haw
  · rw [removeJobKeys_dependencies, Function.update_of_ne (hne hk')]
    exact h.deps hk' haw
  · rw [removeJobKeys_dependencies, Function.update_of_ne (hne hk')]
    exact h.pending hk' haw

/-- The parent of the last child is taken out of those that wait, and is about to be deleted. -/
theorem unlinkLast (h : Unwinds p s₀ D E s) (hbase : keyBase k = p)
    (hno : ∀ {k'}, k' ∉ D → AwaitsOwn s₀ p k' → k' ≠ k → c ∉ s .dependencies k') :
    Unwinds p s₀ (insert k D) (insert c E) (BullMQ.unlinkLast c k s) := by
  have hwait : ∀ j, j ∈ BullMQ.unlinkLast c k s (.zset .waitingChildren) p ↔
      j ∈ s (.zset .waitingChildren) p ∧ j ≠ getJobIdFromKey k := by
    intro j
    rw [BullMQ.unlinkLast, Keyspace.modify_self, hbase, Function.update_self,
      Keyspace.modify_of_ne _ (by decide), SortedSet.mem_zrem]
  have hdeps : ∀ {k'}, k' ≠ k → BullMQ.unlinkLast c k s .dependencies k' = s .dependencies k' := by
    intro k' hne
    rw [BullMQ.unlinkLast, Keyspace.modify_of_ne _ (by decide), Keyspace.modify_self,
      Function.update_of_ne hne]
  have hhash : BullMQ.unlinkLast c k s .hash = s .hash := unlinkLast_frame _ _ _ (by decide)
  have hold : ∀ {k'}, k' ∉ insert k D → k' ≠ k ∧ k' ∉ D := fun hk' => by
    rwa [Set.mem_insert_iff, not_or] at hk'
  refine {
    same := fun hk' => ?_
    hash := fun k' => ?_
    sub := fun hj => h.sub ((hwait _).mp hj).1
    waits := fun {k'} hk' haw => ?_
    out := fun {k'} hk' haw => ?_
    deps := fun {k' x} hk' haw => ?_
    pending := fun {k'} hk' haw => ?_ }
  · rw [hhash, h.same (hold hk').2]
  · rw [hhash]
    exact h.hash k'
  · obtain ⟨hne, hk'⟩ := hold hk'
    refine (hwait _).mpr ⟨h.waits hk' haw, fun heq => hne ?_⟩
    exact awaits_eq haw.base hbase heq
  · rw [hwait]
    rintro ⟨hmem, hne⟩
    obtain rfl | hk' := Set.mem_insert_iff.mp hk'
    · exact hne rfl
    · exact h.out hk' haw hmem
  · obtain ⟨hne, hk'⟩ := hold hk'
    rw [hdeps hne, h.deps hk' haw, Set.mem_insert_iff, not_or]
    constructor
    · rintro ⟨hx, hE⟩
      refine ⟨hx, ?_, hE⟩
      rintro rfl
      exact hno hk' haw hne ((h.deps hk' haw).mpr ⟨hx, hE⟩)
    · rintro ⟨hx, -, hE⟩
      exact ⟨hx, hE⟩
  · obtain ⟨hne, hk'⟩ := hold hk'
    rw [hdeps hne]
    exact h.pending hk' haw

/-- A hard removal up the parents: the jobs it deletes are gone, and those that are left wait for
others. `E` lacks the job `c` itself, whose links are to be cut. -/
theorem unlinkHard {n : ℕ} (h : Unwinds p s₀ (insert c E) E s)
    (hc : c ∉ E → s .hash c = s₀ .hash c)
    (hn : (s (.zset .waitingChildren) p).members.length < n) :
    ∃ D, insert c E ⊆ D ∧ Unwinds p s₀ D D (BullMQ.unlinkHard n p c s) ∧
      (∀ k ∈ D, k ∉ insert c E → BullMQ.unlinkHard n p c s .hash k = none) := by
  -- By induction on the number of parents that wait, each of which is deleted at most once.
  induction n generalizing c s E with
  | zero => omega
  | succ n ih =>
    -- In `s` only the parent of `c` itself can still have it in its account.
    have hno : ∀ {k k'}, (s.parentOf c).map Parent.key = some k → k' ∉ insert c E →
        AwaitsOwn s₀ p k' → k' ≠ k → c ∉ s .dependencies k' := by
      intro k k' hk hk' haw hne hmem
      have hpar := h.parent_of_mem hc hk' haw hmem
      exact hne (Option.some_inj.mp (hpar.symm.trans hk))
    obtain ⟨hnone, heq⟩ | ⟨k, hpar, hex, honly, heq⟩ | ⟨k, hk, hbase, heq⟩ | ⟨k, hk, hbase, heq⟩ :=
      unlinkHard_cases n p c s <;> rw [heq]
    · -- No parent has the job in its account.
      refine ⟨insert c E, subset_rfl, ⟨h.same, h.hash, h.sub, h.waits, h.out, ?_, h.pending⟩, ?_⟩
      · intro k x hk haw
        rw [h.deps hk haw, Set.mem_insert_iff, not_or]
        refine ⟨fun ⟨hx, hE⟩ => ⟨hx, ?_, hE⟩, fun ⟨hx, _, hE⟩ => ⟨hx, hE⟩⟩
        rintro rfl
        have hmem := (h.deps hk haw).mpr ⟨hx, hE⟩
        refine hnone k (h.parent_of_mem hc hk haw hmem) ?_ hmem
        rw [Store.jobExists, h.same hk]
        exact haw.exist
      · exact fun k hk hk' => absurd hk hk'
    · -- The parent waits for others, or does not wait.
      refine ⟨insert c E, subset_rfl, h.srem (fun _ hx => hx) (hno hpar) fun hk haw => ?_, ?_⟩
      · by_contra hall
        push Not at hall
        obtain ⟨x, hx⟩ := h.pending hk haw
        have hxc := hall x hx
        subst hxc
        refine honly ⟨hpar, hex, hx, hall, ?_⟩
        rw [haw.base]
        exact h.waits hk haw
      · exact fun k hk hk' => absurd hk hk'
    · -- The parent is in another queue.
      have hcut : Unwinds p s₀ (insert c E) (insert c E) (s.modify .dependencies k (·.srem c)) :=
        h.srem (fun _ hx => hx) (hno hk.parent) fun _ haw => absurd haw.base hbase
      refine ⟨insert c E, subset_rfl, hcut.of_same ?_ ?_ ?_, fun k hk hk' => absurd hk hk'⟩
      · rw [pushReleasedParent_frame _ _ _ (by decide), BullMQ.unlinkLast,
          Keyspace.modify_of_ne _ (by decide)]
      · rw [pushReleasedParent_frame _ _ _ (by decide), BullMQ.unlinkLast,
          Keyspace.modify_of_ne _ (by decide)]
      · rw [pushReleasedParent_frame _ _ _ (by decide), BullMQ.unlinkLast, Keyspace.modify_self,
          Function.update_of_ne (Ne.symm hbase)]
    · -- The parent is deleted as well, after its own links are cut.
      have hlast := h.unlinkLast hbase (hno hk.parent)
      -- The deleted parent no longer waits, so one parent fewer is left.
      have hfewer : (BullMQ.unlinkLast c k s (.zset .waitingChildren) p).members.length < n := by
        have hmem : getJobIdFromKey k ∈ (s (.zset .waitingChildren) p).members := by
          have hwaits := hk.waits
          rwa [hbase] at hwaits
        rw [BullMQ.unlinkLast, Keyspace.modify_self, hbase, Function.update_self,
          Keyspace.modify_of_ne _ (by decide), SortedSet.members_zrem]
        have hlt := List.length_filter_lt_length_iff_exists
          (p := fun b => decide (b ≠ getJobIdFromKey k))
          (l := (s (.zset .waitingChildren) p).members) |>.mpr ⟨_, hmem, by simp⟩
        omega
      have hkeep : k ∉ insert c E → BullMQ.unlinkLast c k s .hash k = s₀ .hash k := fun hk' => by
        rw [unlinkLast_frame _ _ _ (by decide), h.same hk']
      obtain ⟨D, hsub, hD, hgone⟩ := ih hlast hkeep hfewer
      have hkD : k ∈ D := hsub (Set.mem_insert _ _)
      refine ⟨D, fun x hx => hsub (Set.mem_insert_of_mem _ hx),
        (hD.removeJobKeys hkD).of_same (deleteDeduplicationKey_frame _ _ _ (by decide))
          (deleteDeduplicationKey_frame _ _ _ (by decide))
          (by rw [deleteDeduplicationKey_frame _ _ _ (by decide)]), fun x hx hx' => ?_⟩
      rw [deleteDeduplicationKey_frame _ _ _ (by decide), removeJobKeys_hash, Function.update_apply]
      split
      · rfl
      · next hne => exact hgone x hx fun hmem => (Set.mem_insert_iff.mp hmem).elim hne hx'

end Unwinds

/-! ### Payloads -/

section Payloads

variable {p d i c : String} {s₀ s : Store}

/-- A hard removal up the parents leaves a winner, and its key, to the removal of the winner. -/
theorem Reserves.unlinkHard (hres : Reserves s₀ p d i) (n : ℕ)
    (hhash : ∀ k, s .hash k = s₀ .hash k ∨ s .hash k = none)
    (hsub : ∀ j, j ∈ s (.zset .waitingChildren) p → j ∈ s₀ (.zset .waitingChildren) p) :
    BullMQ.unlinkHard n p c s .de (deduplicationKey p d) = s .de (deduplicationKey p d) ∧
      BullMQ.unlinkHard n p c s .hash (p ++ i) = s .hash (p ++ i) := by
  induction n generalizing c s with
  | zero => exact ⟨rfl, rfl⟩
  | succ n ih =>
    obtain ⟨-, heq⟩ | ⟨k, -, -, -, heq⟩ | ⟨k, -, -, heq⟩ | ⟨k, hk, hbase, heq⟩ :=
      unlinkHard_cases n p c s <;> rw [heq]
    · exact ⟨rfl, rfl⟩
    · rw [Keyspace.modify_of_ne _ (by decide), Keyspace.modify_of_ne _ (by decide)]
      exact ⟨rfl, rfl⟩
    · rw [pushReleasedParent_frame _ _ _ (by decide), pushReleasedParent_frame _ _ _ (by decide),
        unlinkLast_frame _ _ _ (by decide), unlinkLast_frame _ _ _ (by decide)]
      exact ⟨rfl, rfl⟩
    · have hwaits := hk.waits
      rw [hbase] at hwaits
      have hki : p ++ i ≠ k := by
        rintro rfl
        have hsplit := getJobKeyPrefix_append_getJobIdFromKey (p ++ i)
        change keyBase (p ++ i) ++ _ = _ at hsplit
        rw [hbase] at hsplit
        rw [(String.append_right_inj _).mp hsplit] at hwaits
        exact hres.stays (hsub i hwaits)
      have hdeid : ∀ d', s.deidOf c = some d' → d' ≠ d := by
        rintro d' hd' rfl
        obtain hc | hc := hhash c
        · have hroot := hres.root c (by rwa [Store.deidOf, ← hc])
          have hpar := hk.parent
          rw [Store.parentOf, hc, ← Store.parentOf, hroot] at hpar
          cases hpar
        · rw [Store.deidOf, hc] at hd'
          cases hd'
      have hlast : ∀ j, j ∈ unlinkLast c k s (.zset .waitingChildren) p →
          j ∈ s₀ (.zset .waitingChildren) p := fun j hj => by
        rw [unlinkLast, Keyspace.modify_self, hbase, Function.update_self,
          Keyspace.modify_of_ne _ (by decide)] at hj
        exact hsub j (SortedSet.mem_zrem.mp hj).1
      obtain ⟨hde, hsame⟩ := ih (c := k) (s := unlinkLast c k s)
        (fun k' => by rw [unlinkLast_frame _ _ _ (by decide)]; exact hhash k') hlast
      rw [unlinkLast_frame _ _ _ (by decide)] at hde hsame
      refine ⟨?_, ?_⟩
      · unfold deleteDeduplicationKey
        split
        · next d' hd' =>
          rw [Keyspace.set_self, Function.update_of_ne
            fun heq => hdeid d' hd' (deduplicationKey_inj.mp heq).symm,
            removeJobKeys_frame _ _ (by decide), hde]
        · rw [removeJobKeys_frame _ _ (by decide), hde]
      · rw [deleteDeduplicationKey_frame _ _ _ (by decide), removeJobKeys_hash,
          Function.update_of_ne hki, hsame]

end Payloads

/-- A removal deletes payloads, and writes none. -/
theorem removeDeduplicationKeyIfNeededOnRemoval_kept {p i k : String} {o : Option String}
    {s : Store}
    {next : DeduplicatedNextJob}
    (h : removeDeduplicationKeyIfNeededOnRemoval p i o s .dn k = some next) :
    s .dn k = some next := by
  unfold removeDeduplicationKeyIfNeededOnRemoval at h
  split at h
  · exact h
  · simp only at h
    split at h
    · rw [Keyspace.set_self, Function.update_apply] at h
      split at h
      · cases h
      · rwa [Keyspace.set_of_ne _ (by decide)] at h
    · exact h

/-! ### Sweeping jobs -/

/-- A store between two removals of a sweep: the jobs `D` are gone. -/
structure Sweeping (p : String) (s₀ : Store) (D : Set String) (s : Store) : Prop where
  unwinds : Unwinds p s₀ D D s
  gone : ∀ k ∈ D, s .hash k = none
  kept : ∀ k next, s .dn k = some next → s₀ .dn k = some next
  payload : ∀ d i, Reserves s₀ p d i → s .dn (deduplicationNextKey p d) = none ∨
    s .de (deduplicationKey p d) = s₀ .de (deduplicationKey p d) ∧
      s .hash (p ++ i) = s₀ .hash (p ++ i)

namespace Sweeping

variable {p i : String} {s₀ s s' : Store} {D : Set String}

theorem refl (p : String) (s : Store) : Sweeping p s ∅ s :=
  ⟨.refl p s, fun _ h => h.elim, fun _ _ h => h, fun _ _ _ => .inr ⟨rfl, rfl⟩⟩

/-- A change of other families. -/
theorem of_frame {W : List Kind} (h : Sweeping p s₀ D s)
    (hW : ∀ κ ∈ [Kind.hash, .dependencies, .zset .waitingChildren, .de, .dn], κ ∉ W)
    (hs : ∀ {κ}, κ ∉ W → s' κ = s κ) : Sweeping p s₀ D s' where
  unwinds := h.unwinds.of_same (hs (hW _ (by decide))) (hs (hW _ (by decide)))
    (by rw [hs (hW _ (by decide))])
  gone k hk := by rw [hs (hW _ (by decide))]; exact h.gone k hk
  kept k next := by rw [hs (hW _ (by decide))]; exact h.kept k next
  payload d i hres := by
    rw [hs (hW _ (by decide)), hs (hW _ (by decide)), hs (hW _ (by decide))]
    exact h.payload d i hres

/-- The payload of a winner goes with the winner, if not before. -/
theorem payload_removed {d j : String} (h : Sweeping p s₀ D s) (hres : Reserves s₀ p d j)
    (hhash : ∀ k, s .hash k = s₀ .hash k ∨ s .hash k = none) (n : ℕ) (i : String) :
    let s₁ := unlinkHard n p (p ++ i) s
    let s₂ := removeDeduplicationKeyIfNeededOnRemoval p i (s₁.deidOf (p ++ i)) s₁
    s₂ .dn (deduplicationNextKey p d) = none ∨
      i ≠ j ∧ s₂ .de (deduplicationKey p d) = s₀ .de (deduplicationKey p d) ∧
        s₂ .hash (p ++ j) = s₀ .hash (p ++ j) := by
  intro s₁ s₂
  have hdn : s₁ .dn = s .dn := unlinkHard_frame _ _ _ _ (by decide)
  have hhash₂ : s₂ .hash = s₁ .hash :=
    removeDeduplicationKeyIfNeededOnRemoval_frame _ _ _ _ (by decide)
  have hde : s₁ .de (deduplicationKey p d) = s .de (deduplicationKey p d) ∧
      s₁ .hash (p ++ j) = s .hash (p ++ j) :=
    hres.unlinkHard n hhash fun j hj => h.unwinds.sub hj
  have hold := h.payload d j hres
  rw [← hdn, ← hde.1, ← hde.2] at hold
  have hs₂ : s₂ = removeDeduplicationKeyIfNeededOnRemoval p i (s₁.deidOf (p ++ i)) s₁ := rfl
  rw [hhash₂]
  -- The removed job is the winner itself, whose key and payload go, or another one, which touches
  -- neither.
  unfold removeDeduplicationKeyIfNeededOnRemoval at hs₂
  split at hs₂
  · next hnone =>
    rw [hs₂]
    refine hold.imp_right fun ⟨hkey, hjob⟩ => ⟨?_, hkey, hjob⟩
    rintro rfl
    have hcarries := hres.carries
    rw [Store.deidOf, ← hjob, ← Store.deidOf, hnone] at hcarries
    cases hcarries
  · next d' hd' =>
    simp only at hs₂
    split at hs₂
    · next hholds =>
      rw [hs₂]
      by_cases hdd : d' = d
      · subst hdd
        exact .inl (by rw [Keyspace.set_self, Function.update_self])
      · have hde' : deduplicationKey p d ≠ deduplicationKey p d' := fun heq =>
          hdd (deduplicationKey_inj.mp heq).symm
        have hdn' : deduplicationNextKey p d ≠ deduplicationNextKey p d' := fun heq =>
          hdd (deduplicationNextKey_inj.mp heq).symm
        rw [Keyspace.set_self, Function.update_of_ne hdn', Keyspace.set_of_ne _ (by decide),
          Keyspace.set_of_ne _ (by decide), Keyspace.set_self, Function.update_of_ne hde']
        refine hold.imp_right fun ⟨hkey, hjob⟩ => ⟨?_, hkey, hjob⟩
        rintro rfl
        have hcarries := hres.carries
        rw [Store.deidOf, ← hjob, ← Store.deidOf, hd'] at hcarries
        exact hdd (Option.some_inj.mp hcarries)
    · next hother =>
      rw [hs₂]
      refine hold.imp_right fun ⟨hkey, hjob⟩ => ⟨?_, hkey, hjob⟩
      rintro rfl
      have hcarries := hres.carries
      rw [Store.deidOf, ← hjob, ← Store.deidOf, hd'] at hcarries
      obtain rfl := Option.some_inj.mp hcarries
      exact hother (by rw [hkey]; exact hres.holds)

/-- One removal of a sweep. -/
theorem removeJobHard (h : Sweeping p s₀ D s) (hi : Swept s₀ p i) :
    ∃ D', D ⊆ D' ∧ p ++ i ∈ D' ∧ Sweeping p s₀ D' (BullMQ.removeJobHard p s i) := by
  set n := (s (.zset .waitingChildren) p).members.length + 1 with hn
  set s₁ := unlinkHard n p (p ++ i) s with hs₁
  set s₂ := removeDeduplicationKeyIfNeededOnRemoval p i (s₁.deidOf (p ++ i)) s₁ with hs₂
  have hstart : Unwinds p s₀ (insert (p ++ i) D) D s := {
    same := fun hk => h.unwinds.same fun hD => hk (Set.mem_insert_of_mem _ hD)
    hash := h.unwinds.hash
    sub := h.unwinds.sub
    waits := fun hk => h.unwinds.waits fun hD => hk (Set.mem_insert_of_mem _ hD)
    out := fun {k} hk haw => h.unwinds.out
      ((Set.mem_insert_iff.mp hk).resolve_left (haw.unswept i hi)) haw
    deps := fun hk => h.unwinds.deps fun hD => hk (Set.mem_insert_of_mem _ hD)
    pending := fun hk => h.unwinds.pending fun hD => hk (Set.mem_insert_of_mem _ hD) }
  obtain ⟨D', hsub, hD', hgone⟩ := hstart.unlinkHard (n := n) (fun hc => h.unwinds.same hc)
    (Nat.lt_succ_self _)
  have hmem : p ++ i ∈ D' := hsub (Set.mem_insert _ _)
  have hframe : ∀ {κ}, κ ∉ [Kind.de, .dn] → s₂ κ = s₁ κ := fun hκ =>
    removeDeduplicationKeyIfNeededOnRemoval_frame _ _ _ _ hκ
  have hD₂ : Unwinds p s₀ D' D' s₂ := hD'.of_same (hframe (by decide)) (hframe (by decide))
    (by rw [hframe (by decide)])
  refine ⟨D', fun k hk => hsub (Set.mem_insert_of_mem _ hk), hmem, hD₂.removeJobKeys hmem,
    ?_, ?_, ?_⟩
  · intro k hk
    change removeJobKeys (p ++ i) s₂ .hash k = none
    rw [removeJobKeys_hash, Function.update_apply]
    split
    · rfl
    · next hne =>
      rw [hframe (by decide)]
      by_cases hD : k ∈ D
      · obtain heq | hnone := unlinkHard_hash_or (s := s) (c := p ++ i) n p k
        · rw [hs₁, heq, h.gone k hD]
        · exact hnone
      · exact hgone k hk fun hin => (Set.mem_insert_iff.mp hin).elim hne hD
  · intro k next hnext
    change removeJobKeys (p ++ i) s₂ .dn k = some next at hnext
    rw [removeJobKeys_frame _ _ (by decide)] at hnext
    have hdn : s₁ .dn = s .dn := unlinkHard_frame _ _ _ _ (by decide)
    refine h.kept k next ?_
    rw [← hdn]
    exact removeDeduplicationKeyIfNeededOnRemoval_kept hnext
  · intro d j hres
    change removeJobKeys (p ++ i) s₂ .dn _ = none ∨ removeJobKeys (p ++ i) s₂ .de _ = _ ∧
      removeJobKeys (p ++ i) s₂ .hash _ = _
    rw [removeJobKeys_frame _ _ (by decide), removeJobKeys_frame _ _ (by decide)]
    refine (h.payload_removed hres h.unwinds.hash n i).imp_right fun ⟨hij, hkey, hjob⟩ => ⟨hkey, ?_⟩
    rw [removeJobKeys_hash, Function.update_of_ne, hjob]
    exact fun heq => hij ((String.append_right_inj _).mp heq).symm

/-- The removals of a stage. -/
theorem removeJobs {jobs : List String} (h : Sweeping p s₀ D s) (hjobs : ∀ j ∈ jobs, Swept s₀ p j) :
    ∃ D', D ⊆ D' ∧ (∀ j ∈ jobs, p ++ j ∈ D') ∧ Sweeping p s₀ D' (BullMQ.removeJobs p jobs s) := by
  induction jobs generalizing D s with
  | nil => exact ⟨D, subset_rfl, by simp, h⟩
  | cons i jobs ih =>
    obtain ⟨D₁, hsub₁, hi, h₁⟩ := h.removeJobHard (hjobs i (by simp))
    obtain ⟨D₂, hsub₂, hrest, h₂⟩ := ih h₁ fun j hj => hjobs j (by simp [hj])
    refine ⟨D₂, hsub₁.trans hsub₂, ?_, h₂⟩
    intro j hj
    obtain rfl | hj := List.mem_cons.mp hj
    · exact hsub₂ hi
    · exact hrest j hj

/-- A job that waits for deleted jobs alone is deleted. -/
theorem cleared {k : String} (h : Sweeping p s₀ D s) (hswept : ∀ j, Swept s₀ p j → p ++ j ∈ D)
    (hk : Cleared s₀ p k) : k ∈ D := by
  induction hk with
  | swept hj => exact hswept _ hj
  | parent hk hdeps ih =>
    by_contra hD
    obtain ⟨x, hx⟩ := h.unwinds.pending hD hk
    obtain ⟨hx, hxD⟩ := (h.unwinds.deps hD hk).mp hx
    exact hxD (ih x hx)

end Sweeping

/-! ### The stages of an obliterate -/

/-- The entries of a container. -/
def entriesOf (s : Store) (p : String) : Container → List String
  | .inl l => s (.list l) p
  | .inr z => (s (.zset z) p).members

/-- A store in the middle of an obliterate: the containers `C` are swept and empty, the others are
as they were. -/
structure Obliterating (p : String) (s₀ : Store) (C : Set Container) (s : Store) : Prop where
  swept : ∃ D, Sweeping p s₀ D s ∧ ∀ c ∈ C, ∀ j ∈ entriesOf s₀ p c, p ++ j ∈ D
  emptied : ∀ c ∈ C, c ≠ .inr .waitingChildren → entriesOf s p c = []
  kept : ∀ c ∉ C, c ≠ .inr .waitingChildren → entriesOf s p c = entriesOf s₀ p c

namespace Obliterating

variable {p : String} {s₀ s s' : Store} {C : Set Container} {c : Container} {m : ℤ}

theorem refl (p : String) (s : Store) : Obliterating p s ∅ s :=
  ⟨⟨∅, .refl p s, fun _ h => h.elim⟩, fun _ h _ => h.elim, fun _ _ _ => rfl⟩

theorem swept_of_mem {j : String} (hc : c ≠ .inr .waitingChildren) (hj : j ∈ entriesOf s p c) :
    Swept s p j := by
  rcases c with l | z
  · exact .inl ⟨l, hj⟩
  · exact .inr ⟨z, fun heq => hc (by rw [heq]), hj⟩

/-- A change of other families. -/
theorem of_frame {W : List Kind} (h : Obliterating p s₀ C s)
    (hW : ∀ κ ∈ .dependencies :: .de :: .dn :: placeKinds, κ ∉ W)
    (hs : ∀ {κ}, κ ∉ W → s' κ = s κ) : Obliterating p s₀ C s' := by
  have hentries : ∀ c, entriesOf s' p c = entriesOf s p c := by
    rintro (l | z)
    · rw [entriesOf, hs (hW _ (by cases l <;> decide)), entriesOf]
    · rw [entriesOf, hs (hW _ (by cases z <;> decide)), entriesOf]
  obtain ⟨D, hD, hmem⟩ := h.swept
  refine ⟨⟨D, hD.of_frame (fun κ hκ => hW κ ?_) hs, hmem⟩, fun c hc hne => ?_, fun c hc hne => ?_⟩
  · revert κ
    decide
  · rw [hentries, h.emptied c hc hne]
  · rw [hentries, h.kept c hc hne]

/-- A container whose jobs are all removed, and which is then emptied. -/
theorem sweep (h : Obliterating p s₀ C s) (hc : c ≠ .inr .waitingChildren) (hC : c ∉ C)
    (hs : ∀ {κ}, κ ≠ c.kind → s' κ = removeJobs p (entriesOf s p c) s κ)
    (hempty : entriesOf s' p c = []) : Obliterating p s₀ (insert c C) s' := by
  obtain ⟨D, hD, hmem⟩ := h.swept
  have hkept := h.kept c hC hc
  obtain ⟨D', hsub, hjobs, hD'⟩ := hD.removeJobs
    fun j (hj : j ∈ entriesOf s p c) => swept_of_mem hc (hkept ▸ hj)
  have hother : ∀ c', c' ≠ c → c' ≠ .inr .waitingChildren →
      entriesOf s' p c' = entriesOf s p c' := by
    intro c' hne hwait
    have hkind : c'.kind ≠ c.kind := by simpa using kind_ne_of_ne hne
    rcases c' with l | z
    · rw [entriesOf, hs (κ := .list l) hkind, removeJobs_list, entriesOf]
    · rw [entriesOf, hs (κ := .zset z) hkind, removeJobs_frame, entriesOf]
      cases z <;> first | exact absurd rfl hwait | decide
  refine ⟨⟨D', hD'.of_frame (W := [c.kind]) ?_ (fun hκ => hs (by simpa using hκ)), ?_⟩, ?_, ?_⟩
  · rcases c with l | z
    · cases l <;> decide
    · cases z <;> first | exact absurd rfl hc | decide
  · intro c' hc' j hj
    obtain rfl | hc' := Set.mem_insert_iff.mp hc'
    · exact hjobs j (hkept ▸ hj)
    · exact hsub (hmem c' hc' j hj)
  · intro c' hc' hwait
    by_cases heq : c' = c
    · rw [heq, hempty]
    · rw [hother c' heq hwait, h.emptied c' ((Set.mem_insert_iff.mp hc').resolve_left heq) hwait]
  · intro c' hc' hwait
    rw [Set.mem_insert_iff, not_or] at hc'
    rw [hother c' hc'.1 hwait, h.kept c' hc'.2 hwait]

/-- A stage that ends with budget left went through all items. -/
theorem firstItems_eq {items : List String} (hm : 0 < m)
    (hleft : 0 < m - (firstItems m items).length) :
    firstItems m items = items := by
  unfold firstItems at hleft ⊢
  rw [if_pos hm] at hleft ⊢
  rw [List.length_take] at hleft
  exact List.take_of_length_le (by omega)

theorem removeListJobs {l : ListKey} (h : Obliterating p s₀ C s) (hC : .inl l ∉ C) (hm : 0 < m)
    (hleft : 0 < (BullMQ.removeListJobs p l m [] s).1) :
    Obliterating p s₀ (insert (.inl l) C) (BullMQ.removeListJobs p l m [] s).2 := by
  have hjobs : (firstItems m (s (.list l) p)).filter (· ∉ []) = s (.list l) p := by
    simp only [BullMQ.removeListJobs, List.not_mem_nil, not_false_eq_true, decide_true,
      List.filter_true] at hleft ⊢
    exact firstItems_eq hm hleft
  refine h.sweep (by simp) hC (fun {κ} hκ => ?_) ?_
  · simp only [BullMQ.removeListJobs, hjobs]
    exact Keyspace.modify_of_ne _ hκ ..
  · simp only [BullMQ.removeListJobs, hjobs, entriesOf]
    rw [Keyspace.modify_self, Function.update_self, removeJobs_list, List.drop_length]

theorem removeZSetJobs {z : ZSetKey} (h : Obliterating p s₀ C s) (hz : z ≠ .waitingChildren)
    (hC : .inr z ∉ C) (hm : 0 < m) (hleft : 0 < (BullMQ.removeZSetJobs p z m [] s).1) :
    Obliterating p s₀ (insert (.inr z) C) (BullMQ.removeZSetJobs p z m [] s).2 := by
  have hjobs : (firstItems m (s (.zset z) p).members).filter (· ∉ []) =
      (s (.zset z) p).members := by
    simp only [BullMQ.removeZSetJobs, List.not_mem_nil, not_false_eq_true, decide_true,
      List.filter_true] at hleft ⊢
    exact firstItems_eq hm hleft
  have hframe : BullMQ.removeJobs p (s (.zset z) p).members s (.zset z) = s (.zset z) :=
    removeJobs_frame _ _ _ (by cases z <;> first | exact absurd rfl hz | decide)
  refine h.sweep (by simpa using hz) hC (fun {κ} hκ => ?_) ?_
  · simp only [BullMQ.removeZSetJobs, hjobs]
    exact foldl_zremAll_frame _ _ _ _ _ hκ
  · simp only [BullMQ.removeZSetJobs, hjobs, entriesOf]
    rw [foldl_batches_eq, Keyspace.modify_self, Function.update_self, hframe,
      SortedSet.members_zremAll, List.filter_eq_nil_iff]
    simp

/-- Stages that end with budget left ran with budget left. -/
theorem runStages_pos {stage : ℤ → Store → ℤ × Store} {stages : List (ℤ → Store → ℤ × Store)}
    (hpos : 0 < (Script.runStages (stage :: stages) m s).1) :
    0 < m ∧ 0 < (stage m s).1 ∧ Script.runStages (stage :: stages) m s =
      Script.runStages stages (stage m s).1 (stage m s).2 := by
  by_cases hm : m ≤ 0
  · rw [Script.runStages, if_pos hm] at hpos
    exact absurd hpos (by simpa using hm)
  · have hrun : Script.runStages (stage :: stages) m s =
        Script.runStages stages (stage m s).1 (stage m s).2 := by
      rw [Script.runStages, if_neg hm]
    refine ⟨by omega, ?_, hrun⟩
    rw [hrun] at hpos
    by_contra hle
    cases stages with
    | nil => exact hle hpos
    | cons stage' stages =>
      rw [Script.runStages, if_pos (by omega)] at hpos
      exact hle hpos

/-- The stages sweep every container but those that wait for children. -/
theorem stages (h : Obliterating p s₀ {.inl .active} s)
    (hpos : 0 < (Script.runStages (Script.obliterateStages p) m s).1) :
    ∃ C, (∀ c, c ≠ .inr .waitingChildren → c ∈ C) ∧
      Obliterating p s₀ C (Script.runStages (Script.obliterateStages p) m s).2 := by
  unfold Script.obliterateStages at hpos ⊢
  obtain ⟨hm, hdelayed, heq⟩ := runStages_pos hpos
  rw [heq] at hpos ⊢
  have h₁ := h.removeZSetJobs (by decide) (by simp) hm hdelayed
  obtain ⟨-, -, heq⟩ := runStages_pos hpos
  rw [heq] at hpos ⊢
  have h₂ := h₁.of_frame (W := [.repeatSet, .scheduler]) (by decide) fun hκ =>
    Script.removeSchedulers_frame p (BullMQ.removeZSetJobs p .delayed m [] s).1 _ hκ
  obtain ⟨hm, hleft, heq⟩ := runStages_pos hpos
  rw [heq] at hpos ⊢
  have h₃ := h₂.removeZSetJobs (by decide) (by simp) hm hleft
  obtain ⟨hm, hleft, heq⟩ := runStages_pos hpos
  rw [heq] at hpos ⊢
  have h₄ := h₃.removeListJobs (by simp) hm hleft
  obtain ⟨hm, hleft, heq⟩ := runStages_pos hpos
  rw [heq] at hpos ⊢
  have h₅ := h₄.removeListJobs (by simp) hm hleft
  obtain ⟨hm, hleft, heq⟩ := runStages_pos hpos
  rw [heq] at hpos ⊢
  have h₆ := h₅.removeZSetJobs (by decide) (by simp) hm hleft
  obtain ⟨hm, hleft, heq⟩ := runStages_pos hpos
  rw [heq] at hpos ⊢
  have h₇ := h₆.removeZSetJobs (by decide) (by simp) hm hleft
  refine ⟨_, ?_, h₇⟩
  rintro ((_ | _ | _) | (_ | _ | _ | _ | _)) hc <;> simp_all

/-- What is left once every container but one is swept. -/
theorem unheard (h : Obliterating p s₀ C s) (hC : ∀ c, c ≠ .inr .waitingChildren → c ∈ C)
    (hclear : Clearable s₀ p) {n : ℕ} (hn : 0 < n)
    (hid : getJobIdFromKey (p ++ n.repr) = n.repr) :
    Unheard p n.repr s := by
  obtain ⟨D, hD, hmem⟩ := h.swept
  have hswept : ∀ j, Swept s₀ p j → p ++ j ∈ D := by
    rintro j (⟨l, hj⟩ | ⟨z, hz, hj⟩)
    · exact hmem (.inl l) (hC _ (by simp)) j hj
    · exact hmem (.inr z) (hC _ (by simpa using hz)) j hj
  refine ⟨?_, fun l hj => ?_, fun z hj => ?_, fun d next hnext hjid => ?_⟩
  · obtain heq | hnone := hD.unwinds.hash (p ++ n.repr)
    · cases hjob : s₀ .hash (p ++ n.repr) with
      | none => rw [heq, hjob]
      | some job =>
        have hex : s₀.jobExists (p ++ n.repr) = true := by simp [Store.jobExists, hjob]
        exact hD.gone _ (hD.cleared hswept (hclear.jobs n hn hex))
    · exact hnone
  · have hempty := h.emptied (.inl l) (hC _ (by simp)) (by simp)
    rw [entriesOf] at hempty
    simp [hempty] at hj
  · by_cases hz : z = .waitingChildren
    · subst hz
      obtain ⟨haw, hcl⟩ := hclear.waiting n hn (hD.unwinds.sub hj)
      refine hD.unwinds.out (hD.cleared hswept hcl) haw ?_
      rwa [hid]
    · have hempty := h.emptied (.inr z) (hC _ (by simpa using hz)) (by simpa using hz)
      have hj' : n.repr ∈ (s (.zset z) p).members := hj
      rw [entriesOf] at hempty
      simp [hempty] at hj'
  · obtain ⟨i, hres⟩ := hclear.payloads n hn d next (hD.kept _ _ hnext) hjid
    obtain hnone | ⟨-, hsame⟩ := hD.payload d i hres
    · rw [hnone] at hnext
      cases hnext
    · have hcarries := hres.carries
      rw [Store.deidOf, ← hsame, hD.gone _ (hswept i hres.swept)] at hcarries
      cases hcarries

/-- A call that deletes the keys of the queue has swept every container but one before. -/
theorem of_code_zero {count : ℤ} {force : Bool}
    (hreply : (Script.obliterate p count force s).1 = .code 0) :
    ∃ s₁ C, (Script.obliterate p count force s).2 = Script.deleteQueueKeys p s₁ ∧
      (∀ c, c ≠ .inr .waitingChildren → c ∈ C) ∧ Obliterating p s C s₁ := by
  simp only [Script.obliterate] at hreply ⊢
  split
  · next hpaused => rw [if_pos hpaused] at hreply; cases hreply
  · next hpaused =>
    rw [if_neg hpaused] at hreply
    split
    · next hactive => rw [if_pos hactive] at hreply; cases hreply
    · next hactive =>
      rw [if_neg hactive] at hreply
      split
      · next hle => rw [if_pos hle] at hreply; cases hreply
      · next hpos =>
        have hrun := by simpa using hpos
        obtain ⟨hm, -, -⟩ := runStages_pos hrun
        have hall : firstItems count (s (.list .active) p) = s (.list .active) p :=
          firstItems_eq (by omega) hm
        rw [hall] at hrun ⊢
        set s₁ : Store := (s (.list .active) p).foldl
          (fun s jobId => s.set .lock (p ++ jobId) none) s with hs₁
        have hframe : ∀ {κ}, κ ∉ [Kind.lock] → s₁ κ = s κ := fun hκ =>
          Script.foldl_unlock_frame p _ s (by simpa using hκ)
        have hlocks : Obliterating p s ∅ s₁ :=
          (Obliterating.refl p s).of_frame (by decide) hframe
        have hentries : entriesOf s₁ p (.inl .active) = s (.list .active) p := by
          rw [entriesOf, hframe (by decide)]
        have hactives : Obliterating p s (insert (.inl .active) ∅)
            ((BullMQ.removeJobs p (s (.list .active) p) s₁).modify (.list .active) p
              (·.drop (s (.list .active) p).length)) :=
          hlocks.sweep (c := .inl .active) (by simp) (Set.notMem_empty _)
          (fun {κ} hκ => by rw [hentries]; exact Keyspace.modify_of_ne _ hκ ..) (by
            rw [entriesOf, Keyspace.modify_self, Function.update_self, removeJobs_list,
              hframe (by decide), List.drop_length])
        obtain ⟨C, hC, hdone⟩ := Obliterating.stages (by simpa using hactives) hrun
        exact ⟨_, C, rfl, hC, hdone⟩

end Obliterating

/-- **obliterate** that deletes the id counter leaves no job whose id is a positive integer. -/
theorem Clearable.unheard {p : String} {s : Store} {count : ℤ} {force : Bool} (h : Clearable s p)
    (hp : QueueBase p) (hreply : (Script.obliterate p count force s).1 = .code 0) {n : ℕ}
    (hn : 0 < n) : Unheard p n.repr (Script.obliterate p count force s).2 := by
  have hid : getJobIdFromKey (p ++ n.repr) = n.repr := getJobIdFromKey_append hp (colonFree_repr n)
  obtain ⟨s₁, C, heq, hC, hdone⟩ := Obliterating.of_code_zero hreply
  rw [heq]
  exact Unheard.of_frame (W := Script.queueKeyWrites) (hdone.unheard hC h hn hid) (by decide)
    fun hκ => Script.deleteQueueKeys_frame _ _ hκ

end BullMQ
