import BullMQ.Model.Enqueue

/-!
# Deduplication

The deduplication key of an id names the winner, the job later adds with the same id are dropped
in favour of. With `keepLastIfActive` the last add made while the winner is active is kept as a
payload (`dn:` hash) and becomes a job when the winner finishes.
-/

namespace BullMQ

open Redis

/-! ### Job keys -/

/-- `removeJobKeys`: delete the hash of a job and its sub-keys, the lock excepted. -/
def removeJobKeys (jobKey : String) (s : Store) : Store :=
  let s : Store := s.set .hash jobKey none
  let s : Store := s.set .logs jobKey []
  let s : Store := s.set .dependencies jobKey ∅
  let s : Store := s.set .processed jobKey ∅
  let s : Store := s.set .failedChildren jobKey ∅
  s.set .unsuccessful jobKey ∅

/-- Whether `removeJobKeys` deletes any key. -/
def hasJobKeys (jobKey : String) (s : Store) : Bool :=
  s.jobExists jobKey || s .logs jobKey ≠ [] || s .dependencies jobKey ≠ ∅ ||
    (s .processed jobKey).keys ≠ [] || (s .failedChildren jobKey).keys ≠ [] ||
    s .unsuccessful jobKey ≠ ∅

/-- The families `removeJobKeys` writes. -/
def jobKeyWrites : List Kind :=
  [.hash, .logs, .dependencies, .processed, .failedChildren, .unsuccessful]

theorem removeJobKeys_frame (k : String) (s : Store) {κ : Kind} (h : κ ∉ jobKeyWrites) :
    removeJobKeys k s κ = s κ := by
  simp only [jobKeyWrites, List.mem_cons, List.not_mem_nil, or_false, not_or] at h
  obtain ⟨h1, h2, h3, h4, h5, h6⟩ := h
  simp only [removeJobKeys]
  rw [Keyspace.set_of_ne _ h6, Keyspace.set_of_ne _ h5, Keyspace.set_of_ne _ h4,
    Keyspace.set_of_ne _ h3, Keyspace.set_of_ne _ h2, Keyspace.set_of_ne _ h1]

theorem removeJobKeys_hash (k : String) (s : Store) :
    removeJobKeys k s .hash = Function.update (s .hash) k none := by
  simp only [removeJobKeys]
  rw [Keyspace.set_of_ne _ (by decide), Keyspace.set_of_ne _ (by decide),
    Keyspace.set_of_ne _ (by decide), Keyspace.set_of_ne _ (by decide),
    Keyspace.set_of_ne _ (by decide), Keyspace.set_self]

theorem removeJobKeys_dependencies (k : String) (s : Store) :
    removeJobKeys k s .dependencies = Function.update (s .dependencies) k ∅ := by
  simp only [removeJobKeys]
  rw [Keyspace.set_of_ne _ (by decide), Keyspace.set_of_ne _ (by decide),
    Keyspace.set_of_ne _ (by decide), Keyspace.set_self, Keyspace.set_of_ne _ (by decide),
    Keyspace.set_of_ne _ (by decide)]

/-- Register a new child: `SADD` to its parent's dependencies, if it has a parent. -/
def addParentDependency (parent : Option Parent) (jobIdKey : String) (s : Store) : Store :=
  match parent with
  | some P => s.modify .dependencies P.key (·.sadd jobIdKey)
  | none => s

theorem addParentDependency_frame (P : Option Parent) (k : String) (s : Store) {κ : Kind}
    (h : κ ≠ .dependencies) : addParentDependency P k s κ = s κ := by
  unfold addParentDependency
  split
  · exact Keyspace.modify_of_ne _ h ..
  · rfl

/-! ### Adding under a deduplication id -/

/-- The arguments of the add scripts, apart from the queue. `customId` is empty when the id is to
be drawn from the counter; the parent's key and dependency key are those of `parent`. -/
structure AddArgs where
  customId : String := ""
  name : String
  data : String
  timestamp : ℤ
  opts : JobOpts := {}
  parent : Option Parent := none
  repeatJobKey : Option String := none
  deriving DecidableEq, Repr

/-- The key of a deduplication id. -/
def deduplicationKey (p deduplicationId : String) : String := p ++ "de:" ++ deduplicationId

/-- The key of the payload kept for a deduplication id. -/
def deduplicationNextKey (p deduplicationId : String) : String := p ++ "dn:" ++ deduplicationId

/-- `setDeduplicationKey`. -/
def setDeduplicationKey (key jobId : String) (ttl : Option ℤ) (s : Store) : Store :=
  s.set .de key (some ⟨jobId, (ttl.filter (0 < ·)).map Int.toNat⟩)

/-- `storeDeduplicatedNextJob`: keep an add as the successor of an active winner. Returns whether
it was kept. -/
def storeDeduplicatedNextJob (p : String) (de : DeduplicationOpts)
    (currentDeduplicatedJobId jobId : String) (a : AddArgs) (s : Store) : Bool × Store :=
  if de.keepLastIfActive ∧ currentDeduplicatedJobId ∈ s (.list .active) p then
    let s : Store := s.set .dn (deduplicationNextKey p de.id)
      (some ⟨a.name, a.data, a.opts, jobId, a.parent, a.repeatJobKey⟩)
    let s : Store := s.modify .de (deduplicationKey p de.id) fun key =>
      key.map fun key => { key with pttl := none }
    (true, s.xadd p (.deduplicated currentDeduplicatedJobId de.id jobId))
  else (false, s)

/-- `deduplicateJobWithoutReplace`: the winner in whose favour the add is dropped, if any. -/
def deduplicateJobWithoutReplace (p : String) (de : DeduplicationOpts) (jobId : String)
    (a : AddArgs) (s : Store) : Option String × Store :=
  let key := deduplicationKey p de.id
  let ttl := if de.keepLastIfActive then none else de.ttl
  match s .de key with
  | none => (none, setDeduplicationKey key jobId ttl s)
  | some current =>
    match storeDeduplicatedNextJob p de current.jobId jobId a s with
    | (true, s) => (some current.jobId, s)
    | (false, s) =>
      -- Only the extending mode with a positive ttl touches an existing key.
      let s : Store :=
        if de.extend ∧ (de.ttl.filter (0 < ·)).isSome then
          setDeduplicationKey key current.jobId ttl s
        else s
      (some current.jobId, s.xadd p (.deduplicated current.jobId de.id jobId))

/-- `removeDelayedJob`: delete the winner if it is delayed. Returns whether it was. -/
def removeDelayedJob (p currentDeduplicatedJobId jobId deduplicationId : String) (s : Store) :
    Bool × Store :=
  if currentDeduplicatedJobId ∈ s (.zset .delayed) p then
    let s : Store := s.modify (.zset .delayed) p (·.zrem currentDeduplicatedJobId)
    let s := removeJobKeys (p ++ currentDeduplicatedJobId) s
    let s := s.xadd p (.removed currentDeduplicatedJobId "delayed")
    (true, s.xadd p (.deduplicated jobId deduplicationId currentDeduplicatedJobId))
  else (false, s)

/-- `deduplicateJob`. -/
def deduplicateJob (p : String) (de : DeduplicationOpts) (jobId : String) (a : AddArgs)
    (s : Store) : Option String × Store :=
  let key := deduplicationKey p de.id
  if de.replace then
    match s .de key with
    | some current =>
      match removeDelayedJob p current.jobId jobId de.id s with
      | (true, s) =>
        if de.keepLastIfActive then (none, setDeduplicationKey key jobId none s)
        else if ¬ de.extend ∧ (de.ttl.filter (0 < ·)).isSome then
          -- `SET ... KEEPTTL`
          (none, s.set .de key (some ⟨jobId, (s .de key).bind DeduplicationKey.pttl⟩))
        else (none, setDeduplicationKey key jobId de.ttl s)
      | (false, s) =>
        (some current.jobId, (storeDeduplicatedNextJob p de current.jobId jobId a s).2)
    | none =>
      (none, setDeduplicationKey key jobId (if de.keepLastIfActive then none else de.ttl) s)
  else deduplicateJobWithoutReplace p de jobId a s

/-- The families the deduplication of an add writes. -/
def dedupWrites : List Kind := .de :: .dn :: .events :: .zset .delayed :: jobKeyWrites

theorem setDeduplicationKey_frame (k j : String) (t : Option ℤ) (s : Store) {κ : Kind}
    (h : κ ≠ .de) : setDeduplicationKey k j t s κ = s κ :=
  Keyspace.set_of_ne _ h ..

theorem storeDeduplicatedNextJob_frame (p : String) (de : DeduplicationOpts) (c j : String)
    (a : AddArgs) (s : Store) {κ : Kind} (h : κ ∉ [Kind.de, .dn, .events]) :
    (storeDeduplicatedNextJob p de c j a s).2 κ = s κ := by
  simp only [List.mem_cons, List.not_mem_nil, or_false, not_or] at h
  simp only [storeDeduplicatedNextJob]
  split
  · rw [Store.xadd_of_ne _ _ _ h.2.2, Keyspace.modify_of_ne _ h.1, Keyspace.set_of_ne _ h.2.1]
  · rfl

theorem deduplicateJobWithoutReplace_frame (p : String) (de : DeduplicationOpts) (j : String)
    (a : AddArgs) (s : Store) {κ : Kind} (h : κ ∉ [Kind.de, .dn, .events]) :
    (deduplicateJobWithoutReplace p de j a s).2 κ = s κ := by
  have hde : κ ≠ .de := by
    rintro rfl
    simp at h
  have hev : κ ≠ .events := by
    rintro rfl
    simp at h
  simp only [deduplicateJobWithoutReplace]
  split
  · exact setDeduplicationKey_frame _ _ _ _ hde
  · next current _ =>
    have hnext := storeDeduplicatedNextJob_frame p de current.jobId j a s h
    split
    · next s' heq => rwa [heq] at hnext
    · next s' heq =>
      rw [heq] at hnext
      rw [Store.xadd_of_ne _ _ _ hev, ← hnext]
      split
      · exact setDeduplicationKey_frame _ _ _ _ hde
      · rfl

theorem removeDelayedJob_frame (p c j i : String) (s : Store) {κ : Kind} (h : κ ∉ dedupWrites) :
    (removeDelayedJob p c j i s).2 κ = s κ := by
  obtain ⟨-, -, hev, hdel, hkeys⟩ :
      κ ≠ .de ∧ κ ≠ .dn ∧ κ ≠ .events ∧ κ ≠ .zset .delayed ∧ κ ∉ jobKeyWrites := by
    simpa [dedupWrites] using h
  simp only [removeDelayedJob]
  split
  · rw [Store.xadd_of_ne _ _ _ hev, Store.xadd_of_ne _ _ _ hev, removeJobKeys_frame _ _ hkeys,
      Keyspace.modify_of_ne _ hdel]
  · rfl

theorem deduplicateJob_frame (p : String) (de : DeduplicationOpts) (j : String) (a : AddArgs)
    (s : Store) {κ : Kind} (h : κ ∉ dedupWrites) : (deduplicateJob p de j a s).2 κ = s κ := by
  obtain ⟨hde, hdn, hev, -, -⟩ :
      κ ≠ .de ∧ κ ≠ .dn ∧ κ ≠ .events ∧ κ ≠ .zset .delayed ∧ κ ∉ jobKeyWrites := by
    simpa [dedupWrites] using h
  have h3 : κ ∉ [Kind.de, .dn, .events] := by simp [hde, hdn, hev]
  simp only [deduplicateJob]
  split
  · split
    · next current _ =>
      have hrem := removeDelayedJob_frame p current.jobId j de.id s h
      split
      · next s' heq =>
        rw [heq] at hrem
        split
        · rw [setDeduplicationKey_frame _ _ _ _ hde, hrem]
        · split
          · rw [Keyspace.set_of_ne _ hde, hrem]
          · rw [setDeduplicationKey_frame _ _ _ _ hde, hrem]
      · next s' heq =>
        rw [heq] at hrem
        rw [storeDeduplicatedNextJob_frame _ _ _ _ _ _ h3, hrem]
    · exact setDeduplicationKey_frame _ _ _ _ hde
  · exact deduplicateJobWithoutReplace_frame _ _ _ _ _ h3

/-! ### End of a winner -/

/-- `removeDeduplicationKeyIfNeededOnFinalization`: a key without expiry goes with its winner. -/
def removeDeduplicationKeyIfNeededOnFinalization (p : String) (deduplicationId : Option String)
    (jobId : String) (s : Store) : Store :=
  match deduplicationId with
  | none => s
  | some deduplicationId =>
    let key := deduplicationKey p deduplicationId
    match s .de key with
    | none => s
    | some ⟨_, some 0⟩ => s.set .de key none
    | some ⟨_, some (_ + 1)⟩ => s
    | some ⟨currentJobId, none⟩ => if currentJobId = jobId then s.set .de key none else s

/-- `removeDeduplicationKeyIfNeededOnRemoval`: the key and the kept payload go with the winner. -/
def removeDeduplicationKeyIfNeededOnRemoval (p : String) (jobId : String)
    (deduplicationId : Option String) (s : Store) : Store :=
  match deduplicationId with
  | none => s
  | some deduplicationId =>
    let key := deduplicationKey p deduplicationId
    if (s .de key).map DeduplicationKey.jobId = some jobId then
      (s.set .de key none).set .dn (deduplicationNextKey p deduplicationId) none
    else s

/-- `removeDeduplicationKey`: `DEL` of a deduplication key, if the job holds it. -/
def Script.removeDeduplicationKey (p deduplicationId jobId : String) (s : Store) : Reply × Store :=
  let key := deduplicationKey p deduplicationId
  if (s .de key).map DeduplicationKey.jobId = some jobId then (.code 1, s.set .de key none)
  else (.code 0, s)

/-- `requeueDeduplicatedJob`: create the kept successor of a winner that finishes. -/
def requeueDeduplicatedJob (p : String) (deduplicationId : Option String) (timestamp : ℤ)
    (s : Store) : Store :=
  match deduplicationId with
  | none => s
  | some deduplicationId =>
    match s .dn (deduplicationNextKey p deduplicationId) with
    | none => s
    | some next =>
      let s : Store := s.modify .id p (· + 1)
      let key := deduplicationKey p deduplicationId
      let keepLastIfActive := (next.opts.de.map DeduplicationOpts.keepLastIfActive).getD false
      let s := setDeduplicationKey key next.jid
        (if keepLastIfActive then none else next.opts.de.bind DeduplicationOpts.ttl) s
      let s := getOrSetMaxEvents p s
      let s := storeAndEnqueueJob p next.jid next.name next.data next.opts timestamp next.parent
        next.rjk s
      let s := addParentDependency next.parent (p ++ next.jid) s
      s.set .dn (deduplicationNextKey p deduplicationId) none

theorem removeDeduplicationKeyIfNeededOnFinalization_frame (p : String) (d : Option String)
    (j : String) (s : Store) {κ : Kind} (h : κ ≠ .de) :
    removeDeduplicationKeyIfNeededOnFinalization p d j s κ = s κ := by
  unfold removeDeduplicationKeyIfNeededOnFinalization
  split
  · rfl
  · simp only
    split
    · rfl
    · exact Keyspace.set_of_ne _ h ..
    · rfl
    · split
      · exact Keyspace.set_of_ne _ h ..
      · rfl

theorem removeDeduplicationKeyIfNeededOnRemoval_frame (p : String) (j : String)
    (d : Option String) (s : Store) {κ : Kind} (h : κ ∉ [Kind.de, .dn]) :
    removeDeduplicationKeyIfNeededOnRemoval p j d s κ = s κ := by
  simp only [List.mem_cons, List.not_mem_nil, or_false, not_or] at h
  unfold removeDeduplicationKeyIfNeededOnRemoval
  split
  · rfl
  · simp only
    split
    · rw [Keyspace.set_of_ne _ h.2, Keyspace.set_of_ne _ h.1]
    · rfl

/-- The families the creation of a job writes, besides its parent's dependencies. -/
def enqueueWrites : List Kind :=
  [.hash, .events, .list .wait, .zset .prioritized, .zset .delayed, .pc, .marker]

theorem storeAndEnqueueJob_frame (p j n d : String) (o : JobOpts) (t : ℤ) (P : Option Parent)
    (r : Option String) (s : Store) {κ : Kind} (h : κ ∉ enqueueWrites) :
    storeAndEnqueueJob p j n d o t P r s κ = s κ := by
  simp only [enqueueWrites, List.mem_cons, List.not_mem_nil, or_false, not_or] at h
  obtain ⟨hhash, hev, hwait, hprio, hdel, hpc, hmark⟩ := h
  have hstore := storeJob_frame p j n d o t P r s (κ := κ) (by simp [*])
  simp only [storeAndEnqueueJob]
  split
  · rw [addDelayedJob_frame _ _ _ _ _ (by simp [*]), hstore]
  · rw [Store.xadd_of_ne _ _ _ hev, ← hstore]
    split
    · exact addJobWithPriority_frame _ _ _ _ _ (by simp [*])
    · exact addJobInTargetList_frame _ _ _ _ _ (by simp [*])

/-- Enqueuing writes no hash after that of the job is stored. -/
theorem storeAndEnqueueJob_hash (p j n d : String) (o : JobOpts) (t : ℤ) (P : Option Parent)
    (r : Option String) (s : Store) :
    storeAndEnqueueJob p j n d o t P r s .hash = storeJob p j n d o t P r s .hash := by
  simp only [storeAndEnqueueJob]
  split
  · exact addDelayedJob_frame _ _ _ _ _ (by decide)
  · rw [Store.xadd_of_ne _ _ _ (by decide)]
    split
    · exact addJobWithPriority_frame _ _ _ _ _ (by decide)
    · exact addJobInTargetList_frame _ _ _ _ _ (by decide)

/-- The families `requeueDeduplicatedJob` writes. -/
def requeueWrites : List Kind :=
  .id :: .de :: .dn :: .metaMaxLenEvents :: .dependencies :: enqueueWrites

theorem requeueDeduplicatedJob_frame (p : String) (d : Option String) (t : ℤ) (s : Store)
    {κ : Kind} (h : κ ∉ requeueWrites) : requeueDeduplicatedJob p d t s κ = s κ := by
  obtain ⟨hid, hde, hdn, hmax, hdep, henq⟩ :
      κ ≠ .id ∧ κ ≠ .de ∧ κ ≠ .dn ∧ κ ≠ .metaMaxLenEvents ∧ κ ≠ .dependencies ∧
        κ ∉ enqueueWrites := by simpa [requeueWrites] using h
  unfold requeueDeduplicatedJob
  split
  · rfl
  · split
    · rfl
    · next next _ =>
      simp only
      rw [Keyspace.set_of_ne _ hdn, addParentDependency_frame _ _ _ hdep,
        storeAndEnqueueJob_frame _ _ _ _ _ _ _ _ _ henq,
        getOrSetMaxEvents_frame _ _ (by simpa using hmax), setDeduplicationKey_frame _ _ _ _ hde,
        Keyspace.modify_of_ne _ hid]

/-- A successor without a parent is registered nowhere. -/
theorem requeueDeduplicatedJob_frame_of_parentless {p : String} {s : Store}
    (hparent : ∀ d next, s .dn (deduplicationNextKey p d) = some next → next.parent = none)
    (d : Option String) (t : ℤ) {κ : Kind}
    (h : κ ∉ Kind.id :: .de :: .dn :: .metaMaxLenEvents :: enqueueWrites) :
    requeueDeduplicatedJob p d t s κ = s κ := by
  obtain ⟨hid, hde, hdn, hmax, henq⟩ : κ ≠ .id ∧ κ ≠ .de ∧ κ ≠ .dn ∧ κ ≠ .metaMaxLenEvents ∧
      κ ∉ enqueueWrites := by simpa using h
  unfold requeueDeduplicatedJob
  split
  · rfl
  · split
    · rfl
    · next next hnext =>
      simp only
      rw [Keyspace.set_of_ne _ hdn, hparent _ next hnext, addParentDependency,
        storeAndEnqueueJob_frame _ _ _ _ _ _ _ _ _ henq,
        getOrSetMaxEvents_frame _ _ (by simpa using hmax), setDeduplicationKey_frame _ _ _ _ hde,
        Keyspace.modify_of_ne _ hid]

/-- The payload of the deduplication id is used up, the others stay. -/
theorem requeueDeduplicatedJob_dn (p : String) (d : Option String) (t : ℤ) (s : Store) :
    requeueDeduplicatedJob p d t s .dn =
      d.elim (s .dn) fun d => Function.update (s .dn) (deduplicationNextKey p d) none := by
  unfold requeueDeduplicatedJob
  split
  · rfl
  · next d =>
    split
    · next hnone =>
      funext k
      simp only [Option.elim_some, Function.update_apply]
      split
      · next hk => rw [hk, hnone]
      · rfl
    · simp only [Option.elim_some]
      rw [Keyspace.set_self, addParentDependency_frame _ _ _ (by decide),
        storeAndEnqueueJob_frame _ _ _ _ _ _ _ _ _ (by decide),
        getOrSetMaxEvents_frame _ _ (by decide), setDeduplicationKey_frame _ _ _ _ (by decide),
        Keyspace.modify_of_ne _ (by decide)]

end BullMQ
