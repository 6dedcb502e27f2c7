import BullMQ.Model.Dedup
import BullMQ.Model.Parent

/-!
# Removing jobs

Retention (`removeJobsByMaxAge`, `removeJobsByMaxCount`) deletes finished jobs; the script
`removeJob` deletes a job in any state, on request with its children. The recursion over children
follows keys in the store and takes fuel; a result of `none` says that the fuel ran out.
-/

namespace BullMQ

open Redis

/-! ### Retention -/

/-- `includes/removeJob` with `hard` false: delete the keys of a job that its set forgets. -/
def removeJob (p : String) (shouldRemoveDeduplicationKey : Bool) (s : Store) (jobId : String) :
    Store :=
  let jobKey := p ++ jobId
  let s := (removeParentDependencyKey jobKey none s).2
  let s :=
    if shouldRemoveDeduplicationKey then
      removeDeduplicationKeyIfNeededOnRemoval p jobId (s.deidOf jobKey) s
    else s
  removeJobKeys jobKey s

/-- `LIMIT 0 n`: a negative bound is none. -/
def limitTo (n : ℤ) (l : List String) : List String := if n < 0 then l else l.take n.toNat

theorem limitTo_sublist (n : ℤ) (l : List String) : (limitTo n l).Sublist l := by
  unfold limitTo
  split
  · exact List.Sublist.refl l
  · exact List.take_sublist _ _

/-- The jobs that `removeJobsByMaxAge` deletes. -/
def jobsByMaxAge (p : String) (targetSet : ZSetKey) (start maxLimit : ℤ) (s : Store) :
    List String :=
  limitTo maxLimit ((s (.zset targetSet) p).rangeUpTo start).reverse

/-- `removeJobsByMaxAge`. -/
def removeJobsByMaxAge (p : String) (timestamp maxAge : ℤ) (targetSet : ZSetKey) (maxLimit : ℤ)
    (s : Store) : Store :=
  let start := timestamp - maxAge * 1000
  let jobIds := jobsByMaxAge p targetSet start maxLimit s
  let s := jobIds.foldl (removeJob p false) s
  if jobIds = [] then s
  else if jobIds.length < maxLimit then
    s.modify (.zset targetSet) p fun z => z.zremAll (z.rangeUpTo start)
  else
    (batches jobIds.length 7000).foldl
      (fun s range => s.modify (.zset targetSet) p (·.zremAll (unpack jobIds range))) s

/-- `removeJobsByMaxCount`. -/
def removeJobsByMaxCount (p : String) (maxCount : ℕ) (targetSet : ZSetKey) (s : Store) : Store :=
  let jobIds := (s (.zset targetSet) p).members.reverse.drop maxCount
  let s := jobIds.foldl (removeJob p false) s
  s.modify (.zset targetSet) p fun z => z.zremAll (z.members.take (z.members.length - maxCount))

/-- The families a removal by retention writes, besides the set itself. -/
def removalWrites : List Kind := .de :: .dn :: (unlinkWrites ++ jobKeyWrites)

theorem removeJob_frame (p : String) (b : Bool) (s : Store) (j : String) {κ : Kind}
    (h : κ ∉ removalWrites) : removeJob p b s j κ = s κ := by
  obtain ⟨hde, hdn, hunlink, hkeys⟩ :
      κ ≠ .de ∧ κ ≠ .dn ∧ κ ∉ unlinkWrites ∧ κ ∉ jobKeyWrites := by
    simpa [removalWrites] using h
  simp only [removeJob]
  rw [removeJobKeys_frame _ _ hkeys, ← removeParentDependencyKey_frame (p ++ j) none s hunlink]
  split
  · exact removeDeduplicationKeyIfNeededOnRemoval_frame _ _ _ _ (by simp [hde, hdn])
  · rfl

theorem foldl_removeJob_frame (p : String) (b : Bool) (jobIds : List String) (s : Store)
    {κ : Kind} (h : κ ∉ removalWrites) : jobIds.foldl (removeJob p b) s κ = s κ := by
  induction jobIds generalizing s with
  | nil => rfl
  | cons j jobIds ih => rw [List.foldl_cons, ih, removeJob_frame p b s j h]

theorem foldl_zremAll_frame (p : String) (z : ZSetKey) (l : List String) (rs : List (ℕ × ℕ))
    (s : Store) {κ : Kind} (h : κ ≠ .zset z) :
    rs.foldl (fun s range => s.modify (.zset z) p (·.zremAll (unpack l range))) s κ = s κ := by
  induction rs generalizing s with
  | nil => rfl
  | cons r rs ih => rw [List.foldl_cons, ih, Keyspace.modify_of_ne _ h]

theorem removeJobsByMaxAge_frame (p : String) (t a : ℤ) (z : ZSetKey) (l : ℤ) (s : Store)
    {κ : Kind} (h : κ ∉ Kind.zset z :: removalWrites) :
    removeJobsByMaxAge p t a z l s κ = s κ := by
  obtain ⟨hz, hrem⟩ : κ ≠ .zset z ∧ κ ∉ removalWrites := by simpa using h
  simp only [removeJobsByMaxAge]
  split
  · exact foldl_removeJob_frame _ _ _ _ hrem
  · split
    · rw [Keyspace.modify_of_ne _ hz, foldl_removeJob_frame _ _ _ _ hrem]
    · rw [foldl_zremAll_frame _ _ _ _ _ hz, foldl_removeJob_frame _ _ _ _ hrem]

theorem removeJobsByMaxCount_frame (p : String) (n : ℕ) (z : ZSetKey) (s : Store)
    {κ : Kind} (h : κ ∉ Kind.zset z :: removalWrites) : removeJobsByMaxCount p n z s κ = s κ := by
  obtain ⟨hz, hrem⟩ : κ ≠ .zset z ∧ κ ∉ removalWrites := by simpa using h
  rw [removeJobsByMaxCount, Keyspace.modify_of_ne _ hz, foldl_removeJob_frame _ _ _ _ hrem]

/-! ### Removal on request -/

/-- The state `removeJobFromAnyState` finds a job in. -/
def stateForRemoval (p jobId : String) (s : Store) : Option (ListKey ⊕ ZSetKey) :=
  if jobId ∈ s (.zset .completed) p then some (.inr .completed)
  else if jobId ∈ s (.zset .waitingChildren) p then some (.inr .waitingChildren)
  else if jobId ∈ s (.zset .delayed) p then some (.inr .delayed)
  else if jobId ∈ s (.zset .failed) p then some (.inr .failed)
  else if jobId ∈ s (.zset .prioritized) p then some (.inr .prioritized)
  else if jobId ∈ s (.list .wait) p then some (.inl .wait)
  else if jobId ∈ s (.list .paused) p then some (.inl .paused)
  else if jobId ∈ s (.list .active) p then some (.inl .active)
  else none

/-- The name of a state in the `removed` event. -/
def stateName : Option (ListKey ⊕ ZSetKey) → String
  | some (.inr .completed) => "completed"
  | some (.inr .waitingChildren) => "waiting-children"
  | some (.inr .delayed) => "delayed"
  | some (.inr .failed) => "failed"
  | some (.inr .prioritized) => "prioritized"
  | some (.inl .wait) => "wait"
  | some (.inl .paused) => "paused"
  | some (.inl .active) => "active"
  | none => "unknown"

/-- `removeJobFromAnyState`: take a job out of the first container it is found in. -/
def removeJobFromAnyState (p jobId : String) (s : Store) : String × Store :=
  let state := stateForRemoval p jobId s
  (stateName state,
    match state with
    | some (.inr z) => s.modify (.zset z) p (·.zrem jobId)
    | some (.inl l) => s.modify (.list l) p (lremLeft jobId)
    | none => s)

/-- `isJobSchedulerJob`: whether the id is that of the next job of a job scheduler. -/
def isJobSchedulerJob (p jobId : String) (s : Store) : Bool :=
  match (s .hash (p ++ jobId)).bind Job.rjk with
  | none => false
  | some repeatJobKey =>
    match (s .repeatSet p).zscore repeatJobKey with
    | none => false
    | some prevMillis =>
      decide (jobId = "repeat:" ++ repeatJobKey ++ ":" ++ prevMillis.repr)

/-- `isLocked`: whether a job, or with `removeChildren` one of its pending descendants, is
locked. -/
def isLocked : ℕ → Bool → String → String → Store → Option Bool
  | 0, _, _, _, _ => none
  | fuel + 1, removeChildren, p, jobId, s =>
    let jobKey := p ++ jobId
    if (s .lock jobKey).isSome then some true
    else if removeChildren then
      (s .dependencies jobKey).members.foldlM (fun found childJobKey =>
        let childJobId := getJobIdFromKey childJobKey
        let childJobPrefix := getJobKeyPrefix childJobKey childJobId
        if found then some true
        else isLocked fuel removeChildren childJobPrefix childJobId s) false
    else some false

/-- The options of `removeJobWithChildren`. -/
structure RemoveOptions where
  removeChildren : Bool
  ignoreProcessed : Bool := false
  ignoreLocked : Bool := false
  deriving DecidableEq, Repr

section RemoveChildren

variable (removeChild : String → String → Option String → Store → Option Store)

/-- One round of the loops of `removeJobChildren`. -/
def removeChildKey (jobKey : String) (s : Store) (childJobKey : String) : Option Store :=
  let childJobId := getJobIdFromKey childJobKey
  let childJobPrefix := getJobKeyPrefix childJobKey childJobId
  removeChild childJobPrefix childJobId (some jobKey) s

/-- The loops of `removeJobChildren` over the children that are no longer pending. -/
def removeProcessedChildren (jobKey : String) (s : Store) : Option Store := do
  let s ← (s .processed jobKey).keys.foldlM (removeChildKey removeChild jobKey) s
  let s ← (s .failedChildren jobKey).keys.foldlM (removeChildKey removeChild jobKey) s
  (s .unsuccessful jobKey).members.foldlM (removeChildKey removeChild jobKey) s

/-- `removeJobChildren`, over the function that removes one child. -/
def removeJobChildren (options : RemoveOptions) (jobKey : String) (s : Store) : Option Store :=
  (if options.ignoreProcessed then some s
    else removeProcessedChildren removeChild jobKey s).bind fun s =>
      (s .dependencies jobKey).members.foldlM (removeChildKey removeChild jobKey) s

end RemoveChildren

/-- The last part of `removeJobWithChildren`: delete the job itself. -/
def deleteJob (p jobId : String) (s : Store) : Store :=
  let jobKey := p ++ jobId
  let (prev, s) := removeJobFromAnyState p jobId s
  let s := removeDeduplicationKeyIfNeededOnRemoval p jobId (s.deidOf jobKey) s
  let hadKeys := hasJobKeys jobKey s
  let s := removeJobKeys jobKey s
  if hadKeys then (getOrSetMaxEvents p s).xadd p (.removed jobId prev) else s

/-- `removeJobWithChildren`. -/
def removeJobWithChildren : ℕ → RemoveOptions → String → String → Option String → Store →
    Option Store
  | 0, _, _, _, _, _ => none
  | fuel + 1, options, p, jobId, parentKey, s =>
    let jobKey := p ++ jobId
    if options.ignoreLocked ∧ (s .lock jobKey).isSome then some s
    else if options.ignoreProcessed ∧ jobId ∈ s (.zset .failed) p then some s
    else
      let s := (removeParentDependencyKey jobKey parentKey s).2
      (if options.removeChildren then
        removeJobChildren (removeJobWithChildren fuel options) options jobKey s
      else some s).map (deleteJob p jobId)

namespace Script

/-- `removeJob`. -/
def removeJob (fuel : ℕ) (p jobId : String) (shouldRemoveChildren : Bool) (s : Store) :
    Option (Reply × Store) :=
  if isJobSchedulerJob p jobId s then some (.code (-8), s)
  else
    (isLocked fuel shouldRemoveChildren p jobId s).bind fun locked =>
      if locked then some (.code 0, s)
      else
        let options : RemoveOptions := { removeChildren := shouldRemoveChildren }
        (removeJobWithChildren fuel options p jobId none s).map fun s => (.code 1, s)

/-- `removeChildDependency`. -/
def removeChildDependency (jobKey parentKey : String) (s : Store) : Reply × Store :=
  if ¬ s.jobExists jobKey then (.code (-1), s)
  else if ¬ s.jobExists parentKey then (.code (-5), s)
  else
    let (removed, s) := removeParentDependencyKey jobKey (some parentKey) s
    if removed then (.code 0, s.hdel jobKey fun job => { job with parent := none })
    else (.code 1, s)

end Script

/-! ### What a removal on request writes -/

/-- The families `deleteJob` writes. -/
def deleteWrites : List Kind :=
  .metaMaxLenEvents :: .zset .completed :: .zset .delayed :: .zset .failed ::
    .zset .prioritized :: .list .paused :: .list .active :: removalWrites

theorem removeJobFromAnyState_frame (p j : String) (s : Store) {κ : Kind}
    (h : ∀ l, κ ≠ .list l) (h' : ∀ z, κ ≠ .zset z) : (removeJobFromAnyState p j s).2 κ = s κ := by
  simp only [removeJobFromAnyState]
  split
  · exact Keyspace.modify_of_ne _ (h' _) ..
  · exact Keyspace.modify_of_ne _ (h _) ..
  · rfl

theorem deleteJob_frame (p j : String) (s : Store) {κ : Kind} (h : κ ∉ deleteWrites) :
    deleteJob p j s κ = s κ := by
  have hmax : κ ∉ [Kind.metaMaxLenEvents] := Kind.notMem_mono h (by decide)
  have hev : κ ≠ .events := by rintro rfl; exact h (by decide)
  have hany : (removeJobFromAnyState p j s).2 κ = s κ := by
    refine removeJobFromAnyState_frame p j s (fun l hl => h ?_) fun z hz => h ?_
    · subst hl
      cases l <;> decide
    · subst hz
      cases z <;> decide
  simp only [deleteJob]
  split
  · rw [Store.xadd_of_ne _ _ _ hev, getOrSetMaxEvents_frame _ _ hmax,
      removeJobKeys_frame _ _ (Kind.notMem_mono h (by decide)),
      removeDeduplicationKeyIfNeededOnRemoval_frame _ _ _ _ (Kind.notMem_mono h (by decide)), hany]
  · rw [removeJobKeys_frame _ _ (Kind.notMem_mono h (by decide)),
      removeDeduplicationKeyIfNeededOnRemoval_frame _ _ _ _ (Kind.notMem_mono h (by decide)), hany]

/-! ### An invariant rule for removals

An invariant that the removal of a link and the deletion of a job keep is kept by a removal with
all its recursion. `V` is what the deletion needs to know of the queue and the id; that every
child key has it is part of what the invariant says. -/

/-- An invariant that every step of a fallible fold keeps is kept by the fold. -/
theorem foldlM_inv {α : Type} {I : Store → Prop} {f : Store → α → Option Store} {l : List α}
    (hf : ∀ a ∈ l, ∀ s s', I s → f s a = some s' → I s') {s s' : Store} (hs : I s)
    (h : l.foldlM f s = some s') : I s' := by
  induction l generalizing s with
  | nil =>
    obtain rfl : s = s' := by simpa using h
    exact hs
  | cons a l ih =>
    obtain ⟨s₁, h₁, h₂⟩ : ∃ s₁, f s a = some s₁ ∧ l.foldlM f s₁ = some s' := by
      simpa [List.foldlM_cons, Option.bind_eq_some_iff] using h
    exact ih (fun b hb => hf b (by simp [hb])) (hf a (by simp) _ _ hs h₁) h₂

/-- A child of a job, in one of its accounts. -/
def IsChildOf (s : Store) (jobKey childKey : String) : Prop :=
  ∃ a, childKey ∈ childrenIn s a jobKey

section Rule

variable {I : Store → Prop} {V : String → String → Prop}
  (hunlink : ∀ k o s, I s → I (removeParentDependencyKey k o s).2)
  (hdelete : ∀ p j s, V p j → I s → I (deleteJob p j s))
  (hchild : ∀ s k c, I s → IsChildOf s k c →
    V (getJobKeyPrefix c (getJobIdFromKey c)) (getJobIdFromKey c))

include hchild in
theorem removeJobChildren_rule
    {removeChild : String → String → Option String → Store → Option Store}
    (hrec : ∀ p j o s s', V p j → I s → removeChild p j o s = some s' → I s')
    {options : RemoveOptions} {k : String} {s s' : Store} (hs : I s)
    (h : removeJobChildren removeChild options k s = some s') : I s' := by
  have hfold : ∀ (l : List String) (s : Store), I s → (∀ c ∈ l, IsChildOf s k c) →
      ∀ s', l.foldlM (removeChildKey removeChild k) s = some s' → I s' :=
    fun l s₀ hs₀ hl s' h =>
      foldlM_inv (fun c hc s s' hs h => hrec _ _ _ _ _ (hchild s₀ k c hs₀ (hl c hc)) hs h) hs₀ h
  obtain ⟨s₁, h₁, h₂⟩ := Option.bind_eq_some_iff.mp h
  have hs₁ : I s₁ := by
    split at h₁
    · obtain rfl : s = s₁ := by simpa using h₁
      exact hs
    · obtain ⟨s₂, h₃, h₁⟩ := Option.bind_eq_some_iff.mp h₁
      obtain ⟨s₃, h₄, h₅⟩ := Option.bind_eq_some_iff.mp h₁
      have hs₂ := hfold _ s hs (fun c hc => ⟨.processed, hc⟩) _ h₃
      have hs₃ := hfold _ s₂ hs₂ (fun c hc => ⟨.failedChildren, hc⟩) _ h₄
      exact hfold _ s₃ hs₃ (fun c hc => ⟨.unsuccessful, hc⟩) _ h₅
  exact hfold _ s₁ hs₁ (fun c hc => ⟨.dependencies, hc⟩) _ h₂

include hunlink hdelete hchild in
/-- The invariant rule, by induction on the fuel. -/
theorem removeJobWithChildren_rule {fuel : ℕ} {options : RemoveOptions} {p j : String}
    {o : Option String} {s s' : Store} (hpj : V p j) (hs : I s)
    (h : removeJobWithChildren fuel options p j o s = some s') : I s' := by
  induction fuel generalizing p j o s s' with
  | zero => cases h
  | succ fuel ih =>
    simp only [removeJobWithChildren] at h
    split at h
    · obtain rfl : s = s' := by simpa using h
      exact hs
    · split at h
      · obtain rfl : s = s' := by simpa using h
        exact hs
      · obtain ⟨s₁, h₁, rfl⟩ := Option.map_eq_some_iff.mp h
        refine hdelete _ _ _ hpj ?_
        have hs₀ := hunlink (p ++ j) o s hs
        split at h₁
        · exact removeJobChildren_rule hchild (fun _ _ _ _ _ => ih) hs₀ h₁
        · obtain rfl : (removeParentDependencyKey (p ++ j) o s).2 = s₁ := by simpa using h₁
          exact hs₀

include hunlink hdelete hchild in
theorem Script.removeJob_rule {fuel : ℕ} {p j : String} {b : Bool} {s : Store}
    {r : Reply × Store} (hpj : V p j) (hs : I s)
    (h : Script.removeJob fuel p j b s = some r) : I r.2 := by
  unfold Script.removeJob at h
  split at h
  · obtain rfl : (Reply.code (-8), s) = r := by simpa using h
    exact hs
  · obtain ⟨locked, -, h⟩ := Option.bind_eq_some_iff.mp h
    split at h
    · obtain rfl : (Reply.code 0, s) = r := by simpa using h
      exact hs
    · obtain ⟨s₁, h₁, rfl⟩ := Option.map_eq_some_iff.mp h
      exact removeJobWithChildren_rule hunlink hdelete hchild hpj hs h₁

end Rule

theorem Script.removeJob_frame {fuel : ℕ} {p j : String} {b : Bool} {s : Store}
    {r : Reply × Store} (h : Script.removeJob fuel p j b s = some r) {κ : Kind}
    (hκ : κ ∉ deleteWrites) : r.2 κ = s κ :=
  removeJob_rule (I := fun s' => s' κ = s κ) (V := fun _ _ => True)
    (fun _ _ _ hs => (removeParentDependencyKey_frame _ _ _
      (Kind.notMem_mono hκ (by decide))).trans hs)
    (fun _ _ _ _ hs => (deleteJob_frame _ _ _ hκ).trans hs) (fun _ _ _ _ _ => trivial) trivial
    rfl h

theorem Script.removeChildDependency_frame (k k' : String) (s : Store) {κ : Kind}
    (h : κ ∉ Kind.hash :: unlinkWrites) : (removeChildDependency k k' s).2 κ = s κ := by
  obtain ⟨hhash, hun⟩ : κ ≠ .hash ∧ κ ∉ unlinkWrites := by simpa using h
  simp only [removeChildDependency]
  split
  · rfl
  · split
    · rfl
    · split
      · rw [Store.hdel_of_ne _ _ _ hhash, removeParentDependencyKey_frame _ _ _ hun]
      · exact removeParentDependencyKey_frame _ _ _ hun

end BullMQ
