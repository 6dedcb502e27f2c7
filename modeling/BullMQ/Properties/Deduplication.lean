import BullMQ.Dedup.Finish
import BullMQ.Dedup.Sweeps
import BullMQ.Lifecycle.Scripts
import BullMQ.Properties.JobIds

/-!
# One job for a deduplication id

A deduplication id of a queue that is used in simple mode only, without a time to live, without
replacement and without `keepLastIfActive`. The register of the queue says what each script does to
jobs and deduplication keys, one event at a time, and none of these events ends the exclusive claim
of the id's holder (`UniqueHolder`). So the key of the id names the one unfinished job that carries
it, and an add made meanwhile is dropped in favour of that job (`simple_deduplication`).

Other ids of the same queue, and of other queues, are used in any mode. What does not occur is a
finished job that starts again, a job that waits for its children, and an `obliterate`, which lets
the queue's ids start again.
-/

namespace BullMQ

open Redis Claims

/-! ### What may happen -/

/-- An add with an id that is new: drawn from the counter, or given, and then legal, not a number,
not spelled like another key of the queue and in use nowhere in it. -/
structure FreshAdd (Q : QueueSet) (q : String) (a : AddArgs) (s : Store) : Prop where
  base : Q.Base q
  legal : a.customId ≠ "" → QueueSet.Legal a.customId
  notNumeral : ∀ n : ℕ, a.customId ≠ n.repr
  notKeyName : a.customId ≠ "" → isOwnKeyName a.customId = false
  colonFree : a.parent ≠ none → ColonFree a.customId
  unused : a.customId ≠ "" → Unused DeduplicatedNextJob.jid (s.claims q) a.customId

/-- An add deduplicates in simple mode if it does so by the id `d`. -/
def AddArgs.SimpleFor (a : AddArgs) (d : String) : Prop :=
  ∀ de, a.opts.de = some de → de.id = d →
    de.ttl = none ∧ de.replace = false ∧ de.keepLastIfActive = false

/-- The commands of runs in which the id `d` of the queue `p` is used in simple mode. -/
def QueueCommand.Simple (Q : QueueSet) (p d : String) (s : Store) : QueueCommand → Prop
  | .job (.addStandardJob q a) | .job (.addDelayedJob q a) | .job (.addPrioritizedJob q a) =>
    FreshAdd Q q a s ∧ (q = p → a.SimpleFor d)
  | .job (.addParentJob ..) | .job (.moveToWaitingChildren ..) => False
  | .job (.reprocessJob ..) | .job (.moveJobsToWait ..) => False
  | .job (.moveToFinished q _) | .job (.removeJob _ q _ _) => Q.Base q
  | .job _ | .removeUnprocessedChildren .. => True
  | .cleanJobsInSet q .. | .drain q _ => Q.Base q
  | .expireDeduplicationKey q _ | .elapseDeduplicationKey q _ _ => Q.Base q
  | .addJobScheduler .. | .updateJobScheduler .. | .obliterate .. => False

/-- An unfinished job that carries a deduplication id. -/
structure UnfinishedWith (s : Store) (p d j : String) : Prop where
  carries : s.deidOf (p ++ j) = some d
  notCompleted : j ∉ s (.zset .completed) p
  notFailed : j ∉ s (.zset .failed) p

variable {Q : QueueSet} {p q d j : String} {a : AddArgs} {s s' : Store}

theorem unfinishedWith_iff :
    UnfinishedWith s p d j ↔ (s.claims p).job j = some ⟨some d, false⟩ := by
  simp only [Store.claims, Option.map_eq_some_iff, Entry.mk.injEq, Finished,
    decide_eq_false_iff_not, not_or]
  constructor
  · intro h
    obtain ⟨job, hjob, hde⟩ := Option.bind_eq_some_iff.mp h.carries
    exact ⟨job, hjob, hde, h.notCompleted, h.notFailed⟩
  · rintro ⟨job, hjob, hde, hc, hf⟩
    exact ⟨Option.bind_eq_some_iff.mpr ⟨job, hjob, hde⟩, hc, hf⟩

/-! ### Nobody waits for children -/

/-- The containers apart from `waiting-children`. -/
def lineContainers : List Container :=
  [.inl .wait, .inl .paused, .inl .active, .inr .prioritized, .inr .delayed, .inr .completed,
    .inr .failed]

theorem mem_lineContainers {c : Container} : c ∈ lineContainers ↔ c ≠ .inr .waitingChildren := by
  rcases c with (_ | _ | _) | (_ | _ | _ | _ | _) <;> simp [lineContainers]

theorem nobodyWaits_iff : NobodyWaits s ↔ ∀ q i, Within lineContainers q i s := by
  constructor
  · intro h q i c hd
    refine mem_lineContainers.mpr fun hc => h q i ?_
    subst hc
    exact mem_zset_iff.mpr hd
  · intro h q i hi
    exact mem_lineContainers.mp ((h q i).zset hi) rfl

namespace NobodyWaits

theorem of_frame {W : List Kind} (h : NobodyWaits s) (hW : Kind.zset .waitingChildren ∉ W)
    (hs : ∀ {κ}, κ ∉ W → s' κ = s κ) : NobodyWaits s' := fun q i => by
  rw [hs hW]
  exact h q i

theorem of_within (h : NobodyWaits s)
    (hs : ∀ q i, Within lineContainers q i s → Within lineContainers q i s') : NobodyWaits s' :=
  nobodyWaits_iff.mpr fun q i => hs q i (nobodyWaits_iff.mp h q i)

theorem empty : NobodyWaits .empty := fun _ i => SortedSet.notMem_empty i

end NobodyWaits

theorem allows_line {b c : Container} (h : c ≠ .inr .waitingChildren) :
    Allows lineContainers b c := fun _ => mem_lineContainers.mpr h

theorem allowsRelease_line : AllowsRelease lineContainers :=
  ⟨allows_line (by simp), allows_line (by simp), allows_line (by simp)⟩

theorem allowsFetch_line : AllowsFetch lineContainers :=
  ⟨⟨allows_line (by simp), allows_line (by simp)⟩, allows_line (by simp), allows_line (by simp)⟩

theorem allowsEntry_line : AllowsEntry lineContainers :=
  ⟨mem_lineContainers.mpr (by simp), mem_lineContainers.mpr (by simp),
    mem_lineContainers.mpr (by simp)⟩

/-- An add that enqueues its job elsewhere makes nobody wait for children. -/
theorem NobodyWaits.addJobWith {mode : AddMode} (h : NobodyWaits s) (hmode : mode.Framed)
    (henqueue : ∀ i a s, NobodyWaits s → NobodyWaits (mode.enqueue i a s)) (q : String)
    (a : AddArgs) : NobodyWaits (addJobWith mode q a s).2 := by
  have hdrawn : NobodyWaits (drawId q s) := h.of_frame (by decide) (drawId_frame q s)
  have hstore : ∀ i t, NobodyWaits t → NobodyWaits (storeNewJob mode q i a t) := fun i t ht =>
    (henqueue i a _ (ht.of_frame (by decide) (storeJob_frame _ _ _ _ _ _ _ _ _))).of_frame
      (W := [.dependencies]) (by decide) fun hκ =>
        addParentDependency_frame _ _ _ (by simpa using hκ)
  -- The parent is missing, the id is taken, or the job is new.
  obtain ⟨-, hres⟩ | ⟨-, -, -, hres⟩ | ⟨i, -, -, hres⟩ := addJobWith_ends mode q a s <;> rw [hres]
  · exact h
  · exact hdrawn.of_within fun q' i' hs => hs.handleDuplicatedJob allowsRelease_line q _ _ _
  · cases hde : a.opts.de with
    | none =>
      rw [addNewJob_of_none hde]
      exact hstore i _ hdrawn
    | some de =>
      have hded : NobodyWaits (mode.deduplicate de i a (drawId q s)).2 :=
        hdrawn.of_frame (W := dedupWrites) (by decide) fun hκ => hmode.deduplicate _ _ _ _ _ hκ
      rcases hres : mode.deduplicate de i a (drawId q s) with ⟨_ | w, t⟩ <;> rw [hres] at hded
      · simp only [addNewJob, hde, hres]
        exact hstore i t hded
      · simpa only [addNewJob, hde, hres] using hded

/-- A removal makes nobody wait for children. -/
theorem NobodyWaits.removeJob {n : ℕ} {b : Bool} {r : Reply × Store} (h : NobodyWaits s)
    (hexec : Script.removeJob n q j b s = some r) : NobodyWaits r.2 :=
  Script.removeJob_rule (I := NobodyWaits) (V := fun _ _ => True)
    (fun k o _ hs => hs.of_within fun _ _ hw => hw.removeParentDependencyKey
      (allows_line (by simp)) k o)
    (fun q i _ _ hs => hs.of_within fun _ _ hw => hw.deleteJob q i) (fun _ _ _ _ _ => trivial)
    trivial h hexec

theorem NobodyWaits.removeUnprocessedChildren {n : ℕ} {r : Reply × Store} (h : NobodyWaits s)
    (hexec : Script.removeUnprocessedChildren n q j s = some r) : NobodyWaits r.2 := by
  obtain ⟨s', hs', rfl⟩ := Option.map_eq_some_iff.mp hexec
  refine removeJobChildren_rule (I := NobodyWaits) (V := fun _ _ => True)
    (fun _ _ _ _ _ => trivial) (fun q i o t t' _ ht hrec => ?_) h hs'
  exact removeJobWithChildren_rule (V := fun _ _ => True)
    (fun k o _ hs => hs.of_within fun _ _ hw => hw.removeParentDependencyKey
      (allows_line (by simp)) k o)
    (fun q i _ _ hs => hs.of_within fun _ _ hw => hw.deleteJob q i) (fun _ _ _ _ _ => trivial)
    trivial ht hrec

/-- The scripts that move jobs lead them elsewhere, one apart. -/
theorem NobodyWaits.carries {c : Command} {r : Reply × Store} (h : NobodyWaits s)
    (hc : c.Carries) (hwaits : ∀ q i t k ts, c ≠ .moveToWaitingChildren q i t k ts)
    (hexec : c.exec s = some r) : NobodyWaits r.2 := by
  refine h.of_within fun p' j' hw => ?_
  cases c with
  | addStandardJob q a => exact hc.elim
  | addDelayedJob q a => exact hc.elim
  | addPrioritizedJob q a => exact hc.elim
  | addParentJob q a => exact hc.elim
  | moveToFinished q a => exact hc.elim
  | removeJob n q i b => exact hc.elim
  | reprocessJob q a => exact hc.elim
  | moveJobsToWait q st m t => exact hc.elim
  | removeChildDependency k k' => exact hc.elim
  | moveToWaitingChildren q i t k ts => exact absurd rfl (hwaits q i t k ts)
  | moveToActive q t o => cases hexec; exact hw.moveToActive allowsFetch_line q t o
  | moveToDelayed q a =>
    cases hexec
    exact hw.moveToDelayed allowsFetch_line fun _ _ _ => mem_lineContainers.mpr (by simp)
  | retryJob q a =>
    cases hexec
    exact hw.retryJob allowsFetch_line.toAllowsPromotion fun _ _ _ =>
      ⟨allowsEntry_line.wait, allowsEntry_line.prioritized⟩
  | moveJobFromActiveToWait q i t =>
    cases hexec
    exact hw.moveJobFromActiveToWait fun _ _ _ =>
      ⟨allowsEntry_line.wait, allowsEntry_line.prioritized⟩
  | moveStalledJobsToWait q m t n =>
    cases hexec
    exact hw.moveStalledJobsToWait (allows_line (by simp)) q m t n
  | promote q i => cases hexec; exact hw.promote allowsFetch_line.toAllowsPromotion q i
  | changeDelay q d t i => cases hexec; exact hw.changeDelay q i d t
  | changePriority q n i l =>
    cases hexec
    exact hw.changePriority (allows_line (by simp)) (allows_line (by simp)) q i n l
  | pause q b e => cases hexec; exact hw.pause (allows_line (by simp)) q b e
  -- The rest moves no job.
  | _ =>
    refine hw.of_frame ?_ fun hκ => Command.exec_frame hexec hκ
    simp only [Command.writes]
    decide

/-! ### The invariant -/

/-- The id `d` of the queue `p` is claimed by the one unfinished job that carries it, for good. -/
structure UniqueHolder (Q : QueueSet) (p d : String) (s : Store) : Prop extends DedupBase Q s where
  naming : Naming DeduplicatedNextJob.jid (s.claims p)
  exclusive : Exclusive d (s.claims p)
  nobodyWaits : NobodyWaits s

namespace UniqueHolder

theorem empty (Q : QueueSet) (p d : String) : UniqueHolder Q p d .empty where
  toDedupBase := .empty Q
  naming :=
    { carries := fun _ _ hd => by cases hd
      unreserved := fun _ _ hn => by cases hn }
  exclusive := .of_none (fun _ hj => by cases hj) rfl
  nobodyWaits := .empty

/-- Events that bring only new ids into use and make no expiring claim on the id. -/
theorem events (h : UniqueHolder Q p d s) (hp : Q.Base p) (hbase : DedupBase Q s')
    (hwaits : NobodyWaits s') (htrace : Trace DeduplicatedNextJob.jid (fun c e =>
      FreshNames DeduplicatedNextJob.jid c e ∧ KeepsExclusive d e) (s.claims p) (s'.claims p)) :
    UniqueHolder Q p d s' := by
  obtain ⟨-, hnaming, hexclusive⟩ := htrace.invariant
    (I := fun c => Reserving DeduplicatedNextJob.jid c ∧ Naming DeduplicatedNextJob.jid c ∧
      Exclusive d c)
    (fun ⟨hfresh, hkeeps⟩ hact ⟨hres, hname, hexcl⟩ =>
      ⟨hact.reserving hres, hact.naming hfresh hres hname, hact.exclusive hkeeps hres hname hexcl⟩)
    ⟨h.reserving hp, h.naming, h.exclusive⟩
  exact ⟨hbase, hnaming, hexclusive, hwaits⟩

theorem of_claims (h : UniqueHolder Q p d s) (hp : Q.Base p) (hbase : DedupBase Q s')
    (hwaits : NobodyWaits s') (hclaims : s'.claims p = s.claims p) : UniqueHolder Q p d s' :=
  h.events hp hbase hwaits (hclaims ▸ .refl _)

/-- Deletions of jobs with what they hold. -/
theorem removal (h : UniqueHolder Q p d s) (hp : Q.Base p) (hstep : RemovalStep Q s s')
    (hwaits : NobodyWaits s') : UniqueHolder Q p d s' :=
  h.events hp hstep.base hwaits ((hstep.trace hp).mono (I := fun _ => True)
    (fun ⟨i, hi⟩ _ _ => ⟨by subst hi; exact ⟨trivial, trivial⟩, trivial⟩) trivial)

/-- A finish releases what the job holds. -/
theorem moveToFinished (h : UniqueHolder Q p d s) (hp : Q.Base p) (hq : Q.Base q)
    (a : FinishArgs) : UniqueHolder Q p d (Script.moveToFinished q a s).2 := by
  obtain ⟨hbase, hothers, htrace⟩ := moveToFinished_step h.toDedupBase hq a
  have hwaits : NobodyWaits (Script.moveToFinished q a s).2 := h.nobodyWaits.of_within
    fun _ _ hw => hw.moveToFinished (.inr allowsEntry_line) allowsRelease_line allowsFetch_line
      fun _ _ _ => mem_lineContainers.mpr (by cases a.target <;> simp [FinishedStatus.zset])
  by_cases hqp : q = p
  · subst hqp
    refine h.events hp hbase hwaits (htrace.mono (I := fun _ => True) (fun {_ e _} he _ _ => ?_)
      trivial)
    cases e <;> first
      | exact he.elim
      | exact ⟨⟨trivial, trivial⟩, trivial⟩
  · exact h.of_claims hp hbase hwaits (hothers hp (Ne.symm hqp))

/-- The id that a fresh add brings is named by no key. -/
theorem unheld (h : UniqueHolder Q p d s) (hp : Q.Base p) (ha : FreshAdd Q p a s)
    (hj : NewId s p a j) : (s.claims p).Unheld j := by
  rcases hj with ⟨-, rfl⟩ | ⟨rfl, hne, -⟩
  · exact (h.counted hp (Nat.lt_succ_self _)).2
  · exact (ha.unused hne).2

end UniqueHolder

/-! ### Adds -/

theorem FreshAdd.ok (ha : FreshAdd Q q a s) : AddOk Q q a s where
  base := ha.base
  legal := ha.legal
  notNumeral := ha.notNumeral
  colonFree := ha.colonFree
  unreserved hne d next hnext hjid := absurd hjid ((ha.unused hne).1.2 d next hnext)

/-- A simple add makes no expiring claim on the id. -/
theorem AddEvent.keepsExclusive {e : Claims.Event String String DeduplicatedNextJob}
    (h : AddEvent a j e) (ha : a.SimpleFor d) : KeepsExclusive d e := by
  cases e with
  | claim d' i e =>
    rintro rfl
    obtain ⟨-, de, hde, hid, hlasting⟩ := h
    have hnone : de.lasting = none := by simp [DeduplicationOpts.lasting, (ha de hde hid).1]
    rw [hnone] at hlasting
    simpa using hlasting
  | renew d' e =>
    rintro rfl
    obtain ⟨de, hde, hid, -, httl, -⟩ := h
    simp [(ha de hde hid).1] at httl
  | replace d' i e =>
    rintro rfl
    obtain ⟨-, de, hde, hid, hreplace, -⟩ := h
    simp [(ha de hde hid).2.1] at hreplace
  | _ => trivial

theorem AddEvent.freshNames {c : Register String String DeduplicatedNextJob}
    {e : Claims.Event String String DeduplicatedNextJob} (h : AddEvent a j e)
    (hj : c.Unheld j) : FreshNames DeduplicatedNextJob.jid c e := by
  cases e with
  | create i => exact h.1 ▸ hj
  | claim d' i e => exact h.1 ▸ hj
  | replace d' i e => exact h.1 ▸ hj
  | keep d' n =>
    obtain ⟨rfl, -⟩ := h
    exact hj
  | _ => trivial

namespace UniqueHolder

theorem addJobWith {mode : AddMode} (h : UniqueHolder Q p d s) (hp : Q.Base p)
    (hmode : mode.Dedups q)
    (henqueue : ∀ i a s, NobodyWaits s → NobodyWaits (mode.enqueue i a s))
    (ha : FreshAdd Q q a s) (hsimple : q = p → a.SimpleFor d) :
    UniqueHolder Q p d (BullMQ.addJobWith mode q a s).2 := by
  have hwaits := h.nobodyWaits.addJobWith hmode.framed henqueue q a
  obtain ⟨j, hstep, hj⟩ := addJobWith_step hmode h.toDedupBase ha.ok
  by_cases hqp : q = p
  · subst hqp
    obtain heq | ⟨e, he, hact⟩ := hstep.event
    · exact h.of_claims hp hstep.base hwaits heq
    · obtain hj | heq := hj
      · exact h.events hp hstep.base hwaits
          (hact.trace ⟨he.freshNames (h.unheld hp ha hj), he.keepsExclusive (hsimple rfl)⟩)
      · exact h.of_claims hp hstep.base hwaits heq
  · exact h.of_claims hp hstep.base hwaits (hstep.others hp (Ne.symm hqp))

end UniqueHolder

/-! ### Time -/

theorem setHolder_self (c : Register String String DeduplicatedNextJob) (d : String) :
    c.setHolder d (c.holder d) = c :=
  Register.ext rfl (Function.update_eq_self d c.holder) rfl

/-- Time that passes for a deduplication key is no event. -/
theorem elapseDeduplicationKey_claims (hp : Q.Base p) (hq : Q.Base q) (d : String) (ms : ℕ)
    (s : Store) : (elapseDeduplicationKey q d ms s).claims p = s.claims p := by
  have heq : elapseDeduplicationKey q d ms s = s.set .de (deduplicationKey q d)
    ((s .de (deduplicationKey q d)).map fun key =>
      { key with pttl := key.pttl.map (· - ms) }) := rfl
  by_cases hqp : q = p
  · subst hqp
    have hholder : ((s .de (deduplicationKey q d)).map fun key =>
        { key with pttl := key.pttl.map (· - ms) }).map DeduplicationKey.holder =
          (s.claims q).holder d := by
      simp only [Store.claims, Option.map_map]
      refine congrArg (Option.map · _) (funext fun key => ?_)
      simp [DeduplicationKey.holder]
    rw [heq, claims_set_de, hholder, setHolder_self]
  · rw [heq, claims_set_de_of_ne fun d' => QueueSet.deduplicationKey_ne hq hp hqp d d']

/-- The expiry of a deduplication key. -/
theorem expireDeduplicationKey_claims (hp : Q.Base p) (hq : Q.Base q) (d : String) (s : Store) :
    (expireDeduplicationKey q d s).claims p = s.claims p ∨
      Act DeduplicatedNextJob.jid (s.claims p) (.expire d)
        ((expireDeduplicationKey q d s).claims p) := by
  simp only [expireDeduplicationKey]
  split
  · next hsome =>
    by_cases hqp : q = p
    · subst hqp
      obtain ⟨ms, hms⟩ := Option.isSome_iff_exists.mp hsome
      obtain ⟨key, hkey, hpttl⟩ := Option.bind_eq_some_iff.mp hms
      have hholder : (s.claims q).holder d = some ⟨key.jobId, true⟩ := by
        simp [Store.claims, hkey, hpttl]
      rw [claims_set_de]
      exact .inr (.expire hholder)
    · exact .inl (claims_set_de_of_ne (fun d' => QueueSet.deduplicationKey_ne hq hp hqp d d') _ s)
  · exact .inl rfl

/-- A write to deduplication keys that is at most an expiry. -/
theorem DedupBase.of_expiry (h : DedupBase Q s) (hs : ∀ {κ}, κ ∉ [Kind.de] → s' κ = s κ)
    (hclaims : ∀ {p}, Q.Base p → s'.claims p = s.claims p ∨
      Act DeduplicatedNextJob.jid (s.claims p) (.expire d) (s'.claims p)) : DedupBase Q s' := by
  have hdn : s' .dn = s .dn := hs (by decide)
  refine h.step (h.toGrounded.of_frame (by decide) hs) (fun hq hn => h.payload hq (hdn ▸ hn))
    (fun q => by rw [hs (by decide)]) (hs (by decide)) fun hq => ?_
  obtain heq | hact := hclaims hq
  · rw [heq]
    exact .refl _
  · exact hact.trace fun n _ hintro => hintro

theorem UniqueHolder.expiry (h : UniqueHolder Q p d s) (hp : Q.Base p) (d' : String)
    (hs : ∀ {κ}, κ ∉ [Kind.de] → s' κ = s κ)
    (hclaims : ∀ {p}, Q.Base p → s'.claims p = s.claims p ∨
      Act DeduplicatedNextJob.jid (s.claims p) (.expire d') (s'.claims p)) :
    UniqueHolder Q p d s' := by
  have hbase := h.toDedupBase.of_expiry hs hclaims
  have hwaits := h.nobodyWaits.of_frame (by decide) hs
  obtain heq | hact := hclaims hp
  · exact h.of_claims hp hbase hwaits heq
  · exact h.events hp hbase hwaits (hact.trace ⟨trivial, trivial⟩)

/-! ### Runs -/

/-- **One command** keeps the claim exclusive. -/
theorem UniqueHolder.step {c : QueueCommand} {r : Reply × Store} (h : UniqueHolder Q p d s)
    (hp : Q.Base p) (hc : c.Simple Q p d s) (hexec : c.exec s = some r) :
    UniqueHolder Q p d r.2 := by
  -- The scripts that move jobs.
  have hmoves : ∀ {c : Command}, (QueueCommand.job c).exec s = some r → c.Carries →
      (∀ q i t k ts, c ≠ .moveToWaitingChildren q i t k ts) →
      UniqueHolder Q p d r.2 := fun hexec hcarries hne => by
    obtain ⟨hbase, hclaims⟩ := hcarries.step h.toDedupBase hexec
    exact h.of_claims hp hbase (h.nobodyWaits.carries hcarries hne hexec) (hclaims p)
  cases c with
  | job c =>
    cases c with
    | addStandardJob q a =>
      cases hexec
      exact h.addJobWith hp (standardMode_dedups q) (fun i a s hs => hs.of_within fun _ _ hw =>
        (hw.addJobInTargetList _ _ fun _ _ => allowsEntry_line.wait).xadd q _) hc.1 hc.2
    | addDelayedJob q a =>
      cases hexec
      exact h.addJobWith hp (delayedMode_dedups q) (fun i a s hs => hs.of_within fun _ _ hw =>
        hw.addDelayedJob _ _ fun _ _ => allowsEntry_line.delayed) hc.1 hc.2
    | addPrioritizedJob q a =>
      cases hexec
      exact h.addJobWith hp (prioritizedMode_dedups q) (fun i a s hs => hs.of_within fun _ _ hw =>
        (hw.addJobWithPriority _ _ fun _ _ => allowsEntry_line.prioritized).xadd q _) hc.1 hc.2
    | addParentJob q a => exact hc.elim
    | moveToWaitingChildren q i t k ts => exact hc.elim
    | reprocessJob q a => exact hc.elim
    | moveJobsToWait q st m t => exact hc.elim
    | moveToFinished q a => cases hexec; exact h.moveToFinished hp hc a
    | removeJob n q j b =>
      exact h.removal hp (removeJob_step h.toDedupBase hc hexec) (h.nobodyWaits.removeJob hexec)
    | removeChildDependency k k' =>
      cases hexec
      exact h.removal hp (removeChildDependency_step h.toDedupBase k k')
        (h.nobodyWaits.of_within fun _ _ hw =>
          hw.removeChildDependency (allows_line (by simp)) k k')
    | _ => exact hmoves hexec trivial (by simp)
  | addJobScheduler q a => exact hc.elim
  | updateJobScheduler q a => exact hc.elim
  | obliterate q n b => exact hc.elim
  | cleanJobsInSet q t l st =>
    cases hexec
    obtain ⟨hstep, hwaits⟩ := cleanJobsInSet_step h.toDedupBase hc h.nobodyWaits t l st
    exact h.removal hp hstep hwaits
  | drain q b =>
    cases hexec
    obtain ⟨hstep, hwaits⟩ := drain_step h.toDedupBase hc h.nobodyWaits b
    exact h.removal hp hstep hwaits
  | removeUnprocessedChildren n q j =>
    exact h.removal hp (removeUnprocessedChildren_step h.toDedupBase hexec)
      (h.nobodyWaits.removeUnprocessedChildren hexec)
  | expireDeduplicationKey q d' =>
    exact h.expiry hp d' (fun hκ => QueueCommand.exec_frame hexec hκ) fun hq' => by
      cases hexec
      exact expireDeduplicationKey_claims hq' hc d' s
  | elapseDeduplicationKey q d' ms =>
    exact h.expiry hp d' (fun hκ => QueueCommand.exec_frame hexec hκ) fun hq' => by
      cases hexec
      exact .inl (elapseDeduplicationKey_claims hq' hc d' ms s)

/-- The claim stays exclusive over whole runs. -/
theorem UniqueHolder.of_reachable (hp : Q.Base p)
    (h : QueueReachable (fun s c => c.Simple Q p d s) .empty s) : UniqueHolder Q p d s := by
  obtain ⟨steps, run⟩ := h
  exact run.invariant (.empty Q p d) fun _ _ _ hs ⟨hc, _, hexec⟩ => hs.step hp hc hexec

/-! ### What is claimed -/

namespace UniqueHolder

theorem key_of_unfinished (h : UniqueHolder Q p d s) (hj : UnfinishedWith s p d j) :
    s .de (deduplicationKey p d) = some ⟨j, none⟩ := by
  have hholder := h.exclusive.holds j (unfinishedWith_iff.mp hj)
  obtain ⟨key, hkey, heq⟩ := Option.map_eq_some_iff.mp hholder
  obtain ⟨jobId, pttl⟩ := key
  simp only [Holder.mk.injEq, Option.isSome_eq_false_iff, Option.isNone_iff_eq_none] at heq
  rw [hkey, heq.1, heq.2]

theorem unfinished_of_key (h : UniqueHolder Q p d s) {key : DeduplicationKey}
    (hkey : s .de (deduplicationKey p d) = some key) :
    key.pttl = none ∧ UnfinishedWith s p d key.jobId := by
  have hholder : (s.claims p).holder d = some key.holder := by
    simp [Store.claims, hkey, DeduplicationKey.holder]
  obtain ⟨hlasts, hjob⟩ := h.exclusive.carries _ hholder
  exact ⟨by simpa [DeduplicationKey.holder] using hlasts, unfinishedWith_iff.mpr hjob⟩

end UniqueHolder

/-- The end of a simple add while the key of its id is held. -/
theorem DedupResult.of_held {de : DeduplicationOpts} {r : Option String × Store} {w : String}
    (h : DedupResult p de j a s r) (hkey : s .de (deduplicationKey p de.id) = some ⟨w, none⟩)
    (httl : de.ttl = none) (hreplace : de.replace = false) (hkeep : de.keepLastIfActive = false) :
    r.1 = some w ∧ ∀ κ ∉ [Kind.events], r.2 κ = s κ := by
  cases h with
  | free hnone =>
    rw [hkey] at hnone
    cases hnone
  | replaced htrue => simp [hreplace] at htrue
  | dropped hcurrent hs =>
    obtain rfl := Option.some.inj (hkey.symm.trans hcurrent)
    exact ⟨rfl, hs⟩
  | renewed _ _ hsome => simp [httl] at hsome
  | kept _ htrue => simp [hkeep] at htrue

/-- An add that is dropped: it replies with the holder, and has counted up the ids and reported
itself, but done nothing else. -/
theorem UniqueHolder.addJobWith_dropped {mode : AddMode} {de : DeduplicationOpts}
    (h : UniqueHolder Q p d s) (hmode : mode.Dedups p) (ha : FreshAdd Q p a s)
    (hsimple : a.SimpleFor d) (hde : a.opts.de = some de) (hid : de.id = d)
    (hparent : ∀ P, a.parent = some P → s.jobExists P.key = true) (hj : UnfinishedWith s p d j) :
    (BullMQ.addJobWith mode p a s).1 = .id j ∧
      ∀ κ ∉ [Kind.id, .metaMaxLenEvents, .events], (BullMQ.addJobWith mode p a s).2 κ = s κ := by
  -- The parent is there and the id is unused, so that only the third end is left.
  obtain ⟨⟨P, hP, hmissing⟩, -⟩ | ⟨hne, hex, -⟩ | ⟨i, -, -, hres⟩ := addJobWith_ends mode p a s
  · rw [hparent P hP] at hmissing
    cases hmissing
  · rw [claims_job_eq_none.mp (ha.unused hne).1.1] at hex
    cases hex
  · obtain ⟨httl, hreplace, hkeep⟩ := hsimple de hde hid
    subst hid
    have hkey : drawId p s .de (deduplicationKey p de.id) = some ⟨j, none⟩ := by
      rw [drawId_frame _ _ (by decide)]
      exact h.key_of_unfinished hj
    obtain ⟨hwinner, hkept⟩ := (hmode.result de i a (drawId p s)).of_held hkey httl hreplace hkeep
    rcases hded : mode.deduplicate de i a (drawId p s) with ⟨w, t⟩
    rw [hded] at hwinner hkept
    obtain rfl : w = some j := hwinner
    rw [hres]
    simp only [addNewJob, hde, hded, true_and]
    intro κ hκ
    rw [hkept κ (Kind.notMem_mono hκ (by decide)),
      drawId_frame _ _ (Kind.notMem_mono hκ (by decide))]

/-- **Simple deduplication.** In every state that a run reaches in which the id `d` of the queue `p`
is used in simple mode: at most one unfinished job carries the id; its key exists exactly while
there is one, holds its id and does not expire; and each add with the id that is made meanwhile
replies with the id of that job and leaves all keys but the counter of ids and the event stream as
they are. -/
theorem simple_deduplication (hp : Q.Base p)
    (h : QueueReachable (fun s c => c.Simple Q p d s) .empty s) :
    (∀ i j, UnfinishedWith s p d i → UnfinishedWith s p d j → i = j) ∧
    (∀ j, UnfinishedWith s p d j → s .de (deduplicationKey p d) = some ⟨j, none⟩) ∧
    (∀ key, s .de (deduplicationKey p d) = some key → UnfinishedWith s p d key.jobId) ∧
    ∀ a de c r j, c ∈ [Command.addStandardJob p a, .addDelayedJob p a, .addPrioritizedJob p a] →
      (QueueCommand.job c).Simple Q p d s → a.opts.de = some de → de.id = d →
      (∀ P, a.parent = some P → s.jobExists P.key = true) → c.exec s = some r →
      UnfinishedWith s p d j →
      r.1 = .id j ∧ ∀ κ ∉ [Kind.id, .metaMaxLenEvents, .events], r.2 κ = s κ := by
  have hs := UniqueHolder.of_reachable hp h
  refine ⟨fun i j hi hj => ?_, fun j hj => hs.key_of_unfinished hj,
    fun key hkey => (hs.unfinished_of_key hkey).2, ?_⟩
  · exact hs.exclusive.unique (unfinishedWith_iff.mp hi) (unfinishedWith_iff.mp hj)
  · intro a de c r j hc hsimple hde hid hparent hexec hj
    simp only [List.mem_cons, List.not_mem_nil, or_false] at hc
    rcases hc with rfl | rfl | rfl <;> cases hexec
    · exact hs.addJobWith_dropped (standardMode_dedups p) hsimple.1 (hsimple.2 rfl) hde hid
        hparent hj
    · exact hs.addJobWith_dropped (delayedMode_dedups p) hsimple.1 (hsimple.2 rfl) hde hid
        hparent hj
    · exact hs.addJobWith_dropped (prioritizedMode_dedups p) hsimple.1 (hsimple.2 rfl) hde hid
        hparent hj

/-! ### A winner that is retried -/

/-- An add with the id `x` in simple mode. -/
def addOnce : AddArgs where
  name := "a"
  data := ""
  timestamp := 1
  opts := { de := some { id := "x" } }

/-- The winner is fetched and put back. -/
def fetchAndRetry : List QueueCommand :=
  [.job (.addStandardJob "bull:q:" addOnce),
   .job (.moveToActive "bull:q:" 2 { token := "t", lockDuration := 30000 }),
   .job (.retryJob "bull:q:" { jobId := "1", token := "t", pushCmd := .rpush, timestamp := 3 })]

/-- The store these commands lead to. -/
def retriedStore : Store := (runQueue fetchAndRetry .empty).getD .empty

theorem addOnce_simple (s : Store) :
    (QueueCommand.job (.addStandardJob "bull:q:" addOnce)).Simple (.ofPrefix "bull") "bull:q:" "x"
      s := by
  refine ⟨⟨⟨"q", by decide, rfl⟩, fun hne => absurd rfl hne, fun n => (repr_ne_empty n).symm,
    fun hne => absurd rfl hne, fun hne => absurd rfl hne, fun hne => absurd rfl hne⟩, ?_⟩
  rintro - de hde -
  obtain rfl := Option.some.inj hde
  exact ⟨rfl, rfl, rfl⟩

/-- The second add is dropped in favour of the job that is tried again. -/
theorem retried_job_holds :
    QueueReachable (fun s c => c.Simple (.ofPrefix "bull") "bull:q:" "x" s) .empty retriedStore ∧
    retriedStore .de (deduplicationKey "bull:q:" "x") = some ⟨"1", none⟩ ∧
    (Script.addStandardJob "bull:q:" addOnce retriedStore).1 = .id "1" := by
  have hreach : QueueReachable (fun s c => c.Simple (.ofPrefix "bull") "bull:q:" "x" s) .empty
      retriedStore := by
    refine (QueueReachable.refl _).of_runQueue (fun c (hc : c ∈ fetchAndRetry) s => ?_) rfl
    simp only [fetchAndRetry, List.mem_cons, List.not_mem_nil, or_false] at hc
    rcases hc with rfl | rfl | rfl
    · exact addOnce_simple s
    · trivial
    · trivial
  have hqueue : (QueueSet.ofPrefix "bull").Base "bull:q:" := ⟨"q", by decide, rfl⟩
  obtain ⟨-, hkey, -, hadd⟩ := simple_deduplication hqueue hreach
  have hjob : UnfinishedWith retriedStore "bull:q:" "x" "1" :=
    ⟨by decide +kernel, by decide +kernel, by decide +kernel⟩
  exact ⟨hreach, hkey "1" hjob, (hadd addOnce _ _ _ "1" List.mem_cons_self (addOnce_simple _) rfl
    rfl (fun P hP => by cases hP) rfl hjob).1⟩

end BullMQ
