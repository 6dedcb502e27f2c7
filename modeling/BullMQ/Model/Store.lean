import Mathlib.Data.Rat.Floor
import BullMQ.Redis.Collections
import BullMQ.Redis.Keyspace
import BullMQ.Redis.SortedSet
import BullMQ.Model.Keys

/-!
# The data a queue keeps in Redis

`Store` is the typed keyspace of the scripts: for each family of keys (`Kind`) a map from the
queue's key base or from the job key to the value under it. The three lists and the five sorted
sets that hold job ids are the families `Kind.list` and `Kind.zset`; the fields of the `meta`
hash that scripts read are one family each. Two keys of different families never coincide here.
In Redis they do where a job has the name of a key of its queue as its id, such as `wait`, and where
a scheduler has a key that is also the key of a job, as that of `s:1000` is the key of an iteration
of `s`. Theorems about what happens under such names ask for ids without them, and say so in their
conditions (`isOwnKeyName`, `KeysApart`); the others speak of queues in which no such name is used.

A job hash is a record with one optional entry per hash field, so that a write to a missing hash
creates a partial hash exactly as `HSET` does. The event stream is the log of everything that was
appended: the approximate trimming (`MAXLEN ~`) may keep any longer suffix and nothing reads the
stream back.
-/

namespace BullMQ

open Redis

/-! ### Values -/

/-- The `parent` field of a child: where its parent is and what its failure does to it. -/
structure Parent where
  id : String
  queueKey : String
  fpof : Bool := false
  cpof : Bool := false
  idof : Bool := false
  rdof : Bool := false
  deriving DecidableEq, Repr

/-- The key base of the parent's queue. -/
def Parent.base (P : Parent) : String := P.queueKey ++ ":"

/-- The parent's job key, the `parentKey` field (`getParentKey`). -/
def Parent.key (P : Parent) : String := P.base ++ P.id

/-- Deduplication options of an add. -/
structure DeduplicationOpts where
  id : String
  ttl : Option ℤ := none
  extend : Bool := false
  replace : Bool := false
  keepLastIfActive : Bool := false
  deriving DecidableEq, Repr

/-- The job options that scripts and workers read. -/
structure JobOpts where
  delay : ℤ := 0
  priority : ℤ := 0
  lifo : Bool := false
  de : Option DeduplicationOpts := none
  attempts : ℤ := 0
  deriving DecidableEq, Repr

/-- A job hash. `parentKey` and `parent` are written and deleted together and are one entry;
the counters `atm`, `ats` and `stc` count a missing field as zero, as `HINCRBY` does. -/
structure Job where
  name : Option String := none
  data : Option String := none
  opts : Option JobOpts := none
  timestamp : Option ℤ := none
  delay : Option ℤ := none
  priority : Option ℤ := none
  parent : Option Parent := none
  rjk : Option String := none
  deid : Option String := none
  atm : ℕ := 0
  ats : ℕ := 0
  stc : ℕ := 0
  processedOn : Option ℤ := none
  finishedOn : Option ℤ := none
  returnvalue : Option String := none
  failedReason : Option String := none
  stacktrace : Option String := none
  tm : Option String := none
  defa : Option String := none
  pb : Option String := none
  deriving DecidableEq, Repr

/-- The two states a job can finish in. -/
inductive FinishedStatus
  | completed
  | failed
  deriving DecidableEq, Repr

/-- The events a script appends to the stream of a queue. -/
inductive Event
  | added (jobId : String) (name : Option String)
  | waiting (jobId : String) (prev : Option String)
  | delayed (jobId : String) (delay : ℤ)
  | waitingChildren (jobId : String) (prev : Option String)
  | active (jobId : String) (prev : String)
  | finished (target : FinishedStatus) (jobId value prev : String)
  | retriesExhausted (jobId : String) (attemptsMade : ℕ)
  | removed (jobId prev : String)
  | stalled (jobId : String)
  | duplicated (jobId : String)
  | deduplicated (jobId deduplicationId deduplicatedJobId : String)
  | drained
  | paused
  | resumed
  | cleaned (count : ℕ)
  deriving DecidableEq, Repr

/-- The rate limiter's counter with its time to live, if it has one. -/
structure Limiter where
  count : ℕ
  pttl : Option ℕ
  deriving DecidableEq, Repr

/-- A deduplication key: the winner and the key's time to live, if it has one. -/
structure DeduplicationKey where
  jobId : String
  pttl : Option ℕ
  deriving DecidableEq, Repr

/-- The payload kept for the job that follows an active winner (`dn:` hash). -/
structure DeduplicatedNextJob where
  name : String
  data : String
  opts : JobOpts
  jid : String
  parent : Option Parent
  rjk : Option String
  deriving DecidableEq, Repr

/-- The hash of a job scheduler, as far as scripts read it. -/
structure JobScheduler where
  name : Option String := none
  data : Option String := none
  every : Option ℤ := none
  startDate : Option ℤ := none
  offset : Option ℤ := none
  ic : Option ℕ := none
  deriving DecidableEq, Repr

/-- A metrics hash with its list of data points. -/
structure Metrics where
  count : ℕ := 0
  prevTS : Option ℤ := none
  prevCount : ℤ := 0
  data : List ℤ := []
  deriving DecidableEq, Repr

/-! ### Key families -/

/-- The lists of job ids. -/
inductive ListKey
  | wait
  | paused
  | active
  deriving DecidableEq, Repr

/-- The sorted sets of job ids. -/
inductive ZSetKey
  | prioritized
  | delayed
  | completed
  | failed
  | waitingChildren
  deriving DecidableEq, Repr

/-- The set a job of the given finished status is kept in. -/
def FinishedStatus.zset : FinishedStatus → ZSetKey
  | .completed => .completed
  | .failed => .failed

/-- The families of keys. Those up to `repeatSet` are named by a queue's key base, `metrics`,
`scheduler`, `de` and `dn` by their own key, the others by a job key. -/
inductive Kind
  | list (l : ListKey)
  | zset (z : ZSetKey)
  | id
  | pc
  | metaPaused
  | metaConcurrency
  | metaMax
  | metaDuration
  | metaMaxLenEvents
  | stalled
  | stalledCheck
  | limiter
  | marker
  | events
  | repeatSet
  | metrics
  | scheduler
  | de
  | dn
  | hash
  | lock
  | logs
  | dependencies
  | processed
  | failedChildren
  | unsuccessful
  deriving DecidableEq, Repr

/-- Sorted sets with integer scores. -/
abbrev ZSet := SortedSet ℤ String

/-- String-valued hashes, such as a parent's `:processed` and `:failed`. -/
abbrev Hash := AList fun _ : String => String

/-- The value type of a family. -/
abbrev Val : Kind → Type
  | .list _ => List String
  | .zset _ => ZSet
  | .id | .pc => ℕ
  | .metaPaused => Bool
  | .metaConcurrency | .metaMax | .metaDuration => Option ℤ
  | .metaMaxLenEvents => Option ℕ
  | .stalled => MemberSet String
  | .stalledCheck => Option ℤ
  | .limiter => Option Limiter
  | .marker => SortedSet ℚ String
  | .events => List Event
  | .repeatSet => ZSet
  | .metrics => Metrics
  | .scheduler => Option JobScheduler
  | .de => Option DeduplicationKey
  | .dn => Option DeduplicatedNextJob
  | .hash => Option Job
  | .lock => Option String
  | .logs => List String
  | .dependencies => MemberSet String
  | .processed | .failedChildren => Hash
  | .unsuccessful => ZSet

/-- What a missing key reads as. -/
def Val.missing : (κ : Kind) → Val κ
  | .list _ => []
  | .zset _ => ∅
  | .id | .pc => (0 : ℕ)
  | .metaPaused => false
  | .metaConcurrency | .metaMax | .metaDuration => none
  | .metaMaxLenEvents => none
  | .stalled => ∅
  | .stalledCheck => none
  | .limiter => none
  | .marker => ∅
  | .events => []
  | .repeatSet => ∅
  | .metrics => {}
  | .scheduler => none
  | .de => none
  | .dn => none
  | .hash => none
  | .lock => none
  | .logs => []
  | .dependencies => ∅
  | .processed | .failedChildren => ∅
  | .unsuccessful => ∅

/-- The whole keyspace, over any number of queues. -/
abbrev Store := Keyspace Kind Val

/-- A family outside a larger list is outside a smaller one. -/
theorem Kind.notMem_mono {κ : Kind} {l l' : List Kind} (h : κ ∉ l') (hsub : l ⊆ l') : κ ∉ l :=
  fun hκ => h (hsub hκ)

namespace Store

/-- The store in which no key exists. -/
def empty : Store := ⟨fun κ _ => Val.missing κ⟩

/-- `EXISTS` on a job key. -/
def jobExists (s : Store) (jobKey : String) : Bool := (s .hash jobKey).isSome

/-- The `priority` field, zero when the field or the hash is missing. -/
def priorityOf (s : Store) (jobKey : String) : ℤ :=
  ((s .hash jobKey).bind Job.priority).getD 0

/-- The `delay` field, zero when the field or the hash is missing. -/
def delayOf (s : Store) (jobKey : String) : ℤ := ((s .hash jobKey).bind Job.delay).getD 0

/-- The `parent` field. -/
def parentOf (s : Store) (jobKey : String) : Option Parent := (s .hash jobKey).bind Job.parent

/-- The `deid` field. -/
def deidOf (s : Store) (jobKey : String) : Option String := (s .hash jobKey).bind Job.deid

/-- `HSET`, `HMSET` and `HINCRBY`: write fields of a job hash, creating it when it is missing. -/
def hset (s : Store) (jobKey : String) (f : Job → Job) : Store :=
  s.modify .hash jobKey fun h => some (f (h.getD {}))

/-- `HDEL`: delete fields of a job hash, if it exists. -/
def hdel (s : Store) (jobKey : String) (f : Job → Job) : Store :=
  s.modify .hash jobKey fun h => h.map f

/-- `XADD` to the event stream of a queue. -/
def xadd (s : Store) (p : String) (e : Event) : Store := s.modify .events p (· ++ [e])

@[simp]
theorem xadd_of_ne (s : Store) (p : String) (e : Event) {κ : Kind} (h : κ ≠ .events) :
    s.xadd p e κ = s κ :=
  Keyspace.modify_of_ne _ h ..

@[simp]
theorem hset_of_ne (s : Store) (k : String) (f : Job → Job) {κ : Kind} (h : κ ≠ .hash) :
    s.hset k f κ = s κ :=
  Keyspace.modify_of_ne _ h ..

@[simp]
theorem hdel_of_ne (s : Store) (k : String) (f : Job → Job) {κ : Kind} (h : κ ≠ .hash) :
    s.hdel k f κ = s κ :=
  Keyspace.modify_of_ne _ h ..

theorem hset_hash (s : Store) (k k' : String) (f : Job → Job) :
    s.hset k f .hash k' = if k' = k then some (f ((s .hash k').getD {})) else s .hash k' := by
  rw [hset, Keyspace.modify_self, Function.update_apply]
  split
  · next h => rw [h]
  · rfl

theorem hdel_hash (s : Store) (k k' : String) (f : Job → Job) :
    s.hdel k f .hash k' = if k' = k then (s .hash k').map f else s .hash k' := by
  rw [hdel, Keyspace.modify_self, Function.update_apply]
  split
  · next h => rw [h]
  · rfl

end Store

/-- The two ends a job can be pushed to. -/
inductive PushCmd
  | lpush
  | rpush
  deriving DecidableEq, Repr

/-- Execute the push. -/
def PushCmd.push : PushCmd → String → List String → List String
  | .lpush => Redis.lpush
  | .rpush => Redis.rpush

@[simp]
theorem PushCmd.count_push (c : PushCmd) (a b : String) (l : List String) :
    (c.push a l).count b = l.count b + if a = b then 1 else 0 := by
  cases c
  · exact count_lpush a b l
  · exact count_rpush a b l

@[simp]
theorem PushCmd.mem_push {c : PushCmd} {a b : String} {l : List String} :
    b ∈ c.push a l ↔ b = a ∨ b ∈ l := by
  cases c
  · exact mem_lpush
  · exact mem_rpush

/-- A script's reply. -/
inductive Reply
  /-- A numeric code, negative for the error codes. -/
  | code (n : ℤ)
  /-- A job id. -/
  | id (jobId : String)
  /-- A list of job ids. -/
  | ids (jobIds : List String)
  /-- The next job: its hash and id. -/
  | job (data : Option Job) (jobId : String)
  /-- No next job: the rate limit's time to live and the next delayed timestamp. -/
  | noJob (expireTime nextTimestamp : ℤ)
  /-- The next iteration of a job scheduler: its id and delay. -/
  | scheduled (jobId : String) (delay : ℤ)
  /-- No value. -/
  | nil
  /-- The script raised an error; what it wrote before stays written. -/
  | error
  deriving DecidableEq

end BullMQ
