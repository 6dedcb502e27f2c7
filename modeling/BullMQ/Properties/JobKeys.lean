import BullMQ.Model.Keys
import BullMQ.Text.Search

/-!
# Taking job keys apart

A job key is `<prefix>:<queue>:<id>`. The scripts cut it at its last colon, and `parseNodeKey` at
its last two. Ids that hold a colon are admitted none the less: custom ids of three parts, and those
of the iterations of a job scheduler. `keySplits_iff` says that the key of a job can be taken apart
exactly if the id holds no colon.
-/

namespace BullMQ

open Text

/-- A flow child key taken apart. -/
structure NodeKey where
  pre : String
  queueName : String
  id : String
  deriving DecidableEq, Repr

/-- `parseNodeKey`: cut a key at its last two colons, or at all of them where there are fewer. -/
def parseNodeKey (key : String) : NodeKey :=
  let chars := key.toList
  let lastColon := lastIndexOf chars ':' chars.length
  let prevColon := lastColon.bind fun lastColon => lastIndexOf chars ':' (lastColon - 1)
  match lastColon, prevColon with
  | some lastColon, some prevColon =>
    { pre := String.ofList (chars.take prevColon)
      queueName := String.ofList ((chars.take lastColon).drop (prevColon + 1))
      id := String.ofList (chars.drop (lastColon + 1)) }
  | _, _ =>
    let parts := (chars.splitOn ':').map String.ofList
    { pre := parts.getD 0 "", queueName := parts.getD 1 "", id := parts.getD 2 "" }

/-- The key base of a queue. -/
def queueKeyBase (pre queueName : String) : String := pre ++ ":" ++ queueName ++ ":"

/-- The key of a job is taken apart into its queue and its id. -/
structure KeySplits (pre queueName id : String) : Prop where
  id_eq : getJobIdFromKey (queueKeyBase pre queueName ++ id) = id
  base_eq : getJobKeyPrefix (queueKeyBase pre queueName ++ id)
    (getJobIdFromKey (queueKeyBase pre queueName ++ id)) = queueKeyBase pre queueName
  node_eq : parseNodeKey (queueKeyBase pre queueName ++ id) = ⟨pre, queueName, id⟩

theorem queueBase_queueKeyBase (pre queueName : String) : QueueBase (queueKeyBase pre queueName) :=
  ⟨pre ++ ":" ++ queueName, rfl⟩

/-- The last two colons of a job key are those around the name of the queue. -/
theorem parseNodeKey_queueKeyBase {pre queueName id : String} (hqueue : ColonFree queueName)
    (hid : ColonFree id) :
    parseNodeKey (queueKeyBase pre queueName ++ id) = ⟨pre, queueName, id⟩ := by
  have hchars : (queueKeyBase pre queueName ++ id).toList =
      pre.toList ++ ':' :: (queueName.toList ++ ':' :: id.toList) := by
    simp [queueKeyBase]
  have hchars' : (queueKeyBase pre queueName ++ id).toList =
      (pre.toList ++ ':' :: queueName.toList) ++ ':' :: id.toList := by
    rw [hchars]
    simp
  have hlast : lastIndexOf (queueKeyBase pre queueName ++ id).toList ':'
      (queueKeyBase pre queueName ++ id).toList.length =
        some (pre.toList ++ ':' :: queueName.toList).length := by
    rw [hchars']
    exact lastIndexOf_append (by simp) fun hmem => hid (List.mem_of_mem_take hmem)
  have hprev : lastIndexOf (queueKeyBase pre queueName ++ id).toList ':'
      ((pre.toList ++ ':' :: queueName.toList).length - 1) = some pre.toList.length := by
    rw [hchars]
    refine lastIndexOf_append (by simp) ?_
    have hread : (pre.toList ++ ':' :: queueName.toList).length - 1 - pre.toList.length =
        queueName.toList.length := by simp
    rw [hread, List.take_left]
    exact hqueue
  have hrest : (queueKeyBase pre queueName ++ id).toList.drop
      ((pre.toList ++ ':' :: queueName.toList).length + 1) = id.toList := by
    rw [hchars', ← List.drop_drop, List.drop_left]
    rfl
  simp only [parseNodeKey, hlast, Option.bind_some, hprev, hrest]
  rw [hchars', List.take_left]
  simp

theorem keySplits_iff {pre queueName : String} (hqueue : ColonFree queueName) (id : String) :
    KeySplits pre queueName id ↔ ColonFree id := by
  constructor
  · intro h
    rw [← h.id_eq]
    exact colonFree_getJobIdFromKey _
  · intro hid
    have hsplit := getJobIdFromKey_append (queueBase_queueKeyBase pre queueName) hid
    exact ⟨hsplit, by rw [hsplit, getJobKeyPrefix_append], parseNodeKey_queueKeyBase hqueue hid⟩

/-- The key of an id drawn from the counter is taken apart. -/
theorem keySplits_counter : ColonFree "q" ∧ KeySplits "bull" "q" "17" :=
  ⟨by decide, (keySplits_iff (by decide) "17").mpr (by decide)⟩

/-- The key of an iteration of a job scheduler names another job of another queue. -/
theorem keySplits_scheduler_iteration :
    getJobIdFromKey (queueKeyBase "bull" "q" ++ "repeat:daily:1700000000000") = "1700000000000" ∧
      getJobKeyPrefix (queueKeyBase "bull" "q" ++ "repeat:daily:1700000000000")
        (getJobIdFromKey (queueKeyBase "bull" "q" ++ "repeat:daily:1700000000000")) =
          "bull:q:repeat:daily:" ∧
      parseNodeKey (queueKeyBase "bull" "q" ++ "repeat:daily:1700000000000") =
        ⟨"bull:q:repeat", "daily", "1700000000000"⟩ ∧
      ¬ KeySplits "bull" "q" "repeat:daily:1700000000000" := by
  refine ⟨by decide, by decide, by decide, fun h => ?_⟩
  exact absurd ((keySplits_iff (by decide) _).mp h) (by decide)

end BullMQ
