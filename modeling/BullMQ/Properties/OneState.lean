import BullMQ.Placement.Children

/-!
# Every job is in exactly one state

In every run without deduplication, over any number of queues and with any interleaving of the
scripts and of lock expiry, every job hash belongs to a queue and an id that occurs exactly once
in exactly one of the eight containers of the queue, and every id that occurs has a job hash.

Ids are without a colon, as `Job.validateOptions` and the counter make them, and custom ids are
neither integers, which the same check refuses, nor names of the queue's own keys.
-/

namespace BullMQ

open Redis

/-- The jobs whose ids hold no colon. -/
def colonFreeKeys : KeySpace where
  Valid p j := QueueBase p ∧ ColonFree j
  inj hi hj h := append_inj_of_colonFree hi.1 hj.1 hi.2 hj.2 h
  notLegacy h := not_isLegacyMarker_of_colonFree h.2

/-- An add of the runs: no deduplication, and the id drawn from the counter or given as one that
holds no colon, is no integer and names none of the queue's own keys. -/
structure PlainAdd (p : String) (a : AddArgs) : Prop where
  queue : QueueBase p
  noDeduplication : a.opts.de = none
  colonFree : ColonFree a.customId
  notKeyName : a.customId ≠ "" → a.customId ∉ queueKeyNames
  notInteger : ∀ n : ℕ, a.customId ≠ n.repr

/-- The commands of the runs. The ids of a removal may be any, except that one which holds a colon
must not spell out the key of an existing job of some other queue. -/
def PlainCommand (s : Store) : Command → Prop
  | .addStandardJob p a | .addDelayedJob p a | .addPrioritizedJob p a | .addParentJob p a =>
    PlainAdd p a
  | .removeJob _ p j _ => QueueBase p ∧ (s.jobExists (p ++ j) = true → ColonFree j)
  | _ => True

theorem PlainAdd.plain {p : String} {a : AddArgs} (h : PlainAdd p a) : a.Plain colonFreeKeys p where
  noDeduplication := h.noDeduplication
  counter _ n := ⟨h.queue, colonFree_repr n⟩
  custom _ := ⟨⟨h.queue, h.colonFree⟩, h.notInteger⟩

/-- The invariant of the runs. -/
structure OneState (s : Store) : Prop extends WellPlaced colonFreeKeys s where
  childKeys : ChildKeys colonFreeKeys s

theorem OneState.empty : OneState .empty where
  toWellPlaced := .empty _
  childKeys := fun k c ⟨a, hc⟩ => by cases a <;> cases hc

theorem OneState.step {s s' : Store} {c : Command} (h : OneState s)
    (hstep : Step PlainCommand s c s') : OneState s' := by
  obtain ⟨hc, reply, hexec⟩ := hstep
  have hplain : c.Plain colonFreeKeys → OneState s' := fun hp =>
    ⟨h.toWellPlaced.exec hp hexec, h.childKeys.exec h.toWellPlaced hp hexec⟩
  cases c with
  | removeJob n p j b =>
    have hj : colonFreeKeys.Valid p j ∨ s.jobExists (p ++ j) = false := by
      by_cases hex : s.jobExists (p ++ j) = true
      · exact .inl ⟨hc.1, hc.2 hex⟩
      · exact .inr (by simpa using hex)
    have hrem := removeJob_wellPlaced (K := colonFreeKeys)
      (fun hv => getJobIdFromKey_append hv.1 hv.2) h.toWellPlaced h.childKeys hj hexec
    exact ⟨hrem.1, hrem.2⟩
  | addStandardJob p a => exact hplain (PlainAdd.plain hc)
  | addDelayedJob p a => exact hplain (PlainAdd.plain hc)
  | addPrioritizedJob p a => exact hplain (PlainAdd.plain hc)
  | addParentJob p a => exact hplain (PlainAdd.plain hc)
  | _ => exact hplain trivial

theorem OneState.of_reachable {s : Store} (h : Reachable PlainCommand .empty s) : OneState s := by
  obtain ⟨steps, run⟩ := h
  exact run.invariant .empty fun _ _ _ => OneState.step

end BullMQ
