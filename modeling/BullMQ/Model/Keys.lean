import Mathlib.Data.List.Basic
import Mathlib.Data.List.TakeWhile
import Mathlib.Data.String.Basic

/-!
# Queue and job keys

A queue's own keys are `<base>:<name>` and the hash of its job `id` is `<base>:<id>`; scripts
receive the common part `<base>:` as a string, here called the queue's key base. Two scripts take
a job key apart again at its last colon (`includes/destructureJobKey.lua`), which is right for
the ids without a colon and for no others.
-/

namespace BullMQ

/-- `getJobIdFromKey`: the part after the last colon, Lua's `string.match(key, ".*:(.*)")`. The
keys it is called on are job keys, which hold a colon. -/
def getJobIdFromKey (jobKey : String) : String :=
  String.ofList (jobKey.toList.reverse.takeWhile fun c => decide (c ≠ ':')).reverse

/-- `getJobKeyPrefix`: the job key without its id. -/
def getJobKeyPrefix (jobKey jobId : String) : String :=
  String.ofList (jobKey.toList.take (jobKey.toList.length - jobId.toList.length))

/-- An id in which no colon occurs. -/
def ColonFree (id : String) : Prop := ':' ∉ id.toList

instance (id : String) : Decidable (ColonFree id) := inferInstanceAs (Decidable (':' ∉ id.toList))

/-- A key base, as `queue.toKey('')` builds it: it ends in a colon. -/
def QueueBase (p : String) : Prop := ∃ qualifiedName, p = qualifiedName ++ ":"

/-- The names of a queue's own keys (`QueueKeys.getKeys`). -/
def queueKeyNames : List String :=
  ["", "active", "wait", "waiting-children", "paused", "id", "delayed", "prioritized",
    "stalled-check", "completed", "failed", "stalled", "repeat", "limiter", "meta", "events", "pc",
    "marker", "de"]

/-- The legacy markers that older versions kept in the wait list start with `0:`. -/
def isLegacyMarker (jobId : String) : Bool := jobId.toList.take 2 == ['0', ':']

/-! ### Taking keys apart -/

theorem getJobKeyPrefix_append (p j : String) : getJobKeyPrefix (p ++ j) j = p := by
  simp [getJobKeyPrefix]

/-- The two parts of a key make up the key again. -/
theorem getJobKeyPrefix_append_getJobIdFromKey (k : String) :
    getJobKeyPrefix k (getJobIdFromKey k) ++ getJobIdFromKey k = k := by
  set tail := k.toList.reverse.takeWhile fun c => decide (c ≠ ':')
  set front := k.toList.reverse.dropWhile fun c => decide (c ≠ ':')
  have hsplit : k.toList = front.reverse ++ tail.reverse := by
    rw [← List.reverse_append, List.takeWhile_append_dropWhile, List.reverse_reverse]
  have hid : (getJobIdFromKey k).toList = tail.reverse := by
    rw [getJobIdFromKey, String.toList_ofList]
  have hfront : (getJobKeyPrefix k (getJobIdFromKey k)).toList = front.reverse := by
    rw [getJobKeyPrefix, String.toList_ofList, hid, hsplit]
    simp
  refine String.toList_injective ?_
  rw [String.toList_append, hfront, hid, ← hsplit]

theorem colonFree_getJobIdFromKey (k : String) : ColonFree (getJobIdFromKey k) := by
  intro h
  rw [getJobIdFromKey, String.toList_ofList, List.mem_reverse] at h
  simpa using List.mem_takeWhile_imp h

theorem getJobIdFromKey_append {p j : String} (hp : QueueBase p) (hj : ColonFree j) :
    getJobIdFromKey (p ++ j) = j := by
  obtain ⟨b, rfl⟩ := hp
  have hall : ∀ c ∈ j.toList.reverse, decide (c ≠ ':') = true := by
    intro c hc
    have hne : c ≠ ':' := fun h => hj (by simpa [h] using hc)
    simpa using hne
  have hstop : (j.toList.reverse ++ (':' :: b.toList.reverse)).takeWhile
      (fun c => decide (c ≠ ':')) = j.toList.reverse := by
    rw [List.takeWhile_append_of_pos hall]
    simp
  have hkey : (b ++ ":" ++ j).toList.reverse = j.toList.reverse ++ (':' :: b.toList.reverse) := by
    simp
  rw [getJobIdFromKey, hkey, hstop, List.reverse_reverse, String.ofList_toList]

/-- A job key determines the queue and the id, for ids without a colon. -/
theorem append_inj_of_colonFree {p p' j j' : String} (hp : QueueBase p) (hp' : QueueBase p')
    (hj : ColonFree j) (hj' : ColonFree j') (h : p ++ j = p' ++ j') : p = p' ∧ j = j' := by
  have hid : j = j' := by
    rw [← getJobIdFromKey_append hp hj, h, getJobIdFromKey_append hp' hj']
  subst hid
  exact ⟨by rw [← getJobKeyPrefix_append p j, h, getJobKeyPrefix_append], rfl⟩

/-- What stands in front of the first colon is determined by the text. -/
theorem eq_of_append_colon {a b x y : String} (ha : ColonFree a) (hb : ColonFree b)
    (h : a ++ (":" ++ x) = b ++ (":" ++ y)) : a = b := by
  have hfront : ∀ c z : String, ColonFree c →
      (c ++ (":" ++ z)).toList.takeWhile (fun d => decide (d ≠ ':')) = c.toList := by
    intro c z hc
    have hall : ∀ d ∈ c.toList, decide (d ≠ ':') = true := by
      intro d hd
      have hne : d ≠ ':' := fun heq => hc (by rwa [heq] at hd)
      simpa using hne
    rw [String.toList_append, List.takeWhile_append_of_pos hall]
    simp
  refine String.toList_injective ?_
  rw [← hfront a x ha, h, hfront b y hb]

/-! ### Ids drawn from the counter -/

/-- An id with a character that is no digit is not drawn from the counter. -/
theorem ne_repr_of_mem {j : String} {c : Char} (hc : c ∈ j.toList) (hdigit : c.isDigit = false)
    (n : ℕ) : j ≠ n.repr := by
  rintro rfl
  rw [Nat.toList_repr] at hc
  have hyes := Nat.isDigit_of_mem_toDigits (by decide) (by decide) hc
  rw [hyes] at hdigit
  cases hdigit

theorem colonFree_repr (n : ℕ) : ColonFree n.repr := fun h => ne_repr_of_mem h (by decide) n rfl

theorem repr_inj {m n : ℕ} (h : m.repr = n.repr) : m = n := by
  have hdigits : Nat.toDigits 10 m = Nat.toDigits 10 n := by
    rw [← Nat.toList_repr, h, Nat.toList_repr]
  rw [← Nat.ofDigitChars_ten_toDigits (n := m), hdigits, Nat.ofDigitChars_ten_toDigits]

theorem repr_ne_empty (n : ℕ) : n.repr ≠ "" := by
  intro h
  have hnil : Nat.toDigits 10 n = [] := by rw [← Nat.toList_repr, h]; rfl
  exact Nat.toDigits_ne_nil hnil

theorem not_isLegacyMarker_of_colonFree {j : String} (hj : ColonFree j) :
    isLegacyMarker j = false := by
  refine Bool.eq_false_iff.mpr fun h => hj ?_
  have htake : j.toList.take 2 = ['0', ':'] := by simpa [isLegacyMarker] using h
  exact List.mem_of_mem_take (i := 2) (by rw [htake]; simp)

end BullMQ
