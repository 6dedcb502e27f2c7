import BullMQ.Claims.Register
import BullMQ.Placement.Children
import BullMQ.Placement.Evolution

/-!
# Deduplication as a register of claims

`Store.claims` is what a store says about the deduplication of one queue, as a register of claims:
a job carries the deduplication id of its hash and is done when it is completed or failed, a
deduplication key names its holder, and a claim with a time to live expires.

A `QueueSet` is a set of queues of which no two have a key in common. Scripts that move jobs about
leave all the registers of the queues alone (`claims_of_moves`).
-/

namespace BullMQ

open Redis Claims

/-- Queues of which no two have a key in common. -/
structure QueueSet where
  Base : String → Prop
  base : ∀ {p}, Base p → QueueBase p
  apart : ∀ {p q x y}, Base p → Base q → p ++ x = q ++ y → p = q

namespace QueueSet

/-- The queues of one prefix: `Queue` refuses names with a colon. -/
def ofPrefix (pre : String) : QueueSet where
  Base p := ∃ name, ColonFree name ∧ p = pre ++ ":" ++ name ++ ":"
  base := by
    rintro _ ⟨name, -, rfl⟩
    exact ⟨pre ++ ":" ++ name, rfl⟩
  apart := by
    rintro _ _ x y ⟨name, hname, rfl⟩ ⟨name', hname', rfl⟩ heq
    simp only [String.append_assoc, String.append_right_inj] at heq
    rw [eq_of_append_colon hname hname' heq]

variable (Q : QueueSet)

/-- An id that a job may have: it is not empty and not a legacy marker. -/
def Legal (j : String) : Prop := j ≠ "" ∧ isLegacyMarker j = false

/-- The jobs of the queues. -/
def keySpace : KeySpace where
  Valid p j := Q.Base p ∧ Legal j
  inj hp hq heq := by
    obtain rfl := Q.apart hp.1 hq.1 heq
    exact ⟨rfl, (String.append_right_inj _).mp heq⟩
  notLegacy hp := hp.2.2

/-- The jobs of the queues whose keys can be taken apart. -/
def childSpace : KeySpace where
  Valid p j := Q.Base p ∧ Legal j ∧ ColonFree j
  inj hp hq heq := Q.keySpace.inj ⟨hp.1, hp.2.1⟩ ⟨hq.1, hq.2.1⟩ heq
  notLegacy hp := hp.2.1.2

variable {Q}

theorem key_ne {p q : String} (hp : Q.Base p) (hq : Q.Base q) (hne : p ≠ q) (x y : String) :
    p ++ x ≠ q ++ y := fun heq => hne (Q.apart hp hq heq)

theorem deduplicationKey_ne {p q : String} (hp : Q.Base p) (hq : Q.Base q) (hne : p ≠ q)
    (d d' : String) : deduplicationKey p d ≠ deduplicationKey q d' := by
  simp only [deduplicationKey, String.append_assoc]
  exact key_ne hp hq hne _ _

theorem deduplicationNextKey_ne {p q : String} (hp : Q.Base p) (hq : Q.Base q) (hne : p ≠ q)
    (d d' : String) : deduplicationNextKey p d ≠ deduplicationNextKey q d' := by
  simp only [deduplicationNextKey, String.append_assoc]
  exact key_ne hp hq hne _ _

end QueueSet

theorem deduplicationKey_inj {p d d' : String} :
    deduplicationKey p d = deduplicationKey p d' ↔ d = d' :=
  String.append_right_inj _

theorem deduplicationNextKey_inj {p d d' : String} :
    deduplicationNextKey p d = deduplicationNextKey p d' ↔ d = d' :=
  String.append_right_inj _

/-! ### The register of a queue -/

/-- A job is completed or failed. -/
def Finished (s : Store) (p j : String) : Bool :=
  decide (j ∈ s (.zset .completed) p ∨ j ∈ s (.zset .failed) p)

/-- The register of the claims on deduplication ids in a queue. -/
def Store.claims (s : Store) (p : String) : Register String String DeduplicatedNextJob where
  job j := (s .hash (p ++ j)).map fun job => ⟨job.deid, Finished s p j⟩
  holder d := (s .de (deduplicationKey p d)).map fun key => ⟨key.jobId, key.pttl.isSome⟩
  next d := s .dn (deduplicationNextKey p d)

section Claims

variable {s s' : Store} {p q j d : String}

theorem claims_job_eq_none : (s.claims p).job j = none ↔ s.jobExists (p ++ j) = false := by
  simp [Store.claims, Store.jobExists]

theorem finished_congr (hc : s' (.zset .completed) = s (.zset .completed))
    (hf : s' (.zset .failed) = s (.zset .failed)) : Finished s' p j = Finished s p j := by
  rw [Finished, hc, hf, Finished]

/-- The entry of a job depends on whether it exists, on its deduplication id and on whether it is
finished. -/
theorem claims_job_congr (hex : s'.jobExists (p ++ j) = s.jobExists (p ++ j))
    (hdeid : s'.deidOf (p ++ j) = s.deidOf (p ++ j))
    (hfin : s.jobExists (p ++ j) = true → Finished s' p j = Finished s p j) :
    (s'.claims p).job j = (s.claims p).job j := by
  simp only [Store.jobExists, Store.deidOf] at hex hdeid hfin
  simp only [Store.claims]
  cases h : s .hash (p ++ j) <;> cases h' : s' .hash (p ++ j) <;> simp_all

/-- Stores that agree on what deduplication looks at. -/
theorem claims_congr (hex : ∀ k, s'.jobExists k = s.jobExists k)
    (hdeid : ∀ k, s'.deidOf k = s.deidOf k)
    (hs : ∀ κ ∈ [Kind.zset .completed, .zset .failed, .de, .dn], s' κ = s κ) :
    s'.claims p = s.claims p := by
  have hjob : (s'.claims p).job = (s.claims p).job := funext fun j =>
    claims_job_congr (hex _) (hdeid _) fun _ => finished_congr (hs _ (by simp)) (hs _ (by simp))
  refine Register.ext hjob ?_ ?_
  · simp only [Store.claims, hs _ (by simp : Kind.de ∈ _)]
  · simp only [Store.claims, hs _ (by simp : Kind.dn ∈ _)]

/-- Hashes that evolve, in a step that neither creates nor finishes a job. -/
theorem claims_of_evolves {W : List Kind}
    (hW : ∀ κ ∈ [Kind.zset .completed, .zset .failed, .de, .dn], κ ∉ W) (hevolves : Evolves s s')
    (hsame : SamePlaces s s') (hs : ∀ {κ}, κ ∉ W → s' κ = s κ) (p : String) :
    s'.claims p = s.claims p :=
  claims_congr hsame.exist hevolves.deidOf fun κ hκ => hs (hW κ hκ)

/-- A change of other families. -/
theorem claims_of_frame {W : List Kind}
    (hW : ∀ κ ∈ [Kind.hash, .zset .completed, .zset .failed, .de, .dn], κ ∉ W)
    (hs : ∀ {κ}, κ ∉ W → s' κ = s κ) (p : String) : s'.claims p = s.claims p := by
  have hhash : s' .hash = s .hash := hs (hW _ (by simp))
  refine claims_congr (fun k => by rw [Store.jobExists, hhash, Store.jobExists])
    (fun k => by rw [Store.deidOf, hhash, Store.deidOf]) fun κ hκ => hs (hW κ (.tail _ hκ))

/-! ### Writes to the register -/

/-- Deleting a job. -/
theorem claims_removeJobKeys (p j : String) (s : Store) :
    (removeJobKeys (p ++ j) s).claims p = (s.claims p).setJob j none := by
  have hs : ∀ κ ∉ jobKeyWrites, removeJobKeys (p ++ j) s κ = s κ := fun κ hκ =>
    removeJobKeys_frame _ _ hκ
  refine Register.ext (funext fun i => ?_) ?_ ?_
  · simp only [Store.claims, Register.setJob, removeJobKeys_hash, Function.update_apply,
      String.append_right_inj, finished_congr (hs _ (by decide)) (hs _ (by decide))]
    split <;> rfl
  · simp only [Store.claims, Register.setJob, hs _ (by decide : Kind.de ∉ _)]
  · simp only [Store.claims, Register.setJob, hs _ (by decide : Kind.dn ∉ _)]

/-- Deleting a job of another queue. -/
theorem claims_removeJobKeys_of_ne {k : String} (hk : ∀ i, k ≠ p ++ i) (s : Store) :
    (removeJobKeys k s).claims p = s.claims p := by
  have hs : ∀ κ ∉ jobKeyWrites, removeJobKeys k s κ = s κ := fun κ hκ =>
    removeJobKeys_frame _ _ hκ
  refine Register.ext (funext fun i => ?_) ?_ ?_
  · simp only [Store.claims, removeJobKeys_hash, Function.update_of_ne (hk i).symm,
      finished_congr (hs _ (by decide)) (hs _ (by decide))]
  · simp only [Store.claims, hs _ (by decide : Kind.de ∉ _)]
  · simp only [Store.claims, hs _ (by decide : Kind.dn ∉ _)]

/-- The holder that a deduplication key names. -/
def DeduplicationKey.holder (key : DeduplicationKey) : Holder String := ⟨key.jobId, key.pttl.isSome⟩

theorem claims_job_of_frame (hhash : s' .hash = s .hash)
    (hc : s' (.zset .completed) = s (.zset .completed))
    (hf : s' (.zset .failed) = s (.zset .failed)) :
    (s'.claims p).job = (s.claims p).job := by
  simp only [Store.claims, hhash, finished_congr hc hf]

/-- Writing a deduplication key. -/
theorem claims_set_de (p d : String) (key : Option DeduplicationKey) (s : Store) :
    Store.claims (s.set .de (deduplicationKey p d) key) p =
      (s.claims p).setHolder d (key.map DeduplicationKey.holder) := by
  have hs : ∀ κ ≠ .de, s.set .de (deduplicationKey p d) key κ = s κ := fun κ hκ =>
    Keyspace.set_of_ne _ hκ ..
  refine Register.ext ?_ (funext fun d' => ?_) ?_
  · exact claims_job_of_frame (hs _ (by decide)) (hs _ (by decide)) (hs _ (by decide))
  · simp only [Store.claims, Register.setHolder, Keyspace.set_self, Function.update_apply,
      deduplicationKey_inj]
    split <;> rfl
  · simp only [Store.claims, Register.setHolder, hs _ (by decide : Kind.dn ≠ .de)]

theorem claims_set_de_of_ne {k : String} (hk : ∀ d, k ≠ deduplicationKey p d)
    (key : Option DeduplicationKey) (s : Store) :
    Store.claims (s.set .de k key) p = s.claims p := by
  have hs : ∀ κ ≠ .de, s.set .de k key κ = s κ := fun κ hκ => Keyspace.set_of_ne _ hκ ..
  refine Register.ext ?_ (funext fun d' => ?_) ?_
  · exact claims_job_of_frame (hs _ (by decide)) (hs _ (by decide)) (hs _ (by decide))
  · simp only [Store.claims, Keyspace.set_self, Function.update_of_ne (hk d').symm]
  · simp only [Store.claims, hs _ (by decide : Kind.dn ≠ .de)]

/-- Writing the payload kept under a deduplication id. -/
theorem claims_set_dn (p d : String) (next : Option DeduplicatedNextJob) (s : Store) :
    Store.claims (s.set .dn (deduplicationNextKey p d) next) p =
      { s.claims p with next := Function.update (s.claims p).next d next } := by
  have hs : ∀ κ ≠ .dn, s.set .dn (deduplicationNextKey p d) next κ = s κ := fun κ hκ =>
    Keyspace.set_of_ne _ hκ ..
  refine Register.ext ?_ ?_ (funext fun d' => ?_)
  · exact claims_job_of_frame (hs _ (by decide)) (hs _ (by decide)) (hs _ (by decide))
  · simp only [Store.claims, hs _ (by decide : Kind.de ≠ .dn)]
  · simp only [Store.claims, Keyspace.set_self, Function.update_apply, deduplicationNextKey_inj]

theorem claims_set_dn_of_ne {k : String} (hk : ∀ d, k ≠ deduplicationNextKey p d)
    (next : Option DeduplicatedNextJob) (s : Store) :
    Store.claims (s.set .dn k next) p = s.claims p := by
  have hs : ∀ κ ≠ .dn, s.set .dn k next κ = s κ := fun κ hκ => Keyspace.set_of_ne _ hκ ..
  refine Register.ext ?_ ?_ (funext fun d' => ?_)
  · exact claims_job_of_frame (hs _ (by decide)) (hs _ (by decide)) (hs _ (by decide))
  · simp only [Store.claims, hs _ (by decide : Kind.de ≠ .dn)]
  · simp only [Store.claims, Keyspace.set_self, Function.update_of_ne (hk d').symm]

/-- Storing a job under an id that no job has. -/
theorem claims_storeJob {o : JobOpts} (hnew : s.jobExists (p ++ j) = false)
    (hfin : Finished s p j = false) (n i : String) (t : ℤ) (P : Option Parent) (r : Option String) :
    (storeJob p j n i o t P r s).claims p =
      (s.claims p).setJob j (some ⟨o.de.map DeduplicationOpts.id, false⟩) := by
  have hs : ∀ κ ∉ [Kind.hash, .events], storeJob p j n i o t P r s κ = s κ := fun κ hκ =>
    storeJob_frame _ _ _ _ _ _ _ _ _ hκ
  have hnone : s .hash (p ++ j) = none := by simpa [Store.jobExists] using hnew
  refine Register.ext (funext fun x => ?_) ?_ ?_
  · simp only [Store.claims, Register.setJob, Function.update_apply,
      finished_congr (hs _ (by decide)) (hs _ (by decide))]
    rw [storeJob, Store.xadd_of_ne _ _ _ (by decide), Store.hset_hash]
    split
    · next heq =>
      rw [if_pos ((String.append_right_inj p).mp heq), heq, hnone,
        (String.append_right_inj p).mp heq, hfin]
      simp
    · next hne => rw [if_neg fun heq => hne (congrArg (p ++ ·) heq)]
  · simp only [Store.claims, Register.setJob, hs _ (by decide : Kind.de ∉ _)]
  · simp only [Store.claims, Register.setJob, hs _ (by decide : Kind.dn ∉ _)]

theorem claims_storeJob_of_ne (hk : ∀ i, q ++ j ≠ p ++ i) (n i : String) (o : JobOpts) (t : ℤ)
    (P : Option Parent) (r : Option String) (s : Store) :
    (storeJob q j n i o t P r s).claims p = s.claims p := by
  have hs : ∀ κ ∉ [Kind.hash, .events], storeJob q j n i o t P r s κ = s κ := fun κ hκ =>
    storeJob_frame _ _ _ _ _ _ _ _ _ hκ
  refine Register.ext (funext fun x => ?_) ?_ ?_
  · simp only [Store.claims, finished_congr (hs _ (by decide)) (hs _ (by decide))]
    rw [storeJob, Store.xadd_of_ne _ _ _ (by decide), Store.hset_hash, if_neg (hk x).symm]
  · simp only [Store.claims, hs _ (by decide : Kind.de ∉ _)]
  · simp only [Store.claims, hs _ (by decide : Kind.dn ∉ _)]

end Claims

/-! ### The invariant -/

/-- A payload carries the deduplication id it is kept under. -/
def DeduplicatedNextJob.KeptUnder (next : DeduplicatedNextJob) (d : String) : Prop :=
  ∃ de, next.opts.de = some de ∧ de.id = d ∧ de.keepLastIfActive = true

/-- A payload whose job can be created. -/
structure DeduplicatedNextJob.Legal (next : DeduplicatedNextJob) (d : String) : Prop where
  jid : QueueSet.Legal next.jid
  colonFree : next.parent ≠ none → ColonFree next.jid
  de : next.KeptUnder d

/-- Jobs are placed, and those with a parent have keys that can be taken apart. -/
structure Grounded (Q : QueueSet) (s : Store) : Prop extends Placed Q.keySpace s where
  children : ChildKeys Q.childSpace s
  linked : ∀ {p j}, Q.Base p → s.parentOf (p ++ j) ≠ none → ColonFree j

/-- What the deduplication of queues rests on: payloads reserve ids, and the ids still to be drawn
from a counter are used nowhere. -/
structure DedupBase (Q : QueueSet) (s : Store) : Prop extends Grounded Q s where
  reserving : ∀ {p}, Q.Base p → Reserving DeduplicatedNextJob.jid (s.claims p)
  payload : ∀ {p d next}, Q.Base p → s .dn (deduplicationNextKey p d) = some next → next.Legal d
  counted : ∀ {p n}, Q.Base p → s .id p < n → Unused DeduplicatedNextJob.jid (s.claims p) n.repr
  unscheduled : ∀ p, s .repeatSet p = ∅

section Base

variable {Q : QueueSet} {s s' : Store} {p j : String}

theorem DedupBase.empty (Q : QueueSet) : DedupBase Q .empty where
  toPlaced := (WellPlaced.empty Q.keySpace).toPlaced
  children k c hc := by
    obtain ⟨a, hc⟩ := hc
    cases a <;> cases hc
  linked _ h := absurd rfl h
  reserving _ d n hn := by cases hn
  payload _ hn := by cases hn
  counted _ _ := ⟨⟨rfl, fun d n hn => by cases hn⟩, fun d h hd => by cases hd⟩
  unscheduled _ := rfl

/-- A job that is in a list is not finished. -/
theorem Sound.not_finished (h : Sound Q.keySpace s) {l : ListKey} (hj : j ∈ s (.list l) p) :
    Finished s p j = false := by
  have hne : ∀ z, j ∉ s (.zset z) p := fun z hz => by
    have hzero := countIn_eq_zero_of_ne (c := .inl l) (d := .inr z) (h.le_one p j)
      (mem_list_iff.mp hj) (by simp)
    exact mem_zset_iff.mp hz hzero
  simp [Finished, hne]

/-- A job of another set is not finished. -/
theorem Sound.not_finished_of_zset (h : Sound Q.keySpace s) {z : ZSetKey} (hj : j ∈ s (.zset z) p)
    (hz : z ≠ .completed ∧ z ≠ .failed) : Finished s p j = false := by
  have hne : ∀ z', z' ≠ z → j ∉ s (.zset z') p := fun z' hz' hmem => by
    have hzero := countIn_eq_zero_of_ne (c := .inr z) (d := .inr z') (h.le_one p j)
      (mem_zset_iff.mp hj) (by simpa using hz')
    exact mem_zset_iff.mp hmem hzero
  simp [Finished, hne _ hz.1.symm, hne _ hz.2.symm]

/-- An id that occurs nowhere is not finished. -/
theorem not_finished_of_occ (h : occ s p j = 0) : Finished s p j = false := by
  simp [Finished, notMem_zset_of_occ h]

/-- The entry of a job that is not finished. -/
theorem claims_live (hex : s.jobExists (p ++ j) = true) (hfin : Finished s p j = false) :
    (s.claims p).Live j := by
  obtain ⟨job, hjob⟩ := Option.isSome_iff_exists.mp hex
  exact ⟨job.deid, by simp [Store.claims, hjob, hfin]⟩

/-- Places that stay, accounts that do not grow and parents that stay. -/
theorem Grounded.quiet (h : Grounded Q s) (hretains : Retains s s')
    (hregisters : ∀ c₀, Registers c₀ s s')
    (hparent : ∀ k, s'.parentOf k = s.parentOf k ∨ s'.parentOf k = none) : Grounded Q s' where
  toPlaced := h.toPlaced.retains hretains
  children := h.children.removes hregisters
  linked {p j} hp hne := by
    obtain heq | hnone := hparent (p ++ j)
    · exact h.linked hp (heq ▸ hne)
    · exact absurd hnone hne

/-- A step that moves jobs and writes how they fare. -/
theorem Grounded.evolves (h : Grounded Q s) (hsame : SamePlaces s s') (hevolves : Evolves s s')
    (hregisters : ∀ c₀, Registers c₀ s s') : Grounded Q s' :=
  h.quiet (.of_same h.toSound hsame) hregisters fun k => .inl (hevolves.parentOf k)

/-- A change of families that no job is placed in and no child is registered in. -/
theorem Grounded.of_frame {W : List Kind} (h : Grounded Q s)
    (hW : ∀ κ ∈ placeKinds ++ accountKinds, κ ∉ W) (hs : ∀ {κ}, κ ∉ W → s' κ = s κ) :
    Grounded Q s' := by
  have hsame : SamePlaces s s' := .of_frame (fun κ hκ => hW κ (List.mem_append_left _ hκ)) hs
  have hhash : s' .hash = s .hash := hs (hW _ (by decide))
  exact h.quiet (.of_same h.toSound hsame)
    (fun _ => .of_frame (fun κ hκ => hW κ (List.mem_append_right _ hκ)) hs)
    fun k => .inl (by rw [Store.parentOf, hhash, Store.parentOf])

/-- A new job on the ground. -/
theorem Grounded.adds (h : Grounded Q s) (hp : Q.Base p) (hj : QueueSet.Legal j)
    (hnew : s.jobExists (p ++ j) = false) (hadds : Adds p j s s')
    (hregisters : ColonFree j ∧ Registers (p ++ j) s s' ∨ ∀ c₀, Registers c₀ s s')
    (hparent : ∀ k ≠ p ++ j, s'.parentOf k = s.parentOf k)
    (hcolon : s'.parentOf (p ++ j) ≠ none → ColonFree j) : Grounded Q s' where
  toPlaced := h.toPlaced.add ⟨hp, hj⟩ hnew hadds
  children := by
    obtain ⟨hfree, hregisters⟩ | hregisters := hregisters
    · exact h.children.registers hregisters ⟨hp, hj, hfree⟩
    · exact h.children.removes hregisters
  linked {q i} hq hne := by
    by_cases hk : q ++ i = p ++ j
    · obtain rfl := Q.apart hq hp hk
      obtain rfl := (String.append_right_inj q).mp hk
      exact hcolon hne
    · exact h.linked hq (hparent _ hk ▸ hne)

/-- Events that leave the ids still to be drawn alone. -/
theorem DedupBase.step (h : DedupBase Q s) (hground : Grounded Q s')
    (hpayload : ∀ {p d next}, Q.Base p → s' .dn (deduplicationNextKey p d) = some next →
    next.Legal d)
    (hid : ∀ p, s .id p ≤ s' .id p) (hrepeat : s' .repeatSet = s .repeatSet)
    (htrace : ∀ {p}, Q.Base p → Trace DeduplicatedNextJob.jid
      (fun _ e => ∀ n, s' .id p < n → ¬ e.Introduces DeduplicatedNextJob.jid n.repr)
      (s.claims p) (s'.claims p)) : DedupBase Q s' where
  toGrounded := hground
  reserving hp := (htrace hp).invariant (fun _ hact hres => hact.reserving hres) (h.reserving hp)
  payload := hpayload
  counted {p n} hp hn := (htrace hp).invariant (fun he hact hun => hact.unused (he n hn) hun)
    (h.counted hp ((hid p).trans_lt hn))
  unscheduled p := by
    rw [hrepeat]
    exact h.unscheduled p

/-- A step that deduplication does not notice. -/
theorem DedupBase.quiet (h : DedupBase Q s) (hground : Grounded Q s')
    (hclaims : ∀ p, s'.claims p = s.claims p) (hid : ∀ p, s .id p ≤ s' .id p)
    (hdn : s' .dn = s .dn) (hrepeat : s' .repeatSet = s .repeatSet) : DedupBase Q s' :=
  h.step hground (fun hp hn => h.payload hp (hdn ▸ hn)) hid hrepeat fun _ => hclaims _ ▸ .refl _

end Base

end BullMQ
