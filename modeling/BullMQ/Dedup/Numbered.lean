import BullMQ.Dedup.Finish

/-!
# Ids drawn from a counter

The invariant of the runs in which adds may be deduplicated and ids may be given or drawn: jobs are
placed, and the counter of a queue is not behind the ids drawn from it, be they of jobs or of the
payloads that are kept (`Numbered`). A payload with a drawn id is kept once and no job has its id,
so that it can always be requeued. A payload with a given id may meet a job that was added under
the same id meanwhile, and requeueing it then makes the job occur twice; `Command.KeepsApart` says
that a command does no such thing.
-/

namespace BullMQ

open Redis

variable {Q : QueueSet} {s s' : Store} {p j : String}

/-! ### The invariant -/

/-- Jobs are placed; ids of jobs and payloads are not ahead of the counter they are drawn from, and
a payload with a drawn id is the only one under it. -/
structure Numbered (Q : QueueSet) (s : Store) : Prop extends Placed Q.keySpace s where
  counted : Counted Q.keySpace s
  kept : ∀ {p d next}, Q.Base p → s .dn (deduplicationNextKey p d) = some next →
    QueueSet.Legal next.jid ∧ next.KeptUnder d
  drawn : ∀ {p d next} (n : ℕ), Q.Base p → s .dn (deduplicationNextKey p d) = some next →
    next.jid = n.repr → n ≤ s .id p ∧ s.jobExists (p ++ next.jid) = false
  once : ∀ {p d d' next next'} (n : ℕ), Q.Base p → s .dn (deduplicationNextKey p d) = some next →
    s .dn (deduplicationNextKey p d') = some next' → next.jid = n.repr → next'.jid = n.repr → d = d'

/-- A legal id that is not ahead of the counter of the queue, and that of no payload, if it is a
number. -/
structure Unkept (s : Store) (p j : String) : Prop where
  legal : QueueSet.Legal j
  le_id : ∀ n : ℕ, j = n.repr → n ≤ s .id p
  ne_jid : ∀ (n : ℕ) d next, j = n.repr → s .dn (deduplicationNextKey p d) = some next →
    next.jid ≠ j

theorem QueueSet.legal_repr (n : ℕ) : QueueSet.Legal n.repr :=
  ⟨repr_ne_empty n, not_isLegacyMarker_of_colonFree (colonFree_repr n)⟩

theorem Unkept.drops (h : Unkept s p j) (hdn : DropsPayloads s s') (hid : s .id p ≤ s' .id p) :
    Unkept s' p j where
  legal := h.legal
  le_id n hn := (h.le_id n hn).trans hid
  ne_jid n d next hn hnext := h.ne_jid n d next hn (hdn _ _ hnext)

namespace Numbered

theorem empty (Q : QueueSet) : Numbered Q .empty where
  toPlaced := (WellPlaced.empty Q.keySpace).toPlaced
  counted p n _ hex := by cases hex
  kept _ hnext := by cases hnext
  drawn n _ hnext := by cases hnext
  once n _ hnext := by cases hnext

/-- A step that creates no job and keeps no payload. -/
theorem retains (h : Numbered Q s) (hr : Retains s s') (hdn : DropsPayloads s s')
    (hid : ∀ p, s .id p ≤ s' .id p) : Numbered Q s' where
  toPlaced := h.toPlaced.retains hr
  counted p n hv hex := (h.counted p n hv (hr.exist hex)).trans (hid p)
  kept hp hnext := h.kept hp (hdn _ _ hnext)
  drawn {p d next} n hp hnext hn := by
    obtain ⟨hle, hfree⟩ := h.drawn n hp (hdn _ _ hnext) hn
    refine ⟨hle.trans (hid p), ?_⟩
    by_contra hex
    rw [hr.exist (by simpa using hex)] at hfree
    cases hfree
  once n hp hnext hnext' := h.once n hp (hdn _ _ hnext) (hdn _ _ hnext')

/-- A step that creates one job. -/
theorem add (h : Numbered Q s) (hp : Q.Base p) (hj : Unkept s' p j)
    (hnew : s.jobExists (p ++ j) = false) (hadds : Adds p j s s') (hdn : DropsPayloads s s')
    (hid : ∀ p, s .id p ≤ s' .id p) : Numbered Q s' where
  toPlaced := h.toPlaced.add ⟨hp, hj.legal⟩ hnew hadds
  counted q n hv hex := by
    rw [hadds.exist, Bool.or_eq_true] at hex
    obtain hex | hex := hex
    · exact (h.counted q n hv hex).trans (hid q)
    · obtain ⟨rfl, hn⟩ := Q.keySpace.inj hv ⟨hp, hj.legal⟩ (of_decide_eq_true hex)
      exact hj.le_id n hn.symm
  kept hq hnext := h.kept hq (hdn _ _ hnext)
  drawn {q d next} n hq hnext hn := by
    obtain ⟨hle, hfree⟩ := h.drawn n hq (hdn _ _ hnext) hn
    refine ⟨hle.trans (hid q), ?_⟩
    rw [hadds.exist, hfree, Bool.false_or, decide_eq_false_iff_not]
    intro heq
    obtain ⟨rfl, hjid⟩ := Q.keySpace.inj ⟨hq, (h.kept hq (hdn _ _ hnext)).1⟩ ⟨hp, hj.legal⟩ heq
    exact hj.ne_jid n d next (hjid.symm.trans hn) hnext hjid
  once n hp hnext hnext' := h.once n hp (hdn _ _ hnext) (hdn _ _ hnext')

/-- A step that keeps a payload. -/
theorem keep {d : String} (h : Numbered Q s) (hp : Q.Base p) (next : DeduplicatedNextJob)
    (hj : Unkept s p next.jid) (hnew : s.jobExists (p ++ next.jid) = false)
    (hkept : next.KeptUnder d) (hsame : SamePlaces s s')
    (hdn : s' .dn = Function.update (s .dn) (deduplicationNextKey p d) (some next))
    (hid : s' .id = s .id) : Numbered Q s' := by
  -- A payload of the new store is one of the old store, or the new one.
  have hcases : ∀ {q d' next'}, Q.Base q → s' .dn (deduplicationNextKey q d') = some next' →
      s .dn (deduplicationNextKey q d') = some next' ∨ q = p ∧ d' = d ∧ next' = next := by
    intro q d' next' hq hnext
    rw [hdn, Function.update_apply] at hnext
    split at hnext
    · next heq =>
      by_cases hqp : q = p
      · subst hqp
        exact .inr ⟨rfl, deduplicationNextKey_inj.mp heq, (Option.some.inj hnext).symm⟩
      · exact absurd heq (QueueSet.deduplicationNextKey_ne hq hp hqp d' d)
    · exact .inl hnext
  refine ⟨h.toPlaced.retains (.of_same h.toSound hsame), fun q n hv hex => ?_,
    fun {q d' next'} hq hnext => ?_, fun {q d' next'} n hq hnext hn => ?_,
    fun {q d₁ d₂ next₁ next₂} n hq h₁ h₂ hn₁ hn₂ => ?_⟩
  · rw [hid]
    exact h.counted q n hv (by rwa [hsame.exist] at hex)
  · obtain hold | ⟨rfl, rfl, rfl⟩ := hcases hq hnext
    · exact h.kept hq hold
    · exact ⟨hj.legal, hkept⟩
  · rw [hid, hsame.exist]
    obtain hold | ⟨rfl, rfl, rfl⟩ := hcases hq hnext
    · exact h.drawn n hq hold hn
    · exact ⟨hj.le_id n hn, hnew⟩
  · obtain hold₁ | ⟨hq₁, rfl, rfl⟩ := hcases hq h₁ <;>
      obtain hold₂ | ⟨hq₂, rfl, rfl⟩ := hcases hq h₂
    · exact h.once n hq hold₁ hold₂ hn₁ hn₂
    · subst hq₂
      exact absurd (hn₁.trans hn₂.symm) (hj.ne_jid n _ _ hn₂ hold₁)
    · subst hq₁
      exact absurd (hn₂.trans hn₁.symm) (hj.ne_jid n _ _ hn₁ hold₂)
    · rfl

end Numbered

/-! ### Adds -/

/-- The ids that an add may bring: drawn from the counter, or given and then unlike those. -/
structure AddArgs.Named (Q : QueueSet) (p : String) (a : AddArgs) : Prop where
  base : Q.Base p
  custom : a.customId ≠ "" → QueueSet.Legal a.customId ∧ ∀ n : ℕ, a.customId ≠ n.repr

section Adds

variable {mode : AddMode} {a : AddArgs}

theorem Numbered.create (h : Numbered Q s) (hmode : mode.Dedups p) (hp : Q.Base p)
    (hj : Unkept s p j) (hnew : s.jobExists (p ++ j) = false) (a : AddArgs) :
    Numbered Q (storeNewJob mode p j a s) := by
  have hs : ∀ {κ}, κ ∉ Kind.hash :: .dependencies :: placingWrites →
      storeNewJob mode p j a s κ = s κ := storeNewJob_frame_of_quiet hmode j a s
  have hdn : DropsPayloads s (storeNewJob mode p j a s) := .of_frame (by decide) hs
  have hid : ∀ q, s .id q ≤ storeNewJob mode p j a s .id q := fun q => by rw [hs (by decide)]
  exact h.add hp (hj.drops hdn (hid p)) hnew
    (storeNewJob_adds hmode.enqueues (h.occ_eq_zero hnew) a) hdn hid

/-- The new id of an add. -/
theorem addNewJob_numbered (hmode : mode.Dedups p) (h : Numbered Q s) (hp : Q.Base p)
    (hj : Unkept s p j) (hnew : s.jobExists (p ++ j) = false) (a : AddArgs) :
    Numbered Q (addNewJob mode p j a s).2 := by
  cases hde : a.opts.de with
  | none =>
    rw [addNewJob_of_none hde]
    exact h.create hmode hp hj hnew a
  | some de =>
    have hres := hmode.result de j a s
    have heq : ∀ o s', mode.deduplicate de j a s = (o, s') → (addNewJob mode p j a s).2 =
        o.elim (storeNewJob mode p j a s') fun _ => s' := fun o s' h => by
      simp only [addNewJob, hde, h]
      cases o <;> rfl
    -- A change of the deduplication keys and the events only.
    have hquiet : ∀ {s' : Store}, (∀ {κ}, κ ∉ [Kind.de, .events] → s' κ = s κ) → Numbered Q s' :=
      fun hs => h.retains (.of_same h.toSound (.of_frame (by decide) hs))
        (.of_frame (by decide) hs) fun q => by rw [hs (by decide)]
    rcases hded : mode.deduplicate de j a s with ⟨o, s'⟩
    rw [heq o s' hded]
    rw [hded] at hres
    cases hres with
    | free hkey =>
      have hs : ∀ {κ}, κ ∉ [Kind.de] →
          setDeduplicationKey (deduplicationKey p de.id) j de.lasting s κ = s κ := fun hκ =>
        setDeduplicationKey_frame _ _ _ _ (by simpa using hκ)
      refine (hquiet fun hκ => hs (Kind.notMem_mono hκ (by decide))).create hmode hp
        (hj.drops (.of_frame (by decide) hs) (by rw [hs (by decide)])) ?_ a
      rw [Store.jobExists, hs (by decide)]
      exact hnew
    | @replaced current key hreplace hkey hdelayed hid hlast =>
      -- The holder is deleted, and its place is taken.
      set u := (removeDelayedJob p current.jobId j de.id s).2.set .de (deduplicationKey p de.id)
        (some key) with hu
      have hs : ∀ {κ}, κ ∉ Kind.de :: .events :: .zset .delayed :: jobKeyWrites → u κ = s κ := by
        intro κ hκ
        rw [hu, Keyspace.set_of_ne _ (by rintro rfl; exact hκ (by decide)),
          removeDelayedJob_frame_of_mem hdelayed (fun hmem => hκ (List.mem_cons_of_mem _ hmem))]
      have hdeletes := removeDelayedJob_deletes (i := j) (d := de.id) h.toSound hdelayed
      have hr : Retains s u := (Retains.of_deletes h.toSound
        (by simpa using h.valid_zset hdelayed) hdeletes).same_right
          (.of_frame (W := [.de]) (by decide) fun hκ => Keyspace.set_of_ne _ (by simpa using hκ) ..)
      refine (h.retains hr (.of_frame (by decide) hs) fun q => by rw [hs (by decide)]).create hmode
        hp (hj.drops (.of_frame (by decide) hs) (by rw [hs (by decide)])) ?_ a
      by_contra hex
      rw [hr.exist (by simpa using hex)] at hnew
      cases hnew
    | dropped hkey hs => exact hquiet fun hκ => hs _ (Kind.notMem_mono hκ (by decide))
    | renewed hkey hextend httl hs =>
      change Numbered Q s'
      refine hquiet fun hκ => ?_
      rw [hs _ (Kind.notMem_mono hκ (by decide)),
        setDeduplicationKey_frame _ _ _ _ (by rintro rfl; exact hκ (by decide))]
    | @kept current _ hkey hkeep hactive hs =>
      have hs' : ∀ {κ}, κ ∉ [Kind.events, .dn, .de] → s' κ = s κ := by
        intro κ hκ
        simp only [List.mem_cons, List.not_mem_nil, or_false, not_or] at hκ
        rw [hs _ (by simpa using hκ.1), Keyspace.set_of_ne _ hκ.2.2, Keyspace.set_of_ne _ hκ.2.1]
      change Numbered Q s'
      refine h.keep hp (a.payload j) hj hnew ⟨de, hde, rfl, hkeep⟩
        (.of_frame (by decide) hs') ?_ (hs' (by decide))
      rw [hs _ (by decide), Keyspace.set_of_ne _ (by decide), Keyspace.set_self]

/-- **An add** keeps ids in order. -/
theorem addJobWith_numbered (hmode : mode.Dedups p) (h : Numbered Q s) (ha : a.Named Q p) :
    Numbered Q (addJobWith mode p a s).2 := by
  have hdraw := drawId_same p s
  have hdn : DropsPayloads s (drawId p s) := .of_frame (by decide) (drawId_frame p s)
  have hid : ∀ q, s .id q ≤ drawId p s .id q := fun q => by
    rw [drawId, getOrSetMaxEvents_frame _ _ (by decide)]
    exact modify_id_le p q s
  have h₁ : Numbered Q (drawId p s) := h.retains (.of_same h.toSound hdraw) hdn hid
  obtain ⟨-, hres⟩ | ⟨-, hex, -, hres⟩ | ⟨j, hj, -, hres⟩ := addJobWith_ends mode p a s <;>
    rw [hres]
  · exact h
  · exact h₁.retains (.of_same h₁.toSound
      (handleDuplicatedJob_same h₁.toSound ((hdraw.exist _).trans hex) _ _))
      (.of_frame (by decide) (handleDuplicatedJob_frame _ _ _ _ _)) fun q => by
        rw [handleDuplicatedJob_frame _ _ _ _ _ (by decide)]
  · have hnew : Unkept (drawId p s) p j ∧ s.jobExists (p ++ j) = false := by
      obtain ⟨-, rfl⟩ | ⟨hgiven, hne, hfree⟩ := hj
      · -- A drawn id is ahead of all that were drawn before.
        refine ⟨⟨QueueSet.legal_repr _, fun n hn => ?_, fun n d next hn hnext hjid => ?_⟩, ?_⟩
        · rw [drawId_id, Function.update_self, repr_inj hn]
        · have hle := (h.drawn _ ha.base (hdn _ _ hnext) hjid).1
          omega
        · by_contra hex
          have hle : s .id p + 1 ≤ s .id p :=
            h.counted p _ ⟨ha.base, QueueSet.legal_repr _⟩ (by simpa using hex)
          exact Nat.not_succ_le_self _ hle
      · have hcustom := ha.custom (hgiven ▸ hne)
        rw [hgiven] at hcustom
        exact ⟨⟨hcustom.1, fun n hn => absurd hn (hcustom.2 n),
          fun n _ _ hn => absurd hn (hcustom.2 n)⟩, hfree⟩
    exact addNewJob_numbered hmode h₁ ha.base hnew.1 ((hdraw.exist _).trans hnew.2) a

end Adds

/-! ### Finishing a job -/

/-- The successor, if a payload is kept, is a new job, and its payload is kept no longer. -/
theorem requeueDeduplicatedJob_places {d : String} {next : DeduplicatedNextJob}
    (h : Sound Q.keySpace s) (hnext : s .dn (deduplicationNextKey p d) = some next)
    (hkept : next.KeptUnder d) (hnew : s.jobExists (p ++ next.jid) = false) (t : ℤ) :
    Adds p next.jid s (requeueDeduplicatedJob p (some d) t s) ∧
      requeueDeduplicatedJob p (some d) t s .dn =
        Function.update (s .dn) (deduplicationNextKey p d) none := by
  have hsucceeded : SamePlaces s (succeeded p d next s) :=
    .of_frame (by decide) (succeeded_frame p d next s)
  have hadds := storeNewJob_adds (requeueMode_dedups p).enqueues
    (by rw [hsucceeded.occ, h.occ_eq_zero hnew]) (next.args t)
  have hforget : ∀ s : Store,
      SamePlaces s (s.set .dn (deduplicationNextKey p d) none) := fun s =>
    .of_frame (W := [.dn]) (by decide) fun hκ => Keyspace.set_of_ne _ (by simpa using hκ) ..
  rw [requeueDeduplicatedJob_of_some hnext hkept]
  refine ⟨⟨fun q i => ?_, fun k => ?_⟩, ?_⟩
  · rw [(hforget _).occ, hadds.occ, hsucceeded.occ]
  · rw [(hforget _).exist, hadds.exist, hsucceeded.exist]
  · rw [Keyspace.set_self, storeNewJob_frame_of_quiet (requeueMode_dedups p) _ _ _ (by decide),
      succeeded_frame _ _ _ _ (by decide)]

/-- No payload that would be requeued has a given id that a job has. -/
def RequeuesApart (s : Store) (p : String) (o : Option String) : Prop :=
  ∀ d next, o = some d → s .dn (deduplicationNextKey p d) = some next →
    (∀ n : ℕ, next.jid ≠ n.repr) → s.jobExists (p ++ next.jid) = false

section Finish

variable {a : FinishArgs}

/-- Settling a finished job, seen with the job still in its place. -/
theorem settled_numbered {t : String} (h : Numbered Q s) (hg : GivesUp s p a.jobId t)
    (hapart : RequeuesApart s p (s.deidOf (p ++ a.jobId))) (f : Option FieldsToUpdate) :
    ∃ u : Store, Numbered Q u ∧ Enters p a.jobId (settled p a (leftActive p a.jobId t f s)) u ∧
      u.jobExists (p ++ a.jobId) = true ∧
      u .dn = settled p a (leftActive p a.jobId t f s) .dn ∧
      u .id = settled p a (leftActive p a.jobId t f s) .id := by
  set s₁ := leftActive p a.jobId t f s with hs₁
  set o := s₁.deidOf (p ++ a.jobId) with ho
  set s₂ := keyReleased p o a.jobId s₁ with hs₂
  set s₃ := requeueDeduplicatedJob p o a.timestamp s₂ with hs₃
  set s₅ := settled p a s₁ with hs₅
  set u : Store := s₅.modify (.list .active) p (PushCmd.lpush.push a.jobId) with hu
  have hp : Q.Base p := (h.valid_list hg.active).1
  have hleft : Enters p a.jobId s₁ s := leftActive_leaves hg.jobExists hg.active t f
  have hreleased : SamePlaces s₁ s₂ := .of_frame (by decide) (keyReleased_frame p o a.jobId s₁)
  have hleft₂ : Enters p a.jobId s₂ s := hleft.same_left hreleased.symm
  have hsound₂ : Sound Q.keySpace s₂ := h.toSound.of_enters hleft₂
  have hdeid : o = s.deidOf (p ++ a.jobId) := (leftActive_evolves p a.jobId s t f).deidOf _
  have hdn₂ : s₂ .dn = s .dn := by
    rw [hs₂, keyReleased_frame _ _ _ _ (by decide), hs₁, leftActive_frame _ _ _ _ _ (by decide)]
  -- What settling does after the successor is stored moves no job.
  have hsettled : s₅ = (notifyParent (s₁.parentOf (p ++ a.jobId)) (p ++ a.jobId) a s₃).hset
      (p ++ a.jobId) fun job => { job with atm := job.atm + 1 } := rfl
  have hrest : Sound Q.keySpace s₃ → s₃.jobExists (p ++ a.jobId) = true → SamePlaces s₃ s₅ := by
    intro hsound hex
    have hnotified := notifyParent_same hsound (s₁.parentOf (p ++ a.jobId)) (p ++ a.jobId) a
    rw [hsettled]
    exact hnotified.trans (.hset (by rw [hnotified.exist, hex]))
  have hrest_frame : ∀ {κ : Kind}, κ ∉ Kind.hash :: .processed :: childFailureWrites →
      s₅ κ = s₃ κ := by
    intro κ hκ
    rw [hsettled, Store.hset_of_ne _ _ _ (by rintro rfl; exact hκ (by decide)),
      notifyParent_frame _ _ _ _ (Kind.notMem_mono hκ (by decide))]
  have hput : ∀ {κ : Kind}, κ ∉ [Kind.list .active] → u κ = s₅ κ := modify_notMem
  have henters : Enters p a.jobId s₅ u := enters_push ..
  have hid : ∀ q, s .id q ≤ u .id q := by
    intro q
    rw [hput (by decide), hrest_frame (by decide)]
    refine le_of_eq_of_le ?_ (requeueDeduplicatedJob_id_le p o a.timestamp s₂ q)
    rw [hs₂, keyReleased_frame _ _ _ _ (by decide), hs₁, leftActive_frame _ _ _ _ _ (by decide)]
  have hdn₅ : u .dn = s₃ .dn := by rw [hput (by decide), hrest_frame (by decide)]
  have hex₂ : ∀ k, s₂.jobExists k = s.jobExists k := fun k => (hleft₂.exist k).symm
  suffices hnumbered : Numbered Q u ∧ u.jobExists (p ++ a.jobId) = true from
    ⟨u, hnumbered.1, henters, hnumbered.2, hput (by decide), hput (by decide)⟩
  -- Is there a successor?
  by_cases hnone : ∀ d next, o = some d → s₂ .dn (deduplicationNextKey p d) ≠ some next
  · have hsame : s₃ = s₂ := by
      rw [hs₃]
      cases hd : o with
      | none => rfl
      | some d =>
        cases hdn : s₂ .dn (deduplicationNextKey p d) with
        | none => simp only [requeueDeduplicatedJob, hdn]
        | some next => exact absurd hdn (hnone d next hd)
    have hmoved : SamePlaces s₂ s₅ := hsame ▸ hrest (hsame ▸ hsound₂)
      (by rw [hsame, hex₂, hg.jobExists])
    have hback : SamePlaces s u := hleft₂.move (henters.same_left hmoved)
    refine ⟨h.retains (.of_same h.toSound hback) (fun k next hnext => ?_) hid,
      (hback.exist _).trans hg.jobExists⟩
    rwa [hdn₅, hsame, hdn₂] at hnext
  · push Not at hnone
    obtain ⟨d, next, hd, hnext⟩ := hnone
    have hnext₀ : s .dn (deduplicationNextKey p d) = some next := hdn₂ ▸ hnext
    obtain ⟨hlegal, hkept⟩ := h.kept hp hnext₀
    have hnew : s.jobExists (p ++ next.jid) = false := by
      by_cases hnumber : ∃ n : ℕ, next.jid = n.repr
      · obtain ⟨n, hn⟩ := hnumber
        exact (h.drawn n hp hnext₀ hn).2
      · push Not at hnumber
        exact hapart d next (hdeid ▸ hd) hnext₀ hnumber
    have hnew₂ : s₂.jobExists (p ++ next.jid) = false := (hex₂ _).trans hnew
    obtain ⟨hadds, hdn₃⟩ := requeueDeduplicatedJob_places hsound₂ hnext hkept hnew₂ a.timestamp
    rw [← hd, ← hs₃] at hadds hdn₃
    have hmoved : SamePlaces s₃ s₅ := hrest (hsound₂.add ⟨hp, hlegal⟩ hnew₂ hadds)
      (by rw [hadds.exist, hex₂, hg.jobExists, Bool.true_or])
    have hadds' : Adds p next.jid s u := by
      refine ⟨fun q i => ?_, fun k => ?_⟩
      · rw [henters.occ, hmoved.occ, hadds.occ, hleft₂.occ]
        omega
      · rw [henters.exist, hmoved.exist, hadds.exist, hex₂]
    have hdn : DropsPayloads s u := fun k next' hnext' => by
      rw [hdn₅, hdn₃, Function.update_apply] at hnext'
      split at hnext'
      · cases hnext'
      · rwa [hdn₂] at hnext'
    refine ⟨h.add hp ⟨hlegal, fun n hn => ?_, fun n d' next' hn hnext' hjid => ?_⟩ hnew hadds' hdn
      hid, by rw [hadds'.exist, hg.jobExists, Bool.true_or]⟩
    · exact (h.drawn n hp hnext₀ hn).1.trans (hid p)
    · -- The payload is the only one with its id, and it is gone.
      obtain rfl := h.once n hp hnext₀ (hdn _ _ hnext') hn (hjid.trans hn)
      rw [hdn₅, hdn₃, Function.update_self] at hnext'
      cases hnext'

theorem finishJob_numbered {t : String} (h : Numbered Q s) (hg : GivesUp s p a.jobId t)
    (hapart : RequeuesApart s p (s.deidOf (p ++ a.jobId))) :
    Numbered Q (finishJob p a (leftActive p a.jobId t a.fieldsToUpdate s)) := by
  set s₁ := leftActive p a.jobId t a.fieldsToUpdate s with hs₁
  obtain ⟨u, hu, henters, hex, hdn, hid⟩ := settled_numbered h hg hapart a.fieldsToUpdate
  rw [← hs₁] at henters hdn hid
  have hframe : ∀ {κ}, κ ∉ [Kind.events, .metrics] → _ := fun {κ} hκ =>
    finishJob_frame_of_keep p a s₁ (κ := κ) hκ
  have hr := keepOrRemove_retains hu.toPlaced henters (h.valid_list hg.active) hex
    (s₁.parentOf (p ++ a.jobId))
  refine hu.retains (hr.same_right (.of_frame (by decide) hframe)) (fun k next hnext => ?_)
    fun q => ?_
  · rw [hframe (by decide)] at hnext
    rw [hdn]
    exact keepOrRemove_drops _ _ _ _ _ _ hnext
  · rw [hframe (by decide), keepOrRemove_frame _ _ _ _ (by decide), hid]

theorem moveToFinished_numbered (h : Numbered Q s) (a : FinishArgs)
    (hapart : FinishesJob s p a → RequeuesApart s p (s.deidOf (p ++ a.jobId))) :
    Numbered Q (Script.moveToFinished p a s).2 := by
  obtain ⟨-, n, -, -, hres⟩ | ⟨hrel, hres⟩ | ⟨hfin, hres⟩ := Script.moveToFinished_cases p a s <;>
    rw [hres]
  · exact h
  · exact h.retains (.of_same h.toSound (releasedJob_same hrel.jobExists _ _))
      (.of_frame (by decide) (releasedJob_frame _ _ _ _ s)) fun q => by
        rw [releasedJob_frame _ _ _ _ _ (by decide)]
  · have hdone := finishJob_numbered h hfin.1 (hapart hfin)
    exact hdone.retains (.of_same hdone.toSound (fetchOrDrain_same hdone.toSound p a))
      (.of_frame (by decide) (fetchOrDrain_frame p a _)) fun q => by
        rw [fetchOrDrain_frame _ _ _ (by decide)]

end Finish

/-! ### Every command -/

/-- The commands that are not removals on request, with adds under legal ids. -/
def Command.Named (Q : QueueSet) : Command → Prop
  | addStandardJob p a | addDelayedJob p a | addPrioritizedJob p a | addParentJob p a =>
    a.Named Q p
  | removeJob .. => False
  | _ => True

/-- A command requeues no kept payload under a given id that a job has. -/
def Command.KeepsApart (c : Command) (s : Store) : Prop :=
  ∀ p a, c = .moveToFinished p a → FinishesJob s p a →
    RequeuesApart s p (s.deidOf (p ++ a.jobId))

/-- **One command** keeps ids in order. -/
theorem Numbered.exec {c : Command} {r : Reply × Store} (h : Numbered Q s) (hc : c.Named Q)
    (hapart : c.KeepsApart s) (hexec : c.exec s = some r) : Numbered Q r.2 := by
  have hmoves : c.Moves → Numbered Q r.2 := fun hm =>
    h.retains (.of_same h.toSound (hm.exec h.toSound hexec))
      (.of_frame hm.writes.1 fun hκ => Command.exec_frame hexec hκ)
      fun q => by rw [Command.exec_frame hexec hm.writes.2]
  cases c with
  | removeJob n p j b => exact hc.elim
  | addStandardJob p a => cases hexec; exact addJobWith_numbered (standardMode_dedups p) h hc
  | addDelayedJob p a => cases hexec; exact addJobWith_numbered (delayedMode_dedups p) h hc
  | addPrioritizedJob p a => cases hexec; exact addJobWith_numbered (prioritizedMode_dedups p) h hc
  | addParentJob p a => cases hexec; exact addJobWith_numbered (parentMode_dedups p) h hc
  | moveToFinished p a =>
    cases hexec
    exact moveToFinished_numbered h a (hapart p a rfl)
  | _ => exact hmoves trivial

end BullMQ
