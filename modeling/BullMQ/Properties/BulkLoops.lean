import Mathlib.Data.Int.ConditionallyCompleteOrder
import BullMQ.Naming.Obliterated
import BullMQ.Properties.Clean

/-!
# The loops of a queue object

`Queue.retryJobs`, `Queue.promoteJobs` and `Queue.obliterate` call a script until it reports that
nothing is left. A call that reports more to do has spent its budget on entries that it removed, so
the loops end; one that does not has found everything (`moveJobsLoop_moves`,
`obliterateLoop_obliterates`).
-/

namespace BullMQ

open Redis

/-! ### Moving jobs to wait -/

section Ranges

variable {α : Type} [LinearOrder α]

/-- What a test keeps of a list comes first in what a weaker test keeps, if it goes on to fail once
it fails. -/
theorem filter_prefix_filter {β : Type} {e e' : β → Bool} {l : List β}
    (hl : l.Pairwise fun a b => e b = true → e' a = true → e a = true)
    (he : ∀ a, e a = true → e' a = true) : l.filter e <+: l.filter e' := by
  induction l with
  | nil => exact List.prefix_rfl
  | cons a l ih =>
    obtain ⟨ha, hl⟩ := List.pairwise_cons.mp hl
    by_cases h' : e' a = true
    · by_cases h : e a = true
      · rw [List.filter_cons_of_pos h, List.filter_cons_of_pos h']
        exact (List.prefix_cons_inj a).mpr (ih hl)
      · have hnil : l.filter e = [] :=
          List.filter_eq_nil_iff.mpr fun b hb hb' => h (ha b hb hb' h')
        rw [List.filter_cons_of_neg h, hnil]
        exact List.nil_prefix
    · have h : ¬ e a = true := fun h => h' (he a h)
      rw [List.filter_cons_of_neg h, List.filter_cons_of_neg h']
      exact ih hl

theorem rangeByScore_prefix (lo : ℤ) {hi hi' : ℤ} (h : hi ≤ hi') (z : SortedSet ℤ α) :
    z.rangeByScore lo hi <+: z.rangeByScore lo hi' := by
  refine List.IsPrefix.map _ (filter_prefix_filter ?_ ?_)
  · refine z.sorted.imp ?_
    intro a b hab hb ha
    have hscore : (ofLex a).1 ≤ (ofLex b).1 :=
      (Prod.Lex.le_iff.mp hab).elim le_of_lt fun h => h.1.le
    rw [decide_eq_true_eq] at ha hb ⊢
    exact ⟨ha.1, hscore.trans hb.2⟩
  · intro a ha
    rw [decide_eq_true_eq] at ha ⊢
    exact ⟨ha.1, ha.2.trans h⟩

theorem rangeByScore_zremAll (lo hi : ℤ) (l : List α) (z : SortedSet ℤ α) :
    (z.zremAll l).rangeByScore lo hi = (z.rangeByScore lo hi).filter (· ∉ l) := by
  rw [SortedSet.rangeByScore, SortedSet.entriesByScore, SortedSet.zremAll, SortedSet.rangeByScore,
    SortedSet.entriesByScore, List.filter_map]
  simp only [SortedSet.filter, List.filter_filter, Function.comp_def]
  congr 2
  funext e
  exact Bool.and_comm _ _

/-- Without its first members a list without repetitions is the rest of it. -/
theorem filter_notMem_take {l : List α} (h : l.Nodup) (n : ℕ) :
    l.filter (· ∉ l.take n) = l.drop n := by
  have hsplit : (l.take n ++ l.drop n).Nodup := by rwa [List.take_append_drop]
  obtain ⟨-, -, hdisj⟩ := List.nodup_append'.mp hsplit
  conv_lhs => rw [← List.take_append_drop n l]
  rw [List.filter_append, List.filter_eq_nil_iff.mpr (by simp), List.nil_append,
    List.filter_eq_self]
  intro a ha
  rw [List.take_append_drop, decide_eq_true_eq]
  exact fun h => hdisj h ha

theorem drop_length_take {β : Type} (l : List β) (k : ℕ) : l.drop (l.take k).length = l.drop k := by
  rw [List.length_take]
  by_cases hk : k ≤ l.length
  · rw [Nat.min_eq_left hk]
  · rw [Nat.min_eq_right (by omega), List.drop_length, List.drop_of_length_le (by omega)]

end Ranges

variable {p : String} {s s' s'' : Store}

/-- The given jobs of a set are moved to the wait list: the first of them is the next one to leave
it from there. -/
structure MovesToWait (p : String) (z : ZSetKey) (moved : List String) (s s' : Store) : Prop where
  source : s' (.zset z) p = (s (.zset z) p).zremAll moved
  wait : s' (.list .wait) p = moved.reverse ++ s (.list .wait) p

theorem MovesToWait.trans {z : ZSetKey} {moved moved' : List String}
    (h : MovesToWait p z moved s s') (h' : MovesToWait p z moved' s' s'') :
    MovesToWait p z (moved ++ moved') s s'' where
  source := by rw [h'.source, h.source, zremAll_zremAll]
  wait := by rw [h'.wait, h.wait, List.reverse_append, List.append_assoc]

theorem MovesToWait.of_frame {z : ZSetKey} {W : List Kind} (hz : Kind.zset z ∉ W)
    (hwait : Kind.list .wait ∉ W) (hs : ∀ {κ}, κ ∉ W → s' κ = s κ) : MovesToWait p z [] s s' where
  source := by rw [hs hz, SortedSet.zremAll_nil]
  wait := by rw [hs hwait]; rfl

theorem moveBatchToWait_moves (p : String) (z : ZSetKey) (s : Store) (jobs : List String) :
    MovesToWait p z jobs s (moveBatchToWait p z s jobs) where
  source := by
    rw [moveBatchToWait, Keyspace.modify_of_ne _ (by simp), Keyspace.modify_self,
      Function.update_self]
  wait := by
    rw [moveBatchToWait, Keyspace.modify_self, Function.update_self,
      Keyspace.modify_of_ne _ (by simp)]
    exact List.foldl_flip_cons_eq_append'

theorem foldl_moveBatchToWait_moves (p : String) (z : ZSetKey) (ls : List (List String))
    (s : Store) : MovesToWait p z ls.flatten s (ls.foldl (moveBatchToWait p z) s) := by
  induction ls generalizing s with
  | nil => exact .of_frame (W := []) (by simp) (by simp) fun _ => rfl
  | cons l ls ih =>
    rw [List.foldl_cons, List.flatten_cons]
    exact (moveBatchToWait_moves p z s l).trans (ih _)

/-- A call moves as many jobs as it may of those that are due, and asks for another one if these are
as many as it may. -/
theorem moveJobsToWait_moves (p : String) (state : BulkState) (n : ℕ) (t : ℤ) (s : Store) :
    ∃ s', Script.moveJobsToWait p state n t s =
        (.code (if n ≤ ((s (.zset state.zset) p).rangeByScore 0 t).length then 1 else 0), s') ∧
      MovesToWait p state.zset (((s (.zset state.zset) p).rangeByScore 0 t).take n) s s' := by
  generalize hdue : (s (.zset state.zset) p).rangeByScore 0 t = due
  have hjobs : limitTo n due = due.take n := by
    rw [limitTo, if_neg (by omega), Int.toNat_natCast]
  have hcode : (if (n : ℤ) - (due.take n).length ≤ 0 then Reply.code 1 else .code 0) =
      .code (if n ≤ due.length then 1 else 0) := by
    rw [List.length_take, ← apply_ite Reply.code]
    congr 1
    by_cases hle : n ≤ due.length
    · rw [if_pos hle, if_pos (by omega)]
    · rw [if_neg hle, if_neg (by omega)]
  simp only [Script.moveJobsToWait, hdue, hjobs, hcode]
  refine ⟨_, rfl, ?_⟩
  split
  · next hnil =>
    rw [hnil]
    exact .of_frame (W := []) (by simp) (by simp) fun _ => rfl
  · -- The batches of 7000 make up the whole list.
    have hflat : ((batches (due.take n).length 7000).map (unpack (due.take n))).flatten =
        due.take n := by
      rw [← List.flatMap_def, flatMap_batches _ (by decide)]
    have hbefore : MovesToWait p state.zset [] s
        ((due.take n).foldl (fun s jobId => s.xadd p (.waiting jobId (some state.name)))
          (getOrSetMaxEvents p ((due.take n).foldl (clearResultOf p state) s))) :=
      .of_frame (W := [.hash, .events, .metaMaxLenEvents]) (by simp) (by simp) fun hκ => by
        simp only [List.mem_cons, List.not_mem_nil, or_false, not_or] at hκ
        rw [foldl_xadd_frame _ _ _ _ hκ.2.1, getOrSetMaxEvents_frame _ _ (by simp [hκ]),
          foldl_clearResultOf_frame _ _ _ _ hκ.1]
    have hmove := foldl_moveBatchToWait_moves p state.zset
      ((batches (due.take n).length 7000).map (unpack (due.take n)))
      ((due.take n).foldl (fun s jobId => s.xadd p (.waiting jobId (some state.name)))
        (getOrSetMaxEvents p ((due.take n).foldl (clearResultOf p state) s)))
    rw [List.foldl_map, hflat] at hmove
    have hmark : ∀ s₁ : Store, MovesToWait p state.zset [] s₁
        (addBaseMarkerIfNeeded p (isQueuePausedOrMaxed p s) s₁) := fun s₁ =>
      .of_frame (W := [.marker]) (by simp) (by decide) (addBaseMarkerIfNeeded_frame p _ s₁)
    have h := (hbefore.trans hmove).trans (hmark _)
    rwa [List.nil_append, List.append_nil] at h

theorem length_filter_notMem_lt {l l' : List String} (h : l'.Sublist l) (hne : l' ≠ []) :
    (l.filter (· ∉ l')).length < l.length := by
  obtain ⟨a, rest, rfl⟩ := List.exists_cons_of_ne_nil hne
  exact List.length_filter_lt_length_iff_exists.mpr ⟨a, h.subset List.mem_cons_self, by simp⟩

/-- The loop moves the jobs that are due at the time of its last call. -/
theorem moveJobsLoop_moves (state : BulkState) {n : ℕ} (hn : 0 < n) {timestamp : ℕ → ℤ}
    (hmono : Monotone timestamp) (calls call : ℕ) {s : Store}
    (hcalls : (s (.zset state.zset) p).members.length < calls) :
    ∃ s' last, moveJobsLoop p state n timestamp calls call s = some s' ∧ call ≤ last ∧
      MovesToWait p state.zset ((s (.zset state.zset) p).rangeByScore 0 (timestamp last)) s s' := by
  induction calls generalizing call s with
  | zero => omega
  | succ calls ih =>
    obtain ⟨s₁, hcall, hmoves⟩ := moveJobsToWait_moves p state n (timestamp call) s
    rw [moveJobsLoop, hcall]
    dsimp only
    generalize hz : s (.zset state.zset) p = z at hmoves hcalls ⊢
    have hsub := z.rangeByScore_sublist 0 (timestamp call)
    by_cases hmore : n ≤ (z.rangeByScore 0 (timestamp call)).length
    · have htaken : (z.rangeByScore 0 (timestamp call)).take n ≠ [] := by
        rw [ne_eq, ← List.length_eq_zero_iff, List.length_take]
        omega
      have hfewer : (s₁ (.zset state.zset) p).members.length < calls := by
        have hlt := length_filter_notMem_lt ((List.take_sublist n _).trans hsub) htaken
        rw [hmoves.source, hz, SortedSet.members_zremAll]
        omega
      obtain ⟨s', last, hloop, hle, h'⟩ := ih (call + 1) hfewer
      refine ⟨s', last, by rw [if_pos (by simp [hmore]), hloop], by omega, ?_⟩
      -- the jobs moved first come first among those due at the end
      obtain ⟨rest, hrest⟩ := rangeByScore_prefix 0 (hmono (show call ≤ last by omega)) z
      have htake : (z.rangeByScore 0 (timestamp call)).take n =
          (z.rangeByScore 0 (timestamp last)).take n := by
        rw [← hrest, List.take_append_of_le_length hmore]
      have hnodup : (z.rangeByScore 0 (timestamp last)).Nodup :=
        z.members_nodup.sublist (z.rangeByScore_sublist 0 _)
      have h := hmoves.trans h'
      rwa [hmoves.source, hz, rangeByScore_zremAll, htake, filter_notMem_take hnodup,
        List.take_append_drop] at h
    · refine ⟨s₁, call, by rw [if_neg (by simp [hmore])], le_rfl, ?_⟩
      rwa [List.take_of_length_le (by omega)] at hmoves

/-! ### Obliterating -/

/-- The containers that `obliterate` removes jobs from. -/
def obliterable : List Container :=
  [.inl .active, .inr .delayed, .inr .completed, .inl .wait, .inl .paused, .inr .prioritized,
    .inr .failed]

/-- The entries that the budget of an obliterate is spent on. -/
def entriesLeft (p : String) (s : Store) : ℕ :=
  (obliterable.map fun c => (entriesOf s p c).length).sum + (s .repeatSet p).members.length

theorem entriesOf_congr {c : Container} (h : s' c.kind = s c.kind) :
    entriesOf s' p c = entriesOf s p c := by
  cases c with
  | inl l => exact congrFun h p
  | inr z => exact congrArg SortedSet.members (congrFun h p)

/-- Changing one summand. -/
theorem sum_map_add {α : Type} [DecidableEq α] {l : List α} (hl : l.Nodup) {a : α} (ha : a ∈ l)
    {f g : α → ℕ} (h : ∀ b ∈ l, b ≠ a → g b = f b) :
    (l.map g).sum + f a = (l.map f).sum + g a := by
  have herase : (l.erase a).map g = (l.erase a).map f := List.map_congr_left fun b hb =>
    h b (List.mem_of_mem_erase hb) fun heq => hl.not_mem_erase (heq ▸ hb)
  rw [← List.sum_map_erase f ha, ← List.sum_map_erase g ha, herase]
  omega

/-- So many entries are removed, those of jobs with their hashes. -/
structure RemovesEntries (p : String) (n : ℤ) (s s' : Store) : Prop where
  gone : ∀ c ∈ obliterable, ∀ j ∈ entriesOf s p c, j ∈ entriesOf s' p c ∨ s' .hash (p ++ j) = none
  hashless : ∀ k, s .hash k = none → s' .hash k = none
  empty : ∀ c ∈ obliterable, entriesOf s p c = [] → entriesOf s' p c = []
  spent : (entriesLeft p s' : ℤ) + n = entriesLeft p s
  paused : s' .metaPaused = s .metaPaused

namespace RemovesEntries

theorem of_frame {W : List Kind}
    (hW : ∀ κ ∈ [Kind.hash, .list .active, .list .wait, .list .paused, .zset .delayed,
      .zset .completed, .zset .prioritized, .zset .failed, .repeatSet, .metaPaused], κ ∉ W)
    (hs : ∀ {κ}, κ ∉ W → s' κ = s κ) : RemovesEntries p 0 s s' := by
  have hentries : ∀ c ∈ obliterable, entriesOf s' p c = entriesOf s p c := by
    intro c hc
    have hkind : c.kind ∉ W := hW _ (by revert c; decide)
    exact entriesOf_congr (hs hkind)
  have hhash : s' .hash = s .hash := hs (hW _ (by decide))
  refine ⟨fun c hc j hj => .inl (by rwa [hentries c hc]), fun k hk => by rwa [hhash],
    fun c hc h => by rwa [hentries c hc], ?_, hs (hW _ (by decide))⟩
  have hmap : (obliterable.map fun c => (entriesOf s' p c).length) =
      obliterable.map fun c => (entriesOf s p c).length :=
    List.map_congr_left fun c hc => by rw [hentries c hc]
  rw [entriesLeft, entriesLeft, hmap, hs (hW .repeatSet (by decide)), add_zero]

theorem trans {n n' : ℤ} (h : RemovesEntries p n s s') (h' : RemovesEntries p n' s' s'') :
    RemovesEntries p (n + n') s s'' where
  gone c hc j hj := (h.gone c hc j hj).elim (h'.gone c hc j) fun hnone => .inr (h'.hashless _ hnone)
  hashless k hk := h'.hashless k (h.hashless k hk)
  empty c hc hnil := h'.empty c hc (h.empty c hc hnil)
  spent := by
    have := h.spent
    have := h'.spent
    omega
  paused := h'.paused.trans h.paused

end RemovesEntries

theorem removeJobs_sheds (p : String) (jobs : List String) (s : Store) :
    Sheds p jobs s (removeJobs p jobs s) := by
  unfold removeJobs
  induction jobs generalizing s with
  | nil => exact .refl p s
  | cons j jobs ih => exact (removeJobHard_sheds p j s).trans (ih _)

/-- Removing jobs leaves all other containers of the queue as they are. -/
theorem entriesOf_removeJobs {c : Container} (hc : c ∈ obliterable) (jobs : List String)
    (s : Store) :
    entriesOf (removeJobs p jobs s) p c = entriesOf s p c := by
  cases c with
  | inl l => exact removeJobs_list p jobs l s
  | inr z =>
    have hz : Kind.zset z ∉ hardWrites := by
      cases z <;> first | decide | exact absurd hc (by simp [obliterable])
    rw [entriesOf, removeJobs_frame _ _ _ hz, entriesOf]

/-- The first jobs of a container are removed, and their entries with them. -/
theorem removes_front {c : Container} (hc : c ∈ obliterable) {jobs : List String} {k : ℕ}
    (hjobs : jobs = (entriesOf s p c).take k)
    (hs : ∀ {κ}, κ ≠ c.kind → s' κ = removeJobs p jobs s κ)
    (hentries : entriesOf s' p c = (entriesOf s p c).drop jobs.length) :
    RemovesEntries p jobs.length s s' := by
  have hsheds := removeJobs_sheds p jobs s
  have hhash : s' .hash = removeJobs p jobs s .hash := hs (by cases c <;> simp [Container.kind])
  have hother : ∀ c' ∈ obliterable, c' ≠ c → entriesOf s' p c' = entriesOf s p c' := by
    intro c' hc' hne
    have hkind : c'.kind ≠ c.kind := by simpa using kind_ne_of_ne hne
    rw [← entriesOf_removeJobs hc' jobs s]
    exact entriesOf_congr (hs hkind)
  have hsplit : entriesOf s p c = jobs ++ (entriesOf s p c).drop jobs.length := by
    rw [hjobs, drop_length_take, List.take_append_drop]
  refine ⟨fun c' hc' j hj => ?_, fun k hk => ?_, fun c' hc' hnil => ?_, ?_, ?_⟩
  · by_cases heq : c' = c
    · subst heq
      rw [hsplit, List.mem_append] at hj
      refine hj.elim (fun hj => .inr ?_) fun hj => .inl (by rwa [hentries])
      rw [hhash, hsheds.gone j hj]
    · exact .inl (by rwa [hother c' hc' heq])
  · rw [hhash, hsheds.hash_eq_none hk]
  · by_cases heq : c' = c
    · subst heq
      rw [hentries, hnil, List.drop_nil]
    · rw [hother c' hc' heq, hnil]
  · -- The other containers keep their lengths, and this one loses exactly the jobs removed.
    have hsum := sum_map_add (by decide) hc (f := fun c => (entriesOf s p c).length)
      (g := fun c => (entriesOf s' p c).length) fun c' hc' hne => by rw [hother c' hc' hne]
    have hlen : (entriesOf s p c).length = jobs.length + (entriesOf s' p c).length := by
      rw [hentries, ← List.length_append, ← hsplit]
    have hrepeat : s' .repeatSet = s .repeatSet := by
      rw [hs (by cases c <;> simp [Container.kind]), hsheds.repeatSet]
    rw [entriesLeft, entriesLeft, hrepeat]
    omega
  · rw [hs (by cases c <;> simp [Container.kind]), removeJobs_frame _ _ _ (by decide)]

theorem firstItems_take (m : ℤ) (items : List String) : ∃ k, firstItems m items = items.take k :=
  ⟨_, rfl⟩

theorem removeListJobs_removes {l : ListKey} (hl : Sum.inl l ∈ obliterable) (m : ℤ) (s : Store) :
    RemovesEntries p (m - (removeListJobs p l m [] s).1) s (removeListJobs p l m [] s).2 := by
  obtain ⟨k, hk⟩ := firstItems_take m (s (.list l) p)
  have hjobs : (firstItems m (s (.list l) p)).filter (· ∉ []) = (s (.list l) p).take k := by
    simp [hk]
  simp only [removeListJobs, hjobs, sub_sub_cancel]
  refine removes_front (c := .inl l) hl rfl (fun {κ} hκ => Keyspace.modify_of_ne _ hκ ..) ?_
  rw [entriesOf, Keyspace.modify_self, Function.update_self, removeJobs_list, entriesOf]

theorem removeZSetJobs_removes {z : ZSetKey} (hz : Sum.inr z ∈ obliterable) (m : ℤ) (s : Store) :
    RemovesEntries p (m - (removeZSetJobs p z m [] s).1) s (removeZSetJobs p z m [] s).2 := by
  obtain ⟨k, hk⟩ := firstItems_take m (s (.zset z) p).members
  have hjobs : (firstItems m (s (.zset z) p).members).filter (· ∉ []) =
      (s (.zset z) p).members.take k := by
    simp [hk]
  simp only [removeZSetJobs, hjobs, sub_sub_cancel, foldl_batches_eq]
  refine removes_front (c := .inr z) hz rfl (fun {κ} hκ => Keyspace.modify_of_ne _ hκ ..) ?_
  have hentries := entriesOf_removeJobs (p := p) hz ((s (.zset z) p).members.take k) s
  rw [entriesOf, entriesOf] at hentries
  rw [entriesOf, Keyspace.modify_self, Function.update_self, SortedSet.members_zremAll, hentries,
    filter_notMem_take (s (.zset z) p).members_nodup, entriesOf, drop_length_take]

/-- The schedulers that a stage looks at are taken off their set. -/
theorem removeSchedulers_repeatSet (m : ℤ) (s : Store) :
    (Script.removeSchedulers p m s).2 .repeatSet p =
      (s .repeatSet p).zremAll (firstItems m (s .repeatSet p).members) := by
  have hbatches : ∀ (ls : List (List String)) (s : Store),
      ls.foldl (fun s l => s.modify .repeatSet p (·.zremAll l)) s .repeatSet p =
        (s .repeatSet p).zremAll ls.flatten := by
    intro ls
    induction ls with
    | nil => exact fun s => (SortedSet.zremAll_nil _).symm
    | cons l ls ih =>
      intro s
      rw [List.foldl_cons, ih, Keyspace.modify_self, Function.update_self, zremAll_zremAll,
        List.flatten_cons]
  have hhashes : ∀ (ids : List String) (s : Store),
      ids.foldl (fun s id => s.set .scheduler (p ++ "repeat:" ++ id) none) s .repeatSet =
        s .repeatSet := by
    intro ids
    induction ids with
    | nil => exact fun s => rfl
    | cons id ids ih => exact fun s => (ih _).trans (Keyspace.set_of_ne _ (by decide) ..)
  simp only [Script.removeSchedulers]
  generalize firstItems m (s .repeatSet p).members = ids
  have h := hbatches ((batches ids.length 7000).map (unpack ids))
    (ids.foldl (fun s id => s.set .scheduler (p ++ "repeat:" ++ id) none) s)
  rwa [List.foldl_map, ← List.flatMap_def, flatMap_batches _ (by decide), hhashes] at h

theorem removeSchedulers_removes (m : ℤ) (s : Store) :
    RemovesEntries p (m - (Script.removeSchedulers p m s).1) s
    (Script.removeSchedulers p m s).2 := by
  have hframe : ∀ {κ}, κ ∉ [Kind.repeatSet, .scheduler] →
      (Script.removeSchedulers p m s).2 κ = s κ := fun hκ => Script.removeSchedulers_frame p m s hκ
  have hentries : ∀ c ∈ obliterable, entriesOf (Script.removeSchedulers p m s).2 p c =
      entriesOf s p c := fun c hc => entriesOf_congr (hframe (by revert c; decide))
  refine ⟨fun c hc j hj => .inl (by rwa [hentries c hc]),
    fun k hk => by rwa [hframe (by decide)], fun c hc h => by rwa [hentries c hc], ?_,
    hframe (by decide)⟩
  obtain ⟨k, hk⟩ := firstItems_take m (s .repeatSet p).members
  have hlen : (Script.removeSchedulers p m s).1 = m - ((s .repeatSet p).members.take k).length := by
    rw [← hk]
    rfl
  have hmap : (obliterable.map fun c => (entriesOf (Script.removeSchedulers p m s).2 p c).length) =
      obliterable.map fun c => (entriesOf s p c).length :=
    List.map_congr_left fun c hc => by rw [hentries c hc]
  rw [entriesLeft, entriesLeft, hmap, removeSchedulers_repeatSet, hk, hlen,
    SortedSet.members_zremAll, filter_notMem_take (s .repeatSet p).members_nodup,
    List.length_drop, List.length_take]
  omega

theorem runStages_removes {stages : List (ℤ → Store → ℤ × Store)}
    (hstages : ∀ stage ∈ stages, ∀ m s,
    RemovesEntries p (m - (stage m s).1) s (stage m s).2) (m : ℤ)
    (s : Store) :
    RemovesEntries p (m - (Script.runStages stages m s).1) s (Script.runStages stages m s).2 := by
  induction stages generalizing m s with
  | nil => simpa [Script.runStages] using RemovesEntries.of_frame (W := []) (by simp) fun _ => rfl
  | cons stage stages ih =>
    unfold Script.runStages
    split
    · simpa using RemovesEntries.of_frame (W := []) (by simp) fun _ => rfl
    · have h := (hstages stage (by simp) m s).trans
        (ih (fun stage' h => hstages stage' (by simp [h])) (stage m s).1 (stage m s).2)
      rwa [sub_add_sub_cancel] at h

theorem obliterateStages_remove : ∀ stage ∈ Script.obliterateStages p, ∀ m s,
    RemovesEntries p (m - (stage m s).1) s (stage m s).2 := by
  intro stage h
  simp only [Script.obliterateStages, List.mem_cons, List.not_mem_nil, or_false] at h
  rcases h with rfl | rfl | rfl | rfl | rfl | rfl | rfl
  · exact removeZSetJobs_removes (by simp [obliterable])
  · exact removeSchedulers_removes
  · exact removeZSetJobs_removes (by simp [obliterable])
  · exact removeListJobs_removes (by simp [obliterable])
  · exact removeListJobs_removes (by simp [obliterable])
  · exact removeZSetJobs_removes (by simp [obliterable])
  · exact removeZSetJobs_removes (by simp [obliterable])

/-- All that an obliterate is to remove is gone. -/
structure Obliterated (p : String) (s s' : Store) : Prop where
  empty : ∀ c ∈ obliterable, entriesOf s' p c = []
  gone : ∀ c ∈ obliterable, ∀ j ∈ entriesOf s p c, s' .hash (p ++ j) = none

theorem RemovesEntries.obliterated {n : ℤ} (h : RemovesEntries p n s s') (h' : Obliterated p s' s'')
    (hhash : ∀ k, s' .hash k = none → s'' .hash k = none) : Obliterated p s s'' where
  empty := h'.empty
  gone c hc j hj := (h.gone c hc j hj).elim (h'.gone c hc j) (hhash _)

/-- A call on a paused queue uses up its budget, or removes all that is left. -/
theorem obliterate_call {n : ℕ} (hn : 0 < n) {force : Bool} (hpaused : s .metaPaused p = true)
    (hforce : force = true ∨ s (.list .active) p = []) :
    (∃ s' m, Script.obliterate p n force s = (.code 1, s') ∧ 0 < m ∧ RemovesEntries p m s s') ∨
      ∃ s', Script.obliterate p n force s = (.code 0, s') ∧ Obliterated p s s' ∧
        ∀ k, s .hash k = none → s' .hash k = none := by
  have hactive : ¬ (firstItems n (s (.list .active) p) ≠ [] ∧ ¬ force) := by
    rintro ⟨hne, hno⟩
    rcases hforce with rfl | hnil
    · exact hno rfl
    · exact hne (by rw [hnil]; exact List.take_nil)
  obtain ⟨k, hk⟩ := firstItems_take n (s (.list .active) p)
  -- the active jobs go first
  set s₁ : Store := (firstItems n (s (.list .active) p)).foldl
    (fun s jobId => s.set .lock (p ++ jobId) none) s with hs₁
  have hframe : ∀ {κ}, κ ∉ [Kind.lock] → s₁ κ = s κ := fun hκ =>
    Script.foldl_unlock_frame p _ s (by simpa using hκ)
  set s₂ : Store := (removeJobs p (firstItems n (s (.list .active) p)) s₁).modify (.list .active) p
    (·.drop (firstItems n (s (.list .active) p)).length) with hs₂
  have hlocks : RemovesEntries p 0 s s₁ := .of_frame (by decide) hframe
  have hentries : entriesOf s₁ p (.inl .active) = s (.list .active) p := by
    rw [entriesOf, hframe (by decide)]
  have hfirst : RemovesEntries p (firstItems n (s (.list .active) p)).length s₁ s₂ :=
    removes_front (c := .inl .active) (by simp [obliterable]) (by rw [hentries, hk])
      (fun {κ} hκ => Keyspace.modify_of_ne _ hκ ..)
      (by rw [hs₂, entriesOf, Keyspace.modify_self, Function.update_self, removeJobs_list,
        entriesOf])
  have hstages : RemovesEntries p _ s₂ (Script.runStages (Script.obliterateStages p)
      (n - (firstItems n (s (.list .active) p)).length) s₂).2 :=
    runStages_removes obliterateStages_remove _ s₂
  have hall := (hlocks.trans hfirst).trans hstages
  generalize hrun : Script.runStages (Script.obliterateStages p)
    (n - (firstItems n (s (.list .active) p)).length) s₂ = r at hall
  obtain ⟨left, s₃⟩ := r
  have hcall : Script.obliterate p n force s =
      if left ≤ 0 then (.code 1, s₃) else (.code 0, Script.deleteQueueKeys p s₃) := by
    simp only [Script.obliterate]
    rw [if_neg (by simp [hpaused]), if_neg hactive, ← hs₁, ← hs₂, hrun]
  by_cases hleft : left ≤ 0
  · exact .inl ⟨s₃, _, by rw [hcall, if_pos hleft], by omega, hall⟩
  · rw [if_neg hleft] at hcall
    have hcode : (Script.obliterate p n force s).1 = .code 0 := by rw [hcall]
    obtain ⟨s₄, C, heq, hC, hdone⟩ := Obliterating.of_code_zero hcode
    have hkeys : ∀ (t : Store) {κ}, κ ∉ Script.queueKeyWrites →
        Script.deleteQueueKeys p t κ = t κ :=
      fun t => Script.deleteQueueKeys_frame p t
    have hlast : Script.deleteQueueKeys p s₃ = Script.deleteQueueKeys p s₄ := by rw [← heq, hcall]
    have hempty₃ : ∀ c ∈ obliterable, entriesOf s₃ p c = [] := by
      intro c hc
      have hkind : c.kind ∉ Script.queueKeyWrites := by revert c; decide
      have hwait : c ≠ .inr .waitingChildren := by
        rintro rfl
        simp [obliterable] at hc
      rw [← entriesOf_congr (hkeys s₃ hkind), hlast, entriesOf_congr (hkeys s₄ hkind)]
      exact hdone.emptied c (hC c hwait) hwait
    refine .inr ⟨_, hcall, ⟨fun c hc => ?_, fun c hc j hj => ?_⟩, fun k hk => ?_⟩
    · rw [entriesOf_congr (hkeys s₃ (by revert c; decide)), hempty₃ c hc]
    · rw [hkeys s₃ (by decide)]
      refine (hall.gone c hc j hj).resolve_left fun hmem => ?_
      rw [hempty₃ c hc] at hmem
      cases hmem
    · rw [hkeys s₃ (by decide), hall.hashless k hk]

/-- The loop ends after a call that removes what is left. -/
theorem obliterateLoop_obliterates {n : ℕ} (hn : 0 < n) {force : Bool} (calls : ℕ) {s : Store}
    (hpaused : s .metaPaused p = true) (hforce : force = true ∨ s (.list .active) p = [])
    (hcalls : entriesLeft p s < calls) :
    ∃ s', obliterateLoop p n force calls s = some (.ok (), s') ∧ Obliterated p s s' ∧
      ∀ k, s .hash k = none → s' .hash k = none := by
  induction calls generalizing s with
  | zero => omega
  | succ calls ih =>
    rw [obliterateLoop]
    obtain ⟨s₁, m, hcall, hm, hremoves⟩ | ⟨s', hcall, hdone, hhash⟩ :=
      obliterate_call hn hpaused hforce
    · have hactive : force = true ∨ s₁ (.list .active) p = [] := hforce.imp_right fun h =>
        hremoves.empty (.inl .active) (by simp [obliterable]) h
      have hfewer : entriesLeft p s₁ < calls := by
        have := hremoves.spent
        omega
      obtain ⟨s', hloop, hdone, hhash⟩ := ih (by rw [hremoves.paused, hpaused]) hactive hfewer
      refine ⟨s', ?_, hremoves.obliterated hdone hhash,
        fun k hk => hhash k (hremoves.hashless k hk)⟩
      rw [hcall]
      exact hloop
    · refine ⟨s', ?_, hdone, hhash⟩
      rw [hcall]
      rfl

/-! ### The calls of a queue object -/

/-- The jobs of a set with scores from zero to `T` are moved to the wait list, each once, and leave
it in the order of the set. -/
structure MovesDue (p : String) (z : ZSetKey) (T : ℤ) (s s' : Store) : Prop where
  source : s' (.zset z) p = (s (.zset z) p).zremAll ((s (.zset z) p).rangeByScore 0 T)
  wait : s' (.list .wait) p = ((s (.zset z) p).rangeByScore 0 T).reverse ++ s (.list .wait) p
  once : ((s (.zset z) p).rangeByScore 0 T).Nodup

theorem MovesToWait.due {z : ZSetKey} {T : ℤ}
    (h : MovesToWait p z ((s (.zset z) p).rangeByScore 0 T) s s') : MovesDue p z T s s' :=
  ⟨h.source, h.wait,
    (s (.zset z) p).members_nodup.sublist ((s (.zset z) p).rangeByScore_sublist 0 T)⟩

theorem retryJobs_moves {n : ℕ} (hn : 0 < n) {status : FinishedStatus} {timestamp : Option ℤ}
    {now : ℕ → ℤ} (hnow : timestamp = none → Monotone now) {calls : ℕ}
    (hcalls : (s (.zset status.zset) p).members.length < calls) :
    ∃ s' T, Queue.retryJobs calls p n status timestamp now s = some s' ∧
      (timestamp = some T ∨ timestamp = none ∧ ∃ call, T = now call) ∧
      MovesDue p status.zset T s s' := by
  have hmono : Monotone fun call => timestamp.getD (now call) := by
    cases timestamp with
    | none => exact hnow rfl
    | some t => exact monotone_const
  obtain ⟨s', last, hloop, -, h⟩ :=
    moveJobsLoop_moves (.finished status) hn hmono calls 0 hcalls
  refine ⟨s', _, hloop, ?_, h.due⟩
  cases timestamp with
  | none => exact .inr ⟨rfl, last, rfl⟩
  | some t => exact .inl rfl

theorem promoteJobs_moves {n : ℕ} (hn : 0 < n) {calls : ℕ}
    (hcalls : (s (.zset .delayed) p).members.length < calls) :
    ∃ s', Queue.promoteJobs calls p n s = some s' ∧ MovesDue p .delayed numberMaxValue s s' := by
  obtain ⟨s', last, hloop, -, h⟩ :=
    moveJobsLoop_moves .delayed hn (monotone_const (c := numberMaxValue)) calls 0 hcalls
  exact ⟨s', hloop, h.due⟩

/-- The queue is paused first, which leaves its jobs where they are. -/
theorem obliterate_obliterates {n : ℕ} (hn : 0 < n) {force : Bool} {calls : ℕ}
    (hcalls : entriesLeft p s < calls) :
    ∃ outcome s', Queue.obliterate calls p n force s = some (outcome, s') ∧
      (force = true ∨ s (.list .active) p = [] → outcome = .ok () ∧ Obliterated p s s') ∧
      (force = false ∧ s (.list .active) p ≠ [] →
        outcome = .error "Cannot obliterate queue with active jobs") := by
  have hframe : ∀ {κ}, κ ∉ [Kind.metaPaused, .marker, .list .wait, .list .paused, .events] →
      (Script.pause p true true s).2 κ = s κ := fun hκ => Script.pause_frame p true true s hκ
  have hlists : ∀ l, (Script.pause p true true s).2 (.list l) p = s (.list l) p := by
    intro l
    simp only [Script.pause, pauseQueue, if_true]
    rw [Store.xadd_of_ne _ _ _ (by simp), Keyspace.set_of_ne _ (by simp),
      Keyspace.set_of_ne _ (by simp)]
  have hpaused : (Script.pause p true true s).2 .metaPaused p = true := by
    simp only [Script.pause, pauseQueue, if_true]
    rw [Store.xadd_of_ne _ _ _ (by simp), Keyspace.set_of_ne _ (by simp), Keyspace.set_self,
      Function.update_self]
  have hentries : ∀ c ∈ obliterable,
      entriesOf (Script.pause p true true s).2 p c = entriesOf s p c := by
    intro c hc
    cases c with
    | inl l => exact hlists l
    | inr z => rw [entriesOf, hframe (by simp), entriesOf]
  have hleft : entriesLeft p (Script.pause p true true s).2 = entriesLeft p s := by
    have hmap : (obliterable.map fun c => (entriesOf (Script.pause p true true s).2 p c).length) =
        obliterable.map fun c => (entriesOf s p c).length :=
      List.map_congr_left fun c hc => by rw [hentries c hc]
    rw [entriesLeft, entriesLeft, hmap, hframe (by simp)]
  -- The first call refuses if it finds an active job and is not forced; otherwise none of the calls
  -- does.
  by_cases hforce : force = true ∨ s (.list .active) p = []
  · obtain ⟨s', hloop, hdone, -⟩ := obliterateLoop_obliterates hn calls hpaused
      (hforce.imp_right fun h => by rw [hlists, h]) (by rwa [hleft])
    have hdone' : Obliterated p s s' :=
      ⟨hdone.empty, fun c hc j hj => hdone.gone c hc j (by rwa [hentries c hc])⟩
    refine ⟨_, s', hloop, fun _ => ⟨rfl, hdone'⟩, ?_⟩
    rintro ⟨rfl, hne⟩
    exact (hforce.resolve_left Bool.false_ne_true |> hne).elim
  · obtain ⟨hno, hne⟩ := not_or.mp hforce
    obtain rfl : force = false := by simpa using hno
    obtain ⟨calls, rfl⟩ : ∃ k, calls = k + 1 := ⟨calls - 1, by omega⟩
    have hfirst : firstItems n (s (.list .active) p) ≠ [] := by
      rw [firstItems, if_pos (by omega), Int.toNat_natCast, ne_eq, List.take_eq_nil_iff]
      exact fun h => h.elim (by omega) hne
    have hcall : (Script.obliterate p n false (Script.pause p true true s).2) =
        (.code (-2), (Script.pause p true true s).2) := by
      simp only [Script.obliterate]
      rw [if_neg (by simp [hpaused]), if_pos ⟨by rwa [hlists], Bool.false_ne_true⟩]
    refine ⟨_, _, by rw [Queue.obliterate, obliterateLoop, hcall]; rfl,
      fun h => absurd h hforce, ?_⟩
    exact fun _ => rfl

/-- **The bulk loops end**, whatever the budget of a call. `retryJobs` and `promoteJobs` then have
moved the jobs with scores from zero to the timestamp, and a forced `obliterate` has removed all
jobs but those that wait for children. -/
theorem bulkLoops_end {p : String} {s : Store} {count : ℤ} (hcount : 1 ≤ count) :
    (∀ (status : FinishedStatus) (timestamp : Option ℤ) (now : ℕ → ℤ) (calls : ℕ),
      (timestamp = none → Monotone now) → (s (.zset status.zset) p).members.length < calls →
        ∃ s' T, Queue.retryJobs calls p count status timestamp now s = some s' ∧
          (timestamp = some T ∨ timestamp = none ∧ ∃ call, T = now call) ∧
          MovesDue p status.zset T s s') ∧
    (∀ calls : ℕ, (s (.zset .delayed) p).members.length < calls →
      ∃ s', Queue.promoteJobs calls p count s = some s' ∧ MovesDue p .delayed numberMaxValue s s') ∧
    ∀ (force : Bool) (calls : ℕ), entriesLeft p s < calls →
      ∃ outcome s', Queue.obliterate calls p count force s = some (outcome, s') ∧
        (force = true ∨ s (.list .active) p = [] → outcome = .ok () ∧ Obliterated p s s') ∧
        (force = false ∧ s (.list .active) p ≠ [] →
          outcome = .error "Cannot obliterate queue with active jobs") := by
  obtain ⟨n, rfl⟩ := Int.eq_ofNat_of_zero_le (show 0 ≤ count by omega)
  have hn : 0 < n := by omega
  exact ⟨fun _ _ _ _ hnow hcalls => retryJobs_moves hn hnow hcalls,
    fun _ hcalls => promoteJobs_moves hn hcalls, fun _ _ hcalls => obliterate_obliterates hn hcalls⟩

/-- A job that is added with a delay of a second. -/
def delayedFrom (timestamp : ℤ) : List Command :=
  [.addDelayedJob "bull:q:" { name := "a", data := "", timestamp, opts := { delay := 1000 } }]

/-- The store this leads to. -/
def delayedFromStore (timestamp : ℤ) : Store :=
  (runCommands (delayedFrom timestamp) .empty).getD .empty

theorem bulkLoops_end_one :
    ∃ s', Queue.promoteJobs 2 "bull:q:" 1 (delayedFromStore 5000) = some s' ∧
      MovesDue "bull:q:" .delayed numberMaxValue (delayedFromStore 5000) s' :=
  (bulkLoops_end (by decide)).2.1 2 (by decide)

/-- A job whose time is before 1970 has a negative score, and is not promoted. -/
theorem promoteJobs_negative_score :
    (delayedFromStore (-5000) (.zset .delayed) "bull:q:").zscore "1" = some (-16384000) ∧
      (-16384000 : ℤ) ≤ numberMaxValue ∧
      (Queue.promoteJobs 1 "bull:q:" 1000 (delayedFromStore (-5000))).map
        (fun s' => (s' (.list .wait) "bull:q:", (s' (.zset .delayed) "bull:q:").members)) =
          some ([], ["1"]) := by
  have hmax : 0 ≤ numberMaxValue :=
    sub_nonneg.mpr (pow_le_pow_right₀ (by decide) (by decide))
  exact ⟨by decide, le_trans (by decide) hmax, by decide +kernel⟩

end BullMQ
