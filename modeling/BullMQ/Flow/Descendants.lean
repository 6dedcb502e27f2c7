import BullMQ.Model.Remove
import BullMQ.Transition.Edges

/-!
# Removing a job with its descendants

The recursions of `removeJob` follow the keys in the accounts of children. `isLocked` walks the
pending ones only (`PendingDescendant`), the removal all four accounts (`Descendant`). Whenever the
removal returns, it has deleted the job and all its descendants and nothing else
(`removeJobWithChildren_removed`); both return with enough fuel if no descent through the accounts
goes on for ever (`isLocked_terminates`, `removeJobWithChildren_terminates`).
-/

namespace BullMQ

open Redis Relation Transition

variable {s s' s'' : Store} {p j : String}

/-- A job that can be reached through the accounts of children. -/
def Descendant (s : Store) : String → String → Prop := ReflTransGen (IsChildOf s)

/-- A job that is a pending dependency. -/
def IsPendingChildOf (s : Store) (jobKey childKey : String) : Prop :=
  childKey ∈ childrenIn s .dependencies jobKey

/-- A job that can be reached through pending dependencies. -/
def PendingDescendant (s : Store) : String → String → Prop := ReflTransGen (IsPendingChildOf s)

/-! ### The check for locks -/

/-- A fold that stops at the first hit. -/
theorem foldlM_found {α : Type} {f : α → Option Bool} {l : List α} {found r : Bool}
    (h : l.foldlM (fun found a => if found then some true else f a) found = some r) :
    (r = true → found = true ∨ ∃ a ∈ l, f a = some true) ∧
      (r = false → found = false ∧ ∀ a ∈ l, f a = some false) := by
  induction l generalizing found with
  | nil =>
    obtain rfl : found = r := by simpa using h
    exact ⟨.inl, fun hr => ⟨hr, fun _ ha => (by cases ha)⟩⟩
  | cons a l ih =>
    obtain ⟨found', h₁, h₂⟩ := Option.bind_eq_some_iff.mp h
    obtain ⟨htrue, hfalse⟩ := ih h₂
    cases found with
    | true =>
      obtain rfl : true = found' := by simpa using h₁
      exact ⟨fun _ => .inl rfl, fun hr => absurd (hfalse hr).1 (by decide)⟩
    | false =>
      have h₁ : f a = some found' := by simpa using h₁
      refine ⟨fun hr => .inr ?_, fun hr => ⟨rfl, ?_⟩⟩
      · rcases htrue hr with rfl | ⟨b, hb, hfb⟩
        · exact ⟨a, by simp, h₁⟩
        · exact ⟨b, by simp [hb], hfb⟩
      · obtain ⟨rfl, hl⟩ := hfalse hr
        intro b hb
        rcases List.mem_cons.mp hb with rfl | hb
        · exact h₁
        · exact hl b hb

/-- The jobs `isLocked` looks at. -/
def LockChecked (s : Store) (removeChildren : Bool) (jobKey k : String) : Prop :=
  k = jobKey ∨ removeChildren = true ∧ PendingDescendant s jobKey k

/-- `isLocked` finds a lock exactly if one of the jobs it looks at is locked. -/
theorem isLocked_iff {fuel : ℕ} {b locked : Bool} (h : isLocked fuel b p j s = some locked) :
    locked = true ↔ ∃ k, LockChecked s b (p ++ j) k ∧ (s .lock k).isSome = true := by
  -- By induction on the fuel; the loop over the children stops at the first lock it finds.
  induction fuel generalizing p j locked with
  | zero => cases h
  | succ fuel ih =>
    simp only [isLocked] at h
    split at h
    · next hlock =>
      obtain rfl : true = locked := by simpa using h
      exact iff_of_true rfl ⟨p ++ j, .inl rfl, hlock⟩
    · next hlock =>
      split at h
      · next hb =>
        obtain ⟨htrue, hfalse⟩ := foldlM_found h
        have hchild : ∀ c r, isLocked fuel b (getJobKeyPrefix c (getJobIdFromKey c))
            (getJobIdFromKey c) s = some r →
            (r = true ↔ ∃ k, PendingDescendant s c k ∧ (s .lock k).isSome = true) := by
          intro c r hr
          rw [ih hr, getJobKeyPrefix_append_getJobIdFromKey]
          refine exists_congr fun k => and_congr_left fun _ => ?_
          constructor
          · rintro (rfl | ⟨-, hk⟩)
            · exact .refl
            · exact hk
          · exact fun hk => .inr ⟨hb, hk⟩
        cases locked with
        | true =>
          refine iff_of_true rfl ?_
          rcases htrue rfl with hno | ⟨c, hc, hfc⟩
          · cases hno
          · obtain ⟨k, hk, hlk⟩ := (hchild c true hfc).mp rfl
            exact ⟨k, .inr ⟨hb, .head hc hk⟩, hlk⟩
        | false =>
          refine iff_of_false (by decide) ?_
          obtain ⟨-, hall⟩ := hfalse rfl
          have hpath : ∀ k, PendingDescendant s (p ++ j) k → (s .lock k).isSome ≠ true := by
            intro k hk hlk
            rcases ReflTransGen.cases_head hk with rfl | ⟨c, hc, hck⟩
            · exact hlock hlk
            · have hyes := (hchild c false (hall c hc)).mpr ⟨k, hck, hlk⟩
              cases hyes
          rintro ⟨k, rfl | ⟨-, hk⟩, hlk⟩
          · exact hlock hlk
          · exact hpath k hk hlk
      · next hb =>
        obtain rfl : false = locked := by simpa using h
        refine iff_of_false (by decide) ?_
        rintro ⟨k, rfl | ⟨hb', -⟩, hlk⟩
        · exact hlock hlk
        · exact hb hb'

/-- Where nothing is locked, `isLocked` does not return for a job whose pending dependencies never
end. -/
theorem isLocked_eq_none {C : String → Prop} (hlock : ∀ k, s .lock k = none)
    (hC : ∀ k, C k → ∃ c, IsPendingChildOf s k c ∧ C c) (fuel : ℕ) (hj : C (p ++ j)) :
    isLocked fuel true p j s = none := by
  induction fuel generalizing p j with
  | zero => rfl
  | succ fuel ih =>
    rcases hres : isLocked (fuel + 1) true p j s with _ | locked
    · rfl
    · cases locked with
      | true =>
        obtain ⟨k, -, hk⟩ := (isLocked_iff hres).mp rfl
        simp [hlock] at hk
      | false =>
        simp only [isLocked, hlock, Option.isSome_none, Bool.false_eq_true, if_false,
          if_true] at hres
        obtain ⟨c, hc, hcC⟩ := hC _ hj
        have hchild := ((foldlM_found hres).2 rfl).2 c hc
        rw [ih (by rwa [getJobKeyPrefix_append_getJobIdFromKey])] at hchild
        cases hchild

/-! ### What a removal deletes -/

/-- A job and its descendants are gone. -/
def Gone (s s' : Store) (k : String) : Prop := ∀ d, Descendant s k d → s'.jobExists d = false

/-- Between two points of a removal: jobs and accounts only shrink, a child leaves an account only
when it is gone with its descendants, and only jobs of `D` are deleted. -/
structure Removed (D : String → Prop) (s s' : Store) : Prop where
  exist : ∀ k, s'.jobExists k = true → s.jobExists k = true
  shrink : ∀ a k c, c ∈ childrenIn s' a k → c ∈ childrenIn s a k
  child : ∀ a k c, c ∈ childrenIn s a k → c ∈ childrenIn s' a k ∨ Gone s s' c
  only : ∀ k, s.jobExists k = true → s'.jobExists k = false → D k

/-- A job that is gone stays so. -/
theorem not_exist_of_shrink (h : ∀ k, s'.jobExists k = true → s.jobExists k = true) {k : String}
    (hk : s.jobExists k = false) : s'.jobExists k = false := by
  cases hk' : s'.jobExists k with
  | false => rfl
  | true => exact absurd (h k hk') (by simp [hk])

theorem Descendant.of_shrink (h : ∀ a k c, c ∈ childrenIn s' a k → c ∈ childrenIn s a k)
    {k d : String} (hd : Descendant s' k d) : Descendant s k d :=
  ReflTransGen.mono (r := IsChildOf s') (fun _ _ ⟨a, hc⟩ => ⟨a, h a _ _ hc⟩) _ _ hd

namespace Removed

variable {D : String → Prop}

theorem refl (D : String → Prop) (s : Store) : Removed D s s :=
  ⟨fun _ => id, fun _ _ _ => id, fun _ _ _ => .inl, fun k hk hk' => by simp [hk] at hk'⟩

/-- A descendant is one still, or it is gone. -/
theorem descendant (h : Removed D s s') {k d : String} (hd : Descendant s k d) :
    Descendant s' k d ∨ s'.jobExists d = false := by
  have hlost : ∀ k c, IsChildOf s k c → IsChildOf s' k c ∨ Gone s s' c := by
    rintro k c ⟨a, hc⟩
    exact (h.child a k c hc).imp (fun hc' => ⟨a, hc'⟩) id
  rcases reflTransGen_or_of_lost hlost hd with hd' | ⟨b, hgone, hbd⟩
  · exact .inl hd'
  · exact .inr (hgone d (Descendant.of_shrink h.shrink hbd))

/-- What is gone later was gone with its earlier descendants. -/
theorem gone_left (h : Removed D s s') (hmono : ∀ k, s''.jobExists k = true → s'.jobExists k = true)
    {k : String} (hgone : Gone s' s'' k) : Gone s s'' k := by
  intro d hd
  rcases h.descendant hd with hd' | hno
  · exact hgone d hd'
  · exact not_exist_of_shrink hmono hno

theorem trans (h : Removed D s s') (h' : Removed D s' s'') : Removed D s s'' where
  exist k hk := h.exist k (h'.exist k hk)
  shrink a k c hc := h.shrink a k c (h'.shrink a k c hc)
  child a k c hc := by
    rcases h.child a k c hc with hc' | hgone
    · exact (h'.child a k c hc').imp id (h.gone_left h'.exist)
    · exact .inr fun d hd => not_exist_of_shrink h'.exist (hgone d hd)
  only k hk hk' := by
    cases hmid : s'.jobExists k with
    | false => exact h.only k hk hmid
    | true => exact h'.only k hmid hk'

theorem mono {D' : String → Prop} (h : Removed D s s') (hD : ∀ k, D k → D' k) :
    Removed D' s s' :=
  ⟨h.exist, h.shrink, h.child, fun k hk hk' => hD k (h.only k hk hk')⟩

end Removed

/-! ### The parts of a removal -/

theorem childrenIn_removeJobKeys (k : String) (s : Store) (a : Account) (k' : String) :
    childrenIn (removeJobKeys k s) a k' = if k' = k then [] else childrenIn s a k' := by
  have hset : ∀ {κ : Kind} (s' : Store) (v : Val κ), κ ≠ a.kind →
      childrenIn (s'.set κ k v) a k' = childrenIn s' a k' := fun s' v hκ =>
    childrenIn_congr (Keyspace.set_of_ne _ (Ne.symm hκ) ..) k'
  have hown : ∀ (s' : Store) (v : Val a.kind), a.keys v = [] →
      childrenIn (s'.set a.kind k v) a k' = if k' = k then [] else childrenIn s' a k' := by
    intro s' v hv
    rw [childrenIn, Keyspace.set_self, Function.update_apply]
    split
    · exact hv
    · rfl
  unfold removeJobKeys
  cases a <;> simp only
  · rw [hset _ _ (by decide), hset _ _ (by decide), hset _ _ (by decide),
      hown _ _ rfl, hset _ _ (by decide), hset _ _ (by decide)]
  · rw [hset _ _ (by decide), hset _ _ (by decide),
      hown _ _ rfl, hset _ _ (by decide), hset _ _ (by decide), hset _ _ (by decide)]
  · rw [hset _ _ (by decide),
      hown _ _ rfl, hset _ _ (by decide), hset _ _ (by decide), hset _ _ (by decide),
      hset _ _ (by decide)]
  · rw [hown _ _ rfl, hset _ _ (by decide), hset _ _ (by decide), hset _ _ (by decide),
      hset _ _ (by decide), hset _ _ (by decide)]

/-- The store in which `deleteJob` deletes the keys. -/
theorem deleteJob_of_ne (p j : String) (s : Store) {κ : Kind}
    (h : κ ∈ [Kind.hash, .dependencies, .processed, .failedChildren, .unsuccessful]) :
    ∃ s₁ : Store, s₁ κ = s κ ∧ deleteJob p j s κ = removeJobKeys (p ++ j) s₁ κ := by
  have hlist : ∀ l, κ ≠ .list l := by rintro l rfl; simp at h
  have hzset : ∀ z, κ ≠ .zset z := by rintro z rfl; simp at h
  have hde : κ ∉ [Kind.de, .dn] := by
    simp only [List.mem_cons, List.not_mem_nil, or_false] at h ⊢
    rcases h with rfl | rfl | rfl | rfl | rfl <;> decide
  refine ⟨removeDeduplicationKeyIfNeededOnRemoval p j
    ((removeJobFromAnyState p j s).2.deidOf (p ++ j)) (removeJobFromAnyState p j s).2, ?_, ?_⟩
  · rw [removeDeduplicationKeyIfNeededOnRemoval_frame _ _ _ _ hde,
      removeJobFromAnyState_frame p j s hlist hzset]
  · simp only [deleteJob]
    split
    · rw [Store.xadd_of_ne _ _ _ (by rintro rfl; simp at h),
        getOrSetMaxEvents_frame _ _ (by rw [List.mem_singleton]; rintro rfl; simp at h)]
    · rfl

/-- `deleteJob` deletes one job. -/
theorem deleteJob_jobExists (p j : String) (s : Store) (k : String) :
    (deleteJob p j s).jobExists k = (s.jobExists k && decide (k ≠ p ++ j)) := by
  obtain ⟨s₁, hs₁, hres⟩ := deleteJob_of_ne p j s (κ := .hash) (by decide)
  rw [Store.jobExists, hres, removeJobKeys_hash, hs₁, Function.update_apply, Store.jobExists]
  split
  · next hk => simp [hk]
  · next hk => simp [hk]

/-- `deleteJob` empties the accounts of that job. -/
theorem childrenIn_deleteJob (p j : String) (s : Store) (a : Account) (k : String) :
    childrenIn (deleteJob p j s) a k = if k = p ++ j then [] else childrenIn s a k := by
  obtain ⟨s₁, hs₁, hres⟩ := deleteJob_of_ne p j s (κ := a.kind) (by cases a <;> decide)
  rw [childrenIn_congr hres, childrenIn_removeJobKeys, childrenIn_congr hs₁]

/-- The removal of a link takes one child out of one account. -/
theorem unlinkChild_account (k k' : String) (s : Store) (a : Account) (x c : String) :
    (c ∈ childrenIn (unlinkChild k k' s).2 a x → c ∈ childrenIn s a x) ∧
      (c ∈ childrenIn s a x → c ∈ childrenIn (unlinkChild k k' s).2 a x ∨ c = k) := by
  have hsrem : ∀ s₁ : Store, s₁ a.kind = (s.modify .dependencies k' (·.srem k)) a.kind →
      (c ∈ childrenIn s₁ a x ↔ c ∈ childrenIn s a x ∧ ¬ (a = .dependencies ∧ x = k' ∧ c = k)) := by
    intro s₁ hs₁
    rw [childrenIn_congr hs₁]
    exact mem_childrenIn_srem
  have hmain : ∀ s₁ : Store, s₁ a.kind = (s.modify .dependencies k' (·.srem k)) a.kind →
      (c ∈ childrenIn s₁ a x → c ∈ childrenIn s a x) ∧
        (c ∈ childrenIn s a x → c ∈ childrenIn s₁ a x ∨ c = k) := by
    intro s₁ hs₁
    rw [hsrem s₁ hs₁]
    exact ⟨And.left, fun hc => by tauto⟩
  simp only [unlinkChild]
  split
  · split
    · split
      · refine hmain _ ?_
        rw [moveParentToWaitPlain_frame _ _ _ (by cases a <;> decide),
          Keyspace.modify_of_ne _ (by cases a <;> decide)]
      · exact hmain _ rfl
    · exact hmain _ rfl
  · exact ⟨id, .inl⟩

theorem removeParentDependencyKey_account (k : String) (o : Option String) (s : Store)
    (a : Account) (x c : String) :
    (c ∈ childrenIn (removeParentDependencyKey k o s).2 a x → c ∈ childrenIn s a x) ∧
      (c ∈ childrenIn s a x → c ∈ childrenIn (removeParentDependencyKey k o s).2 a x ∨ c = k) := by
  unfold removeParentDependencyKey
  split
  · exact unlinkChild_account ..
  · split
    · split
      · exact unlinkChild_account ..
      · exact ⟨id, .inl⟩
    · exact ⟨id, .inl⟩

theorem removeParentDependencyKey_jobExists (k : String) (o : Option String) (s : Store)
    (x : String) : (removeParentDependencyKey k o s).2.jobExists x = s.jobExists x := by
  rw [Store.jobExists, removeParentDependencyKey_frame _ _ _ (by decide), Store.jobExists]

/-! ### The recursion -/

section Recursion

variable {removeChild : String → String → Option String → Store → Option Store}
  (hrec : ∀ p j o s s', removeChild p j o s = some s' →
    Removed (Descendant s (p ++ j)) s s' ∧ Gone s s' (p ++ j))

include hrec in
/-- One of the loops over children. -/
theorem foldlM_removeChildKey {D : String → Prop} {x : String} {l : List String}
    (hD : ∀ c ∈ l, ∀ d, Descendant s c d → D d)
    (h : l.foldlM (removeChildKey removeChild x) s = some s') :
    Removed D s s' ∧ ∀ c ∈ l, Gone s s' c := by
  induction l generalizing s with
  | nil =>
    obtain rfl : s = s' := by simpa using h
    exact ⟨.refl D s, fun c hc => (by cases hc)⟩
  | cons c l ih =>
    obtain ⟨s₁, h₁, h₂⟩ := Option.bind_eq_some_iff.mp h
    obtain ⟨hrem, hgone⟩ := hrec _ _ _ _ _ h₁
    rw [getJobKeyPrefix_append_getJobIdFromKey] at hrem hgone
    have hrem : Removed D s s₁ := hrem.mono (hD c (by simp))
    obtain ⟨hrest, hall⟩ := ih
      (fun b hb d hd => hD b (by simp [hb]) d (.of_shrink hrem.shrink hd)) h₂
    refine ⟨hrem.trans hrest, fun b hb => ?_⟩
    rcases List.mem_cons.mp hb with rfl | hb
    · exact fun d hd => not_exist_of_shrink hrest.exist (hgone d hd)
    · exact hrem.gone_left hrest.exist (hall b hb)

include hrec in
/-- The loop over one account, at some point of the removal of a job where the children in `C` are
gone. -/
theorem foldlM_account {C D : String → Prop} {x : String} {s₀ : Store} (a : Account)
    (hD : ∀ c, IsChildOf s₀ x c → ∀ d, Descendant s₀ c d → D d)
    (h₀ : Removed D s₀ s ∧ ∀ c, C c → Gone s₀ s c)
    (h : (childrenIn s a x).foldlM (removeChildKey removeChild x) s = some s') :
    Removed D s₀ s' ∧ ∀ c, C c ∨ c ∈ childrenIn s₀ a x → Gone s₀ s' c := by
  obtain ⟨h₀, hC⟩ := h₀
  obtain ⟨hrem, hall⟩ := foldlM_removeChildKey hrec (D := D)
    (fun c hc d hd => hD c ⟨a, h₀.shrink a x c hc⟩ d (.of_shrink h₀.shrink hd)) h
  have hstill : ∀ c, Gone s₀ s c → Gone s₀ s' c := fun c hgone d hd =>
    not_exist_of_shrink hrem.exist (hgone d hd)
  refine ⟨h₀.trans hrem, ?_⟩
  rintro c (hc | hc)
  · exact hstill c (hC c hc)
  · rcases h₀.child a x c hc with hc' | hgone
    · exact h₀.gone_left hrem.exist (hall c hc')
    · exact hstill c hgone

include hrec in
/-- All the loops: every child is gone. -/
theorem removeJobChildren_removed {D : String → Prop} {x : String} {options : RemoveOptions}
    (hopt : options.ignoreProcessed = false)
    (hD : ∀ c, IsChildOf s x c → ∀ d, Descendant s c d → D d)
    (h : removeJobChildren removeChild options x s = some s') :
    Removed D s s' ∧ ∀ c, IsChildOf s x c → Gone s s' c := by
  obtain ⟨t₃, h₃, h₄⟩ := Option.bind_eq_some_iff.mp h
  rw [hopt, if_neg (by decide)] at h₃
  obtain ⟨t₁, h₁, h₂⟩ := Option.bind_eq_some_iff.mp h₃
  obtain ⟨t₂, h₂, h₃⟩ := Option.bind_eq_some_iff.mp h₂
  have hnone : Removed D s s ∧ ∀ c, False → Gone s s c := ⟨.refl D s, fun _ => False.elim⟩
  have hr₁ := foldlM_account hrec .processed hD hnone h₁
  have hr₂ := foldlM_account hrec .failedChildren hD hr₁ h₂
  have hr₃ := foldlM_account hrec .unsuccessful hD hr₂ h₃
  obtain ⟨hr, hall⟩ := foldlM_account hrec .dependencies hD hr₃ h₄
  refine ⟨hr, fun c hc => hall c ?_⟩
  obtain ⟨a, hc⟩ := hc
  cases a <;> simp [hc]

end Recursion

/-- Before it looks at children, a removal of `p ++ j` loses only links to that job. -/
theorem descendant_or_of_unlinked {o : Option String} {k d : String} (hd : Descendant s k d) :
    Descendant (removeParentDependencyKey (p ++ j) o s).2 k d ∨
      Descendant (removeParentDependencyKey (p ++ j) o s).2 (p ++ j) d := by
  have hlost : ∀ k c, IsChildOf s k c →
      IsChildOf (removeParentDependencyKey (p ++ j) o s).2 k c ∨ c = p ++ j := by
    rintro k c ⟨a, hc⟩
    exact ((removeParentDependencyKey_account (p ++ j) o s a k c).2 hc).imp (fun h => ⟨a, h⟩) id
  rcases reflTransGen_or_of_lost hlost hd with hd' | ⟨_, rfl, hd'⟩
  · exact .inl hd'
  · exact .inr hd'

/-- **A removal with children** that returns has deleted the job and its descendants, and nothing
else. By induction on the fuel: between the calls for two children the accounts have shrunk, but a
child only leaves them when it is gone. -/
theorem removeJobWithChildren_removed {fuel : ℕ} {options : RemoveOptions}
    (hchildren : options.removeChildren = true) (hprocessed : options.ignoreProcessed = false)
    (hlocked : options.ignoreLocked = false) {o : Option String}
    (h : removeJobWithChildren fuel options p j o s = some s') :
    Removed (Descendant s (p ++ j)) s s' ∧ Gone s s' (p ++ j) := by
  induction fuel generalizing p j o s s' with
  | zero => cases h
  | succ fuel ih =>
    simp only [removeJobWithChildren, hchildren, hprocessed, hlocked, Bool.false_eq_true,
      false_and, if_false, if_true] at h
    obtain ⟨s₁, h₁, rfl⟩ := Option.map_eq_some_iff.mp h
    set x := p ++ j
    set s₀ := (removeParentDependencyKey x o s).2 with hs₀
    have hex₀ : ∀ k, s₀.jobExists k = s.jobExists k := removeParentDependencyKey_jobExists x o s
    have hshrink₀ : ∀ a k c, c ∈ childrenIn s₀ a k → c ∈ childrenIn s a k := fun a k c =>
      (removeParentDependencyKey_account x o s a k c).1
    have hbelow : ∀ c, IsChildOf s₀ x c → ∀ d, Descendant s₀ c d → Descendant s x d := by
      rintro c ⟨a, hc⟩ d hd
      exact .head ⟨a, hshrink₀ a x c hc⟩ (Descendant.of_shrink hshrink₀ hd)
    obtain ⟨hrem, hall⟩ := removeJobChildren_removed (D := Descendant s x)
      (fun p j o s s' => ih (p := p) (j := j) (o := o)) hprocessed hbelow h₁
    have hex₁ : ∀ k, (deleteJob p j s₁).jobExists k = true → s₁.jobExists k = true := by
      intro k hk
      rw [deleteJob_jobExists, Bool.and_eq_true] at hk
      exact hk.1
    -- What can be reached from the job after the unlinking is gone.
    have hgone₀ : ∀ d, Descendant s₀ x d → (deleteJob p j s₁).jobExists d = false := by
      intro d hd
      rcases ReflTransGen.cases_head hd with rfl | ⟨c, hc, hcd⟩
      · rw [deleteJob_jobExists]
        simp [x]
      · exact not_exist_of_shrink hex₁ (hall c hc d hcd)
    have hgone : Gone s (deleteJob p j s₁) x := by
      intro d hd
      rcases descendant_or_of_unlinked (p := p) (j := j) (o := o) hd with hd' | hd' <;>
        exact hgone₀ d hd'
    have hgone₁ : ∀ c, Gone s₀ s₁ c → Gone s (deleteJob p j s₁) c := by
      intro c hc d hd
      rcases descendant_or_of_unlinked (p := p) (j := j) (o := o) hd with hd' | hd'
      · exact not_exist_of_shrink hex₁ (hc d hd')
      · exact hgone₀ d hd'
    refine ⟨⟨fun k hk => ?_, fun a k c hc => ?_, fun a k c hc => ?_, fun k hk hk' => ?_⟩, hgone⟩
    · rw [← hex₀]
      exact hrem.exist k (hex₁ k hk)
    · rw [childrenIn_deleteJob] at hc
      split at hc
      · cases hc
      · exact hshrink₀ a k c (hrem.shrink a k c hc)
    · rcases (removeParentDependencyKey_account x o s a k c).2 hc with hc₀ | rfl
      · rcases hrem.child a k c hc₀ with hc₁ | hgc
        · by_cases hk : k = x
          · subst hk
            exact .inr (hgone₁ c (hall c ⟨a, hc₀⟩))
          · left
            rwa [childrenIn_deleteJob, if_neg hk]
        · exact .inr (hgone₁ c hgc)
      · exact .inr hgone
    · by_cases hkx : k = x
      · subst hkx
        exact .refl
      · refine hrem.only k (by rw [hex₀, hk]) ?_
        rw [deleteJob_jobExists] at hk'
        simpa [x, show k ≠ p ++ j from hkx] using hk'

/-! ### Termination

A recursion terminates if from some fuel on its result is always the same. The induction follows
the descent through the accounts; in a removal these shrink on the way, so that the descent is one
in the store at the start. -/

/-- No descent through the accounts of children goes on for ever. -/
def NoEndlessDescent (s : Store) : Prop := WellFounded fun c k => IsChildOf s k c

/-- A fold terminates if every step does. -/
theorem foldlM_terminates {α β : Type} {I : β → Prop} {f : ℕ → β → α → Option β} {l : List α}
    (hf : ∀ a ∈ l, ∀ b, I b → ∃ n b', I b' ∧ ∀ m, n ≤ m → f m b a = some b') {b : β} (hb : I b) :
    ∃ n b', I b' ∧ ∀ m, n ≤ m → l.foldlM (f m) b = some b' := by
  induction l generalizing b with
  | nil => exact ⟨0, b, hb, fun m _ => rfl⟩
  | cons a l ih =>
    obtain ⟨n₁, b₁, hb₁, h₁⟩ := hf a (by simp) b hb
    obtain ⟨n₂, b₂, hb₂, h₂⟩ := ih (fun a' ha' => hf a' (by simp [ha'])) hb₁
    refine ⟨max n₁ n₂, b₂, hb₂, fun m hm => ?_⟩
    rw [List.foldlM_cons, h₁ m (by omega)]
    exact h₂ m (by omega)

theorem isLocked_terminates (h : NoEndlessDescent s) (b : Bool) (p j : String) :
    ∃ n locked, ∀ m, n ≤ m → isLocked m b p j s = some locked := by
  -- By induction along the descent.
  generalize hx : p ++ j = x
  induction x using h.induction generalizing p j with
  | _ x ih =>
    subst hx
    obtain ⟨n, found, -, hn⟩ := foldlM_terminates (I := fun _ : Bool => True)
      (f := fun m found c => if found then some true
        else isLocked m b (getJobKeyPrefix c (getJobIdFromKey c)) (getJobIdFromKey c) s)
      (l := (s .dependencies (p ++ j)).members) (b := false)
      (fun c hc found _ => by
        obtain ⟨n, locked, hn⟩ := ih c ⟨.dependencies, hc⟩ _ _
          (getJobKeyPrefix_append_getJobIdFromKey c)
        cases found with
        | true => exact ⟨0, true, trivial, fun m _ => rfl⟩
        | false => exact ⟨n, locked, trivial, fun m hm => by simpa using hn m hm⟩) trivial
    by_cases hlock : (s .lock (p ++ j)).isSome = true
    · refine ⟨1, true, fun m hm => ?_⟩
      obtain ⟨m, rfl⟩ := Nat.exists_eq_add_of_le' hm
      simp only [isLocked, hlock, if_true]
    · cases b with
      | true =>
        refine ⟨n + 1, found, fun m hm => ?_⟩
        obtain ⟨m, rfl⟩ := Nat.exists_eq_add_of_le' (show 1 ≤ m by omega)
        simp only [isLocked, hlock, if_true, if_false, Bool.false_eq_true]
        exact hn m (by omega)
      | false =>
        refine ⟨1, false, fun m hm => ?_⟩
        obtain ⟨m, rfl⟩ := Nat.exists_eq_add_of_le' hm
        simp only [isLocked, hlock, if_false, Bool.false_eq_true]

/-- The accounts hold no more than in the first store. -/
def AccountsWithin (s t : Store) : Prop :=
  ∀ a k c, c ∈ childrenIn t a k → c ∈ childrenIn s a k

section Removal

variable {removeChild : ℕ → String → String → Option String → Store → Option Store} {x : String}
  (hchild : ∀ c, IsChildOf s x c → ∀ t, AccountsWithin s t → ∃ n t', AccountsWithin s t' ∧
    ∀ m, n ≤ m → removeChildKey (removeChild m) x t c = some t')

include hchild in
theorem foldlM_account_terminates (a : Account) {t : Store} (ht : AccountsWithin s t) :
    ∃ n t', AccountsWithin s t' ∧ ∀ m, n ≤ m →
      (childrenIn t a x).foldlM (removeChildKey (removeChild m) x) t = some t' :=
  foldlM_terminates (f := fun m => removeChildKey (removeChild m) x)
    (fun c hc t' ht' => hchild c ⟨a, ht a x c hc⟩ t' ht') ht

variable (removeChild) in
include hchild in
theorem removeJobChildren_terminates (options : RemoveOptions) {t : Store}
    (ht : AccountsWithin s t) :
    ∃ n t', AccountsWithin s t' ∧ ∀ m, n ≤ m →
      removeJobChildren (removeChild m) options x t = some t' := by
  have hfirst : ∃ n t', AccountsWithin s t' ∧ ∀ m, n ≤ m → (if options.ignoreProcessed then some t
      else removeProcessedChildren (removeChild m) x t) = some t' := by
    by_cases hopt : options.ignoreProcessed = true
    · exact ⟨0, t, ht, fun m _ => if_pos hopt⟩
    · obtain ⟨n₁, t₁, ht₁, h₁⟩ := foldlM_account_terminates hchild .processed ht
      obtain ⟨n₂, t₂, ht₂, h₂⟩ := foldlM_account_terminates hchild .failedChildren ht₁
      obtain ⟨n₃, t₃, ht₃, h₃⟩ := foldlM_account_terminates hchild .unsuccessful ht₂
      refine ⟨max n₁ (max n₂ n₃), t₃, ht₃, fun m hm => ?_⟩
      rw [if_neg hopt]
      refine Option.bind_eq_some_iff.mpr ⟨t₁, h₁ m (by omega), ?_⟩
      exact Option.bind_eq_some_iff.mpr ⟨t₂, h₂ m (by omega), h₃ m (by omega)⟩
  obtain ⟨n₁, t₁, ht₁, h₁⟩ := hfirst
  obtain ⟨n₂, t₂, ht₂, h₂⟩ := foldlM_account_terminates hchild .dependencies ht₁
  exact ⟨max n₁ n₂, t₂, ht₂, fun m hm =>
    Option.bind_eq_some_iff.mpr ⟨t₁, h₁ m (by omega), h₂ m (by omega)⟩⟩

end Removal

theorem removeJobWithChildren_terminates (h : NoEndlessDescent s) (options : RemoveOptions)
    (p j : String) (o : Option String) {t : Store} (ht : AccountsWithin s t) :
    ∃ n t', AccountsWithin s t' ∧ ∀ m, n ≤ m →
      removeJobWithChildren m options p j o t = some t' := by
  -- By induction along the descent, with an account that the deletions only make smaller.
  generalize hx : p ++ j = x
  induction x using h.induction generalizing p j o t with
  | _ x ih =>
    subst hx
    by_cases hlocked : options.ignoreLocked = true ∧ (t .lock (p ++ j)).isSome = true
    · refine ⟨1, t, ht, fun m hm => ?_⟩
      obtain ⟨m, rfl⟩ := Nat.exists_eq_add_of_le' hm
      simp only [removeJobWithChildren, if_pos hlocked]
    by_cases hfailed : options.ignoreProcessed = true ∧ j ∈ t (.zset .failed) p
    · refine ⟨1, t, ht, fun m hm => ?_⟩
      obtain ⟨m, rfl⟩ := Nat.exists_eq_add_of_le' hm
      simp only [removeJobWithChildren, if_neg hlocked, if_pos hfailed]
    set t₀ := (removeParentDependencyKey (p ++ j) o t).2
    have ht₀ : AccountsWithin s t₀ := fun a k c hc =>
      ht a k c ((removeParentDependencyKey_account (p ++ j) o t a k c).1 hc)
    have hdelete : ∀ {t' : Store}, AccountsWithin s t' → AccountsWithin s (deleteJob p j t') := by
      intro t' ht' a k c hc
      rw [childrenIn_deleteJob] at hc
      split at hc
      · cases hc
      · exact ht' a k c hc
    by_cases hchildren : options.removeChildren = true
    · obtain ⟨n, t₁, ht₁, h₁⟩ := removeJobChildren_terminates
        (fun m => removeJobWithChildren m options)
        (fun c hc t' ht' => ih c hc _ _ (some (p ++ j)) ht'
          (getJobKeyPrefix_append_getJobIdFromKey c)) options ht₀
      refine ⟨n + 1, deleteJob p j t₁, hdelete ht₁, fun m hm => ?_⟩
      obtain ⟨m, rfl⟩ := Nat.exists_eq_add_of_le' (show 1 ≤ m by omega)
      simp only [removeJobWithChildren, if_neg hlocked, if_neg hfailed, if_pos hchildren]
      rw [h₁ m (by omega), Option.map_some]
    · refine ⟨1, deleteJob p j t₀, hdelete ht₀, fun m hm => ?_⟩
      obtain ⟨m, rfl⟩ := Nat.exists_eq_add_of_le' hm
      simp only [removeJobWithChildren, if_neg hlocked, if_neg hfailed, if_neg hchildren,
        Option.map_some, t₀]

/-- **`removeJob` terminates** where no descent through the accounts goes on for ever. -/
theorem Script.removeJob_terminates (h : NoEndlessDescent s) (p j : String) (b : Bool) :
    ∃ n r, ∀ m, n ≤ m → Script.removeJob m p j b s = some r := by
  by_cases hsched : isJobSchedulerJob p j s = true
  · exact ⟨0, _, fun m _ => if_pos hsched⟩
  · obtain ⟨n₁, locked, h₁⟩ := isLocked_terminates h b p j
    obtain ⟨n₂, t, -, h₂⟩ := removeJobWithChildren_terminates h { removeChildren := b } p j none
      (t := s) fun _ _ _ => id
    cases locked with
    | true =>
      refine ⟨n₁, (.code 0, s), fun m hm => ?_⟩
      simp only [Script.removeJob, if_neg hsched, h₁ m hm, Option.bind_some, if_true]
    | false =>
      refine ⟨max n₁ n₂, (.code 1, t), fun m hm => ?_⟩
      simp only [Script.removeJob, if_neg hsched, h₁ m (by omega), h₂ m (by omega),
        Option.bind_some, Bool.false_eq_true, if_false, Option.map_some]

end BullMQ
