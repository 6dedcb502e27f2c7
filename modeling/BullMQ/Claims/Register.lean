import Mathlib.Logic.Function.Basic
import Mathlib.Logic.Relation

/-!
# Keys that jobs claim

A register of jobs and of keys that jobs claim. A key has at most one holder; a claim may expire
or last until its holder is done, and while the holder is at work a payload may be kept under the
key, which becomes the next job and holder when the holder is done. `Act` says what can happen to
a register, one kind of event at a time, and `Trace` is any sequence of events of given kinds.

Three properties of registers are kept by events. Payloads reserve ids that no job has
(`Reserving`); who is named by a key carries it (`Naming`); and for one key, the holder is the one
job that carries it and is not done (`Exclusive`). For the last two the kept events are restricted,
and these restrictions are what a system of jobs has to see to.
-/

namespace Claims

variable {ι δ π : Type} [DecidableEq ι] [DecidableEq δ]

/-- A job: the key it carries, and whether it is done. -/
structure Entry (δ : Type) where
  key : Option δ
  done : Bool

/-- The holder of a key, and whether its claim expires. -/
structure Holder (ι : Type) where
  id : ι
  expires : Bool

/-- The jobs, the holders of keys and the payloads kept under keys. -/
@[ext]
structure Register (ι δ π : Type) where
  job : ι → Option (Entry δ)
  holder : δ → Option (Holder ι)
  next : δ → Option π

/-- What happens to a register. -/
inductive Event (ι δ π : Type)
  /-- A job that carries no key. -/
  | create (j : ι)
  /-- A job that carries a key which nobody holds. -/
  | claim (d : δ) (j : ι) (expires : Bool)
  /-- The expiry of a claim changes. -/
  | renew (d : δ) (expires : Bool)
  /-- A payload is kept under a key, whose claim then does not expire. -/
  | keep (d : δ) (n : π)
  /-- The holder of a key is deleted in favour of another job. -/
  | replace (d : δ) (j : ι) (expires : Bool)
  /-- A job is done, and kept or deleted. -/
  | finish (j : ι) (kept : Bool)
  /-- Jobs that are done are deleted. -/
  | forget (D : ι → Bool)
  /-- A job is deleted, with what it holds. -/
  | remove (j : ι)
  /-- A claim expires. -/
  | expire (d : δ)

namespace Register

variable (jid : π → ι)

/-- A job that is not done. -/
def Live (c : Register ι δ π) (j : ι) : Prop := ∃ o, c.job j = some ⟨o, false⟩

/-- An id that no job has and no payload reserves. -/
def Free (c : Register ι δ π) (j : ι) : Prop :=
  c.job j = none ∧ ∀ d n, c.next d = some n → jid n ≠ j

/-- An id that no key names. -/
def Unheld (c : Register ι δ π) (j : ι) : Prop := ∀ d h, c.holder d = some h → h.id ≠ j

/-- A lasting claim of the job `j` on its key ends. -/
def release (o : Option δ) (j : ι) (c : Register ι δ π) : Register ι δ π :=
  { c with holder := fun d =>
      match c.holder d with
      | some ⟨w, false⟩ => if o = some d ∧ w = j then none else some ⟨w, false⟩
      | h => h }

theorem release_holder {c : Register ι δ π} {o : Option δ} {j : ι} {d : δ} {h : Holder ι}
    (hd : (c.release o j).holder d = some h) : c.holder d = some h := by
  simp only [release] at hd
  split at hd
  · next w hw =>
    split at hd
    · cases hd
    · rw [hw, hd]
  · exact hd

/-- A claim that the job does not hold, or that expires, does not end. -/
theorem release_eq_self {c : Register ι δ π} {o : Option δ} {j : ι}
    (h : ∀ d, o = some d → c.holder d ≠ some ⟨j, false⟩) : c.release o j = c := by
  refine Register.ext rfl (funext fun d => ?_) rfl
  simp only [release]
  split
  · next w hw =>
    have hnot : ¬ (o = some d ∧ w = j) := fun hand => h d hand.1 (by rw [hw, hand.2])
    rw [if_neg hnot, hw]
  · rfl

theorem release_eq_setHolder {c : Register ι δ π} {d : δ} {j : ι}
    (h : c.holder d = some ⟨j, false⟩) :
    c.release (some d) j = { c with holder := Function.update c.holder d none } := by
  refine Register.ext rfl (funext fun d' => ?_) rfl
  simp only [release, Function.update_apply]
  by_cases hd : d' = d
  · subst hd
    simp [h]
  · rw [if_neg hd]
    split
    · next w hw =>
      have hnot : ¬ (some d = some d' ∧ w = j) := fun hand => hd (Option.some.inj hand.1).symm
      rw [if_neg hnot, hw]
    · rfl

/-- The payload kept under a key becomes the next job. -/
def succeed (o : Option δ) (c : Register ι δ π) : Register ι δ π :=
  match o with
  | none => c
  | some d =>
    match c.next d with
    | none => c
    | some n =>
      { job := Function.update c.job (jid n) (some ⟨some d, false⟩)
        holder := Function.update c.holder d (some ⟨jid n, false⟩)
        next := Function.update c.next d none }

/-- The two ends of a succession. -/
theorem succeed_cases (o : Option δ) (c : Register ι δ π) :
    (c.succeed jid o = c ∧ ∀ d, o = some d → c.next d = none) ∨
    ∃ d n, o = some d ∧ c.next d = some n ∧ c.succeed jid o =
      { job := Function.update c.job (jid n) (some ⟨some d, false⟩)
        holder := Function.update c.holder d (some ⟨jid n, false⟩)
        next := Function.update c.next d none } := by
  unfold succeed
  split
  · exact .inl ⟨rfl, fun d hd => by cases hd⟩
  · next d =>
    split
    · next hnone => exact .inl ⟨rfl, fun d' hd' => Option.some.inj hd' ▸ hnone⟩
    · next n hn => exact .inr ⟨d, n, rfl, hn, rfl⟩

/-- Delete a job with what it holds. -/
def remove (j : ι) (c : Register ι δ π) : Register ι δ π where
  job := Function.update c.job j none
  holder d := if (c.job j).bind Entry.key = some d ∧ (c.holder d).map Holder.id = some j then none
    else c.holder d
  next d := if (c.job j).bind Entry.key = some d ∧ (c.holder d).map Holder.id = some j then none
    else c.next d

/-- Write the entry of a job. -/
def setJob (j : ι) (x : Option (Entry δ)) (c : Register ι δ π) : Register ι δ π :=
  { c with job := Function.update c.job j x }

/-- Write the holder of a key. -/
def setHolder (d : δ) (h : Option (Holder ι)) (c : Register ι δ π) : Register ι δ π :=
  { c with holder := Function.update c.holder d h }

end Register

open Register

variable (jid : π → ι)

/-- One event. -/
inductive Act : Register ι δ π → Event ι δ π → Register ι δ π → Prop
  | create {c : Register ι δ π} {j : ι} (hj : c.Free jid j) :
      Act c (.create j) (c.setJob j (some ⟨none, false⟩))
  | claim {c : Register ι δ π} {d : δ} {j : ι} {e : Bool} (hd : c.holder d = none)
      (hj : c.Free jid j) :
      Act c (.claim d j e) ((c.setJob j (some ⟨some d, false⟩)).setHolder d (some ⟨j, e⟩))
  | renew {c : Register ι δ π} {d : δ} {w : ι} {e e' : Bool} (hd : c.holder d = some ⟨w, e⟩) :
      Act c (.renew d e') (c.setHolder d (some ⟨w, e'⟩))
  | keep {c : Register ι δ π} {d : δ} {w : ι} {e : Bool} {n : π} (hd : c.holder d = some ⟨w, e⟩)
      (hw : c.Live w) (hn : c.job (jid n) = none)
      (hres : ∀ d' n', c.next d' = some n' → jid n' = jid n → d' = d) :
      Act c (.keep d n)
        { c with holder := Function.update c.holder d (some ⟨w, false⟩)
                 next := Function.update c.next d (some n) }
  | replace {c : Register ι δ π} {d : δ} {w j : ι} {e e' : Bool} (hd : c.holder d = some ⟨w, e⟩)
      (hw : c.Live w) (hj : c.Free jid j) :
      Act c (.replace d j e')
        (((c.setJob w none).setJob j (some ⟨some d, false⟩)).setHolder d (some ⟨j, e'⟩))
  | finish {c : Register ι δ π} {j : ι} {o : Option δ} {kept : Bool}
      (hj : c.job j = some ⟨o, false⟩) :
      Act c (.finish j kept)
        (((c.release o j).succeed jid o).setJob j (if kept then some ⟨o, true⟩ else none))
  | forget {c : Register ι δ π} {D : ι → Bool}
      (hD : ∀ j x, D j = true → c.job j = some x → x.done = true) :
      Act c (.forget D) { c with job := fun j => if D j then none else c.job j }
  | remove {c : Register ι δ π} {j : ι} : Act c (.remove j) (c.remove j)
  | expire {c : Register ι δ π} {d : δ} {w : ι} (hd : c.holder d = some ⟨w, true⟩) :
      Act c (.expire d) (c.setHolder d none)

/-- Some events, of those that `P` allows. -/
def Trace (P : Register ι δ π → Event ι δ π → Prop) : Register ι δ π → Register ι δ π → Prop :=
  Relation.ReflTransGen fun c c' => ∃ e, P c e ∧ Act jid c e c'

section Trace

variable {jid} {P P' : Register ι δ π → Event ι δ π → Prop} {c c' c'' : Register ι δ π}

theorem Trace.refl (c : Register ι δ π) : Trace jid P c c := Relation.ReflTransGen.refl

theorem Trace.trans (h : Trace jid P c c') (h' : Trace jid P c' c'') : Trace jid P c c'' :=
  Relation.ReflTransGen.trans h h'

theorem Act.trace {e : Event ι δ π} (h : Act jid c e c') (he : P c e) : Trace jid P c c' :=
  .single ⟨e, he, h⟩

/-- A property that every allowed event keeps is kept by a trace. -/
theorem Trace.invariant {I : Register ι δ π → Prop} (h : Trace jid P c c')
    (hact : ∀ {c e c'}, P c e → Act jid c e c' → I c → I c') (hc : I c) : I c' := by
  induction h with
  | refl => exact hc
  | tail _ hlast ih =>
    obtain ⟨e, he, hlast⟩ := hlast
    exact hact he hlast ih

/-- A trace whose events are allowed by another predicate as well, as long as a property holds. -/
theorem Trace.mono {I : Register ι δ π → Prop} (h : Trace jid P c c')
    (hP : ∀ {c e c'}, P c e → Act jid c e c' → I c → P' c e ∧ I c') (hc : I c) :
    Trace jid P' c c' := by
  have hboth : Trace jid P' c c' ∧ I c' := by
    induction h with
    | refl => exact ⟨.refl _, hc⟩
    | tail _ hlast ih =>
      obtain ⟨e, he, hlast⟩ := hlast
      obtain ⟨he', hI⟩ := hP he hlast ih.2
      exact ⟨ih.1.trans (hlast.trace he'), hI⟩
  exact hboth.1

end Trace

/-! ### Unused ids -/

/-- An id that no job has, no payload reserves and no key names. -/
def Unused (c : Register ι δ π) (j : ι) : Prop := c.Free jid j ∧ c.Unheld j

/-- An event brings an id into use. -/
def Event.Introduces : Event ι δ π → ι → Prop
  | .create j, i | .claim _ j _, i | .replace _ j _, i => j = i
  | .keep _ n, i => jid n = i
  | _, _ => False

section Unused

variable {jid} {c c' : Register ι δ π} {e : Event ι δ π}

omit [DecidableEq ι] [DecidableEq δ] in
/-- What uses an id afterwards used it before. -/
theorem Unused.of_uses {i : ι} (h : Unused jid c i) (hjob : c.job i = none → c'.job i = none)
    (hholder : ∀ d h', c'.holder d = some h' → h'.id ≠ i ∨ ∃ h₀, c.holder d = some h₀ ∧
    h₀.id = h'.id)
    (hnext : ∀ d n, c'.next d = some n → jid n ≠ i ∨ c.next d = some n) : Unused jid c' i :=
  ⟨⟨hjob h.1.1, fun d n hn => (hnext d n hn).elim id fun hold => h.1.2 d n hold⟩,
    fun d h' hd => (hholder d h' hd).elim id fun ⟨h₀, hold, hid⟩ => hid ▸ h.2 d h₀ hold⟩

/-- An id that is not in use comes into use only by an event that says so. -/
theorem Act.unused (hact : Act jid c e c') {i : ι} (hi : ¬ e.Introduces jid i)
    (h : Unused jid c i) : Unused jid c' i := by
  have hset : ∀ {c : Register ι δ π} {j x}, j ≠ i → c.job i = none → (c.setJob j x).job i = none :=
    fun hne hnone => (Function.update_of_ne hne.symm ..).trans hnone
  have hsame : ∀ {d : δ} {h' : Holder ι} (_ : c.holder d = some h'),
      ∃ h₀, c.holder d = some h₀ ∧ h₀.id = h'.id := fun {d h'} hd => ⟨h', hd, rfl⟩
  -- An event writes at most one job, one holder and one payload; what it writes bears a name that
  -- it introduces or one that is there.
  cases hact with
  | create hj => exact h.of_uses (hset hi) (fun _ _ hd => .inr (hsame hd)) fun _ _ hn => .inr hn
  | @claim d j e hd hj =>
    refine h.of_uses (hset hi) (fun d' h' hd' => ?_) fun _ _ hn => .inr hn
    simp only [setHolder, Function.update_apply] at hd'
    split at hd'
    · exact .inl (Option.some.inj hd' ▸ hi)
    · exact .inr (hsame hd')
  | @renew d w e e' hd =>
    refine h.of_uses id (fun d' h' hd' => .inr ?_) fun _ _ hn => .inr hn
    simp only [setHolder, Function.update_apply] at hd'
    split at hd'
    · next heq => exact ⟨⟨w, e⟩, heq ▸ hd, Option.some.inj hd' ▸ rfl⟩
    · exact hsame hd'
  | @keep d w e n hd hw hn _ =>
    refine h.of_uses id (fun d' h' hd' => .inr ?_) fun d' n' hn' => ?_
    · simp only [Function.update_apply] at hd'
      split at hd'
      · next heq => exact ⟨⟨w, e⟩, heq ▸ hd, Option.some.inj hd' ▸ rfl⟩
      · exact hsame hd'
    · simp only [Function.update_apply] at hn'
      split at hn'
      · exact .inl (Option.some.inj hn' ▸ hi)
      · exact .inr hn'
  | @replace d w j e e' hd hw hj =>
    refine h.of_uses (fun hnone => hset hi ?_) (fun d' h' hd' => ?_) fun _ _ hn => .inr hn
    · simp only [setJob, Function.update_apply, hnone, ite_self]
    · simp only [setHolder, Function.update_apply] at hd'
      split at hd'
      · exact .inl (Option.some.inj hd' ▸ hi)
      · exact .inr (hsame hd')
  | @finish j o kept hj =>
    have hne : j ≠ i := by
      rintro rfl
      rw [h.1.1] at hj
      cases hj
    obtain ⟨heq, -⟩ | ⟨d, n, -, hn, heq⟩ := succeed_cases jid o (c.release o j) <;> rw [heq]
    · exact h.of_uses (hset hne) (fun d h' hd => .inr (hsame (release_holder hd)))
        fun _ _ hn => .inr hn
    · have hni : jid n ≠ i := h.1.2 d n hn
      refine h.of_uses (fun hnone => hset hne ?_) (fun d' h' hd' => ?_) fun d' n' hn' => .inr ?_
      · simp only [Function.update_of_ne hni.symm]
        exact hnone
      · simp only [setJob, Function.update_apply] at hd'
        split at hd'
        · exact .inl (Option.some.inj hd' ▸ hni)
        · exact .inr (hsame (release_holder hd'))
      · simp only [setJob, Function.update_apply] at hn'
        split at hn'
        · cases hn'
        · exact hn'
  | forget hD =>
    exact h.of_uses (fun hnone => by simp only [hnone, ite_self]) (fun _ _ hd => .inr (hsame hd))
      fun _ _ hn => .inr hn
  | @remove j =>
    refine h.of_uses (fun hnone => ?_) (fun d h' hd => .inr ?_) fun d n hn => .inr ?_
    · simp only [Register.remove, Function.update_apply, hnone, ite_self]
    · simp only [Register.remove] at hd
      split at hd
      · cases hd
      · exact hsame hd
    · simp only [Register.remove] at hn
      split at hn
      · cases hn
      · exact hn
  | expire hd =>
    refine h.of_uses id (fun d h' hd' => .inr ?_) fun _ _ hn => .inr hn
    simp only [setHolder, Function.update_apply] at hd'
    split at hd'
    · cases hd'
    · exact hsame hd'

end Unused

/-- Only a kept payload is a new one. -/
theorem Act.next_of {jid : π → ι} {c c' : Register ι δ π} {e : Event ι δ π} (hact : Act jid c e c')
    (he : ∀ d n, e ≠ .keep d n) {d : δ} {n : π} (hn : c'.next d = some n) : c.next d = some n := by
  cases hact with
  | keep _ _ _ _ => exact absurd rfl (he _ _)
  | @finish j o kept hj =>
    simp only [setJob] at hn
    obtain ⟨heq, -⟩ | ⟨d', n', -, -, heq⟩ := succeed_cases jid o (c.release o j) <;> rw [heq] at hn
    · exact hn
    · simp only [Function.update_apply] at hn
      split at hn
      · cases hn
      · exact hn
  | remove =>
    simp only [Register.remove] at hn
    split at hn
    · cases hn
    · exact hn
  | _ => exact hn

/-! ### Reserved ids -/

/-- A payload reserves an id that no job has and no other payload reserves. -/
def Reserving (c : Register ι δ π) : Prop :=
  ∀ d n, c.next d = some n →
    c.job (jid n) = none ∧ ∀ d' n', c.next d' = some n' → jid n' = jid n → d' = d

section Reserving

variable {jid} {c c' : Register ι δ π} {e : Event ι δ π}

omit [DecidableEq ι] [DecidableEq δ] in
/-- Fewer payloads and no job under their ids. -/
theorem Reserving.of_next (h : Reserving jid c)
    (hnext : ∀ d n, c'.next d = some n → c.next d = some n ∧ c'.job (jid n) = none) :
    Reserving jid c' := fun d n hn =>
  ⟨(hnext d n hn).2, fun d' n' hn' => (h d n (hnext d n hn).1).2 d' n' (hnext d' n' hn').1⟩

omit [DecidableEq δ] in
theorem Reserving.setJob_none (h : Reserving jid c) (j : ι) : Reserving jid (c.setJob j none) := by
  refine h.of_next fun d n hn => ⟨hn, ?_⟩
  simp only [setJob, Function.update_apply]
  split
  · rfl
  · exact (h d n hn).1

omit [DecidableEq δ] in
theorem Reserving.setJob (h : Reserving jid c) {j : ι} (hj : c.Free jid j) (x : Option (Entry δ)) :
    Reserving jid (c.setJob j x) := by
  refine h.of_next fun d n hn => ⟨hn, ?_⟩
  simp only [Register.setJob, Function.update_of_ne (hj.2 d n hn)]
  exact (h d n hn).1

theorem Reserving.succeed (h : Reserving jid c) (o : Option δ) :
    Reserving jid (c.succeed jid o) := by
  obtain ⟨heq, -⟩ | ⟨d, n, -, hn, heq⟩ := succeed_cases jid o c <;> rw [heq]
  · exact h
  · refine h.of_next fun d' n' hn' => ?_
    simp only [Function.update_apply] at hn'
    split at hn'
    · cases hn'
    · next hne =>
      have hid : jid n' ≠ jid n := fun heq => hne ((h d n hn).2 d' n' hn' heq)
      exact ⟨hn', by simp only [Function.update_of_ne hid, (h d' n' hn').1]⟩

theorem Act.reserving (hact : Act jid c e c') (h : Reserving jid c) : Reserving jid c' := by
  cases hact with
  | create hj => exact h.setJob hj _
  | claim hd hj => exact (h.setJob hj _)
  | renew hd => exact h
  | @keep d w e n hd hw hn hres =>
    intro d₁ n₁ hn₁
    simp only [Function.update_apply] at hn₁
    have hother : ∀ d' n', (Function.update c.next d (some n)) d' = some n' →
        d' = d ∧ n' = n ∨ d' ≠ d ∧ c.next d' = some n' := by
      intro d' n' hn'
      rw [Function.update_apply] at hn'
      split at hn'
      · next hd' => exact .inl ⟨hd', (Option.some.inj hn').symm⟩
      · next hd' => exact .inr ⟨hd', hn'⟩
    split at hn₁
    · next hd₁ =>
      subst hd₁
      obtain rfl := Option.some.inj hn₁
      refine ⟨hn, fun d' n' hn' heq => ?_⟩
      obtain ⟨rfl, -⟩ | ⟨-, hn'⟩ := hother d' n' hn'
      · rfl
      · exact hres d' n' hn' heq
    · next hd₁ =>
      refine ⟨(h d₁ n₁ hn₁).1, fun d' n' hn' heq => ?_⟩
      obtain ⟨rfl, rfl⟩ | ⟨-, hn'⟩ := hother d' n' hn'
      · exact (hres d₁ n₁ hn₁ heq.symm).symm
      · exact (h d₁ n₁ hn₁).2 d' n' hn' heq
  | @replace d w j _ _ hd hw hj =>
    -- The winner that is replaced goes first, so that the newcomer takes a free name.
    have hgone : (c.setJob w none).job j = none := by
      simp only [Register.setJob, Function.update_apply, hj.1, ite_self]
    exact (h.setJob_none w).setJob ⟨hgone, hj.2⟩ _
  | @finish j o kept hj =>
    -- The kept successor is let in before the finished job is marked.
    have hsucc : Reserving jid ((c.release o j).succeed jid o) :=
      Reserving.succeed (c := c.release o j) h o
    refine hsucc.of_next fun d n hn => ⟨hn, ?_⟩
    have hne : jid n ≠ j := by
      rintro rfl
      have hold : c.next d = some n := by
        simp only [Register.setJob] at hn
        obtain ⟨heq, -⟩ | ⟨d', n', -, -, heq⟩ := succeed_cases jid o (c.release o (jid n)) <;>
          rw [heq] at hn
        · exact hn
        · simp only [Function.update_apply] at hn
          split at hn
          · cases hn
          · exact hn
      rw [(h d n hold).1] at hj
      cases hj
    simp only [Register.setJob, Function.update_of_ne hne]
    exact (hsucc d n hn).1
  | forget hD =>
    refine h.of_next fun d n hn => ⟨hn, ?_⟩
    simp only [(h d n hn).1, ite_self]
  | @remove j =>
    refine h.of_next fun d n hn => ?_
    simp only [Register.remove] at hn
    split at hn
    · cases hn
    · refine ⟨hn, ?_⟩
      simp only [Register.remove, Function.update_apply]
      split
      · rfl
      · exact (h d n hn).1
  | expire hd => exact h

end Reserving

/-! ### Names in keys -/

/-- Who is named by a key carries it, and no payload reserves the id. -/
structure Naming (c : Register ι δ π) : Prop where
  carries : ∀ d h, c.holder d = some h → ∀ x, c.job h.id = some x → x.key = some d
  unreserved : ∀ d n, c.next d = some n → c.Unheld (jid n)

/-- The id that an event uses for a job for the first time is named by no key. -/
def FreshNames (c : Register ι δ π) : Event ι δ π → Prop
  | .create j | .claim _ j _ | .replace _ j _ => c.Unheld j
  | .keep _ n => c.Unheld (jid n)
  | _ => True

section Naming

variable {jid} {c c' : Register ι δ π} {e : Event ι δ π}

omit [DecidableEq δ] in
theorem Naming.setJob (h : Naming jid c) {j : ι} (x : Option (Entry δ))
    (hj : c.Unheld j ∨ ∀ y, x = some y → ∃ z, c.job j = some z ∧ y.key = z.key) :
    Naming jid (c.setJob j x) where
  carries d h' hd y hy := by
    simp only [Register.setJob, Function.update_apply] at hy
    split at hy
    · next heq =>
      subst heq
      obtain hj | hj := hj
      · exact absurd rfl (hj d h' hd)
      · obtain ⟨z, hz, hkey⟩ := hj y hy
        exact hkey.trans (h.carries d h' hd z hz)
    · exact h.carries d h' hd y hy
  unreserved := h.unreserved

omit [DecidableEq ι] [DecidableEq δ] in
/-- Fewer names and fewer payloads. -/
theorem Naming.shrink (h : Naming jid c) (hjob : ∀ j x, c'.job j = some x → c.job j = some x)
    (hholder : ∀ d h, c'.holder d = some h → ∃ h₀, c.holder d = some h₀ ∧ h₀.id = h.id)
    (hnext : ∀ d n, c'.next d = some n → c.next d = some n) : Naming jid c' where
  carries d h' hd x hx := by
    obtain ⟨h₀, hd₀, hid⟩ := hholder d h' hd
    exact h.carries d h₀ hd₀ x (hid ▸ hjob _ _ hx)
  unreserved d n hn d' h' hd' := by
    obtain ⟨h₀, hd₀, hid⟩ := hholder d' h' hd'
    exact hid ▸ h.unreserved d n (hnext d n hn) d' h₀ hd₀

omit [DecidableEq ι] in
/-- A new name: that of a job that carries the key, and no payload reserves its id. -/
theorem Naming.setHolder (h : Naming jid c) {d : δ} {h' : Holder ι}
    (hcarries : ∀ x, c.job h'.id = some x → x.key = some d)
    (hres : ∀ d' n, c.next d' = some n → h'.id ≠ jid n) :
    Naming jid (c.setHolder d (some h')) where
  carries d₁ h₁ hd₁ x hx := by
    simp only [Register.setHolder, Function.update_apply] at hd₁
    split at hd₁
    · next heq =>
      subst heq
      obtain rfl := Option.some.inj hd₁
      exact hcarries x hx
    · exact h.carries d₁ h₁ hd₁ x hx
  unreserved d₁ n hn d₂ h₂ hd₂ := by
    simp only [Register.setHolder, Function.update_apply] at hd₂
    split at hd₂
    · obtain rfl := Option.some.inj hd₂
      exact hres d₁ n hn
    · exact h.unreserved d₁ n hn d₂ h₂ hd₂

theorem Naming.release (h : Naming jid c) (o : Option δ) (j : ι) : Naming jid (c.release o j) :=
  h.shrink (fun _ _ hx => hx) (fun _ h' hd => ⟨h', release_holder hd, rfl⟩) fun _ _ hn => hn

theorem Naming.succeed (h : Naming jid c) (hres : Reserving jid c) (o : Option δ) :
    Naming jid (c.succeed jid o) := by
  obtain ⟨heq, -⟩ | ⟨d, n, -, hn, heq⟩ := succeed_cases jid o c <;> rw [heq]
  · exact h
  · -- The new job first, then its name in place of the payload.
    have hjob : Naming jid (c.setJob (jid n) (some ⟨some d, false⟩)) :=
      h.setJob _ (.inl (h.unreserved d n hn))
    refine ⟨fun d₁ h₁ hd₁ x hx => ?_, fun d₁ n₁ hn₁ d₂ h₂ hd₂ => ?_⟩
    · simp only [Function.update_apply] at hd₁
      split at hd₁
      · next hd =>
        obtain rfl := Option.some.inj hd₁
        simp only [Function.update_self, Option.some.injEq] at hx
        rw [← hx, hd]
      · exact hjob.carries d₁ h₁ hd₁ x hx
    · simp only [Function.update_apply] at hn₁ hd₂
      split at hn₁
      · cases hn₁
      · next hne =>
        split at hd₂
        · obtain rfl := Option.some.inj hd₂
          exact fun heq => hne ((hres d n hn).2 d₁ n₁ hn₁ heq.symm)
        · exact h.unreserved d₁ n₁ hn₁ d₂ h₂ hd₂

theorem Act.naming (hact : Act jid c e c') (hfresh : FreshNames jid c e) (hres : Reserving jid c)
    (h : Naming jid c) : Naming jid c' := by
  cases hact with
  | create hj => exact h.setJob _ (.inl hfresh)
  | claim hd hj =>
    refine (h.setJob _ (.inl hfresh)).setHolder (fun x hx => ?_) fun d' n hn => (hj.2 d' n hn).symm
    simp only [Register.setJob, Function.update_self, Option.some.injEq] at hx
    rw [← hx]
  | renew hd =>
    have hfree : ∀ d' n, c.next d' = some n →
      _ ≠ jid n := fun d' n hn => h.unreserved d' n hn _ _ hd
    exact h.setHolder (fun x hx => h.carries _ _ hd x hx) hfree
  | @keep d w e n hd hw hn hres =>
    -- Only the expiry of the holder changes.
    have hname : ∀ d₁ h₁, (Function.update c.holder d (some ⟨w, false⟩)) d₁ = some h₁ →
        ∃ h₀, c.holder d₁ = some h₀ ∧ h₀.id = h₁.id := by
      intro d₁ h₁ hd₁
      rw [Function.update_apply] at hd₁
      split at hd₁
      · next heq =>
        obtain rfl := Option.some.inj hd₁
        exact ⟨⟨w, e⟩, heq ▸ hd, rfl⟩
      · exact ⟨h₁, hd₁, rfl⟩
    refine ⟨fun d₁ h₁ hd₁ x hx => ?_, fun d₁ n₁ hn₁ d₂ h₂ hd₂ => ?_⟩
    · obtain ⟨h₀, hd₀, hid⟩ := hname d₁ h₁ hd₁
      exact h.carries d₁ h₀ hd₀ x (hid ▸ hx)
    · obtain ⟨h₀, hd₀, hid⟩ := hname d₂ h₂ hd₂
      simp only [Function.update_apply] at hn₁
      split at hn₁
      · obtain rfl := Option.some.inj hn₁
        exact hid ▸ hfresh d₂ h₀ hd₀
      · exact hid ▸ h.unreserved d₁ n₁ hn₁ d₂ h₀ hd₀
  | @replace d w j _ _ hd hw hj =>
    -- As for a claim, once the winner is gone.
    have hgone : Naming jid (c.setJob w none) := h.setJob _ (.inr fun y hy => by cases hy)
    refine (hgone.setJob _ (.inl hfresh)).setHolder (fun x hx => ?_)
      fun d' n hn => (hj.2 d' n hn).symm
    simp only [Register.setJob, Function.update_self, Option.some.injEq] at hx
    rw [← hx]
  | @finish j o kept hj =>
    have hsucc := (h.release o j).succeed (c := c.release o j) hres o
    refine hsucc.setJob _ (.inr fun y hy => ?_)
    split at hy
    · obtain rfl := Option.some.inj hy
      refine ⟨⟨o, false⟩, ?_, rfl⟩
      obtain ⟨heq, -⟩ | ⟨d, n, -, hn, heq⟩ := succeed_cases jid o (c.release o j) <;> rw [heq]
      · exact hj
      · have hne : j ≠ jid n := by
          rintro rfl
          have hnone := (hres d n hn).1
          rw [hj] at hnone
          cases hnone
        simp only [Function.update_of_ne hne]
        exact hj
    · cases hy
  | forget hD =>
    refine h.shrink (fun i x hx => ?_) (fun _ h' hd => ⟨h', hd, rfl⟩) fun _ _ hn => hn
    simp only at hx
    split at hx
    · cases hx
    · exact hx
  | @remove j =>
    refine h.shrink (fun i x hx => ?_) (fun d h' hd => ?_) fun d n hn => ?_
    · simp only [Register.remove, Function.update_apply] at hx
      split at hx
      · cases hx
      · exact hx
    · simp only [Register.remove] at hd
      split at hd
      · cases hd
      · exact ⟨h', hd, rfl⟩
    · simp only [Register.remove] at hn
      split at hn
      · cases hn
      · exact hn
  | @expire d w hd =>
    refine h.shrink (fun _ _ hx => hx) (fun d' h' hd' => ?_) fun _ _ hn => hn
    simp only [Register.setHolder, Function.update_apply] at hd'
    split at hd'
    · cases hd'
    · exact ⟨h', hd', rfl⟩

end Naming

/-! ### One job for a key -/

/-- The holder of a key is the one job that carries it and is not done, and the claim lasts. -/
structure Exclusive (d : δ) (c : Register ι δ π) : Prop where
  holds : ∀ j, c.job j = some ⟨some d, false⟩ → c.holder d = some ⟨j, false⟩
  carries : ∀ h, c.holder d = some h → h.expires = false ∧ c.job h.id = some ⟨some d, false⟩

/-- The events that make no expiring claim on the key `d`. -/
def KeepsExclusive (d : δ) : Event ι δ π → Prop
  | .claim d' _ e | .replace d' _ e | .renew d' e => d' = d → e = false
  | _ => True

section Exclusive

variable {jid} {c c' : Register ι δ π} {e : Event ι δ π} {d : δ}

omit [DecidableEq ι] [DecidableEq δ] in
/-- At most one job carries the key and is not done. -/
theorem Exclusive.unique (h : Exclusive d c) {i j : ι} (hi : c.job i = some ⟨some d, false⟩)
    (hj : c.job j = some ⟨some d, false⟩) : i = j := by
  have heq := (h.holds i hi).symm.trans (h.holds j hj)
  simpa using heq

omit [DecidableEq δ] in
/-- An entry that is no job of the key, before and after. -/
theorem Exclusive.setJob (h : Exclusive d c) {j : ι} {x : Option (Entry δ)}
    (hj : c.job j ≠ some ⟨some d, false⟩) (hx : x ≠ some ⟨some d, false⟩) :
    Exclusive d (c.setJob j x) where
  holds i hi := by
    simp only [Register.setJob, Function.update_apply] at hi
    split at hi
    · exact absurd hi hx
    · exact h.holds i hi
  carries h' hd := by
    have hold := h.carries h' hd
    have hne : h'.id ≠ j := fun heq => hj (heq ▸ hold.2)
    simp only [Register.setJob, Function.update_of_ne hne]
    exact hold

omit [DecidableEq ι] in
/-- The holder of another key. -/
theorem Exclusive.setHolder (h : Exclusive d c) {d' : δ} (hne : d' ≠ d) (h' : Option (Holder ι)) :
    Exclusive d (c.setHolder d' h') := by
  have hsame : (c.setHolder d' h').holder d = c.holder d := Function.update_of_ne hne.symm ..
  exact ⟨fun j hj => hsame ▸ h.holds j hj, fun h₀ hd => h.carries h₀ (hsame ▸ hd)⟩

omit [DecidableEq ι] [DecidableEq δ] in
/-- A new holder, in place of whoever carried the key. -/
theorem Exclusive.of_new {j : ι} (hjob : c'.job j = some ⟨some d, false⟩)
    (hother : ∀ i, i ≠ j → c'.job i ≠ some ⟨some d, false⟩)
    (hholder : c'.holder d = some ⟨j, false⟩) : Exclusive d c' where
  holds i hi := by
    obtain rfl : i = j := by_contra fun hne => hother i hne hi
    exact hholder
  carries h' hd := by
    obtain rfl : ⟨j, false⟩ = h' := Option.some.inj (hholder.symm.trans hd)
    exact ⟨rfl, hjob⟩

omit [DecidableEq ι] [DecidableEq δ] in
/-- Nobody carries the key and nobody holds it. -/
theorem Exclusive.of_none (hjob : ∀ j, c'.job j ≠ some ⟨some d, false⟩)
    (hholder : c'.holder d = none) : Exclusive d c' :=
  ⟨fun j hj => absurd hj (hjob j), fun h' hd => by rw [hholder] at hd; cases hd⟩

theorem Act.exclusive (hact : Act jid c e c') (hkeeps : KeepsExclusive d e)
    (hres : Reserving jid c) (hname : Naming jid c) (h : Exclusive d c) : Exclusive d c' := by
  -- An id that no job has is no job of the key.
  have hnew : ∀ {j}, c.job j = none → c.job j ≠ some ⟨some d, false⟩ := fun hj hd => by
    rw [hj] at hd
    cases hd
  cases hact with
  | create hj => exact h.setJob (hnew hj.1) (by simp)
  | @claim d' j e hd hj =>
    by_cases hd' : d' = d
    · subst hd'
      obtain rfl : e = false := hkeeps rfl
      refine .of_new (Function.update_self ..) (fun i hi hjob => ?_) (Function.update_self ..)
      simp only [Register.setHolder, Register.setJob, Function.update_of_ne hi] at hjob
      rw [h.holds i hjob] at hd
      cases hd
    · exact (h.setJob (hnew hj.1) (by simpa using hd')).setHolder hd' _
  | @renew d' w e e' hd =>
    by_cases hd' : d' = d
    · subst hd'
      obtain rfl : e' = false := hkeeps rfl
      have hold := h.carries _ hd
      refine ⟨fun i hi => ?_, fun h' hh' => ?_⟩
      · obtain rfl := h.unique hold.2 hi
        exact Function.update_self ..
      · obtain rfl : ⟨w, false⟩ = h' := by simpa [Register.setHolder] using hh'
        exact ⟨rfl, hold.2⟩
    · exact h.setHolder hd' _
  | @keep d' w e n hd hw hn _ =>
    by_cases hd' : d' = d
    · subst hd'
      have hold := h.carries _ hd
      refine ⟨fun i hi => ?_, fun h' hh' => ?_⟩
      · obtain rfl := h.unique hold.2 hi
        exact Function.update_self ..
      · obtain rfl : ⟨w, false⟩ = h' := by simpa using hh'
        exact ⟨rfl, hold.2⟩
    · have hother := h.setHolder hd' (some ⟨w, false⟩)
      exact ⟨hother.holds, hother.carries⟩
  | @replace d' w j e e' hd hw hj =>
    by_cases hd' : d' = d
    · subst hd'
      obtain rfl : e' = false := hkeeps rfl
      refine .of_new (Function.update_self ..) (fun i hi hjob => ?_) (Function.update_self ..)
      simp only [Register.setHolder, Register.setJob, Function.update_of_ne hi,
        Function.update_apply] at hjob
      split at hjob
      · cases hjob
      · next hiw => exact hiw (h.unique hjob (h.carries _ hd).2)
    · have hw' : c.job w ≠ some ⟨some d, false⟩ := fun hd'' =>
        hd' (Option.some.inj (hname.carries d' _ hd _ hd'')).symm
      have hgone := h.setJob (x := none) hw' (by simp)
      refine (hgone.setJob ?_ (by simpa using hd')).setHolder hd' _
      simp only [Register.setJob, Function.update_apply, hj.1, ite_self]
      simp
  | @finish j o kept hj =>
    by_cases ho : o = some d
    · -- The holder is done: it is released, and perhaps succeeded.
      subst ho
      have hd := h.holds j hj
      have hothers : ∀ i, i ≠ j → c.job i ≠ some ⟨some d, false⟩ := fun i hi hjob =>
        hi (h.unique hjob hj)
      have hreleased : (c.release (some d) j).holder d = none := by simp [release, hd]
      have hdone : (if kept = true then some (⟨some d, true⟩ : Entry δ) else none) ≠
          some ⟨some d, false⟩ := by cases kept <;> simp
      obtain ⟨heq, -⟩ | ⟨d', n, hd', hn, heq⟩ :=
        succeed_cases jid (some d) (c.release (some d) j) <;>
        rw [heq]
      · refine .of_none (fun i hi => ?_) hreleased
        simp only [Register.setJob, Function.update_apply] at hi
        split at hi
        · exact hdone hi
        · next hij => exact hothers i hij hi
      · obtain rfl := Option.some.inj hd'
        have hne : jid n ≠ j := by
          rintro rfl
          rw [(hres d n hn).1] at hj
          cases hj
        refine .of_new (j := jid n) ?_ (fun i hi hjob => ?_) (Function.update_self ..)
        · simp only [Register.setJob, Function.update_of_ne hne, Function.update_self]
        · simp only [Register.setJob, Function.update_apply, if_neg hi] at hjob
          split at hjob
          · exact hdone hjob
          · next hij => exact hothers i hij hjob
    · have hrel : (c.release o j).holder d = c.holder d := by
        simp only [release]
        split
        · next w hw => rw [if_neg fun hand => ho hand.1, hw]
        · rfl
      have hbase : Exclusive d (c.release o j) :=
        ⟨fun i hi => hrel ▸ h.holds i hi, fun h' hh' => h.carries h' (hrel ▸ hh')⟩
      have hjd : c.job j ≠ some ⟨some d, false⟩ := by
        rw [hj]
        simpa using ho
      have hdone : (if kept = true then some (⟨o, true⟩ : Entry δ) else none) ≠
          some ⟨some d, false⟩ := by cases kept <;> simp
      obtain ⟨heq, -⟩ | ⟨d', n, rfl, hn, heq⟩ := succeed_cases jid o (c.release o j) <;> rw [heq]
      · exact hbase.setJob hjd hdone
      · have hd' : d' ≠ d := fun heq => ho (congrArg some heq)
        have hnone : c.job (jid n) = none := (hres d' n hn).1
        have hsucc := (hbase.setJob (j := jid n) (x := some ⟨some d', false⟩) (hnew hnone)
          (by simpa using hd')).setHolder hd' (some ⟨jid n, false⟩)
        have hne : j ≠ jid n := by
          rintro rfl
          rw [hnone] at hj
          cases hj
        have hjd' : (Function.update (c.release (some d') j).job (jid n)
            (some ⟨some d', false⟩)) j ≠ some ⟨some d, false⟩ := by
          rw [Function.update_of_ne hne]
          exact hjd
        have hlast := hsucc.setJob hjd' hdone
        exact ⟨hlast.holds, hlast.carries⟩
  | @forget D hD =>
    have hkept : ∀ i, c.job i = some ⟨some d, false⟩ → D i ≠ true := fun i hi hw => by
      have hdone := hD i _ hw hi
      cases hdone
    refine ⟨fun i hi => ?_, fun h' hd => ?_⟩
    · simp only at hi
      split at hi
      · cases hi
      · exact h.holds i hi
    · have hold := h.carries h' hd
      exact ⟨hold.1, by simp only [if_neg (hkept _ hold.2)]; exact hold.2⟩
  | @remove j =>
    by_cases hjob : c.job j = some ⟨some d, false⟩
    · have hd := h.holds j hjob
      refine .of_none (fun i hi => ?_) ?_
      · simp only [Register.remove, Function.update_apply] at hi
        split at hi
        · cases hi
        · next hij => exact hij (h.unique hi hjob)
      · simp [Register.remove, hjob, hd]
    · have hkept : (c.remove j).holder d = c.holder d := by
        simp only [Register.remove]
        split
        · next hand =>
          obtain ⟨h', hd', hid⟩ := Option.map_eq_some_iff.mp hand.2
          exact absurd (hid ▸ (h.carries h' hd').2) hjob
        · rfl
      have hgone := h.setJob (x := none) hjob (by simp)
      exact ⟨fun i hi => hkept ▸ hgone.holds i hi, fun h' hh' => hgone.carries h' (hkept ▸ hh')⟩
  | @expire d' w hd =>
    by_cases hd' : d' = d
    · subst hd'
      have hlast := (h.carries _ hd).1
      cases hlast
    · exact h.setHolder hd' _

end Exclusive

end Claims