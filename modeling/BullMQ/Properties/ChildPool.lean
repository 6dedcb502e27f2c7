import BullMQ.Model.ChildPool
import Mathlib.Data.List.Nodup
import Mathlib.Data.Nat.Basic
import Mathlib.Data.List.Count

/-!
# No child is lent out twice

A child is free, or held by one call of the sandbox, or gone: `Place`. `Kept` says that the pool
and the calls agree with such an assignment of places, which every step changes for the child that
it is about.
-/

namespace BullMQ

namespace ChildPool

/-- Where a child is. -/
inductive Place
  | free
  | held (call : ℕ)
  | gone

/-- The child that a call holds. -/
def holds (p : ChildPool) (call : ℕ) : Option ℕ := p.calls[call]?.bind Sandbox.child

/-- What is known of a child by its place. -/
structure Fits (quiet : Prop) (p : ChildPool) (place : Place) (c : ℕ) : Prop where
  free : place = .free → ∃ child, p.children[c]? = some child ∧ child.init = some true ∧
    child.exited = false
  held : ∀ call s, place = .held call → p.calls[call]? = some s → ∃ child,
    p.children[c]? = some child ∧ s.processFile = some child.processFile ∧
      (s = Sandbox.using child.processFile c → child.init = some true)
  unharmed : quiet → place ≠ .gone → ∀ child, p.children[c]? = some child → child.killed = false

/-- The pool agrees with an assignment of places. -/
structure Kept (quiet : Prop) (p : ChildPool) (place : ℕ → Place) : Prop where
  holds : ∀ call c, p.holds call = some c ↔ place c = .held call
  free : ∀ processFile c, c ∈ p.free processFile ↔
    place c = .free ∧ p.children[c]?.map Child.processFile = some processFile
  nodup : ∀ processFile, (p.free processFile).Nodup
  fits : ∀ c, p.Fits quiet (place c) c

variable {quiet : Prop} {p p' : ChildPool} {place : ℕ → Place} {call c id : ℕ}
  {child : Child} {s s' t : Sandbox}
  {processFile : String}

theorem calls_set (h : p.calls[call]? = some t) (i : ℕ) :
    (p.calls.set call s)[i]? = if i = call then some s else p.calls[i]? := by
  have hlt : call < p.calls.length := (List.getElem?_eq_some_iff.mp h).1
  rw [List.getElem?_set]
  by_cases hi : call = i
  · subst hi
    simp [hlt]
  · simp [hi, Ne.symm hi]

theorem children_set (h : p.children[c]? = some child) (new : Child) (d : ℕ) :
    (p.children.set c new)[d]? = if d = c then some new else p.children[d]? := by
  have hlt : c < p.children.length := (List.getElem?_eq_some_iff.mp h).1
  rw [List.getElem?_set]
  by_cases hd : c = d
  · subst hd
    simp [hlt]
  · simp [hd, Ne.symm hd]

theorem Kept.lt (h : p.Kept quiet place) (hc : place c ≠ .gone) : c < p.children.length := by
  have hsome : ∃ child, p.children[c]? = some child := by
    cases hp : place c with
    | free => exact (h.fits c).free hp |>.imp fun _ h => h.1
    | held call =>
      obtain ⟨s, hs, -⟩ := Option.bind_eq_some_iff.mp ((h.holds call c).mpr hp)
      exact (h.fits c).held call s hp hs |>.imp fun _ h => h.1
    | gone => exact absurd hp hc
  obtain ⟨child, hchild⟩ := hsome
  exact (List.getElem?_eq_some_iff.mp hchild).1

/-- The child at a place changes: the rest of the pool agrees with the places as before. -/
theorem Kept.change (h : p.Kept quiet place) (q : Place)
    (hchildren : ∀ d, d ≠ c → p'.children[d]? = p.children[d]?)
    (hholds : ∀ i d, p'.holds i = some d ↔ (d = c ∧ q = .held i) ∨ (d ≠ c ∧ p.holds i = some d))
    (hcalls : ∀ i d, d ≠ c → p.holds i = some d → p'.calls[i]? = p.calls[i]?)
    (hfree : ∀ file d, d ∈ p'.free file ↔
      (d = c ∧ q = .free ∧ p'.children[c]?.map Child.processFile = some file) ∨
        (d ≠ c ∧ d ∈ p.free file))
    (hnodup : ∀ file, (p'.free file).Nodup) (hfits : p'.Fits quiet q c) :
    p'.Kept quiet (Function.update place c q) := by
  refine ⟨fun i d => ?_, fun file d => ?_, hnodup, fun d => ?_⟩
  · rw [hholds]
    by_cases hd : d = c
    · simp [hd]
    · simp [hd, h.holds]
  · rw [hfree]
    by_cases hd : d = c
    · subst hd
      simp
    · simp [hd, h.free, hchildren d hd]
  · by_cases hd : d = c
    · subst hd
      simpa using hfits
    · rw [Function.update_of_ne hd]
      refine ⟨fun hplace => ?_, fun i s hplace hs => ?_, fun hquiet hplace => ?_⟩
      · rw [hchildren d hd]
        exact (h.fits d).free hplace
      · rw [hchildren d hd]
        rw [hcalls i d hd ((h.holds i d).mpr hplace)] at hs
        exact (h.fits d).held i s hplace hs
      · rw [hchildren d hd]
        exact (h.fits d).unharmed hquiet hplace

theorem holds_set (h : p.calls[call]? = some t) (hcalls : p'.calls = p.calls.set call s) (i : ℕ) :
    p'.holds i = if i = call then s.child else p.holds i := by
  rw [holds, hcalls, calls_set h]
  by_cases hi : i = call
  · simp [hi]
  · simp [hi, holds]

/-- A call changes what it does with a child that no other call holds. -/
theorem Kept.set (h : p.Kept quiet place) (q : Place) (hcall : p.calls[call]? = some t)
    (hset : p'.calls = p.calls.set call s)
    (hchildren : ∀ d, d ≠ c → p'.children[d]? = p.children[d]?)
    (ht : ∀ d, t.child = some d → d = c) (hs : ∀ d, s.child = some d → d = c)
    (hq : ∀ i, q = .held i ↔ s.child = some c ∧ i = call)
    (hc : ∀ i, p.holds i = some c → i = call)
    (hfree : ∀ file d, d ∈ p'.free file ↔
      (d = c ∧ q = .free ∧ p'.children[c]?.map Child.processFile = some file) ∨
        (d ≠ c ∧ d ∈ p.free file))
    (hnodup : ∀ file, (p'.free file).Nodup) (hfits : p'.Fits quiet q c) :
    p'.Kept quiet (Function.update place c q) := by
  have hold : p.holds call = t.child := by simp [ChildPool.holds, hcall]
  refine h.change q hchildren (fun i d => ?_) (fun i d hd hi => ?_) hfree hnodup hfits
  · rw [holds_set hcall hset]
    by_cases hi : i = call
    · subst hi
      rw [if_pos rfl, hq, hold]
      constructor
      · intro hd
        obtain rfl := hs d hd
        exact .inl ⟨rfl, hd, rfl⟩
      · rintro (⟨rfl, hd, -⟩ | ⟨hne, hd⟩)
        · exact hd
        · exact absurd (ht d hd) hne
    · rw [if_neg hi, hq]
      constructor
      · intro hd
        exact .inr ⟨fun hdc => hi (hc i (hdc ▸ hd)), hd⟩
      · rintro (⟨-, -, rfl⟩ | ⟨-, hd⟩)
        · exact absurd rfl hi
        · exact hd
  · rw [hset, calls_set hcall, if_neg]
    rintro rfl
    exact hd (ht d (hold ▸ hi))

theorem eq_of_set (h : p.calls[call]? = some t) (hs : (p.calls.set call s)[call]? = some s') :
    s' = s := by
  rw [calls_set h, if_pos rfl] at hs
  exact (Option.some.inj hs).symm

/-- `retain` lends out a free child. -/
theorem Kept.retain_free (h : p.Kept quiet place) (hcall : p.calls[call]? = some .idle)
    (hlast : (p.free processFile).getLast? = some c) :
    (p.retain call processFile id).Kept quiet (Function.update place c (.held call)) := by
  have hc : c ∈ p.free processFile := List.mem_of_getLast? hlast
  obtain ⟨hfree, hfile⟩ := (h.free processFile c).mp hc
  obtain ⟨child, hchild, hinit, -⟩ := (h.fits c).free hfree
  obtain rfl : child.processFile = processFile := by simpa [hchild] using hfile
  -- The last free child of the file is lent out, the others stay.
  have happend : (p.free child.processFile).dropLast ++ [c] = p.free child.processFile :=
    List.dropLast_append_getLast? c hlast
  have hnodup := h.nodup child.processFile
  rw [← happend, List.nodup_append] at hnodup
  obtain ⟨hdrop, -, hdisjoint⟩ := hnodup
  simp only [ChildPool.retain, hlast, hchild]
  refine h.set (c := c) (.held call) hcall rfl (fun _ _ => rfl) (by simp [Sandbox.child])
    (by simp [Sandbox.child]) (by simp [Sandbox.child, eq_comm]) (fun i hi => ?_)
    (fun file d => ?_) (fun file => ?_)
    ⟨by simp, ?_, fun hquiet _ => (h.fits c).unharmed hquiet (by simp [hfree])⟩
  · simp [(h.holds i c).mp hi] at hfree
  · have hother : d ∈ p.free file → d = c → file = child.processFile := by
      rintro hd rfl
      simpa [hchild, eq_comm] using ((h.free file d).mp hd).2
    by_cases hf : file = child.processFile
    · subst hf
      have hmem : d ∈ p.free child.processFile ↔
          d ∈ (p.free child.processFile).dropLast ∨ d = c := by
        conv_lhs => rw [← happend]
        simp
      simp only [Function.update_self, hmem]
      grind
    · simp only [Function.update_of_ne hf]
      grind
  · by_cases hf : file = child.processFile
    · simpa [hf] using hdrop
    · simpa [Function.update_of_ne hf] using h.nodup file
  · rintro i s hi hs
    obtain rfl := Place.held.inj hi
    obtain rfl := eq_of_set hcall hs
    exact ⟨child, hchild, rfl, fun _ => hinit⟩

/-- `retain` forks a child. -/
theorem Kept.retain_fork (h : p.Kept quiet place) (hcall : p.calls[call]? = some .idle)
    (hlast : (p.free processFile).getLast? = none) :
    (p.retain call processFile id).Kept quiet
      (Function.update place p.children.length (.held call)) := by
  have hnew (d : ℕ) (hd : place d ≠ .gone) : d ≠ p.children.length := Nat.ne_of_lt (h.lt hd)
  simp only [ChildPool.retain, hlast]
  refine h.set (c := p.children.length) (.held call) hcall rfl (fun d hd => ?_)
    (by simp [Sandbox.child]) (by simp [Sandbox.child]) (by simp [Sandbox.child, eq_comm])
    (fun i hi => ?_) (fun file d => ?_) h.nodup ⟨by simp, ?_, by simp +contextual⟩
  · rcases Nat.lt_or_ge d p.children.length with hlt | hge
    · exact List.getElem?_append_left hlt
    · simp only [List.getElem?_append_right hge, List.getElem?_eq_none hge]
      exact List.getElem?_eq_none (by simp; omega)
  · exact absurd rfl (hnew _ (by simp [(h.holds i _).mp hi]))
  · have hne (hd : d ∈ p.free file) : d ≠ p.children.length :=
      hnew d (by simp [((h.free file d).mp hd).1])
    simpa using hne
  · rintro i s hi hs
    obtain rfl := Place.held.inj hi
    obtain rfl := eq_of_set hcall hs
    exact ⟨{ processFile, id }, by simp, rfl, by simp⟩

theorem Kept.file_eq (h : p.Kept quiet place) (hcall : p.calls[call]? = some s)
    (hs : s.child = some c) (hchild : p.children[c]? = some child) :
    s.processFile = some child.processFile := by
  have hheld := (h.holds call c).mp (by simp [ChildPool.holds, hcall, hs])
  obtain ⟨child', hchild', hfile, -⟩ := (h.fits c).held call s hheld hcall
  rwa [Option.some.inj (hchild.symm.trans hchild')]

/-- A child that a call holds is held by no other call and not free. -/
theorem Kept.only (h : p.Kept quiet place) (hcall : p.calls[call]? = some s)
    (hs : s.child = some c) :
    (∀ i, p.holds i = some c → i = call) ∧ ∀ file, c ∉ p.free file := by
  have hheld := (h.holds call c).mp (by simp [ChildPool.holds, hcall, hs])
  refine ⟨fun i hi => ?_, fun file hc => ?_⟩
  · simpa [hheld, eq_comm] using (h.holds i c).mp hi
  · simpa [hheld] using ((h.free file c).mp hc).1

theorem mem_remove_free (h : p.Kept quiet place) (hchild : p.children[c]? = some child)
    (file : String) (d : ℕ) : d ∈ (p.remove child c).free file ↔ d ≠ c ∧ d ∈ p.free file := by
  have hown : c ∈ p.free file → file = child.processFile := fun hc => by
    simpa [hchild, eq_comm] using ((h.free file c).mp hc).2
  by_cases hf : file = child.processFile
  · subst hf
    simp [remove, (h.nodup child.processFile).mem_erase_iff]
  · simp only [remove, Function.update_of_ne hf]
    grind

theorem nodup_remove_free (h : p.Kept quiet place) (file : String) :
    ((p.remove child c).free file).Nodup := by
  by_cases hf : file = child.processFile
  · subst hf
    simpa [remove] using (h.nodup child.processFile).erase c
  · simpa [remove, Function.update_of_ne hf] using h.nodup file

theorem Kept.initialized (h : p.Kept quiet place) {completed : Bool}
    (hcall : p.calls[call]? = some (.initializing processFile c))
    (hchild : p.children[c]? = some child) :
    ∃ place', (p.initialized call processFile c child completed).Kept quiet place' := by
  obtain ⟨honly, hnotfree⟩ := h.only hcall rfl
  have hheld := (h.holds call c).mp (by simp [ChildPool.holds, hcall, Sandbox.child])
  have hfile := h.file_eq hcall rfl hchild
  unfold ChildPool.initialized
  dsimp only
  split
  next hok =>
    refine ⟨_, h.set (c := c) (s := .using processFile c) (.held call) hcall rfl (fun d hd => ?_)
      (by simp [Sandbox.child]) (by simp [Sandbox.child]) (by simp [Sandbox.child, eq_comm]) honly
      (fun file d => ?_) h.nodup ⟨by simp, ?_, fun hquiet _ => ?_⟩⟩
    · simp [retainChild, children_set hchild, hd]
    · have hne (hd : d ∈ p.free file) : d ≠ c := fun hdc => hnotfree file (hdc ▸ hd)
      simpa [retainChild] using hne
    · rintro i s hi hs
      obtain rfl := Place.held.inj hi
      obtain rfl := eq_of_set hcall hs
      exact ⟨{ child with init := some completed }, by simp [retainChild, children_set hchild],
        hfile, by simp [hok.1]⟩
    · simpa [retainChild, children_set hchild] using
        (h.fits c).unharmed hquiet (by simp [hheld]) child hchild
  -- A child that failed or exited is killed, so that no list of free children has it.
  next hnot =>
    refine ⟨_, h.set (c := c) (s := .idle) .gone hcall rfl (fun d hd => ?_)
      (by simp [Sandbox.child]) (by simp [Sandbox.child]) (by simp [Sandbox.child]) honly
      (fun file d => ?_) (fun file => nodup_remove_free h file) ⟨by simp, by simp, by simp⟩⟩
    · simp only [kill, remove, List.set_set, children_set hchild, if_neg hd]
    · exact (mem_remove_free h hchild file d).trans (by simp)

theorem Kept.finish (h : p.Kept quiet place) (hcall : p.calls[call]? = some (.using processFile c))
    (hchild : p.children[c]? = some child) :
    ∃ place', (p.finish call c child).Kept quiet place' := by
  obtain ⟨honly, hnotfree⟩ := h.only hcall rfl
  obtain rfl : processFile = child.processFile := by
    simpa [Sandbox.processFile] using h.file_eq hcall rfl hchild
  have hheld := (h.holds call c).mp (by simp [ChildPool.holds, hcall, Sandbox.child])
  obtain ⟨child', hchild', -, hinit⟩ := (h.fits c).held call _ hheld hcall
  obtain rfl := Option.some.inj (hchild.symm.trans hchild')
  unfold ChildPool.finish
  dsimp only
  split
  next hexited =>
    refine ⟨_, h.set (c := c) (s := .idle) .gone hcall rfl (fun _ _ => rfl)
      (by simp [Sandbox.child]) (by simp [Sandbox.child]) (by simp [Sandbox.child]) honly
      (fun file d => ?_) h.nodup ⟨by simp, by simp, by simp⟩⟩
    have hne (hd : d ∈ p.free file) : d ≠ c := fun hdc => hnotfree file (hdc ▸ hd)
    simpa using hne
  -- The child has not exited, so that it is free for its file again.
  next hexited =>
    refine ⟨_, h.set (c := c) (s := .idle) .free hcall rfl (fun _ _ => rfl)
      (by simp [Sandbox.child]) (by simp [Sandbox.child]) (by simp [Sandbox.child]) honly
      (fun file d => ?_) (fun file => ?_)
      ⟨fun _ => ⟨child, hchild, hinit rfl, by simpa using hexited⟩, by simp,
        fun hquiet _ => (h.fits c).unharmed hquiet (by simp [hheld])⟩⟩
    · have hne (hd : d ∈ p.free file) : d ≠ c := fun hdc => hnotfree file (hdc ▸ hd)
      by_cases hf : file = child.processFile
      · subst hf
        simp [release, hchild]
        grind
      · simp [release, hchild, hf, Ne.symm hf]
        grind
    · by_cases hf : file = child.processFile
      · subst hf
        have := h.nodup child.processFile
        have := hnotfree child.processFile
        simp [release, List.nodup_append, *]
        grind
      · simpa [release, Function.update_of_ne hf] using h.nodup file

/-- The place of a child that the pool forgets. -/
def Place.forget : Place → Place
  | .free => .gone
  | place => place

@[simp] theorem Place.forget_ne_free (place : Place) : place.forget ≠ .free := by
  cases place <;> simp [forget]

@[simp] theorem Place.forget_eq_held {place : Place} :
    place.forget = .held call ↔ place = .held call := by
  cases place <;> simp [forget]

theorem Kept.exit (h : p.Kept quiet place) (hchild : p.children[c]? = some child) :
    (p.exit c child).Kept quiet (Function.update place c (place c).forget) := by
  refine h.change _ (fun d hd => ?_) (fun i d => ?_) (fun _ _ _ _ => rfl) (fun file d => ?_)
    (fun file => nodup_remove_free h file)
    ⟨by simp, fun i s hi hs => ?_, fun hquiet hplace => ?_⟩
  · simp [ChildPool.exit, children_set hchild, hd]
  · change p.holds i = some d ↔ _
    by_cases hd : d = c
    · simp [hd, h.holds]
    · simp [hd]
  · exact (mem_remove_free h hchild file d).trans (by simp)
  · obtain ⟨child', hchild', hfile, hinit⟩ := (h.fits c).held i s (Place.forget_eq_held.mp hi) hs
    obtain rfl := Option.some.inj (hchild.symm.trans hchild')
    exact ⟨{ child with exited := true }, by simp [ChildPool.exit, children_set hchild], hfile,
      hinit⟩
  · have hne : place c ≠ .gone := fun hgone => hplace (by simp [hgone, Place.forget])
    simpa [ChildPool.exit, children_set hchild] using (h.fits c).unharmed hquiet hne child hchild

theorem clean_children (c : ℕ) : ∃ f : Child → Child, p.clean.children[c]? = p.children[c]?.map f ∧
    ∀ child, (f child).processFile = child.processFile ∧ (f child).init = child.init := by
  refine ⟨fun child =>
    if p.Knows child c then { child with killed := child.killed || !child.exited } else child,
    by simp [ChildPool.clean], fun child => ?_⟩
  dsimp only
  split <;> exact ⟨rfl, rfl⟩

theorem Kept.clean (h : p.Kept quiet place) : p.clean.Kept False fun c => (place c).forget := by
  refine ⟨fun i c => ?_, fun file c => by simp [ChildPool.clean], fun _ => List.nodup_nil,
    fun c => ⟨by simp, fun i s hi hs => ?_, fun hquiet => hquiet.elim⟩⟩
  · rw [Place.forget_eq_held]
    exact h.holds i c
  · obtain ⟨child, hchild, hfile, hinit⟩ := (h.fits c).held i s (Place.forget_eq_held.mp hi) hs
    obtain ⟨f, hf, hkeep⟩ := clean_children (p := p) c
    refine ⟨f child, by rw [hf, hchild]; rfl, ?_, ?_⟩
    · rw [hfile, (hkeep child).1]
    · rwa [(hkeep child).1, (hkeep child).2]

theorem Kept.mono {quiet' : Prop} (h : p.Kept quiet place) (hq : quiet' → quiet) :
    p.Kept quiet' place :=
  ⟨h.holds, h.free, h.nodup, fun c => ⟨(h.fits c).free, (h.fits c).held,
    fun hquiet => (h.fits c).unharmed (hq hquiet)⟩⟩

/-- The steps, with what they require. -/
inductive Steps (p : ChildPool) : PoolAction → ChildPool → Prop
  | process {call : ℕ} {processFile : String} {id : ℕ} (hcall : p.calls[call]? = some .idle) :
    Steps p (.process call processFile id) (p.retain call processFile id)
  | initialized {call : ℕ} {completed : Bool} {processFile : String} {c : ℕ} {child : Child}
    (hcall : p.calls[call]? = some (.initializing processFile c))
    (hchild : p.children[c]? = some child) :
    Steps p (.initialized call completed) (p.initialized call processFile c child completed)
  | finish {call : ℕ} {processFile : String} {c : ℕ} {child : Child}
    (hcall : p.calls[call]? = some (.using processFile c)) (hchild : p.children[c]? = some child) :
    Steps p (.finish call) (p.finish call c child)
  | exit {c : ℕ} {child : Child} (hchild : p.children[c]? = some child) :
    Steps p (.exit c) (p.exit c child)
  | clean : Steps p .clean p.clean

theorem steps_of_step {a : PoolAction} (hp : p.step a = some p') : p.Steps a p' := by
  -- A step that cannot happen gives nothing, so that its guards hold.
  cases a with
  | process call file id =>
    obtain ⟨hcall, rfl⟩ := Option.ite_some_none_eq_some.mp hp
    exact .process hcall
  | initialized call completed =>
    simp only [ChildPool.step] at hp
    split at hp
    next file c hcall =>
      obtain ⟨child, hchild, rfl⟩ := Option.map_eq_some_iff.mp hp
      exact .initialized hcall hchild
    next => simp at hp
  | finish call =>
    simp only [ChildPool.step] at hp
    split at hp
    next file c hcall =>
      obtain ⟨child, hchild, rfl⟩ := Option.map_eq_some_iff.mp hp
      exact .finish hcall hchild
    next => simp at hp
  | exit c =>
    simp only [ChildPool.step] at hp
    split at hp
    next child hchild =>
      obtain ⟨-, hsome⟩ := Option.ite_none_left_eq_some.mp hp
      obtain rfl := Option.some.inj hsome
      exact .exit hchild
    next => simp at hp
  | clean =>
    obtain rfl := Option.some.inj hp
    exact .clean

/-- Every step keeps the pool in agreement with some assignment of places. -/
theorem Kept.step {a : PoolAction} (h : p.Kept quiet place) (hp : p.Steps a p') :
    ∃ place', p'.Kept (quiet ∧ a ≠ .clean) place' := by
  have hquiet : p.Kept (quiet ∧ a ≠ .clean) place := h.mono And.left
  cases hp with
  | @process call file id hcall =>
    cases hlast : (p.free file).getLast? with
    | none => exact ⟨_, hquiet.retain_fork hcall hlast⟩
    | some c => exact ⟨_, hquiet.retain_free hcall hlast⟩
  | initialized hcall hchild => exact hquiet.initialized hcall hchild
  | finish hcall hchild => exact hquiet.finish hcall hchild
  | exit hchild => exact ⟨_, hquiet.exit hchild⟩
  | clean => exact ⟨_, h.clean.mono fun hq => hq.2 rfl⟩

/-! ### What `clean` finds -/

/-- The children in use that have not exited are retained, each under its id. -/
def Tracked (p : ChildPool) : Prop :=
  ∀ (call : ℕ) (processFile : String) (c : ℕ) (child : Child),
    p.calls[call]? = some (.using processFile c) → p.children[c]? = some child →
    child.exited = false → p.retained child.id = some c

/-- No two children have had the same id, and no thread the one that an exited thread answers. -/
structure DistinctIds (p : ChildPool) : Prop where
  nodup : (p.children.map Child.id).Nodup
  ne_exited : p.useWorkerThreads = true → 1 ∉ p.children.map Child.id

theorem keyOf_of_live (h : child.exited = false) : p.keyOf child = child.id := by
  simp [keyOf, Child.pid, h]

/-- No child has the key of another one. -/
theorem DistinctIds.ne_keyOf (h : p.DistinctIds) {c d : ℕ} {child child' new : Child}
    (hc : p.children[c]? = some child) (hd : p.children[d]? = some child') (hne : d ≠ c)
    (hnew : new.id = child.id) : child'.id ≠ p.keyOf new := by
  unfold keyOf Child.pid
  split
  next hthread =>
    intro hone
    exact h.ne_exited hthread.1 (List.mem_map.mpr ⟨child', List.mem_of_getElem? hd, hone⟩)
  next =>
    intro hid
    have hlt : d < (p.children.map Child.id).length := by
      simpa using (List.getElem?_eq_some_iff.mp hd).1
    exact hne ((List.getElem?_inj hlt h.nodup).mp (by simp [hc, hd, hid, hnew]))

/-- The retained children stay tracked when one child and its key change. -/
theorem Tracked.change (h : p.Tracked) (key : ℕ)
    (hret : ∀ key', key' ≠ key → p'.retained key' = p.retained key')
    (hc : ∀ (call : ℕ) (processFile : String) (child : Child),
      p'.calls[call]? = some (.using processFile c) → p'.children[c]? = some child →
      child.exited = false → p'.retained child.id = some c)
    (hother : ∀ (call : ℕ) (processFile : String) (d : ℕ) (child : Child), d ≠ c →
      p'.calls[call]? = some (.using processFile d) → p'.children[d]? = some child →
      p.calls[call]? = some (.using processFile d) ∧ p.children[d]? = some child ∧
        child.id ≠ key) :
    p'.Tracked := by
  intro call file d child hcall hchild hlive
  by_cases hd : d = c
  · subst hd
    exact hc call file child hcall hchild hlive
  · obtain ⟨hcall', hchild', hid⟩ := hother call file d child hd hcall hchild
    rw [hret child.id hid]
    exact h call file d child hcall' hchild' hlive

/-- The other calls go on when one changes what it does with a child. -/
theorem using_of_set (hcall : p.calls[call]? = some t) (hs : ∀ d, s.child = some d → d = c)
    {d i : ℕ} (hd : d ≠ c) (hi : (p.calls.set call s)[i]? = some (.using processFile d)) :
    p.calls[i]? = some (.using processFile d) := by
  rw [calls_set hcall] at hi
  split at hi
  · exact absurd (hs d (by simp [Option.some.inj hi, Sandbox.child])) hd
  · exact hi

theorem not_using_of_idle (hcall : p.calls[call]? = some t)
    (honly : ∀ i, p.holds i = some c → i = call) (i : ℕ) :
    (p.calls.set call .idle)[i]? ≠ some (.using processFile c) := by
  rw [calls_set hcall]
  split
  next => simp
  next hi => exact fun hu => hi (honly i (by simp [holds, hu, Sandbox.child]))

theorem Tracked.retain (h : p.Tracked) (hk : p.Kept quiet place) (hp : p.DistinctIds)
    (hcall : p.calls[call]? = some .idle) : (p.retain call processFile id).Tracked := by
  unfold ChildPool.retain
  split
  next c hlast =>
    split
    next child hchild =>
      refine h.change (c := c) (p.keyOf child) (fun key' hne => ?_)
        (fun i file child' _ hc hl => ?_)
        (fun i file d child' hd hi hc => ⟨?_, hc, hp.ne_keyOf hchild hc hd rfl⟩)
      · simp [retainChild, hne]
      · obtain rfl := Option.some.inj (hchild.symm.trans hc)
        simp [retainChild, keyOf_of_live hl]
      · exact using_of_set hcall (by simp [Sandbox.child]) hd hi
    next => exact h
  -- A new child gets a number of its own, so that no other call uses it.
  next hlast =>
    intro i file d child hi hc hlive
    have hi' : p.calls[i]? = some (.using file d) := by
      rw [calls_set hcall] at hi
      split at hi <;> simp_all
    have hlt : d < p.children.length := hk.lt (by
      rw [(hk.holds i d).mp (by simp [holds, hi', Sandbox.child])]
      simp)
    exact h i file d child hi' (by rwa [List.getElem?_append_left hlt] at hc) hlive

theorem Tracked.initialized (h : p.Tracked) (hk : p.Kept quiet place) (hp : p.DistinctIds)
    {completed : Bool} (hcall : p.calls[call]? = some (.initializing processFile c))
    (hchild : p.children[c]? = some child) :
    (p.initialized call processFile c child completed).Tracked := by
  have hset (new : Child) (d : ℕ) := children_set hchild new d
  have honly := (hk.only hcall rfl).1
  have hother {d : ℕ} {child' : Child} (hd : d ≠ c) (hc : p.children[d]? = some child') :
      child'.id ≠ p.keyOf { child with init := some completed } := hp.ne_keyOf hchild hc hd rfl
  unfold ChildPool.initialized
  dsimp only
  split
  next hok =>
    refine h.change (c := c) (p.keyOf { child with init := some completed }) (fun key' hne => ?_)
      (fun i file child' _ hc hl => ?_) (fun i file d child' hd hi hc => ?_)
    · exact Function.update_of_ne hne ..
    · obtain rfl : { child with init := some completed } = child' := by
        simpa [retainChild, hset] using hc
      simp [retainChild, keyOf_of_live hl]
    · have hc' : p.children[d]? = some child' := by simpa [retainChild, hset, hd] using hc
      exact ⟨using_of_set hcall (by simp [Sandbox.child]) hd hi, hc', hother hd hc'⟩
  next hnot =>
    refine h.change (c := c) (p.keyOf { child with init := some completed }) (fun key' hne => ?_)
      (fun i file child' hi _ _ => ?_) (fun i file d child' hd hi hc => ?_)
    · exact Function.update_of_ne hne ..
    · exact absurd hi (not_using_of_idle hcall honly i)
    · have hc' : p.children[d]? = some child' := by simpa [kill, remove, hset, hd] using hc
      exact ⟨using_of_set hcall (by simp [Sandbox.child]) hd hi, hc', hother hd hc'⟩

theorem Tracked.finish (h : p.Tracked) (hk : p.Kept quiet place) (hp : p.DistinctIds)
    (hcall : p.calls[call]? = some (.using processFile c)) (hchild : p.children[c]? = some child) :
    (p.finish call c child).Tracked := by
  have honly := (hk.only hcall rfl).1
  unfold ChildPool.finish
  dsimp only
  split
  next hexited =>
    refine h.change (c := c) (p.keyOf child) (fun _ _ => rfl) (fun i file child' hi hc hl => ?_)
      (fun i file d child' hd hi hc => ?_)
    · obtain rfl := Option.some.inj (hchild.symm.trans hc)
      simp [hexited] at hl
    · exact ⟨using_of_set hcall (by simp [Sandbox.child]) hd hi, hc, hp.ne_keyOf hchild hc hd rfl⟩
  next hexited =>
    refine h.change (c := c) (p.keyOf child) (fun key' hne => ?_) (fun i file child' hi _ _ => ?_)
      (fun i file d child' hd hi hc => ?_)
    · exact Function.update_of_ne hne ..
    · exact absurd hi (not_using_of_idle hcall honly i)
    · exact ⟨using_of_set hcall (by simp [Sandbox.child]) hd hi, hc, hp.ne_keyOf hchild hc hd rfl⟩

theorem Tracked.exit (h : p.Tracked) (hp : p.DistinctIds) (hchild : p.children[c]? = some child) :
    (p.exit c child).Tracked := by
  have hset (new : Child) (d : ℕ) := children_set hchild new d
  refine h.change (c := c) (p.keyOf { child with exited := true }) (fun key' hne => ?_)
    (fun i file child' hi hc hl => ?_) (fun i file d child' hd hi hc => ?_)
  · exact Function.update_of_ne hne ..
  · obtain rfl : { child with exited := true } = child' := by
      simpa [ChildPool.exit, hset] using hc
    simp at hl
  · have hc' : p.children[d]? = some child' := by simpa [ChildPool.exit, hset, hd] using hc
    exact ⟨hi, hc', hp.ne_keyOf hchild hc' hd rfl⟩

theorem ids_set (h : p.children[c]? = some child) {new : Child} (hnew : new.id = child.id) :
    (p.children.set c new).map Child.id = p.children.map Child.id := by
  apply List.ext_getElem?
  intro d
  rw [List.getElem?_map, List.getElem?_map, children_set h]
  split
  next hd => simp [hd, h, hnew]
  next => rfl

/-- A step leaves the ids of the children, and may add one. -/
theorem ids_step {a : PoolAction} (hp : p.Steps a p') :
    (∃ l, p'.children.map Child.id = p.children.map Child.id ++ l) ∧
      p'.useWorkerThreads = p.useWorkerThreads := by
  cases hp with
  | @process call file id hcall =>
    unfold retain
    split
    · split <;> exact ⟨⟨[], by simp [retainChild]⟩, rfl⟩
    · exact ⟨⟨[id], by simp⟩, rfl⟩
  | initialized hcall hchild =>
    unfold ChildPool.initialized
    dsimp only
    split
    · exact ⟨⟨[], by rw [List.append_nil]; exact ids_set hchild rfl⟩, rfl⟩
    · refine ⟨⟨[], ?_⟩, rfl⟩
      simp only [kill, remove, List.set_set, List.append_nil]
      exact ids_set hchild rfl
  | finish hcall hchild =>
    unfold ChildPool.finish
    dsimp only
    split <;> exact ⟨⟨[], by simp [release]⟩, rfl⟩
  | exit hchild => exact ⟨⟨[], by rw [List.append_nil]; exact ids_set hchild rfl⟩, rfl⟩
  | clean =>
    refine ⟨⟨[], List.ext_getElem? fun c => ?_⟩, rfl⟩
    cases hc : p.children[c]? with
    | none => simp [clean, hc]
    | some child =>
      simp only [clean, List.getElem?_map, List.getElem?_mapIdx, hc, Option.map_some,
        List.append_nil]
      split <;> rfl

theorem DistinctIds.of_step {a : PoolAction} (h : p'.DistinctIds) (hp : p.Steps a p') :
    p.DistinctIds := by
  obtain ⟨⟨l, hl⟩, hthreads⟩ := ids_step hp
  have hnodup := h.nodup
  rw [hl] at hnodup
  refine ⟨hnodup.of_append_left, fun hthread hone => ?_⟩
  refine h.ne_exited (hthreads.trans hthread) ?_
  rw [hl]
  exact List.mem_append_left _ hone

theorem Tracked.step {a : PoolAction} (h : p.Tracked) (hk : p.Kept quiet place)
    (hids : p.DistinctIds) (ha : a ≠ .clean) (hp : p.Steps a p') : p'.Tracked := by
  cases hp with
  | process hcall => exact h.retain hk hids hcall
  | initialized hcall hchild => exact h.initialized hk hids hcall hchild
  | finish hcall hchild => exact h.finish hk hids hcall hchild
  | exit hchild => exact h.exit hids hchild
  | clean => exact absurd rfl ha

/-! ### How many children there are -/

/-- The number of calls that run the processor of a file. -/
def busy (p : ChildPool) (processFile : String) : ℕ :=
  p.calls.countP fun s => s.processFile == some processFile

/-- The number of free children and busy calls of a file is within the concurrency. -/
def Within (p : ChildPool) : Prop :=
  ∀ processFile, (p.free processFile).length + p.busy processFile ≤ p.calls.length

theorem busy_set (hcall : p.calls[call]? = some t) (hset : p'.calls = p.calls.set call s)
    (file : String) :
    p'.busy file + (if t.processFile = some file then 1 else 0) =
      p.busy file + if s.processFile = some file then 1 else 0 := by
  obtain ⟨hlt, ht⟩ := List.getElem?_eq_some_iff.mp hcall
  have hle : (if t.processFile == some file then 1 else 0) ≤ p.busy file := by
    split
    · exact List.countP_pos_iff.mpr ⟨t, ht ▸ List.getElem_mem hlt, ‹_›⟩
    · exact Nat.zero_le _
  rw [busy, hset, List.countP_set hlt, ht]
  simp only [busy, beq_iff_eq] at hle ⊢
  omega

theorem within_set {file : String}
    (h : (p.free file).length + p.busy file ≤ p.calls.length) (hcall : p.calls[call]? = some t)
    (hset : p'.calls = p.calls.set call s)
    (hfree : (p'.free file).length + (if s.processFile = some file then 1 else 0) ≤
      (p.free file).length + if t.processFile = some file then 1 else 0) :
    (p'.free file).length + p'.busy file ≤ p'.calls.length := by
  have hbusy := busy_set hcall hset file
  have hlen : p'.calls.length = p.calls.length := by rw [hset, List.length_set]
  omega

theorem Within.retain (h : p.Within) (hcall : p.calls[call]? = some .idle) :
    (p.retain call processFile id).Within := by
  unfold ChildPool.retain
  split
  next c hlast =>
    have hne : p.free processFile ≠ [] := fun hnil => by simp [hnil] at hlast
    have hpos := List.length_pos_iff.mpr hne
    split
    next child hchild =>
      intro file
      refine within_set (h file) hcall rfl ?_
      by_cases hf : file = processFile
      · subst hf
        simp [Sandbox.processFile]
        omega
      · simp [Sandbox.processFile, hf, Ne.symm hf]
    next => exact h
  -- No child is free, so that the calls alone bound those of the file.
  next hlast =>
    have hnil : p.free processFile = [] := by simpa using hlast
    intro file
    by_cases hf : file = processFile
    · subst hf
      simp only [hnil, List.length_nil, Nat.zero_add]
      exact List.countP_le_length
    · refine within_set (h file) hcall rfl ?_
      simp [Sandbox.processFile, Ne.symm hf]

theorem Within.step {a : PoolAction} (h : p.Within) (hk : p.Kept quiet place)
    (hp : p.Steps a p') : p'.Within := by
  cases hp with
  | process hcall => exact h.retain hcall
  | @initialized call completed file c child hcall hchild =>
    unfold ChildPool.initialized
    dsimp only
    split
    · exact fun f => within_set (h f) hcall rfl (by simp [retainChild, Sandbox.processFile])
    · intro f
      refine within_set (h f) hcall rfl ?_
      have hle : ((p.free child.processFile).erase c).length ≤ (p.free child.processFile).length :=
        List.length_erase_le
      by_cases hf : f = child.processFile
      · simp [kill, remove, Sandbox.processFile, hf]
        omega
      · simp [kill, remove, Sandbox.processFile, hf]
  | @finish call file c child hcall hchild =>
    obtain rfl : file = child.processFile := by
      simpa [Sandbox.processFile] using hk.file_eq hcall rfl hchild
    unfold ChildPool.finish
    dsimp only
    split
    · exact fun f => within_set (h f) hcall rfl (by simp [Sandbox.processFile])
    · intro f
      refine within_set (h f) hcall rfl ?_
      by_cases hf : f = child.processFile
      · simp [release, Sandbox.processFile, hf]
      · simp [release, Sandbox.processFile, hf, Ne.symm hf]
  | @exit c child hchild =>
    intro f
    have hle : ((p.free child.processFile).erase c).length ≤ (p.free child.processFile).length :=
      List.length_erase_le
    refine le_trans (Nat.add_le_add_right ?_ _) (h f)
    by_cases hf : f = child.processFile
    · simpa [ChildPool.exit, remove, hf] using hle
    · simp [ChildPool.exit, remove, hf]
  | clean => exact fun f => le_trans (Nat.add_le_add_right (Nat.zero_le _) _) (h f)

/-! ### Runs -/

/-- What holds of the pool after some steps. -/
structure Inv (quiet : Prop) (concurrency : ℕ) (p : ChildPool) : Prop where
  kept : ∃ place, p.Kept quiet place
  within : p.Within
  length : p.calls.length = concurrency
  tracked : quiet → p.DistinctIds → p.Tracked

theorem length_step {a : PoolAction} (hp : p.Steps a p') : p'.calls.length = p.calls.length := by
  cases hp with
  | process hcall =>
    unfold retain
    split
    · split <;> simp
    · simp
  | initialized hcall hchild =>
    unfold ChildPool.initialized
    dsimp only
    split <;> simp
  | finish hcall hchild =>
    unfold ChildPool.finish
    dsimp only
    split <;> simp [release]
  | exit hchild => rfl
  | clean => rfl

theorem Inv.step {n : ℕ} {a : PoolAction} (h : Inv quiet n p) (hp : p.Steps a p') :
    Inv (quiet ∧ a ≠ .clean) n p' := by
  obtain ⟨place, hk⟩ := h.kept
  exact ⟨hk.step hp, h.within.step hk hp, (length_step hp).trans h.length, fun hq hids =>
    have hids' := hids.of_step hp
    (h.tracked hq.1 hids').step hk hids' hq.2 hp⟩

theorem Inv.mono {quiet' : Prop} {n : ℕ} (h : Inv quiet n p) (hq : quiet' → quiet) :
    Inv quiet' n p :=
  ⟨h.kept.imp fun _ hk => hk.mono hq, h.within, h.length, fun hquiet => h.tracked (hq hquiet)⟩

theorem Inv.run {n : ℕ} {actions : List PoolAction} (h : Inv quiet n p)
    (hrun : p.run actions = some p') : Inv (quiet ∧ .clean ∉ actions) n p' := by
  induction actions generalizing quiet p with
  | nil =>
    obtain rfl : p = p' := Option.some.inj hrun
    exact h.mono And.left
  | cons a actions ih =>
    obtain ⟨p₁, hstep, hrest⟩ : ∃ p₁, p.step a = some p₁ ∧ p₁.run actions = some p' :=
      Option.bind_eq_some_iff.mp hrun
    refine (ih (h.step (steps_of_step hstep)) hrest).mono fun ⟨hq, hclean⟩ => ?_
    rw [List.mem_cons, not_or] at hclean
    exact ⟨⟨hq, fun ha => hclean.1 ha.symm⟩, hclean.2⟩

theorem ofConcurrency_inv (n : ℕ) (threads : Bool) : Inv True n (ofConcurrency n threads) := by
  have hidle (i : ℕ) (s : Sandbox) (hs : (ofConcurrency n threads).calls[i]? = some s) :
      s = .idle := by
    simp only [ofConcurrency, List.getElem?_replicate] at hs
    split at hs <;> simp_all
  have hholds (i c : ℕ) : (ofConcurrency n threads).holds i ≠ some c := fun hi => by
    obtain ⟨s, hs, hc⟩ := Option.bind_eq_some_iff.mp hi
    simp [hidle i s hs, Sandbox.child] at hc
  refine ⟨⟨fun _ => .gone, by simp [hholds], by simp [ofConcurrency], by simp [ofConcurrency],
    fun c => ⟨by simp, by simp, by simp⟩⟩, fun file => ?_,
    by simp [ofConcurrency], fun _ _ i file c child hi => ?_⟩
  · simp only [ofConcurrency, List.length_nil, Nat.zero_add]
    exact List.countP_le_length
  · exact absurd (hidle i _ hi) (by simp)

end ChildPool

variable {n : ℕ} {threads : Bool} {actions : List PoolAction} {p : ChildPool}

/-- **What the pool lends out.** Whatever the order in which calls begin and end, children answer
and exit and the pool is closed: no child is held by two calls; a free child has loaded the file it
is free for, has not exited, is there once and held by no call; a child in use has loaded the file
of the call's processor, so that one that failed to initialize is never used again; and no more
children of a file are free or lent out than the worker's concurrency. -/
theorem childPool_lends_once (hrun : (ChildPool.ofConcurrency n threads).run actions = some p) :
    (∀ i j c, p.holds i = some c → p.holds j = some c → i = j) ∧
      (∀ processFile, (p.free processFile).Nodup ∧ ∀ c ∈ p.free processFile,
        (∀ i, p.holds i ≠ some c) ∧ ∃ child, p.children[c]? = some child ∧
          child.processFile = processFile ∧ child.init = some true ∧ child.exited = false) ∧
      (∀ (i : ℕ) processFile c, p.calls[i]? = some (.using processFile c) →
        ∃ child, p.children[c]? = some child ∧ child.processFile = processFile ∧
          child.init = some true) ∧
      ∀ processFile, (p.free processFile).length + p.busy processFile ≤ n := by
  have h := (ChildPool.ofConcurrency_inv n threads).run hrun
  -- Each child is in one place, which is what both parts about holders come from.
  obtain ⟨place, hk⟩ := h.kept
  refine ⟨fun i j c hi hj => ?_, fun file => ⟨hk.nodup file, fun c hc => ⟨fun i hi => ?_, ?_⟩⟩,
    fun i file c hi => ?_, fun file => h.length ▸ h.within file⟩
  · have hplace := ((hk.holds i c).mp hi).symm.trans ((hk.holds j c).mp hj)
    exact ChildPool.Place.held.inj hplace
  · simpa [(hk.holds i c).mp hi] using ((hk.free file c).mp hc).1
  · obtain ⟨hfree, hfile⟩ := (hk.free file c).mp hc
    obtain ⟨child, hchild, hinit, hlive⟩ := (hk.fits c).free hfree
    exact ⟨child, hchild, by simpa [hchild] using hfile, hinit, hlive⟩
  · have hheld := (hk.holds i c).mp (by simp [ChildPool.holds, hi, Sandbox.child])
    obtain ⟨child, hchild, hfile, hinit⟩ := (hk.fits c).held i _ hheld hi
    obtain rfl : file = child.processFile := by simpa [Sandbox.processFile] using hfile
    exact ⟨child, hchild, rfl, hinit rfl⟩

/-- **What closing the pool reaches.** Until the pool is closed, it has sent no signal to a child
that is free or held by a call. If no two children have had the same id and no thread the id 1,
`clean` sends one to every child that is free or in use and has not exited. -/
theorem clean_kills (hrun : (ChildPool.ofConcurrency n threads).run actions = some p)
    (hopen : .clean ∉ actions) :
    (∀ c child, p.children[c]? = some child →
      (c ∈ p.free child.processFile ∨ ∃ i, p.holds i = some c) → child.killed = false) ∧
    (p.DistinctIds → ∀ c child, p.children[c]? = some child → child.exited = false →
      (c ∈ p.free child.processFile ∨
        ∃ (i : ℕ) (processFile : String), p.calls[i]? = some (.using processFile c)) →
      p.clean.children[c]? = some { child with killed := true }) := by
  have h := (ChildPool.ofConcurrency_inv n threads).run hrun
  obtain ⟨place, hk⟩ := h.kept
  refine ⟨fun c child hchild hc => ?_, fun hids c child hchild hlive hc => ?_⟩
  · have hplace : place c ≠ .gone := by
      rcases hc with hfree | ⟨i, hi⟩
      · simp [((hk.free _ c).mp hfree).1]
      · simp [(hk.holds i c).mp hi]
    exact (hk.fits c).unharmed ⟨trivial, hopen⟩ hplace child hchild
  · have hknows : p.Knows child c := by
      rcases hc with hfree | ⟨i, file, hi⟩
      · exact .inr hfree
      · exact .inl (h.tracked ⟨trivial, hopen⟩ hids i file c child hi hchild hlive)
    simp [ChildPool.clean, hchild, hknows, hlive]

/-- Two calls fork a child each; one releases its child to a third call; a child fails. -/
def threeCalls : List PoolAction :=
  [.process 0 "a.js" 10, .process 1 "a.js" 11, .initialized 0 true, .initialized 1 false, .finish 0,
    .process 1 "a.js" 12]

theorem childPool_lends_once_sample :
    ∃ p, (ChildPool.ofConcurrency 2 false).run threeCalls = some p ∧
      p.calls[1]? = some (.using "a.js" 0) ∧ p.free "a.js" = [] ∧
      (p.free "a.js").length + p.busy "a.js" ≤ 2 := by
  have hsome : ((ChildPool.ofConcurrency 2 false).run threeCalls).isSome = true := by decide
  obtain ⟨p, hrun⟩ := Option.isSome_iff_exists.mp hsome
  have hstate : ((ChildPool.ofConcurrency 2 false).run threeCalls).map
      (fun p => (p.calls[1]?, p.free "a.js")) = some (some (.using "a.js" 0), []) := by decide
  rw [hrun] at hstate
  obtain ⟨hcall, hfree⟩ := Prod.mk.inj (Option.some.inj hstate)
  exact ⟨p, hrun, hcall, hfree, (childPool_lends_once hrun).2.2.2 "a.js"⟩

theorem clean_kills_sample :
    ∃ (p : ChildPool) (child : Child), (ChildPool.ofConcurrency 2 true).run threeCalls = some p ∧
      p.children[0]? = some child ∧ child.killed = false ∧
      p.clean.children[0]? = some { child with killed := true } := by
  have hsome : ((ChildPool.ofConcurrency 2 true).run threeCalls).isSome = true := by decide
  obtain ⟨p, hrun⟩ := Option.isSome_iff_exists.mp hsome
  have hstate : ((ChildPool.ofConcurrency 2 true).run threeCalls).map
      (fun p => (p.calls[1]?, p.children)) = some (some (.using "a.js" 0),
        [{ processFile := "a.js", id := 10, init := some true },
          { processFile := "a.js", id := 11, init := some false, killed := true }]) := by decide
  rw [hrun] at hstate
  obtain ⟨hcall, hchildren⟩ := Prod.mk.inj (Option.some.inj hstate)
  obtain ⟨hunharmed, hkilled⟩ := clean_kills hrun (by decide)
  have hids : p.DistinctIds := ⟨by simp [hchildren], by simp [hchildren]⟩
  have hchild : p.children[0]? = some { processFile := "a.js", id := 10, init := some true } := by
    rw [hchildren]
    rfl
  exact ⟨p, _, hrun, hchild,
    hunharmed 0 _ hchild (.inr ⟨1, by simp [ChildPool.holds, hcall, Sandbox.child]⟩),
    hkilled hids 0 _ hchild rfl (.inr ⟨1, "a.js", hcall⟩)⟩

end BullMQ
