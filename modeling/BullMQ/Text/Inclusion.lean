import Mathlib.Data.List.Basic
import Mathlib.Data.Set.Insert
import Mathlib.Logic.Relation

/-!
# Texts that include each other

A node is a list of slots, each a text and the node that is included after it, and a last text. The
texts of a node can be put out with those of each included node in the place of its slot, unless
they have been put out before (`Emission`). If the inclusions have no cycle, the texts of each node
that is included are put out exactly once and in order, and before what follows any slot with that
node.
-/

namespace Inclusion

open Relation

variable {P T : Type} [DecidableEq P] {slots : P → List (T × P)} {last : P → T}
  {p q r c : P} {t : T}
  {front : List (T × P)} {before now after : Set P} {pieces childPieces added : List (P × T)}

/-- The one node includes the other one. -/
def Includes (slots : P → List (T × P)) (p q : P) : Prop := q ∈ (slots p).map (·.2)

def texts (slots : P → List (T × P)) (last : P → T) (p : P) : List T :=
  (slots p).map (·.1) ++ [last p]

/-- The texts of a node among some pieces. -/
def textsOf (q : P) (pieces : List (P × T)) : List T :=
  (pieces.filter (·.1 = q)).map (·.2)

/-- The slots of a list lead to the node. -/
def Leads (slots : P → List (T × P)) (front : List (T × P)) (q : P) : Prop :=
  ∃ c ∈ front.map (·.2), ReflTransGen (Includes slots) c q

/-- A node whose texts have been put out has those that it includes put out. -/
def Closed (slots : P → List (T × P)) (before : Set P) : Prop :=
  ∀ q ∈ before, ∀ r, TransGen (Includes slots) q r → r ∈ before

/-- What a node includes before one of its texts is not put out after that text. -/
def InOrder (slots : P → List (T × P)) (pieces : List (P × T)) : Prop :=
  ∀ xs q t ys, pieces = xs ++ (q, t) :: ys →
    ∀ r ∈ ((slots q).take (textsOf q xs).length).map (·.2), ∀ piece ∈ ys, piece.1 ≠ r

/-- The node and all that it includes have been put out, apart from what had been before. -/
structure Emission (slots : P → List (T × P)) (last : P → T) (p : P) (before after : Set P)
    (pieces : List (P × T)) : Prop where
  after_iff : ∀ q, q ∈ after ↔ q ∈ before ∨ TransGen (Includes slots) p q
  once : ∀ q, q = p ∨ TransGen (Includes slots) p q ∧ q ∉ before →
    textsOf q pieces = texts slots last q
  only : ∀ piece ∈ pieces,
    piece.1 = p ∨ TransGen (Includes slots) p piece.1 ∧ piece.1 ∉ before
  order : InOrder slots pieces

/-- Some slots of the node have been put out, with all that they lead to. -/
structure Emitting (slots : P → List (T × P)) (last : P → T) (p : P) (front : List (T × P))
    (before now : Set P) (pieces : List (P × T)) : Prop where
  now_iff : ∀ q, q ∈ now ↔ q ∈ before ∨ Leads slots front q
  self : textsOf p pieces = front.map (·.1)
  once : ∀ q, Leads slots front q → q ∉ before → textsOf q pieces = texts slots last q
  only : ∀ piece ∈ pieces, piece.1 = p ∨ Leads slots front piece.1 ∧ piece.1 ∉ before
  order : InOrder slots pieces

omit [DecidableEq P] in
/-- A node from which each way ends leads to no cycle. -/
theorem not_transGen_of_acc {R : P → P → Prop} (hp : Acc (fun q p => R p q) p)
    (hq : ReflTransGen R p q) : ¬ TransGen R q q := by
  have hacc : Acc (fun q p => R p q) q := by
    induction hq with
    | refl => exact hp
    | tail _ hstep ih => exact ih.inv hstep
  clear hq
  induction hacc with
  | intro q _ ih =>
    intro hcycle
    obtain ⟨r, hstep, hback⟩ := TransGen.head'_iff.mp hcycle
    exact ih r hstep (.tail' hback hstep)

omit [DecidableEq P] in
/-- Two relations that agree where the first one leads lead to the same nodes. -/
theorem reflTransGen_of_agree {R S : P → P → Prop} {A : P → Prop}
    (hclosed : ∀ p, A p → ∀ q, R p q → A q) (hagree : ∀ p, A p → ∀ q, R p q → S p q) (hp : A p)
    (h : ReflTransGen R p q) : ReflTransGen S p q ∧ A q := by
  induction h with
  | refl => exact ⟨.refl, hp⟩
  | tail _ hstep ih => exact ⟨ih.1.tail (hagree _ ih.2 _ hstep), hclosed _ ih.2 _ hstep⟩

omit [DecidableEq P] in
theorem transGen_of_agree {R S : P → P → Prop} {A : P → Prop}
    (hclosed : ∀ p, A p → ∀ q, R p q → A q) (hagree : ∀ p, A p → ∀ q, R p q → S p q) (hp : A p)
    (h : TransGen R p q) : TransGen S p q := by
  obtain ⟨r, hr, hstep⟩ := TransGen.tail'_iff.mp h
  obtain ⟨hr, hA⟩ := reflTransGen_of_agree hclosed hagree hp hr
  exact .tail' hr (hagree _ hA _ hstep)

theorem textsOf_append (q : P) (xs ys : List (P × T)) :
    textsOf q (xs ++ ys) = textsOf q xs ++ textsOf q ys := by
  simp [textsOf]

theorem textsOf_cons_self (q : P) (t : T) (ys : List (P × T)) :
    textsOf q ((q, t) :: ys) = t :: textsOf q ys := by
  simp [textsOf]

theorem textsOf_cons_of_ne (h : p ≠ q) (t : T) (ys : List (P × T)) :
    textsOf q ((p, t) :: ys) = textsOf q ys := by
  simp [textsOf, h]

theorem textsOf_eq_nil (h : ∀ piece ∈ pieces, piece.1 ≠ q) : textsOf q pieces = [] := by
  simpa [textsOf] using h

omit [DecidableEq P] in
theorem leads_concat :
    Leads slots (front ++ [(t, c)]) q ↔ Leads slots front q ∨
    ReflTransGen (Includes slots) c q := by
  simp [Leads, or_and_right, exists_or]

omit [DecidableEq P] in
theorem Leads.includes (h : Leads slots front q) (hr : Includes slots q r) :
    Leads slots front r := by
  obtain ⟨c, hc, hq⟩ := h
  exact ⟨c, hc, hq.tail hr⟩

omit [DecidableEq P] in
/-- What the slots of a node lead to is what it includes, directly or not. -/
theorem leads_slots : Leads slots (slots p) q ↔ TransGen (Includes slots) p q := by
  rw [TransGen.head'_iff]
  rfl

omit [DecidableEq P] in
theorem Leads.of_prefix (h : Leads slots front q) (hfront : front <+: slots p) :
    TransGen (Includes slots) p q := by
  obtain ⟨c, hc, hq⟩ := h
  exact leads_slots.mp ⟨c, (hfront.sublist.map _).mem hc, hq⟩

theorem emitting_nil (slots : P → List (T × P)) (last : P → T) (p : P) (before : Set P) :
    Emitting slots last p [] before before [] where
  now_iff q := by simp [Leads]
  self := rfl
  once q h := by simp [Leads] at h
  only := by simp
  order xs q t ys h := by simp at h

theorem Emitting.closed (h : Emitting slots last p front before now pieces)
    (hbefore : Closed slots before) : Closed slots now := by
  intro q hq r hr
  rw [h.now_iff] at hq ⊢
  obtain hq | ⟨c, hc, hq⟩ := hq
  · exact .inl (hbefore q hq r hr)
  · exact .inr ⟨c, hc, hq.trans hr.to_reflTransGen⟩

/-! ### A slot -/

/-- A piece of a node is preceded by all that the node includes before it. -/
theorem Emitting.mem_now_of_take (h : Emitting slots last p front before now pieces)
    (hfront : front <+: slots p) (hp : ¬ TransGen (Includes slots) p p)
    {xs ys : List (P × T)} (heq : pieces = xs ++ (q, t) :: ys)
    (hr : r ∈ ((slots q).take (textsOf q xs).length).map (·.2)) : r ∈ now ∧ p ≠ r := by
  have hmem : (q, t) ∈ pieces := by simp [heq]
  have hincludes : Includes slots q r := ((List.take_sublist _ _).map _).mem hr
  obtain rfl | ⟨hlead, -⟩ := h.only _ hmem
  · have hlength : (textsOf q xs).length ≤ front.length := by
      have hself := congrArg List.length h.self
      simp only [heq, textsOf_append, List.length_append, List.length_map] at hself
      omega
    obtain ⟨back, hback⟩ := hfront
    rw [← hback, List.take_append_of_le_length hlength] at hr
    have hmem : r ∈ front.map (·.2) := ((List.take_sublist _ _).map _).mem hr
    refine ⟨(h.now_iff r).mpr (.inr ⟨r, hmem, .refl⟩), ?_⟩
    rintro rfl
    exact hp (.single hincludes)
  · have hlead := Leads.includes hlead hincludes
    refine ⟨(h.now_iff r).mpr (.inr hlead), ?_⟩
    rintro rfl
    exact hp (hlead.of_prefix hfront)

/-- The pieces of a further slot come in order after those that are there. -/
theorem Emitting.order_concat (h : Emitting slots last p front before now pieces)
    (hfronts : front <+: slots p) (hp : ¬ TransGen (Includes slots) p p)
    (hchild : InOrder slots childPieces)
    (honly : ∀ piece ∈ childPieces, piece.1 ∉ now ∧ piece.1 ≠ p) :
    InOrder slots (pieces ++ (p, t) :: childPieces) := by
  have hnow : ∀ r, r ∈ now ∧ p ≠ r → ∀ piece ∈ (p, t) :: childPieces, piece.1 ≠ r := by
    rintro r ⟨hr, hne⟩ piece hpiece rfl
    obtain rfl | hpiece := List.mem_cons.mp hpiece
    · exact hne rfl
    · exact (honly piece hpiece).1 hr
  have hmiddle : ∀ r ∈ ((slots p).take (textsOf p pieces).length).map (·.2),
      ∀ piece ∈ childPieces, piece.1 ≠ r := by
    rintro r hr piece hpiece rfl
    obtain ⟨back, hback⟩ := hfronts
    rw [h.self, List.length_map, ← hback, List.take_left] at hr
    exact (honly piece hpiece).1 ((h.now_iff _).mpr (.inr ⟨_, hr, .refl⟩))
  intro xs q u ys heq r hr
  obtain ⟨mid, rfl, hmid⟩ | ⟨mid, hpieces, hmid⟩ := List.append_eq_append_iff.mp heq
  · cases mid with
    | nil =>
      rw [List.nil_append] at hmid
      obtain ⟨⟨rfl, rfl⟩, rfl⟩ := List.cons_eq_cons.mp hmid
      rw [List.append_nil] at hr
      exact hmiddle r hr
    | cons first xs =>
      rw [List.cons_append] at hmid
      obtain ⟨rfl, rfl⟩ := List.cons_eq_cons.mp hmid
      -- the texts of `q` are all among the pieces of the slot
      have hq := honly (q, u) (by simp)
      have hnone : textsOf q (pieces ++ (p, t) :: xs) = textsOf q xs := by
        rw [textsOf_append, textsOf_cons_of_ne hq.2.symm, textsOf_eq_nil, List.nil_append]
        rintro piece hpiece rfl
        obtain hself | ⟨hlead, -⟩ := h.only piece hpiece
        · exact hq.2 hself
        · exact hq.1 ((h.now_iff _).mpr (.inr hlead))
      rw [hnone] at hr
      exact hchild xs q u ys rfl r hr
  · cases mid with
    | nil =>
      rw [List.nil_append] at hmid
      obtain ⟨⟨rfl, rfl⟩, rfl⟩ := List.cons_eq_cons.mp hmid
      rw [List.append_nil] at hpieces
      rw [← hpieces] at hr
      exact hmiddle r hr
    | cons first mid =>
      rw [List.cons_append] at hmid
      obtain ⟨rfl, rfl⟩ := List.cons_eq_cons.mp hmid
      intro piece hpiece
      obtain hpiece | hpiece := List.mem_append.mp hpiece
      · exact h.order xs q u mid hpieces r hr piece hpiece
      · exact hnow r (h.mem_now_of_take hfronts hp hpieces hr) piece hpiece

/-- A further slot of the node, with a node that has been put out before or not. -/
theorem Emitting.concat (h : Emitting slots last p front before now pieces)
    (hfront : front ++ [(t, c)] <+: slots p) (hp : ¬ TransGen (Includes slots) p p)
    (hbefore : Closed slots before) (hchild : Emission slots last c now after childPieces)
    (hadded : c ∈ now ∧ added = [] ∨ c ∉ now ∧ added = childPieces) :
    Emitting slots last p (front ++ [(t, c)]) before (insert c after)
      (pieces ++ (p, t) :: added) := by
  have hfronts : front <+: slots p := (List.prefix_append front _).trans hfront
  have hc : TransGen (Includes slots) p c :=
    .single ((hfront.sublist.map _).mem (by simp))
  -- The pieces of the included file are texts of files that had not been written, and not of `p`.
  have honly : ∀ piece ∈ added,
      piece.1 ∉ now ∧ piece.1 ≠ p ∧ ReflTransGen (Includes slots) c piece.1 := by
    intro piece hpiece
    obtain ⟨-, rfl⟩ | ⟨hnow, rfl⟩ := hadded
    · cases hpiece
    · obtain heq | ⟨htrans, hnot⟩ := hchild.only piece hpiece
      · rw [heq]
        exact ⟨hnow, fun hcp => hp (hcp ▸ hc), .refl⟩
      · exact ⟨hnot, fun heq => hp (heq ▸ hc.trans htrans), htrans.to_reflTransGen⟩
  have horder : InOrder slots added := by
    obtain ⟨-, rfl⟩ | ⟨-, rfl⟩ := hadded
    · intro xs q t ys heq
      simp at heq
    · exact hchild.order
  -- So they add no second text of `p`, nor of a file that was written before.
  have hself : ∀ q, q = p ∨ q ∈ now → textsOf q added = [] := by
    intro q hq
    refine textsOf_eq_nil fun piece hpiece heq => ?_
    obtain ⟨hnot, hne, -⟩ := honly piece hpiece
    rw [heq] at hnot hne
    exact hq.elim hne hnot
  refine ⟨fun q => ?_, ?_, fun q hq hnot => ?_, fun piece hpiece => ?_,
    h.order_concat hfronts hp horder fun piece hpiece => ⟨(honly piece hpiece).1,
      (honly piece hpiece).2.1⟩⟩
  · rw [Set.mem_insert_iff, hchild.after_iff, h.now_iff, leads_concat,
      reflTransGen_iff_eq_or_transGen]
    tauto
  · rw [textsOf_append, textsOf_cons_self, h.self, hself p (.inl rfl), List.map_append]
    rfl
  · have hne : p ≠ q := by
      rintro rfl
      exact hp (hq.of_prefix hfront)
    rw [textsOf_append, textsOf_cons_of_ne hne]
    by_cases hfirst : Leads slots front q
    · rw [h.once q hfirst hnot, hself q (.inr ((h.now_iff q).mpr (.inr hfirst))), List.append_nil]
    · -- A file that is first reached through the new slot has its texts in `added`.
      have hreach := (leads_concat.mp hq).resolve_left hfirst
      have hqnow : q ∉ now := fun hmem => ((h.now_iff q).mp hmem).elim hnot hfirst
      have hnone : textsOf q pieces = [] := by
        refine textsOf_eq_nil fun piece hpiece heq => ?_
        obtain hself | ⟨hlead, -⟩ := h.only piece hpiece
        · exact hne (hself.symm.trans heq)
        · exact hfirst (heq ▸ hlead)
      have hcnow : c ∉ now := by
        intro hmem
        obtain rfl | htrans := reflTransGen_iff_eq_or_transGen.mp hreach
        · exact hqnow hmem
        · exact hqnow (h.closed hbefore c hmem q htrans)
      obtain ⟨hmem, -⟩ | ⟨-, rfl⟩ := hadded
      · exact absurd hmem hcnow
      · rw [hnone, List.nil_append]
        exact hchild.once q ((reflTransGen_iff_eq_or_transGen.mp hreach).imp_right (⟨·, hqnow⟩))
  · obtain hpiece | hpiece := List.mem_append.mp hpiece
    · exact (h.only piece hpiece).imp_right fun hlead => ⟨leads_concat.mpr (.inl hlead.1), hlead.2⟩
    · obtain rfl | hpiece := List.mem_cons.mp hpiece
      · exact .inl rfl
      · obtain ⟨hnot, -, hreach⟩ := honly piece hpiece
        exact .inr ⟨leads_concat.mpr (.inr hreach),
          fun hmem => hnot ((h.now_iff _).mpr (.inl hmem))⟩

/-- The last text of the node. -/
theorem Emitting.finish (h : Emitting slots last p (slots p) before now pieces)
    (hp : ¬ TransGen (Includes slots) p p) :
    Emission slots last p before now (pieces ++ [(p, last p)]) := by
  refine ⟨fun q => ?_, fun q hq => ?_, fun piece hpiece => ?_,
    h.order_concat List.prefix_rfl hp (fun xs q t ys heq => by simp at heq) (by simp)⟩
  · rw [h.now_iff, leads_slots]
  · rw [textsOf_append]
    obtain rfl | ⟨htrans, hnot⟩ := hq
    · rw [h.self, textsOf_cons_self]
      rfl
    · have hne : p ≠ q := by
        rintro rfl
        exact hp htrans
      rw [h.once q (leads_slots.mpr htrans) hnot, textsOf_cons_of_ne hne]
      exact List.append_nil _
  · obtain hpiece | hpiece := List.mem_append.mp hpiece
    · exact (h.only piece hpiece).imp_right fun hlead => ⟨leads_slots.mp hlead.1, hlead.2⟩
    · exact .inl (by rw [List.mem_singleton.mp hpiece])

end Inclusion
