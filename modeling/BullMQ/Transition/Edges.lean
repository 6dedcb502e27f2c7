import Mathlib.Logic.Relation
import Mathlib.Order.WellFounded

/-!
# Graphs that lose and gain edges

A relation `r a b` is read as an edge from `a` to `b`. `reflTransGen_or_of_lost` follows a path
through a graph that has lost edges, `wellFounded_of_edge` adds one edge to a graph in which every
descent ends: the new edge may not close a cycle.
-/

namespace Transition

open Relation

variable {α : Type} {r r' : α → α → Prop} {a d : α}

/-- If only edges into `B` are lost, a path is still there, or its end can be reached from `B`. -/
theorem reflTransGen_or_of_lost {B : α → Prop} (h : ∀ a b, r a b → r' a b ∨ B b)
    (hpath : ReflTransGen r a d) :
    ReflTransGen r' a d ∨ ∃ b, B b ∧ ReflTransGen r' b d := by
  induction hpath using ReflTransGen.head_induction_on with
  | refl => exact .inl .refl
  | @head a b hab _ ih =>
    rcases ih with hbd | hlost
    · rcases h a b hab with hab' | hb
      · exact .inl (.head hab' hbd)
      · exact .inr ⟨b, hb, hbd⟩
    · exact .inr hlost

/-- Where every descent ends, no element is below itself. -/
theorem not_transGen_self (h : WellFounded fun b a => r a b) (a : α) : ¬ TransGen r a a := by
  intro hcycle
  have hwf : WellFounded (TransGen fun b a => r a b) := h.transGen
  exact hwf.irrefl.irrefl a (transGen_swap.mp hcycle)

/-- One more edge, to an element from which its source cannot be reached. -/
theorem wellFounded_of_edge (h : WellFounded fun b a => r a b) {a₀ b₀ : α}
    (hedge : ¬ ReflTransGen r b₀ a₀) (h' : ∀ a b, r' a b → r a b ∨ a = a₀ ∧ b = b₀) :
    WellFounded fun b a => r' a b := by
  -- Below `b₀` the new edge does not occur.
  have hbelow : ∀ b, ReflTransGen r b₀ b → Acc (fun b a => r' a b) b := by
    intro b
    induction b using h.induction with
    | _ b ih =>
      intro hb
      refine ⟨b, fun c hc => ?_⟩
      rcases h' b c hc with hbc | ⟨rfl, -⟩
      · exact ih c hbc (hb.tail hbc)
      · exact absurd hb hedge
  refine ⟨fun a => ?_⟩
  induction a using h.induction with
  | _ a ih =>
    refine ⟨a, fun b hb => ?_⟩
    rcases h' a b hb with hab | ⟨-, rfl⟩
    · exact ih b hab
    · exact hbelow b .refl

end Transition
