import Mathlib.Data.Prod.Lex
import Mathlib.Logic.Relation
import Mathlib.Order.OrderDual

/-! # Relations without cycles

A relation whose steps go up in some order, but for the steps to a sink, has no cycle
(`acyclic_of_rank`). Distance vector protocols order their routes by `rank`: a larger sequence number,
then a smaller distance.
-/

namespace Acyclic

theorem acyclic_of_rank {α β : Type} [Preorder β] {r : α → α → Prop} {sink : α} (rank : α → β)
    (hup : ∀ a b, r a b → b = sink ∨ rank a < rank b) (hsink : ∀ b, ¬ r sink b) (a : α) :
    ¬ Relation.TransGen r a a := by
  have hpath : ∀ a b, Relation.TransGen r a b → b = sink ∨ rank a < rank b := by
    intro a b hab
    induction hab with
    | single hstep => exact hup _ _ hstep
    | tail _ hstep ih =>
      rcases ih with rfl | hlt
      · exact absurd hstep (hsink _)
      · exact (hup _ _ hstep).imp_right hlt.trans
  intro hcycle
  rcases hpath a a hcycle with rfl | hlt
  · obtain ⟨b, hstep, -⟩ := Relation.TransGen.head'_iff.mp hcycle
    exact hsink b hstep
  · exact lt_irrefl _ hlt

/-- The rank of a route: a larger number, then a smaller distance. -/
def rank (seqno distance : ℕ) : ℕ ×ₗ ℕᵒᵈ := toLex (seqno, OrderDual.toDual distance)

variable {s h s' h' : ℕ}

theorem rank_le_iff : rank s h ≤ rank s' h' ↔ s < s' ∨ s = s' ∧ h' ≤ h :=
  Prod.Lex.toLex_le_toLex

theorem rank_lt_iff : rank s h < rank s' h' ↔ s < s' ∨ s = s' ∧ h' < h :=
  Prod.Lex.toLex_lt_toLex

theorem seqno_le_of_rank_le (hle : rank s h ≤ rank s' h') : s ≤ s' := by
  rcases rank_le_iff.mp hle with hlt | ⟨heq, -⟩
  · exact hlt.le
  · exact heq.le

end Acyclic
