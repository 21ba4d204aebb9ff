import Mathlib.Data.Finset.Card
import Mathlib.Data.Fintype.Card

/-!
# Majorities of a finite type

A quorum is a set of more than half of the members.  Two quorums meet, and
that one fact carries every agreement argument of the consensus library.
-/

namespace KvRaft

variable {N : Type} [Fintype N]

/-- More than half of the members. -/
def IsQuorum (Q : Finset N) : Prop := Fintype.card N < 2 * Q.card

/-- Two quorums have a member in common. -/
theorem IsQuorum.exists_common [DecidableEq N] {P Q : Finset N}
    (hP : IsQuorum P) (hQ : IsQuorum Q) : ∃ v, v ∈ P ∧ v ∈ Q := by
  have hcard : (Finset.univ : Finset N).card < P.card + Q.card := by
    rw [Finset.card_univ]
    unfold IsQuorum at hP hQ
    omega
  obtain ⟨v, hv⟩ := Finset.inter_nonempty_of_card_lt_card_add_card
    (Finset.subset_univ P) (Finset.subset_univ Q) hcard
  exact ⟨v, (Finset.mem_inter.mp hv).1, (Finset.mem_inter.mp hv).2⟩

end KvRaft
