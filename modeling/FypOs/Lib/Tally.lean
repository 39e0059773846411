import Mathlib.Algebra.Order.BigOperators.Group.Finset

/-!
# Lib — tallies over processes

A tally adds up something per process.  A step of one process changes one summand.
-/

namespace FypOs.Lib
open Function

variable {P α : Type} [Fintype P]

/-- Changing the record of one process exchanges its summand. -/
lemma tally_update {M : Type} [AddCommMonoid M] [DecidableEq P] (g : α → M) (f : P → α) (p : P)
    (x : α) : (∑ q, g (update f p x q)) + g (f p) = (∑ q, g (f q)) + g x := by
  have hrest : ∑ q ∈ Finset.univ.erase p, g (update f p x q) = ∑ q ∈ Finset.univ.erase p, g (f q) :=
    Finset.sum_congr rfl fun q hq => by rw [update_of_ne (Finset.ne_of_mem_erase hq)]
  rw [← Finset.sum_erase_add _ _ (Finset.mem_univ p), hrest, update_self,
    ← Finset.sum_erase_add _ _ (Finset.mem_univ p), add_right_comm]

/-- A step that leaves the summand of its process alone leaves the tally alone. -/
lemma tally_update_eq [DecidableEq P] {g : α → Nat} {f : P → α} {p : P} {x : α} (h : g x = g (f p)) :
    ∑ q, g (update f p x q) = ∑ q, g (f q) := by
  have := tally_update g f p x
  omega

/-- One process's summand is at most the tally. -/
lemma le_tally (g : α → Nat) (f : P → α) (p : P) : g (f p) ≤ ∑ q, g (f q) :=
  Finset.single_le_sum (f := fun q => g (f q)) (fun _ _ => Nat.zero_le _) (Finset.mem_univ p)

lemma sum_count [DecidableEq P] (l : List P) : ∑ a, l.count a = l.length := by
  have := Multiset.sum_count_eq_card (s := Finset.univ) (m := (l : Multiset P))
    fun a _ => Finset.mem_univ a
  simpa using this

end FypOs.Lib
