import Mathlib.Algebra.Order.Ring.Nat

/-!
# Work lists

A loop that takes the first item of a list and puts items of smaller rank in its place comes to an
end, however many they are (`Work.wellFounded`). The bound depends on the items, so the loop is
justified by the order and not by a number.
-/

namespace Tarmac.Work

variable {α : Type}

/-- `l'` is `l` with its first item replaced by items of smaller rank. -/
def Less (rank : α → Nat) (l' l : List α) : Prop :=
  ∃ a rest new, l = a :: rest ∧ l' = new ++ rest ∧ ∀ b ∈ new, rank b < rank a

/-- By induction on the bound, elements of lower rank may take the place of the first. -/
theorem acc_cons {rank : α → Nat} (n : Nat) :
    ∀ a, rank a < n → ∀ rest, Acc (Less rank) rest → Acc (Less rank) (a :: rest) := by
  induction n with
  | zero => intro a ha; omega
  | succ n ih =>
    intro a ha rest hrest
    refine .intro _ ?_
    rintro l' ⟨a', rest', new, heq, rfl, hnew⟩
    cases heq
    -- the new items are accessible one after another, from the last to the first
    induction new with
    | nil => exact hrest
    | cons b new ihn =>
      have hb := hnew b (.head _)
      exact ih b (by omega) _ (ihn fun b hb => hnew b (.tail _ hb))

/-- The order of work lists is well-founded. -/
theorem wellFounded (rank : α → Nat) : WellFounded (Less rank) := by
  refine ⟨fun l => ?_⟩
  induction l with
  | nil =>
    refine .intro _ ?_
    rintro l' ⟨a, rest, new, heq, -, -⟩
    cases heq
  | cons a rest ih => exact acc_cons (rank a + 1) a (Nat.lt_succ_self _) rest ih

end Tarmac.Work
