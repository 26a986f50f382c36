import Mathlib.Algebra.Order.Ring.Nat

/-!
# Bisection

`std::lower_bound` on a list: the elements for which the predicate holds are skipped by halving the
part of the list the boundary lies in. An iterator is the list that begins at it. On a list that the
predicate partitions, the result is what skipping the elements one by one finds.
-/

namespace Tarmac

variable {α : Type}

/-- The loop of `std::lower_bound` from `first`, the boundary being within the next `len` elements;
`len` shrinks, so as many rounds are enough. -/
def lowerBoundLoop (p : α → Bool) : Nat → List α → Nat → List α
  | 0, first, _ => first
  | n + 1, first, len =>
    if len = 0 then first
    else
      match first.drop (len / 2) with
      | [] => first
      | mid :: rest =>
        if p mid then lowerBoundLoop p n rest (len - len / 2 - 1)
        else lowerBoundLoop p n first (len / 2)

/-- `std::lower_bound`, `p` telling whether an element is less than the one sought. -/
def lowerBound (p : α → Bool) (xs : List α) : List α := lowerBoundLoop p xs.length xs xs.length

/-- The elements for which the predicate holds come first. -/
def Partitioned (p : α → Bool) (xs : List α) : Prop := xs.Pairwise fun a b => p b → p a

/-- Nothing is dropped of a list none of whose elements satisfies the predicate. -/
theorem dropWhile_of_not {p : α → Bool} {xs : List α} (h : ∀ x ∈ xs, ¬p x) : xs.dropWhile p = xs := by
  cases xs with
  | nil => rfl
  | cons x xs => rw [List.dropWhile_cons, if_neg (h x (.head _))]

/-- The loop finds the end of the elements that satisfy the predicate, which come first. -/
theorem lowerBoundLoop_eq {p : α → Bool} {n : Nat} {first : List α} {len : Nat} (hn : len ≤ n)
    (hlen : len ≤ first.length) (hp : Partitioned p first) (hrest : ∀ x ∈ first.drop len, ¬p x) :
    lowerBoundLoop p n first len = first.dropWhile p := by
  induction n generalizing first len with
  | zero =>
    obtain rfl := Nat.le_zero.1 hn
    exact (dropWhile_of_not hrest).symm
  | succ n ih =>
    unfold lowerBoundLoop
    split
    · next hzero =>
      subst hzero
      exact (dropWhile_of_not hrest).symm
    · next hpos =>
      have hhalf : len / 2 < len := Nat.div_lt_self (by omega) (by omega)
      have hsplit := List.take_append_drop (len / 2) first
      have htake : (first.take (len / 2)).length = len / 2 := by
        rw [List.length_take]
        omega
      cases hdrop : first.drop (len / 2) with
      | nil =>
        have hshort := congrArg List.length hdrop
        rw [List.length_drop, List.length_nil] at hshort
        omega
      | cons mid rest =>
        rw [hdrop] at hsplit
        have hparts := hp
        rw [← hsplit] at hparts
        obtain ⟨-, htail, hcross⟩ := List.pairwise_append.1 hparts
        obtain ⟨hmid, hrestp⟩ := List.pairwise_cons.1 htail
        dsimp only
        split
        · next hpm =>
          -- the boundary is behind `mid`
          have hsame : rest.drop (len - len / 2 - 1) = first.drop len := by
            conv_rhs => rw [show len = len / 2 + ((len - len / 2 - 1) + 1) by omega, ← List.drop_drop,
              hdrop, List.drop_succ_cons]
          have hcount := congrArg List.length hsplit
          rw [List.length_append, List.length_cons, htake] at hcount
          rw [ih (by omega) (by omega) hrestp (hsame ▸ hrest), ← hsplit,
            List.dropWhile_append_of_pos fun x hx => hcross x hx mid (.head _) hpm,
            List.dropWhile_cons, if_pos hpm]
        · next hpm =>
          refine ih (by omega) (by omega) hp ?_
          rw [hdrop]
          intro x hx
          rcases List.mem_cons.1 hx with rfl | hx
          · exact hpm
          · exact fun hpx => hpm (hmid x hx hpx)

/-- On a partitioned list bisection finds the boundary. -/
theorem lowerBound_eq {p : α → Bool} {xs : List α} (h : Partitioned p xs) :
    lowerBound p xs = xs.dropWhile p :=
  lowerBoundLoop_eq (Nat.le_refl _) (Nat.le_refl _) h (by
    rw [List.drop_length]
    exact nofun)

end Tarmac
