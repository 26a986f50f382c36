import Mathlib.Algebra.Order.Ring.Nat
import Mathlib.Data.List.Induction

/-!
# Lexical paths

A path read component by component, without a look at the files. A component stays in its directory,
moves up, or moves down to a name (`Hop`); a directory is given by the names on the way from the root,
and nothing is above the root. `Hop.walk` follows the components, `Hop.walkWithin` gives up at a move
down that is not admitted.

A move down can be cancelled against the move up behind it, a move up at the root and a component that
stays against nothing (`Hop.Cancels`). What is left when nothing can be cancelled is the walk
(`Hop.cancels_walk`), and nothing else can be left (`Hop.walk_unique`): the walk is the normal form of
the path.
-/

namespace Tarmac

/-- What a component of a path does. -/
inductive Hop (α : Type) where
  | stay
  | up
  | down (name : α)

namespace Hop

variable {α : Type} {dirs : List α} {hops hops' : List (Hop α)}

/-- The directory a component leads to. -/
def apply : Hop α → List α → List α
  | stay, dirs => dirs
  | up, dirs => dirs.dropLast
  | down name, dirs => dirs ++ [name]

/-- The directory a path leads to. -/
def walk : List (Hop α) → List α → List α
  | [], dirs => dirs
  | hop :: hops, dirs => walk hops (hop.apply dirs)

/-- The directory a path leads to, if every move down on the way is admitted. -/
def walkWithin (admits : List α → α → Bool) : List (Hop α) → List α → Option (List α)
  | [], dirs => some dirs
  | down name :: hops, dirs =>
    if admits dirs name then walkWithin admits hops (dirs ++ [name]) else none
  | hop :: hops, dirs => walkWithin admits hops (hop.apply dirs)

/-- A walk along two paths, one after the other. -/
theorem walk_append (hops hops' : List (Hop α)) (dirs : List α) :
    walk (hops ++ hops') dirs = walk hops' (walk hops dirs) := by
  induction hops generalizing dirs with
  | nil => rfl
  | cons hop hops ih => exact ih _

/-- A walk that only goes down ends below where it began. -/
theorem walk_down (names dirs : List α) : walk (names.map down) dirs = dirs ++ names := by
  induction names generalizing dirs with
  | nil => exact (List.append_nil dirs).symm
  | cons name names ih =>
    show walk (names.map down) (dirs ++ [name]) = _
    rw [ih, List.append_assoc]
    rfl

/-! ## Limited walks -/

section

variable {admits : List α → α → Bool}

/-- The same for walks that may be refused. -/
theorem walkWithin_append (hops hops' : List (Hop α)) (dirs : List α) :
    walkWithin admits (hops ++ hops') dirs =
      (walkWithin admits hops dirs).bind (walkWithin admits hops') := by
  induction hops generalizing dirs with
  | nil => rfl
  | cons hop hops ih =>
    cases hop with
    | stay => exact ih _
    | up => exact ih _
    | down name =>
      rw [List.cons_append, walkWithin, walkWithin]
      split
      · exact ih _
      · rfl

/-- A limited walk that arrives is a walk. -/
theorem walk_of_within {end_ : List α} (h : walkWithin admits hops dirs = some end_) :
    end_ = walk hops dirs := by
  induction hops generalizing dirs with
  | nil =>
    cases h
    rfl
  | cons hop hops ih =>
    cases hop with
    | stay => exact ih h
    | up => exact ih h
    | down name =>
      rw [walkWithin] at h
      split at h
      · exact ih h
      · cases h

/-- A limited walk gives up at a move down that is not admitted where the walk has got to. -/
theorem walkWithin_eq_none_iff : walkWithin admits hops dirs = none ↔
    ∃ pre name post, hops = pre ++ down name :: post ∧ admits (walk pre dirs) name = false := by
  induction hops generalizing dirs with
  | nil => exact ⟨nofun, by rintro ⟨_ | _, _, _, h, _⟩ <;> cases h⟩
  | cons hop hops ih =>
    have htail {dirs' : List α} (hd : hop.apply dirs = dirs') :
        (∃ pre name post, hops = pre ++ down name :: post ∧ admits (walk pre dirs') name = false) ↔
        ∃ pre name post, hop :: hops = hop :: pre ++ down name :: post ∧
          admits (walk (hop :: pre) dirs) name = false := by
      subst hd
      simp only [List.cons_append, List.cons.injEq, true_and, walk]
    -- a bad move is the first one, or one further on
    have hsplit (hgood : ∀ name, hop = down name → admits dirs name = true) :
        (∃ pre name post, hop :: hops = hop :: pre ++ down name :: post ∧
          admits (walk (hop :: pre) dirs) name = false) ↔
        ∃ pre name post, hop :: hops = pre ++ down name :: post ∧
          admits (walk pre dirs) name = false := by
      constructor
      · rintro ⟨pre, name, post, h⟩
        exact ⟨hop :: pre, name, post, h⟩
      · rintro ⟨pre, name, post, heq, hbad⟩
        cases pre with
        | nil =>
          cases heq
          rw [walk, hgood name rfl] at hbad
          cases hbad
        | cons hop' pre =>
          obtain ⟨rfl, -⟩ := List.cons.inj heq
          exact ⟨pre, name, post, heq, hbad⟩
    cases hop with
    | stay => exact (ih.trans (htail rfl)).trans (hsplit nofun)
    | up => exact (ih.trans (htail rfl)).trans (hsplit nofun)
    | down name =>
      rw [walkWithin]
      split
      · next hok =>
        refine (ih.trans (htail rfl)).trans (hsplit fun name' h => ?_)
        cases h
        exact hok
      · next hbad => exact ⟨fun _ => ⟨[], name, hops, rfl, (Bool.not_eq_true _).mp hbad⟩, fun _ => rfl⟩

/-- Every name of a directory is admitted behind those before it. -/
def Admitted (admits : List α → α → Bool) (dirs : List α) : Prop :=
  ∀ pre name post, dirs = pre ++ name :: post → admits pre name = true

theorem Admitted.nil : Admitted admits [] := by
  rintro (_ | _) _ _ h <;> cases h

/-- What lies above an admitted place is admitted. -/
theorem Admitted.left {names : List α} (h : Admitted admits (dirs ++ names)) : Admitted admits dirs := by
  rintro pre name post rfl
  exact h pre name (post ++ names) (by rw [List.append_assoc, List.cons_append])

/-- The parent of an admitted place is admitted. -/
theorem Admitted.dropLast (h : Admitted admits dirs) : Admitted admits dirs.dropLast := by
  rcases List.eq_nil_or_concat dirs with rfl | ⟨init, last, rfl⟩
  · exact h
  · rw [List.concat_eq_append] at h
    rw [List.concat_eq_append, List.dropLast_concat]
    exact h.left

/-- A place is admitted when its parent is, and its name there. -/
theorem Admitted.concat {name : α} (h : Admitted admits dirs) (hname : admits dirs name = true) :
    Admitted admits (dirs ++ [name]) := by
  intro pre name' post heq
  rcases List.eq_nil_or_concat post with rfl | ⟨post, last, rfl⟩
  · obtain ⟨rfl, hn⟩ := List.append_inj' heq rfl
    cases hn
    exact hname
  · rw [List.concat_eq_append, ← List.cons_append, ← List.append_assoc] at heq
    exact h pre name' post (List.append_inj' heq rfl).1

/-- What a limited walk has got to could be walked to directly. -/
theorem Admitted.walkWithin {end_ : List α} (h : Admitted admits dirs)
    (hw : walkWithin admits hops dirs = some end_) : Admitted admits end_ := by
  induction hops generalizing dirs with
  | nil =>
    cases hw
    exact h
  | cons hop hops ih =>
    cases hop with
    | stay => exact ih h hw
    | up => exact ih h.dropLast hw
    | down name =>
      rw [Hop.walkWithin] at hw
      split at hw
      · next hok => exact ih (h.concat hok) hw
      · cases hw

/-- A walk down to an admitted place is never refused. -/
theorem walkWithin_down {names : List α} (h : Admitted admits (dirs ++ names)) :
    walkWithin admits (names.map down) dirs = some (dirs ++ names) := by
  induction names generalizing dirs with
  | nil => exact congrArg some (List.append_nil dirs).symm
  | cons name names ih =>
    rw [List.map_cons, Hop.walkWithin, if_pos (h dirs name names rfl)]
    have heq : dirs ++ name :: names = (dirs ++ [name]) ++ names := by
      rw [List.append_assoc]
      rfl
    rw [heq] at h ⊢
    exact ih h

/-- The way from the root to where a limited walk arrives leads there. -/
theorem walkWithin_again {end_ : List α} (h : walkWithin admits hops [] = some end_) :
    walkWithin admits (end_.map down) [] = some end_ :=
  walkWithin_down (Admitted.nil.walkWithin h)

end

/-! ## Cancellation -/

/-- One cancellation in a path from the root. -/
inductive Cancels : List (Hop α) → List (Hop α) → Prop
  | stay (pre post : List (Hop α)) : Cancels (pre ++ stay :: post) (pre ++ post)
  | root (post : List (Hop α)) : Cancels (up :: post) post
  | down (pre : List (Hop α)) (name : α) (post : List (Hop α)) :
      Cancels (pre ++ down name :: up :: post) (pre ++ post)

/-- Hops that cancel do so whatever comes behind them. -/
theorem Cancels.append (h : Cancels hops hops') (post : List (Hop α)) :
    Cancels (hops ++ post) (hops' ++ post) := by
  cases h with
  | stay pre post' =>
    rw [List.append_assoc, List.append_assoc, List.cons_append]
    exact .stay pre (post' ++ post)
  | root => exact .root _
  | down pre name post' =>
    rw [List.append_assoc, List.append_assoc, List.cons_append, List.cons_append]
    exact .down pre name (post' ++ post)

/-- A cancellation does not change where a path leads. -/
theorem Cancels.walk (h : Cancels hops hops') : walk hops [] = walk hops' [] := by
  cases h with
  | stay pre post => rw [walk_append, walk_append, Hop.walk, apply]
  | root => rfl
  | down pre name post =>
    rw [walk_append, walk_append, Hop.walk, Hop.walk, apply, apply, List.dropLast_concat]

/-- Cancelling, a path from the root comes down to the names of where it leads. -/
theorem cancels_walk (hops : List (Hop α)) :
    Relation.ReflTransGen Cancels hops ((walk hops []).map down) := by
  induction hops using List.reverseRecOn with
  | nil => exact .refl
  | append_singleton hops hop ih =>
    have hpre : Relation.ReflTransGen Cancels (hops ++ [hop]) ((walk hops []).map down ++ [hop]) :=
      ih.lift (· ++ [hop]) fun _ _ h => h.append [hop]
    refine hpre.trans ?_
    rw [walk_append, Hop.walk, Hop.walk]
    generalize walk hops [] = dirs
    cases hop with
    | stay =>
      have hstep := Cancels.stay (dirs.map down) []
      rw [List.append_nil] at hstep
      exact .single hstep
    | up =>
      rcases List.eq_nil_or_concat dirs with rfl | ⟨init, last, rfl⟩
      · exact .single (.root [])
      · have hstep := Cancels.down (init.map down) last []
        rw [List.append_nil] at hstep
        rw [List.concat_eq_append, List.map_append, List.append_assoc, apply, List.dropLast_concat]
        exact .single hstep
    | down name =>
      rw [apply, List.map_append]
      exact .refl

/-- The names of where a path leads are the only names it comes down to. -/
theorem walk_unique {names : List α} (h : Relation.ReflTransGen Cancels hops (names.map down)) :
    names = walk hops [] := by
  have hwalk {last : List (Hop α)} (h : Relation.ReflTransGen Cancels hops last) :
      walk hops [] = walk last [] := by
    induction h with
    | refl => rfl
    | tail _ hstep ih => exact ih.trans hstep.walk
  rw [hwalk h, walk_down, List.nil_append]

end Hop

end Tarmac
