import Mathlib.Algebra.Order.Ring.Nat

/-!
# Finite maps as sorted lists

A `SortedMap K V` is a list of bindings with strictly increasing keys, the order a B-tree cursor
walks them in. The strictness is a field, so a map has at most one binding of a key and two maps
with the same bindings are equal (`SortedMap.ext_find?`). Every operation is described by what it
does to `find?`.
-/

namespace Tarmac

/-- A finite map, its bindings in strictly increasing order of the keys. -/
structure SortedMap (K V : Type) [LinearOrder K] where
  toList : List (K × V)
  sorted : toList.Pairwise fun a b => a.1 < b.1

namespace SortedMap

variable {K V : Type} [LinearOrder K]

/-- The map without bindings. -/
def empty : SortedMap K V := ⟨[], .nil⟩

/-- The value bound to `k`. -/
def find? (m : SortedMap K V) (k : K) : Option V :=
  (m.toList.find? fun p => decide (p.1 = k)).map Prod.snd

/-- `insert` on the list of bindings. -/
def insertList (k : K) (v : V) : List (K × V) → List (K × V)
  | [] => [(k, v)]
  | p :: l => if k < p.1 then (k, v) :: p :: l
    else if k = p.1 then (k, v) :: l else p :: insertList k v l

/-- An insertion adds the new pair and no other. -/
theorem mem_insertList {k : K} {v : V} {l : List (K × V)} {q : K × V}
    (h : q ∈ insertList k v l) : q = (k, v) ∨ q ∈ l := by
  induction l with
  | nil => simpa [insertList] using h
  | cons p l ih =>
    rw [insertList] at h
    split at h
    · simpa using h
    · split at h
      · rcases List.mem_cons.1 h with h | h
        exacts [.inl h, .inr (.tail _ h)]
      · rcases List.mem_cons.1 h with rfl | h
        · exact .inr (.head _)
        · exact (ih h).imp_right (.tail _)

/-- An insertion keeps the list sorted. -/
theorem pairwise_insertList {k : K} {v : V} {l : List (K × V)}
    (h : l.Pairwise fun a b => a.1 < b.1) :
    (insertList k v l).Pairwise fun a b => a.1 < b.1 := by
  induction l with
  | nil => simp [insertList]
  | cons p l ih =>
    have ⟨hp, hl⟩ := List.pairwise_cons.1 h
    rw [insertList]
    split
    · next hk =>
      refine List.pairwise_cons.2 ⟨fun q hq => ?_, h⟩
      rcases List.mem_cons.1 hq with rfl | hq
      exacts [hk, lt_trans hk (hp q hq)]
    · next hk =>
      split
      · next he => exact List.pairwise_cons.2 ⟨fun q hq => he ▸ hp q hq, hl⟩
      · next he =>
        refine List.pairwise_cons.2 ⟨fun q hq => ?_, ih hl⟩
        rcases mem_insertList hq with rfl | hq
        exacts [lt_of_le_of_ne (not_lt.1 hk) (Ne.symm he), hp q hq]

/-- Binds `k` to `v`. -/
def insert (m : SortedMap K V) (k : K) (v : V) : SortedMap K V :=
  ⟨insertList k v m.toList, pairwise_insertList m.sorted⟩

/-- Keeps the bindings that satisfy `p`. -/
def filter (m : SortedMap K V) (p : K → V → Bool) : SortedMap K V :=
  ⟨m.toList.filter fun q => p q.1 q.2, m.sorted.filter _⟩

/-- Removes the binding of `k`. -/
def erase (m : SortedMap K V) (k : K) : SortedMap K V := m.filter fun k' _ => decide (k' ≠ k)

/-- The bindings from the first key that is not below `k` on: a cursor set by `MDB_SET_RANGE`. -/
def fromKey (m : SortedMap K V) (k : K) : List (K × V) :=
  m.toList.dropWhile fun p => decide (p.1 < k)

/-! ## Lookup -/

/-- The bindings of a map are what `find?` finds. -/
theorem mem_toList {m : SortedMap K V} {k : K} {v : V} :
    (k, v) ∈ m.toList ↔ m.find? k = some v := by
  obtain ⟨l, hl⟩ := m
  simp only [find?]
  induction l with
  | nil => simp
  | cons p l ih =>
    have ⟨hp, hl'⟩ := List.pairwise_cons.1 hl
    by_cases hk : p.1 = k
    · subst hk
      simp only [List.find?_cons, decide_true, Option.map_some, Option.some.injEq, List.mem_cons]
      constructor
      · rintro (h | h)
        · rw [← h]
        · exact absurd (hp _ h) (lt_irrefl _)
      · rintro rfl
        exact .inl rfl
    · rw [List.find?_cons, decide_eq_false hk, List.mem_cons, ← ih hl']
      exact or_iff_right fun h => hk (by rw [← h])

@[simp] theorem find?_empty (k : K) : (empty : SortedMap K V).find? k = none := rfl

/-- A key is not found exactly when it has no pair. -/
theorem find?_eq_none {m : SortedMap K V} {k : K} : m.find? k = none ↔ ∀ v, (k, v) ∉ m.toList := by
  simp only [mem_toList, Option.eq_none_iff_forall_ne_some]

/-- What is found after an insertion. -/
theorem find?_insert (m : SortedMap K V) (k k' : K) (v : V) :
    (m.insert k v).find? k' = if k = k' then some v else m.find? k' := by
  obtain ⟨l, hl⟩ := m
  simp only [insert, find?]
  induction l with
  | nil => by_cases h : k = k' <;> simp [insertList, h]
  | cons p l ih =>
    have ⟨hp, hl'⟩ := List.pairwise_cons.1 hl
    rw [insertList]
    split
    · by_cases h : k = k' <;> simp [h]
    · split
      · next he => by_cases h : k = k' <;> simp [h, ← he]
      · next he =>
        by_cases hpk : p.1 = k'
        · simp [hpk, show ¬k = k' from fun h => he (h.trans hpk.symm)]
        · simpa [List.find?_cons, hpk] using ih hl'

/-- What was inserted is found. -/
theorem find?_insert_self {m : SortedMap K V} {k : K} {v : V} : (m.insert k v).find? k = some v := by
  rw [find?_insert, if_pos rfl]

/-- An insertion leaves the other keys alone. -/
theorem find?_insert_of_ne {m : SortedMap K V} {k k' : K} {v : V} (h : k ≠ k') :
    (m.insert k v).find? k' = m.find? k' := by
  rw [find?_insert, if_neg h]

/-- What is found after an insertion is what was inserted, or was there before. -/
theorem find?_insert_cases {m : SortedMap K V} {k k' : K} {v v' : V}
    (h : (m.insert k v).find? k' = some v') : k = k' ∧ v = v' ∨ m.find? k' = some v' := by
  rw [find?_insert] at h
  split at h
  · next hk => exact .inl ⟨hk, Option.some.inj h⟩
  · exact .inr h

/-- What is found among the pairs that are left. -/
theorem find?_filter (m : SortedMap K V) (p : K → V → Bool) (k : K) :
    (m.filter p).find? k = (m.find? k).filter (p k) := by
  refine Option.ext fun v => ?_
  rw [← mem_toList, filter, List.mem_filter, mem_toList, Option.filter_eq_some_iff]

/-- What is found after a key was erased. -/
theorem find?_erase (m : SortedMap K V) (k k' : K) :
    (m.erase k).find? k' = if k = k' then none else m.find? k' := by
  rw [erase, find?_filter]
  by_cases h : k = k'
  · subst h; cases m.find? k <;> simp [Option.filter]
  · cases m.find? k' <;> simp [Option.filter, h, Ne.symm h]

/-- Erasing a key leaves the others alone. -/
theorem find?_erase_of_ne {m : SortedMap K V} {k k' : K} (h : k ≠ k') :
    (m.erase k).find? k' = m.find? k' := by
  rw [find?_erase, if_neg h]

/-- A map is determined by its lookups. -/
theorem ext_find? {m m' : SortedMap K V} (h : ∀ k, m.find? k = m'.find? k) : m = m' := by
  obtain ⟨l, hl⟩ := m
  obtain ⟨l', hl'⟩ := m'
  have hmem : ∀ q, q ∈ l ↔ q ∈ l' := fun q => by
    have := h q.1
    rw [show q ∈ l ↔ _ from mem_toList (m := ⟨l, hl⟩), this, ← mem_toList]
  have : l = l' := by
    refine List.Perm.eq_of_pairwise (fun a b _ _ hab hba => absurd (lt_trans hab hba) (lt_irrefl _))
      hl hl' ((List.perm_ext_iff_of_nodup ?_ ?_).2 hmem)
    · exact hl.imp fun hab he => absurd (he ▸ hab) (lt_irrefl _)
    · exact hl'.imp fun hab he => absurd (he ▸ hab) (lt_irrefl _)
  subst this
  rfl

end SortedMap

end Tarmac
