import Mathlib.Algebra.Order.Ring.Nat
import Mathlib.Data.List.Lex
import Tarmac.Lib.SortedMap

/-!
# Trees as finite maps of paths

A tree is given by what its paths lead to: a directory or a leaf (`PathNode`). `PathTree` carries the
two facts that make such a map a tree: the empty path is a directory, and so is everything above a
path that leads somewhere. A node can be added at a path when that leaves a tree (`Admits`), and what
the tree then is, is said path by path (`PathTree.find?_add`).
-/

namespace Tarmac

/-- What a path leads to. -/
inductive PathNode (β : Type) where
  | dir
  | leaf (b : β)
  deriving DecidableEq

/-- A node that can have others below it. -/
def PathNode.isDir {β : Type} : PathNode β → Bool
  | dir => true
  | leaf _ => false

section

variable {α : Type}

/-- The paths strictly above a path, from the root down. -/
def above (p : List α) : List (List α) := (List.range p.length).map p.take

/-- The places above a path are its proper prefixes. -/
theorem mem_above {p q : List α} : q ∈ above p ↔ q <+: p ∧ q ≠ p := by
  unfold above
  rw [List.mem_map]
  constructor
  · rintro ⟨n, hn, rfl⟩
    have hlt := List.mem_range.1 hn
    refine ⟨List.take_prefix n p, fun heq => ?_⟩
    have hlen := congrArg List.length heq
    rw [List.length_take] at hlen
    omega
  · rintro ⟨hpre, hne⟩
    refine ⟨q.length, List.mem_range.2 ?_, (List.prefix_iff_eq_take.1 hpre).symm⟩
    exact lt_of_le_of_ne hpre.length_le fun hlen => hne (hpre.eq_of_length hlen)

/-- The root is above every other place. -/
theorem nil_mem_above {a : α} {p : List α} : [] ∈ above (a :: p) :=
  mem_above.2 ⟨List.nil_prefix, (List.cons_ne_nil a p).symm⟩

/-- Nothing is above the root. -/
@[simp] theorem not_mem_above_nil {q : List α} : q ∉ above [] := by
  rw [mem_above]
  rintro ⟨hpre, hne⟩
  exact hne (List.prefix_nil.1 hpre)

/-- The places above a path that goes through `a`. -/
theorem cons_mem_above {a b : α} {p q : List α} :
    b :: q ∈ above (a :: p) ↔ b = a ∧ q ∈ above p := by
  rw [mem_above, mem_above, List.cons_prefix_cons, Ne, List.cons.injEq]
  tauto

/-- What is above a place above a path is above the path. -/
theorem above_trans {p q r : List α} (h : q ∈ above p) (h' : r ∈ above q) : r ∈ above p := by
  rw [mem_above] at h h' ⊢
  refine ⟨h'.1.trans h.1, ?_⟩
  rintro rfl
  exact h.2 (h.1.eq_of_length (le_antisymm h.1.length_le h'.1.length_le))

end

/-- A tree: a finite map from paths to nodes. -/
structure PathTree (α β : Type) [LinearOrder α] where
  nodes : SortedMap (List α) (PathNode β)
  root : nodes.find? [] = some .dir
  parents : ∀ p q, (nodes.find? p).isSome → q ∈ above p → nodes.find? q = some .dir

namespace PathTree

variable {α β : Type} [LinearOrder α]

/-- What a path leads to, if it leads anywhere. -/
def find? (t : PathTree α β) (p : List α) : Option (PathNode β) := t.nodes.find? p

/-- The root of a tree is a directory. -/
theorem find?_nil (t : PathTree α β) : t.find? [] = some .dir := t.root

/-- Nothing but the root. -/
def single : SortedMap (List α) (PathNode β) := SortedMap.empty.insert [] .dir

/-- The map with nothing but the root. -/
theorem find?_single (p : List α) :
    (single : SortedMap (List α) (PathNode β)).find? p = if [] = p then some .dir else none := by
  rw [single, SortedMap.find?_insert, SortedMap.find?_empty]
  by_cases h : [] = p <;> simp [h]

/-- It has the parents of what it has. -/
theorem parents_single (p q : List α)
    (hp : ((single : SortedMap (List α) (PathNode β)).find? p).isSome) (hq : q ∈ above p) :
    (single : SortedMap (List α) (PathNode β)).find? q = some .dir := by
  rw [find?_single] at hp
  split at hp
  · next heq =>
    subst heq
    exact absurd hq not_mem_above_nil
  · cases hp

/-- The tree of an empty directory. -/
def empty : PathTree α β := ⟨single, (find?_single []).trans (if_pos rfl), parents_single⟩

/-- The empty tree has nothing but the root. -/
theorem find?_empty (p : List α) : (empty : PathTree α β).find? p = if [] = p then some .dir else none :=
  find?_single p

/-- A node may be added at a path: everything above is a directory or missing, and the node takes the
place of a directory only if it is one too, or if that is not the root and has nothing below it. -/
def Admits (t : PathTree α β) (p : List α) (node : PathNode β) : Prop :=
  (∀ q ∈ above p, (t.find? q).all PathNode.isDir) ∧
    (node.isDir ∨ ¬(t.find? p).any PathNode.isDir ∨
      (p ≠ [] ∧ ∀ e ∈ t.nodes.toList, p ∉ above e.1))

instance (t : PathTree α β) (p : List α) (node : PathNode β) : Decidable (t.Admits p node) :=
  inferInstanceAs (Decidable ((∀ q ∈ above p, (t.find? q).all PathNode.isDir) ∧
    (node.isDir ∨ ¬(t.find? p).any PathNode.isDir ∨
      (p ≠ [] ∧ ∀ e ∈ t.nodes.toList, p ∉ above e.1))))

/-- Binds directories. -/
def makeDirs (nodes : SortedMap (List α) (PathNode β)) (ps : List (List α)) :
    SortedMap (List α) (PathNode β) := ps.foldl (fun nodes q => nodes.insert q .dir) nodes

/-- Making directories replaces what was there. -/
theorem find?_makeDirs (nodes : SortedMap (List α) (PathNode β)) (ps : List (List α)) (q : List α) :
    (makeDirs nodes ps).find? q = if q ∈ ps then some .dir else nodes.find? q := by
  induction ps generalizing nodes with
  | nil => rfl
  | cons p ps ih =>
    show (makeDirs (nodes.insert p .dir) ps).find? q = _
    rw [ih, SortedMap.find?_insert]
    by_cases hmem : q ∈ ps
    · rw [if_pos hmem, if_pos (.tail _ hmem)]
    · rw [if_neg hmem]
      by_cases heq : p = q
      · rw [if_pos heq, if_pos (heq ▸ .head _)]
      · rw [if_neg heq, if_neg fun h => (List.mem_cons.1 h).elim (fun h => heq h.symm) hmem]

/-- The map with a node at a path, and directories above it. -/
def place (t : PathTree α β) (p : List α) (node : PathNode β) : SortedMap (List α) (PathNode β) :=
  (makeDirs t.nodes (above p)).insert p node

variable {t t' : PathTree α β} {p : List α} {node : PathNode β}

/-- A node is placed with the directories above it, and leaves the rest as it was. -/
theorem find?_place (q : List α) : (t.place p node).find? q =
    if q = p then some node else if q ∈ above p then some .dir else t.find? q := by
  rw [place, SortedMap.find?_insert, find?_makeDirs]
  by_cases h : p = q
  · rw [if_pos h, if_pos h.symm]
  · rw [if_neg h, if_neg (Ne.symm h)]
    rfl

/-- Where a node may be added below which something lies, it is a directory. -/
theorem Admits.isDir (h : t.Admits p node) {x : List α} (hx : (t.find? x).isSome) (hp : p ∈ above x) :
    node = .dir := by
  obtain ⟨v, hv⟩ := Option.isSome_iff_exists.1 hx
  have hdir : t.find? p = some .dir := t.parents x p hx hp
  rcases h.2 with hnode | hnode | ⟨-, hbelow⟩
  · cases node with
    | dir => rfl
    | leaf => cases hnode
  · rw [hdir] at hnode
    exact absurd rfl hnode
  · exact absurd hp (hbelow (x, v) (SortedMap.mem_toList.2 hv))

/-- Placing an admitted node leaves the root a directory. -/
theorem Admits.place_root (h : t.Admits p node) : (t.place p node).find? [] = some .dir := by
  rw [find?_place]
  split
  · next heq =>
    subst heq
    rcases h.2 with hnode | hnode | ⟨hne, -⟩
    · cases node with
      | dir => rfl
      | leaf => cases hnode
    · rw [find?_nil] at hnode
      exact absurd rfl hnode
    · exact absurd rfl hne
  · next hne =>
    cases p with
    | nil => exact absurd rfl hne
    | cons a p => exact if_pos nil_mem_above

/-- Placing an admitted node leaves every place below directories. -/
theorem Admits.place_parents (h : t.Admits p node) (x q : List α)
    (hx : ((t.place p node).find? x).isSome) (hq : q ∈ above x) :
    (t.place p node).find? q = some .dir := by
  rw [find?_place] at hx ⊢
  by_cases hqp : q = p
  · subst hqp
    rw [if_pos rfl]
    -- what lies below `q` was there before
    have hxne : x ≠ q := by
      rintro rfl
      exact (mem_above.1 hq).2 rfl
    have hxabove : x ∉ above q := fun hmem => (mem_above.1 (above_trans hmem hq)).2 rfl
    rw [if_neg hxne, if_neg hxabove] at hx
    rw [h.isDir hx hq]
  · rw [if_neg hqp]
    by_cases hmem : q ∈ above p
    · rw [if_pos hmem]
    · rw [if_neg hmem]
      have hxne : x ≠ p := by
        rintro rfl
        exact hmem hq
      have hxabove : x ∉ above p := fun hx => hmem (above_trans hx hq)
      rw [if_neg hxne, if_neg hxabove] at hx
      exact t.parents x q hx hq

/-- Adds a node, if the tree admits it. -/
def add (t : PathTree α β) (p : List α) (node : PathNode β) : Option (PathTree α β) :=
  if h : t.Admits p node then some ⟨t.place p node, h.place_root, h.place_parents⟩ else none

/-- A node can be added exactly if the tree admits it. -/
theorem add_eq_none : t.add p node = none ↔ ¬t.Admits p node := by
  unfold add
  split <;> simp_all

/-- A node that the tree admits can be added. -/
theorem Admits.exists_add (h : t.Admits p node) : ∃ t', t.add p node = some t' :=
  ⟨_, dif_pos h⟩

/-- What a tree is after a node was added. -/
theorem find?_add (h : t.add p node = some t') (q : List α) :
    t'.find? q = if q = p then some node else if q ∈ above p then some .dir else t.find? q := by
  unfold add at h
  split at h
  · cases h
    exact find?_place q
  · cases h

/-- Nothing is bound below a path just when nothing is found there. -/
theorem not_above_iff : (∀ e ∈ t.nodes.toList, p ∉ above e.1) ↔ ∀ q, p ∈ above q → t.find? q = none := by
  constructor
  · intro h q hq
    refine Option.eq_none_iff_forall_ne_some.2 fun v hv => ?_
    exact h (q, v) (SortedMap.mem_toList.2 hv) hq
  · rintro h ⟨q, v⟩ he hq
    have hnone := h q hq
    rw [find?, SortedMap.mem_toList.1 he] at hnone
    cases hnone

end PathTree

end Tarmac
