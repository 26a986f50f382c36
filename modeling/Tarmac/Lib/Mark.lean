import Mathlib.Algebra.Order.Ring.Nat

/-!
# Marking with a work list

A graph is given by the edges of its nodes, which may be unreadable; an edge leads to a node that has
edges of its own, or to an end. `Mark.run` marks from a work list: it takes a node from the list,
marks what its edges lead to and was not marked before, and puts of that on the list what has edges.
It stops at a node that cannot be read.

What is marked and off the list is settled: the nodes its edges lead to are marked too
(`run_settled`). That holds of the nodes one calls inner, if no edge treats an inner node as an end;
where one does, the marker passes the node by when it meets it again.
-/

namespace Tarmac.Mark

variable {α ε : Type} [DecidableEq α]

/-- The edges of one node: what they lead to, and whether that has edges of its own. -/
abbrev Edges (α : Type) : Type := List (α × Bool)

/-- Marks what edges lead to; the work list and the marked nodes. -/
def push : Edges α → List α → List α → List α × List α
  | [], work, marked => (work, marked)
  | (a, inner) :: es, work, marked =>
    if a ∈ marked then push es work marked
    else push es (if inner then a :: work else work) (a :: marked)

/-- Marks from a work list, at most `n` nodes; `none` when there are more. -/
def run (edges : α → Except ε (Edges α)) : Nat → List α → List α → Option (List α × Except ε Unit)
  | _, [], marked => some (marked, .ok ())
  | 0, _ :: _, _ => none
  | n + 1, a :: work, marked =>
    match edges a with
    | .error e => some (marked, .error e)
    | .ok es => run edges n (push es work marked).1 (push es work marked).2

/-- Marked inner nodes are on the work list, or what they lead to is marked. -/
def Settled (edges : α → Except ε (Edges α)) (D : α → Prop) (work marked : List α) : Prop :=
  ∀ a ∈ marked, D a → a ∈ work ∨ ∀ es, edges a = .ok es → ∀ e ∈ es, e.1 ∈ marked

/-- What `push` does: everything that was marked or listed still is, every edge leads to a marked
node, and what is new comes from the edges. -/
theorem push_spec (es : Edges α) (work marked : List α) :
    (∀ a ∈ marked, a ∈ (push es work marked).2) ∧ (∀ a ∈ work, a ∈ (push es work marked).1) ∧
    (∀ e ∈ es, e.1 ∈ (push es work marked).2) ∧
    (∀ a ∈ (push es work marked).2, a ∈ marked ∨ a ∈ (push es work marked).1 ∨ (a, false) ∈ es) ∧
    (∀ a ∈ (push es work marked).1, a ∈ work ∨ (a, true) ∈ es) ∧
    (∀ a ∈ (push es work marked).2, a ∈ marked ∨ ∃ inner, (a, inner) ∈ es) := by
  induction es generalizing work marked with
  | nil =>
    exact ⟨fun _ h => h, fun _ h => h, nofun, fun _ h => .inl h, fun _ h => .inl h,
      fun _ h => .inl h⟩
  | cons e es ih =>
    obtain ⟨b, inner⟩ := e
    unfold push
    split
    · next hb =>
      obtain ⟨h₁, h₂, h₃, h₄, h₅, h₆⟩ := ih work marked
      refine ⟨h₁, h₂, ?_, ?_, ?_, ?_⟩
      · intro e he
        rcases List.mem_cons.1 he with rfl | he
        · exact h₁ _ hb
        · exact h₃ e he
      · intro a ha
        exact (h₄ a ha).imp_right (Or.imp_right (.tail _))
      · intro a ha
        exact (h₅ a ha).imp_right (.tail _)
      · intro a ha
        exact (h₆ a ha).imp_right fun ⟨i, hi⟩ => ⟨i, .tail _ hi⟩
    · obtain ⟨h₁, h₂, h₃, h₄, h₅, h₆⟩ := ih (if inner then b :: work else work) (b :: marked)
      refine ⟨fun a ha => h₁ a (.tail _ ha), ?_, ?_, ?_, ?_, ?_⟩
      · intro a ha
        refine h₂ a ?_
        cases inner
        · exact ha
        · exact .tail _ ha
      · intro e he
        rcases List.mem_cons.1 he with rfl | he
        · exact h₁ _ (.head _)
        · exact h₃ e he
      · intro a ha
        rcases h₄ a ha with ha | ha | ha
        · rcases List.mem_cons.1 ha with rfl | ha
          · cases inner
            · exact .inr (.inr (.head _))
            · exact .inr (.inl (h₂ _ (.head _)))
          · exact .inl ha
        · exact .inr (.inl ha)
        · exact .inr (.inr (.tail _ ha))
      · intro a ha
        rcases h₅ a ha with ha | ha
        · cases inner
          · exact .inl ha
          · rcases List.mem_cons.1 ha with rfl | ha
            · exact .inr (.head _)
            · exact .inl ha
        · exact .inr (.tail _ ha)
      · intro a ha
        rcases h₆ a ha with ha | ⟨i, hi⟩
        · rcases List.mem_cons.1 ha with rfl | ha
          · exact .inr ⟨inner, .head _⟩
          · exact .inl ha
        · exact .inr ⟨i, .tail _ hi⟩

/-- What `push` adds to the work list was not marked, and is not added twice. -/
theorem push_fresh (es : Edges α) {work marked : List α} (hn : work.Nodup)
    (hsub : ∀ a ∈ work, a ∈ marked) :
    (push es work marked).1.Nodup ∧ (∀ a ∈ (push es work marked).1, a ∈ (push es work marked).2) ∧
      ∀ a ∈ (push es work marked).1, a ∈ work ∨ a ∉ marked := by
  induction es generalizing work marked with
  | nil => exact ⟨hn, hsub, fun _ h => .inl h⟩
  | cons e es ih =>
    obtain ⟨b, inner⟩ := e
    unfold push
    split
    · exact ih hn hsub
    · next hb =>
      have hn' : (if inner then b :: work else work).Nodup := by
        cases inner
        · exact hn
        · exact List.nodup_cons.2 ⟨fun h => hb (hsub b h), hn⟩
      have hsub' : ∀ a ∈ if inner then b :: work else work, a ∈ b :: marked := by
        cases inner
        · exact fun a ha => .tail _ (hsub a ha)
        · exact List.forall_mem_cons.2 ⟨.head _, fun a ha => .tail _ (hsub a ha)⟩
      obtain ⟨h₁, h₂, h₃⟩ := ih hn' hsub'
      refine ⟨h₁, h₂, fun a ha => ?_⟩
      rcases h₃ a ha with hw | hm
      · cases inner
        · exact .inl hw
        · rcases List.mem_cons.1 hw with rfl | hw
          · exact .inr hb
          · exact .inl hw
      · exact .inr fun h => hm (.tail _ h)

section

variable {edges : α → Except ε (Edges α)} {D P : α → Prop} {n : Nat} {work marked marked' : List α}
  {out : Except ε Unit}

/-- One round keeps the nodes settled, if no edge of the node takes an inner node for an end. -/
theorem Settled.push {a : α} {es : Edges α} (h : Settled edges D (a :: work) marked)
    (ha : edges a = .ok es) (hend : ∀ b, (b, false) ∈ es → ¬D b) :
    Settled edges D (push es work marked).1 (push es work marked).2 := by
  obtain ⟨h₁, h₂, h₃, h₄, -, -⟩ := push_spec es work marked
  intro b hb hD
  rcases h₄ b hb with hm | hw | he
  · rcases h b hm hD with hw | hes
    · rcases List.mem_cons.1 hw with rfl | hw
      · right
        intro es' hes' e he
        obtain rfl := Except.ok.inj (ha.symm.trans hes')
        exact h₃ e he
      · exact .inl (h₂ b hw)
    · exact .inr fun es' hes' e he => h₁ _ (hes es' hes' e he)
  · exact .inl hw
  · exact absurd hD (hend b he)

/-- Nothing that was marked is unmarked. -/
theorem run_grows (h : run edges n work marked = some (marked', out)) : ∀ a ∈ marked, a ∈ marked' := by
  induction n generalizing work marked with
  | zero =>
    cases work with
    | nil => cases h; exact fun _ h => h
    | cons => cases h
  | succ n ih =>
    cases work with
    | nil => cases h; exact fun _ h => h
    | cons a work =>
      unfold run at h
      split at h
      · cases h
        exact fun _ h => h
      · next es _ => exact fun b hb => ih h b ((push_spec es work marked).1 b hb)

/-- A walk that is not stopped leaves everything settled, if it met no edge that takes an inner node for
an end. -/
theorem run_ok_settled (hP : ∀ a es, P a → edges a = .ok es → (∀ b, (b, true) ∈ es → P b) ∧
      ∀ b, (b, false) ∈ es → ¬D b)
    (hwork : ∀ a ∈ work, P a) (hs : Settled edges D work marked)
    (h : run edges n work marked = some (marked', .ok ())) : Settled edges D [] marked' := by
  induction n generalizing work marked with
  | zero =>
    cases work with
    | nil => cases h; exact hs
    | cons => cases h
  | succ n ih =>
    cases work with
    | nil => cases h; exact hs
    | cons a work =>
      unfold run at h
      split at h
      · cases h
      · next es hes =>
        obtain ⟨hinner, hend⟩ := hP a es (hwork a (.head _)) hes
        refine ih ?_ (hs.push hes hend) h
        intro b hb
        rcases (push_spec es work marked).2.2.2.2.1 b hb with hw | he
        · exact hwork b (.tail _ hw)
        · exact hinner b he

/-- A walk over nodes that can be read is not stopped. -/
theorem run_readable (hP : ∀ a, P a → ∃ es, edges a = .ok es ∧ ∀ b, (b, true) ∈ es → P b)
    (hwork : ∀ a ∈ work, P a) (h : run edges n work marked = some (marked', out)) : out = .ok () := by
  induction n generalizing work marked with
  | zero =>
    cases work with
    | nil => cases h; rfl
    | cons => cases h
  | succ n ih =>
    cases work with
    | nil => cases h; rfl
    | cons a work =>
      obtain ⟨es, hes, hinner⟩ := hP a (hwork a (.head _))
      unfold run at h
      rw [hes] at h
      refine ih ?_ h
      intro b hb
      rcases (push_spec es work marked).2.2.2.2.1 b hb with hw | he
      · exact hwork b (.tail _ hw)
      · exact hinner b he

/-- A walk over nodes that can be read, and whose edges take no inner node for an end, comes to an
end with everything settled. -/
theorem run_settled (hP : ∀ a, P a → ∃ es, edges a = .ok es ∧ (∀ b, (b, true) ∈ es → P b) ∧
      ∀ b, (b, false) ∈ es → ¬D b)
    (hwork : ∀ a ∈ work, P a) (hs : Settled edges D work marked)
    (h : run edges n work marked = some (marked', out)) :
    out = .ok () ∧ Settled edges D [] marked' := by
  obtain rfl : out = .ok () := by
    refine run_readable (fun a ha => ?_) hwork h
    obtain ⟨es, hes, hinner, -⟩ := hP a ha
    exact ⟨es, hes, hinner⟩
  refine ⟨rfl, run_ok_settled (fun a es ha hes => ?_) hwork hs h⟩
  obtain ⟨es', hes', hinner, hend⟩ := hP a ha
  obtain rfl := Except.ok.inj (hes.symm.trans hes')
  exact ⟨hinner, hend⟩

/-- A work list comes to its end when there are more rounds than nodes that can be read: no node is
read twice. -/
theorem exists_run {nodes : List α} (hnodes : ∀ a es, edges a = .ok es → a ∈ nodes)
    (hn : work.Nodup) (hsub : ∀ a ∈ work, a ∈ marked) (hfuel : nodes.length < n) :
    ∃ r, run edges n work marked = some r := by
  suffices hgen : ∀ read : List α, read.Nodup → (∀ a ∈ read, a ∈ nodes ∧ a ∈ marked ∧ a ∉ work) →
      nodes.length < n + read.length → ∃ r, run edges n work marked = some r from
    hgen [] .nil (fun _ h => absurd h List.not_mem_nil) hfuel
  clear hfuel
  induction n generalizing work marked with
  | zero =>
    intro read hread hall hlt
    have hle := hread.length_le_of_subset fun a ha => (hall a ha).1
    omega
  | succ n ih =>
    intro read hread hall hlt
    cases work with
    | nil => exact ⟨_, rfl⟩
    | cons a work =>
      unfold run
      cases ha : edges a with
      | error e => exact ⟨_, rfl⟩
      | ok es =>
        obtain ⟨hnew, hn⟩ := List.nodup_cons.1 hn
        obtain ⟨hamarked, hsub⟩ := List.forall_mem_cons.1 hsub
        obtain ⟨hn', hsub', hfresh⟩ := push_fresh es hn hsub
        have hgrows := (push_spec es work marked).1
        have hoff {b : α} (hb : b ∈ marked) (hwork : b ∉ work) : b ∉ (push es work marked).1 :=
          fun hmem => (hfresh b hmem).elim hwork fun h => h hb
        refine ih hn' hsub' (a :: read) ?_ ?_ ?_
        · exact List.nodup_cons.2 ⟨fun hmem => (hall a hmem).2.2 (.head _), hread⟩
        · refine List.forall_mem_cons.2 ⟨⟨hnodes a es ha, hgrows a hamarked, hoff hamarked hnew⟩, ?_⟩
          intro b hb
          obtain ⟨hnode, hbmarked, hwork⟩ := hall b hb
          exact ⟨hnode, hgrows b hbmarked, hoff hbmarked fun h => hwork (.tail _ h)⟩
        · rw [List.length_cons]
          omega
/-- Whatever is marked was marked before, or an edge of a node that was walked leads to it. -/
theorem run_sound {Q : α → Prop}
    (hQ : ∀ a es, P a → edges a = .ok es → ∀ b inner, (b, inner) ∈ es → Q b ∧ (inner = true → P b))
    (hwork : ∀ a ∈ work, P a) (h : run edges n work marked = some (marked', out)) :
    ∀ a ∈ marked', a ∈ marked ∨ Q a := by
  induction n generalizing work marked with
  | zero =>
    cases work with
    | nil => cases h; exact fun _ h => .inl h
    | cons => cases h
  | succ n ih =>
    cases work with
    | nil => cases h; exact fun _ h => .inl h
    | cons a work =>
      unfold run at h
      split at h
      · cases h
        exact fun _ h => .inl h
      · next es hes =>
        have hstep := hQ a es (hwork a (.head _)) hes
        obtain ⟨-, -, -, -, h₅, h₆⟩ := push_spec es work marked
        have hwork' : ∀ b ∈ (push es work marked).1, P b := fun b hb => (h₅ b hb).elim
          (fun hw => hwork b (.tail _ hw)) fun he => (hstep b true he).2 rfl
        intro b hb
        rcases ih hwork' h b hb with hm | hq
        · exact (h₆ b hm).imp_right fun ⟨inner, he⟩ => (hstep b inner he).1
        · exact .inr hq

end

end Tarmac.Mark
