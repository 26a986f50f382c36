import Tarmac.Lib.Safe
import Tarmac.Tree.Code

/-!
# `TreeStore` in a process that has the directory to itself

The rules for the programs of `Tarmac.Tree.Code` when no other process moves (`solo`): what a safe
program establishes holds after each of its runs (`solo_run`), and the invariant holds wherever the
process is killed (`solo_visits`). One lemma for each call says how it can end.
-/

namespace Tarmac.Tree

open PackCas

/-! ## The store of one process -/

namespace Sys

variable {s s' : Sys} {p : Nat} {m m' : Model}

/-- The committed store is the same for all. -/
@[simp] theorem model_committed (s : Sys) (p : Nat) : (s.model p).committed = s.committed := rfl

/-- A state that is set is the process's. -/
@[simp] theorem model_setModel (s : Sys) (p : Nat) (m : Model) : (s.setModel p m).model p = m := by
  obtain ⟨c, b⟩ := m
  cases b <;> simp [model, setModel, batch]

/-- A process does not wait for itself. -/
@[simp] theorem busy_setModel (s : Sys) (p : Nat) (m : Model) :
    (s.setModel p m).busy p = false := by
  obtain ⟨c, b⟩ := m
  cases b <;> simp [busy, setModel]

/-- A note of a tree changes nothing that is stored. -/
@[simp] theorem model_noteTree (s : Sys) (p : Nat) (tree : Bool) (id : Bytes) :
    (s.noteTree tree id).model p = s.model p := by
  cases tree <;> rfl

@[simp] theorem busy_noteTree (s : Sys) (p : Nat) (tree : Bool) (id : Bytes) :
    (s.noteTree tree id).busy p = s.busy p := by
  cases tree <;> rfl

@[simp] theorem committed_noteTree (s : Sys) (tree : Bool) (id : Bytes) :
    (s.noteTree tree id).committed = s.committed := by
  cases tree <;> rfl

/-- A process that is alone changes nothing when it writes back what it sees. -/
theorem setModel_model (h : s.busy p = false) : s.setModel p (s.model p) = s := by
  obtain ⟨c, w, t, l⟩ := s
  rcases w with _ | ⟨q, b⟩
  · rfl
  · have hq : q = p := by simpa [busy] using h
    subst hq
    simp [model, setModel, batch]

/-- A process that has dropped its batch sees the committed store. -/
theorem model_drop (s : Sys) (p : Nat) : (s.drop p).model p = ⟨s.committed, none⟩ := by
  obtain ⟨c, w, t, l⟩ := s
  rcases w with _ | ⟨q, b⟩
  · rfl
  · by_cases hq : q = p <;> simp [model, drop, batch, hq]

/-- Without a batch there is nothing to drop. -/
theorem drop_of_none (h : s.batch p = none) : s.drop p = s := by
  unfold drop
  rw [h]
  rfl

/-- The blobs `p` sees. -/
abbrev blobs (s : Sys) (p : Nat) : BlobMap := (s.model p).view.blobs

/-- The blobs of a state that is set. -/
@[simp] theorem blobs_setModel (s : Sys) (p : Nat) (m : Model) :
    (s.setModel p m).blobs p = m.view.blobs := by
  rw [blobs, model_setModel]

/-- A note leaves them alone. -/
@[simp] theorem blobs_noteTree (s : Sys) (p : Nat) (tree : Bool) (id : Bytes) :
    (s.noteTree tree id).blobs p = s.blobs p := by
  rw [blobs, model_noteTree]

/-- How a writing call ends. -/
theorem write_cases {α : Type} {ch : Choice} {a : α} {stages : List Model} {x : Except Err α}
    (h : s.write p ch a m stages = some (x, s')) :
    s.busy p = false ∧ ((x = .ok a ∧ s' = s.setModel p m) ∨
      ∃ e m', x = .error e ∧ s' = s.setModel p m' ∧ (m' = s.model p ∨ m' ∈ stages)) := by
  unfold write at h
  split at h
  · cases h
  · next hbusy =>
    refine ⟨Bool.eq_false_iff.2 hbusy, ?_⟩
    split at h
    · cases h
      exact .inl ⟨rfl, rfl⟩
    · next e _ =>
      cases h
      refine .inr ⟨e, _, rfl, rfl, ?_⟩
      rw [List.getD_eq_getElem?_getD]
      cases hget : stages[ch.stage]? with
      | none => exact .inl rfl
      | some m' => exact .inr (List.mem_of_getElem? hget)

/-- A write comes to something when nobody else has a batch. -/
theorem exists_write {α : Type} {ch : Choice} {a : α} {stages : List Model} (h : s.busy p = false) :
    ∃ x s', s.write p ch a m stages = some (x, s') := by
  unfold write
  rw [h]
  cases ch.fail with
  | none => exact ⟨_, _, rfl⟩
  | some e => exact ⟨_, _, rfl⟩

end Sys

section

variable {ext : Ext} {p : Nat} {ch : Choice} {s s' : Sys}

/-- `sync` commits the batch, if there is one. -/
theorem exec_sync : exec ext p ch .sync s =
    if (s.batch p).isSome then s.write p ch () (s.model p).sync [s.model p]
    else (some (.ok (), s) : Option (Except Err Unit × Sys)) := rfl

/-- A process that is alone need not wait. -/
theorem exists_exec (c : Call) (h : s.busy p = false) : ∃ r s', exec ext p ch c s = some (r, s') := by
  have hwrite {α : Type} (a : α) (m : Model) (stages : List Model) :=
    @Sys.exists_write s p m _ ch a stages h
  cases c with
  | put tree d =>
    obtain ⟨x, s', hx⟩ := hwrite (ext.blake3 d) ((s.model p).put ext d)
      [s.model p, (s.model p).begin, (s.model p).putUncommitted ext d]
    exact ⟨_, _, by simp only [exec, hx]; rfl⟩
  | sync =>
    rw [exec_sync]
    by_cases hb : (s.batch p).isSome
    · rw [if_pos hb]
      exact hwrite _ _ _
    · rw [if_neg hb]
      exact ⟨_, _, rfl⟩
  | compact live => exact hwrite _ _ _
  | metaPut key val => exact hwrite _ _ _
  | metaDel key => exact hwrite _ _ _
  | get | getView | size | has | metaGet | metaScan | now => exact ⟨_, _, rfl⟩

/-- A call makes its process wait for nobody. -/
theorem exec_busy {c : Call} {r : c.Resp} (h : exec ext p ch c s = some (r, s'))
    (hs : s.busy p = false) : s'.busy p = false := by
  have hwrite {α : Type} {a : α} {m : Model} {stages : List Model} {x : Except Err α} {s' : Sys}
      (hx : s.write p ch a m stages = some (x, s')) : s'.busy p = false := by
    obtain ⟨-, ⟨-, rfl⟩ | ⟨e, m', -, rfl, -⟩⟩ := Sys.write_cases hx
    · exact Sys.busy_setModel _ _ _
    · exact Sys.busy_setModel _ _ _
  cases c with
  | put tree d =>
    obtain ⟨⟨x, s₁⟩, hx, heq⟩ := Option.map_eq_some_iff.1 h
    cases heq
    cases x with
    | ok id => exact (Sys.busy_noteTree _ _ _ _).trans (hwrite hx)
    | error e => exact hwrite hx
  | sync =>
    rw [exec_sync] at h
    by_cases hb : (s.batch p).isSome
    · rw [if_pos hb] at h
      exact hwrite h
    · rw [if_neg hb] at h
      cases h
      exact hs
  | compact live => exact hwrite h
  | metaPut key val => exact hwrite h
  | metaDel key => exact hwrite h
  | now =>
    cases h
    exact hs
  | get | getView | size | has | metaGet | metaScan =>
    cases h
    exact hs

end

/-! ## Rules -/

/-- The rules of a process that is alone: `ok` are the choices of the environment, `I` is the
invariant. A call is refused when the environment has no choice. -/
def solo (ext : Ext) (ok : Call → Sys → Choice → Prop) (p : Nat) (I : Sys → Prop) :
    Rules sig Sys where
  sem := sem ext ok p
  Inv s := s.busy p = false ∧ I s
  Rely := Eq
  Guar _ _ := True
  Wait c s := ∀ ch, ¬ok c s ch

section

variable {ext : Ext} {ok : Call → Sys → Choice → Prop} {p : Nat} {I : Sys → Prop} {s s' : Sys}
  {σ σ' : Pending} {α β : Type} {m : TreeM α} {x : Except Err α} {tr : List (Tarmac.Event sig)}
  {Q : Except Err α → Pending → Sys → Prop}

/-- What a safe program of a single process establishes. -/
theorem solo_run (hr : Prog.Run (sem ext ok p) (m σ) s tr (x, σ') s') (hs : (solo ext ok p I).Inv s)
    (hm : Eff.Safe (solo ext ok p I) (fun x σ' s' => Q x σ' s') m σ s) :
    (solo ext ok p I).Inv s' ∧ Q x σ' s' := by
  have h := Prog.Safe.run (R := solo ext ok p I) (fun _ => rfl) hr hs hm
  exact h

/-- The invariant holds wherever a single process is killed. -/
theorem solo_visits (hv : Prog.Visits (sem ext ok p) (m σ) s s') (hs : (solo ext ok p I).Inv s)
    (hm : Eff.Safe (solo ext ok p I) Q m σ s) : (solo ext ok p I).Inv s' :=
  (Prog.Safe.visits (fun _ => rfl) hv hs hm).1

/-- One call. -/
theorem safe_perform {c : Call} {f : c.Resp → TreeM α}
    (h : ∀ ch r s', ok c s ch → exec ext p ch c s = some (r, s') →
      I s' ∧ ((solo ext ok p I).Inv s' → Eff.Safe (solo ext ok p I) Q (f r) σ s')) :
    Eff.Safe (solo ext ok p I) Q (Eff.perform (S := sig) c >>= f) σ s := by
  refine Eff.Safe.perform ?_
  rintro s₁ ⟨hbusy, hI⟩ rfl
  refine ⟨?_, ?_⟩
  · by_cases hok : ∃ ch, ok c s ch
    · obtain ⟨ch, hch⟩ := hok
      obtain ⟨r, s', hx⟩ := @exists_exec ext p ch s c hbusy
      exact .inr ⟨r, s', ch, hch, hx⟩
    · exact .inl fun ch hch => hok ⟨ch, hch⟩
  · rintro r s' ⟨ch, hch, hx⟩
    have hinv : (solo ext ok p I).Inv s' := ⟨exec_busy hx hbusy, (h ch r s' hch hx).1⟩
    exact ⟨hinv, trivial, (h ch r s' hch hx).2 hinv⟩

theorem safe_pure {a : α} (h : Q (.ok a) σ s) : Eff.Safe (solo ext ok p I) Q (pure a) σ s := by
  refine Eff.Safe.pure ?_
  rintro s₁ - rfl
  exact h

theorem safe_throw {e : Err} (h : Q (.error e) σ s) :
    Eff.Safe (solo ext ok p I) Q (Eff.throw e) σ s := by
  refine Eff.Safe.throw ?_
  rintro s₁ - rfl
  exact h

theorem safe_ofExcept {x : Except Err α} (h : Q x σ s) :
    Eff.Safe (solo ext ok p I) Q (Eff.ofExcept x) σ s := by
  cases x with
  | ok a => exact safe_pure h
  | error e => exact safe_throw h

/-- A call that throws what it fails with. -/
theorem safe_ask {c : Call} {hc : c.Resp = Except Err α}
    (h : ∀ ch r s', ok c s ch → exec ext p ch c s = some (r, s') → I s' ∧ Q (hc ▸ r) σ s') :
    Eff.Safe (solo ext ok p I) Q (ask c hc) σ s :=
  safe_perform fun ch r s' hch hx => ⟨(h ch r s' hch hx).1, fun _ => safe_ofExcept (h ch r s' hch hx).2⟩

/-- Sequencing. -/
theorem safe_bind {P : Except Err β → Pending → Sys → Prop} {n : TreeM β} {f : β → TreeM α}
    (hs : (solo ext ok p I).Inv s) (hn : Eff.Safe (solo ext ok p I) P n σ s)
    (hok : ∀ b σ' s', (solo ext ok p I).Inv s' → P (.ok b) σ' s' →
      Eff.Safe (solo ext ok p I) Q (f b) σ' s')
    (herr : ∀ e σ' s', (solo ext ok p I).Inv s' → P (.error e) σ' s' → Q (.error e) σ' s') :
    Eff.Safe (solo ext ok p I) Q (n >>= f) σ s :=
  Eff.Safe.seq (fun _ => rfl) hs hn hok herr

/-! ## The calls -/

/-- How a `put` can end. -/
def PutOutcome (ext : Ext) (p : Nat) (tree : Bool) (d : Bytes) (s : Sys) (x : Except Err Bytes)
    (s' : Sys) : Prop :=
  (x = .ok (ext.blake3 d) ∧
    s' = (s.setModel p ((s.model p).put ext d)).noteTree tree (ext.blake3 d)) ∨
  ∃ e m, x = .error e ∧ s' = s.setModel p m ∧
    (m = s.model p ∨ m = (s.model p).begin ∨ m = (s.model p).putUncommitted ext d)

/-- `put` has one of its outcomes. -/
theorem safe_put {tree : Bool} {d : Bytes} {Q : Except Err Bytes → Pending → Sys → Prop}
    (h : ∀ x s', (∃ ch, ok (.put tree d) s ch) → PutOutcome ext p tree d s x s' → I s' ∧ Q x σ s') :
    Eff.Safe (solo ext ok p I) Q (Cas.put tree d) σ s := by
  refine safe_ask fun ch r s' hch hx => h r s' ⟨ch, hch⟩ ?_
  obtain ⟨⟨x, s₁⟩, hw, heq⟩ := Option.map_eq_some_iff.1 hx
  cases heq
  obtain ⟨-, ⟨rfl, rfl⟩ | ⟨e, m, rfl, rfl, hm⟩⟩ := Sys.write_cases hw
  · exact .inl ⟨rfl, rfl⟩
  · refine .inr ⟨e, m, rfl, rfl, ?_⟩
    rcases hm with hm | hm
    · exact .inl hm
    · rcases List.mem_cons.1 hm with hm | hm
      · exact .inl hm
      · rcases List.mem_cons.1 hm with hm | hm
        · exact .inr (.inl hm)
        · exact .inr (.inr (List.mem_singleton.1 hm))

/-- How a call that writes once can end: it does what it should, or nothing. -/
def WriteOutcome (p : Nat) (m : Model) (s : Sys) (x : Except Err Unit) (s' : Sys) : Prop :=
  (x = .ok () ∧ s' = s.setModel p m) ∨ ∃ e, x = .error e ∧ s' = s

/-- A write that fails changes nothing. -/
theorem writeOutcome {m : Model} {ch : Choice} {x : Except Err Unit} (hs : s.busy p = false)
    (h : s.write p ch () m [s.model p] = some (x, s')) : WriteOutcome p m s x s' := by
  obtain ⟨-, ⟨rfl, rfl⟩ | ⟨e, m', rfl, rfl, hm⟩⟩ := Sys.write_cases h
  · exact .inl ⟨rfl, rfl⟩
  · have hm' : m' = s.model p := by simpa using hm
    subst hm'
    exact .inr ⟨e, rfl, Sys.setModel_model hs⟩

/-- No write of a record fails. -/
def PutsWork (ok : Call → Sys → Choice → Prop) : Prop :=
  ∀ key val s ch, ok (.metaPut key val) s ch → ch.fail = none

/-- `meta_put` writes the record or nothing. -/
theorem safe_metaPut {key val : Bytes} {Q : Except Err Unit → Pending → Sys → Prop}
    (hs : (solo ext ok p I).Inv s)
    (h : ∀ x s', WriteOutcome p ((s.model p).update (·.putRecord key val)) s x s' →
      (PutsWork ok → x = .ok ()) → I s' ∧ Q x σ s') :
    Eff.Safe (solo ext ok p I) Q (Cas.metaPut key val) σ s := by
  refine safe_ask fun ch x s' hch hx => h x s' (writeOutcome hs.1 hx) fun hok => ?_
  have hfail := hok key val s ch hch
  have hw : s.write p ch () ((s.model p).update (·.putRecord key val)) [s.model p] = some (x, s') := hx
  unfold Sys.write at hw
  rw [hs.1, hfail] at hw
  cases hw
  rfl

/-- `meta_del` deletes it or nothing. -/
theorem safe_metaDel {key : Bytes} {Q : Except Err Unit → Pending → Sys → Prop}
    (hs : (solo ext ok p I).Inv s)
    (h : ∀ x s', WriteOutcome p ((s.model p).update (·.delRecord key)) s x s' →
      I s' ∧ Q x σ s') : Eff.Safe (solo ext ok p I) Q (Cas.metaDel key) σ s :=
  safe_ask fun _ x s' _ hx => h x s' (writeOutcome hs.1 hx)

/-- Without a batch, `sync` does nothing. -/
theorem Sys.setModel_sync (hs : s.busy p = false) (hb : (s.batch p).isSome = false) :
    s.setModel p (s.model p).sync = s := by
  have hnone : s.batch p = none := by simpa using hb
  have hsync : (s.model p).sync = s.model p := by
    simp [Sys.model, Model.sync, Model.view, hnone]
  rw [hsync, Sys.setModel_model hs]

/-- `sync` commits or changes nothing. -/
theorem safe_casSync {Q : Except Err Unit → Pending → Sys → Prop} (hs : (solo ext ok p I).Inv s)
    (h : ∀ x s', WriteOutcome p (s.model p).sync s x s' → I s' ∧ Q x σ s') :
    Eff.Safe (solo ext ok p I) Q Cas.sync σ s := by
  refine safe_ask fun ch x s' _ hx => h x s' ?_
  rw [exec_sync] at hx
  by_cases hb : (s.batch p).isSome
  · rw [if_pos hb] at hx
    exact writeOutcome hs.1 hx
  · rw [if_neg hb] at hx
    cases hx
    exact .inl ⟨rfl, (Sys.setModel_sync hs.1 (Bool.eq_false_iff.2 hb)).symm⟩

/-- `compact` keeps what is live, or throws before or after it has committed the batch. -/
theorem safe_compact {live : Bytes → Bool} {Q : Except Err Unit → Pending → Sys → Prop}
    (h : ∀ x s', (x = .ok () ∧ s' = s.setModel p ((s.model p).compact live)) ∨
        (∃ e m, x = .error e ∧ s' = s.setModel p m ∧ (m = s.model p ∨ m = (s.model p).sync)) →
      I s' ∧ Q x σ s') : Eff.Safe (solo ext ok p I) Q (Cas.compact live) σ s := by
  refine safe_ask fun ch x s' _ hx => h x s' ?_
  obtain ⟨-, ⟨rfl, rfl⟩ | ⟨e, m, rfl, rfl, hm⟩⟩ := Sys.write_cases hx
  · exact .inl ⟨rfl, rfl⟩
  · exact .inr ⟨e, m, rfl, rfl, by simpa using hm⟩

/-- How a call that reads can end: it answers, or fails. -/
def ReadOutcome {α : Type} (a : α) (s : Sys) (x : Except Err α) (s' : Sys) : Prop :=
  s' = s ∧ (x = .ok a ∨ ∃ e, x = .error e)

/-- A read answers what is there, or throws. -/
theorem readOutcome {a : α} {ch : Choice} : ReadOutcome a s (ch.read a) s := by
  refine ⟨rfl, ?_⟩
  unfold Choice.read
  cases ch.fail with
  | none => exact .inl rfl
  | some e => exact .inr ⟨e, rfl⟩

theorem lookupOutcome {a : α} {ch : Choice} {h : Bytes} :
    ReadOutcome a s (ch.lookup h a) s := by
  unfold Choice.lookup
  split
  · exact ⟨rfl, .inr ⟨_, rfl⟩⟩
  · exact readOutcome

/-- `get` reads the blob. -/
theorem safe_get {h : Bytes} {Q : Except Err (Option Bytes) → Pending → Sys → Prop}
    (hs : (solo ext ok p I).Inv s)
    (hQ : ∀ x, ReadOutcome ((s.model p).view.blobs h) s x s → Q x σ s) :
    Eff.Safe (solo ext ok p I) Q (Cas.get h) σ s := by
  refine safe_ask fun ch x s' _ hx => ?_
  cases hx
  exact ⟨hs.2, hQ _ lookupOutcome⟩

/-- `has` asks for it. -/
theorem safe_has {h : Bytes} {Q : Except Err Bool → Pending → Sys → Prop}
    (hs : (solo ext ok p I).Inv s)
    (hQ : ∀ x, ReadOutcome ((s.model p).view.blobs h).isSome s x s → Q x σ s) :
    Eff.Safe (solo ext ok p I) Q (Cas.has h) σ s := by
  refine safe_ask fun ch x s' _ hx => ?_
  cases hx
  exact ⟨hs.2, hQ _ lookupOutcome⟩

/-- `meta_get` reads the record. -/
theorem safe_metaGet {key : Bytes} {Q : Except Err (Option Bytes) → Pending → Sys → Prop}
    (hs : (solo ext ok p I).Inv s)
    (hQ : ∀ x, ReadOutcome ((s.model p).view.records.find? key) s x s → Q x σ s) :
    Eff.Safe (solo ext ok p I) Q (Cas.metaGet key) σ s := by
  refine safe_ask fun ch x s' _ hx => ?_
  cases hx
  exact ⟨hs.2, hQ _ readOutcome⟩

/-- `meta_scan` reads the records with the prefix. -/
theorem safe_metaScan {pre : Bytes} {Q : Except Err (List (Bytes × Bytes)) → Pending → Sys → Prop}
    (hs : (solo ext ok p I).Inv s)
    (hQ : ∀ x, ReadOutcome ((s.model p).view.scan pre) s x s → Q x σ s) :
    Eff.Safe (solo ext ok p I) Q (Cas.metaScan pre) σ s := by
  refine safe_ask fun ch x s' _ hx => ?_
  cases hx
  exact ⟨hs.2, hQ _ readOutcome⟩

/-- The clock answers some time. -/
theorem safe_nowNs {f : Nat → TreeM α}
    (h : ∀ ch, ok .now s ch → I { s with clock := ch.clock } ∧
      ((solo ext ok p I).Inv { s with clock := ch.clock } →
        Eff.Safe (solo ext ok p I) Q (f ch.clock) σ { s with clock := ch.clock })) :
    Eff.Safe (solo ext ok p I) Q (nowNs >>= f) σ s := by
  refine safe_perform fun ch r s' hch hx => ?_
  cases hx
  exact h ch hch

end

end Tarmac.Tree
