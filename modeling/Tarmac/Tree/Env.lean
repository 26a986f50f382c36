import Tarmac.PackCas.Meta
import Tarmac.PackCas.Session

/-!
# The environment of `TreeStore`

What the code of `src/tree.cpp` and of the plugin runs against: `PackCas` as the finite map of
`Tarmac.PackCas.Session`, shared by the processes that have the directory open, and the clock. A
process has at most one batch, which is its own working copy until it is committed, and only one
process at a time writes. Each call is one step: an LMDB transaction of its own, or an operation on
the batch of the process.

A put says whether it is `putTree` that calls, and the ids `putTree` was given are kept, so that one
can speak of them; nothing else depends on either.

`exec` is what one call does for the process `p`. A `Choice` settles what the code cannot know:
whether the call fails and how far it gets then, and what time it is. That it is what the code of
`PackCas` does when processes take turns is shown in `Tarmac.Tree.Turns`.
-/

namespace Tarmac.PackCas

namespace Model

/-- Changes the map of the open batch, or else the committed one. -/
def update (m : Model) (f : Store → Store) : Model :=
  match m.batch with
  | some (s, n) => ⟨m.committed, some (f s, n)⟩
  | none => ⟨f m.committed, none⟩

/-- A `put` that stored the blob and could not commit. -/
def putUncommitted (ext : Ext) (m : Model) (d : Bytes) : Model :=
  ⟨m.committed, some (m.view.add (ext.blake3 d) d,
    (m.batch.getD (m.committed, 0)).2 + (packBlob ext d).length)⟩

/-- An update is seen at once. -/
theorem view_update (m : Model) (f : Store → Store) : (m.update f).view = f m.view := by
  unfold update view
  split
  · next h => simp [h]
  · next h => simp [h]

/-- It is committed at once or not at all. -/
theorem committed_update (m : Model) (f : Store → Store) :
    (m.update f).committed = m.committed ∨ (m.update f).committed = f m.view := by
  unfold update view
  split
  · exact .inl rfl
  · next h => exact .inr (by simp [h])

/-- Beginning a batch changes nothing that is seen. -/
@[simp] theorem view_begin (m : Model) : m.begin.view = m.view := rfl

/-- Adding a blob that is there changes nothing. -/
theorem add_of_isSome {s : Store} {h d : Bytes} (hs : (s.blobs h).isSome) : s.add h d = s := by
  have hb : s.blobs.add h d = s.blobs := by
    funext k
    refine if_neg ?_
    rintro ⟨-, hnone⟩
    rw [hnone] at hs
    cases hs
  unfold Store.add
  rw [hb]

/-- A put adds the blob under its hash. -/
theorem view_put (ext : Ext) (m : Model) (d : Bytes) :
    (m.put ext d).view = m.view.add (ext.blake3 d) d := by
  unfold put
  dsimp only
  split
  · next hs => rw [add_of_isSome hs, view_begin]
  · split <;> rfl

/-- It is committed at once or not at all. -/
theorem committed_put (ext : Ext) (m : Model) (d : Bytes) :
    (m.put ext d).committed = m.committed ∨
      (m.put ext d).committed = m.view.add (ext.blake3 d) d := by
  unfold put
  dsimp only
  split
  · exact .inl rfl
  · split
    · exact .inr rfl
    · exact .inl rfl

end Model

end Tarmac.PackCas

namespace Tarmac.Tree

open PackCas

/-- The directory as the processes share it: the committed store, the process with an open batch and
its working copy, the time, and the ids `putTree` has returned. -/
structure Sys where
  committed : Store
  writer : Option (Nat × Store × Nat)
  clock : Nat
  trees : List Bytes

namespace Sys

/-- An empty directory. -/
def fresh : Sys := ⟨⟨fun _ => none, .empty, 0⟩, none, 0, []⟩

/-- The batch of `p`, if it has one. -/
def batch (s : Sys) (p : Nat) : Option (Store × Nat) :=
  match s.writer with
  | some (q, b) => if q = p then some b else none
  | none => none

/-- The store as `p` sees it. -/
def model (s : Sys) (p : Nat) : Model := ⟨s.committed, s.batch p⟩

/-- Another process than `p` is writing. -/
def busy (s : Sys) (p : Nat) : Bool :=
  match s.writer with
  | some (q, _) => decide (q ≠ p)
  | none => false

/-- `p` changed its store. -/
def setModel (s : Sys) (p : Nat) (m : Model) : Sys :=
  { s with committed := m.committed, writer := m.batch.map fun b => (p, b) }

/-- `p` drops its batch: it aborts it or is killed. -/
def drop (s : Sys) (p : Nat) : Sys :=
  { s with writer := if (s.batch p).isSome then none else s.writer }

/-- `putTree` returned an id. -/
def noteTree (s : Sys) (tree : Bool) (id : Bytes) : Sys :=
  if tree then { s with trees := id :: s.trees } else s

end Sys

/-! ## Calls -/

/-- The calls of `TreeStore` and the plugin. -/
inductive Call where
  | put (tree : Bool) (d : Bytes)
  | get (h : Bytes)
  | getView (h : Bytes)
  | size (h : Bytes)
  | has (h : Bytes)
  | sync
  | compact (live : Bytes → Bool)
  | metaPut (key val : Bytes)
  | metaGet (key : Bytes)
  | metaDel (key : Bytes)
  | metaScan (pre : Bytes)
  | now

/-- The answers to the calls. -/
def Call.Resp : Call → Type
  | .put .. => Except Err Bytes
  | .get _ | .getView _ | .metaGet _ => Except Err (Option Bytes)
  | .size _ => Except Err (Option Nat)
  | .has _ => Except Err Bool
  | .sync | .compact _ | .metaPut .. | .metaDel _ => Except Err Unit
  | .metaScan _ => Except Err (List (Bytes × Bytes))
  | .now => Nat

/-- The signature of the calls. -/
abbrev sig : Sig := ⟨Call, Call.Resp⟩

/-- What the environment decides about a call: the error it fails with, if it does, how far it got
then, and the time. -/
structure Choice where
  fail : Option Err := none
  stage : Nat := 0
  clock : Nat := 0

/-- The answer to a call that only reads. -/
def Choice.read {α : Type} (ch : Choice) (a : α) : Except Err α :=
  match ch.fail with
  | some e => .error e
  | none => .ok a

/-- The answer to a lookup by hash. -/
def Choice.lookup {α : Type} (ch : Choice) (h : Bytes) (a : α) : Except Err α :=
  if h.length ≠ kHashLen then .error (.invalidArgument "bad hash length") else ch.read a

/-- What a lookup answers, unless it fails. -/
theorem Choice.lookup_ok {α : Type} {ch : Choice} {h : Bytes} {a b : α} (hb : ch.lookup h a = .ok b) :
    b = a := by
  unfold Choice.lookup Choice.read at hb
  split at hb
  · cases hb
  · split at hb
    · cases hb
    · exact (Except.ok.inj hb).symm

/-- A call of `p` that writes: it waits for other writers; `stages` are the stores a failing call can
leave, and `m` is the store after success. -/
def Sys.write {α : Type} (s : Sys) (p : Nat) (ch : Choice) (a : α) (m : Model)
    (stages : List Model) : Option (Except Err α × Sys) :=
  if s.busy p then none
  else match ch.fail with
    | none => some (.ok a, s.setModel p m)
    | some e => some (.error e, s.setModel p (stages.getD ch.stage (s.model p)))

/-- A write that does not fail. -/
theorem write_ok {α : Type} {s : Sys} {p : Nat} {m : Model} {stages : List Model} {a : α}
    (hs : s.busy p = false) : s.write p {} a m stages = some (.ok a, s.setModel p m) := by
  unfold Sys.write
  rw [hs]
  rfl

/-- A write that fails leaves one of the stages. -/
theorem write_error {α : Type} {s : Sys} {p n : Nat} {m : Model} {stages : List Model} {a : α} {e : Err}
    (hs : s.busy p = false) : s.write p { fail := some e, stage := n } a m stages =
      some (.error e, s.setModel p (stages.getD n (s.model p))) := by
  unfold Sys.write
  rw [hs]
  rfl

/-- What a call of the process `p` does; `none` when it waits. A `getView` of a blob that ends behind
`kMapSize`, which `Mapping::view` refuses, is one that fails. Left out are a commit that fails in
`env_sync` and keeps the `flock`, and the timeout of a process that waits for it. -/
def exec (ext : Ext) (p : Nat) (ch : Choice) (c : Call) (s : Sys) : Option (c.Resp × Sys) :=
  let m := s.model p
  match c with
  | .put tree d =>
    (s.write p ch (ext.blake3 d) (m.put ext d) [m, m.begin, m.putUncommitted ext d]).map fun x =>
      (x.1, match x.1 with
        | .ok id => x.2.noteTree tree id
        | .error _ => x.2)
  | .get h => some (ch.lookup h (m.view.blobs h), s)
  | .getView h => some (ch.lookup h (m.view.blobs h), s)
  | .size h => some (ch.lookup h ((m.view.blobs h).map List.length), s)
  | .has h => some (ch.lookup h (m.view.blobs h).isSome, s)
  | .sync => if (s.batch p).isSome then s.write p ch () m.sync [m] else some (.ok (), s)
  | .compact live => s.write p ch () (m.compact live) [m, m.sync]
  | .metaPut key val => s.write p ch () (m.update (·.putRecord key val)) [m]
  | .metaGet key => some (ch.read (m.view.records.find? key), s)
  | .metaDel key => s.write p ch () (m.update (·.delRecord key)) [m]
  | .metaScan pre => some (ch.read (m.view.scan pre), s)
  | .now => some (ch.clock, { s with clock := ch.clock })

/-- The semantics of the calls of `p` when the environment only makes choices that `ok` admits. -/
def sem (ext : Ext) (ok : Call → Sys → Choice → Prop) (p : Nat) : Sem sig Sys :=
  fun c s r s' => ∃ ch, ok c s ch ∧ exec ext p ch c s = some (r, s')

/-- A call with a choice that passes a check. -/
def execIf (ext : Ext) (p : Nat) (check : Call → Sys → Choice → Bool) (ch : Choice) (c : Call)
    (s : Sys) : Option (c.Resp × Sys) :=
  if check c s ch then exec ext p ch c s else none

/-- An evaluation with checked choices is a run. -/
theorem run_of_execIf {ext : Ext} {ok : Call → Sys → Choice → Prop} {p : Nat}
    {check : Call → Sys → Choice → Bool} (hok : ∀ c s ch, check c s ch = true → ok c s ch) {α : Type}
    {m : Prog sig α} {chs : List Choice} {s s' : Sys} {tr : List (Tarmac.Event sig)} {a : α}
    (h : m.eval (execIf ext p check) chs s = some (tr, a, s')) :
    Prog.Run (sem ext ok p) m s tr a s' := by
  refine Prog.run_of_eval (fun ch c s r s' hx => ?_) h
  unfold execIf at hx
  split at hx
  · next hc => exact ⟨ch, hok c s ch hc, hx⟩
  · cases hx

/-- A state in which such an evaluation is stopped is visited. -/
theorem visits_of_execIf {ext : Ext} {ok : Call → Sys → Choice → Prop} {p : Nat}
    {check : Call → Sys → Choice → Bool} (hok : ∀ c s ch, check c s ch = true → ok c s ch) {α : Type}
    {m : Prog sig α} {chs : List Choice} {s s' : Sys}
    (h : m.stopAfter (execIf ext p check) chs s = some s') : Prog.Visits (sem ext ok p) m s s' := by
  refine Prog.visits_of_stopAfter (fun ch c s r s' hx => ?_) h
  unfold execIf at hx
  split at hx
  · next hc => exact ⟨ch, hok c s ch hc, hx⟩
  · cases hx

/-- What an evaluation is seen to return. -/
theorem ok_of_toOption {ε α : Type} {x : Except ε α} {a : α} (h : x.toOption = some a) :
    x = .ok a := by
  cases x with
  | error e => cases h
  | ok b =>
    cases h
    rfl

end Tarmac.Tree
