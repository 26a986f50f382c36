import Tarmac.Lib.Interleave
import Tarmac.PackCas.ReadPaths
import Tarmac.PackCas.Solo

/-!
# Writers that share a directory

Any number of processes that open one directory, `put`, `sync`, read and drop their handles, their
calls interleaved in any order, each of them killed between any two calls (`writers`). None of them
compacts. The committed index then always describes the committed pack, so that no two entries share
a byte of it, and a blob whose batch was synced, by `sync` or by the `put` that made it large, is read
back by every process from then on (`synced_survives`).

The blobs the processes put are drawn from a set `D` on which BLAKE3 has no collision. What the index
holds is drawn from it too (`DrawnFrom`): this is part of how the processes change the store
(`Widens`), and it is why the bytes read under a hash are the ones that were put.
-/

namespace Tarmac.PackCas

variable {ext : Ext} {D : Bytes → Prop} {p : Nat} {w w' : World} {M M' M'' M0 : Store}

/-! ## The processes -/

/-- What a process does with its handle. -/
inductive HandleOp (D : Bytes → Prop) where
  | open_ (thread : Nat)
  | put (d : Bytes) (drawn : D d)
  | sync
  | drop
  | get (hash : Bytes) (len : hash.length = kHashLen)

/-- A process with an open handle. `batched` is a history variable: the blobs put since the handle's
batch began. -/
structure Holder where
  impl : Impl
  batched : List Bytes

/-- What an operation answers: the outcome of the call, `none` without a handle to call it on, and the
blobs of the batch that was synced in it. -/
structure Answer where
  out : Option (Except Err (Option Bytes))
  synced : List Bytes := []

/-- A `put` has returned. If no batch is open then, it ended with the automatic `sync`. -/
def Holder.afterPut (s : Holder) (d : Bytes) (x : Except Err Bytes × Impl) :
    Answer × Option Holder :=
  match x.1 with
  | .ok h =>
    if x.2.wtxn then (⟨some (.ok (some h)), []⟩, some ⟨x.2, d :: s.batched⟩)
    else (⟨some (.ok (some h)), d :: s.batched⟩, some ⟨x.2, []⟩)
  | .error e => (⟨some (.error e), []⟩, some ⟨x.2, if x.2.wtxn then s.batched else []⟩)

/-- A `sync` has returned. -/
def Holder.afterSync (s : Holder) (x : Except Err Unit × Impl) : Answer × Option Holder :=
  match x.1 with
  | .ok _ => (⟨some (.ok none), s.batched⟩, some ⟨x.2, []⟩)
  | .error e => (⟨some (.error e), []⟩, some ⟨x.2, []⟩)

/-- The code of an operation. -/
def HandleOp.code (ext : Ext) : HandleOp D → Option Holder → Prog sig (Answer × Option Holder)
  | .open_ thread, none => (PackCas.open_ { thread := thread }).bind fun x =>
    .ret (⟨some (x.1.map fun _ => none), []⟩, x.1.toOption.map fun _ => ⟨x.2, []⟩)
  | .put d _, some s => (PackCas.put ext d s.impl).bind fun x => .ret (s.afterPut d x)
  | .sync, some s => (PackCas.sync s.impl).bind fun x => .ret (s.afterSync x)
  | .drop, some s => (PackCas.destroy s.impl).bind fun x => .ret (⟨some (x.1.map fun _ => none), []⟩, none)
  | .get h _, some s => (PackCas.get ext h s.impl).bind fun x =>
    .ret (⟨some x.1, []⟩, some ⟨x.2, s.batched⟩)
  | _, s => .ret (⟨none, []⟩, s)

/-- The processes. A `pwrite` may fail, and a process that is killed leaves its handle behind. -/
def writers (ext : Ext) (D : Bytes → Prop) :
    Machine Nat sig World (HandleOp D) (Option Holder) Answer where
  sem p := sem (faults true) p
  code _ op s := op.code ext s
  init := none
  kill p w w' := w' = w.kill p

/-- Nobody has the directory open. -/
def unopened {D : Bytes → Prop} (_ : Nat) : Process sig (HandleOp D) (Option Holder) Answer :=
  .idle none

/-- A blob was synced: an operation that committed its batch has returned. -/
def Synced (ls : List (Nat × Act sig (HandleOp D) Answer)) (d : Bytes) : Prop :=
  ∃ p op a, (p, .done op a) ∈ ls ∧ d ∈ a.synced

/-! ## How the store changes -/

/-- The blobs of a store are drawn from `D`, each under its hash. -/
def DrawnFrom (ext : Ext) (D : Bytes → Prop) (M : Store) : Prop :=
  ∀ k d, M.blobs k = some d → D d ∧ ext.blake3 d = k

/-- The store keeps its blobs, and what is added is drawn from `D`. -/
structure Widens (ext : Ext) (D : Bytes → Prop) (M M' : Store) : Prop where
  keep : ∀ k d, M.blobs k = some d → M'.blobs k = some d
  drawn : DrawnFrom ext D M → DrawnFrom ext D M'

/-- A store widens itself. -/
theorem Widens.refl (M : Store) : Widens ext D M M := ⟨fun _ _ h => h, id⟩

/-- What is widened twice is widened. -/
theorem Widens.trans (h : Widens ext D M M') (h' : Widens ext D M' M'') : Widens ext D M M'' :=
  ⟨fun k d hk => h'.keep k d (h.keep k d hk), fun hM => h'.drawn (h.drawn hM)⟩

/-- A blob that is there stays. -/
theorem Widens.isSome {k : Bytes} (h : Widens ext D M M') (hk : M.blobs k ≠ none) :
    M'.blobs k ≠ none := by
  obtain ⟨d, hd⟩ := Option.ne_none_iff_exists'.1 hk
  rw [h.keep k d hd]
  exact Option.some_ne_none d

/-- An added blob that may be put. -/
theorem Widens.add (M : Store) {d : Bytes} (hd : D d) :
    Widens ext D M (M.add (ext.blake3 d) d) where
  keep := M.le_add _ d
  drawn hM k d' hk := by
    have hk : (if k = ext.blake3 d ∧ M.blobs (ext.blake3 d) = none then some d else M.blobs k) =
      some d' := hk
    split at hk
    · next h =>
      cases hk
      exact ⟨hd, h.1.symm⟩
    · exact hM k d' hk

/-- What was added is there. -/
theorem Store.add_self (M : Store) (h d : Bytes) : (M.add h d).blobs h ≠ none := by
  have heq : (M.add h d).blobs h = if h = h ∧ M.blobs h = none then some d else M.blobs h := rfl
  rw [heq]
  split
  · exact Option.some_ne_none d
  · next hn => exact fun h' => hn ⟨rfl, h'⟩

/-- Without a collision in `D`, a hash leads to the blob it is the hash of. -/
theorem DrawnFrom.eq (hM : DrawnFrom ext D M)
    (hD : ∀ d d', D d → D d' → ext.blake3 d = ext.blake3 d' → d = d') {d : Bytes} (hd : D d)
    (hk : M.blobs (ext.blake3 d) ≠ none) : M.blobs (ext.blake3 d) = some d := by
  obtain ⟨d', hd'⟩ := Option.ne_none_iff_exists'.1 hk
  obtain ⟨hdrawn, hash⟩ := hM _ _ hd'
  rw [hd', hD d d' hd hdrawn hash.symm]

/-- The runs of the writers. -/
def Setting.writing (ext : Ext) (hext : ext.Lawful) (D : Bytes → Prop) : Setting where
  ext := ext
  choice := faults true
  allow _ _ _ := True
  extra _ := True
  calm := False
  pinned := True
  sound := True
  Kr := Widens ext D
  Kg := Widens ext D
  lawful _ := hext
  reliable _ _ _ h := (h rfl).2
  choice_ok _ _ h := absurd h (by simp)
  allow_extra _ _ _ _ := trivial
  Kr_refl := .refl
  Kr_trans := .trans
  Kg_refl := .refl
  Kg_le _ _ _ h := h

/-! ## One process -/

section

variable {hext : ext.Lawful}

/-- A process between two operations. The blobs of its batch are in the store the batch has made. -/
def Manned (ext : Ext) (hext : ext.Lawful) (D : Bytes → Prop) (p : Nat) : Option Holder → World → Prop
  | none, w => w.txn p = none ∧ w.env.lock ≠ some p
  | some s, w =>
    (s.batched = [] ∧ ∃ M, AtRest (.writing ext hext D) p s.impl w M) ∨
      ∃ M0 M b, InBatch (.writing ext hext D) p s.impl w M0 M b ∧ Widens ext D M0 M ∧
        ∀ d ∈ s.batched, D d ∧ M.blobs (ext.blake3 d) ≠ none

/-- What an operation ends in: what it has synced is committed. -/
def Settles (ext : Ext) (D : Bytes → Prop) (a : Answer) (w : World) : Prop :=
  ∀ d ∈ a.synced, D d ∧ (w.store ext).blobs (ext.blake3 d) ≠ none

/-- A handle at rest has no batch. -/
theorem AtRest.wtxn {S : Setting} {i : Impl} (h : AtRest S p i w M) : i.wtxn = false := h.idle.wtxn

/-- One in a batch has. -/
theorem InBatch.wtxn {S : Setting} {i : Impl} {b : Nat} (h : InBatch S p i w M0 M b) :
    i.wtxn = true := by
  obtain ⟨_, _, _, hb, _⟩ := h
  exact hb.wtxn

/-- The end of `put`. -/
theorem PutEnds.settles {s : Holder} {d : Bytes} {b n : Nat} {x : Except Err Bytes} {i i' : Impl}
    (h : PutEnds (.writing ext hext D) p M0 M b n d i x i' w') (hM : Widens ext D M0 M) (hd : D d)
    (hb : ∀ d ∈ s.batched, D d ∧ M.blobs (ext.blake3 d) ≠ none) :
    Manned ext hext D p (s.afterPut d (x, i')).2 w' ∧
      Settles ext D (s.afterPut d (x, i')).1 w' := by
  obtain ⟨_, h⟩ := h
  cases x with
  | error e =>
    obtain ⟨rfl, _, hin, _⟩ := h
    rw [Holder.afterPut, hin.wtxn]
    exact ⟨.inr ⟨M0, M, b, hin, hM, hb⟩, by simp [Settles]⟩
  | ok k =>
    obtain ⟨rfl, h⟩ := h
    have hadd : Widens ext D M (M.add (ext.blake3 d) d) := .add M hd
    have hall : ∀ d' ∈ d :: s.batched, D d' ∧
        (M.add (ext.blake3 d) d).blobs (ext.blake3 d') ≠ none := by
      intro d' hd'
      rcases List.mem_cons.1 hd' with rfl | hd'
      · exact ⟨hd, M.add_self _ _⟩
      · exact ⟨(hb d' hd').1, hadd.isSome (hb d' hd').2⟩
    rw [Puts] at h
    split at h
    · next hsome =>
      rw [Holder.afterPut, h.wtxn]
      refine ⟨.inr ⟨M0, M, b, h, hM, fun d' hd' => ?_⟩, by simp [Settles]⟩
      rcases List.mem_cons.1 hd' with rfl | hd'
      · exact ⟨hd, Option.isSome_iff_ne_none.1 hsome⟩
      · exact hb d' hd'
    · split at h
      · rw [Holder.afterPut, h.wtxn]
        exact ⟨.inl ⟨rfl, _, h⟩, fun d' hd' => ⟨(hall d' hd').1, h.store.isSome (hall d' hd').2⟩⟩
      · rw [Holder.afterPut, h.wtxn]
        exact ⟨.inr ⟨M0, _, _, h, hM.trans hadd, hall⟩, by simp [Settles]⟩

/-- What the rules say of the code of an operation. -/
abbrev Ends (ext : Ext) (hext : ext.Lawful) (D : Bytes → Prop) (p : Nat)
    (x : Answer × Option Holder) (w : World) : Prop :=
  Manned ext hext D p x.2 w ∧ Settles ext D x.1 w

/-- An `open` leaves the process with a handle. -/
theorem safe_code_open (thread : Nat) (hI : Inv (.writing ext hext D) p w)
    (h : Manned ext hext D p none w) :
    ((HandleOp.open_ (D := D) thread).code ext none).Safe ((Setting.writing ext hext D).rules p)
      (Ends ext hext D p) w := by
  have hrel : (Setting.writing ext hext D).Reliable := Setting.reliable_of_sound trivial
  have hclosed : Closed (.writing ext hext D) p w (w.store ext) w :=
    ⟨h.1, h.2, .refl _, fun hc => hc.elim⟩
  refine Prog.Safe.map hI (safe_open hrel (.inl trivial) hI ⟨rfl, rfl, rfl⟩ hclosed) ?_
  rintro ⟨x, i⟩ w' _ ⟨hx, _, ho⟩
  dsimp only at hx ho
  rw [hx]
  exact ⟨.inl ⟨rfl, _, ho.rest⟩, nofun⟩

/-- A put keeps the handle. -/
theorem safe_code_put {s : Holder} {d : Bytes} (hd : D d) (hI : Inv (.writing ext hext D) p w)
    (h : Manned ext hext D p (some s) w) :
    ((HandleOp.put d hd).code ext (some s)).Safe ((Setting.writing ext hext D).rules p)
      (Ends ext hext D p) w := by
  obtain ⟨hnil, M, hrest⟩ | ⟨M0, M, b, hin, hM, hb⟩ := h
  · refine Prog.Safe.map hI (safe_put_rest_of (S := .writing ext hext D) trivial
      (fun M₁ _ => .add M₁ hd) hI hrest) ?_
    rintro ⟨x, i⟩ w' _ (⟨M₁, n, _, _, hput⟩ | ⟨_, _, ⟨e, rfl⟩, hrest'⟩)
    · exact hput.settles (.refl M₁) hd (by rw [hnil]; nofun)
    · rw [Holder.afterPut]
      dsimp only
      rw [hrest'.wtxn]
      exact ⟨.inl ⟨rfl, M, hrest'⟩, nofun⟩
  · exact Prog.Safe.map hI (safe_put_batch_of (S := .writing ext hext D) trivial
      (hM.trans (.add M hd)) hI hin) fun x w' _ hput => hput.settles hM hd hb

theorem safe_code_sync {s : Holder} (hI : Inv (.writing ext hext D) p w)
    (h : Manned ext hext D p (some s) w) :
    ((HandleOp.sync (D := D)).code ext (some s)).Safe ((Setting.writing ext hext D).rules p)
      (Ends ext hext D p) w := by
  obtain ⟨hnil, M, hrest⟩ | ⟨M0, M, b, hin, hM, hb⟩ := h
  · refine Prog.Safe.map hI (safe_sync_rest hI hrest) ?_
    rintro ⟨_, _⟩ w' _ ⟨rfl, rfl, hrest'⟩
    rw [Holder.afterSync, hnil]
    exact ⟨.inl ⟨rfl, M, hrest'⟩, nofun⟩
  · refine Prog.Safe.map hI (safe_sync_batch_of (S := .writing ext hext D) trivial hM hI hin) ?_
    rintro ⟨_, i⟩ w' _ ⟨rfl, _, hrest', _⟩
    exact ⟨.inl ⟨rfl, M, hrest'⟩, fun d hd => ⟨(hb d hd).1, hrest'.store.isSome (hb d hd).2⟩⟩

/-- Destroying the handle leaves the process without one. -/
theorem safe_code_drop {s : Holder} (hI : Inv (.writing ext hext D) p w)
    (h : Manned ext hext D p (some s) w) :
    ((HandleOp.drop (D := D)).code ext (some s)).Safe ((Setting.writing ext hext D).rules p)
      (Ends ext hext D p) w := by
  obtain ⟨_, M, hrest⟩ | ⟨M0, M, b, hin, _, _⟩ := h
  · refine Prog.Safe.map hI (safe_destroy_rest hI hrest) ?_
    rintro ⟨_, _⟩ w' _ ⟨_, _, hclosed, _⟩
    exact ⟨⟨hclosed.txn, hclosed.unlocked⟩, nofun⟩
  · refine Prog.Safe.map hI (safe_destroy_batch (S := .writing ext hext D) trivial hI hin) ?_
    rintro ⟨_, _⟩ w' _ ⟨_, _, htxn, hlock, _⟩
    exact ⟨⟨htxn, hlock⟩, nofun⟩

/-- A handle that is held is ready. -/
theorem Manned.ready {s : Holder} (h : Manned ext hext D p (some s) w) :
    Ready (.writing ext hext D) p s.impl w := by
  obtain ⟨_, _, hrest⟩ | ⟨_, _, _, ⟨g, ino, t, hb, _⟩, _⟩ := h
  exacts [.inl hrest.idle, .inr ⟨g, ino, t, hb⟩]

/-- An operation that only looks. -/
theorem Manned.steady {s : Holder} {i : Impl} (hI : Inv (.writing ext hext D) p w)
    (h : Manned ext hext D p (some s) w) (hst : Steady (.writing ext hext D) p s.impl w i w')
    (hI' : Inv (.writing ext hext D) p w') : Manned ext hext D p (some ⟨i, s.batched⟩) w' := by
  obtain ⟨hnil, M, hrest⟩ | ⟨M0, M, b, hin, hM, hb⟩ := h
  · exact .inl ⟨hnil, M, hrest.steady hI hI' hst⟩
  · exact .inr ⟨M0, M, b, hin.steady hI hI' hst, hM, hb⟩

/-- A `get` keeps the handle. -/
theorem safe_code_get {s : Holder} {k : Bytes} (hk : k.length = kHashLen)
    (hI : Inv (.writing ext hext D) p w) (h : Manned ext hext D p (some s) w) :
    ((HandleOp.get (D := D) k hk).code ext (some s)).Safe ((Setting.writing ext hext D).rules p)
      (Ends ext hext D p) w :=
  Prog.Safe.map hI (safe_get hI h.ready hk) fun _ _ hI' hx => ⟨h.steady hI hx.1 hI', nofun⟩

/-- Every operation, with or without a handle to call it on. -/
theorem safe_code {op : HandleOp D} {s : Option Holder} (hI : Inv (.writing ext hext D) p w)
    (h : ∀ w₁, Inv (.writing ext hext D) p w₁ → Rely (.writing ext hext D) p w w₁ →
      Manned ext hext D p s w₁) :
    (op.code ext s).Safe ((Setting.writing ext hext D).rules p) (Ends ext hext D p) w := by
  have hw := h w hI (.refl w)
  have hnone : (Prog.ret (S := sig) ((⟨none, []⟩ : Answer), s)).Safe
      ((Setting.writing ext hext D).rules p) (Ends ext hext D p) w :=
    fun w₁ hI₁ hR => ⟨h w₁ hI₁ hR, nofun⟩
  cases s with
  | none =>
    cases op with
    | open_ thread => exact safe_code_open thread hI hw
    | put | sync | drop | get => exact hnone
  | some s =>
    cases op with
    | open_ => exact hnone
    | put d hd => exact safe_code_put hd hI hw
    | sync => exact safe_code_sync hI hw
    | drop => exact safe_code_drop hI hw
    | get k hk => exact safe_code_get hk hI hw

/-! ## All processes -/

/-- The kill takes the transaction of the process and no other. -/
theorem World.txn_kill (w : World) (p q : Nat) :
    (w.kill p).txn q = if q = p then none else w.txn q := by
  obtain ⟨fs, db, writer, lock⟩ := w
  cases writer with
  | none => simp [World.kill, World.txn]
  | some r =>
    obtain ⟨r, t⟩ := r
    by_cases hr : r = p
    · by_cases hq : p = q
      · simp [World.kill, World.txn, hr, hq]
      · simp [World.kill, World.txn, hr, hq, Ne.symm hq]
    · by_cases hq : q = p <;> simp [World.kill, World.txn, hr, hq]

/-- The death of a process changes neither files nor committed tables. -/
theorem Quiet.kill {S : Setting} (hI : Inv S p w) : Quiet S p w (w.kill p) := by
  refine .env hI rfl rfl (fun q hq => ?_) (fun q hq => ?_) fun _ h => ⟨fun q hl => ?_, fun q t ht => ?_⟩
  · show (if w.env.lock = some p then none else w.env.lock) = some q ↔ w.env.lock = some q
    split
    · next hl =>
      rw [hl]
      exact ⟨nofun, fun h => absurd (Option.some.inj h).symm hq⟩
    · exact Iff.rfl
  · rw [World.txn_kill, if_neg hq]
  · have hl : (if w.env.lock = some p then none else w.env.lock) = some q := hl
    split at hl
    · cases hl
    · exact h.lock q hl
  · have ht : (if (w.txn p).isSome then none else w.env.writer) = some (q, t) := ht
    split at ht
    · cases ht
    · exact h.writer q t ht

/-- A killed process has no lock. -/
theorem World.lock_kill (w : World) (p : Nat) : (w.kill p).env.lock ≠ some p := by
  show (if w.env.lock = some p then none else w.env.lock) ≠ some p
  split
  · exact nofun
  · assumption

/-- The invariant of the writers does not depend on the process. -/
theorem inv_writing : Inv (.writing ext hext D) p w ↔ Shape w ∧ Healthy ext w :=
  ⟨fun h => ⟨h.shape, h.healthy trivial⟩, fun h => ⟨h.1, trivial, fun _ => h.2, fun hc => hc.elim⟩⟩

/-- What each of the writers guarantees, the others rely on. -/
theorem writers_composable (hext : ext.Lawful) :
    Machine.Composable (writers ext D) (fun w => Shape w ∧ Healthy ext w)
      (fun p => (Setting.writing ext hext D).rules p) (Manned ext hext D)
      fun _ _ a _ w => Settles ext D a w where
  sem p := by
    funext c w r w'
    exact propext (and_iff_left trivial)
  inv _ _ := inv_writing
  refl _ := Rely.refl
  trans _ _ _ _ hI hI' h h' := h.trans (inv_writing.2 hI) (inv_writing.2 hI') h'
  guar _ q hne _ _ _ _ hG := (hG trivial).1 id q (Ne.symm hne)
  code _ _ _ _ hI h := safe_code (inv_writing.2 hI) fun w₁ hI₁ => h w₁ (inv_writing.1 hI₁)
  kill p w w' hI hk := by
    subst hk
    obtain ⟨hI', hG, _⟩ := (Quiet.kill (inv_writing.2 hI)).step (inv_writing.2 hI) trivial
    refine ⟨inv_writing.1 hI', hG, fun w₁ _ hR => ⟨hR.txn.trans ?_, fun hl => ?_⟩⟩
    · rw [World.txn_kill, if_pos rfl]
    · exact w.lock_kill p (hR.lock.1 hl)

/-- The directory the writers begin with: nobody has it open, its index describes its pack, and its
blobs are drawn from `D`. -/
structure Untouched (ext : Ext) (D : Bytes → Prop) (w : World) : Prop where
  shape : Shape w
  healthy : Healthy ext w
  lock : w.env.lock = none
  writer : w.env.writer = none
  drawn : DrawnFrom ext D (w.store ext)

/-- No two entries of the index share a byte of the pack, unless one of them is empty. -/
def Db.Apart (db : Db) : Prop :=
  ∀ k k' v v' e e', k ≠ k' → db.blobs.find? k = some v → db.blobs.find? k' = some v' →
    decodeEntry v = .ok e → decodeEntry v' = .ok e' → e.len ≠ 0 → e'.len ≠ 0 → e.Disjoint e'

/-- A state of the writers. -/
abbrev Crowd (D : Bytes → Prop) : Type :=
  (Nat → Process sig (HandleOp D) (Option Holder) Answer) × World

/-- What holds of the writers at any time. -/
structure Going (ext : Ext) (hext : ext.Lawful) (D : Bytes → Prop) (x : Crowd D) : Prop where
  inv : Shape x.2 ∧ Healthy ext x.2
  fine : ∀ p, Machine.Fine ((Setting.writing ext hext D).rules p) (Manned ext hext D p)
    (fun _ a _ w => Settles ext D a w) x.2 (x.1 p)
  drawn : DrawnFrom ext D (x.2.store ext)

/-- An untouched directory may go on. -/
theorem Untouched.going (h : Untouched ext D w) : Going ext hext D (unopened, w) where
  inv := ⟨h.shape, h.healthy⟩
  fine p w₁ _ hR := by
    refine ⟨hR.txn.trans ?_, fun hl => ?_⟩
    · rw [World.txn, h.writer]
    · have hl := hR.lock.1 hl
      rw [h.lock] at hl
      cases hl
  drawn := h.drawn

/-- One step of the writers. -/
theorem Going.step {x x' : Crowd D} {l : Nat × Act sig (HandleOp D) Answer}
    (h : Going ext hext D x) (hs : (writers ext D).Step x l x') :
    Going ext hext D x' ∧ Widens ext D (x.2.store ext) (x'.2.store ext) := by
  obtain ⟨hI, hfine, hmove⟩ := Machine.step_safe (writers_composable hext) hs h.inv h.fine
  have hw : Widens ext D (x.2.store ext) (x'.2.store ext) := by
    rcases hmove with hG | heq
    · exact (hG trivial).2
    · rw [heq]
      exact .refl _
  exact ⟨⟨hI, hfine, hw.drawn h.drawn⟩, hw⟩

/-- A run of the writers: the store widens, and what is synced stays. -/
theorem Going.run {x x' : Crowd D} {ls : List (Nat × Act sig (HandleOp D) Answer)}
    (h : Going ext hext D x) (hr : Runs (writers ext D).Step x ls x') :
    Going ext hext D x' ∧ Widens ext D (x.2.store ext) (x'.2.store ext) ∧
      ∀ d, Synced ls d → D d ∧ (x'.2.store ext).blobs (ext.blake3 d) ≠ none := by
  induction hr with
  | nil => exact ⟨h, .refl _, fun d ⟨_, _, _, hm, _⟩ => nomatch hm⟩
  | cons hs hr ih =>
    obtain ⟨h₁, hw₁⟩ := h.step hs
    obtain ⟨h', hw', hsynced⟩ := ih h₁
    refine ⟨h', hw₁.trans hw', fun d ⟨p, op, a, hm, hd⟩ => ?_⟩
    rcases List.mem_cons.1 hm with rfl | hm
    · obtain ⟨_, _, _, hQ⟩ := Machine.run_done (writers_composable hext) hs h.inv h.fine
      exact ⟨(hQ d hd).1, hw'.isSome (hQ d hd).2⟩
    · exact hsynced d ⟨p, op, a, hm, hd⟩

/-- `get` of a blob that is committed when it begins returns the blob. -/
theorem safe_get_committed_blob {s : Holder} {k d : Bytes} (hk : k.length = kHashLen)
    (hI : Inv (.writing ext hext D) p w) (hs : Manned ext hext D p (some s) w)
    (hd : (w.store ext).blobs k = some d) :
    Eff.Safe ((Setting.writing ext hext D).rules p) (fun x _ _ => x = .ok (some d)) (get ext k)
      s.impl w := by
  refine (safe_get hI hs.ready hk).mono fun x i w' hI' hx => ?_
  obtain ⟨db, file, hsees, _, hsome⟩ :=
    hx.2 ⟨Setting.reliable_of_sound trivial, .inl trivial⟩
  suffices h : ∃ e, Holds ext file db.blobs k e d ∧ d.length = e.rawLen by
    obtain ⟨e, he, _⟩ := h
    exact hsome e d he
  obtain ⟨_, _, hrest⟩ | ⟨M0, M, b, ⟨g, ino, t, hb, h0, hM, _⟩, hwiden, _⟩ := hs
  · obtain ⟨w₁, hI₁, hR, _, rfl, rfl⟩ := hsees.eq_snapshot hrest.idle
    exact (hI₁.healthy trivial).holds (hR.store.keep k d hd)
  · obtain ⟨rfl, rfl⟩ := hsees.eq_batch hb
    have hmap : tableMap ext (w.fs.data ino) db.blobs k = some d := by
      rw [← hM, ← h0] at hwiden
      exact hwiden.keep k d hd
    exact ((hb.pending trivial).mono hb.len).holds hmap

/-- A `get` that has begun returns a blob that was committed then, whatever the others do meanwhile. -/
theorem Going.reads {x x' : Crowd D} {ls : List (Nat × Act sig (HandleOp D) Answer)} {s : Holder}
    {k d : Bytes} {hk : k.length = kHashLen} {a : Answer} (h : Going ext hext D x)
    (hidle : x.1 p = .idle (some s)) (hd : (x.2.store ext).blobs k = some d)
    (hr : Runs (writers ext D).Step x
      ((p, .start (.get k hk)) :: (ls ++ [(p, .done (.get k hk) a)])) x')
    (hcalls : ∀ l ∈ ls, l.1 = p → ∃ e, l.2 = .call e) : a.out = some (.ok (some d)) := by
  have hC := writers_composable (D := D) hext
  cases hr with
  | cons hs hr =>
    obtain ⟨h₁, _⟩ := h.step hs
    obtain ⟨x₂, hr₂, hlast⟩ := hr.split
    obtain ⟨h₂, _⟩ := h₁.run hr₂
    cases hs with
    | @move gs w _ _ _ g hs =>
      dsimp only at hidle hd
      rw [hidle] at hs
      cases hs with
      | start =>
        have hI : Inv (.writing ext hext D) p w := inv_writing.2 h.inv
        have hstay : Manned ext hext D p (some s) w := by
          have hp := h.fine p
          dsimp only at hp
          rw [hidle] at hp
          exact hp w hI (.refl w)
        have hget := Prog.Safe.map (Q := fun (y : Answer × Option Holder) _ =>
            y.1.out = some (.ok (some d)))
          (f := fun y => ((⟨some y.1, []⟩ : Answer), some (⟨y.2, s.batched⟩ : Holder))) hI
          (safe_get_committed_blob hk hI hstay hd) fun y _ _ hy => congrArg some hy
        obtain ⟨m, hm, hsafe⟩ := Machine.run_under_way hC hr₂ h₁.inv h₁.fine
          (Function.update_self ..) hget hcalls
        cases hlast with
        | cons hs _ =>
          cases hs with
          | move hs =>
            dsimp only at hm
            rw [hm] at hs
            cases hs with
            | done => exact hsafe _ (inv_writing.2 h₂.inv) (.refl _)

/-- Two entries of the committed index never share a byte of the pack, and a blob that was synced is
in the committed store from then on: any process with a handle reads exactly its bytes, whatever the
others do meanwhile, and nobody can keep it from doing so. -/
theorem synced_survives (hext : ext.Lawful)
    (hD : ∀ d d', D d → D d' → ext.blake3 d = ext.blake3 d' → d = d') {w₀ : World}
    (h₀ : Untouched ext D w₀) {ls : List (Nat × Act sig (HandleOp D) Answer)} {x : Crowd D}
    (hr : Runs (writers ext D).Step (unopened, w₀) ls x) :
    x.2.env.db.Apart ∧ ∀ d, Synced ls d → (x.2.store ext).blobs (ext.blake3 d) = some d ∧
      ∀ p s, x.1 p = .idle (some s) →
        (∃ tr y w', Prog.Run (sem (faults true) p) (get ext (ext.blake3 d) s.impl) x.2 tr y w') ∧
        ∀ ls' a x', Runs (writers ext D).Step x
            ((p, .start (.get (ext.blake3 d) (hext.length_blake3 d))) ::
              (ls' ++ [(p, .done (.get (ext.blake3 d) (hext.length_blake3 d)) a)])) x' →
          (∀ l ∈ ls', l.1 = p → ∃ e, l.2 = .call e) → a.out = some (.ok (some d)) := by
  have hgoing : Going ext hext D (unopened, w₀) := h₀.going
  obtain ⟨hgo, _, hsynced⟩ := hgoing.run hr
  refine ⟨hgo.inv.2.disjoint, fun d hd => ?_⟩
  obtain ⟨hdrawn, hin⟩ := hsynced d hd
  have hblob := hgo.drawn.eq hD hdrawn hin
  refine ⟨hblob, fun p s hidle => ⟨?_, fun ls' a x' hr' hcalls => ?_⟩⟩
  · have hnever : Never .txnBegin (get ext (ext.blake3 d)) := never_casGet rfl
    obtain ⟨tr, y, w', hrun⟩ := exists_run_of_never (p := p) (i := s.impl) (w := x.2)
      (fun _ => true) hnever
    refine ⟨tr, y, w', hrun.mono fun c w r w' hstep => ?_⟩
    obtain ⟨ch, hch, hx⟩ := hstep
    refine ⟨ch, fun hfail => ?_, hx⟩
    obtain ⟨_, _, hno⟩ := hch.1 hfail
    cases hno
  · exact hgo.reads hidle hblob hr' hcalls

end

/-! ## A sample run -/

/-- The blobs of the sample. -/
abbrev sampleBlobs (d : Bytes) : Prop := d = [1] ∨ d = [1, 2]

/-- The evaluation of a call in which nothing fails. -/
def execPlain (p : Nat) (_ : Unit) (c : Call) (w : World) : Option (c.Resp × World) := exec p {} c w

theorem runs_of_evalPlain {ms : List (Nat × Machine.Move (HandleOp D) Unit)} {x x' : Crowd D}
    {ls : List (Nat × Act sig (HandleOp D) Answer)}
    (h : (writers ext D).eval execPlain ms x = some (ls, x')) :
    Runs (writers ext D).Step x ls x' :=
  Machine.runs_of_eval (M := writers ext D)
    (fun p _ c w r w' hx => (⟨{}, nofun, hx⟩ : sem (faults true) p c w r w')) h

/-- The process begins an operation and makes its first `n` calls. -/
def begins (p : Nat) (op : HandleOp D) (n : Nat) : List (Nat × Machine.Move (HandleOp D) Unit) :=
  (p, .start op) :: List.replicate n (p, .go ())

/-- Two processes open the directory, and the first begins to put a blob, whose bytes it has written
when it is killed. -/
def beforeKill : List (Nat × Machine.Move (HandleOp sampleBlobs) Unit) :=
  begins 0 (.open_ 0) 18 ++ (0, .finish) :: begins 1 (.open_ 0) 16 ++ (1, .finish) ::
    begins 0 (.put [1] (.inl rfl)) 8

/-- The second one puts another blob behind them and syncs. -/
def afterKill : List (Nat × Machine.Move (HandleOp sampleBlobs) Unit) :=
  begins 1 (.put [1, 2] (.inr rfl)) 10 ++ (1, .finish) :: begins 1 .sync 4 ++ [(1, .finish)]

/-- The process is killed. -/
def killed (x : Crowd D) (p : Nat) : Crowd D := (Function.update x.1 p (.idle none), x.2.kill p)

/-- The sample, evaluated. -/
def sampleCrowd : Option (List (Nat × Act sig (HandleOp sampleBlobs) Answer) ×
    List (Nat × Act sig (HandleOp sampleBlobs) Answer) × Crowd sampleBlobs) :=
  ((writers .sample sampleBlobs).eval execPlain beforeKill (unopened, .fresh)).bind fun y =>
    ((writers .sample sampleBlobs).eval execPlain afterKill (killed y.2 0)).map fun z =>
      (y.1, z.1, z.2)

/-- A new directory is untouched. -/
theorem untouched_fresh (ext : Ext) (D : Bytes → Prop) : Untouched ext D .fresh :=
  ⟨.fresh, .empty, rfl, rfl, nofun⟩

/-- The step ends an operation that has synced the blob. -/
def hasSynced (d : Bytes) : Act sig (HandleOp sampleBlobs) Answer → Bool
  | .done _ a => decide (d ∈ a.synced)
  | _ => false

/-- The handle of a process between two operations. -/
def openHolder : Process sig (HandleOp sampleBlobs) (Option Holder) Answer → Option Holder
  | .idle s => s
  | .running .. => none

/-- A process that was seen to have a handle has one and is idle. -/
theorem idle_of_openHolder {g : Process sig (HandleOp sampleBlobs) (Option Holder) Answer}
    (h : (openHolder g).isSome) : ∃ s, g = .idle (some s) := by
  rcases g with (_ | s) | _
  · cases h
  · exact ⟨s, rfl⟩
  · cases h

/-- A writer that is killed leaves bytes behind that no entry describes; the blob that is put behind
them is read back by whoever has a handle. -/
theorem synced_survives_sample : ∃ ls x s, Runs (writers .sample sampleBlobs).Step
      (unopened, .fresh) ls x ∧ Synced ls [1, 2] ∧ x.2.pack = [1, 1, 2] ∧ x.1 1 = .idle (some s) ∧
      (x.2.store .sample).blobs (Ext.sample.blake3 [1, 2]) = some [1, 2] := by
  have hsome : sampleCrowd.any (fun y =>
      (y.2.1.any fun l => hasSynced [1, 2] l.2) && decide (y.2.2.2.pack = [1, 1, 2]) &&
      (openHolder (y.2.2.1 1)).isSome) := by
    decide +kernel
  obtain ⟨_, hrun, hobs⟩ := (Option.any_eq_true _ _).1 hsome
  obtain ⟨⟨ls₁, x₁⟩, h₁, hrest⟩ := Option.bind_eq_some_iff.1 hrun
  obtain ⟨⟨ls₂, x⟩, h₂, heq⟩ := Option.map_eq_some_iff.1 hrest
  cases heq
  simp only [Bool.and_eq_true, decide_eq_true_eq] at hobs
  obtain ⟨⟨hsync, hpack⟩, hidle⟩ := hobs
  have hr : Runs (writers .sample sampleBlobs).Step (unopened, .fresh) (ls₁ ++ (0, .kill) :: ls₂) x :=
    (runs_of_evalPlain h₁).append (.cons (.move (.kill rfl)) (runs_of_evalPlain h₂))
  have hsynced : Synced (ls₁ ++ (0, .kill) :: ls₂) [1, 2] := by
    obtain ⟨⟨p, act⟩, hm, hact⟩ := List.any_eq_true.1 hsync
    cases act with
    | done op a =>
      exact ⟨p, op, a, List.mem_append_right _ (.tail _ hm), of_decide_eq_true hact⟩
    | start | call | kill => cases hact
  have hD : ∀ d d', sampleBlobs d → sampleBlobs d' → Ext.sample.blake3 d = Ext.sample.blake3 d' →
      d = d' := by
    rintro _ _ (rfl | rfl) (rfl | rfl) <;> decide
  obtain ⟨s, hs⟩ := idle_of_openHolder hidle
  exact ⟨_, x, s, hr, hsynced, hpack, hs,
    ((synced_survives Ext.lawful_sample hD (untouched_fresh _ _) hr).2 _ hsynced).1⟩

end Tarmac.PackCas
