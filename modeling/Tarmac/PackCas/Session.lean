import Tarmac.Lib.Runs
import Tarmac.PackCas.Solo

/-!
# `PackCas` as a finite map

What a `PackCas` is for, as `tests/model_test.cpp` has it: a finite map from hashes to blobs, with
the committed map to fall back to (`Model`). A session is a sequence of operations one thread issues
on one handle at a time, beginning with an empty directory (`Session`). Every session is a run of
the model (`Abs.op` for one operation, `Session.abs` for all of them).

The model says `getView` and `compact` may refuse what lies behind the first `kMapSize` bytes of the
pack, because the code maps no more of it.
-/

namespace Tarmac.PackCas

/-! ## Operations -/

/-- The operations of a session. `reopen` drops the handle, without a `sync`, and opens the
directory again. -/
inductive Op where
  | put (d : Bytes)
  | get (h : Bytes)
  | getView (h : Bytes)
  | size (h : Bytes)
  | has (h : Bytes)
  | sync
  | reopen
  | compact (live : Bytes → Bool)

/-- What operations return. -/
inductive Value where
  | unit
  | hash (h : Bytes)
  | blob (b : Option Bytes)
  | length (n : Option Nat)
  | bool (b : Bool)
  deriving DecidableEq

/-- The code of an operation. -/
def Op.code (ext : Ext) : Op → CasM Value
  | .put d => PackCas.put ext d >>= fun h => pure (.hash h)
  | .get h => PackCas.get ext h >>= fun b => pure (.blob b)
  | .getView h => PackCas.getView ext h >>= fun b => pure (.blob b)
  | .size h => PackCas.size h >>= fun n => pure (.length n)
  | .has h => PackCas.has h >>= fun b => pure (.bool b)
  | .sync => PackCas.sync >>= fun _ => pure .unit
  | .reopen => (destroy >>= fun _ => open_) >>= fun _ => pure .unit
  | .compact live => PackCas.compact (fun h => .ok (live h)) >>= fun _ => pure .unit

/-- Hashes have 32 bytes. -/
def Op.HashOk : Op → Prop
  | .get h | .getView h | .size h | .has h => h.length = kHashLen
  | _ => True

def Op.isCompact : Op → Bool
  | .compact _ => true
  | _ => false

/-- An operation with its outcome. `faulty` says whether a `pwrite` may fail while it runs, `size` is
the size of the pack when it begins, and `far` are the hashes whose bytes end behind the first
`kMapSize` bytes of the pack. -/
structure Event where
  op : Op
  out : Except Err Value
  faulty : Bool
  size : Nat
  far : Bytes → Prop

/-! ## The model -/

/-- The committed map, and the map of the open batch with the bytes it has stored. -/
structure Model where
  committed : Store
  batch : Option (Store × Nat)

namespace Model

def init : Model := ⟨⟨fun _ => none, .empty, 0⟩, none⟩

/-- The map as the handle sees it. -/
def view (m : Model) : Store := (m.batch.getD (m.committed, 0)).1

/-- The batch `put` works in. -/
def begin (m : Model) : Model := ⟨m.committed, some (m.batch.getD (m.committed, 0))⟩

def sync (m : Model) : Model := ⟨m.view, none⟩

/-- Drops the batch. -/
def reopen (m : Model) : Model := ⟨m.committed, none⟩

def compact (m : Model) (live : Bytes → Bool) : Model := ⟨m.view.restrict live, none⟩

/-- Adds a blob, and commits when the batch has become large. -/
def put (ext : Ext) (m : Model) (d : Bytes) : Model :=
  let h := ext.blake3 d
  let n := (m.batch.getD (m.committed, 0)).2 + (packBlob ext d).length
  if (m.view.blobs h).isSome then m.begin
  else if kAutoSyncBytes ≤ n then ⟨m.view.add h d, none⟩
  else ⟨m.committed, some (m.view.add h d, n)⟩

/-- What the operations do to the map, and what they return. -/
inductive Step (ext : Ext) : Model → Event → Model → Prop where
  | put {m : Model} {faulty : Bool} {size : Nat} {far : Bytes → Prop} (d : Bytes) :
      Step ext m ⟨.put d, .ok (.hash (ext.blake3 d)), faulty, size, far⟩ (m.put ext d)
  | putFails {m : Model} {faulty : Bool} {size : Nat} {far : Bytes → Prop} (d : Bytes)
      (new : m.view.blobs (ext.blake3 d) = none)
      (why : faulty = true ∨ maxOff < size + (packBlob ext d).length) :
      Step ext m ⟨.put d, .error (.sys "pwrite pack"), faulty, size, far⟩ m.begin
  | get {m : Model} {faulty : Bool} {size : Nat} {far : Bytes → Prop} (h : Bytes) :
      Step ext m ⟨.get h, .ok (.blob (m.view.blobs h)), faulty, size, far⟩ m
  | getView {m : Model} {faulty : Bool} {size : Nat} {far : Bytes → Prop} (h : Bytes)
      (near : ¬far h) : Step ext m ⟨.getView h, .ok (.blob (m.view.blobs h)), faulty, size, far⟩ m
  | getViewFar {m : Model} {faulty : Bool} {size : Nat} {far : Bytes → Prop} (h : Bytes)
      (isFar : far h) :
      Step ext m ⟨.getView h, .error (.corrupt "pack index out of bounds"), faulty, size, far⟩ m
  | size {m : Model} {faulty : Bool} {size : Nat} {far : Bytes → Prop} (h : Bytes) :
      Step ext m ⟨.size h, .ok (.length ((m.view.blobs h).map List.length)), faulty, size, far⟩ m
  | has {m : Model} {faulty : Bool} {size : Nat} {far : Bytes → Prop} (h : Bytes) :
      Step ext m ⟨.has h, .ok (.bool (m.view.blobs h).isSome), faulty, size, far⟩ m
  | sync {m : Model} {faulty : Bool} {size : Nat} {far : Bytes → Prop} :
      Step ext m ⟨.sync, .ok .unit, faulty, size, far⟩ m.sync
  | reopen {m : Model} {faulty : Bool} {size : Nat} {far : Bytes → Prop} :
      Step ext m ⟨.reopen, .ok .unit, faulty, size, far⟩ m.reopen
  | compact {m : Model} {faulty : Bool} {size : Nat} {far : Bytes → Prop} (live : Bytes → Bool) :
      Step ext m ⟨.compact live, .ok .unit, faulty, size, far⟩ (m.compact live)
  | compactFails {m : Model} {faulty : Bool} {size : Nat} {far : Bytes → Prop}
      (live : Bytes → Bool) (e : Err) (large : kMapSize < size) :
      Step ext m ⟨.compact live, .error e, faulty, size, far⟩ m.sync

end Model

/-! ## Sessions -/

/-- The tables the process `p` reads: its working copy, or the committed ones. -/
def World.seen (w : World) (p : Nat) : Db := (w.txn p).getD w.env.db

/-- The bytes of a hash end behind what `get_view` maps. -/
def World.far (w : World) (p : Nat) (h : Bytes) : Prop :=
  ∃ e, (w.seen p).entry h = .ok (some e) ∧ kMapSize < e.off + e.len

/-- The process `p` runs one operation to its end. -/
def sessionStep (ext : Ext) (p : Nat) (s : Impl × World) (e : Event) (s' : Impl × World) : Prop :=
  (∃ tr, Prog.Run (sem (faults e.faulty) p) (e.op.code ext s.1) s.2 tr (e.out, s'.1) s'.2) ∧
    e.size = s.2.pack.length ∧ e.far = s.2.far p

/-- A session of the process `p`: it opens an empty directory and runs operations. -/
def Session (ext : Ext) (p : Nat) (es : List Event) (i : Impl) (w : World) : Prop :=
  ∃ thread tr x i₀ w₀, Prog.Run (sem (faults true) p) (open_ { thread := thread }) .fresh tr
    (x, i₀) w₀ ∧ Runs (sessionStep ext p) (i₀, w₀) es (i, w)

/-! ## One operation -/

section

variable {ext : Ext} {p : Nat} {w w' : World} {i i' : Impl} {m : Model} {S : Setting}
  {faulty : Bool}

/-- The handle and the directory stand for the model's maps. -/
def Abs (S : Setting) (p : Nat) (m : Model) (i : Impl) (w : World) : Prop :=
  match m.batch with
  | none => AtRest S p i w m.committed
  | some (M, b) => InBatch S p i w m.committed M b

/-- What an operation of a session needs of a setting. -/
structure Setting.Sequential (S : Setting) (faulty : Bool) : Prop where
  faulty : S.CanPwriteFail → faulty = true
  calm : S.calm
  sound : S.sound
  pinned : S.pinned
  grows : S.Grows
  eq : ∀ M M', S.Kr M M' → M = M'
  compacts : ∀ (live : Bytes → Bool) M, S.Compacts (fun h => .ok (live h)) M

/-- The tables and the pack a handle sees are those of the model. -/
structure Views (S : Setting) (m : Model) (db : Db) (file : Bytes) : Prop where
  view : storeOf S.ext file db = m.view
  table : TableOk S.ext file file.length db.blobs

/-- The tables and the pack a handle reads. -/
structure Reads (S : Setting) (p : Nat) (m : Model) (w : World) (db : Db) (file : Bytes) : Prop
    extends Views S m db file where
  seen : db = w.seen p

/-- A handle stands for the model in every setting that admits it. -/
theorem Abs.setting {S' : Setting} (he : S'.ext = S.ext) (hS : S.sound)
    (hK : ∀ M M', S.Kr M M' → S'.Kr M M') (h : Abs S p m i w) : Abs S' p m i w := by
  rw [Abs] at h ⊢
  split at h
  · exact ⟨h.idle, he ▸ hK _ _ h.store, h.unlocked⟩
  · obtain ⟨g, ino, t, hb, h0, hM, hbytes⟩ := h
    exact ⟨g, ino, t, ⟨hb.handle, hb.wtxn, hb.thread, hb.lock, hb.txn, hb.cur, hb.gen, hb.name,
      hb.tgen, hb.format, hb.tformat, hb.le, hb.len, fun _ => hb.grow hS,
      fun _ => he ▸ hb.committed hS, fun _ => he ▸ hb.pending hS⟩, he ▸ h0, he ▸ hM, hbytes⟩

/-- A handle of the model is ready. -/
theorem Abs.ready (h : Abs S p m i w) : Ready S p i w := by
  rw [Abs] at h
  split at h
  · exact .inl h.idle
  · obtain ⟨g, ino, t, hb, _⟩ := h
    exact .inr ⟨g, ino, t, hb⟩

/-- What it sees are tables and a pack of the model, as long as the others leave the store as it is. -/
theorem Abs.views (hS : S.sound) (hK : ∀ M M', S.Kr M M' → M = M') (h : Abs S p m i w) {db : Db}
    {file : Bytes} (hs : Sees S p i w w' db file) : Views S m db file := by
  rw [Abs] at h
  split at h
  · next hm =>
    obtain ⟨w₁, hI₁, hR, _, rfl, rfl⟩ := hs.eq_snapshot h.idle
    refine ⟨?_, hI₁.healthy hS⟩
    rw [Model.view, hm]
    exact (hK _ _ (S.Kr_trans h.store hR.store)).symm
  · next M b hm =>
    obtain ⟨g, ino, t, hb, _, hM, _⟩ := h
    obtain ⟨rfl, rfl⟩ := hs.eq_batch hb
    refine ⟨?_, (hb.pending hS).mono hb.len⟩
    rw [Model.view, hm]
    exact hM

/-- If no other process moves, they are those of the world. -/
theorem Abs.reads (hS : S.Sequential faulty) (h : Abs S p m i w) {db : Db} {file : Bytes}
    (hs : Sees S p i w w' db file) : Reads S p m w db file := by
  refine ⟨h.views hS.sound hS.eq hs, ?_⟩
  rw [Abs] at h
  split at h
  · obtain ⟨w₁, _, hR, _, rfl, rfl⟩ := hs.eq_snapshot h.idle
    rw [hR.calm hS.calm, World.seen, h.idle.txn]
    rfl
  · obtain ⟨g, ino, t, hb, _⟩ := h
    obtain ⟨rfl, rfl⟩ := hs.eq_batch hb
    rw [World.seen, hb.txn]
    rfl

/-- An operation that only looks leaves the model as it is. -/
theorem Abs.steady (hS : S.Sequential faulty) (hI : Inv S p w) (h : Abs S p m i w)
    (hst : Steady S p i w i' w') : Abs S p m i' w' := by
  obtain rfl := hst.rely.calm hS.calm
  rw [Abs] at h ⊢
  split at h
  · exact h.steady hI hI hst
  · exact h.steady hI hI hst

/-- The blob the model has under a hash. -/
theorem Views.blobs {db : Db} {file : Bytes} (h : Views S m db file) (k : Bytes) :
    m.view.blobs k = tableMap S.ext file db.blobs k := congrFun (congrArg Store.blobs h.view.symm) k

/-- A blob of the model is behind an entry of the tables. -/
theorem Views.holds {db : Db} {file k d : Bytes} (h : Views S m db file)
    (hk : m.view.blobs k = some d) :
    ∃ e, Holds S.ext file db.blobs k e d ∧ db.entry k = .ok (some e) ∧ d.length = e.rawLen := by
  rw [h.blobs] at hk
  obtain ⟨e, hh, hlen⟩ := h.table.holds hk
  exact ⟨e, hh, hh.entry, hlen⟩

/-- What the model does not have has no index value. -/
theorem Views.absent {db : Db} {file k : Bytes} (h : Views S m db file)
    (hk : m.view.blobs k = none) : db.blobs.find? k = none := by
  rw [h.blobs] at hk
  exact h.table.map_eq_none.1 hk

/-- What an operation of a session ends in. -/
def Follows (S : Setting) (p : Nat) (faulty : Bool) (m : Model) (w : World) (op : Op)
    (x : Except Err Value) (i' : Impl) (w' : World) : Prop :=
  ∃ m', Model.Step S.ext m ⟨op, x, faulty, w.pack.length, w.far p⟩ m' ∧ Abs S p m' i' w'

/-- The end of `put` in the terms of the model. -/
theorem PutEnds.follows (hS : S.Sequential faulty) {d : Bytes} {n : Nat} {x : Except Err Bytes}
    (hn : n ≤ w.pack.length)
    (h : PutEnds S p m.committed m.view (m.batch.getD (m.committed, 0)).2 n d i x i' w') :
    Follows S p faulty m w (.put d) (x.map .hash) i' w' := by
  obtain ⟨_, h⟩ := h
  cases x with
  | error e =>
    obtain ⟨rfl, hnew, hb, hwhy⟩ := h
    exact ⟨m.begin, .putFails d hnew (hwhy.imp hS.faulty fun hlt => by omega), hb⟩
  | ok k =>
    obtain ⟨rfl, hp⟩ := h
    refine ⟨_, .put d, ?_⟩
    rw [Puts] at hp
    rw [Model.put]
    split at hp
    · next hsome =>
      rw [if_pos hsome]
      exact hp
    · next hnone =>
      rw [if_neg hnone]
      split at hp
      · next hbig =>
        rw [if_pos hbig]
        exact hp
      · next hsmall =>
        rw [if_neg hsmall]
        exact hp

/-- A put follows the model. -/
theorem safe_op_put (hS : S.Sequential faulty) (d : Bytes) (hI : Inv S p w) (h : Abs S p m i w) :
    Eff.Safe (S.rules p) (Follows S p faulty m w (.put d)) ((Op.put d).code S.ext) i w := by
  refine Eff.Safe.map (P := fun x i' w' => ∃ n, n ≤ w.pack.length ∧
    PutEnds S p m.committed m.view (m.batch.getD (m.committed, 0)).2 n d i x i' w') hI ?_
    fun x i' w' _ ⟨n, hn, h⟩ => h.follows hS hn
  rw [Abs] at h
  split at h
  · next hm =>
    refine (safe_put_rest hS.sound hS.grows hI h).mono fun x i' w' _ h' => ?_
    obtain ⟨M, n, hM, hn, h'⟩ | h' := h'
    · obtain rfl := hS.eq _ _ hM
      refine ⟨n, (hn hS.calm).le, ?_⟩
      rwa [Model.view, hm]
    · exact absurd hS.calm h'.1
  · next hm =>
    refine (safe_put_batch hS.sound hS.grows hI h).mono fun x i' w' _ h' => ⟨i.end_, ?_, ?_⟩
    · obtain ⟨g, ino, t, hb, _⟩ := h
      rw [hb.pack]
      exact hb.len
    · rwa [Model.view, hm]

/-- A read that refuses the ranges `r` refuses. -/
theorem Fetches.follows {k : Bytes} {r : Nat → Nat → Option Err} {x : Except Err (Option Bytes)}
    (hS : S.Sequential faulty) (hI : Inv S p w) (h : Abs S p m i w) (hx : Fetches S p i w k r x i' w') :
    Abs S p m i' w' ∧
      (m.view.blobs k = none → x = .ok none ∧ (w.seen p).entry k = .ok none) ∧
      ∀ d, m.view.blobs k = some d →
        ∃ e, (w.seen p).entry k = .ok (some e) ∧ x = answer (r e.off e.len) (some d) := by
  obtain ⟨hst, hf⟩ := hx
  obtain ⟨db, file, hs, hnone, hsome⟩ := hf ⟨Setting.reliable_of_sound hS.sound, .inl hS.pinned⟩
  have hr := h.reads hS hs
  refine ⟨h.steady hS hI hst, fun hk => ?_, fun d hk => ?_⟩
  · have habs := hr.absent hk
    exact ⟨hnone habs, hr.seen ▸ Db.entry_eq_none habs⟩
  · obtain ⟨e, hh, he, _⟩ := hr.holds hk
    exact ⟨e, hr.seen ▸ he, hsome e d hh⟩

theorem safe_op_get (hS : S.Sequential faulty) {k : Bytes} (hk : k.length = kHashLen) (hI : Inv S p w)
    (h : Abs S p m i w) :
    Eff.Safe (S.rules p) (Follows S p faulty m w (.get k)) ((Op.get k).code S.ext) i w := by
  refine Eff.Safe.map hI (safe_get hI h.ready hk) fun x i' w' _ hx => ?_
  obtain ⟨h', hnone, hsome⟩ := hx.follows hS hI h
  cases hb : m.view.blobs k with
  | none =>
    rw [(hnone hb).1]
    exact ⟨m, hb ▸ .get k, h'⟩
  | some d =>
    obtain ⟨_, _, rfl⟩ := hsome d hb
    exact ⟨m, hb ▸ .get k, h'⟩

theorem safe_op_getView (hS : S.Sequential faulty) {k : Bytes} (hk : k.length = kHashLen)
    (hI : Inv S p w) (h : Abs S p m i w) :
    Eff.Safe (S.rules p) (Follows S p faulty m w (.getView k)) ((Op.getView k).code S.ext) i w := by
  refine Eff.Safe.map hI (safe_getView hI h.ready hk) fun x i' w' _ hx => ?_
  obtain ⟨h', hnone, hsome⟩ := hx.follows hS hI h
  cases hb : m.view.blobs k with
  | none =>
    rw [(hnone hb).1]
    refine ⟨m, hb ▸ .getView k ?_, h'⟩
    rintro ⟨e, he, _⟩
    rw [(hnone hb).2] at he
    cases he
  | some d =>
    obtain ⟨e, he, rfl⟩ := hsome d hb
    by_cases hfar : kMapSize < e.off + e.len
    · rw [viewRefuses, if_pos hfar]
      exact ⟨m, .getViewFar k ⟨e, he, hfar⟩, h'⟩
    · rw [viewRefuses, if_neg hfar]
      refine ⟨m, hb ▸ .getView k ?_, h'⟩
      rintro ⟨e', he', hfar'⟩
      rw [he] at he'
      cases he'
      exact hfar hfar'

/-- `size` and `has` tell what is behind the entry. -/
theorem Consults.follows {α : Type} {k : Bytes} {f : Option IndexEntry → α} {x : Except Err α}
    (hS : S.Sequential faulty) (hI : Inv S p w) (h : Abs S p m i w) (hx : Consults S p i w k f x i' w') :
    Abs S p m i' w' ∧ (m.view.blobs k = none → x = .ok (f none)) ∧
      ∀ d, m.view.blobs k = some d → ∃ e, d.length = e.rawLen ∧ x = .ok (f (some e)) := by
  obtain ⟨rfl, hR, hx⟩ := hx
  obtain rfl := hR.calm hS.calm
  obtain ⟨db, file, hs, rfl⟩ := hx (Setting.reliable_of_sound hS.sound)
  have hr := h.reads hS hs
  refine ⟨h, fun hk => ?_, fun d hk => ?_⟩
  · rw [Db.entry_eq_none (hr.absent hk)]
    rfl
  · obtain ⟨e, _, he, hlen⟩ := hr.holds hk
    refine ⟨e, hlen, ?_⟩
    rw [he]
    rfl

theorem safe_op_size (hS : S.Sequential faulty) {k : Bytes} (hk : k.length = kHashLen) (hI : Inv S p w)
    (h : Abs S p m i w) :
    Eff.Safe (S.rules p) (Follows S p faulty m w (.size k)) ((Op.size k).code S.ext) i w := by
  refine Eff.Safe.map hI (safe_size hI h.ready hk) fun x i' w' _ hx => ?_
  obtain ⟨h', hnone, hsome⟩ := hx.follows hS hI h
  have hstep : Model.Step S.ext m ⟨.size k, _, faulty, w.pack.length, w.far p⟩ m := .size k
  cases hb : m.view.blobs k with
  | none =>
    rw [hnone hb]
    rw [hb] at hstep
    exact ⟨m, hstep, h'⟩
  | some d =>
    obtain ⟨e, hlen, rfl⟩ := hsome d hb
    rw [hb, Option.map_some, hlen] at hstep
    exact ⟨m, hstep, h'⟩

theorem safe_op_has (hS : S.Sequential faulty) {k : Bytes} (hk : k.length = kHashLen) (hI : Inv S p w)
    (h : Abs S p m i w) :
    Eff.Safe (S.rules p) (Follows S p faulty m w (.has k)) ((Op.has k).code S.ext) i w := by
  refine Eff.Safe.map hI (safe_has hI h.ready hk) fun x i' w' _ hx => ?_
  obtain ⟨h', hnone, hsome⟩ := hx.follows hS hI h
  have hstep : Model.Step S.ext m ⟨.has k, _, faulty, w.pack.length, w.far p⟩ m := .has k
  cases hb : m.view.blobs k with
  | none =>
    rw [hnone hb]
    rw [hb] at hstep
    exact ⟨m, hstep, h'⟩
  | some d =>
    obtain ⟨e, _, rfl⟩ := hsome d hb
    rw [hb] at hstep
    exact ⟨m, hstep, h'⟩

theorem safe_op_sync (hS : S.Sequential faulty) (hI : Inv S p w) (h : Abs S p m i w) :
    Eff.Safe (S.rules p) (Follows S p faulty m w .sync) (Op.sync.code S.ext) i w := by
  rw [Abs] at h
  split at h
  · next hm =>
    refine Eff.Safe.map hI (safe_sync_rest hI h) ?_
    rintro _ _ w' _ ⟨rfl, rfl, h'⟩
    refine ⟨m.sync, .sync, ?_⟩
    rwa [Abs, Model.sync, Model.view, hm]
  · next hm =>
    refine Eff.Safe.map hI (safe_sync_batch hS.sound hS.grows hI h) ?_
    rintro _ i' w' _ ⟨rfl, _, h', _⟩
    refine ⟨m.sync, .sync, ?_⟩
    rwa [Abs, Model.sync, Model.view, hm]

/-- Closing the store and opening it again follows the model. -/
theorem safe_op_reopen (hS : S.Sequential faulty) (hI : Inv S p w) (h : Abs S p m i w) :
    Eff.Safe (S.rules p) (Follows S p faulty m w .reopen) (Op.reopen.code S.ext) i w := by
  have hrel := Setting.reliable_of_sound hS.sound
  have hdestroy : Eff.Safe (S.rules p) (fun x i' w' => x = .ok () ∧ i' = i.closed ∧
      ∃ w₀, Closed S p w' m.committed w₀) destroy i w := by
    rw [Abs] at h
    split at h
    · refine (safe_destroy_rest hI h).mono ?_
      rintro _ _ w' _ ⟨rfl, rfl, hc, _⟩
      exact ⟨rfl, rfl, w, hc⟩
    · refine (safe_destroy_batch hS.sound hI h).mono ?_
      rintro _ _ w' _ ⟨rfl, rfl, ht, hl, hM⟩
      exact ⟨rfl, rfl, w', ht, hl, hM, fun _ => .of_eq rfl rfl⟩
  refine Eff.Safe.map (P := fun x i' w' => x = .ok () ∧ AtRest S p i' w' m.committed) hI ?_ ?_
  · refine safe_seq hI hdestroy ?_ fun _ _ _ _ h => nomatch h.1
    rintro _ _ w₁ hI₁ ⟨_, rfl, w₀, hc⟩
    refine (safe_open hrel (.inl hS.pinned) hI₁ (Impl.new_closed i) hc).mono ?_
    rintro _ i' w' _ ⟨rfl, _, ho⟩
    exact ⟨rfl, ho.rest⟩
  · rintro _ i' w' _ ⟨rfl, h'⟩
    exact ⟨m.reopen, .reopen, h'⟩

/-- The end of `compact` in the terms of the model. -/
theorem Outcome.follows (hS : S.Sequential faulty) {live : Bytes → Bool} {w₁ : World}
    {x : Except Err Unit} (hw₁ : w₁.pack = w.pack)
    (h : Outcome S p (fun k => .ok (live k)) m.view w₁ (fun w => w.env.lock ≠ some p) i x i' w') :
    Follows S p faulty m w (.compact live) (x.map fun _ => .unit) i' w' := by
  cases x with
  | ok u =>
    obtain ⟨_, hid, hl, ha⟩ := h
    obtain ⟨M', hM', hr⟩ := ha.store
    obtain rfl := hS.eq _ _ hM'
    exact ⟨m.compact live, .compact live, hid, hr, hl⟩
  | error e =>
    obtain ⟨_, hid, hl, _, ⟨hb, hx⟩ | ⟨_, hrel⟩⟩ := h
    · have hlarge : kMapSize < w.pack.length := by
        rw [← hw₁]
        refine (hx hS.calm (Setting.reliable_of_sound hS.sound) hS.sound).resolve_left ?_
        rintro ⟨k, e', he'⟩
        cases he'
      exact ⟨m.sync, .compactFails live e hlarge, hid, hb.store, hl⟩
    · exact absurd (Setting.reliable_of_sound hS.sound) hrel

/-- So does `compact`, as long as there is room for a generation. -/
theorem safe_op_compact (hS : S.Sequential faulty) (live : Bytes → Bool) (hI : Inv S p w)
    (h : Abs S p m i w) (hroom : m.view.gen + 1 < 2 ^ 64) :
    Eff.Safe (S.rules p) (Follows S p faulty m w (.compact live)) ((Op.compact live).code S.ext) i w := by
  have hroom : ∀ w₁ w' g, Inv S p w' → Before S m.view w₁ w' → w'.env.db.gen = .ok g →
      g + 1 < 2 ^ 64 := fun w₁ w' g _ hb hg => by
    rw [hS.eq _ _ hb.store] at hroom
    simpa [World.store, storeOf, hg, Except.toOption] using hroom
  rw [Abs] at h
  split at h
  · next hm =>
    have hv : m.view = m.committed := by rw [Model.view, hm]; rfl
    rw [← hv] at h
    refine Eff.Safe.map hI (safe_compact_of_rest (hS.compacts live _) hI h hroom) ?_
    rintro x i' w' _ ⟨w₁, hc, ho⟩
    exact ho.follows hS (by rw [hc hS.calm])
  · next M b hm =>
    have hv : m.view = M := by rw [Model.view, hm]; rfl
    rw [← hv] at h
    refine Eff.Safe.map hI (safe_compact_of_batch hS.sound hS.grows (hS.compacts live _) hI h hroom) ?_
    rintro x i' w' _ ⟨w₁, hc, ho⟩
    exact ho.follows hS (hc hS.calm)

/-- Every operation does to the directory what it does to the model. -/
theorem safe_op (hS : S.Sequential faulty) (op : Op) (hop : op.HashOk) (hI : Inv S p w)
    (h : Abs S p m i w) (hroom : op.isCompact → m.view.gen + 1 < 2 ^ 64) :
    Eff.Safe (S.rules p) (Follows S p faulty m w op) (op.code S.ext) i w := by
  cases op with
  | put d => exact safe_op_put hS d hI h
  | get k => exact safe_op_get hS hop hI h
  | getView k => exact safe_op_getView hS hop hI h
  | size k => exact safe_op_size hS hop hI h
  | has k => exact safe_op_has hS hop hI h
  | sync => exact safe_op_sync hS hI h
  | reopen => exact safe_op_reopen hS hI h
  | compact live => exact safe_op_compact hS live hI h (hroom rfl)

/-! ## Whole sessions -/

/-- Only a compaction changes the generation. -/
theorem Model.Step.gen {m' : Model} {e : Event} {n : Nat} (h : Model.Step ext m e m')
    (hc : m.committed.gen ≤ n) (hv : m.view.gen ≤ n) :
    m'.committed.gen ≤ n + (if e.op.isCompact then 1 else 0) ∧
      m'.view.gen ≤ n + (if e.op.isCompact then 1 else 0) := by
  have hbegin : m.begin.view = m.view := rfl
  cases h with
  | put d =>
    rw [Model.put]
    split
    · exact ⟨hc, hv⟩
    · split
      · exact ⟨hv, hv⟩
      · exact ⟨hc, hv⟩
  | putFails => exact ⟨hc, hv⟩
  | get => exact ⟨hc, hv⟩
  | getView => exact ⟨hc, hv⟩
  | getViewFar => exact ⟨hc, hv⟩
  | size => exact ⟨hc, hv⟩
  | has => exact ⟨hc, hv⟩
  | sync => exact ⟨hv, hv⟩
  | reopen => exact ⟨hc, hc⟩
  | compact live =>
    have hle : nextGen m.view.gen ≤ n + 1 := (Nat.mod_le _ _).trans (Nat.succ_le_succ hv)
    exact ⟨hle, hle⟩
  | compactFails live e => exact ⟨hv.trans (Nat.le_succ n), hv.trans (Nat.le_succ n)⟩

/-- The setting of an operation of a session. -/
abbrev Setting.session (ext : Ext) (hext : ext.Lawful) (faulty : Bool) : Setting :=
  .trusted ext hext faulty (fun _ _ => True) fun _ => trivial

/-- A session is sequential. -/
theorem Setting.sequential_session (hext : ext.Lawful) (faulty : Bool) :
    (Setting.session ext hext faulty).Sequential faulty where
  faulty := fun ⟨_, _, _, _, h⟩ => (h rfl).1
  calm := trivial
  sound := trivial
  pinned := trivial
  grows _ _ _ := trivial
  eq _ _ h := h
  compacts _ _ :=
    ⟨Setting.not_canFail (S := .session ext hext faulty) trivial (by simp), nofun,
      fun _ _ _ => trivial, fun h => absurd trivial h⟩

/-- Whether a `pwrite` may fail is a matter of the operation. -/
theorem Inv.session {hext : ext.Lawful} (faulty' : Bool)
    (h : Inv (.session ext hext faulty) p w) : Inv (.session ext hext faulty') p w :=
  ⟨h.shape, trivial, h.healthy, h.solo⟩

/-- The model does not depend on whether `pwrite` may fail. -/
theorem Abs.session {hext : ext.Lawful} (faulty' : Bool)
    (h : Abs (.session ext hext faulty) p m i w) : Abs (.session ext hext faulty') p m i w :=
  Abs.setting (S := .session ext hext faulty) rfl trivial (fun _ _ h => h) h

/-- What a session keeps, with the events to come and one more. -/
structure Keeps (S : Setting) (p : Nat) (es : List Event) (s : Impl × World) (m : Model) :
    Prop where
  inv : Inv S p s.2
  abs : Abs S p m s.1 s.2
  hashOk : ∀ e ∈ es, e.op.HashOk
  committed : m.committed.gen + es.countP (·.op.isCompact) + 1 < 2 ^ 64
  view : m.view.gen + es.countP (·.op.isCompact) + 1 < 2 ^ 64

/-- A step of the session is one of the model. -/
theorem Keeps.step (hext : ext.Lawful) {e : Event} {es : List Event} {s s' : Impl × World}
    (h : Keeps (.session ext hext true) p (e :: es) s m) (hs : sessionStep ext p s e s') :
    ∃ m', Model.Step ext m e m' ∧ Keeps (.session ext hext true) p es s' m' := by
  obtain ⟨⟨tr, hr⟩, hsize, hfar⟩ := hs
  have hcount := h.view
  rw [List.countP_cons] at hcount
  have hroom : e.op.isCompact → m.view.gen + 1 < 2 ^ 64 := fun _ => by omega
  have hI := h.inv.session e.faulty
  obtain ⟨hI', m', hstep, habs⟩ := Setting.solo_run hr hI
    (safe_op (Setting.sequential_session hext e.faulty) e.op (h.hashOk e (.head _)) hI
      (h.abs.session e.faulty) hroom)
  rw [← hsize, ← hfar] at hstep
  have hstep : Model.Step ext m e m' := hstep
  have hcount' := h.committed
  rw [List.countP_cons] at hcount'
  obtain ⟨hc, hv⟩ := hstep.gen (n := max m.committed.gen m.view.gen) (Nat.le_max_left _ _)
    (Nat.le_max_right _ _)
  exact ⟨m', hstep, hI'.session true, habs.session true, fun e' he' => h.hashOk e' (.tail _ he'), by omega, by omega⟩

/-- The empty directory, opened. -/
theorem safe_open_fresh (hext : ext.Lawful) (thread : Nat) :
    Eff.Safe ((Setting.session ext hext true).rules p) (fun x i' w' => x = .ok () ∧
      Abs (.session ext hext true) p .init i' w' ∧ w'.pack = [])
      open_ { thread := thread } .fresh := by
  have hS := Setting.sequential_session hext true
  refine (safe_open (Setting.reliable_of_sound hS.sound) (.inl hS.pinned) (.fresh _ p trivial)
    ⟨rfl, rfl, rfl⟩ (.fresh _ p)).mono ?_
  rintro _ i' w' _ ⟨rfl, _, ho⟩
  exact ⟨rfl, ho.rest, (ho.same trivial).pack⟩

/-- A session keeps what `Keeps` says. -/
theorem Session.keeps (hext : ext.Lawful) {es : List Event} (h : Session ext p es i w)
    (hash : ∀ e ∈ es, e.op.HashOk) (hgen : es.countP (·.op.isCompact) + 1 < 2 ^ 64) :
    ∃ m, Runs (Model.Step ext) .init es m ∧ Keeps (.session ext hext true) p [] (i, w) m := by
  obtain ⟨thread, tr, x, i₀, w₀, hr, hrun⟩ := h
  obtain ⟨hI₀, _, h₀, _⟩ := Setting.solo_run hr (.fresh _ p trivial) (safe_open_fresh hext thread)
  have hk₀ : Keeps (.session ext hext true) p es (i₀, w₀) .init :=
    ⟨hI₀, h₀, hash, by simpa [Model.init] using hgen, by simpa [Model.init, Model.view] using hgen⟩
  exact hrun.simulate (fun hk hs => hk.step hext hs) hk₀

/-- The committed index describes the pack: its entries lie inside, decode to blobs with the hashes
they are filed under, and overlap only where they are empty. -/
def World.Inside (ext : Ext) (w : World) : Prop := TableOk ext w.pack w.pack.length w.env.db.blobs

/-- The directory stands for the model: the committed index for the committed map, and the working
copy of the process for the map of its batch, over the same pack. -/
structure Represents (ext : Ext) (p : Nat) (m : Model) (w : World) : Prop where
  committed : w.store ext = m.committed
  inside : w.Inside ext
  batch : match m.batch with
    | none => w.txn p = none
    | some (M, _) => ∃ t, w.txn p = some t ∧ storeOf ext w.pack t = M ∧
        TableOk ext w.pack w.pack.length t.blobs

/-- The world of a handle represents its model. -/
theorem Abs.represents (hS : S.sound) (hK : ∀ M M', S.Kr M M' → M = M') (hI : Inv S p w)
    (h : Abs S p m i w) : Represents S.ext p m w := by
  rw [Abs] at h
  split at h
  · next hm =>
    refine ⟨(hK _ _ h.store).symm, hI.healthy hS, ?_⟩
    rw [hm]
    exact h.idle.txn
  · next M b hm =>
    obtain ⟨g, ino, t, hb, h0, hM, _⟩ := h
    refine ⟨h0, hI.healthy hS, ?_⟩
    rw [hm]
    dsimp only
    rw [hb.pack]
    exact ⟨t, hb.txn, hM, (hb.pending hS).mono hb.len⟩

/-- So it does in every state of a session. -/
theorem Keeps.represents (hext : ext.Lawful) {es : List Event}
    (h : Keeps (.session ext hext true) p es (i, w) m) : Represents ext p m w :=
  h.abs.represents trivial (fun _ _ h => h) h.inv

/-- The map of the handle is what it reads. -/
theorem Represents.view (h : Represents ext p m w) : storeOf ext w.pack (w.seen p) = m.view := by
  have hbatch := h.batch
  split at hbatch
  · next hm =>
    rw [World.seen, hbatch, Model.view, hm]
    exact h.committed
  · next hm =>
    obtain ⟨t, ht, hM, _⟩ := hbatch
    rw [World.seen, ht, Model.view, hm]
    exact hM

/-- A new session. -/
theorem exists_session (hext : ext.Lawful) : ∃ i w, Session ext p [] i w := by
  obtain ⟨tr, x, i, w, hr⟩ := Setting.solo_exists_run (.fresh _ p trivial)
    (safe_open_fresh (p := p) hext 0)
  exact ⟨i, w, 0, tr, x, i, w, hr, .nil⟩

/-- Every operation of a session returns. -/
theorem Keeps.exists_step (hext : ext.Lawful) (h : Keeps (.session ext hext true) p [] (i, w) m)
    (op : Op) (hop : op.HashOk) (faulty : Bool) :
    ∃ out s', sessionStep ext p (i, w) ⟨op, out, faulty, w.pack.length, w.far p⟩ s' := by
  have hI := h.inv.session faulty
  obtain ⟨tr, x, i', w', hr⟩ := Setting.solo_exists_run hI
    (safe_op (Setting.sequential_session hext faulty) op hop hI (h.abs.session faulty) fun _ => h.view)
  exact ⟨x, (i', w'), ⟨tr, hr⟩, rfl, rfl⟩

/-- `PackCas` refines a finite map. A session of an empty directory can be begun; whatever
operations it consists of, they do to the directory what they do to the model and return what the
model says; every further operation returns; and wherever it is stopped on the way, the committed
index describes the pack. -/
theorem session_refines_model (hext : ext.Lawful) (p : Nat) :
    (∃ i w, Session ext p [] i w) ∧
    ∀ es i w, Session ext p es i w → (∀ e ∈ es, e.op.HashOk) →
      es.countP (·.op.isCompact) + 1 < 2 ^ 64 →
      (∃ m, Runs (Model.Step ext) .init es m ∧ Represents ext p m w) ∧
      ∀ op : Op, op.HashOk →
        (∀ faulty, ∃ out s', sessionStep ext p (i, w)
          ⟨op, out, faulty, w.pack.length, w.far p⟩ s') ∧
        ∀ w', Prog.Visits (sem (faults true) p) (op.code ext i) w w' → w'.Inside ext := by
  refine ⟨exists_session hext, fun es i w hs hash hgen => ?_⟩
  obtain ⟨m, hm, hk⟩ := hs.keeps hext hash hgen
  refine ⟨⟨m, hm, hk.represents hext⟩, fun op hop => ⟨hk.exists_step hext op hop, fun w' hv => ?_⟩⟩
  exact (Setting.solo_visits hv hk.inv (safe_op (Setting.sequential_session hext true) op hop hk.inv
    hk.abs fun _ => hk.view)).1.healthy trivial

/-! ## An evaluation -/

/-- The process `0` runs a program; `ch` are the choices of the environment. -/
def evalWith {α : Type} (ch : Call → Choice) (m : Prog sig α) (w : World) :
    Option (List (Tarmac.Event sig) × α × World) :=
  m.eval (fun (_ : Unit) c w => exec 0 (ch c) c w) (List.replicate 100 ()) w

theorem run_of_evalWith {α : Type} {choice : Call → Choice → Prop} {ch : Call → Choice}
    {m : Prog sig α} {a : α} {tr : List (Tarmac.Event sig)} {w w' : World}
    (hok : ∀ c, choice c (ch c)) (h : evalWith ch m w = some (tr, a, w')) :
    Prog.Run (sem choice 0) m w tr a w' :=
  Prog.run_of_eval (fun _ c _ _ _ hx => ⟨ch c, hok c, hx⟩) h

/-- Evaluates operations of a session; no call fails. -/
def evalSession (ext : Ext) : List Op → Impl × World → Option (List Event × Impl × World)
  | [], s => some ([], s)
  | op :: ops, s =>
    (evalWith (fun _ => {}) (op.code ext s.1) s.2).bind fun x =>
      (evalSession ext ops (x.2.1.2, x.2.2)).map fun y =>
        (⟨op, x.2.1.1, false, s.2.pack.length, s.2.far 0⟩ :: y.1, y.2)

/-- What was evaluated is a run with these operations. -/
theorem runs_of_evalSession {ops : List Op} {s s' : Impl × World} {es : List Event}
    (h : evalSession ext ops s = some (es, s')) :
    Runs (sessionStep ext 0) s es s' ∧ es.map Event.op = ops := by
  induction ops generalizing s es with
  | nil =>
    cases h
    exact ⟨.nil, rfl⟩
  | cons op ops ih =>
    obtain ⟨⟨tr, ⟨x, i⟩, w⟩, hx, h⟩ := Option.bind_eq_some_iff.1 h
    obtain ⟨⟨es₁, s₁⟩, hrest, heq⟩ := Option.map_eq_some_iff.1 h
    cases heq
    obtain ⟨hruns, hops⟩ := ih hrest
    exact ⟨.cons ⟨⟨tr, run_of_evalWith (fun c => faults_free false c 0) hx⟩, rfl, rfl⟩ hruns,
      by rw [List.map_cons, hops]⟩

/-- Evaluates a session from a new directory on. -/
def openSession (ext : Ext) (ops : List Op) : Option (List Event × Impl × World) :=
  (evalWith (fun _ => {}) (open_ {}) .fresh).bind fun x => evalSession ext ops (x.2.1.2, x.2.2)

/-- What was evaluated is a session. -/
theorem session_of_openSession {ops : List Op} {es : List Event}
    (h : openSession ext ops = some (es, i, w)) : Session ext 0 es i w ∧ es.map Event.op = ops := by
  obtain ⟨⟨tr, ⟨x, i₀⟩, w₀⟩, hopen, h⟩ := Option.bind_eq_some_iff.1 h
  obtain ⟨hruns, hops⟩ := runs_of_evalSession h
  exact ⟨⟨0, tr, x, i₀, w₀, run_of_evalWith (fun c => faults_free true c 0) hopen, hruns⟩, hops⟩

/-- A `compact` that removes one of two blobs, and a put that is lost with the batch. -/
def sampleOps : List Op :=
  [.put [1], .put [2], .sync, .get (Ext.sample.blake3 [1]),
    .compact fun h => h != Ext.sample.blake3 [1], .has (Ext.sample.blake3 [1]), .put [3], .reopen,
    .size (Ext.sample.blake3 [3]), .getView (Ext.sample.blake3 [2])]

/-- A session with these operations. -/
theorem session_refines_model_sample : ∃ es i w, Session .sample 0 es i w ∧
    es.map (fun e => e.out.toOption) = [some (.hash (Ext.sample.blake3 [1])),
      some (.hash (Ext.sample.blake3 [2])), some .unit, some (.blob (some [1])), some .unit,
      some (.bool false), some (.hash (Ext.sample.blake3 [3])), some .unit, some (.length none),
      some (.blob (some [2]))] ∧
    ∃ m, Runs (Model.Step .sample) .init es m ∧ Represents .sample 0 m w := by
  have h : (openSession .sample sampleOps).any (fun s =>
      decide (s.1.map (fun e => e.out.toOption) = [some (.hash (Ext.sample.blake3 [1])),
        some (.hash (Ext.sample.blake3 [2])), some .unit, some (.blob (some [1])), some .unit,
        some (.bool false), some (.hash (Ext.sample.blake3 [3])), some .unit, some (.length none),
        some (.blob (some [2]))])) = true := by decide +kernel
  obtain ⟨⟨es, i, w⟩, hx, houts⟩ := (Option.any_eq_true _ _).1 h
  obtain ⟨hs, hops⟩ := session_of_openSession hx
  have hhash : ∀ op ∈ sampleOps, op.HashOk := by
    simp only [sampleOps, List.forall_mem_cons, Op.HashOk, List.not_mem_nil, false_imp_iff,
      implies_true, and_true, true_and]
    decide
  have hcount : es.countP (·.op.isCompact) = sampleOps.countP Op.isCompact := by
    rw [← hops, List.countP_map]
    rfl
  refine ⟨es, i, w, hs, of_decide_eq_true houts,
    ((session_refines_model Ext.lawful_sample 0).2 es i w hs (fun e he => ?_) ?_).1⟩
  · exact hhash e.op (hops ▸ List.mem_map_of_mem he)
  · rw [hcount]
    decide

/-! ## What the mapping does not cover -/

/-- The tables and the pack a session reads. -/
theorem Keeps.reads (hext : ext.Lawful) {es : List Event}
    (h : Keeps (.session ext hext true) p es (i, w) m) :
    Reads (.session ext hext true) p m w (w.seen p) w.pack := by
  have hr := h.represents
  refine ⟨⟨hr.view, ?_⟩, rfl⟩
  have hbatch := hr.batch
  split at hbatch
  · rw [World.seen, hbatch]
    exact hr.inside
  · obtain ⟨t, ht, _, hok⟩ := hbatch
    rw [World.seen, ht]
    exact hok

/-- The bytes of a blob larger than the mapping end behind the mapping: it is too large for LZ4, so
its entry has its length. -/
theorem Keeps.far (hext : ext.Lawful) {es : List Event} {k d : Bytes}
    (h : Keeps (.session ext hext true) p es (i, w) m) (hk : m.view.blobs k = some d)
    (hd : kMapSize < d.length) : w.far p k := by
  obtain ⟨e, ⟨v, _, _, hle, hr⟩, he, hlen⟩ := (h.reads hext).holds hk
  refine ⟨e, he, ?_⟩
  rw [readStored] at hr
  split at hr
  · have hbig : lz4MaxInputSize < e.rawLen := by
      rw [← hlen]
      exact lt_trans (by decide) hd
    rw [unpackBlob, if_pos (.inl hbig)] at hr
    cases hr
  · cases hr
    rw [length_slice_of_le hle] at hd
    omega

/-- A blob that is larger than the mapping can be put, but `get_view` refuses it. -/
theorem exists_getView_refused (hext : ext.Lawful) (p : Nat) {d : Bytes} (hd : kMapSize < d.length)
    (hmax : d.length ≤ maxOff) : ∃ size far size' far' i w, Session ext p
      [⟨.put d, .ok (.hash (ext.blake3 d)), false, size, far⟩,
        ⟨.getView (ext.blake3 d), .error (.corrupt "pack index out of bounds"), false, size', far'⟩]
      i w := by
  obtain ⟨tr, x, i₀, w₀, hr⟩ := Setting.solo_exists_run (.fresh _ p trivial)
    (safe_open_fresh (p := p) hext 0)
  obtain ⟨hI₀, _, h₀, hpack⟩ := Setting.solo_run hr (.fresh _ p trivial) (safe_open_fresh hext 0)
  have hk₀ : ∀ es : List Event, (∀ e ∈ es, e.op.HashOk ∧ e.op.isCompact = false) →
      Keeps (.session ext hext true) p es (i₀, w₀) .init := fun es hes => by
    have hcount : es.countP (·.op.isCompact) = 0 :=
      List.countP_eq_zero.2 fun e he => by simp [(hes e he).2]
    refine ⟨hI₀, h₀, fun e he => (hes e he).1, ?_, ?_⟩ <;> rw [hcount] <;> decide
  obtain ⟨out, ⟨i₁, w₁⟩, hs₁⟩ := (hk₀ [] nofun).exists_step hext (.put d) trivial false
  have hop : (Op.getView (ext.blake3 d)).HashOk := hext.length_blake3 d
  obtain ⟨m₁, hm₁, hk₁⟩ := (hk₀ [_] (fun e he => by
    cases List.mem_singleton.1 he
    exact ⟨trivial, rfl⟩)).step hext hs₁
  obtain ⟨out', ⟨i₂, w₂⟩, hs₂⟩ := hk₁.exists_step hext (.getView (ext.blake3 d)) hop false
  obtain ⟨m₂, hm₂, _⟩ := (show Keeps (.session ext hext true) p [_] (i₁, w₁) m₁ from
    { hk₁ with hashOk := fun e he => by cases List.mem_singleton.1 he; exact hop
               committed := by simpa [Op.isCompact] using hk₁.committed
               view := by simpa [Op.isCompact] using hk₁.view }).step hext hs₂
  -- the put succeeds, and adds the blob to the empty map
  cases hm₁ with
  | putFails _ _ hwhy =>
    have hle := length_packBlob_le hext d
    rw [hpack] at hwhy
    rcases hwhy with hwhy | hwhy
    · cases hwhy
    · simp only [List.length_nil] at hwhy
      omega
  | put =>
    have hblob : (Model.init.put ext d).view.blobs (ext.blake3 d) = some d := by
      have hadd : (Model.init.view.add (ext.blake3 d) d).blobs (ext.blake3 d) = some d := if_pos ⟨rfl, rfl⟩
      rw [Model.put, if_neg (by simp [Model.init, Model.view])]
      split
      · exact hadd
      · exact hadd
    cases hm₂ with
    | getView _ hnear => exact absurd (hk₁.far hext hblob hd) hnear
    | getViewFar => exact ⟨_, _, _, _, i₂, w₂, 0, tr, x, i₀, w₀, hr, .cons hs₁ (.cons hs₂ .nil)⟩

/-- One byte more than the mapping covers. -/
theorem getView_refused : ∃ size far size' far' i w,
    let d := List.replicate (2 ^ 40 + 1) 0
    Session .sample 0
      [⟨.put d, .ok (.hash (Ext.sample.blake3 d)), false, size, far⟩,
        ⟨.getView (Ext.sample.blake3 d), .error (.corrupt "pack index out of bounds"), false, size',
          far'⟩] i w :=
  exists_getView_refused Ext.lawful_sample 0
    (by rw [List.length_replicate]; decide) (by rw [List.length_replicate]; decide)

end

end Tarmac.PackCas
