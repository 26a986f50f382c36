import Tarmac.Lib.Safe
import Tarmac.PackCas.Table

/-!
# What processes that share a store rely on

The judgement `Prog.Safe` is instantiated once for the whole of `PackCas`. A `Setting` says which
runs are meant: what the environment may choose, which steps the runs are made of, whether other
processes take part (`calm`) and compact (`pinned`), whether the index describes the pack (`sound`;
without it index and pack are arbitrary bytes), and how the committed store may
change.

`Shape` is the invariant that needs no trust in the bytes, `Healthy` the one that says the
committed index describes the pack. `Rely S p` is what the other processes may do between two
steps of `p`: as long as the generation stays, committed entries and their bytes stay; while `p`
holds the writer lock, the index, the file names and the file contents stay. A step of `p` that
leaves the committed tables alone is `Quiet`, and quiet steps keep everything
(`Quiet.step`).
-/

namespace Tarmac.PackCas

/-! ## Directories -/

/-- A directory with one entry per generation and no inode under two names. -/
structure Fs.Wf (fs : Fs) : Prop where
  keys : (fs.names.map Prod.fst).Nodup
  lt : ∀ g i, fs.ino g = some i → i < fs.next
  inj : ∀ g g' i, fs.ino g = some i → fs.ino g' = some i → g = g'

/-- A generation without a file is not among the names. -/
theorem Fs.ino_eq_none {fs : Fs} {g : Nat} : fs.ino g = none ↔ g ∉ fs.names.map Prod.fst := by
  simp only [Fs.ino, Option.map_eq_none_iff, List.find?_eq_none, decide_eq_true_eq, List.mem_map,
    not_exists, not_and]

/-- A generation with a file is. -/
theorem Fs.mem_names_of_ino {fs : Fs} {g i : Nat} (h : fs.ino g = some i) :
    g ∈ fs.names.map Prod.fst := by
  by_contra hn
  rw [Fs.ino_eq_none.2 hn] at h
  cases h

/-- A new file has a new inode. -/
theorem Fs.ino_create (fs : Fs) (g k : Nat) :
    (fs.create g).ino k = if g = k then some fs.next else fs.ino k := by
  by_cases h : g = k <;> simp [Fs.ino, Fs.create, h]

/-- An unlinked name leads nowhere; the others lead where they did. -/
theorem Fs.ino_unlink (fs : Fs) (g k : Nat) :
    (fs.unlink g).ino k = if g = k then none else fs.ino k := by
  simp only [Fs.ino, Fs.unlink, List.find?_filter]
  by_cases h : g = k
  · subst h
    simp
  · rw [if_neg h]
    congr 2
    funext q
    by_cases hq : q.1 = k
    · simp [hq, Ne.symm h]
    · simp [hq]

@[simp] theorem Fs.ino_setData (fs : Fs) (i : Nat) (d : Bytes) (k : Nat) :
    (fs.setData i d).ino k = fs.ino k := rfl

/-- Writing changes one file. -/
theorem Fs.data_setData (fs : Fs) (i : Nat) (d : Bytes) (j : Nat) :
    (fs.setData i d).data j = if j = i then d else fs.data j := rfl

/-- It leaves the names alone. -/
theorem Fs.Wf.setData {fs : Fs} (h : fs.Wf) (i : Nat) (d : Bytes) : (fs.setData i d).Wf :=
  ⟨h.keys, h.lt, h.inj⟩

/-- Unlinking a name keeps the directory well formed. -/
theorem Fs.Wf.unlink {fs : Fs} (h : fs.Wf) (g : Nat) : (fs.unlink g).Wf where
  keys := List.Nodup.sublist (List.Sublist.map _ List.filter_sublist) h.keys
  lt k i hk := by
    rw [Fs.ino_unlink] at hk
    split at hk
    · cases hk
    · exact h.lt k i hk
  inj k k' i hk hk' := by
    rw [Fs.ino_unlink] at hk hk'
    split at hk
    · cases hk
    · split at hk'
      · cases hk'
      · exact h.inj k k' i hk hk'

/-- So does creating a file under a new name. -/
theorem Fs.Wf.create {fs : Fs} (h : fs.Wf) {g : Nat} (hg : fs.ino g = none) :
    (fs.create g).Wf where
  keys := List.nodup_cons.2 ⟨Fs.ino_eq_none.1 hg, h.keys⟩
  lt k i hk := by
    rw [Fs.ino_create] at hk
    split at hk
    · cases hk
      exact Nat.lt_succ_self _
    · exact (h.lt k i hk).trans (Nat.lt_succ_self _)
  inj k k' i hk hk' := by
    rw [Fs.ino_create] at hk hk'
    split at hk
    · next hgk =>
      cases hk
      split at hk'
      · next hgk' => exact hgk.symm.trans hgk'
      · exact absurd (h.lt _ _ hk') (lt_irrefl _)
    · split at hk'
      · cases hk'
        exact absurd (h.lt _ _ hk) (lt_irrefl _)
      · exact h.inj k k' i hk hk'

/-! ## Invariants -/

/-- The bytes of the committed generation's pack; none while it has not been created. -/
def World.pack (w : World) : Bytes :=
  match w.env.db.gen with
  | .ok g => ((w.fs.ino g).map w.fs.data).getD []
  | .error _ => []

/-- The committed pack is the file of the committed generation. -/
theorem World.pack_eq {w : World} {g i : Nat} (hg : w.env.db.gen = .ok g) (hi : w.fs.ino g = some i) :
    w.pack = w.fs.data i := by simp [World.pack, hg, hi]

/-- The committed generation's pack is in the directory. -/
def World.Named (w : World) : Prop := ∃ g i, w.env.db.gen = .ok g ∧ w.fs.ino g = some i

/-- The format record is this program's. -/
def Db.Formatted (db : Db) : Prop := db.metaTable.find? formatKey = some kFormat

/-- The invariant of a shared store that needs no trust in the bytes of index and pack: the
directory is well formed, no file is larger than an offset can express, the generation can be read,
the tables have this program's format or are new, and only a new store has no pack. -/
structure Shape (w : World) : Prop where
  wf : w.fs.Wf
  sizes : ∀ i, (w.fs.data i).length ≤ maxOff
  gen : ∃ g, w.env.db.gen = .ok g
  format : w.env.db.Formatted ∨
    (w.env.db.metaTable.find? formatKey = none ∧ w.env.db.blobs.toList = [])
  pack : ∀ g, w.env.db.gen = .ok g → w.fs.ino g = none → w.env.db.blobs.toList = []

/-- The committed index describes the committed generation's pack. -/
def Healthy (ext : Ext) (w : World) : Prop := TableOk ext w.pack w.pack.length w.env.db.blobs

/-- The committed store. -/
def World.store (ext : Ext) (w : World) : Store := storeOf ext w.pack w.env.db

/-- Only `p` holds the lock or the write transaction, if anyone does. -/
structure Solo (p : Nat) (w : World) : Prop where
  lock : ∀ q, w.env.lock = some q → q = p
  writer : ∀ q t, w.env.writer = some (q, t) → q = p

/-- The runs a result is about. `choice` is what the environment may choose for a call, `allow`
the steps that occur, `extra` what the result of such a step satisfies. `calm`: no other process
moves. `pinned`: the generation does not change behind a process. `sound`: the committed index
describes the pack, and at most a `pwrite` fails. `Kr` and `Kg` say how the other processes and
this one may change the committed store. -/
structure Setting where
  ext : Ext
  choice : Call → Choice → Prop
  allow : Call → World → World → Prop
  extra : World → Prop
  calm : Prop
  pinned : Prop
  sound : Prop
  Kr : Store → Store → Prop
  Kg : Store → Store → Prop
  lawful : sound → ext.Lawful
  reliable : sound → ∀ c n, choice c ⟨true, n⟩ → ∃ i off d, c = .pwrite i off d
  choice_ok : ∀ c n, choice c ⟨false, n⟩
  allow_extra : ∀ c w w', allow c w w' → extra w'
  Kr_refl : ∀ M, Kr M M
  Kr_trans : ∀ {M M' M''}, Kr M M' → Kr M' M'' → Kr M M''
  Kg_refl : ∀ M, Kg M M
  Kg_le : ¬calm → ∀ {M M'}, Kg M M' → Kr M M'

/-- The environment may let the call fail. -/
def Setting.CanFail (S : Setting) (c : Call) : Prop := ∃ n, S.choice c ⟨true, n⟩

/-- Committed entries stay, and so do their bytes. -/
structure Extends (w w' : World) : Prop where
  ino : ∀ g i, w.env.db.gen = .ok g → w.fs.ino g = some i → w'.fs.ino g = some i
  find : ∀ k v, w.env.db.blobs.find? k = some v → w'.env.db.blobs.find? k = some v
  bytes : ∀ k v e, w.env.db.blobs.find? k = some v → decodeEntry v = .ok e →
    e.off + e.len ≤ w.pack.length →
    e.off + e.len ≤ w'.pack.length ∧ slice w'.pack e.off e.len = slice w.pack e.off e.len

/-- What stays while a process holds the writer lock. -/
structure Held (w w' : World) : Prop where
  gen : w'.env.db.gen = w.env.db.gen
  blobs : w'.env.db.blobs = w.env.db.blobs
  ino : ∀ k i, w.fs.ino k = some i → w'.fs.ino k = some i
  data : ∀ i, i < w.fs.next → w'.fs.data i = w.fs.data i

/-- What the other processes may do between two steps of `p`. -/
structure Rely (S : Setting) (p : Nat) (w w' : World) : Prop where
  next : w.fs.next ≤ w'.fs.next
  lock : w'.env.lock = some p ↔ w.env.lock = some p
  txn : w'.txn p = w.txn p
  gen : ∀ g g', w.env.db.gen = .ok g → w'.env.db.gen = .ok g' → g ≤ g'
  format : w.env.db.Formatted → w'.env.db.Formatted
  named : w.Named ∨ w'.env.db.gen ≠ w.env.db.gen → w'.Named
  same : w'.env.db.gen = w.env.db.gen → Extends w w'
  pinned : S.pinned → w'.env.db.gen = w.env.db.gen
  held : w.env.lock = some p → Held w w'
  writing : (w.txn p).isSome → w'.env.db = w.env.db
  store : S.Kr (w.store S.ext) (w'.store S.ext)
  calm : S.calm → w' = w

/-- The invariant of the setting, for the process `p`. -/
structure Inv (S : Setting) (p : Nat) (w : World) : Prop where
  shape : Shape w
  extra : S.extra w
  healthy : S.sound → Healthy S.ext w
  solo : S.calm → Solo p w

/-- What a step of `p` guarantees. -/
def Guar (S : Setting) (p : Nat) (w w' : World) : Prop :=
  S.sound → (¬S.calm → ∀ q, q ≠ p → Rely S q w w') ∧ S.Kg (w.store S.ext) (w'.store S.ext)

/-- A call of `p` waits: for the write transaction of another process, or because the step it would
make is none of the setting's. -/
def Wait (S : Setting) (p : Nat) (c : Call) (w : World) : Prop :=
  (c = .txnBegin ∧ ∃ q t, q ≠ p ∧ w.env.writer = some (q, t)) ∨
    ∃ ch r w', S.choice c ch ∧ exec p ch c w = some (r, w') ∧ ¬S.allow c w w'

/-- The steps of `p` in the setting. -/
def Setting.sem (S : Setting) (p : Nat) : Sem sig World := fun c w r w' =>
  PackCas.sem S.choice p c w r w' ∧ S.allow c w w'

/-- The rules of the setting for the process `p`. -/
def Setting.rules (S : Setting) (p : Nat) : Rules sig World where
  sem := S.sem p
  Inv := Inv S p
  Rely := Rely S p
  Guar := Guar S p
  Wait := Wait S p

variable {S : Setting} {p : Nat} {w w' w'' : World}

/-! ## The environment's moves -/

/-- A world extends itself. -/
theorem Extends.refl (w : World) : Extends w w :=
  ⟨fun _ _ _ h => h, fun _ _ h => h, fun _ _ _ _ _ h => ⟨h, rfl⟩⟩

/-- It extends what is extended by an earlier one. -/
theorem Extends.trans (h : Extends w w') (h' : Extends w' w'')
    (hg : w'.env.db.gen = w.env.db.gen) : Extends w w'' where
  ino g i hgen hi := h'.ino g i (hg ▸ hgen) (h.ino g i hgen hi)
  find k v hk := h'.find k v (h.find k v hk)
  bytes k v e hk hd hle := by
    have ⟨h₁, h₂⟩ := h.bytes k v e hk hd hle
    have ⟨h₃, h₄⟩ := h'.bytes k v e (h.find k v hk) hd h₁
    exact ⟨h₃, h₄.trans h₂⟩

/-- Nothing is taken from the holder of the lock. -/
theorem Held.refl (w : World) : Held w w := ⟨rfl, rfl, fun _ _ h => h, fun _ _ => rfl⟩

theorem Held.trans (h : Held w w') (h' : Held w' w'') (hn : w.fs.next ≤ w'.fs.next) :
    Held w w'' where
  gen := h'.gen.trans h.gen
  blobs := h'.blobs.trans h.blobs
  ino k i hk := h'.ino k i (h.ino k i hk)
  data i hi := (h'.data i (hi.trans_le hn)).trans (h.data i hi)

/-- Other processes may do nothing. -/
theorem Rely.refl (w : World) : Rely S p w w where
  next := Nat.le_refl _
  lock := Iff.rfl
  txn := rfl
  gen g g' h h' := by
    rw [h] at h'
    cases h'
    exact Nat.le_refl _
  format := id
  named h := h.resolve_right (not_not.2 rfl)
  same _ := .refl w
  pinned _ := rfl
  held _ := .refl w
  writing _ := rfl
  store := S.Kr_refl _
  calm _ := rfl

/-- Generations only grow, so one that has its old value again never changed. -/
theorem gen_between {w w' w'' : World} {g' : Nat} (hg' : w'.env.db.gen = .ok g')
    (h : ∀ g g', w.env.db.gen = .ok g → w'.env.db.gen = .ok g' → g ≤ g')
    (h' : ∀ g g', w'.env.db.gen = .ok g → w''.env.db.gen = .ok g' → g ≤ g')
    (hex : ∃ g, w.env.db.gen = .ok g) (heq : w''.env.db.gen = w.env.db.gen) :
    w'.env.db.gen = w.env.db.gen := by
  obtain ⟨g, hg⟩ := hex
  have h₁ := h g g' hg hg'
  have h₂ := h' g' g hg' (heq.trans hg)
  rw [hg, hg', Nat.le_antisymm h₁ h₂]

/-- They may do two things, one after the other. -/
theorem Rely.trans (hI : Inv S p w) (hI' : Inv S p w') (h : Rely S p w w') (h' : Rely S p w' w'') :
    Rely S p w w'' := by
  obtain ⟨g₁, hg₁⟩ := hI'.shape.gen
  constructor
  · exact h.next.trans h'.next
  · exact h'.lock.trans h.lock
  · exact h'.txn.trans h.txn
  · exact fun g g'' hg hg'' => (h.gen g g₁ hg hg₁).trans (h'.gen g₁ g'' hg₁ hg'')
  · exact fun hf => h'.format (h.format hf)
  · intro hn
    by_cases heq : w'.env.db.gen = w.env.db.gen
    · exact h'.named (hn.imp (fun hn => h.named (.inl hn)) fun hne h => hne (h.trans heq))
    · exact h'.named (.inl (h.named (.inr heq)))
  · intro heq
    have hmid := gen_between hg₁ h.gen h'.gen hI.shape.gen heq
    exact (h.same hmid).trans (h'.same (heq.trans hmid.symm)) hmid
  · exact fun hp => (h'.pinned hp).trans (h.pinned hp)
  · exact fun hl => (h.held hl).trans (h'.held (h.lock.2 hl)) h.next
  · exact fun ht => (h'.writing (h.txn ▸ ht)).trans (h.writing ht)
  · exact S.Kr_trans h.store h'.store
  · exact fun hc => (h'.calm hc).trans (h.calm hc)

/-! ## Quiet steps -/

/-- The shape depends only on the files and the tables. -/
theorem Shape.congr (h : Shape w) (hfs : w'.fs = w.fs) (hdb : w'.env.db = w.env.db) : Shape w' := by
  constructor
  · rw [hfs]; exact h.wf
  · rw [hfs]; exact h.sizes
  · rw [hdb]; exact h.gen
  · rw [hdb]; exact h.format
  · rw [hfs, hdb]; exact h.pack

/-- A step of `p` that leaves the committed tables, the locks of the others and the bytes of the
committed entries alone. -/
structure Quiet (S : Setting) (p : Nat) (w w' : World) : Prop where
  shape : Shape w'
  db : w'.env.db = w.env.db
  lock : ∀ q, q ≠ p → (w'.env.lock = some q ↔ w.env.lock = some q)
  txn : ∀ q, q ≠ p → w'.txn q = w.txn q
  solo : S.calm → Solo p w → Solo p w'
  next : w.fs.next ≤ w'.fs.next
  ino : ∀ g i, w.env.db.gen = .ok g → w.fs.ino g = some i → w'.fs.ino g = some i
  held : ∀ q, q ≠ p → w.env.lock = some q → Held w w'
  pack : S.sound → ∃ lim, TableOk S.ext w.pack lim w.env.db.blobs ∧ lim ≤ w'.pack.length ∧
    w'.pack.take lim = w.pack.take lim

/-- A quiet step keeps the invariant and the committed store, and the others may rely on it. -/
theorem Quiet.step (hI : Inv S p w) (hq : Quiet S p w w') (hx : S.extra w') :
    Inv S p w' ∧ Guar S p w w' ∧ (S.sound → w'.store S.ext = w.store S.ext) := by
  have hstore : S.sound → w'.store S.ext = w.store S.ext := fun hs => by
    obtain ⟨lim, ht, _, heq⟩ := hq.pack hs
    rw [World.store, World.store, storeOf, storeOf, hq.db, tableMap_congr ht heq]
  refine ⟨⟨hq.shape, hx, fun hs => ?_, fun hc => hq.solo hc (hI.solo hc)⟩, fun hs => ⟨?_, ?_⟩, hstore⟩
  · obtain ⟨lim, ht, hle, heq⟩ := hq.pack hs
    rw [Healthy, hq.db]
    exact (ht.congr heq).mono hle
  · intro hcalm q hne
    obtain ⟨lim, ht, hle, heq⟩ := hq.pack hs
    constructor
    · exact hq.next
    · exact hq.lock q hne
    · exact hq.txn q hne
    · intro g g' hg hg'
      rw [hq.db, hg] at hg'
      cases hg'
      exact Nat.le_refl _
    · rw [hq.db]; exact id
    · rintro (⟨g, i, hg, hi⟩ | hne)
      · exact ⟨g, i, by rw [hq.db, hg], hq.ino g i hg hi⟩
      · exact absurd (congrArg Db.gen hq.db) hne
    · intro _
      refine ⟨hq.ino, fun k v hk => by rwa [hq.db], fun k v e hk hd _ => ?_⟩
      obtain ⟨e', _, hd', hle', _⟩ := ht.entry k v hk
      rw [hd] at hd'
      cases hd'
      exact ⟨by omega, slice_congr hle' heq⟩
    · intro _; rw [hq.db]
    · exact hq.held q hne
    · intro _; exact hq.db
    · rw [hstore hs]; exact S.Kr_refl _
    · exact fun hc => absurd hc hcalm
  · rw [hstore hs]; exact S.Kg_refl _

/-- A step that changes neither files nor committed tables. -/
theorem Quiet.env (hI : Inv S p w) (hfs : w'.fs = w.fs) (hdb : w'.env.db = w.env.db)
    (hlock : ∀ q, q ≠ p → (w'.env.lock = some q ↔ w.env.lock = some q))
    (htxn : ∀ q, q ≠ p → w'.txn q = w.txn q) (hsolo : S.calm → Solo p w → Solo p w') :
    Quiet S p w w' where
  shape := hI.shape.congr hfs hdb
  db := hdb
  lock := hlock
  txn := htxn
  solo := hsolo
  next := by rw [hfs]
  ino g i _ hi := by rwa [hfs]
  held q _ _ := ⟨by rw [hdb], by rw [hdb], fun k i hk => by rwa [hfs], fun i _ => by rw [hfs]⟩
  pack hs := by
    have hp : w'.pack = w.pack := by simp only [World.pack, hdb, hfs]
    exact ⟨w.pack.length, hI.healthy hs, by rw [hp], by rw [hp]⟩

/-- A step that changes nothing is quiet. -/
theorem Quiet.refl (hI : Inv S p w) : Quiet S p w w :=
  .env hI rfl rfl (fun _ _ => Iff.rfl) (fun _ _ => rfl) fun _ h => h

/-- A step that only changes files, and of them neither the bytes of the committed pack nor
anything another process has locked. -/
theorem Quiet.files (hI : Inv S p w) {fs' : Fs} (hwf : fs'.Wf)
    (hsizes : ∀ i, (fs'.data i).length ≤ maxOff) (hnext : w.fs.next ≤ fs'.next)
    (hino : ∀ g i, w.env.db.gen = .ok g → w.fs.ino g = some i → fs'.ino g = some i)
    (hpack : ({ w with fs := fs' } : World).pack = w.pack)
    (hheld : ∀ q, q ≠ p → w.env.lock = some q →
      (∀ k i, w.fs.ino k = some i → fs'.ino k = some i) ∧
        ∀ i, i < w.fs.next → fs'.data i = w.fs.data i) :
    Quiet S p w { w with fs := fs' } where
  shape := by
    refine ⟨hwf, hsizes, hI.shape.gen, hI.shape.format, fun g hg hn => hI.shape.pack g hg ?_⟩
    by_contra hne
    obtain ⟨i, hi⟩ := Option.ne_none_iff_exists'.1 hne
    have := hino g i hg hi
    rw [show fs'.ino g = none from hn] at this
    cases this
  db := rfl
  lock _ _ := Iff.rfl
  txn _ _ := rfl
  solo _ h := ⟨h.lock, h.writer⟩
  next := hnext
  ino := hino
  held q hne hl := ⟨rfl, rfl, (hheld q hne hl).1, (hheld q hne hl).2⟩
  pack hs := ⟨w.pack.length, hI.healthy hs, by rw [hpack], by rw [hpack]⟩

/-! ## Steps in a setting -/

/-- A call has an answer or waits, unless it begins a write transaction inside another of the same
process. -/
theorem progress (S : Setting) {c : Call} (h : c = .txnBegin → w.txn p = none) :
    Wait S p c w ∨ ∃ r w', S.sem p c w r w' := by
  have hok := S.choice_ok c 0
  cases hx : exec p ⟨false, 0⟩ c w with
  | some x =>
    by_cases ha : S.allow c w x.2
    · exact .inr ⟨x.1, x.2, ⟨_, hok, hx⟩, ha⟩
    · exact .inl (.inr ⟨_, x.1, x.2, hok, hx, ha⟩)
  | none =>
    refine .inl (.inl ?_)
    cases c <;> simp only [exec] at hx
    case txnBegin =>
      split at hx
      · cases hx
      · split at hx
        · cases hx
        · next owner hw =>
          obtain ⟨q, t⟩ := owner
          refine ⟨rfl, q, t, fun hqp => ?_, hw⟩
          have := h rfl
          rw [World.txn, hw, hqp] at this
          simp at this
    all_goals (repeat' split at hx) <;> simp at hx

/-- How a step of a program is proved: for every choice of the environment. -/
theorem step_of_exec {c : Call} {k : c.Resp → World → Prop} (hbegin : c = .txnBegin → w.txn p = none)
    (h : ∀ ch r w', S.choice c ch → S.extra w' → S.allow c w w' → exec p ch c w = some (r, w') →
      Inv S p w' ∧ Guar S p w w' ∧ k r w') :
    (S.rules p).Step c k w := by
  refine ⟨progress S hbegin, fun r w' hs => ?_⟩
  obtain ⟨⟨ch, hch, hx⟩, ha⟩ := hs
  exact h ch r w' hch (S.allow_extra _ _ _ ha) ha hx

/-- A call that changes nothing. -/
theorem step_idle {c : Call} {k : c.Resp → World → Prop} (hI : Inv S p w)
    (hbegin : c = .txnBegin → w.txn p = none)
    (h : ∀ ch r w', S.choice c ch → exec p ch c w = some (r, w') → w' = w ∧ k r w) :
    (S.rules p).Step c k w := by
  refine step_of_exec hbegin fun ch r w' hch hx _ he => ?_
  obtain ⟨rfl, hk⟩ := h ch r w' hch he
  have ⟨h₁, h₂, _⟩ := (Quiet.refl hI).step hI hx
  exact ⟨h₁, h₂, hk⟩

/-- A quiet call. -/
theorem step_quiet {c : Call} {k : c.Resp → World → Prop} (hI : Inv S p w)
    (hbegin : c = .txnBegin → w.txn p = none)
    (h : ∀ ch r w', S.choice c ch → exec p ch c w = some (r, w') →
      Quiet S p w w' ∧ (Inv S p w' → (S.sound → w'.store S.ext = w.store S.ext) → k r w')) :
    (S.rules p).Step c k w := by
  refine step_of_exec hbegin fun ch r w' hch hx _ he => ?_
  obtain ⟨hq, hk⟩ := h ch r w' hch he
  have ⟨h₁, h₂, h₃⟩ := hq.step hI hx
  exact ⟨h₁, h₂, hk h₁ h₃⟩

end Tarmac.PackCas
