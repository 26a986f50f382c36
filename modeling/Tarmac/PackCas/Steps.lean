import Tarmac.PackCas.Rules

/-!
# The calls as steps of a setting

One rule for every call of `pack_cas.cpp`: under which condition a process may make it in a shared
store, and in which state it leaves the store for each answer. Most calls are questions
(`step_guard`) or change only what the process itself owns (`Quiet.env`); the calls that change
files and the commit carry the conditions the code has to establish: a file is written, truncated
or unlinked under the writer lock and outside the committed bytes.
-/

namespace Tarmac.PackCas

variable {S : Setting} {p : Nat} {w w' : World} {α : Type}

/-! ## Questions -/

/-- In a sound setting only `pwrite` fails. -/
theorem Setting.not_canFail (hS : S.sound) {c : Call} (hc : ∀ i off d, c ≠ .pwrite i off d) :
    ¬S.CanFail c := fun ⟨n, hn⟩ => by
  obtain ⟨i, off, d, rfl⟩ := S.reliable hS c n hn
  exact hc i off d rfl

/-- A call that answers `a` or fails, and changes nothing. -/
theorem step_guard {c : Call} {k : c.Resp → World → Prop} (a : α) (ofE : Except Errno α → c.Resp)
    (hx : ∀ ch, exec p ch c w = some (ofE (ch.guard a), w)) (hI : Inv S p w)
    (hc : c ≠ .txnBegin) (hok : k (ofE (.ok a)) w) (herr : S.CanFail c → k (ofE (.error .io)) w) :
    (S.rules p).Step c k w := by
  refine step_idle hI (fun h => absurd h hc) fun ch r w' hch he => ?_
  rw [hx] at he
  cases he
  refine ⟨rfl, ?_⟩
  obtain ⟨fail, more⟩ := ch
  cases fail with
  | false => exact hok
  | true => exact herr ⟨more, hch⟩

/-- A call of LMDB that fails by choice does not answer `badTxn`. -/
theorem Choice.mdbErrno_ne (ch : Choice) : ch.mdbErrno ≠ .badTxn := by
  unfold Choice.mdbErrno
  split <;> simp

/-- The same for a call of LMDB, which fails with any result but `badTxn`. -/
theorem step_mdbGuard {c : Call} {k : c.Resp → World → Prop} (a : α) (ofE : Except Errno α → c.Resp)
    (hx : ∀ ch, exec p ch c w = some (ofE (ch.mdbGuard a), w)) (hI : Inv S p w)
    (hc : c ≠ .txnBegin) (hok : k (ofE (.ok a)) w)
    (herr : S.CanFail c → ∀ res, res ≠ .badTxn → k (ofE (.error res)) w) : (S.rules p).Step c k w := by
  refine step_idle hI (fun h => absurd h hc) fun ch r w' hch he => ?_
  rw [hx] at he
  cases he
  refine ⟨rfl, ?_⟩
  obtain ⟨fail, more⟩ := ch
  cases fail with
  | false => exact hok
  | true => exact herr ⟨more, hch⟩ _ (Choice.mdbErrno_ne _)

/-- The write transaction sees its working copy. -/
theorem step_txnDb {t : Db} {k : Except Errno Db → World → Prop} (hI : Inv S p w)
    (ht : w.txn p = some t) (hok : k (.ok t) w) : (S.rules p).Step .txnDb k w :=
  step_idle hI (by simp) fun ch r w' _ he => by
    simp only [exec, ht] at he
    cases he
    exact ⟨rfl, hok⟩

/-- Closing a file changes nothing. -/
theorem step_closeFd {ino : Nat} {k : Unit → World → Prop} (hI : Inv S p w) (h : k () w) :
    (S.rules p).Step (.closeFd ino) k w :=
  step_idle hI (by simp) fun ch r w' _ he => by
    cases he
    exact ⟨rfl, h⟩

/-- The mapping shows the bytes of the file, and faults behind its end. -/
theorem step_mmapRead {ino off len : Nat} {k : Option Bytes → World → Prop} (hI : Inv S p w)
    (hsome : k (some (slice (w.fs.data ino) off len)) w)
    (hnone : (w.fs.data ino).length < off + len → k none w) :
    (S.rules p).Step (.mmapRead ino off len) k w :=
  step_idle hI (by simp) fun ch r w' _ he => by
    cases he
    refine ⟨rfl, ?_⟩
    by_cases hle : len = 0 ∨ off + len ≤ (w.fs.data ino).length
    · exact (congrArg (fun r : Option Bytes => k r w) (if_pos hle)).mpr hsome
    · exact (congrArg (fun r : Option Bytes => k r w) (if_neg hle)).mpr
        (hnone (not_le.1 (not_or.1 hle).2))

/-- `pread` reads a part of what was asked for, or fails; behind the offsets of files it always does. -/
theorem step_pread {ino off len : Nat} {k : Except Errno Bytes → World → Prop} (hI : Inv S p w)
    (h : ∀ n, k (.ok ((slice (w.fs.data ino) off len).take (n + 1))) w)
    (herr : S.CanFail (.pread ino off len) → k (.error .io) w)
    (hinval : maxOff < off + len → k (.error .inval) w) : (S.rules p).Step (.pread ino off len) k w :=
  step_idle hI (by simp) fun ch r w' hch he => by
    obtain ⟨fail, more⟩ := ch
    cases fail with
    | false =>
      simp only [exec, Bool.false_eq_true, if_false] at he
      split at he
      · next hoff =>
        cases he
        exact ⟨rfl, hinval hoff⟩
      · cases he
        exact ⟨rfl, h more⟩
    | true =>
      simp only [exec, if_true] at he
      cases he
      exact ⟨rfl, herr ⟨more, hch⟩⟩

/-! ## The lock and the write transaction -/

def World.setLock (w : World) (l : Option Nat) : World := { w with env := { w.env with lock := l } }

def World.setWriter (w : World) (x : Option (Nat × Db)) : World :=
  { w with env := { w.env with writer := x } }

/-- The working copy `t` becomes the committed tables. -/
def World.commit (w : World) (t : Db) : World :=
  { w with env := { w.env with db := t, writer := none } }

/-- The transaction of the process that holds it, and of no other. -/
theorem World.txn_setWriter (w : World) (q r : Nat) (t : Db) :
    (w.setWriter (some (q, t))).txn r = if q = r then some t else none := rfl

@[simp] theorem World.txn_setWriter_self (w : World) (q : Nat) (t : Db) :
    (w.setWriter (some (q, t))).txn q = some t := by rw [World.txn_setWriter, if_pos rfl]

/-- A transaction is that of the writer. -/
theorem World.writer_of_txn {q : Nat} {t : Db} (h : w.txn q = some t) :
    w.env.writer = some (q, t) := by
  rw [World.txn] at h
  split at h
  · next r t' hw =>
    split at h
    · next hq => cases h; rw [hw, hq]
    · cases h
  · cases h

/-- The transaction of one process excludes those of the others. -/
theorem World.txn_eq_none {q r : Nat} {t : Db} (h : w.txn q = some t) (hne : r ≠ q) :
    w.txn r = none := by
  rw [World.txn, World.writer_of_txn h]
  exact if_neg (Ne.symm hne)

/-- `flock` takes a free lock, finds it held, or fails. -/
theorem step_flockTry {k : Except Errno Bool → World → Prop} (hI : Inv S p w)
    (hok : (w.env.lock = none ∨ w.env.lock = some p) → Inv S p (w.setLock (some p)) →
      k (.ok true) (w.setLock (some p)))
    (hbusy : ¬S.calm → k (.ok false) w) (herr : S.CanFail .flockTry → k (.error .io) w) :
    (S.rules p).Step .flockTry k w := by
  refine step_quiet hI (by simp) fun ch r w' hch he => ?_
  obtain ⟨fail, more⟩ := ch
  cases fail with
  | true =>
    simp only [exec, if_true] at he
    cases he
    exact ⟨.refl hI, fun _ _ => herr ⟨more, hch⟩⟩
  | false =>
    simp only [exec, Bool.false_eq_true, if_false] at he
    split at he
    · next hfree =>
      cases he
      refine ⟨.env hI rfl rfl (fun q hq => ?_) (fun _ _ => rfl) fun _ h => ?_,
        fun hI' _ => hok hfree hI'⟩
      · constructor
        · intro h
          cases h
          exact absurd rfl hq
        · intro h
          rcases hfree with hf | hf <;> rw [hf] at h <;> cases h
          exact absurd rfl hq
      · exact ⟨fun q h => by cases h; rfl, h.writer⟩
    · next hfree =>
      cases he
      refine ⟨.refl hI, fun _ _ => hbusy fun hcalm => hfree ?_⟩
      cases hl : w.env.lock with
      | none => exact .inl rfl
      | some q => exact .inr (by rw [(hI.solo hcalm).lock q hl])

/-- The lock after `p` has released it. -/
def World.unlock (w : World) (p : Nat) : World :=
  w.setLock (if w.env.lock = some p then none else w.env.lock)

/-- Who unlocks has no lock. -/
theorem World.lock_unlock_ne (w : World) (p : Nat) : (w.unlock p).env.lock ≠ some p := by
  simp only [World.unlock, World.setLock]
  split
  · simp
  · assumption

/-- Releasing the lock. -/
theorem step_flockUn {k : Unit → World → Prop} (hI : Inv S p w)
    (h : Inv S p (w.unlock p) → k () (w.unlock p)) : (S.rules p).Step .flockUn k w := by
  refine step_quiet hI (by simp) fun ch r w' _ he => ?_
  cases he
  refine ⟨.env hI rfl rfl (fun q hq => ?_) (fun _ _ => rfl) fun _ hs => ⟨fun q hl => ?_, hs.writer⟩,
    fun hI' _ => h hI'⟩
  · dsimp only
    split
    · next hl => rw [hl]; simpa using Ne.symm hq
    · exact Iff.rfl
  · dsimp only at hl
    split at hl
    · cases hl
    · exact hs.lock q hl

/-- Beginning a write transaction, when there is none, or failing. -/
theorem step_txnBegin {k : Except Errno Unit → World → Prop} (hI : Inv S p w)
    (ht : w.txn p = none)
    (hok : w.env.writer = none → Inv S p (w.setWriter (some (p, w.env.db))) →
      k (.ok ()) (w.setWriter (some (p, w.env.db))))
    (herr : S.CanFail .txnBegin → ∀ res, res ≠ .badTxn → k (.error res) w) :
    (S.rules p).Step .txnBegin k w := by
  refine step_quiet hI (fun _ => ht) fun ch r w' hch he => ?_
  obtain ⟨fail, more⟩ := ch
  cases fail with
  | true =>
    simp only [exec, if_true] at he
    cases he
    exact ⟨.refl hI, fun _ _ => herr ⟨more, hch⟩ _ (Choice.mdbErrno_ne _)⟩
  | false =>
    simp only [exec, Bool.false_eq_true, if_false] at he
    split at he
    · next hw =>
      cases he
      refine ⟨.env hI rfl rfl (fun _ _ => Iff.rfl) (fun q hq => ?_) fun _ hs => ⟨hs.lock, ?_⟩,
        fun hI' _ => hok hw hI'⟩
      · rw [show w.txn q = none by rw [World.txn, hw]]
        exact if_neg (Ne.symm hq)
      · intro q t h
        cases h
        rfl
    · cases he

/-- The end of a transaction is quiet. -/
theorem Quiet.endTxn (hI : Inv S p w) {t : Db} (ht : w.txn p = some t) :
    Quiet S p w (w.setWriter none) :=
  .env hI rfl rfl (fun _ _ => Iff.rfl)
    (fun q hq => (World.txn_eq_none ht hq).symm) fun _ hs => ⟨hs.lock, fun _ _ h => by cases h⟩

/-- Aborting the transaction. -/
theorem step_txnAbort {t : Db} {k : Except Errno Unit → World → Prop} (hI : Inv S p w)
    (ht : w.txn p = some t) (hok : Inv S p (w.setWriter none) → k (.ok ()) (w.setWriter none)) :
    (S.rules p).Step .txnAbort k w := by
  refine step_quiet hI (by simp) fun ch r w' _ he => ?_
  simp only [exec, ht] at he
  cases he
  exact ⟨.endTxn hI ht, fun hI' _ => hok hI'⟩

/-- A call that changes the working copy of the transaction. -/
theorem step_onTxn {c : Call} {k : c.Resp → World → Prop} {f : Db → Except Errno Db} {t t' : Db}
    (ofE : Except Errno Unit → c.Resp)
    (hx : ∀ ch, exec p ch c w = some (ofE (w.onTxn p ch f).1, (w.onTxn p ch f).2))
    (hI : Inv S p w) (hc : c ≠ .txnBegin) (ht : w.txn p = some t) (hf : f t = .ok t')
    (hok : Inv S p (w.setWriter (some (p, t'))) → k (ofE (.ok ())) (w.setWriter (some (p, t'))))
    (herr : S.CanFail c → ∀ res, res ≠ .badTxn → k (ofE (.error res)) w) : (S.rules p).Step c k w := by
  refine step_quiet hI (fun h => absurd h hc) fun ch r w' hch he => ?_
  obtain ⟨fail, more⟩ := ch
  rw [hx] at he
  cases fail with
  | true =>
    simp only [World.onTxn, ht, if_true] at he
    cases he
    exact ⟨.refl hI, fun _ _ => herr ⟨more, hch⟩ _ (Choice.mdbErrno_ne _)⟩
  | false =>
    simp only [World.onTxn, ht, hf, Bool.false_eq_true, if_false] at he
    cases he
    refine ⟨.env hI rfl rfl (fun _ _ => Iff.rfl) (fun q hq => ?_) fun _ hs => ⟨hs.lock, ?_⟩,
      fun hI' _ => hok hI'⟩
    · rw [World.txn_eq_none ht hq]
      exact if_neg (Ne.symm hq)
    · intro q t h
      cases h
      rfl

/-- What the working copy `t` of `p` must satisfy to be committed: the invariant holds of the new
tables, and they change what the other processes rely on in the allowed way only. -/
structure CommitOk (S : Setting) (p : Nat) (w : World) (t : Db) : Prop where
  shape : Shape (w.commit t)
  healthy : S.sound → Healthy S.ext (w.commit t)
  gen : ∀ g g', w.env.db.gen = .ok g → t.gen = .ok g' → g ≤ g'
  format : w.env.db.Formatted → t.Formatted
  named : w.Named ∨ t.gen ≠ w.env.db.gen → (w.commit t).Named
  same : S.sound → t.gen = w.env.db.gen → Extends w (w.commit t)
  pinned : ¬S.calm → S.pinned → t.gen = w.env.db.gen
  held : ∀ q, q ≠ p → w.env.lock = some q → t.gen = w.env.db.gen ∧ t.blobs = w.env.db.blobs
  keep : S.sound → S.Kg (w.store S.ext) ((w.commit t).store S.ext)

/-- A commit that leaves the generation as it is leaves the pack. -/
theorem World.pack_commit {t : Db} (hgen : t.gen = w.env.db.gen) : (w.commit t).pack = w.pack := by
  simp only [World.pack, World.commit, hgen]

/-- Tables may be committed that differ from the committed ones in the meta table only, and not in the
generation. -/
theorem CommitOk.of_blobs {t : Db} (hI : Inv S p w) (hgen : t.gen = w.env.db.gen)
    (hblobs : t.blobs = w.env.db.blobs) (hf : t.Formatted)
    (hkeep : S.sound → S.Kg (w.store S.ext) ((w.commit t).store S.ext)) : CommitOk S p w t := by
  have hpack := World.pack_commit hgen
  refine ⟨⟨hI.shape.wf, hI.shape.sizes, ?_, .inl hf, fun k hk hn => ?_⟩, fun hs => ?_,
    fun k k' hk hk' => ?_, fun _ => hf, ?_, fun _ _ => ⟨fun _ _ _ h => h, fun k v hk => ?_,
      fun k v e _ _ hle => ?_⟩, fun _ _ => hgen, fun _ _ _ => ⟨hgen, hblobs⟩, hkeep⟩
  · obtain ⟨k, hk⟩ := hI.shape.gen
    exact ⟨k, hgen.trans hk⟩
  · change t.blobs.toList = []
    rw [hblobs]
    exact hI.shape.pack k (hgen.symm.trans hk) hn
  · have hh := hI.healthy hs
    rw [Healthy] at hh ⊢
    rw [hpack]
    change TableOk S.ext w.pack w.pack.length t.blobs
    rwa [hblobs]
  · rw [hgen, hk] at hk'
    cases hk'
    exact Nat.le_refl _
  · rintro (⟨k, j, hk, hj⟩ | hne)
    · exact ⟨k, j, hgen.trans hk, hj⟩
    · exact absurd hgen hne
  · change t.blobs.find? k = some v
    rwa [hblobs]
  · rw [hpack]
    exact ⟨hle, rfl⟩

/-- Committing it, or failing and losing it. -/
theorem step_txnCommit {t : Db} {k : Except Errno Unit → World → Prop} (hI : Inv S p w)
    (ht : w.txn p = some t) (hc : CommitOk S p w t)
    (hok : Inv S p (w.commit t) → k (.ok ()) (w.commit t))
    (herr : S.CanFail .txnCommit → Inv S p (w.setWriter none) →
      ∀ res, res ≠ .badTxn → k (.error res) (w.setWriter none)) :
    (S.rules p).Step .txnCommit k w := by
  refine step_of_exec (by simp) fun ch r w' hch hx _ he => ?_
  simp only [exec, ht] at he
  obtain ⟨fail, more⟩ := ch
  cases fail with
  | true =>
    cases he
    obtain ⟨hI', hG, _⟩ := (Quiet.endTxn hI ht).step hI hx
    exact ⟨hI', hG, herr ⟨more, hch⟩ hI' _ (Choice.mdbErrno_ne _)⟩
  | false =>
    cases he
    have hI' : Inv S p (w.commit t) :=
      ⟨hc.shape, hx, hc.healthy, fun hcalm => ⟨(hI.solo hcalm).lock, fun _ _ h => by cases h⟩⟩
    refine ⟨hI', fun hs => ⟨fun hcalm q hq => ?_, hc.keep hs⟩, hok hI'⟩
    have hqt := World.txn_eq_none ht hq
    exact ⟨Nat.le_refl _, Iff.rfl, hqt.symm, hc.gen, hc.format, hc.named, hc.same hs, hc.pinned hcalm,
      fun hl => ⟨(hc.held q hq hl).1, (hc.held q hq hl).2, fun _ _ h => h, fun _ _ => rfl⟩,
      fun h => absurd h (by simp [hqt]), S.Kg_le hcalm (hc.keep hs), fun hc => absurd hc hcalm⟩

/-! ## Files -/

def World.setFs (w : World) (fs : Fs) : World := { w with fs := fs }

/-- A change of files that keeps the committed pack keeps the committed store. -/
theorem World.store_setFs {ext : Ext} {fs : Fs} (h : (w.setFs fs).pack = w.pack) :
    (w.setFs fs).store ext = w.store ext := by
  rw [World.store, World.store, h]
  rfl

/-- A new pack file has no bytes, like the missing one it replaces. -/
theorem World.pack_create {g : Nat} (hw : w.fs.Wf) (hg : w.fs.ino g = none) :
    (w.setFs (w.fs.create g)).pack = w.pack := by
  rw [World.pack, World.pack, show (w.setFs (w.fs.create g)).env = w.env from rfl,
    show (w.setFs (w.fs.create g)).fs = w.fs.create g from rfl]
  cases w.env.db.gen with
  | error e => rfl
  | ok k =>
    dsimp only
    by_cases hk : g = k
    · subst hk
      rw [Fs.ino_create, if_pos rfl, hg]
      simp [Fs.create]
    · rw [Fs.ino_create, if_neg hk]
      cases hi : w.fs.ino k with
      | none => rfl
      | some i => simp [Fs.create, Nat.ne_of_lt (hw.lt k i hi)]

/-- The names a new pack file leaves. -/
theorem Fs.ino_create_of_some {fs : Fs} {g k i : Nat} (hg : fs.ino g = none)
    (hk : fs.ino k = some i) : (fs.create g).ino k = some i := by
  rw [Fs.ino_create, if_neg]
  · exact hk
  · rintro rfl
    rw [hg] at hk
    cases hk

/-- Creating a pack file that does not exist harms nobody. -/
theorem Quiet.create (hI : Inv S p w) {g : Nat} (hg : w.fs.ino g = none) :
    Quiet S p w (w.setFs (w.fs.create g)) := by
  refine .files hI (hI.shape.wf.create hg) (fun i => ?_) (Nat.le_succ _)
    (fun k i _ => Fs.ino_create_of_some hg) (World.pack_create hI.shape.wf hg)
    fun q _ _ => ⟨fun k i => Fs.ino_create_of_some hg, fun i hi => ?_⟩
  · simp only [Fs.create]
    split
    · exact Nat.zero_le _
    · exact hI.shape.sizes i
  · simp only [Fs.create, if_neg (Nat.ne_of_lt hi)]

/-- `open` without `O_TRUNC`. -/
theorem step_openPack {g : Nat} {create : Bool} {k : Except Errno (Option Nat) → World → Prop}
    (hI : Inv S p w) (hsome : ∀ i, w.fs.ino g = some i → k (.ok (some i)) w)
    (hnew : create = true → w.fs.ino g = none → Inv S p (w.setFs (w.fs.create g)) →
      (w.setFs (w.fs.create g)).pack = w.pack →
      k (.ok (some w.fs.next)) (w.setFs (w.fs.create g)))
    (hnone : create = false → w.fs.ino g = none → k (.ok none) w)
    (herr : S.CanFail (.openPack g create false) → k (.error .io) w) :
    (S.rules p).Step (.openPack g create false) k w := by
  refine step_quiet hI (by simp) fun ch r w' hch he => ?_
  obtain ⟨fail, more⟩ := ch
  cases fail with
  | true =>
    simp only [exec, if_true] at he
    cases he
    exact ⟨.refl hI, fun _ _ => herr ⟨more, hch⟩⟩
  | false =>
    simp only [exec, Bool.false_eq_true, if_false] at he
    cases hg : w.fs.ino g with
    | some i =>
      rw [hg] at he
      cases he
      exact ⟨.refl hI, fun _ _ => hsome i hg⟩
    | none =>
      rw [hg] at he
      cases create with
      | true =>
        simp only [if_true] at he
        cases he
        exact ⟨.create hI hg, fun hI' _ => hnew rfl hg hI' (World.pack_create hI.shape.wf hg)⟩
      | false =>
        simp only [Bool.false_eq_true, if_false] at he
        cases he
        exact ⟨.refl hI, fun _ _ => hnone rfl hg⟩

/-- Changing the bytes of a file that is not the committed pack, under the lock. -/
theorem Quiet.other (hI : Inv S p w) (hlock : w.env.lock = some p) {ino g : Nat} {d : Bytes}
    (hd : d.length ≤ maxOff) (hg : w.env.db.gen = .ok g) (hino : w.fs.ino g ≠ some ino) :
    Quiet S p w (w.setFs (w.fs.setData ino d)) := by
  refine .files hI (hI.shape.wf.setData _ _) (fun i => ?_) (Nat.le_refl _) (fun _ _ _ h => h) ?_
    fun q hq hl => ?_
  · rw [Fs.data_setData]
    split
    · exact hd
    · exact hI.shape.sizes i
  · simp only [World.pack, hg, Fs.ino_setData]
    cases hi : w.fs.ino g with
    | none => rfl
    | some j =>
      have hj : j ≠ ino := fun h => hino (by rw [hi, h])
      simp only [Option.map_some, Option.getD_some, Fs.data_setData, if_neg hj]
  · rw [hlock] at hl
    cases hl
    exact absurd rfl hq

/-- Changing the bytes of the committed pack behind the described part, under the lock. -/
theorem Quiet.tail (hI : Inv S p w) (hlock : w.env.lock = some p) {ino g lim : Nat} {d : Bytes}
    (hd : d.length ≤ maxOff) (hg : w.env.db.gen = .ok g) (hino : w.fs.ino g = some ino)
    (ht : S.sound → TableOk S.ext (w.fs.data ino) lim w.env.db.blobs) (hle : lim ≤ d.length)
    (htake : d.take lim = (w.fs.data ino).take lim) :
    Quiet S p w (w.setFs (w.fs.setData ino d)) where
  shape := by
    refine ⟨hI.shape.wf.setData _ _, fun i => ?_, hI.shape.gen, hI.shape.format, hI.shape.pack⟩
    change ((w.fs.setData ino d).data i).length ≤ maxOff
    rw [Fs.data_setData]
    split
    · exact hd
    · exact hI.shape.sizes i
  db := rfl
  lock _ _ := Iff.rfl
  txn _ _ := rfl
  solo _ h := ⟨h.lock, h.writer⟩
  next := Nat.le_refl _
  ino _ _ _ h := h
  held q hq hl := by
    rw [hlock] at hl
    cases hl
    exact absurd rfl hq
  pack hs := by
    have h₁ : w.pack = w.fs.data ino := World.pack_eq hg hino
    have h₂ : (w.setFs (w.fs.setData ino d)).pack = d := by
      rw [World.pack_eq (w := w.setFs (w.fs.setData ino d)) hg hino]
      exact if_pos rfl
    rw [h₁, h₂]
    exact ⟨lim, ht hs, hle, htake⟩

/-- Removing a directory entry other than the committed pack's, under the lock. -/
theorem Quiet.unlink (hI : Inv S p w) (hlock : w.env.lock = some p) {g g' : Nat}
    (hg : w.env.db.gen = .ok g) (hne : g' ≠ g) : Quiet S p w (w.setFs (w.fs.unlink g')) := by
  refine .files hI (hI.shape.wf.unlink g') hI.shape.sizes (Nat.le_refl _) (fun k i hk hi => ?_) ?_
    fun q hq hl => ?_
  · rw [hg] at hk
    cases hk
    rw [Fs.ino_unlink, if_neg hne]
    exact hi
  · simp only [World.pack, hg, Fs.ino_unlink, if_neg hne]
    rfl
  · rw [hlock] at hl
    cases hl
    exact absurd rfl hq

/-- Some `pwrite` may fail. -/
def Setting.CanPwriteFail (S : Setting) : Prop := ∃ ino off d, S.CanFail (.pwrite ino off d)

/-- A `ftruncate` of the committed pack that keeps the described part. -/
theorem step_ftruncate {ino g len : Nat} {k : Bool → World → Prop} (hI : Inv S p w)
    (hlock : w.env.lock = some p) (hg : w.env.db.gen = .ok g) (hino : w.fs.ino g = some ino)
    (ht : S.sound → TableOk S.ext (w.fs.data ino) len w.env.db.blobs)
    (hle : len ≤ (w.fs.data ino).length)
    (hok : Inv S p (w.setFs (w.fs.setData ino ((w.fs.data ino).take len))) →
      (S.sound → (w.setFs (w.fs.setData ino ((w.fs.data ino).take len))).store S.ext =
        w.store S.ext) →
      k true (w.setFs (w.fs.setData ino ((w.fs.data ino).take len))))
    (herr : S.CanFail (.ftruncate ino len) → k false w) :
    (S.rules p).Step (.ftruncate ino len) k w := by
  refine step_quiet hI (by simp) fun ch r w' hch he => ?_
  obtain ⟨fail, more⟩ := ch
  cases fail with
  | true =>
    simp only [exec, if_true] at he
    cases he
    exact ⟨.refl hI, fun _ _ => herr ⟨more, hch⟩⟩
  | false =>
    have htrunc : w.fs.truncate ino len = w.fs.setData ino ((w.fs.data ino).take len) := by
      rw [Fs.truncate, Nat.sub_eq_zero_of_le hle, List.replicate_zero, List.append_nil]
    simp only [exec, Bool.false_eq_true, if_false, htrunc] at he
    cases he
    refine ⟨Quiet.tail hI hlock ?_ hg hino ht ?_ ?_, fun hI' hst => hok hI' hst⟩
    · exact (List.length_take_le' _ _).trans (hI.shape.sizes ino)
    · rw [List.length_take]
      omega
    · rw [List.take_take, Nat.min_self]

/-- A `pwrite` into the committed pack behind the described part. -/
theorem step_pwrite {ino g off lim : Nat} {d : Bytes} {k : Except Errno Nat → World → Prop}
    (hI : Inv S p w) (hlock : w.env.lock = some p) (hg : w.env.db.gen = .ok g)
    (hino : w.fs.ino g = some ino) (ht : S.sound → TableOk S.ext (w.fs.data ino) lim w.env.db.blobs)
    (hlim : lim ≤ off) (hoff : off ≤ (w.fs.data ino).length) (hd : d ≠ [])
    (hok : ∀ n, n < d.length → off + (n + 1) ≤ maxOff →
      Inv S p (w.setFs (w.fs.setData ino (splice (w.fs.data ino) off (d.take (n + 1))))) →
      (S.sound → (w.setFs (w.fs.setData ino
        (splice (w.fs.data ino) off (d.take (n + 1))))).store S.ext = w.store S.ext) →
      k (.ok n) (w.setFs (w.fs.setData ino (splice (w.fs.data ino) off (d.take (n + 1))))))
    (herr : ∀ e, S.CanPwriteFail ∨ maxOff < off + d.length → k (.error e) w) :
    (S.rules p).Step (.pwrite ino off d) k w := by
  refine step_quiet hI (by simp) fun ch r w' hch he => ?_
  have hpos := List.length_pos_iff.2 hd
  cases he
  simp only [Fs.write]
  split
  · next hf =>
    obtain ⟨fail, more⟩ := ch
    exact ⟨.refl hI, fun _ _ => herr _ (.inl ⟨_, _, _, more, (show fail = true from hf) ▸ hch⟩)⟩
  · split
    · next hbig => exact ⟨.refl hI, fun _ _ => herr _ (.inr (by omega))⟩
    · next hmax =>
      have hn : min (ch.more + 1) d.length = min (ch.more + 1) d.length - 1 + 1 := by omega
      have hmax' := not_lt.1 hmax
      rw [hn] at hmax' ⊢
      refine ⟨Quiet.tail hI hlock ?_ hg hino ht ?_ ?_,
        fun hI' hst => hok _ (by omega) hmax' hI' hst⟩
      · rw [length_splice _ hoff, List.length_take]
        have hsize := hI.shape.sizes ino
        omega
      · rw [length_splice _ hoff]
        omega
      · exact take_splice _ hlim hoff

/-- `open` with `O_CREAT` and `O_TRUNC` of a pack other than the committed one, under the lock. -/
theorem step_openNew {g g' : Nat} {k : Except Errno (Option Nat) → World → Prop} (hI : Inv S p w)
    (hlock : w.env.lock = some p) (hg : w.env.db.gen = .ok g) (hne : g' ≠ g)
    (hok : ∀ fs' j, fs'.ino g' = some j → fs'.data j = [] →
      (∀ k i, w.fs.ino k = some i → fs'.ino k = some i) →
      (∀ i, i ≠ j → fs'.data i = w.fs.data i) → w.fs.next ≤ fs'.next →
      Inv S p (w.setFs fs') → k (.ok (some j)) (w.setFs fs'))
    (herr : S.CanFail (.openPack g' true true) → k (.error .io) w) :
    (S.rules p).Step (.openPack g' true true) k w := by
  refine step_quiet hI (by simp) fun ch r w' hch he => ?_
  obtain ⟨fail, more⟩ := ch
  cases fail with
  | true =>
    simp only [exec, if_true] at he
    cases he
    exact ⟨.refl hI, fun _ _ => herr ⟨more, hch⟩⟩
  | false =>
    simp only [exec, Bool.false_eq_true, if_false, if_true] at he
    cases hi : w.fs.ino g' with
    | some j =>
      rw [hi] at he
      cases he
      have hgj : w.fs.ino g ≠ some j := fun h => hne (hI.shape.wf.inj _ _ _ hi h)
      refine ⟨.other hI hlock (Nat.zero_le _) hg hgj, fun hI' _ => hok _ j hi ?_ (fun _ _ h => h)
        (fun i hij => ?_) (Nat.le_refl _) hI'⟩
      · exact if_pos rfl
      · exact if_neg hij
    | none =>
      rw [hi] at he
      cases he
      refine ⟨.create hI hi, fun hI' _ => hok _ w.fs.next ?_ ?_
        (fun k i => Fs.ino_create_of_some hi) (fun i hij => ?_) (Nat.le_succ _) hI'⟩
      · rw [Fs.ino_create, if_pos rfl]
      · simp [Fs.create]
      · simp [Fs.create, hij]

/-- A `write` at the end of a file other than the committed pack, under the lock. -/
theorem step_write {ino g pos : Nat} {d : Bytes} {k : Except Errno Nat → World → Prop}
    (hI : Inv S p w) (hlock : w.env.lock = some p) (hg : w.env.db.gen = .ok g)
    (hino : w.fs.ino g ≠ some ino) (hpos : pos = (w.fs.data ino).length) (hd : d ≠ [])
    (hok : ∀ n, n < d.length →
      Inv S p (w.setFs (w.fs.setData ino (w.fs.data ino ++ d.take (n + 1)))) →
      k (.ok n) (w.setFs (w.fs.setData ino (w.fs.data ino ++ d.take (n + 1)))))
    (herr : ∀ e, S.CanFail (.write ino pos d) ∨ maxOff < pos + d.length → k (.error e) w) :
    (S.rules p).Step (.write ino pos d) k w := by
  refine step_quiet hI (by simp) fun ch r w' hch he => ?_
  have hlen := List.length_pos_iff.2 hd
  subst hpos
  cases he
  simp only [Fs.write]
  split
  · next hf => exact ⟨.refl hI, fun _ _ => herr _ (.inl ⟨ch.more, by
      obtain ⟨fail, more⟩ := ch
      exact (show fail = true from hf) ▸ hch⟩)⟩
  · split
    · next hbig => exact ⟨.refl hI, fun _ _ => herr _ (.inr (by omega))⟩
    · next hmax =>
      have hn : min (ch.more + 1) d.length = min (ch.more + 1) d.length - 1 + 1 := by omega
      have hmax' := not_lt.1 hmax
      rw [hn] at hmax' ⊢
      rw [splice_length]
      refine ⟨.other hI hlock ?_ hg hino, fun hI' _ => hok _ (by omega) hI'⟩
      rw [List.length_append, List.length_take]
      omega

/-- Removing a directory entry other than the committed pack's, under the lock. -/
theorem step_unlink {g g' : Nat} {k : Unit → World → Prop} (hI : Inv S p w)
    (hlock : w.env.lock = some p) (hg : w.env.db.gen = .ok g) (hne : g' ≠ g)
    (h : Inv S p (w.setFs (w.fs.unlink g')) → k () (w.setFs (w.fs.unlink g'))) :
    (S.rules p).Step (.unlink g') k w :=
  step_quiet hI (by simp) fun _ _ _ _ he => by
    cases he
    exact ⟨.unlink hI hlock hg hne, fun hI' _ => h hI'⟩

/-- The committed pack's bytes do not depend on the other names. -/
theorem World.pack_unlink {g g' : Nat} (hg : w.env.db.gen = .ok g) (hne : g' ≠ g) :
    (w.setFs (w.fs.unlink g')).pack = w.pack := by
  have h : ∀ w : World, w.env.db.gen = .ok g →
      w.pack = ((w.fs.ino g).map w.fs.data).getD [] := fun w hg => by simp only [World.pack, hg]
  rw [h w hg, h (w.setFs (w.fs.unlink g')) hg]
  change ((Option.map w.fs.data ((w.fs.unlink g').ino g)).getD []) = _
  rw [Fs.ino_unlink, if_neg hne]

end Tarmac.PackCas
