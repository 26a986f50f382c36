import Tarmac.PackCas.Handle

/-!
# Write batches

The two states a handle is in between operations: `Idle`, without a write transaction, and `Batch`,
with the writer lock, a transaction whose working copy `t` extends the committed index, and two
offsets into the pack: `committed_end`, which covers the committed index, and `end`, which also
covers what the batch has added. Both survive whatever other processes do (`Idle.rely`,
`Batch.rely`); `begin_batch` leads from the first to the second, `commit_batch` and `abort_batch`
lead back.
-/

namespace Tarmac.PackCas

variable {S : Setting} {p : Nat} {w w' : World} {i i' : Impl} {g ino : Nat} {t : Db}

/-- An open handle without a batch. -/
structure Idle (p : Nat) (i : Impl) (w : World) : Prop where
  handle : HandleOk i w
  wtxn : i.wtxn = false
  txn : w.txn p = none
  format : w.env.db.Formatted

/-- A handle with a batch: `t` is the working copy, `ino` the pack of the committed generation. -/
structure Batch (S : Setting) (p : Nat) (i : Impl) (w : World) (g ino : Nat) (t : Db) : Prop where
  handle : HandleOk i w
  wtxn : i.wtxn = true
  thread : i.writerThread = i.thread
  lock : w.env.lock = some p
  txn : w.txn p = some t
  cur : i.cur = some ⟨g, ino⟩
  gen : w.env.db.gen = .ok g
  name : w.fs.ino g = some ino
  tgen : t.gen = .ok g
  format : w.env.db.Formatted
  tformat : t.Formatted
  le : i.committedEnd ≤ i.end_
  len : i.end_ ≤ (w.fs.data ino).length
  grow : S.sound → ∀ k v, w.env.db.blobs.find? k = some v → t.blobs.find? k = some v
  committed : S.sound → TableOk S.ext (w.fs.data ino) i.committedEnd w.env.db.blobs
  pending : S.sound → TableOk S.ext (w.fs.data ino) i.end_ t.blobs

/-- A handle stays idle whatever the other processes do. -/
theorem Idle.rely (hI : Inv S p w) (hR : Rely S p w w') (h : Idle p i w) : Idle p i w' :=
  ⟨h.handle.rely hI hR, h.wtxn, hR.txn.trans h.txn, hR.format h.format⟩

theorem stable_idle : S.Stable p (Idle p i) := fun _ _ hI _ hR h => h.rely hI hR

/-- Other processes keep the format. -/
theorem stable_formatted : S.Stable p fun w => w.env.db.Formatted := fun _ _ _ _ hR h => hR.format h

/-- The locks of the process do not matter to an idle handle. -/
theorem Idle.setLock (h : Idle p i w) (l : Option Nat) : Idle p i (w.setLock l) :=
  ⟨h.handle.congr rfl (fun _ _ _ h => h) (Nat.le_refl _), h.wtxn, h.txn, h.format⟩

/-- A handle without a batch and without the lock, on the store `M`. -/
structure AtRest (S : Setting) (p : Nat) (i : Impl) (w : World) (M : Store) : Prop where
  idle : Idle p i w
  store : S.Kr M (w.store S.ext)
  unlocked : w.env.lock ≠ some p

/-- A handle stays at rest whatever the other processes do to a store that admits it. -/
theorem stable_atRest {M : Store} : S.Stable p fun w => AtRest S p i w M := fun _ _ hI _ hR h =>
  ⟨h.idle.rely hI hR, S.Kr_trans h.store hR.store, fun hl => h.unlocked (hR.lock.1 hl)⟩

/-- The pack of a batch is a file that exists. -/
theorem Batch.lt (hI : Inv S p w) (h : Batch S p i w g ino t) : ino < w.fs.next :=
  hI.shape.wf.lt g ino h.name

/-- The committed pack is the one the batch writes to. -/
theorem Batch.pack (h : Batch S p i w g ino t) : w.pack = w.fs.data ino :=
  World.pack_eq h.gen h.name

/-- The batch of this thread is the one `batch_txn` returns. -/
theorem Batch.batchTxn (h : Batch S p i w g ino t) : i.batchTxn = true := by
  simp [Impl.batchTxn, h.wtxn, h.thread]

/-- While the batch is open, nobody touches its pack or the committed tables. -/
theorem Batch.frame (hI : Inv S p w) (hR : Rely S p w w') (h : Batch S p i w g ino t) :
    w'.env.db = w.env.db ∧ w'.fs.data ino = w.fs.data ino :=
  ⟨hR.writing (by rw [h.txn]; rfl), (hR.held h.lock).data ino (h.lt hI)⟩

/-- A batch stays as it is whatever the other processes do. -/
theorem Batch.rely (hI : Inv S p w) (hR : Rely S p w w') (h : Batch S p i w g ino t) :
    Batch S p i w' g ino t := by
  obtain ⟨hdb, hdata⟩ := h.frame hI hR
  exact ⟨h.handle.rely hI hR, h.wtxn, h.thread, hR.lock.2 h.lock, hR.txn.trans h.txn, h.cur,
    hdb ▸ h.gen, (hR.held h.lock).ino g ino h.name, h.tgen, hdb ▸ h.format, h.tformat, h.le,
    hdata.symm ▸ h.len, hdb.symm ▸ h.grow, by rw [hdb, hdata]; exact h.committed,
    by rw [hdata]; exact h.pending⟩

/-- A batch whose pack has the bytes `file`. -/
theorem stable_batch_data {file : Bytes} {M : Store} :
    S.Stable p fun w => Batch S p i w g ino t ∧ w.fs.data ino = file ∧ w.store S.ext = M :=
  fun w w' hI _ hR h => by
    obtain ⟨hdb, hdata⟩ := h.1.frame hI hR
    have hb := h.1.rely hI hR
    refine ⟨hb, hdata.trans h.2.1, Eq.trans ?_ h.2.2⟩
    rw [World.store, World.store, hb.pack, h.1.pack, hdb, hdata]

/-! ## `begin_batch` -/

/-- What `begin_batch` establishes: a batch that has added nothing. -/
structure Begun (S : Setting) (p : Nat) (i : Impl) (w : World) (g ino : Nat) : Prop where
  batch : Batch S p i w g ino w.env.db
  bytes : i.batchBytes = 0
  content : storeOf S.ext (w.fs.data ino) w.env.db = w.store S.ext

theorem Begun.rely (hI : Inv S p w) (hR : Rely S p w w') (h : Begun S p i w g ino) :
    Begun S p i w' g ino := by
  obtain ⟨hdb, hdata⟩ := h.batch.frame hI hR
  have hb := h.batch.rely hI hR
  refine ⟨hdb.symm ▸ hb, h.bytes, ?_⟩
  rw [World.store, hb.pack]

theorem stable_begun : S.Stable p fun w => Begun S p i w g ino := fun _ _ hI _ hR h => h.rely hI hR

/-- The assertion between the begin of the transaction and the end of `begin_batch`. -/
def Begins (S : Setting) (p : Nat) (M : Store) (file : Bytes) (db : Db) (w : World) : Prop :=
  w.env.lock = some p ∧ (w.txn p = some db ∧ w.env.db = db) ∧ S.Kr M (w.store S.ext) ∧
    (S.calm → w.pack = file)

/-- The tables a batch begins with. -/
theorem stable_begins {M : Store} {file : Bytes} {db : Db} : S.Stable p (Begins S p M file db) :=
  stable_locked.and (stable_db.and (stable_store.and stable_calm))

/-- The mapping `begin_batch` and `compact` work on is the committed generation's. -/
theorem safe_mapCreate {P : World → Prop} (hI : Inv S p w) (hh : HandleOk i w) (hP : S.Stable p P)
    (hw : P w) (hg : ∀ w, P w → w.env.db.gen = .ok g)
    (hcreate : ∀ w, P w → w.fs.ino g = none → Inv S p (w.setFs (w.fs.create g)) →
      (w.setFs (w.fs.create g)).pack = w.pack →
      P (w.setFs (w.fs.create g))) :
    Eff.Safe (S.rules p) (fun x i' w' => P w' ∧ HandleOk i' w' ∧ i.SameBatch i' ∧ match x with
      | .ok m => i'.cur = some m ∧ m.gen = g ∧ w'.fs.ino g = some m.ino
      | .error e => e.caught ∧ S.CanFailMap) (mapCreate g) i w := by
  refine safe_seq hI (safe_mappingFor hI hh hP hw (fun k hk => ?_) fun _ => hcreate) ?_ ?_
  · rw [hg w hw] at hk
    cases hk
    exact Nat.le_refl _
  · rintro (_ | m) i' w' hI' h
    · obtain ⟨_, _, _, hc, _⟩ := h
      cases hc
    · obtain ⟨hP', hh', hsame, hmg, hmem⟩ := h
      subst hmg
      refine safe_pure (hP.and stable_handleOk) hI' ⟨hP', hh'⟩ fun w₁ _ h₁ => ?_
      have hgen := hg w₁ h₁.1
      exact ⟨h₁.1, h₁.2, hsame, h₁.2.cur_of_mem hmem hgen, rfl, (h₁.2.map m hmem).ino hgen⟩
  · rintro e i' w' _ ⟨hP', hh', hsame, he, hf⟩
    exact ⟨hP', hh', hsame, he, hf⟩

/-- `begin_batch` opens a batch on the committed store; only a time-out of the lock stops it. -/
theorem safe_beginBatch (hS : S.sound) (hI : Inv S p w) {M : Store} (h : AtRest S p i w M) :
    Eff.Safe (S.rules p) (fun x i' w' => i'.thread = i.thread ∧ match x with
      | .ok _ => ∃ g ino, Begun S p i' w' g ino ∧ S.Kr M (w'.store S.ext) ∧
          (S.calm → i'.end_ = w.pack.length)
      | .error _ => ¬S.calm ∧ AtRest S p i' w' M) beginBatch i w := by
  have hno : ∀ {c}, (∀ i off d, c ≠ Call.pwrite i off d) → ¬S.CanFail c := Setting.not_canFail hS
  refine safe_seq hI (safe_lockWriter (P := fun w₁ => AtRest S p i w₁ M ∧ (S.calm → w₁.pack = w.pack))
    (L := fun w₁ => Idle p i w₁ ∧ S.Kr M (w₁.store S.ext) ∧ (S.calm → w₁.pack = w.pack))
    (stable_atRest.and stable_calm) (stable_idle.and (stable_store.and stable_calm))
    (fun w _ h => ⟨h.1.idle.setLock _, h.1.store, h.2⟩) hI ⟨h, fun _ => rfl⟩) ?_ ?_
  · rintro _ i w₁ hI₁ ⟨rfl, ⟨hid₁, hM₁, hc₁⟩, hl₁⟩
    refine safe_catchAll (P := fun x i' w' => i'.thread = i.thread ∧ match x with
      | .ok _ => ∃ g ino, Begun S p i' w' g ino ∧ S.Kr M (w'.store S.ext) ∧
          (S.calm → i'.end_ = w.pack.length)
      | .error _ => False) hI₁ ?_ (fun _ _ _ _ h => h) (fun _ _ _ _ _ h => h.2.elim)
      fun _ _ _ _ _ h => h.2.elim
    -- the body: nothing in it fails
    have hstable : S.Stable p fun w₂ => Idle p i w₂ ∧ (S.Kr M (w₂.store S.ext) ∧
        (S.calm → w₂.pack = w.pack)) ∧ w₂.env.lock = some p :=
      stable_idle.and ((stable_store.and stable_calm).and stable_locked)
    refine safe_txnBegin hstable hI₁ ⟨hid₁, ⟨hM₁, hc₁⟩, hl₁⟩ hid₁.txn (fun w₂ hI₂ h₂ _ hI₃ => ?_) fun hf => absurd hf (hno (by simp))
    obtain ⟨g, hg⟩ := hI₂.shape.gen
    have hh : HandleOk { i with wtxn := true, writerThread := i.thread }
        (w₂.setWriter (some (p, w₂.env.db))) :=
      HandleOk.congr (w := w₂) (h₂.1.handle.of_mappings rfl rfl) rfl (fun _ _ _ h => h)
        (Nat.le_refl _)
    have hb : Begins S p M w.pack w₂.env.db (w₂.setWriter (some (p, w₂.env.db))) :=
      ⟨h₂.2.2, ⟨World.txn_setWriter_self _ _ _, rfl⟩, h₂.2.1⟩
    refine Eff.Safe.modify ?_
    refine safe_txnDb (stable_begins.and stable_handleOk) hI₃ ⟨hb, hh⟩
      (World.txn_setWriter_self _ _ _) fun w₄ hI₄ h₄ _ => ?_
    rw [readGen, bind_assoc]
    refine safe_mdbRead (stable_begins.and stable_handleOk) hI₄ h₄ (fun w₅ hI₅ h₅ => ?_)
      fun hf => absurd hf (hno (by simp))
    rw [hg, Eff.ofExcept_ok, pure_bind]
    refine safe_seq hI₅ (safe_mapCreate (g := g) hI₅ h₅.2 stable_begins h₅.1
      (fun w h => by rw [h.2.1.2, hg])
      fun w h _ _ hpk => ⟨h.1, h.2.1, by rw [World.store_setFs hpk]; exact h.2.2.1,
        fun hc => hpk.trans (h.2.2.2 hc)⟩) ?_ ?_
    · rintro ⟨g', ino⟩ i₁ w₆ hI₆ ⟨h₆, hh₆, hsame, hcur, rfl, hino⟩
      have hstable : S.Stable p fun w₁ => Begins S p M w.pack w₂.env.db w₁ ∧ HandleOk i₁ w₁ ∧
          w₁.fs.ino g' = some ino := by
        intro w w' hI hI' hR h
        exact ⟨stable_begins w w' hI hI' hR h.1, h.2.1.rely hI hR,
          (hR.held h.1.1).ino _ _ h.2.2⟩
      refine safe_fileSize hstable hI₆ ⟨h₆, hh₆, hino⟩ (fun w₇ hI₇ h₇ => ?_)
        fun hf => absurd hf (hno (by simp))
      obtain ⟨⟨hl₇, ⟨ht₇, hdb₇⟩, hM₇, hc₇⟩, hh₇, hino₇⟩ := h₇
      have hgen₇ : w₇.env.db.gen = .ok g' := by rw [hdb₇, hg]
      have hpack : w₇.pack = w₇.fs.data ino := World.pack_eq hgen₇ hino₇
      have hok : S.sound → TableOk S.ext (w₇.fs.data ino) (w₇.fs.data ino).length
          w₇.env.db.blobs := fun hs => by
        rw [← hpack]
        exact hI₇.healthy hs
      have hfmt : w₇.env.db.Formatted := by rw [hdb₇]; exact h₂.1.format
      have hb : Begun S p (({ i₁ with
          end_ := (w₇.fs.data ino).length
          committedEnd := (w₇.fs.data ino).length
          batchBytes := 0 } : Impl).setKnown g' (w₇.fs.data ino).length) w₇ g' ino :=
        { batch :=
            { handle := hh₇.of_mappings rfl rfl
              wtxn := hsame.wtxn
              thread := hsame.writerThread.trans hsame.thread.symm
              lock := hl₇
              txn := by rw [ht₇, hdb₇]
              cur := hcur
              gen := hgen₇
              name := hino₇
              tgen := hgen₇
              format := hfmt
              tformat := hfmt
              le := Nat.le_refl _
              len := Nat.le_refl _
              grow := fun _ _ _ h => h
              committed := hok
              pending := hok }
          bytes := rfl
          content := by rw [World.store, hpack] }
      refine Eff.Safe.modify_last ?_
      refine safe_pure (stable_begun.and stable_store) hI₇ ⟨hb, hM₇⟩ fun w₈ _ h₈ =>
        ⟨hsame.thread, g', ino, h₈.1, h₈.2, fun hc => ?_⟩
      rw [← hc₇ hc, hpack]
      rfl
    · rintro e i₁ w₆ _ ⟨_, _, _, _, hf⟩
      exact absurd hf (Setting.not_canFailMap hS)
  · rintro _ i w₁ _ ⟨rfl, h₁, _, hc⟩
    exact ⟨rfl, fun hcalm => hno (by simp) (hc hcalm), h₁.1⟩

/-! ## `commit_batch` and `abort_batch` -/

/-- A batch may be committed. -/
theorem Batch.commitOk (hI : Inv S p w) (h : Batch S p i w g ino t)
    (hkeep : S.sound → S.Kg (w.store S.ext) (storeOf S.ext (w.fs.data ino) t)) :
    CommitOk S p w t := by
  have hpack : (w.commit t).pack = w.fs.data ino := World.pack_eq (w := w.commit t) h.tgen h.name
  refine ⟨⟨hI.shape.wf, hI.shape.sizes, ⟨g, h.tgen⟩, .inl h.tformat, ?_⟩, ?_, ?_, ?_, ?_, ?_, ?_, ?_,
    ?_⟩
  · intro k hk hnone
    have hkg : k = g := Except.ok.inj (hk.symm.trans h.tgen)
    have hnone : w.fs.ino g = none := hkg ▸ hnone
    rw [h.name] at hnone
    cases hnone
  · intro hs
    rw [Healthy, hpack]
    exact (h.pending hs).mono h.len
  · intro k k' hk hk'
    rw [h.gen] at hk
    rw [h.tgen] at hk'
    cases hk
    cases hk'
    exact Nat.le_refl _
  · exact fun _ => h.tformat
  · exact fun _ => ⟨g, ino, h.tgen, h.name⟩
  · intro hs _
    refine ⟨fun _ _ _ hi => hi, h.grow hs, fun k v e _ _ hle => ?_⟩
    rw [hpack, ← h.pack]
    exact ⟨hle, rfl⟩
  · exact fun _ _ => h.tgen.trans h.gen.symm
  · intro q hq hl
    rw [h.lock] at hl
    cases hl
    exact absurd rfl hq
  · intro hs
    rw [show (w.commit t).store S.ext = storeOf S.ext (w.fs.data ino) t by rw [World.store, hpack]; rfl]
    exact hkeep hs

/-- `commit_batch` makes the batch the committed store and releases the lock. -/
theorem safe_commitBatch (hI : Inv S p w) (hb : Batch S p i w g ino t)
    (hkeep : S.sound → S.Kg (w.store S.ext) (storeOf S.ext (w.fs.data ino) t)) :
    Eff.Safe (S.rules p) (fun x i' w' => i'.thread = i.thread ∧ match x with
      | .ok _ => Idle p i' w' ∧ S.Kr (storeOf S.ext (w.fs.data ino) t) (w'.store S.ext) ∧
          (S.calm → w'.env.db = t ∧ w'.fs = w.fs) ∧ w'.env.lock ≠ some p
      | .error e => e.caught ∧ ∃ c, S.CanFail c ∧ ∀ j off d, c ≠ .pwrite j off d)
      commitBatch i w := by
  refine safe_current hb.cur ?_
  -- nothing but the committed tables changes, and they change to `t`
  have hbatch : S.Stable p fun w₁ => (Batch S p i w₁ g ino t ∧ w₁.fs.data ino = w.fs.data ino ∧
      w₁.store S.ext = w.store S.ext) ∧ (S.calm → w₁.fs = w.fs) :=
    stable_batch_data.and stable_calm
  have hidle : S.Stable p fun w₁ => (∀ j, j.cur = i.cur → j.retired = i.retired → j.wtxn = false →
      Idle p j w₁) ∧ S.Kr (storeOf S.ext (w.fs.data ino) t) (w₁.store S.ext) ∧
      (S.calm → w₁.env.db = t ∧ w₁.fs = w.fs) :=
    Setting.Stable.and (fun w w' hI _ hR h j hc hr hw => (h j hc hr hw).rely hI hR)
      (stable_store.and stable_calm)
  refine safe_fdatasync hbatch hI ⟨⟨hb, rfl, rfl⟩, fun _ => rfl⟩ (fun w₁ hI₁ h₁ => ?_)
    fun hf _ _ _ => ⟨rfl, rfl, _, hf, by simp⟩
  refine safe_txnCommit hbatch hI₁ h₁ h₁.1.1.txn (fun w₂ hI₂ h₂ => ?_) (fun w₂ hI₂ h₂ _ hI₃ => ?_)
    fun hf w₂ hI₂ h₂ _ hI₃ => ?_
  · refine h₂.1.1.commitOk hI₂ ?_
    rw [h₂.1.2.1, h₂.1.2.2]
    exact hkeep
  · obtain ⟨⟨hb₂, hdata, hst⟩, hcalm⟩ := h₂
    have hstore : (w₂.commit t).store S.ext = storeOf S.ext (w.fs.data ino) t := by
      rw [World.store, World.pack_eq (w := w₂.commit t) hb₂.tgen hb₂.name]
      exact congrArg (storeOf S.ext · t) hdata
    have h₃ : (∀ j, j.cur = i.cur → j.retired = i.retired → j.wtxn = false →
        Idle p j (w₂.commit t)) ∧
        S.Kr (storeOf S.ext (w.fs.data ino) t) ((w₂.commit t).store S.ext) ∧
        (S.calm → (w₂.commit t).env.db = t ∧ (w₂.commit t).fs = w.fs) := by
      refine ⟨fun j hc hr hw => ⟨?_, hw, rfl, hb₂.tformat⟩, by rw [hstore]; exact S.Kr_refl _,
        fun h => ⟨rfl, hcalm h⟩⟩
      exact HandleOk.congr (w := w₂) (hb₂.handle.of_mappings hc hr) (hb₂.tgen.trans hb₂.gen.symm)
        (fun _ _ _ h => h) (Nat.le_refl _)
    refine Eff.Safe.modify ?_
    refine safe_envSync hidle hI₃ h₃ (fun w₄ hI₄ h₄ => ?_) fun hf _ _ _ => ⟨rfl, rfl, _, hf, by simp⟩
    refine Eff.Safe.modify ?_
    refine (safe_unlockWriter hidle hidle (fun w _ h => ⟨fun j hc hr hw =>
      (h.1 j hc hr hw).setLock _, h.2⟩) hI₄ h₄).mono ?_
    rintro _ _ w₅ _ ⟨rfl, rfl, h₅, hl₅⟩
    exact ⟨rfl, h₅.1 _ rfl rfl rfl, h₅.2.1, h₅.2.2, hl₅⟩
  · exact safe_throw (stable_txn none) hI₃ rfl fun _ _ _ => ⟨rfl, rfl, _, hf, by simp⟩

/-- An idle handle whatever its fields other than the mappings are. -/
def IdleMaps (p : Nat) (i : Impl) (w : World) : Prop :=
  ∀ j : Impl, j.cur = i.cur → j.retired = i.retired → j.wtxn = false → Idle p j w

/-- The mappings of an idle handle stay good. -/
theorem stable_idleMaps : S.Stable p (IdleMaps p i) :=
  fun _ _ hI _ hR h j hc hr hw => (h j hc hr hw).rely hI hR

/-- `abort_batch` drops the batch, cuts its bytes off and releases the lock. -/
theorem safe_abortBatch (hS : S.sound) (hI : Inv S p w) (hb : Batch S p i w g ino t) :
    Eff.Safe (S.rules p) (fun x i' w' => i'.thread = i.thread ∧ x = .ok () ∧ Idle p i' w' ∧
      S.Kr (w.store S.ext) (w'.store S.ext) ∧ w'.env.lock ≠ some p) abortBatch i w := by
  refine safe_txnAbort stable_batch_data hI ⟨hb, rfl, rfl⟩ hb.txn fun w₁ hI₁ h₁ _ hI₂ => ?_
  obtain ⟨hb₁, hdata, hst⟩ := h₁
  refine Eff.Safe.modify ?_
  refine safe_current hb₁.cur ?_
  refine Eff.Safe.get ?_
  have hmaps : IdleMaps p i (w₁.setWriter none) := fun j hc hr hw =>
    ⟨HandleOk.congr (w := w₁) (hb₁.handle.of_mappings hc hr) rfl (fun _ _ _ h => h) (Nat.le_refl _),
      hw, rfl, hb₁.format⟩
  -- the pack is still this process's while it holds the lock
  have hstable : S.Stable p fun w₂ => IdleMaps p i w₂ ∧ S.Kr (w.store S.ext) (w₂.store S.ext) ∧
      LockedSince p (w₁.setWriter none) w₂ := stable_idleMaps.and (stable_store.and stable_lockedSince)
  have hlast : ∀ (j : Impl) w₂, Inv S p w₂ → IdleMaps p i w₂ →
      S.Kr (w.store S.ext) (w₂.store S.ext) → j.cur = i.cur → j.retired = i.retired →
      j.wtxn = false → j.thread = i.thread → Eff.Safe (S.rules p) (fun x i' w' =>
        i'.thread = i.thread ∧ x = .ok () ∧ Idle p i' w' ∧ S.Kr (w.store S.ext) (w'.store S.ext) ∧
          w'.env.lock ≠ some p) unlockWriter j w₂ := by
    intro j w₂ hI₂ hm₂ hM₂ hc hr hw ht
    refine (safe_unlockWriter (stable_idleMaps.and stable_store) (stable_idleMaps.and stable_store)
      (fun w _ h => ⟨fun j hc hr hw => (h.1 j hc hr hw).setLock _, h.2⟩) hI₂ ⟨hm₂, hM₂⟩).mono ?_
    rintro _ _ w₃ _ ⟨rfl, rfl, h₃, hl₃⟩
    exact ⟨ht, rfl, h₃.1 _ hc hr hw, h₃.2, hl₃⟩
  refine Eff.Safe.perform fun w₂ hI₃ hR₂ => ?_
  obtain ⟨hm₂, hM₂, hl₂⟩ := hstable _ w₂ hI₂ hI₃ hR₂
    ⟨hmaps, hst ▸ S.Kr_refl _, .refl (w := w₁.setWriter none) hb₁.lock⟩
  have hgen₂ : w₂.env.db.gen = .ok g := hl₂.held.gen.trans hb₁.gen
  have hdata₂ : w₂.fs.data ino = w₁.fs.data ino := hl₂.held.data ino (show ino < w₁.fs.next from hb₁.lt hI₁)
  refine step_ftruncate hI₃ hl₂.lock hgen₂ (hl₂.held.ino g ino hb₁.name) ?_ ?_
    (fun hI₄ hst₄ => ?_) fun _ => ?_
  · intro hs
    rw [hdata₂, show w₂.env.db.blobs = w₁.env.db.blobs from hl₂.held.blobs]
    exact hb₁.committed hs
  · rw [hdata₂]
    exact hb₁.le.trans hb₁.len
  · refine Eff.Safe.modify (Eff.Safe.modify ?_)
    refine hlast _ _ hI₄ (fun j hc hr hw => ?_) ?_ rfl rfl rfl rfl
    · have hj := hm₂ j hc hr hw
      exact ⟨hj.handle.congr rfl (fun _ _ _ h => h) (Nat.le_refl _), hj.wtxn, hj.txn, hj.format⟩
    · rw [hst₄ hS]
      exact hM₂
  · exact Eff.Safe.modify (Eff.Safe.modify (hlast _ _ hI₃ hm₂ hM₂ rfl rfl rfl rfl))

end Tarmac.PackCas
