import Tarmac.PackCas.Reads

/-!
# `put` and `sync`

Between operations a handle is at rest on a store (`AtRest`) or has a batch on it (`InBatch`).
`put` adds a blob whose hash is new to the store of the batch and commits when the batch has grown
to `kAutoSyncBytes`; a `pwrite` that fails, at whatever byte, leaves the store of the batch as it
was (`safe_put_batch`, `safe_put_rest`). `sync` commits (`safe_sync_batch`).
-/

namespace Tarmac.PackCas

variable {S : Setting} {p : Nat} {w w' : World} {i i' : Impl} {g ino : Nat} {t : Db} {M M0 : Store}

/-- Adds a blob unless its hash is taken. -/
def Store.add (M : Store) (h d : Bytes) : Store := { M with blobs := M.blobs.add h d }

/-- A handle with a batch: `M0` is committed, `M` what the batch has made of it, with `b` bytes. -/
def InBatch (S : Setting) (p : Nat) (i : Impl) (w : World) (M0 M : Store) (b : Nat) : Prop :=
  ∃ g ino t, Batch S p i w g ino t ∧ w.store S.ext = M0 ∧
    storeOf S.ext (w.fs.data ino) t = M ∧ i.batchBytes = b

/-- The setting lets a process add blobs. -/
def Setting.Grows (S : Setting) : Prop :=
  ∀ M M' : Store, (∀ k d, M.blobs k = some d → M'.blobs k = some d) → S.Kg M M'

/-- A batch stays as it is whatever the other processes do. -/
theorem stable_inBatch {b : Nat} : S.Stable p fun w => InBatch S p i w M0 M b := by
  rintro w w' hI hI' hR ⟨g, ino, t, hb, h0, hM, hbytes⟩
  obtain ⟨hb', hd, hs⟩ := stable_batch_data w w' hI hI' hR ⟨hb, rfl, h0⟩
  exact ⟨g, ino, t, hb', hs, by rw [hd]; exact hM, hbytes⟩

/-- The batch extends the committed store. -/
theorem Batch.le_store (h : Batch S p i w g ino t) (hS : S.sound) (k d : Bytes)
    (hk : (w.store S.ext).blobs k = some d) :
    (storeOf S.ext (w.fs.data ino) t).blobs k = some d := by
  rw [World.store, h.pack] at hk
  obtain ⟨v, hv, hc⟩ := Option.bind_eq_some_iff.1 hk
  exact Option.bind_eq_some_iff.2 ⟨v, h.grow hS k v hv, hc⟩

/-- A batch that has just begun has no blobs of its own. -/
theorem Begun.inBatch (h : Begun S p i w g ino) :
    InBatch S p i w (w.store S.ext) (w.store S.ext) 0 :=
  ⟨g, ino, _, h.batch, rfl, h.content, h.bytes⟩

/-- A handle at rest that has only looked is still at rest. -/
theorem AtRest.steady (hI : Inv S p w) (hI' : Inv S p w') (h : AtRest S p i w M)
    (hst : Steady S p i w i' w') : AtRest S p i' w' M := by
  have h' := stable_atRest w w' hI hI' hst.rely h
  exact ⟨hst.idle hI h.idle, h'.store, h'.unlocked⟩

/-- A batch in which the process has only looked. -/
theorem InBatch.steady {b : Nat} (hI : Inv S p w) (hI' : Inv S p w') (h : InBatch S p i w M0 M b)
    (hst : Steady S p i w i' w') : InBatch S p i' w' M0 M b := by
  obtain ⟨g, ino, t, hb, h0, hM, hbytes⟩ := h
  obtain ⟨_, hd, hs⟩ := stable_batch_data w w' hI hI' hst.rely ⟨hb, rfl, h0⟩
  refine ⟨g, ino, t, hst.batch hI hb, hs, ?_, hst.same.batchBytes.trans hbytes⟩
  rw [hd]
  exact hM

/-! ## Writing the blob -/

/-- A write to the pack of a batch behind its end leaves the batch as it is. -/
theorem Batch.write {off : Nat} {d : Bytes} (h : Batch S p i w g ino t) (hoff : i.end_ ≤ off)
    (hle : off ≤ (w.fs.data ino).length) :
    Batch S p i (w.setFs (w.fs.setData ino (splice (w.fs.data ino) off d))) g ino t := by
  have hdata : (w.setFs (w.fs.setData ino (splice (w.fs.data ino) off d))).fs.data ino =
      splice (w.fs.data ino) off d := if_pos rfl
  have htake : ∀ n, n ≤ off → (splice (w.fs.data ino) off d).take n = (w.fs.data ino).take n :=
    fun n hn => take_splice d hn hle
  refine { h with handle := ?_, len := ?_, committed := fun hs => ?_, pending := fun hs => ?_ }
  · exact h.handle.congr rfl (fun _ _ _ h => h) (Nat.le_refl _)
  · rw [hdata, length_splice d hle]
    have hlen := h.len
    omega
  · rw [hdata]
    exact (h.committed hs).congr (htake _ (h.le.trans hoff))
  · rw [hdata]
    exact (h.pending hs).congr (htake _ hoff)

/-- The batch after `done` was written behind its end; `file` is the pack before. -/
structure Written (S : Setting) (p : Nat) (i : Impl) (w : World) (g ino : Nat) (t : Db)
    (file : Bytes) (M0 : Store) (done : Bytes) : Prop where
  batch : Batch S p i w g ino t
  store : w.store S.ext = M0
  take : (w.fs.data ino).take i.end_ = file.take i.end_
  len : i.end_ + done.length ≤ (w.fs.data ino).length
  slice : slice (w.fs.data ino) i.end_ done.length = done

/-- Nobody else writes behind the end of the batch. -/
theorem stable_written {file done : Bytes} :
    S.Stable p fun w => Written S p i w g ino t file M0 done := by
  intro w w' hI hI' hR h
  obtain ⟨hb, hd, hs⟩ := stable_batch_data w w' hI hI' hR ⟨h.batch, rfl, h.store⟩
  exact ⟨hb, hs, by rw [hd]; exact h.take, by rw [hd]; exact h.len, by rw [hd]; exact h.slice⟩

/-- What was written so far, and some of the rest. -/
theorem Written.write {file done d : Bytes} (h : Written S p i w g ino t file M0 done)
    (hst : (w.setFs (w.fs.setData ino
      (splice (w.fs.data ino) (i.end_ + done.length) d))).store S.ext = w.store S.ext) :
    Written S p i (w.setFs (w.fs.setData ino
      (splice (w.fs.data ino) (i.end_ + done.length) d))) g ino t file M0 (done ++ d) := by
  have hdata : (w.setFs (w.fs.setData ino
      (splice (w.fs.data ino) (i.end_ + done.length) d))).fs.data ino =
      splice (w.fs.data ino) (i.end_ + done.length) d := if_pos rfl
  refine ⟨h.batch.write (Nat.le_add_right _ _) h.len, hst.trans h.store, ?_, ?_, ?_⟩
  · rw [hdata, take_splice d (Nat.le_add_right _ _) h.len]
    exact h.take
  · rw [hdata, length_splice d h.len, List.length_append]
    omega
  · rw [hdata, List.length_append, ← slice_append, slice_splice_of_le d (Nat.le_refl _) h.len,
      h.slice, slice_splice_self d h.len]

/-- `pwrite_all` writes everything or fails, and then leaves the batch as it was. -/
theorem safe_pwriteAll_go (hS : S.sound) {file : Bytes} (fuel : Nat) {done rest : Bytes} {off : Nat}
    {w : World} (hfuel : rest.length ≤ fuel) (hoff : off = i.end_ + done.length) (hI : Inv S p w)
    (hw : Written S p i w g ino t file M0 done) :
    Eff.Safe (S.rules p) (fun x i' w' => i' = i ∧ match x with
      | .ok _ => Written S p i w' g ino t file M0 (done ++ rest)
      | .error e => e = .sys "pwrite pack" ∧ Written S p i w' g ino t file M0 [] ∧
          (S.CanPwriteFail ∨ maxOff < i.end_ + (done ++ rest).length))
      (pwriteAll.go ino fuel rest off) i w := by
  induction fuel generalizing done rest off w with
  | zero =>
    have hnil := List.length_eq_zero_iff.1 (Nat.le_zero.1 hfuel)
    subst hnil
    rw [List.append_nil]
    exact safe_pure stable_written hI hw fun w₁ _ h₁ => ⟨rfl, h₁⟩
  | succ fuel ih =>
    rw [pwriteAll.go]
    split
    · next hnil =>
      subst hnil
      rw [List.append_nil]
      exact safe_pure stable_written hI hw fun w₁ _ h₁ => ⟨rfl, h₁⟩
    · next hne =>
      subst hoff
      refine safe_call stable_written hI hw fun w₁ hI₁ h₁ => ?_
      have hb := h₁.batch
      refine step_pwrite hI₁ hb.lock hb.gen hb.name hb.committed
        (hb.le.trans (Nat.le_add_right _ _)) h₁.len hne (fun n hn _ hI₂ hst => ?_) fun e hwhy => ?_
      · have h₂ := h₁.write (d := rest.take (n + 1)) (hst hS)
        have hlen : (rest.take (n + 1)).length = n + 1 := by
          rw [List.length_take]
          omega
        have hcat : done ++ rest = done ++ rest.take (n + 1) ++ rest.drop (n + 1) := by
          rw [List.append_assoc, List.take_append_drop]
        rw [hcat]
        refine ih ?_ ?_ hI₂ h₂
        · rw [List.length_drop]
          omega
        · rw [List.length_append, hlen, Nat.add_assoc]
      · refine safe_throw stable_written hI₁ (⟨hb, h₁.store, h₁.take, ?_, ?_⟩ :
          Written S p i w₁ g ino t file M0 []) fun w₂ _ h₂ => ⟨rfl, rfl, h₂, ?_⟩
        · exact hb.len
        · simp
        · rw [List.length_append, ← Nat.add_assoc]
          exact hwhy

/-! ## `sync` -/

/-- `sync` of a handle at rest. -/
theorem safe_sync_rest (hI : Inv S p w) (h : AtRest S p i w M) :
    Eff.Safe (S.rules p) (fun x i' w' => x = .ok () ∧ i' = i ∧ AtRest S p i w' M) sync i w := by
  refine Eff.Safe.get ?_
  rw [h.idle.wtxn]
  exact safe_pure stable_atRest hI h fun w₁ _ h₁ => ⟨rfl, rfl, h₁⟩

/-- `sync` makes the store of the batch the committed one, if the process may change the store so. -/
theorem safe_sync_batch_of {b : Nat} (hS : S.sound) (hkeep : S.Kg M0 M) (hI : Inv S p w)
    (h : InBatch S p i w M0 M b) :
    Eff.Safe (S.rules p) (fun x i' w' => x = .ok () ∧ i'.thread = i.thread ∧
      AtRest S p i' w' M ∧ (S.calm → w'.pack = w.pack)) sync i w := by
  obtain ⟨g, ino, t, hb, rfl, rfl, rfl⟩ := h
  refine Eff.Safe.get ?_
  rw [hb.wtxn]
  refine (safe_commitBatch hI hb fun _ => hkeep).mono ?_
  rintro (e | u) i' w' _ ⟨ht, h'⟩
  · obtain ⟨_, c, hc, hne⟩ := h'
    exact absurd hc (Setting.not_canFail hS hne)
  · obtain ⟨hid, hst, hcalm, hl⟩ := h'
    refine ⟨rfl, ht, ⟨hid, hst, hl⟩, fun hc => ?_⟩
    obtain ⟨hdb, hfs⟩ := hcalm hc
    have hgen : w'.env.db.gen = .ok g := (congrArg Db.gen hdb).trans hb.tgen
    have hname : w'.fs.ino g = some ino := (congrArg (Fs.ino · g) hfs).trans hb.name
    rw [World.pack_eq hgen hname, hb.pack, hfs]

/-- The batch extends the committed store. -/
theorem InBatch.le_store {b : Nat} (hS : S.sound) (h : InBatch S p i w M0 M b) (k d : Bytes)
    (hk : M0.blobs k = some d) : M.blobs k = some d := by
  obtain ⟨g, ino, t, hb, rfl, rfl, rfl⟩ := h
  exact hb.le_store hS k d hk

/-- `sync` makes the store of the batch the committed one. -/
theorem safe_sync_batch {b : Nat} (hS : S.sound) (hgrow : S.Grows) (hI : Inv S p w)
    (h : InBatch S p i w M0 M b) :
    Eff.Safe (S.rules p) (fun x i' w' => x = .ok () ∧ i'.thread = i.thread ∧
      AtRest S p i' w' M ∧ (S.calm → w'.pack = w.pack)) sync i w :=
  safe_sync_batch_of hS (hgrow _ _ (h.le_store hS)) hI h

/-! ## `put` -/

/-- Adding a blob keeps those that are there. -/
theorem Store.le_add (M : Store) (h d k d' : Bytes) (hk : M.blobs k = some d') :
    (M.add h d).blobs k = some d' := by
  refine (if_neg ?_ : (M.blobs.add h d) k = M.blobs k).trans hk
  rintro ⟨rfl, hn⟩
  rw [hn] at hk
  cases hk

/-- The entry `put` makes for a blob whose stored form was written behind the end of the batch. -/
theorem Batch.insert {data : Bytes} (hS : S.sound) (hI : Inv S p w) (h : Batch S p i w g ino t)
    (hnew : t.blobs.find? (S.ext.blake3 data) = none)
    (hlen : i.end_ + (packBlob S.ext data).length ≤ (w.fs.data ino).length)
    (hslice : slice (w.fs.data ino) i.end_ (packBlob S.ext data).length = packBlob S.ext data) :
    let e : IndexEntry := ⟨i.end_, (packBlob S.ext data).length, data.length⟩
    TableOk S.ext (w.fs.data ino) (e.off + e.len)
        (t.blobs.insert (S.ext.blake3 data) (encodeEntry e)) ∧
      tableMap S.ext (w.fs.data ino) (t.blobs.insert (S.ext.blake3 data) (encodeEntry e)) =
        (tableMap S.ext (w.fs.data ino) t.blobs).add (S.ext.blake3 data) data := by
  intro e
  have hsize := hI.shape.sizes ino
  have hlt : e.off + e.len < 2 ^ 64 := by
    simp only [maxOff] at hsize
    show i.end_ + (packBlob S.ext data).length < 2 ^ 64
    omega
  have hraw : e.rawLen < 2 ^ 64 := by
    show data.length < 2 ^ 64
    by_cases hp : (packBlob S.ext data).length = data.length
    · simp only [maxOff] at hsize
      omega
    · have := length_le_of_packBlob hp
      simp only [lz4MaxInputSize] at this
      omega
  have hr : readStored S.ext e (slice (w.fs.data ino) e.off e.len) = .ok data := by
    rw [show slice (w.fs.data ino) e.off e.len = packBlob S.ext data from hslice]
    exact readStored_packBlob (S.lawful hS) data i.end_
  exact ⟨(h.pending hS).insert (Nat.le_refl _) hlt hraw hr rfl rfl,
    tableMap_insert hnew hlt hraw hr⟩

/-- The index with the entry `put` makes for a blob written at `off`. -/
def putEntry (ext : Ext) (t : Db) (off : Nat) (data : Bytes) : Db :=
  t.setTable (t.blobs.insert (ext.blake3 data)
    (encodeEntry ⟨off, (packBlob ext data).length, data.length⟩)) .blobs

/-- The handle after `put` has added a blob. -/
def Impl.advance (i : Impl) (len : Nat) : Impl :=
  { i with end_ := i.end_ + len, batchBytes := i.batchBytes + len }

/-- The batch with the new entry. -/
theorem Written.inBatch {file data : Bytes} (hS : S.sound) (hI : Inv S p w)
    (h : Written S p i w g ino t file M0 (packBlob S.ext data))
    (hnew : t.blobs.find? (S.ext.blake3 data) = none) :
    InBatch S p (i.advance (packBlob S.ext data).length)
      (w.setWriter (some (p, putEntry S.ext t i.end_ data))) M0
      ((storeOf S.ext (w.fs.data ino) t).add (S.ext.blake3 data) data)
      (i.batchBytes + (packBlob S.ext data).length) := by
  have hb := h.batch
  obtain ⟨hok, hmap⟩ := hb.insert hS hI hnew h.len h.slice
  refine ⟨g, ino, putEntry S.ext t i.end_ data, ?_, h.store,
    congrArg (Store.mk · t.records (t.gen.toOption.getD 0)) hmap, rfl⟩
  exact
    { handle := HandleOk.congr (w := w) (hb.handle.of_mappings rfl rfl) rfl (fun _ _ _ h => h)
        (Nat.le_refl _)
      wtxn := hb.wtxn
      thread := hb.thread
      lock := hb.lock
      txn := World.txn_setWriter_self _ _ _
      cur := hb.cur
      gen := hb.gen
      name := hb.name
      tgen := hb.tgen
      format := hb.format
      tformat := hb.tformat
      le := hb.le.trans (Nat.le_add_right _ _)
      len := h.len
      grow := fun hs k v hk => by
        have hk' := hb.grow hs k v hk
        refine (SortedMap.find?_insert _ _ _ _).trans ((if_neg ?_).trans hk')
        rintro rfl
        rw [hnew] at hk'
        cases hk'
      committed := hb.committed
      pending := fun _ => hok }

/-- The outcome of a `put` that returns: nothing for a hash that is taken, else the blob is in the
batch or, with a batch that has grown large, committed. -/
def Puts (S : Setting) (p : Nat) (M0 M : Store) (b : Nat) (data : Bytes) (i : Impl) (w : World) :
    Prop :=
  if (M.blobs (S.ext.blake3 data)).isSome then InBatch S p i w M0 M b
  else if kAutoSyncBytes ≤ b + (packBlob S.ext data).length then
    AtRest S p i w (M.add (S.ext.blake3 data) data)
  else InBatch S p i w M0 (M.add (S.ext.blake3 data) data) (b + (packBlob S.ext data).length)

/-- What `put` ends in, once it has a batch that ends at `n`: it fails only in a `pwrite`, and only
if the environment lets one fail or the pack becomes larger than an offset can express. -/
def PutEnds (S : Setting) (p : Nat) (M0 M : Store) (b n : Nat) (data : Bytes) (i₀ : Impl)
    (x : Except Err Bytes) (i : Impl) (w : World) : Prop :=
  i.thread = i₀.thread ∧ match x with
  | .ok h => h = S.ext.blake3 data ∧ Puts S p M0 M b data i w
  | .error e => e = .sys "pwrite pack" ∧ M.blobs (S.ext.blake3 data) = none ∧
      InBatch S p i w M0 M b ∧ (S.CanPwriteFail ∨ maxOff < n + (packBlob S.ext data).length)

/-- The store of a batch has exactly the hashes of its index. -/
theorem Batch.store_eq_none (h : Batch S p i w g ino t) (hS : S.sound) {k : Bytes} :
    (storeOf S.ext (w.fs.data ino) t).blobs k = none ↔ t.blobs.find? k = none :=
  (h.pending hS).map_eq_none

/-- The part of `put` behind the lookup, for a new hash. -/
theorem safe_putNew {data : Bytes} (hS : S.sound)
    (hkeep : S.Kg (w.store S.ext)
      ((storeOf S.ext (w.fs.data ino) t).add (S.ext.blake3 data) data))
    (hI : Inv S p w) (hb : Batch S p i w g ino t)
    (hnew : t.blobs.find? (S.ext.blake3 data) = none) :
    Eff.Safe (S.rules p) (PutEnds S p (w.store S.ext) (storeOf S.ext (w.fs.data ino) t)
      i.batchBytes i.end_ data i)
      (do
        let m ← current
        let i ← Eff.get
        pwriteAll m.ino (packBlob S.ext data) i.end_
        perform (.txnPut .blobs (S.ext.blake3 data)
          (encodeEntry ⟨i.end_, (packBlob S.ext data).length, data.length⟩) false) >>=
          mdbCheck "mdb_put"
        Eff.modify fun i =>
          { i with
            end_ := i.end_ + (packBlob S.ext data).length
            batchBytes := i.batchBytes + (packBlob S.ext data).length }
        let i ← Eff.get
        if kAutoSyncBytes ≤ i.batchBytes then
          sync
          pure (S.ext.blake3 data)
        else pure (S.ext.blake3 data)) i w := by
  have hnone : (storeOf S.ext (w.fs.data ino) t).blobs (S.ext.blake3 data) = none :=
    (hb.store_eq_none hS).2 hnew
  -- the store of the batch, whatever was written behind its end
  have hsame : ∀ {w' : World}, (w'.fs.data ino).take i.end_ = (w.fs.data ino).take i.end_ →
      storeOf S.ext (w'.fs.data ino) t = storeOf S.ext (w.fs.data ino) t := fun htake => by
    rw [storeOf, storeOf, tableMap_congr (hb.pending hS) htake]
  refine safe_current hb.cur (Eff.Safe.get ?_)
  have hw : Written S p i w g ino t (w.fs.data ino) (w.store S.ext) [] :=
    ⟨hb, rfl, rfl, hb.len, by simp⟩
  refine safe_seq hI (safe_pwriteAll_go hS _ (Nat.le_refl _) rfl hI hw) ?_ ?_
  · rintro _ i₁ w₁ hI₁ ⟨rfl, h₁⟩
    refine safe_txnPut (.inr hnew) stable_written hI₁ h₁ h₁.batch.txn
      (fun w₂ hI₂ h₂ _ hI₃ => ?_) fun hf => absurd hf (Setting.not_canFail hS (by simp))
    rw [List.nil_append] at h₂
    have hin := h₂.inBatch hS hI₂ hnew
    rw [hsame h₂.take] at hin
    refine Eff.Safe.modify (Eff.Safe.get ?_)
    split
    · next hauto =>
      refine safe_seq hI₃ (safe_sync_batch_of hS hkeep hI₃ hin) ?_ ?_
      · rintro _ i₂ w₄ hI₄ ⟨_, ht, hr⟩
        refine safe_pure stable_atRest hI₄ hr.1 fun w₅ _ h₅ => ⟨ht, rfl, ?_⟩
        rw [Puts, hnone, if_neg (by simp), if_pos hauto]
        exact h₅
      · rintro e i₂ w₄ _ ⟨h, _⟩
        cases h
    · next hauto =>
      refine safe_pure stable_inBatch hI₃ hin fun w₄ _ h₄ => ⟨rfl, rfl, ?_⟩
      rw [Puts, hnone, if_neg (by simp), if_neg hauto]
      exact h₄
  · rintro e i₁ w₁ _ ⟨rfl, rfl, h₁, hwhy⟩
    exact ⟨rfl, rfl, hnone, ⟨g, ino, t, h₁.batch, h₁.store, hsame h₁.take, rfl⟩, hwhy⟩

/-- `put` from the lookup on, in a batch. -/
theorem safe_putLookup {data : Bytes} {b : Nat} (hS : S.sound)
    (hkeep : S.Kg M0 (M.add (S.ext.blake3 data) data)) (hI : Inv S p w)
    (h : InBatch S p i w M0 M b) :
    Eff.Safe (S.rules p) (PutEnds S p M0 M b i.end_ data i)
      (do
        let r ← lookup (S.ext.blake3 data) false
        match r.2 with
        | some _ => pure (S.ext.blake3 data)
        | none =>
          let m ← current
          let i ← Eff.get
          pwriteAll m.ino (packBlob S.ext data) i.end_
          perform (.txnPut .blobs (S.ext.blake3 data)
            (encodeEntry ⟨i.end_, (packBlob S.ext data).length, data.length⟩) false) >>=
            mdbCheck "mdb_put"
          Eff.modify fun i =>
            { i with
              end_ := i.end_ + (packBlob S.ext data).length
              batchBytes := i.batchBytes + (packBlob S.ext data).length }
          let i ← Eff.get
          if kAutoSyncBytes ≤ i.batchBytes then
            sync
            pure (S.ext.blake3 data)
          else pure (S.ext.blake3 data)) i w := by
  obtain ⟨g, ino, t, hb, rfl, rfl, rfl⟩ := h
  have hlen := (S.lawful hS).length_blake3 data
  have hlook : lookupIn t (S.ext.blake3 data) false =
      (t.entry (S.ext.blake3 data)).map fun e => (0, e) := by
    rw [lookupIn, if_neg (not_not.2 hlen)]
    rfl
  refine safe_seq hI (safe_lookup hI (.inr ⟨g, ino, t, hb⟩)) ?_ ?_
  · rintro ⟨gen, en⟩ i₁ w₁ hI₁ ⟨rfl, hR, db, file, hs, hx | ⟨_, e, he⟩⟩
    · obtain ⟨rfl, rfl⟩ := hs.eq_batch hb
      obtain ⟨hb₁, hd₁, hs₁⟩ := stable_batch_data w w₁ hI hI₁ hR ⟨hb, rfl, rfl⟩
      rw [hlook] at hx
      cases he : db.entry (S.ext.blake3 data) with
      | error e => rw [he] at hx; cases hx
      | ok o =>
        rw [he] at hx
        cases hx
        cases en with
        | none =>
          rw [← hs₁, ← hd₁] at hkeep ⊢
          exact safe_putNew hS hkeep hI₁ hb₁ (Db.find_eq_none he)
        | some e =>
          obtain ⟨v, hv, _⟩ := Db.entry_eq_some he
          have hsome : ((storeOf S.ext (w.fs.data ino) db).blobs (S.ext.blake3 data)).isSome := by
            rw [Option.isSome_iff_ne_none, Ne, hb.store_eq_none hS, hv]
            simp
          refine safe_pure stable_batch_data hI₁ ⟨hb₁, hd₁, hs₁⟩ fun w₂ _ h₂ => ⟨rfl, rfl, ?_⟩
          rw [Puts, if_pos hsome]
          exact ⟨g, ino, db, h₂.1, h₂.2.2, by rw [h₂.2.1], rfl⟩
    · cases he
  · rintro e i₁ w₁ _ ⟨rfl, hR, db, file, hs, hx | ⟨hrel, _⟩⟩
    · obtain ⟨rfl, rfl⟩ := hs.eq_batch hb
      -- every entry of the batch decodes
      rw [hlook, Db.entry] at hx
      cases hv : db.blobs.find? (S.ext.blake3 data) with
      | none => rw [hv] at hx; cases hx
      | some v =>
        obtain ⟨e', _, hd, _⟩ := (hb.pending hS).entry _ _ hv
        rw [hv] at hx
        simp only [hd] at hx
        cases hx
    · exact absurd (Setting.reliable_of_sound hS) hrel

/-- `put` in a batch, if the process may commit the batch with the blob. -/
theorem safe_put_batch_of {data : Bytes} {b : Nat} (hS : S.sound)
    (hkeep : S.Kg M0 (M.add (S.ext.blake3 data) data)) (hI : Inv S p w)
    (h : InBatch S p i w M0 M b) :
    Eff.Safe (S.rules p) (PutEnds S p M0 M b i.end_ data i) (put S.ext data) i w := by
  have hlook : Eff.Safe (S.rules p) (PutEnds S p M0 M b i.end_ data i) _ i w :=
    safe_putLookup hS hkeep hI h
  obtain ⟨g, ino, t, hb, _⟩ := h
  refine Eff.Safe.get ?_
  rw [hb.batchTxn, hb.wtxn]
  exact hlook

/-- `put` in a batch. -/
theorem safe_put_batch {data : Bytes} {b : Nat} (hS : S.sound) (hgrow : S.Grows) (hI : Inv S p w)
    (h : InBatch S p i w M0 M b) :
    Eff.Safe (S.rules p) (PutEnds S p M0 M b i.end_ data i) (put S.ext data) i w :=
  safe_put_batch_of hS
    (hgrow _ _ fun k d hk => M.le_add _ data k d (h.le_store hS k d hk)) hI h

/-- `put` of a handle at rest begins a batch on the store it finds, if the process may commit that
store with the blob; only a time-out of the lock stops it. -/
theorem safe_put_rest_of {data : Bytes} (hS : S.sound)
    (hkeep : ∀ M₁, S.Kr M M₁ → S.Kg M₁ (M₁.add (S.ext.blake3 data) data)) (hI : Inv S p w)
    (h : AtRest S p i w M) :
    Eff.Safe (S.rules p) (fun x i' w' =>
      (∃ M₁ n, S.Kr M M₁ ∧ (S.calm → n = w.pack.length) ∧
        PutEnds S p M₁ M₁ 0 n data i x i' w') ∨
      (¬S.calm ∧ i'.thread = i.thread ∧ (∃ e, x = .error e) ∧ AtRest S p i' w' M))
      (put S.ext data) i w := by
  refine Eff.Safe.get ?_
  rw [h.idle.wtxn]
  refine safe_seq hI (safe_beginBatch hS hI h) ?_ ?_
  · rintro _ i₁ w₁ hI₁ ⟨ht, g, ino, hb, hM₁, hn⟩
    refine (safe_putLookup hS (hkeep _ hM₁) hI₁ hb.inBatch).mono
      fun x i' w' _ h' => .inl ⟨_, _, hM₁, hn, ?_⟩
    exact ⟨h'.1.trans ht, h'.2⟩
  · rintro e i₁ w₁ _ ⟨ht, hc, hr⟩
    exact .inr ⟨hc, ht, ⟨e, rfl⟩, hr⟩

/-- `put` of a handle at rest. -/
theorem safe_put_rest {data : Bytes} (hS : S.sound) (hgrow : S.Grows) (hI : Inv S p w)
    (h : AtRest S p i w M) :
    Eff.Safe (S.rules p) (fun x i' w' =>
      (∃ M₁ n, S.Kr M M₁ ∧ (S.calm → n = w.pack.length) ∧
        PutEnds S p M₁ M₁ 0 n data i x i' w') ∨
      (¬S.calm ∧ i'.thread = i.thread ∧ (∃ e, x = .error e) ∧ AtRest S p i' w' M))
      (put S.ext data) i w :=
  safe_put_rest_of hS (fun M₁ _ => hgrow _ _ (M₁.le_add _ data)) hI h

end Tarmac.PackCas
