import Tarmac.PackCas.Put

/-!
# The records

The meta table holds the records that other code keeps in the directory, beside two of `PackCas`'s own
(`Own`). `meta_put` and `meta_del` edit them, in the open batch of the handle or in a transaction of
their own (`safe_writeTxn_batch`, `safe_writeTxn_rest`); `meta_get` and `meta_scan` read them in the
tables the process sees (`safe_metaGet`, `safe_metaScan`).
-/

namespace Tarmac.PackCas

variable {S : Setting} {p : Nat} {w w' : World} {i i' : Impl} {t : Db} {M M0 : Store}
  {key val pre : Bytes}

/-! ## The records of a store -/

namespace Store

/-- Binds a record. -/
def putRecord (s : Store) (key val : Bytes) : Store :=
  { s with records := s.records.insert key val }

/-- Removes a record. -/
def delRecord (s : Store) (key : Bytes) : Store := { s with records := s.records.erase key }

/-- The records whose keys begin with `pre`, in order. -/
def scan (s : Store) (pre : Bytes) : List (Bytes × Bytes) :=
  (s.records.fromKey pre).takeWhile fun r => pre.isPrefixOf r.1

end Store

/-- In a sorted list the pairs with a prefix come together. -/
theorem takeWhile_prefix {pre : Bytes} {l : List (Bytes × Bytes)}
    (hl : l.Pairwise fun a b => a.1 < b.1) (h : ∀ r ∈ l, ¬r.1 < pre) :
    (l.takeWhile fun r => pre.isPrefixOf r.1) = l.filter fun r => pre.isPrefixOf r.1 := by
  induction l with
  | nil => rfl
  | cons r l ih =>
    obtain ⟨hr, hl⟩ := List.pairwise_cons.1 hl
    rw [List.takeWhile_cons, List.filter_cons]
    split
    · rw [ih hl fun r hr => h r (.tail _ hr)]
    · next hp =>
      refine (List.filter_eq_nil_iff.2 fun r' hr' hp' => hp ?_).symm
      rw [List.isPrefixOf_iff_prefix] at hp' ⊢
      exact prefix_of_between hp' (h r (.head _)) (hr r' hr')

/-- A cursor that is set to a prefix and moved while it stays in it finds the keys that have it. -/
theorem takeWhile_fromKey (m : SortedMap Bytes Bytes) (pre : Bytes) :
    ((m.fromKey pre).takeWhile fun r => pre.isPrefixOf r.1) =
      m.toList.filter fun r => pre.isPrefixOf r.1 := by
  unfold SortedMap.fromKey
  have hsorted := m.sorted
  generalize m.toList = l at hsorted ⊢
  induction l with
  | nil => rfl
  | cons r l ih =>
    obtain ⟨hr, hl⟩ := List.pairwise_cons.1 hsorted
    rw [List.dropWhile_cons]
    split
    · next hlt =>
      have hno : ¬pre.isPrefixOf r.1 := fun hp =>
        not_lt_of_prefix (List.isPrefixOf_iff_prefix.1 hp) (by simpa using hlt)
      rw [ih hl, List.filter_cons, if_neg hno]
    · next hlt =>
      refine takeWhile_prefix hsorted fun r' hr' => ?_
      have hge : ¬r.1 < pre := by simpa using hlt
      rcases List.mem_cons.1 hr' with rfl | hr'
      · exact hge
      · exact fun h => hge (lt_trans (hr r' hr') h)

/-- A scan finds the records whose keys have the prefix. -/
theorem Store.scan_eq (s : Store) (pre : Bytes) :
    s.scan pre = s.records.toList.filter fun r => pre.isPrefixOf r.1 :=
  takeWhile_fromKey s.records pre

/-- A scan finds the records with the prefix. -/
theorem Store.mem_scan {s : Store} :
    (key, val) ∈ s.scan pre ↔ s.records.find? key = some val ∧ pre <+: key := by
  rw [scan_eq, List.mem_filter, SortedMap.mem_toList, List.isPrefixOf_iff_prefix]

/-! ## The records in the meta table -/

/-- The keys `PackCas` keeps for itself. -/
def Reserved (key : Bytes) : Prop := key = genKey ∨ key = formatKey

/-- The other keys are those of records. -/
theorem decide_of_not_reserved (h : ¬Reserved key) :
    decide (key ≠ genKey ∧ key ≠ formatKey) = true := by
  simpa [Reserved, not_or] using h

/-- A record of other code is one of the meta table. -/
theorem Db.find?_records {db : Db} (h : ¬Reserved key) :
    db.records.find? key = db.metaTable.find? key := by
  rw [Db.records, SortedMap.find?_filter]
  cases db.metaTable.find? key with
  | none => rfl
  | some v => rw [Option.filter_some, decide_of_not_reserved h, if_pos rfl]

/-- A scan of the meta table that meets none of the keys of `PackCas` is one of the records. -/
theorem Db.scan_records {db : Db} (h : ∀ key, Reserved key → ¬pre <+: key) :
    ((db.metaTable.fromKey pre).takeWhile fun r => pre.isPrefixOf r.1) =
      (db.records.fromKey pre).takeWhile fun r => pre.isPrefixOf r.1 := by
  rw [takeWhile_fromKey, takeWhile_fromKey, Db.records, SortedMap.filter, List.filter_filter]
  refine List.filter_congr fun r _ => ?_
  cases hr : pre.isPrefixOf r.1 with
  | false => rfl
  | true =>
    have hkeep := decide_of_not_reserved fun hres => h r.1 hres (List.isPrefixOf_iff_prefix.1 hr)
    rw [hkeep]
    rfl

/-- How an operation of a `WriteTxn` edits the records: `f` the tables, `F` the records in them. -/
structure Edits (f : Db → Db) (F : SortedMap Bytes Bytes → SortedMap Bytes Bytes) : Prop where
  gen : ∀ t, (f t).gen = t.gen
  blobs : ∀ t, (f t).blobs = t.blobs
  format : ∀ t, t.Formatted → (f t).Formatted
  records : ∀ t, (f t).records = F t.records

/-- The store changes in its records. -/
theorem Edits.store {f : Db → Db} {F : SortedMap Bytes Bytes → SortedMap Bytes Bytes} (h : Edits f F)
    (ext : Ext) (file : Bytes) (t : Db) :
    storeOf ext file (f t) = { storeOf ext file t with records := F (storeOf ext file t).records } := by
  rw [storeOf, storeOf, h.gen, h.blobs, h.records]

/-- `meta_put` binds a record. -/
theorem edits_put (h : ¬Reserved key) :
    Edits (fun t => t.setTable ((t.table .metaTable).insert key val) .metaTable)
      (·.insert key val) where
  gen t := by
    rw [Db.gen, Db.gen, Db.setTable, Db.table,
      SortedMap.find?_insert_of_ne fun heq => h (.inl heq)]
  blobs _ := rfl
  format t ht := (SortedMap.find?_insert_of_ne fun heq => h (.inr heq)).trans ht
  records t := by
    refine SortedMap.ext_find? fun k => ?_
    rw [Db.records, Db.records, SortedMap.find?_filter, SortedMap.find?_insert, SortedMap.find?_filter,
      Db.setTable, Db.table, SortedMap.find?_insert]
    split
    · next hk =>
      subst hk
      rw [Option.filter_some, decide_of_not_reserved h, if_pos rfl]
    · rfl

/-- `meta_del` removes a record. -/
theorem edits_del (h : ¬Reserved key) :
    Edits (fun t => t.setTable ((t.table .metaTable).erase key) .metaTable) (·.erase key) where
  gen t := by
    rw [Db.gen, Db.gen, Db.setTable, Db.table, SortedMap.find?_erase_of_ne fun heq => h (.inl heq)]
  blobs _ := rfl
  format t ht := (SortedMap.find?_erase_of_ne fun heq => h (.inr heq)).trans ht
  records t := by
    refine SortedMap.ext_find? fun k => ?_
    rw [Db.records, Db.records, SortedMap.find?_filter, SortedMap.find?_erase, SortedMap.find?_filter,
      Db.setTable, Db.table, SortedMap.find?_erase]
    split
    · rfl
    · rfl

/-! ## Editing -/

/-- The records of a store are edited. -/
def Store.edit (s : Store) (F : SortedMap Bytes Bytes → SortedMap Bytes Bytes) : Store :=
  { s with records := F s.records }

/-- The operation of a `WriteTxn` edits the working copy by `f`. -/
def EditsBy (S : Setting) (p : Nat) (op : CasM Unit) (f : Db → Db) : Prop :=
  ∀ (P : World → Prop) (Q : Except Err Unit → Impl → World → Prop) (i : Impl) (w : World) (t : Db),
    S.Stable p P → Inv S p w → P w → w.txn p = some t →
    (∀ w₁, Inv S p w₁ → P w₁ → Inv S p (w₁.setWriter (some (p, f t))) →
      Eff.Safe (S.rules p) Q (pure ()) i (w₁.setWriter (some (p, f t)))) →
    Eff.Safe (S.rules p) Q op i w

/-- The operation of `meta_put`. -/
theorem editsBy_put (hS : S.sound) {what : String} :
    EditsBy S p (perform (.txnPut .metaTable key val true) >>= mdbCheck what)
      fun t => t.setTable ((t.table .metaTable).insert key val) .metaTable := by
  intro P Q i w t hP hI hw ht h
  have hput : Eff.Safe (S.rules p) Q
      ((perform (.txnPut .metaTable key val true) >>= mdbCheck what) >>= pure) i w :=
    safe_txnPut (.inl rfl) hP hI hw ht (fun w₁ hI₁ h₁ _ => h w₁ hI₁ h₁)
      fun hf => absurd hf (Setting.not_canFail hS (by simp))
  rwa [bind_pure] at hput

/-- The operation of `meta_del`. -/
theorem editsBy_del (hS : S.sound) {what : String} :
    EditsBy S p (perform (.txnDel .metaTable key) >>= mdbCheck what)
      fun t => t.setTable ((t.table .metaTable).erase key) .metaTable := by
  intro P Q i w t hP hI hw ht h
  have hdel : Eff.Safe (S.rules p) Q
      ((perform (.txnDel .metaTable key) >>= mdbCheck what) >>= pure) i w := by
    refine safe_onTxn (f := fun t => .ok (t.setTable ((t.table .metaTable).erase key) .metaTable)) id
      (fun _ _ => rfl) (by simp) rfl rfl (fun _ => rfl) hP hI hw ht (fun w₁ hI₁ h₁ _ => h w₁ hI₁ h₁) ?_
    exact fun hf => absurd hf (Setting.not_canFail hS (by simp))
  rwa [bind_pure] at hdel

section

variable {op : CasM Unit} {f : Db → Db} {F : SortedMap Bytes Bytes → SortedMap Bytes Bytes}

/-- The batch with edited records. -/
theorem Batch.edit {g ino : Nat} (hf : Edits f F) (h : Batch S p i w g ino t) :
    Batch S p i (w.setWriter (some (p, f t))) g ino (f t) where
  handle := h.handle.congr rfl (fun _ _ _ h => h) (Nat.le_refl _)
  wtxn := h.wtxn
  thread := h.thread
  lock := h.lock
  txn := World.txn_setWriter_self _ _ _
  cur := h.cur
  gen := h.gen
  name := h.name
  tgen := (hf.gen t).trans h.tgen
  format := h.format
  tformat := hf.format t h.tformat
  le := h.le
  len := h.len
  grow := by
    rw [hf.blobs]
    exact h.grow
  committed := h.committed
  pending := by
    rw [hf.blobs]
    exact h.pending

/-- A `WriteTxn` joins the open batch. -/
theorem safe_writeTxn_batch {b : Nat} (hf : Edits f F) (hop : EditsBy S p op f) (hI : Inv S p w)
    (h : InBatch S p i w M0 M b) :
    Eff.Safe (S.rules p) (fun x i' w' => x = .ok () ∧ i' = i ∧ InBatch S p i w' M0 (M.edit F) b)
      (writeTxn op) i w := by
  obtain ⟨g, ino, t, hb, h0, hM, hbytes⟩ := h
  refine Eff.Safe.get ?_
  rw [if_pos hb.batchTxn]
  refine hop _ _ i w t stable_batch_data hI ⟨hb, rfl, h0⟩ hb.txn fun w₁ hI₁ h₁ hI₂ => ?_
  obtain ⟨hb₁, hdata, hst⟩ := h₁
  have hin : InBatch S p i (w₁.setWriter (some (p, f t))) M0 (M.edit F) b := by
    refine ⟨g, ino, f t, hb₁.edit hf, hst, ?_, hbytes⟩
    rw [hf.store, ← hM, ← hdata]
    rfl
  exact safe_pure stable_inBatch hI₂ hin fun w₃ _ h₃ => ⟨rfl, rfl, h₃⟩

/-- A handle in a transaction of its own, over the tables `db`, with the working copy `t`. -/
structure Editing (S : Setting) (p : Nat) (i : Impl) (w : World) (M : Store) (db t : Db) : Prop where
  handle : HandleOk i w
  format : db.Formatted
  unlocked : w.env.lock ≠ some p
  store : S.Kr M (w.store S.ext)
  txn : w.txn p = some t
  wdb : w.env.db = db

/-- Nobody else touches the tables meanwhile. -/
theorem stable_editing {db : Db} : S.Stable p fun w => Editing S p i w M db t :=
  fun w w' hI hI' hR h =>
    have hdb := stable_db w w' hI hI' hR ⟨h.txn, h.wdb⟩
    ⟨h.handle.rely hI hR, h.format, fun hl => h.unlocked (hR.lock.1 hl), S.Kr_trans h.store hR.store,
      hdb.1, hdb.2⟩

/-- The working copy does not matter until the commit. -/
theorem Editing.setWriter {db t' : Db} (h : Editing S p i w M db t) :
    Editing S p i (w.setWriter (some (p, t'))) M db t' :=
  ⟨h.handle.congr rfl (fun _ _ _ h => h) (Nat.le_refl _), h.format, h.unlocked, h.store,
    World.txn_setWriter_self _ _ _, h.wdb⟩

/-- The store after the commit. -/
theorem Editing.store_commit {db : Db} (hf : Edits f F) (h : Editing S p i w M db (f db)) :
    (w.commit (f db)).store S.ext = (w.store S.ext).edit F := by
  have hgen : (f db).gen = w.env.db.gen := by rw [hf.gen, h.wdb]
  rw [World.store, World.pack_commit hgen, World.store, h.wdb, Store.edit, ← hf.store]
  rfl

/-- The edited tables may be committed. -/
theorem Editing.commitOk {db : Db} (hf : Edits f F) (hkeep : ∀ M', S.Kr M M' → S.Kg M' (M'.edit F))
    (hI : Inv S p w) (h : Editing S p i w M db (f db)) : CommitOk S p w (f db) := by
  refine .of_blobs hI (by rw [hf.gen, h.wdb]) (by rw [hf.blobs, h.wdb]) (hf.format db h.format)
    fun _ => ?_
  rw [h.store_commit hf]
  exact hkeep _ h.store

/-- They leave the handle at rest. -/
theorem Editing.atRest {db : Db} (hf : Edits f F) (hw : i.wtxn = false)
    (h : Editing S p i w M db (f db)) :
    AtRest S p i (w.commit (f db)) ((w.store S.ext).edit F) where
  idle := by
    have hgen : (w.commit (f db)).env.db.gen = w.env.db.gen := (hf.gen db).trans (by rw [h.wdb])
    exact ⟨h.handle.congr hgen (fun _ _ _ h => h) (Nat.le_refl _), hw, rfl, hf.format db h.format⟩
  store := by
    rw [h.store_commit hf]
    exact S.Kr_refl _
  unlocked := h.unlocked

/-- A `WriteTxn` of a handle at rest is a transaction of its own. -/
theorem safe_writeTxn_rest (hS : S.sound) (hf : Edits f F) (hop : EditsBy S p op f)
    (hkeep : ∀ M', S.Kr M M' → S.Kg M' (M'.edit F)) (hI : Inv S p w) (h : AtRest S p i w M) :
    Eff.Safe (S.rules p) (fun x i' w' => x = .ok () ∧ i' = i ∧
      ∃ M', S.Kr M M' ∧ AtRest S p i w' (M'.edit F)) (writeTxn op) i w := by
  have hno : ∀ {c}, (∀ i off d, c ≠ Call.pwrite i off d) → ¬S.CanFail c := Setting.not_canFail hS
  refine Eff.Safe.get ?_
  rw [if_neg (by simp [Impl.batchTxn, h.idle.wtxn])]
  refine safe_txnBegin stable_atRest hI h h.idle.txn (fun w₁ hI₁ h₁ _ hI₂ => ?_)
    fun hfail => absurd hfail (hno (by simp))
  have hbegun : Editing S p i (w₁.setWriter (some (p, w₁.env.db))) M w₁.env.db w₁.env.db :=
    ⟨h₁.idle.handle.congr rfl (fun _ _ _ h => h) (Nat.le_refl _), h₁.idle.format, h₁.unlocked, h₁.store,
      World.txn_setWriter_self _ _ _, rfl⟩
  have hedit : Eff.Safe (S.rules p) (fun x i' w' => x = .ok () ∧ i' = i ∧
      Editing S p i w' M w₁.env.db (f w₁.env.db)) (txnScope op) i
      (w₁.setWriter (some (p, w₁.env.db))) := by
    refine safe_catchAll (P := fun x i' w' => x = .ok () ∧ i' = i ∧
      Editing S p i w' M w₁.env.db (f w₁.env.db)) hI₂ ?_ (fun _ _ _ _ h => h)
      (fun _ _ _ _ _ h => by cases h.1) fun _ _ _ _ _ h => by cases h.1
    refine hop _ _ i _ _ stable_editing hI₂ hbegun hbegun.txn fun w₂ _ h₂ hI₃ => ?_
    exact safe_pure stable_editing hI₃ h₂.setWriter fun w₃ _ h₃ => ⟨rfl, rfl, h₃⟩
  refine safe_seq hI₂ hedit ?_ fun _ _ _ _ h => by cases h.1
  rintro _ i w₂ hI₃ ⟨-, rfl, h₂⟩
  have hcommit : Eff.Safe (S.rules p) (fun x i' w' => x = .ok () ∧ i' = i ∧
      ∃ M', S.Kr M M' ∧ AtRest S p i w' (M'.edit F))
      ((perform .txnCommit >>= mdbCheck "txn_commit") >>= pure) i w₂ := by
    refine safe_txnCommit stable_editing hI₃ h₂ h₂.txn (fun w₃ hI₄ h₃ => h₃.commitOk hf hkeep hI₄)
      (fun w₃ _ h₃ _ hI₅ => ?_) fun hfail => absurd hfail (hno (by simp))
    exact safe_pure stable_atRest hI₅ (h₃.atRest hf h.idle.wtxn) fun w₄ _ h₄ =>
      ⟨rfl, rfl, _, h₃.store, h₄⟩
  rwa [bind_pure] at hcommit

end

/-! ## Reading -/

/-- What an operation that only reads the tables ends in: `f` of those the process sees. -/
def Inspects {α : Type} (S : Setting) (p : Nat) (i : Impl) (w : World) (f : Db → α)
    (x : Except Err α) (i' : Impl) (w' : World) : Prop :=
  i' = i ∧ Rely S p w w' ∧ (S.Reliable → ∃ db file, Sees S p i w w' db file ∧ x = .ok (f db))

/-- A read of the tables. -/
theorem safe_inspect {α : Type} {f : Db → α} {what : String} (hI : Inv S p w) (ho : Ready S p i w) :
    Eff.Safe (S.rules p) (Inspects S p i w f)
      (do
        let db ← readTxn
        perform .mdbRead >>= mdbCheck what
        pure (f db)) i w := by
  refine safe_readTxn hI ho (fun db file w₁ hI₁ h₁ => ?_)
    fun hrel w₁ _ hR => ⟨rfl, hR, fun h => absurd h hrel⟩
  refine safe_mdbRead ((stable_rely hI).and stable_sees) hI₁ h₁ (fun w₂ hI₂ h₂ => ?_)
    fun hf w₂ _ h₂ => ⟨rfl, h₂.1, fun h => (h.elim (by simp) hf).elim⟩
  exact safe_pure ((stable_rely hI).and stable_sees) hI₂ h₂ fun w₃ _ h₃ =>
    ⟨rfl, h₃.1, fun _ => ⟨db, file, h₃.2, rfl⟩⟩

/-- `meta_get` looks a record up. -/
theorem safe_metaGet (hI : Inv S p w) (ho : Ready S p i w) :
    Eff.Safe (S.rules p) (Inspects S p i w fun db => db.metaTable.find? key) (metaGet key) i w :=
  safe_inspect hI ho

/-- `meta_scan` lists the records with a prefix. -/
theorem safe_metaScan (hI : Inv S p w) (ho : Ready S p i w) :
    Eff.Safe (S.rules p) (Inspects S p i w fun db =>
      (db.metaTable.fromKey pre).takeWhile fun r => pre.isPrefixOf r.1) (metaScan pre) i w :=
  safe_inspect hI ho

end Tarmac.PackCas
