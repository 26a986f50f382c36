import Tarmac.PackCas.Atomic
import Tarmac.PackCas.Own

/-!
# A batch whose commit fails

A handle is consistent if it is in a batch, with its transaction open and the writer lock held, or in
none, with neither. Every operation keeps it so, and uses no transaction that has ended, as long as no
commit of a batch goes wrong behind the `fdatasync` of the pack (`batches_consistent`). There
`commit_batch` leaves the handle inconsistent: `mdb_txn_commit` ends the transaction even where it
fails, but the handle keeps it; and where `mdb_env_sync` fails behind the commit, the lock stays
(`run_commitBatch`).
-/

namespace Tarmac.PackCas

variable {α β : Type} {ext : Ext} {p : Nat} {i i' : Impl} {o o' : Own} {t : Db} {what : String}
  {Q : Except Err α → Impl → Own → Prop}

/-! ## Consistent handles -/

/-- The handle is in a batch with the working copy `t`. -/
structure Batching (t : Db) (i : Impl) (o : Own) : Prop where
  wtxn : i.wtxn = true
  cur : i.cur.isSome
  own : o = ⟨some t, true⟩

/-- The handle is in no batch and has no transaction; `locked` says whether it holds the lock. -/
structure Unbatched (locked : Bool) (i : Impl) (o : Own) : Prop where
  wtxn : i.wtxn = false
  led : i.Led
  own : o = ⟨none, locked⟩

/-- The handle is in no batch. -/
abbrev Resting : Impl → Own → Prop := Unbatched false

/-- The handle is in no batch but has a transaction for itself. -/
structure Working (locked : Bool) (i : Impl) (o : Own) : Prop where
  wtxn : i.wtxn = false
  led : i.Led
  own : ∃ t, o = ⟨some t, locked⟩

/-- The handle is in a batch or in none. -/
def Consistent (i : Impl) (o : Own) : Prop := (∃ t, Batching t i o) ∨ Resting i o

/-- A batch the handle is in has its transaction. -/
def HasTxn (i : Impl) (o : Own) : Prop := i.wtxn = true → ∃ t, o.txn = some t

/-- A consistent handle has its transaction when it needs one. -/
theorem Consistent.backed (h : Consistent i o) : HasTxn i o := by
  intro hw
  rcases h with ⟨t, h⟩ | h
  · exact ⟨t, by rw [h.own]⟩
  · rw [h.wtxn] at hw
    cases hw

/-- A batch does not depend on the mappings. -/
theorem Batching.alike (h : Batching t i o) (ha : i.Alike i') : Batching t i' o :=
  ⟨ha.wtxn.trans h.wtxn, ha.cur h.cur, h.own⟩

theorem Unbatched.alike {b : Bool} (h : Unbatched b i o) (ha : i.Alike i') : Unbatched b i' o :=
  ⟨ha.wtxn.trans h.wtxn, ha.led h.led, h.own⟩

/-- A handle with a transaction for itself does not depend on the mappings. -/
theorem Working.alike {b : Bool} (h : Working b i o) (ha : i.Alike i') : Working b i' o :=
  ⟨ha.wtxn.trans h.wtxn, ha.led h.led, h.own⟩

theorem Consistent.alike (h : Consistent i o) (ha : i.Alike i') : Consistent i' o :=
  h.imp (fun ⟨t, h⟩ => ⟨t, h.alike ha⟩) (·.alike ha)

/-! ## Reading -/

/-- A call that touches neither transactions nor the lock. -/
theorem owns_neutral_ask {c : Call} {k : c.Resp → CasM β} {g : β → CasM α} (hc : c.neutral)
    (h : ∀ r, Owns p Q (k r >>= g) i o) : Owns p Q ((perform c >>= k) >>= g) i o := by
  rw [bind_assoc]
  exact .neutral hc h

/-- A read of an index; the error names it. -/
theorem owns_mdbRead {g : Unit → CasM α} (h : Owns p Q (g ()) i o)
    (herr : ∀ {res : Errno}, Q (.error (.lmdb what res)) i o) :
    Owns p Q ((perform .mdbRead >>= mdbCheck what) >>= g) i o :=
  owns_neutral_ask rfl fun _ => owns_mdbCheck (fun _ _ => h) fun _ _ => herr

theorem owns_last {m : CasM α} (h : Owns p Q (m >>= pure) i o) : Owns p Q m i o := by
  rwa [bind_pure] at h

theorem owns_ofExcept {x : Except Err β} {g : β → CasM α} (hok : ∀ b, Owns p Q (g b) i o)
    (herr : ∀ e, Q (.error e) i o) : Owns p Q (Eff.ofExcept x >>= g) i o := by
  cases x with
  | ok b => exact hok b
  | error e => exact .throw fun _ => herr e

/-- Reading the tables, within the batch or without. -/
theorem owns_readTxn (hb : HasTxn i o) {g : Db → CasM α} (h : ∀ db, Owns p Q (g db) i o)
    (herr : ∀ what {res : Errno}, Q (.error (.lmdb what res)) i o) : Owns p Q (readTxn >>= g) i o := by
  rw [readTxn, bind_assoc]
  refine .get ?_
  split
  · next hbatch =>
    obtain ⟨t, ht⟩ := hb (Bool.and_eq_true_iff.1 hbatch).1
    exact owns_txnDb ht (h t)
  · exact owns_neutral_ask rfl fun _ => owns_mdbCheck (fun db _ => h db) fun _ _ => herr _

/-- Reading the generation from them. -/
theorem owns_readGen {db : Db} {g : Nat → CasM α} (h : ∀ n, Owns p Q (g n) i o)
    (herr : ∀ e, Q (.error e) i o) : Owns p Q (readGen db >>= g) i o := by
  rw [readGen, bind_assoc]
  exact owns_mdbRead (owns_ofExcept h herr) (herr _)

/-- Looking up an entry. -/
theorem owns_lookup (hb : HasTxn i o) {hash : Bytes} {genOut : Bool}
    {g : Nat × Option IndexEntry → CasM α} (h : ∀ r, Owns p Q (g r) i o)
    (herr : ∀ e, Q (.error e) i o) : Owns p Q (lookup hash genOut >>= g) i o := by
  rw [lookup]
  split
  · exact .throw fun _ => herr _
  · rw [bind_assoc]
    refine owns_readTxn hb (fun db => ?_) fun _ => herr _
    cases genOut with
    | true =>
      rw [if_pos rfl, bind_assoc]
      refine owns_readGen (fun gen => ?_) herr
      rw [bind_assoc]
      refine owns_mdbRead ?_ (herr _)
      split
      · exact h _
      · rw [bind_assoc]
        exact owns_ofExcept (fun e => h _) herr
    | false =>
      rw [if_neg Bool.false_ne_true, pure_bind, bind_assoc]
      refine owns_mdbRead ?_ (herr _)
      split
      · exact h _
      · rw [bind_assoc]
        exact owns_ofExcept (fun e => h _) herr

/-- What reads keep: the handle differs in its mappings at most. -/
abbrev KeepsBatch (o : Own) (i : Impl) : Except Err α → Impl → Own → Prop :=
  fun _ i' o' => i.Alike i' ∧ o' = o

/-- `mapping_for` changes nothing but the mappings, and leaves a current one. -/
theorem owns_mappingFor {g : Nat} {create : Bool} :
    Owns p (fun x i' o' => i.Alike i' ∧ o' = o ∧ (i.Led → ∀ m, x = .ok (some m) → i'.cur.isSome))
      (mappingFor g create) i o :=
  .of_makes (makes_mappingFor rfl (fun _ => rfl) fun _ => rfl) fun _ _ h => ⟨h.1, rfl, h.2⟩

/-- A read before a read. -/
theorem Owns.reads {m : CasM β} {f : β → CasM α} (hm : Owns p (KeepsBatch o i) m i o)
    (hf : ∀ b i', i.Alike i' → Owns p (KeepsBatch o i') (f b) i' o) :
    Owns p (KeepsBatch o i) (m >>= f) i o := by
  refine hm.seq ?_ fun _ _ _ _ h => h
  rintro b i' _ ⟨ha, rfl⟩
  exact (hf b i' ha).mono fun _ _ _ h => ⟨ha.trans h.1, h.2⟩

/-- `locate` leaves the batch alone. -/
theorem owns_locate (hb : HasTxn i o) {hash : Bytes} : Owns p (KeepsBatch o i) (locate hash) i o := by
  have hgo (n : Nat) {i : Impl} (hb : HasTxn i o) : Owns p (KeepsBatch o i) (locate.go hash n) i o := by
    induction n generalizing i with
    | zero => exact .throw fun _ => ⟨.refl i, rfl⟩
    | succ n ih =>
      rw [locate.go]
      refine owns_lookup hb (fun r => ?_) fun _ => ⟨.refl i, rfl⟩
      split
      · exact .pure ⟨.refl i, rfl⟩
      · refine .get (.reads (owns_mappingFor.mono fun _ _ _ h => ⟨h.1, h.2.1⟩) fun m i' ha => ?_)
        split
        · exact .pure ⟨.refl i', rfl⟩
        · exact ih fun hw => hb (ha.wtxn.symm.trans hw)
  exact hgo _ hb

/-- The calls of `Mapping::view`. -/
theorem makes_view {P : Call → Prop} (hstat : ∀ ino, P (.fstat ino))
    (hread : ∀ ino off len, P (.mmapRead ino off len)) {m : Mapping} {off len : Nat} :
    Eff.Makes P (fun _ i' => i.Alike i') (view m off len) i := by
  have hmapped {i : Impl} : Eff.Makes P (fun _ i' => i.Alike i') (view.mapped m off len) i := by
    refine .perform (hread _ _ _) fun r => ?_
    split
    · exact .pure (.refl i)
    · exact .throw (.refl i)
  rw [view]
  split
  · exact .throw (.refl i)
  · refine .get ?_
    split
    · refine .seq (makes_fileSize hstat) ?_ fun e i' h => h ▸ .refl i'
      rintro size _ rfl
      refine .modify ?_
      split
      · exact .throw (.setKnown _ _ _)
      · exact hmapped.mono (fun _ h => h) fun _ _ h => (Impl.Alike.setKnown _ _ _).trans h
    · exact hmapped

/-- The call of a `resize`. -/
theorem makes_resize {P : Call → Prop} (h : ∀ n, P (.alloc n)) {n : Nat} :
    Eff.Makes P (fun _ i' => i' = i) (resize n) i := by
  rw [resize]
  split
  · exact .throw rfl
  · refine .perform (h n) fun r => ?_
    cases r with
    | ok _ => exact .pure rfl
    | error _ => exact .throw rfl

/-- The calls of `pread_all`. -/
theorem makes_preadAll {P : Call → Prop} (h : ∀ ino off len, P (.pread ino off len))
    (halloc : ∀ n, P (.alloc n)) {ino len off : Nat} : Eff.Makes P (fun _ i' => i' = i) (preadAll ino len off) i := by
  have hgo (fuel len off : Nat) (acc : Bytes) :
      Eff.Makes P (fun _ i' => i' = i) (preadAll.go ino fuel len off acc) i := by
    induction fuel generalizing len off acc with
    | zero => exact .pure rfl
    | succ fuel ih =>
      rw [preadAll.go]
      split
      · exact .pure rfl
      · refine .seq (.perform (h _ _ _) fun _ => makes_sysCheck) ?_ fun _ _ h => h
        rintro got _ rfl
        split
        · exact .throw rfl
        · exact ih _ _ _
  refine .seq (makes_resize halloc) ?_ fun _ _ h => h
  rintro _ _ rfl
  exact hgo _ _ _ _

/-- `decompress` leaves the batch alone. -/
theorem owns_decompress {stored : Bytes} {n : Nat} :
    Owns p (KeepsBatch o i) (decompress ext stored n) i o := by
  rw [decompress_eq]
  split
  · exact .throw fun _ => ⟨.refl i, rfl⟩
  · have hmakes : Eff.Makes (fun c : Call => c.neutral) (fun _ i' => i' = i)
        (resize n >>= fun _ => Eff.ofExcept (unpackBlob ext stored n)) i := by
      refine .seq (makes_resize fun _ => rfl) ?_ fun _ _ h => h
      rintro _ _ rfl
      exact .ofExcept rfl
    exact .of_makes hmakes fun _ _ h => ⟨h ▸ .refl _, rfl⟩

theorem owns_get (hb : HasTxn i o) {hash : Bytes} : Owns p (KeepsBatch o i) (get ext hash) i o := by
  refine .reads (owns_locate hb) fun r i₁ _ => ?_
  split
  · exact .pure ⟨.refl i₁, rfl⟩
  · next e m =>
    have hread : Owns p (KeepsBatch o i₁) (preadAll m.ino e.len e.off) i₁ o :=
      .of_makes (makes_preadAll (fun _ _ _ => rfl) fun _ => rfl) fun _ _ h => ⟨h ▸ .refl _, rfl⟩
    refine .reads hread fun stored i₂ _ => ?_
    split
    · exact .reads owns_decompress fun out i₃ _ => .pure ⟨.refl i₃, rfl⟩
    · exact .pure ⟨.refl i₂, rfl⟩

theorem owns_getView (hb : HasTxn i o) {hash : Bytes} :
    Owns p (KeepsBatch o i) (getView ext hash) i o := by
  refine .reads (owns_locate hb) fun r i₁ _ => ?_
  split
  · exact .pure ⟨.refl i₁, rfl⟩
  · next e m =>
    have hread : Owns p (KeepsBatch o i₁) (view m e.off e.len) i₁ o :=
      .of_makes (makes_view (fun _ => rfl) fun _ _ _ => rfl) fun _ _ h => ⟨h, rfl⟩
    refine .reads hread fun stored i₂ _ => ?_
    split
    · exact .reads owns_decompress fun out i₃ _ => .pure ⟨.refl i₃, rfl⟩
    · exact .pure ⟨.refl i₂, rfl⟩

theorem owns_size (hb : HasTxn i o) {hash : Bytes} : Owns p (KeepsBatch o i) (size hash) i o :=
  owns_lookup hb (fun _ => .pure ⟨.refl i, rfl⟩) fun _ => ⟨.refl i, rfl⟩

theorem owns_has (hb : HasTxn i o) {hash : Bytes} : Owns p (KeepsBatch o i) (has hash) i o :=
  owns_lookup hb (fun _ => .pure ⟨.refl i, rfl⟩) fun _ => ⟨.refl i, rfl⟩

/-- The current mapping is there. -/
theorem owns_current {g : Mapping → CasM α} (h : ∀ m, i.cur = some m → Owns p Q (g m) i o) :
    Owns p Q (current >>= g) i o := by
  rw [current, bind_assoc]
  refine .get ?_
  split
  · exact h _ ‹_›
  · exact .throw (by simp [Err.caught])

/-- `pack_size` leaves the batch alone. -/
theorem owns_packSize : Owns p (KeepsBatch o i) packSize i o :=
  owns_current fun _ _ => .of_makes (makes_fileSize fun _ => rfl) fun _ _ h => ⟨h ▸ .refl _, rfl⟩

theorem owns_metaGet (hb : HasTxn i o) {key : Bytes} : Owns p (KeepsBatch o i) (metaGet key) i o :=
  owns_readTxn hb (fun _ => owns_mdbRead (.pure ⟨.refl i, rfl⟩) ⟨.refl i, rfl⟩) fun _ => ⟨.refl i, rfl⟩

theorem owns_metaScan (hb : HasTxn i o) {pre : Bytes} : Owns p (KeepsBatch o i) (metaScan pre) i o :=
  owns_readTxn hb (fun _ => owns_mdbRead (.pure ⟨.refl i, rfl⟩) ⟨.refl i, rfl⟩) fun _ => ⟨.refl i, rfl⟩

/-! ## The writer lock -/

/-- `Q` where the computation returns, `E` where it throws. -/
def Parts (Q E : Impl → Own → Prop) : Except Err α → Impl → Own → Prop
  | .ok _ => Q
  | .error _ => E

/-- One attempt at the lock. -/
theorem owns_flock {g : Bool → CasM α} (hgot : Owns p Q (g true) i { o with holds := true })
    (hnot : Owns p Q (g false) i o) (herr : Q (.error (.sys what)) i o) :
    Owns p Q ((perform .flockTry >>= sysCheck what) >>= g) i o := by
  change Owns p Q (perform .flockTry >>= fun r => sysCheck what r >>= g) i o
  refine owns_flockTry hgot fun r hr => owns_sysCheck (fun got h => ?_) fun _ _ => herr
  cases got with
  | true => exact absurd h hr
  | false => exact hnot

/-- `lock_writer` takes the lock, or nothing. -/
theorem owns_lockWriter :
    Owns p (Parts (fun i' o' => i' = i ∧ o' = { o with holds := true }) fun i' o' => i' = i ∧ o' = o)
      lockWriter i o := by
  have hgo (n : Nat) : Owns p (Parts (fun i' o' => i' = i ∧ o' = { o with holds := true })
      fun i' o' => i' = i ∧ o' = o) (lockWriter.go n) i o := by
    induction n with
    | zero => exact owns_flock (.pure ⟨rfl, rfl⟩) (.throw fun _ => ⟨rfl, rfl⟩) ⟨rfl, rfl⟩
    | succ n ih => exact owns_flock (.pure ⟨rfl, rfl⟩) ih ⟨rfl, rfl⟩
  exact hgo _

/-- The handle holds the lock; it may have a transaction. -/
structure Beginning (i : Impl) (o : Own) : Prop where
  led : i.Led
  holds : o.holds = true
  txn : (∃ t, i.wtxn = true ∧ o.txn = some t) ∨ i.wtxn = false ∧ o.txn = none

/-- The beginning of a batch does not depend on the mappings. -/
theorem Beginning.alike (h : Beginning i o) (ha : i.Alike i') : Beginning i' o :=
  ⟨ha.led h.led, h.holds, ha.wtxn ▸ h.txn⟩

/-- `map_create` leaves a current mapping. -/
theorem owns_mapCreate {g : Nat} :
    Owns p (Parts (fun i' o' => i.Alike i' ∧ o' = o ∧ (i.Led → i'.cur.isSome))
      fun i' o' => i.Alike i' ∧ o' = o) (mapCreate g) i o := by
  rw [mapCreate]
  refine owns_mappingFor.seq (fun r i' o' h => ?_) fun e i' o' _ h => ⟨h.1, h.2.1⟩
  obtain ⟨ha, rfl, hcur⟩ := h
  split
  · next m => exact .pure ⟨ha, rfl, fun hled => hcur hled m rfl⟩
  · exact .throw nofun

/-- `begin_batch` begins a batch, or leaves the handle without one. -/
theorem owns_beginBatch (h : Resting i o) :
    Owns p (Parts (fun i' o' => ∃ t, Batching t i' o') Resting) beginBatch i o := by
  rw [beginBatch]
  refine owns_lockWriter.seq ?_ ?_
  · rintro _ i₀ _ ⟨rfl, rfl⟩
    rw [h.own]
    have hnone : Beginning i₀ ⟨none, true⟩ := ⟨h.led, rfl, .inr ⟨h.wtxn, rfl⟩⟩
    refine .catchAll (T := Parts (fun i' o' => ∃ t, Batching t i' o') Beginning) ?_
      (fun _ _ _ h => h) fun e i' o' _ hb => ?_
    · refine owns_txnBegin (fun t _ => ?_) hnone
      have hsome : Beginning { i₀ with wtxn := true, writerThread := i₀.thread }
          ⟨some t, true⟩ :=
        ⟨h.led, rfl, .inl ⟨t, rfl, rfl⟩⟩
      refine .modify (owns_txnDb rfl (owns_readGen (fun gen => ?_) fun _ => hsome))
      refine owns_mapCreate.seq ?_ ?_
      · rintro m i₁ _ ⟨ha, rfl, hcur⟩
        have hbatch : Batching t i₁ ⟨some t, true⟩ := ⟨ha.wtxn, hcur h.led, rfl⟩
        refine (Owns.of_makes (makes_fileSize fun _ => rfl) (T := fun _ i' => i' = i₁)
          (Q := fun _ i' o' => i' = i₁ ∧ o' = ⟨some t, true⟩) fun _ _ h => ⟨h, rfl⟩).seq ?_ ?_
        · rintro size _ _ ⟨rfl, rfl⟩
          exact .modify (.pure ⟨t, hbatch.wtxn, hbatch.cur, rfl⟩)
        · rintro e _ _ _ ⟨rfl, rfl⟩
          exact hsome.alike ha
      · rintro e i₁ _ _ ⟨ha, rfl⟩
        exact hsome.alike ha
    · refine .get ?_
      obtain ⟨hled, hholds, ⟨t, hw, ht⟩ | ⟨hw, ht⟩⟩ := hb
      · rw [if_pos hw]
        exact owns_txnAbort ht (.modify (owns_flockUn (.throw fun _ => ⟨rfl, hled, rfl⟩)))
      · rw [if_neg (by simp [hw])]
        refine owns_flockUn (.throw fun _ => ⟨hw, hled, ?_⟩)
        rw [ht]
  · rintro e _ _ _ ⟨rfl, rfl⟩
    exact h

/-! ## The end of a batch -/

/-- `abort_batch` ends the batch, and cannot throw. -/
theorem owns_abortBatch (h : Batching t i o) :
    Owns p (Parts Resting fun _ _ => False) abortBatch i o := by
  obtain ⟨hw, hcur, rfl⟩ := h
  rw [abortBatch]
  refine owns_txnAbort rfl (.modify (owns_current fun m _ => .get (.neutral rfl fun cut => ?_)))
  refine .modify (.modify (owns_last (owns_flockUn (.pure ?_))))
  cases (cut : Bool) <;> exact ⟨rfl, fun _ => hcur, rfl⟩

/-- A run that begins with a call whose answer is checked. -/
theorem among_ask {c : Call} {k : c.Resp → CasM β} {g : β → CasM α} {w w' : World}
    {tr : List (Tarmac.Event sig)} {x : Except Err α} (hw : w.own p = o)
    (h : Prog.Run (among p) (((perform c >>= k) >>= g) i) w tr (x, i') w') :
    ∃ r w₀ ch w₁ tr', w₀.own p = o ∧ exec p ch c w₀ = some (r, w₁) ∧
      Prog.Run (among p) ((k r >>= g) i) w₁ tr' (x, i') w' ∧ tr = ⟨c, r⟩ :: tr' := by
  rw [bind_assoc] at h
  obtain ⟨r, w₁, tr', ⟨w₀, ch, ho, hx⟩, h', htr⟩ := Eff.run_perform h
  exact ⟨r, w₀, ch, w₁, tr', ho.trans hw, hx, h', htr⟩

/-- The four ways in which `commit_batch` ends, begun in a batch with the working copy `t`. -/
inductive CommitEnds (t : Db) (i : Impl) :
    List (Tarmac.Event sig) → Except Err Unit → Impl → Own → Prop where
  | unwritten (ino : Nat) (e : Errno) :
      CommitEnds t i [⟨.fdatasync ino, .error e⟩] (.error (.sys "fdatasync pack")) i ⟨some t, true⟩
  | refused (ino : Nat) (e : Errno) :
      CommitEnds t i [⟨.fdatasync ino, .ok ()⟩, ⟨.txnCommit, .error e⟩]
        (.error (.lmdb "txn_commit" e)) i ⟨none, true⟩
  | unflushed (ino : Nat) (e : Errno) :
      CommitEnds t i [⟨.fdatasync ino, .ok ()⟩, ⟨.txnCommit, .ok ()⟩, ⟨.envSync, .error e⟩]
        (.error (.lmdb "env_sync" e)) { i with wtxn := false } ⟨none, true⟩
  | done (m : Mapping) :
      CommitEnds t i [⟨.fdatasync m.ino, .ok ()⟩, ⟨.txnCommit, .ok ()⟩, ⟨.envSync, .ok ()⟩, ⟨.flockUn, ()⟩]
        (.ok ()) (({ i with wtxn := false, committedEnd := i.end_ } : Impl).setKnown m.gen i.end_)
        ⟨none, false⟩

/-- The current mapping is read from the handle. -/
theorem current_bind {m : Mapping} (hm : i.cur = some m) (g : Mapping → CasM α) :
    (current >>= g) i = g m i := by
  cases i
  dsimp only at hm
  subst hm
  rfl

/-- How `commit_batch` ends, by what its calls were answered. -/
theorem run_commitBatch {w w' : World} {tr : List (Tarmac.Event sig)} {x : Except Err Unit}
    (h : Batching t i (w.own p)) (hrun : Prog.Run (among p) (commitBatch i) w tr (x, i') w') :
    CommitEnds t i tr x i' (w'.own p) := by
  obtain ⟨_, hcur, ho⟩ := h
  obtain ⟨m, hm⟩ := Option.isSome_iff_exists.1 hcur
  rw [commitBatch, current_bind hm] at hrun
  obtain ⟨r₁, wa, ch₁, w₁, tr₁, hoa, hx₁, hrun₁, rfl⟩ := among_ask ho hrun
  have hown₁ : w₁.own p = ⟨some t, true⟩ :=
    (own_neutral (c := .fdatasync m.ino) rfl hx₁).1.trans hoa
  clear hrun
  cases r₁ with
  | error e =>
    cases hrun₁
    exact hown₁ ▸ .unwritten m.ino e
  | ok _ =>
    obtain ⟨r₂, wb, ch₂, w₂, tr₂, hob, hx₂, hrun₂, rfl⟩ := among_ask (c := .txnCommit) hown₁ hrun₁
    clear hrun₁
    have hown₂ : w₂.own p = ⟨none, true⟩ ∧ (r₂ = .error ch₂.mdbErrno ∨ r₂ = .ok ()) := by
      rw [exec, (own_eq hob).1] at hx₂
      dsimp only at hx₂
      split at hx₂
      · cases hx₂
        exact ⟨own_setWriter_none hob, .inl rfl⟩
      · cases hx₂
        exact ⟨own_commit (t := t) hob, .inr rfl⟩
    obtain ⟨hown₂, rfl | rfl⟩ := hown₂
    · rw [mdbCheck_error ch₂.mdbErrno_ne] at hrun₂
      cases hrun₂
      exact hown₂ ▸ .refused m.ino _
    · obtain ⟨r₃, wc, ch₃, w₃, tr₃, hoc, hx₃, hrun₃, rfl⟩ :=
        among_ask (c := .envSync) (i := { i with wtxn := false }) hown₂ hrun₂
      clear hrun₂
      have hown₃ : w₃.own p = ⟨none, true⟩ := (own_neutral (c := .envSync) rfl hx₃).1.trans hoc
      rw [exec, Choice.mdbGuard] at hx₃
      split at hx₃
      · cases hx₃
        rw [mdbCheck_error ch₃.mdbErrno_ne] at hrun₃
        cases hrun₃
        exact hown₃ ▸ .unflushed m.ino _
      · cases hx₃
        rw [← bind_pure unlockWriter] at hrun₃
        obtain ⟨r₄, w₄, tr₄, ⟨wd, ch₄, hod, hx₄⟩, hrun₄, rfl⟩ := Eff.run_perform hrun₃
        cases hrun₄
        cases hx₄
        have hown₄ : World.own (wd.unlock p) p = ⟨none, false⟩ := own_unlock (hod.trans hown₃)
        exact hown₄ ▸ .done m

/-- The handle stays in the batch if `fdatasync` fails, and the batch ends if everything succeeds. -/
theorem CommitEnds.parts {tr : List (Tarmac.Event sig)} {x : Except Err Unit}
    (hx : CommitEnds t i tr x i' o') (h : Batching t i o) (hn : ¬Botched tr) :
    Unended tr ∧ Parts Resting (fun i' o' => i' = i ∧ o' = o) x i' o' := by
  cases hx with
  | unwritten ino e => exact ⟨by simp [Unended, ended], rfl, h.own.symm⟩
  | refused ino e => exact absurd ⟨ino, e, .inl (List.infix_refl _)⟩ hn
  | unflushed ino e => exact absurd ⟨ino, e, .inr (List.infix_refl _)⟩ hn
  | done m => exact ⟨by simp [Unended, ended], rfl, fun _ => h.cur, rfl⟩

/-- When no commit goes wrong, `commit_batch` ends the batch or leaves it as it was. -/
theorem owns_commitBatch (h : Batching t i o) :
    Owns p (Parts Resting fun i' o' => i' = i ∧ o' = o) commitBatch i o := by
  rintro w rfl tr x i' w' hrun hn
  obtain ⟨hv, hQ⟩ := (run_commitBatch h hrun).parts h hn
  exact ⟨hv, fun _ => hQ⟩

theorem owns_sync (h : Consistent i o) :
    Owns p (Parts Resting fun i' o' => (i.wtxn = true) ∧ i' = i ∧ o' = o) sync i o := by
  refine .get ?_
  rcases h with ⟨t, h⟩ | h
  · rw [if_pos h.wtxn]
    refine (owns_commitBatch h).mono fun x i' o' hx => ?_
    cases x with
    | ok _ => exact hx
    | error _ => exact ⟨h.wtxn, hx⟩
  · rw [if_neg (by simp [h.wtxn])]
    exact .pure h

/-! ## `put` -/

/-- The calls of `pwrite_all`. -/
theorem makes_pwriteAll {P : Call → Prop} (h : ∀ ino off d, P (.pwrite ino off d)) {ino off : Nat}
    {d : Bytes} : Eff.Makes P (fun _ i' => i' = i) (pwriteAll ino d off) i := by
  have hgo (fuel : Nat) (d : Bytes) (off : Nat) :
      Eff.Makes P (fun _ i' => i' = i) (pwriteAll.go ino fuel d off) i := by
    induction fuel generalizing d off with
    | zero => exact .pure rfl
    | succ fuel ih =>
      rw [pwriteAll.go]
      split
      · exact .pure rfl
      · refine .seq (.perform (h _ _ _) fun _ => makes_sysCheck) ?_ fun _ _ h => h
        rintro _ _ rfl
        exact ih _ _
  exact hgo _ _ _

/-- The handle is in the batch as it was. -/
structure Stays (t : Db) (i i' : Impl) (o' : Own) : Prop extends Batching t i' o' where
  end_ : i'.end_ = i.end_
  committedEnd : i'.committedEnd = i.committedEnd

/-- A batch stays what it is. -/
theorem Batching.stays (h : Batching t i o) : Stays t i i o := ⟨h, rfl, rfl⟩

/-- What a `put` that throws leaves of a batch: the batch as it was, or with the new blob. -/
def PutKeeps (ext : Ext) (data : Bytes) (t : Db) (i i' : Impl) (o' : Own) : Prop :=
  Stays t i i' o' ∨ Stays (putEntry ext t i.end_ data) (i.advance (packBlob ext data).length) i' o'

/-- A put leaves the handle consistent. -/
theorem PutKeeps.consistent {data : Bytes} (h : PutKeeps ext data t i i' o') : Consistent i' o' :=
  .inl (h.elim (fun h => ⟨_, h.toBatching⟩) fun h => ⟨_, h.toBatching⟩)

/-- The part of `put` that looks for the hash and adds the blob. -/
theorem owns_putLookup {data : Bytes} (h : Batching t i o) :
    Owns p (Parts Consistent (PutKeeps ext data t i)) (do
      let r ← lookup (ext.blake3 data) false
      match r.2 with
      | some _ => pure (ext.blake3 data)
      | none =>
        let stored := packBlob ext data
        let m ← current
        let i ← Eff.get
        pwriteAll m.ino stored i.end_
        perform (.txnPut .blobs (ext.blake3 data)
          (encodeEntry ⟨i.end_, stored.length, data.length⟩) false) >>= mdbCheck "mdb_put"
        Eff.modify fun i =>
          { i with end_ := i.end_ + stored.length, batchBytes := i.batchBytes + stored.length }
        let i ← Eff.get
        if kAutoSyncBytes ≤ i.batchBytes then
          sync
          pure (ext.blake3 data)
        else pure (ext.blake3 data)) i o := by
  have hsame : PutKeeps ext data t i i o := .inl h.stays
  refine owns_lookup (Consistent.backed (.inl ⟨t, h⟩)) (fun r => ?_) fun _ => hsame
  split
  · exact .pure (.inl ⟨t, h⟩)
  · refine owns_current fun m _ => .get ?_
    refine (Owns.of_makes (makes_pwriteAll fun _ _ _ => rfl)
      (Q := fun _ i' o' => i' = i ∧ o' = o) fun _ _ h => ⟨h, rfl⟩).seq ?_ ?_
    · rintro _ i _ ⟨rfl, rfl⟩
      refine owns_txnPut (by rw [h.own]) (.modify (.get ?_)) hsame
      have hnew : Batching (putEntry ext t i.end_ data) (i.advance (packBlob ext data).length)
          ⟨some (putEntry ext t i.end_ data), true⟩ := ⟨h.wtxn, h.cur, rfl⟩
      rw [h.own]
      split
      · refine (owns_sync (.inl ⟨_, hnew⟩)).seq (fun _ i' o' hr => .pure (.inr hr)) ?_
        rintro e _ _ _ ⟨_, rfl, rfl⟩
        exact .inr hnew.stays
      · exact .pure (.inl ⟨_, hnew⟩)
    · rintro e _ _ _ ⟨rfl, rfl⟩
      exact hsame

/-- A put within a batch. -/
theorem owns_put_batch {data : Bytes} (h : Batching t i o) :
    Owns p (Parts Consistent (PutKeeps ext data t i)) (put ext data) i o := by
  refine .get ?_
  split
  · exact .throw fun _ => .inl h.stays
  · rw [if_pos h.wtxn]
    exact owns_putLookup h

/-- A put with or without one. -/
theorem owns_put {data : Bytes} (h : Consistent i o) :
    Owns p (fun _ => Consistent) (put ext data) i o := by
  rcases h with ⟨t, h⟩ | h
  · refine (owns_put_batch h).mono fun x i' o' hx => ?_
    cases x with
    | ok _ => exact hx
    | error _ => exact hx.consistent
  · refine .get ?_
    rw [if_neg (by simp [h.wtxn]), if_neg (by simp [h.wtxn])]
    refine (owns_beginBatch h).seq ?_ fun e i' o' _ hr => .inr hr
    rintro _ i' o' ⟨t, hb⟩
    refine (owns_putLookup hb).mono fun x i'' o'' hx => ?_
    cases x with
    | ok _ => exact hx
    | error _ => exact hx.consistent

/-! ## Transactions of an operation -/

/-- The scope of a transaction ends it when it is left by an exception. -/
theorem owns_txnScope {m : CasM α} {b : Bool} (hm : Owns p (fun _ => Working b) m i o) :
    Owns p (Parts (Working b) (Unbatched b)) (txnScope m) i o := by
  refine .catchAll hm (fun _ _ _ h => h) fun e i' o' _ h => ?_
  obtain ⟨t, rfl⟩ := h.own
  exact owns_txnAbort rfl (.throw fun _ => ⟨h.wtxn, h.led, rfl⟩)

/-- A transaction is begun where the process has none. -/
theorem owns_txnBegin_working {b : Bool} (h : Unbatched b i o) {g : Unit → CasM α}
    (hok : ∀ o', Working b i o' → Owns p Q (g ()) i o') (herr : ∀ {res : Errno}, Q (.error (.lmdb what res)) i o) :
    Owns p Q ((perform .txnBegin >>= mdbCheck what) >>= g) i o := by
  refine owns_txnBegin (fun t _ => ?_) herr
  rw [h.own]
  exact hok _ ⟨h.wtxn, h.led, t, rfl⟩

/-- A transaction of an operation is committed. -/
theorem owns_txnCommit_working {b : Bool} (h : Working b i o) {g : Unit → CasM α}
    (hok : ∀ o', Unbatched b i o' → Owns p Q (g ()) i o')
    (herr : ∀ {res : Errno} o', Unbatched b i o' → Q (.error (.lmdb what res)) i o') :
    Owns p Q ((perform .txnCommit >>= mdbCheck what) >>= g) i o := by
  obtain ⟨t, rfl⟩ := h.own
  exact owns_txnCommit rfl (hok _ ⟨h.wtxn, h.led, rfl⟩) (herr _ ⟨h.wtxn, h.led, rfl⟩)

/-- A change of the working copy, in a transaction of an operation. -/
theorem owns_txnPut_working {b : Bool} (h : Working b i o) {dbi : Dbi} {key val : Bytes}
    {overwrite : Bool} {g : Unit → CasM α} (hok : ∀ o', Working b i o' → Owns p Q (g ()) i o')
    (herr : ∀ {res : Errno}, Q (.error (.lmdb what res)) i o) :
    Owns p Q ((perform (.txnPut dbi key val overwrite) >>= mdbCheck what) >>= g) i o := by
  obtain ⟨t, rfl⟩ := h.own
  exact owns_txnPut rfl (hok _ ⟨h.wtxn, h.led, _, rfl⟩) herr

/-- A `WriteTxn` around one operation: what the operation keeps in a batch of this thread and in a
transaction of its own, it keeps. -/
theorem owns_writeTxn {op : CasM Unit} (h : Consistent i o)
    (hbatch : ∀ t, Batching t i o →
      Owns p (Parts Consistent fun i' o' => i' = i ∧ o' = o) op i o)
    (hown : ∀ o', Working false i o' → Owns p (fun _ => Working false) op i o') :
    Owns p (Parts Consistent fun i' o' => i' = i ∧ o' = o ∨ Resting i' o') (writeTxn op) i o := by
  refine .get ?_
  rcases h with ⟨t, h⟩ | h
  · split
    · refine (hbatch t h).mono fun x i' o' hx => ?_
      cases x with
      | ok _ => exact hx
      | error _ => exact .inl hx
    · refine owns_txnBegin (fun _ hnone => ?_) (.inl ⟨rfl, rfl⟩)
      rw [h.own] at hnone
      cases hnone
  · rw [if_neg (by simp [Impl.batchTxn, h.wtxn])]
    refine owns_txnBegin_working h (fun o' hw => ?_) (.inl ⟨rfl, rfl⟩)
    refine (owns_txnScope (hown o' hw)).seq (fun _ i' o' hw' => ?_) fun e i' o' _ hr => .inr hr
    exact owns_last (owns_txnCommit_working hw' (fun _ hr => .pure (.inr hr)) fun _ hr => .inr hr)

/-- `meta_put`, within a batch or in a transaction of its own. -/
theorem owns_metaPut {key val : Bytes} (h : Consistent i o) :
    Owns p (Parts Consistent fun i' o' => i' = i ∧ o' = o ∨ Resting i' o') (metaPut key val) i o := by
  refine owns_writeTxn h (fun t hb => ?_) fun o' hw => ?_
  · obtain ⟨hw, hcur, rfl⟩ := hb
    exact owns_last (owns_txnPut rfl (.pure (.inl ⟨_, hw, hcur, rfl⟩)) ⟨rfl, rfl⟩)
  · exact owns_last (owns_txnPut_working hw (fun _ hw' => .pure hw') hw)

/-- `meta_del` likewise. -/
theorem owns_metaDel {key : Bytes} (h : Consistent i o) :
    Owns p (Parts Consistent fun i' o' => i' = i ∧ o' = o ∨ Resting i' o') (metaDel key) i o := by
  refine owns_writeTxn h (fun t hb => ?_) fun o' hw => ?_
  · obtain ⟨hw, hcur, rfl⟩ := hb
    exact owns_last (owns_txnDel rfl (.pure (.inl ⟨_, hw, hcur, rfl⟩)) ⟨rfl, rfl⟩)
  · obtain ⟨t, rfl⟩ := hw.own
    exact owns_last (owns_txnDel rfl (.pure ⟨hw.wtxn, hw.led, _, rfl⟩) hw)

/-! ## `compact` -/

/-- The calls of `write_all`. -/
theorem makes_writeAll {P : Call → Prop} (h : ∀ ino pos d, P (.write ino pos d)) {ino pos : Nat}
    {d : Bytes} : Eff.Makes P (fun _ i' => i' = i) (writeAll ino d pos) i := by
  have hgo (fuel : Nat) (d : Bytes) (pos : Nat) :
      Eff.Makes P (fun _ i' => i' = i) (writeAll.go ino fuel d pos) i := by
    induction fuel generalizing d pos with
    | zero => exact .pure rfl
    | succ fuel ih =>
      rw [writeAll.go]
      split
      · exact .pure rfl
      · refine .seq (.perform (h _ _ _) fun _ => makes_sysCheck) ?_ fun _ _ h => h
        rintro _ _ rfl
        exact ih _ _
  exact hgo _ _ _

/-- The loop of `compact` leaves the transaction and the lock alone. -/
theorem owns_compactLoop {b : Bool} {live : Bytes → Except Err Bool} {m : Mapping} {newIno : Nat}
    (rest : List (Bytes × Bytes)) (s : Sweep) (h : Working b i o) :
    Owns p (fun _ => Working b) (compactLoop live m newIno rest s) i o := by
  induction rest generalizing i o s with
  | nil => exact owns_mdbRead (.pure h) h
  | cons r rest ih =>
    refine owns_mdbRead (owns_ofExcept (fun e => owns_ofExcept (fun keep => ?_) fun _ => h) fun _ => h) h
    cases keep with
    | false => exact ih s h
    | true =>
      refine (Owns.of_makes (makes_view (fun _ => rfl) fun _ _ _ => rfl)
        (Q := fun _ i' o' => Working b i' o') fun _ _ ha => h.alike ha).seq ?_ fun e i' o' _ hw => hw
      intro bytes i₁ o₁ h₁
      dsimp only
      split
      · refine (Owns.of_makes (makes_writeAll fun _ _ _ => rfl)
          (Q := fun _ i' o' => Working b i' o') fun _ _ h => h ▸ h₁).seq ?_ fun e i' o' _ hw => hw
        intro pos i₂ o₂ h₂
        exact ih _ h₂
      · exact ih _ h₁

/-- So does the new index, but for the tables. -/
theorem owns_putKept {b : Bool} (keep : List (Bytes × IndexEntry)) (h : Working b i o) :
    Owns p (fun _ => Working b) (putKept keep) i o := by
  induction keep generalizing o with
  | nil => exact .pure h
  | cons r keep ih => exact owns_txnPut_working h (fun _ hw => ih hw) h

/-- A computation in a transaction of an operation, and the rest in it. -/
theorem Owns.working {b : Bool} {m : CasM β} {f : β → CasM α}
    (hm : Owns p (fun _ => Working b) m i o)
    (hf : ∀ a i' o', Working b i' o' → Owns p (fun _ => Working b) (f a) i' o') :
    Owns p (fun _ => Working b) (m >>= f) i o :=
  hm.seq hf fun _ _ _ _ h => h

/-- So does the opening of the new pack. -/
theorem owns_compactOpen {b : Bool} (h : Working b i o) :
    Owns p (fun _ => Working b) compactOpen i o := by
  obtain ⟨t, ht⟩ := h.own
  refine owns_txnDb (by rw [ht]) (owns_readGen (fun gen => ?_) fun _ => h)
  refine .working (owns_mapCreate.mono fun x i' o' hx => ?_) fun m i₁ o₁ h₁ => ?_
  · cases x with
    | ok _ => exact hx.2.1 ▸ h.alike hx.1
    | error _ => exact hx.2 ▸ h.alike hx.1
  · refine .working (.of_makes (makes_fileSize fun _ => rfl) fun _ _ h => h ▸ h₁) fun n i₂ o₂ h₂ => ?_
    refine .modify (.neutral rfl fun r => ?_)
    split
    · exact .pure ⟨h₂.wtxn, h₂.led, h₂.own⟩
    · exact .throw fun _ => ⟨h₂.wtxn, h₂.led, h₂.own⟩

theorem owns_compactCopy {b : Bool} {live : Bytes → Except Err Bool} {gen newIno : Nat} {m : Mapping}
    (h : Working b i o) : Owns p (fun _ => Working b) (compactCopy live gen m newIno) i o := by
  obtain ⟨t, ht⟩ := h.own
  refine owns_mdbRead (owns_txnDb (by rw [ht]) ?_) h
  refine .working (owns_compactLoop _ _ h) fun s i₁ o₁ h₁ => ?_
  refine .working (.of_makes (makes_writeAll fun _ _ _ => rfl) fun _ _ h => h ▸ h₁) fun _ i₂ o₂ h₂ => ?_
  refine owns_neutral_ask rfl fun _ => owns_sysCheck (fun _ _ => ?_) fun _ _ => h₂
  obtain ⟨t₂, rfl⟩ := h₂.own
  have h₃ : Working b i₂ ⟨some { t₂ with blobs := .empty }, b⟩ := ⟨h₂.wtxn, h₂.led, _, rfl⟩
  refine owns_txnDropBlobs rfl (.working (owns_putKept _ h₃) fun _ i₄ o₄ h₄ => ?_) h₂
  exact .working (owns_last (owns_txnPut_working h₄ (fun _ h => .pure h) h₄)) fun _ _ _ h => .pure h

/-- The switch commits or aborts the transaction and keeps the lock. -/
theorem owns_compactSwitch {live : Bytes → Except Err Bool} {gen newIno : Nat} {m : Mapping}
    (h : Working true i o) : Owns p (fun _ => Unbatched true) (compactSwitch live gen m newIno) i o := by
  rw [compactSwitch, guardNewPack]
  refine .catchAll (T := fun _ => Unbatched true) ?_ (fun _ _ _ h => h) fun e i' o' _ h => ?_
  · refine (owns_txnScope (owns_compactCopy h)).seq (fun n i₁ o₁ h₁ => ?_) fun e i' o' _ h => h
    refine owns_txnCommit_working h₁ (fun o₂ h₂ => ?_) fun _ h => h
    exact owns_neutral_ask rfl fun _ => owns_mdbCheck (fun _ _ => .pure h₂) fun _ _ => h₂
  · exact .neutral rfl fun _ => .neutral rfl fun _ => .throw fun _ => h

/-- The end of `compact` releases the lock. -/
theorem owns_compactEnd {gen newIno newOff : Nat} (h : Unbatched true i o) :
    Owns p (Parts Resting (Unbatched true)) (compactEnd gen newIno newOff) i o := by
  refine .neutral rfl fun _ => .neutral rfl fun _ => ?_
  refine owns_mappingFor.seq ?_ ?_
  · rintro _ i' _ ⟨ha, rfl, _⟩
    have h' := h.alike ha
    rw [h'.own]
    exact .modify (owns_last (owns_flockUn (.pure ⟨h'.wtxn, h'.led, rfl⟩)))
  · rintro e i' _ _ ⟨ha, rfl, _⟩
    exact h.alike ha

/-- Behind the `sync`, `compact` leaves the handle at rest however it ends. -/
theorem owns_compactLocking {live : Bytes → Except Err Bool} (h : Resting i o) :
    Owns p (fun _ => Resting) (compactLocking live) i o := by
  refine owns_lockWriter.seq ?_ ?_
  · rintro _ i₁ _ ⟨rfl, rfl⟩
    have hlock : Unbatched true i₁ ⟨none, true⟩ := ⟨h.wtxn, h.led, rfl⟩
    rw [h.own]
    refine .catchAll (T := Parts Resting (Unbatched true)) ?_ (fun _ _ _ h => h) fun e i' o' _ h => ?_
    · refine owns_txnBegin_working hlock (fun o₂ h₂ => ?_) hlock
      refine (owns_txnScope (owns_compactOpen h₂)).seq (fun r i₃ o₃ h₃ => ?_) fun e i' o' _ h => h
      refine (owns_compactSwitch h₃).seq (fun n i₄ o₄ h₄ => ?_) fun e i' o' _ h => h
      exact owns_compactEnd h₄
    · rw [h.own]
      exact owns_flockUn (.throw fun _ => ⟨h.wtxn, h.led, rfl⟩)
  · rintro e _ _ _ ⟨rfl, rfl⟩
    exact h

/-- A `compact` ends at rest, or in its first `sync`. -/
theorem owns_compact {live : Bytes → Except Err Bool} (h : Consistent i o) :
    Owns p (Parts Resting fun i' o' => i.wtxn = true ∧ i' = i ∧ o' = o ∨ Resting i' o')
      (compact live) i o := by
  refine (owns_sync h).seq (fun _ i' o' hr => ?_) fun e i' o' _ hx => .inl hx
  refine (owns_compactLocking hr).mono fun x i'' o'' hx => ?_
  cases x with
  | ok _ => exact hx
  | error _ => exact .inr hx

end Tarmac.PackCas
