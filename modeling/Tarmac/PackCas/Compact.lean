import Tarmac.PackCas.Put
import Tarmac.PackCas.Sweep

/-!
# `compact`

Inside its transaction `compact` copies the live blobs of the committed pack into the pack of the
next generation and rewrites the index (`Compacting`, `safe_compactCopy`); the commit switches to
both at once. Up to the commit nothing that is committed changes, so an exception leaves the store
as it was; from the commit on the store is the old one restricted to `live`. Nothing here needs the
old index to be sound, except to exclude failures that only a damaged store has (`Blames`).
-/

namespace Tarmac.PackCas

variable {S : Setting} {p : Nat} {w w' : World} {i i' : Impl} {live : Bytes → Except Err Bool}
  {g ino newIno : Nat} {db t : Db} {file out : Bytes}

/-! ## Inside the transaction -/

/-- `compact` in its transaction: `db` are the committed tables, `t` is the working copy. -/
structure InTxn (p : Nat) (i : Impl) (w : World) (g : Nat) (db t : Db) : Prop where
  handle : HandleOk i w
  wtxn : i.wtxn = false
  lock : w.env.lock = some p
  txn : w.txn p = some t
  wdb : w.env.db = db
  gen : db.gen = .ok g
  format : db.Formatted

/-- `compact` with both packs open: `file` is the committed pack, `out` what was written to the new
one. -/
structure Compacting (p : Nat) (i : Impl) (w : World) (g ino newIno : Nat) (db : Db)
    (file out : Bytes) (t : Db) : Prop extends InTxn p i w g db t where
  name : w.fs.ino g = some ino
  data : w.fs.data ino = file
  newName : w.fs.ino (nextGen g) = some newIno
  newData : w.fs.data newIno = out
  known : i.known g ≤ file.length

/-- The generation is a 64-bit number. -/
theorem nextGen_lt (g : Nat) : nextGen g < 2 ^ 64 := Nat.mod_lt _ (by decide)

/-- It changes with every compaction. -/
theorem nextGen_ne (g : Nat) : nextGen g ≠ g := by
  rw [nextGen]
  omega

/-- It is one more until it wraps around. -/
theorem nextGen_eq {g : Nat} (h : g + 1 < 2 ^ 64) : nextGen g = g + 1 := Nat.mod_eq_of_lt h

/-- Other processes leave an open transaction alone. -/
theorem InTxn.rely (hI : Inv S p w) (hR : Rely S p w w') (h : InTxn p i w g db t) :
    InTxn p i w' g db t :=
  ⟨h.handle.rely hI hR, h.wtxn, hR.lock.2 h.lock, hR.txn.trans h.txn,
    (hR.writing (by rw [h.txn]; rfl)).trans h.wdb, h.gen, h.format⟩

theorem stable_inTxn : S.Stable p fun w => InTxn p i w g db t := fun _ _ hI _ hR h => h.rely hI hR

namespace Compacting

/-- The generation that is compacted is the committed one. -/
theorem wgen (h : Compacting p i w g ino newIno db file out t) : w.env.db.gen = .ok g := by
  rw [h.wdb]
  exact h.gen

/-- What is compacted is the committed pack. -/
theorem pack (h : Compacting p i w g ino newIno db file out t) : w.pack = file :=
  (World.pack_eq h.wgen h.name).trans h.data

/-- The new pack is another file. -/
theorem ne (hI : Inv S p w) (h : Compacting p i w g ino newIno db file out t) : ino ≠ newIno := by
  rintro rfl
  exact nextGen_ne g (hI.shape.wf.inj _ _ _ h.newName h.name)

/-- The old name does not lead to the new file. -/
theorem name_ne (hI : Inv S p w) (h : Compacting p i w g ino newIno db file out t) :
    w.fs.ino g ≠ some newIno := by
  rw [h.name]
  exact fun heq => h.ne hI (Option.some.inj heq)

/-- The new pack is within the lengths of files. -/
theorem out_le (hI : Inv S p w) (h : Compacting p i w g ino newIno db file out t) :
    out.length ≤ maxOff := by
  rw [← h.newData]
  exact hI.shape.sizes newIno

/-- A sound index describes the old pack. -/
theorem tableOk (hI : Inv S p w) (h : Compacting p i w g ino newIno db file out t)
    (hS : S.sound) : TableOk S.ext file file.length db.blobs := by
  have hh := hI.healthy hS
  rwa [Healthy, h.pack, h.wdb] at hh

/-- Other processes leave a compaction alone. -/
theorem rely (hI : Inv S p w) (hR : Rely S p w w')
    (h : Compacting p i w g ino newIno db file out t) :
    Compacting p i w' g ino newIno db file out t := by
  have hh := hR.held h.lock
  exact ⟨h.toInTxn.rely hI hR, hh.ino _ _ h.name,
    (hh.data _ (hI.shape.wf.lt _ _ h.name)).trans h.data, hh.ino _ _ h.newName,
    (hh.data _ (hI.shape.wf.lt _ _ h.newName)).trans h.newData, h.known⟩

/-- The new pack grows. -/
theorem append {d : Bytes} (hI : Inv S p w) (h : Compacting p i w g ino newIno db file out t) :
    Compacting p i (w.setFs (w.fs.setData newIno (w.fs.data newIno ++ d))) g ino newIno db file
      (out ++ d) t :=
  { h with
    handle := h.handle.congr rfl (fun _ _ _ h => h) (Nat.le_refl _)
    data := (if_neg (h.ne hI)).trans h.data
    newData := (if_pos rfl).trans (by rw [h.newData]) }

/-- The working copy changes. -/
theorem setWriter {t' : Db} (h : Compacting p i w g ino newIno db file out t) :
    Compacting p i (w.setWriter (some (p, t'))) g ino newIno db file out t' :=
  { h with
    handle := h.handle.congr rfl (fun _ _ _ h => h) (Nat.le_refl _)
    txn := World.txn_setWriter_self _ _ _ }

/-- The size of the old pack is looked up again. -/
theorem setKnown (h : Compacting p i w g ino newIno db file out t) :
    Compacting p (i.setKnown g file.length) w g ino newIno db file out t :=
  { h with
    handle := h.handle.of_mappings rfl rfl
    known := (if_pos rfl).trans_le (Nat.le_refl _) }

end Compacting

theorem stable_compacting : S.Stable p fun w => Compacting p i w g ino newIno db file out t :=
  fun _ _ hI _ hR h => h.rely hI hR

/-! ## Writing the new pack -/

/-- `write_all` appends everything or fails; without a failing call only a file that would become
too large stops it. -/
theorem safe_writeAll_go (fuel : Nat) {out rest : Bytes} {pos : Nat} {w : World}
    (hfuel : rest.length ≤ fuel) (hpos : pos = out.length) (hI : Inv S p w)
    (hw : Compacting p i w g ino newIno db file out t) :
    Eff.Safe (S.rules p) (fun x i' w' => i' = i ∧ match x with
      | .ok pos' => pos' = (out ++ rest).length ∧
          Compacting p i w' g ino newIno db file (out ++ rest) t
      | .error e => e.caught ∧ (S.Reliable → maxOff < (out ++ rest).length) ∧
          ∃ out', Compacting p i w' g ino newIno db file out' t)
      (writeAll.go newIno fuel rest pos) i w := by
  induction fuel generalizing out rest pos w with
  | zero =>
    have hnil := List.length_eq_zero_iff.1 (Nat.le_zero.1 hfuel)
    subst hnil
    rw [List.append_nil]
    exact safe_pure stable_compacting hI hw fun w₁ _ h₁ => ⟨rfl, hpos, h₁⟩
  | succ fuel ih =>
    rw [writeAll.go]
    split
    · next hnil =>
      subst hnil
      rw [List.append_nil]
      exact safe_pure stable_compacting hI hw fun w₁ _ h₁ => ⟨rfl, hpos, h₁⟩
    · next hne =>
      subst hpos
      refine safe_call stable_compacting hI hw fun w₁ hI₁ h₁ => ?_
      refine step_write hI₁ h₁.lock h₁.wgen (h₁.name_ne hI₁) (by rw [h₁.newData]) hne
        (fun n hn hI₂ => ?_) fun e he => ?_
      · have hlen : (rest.take (n + 1)).length = n + 1 := by
          rw [List.length_take]
          omega
        have hcat : out ++ rest = out ++ rest.take (n + 1) ++ rest.drop (n + 1) := by
          rw [List.append_assoc, List.take_append_drop]
        rw [hcat]
        refine ih ?_ ?_ hI₂ (h₁.append hI₁)
        · rw [List.length_drop]
          omega
        · rw [List.length_append, hlen]
      · refine safe_throw stable_compacting hI₁ h₁ fun w₂ _ h₂ => ⟨rfl, rfl, fun hrel => ?_, _, h₂⟩
        rw [List.length_append]
        exact he.resolve_left (hrel.elim (by simp))

/-- A write of the buffer behind what the new pack has. -/
theorem safe_writeAll {rest : Bytes} {pos : Nat} (hpos : pos = out.length) (hI : Inv S p w)
    (hw : Compacting p i w g ino newIno db file out t) :
    Eff.Safe (S.rules p) (fun x i' w' => i' = i ∧ match x with
      | .ok pos' => pos' = (out ++ rest).length ∧
          Compacting p i w' g ino newIno db file (out ++ rest) t
      | .error e => e.caught ∧ (S.Reliable → maxOff < (out ++ rest).length) ∧
          ∃ out', Compacting p i w' g ino newIno db file out' t)
      (writeAll newIno rest pos) i w :=
  safe_writeAll_go _ (Nat.le_refl _) hpos hI hw

/-- `view` of the old pack returns exactly what is inside the pack and the mapping. -/
theorem safe_compactView {off len : Nat} (hlt : off + len < 2 ^ 64) (hI : Inv S p w)
    (hw : Compacting p i w g ino newIno db file out t) :
    Eff.Safe (S.rules p) (fun x i' w' => i'.thread = i.thread ∧
      Compacting p i' w' g ino newIno db file out t ∧ match x with
      | .ok b => off + len ≤ file.length ∧ off + len ≤ kMapSize ∧ b = slice file off len
      | .error e => e.caught ∧
          (S.Reliable → kMapSize < off + len ∨ file.length < off + len))
      (view ⟨g, ino⟩ off len) i w := by
  have hmapped : ∀ j w, j.thread = i.thread → Inv S p w →
      Compacting p j w g ino newIno db file out t → off + len ≤ kMapSize →
      off + len ≤ file.length →
      Eff.Safe (S.rules p) (fun x i' w' => i'.thread = i.thread ∧
        Compacting p i' w' g ino newIno db file out t ∧ match x with
        | .ok b => off + len ≤ file.length ∧ off + len ≤ kMapSize ∧ b = slice file off len
        | .error e => e.caught ∧
            (S.Reliable → kMapSize < off + len ∨ file.length < off + len))
        (view.mapped ⟨g, ino⟩ off len) j w := by
    intro j w hj hI hw hsmall hle
    refine Eff.Safe.perform fun w₁ hI₁ hR₁ => ?_
    have h₁ := hw.rely hI hR₁
    refine step_mmapRead hI₁ ?_ fun hbig => ?_
    · exact safe_pure stable_compacting hI₁ h₁ fun w₂ _ h₂ =>
        ⟨hj, h₂, hle, hsmall, by rw [h₁.data]⟩
    · rw [h₁.data] at hbig
      omega
  rw [view, Nat.mod_eq_of_lt hlt]
  split
  · next hbig =>
    exact safe_throw stable_compacting hI hw fun w₁ _ h₁ => ⟨rfl, h₁, rfl, fun _ => .inl hbig⟩
  · next hsmall =>
    refine Eff.Safe.get ?_
    split
    · refine safe_fileSize stable_compacting hI hw (fun w₁ hI₁ h₁ => ?_) fun hf w₁ _ h₁ =>
        ⟨rfl, h₁, rfl, fun hrel => absurd hf (hrel.elim (by simp))⟩
      refine Eff.Safe.modify ?_
      rw [h₁.data]
      split
      · next hbig =>
        exact safe_throw stable_compacting hI₁ h₁.setKnown fun w₂ _ h₂ =>
          ⟨rfl, h₂, rfl, fun _ => .inr hbig⟩
      · next hle => exact hmapped _ w₁ rfl hI₁ h₁.setKnown (not_lt.1 hsmall) (not_lt.1 hle)
    · next hle =>
      exact hmapped i w rfl hI hw (not_lt.1 hsmall) ((not_lt.1 hle).trans hw.known)

/-! ## The loop -/

/-- What stops a compaction when no call fails and the index describes the pack: the predicate, or
a pack that is larger than its mapping. -/
def Blames (S : Setting) (live : Bytes → Except Err Bool) (file : Bytes) : Prop :=
  S.Reliable → S.sound → (∃ k e, live k = .error e) ∨ kMapSize < file.length

/-- An exception before the commit: nothing but the new pack has changed. -/
structure Stuck (S : Setting) (p : Nat) (live : Bytes → Except Err Bool) (g ino newIno : Nat)
    (db : Db) (file : Bytes) (e : Err) (i : Impl) (w : World) : Prop where
  caught : e.caught
  blames : Blames S live file
  still : ∃ out t, Compacting p i w g ino newIno db file out t

/-- The state of the cursor loop: `out` is written, `s.buf` is not. -/
structure Looping (live : Bytes → Except Err Bool) (file : Bytes) (done : List (Bytes × Bytes))
    (out : Bytes) (s : Sweep) : Prop where
  sweeps : Sweeps live file done (out ++ s.buf) s.keep
  newOff : s.newOff = (out ++ s.buf).length
  pos : s.pos = out.length

/-- Where the loop ends. -/
def Looped (S : Setting) (p : Nat) (live : Bytes → Except Err Bool) (g ino newIno : Nat)
    (db : Db) (file : Bytes) (t : Db) (i : Impl) :
    Except Err Sweep → Impl → World → Prop
  | .ok s, i', w' => i'.thread = i.thread ∧ ∃ out, Compacting p i' w' g ino newIno db file out t ∧
      Looping live file db.blobs.toList out s
  | .error e, i', w' => i'.thread = i.thread ∧ Stuck S p live g ino newIno db file e i' w'

/-- Decoding an entry throws what the handler catches. -/
theorem decodeEntry_caught {v : Bytes} {e : Err} (h : decodeEntry v = .error e) : e.caught := by
  rw [decodeEntry] at h
  split at h
  · cases h
    rfl
  · dsimp only at h
    split at h <;> cases h
    rfl

/-- A failing call is to blame. -/
theorem Blames.of_canFail {c : Call} (hf : S.CanFail c) (hc : ∀ i off d, c ≠ .pwrite i off d) :
    Blames S live file := fun hrel _ => absurd hf (hrel.elim hc)

/-- The loop copies the live blobs, one index entry after the other. -/
theorem safe_compactLoop (hlive : ∀ k e, live k = .error e → e.caught)
    (rest : List (Bytes × Bytes)) {done : List (Bytes × Bytes)} {s : Sweep} {i : Impl} {w : World}
    {out : Bytes} (hdone : done ++ rest = db.blobs.toList) (hI : Inv S p w)
    (hw : Compacting p i w g ino newIno db file out t) (hs : Looping live file done out s) :
    Eff.Safe (S.rules p) (Looped S p live g ino newIno db file t i)
      (compactLoop live ⟨g, ino⟩ newIno rest s) i w := by
  induction rest generalizing done s i w out with
  | nil =>
    rw [List.append_nil] at hdone
    subst hdone
    refine safe_mdbRead stable_compacting hI hw (fun w₁ hI₁ h₁ => ?_)
      fun hf w₁ _ h₁ => ⟨rfl, rfl, .of_canFail hf (by simp), out, t, h₁⟩
    exact safe_pure stable_compacting hI₁ h₁ fun w₂ _ h₂ => ⟨rfl, out, h₂, hs⟩
  | cons r rest ih =>
    obtain ⟨k, v⟩ := r
    have hfind : db.blobs.find? k = some v := SortedMap.mem_toList.1 (by simp [← hdone])
    have hdone' : done ++ [(k, v)] ++ rest = db.blobs.toList := by simp [← hdone]
    rw [compactLoop]
    refine safe_mdbRead stable_compacting hI hw (fun w₁ hI₁ h₁ => ?_)
      fun hf w₁ _ h₁ => ⟨rfl, rfl, .of_canFail hf (by simp), out, t, h₁⟩
    cases hd : decodeEntry v with
    | error e =>
      refine safe_throw stable_compacting hI₁ h₁ fun w₂ hI₂ h₂ =>
        ⟨rfl, decodeEntry_caught hd, fun _ hS => ?_, out, t, h₂⟩
      obtain ⟨_, _, hd', _⟩ := (h₂.tableOk hI₂ hS).entry k v hfind
      rw [hd] at hd'
      cases hd'
    | ok e =>
      rw [Eff.ofExcept_ok, pure_bind]
      cases hl : live k with
      | error e' =>
        exact safe_throw stable_compacting hI₁ h₁ fun w₂ _ h₂ =>
          ⟨rfl, hlive k e' hl, fun _ _ => .inl ⟨k, e', hl⟩, out, t, h₂⟩
      | ok b =>
        rw [Eff.ofExcept_ok, pure_bind]
        cases b with
        | false =>
          exact ih hdone' hI₁ h₁ ⟨hs.sweeps.drop hd hl, hs.newOff, hs.pos⟩
        | true =>
          rw [if_pos rfl]
          refine safe_seq hI₁ (safe_compactView (decodeEntry_lt hd) hI₁ h₁) ?_ ?_
          · rintro b i₂ w₂ hI₂ ⟨ht₂, h₂, hle, hmap, rfl⟩
            have hs' := hs.sweeps.keep hd hl hle hmap
            have hlen := length_slice_of_le hle
            rw [List.append_assoc, ← hs.newOff] at hs'
            dsimp only
            split
            · refine safe_seq hI₂ (safe_writeAll hs.pos hI₂ h₂) ?_ ?_
              · rintro pos' _ w₃ hI₃ ⟨rfl, rfl, h₃⟩
                refine (ih hdone' hI₃ h₃ ⟨?_, ?_, rfl⟩).mono fun x i' w' _ h => ?_
                · rw [List.append_nil]
                  exact hs'
                · simp only [List.length_append, hlen, hs.newOff, List.append_nil]
                  omega
                · cases x with
                  | ok s' => exact ⟨h.1.trans ht₂, h.2⟩
                  | error e' => exact ⟨h.1.trans ht₂, h.2⟩
              · rintro e' _ w₃ hI₃ ⟨rfl, hc, hbig, out', h₃⟩
                refine ⟨ht₂, hc, fun hrel hS => ?_, out', t, h₃⟩
                have hmax := hs'.length_le (h₃.tableOk hI₃ hS) hdone'
                have hfile := hI₃.shape.sizes ino
                rw [h₃.data] at hfile
                exact absurd (hbig hrel) (not_lt.2 (hmax.trans hfile))
            · refine (ih (s := ⟨_, _, _, s.pos⟩) hdone' hI₂ h₂ ⟨hs', ?_, hs.pos⟩).mono fun x i' w' _ h => ?_
              · simp only [List.length_append, hlen, hs.newOff]
                omega
              · cases x with
                | ok s' => exact ⟨h.1.trans ht₂, h.2⟩
                | error e' => exact ⟨h.1.trans ht₂, h.2⟩
          · rintro e' i₂ w₂ hI₂ ⟨ht₂, h₂, hc, hwhy⟩
            refine ⟨ht₂, hc, fun hrel hS => .inr ?_, out, t, h₂⟩
            obtain ⟨e₁, _, hd₁, hle, _⟩ := (h₂.tableOk hI₂ hS).entry k v hfind
            rw [hd] at hd₁
            cases hd₁
            rcases hwhy hrel with hbig | hbig
            · exact hbig.trans_le hle
            · omega

/-! ## The new index -/

/-- What the new index holds once the kept entries are put into the emptied one. -/
theorem safe_putKept (live : Bytes → Except Err Bool) (keep : List (Bytes × IndexEntry)) {t : Db}
    {w : World} (hI : Inv S p w)
    (hw : Compacting p i w g ino newIno db file out t) :
    Eff.Safe (S.rules p) (fun x i' w' => i' = i ∧ match x with
      | .ok _ => Compacting p i w' g ino newIno db file out
          { t with blobs := keepTable keep t.blobs }
      | .error e => Stuck S p live g ino newIno db file e i w') (putKept keep) i w := by
  induction keep generalizing t w with
  | nil => exact safe_pure stable_compacting hI hw fun w₁ _ h₁ => ⟨rfl, h₁⟩
  | cons r rest ih =>
    refine safe_txnPut (.inl rfl) stable_compacting hI hw hw.txn (fun w₁ _ h₁ _ hI₂ => ?_)
      fun hf w₁ _ h₁ _ => ⟨rfl, rfl, .of_canFail hf (by simp), out, t, h₁⟩
    exact ih hI₂ h₁.setWriter

/-- The tables `t'` over `out` are what a compaction of the tables `db` over `file` commits. -/
structure Filled (live : Bytes → Except Err Bool) (g : Nat) (db : Db) (file out : Bytes)
    (t' : Db) : Prop where
  swept : Swept live file db.blobs out t'.blobs
  metaTable : t'.metaTable = db.metaTable.insert genKey (leBytes 8 (nextGen g))
  sweeps : ∃ keep, Sweeps live file db.blobs.toList out keep ∧ t'.blobs = keepTable keep .empty
  fits : out.length ≤ maxOff

namespace Filled

variable {t' : Db}

/-- The new tables have the next generation. -/
theorem gen (h : Filled live g db file out t') : t'.gen = .ok (nextGen g) := by
  have hpow : 256 ^ 8 = 2 ^ 64 := by decide
  rw [Db.gen, h.metaTable, SortedMap.find?_insert, if_pos rfl]
  simp only [length_leBytes, ne_eq, not_true_eq_false, if_false, ofLeBytes_leBytes, hpow,
    Nat.mod_eq_of_lt (nextGen_lt g)]

/-- They have the format of the old ones. -/
theorem formatted (h : Filled live g db file out t') (hf : db.Formatted) : t'.Formatted := by
  rw [Db.Formatted, h.metaTable, SortedMap.find?_insert, if_neg (by decide)]
  exact hf

/-- Writing the generation is invisible to the users of the meta table. -/
theorem records (h : Filled live g db file out t') : t'.records = db.records := by
  refine SortedMap.ext_find? fun k => ?_
  rw [Db.records, Db.records, h.metaTable, SortedMap.find?_filter, SortedMap.find?_filter,
    SortedMap.find?_insert]
  split
  · next hk =>
    subst hk
    cases db.metaTable.find? genKey <;> simp
  · rfl

/-- What they describe in the new pack are the live blobs of the old store. -/
theorem storeOf {ext : Ext} (h : Filled live g db file out t') (hg : db.gen = .ok g) :
    PackCas.storeOf ext out t' = (PackCas.storeOf ext file db).restrict (isLive live) := by
  rw [PackCas.storeOf, h.swept.tableMap, h.records, h.gen, PackCas.storeOf, hg]
  rfl

end Filled

/-- Where `compactCopy` ends. -/
def Copies (S : Setting) (p : Nat) (live : Bytes → Except Err Bool) (g ino newIno : Nat) (db : Db)
    (file : Bytes) (i : Impl) : Except Err Nat → Impl → World → Prop
  | .ok n, i', w' => i'.thread = i.thread ∧ ∃ out t', n = out.length ∧
      Compacting p i' w' g ino newIno db file out t' ∧ Filled live g db file out t'
  | .error e, i', w' => i'.thread = i.thread ∧ Stuck S p live g ino newIno db file e i' w'

/-- The copy into the new pack. -/
theorem safe_compactCopy (hlive : ∀ k e, live k = .error e → e.caught) (hI : Inv S p w)
    (hw : Compacting p i w g ino newIno db file [] db) :
    Eff.Safe (S.rules p) (Copies S p live g ino newIno db file i)
      (compactCopy live g ⟨g, ino⟩ newIno) i w := by
  refine safe_mdbRead stable_compacting hI hw (fun w₁ hI₁ h₁ => ?_)
    fun hf w₁ _ h₁ => ⟨rfl, rfl, .of_canFail hf (by simp), [], db, h₁⟩
  refine safe_txnDb stable_compacting hI₁ h₁ h₁.txn fun w₂ hI₂ h₂ _ => ?_
  have hloop : Looping live file [] [] {} := ⟨.nil, rfl, rfl⟩
  refine safe_seq hI₂ (safe_compactLoop hlive _ (List.nil_append _) hI₂ h₂ hloop) ?_
    fun e i' w' _ h => h
  rintro s i' w₃ hI₃ ⟨ht, out, h₃, hs⟩
  refine safe_seq hI₃ (safe_writeAll hs.pos hI₃ h₃) ?_ ?_
  · rintro pos' _ w₄ hI₄ ⟨rfl, rfl, h₄⟩
    refine safe_fdatasync stable_compacting hI₄ h₄ (fun w₅ hI₅ h₅ => ?_)
      fun hf w₅ _ h₅ => ⟨ht, rfl, .of_canFail hf (by simp), _, _, h₅⟩
    refine safe_txnDropBlobs stable_compacting hI₅ h₅ h₅.txn (fun w₆ _ h₆ _ hI₇ => ?_)
      fun hf w₆ _ h₆ _ => ⟨ht, rfl, .of_canFail hf (by simp), _, _, h₆⟩
    refine safe_seq hI₇ (safe_putKept live s.keep hI₇ h₆.setWriter) ?_ ?_
    · rintro _ _ w₈ hI₈ ⟨rfl, h₈⟩
      refine safe_txnPut (.inl rfl) stable_compacting hI₈ h₈ h₈.txn (fun w₉ hI₉ h₉ _ hI₁₀ => ?_)
        fun hf w₉ _ h₉ _ => ⟨ht, rfl, .of_canFail hf (by simp), _, _, h₉⟩
      have hfits := h₉.out_le hI₉
      refine safe_pure stable_compacting hI₁₀ h₉.setWriter fun w₁₁ _ h₁₁ =>
        ⟨ht, _, _, hs.newOff, h₁₁, hs.sweeps.swept hfits, rfl, ⟨_, hs.sweeps, rfl⟩, hfits⟩
    · rintro e _ w₈ _ ⟨rfl, h₈⟩
      exact ⟨ht, h₈⟩
  · rintro e _ w₄ hI₄ ⟨rfl, hc, hbig, out', h₄⟩
    refine ⟨ht, hc, fun hrel hS => ?_, out', _, h₄⟩
    have hmax := hs.sweeps.length_le (h₄.tableOk hI₄ hS) (List.append_nil _)
    have hfile := hI₄.shape.sizes ino
    rw [h₄.data] at hfile
    exact absurd (hbig hrel) (not_lt.2 (hmax.trans hfile))

/-! ## Before and after the commit -/

/-- The committed store is that of `w₀`, where `M` was the store, as far as the others allow. -/
structure Before (S : Setting) (M : Store) (w₀ w : World) : Prop where
  store : S.Kr M (w.store S.ext)
  same : S.calm → w.env.db = w₀.env.db ∧ w.pack = w₀.pack ∧
    ∀ g i, w₀.env.db.gen = .ok g → w₀.fs.ino g = some i → w.fs.ino g = some i

/-- A compaction of `w₀` was committed. -/
structure Compacted (live : Bytes → Except Err Bool) (w₀ w : World) : Prop where
  swept : Swept live w₀.pack w₀.env.db.blobs w.pack w.env.db.blobs
  records : w.env.db.records = w₀.env.db.records
  gen : ∀ g, w₀.env.db.gen = .ok g → w.env.db.gen = .ok (nextGen g)
  name : ∀ g, w.env.db.gen = .ok g → ∃ i, w.fs.ino g = some i

/-- A compaction was committed since `w₀`. -/
structure After (S : Setting) (live : Bytes → Except Err Bool) (M : Store) (w₀ w : World) :
    Prop where
  store : ∃ M', S.Kr M M' ∧ S.Kr (M'.restrict (isLive live)) (w.store S.ext)
  calm : S.calm → Compacted live w₀ w

variable {M : Store} {w₀ : World}

/-- Before the switch, the store stays what it was. -/
theorem stable_before : S.Stable p (Before S M w₀) := fun _ _ _ _ hR h =>
  ⟨S.Kr_trans h.store hR.store, fun hc => (hR.calm hc).symm ▸ h.same hc⟩

/-- Behind the switch, it stays what is live. -/
theorem stable_after : S.Stable p (After S live M w₀) := fun _ _ _ _ hR h => by
  obtain ⟨M', h₁, h₂⟩ := h.store
  exact ⟨⟨M', h₁, S.Kr_trans h₂ hR.store⟩, fun hc => (hR.calm hc).symm ▸ h.calm hc⟩

/-- The lock does not matter before the switch. -/
theorem Before.setLock (h : Before S M w₀ w) (l : Option Nat) : Before S M w₀ (w.setLock l) :=
  ⟨h.store, h.same⟩

theorem After.setLock (h : After S live M w₀ w) (l : Option Nat) :
    After S live M w₀ (w.setLock l) := ⟨h.store, fun hc =>
  ⟨(h.calm hc).swept, (h.calm hc).records, (h.calm hc).gen, (h.calm hc).name⟩⟩

/-- A transaction does not matter before the switch. -/
theorem Before.setWriter (h : Before S M w₀ w) (x : Option (Nat × Db)) :
    Before S M w₀ (w.setWriter x) := ⟨h.store, h.same⟩

/-- Files other than the committed pack do not matter. -/
theorem Before.setFs (h : Before S M w₀ w) {fs : Fs} (hp : (w.setFs fs).pack = w.pack)
    (hino : ∀ i, w.env.db.gen = .ok g → w.fs.ino g = some i → fs.ino g = some i)
    (hg : w.env.db.gen = .ok g) : Before S M w₀ (w.setFs fs) where
  store := by
    rw [World.store_setFs hp]
    exact h.store
  same hc := by
    obtain ⟨h₁, h₂, h₃⟩ := h.same hc
    refine ⟨h₁, hp.trans h₂, fun k i hk hi => ?_⟩
    have hkg : k = g := Except.ok.inj (hk.symm.trans ((congrArg Db.gen h₁).symm.trans hg))
    subst hkg
    exact hino i hg (h₃ k i hk hi)

/-- What `compact` knows of the committed tables and their pack in its transaction. -/
structure Since (S : Setting) (M : Store) (w₀ : World) (g ino : Nat) (db : Db) (file : Bytes) :
    Prop where
  store : S.Kr M (storeOf S.ext file db)
  same : S.calm → db = w₀.env.db ∧ file = w₀.pack ∧ ∀ i, w₀.fs.ino g = some i → ino = i

/-- While the blobs are copied the switch is still to come. -/
theorem Compacting.before (h : Compacting p i w g ino newIno db file out t)
    (hs : Since S M w₀ g ino db file) : Before S M w₀ w where
  store := by
    rw [World.store, h.pack, h.wdb]
    exact hs.store
  same hc := by
    obtain ⟨h₁, h₂, h₃⟩ := hs.same hc
    refine ⟨h.wdb.trans h₁, h.pack.trans h₂, fun k i hk hi => ?_⟩
    have hkg : k = g := Except.ok.inj (hk.symm.trans ((congrArg Db.gen h₁).symm.trans h.gen))
    subst hkg
    rw [h.name, h₃ i hi]

/-- `compact` before its transaction or after it was aborted. -/
structure Holding (S : Setting) (p : Nat) (i : Impl) (w : World) (g : Nat) (M : Store)
    (w₀ : World) : Prop where
  idle : Idle p i w
  lock : w.env.lock = some p
  gen : w.env.db.gen = .ok g
  before : Before S M w₀ w

/-- The lock and the old store are held. -/
theorem stable_holding : S.Stable p fun w => Holding S p i w g M w₀ := fun w w' hI hI' hR h =>
  ⟨h.idle.rely hI hR, hR.lock.2 h.lock, (hR.held h.lock).gen.trans h.gen,
    stable_before w w' hI hI' hR h.before⟩

/-- The transaction of `compact` is aborted. -/
theorem InTxn.abort (h : InTxn p i w g db t) (hb : Before S M w₀ w) :
    Holding S p i (w.setWriter none) g M w₀ where
  idle := ⟨HandleOk.congr (w := w) h.handle rfl (fun _ _ _ h => h) (Nat.le_refl _), h.wtxn, rfl,
    (congrArg Db.Formatted h.wdb).mpr h.format⟩
  lock := h.lock
  gen := (congrArg Db.gen h.wdb).trans h.gen
  before := hb.setWriter _

/-- What `compact` may fail for before the commit, if nobody interferes. -/
def Excused (S : Setting) (live : Bytes → Except Err Bool) (w₀ : World) : Prop :=
  S.calm → Blames S live w₀.pack

/-- A failing call excuses a failure. -/
theorem Excused.of_canFail {c : Call} (hf : S.CanFail c) (hc : ∀ i off d, c ≠ .pwrite i off d) :
    Excused S live w₀ := fun _ => .of_canFail hf hc

/-- A part of `compact` inside its transaction: `R` is what it achieves. -/
def Tries {α : Type} (S : Setting) (p : Nat) (live : Bytes → Except Err Bool) (g : Nat) (M : Store)
    (w₀ : World) (R : α → Impl → World → Prop) (i : Impl) : Except Err α → Impl → World → Prop
  | .ok a, i', w' => i'.thread = i.thread ∧ R a i' w'
  | .error e, i', w' => i'.thread = i.thread ∧ e.caught ∧ Excused S live w₀ ∧
      ∃ db t, InTxn p i' w' g db t ∧ Before S M w₀ w'

/-- A part of `compact` that leaves no transaction behind. -/
def Attempts {α : Type} (S : Setting) (p : Nat) (live : Bytes → Except Err Bool) (g : Nat)
    (M : Store) (w₀ : World) (R : α → Impl → World → Prop) (i : Impl) :
    Except Err α → Impl → World → Prop
  | .ok a, i', w' => i'.thread = i.thread ∧ R a i' w'
  | .error e, i', w' => i'.thread = i.thread ∧ e.caught ∧ Excused S live w₀ ∧
      Holding S p i' w' g M w₀

/-- The scope of the transaction of `compact`. -/
theorem safe_txnScope {α : Type} {m : CasM α} {R : α → Impl → World → Prop} {i : Impl} {w : World}
    (hI : Inv S p w) (hm : Eff.Safe (S.rules p) (Tries S p live g M w₀ R i) m i w) :
    Eff.Safe (S.rules p) (Attempts S p live g M w₀ R i) (txnScope m) i w := by
  refine safe_catchAll hI hm (fun _ _ _ _ h => h) ?_ fun e _ _ _ hn h => absurd h.2.1 hn
  rintro e i' w' hI' hc ⟨ht, _, hB, db, t, h₁, h₂⟩
  refine safe_txnAbort (stable_inTxn.and stable_before) hI' ⟨h₁, h₂⟩ h₁.txn
    fun w₁ _ h₁ _ hI₂ => ?_
  exact safe_throw stable_holding hI₂ (h₁.1.abort h₁.2) fun w₂ _ h₂ => ⟨ht, hc, hB, h₂⟩

/-! ## The parts of `compact` -/

/-- Where `compactOpen` ends. -/
def Opens (S : Setting) (p : Nat) (g : Nat) (M : Store) (w₀ : World) (db : Db)
    (x : Nat × Mapping × Nat) (i : Impl) (w : World) : Prop :=
  ∃ ino newIno file, x = (g, ⟨g, ino⟩, newIno) ∧
    Compacting p i w g ino newIno db file [] db ∧ Since S M w₀ g ino db file

/-- The opening of the new pack, or what is left when it fails. -/
theorem safe_compactOpen (hI : Inv S p w) (hw : InTxn p i w g db db) (hb : Before S M w₀ w) :
    Eff.Safe (S.rules p) (Tries S p live g M w₀ (Opens S p g M w₀ db) i) compactOpen i w := by
  refine safe_txnDb (stable_inTxn.and stable_before) hI ⟨hw, hb⟩ hw.txn fun w₁ hI₁ h₁ _ => ?_
  rw [readGen, bind_assoc]
  refine safe_mdbRead (stable_inTxn.and stable_before) hI₁ h₁ (fun w₂ hI₂ h₂ => ?_)
    fun hf w₂ _ h₂ => ⟨rfl, rfl, .of_canFail hf (by simp), db, db, h₂⟩
  rw [hw.gen, Eff.ofExcept_ok, pure_bind]
  have hstable : S.Stable p fun w => w.env.lock = some p ∧ (w.txn p = some db ∧ w.env.db = db) ∧
      Before S M w₀ w := stable_locked.and (stable_db.and stable_before)
  refine safe_seq hI₂ (safe_mapCreate (g := g) hI₂ h₂.1.handle hstable
    ⟨h₂.1.lock, ⟨h₂.1.txn, h₂.1.wdb⟩, h₂.2⟩ (fun w h => by rw [h.2.1.2, hw.gen])
    fun w h hn hI' hpk => ⟨h.1, h.2.1, h.2.2.setFs hpk
      (fun _ _ => Fs.ino_create_of_some hn) (by rw [h.2.1.2, hw.gen])⟩) ?_ ?_
  · rintro ⟨g', ino⟩ i₁ w₃ hI₃ ⟨⟨hl₃, ⟨ht₃, hdb₃⟩, hb₃⟩, hh₃, hsame, _, rfl, hino₃⟩
    have h₃ : InTxn p i₁ w₃ g' db db := ⟨hh₃, hsame.wtxn.trans hw.wtxn, hl₃, ht₃, hdb₃, hw.gen, hw.format⟩
    -- the lock protects the old pack until the new one is there
    have hstable : S.Stable p fun w => (InTxn p i₁ w g' db db ∧ Before S M w₀ w) ∧
        LockedSince p w₃ w := (stable_inTxn.and stable_before).and stable_lockedSince
    refine safe_fileSize hstable hI₃ ⟨⟨h₃, hb₃⟩, .refl hl₃⟩ (fun w₄ hI₄ h₄ => ?_)
      fun hf w₄ _ h₄ => ⟨hsame.thread, rfl, .of_canFail hf (by simp), db, db, h₄.1⟩
    refine Eff.Safe.modify ?_
    refine Eff.Safe.perform fun w₅ hI₅ hR₅ => ?_
    obtain ⟨⟨h₅, hb₅⟩, hl₅⟩ := hstable w₄ w₅ hI₄ hI₅ hR₅ h₄
    have hgen₅ : w₅.env.db.gen = .ok g' := by rw [h₅.wdb, hw.gen]
    have hino₅ := hl₅.held.ino _ _ hino₃
    have hlt := hI₃.shape.wf.lt _ _ hino₃
    have hdata : w₄.fs.data ino = w₅.fs.data ino :=
      (h₄.2.held.data ino hlt).trans (hl₅.held.data ino hlt).symm
    refine step_openNew hI₅ h₅.lock hgen₅ (nextGen_ne g') (fun fs' j hj hnil hnames hdata' hnext hI₆ => ?_)
      fun hf => ?_
    · have hpk : (w₅.setFs fs').fs.data ino = w₅.fs.data ino := by
        refine hdata' ino fun hij => nextGen_ne g' ?_
        exact hI₆.shape.wf.inj _ _ _ hj ((hnames _ _ hino₅).trans (congrArg some hij))
      have hc : Compacting p (i₁.setKnown g' (w₄.fs.data ino).length) (w₅.setFs fs') g' ino j db
          (w₅.fs.data ino) [] db :=
        { handle := HandleOk.congr (w := w₅) (h₅.handle.of_mappings rfl rfl) rfl
            (fun _ _ _ => hnames _ _) hnext
          wtxn := h₅.wtxn
          lock := h₅.lock
          txn := h₅.txn
          wdb := h₅.wdb
          gen := hw.gen
          format := hw.format
          name := hnames _ _ hino₅
          data := hpk
          newName := hj
          newData := hnil
          known := (if_pos rfl).trans_le (by rw [hdata]) }
      have hpack₅ := World.pack_eq hgen₅ hino₅
      have hs : Since S M w₀ g' ino db (w₅.fs.data ino) := by
        refine ⟨?_, fun hcalm => ?_⟩
        · have hst := hb₅.store
          rwa [World.store, hpack₅, h₅.wdb] at hst
        · obtain ⟨hdb, hpk₀, hnm⟩ := hb₅.same hcalm
          refine ⟨h₅.wdb.symm.trans hdb, hpack₅.symm.trans hpk₀, fun k hk => ?_⟩
          rw [hdb] at hgen₅
          exact Option.some.inj (hino₅.symm.trans (hnm _ _ hgen₅ hk))
      exact safe_pure stable_compacting hI₆ hc fun w₇ _ h₇ =>
        ⟨hsame.thread, ino, j, _, rfl, h₇, hs⟩
    · exact safe_throw (stable_inTxn.and stable_before) hI₅ ⟨h₅, hb₅⟩ fun w₆ _ h₆ =>
        ⟨hsame.thread, rfl, .of_canFail hf (by simp), db, db,
          ⟨h₆.1.handle.of_mappings rfl rfl, h₆.1.wtxn, h₆.1.lock, h₆.1.txn, h₆.1.wdb, h₆.1.gen,
            h₆.1.format⟩, h₆.2⟩
  · rintro e i₁ w₃ _ ⟨⟨hl₃, ⟨ht₃, hdb₃⟩, hb₃⟩, hh₃, hsame, he, c, hf, hc⟩
    exact ⟨hsame.thread, he, .of_canFail hf hc, db, db,
      ⟨hh₃, hsame.wtxn.trans hw.wtxn, hl₃, ht₃, hdb₃, hw.gen, hw.format⟩, hb₃⟩

/-- Opening the packs in the scope of the transaction. -/
theorem safe_openScope (live : Bytes → Except Err Bool) (hI : Inv S p w) (hw : InTxn p i w g db db)
    (hb : Before S M w₀ w) :
    Eff.Safe (S.rules p) (Attempts S p live g M w₀ (Opens S p g M w₀ db) i) (txnScope compactOpen) i
      w := safe_txnScope hI (safe_compactOpen hI hw hb)

/-- The settings in which compactions are verified: the `fsync` of the index after the commit does
not fail, `live` raises exceptions a handler sees, and restricting the store is allowed. -/
structure Setting.Compacts (S : Setting) (live : Bytes → Except Err Bool) (M : Store) : Prop where
  sync : ¬S.CanFail .envSync
  throws : ∀ k e, live k = .error e → e.caught
  keep : S.sound → ∀ M', S.Kr M M' → S.Kg M' (M'.restrict (isLive live))
  free : ¬S.calm → ¬S.pinned

/-- `compact` after the commit. -/
structure Switched (S : Setting) (p : Nat) (i : Impl) (w : World) (live : Bytes → Except Err Bool)
    (g newIno : Nat) (M : Store) (w₀ : World) : Prop where
  idle : Idle p i w
  lock : w.env.lock = some p
  gen : w.env.db.gen = .ok (nextGen g)
  name : w.fs.ino (nextGen g) = some newIno
  after : After S live M w₀ w

/-- The new store is switched to for good. -/
theorem stable_switched : S.Stable p fun w => Switched S p i w live g newIno M w₀ :=
  fun w w' hI hI' hR h => ⟨h.idle.rely hI hR, hR.lock.2 h.lock, (hR.held h.lock).gen.trans h.gen,
    (hR.held h.lock).ino _ _ h.name, stable_after w w' hI hI' hR h.after⟩

section

variable {t' : Db}

/-- A filled index may be committed. -/
theorem Compacting.commitOk (hI : Inv S p w) (h : Compacting p i w g ino newIno db file out t')
    (hf : Filled live g db file out t') (hs : Since S M w₀ g ino db file)
    (hS : S.Compacts live M) (hroom : g + 1 < 2 ^ 64) : CommitOk S p w t' := by
  have hpack : (w.commit t').pack = out :=
    (World.pack_eq (w := w.commit t') hf.gen h.newName).trans h.newData
  have hne := nextGen_ne g
  refine ⟨⟨hI.shape.wf, hI.shape.sizes, ⟨_, hf.gen⟩, .inl (hf.formatted h.format), ?_⟩, ?_, ?_, ?_,
    ?_, ?_, ?_, ?_, ?_⟩
  · intro k hk hnone
    have hkg : k = nextGen g := Except.ok.inj (hk.symm.trans hf.gen)
    subst hkg
    have hnone : w.fs.ino (nextGen g) = none := hnone
    rw [h.newName] at hnone
    cases hnone
  · intro hs
    rw [Healthy, hpack]
    exact hf.swept.tableOk (h.tableOk hI hs)
  · intro k k' hk hk'
    rw [h.wgen] at hk
    rw [hf.gen] at hk'
    cases hk
    cases hk'
    rw [nextGen_eq hroom]
    exact Nat.le_succ g
  · exact fun _ => hf.formatted h.format
  · exact fun _ => ⟨_, newIno, hf.gen, h.newName⟩
  · intro _ heq
    rw [hf.gen, h.wgen] at heq
    exact absurd (Except.ok.inj heq) hne
  · exact fun hc hp => absurd hp (hS.free hc)
  · intro q hq hl
    rw [h.lock] at hl
    cases hl
    exact absurd rfl hq
  · intro hsound
    have h₁ : (w.commit t').store S.ext = (storeOf S.ext file db).restrict (isLive live) := by
      rw [World.store, hpack]
      exact hf.storeOf h.gen
    have h₂ : w.store S.ext = storeOf S.ext file db := by
      rw [World.store, h.pack, h.wdb]
    rw [h₁, h₂]
    exact hS.keep hsound _ hs.store

/-- What the commit leads to. -/
theorem Compacting.switched (h : Compacting p i w g ino newIno db file out t')
    (hf : Filled live g db file out t') (hs : Since S M w₀ g ino db file)
    (hroom : g + 1 < 2 ^ 64) : Switched S p i (w.commit t') live g newIno M w₀ := by
  have hpack : (w.commit t').pack = out :=
    (World.pack_eq (w := w.commit t') hf.gen h.newName).trans h.newData
  have hstore : (w.commit t').store S.ext = (storeOf S.ext file db).restrict (isLive live) := by
    rw [World.store, hpack]
    exact hf.storeOf h.gen
  have hmaps : ∀ m ∈ i.mappings, MapOk m (w.commit t') := fun m hm => by
    have hle := (h.handle.map m hm).le g h.wgen
    refine ⟨fun k hk => ?_, fun hg => ?_, (h.handle.map m hm).lt⟩
    · cases hk.symm.trans hf.gen
      rw [nextGen_eq hroom]
      omega
    · have heq := Except.ok.inj (hg.symm.trans hf.gen)
      rw [nextGen_eq hroom] at heq
      omega
  refine ⟨⟨⟨hmaps, h.handle.max, h.handle.nil⟩, h.wtxn, rfl, hf.formatted h.format⟩, h.lock,
    hf.gen, h.newName, ⟨_, hs.store, by rw [hstore]; exact S.Kr_refl _⟩, fun hc => ?_⟩
  obtain ⟨hdb, hfile, _⟩ := hs.same hc
  refine ⟨?_, ?_, fun k hk => ?_, fun k hk => ?_⟩
  · rw [hpack, ← hdb, ← hfile]
    exact hf.swept
  · rw [← hdb]
    exact hf.records
  · rw [← hdb] at hk
    cases hk.symm.trans h.gen
    exact hf.gen
  · cases hk.symm.trans hf.gen
    exact ⟨newIno, h.newName⟩

end

/-- The copy in the scope of its transaction fills a working copy, or the transaction is aborted. -/
theorem safe_copyScope (hlive : ∀ k e, live k = .error e → e.caught) (hI : Inv S p w)
    (hw : Compacting p i w g ino newIno db file [] db) (hs : Since S M w₀ g ino db file) :
    Eff.Safe (S.rules p) (Attempts S p live g M w₀ (fun _ i' w' => ∃ out t',
      Compacting p i' w' g ino newIno db file out t' ∧ Filled live g db file out t') i)
      (txnScope (compactCopy live g ⟨g, ino⟩ newIno)) i w := by
  refine safe_txnScope hI ((safe_compactCopy hlive hI hw).mono ?_)
  rintro (e | n) i' w' _ h
  · obtain ⟨ht, hc, hbl, out, t', h⟩ := h
    refine ⟨ht, hc, fun hcalm => ?_, db, t', h.toInTxn, h.before hs⟩
    rw [← (hs.same hcalm).2.1]
    exact hbl
  · obtain ⟨ht, out, t', _, h⟩ := h
    exact ⟨ht, out, t', h⟩

/-- `compactSwitch` switches to the new pack or leaves everything as it was. -/
theorem safe_compactSwitch (hS : S.Compacts live M) (hroom : g + 1 < 2 ^ 64) (hI : Inv S p w)
    (hw : Compacting p i w g ino newIno db file [] db) (hs : Since S M w₀ g ino db file) :
    Eff.Safe (S.rules p) (Attempts S p live g M w₀
      (fun _ i' w' => Switched S p i' w' live g newIno M w₀) i)
      (compactSwitch live g ⟨g, ino⟩ newIno) i w := by
  let R : Nat → Impl → World → Prop := fun _ i' w' => Switched S p i' w' live g newIno M w₀
  refine safe_catchAll (P := Attempts S p live g M w₀ R i) hI ?_ (fun _ _ _ _ h => h) ?_
    fun e _ _ _ hn h => absurd h.2.1 hn
  · refine safe_seq hI (safe_copyScope hS.throws hI hw hs) ?_ ?_
    · rintro n i₁ w₁ hI₁ ⟨ht, out, t', h₁, hf⟩
      refine safe_txnCommit stable_compacting hI₁ h₁ h₁.txn
        (fun w₂ hI₂ h₂ => h₂.commitOk hI₂ hf hs hS hroom) (fun w₂ hI₂ h₂ _ hI₃ => ?_)
        fun hfail w₂ hI₂ h₂ _ hI₃ => ?_
      · refine safe_envSync stable_switched hI₃ (h₂.switched hf hs hroom) (fun w₄ hI₄ h₄ => ?_)
          fun hfail => absurd hfail hS.sync
        exact safe_pure stable_switched hI₄ h₄ fun w₅ _ h₅ => ⟨ht, h₅⟩
      · exact safe_throw stable_holding hI₃ (h₂.abort (h₂.before hs)) fun w₃ _ h₃ =>
          ⟨ht, rfl, .of_canFail hfail (by simp), h₃⟩
    · exact fun e i' w' _ h => h
  · rintro e i₁ w₁ hI₁ _ ⟨ht, hc, hx, h₁⟩
    refine Eff.Safe.perform fun w₂ hI₂ hR₂ => ?_
    have h₂ := stable_holding w₁ w₂ hI₁ hI₂ hR₂ h₁
    refine step_closeFd hI₂ (Eff.Safe.perform fun w₃ hI₃ hR₃ => ?_)
    have h₃ := stable_holding w₂ w₃ hI₂ hI₃ hR₃ h₂
    have hne := nextGen_ne g
    refine step_unlink hI₃ h₃.lock h₃.gen hne fun hI₄ => ?_
    have hino : ∀ k i, w₃.env.db.gen = .ok k → w₃.fs.ino k = some i →
        (w₃.fs.unlink (nextGen g)).ino k = some i := fun k i hk hi => by
      cases hk.symm.trans h₃.gen
      rw [Fs.ino_unlink, if_neg hne]
      exact hi
    have h₄ : Holding S p i₁ (w₃.setFs (w₃.fs.unlink (nextGen g))) g M w₀ :=
      ⟨⟨h₃.idle.handle.congr rfl hino (Nat.le_refl _), h₃.idle.wtxn, h₃.idle.txn,
        h₃.idle.format⟩, h₃.lock, h₃.gen,
        h₃.before.setFs (World.pack_unlink h₃.gen hne) (fun i hk hi => hino g i hk hi) h₃.gen⟩
    exact safe_throw stable_holding hI₄ h₄ fun w₅ _ h₅ => ⟨ht, hc, hx, h₅⟩

/-- How the `try` block of `compact` ends: `U` says whether the lock is still held. -/
def Outcome (S : Setting) (p : Nat) (live : Bytes → Except Err Bool) (M : Store) (w₀ : World)
    (U : World → Prop) (i : Impl) : Except Err Unit → Impl → World → Prop
  | .ok _, i', w' => i'.thread = i.thread ∧ Idle p i' w' ∧ w'.env.lock ≠ some p ∧
      After S live M w₀ w'
  | .error e, i', w' => i'.thread = i.thread ∧ Idle p i' w' ∧ U w' ∧ e.caught ∧
      (Before S M w₀ w' ∧ Excused S live w₀ ∨ After S live M w₀ w' ∧ ¬S.Reliable)

/-- After the switch only mapping the new pack can still fail. -/
theorem safe_compactEnd {n : Nat} (hI : Inv S p w) (hw : Switched S p i w live g newIno M w₀) :
    Eff.Safe (S.rules p) (Outcome S p live M w₀ (fun _ => True) i) (compactEnd g newIno n) i w := by
  refine Eff.Safe.perform fun w₁ hI₁ hR₁ => ?_
  have h₁ := stable_switched w w₁ hI hI₁ hR₁ hw
  refine step_closeFd hI₁ (Eff.Safe.perform fun w₂ hI₂ hR₂ => ?_)
  have h₂ := stable_switched w₁ w₂ hI₁ hI₂ hR₂ h₁
  have hne : g ≠ nextGen g := (nextGen_ne g).symm
  refine step_unlink hI₂ h₂.lock h₂.gen hne fun hI₃ => ?_
  have hpack := World.pack_unlink (w := w₂) h₂.gen hne
  have hino : ∀ k i, w₂.env.db.gen = .ok k → w₂.fs.ino k = some i →
      (w₂.fs.unlink g).ino k = some i := fun k i hk hi => by
    cases hk.symm.trans h₂.gen
    rw [Fs.ino_unlink, if_neg hne]
    exact hi
  -- what the rest keeps, whatever happens to the mappings
  let P : World → Prop := fun w => ((w.env.lock = some p ∧ w.txn p = none) ∧ w.env.db.Formatted) ∧
    w.env.db.gen = .ok (nextGen g) ∧ w.fs.ino (nextGen g) = some newIno ∧ After S live M w₀ w
  have hP : S.Stable p P := fun w w' hI hI' hR h =>
    ⟨((stable_locked.and (stable_txn none)).and stable_formatted) w w' hI hI' hR h.1,
      (hR.held h.1.1.1).gen.trans h.2.1, (hR.held h.1.1.1).ino _ _ h.2.2.1,
      stable_after w w' hI hI' hR h.2.2.2⟩
  have h₃ : P (w₂.setFs (w₂.fs.unlink g)) := by
    refine ⟨⟨⟨h₂.lock, h₂.idle.txn⟩, h₂.idle.format⟩, h₂.gen, hino _ _ h₂.gen h₂.name, ?_, ?_⟩
    · rw [World.store_setFs hpack]
      exact h₂.after.store
    · intro hc
      have hcc := h₂.after.calm hc
      refine ⟨?_, hcc.records, hcc.gen, fun k hk => ?_⟩
      · rw [hpack]
        exact hcc.swept
      · obtain ⟨j, hj⟩ := hcc.name k hk
        exact ⟨j, hino k j hk hj⟩
  have hh₃ : HandleOk i (w₂.setFs (w₂.fs.unlink g)) := h₂.idle.handle.congr rfl hino (Nat.le_refl _)
  refine safe_seq hI₃ (safe_mappingFor hI₃ hh₃ hP h₃ (fun k hk => ?_) fun _ w h hn _ _ => ?_) ?_ ?_
  · cases hk.symm.trans h₂.gen
    exact Nat.le_refl _
  · rw [h.2.2.1] at hn
    cases hn
  · intro m i₁ w₄ hI₄ h₄
    obtain ⟨hP₄, hh₄, hsame, _⟩ := h₄
    refine Eff.Safe.modify ?_
    have hunlock : S.Stable p fun w => P w ∧ HandleOk i₁ w := hP.and stable_handleOk
    have hrest : S.Stable p fun w => (HandleOk i₁ w ∧ w.txn p = none ∧ w.env.db.Formatted) ∧
        After S live M w₀ w :=
      (stable_handleOk.and ((stable_txn none).and stable_formatted)).and stable_after
    refine (safe_unlockWriter hunlock hrest (fun w _ h => ⟨⟨?_, h.1.1.1.2, h.1.1.2⟩,
      h.1.2.2.2.setLock _⟩) hI₄ ⟨hP₄, hh₄⟩).mono ?_
    · exact HandleOk.congr (w := w) h.2 rfl (fun _ _ _ h => h) (Nat.le_refl _)
    · rintro _ _ w₅ _ ⟨rfl, rfl, h₅, hl₅⟩
      exact ⟨hsame.thread, ⟨h₅.1.1.of_mappings rfl rfl, hsame.wtxn.trans hw.idle.wtxn, h₅.1.2.1,
        h₅.1.2.2⟩, hl₅, h₅.2⟩
  · rintro e i₁ w₄ _ ⟨hP₄, hh₄, hsame, he, c, hf, hc⟩
    exact ⟨hsame.thread, ⟨hh₄, hsame.wtxn.trans hw.idle.wtxn, hP₄.1.1.2, hP₄.1.2⟩, trivial, he,
      .inr ⟨hP₄.2.2.2, fun hrel => hrel.elim hc hf⟩⟩

/-- The `try` block of `compact`. -/
theorem safe_compactLocked (hS : S.Compacts live M) (hI : Inv S p w) (hid : Idle p i w)
    (hl : w.env.lock = some p) (hb : Before S M w₀ w)
    (hroom : ∀ w g, Inv S p w → Before S M w₀ w → w.env.db.gen = .ok g → g + 1 < 2 ^ 64) :
    Eff.Safe (S.rules p) (Outcome S p live M w₀ (fun _ => True) i) (compactLocked live) i w := by
  have hstable : S.Stable p fun w => (Idle p i w ∧ w.env.lock = some p) ∧ Before S M w₀ w :=
    (stable_idle.and stable_locked).and stable_before
  refine safe_txnBegin hstable hI ⟨⟨hid, hl⟩, hb⟩ hid.txn (fun w₁ hI₁ h₁ _ hI₂ => ?_)
    fun hf w₁ _ h₁ => ⟨rfl, h₁.1.1, trivial, rfl, .inl ⟨h₁.2, .of_canFail hf (by simp)⟩⟩
  obtain ⟨g, hg⟩ := hI₁.shape.gen
  have hroom := hroom w₁ g hI₁ h₁.2 hg
  have h₂ : InTxn p i (w₁.setWriter (some (p, w₁.env.db))) g w₁.env.db w₁.env.db :=
    ⟨HandleOk.congr (w := w₁) h₁.1.1.handle rfl (fun _ _ _ h => h) (Nat.le_refl _), h₁.1.1.wtxn,
      h₁.1.2, World.txn_setWriter_self _ _ _, rfl, hg, h₁.1.1.format⟩
  refine safe_seq hI₂ (safe_openScope live hI₂ h₂ (h₁.2.setWriter _)) ?_ ?_
  · rintro _ i₁ w₃ hI₃ ⟨ht₃, ino, newIno, file, rfl, h₃, hs⟩
    refine safe_seq hI₃ (safe_compactSwitch hS hroom hI₃ h₃ hs) ?_ ?_
    · rintro n i₂ w₄ hI₄ ⟨ht₄, h₄⟩
      refine (safe_compactEnd hI₄ h₄).mono ?_
      rintro (e | n) i' w' _ h
      · exact ⟨h.1.trans (ht₄.trans ht₃), h.2⟩
      · exact ⟨h.1.trans (ht₄.trans ht₃), h.2⟩
    · rintro e i₂ w₄ _ ⟨ht₄, hc, hx, h₄⟩
      exact ⟨ht₄.trans ht₃, h₄.idle, trivial, hc, .inl ⟨h₄.before, hx⟩⟩
  · rintro e i₁ w₃ _ ⟨ht₃, hc, hx, h₃⟩
    exact ⟨ht₃, h₃.idle, trivial, hc, .inl ⟨h₃.before, hx⟩⟩

/-! ## `compact` -/

/-- The outcome of a part is one of the whole. -/
theorem Outcome.trans {U : World → Prop} {i₁ : Impl} {x : Except Err Unit}
    (h : Outcome S p live M w₀ U i₁ x i' w') (ht : i₁.thread = i.thread) :
    Outcome S p live M w₀ U i x i' w' := by
  cases x with
  | ok a => exact ⟨h.1.trans ht, h.2⟩
  | error e => exact ⟨h.1.trans ht, h.2⟩

/-- `compact` behind the `sync`. -/
theorem safe_compactLocking (hS : S.Compacts live M) (hI : Inv S p w) (h : AtRest S p i w M)
    (hroom : ∀ w' g, Inv S p w' → Before S M w w' → w'.env.db.gen = .ok g → g + 1 < 2 ^ 64) :
    Eff.Safe (S.rules p) (Outcome S p live M w (fun w => w.env.lock ≠ some p) i)
      (compactLocking live) i w := by
  have hb : Before S M w w := ⟨h.store, fun _ => ⟨rfl, rfl, fun _ _ _ h => h⟩⟩
  refine safe_seq hI (safe_lockWriter
    (P := fun w' => (Idle p i w' ∧ w'.env.lock ≠ some p) ∧ Before S M w w')
    (L := fun w' => Idle p i w' ∧ Before S M w w')
    ((stable_idle.and stable_unlocked).and stable_before) (stable_idle.and stable_before)
    (fun w _ h => ⟨h.1.1.setLock _, h.2.setLock _⟩) hI ⟨⟨h.idle, h.unlocked⟩, hb⟩) ?_ ?_
  · rintro _ _ w₁ hI₁ ⟨rfl, h₁, hl₁⟩
    refine safe_catchAll hI₁ (safe_compactLocked hS hI₁ h₁.1 hl₁ h₁.2 hroom) ?_ ?_ ?_
    · exact fun _ _ _ _ h => h
    · rintro e i₂ w₂ hI₂ _ ⟨ht, hid, _, hc, hend⟩
      have hor : S.Stable p fun w' => Idle p i₂ w' ∧ (Before S M w w' ∧ Excused S live w ∨
          After S live M w w' ∧ ¬S.Reliable) := fun w₁ w₂ hI₁ hI₂ hR h =>
        ⟨h.1.rely hI₁ hR, h.2.imp (.imp_left (stable_before w₁ w₂ hI₁ hI₂ hR))
          (.imp_left (stable_after w₁ w₂ hI₁ hI₂ hR))⟩
      refine safe_seq hI₂ (safe_unlockWriter hor hor (fun w _ h => ⟨h.1.setLock _,
        h.2.imp (.imp_left fun h => h.setLock _) (.imp_left fun h => h.setLock _)⟩) hI₂
        ⟨hid, hend⟩) ?_ ?_
      · rintro _ _ w₃ hI₃ ⟨_, rfl, h₃, hl₃⟩
        exact safe_throw (hor.and stable_unlocked) hI₃ ⟨h₃, hl₃⟩ fun w₄ _ h₄ =>
          ⟨ht, h₄.1.1, h₄.2, hc, h₄.1.2⟩
      · rintro e' _ w₃ _ ⟨hx, _⟩
        cases hx
    · exact fun e _ _ _ hn h => absurd h.2.2.2.1 hn
  · rintro e _ w₁ _ ⟨rfl, h₁, hc, hcalm⟩
    exact ⟨rfl, h₁.1.1, h₁.1.2, hc, .inl ⟨h₁.2, fun hcl => (Excused.of_canFail (hcalm hcl)
      (by simp)) hcl⟩⟩

/-- `compact` of a handle at rest. -/
theorem safe_compact_of_rest (hS : S.Compacts live M) (hI : Inv S p w) (h : AtRest S p i w M)
    (hroom : ∀ w₁ w' g, Inv S p w' → Before S M w₁ w' → w'.env.db.gen = .ok g → g + 1 < 2 ^ 64) :
    Eff.Safe (S.rules p) (fun x i' w' => ∃ w₁, (S.calm → w₁ = w) ∧
      Outcome S p live M w₁ (fun w => w.env.lock ≠ some p) i x i' w') (compact live) i w := by
  have hstable : S.Stable p fun w' => AtRest S p i w' M ∧ (S.calm → w' = w) :=
    stable_atRest.and stable_calm
  have hsync : Eff.Safe (S.rules p) (fun x i' w' => x = .ok () ∧ i' = i ∧ AtRest S p i w' M ∧
      (S.calm → w' = w)) sync i w := by
    refine Eff.Safe.get ?_
    rw [h.idle.wtxn]
    exact safe_pure hstable hI ⟨h, fun _ => rfl⟩ fun w₁ _ h₁ => ⟨rfl, rfl, h₁⟩
  refine safe_seq hI hsync ?_ fun _ _ _ _ h => nomatch h.1
  rintro _ i w₁ hI₁ ⟨_, rfl, h₁, hc₁⟩
  exact (safe_compactLocking hS hI₁ h₁ (hroom w₁)).mono fun x i' w' _ h => ⟨w₁, hc₁, h⟩

/-- `compact` of a handle with a batch commits it first, if the process may. -/
theorem safe_compact_of_batch_of {b : Nat} {M0 : Store} (hsound : S.sound) (hkeep : S.Kg M0 M)
    (hS : S.Compacts live M) (hI : Inv S p w) (h : InBatch S p i w M0 M b)
    (hroom : ∀ w₁ w' g, Inv S p w' → Before S M w₁ w' → w'.env.db.gen = .ok g → g + 1 < 2 ^ 64) :
    Eff.Safe (S.rules p) (fun x i' w' => ∃ w₁, (S.calm → w₁.pack = w.pack) ∧
      Outcome S p live M w₁ (fun w => w.env.lock ≠ some p) i x i' w') (compact live) i w := by
  refine safe_seq hI (safe_sync_batch_of hsound hkeep hI h) ?_ fun _ _ _ _ h => nomatch h.1
  rintro _ i₁ w₁ hI₁ ⟨_, ht, h₁, hc₁⟩
  exact (safe_compactLocking hS hI₁ h₁ (hroom w₁)).mono fun x i' w' _ h => ⟨w₁, hc₁, h.trans ht⟩

/-- `compact` of a handle with a batch. -/
theorem safe_compact_of_batch {b : Nat} {M0 : Store} (hsound : S.sound) (hgrow : S.Grows)
    (hS : S.Compacts live M) (hI : Inv S p w) (h : InBatch S p i w M0 M b)
    (hroom : ∀ w₁ w' g, Inv S p w' → Before S M w₁ w' → w'.env.db.gen = .ok g → g + 1 < 2 ^ 64) :
    Eff.Safe (S.rules p) (fun x i' w' => ∃ w₁, (S.calm → w₁.pack = w.pack) ∧
      Outcome S p live M w₁ (fun w => w.env.lock ≠ some p) i x i' w') (compact live) i w :=
  safe_compact_of_batch_of hsound (hgrow _ _ (h.le_store hsound)) hS hI h hroom

end Tarmac.PackCas
