import Tarmac.PackCas.Compact

/-!
# Opening and closing

`open_once` commits the format record, removes the packs of other generations if it gets the lock, and
maps the pack of the generation it read. In a store that has `Shape` it throws only where a call fails,
and leaves the committed store alone then (`safe_openOnce`); so where no call fails the directory is
never wiped (`safe_open`). It is harmless where the generation `open` read is still the committed one
when it lists the directory (`Setting.Fresh`); the code does not ensure this itself. A handle that is
closed with a batch aborts it (`safe_destroy_batch`).
-/

namespace Tarmac.PackCas

variable {S : Setting} {p : Nat} {w w' w₀ : World} {i i' : Impl} {g : Nat} {db t : Db} {M : Store}

/-- When a process lists the directory to clean up, the generation it remembers is committed. -/
def Setting.Fresh (S : Setting) : Prop :=
  S.pinned ∨ ∀ g w, S.allow (.listPacks g) w w → w.env.db.gen = .ok g

/-- The committed blobs, records and pack of `w` are those of `w₀`, and the pack is the same file. -/
structure Same (w₀ w : World) : Prop where
  gen : w.env.db.gen = w₀.env.db.gen
  blobs : w.env.db.blobs = w₀.env.db.blobs
  records : w.env.db.records = w₀.env.db.records
  pack : w.pack = w₀.pack
  format : w₀.env.db.Formatted → w.env.db.Formatted
  ino : ∀ k j, w₀.env.db.gen = .ok k → w₀.fs.ino k = some j → w.fs.ino k = some j

/-- Neither the files nor the committed tables have changed. -/
theorem Same.of_eq (hfs : w'.fs = w.fs) (hdb : w'.env.db = w.env.db) : Same w w' := by
  refine ⟨?_, ?_, ?_, ?_, ?_, ?_⟩
  · rw [hdb]
  · rw [hdb]
  · rw [hdb]
  · rw [World.pack, World.pack, hfs, hdb]
  · rw [hdb]
    exact id
  · rw [hfs]
    exact fun _ _ _ h => h

/-- What stays the same stays so from step to step. -/
theorem Same.trans (h : Same w₀ w) (h' : Same w w') : Same w₀ w' where
  gen := h'.gen.trans h.gen
  blobs := h'.blobs.trans h.blobs
  records := h'.records.trans h.records
  pack := h'.pack.trans h.pack
  format hf := h'.format (h.format hf)
  ino k j hk hj := h'.ino k j (h.gen.trans hk) (h.ino k j hk hj)

/-- The committed store is that of `w₀`, where `M` was the store, as far as the others allow. -/
structure Kept (S : Setting) (M : Store) (w₀ w : World) : Prop where
  store : S.Kr M (w.store S.ext)
  same : S.calm → Same w₀ w

/-- The store is kept whatever the other processes do. -/
theorem stable_kept : S.Stable p (Kept S M w₀) := fun _ _ _ _ hR h =>
  ⟨S.Kr_trans h.store hR.store, fun hc => (hR.calm hc).symm ▸ h.same hc⟩

/-- It is kept where index and pack are the same. -/
theorem Kept.congr (h : Kept S M w₀ w) (hs : Same w w') : Kept S M w₀ w' where
  store := by
    have heq : w'.store S.ext = w.store S.ext := by
      rw [World.store, World.store, storeOf, storeOf, hs.pack, hs.blobs, hs.records, hs.gen]
    rw [heq]
    exact h.store
  same hc := (h.same hc).trans hs

/-- A process without a handle, on the store `M`. -/
structure Closed (S : Setting) (p : Nat) (w : World) (M : Store) (w₀ : World) : Prop where
  txn : w.txn p = none
  unlocked : w.env.lock ≠ some p
  kept : Kept S M w₀ w

/-- A closed handle stays closed. -/
theorem stable_closed : S.Stable p fun w => Closed S p w M w₀ := fun w w' hI hI' hR h =>
  ⟨hR.txn.trans h.txn, fun hl => h.unlocked (hR.lock.1 hl), stable_kept w w' hI hI' hR h.kept⟩

/-! ## `check_format` -/

/-- Tables that differ in the format record at most, which `t` has. -/
structure Checked (db t : Db) : Prop where
  gen : t.gen = db.gen
  blobs : t.blobs = db.blobs
  records : t.records = db.records
  format : t.Formatted

/-- Tables of the right format pass the check. -/
theorem Checked.refl (h : db.Formatted) : Checked db db := ⟨rfl, rfl, rfl, h⟩

/-- Empty tables get their format and generation. -/
theorem Checked.put (db : Db) :
    Checked db { db with metaTable := db.metaTable.insert formatKey kFormat } where
  gen := by
    rw [Db.gen, Db.gen, SortedMap.find?_insert, if_neg (by decide)]
  blobs := rfl
  records := by
    refine SortedMap.ext_find? fun k => ?_
    rw [Db.records, Db.records, SortedMap.find?_filter, SortedMap.find?_filter,
      SortedMap.find?_insert]
    split
    · next hk =>
      subst hk
      cases db.metaTable.find? formatKey <;> simp
    · rfl
  format := by
    rw [Db.Formatted, SortedMap.find?_insert, if_pos rfl]

/-- `open` in its transaction. -/
structure Entering (S : Setting) (p : Nat) (w : World) (M : Store) (w₀ : World) (db t : Db) :
    Prop where
  txn : w.txn p = some t
  wdb : w.env.db = db
  unlocked : w.env.lock ≠ some p
  kept : Kept S M w₀ w

/-- Other processes leave `open` to its transaction. -/
theorem stable_entering : S.Stable p fun w => Entering S p w M w₀ db t :=
  fun w w' hI hI' hR h =>
    have hdb := stable_db w w' hI hI' hR ⟨h.txn, h.wdb⟩
    ⟨hdb.1, hdb.2, fun hl => h.unlocked (hR.lock.1 hl), stable_kept w w' hI hI' hR h.kept⟩

/-- The working copy does not matter until the commit. -/
theorem Entering.setWriter {t' : Db} (h : Entering S p w M w₀ db t) :
    Entering S p (w.setWriter (some (p, t'))) M w₀ db t' :=
  ⟨World.txn_setWriter_self _ _ _, h.wdb, h.unlocked, h.kept.congr (.of_eq rfl rfl)⟩

/-- What a part of `open_once` ends in: it returns in `Q`, or it throws in `E`, and then a call failed. -/
def Proceeds {α : Type} (S : Setting) (Q : α → Impl → World → Prop) (E : World → Prop) :
    Except Err α → Impl → World → Prop
  | .ok a, i, w => Q a i w
  | .error e, _, w => (¬S.Reliable ∧ e.caught) ∧ E w

/-- Where another call than `pwrite` may fail the setting is not reliable. -/
theorem Setting.not_reliable {c : Call} (hc : ∀ i off d, c ≠ .pwrite i off d) (hf : S.CanFail c) :
    ¬S.Reliable := fun hrel => hrel.elim hc hf

/-- `check_format` accepts tables of this format, and makes new ones such. -/
theorem safe_checkFormat (hI : Inv S p w) (hw : Entering S p w M w₀ db db) :
    Eff.Safe (S.rules p) (Proceeds S
      (fun _ i' w' => i' = i ∧ ∃ t, Checked db t ∧ Entering S p w' M w₀ db t)
      fun w' => ∃ t, Entering S p w' M w₀ db t) (checkFormat db) i w := by
  refine safe_mdbRead stable_entering hI hw (fun w₁ hI₁ h₁ => ?_)
    fun hf _ _ h => ⟨⟨S.not_reliable (by simp) hf, rfl⟩, _, h⟩
  have hfmt := hI₁.shape.format
  rw [h₁.wdb] at hfmt
  rcases hfmt with hf | ⟨hnone, hnil⟩
  · rw [show db.metaTable.find? formatKey = some kFormat from hf]
    dsimp only
    rw [if_neg (not_not.2 rfl)]
    exact safe_pure stable_entering hI₁ h₁ fun w₂ _ h₂ => ⟨rfl, db, .refl hf, h₂⟩
  · rw [hnone]
    refine safe_mdbRead stable_entering hI₁ h₁ (fun w₂ hI₂ h₂ => ?_)
      fun hf _ _ h => ⟨⟨S.not_reliable (by simp) hf, rfl⟩, _, h⟩
    rw [if_neg (not_not.2 hnil)]
    have hput : Eff.Safe (S.rules p) (Proceeds S
        (fun _ i' w' => i' = i ∧ ∃ t, Checked db t ∧ Entering S p w' M w₀ db t)
        fun w' => ∃ t, Entering S p w' M w₀ db t)
        ((perform (.txnPut .metaTable formatKey kFormat true) >>= mdbCheck "mdb_put format") >>=
          pure) i w₂ := by
      refine safe_txnPut (.inl rfl) stable_entering hI₂ h₂ h₂.txn (fun w₃ _ h₃ _ hI₄ => ?_)
        fun hf _ _ h _ => ⟨⟨S.not_reliable (by simp) hf, rfl⟩, _, h⟩
      exact safe_pure stable_entering hI₄ h₃.setWriter fun w₅ _ h₅ => ⟨rfl, _, .put db, h₅⟩
    rwa [bind_pure] at hput

/-- The scope of the opening transaction, left by an exception, ends the transaction. -/
theorem safe_enteringScope (db : Db) {α : Type} {m : CasM α} {Q : α → Impl → World → Prop} (hI : Inv S p w)
    (hm : Eff.Safe (S.rules p) (Proceeds S Q fun w' => ∃ t, Entering S p w' M w₀ db t) m i w) :
    Eff.Safe (S.rules p) (Proceeds S Q fun w' => Closed S p w' M w₀) (txnScope m) i w := by
  refine safe_catchAll hI hm (fun _ _ _ _ h => h) ?_ fun e _ _ _ hn h => absurd h.1.2 hn
  rintro e i' w' hI' hc ⟨hfail, t, ht⟩
  refine safe_txnAbort stable_entering hI' ht ht.txn fun w₁ _ h₁ _ hI₂ => ?_
  have hclosed : Closed S p (w₁.setWriter none) M w₀ :=
    ⟨rfl, h₁.unlocked, h₁.kept.congr (.of_eq rfl rfl)⟩
  exact safe_throw stable_closed hI₂ hclosed fun w₂ _ h₂ => ⟨hfail, h₂⟩

/-- The opening transaction may be committed. -/
theorem Entering.commitOk (hI : Inv S p w) (h : Entering S p w M w₀ db t) (hc : Checked db t) :
    CommitOk S p w t := by
  have hgen : t.gen = w.env.db.gen := by rw [hc.gen, h.wdb]
  refine .of_blobs hI hgen (by rw [hc.blobs, h.wdb]) hc.format fun _ => ?_
  have hst : (w.commit t).store S.ext = w.store S.ext := by
    rw [World.store, World.store, World.pack_commit hgen, storeOf, storeOf, h.wdb]
    change Store.mk (tableMap S.ext w.pack t.blobs) t.records (t.gen.toOption.getD 0) = _
    rw [hc.blobs, hc.records, hc.gen]
  rw [hst]
  exact S.Kg_refl _

/-- `open` after its transaction: `g` is the generation it read. -/
structure Entered (S : Setting) (p : Nat) (w : World) (M : Store) (w₀ : World) (g : Nat) :
    Prop where
  txn : w.txn p = none
  format : w.env.db.Formatted
  kept : Kept S M w₀ w
  le : ∀ k, w.env.db.gen = .ok k → g ≤ k
  gen : w.env.db.gen = .ok g ∨ w.Named
  pinned : S.pinned → w.env.db.gen = .ok g

/-- Other processes leave the generation that was read. -/
theorem stable_entered : S.Stable p fun w => Entered S p w M w₀ g := fun w w' hI hI' hR h => by
  refine ⟨hR.txn.trans h.txn, hR.format h.format, stable_kept w w' hI hI' hR h.kept,
    fun k hk => ?_, ?_, fun hp => (hR.pinned hp).trans (h.pinned hp)⟩
  · obtain ⟨k₀, hk₀⟩ := hI.shape.gen
    exact (h.le k₀ hk₀).trans (hR.gen k₀ k hk₀ hk)
  · rcases h.gen with hg | hn
    · by_cases heq : w'.env.db.gen = w.env.db.gen
      · exact .inl (heq.trans hg)
      · exact .inr (hR.named (.inr heq))
    · exact .inr (hR.named (.inl hn))

/-- The lock does not matter to it. -/
theorem Entered.setLock (h : Entered S p w M w₀ g) (l : Option Nat) :
    Entered S p (w.setLock l) M w₀ g :=
  ⟨h.txn, h.format, h.kept.congr (.of_eq rfl rfl), h.le, h.gen, h.pinned⟩

/-- Files other than the committed pack do not matter. -/
theorem Entered.setFs (h : Entered S p w M w₀ g) {fs : Fs} (hp : (w.setFs fs).pack = w.pack)
    (hino : ∀ k i, w.env.db.gen = .ok k → w.fs.ino k = some i → fs.ino k = some i) :
    Entered S p (w.setFs fs) M w₀ g :=
  ⟨h.txn, h.format, h.kept.congr ⟨rfl, rfl, rfl, hp, id, hino⟩, h.le,
    h.gen.imp_right fun ⟨k, i, hk, hi⟩ => ⟨k, i, hk, hino k i hk hi⟩, h.pinned⟩

/-- The commit of tables that pass the check enters the directory. -/
theorem Entering.entered (h : Entering S p w M w₀ db t) (hc : Checked db t)
    (hg : db.gen = .ok g) : Entered S p (w.commit t) M w₀ g := by
  have hgen : (w.commit t).env.db.gen = .ok g := hc.gen.trans hg
  refine ⟨rfl, hc.format, h.kept.congr ⟨?_, ?_, ?_, ?_, fun _ => hc.format, fun _ _ _ hj => hj⟩,
    fun k hk => ?_, .inl hgen, fun _ => hgen⟩
  · rw [h.wdb]
    exact hc.gen
  · rw [h.wdb]
    exact hc.blobs
  · rw [h.wdb]
    exact hc.records
  · simp only [World.pack, World.commit, h.wdb, hc.gen]
  · cases hk.symm.trans hgen
    exact Nat.le_refl _

/-! ## `cleanup_orphans` -/

/-- The packs are listed as they are. -/
theorem step_listPacks {k : Except Errno (List Nat) → World → Prop} (hI : Inv S p w)
    (h : S.allow (.listPacks g) w w → k (.ok (w.fs.names.map Prod.fst)) w)
    (herr : S.CanFail (.listPacks g) → k (.error .io) w) :
    (S.rules p).Step (.listPacks g) k w := by
  refine step_of_exec (by simp) fun ch r w' hch hx ha he => ?_
  cases he
  have ⟨h₁, h₂, _⟩ := (Quiet.refl hI).step hI hx
  refine ⟨h₁, h₂, ?_⟩
  obtain ⟨fail, more⟩ := ch
  cases fail with
  | true => exact herr ⟨more, hch⟩
  | false => exact h ha

/-- `cleanup_orphans` under the lock, with the files left to look at. -/
structure Cleaning (S : Setting) (p : Nat) (w : World) (M : Store) (w₀ : World) (g : Nat)
    (names : List Nat) : Prop where
  entered : Entered S p w M w₀ g
  lock : w.env.lock = some p
  gen : w.env.db.gen = .ok g
  left : S.calm → ∀ k i, w.fs.ino k = some i → k = g ∨ k ∈ names

/-- Nobody else changes the names while the lock is held. -/
theorem stable_cleaning {names : List Nat} : S.Stable p fun w => Cleaning S p w M w₀ g names :=
  fun w w' hI hI' hR h => ⟨stable_entered w w' hI hI' hR h.entered, hR.lock.2 h.lock,
    (hR.held h.lock).gen.trans h.gen, fun hc => (hR.calm hc).symm ▸ h.left hc⟩

/-- One orphan is removed. -/
theorem Cleaning.unlink {k : Nat} {names : List Nat} (h : Cleaning S p w M w₀ g (k :: names))
    (hne : k ≠ g) : Cleaning S p (w.setFs (w.fs.unlink k)) M w₀ g names where
  entered := h.entered.setFs (World.pack_unlink h.gen hne) fun l i hl hi => by
    cases hl.symm.trans h.gen
    rw [Fs.ino_unlink, if_neg hne]
    exact hi
  lock := h.lock
  gen := h.gen
  left hc l i hi := by
    have hi : (w.fs.unlink k).ino l = some i := hi
    rw [Fs.ino_unlink] at hi
    split at hi
    · cases hi
    · next hkl =>
      rcases h.left hc l i hi with hl | hl
      · exact .inl hl
      · exact .inr ((List.mem_cons.1 hl).resolve_left (Ne.symm hkl))

/-- The orphans among the listed packs are removed, one by one. -/
theorem safe_unlinkOrphans (names : List Nat) {w : World} (hI : Inv S p w)
    (hw : Cleaning S p w M w₀ g names) :
    Eff.Safe (S.rules p) (fun x i' w' => x = .ok () ∧ i' = i ∧ Cleaning S p w' M w₀ g [])
      (unlinkOrphans g names) i w := by
  induction names generalizing w with
  | nil => exact safe_pure stable_cleaning hI hw fun w₁ _ h₁ => ⟨rfl, rfl, h₁⟩
  | cons k rest ih =>
    rw [unlinkOrphans]
    split
    · next hne =>
      refine Eff.Safe.perform fun w₁ hI₁ hR₁ => ?_
      have h₁ := stable_cleaning w w₁ hI hI₁ hR₁ hw
      exact step_unlink hI₁ h₁.lock h₁.gen hne fun hI₂ => ih hI₂ (h₁.unlink hne)
    · next heq =>
      have heq := not_not.1 heq
      refine ih hI { hw with left := fun hc l i hl => ?_ }
      rcases hw.left hc l i hl with hlg | hm
      · exact .inl hlg
      · exact (List.mem_cons.1 hm).imp_left (·.trans heq)

/-- `open` before it maps the pack. -/
structure Cleaned (S : Setting) (p : Nat) (w : World) (M : Store) (w₀ : World) (g : Nat) :
    Prop where
  entered : Entered S p w M w₀ g
  unlocked : w.env.lock ≠ some p
  only : S.Reliable → S.calm → ∀ k i, w.fs.ino k = some i → k = g

/-- What was cleaned up stays so. -/
theorem stable_cleaned : S.Stable p fun w => Cleaned S p w M w₀ g := fun w w' hI hI' hR h =>
  ⟨stable_entered w w' hI hI' hR h.entered, fun hl => h.unlocked (hR.lock.1 hl),
    fun hrel hc => (hR.calm hc).symm ▸ h.only hrel hc⟩

/-- `open` when an exception has left its body. -/
structure Left (S : Setting) (p : Nat) (w : World) (M : Store) (w₀ : World) : Prop where
  txn : w.txn p = none
  kept : Kept S M w₀ w

/-- What an `open` that throws leaves is stable. -/
theorem stable_left : S.Stable p fun w => Left S p w M w₀ := fun w w' hI hI' hR h =>
  ⟨hR.txn.trans h.txn, stable_kept w w' hI hI' hR h.kept⟩

/-- A handle that was never opened leaves the directory as it is. -/
theorem Closed.left (h : Closed S p w M w₀) : Left S p w M w₀ := ⟨h.txn, h.kept⟩

theorem Entered.left (h : Entered S p w M w₀ g) : Left S p w M w₀ := ⟨h.txn, h.kept⟩

/-- The cleanup, if the lock is free; otherwise nothing. -/
theorem safe_cleanupIfFree (hfresh : S.Fresh) (hI : Inv S p w) (hw : Entered S p w M w₀ g)
    (hl : w.env.lock ≠ some p) :
    Eff.Safe (S.rules p) (Proceeds S (fun _ i' w' => i' = i ∧ Cleaned S p w' M w₀ g)
      fun w' => Left S p w' M w₀) (cleanupIfFree g) i w := by
  refine Eff.Safe.perform fun w₁ hI₁ hR₁ => ?_
  have h₁ := stable_entered w w₁ hI hI₁ hR₁ hw
  have hl₁ : w₁.env.lock ≠ some p := fun h => hl (hR₁.lock.1 h)
  refine step_flockTry hI₁ (fun _ hI₂ => ?_) (fun hc => ?_) fun hf => ?_
  · have h₂ : Entered S p (w₁.setLock (some p)) M w₀ g ∧ (w₁.setLock (some p)).env.lock = some p :=
      ⟨h₁.setLock _, rfl⟩
    have hclean : Eff.Safe (S.rules p) (Proceeds S (fun _ i' w' => i' = i ∧
        Cleaning S p w' M w₀ g []) fun w' => Left S p w' M w₀) (cleanupOrphans g) i
        (w₁.setLock (some p)) := by
      refine safe_call (stable_entered.and stable_locked) hI₂ h₂ fun w₃ hI₃ h₃ =>
        step_listPacks hI₃ (fun ha => ?_) fun hf => ?_
      · refine (safe_unlinkOrphans _ hI₃ ⟨h₃.1, h₃.2, ?_, fun _ k j hk => ?_⟩).mono ?_
        · exact hfresh.elim h₃.1.pinned fun h => h g w₃ ha
        · exact .inr (Fs.mem_names_of_ino hk)
        · rintro _ _ _ _ ⟨rfl, h⟩
          exact h
      · exact safe_throw stable_entered hI₃ h₃.1 fun _ _ h =>
          ⟨⟨S.not_reliable (by simp) hf, rfl⟩, h.left⟩
    refine safe_seq hI₂ hclean ?_ fun e i' w' _ h => h
    rintro _ _ w₃ hI₃ ⟨rfl, h₃⟩
    have hstable : S.Stable p fun w => Entered S p w M w₀ g ∧
        (S.calm → ∀ k i, w.fs.ino k = some i → k = g) := stable_entered.and stable_calm
    refine (safe_unlockWriter hstable hstable (fun w _ h => ⟨h.1.setLock _, h.2⟩) hI₃
      ⟨h₃.entered, fun hc k j hk => (h₃.left hc k j hk).resolve_right (by simp)⟩).mono ?_
    rintro _ _ w₄ _ ⟨rfl, rfl, h₄, hl₄⟩
    exact ⟨rfl, h₄.1, hl₄, fun _ => h₄.2⟩
  · exact safe_pure stable_cleaned hI₁ ⟨h₁, hl₁, fun _ h => absurd h hc⟩ fun w₂ _ h₂ => ⟨rfl, h₂⟩
  · have hrel := S.not_reliable (by simp) hf
    exact safe_pure stable_cleaned hI₁ ⟨h₁, hl₁, fun h => absurd h hrel⟩ fun w₂ _ h₂ => ⟨rfl, h₂⟩

/-! ## `open` -/

/-- A new handle. -/
def Impl.New (i : Impl) : Prop := i.cur = none ∧ i.retired = [] ∧ i.wtxn = false

/-- What `open` ends in: a handle at rest, on a store that is as it was. -/
structure Opened (S : Setting) (p : Nat) (i : Impl) (w : World) (M : Store) (w₀ : World) :
    Prop where
  rest : AtRest S p i w M
  named : w.Named
  same : S.calm → Same w₀ w
  only : S.Reliable → S.calm → ∀ k j, w.fs.ino k = some j → w.env.db.gen = .ok k

/-- A new handle has its mappings in order. -/
theorem Impl.New.handleOk (hi : i.New) : HandleOk i w := by
  refine ⟨fun m hm => ?_, fun c hc => ?_, fun _ => hi.2.1⟩
  · rw [Impl.mappings, hi.1, hi.2.1] at hm
    cases hm
  · rw [hi.1] at hc
    cases hc

/-- The opening transaction up to its commit. -/
theorem safe_openTxn (hI : Inv S p w) (hw : Entering S p w M w₀ db db) (hg : db.gen = .ok g) :
    Eff.Safe (S.rules p) (Proceeds S
      (fun n i' w' => n = g ∧ i' = i ∧ ∃ t, Checked db t ∧ Entering S p w' M w₀ db t)
      fun w' => Closed S p w' M w₀)
      (txnScope do
        perform .mdbRead >>= mdbCheck "dbi_open"
        perform .mdbRead >>= mdbCheck "dbi_open"
        let db ← perform .txnDb >>= mdbCheck "mdb_get format"
        checkFormat db
        readGen db) i w := by
  refine safe_enteringScope db hI ?_
  refine safe_mdbRead stable_entering hI hw (fun w₁ hI₁ h₁ => ?_)
    fun hf _ _ h => ⟨⟨S.not_reliable (by simp) hf, rfl⟩, _, h⟩
  refine safe_mdbRead stable_entering hI₁ h₁ (fun w₂ hI₂ h₂ => ?_)
    fun hf _ _ h => ⟨⟨S.not_reliable (by simp) hf, rfl⟩, _, h⟩
  refine safe_txnDb stable_entering hI₂ h₂ h₂.txn fun w₃ hI₃ h₃ _ => ?_
  refine safe_seq hI₃ (safe_checkFormat hI₃ h₃) ?_ fun _ _ _ _ h => h
  rintro _ _ w₄ hI₄ ⟨rfl, t, hc, h₄⟩
  refine safe_mdbRead stable_entering hI₄ h₄ (fun w₅ hI₅ h₅ => ?_)
    fun hf _ _ h => ⟨⟨S.not_reliable (by simp) hf, rfl⟩, _, h⟩
  rw [hg]
  exact safe_pure stable_entering hI₅ h₅ fun w₆ _ h₆ => ⟨rfl, rfl, t, hc, h₆⟩

/-- The end of `open_once`: the pack is mapped. -/
theorem safe_openMapping (hI : Inv S p w) (hi : i.New) (hw : Cleaned S p w M w₀ g) :
    Eff.Safe (S.rules p) (Proceeds S
      (fun _ i' w' => i'.thread = i.thread ∧ Opened S p i' w' M w₀) fun w' => Left S p w' M w₀)
      (mappingFor g true >>= fun m =>
        match m with
        | some _ => pure ()
        | none => Eff.throw (.runtime "cannot map pack")) i w := by
  refine safe_seq hI (safe_mappingFor hI hi.handleOk stable_cleaned hw hw.entered.le
    fun _ w h hn hI' hpk => ?_) ?_ ?_
  · refine ⟨h.entered.setFs hpk fun k j _ => Fs.ino_create_of_some hn, h.unlocked,
      fun hrel hc k j hk => ?_⟩
    have hk : (w.fs.create g).ino k = some j := hk
    rw [Fs.ino_create] at hk
    split at hk
    · next heq => exact heq.symm
    · exact h.only hrel hc k j hk
  · rintro (_ | m) i₁ w₁ hI₁ ⟨h₁, hh₁, hsame, h⟩
    · cases h.1
    · obtain ⟨rfl, hm⟩ := h
      refine safe_pure (stable_cleaned.and stable_handleOk) hI₁ ⟨h₁, hh₁⟩ fun w₂ _ h₂ => ?_
      obtain ⟨h₂, hh₂⟩ := h₂
      have he := h₂.entered
      refine ⟨hsame.thread, ⟨⟨hh₂, hsame.wtxn.trans hi.2.2, he.txn, he.format⟩, he.kept.store,
        h₂.unlocked⟩, ?_, he.kept.same, fun hrel hcalm k j hk => ?_⟩
      · exact he.gen.elim (fun hgen => ⟨_, _, hgen, (hh₂.map m hm).ino hgen⟩) id
      · have hkg := h₂.only hrel hcalm k j hk
        rcases he.gen with hgen | ⟨l, j', hgen, hl⟩
        · rw [hkg, hgen]
        · rw [hkg, hgen, h₂.only hrel hcalm l j' hl]
  · rintro e i₁ w₁ _ ⟨h₁, _, _, he, c, hf, hne⟩
    exact ⟨⟨S.not_reliable hne hf, he⟩, h₁.entered.left⟩

/-- The body of `open_once` opens the directory, or throws and leaves the store. -/
theorem safe_openBody (hfresh : S.Fresh) (hI : Inv S p w) (hi : i.New) (hw : Closed S p w M w₀) :
    Eff.Safe (S.rules p) (Proceeds S
      (fun _ i' w' => i'.thread = i.thread ∧ Opened S p i' w' M w₀) fun w' => Left S p w' M w₀)
      openBody i w := by
  refine safe_ask (c := .createDirs) id (fun _ => ()) id (fun _ _ => rfl) (by simp) (fun _ => rfl)
    rfl stable_closed hI hw (fun w₁ hI₁ h₁ => ?_)
    fun hf _ _ h => ⟨⟨S.not_reliable (by simp) hf, rfl⟩, h.left⟩
  refine safe_askMdb (c := .envOpen) id (fun _ => ()) (fun _ _ => rfl) (by simp) (fun _ => rfl)
    stable_closed hI₁ h₁ (fun w₂ hI₂ h₂ => ?_)
    fun hf _ _ h => ⟨⟨S.not_reliable (by simp) hf, rfl⟩, h.left⟩
  refine safe_txnBegin stable_closed hI₂ h₂ h₂.txn (fun w₃ hI₃ h₃ _ hI₄ => ?_)
    fun hf _ _ h => ⟨⟨S.not_reliable (by simp) hf, rfl⟩, h.left⟩
  obtain ⟨g, hg⟩ := hI₃.shape.gen
  have h₄ : Entering S p (w₃.setWriter (some (p, w₃.env.db))) M w₀ w₃.env.db w₃.env.db :=
    ⟨World.txn_setWriter_self _ _ _, rfl, h₃.unlocked, h₃.kept.congr (.of_eq rfl rfl)⟩
  refine safe_seq hI₄ (safe_openTxn hI₄ h₄ hg) ?_ fun _ _ _ _ h => ⟨h.1, h.2.left⟩
  rintro n i w₅ hI₅ ⟨rfl, rfl, t, hc, h₅⟩
  refine safe_txnCommit stable_entering hI₅ h₅ h₅.txn (fun w₆ hI₆ h₆ => h₆.commitOk hI₆ hc)
    (fun w₆ hI₆ h₆ _ hI₇ => ?_) fun hf w₆ _ h₆ _ hI₇ => ?_
  · have h₇ : Entered S p (w₆.commit t) M w₀ n ∧ (w₆.commit t).env.lock ≠ some p :=
      ⟨h₆.entered hc hg, h₆.unlocked⟩
    refine safe_ask (c := .openLock) id (fun _ => ()) id (fun _ _ => rfl) (by simp) (fun _ => rfl)
      rfl (stable_entered.and stable_unlocked) hI₇ h₇ (fun w₈ hI₈ h₈ => ?_)
      fun hf _ _ h => ⟨⟨S.not_reliable (by simp) hf, rfl⟩, h.1.left⟩
    refine safe_seq hI₈ (safe_cleanupIfFree hfresh hI₈ h₈.1 h₈.2) ?_ fun _ _ _ _ h => h
    rintro _ i w₉ hI₉ ⟨rfl, h₉⟩
    exact safe_openMapping hI₉ hi h₉
  · have hleft : Left S p (w₆.setWriter none) M w₀ := ⟨rfl, h₆.kept.congr (.of_eq rfl rfl)⟩
    exact safe_throw stable_left hI₇ hleft fun _ _ h => ⟨⟨S.not_reliable (by simp) hf, rfl⟩, h⟩

/-- `open_once` returns a handle at rest and changes no blob; it throws only where a call fails, and then
it has changed no blob either. -/
theorem safe_openOnce (hfresh : S.Fresh) (hI : Inv S p w) (hi : i.New) (hw : Closed S p w M w₀) :
    Eff.Safe (S.rules p) (Proceeds S
      (fun _ i' w' => i'.thread = i.thread ∧ Opened S p i' w' M w₀) fun w' => Closed S p w' M w₀)
      openOnce i w := by
  refine safe_catchAll hI (safe_openBody hfresh hI hi hw) (fun _ _ _ _ h => h) ?_
    fun e _ _ _ hn h => absurd h.1.2 hn
  rintro e i' w' hI' hc ⟨hfail, h⟩
  refine safe_flockUn stable_left hI' h fun w₁ _ h₁ hI₂ => ?_
  have hclosed : Closed S p (w₁.unlock p) M w₀ :=
    ⟨h₁.txn, World.lock_unlock_ne w₁ p, h₁.kept.congr (.of_eq rfl rfl)⟩
  exact safe_throw stable_closed hI₂ hclosed fun _ _ h₂ => ⟨hfail, h₂⟩

/-- Where no call fails, `open` returns a handle at rest and changes no blob; it does not have to wipe
the directory. -/
theorem safe_open (hrel : S.Reliable) (hfresh : S.Fresh) (hI : Inv S p w) (hi : i.New)
    (hw : Closed S p w M w₀) :
    Eff.Safe (S.rules p) (fun x i' w' => x = .ok () ∧ i'.thread = i.thread ∧
      Opened S p i' w' M w₀) open_ i w :=
  safe_catchAll hI (safe_openOnce hfresh hI hi hw) (fun _ _ _ _ h => ⟨rfl, h⟩)
    (fun _ _ _ _ _ h => absurd hrel h.1.1) fun _ _ _ _ _ h => absurd hrel h.1.1

/-! ## `~Impl` -/

/-- What `~Impl` leaves of a handle. -/
def Impl.closed (i : Impl) : Impl := { thread := i.thread }

/-- A handle is new after it was closed. -/
theorem Impl.new_closed (i : Impl) : i.closed.New := ⟨rfl, rfl, rfl⟩

/-- A handle at rest is closed without a trace. -/
theorem safe_destroy_rest (hI : Inv S p w) (h : AtRest S p i w M) :
    Eff.Safe (S.rules p) (fun x i' w' => x = .ok () ∧ i' = i.closed ∧ Closed S p w' M w ∧
      (S.calm → w'.env.db = w.env.db ∧ w'.fs = w.fs)) destroy i w := by
  let P : World → Prop := fun w' => (w'.txn p = none ∧ Kept S M w w') ∧
    (S.calm → w'.env.db = w.env.db ∧ w'.fs = w.fs)
  have hP : S.Stable p P := ((stable_txn none).and stable_kept).and stable_calm
  have hw : P w := ⟨⟨h.idle.txn, h.store, fun _ => .of_eq rfl rfl⟩, fun _ => ⟨rfl, rfl⟩⟩
  refine Eff.Safe.get ?_
  rw [h.idle.wtxn]
  refine safe_flockUn hP hI hw fun w₁ _ h₁ hI₂ => Eff.Safe.modify_last ?_
  have h₂ : P (w₁.unlock p) ∧ (w₁.unlock p).env.lock ≠ some p :=
    ⟨⟨⟨h₁.1.1, h₁.1.2.congr (.of_eq rfl rfl)⟩, h₁.2⟩, World.lock_unlock_ne w₁ p⟩
  exact safe_pure (hP.and stable_unlocked) hI₂ h₂ fun w₃ _ h₃ =>
    ⟨rfl, rfl, ⟨h₃.1.1.1, h₃.2, h₃.1.1.2⟩, h₃.1.2⟩

/-- A handle with a batch is closed by aborting the batch. -/
theorem safe_destroy_batch (hS : S.sound) (hI : Inv S p w) {M' : Store} {b : Nat}
    (h : InBatch S p i w M M' b) :
    Eff.Safe (S.rules p) (fun x i' w' => x = .ok () ∧ i' = i.closed ∧ w'.txn p = none ∧
      w'.env.lock ≠ some p ∧ S.Kr M (w'.store S.ext)) destroy i w := by
  obtain ⟨g, ino, t, hb, rfl, _⟩ := h
  refine Eff.Safe.get ?_
  rw [hb.wtxn]
  refine safe_seq hI (safe_abortBatch hS hI hb) ?_ fun _ _ _ _ h => nomatch h.2.1
  rintro _ i₁ w₁ hI₁ ⟨ht, _, hid, hM, hl⟩
  have hstable : S.Stable p fun w' => w'.txn p = none ∧ S.Kr (w.store S.ext) (w'.store S.ext) :=
    (stable_txn none).and stable_store
  refine safe_flockUn hstable hI₁ ⟨hid.txn, hM⟩ fun w₂ _ h₂ hI₃ => Eff.Safe.modify_last ?_
  refine safe_pure (hstable.and stable_unlocked) hI₃ ⟨h₂, World.lock_unlock_ne w₂ p⟩
    fun w₄ _ h₄ => ⟨rfl, ?_, h₄.1.1, h₄.2, h₄.1.2⟩
  rw [Impl.closed, ht]

end Tarmac.PackCas
