import Tarmac.PackCas.Steps

/-!
# The calls as parts of programs

The rules of `Tarmac.PackCas.Steps` in the form the functions of `pack_cas.cpp` use them: a call,
the check of its answer (`mdbCheck`, `sysCheck`), and the rest of the program. What a function
knows about the store between two calls is an assertion `P` that the other processes keep
(`Setting.Stable`); the rest is verified in a later state in which `P` still holds.
-/

namespace Tarmac.PackCas

variable {S : Setting} {p : Nat} {w : World} {i : Impl} {α β : Type}

/-! ## Assertions -/

/-- The other processes keep `P`. -/
def Setting.Stable (S : Setting) (p : Nat) (P : World → Prop) : Prop :=
  ∀ w w', Inv S p w → Inv S p w' → Rely S p w w' → P w → P w'

/-- Two stable facts are one. -/
theorem Setting.Stable.and {P Q : World → Prop} (hP : S.Stable p P) (hQ : S.Stable p Q) :
    S.Stable p fun w => P w ∧ Q w :=
  fun w w' hI hI' hR h => ⟨hP w w' hI hI' hR h.1, hQ w w' hI hI' hR h.2⟩

/-- What can be reached from `w` by moves of the others. -/
theorem stable_rely (hI : Inv S p w) : S.Stable p (Rely S p w) :=
  fun _ _ hI₁ _ hR h => h.trans hI hI₁ hR

/-- Nobody else releases the lock. -/
theorem stable_locked : S.Stable p fun w => w.env.lock = some p :=
  fun _ _ _ _ hR h => hR.lock.2 h

/-- The process has held the lock since `w₀` and not changed what the lock protects. -/
structure LockedSince (p : Nat) (w₀ w : World) : Prop where
  lock : w.env.lock = some p
  next : w₀.fs.next ≤ w.fs.next
  held : Held w₀ w

/-- The lock is held from now on. -/
theorem LockedSince.refl (h : w.env.lock = some p) : LockedSince p w w :=
  ⟨h, Nat.le_refl _, .refl w⟩

/-- The time since it was taken is stable. -/
theorem stable_lockedSince {w₀ : World} : S.Stable p (LockedSince p w₀) :=
  fun _ _ _ _ hR h =>
    ⟨hR.lock.2 h.lock, h.next.trans hR.next, h.held.trans (hR.held h.lock) h.next⟩

/-- Nobody else takes the lock for the process. -/
theorem stable_unlocked : S.Stable p fun w => w.env.lock ≠ some p :=
  fun _ _ _ _ hR h hl => h (hR.lock.1 hl)

/-- What is said of a process that runs alone. -/
theorem stable_calm {P : World → Prop} : S.Stable p fun w => S.calm → P w :=
  fun _ _ _ _ hR h hc => (hR.calm hc).symm ▸ h hc

/-- Nobody else changes the transaction of a process. -/
theorem stable_txn (t : Option Db) : S.Stable p fun w => w.txn p = t :=
  fun _ _ _ _ hR h => hR.txn.trans h

/-- While it is open, the committed tables stay as they are. -/
theorem stable_db {t db : Db} : S.Stable p fun w => w.txn p = some t ∧ w.env.db = db :=
  fun _ _ _ _ hR h => ⟨hR.txn.trans h.1, (hR.writing (by rw [h.1]; rfl)).trans h.2⟩

/-- Other processes change the store only as the setting says. -/
theorem stable_store {M : Store} : S.Stable p fun w => S.Kr M (w.store S.ext) :=
  fun _ _ _ _ hR h => S.Kr_trans h hR.store

/-- A result in a state with a stable assertion. -/
theorem safe_pure {a : α} {Q : Except Err α → Impl → World → Prop} {P : World → Prop}
    (hP : S.Stable p P) (hI : Inv S p w) (hw : P w)
    (h : ∀ w₁, Inv S p w₁ → P w₁ → Q (.ok a) i w₁) :
    Eff.Safe (S.rules p) Q (pure a : CasM α) i w :=
  fun w₁ hI₁ hR => h w₁ hI₁ (hP w w₁ hI hI₁ hR hw)

/-- An exception in a state with a stable assertion. -/
theorem safe_throw {e : Err} {Q : Except Err α → Impl → World → Prop} {P : World → Prop}
    (hP : S.Stable p P) (hI : Inv S p w) (hw : P w)
    (h : ∀ w₁, Inv S p w₁ → P w₁ → Q (.error e) i w₁) :
    Eff.Safe (S.rules p) Q (Eff.throw e : CasM α) i w :=
  fun w₁ hI₁ hR => h w₁ hI₁ (hP w w₁ hI hI₁ hR hw)

/-- Sequencing in a setting. -/
theorem safe_seq {P : Except Err β → Impl → World → Prop} {Q : Except Err α → Impl → World → Prop}
    {m : CasM β} {f : β → CasM α} (hI : Inv S p w) (hm : Eff.Safe (S.rules p) P m i w)
    (hok : ∀ b i' w', Inv S p w' → P (.ok b) i' w' → Eff.Safe (S.rules p) Q (f b) i' w')
    (herr : ∀ e i' w', Inv S p w' → P (.error e) i' w' → Q (.error e) i' w') :
    Eff.Safe (S.rules p) Q (m >>= f) i w :=
  Eff.Safe.seq Rely.refl hI hm hok herr

/-- `try m catch (...) h` in a setting. -/
theorem safe_catchAll {P Q : Except Err α → Impl → World → Prop} {m : CasM α} {h : Err → CasM α}
    (hI : Inv S p w) (hm : Eff.Safe (S.rules p) P m i w)
    (hok : ∀ a i' w', Inv S p w' → P (.ok a) i' w' → Q (.ok a) i' w')
    (hcaught : ∀ e i' w', Inv S p w' → e.caught → P (.error e) i' w' →
      Eff.Safe (S.rules p) Q (h e) i' w')
    (hpass : ∀ e i' w', Inv S p w' → ¬e.caught → P (.error e) i' w' → Q (.error e) i' w') :
    Eff.Safe (S.rules p) Q (catchAll m h) i w :=
  Eff.Safe.catchIf Rely.refl hI hm hok hcaught hpass

/-! ## Questions -/

section

variable {P : World → Prop} {Q : Except Err β → Impl → World → Prop}

/-- A call whose effect is given as a step, the check of its answer, and the rest. -/
theorem safe_call {c : Call} {k : c.Resp → CasM α} {g : α → CasM β} (hP : S.Stable p P)
    (hI : Inv S p w) (hw : P w)
    (h : ∀ w₁, Inv S p w₁ → P w₁ →
      (S.rules p).Step c (fun r w₂ => Eff.Safe (S.rules p) Q (k r >>= g) i w₂) w₁) :
    Eff.Safe (S.rules p) Q ((perform c >>= k) >>= g) i w :=
  fun w₁ hI₁ hR => h w₁ hI₁ (hP w w₁ hI hI₁ hR hw)

/-- A question about the state, the check of its answer, and the rest. -/
theorem safe_ask {c : Call} {γ : Type} {k : c.Resp → CasM α} {g : α → CasM β}
    (ofE : Except Errno γ → c.Resp) (a : World → γ) (toα : γ → α) {e : Err}
    (hx : ∀ ch w, exec p ch c w = some (ofE (ch.guard (a w)), w)) (hc : c ≠ .txnBegin)
    (hok : ∀ v, k (ofE (.ok v)) = pure (toα v)) (herr : k (ofE (.error .io)) = Eff.throw e)
    (hP : S.Stable p P) (hI : Inv S p w) (hw : P w)
    (h : ∀ w₁, Inv S p w₁ → P w₁ → Eff.Safe (S.rules p) Q (g (toα (a w₁))) i w₁)
    (hfail : S.CanFail c → ∀ w₁, Inv S p w₁ → P w₁ → Q (.error e) i w₁) :
    Eff.Safe (S.rules p) Q ((perform c >>= k) >>= g) i w := by
  refine safe_call hP hI hw fun w₁ hI₁ h₁ =>
    step_guard (a w₁) ofE (fun ch => hx ch w₁) hI₁ hc ?_ fun hf => ?_
  · rw [hok, pure_bind]
    exact h w₁ hI₁ h₁
  · rw [herr]
    exact safe_throw hP hI₁ h₁ fun w₂ hI₂ h₂ => hfail hf w₂ hI₂ h₂

/-- A result of LMDB that is none of an ended transaction is thrown. -/
theorem mdbCheck_error {what : String} {res : Errno} (h : res ≠ .badTxn) :
    (mdbCheck what (.error res) : CasM α) = Eff.throw (.lmdb what res) := by
  cases res <;> first | rfl | exact absurd rfl h

/-- A question to LMDB, the check of its answer, and the rest. -/
theorem safe_askMdb {c : Call} {what : String} {k : c.Resp → CasM α} {g : α → CasM β}
    (ofE : Except Errno α → c.Resp) (a : World → α)
    (hx : ∀ ch w, exec p ch c w = some (ofE (ch.mdbGuard (a w)), w)) (hc : c ≠ .txnBegin)
    (hk : ∀ r, k (ofE r) = mdbCheck what r)
    (hP : S.Stable p P) (hI : Inv S p w) (hw : P w)
    (h : ∀ w₁, Inv S p w₁ → P w₁ → Eff.Safe (S.rules p) Q (g (a w₁)) i w₁)
    (hfail : ∀ {res : Errno}, S.CanFail c → ∀ w₁, Inv S p w₁ → P w₁ → Q (.error (.lmdb what res)) i w₁) :
    Eff.Safe (S.rules p) Q ((perform c >>= k) >>= g) i w := by
  refine safe_call hP hI hw fun w₁ hI₁ h₁ =>
    step_mdbGuard (a w₁) ofE (fun ch => hx ch w₁) hI₁ hc ?_ fun hf res hres => ?_
  · rw [hk]
    exact h w₁ hI₁ h₁
  · rw [hk, mdbCheck_error hres]
    exact safe_throw hP hI₁ h₁ fun w₂ hI₂ h₂ => hfail hf w₂ hI₂ h₂

variable {g : Unit → CasM β} {what : String}

/-- An allocation. -/
theorem safe_alloc {n : Nat} (hP : S.Stable p P) (hI : Inv S p w) (hw : P w)
    (h : ∀ w₁, Inv S p w₁ → P w₁ → Eff.Safe (S.rules p) Q (g ()) i w₁)
    (hfail : S.CanFail (.alloc n) → ∀ w₁, Inv S p w₁ → P w₁ → Q (.error .badAlloc) i w₁) :
    Eff.Safe (S.rules p) Q ((perform (.alloc n) >>= allocCheck) >>= g) i w :=
  safe_ask id (fun _ => ()) id (fun _ _ => rfl) (by simp) (fun _ => rfl) rfl hP hI hw h hfail

/-- A `resize`, which throws `length_error` before it allocates. -/
theorem safe_resize {n : Nat} (hP : S.Stable p P) (hI : Inv S p w) (hw : P w)
    (h : ∀ w₁, Inv S p w₁ → P w₁ → Eff.Safe (S.rules p) Q (g ()) i w₁)
    (hlong : maxOff < n → ∀ w₁, Inv S p w₁ → P w₁ → Q (.error .lengthError) i w₁)
    (hfail : S.CanFail (.alloc n) → ∀ w₁, Inv S p w₁ → P w₁ → Q (.error .badAlloc) i w₁) :
    Eff.Safe (S.rules p) Q (resize n >>= g) i w := by
  rw [resize]
  split
  · next hn => exact safe_throw hP hI hw (hlong hn)
  · exact safe_alloc hP hI hw h hfail

/-- `fstat` of a pack answers its length. -/
theorem safe_fileSize {m : Mapping} {g : Nat → CasM β} (hP : S.Stable p P) (hI : Inv S p w)
    (hw : P w)
    (h : ∀ w₁, Inv S p w₁ → P w₁ →
      Eff.Safe (S.rules p) Q (g (w₁.fs.data m.ino).length) i w₁)
    (hfail : S.CanFail (.fstat m.ino) → ∀ w₁, Inv S p w₁ → P w₁ →
      Q (.error (.sys "fstat pack")) i w₁) :
    Eff.Safe (S.rules p) Q (fileSize m >>= g) i w :=
  safe_ask id (fun w => (w.fs.data m.ino).length) id (fun _ _ => rfl) (by simp) (fun _ => rfl) rfl
    hP hI hw h hfail

/-- Mapping a pack. -/
theorem safe_mmap {ino : Nat} (hP : S.Stable p P) (hI : Inv S p w) (hw : P w)
    (h : ∀ w₁, Inv S p w₁ → P w₁ → Eff.Safe (S.rules p) Q (g ()) i w₁)
    (hfail : S.CanFail (.mmap ino) → ∀ w₁, Inv S p w₁ → P w₁ → Q (.error (.sys what)) i w₁) :
    Eff.Safe (S.rules p) Q ((perform (.mmap ino) >>= sysCheck what) >>= g) i w :=
  safe_ask id (fun _ => ()) id (fun _ _ => rfl) (by simp) (fun _ => rfl) rfl hP hI hw h hfail

/-- Writing a pack to the disk. -/
theorem safe_fdatasync {ino : Nat} (hP : S.Stable p P) (hI : Inv S p w) (hw : P w)
    (h : ∀ w₁, Inv S p w₁ → P w₁ → Eff.Safe (S.rules p) Q (g ()) i w₁)
    (hfail : S.CanFail (.fdatasync ino) → ∀ w₁, Inv S p w₁ → P w₁ → Q (.error (.sys what)) i w₁) :
    Eff.Safe (S.rules p) Q ((perform (.fdatasync ino) >>= sysCheck what) >>= g) i w :=
  safe_ask id (fun _ => ()) id (fun _ _ => rfl) (by simp) (fun _ => rfl) rfl hP hI hw h hfail

/-- A read of the tables. -/
theorem safe_mdbRead (hP : S.Stable p P) (hI : Inv S p w) (hw : P w)
    (h : ∀ w₁, Inv S p w₁ → P w₁ → Eff.Safe (S.rules p) Q (g ()) i w₁)
    (hfail : ∀ {res : Errno}, S.CanFail .mdbRead → ∀ w₁, Inv S p w₁ → P w₁ →
      Q (.error (.lmdb what res)) i w₁) :
    Eff.Safe (S.rules p) Q ((perform .mdbRead >>= mdbCheck what) >>= g) i w :=
  safe_askMdb id (fun _ => ()) (fun _ _ => rfl) (by simp) (fun _ => rfl) hP hI hw h hfail

/-- `mdb_env_sync`. -/
theorem safe_envSync (hP : S.Stable p P) (hI : Inv S p w) (hw : P w)
    (h : ∀ w₁, Inv S p w₁ → P w₁ → Eff.Safe (S.rules p) Q (g ()) i w₁)
    (hfail : ∀ {res : Errno}, S.CanFail .envSync → ∀ w₁, Inv S p w₁ → P w₁ →
      Q (.error (.lmdb what res)) i w₁) :
    Eff.Safe (S.rules p) Q ((perform .envSync >>= mdbCheck what) >>= g) i w :=
  safe_askMdb id (fun _ => ()) (fun _ _ => rfl) (by simp) (fun _ => rfl) hP hI hw h hfail

/-- A read transaction sees the committed tables. -/
theorem safe_readDb {g : Db → CasM β} (hP : S.Stable p P) (hI : Inv S p w) (hw : P w)
    (h : ∀ w₁, Inv S p w₁ → P w₁ → Eff.Safe (S.rules p) Q (g w₁.env.db) i w₁)
    (hfail : ∀ {res : Errno}, S.CanFail .readTxn → ∀ w₁, Inv S p w₁ → P w₁ →
      Q (.error (.lmdb what res)) i w₁) :
    Eff.Safe (S.rules p) Q ((perform .readTxn >>= mdbCheck what) >>= g) i w :=
  safe_askMdb id (fun w => w.env.db) (fun _ _ => rfl) (by simp) (fun _ => rfl) hP hI hw h hfail

/-- The write transaction sees its working copy. -/
theorem safe_txnDb {t : Db} {g : Db → CasM β} (hP : S.Stable p P) (hI : Inv S p w) (hw : P w)
    (ht : w.txn p = some t)
    (h : ∀ w₁, Inv S p w₁ → P w₁ → w₁.txn p = some t → Eff.Safe (S.rules p) Q (g t) i w₁) :
    Eff.Safe (S.rules p) Q ((perform .txnDb >>= mdbCheck what) >>= g) i w :=
  safe_call (hP.and (stable_txn _)) hI ⟨hw, ht⟩ fun w₁ hI₁ h₁ =>
    step_txnDb hI₁ h₁.2 (h w₁ hI₁ h₁.1 h₁.2)

/-! ## The lock and the write transaction -/

/-- Releasing the lock. -/
theorem safe_flockUn (hP : S.Stable p P) (hI : Inv S p w) (hw : P w)
    (h : ∀ w₁, Inv S p w₁ → P w₁ → Inv S p (w₁.unlock p) →
      Eff.Safe (S.rules p) Q (g ()) i (w₁.unlock p)) :
    Eff.Safe (S.rules p) Q (perform .flockUn >>= g) i w :=
  fun w₁ hI₁ hR => step_flockUn hI₁ (h w₁ hI₁ (hP w w₁ hI hI₁ hR hw))

/-- Beginning a write transaction: it waits until there is none. -/
theorem safe_txnBegin (hP : S.Stable p P) (hI : Inv S p w) (hw : P w) (ht : w.txn p = none)
    (h : ∀ w₁, Inv S p w₁ → P w₁ → w₁.env.writer = none →
      Inv S p (w₁.setWriter (some (p, w₁.env.db))) →
      Eff.Safe (S.rules p) Q (g ()) i (w₁.setWriter (some (p, w₁.env.db))))
    (hfail : ∀ {res : Errno}, S.CanFail .txnBegin → ∀ w₁, Inv S p w₁ → P w₁ →
      Q (.error (.lmdb what res)) i w₁) :
    Eff.Safe (S.rules p) Q ((perform .txnBegin >>= mdbCheck what) >>= g) i w :=
  safe_call (hP.and (stable_txn _)) hI ⟨hw, ht⟩ fun w₁ hI₁ h₁ =>
    step_txnBegin hI₁ h₁.2 (h w₁ hI₁ h₁.1) fun hf res hres => by
      rw [mdbCheck_error hres]
      exact safe_throw hP hI₁ h₁.1 fun w₂ hI₂ h₂ => hfail hf w₂ hI₂ h₂

/-- Aborting it. -/
theorem safe_txnAbort {t : Db} (hP : S.Stable p P) (hI : Inv S p w) (hw : P w)
    (ht : w.txn p = some t)
    (h : ∀ w₁, Inv S p w₁ → P w₁ → w₁.txn p = some t → Inv S p (w₁.setWriter none) →
      Eff.Safe (S.rules p) Q (g ()) i (w₁.setWriter none)) :
    Eff.Safe (S.rules p) Q (txnAbort >>= g) i w :=
  safe_call (hP.and (stable_txn _)) hI ⟨hw, ht⟩ fun w₁ hI₁ h₁ =>
    step_txnAbort hI₁ h₁.2 (h w₁ hI₁ h₁.1 h₁.2)

/-- Committing it; it is over also where that fails. -/
theorem safe_txnCommit {t : Db} (hP : S.Stable p P) (hI : Inv S p w) (hw : P w)
    (ht : w.txn p = some t) (hc : ∀ w₁, Inv S p w₁ → P w₁ → CommitOk S p w₁ t)
    (h : ∀ w₁, Inv S p w₁ → P w₁ → w₁.txn p = some t → Inv S p (w₁.commit t) →
      Eff.Safe (S.rules p) Q (g ()) i (w₁.commit t))
    (hfail : ∀ {res : Errno}, S.CanFail .txnCommit → ∀ w₁, Inv S p w₁ → P w₁ →
      w₁.txn p = some t → Inv S p (w₁.setWriter none) →
      Eff.Safe (S.rules p) Q (Eff.throw (.lmdb what res)) i (w₁.setWriter none)) :
    Eff.Safe (S.rules p) Q ((perform .txnCommit >>= mdbCheck what) >>= g) i w :=
  safe_call (hP.and (stable_txn _)) hI ⟨hw, ht⟩ fun w₁ hI₁ h₁ =>
    step_txnCommit hI₁ h₁.2 (hc w₁ hI₁ h₁.1) (h w₁ hI₁ h₁.1 h₁.2) fun hf hI₂ res hres => by
      rw [mdbCheck_error hres]
      exact hfail hf w₁ hI₁ h₁.1 h₁.2 hI₂

/-- A change of the working copy. -/
theorem safe_onTxn {c : Call} {k : c.Resp → CasM Unit} {f : Db → Except Errno Db} {t t' : Db}
    (ofE : Except Errno Unit → c.Resp)
    (hx : ∀ ch w, exec p ch c w = some (ofE (w.onTxn p ch f).1, (w.onTxn p ch f).2))
    (hc : c ≠ .txnBegin) (hf : f t = .ok t') (hko : k (ofE (.ok ())) = pure ())
    (hke : ∀ res, k (ofE (.error res)) = mdbCheck what (.error res)) (hP : S.Stable p P)
    (hI : Inv S p w) (hw : P w) (ht : w.txn p = some t)
    (h : ∀ w₁, Inv S p w₁ → P w₁ → w₁.txn p = some t → Inv S p (w₁.setWriter (some (p, t'))) →
      Eff.Safe (S.rules p) Q (g ()) i (w₁.setWriter (some (p, t'))))
    (hfail : ∀ {res : Errno}, S.CanFail c → ∀ w₁, Inv S p w₁ → P w₁ → w₁.txn p = some t →
      Q (.error (.lmdb what res)) i w₁) :
    Eff.Safe (S.rules p) Q ((perform c >>= k) >>= g) i w := by
  refine safe_call (hP.and (stable_txn _)) hI ⟨hw, ht⟩ fun w₁ hI₁ h₁ =>
    step_onTxn ofE (fun ch => hx ch w₁) hI₁ hc h₁.2 hf (fun hI₂ => ?_) fun hf res hres => ?_
  · rw [hko, pure_bind]
    exact h w₁ hI₁ h₁.1 h₁.2 hI₂
  · rw [hke, mdbCheck_error hres]
    exact safe_throw (hP.and (stable_txn _)) hI₁ h₁ fun w₂ hI₂ h₂ => hfail hf w₂ hI₂ h₂.1 h₂.2

/-- Putting a pair into a table. -/
theorem safe_txnPut {dbi : Dbi} {key val : Bytes} {overwrite : Bool} {t : Db}
    (hnew : overwrite = true ∨ (t.table dbi).find? key = none) (hP : S.Stable p P)
    (hI : Inv S p w) (hw : P w) (ht : w.txn p = some t)
    (h : ∀ w₁, Inv S p w₁ → P w₁ → w₁.txn p = some t →
      Inv S p (w₁.setWriter (some (p, t.setTable ((t.table dbi).insert key val) dbi))) →
      Eff.Safe (S.rules p) Q (g ()) i
        (w₁.setWriter (some (p, t.setTable ((t.table dbi).insert key val) dbi))))
    (hfail : ∀ {res : Errno}, S.CanFail (.txnPut dbi key val overwrite) → ∀ w₁, Inv S p w₁ →
      P w₁ → w₁.txn p = some t → Q (.error (.lmdb what res)) i w₁) :
    Eff.Safe (S.rules p) Q
      ((perform (.txnPut dbi key val overwrite) >>= mdbCheck what) >>= g) i w :=
  safe_onTxn id (fun _ _ => rfl) (by simp) (if_neg (by rcases hnew with rfl | h <;> simp [*])) rfl
    (fun _ => rfl) hP hI hw ht h hfail

/-- Emptying the index. -/
theorem safe_txnDropBlobs {t : Db} (hP : S.Stable p P) (hI : Inv S p w)
    (hw : P w) (ht : w.txn p = some t)
    (h : ∀ w₁, Inv S p w₁ → P w₁ → w₁.txn p = some t →
      Inv S p (w₁.setWriter (some (p, { t with blobs := .empty }))) →
      Eff.Safe (S.rules p) Q (g ()) i (w₁.setWriter (some (p, { t with blobs := .empty }))))
    (hfail : ∀ {res : Errno}, S.CanFail .txnDropBlobs → ∀ w₁, Inv S p w₁ → P w₁ →
      w₁.txn p = some t → Q (.error (.lmdb what res)) i w₁) :
    Eff.Safe (S.rules p) Q ((perform .txnDropBlobs >>= mdbCheck what) >>= g) i w :=
  safe_onTxn (f := fun t => .ok { t with blobs := .empty }) id (fun _ _ => rfl) (by simp) rfl rfl
    (fun _ => rfl) hP hI hw ht h hfail

/-- `current` of a handle that has a mapping. -/
theorem safe_current {m : Mapping} {g : Mapping → CasM β} (hc : i.cur = some m)
    (h : Eff.Safe (S.rules p) Q (g m) i w) : Eff.Safe (S.rules p) Q (current >>= g) i w := by
  rw [current, bind_assoc]
  refine Eff.Safe.get ?_
  rw [hc]
  exact h

end

/-! ## `lock_writer` and `unlock_writer` -/

/-- `unlock_writer` at the end of a program. -/
theorem safe_unlockWriter {P P' : World → Prop} (hP : S.Stable p P) (hP' : S.Stable p P')
    (hunlock : ∀ w, Inv S p w → P w → P' (w.unlock p)) (hI : Inv S p w) (hw : P w) :
    Eff.Safe (S.rules p) (fun x i' w' => x = .ok () ∧ i' = i ∧ P' w' ∧ w'.env.lock ≠ some p)
      unlockWriter i w := by
  intro w₁ hI₁ hR
  have h₁ := hP w w₁ hI hI₁ hR hw
  refine step_flockUn hI₁ fun hI₂ w₃ hI₃ hR₃ => ⟨rfl, rfl, ?_, ?_⟩
  · exact hP' _ _ hI₂ hI₃ hR₃ (hunlock w₁ hI₁ h₁)
  · exact fun hl => World.lock_unlock_ne w₁ p (hR₃.lock.1 hl)

/-- The wait for the lock: it is taken, or an exception says that it was not. -/
theorem safe_lockWriter_go {P P' : World → Prop} (hP : S.Stable p P) (hP' : S.Stable p P')
    (hlock : ∀ w, Inv S p w → P w → P' (w.setLock (some p))) (n : Nat) {w : World}
    (hI : Inv S p w) (hw : P w) :
    Eff.Safe (S.rules p) (fun x i' w' => i' = i ∧ match x with
      | .ok _ => P' w' ∧ w'.env.lock = some p
      | .error e => P w' ∧ e.caught ∧ (S.calm → S.CanFail .flockTry)) (lockWriter.go n) i w := by
  induction n generalizing w with
  | zero =>
    refine safe_call hP hI hw fun w₁ hI₁ h₁ => step_flockTry hI₁ (fun _ hI₂ => ?_) (fun hc => ?_)
      fun hf => ?_
    · exact safe_pure (hP'.and stable_locked) hI₂ ⟨hlock w₁ hI₁ h₁, rfl⟩ fun w₃ _ h₃ => ⟨rfl, h₃⟩
    · exact safe_throw hP hI₁ h₁ fun w₃ _ h₃ => ⟨rfl, h₃, rfl, fun hc' => absurd hc' hc⟩
    · exact safe_throw hP hI₁ h₁ fun w₃ _ h₃ => ⟨rfl, h₃, rfl, fun _ => hf⟩
  | succ n ih =>
    refine safe_call hP hI hw fun w₁ hI₁ h₁ => step_flockTry hI₁ (fun _ hI₂ => ?_) (fun hc => ?_)
      fun hf => ?_
    · exact safe_pure (hP'.and stable_locked) hI₂ ⟨hlock w₁ hI₁ h₁, rfl⟩ fun w₃ _ h₃ => ⟨rfl, h₃⟩
    · exact ih hI₁ h₁
    · exact safe_throw hP hI₁ h₁ fun w₃ _ h₃ => ⟨rfl, h₃, rfl, fun _ => hf⟩

/-- `lock_writer` takes the lock; a process that runs alone does not time out. -/
theorem safe_lockWriter {P L : World → Prop} (hP : S.Stable p P) (hL : S.Stable p L)
    (hlock : ∀ w, Inv S p w → P w → L (w.setLock (some p))) (hI : Inv S p w) (hw : P w) :
    Eff.Safe (S.rules p) (fun x i' w' => i' = i ∧ match x with
      | .ok _ => L w' ∧ w'.env.lock = some p
      | .error e => P w' ∧ e.caught ∧ (S.calm → S.CanFail .flockTry)) lockWriter i w :=
  safe_lockWriter_go hP hL hlock kLockPolls hI hw

end Tarmac.PackCas
