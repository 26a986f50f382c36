import Tarmac.PackCas.Never
import Tarmac.PackCas.Session

/-!
# `compact` on error

Whatever the bytes of index and pack are and whichever call fails: a `compact` that throws after it
took the writer lock leaves every live blob readable, the committed pack in the directory and the
lock free (`Atomic`), unless the call that failed is the `mdb_env_sync` behind the commit. There the
handler removes the pack that was just committed (`not_named_of_syncFails`).
-/

namespace Tarmac.PackCas

variable {ext : Ext} {choice : Call → Choice → Prop} {p q : Nat} {w w' : World} {i i' j : Impl}
  {α β : Type} {live : Bytes → Except Err Bool} {tr : List (Tarmac.Event sig)}

/-! ## Calls a function does not make -/

/-- `sync` does not lock. -/
theorem never_flockTry_sync : Never .flockTry sync := by
  refine never_get fun i => ?_
  split
  · refine never_current fun m => ?_
    refine never_ask (fun _ => never_sysCheck) (fun _ => ?_) (by simp)
    refine never_ask (fun _ => never_mdbCheck) (fun _ => never_modify ?_) (by simp)
    refine never_ask (fun _ => never_mdbCheck) (fun _ => never_modify ?_) (by simp)
    exact never_perform (by simp)
  · exact never_pure

/-- The handler of `txnScope` aborts, and does not sync. -/
theorem never_envSync_txnScope {m : CasM α} (h : Never .envSync m) : Never .envSync (txnScope m) :=
  Eff.Avoids.catchIf h fun _ =>
    never_ask (fun _ => never_mdbCheck) (fun _ => never_throw) (by simp)

/-- Neither does the beginning of the copy. -/
theorem never_envSync_compactOpen : Never .envSync compactOpen := by
  refine never_ask (fun _ => never_mdbCheck) (fun db => ?_) (by simp)
  refine never_seq (never_ask (fun _ => never_mdbCheck) (fun _ => Eff.Avoids.ofExcept) (by simp))
    fun gen => ?_
  refine never_seq (never_seq (never_mappingFor rfl) fun m => ?_) fun m => ?_
  · split
    · exact never_pure
    · exact never_throw
  · refine never_seq (never_fileSize rfl) fun n => never_modify ?_
    refine never_seq (never_perform (by simp)) fun r => ?_
    split
    · exact never_pure
    · exact never_throw

theorem never_envSync_writeAll_go {ino : Nat} (fuel : Nat) (d : Bytes) (pos : Nat) :
    Never .envSync (writeAll.go ino fuel d pos) := by
  induction fuel generalizing d pos with
  | zero => exact never_pure
  | succ fuel ih =>
    rw [writeAll.go]
    split
    · exact never_pure
    · exact never_ask (fun _ => never_sysCheck) (fun n => ih _ _) (by simp)

theorem never_envSync_compactLoop {m : Mapping} {ino : Nat} (rest : List (Bytes × Bytes))
    (s : Sweep) : Never .envSync (compactLoop live m ino rest s) := by
  induction rest generalizing s with
  | nil => exact never_ask (fun _ => never_mdbCheck) (fun _ => never_pure) (by simp)
  | cons r rest ih =>
    obtain ⟨k, v⟩ := r
    refine never_ask (fun _ => never_mdbCheck) (fun _ => ?_) (by simp)
    refine never_ofExcept fun e => never_ofExcept fun keep => ?_
    split
    · refine never_seq (never_view rfl) fun b => ?_
      dsimp only
      split
      · exact never_seq (never_envSync_writeAll_go _ _ _) fun pos => ih _
      · exact ih _
    · exact ih _

theorem never_envSync_putKept (keep : List (Bytes × IndexEntry)) :
    Never .envSync (putKept keep) := by
  induction keep with
  | nil => exact never_pure
  | cons r rest ih => exact never_ask (fun _ => never_mdbCheck) (fun _ => ih) (by simp)

theorem never_envSync_compactCopy {g ino : Nat} {m : Mapping} :
    Never .envSync (compactCopy live g m ino) := by
  refine never_ask (fun _ => never_mdbCheck) (fun _ => ?_) (by simp)
  refine never_ask (fun _ => never_mdbCheck) (fun db => ?_) (by simp)
  refine never_seq (never_envSync_compactLoop _ _) fun s => ?_
  refine never_seq (never_envSync_writeAll_go _ _ _) fun _ => ?_
  refine never_ask (fun _ => never_sysCheck) (fun _ => ?_) (by simp)
  refine never_ask (fun _ => never_mdbCheck) (fun _ => ?_) (by simp)
  refine never_seq (never_envSync_putKept _) fun _ => ?_
  exact never_ask (fun _ => never_mdbCheck) (fun _ => never_pure) (by simp)

theorem never_envSync_compactEnd {g ino n : Nat} : Never .envSync (compactEnd g ino n) := by
  refine never_seq (never_perform (by simp)) fun _ => never_seq (never_perform (by simp)) fun _ => ?_
  exact never_seq (never_mappingFor rfl) fun _ => never_modify (never_perform (by simp))

theorem never_envSync_lockWriter_go (polls : Nat) : Never .envSync (lockWriter.go polls) := by
  induction polls with
  | zero =>
    refine never_ask (fun _ => never_sysCheck) (fun got => ?_) (by simp)
    split
    · exact never_pure
    · exact never_throw
  | succ polls ih =>
    refine never_ask (fun _ => never_sysCheck) (fun got => ?_) (by simp)
    split
    · exact never_pure
    · exact ih

/-! ## The failing `mdb_env_sync` in a run -/

/-- `mdb_env_sync` fails. -/
def SyncFails (e : Tarmac.Event sig) : Prop := ∃ x, e = ⟨.envSync, .error x⟩

/-- What makes no `mdb_env_sync` throws only where none has failed. -/
theorem Never.raises {m : CasM α} (h : Never .envSync m) :
    Eff.Raises (sem choice p) SyncFails m :=
  fun s _ _ _ _ _ hr e he ⟨_, hx⟩ => (h s).run hr e he (by rw [hx])

/-- Neither a `sync` nor a switch that ends well met a failing `mdb_env_sync`. -/
theorem raises_envSync {f : Unit → CasM α} (hf : ∀ a, Eff.Raises (sem choice p) SyncFails (f a)) :
    Eff.Raises (sem choice p) SyncFails
      ((perform .envSync >>= mdbCheck "env_sync") >>= f) := by
  refine .seq (.perform (fun r hr => ?_) fun r => never_mdbCheck.raises) hf
  obtain ⟨x, hx⟩ := hr
  cases hx
  cases x <;> exact ⟨_, rfl⟩

/-- `sync` may throw for its `mdb_env_sync`. -/
theorem raises_sync : Eff.Raises (sem choice p) SyncFails sync := by
  refine .seq (Never.raises Eff.Avoids.get) fun i => ?_
  split
  · refine .seq (Never.raises ?_) fun m => ?_
    · refine never_get fun i => ?_
      split
      · exact never_pure
      · exact never_throw
    refine .seq (Never.raises (never_seq (never_perform (by simp)) fun _ => never_sysCheck)) fun _ => ?_
    refine .seq (Never.raises (never_seq (never_perform (by simp)) fun _ => never_mdbCheck)) fun _ => ?_
    refine .seq (Never.raises Eff.Avoids.modify) fun _ => raises_envSync fun _ => ?_
    exact Never.raises (never_modify (never_perform (by simp)))
  · exact Never.raises never_pure

theorem raises_compactSwitch {g ino : Nat} {m : Mapping} :
    Eff.Raises (sem choice p) SyncFails (compactSwitch live g m ino) := by
  refine .catchIf (.seq (Never.raises (never_envSync_txnScope never_envSync_compactCopy)) fun n => ?_) ?_
  · refine .seq (Never.raises (never_seq (never_perform (by simp)) fun _ => never_mdbCheck)) fun _ => ?_
    exact raises_envSync fun _ => Never.raises never_pure
  · intro e s w tr a s' w' hr
    obtain ⟨_, w₁, tr₁, _, hr₁, rfl⟩ := Eff.run_perform hr
    obtain ⟨_, w₂, tr₂, _, hr₂, rfl⟩ := Eff.run_perform hr₁
    cases hr₂

/-! ## Runs -/

/-- A run that begins with a call and the check of its answer. -/
theorem run_ask {c : Call} {k : c.Resp → CasM β} {f : β → CasM α} {x : Except Err α}
    (hr : Prog.Run (sem choice p) (((perform c >>= k) >>= f) i) w tr (x, i') w') :
    ∃ r w₁ tr', sem choice p c w r w₁ ∧
      Prog.Run (sem choice p) ((k r >>= f) i) w₁ tr' (x, i') w' ∧ tr = ⟨c, r⟩ :: tr' := by
  rw [bind_assoc] at hr
  exact Eff.run_perform hr

/-- The lock is taken, or it is not and the run ends with an error. -/
theorem run_lockWriter_go (polls : Nat) {x : Except Err Unit}
    (hr : Prog.Run (sem choice p) (lockWriter.go polls i) w tr (x, i') w') :
    i' = i ∧ ((x = .ok () ∧ w' = w.setLock (some p)) ∨
      (∃ e, x = .error e) ∧ ∀ ev ∈ tr, ev ≠ ⟨.flockTry, .ok true⟩) := by
  have hstep : ∀ {r w₁}, sem choice p .flockTry w r w₁ →
      (r = .ok true ∧ w₁ = w.setLock (some p)) ∨ (r ≠ .ok true ∧ w₁ = w) := by
    rintro r w₁ ⟨ch, _, hx⟩
    simp only [exec] at hx
    split at hx
    · cases hx
      exact .inr ⟨fun h => (by cases h), rfl⟩
    · split at hx
      · cases hx
        exact .inl ⟨rfl, rfl⟩
      · cases hx
        exact .inr ⟨fun h => (by cases h), rfl⟩
  have hev : ∀ {r : Except Errno Bool}, r ≠ .ok true →
      ∀ ev ∈ [(⟨.flockTry, r⟩ : Tarmac.Event sig)], ev ≠ ⟨.flockTry, .ok true⟩ := by
    rintro r hne ev he heq
    rw [List.mem_singleton.1 he] at heq
    cases heq
    exact hne rfl
  induction polls generalizing tr with
  | zero =>
    obtain ⟨r, w₁, tr', hs, hr', rfl⟩ := run_ask hr
    rcases hstep hs with ⟨rfl, rfl⟩ | ⟨hne, rfl⟩
    · cases hr'
      exact ⟨rfl, .inl ⟨rfl, rfl⟩⟩
    · rcases r with e | (_ | _)
      · cases hr'
        exact ⟨rfl, .inr ⟨⟨_, rfl⟩, hev hne⟩⟩
      · cases hr'
        exact ⟨rfl, .inr ⟨⟨_, rfl⟩, hev hne⟩⟩
      · exact absurd rfl hne
  | succ polls ih =>
    obtain ⟨r, w₁, tr', hs, hr', rfl⟩ := run_ask hr
    rcases hstep hs with ⟨rfl, rfl⟩ | ⟨hne, rfl⟩
    · cases hr'
      exact ⟨rfl, .inl ⟨rfl, rfl⟩⟩
    · rcases r with e | (_ | _)
      · cases hr'
        exact ⟨rfl, .inr ⟨⟨_, rfl⟩, hev hne⟩⟩
      · obtain ⟨rfl, h | h⟩ := ih hr'
        · exact ⟨rfl, .inl h⟩
        · refine ⟨rfl, .inr ⟨h.1, fun ev he => ?_⟩⟩
          exact (List.mem_cons.1 he).elim (fun he => hev hne ev (he ▸ .head _)) (h.2 ev)
      · exact absurd rfl hne

/-- A run of `compact` that takes the lock, and then ends with an error: the `try` block fails, its
handler gives the lock back, and no other `mdb_env_sync` fails than one in the `try` block. -/
theorem run_compact_error {e : Err}
    (hr : Prog.Run (sem choice p) (compact live i) w tr (.error e, i') w')
    (hlock : ⟨.flockTry, .ok true⟩ ∈ tr) :
    ∃ tr₁ i₁ w₁ tr₂ w₂, Prog.Run (sem choice p) (sync i) w tr₁ (.ok (), i₁) w₁ ∧
      Prog.Run (sem choice p) (compactLocked live i₁) (w₁.setLock (some p)) tr₂ (.error e, i') w₂ ∧
      (e.caught → w' = w₂.unlock p) ∧ ∀ ev, SyncFails ev → (ev ∈ tr ↔ ev ∈ tr₂) := by
  rcases Eff.run_seq hr with ⟨tr₁, _, i₁, w₁, tr₂, h₁, h₂, rfl⟩ | ⟨e', _, h₁⟩
  · rcases Eff.run_seq h₂ with ⟨tr₃, _, i₂, w₂, tr₄, h₃, h₄, rfl⟩ | ⟨e', _, h₃⟩
    · obtain ⟨rfl, ⟨_, rfl⟩ | ⟨⟨_, h⟩, _⟩⟩ := run_lockWriter_go _ h₃
      · -- the failing call is neither in the `sync` nor in taking the lock
        have hev : ∀ tr₅ ev, SyncFails ev → (ev ∈ tr₁ ++ (tr₃ ++ tr₅) ↔ ev ∈ tr₅) := by
          refine fun tr₅ ev hs => ⟨fun h => ?_, fun h => by simp [h]⟩
          refine ((List.mem_append.1 h).resolve_left fun h₀ =>
            raises_sync _ _ _ _ _ _ h₁ ev h₀ hs) |> List.mem_append.1 |>.resolve_left fun h₀ => ?_
          obtain ⟨x, rfl⟩ := hs
          exact (never_envSync_lockWriter_go _ _).run h₃ _ h₀ rfl
        rcases Eff.run_catchIf h₄ with ⟨h₅, hn⟩ | ⟨tr₅, e₁, i₃, w₃, tr₆, h₅, h₆, rfl⟩
        · exact ⟨tr₁, i₂, w₁, tr₄, w', h₁, h₅, fun hc => absurd hc (hn e rfl), hev tr₄⟩
        · obtain ⟨_, w₄, tr₇, ⟨ch, _, hx⟩, h₈, rfl⟩ := Eff.run_perform h₆
          cases hx
          cases h₈
          refine ⟨tr₁, i₂, w₁, tr₅, w₃, h₁, h₅, fun _ => rfl, fun ev hs => (hev _ ev hs).trans ?_⟩
          refine ⟨fun h => (List.mem_append.1 h).resolve_right fun h => ?_, fun h => by simp [h]⟩
          obtain ⟨x, rfl⟩ := hs
          cases List.mem_singleton.1 h
      · cases h
    · obtain ⟨_, ⟨h, _⟩ | ⟨_, h⟩⟩ := run_lockWriter_go _ h₃
      · cases h
      · refine absurd rfl (h _ ((List.mem_append.1 hlock).resolve_left fun hin => ?_))
        exact (never_flockTry_sync i).run h₁ _ hin rfl
  · exact absurd rfl ((never_flockTry_sync i).run h₁ _ hlock)

/-! ## The settings -/

/-- Every call but `mdb_env_sync` may fail. -/
def noSyncFailure (c : Call) (ch : Choice) : Prop := c = .envSync → ch.fail = false

/-- Any call may fail. -/
abbrev Setting.any (ext : Ext) : Setting := .doubtful ext (fun _ _ => True) fun _ _ => trivial

abbrev Setting.synced (ext : Ext) : Setting := .doubtful ext noSyncFailure fun _ _ _ => rfl

/-- No call fails. -/
abbrev Setting.smooth (ext : Ext) : Setting :=
  .doubtful ext (faults false) fun _ _ h => absurd h (by simp)

/-- A run in which `mdb_env_sync` does not fail. -/
theorem run_noSyncFailure {m : CasM α} {x : Except Err α}
    (hr : Prog.Run (sem (fun _ _ => True) p) (m i) w tr (x, i') w')
    (hs : ∀ ev ∈ tr, ¬SyncFails ev) :
    Prog.Run (sem noSyncFailure p) (m i) w tr (x, i') w' := by
  refine (hr.restrict hs).mono fun c w r w' ⟨hn, ch, _, hx⟩ => ⟨ch, ?_, hx⟩
  rintro rfl
  by_contra hfail
  rw [Bool.not_eq_false] at hfail
  rw [exec, Choice.mdbGuard, if_pos hfail] at hx
  cases hx
  exact hn ⟨_, rfl⟩

/-! ## What a handle reads -/

/-- If no call fails, the computation returns `a` to the process `q`. -/
def Returns {α : Type} (q : Nat) (m : CasM α) (j : Impl) (w : World) (a : α) : Prop :=
  (∃ tr x j' w', Prog.Run (sem (faults false) q) (m j) w tr (x, j') w') ∧
    ∀ tr x j' w', Prog.Run (sem (faults false) q) (m j) w tr (x, j') w' → x = .ok a

/-- What is safe where nothing fails returns. -/
theorem returns_of_safe {m : CasM α} {a : α} (hI : Inv (.smooth ext) q w)
    (hm : Eff.Safe ((Setting.smooth ext).rules q) (fun x _ _ => x = .ok a) m j w) :
    Returns q m j w a :=
  ⟨Setting.solo_exists_run hI hm, fun _ _ _ _ hr => (Setting.solo_run hr hI hm).2⟩

/-- Where nothing fails, nothing but `pwrite` fails. -/
theorem Setting.reliable_smooth : (Setting.smooth ext).Reliable := fun _ ⟨_, h⟩ =>
  absurd (h rfl).1 (by simp)

section

variable {h d : Bytes} {e : IndexEntry}

/-- A handle without a batch reads the committed blobs. -/
theorem safe_get_committed (hI : Inv (.smooth ext) q w) (hj : Idle q j w)
    (hlen : h.length = kHashLen) (hh : Holds ext w.pack w.env.db.blobs h e d) :
    Eff.Safe ((Setting.smooth ext).rules q) (fun x _ _ => x = .ok (some d)) (get ext h) j w := by
  refine (safe_get hI (.inl hj) hlen).mono fun x j' w' _ ⟨_, hx⟩ => ?_
  obtain ⟨db, file, hs, _, hsome⟩ := hx ⟨Setting.reliable_smooth, .inl trivial⟩
  obtain ⟨w₁, _, hR, _, rfl, rfl⟩ := hs.eq_snapshot hj
  obtain rfl := hR.calm trivial
  exact hsome e d hh

theorem safe_open_get (hI : Inv (.smooth ext) q w) (hj : j.New) (htxn : w.txn q = none)
    (hl : w.env.lock ≠ some q) (hlen : h.length = kHashLen)
    (hh : Holds ext w.pack w.env.db.blobs h e d) :
    Eff.Safe ((Setting.smooth ext).rules q) (fun x _ _ => x = .ok (some d))
      (open_ >>= fun _ => get ext h) j w := by
  have hc : Closed (.smooth ext) q w (w.store ext) w :=
    ⟨htxn, hl, rfl, fun _ => .of_eq rfl rfl⟩
  refine safe_seq hI (safe_open Setting.reliable_smooth (.inl trivial) hI hj hc) ?_
    fun _ _ _ _ h => nomatch h.1
  rintro _ j' w' hI' ⟨_, _, ho⟩
  have hsame := ho.same trivial
  refine safe_get_committed (e := e) hI' ho.rest.idle hlen ?_
  rw [hsame.pack, hsame.blobs]
  exact hh

/-- A handle that is dropped and opened again reads every blob. -/
theorem safe_reopen_get (hI : Inv (.smooth ext) q w) (hj : Idle q j w)
    (hl : w.env.lock ≠ some q) (hlen : h.length = kHashLen)
    (hh : Holds ext w.pack w.env.db.blobs h e d) :
    Eff.Safe ((Setting.smooth ext).rules q) (fun x _ _ => x = .ok (some d))
      (destroy >>= fun _ => open_ >>= fun _ => get ext h) j w := by
  refine safe_seq hI (safe_destroy_rest (M := w.store ext) hI ⟨hj, rfl, hl⟩) ?_
    fun _ _ _ _ h => nomatch h.1
  rintro _ _ w₁ hI₁ ⟨_, rfl, hc, hsame⟩
  obtain ⟨hdb, hfs⟩ := hsame trivial
  refine safe_open_get (e := e) hI₁ j.new_closed hc.txn hc.unlocked hlen ?_
  have hp : w₁.pack = w.pack := by simp only [World.pack, hdb, hfs]
  rw [hp, hdb]
  exact hh

/-- A sweep keeps the live blobs. -/
theorem Swept.holds {file file' : Bytes} {t t' : SortedMap Bytes Bytes}
    (hs : Swept live file t file' t') (hl : live h = .ok true) (hh : Holds ext file t h e d) :
    ∃ e', Holds ext file' t' h e' d := by
  obtain ⟨v, hv, hd, hle, hr⟩ := hh
  obtain ⟨e₁, e', hd₁, hf, hd', hc⟩ := hs.kept h v hv hl
  rw [hd] at hd₁
  cases hd₁
  have hcell : PackCas.cellOf ext file' _ = PackCas.cellOf ext file _ := Swept.cellOf hd hd' hc
  simp only [PackCas.cellOf, hd, hd'] at hcell
  exact ⟨e', encodeEntry e', hf, hd', hc.le', hcell.trans hr⟩

end

/-! ## Atomicity -/

/-- What an exception of `compact` may leave: `w` is the directory before, seen by the process `p`,
and `i'` and `w'` are its handle and the directory after. Every live blob that could be read is
read by this handle, by the handles of other processes, by new ones, and after reopening; the
committed pack is in the directory; nobody holds the writer lock. -/
structure Atomic (ext : Ext) (live : Bytes → Except Err Bool) (p : Nat) (w : World) (i' : Impl)
    (w' : World) : Prop where
  blobs : ∀ h e d, h.length = kHashLen → live h = .ok true →
    Holds ext w.pack (w.seen p).blobs h e d →
    Returns p (get ext h) i' w' (some d) ∧
    (∀ q j, q ≠ p → Idle q j w → Returns q (get ext h) j w' (some d)) ∧
    (∀ q j, j.New → Returns q (open_ >>= fun _ => get ext h) j w' (some d)) ∧
    Returns p (destroy >>= fun _ => open_ >>= fun _ => get ext h) i' w' (some d)
  named : w'.Named
  unlocked : w'.env.lock = none

/-- A call takes no inode back. -/
theorem exec_next_le {ch : Choice} {c : Call} {r : c.Resp} (h : exec p ch c w = some (r, w')) :
    w.fs.next ≤ w'.fs.next := by
  cases c <;> simp only [exec, World.onTxn] at h
  case openPack gen create trunc =>
    split at h
    · cases h
      exact Nat.le_refl _
    · split at h
      · cases h
        split
        · exact Nat.le_refl _
        · exact Nat.le_refl _
      · split at h
        · cases h
          exact Nat.le_succ _
        · cases h
          exact Nat.le_refl _
  case pwrite =>
    cases h
    simp only [Fs.write]
    split
    · exact Nat.le_refl _
    · split <;> exact Nat.le_refl _
  case write =>
    cases h
    simp only [Fs.write]
    split
    · exact Nat.le_refl _
    · split <;> exact Nat.le_refl _
  all_goals (repeat' split at h) <;> cases h <;> exact Nat.le_refl _

theorem run_next_le {m : Prog sig α} {a : α} (hr : Prog.Run (sem choice p) m w tr a w') :
    w.fs.next ≤ w'.fs.next := by
  induction hr with
  | ret => exact Nat.le_refl _
  | call hs _ ih =>
    obtain ⟨ch, _, hx⟩ := hs
    exact (exec_next_le hx).trans ih

/-- What `sync` leaves, if it returns: the working copy is committed, the files are as they were. -/
theorem safe_sync_ready {S : Setting} (hS : ¬S.sound) (hI : Inv S p w) (h : Ready S p i w) :
    Eff.Safe (S.rules p) (fun x i' w' => x = .ok () → Idle p i' w' ∧
      (S.calm → w'.env.db = w.seen p ∧ w'.fs = w.fs)) sync i w := by
  refine Eff.Safe.get ?_
  rcases h with hid | ⟨g, ino, t, hb⟩
  · rw [hid.wtxn]
    refine safe_pure (stable_idle.and (stable_calm (P := fun w' => w' = w))) hI ⟨hid, fun _ => rfl⟩
      fun w₁ _ h₁ _ => ⟨h₁.1, fun hc => ?_⟩
    obtain rfl := h₁.2 hc
    rw [World.seen, hid.txn]
    exact ⟨rfl, rfl⟩
  · rw [hb.wtxn]
    refine (safe_commitBatch hI hb fun hs => absurd hs hS).mono fun x i' w' _ h hx => ?_
    subst hx
    obtain ⟨_, hid, _, hc, _⟩ := h
    refine ⟨hid, fun hcalm => ?_⟩
    rw [World.seen, hb.txn]
    exact hc hcalm

/-- The tables a handle sees are of the committed generation. -/
theorem Ready.gen_seen {S : Setting} (h : Ready S p i w) : (w.seen p).gen = w.env.db.gen := by
  rcases h with hid | ⟨g, ino, t, hb⟩
  · rw [World.seen, hid.txn]
    rfl
  · rw [World.seen, hb.txn]
    exact hb.tgen.trans hb.gen.symm

/-- A handle survives a switch to a later generation. -/
theorem HandleOk.later {g : Nat} (hj : HandleOk j w) (hg : w.env.db.gen = .ok g)
    (hg' : w'.env.db.gen = .ok (g + 1)) (hn : w.fs.next ≤ w'.fs.next) : HandleOk j w' := by
  refine ⟨fun m hm => ?_, hj.max, hj.nil⟩
  have hle := (hj.map m hm).le g hg
  refine ⟨fun k hk => ?_, fun hk => ?_, (hj.map m hm).lt.trans_le hn⟩
  · cases hk.symm.trans hg'
    omega
  · have heq := Except.ok.inj (hk.symm.trans hg')
    omega

/-- A directory in which nobody writes is one that every process may have to itself. -/
theorem Inv.smooth_of_free (hI : Inv (.any ext) p w) (htxn : w.txn p = none)
    (hlock : w.env.lock = none) : (∀ q, Inv (.smooth ext) q w) ∧ ∀ q, w.txn q = none := by
  have hwriter : w.env.writer = none := by
    cases hw : w.env.writer with
    | none => rfl
    | some x =>
      obtain ⟨q, t⟩ := x
      obtain rfl := (hI.solo trivial).writer q t hw
      rw [World.txn, hw] at htxn
      simp at htxn
  refine ⟨fun q => ?_, fun q => by rw [World.txn, hwriter]⟩
  refine ⟨hI.shape, trivial, fun h => False.elim h, fun _ => ⟨fun r hr => ?_, fun r t hr => ?_⟩⟩
  · rw [hlock] at hr
    cases hr
  · rw [hwriter] at hr
    cases hr

/-- A directory that nobody has locked, whose committed blobs include the live ones of before. -/
theorem Atomic.of_holds (hI : Inv (.any ext) p w') (hid : Idle p i' w') (hlock : w'.env.lock = none)
    (hnamed : w'.Named)
    (hother : ∀ j, HandleOk j w → HandleOk j w')
    (hblobs : ∀ h e d, live h = .ok true → Holds ext w.pack (w.seen p).blobs h e d →
      ∃ e', Holds ext w'.pack w'.env.db.blobs h e' d) : Atomic ext live p w i' w' := by
  obtain ⟨hInv, hfree⟩ := hI.smooth_of_free hid.txn hlock
  have hunlocked : ∀ q, w'.env.lock ≠ some q := fun q => by simp [hlock]
  refine ⟨fun h e d hlen hl hh => ?_, hnamed, hlock⟩
  obtain ⟨e', hh'⟩ := hblobs h e d hl hh
  refine ⟨?_, fun q j hne hj => ?_, fun q j hj => ?_, ?_⟩
  · exact returns_of_safe (hInv p) (safe_get_committed (hInv p) hid hlen hh')
  · exact returns_of_safe (hInv q) (safe_get_committed (hInv q)
      ⟨hother j hj.handle, hj.wtxn, hfree q, hid.format⟩ hlen hh')
  · exact returns_of_safe (hInv q) (safe_open_get (hInv q) hj (hfree q) (hunlocked q) hlen hh')
  · exact returns_of_safe (hInv p) (safe_reopen_get (hInv p) hid (hunlocked p) hlen hh')

section

variable {e : Err}

/-- If the `mdb_env_sync` behind the commit does not fail, an exception of `compact` leaves
everything live readable. -/
theorem atomic_of_noSyncFailure (hlive : ∀ k e, live k = .error e → e.caught)
    (hI : Inv (.any ext) p w) (hready : Ready (.any ext) p i w) (hnamed : w.Named)
    (hroom : ∀ g, w.env.db.gen = .ok g → g + 1 < 2 ^ 64)
    (hr : Prog.Run (sem (fun _ _ => True) p) (compact live i) w tr (.error e, i') w')
    (hlock : ⟨.flockTry, .ok true⟩ ∈ tr) (hs : ∀ ev ∈ tr, ¬SyncFails ev) :
    Atomic ext live p w i' w' := by
  have hnext := run_next_le hr
  obtain ⟨tr₁, i₁, w₁, tr₂, w₂, h₁, h₂, hunlock, hev⟩ := run_compact_error hr hlock
  obtain ⟨hI₁, hsync⟩ := Setting.solo_run h₁ hI (safe_sync_ready (S := .any ext) id hI hready)
  obtain ⟨hid₁, hsame₁⟩ := hsync rfl
  obtain ⟨hdb₁, hfs₁⟩ := hsame₁ trivial
  have hgen₁ : w₁.env.db.gen = w.env.db.gen := by rw [hdb₁, hready.gen_seen]
  have hpack₁ : w₁.pack = w.pack := by simp only [World.pack, hgen₁, hfs₁]
  -- the `try` block
  have hI₂ : Inv (.synced ext) p (w₁.setLock (some p)) := by
    refine ⟨hI₁.shape.congr rfl rfl, trivial, fun h => False.elim h, fun _ => ⟨fun q hq => ?_, (hI₁.solo trivial).writer⟩⟩
    cases hq
    rfl
  have hS : (Setting.synced ext).Compacts live ((w₁.setLock (some p)).store ext) :=
    ⟨by rintro ⟨_, h⟩; simpa using h rfl, hlive, fun h => False.elim h, fun h => absurd trivial h⟩
  have hb : Before (.synced ext) ((w₁.setLock (some p)).store ext) (w₁.setLock (some p))
      (w₁.setLock (some p)) := ⟨rfl, fun _ => ⟨rfl, rfl, fun _ _ _ h => h⟩⟩
  have hroom' : ∀ w' g, Inv (.synced ext) p w' →
      Before (.synced ext) ((w₁.setLock (some p)).store ext) (w₁.setLock (some p)) w' →
      w'.env.db.gen = .ok g → g + 1 < 2 ^ 64 := fun w' g _ hb hg => by
    rw [(hb.same trivial).1] at hg
    exact hroom g (hgen₁.symm.trans hg)
  obtain ⟨hI₃, _, hid₃, _, hc, hend⟩ := Setting.solo_run
    (run_noSyncFailure h₂ fun ev he hf => hs ev ((hev ev hf).2 he) hf) hI₂
    (safe_compactLocked hS hI₂ (hid₁.setLock _) rfl hb hroom')
  have hw' := hunlock hc
  subst hw'
  have hI' : Inv (.any ext) p (w₂.unlock p) := by
    refine ⟨hI₃.shape.congr rfl rfl, trivial, fun h => False.elim h, fun _ => ⟨fun q hq => ?_, (hI₃.solo trivial).writer⟩⟩
    have hq : (if w₂.env.lock = some p then none else w₂.env.lock) = some q := hq
    split at hq
    · cases hq
    · exact (hI₃.solo trivial).lock q hq
  have hfree : (w₂.unlock p).env.lock = none := by
    cases hl : (w₂.unlock p).env.lock with
    | none => rfl
    | some q =>
      obtain rfl := (hI'.solo trivial).lock q hl
      exact absurd hl (World.lock_unlock_ne w₂ q)
  have hid' : Idle p i' (w₂.unlock p) := hid₃.setLock _
  rcases hend with ⟨hbefore, _⟩ | ⟨hafter, _⟩
  · obtain ⟨hdb, hpk, hname⟩ := hbefore.same trivial
    have hdb : w₂.env.db = w₁.env.db := hdb
    have hpk : w₂.pack = w₁.pack := hpk
    have hgen : w₂.env.db.gen = w.env.db.gen := by rw [hdb, hgen₁]
    have hino : ∀ g i, w.env.db.gen = .ok g → w.fs.ino g = some i → w₂.fs.ino g = some i :=
      fun g i hg hi => hname g i (hgen₁.trans hg) (hfs₁.symm ▸ hi)
    refine .of_holds hI' hid' hfree ?_ (fun j hj => hj.congr hgen hino hnext) fun h e d _ hh => ⟨e, ?_⟩
    · obtain ⟨g, i, hg, hi⟩ := hnamed
      exact ⟨g, i, hgen.trans hg, hino g i hg hi⟩
    · rw [show (w₂.unlock p).pack = w.pack from hpk.trans hpack₁,
        show (w₂.unlock p).env.db = w.seen p from hdb.trans hdb₁]
      exact hh
  · have hcomp := hafter.calm trivial
    obtain ⟨g, hg⟩ := hI.shape.gen
    have hgen : w₂.env.db.gen = .ok (g + 1) := by
      rw [hcomp.gen g (hgen₁.trans hg), nextGen_eq (hroom g hg)]
    obtain ⟨ino, hino⟩ := hcomp.name _ hgen
    refine .of_holds hI' hid' hfree ⟨_, ino, hgen, hino⟩ (fun j hj => hj.later hg hgen hnext)
      fun h e d hl hh => ?_
    have hswept := hcomp.swept
    rw [show (w₁.setLock (some p)).pack = w.pack from hpack₁,
      show (w₁.setLock (some p)).env.db = w.seen p from hdb₁] at hswept
    exact hswept.holds hl hh

end

/-! ## The call that loses the store -/

section

variable {e : Err} {g ino newIno : Nat} {db : Db} {file : Bytes} {M : Store} {w₀ : World}

/-- The part of the switch that its handler guards, when `mdb_env_sync` fails in it: the commit
stands. -/
theorem run_switch_syncFails (hlive : ∀ k e, live k = .error e → e.caught)
    (hI : Inv (.any ext) p w) (hw : Compacting p i w g ino newIno db file [] db)
    (hsince : Since (.any ext) M w₀ g ino db file)
    (hr : Prog.Run (sem (fun _ _ => True) p)
      ((txnScope (compactCopy live g ⟨g, ino⟩ newIno) >>= fun n =>
        (perform .txnCommit >>= mdbCheck "txn_commit") >>= fun _ =>
          (perform .envSync >>= mdbCheck "env_sync") >>= fun _ => pure n) i) w tr (.error e, i') w')
    {ev : Tarmac.Event sig} (he : ev ∈ tr) (hs : SyncFails ev) :
    w'.env.db.gen = .ok (nextGen g) ∧ e.caught := by
  obtain ⟨y, rfl⟩ := hs
  have hnever : Never .envSync (txnScope (compactCopy live g ⟨g, ino⟩ newIno)) :=
    never_envSync_txnScope never_envSync_compactCopy
  rcases Eff.run_seq hr with ⟨tr₁, n, i₂, w₂, tr₂, h₁, h₂, rfl⟩ | ⟨e', _, h₁⟩
  · obtain ⟨_, _, out, t', hc, hf⟩ := Setting.solo_run h₁ hI (safe_copyScope hlive hI hw hsince)
    have he₁ := (List.mem_append.1 he).resolve_left fun h => (hnever i).run h₁ _ h rfl
    obtain ⟨r, w₃, tr₃, ⟨ch, _, hx⟩, h₃, rfl⟩ := run_ask h₂
    have he₂ := (List.mem_cons.1 he₁).resolve_left fun h => by cases h
    rw [exec, hc.txn] at hx
    dsimp only at hx
    split at hx
    · cases hx
      rw [mdbCheck_error (Choice.mdbErrno_ne _)] at h₃
      cases h₃
      exact absurd he₂ List.not_mem_nil
    · cases hx
      obtain ⟨r, w₄, tr₄, ⟨ch, _, hx⟩, h₄, rfl⟩ := run_ask h₃
      simp only [exec, Choice.mdbGuard] at hx
      split at hx
      · cases hx
        rw [mdbCheck_error (Choice.mdbErrno_ne _)] at h₄
        cases h₄
        exact ⟨hf.gen, rfl⟩
      · cases hx
        cases h₄
  · exact absurd rfl ((hnever i).run h₁ _ he)

/-- A switch in which `mdb_env_sync` fails: the commit stands, and the handler removes its pack. -/
theorem run_compactSwitch_syncFails (hlive : ∀ k e, live k = .error e → e.caught)
    (hI : Inv (.any ext) p w) (hw : Compacting p i w g ino newIno db file [] db)
    (hsince : Since (.any ext) M w₀ g ino db file)
    (hr : Prog.Run (sem (fun _ _ => True) p) (compactSwitch live g ⟨g, ino⟩ newIno i) w tr
      (.error e, i') w')
    {ev : Tarmac.Event sig} (he : ev ∈ tr) (hs : SyncFails ev) :
    w'.env.db.gen = .ok (nextGen g) ∧ w'.fs.ino (nextGen g) = none ∧ e.caught := by
  rcases Eff.run_catchIf hr with ⟨hr, hn⟩ | ⟨tr₁, e₁, i₁, w₁, tr₂, h₁, h₂, rfl⟩
  · exact absurd (run_switch_syncFails hlive hI hw hsince hr he hs).2 (hn e rfl)
  · obtain ⟨_, w₂, tr₃, ⟨_, _, hx⟩, h₃, rfl⟩ := Eff.run_perform h₂
    obtain ⟨_, w₃, tr₄, ⟨_, _, hx'⟩, h₄, rfl⟩ := Eff.run_perform h₃
    cases hx
    cases hx'
    cases h₄
    have he₁ := (List.mem_append.1 he).resolve_right fun h => by
      obtain ⟨y, rfl⟩ := hs
      simp only [List.mem_cons, List.not_mem_nil, or_false] at h
      rcases h with h | h <;> cases h
    obtain ⟨hgen, hc⟩ := run_switch_syncFails hlive hI hw hsince h₁ he₁ hs
    refine ⟨hgen, ?_, hc⟩
    change (w₁.fs.unlink (nextGen g)).ino (nextGen g) = none
    rw [Fs.ino_unlink, if_pos rfl]

end

section

variable {e : Err}

/-- The `try` block of `compact` ends before both packs are open, or it goes on to the switch with
both open, in a transaction on the committed tables. -/
theorem run_compactLocked {x : Except Err Unit} (live : Bytes → Except Err Bool)
    (hI : Inv (.any ext) p w) (hid : Idle p i w) (hl : w.env.lock = some p)
    (hr : Prog.Run (sem (fun _ _ => True) p) (compactLocked live i) w tr (x, i') w') :
    ((∃ e, x = .error e) ∧ ∀ ev ∈ tr, ¬SyncFails ev) ∨
    ∃ g ino newIno i₁ w₁ tr₁ tr₂, tr = tr₁ ++ tr₂ ∧ (∀ ev ∈ tr₁, ¬SyncFails ev) ∧
      Inv (.any ext) p w₁ ∧ Compacting p i₁ w₁ g ino newIno w.env.db w.pack [] w.env.db ∧
      Since (.any ext) (w.store ext) w g ino w.env.db w.pack ∧
      Prog.Run (sem (fun _ _ => True) p)
        ((compactSwitch live g ⟨g, ino⟩ newIno >>= fun n => compactEnd g newIno n) i₁) w₁ tr₂
        (x, i') w' := by
  have hbegin : ∀ {r : Except Errno Unit} {ev : Tarmac.Event sig},
      ev ∈ [(⟨.txnBegin, r⟩ : Tarmac.Event sig)] → ¬SyncFails ev := by
    rintro r ev he ⟨y, rfl⟩
    cases List.mem_singleton.1 he
  obtain ⟨r, w₁, tr₁, ⟨ch, _, hx⟩, h₁, rfl⟩ := run_ask hr
  simp only [exec] at hx
  split at hx
  · cases hx
    rw [mdbCheck_error (Choice.mdbErrno_ne _)] at h₁
    cases h₁
    exact .inl ⟨⟨_, rfl⟩, fun ev he => hbegin he⟩
  · split at hx
    · cases hx
      -- the transaction has begun
      obtain ⟨g, hg⟩ := hI.shape.gen
      have hI₂ : Inv (.any ext) p (w.setWriter (some (p, w.env.db))) :=
        ⟨hI.shape.congr rfl rfl, trivial, fun h => False.elim h, fun _ => ⟨(hI.solo trivial).lock, fun q t h => by
          cases h
          rfl⟩⟩
      have h₂ : InTxn p i (w.setWriter (some (p, w.env.db))) g w.env.db w.env.db :=
        ⟨HandleOk.congr (w := w) hid.handle rfl (fun _ _ _ h => h) (Nat.le_refl _), hid.wtxn, hl,
          World.txn_setWriter_self _ _ _, rfl, hg, hid.format⟩
      have hb : Before (.any ext) (w.store ext) w (w.setWriter (some (p, w.env.db))) :=
        ⟨rfl, fun _ => ⟨rfl, rfl, fun _ _ _ h => h⟩⟩
      have hopen : Never .envSync (txnScope compactOpen) :=
        never_envSync_txnScope never_envSync_compactOpen
      have hcalm : ∀ {tr₂ : List (Tarmac.Event sig)}, (∀ ev ∈ tr₂, ev.1 ≠ .envSync) →
          ∀ ev ∈ (⟨.txnBegin, .ok ()⟩ : Tarmac.Event sig) :: tr₂, ¬SyncFails ev := by
        rintro tr₂ hn ev he ⟨y, rfl⟩
        rcases List.mem_cons.1 he with he | he
        · cases he
        · exact hn _ he rfl
      rw [show mdbCheck "txn_begin" (.ok ()) = (pure () : CasM Unit) from rfl, pure_bind] at h₁
      rcases Eff.run_seq h₁ with ⟨tr₂, y, i₂, w₂, tr₃, h₃, h₄, rfl⟩ | ⟨e', rfl, h₃⟩
      · obtain ⟨hI₃, _, ino, newIno, file, rfl, hc, hsince⟩ := Setting.solo_run h₃ hI₂
          (safe_openScope live hI₂ h₂ hb)
        have hfile : file = w.pack := (hsince.same trivial).2.1
        subst hfile
        exact .inr ⟨g, ino, newIno, i₂, w₂, _, tr₃, rfl, hcalm ((hopen i).run h₃), hI₃, hc, hsince, h₄⟩
      · exact .inl ⟨⟨e', rfl⟩, hcalm ((hopen i).run h₃)⟩
    · cases hx

/-- The `try` block of `compact`, when `mdb_env_sync` fails in it: the committed generation has no
pack. -/
theorem run_compactLocked_syncFails (hlive : ∀ k e, live k = .error e → e.caught)
    (hI : Inv (.any ext) p w) (hid : Idle p i w) (hl : w.env.lock = some p)
    (hr : Prog.Run (sem (fun _ _ => True) p) (compactLocked live i) w tr (.error e, i') w')
    {ev : Tarmac.Event sig} (he : ev ∈ tr) (hs : SyncFails ev) : ¬w'.Named ∧ e.caught := by
  rcases run_compactLocked live hI hid hl hr with
    ⟨_, hn⟩ | ⟨g, ino, newIno, i₁, w₁, tr₁, tr₂, rfl, hn, hI₁, hc, hsince, hrest⟩
  · exact absurd hs (hn ev he)
  · have he₂ := (List.mem_append.1 he).resolve_left fun h => hn ev h hs
    rcases Eff.run_seq hrest with ⟨tr₃, n, i₂, w₂, tr₄, h₃, h₄, rfl⟩ | ⟨e', heq, h₃⟩
    · have he₄ := (List.mem_append.1 he₂).resolve_left fun h =>
        raises_compactSwitch _ _ _ _ _ _ h₃ ev h hs
      obtain ⟨y, rfl⟩ := hs
      exact absurd rfl ((never_envSync_compactEnd i₂).run h₄ _ he₄)
    · cases heq
      obtain ⟨hgen, hnone, hcaught⟩ := run_compactSwitch_syncFails hlive hI₁ hc hsince h₃ he₂ hs
      refine ⟨fun ⟨k, j, hk, hj⟩ => ?_, hcaught⟩
      cases hk.symm.trans hgen
      rw [hnone] at hj
      cases hj

/-- If the `mdb_env_sync` behind the commit fails, the committed generation's pack is gone. -/
theorem not_named_of_syncFails (hlive : ∀ k e, live k = .error e → e.caught)
    (hI : Inv (.any ext) p w) (hready : Ready (.any ext) p i w)
    (hr : Prog.Run (sem (fun _ _ => True) p) (compact live i) w tr (.error e, i') w')
    (hlock : ⟨.flockTry, .ok true⟩ ∈ tr) {ev : Tarmac.Event sig} (he : ev ∈ tr)
    (hs : SyncFails ev) : ¬w'.Named := by
  obtain ⟨tr₁, i₁, w₁, tr₂, w₂, h₁, h₂, hunlock, hev⟩ := run_compact_error hr hlock
  obtain ⟨hI₁, hsync⟩ := Setting.solo_run h₁ hI (safe_sync_ready (S := .any ext) id hI hready)
  have hI₂ : Inv (.any ext) p (w₁.setLock (some p)) := by
    refine ⟨hI₁.shape.congr rfl rfl, trivial, nofun, fun _ => ⟨fun q hq => ?_, (hI₁.solo trivial).writer⟩⟩
    cases hq
    rfl
  obtain ⟨hn, hc⟩ := run_compactLocked_syncFails hlive hI₂ ((hsync rfl).1.setLock _) rfl h₂
    ((hev ev hs).1 he) hs
  rw [hunlock hc]
  exact hn

/-- `compact` is atomic on error exactly when the `mdb_env_sync` behind its commit does not fail:
for every directory, whatever its index and pack say, every open handle, with or without a batch,
every predicate, and every choice of the calls that fail after the writer lock was taken. -/
theorem compact_atomic_iff (ext : Ext) (live : Bytes → Except Err Bool) (p : Nat)
    (hlive : ∀ k e, live k = .error e → e.caught) (hshape : Shape w) (hsolo : Solo p w)
    (hready : Ready (.any ext) p i w) (hnamed : w.Named)
    (hroom : ∀ g, w.env.db.gen = .ok g → g + 1 < 2 ^ 64)
    (hr : Prog.Run (sem (fun _ _ => True) p) (compact live i) w tr (.error e, i') w')
    (hlock : ⟨.flockTry, .ok true⟩ ∈ tr) :
    Atomic ext live p w i' w' ↔ ∀ x, ⟨.envSync, .error x⟩ ∉ tr := by
  have hI : Inv (.any ext) p w := ⟨hshape, trivial, nofun, fun _ => hsolo⟩
  refine ⟨fun ha x hx => ?_, fun hn => ?_⟩
  · exact not_named_of_syncFails hlive hI hready hr hlock hx ⟨x, rfl⟩ ha.named
  · refine atomic_of_noSyncFailure hlive hI hready hnamed hroom hr hlock fun ev he ⟨x, hx⟩ => ?_
    exact hn x (hx ▸ he)

/-! ## A failing input -/

/-- `mdb_env_sync` fails, and nothing else. -/
def failEnvSync : Call → Choice
  | .envSync => ⟨true, 0⟩
  | _ => {}

def isLocked : Tarmac.Event sig → Bool
  | ⟨.flockTry, .ok true⟩ => true
  | _ => false

def isSyncFailure : Tarmac.Event sig → Bool
  | ⟨.envSync, .error _⟩ => true
  | _ => false

/-- A handle of a session is ready to `compact`. -/
theorem Keeps.ready {m : Model} {hext : ext.Lawful}
    (h : Keeps (.session ext hext true) p [] (i, w) m) :
    Shape w ∧ Solo p w ∧ Ready (.any ext) p i w := by
  refine ⟨h.inv.shape, h.inv.solo trivial, ?_⟩
  have habs := h.abs
  cases hbatch : m.batch with
  | none =>
    rw [Abs, hbatch] at habs
    exact .inl habs.idle
  | some batch =>
    rw [Abs, hbatch] at habs
    obtain ⟨g, ino, t, hb, -⟩ := habs
    exact .inr ⟨g, ino, t, hb.handle, hb.wtxn, hb.thread, hb.lock, hb.txn, hb.cur, hb.gen, hb.name,
      hb.tgen, hb.format, hb.tformat, hb.le, hb.len, fun h => False.elim h, fun h => False.elim h,
      fun h => False.elim h⟩

/-- A session that was evaluated is ready for a `compact`. -/
theorem ready_of_openSession {ops : List Op} {es : List Event}
    (h : openSession .sample ops = some (es, i, w)) (hash : ∀ op ∈ ops, op.HashOk)
    (hgen : ops.countP Op.isCompact + 1 < 2 ^ 64) :
    Session .sample 0 es i w ∧ Shape w ∧ Solo 0 w ∧ Ready (.any .sample) 0 i w := by
  obtain ⟨hs, hops⟩ := session_of_openSession h
  have hcount : es.countP (·.op.isCompact) = ops.countP Op.isCompact := by
    rw [← hops, List.countP_map]
    rfl
  obtain ⟨m, -, hk⟩ := hs.keeps Ext.lawful_sample
    (fun e he => hash e.op (hops ▸ List.mem_map_of_mem he)) (by rw [hcount]; exact hgen)
  exact ⟨hs, hk.ready⟩

/-- A new directory, a blob, a `sync`, and a `compact` that keeps everything, whose `mdb_env_sync`
fails. -/
def failingCompact : Option ((List Event × Impl × World) × List (Tarmac.Event sig) × Except Err Unit ×
    Impl × World) := do
  let s ← openSession .sample [.put [1], .sync]
  let (tr, (x, i'), w') ← evalWith failEnvSync (compact (fun _ => .ok true) s.2.1) s.2.2
  pure (s, tr, x, i', w')

/-- A session after which a `compact` that keeps everything fails in its `mdb_env_sync`. -/
theorem exists_failing_compact : ∃ es i w tr e i' w', Session .sample 0 es i w ∧ Shape w ∧ Solo 0 w ∧
    Ready (.any .sample) 0 i w ∧ w.Named ∧ w.env.db.gen = .ok 0 ∧
    Prog.Run (sem (fun _ _ => True) 0) (compact (fun _ => .ok true) i) w tr (.error e, i') w' ∧
    ⟨.flockTry, .ok true⟩ ∈ tr ∧ ∃ ev ∈ tr, SyncFails ev := by
  have hsome : failingCompact.any (fun s => s.1.2.2.env.db.gen.toOption == some 0 &&
      s.1.2.2.fs.ino 0 == some 0 && s.2.1.any isLocked && s.2.1.any isSyncFailure &&
      s.2.2.1.toOption.isNone) := by
    decide +kernel
  obtain ⟨⟨⟨es, i, w⟩, tr, x, i', w'⟩, hrun, hobs⟩ := (Option.any_eq_true _ _).1 hsome
  simp only [Bool.and_eq_true, beq_iff_eq] at hobs
  obtain ⟨⟨⟨⟨hgen, hino⟩, hlock⟩, hfail⟩, hx⟩ := hobs
  simp only [failingCompact, Option.bind_eq_bind, Option.bind_eq_some_iff, Option.pure_def,
    Option.some.injEq, Prod.mk.injEq] at hrun
  obtain ⟨⟨es, i, w⟩, h, ⟨tr, ⟨x, i'⟩, w'⟩, h₃, ⟨rfl, rfl, rfl⟩, rfl, rfl, rfl, rfl⟩ := hrun
  dsimp only at *
  obtain ⟨hs, hshape, hsolo, hready⟩ := ready_of_openSession h (by simp [Op.HashOk]) (by decide)
  obtain ⟨g, hg⟩ := hshape.gen
  have hg0 : g = 0 := by
    rw [hg] at hgen
    exact Option.some.inj hgen
  subst hg0
  obtain ⟨ev, he, hev⟩ := List.any_eq_true.1 hfail
  have hfails : SyncFails ev := by
    rw [isSyncFailure.eq_def] at hev
    split at hev
    · exact ⟨_, rfl⟩
    · cases hev
  have hflock : ⟨.flockTry, .ok true⟩ ∈ tr := by
    obtain ⟨ev, he, hev⟩ := List.any_eq_true.1 hlock
    rw [isLocked.eq_def] at hev
    split at hev
    · exact he
    · cases hev
  cases x with
  | ok a => cases hx
  | error e =>
    have hr : Prog.Run (sem (fun _ _ => True) 0) (compact (fun _ => .ok true) i) w tr
        (.error e, i') w' := run_of_evalWith (fun _ => trivial) h₃
    exact ⟨_, i, w, tr, e, i', w', hs, hshape, hsolo, hready, ⟨0, 0, hg, hino⟩, hg, hr, hflock, ev,
      he, hfails⟩

/-- The pack of the blob is lost. -/
theorem compact_loses_pack : ∃ es i w tr e i' w', Session .sample 0 es i w ∧
    Prog.Run (sem (fun _ _ => True) 0) (compact (fun _ => .ok true) i) w tr (.error e, i') w' ∧
    ⟨.flockTry, .ok true⟩ ∈ tr ∧ ¬Atomic .sample (fun _ => .ok true) 0 w i' w' := by
  obtain ⟨es, i, w, tr, e, i', w', hs, hshape, hsolo, hready, _, _, hr, hlock, ev, he, hfails⟩ :=
    exists_failing_compact
  refine ⟨es, i, w, tr, e, i', w', hs, hr, hlock, fun ha => ?_⟩
  exact not_named_of_syncFails (fun _ _ h => by cases h) ⟨hshape, trivial, nofun, fun _ => hsolo⟩
    hready hr hlock he hfails ha.named

/-- The condition at that `compact`. -/
theorem compact_atomic_iff_sample : ∃ w tr e i i' w',
    Prog.Run (sem (fun _ _ => True) 0) (compact (fun _ => .ok true) i) w tr (.error e, i') w' ∧
    (Atomic .sample (fun _ => .ok true) 0 w i' w' ↔ ∀ x, ⟨.envSync, .error x⟩ ∉ tr) := by
  obtain ⟨_, i, w, tr, e, i', w', _, hshape, hsolo, hready, hnamed, hg, hr, hlock, _⟩ :=
    exists_failing_compact
  refine ⟨w, tr, e, i, i', w', hr, compact_atomic_iff .sample (fun _ => .ok true) 0
    (fun _ _ h => by cases h) hshape hsolo hready hnamed (fun g hg' => ?_) hr hlock⟩
  cases hg.symm.trans hg'
  decide

end

end Tarmac.PackCas
