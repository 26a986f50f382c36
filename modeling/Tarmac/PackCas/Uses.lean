import Tarmac.PackCas.BatchKept

/-!
# A handle in use

A process opens a directory and uses the handle, from one thread after the other, while other processes
do what they like (`Handled`). As long as no commit of a batch goes wrong behind `fdatasync`, the handle
is consistent before and after every use, no use makes a call in a transaction that has ended, and one
that throws leaves the open batch as it was (`batches_consistent`). A `sync` whose `mdb_txn_commit` fails
breaks all of it (`refused_commit_ends_batch`).
-/

namespace Tarmac.PackCas

variable {α β : Type} {ext : Ext} {p : Nat} {i i' : Impl} {o o' : Own} {t : Db} {what : String}
  {Q : Except Err α → Impl → Own → Prop}

/-! ## Opening and closing -/

/-- The handle is in no batch and has no transaction; it may hold the lock. -/
def Loose (i : Impl) (o : Own) : Prop := ∃ b, Unbatched b i o

/-- A handle without a batch, in particular. -/
theorem Unbatched.loose {b : Bool} (h : Unbatched b i o) : Loose i o := ⟨b, h⟩

/-- The check of the format leaves the transaction and the lock alone. -/
theorem owns_checkFormat {b : Bool} {db : Db} (h : Working b i o) :
    Owns p (fun _ => Working b) (checkFormat db) i o := by
  refine owns_mdbRead ?_ h
  split
  · split
    · exact .throw fun _ => h
    · exact .pure h
  · refine owns_mdbRead ?_ h
    split
    · exact .throw fun _ => h
    · exact owns_last (owns_txnPut_working h (fun _ h => .pure h) h)

/-- The calls of `cleanup_orphans`. -/
theorem makes_cleanupOrphans {P : Call → Prop} (hlist : ∀ g, P (.listPacks g)) (hunlink : ∀ g, P (.unlink g))
    {g : Nat} : Eff.Makes P (fun _ i' => i' = i) (cleanupOrphans g) i := by
  have hgo (gens : List Nat) : Eff.Makes P (fun _ i' => i' = i) (unlinkOrphans g gens) i := by
    induction gens with
    | nil => exact .pure rfl
    | cons g' gens ih =>
      rw [unlinkOrphans]
      split
      · exact .perform (hunlink _) fun _ => ih
      · exact ih
  refine .seq (.perform (hlist _) fun _ => makes_sysCheck) ?_ fun _ _ h => h
  rintro names _ rfl
  exact hgo names

/-- The cleanup takes the lock and releases it again. -/
theorem owns_cleanupIfFree {g : Nat} (h : Resting i o) :
    Owns p (Parts Resting Loose) (cleanupIfFree g) i o := by
  have h' := h
  obtain ⟨hw, hled, rfl⟩ := h'
  refine owns_flockTry ?_ fun r hr => ?_
  · refine (Owns.of_makes (makes_cleanupOrphans (fun _ => rfl) fun _ => rfl)
      (Q := fun _ i' o' => i' = i ∧ o' = ⟨none, true⟩) fun _ _ h => ⟨h, rfl⟩).seq ?_ ?_
    · rintro _ _ _ ⟨rfl, rfl⟩
      exact owns_last (owns_flockUn (.pure ⟨hw, hled, rfl⟩))
    · rintro e _ _ _ ⟨rfl, rfl⟩
      exact ⟨true, hw, hled, rfl⟩
  · obtain _ | (_ | _) : Except Errno Bool := r
    · exact .pure h
    · exact .pure h
    · exact absurd rfl hr

/-- The body of `open_once` ends without a transaction; where it throws the lock may be left. -/
theorem owns_openBody (h : Resting i o) :
    Owns p (Parts Resting Loose) openBody i o := by
  refine owns_neutral_ask rfl fun _ => owns_sysCheck (fun _ _ => ?_) fun _ _ => h.loose
  refine owns_neutral_ask rfl fun _ => owns_mdbCheck (fun _ _ => ?_) fun _ _ => h.loose
  refine owns_txnBegin_working h (fun o₁ h₁ => ?_) h.loose
  refine (owns_txnScope (b := false) ?_).seq (fun gen i₂ o₂ h₂ => ?_) fun e i' o' _ h => h.loose
  · refine owns_mdbRead (owns_mdbRead ?_ h₁) h₁
    obtain ⟨t, ht⟩ := h₁.own
    refine owns_txnDb (by rw [ht]) (.working (owns_checkFormat h₁) fun _ i' o' h' => ?_)
    exact owns_last (owns_readGen (fun _ => .pure h') fun _ => h')
  · refine owns_txnCommit_working h₂ (fun o₃ h₃ => ?_) fun _ h => h.loose
    refine owns_neutral_ask rfl fun _ => owns_sysCheck (fun _ _ => ?_) fun _ _ => h₃.loose
    refine (owns_cleanupIfFree h₃).seq (fun _ i₄ o₄ h₄ => ?_) fun e i' o' _ h => h
    refine owns_mappingFor.seq ?_ ?_
    · rintro r i' _ ⟨ha, rfl, _⟩
      split
      · exact .pure (h₄.alike ha)
      · exact .throw fun _ => (h₄.alike ha).loose
    · rintro e i' _ _ ⟨ha, rfl, _⟩
      exact (h₄.alike ha).loose

/-- `open_once` leaves no lock. -/
theorem owns_openOnce (h : Resting i o) : Owns p (fun _ => Resting) openOnce i o := by
  refine .catchAll (owns_openBody h) (fun _ _ _ h => h) fun e i' o' _ h' => ?_
  obtain ⟨b, h'⟩ := h'
  rw [h'.own]
  exact owns_flockUn (.throw fun _ => ⟨h'.wtxn, h'.led, rfl⟩)

/-- Who owns nothing owns nothing of what `remove_all` leaves. -/
theorem own_removeAll {w : World} (r : Except Nat Unit) (h : w.own p = ⟨none, false⟩) :
    (w.removeAll r).own p = ⟨none, false⟩ := by
  obtain ⟨htxn, hlock⟩ := own_eq h
  cases r with
  | ok _ => rfl
  | error n =>
    have ht : (w.removeSome n).txn p = none := by
      unfold World.removeSome World.txn at *
      dsimp only at *
      split
      · next q t hw =>
        split at hw
        · cases hw
        · rw [hw] at htxn
          exact htxn
      · rfl
    have hl : ¬(w.removeSome n).env.lock = some p := by
      unfold World.removeSome
      dsimp only
      split
      · simp
      · rw [hlock]
        simp
    rw [World.removeAll, World.own, ht, decide_eq_false hl]

/-- Wiping the directory is no matter of transactions. -/
theorem owns_removeAll {f : Except Nat Unit → CasM α} (h : ∀ r, Owns p Q (f r) i ⟨none, false⟩) :
    Owns p Q (perform .removeAll >>= f) i ⟨none, false⟩ := by
  refine .perform fun r ch w w' ho hx => ⟨rfl, ?_⟩
  cases hx
  rw [own_removeAll _ ho]
  exact h _

/-- A closed handle has no batch. -/
theorem Impl.led_closed (n : Nat) : ({ thread := n } : Impl).Led := fun h => absurd rfl h

/-- `open` leaves the handle at rest. -/
theorem owns_open (h : Resting i o) : Owns p (fun _ => Resting) open_ i o := by
  refine .catchAll (owns_openOnce h) (fun _ _ _ h => h) fun e i' o' _ h' => ?_
  rw [h'.own]
  exact owns_removeAll fun _ => .modify (owns_openOnce ⟨rfl, Impl.led_closed _, rfl⟩)

/-- The destruction ends the batch, and cannot throw. -/
theorem owns_destroy (h : Consistent i o) : Owns p (Parts Resting fun _ _ => False) destroy i o := by
  have hclose {i : Impl} {o : Own} (h : Resting i o) :
      Owns p (Parts Resting fun _ _ => False) (do
        perform .flockUn
        Eff.modify fun i => { thread := i.thread }) i o := by
    rw [h.own]
    exact owns_flockUn (owns_last (.modify (.pure ⟨rfl, Impl.led_closed _, rfl⟩)))
  refine .get ?_
  rcases h with ⟨t, h⟩ | h
  · rw [if_pos h.wtxn]
    exact (owns_abortBatch h).seq (fun _ i' o' hr => hclose hr) fun e i' o' _ hf => hf
  · rw [if_neg (by simp [h.wtxn])]
    exact hclose h

/-! ## Opening and closing commit no batch -/

section

variable {ino : Nat}

/-- The handler of `txnScope` syncs no pack. -/
theorem never_fdatasync_txnScope {m : CasM α} (h : Never (.fdatasync ino) m) :
    Never (.fdatasync ino) (txnScope m) :=
  Eff.Avoids.catchIf h fun _ => never_ask (fun _ => never_mdbCheck) (fun _ => never_throw) (by simp)

theorem never_fdatasync_checkFormat {db : Db} : Never (.fdatasync ino) (checkFormat db) := by
  refine never_ask (fun _ => never_mdbCheck) (fun _ => ?_) (by simp)
  split
  · split
    · exact never_throw
    · exact never_pure
  · refine never_ask (fun _ => never_mdbCheck) (fun _ => ?_) (by simp)
    split
    · exact never_throw
    · exact never_seq (never_perform (by simp)) fun _ => never_mdbCheck

theorem never_fdatasync_cleanupIfFree {g : Nat} : Never (.fdatasync ino) (cleanupIfFree g) := by
  have hgo (gens : List Nat) : Never (.fdatasync ino) (unlinkOrphans g gens) := by
    induction gens with
    | nil => exact never_pure
    | cons g' gens ih =>
      rw [unlinkOrphans]
      split
      · exact never_seq (never_perform (by simp)) fun _ => ih
      · exact ih
  refine never_seq (never_perform (by simp)) fun r => ?_
  split
  · exact never_seq (never_ask (fun _ => never_sysCheck) hgo (by simp)) fun _ => never_perform (by simp)
  · exact never_pure

theorem never_fdatasync_openOnce : Never (.fdatasync ino) openOnce := by
  refine Eff.Avoids.catchIf ?_ fun _ => never_seq (never_perform (by simp)) fun _ => never_throw
  refine never_ask (fun _ => never_sysCheck) (fun _ => ?_) (by simp)
  refine never_ask (fun _ => never_mdbCheck) (fun _ => ?_) (by simp)
  refine never_ask (fun _ => never_mdbCheck) (fun _ => ?_) (by simp)
  refine never_seq (never_fdatasync_txnScope ?_) fun g => ?_
  · refine never_ask (fun _ => never_mdbCheck) (fun _ => ?_) (by simp)
    refine never_ask (fun _ => never_mdbCheck) (fun _ => ?_) (by simp)
    refine never_ask (fun _ => never_mdbCheck) (fun db => ?_) (by simp)
    refine never_seq never_fdatasync_checkFormat fun _ => ?_
    exact never_ask (fun _ => never_mdbCheck) (fun _ => Eff.Avoids.ofExcept) (by simp)
  · refine never_ask (fun _ => never_mdbCheck) (fun _ => ?_) (by simp)
    refine never_ask (fun _ => never_sysCheck) (fun _ => ?_) (by simp)
    refine never_seq never_fdatasync_cleanupIfFree fun _ => ?_
    refine never_seq (never_mappingFor rfl) fun m => ?_
    split
    · exact never_pure
    · exact never_throw

theorem never_fdatasync_open : Never (.fdatasync ino) open_ :=
  Eff.Avoids.catchIf never_fdatasync_openOnce fun _ =>
    never_seq (never_perform (by simp)) fun _ => never_modify never_fdatasync_openOnce

theorem never_fdatasync_destroy : Never (.fdatasync ino) destroy := by
  have hclose : Never (.fdatasync ino) (do
      perform .flockUn
      Eff.modify fun i => { thread := i.thread }) :=
    never_seq (never_perform (by simp)) fun _ => Eff.Avoids.modify
  refine never_get fun i => ?_
  split
  · refine never_seq ?_ fun _ => hclose
    refine never_seq (never_seq (never_perform (by simp)) fun _ => never_mdbCheck) fun _ => ?_
    refine never_modify (never_current fun m => never_get fun i => ?_)
    refine never_seq (never_perform (by simp)) fun cut => never_modify (never_modify ?_)
    exact never_perform (by simp)
  · exact hclose

/-- Where nothing is written to a pack, no commit of a batch goes wrong. -/
theorem not_botched_of_never {m : CasM α} {w w' : World} {tr : List (Tarmac.Event sig)} {x : Except Err α}
    (hm : ∀ ino, Never (.fdatasync ino) m) (hr : Prog.Run (among p) (m i) w tr (x, i') w') :
    ¬Botched tr := by
  rintro ⟨ino, e, h⟩
  have hmem : ⟨.fdatasync ino, .ok ()⟩ ∈ tr := h.elim (·.subset (by simp)) (·.subset (by simp))
  exact (hm ino i).run hr _ hmem rfl

end

/-! ## Uses -/

/-- What a process does with a handle; `reopen` destroys it and opens the directory again. -/
inductive Use where
  | put (data : Bytes)
  | get (hash : Bytes)
  | getView (hash : Bytes)
  | size (hash : Bytes)
  | has (hash : Bytes)
  | sync
  | compact (live : Bytes → Except Err Bool)
  | packSize
  | metaPut (key val : Bytes)
  | metaGet (key : Bytes)
  | metaDel (key : Bytes)
  | metaScan (pre : Bytes)
  | reopen

/-- Runs a computation for what it does. -/
def void (m : CasM α) : CasM Unit := m >>= fun _ => pure ()

/-- The code of a use. -/
def Use.code (ext : Ext) : Use → CasM Unit
  | .put data => void (PackCas.put ext data)
  | .get hash => void (PackCas.get ext hash)
  | .getView hash => void (PackCas.getView ext hash)
  | .size hash => void (PackCas.size hash)
  | .has hash => void (PackCas.has hash)
  | .sync => PackCas.sync
  | .compact live => PackCas.compact live
  | .packSize => void PackCas.packSize
  | .metaPut key val => PackCas.metaPut key val
  | .metaGet key => void (PackCas.metaGet key)
  | .metaDel key => PackCas.metaDel key
  | .metaScan pre => void (PackCas.metaScan pre)
  | .reopen => do
    destroy
    open_

/-- What a use that throws leaves of an open batch: the batch as it was, or with the blob of the `put`,
or no batch and the lock released. -/
def Use.Leaves (ext : Ext) (t : Db) (i i' : Impl) (o' : Own) : Use → Prop
  | .put data => PutKeeps ext data t i i' o' ∨ Resting i' o'
  | _ => Stays t i i' o' ∨ Resting i' o'

/-- What a use keeps. -/
def Use.Keeps (ext : Ext) (u : Use) (i : Impl) (o : Own) (x : Except Err α) (i' : Impl) (o' : Own) :
    Prop :=
  Consistent i' o' ∧ ∀ t e, Batching t i o → x = .error e → u.Leaves ext t i i' o'

/-- The value does not matter. -/
theorem owns_void {m : CasM α} {R E : Impl → Own → Prop} (hm : Owns p (Parts R E) m i o) :
    Owns p (Parts R E) (void m) i o := hm.seq (fun _ _ _ h => .pure h) fun _ _ _ _ h => h

/-- What a use does, where it returns and where it throws. -/
theorem Owns.keeps {u : Use} {m : CasM α} {R E : Impl → Own → Prop} (hm : Owns p (Parts R E) m i o)
    (hR : ∀ i' o', R i' o' → Consistent i' o') (hE : ∀ i' o', E i' o' → Consistent i' o')
    (hL : ∀ i' o' t, E i' o' → Batching t i o → u.Leaves ext t i i' o') :
    Owns p (u.Keeps ext i o) m i o := by
  refine hm.mono fun x i' o' hx => ?_
  cases x with
  | ok _ => exact ⟨hR i' o' hx, nofun⟩
  | error _ => exact ⟨hE i' o' hx, fun t _ hb _ => hL i' o' t hx hb⟩

/-- A batch stays what it is when only mappings change. -/
theorem Batching.stays_alike (h : Batching t i o) (ha : i.Alike i') : Stays t i i' o :=
  ⟨h.alike ha, ha.end_, ha.committedEnd⟩

/-- A use that reads. -/
theorem Owns.keeps_reads {u : Use} {m : CasM α} (hm : Owns p (KeepsBatch o i) m i o)
    (h : Consistent i o) (hu : ∀ t i' o', Stays t i i' o' → u.Leaves ext t i i' o') :
    Owns p (u.Keeps ext i o) (void m) i o := by
  have hparts : Owns p (Parts (fun i' o' => i.Alike i' ∧ o' = o) fun i' o' => i.Alike i' ∧ o' = o)
      m i o := hm.mono fun x _ _ hx => by cases x <;> exact hx
  refine (owns_void hparts).keeps ?_ ?_ ?_
  · rintro i' _ ⟨ha, rfl⟩
    exact h.alike ha
  · rintro i' _ ⟨ha, rfl⟩
    exact h.alike ha
  · rintro i' _ t ⟨ha, rfl⟩ hb
    exact hu t i' _ (hb.stays_alike ha)

/-- A use keeps the handle consistent. -/
theorem owns_use (u : Use) (h : Consistent i o) : Owns p (u.Keeps ext i o) (u.code ext) i o := by
  have hb := h.backed
  have hrest {i' : Impl} {o' : Own} (h : Resting i' o') : Consistent i' o' := .inr h
  cases u with
  | put data =>
    rcases h with ⟨t, hb⟩ | hr
    · refine (owns_void (owns_put_batch hb)).keeps (fun _ _ => id) (fun _ _ hk => hk.consistent) ?_
      intro i' o' t' hk hb'
      cases hb.own.symm.trans hb'.own
      exact .inl hk
    · have hparts : Owns p (Parts Consistent Consistent) (PackCas.put ext data) i o :=
        (owns_put (.inr hr)).mono fun x _ _ hx => by cases x <;> exact hx
      refine (owns_void hparts).keeps (fun _ _ => id) (fun _ _ => id) fun _ _ t _ hb => ?_
      cases hr.wtxn.symm.trans hb.wtxn
  | get hash => exact (owns_get hb).keeps_reads h fun _ _ _ => .inl
  | getView hash => exact (owns_getView hb).keeps_reads h fun _ _ _ => .inl
  | size hash => exact (owns_size hb).keeps_reads h fun _ _ _ => .inl
  | has hash => exact (owns_has hb).keeps_reads h fun _ _ _ => .inl
  | sync =>
    refine (owns_sync h).keeps (fun _ _ => hrest) ?_ ?_
    · rintro _ _ ⟨_, rfl, rfl⟩
      exact h
    · rintro _ _ t ⟨_, rfl, rfl⟩ hb
      exact .inl hb.stays
  | compact live =>
    refine (owns_compact h).keeps (fun _ _ => hrest) ?_ ?_
    · rintro _ _ (⟨_, rfl, rfl⟩ | hr)
      exacts [h, hrest hr]
    · rintro _ _ t (⟨_, rfl, rfl⟩ | hr) hb
      exacts [.inl hb.stays, .inr hr]
  | packSize => exact owns_packSize.keeps_reads h fun _ _ _ => .inl
  | metaPut key val =>
    refine (owns_metaPut h).keeps (fun _ _ => id) ?_ ?_
    · rintro _ _ (⟨rfl, rfl⟩ | hr)
      exacts [h, hrest hr]
    · rintro _ _ t (⟨rfl, rfl⟩ | hr) hb
      exacts [.inl hb.stays, .inr hr]
  | metaGet key => exact (owns_metaGet hb).keeps_reads h fun _ _ _ => .inl
  | metaDel key =>
    refine (owns_metaDel h).keeps (fun _ _ => id) ?_ ?_
    · rintro _ _ (⟨rfl, rfl⟩ | hr)
      exacts [h, hrest hr]
    · rintro _ _ t (⟨rfl, rfl⟩ | hr) hb
      exacts [.inl hb.stays, .inr hr]
  | metaScan pre => exact (owns_metaScan hb).keeps_reads h fun _ _ _ => .inl
  | reopen =>
    refine Owns.keeps (R := Resting) (E := Resting) ?_ (fun _ _ => hrest) (fun _ _ => hrest)
      fun _ _ _ hr _ => .inr hr
    refine (owns_destroy h).seq (fun _ i' o' hr => ?_) fun e i' o' _ hf => hf.elim
    exact (owns_open hr).mono fun x _ _ hx => by cases x <;> exact hx

/-! ## Runs -/

/-- A use by some thread: what it ended in, and the calls it made. -/
structure Used where
  use : Use
  thread : Nat
  out : Except Err Unit
  tr : List (Tarmac.Event sig)

/-- The process `p` uses its handle, while other processes do what they like. -/
def useStep (ext : Ext) (p : Nat) (s : Impl × World) (u : Used) (s' : Impl × World) : Prop :=
  ∃ w, w.own p = s.2.own p ∧
    Prog.Run (among p) (u.use.code ext { s.1 with thread := u.thread }) w u.tr (u.out, s'.1) s'.2

/-- The process `p` opens a directory and uses the handle, each use ending before the next begins. -/
def Handled (ext : Ext) (p : Nat) (us : List Used) (i : Impl) (w : World) : Prop :=
  ∃ thread tr i₀ w₀ w₁, w₀.own p = ⟨none, false⟩ ∧
    Prog.Run (among p) (open_ { thread := thread }) w₀ tr (.ok (), i₀) w₁ ∧
    Runs (fun s u s' => Seen u.out ∧ useStep ext p s u s') (i₀, w₁) us (i, w)

/-- The thread does not matter to a handle without a batch. -/
theorem Consistent.setThread (h : Consistent i o) (n : Nat) : Consistent { i with thread := n } o :=
  h.imp (fun ⟨t, h⟩ => ⟨t, h.wtxn, h.cur, h.own⟩) fun h => ⟨h.wtxn, h.led, h.own⟩

/-- What a use leaves does not depend on the thread. -/
theorem Use.Leaves.of_setThread {u : Use} {n : Nat}
    (h : u.Leaves ext t { i with thread := n } i' o') : u.Leaves ext t i i' o' := by
  cases u with
  | put data =>
    exact h.imp_left (Or.imp (fun h => ⟨h.toBatching, h.end_, h.committedEnd⟩)
      fun h => ⟨h.toBatching, h.end_, h.committedEnd⟩)
  | _ => exact h.imp_left fun h => ⟨h.toBatching, h.end_, h.committedEnd⟩

/-- One use. -/
theorem useStep_keeps {u : Used} {w w' : World} (h : Consistent i (w.own p))
    (hu : useStep ext p (i, w) u (i', w')) (hn : ¬Botched u.tr) :
    Unended u.tr ∧ (Seen u.out → u.use.Keeps ext i (w.own p) u.out i' (w'.own p)) := by
  obtain ⟨w₁, hw, hr⟩ := hu
  have hown := owns_use u.use (h.setThread u.thread) w₁ hw _ _ _ _ hr hn
  refine ⟨hown.1, fun hx => ?_⟩
  obtain ⟨hc, hl⟩ := hown.2 hx
  exact ⟨hc, fun t e hb he => (hl t e ⟨hb.wtxn, hb.cur, hb.own⟩ he).of_setThread⟩

/-- A new handle is in no batch. -/
theorem opened_consistent {n : Nat} {w w' : World} {tr : List (Tarmac.Event sig)}
    (hw : w.own p = ⟨none, false⟩)
    (hr : Prog.Run (among p) (open_ { thread := n }) w tr (.ok (), i) w') : Consistent i (w'.own p) := by
  have hn := not_botched_of_never (fun _ => never_fdatasync_open) hr
  exact .inr ((owns_open ⟨rfl, Impl.led_closed n, hw⟩ w rfl _ _ _ _ hr hn).2 nofun)

/-- A consistent handle is destroyed without a use of a transaction that has ended. -/
theorem destroy_unended {w w' : World} {tr : List (Tarmac.Event sig)} {x : Except Err Unit}
    (h : Consistent i (w.own p)) (hr : Prog.Run (among p) (destroy i) w tr (x, i') w') : Unended tr :=
  (owns_destroy h w rfl _ _ _ _ hr (not_botched_of_never (fun _ => never_fdatasync_destroy) hr)).1

/-- In every run without a commit that goes wrong, the handle stays consistent. -/
theorem Handled.consistent {us : List Used} {w : World} (h : Handled ext p us i w)
    (hn : ∀ u ∈ us, ¬Botched u.tr) : Consistent i (w.own p) := by
  obtain ⟨n, tr, i₀, w₀, w₁, hw, hopen, hruns⟩ := h
  refine hruns.history (I := fun us s => (∀ u ∈ us, ¬Botched u.tr) → Consistent s.1 (s.2.own p))
    (fun {us u s s'} hI hu hn => ?_) (fun _ => opened_consistent hw hopen) hn
  have hc := hI fun v hv => hn v (List.mem_append_left _ hv)
  exact ((useStep_keeps hc hu.2 (hn u (by simp))).2 hu.1).1

/-- In every run in which no commit of a batch goes wrong behind `fdatasync`, the handle is in a batch
with its transaction and the lock, or in none with neither. A use that throws leaves an open batch as it
was (with the blob, behind the `put` of one), or none. No use makes a call in a transaction that has
ended, and neither does the destruction of the handle. -/
theorem batches_consistent {us : List Used} {u : Used} {w w' : World} (h : Handled ext p us i w)
    (hu : useStep ext p (i, w) u (i', w')) (hn : ∀ v ∈ us ++ [u], ¬Botched v.tr) :
    Consistent i (w.own p) ∧ Unended u.tr ∧
      (Seen u.out → u.use.Keeps ext i (w.own p) u.out i' (w'.own p) ∧
        ∀ tr x j w'', Prog.Run (among p) (destroy i') w' tr (x, j) w'' → Unended tr) := by
  have hc := h.consistent fun v hv => hn v (List.mem_append_left _ hv)
  obtain ⟨hv, hk⟩ := useStep_keeps hc hu (hn u (by simp))
  exact ⟨hc, hv, fun hx => ⟨hk hx, fun tr x j w'' hr => destroy_unended (hk hx).1 hr⟩⟩

/-! ## A blob and a `sync` that fails -/

/-- An evaluation is a run, whatever fails. -/
theorem among_of_evalWith {ch : Call → Choice} {m : Prog sig α} {a : α} {w w' : World}
    {tr : List (Tarmac.Event sig)} (h : evalWith ch m w = some (tr, a, w')) :
    Prog.Run (among 0) m w tr a w' :=
  Prog.run_of_eval (fun _ c w _ _ hx => ⟨w, ch c, rfl, hx⟩) h

/-- A new directory, a blob, and a `sync` during which the environment chooses `ch`; behind it, the
handle is destroyed. -/
def putThenSync (ch : Call → Choice) : Option ((Except Err Unit × Impl × World) × (Used × Impl × World) ×
    (Used × Impl × World) × List (Tarmac.Event sig) × Except Err Unit × Impl × World) := do
  let (_, (x₀, i₀), w₀) ← evalWith (fun _ => {}) (open_ {}) .fresh
  let (tr₁, (x₁, i₁), w₁) ←
    evalWith (fun _ => {}) ((Use.put [1]).code .sample { i₀ with thread := 0 }) w₀
  let (tr₂, (x₂, i₂), w₂) ← evalWith ch (Use.sync.code .sample { i₁ with thread := 0 }) w₁
  let (tr₃, (x₃, i₃), w₃) ← evalWith (fun _ => {}) (destroy i₂) w₂
  pure ((x₀, i₀, w₀), (⟨.put [1], 0, x₁, tr₁⟩, i₁, w₁), (⟨.sync, 0, x₂, tr₂⟩, i₂, w₂), tr₃, x₃, i₃, w₃)

/-- A put and a `sync`, evaluated, are two uses of a handle. -/
theorem handled_of_putThenSync {ch : Call → Choice} {x₀ x₃ : Except Err Unit} {u₁ u₂ : Used}
    {i₀ i₁ i₂ i₃ : Impl} {w₀ w₁ w₂ w₃ : World} {tr₃ : List (Tarmac.Event sig)}
    (h : putThenSync ch = some ((x₀, i₀, w₀), (u₁, i₁, w₁), (u₂, i₂, w₂), tr₃, x₃, i₃, w₃))
    (hx₀ : x₀.toOption.isSome) (hx₁ : u₁.out.toOption.isSome) :
    Handled .sample 0 [u₁] i₁ w₁ ∧ useStep .sample 0 (i₁, w₁) u₂ (i₂, w₂) ∧ u₂.use = .sync ∧
      Prog.Run (among 0) (destroy i₂) w₂ tr₃ (x₃, i₃) w₃ := by
  simp only [putThenSync, Option.bind_eq_bind, Option.bind_eq_some_iff, Option.pure_def,
    Option.some.injEq, Prod.mk.injEq] at h
  obtain ⟨⟨tr₀, ⟨y₀, j₀⟩, v₀⟩, h₀, ⟨tr₁, ⟨y₁, j₁⟩, v₁⟩, h₁, ⟨tr₂, ⟨y₂, j₂⟩, v₂⟩, h₂,
    ⟨_, ⟨_, _⟩, _⟩, h₃, ⟨rfl, rfl, rfl⟩, ⟨rfl, rfl, rfl⟩, ⟨rfl, rfl, rfl⟩, rfl, rfl, rfl, rfl⟩ := h
  dsimp only at *
  refine ⟨⟨0, tr₀, j₀, .fresh, v₀, rfl, ?_, .cons ⟨?_, v₀, rfl, among_of_evalWith h₁⟩ .nil⟩,
    ⟨v₁, rfl, among_of_evalWith h₂⟩, rfl, among_of_evalWith h₃⟩
  · cases y₀ with
    | ok _ => exact among_of_evalWith h₀
    | error e => cases hx₀
  · rintro e rfl
    cases hx₁

/-- An answer that makes a commit go wrong. -/
def goesWrong : Tarmac.Event sig → Bool
  | ⟨.txnCommit, .error _⟩ | ⟨.envSync, .error _⟩ => true
  | _ => false

/-- In a trace whose commit went wrong, the call that went wrong is one of the events. -/
theorem Botched.exists_goesWrong {tr : List (Tarmac.Event sig)} (h : Botched tr) :
    ∃ ev ∈ tr, goesWrong ev := by
  obtain ⟨ino, e, h | h⟩ := h
  · exact ⟨⟨.txnCommit, .error e⟩, h.subset (by simp), rfl⟩
  · exact ⟨⟨.envSync, .error e⟩, h.subset (by simp), rfl⟩

/-- Where neither `mdb_txn_commit` nor `mdb_env_sync` fails, no commit goes wrong. -/
theorem not_botched_of_any {tr : List (Tarmac.Event sig)} (h : tr.any goesWrong = false) :
    ¬Botched tr := by
  intro hb
  obtain ⟨ev, he, hev⟩ := hb.exists_goesWrong
  rw [List.any_eq_false] at h
  exact h ev he hev

/-- A put and a `sync` whose `mdb_env_sync` fails. -/
theorem batches_consistent_sample : ∃ us u i w i' w', Handled .sample 0 us i w ∧
    useStep .sample 0 (i, w) u (i', w') ∧ u.use = .sync ∧ i.wtxn = true ∧ (∃ e, u.out = .error e) ∧
    Consistent i (w.own 0) ∧ Unended u.tr ∧
      (Seen u.out → u.use.Keeps .sample i (w.own 0) u.out i' (w'.own 0) ∧
        ∀ tr x j w'', Prog.Run (among 0) (destroy i') w' tr (x, j) w'' → Unended tr) := by
  have hsome : (putThenSync fun | .fdatasync _ => ⟨true, 0⟩ | _ => {}).any (fun s =>
      s.1.1.toOption.isSome && s.2.1.1.out.toOption.isSome && s.2.1.2.1.wtxn &&
      s.2.2.1.1.out.toOption.isNone && !s.2.1.1.tr.any goesWrong && !s.2.2.1.1.tr.any goesWrong) := by
    decide +kernel
  obtain ⟨⟨⟨x₀, i₀, w₀⟩, ⟨u₁, i₁, w₁⟩, ⟨u₂, i₂, w₂⟩, tr₃, x₃, i₃, w₃⟩, hrun, hobs⟩ :=
    (Option.any_eq_true _ _).1 hsome
  simp only [Bool.and_eq_true, Bool.not_eq_true'] at hobs
  obtain ⟨⟨⟨⟨⟨hx₀, hx₁⟩, hw⟩, hx₂⟩, htr₁⟩, htr₂⟩ := hobs
  obtain ⟨hh, hu, huse, _⟩ := handled_of_putThenSync hrun hx₀ hx₁
  refine ⟨_, _, _, _, _, _, hh, hu, huse, hw, ?_, batches_consistent hh hu ?_⟩
  · cases hout : u₂.out with
    | ok _ =>
      rw [hout] at hx₂
      cases hx₂
    | error e => exact ⟨e, rfl⟩
  · intro v hv
    rcases List.mem_cons.1 hv with rfl | hv
    · exact not_botched_of_any htr₁
    · rcases List.mem_cons.1 hv with rfl | hv
      · exact not_botched_of_any htr₂
      · cases hv

/-- The outcome is an error of LMDB. -/
def isLmdb {α : Type} : Except Err α → Bool
  | .error (.lmdb _ _) => true
  | _ => false

/-- An error that was seen to be LMDB's. -/
theorem error_of_isLmdb {α : Type} {x : Except Err α} (h : isLmdb x = true) :
    ∃ what res, x = .error (.lmdb what res) := by
  unfold isLmdb at h
  split at h
  · exact ⟨_, _, rfl⟩
  · cases h

/-- A `sync` whose `mdb_txn_commit` fails throws, and leaves the handle with a transaction that has ended:
its destruction aborts it. -/
theorem refused_commit_ends_batch : ∃ us u i w i' w' tr x j w'', Handled .sample 0 us i w ∧
    useStep .sample 0 (i, w) u (i', w') ∧ u.use = .sync ∧ (∃ t, Batching t i (w.own 0)) ∧ Seen u.out ∧
    (∃ e, u.out = .error e) ∧ ¬Consistent i' (w'.own 0) ∧
    Prog.Run (among 0) (destroy i') w' tr (x, j) w'' ∧ ¬Unended tr := by
  have hsome : (putThenSync fun | .txnCommit => ⟨true, 0⟩ | _ => {}).any (fun s =>
      s.1.1.toOption.isSome && s.2.1.1.out.toOption.isSome && s.2.1.2.1.wtxn &&
      isLmdb s.2.2.1.1.out && s.2.2.1.2.1.wtxn && (s.2.2.1.2.2.txn 0).isNone &&
      s.2.2.2.1.any ended && !s.2.1.1.tr.any goesWrong) := by
    decide +kernel
  obtain ⟨⟨⟨x₀, i₀, w₀⟩, ⟨u₁, i₁, w₁⟩, ⟨u₂, i₂, w₂⟩, tr₃, x₃, i₃, w₃⟩, hrun, hobs⟩ :=
    (Option.any_eq_true _ _).1 hsome
  simp only [Bool.and_eq_true, Bool.not_eq_true'] at hobs
  obtain ⟨⟨⟨⟨⟨⟨⟨hx₀, hx₁⟩, hw⟩, hx₂⟩, hw₂⟩, htxn⟩, hend⟩, htr₁⟩ := hobs
  obtain ⟨hh, hu, huse, hd⟩ := handled_of_putThenSync hrun hx₀ hx₁
  have hbatch : ∃ t, Batching t i₁ (w₁.own 0) := by
    have hc := hh.consistent fun v hv => by
      rw [List.mem_singleton.1 hv]
      exact not_botched_of_any htr₁
    exact hc.resolve_right fun hr => by cases hr.wtxn.symm.trans hw
  refine ⟨_, _, _, _, _, _, _, _, _, _, hh, hu, huse, hbatch, ?_, ?_, ?_, hd, fun hv => ?_⟩
  · rintro e he
    obtain ⟨what, res, hout⟩ := error_of_isLmdb hx₂
    cases he.symm.trans hout
    rfl
  · obtain ⟨what, res, hout⟩ := error_of_isLmdb hx₂
    exact ⟨_, hout⟩
  · rintro (⟨t, _, _, hown⟩ | hr)
    · rw [(own_eq hown).1] at htxn
      cases htxn
    · cases hr.wtxn.symm.trans hw₂
  · obtain ⟨ev, he, hev⟩ := List.any_eq_true.1 hend
    rw [hv ev he] at hev
    cases hev

end Tarmac.PackCas
