import Tarmac.Lib.Interleave
import Tarmac.PackCas.Session
import Tarmac.PackCas.Writers

/-!
# Orphans

Any number of processes that open one directory and `put`, `sync`, read, `compact` and drop their
handles, their calls interleaved in any order (`sharers`). `open` removes every pack but that of one
generation. It does so under the writer lock, but the generation is the one it read before it took the
lock: another process may have compacted in between, and what `open` then removes is the committed pack
(`open_unlinks_committed_pack`).

If the generation is still the committed one whenever `open` lists the directory (`Heeds`), the committed
pack is never removed and covers the committed index in every state (`pack_stays`).
-/

namespace Tarmac.PackCas

variable {ext : Ext} {p : Nat} {w w' : World}

/-! ## The processes -/

/-- What a process does with the directory. The operations of a session include that it drops its handle
and opens the directory again. -/
inductive ShareOp where
  | open_ (thread : Nat)
  | run (op : Op) (hash : op.HashOk)
  | drop

/-- The code of an operation, with its outcome; `none` without a handle to run it on, or with one that is
open. -/
def ShareOp.code (ext : Ext) :
    ShareOp → Option Impl → Prog sig (Option (Except Err Value) × Option Impl)
  | .open_ thread, none => (PackCas.open_ { thread := thread }).bind fun x =>
    .ret (some (x.1.map fun _ => .unit), x.1.toOption.map fun _ => x.2)
  | .run op _, some i => (op.code ext i).bind fun x => .ret (some x.1, some x.2)
  | .drop, some i => (PackCas.destroy i).bind fun x => .ret (some (x.1.map fun _ => .unit), none)
  | _, s => .ret (none, s)

/-- The processes. No call fails, and only the calls of `ok` are made. -/
def sharers (ext : Ext) (ok : Call → World → World → Prop) :
    Machine Nat sig World ShareOp (Option Impl) (Option (Except Err Value)) where
  sem p c w r w' := sem (faults false) p c w r w' ∧ ok c w w'
  code _ op s := op.code ext s
  init := none
  kill p w w' := w' = w.kill p

/-- A state of the processes. -/
abbrev Share : Type :=
  (Nat → Process sig ShareOp (Option Impl) (Option (Except Err Value))) × World

/-- A step of the processes. -/
abbrev ShareAct : Type := Nat × Act sig ShareOp (Option (Except Err Value))

/-- A directory nobody has open. -/
def unshared (w : World) : Share := (fun _ => .idle none, w)

/-- The committed generation's pack is in the directory and covers every committed entry. -/
def World.Covered (w : World) : Prop :=
  ∃ g ino, w.env.db.gen = .ok g ∧ w.fs.ino g = some ino ∧
    ∀ k v e, w.env.db.blobs.find? k = some v → decodeEntry v = .ok e →
      e.off + e.len ≤ (w.fs.data ino).length

/-- The call is not one that lists the directory for another generation than the committed one, and it
leaves a generation that can be counted. -/
def Heeds (c : Call) (w w' : World) : Prop :=
  (∀ g, c = .listPacks g → w.env.db.gen = .ok g) ∧ ∀ g, w'.env.db.gen = .ok g → g + 1 < 2 ^ 64

/-- The runs that heed the generation. -/
def Setting.sharing (ext : Ext) (hext : ext.Lawful) : Setting where
  ext := ext
  choice := faults false
  allow := Heeds
  extra w := ∀ g, w.env.db.gen = .ok g → g + 1 < 2 ^ 64
  calm := False
  pinned := False
  sound := True
  Kr _ _ := True
  Kg _ _ := True
  lawful _ := hext
  reliable _ _ _ h := (h rfl).2
  choice_ok := faults_free false
  allow_extra _ _ _ h := h.2
  Kr_refl _ := trivial
  Kr_trans _ _ := trivial
  Kg_refl _ := trivial
  Kg_le _ _ _ _ := trivial

/-! ## One process -/

section

variable {hext : ext.Lawful} {i i' : Impl} {M M0 : Store}

/-- A process between two operations. -/
def Poised (ext : Ext) (hext : ext.Lawful) (p : Nat) : Option Impl → World → Prop
  | none, w => w.txn p = none ∧ w.env.lock ≠ some p
  | some i, w => (∃ M, AtRest (.sharing ext hext) p i w M) ∨
      ∃ M0 M b, InBatch (.sharing ext hext) p i w M0 M b

/-- A handle that is poised is ready. -/
theorem Poised.ready (h : Poised ext hext p (some i) w) : Ready (.sharing ext hext) p i w := by
  obtain ⟨_, hrest⟩ | ⟨_, _, _, ⟨g, ino, t, hb, _⟩⟩ := h
  exacts [.inl hrest.idle, .inr ⟨g, ino, t, hb⟩]

/-- It stays so when it only reads. -/
theorem Poised.steady (hI : Inv (.sharing ext hext) p w) (hI' : Inv (.sharing ext hext) p w')
    (h : Poised ext hext p (some i) w) (hst : Steady (.sharing ext hext) p i w i' w') :
    Poised ext hext p (some i') w' := by
  obtain ⟨M, hrest⟩ | ⟨M0, M, b, hin⟩ := h
  · exact .inl ⟨M, hrest.steady hI hI' hst⟩
  · exact .inr ⟨M0, M, b, hin.steady hI hI' hst⟩

/-- No call but `pwrite` fails among processes that share. -/
theorem Setting.reliable_sharing : (Setting.sharing ext hext).Reliable :=
  Setting.reliable_of_sound trivial

/-- They share a directory that may be new. -/
theorem Setting.fresh_sharing : (Setting.sharing ext hext).Fresh := .inr fun g _ h => h.1 g rfl

/-- A process may add blobs. -/
theorem Setting.grows_sharing : (Setting.sharing ext hext).Grows := fun _ _ _ => trivial

/-- A process may compact. -/
theorem Setting.compacts_sharing (live : Bytes → Bool) (M : Store) :
    (Setting.sharing ext hext).Compacts (fun k => .ok (live k)) M where
  sync := Setting.not_canFail (S := .sharing ext hext) trivial (by simp)
  throws := nofun
  keep _ _ _ := trivial
  free _ := id

/-- A put leaves the handle poised. -/
theorem PutEnds.poised {b n : Nat} {d : Bytes} {i₀ : Impl} {x : Except Err Bytes}
    (h : PutEnds (.sharing ext hext) p M0 M b n d i₀ x i w) : Poised ext hext p (some i) w := by
  obtain ⟨_, h⟩ := h
  cases x with
  | error e => exact .inr ⟨_, _, _, h.2.2.1⟩
  | ok k =>
    have h := h.2
    rw [Puts] at h
    split at h
    · exact .inr ⟨_, _, _, h⟩
    · split at h
      · exact .inl ⟨_, h⟩
      · exact .inr ⟨_, _, _, h⟩

theorem Outcome.poised {live : Bytes → Except Err Bool} {w₀ : World} {i₀ : Impl} {x : Except Err Unit}
    (h : Outcome (.sharing ext hext) p live M w₀ (fun w => w.env.lock ≠ some p) i₀ x i w) :
    Poised ext hext p (some i) w := by
  cases x with
  | ok u => exact .inl ⟨M, h.2.1, trivial, h.2.2.1⟩
  | error e => exact .inl ⟨M, h.2.1, trivial, h.2.2.1⟩

/-- `destroy` leaves the process without a handle. -/
theorem safe_destroy_poised (hI : Inv (.sharing ext hext) p w) (h : Poised ext hext p (some i) w) :
    Eff.Safe ((Setting.sharing ext hext).rules p) (fun x i' w' => x = .ok () ∧ i' = i.closed ∧
      Poised ext hext p none w') destroy i w := by
  obtain ⟨M, hrest⟩ | ⟨M0, M, b, hin⟩ := h
  · refine (safe_destroy_rest hI hrest).mono ?_
    rintro _ _ w' _ ⟨rfl, rfl, hc, _⟩
    exact ⟨rfl, rfl, hc.txn, hc.unlocked⟩
  · refine (safe_destroy_batch (S := .sharing ext hext) trivial hI hin).mono ?_
    rintro _ _ w' _ ⟨rfl, rfl, htxn, hlock, _⟩
    exact ⟨rfl, rfl, htxn, hlock⟩

/-- `open` ends with a handle on the committed pack. -/
theorem safe_open_poised (hI : Inv (.sharing ext hext) p w) (hi : i.New)
    (h : Poised ext hext p none w) :
    Eff.Safe ((Setting.sharing ext hext).rules p) (fun x i' w' => x = .ok () ∧
      Poised ext hext p (some i') w' ∧ w'.Named) open_ i w := by
  have hclosed : Closed (.sharing ext hext) p w (w.store ext) w :=
    ⟨h.1, h.2, trivial, fun hc => hc.elim⟩
  refine (safe_open Setting.reliable_sharing Setting.fresh_sharing hI hi hclosed).mono ?_
  rintro _ i' w' _ ⟨rfl, _, ho⟩
  exact ⟨rfl, .inl ⟨_, ho.rest⟩, ho.named⟩

/-- An operation that only consults the index. -/
theorem Poised.consults {α : Type} {k : Bytes} {f : Option IndexEntry → α} {x : Except Err α}
    (hI : Inv (.sharing ext hext) p w) (hI' : Inv (.sharing ext hext) p w')
    (h : Poised ext hext p (some i) w) (hx : Consults (.sharing ext hext) p i w k f x i' w') :
    Poised ext hext p (some i') w' := by
  obtain ⟨rfl, hR, _⟩ := hx
  exact h.steady hI hI' ⟨hR, h.ready.handle.rely hI hR, .refl _, fun _ => rfl⟩

/-- Every operation of a handle leaves the process with a handle. -/
theorem safe_run_poised (op : Op) (hash : op.HashOk) (hI : Inv (.sharing ext hext) p w)
    (h : Poised ext hext p (some i) w) :
    Eff.Safe ((Setting.sharing ext hext).rules p) (fun _ i' w' => Poised ext hext p (some i') w')
      (op.code ext) i w := by
  have hroom : ∀ (w₁ w' : World) (M : Store) (g : Nat), Inv (.sharing ext hext) p w' →
      Before (.sharing ext hext) M w₁ w' → w'.env.db.gen = .ok g → g + 1 < 2 ^ 64 :=
    fun _ _ _ g hI' _ hg => hI'.extra g hg
  cases op with
  | put d =>
    obtain ⟨M, hrest⟩ | ⟨M0, M, b, hin⟩ := h
    · refine Eff.Safe.map hI (safe_put_rest (S := .sharing ext hext) trivial Setting.grows_sharing hI
        hrest) ?_
      rintro x i' w' _ (⟨M₁, n, _, _, hput⟩ | ⟨_, _, _, hrest'⟩)
      · exact hput.poised
      · exact .inl ⟨M, hrest'⟩
    · exact Eff.Safe.map hI (safe_put_batch (S := .sharing ext hext) trivial Setting.grows_sharing hI
        hin) fun _ _ _ _ hput => hput.poised
  | get k => exact Eff.Safe.map hI (safe_get hI h.ready hash) fun _ _ _ hI' hx => h.steady hI hI' hx.1
  | getView k =>
    exact Eff.Safe.map hI (safe_getView hI h.ready hash) fun _ _ _ hI' hx => h.steady hI hI' hx.1
  | size k =>
    exact Eff.Safe.map hI (safe_size hI h.ready hash) fun _ _ _ hI' hx => h.consults hI hI' hx
  | has k =>
    exact Eff.Safe.map hI (safe_has hI h.ready hash) fun _ _ _ hI' hx => h.consults hI hI' hx
  | sync =>
    obtain ⟨M, hrest⟩ | ⟨M0, M, b, hin⟩ := h
    · refine Eff.Safe.map hI (safe_sync_rest hI hrest) ?_
      rintro _ _ w' _ ⟨_, rfl, hrest'⟩
      exact .inl ⟨M, hrest'⟩
    · exact Eff.Safe.map hI (safe_sync_batch (S := .sharing ext hext) trivial Setting.grows_sharing hI
        hin) fun _ _ _ _ hx => .inl ⟨M, hx.2.2.1⟩
  | reopen =>
    refine Eff.Safe.map (P := fun _ i' w' => Poised ext hext p (some i') w') hI ?_ fun _ _ _ _ hx => hx
    refine safe_seq hI (safe_destroy_poised hI h) ?_ fun _ _ _ _ hx => nomatch hx.1
    rintro _ _ w₁ hI₁ ⟨_, rfl, h₁⟩
    exact (safe_open_poised hI₁ (Impl.new_closed i) h₁).mono fun _ _ _ _ hx => hx.2.1
  | compact live =>
    obtain ⟨M, hrest⟩ | ⟨M0, M, b, hin⟩ := h
    · refine Eff.Safe.map hI (safe_compact_of_rest (Setting.compacts_sharing live M) hI hrest
        fun w₁ w' => hroom w₁ w' M) ?_
      rintro _ _ w' _ ⟨w₁, _, ho⟩
      exact ho.poised
    · refine Eff.Safe.map hI (safe_compact_of_batch (S := .sharing ext hext) trivial
        Setting.grows_sharing (Setting.compacts_sharing live M) hI hin fun w₁ w' => hroom w₁ w' M) ?_
      rintro _ _ w' _ ⟨w₁, _, ho⟩
      exact ho.poised

/-- What an operation ends in: once `open` has returned, there is a committed pack. -/
def Lands (op : ShareOp) (a : Option (Except Err Value)) (w : World) : Prop :=
  ∀ thread v, op = .open_ thread → a = some (.ok v) → w.Named

/-- Every operation leaves its process poised. -/
theorem safe_share {op : ShareOp} {s : Option Impl} (hI : Inv (.sharing ext hext) p w)
    (h : ∀ w₁, Inv (.sharing ext hext) p w₁ → Rely (.sharing ext hext) p w w₁ →
      Poised ext hext p s w₁) :
    (op.code ext s).Safe ((Setting.sharing ext hext).rules p)
      (fun x w' => Poised ext hext p x.2 w' ∧ Lands op x.1 w') w := by
  have hw := h w hI (.refl w)
  have hnone : (Prog.ret (S := sig) ((none : Option (Except Err Value)), s)).Safe
      ((Setting.sharing ext hext).rules p) (fun x w' => Poised ext hext p x.2 w' ∧ Lands op x.1 w') w :=
    fun w₁ hI₁ hR => ⟨h w₁ hI₁ hR, nofun⟩
  cases s with
  | none =>
    cases op with
    | open_ thread =>
      refine Prog.Safe.map hI (safe_open_poised hI ⟨rfl, rfl, rfl⟩ hw) ?_
      rintro ⟨x, i⟩ w' _ ⟨hx, hpoised, hnamed⟩
      dsimp only at hx
      rw [hx]
      exact ⟨hpoised, fun _ _ _ _ => hnamed⟩
    | run | drop => exact hnone
  | some i =>
    cases op with
    | open_ => exact hnone
    | run op hash =>
      exact Prog.Safe.map hI (safe_run_poised op hash hI hw) fun _ _ _ hx => ⟨hx, nofun⟩
    | drop =>
      exact Prog.Safe.map hI (safe_destroy_poised hI hw) fun _ _ _ hx => ⟨hx.2.2, nofun⟩

/-! ## All processes -/

/-- The invariant of the processes does not depend on the process. -/
def Sound (ext : Ext) (w : World) : Prop :=
  Shape w ∧ Healthy ext w ∧ ∀ g, w.env.db.gen = .ok g → g + 1 < 2 ^ 64

/-- The invariant of such a process is that the directory is sound. -/
theorem inv_sharing : Inv (.sharing ext hext) p w ↔ Sound ext w :=
  ⟨fun h => ⟨h.shape, h.healthy trivial, h.extra⟩,
    fun h => ⟨h.1, h.2.2, fun _ => h.2.1, fun hc => hc.elim⟩⟩

/-- What each of the processes guarantees, the others rely on. -/
theorem sharers_composable (hext : ext.Lawful) :
    Machine.Composable (sharers ext Heeds) (Sound ext) (fun p => (Setting.sharing ext hext).rules p)
      (Poised ext hext) fun _ op a _ w => Lands op a w where
  sem _ := rfl
  inv _ _ := inv_sharing
  refl _ := Rely.refl
  trans _ _ _ _ hI hI' h h' := h.trans (inv_sharing.2 hI) (inv_sharing.2 hI') h'
  guar _ q hne _ _ _ _ hG := (hG trivial).1 id q (Ne.symm hne)
  code _ _ _ _ hI h := safe_share (inv_sharing.2 hI) fun w₁ hI₁ => h w₁ (inv_sharing.1 hI₁)
  kill p w w' hI hk := by
    subst hk
    obtain ⟨hI', hG, _⟩ := (Quiet.kill (inv_sharing.2 hI)).step (inv_sharing.2 hI) hI.2.2
    refine ⟨inv_sharing.1 hI', hG, fun w₁ _ hR => ⟨hR.txn.trans ?_, fun hl => ?_⟩⟩
    · rw [World.txn_kill, if_pos rfl]
    · exact w.lock_kill p (hR.lock.1 hl)

/-- What holds of the processes at any time of a run that heeds the generation. -/
structure Keeping (ext : Ext) (hext : ext.Lawful) (x : Share) : Prop where
  sound : Sound ext x.2
  fine : ∀ p, Machine.Fine ((Setting.sharing ext hext).rules p) (Poised ext hext p)
    (fun op a _ w => Lands op a w) x.2 (x.1 p)

/-- A directory that nobody has open. -/
theorem Keeping.unshared (hsound : Sound ext w) (hlock : w.env.lock = none)
    (hwriter : w.env.writer = none) : Keeping ext hext (unshared w) where
  sound := hsound
  fine p w₁ _ hR := by
    refine ⟨hR.txn.trans ?_, fun hl => ?_⟩
    · rw [World.txn, Tarmac.PackCas.unshared, hwriter]
    · have hl : w.env.lock = some p := hR.lock.1 hl
      rw [hlock] at hl
      cases hl

/-- A step that heeds the generation keeps the committed pack. -/
theorem Keeping.step {x x' : Share} {l : ShareAct} (h : Keeping ext hext x)
    (hs : (sharers ext Heeds).Step x l x') :
    Keeping ext hext x' ∧ (x.2.Named → x'.2.Named) := by
  obtain ⟨hI, hfine, hmove⟩ := Machine.step_safe (sharers_composable hext) hs h.sound h.fine
  refine ⟨⟨hI, hfine⟩, fun hn => ?_⟩
  rcases hmove with hG | heq
  · exact ((hG trivial).1 id (l.1 + 1) (Nat.succ_ne_self _)).named (.inl hn)
  · rwa [heq]

/-- An `open` has returned. -/
def OpenReturned (ls : List ShareAct) : Prop :=
  ∃ p thread v, (p, .done (.open_ thread) (some (.ok v))) ∈ ls

/-- A run keeps what processes that share keep; and the committed pack has its name from the first
`open` that returned. -/
theorem Keeping.run {x x' : Share} {ls : List ShareAct} (h : Keeping ext hext x)
    (hr : Runs (sharers ext Heeds).Step x ls x') :
    Keeping ext hext x' ∧ (x.2.Named ∨ OpenReturned ls → x'.2.Named) := by
  induction hr with
  | nil => exact ⟨h, fun hn => hn.resolve_right fun ⟨_, _, _, hm⟩ => nomatch hm⟩
  | cons hs hr ih =>
    obtain ⟨h₁, hkeep⟩ := h.step hs
    obtain ⟨h', hnamed⟩ := ih h₁
    refine ⟨h', fun hn => hnamed ?_⟩
    obtain hn | ⟨p, thread, v, hm⟩ := hn
    · exact .inl (hkeep hn)
    · rcases List.mem_cons.1 hm with rfl | hm
      · obtain ⟨_, _, _, hQ⟩ := Machine.run_done (sharers_composable hext) hs h.sound h.fine
        exact .inl (hQ thread v rfl rfl)
      · exact .inr ⟨p, thread, v, hm⟩

/-- Then no committed pack is missing. -/
theorem Keeping.covered {x : Share} (h : Keeping ext hext x) (hn : x.2.Named) : x.2.Covered := by
  obtain ⟨g, ino, hg, hi⟩ := hn
  refine ⟨g, ino, hg, hi, fun k v e hk hd => ?_⟩
  obtain ⟨e', _, hd', hle, _⟩ := h.sound.2.1.entry k v hk
  rw [hd] at hd'
  cases hd'
  rwa [World.pack_eq hg hi] at hle

/-- As long as the generation for which `open` lists the directory is the committed one, the committed
pack is in the directory and covers the committed index from the first `open` on, and no process unlinks
it. -/
theorem pack_stays (hext : ext.Lawful) {w₀ : World} (hsound : Sound ext w₀) (hlock : w₀.env.lock = none)
    (hwriter : w₀.env.writer = none) {ls : List ShareAct} {x : Share}
    (hr : Runs (sharers ext Heeds).Step (unshared w₀) ls x) (hopen : w₀.Named ∨ OpenReturned ls) :
    x.2.Covered ∧ ∀ p g r x', (sharers ext Heeds).Step x (p, .call ⟨.unlink g, r⟩) x' →
      x.2.env.db.gen ≠ .ok g := by
  have hkeeping : Keeping ext hext (unshared w₀) := .unshared hsound hlock hwriter
  obtain ⟨h, hnamed⟩ := hkeeping.run hr
  have hn := hnamed hopen
  refine ⟨h.covered hn, fun p g r x' hs hg => ?_⟩
  obtain ⟨_, hkeep⟩ := h.step hs
  cases hs with
  | @move gs w w' _ _ _ hs =>
    generalize gs p = g₀ at hs
    cases hs with
    | call hs =>
      obtain ⟨⟨_, _, hx⟩, _⟩ := hs
      cases hx
      obtain ⟨k, ino, hk, hi⟩ := hkeep hn
      cases hg.symm.trans hk
      have hi : (w.fs.unlink g).ino g = some ino := hi
      rw [Fs.ino_unlink, if_pos rfl] at hi
      cases hi

end

/-! ## A generation that is not heeded -/

/-- Any call may be made. -/
abbrev anyCall (_ : Call) (_ _ : World) : Prop := True

theorem runs_of_evalShare {ok : Call → World → World → Prop}
    {exec' : Nat → Unit → (c : Call) → World → Option (c.Resp × World)}
    (hok : ∀ p c w r w', exec' p () c w = some (r, w') → exec p {} c w = some (r, w') ∧ ok c w w')
    {ms : List (Nat × Machine.Move ShareOp Unit)} {x x' : Share} {ls : List ShareAct}
    (h : (sharers ext ok).eval exec' ms x = some (ls, x')) : Runs (sharers ext ok).Step x ls x' :=
  Machine.runs_of_eval (M := sharers ext ok) (fun p _ c w r w' hx =>
    (⟨⟨{}, nofun, (hok p c w r w' hx).1⟩, (hok p c w r w' hx).2⟩ :
      sem (faults false) p c w r w' ∧ ok c w w')) h

/-- The process begins an operation and makes its first `n` calls. -/
def starts (p : Nat) (op : ShareOp) (n : Nat) : List (Nat × Machine.Move ShareOp Unit) :=
  (p, .start op) :: List.replicate n (p, .go ())

/-- The calls that heed the generation. -/
def execHeeding (p : Nat) (_ : Unit) (c : Call) (w : World) : Option (c.Resp × World) :=
  (execPlain p () c w).filter fun x =>
    (match c with
      | .listPacks g => w.env.db.hasGen g
      | _ => true) &&
    match x.2.env.db.gen with
    | .ok k => decide (k + 1 < 2 ^ 64)
    | .error _ => true

/-- Checked calls heed the condition. -/
theorem heeds_of_exec {c : Call} {r : c.Resp} (h : execHeeding p () c w = some (r, w')) :
    exec p {} c w = some (r, w') ∧ Heeds c w w' := by
  obtain ⟨hx, hok⟩ := Option.filter_eq_some_iff.1 h
  simp only [Bool.and_eq_true] at hok
  refine ⟨hx, ?_, fun k hk => ?_⟩
  · rintro g rfl
    exact Db.gen_of_hasGen hok.1
  · have hgen := hok.2
    rw [hk] at hgen
    exact of_decide_eq_true hgen

/-- The process `1` opens the directory, and has read the generation and not yet taken the writer lock
while the process `0` puts a blob and compacts. -/
def lateLock : List (Nat × Machine.Move ShareOp Unit) :=
  starts 0 (.open_ 0) 18 ++ (0, .finish) :: starts 1 (.open_ 0) 10 ++
    starts 0 (.run (.put [1]) trivial) 9 ++ (0, .finish) ::
    starts 0 (.run (.compact fun _ => true) trivial) 28 ++ (0, .finish) ::
    List.replicate 7 (1, .go ()) ++ [(1, .finish)]

/-- Whether an operation that opens the directory has returned. -/
def isOpened (l : ShareAct) : Bool :=
  match l.2 with
  | .done (.open_ _) (some (.ok _)) => true
  | _ => false

/-- An `open` has returned when its action is there. -/
theorem openReturned_of_any {ls : List ShareAct} (h : ls.any isOpened) : OpenReturned ls := by
  obtain ⟨⟨p, act⟩, hm, hact⟩ := List.any_eq_true.1 h
  unfold isOpened at hact
  split at hact
  · next thread v heq =>
    dsimp only at heq
    subst heq
    exact ⟨p, thread, v, hm⟩
  · cases hact

/-- A new directory is sound. -/
theorem sound_fresh : Sound .sample .fresh :=
  ⟨.fresh, .empty, fun _ h => by cases h; decide⟩

/-- The process `1` begins to open the directory, the process `0` puts a blob and compacts, and `1` goes on.
Then `1` puts a blob of its own, and a compaction of `1` leaves out that of `0`. -/
def sharedOpen : List (Nat × Machine.Move ShareOp Unit) :=
  starts 0 (.open_ 0) 18 ++ (0, .finish) :: starts 1 (.open_ 0) 2 ++
    starts 0 (.run (.put [1]) trivial) 9 ++ (0, .finish) ::
    starts 0 (.run (.compact fun _ => true) trivial) 28 ++ (0, .finish) ::
    List.replicate 14 (1, .go ()) ++ (1, .finish) ::
    starts 1 (.run (.put [2]) trivial) 9 ++ (1, .finish) ::
    starts 1 (.run (.compact fun h => h != Ext.sample.blake3 [1]) trivial) 29 ++ [(1, .finish)]

/-- `pack_stays` of two processes: the second generation is committed, with the one blob that was live. -/
theorem pack_stays_sample : ∃ ls x, Runs (sharers .sample Heeds).Step (unshared .fresh) ls x ∧
    OpenReturned ls ∧ x.2.env.db.gen = .ok 2 ∧
    x.2.env.db.blobs.toList.map Prod.fst = [Ext.sample.blake3 [2]] ∧ x.2.Covered ∧
    ∀ p g r x', (sharers .sample Heeds).Step x (p, .call ⟨.unlink g, r⟩) x' → g ≠ 2 := by
  have hsome : ((sharers .sample Heeds).eval execHeeding sharedOpen (unshared .fresh)).any (fun y =>
      y.1.any isOpened && y.2.2.env.db.hasGen 2 &&
        decide (y.2.2.env.db.blobs.toList.map Prod.fst = [Ext.sample.blake3 [2]])) := by
    decide +kernel
  obtain ⟨⟨ls, x⟩, heval, hobs⟩ := (Option.any_eq_true _ _).1 hsome
  simp only [Bool.and_eq_true, decide_eq_true_eq] at hobs
  obtain ⟨⟨hopen, hgen⟩, hblobs⟩ := hobs
  have hr := runs_of_evalShare (fun _ _ _ _ _ => heeds_of_exec) heval
  have hopen := openReturned_of_any hopen
  have hgen := Db.gen_of_hasGen hgen
  obtain ⟨hcovered, hunlink⟩ := pack_stays Ext.lawful_sample sound_fresh rfl rfl hr (.inr hopen)
  refine ⟨ls, x, hr, hopen, hgen, hblobs, hcovered, fun p g r x' hs => ?_⟩
  rintro rfl
  exact hunlink p 2 r x' hs hgen

/-- `open` removes the committed pack: the process `1` removes every pack but that of the generation it has
read, which the process `0` has left behind. -/
theorem open_unlinks_committed_pack : ∃ ls x, Runs (sharers .sample anyCall).Step (unshared .fresh) ls x ∧
    OpenReturned ls ∧ ¬x.2.Covered := by
  have hsome : ((sharers .sample anyCall).eval execPlain lateLock (unshared .fresh)).any (fun y =>
      y.1.any isOpened && y.2.2.env.db.hasGen 1 && decide (y.2.2.fs.ino 1 = none)) := by
    decide +kernel
  obtain ⟨⟨ls, x⟩, heval, hobs⟩ := (Option.any_eq_true _ _).1 hsome
  simp only [Bool.and_eq_true, decide_eq_true_eq] at hobs
  obtain ⟨⟨hopen, hgen⟩, hino⟩ := hobs
  refine ⟨ls, x, runs_of_evalShare (fun _ _ _ _ _ hx => ⟨hx, trivial⟩) heval,
    openReturned_of_any hopen, ?_⟩
  rintro ⟨g, ino, hg, hi, _⟩
  cases (Db.gen_of_hasGen hgen).symm.trans hg
  rw [hino] at hi
  cases hi

end Tarmac.PackCas
