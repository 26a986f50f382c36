import Tarmac.PackCas.Meta
import Tarmac.PackCas.Session
import Tarmac.PackCas.Writers

/-!
# Whole calls, one after the other

The setting of processes that take turns at one directory: one of them runs a call, a `pwrite` of which
may fail, and the others wait (`Setting.turn`). If the call only reads, the turn is `still`: the committed
store and its generation stay, so that every handle stands for the model it stood for (`Abs.rely`), and
the answer is that of the model (`Fetches.tells`, `Consults.tells`, `Inspects.tells`). If it writes, no
other process has a batch; then the process has the directory to itself (`Inv.session_of_turn`).
-/

namespace Tarmac.PackCas

/-- The generation, a counter of 64 bits, does not wrap when it is next increased. -/
def World.Counted (w : World) : Prop := ∀ g, w.env.db.gen = .ok g → g + 1 < 2 ^ 64

/-- The calls of a process that has its turn: a `pwrite` may fail, and the generation stays countable. -/
def turnSem (p : Nat) : Sem sig World := fun c w r w' => sem (faults true) p c w r w' ∧ w'.Counted

/-- Only a `pwrite` fails. -/
theorem pwrite_of_faults : True → ∀ c n, faults true c ⟨true, n⟩ → ∃ i off d, c = .pwrite i off d :=
  fun _ _ _ h => (h rfl).2

/-- The setting of a turn, for all the processes. If it is `still`, the committed store stays as it is. -/
def Setting.turn (ext : Ext) (hext : ext.Lawful) (still : Prop) : Setting where
  ext := ext
  choice := faults true
  allow _ _ w' := w'.Counted
  extra := World.Counted
  calm := False
  pinned := still
  sound := True
  Kr M M' := still → M = M'
  Kg M M' := still → M = M'
  lawful _ := hext
  reliable := pwrite_of_faults
  choice_ok := faults_free true
  allow_extra _ _ _ h := h
  Kr_refl _ _ := rfl
  Kr_trans h h' hs := (h hs).trans (h' hs)
  Kg_refl _ _ := rfl
  Kg_le _ _ _ h := h

section

variable {ext : Ext} {hext : ext.Lawful} {still still' : Prop} {p q : Nat} {w w' : World} {i i' : Impl}
  {m m' : Model}

/-- The invariant is that of all processes, whether the turn is still or not. -/
theorem Inv.turn (h : Inv (.turn ext hext still) p w) : Inv (.turn ext hext still') q w :=
  ⟨h.shape, h.extra, h.healthy, fun hc => hc.elim⟩

/-- What a safe turn ends in, and what it means to the others. -/
theorem Setting.run_turn {α : Type} {n : Prog sig α} {tr : List (Tarmac.Event sig)} {a : α}
    {Q : α → World → Prop} (hr : Prog.Run (turnSem p) n w tr a w')
    (hI : Inv (.turn ext hext still) p w) (hn : n.Safe ((Setting.turn ext hext still).rules p) Q w) :
    Inv (.turn ext hext still) p w' ∧ Q a w' ∧
      ∀ q, q ≠ p → Rely (.turn ext hext still) q w w' := by
  have hr : Prog.Run ((Setting.turn ext hext still).rules p).sem n w tr a w' := hr
  obtain ⟨hI', hQ⟩ := Prog.Safe.run Rely.refl hr hI hn
  refine ⟨hI', hQ, fun q hq => ?_⟩
  refine Prog.Safe.run_moves (T := Rely (.turn ext hext still) q) Rely.refl Rely.refl ?_ hr hI hn
  exact fun w w₁ w' hI hI₁ _ hG hR => ((hG trivial).1 id q hq).trans hI.turn hI₁.turn hR

/-- When no other process has a batch or the lock, the one whose turn it is has the directory to
itself. -/
theorem Inv.session_of_turn (h : Inv (.turn ext hext still) p w)
    (hothers : ∀ q, q ≠ p → w.txn q = none ∧ w.env.lock ≠ some q) :
    Inv (.session ext hext true) p w where
  shape := h.shape
  extra := trivial
  healthy := h.healthy
  solo _ := by
    refine ⟨fun q hl => ?_, fun q t ht => ?_⟩
    · by_contra hq
      exact (hothers q hq).2 hl
    · by_contra hq
      have hnone := (hothers q hq).1
      simp [World.txn, ht] at hnone

/-- The committed store of a still turn. -/
theorem Setting.eq_of_still (M M' : Store) (h : (Setting.turn ext hext True).Kr M M') : M = M' :=
  h trivial

/-- A handle that has only looked stands for the same model. -/
theorem Abs.kept {S : Setting} (hI : Inv S p w) (hI' : Inv S p w') (h : Abs S p m i w)
    (hst : Steady S p i w i' w') : Abs S p m i' w' := by
  rw [Abs] at h ⊢
  split at h
  · exact h.steady hI hI' hst
  · exact h.steady hI hI' hst

/-- It stands for it whatever the others do in a still turn. -/
theorem Abs.rely {S : Setting} (hI : Inv S p w) (hI' : Inv S p w') (hR : Rely S p w w')
    (h : Abs S p m i w) : Abs S p m i w' :=
  h.kept hI hI' ⟨hR, h.ready.handle.rely hI hR, .refl i, fun _ => rfl⟩

/-! ## Reading -/

variable {k : Bytes}

/-- A read answers what the model has, or throws. -/
theorem Fetches.tells {r : Nat → Nat → Option Err} {x : Except Err (Option Bytes)}
    (hI : Inv (.turn ext hext True) p w) (hI' : Inv (.turn ext hext True) p w')
    (h : Abs (.turn ext hext True) p m i w) (hx : Fetches (.turn ext hext True) p i w k r x i' w') :
    Abs (.turn ext hext True) p m i' w' ∧ (x = .ok (m.view.blobs k) ∨ ∃ e, x = .error e) := by
  obtain ⟨hst, hf⟩ := hx
  obtain ⟨db, file, hs, hnone, hsome⟩ :=
    hf ⟨Setting.reliable_of_sound (S := .turn ext hext True) trivial, .inl trivial⟩
  have hv := h.views trivial Setting.eq_of_still hs
  refine ⟨h.kept hI hI' hst, ?_⟩
  cases hk : m.view.blobs k with
  | none => exact .inl (hnone (hv.absent hk))
  | some d =>
    obtain ⟨e, hh, _⟩ := hv.holds hk
    have hx := hsome e d hh
    cases hr : r e.off e.len with
    | none =>
      rw [hr] at hx
      exact .inl hx
    | some err =>
      rw [hr] at hx
      exact .inr ⟨err, hx⟩

/-- `size` and `has` answer for the blob of the model. -/
theorem Consults.tells {α : Type} {f : Option IndexEntry → α} {g : Option Bytes → α}
    {x : Except Err α} (hI : Inv (.turn ext hext True) p w) (hI' : Inv (.turn ext hext True) p w')
    (h : Abs (.turn ext hext True) p m i w) (hx : Consults (.turn ext hext True) p i w k f x i' w')
    (hnone : f none = g none) (hsome : ∀ e d, d.length = e.rawLen → f (some e) = g (some d)) :
    Abs (.turn ext hext True) p m i' w' ∧ x = .ok (g (m.view.blobs k)) := by
  obtain ⟨rfl, hR, hx⟩ := hx
  obtain ⟨db, file, hs, rfl⟩ := hx (Setting.reliable_of_sound (S := .turn ext hext True) trivial)
  have hv := h.views trivial Setting.eq_of_still hs
  refine ⟨h.rely hI hI' hR, ?_⟩
  cases hk : m.view.blobs k with
  | none =>
    rw [Db.entry_eq_none (hv.absent hk), ← hnone]
    rfl
  | some d =>
    obtain ⟨e, _, he, hlen⟩ := hv.holds hk
    rw [he, ← hsome e d hlen]
    rfl

/-- A read of the records answers for those of the model. -/
theorem Inspects.tells {α : Type} {f : Db → α} {g : SortedMap Bytes Bytes → α} {x : Except Err α}
    (hI : Inv (.turn ext hext True) p w) (hI' : Inv (.turn ext hext True) p w')
    (h : Abs (.turn ext hext True) p m i w) (hx : Inspects (.turn ext hext True) p i w f x i' w')
    (hf : ∀ db, f db = g db.records) :
    Abs (.turn ext hext True) p m i' w' ∧ x = .ok (g m.view.records) := by
  obtain ⟨rfl, hR, hx⟩ := hx
  obtain ⟨db, file, hs, rfl⟩ := hx (Setting.reliable_of_sound (S := .turn ext hext True) trivial)
  have hv := h.views trivial Setting.eq_of_still hs
  refine ⟨h.rely hI hI' hR, ?_⟩
  rw [hf, ← hv.view]
  rfl

/-! ## Writing -/

/-- What the next generation needs. -/
theorem Abs.room_of_counted (hI : Inv (.turn ext hext True) p w)
    (h : Abs (.turn ext hext True) p m i w) : m.view.gen + 1 < 2 ^ 64 := by
  have hview := (h.represents trivial Setting.eq_of_still hI).view
  obtain ⟨g, hg⟩ := hI.shape.gen
  have hseen : (w.seen p).gen = .ok g := by
    rcases h.ready with hid | ⟨g', ino, t, hb⟩
    · rw [World.seen, hid.txn]
      exact hg
    · rw [World.seen, hb.txn]
      exact hb.tgen.trans (hb.gen.symm.trans hg)
  rw [← hview, storeOf, hseen]
  exact hI.extra g hg

/-- In a turn that is not still a process may change the store. -/
theorem Setting.grows_turn : (Setting.turn ext hext False).Grows := fun _ _ _ h => h.elim

/-- A compaction is among its changes. -/
theorem Setting.compacts_turn (live : Bytes → Bool) (M : Store) :
    (Setting.turn ext hext False).Compacts (fun k => .ok (live k)) M where
  sync := Setting.not_canFail (S := .turn ext hext False) trivial (by simp)
  throws _ _ h := by cases h
  keep _ _ _ h := h.elim
  free _ h := h

/-- A put keeps what the others rely on. -/
theorem Abs.safe_put (d : Bytes) (hI : Inv (.turn ext hext False) p w)
    (h : Abs (.turn ext hext False) p m i w) :
    Eff.Safe ((Setting.turn ext hext False).rules p) (fun _ _ _ => True) (put ext d) i w := by
  rw [Abs] at h
  split at h
  · exact (safe_put_rest (S := .turn ext hext False) trivial Setting.grows_turn hI h).mono
      fun _ _ _ _ _ => trivial
  · exact (safe_put_batch (S := .turn ext hext False) trivial Setting.grows_turn hI h).mono
      fun _ _ _ _ _ => trivial

/-- So does a sync. -/
theorem Abs.safe_sync (hI : Inv (.turn ext hext False) p w)
    (h : Abs (.turn ext hext False) p m i w) :
    Eff.Safe ((Setting.turn ext hext False).rules p) (fun _ _ _ => True) sync i w := by
  rw [Abs] at h
  split at h
  · exact (safe_sync_rest hI h).mono fun _ _ _ _ _ => trivial
  · exact (safe_sync_batch (S := .turn ext hext False) trivial Setting.grows_turn hI h).mono
      fun _ _ _ _ _ => trivial

/-- So does a compaction. -/
theorem Abs.safe_compact (live : Bytes → Bool) (hI : Inv (.turn ext hext False) p w)
    (h : Abs (.turn ext hext False) p m i w) :
    Eff.Safe ((Setting.turn ext hext False).rules p) (fun _ _ _ => True)
      (compact fun k => .ok (live k)) i w := by
  have hroom : ∀ w₁ w' g, Inv (.turn ext hext False) p w' →
      Before (.turn ext hext False) m.view w₁ w' → w'.env.db.gen = .ok g → g + 1 < 2 ^ 64 :=
    fun _ _ g hI' _ hg => hI'.extra g hg
  rw [Abs] at h
  split at h
  · next hm =>
    have hv : m.view = m.committed := by rw [Model.view, hm]; rfl
    rw [← hv] at h
    exact (safe_compact_of_rest (Setting.compacts_turn live _) hI h hroom).mono fun _ _ _ _ _ => trivial
  · next M b hm =>
    have hv : m.view = M := by rw [Model.view, hm]; rfl
    rw [← hv] at h
    exact (safe_compact_of_batch (S := .turn ext hext False) trivial Setting.grows_turn
      (Setting.compacts_turn live _) hI h hroom).mono fun _ _ _ _ _ => trivial

end

/-! ## A hash of another length -/

section

variable {ext : Ext} {hash : Bytes} {i : Impl}

/-- An error ends a computation. -/
theorem bind_of_error {α β : Type} {n : CasM α} {e : Err} (h : n i = .ret (.error e, i))
    (f : α → CasM β) : (n >>= f) i = .ret (.error e, i) := by
  show (n i).bind _ = _
  rw [h]
  rfl

/-- `lookup` refuses what is no hash before it begins a transaction. -/
theorem lookup_of_length (h : hash.length ≠ kHashLen) (genOut : Bool) :
    lookup hash genOut i = .ret (.error (.invalidArgument "bad hash length"), i) := by
  rw [lookup, if_pos h]
  rfl

/-- So do all that look a hash up. -/
theorem locate_of_length (h : hash.length ≠ kHashLen) :
    locate hash i = .ret (.error (.invalidArgument "bad hash length"), i) := by
  rw [locate, kMaxGenerationRetries, locate.go]
  exact bind_of_error (lookup_of_length h true) _

theorem get_of_length (h : hash.length ≠ kHashLen) :
    get ext hash i = .ret (.error (.invalidArgument "bad hash length"), i) :=
  bind_of_error (locate_of_length h) _

theorem getView_of_length (h : hash.length ≠ kHashLen) :
    getView ext hash i = .ret (.error (.invalidArgument "bad hash length"), i) :=
  bind_of_error (locate_of_length h) _

theorem size_of_length (h : hash.length ≠ kHashLen) :
    size hash i = .ret (.error (.invalidArgument "bad hash length"), i) :=
  bind_of_error (lookup_of_length h false) _

theorem has_of_length (h : hash.length ≠ kHashLen) :
    has hash i = .ret (.error (.invalidArgument "bad hash length"), i) :=
  bind_of_error (lookup_of_length h false) _

end

end Tarmac.PackCas
