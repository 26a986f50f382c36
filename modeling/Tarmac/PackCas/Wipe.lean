import Tarmac.Lib.Traced
import Tarmac.PackCas.Atomic

/-!
# When `open` wipes the directory

`open` tries `open_once`, and where that throws removes the directory's contents and tries again. A
`CorruptError` says that the cache is corrupt or of another format, and so does the error of LMDB for an
index that it finds damaged or of another version; every other exception says that the environment
refused a call. The handler does not tell them apart, so `open` destroys the cache only for corruption
exactly when the environment refuses no call of the first `open_once`, or lets nothing be removed either
(`open_spares_iff`). What carries it is that the outcome of `open_once` is read off its calls: it throws
an exception that reports corruption if it throws and no call was refused, and another one if one was
(`judged_openOnce`). Where nothing is removed, both attempts leave the blobs as they were
(`PackCas.safe_openOnce`).
-/

namespace Tarmac.PackCas

variable {α β : Type} {ext : Ext} {p : Nat} {w w' : World} {i i' : Impl}
  {tr tr₁ tr₂ : List (Tarmac.Event sig)} {x : Except Err α}

/-! ## Refused calls -/

/-- The exception reports a cache that is corrupt, or of another format or version. -/
def Err.reports : Err → Bool
  | .corrupt _ | .lmdb _ .damaged => true
  | _ => false

/-- The environment refused the call: it failed, and not because LMDB found the index damaged. A `flock`
is not among them: `open_once` does not mind when it fails. -/
def refused : Tarmac.Event sig → Bool
  | ⟨.envOpen, .error res⟩ | ⟨.txnBegin, .error res⟩ | ⟨.txnCommit, .error res⟩
  | ⟨.txnDb, .error res⟩ | ⟨.mdbRead, .error res⟩ | ⟨.txnPut .., .error res⟩ => res != .damaged
  | ⟨.createDirs, .error _⟩ | ⟨.openLock, .error _⟩ | ⟨.listPacks _, .error _⟩
  | ⟨.openPack .., .error _⟩ | ⟨.fstat _, .error _⟩ | ⟨.mmap _, .error _⟩ => true
  | _ => false

/-- No call was refused. -/
def Unrefused (tr : List (Tarmac.Event sig)) : Prop := ∀ ev ∈ tr, refused ev = false

/-- The directory was not wiped. -/
def Unwiped (tr : List (Tarmac.Event sig)) : Prop := ∀ ev ∈ tr, ev.1 ≠ .removeAll

/-- The outcome says whether a call was refused. -/
def Verdict (tr : List (Tarmac.Event sig)) : Except Err α → Prop
  | .ok _ => Unwiped tr ∧ Unrefused tr
  | .error e => Unwiped tr ∧ e.caught ∧ (Unrefused tr ↔ e.reports)

/-- When none of the first calls was refused, the others decide. -/
theorem Unrefused.append (h₁ : Unrefused tr₁) : Unrefused (tr₁ ++ tr₂) ↔ Unrefused tr₂ := by
  constructor
  · exact fun h ev he => h ev (List.mem_append_right _ he)
  · intro h ev he
    exact (List.mem_append.1 he).elim (h₁ ev) (h ev)

/-- Two traces without a wipe. -/
theorem Unwiped.append (h₁ : Unwiped tr₁) (h₂ : Unwiped tr₂) : Unwiped (tr₁ ++ tr₂) := by
  intro ev he
  exact (List.mem_append.1 he).elim (h₁ ev) (h₂ ev)

/-- Calls of which none was refused do not change the verdict on those that follow. -/
theorem Verdict.after (h₁ : Unwiped tr₁ ∧ Unrefused tr₁) (h₂ : Verdict tr₂ x) :
    Verdict (tr₁ ++ tr₂) x := by
  cases x with
  | ok a => exact ⟨h₁.1.append h₂.1, h₁.2.append.2 h₂.2⟩
  | error e => exact ⟨h₁.1.append h₂.1, h₂.2.1, h₁.2.append.trans h₂.2.2⟩

/-- Calls that follow an exception and of which none can be refused do not change the verdict. -/
theorem Verdict.before {e : Err} (h₁ : Verdict tr₁ (.error e : Except Err α))
    (h₂ : Unwiped tr₂ ∧ Unrefused tr₂) : Verdict (tr₁ ++ tr₂) (.error e : Except Err β) := by
  refine ⟨h₁.1.append h₂.1, h₁.2.1, Iff.trans ⟨fun h ev he => ?_, fun h ev he => ?_⟩ h₁.2.2⟩
  · exact h ev (List.mem_append_left _ he)
  · exact (List.mem_append.1 he).elim (h ev) (h₂.2 ev)

/-! ## Parts of `open_once` -/

/-- Where a computation ends: in `Q` if it returns, in `E` if it throws. -/
def Ending (Q : α → World → Prop) (E : World → Prop) (w : World) : Except Err α → Prop
  | .ok a => Q a w
  | .error _ => E w

/-- Begun in a state of `P`, the computation ends in `Q` or throws in `E`, and its outcome says whether a
call was refused. -/
def Judged (p : Nat) (P : World → Prop) (Q : α → World → Prop) (E : World → Prop) (m : CasM α) : Prop :=
  ∀ i w, P w → Eff.Traced (sem (fun _ _ => True) p)
    (fun tr x _ w' => Ending Q E w' x ∧ Verdict tr x) m i w

/-- The transaction of the process is open. -/
def Began (p : Nat) (w : World) : Prop := (w.txn p).isSome

/-- Begun in its transaction, the computation keeps it. -/
abbrev Within (p : Nat) (m : CasM α) : Prop := Judged p (Began p) (fun _ => Began p) (Began p) m

/-- The computation needs no transaction. -/
abbrev Without (p : Nat) (m : CasM α) : Prop :=
  Judged p (fun _ => True) (fun _ _ => True) (fun _ => True) m

section

variable {P E E' : World → Prop} {Q : α → World → Prop} {R : β → World → Prop} {m : CasM α}

theorem judged_pure {a : α} (h : ∀ w, P w → Q a w) : Judged p P Q E (pure a) := fun _ w hw =>
  .pure ⟨h w hw, nofun, nofun⟩

/-- A program that reports corruption. -/
theorem judged_corrupt {msg : String} (h : ∀ w, P w → E w) :
    Judged p P Q E (Eff.throw (.corrupt msg)) :=
  fun _ w hw => .throw ⟨h w hw, nofun, rfl, fun _ => rfl, fun _ => nofun⟩

theorem judged_modify {g : Impl → Impl} {f : Unit → CasM α} (h : Judged p P Q E (f ())) :
    Judged p P Q E (Eff.modify g >>= f) := fun i w hw => .modify (h (g i) w hw)

theorem judged_get {f : Impl → CasM α} (h : ∀ i, Judged p P Q E (f i)) :
    Judged p P Q E (Eff.get >>= f) := fun i w hw => .get (h i i w hw)

theorem judged_seq {n : CasM β} {f : β → CasM α} (hm : Judged p P R E n)
    (hf : ∀ b, Judged p (R b) Q E (f b)) : Judged p P Q E (n >>= f) := by
  intro i w hw
  refine (hm i w hw).seq (fun tr b i' w' ht => ?_) fun tr e i' w' ht => ht
  exact (hf b i' w' ht.1).mono fun tr' x _ w'' h' => ⟨h'.1, h'.2.after ht.2⟩

/-- A call and what is done with its answer: it is gone on with, or turned into an exception, which
reports corruption if the environment did not refuse the call. -/
theorem judged_perform {c : Call} {f : c.Resp → CasM α} (hc : c ≠ .removeAll)
    (h : ∀ ch w r w₁, P w → exec p ch c w = some (r, w₁) →
      (refused ⟨c, r⟩ = false ∧ Judged p (· = w₁) Q E (f r)) ∨
      (E w₁ ∧ ∃ e, f r = Eff.throw e ∧ e.caught ∧ refused ⟨c, r⟩ = !e.reports)) :
    Judged p P Q E (perform c >>= f) := by
  intro i w hw
  refine .perform fun r w₁ ⟨ch, _, hx⟩ => ?_
  rcases h ch w r w₁ hw hx with ⟨hr, hf⟩ | ⟨hE, e, hk, hcaught, hr⟩
  · have hev : Unwiped [⟨c, r⟩] ∧ Unrefused [⟨c, r⟩] := by
      simp [Unwiped, Unrefused, hc, hr]
    exact (hf i w₁ rfl).mono fun tr x _ w' h' => ⟨h'.1, h'.2.after hev⟩
  · rw [hk]
    exact .throw ⟨hE, by simp [Verdict, Unwiped, Unrefused, hc, hr, hcaught]⟩

/-- A call and the check of its answer. -/
theorem judged_ask {c : Call} {k : c.Resp → CasM α} (hc : c ≠ .removeAll)
    (h : ∀ ch w r w₁, P w → exec p ch c w = some (r, w₁) →
      (refused ⟨c, r⟩ = false ∧ ∃ a, k r = pure a ∧ Q a w₁) ∨
      (E w₁ ∧ ∃ e, k r = Eff.throw e ∧ e.caught ∧ refused ⟨c, r⟩ = !e.reports)) :
    Judged p P Q E (perform c >>= k) := by
  refine judged_perform hc fun ch w r w₁ hw hx => (h ch w r w₁ hw hx).imp_left ?_
  rintro ⟨hr, a, hk, hQ⟩
  rw [hk]
  exact ⟨hr, judged_pure fun _ h => h ▸ hQ⟩

/-- A handler that only cleans up and throws again. -/
theorem judged_catchAll {h : Err → CasM α} (hm : Judged p P Q E' m)
    (hh : ∀ e i w, E' w → Eff.Traced (sem (fun _ _ => True) p)
      (fun tr x _ w' => E w' ∧ Unwiped tr ∧ Unrefused tr ∧ x = .error e) (h e) i w) :
    Judged p P Q E (catchAll m h) := by
  intro i w hw
  refine (hm i w hw).catchIf (fun tr a i' w' ht => ht) (fun tr e i' w' ht _ => ?_)
    fun tr e i' w' ht hn => absurd ht.2.2.1 hn
  refine (hh e i' w' ht.1).mono ?_
  rintro tr' _ _ w'' ⟨hE, hw, hr, rfl⟩
  exact ⟨hE, ht.2.before ⟨hw, hr⟩⟩

/-! ## Calls -/

/-- A call that the environment answers or refuses, and that changes nothing. -/
theorem judged_guard {c : Call} {γ : Type} {k : c.Resp → CasM α} (ofE : Except Errno γ → c.Resp)
    (a : World → γ) (hc : c ≠ .removeAll)
    (hx : ∀ ch w, exec p ch c w = some (ofE (ch.guard (a w)), w))
    (hok : ∀ v, refused ⟨c, ofE (.ok v)⟩ = false ∧ ∃ b, k (ofE (.ok v)) = pure b)
    (herr : ∃ e, k (ofE (.error .io)) = Eff.throw e ∧ e.caught ∧
      refused ⟨c, ofE (.error .io)⟩ = !e.reports) :
    Judged p P (fun _ => P) P (perform c >>= k) := by
  refine judged_ask hc fun ch w r w₁ hw h => ?_
  rw [hx] at h
  cases h
  rw [Choice.guard]
  split
  · exact .inr ⟨hw, herr⟩
  · obtain ⟨hr, b, hb⟩ := hok (a w)
    exact .inl ⟨hr, b, hb, hw⟩

/-- What the check of a result of LMDB makes of one that is not `MDB_SUCCESS`. -/
theorem mdbCheck_throws {what : String} (ch : Choice) : ∃ e,
    (mdbCheck what (.error ch.mdbErrno) : CasM α) = Eff.throw e ∧ e.caught ∧
      (ch.mdbErrno != .damaged) = !e.reports := by
  refine ⟨.lmdb what ch.mdbErrno, mdbCheck_error ch.mdbErrno_ne, rfl, ?_⟩
  rw [Choice.mdbErrno]
  split <;> rfl

/-- The same for a call of LMDB, which may find the index damaged. -/
theorem judged_mdbGuard {c : Call} {what : String} {k : c.Resp → CasM α}
    (ofE : Except Errno α → c.Resp) (a : World → α) (hc : c ≠ .removeAll)
    (hx : ∀ ch w, exec p ch c w = some (ofE (ch.mdbGuard (a w)), w))
    (hk : ∀ r, k (ofE r) = mdbCheck what r)
    (hok : ∀ v, refused ⟨c, ofE (.ok v)⟩ = false)
    (herr : ∀ res, refused ⟨c, ofE (.error res)⟩ = (res != .damaged)) :
    Judged p P (fun _ => P) P (perform c >>= k) := by
  refine judged_ask hc fun ch w r w₁ hw h => ?_
  rw [hx] at h
  cases h
  rw [Choice.mdbGuard]
  split
  · rw [hk, herr]
    exact .inr ⟨hw, mdbCheck_throws ch⟩
  · exact .inl ⟨hok _, _, hk _, hw⟩

/-- A read of the index. -/
theorem judged_mdbRead {what : String} :
    Judged p P (fun _ => P) P (perform .mdbRead >>= mdbCheck what) :=
  judged_mdbGuard id (fun _ => ()) nofun (fun _ _ => rfl) (fun _ => rfl) (fun _ => rfl) fun _ => rfl

/-- The size of a pack. -/
theorem judged_fileSize {n : Mapping} : Judged p P (fun _ => P) P (fileSize n) :=
  judged_guard id (fun w => (w.fs.data n.ino).length) nofun (fun _ _ => rfl)
    (fun v => ⟨rfl, v, rfl⟩) ⟨_, rfl, rfl, rfl⟩

/-- The tables in a transaction. -/
theorem judged_txnDb {what : String} : Within p (perform .txnDb >>= mdbCheck what) := by
  refine judged_ask nofun fun ch w r w₁ hw hx => ?_
  obtain ⟨t, ht⟩ := Option.isSome_iff_exists.1 hw
  simp only [exec, ht] at hx
  cases hx
  exact .inl ⟨rfl, t, rfl, hw⟩

/-- Putting a pair. -/
theorem judged_txnPut {what : String} {dbi : Dbi} {key val : Bytes} :
    Within p (perform (.txnPut dbi key val true) >>= mdbCheck what) := by
  refine judged_ask nofun fun ch w r w₁ hw hx => ?_
  obtain ⟨t, ht⟩ := Option.isSome_iff_exists.1 hw
  simp only [exec, World.onTxn, ht, Bool.not_true, Bool.false_and] at hx
  split at hx
  · cases hx
    exact .inr ⟨hw, mdbCheck_throws ch⟩
  · cases hx
    exact .inl ⟨rfl, (), rfl, by simp [Began, World.txn]⟩

/-- The commit ends the transaction. -/
theorem judged_txnCommit {what : String} :
    Judged p (Began p) (fun _ _ => True) (fun _ => True)
      (perform .txnCommit >>= mdbCheck what) := by
  refine judged_ask nofun fun ch w r w₁ hw hx => ?_
  obtain ⟨t, ht⟩ := Option.isSome_iff_exists.1 hw
  simp only [exec, ht] at hx
  split at hx
  · cases hx
    exact .inr ⟨trivial, mdbCheck_throws ch⟩
  · cases hx
    exact .inl ⟨rfl, (), rfl, trivial⟩

/-- The beginning of a transaction. -/
theorem judged_txnBegin {what : String} :
    Judged p P (fun _ => Began p) (fun _ => True) (perform .txnBegin >>= mdbCheck what) := by
  refine judged_ask nofun fun ch w r w₁ hw hx => ?_
  simp only [exec] at hx
  split at hx
  · cases hx
    exact .inr ⟨trivial, mdbCheck_throws ch⟩
  · split at hx
    · cases hx
      exact .inl ⟨rfl, (), rfl, by simp [Began, World.txn]⟩
    · cases hx

/-- A call that cannot be refused, at the end. -/
theorem judged_last {c : Call} (hc : c ≠ .removeAll) (hr : ∀ r, refused ⟨c, r⟩ = false) :
    Without p (perform c) := by
  have hpure : Without p (perform c >>= pure) := judged_perform hc fun ch w r w₁ _ _ =>
    .inl ⟨hr r, judged_pure fun _ _ => trivial⟩
  rwa [bind_pure] at hpure

end

/-! ## The parts of `open_once` -/

/-- The check of the format throws only `CorruptError`, unless a call is refused. -/
theorem judged_checkFormat {db : Db} : Within p (checkFormat db) := by
  refine judged_seq judged_mdbRead fun _ => ?_
  split
  · split
    · exact judged_corrupt fun _ h => h
    · exact judged_pure fun _ h => h
  · refine judged_seq judged_mdbRead fun _ => ?_
    split
    · exact judged_corrupt fun _ h => h
    · exact judged_txnPut

/-- A generation that cannot be read is corrupt. -/
theorem corrupt_of_gen {db : Db} {e : Err} (h : db.gen = .error e) : ∃ msg, e = .corrupt msg := by
  rw [Db.gen] at h
  split at h
  · cases h
  · split at h
    · cases h
      exact ⟨_, rfl⟩
    · cases h

/-- Reading the generation, within a transaction. -/
theorem judged_readGen {db : Db} : Within p (readGen db) := by
  refine judged_seq judged_mdbRead fun _ => ?_
  cases hg : db.gen with
  | ok g => exact judged_pure fun _ h => h
  | error e =>
    obtain ⟨msg, rfl⟩ := corrupt_of_gen hg
    exact judged_corrupt fun _ h => h

/-- The scope of a transaction that is not committed aborts it. -/
theorem judged_txnScope {m : CasM α} (hm : Within p m) :
    Judged p (Began p) (fun _ => Began p) (fun _ => True) (txnScope m) := by
  refine judged_catchAll hm fun e i w hw => ?_
  obtain ⟨t, ht⟩ := Option.isSome_iff_exists.1 hw
  refine Eff.Traced.perform (S := sig) (c := Call.txnAbort)
    (f := fun r => mdbCheck "mdb_txn_abort" r >>= fun _ => Eff.throw e) fun r w₁ ⟨ch, _, hx⟩ => ?_
  simp only [exec, ht] at hx
  cases hx
  exact .throw ⟨trivial, by simp [Unwiped], by simp [Unrefused, refused], rfl⟩

/-- The removal of orphans does not throw. -/
theorem judged_unlinkOrphans {g : Nat} (gens : List Nat) : Without p (unlinkOrphans g gens) := by
  induction gens with
  | nil => exact judged_pure fun _ _ => trivial
  | cons gen rest ih =>
    rw [unlinkOrphans]
    split
    · exact judged_seq (judged_last (c := .unlink gen) (by simp) fun _ => rfl) fun _ => ih
    · exact ih

/-- Nor does the cleanup, unless a call is refused. -/
theorem judged_cleanupIfFree {g : Nat} : Without p (cleanupIfFree g) := by
  refine judged_perform nofun fun ch w r w₁ _ _ => .inl ⟨rfl, ?_⟩
  have hweak {m : CasM Unit} (h : Without p m) :
      Judged p (· = w₁) (fun _ _ => True) (fun _ => True) m := fun i w _ => h i w trivial
  split
  · refine hweak (judged_seq (judged_seq ?_ judged_unlinkOrphans) fun _ => ?_)
    · exact judged_guard id (fun w => w.fs.names.map Prod.fst) nofun (fun _ _ => rfl)
        (fun v => ⟨rfl, v, rfl⟩) ⟨_, rfl, rfl, rfl⟩
    · exact judged_last (c := .flockUn) nofun fun _ => rfl
  · exact hweak (judged_pure fun _ _ => trivial)

/-- `mapping_for` with leave to create the pack finds a mapping. -/
theorem judged_mappingFor {g : Nat} :
    Judged p (fun _ => True) (fun o _ => o.isSome) (fun _ => True) (mappingFor g true) := by
  have hrest {ino : Nat} : Judged p (fun _ => True) (fun o _ => o.isSome) (fun _ => True) (do
      let size ← fileSize ⟨g, ino⟩
      Eff.modify (·.setKnown g size)
      perform (.mmap ino) >>= sysCheck "mmap pack"
      pure (some (⟨g, ino⟩ : Mapping))) := by
    refine judged_seq judged_fileSize fun size => judged_modify ?_
    refine judged_seq (judged_guard id (fun _ => ()) nofun (fun _ _ => rfl) (fun v => ⟨rfl, v, rfl⟩)
      ⟨_, rfl, rfl, rfl⟩) fun _ => ?_
    exact judged_pure fun _ _ => rfl
  refine judged_get fun i => ?_
  split
  · exact judged_pure fun _ _ => rfl
  · refine judged_seq (R := fun o _ => o.isSome) ?_ fun o => ?_
    · refine judged_perform nofun fun ch w r w₁ _ hx => ?_
      simp only [exec] at hx
      split at hx
      · cases hx
        exact .inr ⟨trivial, _, rfl, rfl, rfl⟩
      · split at hx
        · cases hx
          exact .inl ⟨rfl, fun i w _ => hrest i w trivial⟩
        · cases hx
          exact .inl ⟨rfl, fun i w _ => hrest i w trivial⟩
    · cases o with
      | none => exact judged_pure fun _ h => absurd h (by simp)
      | some m => exact judged_modify (judged_pure fun _ _ => rfl)

/-- The body of `open_once`. -/
theorem judged_openBody : Without p openBody := by
  have hguard {c : Call} {k : c.Resp → CasM Unit} (ofE : Except Errno Unit → c.Resp)
      (hc : c ≠ .removeAll) (hx : ∀ ch w, exec p ch c w = some (ofE (ch.guard ()), w))
      (hok : ∀ v, refused ⟨c, ofE (.ok v)⟩ = false ∧ ∃ b, k (ofE (.ok v)) = pure b)
      (herr : ∃ e, k (ofE (.error .io)) = Eff.throw e ∧ e.caught ∧
        refused ⟨c, ofE (.error .io)⟩ = !e.reports) :
      Without p (perform c >>= k) := judged_guard ofE (fun _ => ()) hc hx hok herr
  refine judged_seq (hguard id nofun (fun _ _ => rfl) (fun v => ⟨rfl, v, rfl⟩)
    ⟨_, rfl, rfl, rfl⟩) fun _ => ?_
  refine judged_seq (judged_mdbGuard (c := .envOpen) id (fun _ => ()) nofun (fun _ _ => rfl)
    (fun _ => rfl) (fun _ => rfl) fun _ => rfl) fun _ => ?_
  refine judged_seq judged_txnBegin fun _ => ?_
  refine judged_seq (judged_txnScope ?_) fun gen => ?_
  · refine judged_seq judged_mdbRead fun _ => judged_seq judged_mdbRead fun _ => ?_
    refine judged_seq judged_txnDb fun db => ?_
    exact judged_seq judged_checkFormat fun _ => judged_readGen
  · refine judged_seq judged_txnCommit fun _ => ?_
    refine judged_seq (hguard id nofun (fun _ _ => rfl) (fun v => ⟨rfl, v, rfl⟩)
      ⟨_, rfl, rfl, rfl⟩) fun _ => ?_
    refine judged_seq judged_cleanupIfFree fun _ => judged_seq judged_mappingFor fun o => ?_
    cases o with
    | none => exact fun _ _ h => absurd h (by simp)
    | some m => exact judged_pure fun _ _ => trivial

/-- The outcome of `open_once` says whether a call was refused. -/
theorem judged_openOnce : Without p openOnce := by
  refine judged_catchAll judged_openBody fun e i w _ => ?_
  refine .perform fun r w₁ ⟨ch, _, hx⟩ => ?_
  exact .throw ⟨trivial, by simp [Unwiped], by simp [Unrefused, refused], rfl⟩

/-! ## `open` -/

/-- The run of `open` whose calls are `tr` begins with a run of `open_once` that makes the calls `tr₁`
and ends in `x`. -/
def FirstTry (p : Nat) (i : Impl) (w : World) (tr tr₁ : List (Tarmac.Event sig))
    (x : Except Err Unit) : Prop :=
  tr₁ <+: tr ∧ ∃ i₁ w₁, Prog.Run (sem (fun _ _ => True) p) (openOnce i) w tr₁ (x, i₁) w₁

/-- `open` with the calls `tr` destroys the cache of the directory `w` only for corruption. Its handler
removes something only if the first `open_once` threw an exception that reports corruption. And where it
threw another one, in a sound cache that nobody writes to, whoever opens the directory `w'` that is left,
or had it open before, reads every blob that was there. -/
structure Spares (ext : Ext) (p : Nat) (i : Impl) (w : World) (tr : List (Tarmac.Event sig))
    (w' : World) : Prop where
  wipes : ∀ tr₁ e i₁ w₁ r,
    Prog.Run (sem (fun _ _ => True) p) (openOnce i) w tr₁ (.error e, i₁) w₁ →
    tr₁ ++ [⟨.removeAll, r⟩] <+: tr → w₁.removeAll r ≠ w₁ → e.reports
  blobs : Shape w → w.env.lock = none → w.env.writer = none →
    ∀ tr₁ e, FirstTry p i w tr tr₁ (.error e) → e.reports = false →
    ∀ h e₀ d, h.length = kHashLen → Holds ext w.pack w.env.db.blobs h e₀ d →
    (∀ q j, j.New → Returns q (open_ >>= fun _ => get ext h) j w' (some d)) ∧
    ∀ q j, q ≠ p → Idle q j w → Returns q (get ext h) j w' (some d)

/-- The environment refuses no call of the first `open_once`, or else it refuses the handler the removal
of every entry too. -/
def Unharmed (p : Nat) (i : Impl) (w : World) (tr : List (Tarmac.Event sig)) : Prop :=
  ∀ tr₁ x i₁ w₁, Prog.Run (sem (fun _ _ => True) p) (openOnce i) w tr₁ (x, i₁) w₁ → tr₁ <+: tr →
    Unrefused tr₁ ∨ ∀ r, tr₁ ++ [⟨.removeAll, r⟩] <+: tr → w₁.removeAll r = w₁

/-- What `open` does when the first `open_once` throws. -/
def openAgain : CasM Unit := do
  let _ ← perform .removeAll
  Eff.modify fun i => { thread := i.thread }
  openOnce

/-- The runs of `open` are those of `open_once`, if that does not throw, or go on with the handler. -/
theorem run_open {x : Except Err Unit}
    (hr : Prog.Run (sem (fun _ _ => True) p) (open_ i) w tr (x, i') w') :
    (Prog.Run (sem (fun _ _ => True) p) (openOnce i) w tr (x, i') w' ∧ ∀ e, x ≠ .error e) ∨
    ∃ tr₁ e i₁ w₁ r tr₂, tr = tr₁ ++ ⟨.removeAll, r⟩ :: tr₂ ∧
      Prog.Run (sem (fun _ _ => True) p) (openOnce i) w tr₁ (.error e, i₁) w₁ ∧
      Prog.Run (sem (fun _ _ => True) p) (openOnce { thread := i₁.thread }) (w₁.removeAll r) tr₂
        (x, i') w' := by
  rcases Eff.run_catchIf hr with ⟨h₁, hn⟩ | ⟨tr₁, e, i₁, w₁, tr₂, h₁, h₂, rfl⟩
  · have hverdict := (judged_openOnce i w trivial tr x i' w' h₁).2
    refine .inl ⟨h₁, ?_⟩
    rintro e rfl
    exact hn e rfl hverdict.2.1
  · obtain ⟨r, w₂, tr₃, ⟨ch, _, hx⟩, h₃, rfl⟩ := Eff.run_perform h₂
    cases hx
    exact .inr ⟨tr₁, e, i₁, w₁, _, tr₃, rfl, h₁, h₃⟩

/-- There is one first attempt. -/
theorem FirstTry.unique {tr₁ tr₂ : List (Tarmac.Event sig)} {x y : Except Err Unit}
    (h₁ : FirstTry p i w tr tr₁ x) (h₂ : FirstTry p i w tr tr₂ y) : tr₁ = tr₂ ∧ x = y := by
  obtain ⟨hp₁, i₁, w₁, hr₁⟩ := h₁
  obtain ⟨hp₂, i₂, w₂, hr₂⟩ := h₂
  obtain ⟨htr, hx⟩ := hr₁.eq_of_prefix hr₂ hp₁ hp₂
  exact ⟨htr, congrArg Prod.fst hx⟩

/-- An exception of `open_once` reports corruption exactly if the environment refused no call. -/
theorem unrefused_iff_reports {e : Err}
    (hr : Prog.Run (sem (fun _ _ => True) p) (openOnce i) w tr (.error e, i') w') :
    Unrefused tr ↔ e.reports := (judged_openOnce i w trivial tr (.error e) i' w' hr).2.2.2

/-- One attempt on a sound cache that nobody writes to leaves it such, and the blobs as they were,
whatever fails. -/
theorem openOnce_same {x : Except Err Unit} (hI : Inv (.any ext) p w) (hi : i.New)
    {w₀ : World} (hc : Closed (.any ext) p w (w₀.store ext) w₀)
    (hr : Prog.Run (sem (fun _ _ => True) p) (openOnce i) w tr (x, i') w') :
    Inv (.any ext) p w' ∧ Closed (.any ext) p w' (w₀.store ext) w₀ := by
  obtain ⟨hI', h⟩ := Setting.solo_run hr hI (safe_openOnce (.inl trivial) hI hi hc)
  refine ⟨hI', ?_⟩
  cases x with
  | error e => exact h.2
  | ok _ =>
    obtain ⟨_, ho⟩ := h
    exact ⟨ho.rest.idle.txn, ho.rest.unlocked, ho.rest.store, ho.same⟩

/-- Whoever opens a directory whose blobs are as they were, or had it open, reads them. -/
theorem reads_of_same {h : Bytes} {e₀ : IndexEntry} {d : Bytes} (hI : Inv (.any ext) p w')
    (hc : Closed (.any ext) p w' (w.store ext) w) (hnext : w.fs.next ≤ w'.fs.next)
    (hlen : h.length = kHashLen) (hh : Holds ext w.pack w.env.db.blobs h e₀ d) :
    (∀ q j, j.New → Returns q (open_ >>= fun _ => get ext h) j w' (some d)) ∧
    ∀ q j, q ≠ p → Idle q j w → Returns q (get ext h) j w' (some d) := by
  have hsame := hc.kept.same trivial
  have hlock : w'.env.lock = none := by
    cases hl : w'.env.lock with
    | none => rfl
    | some q =>
      obtain rfl := (hI.solo trivial).lock q hl
      exact absurd hl hc.unlocked
  obtain ⟨hInv, hfree⟩ := hI.smooth_of_free hc.txn hlock
  rw [← hsame.pack, ← hsame.blobs] at hh
  refine ⟨fun q j hj => ?_, fun q j _ hj => ?_⟩
  · exact returns_of_safe (hInv q) (safe_open_get (hInv q) hj (hfree q) (by simp [hlock]) hlen hh)
  · have hidle : Idle q j w' :=
      ⟨hj.handle.congr hsame.gen hsame.ino hnext, hj.wtxn, hfree q, hsame.format hj.format⟩
    exact returns_of_safe (hInv q) (safe_get_committed (hInv q) hidle hlen hh)

/-- Where the handler removes nothing, `open` leaves the blobs of a sound cache that nobody writes to. -/
theorem reads_of_unharmed {x y : Except Err Unit} {i₁ j : Impl} {w₁ : World} (hi : i.New)
    (hshape : Shape w) (hlock : w.env.lock = none) (hwriter : w.env.writer = none)
    (h₁ : Prog.Run (sem (fun _ _ => True) p) (openOnce i) w tr₁ (y, i₁) w₁) (hj : j.New)
    (h₂ : Prog.Run (sem (fun _ _ => True) p) (openOnce j) w₁ tr₂ (x, i') w')
    {h : Bytes} {e₀ : IndexEntry} {d : Bytes} (hlen : h.length = kHashLen)
    (hh : Holds ext w.pack w.env.db.blobs h e₀ d) :
    (∀ q j, j.New → Returns q (open_ >>= fun _ => get ext h) j w' (some d)) ∧
    ∀ q j, q ≠ p → Idle q j w → Returns q (get ext h) j w' (some d) := by
  have hI : Inv (.any ext) p w := by
    refine ⟨hshape, trivial, fun h => False.elim h, fun _ => ⟨fun q hq => ?_, fun q t ht => ?_⟩⟩
    · rw [hlock] at hq
      cases hq
    · rw [hwriter] at ht
      cases ht
  have hc : Closed (.any ext) p w (w.store ext) w := by
    refine ⟨?_, ?_, rfl, fun _ => .of_eq rfl rfl⟩
    · rw [World.txn, hwriter]
    · simp [hlock]
  obtain ⟨hI₁, hc₁⟩ := openOnce_same hI hi hc h₁
  obtain ⟨hI₂, hc₂⟩ := openOnce_same hI₁ hj hc₁ h₂
  exact reads_of_same hI₂ hc₂ ((run_next_le h₁).trans (run_next_le h₂)) hlen hh

/-- `open` destroys the cache only for corruption exactly when the environment refuses no call of the
first `open_once`, or else lets the handler remove nothing: for every directory, whatever is in it, and
every choice of the calls that fail, of how they fail, and of what the handler removes. -/
theorem open_spares_iff (ext : Ext) (p : Nat) (hi : i.New) {x : Except Err Unit}
    (hr : Prog.Run (sem (fun _ _ => True) p) (open_ i) w tr (x, i') w') :
    Spares ext p i w tr w' ↔ Unharmed p i w tr := by
  constructor
  · intro hs tr₁ y i₁ w₁ h₁ hpre
    by_cases hun : Unrefused tr₁
    · exact .inl hun
    · refine .inr fun r hcall => ?_
      by_contra hne
      cases y with
      | ok a => exact hun (judged_openOnce i w trivial tr₁ (.ok a) i₁ w₁ h₁).2.2
      | error e => exact hun ((unrefused_iff_reports h₁).2 (hs.wipes tr₁ e i₁ w₁ r h₁ hcall hne))
  · intro hcalm
    refine ⟨fun tr₁ e i₁ w₁ r h₁ hcall hne => ?_, ?_⟩
    · have hpre : tr₁ <+: tr := (List.prefix_append _ _).trans hcall
      rcases hcalm tr₁ _ i₁ w₁ h₁ hpre with hun | hsame
      · exact (unrefused_iff_reports h₁).1 hun
      · exact absurd (hsame r hcall) hne
    · intro hshape hlock hwriter tr₁ e hfirst hne h e₀ d hlen hh
      rcases run_open hr with ⟨h₁, hn⟩ | ⟨tr₂, e₂, i₁, w₁, r, tr₃, rfl, h₁, h₂⟩
      · have hself : FirstTry p i w tr tr x := ⟨List.prefix_refl _, i', w', h₁⟩
        exact absurd (hself.unique hfirst).2 (hn e)
      · have hpre : tr₂ <+: tr₂ ++ ⟨.removeAll, r⟩ :: tr₃ := List.prefix_append _ _
        have hcall : tr₂ ++ [⟨.removeAll, r⟩] <+: tr₂ ++ ⟨.removeAll, r⟩ :: tr₃ := by
          rw [List.prefix_append_right_inj]
          exact List.cons_prefix_cons.2 ⟨rfl, List.nil_prefix⟩
        have hself : FirstTry p i w (tr₂ ++ ⟨.removeAll, r⟩ :: tr₃) tr₂ (.error e₂) :=
          ⟨hpre, i₁, w₁, h₁⟩
        obtain ⟨rfl, heq⟩ := hself.unique hfirst
        cases heq
        rcases hcalm _ _ i₁ w₁ h₁ hpre with hun | hsame
        · rw [(unrefused_iff_reports h₁).1 hun] at hne
          cases hne
        · rw [hsame r hcall] at h₂
          exact reads_of_unharmed hi hshape hlock hwriter h₁ ⟨rfl, rfl, rfl⟩ h₂ hlen hh

/-! ## A failing input -/

/-- The address space for the pack's mapping is refused, and nothing else. -/
def failMmap : Call → Choice
  | .mmap _ => ⟨true, 0⟩
  | _ => {}

/-- A new directory with a blob that is synced, and the process gone; then another, which gets no
address space, in the two parts of its `open`. -/
def wipingOpen : Option (World × List (Tarmac.Event sig) × Except Err Unit × Impl × World ×
    List (Tarmac.Event sig) × Except Err Unit × Impl × World) := do
  let (_, (_, i₀), w₀) ← evalWith (fun _ => {}) (open_ {}) .fresh
  let (_, (_, i₁), w₁) ← evalWith (fun _ => {}) (put .sample [1] i₀) w₀
  let (_, (_, i₂), w₂) ← evalWith (fun _ => {}) (sync i₁) w₁
  let (_, (_, _), w₃) ← evalWith (fun _ => {}) (destroy i₂) w₂
  let (tr₁, (x₁, i₄), w₄) ← evalWith failMmap (openOnce {}) w₃
  let (tr₂, (x₂, i₅), w₅) ← evalWith failMmap (openAgain i₄) w₄
  pure (w₃, tr₁, x₁, i₄, w₄, tr₂, x₂, i₅, w₅)

/-- What a process reads that opens the directory. -/
def readAfter (w : World) : Option (Except Err (Option Bytes)) :=
  (evalWith (fun _ => {}) ((open_ >>= fun _ => get .sample (Ext.sample.blake3 [1])) {}) w).map
    fun r => r.2.1.1

/-- The runs of `open` in which the first `open_once` throws. -/
theorem run_open_of_error {e : Err} {x : Except Err Unit} {i₁ : Impl} {w₁ : World}
    (h₁ : Prog.Run (sem (fun _ _ => True) p) (openOnce i) w tr₁ (.error e, i₁) w₁) (hc : e.caught)
    (h₂ : Prog.Run (sem (fun _ _ => True) p) (openAgain i₁) w₁ tr₂ (x, i') w') :
    Prog.Run (sem (fun _ _ => True) p) (open_ i) w (tr₁ ++ tr₂) (x, i') w' := by
  refine Prog.Run.bind h₁ ?_
  dsimp only
  rw [if_pos hc]
  exact h₂

/-- A directory with a synced blob, and an `open` of it in which the mapping of the pack is refused
both times: the first attempt throws what does not report corruption, and the handler removes the
directory. -/
theorem exists_wiping_open : ∃ w tr tr₁ e i₁ w₁ x i' w', readAfter w = some (.ok (some [1])) ∧
    Prog.Run (sem (fun _ _ => True) 0) (open_ {}) w tr (x, i') w' ∧
    Prog.Run (sem (fun _ _ => True) 0) (openOnce {}) w tr₁ (.error e, i₁) w₁ ∧ e.reports = false ∧
    tr₁ ++ [⟨.removeAll, .ok ()⟩] <+: tr ∧ w₁.removeAll (.ok ()) ≠ w₁ ∧
    readAfter w' = some (.ok none) := by
  have hsome : wipingOpen.any (fun r => readAfter r.1 == some (.ok (some [1])) &&
      r.2.2.1 == .error (.sys "mmap pack") && !r.2.2.2.2.1.fs.names.isEmpty &&
      readAfter r.2.2.2.2.2.2.2.2 == some (.ok none)) := by
    decide +kernel
  obtain ⟨⟨w₃, tr₁, x₁, i₄, w₄, tr₂, x₂, i₅, w₅⟩, hrun, hobs⟩ := (Option.any_eq_true _ _).1 hsome
  simp only [Bool.and_eq_true, beq_iff_eq, Bool.not_eq_true'] at hobs
  obtain ⟨⟨⟨hbefore, rfl⟩, hnames⟩, hafter⟩ := hobs
  simp only [wipingOpen, Option.bind_eq_bind, Option.bind_eq_some_iff, Option.pure_def,
    Option.some.injEq, Prod.mk.injEq] at hrun
  obtain ⟨_, _, _, _, _, _, ⟨_, _, w₃'⟩, _, ⟨tr₁', ⟨x₁', i₄'⟩, w₄'⟩, h₁, ⟨tr₂', ⟨x₂', i₅'⟩, w₅'⟩, h₂,
    rfl, rfl, rfl, rfl, rfl, rfl, rfl, rfl, rfl⟩ := hrun
  have hr₁ : Prog.Run (sem (fun _ _ => True) 0) (openOnce {}) w₃' tr₁'
      (.error (.sys "mmap pack"), i₄') w₄' := run_of_evalWith (fun _ => trivial) h₁
  -- the handler removes everything
  have hr₂ : Prog.Run (sem (fun c ch => c = .removeAll → ch.fail = false) 0) (openAgain i₄') w₄' tr₂'
      (x₂', i₅') w₅' := by
    refine run_of_evalWith (fun c hc => ?_) h₂
    subst hc
    rfl
  have hr := run_open_of_error hr₁ rfl (hr₂.mono fun c w r w' hstep => by
    obtain ⟨ch, _, hx⟩ := hstep
    exact ⟨ch, trivial, hx⟩)
  obtain ⟨r, _, tr₃, ⟨ch, hch, hx⟩, _, rfl⟩ := Eff.run_perform hr₂
  cases hx
  have hnofail : ¬ch.fail = true := by simp [hch rfl]
  refine ⟨w₃', _, tr₁', _, _, _, _, _, _, hbefore, hr, hr₁, rfl, ?_, fun heq => ?_, hafter⟩
  · rw [List.prefix_append_right_inj, if_neg hnofail]
    exact List.cons_prefix_cons.2 ⟨rfl, List.nil_prefix⟩
  · have hgone : w₄'.fs.names = [] := by
      rw [← heq]
      rfl
    rw [hgone] at hnames
    cases hnames

/-- The blob that was synced is lost. -/
theorem open_wipes_synced : ∃ w tr x i' w', readAfter w = some (.ok (some [1])) ∧
    Prog.Run (sem (fun _ _ => True) 0) (open_ {}) w tr (x, i') w' ∧
    readAfter w' = some (.ok none) ∧ ¬Spares .sample 0 {} w tr w' := by
  obtain ⟨w, tr, tr₁, e, i₁, w₁, x, i', w', hbefore, hr, h₁, hne, hcall, hgone, hafter⟩ :=
    exists_wiping_open
  refine ⟨w, tr, x, i', w', hbefore, hr, hafter, fun hs => ?_⟩
  rw [hs.wipes tr₁ e i₁ w₁ _ h₁ hcall hgone] at hne
  cases hne

/-- The `open` that gets no address space does not spare the cache, and is not unharmed. -/
theorem open_spares_iff_sample : ∃ w tr x i' w', readAfter w = some (.ok (some [1])) ∧
    Prog.Run (sem (fun _ _ => True) 0) (open_ {}) w tr (x, i') w' ∧
    ¬Unharmed 0 {} w tr ∧ (Spares .sample 0 {} w tr w' ↔ Unharmed 0 {} w tr) := by
  obtain ⟨w, tr, tr₁, e, i₁, w₁, x, i', w', hbefore, hr, h₁, hne, hcall, hgone, _⟩ :=
    exists_wiping_open
  refine ⟨w, tr, x, i', w', hbefore, hr, fun hun => ?_,
    open_spares_iff .sample 0 ⟨rfl, rfl, rfl⟩ hr⟩
  rcases hun tr₁ _ i₁ w₁ h₁ ((List.prefix_append _ _).trans hcall) with hcalm | hsame
  · rw [(unrefused_iff_reports h₁).1 hcalm] at hne
    cases hne
  · exact hgone (hsame _ hcall)

end Tarmac.PackCas
