import Tarmac.Lib.Traced
import Tarmac.PackCas.Handle

/-!
# The transaction and the lock of a process

What a process itself has of the environment is the working copy of its write transaction and the
writer lock (`Own`). Nobody else touches either, so they can be followed through any computation of
the process while the rest of the world changes arbitrarily (`among`). `Owns p Q m i o` is the judgement:
begun with the handle `i` and owning `o`, the computation never uses a transaction that has ended, and
ends in `Q`. It excepts the runs in which a commit of a batch goes wrong behind `fdatasync` (`Botched`).
-/

namespace Tarmac.PackCas

variable {α β : Type} {p : Nat} {i i' : Impl} {tr tr₁ tr₂ : List (Tarmac.Event sig)}

/-! ## What a process owns -/

/-- The working copy of the write transaction of a process, and whether it holds the writer lock. -/
structure Own where
  txn : Option Db
  holds : Bool

/-- What the process `p` owns. -/
def World.own (w : World) (p : Nat) : Own := ⟨w.txn p, decide (w.env.lock = some p)⟩

/-- The calls of the process `p` in a world in which everything may change between two of them but what
it owns. -/
def among (p : Nat) : Sem sig World := fun c w r w' =>
  ∃ w₁ ch, w₁.own p = w.own p ∧ exec p ch c w₁ = some (r, w')

/-- A call that concerns neither the transaction nor the lock. -/
def Call.neutral : Call → Bool
  | .flockTry | .flockUn | .txnBegin | .txnCommit | .txnAbort | .txnDb | .txnPut .. | .txnDel ..
  | .txnDropBlobs | .removeAll => false
  | _ => true

/-- A call was made in a transaction that had ended. -/
def ended : Tarmac.Event sig → Bool
  | ⟨.txnCommit, .error .badTxn⟩ | ⟨.txnAbort, .error .badTxn⟩ | ⟨.txnDb, .error .badTxn⟩
  | ⟨.txnPut .., .error .badTxn⟩ | ⟨.txnDel .., .error .badTxn⟩
  | ⟨.txnDropBlobs, .error .badTxn⟩ => true
  | _ => false

/-- No call was made in a transaction that had ended. -/
def Unended (tr : List (Tarmac.Event sig)) : Prop := ∀ ev ∈ tr, ended ev = false

/-- Two traces in which no transaction ends. -/
theorem Unended.append (h₁ : Unended tr₁) (h₂ : Unended tr₂) : Unended (tr₁ ++ tr₂) := by
  intro ev he
  exact (List.mem_append.1 he).elim (h₁ ev) (h₂ ev)

/-- A neutral call leaves transaction and lock alone. -/
theorem own_neutral {ch : Choice} {c : Call} {r : c.Resp} {w w' : World} (hc : c.neutral)
    (h : exec p ch c w = some (r, w')) : w'.own p = w.own p ∧ ended ⟨c, r⟩ = false := by
  cases c <;> simp only [exec] at h <;> simp only [Call.neutral, Bool.false_eq_true] at hc
  all_goals (repeat' split at h)
  all_goals cases h
  all_goals exact ⟨rfl, rfl⟩

/-! ## Commits that go wrong -/

/-- A commit of a batch goes wrong behind the `fdatasync` of the pack: `mdb_txn_commit` fails, or the
`mdb_env_sync` that follows it. Elsewhere neither call comes directly behind an `fdatasync`. -/
def Botched (tr : List (Tarmac.Event sig)) : Prop :=
  ∃ ino e, [⟨.fdatasync ino, .ok ()⟩, ⟨.txnCommit, .error e⟩] <:+: tr ∨
    [⟨.fdatasync ino, .ok ()⟩, ⟨.txnCommit, .ok ()⟩, ⟨.envSync, .error e⟩] <:+: tr

/-- A commit that goes wrong in a part of a trace. -/
theorem Botched.of_infix (h : Botched tr₁) (hi : tr₁ <:+: tr) : Botched tr := by
  obtain ⟨ino, e, h⟩ := h
  exact ⟨ino, e, h.imp (·.trans hi) (·.trans hi)⟩

/-! ## The judgement -/

/-- An outcome a C++ caller sees: the computation returns or throws. -/
def Seen (x : Except Err α) : Prop := ∀ e, x = .error e → e.caught

/-- Begun with the handle `i` and owning `o`, the computation never uses a transaction that has ended,
and if it returns or throws, it ends in `Q`; unless a commit goes wrong. -/
def Owns (p : Nat) (Q : Except Err α → Impl → Own → Prop) (m : CasM α) (i : Impl) (o : Own) : Prop :=
  ∀ w, w.own p = o → Eff.Traced (among p)
    (fun tr x i' w' => ¬Botched tr → Unended tr ∧ (Seen x → Q x i' (w'.own p))) m i w

namespace Owns

variable {Q : Except Err α → Impl → Own → Prop} {o : Own}

theorem mono {T : Except Err α → Impl → Own → Prop} {m : CasM α} (hm : Owns p T m i o)
    (h : ∀ x i' o', T x i' o' → Q x i' o') : Owns p Q m i o := fun w hw =>
  (hm w hw).mono fun _ x i' _ ht hn => ⟨(ht hn).1, fun hx => h x i' _ ((ht hn).2 hx)⟩

theorem pure {a : α} (h : Q (.ok a) i o) : Owns p Q (pure a : CasM α) i o := fun _ hw =>
  .pure fun _ => ⟨nofun, fun _ => hw ▸ h⟩

/-- A program that throws an exception that can be caught. -/
theorem throw {e : Err} (h : e.caught → Q (.error e) i o) : Owns p Q (Eff.throw e : CasM α) i o :=
  fun _ hw => .throw fun _ => ⟨nofun, fun hx => hw ▸ h (hx e rfl)⟩

theorem get {f : Impl → CasM α} (h : Owns p Q (f i) i o) : Owns p Q (Eff.get >>= f) i o := h

theorem modify {g : Impl → Impl} {f : Unit → CasM α} (h : Owns p Q (f ()) (g i) o) :
    Owns p Q (Eff.modify g >>= f) i o := h

/-- One program after another; an exception of the first ends both. -/
theorem seq {T : Except Err β → Impl → Own → Prop} {m : CasM β} {f : β → CasM α}
    (hm : Owns p T m i o) (hok : ∀ b i' o', T (.ok b) i' o' → Owns p Q (f b) i' o')
    (herr : ∀ e i' o', e.caught → T (.error e) i' o' → Q (.error e) i' o') :
    Owns p Q (m >>= f) i o := by
  intro w hw
  refine (hm w hw).seq (fun tr b i' w' ht => ?_) fun tr e i' w' ht hn => ?_
  · intro tr' x i'' w'' hr hn
    have hn₁ : ¬Botched tr := fun h => hn (h.of_infix (List.prefix_append _ _).isInfix)
    have hn₂ : ¬Botched tr' := fun h => hn (h.of_infix (List.suffix_append _ _).isInfix)
    obtain ⟨hv₁, hT⟩ := ht hn₁
    obtain ⟨hv₂, hQ⟩ := hok b i' _ (hT nofun) w' rfl tr' x i'' w'' hr hn₂
    exact ⟨hv₁.append hv₂, hQ⟩
  · obtain ⟨hv, hT⟩ := ht hn
    exact ⟨hv, fun hx => herr e i' _ (hx e rfl) (hT fun e' he => by cases he; exact hx e rfl)⟩

/-- A handler takes over from the exceptions. -/
theorem catchAll {T : Except Err α → Impl → Own → Prop} {m : CasM α} {h : Err → CasM α}
    (hm : Owns p T m i o) (hok : ∀ a i' o', T (.ok a) i' o' → Q (.ok a) i' o')
    (hcaught : ∀ e i' o', e.caught → T (.error e) i' o' → Owns p Q (h e) i' o') :
    Owns p Q (PackCas.catchAll m h) i o := by
  intro w hw
  refine (hm w hw).catchIf (fun tr a i' w' ht hn => ?_) (fun tr e i' w' ht hc => ?_)
    fun tr e i' w' ht hc hn => ?_
  · obtain ⟨hv, hT⟩ := ht hn
    exact ⟨hv, fun _ => hok a i' _ (hT nofun)⟩
  · intro tr' x i'' w'' hr hn
    have hn₁ : ¬Botched tr := fun h => hn (h.of_infix (List.prefix_append _ _).isInfix)
    have hn₂ : ¬Botched tr' := fun h => hn (h.of_infix (List.suffix_append _ _).isInfix)
    obtain ⟨hv₁, hT⟩ := ht hn₁
    have hseen : Seen (.error e : Except Err α) := fun e' he => by cases he; exact hc
    obtain ⟨hv₂, hQ⟩ := hcaught e i' _ hc (hT hseen) w' rfl tr' x i'' w'' hr hn₂
    exact ⟨hv₁.append hv₂, hQ⟩
  · exact ⟨(ht hn).1, fun hx => absurd (hx e rfl) hc⟩

/-- A call, described by what it does to what the process owns. -/
theorem perform {c : Call} {f : c.Resp → CasM α}
    (h : ∀ r ch w w', w.own p = o → exec p ch c w = some (r, w') →
      ended ⟨c, r⟩ = false ∧ Owns p Q (f r) i (w'.own p)) : Owns p Q (PackCas.perform c >>= f) i o := by
  intro w hw
  refine .perform fun r w₁ ⟨w₀, ch, ho, hx⟩ => ?_
  obtain ⟨hv, hf⟩ := h r ch w₀ w₁ (ho.trans hw) hx
  intro tr x i' w' hr hn
  have hn₁ : ¬Botched tr := fun h => hn (h.of_infix (List.suffix_cons _ _).isInfix)
  obtain ⟨hv₁, hQ⟩ := hf w₁ rfl tr x i' w' hr hn₁
  refine ⟨fun ev he => ?_, hQ⟩
  rcases List.mem_cons.1 he with rfl | he
  · exact hv
  · exact hv₁ ev he

/-- A neutral call. -/
theorem neutral {c : Call} {f : c.Resp → CasM α} (hc : c.neutral)
    (h : ∀ r, Owns p Q (f r) i o) : Owns p Q (PackCas.perform c >>= f) i o := by
  refine .perform fun r ch w w' ho hx => ?_
  obtain ⟨hw, hv⟩ := own_neutral hc hx
  rw [hw, ho]
  exact ⟨hv, h r⟩

/-- A computation all of whose calls are neutral. -/
theorem of_makes {T : Except Err α → Impl → Prop} {m : CasM α}
    (hm : Eff.Makes (fun c : Call => c.neutral) T m i) (h : ∀ x i', T x i' → Q x i' o) :
    Owns p Q m i o := by
  have hrun : ∀ {n : Prog sig (Except Err α × Impl)} {w w' : World} {tr : List (Tarmac.Event sig)}
      {y : Except Err α × Impl}, n.Makes (fun c : Call => c.neutral) (fun y => T y.1 y.2) →
      Prog.Run (among p) n w tr y w' → w.own p = o → Unended tr ∧ T y.1 y.2 ∧ w'.own p = o := by
    intro n w w' tr y hn hr hw
    induction hr with
    | ret => exact ⟨nofun, hn, hw⟩
    | call hs _ ih =>
      obtain ⟨w₀, ch, ho, hx⟩ := hs
      obtain ⟨hown, hv⟩ := own_neutral hn.1 hx
      obtain ⟨hvs, hT, hw'⟩ := ih (hn.2 _) (hown.trans (ho.trans hw))
      refine ⟨fun ev he => ?_, hT, hw'⟩
      rcases List.mem_cons.1 he with rfl | he
      · exact hv
      · exact hvs ev he
  intro w hw tr x i' w' hr _
  obtain ⟨hv, hT, hw'⟩ := hrun hm hr hw
  exact ⟨hv, fun _ => hw' ▸ h x i' hT⟩

end Owns

/-! ## Calls -/

section

variable {Q : Except Err α → Impl → Own → Prop} {o : Own} {t : Db} {what : String}

/-- A call, the check of its answer, and the rest. -/
theorem owns_ask {c : Call} {k : c.Resp → CasM β} {g : β → CasM α}
    (h : ∀ r ch w w', w.own p = o → exec p ch c w = some (r, w') →
      ended ⟨c, r⟩ = false ∧ Owns p Q (k r >>= g) i (w'.own p)) :
    Owns p Q ((perform c >>= k) >>= g) i o := by
  rw [bind_assoc]
  exact .perform h

/-- The answer of LMDB decides how it goes on. -/
theorem owns_mdbCheck {r : Except Errno β} {g : β → CasM α}
    (hok : ∀ b, r = .ok b → Owns p Q (g b) i o)
    (herr : ∀ e, r = .error e → Q (.error (.lmdb what e)) i o) :
    Owns p Q (mdbCheck what r >>= g) i o := by
  rw [mdbCheck.eq_def]
  split
  · exact hok _ rfl
  · exact .throw nofun
  · exact .throw fun _ => herr _ rfl

theorem owns_sysCheck {r : Except Errno β} {g : β → CasM α}
    (hok : ∀ b, r = .ok b → Owns p Q (g b) i o)
    (herr : ∀ e, r = .error e → Q (.error (.sys what)) i o) :
    Owns p Q (sysCheck what r >>= g) i o := by
  rw [sysCheck.eq_def]
  split
  · exact hok _ rfl
  · exact .throw fun _ => herr _ rfl

/-- What a process owns, in terms of the world. -/
theorem own_eq {w : World} (h : w.own p = o) : w.txn p = o.txn ∧ (w.env.lock = some p ↔ o.holds) := by
  subst h
  simp [World.own]

/-- Trying the lock: it is taken, held by somebody, or the call fails. -/
theorem owns_flockTry {f : Except Errno Bool → CasM α}
    (hgot : Owns p Q (f (.ok true)) i { o with holds := true })
    (hnot : ∀ r, r ≠ .ok true → Owns p Q (f r) i o) : Owns p Q (perform .flockTry >>= f) i o := by
  refine .perform fun r ch w w' ho hx => ⟨rfl, ?_⟩
  simp only [exec] at hx
  split at hx
  · cases hx
    rw [ho]
    exact hnot _ (by simp)
  · split at hx
    · cases hx
      have heq : World.own { w with env := { w.env with lock := some p } } p =
          { o with holds := true } := by
        rw [← ho]
        simp [World.own, World.txn]
      rw [heq]
      exact hgot
    · cases hx
      rw [ho]
      exact hnot _ (by simp)

/-- Who releases the lock holds it no more. -/
theorem own_unlock {w : World} (h : w.own p = o) :
    World.own (w.unlock p) p = { o with holds := false } := by
  rw [← h, World.own, decide_eq_false (World.lock_unlock_ne w p)]
  rfl

/-- Releasing the lock. -/
theorem owns_flockUn {f : Unit → CasM α} (h : Owns p Q (f ()) i { o with holds := false }) :
    Owns p Q (perform .flockUn >>= f) i o := by
  refine .perform fun r ch w w' ho hx => ⟨rfl, ?_⟩
  cases hx
  have heq : World.own (w.unlock p) p = { o with holds := false } := own_unlock ho
  exact heq ▸ h

/-- Beginning a transaction, where there is none. -/
theorem owns_txnBegin {g : Unit → CasM α}
    (hok : ∀ db, o.txn = none → Owns p Q (g ()) i { o with txn := some db })
    (herr : ∀ {res : Errno}, Q (.error (.lmdb what res)) i o) :
    Owns p Q ((perform .txnBegin >>= mdbCheck what) >>= g) i o := by
  refine owns_ask fun r ch w w' ho hx => ?_
  simp only [exec] at hx
  split at hx
  · cases hx
    rw [ho]
    exact ⟨rfl, owns_mdbCheck (by simp) fun _ _ => herr⟩
  · split at hx
    · next hnone =>
      cases hx
      have htxn : o.txn = none := by
        rw [← (own_eq ho).1, World.txn, hnone]
      have heq : World.own { w with env := { w.env with writer := some (p, w.env.db) } } p =
          { o with txn := some w.env.db } := by
        rw [← ho]
        simp [World.own, World.txn]
      rw [heq]
      exact ⟨rfl, owns_mdbCheck (fun _ _ => hok _ htxn) (by simp)⟩
    · cases hx

/-- The end of a transaction. -/
theorem own_setWriter_none {w : World} (h : w.own p = o) :
    World.own (w.setWriter none) p = { o with txn := none } := by
  subst h
  rfl

/-- Who commits has no transaction any more. -/
theorem own_commit {w : World} (h : w.own p = o) :
    World.own (w.commit t) p = { o with txn := none } := by
  subst h
  rfl

/-- Committing: the transaction is over also where that fails. -/
theorem owns_txnCommit (ht : o.txn = some t) {g : Unit → CasM α}
    (hok : Owns p Q (g ()) i { o with txn := none })
    (herr : ∀ {res : Errno}, Q (.error (.lmdb what res)) i { o with txn := none }) :
    Owns p Q ((perform .txnCommit >>= mdbCheck what) >>= g) i o := by
  refine owns_ask fun r ch w w' ho hx => ?_
  rw [exec, (own_eq ho).1.trans ht] at hx
  dsimp only at hx
  split at hx
  · cases hx
    have heq : World.own { w with env := { w.env with writer := none } } p = { o with txn := none } :=
      own_setWriter_none ho
    have hres : ended ⟨.txnCommit, .error ch.mdbErrno⟩ = false := by
      unfold Choice.mdbErrno
      split <;> rfl
    rw [heq]
    exact ⟨hres, owns_mdbCheck (by simp) fun _ _ => herr⟩
  · cases hx
    have heq : World.own { w with env := { w.env with db := t, writer := none } } p =
      { o with txn := none } := own_commit ho
    rw [heq]
    exact ⟨rfl, owns_mdbCheck (fun _ _ => hok) (by simp)⟩

/-- Aborting the transaction. -/
theorem owns_txnAbort (ht : o.txn = some t) {g : Unit → CasM α}
    (h : Owns p Q (g ()) i { o with txn := none }) : Owns p Q (txnAbort >>= g) i o := by
  refine owns_ask fun r ch w w' ho hx => ?_
  rw [exec, (own_eq ho).1.trans ht] at hx
  cases hx
  have heq : World.own { w with env := { w.env with writer := none } } p = { o with txn := none } :=
    own_setWriter_none ho
  rw [heq]
  exact ⟨rfl, h⟩

/-- Reading the working copy. -/
theorem owns_txnDb (ht : o.txn = some t) {g : Db → CasM α} (h : Owns p Q (g t) i o) :
    Owns p Q ((perform .txnDb >>= mdbCheck what) >>= g) i o := by
  refine owns_ask fun r ch w w' ho hx => ?_
  rw [exec, (own_eq ho).1.trans ht] at hx
  cases hx
  rw [ho]
  exact ⟨rfl, h⟩

/-- A change of the working copy. -/
theorem owns_onTxn {c : Call} {k : c.Resp → CasM Unit} {f : Db → Except Errno Db}
    (ofE : Except Errno Unit → c.Resp)
    (hx : ∀ ch w, exec p ch c w = some (ofE (w.onTxn p ch f).1, (w.onTxn p ch f).2))
    (hv : ∀ r, r ≠ .error .badTxn → ended ⟨c, ofE r⟩ = false) (hk : ∀ r, k (ofE r) = mdbCheck what r)
    (hf : f t ≠ .error .badTxn) (ht : o.txn = some t) {g : Unit → CasM α}
    (hok : ∀ t', f t = .ok t' → Owns p Q (g ()) i { o with txn := some t' })
    (herr : ∀ {res : Errno}, Q (.error (.lmdb what res)) i o) : Owns p Q ((perform c >>= k) >>= g) i o := by
  refine owns_ask fun r ch w w' ho hstep => ?_
  rw [hx, World.onTxn, (own_eq ho).1.trans ht] at hstep
  dsimp only at hstep
  split at hstep
  · cases hstep
    rw [ho, hk]
    exact ⟨hv _ (by simp [Choice.mdbErrno_ne]), owns_mdbCheck (by simp) fun _ _ => herr⟩
  · split at hstep
    · next e he =>
      cases hstep
      rw [ho, hk]
      exact ⟨hv _ fun h => hf (by cases h; exact he), owns_mdbCheck (by simp) fun _ _ => herr⟩
    · next t' he =>
      cases hstep
      have heq : World.own { w with env := { w.env with writer := some (p, t') } } p =
          { o with txn := some t' } := by
        rw [← ho]
        simp [World.own, World.txn]
      rw [heq, hk]
      exact ⟨hv _ (by simp), owns_mdbCheck (fun _ _ => hok t' he) (by simp)⟩

/-- Putting a pair into a table of the working copy. -/
theorem owns_txnPut {dbi : Dbi} {key val : Bytes} {overwrite : Bool} (ht : o.txn = some t)
    {g : Unit → CasM α}
    (hok : Owns p Q (g ()) i
      { o with txn := some (t.setTable ((t.table dbi).insert key val) dbi) })
    (herr : ∀ {res : Errno}, Q (.error (.lmdb what res)) i o) :
    Owns p Q ((perform (.txnPut dbi key val overwrite) >>= mdbCheck what) >>= g) i o := by
  refine owns_onTxn id (fun _ _ => rfl) (fun r hr => ?_) (fun _ => rfl) ?_ ht (fun t' h => ?_) herr
  · cases r with
    | ok _ => rfl
    | error e => cases e <;> first | rfl | exact absurd rfl hr
  · split <;> nofun
  · split at h
    · cases h
    · cases h
      exact hok

/-- Deleting a pair. -/
theorem owns_txnDel {dbi : Dbi} {key : Bytes} (ht : o.txn = some t) {g : Unit → CasM α}
    (hok : Owns p Q (g ()) i { o with txn := some (t.setTable ((t.table dbi).erase key) dbi) })
    (herr : ∀ {res : Errno}, Q (.error (.lmdb what res)) i o) :
    Owns p Q ((perform (.txnDel dbi key) >>= mdbCheck what) >>= g) i o := by
  refine owns_onTxn (f := fun t => .ok (t.setTable ((t.table dbi).erase key) dbi)) id
    (fun _ _ => rfl) (fun r hr => ?_) (fun _ => rfl) nofun ht (fun t' h => ?_) herr
  · cases r with
    | ok _ => rfl
    | error e => cases e <;> first | rfl | exact absurd rfl hr
  · cases h
    exact hok

/-- Emptying the index. -/
theorem owns_txnDropBlobs (ht : o.txn = some t) {g : Unit → CasM α}
    (hok : Owns p Q (g ()) i { o with txn := some { t with blobs := .empty } })
    (herr : ∀ {res : Errno}, Q (.error (.lmdb what res)) i o) :
    Owns p Q ((perform .txnDropBlobs >>= mdbCheck what) >>= g) i o := by
  refine owns_onTxn (f := fun t => .ok { t with blobs := .empty }) id
    (fun _ _ => rfl) (fun r hr => ?_) (fun _ => rfl) nofun ht (fun t' h => ?_) herr
  · cases r with
    | ok _ => rfl
    | error e => cases e <;> first | rfl | exact absurd rfl hr
  · cases h
    exact hok

end

/-! ## Parts without a transaction -/

/-- A handle that has a mapping has a current one. -/
def Impl.Led (i : Impl) : Prop := i.mappings ≠ [] → i.cur.isSome

/-- The handles differ in their mappings at most, and a current mapping stays one. -/
structure Impl.Alike (i i' : Impl) : Prop extends i.SameBatch i' where
  cur : i.cur.isSome → i'.cur.isSome
  led : i.Led → i'.Led

/-- A handle is like itself. -/
theorem Impl.Alike.refl (i : Impl) : i.Alike i := ⟨.refl i, id, id⟩

/-- Handles alike to one another in turn. -/
theorem Impl.Alike.trans {i'' : Impl} (h : i.Alike i') (h' : i'.Alike i'') : i.Alike i'' :=
  ⟨h.toSameBatch.trans h'.toSameBatch, h'.cur ∘ h.cur, h'.led ∘ h.led⟩

/-- Handles are alike that know different lengths of a pack. -/
theorem Impl.Alike.setKnown (i : Impl) (g n : Nat) : i.Alike (i.setKnown g n) :=
  ⟨.setKnown i g n, id, id⟩

/-- A mapping that was added is the current one. -/
theorem Impl.isSome_cur_addMapping (i : Impl) (m : Mapping) : (i.addMapping m).cur.isSome := by
  rw [Impl.addMapping]
  split
  · rfl
  · next hc =>
    split
    · rfl
    · simp [hc]

/-- Handles are alike of which one has another mapping. -/
theorem Impl.Alike.addMapping (i : Impl) (m : Mapping) : i.Alike (i.addMapping m) :=
  ⟨.addMapping i m, fun _ => i.isSome_cur_addMapping m, fun _ _ => i.isSome_cur_addMapping m⟩

section

variable {P : Call → Prop} {what : String}

/-- The check of a system call makes no calls. -/
theorem makes_sysCheck {r : Except Errno α} :
    Eff.Makes P (fun _ i' => i' = i) (sysCheck what r : CasM α) i := by
  rw [sysCheck.eq_def]
  split
  · exact .pure rfl
  · exact .throw rfl

/-- The call of the size of a pack. -/
theorem makes_fileSize (h : ∀ ino, P (.fstat ino)) {m : Mapping} :
    Eff.Makes P (fun _ i' => i' = i) (fileSize m) i := .perform (h _) fun _ => makes_sysCheck

/-- `mapping_for` opens and maps the pack of its generation, and keeps the mapping. -/
theorem makes_mappingFor {g : Nat} {create : Bool} (hopen : P (.openPack g create false))
    (hstat : ∀ ino, P (.fstat ino)) (hmmap : ∀ ino, P (.mmap ino)) :
    Eff.Makes P (fun x i' => i.Alike i' ∧ (i.Led → ∀ m, x = .ok (some m) → i'.cur.isSome))
      (mappingFor g create) i := by
  refine .get ?_
  split
  · next m hm =>
    exact .pure ⟨.refl i, fun hled _ _ => hled (List.ne_nil_of_mem (Impl.find_some hm).1)⟩
  · refine .seq (T := fun _ i' => ∃ n, i' = i ∨ i' = i.setKnown g n) ?_ ?_ ?_
    · refine .perform hopen fun r => ?_
      split
      · exact .throw ⟨0, .inl rfl⟩
      · split
        · exact .throw ⟨0, .inl rfl⟩
        · exact .pure ⟨0, .inl rfl⟩
      · refine .seq (makes_fileSize hstat) ?_ fun e i' h => ⟨0, .inl h⟩
        rintro size _ rfl
        refine .modify ?_
        refine .seq (.perform (hmmap _) fun _ => makes_sysCheck) ?_ fun e i' h => ⟨size, .inr h⟩
        rintro _ _ rfl
        exact .pure ⟨size, .inr rfl⟩
    · rintro m i' ⟨n, h⟩
      have halike : i.Alike i' := by
        rcases h with rfl | rfl
        · exact .refl _
        · exact .setKnown i g n
      split
      · exact .pure ⟨halike, nofun⟩
      · exact .modify (.pure ⟨halike.trans (.addMapping i' _),
          fun _ _ _ => i'.isSome_cur_addMapping _⟩)
    · rintro e i' ⟨n, rfl | rfl⟩
      · exact ⟨.refl _, nofun⟩
      · exact ⟨.setKnown i g n, nofun⟩

end

end Tarmac.PackCas
