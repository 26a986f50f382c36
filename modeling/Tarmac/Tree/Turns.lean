import Tarmac.Lib.Runs
import Tarmac.PackCas.Turns
import Tarmac.Tree.Solo

/-!
# Processes that take turns

`exec` says what a call does to the store that the processes share. Here it is joined to the code of
`PackCas`: processes open one directory, make calls on their handles, close them and are killed, one
after the other (`Shared.Step`). Whatever they do, `exec` does the same to the store and to the batch of
every process, and gives the same answers (`turns_refine`).

A call that writes has its turn when no other process has a batch open; until then it waits. The turns
are whole calls: calls that overlap, and system calls other than `pwrite` that fail, are not among them,
and the generation stays below the largest 64-bit number. A program of `TreeStore` or the plugin makes its
calls one after the other, so that a run of it on the code is one on `exec` (`program_refines`).
-/

namespace Tarmac.PackCas

variable {p : Nat} {w : World} {i : Impl} {m : Model}

/-- A record is edited in the batch of the handle, or else in the committed store. -/
theorem Abs.safe_writeTxn {S : Setting} {op : CasM Unit} {f : Db → Db}
    {F : SortedMap Bytes Bytes → SortedMap Bytes Bytes} (hS : S.sound) (hgrow : S.Grows)
    (hf : Edits f F) (hop : EditsBy S p op f) (hI : Inv S p w) (h : Abs S p m i w) :
    Eff.Safe (S.rules p) (fun x i' w' => x = .ok () ∧ ∃ M, S.Kr m.committed M ∧
      Abs S p (Model.update ⟨M, m.batch⟩ (·.edit F)) i' w') (writeTxn op) i w := by
  obtain ⟨M0, b⟩ := m
  cases b with
  | none =>
    refine (safe_writeTxn_rest hS hf hop (fun M _ => hgrow _ _ fun _ _ hk => hk) hI h).mono ?_
    rintro x i' w' _ ⟨hx, rfl, M, hM, h'⟩
    exact ⟨hx, M, hM, h'⟩
  | some b =>
    refine (safe_writeTxn_batch hf hop hI h).mono ?_
    rintro x i' w' _ ⟨hx, rfl, h'⟩
    exact ⟨hx, M0, S.Kr_refl _, h'⟩

end Tarmac.PackCas

namespace Tarmac.Tree

open PackCas

/-! ## The code -/

/-- The code of a call, on a handle; `time` is what the clock shows. -/
def Call.code (ext : Ext) (time : Nat) : (c : Call) → Impl → Prog PackCas.sig (c.Resp × Impl)
  | .put _ d => PackCas.put ext d
  | .get h => PackCas.get ext h
  | .getView h => PackCas.getView ext h
  | .size h => PackCas.size h
  | .has h => PackCas.has h
  | .sync => PackCas.sync
  | .compact live => PackCas.compact fun h => .ok (live h)
  | .metaPut key val => PackCas.metaPut key val
  | .metaGet key => PackCas.metaGet key
  | .metaDel key => PackCas.metaDel key
  | .metaScan pre => PackCas.metaScan pre
  | .now => fun i => .ret (time, i)

/-- The calls that write. Those that only look and `sync`, which ends a batch, never wait. -/
def Call.writes : Call → Bool
  | .put .. | .compact _ | .metaPut .. | .metaDel _ => true
  | _ => false

/-- The call leaves the records of `PackCas` itself alone. -/
def Call.Foreign : Call → Prop
  | .metaPut key _ | .metaGet key | .metaDel key => ¬Reserved key
  | .metaScan pre => ∀ key, Reserved key → ¬pre <+: key
  | _ => True

/-- A key or prefix that begins as those of `TreeStore` and the plugin do meets none of these. -/
theorem foreign_of_prefix {pre key : Bytes}
    (hpre : pre ∈ [treePrefix, blobPrefix, lastGcKey, kPathPrefix, kDrvPrefix]) (hkey : pre <+: key) :
    ¬Reserved key ∧ ∀ k, Reserved k → ¬key <+: k := by
  have hno : ∀ pre ∈ [treePrefix, blobPrefix, lastGcKey, kPathPrefix, kDrvPrefix],
      ¬pre <+: genKey ∧ ¬pre <+: formatKey := by decide
  have hmeets : ∀ k, Reserved k → ¬key <+: k := by
    rintro k (rfl | rfl) hk
    · exact (hno pre hpre).1 (hkey.trans hk)
    · exact (hno pre hpre).2 (hkey.trans hk)
  exact ⟨fun h => hmeets key h (List.prefix_refl key), hmeets⟩

/-- The directory, and the handles of the processes that have it open. -/
structure Shared where
  world : World
  handle : Nat → Option Impl

namespace Shared

/-- A new directory. -/
def fresh : Shared := ⟨.fresh, fun _ => none⟩

/-- The process `p` has had its turn. -/
def turn (x : Shared) (p : Nat) (o : Option Impl) (w : World) : Shared :=
  ⟨w, Function.update x.handle p o⟩

/-- No other process has a batch. -/
def Quiescent (x : Shared) (p : Nat) : Prop := ∀ q, q ≠ p → ∀ i, x.handle q = some i → i.wtxn = false

end Shared

/-- What a process does when it has its turn, and what it is answered. -/
inductive Deed where
  | opens (p : Nat) (x : Except Err Unit)
  | call (p : Nat) (c : Call) (r : c.Resp)
  | closes (p : Nat)
  | killed (p : Nat)

/-- The turns of processes that run the code. -/
inductive Shared.Step (ext : Ext) : Shared → Deed → Shared → Prop where
  | opens {x : Shared} {p thread : Nat} {tr : List (Tarmac.Event PackCas.sig)} {r : Except Err Unit}
      {i : Impl} {w : World} (closed : x.handle p = none)
      (run : Prog.Run (turnSem p) (open_ { thread := thread }) x.world tr (r, i) w) :
      Step ext x (.opens p r) (x.turn p (r.toOption.map fun _ => i) w)
  | call {x : Shared} {p time : Nat} {c : Call} {tr : List (Tarmac.Event PackCas.sig)} {r : c.Resp}
      {i i' : Impl} {w : World} (isOpen : x.handle p = some i) (foreign : c.Foreign)
      (waits : c.writes → x.Quiescent p)
      (run : Prog.Run (turnSem p) (c.code ext time i) x.world tr (r, i') w) :
      Step ext x (.call p c r) (x.turn p (some i') w)
  | closes {x : Shared} {p : Nat} {tr : List (Tarmac.Event PackCas.sig)} {r : Except Err Unit}
      {i i' : Impl} {w : World} (isOpen : x.handle p = some i)
      (run : Prog.Run (turnSem p) (destroy i) x.world tr (r, i') w) :
      Step ext x (.closes p) (x.turn p none w)
  | killed {x : Shared} {p : Nat} : Step ext x (.killed p) (x.turn p none (x.world.kill p))

/-- The same turns, as `exec` has them. -/
inductive Sys.Step (ext : Ext) : Sys → Deed → Sys → Prop where
  | opens {s : Sys} (p : Nat) : Step ext s (.opens p (.ok ())) s
  | call {s s' : Sys} {p : Nat} {ch : Choice} {c : Call} {r : c.Resp}
      (run : exec ext p ch c s = some (r, s')) : Step ext s (.call p c r) s'
  | closes {s : Sys} (p : Nat) : Step ext s (.closes p) (s.drop p)
  | killed {s : Sys} (p : Nat) : Step ext s (.killed p) (s.drop p)

/-! ## What the two have in common -/

namespace Sys

variable {s : Sys} {p q : Nat} {m : Model}

/-- Who writes leaves no batch to the others. -/
theorem model_setModel_of_ne (hq : q ≠ p) : (s.setModel p m).model q = ⟨m.committed, none⟩ := by
  obtain ⟨c, b⟩ := m
  cases b with
  | none => rfl
  | some b => simp [model, setModel, batch, Ne.symm hq]

/-- Dropping a batch drops none of the others. -/
theorem model_drop_of_ne (hq : q ≠ p) : (s.drop p).model q = s.model q := by
  obtain ⟨c, b, t, l⟩ := s
  cases b with
  | none => rfl
  | some b =>
    obtain ⟨r, b⟩ := b
    by_cases hr : r = p
    · subst hr
      simp [model, drop, batch, Ne.symm hq]
    · simp [model, drop, batch, hr]

/-- A process that may write has no other beside it. -/
theorem busy_eq_false (h : ∀ q, q ≠ p → (s.model q).batch = none) : s.busy p = false := by
  obtain ⟨c, b, t, l⟩ := s
  cases b with
  | none => rfl
  | some b =>
    obtain ⟨r, b⟩ := b
    by_contra hr
    have hne : r ≠ p := by simpa [busy] using hr
    simpa [model, batch] using h r hne

/-- Only one process has a batch. -/
theorem batch_of_ne (h : (s.model p).batch.isSome) (hq : q ≠ p) : (s.model q).batch = none := by
  obtain ⟨c, b, t, l⟩ := s
  cases b with
  | none => simp [model, batch] at h
  | some b =>
    obtain ⟨r, b⟩ := b
    have hr : r = p := by
      by_contra hr
      simp [model, batch, hr] at h
    simp [model, batch, hr, Ne.symm hq]

end Sys

section

variable {ext : Ext} {hext : ext.Lawful} {p q : Nat} {w w' : World} {i i' : Impl} {m : Model}
  {o : Option Impl} {x : Shared} {s s' : Sys}

/-- The handle of a process stands for what `exec` has of the process; a process without one has nothing
open. -/
def StandsFor (ext : Ext) (hext : ext.Lawful) (p : Nat) (m : Model) : Option Impl → World → Prop
  | none, w => m.batch = none ∧ w.txn p = none ∧ w.env.lock ≠ some p
  | some i, w => Abs (.turn ext hext True) p m i w

/-- The directory and the handles are those of `exec`. -/
structure Joint (ext : Ext) (hext : ext.Lawful) (x : Shared) (s : Sys) : Prop where
  inv : Inv (.turn ext hext True) 0 x.world
  store : x.world.store ext = s.committed
  stands : ∀ p, StandsFor ext hext p (s.model p) (x.handle p) x.world

/-- Without a batch a process holds nothing. -/
theorem StandsFor.free (h : StandsFor ext hext p m o w) (hm : m.batch = none) :
    w.txn p = none ∧ w.env.lock ≠ some p := by
  cases o with
  | none => exact h.2
  | some i =>
    obtain ⟨c, b⟩ := m
    obtain rfl : b = none := hm
    have hrest : AtRest (.turn ext hext True) p i w c := h
    exact ⟨hrest.idle.txn, hrest.unlocked⟩

/-- A handle without a batch stands for a model without one. -/
theorem StandsFor.batch_eq_none (h : StandsFor ext hext p m o w) (ho : ∀ i, o = some i → i.wtxn = false) :
    m.batch = none := by
  cases o with
  | none => exact h.1
  | some i =>
    obtain ⟨c, b⟩ := m
    cases b with
    | none => rfl
    | some b =>
      obtain ⟨g, ino, t, hb, _⟩ : InBatch (.turn ext hext True) p i w c b.1 b.2 := h
      have hw := ho i rfl
      rw [hb.wtxn] at hw
      cases hw

/-- The world of a process stands for its model. -/
theorem Joint.represents (h : Joint ext hext x s) (p : Nat) :
    Represents ext p (s.model p) x.world := by
  have hp := h.stands p
  cases ho : x.handle p with
  | none =>
    rw [ho] at hp
    obtain ⟨hm, htxn, _⟩ := hp
    refine ⟨h.store, h.inv.healthy trivial, ?_⟩
    rw [hm]
    exact htxn
  | some i =>
    rw [ho] at hp
    exact Abs.represents trivial Setting.eq_of_still h.inv.turn hp

/-- Time and the ids of trees do not matter. -/
theorem Joint.congr (h : Joint ext hext x s) (hc : s'.committed = s.committed)
    (hw : s'.writer = s.writer) : Joint ext hext x s' := by
  have hmodel : ∀ p, s'.model p = s.model p := fun p => by
    rw [Sys.model, Sys.model, Sys.batch, Sys.batch, hc, hw]
  exact ⟨h.inv, h.store.trans hc.symm, fun p => hmodel p ▸ h.stands p⟩

/-- A new directory. -/
theorem Joint.fresh : Joint ext hext .fresh .fresh where
  inv := .fresh _ _ fun g hg => by
    cases hg
    decide
  store := rfl
  stands p := ⟨rfl, rfl, by simp [Shared.fresh, World.fresh]⟩

/-- A turn of one process. -/
theorem Joint.turn (hI : Inv (.turn ext hext True) p w') (hstore : w'.store ext = s'.committed)
    (hp : StandsFor ext hext p (s'.model p) o w')
    (hothers : ∀ q, q ≠ p → StandsFor ext hext q (s'.model q) (x.handle q) w') :
    Joint ext hext (x.turn p o w') s' where
  inv := Inv.turn hI
  store := hstore
  stands q := by
    show StandsFor ext hext q (s'.model q) (Function.update x.handle p o q) w'
    by_cases hq : q = p
    · subst hq
      rw [Function.update_self]
      exact hp
    · rw [Function.update_of_ne hq]
      exact hothers q hq

/-! ## Still turns -/

/-- The others stand for what they stood for. -/
theorem StandsFor.rely (hI : Inv (.turn ext hext True) p w) (hI' : Inv (.turn ext hext True) p w')
    (hR : Rely (.turn ext hext True) p w w') (h : StandsFor ext hext p m o w) :
    StandsFor ext hext p m o w' := by
  cases o with
  | none => exact ⟨h.1, hR.txn.trans h.2.1, fun hl => h.2.2 (hR.lock.1 hl)⟩
  | some i => exact Abs.rely hI hI' hR h

/-- A turn that leaves the committed store alone. -/
theorem Joint.still (h : Joint ext hext x s) (hI : Inv (.turn ext hext True) p w')
    (hR : ∀ q, q ≠ p → Rely (.turn ext hext True) q x.world w') (hc : s'.committed = s.committed)
    (hothers : ∀ q, q ≠ p → s'.model q = s.model q) (hp : StandsFor ext hext p (s'.model p) o w') :
    Joint ext hext (x.turn p o w') s' := by
  refine .turn hI ?_ hp fun q hq => ?_
  · have hstore : x.world.store ext = w'.store ext := (hR (p + 1) (Nat.succ_ne_self p)).store trivial
    rw [hc, ← h.store, hstore]
  · rw [hothers q hq]
    exact (h.stands q).rely h.inv.turn hI.turn (hR q hq)

/-- A call that only reads. -/
theorem Joint.read {α : Type} {n : CasM α} {tr : List (Tarmac.Event PackCas.sig)} {y : Except Err α}
    {Q : Except Err α → Prop} (h : Joint ext hext x s) (ho : x.handle p = some i)
    (hr : Prog.Run (turnSem p) (n i) x.world tr (y, i') w')
    (hn : Inv (.turn ext hext True) p x.world → Abs (.turn ext hext True) p (s.model p) i x.world →
      Eff.Safe ((Setting.turn ext hext True).rules p)
        (fun y i' w' => Abs (.turn ext hext True) p (s.model p) i' w' ∧ Q y) n i x.world) :
    Q y ∧ Joint ext hext (x.turn p (some i') w') s := by
  have hp := h.stands p
  rw [ho] at hp
  obtain ⟨hI, ⟨habs, hQ⟩, hR⟩ := Setting.run_turn hr h.inv.turn (hn h.inv.turn hp)
  exact ⟨hQ, h.still hI hR rfl (fun _ _ => rfl) habs⟩

/-- Opening finds the committed store. -/
theorem Joint.opens {thread : Nat} {tr : List (Tarmac.Event PackCas.sig)} {y : Except Err Unit}
    (h : Joint ext hext x s) (ho : x.handle p = none)
    (hr : Prog.Run (turnSem p) (open_ { thread := thread }) x.world tr (y, i) w') :
    y = .ok () ∧ Joint ext hext (x.turn p (some i) w') s := by
  have hp := h.stands p
  rw [ho] at hp
  obtain ⟨hm, htxn, hlock⟩ := hp
  have hI : Inv (.turn ext hext True) p x.world := h.inv.turn
  have hclosed : Closed (.turn ext hext True) p x.world s.committed x.world :=
    ⟨htxn, hlock, fun _ => h.store.symm, fun hc => hc.elim⟩
  obtain ⟨hI', ⟨hy, _, hopened⟩, hR⟩ := Setting.run_turn hr hI
    (safe_open (Setting.reliable_of_sound (S := .turn ext hext True) trivial) (.inl trivial) hI
      ⟨rfl, rfl, rfl⟩ hclosed)
  refine ⟨hy, h.still hI' hR rfl (fun _ _ => rfl) ?_⟩
  have hmodel : s.model p = ⟨s.committed, none⟩ := by
    rw [← hm]
    rfl
  rw [hmodel]
  exact hopened.rest

/-- Closing drops the batch. -/
theorem Joint.closes {tr : List (Tarmac.Event PackCas.sig)} {y : Except Err Unit}
    (h : Joint ext hext x s) (ho : x.handle p = some i)
    (hr : Prog.Run (turnSem p) (destroy i) x.world tr (y, i') w') :
    Joint ext hext (x.turn p none w') (s.drop p) := by
  have hp := h.stands p
  rw [ho] at hp
  have hI : Inv (.turn ext hext True) p x.world := h.inv.turn
  have hdestroy : Eff.Safe ((Setting.turn ext hext True).rules p)
      (fun _ _ w' => w'.txn p = none ∧ w'.env.lock ≠ some p) destroy i x.world := by
    have habs : Abs (.turn ext hext True) p (s.model p) i x.world := hp
    rw [Abs] at habs
    split at habs
    · exact (safe_destroy_rest hI habs).mono fun _ _ _ _ hd => ⟨hd.2.2.1.txn, hd.2.2.1.unlocked⟩
    · exact (safe_destroy_batch (S := .turn ext hext True) trivial hI habs).mono
        fun _ _ _ _ hd => ⟨hd.2.2.1, hd.2.2.2.1⟩
  obtain ⟨hI', hfree, hR⟩ := Setting.run_turn hr hI hdestroy
  refine h.still hI' hR rfl (fun q hq => Sys.model_drop_of_ne hq) ?_
  rw [Sys.model_drop]
  exact ⟨rfl, hfree⟩

/-- So does being killed. -/
theorem Joint.killed (h : Joint ext hext x s) (p : Nat) :
    Joint ext hext (x.turn p none (x.world.kill p)) (s.drop p) := by
  have hI : Inv (.turn ext hext True) p x.world := h.inv.turn
  obtain ⟨hI', hG, _⟩ := (Quiet.kill hI).step hI hI.extra
  refine h.still hI' ((hG trivial).1 id) rfl (fun q hq => Sys.model_drop_of_ne hq) ?_
  rw [Sys.model_drop]
  refine ⟨rfl, ?_, World.lock_kill x.world p⟩
  rw [World.txn_kill, if_pos rfl]

/-! ## Calls that read -/

section

variable {α : Type} {n : CasM α} {tr : List (Tarmac.Event PackCas.sig)} {y : Except Err α} {a : α}
  {k : Bytes}

/-- An answer of the store, or an error. -/
theorem exists_read (h : y = .ok a ∨ ∃ e, y = .error e) : ∃ ch : Choice, y = ch.read a := by
  rcases h with rfl | ⟨e, rfl⟩
  · exact ⟨{}, rfl⟩
  · exact ⟨{ fail := some e }, rfl⟩

/-- A lookup by hash. -/
theorem Joint.lookup (h : Joint ext hext x s) (ho : x.handle p = some i)
    (hr : Prog.Run (turnSem p) (n i) x.world tr (y, i') w')
    (hbad : k.length ≠ kHashLen → n i = .ret (.error (.invalidArgument "bad hash length"), i))
    (hn : k.length = kHashLen → Inv (.turn ext hext True) p x.world →
      Abs (.turn ext hext True) p (s.model p) i x.world →
      Eff.Safe ((Setting.turn ext hext True).rules p) (fun y i' w' =>
        Abs (.turn ext hext True) p (s.model p) i' w' ∧ (y = .ok a ∨ ∃ e, y = .error e)) n i x.world) :
    ∃ ch : Choice, y = ch.lookup k a ∧ Joint ext hext (x.turn p (some i') w') s := by
  have hread := h.read (Q := fun y => ∃ ch : Choice, y = ch.lookup k a) ho hr fun hI habs => by
    by_cases hlen : k.length = kHashLen
    · refine (hn hlen hI habs).mono fun y i' w' _ hy => ⟨hy.1, ?_⟩
      obtain ⟨ch, rfl⟩ := exists_read hy.2
      exact ⟨ch, by rw [Choice.lookup, if_neg (not_not.2 hlen)]⟩
    · rw [Eff.Safe, hbad hlen]
      intro w₁ hI₁ hR₁
      exact ⟨habs.rely hI hI₁ hR₁, {}, by rw [Choice.lookup, if_pos hlen]⟩
  obtain ⟨⟨ch, hch⟩, hJ⟩ := hread
  exact ⟨ch, hch, hJ⟩

/-- `get` answers what is stored. -/
theorem Joint.call_get {y : Except Err (Option Bytes)} (h : Joint ext hext x s)
    (ho : x.handle p = some i) (hr : Prog.Run (turnSem p) (PackCas.get ext k i) x.world tr (y, i') w') :
    ∃ ch : Choice, y = ch.lookup k ((s.model p).view.blobs k) ∧
      Joint ext hext (x.turn p (some i') w') s :=
  h.lookup ho hr get_of_length fun hlen hI habs =>
    (PackCas.safe_get hI habs.ready hlen).mono fun _ _ _ hI' hx => hx.tells hI hI' habs

/-- So does `get_view`. -/
theorem Joint.call_getView {y : Except Err (Option Bytes)} (h : Joint ext hext x s)
    (ho : x.handle p = some i)
    (hr : Prog.Run (turnSem p) (PackCas.getView ext k i) x.world tr (y, i') w') :
    ∃ ch : Choice, y = ch.lookup k ((s.model p).view.blobs k) ∧
      Joint ext hext (x.turn p (some i') w') s :=
  h.lookup ho hr getView_of_length fun hlen hI habs =>
    (PackCas.safe_getView hI habs.ready hlen).mono fun _ _ _ hI' hx => hx.tells hI hI' habs

/-- `size` answers with its length. -/
theorem Joint.call_size {y : Except Err (Option Nat)} (h : Joint ext hext x s)
    (ho : x.handle p = some i) (hr : Prog.Run (turnSem p) (PackCas.size k i) x.world tr (y, i') w') :
    ∃ ch : Choice, y = ch.lookup k (((s.model p).view.blobs k).map List.length) ∧
      Joint ext hext (x.turn p (some i') w') s :=
  h.lookup ho hr size_of_length fun hlen hI habs =>
    (PackCas.safe_size hI habs.ready hlen).mono fun _ _ _ hI' hx =>
      (hx.tells (g := Option.map List.length) hI hI' habs rfl fun _ _ hd =>
        congrArg some hd.symm).imp id .inl

/-- `has` answers whether it is stored. -/
theorem Joint.call_has {y : Except Err Bool} (h : Joint ext hext x s) (ho : x.handle p = some i)
    (hr : Prog.Run (turnSem p) (PackCas.has k i) x.world tr (y, i') w') :
    ∃ ch : Choice, y = ch.lookup k ((s.model p).view.blobs k).isSome ∧
      Joint ext hext (x.turn p (some i') w') s :=
  h.lookup ho hr has_of_length fun hlen hI habs =>
    (PackCas.safe_has hI habs.ready hlen).mono fun _ _ _ hI' hx =>
      (hx.tells (g := Option.isSome) hI hI' habs rfl fun _ _ _ => rfl).imp id .inl

/-- `meta_get` answers with the record. -/
theorem Joint.call_metaGet {y : Except Err (Option Bytes)} (h : Joint ext hext x s)
    (ho : x.handle p = some i) (hk : ¬Reserved k)
    (hr : Prog.Run (turnSem p) (PackCas.metaGet k i) x.world tr (y, i') w') :
    y = .ok ((s.model p).view.records.find? k) ∧ Joint ext hext (x.turn p (some i') w') s :=
  h.read (n := PackCas.metaGet k) (Q := fun y => y = .ok ((s.model p).view.records.find? k)) ho hr
    fun hI habs => (PackCas.safe_metaGet hI habs.ready).mono fun _ _ _ hI' hx =>
      hx.tells (g := fun r => r.find? k) hI hI' habs fun _ => (Db.find?_records hk).symm

/-- `meta_scan` answers with the records that have the prefix. -/
theorem Joint.call_metaScan {y : Except Err (List (Bytes × Bytes))} (h : Joint ext hext x s)
    (ho : x.handle p = some i) (hk : ∀ key, Reserved key → ¬k <+: key)
    (hr : Prog.Run (turnSem p) (PackCas.metaScan k i) x.world tr (y, i') w') :
    y = .ok ((s.model p).view.scan k) ∧ Joint ext hext (x.turn p (some i') w') s :=
  h.read (n := PackCas.metaScan k) (Q := fun y => y = .ok ((s.model p).view.scan k)) ho hr
    fun hI habs => (PackCas.safe_metaScan hI habs.ready).mono fun _ _ _ hI' hx =>
      hx.tells (g := fun m => (m.fromKey k).takeWhile fun (r : Bytes × Bytes) => k.isPrefixOf r.1)
        hI hI' habs fun _ => Db.scan_records hk

/-! ## Calls that write -/

/-- While no other process has a batch, one writes as if it had the directory to itself. -/
theorem Joint.write {Q : Model → Except Err α → Prop} (h : Joint ext hext x s)
    (ho : x.handle p = some i) (hothers : ∀ q, q ≠ p → (s.model q).batch = none)
    (hr : Prog.Run (turnSem p) (n i) x.world tr (y, i') w')
    (hturn : Inv (.turn ext hext False) p x.world → Abs (.turn ext hext False) p (s.model p) i x.world →
      Eff.Safe ((Setting.turn ext hext False).rules p) (fun _ _ _ => True) n i x.world)
    (halone : Inv (.session ext hext true) p x.world →
      Abs (.session ext hext true) p (s.model p) i x.world →
      ∃ m, Abs (.session ext hext true) p m i' w' ∧ Q m y) :
    ∃ m, Q m y ∧ Joint ext hext (x.turn p (some i') w') (s.setModel p m) := by
  have hp := h.stands p
  rw [ho] at hp
  have habs : Abs (.turn ext hext True) p (s.model p) i x.world := hp
  have hI : Inv (.turn ext hext False) p x.world := h.inv.turn
  obtain ⟨hI', _, hR⟩ := Setting.run_turn hr hI
    (hturn hI (habs.setting (S := .turn ext hext True) rfl trivial fun _ _ _ hf => hf.elim))
  obtain ⟨m, habs', hQ⟩ := halone (hI.session_of_turn fun q hq => (h.stands q).free (hothers q hq))
    (habs.setting (S := .turn ext hext True) rfl trivial Setting.eq_of_still)
  have hturn' : Abs (.turn ext hext True) p m i' w' :=
    habs'.setting (S := .session ext hext true) rfl trivial fun _ _ hK _ => hK
  have hstore : w'.store ext = m.committed :=
    (hturn'.represents trivial Setting.eq_of_still hI'.turn).committed
  refine ⟨m, hQ, .turn hI'.turn hstore ?_ fun q hq => ?_⟩
  · rw [Sys.model_setModel]
    exact hturn'
  · -- the others are at rest, and find what was committed
    have hfree := (h.stands q).free (hothers q hq)
    have hlock : w'.env.lock ≠ some q := fun hl => hfree.2 ((hR q hq).lock.1 hl)
    rw [Sys.model_setModel_of_ne hq]
    have hq' := h.stands q
    cases hoq : x.handle q with
    | none => exact ⟨rfl, (hR q hq).txn.trans hfree.1, hlock⟩
    | some j =>
      have hidle : Idle q j x.world := by
        rw [hoq] at hq'
        have hm : s.model q = ⟨s.committed, none⟩ := by
          rw [← hothers q hq]
          rfl
        rw [hm] at hq'
        exact AtRest.idle (S := .turn ext hext True) hq'
      exact AtRest.mk (S := .turn ext hext True) (hidle.rely hI.turn (hR q hq)) (fun _ => hstore.symm) hlock

/-- An operation of a session does to the store what it does alone. -/
theorem Joint.op {f : α → Value} (op : Op) (hcode : op.code ext = (n >>= fun a => pure (f a)))
    (hop : op.HashOk) (h : Joint ext hext x s) (ho : x.handle p = some i)
    (hothers : ∀ q, q ≠ p → (s.model q).batch = none)
    (hr : Prog.Run (turnSem p) (n i) x.world tr (y, i') w')
    (hturn : Inv (.turn ext hext False) p x.world → Abs (.turn ext hext False) p (s.model p) i x.world →
      Eff.Safe ((Setting.turn ext hext False).rules p) (fun _ _ _ => True) n i x.world) :
    ∃ m, Model.Step ext (s.model p) ⟨op, y.map f, true, x.world.pack.length, x.world.far p⟩ m ∧
      Joint ext hext (x.turn p (some i') w') (s.setModel p m) := by
  have hp := h.stands p
  rw [ho] at hp
  have hroom : (s.model p).view.gen + 1 < 2 ^ 64 := Abs.room_of_counted h.inv.turn hp
  refine h.write (Q := fun m y => Model.Step ext (s.model p)
    ⟨op, y.map f, true, x.world.pack.length, x.world.far p⟩ m) ho hothers hr hturn fun hI habs => ?_
  have hr' := Eff.run_map (f := f) (hr.mono fun _ _ _ _ hs => hs.1)
  rw [← hcode] at hr'
  obtain ⟨_, m, hstep, habs'⟩ := Setting.solo_run hr' hI
    (safe_op (Setting.sequential_session hext true) op hop hI habs fun _ => hroom)
  exact ⟨m, habs', hstep⟩

/-- `put` stores the blob, or a `pwrite` fails. -/
theorem Joint.call_put {tree : Bool} {d : Bytes} {y : Except Err Bytes} (h : Joint ext hext x s)
    (ho : x.handle p = some i) (hothers : ∀ q, q ≠ p → (s.model q).batch = none)
    (hr : Prog.Run (turnSem p) (PackCas.put ext d i) x.world tr (y, i') w') :
    ∃ ch s', exec ext p ch (.put tree d) s = some (y, s') ∧
      Joint ext hext (x.turn p (some i') w') s' := by
  have hbusy := Sys.busy_eq_false hothers
  obtain ⟨m, hstep, hJ⟩ := h.op (n := PackCas.put ext d) (.put d) rfl trivial ho hothers hr
    fun hI habs => habs.safe_put d hI
  cases y with
  | ok k =>
    cases hstep with
    | put =>
      refine ⟨{}, (s.setModel p ((s.model p).put ext d)).noteTree tree (ext.blake3 d), ?_, hJ.congr ?_ ?_⟩
      · dsimp only [exec]
        rw [write_ok hbusy]
        rfl
      · rw [Sys.committed_noteTree]
      · cases tree <;> rfl
  | error e =>
    cases hstep with
    | putFails =>
      refine ⟨{ fail := some (.sys "pwrite pack"), stage := 1 }, _, ?_, hJ⟩
      dsimp only [exec]
      rw [write_error hbusy]
      rfl

/-- `sync` commits the batch, if there is one. -/
theorem Joint.call_sync {y : Except Err Unit} (h : Joint ext hext x s) (ho : x.handle p = some i)
    (hr : Prog.Run (turnSem p) (PackCas.sync i) x.world tr (y, i') w') :
    ∃ ch s', exec ext p ch .sync s = some (y, s') ∧ Joint ext hext (x.turn p (some i') w') s' := by
  cases hb : (s.model p).batch with
  | none =>
    have hread := h.read (n := PackCas.sync) (Q := fun y => y = .ok ()) ho hr fun hI habs => by
      rw [Abs, hb] at habs
      refine (safe_sync_rest hI habs).mono ?_
      rintro y i' w' _ ⟨hy, rfl, hrest⟩
      refine ⟨?_, hy⟩
      rw [Abs, hb]
      exact hrest
    obtain ⟨rfl, hJ⟩ := hread
    have hnone : s.batch p = none := hb
    refine ⟨{}, s, ?_, hJ⟩
    dsimp only [exec]
    rw [hnone]
    rfl
  | some b =>
    have hsome : (s.model p).batch.isSome := by rw [hb]; rfl
    have hothers : ∀ q, q ≠ p → (s.model q).batch = none := fun q hq => Sys.batch_of_ne hsome hq
    have hbusy := Sys.busy_eq_false hothers
    obtain ⟨m, hstep, hJ⟩ := h.op (n := PackCas.sync) .sync rfl trivial ho hothers hr
      fun hI habs => habs.safe_sync hI
    have hbatch : (s.batch p).isSome := hsome
    cases y with
    | ok u =>
      cases hstep with
      | sync =>
        refine ⟨{}, _, ?_, hJ⟩
        exact (if_pos hbatch).trans (write_ok hbusy)
    | error e => cases hstep

/-- `compact` keeps what is live; one that fails has committed the batch. -/
theorem Joint.call_compact {live : Bytes → Bool} {y : Except Err Unit} (h : Joint ext hext x s)
    (ho : x.handle p = some i) (hothers : ∀ q, q ≠ p → (s.model q).batch = none)
    (hr : Prog.Run (turnSem p) (PackCas.compact (fun k => .ok (live k)) i) x.world tr (y, i') w') :
    ∃ ch s', exec ext p ch (.compact live) s = some (y, s') ∧
      Joint ext hext (x.turn p (some i') w') s' := by
  have hbusy := Sys.busy_eq_false hothers
  obtain ⟨m, hstep, hJ⟩ := h.op (n := PackCas.compact fun k => .ok (live k)) (.compact live) rfl trivial ho
    hothers hr fun hI habs => habs.safe_compact live hI
  cases y with
  | ok u =>
    cases hstep with
    | compact =>
      refine ⟨{}, _, ?_, hJ⟩
      dsimp only [exec]
      rw [write_ok hbusy]
  | error e =>
    cases hstep with
    | compactFails =>
      refine ⟨{ fail := some e, stage := 1 }, _, ?_, hJ⟩
      dsimp only [exec]
      rw [write_error hbusy]
      rfl

/-- A `WriteTxn` edits the records that the process sees. -/
theorem Joint.edit {op : CasM Unit} {f : Db → Db} {F : SortedMap Bytes Bytes → SortedMap Bytes Bytes}
    {y : Except Err Unit} (hf : Edits f F) (hop : ∀ {S : Setting}, S.sound → EditsBy S p op f)
    (h : Joint ext hext x s) (ho : x.handle p = some i)
    (hothers : ∀ q, q ≠ p → (s.model q).batch = none)
    (hr : Prog.Run (turnSem p) (writeTxn op i) x.world tr (y, i') w') :
    y = .ok () ∧
      Joint ext hext (x.turn p (some i') w') (s.setModel p ((s.model p).update (·.edit F))) := by
  obtain ⟨m, ⟨hy, rfl⟩, hJ⟩ := h.write (n := writeTxn op)
    (Q := fun m y => y = .ok () ∧ m = (s.model p).update (·.edit F)) ho hothers hr
    (fun hI habs => (habs.safe_writeTxn trivial Setting.grows_turn hf (hop trivial) hI).mono
      fun _ _ _ _ _ => trivial)
    fun hI habs => by
      obtain ⟨_, hy, M, hM, habs'⟩ := Setting.solo_run (hr.mono fun _ _ _ _ hs => hs.1) hI
        (habs.safe_writeTxn trivial (Setting.sequential_session hext true).grows hf (hop trivial) hI)
      obtain rfl : s.committed = M := hM
      exact ⟨_, habs', hy, rfl⟩
  exact ⟨hy, hJ⟩

/-! ## Runs -/

/-- A call is one that `exec` makes. -/
theorem Joint.call {time : Nat} {c : Call} {r : c.Resp} (h : Joint ext hext x s)
    (ho : x.handle p = some i) (hc : c.Foreign) (hwaits : c.writes → x.Quiescent p)
    (hr : Prog.Run (turnSem p) (c.code ext time i) x.world tr (r, i') w') :
    ∃ ch s', exec ext p ch c s = some (r, s') ∧ Joint ext hext (x.turn p (some i') w') s' := by
  have hothers : x.Quiescent p → ∀ q, q ≠ p → (s.model q).batch = none := fun hx q hq =>
    (h.stands q).batch_eq_none fun j hj => hx q hq j hj
  cases c with
  | put tree d => exact h.call_put ho (hothers (hwaits rfl)) hr
  | get k =>
    obtain ⟨ch, rfl, hJ⟩ := h.call_get ho hr
    exact ⟨ch, s, rfl, hJ⟩
  | getView k =>
    obtain ⟨ch, rfl, hJ⟩ := h.call_getView ho hr
    exact ⟨ch, s, rfl, hJ⟩
  | size k =>
    obtain ⟨ch, rfl, hJ⟩ := h.call_size ho hr
    exact ⟨ch, s, rfl, hJ⟩
  | has k =>
    obtain ⟨ch, rfl, hJ⟩ := h.call_has ho hr
    exact ⟨ch, s, rfl, hJ⟩
  | sync => exact h.call_sync ho hr
  | compact live => exact h.call_compact ho (hothers (hwaits rfl)) hr
  | metaPut key val =>
    have hq := hothers (hwaits rfl)
    obtain ⟨rfl, hJ⟩ := h.edit (edits_put hc) (fun hS => editsBy_put hS) ho hq hr
    refine ⟨{}, _, ?_, hJ⟩
    dsimp only [exec]
    rw [write_ok (Sys.busy_eq_false hq)]
    rfl
  | metaGet key =>
    obtain ⟨rfl, hJ⟩ := h.call_metaGet ho hc hr
    exact ⟨{}, s, rfl, hJ⟩
  | metaDel key =>
    have hq := hothers (hwaits rfl)
    obtain ⟨rfl, hJ⟩ := h.edit (edits_del hc) (fun hS => editsBy_del hS) ho hq hr
    refine ⟨{}, _, ?_, hJ⟩
    dsimp only [exec]
    rw [write_ok (Sys.busy_eq_false hq)]
    rfl
  | metaScan pre =>
    obtain ⟨rfl, hJ⟩ := h.call_metaScan ho hc hr
    exact ⟨{}, s, rfl, hJ⟩
  | now =>
    obtain ⟨rfl, rfl, rfl⟩ : r = time ∧ i' = i ∧ w' = x.world := by
      cases hr
      exact ⟨rfl, rfl, rfl⟩
    refine ⟨{ clock := r }, _, rfl, ?_⟩
    have hturn : x.turn p (some i') x.world = x := by
      rw [Shared.turn, ← ho, Function.update_eq_self]
    rw [hturn]
    exact h.congr rfl rfl

end

/-- A turn is one of `exec`. -/
theorem Joint.step {t : Deed} {x' : Shared} (h : Joint ext hext x s) (hs : Shared.Step ext x t x') :
    ∃ s', Sys.Step ext s t s' ∧ Joint ext hext x' s' := by
  cases hs with
  | opens closed run =>
    obtain ⟨rfl, hJ⟩ := h.opens closed run
    exact ⟨s, .opens _, hJ⟩
  | call isOpen foreign waits run =>
    obtain ⟨ch, s', hx, hJ⟩ := h.call isOpen foreign waits run
    exact ⟨s', .call hx, hJ⟩
  | closes isOpen run => exact ⟨_, .closes _, h.closes isOpen run⟩
  | killed => exact ⟨_, .killed _, h.killed _⟩

/-- Whatever the turns do, `exec` does. -/
theorem exists_joint (hext : ext.Lawful) {ts : List Deed} (h : Runs (Shared.Step ext) .fresh ts x) :
    ∃ s, Runs (Sys.Step ext) .fresh ts s ∧ Joint ext hext x s := by
  refine Runs.simulate (R := fun _ x s => Joint ext hext x s) (fun hJ hs => ?_) h .fresh
  exact hJ.step hs

end

/-- `exec` is what the code does when processes take turns. Whatever processes do that open an empty
directory, one after the other, `exec` does to the store and to the batch of each of them, and answers
as the code does. -/
theorem turns_refine {ext : Ext} (hext : ext.Lawful) {ts : List Deed} {x : Shared}
    (h : Runs (Shared.Step ext) .fresh ts x) :
    ∃ s, Runs (Sys.Step ext) .fresh ts s ∧ ∀ p, Represents ext p (s.model p) x.world := by
  obtain ⟨s, hs, hJ⟩ := exists_joint hext h
  exact ⟨s, hs, hJ.represents⟩

/-- The calls of `p`, run by the code. -/
def codeSem (ext : Ext) (p : Nat) : Sem sig Shared := fun c x r x' => Shared.Step ext x (.call p c r) x'

/-- So a program of `TreeStore` or the plugin that runs on the code is run by `exec`: with the same
answers, to the same result. -/
theorem program_refines {ext : Ext} (hext : ext.Lawful) {ts : List Deed} {x x' : Shared} {p : Nat}
    {α : Type} {m : Prog sig α} {tr : List (Tarmac.Event sig)} {a : α}
    (h : Runs (Shared.Step ext) .fresh ts x) (hr : Prog.Run (codeSem ext p) m x tr a x') :
    ∃ s s', Runs (Sys.Step ext) .fresh ts s ∧
      Prog.Run (sem ext (fun _ _ _ => True) p) m s tr a s' ∧
      ∀ q, Represents ext q (s'.model q) x'.world := by
  obtain ⟨s, hs, hJ⟩ := exists_joint hext h
  have hcall : ∀ c x r x' s, Joint ext hext x s → codeSem ext p c x r x' →
      ∃ s', sem ext (fun _ _ _ => True) p c s r s' ∧ Joint ext hext x' s' := fun c x r x' s hJ hc => by
    obtain ⟨s', hs', hJ'⟩ := hJ.step hc
    cases hs' with
    | call run => exact ⟨s', ⟨_, trivial, run⟩, hJ'⟩
  obtain ⟨s', hr', hJ'⟩ := hr.simulate hcall hJ
  exact ⟨s, s', hs, hr', hJ'.represents⟩

end Tarmac.Tree
