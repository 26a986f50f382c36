import Tarmac.PackCas.Atomic

/-!
# A process that is killed while it compacts

The directory a process leaves behind when it is killed, at whatever call, and what the next process to
open it finds (`Lived`, `safe_reopen`). Wherever `compact` is stopped, the reopened store is the
committed one, the one the handle saw, or the one the handle saw restricted to what is live; one pack
file is left, every blob is read back, and whatever follows does to the directory what it does to the
model (`compact_crash_atomic`).

That the committed store can come back is due to the `sync` with which `compact` begins: a batch that
was open is lost when the process is killed before it (`compact_crash_loses_batch`). Without a batch the
committed store is the one the handle sees.
-/

namespace Tarmac.PackCas

variable {ext : Ext} {p q : Nat} {w w' w₁ : World} {i i' : Impl} {m : Model} {faulty faulty' : Bool}
  {M0 M : Store} {live : Bytes → Bool}

/-! ## Settings of a single process -/

section

variable {hext : ext.Lawful} {K K' : Store → Store → Prop} {hK : ∀ M, K M M} {hK' : ∀ M, K' M M}

/-- What a single process knows does not depend on how it may change the store. -/
theorem Inv.trusted (h : Inv (.trusted ext hext faulty K hK) p w) :
    Inv (.trusted ext hext faulty' K' hK') p w :=
  ⟨h.shape, trivial, h.healthy, h.solo⟩

/-- A handle at rest does not depend on how the process may change the store. -/
theorem AtRest.trusted (h : AtRest (.trusted ext hext faulty K hK) p i w M) :
    AtRest (.trusted ext hext faulty' K' hK') p i w M :=
  ⟨h.idle, h.store, h.unlocked⟩

theorem InBatch.trusted {b : Nat} (h : InBatch (.trusted ext hext faulty K hK) p i w M0 M b) :
    InBatch (.trusted ext hext faulty' K' hK') p i w M0 M b := by
  obtain ⟨g, ino, t, hb, h0, hM, hbytes⟩ := h
  exact ⟨g, ino, t, ⟨hb.handle, hb.wtxn, hb.thread, hb.lock, hb.txn, hb.cur, hb.gen, hb.name, hb.tgen,
    hb.format, hb.tformat, hb.le, hb.len, hb.grow, hb.committed, hb.pending⟩, h0, hM, hbytes⟩

/-- Nobody holds anything of a directory whose only process was killed. -/
theorem Solo.kill (h : Solo p w) : (w.kill p).env.lock = none ∧ (w.kill p).env.writer = none := by
  constructor
  · show (if w.env.lock = some p then none else w.env.lock) = none
    split
    · rfl
    · next hne =>
      cases hl : w.env.lock with
      | none => rfl
      | some r =>
        rw [hl, h.lock r hl] at hne
        exact absurd rfl hne
  · show (if (w.txn p).isSome then none else w.env.writer) = none
    split
    · rfl
    · next hnone =>
      cases hw : w.env.writer with
      | none => rfl
      | some r =>
        obtain ⟨r, t⟩ := r
        obtain rfl := h.writer r t hw
        simp [World.txn, hw] at hnone

/-- The death of a process leaves the directory to the others. -/
theorem Inv.killed (h : Inv (.trusted ext hext faulty K hK) p w) :
    Inv (.trusted ext hext faulty' K' hK') q (w.kill p) := by
  obtain ⟨hlock, hwriter⟩ := (h.solo trivial).kill
  refine ⟨h.shape.congr rfl rfl, trivial, h.healthy, fun _ => ⟨fun r hr => ?_, fun r t ht => ?_⟩⟩
  · rw [hlock] at hr
    cases hr
  · rw [hwriter] at ht
    cases ht

/-- A killed process leaves a directory that is closed. -/
theorem Inv.closed_killed (h : Inv (.trusted ext hext faulty K hK) p w) :
    Closed (.trusted ext hext faulty' K' hK') q (w.kill p) (w.store ext) (w.kill p) := by
  obtain ⟨hlock, hwriter⟩ := (h.solo trivial).kill
  refine ⟨?_, ?_, rfl, fun _ => .of_eq rfl rfl⟩
  · rw [World.txn, hwriter]
  · simp [hlock]

end

/-! ## Opening the directory again -/

/-- A list of one element, without repetition. -/
theorem eq_singleton_of_nodup {l : List Nat} {g : Nat} (hl : l.Nodup) (hg : g ∈ l)
    (h : ∀ k ∈ l, k = g) : l = [g] := by
  match l with
  | [a] => rw [h a (.head _)]
  | a :: b :: l =>
    rw [h a (.head _), h b (.tail _ (.head _))] at hl
    exact absurd (.head _) (List.nodup_cons.1 hl).1

section

variable {hext : ext.Lawful}

/-- `open` after the process that had the directory was killed: the store is the one that was committed,
and its pack is the only file left. -/
theorem safe_reopen (thread : Nat) (hI : Inv (.session ext hext true) p w) :
    Eff.Safe ((Setting.session ext hext true).rules q) (fun x i' w' => x = .ok () ∧
      AtRest (.session ext hext true) q i' w' (w.store ext) ∧ ∃ g, w'.fs.names.map Prod.fst = [g])
      open_ { thread := thread } (w.kill p) := by
  have hS := Setting.sequential_session hext true
  refine (safe_open (Setting.reliable_of_sound hS.sound) (.inl hS.pinned) hI.killed ⟨rfl, rfl, rfl⟩
    hI.closed_killed).mono ?_
  rintro _ i' w' hI' ⟨rfl, _, ho⟩
  obtain ⟨g, j, hg, hj⟩ := ho.named
  refine ⟨rfl, ho.rest, g, ?_⟩
  refine eq_singleton_of_nodup hI'.shape.wf.keys (Fs.mem_names_of_ino hj) fun k hk => ?_
  obtain ⟨l, hl⟩ := Option.ne_none_iff_exists'.1 fun hn => Fs.ino_eq_none.1 hn hk
  exact Except.ok.inj ((ho.only (Setting.reliable_of_sound hS.sound) hS.calm k l hl).symm.trans hg)

end

/-- The generation leaves room for a compaction. -/
def World.Room (w : World) (p : Nat) : Prop := ∀ g, (w.seen p).gen = .ok g → g + 1 < 2 ^ 64

/-- A handle and a directory a process has come by: it opened the empty directory, has run operations
to their end, or has opened the directory after the process before it was killed in one. -/
inductive Lived (ext : Ext) : Nat → Impl → World → Prop where
  | opened {p thread : Nat} {tr : List (Tarmac.Event sig)} {x : Except Err Unit} {i : Impl} {w : World}
      (run : Prog.Run (sem (faults true) p) (open_ { thread := thread }) .fresh tr (x, i) w) :
      Lived ext p i w
  | op {p : Nat} {op : Op} {tr : List (Tarmac.Event sig)} {x : Except Err Value} {i i' : Impl}
      {w w' : World} (before : Lived ext p i w) (hash : op.HashOk) (room : op.isCompact → w.Room p)
      (run : Prog.Run (sem (faults true) p) (op.code ext i) w tr (x, i') w') : Lived ext p i' w'
  | killed {p q thread : Nat} {op : Op} {tr : List (Tarmac.Event sig)} {x : Except Err Unit}
      {i i' : Impl} {w w' w₁ : World} (before : Lived ext p i w) (hash : op.HashOk)
      (room : op.isCompact → w.Room p) (stop : Prog.Visits (sem (faults true) p) (op.code ext i) w w')
      (run : Prog.Run (sem (faults true) q) (open_ { thread := thread }) (w'.kill p) tr (x, i') w₁) :
      Lived ext q i' w₁

/-- What the process sees has room for a generation when its tables have. -/
theorem World.Room.view (h : w.Room p) (hm : Represents ext p m w) {g : Nat}
    (hg : (w.seen p).gen = .ok g) : m.view.gen + 1 < 2 ^ 64 := by
  rw [← hm.view, storeOf]
  simpa [hg, Except.toOption] using h g hg

section

variable {hext : ext.Lawful}

/-- The tables a handle sees have a generation. -/
theorem Abs.seen_gen (hI : Inv (.session ext hext true) p w)
    (h : Abs (.session ext hext true) p m i w) : ∃ g, (w.seen p).gen = .ok g := by
  rcases h.ready with hid | ⟨g, ino, t, hb⟩
  · rw [World.seen, hid.txn]
    exact hI.shape.gen
  · rw [World.seen, hb.txn]
    exact ⟨g, hb.tgen⟩

/-- The model has room when the world has. -/
theorem Abs.room (hI : Inv (.session ext hext true) p w) (h : Abs (.session ext hext true) p m i w)
    (hroom : w.Room p) : m.view.gen + 1 < 2 ^ 64 := by
  obtain ⟨g, hg⟩ := h.seen_gen hI
  exact hroom.view (h.represents trivial (fun _ _ h => h) hI) hg

/-- Such a handle stands for a model. -/
theorem Lived.abs (hext : ext.Lawful) (h : Lived ext p i w) :
    Inv (.session ext hext true) p w ∧ ∃ m, Abs (.session ext hext true) p m i w := by
  have hS := Setting.sequential_session hext true
  induction h with
  | opened run =>
    obtain ⟨hI, _, habs, _⟩ := Setting.solo_run run (.fresh _ _ trivial) (safe_open_fresh hext _)
    exact ⟨hI, _, habs⟩
  | op before hash room run ih =>
    obtain ⟨hI, m, habs⟩ := ih
    obtain ⟨hI', m', _, habs'⟩ := Setting.solo_run run hI
      (safe_op hS _ hash hI habs fun hc => habs.room hI (room hc))
    exact ⟨hI', m', habs'⟩
  | killed before hash room stop run ih =>
    obtain ⟨hI, m, habs⟩ := ih
    obtain ⟨hI', _⟩ := Setting.solo_visits stop hI
      (safe_op hS _ hash hI habs fun hc => habs.room hI (room hc))
    obtain ⟨hI₁, _, hrest, _⟩ := Setting.solo_run run hI'.killed (safe_reopen _ hI')
    exact ⟨hI₁, ⟨_, none⟩, hrest⟩

/-! ## `compact`, stopped anywhere -/

/-- How `compact` changes the store: it commits the batch, and it keeps what is live. -/
inductive Advances (M0 M : Store) (live : Bytes → Bool) : Store → Store → Prop where
  | same (A : Store) : Advances M0 M live A A
  | synced : Advances M0 M live M0 M
  | swept : Advances M0 M live M (M.restrict live)

/-- A chain of advances from the committed store ends in one of three. -/
theorem Advances.run {A B : Store} (h : Relation.ReflTransGen (Advances M0 M live) A B)
    (hA : A = M0) : B = M0 ∨ B = M ∨ B = M.restrict live := by
  induction h with
  | refl => exact .inl hA
  | tail _ hs ih =>
    cases hs with
    | same => exact ih
    | synced => exact .inr (.inl rfl)
    | swept => exact .inr (.inr rfl)

/-- The setting of a process that compacts. -/
abbrev Setting.compacting (ext : Ext) (hext : ext.Lawful) (M0 M : Store) (live : Bytes → Bool) :
    Setting := .trusted ext hext true (Advances M0 M live) .same

/-- A predicate that cannot throw. -/
theorem isLive_ok (live : Bytes → Bool) : (isLive fun k => .ok (live k)) = live := by
  funext k
  exact Bool.eq_iff_iff.2 (isLive_eq.trans ⟨Except.ok.inj, congrArg _⟩)

/-- A `compact` advances the store through what its batch has made of it. -/
theorem Setting.compacts_compacting :
    (Setting.compacting ext hext M0 M live).Compacts (fun k => .ok (live k)) M where
  sync := Setting.not_canFail (S := .compacting ext hext M0 M live) trivial (by simp)
  throws := nofun
  keep _ M' hM' := by
    obtain rfl : M = M' := hM'
    rw [isLive_ok]
    exact .swept
  free h := absurd trivial h

/-- Wherever `compact` is stopped, one of three stores is committed. -/
theorem stores_of_visits (hI : Inv (.session ext hext true) p w)
    (h : Abs (.session ext hext true) p m i w) (hroom : m.view.gen + 1 < 2 ^ 64)
    (hv : Prog.Visits (sem (faults true) p) (compact (fun k => .ok (live k)) i) w w') :
    Inv (.session ext hext true) p w' ∧ (w'.store ext = m.committed ∨ w'.store ext = m.view ∨
      w'.store ext = m.view.restrict live) := by
  have hI₀ : Inv (.compacting ext hext m.committed m.view live) p w := hI.trusted
  have hroom' : ∀ w₁ w' g, Inv (.compacting ext hext m.committed m.view live) p w' →
      Before (.compacting ext hext m.committed m.view live) m.view w₁ w' →
      w'.env.db.gen = .ok g → g + 1 < 2 ^ 64 := fun w₁ w' g _ hb hg => by
    rw [show m.view = w'.store ext from hb.store] at hroom
    simpa [World.store, storeOf, hg, Except.toOption] using hroom
  have hstore := (h.represents trivial (fun _ _ h => h) hI).committed
  suffices hvisit : Inv (.compacting ext hext m.committed m.view live) p w' ∧
      Relation.ReflTransGen (Guar (.compacting ext hext m.committed m.view live) p) w w' by
    refine ⟨hvisit.1.trusted, Advances.run ?_ hstore⟩
    exact hvisit.2.lift (World.store ext) fun _ _ hG => (hG trivial).2
  rw [Abs] at h
  split at h
  · next hm =>
    have hv' : m.view = m.committed := by rw [Model.view, hm]; rfl
    refine Setting.solo_visits hv hI₀
      (safe_compact_of_rest (M := m.view) Setting.compacts_compacting hI₀ ?_ hroom')
    rw [hv']
    exact h.trusted
  · next M b hm =>
    have hv' : m.view = M := by rw [Model.view, hm]; rfl
    refine Setting.solo_visits hv hI₀ (safe_compact_of_batch_of (M := m.view) (b := b) trivial .synced
      Setting.compacts_compacting hI₀ ?_ hroom')
    rw [hv']
    exact h.trusted

/-- The store as the process sees it, with its batch. -/
def World.view (ext : Ext) (p : Nat) (w : World) : Store := storeOf ext w.pack (w.seen p)

/-- The handle holds the map `M` and nothing is left of what was before: one pack file, every blob read
back, and whatever follows does to the directory what it does to the map. -/
structure Renewed (ext : Ext) (q : Nat) (i : Impl) (w : World) : Prop where
  one : ∃ g, w.fs.names.map Prod.fst = [g]
  reads : ∀ h d, (w.store ext).blobs h = some d → Returns q (get ext h) i w (some d)
  follows : ∀ es s, Runs (sessionStep ext q) (i, w) es s → (∀ e ∈ es, e.op.HashOk) →
    (w.store ext).gen + es.countP (·.op.isCompact) + 1 < 2 ^ 64 →
    ∃ m, Runs (Model.Step ext) ⟨w.store ext, none⟩ es m ∧ Represents ext q m s.2

/-- A handle at rest was renewed. -/
theorem AtRest.renewed (hext : ext.Lawful) (hI : Inv (.session ext hext true) q w)
    (h : AtRest (.session ext hext true) q i w (w.store ext))
    (hone : ∃ g, w.fs.names.map Prod.fst = [g]) : Renewed ext q i w where
  one := hone
  reads k d hk := by
    have hlen : k.length = kHashLen := by
      obtain ⟨v, hv, _⟩ := Option.bind_eq_some_iff.1 hk
      obtain ⟨_, d', _, _, _, rfl, _⟩ := (hI.healthy trivial).entry k v hv
      exact hext.length_blake3 d'
    obtain ⟨e, he, _⟩ := TableOk.holds (hI.healthy trivial) hk
    have hI' : Inv (.smooth ext) q w := ⟨hI.shape, trivial, nofun, hI.solo⟩
    exact returns_of_safe hI' (safe_get_committed hI' h.idle hlen he)
  follows es s hr hash hgen := by
    have hk : Keeps (.session ext hext true) q es (i, w) ⟨w.store ext, none⟩ :=
      ⟨hI, h, hash, hgen, hgen⟩
    obtain ⟨m, hm, hk'⟩ := hr.simulate (fun hk hs => hk.step hext hs) hk
    exact ⟨m, hm, hk'.represents hext⟩

end

/-- `compact` is atomic. Wherever the process that has the directory is stopped in it, the directory can
be opened again, and `open` finds the committed store of before, if a batch was open, the store the
handle saw, or what is live of it. -/
theorem compact_crash_atomic (hext : ext.Lawful) (h : Lived ext p i w) (hroom : w.Room p)
    (hv : Prog.Visits (sem (faults true) p) (compact (fun k => .ok (live k)) i) w w')
    (q thread : Nat) :
    (∃ tr x i' w₁, Prog.Run (sem (faults true) q) (open_ { thread := thread }) (w'.kill p) tr
      (x, i') w₁) ∧
    ∀ tr x i' w₁, Prog.Run (sem (faults true) q) (open_ { thread := thread }) (w'.kill p) tr (x, i')
      w₁ → x = .ok () ∧ Renewed ext q i' w₁ ∧
        (w₁.store ext = w.store ext ∧ (w.txn p).isSome ∨ w₁.store ext = w.view ext p ∨
          w₁.store ext = (w.view ext p).restrict live) := by
  obtain ⟨hI, m, habs⟩ := h.abs hext
  have hrep := habs.represents trivial (fun _ _ h => h) hI
  obtain ⟨hI', hstore⟩ := stores_of_visits hI habs (habs.room hI hroom) hv
  refine ⟨Setting.solo_exists_run hI'.killed (safe_reopen thread hI'), fun tr x i' w₁ hr => ?_⟩
  obtain ⟨hI₁, hx, hrest, hone⟩ := Setting.solo_run hr hI'.killed (safe_reopen thread hI')
  have heq : w'.store ext = w₁.store ext := hrest.store
  rw [heq] at hstore hrest
  refine ⟨hx, hrest.renewed hext hI₁ hone, ?_⟩
  have hview : w.view ext p = m.view := hrep.view
  have hcommitted : w.store ext = m.committed := hrep.committed
  rw [hview, hcommitted]
  rcases hstore with hm | hm
  · -- without a batch the committed store is the one the handle sees
    have hbatch := hrep.batch
    split at hbatch
    · next hnone =>
      refine .inr (.inl (hm.trans ?_))
      rw [Model.view, hnone]
      rfl
    · obtain ⟨t, ht, _⟩ := hbatch
      exact .inl ⟨hm, by rw [ht]; rfl⟩
  · exact .inr hm

/-! ## A batch that is open -/

/-- A new directory in which a blob was put. -/
def putOne : Option (Impl × World) := do
  let (_, (_, i₀), w₀) ← evalWith (fun _ => {}) (open_ { thread := 0 }) .fresh
  let (_, (_, i), w) ← evalWith (fun _ => {}) ((Op.put [1]).code .sample i₀) w₀
  pure (i, w)

/-- The state after `n` calls of a `compact` that keeps everything, and what `open` makes of it. -/
def stoppedAt (n : Nat) (y : Impl × World) : Option (World × Except Err Unit × Impl × World) := do
  let w' ← (compact (fun _ => .ok true) y.1).stopAfter (fun _ => exec 0 {}) (List.replicate n ()) y.2
  let (_, (x, i'), w₁) ← evalWith (fun _ => {}) (open_ { thread := 0 }) (w'.kill 0)
  pure (w', x, i', w₁)

/-- An evaluation in which no call fails is a run. -/
theorem run_of_evalPlainly {α : Type} {m : Prog sig α} {a : α} {tr : List (Tarmac.Event sig)}
    (h : evalWith (fun _ => {}) m w = some (tr, a, w')) :
    Prog.Run (sem (faults true) 0) m w tr a w' :=
  run_of_evalWith (fun _ hf => Bool.noConfusion (hf : false = true)) h

/-- The process with one blob has lived. -/
theorem lived_of_putOne (h : putOne = some (i, w)) : Lived .sample 0 i w := by
  simp only [putOne, Option.bind_eq_bind, Option.bind_eq_some_iff, Option.pure_def,
    Option.some.injEq, Prod.mk.injEq] at h
  obtain ⟨⟨tr₀, ⟨x₀, i₀⟩, w₀⟩, h₀, ⟨tr₁, ⟨x₁, i₁⟩, w₁⟩, h₁, rfl, rfl⟩ := h
  refine .op (.opened (run_of_evalPlainly h₀)) ?_ ?_ (run_of_evalPlainly h₁)
  · trivial
  · exact fun hc => (nomatch hc)

/-- A state in which it is stopped is one that its `compact` visits. -/
theorem visits_of_stoppedAt {n : Nat} {x : Except Err Unit}
    (h : stoppedAt n (i, w) = some (w', x, i', w₁)) :
    Prog.Visits (sem (faults true) 0) (compact (fun _ => .ok true) i) w w' ∧
      ∃ tr, Prog.Run (sem (faults true) 0) (open_ { thread := 0 }) (w'.kill 0) tr (x, i') w₁ := by
  simp only [stoppedAt, Option.bind_eq_bind, Option.bind_eq_some_iff, Option.pure_def,
    Option.some.injEq, Prod.mk.injEq] at h
  obtain ⟨v, hv, ⟨tr₂, ⟨x₂, i₂⟩, w₂⟩, h₂, rfl, rfl, rfl, rfl⟩ := h
  exact ⟨Prog.visits_of_stopAfter (fun _ _ _ _ _ hx => ⟨{}, nofun, hx⟩) hv, tr₂, run_of_evalPlainly h₂⟩

/-- Stopped between the commit of the index and the removal of the old pack, `compact` leaves two files
behind. -/
theorem compact_crash_atomic_sample : ∃ i w w' tr i' w₁, Lived .sample 0 i w ∧
    Prog.Visits (sem (faults true) 0) (compact (fun _ => .ok true) i) w w' ∧
    w'.fs.names.map Prod.fst = [1, 0] ∧
    Prog.Run (sem (faults true) 0) (open_ { thread := 0 }) (w'.kill 0) tr (.ok (), i') w₁ ∧
    Renewed .sample 0 i' w₁ ∧
    (w₁.store .sample = w.store .sample ∧ (w.txn 0).isSome ∨ w₁.store .sample = w.view .sample 0 ∨
      w₁.store .sample = (w.view .sample 0).restrict fun _ => true) := by
  have hsome : putOne.any (fun y => (y.2.seen 0).hasGen 0 &&
      (stoppedAt 22 y).any fun z => decide (z.1.fs.names.map Prod.fst = [1, 0])) := by
    decide +kernel
  obtain ⟨⟨i, w⟩, hput, hobs⟩ := (Option.any_eq_true _ _).1 hsome
  obtain ⟨hgen, hstop⟩ := Bool.and_eq_true_iff.1 hobs
  obtain ⟨⟨w', x, i', w₁⟩, hstop, hnames⟩ := (Option.any_eq_true _ _).1 hstop
  have hl := lived_of_putOne hput
  obtain ⟨hv, tr, hr⟩ := visits_of_stoppedAt hstop
  have hroom : w.Room 0 := by
    intro g hg
    cases (Db.gen_of_hasGen hgen).symm.trans hg
    decide
  obtain ⟨rfl, hrest⟩ := (compact_crash_atomic Ext.lawful_sample hl hroom hv 0 0).2 tr x i' w₁ hr
  exact ⟨i, w, w', tr, i', w₁, hl, hv, of_decide_eq_true hnames, hr, hrest⟩

/-- With a batch open, no map is the one before `compact`: stopped at once the batch is lost, and stopped
at the end it is there, although nothing was to be removed. -/
theorem compact_crash_loses_batch : ∃ i w, Lived .sample 0 i w ∧
    ¬∃ M : BlobMap, ∀ w' tr x i' w₁,
      Prog.Visits (sem (faults true) 0) (compact (fun _ => .ok true) i) w w' →
      Prog.Run (sem (faults true) 0) (open_ { thread := 0 }) (w'.kill 0) tr (x, i') w₁ →
      (w₁.store .sample).blobs = M ∨ (w₁.store .sample).blobs = M.restrict fun _ => true := by
  have hsome : putOne.any (fun y =>
      ((stoppedAt 0 y).any fun z =>
        !((z.2.2.2.store .sample).blobs (Ext.sample.blake3 [1])).isSome) &&
      (stoppedAt 100 y).any fun z =>
        ((z.2.2.2.store .sample).blobs (Ext.sample.blake3 [1])).isSome) := by
    decide +kernel
  obtain ⟨⟨i, w⟩, hput, hobs⟩ := (Option.any_eq_true _ _).1 hsome
  obtain ⟨hlost, hkept⟩ := Bool.and_eq_true_iff.1 hobs
  obtain ⟨⟨w', x, i', w₁⟩, hstop, hlost⟩ := (Option.any_eq_true _ _).1 hlost
  obtain ⟨⟨v', y, j', v₁⟩, hend, hkept⟩ := (Option.any_eq_true _ _).1 hkept
  obtain ⟨hv, tr, hr⟩ := visits_of_stoppedAt hstop
  obtain ⟨hv', tr', hr'⟩ := visits_of_stoppedAt hend
  refine ⟨i, w, lived_of_putOne hput, ?_⟩
  rintro ⟨M, hM⟩
  have heq : (w₁.store .sample).blobs = M := (hM w' tr x i' w₁ hv hr).elim id id
  have heq' : (v₁.store .sample).blobs = M := (hM v' tr' y j' v₁ hv' hr').elim id id
  dsimp only at hlost hkept
  rw [heq, ← heq', hkept] at hlost
  cases hlost

end Tarmac.PackCas
