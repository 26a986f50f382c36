import Tarmac.PackCas.Atomic
import Tarmac.PackCas.Own

/-!
# The pack a compaction leaves

`Repacked live db file db' file'`: the tables `db'` over the pack `file'` are those of `db` over
`file`, reduced to the live blobs, and their entries tile the pack: in the order of the hashes each
begins where the one before ends, the first at `0`, and the last ends where the pack does. A `compact`
that returns leaves its directory so (`compact_repacks`), whatever the index it began with says.

The offsets come from the loop that copies the blobs (`Sweeps`). That a cursor over the new index meets
the entries in the order in which the loop assigned them is because the loop itself walks the old
index in the order of its hashes (`toList_keepTable`).
-/

namespace Tarmac.PackCas

/-! ## Entries one behind the other -/

/-- The entries lie one behind the other, from `a` to `b`. -/
def Consecutive : Nat → List IndexEntry → Nat → Prop
  | a, [], b => a = b
  | a, e :: es, b => e.off = a ∧ Consecutive (a + e.len) es b

/-- An entry is added at the end. -/
theorem Consecutive.snoc {es : List IndexEntry} {a b : Nat} {e : IndexEntry}
    (h : Consecutive a es b) (he : e.off = b) : Consecutive a (es ++ [e]) (b + e.len) := by
  induction es generalizing a with
  | nil =>
    have hab : a = b := h
    exact ⟨he.trans hab.symm, congrArg (· + e.len) hab⟩
  | cons e₀ es ih => exact ⟨h.1, ih h.2⟩

/-- `es` are the entries of the index `t`, in the order in which a cursor meets them. -/
def Lists (t : SortedMap Bytes Bytes) (es : List IndexEntry) : Prop :=
  t.toList.map (fun r => decodeEntry r.2) = es.map .ok

/-! ## What the loop leaves -/

section

variable {live : Bytes → Except Err Bool} {file acc : Bytes} {done : List (Bytes × Bytes)}
  {keep : List (Bytes × IndexEntry)}

namespace Sweeps

/-- The kept entries tile what was copied. -/
theorem consecutive (h : Sweeps live file done acc keep) :
    Consecutive 0 (keep.map Prod.snd) acc.length := by
  induction h with
  | nil => rfl
  | keep _ _ _ hle _ ih =>
    rw [List.map_append, List.length_append, length_slice_of_le hle]
    exact ih.snoc rfl
  | drop _ _ _ ih => exact ih

/-- The hashes that are kept are the live ones. -/
theorem keys_eq (h : Sweeps live file done acc keep) :
    keep.map Prod.fst = (done.map Prod.fst).filter (isLive live) := by
  induction h with
  | nil => rfl
  | keep _ _ hl _ _ ih =>
    rw [List.map_append, List.map_append, List.filter_append, ih]
    simp [isLive, hl]
  | drop _ _ hl ih =>
    rw [List.map_append, List.filter_append, ih]
    simp [isLive, hl]

/-- What was copied is no longer than the entries of the index together. -/
theorem length_le_sum (h : Sweeps live file done acc keep) :
    ∃ es : List IndexEntry, done.map (fun r => decodeEntry r.2) = es.map .ok ∧
      acc.length ≤ (es.map IndexEntry.len).sum := by
  induction h with
  | nil => exact ⟨[], rfl, Nat.le_refl _⟩
  | @keep _ _ _ _ _ e _ hd _ hle _ ih =>
    obtain ⟨es, hes, hlen⟩ := ih
    refine ⟨es ++ [e], by simp [hes, hd], ?_⟩
    rw [List.length_append, length_slice_of_le hle]
    simp only [List.map_append, List.map_cons, List.map_nil, List.sum_append, List.sum_cons,
      List.sum_nil]
    omega
  | @drop _ _ _ _ _ e _ hd _ ih =>
    obtain ⟨es, hes, hlen⟩ := ih
    refine ⟨es ++ [e], by simp [hes, hd], ?_⟩
    simp only [List.map_append, List.sum_append]
    omega

end Sweeps

/-- The bindings of an index filled with entries whose hashes ascend. -/
theorem toList_keepTable (h : keep.Pairwise fun a b => a.1 < b.1) :
    (keepTable keep .empty).toList = keep.map fun r => (r.1, encodeEntry r.2) := by
  have hsorted : (keep.map fun r => (r.1, encodeEntry r.2)).Pairwise fun a b => a.1 < b.1 :=
    h.map _ fun _ _ hab => hab
  have hnodup : (keep.map Prod.fst).Nodup :=
    h.map _ fun _ _ hab => ne_of_lt hab
  let t : SortedMap Bytes Bytes := ⟨keep.map fun r => (r.1, encodeEntry r.2), hsorted⟩
  have heq : keepTable keep .empty = t := by
    refine SortedMap.ext_find? fun k => ?_
    by_cases hk : k ∈ keep.map Prod.fst
    · obtain ⟨⟨k, e⟩, hke, rfl⟩ := List.mem_map.1 hk
      rw [find?_keepTable hnodup hke]
      exact (SortedMap.mem_toList.1 (List.mem_map_of_mem (f := fun r => (r.1, encodeEntry r.2)) hke)).symm
    · rw [find?_keepTable_of_not_mem hk]
      refine (SortedMap.find?_eq_none.2 fun v hv => hk ?_).symm
      obtain ⟨⟨k₁, e⟩, hke, heq⟩ := List.mem_map.1 hv
      cases heq
      exact List.mem_map_of_mem (f := Prod.fst) hke
  rw [heq]

end

/-! ## The new tables -/

/-- The tables `db'` over the pack `file'` are what a compaction makes of the tables `db` over the
pack `file`. -/
structure Repacked (live : Bytes → Except Err Bool) (db : Db) (file : Bytes) (db' : Db)
    (file' : Bytes) : Prop where
  tiles : ∃ es, Lists db'.blobs es ∧ Consecutive 0 es file'.length
  keys : db'.blobs.toList.map Prod.fst = (db.blobs.toList.map Prod.fst).filter (isLive live)
  copies : ∀ k v, db.blobs.find? k = some v → live k = .ok true →
    ∃ e v' e', decodeEntry v = .ok e ∧ db'.blobs.find? k = some v' ∧ decodeEntry v' = .ok e' ∧
      e'.len = e.len ∧ e'.rawLen = e.rawLen ∧ slice file' e'.off e'.len = slice file e.off e.len
  records : ∀ k, k ≠ genKey → db'.metaTable.find? k = db.metaTable.find? k
  gen : ∀ g, db.gen = .ok g → db'.gen = .ok (nextGen g)
  length : ∃ es, Lists db.blobs es ∧ file'.length ≤ (es.map IndexEntry.len).sum

variable {ext : Ext} {choice : Call → Choice → Prop} {p : Nat} {w w' : World} {i i' : Impl}
  {live : Bytes → Except Err Bool} {tr : List (Tarmac.Event sig)}

/-- A working copy that was filled is the compaction of the committed tables. -/
theorem Filled.repacked {g : Nat} {db t' : Db} {file out : Bytes}
    (h : Filled live g db file out t') (hg : db.gen = .ok g) :
    Repacked live db file t' out := by
  obtain ⟨keep, hsweeps, hblobs⟩ := h.sweeps
  have hkeys : keep.map Prod.fst = (db.blobs.toList.map Prod.fst).filter (isLive live) :=
    hsweeps.keys_eq
  have hsorted : keep.Pairwise fun a b => a.1 < b.1 := by
    rw [← List.pairwise_map (f := Prod.fst) (R := (· < ·)), hkeys]
    exact (List.pairwise_map.2 db.blobs.sorted).filter _
  have hlist := toList_keepTable hsorted
  constructor
  · refine ⟨keep.map Prod.snd, ?_, hsweeps.consecutive⟩
    rw [Lists, hblobs, hlist, List.map_map, List.map_map]
    refine List.map_congr_left fun r hr => ?_
    have hdec : decodeEntry (encodeEntry r.2) = .ok r.2 := hsweeps.decode h.fits hr
    simpa using hdec
  · rw [hblobs, hlist, List.map_map]
    exact hkeys
  · intro k v hv hl
    obtain ⟨e, e', hd, hf, hd', hc⟩ := h.swept.kept k v hv hl
    exact ⟨e, _, e', hd, hf, hd', hc.len, hc.rawLen, by rw [hc.slice]⟩
  · intro k hk
    rw [h.metaTable, SortedMap.find?_insert_of_ne (Ne.symm hk)]
  · intro g' hg'
    cases hg.symm.trans hg'
    exact h.gen
  · exact hsweeps.length_le_sum

/-! ## The end of `compact` -/

/-- The call changes nothing where the generation `g` has a pack. -/
def Call.Still (g : Nat) (c : Call) : Prop :=
  ∀ p ch w r w', (w.fs.ino g).isSome → exec p ch c w = some (r, w') → w' = w

/-- Opening a pack that is there creates nothing. -/
theorem Call.still_openPack {g : Nat} {create : Bool} :
    Call.Still g (.openPack g create false) := by
  intro p ch w r w' hino hx
  obtain ⟨ino, hino⟩ := Option.isSome_iff_exists.1 hino
  simp only [exec, hino] at hx
  split at hx
  · cases hx
    rfl
  · cases hx
    rfl

/-- `mapping_for` of a pack that is there changes nothing. -/
theorem run_mappingFor_still {g : Nat} {create : Bool} {x : Except Err (Option Mapping)}
    (hino : (w.fs.ino g).isSome)
    (hr : Prog.Run (sem choice p) (mappingFor g create i) w tr (x, i') w') : w' = w := by
  have hopen : Call.Still g (.openPack g create false) := Call.still_openPack
  have hmakes := makes_mappingFor (P := Call.Still g) (i := i) hopen (fun _ _ _ _ _ _ _ h => by cases h; rfl)
    fun _ _ _ _ _ _ _ h => by cases h; rfl
  refine Prog.Makes.run_same hmakes (fun c r w₁ hc hs => ?_) hr
  obtain ⟨ch, _, hx⟩ := hs
  exact hc _ _ _ _ _ hino hx

/-- After the switch `compact` removes the old pack and gives the lock back. -/
theorem run_compactEnd {g newIno n : Nat} {x : Except Err Unit} {ino : Nat}
    (hgen : w.env.db.gen = .ok (nextGen g)) (hino : w.fs.ino (nextGen g) = some ino)
    (hr : Prog.Run (sem choice p) (compactEnd g newIno n i) w tr (x, i') w') :
    w'.env.db = w.env.db ∧ w'.pack = w.pack := by
  obtain ⟨_, w₁, tr₁, ⟨_, _, hx₁⟩, hr₁, rfl⟩ := Eff.run_perform hr
  obtain ⟨_, w₂, tr₂, ⟨_, _, hx₂⟩, hr₂, rfl⟩ := Eff.run_perform hr₁
  cases hx₁
  cases hx₂
  have hne : g ≠ nextGen g := (nextGen_ne g).symm
  have hpack : (w.setFs (w.fs.unlink g)).pack = w.pack := World.pack_unlink hgen hne
  have hino' : (w.fs.unlink g).ino (nextGen g) = some ino := by
    rw [Fs.ino_unlink, if_neg hne]
    exact hino
  -- mapping the new pack finds it in the directory
  have hsame : ∀ {y i₂ tr w'}, Prog.Run (sem choice p) (mappingFor (nextGen g) true i)
      (w.setFs (w.fs.unlink g)) tr (y, i₂) w' → w' = w.setFs (w.fs.unlink g) :=
    run_mappingFor_still (by simp [World.setFs, hino'])
  rcases Eff.run_seq hr₂ with ⟨tr₃, m, i₂, w₃, tr₄, hm, hr₃, rfl⟩ | ⟨e, _, hm⟩
  · cases hsame hm
    obtain ⟨_, w₄, tr₅, ⟨_, _, hx⟩, hr₄, rfl⟩ := Eff.run_perform (f := pure) hr₃
    cases hx
    cases hr₄
    exact ⟨rfl, hpack⟩
  · cases hsame hm
    exact ⟨rfl, hpack⟩

/-! ## `compact` -/

/-- A switch that returns has committed the filled working copy. -/
theorem run_compactSwitch_ok {g ino newIno n : Nat} {db : Db} {file : Bytes} {M : Store} {w₀ : World}
    (hlive : ∀ k e, live k = .error e → e.caught) (hI : Inv (.any ext) p w)
    (hw : Compacting p i w g ino newIno db file [] db) (hs : Since (.any ext) M w₀ g ino db file)
    (hr : Prog.Run (sem (fun _ _ => True) p) (compactSwitch live g ⟨g, ino⟩ newIno i) w tr
      (.ok n, i') w') :
    ∃ out, Filled live g db file out w'.env.db ∧ w'.fs.ino (nextGen g) = some newIno ∧
      w'.pack = out := by
  rcases Eff.run_catchIf hr with ⟨hr, _⟩ | ⟨_, e, i₁, w₁, tr₁, _, hr, _⟩
  · rcases Eff.run_seq hr with ⟨tr₁, n', i₁, w₁, tr₂, h₁, h₂, rfl⟩ | ⟨_, he, _⟩
    · obtain ⟨_, _, out, t', hc, hf⟩ := Setting.solo_run h₁ hI (safe_copyScope hlive hI hw hs)
      obtain ⟨r, w₂, tr₃, ⟨ch, _, hx⟩, h₃, rfl⟩ := run_ask h₂
      rw [exec, hc.txn] at hx
      dsimp only at hx
      split at hx
      · cases hx
        rw [mdbCheck_error ch.mdbErrno_ne] at h₃
        cases h₃
      · cases hx
        obtain ⟨r, w₃, tr₄, ⟨ch, _, hx⟩, h₄, rfl⟩ := run_ask h₃
        simp only [exec, Choice.mdbGuard] at hx
        split at hx
        · cases hx
          rw [mdbCheck_error ch.mdbErrno_ne] at h₄
          cases h₄
        · cases hx
          cases h₄
          have hpack : (w₁.commit t').pack = out :=
            (World.pack_eq (w := w₁.commit t') hf.gen hc.newName).trans hc.newData
          exact ⟨out, hf, hc.newName, hpack⟩
    · cases he
  · -- the handler throws again
    obtain ⟨_, w₂, tr₂, _, hr₂, _⟩ := Eff.run_perform hr
    obtain ⟨_, w₃, tr₃, _, hr₃, _⟩ := Eff.run_perform hr₂
    cases hr₃

/-- The `try` block of `compact`, begun with the lock: if it returns, the directory is repacked. -/
theorem run_compactLocked_ok (hlive : ∀ k e, live k = .error e → e.caught)
    (hI : Inv (.any ext) p w) (hid : Idle p i w) (hl : w.env.lock = some p)
    (hr : Prog.Run (sem (fun _ _ => True) p) (compactLocked live i) w tr (.ok (), i') w') :
    Repacked live w.env.db w.pack w'.env.db w'.pack := by
  rcases run_compactLocked live hI hid hl hr with
    ⟨⟨e, he⟩, _⟩ | ⟨g, ino, newIno, i₁, w₁, tr₁, tr₂, rfl, _, hI₁, hc, hsince, hrest⟩
  · cases he
  · rcases Eff.run_seq hrest with ⟨tr₃, n, i₂, w₂, tr₄, h₃, h₄, rfl⟩ | ⟨_, he, _⟩
    · obtain ⟨out, hf, hino, hpack⟩ := run_compactSwitch_ok hlive hI₁ hc hsince h₃
      obtain ⟨hdb, hpack'⟩ := run_compactEnd hf.gen hino h₄
      rw [hdb, hpack', hpack]
      exact hf.repacked hc.gen
    · cases he

/-- A `compact` that returns leaves the live blobs of the index, tiling the new pack: for every
directory, whatever its index and pack say, every open handle, with or without a batch, and every
predicate. A batch that is open is committed first, so that the old index is the one that the handle
sees. -/
theorem compact_repacks (ext : Ext) (live : Bytes → Except Err Bool) (p : Nat)
    (hlive : ∀ k e, live k = .error e → e.caught) (hshape : Shape w) (hsolo : Solo p w)
    (hready : Ready (.any ext) p i w)
    (hr : Prog.Run (sem (fun _ _ => True) p) (compact live i) w tr (.ok (), i') w') :
    Repacked live (w.seen p) w.pack w'.env.db w'.pack := by
  have hI : Inv (.any ext) p w := ⟨hshape, trivial, nofun, fun _ => hsolo⟩
  rcases Eff.run_seq hr with ⟨tr₁, _, i₁, w₁, tr₂, h₁, h₂, rfl⟩ | ⟨_, he, _⟩
  · obtain ⟨hI₁, hsync⟩ := Setting.solo_run h₁ hI (safe_sync_ready (S := .any ext) id hI hready)
    obtain ⟨hid₁, hsame₁⟩ := hsync rfl
    obtain ⟨hdb₁, hfs₁⟩ := hsame₁ trivial
    have hgen₁ : w₁.env.db.gen = w.env.db.gen := by rw [hdb₁, hready.gen_seen]
    have hpack₁ : w₁.pack = w.pack := by simp only [World.pack, hgen₁, hfs₁]
    rcases Eff.run_seq h₂ with ⟨tr₃, _, i₂, w₂, tr₄, h₃, h₄, rfl⟩ | ⟨_, he, _⟩
    · obtain ⟨rfl, ⟨_, rfl⟩ | ⟨⟨_, he⟩, _⟩⟩ := run_lockWriter_go _ h₃
      · have hI₂ : Inv (.any ext) p (w₁.setLock (some p)) := by
          refine ⟨hI₁.shape.congr rfl rfl, trivial, nofun, fun _ => ⟨fun q hq => ?_,
            (hI₁.solo trivial).writer⟩⟩
          cases hq
          rfl
        rcases Eff.run_catchIf h₄ with ⟨h₅, _⟩ | ⟨_, e, i₃, w₃, tr₅, _, h₅, _⟩
        · have hrep := run_compactLocked_ok hlive hI₂ (hid₁.setLock _) rfl h₅
          rw [← hdb₁, ← hpack₁]
          exact hrep
        · -- the handler throws again
          obtain ⟨_, w₄, tr₆, _, h₆, _⟩ := Eff.run_perform h₅
          cases h₆
      · cases he
    · cases he
  · cases he

/-- Keeps the blobs that are not `[2, 3]` nor `[6]`. -/
def sampleLive (h : Bytes) : Except Err Bool :=
  .ok (h != Ext.sample.blake3 [2, 3] && h != Ext.sample.blake3 [6])

/-- Five blobs, the last two of them in a batch that is open, and a `compact` that drops one of the
synced ones and one of the batch. -/
def passingCompact : Option ((List Event × Impl × World) × List (Tarmac.Event sig) × Except Err Unit ×
    Impl × World) := do
  let s ← openSession .sample [.put [1], .put [2, 3], .put [4, 5], .sync, .put [6], .put [7]]
  let (tr, (x, i'), w') ← evalWith (fun _ => {}) (compact sampleLive s.2.1) s.2.2
  pure (s, tr, x, i', w')

/-- The blobs that are left tile the new pack, in the order of the index. -/
theorem compact_repacks_sample : ∃ i w tr i' w',
    Prog.Run (sem (fun _ _ => True) 0) (compact sampleLive i) w tr (.ok (), i') w' ∧
    Repacked sampleLive (w.seen 0) w.pack w'.env.db w'.pack ∧ w.pack.length = 7 ∧
    w'.pack.length = 4 ∧ (w'.env.db.blobs.find? (Ext.sample.blake3 [7])).isSome ∧
    w'.env.db.blobs.find? (Ext.sample.blake3 [6]) = none := by
  have hsome : passingCompact.any (fun s => s.2.2.1.toOption.isSome &&
      s.1.2.2.pack.length == 7 && s.2.2.2.2.pack.length == 4 &&
      (s.2.2.2.2.env.db.blobs.find? (Ext.sample.blake3 [7])).isSome &&
      s.2.2.2.2.env.db.blobs.find? (Ext.sample.blake3 [6]) == none) := by
    decide +kernel
  obtain ⟨⟨⟨es, i, w⟩, tr, x, i', w'⟩, hrun, hobs⟩ := (Option.any_eq_true _ _).1 hsome
  simp only [Bool.and_eq_true, beq_iff_eq] at hobs
  obtain ⟨⟨⟨⟨hx, hold⟩, hnew⟩, hkept⟩, hgone⟩ := hobs
  simp only [passingCompact, Option.bind_eq_bind, Option.bind_eq_some_iff, Option.pure_def,
    Option.some.injEq, Prod.mk.injEq] at hrun
  obtain ⟨⟨es, i, w⟩, h, ⟨tr, ⟨x, i'⟩, w'⟩, h₃, ⟨rfl, rfl, rfl⟩, rfl, rfl, rfl, rfl⟩ := hrun
  dsimp only at *
  obtain ⟨_, hshape, hsolo, hready⟩ := ready_of_openSession h (by simp [Op.HashOk]) (by decide)
  cases x with
  | error e => cases hx
  | ok a =>
    have hr : Prog.Run (sem (fun _ _ => True) 0) (compact sampleLive i) w tr
        (.ok (), i') w' := run_of_evalWith (fun _ => trivial) h₃
    exact ⟨i, w, tr, i', w', hr, compact_repacks .sample sampleLive 0
      (fun _ _ h => by cases h) hshape hsolo hready hr, hold, hnew, hkept, hgone⟩

end Tarmac.PackCas
