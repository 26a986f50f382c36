import Tarmac.Tree.Whole

/-!
# Writing records

The programs that read the store and write records, but no blobs: they leave the blobs a process
sees as they are, and of the records all but those whose keys they write (`Writes`). The judgement
`Quiet` follows a program with this relation.
-/

namespace Tarmac.Tree

open PackCas

/-- A record is there for the root. -/
def Registered (st : Store) (root : Bytes) (tree : Bool) : Prop :=
  (st.records.find? (rootKey root tree)).isSome

/-- The roots of a scan are the registered ones. -/
theorem mem_rootsOf {st : Store} {root : Bytes} (tree : Bool) :
    root ∈ rootsOf (st.scan (if tree then treePrefix else blobPrefix)) ↔ Registered st root tree := by
  have hkey : rootKey root tree = (if tree then treePrefix else blobPrefix) ++ root := rfl
  constructor
  · intro h
    obtain ⟨⟨key, val⟩, hmem, rfl⟩ := List.mem_map.1 h
    obtain ⟨hfind, rest, rfl⟩ := Store.mem_scan.1 hmem
    have hdrop : ((if tree then treePrefix else blobPrefix) ++ rest).drop 1 = rest := by
      cases tree <;> rfl
    unfold Registered
    rw [hdrop, rootKey, hfind]
    rfl
  · intro h
    obtain ⟨val, hval⟩ := Option.isSome_iff_exists.1 h
    refine List.mem_map.2 ⟨(rootKey root tree, val), Store.mem_scan.2 ⟨hval, root, hkey.symm⟩, ?_⟩
    cases tree <;> rfl

/-- `p` wrote at most records with keys in `K`, and may have committed. -/
structure Writes (p : Nat) (K : Bytes → Prop) (s s' : Sys) : Prop where
  blobs : s'.blobs p = s.blobs p
  committed : s'.committed.blobs = s.committed.blobs ∨ s'.committed.blobs = s.blobs p
  trees : s'.trees = s.trees
  frame : ∀ key, ¬K key →
    (s'.model p).view.records.find? key = (s.model p).view.records.find? key

namespace Writes

variable {p : Nat} {K K' : Bytes → Prop} {s s₁ s' : Sys}

theorem refl (s : Sys) : Writes p K s s := ⟨rfl, .inl rfl, rfl, fun _ _ => rfl⟩

/-- What is written in two steps is written. -/
theorem trans (h : Writes p K s s₁) (h' : Writes p K s₁ s') : Writes p K s s' where
  blobs := h'.blobs.trans h.blobs
  committed := by
    rcases h'.committed with hc | hc
    · rw [hc]
      exact h.committed
    · exact .inr (hc.trans h.blobs)
  trees := h'.trees.trans h.trees
  frame key hk := (h'.frame key hk).trans (h.frame key hk)

/-- More keys may be written. -/
theorem mono (hK : ∀ key, K key → K' key) (h : Writes p K s s') : Writes p K' s s' :=
  ⟨h.blobs, h.committed, h.trees, fun key hk => h.frame key (mt (hK key) hk)⟩

/-- A change of one record. -/
theorem update {f : Store → Store} (hblobs : ∀ st, (f st).blobs = st.blobs)
    (hrec : ∀ st key, ¬K key → (f st).records.find? key = st.records.find? key) :
    Writes p K s (s.setModel p ((s.model p).update f)) where
  blobs := by rw [Sys.blobs_setModel, Model.view_update, hblobs]
  committed := by
    rcases Model.committed_update (s.model p) f with h | h
    · exact .inl (congrArg Store.blobs h)
    · exact .inr ((congrArg Store.blobs h).trans (hblobs _))
  trees := rfl
  frame key hk := by rw [Sys.model_setModel, Model.view_update, hrec _ key hk]

/-- A record with such a key is put. -/
theorem putRecord {key val : Bytes} (hk : K key) :
    Writes p K s (s.setModel p ((s.model p).update (·.putRecord key val))) := by
  refine update (fun _ => rfl) fun st key' hk' => ?_
  have hne : key ≠ key' := fun h => hk' (h ▸ hk)
  rw [Store.putRecord, SortedMap.find?_insert, if_neg hne]

/-- A record with such a key is deleted. -/
theorem delRecord {key : Bytes} (hk : K key) :
    Writes p K s (s.setModel p ((s.model p).update (·.delRecord key))) := by
  refine update (fun _ => rfl) fun st key' hk' => ?_
  have hne : key ≠ key' := fun h => hk' (h ▸ hk)
  rw [Store.delRecord, SortedMap.find?_erase, if_neg hne]

/-- A commit. -/
theorem sync : Writes p K s (s.setModel p (s.model p).sync) where
  blobs := by
    rw [Sys.blobs_setModel]
    rfl
  committed := .inr rfl
  trees := rfl
  frame key _ := by
    rw [Sys.model_setModel]
    rfl

/-- The clock runs. -/
theorem clock {now : Nat} : Writes p K s { s with clock := now } :=
  ⟨rfl, .inl rfl, rfl, fun _ _ => rfl⟩

end Writes

/-! ## Programs -/

/-- The invariant does not mind records. -/
def Unrecorded (p : Nat) (I : Sys → Prop) : Prop :=
  ∀ K s s', Writes p K s s' → I s → I s'

/-- Nothing depends on the records. -/
theorem unrecorded_true {p : Nat} : Unrecorded p fun _ => True := fun _ _ _ _ _ => trivial

/-- The program writes records with keys in `K`, and ends in `Q`. -/
def Quiet {α : Type} (ext : Ext) (ok : Call → Sys → Choice → Prop) (p : Nat) (I : Sys → Prop)
    (K : Bytes → Prop) (m : TreeM α) (Q : Except Err α → Pending → Sys → Prop) (σ : Pending)
    (s : Sys) : Prop :=
  Eff.Safe (solo ext ok p I) (fun x σ' s' => Writes p K s s' ∧ Q x σ' s') m σ s

section

variable {ext : Ext} {ok : Call → Sys → Choice → Prop} {p : Nat} {I : Sys → Prop}
  {K K' : Bytes → Prop} {s s' : Sys} {σ σ' : Pending} {α β : Type} {m : TreeM α}
  {Q Q' : Except Err α → Pending → Sys → Prop}

theorem Quiet.pure {a : α} (h : Q (.ok a) σ s) : Quiet ext ok p I K (Pure.pure a) Q σ s :=
  safe_pure ⟨.refl s, h⟩

/-- A weaker postcondition, and more keys. -/
theorem Quiet.mono (hm : Quiet ext ok p I K m Q σ s) (hK : ∀ key, K key → K' key)
    (h : ∀ x σ' s', (solo ext ok p I).Inv s' → Writes p K s s' → Q x σ' s' → Q' x σ' s') :
    Quiet ext ok p I K' m Q' σ s :=
  Eff.Safe.mono hm fun x σ' s' hI hx => ⟨hx.1.mono hK, h x σ' s' hI hx.1 hx.2⟩

/-- Sequencing. -/
theorem Quiet.bind {n : TreeM β} {f : β → TreeM α} {P : Except Err β → Pending → Sys → Prop}
    (hs : (solo ext ok p I).Inv s) (hn : Quiet ext ok p I K n P σ s)
    (hf : ∀ b σ' s', (solo ext ok p I).Inv s' → Writes p K s s' → P (.ok b) σ' s' →
      Quiet ext ok p I K (f b) Q σ' s')
    (herr : ∀ e σ' s', Writes p K s s' → P (.error e) σ' s' → Q (.error e) σ' s') :
    Quiet ext ok p I K (n >>= f) Q σ s := by
  refine safe_bind hs hn ?_ ?_
  · rintro b σ' s' hI ⟨hw, hP⟩
    refine Eff.Safe.mono (hf b σ' s' hI hw hP) ?_
    rintro x σ'' s'' - ⟨hw', hQ⟩
    exact ⟨hw.trans hw', hQ⟩
  · rintro e σ' s' - ⟨hw, hP⟩
    exact ⟨hw, herr e σ' s' hw hP⟩

/-- `meta_put` writes its record, at once or not at all. -/
theorem quiet_metaPut {key val : Bytes} {Q : Except Err Unit → Pending → Sys → Prop}
    (hI : Unrecorded p I) (hs : (solo ext ok p I).Inv s)
    (hk : K key) (h : ∀ x s', WriteOutcome p ((s.model p).update (·.putRecord key val)) s x s' →
      (PutsWork ok → x = .ok ()) → Q x σ s') :
    Quiet ext ok p I K (Cas.metaPut key val) Q σ s := by
  refine safe_metaPut hs fun x s' hx hok => ?_
  have hw : Writes p K s s' := by
    rcases hx with ⟨-, rfl⟩ | ⟨e, -, rfl⟩
    · exact .putRecord hk
    · exact .refl _
  exact ⟨hI _ _ _ hw hs.2, hw, h x s' hx hok⟩

/-- `meta_del` deletes it, at once or not at all. -/
theorem quiet_metaDel {key : Bytes} {Q : Except Err Unit → Pending → Sys → Prop}
    (hI : Unrecorded p I) (hs : (solo ext ok p I).Inv s)
    (hk : K key) (h : ∀ x s', WriteOutcome p ((s.model p).update (·.delRecord key)) s x s' →
      Q x σ s') : Quiet ext ok p I K (Cas.metaDel key) Q σ s := by
  refine safe_metaDel hs fun x s' hx => ?_
  have hw : Writes p K s s' := by
    rcases hx with ⟨-, rfl⟩ | ⟨e, -, rfl⟩
    · exact .delRecord hk
    · exact .refl _
  exact ⟨hI _ _ _ hw hs.2, hw, h x s' hx⟩

/-- `sync` writes nothing new. -/
theorem quiet_casSync {Q : Except Err Unit → Pending → Sys → Prop} (hI : Unrecorded p I)
    (hs : (solo ext ok p I).Inv s)
    (h : ∀ x s', WriteOutcome p (s.model p).sync s x s' → Q x σ s') :
    Quiet ext ok p I K Cas.sync Q σ s := by
  refine safe_casSync hs fun x s' hx => ?_
  have hw : Writes p K s s' := by
    rcases hx with ⟨-, rfl⟩ | ⟨e, -, rfl⟩
    · exact .sync
    · exact .refl _
  exact ⟨hI _ _ _ hw hs.2, hw, h x s' hx⟩

/-- `meta_get` reads the record, or throws. -/
theorem quiet_metaGet {key : Bytes} {Q : Except Err (Option Bytes) → Pending → Sys → Prop}
    (hs : (solo ext ok p I).Inv s)
    (hQ : ∀ x, ReadOutcome ((s.model p).view.records.find? key) s x s → Q x σ s) :
    Quiet ext ok p I K (Cas.metaGet key) Q σ s :=
  safe_metaGet hs fun x hx => ⟨.refl s, hQ x hx⟩

/-- `meta_scan` reads the records with the prefix, or throws. -/
theorem quiet_metaScan {pre : Bytes} {Q : Except Err (List (Bytes × Bytes)) → Pending → Sys → Prop}
    (hs : (solo ext ok p I).Inv s)
    (hQ : ∀ x, ReadOutcome ((s.model p).view.scan pre) s x s → Q x σ s) :
    Quiet ext ok p I K (Cas.metaScan pre) Q σ s :=
  safe_metaScan hs fun x hx => ⟨.refl s, hQ x hx⟩

/-- The clock answers some time. -/
theorem quiet_nowNs {f : Nat → TreeM α} (hI : Unrecorded p I) (hs : (solo ext ok p I).Inv s)
    (h : ∀ ch, ok .now s ch → (solo ext ok p I).Inv { s with clock := ch.clock } →
      Quiet ext ok p I K (f ch.clock) Q σ { s with clock := ch.clock }) :
    Quiet ext ok p I K (nowNs >>= f) Q σ s := by
  refine safe_nowNs fun ch hch => ⟨hI _ _ _ (.clock (K := K)) hs.2, fun hs' => ?_⟩
  refine Eff.Safe.mono (h ch hch hs') ?_
  rintro x σ' s' - ⟨hw, hQ⟩
  exact ⟨Writes.clock.trans hw, hQ⟩

/-- Deleting records: those that are deleted are gone, if all goes well. -/
theorem quiet_deleteAll {keys : List Bytes} (hI : Unrecorded p I) (hs : (solo ext ok p I).Inv s)
    (hK : ∀ key ∈ keys, K key) :
    Quiet ext ok p I K (deleteAll keys)
      (fun x σ' s' => σ' = σ ∧ s'.clock = s.clock ∧
        (∀ key val, (s'.model p).view.records.find? key = some val →
          (s.model p).view.records.find? key = some val ∧ (x = .ok () → key ∉ keys))) σ s := by
  induction keys generalizing s with
  | nil => exact .pure ⟨rfl, rfl, fun key val h => ⟨h, fun _ => nofun⟩⟩
  | cons key keys ih =>
    unfold deleteAll
    refine Quiet.bind (P := fun x σ' s' => σ' = σ ∧
      WriteOutcome p ((s.model p).update (·.delRecord key)) s x s') hs
      (quiet_metaDel hI hs (hK _ (.head _)) fun x s' hx => ⟨rfl, hx⟩) ?_ ?_
    · rintro _ σ₁ s₁ hs₁ - ⟨rfl, hx⟩
      have hrec : (s₁.model p).view.records = (s.model p).view.records.erase key ∧
          s₁.clock = s.clock := by
        rcases hx with ⟨-, rfl⟩ | ⟨e, he, -⟩
        · rw [Sys.model_setModel, Model.view_update, Store.delRecord]
          exact ⟨rfl, rfl⟩
        · cases he
      refine (ih hs₁ fun k hk => hK k (.tail _ hk)).mono (fun _ h => h) ?_
      rintro x σ' s' - - ⟨rfl, hclock, h⟩
      refine ⟨rfl, hclock.trans hrec.2, fun k val hk => ?_⟩
      obtain ⟨hk₁, hnot⟩ := h k val hk
      rw [hrec.1, SortedMap.find?_erase] at hk₁
      split at hk₁
      · cases hk₁
      · next hne =>
        refine ⟨hk₁, fun hx hmem => ?_⟩
        rcases List.mem_cons.1 hmem with rfl | hmem
        · exact hne rfl
        · exact hnot hx hmem
    · rintro e σ₁ s₁ - ⟨rfl, ⟨he, -⟩ | ⟨e', -, rfl⟩⟩
      · cases he
      · exact ⟨rfl, rfl, fun k val hk => ⟨hk, nofun⟩⟩

/-! ## Stamps -/

/-- The records when the queued touches are written. -/
def flushed (σ : Pending) (records : SortedMap Bytes Bytes) : SortedMap Bytes Bytes :=
  σ.foldl (fun records touch => records.insert touch.1 (be64 touch.2)) records

/-- A flush leaves records alone that have no touch. -/
theorem find?_flushed {σ : Pending} {records : SortedMap Bytes Bytes} {key : Bytes}
    (h : ∀ touch ∈ σ, touch.1 ≠ key) : (flushed σ records).find? key = records.find? key := by
  induction σ generalizing records with
  | nil => rfl
  | cons touch σ ih =>
    refine (ih fun t ht => h t (.tail _ ht)).trans ?_
    rw [SortedMap.find?_insert, if_neg (h touch (.head _))]

/-- The last touch is written last. -/
theorem flushed_append (σ : Pending) (key : Bytes) (stamp : Nat) (records : SortedMap Bytes Bytes) :
    flushed (σ ++ [(key, stamp)]) records = (flushed σ records).insert key (be64 stamp) := by
  unfold flushed
  rw [List.foldl_append]
  rfl

/-- The queued touches were written. If a write fails, some are lost. -/
def Touched {α : Type} (ok : Call → Sys → Choice → Prop) (p : Nat) (σ : Pending) (s : Sys)
    (x : Except Err α) (s' : Sys) : Prop :=
  s'.clock = s.clock ∧ (PutsWork ok ∨ (∃ a, x = .ok a) →
    (s'.model p).view.records = flushed σ (s.model p).view.records)

/-- The touches are written one by one, and the first that fails ends it. -/
theorem quiet_writeTouches {batch : Pending} (hI : Unrecorded p I) (hs : (solo ext ok p I).Inv s)
    (hK : ∀ touch ∈ batch, K touch.1) :
    Quiet ext ok p I K (writeTouches batch) (fun x σ' s' => σ' = σ ∧ Touched ok p batch s x s')
      σ s := by
  induction batch generalizing s with
  | nil => exact .pure ⟨rfl, rfl, fun _ => rfl⟩
  | cons touch batch ih =>
    obtain ⟨key, stamp⟩ := touch
    unfold writeTouches
    refine Quiet.bind (P := fun x σ' s' => σ' = σ ∧
      WriteOutcome p ((s.model p).update (·.putRecord key (be64 stamp))) s x s' ∧
      (PutsWork ok → x = .ok ())) hs
      (quiet_metaPut hI hs (hK _ (.head _)) fun x s' hx hok => ⟨rfl, hx, hok⟩) ?_ ?_
    · rintro _ σ₁ s₁ hs₁ - ⟨rfl, hx, -⟩
      rcases hx with ⟨-, rfl⟩ | ⟨e, he, -⟩
      · refine (ih hs₁ fun k hk => hK k (.tail _ hk)).mono (fun _ h => h) ?_
        rintro x σ' s' - - ⟨rfl, hclock, h⟩
        refine ⟨rfl, hclock, fun hx => ?_⟩
        rw [h hx, Sys.model_setModel, Model.view_update]
        rfl
      · cases he
    · rintro e σ₁ s₁ - ⟨rfl, ⟨he, -⟩ | ⟨e', -, rfl⟩, hok⟩
      · cases he
      · refine ⟨rfl, rfl, ?_⟩
        rintro (hworks | ⟨a, ha⟩)
        · cases hok hworks
        · cases ha

/-- `flush_touches` takes the queue and writes it. -/
theorem quiet_flushTouches (hI : Unrecorded p I) (hs : (solo ext ok p I).Inv s)
    (hK : ∀ touch ∈ σ, K touch.1) :
    Quiet ext ok p I K flushTouches (fun x σ' s' => σ' = [] ∧ Touched ok p σ s x s') σ s := by
  unfold flushTouches
  refine Eff.Safe.get (Eff.Safe.modify ?_)
  exact quiet_writeTouches hI hs hK

theorem quiet_sync (hI : Unrecorded p I) (hs : (solo ext ok p I).Inv s)
    (hK : ∀ touch ∈ σ, K touch.1) :
    Quiet ext ok p I K sync (fun x σ' s' => σ' = [] ∧ Touched ok p σ s x s') σ s := by
  unfold sync
  refine Quiet.bind hs (quiet_flushTouches hI hs hK) ?_ ?_
  · rintro b σ₁ s₁ hs₁ - ⟨rfl, hclock, hrec⟩
    refine quiet_casSync hI hs₁ fun x s' hx => ⟨rfl, ?_, fun _ => ?_⟩
    · rcases hx with ⟨-, rfl⟩ | ⟨e, -, rfl⟩ <;> exact hclock
    · rw [← hrec (.inr ⟨b, rfl⟩)]
      rcases hx with ⟨-, rfl⟩ | ⟨e, -, rfl⟩
      · rw [Sys.model_setModel]
        rfl
      · rfl
  · rintro e σ₁ s₁ - ⟨rfl, hclock, hrec⟩
    refine ⟨rfl, hclock, fun h => hrec (h.imp_right ?_)⟩
    rintro ⟨a, ha⟩
    cases ha

/-- Registering a root, at the time it is. -/
theorem quiet_registerRoot {root : Bytes} {tree : Bool} (hI : Unrecorded p I)
    (hs : (solo ext ok p I).Inv s) (hK : K (rootKey root tree)) :
    Quiet ext ok p I K (registerRoot root tree)
      (fun x σ' s' => σ' = σ ∧ (∃ ch, ok .now s ch ∧ s'.clock = ch.clock) ∧
        (x = .ok () ∧ (s'.model p).view.records =
            (s.model p).view.records.insert (rootKey root tree) (be64 s'.clock) ∨
          (∃ e, x = .error e) ∧ (s'.model p).view.records = (s.model p).view.records)) σ s := by
  unfold registerRoot
  refine quiet_nowNs hI hs fun ch hch hs₁ => quiet_metaPut hI hs₁ hK fun x s' hx _ => ?_
  rcases hx with ⟨rfl, rfl⟩ | ⟨e, rfl, rfl⟩
  · refine ⟨rfl, ⟨ch, hch, rfl⟩, .inl ⟨rfl, ?_⟩⟩
    rw [Sys.model_setModel, Model.view_update]
    rfl
  · exact ⟨rfl, ⟨ch, hch, rfl⟩, .inr ⟨⟨e, rfl⟩, rfl⟩⟩

/-- Touching a root queues a touch, if the record is due and none is queued. -/
theorem quiet_touchRoot {cfg : Config} {root : Bytes} {tree : Bool} (hI : Unrecorded p I)
    (hs : (solo ext ok p I).Inv s) :
    Quiet ext ok p I K (touchRoot cfg root tree)
      (fun x σ' s' => (s'.model p).view.records = (s.model p).view.records ∧
        ((σ' = σ ∧ s' = s ∧ (x = .ok () → ∀ stamp, isTimestamp stamp = true →
            (s.model p).view.records.find? (rootKey root tree) ≠ some stamp)) ∨ ∃ ch stamp, ok .now s ch ∧ s'.clock = ch.clock ∧
          (s.model p).view.records.find? (rootKey root tree) = some stamp ∧
          σ' = if age ch.clock (rbe64 stamp) < cfg.touchInterval then σ
            else queueTouch (rootKey root tree) ch.clock σ)) σ s := by
  unfold touchRoot
  refine Quiet.bind (P := fun x σ' s' => σ' = σ ∧
    ReadOutcome ((s.model p).view.records.find? (rootKey root tree)) s x s') hs
    (quiet_metaGet hs fun x hx => ⟨rfl, hx⟩) ?_ ?_
  · rintro stamp σ₁ s₁ hs₁ - ⟨rfl, rfl, hx⟩
    have hstamp : (s₁.model p).view.records.find? (rootKey root tree) = stamp := by
      rcases hx with hx | ⟨e, hx⟩
      · exact (Except.ok.inj hx).symm
      · cases hx
    cases stamp with
    | none =>
      refine .pure ⟨rfl, .inl ⟨rfl, rfl, fun _ stamp _ hsome => ?_⟩⟩
      rw [hstamp] at hsome
      cases hsome
    | some stamp =>
      dsimp only
      split
      · next hnot =>
        refine .pure ⟨rfl, .inl ⟨rfl, rfl, fun _ stamp' hstamp' hsome => ?_⟩⟩
        rw [hstamp] at hsome
        cases hsome
        simp [hstamp'] at hnot
      · refine quiet_nowNs hI hs₁ fun ch hch hs₂ => ?_
        split
        · next hage => exact .pure ⟨rfl, .inr ⟨ch, stamp, hch, rfl, hstamp, (if_pos hage).symm⟩⟩
        · next hage =>
          refine Eff.Safe.modify_last (safe_pure ⟨.refl _, rfl, .inr ⟨ch, stamp, hch, rfl, hstamp, ?_⟩⟩)
          exact (if_neg hage).symm
  · rintro e σ₁ s₁ - ⟨rfl, rfl, -⟩
    exact ⟨rfl, .inl ⟨rfl, rfl, nofun⟩⟩

/-- Of the records, only some that are in `K` were deleted. -/
structure Pruned (p : Nat) (K : Bytes → Prop) (s s' : Sys) : Prop where
  clock : s'.clock = s.clock
  sub : ∀ key val, (s'.model p).view.records.find? key = some val →
    (s.model p).view.records.find? key = some val
  frame : ∀ key, ¬K key →
    (s'.model p).view.records.find? key = (s.model p).view.records.find? key

/-- What is pruned twice is pruned. -/
theorem Pruned.trans {s₁ : Sys} (h : Pruned p K s s₁) (h' : Pruned p K s₁ s') : Pruned p K s s' where
  clock := h'.clock.trans h.clock
  sub key val hk := h.sub key val (h'.sub key val hk)
  frame key hk := (h'.frame key hk).trans (h.frame key hk)

/-- A record that expires at the time `now`. -/
def Expires (cfg : Config) (now : Nat) (p : Nat) (s : Sys) (key : Bytes) : Prop :=
  (∃ root tree, key = rootKey root tree) ∧
    ∃ val, (s.model p).view.records.find? key = some val ∧ expired cfg now val

/-- An expiry deletes expired records. -/
theorem quiet_expireRoots {cfg : Config} {tree : Bool} {now : Nat} (hI : Unrecorded p I)
    (hs : (solo ext ok p I).Inv s) (hK : ∀ key, Expires cfg now p s key → K key) :
    Quiet ext ok p I K (expireRoots cfg (if tree then treePrefix else blobPrefix) now)
      (fun _ σ' s' => σ' = σ ∧ Pruned p K s s') σ s := by
  unfold expireRoots
  refine Quiet.bind (P := fun x σ' s' => σ' = σ ∧ ReadOutcome
    ((s.model p).view.scan (if tree then treePrefix else blobPrefix)) s x s') hs
    (quiet_metaScan hs fun x hx => ⟨rfl, hx⟩) ?_ ?_
  · rintro records σ₁ s₁ hs₁ - ⟨rfl, rfl, hx⟩
    obtain rfl : records = _ := by
      rcases hx with hx | ⟨e, hx⟩
      · exact Except.ok.inj hx
      · cases hx
    refine Quiet.bind hs₁ (P := fun _ σ' s' => σ' = σ₁ ∧ Pruned p K s₁ s')
      ((quiet_deleteAll hI hs₁ (K := K) ?_).mono (fun _ h => h) ?_) ?_ ?_
    · intro key hkey
      obtain ⟨⟨key, val⟩, hmem, rfl⟩ := List.mem_map.1 hkey
      obtain ⟨hscan, hexp⟩ := List.mem_filter.1 hmem
      obtain ⟨hfind, rest, rfl⟩ := Store.mem_scan.1 hscan
      exact hK _ ⟨⟨rest, tree, rfl⟩, val, hfind, hexp⟩
    · rintro x σ' s' - hw ⟨rfl, hclock, h⟩
      exact ⟨rfl, hclock, fun key val hk => (h key val hk).1, hw.frame⟩
    · rintro _ σ₂ s₂ - - ⟨rfl, h⟩
      exact .pure ⟨rfl, h⟩
    · rintro e σ₂ s₂ - ⟨rfl, h⟩
      exact ⟨rfl, h⟩
  · rintro e σ₁ s₁ - ⟨rfl, rfl, -⟩
    exact ⟨rfl, rfl, fun _ _ h => h, fun _ _ => rfl⟩

/-- A pass at the time `now` has expired records: `records` are those after the flush. -/
structure Passed (cfg : Config) (p : Nat) (records : SortedMap Bytes Bytes) (now : Nat) (s' : Sys) :
    Prop where
  clock : s'.clock = now
  sub : ∀ key val, key ≠ lastGcKey → (s'.model p).view.records.find? key = some val →
    records.find? key = some val
  kept : ∀ key val, key ≠ lastGcKey → records.find? key = some val →
    ¬((∃ root tree, key = rootKey root tree) ∧ expired cfg now val) →
    (s'.model p).view.records.find? key = some val

/-- Deleting expired records belongs to a pass. -/
theorem Passed.pruned {cfg : Config} {records : SortedMap Bytes Bytes} {now : Nat}
    (h : Passed cfg p records now s) (hp : Pruned p (Expires cfg now p s) s s') :
    Passed cfg p records now s' where
  clock := hp.clock.trans h.clock
  sub key val hne hk := h.sub key val hne (hp.sub key val hk)
  kept key val hne hk hnot := by
    rw [hp.frame key ?_]
    · exact h.kept key val hne hk hnot
    · rintro ⟨hroot, val', hval', hexp⟩
      obtain rfl : val' = val := by
        have := h.sub key val' hne hval'
        rw [hk] at this
        exact (Option.some.inj this).symm
      exact hnot ⟨hroot, hexp⟩

theorem Passed.putLastGc {cfg : Config} {records : SortedMap Bytes Bytes} {now : Nat} {val : Bytes}
    {x : Except Err Unit} (h : Passed cfg p records now s)
    (hx : WriteOutcome p ((s.model p).update (·.putRecord lastGcKey val)) s x s') :
    Passed cfg p records now s' := by
  rcases hx with ⟨-, rfl⟩ | ⟨e, -, rfl⟩
  · have hw : Writes p (· = lastGcKey) s
        (s.setModel p ((s.model p).update (·.putRecord lastGcKey val))) := .putRecord rfl
    exact ⟨h.clock, fun key val hne hk => h.sub key val hne ((hw.frame key hne) ▸ hk),
      fun key val hne hk hnot => (hw.frame key hne).trans (h.kept key val hne hk hnot)⟩
  · exact h

/-- The expiry of one kind of roots belongs to a pass. -/
theorem quiet_expirePassed {cfg : Config} {records : SortedMap Bytes Bytes} {now : Nat} (tree : Bool)
    (hI : Unrecorded p I) (hs : (solo ext ok p I).Inv s)
    (hroot : ∀ root tree, K (rootKey root tree)) (h : Passed cfg p records now s) :
    Quiet ext ok p I K (expireRoots cfg (if tree then treePrefix else blobPrefix) now)
      (fun _ σ' s' => σ' = σ ∧ Passed cfg p records now s') σ s := by
  refine (quiet_expireRoots hI hs (K := Expires cfg now p s) fun _ h => h).mono ?_ ?_
  · rintro key ⟨⟨root, tree, rfl⟩, -⟩
    exact hroot root tree
  · rintro x σ' s' - - ⟨rfl, hp⟩
    exact ⟨rfl, h.pruned hp⟩

/-- A pass up to the expiry. -/
theorem quiet_expireAll {cfg : Config} (hI : Unrecorded p I) (hs : (solo ext ok p I).Inv s)
    (hσ : ∀ touch ∈ σ, K touch.1) (hgc : K lastGcKey) (hroot : ∀ root tree, K (rootKey root tree)) :
    Quiet ext ok p I K (expireAll cfg)
      (fun x σ' s' => σ' = [] ∧
        ((∃ e, x = .error e) ∧ Touched ok p σ s x s' ∨ ∃ ch s₀, ok .now s₀ ch ∧
          s₀.clock = s.clock ∧ Passed cfg p (flushed σ (s.model p).view.records) ch.clock s')) σ s := by
  unfold expireAll
  refine Quiet.bind hs (quiet_flushTouches hI hs hσ) ?_ ?_
  · rintro u σ₁ s₁ hs₁ - ⟨rfl, hclock₁, hrec₁⟩
    have hrec := hrec₁ (.inr ⟨u, rfl⟩)
    refine quiet_nowNs hI hs₁ fun ch hch hs₂ => ?_
    have h₂ : Passed cfg p (flushed σ (s.model p).view.records) ch.clock
        { s₁ with clock := ch.clock } := by
      refine ⟨rfl, fun key val _ hk => ?_, fun key val _ hk _ => ?_⟩
      · rw [← hrec]
        exact hk
      · rw [← hrec] at hk
        exact hk
    refine Quiet.mono (K := K) (Q := fun _ σ' s' => σ' = [] ∧
      Passed cfg p (flushed σ (s.model p).view.records) ch.clock s') ?_ (fun _ h => h) ?_
    · clear hrec hrec₁ hclock₁ hch
      generalize { s₁ with clock := ch.clock } = s₂ at h₂ hs₂ ⊢
      generalize ch.clock = now at h₂ ⊢
      generalize flushed σ (s.model p).view.records = records at h₂ ⊢
      refine Quiet.bind (P := fun _ σ' s' => σ' = [] ∧ s' = s₂) hs₂
        (quiet_metaGet hs₂ fun _ hx => ⟨rfl, hx.1⟩) ?_ ?_
      · rintro stamp σ₃ s₃ hs₃ - ⟨rfl, rfl⟩
        split
        · exact .pure ⟨rfl, h₂⟩
        refine Quiet.bind (P := fun _ σ' s' => σ' = [] ∧ Passed cfg p records now s') hs₃
          (quiet_metaPut hI hs₃ hgc fun x s' hx _ => ⟨rfl, ?_⟩) ?_ ?_
        · exact h₂.putLastGc hx
        · rintro _ σ₄ s₄ hs₄ - ⟨rfl, h₄⟩
          refine Quiet.bind (P := fun _ σ' s' => σ' = [] ∧ Passed cfg p records now s') hs₄
            (quiet_expirePassed true hI hs₄ hroot h₄) ?_ ?_
          · rintro n σ₅ s₅ hs₅ - ⟨rfl, h₅⟩
            refine Quiet.bind (P := fun _ σ' s' => σ' = [] ∧ Passed cfg p records now s') hs₅
              (quiet_expirePassed false hI hs₅ hroot h₅) ?_ ?_
            · rintro n' σ₆ s₆ - - ⟨rfl, h₆⟩
              exact .pure ⟨rfl, h₆⟩
            · exact fun _ _ _ _ h => h
          · exact fun _ _ _ _ h => h
        · exact fun _ _ _ _ h => h
      · rintro e σ₃ s₃ - ⟨rfl, rfl⟩
        exact ⟨rfl, h₂⟩
    · rintro x σ' s' - - ⟨rfl, h⟩
      exact ⟨rfl, .inr ⟨ch, s₁, hch, hclock₁, h⟩⟩
  · rintro e σ₁ s₁ - ⟨rfl, hclock, hrec⟩
    refine ⟨rfl, .inl ⟨⟨e, rfl⟩, hclock, fun h => hrec (h.imp_right ?_)⟩⟩
    rintro ⟨a, ha⟩
    cases ha

end

end Tarmac.Tree
