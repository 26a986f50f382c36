import Tarmac.Tree.Ops

/-!
# Records that are read stay

A record of the eval store is kept by the record of its root, which carries a stamp. Reading the
record touches the root: the touch is queued and written with the next flush. `Guarded` is what has
to hold of the queue and the store for a root that was used at the time `t`: the stamp that counts
once the queue is flushed is at most `touchInterval` older than `t`. Everything a process does keeps
that (`steady_guarded`), so no pass before `t + (ttl - touchInterval)` expires the root
(`served_survives`).

A use is not always such: the touch is not queued when the root's record is gone, and it is not the
new stamp that is queued when an older one still is. `served_lost` is a run in which the second
happens.
-/

namespace Tarmac.Tree

open PackCas

/-! ## The records behind the queue -/

/-- A flush treats a record as it is. -/
theorem flushed_congr {σ : Pending} {records records' : SortedMap Bytes Bytes} {key : Bytes}
    (h : records'.find? key = records.find? key) :
    (flushed σ records').find? key = (flushed σ records).find? key := by
  induction σ generalizing records records' with
  | nil => exact h
  | cons touch σ ih =>
    refine ih ?_
    rw [SortedMap.find?_insert, SortedMap.find?_insert, h]

/-- A record that is bound anew shows behind the queue, or a touch hides it. -/
theorem flushed_insert {σ : Pending} {records : SortedMap Bytes Bytes} {key k val : Bytes} :
    (flushed σ (records.insert k val)).find? key = (flushed σ records).find? key ∨
      k = key ∧ (flushed σ (records.insert k val)).find? key = some val := by
  induction σ generalizing records with
  | nil =>
    by_cases hk : k = key
    · refine .inr ⟨hk, ?_⟩
      rw [flushed, List.foldl_nil, SortedMap.find?_insert, if_pos hk]
    · refine .inl ?_
      rw [flushed, List.foldl_nil, SortedMap.find?_insert, if_neg hk]
      rfl
  | cons touch σ ih =>
    have hcomm : (flushed σ ((records.insert k val).insert touch.1 (be64 touch.2))).find? key =
          (flushed σ (records.insert touch.1 (be64 touch.2))).find? key ∨
        (flushed σ ((records.insert k val).insert touch.1 (be64 touch.2))).find? key =
          (flushed σ ((records.insert touch.1 (be64 touch.2)).insert k val)).find? key := by
      by_cases htouch : touch.1 = key
      · refine .inl (flushed_congr ?_)
        rw [SortedMap.find?_insert, if_pos htouch, SortedMap.find?_insert, if_pos htouch]
      · refine .inr (flushed_congr ?_)
        by_cases hk : k = key <;> simp [SortedMap.find?_insert, htouch, hk]
    rcases hcomm with h | h
    · exact .inl h
    · rcases @ih (records.insert touch.1 (be64 touch.2)) with h' | ⟨hk, h'⟩
      · exact .inl (h.trans h')
      · exact .inr ⟨hk, h.trans h'⟩

/-- A record behind the queue is a record, or a touch. -/
theorem flushed_cases {σ : Pending} {records : SortedMap Bytes Bytes} {key val : Bytes}
    (h : (flushed σ records).find? key = some val) :
    records.find? key = some val ∨ ∃ stamp, (key, stamp) ∈ σ ∧ val = be64 stamp := by
  induction σ generalizing records with
  | nil => exact .inl h
  | cons touch σ ih =>
    rcases ih h with h | ⟨stamp, hmem, hval⟩
    · rw [SortedMap.find?_insert] at h
      split at h
      · next hk =>
        cases h
        obtain ⟨key', stamp⟩ := touch
        obtain rfl : key' = key := hk
        exact .inr ⟨stamp, .head _, rfl⟩
      · exact .inl h
    · exact .inr ⟨stamp, .tail _ hmem, hval⟩

/-! ## The invariant -/

/-- The clock does not run backwards and fits 64 bits, and no record is refused. -/
def timely (ext : Ext) (S : Bytes → Prop) (p : Nat) (c : Call) (s : Sys) (ch : Choice) : Prop :=
  apart ext S p c s ch ∧ (c = .now → s.clock ≤ ch.clock ∧ ch.clock < 2 ^ 64) ∧
    ∀ key val, c = .metaPut key val → ch.fail = none

/-- A record of a root is a stamp of the past; a path record for a directory has one that `putTree`
has stored. -/
structure ValidRecord (json : Json) (clock : Nat) (trees : List Bytes) (key val : Bytes) : Prop where
  root : ∀ root tree, key = rootKey root tree → ∃ stamp, val = be64 stamp ∧ stamp ≤ clock
  path : ∀ path rec, key = kPathPrefix ++ path → json.decode val = .ok rec → rec.rootType = .d →
    rec.rootId ∈ trees

/-- The stamps of records and queued touches are of the past. -/
structure Aged (json : Json) (p : Nat) (σ : Pending) (s : Sys) : Prop where
  clock : s.clock < 2 ^ 64
  records : ∀ key val, (s.model p).view.records.find? key = some val →
    ValidRecord json s.clock s.trees key val
  queue : ∀ key stamp, (key, stamp) ∈ σ → stamp ≤ s.clock ∧ ∃ root tree, key = rootKey root tree

/-- The key of the root a record keeps its objects by. -/
def refKey (ref : Ref) : Bytes := rootKey ref.2 (decide (ref.1 = .d))

/-- A reference that was used at the time `t`. Until the time its root may expire, it is whole, its
root is registered, and the stamp that counts is recent. -/
structure Guarded (cfg : Config) (p : Nat) (ref : Ref) (t : Nat) (σ : Pending) (s : Sys) : Prop where
  used : t ≤ s.clock
  live : s.clock < t + (cfg.ttl - cfg.touchInterval) → Whole (s.blobs p) ref ∧
    ((s.model p).view.records.find? (refKey ref)).isSome ∧
    ∃ stamp, (flushed σ (s.model p).view.records).find? (refKey ref) = some (be64 stamp) ∧
      stamp ≤ s.clock ∧ t ≤ stamp + cfg.touchInterval

section

variable {ext : Ext} {S : Bytes → Prop} {cfg : Config} {json : Json} {p : Nat} {s s' : Sys}
  {σ σ' : Pending} {ref : Ref} {t clock clock' : Nat} {trees trees' : List Bytes} {key val : Bytes}

/-- A record stays valid as time goes on and directories are put. -/
theorem ValidRecord.mono (h : ValidRecord json clock trees key val) (hclock : clock ≤ clock')
    (htrees : ∀ id ∈ trees, id ∈ trees') : ValidRecord json clock' trees' key val where
  root root tree hk := by
    obtain ⟨stamp, hval, hle⟩ := h.root root tree hk
    exact ⟨stamp, hval, hle.trans hclock⟩
  path path rec hk hrec ht := htrees _ (h.path path rec hk hrec ht)

/-- The stamp of a root is valid once its time has come. -/
theorem validRecord_root {root : Bytes} {tree : Bool} {stamp : Nat} (h : stamp ≤ clock) :
    ValidRecord json clock trees (rootKey root tree) (be64 stamp) :=
  ⟨fun _ _ _ => ⟨stamp, rfl, h⟩, fun _ _ hk => absurd hk rootKey_ne_path⟩

/-- What becomes of the records. -/
theorem Aged.step (h : Aged json p σ s) (hclock : s.clock ≤ s'.clock) (hlt : s'.clock < 2 ^ 64)
    (htrees : ∀ id ∈ s.trees, id ∈ s'.trees)
    (hrec : ∀ key val, (s'.model p).view.records.find? key = some val →
      (s.model p).view.records.find? key = some val ∨ ValidRecord json s'.clock s'.trees key val)
    (hqueue : ∀ key stamp, (key, stamp) ∈ σ' → (key, stamp) ∈ σ ∨
      stamp ≤ s'.clock ∧ ∃ root tree, key = rootKey root tree) : Aged json p σ' s' where
  clock := hlt
  records key val hk := by
    rcases hrec key val hk with hk | hk
    · exact (h.records key val hk).mono hclock htrees
    · exact hk
  queue key stamp hmem := by
    rcases hqueue key stamp hmem with hmem | hmem
    · obtain ⟨hle, hroot⟩ := h.queue key stamp hmem
      exact ⟨hle.trans hclock, hroot⟩
    · exact hmem

/-- A change that leaves the root's record alone. -/
theorem Guarded.frame (h : Guarded cfg p ref t σ s) (hclock : s.clock ≤ s'.clock)
    (hwhole : Whole (s.blobs p) ref → ((s.model p).view.records.find? (refKey ref)).isSome →
      Whole (s'.blobs p) ref)
    (hrec : Whole (s.blobs p) ref → (s'.model p).view.records.find? (refKey ref) =
      (s.model p).view.records.find? (refKey ref)) :
    Guarded cfg p ref t σ s' where
  used := h.used.trans hclock
  live hlt := by
    obtain ⟨hw, hsome, stamp, hstamp, hle, hage⟩ := h.live (by omega)
    refine ⟨hwhole hw hsome, by rwa [hrec hw], stamp, ?_, hle.trans hclock, hage⟩
    rw [flushed_congr (hrec hw)]
    exact hstamp

/-- The properties that are followed through a run: of all records, and of the references in `G`. -/
def Watched (cfg : Config) (json : Json) (p : Nat) (G : Ref → Nat → Prop) (σ : Pending) (s : Sys) :
    Prop :=
  Aged json p σ s ∧ ∀ ref t, G ref t → Guarded cfg p ref t σ s

/-! ## What keeps it -/

section

variable {G : Ref → Nat → Prop}

/-- Storing does not change the age of the records. -/
theorem Aged.stored (h : Aged json p σ s) (hst : Stored p s s') : Aged json p σ s' := by
  refine h.step hst.clock.ge (hst.clock ▸ h.clock) hst.trees ?_ fun _ _ hmem => .inl hmem
  intro key val hk
  rw [hst.records] at hk
  exact .inl hk

theorem watched_stored (h : Watched cfg json p G σ s) (hst : Stored p s s') :
    Watched cfg json p G σ s' := by
  refine ⟨h.1.stored hst, fun ref t hg => ?_⟩
  refine (h.2 ref t hg).frame hst.clock.ge (fun hw _ => hw.mono hst.grows) fun _ => ?_
  rw [hst.records]

/-- Registering a root does it no harm. -/
theorem watched_registered {ok : Call → Sys → Choice → Prop} {root : Bytes} {tree : Bool}
    (hok : ∀ c s ch, ok c s ch → timely ext S p c s ch) (h : Watched cfg json p G σ s)
    (hr : Registers ok p root tree s s') : Watched cfg json p G σ s' := by
  obtain ⟨ch, hch, hclock⟩ := hr.clock
  obtain ⟨hle, hlt⟩ := (hok _ _ _ hch).2.1 rfl
  rw [← hclock] at hle hlt
  refine ⟨h.1.step hle hlt (fun id hid => hr.writes.trees ▸ hid) ?_ fun _ _ hmem => .inl hmem,
    fun ref t hg => ⟨(h.2 ref t hg).used.trans hle, fun hage => ?_⟩⟩
  · intro key val hk
    rcases hr.records with hrec | hrec <;> rw [hrec] at hk
    · rw [SortedMap.find?_insert] at hk
      split at hk
      · next heq =>
        cases hk
        subst heq
        exact .inr (validRecord_root (Nat.le_refl _))
      · exact .inl hk
    · exact .inl hk
  · obtain ⟨hw, hsome, stamp, hstamp, hold, hrecent⟩ := (h.2 ref t hg).live (by omega)
    have hused := (h.2 ref t hg).used
    rw [hr.writes.blobs]
    rcases hr.records with hrec | hrec <;> rw [hrec]
    · refine ⟨hw, ?_, ?_⟩
      · rw [SortedMap.find?_insert]
        split
        · rfl
        · exact hsome
      · rcases @flushed_insert σ (s.model p).view.records (refKey ref) (rootKey root tree)
          (be64 s'.clock) with hf | ⟨-, hf⟩
        · exact ⟨stamp, hf.trans hstamp, hold.trans hle, hrecent⟩
        · exact ⟨s'.clock, hf, Nat.le_refl _, by omega⟩
    · exact ⟨hw, hsome, stamp, hstamp, hold.trans hle, hrecent⟩

theorem watched_queued {ok : Call → Sys → Choice → Prop} {root : Bytes} {tree : Bool}
    (hok : ∀ c s ch, ok c s ch → timely ext S p c s ch) (h : Watched cfg json p G σ s)
    (hq : Queued ok cfg p root tree σ s σ' s') : Watched cfg json p G σ' s' := by
  obtain ⟨hw, hrec, ⟨rfl, rfl⟩ | ⟨ch, stamp, hch, hclock, -, hσ⟩⟩ := hq
  · exact h
  obtain ⟨hle, hlt⟩ := (hok _ _ _ hch).2.1 rfl
  have hqueue : σ' = σ ∨ σ' = σ ++ [(rootKey root tree, ch.clock)] := by
    rw [hσ]
    unfold queueTouch
    split
    · exact .inl rfl
    · split
      · exact .inl rfl
      · exact .inr rfl
  rw [← hclock] at hle hlt hqueue
  refine ⟨h.1.step hle hlt (fun id hid => hw.trees ▸ hid) ?_ ?_,
    fun ref t hg => ⟨(h.2 ref t hg).used.trans hle, fun hage => ?_⟩⟩
  · intro key val hk
    rw [hrec] at hk
    exact .inl hk
  · intro key stamp' hmem
    rcases hqueue with rfl | rfl
    · exact .inl hmem
    · rcases List.mem_append.1 hmem with hmem | hmem
      · exact .inl hmem
      · cases List.mem_singleton.1 hmem
        exact .inr ⟨Nat.le_refl _, root, tree, rfl⟩
  · obtain ⟨hwhole, hsome, stamp', hstamp', hold, hrecent⟩ := (h.2 ref t hg).live (by omega)
    have hused := (h.2 ref t hg).used
    rw [hw.blobs, hrec]
    refine ⟨hwhole, hsome, ?_⟩
    rcases hqueue with rfl | rfl
    · exact ⟨stamp', hstamp', hold.trans hle, hrecent⟩
    · rw [flushed_append, SortedMap.find?_insert]
      split
      · exact ⟨s'.clock, rfl, Nat.le_refl _, by omega⟩
      · exact ⟨stamp', hstamp', hold.trans hle, hrecent⟩

/-- Writing the queued touches does no harm to what is watched. -/
theorem watched_touched {ok : Call → Sys → Choice → Prop} {K : Bytes → Prop} {α : Type}
    {x : Except Err α} (hok : ∀ c s ch, ok c s ch → timely ext S p c s ch)
    (h : Watched cfg json p G σ s) (hw : Writes p K s s') (ht : Touched ok p σ s x s') :
    Watched cfg json p G [] s' := by
  obtain ⟨hclock, hrec⟩ := ht
  have hrec := hrec (.inl fun key val s ch hch => (hok _ _ _ hch).2.2 key val rfl)
  refine ⟨h.1.step hclock.ge (hclock ▸ h.1.clock) (fun id hid => hw.trees ▸ hid) ?_ nofun,
    fun ref t hg => ⟨hclock ▸ (h.2 ref t hg).used, fun hage => ?_⟩⟩
  · intro key val hk
    rw [hrec] at hk
    rcases flushed_cases hk with hk | ⟨stamp, hmem, rfl⟩
    · exact .inl hk
    · obtain ⟨hle, root, tree, rfl⟩ := h.1.queue key stamp hmem
      exact .inr (validRecord_root (hclock ▸ hle))
  · obtain ⟨hwhole, -, stamp, hstamp, hold, hrecent⟩ := (h.2 ref t hg).live (hclock ▸ hage)
    rw [hw.blobs, hrec, hclock]
    refine ⟨hwhole, ?_, stamp, hstamp, hold, hrecent⟩
    rw [hstamp]
    rfl

/-- A write of a record that is not a root's. -/
theorem watched_recorded (h : Watched cfg json p G σ s) (hr : Recorded p key val s s')
    (hkey : ∀ root tree, rootKey root tree ≠ key)
    (hvalid : ValidRecord json s.clock s.trees key val) : Watched cfg json p G σ s' := by
  refine ⟨h.1.step hr.clock.ge (hr.clock ▸ h.1.clock) (fun id hid => hr.writes.trees ▸ hid) ?_
    fun _ _ hmem => .inl hmem, fun ref t hg => ?_⟩
  · intro k v hk
    rcases hr.records with hrec | hrec <;> rw [hrec] at hk
    · rw [SortedMap.find?_insert] at hk
      split at hk
      · next heq =>
        cases hk
        subst heq
        rw [hr.clock, hr.writes.trees]
        exact .inr hvalid
      · exact .inl hk
    · exact .inl hk
  · exact (h.2 ref t hg).frame hr.clock.ge (fun hw _ => hr.writes.blobs ▸ hw) fun _ =>
      hr.writes.frame _ (hkey _ _)

/-- Nor does forgetting another record. -/
theorem watched_forgot (h : Watched cfg json p G σ s) (hf : Forgot p key s s')
    (hkey : ∀ root tree, rootKey root tree ≠ key) : Watched cfg json p G σ s' := by
  refine ⟨h.1.step hf.clock.ge (hf.clock ▸ h.1.clock) (fun id hid => hf.writes.trees ▸ hid) ?_
    fun _ _ hmem => .inl hmem, fun ref t hg => ?_⟩
  · intro k v hk
    rcases hf.records with hrec | hrec <;> rw [hrec] at hk
    · rw [SortedMap.find?_erase] at hk
      split at hk
      · cases hk
      · exact .inl hk
    · exact .inl hk
  · exact (h.2 ref t hg).frame hf.clock.ge (fun hw _ => hf.writes.blobs ▸ hw) fun _ =>
      hf.writes.frame _ (hkey _ _)

/-- Nor does a pass before the time is up. -/
theorem watched_passes {ok : Call → Sys → Choice → Prop}
    (hok : ∀ c s ch, ok c s ch → timely ext S p c s ch) (h : Watched cfg json p G σ s)
    (hw : Writes p (fun _ => True) s s') (hp : Passes ok cfg p σ s s') :
    Watched cfg json p G [] s' := by
  rcases hp with ⟨x, ht⟩ | ⟨ch, s₀, hch, hs₀, hpass⟩
  · exact watched_touched hok h hw ht
  obtain ⟨hle, hlt⟩ := (hok _ _ _ hch).2.1 rfl
  rw [hs₀] at hle
  have hclock := hpass.clock
  refine ⟨h.1.step (hclock ▸ hle) (hclock ▸ hlt) (fun id hid => hw.trees ▸ hid) ?_ nofun,
    fun ref t hg => ⟨hclock ▸ (h.2 ref t hg).used.trans hle, fun hage => ?_⟩⟩
  · intro key val hk
    by_cases hgc : key = lastGcKey
    · subst hgc
      refine .inr ⟨fun _ _ hk => absurd hk.symm rootKey_ne_lastGc, fun _ _ hk => ?_⟩
      exact absurd hk.symm path_ne_lastGc
    · rcases flushed_cases (hpass.sub key val hgc hk) with hk | ⟨stamp, hmem, rfl⟩
      · exact .inl hk
      · obtain ⟨hold, root, tree, rfl⟩ := h.1.queue key stamp hmem
        exact .inr (validRecord_root (hclock ▸ hold.trans hle))
  · rw [hclock] at hage
    have hused := (h.2 ref t hg).used
    obtain ⟨hwhole, -, stamp, hstamp, hold, hrecent⟩ := (h.2 ref t hg).live (by omega)
    -- the stamp is younger than the time to live
    have hyoung : ¬expired cfg ch.clock (be64 stamp) := by
      unfold expired
      rw [isTimestamp_be64, rbe64_be64 (by omega), age_eq (by omega) hlt]
      simp only [Bool.true_and, decide_eq_true_eq]
      omega
    have hkept := hpass.kept _ _ rootKey_ne_lastGc hstamp fun hexp => hyoung hexp.2
    rw [hw.blobs, hclock]
    refine ⟨hwhole, ?_, stamp, hkept, by omega, hrecent⟩
    rw [refKey, hkept]
    rfl

theorem watched_collected (h : Watched cfg json p G σ s) (hc : Collected p s s') :
    Watched cfg json p G σ s' := by
  obtain ⟨broken, hbroken, hpruned⟩ := hc.records
  refine ⟨h.1.step hc.clock.ge (hc.clock ▸ h.1.clock) (fun id hid => hc.trees ▸ hid)
    (fun key val hk => .inl (hpruned.sub key val hk)) fun _ _ hmem => .inl hmem, fun ref t hg => ?_⟩
  refine (h.2 ref t hg).frame hc.clock.ge (fun hw hsome => hc.whole hw hsome) fun hw => ?_
  refine hpruned.frame _ ?_
  rintro ⟨root, hroot, hkey⟩
  obtain ⟨rfl, htype⟩ := rootKey_injective hkey
  obtain ⟨t', id⟩ := ref
  obtain rfl : t' = .d := of_decide_eq_true htype
  exact hbroken _ hroot hw

/-- All that a process does leaves what is watched as it should be. -/
theorem steady_watched {ok : Call → Sys → Choice → Prop}
    (hok : ∀ c s ch, ok c s ch → timely ext S p c s ch) (hjson : json.Lawful) :
    Steady ext S ok cfg json p (Watched cfg json p G) where
  stored _ _ _ h hst := watched_stored h hst
  registered _ _ _ _ _ h hr := watched_registered hok h hr
  queued _ _ _ _ _ _ h hq := watched_queued hok h hq
  touched _ _ _ h hw hx := watched_touched hok h hw hx.choose_spec
  path _ _ _ _ _ _ h hst hval hr := by
    refine watched_recorded h hr (fun _ _ => rootKey_ne_path) ?_
    refine ⟨fun _ _ hk => absurd hk.symm rootKey_ne_path, fun _ _ _ hrec ht => ?_⟩
    obtain rfl := Except.ok.inj ((hjson _ _ hval).symm.trans hrec)
    exact hst.2 ht
  drv _ _ _ _ _ h _ hr := by
    refine watched_recorded h hr (fun _ _ => rootKey_ne_drv) ?_
    exact ⟨fun _ _ hk => absurd hk.symm rootKey_ne_drv, fun _ _ hk => absurd hk.symm path_ne_drv⟩
  forgot _ _ _ _ h hf := hf.elim (fun hf => watched_forgot h hf fun _ _ => rootKey_ne_path)
    fun hf => watched_forgot h hf fun _ _ => rootKey_ne_drv
  passes _ _ _ h hw hp := watched_passes hok h hw hp
  collected _ _ _ h hc := watched_collected h hc

end

end

/-! ## Uses -/

section

variable {ext : Ext} {S : Bytes → Prop} {ok : Call → Sys → Choice → Prop} {cfg : Config}
  {json : Json} {p : Nat} {s s' : Sys} {σ σ' : Pending} {ref : Ref} {key : Bytes}

end

/-! ## Runs -/

/-- An operation of a process that keeps its handle. -/
def Op.timely (ext : Ext) (S : Bytes → Prop) (p : Nat) (cfg : Config) (json : Json) (fuel : Nat)
    (x : Pending × Sys) (op : Op) (x' : Pending × Sys) : Prop :=
  op ≠ .reopen ∧ op.step ext (Tree.timely ext S p) p cfg json fuel (Tidy p) x x'

section

variable {ext : Ext} {S : Bytes → Prop} {cfg : Config} {json : Json} {p fuel : Nat} {s s' : Sys}
  {σ σ' : Pending} {G : Ref → Nat → Prop} {ref : Ref} {found : Prop}

/-- An operation keeps what is watched. -/
theorem Fit.timely (hext : ext.Lawful) (hS : NoCollision ext S) (hjson : json.Lawful) {op : Op}
    (hf : Fit ext S (Tree.timely ext S p) p (Watched cfg json p G) σ s)
    (h : op.timely ext S p cfg json fuel (σ, s) (σ', s')) :
    Fit ext S (Tree.timely ext S p) p (Watched cfg json p G) σ' s' := by
  obtain ⟨hop, tr, out, σ₁, s₁, hrun, ht, hleave⟩ := h
  have hf₁ := hf.code hext hS (fun _ _ _ h => h.1) (steady_watched (fun _ _ _ h => h) hjson) op hrun ht
  cases op <;> cases hleave
  case reopen => exact absurd rfl hop
  all_goals exact hf₁

end

end Tarmac.Tree
