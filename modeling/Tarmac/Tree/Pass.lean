import Tarmac.Tree.Collect
import Tarmac.Tree.Expire

/-!
# A garbage collection pass

`maybeGc` in a process that has the directory to itself. A pass writes the queued touches, and unless
the last pass is too recent it stamps itself and deletes the expired roots (`passRecords`). When it has
deleted one (`passDue`), it collects. A collection keeps what a record that is left refers to
(`Linked`), which is said without the marker: what can be reached from a tree root, and the blob roots.

A collection deletes tree roots as well, but none that is whole. If all tree roots that are left are
whole, what is in the store after a pass is exactly what is linked (`gc_exact`). What it needs for that
is `Unmixed`: the marker visits an object once, so a directory it meets as a file first, or below a
root it gave up, is not walked.
-/

namespace Tarmac.Tree

open PackCas

/-! ## What a pass is to do -/

/-- The key of a root record. -/
def isRootKey (key : Bytes) : Bool := treePrefix.isPrefixOf key || blobPrefix.isPrefixOf key

/-- The records a pass at the time `now` leaves, before it collects. -/
def passRecords (cfg : Config) (now : Nat) (records : SortedMap Bytes Bytes) : SortedMap Bytes Bytes :=
  if gcRecent cfg now (records.find? lastGcKey) then records
  else (records.insert lastGcKey (be64 now)).filter fun key val => !(isRootKey key && expired cfg now val)

/-- A pass at the time `now` collects. -/
def passDue (cfg : Config) (now : Nat) (records : SortedMap Bytes Bytes) : Bool :=
  !gcRecent cfg now (records.find? lastGcKey) &&
    records.toList.any fun r => isRootKey r.1 && expired cfg now r.2

/-- The registered roots of a kind. -/
def rootsIn (tree : Bool) (records : SortedMap Bytes Bytes) : List Bytes :=
  rootsOf ((Store.mk (fun _ => none) records 0).scan (if tree then treePrefix else blobPrefix))

/-- A record refers to the object, or to a tree it is in. -/
def Linked (M : BlobMap) (records : SortedMap Bytes Bytes) (id : Bytes) : Prop :=
  id ∈ rootsIn false records ∨ ∃ root ∈ rootsIn true records, ∃ t, Reach M (.d, root) (t, id)

/-- A record refers to the object, or to a tree that it is in and that is whole. -/
def Anchored (M : BlobMap) (records : SortedMap Bytes Bytes) (id : Bytes) : Prop :=
  id ∈ rootsIn false records ∨
    ∃ root ∈ rootsIn true records, Whole M (.d, root) ∧ ∃ t, Reach M (.d, root) (t, id)

section

variable {records : SortedMap Bytes Bytes} {cfg : Config} {now : Nat} {key val root id : Bytes}
  {M : BlobMap} {tree : Bool}

/-- A root key is one of the two kinds. -/
theorem isRootKey_iff : isRootKey key = true ↔ ∃ root tree, key = rootKey root tree := by
  unfold isRootKey
  rw [Bool.or_eq_true, List.isPrefixOf_iff_prefix, List.isPrefixOf_iff_prefix]
  constructor
  · rintro (⟨root, rfl⟩ | ⟨root, rfl⟩)
    · exact ⟨root, true, rfl⟩
    · exact ⟨root, false, rfl⟩
  · rintro ⟨root, tree, rfl⟩
    cases tree with
    | true => exact .inl ⟨root, rfl⟩
    | false => exact .inr ⟨root, rfl⟩

/-- The stamp of the last collection is no root. -/
@[simp] theorem isRootKey_lastGc : isRootKey lastGcKey = false := by decide

/-- The roots are those of the root records. -/
theorem mem_rootsIn : root ∈ rootsIn tree records ↔ (records.find? (rootKey root tree)).isSome :=
  mem_rootsOf tree

/-- When the tree roots are whole, what is linked is anchored. -/
theorem Linked.anchored (hall : ∀ root ∈ rootsIn true records, Whole M (.d, root))
    (h : Linked M records id) : Anchored M records id := by
  rcases h with h | ⟨root, hroot, ht⟩
  · exact .inl h
  · exact .inr ⟨root, hroot, hall root hroot, ht⟩

/-- A pass is due when the last one is long ago and some root has expired. -/
theorem passDue_iff : passDue cfg now records = true ↔
    gcRecent cfg now (records.find? lastGcKey) = false ∧
      ∃ key val, records.find? key = some val ∧ isRootKey key = true ∧ expired cfg now val = true := by
  unfold passDue
  rw [Bool.and_eq_true, Bool.not_eq_true', List.any_eq_true]
  refine and_congr_right fun _ => ?_
  constructor
  · rintro ⟨⟨key, val⟩, hmem, h⟩
    rw [Bool.and_eq_true] at h
    exact ⟨key, val, SortedMap.mem_toList.1 hmem, h.1, h.2⟩
  · rintro ⟨key, val, hval, hkey, hexp⟩
    refine ⟨(key, val), SortedMap.mem_toList.2 hval, ?_⟩
    rw [Bool.and_eq_true]
    exact ⟨hkey, hexp⟩

end

/-! ## The expiry -/

section

variable {ext : Ext} {ok : Call → Sys → Choice → Prop} {p : Nat} {s : Sys} {σ : Pending}
  {cfg : Config} {now : Nat} {tree : Bool} {pre : Bytes} {records : SortedMap Bytes Bytes} {st st' : Store}

/-- What an expiry of the roots with the prefix `pre` leaves. -/
def unexpired (cfg : Config) (now : Nat) (pre : Bytes) (records : SortedMap Bytes Bytes) :
    SortedMap Bytes Bytes :=
  records.filter fun key val => !(pre.isPrefixOf key && expired cfg now val)

/-- What is left are the records that have not expired. -/
theorem find?_unexpired {key : Bytes} : (unexpired cfg now pre st.records).find? key =
    if key ∈ expiredKeys cfg now pre st then none else st.records.find? key := by
  unfold unexpired
  rw [SortedMap.find?_filter]
  by_cases hkey : key ∈ expiredKeys cfg now pre st
  · rw [if_pos hkey]
    obtain ⟨val, hval, hpre, hexp⟩ := mem_expiredKeys.1 hkey
    rw [hval, Option.filter_some, List.isPrefixOf_iff_prefix.2 hpre, hexp]
    rfl
  · rw [if_neg hkey]
    cases hval : st.records.find? key with
    | none => rfl
    | some val =>
      rw [Option.filter_some, if_pos]
      rw [Bool.not_eq_true', Bool.eq_false_iff, ne_eq, Bool.and_eq_true, List.isPrefixOf_iff_prefix]
      exact fun h => hkey (mem_expiredKeys.2 ⟨val, hval, h⟩)

/-- An expiry of the roots of a kind. -/
theorem quiet_expireKind (tree : Bool) (hs : (solo ext ok p fun _ => True).Inv s) :
    Quiet ext ok p (fun _ => True) (fun _ => True)
      (expireRoots cfg (if tree then treePrefix else blobPrefix) now)
      (fun x σ' s' => σ' = σ ∧ s'.clock = s.clock ∧ ∀ n, x = .ok n →
        n = (expiredKeys cfg now (if tree then treePrefix else blobPrefix) (s.model p).view).length ∧
        (s'.model p).view.records =
          unexpired cfg now (if tree then treePrefix else blobPrefix) (s.model p).view.records) σ s := by
  have hpruned : Quiet ext ok p (fun _ => True) (fun _ => True)
      (expireRoots cfg (if tree then treePrefix else blobPrefix) now)
      (fun _ σ' s' => σ' = σ ∧ Pruned p (fun _ => True) s s') σ s :=
    quiet_expireRoots unrecorded_true hs fun _ _ => trivial
  refine Eff.Safe.mono (Eff.Safe.and (quiet_expireRoots_ok hs) hpruned) ?_
  rintro x σ' s' - ⟨⟨hw, hdone⟩, hw', rfl, hp⟩
  refine ⟨hw', rfl, hp.clock, fun n hn => ⟨(hdone n hn).1, SortedMap.ext_find? fun key => ?_⟩⟩
  rw [find?_unexpired]
  by_cases hkey : key ∈ expiredKeys cfg now (if tree then treePrefix else blobPrefix) (s.model p).view
  · rw [if_pos hkey]
    exact (hdone n hn).2 key hkey
  · rw [if_neg hkey]
    exact hw.frame key hkey

/-- Both expiries. -/
theorem unexpired_both : unexpired cfg now blobPrefix (unexpired cfg now treePrefix records) =
    records.filter fun key val => !(isRootKey key && expired cfg now val) := by
  unfold unexpired isRootKey
  refine SortedMap.ext_find? fun key => ?_
  simp only [SortedMap.find?_filter, Option.filter_filter]
  refine congrArg (fun q => (records.find? key).filter q) (funext fun val => ?_)
  cases treePrefix.isPrefixOf key <;> cases blobPrefix.isPrefixOf key <;>
    cases expired cfg now val <;> rfl

/-- Something is deleted when something has expired. -/
theorem length_expiredKeys_ne : (expiredKeys cfg now pre st).length ≠ 0 ↔
    ∃ key val, st.records.find? key = some val ∧ pre <+: key ∧ expired cfg now val = true := by
  rw [ne_eq, List.length_eq_zero_iff]
  constructor
  · intro h
    obtain ⟨key, hkey⟩ := List.exists_mem_of_ne_nil _ h
    exact ⟨key, mem_expiredKeys.1 hkey⟩
  · rintro ⟨key, val, h⟩ hnil
    exact absurd (hnil ▸ mem_expiredKeys.2 ⟨val, h⟩) List.not_mem_nil

/-- Whether something expires is what the expiries return, taken together. -/
theorem expiredKeys_any (h : st'.records = unexpired cfg now treePrefix st.records) :
    decide ((expiredKeys cfg now treePrefix st).length + (expiredKeys cfg now blobPrefix st').length ≠ 0) =
      st.records.toList.any fun r => isRootKey r.1 && expired cfg now r.2 := by
  rw [Bool.eq_iff_iff, decide_eq_true_iff, List.any_eq_true, ne_eq, Nat.add_eq_zero_iff, not_and_or,
    ← ne_eq, ← ne_eq, length_expiredKeys_ne, length_expiredKeys_ne, h]
  simp only [Bool.and_eq_true]
  constructor
  · rintro (⟨key, val, hval, hpre, hexp⟩ | ⟨key, val, hval, hpre, hexp⟩)
    · refine ⟨(key, val), SortedMap.mem_toList.2 hval, ?_, hexp⟩
      obtain ⟨root, rfl⟩ := hpre
      exact isRootKey_iff.2 ⟨root, true, rfl⟩
    · unfold unexpired at hval
      rw [SortedMap.find?_filter, Option.filter_eq_some_iff] at hval
      refine ⟨(key, val), SortedMap.mem_toList.2 hval.1, ?_, hexp⟩
      obtain ⟨root, rfl⟩ := hpre
      exact isRootKey_iff.2 ⟨root, false, rfl⟩
  · rintro ⟨⟨key, val⟩, hmem, hkey, hexp⟩
    have hval := SortedMap.mem_toList.1 hmem
    obtain ⟨root, tree, rfl⟩ := isRootKey_iff.1 hkey
    cases tree with
    | true => exact .inl ⟨_, val, hval, ⟨root, rfl⟩, hexp⟩
    | false =>
      refine .inr ⟨rootKey root false, val, ?_, ⟨root, rfl⟩, hexp⟩
      unfold unexpired
      rw [SortedMap.find?_filter, hval, Option.filter_some, if_pos]
      rfl

/-- The stamp of the last pass does not expire. -/
theorem any_insert_lastGc {stamp : Bytes} :
    ((records.insert lastGcKey stamp).toList.any fun r => isRootKey r.1 && expired cfg now r.2) =
      records.toList.any fun r => isRootKey r.1 && expired cfg now r.2 := by
  have hne {key : Bytes} (hkey : isRootKey key = true) : lastGcKey ≠ key := by
    rintro rfl
    cases isRootKey_lastGc.symm.trans hkey
  rw [Bool.eq_iff_iff, List.any_eq_true, List.any_eq_true]
  simp only [Bool.and_eq_true]
  refine exists_congr fun r => and_congr_left fun h => ?_
  rw [SortedMap.mem_toList, SortedMap.mem_toList, SortedMap.find?_insert_of_ne (hne h.1)]

/-- A pass up to its collection. -/
theorem quiet_expireAll_ok (hs : (solo ext ok p fun _ => True).Inv s) :
    Quiet ext ok p (fun _ => True) (fun _ => True) (expireAll cfg)
      (fun x _ s' => ∀ due, x = .ok due →
        due = passDue cfg s'.clock (flushed σ (s.model p).view.records) ∧
        (s'.model p).view.records = passRecords cfg s'.clock (flushed σ (s.model p).view.records)) σ s := by
  unfold expireAll
  refine Quiet.bind hs (quiet_flushTouches unrecorded_true hs fun _ _ => trivial) ?_
    (fun e _ _ _ _ due hx => by cases hx)
  rintro u σ₁ s₁ hs₁ - ⟨rfl, -, hrec₁⟩
  have hrec := hrec₁ (.inr ⟨u, rfl⟩)
  rw [← hrec]
  clear hrec hrec₁
  refine quiet_nowNs unrecorded_true hs₁ fun ch hch hs₂ => ?_
  change Quiet _ _ _ _ _ _ (fun x _ s' => ∀ due, x = .ok due →
    due = passDue cfg s'.clock (Sys.model { s₁ with clock := ch.clock } p).view.records ∧
    (s'.model p).view.records =
      passRecords cfg s'.clock (Sys.model { s₁ with clock := ch.clock } p).view.records) _ _
  have hclock : ({ s₁ with clock := ch.clock } : Sys).clock = ch.clock := rfl
  generalize ({ s₁ with clock := ch.clock } : Sys) = s₂ at hs₂ hclock ⊢
  generalize ch.clock = now at hclock ⊢
  refine Quiet.bind (P := fun x σ' s' => s' = s₂ ∧
      ReadOutcome ((s₂.model p).view.records.find? lastGcKey) s₂ x s') hs₂
    (quiet_metaGet hs₂ fun _ hx => ⟨hx.1, hx⟩) ?_ (fun e _ _ _ _ due hx => by cases hx)
  rintro stamp σ₃ s₃ hs₃ - ⟨rfl, -, hx⟩
  obtain rfl : stamp = (s₃.model p).view.records.find? lastGcKey := by
    rcases hx with hx | ⟨e, hx⟩
    · exact Except.ok.inj hx
    · cases hx
  split
  · next hrecent =>
    refine .pure fun due hdue => ?_
    cases hdue
    rw [hclock, passDue, passRecords, hrecent]
    exact ⟨rfl, rfl⟩
  · next hrecent =>
    rw [Bool.not_eq_true] at hrecent
    refine Quiet.bind (P := fun x _ s' =>
        WriteOutcome p ((s₃.model p).update (·.putRecord lastGcKey (be64 now))) s₃ x s') hs₃
      (quiet_metaPut unrecorded_true hs₃ trivial fun x s' hx _ => hx) ?_
      (fun e _ _ _ _ due hx => by cases hx)
    rintro u₄ σ₄ s₄ hs₄ - hx
    have hrec₄ : (s₄.model p).view.records =
        (s₃.model p).view.records.insert lastGcKey (be64 now) ∧ s₄.clock = now := by
      rcases hx with ⟨-, rfl⟩ | ⟨e, he, -⟩
      · rw [Sys.model_setModel, Model.view_update]
        exact ⟨rfl, hclock⟩
      · cases he
    refine Quiet.bind hs₄ (quiet_expireKind true hs₄) ?_ (fun e _ _ _ _ due hx => by cases hx)
    rintro n σ₅ s₅ hs₅ - ⟨-, hclock₅, hdone₅⟩
    obtain ⟨hn, hrec₅⟩ := hdone₅ n rfl
    refine Quiet.bind hs₅ (quiet_expireKind false hs₅) ?_ (fun e _ _ _ _ due hx => by cases hx)
    rintro n' σ₆ s₆ hs₆ - ⟨-, hclock₆, hdone₆⟩
    obtain ⟨hn', hrec₆⟩ := hdone₆ n' rfl
    refine .pure fun due hdue => ?_
    cases hdue
    rw [hclock₆, hclock₅, hrec₄.2, hn, hn', hrec₆, hrec₅, hrec₄.1]
    unfold passDue passRecords
    rw [hrecent]
    refine ⟨?_, unexpired_both⟩
    rw [Bool.not_false, Bool.true_and, ← any_insert_lastGc, ← hrec₄.1]
    exact expiredKeys_any hrec₅

end

/-! ## The collection -/

/-- What a collection has made of an index and its records: `anchored` says what it spares, `linked` that it
spares nothing else. -/
structure Cleaned (M : BlobMap) (records : SortedMap Bytes Bytes) (M' : BlobMap)
    (records' : SortedMap Bytes Bytes) : Prop where
  anchored : ∀ id, Anchored M records id → M' id = M id
  linked : ∀ id d, M' id = some d → M id = some d ∧ Linked M records id
  sub : ∀ key val, records'.find? key = some val → records.find? key = some val
  frame : ∀ key, records'.find? key = records.find? key ∨
    ∃ root, key = rootKey root true ∧ ¬Whole M (.d, root)

section

variable {ext : Ext} {ok : Call → Sys → Choice → Prop} {p : Nat} {s s' : Sys} {σ : Pending}
  {M M' : BlobMap} {records records' : SortedMap Bytes Bytes} {fuel : Nat} {cfg : Config}

/-- Everything left is linked, and the whole of it is when the roots are whole. -/
theorem Cleaned.exact (h : Cleaned M records M' records')
    (hall : ∀ root ∈ rootsIn true records, Whole M (.d, root)) :
    records' = records ∧ ∀ id d, M' id = some d ↔ M id = some d ∧ Linked M records id := by
  refine ⟨SortedMap.ext_find? fun key => ?_, fun id d => ⟨h.linked id d, fun hid => ?_⟩⟩
  · rcases h.frame key with heq | ⟨root, rfl, hbroken⟩
    · exact heq
    · have hnone : records.find? (rootKey root true) = none := by
        rw [← Option.not_isSome_iff_eq_none, ← mem_rootsIn]
        exact fun hmem => hbroken (hall root hmem)
      rw [hnone]
      refine Option.eq_none_iff_forall_ne_some.2 fun val hval => ?_
      cases (h.sub _ val hval).symm.trans hnone
  · rw [h.anchored id (Linked.anchored hall hid.2)]
    exact hid.1

/-- A sweep of what was marked. -/
theorem Swept.cleaned {live broken : List Bytes} {keep : Bytes → Bool} (hM : Keyed (s.blobs p))
    (hU : Unmixed (s.blobs p) (treeRoots s p))
    (hm : markAll (s.blobs p) fuel (treeRoots s p) [] [] = some (live, broken))
    (h : Swept p live broken keep s s') :
    Cleaned (s.blobs p) (s.model p).view.records (s'.blobs p) (s'.model p).view.records := by
  obtain ⟨hmarked, hbroken⟩ := marked_treeRoots hM hU hm
  refine ⟨fun id hid => ?_, fun id d hd => ?_, h.records.sub, fun key => ?_⟩
  · have hkeep : keep id = true := by
      refine h.kept hM hmarked ?_
      rcases hid with hid | hid
      · exact .inl (mem_rootsIn.1 hid)
      · exact .inr hid
    rw [h.blobs, BlobMap.restrict, if_pos hkeep]
  · rw [h.blobs] at hd
    obtain ⟨hkeep, hd⟩ := restrict_eq_some.1 hd
    refine ⟨hd, ?_⟩
    rcases (h.keeps id).1 hkeep with hlive | hreg
    · exact .inr (hmarked.sound id hlive)
    · exact .inl (mem_rootsIn.2 hreg)
  · by_cases hkey : RootKeys broken key
    · obtain ⟨root, hroot, rfl⟩ := hkey
      exact .inr ⟨root, rfl, hbroken root hroot⟩
    · exact .inl (h.records.frame key hkey)

/-- What a pass at the time `now` has made of an index and its records. -/
structure PassDone (cfg : Config) (now : Nat) (M : BlobMap) (records : SortedMap Bytes Bytes)
    (M' : BlobMap) (records' : SortedMap Bytes Bytes) : Prop where
  idle : passDue cfg now records = false → M' = M ∧ records' = passRecords cfg now records
  due : passDue cfg now records = true → Unmixed M (rootsIn true (passRecords cfg now records)) →
    Cleaned M (passRecords cfg now records) M' records'

/-- A collection that returns has cleaned up, where the roots are unmixed. -/
theorem safe_collect_cleaned (hok : ReadsWork ok) (hs : (solo ext ok p fun _ => True).Inv s)
    (hM : Keyed (s.blobs p)) :
    Eff.Safe (solo ext ok p fun _ => True) (fun x _ s' => x = .ok () → s'.clock = s.clock ∧
      (Unmixed (s.blobs p) (rootsIn true (s.model p).view.records) →
        Cleaned (s.blobs p) (s.model p).view.records (s'.blobs p) (s'.model p).view.records))
      (collect fuel) σ s := by
  refine Eff.Safe.mono (safe_collect hok unrecorded_true hs fun _ _ _ _ _ _ => trivial) ?_
  rintro x σ' s' - ⟨-, ⟨⟨e, rfl⟩, -⟩ | ⟨-, live, broken, keep, hm, hsw⟩⟩ hx
  · cases hx
  · exact ⟨hsw.records.clock, fun hU => hsw.cleaned hM hU hm⟩

/-- A pass that returns. -/
theorem safe_maybeGc_ok (hok : ReadsWork ok) (hs : (solo ext ok p fun _ => True).Inv s)
    (hM : Keyed (s.blobs p)) :
    Eff.Safe (solo ext ok p fun _ => True) (fun x _ s' => x = .ok () →
      PassDone cfg s'.clock (s.blobs p) (flushed σ (s.model p).view.records) (s'.blobs p)
        (s'.model p).view.records) (maybeGc cfg fuel) σ s := by
  unfold maybeGc
  refine safe_bind hs (quiet_expireAll_ok hs) ?_ (fun e _ _ _ _ hx => by cases hx)
  rintro due σ₁ s₁ hs₁ ⟨hw, hdone⟩
  obtain ⟨hdue, hrec⟩ := hdone due rfl
  rw [← hw.blobs] at hM ⊢
  split
  · next hd =>
    refine Eff.Safe.mono (safe_collect_cleaned hok hs₁ hM) ?_
    rintro x σ' s' - h hx
    obtain ⟨hclock, hcleaned⟩ := h hx
    rw [hclock]
    refine ⟨fun hidle => ?_, fun _ hU => ?_⟩
    · rw [hdue, hidle] at hd
      cases hd
    · rw [hrec] at hcleaned
      exact hcleaned hU
  · next hd =>
    refine safe_pure fun _ => ⟨fun _ => ⟨rfl, hrec⟩, fun hdue' => ?_⟩
    rw [hdue'] at hdue
    exact absurd hdue hd

end

/-! ## A pass returns -/

section

variable {ext : Ext} {p : Nat} {s : Sys} {σ : Pending} {α β : Type} {m : TreeM α} {cfg : Config}
  {M : BlobMap} {fuel : Nat} {objects : List Bytes} {P : α → Sys → Prop} {Q : β → Sys → Prop}

/-- A process that is alone returns from every run of the program in which no call fails. -/
def ReturnsAlone (ext : Ext) (p : Nat) (m : TreeM α) (P : α → Sys → Prop) (σ : Pending) (s : Sys) : Prop :=
  ∀ tr x σ' s', Prog.Run (sem ext unfailing p) (m σ) s tr (x, σ') s' → ∃ a, x = .ok a ∧ P a s'

theorem ReturnsAlone.bind {f : α → TreeM β} (hm : ReturnsAlone ext p m P σ s)
    (hf : ∀ a σ' s', P a s' → ReturnsAlone ext p (f a) Q σ' s') : ReturnsAlone ext p (m >>= f) Q σ s := by
  intro tr x σ' s' hr
  obtain ⟨tr₁, ⟨y, σ₁⟩, s₁, tr₂, h₁, h₂, -⟩ := Prog.Run.bind_inv hr
  obtain ⟨a, rfl, ha⟩ := hm tr₁ y σ₁ s₁ h₁
  exact hf a σ₁ s₁ ha tr₂ x σ' s' h₂

/-- Nobody else has begun a batch after a run of a process alone. -/
theorem idle_run {ok : Call → Sys → Choice → Prop} {n : Prog sig α} {a : α} {s' : Sys}
    {tr : List (Tarmac.Event sig)} (hr : Prog.Run (sem ext ok p) n s tr a s') (hs : s.busy p = false) :
    s'.busy p = false := by
  induction hr with
  | ret => exact hs
  | call h _ ih =>
    obtain ⟨ch, -, hx⟩ := h
    exact ih (exec_busy hx hs)

/-- There are such runs. -/
theorem exists_run_alone (ext : Ext) (hs : s.busy p = false) (m : TreeM α) (σ : Pending) :
    ∃ tr x σ' s', Prog.Run (sem ext unfailing p) (m σ) s tr (x, σ') s' := by
  have hanswer (c : Call) (s : Sys) (hs : s.busy p = false) :
      ∃ r s', sem ext unfailing p c s r s' ∧ s'.busy p = false := by
    obtain ⟨r, s', hx⟩ : ∃ r s', exec ext p {} c s = some (r, s') := exists_exec c hs
    exact ⟨r, s', ⟨{}, rfl, hx⟩, exec_busy hx hs⟩
  obtain ⟨tr, ⟨x, σ'⟩, s', hr⟩ := Prog.exists_run (I := fun s : Sys => s.busy p = false) hanswer (m σ) hs
  exact ⟨tr, x, σ', s', hr⟩

/-- A program that puts objects, and reads and writes records, returns. -/
theorem Gives.returnsAlone {T : List (Tarmac.Event sig) → α → Prop} (hm : Gives ext True T m)
    (hs : s.busy p = false) : ReturnsAlone ext p m (fun _ s' => s'.busy p = false) σ s := by
  intro tr x σ' s' hr
  have hamid : Prog.Run (amid ext unfailing p) (m σ) s tr (x, σ') s' := hr.mono fun c w r w' h => ⟨w, h⟩
  obtain ⟨a, rfl⟩ := (hm.returnsUnfailing p σ s).2 tr x σ' s' hamid
  exact ⟨a, rfl, idle_run hr hs⟩

/-- `meta_get` comes through. -/
theorem gives_metaGet {key : Bytes} : Gives ext True (fun _ _ => True) (Cas.metaGet key) := by
  refine Eff.Returns.perform fun r hr => ?_
  exact Eff.Returns.ofExcept ⟨hr, fun _ _ => trivial⟩

/-- A value is settled. -/
theorem settled_ok {a : α} : Settled True (Except.ok a : Except Err α) := fun e he => by cases he

/-- `flush_touches` comes through. -/
theorem gives_flushTouches : Gives ext True (fun _ _ => True) flushTouches := by
  unfold flushTouches
  refine Gives.bind (P := fun _ _ => True) (fun _ => ⟨settled_ok, fun _ _ => trivial⟩) fun _ _ _ => ?_
  refine Gives.bind (P := fun _ _ => True) (fun _ => ⟨settled_ok, fun _ _ => trivial⟩) fun _ _ _ => ?_
  exact gives_writeTouches

theorem gives_expireAll : Gives ext True (fun _ _ => True) (expireAll cfg) := by
  unfold expireAll
  refine Gives.bind gives_flushTouches fun _ _ _ => ?_
  refine gives_nowNs.bind fun _ now _ => gives_metaGet.bind fun _ stamp _ => ?_
  split
  · exact .pure trivial
  · refine gives_metaPut.bind fun _ _ _ => gives_expireRoots.bind fun _ trees _ => ?_
    exact gives_expireRoots.bind fun _ blobs _ => .pure trivial

/-- The marking ends when there are as many rounds as there are objects. -/
theorem exists_markAll (hobjects : ∀ id, (M id).isSome → id ∈ objects) (hfuel : objects.length < fuel)
    (roots live broken : List Bytes) : ∃ r, markAll M fuel roots live broken = some r := by
  induction roots generalizing live broken with
  | nil => exact ⟨_, rfl⟩
  | cons root roots ih =>
    have hnodes (id : Bytes) (es : Mark.Edges Bytes) (h : edgesAt M id = .ok es) : id ∈ objects := by
      obtain ⟨es', hes', -⟩ := edgesAt_ok h
      obtain ⟨buf, hbuf, -⟩ := treeAt_ok hes'
      exact hobjects id (by rw [hbuf]; rfl)
    have hroot : ∃ r, markRoot M fuel root live = some r := by
      unfold markRoot
      split
      · exact ⟨_, rfl⟩
      · refine Mark.exists_run hnodes (List.nodup_singleton root) (fun a ha => ?_) hfuel
        rw [List.mem_singleton.1 ha]
        exact .head _
    obtain ⟨⟨live', out⟩, hr⟩ := hroot
    unfold markAll
    rw [hr]
    cases out with
    | ok => exact ih live' broken
    | error e => exact ih live' (broken ++ [root])

theorem returns_compact {live : Bytes → Bool} (hs : s.busy p = false) :
    ReturnsAlone ext p (Cas.compact live) (fun _ _ => True) σ s := by
  intro tr x σ' s' hr
  have hinv : (solo ext unfailing p fun _ => True).Inv s := ⟨hs, trivial⟩
  refine (solo_run hr hinv (Q := fun x _ _ => ∃ a, x = .ok a ∧ True) ?_).2
  refine safe_ask fun ch r s' hch hx => ⟨trivial, ?_⟩
  unfold exec at hx
  dsimp only at hx
  unfold Sys.write at hx
  rw [hs, show ch.fail = none from hch] at hx
  cases hx
  exact ⟨(), rfl, trivial⟩

/-- A collection returns. -/
theorem returns_collect (hs : s.busy p = false) (hobjects : ∀ id, (s.blobs p id).isSome → id ∈ objects)
    (hfuel : objects.length < fuel) : ReturnsAlone ext p (collect fuel) (fun _ _ => True) σ s := by
  have hscan : ReturnsAlone ext p (Cas.metaScan treePrefix) (fun _ s' => s' = s) σ s := by
    intro tr x σ' s' hr
    have hinv : (solo ext unfailing p fun _ => True).Inv s := ⟨hs, trivial⟩
    obtain ⟨-, heq⟩ := solo_run hr hinv (Q := fun _ _ s' => s' = s) (safe_metaScan hinv fun _ _ => rfl)
    obtain ⟨records, rfl, -⟩ := gives_metaScan.returnsAlone hs tr x σ' s' hr
    exact ⟨records, rfl, heq⟩
  have hmark {σ : Pending} (roots : List Bytes) : ReturnsAlone ext p (markRoots fuel roots [] [])
      (fun _ s' => s'.busy p = false) σ s := by
    intro tr x σ' s' hr
    have hworks : ReadsWork unfailing := fun _ _ _ h => h
    obtain ⟨-, -, -, hx⟩ :=
      solo_run (I := fun _ => True) hr ⟨hs, trivial⟩ (safe_markRoots hworks ⟨hs, trivial⟩)
    obtain ⟨r, hmarks⟩ := exists_markAll hobjects hfuel roots [] []
    rw [hmarks] at hx
    exact ⟨r, hx, idle_run hr hs⟩
  unfold collect
  refine hscan.bind ?_
  rintro records σ₁ _ rfl
  refine (hmark (rootsOf records)).bind fun marked σ₂ s₂ hs₂ => ?_
  unfold sweep
  refine (gives_deleteAll.returnsAlone hs₂).bind fun _ σ₃ s₃ hs₃ => ?_
  exact (gives_metaScan.returnsAlone hs₃).bind fun blobs σ₄ s₄ hs₄ => returns_compact hs₄

/-- A pass returns when there are more rounds than objects. -/
theorem returns_maybeGc (hs : s.busy p = false) (hobjects : ∀ id, (s.blobs p id).isSome → id ∈ objects)
    (hfuel : objects.length < fuel) : ReturnsAlone ext p (maybeGc cfg fuel) (fun _ _ => True) σ s := by
  unfold maybeGc
  refine ReturnsAlone.bind (P := fun _ s' => s'.busy p = false ∧ s'.blobs p = s.blobs p) ?_ ?_
  · intro tr x σ' s' hr
    obtain ⟨due, rfl, hs'⟩ := gives_expireAll.returnsAlone hs tr x σ' s' hr
    have hinv : (solo ext unfailing p fun _ => True).Inv s := ⟨hs, trivial⟩
    obtain ⟨-, hw, -⟩ := solo_run hr hinv (quiet_expireAll_ok hinv)
    exact ⟨due, rfl, hs', hw.blobs⟩
  · rintro due σ₁ s₁ ⟨hs₁, hblobs⟩
    split
    · exact returns_collect hs₁ (fun id hid => hobjects id (hblobs ▸ hid)) hfuel
    · intro tr x σ' s' hr
      cases hr
      exact ⟨(), rfl, trivial⟩

end

/-- What a pass that returns has done to the store of a process that is alone, whatever the queue and
the records are, when no read fails. It leaves the store as it is when nothing expired. Otherwise, when the
tree roots that are left are unmixed, it spares what is anchored by a root record that is left, and spares
nothing that is not linked; of the tree roots it deletes those that expired, and some that are not whole;
and if those that are left are whole, what is left is exactly what is linked. And it returns. -/
theorem gc_exact (ext : Ext) (cfg : Config) (p : Nat) (s : Sys) (σ : Pending) (hs : s.busy p = false)
    (hM : Keyed (s.blobs p)) :
    (∀ ok fuel tr σ' s', ReadsWork ok →
      Prog.Run (sem ext ok p) (maybeGc cfg fuel σ) s tr (.ok (), σ') s' →
      PassDone cfg s'.clock (s.blobs p) (flushed σ (s.model p).view.records) (s'.blobs p)
        (s'.model p).view.records ∧
      ∀ left, left = passRecords cfg s'.clock (flushed σ (s.model p).view.records) →
        passDue cfg s'.clock (flushed σ (s.model p).view.records) = true →
        Unmixed (s.blobs p) (rootsIn true left) →
        (∀ root ∈ rootsIn true left, Whole (s.blobs p) (.d, root)) →
        (s'.model p).view.records = left ∧
        ∀ id d, s'.blobs p id = some d ↔ s.blobs p id = some d ∧ Linked (s.blobs p) left id) ∧
    ∀ (objects : List Bytes) fuel, (∀ id, (s.blobs p id).isSome → id ∈ objects) → objects.length < fuel →
      ∃ tr σ' s', Prog.Run (sem ext unfailing p) (maybeGc cfg fuel σ) s tr (.ok (), σ') s' := by
  constructor
  · intro ok fuel tr σ' s' hok hr
    have hinv : (solo ext ok p fun _ => True).Inv s := ⟨hs, trivial⟩
    have hdone := (solo_run hr hinv (safe_maybeGc_ok hok hinv hM)).2 rfl
    refine ⟨hdone, ?_⟩
    rintro left rfl hdue hU hall
    exact (hdone.due hdue hU).exact hall
  · intro objects fuel hobjects hfuel
    obtain ⟨tr, x, σ', s', hr⟩ := exists_run_alone ext hs (maybeGc cfg fuel) σ
    obtain ⟨a, rfl, -⟩ := returns_maybeGc hs hobjects hfuel tr x σ' s' hr
    exact ⟨tr, σ', s', hr⟩

/-! ### A store with a spare blob -/

def keptDir : Bytes := List.replicate 32 1
def keptFile : Bytes := List.replicate 32 2
def spareFile : Bytes := List.replicate 32 3

/-- A directory with a file, and a blob. -/
def litterMap : BlobMap := fun id =>
  if id = keptDir then some (encodeTree [⟨[97], .leaf .r, keptFile⟩])
  else if id = keptFile then some [7]
  else if id = spareFile then some [9] else none

/-- The root of the directory has no stamp, the root of the blob has. -/
def litterSys : Sys :=
  { Sys.fresh with committed := ⟨litterMap, (SortedMap.empty.insert (rootKey keptDir true) []).insert
      (rootKey spareFile false) (be64 5), 0⟩ }

/-- The objects of the store. -/
theorem mem_litter {id : Bytes} (h : (litterMap id).isSome) : id ∈ [keptDir, keptFile, spareFile] := by
  unfold litterMap at h
  split at h
  · next heq => exact heq ▸ .head _
  · split at h
    · next heq => exact heq ▸ .tail _ (.head _)
    · split at h
      · next heq => exact heq ▸ .tail _ (.tail _ (.head _))
      · cases h

/-- Its directory is decoded. -/
theorem decode_litter :
    decodeTree (encodeTree [⟨[97], .leaf .r, keptFile⟩]) = .ok [⟨[97], .leaf .r, keptFile⟩] := by
  decide +kernel

/-- What the directory leads to. -/
theorem reach_litter {y : Ref} (h : Reach litterMap (.d, keptDir) y) :
    y = (.d, keptDir) ∨ y = (.leaf .r, keptFile) := by
  cases h with
  | refl => exact .inl rfl
  | @step _ buf es e _ hbuf hes he hrest =>
    have hbuf : some (encodeTree [⟨[97], .leaf .r, keptFile⟩]) = some buf := hbuf
    cases hbuf
    rw [decode_litter] at hes
    cases hes
    obtain rfl := List.mem_singleton.1 he
    cases hrest
    exact .inr rfl

/-- It is whole. -/
theorem whole_litter : Whole litterMap (.d, keptDir) := by
  intro y hy
  rcases reach_litter hy with rfl | rfl
  · exact ⟨_, rfl, fun _ => ⟨_, decode_litter⟩⟩
  · exact ⟨[7], rfl, fun h => by cases h⟩

/-- The records a pass leaves there, when everything that has a stamp is expired. -/
theorem left_litter {now : Nat} {key val : Bytes} (hkey : isRootKey key = true) :
    (passRecords ⟨0, 0, 0⟩ now litterSys.committed.records).find? key = some val ↔
      key = rootKey keptDir true ∧ val = [] := by
  have hgc : key ≠ lastGcKey := by
    rintro rfl
    cases isRootKey_lastGc.symm.trans hkey
  have hspare : expired ⟨0, 0, 0⟩ now (be64 5) = true := by
    unfold expired
    rw [Bool.and_eq_true]
    exact ⟨by decide, decide_eq_true (Nat.zero_le _)⟩
  have hrecent : gcRecent ⟨0, 0, 0⟩ now (litterSys.committed.records.find? lastGcKey) = false := rfl
  have hkept : expired ⟨0, 0, 0⟩ now [] = false := rfl
  unfold passRecords
  rw [hrecent, if_neg Bool.false_ne_true, SortedMap.find?_filter, SortedMap.find?_insert_of_ne hgc.symm,
    Option.filter_eq_some_iff, hkey, Bool.true_and]
  have hrecords : litterSys.committed.records = (SortedMap.empty.insert (rootKey keptDir true) []).insert
      (rootKey spareFile false) (be64 5) := rfl
  rw [hrecords]
  by_cases hs : rootKey spareFile false = key
  · subst hs
    rw [SortedMap.find?_insert_self]
    constructor
    · rintro ⟨hval, hexp⟩
      cases hval
      rw [hspare] at hexp
      cases hexp
    · rintro ⟨hkey', -⟩
      cases (rootKey_injective hkey').2
  · rw [SortedMap.find?_insert_of_ne hs]
    by_cases hd : rootKey keptDir true = key
    · subst hd
      rw [SortedMap.find?_insert_self, Option.some.injEq]
      constructor
      · rintro ⟨rfl, -⟩
        exact ⟨rfl, rfl⟩
      · rintro ⟨-, rfl⟩
        rw [hkept]
        exact ⟨rfl, rfl⟩
    · rw [SortedMap.find?_insert_of_ne hd, SortedMap.find?_empty]
      exact iff_of_false (fun h => by cases h.1) fun h => hd h.1.symm

/-- It is the only root that does not expire. -/
theorem roots_litter {now : Nat} {tree : Bool} {root : Bytes} :
    root ∈ rootsIn tree (passRecords ⟨0, 0, 0⟩ now litterSys.committed.records) ↔
      root = keptDir ∧ tree = true := by
  rw [mem_rootsIn, Option.isSome_iff_exists]
  constructor
  · rintro ⟨val, hval⟩
    exact rootKey_injective ((left_litter (isRootKey_iff.2 ⟨root, tree, rfl⟩)).1 hval).1
  · rintro ⟨rfl, rfl⟩
    exact ⟨[], (left_litter (isRootKey_iff.2 ⟨_, _, rfl⟩)).2 ⟨rfl, rfl⟩⟩

/-- Its file is no directory with entries. -/
theorem unmixed_litter {now : Nat} :
    Unmixed litterMap (rootsIn true (passRecords ⟨0, 0, 0⟩ now litterSys.committed.records)) where
  file id hin root hroot t hr := by
    obtain ⟨rfl, -⟩ := roots_litter.1 hroot
    obtain ⟨-, root', hroot', -, hdir⟩ := hin
    obtain ⟨rfl, -⟩ := roots_litter.1 hroot'
    rcases reach_litter hdir with heq | heq <;> cases heq
    rcases reach_litter hr with heq | heq <;> cases heq
  broken id _ root hroot hbroken _ := by
    obtain ⟨rfl, -⟩ := roots_litter.1 hroot
    exact hbroken whole_litter

/-- The pass sweeps the blob whose root has expired, and spares the directory and its file. -/
theorem gc_exact_sample : ∃ tr σ' s',
    Prog.Run (sem .sample unfailing 0) (maybeGc ⟨0, 0, 0⟩ 4 []) litterSys tr (.ok (), σ') s' ∧
    s'.blobs 0 keptDir = litterMap keptDir ∧ s'.blobs 0 keptFile = some [7] ∧ s'.blobs 0 spareFile = none := by
  have hkeyed : Keyed (litterSys.blobs 0) := by
    intro id hid
    have hmem := mem_litter hid
    simp only [List.mem_cons, List.not_mem_nil, or_false] at hmem
    rcases hmem with rfl | rfl | rfl <;> rfl
  have hexact := gc_exact .sample ⟨0, 0, 0⟩ 0 litterSys [] rfl hkeyed
  obtain ⟨tr, σ', s', hr⟩ := hexact.2 [keptDir, keptFile, spareFile] 4 (fun id => mem_litter) (by decide)
  have hdue : passDue ⟨0, 0, 0⟩ s'.clock litterSys.committed.records = true :=
    passDue_iff.2 ⟨rfl, rootKey spareFile false, be64 5, by decide +kernel, by decide +kernel, by
      unfold expired
      rw [Bool.and_eq_true]
      exact ⟨by decide +kernel, decide_eq_true (Nat.zero_le _)⟩⟩
  have hworks : ReadsWork unfailing := fun _ _ _ h => h
  obtain ⟨-, hiff⟩ := (hexact.1 unfailing 4 tr σ' s' hworks hr).2 _ rfl hdue unmixed_litter
    fun root hroot => (roots_litter.1 hroot).1 ▸ whole_litter
  have hroot : keptDir ∈ rootsIn true (passRecords ⟨0, 0, 0⟩ s'.clock litterSys.committed.records) :=
    roots_litter.2 ⟨rfl, rfl⟩
  have hfile : Reach litterMap (.d, keptDir) (.leaf .r, keptFile) :=
    .step rfl decode_litter (.head _) .refl
  refine ⟨tr, σ', s', hr, (hiff _ _).2 ⟨rfl, .inr ⟨_, hroot, .d, .refl⟩⟩,
    (hiff _ _).2 ⟨rfl, .inr ⟨_, hroot, _, hfile⟩⟩, Option.eq_none_iff_forall_ne_some.2 fun d hd => ?_⟩
  rcases ((hiff _ _).1 hd).2 with hblob | ⟨root, hroot', t, hreach⟩
  · cases (roots_litter.1 hblob).2
  · obtain ⟨rfl, -⟩ := roots_litter.1 hroot'
    rcases reach_litter hreach with heq | heq <;> cases heq

end Tarmac.Tree
