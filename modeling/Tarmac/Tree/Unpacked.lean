import Tarmac.Tree.Ingested
import Tarmac.Tree.Spared

/-!
# An archive behind its own collection

`ingest_archive` ends with a pass. What a walker finds under the root it returns is the archive's tree,
unless the pass collects and takes something of that tree: it keeps it in full when the root stays
registered and the tree has no directory that a root left leads to in another way (`Untangled`,
`archive_looked_up`). An archive that holds the bytes of one of its own directories can lose a file to
its own pass (`twin_unshown`).
-/

namespace Tarmac.Tree

open PackCas

/-! ## One tree in a collection -/

/-- No directory with entries below the root is a file below one of the roots, or is below one of them
that cannot be walked to its end. -/
structure Untangled (M : BlobMap) (roots : List Bytes) (root : Bytes) : Prop where
  file : ∀ id, Branches M [root] id → ∀ root' ∈ roots, ∀ t, ¬Reach M (.d, root') (.leaf t, id)
  broken : ∀ id, Branches M [root] id → ∀ root' ∈ roots, ¬Legible M root' →
    ¬Reach M (.d, root') (.d, id)

section

variable {M : BlobMap} {fuel : Nat} {roots done live live' broken broken' : List Bytes}
  {root root' : Bytes} {out : Except Err Unit}

/-- The marking of a root leaves the tree settled. -/
theorem Untangled.markRoot (hK : Untangled M roots root) (hroot' : root' ∈ roots)
    (hs : Mark.Settled (edgesAt M) (Branches M [root]) [] live)
    (hm : markRoot M fuel root' live = some (live', out)) :
    Mark.Settled (edgesAt M) (Branches M [root]) [] live' := by
  unfold Tree.markRoot at hm
  split at hm
  · cases hm
    exact hs
  · by_cases hl : Legible M root'
    · exact (run_dirs hl (fun id t hbranch => hK.file id hbranch root' hroot' t) (settled_root hs) hm).2
    · refine run_apart (fun id hbranch t => ?_) hs hm
      cases t with
      | d => exact hK.broken id hbranch root' hroot' hl
      | leaf t => exact hK.file id hbranch root' hroot' t

/-- The marking of all roots leaves the tree settled, and marks the roots. -/
theorem Untangled.markAll (hK : Untangled M roots root) (hsub : ∀ root' ∈ done, root' ∈ roots)
    (hs : Mark.Settled (edgesAt M) (Branches M [root]) [] live)
    (hm : markAll M fuel done live broken = some (live', broken')) :
    Mark.Settled (edgesAt M) (Branches M [root]) [] live' ∧ (∀ root' ∈ done, root' ∈ live') ∧
      ∀ id ∈ live, id ∈ live' := by
  induction done generalizing live broken with
  | nil =>
    cases hm
    exact ⟨hs, fun _ h => absurd h List.not_mem_nil, fun _ h => h⟩
  | cons root' rest ih =>
    unfold Tree.markAll at hm
    cases hr : Tree.markRoot M fuel root' live with
    | none => rw [hr] at hm; cases hm
    | some r =>
      obtain ⟨live₁, out⟩ := r
      rw [hr] at hm
      have hs₁ := hK.markRoot (hsub _ (.head _)) hs hr
      obtain ⟨hin, hgrow⟩ := markRoot_grows hr
      have hrest : ∃ broken₁, Tree.markAll M fuel rest live₁ broken₁ = some (live', broken') := by
        cases out with
        | ok => exact ⟨_, hm⟩
        | error e => exact ⟨_, hm⟩
      obtain ⟨broken₁, hm⟩ := hrest
      obtain ⟨hs', hroots, hgrow'⟩ := ih (fun r hr => hsub r (.tail _ hr)) hs₁ hm
      refine ⟨hs', fun r hr => ?_, fun id hid => hgrow' id (hgrow id hid)⟩
      rcases List.mem_cons.1 hr with rfl | hr
      · exact hgrow' _ hin
      · exact hroots r hr

end

section

variable {ext : Ext} {ok : Call → Sys → Choice → Prop} {p : Nat} {s s' : Sys} {σ : Pending} {root : Bytes}
  {fuel : Nat} {cfg : Config}

/-- A sweep keeps the tree of a root that is registered. -/
theorem Swept.whole_root {live broken : List Bytes} {keep : Bytes → Bool} (hM : Keyed (s.blobs p))
    (hroot : root ∈ treeRoots s p) (hK : Untangled (s.blobs p) (treeRoots s p) root)
    (hw : Whole (s.blobs p) (.d, root))
    (hm : markAll (s.blobs p) fuel (treeRoots s p) [] [] = some (live, broken))
    (h : Swept p live broken keep s s') : Whole (s'.blobs p) (.d, root) := by
  have hnil : Mark.Settled (edgesAt (s.blobs p)) (Branches (s.blobs p) [root]) [] [] :=
    fun id hid => absurd hid List.not_mem_nil
  obtain ⟨hs, hroots, -⟩ := hK.markAll (fun _ h => h) hnil hm
  rw [h.blobs]
  refine hw.restrict fun y hy => (h.keeps y.2).2 (.inl ?_)
  refine live_of_reach hs (fun _ hid => hw.treeAt hM hid) (fun id e es hid hes => ?_) (hroots root hroot) hy
  exact ⟨⟨e, es, hes⟩, root, .head _, hid⟩

/-- A pass at the time `now` leaves the root registered and finds its tree untangled, if it collects. -/
def SparesRoot (cfg : Config) (now : Nat) (M : BlobMap) (records : SortedMap Bytes Bytes) (root : Bytes) :
    Prop :=
  passDue cfg now records = true →
    root ∈ rootsIn true (passRecords cfg now records) ∧
      Untangled M (rootsIn true (passRecords cfg now records)) root

/-- A pass that returns keeps the tree of such a root. -/
theorem safe_maybeGc_whole (hok : ReadsWork ok) (hs : (solo ext ok p fun _ => True).Inv s)
    (hM : Keyed (s.blobs p)) (hw : Whole (s.blobs p) (.d, root)) :
    Eff.Safe (solo ext ok p fun _ => True) (fun x _ s' => x = .ok () →
      Grows (s'.blobs p) (s.blobs p) ∧
        (SparesRoot cfg s'.clock (s.blobs p) (flushed σ (s.model p).view.records) root →
          Whole (s'.blobs p) (.d, root))) (maybeGc cfg fuel) σ s := by
  unfold maybeGc
  refine safe_bind hs (quiet_expireAll_ok hs) ?_ (fun e _ _ _ _ hx => by cases hx)
  rintro due σ₁ s₁ hs₁ ⟨hwrites, hdone⟩
  obtain ⟨hdue, hrec⟩ := hdone due rfl
  rw [← hwrites.blobs] at hM hw ⊢
  split
  · next hd =>
    refine Eff.Safe.mono (safe_collect hok unrecorded_true hs₁ fun _ _ _ _ _ _ => trivial) ?_
    rintro x σ' s' - ⟨-, ⟨⟨e, rfl⟩, -⟩ | ⟨-, live, broken, keep, hm, hsw⟩⟩ hx
    · cases hx
    · rw [hsw.records.clock, hsw.blobs]
      refine ⟨fun id d hid => (restrict_eq_some.1 hid).2, fun hspares => ?_⟩
      rw [← hsw.blobs]
      obtain ⟨hroot, hK⟩ := hspares (hdue ▸ hd)
      rw [← hrec] at hroot hK
      exact hsw.whole_root hM hroot hK hw hm
  · exact safe_pure fun _ => ⟨.refl _, fun _ => hw⟩

/-! ## An archive that is ingested -/

/-- There are only so many objects. -/
def FiniteIndex (p : Nat) (s : Sys) : Prop :=
  ∃ objects : List Bytes, ∀ id, (s.blobs p id).isSome → id ∈ objects

/-- A put adds at most one object. -/
theorem FiniteIndex.put {tree : Bool} {d : Bytes} {x : Except Err Bytes} (h : FiniteIndex p s)
    (hx : PutOutcome ext p tree d s x s') : FiniteIndex p s' := by
  obtain ⟨objects, hobjects⟩ := h
  obtain ⟨hblobs, -⟩ := putOutcome_maps hx
  rcases hblobs with heq | heq
  · exact ⟨objects, fun id hid => hobjects id (heq ▸ hid)⟩
  · refine ⟨ext.blake3 d :: objects, fun id hid => ?_⟩
    rw [heq, BlobMap.add] at hid
    split at hid
    · next hnew =>
      rw [hnew.1]
      exact .head _
    · exact .tail _ (hobjects id hid)

end

/-- A run of `ingest_archive` that returns `res` comes to its collection in the state `z`. -/
def CollectsAt (ext : Ext) (ok : Call → Sys → Choice → Prop) (cfg : Config) (fuel p : Nat) (arc : Archive)
    (res : Bytes × Nat) (x : Pending × Sys) (tr : List (Tarmac.Event sig)) (z x' : Pending × Sys) : Prop :=
  ∃ tr₁ tr₂, tr = tr₁ ++ tr₂ ∧ Prog.Run (sem ext ok p) (ingestTree arc x.1) x.2 tr₁ (.ok res, z.1) z.2 ∧
    Prog.Run (sem ext ok p) (maybeGc cfg fuel z.1) z.2 tr₂ (.ok (), x'.1) x'.2

section

variable {ext : Ext} {S : Bytes → Prop} {ok : Call → Sys → Choice → Prop} {cfg : Config} {fuel p : Nat}
  {arc : Archive} {res : Bytes × Nat} {x z x' : Pending × Sys} {tr : List (Tarmac.Event sig)}

/-- The index stays filed under hashes. It has the tree of the archive in full unless the collection takes
of it, and so it has a tree that was there before. -/
theorem CollectsAt.whole (hext : ext.Lawful) (hS : NoCollision ext S) (hs : x.2.busy p = false)
    (hM : Indexed ext S (x.2.blobs p)) (hreads : ReadsWork ok) (hok : ∀ c s ch, ok c s ch → puts S c s ch)
    (h : CollectsAt ext ok cfg fuel p arc res x tr z x') {root : Bytes}
    (hroot : root = res.1 ∨ Whole (x.2.blobs p) (.d, root)) :
    Indexed ext S (x'.2.blobs p) ∧
      (SparesRoot cfg x'.2.clock (z.2.blobs p) (flushed z.1 (z.2.model p).view.records) root →
        Whole (x'.2.blobs p) (.d, root)) := by
  obtain ⟨tr₁, tr₂, -, h₁, h₂⟩ := h
  have hputs : Prog.Run (sem ext (puts S) p) (ingestTree arc x.1) x.2 tr₁ (.ok res, z.1) z.2 := by
    refine h₁.mono fun c w r w' h => ?_
    obtain ⟨ch, hch, hx⟩ := h
    exact ⟨ch, hok c w ch hch, hx⟩
  obtain ⟨⟨hz, hMz⟩, hingest⟩ := solo_run hputs ⟨hs, hM⟩ (whole_ingestTree hS ⟨hs, hM⟩)
  obtain ⟨hmore, hnew⟩ := hingest res rfl
  have hw : Whole (z.2.blobs p) (.d, root) := by
    rcases hroot with rfl | hold
    · exact hnew
    · exact hold.mono hmore
  obtain ⟨-, hpass⟩ := solo_run h₂ ⟨hz, trivial⟩
    (safe_maybeGc_whole hreads ⟨hz, trivial⟩ (Indexed.keyed hext hMz) hw)
  obtain ⟨hgrows, hwhole⟩ := hpass rfl
  exact ⟨fun h d hd => hMz h d (hgrows h d hd), hwhole⟩

end

end Tarmac.Tree
