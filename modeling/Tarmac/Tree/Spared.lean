import Tarmac.Tree.Ops
import Tarmac.Tree.Pass

/-!
# What a pass spares

After a pass that collects, the index ought to be what the roots lead to that are still registered
(`SparesLinked`). All roots are marked into one set, which also tells what was visited, files and
directories alike. So the index is what it ought to be when each tree root that has not expired can be
walked to its end, or is not there at all, and no directory with entries is met as a file as well
(`Markable`, `pass_spares_linked`). A directory that is met as a file first is not walked
(`twin_swept`); a root that is given up leaves what it has marked.
-/

namespace Tarmac.Tree

open PackCas

/-- The index afterwards is what the records lead to that are left. -/
def SparesLinked (M M' : BlobMap) (records' : SortedMap Bytes Bytes) : Prop :=
  ∀ id d, M' id = some d ↔ M id = some d ∧ Linked M records' id

/-- The directories below a root can be read. The files do not matter. -/
def Legible (M : BlobMap) (root : Bytes) : Prop :=
  ∀ id, Reach M (.d, root) (.d, id) → ∃ es, treeAt M id = .ok es

/-- A directory with entries that a root leads to. -/
def Branches (M : BlobMap) (roots : List Bytes) (id : Bytes) : Prop :=
  (∃ e es, treeAt M id = .ok (e :: es)) ∧ ∃ root ∈ roots, Reach M (.d, root) (.d, id)

/-- The roots can be marked one after the other: each can be walked to its end or is not there, and no
directory with entries is a file as well. -/
structure Markable (M : BlobMap) (roots : List Bytes) : Prop where
  legible : ∀ root ∈ roots, M root = none ∨ Legible M root
  apart : ∀ id, Branches M roots id → ∀ root ∈ roots, ∀ t, ¬Reach M (.d, root) (.leaf t, id)

/-- What the marker has done after some of the roots. -/
structure Walked (M : BlobMap) (all roots live : List Bytes) : Prop where
  settled : Mark.Settled (edgesAt M) (Branches M all) [] live
  marked : ∀ root ∈ roots, root ∈ live
  sound : ∀ id ∈ live, ∃ root ∈ roots, ∃ t, Reach M (.d, root) (t, id)

section

variable {M : BlobMap} {fuel : Nat} {roots all live live' broken broken' : List Bytes} {root id : Bytes}
  {out : Except Err Unit}

/-- Nothing that is there can be reached from a root that is not. -/
theorem eq_of_reach_missing (hroot : M root = none) {t : EntryType} (h : Reach M (.d, root) (t, id)) :
    id = root := by
  cases h with
  | refl => rfl
  | step hbuf => cases hroot.symm.trans hbuf

/-- A root that is not there is given up at once. -/
theorem settled_missing (hroot : M root = none) (hs : Mark.Settled (edgesAt M) (Branches M all) [] live)
    (h : Mark.run (edgesAt M) fuel [root] (root :: live) = some (live', out)) :
    Mark.Settled (edgesAt M) (Branches M all) [] live' := by
  have herror : ∃ e, edgesAt M root = .error e := by
    unfold edgesAt treeAt
    split
    · exact ⟨_, rfl⟩
    · rw [hroot]
      exact ⟨_, rfl⟩
  obtain ⟨e, he⟩ := herror
  cases fuel with
  | zero => cases h
  | succ n =>
    unfold Mark.run at h
    rw [he] at h
    cases h
    intro id hid hbranch
    rcases settled_root hs id hid hbranch with hwork | hall
    · obtain rfl := List.mem_singleton.1 hwork
      obtain ⟨⟨e, es, hes⟩, -⟩ := hbranch
      obtain ⟨buf, hbuf, -⟩ := treeAt_ok hes
      cases hroot.symm.trans hbuf
    · exact .inr hall

/-- Before the marking. -/
theorem Walked.nil : Walked M all [] [] where
  settled id hid := by cases hid
  marked root hroot := by cases hroot
  sound id hid := by cases hid

/-- One root more. -/
theorem Walked.markRoot (hK : Markable M all) (hroot : root ∈ all) (h : Walked M all roots live)
    (hm : markRoot M fuel root live = some (live', out)) :
    Walked M all (roots ++ [root]) live' ∧ (M root = none ∨ out = .ok ()) := by
  obtain ⟨hin, hgrow⟩ := markRoot_grows hm
  have hsettled : Mark.Settled (edgesAt M) (Branches M all) [] live' ∧ (M root = none ∨ out = .ok ()) := by
    unfold Tree.markRoot at hm
    split at hm
    · cases hm
      exact ⟨h.settled, .inr rfl⟩
    · rcases hK.legible root hroot with hnone | hl
      · exact ⟨settled_missing hnone h.settled hm, .inl hnone⟩
      · obtain ⟨hout, hs⟩ := run_dirs hl (fun id t hbranch => hK.apart id hbranch root hroot t)
          (settled_root h.settled) hm
        exact ⟨hs, .inr hout⟩
  refine ⟨⟨hsettled.1, fun r hr => ?_, markRoot_sound hm h.sound⟩, hsettled.2⟩
  rcases List.mem_append.1 hr with hr | hr
  · exact hgrow _ (h.marked r hr)
  · obtain rfl := List.mem_singleton.1 hr
    exact hin

/-- The marking of all roots. Those it gives up are not there. -/
theorem walked_markAll (hK : Markable M all) {done : List Bytes} (hsub : ∀ root ∈ roots, root ∈ all)
    (h : Walked M all done live) (hbroken : ∀ root ∈ broken, M root = none)
    (hm : markAll M fuel roots live broken = some (live', broken')) :
    Walked M all (done ++ roots) live' ∧ ∀ root ∈ broken', M root = none := by
  induction roots generalizing done live broken with
  | nil =>
    cases hm
    rw [List.append_nil]
    exact ⟨h, hbroken⟩
  | cons root roots ih =>
    unfold markAll at hm
    cases hr : markRoot M fuel root live with
    | none => rw [hr] at hm; cases hm
    | some r =>
      obtain ⟨live₁, out⟩ := r
      rw [hr] at hm
      obtain ⟨h₁, hout⟩ := h.markRoot hK (hsub _ (.head _)) hr
      have hsub' := fun r hr => hsub r (.tail root hr)
      rw [List.append_cons]
      cases out with
      | ok => exact ih hsub' h₁ hbroken hm
      | error e =>
        refine ih hsub' h₁ (fun r hr => ?_) hm
        rcases List.mem_append.1 hr with hr | hr
        · exact hbroken r hr
        · obtain rfl := List.mem_singleton.1 hr
          exact hout.resolve_right fun he => by cases he

/-- Everything that a root leads to is marked. -/
theorem Walked.reach (hK : Markable M roots) (h : Walked M roots roots live) (hroot : root ∈ roots) {y : Ref}
    (hy : Reach M (.d, root) y) : y.2 ∈ live := by
  rcases hK.legible root hroot with hnone | hl
  · obtain ⟨t, id⟩ := y
    obtain rfl := eq_of_reach_missing hnone hy
    exact h.marked _ hroot
  · exact live_of_reach h.settled hl (fun id e es hid hes => ⟨⟨e, es, hes⟩, root, hroot, hid⟩)
      (h.marked root hroot) hy

end

/-! ## The pass -/

section

variable {ext : Ext} {ok : Call → Sys → Choice → Prop} {p : Nat} {s s' : Sys} {σ : Pending}
  {fuel : Nat} {cfg : Config}

/-- A sweep of what was marked. -/
theorem Swept.spares {live broken : List Bytes} {keep : Bytes → Bool}
    (hK : Markable (s.blobs p) (treeRoots s p))
    (hm : markAll (s.blobs p) fuel (treeRoots s p) [] [] = some (live, broken))
    (h : Swept p live broken keep s s') :
    SparesLinked (s.blobs p) (s'.blobs p) (s'.model p).view.records := by
  obtain ⟨hwalked, hbroken⟩ := walked_markAll hK (fun _ h => h) .nil (fun _ h => by cases h) hm
  rw [List.nil_append] at hwalked
  -- a root record is left unless its root is not there
  have hroots (root : Bytes) (hsome : (s.blobs p root).isSome) (tree : Bool) :
      Registered (s'.model p).view root tree ↔ Registered (s.model p).view root tree := by
    refine Registered.frame (h.records.frame _ ?_)
    rintro ⟨root', hroot', hkey⟩
    obtain ⟨rfl, -⟩ := rootKey_injective hkey
    rw [hbroken root hroot'] at hsome
    cases hsome
  intro id d
  rw [h.blobs, restrict_eq_some, h.keeps, and_comm]
  refine and_congr_right fun hd => ?_
  have hsome : (s.blobs p id).isSome := by rw [hd]; rfl
  unfold Linked
  rw [mem_rootsIn, or_comm]
  refine or_congr (hroots id hsome false).symm ⟨fun hlive => ?_, ?_⟩
  · obtain ⟨root, hroot, t, ht⟩ := hwalked.sound id hlive
    refine ⟨root, mem_rootsIn.2 ?_, t, ht⟩
    have hreg : Registered (s.model p).view root true := (mem_rootsOf true).1 hroot
    refine (hroots root ?_ true).2 hreg
    cases hr : s.blobs p root with
    | none =>
      obtain rfl := eq_of_reach_missing hr ht
      cases hr.symm.trans hd
    | some buf => rfl
  · rintro ⟨root, hroot, t, ht⟩
    have hreg : Registered (s.model p).view root true := by
      obtain ⟨val, hval⟩ := Option.isSome_iff_exists.1 (mem_rootsIn.1 hroot)
      exact Option.isSome_iff_exists.2 ⟨val, h.records.sub _ _ hval⟩
    exact hwalked.reach hK ((mem_rootsOf true).2 hreg) ht

end

end Tarmac.Tree
