import Tarmac.Lib.Mark
import Tarmac.Tree.Records

/-!
# The collection

What the marking of `maybeGc` finds in a process that has the directory to itself, when no read
fails: the program `markRoots` computes the function `markAll` of the index (`safe_markRoots`), which
marks with the work list of `Tarmac.Lib.Mark`.

All roots are marked into one set, which serves both types of references. When the roots are
`Unmixed`, that does no harm: everything below a whole root is marked (`Marked.reach`). A pass as a
whole does to the blobs what `Swept` says.
-/

namespace Tarmac.Tree

open PackCas

/-- What `readTree` makes of an index. -/
def treeAt (M : BlobMap) (id : Bytes) : Except Err (List TreeEntry) :=
  if id.length ≠ kHashLen then .error (.invalidArgument "bad hash length")
  else match M id with
    | none => .error (.corrupt "missing tree object")
    | some data => decodeTree data

/-- The edges `mark_live` follows. -/
def edgesAt (M : BlobMap) (id : Bytes) : Except Err (Mark.Edges Bytes) := do
  let es ← treeAt M id
  .ok (es.map fun e => (e.id, decide (e.type = .d)))

/-- `mark_live` over an index. -/
def markRoot (M : BlobMap) (fuel : Nat) (root : Bytes) (live : List Bytes) :
    Option (List Bytes × Except Err Unit) :=
  if root ∈ live then some (live, .ok ()) else Mark.run (edgesAt M) fuel [root] (root :: live)

/-- The marking of `maybeGc` over an index. -/
def markAll (M : BlobMap) (fuel : Nat) : List Bytes → List Bytes → List Bytes →
    Option (List Bytes × List Bytes)
  | [], live, broken => some (live, broken)
  | root :: roots, live, broken =>
    match markRoot M fuel root live with
    | none => none
    | some (live, .ok ()) => markAll M fuel roots live broken
    | some (live, .error _) => markAll M fuel roots live (broken ++ [root])

/-- `mark_live` marks the entries of a directory as the search pushes the edges of a node. -/
theorem markEntries_eq (es : List TreeEntry) (pending live : List Bytes) :
    markEntries es pending live =
      Mark.push (es.map fun e => (e.id, decide (e.type = .d))) pending live := by
  induction es generalizing pending live with
  | nil => rfl
  | cons e es ih =>
    unfold markEntries
    rw [List.map_cons]
    unfold Mark.push
    by_cases hd : e.type = .d <;> simp [hd, ih]

/-- No read of an object fails. -/
def ReadsWork (ok : Call → Sys → Choice → Prop) : Prop := ∀ h s ch, ok (.get h) s ch → ch.fail = none

section

variable {ext : Ext} {ok : Call → Sys → Choice → Prop} {p : Nat} {I : Sys → Prop} {s s' : Sys}
  {σ σ' : Pending} {α β : Type}

/-- A `get` that works answers what is there. -/
theorem safe_get_works {h : Bytes} {Q : Except Err (Option Bytes) → Pending → Sys → Prop}
    (hok : ReadsWork ok) (hs : (solo ext ok p I).Inv s)
    (hQ : Q (if h.length ≠ kHashLen then .error (.invalidArgument "bad hash length")
      else .ok (s.blobs p h)) σ s) : Eff.Safe (solo ext ok p I) Q (Cas.get h) σ s := by
  refine safe_ask fun ch x s' hch hx => ?_
  cases hx
  have hread : ch.lookup h (s.blobs p h) = if h.length ≠ kHashLen then
      .error (.invalidArgument "bad hash length") else .ok (s.blobs p h) := by
    unfold Choice.lookup Choice.read
    rw [hok _ _ _ hch]
  exact ⟨hs.2, hread ▸ hQ⟩

/-- `readTree` reads the entries, or throws why there are none. -/
theorem safe_readTree {id : Bytes} (hok : ReadsWork ok) (hs : (solo ext ok p I).Inv s) :
    Eff.Safe (solo ext ok p I) (fun x σ' s' => σ' = σ ∧ s' = s ∧ x = treeAt (s.blobs p) id)
      (readTree id) σ s := by
  unfold readTree
  refine safe_bind (P := fun x σ' s' => σ' = σ ∧ s' = s ∧
    x = if id.length ≠ kHashLen then .error (.invalidArgument "bad hash length")
      else .ok (s.blobs p id)) hs (safe_get_works hok hs ⟨rfl, rfl, rfl⟩) ?_ ?_
  · rintro b σ' s' - ⟨rfl, rfl, hb⟩
    unfold treeAt
    split at hb
    · cases hb
    · next hlen =>
      cases hb
      rw [if_neg hlen]
      cases s'.blobs p id with
      | none => exact safe_throw ⟨rfl, rfl, rfl⟩
      | some data => exact safe_ofExcept ⟨rfl, rfl, rfl⟩
  · rintro e σ' s' - ⟨rfl, rfl, he⟩
    unfold treeAt
    split at he
    · next hlen =>
      rw [if_pos hlen]
      cases he
      exact ⟨rfl, rfl, rfl⟩
    · cases he

/-- The errors of a read are exceptions. -/
theorem decodeLoop_caught {n : Nat} {last : Option Bytes} {buf : Bytes} {e : Err}
    (h : decodeLoop n last buf = .error e) : e.caught = true := by
  induction n generalizing last buf with
  | zero => cases buf <;> cases h
  | succ n ih =>
    by_cases hbuf : buf = []
    · subst hbuf
      cases h
    · rw [decodeLoop_succ hbuf] at h
      cases hd : decodeTreeEntry buf with
      | error e' =>
        rw [hd] at h
        cases h
        unfold decodeTreeEntry at hd
        split at hd
        · split at hd
          · cases hd; rfl
          · dsimp only at hd
            split at hd
            · cases hd; rfl
            · split at hd
              · cases hd; rfl
              · cases hd
        · cases hd; rfl
      | ok r =>
        obtain ⟨entry, rest⟩ := r
        rw [hd] at h
        dsimp only [Bind.bind, Except.bind] at h
        split at h
        · cases h; rfl
        · cases hrest : decodeLoop n (some entry.name) rest with
          | error e' =>
            rw [hrest] at h
            cases h
            exact ih hrest
          | ok es =>
            rw [hrest] at h
            cases h

/-- A directory that cannot be read throws what `mark_live` catches. -/
theorem treeAt_caught {M : BlobMap} {id : Bytes} {e : Err} (h : treeAt M id = .error e) :
    e.caught = true := by
  unfold treeAt at h
  split at h
  · cases h; rfl
  · split at h
    · cases h; rfl
    · exact decodeLoop_caught h

/-- Caught, it is a value. -/
theorem safe_attempt_readTree {id : Bytes} (hok : ReadsWork ok) (hs : (solo ext ok p I).Inv s) :
    Eff.Safe (solo ext ok p I) (fun x σ' s' => σ' = σ ∧ s' = s ∧ x = .ok (treeAt (s.blobs p) id))
      (attempt (readTree id)) σ s := by
  unfold attempt
  refine Eff.Safe.catchIf (P := fun x σ' s' => σ' = σ ∧ s' = s ∧
    x = (treeAt (s.blobs p) id).map .ok) (fun _ => rfl) hs ?_ ?_ ?_ ?_
  · refine Eff.Safe.map hs (safe_readTree hok hs) ?_
    rintro x σ' s' - ⟨rfl, rfl, rfl⟩
    exact ⟨rfl, rfl, rfl⟩
  · rintro a σ' s' - ⟨rfl, rfl, ha⟩
    refine ⟨rfl, rfl, ?_⟩
    cases ht : treeAt (s'.blobs p) id with
    | error e => rw [ht] at ha; cases ha
    | ok es => rw [ht] at ha; exact ha
  · rintro e σ' s' - - ⟨rfl, rfl, he⟩
    refine safe_pure ⟨rfl, rfl, ?_⟩
    cases ht : treeAt (s'.blobs p) id with
    | error e' => rw [ht] at he; cases he; rfl
    | ok es => rw [ht] at he; cases he
  · rintro e σ' s' - hcaught ⟨rfl, rfl, he⟩
    cases ht : treeAt (s'.blobs p) id with
    | error e' =>
      rw [ht] at he
      cases he
      exact absurd (treeAt_caught ht) hcaught
    | ok es => rw [ht] at he; cases he

/-- What a program returns that computes a function which may run out of fuel. -/
def fueled {γ : Type} (r : Option γ) : Except Err γ :=
  match r with
  | some a => .ok a
  | none => .error (.undefined "out of fuel")

/-- The loop of `mark_live` is the search. -/
theorem safe_markLoop {fuel : Nat} {pending live : List Bytes} (hok : ReadsWork ok)
    (hs : (solo ext ok p I).Inv s) :
    Eff.Safe (solo ext ok p I) (fun x σ' s' => σ' = σ ∧ s' = s ∧
      x = fueled (Mark.run (edgesAt (s.blobs p)) fuel pending live))
      (markLoop fuel pending live) σ s := by
  induction fuel generalizing pending live with
  | zero =>
    cases pending with
    | nil => exact safe_pure ⟨rfl, rfl, rfl⟩
    | cons => exact safe_throw ⟨rfl, rfl, rfl⟩
  | succ fuel ih =>
    cases pending with
    | nil => exact safe_pure ⟨rfl, rfl, rfl⟩
    | cons id pending =>
      unfold markLoop
      refine safe_bind hs (safe_attempt_readTree hok hs) ?_ ?_
      · rintro r σ' s' - ⟨rfl, rfl, hr⟩
        cases hr
        unfold Mark.run
        cases ht : treeAt (s'.blobs p) id with
        | error e =>
          rw [edgesAt, ht]
          exact safe_pure ⟨rfl, rfl, rfl⟩
        | ok es =>
          rw [edgesAt, ht]
          dsimp only [Bind.bind, Except.bind]
          rw [markEntries_eq]
          exact ih
      · rintro e σ' s' - ⟨-, -, he⟩
        cases he

theorem safe_markLive {fuel : Nat} {root : Bytes} {live : List Bytes} (hok : ReadsWork ok)
    (hs : (solo ext ok p I).Inv s) :
    Eff.Safe (solo ext ok p I) (fun x σ' s' => σ' = σ ∧ s' = s ∧
      x = fueled (markRoot (s.blobs p) fuel root live)) (markLive fuel root live) σ s := by
  unfold markLive markRoot
  split
  · exact safe_pure ⟨rfl, rfl, rfl⟩
  · exact safe_markLoop hok hs

theorem safe_markRoots {fuel : Nat} {roots live broken : List Bytes} (hok : ReadsWork ok)
    (hs : (solo ext ok p I).Inv s) :
    Eff.Safe (solo ext ok p I) (fun x σ' s' => σ' = σ ∧ s' = s ∧
      x = fueled (markAll (s.blobs p) fuel roots live broken)) (markRoots fuel roots live broken) σ s := by
  induction roots generalizing live broken with
  | nil => exact safe_pure ⟨rfl, rfl, rfl⟩
  | cons root roots ih =>
    unfold markRoots markAll
    refine safe_bind hs (safe_markLive hok hs) ?_ ?_
    · rintro ⟨live', out⟩ σ' s' - ⟨rfl, rfl, hr⟩
      cases hm : markRoot (s'.blobs p) fuel root live with
      | none => rw [hm] at hr; cases hr
      | some r =>
        rw [hm] at hr
        cases hr
        cases out with
        | ok => exact ih
        | error e => exact ih
    · rintro e σ' s' - ⟨rfl, rfl, he⟩
      cases hm : markRoot (s'.blobs p) fuel root live with
      | none =>
        rw [hm] at he
        cases he
        exact ⟨rfl, rfl, rfl⟩
      | some r => rw [hm] at he; cases he

end

/-! ## What is marked -/

section

variable {M : BlobMap} {fuel : Nat} {roots roots₀ live live' broken broken' : List Bytes}
  {root id : Bytes} {out : Except Err Unit}

/-- The blobs are filed under hashes. -/
def Keyed (M : BlobMap) : Prop := ∀ id, (M id).isSome → id.length = kHashLen

/-- Blobs filed under hashes have keys of the length of a hash. -/
theorem Indexed.keyed {ext : Ext} {S : Bytes → Prop} (hext : ext.Lawful) (h : Indexed ext S M) :
    Keyed M := by
  intro id hid
  obtain ⟨d, hd⟩ := Option.isSome_iff_exists.1 hid
  rw [← (h id d hd).2]
  exact hext.length_blake3 d

/-- A directory that can be read is there. -/
theorem treeAt_ok {es : List TreeEntry} (h : treeAt M id = .ok es) :
    ∃ buf, M id = some buf ∧ decodeTree buf = .ok es := by
  unfold treeAt at h
  split at h
  · cases h
  · split at h
    · cases h
    · next buf hbuf => exact ⟨buf, hbuf, h⟩

/-- A directory that is there is decoded. -/
theorem Keyed.treeAt (hM : Keyed M) {buf : Bytes} (h : M id = some buf) :
    treeAt M id = decodeTree buf := by
  unfold Tree.treeAt
  rw [if_neg (not_not_intro (hM id (h ▸ rfl))), h]

/-- What a directory refers to can be reached behind it. -/
theorem Reach.behind {x : Ref} {buf : Bytes} {es : List TreeEntry} {e : TreeEntry}
    (h : Reach M x (.d, id)) (hbuf : M id = some buf) (hdec : decodeTree buf = .ok es) (he : e ∈ es) :
    Reach M x e.ref := by
  generalize hy : (EntryType.d, id) = y at h
  induction h with
  | refl =>
    subst hy
    exact .step hbuf hdec he .refl
  | step hbuf' hdec' he' _ ih => exact .step hbuf' hdec' he' (ih hy)

/-- What a directory refers to is reached behind it. -/
theorem Reach.tail {x : Ref} {es : List TreeEntry} {e : TreeEntry} (h : Reach M x (.d, id))
    (hes : treeAt M id = .ok es) (he : e ∈ es) : Reach M x e.ref := by
  obtain ⟨buf, hbuf, hdec⟩ := treeAt_ok hes
  exact h.behind hbuf hdec he

/-- The directories below a whole root can be read. -/
theorem Whole.treeAt {x : Ref} (hM : Keyed M) (h : Whole M x) (hr : Reach M x (.d, id)) :
    ∃ es, treeAt M id = .ok es := by
  obtain ⟨buf, hbuf, hdec⟩ := h _ hr
  rw [hM.treeAt hbuf]
  exact hdec rfl

/-- A directory with entries that a whole root leads to. -/
def Inner (M : BlobMap) (roots : List Bytes) (id : Bytes) : Prop :=
  treeAt M id ≠ .ok [] ∧ ∃ root ∈ roots, Whole M (.d, root) ∧ Reach M (.d, root) (.d, id)

/-- No directory with entries below a whole root is a file below a root as well, or below a root that
is not whole. -/
structure Unmixed (M : BlobMap) (roots : List Bytes) : Prop where
  file : ∀ id, Inner M roots id → ∀ root ∈ roots, ∀ t, ¬Reach M (.d, root) (.leaf t, id)
  broken : ∀ id, Inner M roots id → ∀ root ∈ roots, ¬Whole M (.d, root) → ¬Reach M (.d, root) (.d, id)

/-- The edges of a node are the entries of a directory. -/
theorem edgesAt_ok {es : Mark.Edges Bytes} (h : edgesAt M id = .ok es) :
    ∃ es', treeAt M id = .ok es' ∧ es = es'.map fun e => (e.id, decide (e.type = .d)) := by
  unfold edgesAt at h
  cases ht : treeAt M id with
  | error e => rw [ht] at h; cases h
  | ok es' =>
    rw [ht] at h
    cases h
    exact ⟨es', rfl, rfl⟩

/-- The entries of a directory are its edges. -/
theorem edgesAt_of_treeAt {es : List TreeEntry} (h : treeAt M id = .ok es) :
    edgesAt M id = .ok (es.map fun e => (e.id, decide (e.type = .d))) := by
  rw [edgesAt, h]
  rfl

/-- What the marker has done after some of the roots. -/
structure Marked (M : BlobMap) (all roots live : List Bytes) : Prop where
  settled : Mark.Settled (edgesAt M) (Inner M all) [] live
  whole : ∀ root ∈ roots, Whole M (.d, root) → root ∈ live
  sound : ∀ id ∈ live, ∃ root ∈ roots, ∃ t, Reach M (.d, root) (t, id)

/-- An edge is an entry. -/
theorem mem_edges {es : List TreeEntry} {inner : Bool}
    (h : (id, inner) ∈ es.map fun e => (e.id, decide (e.type = .d))) :
    ∃ e ∈ es, e.id = id ∧ inner = decide (e.type = .d) := by
  obtain ⟨e, he, heq⟩ := List.mem_map.1 h
  cases heq
  exact ⟨e, he, rfl, rfl⟩

/-- Marking below a root whose directories can be read, none of `D` being a file there. -/
theorem run_dirs {D : Bytes → Prop}
    (hread : ∀ id, Reach M (.d, root) (.d, id) → ∃ es, treeAt M id = .ok es)
    (hfile : ∀ id t, D id → ¬Reach M (.d, root) (.leaf t, id))
    (hs : Mark.Settled (edgesAt M) D [root] live)
    (h : Mark.run (edgesAt M) fuel [root] live = some (live', out)) :
    out = .ok () ∧ Mark.Settled (edgesAt M) D [] live' := by
  refine Mark.run_settled (P := fun id => Reach M (.d, root) (.d, id)) ?_ ?_ hs h
  · intro id hid
    obtain ⟨es, hes⟩ := hread id hid
    refine ⟨_, edgesAt_of_treeAt hes, ?_, ?_⟩
    · intro b hb
      obtain ⟨e, he, rfl, hd⟩ := mem_edges hb
      have htype : e.type = .d := by simpa using hd.symm
      have href := hid.tail hes he
      rwa [TreeEntry.ref, htype] at href
    · intro b hb hin
      obtain ⟨e, he, rfl, hd⟩ := mem_edges hb
      have href := hid.tail hes he
      unfold TreeEntry.ref at href
      cases ht : e.type with
      | d => simp [ht] at hd
      | leaf t =>
        rw [ht] at href
        exact hfile _ t hin href
  · intro id hid
    obtain rfl := List.mem_singleton.1 hid
    exact .refl

/-- Marking below a whole root. -/
theorem run_whole (hM : Keyed M) (hU : Unmixed M roots₀) (hroot : root ∈ roots₀)
    (hw : Whole M (.d, root))
    (hs : Mark.Settled (edgesAt M) (Inner M roots₀) [root] live)
    (h : Mark.run (edgesAt M) fuel [root] live = some (live', out)) :
    out = .ok () ∧ Mark.Settled (edgesAt M) (Inner M roots₀) [] live' :=
  run_dirs (fun _ hid => hw.treeAt hM hid) (fun id t hin => hU.file id hin root hroot t) hs h

/-- What is marked from a root can be reached from it. -/
theorem run_reach (h : Mark.run (edgesAt M) fuel [root] live = some (live', out)) :
    ∀ id ∈ live', id ∈ live ∨ ∃ t, Reach M (.d, root) (t, id) := by
  refine Mark.run_sound (P := fun id => Reach M (.d, root) (.d, id)) ?_ ?_ h
  · intro id edges hid hedges b inner hb
    obtain ⟨es, hes, rfl⟩ := edgesAt_ok hedges
    obtain ⟨e, he, rfl, hd⟩ := mem_edges hb
    have href := hid.tail hes he
    refine ⟨⟨e.type, href⟩, ?_⟩
    rintro rfl
    have htype : e.type = .d := by simpa using hd.symm
    rwa [TreeEntry.ref, htype] at href
  · intro id hid
    obtain rfl := List.mem_singleton.1 hid
    exact .refl

/-- Marking below a root that leads to nothing of `D`. -/
theorem run_apart {D : Bytes → Prop} (hnew : ∀ id, D id → ∀ t, ¬Reach M (.d, root) (t, id))
    (hs : Mark.Settled (edgesAt M) D [] live)
    (h : Mark.run (edgesAt M) fuel [root] (root :: live) = some (live', out)) :
    Mark.Settled (edgesAt M) D [] live' := by
  intro id hid hin
  rcases run_reach h id hid with hid | ⟨t, ht⟩
  · rcases List.mem_cons.1 hid with rfl | hid
    · exact absurd .refl (hnew _ hin .d)
    · refine .inr fun es hes e he => Mark.run_grows h _ (.tail _ ?_)
      exact (hs id hid hin).elim (fun hn => absurd hn List.not_mem_nil) fun hall => hall es hes e he
  · exact absurd ht (hnew id hin t)

/-- Below a root that is not whole there is nothing of the whole ones. -/
theorem run_broken (hU : Unmixed M roots₀) (hroot : root ∈ roots₀) (hw : ¬Whole M (.d, root))
    (hs : Mark.Settled (edgesAt M) (Inner M roots₀) [] live)
    (h : Mark.run (edgesAt M) fuel [root] (root :: live) = some (live', out)) :
    Mark.Settled (edgesAt M) (Inner M roots₀) [] live' := by
  refine run_apart (fun id hin t => ?_) hs h
  cases t with
  | d => exact hU.broken id hin root hroot hw
  | leaf t => exact hU.file id hin root hroot t

/-- A root that is on the work list is settled. -/
theorem settled_root {D : Bytes → Prop} (h : Mark.Settled (edgesAt M) D [] live) :
    Mark.Settled (edgesAt M) D [root] (root :: live) := by
  intro id hid hin
  rcases List.mem_cons.1 hid with rfl | hid
  · exact .inl (.head _)
  · refine .inr fun es hes e he => .tail _ ?_
    exact (h id hid hin).elim (fun hn => absurd hn List.not_mem_nil) fun hall => hall es hes e he

/-- A root that the marker was given is marked, and so is what was marked before. -/
theorem markRoot_grows (hm : markRoot M fuel root live = some (live', out)) :
    root ∈ live' ∧ ∀ id ∈ live, id ∈ live' := by
  unfold Tree.markRoot at hm
  split at hm
  · next hlive =>
    cases hm
    exact ⟨hlive, fun _ hid => hid⟩
  · have hgrow := Mark.run_grows hm
    exact ⟨hgrow _ (.head _), fun id hid => hgrow _ (.tail _ hid)⟩

/-- What is marked can be reached from a root. -/
theorem markRoot_sound (hm : markRoot M fuel root live = some (live', out))
    (h : ∀ id ∈ live, ∃ root ∈ roots, ∃ t, Reach M (.d, root) (t, id)) :
    ∀ id ∈ live', ∃ root' ∈ roots ++ [root], ∃ t, Reach M (.d, root') (t, id) := by
  have hold (id : Bytes) (hid : id ∈ live) :
      ∃ root' ∈ roots ++ [root], ∃ t, Reach M (.d, root') (t, id) := by
    obtain ⟨r, hr, ht⟩ := h id hid
    exact ⟨r, List.mem_append_left _ hr, ht⟩
  unfold Tree.markRoot at hm
  split at hm
  · cases hm
    exact hold
  · intro id hid
    rcases run_reach hm id hid with hid | ⟨t, ht⟩
    · rcases List.mem_cons.1 hid with rfl | hid
      · exact ⟨_, List.mem_append_right _ (.head _), .d, .refl⟩
      · exact hold id hid
    · exact ⟨root, List.mem_append_right _ (.head _), t, ht⟩

/-- One root more. -/
theorem Marked.markRoot (hM : Keyed M) (hU : Unmixed M roots₀) (hroot : root ∈ roots₀)
    (h : Marked M roots₀ roots live)
    (hm : markRoot M fuel root live = some (live', out)) :
    Marked M roots₀ (roots ++ [root]) live' ∧ (Whole M (.d, root) → out = .ok ()) := by
  obtain ⟨hin, hgrow⟩ := markRoot_grows hm
  have hsettled : Mark.Settled (edgesAt M) (Inner M roots₀) [] live' ∧
      (Whole M (.d, root) → out = .ok ()) := by
    unfold Tree.markRoot at hm
    split at hm
    · cases hm
      exact ⟨h.settled, fun _ => rfl⟩
    · by_cases hw : Whole M (.d, root)
      · obtain ⟨hout, hs⟩ := run_whole hM hU hroot hw (settled_root h.settled) hm
        exact ⟨hs, fun _ => hout⟩
      · exact ⟨run_broken hU hroot hw h.settled hm, fun hw' => absurd hw' hw⟩
  refine ⟨⟨hsettled.1, fun r hr hw => ?_, markRoot_sound hm h.sound⟩, hsettled.2⟩
  rcases List.mem_append.1 hr with hr | hr
  · exact hgrow _ (h.whole r hr hw)
  · obtain rfl := List.mem_singleton.1 hr
    exact hin

/-- The marking of all roots. A root that is whole is not among the broken ones. -/
theorem marked_markAll (hM : Keyed M) (hU : Unmixed M roots₀) {done : List Bytes}
    (hsub : ∀ root ∈ roots, root ∈ roots₀) (h : Marked M roots₀ done live)
    (hbroken : ∀ root ∈ broken, ¬Whole M (.d, root))
    (hm : markAll M fuel roots live broken = some (live', broken')) :
    Marked M roots₀ (done ++ roots) live' ∧ ∀ root ∈ broken', ¬Whole M (.d, root) := by
  induction roots generalizing done live broken with
  | nil =>
    cases hm
    rw [List.append_nil]
    exact ⟨h, hbroken⟩
  | cons root roots ih =>
    unfold markAll at hm
    cases hr : markRoot M fuel root live with
    | none => rw [hr] at hm; cases hm
    | some r =>
      obtain ⟨live₁, out⟩ := r
      rw [hr] at hm
      obtain ⟨h₁, hout⟩ := h.markRoot hM hU (hsub _ (.head _)) hr
      have hsub' := fun r hr => hsub r (.tail root hr)
      rw [show done ++ root :: roots = (done ++ [root]) ++ roots by simp]
      cases out with
      | ok => exact ih hsub' h₁ hbroken hm
      | error e =>
        refine ih hsub' h₁ ?_ hm
        intro r hr
        rcases List.mem_append.1 hr with hr | hr
        · exact hbroken r hr
        · obtain rfl := List.mem_singleton.1 hr
          exact fun hw => nomatch hout hw

/-- What a marked root leads to is marked, when its directories can be read and those with entries are
in `D`. -/
theorem live_of_reach {D : Bytes → Prop} (hs : Mark.Settled (edgesAt M) D [] live)
    (hread : ∀ id, Reach M (.d, root) (.d, id) → ∃ es, treeAt M id = .ok es)
    (hD : ∀ id e es, Reach M (.d, root) (.d, id) → treeAt M id = .ok (e :: es) → D id)
    (hroot : root ∈ live) {y : Ref} (hy : Reach M (.d, root) y) : y.2 ∈ live := by
  suffices hgen : ∀ x y, Reach M x y → Reach M (.d, root) x → x.2 ∈ live → y.2 ∈ live from
    hgen _ _ hy .refl hroot
  clear hy y
  intro x y hxy
  induction hxy with
  | refl => exact fun _ hx => hx
  | @step id buf es e y hbuf hes he _ ih =>
    intro hx hlive
    obtain ⟨es', htree⟩ := hread id hx
    obtain ⟨buf', hbuf', hes'⟩ := treeAt_ok htree
    cases hbuf.symm.trans hbuf'
    cases hes.symm.trans hes'
    refine ih (hx.tail htree he) ?_
    have hin : D id := by
      cases es with
      | nil => cases he
      | cons e es => exact hD id e es hx htree
    refine (hs id hlive hin).elim (fun hn => absurd hn List.not_mem_nil) fun hall => ?_
    exact hall _ (edgesAt_of_treeAt htree) _ (List.mem_map_of_mem he)

/-- Everything below a whole root is marked. -/
theorem Marked.reach (hM : Keyed M) (h : Marked M roots roots live) (hroot : root ∈ roots)
    (hw : Whole M (.d, root)) {y : Ref} (hy : Reach M (.d, root) y) : y.2 ∈ live := by
  refine live_of_reach h.settled (fun _ hid => hw.treeAt hM hid) (fun id e es hid htree => ?_)
    (h.whole root hroot hw) hy
  refine ⟨?_, root, hroot, hw, hid⟩
  rw [htree]
  exact fun hnil => by cases hnil

end

/-! ## Sweeping -/

/-- An id that was added to the live ones is among them, and they are. -/
theorem mem_insertLive {id a : Bytes} {live : List Bytes} :
    id ∈ insertLive a live ↔ id ∈ live ∨ id = a := by
  unfold insertLive
  split
  · next h =>
    constructor
    · exact .inl
    · rintro (h' | rfl)
      · exact h'
      · exact h
  · rw [List.mem_cons, or_comm]

theorem mem_insertAll {id : Bytes} {roots live : List Bytes} :
    id ∈ roots.foldl (fun live id => insertLive id live) live ↔ id ∈ live ∨ id ∈ roots := by
  induction roots generalizing live with
  | nil => simp
  | cons root roots ih => rw [List.foldl_cons, ih, mem_insertLive, List.mem_cons, or_assoc]

/-- The keys of tree roots. -/
def RootKeys (roots : List Bytes) (key : Bytes) : Prop := ∃ root ∈ roots, key = rootKey root true

/-- A collection came to its end: the broken roots are gone, and of the blobs those are left that
`keep` admits, which are the live ones and the blob roots. -/
structure Swept (p : Nat) (live broken : List Bytes) (keep : Bytes → Bool) (s s' : Sys) : Prop where
  keeps : ∀ id, keep id = true ↔ id ∈ live ∨ Registered (s.model p).view id false
  blobs : s'.blobs p = (s.blobs p).restrict keep
  committed : s'.committed.blobs = (s.blobs p).restrict keep
  trees : s'.trees = s.trees
  records : Pruned p (RootKeys broken) s s'
  broken : ∀ root ∈ broken, ¬Registered (s'.model p).view root true

/-- A collection that failed has deleted some of the broken roots. -/
structure Unswept (p : Nat) (broken : List Bytes) (s s' : Sys) : Prop where
  writes : Writes p (RootKeys broken) s s'
  records : Pruned p (RootKeys broken) s s'

section

variable {ext : Ext} {ok : Call → Sys → Choice → Prop} {p : Nat} {I : Sys → Prop} {s : Sys}
  {σ : Pending}

/-- A root is registered by its record. -/
theorem Registered.frame {st st' : Store} {root : Bytes} {tree : Bool}
    (h : st'.records.find? (rootKey root tree) = st.records.find? (rootKey root tree)) :
    Registered st' root tree ↔ Registered st root tree := by
  rw [Registered, Registered, h]

/-- The sweep deletes what is not live and the broken roots, or throws on the way. -/
theorem safe_sweep {live broken : List Bytes} (hI : Unrecorded p I) (hs : (solo ext ok p I).Inv s)
    (hswept : ∀ keep s', Swept p live broken keep s s' → I s') :
    Eff.Safe (solo ext ok p I)
      (fun x σ' s' => σ' = σ ∧ ((∃ e, x = .error e) ∧ Unswept p broken s s' ∨
        x = .ok () ∧ ∃ keep, Swept p live broken keep s s')) (sweep live broken) σ s := by
  unfold sweep
  refine safe_bind hs (quiet_deleteAll (K := RootKeys broken) hI hs ?_) ?_ ?_
  · intro key hkey
    obtain ⟨root, hroot, rfl⟩ := List.mem_map.1 hkey
    exact ⟨root, hroot, rfl⟩
  · rintro u σ₁ s₁ hs₁ ⟨hw, rfl, hclock, hdel⟩
    have hpruned : Pruned p (RootKeys broken) s s₁ :=
      ⟨hclock, fun key val hk => (hdel key val hk).1, hw.frame⟩
    have hunswept : Unswept p broken s s₁ := ⟨hw, hpruned⟩
    refine safe_bind (P := fun x σ' s' => σ' = σ₁ ∧
      ReadOutcome ((s₁.model p).view.scan blobPrefix) s₁ x s') hs₁
      (safe_metaScan hs₁ fun x hx => ⟨rfl, hx⟩) ?_ ?_
    · rintro blobs σ₂ s₂ - ⟨rfl, rfl, hx⟩
      obtain rfl : blobs = (s₂.model p).view.scan blobPrefix := by
        rcases hx with hx | ⟨e, hx⟩
        · exact Except.ok.inj hx
        · cases hx
      refine safe_compact fun x s' hx => ?_
      rcases hx with ⟨rfl, rfl⟩ | ⟨e, m, rfl, rfl, hm⟩
      · have hsw : Swept p live broken (fun hash => decide (hash ∈ (rootsOf
            ((s₂.model p).view.scan blobPrefix)).foldl (fun live id => insertLive id live) live)) s
            (s₂.setModel p ((s₂.model p).compact fun hash => decide (hash ∈ (rootsOf
              ((s₂.model p).view.scan blobPrefix)).foldl (fun live id => insertLive id live) live))) := by
          refine ⟨fun id => ?_, ?_, ?_, hw.trees, ⟨hclock, ?_, ?_⟩, ?_⟩
          · rw [decide_eq_true_iff, mem_insertAll]
            refine or_congr_right ((mem_rootsOf false).trans (Registered.frame ?_))
            refine hw.frame _ ?_
            rintro ⟨root, -, hkey⟩
            cases (rootKey_injective hkey).2
          · rw [Sys.blobs_setModel, ← hw.blobs]
            rfl
          · rw [← hw.blobs]
            rfl
          · rw [Sys.model_setModel]
            exact hpruned.sub
          · rw [Sys.model_setModel]
            exact hpruned.frame
          · rw [Sys.model_setModel]
            intro root hroot hreg
            obtain ⟨val, hval⟩ := Option.isSome_iff_exists.1 hreg
            exact (hdel _ _ hval).2 rfl (List.mem_map.2 ⟨root, hroot, rfl⟩)
        exact ⟨hswept _ _ hsw, rfl, .inr ⟨rfl, _, hsw⟩⟩
      · have hw' : Writes p (RootKeys broken) s₂ (s₂.setModel p m) ∧
            Pruned p (RootKeys broken) s₂ (s₂.setModel p m) := by
          rcases hm with rfl | rfl
          · rw [Sys.setModel_model hs₁.1]
            exact ⟨.refl _, rfl, fun _ _ h => h, fun _ _ => rfl⟩
          · refine ⟨.sync, rfl, ?_, ?_⟩
            · rw [Sys.model_setModel]
              exact fun _ _ h => h
            · rw [Sys.model_setModel]
              exact fun _ _ => rfl
        exact ⟨hI _ _ _ (hw.trans hw'.1) hs.2, rfl,
          .inl ⟨⟨e, rfl⟩, hw.trans hw'.1, hpruned.trans hw'.2⟩⟩
    · rintro e σ₂ s₂ - ⟨rfl, rfl, -⟩
      exact ⟨rfl, .inl ⟨⟨e, rfl⟩, hunswept⟩⟩
  · rintro e σ₁ s₁ - ⟨hw, rfl, hclock, hdel⟩
    exact ⟨rfl, .inl ⟨⟨e, rfl⟩, hw, hclock, fun key val hk => (hdel key val hk).1, hw.frame⟩⟩

end

section

variable {ext : Ext} {ok : Call → Sys → Choice → Prop} {p : Nat} {I : Sys → Prop} {s : Sys}
  {σ : Pending}

/-- The registered tree roots, as the collection scans them. -/
abbrev treeRoots (s : Sys) (p : Nat) : List Bytes := rootsOf ((s.model p).view.scan treePrefix)

/-- A collection comes to its end with what it has marked swept, or fails before that. -/
theorem safe_collect {fuel : Nat} (hok : ReadsWork ok) (hI : Unrecorded p I)
    (hs : (solo ext ok p I).Inv s)
    (hswept : ∀ live broken keep s', markAll (s.blobs p) fuel (treeRoots s p) [] [] =
      some (live, broken) → Swept p live broken keep s s' → I s') :
    Eff.Safe (solo ext ok p I)
      (fun x σ' s' => σ' = σ ∧
        ((∃ e, x = .error e) ∧ (s' = s ∨ ∃ live broken, markAll (s.blobs p) fuel (treeRoots s p) [] [] =
          some (live, broken) ∧ Unswept p broken s s') ∨
        x = .ok () ∧ ∃ live broken keep, markAll (s.blobs p) fuel (treeRoots s p) [] [] =
          some (live, broken) ∧ Swept p live broken keep s s')) (collect fuel) σ s := by
  unfold collect
  refine safe_bind (P := fun x σ' s' => σ' = σ ∧
    ReadOutcome ((s.model p).view.scan treePrefix) s x s') hs
    (safe_metaScan hs fun x hx => ⟨rfl, hx⟩) ?_ ?_
  · rintro records σ₁ s₁ - ⟨rfl, rfl, hx⟩
    obtain rfl : records = (s₁.model p).view.scan treePrefix := by
      rcases hx with hx | ⟨e, hx⟩
      · exact Except.ok.inj hx
      · cases hx
    refine safe_bind hs (safe_markRoots hok hs) ?_ ?_
    · rintro ⟨live, broken⟩ σ₂ s₂ - ⟨rfl, rfl, hr⟩
      have hm : markAll (s₂.blobs p) fuel (treeRoots s₂ p) [] [] = some (live, broken) := by
        cases hm : markAll (s₂.blobs p) fuel (treeRoots s₂ p) [] [] with
        | none => rw [hm] at hr; cases hr
        | some r => rw [hm] at hr; cases hr; rfl
      refine Eff.Safe.mono (safe_sweep hI hs fun keep s' h => hswept live broken keep s' hm h) ?_
      rintro x σ' s' - ⟨rfl, ⟨he, h⟩ | ⟨hx, keep, h⟩⟩
      · exact ⟨rfl, .inl ⟨he, .inr ⟨live, broken, hm, h⟩⟩⟩
      · exact ⟨rfl, .inr ⟨hx, live, broken, keep, hm, h⟩⟩
    · rintro e σ₂ s₂ - ⟨rfl, rfl, -⟩
      exact ⟨rfl, .inl ⟨⟨e, rfl⟩, .inl rfl⟩⟩
  · rintro e σ₁ s₁ - ⟨rfl, rfl, -⟩
    exact ⟨rfl, .inl ⟨⟨e, rfl⟩, .inl rfl⟩⟩

end

/-! ## Tidy collections -/

/-- What a collection is there to keep: blob roots, and what can be reached from whole tree roots. -/
def Kept (p : Nat) (s : Sys) (id : Bytes) : Prop :=
  Registered (s.model p).view id false ∨
    ∃ root ∈ treeRoots s p, Whole (s.blobs p) (.d, root) ∧ ∃ t, Reach (s.blobs p) (.d, root) (t, id)

/-- An object a collection can keep without its entries: a blob root, a file below a tree root, or
something below a root that is not whole. -/
def FileUse (p : Nat) (s : Sys) (id : Bytes) : Prop :=
  Registered (s.model p).view id false ∨
    ∃ root ∈ treeRoots s p, (∃ t, Reach (s.blobs p) (.d, root) (.leaf t, id)) ∨
      (¬Whole (s.blobs p) (.d, root) ∧ Reach (s.blobs p) (.d, root) (.d, id))

/-- A collection in which no directory is only kept as a file, unless its entries are kept anyway. -/
structure Tidy (p : Nat) (s : Sys) : Prop where
  unmixed : Unmixed (s.blobs p) (treeRoots s p)
  file : ∀ id ∈ s.trees, FileUse p s id → ∀ es, treeAt (s.blobs p) id = .ok es →
    ∀ e ∈ es, Kept p s e.id

/-- What a tidy collection did, whether or not it came to its end. -/
structure Collected (p : Nat) (s s' : Sys) : Prop where
  clock : s'.clock = s.clock
  trees : s'.trees = s.trees
  blobs : s'.blobs p = s.blobs p ∨
    ∃ keep, s'.blobs p = (s.blobs p).restrict keep ∧ ∀ id, Kept p s id → keep id = true
  records : ∃ broken, (∀ root ∈ broken, ¬Whole (s.blobs p) (.d, root)) ∧
    Pruned p (RootKeys broken) s s'

section

variable {p : Nat} {s s' : Sys} {fuel : Nat} {live broken : List Bytes} {keep : Bytes → Bool}

/-- The marks are those of the roots that are whole; the others are broken. -/
theorem marked_treeRoots (hM : Keyed (s.blobs p)) (hU : Unmixed (s.blobs p) (treeRoots s p))
    (hm : markAll (s.blobs p) fuel (treeRoots s p) [] [] = some (live, broken)) :
    Marked (s.blobs p) (treeRoots s p) (treeRoots s p) live ∧
      ∀ root ∈ broken, ¬Whole (s.blobs p) (.d, root) := by
  have h₀ : Marked (s.blobs p) (treeRoots s p) [] [] := ⟨nofun, nofun, nofun⟩
  have hnone : ∀ root ∈ ([] : List Bytes), ¬Whole (s.blobs p) (.d, root) := nofun
  exact marked_markAll hM hU (fun _ h => h) h₀ hnone hm

/-- The sweep keeps what has to be kept. -/
theorem Swept.kept (hM : Keyed (s.blobs p)) (hmarked : Marked (s.blobs p) (treeRoots s p)
    (treeRoots s p) live) (h : Swept p live broken keep s s') {id : Bytes} (hk : Kept p s id) :
    keep id = true := by
  rw [h.keeps]
  rcases hk with hk | ⟨root, hroot, hw, t, ht⟩
  · exact .inr hk
  · exact .inl (hmarked.reach hM hroot hw ht)

/-- A tidy store that was swept is a collected one. -/
theorem Swept.collected (hM : Keyed (s.blobs p)) (ht : Tidy p s)
    (hm : markAll (s.blobs p) fuel (treeRoots s p) [] [] = some (live, broken))
    (h : Swept p live broken keep s s') : Collected p s s' := by
  obtain ⟨hmarked, hbroken⟩ := marked_treeRoots hM ht.unmixed hm
  exact ⟨h.records.clock, h.trees, .inr ⟨keep, h.blobs, fun _ => h.kept hM hmarked⟩,
    broken, hbroken, h.records⟩

theorem Unswept.collected (hM : Keyed (s.blobs p)) (ht : Tidy p s)
    (hm : markAll (s.blobs p) fuel (treeRoots s p) [] [] = some (live, broken))
    (h : Unswept p broken s s') : Collected p s s' :=
  ⟨h.records.clock, h.writes.trees, .inl h.writes.blobs, broken,
    (marked_treeRoots hM ht.unmixed hm).2, h.records⟩

/-- Nothing needs to be collected. -/
theorem Collected.refl : Collected p s s :=
  ⟨rfl, rfl, .inl rfl, [], nofun, rfl, fun _ _ h => h, fun _ _ => rfl⟩

/-- What is left of a map is what is kept of it. -/
theorem restrict_eq_some {M : BlobMap} {id d : Bytes} :
    M.restrict keep id = some d ↔ keep id = true ∧ M id = some d := by
  unfold BlobMap.restrict
  split
  · next h => simp [h]
  · next h => simp [h]

/-- A tree is still whole when everything it has is kept. -/
theorem Whole.restrict {M : BlobMap} {ref : Ref} (hw : Whole M ref)
    (hkeep : ∀ y, Reach M ref y → keep y.2 = true) : Whole (M.restrict keep) ref := by
  have hgrows : Grows (M.restrict keep) M := fun id d hid => (restrict_eq_some.1 hid).2
  intro y hy
  have hy' := hy.mono hgrows
  obtain ⟨d, hd, ht⟩ := hw y hy'
  exact ⟨d, restrict_eq_some.2 ⟨hkeep y hy', hd⟩, ht⟩

/-- A collection keeps what is kept by a root record, if it is whole. -/
theorem Collected.whole {ref : Ref} (h : Collected p s s') (hw : Whole (s.blobs p) ref)
    (hreg : Registered (s.model p).view ref.2 (decide (ref.1 = .d))) : Whole (s'.blobs p) ref := by
  have hkept (y : Ref) (hy : Reach (s.blobs p) ref y) : Kept p s y.2 := by
    obtain ⟨t, id⟩ := ref
    cases t with
    | d => exact .inr ⟨id, (mem_rootsOf true).2 hreg, hw, y.1, hy⟩
    | leaf t =>
      cases hy
      exact .inl hreg
  rcases h.blobs with hb | ⟨keep, hb, hkeep⟩
  · rw [hb]
    exact hw
  · rw [hb]
    exact hw.restrict fun y hy => hkeep _ (hkept y hy)

end

end Tarmac.Tree
