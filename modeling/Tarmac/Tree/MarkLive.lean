import Tarmac.Tree.Walker

/-!
# Marking the live objects

What `mark_live` does with one root, when every object it reads is the one the graph has, whatever else
happens meanwhile and whatever reads fail (`ReadsFrom`). It reads no object twice, and none that was
live before (`run_markLoop_reads`), so as many rounds as there are objects, and one that fails, are all
it can make. A run that is not stopped does what the work list of `Tarmac.Lib.Mark` does
(`run_markLoop_ok`): what was live and what the root leads to is live then.
-/

namespace Tarmac.Tree

open PackCas

/-! ## Object graphs -/

/-- An object that is read is the one of the graph. -/
def ReadsFrom (M : BlobMap) (sem : Sem sig Sys) : Prop :=
  ∀ id s (r : Except Err (Option Bytes)) s', sem (.get id) s r s' → ∀ d, r = .ok (some d) → M id = some d

/-- The entries of a directory of the graph. -/
def entriesAt (M : BlobMap) (id : Bytes) : Except Err (List TreeEntry) :=
  match M id with
  | none => .error (.corrupt "missing tree object")
  | some data => decodeTree data

/-- No id is referenced both as a directory and as a file: `Dir` are the ids of directories, and the
entries of directories agree with it. -/
def OneKind (M : BlobMap) (Dir : Bytes → Prop) : Prop :=
  ∀ id es, Dir id → entriesAt M id = .ok es → ∀ e ∈ es, e.type = .d ↔ Dir e.id

/-- The children of the directories among some ids are among them. -/
def ClosedUnder (M : BlobMap) (Dir : Bytes → Prop) (live : List Bytes) : Prop :=
  ∀ id ∈ live, Dir id → ∀ es, entriesAt M id = .ok es → ∀ e ∈ es, e.id ∈ live

/-- The ids that were read for, in order. -/
def readIds (tr : List (Tarmac.Event sig)) : List Bytes :=
  tr.filterMap fun e => match e with
    | ⟨.get id, _⟩ => some id
    | _ => none

/-- What leads out of a node, as the marker sees it. -/
def edgesOf (M : BlobMap) (id : Bytes) : Except Err (Mark.Edges Bytes) :=
  (entriesAt M id).map fun es => es.map fun e => (e.id, decide (e.type = .d))

section

variable {M : BlobMap} {Dir : Bytes → Prop} {sem : Sem sig Sys} {σ σ' : Pending} {s s' : Sys}
  {tr : List (Tarmac.Event sig)} {id : Bytes} {fuel : Nat} {pending live live' : List Bytes}

/-- The edges of a node are the entries of a directory. -/
theorem edgesOf_ok {es : Mark.Edges Bytes} (h : edgesOf M id = .ok es) :
    ∃ es', entriesAt M id = .ok es' ∧ es = es'.map fun e => (e.id, decide (e.type = .d)) := by
  unfold edgesOf at h
  cases hes : entriesAt M id with
  | error e => rw [hes] at h; cases h
  | ok es' =>
    rw [hes] at h
    cases h
    exact ⟨es', rfl, rfl⟩

/-- The entries of a directory that is there. -/
theorem entriesAt_ok {es : List TreeEntry} (h : entriesAt M id = .ok es) :
    ∃ buf, M id = some buf ∧ decodeTree buf = .ok es := by
  unfold entriesAt at h
  split at h
  · cases h
  · next buf hbuf => exact ⟨buf, hbuf, h⟩

/-- Other processes may do anything meanwhile, as long as what is in the store are objects of the
graph. -/
theorem readsFrom_amid (ext : Ext) (p : Nat) : ReadsFrom M (amid ext (Holds M p) p) := by
  rintro id _ r s' ⟨s, ch, hholds, hx⟩ d rfl
  have hx : some (ch.lookup id (s.blobs p id), s) = some (.ok (some d), s') := hx
  have hlook : ch.lookup id (s.blobs p id) = .ok (some d) := congrArg Prod.fst (Option.some.inj hx)
  unfold Choice.lookup Choice.read at hlook
  split at hlook
  · cases hlook
  · split at hlook
    · cases hlook
    · exact hholds id d (Except.ok.inj hlook)

/-! ## Reading -/

/-- What `readTree` makes of an answer. -/
def parseTree (r : Except Err (Option Bytes)) : Except Err (List TreeEntry) :=
  match r with
  | .error e => .error e
  | .ok none => .error (.corrupt "missing tree object")
  | .ok (some data) => decodeTree data

/-- An attempt to read a directory is one call. -/
theorem attempt_readTree (id : Bytes) (σ : Pending) : attempt (readTree id) σ =
    .call (.get id) fun r => match parseTree r with
      | .ok es => .ret (.ok (.ok es), σ)
      | .error e => if e.caught then .ret (.ok (.error e), σ) else .ret (.error e, σ) := by
  refine congrArg (Prog.call (S := sig) (.get id))
    (funext fun r : Except Err (Option Bytes) => ?_)
  obtain e | data | d := r
  · rfl
  · rfl
  · show attempt (Eff.ofExcept (decodeTree d)) σ = _
    rw [show parseTree (.ok (some d)) = decodeTree d from rfl]
    cases decodeTree d <;> rfl

/-- What was parsed are the entries of the object that was read. -/
theorem parseTree_ok {r : Except Err (Option Bytes)} {es : List TreeEntry}
    (hobj : ∀ d, r = .ok (some d) → M id = some d) (h : parseTree r = .ok es) :
    entriesAt M id = .ok es := by
  obtain e | data | d := r
  · cases h
  · cases h
  · unfold entriesAt
    rw [hobj d rfl]
    exact h

/-- Only a failing call is not caught. -/
theorem parseTree_error {r : Except Err (Option Bytes)} {e : Err} (h : parseTree r = .error e)
    (hc : ¬e.caught) : r = .error e := by
  obtain e' | data | d := r
  · cases h
    rfl
  · cases h
    exact absurd rfl hc
  · exact absurd (decodeLoop_caught h) hc

/-- What one attempt to read a directory comes to. -/
inductive ReadOnce (M : BlobMap) (id : Bytes) :
    Except Err (Option Bytes) → Except Err (Except Err (List TreeEntry)) → Prop
  | ok {r : Except Err (Option Bytes)} {es : List TreeEntry} (hes : entriesAt M id = .ok es) :
      ReadOnce M id r (.ok (.ok es))
  | failed {r : Except Err (Option Bytes)} {e : Err} : ReadOnce M id r (.ok (.error e))
  | crashed {e : Err} : ReadOnce M id (.error e) (.error e)

/-- An attempt to read a directory makes one `get`. -/
theorem run_attempt_readTree (hsem : ReadsFrom M sem) {x : Except Err (Except Err (List TreeEntry))}
    (hr : Prog.Run sem (attempt (readTree id) σ) s tr (x, σ') s') :
    ∃ r : Except Err (Option Bytes), tr = [⟨.get id, r⟩] ∧ ReadOnce M id r x := by
  rw [attempt_readTree] at hr
  cases hr with
  | @call _ _ _ s₁ _ r tr' _ hstep hrest =>
    have hobj := hsem id s r s₁ hstep
    refine ⟨r, ?_⟩
    dsimp only at hrest
    split at hrest
    · next es hes =>
      cases hrest
      exact ⟨rfl, .ok (parseTree_ok hobj hes)⟩
    · next e he =>
      split at hrest
      · cases hrest
        exact ⟨rfl, .failed⟩
      · next hc =>
        cases hrest
        obtain rfl := parseTree_error he hc
        exact ⟨rfl, .crashed⟩

/-! ## The loop -/

/-- One round of the loop: it ends, or goes on behind a directory that was read. -/
theorem run_markLoop_succ (hsem : ReadsFrom M sem) {x : Except Err (List Bytes × Except Err Unit)}
    (hr : Prog.Run sem (markLoop (fuel + 1) (id :: pending) live σ) s tr (x, σ') s') :
    ∃ r : Except Err (Option Bytes), ∃ tr', tr = ⟨.get id, r⟩ :: tr' ∧
      ((tr' = [] ∧ ((∃ e, x = .ok (live, .error e)) ∨ ∃ e, r = .error e ∧ x = .error e)) ∨
      ∃ es σ₁ s₁, entriesAt M id = .ok es ∧
        Prog.Run sem (markLoop fuel (markEntries es pending live).1 (markEntries es pending live).2 σ₁)
          s₁ tr' (x, σ') s') := by
  unfold markLoop at hr
  rcases Eff.run_seq hr with ⟨tr₁, y, σ₁, s₁, tr₂, hread, hrest, rfl⟩ | ⟨e, rfl, hread⟩
  · obtain ⟨r, rfl, hy⟩ := run_attempt_readTree hsem hread
    refine ⟨r, tr₂, rfl, ?_⟩
    cases hy with
    | ok hes => exact .inr ⟨_, σ₁, s₁, hes, hrest⟩
    | failed =>
      cases hrest
      exact .inl ⟨rfl, .inl ⟨_, rfl⟩⟩
  · obtain ⟨r, rfl, hy⟩ := run_attempt_readTree hsem hread
    cases hy
    exact ⟨_, [], rfl, .inl ⟨rfl, .inr ⟨e, rfl, rfl⟩⟩⟩

/-- It counts as one read of the id. -/
theorem readIds_get {r : Except Err (Option Bytes)} :
    readIds (⟨.get id, r⟩ :: tr) = id :: readIds tr := rfl

/-- The loop reads no id twice, and none that is marked and not pending. It crashes only where a call
does, and is out of rounds only when it has read as many directories. -/
theorem run_markLoop_reads (hsem : ReadsFrom M sem) {x : Except Err (List Bytes × Except Err Unit)}
    (hn : pending.Nodup) (hsub : ∀ id ∈ pending, id ∈ live)
    (hr : Prog.Run sem (markLoop fuel pending live σ) s tr (x, σ') s') :
    (readIds tr).Nodup ∧ (∀ id ∈ readIds tr, id ∈ pending ∨ id ∉ live) ∧
      ∀ e, x = .error e → (∃ id, (⟨.get id, .error e⟩ : Tarmac.Event sig) ∈ tr) ∨
        (readIds tr).length = fuel ∧ ∀ id ∈ readIds tr, (M id).isSome := by
  induction fuel generalizing pending live σ s tr with
  | zero =>
    cases pending with
    | nil =>
      cases hr
      exact ⟨.nil, nofun, nofun⟩
    | cons id pending =>
      cases hr
      exact ⟨.nil, nofun, fun _ _ => .inr ⟨rfl, nofun⟩⟩
  | succ fuel ih =>
    cases pending with
    | nil =>
      cases hr
      exact ⟨.nil, nofun, nofun⟩
    | cons id pending =>
      obtain ⟨hid, hpend⟩ := List.nodup_cons.1 hn
      obtain ⟨r, tr', rfl, h | ⟨es, σ₁, s₁, hes, hrest⟩⟩ := run_markLoop_succ hsem hr
      · obtain ⟨rfl, hx⟩ := h
        rw [readIds_get]
        refine ⟨List.nodup_cons.2 ⟨nofun, .nil⟩, ?_, ?_⟩
        · intro id' hid'
          obtain rfl := List.mem_singleton.1 hid'
          exact .inl (.head _)
        · rintro e rfl
          obtain ⟨e', hx⟩ | ⟨e', rfl, hx⟩ := hx
          · cases hx
          · cases hx
            exact .inl ⟨id, .head _⟩
      · rw [markEntries_eq] at hrest
        generalize hmap : es.map (fun e => (e.id, decide (e.type = .d))) = edges at hrest
        have hlive : id ∈ live := hsub id (.head _)
        have hgrow := (Mark.push_spec edges pending live).1
        obtain ⟨hn', hsub', hnew⟩ :=
          Mark.push_fresh edges hpend fun a ha => hsub a (.tail _ ha)
        obtain ⟨hnodup, hfrom, herr⟩ := ih hn' hsub' hrest
        rw [readIds_get]
        refine ⟨List.nodup_cons.2 ⟨?_, hnodup⟩, ?_, ?_⟩
        · intro hagain
          rcases hfrom id hagain with h | h
          · exact (hnew id h).elim hid fun h => h hlive
          · exact h (hgrow id hlive)
        · intro id' hid'
          rcases List.mem_cons.1 hid' with rfl | hid'
          · exact .inl (.head _)
          · rcases hfrom id' hid' with h | h
            · exact (hnew id' h).imp_left (.tail _)
            · exact .inr fun hm => h (hgrow id' hm)
        · intro e he
          rcases herr e he with ⟨id', hmem⟩ | ⟨hlen, hall⟩
          · exact .inl ⟨id', .tail _ hmem⟩
          · refine .inr ⟨by rw [List.length_cons, hlen], fun id' hid' => ?_⟩
            rcases List.mem_cons.1 hid' with rfl | hid'
            · obtain ⟨buf, hbuf, -⟩ := entriesAt_ok hes
              rw [hbuf]
              rfl
            · exact hall id' hid'

/-- A run of the loop that is not stopped does what the marker does. -/
theorem run_markLoop_ok (hsem : ReadsFrom M sem)
    (hr : Prog.Run sem (markLoop fuel pending live σ) s tr (.ok (live', .ok ()), σ') s') :
    Mark.run (edgesOf M) fuel pending live = some (live', .ok ()) := by
  induction fuel generalizing pending live σ s tr with
  | zero =>
    cases pending with
    | nil => cases hr; rfl
    | cons => cases hr
  | succ fuel ih =>
    cases pending with
    | nil => cases hr; rfl
    | cons id pending =>
      obtain ⟨r, tr', rfl, ⟨-, ⟨e, h⟩ | ⟨e, -, h⟩⟩ | ⟨es, σ₁, s₁, hes, hrest⟩⟩ :=
        run_markLoop_succ hsem hr
      · cases h
      · cases h
      · unfold Mark.run
        rw [edgesOf, hes]
        dsimp only [Except.map]
        rw [markEntries_eq] at hrest
        exact ih hrest

/-! ## What is marked -/

/-- Among ids closed under children, everything a directory leads to is found. -/
theorem ClosedUnder.reach {x y : Ref} (hkind : OneKind M Dir) (h : ClosedUnder M Dir live)
    (hr : Reach M x y) (hx : x.1 = .d → Dir x.2) (hlive : x.2 ∈ live) : y.2 ∈ live := by
  induction hr with
  | refl => exact hlive
  | @step id buf es e y hbuf hes he _ ih =>
    have hentries : entriesAt M id = .ok es := by
      unfold entriesAt
      rw [hbuf]
      exact hes
    have hdir := hx rfl
    exact ih (fun hd => (hkind id es hdir hentries e he).1 hd) (h id hlive hdir es hentries e he)

/-- What the marker has marked when it is not stopped. -/
theorem marked_run {root : Bytes} (hkind : OneKind M Dir) (hroot : Dir root)
    (hclosed : ClosedUnder M Dir live)
    (h : Mark.run (edgesOf M) fuel [root] (root :: live) = some (live', .ok ())) :
    (∀ id, id ∈ live' ↔ id ∈ live ∨ ∃ t, Reach M (.d, root) (t, id)) ∧ ClosedUnder M Dir live' := by
  have hedge {a : Bytes} {es : Mark.Edges Bytes} (ha : Dir a) (hes : edgesOf M a = .ok es) :
      (∀ b, (b, true) ∈ es → Dir b) ∧ ∀ b, (b, false) ∈ es → ¬Dir b := by
    obtain ⟨es', hes', rfl⟩ := edgesOf_ok hes
    constructor
    · intro b hb
      obtain ⟨e, he, rfl, hd⟩ := mem_edges hb
      exact (hkind a es' ha hes' e he).1 (of_decide_eq_true hd.symm)
    · intro b hb
      obtain ⟨e, he, rfl, hd⟩ := mem_edges hb
      exact fun hdir => of_decide_eq_false hd.symm ((hkind a es' ha hes' e he).2 hdir)
  have hstart : Mark.Settled (edgesOf M) Dir [root] (root :: live) := by
    intro a ha hdir
    rcases List.mem_cons.1 ha with rfl | ha
    · exact .inl (.head _)
    · right
      intro es hes e he
      obtain ⟨es', hes', rfl⟩ := edgesOf_ok hes
      obtain ⟨e', he', heq, -⟩ := mem_edges he
      exact heq ▸ .tail _ (hclosed a ha hdir es' hes' e' he')
  have hsettled := Mark.run_ok_settled (P := Dir) (fun a es => hedge)
    (fun a ha => List.mem_singleton.1 ha ▸ hroot) hstart h
  have hclosed' : ClosedUnder M Dir live' := by
    intro a ha hdir es hes e he
    rcases hsettled a ha hdir with h | h
    · cases h
    · have hedges : edgesOf M a = .ok (es.map fun e => (e.id, decide (e.type = .d))) := by
        rw [edgesOf, hes]
        rfl
      exact h _ hedges (e.id, decide (e.type = .d)) (List.mem_map.2 ⟨e, he, rfl⟩)
  refine ⟨fun id => ⟨fun hid => ?_, ?_⟩, hclosed'⟩
  · have hsound := Mark.run_sound (P := fun a => Reach M (.d, root) (.d, a))
      (Q := fun a => ∃ t, Reach M (.d, root) (t, a)) ?_ ?_ h id hid
    · rcases hsound with hmem | hreach
      · rcases List.mem_cons.1 hmem with rfl | hmem
        · exact .inr ⟨.d, .refl⟩
        · exact .inl hmem
      · exact .inr hreach
    · intro a es ha hes b inner hb
      obtain ⟨es', hes', rfl⟩ := edgesOf_ok hes
      obtain ⟨e, he, rfl, hd⟩ := mem_edges hb
      obtain ⟨buf, hbuf, hdec⟩ := entriesAt_ok hes'
      have hreach := ha.behind hbuf hdec he
      refine ⟨⟨e.type, hreach⟩, ?_⟩
      rintro rfl
      rw [TreeEntry.ref, of_decide_eq_true hd.symm] at hreach
      exact hreach
    · intro a ha
      obtain rfl := List.mem_singleton.1 ha
      exact .refl
  · rintro (hold | ⟨t, hreach⟩)
    · exact Mark.run_grows h id (.tail _ hold)
    · exact hclosed'.reach hkind hreach (fun _ => hroot) (Mark.run_grows h root (.head _))

/-- In a store with the given objects, whose ids are of one kind each, `mark_live` comes to its end
after at most as many rounds as there are objects and one more. It reads no object twice, and none that
was live; and unless a read stops it, what was live and what the root leads to is live then, and that is
closed under children if it was before. -/
theorem markLive_marks {root : Bytes} {objects : List Bytes}
    {x : Except Err (List Bytes × Except Err Unit)} (hobjects : ∀ id, (M id).isSome → id ∈ objects)
    (hkind : OneKind M Dir) (hroot : Dir root) (hclosed : ClosedUnder M Dir live)
    (hfuel : objects.length < fuel) (hsem : ReadsFrom M sem)
    (hr : Prog.Run sem (markLive fuel root live σ) s tr (x, σ') s') :
    (readIds tr).Nodup ∧ (∀ id ∈ readIds tr, id ∉ live) ∧
    (∀ e, x = .error e → ∃ id, (⟨.get id, .error e⟩ : Tarmac.Event sig) ∈ tr) ∧
    ∀ live', x = .ok (live', .ok ()) →
      (∀ id, id ∈ live' ↔ id ∈ live ∨ ∃ t, Reach M (.d, root) (t, id)) ∧ ClosedUnder M Dir live' := by
  unfold markLive at hr
  split at hr
  · next hmem =>
    cases hr
    refine ⟨.nil, nofun, nofun, fun live' hx => ?_⟩
    cases hx
    refine ⟨fun id => ⟨.inl, ?_⟩, hclosed⟩
    rintro (hold | ⟨t, hreach⟩)
    · exact hold
    · exact hclosed.reach hkind hreach (fun _ => hroot) hmem
  · next hmem =>
    obtain ⟨hnodup, hfrom, herr⟩ := run_markLoop_reads hsem (List.nodup_singleton root)
      (fun a ha => List.mem_singleton.1 ha ▸ .head _) hr
    refine ⟨hnodup, fun id hid => ?_, fun e he => ?_, fun live' hx => ?_⟩
    · rcases hfrom id hid with h | h
      · exact List.mem_singleton.1 h ▸ hmem
      · exact fun hlive => h (.tail _ hlive)
    · rcases herr e he with h | ⟨hlen, hall⟩
      · exact h
      · -- as many objects were read as there are rounds, so there are as many
        have hle := (List.subperm_of_subset hnodup fun id hid => hobjects id (hall id hid)).length_le
        omega
    · subst hx
      exact marked_run hkind hroot hclosed (run_markLoop_ok hsem hr)

end

/-! ## A directory in itself -/

/-- An id whose directory has itself as its entry. -/
def loopId : Bytes := List.replicate 32 1

/-- The one object of the graph. -/
def loopMap : BlobMap := fun id => if id = loopId then some (encodeTree [⟨[97], .d, loopId⟩]) else none

/-- A store with that object. -/
def loopSys : Sys := { Sys.fresh with committed := ⟨loopMap, .empty, 0⟩ }

/-- The directory that contains itself. -/
theorem entriesAt_loop : entriesAt loopMap loopId = .ok [⟨[97], .d, loopId⟩] := by decide +kernel

/-- It is of one kind. -/
theorem oneKind_loop : OneKind loopMap (· = loopId) := by
  rintro id es rfl hes e he
  rw [entriesAt_loop] at hes
  cases hes
  obtain rfl := List.mem_singleton.1 he
  exact ⟨fun _ => rfl, fun _ => rfl⟩

/-- The run of the marker there. -/
theorem run_loop : Prog.Run (amid .sample (Holds loopMap 0) 0) (markLive 2 loopId [] []) loopSys
    [⟨.get loopId, .ok (loopMap loopId)⟩] (.ok ([loopId], .ok ()), []) loopSys := by
  have hread : Prog.Run (amid .sample (Holds loopMap 0) 0) (attempt (readTree loopId) []) loopSys
      [⟨.get loopId, .ok (loopMap loopId)⟩] (.ok (.ok [⟨[97], .d, loopId⟩]), []) loopSys := by
    rw [attempt_readTree]
    have hget : amid .sample (Holds loopMap 0) 0 (.get loopId) loopSys (.ok (loopMap loopId)) loopSys :=
      ⟨loopSys, {}, fun _ _ h => h, rfl⟩
    refine Prog.Run.call hget ?_
    have hparse : parseTree (.ok (loopMap loopId)) = .ok [⟨[97], .d, loopId⟩] := by decide +kernel
    rw [hparse]
    exact .ret
  unfold markLive
  rw [if_neg List.not_mem_nil]
  have hend : Prog.Run (amid .sample (Holds loopMap 0) 0) (markLoop 1 [] [loopId] []) loopSys []
      (.ok ([loopId], .ok ()), []) loopSys := .ret
  unfold markLoop
  have hmark : markEntries [⟨[97], .d, loopId⟩] [] [loopId] = ([], [loopId]) := by decide +kernel
  refine Prog.Run.bind hread ?_
  dsimp only
  rw [hmark]
  exact hend

/-- The marker ends in a directory that contains itself. -/
theorem markLive_marks_sample : ∃ tr, Prog.Run (amid .sample (Holds loopMap 0) 0)
      (markLive 2 loopId [] []) loopSys tr (.ok ([loopId], .ok ()), []) loopSys ∧
    (readIds tr).Nodup ∧ ∀ id, id ∈ [loopId] ↔ id ∈ [] ∨ ∃ t, Reach loopMap (.d, loopId) (t, id) := by
  have hobjects : ∀ id, (loopMap id).isSome → id ∈ [loopId] := by
    intro id hid
    unfold loopMap at hid
    split at hid
    · next h => exact h ▸ .head _
    · cases hid
  have hclosed : ClosedUnder loopMap (· = loopId) [] := fun _ h => absurd h List.not_mem_nil
  have hfuel : [loopId].length < 2 := by decide
  have hmarks := markLive_marks hobjects oneKind_loop rfl hclosed hfuel (readsFrom_amid .sample 0)
    run_loop
  exact ⟨_, run_loop, hmarks.1, (hmarks.2.2.2 _ rfl).1⟩

end Tarmac.Tree
