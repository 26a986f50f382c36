import Tarmac.Tree.Ops
import Tarmac.Tree.Shared

/-!
# Touches and the collections of other processes

A touch is queued when `touchRoot` has read the root's record, and written later, whatever became of
the record in between. `flush_refreshes` says what holds as long as no process deletes the record in
between: no flush creates a record, and every registered root is in the index. `flush_revives` is a
run in which another process expires and sweeps the root in between.
-/

namespace Tarmac.Tree

open PackCas

/-- What a process does that uses roots and collects. -/
inductive RootOp where
  | touchRoot (root : Bytes) (tree : Bool)
  | sync
  | maybeGc
  | destroy

/-- The code of an operation; the destructor of `TreeStore` flushes the touches. -/
def RootOp.code (cfg : Config) (fuel : Nat) : RootOp → TreeM Unit
  | .touchRoot root tree => Tree.touchRoot cfg root tree
  | .sync => Tree.sync
  | .maybeGc => Tree.maybeGc cfg fuel
  | .destroy => flushTouches

/-- The processes, each with its intervals. -/
def rootMachine (ext : Ext) (ok : Call → Sys → Choice → Prop) (cfg : Nat → Config) (fuel : Nat) :
    Machine Nat sig Sys RootOp Pending (Except Err Unit) :=
  machine ext (fun _ => ok) fun p op => op.code (cfg p) fuel

/-! ## Roots that are there -/

/-- No batch is open, and every registered root is in the index. -/
structure Rooted (s : Sys) : Prop where
  writer : s.writer = none
  present : ∀ root tree, Registered s.committed root tree → (s.committed.blobs root).isSome

/-- No root is registered that was not registered before. -/
def Fewer (s s' : Sys) : Prop :=
  ∀ root tree, Registered s'.committed root tree → Registered s.committed root tree

/-- No root was added. -/
theorem Fewer.refl (s : Sys) : Fewer s s := fun _ _ h => h

theorem Fewer.trans {s₁ s₂ s₃ : Sys} (h : Fewer s₁ s₂) (h' : Fewer s₂ s₃) : Fewer s₁ s₃ :=
  fun root tree hr => h root tree (h' root tree hr)

/-- All registered roots are among the listed. -/
def Covers (roots : List Bytes) (tree : Bool) (s : Sys) : Prop :=
  ∀ root, Registered s.committed root tree → root ∈ roots

/-- The roots are covered while no root is added. -/
theorem Covers.mono {roots roots' : List Bytes} {tree : Bool} {s s' : Sys} (h : Covers roots tree s)
    (hsub : roots ⊆ roots') (hs : Fewer s s') : Covers roots' tree s' :=
  fun root hr => hsub (h root (hs root tree hr))

/-- The records of roots that are written are there already. -/
def refreshes (c : Call) (s : Sys) (_ : Choice) : Prop :=
  ∀ root tree val, c = .metaPut (rootKey root tree) val → Registered s.committed root tree

section

variable {ext : Ext} {p : Nat} {s s' : Sys} {σ : Pending} {α : Type} {cfg : Config} {fuel : Nat}

/-- A compaction that keeps the registered roots, and every call but a put, leaves registered roots in
the index and registers none. -/
theorem Rooted.wrote {c : Call} {r : c.Resp} {ch : Choice} (hs : Rooted s) (hok : refreshes c s ch)
    (hput : ∀ tree d, c ≠ .put tree d)
    (hlive : ∀ live, c = .compact live →
      ∀ root tree, Registered s.committed root tree → live root = true)
    (hx : exec ext p ch c s = some (r, s')) : Rooted s' ∧ Fewer s s' := by
  obtain ⟨hw, hwrote⟩ := exec_wrote hs.writer hput hx
  suffices h : (∀ root tree, Registered s'.committed root tree →
      Registered s.committed root tree ∧
        (s.committed.blobs root = s'.committed.blobs root)) by
    refine ⟨⟨hw, fun root tree hr => ?_⟩, fun root tree hr => (h root tree hr).1⟩
    rw [← (h root tree hr).2]
    exact hs.present root tree (h root tree hr).1
  generalize s'.committed = st' at hwrote
  intro root tree hr
  cases hwrote with
  | nothing => exact ⟨hr, rfl⟩
  | @putRecord key val =>
    refine ⟨?_, rfl⟩
    unfold Registered Store.putRecord at hr
    dsimp only at hr
    rw [SortedMap.find?_insert] at hr
    split at hr
    · next heq => exact hok root tree val (heq ▸ rfl)
    · exact hr
  | delRecord =>
    refine ⟨?_, rfl⟩
    unfold Registered Store.delRecord at hr
    dsimp only at hr
    rw [SortedMap.find?_erase] at hr
    split at hr
    · cases hr
    · exact hr
  | @restrict live =>
    refine ⟨hr, ?_⟩
    unfold Store.restrict
    exact (if_pos (hlive live rfl root tree hr)).symm

variable (ext p) in
/-- The rules of a process that uses roots. -/
def rootRules : Rules sig Sys := .blocking (sem ext refreshes p) Rooted Fewer Fewer

/-- Programs that only read and write records. -/
theorem safe_tame {m : TreeM α} {Q : Except Err α → Pending → Prop}
    (hm : Eff.Makes (Tame fun _ => True) Q m σ) (hs : Rooted s) :
    Eff.Safe (rootRules ext p) (fun x σ' s' => Q x σ' ∧ Fewer s s') m σ s := by
  refine Eff.Safe.of_makes (P := Tame fun _ => True) (T := Fewer) Fewer.refl
    (fun _ _ _ => Fewer.trans) (fun _ _ _ _ h => h) ?_ hm hs
  intro c s hc hs
  refine Rules.blocking_step ?_
  rintro r s' ⟨ch, hok, hx⟩
  obtain ⟨hs', hfewer⟩ := Rooted.wrote hs hok (fun tree d h => by rw [h] at hc; exact hc)
    (fun live h => by rw [h] at hc; exact hc.elim) hx
  exact ⟨hs', hfewer, hfewer⟩

/-- A scan finds all registered roots. -/
theorem safe_scanRoots (tree : Bool) :
    Eff.Safe (rootRules ext p) (fun x _ s' => ∀ records, x = .ok records →
        Covers (rootsOf records) tree s' ∧ Fewer s s')
      (Cas.metaScan (if tree then treePrefix else blobPrefix)) σ s := by
  refine safe_blocking ?_
  rintro s₁ hs₁ hfewer₁ r s' ⟨ch, -, hx⟩
  cases hx
  refine ⟨hs₁, Fewer.refl _, ?_⟩
  intro s₂ _ hfewer₂ records hrecords
  refine ⟨fun root hr => ?_, Fewer.trans hfewer₁ hfewer₂⟩
  have hread : (ch.read ((s₁.model p).view.scan (if tree then treePrefix else blobPrefix)) :
      Except Err (List (Bytes × Bytes))) = .ok records := hrecords
  unfold Choice.read at hread
  split at hread
  · cases hread
  · cases hread
    rw [view_of_idle hs₁.writer]
    exact (mem_rootsOf tree).2 (hfewer₂ root tree hr)

/-- A sweep whose live objects are all tree roots. -/
theorem safe_sweepRoots {live broken : List Bytes} (hs : Rooted s) (hlive : Covers live true s) :
    Eff.Safe (rootRules ext p) (fun _ _ _ => True) (sweep live broken) σ s := by
  unfold sweep
  refine Eff.Safe.seq Fewer.refl hs (safe_tame makes_deleteAll hs) ?_ fun _ _ _ _ _ => trivial
  rintro _ _ s₁ hs₁ ⟨rfl, hfewer₁⟩
  refine Eff.Safe.seq Fewer.refl hs₁ (safe_scanRoots false) ?_ fun _ _ _ _ _ => trivial
  intro records σ' s₂ _ hrecords
  obtain ⟨hblobs, hfewer₂⟩ := hrecords records rfl
  have htrees := hlive.mono (fun _ h => h) (Fewer.trans hfewer₁ hfewer₂)
  refine safe_blocking ?_
  rintro s₃ hs₃ hfewer₃ r s₄ ⟨ch, hok, hx⟩
  have hstep := Rooted.wrote hs₃ hok (fun _ _ h => by cases h) ?_ hx
  · exact ⟨hstep.1, hstep.2, fun _ _ _ => trivial⟩
  · rintro _ ⟨⟩ root tree hr
    refine decide_eq_true (mem_insertAll.2 ?_)
    cases tree with
    | true => exact .inl (htrees root (hfewer₃ root true hr))
    | false => exact .inr (hblobs root (hfewer₃ root false hr))

/-- A collection adds no root, and leaves what is registered. -/
theorem safe_collectRoots (hs : Rooted s) :
    Eff.Safe (rootRules ext p) (fun _ _ _ => True) (collect fuel) σ s := by
  unfold collect
  refine Eff.Safe.seq Fewer.refl hs (safe_scanRoots true) ?_ fun _ _ _ _ _ => trivial
  intro records σ₁ s₁ hs₁ hrecords
  obtain ⟨hcovers, -⟩ := hrecords records rfl
  refine Eff.Safe.seq Fewer.refl hs₁ (safe_tame makes_markRoots hs₁) ?_ fun _ _ _ _ _ => trivial
  rintro ⟨live, broken⟩ σ₂ s₂ hs₂ ⟨⟨rfl, hlive⟩, hfewer⟩
  refine safe_sweepRoots hs₂ (hcovers.mono ?_ hfewer)
  exact fun _ h => hlive _ rfl (List.mem_append_left _ h)

/-- Every operation of a process that uses roots. -/
theorem safe_rootOp (op : RootOp) (hs : Rooted s) :
    Eff.Safe (rootRules ext p) (fun _ _ _ => True) (op.code cfg fuel) σ s := by
  have hqueues : Queues (fun _ => True) σ := fun _ _ => trivial
  have hkeys : OwnKeys fun _ => True := ⟨fun _ _ => trivial, trivial⟩
  have htame {m : TreeM Unit} (hm : Eff.Makes (Tame fun _ => True)
      (fun _ σ' => Queues (fun _ => True) σ') m σ) :
      Eff.Safe (rootRules ext p) (fun _ _ _ => True) m σ s :=
    (safe_tame hm hs).mono fun _ _ _ _ _ => trivial
  cases op with
  | touchRoot root tree => exact htame (makes_touchRoot hkeys hqueues)
  | sync => exact htame (makes_sync hqueues)
  | destroy => exact htame (makes_flushTouches hqueues)
  | maybeGc =>
    refine Eff.Safe.seq Fewer.refl hs (safe_tame (makes_expireAll hkeys hqueues) hs) ?_
      fun _ _ _ _ _ => trivial
    intro due σ' s' hs' _
    split
    · exact safe_collectRoots hs'
    · exact Eff.Safe.pure fun _ _ _ => trivial

end

/-- The processes keep to each other's rules. -/
theorem rootMachine_composable (ext : Ext) (cfg : Nat → Config) (fuel : Nat) :
    (rootMachine ext refreshes cfg fuel).Composable Rooted (rootRules ext) (fun _ _ _ => True)
      (fun _ _ _ _ _ => True) where
  sem _ := rfl
  inv _ _ := Iff.rfl
  refl _ := Fewer.refl
  trans _ _ _ _ _ _ := Fewer.trans
  guar _ _ _ _ _ _ _ h := h
  code p op σ s hs _ := by
    have h : Eff.Safe (rootRules ext p) (fun _ _ _ => True) (op.code (cfg p) fuel) σ s :=
      safe_rootOp op hs
    exact Prog.Safe.mono (fun _ _ _ _ => ⟨trivial, trivial⟩) h
  kill p s s' hs hkill := by
    cases hkill
    have hw : (s.drop p).writer = none := by simp [Sys.drop, hs.writer]
    exact ⟨⟨hw, hs.present⟩, Fewer.refl _, fun _ _ _ => trivial⟩

/-! ## Records that are as they were found -/

/-- The process `p` found a record under `key`, and no process has deleted it since. -/
def FoundSince {O : Type} (p : Nat) (key : Bytes) (ls : List (Nat × Act sig O (Except Err Unit))) :
    Prop :=
  ∃ ls₁ val ls₂, ls = ls₁ ++ (p, .call ⟨.metaGet key, Except.ok (some val)⟩) :: ls₂ ∧
    ∀ q, (q, .call ⟨.metaDel key, Except.ok ()⟩) ∉ ls₂

/-- Every root record is written by a process that found it, and before it is deleted. -/
def TouchesHeld {O : Type} (ls : List (Nat × Act sig O (Except Err Unit))) : Prop :=
  ∀ ls₁ p root tree val r ls₂, ls = ls₁ ++ (p, .call ⟨.metaPut (rootKey root tree) val, r⟩) :: ls₂ →
    FoundSince p (rootKey root tree) ls₁

section

variable {ext : Ext} {cfg : Nat → Config} {fuel : Nat} {O : Type}
  {ls : List (Nat × Act sig O (Except Err Unit))} {l : Nat × Act sig O (Except Err Unit)}

/-- The condition on a run is one on its beginning. -/
theorem TouchesHeld.left {ls' : List (Nat × Act sig O (Except Err Unit))}
    (h : TouchesHeld (ls ++ ls')) : TouchesHeld ls := by
  intro ls₁ p root tree val r ls₂ heq
  refine h ls₁ p root tree val r (ls₂ ++ ls') ?_
  rw [heq, List.append_assoc, List.cons_append]

/-- What was found since, was found by the last step, or before and not deleted by it. -/
theorem FoundSince.concat {p : Nat} {key : Bytes} (h : FoundSince p key (ls ++ [l])) :
    (∃ val, l = (p, .call ⟨.metaGet key, Except.ok (some val)⟩)) ∨
      (FoundSince p key ls ∧ ∀ q, l ≠ (q, .call ⟨.metaDel key, Except.ok ()⟩)) := by
  obtain ⟨ls₁, val, ls₂, heq, hdel⟩ := h
  rcases List.eq_nil_or_concat ls₂ with rfl | ⟨ls₃, l', rfl⟩
  · exact .inl ⟨val, (List.append_inj' heq rfl).2 |> List.singleton_inj.1⟩
  · rw [List.concat_eq_append, ← List.cons_append, ← List.append_assoc] at heq
    obtain ⟨hls, hl⟩ := List.append_inj' heq rfl
    cases List.singleton_inj.1 hl
    refine .inr ⟨⟨ls₁, val, ls₃, hls, fun q hq => hdel q ?_⟩, fun q hq => hdel q ?_⟩
    · rw [List.concat_eq_append]
      exact List.mem_append_left _ hq
    · rw [List.concat_eq_append, hq]
      exact List.mem_append_right _ (.head _)

/-- A record that was found and not deleted is there. -/
theorem find?_wrote {key : Bytes} {c : Call} {r : c.Resp} {st st' : Store} (h : Wrote c r st st')
    (hdel : (⟨c, r⟩ : Tarmac.Event sig) ≠ ⟨.metaDel key, Except.ok ()⟩)
    (hkey : (st.records.find? key).isSome) : (st'.records.find? key).isSome := by
  cases h with
  | nothing => exact hkey
  | putRecord =>
    unfold Store.putRecord
    dsimp only
    rw [SortedMap.find?_insert]
    split
    · rfl
    · exact hkey
  | @delRecord key' =>
    unfold Store.delRecord
    dsimp only
    rw [SortedMap.find?_erase]
    split
    · next heq => exact absurd (by rw [heq]) hdel
    · exact hkey
  | restrict => exact hkey

/-- A put changes no record. -/
theorem records_put {tree : Bool} {d : Bytes} {p : Nat} {ch : Choice} {r : Call.Resp (.put tree d)}
    {s s' : Sys} (hw : s.writer = none) (hx : exec ext p ch (.put tree d) s = some (r, s')) :
    s'.committed.records = s.committed.records := by
  obtain ⟨⟨x, s₁⟩, hx, heq⟩ := Option.map_eq_some_iff.1 hx
  have hput : ((s.model p).put ext d).committed.records = s.committed.records := by
    rcases Model.committed_put ext (s.model p) d with h | h
    · rw [h, Sys.model_committed]
    · rw [h, view_of_idle hw]
      rfl
  have hs₁ : s₁.committed.records = s.committed.records := by
    obtain ⟨-, ⟨-, rfl⟩ | ⟨e, m, -, rfl, hm⟩⟩ := Sys.write_cases hx
    · exact hput
    · have hm' : m.committed = s.committed := by
        simp only [List.mem_cons, List.not_mem_nil, or_false] at hm
        rcases hm with rfl | rfl | rfl | rfl <;> rfl
      exact congrArg Store.records hm'
  cases heq
  dsimp only
  split
  · rw [Sys.committed_noteTree]
    exact hs₁
  · exact hs₁

/-- The environment is free to answer as it can. -/
def free (_ : Call) (_ : Sys) (_ : Choice) : Prop := True

/-- One step of the processes: it keeps what was found, and refreshes a record if it writes one. -/
theorem held_step {ls : List (Nat × Act sig RootOp (Except Err Unit))}
    {l : Nat × Act sig RootOp (Except Err Unit)}
    {x x' : (Nat → Process sig RootOp Pending (Except Err Unit)) × Sys} (hls : TouchesHeld (ls ++ [l]))
    (hs : Rooted x.2)
    (hfound : ∀ p key, FoundSince p key ls → (x.2.committed.records.find? key).isSome)
    (h : (rootMachine ext free cfg fuel).Step x l x') :
    (rootMachine ext refreshes cfg fuel).Step x l x' ∧
      ∀ p key, FoundSince p key (ls ++ [l]) → (x'.2.committed.records.find? key).isSome := by
  cases h with
  | @move gs s s' p a g hlocal =>
  have hquiet {a : Act sig RootOp (Except Err Unit)} (hcall : ∀ e, a ≠ .call e)
      (hsame : s'.committed = s.committed) :
      ∀ q key, FoundSince q key (ls ++ [(p, a)]) → (s'.committed.records.find? key).isSome := by
    intro q key hf
    rw [hsame]
    rcases hf.concat with ⟨val, heq⟩ | ⟨hf, -⟩
    · cases heq
      exact absurd rfl (hcall _)
    · exact hfound q key hf
  generalize hg : gs p = g₀ at hlocal
  cases hlocal with
  | start => exact ⟨.move (hg ▸ .start), hquiet nofun rfl⟩
  | done => exact ⟨.move (hg ▸ .done), hquiet nofun rfl⟩
  | kill hk => exact ⟨.move (hg ▸ .kill hk), hquiet nofun (by cases hk; rfl)⟩
  | @call op c k r _ _ hsem =>
    obtain ⟨ch, -, hx⟩ := hsem
    refine ⟨.move (hg ▸ .call ⟨ch, ?_, hx⟩), ?_⟩
    · rintro root tree val rfl
      exact hfound p _ (hls ls p root tree val r [] rfl)
    · intro q key hf
      rcases hf.concat with ⟨val, heq⟩ | ⟨hf, hdel⟩
      · cases heq
        unfold exec at hx
        dsimp only at hx
        obtain ⟨hread, rfl⟩ := Prod.mk.inj (Option.some.inj hx)
        rw [view_of_idle hs.writer] at hread
        unfold Choice.read at hread
        split at hread
        · cases hread
        · rw [Except.ok.inj hread]
          rfl
      · have hkey := hfound q key hf
        by_cases hput : ∃ tree d, c = .put tree d
        · obtain ⟨tree, d, rfl⟩ := hput
          rw [records_put hs.writer hx]
          exact hkey
        · have hwrote := (exec_wrote hs.writer (fun tree d h => hput ⟨tree, d, h⟩) hx).2
          refine find?_wrote hwrote (fun heq => hdel p ?_) hkey
          rw [heq]

/-- What is known after the steps `ls`: the processes are at work under the rules, and what they found
is there unless it was deleted. -/
structure RootsHeld (ext : Ext) (cfg : Nat → Config) (fuel : Nat)
    (ls : List (Nat × Act sig RootOp (Except Err Unit)))
    (x : (Nat → Process sig RootOp Pending (Except Err Unit)) × Sys) : Prop where
  rooted : Rooted x.2
  fine : ∀ p, Machine.Fine (rootRules ext p) (fun _ _ => True) (fun _ _ _ _ => True) x.2 (x.1 p)
  found : ∀ p key, FoundSince p key ls → (x.2.committed.records.find? key).isSome

theorem RootsHeld.init {s : Sys} (hs : Rooted s) : RootsHeld ext cfg fuel [] (atRest, s) where
  rooted := hs
  fine _ _ _ _ := trivial
  found p key h := by
    obtain ⟨ls₁, val, ls₂, heq, -⟩ := h
    exact absurd heq.symm (List.append_ne_nil_of_right_ne_nil _ nofun)

/-- A step keeps what is known of the roots. -/
theorem RootsHeld.step {ls : List (Nat × Act sig RootOp (Except Err Unit))}
    {l : Nat × Act sig RootOp (Except Err Unit)}
    {x x' : (Nat → Process sig RootOp Pending (Except Err Unit)) × Sys} (hx : RootsHeld ext cfg fuel ls x)
    (hls : TouchesHeld (ls ++ [l])) (h : (rootMachine ext free cfg fuel).Step x l x') :
    RootsHeld ext cfg fuel (ls ++ [l]) x' ∧ Fewer x.2 x'.2 := by
  obtain ⟨hstep, hfound⟩ := held_step hls hx.rooted hx.found h
  obtain ⟨hrooted, hfine, hmove⟩ :=
    Machine.step_safe (rootMachine_composable ext cfg fuel) hstep hx.rooted hx.fine
  refine ⟨⟨hrooted, hfine, hfound⟩, ?_⟩
  rcases hmove with hfewer | heq
  · exact hfewer
  · rw [heq]
    exact Fewer.refl _

/-- So does a run that meets the condition. -/
theorem RootsHeld.run {ls₁ ls : List (Nat × Act sig RootOp (Except Err Unit))}
    {x x' : (Nat → Process sig RootOp Pending (Except Err Unit)) × Sys} (hx : RootsHeld ext cfg fuel ls₁ x)
    (h : Runs (rootMachine ext free cfg fuel).Step x ls x') (hls : TouchesHeld (ls₁ ++ ls)) :
    RootsHeld ext cfg fuel (ls₁ ++ ls) x' ∧ Fewer x.2 x'.2 := by
  induction h generalizing ls₁ with
  | nil =>
    rw [List.append_nil]
    exact ⟨hx, Fewer.refl _⟩
  | @cons x x₁ x' l ls hstep _ ih =>
    rw [List.append_cons] at hls ⊢
    obtain ⟨hx₁, hfewer⟩ := hx.step hls.left hstep
    obtain ⟨hx', hfewer'⟩ := ih hx₁ hls
    exact ⟨hx', Fewer.trans hfewer hfewer'⟩

end

/-- As long as no process deletes a root record between the time `touchRoot` finds it and the time the
touch is written, no root is registered that was not registered before, and every registered root is
in the index. -/
theorem flush_refreshes {ext : Ext} {cfg : Nat → Config} {fuel : Nat} {s₀ : Sys}
    {ls₁ ls₂ : List (Nat × Act sig RootOp (Except Err Unit))}
    {x₁ x₂ : (Nat → Process sig RootOp Pending (Except Err Unit)) × Sys} (hs₀ : Rooted s₀)
    (h₁ : Runs (rootMachine ext free cfg fuel).Step (atRest, s₀) ls₁ x₁)
    (h₂ : Runs (rootMachine ext free cfg fuel).Step x₁ ls₂ x₂) (hls : TouchesHeld (ls₁ ++ ls₂)) :
    ∀ root tree, Registered x₂.2.committed root tree →
      Registered x₁.2.committed root tree ∧ (x₂.2.committed.blobs root).isSome := by
  obtain ⟨hx₁, -⟩ := (RootsHeld.init hs₀).run h₁ hls.left
  obtain ⟨hx₂, hfewer⟩ := hx₁.run h₂ hls
  exact fun root tree hr => ⟨hfewer root tree hr, hx₂.rooted.present root tree hr⟩

/-! ## A root that expires -/

/-- A directory that holds the empty tree, registered at the time 0. -/
def loneRoot : Sys :=
  { Sys.fresh with
    committed := ((Sys.fresh.committed.add (Ext.sample.blake3 []) []).putRecord
      (rootKey (Ext.sample.blake3 []) true) (be64 0)) }

/-- The directory with one root. -/
theorem rooted_loneRoot : Rooted loneRoot where
  writer := rfl
  present root tree hr := by
    unfold Registered loneRoot Store.putRecord at hr
    dsimp only at hr
    rw [SortedMap.find?_insert] at hr
    split at hr
    · next heq =>
      obtain ⟨rfl, -⟩ := rootKey_injective heq
      decide
    · cases hr

/-- Evaluates moves of processes that use roots; no call fails. -/
def evalRoots (ok : Call → Sys → Choice → Prop) (ms : List (Nat × Machine.Move RootOp Nat)) :
    (Nat → Process sig RootOp Pending (Except Err Unit)) × Sys →
    Option (List (Nat × Act sig RootOp (Except Err Unit)) ×
      (Nat → Process sig RootOp Pending (Except Err Unit)) × Sys) :=
  (rootMachine .sample ok (fun _ => ⟨10, 0, 2⟩) 1).eval
    (fun p clock => execIf .sample p isCalm { clock := clock }) ms

theorem runs_of_evalRoots {ok : Call → Sys → Choice → Prop}
    (hok : ∀ c s ch, isCalm c s ch = true → ok c s ch) {ms : List (Nat × Machine.Move RootOp Nat)}
    {ls : List (Nat × Act sig RootOp (Except Err Unit))}
    {x x' : (Nat → Process sig RootOp Pending (Except Err Unit)) × Sys}
    (h : evalRoots ok ms x = some (ls, x')) :
    Runs (rootMachine .sample ok (fun _ => ⟨10, 0, 2⟩) 1).Step x ls x' := by
  refine Machine.runs_of_eval (fun p clock c s r s' hx => ?_) h
  unfold execIf at hx
  split at hx
  · next hc => exact ⟨_, hok c s _ hc, hx⟩
  · cases hx

/-- One process touches the root at the time 5; another collects at the time 12. -/
def touchThenCollect : List (Nat × Machine.Move RootOp Nat) :=
  [(0, .start (.touchRoot (Ext.sample.blake3 []) true)), (0, .go 5), (0, .go 5), (0, .finish),
    (1, .start .maybeGc), (1, .go 12), (1, .go 12), (1, .go 12), (1, .go 12), (1, .go 12), (1, .go 12),
    (1, .go 12), (1, .go 12), (1, .go 12), (1, .finish)]

/-- What the processes have found after a step. -/
def foundAfter {O : Type} (l : Nat × Act sig O (Except Err Unit)) (found : List (Nat × Bytes)) :
    List (Nat × Bytes) :=
  match l.2 with
  | .call ⟨.metaGet key, .ok (some _)⟩ => (l.1, key) :: found
  | .call ⟨.metaDel key, .ok _⟩ => found.filter fun x => decide (x.2 ≠ key)
  | _ => found

/-- Whether every record that is written, but for the time of the pass, was found before. -/
def holdsTouches {O : Type} : List (Nat × Bytes) → List (Nat × Act sig O (Except Err Unit)) → Bool
  | _, [] => true
  | found, l :: ls =>
    (match l.2 with
      | .call ⟨.metaPut key _, _⟩ => decide (key = lastGcKey ∨ (l.1, key) ∈ found)
      | _ => true) && holdsTouches (foundAfter l found) ls

section

variable {O : Type} {l : Nat × Act sig O (Except Err Unit)}
  {ls ls' : List (Nat × Act sig O (Except Err Unit))} {found : List (Nat × Bytes)}

/-- A root is not deleted by another step. -/
theorem FoundSince.step {p : Nat} {key : Bytes} (h : FoundSince p key ls)
    (hl : ∀ q, l ≠ (q, .call ⟨.metaDel key, Except.ok ()⟩)) : FoundSince p key (ls ++ [l]) := by
  obtain ⟨ls₁, val, ls₂, rfl, hdel⟩ := h
  refine ⟨ls₁, val, ls₂ ++ [l], by simp, fun q hq => ?_⟩
  rcases List.mem_append.1 hq with hq | hq
  · exact hdel q hq
  · exact hl q (List.mem_singleton.1 hq).symm

/-- What is kept of the roots that were found is right. -/
theorem foundSince_foundAfter (h : ∀ x ∈ found, FoundSince x.1 x.2 ls) :
    ∀ x ∈ foundAfter l found, FoundSince x.1 x.2 (ls ++ [l]) := by
  intro x hx
  obtain ⟨p, act⟩ := l
  unfold foundAfter at hx
  split at hx
  · next key val heq =>
    dsimp only at heq
    subst heq
    rcases List.mem_cons.1 hx with rfl | hx
    · exact ⟨ls, val, [], rfl, fun _ hm => absurd hm List.not_mem_nil⟩
    · exact (h x hx).step fun q hq => by cases hq
  · next key u heq =>
    dsimp only at heq
    subst heq
    obtain ⟨hx, hne⟩ := List.mem_filter.1 hx
    refine (h x hx).step fun q hq => ?_
    cases hq
    exact of_decide_eq_true hne rfl
  · next hno =>
    refine (h x hx).step fun q hq => ?_
    cases hq
    exact hno _ _ rfl

/-- They are found when a checked run writes their touches. -/
theorem foundSince_of_holdsTouches (h : holdsTouches found ls' = true)
    (hfound : ∀ x ∈ found, FoundSince x.1 x.2 ls) :
    ∀ ls₁ p root tree val r ls₂,
      ls' = ls₁ ++ (p, .call ⟨.metaPut (rootKey root tree) val, r⟩) :: ls₂ →
      FoundSince p (rootKey root tree) (ls ++ ls₁) := by
  induction ls' generalizing ls found with
  | nil =>
    intro ls₁ p root tree val r ls₂ heq
    cases ls₁ <;> cases heq
  | cons l ls' ih =>
    obtain ⟨hl, hrest⟩ := Bool.and_eq_true_iff.1 h
    intro ls₁ p root tree val r ls₂ heq
    cases ls₁ with
    | nil =>
      obtain ⟨rfl, -⟩ := List.cons.inj heq
      rw [List.append_nil]
      rcases of_decide_eq_true hl with hkey | hmem
      · rw [rootKey_cons] at hkey
        cases tree <;> simp [lastGcKey, ascii] at hkey
      · exact hfound _ hmem
    | cons l' ls₁ =>
      obtain ⟨rfl, hls⟩ := List.cons.inj heq
      rw [List.append_cons]
      exact ih hrest (foundSince_foundAfter hfound) ls₁ p root tree val r ls₂ hls

/-- A checked run meets the condition. -/
theorem touchesHeld_of_holdsTouches (h : holdsTouches [] ls = true) : TouchesHeld ls := by
  have hnone : ∀ x ∈ ([] : List (Nat × Bytes)),
      FoundSince x.1 x.2 ([] : List (Nat × Act sig O (Except Err Unit))) :=
    fun _ hm => absurd hm List.not_mem_nil
  exact foundSince_of_holdsTouches h hnone

end

/-- `loneRoot` with a file, registered at the time 0 as well. -/
def twoRoots : Sys :=
  { Sys.fresh with
    committed := (loneRoot.committed.add (Ext.sample.blake3 [7]) [7]).putRecord
      (rootKey (Ext.sample.blake3 [7]) false) (be64 0) }

/-- The directory with two roots. -/
theorem rooted_twoRoots : Rooted twoRoots where
  writer := rfl
  present root tree hr := by
    unfold Registered twoRoots Store.putRecord at hr
    dsimp only at hr
    rw [SortedMap.find?_insert] at hr
    split at hr
    · next heq =>
      obtain ⟨rfl, -⟩ := rootKey_injective heq
      decide +kernel
    · obtain ⟨d, hd⟩ := Option.isSome_iff_exists.1 (rooted_loneRoot.present root tree hr)
      exact Option.isSome_iff_exists.2 ⟨d, Grows.add _ _ _ _ _ hd⟩

/-- One process touches the root of the tree at 5 and flushes the touch at 6. Another collects at 12. -/
def touchThenFlush : List (Nat × Machine.Move RootOp Nat) :=
  [(0, .start (.touchRoot (Ext.sample.blake3 []) true)), (0, .go 5), (0, .go 5), (0, .finish),
    (0, .start .sync), (0, .go 6), (0, .go 6), (0, .finish),
    (1, .start .maybeGc)] ++ List.replicate 10 (1, .go 12) ++ [(1, .finish)]

/-- The tree has been touched and stays, the file goes. -/
theorem flush_refreshes_sample : ∃ x₁ x₂ : (Nat → Process sig RootOp Pending (Except Err Unit)) × Sys,
    x₂.2.committed.records.find? (rootKey (Ext.sample.blake3 []) true) = some (be64 5) ∧
    x₂.2.committed.blobs (Ext.sample.blake3 [7]) = none ∧
    ∀ root tree, Registered x₂.2.committed root tree →
      Registered x₁.2.committed root tree ∧ (x₂.2.committed.blobs root).isSome := by
  have h : (evalRoots free (touchThenFlush.take 4) (atRest, twoRoots)).any (fun y =>
      (evalRoots free (touchThenFlush.drop 4) y.2).any fun z =>
        decide (z.2.2.committed.records.find? (rootKey (Ext.sample.blake3 []) true) = some (be64 5)) &&
        (z.2.2.committed.blobs (Ext.sample.blake3 [7])).isNone &&
        holdsTouches [] (y.1 ++ z.1)) = true := by decide +kernel
  obtain ⟨⟨ls₁, x₁⟩, hx₁, h⟩ := (Option.any_eq_true _ _).1 h
  obtain ⟨⟨ls₂, x₂⟩, hx₂, h⟩ := (Option.any_eq_true _ _).1 h
  simp only [Bool.and_eq_true, decide_eq_true_eq, Option.isNone_iff_eq_none] at h
  obtain ⟨⟨hstamp, hgone⟩, hls⟩ := h
  have hfree (c : Call) (s : Sys) (ch : Choice) (_ : isCalm c s ch = true) : free c s ch := trivial
  exact ⟨x₁, x₂, hstamp, hgone, flush_refreshes rooted_twoRoots (runs_of_evalRoots hfree hx₁)
    (runs_of_evalRoots hfree hx₂) (touchesHeld_of_holdsTouches hls)⟩

/-- The root expires before the touch is written. -/
theorem flush_revives : ∃ ls₁ x₁ ls₂ x₂ root, Rooted loneRoot ∧
    Runs (rootMachine .sample calm (fun _ => ⟨10, 0, 2⟩) 1).Step (atRest, loneRoot) ls₁ x₁ ∧
    Runs (rootMachine .sample calm (fun _ => ⟨10, 0, 2⟩) 1).Step x₁ ls₂ x₂ ∧
    ¬Registered x₁.2.committed root true ∧ Registered x₂.2.committed root true ∧
    (x₂.2.committed.blobs root).isSome = false := by
  have h : (evalRoots calm touchThenCollect (atRest, loneRoot)).any (fun y =>
      (evalRoots calm [(0, .start .sync), (0, .go 13), (0, .go 13), (0, .finish)] y.2).any fun z =>
        (y.2.2.committed.records.find? (rootKey (Ext.sample.blake3 []) true)).isNone &&
        (z.2.2.committed.records.find? (rootKey (Ext.sample.blake3 []) true)).isSome &&
        (z.2.2.committed.blobs (Ext.sample.blake3 [])).isNone) = true := by decide +kernel
  obtain ⟨⟨ls₁, x₁⟩, hx₁, h⟩ := (Option.any_eq_true _ _).1 h
  obtain ⟨⟨ls₂, x₂⟩, hx₂, h⟩ := (Option.any_eq_true _ _).1 h
  simp only [Bool.and_eq_true, Option.isNone_iff_eq_none] at h
  obtain ⟨⟨hgone, hback⟩, hmissing⟩ := h
  refine ⟨ls₁, x₁, ls₂, x₂, Ext.sample.blake3 [], rooted_loneRoot, runs_of_evalRoots calm_of_isCalm hx₁,
    runs_of_evalRoots calm_of_isCalm hx₂, ?_, hback, ?_⟩
  · unfold Registered
    rw [hgone]
    exact nofun
  · rw [hmissing]
    rfl

end Tarmac.Tree
