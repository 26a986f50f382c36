import Tarmac.Tree.Fresh
import Tarmac.Tree.Shared

/-!
# The stamps of roots over time

A root's stamp reaches its record on two ways: `registerRoot` writes it at once, `touchRoot` queues it
for the next flush. `stamps_ordered`: over a run of these operations, passes and destruction, in which
none of three things happens, stamps do not decrease, and after a flush a stamp is not older than
the registrations of its root, nor by more than `touchInterval` older than the touches. The three: a
root is registered again while an older touch of it is queued; it is touched while one is queued that
is older than `touchInterval`; the write of a queued touch is refused.

`stamp_decreases` is a run with the first of them.
-/

namespace Tarmac.Tree

open PackCas

/-! ## Operations -/

/-- What a `TreeStore` does with the stamps of roots. -/
inductive StampOp where
  | registerRoot (root : Bytes) (tree : Bool)
  | touchRoot (root : Bytes) (tree : Bool)
  | sync
  | maybeGc
  | destroy

/-- The code of an operation; the destructor flushes the touches. -/
def StampOp.code (cfg : Config) (fuel : Nat) : StampOp → TreeM Unit
  | .registerRoot root tree => Tree.registerRoot root tree
  | .touchRoot root tree => Tree.touchRoot cfg root tree
  | .sync => Tree.sync
  | .maybeGc => Tree.maybeGc cfg fuel
  | .destroy => flushTouches

/-- The operation begins with `flush_touches`. -/
def StampOp.flushes : StampOp → Bool
  | .registerRoot .. | .touchRoot .. => false
  | .sync | .maybeGc | .destroy => true

/-- What is left of the queue and of the directory when the operation has ended. -/
def StampOp.leave (p : Nat) (op : StampOp) (σ : Pending) (s : Sys) : Pending × Sys :=
  match op with
  | .destroy => ([], s.drop p)
  | _ => (σ, s)

/-- An operation that has ended, with its outcome and the time at the end. -/
structure StampEvent where
  op : StampOp
  out : Except Err Unit
  time : Nat

/-- The event registers the root. -/
def StampEvent.Registers (l : StampEvent) (root : Bytes) (tree : Bool) : Prop :=
  l.op = .registerRoot root tree ∧ l.out = .ok ()

/-- The event touches the root. -/
def StampEvent.Touches (l : StampEvent) (root : Bytes) (tree : Bool) : Prop :=
  l.op = .touchRoot root tree ∧ l.out = .ok ()

/-- The clock does not run backwards, and fits 64 bits. -/
def ticking (c : Call) (s : Sys) (ch : Choice) : Prop :=
  c = .now → s.clock ≤ ch.clock ∧ ch.clock < 2 ^ 64

/-- The `TreeStore` of the process `p` runs one operation to its end; `C` says which steps are meant,
from the queue before, the calls and the event. -/
def stampStep (ext : Ext) (cfg : Config) (p fuel : Nat)
    (C : Pending → List (Tarmac.Event sig) → StampEvent → Prop) (x : Pending × Sys) (l : StampEvent)
    (x' : Pending × Sys) : Prop :=
  ∃ tr σ' s', Prog.Run (sem ext ticking p) (l.op.code cfg fuel x.1) x.2 tr (l.out, σ') s' ∧
    l.time = s'.clock ∧ C x.1 tr l ∧ x' = l.op.leave p σ' s'

/-- The write of a record is refused. -/
def refused : Tarmac.Event sig → Bool
  | ⟨.metaPut .., .error _⟩ => true
  | _ => false

/-- The step keeps stamps in order: it registers no root of which an older touch is queued, touches
none of which a touch is queued that is older than `touchInterval`, and writes all queued touches. -/
def Punctual (cfg : Config) (σ : Pending) (tr : List (Tarmac.Event sig)) (l : StampEvent) : Prop :=
  match l.op with
  | .registerRoot root tree =>
    l.out = .ok () → ∀ stamp, (rootKey root tree, stamp) ∈ σ → l.time ≤ stamp
  | .touchRoot root tree =>
    l.out = .ok () → ∀ stamp, (rootKey root tree, stamp) ∈ σ → l.time ≤ stamp + cfg.touchInterval
  | .sync | .maybeGc | .destroy => ∀ e ∈ tr.take σ.length, refused e = false

/-- The stamp of the record. -/
def Stamped (s : Sys) (key : Bytes) (stamp : Nat) : Prop :=
  ∃ val, s.committed.records.find? key = some val ∧ isTimestamp val = true ∧ rbe64 val = stamp

/-- No batch is open, and the stamps of roots are of the past. -/
structure Past (s : Sys) : Prop where
  idle : s.writer = none
  clock : s.clock < 2 ^ 64
  stamps : ∀ root tree stamp, Stamped s (rootKey root tree) stamp → stamp ≤ s.clock

/-- A root has one stamp. -/
theorem Stamped.unique {s : Sys} {key : Bytes} {stamp stamp' : Nat} (h : Stamped s key stamp)
    (h' : Stamped s key stamp') : stamp = stamp' := by
  obtain ⟨val, hval, -, rfl⟩ := h
  obtain ⟨val', hval', -, rfl⟩ := h'
  rw [Option.some.inj (hval.symm.trans hval')]

/-- A record that was just written has the stamp it was written with. -/
theorem stamped_be64 {s : Sys} {key : Bytes} {now stamp : Nat} (hnow : now < 2 ^ 64)
    (hfind : s.committed.records.find? key = some (be64 now)) :
    Stamped s key stamp ↔ stamp = now := by
  constructor
  · rintro ⟨val, hval, -, rfl⟩
    rw [hfind] at hval
    rw [← Option.some.inj hval, rbe64_be64 hnow]
  · rintro rfl
    exact ⟨_, hfind, isTimestamp_be64 _, rbe64_be64 hnow⟩

/-- It has the stamp of its record. -/
theorem Stamped.congr {s s' : Sys} {key : Bytes} {stamp : Nat}
    (hfind : s'.committed.records.find? key = s.committed.records.find? key) :
    Stamped s' key stamp ↔ Stamped s key stamp := by
  unfold Stamped
  rw [hfind]

/-! ## What the operations do -/

section

variable {ext : Ext} {ok : Call → Sys → Choice → Prop} {cfg : Config} {p fuel : Nat} {s s' : Sys}
  {σ σ' : Pending} {α : Type} {tr : List (Tarmac.Event sig)}

/-- The calls that put no object. -/
def Unputting (c : Call) : Prop := ∀ tree d, c ≠ .put tree d

/-- A tame call puts nothing. -/
theorem Tame.unputting {K : Bytes → Prop} {c : Call} (h : Tame K c) : Unputting c := by
  rintro tree d rfl
  exact h

/-- All keys are the store's own. -/
theorem ownKeys_true : OwnKeys fun _ => True := ⟨fun _ _ => trivial, trivial⟩

/-- All touches are queued. -/
theorem queues_true : Queues (fun _ => True) σ := fun _ _ => trivial

/-- The operations put no object. -/
theorem makes_stampOp (cfg : Config) (fuel : Nat) (op : StampOp) :
    Eff.Makes Unputting (fun _ _ => True) (op.code cfg fuel) σ := by
  have htame {m : TreeM Unit} {Q : Except Err Unit → Pending → Prop}
      (hm : Eff.Makes (Tame fun _ => True) Q m σ) : Eff.Makes Unputting (fun _ _ => True) m σ :=
    hm.mono (fun _ h => h.unputting) fun _ _ _ => trivial
  cases op with
  | registerRoot root tree => exact htame (makes_registerRoot ownKeys_true queues_true)
  | touchRoot root tree => exact htame (makes_touchRoot ownKeys_true queues_true)
  | sync => exact htame (makes_sync queues_true)
  | maybeGc =>
    exact (makes_maybeGc ownKeys_true (fun _ h => h.unputting) (fun _ => nofun) queues_true).mono
      (fun _ h => h) fun _ _ _ => trivial
  | destroy => exact htame (makes_flushTouches queues_true)

/-- What a run leaves that puts no object: no batch. -/
theorem idle_of_run {m : Prog sig α} {Q : α → Prop} {a : α} (hm : m.Makes Unputting Q)
    (hr : Prog.Run (sem ext ok p) m s tr a s') (hs : s.writer = none) : s'.writer = none := by
  induction hr with
  | ret => exact hs
  | call hsem _ ih =>
    obtain ⟨ch, -, hx⟩ := hsem
    exact ih (hm.2 _) (exec_wrote hs hm.1 hx).1

/-- Without a batch, a process may begin. -/
theorem inv_of_idle (hs : s.writer = none) : (solo ext ok p fun _ => True).Inv s :=
  ⟨by simp [Sys.busy, hs], trivial⟩

/-- `registerRoot` writes the time it is. -/
theorem registerRoot_run {root : Bytes} {tree : Bool} {x : Except Err Unit} (hs : s.writer = none)
    (hr : Prog.Run (sem ext ok p) (registerRoot root tree σ) s tr (x, σ') s') :
    σ' = σ ∧ s'.writer = none ∧ (∃ ch, ok .now s ch ∧ s'.clock = ch.clock) ∧
      (x = .ok () ∧
          s'.committed.records = s.committed.records.insert (rootKey root tree) (be64 s'.clock) ∨
        (∃ e, x = .error e) ∧ s'.committed.records = s.committed.records) := by
  have hidle := idle_of_run (makes_stampOp ⟨0, 0, 0⟩ 0 (.registerRoot root tree))
    hr hs
  obtain ⟨-, -, hσ, hclock, hrec⟩ := solo_run hr (inv_of_idle hs)
    (quiet_registerRoot (K := fun _ => True) unrecorded_true (inv_of_idle hs) trivial)
  rw [view_of_idle hs, view_of_idle hidle] at hrec
  exact ⟨hσ, hidle, hclock, hrec⟩

/-- `touchRoot` queues a touch, if the record is due and none is queued. -/
theorem touchRoot_run {root : Bytes} {tree : Bool} {x : Except Err Unit} (hs : s.writer = none)
    (hr : Prog.Run (sem ext ok p) (touchRoot cfg root tree σ) s tr (x, σ') s') :
    s'.writer = none ∧ s'.committed.records = s.committed.records ∧
      ((σ' = σ ∧ s' = s ∧ (x = .ok () → ∀ stamp, ¬Stamped s (rootKey root tree) stamp)) ∨
        ∃ ch val, ok .now s ch ∧ s'.clock = ch.clock ∧
          s.committed.records.find? (rootKey root tree) = some val ∧
          σ' = if age ch.clock (rbe64 val) < cfg.touchInterval then σ
            else queueTouch (rootKey root tree) ch.clock σ) := by
  have hidle := idle_of_run (makes_stampOp cfg 0 (.touchRoot root tree)) hr hs
  obtain ⟨-, -, hrec, hq⟩ := solo_run hr (inv_of_idle hs)
    (quiet_touchRoot (K := fun _ => True) unrecorded_true (inv_of_idle hs))
  rw [view_of_idle hs, view_of_idle hidle] at hrec
  rw [view_of_idle hs] at hq
  refine ⟨hidle, hrec, hq.imp_left ?_⟩
  rintro ⟨hσ, hsame, hnone⟩
  refine ⟨hσ, hsame, fun hx stamp hst => ?_⟩
  obtain ⟨val, hval, htime, -⟩ := hst
  exact hnone hx val htime hval

/-- A run of the loop of `flush_touches` that fails has had a write refused. -/
theorem writeTouches_refused {W : Type} {sm : Sem sig W} {w w' : W} {batch : Pending}
    {x : Except Err Unit} (hr : Prog.Run sm (writeTouches batch σ) w tr (x, σ') w') :
    tr.length ≤ batch.length ∧ (x = .ok () ∨ ∃ e ∈ tr, refused e = true) := by
  induction batch generalizing w tr with
  | nil =>
    cases hr
    exact ⟨Nat.le_refl _, .inl rfl⟩
  | cons touch batch ih =>
    obtain ⟨key, stamp⟩ := touch
    have hcall : writeTouches ((key, stamp) :: batch) =
        Eff.perform (S := sig) (.metaPut key (be64 stamp)) >>= fun r =>
          Eff.ofExcept r >>= fun _ => writeTouches batch := rfl
    rw [hcall] at hr
    obtain ⟨r, w₁, tr', -, hrest, rfl⟩ := Eff.run_perform hr
    cases r with
    | error e =>
      cases hrest
      exact ⟨Nat.succ_le_succ (Nat.zero_le _), .inr ⟨_, .head _, rfl⟩⟩
    | ok u =>
      obtain ⟨hle, hx⟩ := ih hrest
      refine ⟨Nat.succ_le_succ hle, hx.imp_right ?_⟩
      rintro ⟨e, he, href⟩
      exact ⟨e, .tail _ he, href⟩

/-- A flush none of whose writes is refused writes all queued touches. -/
theorem flushTouches_run {x : Except Err Unit} (hs : s.writer = none)
    (hr : Prog.Run (sem ext ok p) (flushTouches σ) s tr (x, σ') s')
    (hno : ∀ e ∈ tr.take σ.length, refused e = false) :
    x = .ok () ∧ σ' = [] ∧ s'.writer = none ∧ s'.clock = s.clock ∧
      s'.committed.records = flushed σ s.committed.records := by
  have hidle := idle_of_run (makes_stampOp ⟨0, 0, 0⟩ 0 .destroy) hr hs
  obtain ⟨-, -, hσ, hclock, hrec⟩ := solo_run hr (inv_of_idle hs)
    (quiet_flushTouches (K := fun _ => True) unrecorded_true (inv_of_idle hs) fun _ _ => trivial)
  have hloop : flushTouches σ = writeTouches σ [] := rfl
  rw [hloop] at hr
  obtain ⟨hle, hx⟩ := writeTouches_refused hr
  rw [List.take_of_length_le hle] at hno
  have hx : x = .ok () := by
    rcases hx with hx | ⟨e, he, href⟩
    · exact hx
    · exact nomatch (hno e he).symm.trans href
  have hrec := hrec (.inr ⟨(), hx⟩)
  rw [view_of_idle hs, view_of_idle hidle] at hrec
  exact ⟨hx, hσ, hidle, hclock, hrec⟩

/-- The calls of a pass after its flush. -/
def Sweeps (c : Call) : Prop := Tame (· = lastGcKey) c ∨ ∃ live, c = .compact live

/-- Time passes, and records of roots are only removed. -/
structure Shrinks (s s' : Sys) : Prop where
  idle : s'.writer = none
  clock : s.clock ≤ s'.clock ∧ s'.clock < 2 ^ 64
  sub : ∀ root tree val, s'.committed.records.find? (rootKey root tree) = some val →
    s.committed.records.find? (rootKey root tree) = some val

/-- Records that shrink twice shrink. -/
theorem Shrinks.trans {s₁ : Sys} (h : Shrinks s s₁) (h' : Shrinks s₁ s') : Shrinks s s' :=
  ⟨h'.idle, ⟨h.clock.1.trans h'.clock.1, h'.clock.2⟩, fun root tree val hval =>
    h.sub root tree val (h'.sub root tree val hval)⟩

/-- Only reading the clock moves it. -/
theorem exec_clock {c : Call} {r : c.Resp} {ch : Choice} (hc : c ≠ .now)
    (h : exec ext p ch c s = some (r, s')) : s'.clock = s.clock := by
  have hwrite {β : Type} {a : β} {m : Model} {stages : List Model} {x : Except Err β} {s' : Sys}
      (hx : s.write p ch a m stages = some (x, s')) : s'.clock = s.clock := by
    obtain ⟨-, ⟨-, rfl⟩ | ⟨e, m', -, rfl, -⟩⟩ := Sys.write_cases hx <;> rfl
  cases c with
  | put tree d =>
    obtain ⟨⟨x, s₁⟩, hx, heq⟩ := Option.map_eq_some_iff.1 h
    cases heq
    have hclock := hwrite hx
    cases x with
    | ok id => cases tree <;> exact hclock
    | error e => exact hclock
  | sync =>
    rw [exec_sync] at h
    split at h
    · exact hwrite h
    · cases h
      rfl
  | compact live => exact hwrite h
  | metaPut key val => exact hwrite h
  | metaDel key => exact hwrite h
  | now => exact absurd rfl hc
  | get | getView | size | has | metaGet | metaScan =>
    cases h
    rfl

/-- One call of a pass after its flush. -/
theorem exec_shrinks {c : Call} {r : c.Resp} {ch : Choice} (hs : s.writer = none)
    (hclock : s.clock < 2 ^ 64) (hc : Sweeps c) (hch : ticking c s ch)
    (hx : exec ext p ch c s = some (r, s')) : Shrinks s s' := by
  have hput : Unputting c := by
    rcases hc with hc | ⟨live, rfl⟩
    · exact hc.unputting
    · exact nofun
  obtain ⟨hidle, hwrote⟩ := exec_wrote hs hput hx
  refine ⟨hidle, ?_, fun root tree val hval => ?_⟩
  · by_cases hnow : c = .now
    · subst hnow
      cases hx
      exact hch rfl
    · rw [exec_clock hnow hx]
      exact ⟨Nat.le_refl _, hclock⟩
  · generalize s'.committed = st' at hwrote hval
    cases hwrote with
    | nothing => exact hval
    | restrict => exact hval
    | @putRecord key val' =>
      rcases hc with hc | ⟨live, hc⟩
      · obtain rfl : key = lastGcKey := hc
        rwa [Store.putRecord, SortedMap.find?_insert_of_ne (Ne.symm rootKey_ne_lastGc)] at hval
      · cases hc
    | @delRecord key =>
      rw [Store.delRecord, SortedMap.find?_erase] at hval
      split at hval
      · cases hval
      · exact hval

/-- A run of a pass after its flush. -/
theorem shrinks_of_run {m : Prog sig α} {Q : α → Prop} {a : α} (hs : s.writer = none)
    (hclock : s.clock < 2 ^ 64) (hm : m.Makes Sweeps Q)
    (hr : Prog.Run (sem ext ticking p) m s tr a s') : Shrinks s s' ∧ Q a := by
  induction hr with
  | ret => exact ⟨⟨hs, ⟨Nat.le_refl _, hclock⟩, fun _ _ _ h => h⟩, hm⟩
  | call hsem _ ih =>
    obtain ⟨ch, hch, hx⟩ := hsem
    have h₁ := exec_shrinks hs hclock hm.1 hch hx
    obtain ⟨h₂, hQ⟩ := ih h₁.idle h₁.clock.2 (hm.2 _)
    exact ⟨h₁.trans h₂, hQ⟩

/-- The part of a pass behind its flush. -/
def passRest (cfg : Config) (fuel : Nat) : TreeM Unit := do
  let now ← nowNs
  let stamp ← Cas.metaGet lastGcKey
  if gcRecent cfg now stamp then pure ()
  else
    Cas.metaPut lastGcKey (be64 now)
    let trees ← expireRoots cfg treePrefix now
    let blobs ← expireRoots cfg blobPrefix now
    if trees + blobs ≠ 0 then collect fuel else pure ()

/-- A pass is a flush and the rest. -/
theorem maybeGc_eq : maybeGc cfg fuel = flushTouches >>= fun _ => passRest cfg fuel := by
  unfold maybeGc expireAll passRest
  simp only [bind_assoc]
  refine congrArg (flushTouches >>= ·) (funext fun _ => ?_)
  refine congrArg (nowNs >>= ·) (funext fun now => ?_)
  refine congrArg (Cas.metaGet lastGcKey >>= ·) (funext fun stamp => ?_)
  split
  · rfl
  · simp only [bind_assoc, pure_bind, decide_eq_true_eq]

/-- The rest of a pass sweeps. -/
theorem makes_passRest : Eff.Makes Sweeps (fun _ σ' => σ' = σ) (passRest cfg fuel) σ := by
  have htame {β : Type} {m : TreeM β} {Q : Except Err β → Pending → Prop} {σ' : Pending}
      (hm : Eff.Makes (Tame (· = lastGcKey)) Q m σ') : Eff.Makes Sweeps Q m σ' :=
    hm.mono (fun _ h => .inl h) fun _ _ h => h
  have hask {β : Type} {c : Call} {hc : c.Resp = Except Err β} {σ' : Pending}
      (hcall : Tame (· = lastGcKey) c) : Eff.Makes Sweeps (fun _ σ'' => σ'' = σ') (ask c hc) σ' :=
    makes_ask (.inl hcall) fun _ => rfl
  unfold passRest
  refine makes_nowNs (.inl trivial) fun now => ?_
  refine Eff.Makes.seq (T := fun _ σ' => σ' = σ) (hask trivial) ?_ fun _ _ h => h
  rintro stamp _ rfl
  split
  · exact .pure rfl
  refine Eff.Makes.seq (T := fun _ σ' => σ' = _) (hask rfl) ?_ fun _ _ h => h
  rintro _ _ rfl
  refine Eff.Makes.seq (htame makes_expireRoots) ?_ fun _ _ h => h
  rintro trees _ rfl
  refine Eff.Makes.seq (htame makes_expireRoots) ?_ fun _ _ h => h
  rintro blobs _ rfl
  split
  · unfold collect
    refine Eff.Makes.seq (T := fun _ σ' => σ' = _) (hask trivial) ?_ fun _ _ h => h
    rintro records _ rfl
    refine Eff.Makes.seq (htame makes_markRoots) ?_ fun _ _ h => h.1
    rintro ⟨live, broken⟩ _ ⟨rfl, -⟩
    unfold sweep
    refine Eff.Makes.seq (htame makes_deleteAll) ?_ fun _ _ h => h
    rintro _ _ rfl
    refine Eff.Makes.seq (T := fun _ σ' => σ' = _) (hask trivial) ?_ fun _ _ h => h
    rintro blobs _ rfl
    exact makes_ask (.inr ⟨_, rfl⟩) fun _ => rfl
  · exact .pure rfl

/-- An operation that flushes, none of whose queued touches is refused: it writes them, and does not
write stamps otherwise. -/
theorem flush_run {rest : TreeM Unit} {x : Except Err Unit} (hs : s.writer = none)
    (hclock : s.clock < 2 ^ 64) (hrest : ∀ σ, Eff.Makes Sweeps (fun _ σ' => σ' = σ) rest σ)
    (hr : Prog.Run (sem ext ticking p) ((flushTouches >>= fun _ => rest) σ) s tr (x, σ') s')
    (hno : ∀ e ∈ tr.take σ.length, refused e = false) :
    ∃ s₁, s₁.committed.records = flushed σ s.committed.records ∧ s₁.clock = s.clock ∧ σ' = [] ∧
      Shrinks s₁ s' := by
  rcases Eff.run_seq hr with ⟨tr₁, u, σ₁, s₁, tr₂, h₁, h₂, rfl⟩ | ⟨e, rfl, h₁⟩
  · rw [List.take_append] at hno
    obtain ⟨-, rfl, hidle, hsame, hrec⟩ := flushTouches_run hs h₁ fun e he =>
      hno e (List.mem_append_left _ he)
    obtain ⟨hshrinks, hσ⟩ := shrinks_of_run hidle (hsame ▸ hclock) (hrest []) h₂
    exact ⟨s₁, hrec, hsame, hσ, hshrinks⟩
  · obtain ⟨hx, -⟩ := flushTouches_run hs h₁ hno
    cases hx

end

/-! ## The invariant -/

/-- The stamp that counts once the queue is flushed. -/
def Counts (σ : Pending) (s : Sys) (key : Bytes) (stamp : Nat) : Prop :=
  (key, stamp) ∈ σ ∨ (∀ queued, (key, queued) ∉ σ) ∧ Stamped s key stamp

/-- What holds of the queue and the directory after the events `ls`. -/
structure InOrder (cfg : Config) (ls : List StampEvent) (σ : Pending) (s : Sys) : Prop where
  past : Past s
  queue : ∀ key stamp, (key, stamp) ∈ σ → stamp ≤ s.clock
  single : ∀ key stamp stamp', (key, stamp) ∈ σ → (key, stamp') ∈ σ → stamp = stamp'
  later : ∀ key stamp queued, Stamped s key stamp → (key, queued) ∈ σ → stamp ≤ queued
  times : ∀ l ∈ ls, l.time ≤ s.clock
  registered : ∀ l ∈ ls, ∀ root tree stamp, l.Registers root tree →
    Counts σ s (rootKey root tree) stamp → l.time ≤ stamp
  touched : ∀ l ∈ ls, ∀ root tree stamp, l.Touches root tree →
    Counts σ s (rootKey root tree) stamp → l.time ≤ stamp + cfg.touchInterval

/-- No stamp of a root that stays registered decreases. -/
def Rises (s s' : Sys) : Prop :=
  ∀ root tree stamp stamp', Stamped s (rootKey root tree) stamp →
    Stamped s' (rootKey root tree) stamp' → stamp ≤ stamp'

section

variable {cfg : Config} {ls : List StampEvent} {l : StampEvent} {σ σ' : Pending} {s s' s₁ : Sys}
  {key : Bytes} {stamp : Nat}

/-- With nothing queued the stamp counts that is written. -/
theorem counts_nil : Counts [] s key stamp ↔ Stamped s key stamp :=
  ⟨fun h => h.elim nofun And.right, fun h => .inr ⟨fun _ => nofun, h⟩⟩

/-- A queued touch shows behind the queue. -/
theorem find?_flushed_mem {records : SortedMap Bytes Bytes}
    (hsingle : ∀ stamp', (key, stamp') ∈ σ → stamp' = stamp) (hmem : (key, stamp) ∈ σ) :
    (flushed σ records).find? key = some (be64 stamp) := by
  induction σ generalizing records with
  | nil => cases hmem
  | cons touch σ ih =>
    have hrest : ∀ stamp', (key, stamp') ∈ σ → stamp' = stamp := fun stamp' h =>
      hsingle stamp' (.tail _ h)
    by_cases hlater : (key, stamp) ∈ σ
    · exact ih hrest hlater
    · obtain rfl : (key, stamp) = touch := (List.mem_cons.1 hmem).resolve_right hlater
      have hnone : ∀ touch ∈ σ, touch.1 ≠ key := by
        rintro ⟨key', stamp'⟩ ht rfl
        obtain rfl := hrest stamp' ht
        exact hlater ht
      have hfind : (flushed σ (records.insert key (be64 stamp))).find? key = some (be64 stamp) := by
        rw [find?_flushed hnone, SortedMap.find?_insert_self]
      exact hfind

/-- After a flush, the stamps are those that counted. -/
theorem stamped_flushed (h : InOrder cfg ls σ s)
    (hrec : s₁.committed.records = flushed σ s.committed.records) :
    Stamped s₁ key stamp ↔ Counts σ s key stamp := by
  by_cases hq : ∃ queued, (key, queued) ∈ σ
  · obtain ⟨queued, hq⟩ := hq
    have hlt : queued < 2 ^ 64 := (h.queue key queued hq).trans_lt h.past.clock
    have hfind : s₁.committed.records.find? key = some (be64 queued) := by
      rw [hrec]
      exact find?_flushed_mem (fun stamp' h' => h.single key stamp' queued h' hq) hq
    rw [stamped_be64 hlt hfind]
    constructor
    · rintro rfl
      exact .inl hq
    · rintro (h' | ⟨hno, -⟩)
      · exact h.single key stamp queued h' hq
      · exact absurd hq (hno queued)
  · have hno : ∀ queued, (key, queued) ∉ σ := fun queued h' => hq ⟨queued, h'⟩
    have hfind : s₁.committed.records.find? key = s.committed.records.find? key := by
      rw [hrec]
      refine find?_flushed ?_
      rintro ⟨key', stamp'⟩ ht rfl
      exact hno stamp' ht
    rw [Stamped.congr hfind]
    exact ⟨fun h' => .inr ⟨hno, h'⟩, fun h' => h'.elim (fun h' => absurd h' (hno stamp)) And.right⟩

/-- What counts has not been there for longer than any stamp. -/
theorem InOrder.stamped_le_counts {stamp' : Nat} (h : InOrder cfg ls σ s) (hst : Stamped s key stamp)
    (hc : Counts σ s key stamp') : stamp ≤ stamp' := by
  rcases hc with hq | ⟨-, hst'⟩
  · exact h.later key stamp stamp' hst hq
  · exact (hst.unique hst').le

/-- One more event. What counts after it counted before, or is the time of the event. -/
theorem InOrder.extend (h : InOrder cfg ls σ s) (hpast : Past s')
    (hqueue : ∀ key stamp, (key, stamp) ∈ σ' → stamp ≤ s'.clock)
    (hsingle : ∀ key stamp stamp', (key, stamp) ∈ σ' → (key, stamp') ∈ σ' → stamp = stamp')
    (hlater : ∀ key stamp queued, Stamped s' key stamp → (key, queued) ∈ σ' → stamp ≤ queued)
    (hle : s.clock ≤ s'.clock) (htime : l.time = s'.clock)
    (hcounts : ∀ root tree stamp, Counts σ' s' (rootKey root tree) stamp →
      Counts σ s (rootKey root tree) stamp ∨ stamp = s'.clock)
    (hreg : ∀ root tree stamp, l.Registers root tree → Counts σ' s' (rootKey root tree) stamp →
      l.time ≤ stamp)
    (htouch : ∀ root tree stamp, l.Touches root tree → Counts σ' s' (rootKey root tree) stamp →
      l.time ≤ stamp + cfg.touchInterval) : InOrder cfg (ls ++ [l]) σ' s' where
  past := hpast
  queue := hqueue
  single := hsingle
  later := hlater
  times e he := by
    rcases List.mem_append.1 he with he | he
    · exact (h.times e he).trans hle
    · rw [List.mem_singleton.1 he, htime]
  registered e he root tree stamp hr hc := by
    rcases List.mem_append.1 he with he | he
    · rcases hcounts root tree stamp hc with hc | rfl
      · exact h.registered e he root tree stamp hr hc
      · exact (h.times e he).trans hle
    · cases List.mem_singleton.1 he
      exact hreg root tree stamp hr hc
  touched e he root tree stamp ht hc := by
    rcases List.mem_append.1 he with he | he
    · rcases hcounts root tree stamp hc with hc | rfl
      · exact h.touched e he root tree stamp ht hc
      · exact ((h.times e he).trans hle).trans (Nat.le_add_right _ _)
    · cases List.mem_singleton.1 he
      exact htouch root tree stamp ht hc

/-- A flush, and what may follow it. -/
theorem InOrder.flush (h : InOrder cfg ls σ s) (hl : l.op.flushes = true)
    (hrec : s₁.committed.records = flushed σ s.committed.records) (hsame : s₁.clock = s.clock)
    (hshrinks : Shrinks s₁ s') (htime : l.time = s'.clock) :
    InOrder cfg (ls ++ [l]) [] s' ∧ Rises s s' := by
  have hle : s.clock ≤ s'.clock := hsame ▸ hshrinks.clock.1
  have hcounts : ∀ root tree stamp, Stamped s' (rootKey root tree) stamp →
      Counts σ s (rootKey root tree) stamp := by
    rintro root tree stamp ⟨val, hval, hst⟩
    exact (stamped_flushed h hrec).1 ⟨val, hshrinks.sub root tree val hval, hst⟩
  have hpast : Past s' := by
    refine ⟨hshrinks.idle, hshrinks.clock.2, fun root tree stamp hst => ?_⟩
    rcases hcounts root tree stamp hst with hq | ⟨-, hst⟩
    · exact (h.queue _ _ hq).trans hle
    · exact (h.past.stamps root tree stamp hst).trans hle
  refine ⟨h.extend hpast nofun nofun nofun hle htime ?_ ?_ ?_,
    fun root tree stamp stamp' hst hst' => ?_⟩
  · exact fun root tree stamp hc => .inl (hcounts root tree stamp (counts_nil.1 hc))
  · rintro root tree stamp ⟨hop, -⟩
    rw [hop] at hl
    cases hl
  · rintro root tree stamp ⟨hop, -⟩
    rw [hop] at hl
    cases hl
  · exact h.stamped_le_counts hst (hcounts root tree stamp' hst')

/-- A root is registered, and no older touch of it is queued. -/
theorem InOrder.register {root : Bytes} {tree : Bool} (h : InOrder cfg ls σ s)
    (hidle : s'.writer = none) (hle : s.clock ≤ s'.clock) (hlt : s'.clock < 2 ^ 64)
    (hrec : s'.committed.records = s.committed.records.insert (rootKey root tree) (be64 s'.clock))
    (hop : l.op = .registerRoot root tree) (htime : l.time = s'.clock)
    (hno : ∀ stamp, (rootKey root tree, stamp) ∈ σ → l.time ≤ stamp) :
    InOrder cfg (ls ++ [l]) σ s' ∧ Rises s s' := by
  have hnew {stamp : Nat} : Stamped s' (rootKey root tree) stamp ↔ stamp = s'.clock :=
    stamped_be64 hlt (by rw [hrec, SortedMap.find?_insert_self])
  have hold {key : Bytes} {stamp : Nat} (hne : key ≠ rootKey root tree) :
      Stamped s' key stamp ↔ Stamped s key stamp :=
    Stamped.congr (by rw [hrec, SortedMap.find?_insert_of_ne (Ne.symm hne)])
  have hpast : Past s' := by
    refine ⟨hidle, hlt, fun root' tree' stamp hst => ?_⟩
    by_cases hkey : rootKey root' tree' = rootKey root tree
    · rw [hkey] at hst
      exact (hnew.1 hst).le
    · exact (h.past.stamps _ _ _ ((hold hkey).1 hst)).trans hle
  refine ⟨h.extend hpast (fun key stamp hq => (h.queue key stamp hq).trans hle) h.single ?_ hle htime
    ?_ ?_ ?_, fun root' tree' stamp stamp' hst hst' => ?_⟩
  · intro key stamp queued hst hq
    by_cases hkey : key = rootKey root tree
    · subst hkey
      rw [hnew.1 hst, ← htime]
      exact hno queued hq
    · exact h.later key stamp queued ((hold hkey).1 hst) hq
  · rintro root' tree' stamp (hq | ⟨hnone, hst⟩)
    · exact .inl (.inl hq)
    · by_cases hkey : rootKey root' tree' = rootKey root tree
      · rw [hkey] at hst
        exact .inr (hnew.1 hst)
      · exact .inl (.inr ⟨hnone, (hold hkey).1 hst⟩)
  · rintro root' tree' stamp ⟨hop', -⟩ hc
    obtain ⟨rfl, rfl⟩ := StampOp.registerRoot.inj (hop.symm.trans hop')
    rcases hc with hq | ⟨-, hst⟩
    · exact hno stamp hq
    · rw [hnew.1 hst, htime]
  · rintro root' tree' stamp ⟨hop', -⟩
    rw [hop] at hop'
    cases hop'
  · by_cases hkey : rootKey root' tree' = rootKey root tree
    · rw [hkey] at hst hst'
      rw [hnew.1 hst']
      exact (h.past.stamps _ _ _ hst).trans hle
    · exact ((hst.unique ((hold hkey).1 hst'))).le

/-- Time passes, and nothing else happens. -/
theorem InOrder.wait (h : InOrder cfg ls σ s) (hidle : s'.writer = none) (hle : s.clock ≤ s'.clock)
    (hlt : s'.clock < 2 ^ 64) (hrec : s'.committed.records = s.committed.records)
    (htime : l.time = s'.clock)
    (hreg : ∀ root tree, ¬l.Registers root tree)
    (htouch : ∀ root tree stamp, l.Touches root tree → Counts σ s (rootKey root tree) stamp →
      l.time ≤ stamp + cfg.touchInterval) : InOrder cfg (ls ++ [l]) σ s' ∧ Rises s s' := by
  have hold {key : Bytes} {stamp : Nat} : Stamped s' key stamp ↔ Stamped s key stamp :=
    Stamped.congr (by rw [hrec])
  have hcounts : ∀ root tree stamp, Counts σ s' (rootKey root tree) stamp →
      Counts σ s (rootKey root tree) stamp := fun root tree stamp hc =>
    hc.imp_right (And.imp_right hold.1)
  refine ⟨h.extend ⟨hidle, hlt, fun root tree stamp hst => ?_⟩ ?_ h.single ?_ hle htime ?_ ?_ ?_, ?_⟩
  · exact (h.past.stamps _ _ _ (hold.1 hst)).trans hle
  · exact fun key stamp hq => (h.queue key stamp hq).trans hle
  · exact fun key stamp queued hst hq => h.later key stamp queued (hold.1 hst) hq
  · exact fun root tree stamp hc => .inl (hcounts root tree stamp hc)
  · exact fun root tree stamp hr => absurd hr (hreg root tree)
  · exact fun root tree stamp ht hc => htouch root tree stamp ht (hcounts root tree stamp hc)
  · exact fun root tree stamp stamp' hst hst' => (hst.unique (hold.1 hst')).le

/-- A touch is queued. -/
theorem InOrder.enqueue {root : Bytes} {tree : Bool} (h : InOrder cfg ls σ s)
    (hidle : s'.writer = none) (hle : s.clock ≤ s'.clock) (hlt : s'.clock < 2 ^ 64)
    (hrec : s'.committed.records = s.committed.records)
    (hop : l.op = .touchRoot root tree) (htime : l.time = s'.clock)
    (hnone : ∀ stamp, (rootKey root tree, stamp) ∉ σ) :
    InOrder cfg (ls ++ [l]) (σ ++ [(rootKey root tree, s'.clock)]) s' ∧ Rises s s' := by
  have hold {key : Bytes} {stamp : Nat} : Stamped s' key stamp ↔ Stamped s key stamp :=
    Stamped.congr (by rw [hrec])
  have hmem {key : Bytes} {stamp : Nat} (hq : (key, stamp) ∈ σ ++ [(rootKey root tree, s'.clock)]) :
      (key, stamp) ∈ σ ∨ key = rootKey root tree ∧ stamp = s'.clock := by
    rcases List.mem_append.1 hq with hq | hq
    · exact .inl hq
    · cases List.mem_singleton.1 hq
      exact .inr ⟨rfl, rfl⟩
  refine ⟨h.extend ⟨hidle, hlt, fun root tree stamp hst => ?_⟩ ?_ ?_ ?_ hle htime ?_ ?_ ?_, ?_⟩
  · exact (h.past.stamps _ _ _ (hold.1 hst)).trans hle
  · intro key stamp hq
    rcases hmem hq with hq | ⟨-, rfl⟩
    · exact (h.queue key stamp hq).trans hle
    · exact Nat.le_refl _
  · intro key stamp stamp' hq hq'
    rcases hmem hq with hq | ⟨rfl, rfl⟩ <;> rcases hmem hq' with hq' | ⟨hkey, rfl⟩
    · exact h.single key stamp stamp' hq hq'
    · rw [hkey] at hq
      exact absurd hq (hnone stamp)
    · exact absurd hq' (hnone stamp')
    · rfl
  · intro key stamp queued hst hq
    rcases hmem hq with hq | ⟨rfl, rfl⟩
    · exact h.later key stamp queued (hold.1 hst) hq
    · exact (h.past.stamps _ _ _ (hold.1 hst)).trans hle
  · rintro root' tree' stamp (hq | ⟨hno, hst⟩)
    · exact (hmem hq).imp .inl And.right
    · exact .inl (.inr ⟨fun queued hq => hno queued (List.mem_append_left _ hq), hold.1 hst⟩)
  · rintro root' tree' stamp ⟨hop', -⟩
    rw [hop] at hop'
    cases hop'
  · rintro root' tree' stamp ⟨hop', -⟩ hc
    obtain ⟨rfl, rfl⟩ := StampOp.touchRoot.inj (hop.symm.trans hop')
    rw [htime]
    rcases hc with hq | ⟨hno, -⟩
    · rcases hmem hq with hq | ⟨-, rfl⟩
      · exact absurd hq (hnone stamp)
      · exact Nat.le_add_right _ _
    · exact absurd (List.mem_append_right _ (.head _)) (hno s'.clock)
  · exact fun root tree stamp stamp' hst hst' => (hst.unique (hold.1 hst')).le

/-- Every step keeps the order. -/
theorem InOrder.step {ext : Ext} {p fuel : Nat} (h : InOrder cfg ls σ s)
    (hstep : stampStep ext cfg p fuel (Punctual cfg) (σ, s) l (σ', s')) :
    InOrder cfg (ls ++ [l]) σ' s' ∧ Rises s s' ∧ (l.op.flushes = true → σ' = []) := by
  have hquiet {σ₁ : Pending} {s₁ : Sys} (h₁ : InOrder cfg (ls ++ [l]) σ₁ s₁ ∧ Rises s s₁)
      (hl : l.op.flushes = false) :
      InOrder cfg (ls ++ [l]) σ₁ s₁ ∧ Rises s s₁ ∧ (l.op.flushes = true → σ₁ = []) :=
    ⟨h₁.1, h₁.2, fun hf => nomatch hl.symm.trans hf⟩
  have hflushed {s₁ : Sys} (h₁ : InOrder cfg (ls ++ [l]) [] s₁ ∧ Rises s s₁) :
      InOrder cfg (ls ++ [l]) [] s₁ ∧ Rises s s₁ ∧
        (l.op.flushes = true → ([] : Pending) = []) := ⟨h₁.1, h₁.2, fun _ => rfl⟩
  obtain ⟨tr, σ₁, s₁, hr, htime, hpunctual, hleave⟩ := hstep
  obtain ⟨op, out, time⟩ := l
  dsimp only at hr htime hpunctual hleave
  have hidle := h.past.idle
  have hlt := h.past.clock
  cases op with
  | registerRoot root tree =>
    cases hleave
    obtain ⟨rfl, hidle', ⟨ch, hch, hclock⟩, hrec⟩ := registerRoot_run hidle hr
    obtain ⟨hle, hlt'⟩ := hch rfl
    rw [← hclock] at hle hlt'
    rcases hrec with ⟨hout, hrec⟩ | ⟨⟨e, hout⟩, hrec⟩
    · exact hquiet (h.register hidle' hle hlt' hrec rfl htime (hpunctual hout)) rfl
    · refine hquiet (h.wait hidle' hle hlt' hrec htime ?_ fun root tree stamp hl => nomatch hl.1) rfl
      rintro root tree ⟨-, hok⟩
      cases hout.symm.trans hok
  | touchRoot root tree =>
    cases hleave
    obtain ⟨hidle', hrec, ⟨rfl, rfl, hnone⟩ | ⟨ch, val, hch, hclock, hval, hσ⟩⟩ :=
      touchRoot_run hidle hr
    · refine hquiet (h.wait hidle (Nat.le_refl _) hlt rfl htime (fun root tree hl => nomatch hl.1) ?_) rfl
      rintro root' tree' stamp ⟨hop, hok⟩ hc
      obtain ⟨rfl, rfl⟩ := StampOp.touchRoot.inj hop
      rcases hc with hq | ⟨-, hst⟩
      · exact hpunctual hok stamp hq
      · exact absurd hst (hnone hok stamp)
    · obtain ⟨hle, hlt'⟩ := hch rfl
      rw [← hclock] at hle hlt' hσ
      by_cases hq : ∃ queued, (rootKey root tree, queued) ∈ σ
      · -- a touch is queued already, and stays
        obtain ⟨queued, hq⟩ := hq
        have hσ' : σ' = σ := by
          have hany : (σ.any fun touch => decide (touch.1 = rootKey root tree)) = true :=
            List.any_eq_true.2 ⟨_, hq, decide_eq_true rfl⟩
          rw [hσ, queueTouch, if_pos hany, ite_self]
        rw [hσ']
        refine hquiet (h.wait hidle' hle hlt' hrec htime (fun root tree hl => nomatch hl.1) ?_) rfl
        rintro root' tree' stamp ⟨hop, hok⟩ hc
        obtain ⟨rfl, rfl⟩ := StampOp.touchRoot.inj hop
        rcases hc with hq' | ⟨hno, -⟩
        · exact hpunctual hok stamp hq'
        · exact absurd hq (hno queued)
      · have hnone : ∀ queued, (rootKey root tree, queued) ∉ σ := fun queued hq' => hq ⟨queued, hq'⟩
        split at hσ
        · -- the stamp is recent
          next hage =>
          rw [hσ]
          refine hquiet (h.wait hidle' hle hlt' hrec htime (fun root tree hl => nomatch hl.1) ?_) rfl
          rintro root' tree' stamp ⟨hop, -⟩ hc
          obtain ⟨rfl, rfl⟩ := StampOp.touchRoot.inj hop
          obtain ⟨val', hval', hts, rfl⟩ := (hc.resolve_left (hnone stamp)).2
          have hpast := h.past.stamps root tree _ ⟨val', hval', hts, rfl⟩
          rw [hval] at hval'
          obtain rfl := Option.some.inj hval'
          rw [age_eq (hpast.trans hle) hlt'] at hage
          dsimp only
          omega
        · have hany : ¬(σ.any fun touch => decide (touch.1 = rootKey root tree)) = true := by
            rw [List.any_eq_true]
            rintro ⟨⟨key, queued⟩, hmem, hkey⟩
            obtain rfl : key = rootKey root tree := of_decide_eq_true hkey
            exact hnone queued hmem
          rw [queueTouch, if_neg hany] at hσ
          rw [hσ]
          exact hquiet (h.enqueue hidle' hle hlt' hrec rfl htime hnone) rfl
  | sync =>
    cases hleave
    obtain ⟨s₂, hrec, hsame, rfl, hshrinks⟩ := flush_run hidle hlt
      (fun σ => makes_ask (c := .sync) (.inl trivial) fun _ => rfl) hr hpunctual
    exact hflushed (h.flush rfl hrec hsame hshrinks htime)
  | maybeGc =>
    cases hleave
    have hcode : Tree.maybeGc cfg fuel σ = (flushTouches >>= fun _ => passRest cfg fuel) σ :=
      congrFun maybeGc_eq σ
    rw [StampOp.code, hcode] at hr
    obtain ⟨s₂, hrec, hsame, rfl, hshrinks⟩ := flush_run hidle hlt
      (fun σ => makes_passRest) hr hpunctual
    exact hflushed (h.flush rfl hrec hsame hshrinks htime)
  | destroy =>
    cases hleave
    have hcode : flushTouches σ = (flushTouches >>= fun _ => pure ()) σ :=
      congrFun (bind_pure flushTouches).symm σ
    rw [StampOp.code, hcode] at hr
    obtain ⟨s₂, hrec, hsame, -, hshrinks⟩ := flush_run hidle hlt
      (fun σ => .pure rfl) hr hpunctual
    rw [Sys.drop_of_none (by simp [Sys.batch, hshrinks.idle])]
    exact hflushed (h.flush rfl hrec hsame hshrinks htime)

/-- In the beginning the stamps are in order. -/
theorem inOrder_init (hs : Past s) : InOrder cfg [] [] s :=
  ⟨hs, nofun, nofun, nofun, nofun, nofun, nofun⟩

end

/-! ## Runs -/

/-- In every run of punctual steps, and in every further one, no stamp of a root that stays registered
decreases; and after a flush the stamp of a root is at least the time of each of its registrations,
and within `touchInterval` of the time of each of its touches, or later. -/
theorem stamps_ordered {ext : Ext} {cfg : Config} {p fuel : Nat} {s₀ s s' : Sys} {σ σ' : Pending}
    {ls : List StampEvent} {l : StampEvent} (hs₀ : Past s₀)
    (hruns : Runs (stampStep ext cfg p fuel (Punctual cfg)) ([], s₀) ls (σ, s))
    (hstep : stampStep ext cfg p fuel (Punctual cfg) (σ, s) l (σ', s')) :
    Rises s s' ∧ (l.op.flushes = true → ∀ root tree stamp, Stamped s' (rootKey root tree) stamp →
      ∀ e ∈ ls ++ [l], (e.Registers root tree → e.time ≤ stamp) ∧
        (e.Touches root tree → e.time ≤ stamp + cfg.touchInterval)) := by
  have h : InOrder cfg ls σ s := hruns.history (I := fun ls x => InOrder cfg ls x.1 x.2)
    (fun hx hst => (hx.step hst).1) (inOrder_init hs₀)
  obtain ⟨h', hrises, hempty⟩ := h.step hstep
  refine ⟨hrises, fun hflush root tree stamp hst e he => ?_⟩
  obtain rfl := hempty hflush
  have hc := counts_nil.2 hst
  exact ⟨fun hr => h'.registered e he root tree stamp hr hc,
    fun ht => h'.touched e he root tree stamp ht hc⟩

/-- Nothing fails, and the clock does as it should. -/
def isTicking (c : Call) (s : Sys) (ch : Choice) : Bool :=
  isCalm c s ch && decide (ch.clock < 2 ^ 64)

/-- A checked call does not set the clock back. -/
theorem ticking_of_isTicking (c : Call) (s : Sys) (ch : Choice) (h : isTicking c s ch = true) :
    ticking c s ch := by
  obtain ⟨hcalm, hlt⟩ := Bool.and_eq_true_iff.1 h
  exact fun _ => ⟨(calm_of_isCalm c s ch hcalm).2, of_decide_eq_true hlt⟩

/-- Evaluates an operation all whose calls are made at one time, if the step passes a check. -/
def evalStamp (cfg : Config) (check : Pending → List (Tarmac.Event sig) → StampEvent → Bool)
    (op : StampOp × Nat) (x : Pending × Sys) : Option (StampEvent × Pending × Sys) :=
  ((op.1.code cfg 0 x.1).eval (execIf .sample 0 isTicking) (List.replicate 20 { clock := op.2 })
    x.2).bind fun y =>
  if check x.1 y.1 ⟨op.1, y.2.1.1, y.2.2.clock⟩ then
    some (⟨op.1, y.2.1.1, y.2.2.clock⟩, op.1.leave 0 y.2.1.2 y.2.2)
  else none

/-- Evaluates operations. -/
def evalStamps (cfg : Config) (check : Pending → List (Tarmac.Event sig) → StampEvent → Bool) :
    List (StampOp × Nat) → Pending × Sys → Option (List StampEvent × Pending × Sys)
  | [], x => some ([], x)
  | op :: ops, x => (evalStamp cfg check op x).bind fun y =>
    (evalStamps cfg check ops y.2).map fun z => (y.1 :: z.1, z.2)

section

variable {cfg : Config} {check : Pending → List (Tarmac.Event sig) → StampEvent → Bool}
  {C : Pending → List (Tarmac.Event sig) → StampEvent → Prop} {x x' : Pending × Sys}

/-- An evaluation is a step. -/
theorem step_of_evalStamp (hC : ∀ σ tr l, check σ tr l = true → C σ tr l) {op : StampOp × Nat}
    {l : StampEvent} (h : evalStamp cfg check op x = some (l, x')) :
    stampStep .sample cfg 0 0 C x l x' := by
  obtain ⟨⟨tr, ⟨out, σ'⟩, s'⟩, hy, hrest⟩ := Option.bind_eq_some_iff.1 h
  dsimp only at hrest
  split at hrest
  · next hcheck =>
    cases hrest
    exact ⟨tr, σ', s', run_of_execIf ticking_of_isTicking hy, rfl, hC _ _ _ hcheck, rfl⟩
  · cases hrest

theorem runs_of_evalStamps (hC : ∀ σ tr l, check σ tr l = true → C σ tr l)
    {ops : List (StampOp × Nat)} {ls : List StampEvent}
    (h : evalStamps cfg check ops x = some (ls, x')) :
    Runs (stampStep .sample cfg 0 0 C) x ls x' := by
  induction ops generalizing x ls with
  | nil =>
    cases h
    exact .nil
  | cons op ops ih =>
    obtain ⟨⟨l, x₁⟩, hy, hrest⟩ := Option.bind_eq_some_iff.1 h
    obtain ⟨⟨ls', x₂⟩, hz, heq⟩ := Option.map_eq_some_iff.1 hrest
    cases heq
    exact .cons (step_of_evalStamp hC hy) (ih hz)

end

/-- A step that is punctual because no touch is queued, or because nothing is refused. -/
def isPunctual (σ : Pending) (tr : List (Tarmac.Event sig)) (l : StampEvent) : Bool :=
  if l.op.flushes then tr.all fun e => !refused e else σ.isEmpty

/-- A checked step is punctual. -/
theorem punctual_of_isPunctual (cfg : Config) (σ : Pending) (tr : List (Tarmac.Event sig))
    (l : StampEvent) (h : isPunctual σ tr l = true) : Punctual cfg σ tr l := by
  unfold isPunctual at h
  unfold Punctual
  have hflush (hl : l.op.flushes = true) : ∀ e ∈ tr.take σ.length, refused e = false := by
    rw [if_pos hl] at h
    intro e he
    have hall := List.all_eq_true.1 h e (List.mem_of_mem_take he)
    simpa using hall
  have hempty (hl : l.op.flushes = false) : σ = [] := by
    rw [hl] at h
    exact List.isEmpty_iff.1 h
  cases hop : l.op with
  | registerRoot root tree =>
    rw [hempty (by rw [hop]; rfl)]
    exact fun _ => nofun
  | touchRoot root tree =>
    rw [hempty (by rw [hop]; rfl)]
    exact fun _ => nofun
  | sync | maybeGc | destroy => exact hflush (by rw [hop]; rfl)

/-- A new directory has no stamp in the future. -/
theorem past_fresh : Past .fresh where
  idle := rfl
  clock := by decide
  stamps root tree stamp h := by
    obtain ⟨val, hval, -⟩ := h
    cases hval

/-- A root is registered at the time 1 and touched at 4, and the touch is written. -/
theorem stamps_ordered_sample : ∃ (ls : List StampEvent) (l : StampEvent) (s s' : Sys),
    Stamped s (rootKey [] true) 1 ∧ Stamped s' (rootKey [] true) 4 ∧
    Rises s s' ∧ (l.op.flushes = true → ∀ root tree stamp, Stamped s' (rootKey root tree) stamp →
      ∀ e ∈ ls ++ [l], (e.Registers root tree → e.time ≤ stamp) ∧
        (e.Touches root tree → e.time ≤ stamp + 2)) := by
  have h : (evalStamps ⟨10, 0, 2⟩ isPunctual [(.registerRoot [] true, 1), (.touchRoot [] true, 4)]
      ([], .fresh)).any (fun x => (evalStamp ⟨10, 0, 2⟩ isPunctual (.sync, 5) x.2).any fun y =>
        decide (x.2.2.committed.records.find? (rootKey [] true) = some (be64 1)) &&
        decide (y.2.2.committed.records.find? (rootKey [] true) = some (be64 4))) = true := by
    decide +kernel
  obtain ⟨⟨ls, σ, s⟩, hx, h⟩ := (Option.any_eq_true _ _).1 h
  obtain ⟨⟨l, σ', s'⟩, hy, h⟩ := (Option.any_eq_true _ _).1 h
  obtain ⟨h₁, h₄⟩ := Bool.and_eq_true_iff.1 h
  refine ⟨ls, l, s, s', ?_, ?_, stamps_ordered past_fresh
    (runs_of_evalStamps (punctual_of_isPunctual ⟨10, 0, 2⟩) hx)
    (step_of_evalStamp (punctual_of_isPunctual ⟨10, 0, 2⟩) hy)⟩
  · exact (stamped_be64 (by decide) (of_decide_eq_true h₁)).2 rfl
  · exact (stamped_be64 (by decide) (of_decide_eq_true h₄)).2 rfl

/-- The event registers the empty root at that time. -/
def StampEvent.registersAt (e : StampEvent) (time : Nat) : Bool :=
  match e.op, e.out with
  | .registerRoot [] true, .ok () => decide (e.time = time)
  | _, _ => false

/-- What a registration was seen to be. -/
theorem registers_of_registersAt {e : StampEvent} {time : Nat} (h : e.registersAt time = true) :
    e.Registers [] true ∧ e.time = time := by
  obtain ⟨op, out, t⟩ := e
  unfold StampEvent.registersAt at h
  split at h
  · next hop hout => exact ⟨⟨hop, hout⟩, of_decide_eq_true h⟩
  · cases h

/-- A root is registered at the time 1, touched at 4 and registered again at 8, and nothing fails. The
flush that follows gives it the stamp of the touch. -/
theorem stamp_decreases : ∃ (ls : List StampEvent) (σ σ' : Pending) (s s' : Sys) (l : StampEvent),
    Runs (stampStep .sample ⟨10, 0, 2⟩ 0 0 fun _ _ _ => True) ([], .fresh) ls (σ, s) ∧
    stampStep .sample ⟨10, 0, 2⟩ 0 0 (fun _ _ _ => True) (σ, s) l (σ', s') ∧
    l.op.flushes = true ∧ (∃ e ∈ ls, e.Registers [] true ∧ e.time = 8) ∧
    Stamped s (rootKey [] true) 8 ∧ Stamped s' (rootKey [] true) 4 ∧ ¬Rises s s' := by
  have h : (evalStamps ⟨10, 0, 2⟩ (fun _ _ _ => true) [(.registerRoot [] true, 1),
      (.touchRoot [] true, 4), (.registerRoot [] true, 8)] ([], .fresh)).any (fun x =>
        (evalStamp ⟨10, 0, 2⟩ (fun _ _ _ => true) (.sync, 8) x.2).any fun y =>
        y.1.op.flushes &&
        x.1.any (fun e => e.registersAt 8) &&
        decide (x.2.2.committed.records.find? (rootKey [] true) = some (be64 8)) &&
        decide (y.2.2.committed.records.find? (rootKey [] true) = some (be64 4))) = true := by
    decide +kernel
  obtain ⟨⟨ls, σ, s⟩, hx, h⟩ := (Option.any_eq_true _ _).1 h
  obtain ⟨⟨l, σ', s'⟩, hy, h⟩ := (Option.any_eq_true _ _).1 h
  simp only [Bool.and_eq_true, decide_eq_true_eq] at h
  obtain ⟨⟨⟨hflush, hreg⟩, h₈⟩, h₄⟩ := h
  have h₈ : Stamped s (rootKey [] true) 8 := (stamped_be64 (by decide) h₈).2 rfl
  have h₄ : Stamped s' (rootKey [] true) 4 := (stamped_be64 (by decide) h₄).2 rfl
  refine ⟨ls, σ, σ', s, s', l, runs_of_evalStamps (fun _ _ _ _ => trivial) hx,
    step_of_evalStamp (fun _ _ _ _ => trivial) hy, hflush, ?_, h₈, h₄, fun hrises => ?_⟩
  · obtain ⟨e, he, hat⟩ := List.any_eq_true.1 hreg
    exact ⟨e, he, registers_of_registersAt hat⟩
  · exact absurd (hrises [] true 8 4 h₈ h₄) (by decide)

end Tarmac.Tree
