import Mathlib.Algebra.Order.Ring.Nat
import Mathlib.Algebra.BigOperators.Group.List.Basic
import Tarmac.Lib.Runs
import Tarmac.Tree.Archive

/-!
# The queue between reader and ingest

`ItemQueue` and the two threads of `ingest_archive` in `src/tree.cpp`: the producer reads items and
pushes them, the consumer pops and applies them. Each critical section of the queue's mutex is one
step, a thread in `cond.wait` is asleep until a `notify_all` or a spurious wake-up, and the steps of
the two threads interleave freely (`Step`).

What `apply_item` does is a parameter: a function that changes the consumer's state or throws. The
main result says what the threads have done in every state of every run (`queue_faithful`); that no
wake-up is missed is part of it, and `exists_step` and `Step.work` say that the threads come to an
end.
-/

namespace Tarmac.Tree

open PackCas

/-! ## The queue -/

def kMaxItems : Nat := 512
def kMaxBytes : Nat := 128 * 2 ^ 20

/-- `ItemQueue`, without its mutex and condition variable. -/
structure ItemQueue where
  items : List TarItem := []
  bytes : Nat := 0
  done : Bool := false
  closed : Bool := false
  err : Option Err := none

namespace ItemQueue

/-- What `push` waits for. The sum is one of 64-bit integers. -/
def room (q : ItemQueue) (item : TarItem) : Bool :=
  q.closed || q.items.isEmpty ||
    (decide (q.items.length < kMaxItems) &&
      decide ((q.bytes + item.data.length) % 2 ^ 64 ≤ kMaxBytes))

/-- `push` behind the wait. -/
def push (q : ItemQueue) (item : TarItem) : Except Err ItemQueue :=
  if q.closed then .error (.runtime "consumer gone")
  else .ok { q with
    bytes := (q.bytes + item.data.length) % 2 ^ 64
    items := q.items ++ [item] }

/-- What `pop` waits for. -/
def ready (q : ItemQueue) : Bool := !q.items.isEmpty || q.done

/-- `pop` behind the wait; `none` when it returns false. -/
def pop (q : ItemQueue) : Option (TarItem × ItemQueue) :=
  match q.items with
  | [] => none
  | item :: rest => some (item, { q with
      items := rest
      bytes := (q.bytes + 2 ^ 64 - item.data.length) % 2 ^ 64 })

/-- `close`. -/
def close (q : ItemQueue) : ItemQueue := { q with closed := true }

/-- `finish`. -/
def finish (q : ItemQueue) (error : Option Err) : ItemQueue := { q with done := true, err := error }

/-- `bytes` counts the queued data, and the queue is within its limits or holds one item. -/
structure Ok (q : ItemQueue) : Prop where
  bytes : q.bytes = (q.items.map fun item => item.data.length).sum
  bound : q.items.length ≤ 1 ∨ (q.items.length ≤ kMaxItems ∧ q.bytes ≤ kMaxBytes)

/-- The sum `push` computes does not wrap around. -/
theorem Ok.bytes_lt {q : ItemQueue} (h : q.Ok) (item : TarItem) :
    q.bytes + item.data.length < 2 ^ 64 := by
  have hitem := item.short
  have hq : q.bytes ≤ maxOff := by
    rcases h.bound with h₁ | ⟨_, h₁⟩
    · rw [h.bytes]
      match q.items, h₁ with
      | [], _ => exact Nat.zero_le _
      | [item'], _ => simpa using item'.short
    · exact h₁.trans (by decide)
  unfold maxOff at *
  omega

/-- A push for which there is room keeps the count and the limits. -/
theorem Ok.push {q q' : ItemQueue} {item : TarItem} (h : q.Ok) (hroom : q.room item = true)
    (hpush : q.push item = .ok q') : q'.Ok := by
  have hlt := Nat.mod_eq_of_lt (h.bytes_lt item)
  unfold ItemQueue.push at hpush
  split at hpush
  · cases hpush
  · next hclosed =>
    cases hpush
    refine ⟨?_, ?_⟩
    · dsimp only
      rw [hlt, h.bytes, List.map_append, List.sum_append]
      rfl
    · simp only [room, hclosed, Bool.false_or, Bool.or_eq_true, Bool.and_eq_true,
        decide_eq_true_eq, List.isEmpty_iff] at hroom
      rcases hroom with hempty | ⟨hlen, hbytes⟩
      · left
        simp [hempty]
      · right
        rw [List.length_append]
        exact ⟨hlen, hbytes⟩

theorem Ok.pop {q q' : ItemQueue} {item : TarItem} (h : q.Ok) (hpop : q.pop = some (item, q')) :
    q'.Ok := by
  unfold ItemQueue.pop at hpop
  split at hpop
  · cases hpop
  · next rest hitems =>
    cases hpop
    have hbytes := h.bytes
    have hlt := h.bytes_lt item
    rw [hitems, List.map_cons, List.sum_cons] at hbytes
    have hsub : (q.bytes + 2 ^ 64 - item.data.length) % 2 ^ 64 = q.bytes - item.data.length := by
      omega
    refine ⟨?_, ?_⟩ <;> dsimp only <;> rw [hsub]
    · omega
    · rcases h.bound with h₁ | ⟨h₁, h₂⟩ <;> rw [hitems, List.length_cons] at h₁
      · left
        omega
      · right
        exact ⟨by omega, by omega⟩

/-- A pop takes the front item. -/
theorem pop_eq {q q' : ItemQueue} {item : TarItem} (h : q.pop = some (item, q')) :
    q.items = item :: q'.items ∧ q'.done = q.done ∧ q'.closed = q.closed ∧ q'.err = q.err := by
  unfold ItemQueue.pop at h
  split at h
  · cases h
  · next hitems =>
    cases h
    exact ⟨hitems, rfl, rfl, rfl⟩

/-- A push that returns appends the item. -/
theorem push_eq {q q' : ItemQueue} {item : TarItem} (h : q.push item = .ok q') :
    q.closed = false ∧ q'.items = q.items ++ [item] ∧ q'.done = q.done ∧ q'.closed = q.closed ∧
      q'.err = q.err := by
  unfold ItemQueue.push at h
  split at h
  · cases h
  · next hclosed =>
    cases h
    exact ⟨Bool.eq_false_iff.2 hclosed, rfl, rfl, rfl, rfl⟩

/-- A push fails only on a closed queue. -/
theorem push_error {q : ItemQueue} {item : TarItem} {e : Err} (h : q.push item = .error e) :
    q.closed = true := by
  unfold ItemQueue.push at h
  split at h
  · assumption
  · cases h

/-- Nothing is popped from an empty queue. -/
theorem pop_eq_none {q : ItemQueue} (h : q.pop = none) : q.items = [] := by
  unfold ItemQueue.pop at h
  split at h
  · assumption
  · cases h

end ItemQueue

/-! ## The threads -/

/-- Where the producer is, with the headers not read yet. -/
inductive Producer where
  | reading (left : List Entry)
  | pushing (item : TarItem) (left : List Entry) (asleep : Bool)
  | finishing (err : Option Err)
  | exited

/-- Where the consumer is, with the state `apply_item` works on. `joining r` waits for the producer
to exit, `r` being what it has to return or to throw so far. -/
inductive Consumer (σ : Type) where
  | popping (st : σ) (asleep : Bool)
  | applying (st : σ) (item : TarItem)
  | closing (e : Err)
  | joining (r : Except Err σ)
  | finished (r : Except Err σ)

/-- `notify_all`, or a spurious wake-up. -/
def Producer.wake : Producer → Producer
  | pushing item left _ => pushing item left false
  | p => p

def Consumer.wake {σ : Type} : Consumer σ → Consumer σ
  | popping st _ => popping st false
  | c => c

/-- The queue and the two threads. -/
structure State (σ : Type) where
  queue : ItemQueue
  producer : Producer
  consumer : Consumer σ

/-- What a step is known by: an item was read, or `apply_item` ran on one. -/
inductive Event where
  | read (item : TarItem)
  | apply (item : TarItem)
  | quiet

variable {σ : Type}

/-- The steps of the two threads of `ingest_archive`. -/
inductive Step (apply : σ → TarItem → Except Err σ) (arc : Archive) :
    State σ → Event → State σ → Prop where
  | read {q : ItemQueue} {c : Consumer σ} {header : Entry} {left : List Entry} {item : TarItem}
      (hread : readItem header = .ok item) :
      Step apply arc ⟨q, .reading (header :: left), c⟩ (.read item) ⟨q, .pushing item left false, c⟩
  | readFails {q : ItemQueue} {c : Consumer σ} {header : Entry} {left : List Entry} {e : Err}
      (hread : readItem header = .error e) :
      Step apply arc ⟨q, .reading (header :: left), c⟩ .quiet ⟨q, .finishing (some e), c⟩
  | readEnds {q : ItemQueue} {c : Consumer σ} :
      Step apply arc ⟨q, .reading [], c⟩ .quiet ⟨q, .finishing arc.endError, c⟩
  | push {q q' : ItemQueue} {c : Consumer σ} {item : TarItem} {left : List Entry}
      (hroom : q.room item = true) (hpush : q.push item = .ok q') :
      Step apply arc ⟨q, .pushing item left false, c⟩ .quiet ⟨q', .reading left, c.wake⟩
  | pushFails {q : ItemQueue} {c : Consumer σ} {item : TarItem} {left : List Entry} {e : Err}
      (hroom : q.room item = true) (hpush : q.push item = .error e) :
      Step apply arc ⟨q, .pushing item left false, c⟩ .quiet ⟨q, .finishing (some e), c⟩
  | pushWaits {q : ItemQueue} {c : Consumer σ} {item : TarItem} {left : List Entry}
      (hroom : q.room item = false) :
      Step apply arc ⟨q, .pushing item left false, c⟩ .quiet ⟨q, .pushing item left true, c⟩
  | finish {q : ItemQueue} {c : Consumer σ} {err : Option Err} :
      Step apply arc ⟨q, .finishing err, c⟩ .quiet ⟨q.finish err, .exited, c.wake⟩
  | wakeProducer {q : ItemQueue} {c : Consumer σ} {item : TarItem} {left : List Entry} :
      Step apply arc ⟨q, .pushing item left true, c⟩ .quiet ⟨q, .pushing item left false, c⟩
  | pop {q q' : ItemQueue} {p : Producer} {st : σ} {item : TarItem} (hready : q.ready = true)
      (hpop : q.pop = some (item, q')) :
      Step apply arc ⟨q, p, .popping st false⟩ .quiet ⟨q', p.wake, .applying st item⟩
  | popEnds {q : ItemQueue} {p : Producer} {st : σ} (hready : q.ready = true)
      (hpop : q.pop = none) :
      Step apply arc ⟨q, p, .popping st false⟩ .quiet ⟨q, p, .joining (.ok st)⟩
  | popWaits {q : ItemQueue} {p : Producer} {st : σ} (hready : q.ready = false) :
      Step apply arc ⟨q, p, .popping st false⟩ .quiet ⟨q, p, .popping st true⟩
  | wakeConsumer {q : ItemQueue} {p : Producer} {st : σ} :
      Step apply arc ⟨q, p, .popping st true⟩ .quiet ⟨q, p, .popping st false⟩
  | apply {q : ItemQueue} {p : Producer} {st st' : σ} {item : TarItem}
      (happly : apply st item = .ok st') :
      Step apply arc ⟨q, p, .applying st item⟩ (.apply item) ⟨q, p, .popping st' false⟩
  | applyFails {q : ItemQueue} {p : Producer} {st : σ} {item : TarItem} {e : Err}
      (happly : apply st item = .error e) :
      Step apply arc ⟨q, p, .applying st item⟩ (.apply item) ⟨q, p, .closing e⟩
  | close {q : ItemQueue} {p : Producer} {e : Err} :
      Step apply arc ⟨q, p, .closing e⟩ .quiet ⟨q.close, p.wake, .joining (.error e)⟩
  | join {q : ItemQueue} {r : Except Err σ} :
      Step apply arc ⟨q, .exited, .joining r⟩ .quiet
        ⟨q, .exited, .finished (r.bind fun st => q.err.elim (.ok st) .error)⟩

/-- The threads of `ingest_archive` before their first steps. -/
def State.init (arc : Archive) (st : σ) : State σ :=
  ⟨{}, .reading arc.entries, .popping st false⟩

/-! ## What a run has done -/

/-- The items a run has read. -/
def reads (es : List Event) : List TarItem :=
  es.filterMap fun
    | .read item => some item
    | _ => none

/-- The items a run has called `apply_item` on. -/
def applied (es : List Event) : List TarItem :=
  es.filterMap fun
    | .apply item => some item
    | _ => none

@[simp] theorem reads_read (es : List Event) (item : TarItem) :
    reads (es ++ [.read item]) = reads es ++ [item] := by simp [reads]

@[simp] theorem reads_apply (es : List Event) (item : TarItem) :
    reads (es ++ [.apply item]) = reads es := by simp [reads]

@[simp] theorem reads_quiet (es : List Event) : reads (es ++ [.quiet]) = reads es := by
  simp [reads]

@[simp] theorem applied_read (es : List Event) (item : TarItem) :
    applied (es ++ [.read item]) = applied es := by simp [applied]

@[simp] theorem applied_apply (es : List Event) (item : TarItem) :
    applied (es ++ [.apply item]) = applied es ++ [item] := by simp [applied]

@[simp] theorem applied_quiet (es : List Event) : applied (es ++ [.quiet]) = applied es := by
  simp [applied]

/-- The item the producer has read and not pushed. -/
def Producer.pending : Producer → List TarItem
  | .pushing item _ _ => [item]
  | _ => []

/-- The item the consumer has popped and not applied. -/
def Consumer.held : Consumer σ → List TarItem
  | .applying _ item => [item]
  | _ => []

/-- The producer knows how the reading ended, unless the consumer is gone. -/
def Ends (arc : Archive) (q : ItemQueue) (rs : List TarItem) (err : Option Err) : Prop :=
  q.closed = true ∨ (rs = arc.items.1 ∧ err = arc.items.2)

/-- What holds of the producer after it has read `rs`. -/
def Producer.Tracks (arc : Archive) (q : ItemQueue) (rs : List TarItem) : Producer → Prop
  | .reading left => q.done = false ∧ arc.items =
      (rs ++ (readItems arc.endError left).1, (readItems arc.endError left).2)
  | .pushing item left asleep => q.done = false ∧ arc.items =
      (rs ++ (readItems arc.endError left).1, (readItems arc.endError left).2) ∧
      (asleep = true → q.room item = false)
  | .finishing err => q.done = false ∧ Ends arc q rs err
  | .exited => q.done = true ∧ Ends arc q rs q.err

/-- The consumer has left its loop, with what the applications came to. -/
def Leaves (q : ItemQueue) : Except Err σ → Prop
  | .ok _ => q.closed = false ∧ q.items = [] ∧ q.done = true
  | .error _ => q.closed = true

/-- What holds of the consumer after the applications came to `fold`. -/
def Consumer.Tracks (q : ItemQueue) (fold : Except Err σ) : Consumer σ → Prop
  | .popping st asleep => q.closed = false ∧ fold = .ok st ∧ (asleep = true → q.ready = false)
  | .applying st _ => q.closed = false ∧ fold = .ok st
  | .closing e => q.closed = false ∧ fold = .error e
  | .joining r => fold = r ∧ Leaves q r
  | .finished r => q.done = true ∧ Leaves q fold ∧
      r = fold.bind fun st => q.err.elim (.ok st) .error

/-- What holds of the state a run has led to. -/
structure Tracks (apply : σ → TarItem → Except Err σ) (arc : Archive) (st₀ : σ) (es : List Event)
    (s : State σ) : Prop where
  queue : s.queue.Ok
  producer : s.producer.Tracks arc s.queue (reads es)
  consumer : s.consumer.Tracks s.queue ((applied es).foldlM apply st₀)
  flow : s.queue.closed = false →
    reads es = applied es ++ s.consumer.held ++ s.queue.items ++ s.producer.pending
  order : applied es <+: reads es
  source : reads es <+: arc.items.1

/-- The producer does not mind what the consumer does to the queue. -/
theorem Producer.Tracks.wake {arc : Archive} {q q' : ItemQueue} {rs : List TarItem} {p : Producer}
    (h : p.Tracks arc q rs) (hdone : q'.done = q.done) (herr : q'.err = q.err)
    (hclosed : q.closed = true → q'.closed = true) : p.wake.Tracks arc q' rs := by
  cases p with
  | reading left => exact ⟨hdone.trans h.1, h.2⟩
  | pushing item left asleep => exact ⟨hdone.trans h.1, h.2.1, nofun⟩
  | finishing err => exact ⟨hdone.trans h.1, h.2.imp_left hclosed⟩
  | exited =>
    refine ⟨hdone.trans h.1, ?_⟩
    rw [herr]
    exact h.2.imp_left hclosed

/-- The consumer does not mind what the producer does to the queue before it exits. -/
theorem Consumer.Tracks.wake {q q' : ItemQueue} {fold : Except Err σ} {c : Consumer σ}
    (h : c.Tracks q fold) (hdone : q.done = false) (hclosed : q'.closed = q.closed) :
    c.wake.Tracks q' fold := by
  cases c with
  | popping st asleep => exact ⟨hclosed.trans h.1, h.2.1, nofun⟩
  | applying st item => exact ⟨hclosed.trans h.1, h.2⟩
  | closing e => exact ⟨hclosed.trans h.1, h.2⟩
  | joining r =>
    refine ⟨h.1, ?_⟩
    cases r with
    | ok st =>
      have hd := h.2.2.2
      rw [hdone] at hd
      cases hd
    | error e => exact hclosed.trans h.2
  | finished r =>
    have hd := h.1
    rw [hdone] at hd
    cases hd

/-- Waking the producer leaves it its item. -/
@[simp] theorem Producer.pending_wake (p : Producer) : p.wake.pending = p.pending := by
  cases p <;> rfl

/-- Waking the consumer leaves it its item. -/
@[simp] theorem Consumer.held_wake (c : Consumer σ) : c.wake.held = c.held := by
  cases c <;> rfl

section

variable {apply : σ → TarItem → Except Err σ} {arc : Archive} {st₀ : σ} {es : List Event}

theorem Tracks.init : Tracks apply arc st₀ [] (.init arc st₀) where
  queue := ⟨rfl, .inl (Nat.zero_le _)⟩
  producer := ⟨rfl, rfl⟩
  consumer := ⟨rfl, rfl, nofun⟩
  flow _ := rfl
  order := List.prefix_rfl
  source := List.nil_prefix

/-- A step that neither reads nor applies. -/
theorem Tracks.quiet {s s' : State σ} (h : Tracks apply arc st₀ es s) (hqueue : s'.queue.Ok)
    (hproducer : s'.producer.Tracks arc s'.queue (reads es))
    (hconsumer : s'.consumer.Tracks s'.queue ((applied es).foldlM apply st₀))
    (hflow : s'.queue.closed = false →
      reads es = applied es ++ s'.consumer.held ++ s'.queue.items ++ s'.producer.pending) :
    Tracks apply arc st₀ (es ++ [.quiet]) s' where
  queue := hqueue
  producer := by rwa [reads_quiet]
  consumer := by rwa [applied_quiet]
  flow := by rwa [reads_quiet, applied_quiet]
  order := by
    rw [reads_quiet, applied_quiet]
    exact h.order
  source := by
    rw [reads_quiet]
    exact h.source

/-- One more item is applied. -/
theorem foldlM_concat {items : List TarItem} {item : TarItem} {st : σ}
    (h : items.foldlM apply st₀ = .ok st) : (items ++ [item]).foldlM apply st₀ = apply st item := by
  rw [List.foldlM_append, h]
  exact bind_pure (apply st item)

/-- An application takes the item the consumer holds. -/
theorem Tracks.applies {q : ItemQueue} {p : Producer} {st : σ} {item : TarItem} {c : Consumer σ}
    (h : Tracks apply arc st₀ es ⟨q, p, .applying st item⟩) (hheld : c.held = [])
    (hconsumer : c.Tracks q (apply st item)) :
    Tracks apply arc st₀ (es ++ [.apply item]) ⟨q, p, c⟩ where
  queue := h.queue
  producer := by
    rw [reads_apply]
    exact h.producer
  consumer := by rwa [applied_apply, foldlM_concat h.consumer.2]
  flow hopen := by
    have hflow := h.flow hopen
    dsimp only at hflow
    rw [reads_apply, applied_apply, hflow, hheld, List.append_nil]
    rfl
  order := by
    have hflow := h.flow h.consumer.1
    rw [reads_apply, applied_apply]
    exact ⟨q.items ++ p.pending, by rw [hflow, List.append_assoc _ q.items]; rfl⟩
  source := by
    rw [reads_apply]
    exact h.source

/-- The steps of either thread keep `Tracks`. -/
theorem Tracks.step {s s' : State σ} {l : Event} (h : Tracks apply arc st₀ es s)
    (hs : Step apply arc s l s') : Tracks apply arc st₀ (es ++ [l]) s' := by
  have hproducer := h.producer
  have hconsumer := h.consumer
  cases hs with
  | @read q c header left item hread =>
    obtain ⟨hdone, hitems⟩ := hproducer
    rw [readItems, hread] at hitems
    refine ⟨h.queue, ⟨hdone, ?_, nofun⟩, ?_, fun hopen => ?_, ?_, ?_⟩
    · rw [hitems, reads_read, List.append_assoc]
      rfl
    · rwa [applied_read]
    · have hflow := h.flow hopen
      simp only [Producer.pending, List.append_nil] at hflow
      rw [reads_read, applied_read, hflow]
      rfl
    · rw [reads_read, applied_read]
      exact h.order.trans (List.prefix_append _ _)
    · rw [reads_read, hitems]
      exact ⟨(readItems arc.endError left).1, List.append_assoc _ _ _⟩
  | readFails hread =>
    obtain ⟨hdone, hitems⟩ := hproducer
    rw [readItems, hread, List.append_nil] at hitems
    have hends : reads es = arc.items.1 ∧ some _ = arc.items.2 := ⟨by rw [hitems], by rw [hitems]⟩
    exact h.quiet h.queue ⟨hdone, .inr hends⟩ hconsumer h.flow
  | readEnds =>
    obtain ⟨hdone, hitems⟩ := hproducer
    rw [readItems, List.append_nil] at hitems
    have hends : reads es = arc.items.1 ∧ arc.endError = arc.items.2 :=
      ⟨by rw [hitems], by rw [hitems]⟩
    exact h.quiet h.queue ⟨hdone, .inr hends⟩ hconsumer h.flow
  | push hroom hpush =>
    obtain ⟨hopen, hitems, hdone, hclosed, -⟩ := ItemQueue.push_eq hpush
    refine h.quiet (h.queue.push hroom hpush) ⟨hdone.trans hproducer.1, hproducer.2.1⟩
      (hconsumer.wake hproducer.1 hclosed) fun _ => ?_
    have hflow := h.flow hopen
    rw [hflow, hitems, Consumer.held_wake]
    simp [Producer.pending]
  | pushFails hroom hpush =>
    have hclosed := ItemQueue.push_error hpush
    refine h.quiet h.queue ⟨hproducer.1, .inl hclosed⟩ hconsumer fun hopen => ?_
    rw [hclosed] at hopen
    cases hopen
  | pushWaits hroom =>
    exact h.quiet h.queue ⟨hproducer.1, hproducer.2.1, fun _ => hroom⟩ hconsumer h.flow
  | finish =>
    refine h.quiet ⟨h.queue.bytes, h.queue.bound⟩ ⟨rfl, hproducer.2⟩
      (hconsumer.wake hproducer.1 rfl) fun hopen => ?_
    have hflow := h.flow hopen
    rw [hflow, Consumer.held_wake]
    rfl
  | wakeProducer =>
    exact h.quiet h.queue ⟨hproducer.1, hproducer.2.1, nofun⟩ hconsumer h.flow
  | pop hready hpop =>
    obtain ⟨hitems, hdone, hclosed, herr⟩ := ItemQueue.pop_eq hpop
    refine h.quiet (h.queue.pop hpop) (hproducer.wake hdone herr hclosed.trans)
      ⟨hclosed.trans hconsumer.1, hconsumer.2.1⟩ fun _ => ?_
    have hflow := h.flow hconsumer.1
    rw [hflow, hitems, Producer.pending_wake]
    simp [Consumer.held]
  | @popEnds q p st hready hpop =>
    have hitems := ItemQueue.pop_eq_none hpop
    have hdone : q.done = true := by simpa [ItemQueue.ready, hitems] using hready
    exact h.quiet h.queue hproducer ⟨hconsumer.2.1, hconsumer.1, hitems, hdone⟩ h.flow
  | popWaits hready =>
    exact h.quiet h.queue hproducer ⟨hconsumer.1, hconsumer.2.1, fun _ => hready⟩ h.flow
  | wakeConsumer => exact h.quiet h.queue hproducer ⟨hconsumer.1, hconsumer.2.1, nofun⟩ h.flow
  | apply happly => exact h.applies rfl ⟨hconsumer.1, happly, nofun⟩
  | applyFails happly => exact h.applies rfl ⟨hconsumer.1, happly⟩
  | close =>
    exact h.quiet ⟨h.queue.bytes, h.queue.bound⟩ (hproducer.wake rfl rfl fun _ => rfl)
      ⟨hconsumer.2, rfl⟩ nofun
  | join =>
    obtain ⟨hfold, hleaves⟩ := hconsumer
    refine h.quiet h.queue hproducer ⟨hproducer.1, ?_, ?_⟩ h.flow
    · rwa [hfold]
    · rw [hfold]

/-- What a run has done, in every state of the run. -/
theorem Tracks.run {s : State σ} (h : Runs (Step apply arc) (.init arc st₀) es s) :
    Tracks apply arc st₀ es s :=
  h.history Tracks.step .init

/-! ## The end of a run -/

/-- What is left to do: each wake-up costs less than what a step that notifies accomplishes. -/
def Producer.work : Producer → Nat
  | .reading left => 12 * left.length + 6
  | .pushing _ left asleep => 12 * left.length + 16 + (if asleep then 0 else 1)
  | .finishing _ => 4
  | .exited => 0

def Consumer.work : Consumer σ → Nat
  | .popping _ asleep => 6 + (if asleep then 0 else 1)
  | .applying _ _ => 10
  | .closing _ => 5
  | .joining _ => 2
  | .finished _ => 0

def State.work (s : State σ) : Nat :=
  s.producer.work + 6 * s.queue.items.length + s.consumer.work

/-- A woken producer may have to look once more. -/
theorem Producer.work_wake (p : Producer) : p.wake.work ≤ p.work + 1 := by
  cases p with
  | pushing item left asleep => cases asleep <;> simp [wake, work]
  | _ => exact Nat.le_succ _

theorem Consumer.work_wake (c : Consumer σ) : c.wake.work ≤ c.work + 1 := by
  cases c with
  | popping st asleep => cases asleep <;> simp [wake, work]
  | _ => exact Nat.le_succ _

/-- A state with a thread woken for no reason. -/
def State.Spurious (s s' : State σ) : Prop :=
  s' = ⟨s.queue, s.producer.wake, s.consumer⟩ ∨ s' = ⟨s.queue, s.producer, s.consumer.wake⟩

/-- Every step other than a spurious wake-up reduces the work left. -/
theorem Step.work_lt {s s' : State σ} {l : Event} (h : Step apply arc s l s') :
    s'.work < s.work ∨ s.Spurious s' := by
  cases h with
  | wakeProducer => exact .inr (.inl rfl)
  | wakeConsumer => exact .inr (.inr rfl)
  | read | readFails | readEnds | pushFails | pushWaits | popWaits | apply | applyFails | popEnds
    | join =>
    left
    simp only [State.work, Producer.work, Consumer.work, List.length_cons]
    simp
    try omega
  | @push q q' c item left hroom hpush =>
    left
    have hwake := c.work_wake
    obtain ⟨-, hitems, -⟩ := ItemQueue.push_eq hpush
    simp only [State.work, Producer.work, hitems, List.length_append, List.length_singleton]
    simp
    omega
  | @finish q c err =>
    left
    have hwake := c.work_wake
    simp only [State.work, Producer.work, ItemQueue.finish]
    omega
  | @pop q q' p st item hready hpop =>
    left
    have hwake := p.work_wake
    obtain ⟨hitems, -⟩ := ItemQueue.pop_eq hpop
    simp only [State.work, Consumer.work, hitems, List.length_cons]
    simp
    omega
  | @close q p e =>
    left
    have hwake := p.work_wake
    simp only [State.work, Consumer.work, ItemQueue.close]
    omega

/-- A thread blocked in `push`. -/
def Producer.Asleep (p : Producer) : Prop := ∃ item left, p = .pushing item left true

/-- A thread blocked in `pop`. -/
def Consumer.Asleep (c : Consumer σ) : Prop := ∃ st, c = .popping st true

/-- A producer that sleeps finds no room: the queue is open and not empty. -/
theorem Tracks.producer_asleep {s : State σ} (h : Tracks apply arc st₀ es s)
    (hs : s.producer.Asleep) : s.queue.closed = false ∧ s.queue.items ≠ [] := by
  obtain ⟨item, left, hp⟩ := hs
  have hproducer := h.producer
  rw [hp] at hproducer
  have hroom := hproducer.2.2 rfl
  simp only [ItemQueue.room, Bool.or_eq_false_iff] at hroom
  refine ⟨hroom.1.1, ?_⟩
  intro hempty
  simp [hempty] at hroom

/-- A consumer that sleeps finds nothing: the queue is empty and not finished. -/
theorem Tracks.consumer_asleep {s : State σ} (h : Tracks apply arc st₀ es s)
    (hs : s.consumer.Asleep) : s.queue.items = [] ∧ s.queue.done = false := by
  obtain ⟨st, hc⟩ := hs
  have hconsumer := h.consumer
  rw [hc] at hconsumer
  simpa [ItemQueue.ready] using hconsumer.2.2 rfl

/-- A producer that does not sleep and has not exited can take a step that is not a wake-up. -/
theorem exists_step_producer {s : State σ} (hexited : s.producer ≠ .exited)
    (hawake : ¬s.producer.Asleep) :
    ∃ l s', Step apply arc s l s' ∧ ¬s.Spurious s' := by
  obtain ⟨q, p, c⟩ := s
  cases p with
  | exited => exact absurd rfl hexited
  | finishing err => exact ⟨_, _, .finish, by simp [State.Spurious, Producer.wake]⟩
  | reading left =>
    cases left with
    | nil => exact ⟨_, _, .readEnds, by simp [State.Spurious, Producer.wake]⟩
    | cons header left =>
      cases hread : readItem header with
      | ok item => exact ⟨_, _, .read hread, by simp [State.Spurious, Producer.wake]⟩
      | error e => exact ⟨_, _, .readFails hread, by simp [State.Spurious, Producer.wake]⟩
  | pushing item left asleep =>
    cases asleep with
    | true => exact absurd ⟨item, left, rfl⟩ hawake
    | false =>
      cases hroom : q.room item with
      | false => exact ⟨_, _, .pushWaits hroom, by simp [State.Spurious, Producer.wake]⟩
      | true =>
        cases hpush : q.push item with
        | ok q' => exact ⟨_, _, .push hroom hpush, by simp [State.Spurious, Producer.wake]⟩
        | error e => exact ⟨_, _, .pushFails hroom hpush, by simp [State.Spurious, Producer.wake]⟩

/-- A consumer that does not sleep and waits for nobody can take a step that is not a wake-up. -/
theorem exists_step_consumer {s : State σ} (hjoining : ∀ r, s.consumer ≠ .joining r)
    (hfinished : ∀ r, s.consumer ≠ .finished r) (hawake : ¬s.consumer.Asleep) :
    ∃ l s', Step apply arc s l s' ∧ ¬s.Spurious s' := by
  obtain ⟨q, p, c⟩ := s
  cases c with
  | joining r => exact absurd rfl (hjoining r)
  | finished r => exact absurd rfl (hfinished r)
  | closing e => exact ⟨_, _, .close, by simp [State.Spurious, Consumer.wake]⟩
  | applying st item =>
    cases happly : apply st item with
    | ok st' => exact ⟨_, _, .apply happly, by simp [State.Spurious, Consumer.wake]⟩
    | error e => exact ⟨_, _, .applyFails happly, by simp [State.Spurious, Consumer.wake]⟩
  | popping st asleep =>
    cases asleep with
    | true => exact absurd ⟨st, rfl⟩ hawake
    | false =>
      cases hready : q.ready with
      | false => exact ⟨_, _, .popWaits hready, by simp [State.Spurious, Consumer.wake]⟩
      | true =>
        cases hpop : q.pop with
        | none => exact ⟨_, _, .popEnds hready hpop, by simp [State.Spurious, Consumer.wake]⟩
        | some r => exact ⟨_, _, .pop hready hpop, by simp [State.Spurious, Consumer.wake]⟩

/-- No run is stuck before the consumer has finished. -/
theorem Tracks.exists_step {s : State σ} (h : Tracks apply arc st₀ es s)
    (hfinished : ∀ r, s.consumer ≠ .finished r) :
    ∃ l s', Step apply arc s l s' ∧ ¬s.Spurious s' := by
  by_cases hsleep : s.producer.Asleep
  · -- the consumer does not sleep as well, and waits for the end of the producer only when the
    -- queue is closed, or empty and finished
    obtain ⟨hopen, hitems⟩ := h.producer_asleep hsleep
    refine exists_step_consumer (fun r hr => ?_) hfinished
      fun hc => hitems (h.consumer_asleep hc).1
    have hconsumer := h.consumer
    rw [hr] at hconsumer
    cases r with
    | ok st => exact hitems hconsumer.2.2.1
    | error e =>
      have hclosed : s.queue.closed = true := hconsumer.2
      rw [hopen] at hclosed
      cases hclosed
  · by_cases hexited : s.producer = .exited
    · by_cases hjoining : ∃ r, s.consumer = .joining r
      · obtain ⟨q, p, c⟩ := s
        obtain ⟨r, rfl⟩ := hjoining
        obtain rfl := hexited
        exact ⟨_, _, .join, by simp [State.Spurious, Consumer.wake]⟩
      · refine exists_step_consumer (fun r hr => hjoining ⟨r, hr⟩) hfinished fun hc => ?_
        have hdone := (h.consumer_asleep hc).2
        have hproducer := h.producer
        rw [hexited] at hproducer
        rw [hproducer.1] at hdone
        cases hdone
    · exact exists_step_producer hexited hsleep

/-- From every state of every run the threads come to an end. -/
theorem Tracks.exists_end {s : State σ} (h : Tracks apply arc st₀ es s) :
    ∃ es' s' r, Runs (Step apply arc) s es' s' ∧ s'.consumer = .finished r := by
  induction hn : s.work using Nat.strongRecOn generalizing s es with
  | ind n ih =>
    by_cases hfinished : ∃ r, s.consumer = .finished r
    · obtain ⟨r, hr⟩ := hfinished
      exact ⟨[], s, r, .nil, hr⟩
    · obtain ⟨l, s₁, hstep, hwake⟩ := h.exists_step fun r hr => hfinished ⟨r, hr⟩
      have hlt := hstep.work_lt.resolve_right hwake
      obtain ⟨es', s', r, hrun, hr⟩ := ih s₁.work (by omega) (h.step hstep) rfl
      exact ⟨_, s', r, .cons hstep hrun, hr⟩

/-- The ingest of an archive without threads: all items, then the error of the reader. -/
def ingestItems (apply : σ → TarItem → Except Err σ) (arc : Archive) (st₀ : σ) : Except Err σ := do
  let st ← arc.items.1.foldlM apply st₀
  arc.items.2.elim (.ok st) .error

/-- How a run ends: with the error of the item that could not be applied, or with all items applied
and the outcome of the reading. -/
theorem Tracks.finished {s : State σ} {r : Except Err σ} (h : Tracks apply arc st₀ es s)
    (hs : s.consumer = .finished r) :
    r = ingestItems apply arc st₀ ∧
      ((∃ e, (applied es).foldlM apply st₀ = .error e ∧ r = .error e) ∨
        ∃ st, (applied es).foldlM apply st₀ = .ok st ∧ applied es = reads es ∧
          reads es = arc.items.1 ∧ r = arc.items.2.elim (.ok st) .error) := by
  have hconsumer := h.consumer
  rw [hs] at hconsumer
  obtain ⟨hdone, hleaves, rfl⟩ := hconsumer
  cases hfold : (applied es).foldlM apply st₀ with
  | error e =>
    obtain ⟨rest, hrest⟩ := h.order.trans h.source
    have hall : arc.items.1.foldlM apply st₀ = .error e := by
      rw [← hrest, List.foldlM_append, hfold]
      rfl
    refine ⟨?_, .inl ⟨e, rfl, rfl⟩⟩
    rw [ingestItems, hall]
    rfl
  | ok st =>
    rw [hfold] at hleaves
    obtain ⟨hopen, hitems, _⟩ := hleaves
    have hproducer := h.producer
    have hexited : s.producer = .exited := by
      cases hp : s.producer with
      | exited => rfl
      | reading | pushing | finishing =>
        rw [hp] at hproducer
        have hd := hproducer.1
        rw [hdone] at hd
        cases hd
    rw [hexited] at hproducer
    obtain ⟨hall, herr⟩ := hproducer.2.resolve_left (by rw [hopen]; exact nofun)
    have hsame : applied es = reads es := by
      have hflow := h.flow hopen
      rw [hs, hitems, hexited] at hflow
      simpa [Consumer.held, Producer.pending] using hflow.symm
    refine ⟨?_, .inr ⟨st, rfl, hsame, hall, ?_⟩⟩
    · rw [ingestItems, ← hall, ← hsame, hfold, ← herr]
      rfl
    · rw [← herr]
      rfl

end

/-- The queue hands the items on faithfully. In every state of every run of the two threads, the
items applied are a prefix of those read, and those a prefix of the archive's; the queue is within
its limits; no thread sleeps in vain, and the run can be brought to an end. When it has ended, it
has thrown the error of the first item that could not be applied, or has applied all items and
thrown what the reader threw, or returned what the items make of the state one after the other. -/
theorem queue_faithful (apply : σ → TarItem → Except Err σ) (arc : Archive) (st₀ : σ)
    {es : List Event} {s : State σ} (h : Runs (Step apply arc) (.init arc st₀) es s) :
    (applied es <+: reads es ∧ reads es <+: arc.items.1) ∧
    (∀ r, s.consumer = .finished r → r = ingestItems apply arc st₀ ∧
      ((∃ e, (applied es).foldlM apply st₀ = .error e ∧ r = .error e) ∨
        ∃ st, (applied es).foldlM apply st₀ = .ok st ∧ applied es = reads es ∧
          reads es = arc.items.1 ∧ r = arc.items.2.elim (.ok st) .error)) ∧
    (s.queue.bytes = (s.queue.items.map fun item => item.data.length).sum ∧
      (s.queue.items.length ≤ 1 ∨
        (s.queue.items.length ≤ kMaxItems ∧ s.queue.bytes ≤ kMaxBytes))) ∧
    (¬(s.producer.Asleep ∧ s.consumer.Asleep) ∧
      (s.producer.Asleep → s.queue.closed = false) ∧
      (s.consumer.Asleep → s.queue.done = false)) ∧
    ∃ es' s' r, Runs (Step apply arc) s es' s' ∧ s'.consumer = .finished r := by
  have ht := Tracks.run h
  refine ⟨⟨ht.order, ht.source⟩, fun r hr => ht.finished hr, ⟨ht.queue.bytes, ht.queue.bound⟩,
    ⟨?_, ?_, ?_⟩, ht.exists_end⟩
  · intro ⟨hp, hc⟩
    exact (ht.producer_asleep hp).2 (ht.consumer_asleep hc).1
  · intro hp
    exact (ht.producer_asleep hp).1
  · intro hc
    exact (ht.consumer_asleep hc).2

/-- A directory, a file and a hard link. -/
def Archive.sample : Archive :=
  ⟨[⟨some [97], none, .dir, none, 0, 0, [], none⟩, ⟨some [98], none, .reg, none, 1, 0, [[7]], none⟩,
    ⟨some [99], some [98], .reg, none, 0, 0, [], none⟩], none⟩

/-- Notes the paths of the items, and takes no hard links. -/
def notePath (st : List Bytes) (item : TarItem) : Except Err (List Bytes) :=
  if item.type = .h then .error (.runtime "hard link") else .ok (st ++ [item.path])

/-- The consumer sleeps until there is a first item, two items wait together, and the third one cannot
be applied while the producer is still about to find the end of the archive. -/
theorem queue_faithful_sample : ∃ (es : List Event) (s : State (List Bytes))
    (r : Except Err (List Bytes)),
    Runs (Step notePath .sample) (.init .sample []) es s ∧
      (applied es).map TarItem.path = [[97], [98], [99]] ∧ s.consumer = .finished r ∧
      r = .error (.runtime "hard link") ∧ r = ingestItems notePath .sample [] := by
  have hrun : Runs (Step notePath .sample) (.init .sample []) _ _ :=
    .cons (.popWaits rfl) (.cons (.read rfl) (.cons (.push rfl rfl) (.cons (.read rfl)
      (.cons (.push rfl rfl) (.cons (.pop rfl rfl) (.cons (.read rfl) (.cons (.apply rfl)
        (.cons (.pop rfl rfl) (.cons (.apply rfl) (.cons (.popWaits rfl) (.cons (.push rfl rfl)
          (.cons (.pop rfl rfl) (.cons (.applyFails rfl) (.cons .close (.cons .readEnds
            (.cons .finish (.cons .join .nil)))))))))))))))))
  exact ⟨_, _, _, hrun, rfl, rfl, rfl, ((queue_faithful notePath .sample [] hrun).2.1 _ rfl).1⟩

end Tarmac.Tree
