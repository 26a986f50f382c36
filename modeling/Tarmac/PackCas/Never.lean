import Tarmac.PackCas.Code

/-!
# Calls a function does not make

`Never c m`: the computation `m` never makes the call `c`. The functions that read make no other calls
than those of `Call.reads`, so nothing holds them up.
-/

namespace Tarmac.PackCas

/-- The computation makes no call `c`. -/
def Never {α : Type} (c : Call) (m : CasM α) : Prop := Eff.Avoids (S := sig) (· = c) m

variable {α β : Type} {c : Call}

theorem never_pure {a : α} : Never c (pure a) := Eff.Avoids.pure

theorem never_throw {e : Err} : Never c (Eff.throw e : CasM α) := Eff.Avoids.throw

/-- One program after another makes the calls of both. -/
theorem never_seq {m : CasM α} {f : α → CasM β} (hm : Never c m) (hf : ∀ a, Never c (f a)) :
    Never c (m >>= f) := Eff.Avoids.seq hm hf

/-- A call is no other call. -/
theorem never_perform {c' : Call} (h : c' ≠ c) : Never c (perform c') := Eff.Avoids.perform h

theorem never_get {f : Impl → CasM α} (h : ∀ i, Never c (f i)) : Never c (Eff.get >>= f) :=
  never_seq Eff.Avoids.get h

theorem never_modify {g : Impl → Impl} {f : Unit → CasM α} (h : Never c (f ())) :
    Never c (Eff.modify g >>= f) := never_seq Eff.Avoids.modify fun _ => h

theorem never_ofExcept {x : Except Err β} {f : β → CasM α} (h : ∀ b, Never c (f b)) :
    Never c (Eff.ofExcept x >>= f) := never_seq Eff.Avoids.ofExcept h

/-- `mdb_check` makes no calls. -/
theorem never_mdbCheck {what : String} {r : Except Errno α} : Never c (mdbCheck what r) := by
  rw [mdbCheck.eq_def]
  split
  · exact never_pure
  · exact never_throw
  · exact never_throw

/-- Nor does the check of a system call. -/
theorem never_sysCheck {what : String} {r : Except Errno α} : Never c (sysCheck what r) := by
  rw [sysCheck.eq_def]
  split
  · exact never_pure
  · exact never_throw

/-- A call, the check of its answer, and the rest. -/
theorem never_ask {c' : Call} {k : c'.Resp → CasM β} {f : β → CasM α} (hk : ∀ r, Never c (k r))
    (hf : ∀ b, Never c (f b)) (h : c' ≠ c) : Never c ((perform c' >>= k) >>= f) :=
  never_seq (never_seq (never_perform h) hk) hf

/-- Nor does the look for the current mapping. -/
theorem never_current {f : Mapping → CasM α} (h : ∀ m, Never c (f m)) :
    Never c (current >>= f) := by
  refine never_seq (never_get fun i => ?_) h
  split
  · exact never_pure
  · exact never_throw

/-! ## The functions that read -/

/-- The calls of the functions that read. -/
def Call.reads : Call → Bool
  | .readTxn | .txnDb | .mdbRead | .openPack .. | .fstat _ | .mmap _ | .mmapRead .. | .pread ..
  | .alloc _ => true
  | _ => false

/-- A call that does not read is none of those that do. -/
theorem ne_of_reads {c c' : Call} (hc : c.reads = false) (h : c'.reads = true) : c' ≠ c := by
  rintro rfl
  rw [h] at hc
  cases hc

/-- The size of a pack is read. -/
theorem never_fileSize (hc : c.reads = false) {m : Mapping} : Never c (fileSize m) :=
  never_seq (never_perform (ne_of_reads hc rfl)) fun _ => never_sysCheck

/-- `mapping_for` makes only calls that read. -/
theorem never_mappingFor (hc : c.reads = false) {g : Nat} {create : Bool} :
    Never c (mappingFor g create) := by
  refine never_get fun i => ?_
  split
  · exact never_pure
  · refine never_seq (never_seq (never_perform (ne_of_reads hc rfl)) fun r => ?_) fun m => ?_
    · split
      · exact never_throw
      · split
        · exact never_throw
        · exact never_pure
      · refine never_seq (never_fileSize hc) fun n => never_modify ?_
        exact never_ask (fun _ => never_sysCheck) (fun _ => never_pure) (ne_of_reads hc rfl)
    · split
      · exact never_pure
      · exact never_modify never_pure

theorem never_view (hc : c.reads = false) {m : Mapping} {off len : Nat} : Never c (view m off len) := by
  have hmapped : Never c (view.mapped m off len) := by
    refine never_seq (never_perform (ne_of_reads hc rfl)) fun r => ?_
    split
    · exact never_pure
    · exact never_throw
  rw [view]
  split
  · exact never_throw
  · refine never_get fun i => ?_
    split
    · refine never_seq (never_fileSize hc) fun n => never_modify ?_
      split
      · exact never_throw
      · exact hmapped
    · exact hmapped

theorem never_resize (hc : c.reads = false) {n : Nat} : Never c (resize n) := by
  rw [resize]
  split
  · exact never_throw
  · refine never_seq (never_perform (ne_of_reads hc rfl)) fun r => ?_
    cases r with
    | ok _ => exact never_pure
    | error _ => exact never_throw

theorem never_preadAll (hc : c.reads = false) {ino len off : Nat} : Never c (preadAll ino len off) := by
  have hgo (fuel len off : Nat) (acc : Bytes) : Never c (preadAll.go ino fuel len off acc) := by
    induction fuel generalizing len off acc with
    | zero => exact never_pure
    | succ fuel ih =>
      rw [preadAll.go]
      split
      · exact never_pure
      · refine never_ask (fun _ => never_sysCheck) (fun got => ?_) (ne_of_reads hc rfl)
        split
        · exact never_throw
        · exact ih _ _ _
  exact never_seq (never_resize hc) fun _ => hgo _ _ _ _

theorem never_lookup (hc : c.reads = false) {hash : Bytes} {genOut : Bool} :
    Never c (lookup hash genOut) := by
  rw [lookup]
  split
  · exact never_throw
  · refine never_seq (never_get fun i => ?_) fun db => ?_
    · split
      · exact never_seq (never_perform (ne_of_reads hc rfl)) fun _ => never_mdbCheck
      · exact never_seq (never_perform (ne_of_reads hc rfl)) fun _ => never_mdbCheck
    · have hgen : Never c (readGen db) :=
        never_ask (fun _ => never_mdbCheck) (fun _ => Eff.Avoids.ofExcept) (ne_of_reads hc rfl)
      cases genOut with
      | true =>
        refine never_seq hgen fun gen => ?_
        refine never_ask (fun _ => never_mdbCheck) (fun _ => ?_) (ne_of_reads hc rfl)
        split
        · exact never_pure
        · exact never_ofExcept fun _ => never_pure
      | false =>
        refine never_ask (fun _ => never_mdbCheck) (fun _ => ?_) (ne_of_reads hc rfl)
        split
        · exact never_pure
        · exact never_ofExcept fun _ => never_pure

theorem never_locate (hc : c.reads = false) {hash : Bytes} : Never c (locate hash) := by
  have hgo (n : Nat) : Never c (locate.go hash n) := by
    induction n with
    | zero => exact never_throw
    | succ n ih =>
      refine never_seq (never_lookup hc) fun r => ?_
      split
      · exact never_pure
      · refine never_get fun i => never_seq (never_mappingFor hc) fun m => ?_
        split
        · exact never_pure
        · exact ih
  exact hgo _

end Tarmac.PackCas
