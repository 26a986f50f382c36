import Tarmac.Lib.Prog

/-!
# Rely and guarantee for programs

`Prog.Safe R Q m w` says that the program `m`, whose last own step left the environment in `w`, is
safe to interleave with an environment that moves by `R.Rely`: each of its calls has an answer (or
waits, `R.Wait`), keeps the invariant `R.Inv`, moves the environment by `R.Guar`, and when the
program returns `a` the postcondition `Q a` holds and goes on holding while the environment moves.
It is defined by recursion on the program, so a specification is proved by following the program
text: one rule for each way a program is built.

The rules at `Eff` read the two outcomes of a computation off one postcondition on
`Except ε α`. With `R.Rely` the identity the same judgement is a total-correctness triple for a
program that runs alone (`Safe.run`, `Safe.exists_run`), and what `R.Guar` says of one step holds
of every state the program can be stopped in (`Safe.visits`).
-/

namespace Tarmac

/-- The setting a program is verified in: what its calls do, the invariant of the environment, how
the environment moves between two calls of the program, how the program's own calls move it, and
the states in which a call waits. -/
structure Rules (S : Sig) (W : Type) where
  sem : Sem S W
  Inv : W → Prop
  Rely : W → W → Prop
  Guar : W → W → Prop
  Wait : S.Call → W → Prop

variable {S : Sig} {W α β σ ε : Type}

/-- What one call of a program must satisfy in the state `w` it is made in, `k` being what must
hold of each answer and the state it leaves. -/
def Rules.Step (R : Rules S W) (c : S.Call) (k : S.Resp c → W → Prop) (w : W) : Prop :=
  (R.Wait c w ∨ ∃ r w', R.sem c w r w') ∧
    ∀ r w', R.sem c w r w' → R.Inv w' ∧ R.Guar w w' ∧ k r w'

/-- The rules in which a call waits when it has no answer. -/
def Rules.blocking (sem : Sem S W) (I : W → Prop) (R G : W → W → Prop) : Rules S W where
  sem := sem
  Inv := I
  Rely := R
  Guar := G
  Wait c w := ¬∃ r w', sem c w r w'

/-- A step under blocking rules that keeps the invariant and the guarantee. -/
theorem Rules.blocking_step {sem : Sem S W} {I : W → Prop} {R G : W → W → Prop} {c : S.Call}
    {k : S.Resp c → W → Prop} {w : W} (h : ∀ r w', sem c w r w' → I w' ∧ G w w' ∧ k r w') :
    (blocking sem I R G).Step c k w :=
  ⟨(Classical.em _).symm, h⟩

namespace Prog

/-- The program is safe from `w` and ends in `Q`. -/
def Safe (R : Rules S W) (Q : α → W → Prop) : Prog S α → W → Prop
  | .ret a, w => ∀ w₁, R.Inv w₁ → R.Rely w w₁ → Q a w₁
  | .call c k, w => ∀ w₁, R.Inv w₁ → R.Rely w w₁ → R.Step c (fun r w₂ => Safe R Q (k r) w₂) w₁

namespace Safe

variable {R : Rules S W} {Q : α → W → Prop}

theorem mono {Q' : α → W → Prop} (h : ∀ a w, R.Inv w → Q a w → Q' a w) {m : Prog S α} {w : W}
    (hm : Safe R Q m w) : Safe R Q' m w := by
  induction m generalizing w with
  | ret a => exact fun w₁ hI hR => h _ _ hI (hm w₁ hI hR)
  | call c k ih =>
    intro w₁ hI hR
    have ⟨hp, hs⟩ := hm w₁ hI hR
    exact ⟨hp, fun r w₂ hr => ⟨(hs r w₂ hr).1, (hs r w₂ hr).2.1, ih r (hs r w₂ hr).2.2⟩⟩

/-- Two postconditions. -/
theorem and {Q' : α → W → Prop} {m : Prog S α} {w : W} (hm : Safe R Q m w) (hm' : Safe R Q' m w) :
    Safe R (fun a w => Q a w ∧ Q' a w) m w := by
  induction m generalizing w with
  | ret a => exact fun w₁ hI hR => ⟨hm w₁ hI hR, hm' w₁ hI hR⟩
  | call c k ih =>
    intro w₁ hI hR
    have ⟨hp, hs⟩ := hm w₁ hI hR
    have ⟨_, hs'⟩ := hm' w₁ hI hR
    exact ⟨hp, fun r w₂ hr => ⟨(hs r w₂ hr).1, (hs r w₂ hr).2.1,
      ih r (hs r w₂ hr).2.2 (hs' r w₂ hr).2.2⟩⟩

/-- Sequencing. What a part ends in is stable under moves of the environment, so `hb` may use it in
every state the environment can move to as well as right at the end. -/
theorem bind {m : Prog S β} {f : β → Prog S α} {P : β → W → Prop} {w : W} (hw : R.Inv w)
    (hm : Safe R P m w)
    (hb : ∀ b w, R.Inv w → (∀ w₁, R.Inv w₁ → R.Rely w w₁ → P b w₁) → Safe R Q (f b) w) :
    Safe R Q (m.bind f) w := by
  induction m generalizing w with
  | ret a => exact hb a w hw hm
  | call c k ih =>
    intro w₁ hI hR
    have ⟨hp, hs⟩ := hm w₁ hI hR
    exact ⟨hp, fun r w₂ hr =>
      ⟨(hs r w₂ hr).1, (hs r w₂ hr).2.1, ih r (hs r w₂ hr).1 (hs r w₂ hr).2.2⟩⟩

/-- A function of the result. -/
theorem map {m : Prog S β} {f : β → α} {P : β → W → Prop} {w : W} (hw : R.Inv w)
    (hm : Safe R P m w) (h : ∀ b w', R.Inv w' → P b w' → Q (f b) w') :
    Safe R Q (m.bind fun b => .ret (f b)) w :=
  bind hw hm fun b _ _ hP w₁ hI₁ hR => h b w₁ hI₁ (hP w₁ hI₁ hR)

/-- Safety survives moves of the environment. -/
theorem rely {m : Prog S α} {w w' : W} (htrans : ∀ w₁, R.Inv w₁ → R.Rely w' w₁ → R.Rely w w₁)
    (hm : Safe R Q m w) : Safe R Q m w' := by
  cases m with
  | ret a => exact fun w₁ hI hR => hm w₁ hI (htrans w₁ hI hR)
  | call c k => exact fun w₁ hI hR => hm w₁ hI (htrans w₁ hI hR)

/-- A program is safe when the calls it makes are; `T` is how the environment moves meanwhile. -/
theorem of_makes {P : S.Call → Prop} {Q : α → Prop} {T : W → W → Prop} (hrefl : ∀ w, T w w)
    (htrans : ∀ w₁ w₂ w₃, T w₁ w₂ → T w₂ w₃ → T w₁ w₃)
    (hrely : ∀ w w', R.Inv w → R.Inv w' → R.Rely w w' → T w w')
    (hstep : ∀ c w, P c → R.Inv w → R.Step c (fun _ w' => T w w') w) {m : Prog S α} {w : W}
    (hm : m.Makes P Q) (hw : R.Inv w) : Safe R (fun a w' => Q a ∧ T w w') m w := by
  suffices hgen : ∀ w₀, T w₀ w → Safe R (fun a w' => Q a ∧ T w₀ w') m w from hgen w (hrefl w)
  intro w₀ hw₀
  induction m generalizing w with
  | ret a => exact fun w₁ hI hR => ⟨hm, htrans _ _ _ hw₀ (hrely _ _ hw hI hR)⟩
  | call c k ih =>
    intro w₁ hI hR
    have ⟨hp, hs⟩ := hstep c w₁ hm.1 hI
    have hw₁ := htrans _ _ _ hw₀ (hrely _ _ hw hI hR)
    refine ⟨hp, fun r w₂ hr => ?_⟩
    have ⟨h₁, h₂, h₃⟩ := hs r w₂ hr
    exact ⟨h₁, h₂, ih r (hm.2 r) h₁ (htrans _ _ _ hw₁ h₃)⟩

/-- What a safe program returns when it runs alone. -/
theorem run (hrefl : ∀ w, R.Rely w w) {m : Prog S α} {w w' : W} {tr : List (Event S)} {a : α}
    (hr : Run R.sem m w tr a w') (hw : R.Inv w) (hm : Safe R Q m w) : R.Inv w' ∧ Q a w' := by
  induction hr with
  | ret => exact ⟨hw, hm _ hw (hrefl _)⟩
  | call hs _ ih =>
    have ⟨h₁, _, h₃⟩ := (hm _ hw (hrefl _)).2 _ _ hs
    exact ih h₁ h₃

/-- How a safe program that runs alone moves the environment. -/
theorem run_moves (hrefl : ∀ w, R.Rely w w) {T : W → W → Prop} (hT : ∀ w, T w w)
    (hstep : ∀ w w₁ w', R.Inv w → R.Inv w₁ → R.Inv w' → R.Guar w w₁ → T w₁ w' → T w w')
    {m : Prog S α} {w w' : W} {tr : List (Event S)} {a : α} (hr : Run R.sem m w tr a w')
    (hw : R.Inv w) (hm : Safe R Q m w) : T w w' := by
  induction hr with
  | ret => exact hT _
  | call hs hr ih =>
    have ⟨h₁, h₂, h₃⟩ := (hm _ hw (hrefl _)).2 _ _ hs
    exact hstep _ _ _ hw h₁ (run hrefl hr h₁ h₃).1 h₂ (ih h₁ h₃)

/-- The states a safe program that runs alone can be stopped in. -/
theorem visits (hrefl : ∀ w, R.Rely w w) {m : Prog S α} {w w' : W} (hv : Visits R.sem m w w')
    (hw : R.Inv w) (hm : Safe R Q m w) : R.Inv w' ∧ Relation.ReflTransGen R.Guar w w' := by
  induction hv with
  | here => exact ⟨hw, .refl⟩
  | call hs _ ih =>
    have ⟨h₁, h₂, h₃⟩ := (hm _ hw (hrefl _)).2 _ _ hs
    have ⟨h₄, h₅⟩ := ih h₁ h₃
    exact ⟨h₄, .head h₂ h₅⟩

/-- A safe program that runs alone and never waits returns. -/
theorem exists_run (hrefl : ∀ w, R.Rely w w) (hwait : ∀ c w, R.Inv w → ¬R.Wait c w)
    {m : Prog S α} {w : W} (hw : R.Inv w) (hm : Safe R Q m w) :
    ∃ tr a w', Run R.sem m w tr a w' := by
  induction m generalizing w with
  | ret a => exact ⟨[], a, w, .ret⟩
  | call c k ih =>
    have ⟨hp, hs⟩ := hm w hw (hrefl w)
    obtain ⟨r, w₁, hr⟩ := hp.resolve_left (hwait c w hw)
    obtain ⟨tr, a, w', hrun⟩ := ih r (hs r w₁ hr).1 (hs r w₁ hr).2.2
    exact ⟨_, a, w', .call hr hrun⟩

end Safe

end Prog

namespace Eff

/-- The computation `m`, begun in the private state `s`, is safe from `w` and ends in `Q`. -/
def Safe (R : Rules S W) (Q : Except ε α → σ → W → Prop) (m : Eff S σ ε α) (s : σ) (w : W) : Prop :=
  (m s).Safe R (fun x w' => Q x.1 x.2 w') w

namespace Safe

variable {R : Rules S W} {Q : Except ε α → σ → W → Prop} {s : σ} {w : W}

theorem mono {Q' : Except ε α → σ → W → Prop} {m : Eff S σ ε α} (hm : Safe R Q m s w)
    (h : ∀ x s' w', R.Inv w' → Q x s' w' → Q' x s' w') : Safe R Q' m s w :=
  Prog.Safe.mono (fun x w' hI hQ => h x.1 x.2 w' hI hQ) hm

/-- Two postconditions. -/
theorem and {Q' : Except ε α → σ → W → Prop} {m : Eff S σ ε α} (hm : Safe R Q m s w)
    (hm' : Safe R Q' m s w) : Safe R (fun x s' w' => Q x s' w' ∧ Q' x s' w') m s w :=
  Prog.Safe.and hm hm'

/-- A computation is safe when the calls it makes are; `T` is how the environment moves meanwhile. -/
theorem of_makes {P : S.Call → Prop} {Q : Except ε α → σ → Prop} {T : W → W → Prop}
    (hrefl : ∀ w, T w w) (htrans : ∀ w₁ w₂ w₃, T w₁ w₂ → T w₂ w₃ → T w₁ w₃)
    (hrely : ∀ w w', R.Inv w → R.Inv w' → R.Rely w w' → T w w')
    (hstep : ∀ c w, P c → R.Inv w → R.Step c (fun _ w' => T w w') w) {m : Eff S σ ε α}
    (hm : Makes P Q m s) (hw : R.Inv w) : Safe R (fun x s' w' => Q x s' ∧ T w w') m s w :=
  Prog.Safe.of_makes (Q := fun x : Except ε α × σ => Q x.1 x.2) hrefl htrans hrely hstep hm hw

/-- Sequencing: the first part ends in what the second needs, or in an error of the whole. -/
theorem seq {P : Except ε β → σ → W → Prop} {m : Eff S σ ε β} {f : β → Eff S σ ε α}
    (hrefl : ∀ w, R.Rely w w) (hw : R.Inv w) (hm : Safe R P m s w)
    (hok : ∀ b s' w', R.Inv w' → P (.ok b) s' w' → Safe R Q (f b) s' w')
    (herr : ∀ e s' w', R.Inv w' → P (.error e) s' w' → Q (.error e) s' w') :
    Safe R Q (m >>= f) s w := by
  refine Prog.Safe.bind hw hm ?_
  rintro ⟨b | b, s'⟩ w' hI h
  · exact fun w₁ hI₁ hR => herr b s' w₁ hI₁ (h w₁ hI₁ hR)
  · exact hok b s' w' hI (h w' hI (hrefl w'))

/-- A function of the result. -/
theorem map {P : Except ε β → σ → W → Prop} {m : Eff S σ ε β} {f : β → α} (hw : R.Inv w)
    (hm : Safe R P m s w) (h : ∀ x s' w', R.Inv w' → P x s' w' → Q (x.map f) s' w') :
    Safe R Q (m >>= fun b => Pure.pure (f b)) s w := by
  refine Prog.Safe.bind hw hm ?_
  rintro ⟨b | b, s'⟩ w' _ hP w₁ hI₁ hR
  · exact h (.error b) s' w₁ hI₁ (hP w₁ hI₁ hR)
  · exact h (.ok b) s' w₁ hI₁ (hP w₁ hI₁ hR)

/-- Exception handling. -/
theorem catchIf {P : Except ε α → σ → W → Prop} {p : ε → Bool} {m : Eff S σ ε α}
    {h : ε → Eff S σ ε α} (hrefl : ∀ w, R.Rely w w) (hw : R.Inv w) (hm : Safe R P m s w)
    (hok : ∀ a s' w', R.Inv w' → P (.ok a) s' w' → Q (.ok a) s' w')
    (hcaught : ∀ e s' w', R.Inv w' → p e → P (.error e) s' w' → Safe R Q (h e) s' w')
    (hpass : ∀ e s' w', R.Inv w' → ¬p e → P (.error e) s' w' → Q (.error e) s' w') :
    Safe R Q (Eff.catchIf p m h) s w := by
  refine Prog.Safe.bind hw hm ?_
  rintro ⟨b | b, s'⟩ w' hI hP
  · dsimp only
    split
    · next hp => exact hcaught b s' w' hI hp (hP w' hI (hrefl w'))
    · next hp => exact fun w₁ hI₁ hR => hpass b s' w₁ hI₁ hp (hP w₁ hI₁ hR)
  · exact fun w₁ hI₁ hR => hok b s' w₁ hI₁ (hP w₁ hI₁ hR)

/-- A pure result. -/
theorem pure {a : α} (h : ∀ w₁, R.Inv w₁ → R.Rely w w₁ → Q (.ok a) s w₁) :
    Safe R Q (Pure.pure a : Eff S σ ε α) s w := h

/-- An error. -/
theorem throw {e : ε} (h : ∀ w₁, R.Inv w₁ → R.Rely w w₁ → Q (.error e) s w₁) :
    Safe R Q (Eff.throw e : Eff S σ ε α) s w := h

/-- A call followed by the rest of the computation. -/
theorem perform {c : S.Call} {f : S.Resp c → Eff S σ ε α}
    (h : ∀ w₁, R.Inv w₁ → R.Rely w w₁ → R.Step c (fun r w₂ => Safe R Q (f r) s w₂) w₁) :
    Safe R Q (Eff.perform c >>= f) s w := h

/-- Reading the private state. -/
theorem get {f : σ → Eff S σ ε α} (h : Safe R Q (f s) s w) : Safe R Q (Eff.get >>= f) s w := h

/-- Changing the private state. -/
theorem modify {g : σ → σ} {f : Unit → Eff S σ ε α} (h : Safe R Q (f ()) (g s) w) :
    Safe R Q (Eff.modify g >>= f) s w := h

/-- Changing the private state at the end. -/
theorem modify_last {Q : Except ε Unit → σ → W → Prop} {g : σ → σ}
    (h : Safe R Q (Pure.pure ()) (g s) w) : Safe R Q (Eff.modify g) s w := h

end Safe

end Eff

end Tarmac
