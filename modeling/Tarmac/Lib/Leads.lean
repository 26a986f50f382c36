import Tarmac.Lib.Prog

/-!
# What the runs of a program lead to

`Eff.Leads sem Q m s w` says that every run of `m` from the private state `s` and the environment `w`
ends in `Q`, which sees the outcome and both states. It is the weakest precondition of a program that
has the environment for itself, with one rule for each way programs are put together.
`Eff.Attains sem Q m s w` says that some run does, with the rules for one run.
-/

namespace Tarmac

namespace Eff

variable {S : Sig} {W σ τ ε α β : Type} {sem : Sem S W}

/-- Every run of the computation ends in `Q`. -/
def Leads (sem : Sem S W) (Q : Except ε α → σ → W → Prop) (m : Eff S σ ε α) (s : σ) (w : W) : Prop :=
  ∀ tr x s' w', Prog.Run sem (m s) w tr (x, s') w' → Q x s' w'

namespace Leads

variable {Q : Except ε α → σ → W → Prop} {s : σ} {w : W}

theorem mono {T : Except ε α → σ → W → Prop} {m : Eff S σ ε α} (hm : Leads sem Q m s w)
    (h : ∀ x s' w', Q x s' w' → T x s' w') : Leads sem T m s w :=
  fun tr x s' w' hr => h x s' w' (hm tr x s' w' hr)

/-- A program that returns leads to its value. -/
theorem pure {a : α} (h : Q (.ok a) s w) : Leads sem Q (Pure.pure a : Eff S σ ε α) s w := by
  intro tr x s' w' hr
  cases hr
  exact h

/-- A program that throws leads to its exception. -/
theorem throw {e : ε} (h : Q (.error e) s w) : Leads sem Q (throw e : Eff S σ ε α) s w := by
  intro tr x s' w' hr
  cases hr
  exact h

theorem ofExcept {x : Except ε α} (h : Q x s w) : Leads sem Q (ofExcept x : Eff S σ ε α) s w := by
  cases x with
  | ok a => exact pure h
  | error e => exact throw h

theorem get {f : σ → Eff S σ ε α} (h : Leads sem Q (f s) s w) : Leads sem Q (Eff.get >>= f) s w := h

theorem modify {g : σ → σ} {f : Unit → Eff S σ ε α} (h : Leads sem Q (f ()) (g s) w) :
    Leads sem Q (Eff.modify g >>= f) s w := h

/-- A call: the rest leads there from whatever the world answers. -/
theorem perform {c : S.Call} {f : S.Resp c → Eff S σ ε α}
    (h : ∀ r w', sem c w r w' → Leads sem Q (f r) s w') : Leads sem Q (Eff.perform c >>= f) s w := by
  intro tr x s' w' hr
  obtain ⟨r, w₁, tr', hstep, hrest, -⟩ := run_perform hr
  exact h r w₁ hstep tr' x s' w' hrest

/-- One program after another; an exception of the first ends both. -/
theorem seq {P : Except ε β → σ → W → Prop} {m : Eff S σ ε β} {f : β → Eff S σ ε α}
    (hm : Leads sem P m s w) (hok : ∀ b s' w', P (.ok b) s' w' → Leads sem Q (f b) s' w')
    (herr : ∀ e s' w', P (.error e) s' w' → Q (.error e) s' w') : Leads sem Q (m >>= f) s w := by
  intro tr x s' w' hr
  rcases run_seq hr with ⟨tr₁, b, s₁, w₁, tr₂, h₁, h₂, -⟩ | ⟨e, rfl, h₁⟩
  · exact hok b s₁ w₁ (hm _ _ _ _ h₁) _ _ _ _ h₂
  · exact herr e s' w' (hm _ _ _ _ h₁)

/-- A handler goes on from the exceptions it catches, and the others pass. -/
theorem catchIf {P : Except ε α → σ → W → Prop} {p : ε → Bool} {m : Eff S σ ε α}
    {h : ε → Eff S σ ε α} (hm : Leads sem P m s w) (hok : ∀ a s' w', P (.ok a) s' w' → Q (.ok a) s' w')
    (hcaught : ∀ e s' w', P (.error e) s' w' → p e → Leads sem Q (h e) s' w')
    (hpass : ∀ e s' w', P (.error e) s' w' → ¬p e → Q (.error e) s' w') :
    Leads sem Q (Eff.catchIf p m h) s w := by
  intro tr x s' w' hr
  obtain ⟨tr₁, ⟨y, s₁⟩, w₁, tr₂, h₁, h₂, -⟩ := Prog.Run.bind_inv hr
  cases y with
  | ok a =>
    cases h₂
    exact hok a _ _ (hm _ _ _ _ h₁)
  | error e =>
    dsimp only at h₂
    split at h₂
    · next hp => exact hcaught e s₁ w₁ (hm _ _ _ _ h₁) hp _ _ _ _ h₂
    · next hp =>
      cases h₂
      exact hpass e _ _ (hm _ _ _ _ h₁) hp

theorem onFst {Q : Except ε α → σ × τ → W → Prop} {m : Eff S σ ε α} {t : τ}
    (hm : Leads sem (fun x s' w' => Q x (s', t) w') m s w) : Leads sem Q m.onFst (s, t) w := by
  intro tr x s' w' hr
  obtain ⟨tr₁, ⟨y, s₁⟩, w₁, tr₂, h₁, h₂, -⟩ := Prog.Run.bind_inv hr
  cases h₂
  exact hm _ _ _ _ h₁

end Leads

/-- Some run of the computation ends in `Q`. -/
def Attains (sem : Sem S W) (Q : Except ε α → σ → W → Prop) (m : Eff S σ ε α) (s : σ) (w : W) : Prop :=
  ∃ tr x s' w', Prog.Run sem (m s) w tr (x, s') w' ∧ Q x s' w'

namespace Attains

variable {Q : Except ε α → σ → W → Prop} {s : σ} {w : W}

/-- A program that returns attains its value. -/
theorem pure {a : α} (h : Q (.ok a) s w) : Attains sem Q (Pure.pure a : Eff S σ ε α) s w :=
  ⟨[], .ok a, s, w, .ret, h⟩

theorem ofExcept {x : Except ε α} (h : Q x s w) : Attains sem Q (ofExcept x : Eff S σ ε α) s w := by
  cases x with
  | ok a => exact ⟨[], .ok a, s, w, .ret, h⟩
  | error e => exact ⟨[], .error e, s, w, .ret, h⟩

theorem modify {g : σ → σ} {f : Unit → Eff S σ ε α} (h : Attains sem Q (f ()) (g s) w) :
    Attains sem Q (Eff.modify g >>= f) s w := h

/-- A call for which the world has some answer. -/
theorem perform {c : S.Call} {f : S.Resp c → Eff S σ ε α} {r : S.Resp c} {w' : W}
    (hstep : sem c w r w') (h : Attains sem Q (f r) s w') :
    Attains sem Q (Eff.perform c >>= f) s w := by
  obtain ⟨tr, x, s', w'', hr, hx⟩ := h
  exact ⟨⟨c, r⟩ :: tr, x, s', w'', .call hstep hr, hx⟩

/-- After a computation that can return `b`. -/
theorem seq {b : β} {s' : σ} {w' : W} {m : Eff S σ ε β} {f : β → Eff S σ ε α}
    (hm : Attains sem (fun x s₁ w₁ => x = .ok b ∧ s₁ = s' ∧ w₁ = w') m s w)
    (hf : Attains sem Q (f b) s' w') : Attains sem Q (m >>= f) s w := by
  obtain ⟨tr₁, _, _, _, h₁, rfl, rfl, rfl⟩ := hm
  obtain ⟨tr₂, x, s'', w'', h₂, hx⟩ := hf
  exact ⟨tr₁ ++ tr₂, x, s'', w'', h₁.bind h₂, hx⟩

end Attains

end Eff

end Tarmac
