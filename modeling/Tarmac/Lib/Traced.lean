import Tarmac.Lib.Prog

/-!
# What the runs of a computation amount to

`Eff.Traced sem Q m s w`: every run of `m` from the private state `s` and the environment `w` satisfies
`Q`, which sees the calls that were made with their answers, the outcome, and the two states left. It is
the strongest of the judgements about runs of a single computation: where `Eff.Safe` forgets the calls
and `Eff.Ends` the environment, it keeps both.
-/

namespace Tarmac

variable {S : Sig} {W α β σ ε : Type} {sem : Sem S W}

/-- Complete runs of a program whose calls begin the same sequence are answered alike throughout. -/
theorem Prog.Run.eq_of_prefix {m : Prog S α} {w₁ w₂ w₁' w₂' : W} {tr tr₁ tr₂ : List (Event S)} {a₁ a₂ : α}
    (h₁ : Prog.Run sem m w₁ tr₁ a₁ w₁') (h₂ : Prog.Run sem m w₂ tr₂ a₂ w₂') (hp₁ : tr₁ <+: tr)
    (hp₂ : tr₂ <+: tr) : tr₁ = tr₂ ∧ a₁ = a₂ := by
  induction h₁ generalizing w₂ tr tr₂ with
  | ret =>
    cases h₂
    exact ⟨rfl, rfl⟩
  | call _ _ ih =>
    cases h₂ with
    | call _ hr₂ =>
      obtain ⟨rest, rfl⟩ := hp₁
      have hcons := List.cons_prefix_cons.1 hp₂
      cases hcons.1
      obtain ⟨htr, ha⟩ := ih hr₂ (List.prefix_append _ _) hcons.2
      exact ⟨by rw [htr], ha⟩

namespace Eff

/-- Every run from `s` and `w` satisfies `Q`. -/
def Traced (sem : Sem S W) (Q : List (Event S) → Except ε α → σ → W → Prop) (m : Eff S σ ε α) (s : σ)
    (w : W) : Prop :=
  ∀ tr x s' w', Prog.Run sem (m s) w tr (x, s') w' → Q tr x s' w'

namespace Traced

variable {Q : List (Event S) → Except ε α → σ → W → Prop} {s : σ} {w : W}

theorem mono {T : List (Event S) → Except ε α → σ → W → Prop} {m : Eff S σ ε α}
    (hm : Traced sem T m s w) (h : ∀ tr x s' w', T tr x s' w' → Q tr x s' w') :
    Traced sem Q m s w := fun tr x s' w' hr => h tr x s' w' (hm tr x s' w' hr)

theorem pure {a : α} (h : Q [] (.ok a) s w) : Traced sem Q (Pure.pure a : Eff S σ ε α) s w := by
  intro tr x s' w' hr
  cases hr
  exact h

theorem throw {e : ε} (h : Q [] (.error e) s w) : Traced sem Q (throw e : Eff S σ ε α) s w := by
  intro tr x s' w' hr
  cases hr
  exact h

theorem get {f : σ → Eff S σ ε α} (h : Traced sem Q (f s) s w) : Traced sem Q (Eff.get >>= f) s w := h

theorem modify {g : σ → σ} {f : Unit → Eff S σ ε α} (h : Traced sem Q (f ()) (g s) w) :
    Traced sem Q (Eff.modify g >>= f) s w := h

/-- A call and its answer come first in the trace. -/
theorem perform {c : S.Call} {f : S.Resp c → Eff S σ ε α}
    (h : ∀ r w₁, sem c w r w₁ → Traced sem (fun tr => Q (⟨c, r⟩ :: tr)) (f r) s w₁) :
    Traced sem Q (Eff.perform c >>= f) s w := by
  intro tr x s' w' hr
  obtain ⟨r, w₁, tr', hs, hr', rfl⟩ := run_perform hr
  exact h r w₁ hs tr' x s' w' hr'

theorem seq {T : List (Event S) → Except ε β → σ → W → Prop} {m : Eff S σ ε β} {f : β → Eff S σ ε α}
    (hm : Traced sem T m s w)
    (hok : ∀ tr b s' w', T tr (.ok b) s' w' → Traced sem (fun tr' => Q (tr ++ tr')) (f b) s' w')
    (herr : ∀ tr e s' w', T tr (.error e) s' w' → Q tr (.error e) s' w') :
    Traced sem Q (m >>= f) s w := by
  intro tr x s' w' hr
  rcases run_seq hr with ⟨tr₁, b, s₁, w₁, tr₂, h₁, h₂, rfl⟩ | ⟨e, rfl, h₁⟩
  · exact hok tr₁ b s₁ w₁ (hm _ _ _ _ h₁) tr₂ x s' w' h₂
  · exact herr tr e s' w' (hm _ _ _ _ h₁)

/-- A handler goes on with the trace of what it caught. -/
theorem catchIf {T : List (Event S) → Except ε α → σ → W → Prop} {p : ε → Bool} {m : Eff S σ ε α}
    {h : ε → Eff S σ ε α} (hm : Traced sem T m s w)
    (hok : ∀ tr a s' w', T tr (.ok a) s' w' → Q tr (.ok a) s' w')
    (hcaught : ∀ tr e s' w', T tr (.error e) s' w' → p e →
      Traced sem (fun tr' => Q (tr ++ tr')) (h e) s' w')
    (hpass : ∀ tr e s' w', T tr (.error e) s' w' → ¬p e → Q tr (.error e) s' w') :
    Traced sem Q (Eff.catchIf p m h) s w := by
  intro tr x s' w' hr
  obtain ⟨tr₁, ⟨y, s₁⟩, w₁, tr₂, h₁, h₂, rfl⟩ := Prog.Run.bind_inv hr
  have hT := hm _ _ _ _ h₁
  cases y with
  | ok a =>
    cases h₂
    rw [List.append_nil]
    exact hok _ _ _ _ hT
  | error e =>
    dsimp only at h₂
    split at h₂
    · next hp => exact hcaught tr₁ e s₁ w₁ hT hp _ _ _ _ h₂
    · next hp =>
      cases h₂
      rw [List.append_nil]
      exact hpass _ _ _ _ hT hp

end Traced

end Eff

end Tarmac
