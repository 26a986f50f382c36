import Tarmac.Lib.Prog

/-!
# What a program returns

`Prog.Returns A Q m` says that `m` ends in `Q` whatever its environment does, as long as each answer
is one of `A`; `Q` sees the calls that were made, with their answers. Nothing is said of the states
of the environment, so the judgement holds in the presence of any other programs. At `Eff` it reads
the outcome of a computation, from every private state (`Eff.Returns`) or, together with the private
state it leaves, from one (`Eff.Ends`).
-/

namespace Tarmac

variable {S : Sig} {W α β σ ε : Type} {A : Event S → Prop}

namespace Prog

/-- Whatever the answers of `A` are, the calls made and the value returned satisfy `Q`. -/
def Returns (A : Event S → Prop) : Prog S α → (List (Event S) → α → Prop) → Prop
  | ret a, Q => Q [] a
  | call c k, Q => ∀ r, A ⟨c, r⟩ → (k r).Returns A fun tr a => Q (⟨c, r⟩ :: tr) a

theorem Returns.mono {Q T : List (Event S) → α → Prop} {m : Prog S α} (hm : m.Returns A Q)
    (h : ∀ tr a, Q tr a → T tr a) : m.Returns A T := by
  induction m generalizing Q T with
  | ret a => exact h [] a hm
  | call c k ih => exact fun r hr => ih r (hm r hr) fun tr a => h _ a

theorem Returns.bind {P : List (Event S) → α → Prop} {Q : List (Event S) → β → Prop} {m : Prog S α}
    {f : α → Prog S β} (hm : m.Returns A P)
    (hf : ∀ tr a, P tr a → (f a).Returns A fun tr' b => Q (tr ++ tr') b) :
    (m.bind f).Returns A Q := by
  induction m generalizing P Q with
  | ret a => exact hf [] a hm
  | call c k ih => exact fun r hr => ih r (hm r hr) fun tr a h => hf _ a h

/-- What every run returns. -/
theorem Returns.run {sem : Sem S W} (hsem : ∀ c w r w', sem c w r w' → A ⟨c, r⟩) {m : Prog S α}
    {Q : List (Event S) → α → Prop} {w w' : W} {tr : List (Event S)} {a : α}
    (hr : Run sem m w tr a w') (hm : m.Returns A Q) : Q tr a := by
  induction hr generalizing Q with
  | ret => exact hm
  | call hs _ ih => exact ih (hm _ (hsem _ _ _ _ hs))

/-- A program has a run from a state of `I` when calls are answered in states of `I`, and lead to such
states. -/
theorem exists_run {sem : Sem S W} {I : W → Prop} (h : ∀ c w, I w → ∃ r w', sem c w r w' ∧ I w')
    (m : Prog S α) {w : W} (hw : I w) : ∃ tr a w', Run sem m w tr a w' := by
  induction m generalizing w with
  | ret a => exact ⟨[], a, w, .ret⟩
  | call c k ih =>
    obtain ⟨r, w₁, hstep, hw₁⟩ := h c w hw
    obtain ⟨tr, a, w', hr⟩ := ih r hw₁
    exact ⟨_, a, w', .call hstep hr⟩

/-- The calls a program makes, in terms of those it does not make. -/
theorem Avoids.makes {P : S.Call → Prop} {m : Prog S α} (h : m.Avoids P) :
    m.Makes (fun c => ¬P c) fun _ => True := by
  induction m with
  | ret => trivial
  | call c k ih => exact ⟨h.1, fun r => ih r (h.2 r)⟩

/-- A program has a run when the calls it makes are answered. -/
theorem Makes.exists_run {sem : Sem S W} {P : S.Call → Prop} {Q : α → Prop}
    (h : ∀ c w, P c → ∃ r w', sem c w r w') {m : Prog S α} (hm : m.Makes P Q) (w : W) :
    ∃ tr a w', Run sem m w tr a w' := by
  induction m generalizing w with
  | ret a => exact ⟨[], a, w, .ret⟩
  | call c k ih =>
    obtain ⟨r, w₁, hstep⟩ := h c w hm.1
    obtain ⟨tr, a, w', hr⟩ := ih r (hm.2 r) w₁
    exact ⟨_, a, w', .call hstep hr⟩

end Prog

namespace Eff

/-- From every private state, the calls made and the outcome satisfy `Q`. -/
def Returns (A : Event S → Prop) (Q : List (Event S) → Except ε α → Prop) (m : Eff S σ ε α) : Prop :=
  ∀ s, (m s).Returns A fun tr x => Q tr x.1

namespace Returns

variable {Q : List (Event S) → Except ε α → Prop}

theorem mono {T : List (Event S) → Except ε α → Prop} {m : Eff S σ ε α} (hm : Returns A Q m)
    (h : ∀ tr x, Q tr x → T tr x) : Returns A T m :=
  fun s => Prog.Returns.mono (hm s) fun tr x => h tr x.1

theorem pure {a : α} (h : Q [] (.ok a)) : Returns A Q (Pure.pure a : Eff S σ ε α) := fun _ => h

theorem throw {e : ε} (h : Q [] (.error e)) : Returns A Q (throw e : Eff S σ ε α) := fun _ => h

theorem ofExcept {x : Except ε α} (h : Q [] x) : Returns A Q (ofExcept x : Eff S σ ε α) := by
  cases x with
  | ok a => exact .pure h
  | error e => exact .throw h

/-- A call: whatever admitted answer comes. -/
theorem perform {c : S.Call} {f : S.Resp c → Eff S σ ε α}
    (h : ∀ r, A ⟨c, r⟩ → Returns A (fun tr x => Q (⟨c, r⟩ :: tr) x) (f r)) :
    Returns A Q (Eff.perform c >>= f) := fun s r hr => h r hr s

/-- One program after another; an exception of the first ends both. -/
theorem seq {P : List (Event S) → Except ε β → Prop} {m : Eff S σ ε β} {f : β → Eff S σ ε α}
    (hm : Returns A P m)
    (hok : ∀ tr b, P tr (.ok b) → Returns A (fun tr' x => Q (tr ++ tr') x) (f b))
    (herr : ∀ tr e, P tr (.error e) → Q tr (.error e)) : Returns A Q (m >>= f) := fun s => by
  refine Prog.Returns.bind (hm s) ?_
  rintro tr ⟨b | b, s'⟩ h
  · show Q (tr ++ []) (.error b)
    rw [List.append_nil]
    exact herr tr b h
  · exact hok tr b h s'

/-- What every run of a computation ends in. -/
theorem run {sem : Sem S W} (hsem : ∀ c w r w', sem c w r w' → A ⟨c, r⟩) {m : Eff S σ ε α} {s s' : σ}
    {w w' : W} {tr : List (Event S)} {x : Except ε α} (hr : Prog.Run sem (m s) w tr (x, s') w')
    (hm : Returns A Q m) : Q tr x :=
  Prog.Returns.run (Q := fun tr y => Q tr y.1) hsem hr (hm s)

end Returns

/-- From the private state `s`, the calls made, the outcome and the private state left satisfy `Q`. -/
def Ends (A : Event S → Prop) (Q : List (Event S) → Except ε α → σ → Prop) (m : Eff S σ ε α) (s : σ) :
    Prop :=
  (m s).Returns A fun tr x => Q tr x.1 x.2

namespace Ends

variable {Q : List (Event S) → Except ε α → σ → Prop} {s : σ}

theorem mono {T : List (Event S) → Except ε α → σ → Prop} {m : Eff S σ ε α} (hm : Ends A Q m s)
    (h : ∀ tr x s', Q tr x s' → T tr x s') : Ends A T m s :=
  Prog.Returns.mono hm fun tr x => h tr x.1 x.2

theorem pure {a : α} (h : Q [] (.ok a) s) : Ends A Q (Pure.pure a : Eff S σ ε α) s := h

theorem throw {e : ε} (h : Q [] (.error e) s) : Ends A Q (throw e : Eff S σ ε α) s := h

theorem ofExcept {x : Except ε α} (h : Q [] x s) : Ends A Q (ofExcept x : Eff S σ ε α) s := by
  cases x with
  | ok a => exact .pure h
  | error e => exact .throw h

theorem get {f : σ → Eff S σ ε α} (h : Ends A Q (f s) s) : Ends A Q (Eff.get >>= f) s := h

theorem modify {g : σ → σ} {f : Unit → Eff S σ ε α} (h : Ends A Q (f ()) (g s)) :
    Ends A Q (Eff.modify g >>= f) s := h

/-- A call: whatever admitted answer comes. -/
theorem perform {c : S.Call} {f : S.Resp c → Eff S σ ε α}
    (h : ∀ r, A ⟨c, r⟩ → Ends A (fun tr x s' => Q (⟨c, r⟩ :: tr) x s') (f r) s) :
    Ends A Q (Eff.perform c >>= f) s := h

/-- One program after another; an exception of the first ends both. -/
theorem seq {P : List (Event S) → Except ε β → σ → Prop} {m : Eff S σ ε β} {f : β → Eff S σ ε α}
    (hm : Ends A P m s)
    (hok : ∀ tr b s', P tr (.ok b) s' → Ends A (fun tr' x s'' => Q (tr ++ tr') x s'') (f b) s')
    (herr : ∀ tr e s', P tr (.error e) s' → Q tr (.error e) s') : Ends A Q (m >>= f) s := by
  refine Prog.Returns.bind hm ?_
  rintro tr ⟨b | b, s'⟩ h
  · show Q (tr ++ []) (.error b) s'
    rw [List.append_nil]
    exact herr tr b s' h
  · exact hok tr b s' h

theorem onFst {τ : Type} {Q : List (Event S) → Except ε α → σ × τ → Prop} {m : Eff S σ ε α} {t : τ}
    (hm : Ends A (fun tr x s' => Q tr x (s', t)) m s) : Ends A Q m.onFst (s, t) := by
  refine Prog.Returns.bind hm ?_
  rintro tr ⟨x, s'⟩ h
  show Q (tr ++ []) x (s', t)
  rw [List.append_nil]
  exact h

/-- What every run of a computation ends in. -/
theorem run {sem : Sem S W} (hsem : ∀ c w r w', sem c w r w' → A ⟨c, r⟩) {m : Eff S σ ε α} {s' : σ}
    {w w' : W} {tr : List (Event S)} {x : Except ε α} (hr : Prog.Run sem (m s) w tr (x, s') w')
    (hm : Ends A Q m s) : Q tr x s' := by
  have h : (m s).Returns A fun tr y => Q tr y.1 y.2 := hm
  exact Prog.Returns.run hsem hr h

end Ends

end Eff

end Tarmac
