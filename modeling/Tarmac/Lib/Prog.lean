import Mathlib.Algebra.Order.Ring.Nat

/-!
# Programs over an environment's calls

A `Prog S α` is a program that returns an `α` and on the way makes calls of the signature `S`:
a finite tree whose nodes are calls and whose children are the possible answers. What a call does
is said separately, by a step relation on a state `W` of the environment, so one program text has
every semantics a development needs: runs of a single program (`Prog.Run`, with the calls it made),
the states a program passes through before it is stopped (`Prog.Visits`), and, in
`Tarmac.Lib.Interleave`, runs of many programs against one environment.

`Eff` adds a private state and exceptions; an exception keeps the changes made to the private
state before it was raised.
-/

namespace Tarmac

/-- A sequence of two computations that may fail succeeds when both do. -/
theorem except_bind_ok {ε α β : Type} {x : Except ε α} {f : α → Except ε β} {b : β} :
    (x >>= f) = .ok b ↔ ∃ a, x = .ok a ∧ f a = .ok b := by
  cases x with
  | ok a => exact ⟨fun h => ⟨a, rfl, h⟩, fun ⟨_, ha, h⟩ => by cases ha; exact h⟩
  | error e => exact ⟨nofun, fun ⟨_, ha, _⟩ => by cases ha⟩

/-- The calls a program can make, and the type of the answer to each. -/
structure Sig where
  Call : Type
  Resp : Call → Type

/-- A program that makes calls of `S` and returns an `α`. -/
inductive Prog (S : Sig) (α : Type) : Type where
  | ret (a : α)
  | call (c : S.Call) (k : S.Resp c → Prog S α)

/-- What an environment with state `W` does on a call: the answers it can give, each with the
state it leaves. A call without an answer blocks. -/
abbrev Sem (S : Sig) (W : Type) : Type := (c : S.Call) → W → S.Resp c → W → Prop

/-- A call together with its answer. -/
abbrev Event (S : Sig) : Type := Sigma S.Resp

namespace Prog

variable {S : Sig} {W α β : Type}

/-- Runs `m` and then `f` on its result. -/
def bind : Prog S α → (α → Prog S β) → Prog S β
  | ret a, f => f a
  | call c k, f => call c fun r => (k r).bind f

instance : Monad (Prog S) where
  pure := ret
  bind := bind

/-- Returning at the end does nothing. -/
theorem bind_ret (m : Prog S α) : m.bind ret = m := by
  induction m with
  | ret a => rfl
  | call c k ih => exact congrArg (call c) (funext ih)

/-- Sequencing is associative. -/
theorem bind_assoc {γ : Type} (m : Prog S α) (f : α → Prog S β) (g : β → Prog S γ) :
    (m.bind f).bind g = m.bind fun a => (f a).bind g := by
  induction m with
  | ret a => rfl
  | call c k ih => exact congrArg (call c) (funext ih)

/-- `Run sem m w tr a w'`: from `w`, the program can make the calls `tr`, return `a` and leave
`w'`. -/
inductive Run (sem : Sem S W) : Prog S α → W → List (Event S) → α → W → Prop where
  | ret {a : α} {w : W} : Run sem (.ret a) w [] a w
  | call {c : S.Call} {k : S.Resp c → Prog S α} {w w₁ w₂ : W} {r : S.Resp c}
      {tr : List (Event S)} {a : α} :
      sem c w r w₁ → Run sem (k r) w₁ tr a w₂ → Run sem (.call c k) w (⟨c, r⟩ :: tr) a w₂

/-- `Visits sem m w w'`: started in `w`, the program can be stopped (between two calls, before the
first or after the last) with the environment in `w'`. -/
inductive Visits (sem : Sem S W) : Prog S α → W → W → Prop where
  | here {m : Prog S α} {w : W} : Visits sem m w w
  | call {c : S.Call} {k : S.Resp c → Prog S α} {w w₁ w₂ : W} {r : S.Resp c} :
      sem c w r w₁ → Visits sem (k r) w₁ w₂ → Visits sem (.call c k) w w₂

/-- A run under a smaller semantics is a run under a larger one. -/
theorem Run.mono {sem sem' : Sem S W} (h : ∀ c w r w', sem c w r w' → sem' c w r w')
    {m : Prog S α} {w w' : W} {tr : List (Event S)} {a : α} (hr : Run sem m w tr a w') :
    Run sem' m w tr a w' := by
  induction hr with
  | ret => exact .ret
  | call hs _ ih => exact .call (h _ _ _ _ hs) ih

/-- A state visited under a smaller semantics is visited under a larger one. -/
theorem Visits.mono {sem sem' : Sem S W} (h : ∀ c w r w', sem c w r w' → sem' c w r w')
    {m : Prog S α} {w w' : W} (hv : Visits sem m w w') : Visits sem' m w w' := by
  induction hv with
  | here => exact .here
  | call hs _ ih => exact .call (h _ _ _ _ hs) ih

/-- A run each of whose events satisfies `p` is a run of the semantics restricted to `p`. -/
theorem Run.restrict {sem : Sem S W} {p : Event S → Prop} {m : Prog S α} {w w' : W}
    {tr : List (Event S)} {a : α} (hr : Run sem m w tr a w') (hp : ∀ e ∈ tr, p e) :
    Run (fun c w r w' => p ⟨c, r⟩ ∧ sem c w r w') m w tr a w' := by
  induction hr with
  | ret => exact .ret
  | call hs _ ih =>
    exact .call ⟨hp _ (.head _), hs⟩ (ih fun e he => hp e (.tail _ he))

/-- Runs with the same answers end in the same way, if the answers settle what the calls do. -/
theorem Run.unique {sem : Sem S W} {D : Event S → Prop}
    (hsem : ∀ c r w w₁ w₂, D ⟨c, r⟩ → sem c w r w₁ → sem c w r w₂ → w₁ = w₂) {m : Prog S α}
    {w w₁ w₂ : W} {tr₁ tr₂ rest₁ rest₂ : List (Event S)} {a₁ a₂ : α} (h₁ : Run sem m w tr₁ a₁ w₁)
    (h₂ : Run sem m w tr₂ a₂ w₂) (heq : tr₁ ++ rest₁ = tr₂ ++ rest₂) (hD : ∀ e ∈ tr₁, D e) :
    a₁ = a₂ ∧ w₁ = w₂ := by
  induction h₁ generalizing tr₂ with
  | ret =>
    cases h₂
    exact ⟨rfl, rfl⟩
  | call hs _ ih =>
    cases h₂ with
    | call hs' hr' =>
      obtain ⟨he, hrest⟩ := List.cons.inj heq
      cases he
      obtain rfl := hsem _ _ _ _ _ (hD _ (.head _)) hs hs'
      exact ih hr' hrest fun e he => hD e (.tail _ he)

/-- A run of `m >>= f` is a run of `m` followed by one of `f`. -/
theorem Run.bind_inv {sem : Sem S W} {m : Prog S α} {f : α → Prog S β} {w w' : W}
    {tr : List (Event S)} {b : β} (h : Run sem (m.bind f) w tr b w') :
    ∃ tr₁ a w₁ tr₂, Run sem m w tr₁ a w₁ ∧ Run sem (f a) w₁ tr₂ b w' ∧ tr = tr₁ ++ tr₂ := by
  induction m generalizing w tr with
  | ret a => exact ⟨[], a, w, tr, .ret, h, rfl⟩
  | call c k ih =>
    cases h with
    | call hs hr =>
      obtain ⟨tr₁, a, w₁, tr₂, h₁, h₂, rfl⟩ := ih _ hr
      exact ⟨_, a, w₁, tr₂, .call hs h₁, h₂, rfl⟩

/-- Runs compose along `bind`. -/
theorem Run.bind {sem : Sem S W} {m : Prog S α} {f : α → Prog S β} {w w₁ w' : W}
    {tr₁ tr₂ : List (Event S)} {a : α} {b : β} (h₁ : Run sem m w tr₁ a w₁)
    (h₂ : Run sem (f a) w₁ tr₂ b w') : Run sem (m.bind f) w (tr₁ ++ tr₂) b w' := by
  induction h₁ with
  | ret => exact h₂
  | call hs _ ih => exact .call hs (ih h₂)

/-- What simulates the calls simulates the runs, with the same answers. -/
theorem Run.simulate {V : Type} {sem : Sem S W} {sem' : Sem S V} {R : W → V → Prop}
    (hstep : ∀ c w r w' v, R w v → sem c w r w' → ∃ v', sem' c v r v' ∧ R w' v') {m : Prog S α}
    {w w' : W} {v : V} {tr : List (Event S)} {a : α} (hr : Run sem m w tr a w') (h : R w v) :
    ∃ v', Run sem' m v tr a v' ∧ R w' v' := by
  induction hr generalizing v with
  | ret => exact ⟨v, .ret, h⟩
  | call hs _ ih =>
    obtain ⟨v₁, hs', h₁⟩ := hstep _ _ _ _ _ h hs
    obtain ⟨v', hr', h'⟩ := ih h₁
    exact ⟨v', .call hs' hr', h'⟩

/-- The program never makes a call of which `P` holds. -/
def Avoids (P : S.Call → Prop) : Prog S α → Prop
  | ret _ => True
  | call c k => ¬P c ∧ ∀ r, (k r).Avoids P

/-- A program that makes no call with `P`, before others that make none. -/
theorem Avoids.bind {P : S.Call → Prop} {m : Prog S α} {f : α → Prog S β} (hm : m.Avoids P)
    (hf : ∀ a, (f a).Avoids P) : (m.bind f).Avoids P := by
  induction m with
  | ret a => exact hf a
  | call c k ih => exact ⟨hm.1, fun r => ih r (hm.2 r)⟩

/-- What a program avoids is in none of its runs. -/
theorem Avoids.run {sem : Sem S W} {P : S.Call → Prop} {m : Prog S α} {w w' : W}
    {tr : List (Event S)} {a : α} (hm : m.Avoids P) (hr : Run sem m w tr a w') :
    ∀ e ∈ tr, ¬P e.1 := by
  induction hr with
  | ret => exact nofun
  | call _ _ ih =>
    rintro e he
    rcases List.mem_cons.1 he with rfl | he
    · exact hm.1
    · exact ih (hm.2 _) e he

/-- Every call the program makes is one of `P`, and what it returns satisfies `Q`, whatever the
answers are. -/
def Makes (P : S.Call → Prop) (Q : α → Prop) : Prog S α → Prop
  | ret a => Q a
  | call c k => P c ∧ ∀ r, (k r).Makes P Q

/-- A program that makes fewer calls, for less in the end. -/
theorem Makes.mono {P P' : S.Call → Prop} {Q Q' : α → Prop} (hP : ∀ c, P c → P' c)
    (hQ : ∀ a, Q a → Q' a) {m : Prog S α} (hm : m.Makes P Q) : m.Makes P' Q' := by
  induction m with
  | ret a => exact hQ a hm
  | call c k ih => exact ⟨hP c hm.1, fun r => ih r (hm.2 r)⟩

/-- A program makes calls, and returns something. -/
theorem makes_true (m : Prog S α) : m.Makes (fun _ => True) fun _ => True := by
  induction m with
  | ret => trivial
  | call c k ih => exact ⟨trivial, ih⟩

/-- The calls of a program that goes on. -/
theorem Makes.bind {P : S.Call → Prop} {Q : α → Prop} {Q' : β → Prop} {m : Prog S α}
    {f : α → Prog S β} (hm : m.Makes P Q) (hf : ∀ a, Q a → (f a).Makes P Q') :
    (m.bind f).Makes P Q' := by
  induction m with
  | ret a => exact hf a hm
  | call c k ih => exact ⟨hm.1, fun r => ih r (hm.2 r)⟩

/-- A run whose calls leave the state as it is ends in the state in which it began. -/
theorem Makes.run_same {sem : Sem S W} {P : S.Call → Prop} {Q : α → Prop} {m : Prog S α} {w w' : W}
    {tr : List (Event S)} {a : α} (hm : m.Makes P Q)
    (hsame : ∀ c r w₁, P c → sem c w r w₁ → w₁ = w) (hr : Run sem m w tr a w') : w' = w := by
  induction hr with
  | ret => rfl
  | call hs _ ih =>
    obtain rfl := hsame _ _ _ hm.1 hs
    exact ih (hm.2 _) hsame

/-- Evaluates a program against an environment given as a function, each call with the next of the
listed choices; `none` when a call blocks or the choices run out. -/
def eval {C : Type} (exec : C → (c : S.Call) → W → Option (S.Resp c × W)) :
    Prog S α → List C → W → Option (List (Event S) × α × W)
  | ret a, _, w => some ([], a, w)
  | call _ _, [], _ => none
  | call c k, ch :: chs, w => (exec ch c w).bind fun x =>
    ((k x.1).eval exec chs x.2).map fun y => (⟨c, x.1⟩ :: y.1, y.2)

theorem run_of_eval {C : Type} {exec : C → (c : S.Call) → W → Option (S.Resp c × W)}
    {sem : Sem S W} (hs : ∀ ch c w r w', exec ch c w = some (r, w') → sem c w r w')
    {m : Prog S α} {chs : List C} {w w' : W} {tr : List (Event S)} {a : α}
    (h : m.eval exec chs w = some (tr, a, w')) : Run sem m w tr a w' := by
  induction m generalizing chs w tr with
  | ret a =>
    cases h
    exact .ret
  | call c k ih =>
    cases chs with
    | nil => cases h
    | cons ch chs =>
      obtain ⟨⟨r, w₁⟩, hx, hr⟩ := Option.bind_eq_some_iff.1 h
      obtain ⟨⟨tr₁, b, w₂⟩, hrest, heq⟩ := Option.map_eq_some_iff.1 hr
      cases heq
      exact .call (hs _ _ _ _ _ hx) (ih _ hrest)

/-- The state after the first calls of a program, one for each of the listed choices. -/
def stopAfter {C : Type} (exec : C → (c : S.Call) → W → Option (S.Resp c × W)) :
    Prog S α → List C → W → Option W
  | _, [], w => some w
  | ret _, _ :: _, w => some w
  | call c k, ch :: chs, w => (exec ch c w).bind fun x => (k x.1).stopAfter exec chs x.2

/-- A state in which an evaluation is stopped is visited. -/
theorem visits_of_stopAfter {C : Type} {exec : C → (c : S.Call) → W → Option (S.Resp c × W)}
    {sem : Sem S W} (hs : ∀ ch c w r w', exec ch c w = some (r, w') → sem c w r w')
    {m : Prog S α} {chs : List C} {w w' : W} (h : m.stopAfter exec chs w = some w') :
    Visits sem m w w' := by
  induction chs generalizing m w with
  | nil =>
    cases m <;> cases h <;> exact .here
  | cons ch chs ih =>
    cases m with
    | ret a =>
      cases h
      exact .here
    | call c k =>
      obtain ⟨⟨r, w₁⟩, hx, hrest⟩ := Option.bind_eq_some_iff.1 h
      exact .call (hs _ _ _ _ _ hx) (ih hrest)

end Prog

/-- A program with a private state `σ` that can also end with an error `ε`; the state survives the
error. -/
def Eff (S : Sig) (σ ε α : Type) : Type := σ → Prog S (Except ε α × σ)

namespace Eff

variable {S : Sig} {σ ε α β : Type}

/-- Sequencing: an error skips the rest. -/
def bind (m : Eff S σ ε α) (f : α → Eff S σ ε β) : Eff S σ ε β := fun s =>
  (m s).bind fun x => match x.1 with
    | .ok a => f a x.2
    | .error e => .ret (.error e, x.2)

instance : Monad (Eff S σ ε) where
  pure a := fun s => .ret (.ok a, s)
  bind := bind

instance : LawfulMonad (Eff S σ ε) := LawfulMonad.mk' _
  (fun m => funext fun s => by
    refine Eq.trans (congrArg (Prog.bind (m s)) (funext fun x => ?_)) (Prog.bind_ret (m s))
    obtain ⟨x | x, s'⟩ := x <;> rfl)
  (fun _ _ => rfl)
  (fun m f g => funext fun s => by
    refine (Prog.bind_assoc _ _ _).trans (congrArg (Prog.bind (m s)) (funext fun x => ?_))
    obtain ⟨x | x, s'⟩ := x <;> rfl)

/-- Ends with an error. -/
def throw (e : ε) : Eff S σ ε α := fun s => .ret (.error e, s)

/-- Runs `m`; an error for which `p` holds is handed to `h`. -/
def catchIf (p : ε → Bool) (m : Eff S σ ε α) (h : ε → Eff S σ ε α) : Eff S σ ε α := fun s =>
  (m s).bind fun x => match x.1 with
    | .ok a => .ret (.ok a, x.2)
    | .error e => if p e then h e x.2 else .ret (.error e, x.2)

/-- The private state. -/
def get : Eff S σ ε σ := fun s => .ret (.ok s, s)

/-- Changes the private state. -/
def modify (f : σ → σ) : Eff S σ ε Unit := fun s => .ret (.ok (), f s)

/-- Makes one call. -/
def perform (c : S.Call) : Eff S σ ε (S.Resp c) := fun s => .call c fun r => .ret (.ok r, s)

/-- Runs `m` on the first part of a larger private state. -/
def onFst {τ : Type} (m : Eff S σ ε α) : Eff S (σ × τ) ε α := fun s =>
  (m s.1).bind fun x => .ret (x.1, (x.2, s.2))

/-- Ends with the error of an `Except`, if it is one. -/
def ofExcept : Except ε α → Eff S σ ε α
  | .ok a => pure a
  | .error e => throw e

/-- The computation never makes a call of which `P` holds. -/
def Avoids (P : S.Call → Prop) (m : Eff S σ ε α) : Prop := ∀ s, (m s).Avoids P

section

variable {P : S.Call → Prop} {W : Type}

theorem Avoids.pure {a : α} : Avoids P (Pure.pure a : Eff S σ ε α) := fun _ => trivial

theorem Avoids.throw {e : ε} : Avoids P (throw e : Eff S σ ε α) := fun _ => trivial

theorem Avoids.ofExcept {x : Except ε α} : Avoids P (ofExcept x : Eff S σ ε α) := fun _ => by
  cases x <;> exact trivial

theorem Avoids.get : Avoids P (get : Eff S σ ε σ) := fun _ => trivial

theorem Avoids.modify {f : σ → σ} : Avoids P (modify f : Eff S σ ε Unit) := fun _ => trivial

/-- A call that is not among those to avoid. -/
theorem Avoids.perform {c : S.Call} (h : ¬P c) :
    Avoids P (perform c : Eff S σ ε (S.Resp c)) := fun _ => ⟨h, fun _ => trivial⟩

/-- One program after another avoids what both avoid. -/
theorem Avoids.seq {m : Eff S σ ε α} {f : α → Eff S σ ε β} (hm : Avoids P m)
    (hf : ∀ a, Avoids P (f a)) : Avoids P (m >>= f) := fun s => (hm s).bind fun x => by
  obtain ⟨x | x, s'⟩ := x
  · exact trivial
  · exact hf x s'

theorem Avoids.catchIf {p : ε → Bool} {m : Eff S σ ε α} {h : ε → Eff S σ ε α} (hm : Avoids P m)
    (hh : ∀ e, Avoids P (h e)) : Avoids P (Eff.catchIf p m h) := fun s => (hm s).bind fun x => by
  obtain ⟨x | x, s'⟩ := x
  · dsimp only
    split
    · exact hh x s'
    · exact trivial
  · exact trivial

/-- Begun in the private state `s`, the computation only makes calls of `P`, and ends in `Q`. -/
def Makes (P : S.Call → Prop) (Q : Except ε α → σ → Prop) (m : Eff S σ ε α) (s : σ) : Prop :=
  (m s).Makes P fun x => Q x.1 x.2

section

variable {Q : Except ε α → σ → Prop} {s : σ}

/-- Fewer calls, and a stronger postcondition. -/
theorem Makes.mono {P' : S.Call → Prop} {Q' : Except ε α → σ → Prop} {m : Eff S σ ε α}
    (hm : Makes P Q m s) (hP : ∀ c, P c → P' c) (hQ : ∀ x s', Q x s' → Q' x s') : Makes P' Q' m s := by
  have h : (m s).Makes P fun x => Q x.1 x.2 := hm
  exact Prog.Makes.mono hP (fun x : Except ε α × σ => hQ x.1 x.2) h

theorem Makes.pure {a : α} (h : Q (.ok a) s) : Makes P Q (Pure.pure a : Eff S σ ε α) s := h

theorem Makes.throw {e : ε} (h : Q (.error e) s) : Makes P Q (throw e : Eff S σ ε α) s := h

theorem Makes.ofExcept {x : Except ε α} (h : Q x s) : Makes P Q (ofExcept x : Eff S σ ε α) s := by
  cases x <;> exact h

/-- A call that may be made, and what may follow it. -/
theorem Makes.perform {c : S.Call} {f : S.Resp c → Eff S σ ε α} (hc : P c)
    (h : ∀ r, Makes P Q (f r) s) : Makes P Q (Eff.perform c >>= f) s := ⟨hc, h⟩

theorem Makes.get {f : σ → Eff S σ ε α} (h : Makes P Q (f s) s) : Makes P Q (Eff.get >>= f) s := h

theorem Makes.modify {g : σ → σ} {f : Unit → Eff S σ ε α} (h : Makes P Q (f ()) (g s)) :
    Makes P Q (Eff.modify g >>= f) s := h

/-- One program after another; an exception of the first ends both. -/
theorem Makes.seq {T : Except ε β → σ → Prop} {m : Eff S σ ε β} {f : β → Eff S σ ε α}
    (hm : Makes P T m s) (hok : ∀ b s', T (.ok b) s' → Makes P Q (f b) s')
    (herr : ∀ e s', T (.error e) s' → Q (.error e) s') : Makes P Q (m >>= f) s := by
  refine Prog.Makes.bind hm ?_
  rintro ⟨b | b, s'⟩ h
  · exact herr b s' h
  · exact hok b s' h

/-- A handler takes over from the exceptions it catches, and the others pass. -/
theorem Makes.catchIf {T : Except ε α → σ → Prop} {p : ε → Bool} {m : Eff S σ ε α}
    {h : ε → Eff S σ ε α} (hm : Makes P T m s) (hok : ∀ a s', T (.ok a) s' → Q (.ok a) s')
    (hcaught : ∀ e s', T (.error e) s' → p e → Makes P Q (h e) s')
    (hpass : ∀ e s', T (.error e) s' → ¬p e → Q (.error e) s') :
    Makes P Q (Eff.catchIf p m h) s := by
  refine Prog.Makes.bind hm ?_
  rintro ⟨b | b, s'⟩ hx
  · dsimp only
    split
    · next hp => exact hcaught b s' hx hp
    · next hp => exact hpass b s' hx hp
  · exact hok b s' hx

theorem Makes.onFst {τ : Type} {Q : Except ε α → σ × τ → Prop} {m : Eff S σ ε α} {t : τ}
    (hm : Makes P (fun x s' => Q x (s', t)) m s) : Makes P Q m.onFst (s, t) :=
  Prog.Makes.bind hm fun _ h => h

end

/-- A run of `m >>= f` is a run of `m` followed by one of `f`, or one in which `m` fails. -/
theorem run_seq {sem : Sem S W} {m : Eff S σ ε α} {f : α → Eff S σ ε β} {s s' : σ} {w w' : W}
    {tr : List (Event S)} {x : Except ε β} (h : Prog.Run sem ((m >>= f) s) w tr (x, s') w') :
    (∃ tr₁ a s₁ w₁ tr₂, Prog.Run sem (m s) w tr₁ (.ok a, s₁) w₁ ∧
      Prog.Run sem (f a s₁) w₁ tr₂ (x, s') w' ∧ tr = tr₁ ++ tr₂) ∨
    ∃ e, x = .error e ∧ Prog.Run sem (m s) w tr (.error e, s') w' := by
  obtain ⟨tr₁, ⟨y, s₁⟩, w₁, tr₂, h₁, h₂, rfl⟩ := Prog.Run.bind_inv h
  cases y with
  | ok a => exact .inl ⟨tr₁, a, s₁, w₁, tr₂, h₁, h₂, rfl⟩
  | error e =>
    cases h₂
    rw [List.append_nil]
    exact .inr ⟨e, rfl, h₁⟩

/-- A run of `m >>= f` that returns is one of both parts. -/
theorem run_seq_ok {sem : Sem S W} {m : Eff S σ ε α} {f : α → Eff S σ ε β} {s s' : σ} {w w' : W}
    {tr : List (Event S)} {b : β} (h : Prog.Run sem ((m >>= f) s) w tr (.ok b, s') w') :
    ∃ tr₁ a s₁ w₁ tr₂, Prog.Run sem (m s) w tr₁ (.ok a, s₁) w₁ ∧
      Prog.Run sem (f a s₁) w₁ tr₂ (.ok b, s') w' ∧ tr = tr₁ ++ tr₂ := by
  rcases run_seq h with h | ⟨_, h, _⟩
  · exact h
  · cases h

/-- A run that returns goes on with a value that is there. -/
theorem run_ofExcept_ok {sem : Sem S W} {x : Except ε α} {f : α → Eff S σ ε β} {s s' : σ} {w w' : W}
    {tr : List (Event S)} {b : β} (h : Prog.Run sem ((ofExcept x >>= f) s) w tr (.ok b, s') w') :
    ∃ a, x = .ok a ∧ Prog.Run sem (f a s) w tr (.ok b, s') w' := by
  cases x with
  | ok a => exact ⟨a, rfl, h⟩
  | error e => cases h

/-- A run of a computation gives one that makes something of its result. -/
theorem run_map {sem : Sem S W} {m : Eff S σ ε α} {f : α → β} {s s' : σ} {w w' : W}
    {tr : List (Event S)} {x : Except ε α} (h : Prog.Run sem (m s) w tr (x, s') w') :
    Prog.Run sem ((m >>= fun a => pure (f a)) s) w tr (x.map f, s') w' := by
  rw [← List.append_nil tr]
  refine h.bind ?_
  cases x with
  | ok a => exact .ret
  | error e => exact .ret

/-- A run of a computation with a handler: nothing to handle, or an error that is handled. -/
theorem run_catchIf {sem : Sem S W} {p : ε → Bool} {m : Eff S σ ε α} {h : ε → Eff S σ ε α}
    {s s' : σ} {w w' : W} {tr : List (Event S)} {x : Except ε α}
    (hr : Prog.Run sem (Eff.catchIf p m h s) w tr (x, s') w') :
    (Prog.Run sem (m s) w tr (x, s') w' ∧ ∀ e, x = .error e → ¬p e) ∨
    ∃ tr₁ e s₁ w₁ tr₂, Prog.Run sem (m s) w tr₁ (.error e, s₁) w₁ ∧
      Prog.Run sem (h e s₁) w₁ tr₂ (x, s') w' ∧ tr = tr₁ ++ tr₂ := by
  obtain ⟨tr₁, ⟨y, s₁⟩, w₁, tr₂, h₁, h₂, rfl⟩ := Prog.Run.bind_inv hr
  cases y with
  | ok a =>
    cases h₂
    rw [List.append_nil]
    exact .inl ⟨h₁, nofun⟩
  | error e =>
    dsimp only at h₂
    split at h₂
    · exact .inr ⟨tr₁, e, s₁, w₁, tr₂, h₁, h₂, rfl⟩
    · next hp =>
      cases h₂
      rw [List.append_nil]
      exact .inl ⟨h₁, fun e he => by cases he; exact hp⟩

/-- A run that begins with a call. -/
theorem run_perform {sem : Sem S W} {c : S.Call} {f : S.Resp c → Eff S σ ε β} {s s' : σ} {w w' : W}
    {tr : List (Event S)} {x : Except ε β}
    (h : Prog.Run sem ((Eff.perform c >>= f) s) w tr (x, s') w') :
    ∃ r w₁ tr', sem c w r w₁ ∧ Prog.Run sem (f r s) w₁ tr' (x, s') w' ∧ tr = ⟨c, r⟩ :: tr' := by
  cases h with
  | call hs hr => exact ⟨_, _, _, hs, hr, rfl⟩

end

/-- No run of the computation that meets an event of `P` ends well. -/
def Raises (sem : Sem S W) (P : Event S → Prop) (m : Eff S σ ε α) : Prop :=
  ∀ s w tr a s' w', Prog.Run sem (m s) w tr (.ok a, s') w' → ∀ e ∈ tr, ¬P e

section

variable {sem : Sem S W} {P : Event S → Prop}

/-- What one program after another may throw. -/
theorem Raises.seq {m : Eff S σ ε α} {f : α → Eff S σ ε β} (hm : Raises sem P m)
    (hf : ∀ a, Raises sem P (f a)) : Raises sem P (m >>= f) := by
  intro s w tr a s' w' hr e he
  rcases run_seq hr with ⟨tr₁, b, s₁, w₁, tr₂, h₁, h₂, rfl⟩ | ⟨_, h, _⟩
  · rcases List.mem_append.1 he with he | he
    · exact hm _ _ _ _ _ _ h₁ e he
    · exact hf b _ _ _ _ _ _ h₂ e he
  · cases h

/-- A call each of whose answers in `P` is turned into an error. -/
theorem Raises.perform {c : S.Call} {f : S.Resp c → Eff S σ ε α}
    (hP : ∀ r, P ⟨c, r⟩ → ∃ e, f r = Eff.throw e) (hf : ∀ r, Raises sem P (f r)) :
    Raises sem P (Eff.perform c >>= f) := by
  intro s w tr a s' w' hrun e he
  obtain ⟨r, w₁, tr', _, hr, rfl⟩ := run_perform hrun
  rcases List.mem_cons.1 he with rfl | he
  · intro hPr
    obtain ⟨_, hthrow⟩ := hP r hPr
    rw [hthrow] at hr
    cases hr
  · exact hf r _ _ _ _ _ _ hr e he

/-- A handler that throws again does not make a run end well. -/
theorem Raises.catchIf {p : ε → Bool} {m : Eff S σ ε α} {h : ε → Eff S σ ε α}
    (hm : Raises sem P m) (hh : ∀ e s w tr a s' w', ¬Prog.Run sem (h e s) w tr (.ok a, s') w') :
    Raises sem P (Eff.catchIf p m h) := by
  intro s w tr a s' w' hr
  rcases run_catchIf hr with ⟨hr, _⟩ | ⟨tr₁, e, s₁, w₁, tr₂, _, h₂, _⟩
  · exact hm _ _ _ _ _ _ hr
  · exact absurd h₂ (hh _ _ _ _ _ _ _)

end

@[simp] theorem ofExcept_ok (a : α) : (ofExcept (.ok a) : Eff S σ ε α) = pure a := rfl

end Eff

end Tarmac
