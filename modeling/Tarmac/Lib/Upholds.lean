import Tarmac.Lib.Interleave
import Tarmac.Lib.Returns

/-!
# Programs that uphold an invariant

A program upholds an invariant of its environment when it only makes calls that keep it, as long as
the calls are answered the way they are while the invariant holds. `Prog.Upholds P A Q` says that of
the program alone: given answers of `A`, its calls satisfy `P`, and the calls it has made and what it
returns satisfy `Q`. For processes that share an environment nothing else has to be shown
(`Machine.run_upheld`): no process needs to know what the others do, as it must for
`Machine.run_safe`.

Programs over one signature are programs over a larger one (`Prog.inl`), and a judgement about their
answers carries over.
-/

namespace Tarmac

variable {S T : Sig} {W α β σ ε : Type} {P : S.Call → Prop} {A : Event S → Prop}

namespace Prog

/-- As long as each answer is one of `A`, the calls made satisfy `P`, and together with the value
returned `Q`. -/
def Upholds (P : S.Call → Prop) (A : Event S → Prop) : Prog S α → (List (Event S) → α → Prop) → Prop
  | ret a, Q => Q [] a
  | call c k, Q => P c ∧ ∀ r, A ⟨c, r⟩ → (k r).Upholds P A fun tr a => Q (⟨c, r⟩ :: tr) a

theorem Upholds.mono {Q Q' : List (Event S) → α → Prop} {m : Prog S α} (hm : m.Upholds P A Q)
    (h : ∀ tr a, Q tr a → Q' tr a) : m.Upholds P A Q' := by
  induction m generalizing Q Q' with
  | ret a => exact h [] a hm
  | call c k ih => exact ⟨hm.1, fun r hr => ih r (hm.2 r hr) fun tr a => h _ a⟩

theorem Upholds.bind {Q : List (Event S) → β → Prop} {Q' : List (Event S) → α → Prop} {m : Prog S β}
    {f : β → Prog S α} (hm : m.Upholds P A Q)
    (hf : ∀ tr b, Q tr b → (f b).Upholds P A fun tr' a => Q' (tr ++ tr') a) :
    (m.bind f).Upholds P A Q' := by
  induction m generalizing Q Q' with
  | ret b => exact hf [] b hm
  | call c k ih => exact ⟨hm.1, fun r hr => ih r (hm.2 r hr) fun tr b h => hf _ b h⟩

/-- A run of a program whose calls keep an invariant, under which they are answered by `A`. -/
theorem Upholds.run {sem : Sem S W} {I : W → Prop} {Q : List (Event S) → α → Prop} {m : Prog S α}
    {w w' : W} {tr : List (Event S)} {a : α}
    (hstep : ∀ c w r w', I w → P c → sem c w r w' → I w' ∧ A ⟨c, r⟩) (hr : Run sem m w tr a w')
    (hm : m.Upholds P A Q) (hI : I w) : I w' ∧ Q tr a := by
  induction hr generalizing Q with
  | ret => exact ⟨hI, hm⟩
  | call hs _ ih =>
    obtain ⟨hI', hA⟩ := hstep _ _ _ _ hI hm.1 hs
    exact ih (hm.2 _ hA) hI'

/-- What a program returns says nothing of the calls it makes. -/
theorem Returns.upholds {Q : List (Event S) → α → Prop} {m : Prog S α} (hm : m.Returns A Q) :
    m.Upholds (fun _ => True) A Q := by
  induction m generalizing Q with
  | ret a => exact hm
  | call c k ih => exact ⟨trivial, fun r hr => ih r (hm r hr)⟩

/-- Fewer answers. -/
theorem Returns.anti {B : Event S → Prop} (h : ∀ e, B e → A e) {Q : List (Event S) → α → Prop}
    {m : Prog S α} (hm : m.Returns A Q) : m.Returns B Q := by
  induction m generalizing Q with
  | ret a => exact hm
  | call c k ih => exact fun r hr => ih r (hm r (h _ hr))

/-- The calls a program has made were answered by `A`. -/
theorem Returns.answered {Q : List (Event S) → α → Prop} {m : Prog S α} (hm : m.Returns A Q) :
    m.Returns A fun tr a => (∀ e ∈ tr, A e) ∧ Q tr a := by
  induction m generalizing Q with
  | ret a => exact ⟨fun e he => absurd he List.not_mem_nil, hm⟩
  | call c k ih =>
    exact fun r hr => (ih r (hm r hr)).mono fun tr a h => ⟨List.forall_mem_cons.2 ⟨hr, h.1⟩, h.2⟩

/-- What every run ends in is what the program returns. -/
theorem returns_of_runs {Q : List (Event S) → α → Prop} {m : Prog S α} (w : W)
    (h : ∀ tr a w', Run (fun c _ r _ => A ⟨c, r⟩) m w tr a w' → Q tr a) : m.Returns A Q := by
  induction m generalizing Q with
  | ret a => exact h [] a w .ret
  | call c k ih => exact fun r hr => ih r fun tr a w' hrun => h _ a w' (.call hr hrun)

end Prog

namespace Eff

/-- From the private state `s`: as long as each answer is one of `A`, the calls made satisfy `P`, and
together with the outcome and the private state left `Q`. -/
def Upholds (P : S.Call → Prop) (A : Event S → Prop) (Q : List (Event S) → Except ε α → σ → Prop)
    (m : Eff S σ ε α) (s : σ) : Prop :=
  (m s).Upholds P A fun tr x => Q tr x.1 x.2

namespace Upholds

variable {Q : List (Event S) → Except ε α → σ → Prop} {s : σ}

theorem mono {Q' : List (Event S) → Except ε α → σ → Prop} {m : Eff S σ ε α} (hm : Upholds P A Q m s)
    (h : ∀ tr x s', Q tr x s' → Q' tr x s') : Upholds P A Q' m s :=
  Prog.Upholds.mono hm fun tr x => h tr x.1 x.2

theorem pure {a : α} (h : Q [] (.ok a) s) : Upholds P A Q (Pure.pure a : Eff S σ ε α) s := h

theorem throw {e : ε} (h : Q [] (.error e) s) : Upholds P A Q (throw e : Eff S σ ε α) s := h

theorem ofExcept {x : Except ε α} (h : Q [] x s) : Upholds P A Q (ofExcept x : Eff S σ ε α) s := by
  cases x with
  | ok a => exact .pure h
  | error e => exact .throw h

/-- A call that is admitted, and what follows each admitted answer. -/
theorem perform {c : S.Call} {f : S.Resp c → Eff S σ ε α} (hc : P c)
    (h : ∀ r, A ⟨c, r⟩ → Upholds P A (fun tr => Q (⟨c, r⟩ :: tr)) (f r) s) :
    Upholds P A Q (Eff.perform c >>= f) s :=
  ⟨hc, fun r hr => h r hr⟩

/-- One program after another; an exception of the first ends both. -/
theorem seq {R : List (Event S) → Except ε β → σ → Prop} {m : Eff S σ ε β} {f : β → Eff S σ ε α}
    (hm : Upholds P A R m s)
    (hok : ∀ tr b s', R tr (.ok b) s' → Upholds P A (fun tr' => Q (tr ++ tr')) (f b) s')
    (herr : ∀ tr e s', R tr (.error e) s' → Q tr (.error e) s') : Upholds P A Q (m >>= f) s := by
  refine Prog.Upholds.bind hm ?_
  rintro tr ⟨b | b, s'⟩ h
  · have herror := herr tr b s' h
    rw [← List.append_nil tr] at herror
    exact herror
  · exact hok tr b s' h

/-- A handler goes on with the trace of what it caught. -/
theorem catchIf {R : List (Event S) → Except ε α → σ → Prop} {p : ε → Bool} {m : Eff S σ ε α}
    {h : ε → Eff S σ ε α} (hm : Upholds P A R m s)
    (hok : ∀ tr a s', R tr (.ok a) s' → Q tr (.ok a) s')
    (hcaught : ∀ tr e s', R tr (.error e) s' → p e →
      Upholds P A (fun tr' => Q (tr ++ tr')) (h e) s')
    (hpass : ∀ tr e s', R tr (.error e) s' → ¬p e → Q tr (.error e) s') :
    Upholds P A Q (Eff.catchIf p m h) s := by
  refine Prog.Upholds.bind hm ?_
  rintro tr ⟨b | b, s'⟩ hR
  · dsimp only
    split
    · next hp => exact hcaught tr b s' hR hp
    · next hp =>
      have hpassed := hpass tr b s' hR hp
      rw [← List.append_nil tr] at hpassed
      exact hpassed
  · have hgood := hok tr b s' hR
    rw [← List.append_nil tr] at hgood
    exact hgood

end Upholds

end Eff

/-! ## Larger signatures -/

/-- The calls of two signatures. -/
abbrev Sig.sum (S T : Sig) : Sig := ⟨S.Call ⊕ T.Call, Sum.elim S.Resp T.Resp⟩

/-- A call of the first signature. -/
def Event.inl (T : Sig) (e : Event S) : Event (S.sum T) := ⟨.inl e.1, e.2⟩

/-- A program that makes the calls of the first signature. -/
def Prog.inl (T : Sig) : Prog S α → Prog (S.sum T) α
  | ret a => ret a
  | call c k => call (.inl c) fun r => (k r).inl T

/-- A computation that makes the calls of the first signature. -/
def Eff.inl (T : Sig) (m : Eff S σ ε α) : Eff (S.sum T) σ ε α := fun s => (m s).inl T

/-- What a program upholds it upholds among more calls. -/
theorem Prog.Upholds.inl {P' : (S.sum T).Call → Prop} {A' : Event (S.sum T) → Prop}
    {Q : List (Event S) → α → Prop} {m : Prog S α} (hP : ∀ c, P c → P' (.inl c))
    (hA : ∀ e : Event S, A' (e.inl T) → A e) (hm : m.Upholds P A Q) :
    (m.inl T).Upholds P' A' fun tr a => ∃ tr₀, tr = tr₀.map (Event.inl T) ∧ Q tr₀ a := by
  induction m generalizing Q with
  | ret a => exact ⟨[], rfl, hm⟩
  | call c k ih =>
    refine ⟨hP c hm.1, fun r hr => (ih r (hm.2 r (hA ⟨c, r⟩ hr))).mono ?_⟩
    rintro _ a ⟨tr₀, rfl, hQ⟩
    exact ⟨⟨c, r⟩ :: tr₀, rfl, hQ⟩

/-- A run of a program is one among more calls. -/
theorem Prog.Run.inl {W' : Type} {sem : Sem S W} {sem' : Sem (S.sum T) W'} {f : W → W'}
    (h : ∀ c w r w', sem c w r w' → sem' (.inl c) (f w) r (f w')) {m : Prog S α} {w w' : W}
    {tr : List (Event S)} {a : α} (hr : Prog.Run sem m w tr a w') :
    Prog.Run sem' (m.inl T) (f w) (tr.map (Event.inl T)) a (f w') := by
  induction hr with
  | ret => exact .ret
  | call hs _ ih => exact .call (h _ _ _ _ hs) ih

/-- The calls of an operation, after one more step of its process. -/
def Act.after {O B : Type} (tr : List (Event S)) : Act S O B → List (Event S)
  | .start _ => []
  | .call e => tr ++ [e]
  | .done .. | .kill => tr

namespace Machine

variable {ι O B : Type} {M : Machine ι S W O σ B} {I : W → Prop} {P : ι → S.Call → Prop}
  {A : ι → Event S → Prop} {Q : ι → O → List (Event S) → B → Prop}

/-- The processes uphold `I`: while it holds, the calls `P` keep it and are answered by `A`, and given
such answers the operations only make such calls, and these and what they return satisfy `Q`. -/
structure Upheld (M : Machine ι S W O σ B) (I : W → Prop) (P : ι → S.Call → Prop)
    (A : ι → Event S → Prop) (Q : ι → O → List (Event S) → B → Prop) : Prop where
  step : ∀ i c w r w', I w → P i c → M.sem i c w r w' → I w' ∧ A i ⟨c, r⟩
  code : ∀ i op s, (M.code i op s).Upholds (P i) (A i) fun tr x => Q i op tr x.1
  kill : ∀ i w w', I w → M.kill i w w' → I w'

/-- A process that goes on as it should, after the calls `tr` of its operation. -/
def Going (P : S.Call → Prop) (A : Event S → Prop) (Q : O → List (Event S) → B → Prop)
    (tr : List (Event S)) : Process S O σ B → Prop
  | .idle _ => True
  | .running op m => m.Upholds P A fun tr' x => Q op (tr ++ tr') x.1

/-- A step of a process that upholds its calls keeps the invariant, and what the process is going for.
-/
theorem Local.upheld {i : ι} (hM : Upheld M I P A Q) {g g' : Process S O σ B} {w w' : W}
    {a : Act S O B} {tr : List (Event S)} (h : M.Local i g w a g' w') (hI : I w)
    (hg : Going (P i) (A i) (Q i) tr g) :
    I w' ∧ Going (P i) (A i) (Q i) (a.after tr) g' ∧ ∀ op b, a = .done op b → Q i op tr b := by
  cases h with
  | start =>
    refine ⟨hI, hM.code i _ _, ?_⟩
    rintro op b ⟨⟩
  | call h =>
    obtain ⟨hI', hA⟩ := hM.step i _ _ _ _ hI hg.1 h
    refine ⟨hI', (hg.2 _ hA).mono fun tr' x hx => ?_, ?_⟩
    · rw [Act.after, List.append_assoc]
      exact hx
    · rintro op b ⟨⟩
  | @done op b =>
    refine ⟨hI, trivial, ?_⟩
    rintro _ _ ⟨⟩
    have hQ : Q i op (tr ++ []) b := hg
    rwa [List.append_nil] at hQ
  | kill h =>
    refine ⟨hM.kill i _ _ hI h, trivial, ?_⟩
    rintro op b ⟨⟩

variable [DecidableEq ι]

/-- The calls of the process since it last started an operation. -/
def callsOf (i : ι) (ls : List (ι × Act S O B)) : List (Event S) :=
  ls.foldl (fun tr l => if l.1 = i then l.2.after tr else tr) []

/-- The calls of a process, one action later. -/
theorem callsOf_snoc (i : ι) (ls : List (ι × Act S O B)) (l : ι × Act S O B) :
    callsOf i (ls ++ [l]) = if l.1 = i then l.2.after (callsOf i ls) else callsOf i ls :=
  List.foldl_append ..

/-- One step of processes that uphold the invariant. -/
theorem Step.upheld (hM : Upheld M I P A Q) {x x' : (ι → Process S O σ B) × W} {l : ι × Act S O B}
    {ls : List (ι × Act S O B)} (h : M.Step x l x') (hI : I x.2)
    (hg : ∀ i, Going (P i) (A i) (Q i) (callsOf i ls) (x.1 i)) :
    I x'.2 ∧ (∀ i, Going (P i) (A i) (Q i) (callsOf i (ls ++ [l])) (x'.1 i)) ∧
      ∀ op b, l.2 = .done op b → Q l.1 op (callsOf l.1 ls) b := by
  cases h with
  | @move gs w w' i a g h =>
    obtain ⟨hI', hgoing, hdone⟩ := h.upheld hM hI (hg i)
    refine ⟨hI', fun j => ?_, hdone⟩
    rw [callsOf_snoc]
    dsimp only
    by_cases hj : i = j
    · subst hj
      rw [if_pos rfl, Function.update_self]
      exact hgoing
    · rw [if_neg hj, Function.update_of_ne (Ne.symm hj)]
      exact hg j

/-- Along a run of processes that uphold it the invariant holds, and what they return, after which
calls, is as it should be. -/
theorem run_upheld (hM : Upheld M I P A Q) {x x' : (ι → Process S O σ B) × W}
    {ls : List (ι × Act S O B)} (h : Runs M.Step x ls x') (hI : I x.2)
    (hidle : ∀ i, ∃ s, x.1 i = .idle s) :
    I x'.2 ∧ ∀ ls₁ ls₂ i op b, ls = ls₁ ++ (i, .done op b) :: ls₂ → Q i op (callsOf i ls₁) b := by
  have hstart (i : ι) : Going (P i) (A i) (Q i) [] (x.1 i) := by
    obtain ⟨s, hs⟩ := hidle i
    rw [hs]
    trivial
  have hinv {ls₁ : List (ι × Act S O B)} {x₁ : (ι → Process S O σ B) × W} (h₁ : Runs M.Step x ls₁ x₁) :
      I x₁.2 ∧ ∀ i, Going (P i) (A i) (Q i) (callsOf i ls₁) (x₁.1 i) := by
    refine h₁.history (I := fun ls y => I y.2 ∧ ∀ i, Going (P i) (A i) (Q i) (callsOf i ls) (y.1 i)) ?_ ?_
    · rintro ls l y y' ⟨hy, hg⟩ hs
      obtain ⟨hy', hg', -⟩ := hs.upheld hM hy hg
      exact ⟨hy', hg'⟩
    · exact ⟨hI, hstart⟩
  refine ⟨(hinv h).1, ?_⟩
  rintro ls₁ ls₂ i op b rfl
  obtain ⟨x₁, h₁, h₂⟩ := h.split
  obtain ⟨hI₁, hg₁⟩ := hinv h₁
  cases h₂ with
  | cons hs _ => exact (hs.upheld hM hI₁ hg₁).2.2 op b rfl

/-- A process makes the calls of a program one after another. -/
theorem runs_calls {gs : ι → Process S O σ B} {i : ι} {op : O} {m : Prog S (B × σ)} {w w' : W}
    {tr : List (Event S)} {x : B × σ} (hr : Prog.Run (M.sem i) m w tr x w') :
    Runs M.Step (Function.update gs i (.running op m), w) (tr.map fun e => (i, .call e))
      (Function.update gs i (.running op (.ret x)), w') := by
  induction hr with
  | ret => exact .nil
  | @call c k w w₁ w₂ r tr a hs hr ih =>
    have hstep : M.Step (Function.update gs i (.running op (.call c k)), w) (i, .call ⟨c, r⟩)
        (Function.update (Function.update gs i (.running op (.call c k))) i (.running op (k r)), w₁) := by
      refine .move ?_
      rw [Function.update_self]
      exact .call hs
    rw [Function.update_idem] at hstep
    exact .cons hstep ih

/-- An operation that a process has for itself. -/
theorem runs_of_run (gs : ι → Process S O σ B) {i : ι} {op : O} {s s' : σ} {w w' : W}
    {tr : List (Event S)} {b : B} (hg : gs i = .idle s)
    (hr : Prog.Run (M.sem i) (M.code i op s) w tr (b, s') w') :
    ∃ gs', Runs M.Step (gs, w) ((i, .start op) :: (tr.map fun e => (i, .call e)) ++ [(i, .done op b)])
      (gs', w') := by
  have hstart : M.Step (gs, w) (i, .start op) (Function.update gs i (.running op (M.code i op s)), w) := by
    refine .move ?_
    rw [hg]
    exact .start
  have hend : Function.update gs i (.running op (.ret (b, s'))) i = .running op (.ret (b, s')) :=
    Function.update_self ..
  exact ⟨_, .append (.cons hstart (runs_calls hr)) (.cons (step_done hend) .nil)⟩

end Machine

end Tarmac
