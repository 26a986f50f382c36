import Mathlib.Algebra.Order.Ring.Nat
import Tarmac.Lib.Runs
import Tarmac.Lib.Safe

/-!
# Interleavings of programs

Processes that share an environment: each has a private state and performs one operation after the
other, of which only the calls are visible to the others. A step is a step of one process (`Act`): it
starts an operation, makes a call, returns, or is killed. Which operations are started, and in which
order the processes move, is arbitrary.

`Machine.run_safe` is the rule for parallel composition. When each process guarantees what the others
rely on, the invariant holds along every run, and whatever each operation promises in isolation holds
when it returns (`Machine.run_done`).
-/

namespace Tarmac

/-- A process: between two operations with its private state, or inside one. -/
inductive Process (S : Sig) (O σ A : Type) where
  | idle (s : σ)
  | running (op : O) (m : Prog S (A × σ))

/-- A process that only makes calls of `P`, and whose private state satisfies `J` between two
operations. -/
def Process.Makes {S : Sig} {O σ A : Type} (P : S.Call → Prop) (J : σ → Prop) :
    Process S O σ A → Prop
  | .idle s => J s
  | .running _ m => m.Makes P fun x => J x.2

/-- What a process does in one step. -/
inductive Act (S : Sig) (O A : Type) where
  | start (op : O)
  | call (e : Event S)
  | done (op : O) (a : A)
  | kill

/-- What is common to all runs: the answers the environment gives to each process, the code of the
operations, the private state of a process that has just been started, and what the environment does
when a process is killed. -/
structure Machine (ι : Type) (S : Sig) (W O σ A : Type) where
  sem : ι → Sem S W
  code : ι → O → σ → Prog S (A × σ)
  init : σ
  kill : ι → W → W → Prop

namespace Machine

variable {ι : Type} {S : Sig} {W O σ A : Type}

/-- One step of the process `i`. -/
inductive Local (M : Machine ι S W O σ A) (i : ι) :
    Process S O σ A → W → Act S O A → Process S O σ A → W → Prop where
  | start {s : σ} {w : W} {op : O} :
      Local M i (.idle s) w (.start op) (.running op (M.code i op s)) w
  | call {op : O} {c : S.Call} {k : S.Resp c → Prog S (A × σ)} {r : S.Resp c} {w w' : W}
      (h : M.sem i c w r w') :
      Local M i (.running op (.call c k)) w (.call ⟨c, r⟩) (.running op (k r)) w'
  | done {op : O} {a : A} {s : σ} {w : W} :
      Local M i (.running op (.ret (a, s))) w (.done op a) (.idle s) w
  | kill {g : Process S O σ A} {w w' : W} (h : M.kill i w w') :
      Local M i g w .kill (.idle M.init) w'

/-- A step of a process that only makes calls of `P`. -/
theorem Local.makes {M : Machine ι S W O σ A} {i : ι} {P : S.Call → Prop} {J : σ → Prop}
    (hcode : ∀ op s, J s → (M.code i op s).Makes P fun x => J x.2)
    (hinit : J M.init) {g g' : Process S O σ A} {w w' : W} {a : Act S O A}
    (h : M.Local i g w a g' w') (hg : g.Makes P J) :
    g'.Makes P J ∧ ∀ e, a = .call e → P e.1 := by
  cases h with
  | start => exact ⟨hcode _ _ hg, nofun⟩
  | call h =>
    refine ⟨hg.2 _, ?_⟩
    rintro _ ⟨⟩
    exact hg.1
  | done => exact ⟨hg, nofun⟩
  | kill h => exact ⟨hinit, nofun⟩

/-! ## Rely and guarantee -/

/-- The process has kept to its rules so far and goes on doing so: `J` holds of its private state
between two operations, and an operation `op` that is under way will end in `J` and `Q op`. -/
def Fine (R : Rules S W) (J : σ → W → Prop) (Q : O → A → σ → W → Prop) (w : W) :
    Process S O σ A → Prop
  | .idle s => ∀ w₁, R.Inv w₁ → R.Rely w w₁ → J s w₁
  | .running op m => m.Safe R (fun x w' => J x.2 w' ∧ Q op x.1 x.2 w') w

/-- What the rules of the processes must have in common to be composed. -/
structure Composable (M : Machine ι S W O σ A) (I : W → Prop) (R : ι → Rules S W)
    (J : ι → σ → W → Prop) (Q : ι → O → A → σ → W → Prop) : Prop where
  sem : ∀ i, (R i).sem = M.sem i
  inv : ∀ i w, (R i).Inv w ↔ I w
  refl : ∀ i w, (R i).Rely w w
  trans : ∀ i w₁ w₂ w₃, I w₁ → I w₂ → (R i).Rely w₁ w₂ → (R i).Rely w₂ w₃ → (R i).Rely w₁ w₃
  guar : ∀ i j, i ≠ j → ∀ w w', I w → I w' → (R i).Guar w w' → (R j).Rely w w'
  code : ∀ i op s w, I w → (∀ w₁, I w₁ → (R i).Rely w w₁ → J i s w₁) →
    (M.code i op s).Safe (R i) (fun x w' => J i x.2 w' ∧ Q i op x.1 x.2 w') w
  kill : ∀ i w w', I w → M.kill i w w' →
    I w' ∧ (R i).Guar w w' ∧ ∀ w₁, I w₁ → (R i).Rely w' w₁ → J i M.init w₁

section

variable {M : Machine ι S W O σ A} {I : W → Prop} {R : ι → Rules S W} {J : ι → σ → W → Prop}
  {Q : ι → O → A → σ → W → Prop}

/-- A process is not disturbed by the others. -/
theorem Fine.rely {i : ι} (hM : Composable M I R J Q) {w w' : W} {g : Process S O σ A} (hI : I w)
    (hI' : I w') (hw : (R i).Rely w w') (h : Fine (R i) (J i) (Q i) w g) :
    Fine (R i) (J i) (Q i) w' g := by
  cases g with
  | idle s => exact fun w₁ hI₁ hR => h w₁ hI₁ (hM.trans i _ _ _ hI hI' hw hR)
  | running op m =>
    exact Prog.Safe.rely (R := R i) (fun w₁ _ hR => hM.trans i _ _ _ hI hI' hw hR) h

/-- A step of one process: it stays fine, keeps the invariant, and moves the environment in a way the
others rely on. -/
theorem Local.fine {i : ι} (hM : Composable M I R J Q) {g g' : Process S O σ A} {w w' : W}
    {a : Act S O A} (h : M.Local i g w a g' w') (hI : I w) (hg : Fine (R i) (J i) (Q i) w g) :
    I w' ∧ Fine (R i) (J i) (Q i) w' g' ∧ ((R i).Guar w w' ∨ w' = w) := by
  cases h with
  | start => exact ⟨hI, hM.code i _ _ _ hI fun w₁ hI₁ => hg w₁ ((hM.inv i w₁).2 hI₁), .inr rfl⟩
  | call h =>
    have ⟨_, hstep⟩ := hg _ ((hM.inv i _).2 hI) (hM.refl i _)
    rw [hM.sem i] at hstep
    have ⟨hI', hG, hsafe⟩ := hstep _ _ h
    exact ⟨(hM.inv i _).1 hI', hsafe, .inl hG⟩
  | done => exact ⟨hI, fun w₁ hI₁ hR => (hg w₁ hI₁ hR).1, .inr rfl⟩
  | kill h =>
    have ⟨hI', hG, hJ⟩ := hM.kill i _ _ hI h
    exact ⟨hI', fun w₁ hI₁ => hJ w₁ ((hM.inv i w₁).1 hI₁), .inl hG⟩

end

variable [DecidableEq ι]

/-- One step of the processes: one of them moves. -/
inductive Step (M : Machine ι S W O σ A) :
    (ι → Process S O σ A) × W → ι × Act S O A → (ι → Process S O σ A) × W → Prop where
  | move {gs : ι → Process S O σ A} {w w' : W} {i : ι} {a : Act S O A} {g : Process S O σ A}
      (h : M.Local i (gs i) w a g w') : Step M (gs, w) (i, a) (Function.update gs i g, w')

section

variable {M : Machine ι S W O σ A} {I : W → Prop} {R : ι → Rules S W} {J : ι → σ → W → Prop}
  {Q : ι → O → A → σ → W → Prop}

/-- One step of the processes. -/
theorem step_safe (hM : Composable M I R J Q) {x x' : (ι → Process S O σ A) × W}
    {l : ι × Act S O A} (h : M.Step x l x') (hI : I x.2)
    (hfine : ∀ i, Fine (R i) (J i) (Q i) x.2 (x.1 i)) :
    I x'.2 ∧ (∀ i, Fine (R i) (J i) (Q i) x'.2 (x'.1 i)) ∧
      ((R l.1).Guar x.2 x'.2 ∨ x'.2 = x.2) := by
  cases h with
  | @move gs w w' i a g h =>
    obtain ⟨hI', hg, hmove⟩ := h.fine hM hI (hfine i)
    refine ⟨hI', fun j => ?_, hmove⟩
    by_cases hj : j = i
    · subst hj
      dsimp only
      rw [Function.update_self]
      exact hg
    · dsimp only
      rw [Function.update_of_ne hj]
      rcases hmove with hG | rfl
      · exact (hfine j).rely hM hI hI' (hM.guar i j (fun h => hj h.symm) _ _ hI hI' hG)
      · exact hfine j

/-- Parallel composition: along every run the invariant holds and all processes are fine. -/
theorem run_safe (hM : Composable M I R J Q) {x x' : (ι → Process S O σ A) × W}
    {ls : List (ι × Act S O A)} (h : Runs M.Step x ls x') (hI : I x.2)
    (hfine : ∀ i, Fine (R i) (J i) (Q i) x.2 (x.1 i)) :
    I x'.2 ∧ ∀ i, Fine (R i) (J i) (Q i) x'.2 (x'.1 i) :=
  h.invariant (I := fun x => I x.2 ∧ ∀ i, Fine (R i) (J i) (Q i) x.2 (x.1 i))
    (fun hx hs => ⟨(step_safe hM hs hx.1 hx.2).1, (step_safe hM hs hx.1 hx.2).2.1⟩) ⟨hI, hfine⟩

/-- What an operation under way is known to end in stays known while the processes move. -/
theorem run_under_way (hM : Composable M I R J Q) {x x' : (ι → Process S O σ A) × W}
    {ls : List (ι × Act S O A)} (h : Runs M.Step x ls x') (hI : I x.2)
    (hfine : ∀ i, Fine (R i) (J i) (Q i) x.2 (x.1 i)) {i : ι} {op : O} {m : Prog S (A × σ)}
    {P : A × σ → W → Prop} (hop : x.1 i = .running op m) (hm : m.Safe (R i) P x.2)
    (hcalls : ∀ l ∈ ls, l.1 = i → ∃ e, l.2 = .call e) :
    ∃ m', x'.1 i = .running op m' ∧ m'.Safe (R i) P x'.2 := by
  induction h generalizing m with
  | nil => exact ⟨m, hop, hm⟩
  | cons hs hr ih =>
    obtain ⟨hI₁, hfine₁, hmove⟩ := step_safe hM hs hI hfine
    have hrest := fun l hl => hcalls l (.tail _ hl)
    have hfirst := hcalls _ (.head _)
    cases hs with
    | @move gs w w' j a g h =>
      by_cases hj : j = i
      · subst hj
        obtain ⟨e, rfl⟩ := hfirst rfl
        dsimp only at hop
        rw [hop] at h
        cases h with
        | call h =>
          have ⟨_, hstep⟩ := hm _ ((hM.inv j _).2 hI) (hM.refl j _)
          rw [hM.sem j] at hstep
          exact ih hI₁ hfine₁ (Function.update_self ..) (hstep _ _ h).2.2 hrest
      · refine ih hI₁ hfine₁ ((Function.update_of_ne (Ne.symm hj) _ _).trans hop) ?_ hrest
        rcases hmove with hG | heq
        · exact hm.rely fun w₁ _ hR => hM.trans i _ _ _ hI hI₁ (hM.guar j i hj _ _ hI hI₁ hG) hR
        · dsimp only at heq ⊢
          rw [heq]
          exact hm

/-- An operation that returns has done what it promises. -/
theorem run_done (hM : Composable M I R J Q) {x x₁ : (ι → Process S O σ A) × W} {i : ι} {op : O}
    {a : A} (h : M.Step x (i, .done op a) x₁) (hI : I x.2)
    (hfine : ∀ i, Fine (R i) (J i) (Q i) x.2 (x.1 i)) :
    ∃ s, x₁.1 i = .idle s ∧ x₁.2 = x.2 ∧ Q i op a s x₁.2 := by
  cases h with
  | @move gs w w' i a g h =>
    have hi := hfine i
    generalize hg : gs i = g₀ at h
    cases h with
    | done =>
      dsimp only at hi
      rw [hg] at hi
      exact ⟨_, Function.update_self .., rfl, (hi w ((hM.inv i w).2 hI) (hM.refl i w)).2⟩

end

/-! ## What processes call -/

section

variable {M : Machine ι S W O σ A} {P : ι → S.Call → Prop} {J : ι → σ → Prop}

/-- A process whose program has returned can finish. -/
theorem step_done {gs : ι → Process S O σ A} {w : W} {i : ι} {op : O} {a : A}
    {s : σ} (h : gs i = .running op (.ret (a, s))) :
    M.Step (gs, w) (i, .done op a) (Function.update gs i (.idle s), w) := by
  refine .move ?_
  rw [h]
  exact .done

/-- A step of processes that only make calls of `P`. -/
theorem Step.makes (hcode : ∀ i op s, J i s → (M.code i op s).Makes (P i) fun x => J i x.2)
    (hinit : ∀ i, J i M.init) {x x' : (ι → Process S O σ A) × W} {l : ι × Act S O A}
    (h : M.Step x l x') (hx : ∀ i, (x.1 i).Makes (P i) (J i)) :
    (∀ i, (x'.1 i).Makes (P i) (J i)) ∧ ∀ e, l.2 = .call e → P l.1 e.1 := by
  cases h with
  | @move gs w w' i a g h =>
    obtain ⟨hg, hcall⟩ := h.makes (hcode i) (hinit i) (hx i)
    refine ⟨fun j => ?_, hcall⟩
    by_cases hj : j = i
    · subst hj
      dsimp only
      rw [Function.update_self]
      exact hg
    · dsimp only
      rw [Function.update_of_ne hj]
      exact hx j

end

/-! ## Evaluation -/

/-- A move of a process: it starts an operation, makes its next call with a choice of the environment,
or returns. -/
inductive Move (O C : Type) where
  | start (op : O)
  | go (ch : C)
  | finish

variable {C : Type} {M : Machine ι S W O σ A}
  {exec : ι → C → (c : S.Call) → W → Option (S.Resp c × W)}

variable (M exec) in
/-- Evaluates a move, with what it comes to. -/
def evalMove (i : ι) : Move O C → Process S O σ A → W → Option (Act S O A × Process S O σ A × W)
  | .start op, .idle s, w => some (.start op, .running op (M.code i op s), w)
  | .go ch, .running op (.call c k), w =>
    (exec i ch c w).map fun y => (.call ⟨c, y.1⟩, .running op (k y.1), y.2)
  | .finish, .running op (.ret (a, s)), w => some (.done op a, .idle s, w)
  | _, _, _ => none

variable (M exec) in
/-- Evaluates the moves of processes. -/
def eval : List (ι × Move O C) → (ι → Process S O σ A) × W →
    Option (List (ι × Act S O A) × (ι → Process S O σ A) × W)
  | [], x => some ([], x)
  | (i, m) :: ms, x => (M.evalMove exec i m (x.1 i) x.2).bind fun y =>
    (eval ms (Function.update x.1 i y.2.1, y.2.2)).map fun z => ((i, y.1) :: z.1, z.2)

theorem runs_of_eval (hs : ∀ i ch c w r w', exec i ch c w = some (r, w') → M.sem i c w r w')
    {ms : List (ι × Move O C)} {x x' : (ι → Process S O σ A) × W} {ls : List (ι × Act S O A)}
    (h : M.eval exec ms x = some (ls, x')) : Runs M.Step x ls x' := by
  induction ms generalizing x ls with
  | nil =>
    cases h
    exact .nil
  | cons m ms ih =>
    obtain ⟨i, m⟩ := m
    obtain ⟨gs, w⟩ := x
    obtain ⟨⟨a, g, w₁⟩, hmove, h⟩ := Option.bind_eq_some_iff.1 h
    obtain ⟨⟨ls₁, x₁⟩, hrest, heq⟩ := Option.map_eq_some_iff.1 h
    cases heq
    refine .cons (.move ?_) (ih hrest)
    dsimp only at hmove
    generalize gs i = g₀ at hmove
    unfold evalMove at hmove
    split at hmove
    · cases hmove
      exact .start
    · obtain ⟨y, hy, heq⟩ := Option.map_eq_some_iff.1 hmove
      cases heq
      exact .call (hs _ _ _ _ _ _ hy)
    · cases hmove
      exact .done
    · cases hmove

end Machine

end Tarmac
