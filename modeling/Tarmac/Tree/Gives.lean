import Tarmac.Lib.Returns
import Tarmac.Tree.Solo

/-!
# What a program returns and puts

The judgement `Gives` follows a program whatever other processes do to the store meanwhile: nothing
is said of the store, only of what the program returns, of the objects it puts, and that it does not
fail when none of its calls does.
-/

namespace Tarmac.Tree

open PackCas

/-- No call fails. -/
def unfailing (_ : Call) (_ : Sys) (ch : Choice) : Prop := ch.fail = none

/-- An answer that is not an error, unless something can fail. -/
def Settled {α : Type} (calm : Prop) (x : Except Err α) : Prop := ∀ e, x = .error e → ¬calm

/-- The answers to the calls of a program that puts objects, and reads and writes records: the id a
put returns is the hash of what was put, and when it is `calm` no call fails. -/
def Answered (ext : Ext) (calm : Prop) : Tarmac.Event sig → Prop
  | ⟨.put _ d, r⟩ => (∀ id, r = .ok id → id = ext.blake3 d) ∧ Settled calm r
  | ⟨.metaPut .., r⟩ => Settled calm (show Except Err Unit from r)
  | ⟨.metaDel _, r⟩ => Settled calm (show Except Err Unit from r)
  | ⟨.metaGet _, r⟩ => Settled calm (show Except Err (Option Bytes) from r)
  | ⟨.metaScan _, r⟩ => Settled calm (show Except Err (List (Bytes × Bytes)) from r)
  | ⟨.sync, r⟩ => Settled calm (show Except Err Unit from r)
  | _ => True

/-- The semantics of the calls of `p` when other processes may do anything before each. -/
def amid (ext : Ext) (ok : Call → Sys → Choice → Prop) (p : Nat) : Sem sig Sys :=
  fun c _ r s' => ∃ s₀, sem ext ok p c s₀ r s'

/-- The bytes were put. -/
def WasPut (ext : Ext) (tr : List (Tarmac.Event sig)) (d : Bytes) : Prop :=
  ∃ tree, (⟨.put tree d, .ok (ext.blake3 d)⟩ : Tarmac.Event sig) ∈ tr

/-- What the first part has put was put. -/
theorem WasPut.left {ext : Ext} {tr tr' : List (Tarmac.Event sig)} {d : Bytes} (h : WasPut ext tr d) :
    WasPut ext (tr ++ tr') d := by
  obtain ⟨tree, hmem⟩ := h
  exact ⟨tree, List.mem_append_left _ hmem⟩

/-- So was what the second part has put. -/
theorem WasPut.right {ext : Ext} {tr tr' : List (Tarmac.Event sig)} {d : Bytes}
    (h : WasPut ext tr' d) : WasPut ext (tr ++ tr') d := by
  obtain ⟨tree, hmem⟩ := h
  exact ⟨tree, List.mem_append_right _ hmem⟩

/-- What the program returns, and the calls it makes, satisfy `Q`; it does not fail when it is
`calm`. -/
def Gives {α : Type} (ext : Ext) (calm : Prop) (Q : List (Tarmac.Event sig) → α → Prop)
    (m : TreeM α) : Prop :=
  Eff.Returns (Answered ext calm)
    (fun tr x => Settled calm x ∧ ∀ a, x = .ok a → Q tr a) m

/-- The program has runs, and returns in each of them in which no call fails. -/
def ReturnsUnfailing {α : Type} (ext : Ext) (m : TreeM α) : Prop :=
  ∀ p σ s, (∃ tr x s', Prog.Run (amid ext unfailing p) (m σ) s tr x s') ∧
    ∀ tr x σ' s', Prog.Run (amid ext unfailing p) (m σ) s tr (x, σ') s' → ∃ a, x = .ok a

section

variable {ext : Ext} {calm : Prop} {α β : Type} {Q : List (Tarmac.Event sig) → α → Prop}

theorem Gives.mono {T : List (Tarmac.Event sig) → α → Prop} {m : TreeM α} (hm : Gives ext calm Q m)
    (h : ∀ tr a, Q tr a → T tr a) : Gives ext calm T m :=
  Eff.Returns.mono hm fun _ _ hx => ⟨hx.1, fun a ha => h _ a (hx.2 a ha)⟩

theorem Gives.pure {a : α} (h : Q [] a) : Gives ext calm Q (Pure.pure a) := by
  refine Eff.Returns.pure ⟨nofun, ?_⟩
  rintro a' ha
  cases ha
  exact h

/-- A program that throws, when a call may fail. -/
theorem Gives.throw {e : Err} (h : ¬calm) : Gives ext calm Q (Eff.throw e) :=
  Eff.Returns.throw ⟨fun _ _ => h, nofun⟩

theorem Gives.bind {P : List (Tarmac.Event sig) → β → Prop} {m : TreeM β} {f : β → TreeM α}
    (hm : Gives ext calm P m)
    (hf : ∀ tr b, P tr b → Gives ext calm (fun tr' a => Q (tr ++ tr') a) (f b)) :
    Gives ext calm Q (m >>= f) := by
  refine Eff.Returns.seq hm (fun tr b h => hf tr b (h.2 b rfl)) ?_
  intro tr e h
  exact ⟨fun _ _ => h.1 e rfl, nofun⟩

/-- A put returns the hash of what it puts. -/
theorem gives_put {tree : Bool} {d : Bytes} :
    Gives ext calm (fun tr id => id = ext.blake3 d ∧ WasPut ext tr d) (Cas.put tree d) := by
  refine Eff.Returns.perform fun r hr => ?_
  obtain ⟨hid, hsettled⟩ := hr
  refine Eff.Returns.ofExcept ⟨hsettled, fun id hok => ?_⟩
  have hr : r = .ok id := hok
  obtain rfl := hid id hr
  refine ⟨rfl, tree, ?_⟩
  rw [hr]
  exact .head _

/-- `meta_put` comes through. -/
theorem gives_metaPut {key val : Bytes} :
    Gives ext calm (fun _ _ => True) (Cas.metaPut key val) := by
  refine Eff.Returns.perform fun r hr => ?_
  exact Eff.Returns.ofExcept ⟨hr, fun _ _ => trivial⟩

theorem gives_metaDel {key : Bytes} : Gives ext calm (fun _ _ => True) (Cas.metaDel key) := by
  refine Eff.Returns.perform fun r hr => ?_
  exact Eff.Returns.ofExcept ⟨hr, fun _ _ => trivial⟩

theorem gives_metaScan {pre : Bytes} : Gives ext calm (fun _ _ => True) (Cas.metaScan pre) := by
  refine Eff.Returns.perform fun r hr => ?_
  exact Eff.Returns.ofExcept ⟨hr, fun _ _ => trivial⟩

theorem gives_casSync : Gives ext calm (fun _ _ => True) Cas.sync := by
  refine Eff.Returns.perform fun r hr => ?_
  exact Eff.Returns.ofExcept ⟨hr, fun _ _ => trivial⟩

theorem gives_nowNs : Gives ext calm (fun _ _ => True) nowNs :=
  fun _ _ _ => ⟨nofun, fun _ _ => trivial⟩

/-- `putTree` puts the encoding, if the entries fit. -/
theorem gives_putTree {es : List TreeEntry} (hfits : calm → ∀ e ∈ es, e.fits = true) :
    Gives ext calm (fun tr id => id = ext.blake3 (encodeTree es) ∧ WasPut ext tr (encodeTree es))
      (putTree es) := by
  unfold putTree
  split
  · exact gives_put
  · next hno => exact .throw fun hcalm => hno (List.all_eq_true.2 (hfits hcalm))

/-- `registerRoot` comes through. -/
theorem gives_registerRoot {root : Bytes} {tree : Bool} :
    Gives ext calm (fun _ _ => True) (registerRoot root tree) :=
  gives_nowNs.bind fun _ _ _ => gives_metaPut

theorem gives_writeTouches {touches : Pending} :
    Gives ext calm (fun _ _ => True) (writeTouches touches) := by
  induction touches with
  | nil => exact .pure trivial
  | cons touch touches ih => exact gives_metaPut.bind fun _ _ _ => ih

theorem gives_sync : Gives ext calm (fun _ _ => True) sync := by
  unfold sync flushTouches
  refine Gives.bind (P := fun _ _ => True) ?_ fun _ _ _ => gives_casSync
  refine Gives.bind (P := fun _ _ => True) (fun _ => ⟨nofun, fun _ _ => trivial⟩) fun _ _ _ => ?_
  refine Gives.bind (P := fun _ _ => True) (fun _ => ⟨nofun, fun _ _ => trivial⟩) fun _ _ _ => ?_
  exact gives_writeTouches

/-- What a call of a program answers. -/
theorem answered_amid {ok : Call → Sys → Choice → Prop} {p : Nat} {c : Call} {s s' : Sys} {r : c.Resp}
    (h : amid ext ok p c s r s') (hcalm : calm → ∀ c s ch, ok c s ch → unfailing c s ch) :
    Answered ext calm ⟨c, r⟩ := by
  obtain ⟨s₀, ch, hok, hx⟩ := h
  have hfail : calm → ch.fail = none := fun hc => hcalm hc _ _ _ hok
  have hwrite {β : Type} {a : β} {m : Model} {stages : List Model} {x : Except Err β × Sys}
      (hw : s₀.write p ch a m stages = some x) :
      x.1 = .ok a ∨ ∃ e, x.1 = .error e ∧ ch.fail ≠ none := by
    unfold Sys.write at hw
    split at hw
    · cases hw
    · split at hw
      · cases hw
        exact .inl rfl
      · next e he =>
        cases hw
        exact .inr ⟨e, rfl, by rw [he]; exact nofun⟩
  have hsettled {β : Type} {a : β} {x : Except Err β}
      (hx : x = .ok a ∨ ∃ e, x = .error e ∧ ch.fail ≠ none) : Settled calm x := by
    intro e he hc
    rcases hx with rfl | ⟨e', -, hne⟩
    · cases he
    · exact hne (hfail hc)
  have hread {β : Type} (a : β) : Settled calm (ch.read a) := by
    intro e he hc
    unfold Choice.read at he
    rw [hfail hc] at he
    cases he
  cases c with
  | put tree d =>
    obtain ⟨y, hy, heq⟩ := Option.map_eq_some_iff.1 hx
    cases heq
    refine ⟨?_, hsettled (hwrite hy)⟩
    intro id hid
    rcases hwrite hy with hok | ⟨e, he, -⟩
    · rw [hok] at hid
      exact (Except.ok.inj hid).symm
    · rw [he] at hid
      cases hid
  | metaPut key val => exact hsettled (hwrite hx)
  | metaDel key => exact hsettled (hwrite hx)
  | metaGet key =>
    cases hx
    exact hread _
  | metaScan pre =>
    cases hx
    exact hread _
  | sync =>
    have hx : (if (s₀.batch p).isSome then s₀.write p ch () (s₀.model p).sync [s₀.model p]
      else some (.ok (), s₀)) = some (show Except Err Unit from r, s') := hx
    split at hx
    · exact hsettled (hwrite hx)
    · cases hx
      exact hsettled (a := ()) (.inl rfl)
  | _ => trivial

/-- A run of a writer. -/
theorem Gives.run {Q : List (Tarmac.Event sig) → α → Prop} {m : TreeM α}
    {ok : Call → Sys → Choice → Prop} {p : Nat} {σ σ' : Pending} {s s' : Sys}
    {tr : List (Tarmac.Event sig)} {x : Except Err α} (hm : Gives ext calm Q m)
    (hcalm : calm → ∀ c s ch, ok c s ch → unfailing c s ch)
    (hr : Prog.Run (amid ext ok p) (m σ) s tr (x, σ') s') :
    Settled calm x ∧ ∀ a, x = .ok a → Q tr a :=
  Eff.Returns.run (fun _ _ _ _ h => answered_amid h hcalm) hr hm

/-- Some answer is possible to every call. -/
theorem exists_amid {p : Nat} (c : Call) (s : Sys) (_ : True) :
    ∃ r s', amid ext unfailing p c s r s' ∧ True := by
  have hwrite {β : Type} (a : β) (m : Model) (stages : List Model) :
      ∃ x, Sys.fresh.write p {} a m stages = some x := ⟨_, rfl⟩
  suffices h : ∃ x, exec ext p {} c Sys.fresh = some x by
    obtain ⟨⟨r, s'⟩, hx⟩ := h
    exact ⟨r, s', ⟨Sys.fresh, {}, rfl, hx⟩, trivial⟩
  cases c with
  | put tree d =>
    obtain ⟨x, hx⟩ := hwrite (ext.blake3 d) ((Sys.fresh.model p).put ext d)
      [Sys.fresh.model p, (Sys.fresh.model p).begin, (Sys.fresh.model p).putUncommitted ext d]
    unfold exec
    dsimp only
    rw [hx]
    exact ⟨_, rfl⟩
  | _ => exact ⟨_, rfl⟩

/-- What gives when no call fails returns then. -/
theorem Gives.returnsUnfailing {Q : List (Tarmac.Event sig) → α → Prop} {m : TreeM α}
    (hm : Gives ext True Q m) : ReturnsUnfailing ext m := by
  intro p σ s
  refine ⟨Prog.exists_run exists_amid (m σ) trivial, ?_⟩
  intro tr x σ' s' hr
  cases x with
  | ok a => exact ⟨a, rfl⟩
  | error e => exact absurd trivial ((hm.run (fun _ _ _ _ h => h) hr).1 e rfl)

/-- Nothing is said of what follows. -/
theorem gives_true {m : TreeM α} : Gives ext False (fun _ _ => True) m := by
  suffices h : ∀ m : Prog sig (Except Err α × Pending), m.Returns (Answered ext False)
      fun _ x => Settled False x.1 ∧ ∀ a, x.1 = .ok a → True from fun σ => h (m σ)
  intro m
  induction m with
  | ret a => exact ⟨fun _ _ => id, fun _ _ => trivial⟩
  | call c k ih => exact fun r _ => ih r

end

end Tarmac.Tree
