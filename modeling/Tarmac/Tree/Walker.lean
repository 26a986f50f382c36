import Tarmac.Lib.LowerBound
import Tarmac.Lib.Runs
import Tarmac.Tree.Collect
import Tarmac.Tree.Gives

/-!
# Looking up paths with a cache

`TreeWalker` of `src/tree.cpp`: `tree` reads a directory and keeps its entries, `lookup` walks a path
from directory to directory by bisection. `tree` makes the place in the cache before it reads, so a
read that fails leaves an empty directory there. `walker_faithful`: whatever calls are made, and
whichever of them fail, a call that ends answers what a plain search finds, as long as the search
passes no directory a read of which has failed before. `walker_forgets` is a run in which it does.
-/

namespace Tarmac.Tree

open PackCas

/-! ## The walker -/

/-- `cache_`. -/
abbrev Cache : Type := SortedMap Bytes (List TreeEntry)

/-- The programs of a `TreeWalker`: beside the touch queue of its store they have the cache. -/
abbrev WalkM (α : Type) : Type := Eff sig (Pending × Cache) Err α

/-- `TreeWalker::tree`. The place is made first and filled then. -/
def walkerTree (treeId : Bytes) : WalkM (List TreeEntry) := do
  let state ← Eff.get
  match state.2.find? treeId with
  | some entries => pure entries
  | none =>
    Eff.modify fun state => (state.1, state.2.insert treeId [])
    let entries ← (readTree treeId).onFst
    Eff.modify fun state => (state.1, state.2.insert treeId entries)
    pure entries

/-- The search of `lookup` in one directory. -/
def findEntry (comp : Bytes) (entries : List TreeEntry) : Option TreeEntry :=
  match lowerBound (fun e => decide (e.name < comp)) entries with
  | [] => none
  | found :: _ => if found.name ≠ comp then none else some found

/-- The loop of `lookup`; `none` stands for false. -/
def lookupComps : List Bytes → TreeEntry → WalkM (Option TreeEntry)
  | [], out => pure (some out)
  | comp :: comps, out =>
    if out.type ≠ .d then pure none
    else do
      let entries ← walkerTree out.id
      match findEntry comp entries with
      | none => pure none
      | some found => lookupComps comps found

/-- `TreeWalker::lookup`: the entry found, if it returns true. -/
def lookup (root path : Bytes) : WalkM (Option TreeEntry) :=
  match splitPath path with
  | none => pure none
  | some comps => lookupComps comps ⟨[], .d, root⟩

/-! ## The plain search -/

/-- The search component by component, each directory read where it is needed and its entries compared
one after the other; `read` is what reading a directory gives. -/
def searchComps (read : Bytes → Except Err (List TreeEntry)) :
    List Bytes → TreeEntry → Except Err (Option TreeEntry)
  | [], out => .ok (some out)
  | comp :: comps, out =>
    if out.type = .d then do
      let entries ← read out.id
      match entries.find? fun e => decide (e.name = comp) with
      | none => .ok none
      | some found => searchComps read comps found
    else .ok none

/-- The directories the search passes. -/
def passedComps (read : Bytes → Except Err (List TreeEntry)) : List Bytes → TreeEntry → List Bytes
  | [], _ => []
  | comp :: comps, out =>
    if out.type = .d then
      out.id :: match read out.id with
        | .error _ => []
        | .ok entries =>
          match entries.find? fun e => decide (e.name = comp) with
          | none => []
          | some found => passedComps read comps found
    else []

/-- A call on a walker. -/
inductive WalkCall where
  | tree (treeId : Bytes)
  | lookup (root path : Bytes)

namespace WalkCall

/-- What a call answers. -/
def Answer : WalkCall → Type
  | tree _ => List TreeEntry
  | lookup .. => Option TreeEntry

/-- The code of a call. -/
def code : (c : WalkCall) → WalkM c.Answer
  | tree treeId => walkerTree treeId
  | lookup root path => Tree.lookup root path

/-- What a walker without a cache answers. -/
def plain (read : Bytes → Except Err (List TreeEntry)) : (c : WalkCall) → Except Err c.Answer
  | tree treeId => read treeId
  | lookup root path =>
    match splitPath path with
    | none => .ok none
    | some comps => searchComps read comps ⟨[], .d, root⟩

/-- The directories that are read for it. -/
def passed (read : Bytes → Except Err (List TreeEntry)) : WalkCall → List Bytes
  | tree treeId => [treeId]
  | lookup root path =>
    match splitPath path with
    | none => []
    | some comps => passedComps read comps ⟨[], .d, root⟩

end WalkCall

/-! ## Runs -/

/-- Every object in the store is the one of `objects`; objects may be missing. -/
def Holds (objects : BlobMap) (p : Nat) (_ : Call) (s : Sys) (_ : Choice) : Prop :=
  ∀ id d, s.blobs p id = some d → objects id = some d

/-- The directory a call could not read: it failed, found nothing, or found what is no directory. -/
def unreadable : Tarmac.Event sig → Option Bytes
  | ⟨.get id, r⟩ =>
    match (show Except Err (Option Bytes) from r) with
    | .ok (some d) =>
      match decodeTree d with
      | .ok _ => none
      | .error _ => some id
    | _ => some id
  | _ => none

/-- The directories that could not be read. -/
def unread (tr : List (Tarmac.Event sig)) : List Bytes := tr.filterMap unreadable

/-- A walker: its private state, and the directories it could not read so far. -/
structure Walker where
  state : Pending × Cache
  failed : List Bytes

/-- A walker as it is created. -/
def Walker.create (queue : Pending) : Walker := ⟨(queue, .empty), []⟩

/-- A walker of the process `p` makes a call, with its answer. Before each access to the store other
processes can have done anything to it; any access can fail. -/
def WalkStep (ext : Ext) (objects : BlobMap) (p : Nat) (w : Walker)
    (l : Σ c : WalkCall, Except Err c.Answer) (w' : Walker) : Prop :=
  ∃ s s' tr, Prog.Run (amid ext (Holds objects p) p) (l.1.code w.state) s tr (l.2, w'.state) s' ∧
    w'.failed = unread tr ++ w.failed

/-- The call answers what a plain search finds, unless it throws. -/
def AnswersPlain (objects : BlobMap) (l : Σ c : WalkCall, Except Err c.Answer) : Prop :=
  ∀ a, l.2 = .ok a → l.1.plain (treeAt objects) = .ok a

/-- No read of a directory that the plain search passes has failed before. -/
def Unspoilt (objects : BlobMap) (w : Walker) (c : WalkCall) : Prop :=
  ∀ id ∈ c.passed (treeAt objects), id ∉ w.failed

/-! ## Bisection -/

/-- In sorted entries bisection finds what comparing them one after the other finds. -/
theorem findEntry_eq {es : List TreeEntry} (h : es.Pairwise fun a b => a.name < b.name) (comp : Bytes) :
    findEntry comp es = es.find? fun e => decide (e.name = comp) := by
  have hparts : Partitioned (fun e : TreeEntry => decide (e.name < comp)) es :=
    h.imp fun {a b} hab hb => by
      rw [decide_eq_true_eq] at hb ⊢
      exact lt_trans hab hb
  unfold findEntry
  rw [lowerBound_eq hparts]
  clear hparts
  induction es with
  | nil => rfl
  | cons e es ih =>
    obtain ⟨he, hes⟩ := List.pairwise_cons.1 h
    rw [List.dropWhile_cons, List.find?_cons]
    rcases lt_trichotomy e.name comp with hlt | heq | hgt
    · rw [if_pos (decide_eq_true hlt), decide_eq_false hlt.ne]
      exact ih hes
    · rw [if_neg (by simp [heq]), decide_eq_true heq]
      dsimp only
      rw [if_neg (not_not.2 heq)]
    · rw [if_neg (by simpa using hgt.le), decide_eq_false hgt.ne']
      dsimp only
      rw [if_pos hgt.ne', eq_comm, List.find?_eq_none]
      intro e' he'
      simpa using (hgt.trans (he e' he')).ne'

/-- The entries of a directory are sorted. -/
theorem treeAt_sorted {M : BlobMap} {id : Bytes} {es : List TreeEntry} (h : treeAt M id = .ok es) :
    es.Pairwise fun a b => a.name < b.name := by
  unfold treeAt at h
  split at h
  · cases h
  · split at h
    · cases h
    · exact (decodeTree_ok h).2.1.pairwise.1

/-! ## What the calls return -/

/-- The answers of a store that holds nothing but `objects`. -/
def Genuine (objects : BlobMap) : Tarmac.Event sig → Prop
  | ⟨.get id, r⟩ => ∀ d, r = .ok (some d) → id.length = kHashLen ∧ objects id = some d
  | _ => True

/-- An answer of the store is genuine. -/
theorem genuine_amid {ext : Ext} {objects : BlobMap} {p : Nat} {c : Call} {s s' : Sys} {r : c.Resp}
    (h : amid ext (Holds objects p) p c s r s') : Genuine objects ⟨c, r⟩ := by
  obtain ⟨s₀, ch, hok, hx⟩ := h
  cases c with
  | get id =>
    cases hx
    intro d hd
    unfold Choice.lookup at hd
    split at hd
    · cases hd
    · next hlen =>
      refine ⟨not_not.1 hlen, hok id d ?_⟩
      unfold Choice.read at hd
      split at hd
      · cases hd
      · exact Except.ok.inj hd
  | _ => trivial

/-- What the cache keeps: the entries of directories, and nothing for those that could not be read. -/
def Filled (objects : BlobMap) (failed : List Bytes) (cache : Cache) : Prop :=
  ∀ id es, cache.find? id = some es → treeAt objects id = .ok es ∨ id ∈ failed

section

variable {objects : BlobMap} {failed : List Bytes} {queue : Pending} {cache : Cache}

/-- A place is made or filled. -/
theorem Filled.insert {id : Bytes} {es : List TreeEntry} {failed' : List Bytes} {cache' : Cache}
    (h : Filled objects failed cache) (hsub : failed ⊆ failed')
    (hother : ∀ id', id ≠ id' → cache'.find? id' = cache.find? id')
    (hes : treeAt objects id = .ok es ∨ id ∈ failed') :
    Filled objects failed' (cache'.insert id es) := by
  intro id' es' hfind
  rw [SortedMap.find?_insert] at hfind
  split at hfind
  · next heq =>
    subst heq
    cases hfind
    exact hes
  · next hne =>
    rw [hother id' hne] at hfind
    exact (h id' es' hfind).imp_right fun hmem => hsub hmem

/-- A call ends in its answer. -/
theorem ends_ask {α : Type} {A : Tarmac.Event sig → Prop} {c : Call} {hc : c.Resp = Except Err α}
    {σ : Pending} : Eff.Ends A (fun tr x σ' => σ' = σ ∧
      ∃ r : c.Resp, tr = [⟨c, r⟩] ∧ A ⟨c, r⟩ ∧ x = hc ▸ r) (ask c hc) σ :=
  Eff.Ends.perform fun r hr => Eff.Ends.ofExcept ⟨rfl, r, rfl, hr, rfl⟩

/-- `readTree` returns the entries of the object, or could not read it. -/
theorem ends_readTree {id : Bytes} :
    Eff.Ends (Genuine objects) (fun tr x queue' => queue' = queue ∧
      ((∃ es, x = .ok es ∧ treeAt objects id = .ok es ∧ unread tr = []) ∨
        ∃ e, x = .error e ∧ unread tr = [id])) (readTree id) queue := by
  refine Eff.Ends.seq ends_ask ?_ ?_
  · rintro tr found _ ⟨rfl, r, rfl, hr, hfound⟩
    obtain rfl : r = .ok found := hfound.symm
    cases found with
    | none => exact Eff.Ends.throw ⟨rfl, .inr ⟨_, rfl, rfl⟩⟩
    | some d =>
      obtain ⟨hlen, hd⟩ := hr d rfl
      refine Eff.Ends.ofExcept ⟨rfl, ?_⟩
      cases hes : decodeTree d with
      | ok es =>
        refine .inl ⟨es, rfl, ?_, ?_⟩
        · unfold treeAt
          rw [if_neg (not_not.2 hlen), hd]
          exact hes
        · simp [unread, unreadable, hes]
      | error e =>
        refine .inr ⟨e, rfl, ?_⟩
        simp [unread, unreadable, hes]
  · rintro tr e _ ⟨rfl, r, rfl, -, hr⟩
    obtain rfl : r = .error e := hr.symm
    exact ⟨rfl, .inr ⟨e, rfl, rfl⟩⟩

/-- What a call on a walker ends in: the cache is as it should be, and an answer is the plain one. -/
def Plainly {α : Type} (objects : BlobMap) (failed : List Bytes) (a : Except Err α)
    (tr : List (Tarmac.Event sig)) (x : Except Err α) (state : Pending × Cache) : Prop :=
  Filled objects (unread tr ++ failed) state.2 ∧ ∀ b, x = .ok b → a = .ok b ∧ unread tr = []

/-- `tree` returns the entries of a directory no read of which has failed. -/
theorem ends_walkerTree {id : Bytes} (h : Filled objects failed cache) (hid : id ∉ failed) :
    Eff.Ends (Genuine objects) (Plainly objects failed (treeAt objects id)) (walkerTree id)
      (queue, cache) := by
  refine Eff.Ends.get ?_
  dsimp only
  cases hfind : cache.find? id with
  | some es =>
    refine Eff.Ends.pure ⟨h, fun es' hes => ?_⟩
    cases hes
    exact ⟨(h id es hfind).resolve_right hid, rfl⟩
  | none =>
    refine Eff.Ends.modify (Eff.Ends.seq (P := fun tr x state => state.2 = cache.insert id [] ∧
      ((∃ es, x = .ok es ∧ treeAt objects id = .ok es ∧ unread tr = []) ∨
        ∃ e, x = .error e ∧ unread tr = [id])) (.onFst (ends_readTree.mono ?_)) ?_ ?_)
    · rintro tr x _ ⟨rfl, hx⟩
      exact ⟨rfl, hx⟩
    · rintro tr es ⟨queue', _⟩ ⟨rfl, ⟨es', heq, hes, hnone⟩ | ⟨e, heq, -⟩⟩
      · cases heq
        refine Eff.Ends.modify (Eff.Ends.pure ?_)
        rw [List.append_nil]
        unfold Plainly
        rw [hnone]
        refine ⟨h.insert (fun _ hmem => hmem) ?_ (.inl hes), ?_⟩
        · exact fun id' hne => SortedMap.find?_insert_of_ne hne
        · rintro b hb
          cases hb
          exact ⟨hes, rfl⟩
      · cases heq
    · rintro tr e ⟨queue', _⟩ ⟨rfl, ⟨es', heq, -⟩ | ⟨e', heq, hfail⟩⟩
      · cases heq
      · unfold Plainly
        rw [hfail]
        refine ⟨h.insert (List.subset_append_right _ _) (fun _ _ => rfl) (.inr (.head _)), nofun⟩

/-- `lookup` finds what the plain search finds. -/
theorem ends_lookupComps {comps : List Bytes} {out : TreeEntry} (h : Filled objects failed cache)
    (hpassed : ∀ id ∈ passedComps (treeAt objects) comps out, id ∉ failed) :
    Eff.Ends (Genuine objects) (Plainly objects failed (searchComps (treeAt objects) comps out))
      (lookupComps comps out) (queue, cache) := by
  induction comps generalizing out queue cache with
  | nil =>
    refine Eff.Ends.pure ⟨h, fun b hb => ?_⟩
    cases hb
    exact ⟨rfl, rfl⟩
  | cons comp comps ih =>
    unfold lookupComps searchComps
    unfold passedComps at hpassed
    by_cases hd : out.type = .d
    · rw [if_neg (not_not.2 hd), if_pos hd]
      rw [if_pos hd] at hpassed
      refine Eff.Ends.seq (ends_walkerTree h (hpassed _ (.head _))) ?_ ?_
      · rintro tr es ⟨queue', cache'⟩ ⟨hfilled, hes⟩
        obtain ⟨hread, hnone⟩ := hes es rfl
        rw [hnone] at hfilled
        rw [hread] at hpassed ⊢
        rw [findEntry_eq (treeAt_sorted hread)]
        have hrest : ∀ {a : Except Err (Option TreeEntry)} {tr' x state},
            Plainly objects failed a tr' x state → Plainly objects failed a (tr ++ tr') x state := by
          intro a tr' x state hx
          unfold Plainly unread at hx ⊢
          rw [List.filterMap_append, show tr.filterMap unreadable = [] from hnone]
          exact hx
        have hdeeper : ∀ id ∈ (match es.find? fun e => decide (e.name = comp) with
            | none => []
            | some found => passedComps (treeAt objects) comps found), id ∉ failed :=
          fun id hid => hpassed id (.tail _ hid)
        show Eff.Ends _ (fun tr' x state => Plainly objects failed
          (match es.find? fun e => decide (e.name = comp) with
            | none => .ok none
            | some found => searchComps (treeAt objects) comps found) (tr ++ tr') x state) _ _
        cases hfind : es.find? fun e => decide (e.name = comp) with
        | none =>
          refine Eff.Ends.pure (hrest ⟨hfilled, fun b hb => ?_⟩)
          cases hb
          exact ⟨rfl, rfl⟩
        | some found =>
          rw [hfind] at hdeeper
          exact (ih hfilled hdeeper).mono fun _ _ _ => hrest
      · rintro tr e ⟨queue', cache'⟩ ⟨hfilled, -⟩
        exact ⟨hfilled, nofun⟩
    · rw [if_pos hd, if_neg hd]
      refine Eff.Ends.pure ⟨h, fun b hb => ?_⟩
      cases hb
      exact ⟨rfl, rfl⟩

/-- A call that passes no spoilt directory. -/
theorem WalkStep.plain {ext : Ext} {p : Nat} {w w' : Walker} {l : Σ c : WalkCall, Except Err c.Answer}
    (h : Filled objects w.failed w.state.2) (hstep : WalkStep ext objects p w l w')
    (hclear : Unspoilt objects w l.1) :
    Filled objects w'.failed w'.state.2 ∧ AnswersPlain objects l := by
  obtain ⟨⟨queue, cache⟩, failed⟩ := w
  obtain ⟨c, x⟩ := l
  obtain ⟨s, s', tr, hr, hfailed⟩ := hstep
  suffices hcode : Eff.Ends (Genuine objects)
      (Plainly objects failed (c.plain (treeAt objects))) c.code (queue, cache) by
    obtain ⟨hfilled, hanswer⟩ := hcode.run (fun _ _ _ _ => genuine_amid) hr
    rw [hfailed]
    exact ⟨hfilled, fun a ha => (hanswer a ha).1⟩
  cases c with
  | tree treeId => exact ends_walkerTree h (hclear _ (.head _))
  | lookup root path =>
    unfold Unspoilt WalkCall.passed at hclear
    unfold WalkCall.code WalkCall.plain Tree.lookup
    dsimp only at hclear ⊢
    cases hsplit : splitPath path with
    | none =>
      refine Eff.Ends.pure ⟨h, fun b hb => ?_⟩
      cases hb
      exact ⟨rfl, rfl⟩
    | some comps =>
      rw [hsplit] at hclear
      exact ends_lookupComps h hclear

end

/-- Whatever the calls on a walker are, and whichever accesses to the store fail, every call throws or
answers what a plain search finds, if in each call the search passes no directory a read of which has
failed in an earlier call. -/
theorem walker_faithful {ext : Ext} {objects : BlobMap} {p : Nat} {queue : Pending} {w : Walker}
    {ls : List (Σ c : WalkCall, Except Err c.Answer)}
    (hr : Runs (fun w l w' => WalkStep ext objects p w l w' ∧ Unspoilt objects w l.1)
      (.create queue) ls w) : ∀ l ∈ ls, AnswersPlain objects l := by
  refine (hr.history (I := fun ls w => Filled objects w.failed w.state.2 ∧
    ∀ l ∈ ls, AnswersPlain objects l) ?_ ⟨nofun, nofun⟩).2
  rintro ls l w₁ w₂ ⟨hfilled, hall⟩ ⟨hstep, hclear⟩
  obtain ⟨hfilled', hl⟩ := hstep.plain hfilled hclear
  refine ⟨hfilled', fun l' hl' => ?_⟩
  rcases List.mem_append.1 hl' with hl' | hl'
  · exact hall l' hl'
  · exact List.mem_singleton.1 hl' ▸ hl

/-! ## Sample runs -/

/-- The id of a directory with one file. -/
def sampleDir : Bytes := List.replicate kHashLen 1

/-- The entries of the directory. -/
def sampleEntries : List TreeEntry := [⟨ascii ['f'], .leaf .r, List.replicate kHashLen 2⟩]

/-- The object of the directory. -/
def sampleObjects : BlobMap := fun id => if id = sampleDir then some (encodeTree sampleEntries) else none

/-- A store with that object. -/
def sampleStore : Sys := { Sys.fresh with committed := ⟨sampleObjects, .empty, 0⟩ }

/-- A call evaluated in that store. -/
def walkEval (chs : List Choice) (w : Walker) (c : WalkCall) : Option (Except Err c.Answer × Walker) :=
  ((c.code w.state).eval (fun ch call _ => exec .sample 0 ch call sampleStore) chs sampleStore).map
    fun y => (y.2.1.1, ⟨y.2.1.2, unread y.1 ++ w.failed⟩)

/-- An evaluation is a call of the walker. -/
theorem walkStep_of_eval {chs : List Choice} {w w' : Walker} {c : WalkCall} {x : Except Err c.Answer}
    (h : walkEval chs w c = some (x, w')) : WalkStep .sample sampleObjects 0 w ⟨c, x⟩ w' := by
  obtain ⟨⟨tr, ⟨x', state⟩, s⟩, heval, heq⟩ := Option.map_eq_some_iff.1 h
  cases heq
  refine ⟨sampleStore, s, tr, Prog.run_of_eval ?_ heval, rfl⟩
  intro ch call s₁ r s₂ hx
  exact ⟨sampleStore, ch, fun id d hd => hd, hx⟩

/-- A directory is missing, and then a file is found in another one. -/
theorem walker_faithful_sample : ∃ (w : Walker) (x : Except Err (List TreeEntry))
    (ls : List (Σ c : WalkCall, Except Err c.Answer)),
    ls = [⟨.tree (List.replicate kHashLen 3), x⟩,
      ⟨.lookup sampleDir (ascii ['/', 'f']), .ok sampleEntries.head?⟩] ∧
    Runs (fun w l w' => WalkStep .sample sampleObjects 0 w l w' ∧ Unspoilt sampleObjects w l.1)
      (.create []) ls w ∧ ∀ l ∈ ls, AnswersPlain sampleObjects l := by
  have heval : ((walkEval [{}] (.create []) (.tree (List.replicate kHashLen 3))).bind fun y =>
      (walkEval [{}] y.2 (.lookup sampleDir (ascii ['/', 'f']))).map fun y' =>
        (y.2.failed, show Except Err (Option TreeEntry) from y'.1)) =
      some ([List.replicate kHashLen 3], .ok sampleEntries.head?) := by
    decide +kernel
  obtain ⟨⟨x₁, w₁⟩, h₁, hmap⟩ := Option.bind_eq_some_iff.1 heval
  obtain ⟨⟨x₂, w₂⟩, h₂, heq⟩ := Option.map_eq_some_iff.1 hmap
  obtain ⟨hfailed, rfl⟩ := Prod.mk.inj heq
  have hclear : Unspoilt sampleObjects w₁ (.lookup sampleDir (ascii ['/', 'f'])) := by
    unfold Unspoilt
    rw [show w₁.failed = [List.replicate kHashLen 3] from hfailed]
    decide +kernel
  have hr : Runs (fun w l w' => WalkStep .sample sampleObjects 0 w l w' ∧
      Unspoilt sampleObjects w l.1) (.create []) _ w₂ :=
    .cons ⟨walkStep_of_eval h₁, fun _ _ => List.not_mem_nil⟩
      (.cons ⟨walkStep_of_eval h₂, hclear⟩ .nil)
  exact ⟨w₂, x₁, _, rfl, hr, walker_faithful hr⟩

/-- A read fails, then the same directory is empty. -/
theorem walker_forgets : ¬∀ (ext : Ext) (objects : BlobMap) (p : Nat) (queue : Pending) (w : Walker)
    (ls : List (Σ c : WalkCall, Except Err c.Answer)),
    Runs (WalkStep ext objects p) (.create queue) ls w → ∀ l ∈ ls, AnswersPlain objects l := by
  intro hall
  have heval : ((walkEval [{ fail := some (.sys "pread") }] (.create []) (.tree sampleDir)).bind
      fun y => (walkEval [] y.2 (.tree sampleDir)).map fun y =>
        (show Except Err (List TreeEntry) from y.1)) = some (.ok []) := by
    decide +kernel
  obtain ⟨⟨x₁, w₁⟩, h₁, hmap⟩ := Option.bind_eq_some_iff.1 heval
  obtain ⟨⟨x₂, w₂⟩, h₂, rfl⟩ := Option.map_eq_some_iff.1 hmap
  have hplain := hall .sample sampleObjects 0 [] w₂ _
    (.cons (walkStep_of_eval h₁) (.cons (walkStep_of_eval h₂) .nil)) ⟨.tree sampleDir, .ok []⟩
    (.tail _ (.head _)) [] rfl
  have hentries : treeAt sampleObjects sampleDir = .ok sampleEntries := by decide +kernel
  cases hentries.symm.trans hplain

end Tarmac.Tree
