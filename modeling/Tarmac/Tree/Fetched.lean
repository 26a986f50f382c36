import Tarmac.Lib.Leads
import Tarmac.Tree.Filed

/-!
# What the fetcher vouches for

A fetched input is locked by the hash of a NAR. The root and the hash come from one of three places:
an archive that was just ingested, Nix's cache while the root is still in the store, or the cache after
the server said that nothing has changed. Meanwhile other processes fetch, collect garbage and are
killed, and the servers answer what they please.

Whatever happens, what is returned or cached for a URL is what a single answer to a request for that
URL comes to (`Givens.InfoOk`): the root is that of the tree the archive unpacks to, without a single
directory at its top, and the hash is that of the dump of this tree. Nothing is said of the store in
that; whoever has the tree under the root in full has the tree that was hashed (`fetch_attested`).
-/

namespace Tarmac.Tree

open PackCas

section

variable {ext : Ext} {S : Bytes → Prop} {α : Type}

/-- What a call finds was put. -/
theorem exec_reads {p : Nat} {ch : Choice} {s s' : Sys} {c : Call} {r : c.Resp} {M : BlobMap}
    (hM : Grows (s.model p).view.blobs M) (hx : exec ext p ch c s = some (r, s')) : ReadsOf M ⟨c, r⟩ := by
  cases c with
  | get id | getView id =>
    cases hx
    intro d hd
    exact hM _ _ (Choice.lookup_ok hd).symm
  | put | size | has | sync | compact | metaPut | metaGet | metaDel | metaScan | now => trivial

/-- A call that puts only what it may keeps blobs filed under their hashes. -/
theorem keptBy_indexed {c : Call} (hput : ∀ tree d, c = .put tree d → S d) :
    KeptBy ext (fun st => Indexed ext S st.blobs) c where
  put tree d _ hc h := h.add (hput tree d hc)
  record _ _ _ _ h := h
  delete _ _ h := h
  sweep _ _ h := h.restrict

/-- In a new directory nothing is filed. -/
theorem indexed_fresh : Everywhere (fun st => Indexed ext S st.blobs) .fresh := by
  refine fun p => ⟨fun id d h => ?_, fun id d h => ?_⟩
  all_goals cases h

/-- What holds everywhere holds everywhere after a run. -/
theorem Everywhere.run {T : Store → Prop} {ok : Call → Sys → Choice → Prop} {p : Nat} {s s' : Sys}
    {m : Prog Tree.sig α} {tr : List (Tarmac.Event Tree.sig)} {a : α} (h : Everywhere T s)
    (hkept : ∀ c s ch, ok c s ch → KeptBy ext T c) (hr : Prog.Run (sem ext ok p) m s tr a s') :
    Everywhere T s' := by
  induction hr with
  | ret => exact h
  | call hs _ ih =>
    obtain ⟨ch, hch, hx⟩ := hs
    exact ih (h.exec (hkept _ _ ch hch) hx)

/-- An access to the cache fails and changes nothing, or does what it is for. -/
theorem FetchChoice.access_cases (ch : FetchChoice) (a : α) (v v' : FetchCache) :
    (∃ e, ch.access a v v' = (.error e, v)) ∨ ch.access a v v' = (.ok a, v') := by
  unfold FetchChoice.access
  split
  · exact .inr rfl
  · next e _ => exact .inl ⟨e, rfl⟩

/-- The id that a put returns. -/
theorem exec_put_ok {p : Nat} {ch : Choice} {s s' : Sys} {tree : Bool} {d id : Bytes}
    {r : (Call.put tree d).Resp} (hx : exec ext p ch (.put tree d) s = some (r, s'))
    (hr : (show Except Err Bytes from r) = .ok id) : id = ext.blake3 d := by
  have hsem : amid ext (fun _ _ _ => True) p (.put tree d) s r s' := ⟨s, ch, trivial, hx⟩
  have hanswered : Answered ext False ⟨.put tree d, r⟩ := answered_amid hsem fun h => h.elim
  exact hanswered.1 id hr

end

/-- A request, with its answer. -/
def requestOf : Tarmac.Event (sig.sum fetchSig) → Option (Bytes × Option Bytes × Transfer)
  | ⟨.inr (.download url etag), transfer⟩ => some (url, etag, transfer)
  | _ => none

/-- The requests among the calls. -/
def requests (tr : FetchTrace) : List (Bytes × Option Bytes × Transfer) := tr.filterMap requestOf

/-- The requests of two traces. -/
@[simp] theorem requests_append (tr tr' : FetchTrace) :
    requests (tr ++ tr') = requests tr ++ requests tr' := List.filterMap_append

/-- The store makes no requests. -/
theorem requests_inl (tr : List (Tarmac.Event sig)) : requests (tr.map (Event.inl fetchSig)) = [] := by
  unfold requests
  rw [List.filterMap_map]
  exact List.filterMap_eq_nil_iff.2 fun _ _ => rfl

/-- The root was found in the store. -/
def Found (tr : FetchTrace) (root : Bytes) : Prop :=
  (⟨.inl (.has root), .ok true⟩ : Tarmac.Event (sig.sum fetchSig)) ∈ tr

/-- Nix's cache has returned a result. -/
def LookedUp (tr : FetchTrace) (url : Bytes) (result : CacheResult) : Prop :=
  (⟨.inr (.lookupExpired url), .ok (some result)⟩ : Tarmac.Event (sig.sum fetchSig)) ∈ tr

/-- What the processes go by: what Nix and OpenSSL compute, the objects that are put, and what the
servers answer to requests for a URL. -/
structure Givens where
  ext : Ext
  nix : Nix
  sha : Bytes → Bytes
  objects : Bytes → Prop
  served : Bytes → Transfer → Prop

namespace Givens

/-- Objects do not collide, and OpenSSL computes SHA-256. -/
structure Sound (G : Givens) : Prop where
  lawful : G.ext.Lawful
  noCollision : NoCollision G.ext G.objects
  computes : G.nix.evp.Computes G.sha

/-- The environment keeps to what is given. -/
structure Admits (G : Givens) (ok : Nat → (sig.sum fetchSig).Call → Sys × FetchCache → FetchChoice → Prop) :
    Prop where
  put : ∀ p tree d w ch, ok p (.inl (.put tree d)) w ch → G.objects d
  download : ∀ p url etag w ch, ok p (.inr (.download url etag)) w ch → G.served url ch.transfer

variable (G : Givens)

/-- The objects there are. -/
noncomputable def index : BlobMap := filed G.ext G.objects

/-- The hash that locks a file tree. -/
def narHash (file : FsNode) : Bytes := G.nix.sri (toHex (G.sha file.nar))

/-- The hash is that of the dump of the tree under the root. -/
def Attested (root hash : Bytes) : Prop :=
  ∃ file, Denotes G.index file (.d, root) ∧ FsNode.Within kMaxTreeDepth file ∧ hash = G.narHash file

/-- The root and the hash are those of the archive in the answer. -/
def Comes (transfer : Transfer) (root hash : Bytes) : Prop :=
  ∃ arc file, transfer.archive = .ok arc ∧ Unpacks arc file ∧ (.d, root) = file.stripTop.ref G.ext ∧
    Denotes G.index file.stripTop (.d, root) ∧ hash = G.narHash file.stripTop

/-- A result for a URL is what an answer to a request for it comes to. -/
def InfoOk (url : Bytes) (info : Attrs) : Prop :=
  ∃ transfer root hash, G.served url transfer ∧ G.Comes transfer root hash ∧
    info = fetchedInfo transfer root hash

/-- A fetch hands out what the answer to a request for its URL comes to. -/
structure LockedTo (input : Attrs) (res : Bytes × Attrs) (url : Bytes) (transfer : Transfer)
    (hash : Bytes) : Prop where
  url_eq : getStrAttr input attrUrl = .ok url
  served : G.served url transfer
  comes : G.Comes transfer res.1 hash
  locked : ∃ input', lockedInput G.nix (fetchedInfo transfer res.1 hash) input = .ok input' ∧
    res.2 = input'.insert attrNarHash (.str hash)

/-- What the processes uphold: objects are filed under their hashes, and what is cached is vouched
for. -/
structure Honest (w : Sys × FetchCache) : Prop where
  indexed : Everywhere (fun st => Indexed G.ext G.objects st.blobs) w.1
  results : ∀ url info, w.2.results.find? url = some info → G.InfoOk url info
  hashes : ∀ root hash, w.2.hashes.find? root = some hash → G.Attested root hash

/-- The calls that keep to that. -/
def Vouches : (sig.sum fetchSig).Call → Prop
  | .inr (.upsert url info) => G.InfoOk url info
  | .inr (.upsertHash root hash) => G.Attested root hash
  | _ => True

/-- A put returns the hash of an object. -/
def PutsObject : Tarmac.Event sig → Prop
  | ⟨.put _ d, r⟩ => ∀ id, (show Except Err Bytes from r) = .ok id → id = G.ext.blake3 d ∧ G.objects d
  | _ => True

/-- The answers one gets then. -/
def Trusted : Tarmac.Event (sig.sum fetchSig) → Prop
  | ⟨.inl c, r⟩ => ReadsOf G.index ⟨c, r⟩ ∧ G.PutsObject ⟨c, r⟩
  | ⟨.inr (.lookupExpired url), r⟩ => ∀ result, (show Except Err (Option CacheResult) from r) =
      .ok (some result) → G.InfoOk url result.value
  | ⟨.inr (.download url _), r⟩ => G.served url r
  | _ => True

/-- The program only makes calls that vouch for what they may, and if it returns, the calls it has made
and what it returns satisfy `P`. -/
def Vouching {α : Type} (P : FetchTrace → α → Prop) (m : FetchM α) : Prop :=
  ∀ σ, Eff.Upholds G.Vouches G.Trusted (fun tr x _ => ∀ a, x = .ok a → P tr a) m σ

variable {G} {α β : Type} {P : FetchTrace → α → Prop}
  {Q : FetchTrace → β → Prop} {cfg : Config} {fuel : Nat}

/-- A result that came from an answer is attested. -/
theorem Comes.attested {transfer : Transfer} {root hash : Bytes} (h : G.Comes transfer root hash) :
    G.Attested root hash := by
  obtain ⟨arc, file, -, hu, -, hfile, hhash⟩ := h
  obtain ⟨hk, ho, hn⟩ := hu.formed
  exact ⟨_, hfile, (FsNode.stripTop_part G.ext ho hn hk).2.2.1, hhash⟩

/-- A root has one hash. -/
theorem Attested.unique {root hash hash' : Bytes} (h : G.Attested root hash)
    (h' : G.Attested root hash') : hash = hash' := by
  obtain ⟨file, hfile, -, rfl⟩ := h
  obtain ⟨file', hfile', -, rfl⟩ := h'
  rw [hfile.unique hfile']

/-- Whoever has the tree in full has the tree that was hashed. -/
theorem Attested.dumps {root hash : Bytes} {p : Nat} {s : Sys} (hG : G.Sound) (h : G.Attested root hash)
    (hM : Indexed G.ext G.objects (s.blobs p)) (hw : Whole (s.blobs p) (.d, root)) :
    ∃ file, Denotes (s.blobs p) file (.d, root) ∧ DumpsTo G.ext p s root file.nar ∧
      hash = G.narHash file := by
  obtain ⟨file, hfile, hin, hhash⟩ := h
  have hfile' := hfile.of_whole (hM.filed hG.noCollision) hin hw
  exact ⟨file, hfile', hfile'.dumps (hM.keyed hG.lawful) hin, hhash⟩

/-! ## The code -/

theorem Vouching.bind {m : FetchM α} {f : α → FetchM β} (hm : G.Vouching P m)
    (hf : ∀ tr a, P tr a → G.Vouching (fun tr' => Q (tr ++ tr')) (f a)) : G.Vouching Q (m >>= f) :=
  fun σ => Eff.Upholds.seq (hm σ) (fun tr a σ' h => hf tr a (h a rfl) σ') fun _ _ _ _ _ hb => by cases hb

theorem Vouching.pure {b : β} (h : Q [] b) : G.Vouching Q (Pure.pure b) :=
  fun _ => Eff.Upholds.pure fun _ hb => Except.ok.inj hb ▸ h

theorem Vouching.ofExcept {x : Except Err α} {f : α → FetchM β}
    (h : ∀ a, x = .ok a → G.Vouching Q (f a)) : G.Vouching Q (Eff.ofExcept x >>= f) := by
  cases x with
  | ok a => exact h a rfl
  | error e => exact fun _ => Eff.Upholds.throw fun _ hb => by cases hb

theorem Vouching.mono {P' : FetchTrace → α → Prop} {m : FetchM α}
    (hm : G.Vouching P m) (h : ∀ tr a, P tr a → P' tr a) : G.Vouching P' m :=
  fun σ => (hm σ).mono fun _ _ _ hx a ha => h _ a (hx a ha)

/-- A program of the store that reads. -/
theorem vouching_onStore {R : α → Prop} {m : TreeM α} (hm : Yielding G.index R m) :
    G.Vouching (fun tr a => requests tr = [] ∧ R a) (onStore m) := by
  intro σ
  refine (Prog.Upholds.inl (fun _ _ => trivial) (fun _ h => h.1) (hm σ).upholds).mono ?_
  rintro _ x ⟨tr, rfl, hx⟩ a ha
  exact ⟨requests_inl tr, hx a ha⟩

/-- A program of the store that puts. -/
theorem vouching_gives {m : TreeM α} {R : List (Tarmac.Event sig) → α → Prop}
    (hm : Gives G.ext False R m) :
    G.Vouching (fun tr a => requests tr = [] ∧
      ∃ tr₀, (∀ d, WasPut G.ext tr₀ d → G.objects d) ∧ R tr₀ a) (onStore m) := by
  intro σ
  have hanswered (e : Tarmac.Event sig) (h : G.PutsObject e) : Answered G.ext False e := by
    obtain ⟨c, r⟩ := e
    cases c with
    | put => exact ⟨fun id hid => (h id hid).1, fun _ _ h => h⟩
    | metaPut | metaDel | metaGet | metaScan | sync => exact fun _ _ h => h
    | get | getView | size | has | compact | now => trivial
  have hreturns := ((hm σ).anti hanswered).answered
  refine (Prog.Upholds.inl (fun _ _ => trivial) (fun _ h => h.2) hreturns.upholds).mono ?_
  rintro _ x ⟨tr, rfl, htr, hx⟩ a ha
  refine ⟨requests_inl tr, tr, ?_, hx.2 a ha⟩
  rintro d ⟨tree, hmem⟩
  exact (htr _ hmem _ rfl).2

/-- A cached result that a fetch goes on with: its root is in the store. -/
def Kept (G : Givens) (url : Bytes) (tr : FetchTrace) (cached : Option CacheResult) : Prop :=
  requests tr = [] ∧ ∀ result, cached = some result → LookedUp tr url result ∧
    ∃ transfer root hash, G.served url transfer ∧ G.Comes transfer root hash ∧
      result.value = fetchedInfo transfer root hash ∧ Found tr root

/-- What `download` returns: what its answer comes to, or the cached result when the server has
confirmed it. -/
def Downloaded (G : Givens) (url : Bytes) (cached : Option CacheResult) (tr : FetchTrace)
    (info : Attrs) : Prop :=
  (∃ etag transfer root hash, requests tr = [(url, etag, transfer)] ∧ G.served url transfer ∧
    G.Comes transfer root hash ∧ info = fetchedInfo transfer root hash) ∨
  ∃ result etag transfer, cached = some result ∧ getStrAttr result.value attrEtag = .ok etag ∧
    requests tr = [(url, some etag, transfer)] ∧ transfer.cached = true ∧ info = result.value

/-- What the cache returns for a URL is vouched for. -/
theorem vouching_lookupExpired {url : Bytes} :
    G.Vouching (fun tr found => requests tr = [] ∧ ∀ result, found = some result →
      LookedUp tr url result ∧ G.InfoOk url result.value) (lookupExpired url) := by
  intro σ
  refine Eff.Upholds.perform trivial fun r hr => Eff.Upholds.ofExcept ?_
  intro found hfound
  obtain rfl : r = .ok found := hfound
  refine ⟨rfl, ?_⟩
  rintro result rfl
  exact ⟨List.mem_singleton_self _, hr result rfl⟩

/-- The cache may be given a result that is. -/
theorem vouching_upsert {url : Bytes} {info : Attrs} (h : G.InfoOk url info) :
    G.Vouching (fun tr _ => requests tr = []) (upsert url info) :=
  fun _ => Eff.Upholds.perform h fun _ _ => Eff.Upholds.ofExcept fun _ _ => rfl

/-- And a hash that is attested. -/
theorem vouching_upsertHash {root hash : Bytes} (h : G.Attested root hash) :
    G.Vouching (fun tr _ => requests tr = []) (upsertHash root hash) :=
  fun _ => Eff.Upholds.perform h fun _ _ => Eff.Upholds.ofExcept fun _ _ => rfl

/-- A request, and the answer to it. -/
theorem vouching_request {url : Bytes} {etag : Option Bytes} :
    G.Vouching (fun tr transfer => requests tr = [(url, etag, transfer)] ∧ G.served url transfer)
      (request url etag) := by
  intro σ
  refine ⟨trivial, fun r hr => ?_⟩
  rintro _ ⟨⟩
  exact ⟨rfl, hr⟩

/-- `hasTree` makes no request, and looks for the root. -/
theorem upholds_hasTree {root : Bytes} {σ : Pending} :
    Eff.Upholds G.Vouches G.Trusted (fun tr x _ => requests tr = [] ∧ (x = .ok true → Found tr root))
      (onStore (hasTree root)) σ := by
  refine ⟨trivial, fun r _ => ?_⟩
  cases r with
  | ok present =>
    refine ⟨rfl, fun h => ?_⟩
    obtain rfl : present = true := Except.ok.inj h
    exact List.mem_singleton_self _
  | error e => exact ⟨rfl, fun h => by cases h⟩

/-- The check of the cached root drops a result whose tree is gone. -/
theorem vouching_checkCached {url : Bytes} {tr₀ : FetchTrace} {cached : Option CacheResult}
    (hreq : requests tr₀ = [])
    (h : ∀ result, cached = some result → LookedUp tr₀ url result ∧ G.InfoOk url result.value) :
    G.Vouching (fun tr => G.Kept url (tr₀ ++ tr)) (checkCached cached) := by
  have hnone {tr : FetchTrace} (htr : requests tr = []) : G.Kept url (tr₀ ++ tr) none := by
    refine ⟨by rw [requests_append, hreq, htr]; rfl, ?_⟩
    rintro result ⟨⟩
  unfold checkCached
  cases cached with
  | none => exact .pure (hnone rfl)
  | some result =>
    obtain ⟨hlooked, transfer, root, hash, hserved, hcomes, hvalue⟩ := h result rfl
    have htry (σ : Pending) : Eff.Upholds G.Vouches G.Trusted (fun tr x _ => requests tr = [] ∧
        ∀ kept, x = .ok kept → G.Kept url (tr₀ ++ tr) kept)
        (onStore (hasTree root) >>= fun present => pure (if present then some result else none)) σ := by
      refine Eff.Upholds.seq upholds_hasTree ?_ ?_
      · rintro tr present σ' ⟨htr, hfound⟩
        refine Eff.Upholds.pure ⟨by rw [requests_append, htr]; rfl, ?_⟩
        rintro _ ⟨⟩
        rw [List.append_nil]
        cases present with
        | false => exact hnone htr
        | true =>
          refine ⟨by rw [requests_append, hreq, htr]; rfl, ?_⟩
          rintro _ ⟨⟩
          exact ⟨List.mem_append_left _ hlooked, transfer, root, hash, hserved, hcomes, hvalue,
            List.mem_append_right _ (hfound rfl)⟩
      · rintro tr e σ' ⟨htr, -⟩
        refine ⟨htr, ?_⟩
        rintro kept ⟨⟩
    have hprog : (do
        let hex ← Eff.ofExcept (getStrAttr result.value attrRoot)
        let root ← Eff.ofExcept (fromHex hex)
        let present ← onStore (hasTree root)
        pure (if present then some result else none) : FetchM (Option CacheResult)) =
        onStore (hasTree root) >>= fun present => pure (if present then some result else none) := by
      rw [hvalue, getStrAttr_eq fetchedInfo_root.1]
      show (Eff.ofExcept (fromHex (toHex root)) >>= _) = _
      rw [fromHex_toHex]
      rfl
    dsimp only
    rw [hprog]
    intro σ
    refine Eff.Upholds.catchIf (htry σ) ?_ ?_ ?_
    · rintro tr kept σ' ⟨-, hkept⟩ a ha
      exact hkept a ha
    · rintro tr e σ' ⟨htr, -⟩ -
      refine Eff.Upholds.perform trivial fun _ _ => Eff.Upholds.pure ?_
      rintro _ ⟨⟩
      exact hnone (by rw [requests_append, htr]; rfl)
    · rintro tr e σ' - - a ⟨⟩

/-- What is stored of an archive. -/
theorem vouching_ingest (hG : G.Sound) {arc : Archive} :
    G.Vouching (fun tr res => requests tr = [] ∧ ∃ file, Unpacks arc file ∧ (.d, res.1) = file.ref G.ext ∧
      ∀ d ∈ file.objects G.ext, G.index (G.ext.blake3 d) = some d)
      (onStore (ingestArchive cfg fuel arc)) := by
  refine (vouching_gives (gives_ingestArchive hG.lawful arc cfg fuel)).mono ?_
  rintro tr res ⟨hreq, tr₀, hput, file, hu, href, hobj⟩
  exact ⟨hreq, file, hu, href, fun d hd => (filed_eq_some hG.noCollision).2 ⟨hput d (hobj d hd), rfl⟩⟩

/-- The second half of `download`, once the archive is ingested. -/
theorem vouching_hashed (hG : G.Sound) {transfer : Transfer} {root : Bytes} {arc : Archive} {file : FsNode}
    (harc : transfer.archive = .ok arc) (hu : Unpacks arc file)
    (href : (.d, root) = file.stripTop.ref G.ext) (hfile : Denotes G.index file.stripTop (.d, root)) :
    G.Vouching (fun tr info => requests tr = [] ∧ ∃ hash, G.Comes transfer root hash ∧
      info = fetchedInfo transfer root hash) (download.hashed G.nix transfer root) := by
  unfold download.hashed
  refine Vouching.bind (vouching_onStore (yielding_narSha256 hG.computes root)) ?_
  rintro tr ⟨digest, size⟩ ⟨htr, file', hfile', -, hdigest⟩
  obtain rfl : digest = G.sha file'.nar := hdigest
  obtain rfl := hfile.unique hfile'
  have hcomes : G.Comes transfer root (G.narHash file.stripTop) := ⟨arc, file, harc, hu, href, hfile, rfl⟩
  refine (vouching_upsertHash hcomes.attested).bind fun tr' _ htr' => .pure ⟨?_, _, hcomes, rfl⟩
  rw [requests_append, requests_append, htr, htr']
  rfl

/-- `download` makes one request, and returns what came of it. -/
theorem vouching_download (hG : G.Sound) {url : Bytes} {cached : Option CacheResult} :
    G.Vouching (G.Downloaded url cached) (download G.nix cfg fuel url cached) := by
  unfold download
  refine Vouching.ofExcept fun etag hetag => ?_
  refine vouching_request.bind ?_
  rintro tr₁ transfer ⟨htr₁, hserved⟩
  refine Vouching.ofExcept fun arc harc => ?_
  have harc : transfer.archive = .ok arc := by
    unfold openArchive at harc
    split at harc
    · next heq => rw [heq, Except.ok.inj harc]
    · cases harc
  refine (vouching_ingest hG).bind ?_
  rintro tr₂ ⟨top, files⟩ ⟨htr₂, file, hu, href, hobj⟩
  obtain ⟨hk, ho, hn⟩ := hu.formed
  have hself : G.index top = some (file.object G.ext) := by
    have hid : top = G.ext.blake3 (file.object G.ext) := congrArg Prod.snd href
    rw [hid]
    exact hobj _ file.object_mem
  refine (vouching_onStore (yielding_stripTop hG.lawful ho hn href hself)).bind ?_
  rintro tr₃ root ⟨htr₃, hroot⟩
  obtain ⟨ho', hn', -, hpart⟩ := FsNode.stripTop_part G.ext ho hn hk
  have hfile : Denotes G.index file.stripTop (.d, root) := by
    rw [hroot]
    exact FsNode.denotes_objects hG.lawful _ ho' hn' fun d hd => hobj d (hpart d hd)
  have hreq {tr : FetchTrace} (htr : requests tr = []) :
      requests (tr₁ ++ (tr₂ ++ (tr₃ ++ tr))) = [(url, etag, transfer)] := by
    rw [requests_append, requests_append, requests_append, htr₁, htr₂, htr₃, htr]
    rfl
  have hhashed : G.Vouching (fun tr => G.Downloaded url cached (tr₁ ++ (tr₂ ++ (tr₃ ++ tr))))
      (download.hashed G.nix transfer root) := by
    refine (vouching_hashed hG harc hu hroot hfile).mono ?_
    rintro tr info ⟨htr, hash, hcomes, hinfo⟩
    exact .inl ⟨etag, transfer, root, hash, hreq htr, hserved, hcomes, hinfo⟩
  cases cached with
  | none => exact hhashed
  | some result =>
    dsimp only
    split
    · next hcached =>
      dsimp only at hetag
      cases hsent : getStrAttr result.value attrEtag with
      | ok sent =>
        rw [hsent] at hetag
        cases hetag
        exact .pure (.inr ⟨result, sent, transfer, rfl, hsent, hreq rfl, hcached, rfl⟩)
      | error e =>
        rw [hsent] at hetag
        cases hetag
    · exact hhashed

/-- The answer that a fetch goes by is its own, or one that the server has confirmed by its ETag, or one
that is too young to ask. -/
def Current (url : Bytes) (tr : FetchTrace) (transfer : Transfer) (root hash : Bytes) : Prop :=
  (∃ etag, requests tr = [(url, etag, transfer)]) ∨
  (∃ transfer', requests tr = [(url, some transfer.etag, transfer')] ∧ transfer'.cached = true ∧
    Found tr root) ∨
  (requests tr = [] ∧ LookedUp tr url ⟨fetchedInfo transfer root hash, false⟩ ∧ Found tr root)

/-- A result stays current when nothing more is requested. -/
theorem Current.append {url : Bytes} {tr tr' : FetchTrace} {transfer : Transfer} {root hash : Bytes}
    (h : Current url tr transfer root hash) (htr : requests tr' = []) :
    Current url (tr ++ tr') transfer root hash := by
  unfold Current
  rw [requests_append, htr, List.append_nil]
  rcases h with h | ⟨transfer', hreq, hcached, hfound⟩ | ⟨hreq, hlooked, hfound⟩
  · exact .inl h
  · exact .inr (.inl ⟨transfer', hreq, hcached, List.mem_append_left _ hfound⟩)
  · exact .inr (.inr ⟨hreq, List.mem_append_left _ hlooked, List.mem_append_left _ hfound⟩)

/-- What a fetch that returns hands out, after its calls. -/
def Locked (G : Givens) (input : Attrs) (tr : FetchTrace) (res : Bytes × Attrs) : Prop :=
  ∃ url transfer hash, G.LockedTo input res url transfer hash ∧ Current url tr transfer res.1 hash

/-- What a fetch goes by is kept in the cache, whether it was downloaded or confirmed. -/
theorem vouching_refreshed (hG : G.Sound) {url : Bytes} {tr₀ : FetchTrace} {cached : Option CacheResult}
    (hcached : G.Kept url tr₀ cached) :
    G.Vouching (fun tr info => ∃ transfer root hash, G.served url transfer ∧ G.Comes transfer root hash ∧
      info = fetchedInfo transfer root hash ∧ Current url (tr₀ ++ tr) transfer root hash)
      (getAccessor.refreshed G.nix cfg fuel url cached) := by
  obtain ⟨htr₀, hkept⟩ := hcached
  unfold getAccessor.refreshed
  refine (vouching_download hG).bind ?_
  rintro tr info hdownloaded
  have hinfo : ∃ transfer root hash, G.served url transfer ∧ G.Comes transfer root hash ∧
      info = fetchedInfo transfer root hash ∧ Current url (tr₀ ++ tr) transfer root hash := by
    rcases hdownloaded with ⟨etag, transfer, root, hash, hreq, hserved, hcomes, hinfo⟩ |
      ⟨result, etag, transfer', rfl, hetag, hreq, hconfirmed, rfl⟩
    · refine ⟨transfer, root, hash, hserved, hcomes, hinfo, .inl ⟨etag, ?_⟩⟩
      rw [requests_append, htr₀, hreq]
      rfl
    · obtain ⟨-, transfer, root, hash, hserved, hcomes, hvalue, hfound⟩ := hkept result rfl
      rw [hvalue, getStrAttr_eq fetchedInfo_etag] at hetag
      cases hetag
      refine ⟨transfer, root, hash, hserved, hcomes, hvalue, .inr (.inl ⟨transfer', ?_, hconfirmed,
        List.mem_append_left _ hfound⟩)⟩
      rw [requests_append, htr₀, hreq]
      rfl
  obtain ⟨transfer, root, hash, hserved, hcomes, rfl, hcurrent⟩ := hinfo
  refine (vouching_upsert ⟨transfer, root, hash, hserved, hcomes, rfl⟩).bind fun tr' _ htr' => .pure ?_
  refine ⟨transfer, root, hash, hserved, hcomes, rfl, ?_⟩
  rw [List.append_nil, ← List.append_assoc]
  exact hcurrent.append htr'

/-- `getAccessor` returns an input that is locked to one answer. -/
theorem vouching_getAccessor (hG : G.Sound) {input : Attrs} :
    G.Vouching (G.Locked input) (getAccessor G.nix cfg fuel input) := by
  unfold getAccessor
  refine Vouching.ofExcept fun url hurl => ?_
  refine vouching_lookupExpired.bind ?_
  rintro tr₁ found ⟨htr₁, hfound⟩
  refine (vouching_checkCached htr₁ hfound).bind ?_
  rintro tr₂ cached hcached
  refine Vouching.bind (P := fun tr info => ∃ transfer root hash, G.served url transfer ∧
    G.Comes transfer root hash ∧ info = fetchedInfo transfer root hash ∧
    Current url (tr₁ ++ tr₂ ++ tr) transfer root hash) ?_ ?_
  · cases cached with
    | none => exact vouching_refreshed hG hcached
    | some result =>
      dsimp only
      split
      · exact vouching_refreshed hG hcached
      · next hyoung =>
        obtain ⟨hreq, hkept⟩ := hcached
        obtain ⟨hlooked, transfer, root, hash, hserved, hcomes, hvalue, hfound⟩ := hkept result rfl
        refine .pure ⟨transfer, root, hash, hserved, hcomes, hvalue, ?_⟩
        rw [List.append_nil]
        refine .inr (.inr ⟨hreq, ?_, hfound⟩)
        have hresult : result = ⟨fetchedInfo transfer root hash, false⟩ := by
          rw [← hvalue, ← Bool.eq_false_of_not_eq_true hyoung]
        rwa [← hresult]
  · rintro tr₃ _ ⟨transfer, root, hash, hserved, hcomes, rfl, hcurrent⟩
    refine Vouching.ofExcept fun input' hinput => ?_
    rw [getStrAttr_eq fetchedInfo_root.2, getStrAttr_eq fetchedInfo_root.1]
    refine Vouching.ofExcept fun narHash hnarHash => Vouching.ofExcept fun hex hhex => ?_
    cases hnarHash
    cases hhex
    rw [fromHex_toHex]
    refine Vouching.ofExcept fun root' hroot' => ?_
    cases hroot'
    refine (vouching_onStore (yielding_true _ _)).bind fun tr₄ _ htr₄ => .pure ?_
    refine ⟨url, transfer, hash, ⟨hurl, hserved, hcomes, input', hinput, rfl⟩, ?_⟩
    have hall := hcurrent.append htr₄.1
    rw [List.append_assoc, List.append_assoc] at hall
    rwa [List.append_nil]

/-! ## Calls -/

/-- A call that vouches keeps the processes honest, and its answer is to be trusted. -/
theorem Honest.exec {ok : Nat → (sig.sum fetchSig).Call → Sys × FetchCache → FetchChoice → Prop} {p : Nat}
    {ch : FetchChoice} {w w' : Sys × FetchCache} {c : (sig.sum fetchSig).Call}
    {r : (sig.sum fetchSig).Resp c} (hG : G.Sound) (hok : G.Admits ok) (h : G.Honest w) (hc : G.Vouches c)
    (hch : ok p c w ch) (hx : fetchExec G.ext p ch c w = some (r, w')) :
    G.Honest w' ∧ G.Trusted ⟨c, r⟩ := by
  obtain ⟨s, v⟩ := w
  cases c with
  | inl c =>
    obtain ⟨⟨r', s'⟩, hexec, heq⟩ := Option.map_eq_some_iff.1 hx
    cases heq
    have hput (tree : Bool) (d : Bytes) (hd : c = .put tree d) : G.objects d :=
      hok.put p tree d _ ch (hd ▸ hch)
    have hindexed := h.indexed.exec (keptBy_indexed hput) hexec
    refine ⟨⟨hindexed, h.results, h.hashes⟩, exec_reads ((h.indexed p).2.filed hG.noCollision) hexec, ?_⟩
    cases c with
    | put tree d => exact fun id hid => ⟨exec_put_ok hexec hid, hput tree d rfl⟩
    | get | getView | size | has | sync | compact | metaPut | metaGet | metaDel | metaScan | now => trivial
  | inr c =>
    obtain ⟨hr, rfl⟩ := Prod.mk.inj (Option.some.inj hx)
    cases c with
    | lookupExpired url =>
      rcases ch.access_cases ((v.results.find? url).map fun value => CacheResult.mk value ch.expired) v v with
        ⟨e, heq⟩ | heq
      · rw [FetchChoice.run, heq] at hr ⊢
        subst hr
        exact ⟨h, fun result hresult => by cases hresult⟩
      · rw [FetchChoice.run, heq] at hr ⊢
        subst hr
        refine ⟨h, fun result hresult => ?_⟩
        obtain ⟨value, hvalue, rfl⟩ := Option.map_eq_some_iff.1 (Except.ok.inj hresult)
        exact h.results url value hvalue
    | upsert url info =>
      rcases ch.access_cases () v { v with results := v.results.insert url info } with ⟨e, heq⟩ | heq
      · rw [FetchChoice.run, heq]
        exact ⟨h, trivial⟩
      · rw [FetchChoice.run, heq]
        refine ⟨⟨h.indexed, fun url' info' hfind => ?_, h.hashes⟩, trivial⟩
        rcases SortedMap.find?_insert_cases hfind with ⟨rfl, rfl⟩ | hfind
        · exact hc
        · exact h.results url' info' hfind
    | upsertHash root hash =>
      rcases ch.access_cases () v { v with hashes := v.hashes.insert root hash } with ⟨e, heq⟩ | heq
      · rw [FetchChoice.run, heq]
        exact ⟨h, trivial⟩
      · rw [FetchChoice.run, heq]
        refine ⟨⟨h.indexed, h.results, fun root' hash' hfind => ?_⟩, trivial⟩
        rcases SortedMap.find?_insert_cases hfind with ⟨rfl, rfl⟩ | hfind
        · exact hc
        · exact h.hashes root' hash' hfind
    | download url etag =>
      subst hr
      exact ⟨h, hok.download p url etag _ ch hch⟩
    | poison =>
      refine ⟨?_, trivial⟩
      unfold FetchChoice.run
      split
      · exact ⟨h.indexed, h.results, h.hashes⟩
      · exact h

/-- The processes uphold it. -/
theorem upheld_fetch {ok : Nat → (sig.sum fetchSig).Call → Sys × FetchCache → FetchChoice → Prop}
    {cfg : Nat → Config} (hG : G.Sound) (hok : G.Admits ok) :
    Machine.Upheld (fetchMachine G.ext ok G.nix cfg fuel) G.Honest (fun _ => G.Vouches) (fun _ => G.Trusted)
      (fun _ op tr x => ∀ res, x = .ok (some res) →
        ∃ input, op = .getAccessor input ∧ G.Locked input tr res) where
  step p c w r w' h hc hs := by
    obtain ⟨ch, hch, hx⟩ := hs
    exact h.exec hG hok hc hch hx
  code p op σ := by
    cases op with
    | getAccessor input =>
      have hcode : G.Vouching (fun tr x => ∀ res, x = some res → G.Locked input tr res)
          (FetchOp.code G.nix (cfg p) fuel (.getAccessor input)) := by
        refine (vouching_getAccessor hG).bind fun tr res hres => .pure ?_
        rintro _ ⟨⟩
        rwa [List.append_nil]
      refine Prog.Upholds.mono (hcode σ) ?_
      rintro tr x h res hres
      exact ⟨input, rfl, h _ hres res rfl⟩
    | other m =>
      have hcode : G.Vouching (fun _ x => x = none) (FetchOp.code G.nix (cfg p) fuel (.other m)) :=
        (vouching_onStore (yielding_true _ m)).bind fun _ _ _ => .pure rfl
      refine Prog.Upholds.mono (hcode σ) ?_
      rintro tr x h res hres
      cases h _ hres
  kill p w w' h hw := by
    subst hw
    exact ⟨h.indexed.drop, h.results, h.hashes⟩

end Givens

/-! ## Runs -/

/-- A step of the processes. -/
abbrev FetchAct : Type := Act (sig.sum fetchSig) FetchOp (Except Err (Option (Bytes × Attrs)))

/-- In a run a process has returned from a fetch of the input, after these calls. -/
def Fetches (acts : List (Nat × FetchAct)) (input : Attrs) (tr : FetchTrace) (res : Bytes × Attrs) : Prop :=
  ∃ acts₁ p acts₂, acts = acts₁ ++ (p, Act.done (.getAccessor input) (.ok (some res))) :: acts₂ ∧
    tr = Machine.callsOf p acts₁

namespace Givens

section

variable {G : Givens} {ok : Nat → (sig.sum fetchSig).Call → Sys × FetchCache → FetchChoice → Prop}
  {cfg : Nat → Config} {fuel : Nat} {w : Sys × FetchCache} {acts : List (Nat × FetchAct)}
  {gs : Nat → Process (sig.sum fetchSig) FetchOp Pending (Except Err (Option (Bytes × Attrs)))}

/-- What the processes uphold in a run. -/
theorem honest_of_runs (hG : G.Sound) (hok : G.Admits ok)
    (hr : Runs (fetchMachine G.ext ok G.nix cfg fuel).Step (fun _ => .idle [], (.fresh, .empty)) acts
      (gs, w)) :
    G.Honest w ∧ ∀ input tr res, Fetches acts input tr res → G.Locked input tr res := by
  have hempty : G.Honest (.fresh, .empty) := by
    refine ⟨indexed_fresh, ?_, ?_⟩
    · rintro url info ⟨⟩
    · rintro root hash ⟨⟩
  obtain ⟨hhonest, hdone⟩ := Machine.run_upheld (upheld_fetch hG hok) hr hempty fun _ => ⟨[], rfl⟩
  refine ⟨hhonest, ?_⟩
  rintro input _ res ⟨acts₁, p, acts₂, hacts, rfl⟩
  obtain ⟨_, heq, hlocked⟩ := hdone acts₁ acts₂ p _ _ hacts res rfl
  cases heq
  exact hlocked

/-- Processes share a store and Nix's cache, fetch, collect garbage and are killed, and servers answer
what they please. Every input that is returned, and every result that is cached for a URL, is what a
single answer to a request for that URL comes to; two fetches that come to one root are locked alike;
every hash that is cached is that of the dump of the tree under its root; and whoever has that tree in
full dumps just what was hashed. -/
theorem fetch_attested (hG : G.Sound) (hok : G.Admits ok)
    (hr : Runs (fetchMachine G.ext ok G.nix cfg fuel).Step (fun _ => .idle [], (.fresh, .empty)) acts
      (gs, w)) :
    (∀ input tr res, Fetches acts input tr res →
      ∃ url transfer hash, G.LockedTo input res url transfer hash) ∧
    (∀ input input' tr tr' res res', Fetches acts input tr res → Fetches acts input' tr' res' →
      res.1 = res'.1 → res.2.find? attrNarHash = res'.2.find? attrNarHash) ∧
    (∀ url info, w.2.results.find? url = some info → G.InfoOk url info) ∧
    (∀ root hash, w.2.hashes.find? root = some hash → G.Attested root hash) ∧
    (∀ p root hash, G.Attested root hash → Whole (w.1.blobs p) (.d, root) →
      ∃ file, Denotes (w.1.blobs p) file (.d, root) ∧ DumpsTo G.ext p w.1 root file.nar ∧
        hash = G.narHash file) := by
  obtain ⟨hhonest, hlocked⟩ := honest_of_runs hG hok hr
  refine ⟨?_, ?_, hhonest.results, hhonest.hashes, ?_⟩
  · intro input tr res h
    obtain ⟨url, transfer, hash, hto, -⟩ := hlocked input tr res h
    exact ⟨url, transfer, hash, hto⟩
  · intro input input' tr tr' res res' h h' hroot
    obtain ⟨_, _, hash, ⟨-, -, hcomes, _, -, hres⟩, -⟩ := hlocked input tr res h
    obtain ⟨_, _, hash', ⟨-, -, hcomes', _, -, hres'⟩, -⟩ := hlocked input' tr' res' h'
    rw [← hroot] at hcomes'
    rw [hres, hres', SortedMap.find?_insert_self, SortedMap.find?_insert_self,
      hcomes.attested.unique hcomes'.attested]
  · intro p root hash hattested hwhole
    exact hattested.dumps hG (hhonest.indexed p).2 hwhole

/-- Whatever the other processes do, a fetch that returns goes by an answer of its own to its one
request, or by an earlier one: that the server has confirmed in answer to its one request, which had
the ETag of that answer, or that is not too old, when nothing is requested. It goes by an earlier answer
only when it has found the root in the store. -/
theorem fetch_current (hG : G.Sound) (hok : G.Admits ok)
    (hr : Runs (fetchMachine G.ext ok G.nix cfg fuel).Step (fun _ => .idle [], (.fresh, .empty)) acts
      (gs, w)) {input : Attrs} {tr : FetchTrace} {res : Bytes × Attrs} (h : Fetches acts input tr res) :
    ∃ url transfer hash, G.LockedTo input res url transfer hash ∧
      ((∃ etag, requests tr = [(url, etag, transfer)]) ∨
        (∃ transfer', requests tr = [(url, some transfer.etag, transfer')] ∧ transfer'.cached = true ∧
          Found tr res.1) ∨
        (requests tr = [] ∧ LookedUp tr url ⟨fetchedInfo transfer res.1 hash, false⟩ ∧ Found tr res.1)) :=
  (honest_of_runs hG hok hr).2 input tr res h

end

end Givens

/-! ## A run -/

section

variable {ext : Ext} {ok : (sig.sum fetchSig).Call → Sys × FetchCache → FetchChoice → Prop} {p : Nat}
  {nix : Nix} {cfg : Config} {fuel : Nat} {transfer : Transfer}

/-- The calls of a fetch that go to the store. -/
def storeOk (ok : (sig.sum fetchSig).Call → Sys × FetchCache → FetchChoice → Prop) (v : FetchCache)
    (c : Call) (s : Sys) (ch : Choice) : Prop :=
  ok (.inl c) (s, v) { store := ch }

/-- A run of the store is one of the fetcher. -/
theorem attains_onStore {α : Type} {m : TreeM α} {σ σ' : Pending} {s s' : Sys} {v : FetchCache}
    {tr : List (Tarmac.Event sig)} {a : α}
    (hr : Prog.Run (sem ext (storeOk ok v) p) (m σ) s tr (.ok a, σ') s') :
    Eff.Attains (fetchSem ext ok p) (fun x σ₁ w₁ => x = .ok a ∧ σ₁ = σ' ∧ w₁ = (s', v)) (onStore m) σ
      (s, v) := by
  refine ⟨_, _, _, _, Prog.Run.inl (f := fun s => (s, v)) ?_ hr, rfl, rfl, rfl⟩
  rintro c s r s' ⟨ch, hch, hx⟩
  exact ⟨{ store := ch }, hch, Option.map_eq_some_iff.2 ⟨(r, s'), hx, rfl⟩⟩

/-- A hash can be put into the cache. -/
theorem attains_upsertHash (hok : ∀ c w, ok (.inr c) w { transfer := transfer }) {root hash : Bytes}
    {σ : Pending} {s : Sys} {v : FetchCache} :
    Eff.Attains (fetchSem ext ok p) (fun x σ₁ w₁ => x = .ok () ∧ σ₁ = σ ∧
      w₁ = (s, { v with hashes := v.hashes.insert root hash })) (upsertHash root hash) σ (s, v) :=
  Eff.Attains.perform ⟨{ transfer := transfer }, hok _ _, rfl⟩ (Eff.Attains.ofExcept ⟨rfl, rfl, rfl⟩)

theorem attains_upsert (hok : ∀ c w, ok (.inr c) w { transfer := transfer }) {url : Bytes} {info : Attrs}
    {σ : Pending} {s : Sys} {v : FetchCache} :
    Eff.Attains (fetchSem ext ok p) (fun x σ₁ w₁ => x = .ok () ∧ σ₁ = σ ∧
      w₁ = (s, { v with results := v.results.insert url info })) (upsert url info) σ (s, v) :=
  Eff.Attains.perform ⟨{ transfer := transfer }, hok _ _, rfl⟩ (Eff.Attains.ofExcept ⟨rfl, rfl, rfl⟩)

/-- A fetch of what is not cached. -/
theorem attains_getAccessor (hok : ∀ c w, ok (.inr c) w { transfer := transfer }) {input : Attrs} {url : Bytes}
    {arc : Archive} {res : Bytes × Nat} {root : Bytes} {y : Bytes × UInt64}
    {σ σ₁ σ₂ σ₃ σ₄ : Pending} {s s₁ s₂ s₃ s₄ : Sys} {v : FetchCache}
    {tr₁ tr₂ tr₃ tr₄ : List (Tarmac.Event sig)}
    (hurl : getStrAttr input attrUrl = .ok url) (hmiss : v.results.find? url = none)
    (harc : transfer.archive = .ok arc) (himm : transfer.immutableUrl = none)
    (hingest : Prog.Run (sem ext (storeOk ok v) p) (ingestArchive cfg fuel arc σ) s tr₁ (.ok res, σ₁) s₁)
    (hstrip : Prog.Run (sem ext (storeOk ok v) p) (stripTop res.1 σ₁) s₁ tr₂ (.ok root, σ₂) s₂)
    (hhash : Prog.Run (sem ext (storeOk ok v) p) (narSha256 nix.evp root σ₂) s₂ tr₃ (.ok y, σ₃) s₃)
    (htouch : ∀ v, Prog.Run (sem ext (storeOk ok v) p) (touchRoot cfg root true σ₃) s₃ tr₄ (.ok (), σ₄) s₄) :
    Eff.Attains (fetchSem ext ok p)
      (fun x σ' w' => x = .ok (root, input.insert attrNarHash (.str (nix.sri (toHex y.1)))) ∧ σ' = σ₄ ∧
        w' = (s₄, { v with
          hashes := v.hashes.insert root (nix.sri (toHex y.1))
          results := v.results.insert url (fetchedInfo transfer root (nix.sri (toHex y.1))) }))
      (getAccessor nix cfg fuel input) σ (s, v) := by
  have hlookup : Eff.Attains (fetchSem ext ok p) (fun x σ' w' => x = .ok none ∧ σ' = σ ∧ w' = (s, v))
      (lookupExpired url) σ (s, v) := by
    have hstep : fetchSem ext ok p (.inr (.lookupExpired url)) (s, v)
        (.ok none : Except Err (Option CacheResult)) (s, v) := by
      refine ⟨{ transfer := transfer }, hok _ _, ?_⟩
      show some ((Except.ok ((v.results.find? url).map fun value => CacheResult.mk value false) :
        Except Err (Option CacheResult)), s, v) = _
      rw [hmiss]
      rfl
    exact Eff.Attains.perform hstep (Eff.Attains.ofExcept ⟨rfl, rfl, rfl⟩)
  let hash := nix.sri (toHex y.1)
  let info := fetchedInfo transfer root hash
  have hhashed : Eff.Attains (fetchSem ext ok p) (fun x σ' w' => x = .ok info ∧ σ' = σ₃ ∧
      w' = (s₃, { v with hashes := v.hashes.insert root hash }))
      (download.hashed nix transfer root) σ₂ (s₂, v) := by
    unfold download.hashed
    refine Eff.Attains.seq (attains_onStore hhash) ?_
    exact Eff.Attains.seq (attains_upsertHash hok) (Eff.Attains.pure ⟨rfl, rfl, rfl⟩)
  have hdownload : Eff.Attains (fetchSem ext ok p) (fun x σ' w' => x = .ok info ∧ σ' = σ₃ ∧
      w' = (s₃, { v with hashes := v.hashes.insert root hash }))
      (download nix cfg fuel url none) σ (s, v) := by
    unfold download
    refine Eff.Attains.seq (b := none) (Eff.Attains.ofExcept ⟨rfl, rfl, rfl⟩) ?_
    have hstep : fetchSem ext ok p (.inr (.download url none)) (s, v) transfer (s, v) :=
      ⟨{ transfer := transfer }, hok _ _, rfl⟩
    refine Eff.Attains.perform hstep ?_
    refine Eff.Attains.seq (b := arc) (Eff.Attains.ofExcept ⟨?_, rfl, rfl⟩) ?_
    · unfold openArchive
      rw [harc]
    · refine Eff.Attains.seq (attains_onStore hingest) ?_
      exact Eff.Attains.seq (attains_onStore hstrip) hhashed
  have hrefreshed : Eff.Attains (fetchSem ext ok p) (fun x σ' w' => x = .ok info ∧ σ' = σ₃ ∧
      w' = (s₃, { v with hashes := v.hashes.insert root hash, results := v.results.insert url info }))
      (getAccessor.refreshed nix cfg fuel url none) σ (s, v) := by
    unfold getAccessor.refreshed
    exact Eff.Attains.seq hdownload (Eff.Attains.seq (attains_upsert hok) (Eff.Attains.pure ⟨rfl, rfl, rfl⟩))
  unfold getAccessor
  refine Eff.Attains.seq (Eff.Attains.ofExcept ⟨hurl, rfl, rfl⟩) ?_
  refine Eff.Attains.seq hlookup ?_
  refine Eff.Attains.seq (b := none) (Eff.Attains.pure ⟨rfl, rfl, rfl⟩) ?_
  refine Eff.Attains.seq hrefreshed ?_
  have hinput : lockedInput nix info input = .ok input := by
    have hnone : info.find? attrImmutableUrl = none := fetchedInfo_immutableUrl himm
    unfold lockedInput maybeGetStrAttr
    rw [hnone]
    rfl
  refine Eff.Attains.seq (Eff.Attains.ofExcept ⟨hinput, rfl, rfl⟩) ?_
  refine Eff.Attains.seq (Eff.Attains.ofExcept ⟨getStrAttr_eq fetchedInfo_root.2, rfl, rfl⟩) ?_
  refine Eff.Attains.seq (Eff.Attains.ofExcept ⟨getStrAttr_eq fetchedInfo_root.1, rfl, rfl⟩) ?_
  refine Eff.Attains.seq (b := root) (Eff.Attains.ofExcept ⟨fromHex_toHex root, rfl, rfl⟩) ?_
  exact Eff.Attains.seq (attains_onStore (htouch _)) (Eff.Attains.pure ⟨rfl, rfl, rfl⟩)

end

/-- A hash that returns. -/
def Evp.sample : Evp where
  Ctx := Bytes
  init := some []
  update ctx chunk := some (ctx ++ chunk)
  final ctx := some (Ext.sample.blake3 ctx)

def Nix.sample : Nix where
  evp := .sample
  sri hex := hex
  fromURL _ := .error (.runtime "")

/-- A call at a time, that puts one of these if it puts. -/
def execAt (ds : List Bytes) (clock : Nat) (_ : Unit) (c : Call) (s : Sys) : Option (c.Resp × Sys) :=
  if putsAmong ds c s {} then exec .sample 0 { clock := clock } c s else none

/-- Evaluates a program that returns, at a time, with no put but of these. -/
def evalAt {α : Type} (ds : List Bytes) (clock : Nat) (m : TreeM α) (x : Pending × Sys) :
    Option (α × Pending × Sys) :=
  ((m x.1).eval (execAt ds clock) (List.replicate 100 ()) x.2).bind fun y =>
    y.2.1.1.toOption.map fun a => (a, y.2.1.2, y.2.2)

theorem run_of_evalAt {α : Type} {ds : List Bytes} {clock : Nat} {m : TreeM α} {x y : Pending × Sys} {a : α}
    {ok : Call → Sys → Choice → Prop}
    (hok : ∀ c s, (∀ tree d, c = .put tree d → d ∈ ds) → ok c s { clock := clock })
    (h : evalAt ds clock m x = some (a, y)) :
    ∃ tr, Prog.Run (sem .sample ok 0) (m x.1) x.2 tr (.ok a, y.1) y.2 := by
  obtain ⟨⟨tr, ⟨out, σ'⟩, s'⟩, heval, hout⟩ := Option.bind_eq_some_iff.1 h
  obtain ⟨b, hb, heq⟩ := Option.map_eq_some_iff.1 hout
  obtain rfl : out = .ok b := ok_of_toOption hb
  cases heq
  refine ⟨tr, Prog.run_of_eval (fun _ c s r s' hx => ?_) heval⟩
  unfold execAt at hx
  split at hx
  · next hput =>
    refine ⟨_, hok c s ?_, hx⟩
    rintro tree d rfl
    exact of_decide_eq_true hput
  · cases hx

/-- A directory with a file, in a directory. -/
def tarball : Archive := ⟨[⟨some [97], none, .dir, none, 0, 0, [], none⟩,
  ⟨some [97, 47, 98], none, .reg, none, 1, 0, [[7]], none⟩], none⟩

def tarballTransfer : Transfer := ⟨.ok tarball, false, [], none⟩
def tarballDir : Bytes := encodeTree [⟨[98], .leaf .r, Ext.sample.blake3 [7]⟩]
def tarballTop : Bytes := encodeTree [⟨[97], .d, Ext.sample.blake3 tarballDir⟩]
def tarballObjects : List Bytes := [[7], tarballDir, tarballTop]
def tarballRoot : Bytes := Ext.sample.blake3 tarballDir
def tarballFile : FsNode := .directory [([98], .regular false [7])]
def tarballInput : Attrs := SortedMap.empty.insert attrUrl (.str [1])
def tarballHash : Bytes := Nix.sample.sri (toHex (Ext.sample.blake3 tarballFile.nar))
def tarballConfig : Config := ⟨100, 100, 100⟩

/-- What is given when the tarball is fetched. -/
def tarballGivens : Givens where
  ext := .sample
  nix := .sample
  sha := Ext.sample.blake3
  objects d := d ∈ tarballObjects
  served _ transfer := transfer = tarballTransfer

/-- Only these objects are put, and servers only answer with the tarball. -/
def tarballOk (ds : List Bytes) (_ : Nat) (c : (sig.sum fetchSig).Call) (_ : Sys × FetchCache)
    (ch : FetchChoice) : Prop :=
  (∀ tree d, c = .inl (.put tree d) → d ∈ ds) ∧
    ∀ url etag, c = .inr (.download url etag) → ch.transfer = tarballTransfer

/-- What is cached when the tarball was fetched. -/
def tarballCache : FetchCache where
  results := SortedMap.empty.insert [1] (fetchedInfo tarballTransfer tarballRoot tarballHash)
  hashes := SortedMap.empty.insert tarballRoot tarballHash
  poisoned := false

/-- The tree of the archive, where its two objects are there. -/
theorem tarballFile_denotes {M : BlobMap} (hdir : M tarballRoot = some tarballDir)
    (hfile : M (Ext.sample.blake3 [7]) = some [7]) : Denotes M tarballFile (.d, tarballRoot) := by
  unfold tarballFile Denotes DenotesAll Denotes DenotesAll
  exact ⟨rfl, tarballDir, _, hdir, rfl, rfl, ⟨rfl, hfile⟩, trivial⟩

/-- It is not too deep. -/
theorem tarballFile_within : FsNode.Within kMaxTreeDepth tarballFile := by
  refine .directory (fun _ _ => by decide) fun c hc => ?_
  obtain rfl := List.mem_singleton.1 hc
  exact .regular

/-- Its objects have different hashes. -/
theorem tarballObjects_noCollision : NoCollision .sample (· ∈ tarballObjects) := by
  intro d d' hd hd'
  simp only [tarballObjects, List.mem_cons, List.not_mem_nil, or_false] at hd hd'
  rcases hd with rfl | rfl | rfl <;> rcases hd' with rfl | rfl | rfl <;> decide

/-- The sample hash collects what it is fed. -/
theorem Evp.feed_sample {ctx end_ : Bytes} {updates : List Bytes}
    (h : Evp.sample.feed ctx updates = some end_) : end_ = ctx ++ updates.flatten := by
  induction updates generalizing ctx with
  | nil =>
    cases h
    exact (List.append_nil _).symm
  | cons chunk updates ih =>
    rw [List.flatten_cons, ← List.append_assoc]
    exact ih h

/-- It computes the sample hash of the whole. -/
theorem Evp.computes_sample : Evp.sample.Computes Ext.sample.blake3 := by
  intro ctx updates end_ digest hinit hfeed hfinal
  cases hinit
  cases hfinal
  rw [Evp.feed_sample hfeed, List.nil_append]

/-- It does not fail. -/
theorem Evp.unfailing_sample : Evp.sample.Unfailing where
  init := ⟨[], rfl⟩
  update ctx chunk := ⟨List.append ctx chunk, rfl⟩
  final ctx := ⟨Ext.sample.blake3 ctx, rfl, Ext.lawful_sample.length_blake3 ctx⟩

/-- The store's calls in the fetch of the tarball. -/
theorem storeOk_tarball {ds : List Bytes} {v : FetchCache} {c : Call} {s : Sys} {ch : Choice}
    (h : ∀ tree d, c = .put tree d → d ∈ ds) : storeOk (tarballOk ds 0) v c s ch := by
  refine ⟨fun tree d hd => h tree d (Sum.inl.inj hd), fun url etag hno => by cases hno⟩

/-- A fetch of the tarball into a store in which its two objects are found then. -/
theorem attains_tarball {ds : List Bytes} {cfg : Config} {clock : Nat} {x : Pending × Sys}
    {x₁ : (Bytes × Nat) × Pending × Sys} {x₂ : Bytes × Pending × Sys} {x₃ : Unit × Pending × Sys}
    (hI : Everywhere (fun st => Indexed .sample (· ∈ ds) st.blobs) x.2)
    (hingest : evalAt ds clock (ingestArchive cfg 10 tarball) x = some x₁)
    (hstrip : evalAt ds clock (stripTop x₁.1.1) x₁.2 = some x₂)
    (htouch : evalAt ds clock (touchRoot cfg x₂.1 true) x₂.2 = some x₃) (hroot : x₂.1 = tarballRoot)
    (hdir : x₂.2.2.blobs 0 tarballRoot = some tarballDir)
    (hfile : x₂.2.2.blobs 0 (Ext.sample.blake3 [7]) = some [7]) :
    Eff.Attains (fetchSem .sample (tarballOk ds 0) 0)
      (fun out σ' w' => out = .ok (tarballRoot, tarballInput.insert attrNarHash (.str tarballHash)) ∧
        σ' = x₃.2.1 ∧ w' = (x₃.2.2, tarballCache))
      (getAccessor .sample cfg 10 tarballInput) x.1 (x.2, .empty) := by
  have hok (v : FetchCache) (c : Call) (s : Sys) (h : ∀ tree d, c = .put tree d → d ∈ ds) :
      storeOk (tarballOk ds 0) v c s { clock := clock } := storeOk_tarball h
  obtain ⟨tr₁, hingest⟩ := run_of_evalAt (hok .empty) hingest
  obtain ⟨tr₂, hstrip⟩ := run_of_evalAt (hok .empty) hstrip
  obtain ⟨tr₄, htouch⟩ := run_of_evalAt (hok .empty) htouch
  have hkept (c : Call) (s : Sys) (ch : Choice) (h : storeOk (tarballOk ds 0) .empty c s ch) :
      KeptBy .sample (fun st => Indexed .sample (· ∈ ds) st.blobs) c :=
    keptBy_indexed fun tree d hd => h.1 tree d (congrArg Sum.inl hd)
  have hM : Indexed .sample (· ∈ ds) (x₂.2.2.blobs 0) := (((hI.run hkept hingest).run hkept hstrip) 0).2
  have hdenotes := tarballFile_denotes hdir hfile
  have hreads (c : Call) (s : Sys) (hc : IsRead c) : storeOk (tarballOk ds 0) .empty c s {} := by
    refine storeOk_tarball ?_
    rintro tree d rfl
    exact hc.elim
  obtain ⟨tr₃, chunks, hdump⟩ : ∃ tr chunks, Prog.Run (sem .sample (storeOk (tarballOk ds 0) .empty) 0)
      (narDump tarballRoot x₂.2.1) x₂.2.2 tr (.ok chunks, x₂.2.1) x₂.2.2 :=
    hdenotes.exists_dump (hM.keyed Ext.lawful_sample) tarballFile_within hreads
  obtain ⟨y, hhash⟩ : ∃ y, Prog.Run (sem .sample (storeOk (tarballOk ds 0) .empty) 0)
      (narSha256 Nix.sample.evp tarballRoot x₂.2.1) x₂.2.2 tr₃ (.ok y, x₂.2.1) x₂.2.2 :=
    Evp.unfailing_sample.run_narSha256 hdump
  obtain ⟨-, -, file, hfile', -, hdigest⟩ := run_of_narSha256 Evp.computes_sample hhash
  rw [← hdenotes.unique hfile'] at hdigest
  have hcalls (c : FetchCall) (w : Sys × FetchCache) :
      tarballOk ds 0 (.inr c) w { transfer := tarballTransfer } :=
    ⟨(fun tree d hno => by cases hno), fun _ _ _ => rfl⟩
  have hurl : getStrAttr tarballInput attrUrl = .ok [1] := rfl
  rw [hroot] at htouch hstrip
  have hfetch := attains_getAccessor hcalls hurl rfl rfl rfl hingest hstrip hhash fun v => htouch
  rw [hdigest] at hfetch
  exact hfetch

/-- A process fetches the tarball, and another has its tree. -/
theorem exists_tarball_fetch : ∃ ls gs w locked,
    Runs (fetchMachine .sample (tarballOk tarballObjects) .sample (fun _ => tarballConfig) 10).Step
      (fun _ => .idle [], (.fresh, .empty))
      (ls ++ [(0, .done (.getAccessor tarballInput) (.ok (some (tarballRoot, locked))))]) (gs, w) ∧
    Denotes (w.1.blobs 1) tarballFile (.d, tarballRoot) := by
  have hcheck : ((evalAt tarballObjects 0 (ingestArchive tarballConfig 10 tarball) ([], .fresh)).any fun x =>
      (evalAt tarballObjects 0 (stripTop x.1.1) x.2).any fun y =>
      (evalAt tarballObjects 0 (touchRoot tarballConfig y.1 true) y.2).any fun z =>
      decide (y.1 = tarballRoot) &&
      decide (y.2.2.blobs 0 tarballRoot = some tarballDir) &&
      decide (y.2.2.blobs 0 (Ext.sample.blake3 [7]) = some [7]) &&
      decide (z.2.2.blobs 1 tarballRoot = some tarballDir) &&
      decide (z.2.2.blobs 1 (Ext.sample.blake3 [7]) = some [7])) = true := by decide +kernel
  obtain ⟨x₁, hingest, hcheck⟩ := (Option.any_eq_true _ _).1 hcheck
  obtain ⟨x₂, hstrip, hcheck⟩ := (Option.any_eq_true _ _).1 hcheck
  obtain ⟨x₃, htouch, hcheck⟩ := (Option.any_eq_true _ _).1 hcheck
  simp only [Bool.and_eq_true, decide_eq_true_eq] at hcheck
  obtain ⟨⟨⟨⟨hroot, hdir⟩, hfile⟩, hdir'⟩, hfile'⟩ := hcheck
  obtain ⟨tr, x, σ', w, hrun, rfl, rfl, rfl⟩ :=
    attains_tarball indexed_fresh hingest hstrip htouch hroot hdir hfile
  let M := fetchMachine .sample (tarballOk tarballObjects) .sample (fun _ => tarballConfig) 10
  have hcode : Prog.Run (M.sem 0) (M.code 0 (.getAccessor tarballInput) []) (.fresh, .empty) _ (_, _)
      (x₃.2.2, tarballCache) := Prog.Run.bind hrun .ret
  obtain ⟨gs, hruns⟩ := Machine.runs_of_run (fun _ => .idle []) rfl hcode
  exact ⟨_, gs, _, _, hruns, tarballFile_denotes hdir' hfile'⟩

/-- What is given of the run is sound. -/
theorem tarballGivens_sound : tarballGivens.Sound :=
  ⟨Ext.lawful_sample, tarballObjects_noCollision, Evp.computes_sample⟩

/-- It admits the calls. -/
theorem tarballGivens_admits : tarballGivens.Admits (tarballOk tarballObjects) :=
  ⟨fun _ tree d _ _ h => h.1 tree d rfl, fun _ url etag _ _ h => h.2 url etag rfl⟩

/-- What one process fetched another dumps. -/
theorem fetch_attested_sample : ∃ w : Sys × FetchCache, ∃ locked : Attrs, ∃ file : FsNode,
    ∃ url transfer hash, tarballGivens.LockedTo tarballInput (tarballRoot, locked) url transfer hash ∧
      DumpsTo .sample 1 w.1 tarballRoot file.nar ∧ hash = tarballGivens.narHash file := by
  obtain ⟨ls, gs, w, locked, hr, hdenotes⟩ := exists_tarball_fetch
  obtain ⟨hlocked, -, -, -, hdumps⟩ := Givens.fetch_attested tarballGivens_sound tarballGivens_admits hr
  obtain ⟨url, transfer, hash, hto⟩ := hlocked tarballInput _ (tarballRoot, locked) ⟨ls, 0, [], rfl, rfl⟩
  obtain ⟨file, -, hfile, hhash⟩ := hdumps 1 tarballRoot hash hto.comes.attested
    (hdenotes.whole tarballFile_within)
  exact ⟨w, locked, file, url, transfer, hash, hto, hfile, hhash⟩

/-- The tarball was not cached. -/
theorem fetch_current_sample : ∃ tr : FetchTrace, ∃ locked : Attrs, ∃ url transfer hash,
    tarballGivens.LockedTo tarballInput (tarballRoot, locked) url transfer hash ∧
      ((∃ etag, requests tr = [(url, etag, transfer)]) ∨
        (∃ transfer', requests tr = [(url, some transfer.etag, transfer')] ∧ transfer'.cached = true ∧
          Found tr tarballRoot) ∨
        (requests tr = [] ∧ LookedUp tr url ⟨fetchedInfo transfer tarballRoot hash, false⟩ ∧
          Found tr tarballRoot)) := by
  obtain ⟨ls, gs, w, locked, hr, -⟩ := exists_tarball_fetch
  exact ⟨_, locked, Givens.fetch_current tarballGivens_sound tarballGivens_admits hr ⟨ls, 0, [], rfl, rfl⟩⟩

end Tarmac.Tree
