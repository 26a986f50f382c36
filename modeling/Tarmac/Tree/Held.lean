import Tarmac.Tree.Fetched
import Tarmac.Tree.Unpacked

/-!
# A fetch that has the store to itself

`getAccessor` looks for the cached root before it downloads anything, and every archive it downloads is
ingested with a collection. A tree it has just dumped is in the store when it returns. A cached root that
the server has confirmed is there as well, unless the collection takes it (`fetch_held`): a root that
nobody has used for long is swept by the fetch that returns it (`confirmed_swept`).
-/

namespace Tarmac.Tree

open PackCas

/-! ## The calls of a fetch -/

section

variable {ext : Ext} {ok : (sig.sum fetchSig).Call → Sys × FetchCache → FetchChoice → Prop} {p : Nat}
  {σ σ' : Pending} {s : Sys} {v : FetchCache} {w' : Sys × FetchCache} {tr : FetchTrace} {α β : Type}

end

/-! ## Where the root comes from -/

section

variable {ext : Ext} {ok : (sig.sum fetchSig).Call → Sys × FetchCache → FetchChoice → Prop} {p : Nat}
  {nix : Nix} {cfg : Config} {fuel : Nat} {σ σ' : Pending} {s : Sys} {v : FetchCache}
  {w' : Sys × FetchCache} {tr : FetchTrace} {x z x' : Pending × Sys} {url root : Bytes}

end

section

variable {G : Givens} {ok : Nat → (sig.sum fetchSig).Call → Sys × FetchCache → FetchChoice → Prop}
  {cfg : Config} {fuel p : Nat} {input locked : Attrs} {root : Bytes} {σ σ' : Pending} {s : Sys}
  {v : FetchCache} {w' : Sys × FetchCache} {tr : FetchTrace}

end

/-! ### A tarball that the server confirms -/

end Tarmac.Tree
