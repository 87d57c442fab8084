import Neutrino.Library.Sweep
import Neutrino.Trie.Proof

-- Incremental persistence (trie.rs): what a trie queues, drained into its columns,
-- always rebuilds it; pruning keeps that for the roots it retains.

namespace Neutrino.StateTrie
open Checks Bits Patricia Sweep
variable {β : Type} [Alphabet β] [DecidableEq β]

section
def only {κ ν : Type} (held : AList fun _ : κ => ν) (kept : κ → Bool) : AList fun _ : κ => ν :=
  ⟨held.entries.filter fun entry => kept entry.1,held.nodupKeys.sublist List.filter_sublist⟩

namespace Trie

def drainPendingNodes (trie : Trie β) : List (Hash β × List β) × Trie β := (trie.pendingNodes,{ trie with pendingNodes := [] })
def drainPendingValues (trie : Trie β) : List (Hash β × List Byte) × Trie β := (trie.pendingValues,{ trie with pendingValues := [] })

-- The subtrees of a retained node; a leaf's value is checked when first met.
def retainBelow (hasher : Hasher β) (trie : Trie β) (values : List (Hash β)) : Node β → Except Fault (List (Hash β) × List (Hash β))
  | .leaf _ valueHash =>
    if valueHash ∈ values then return ([],values)
    else do
      let value ← required (trie.values.lookup valueHash) (.refused .missingRetainedEntry)
      ensure (hasher.hashValue value = valueHash) (.refused .retainedHashMismatch)
      return ([],valueHash::values)
  | .branch left right => return ([right,left],values)
  | .extension _ child => return ([child],values)

def retain (hasher : Hasher β) (trie : Trie β) (hash : Hash β) (values : List (Hash β)) : Except Fault (List (Hash β) × List (Hash β)) := do
  let bytes ← required (trie.nodes.lookup hash) (.refused .missingRetainedEntry)
  ensure (hasher.hashNode bytes = hash) (.refused .retainedHashMismatch)
  let node ← (Node.decode bytes).mapError Fault.refused
  trie.retainBelow hasher values node

def keepOnly (trie : Trie β) (nodes values : List (Hash β)) : Trie β where
  nodes := only trie.nodes (decide <| · ∈ nodes)
  values := only trie.values (decide <| · ∈ values)
  pendingNodes := trie.pendingNodes.filter (decide <| ·.1 ∈ nodes)
  pendingValues := trie.pendingValues.filter (decide <| ·.1 ∈ values)
  root := trie.root

-- The vector of pending hashes is a stack; its last entry is this list's first.
def retainRoots (hasher : Hasher β) (trie : Trie β) (roots : List (Hash β)) : Except Fault (Trie β) := do
  let (nodes,values) ← sweep (· = zeroHash) (trie.retain hasher) .diverged
    (roots.length + 1 + 2 * trie.nodes.entries.length) (trie.root::roots.reverse) [] []
  return trie.keepOnly nodes values
end Trie

structure Persisted (β : Type) where
  nodes : AList fun _ : Hash β => List β
  values : AList fun _ : Hash β => List Byte

namespace Persisted

def lookupFrom (store : Persisted β) (path : BitPath) : Nat → Hash β → Nat → Except Fault (Option (List Byte))
  | 0,_,_ => .error .diverged
  | budget+1,current,consumed => do
    if current = zeroHash then return none
    let bytes ← required (store.nodes.lookup current) (.refused .missingRetainedEntry)
    match ← (Node.decode bytes).mapError Fault.refused with
    | .leaf keySuffix valueHash =>
      let remaining ← path.suffix consumed
      if remaining = keySuffix then
        let value ← required (store.values.lookup valueHash) (.refused .missingRetainedEntry)
        return some value
      else return none
    | .branch left right =>
      if path.length ≤ consumed then return none
      let bit ← path.bit consumed
      store.lookupFrom path budget (if bit then right else left) (consumed + 1)
    | .extension prefixPath child =>
      match ← Trie.passExtension path consumed prefixPath with
      | some rest => store.lookupFrom path budget child rest
      | none => return none

def lookupPersisted (store : Persisted β) (root : Hash β) (key : List Byte) : Except Fault (Option (List Byte)) := do
  let path ← BitPath.forKey key
  store.lookupFrom path ((store.nodes.entries.length + 1) * 2 ^ 32) root 0

def put (store : Persisted β) (nodes : List (Hash β × List β)) (values : List (Hash β × List Byte)) : Persisted β where
  nodes := nodes.foldl (fun found entry => found.insert entry.1 entry.2) store.nodes
  values := values.foldl (fun found entry => found.insert entry.1 entry.2) store.values

def deleteMissing (store : Persisted β) (trie : Trie β) : Persisted β where
  nodes := only store.nodes fun hash => (trie.nodes.lookup hash).isSome
  values := only store.values fun hash => (trie.values.lookup hash).isSome

def rebuild (store : Persisted β) (root : Hash β) : Trie β :=
  Trie.fromPersisted root (store.nodes.entries.map fun entry => (entry.1,entry.2)) (store.values.entries.map fun entry => (entry.1,entry.2))
end Persisted

-- A live trie beside its columns, with the tries drained at retained roots.
structure Persistence (β : Type) where
  live : Trie β
  store : Persisted β
  drained : List (Trie β)

inductive PersistCall (β : Type) where
  | insert (key value : List Byte)
  | remove (key : List Byte)
  | drain
  | retain (roots : List (Hash β))

def PersistCall.Fits : PersistCall β → Prop
  | .insert key _ | .remove key => KeyFits key
  | .drain | .retain _ => True

def Persistence.step (hasher : Hasher β) (state : Persistence β) : PersistCall β → Except Fault (Persistence β)
  | .insert key value => do
    let live ← state.live.insert hasher key value
    return { state with live := live }
  | .remove key => do
    let (live,_) ← state.live.remove hasher key
    return { state with live := live }
  | .drain =>
    let (nodes,live) := state.live.drainPendingNodes
    let (values,live) := live.drainPendingValues
    return ⟨live,state.store.put nodes values,live::state.drained⟩
  -- A refused call leaves the trie and the columns as they are.
  | .retain roots => match state.live.retainRoots hasher roots with
    | .ok live => return ⟨live,state.store.deleteMissing live,state.drained.filter (·.root ∈ live.root::roots)⟩
    | .error _ => return state

def Persistence.run (hasher : Hasher β) (state : Persistence β) (calls : List (PersistCall β)) : Except Fault (Persistence β) :=
  calls.foldlM (·.step hasher) state
end
section
variable {κ ν : Type} [DecidableEq κ] {digest : ν → κ} {stored held : AList fun _ : κ => ν} {pending : List (κ × ν)}

theorem lookup_only : (only held kept).lookup key = some text ↔ held.lookup key = some text ∧ kept key = true := by
  rw [← Option.mem_def,← Option.mem_def,AList.mem_lookup_iff,AList.mem_lookup_iff]
  exact List.mem_filter

theorem keys_le {inner : AList fun _ : κ => ν} {outer : AList fun _ : κ => ρ}
    (inside : ∀ query, (inner.lookup query).isSome → (outer.lookup query).isSome) : inner.entries.length ≤ outer.entries.length := by
  have subset : inner.keys ⊆ outer.keys := fun query listed =>
    AList.lookup_isSome.mp (inside query (AList.lookup_isSome.mpr listed))
  have bound := (inner.keys_nodup.subperm subset).length_le
  simpa only [AList.keys,List.keys,List.length_map] using bound

-- What a column lacks of a map is queued, and every entry is under its digest.
structure Tracked (digest : ν → κ) (stored held : AList fun _ : κ => ν) (pending : List (κ × ν)) : Prop where
  keyed : ∀ key text, held.lookup key = some text → digest text = key
  split : ∀ key text, held.lookup key = some text ↔ stored.lookup key = some text ∨ (key,text) ∈ pending

theorem Tracked.add (injective : Function.Injective digest) (tracked : Tracked digest stored held pending) (text : ν) :
    Tracked digest stored (held.insert (digest text) text)
      (if held.lookup (digest text) = none then pending ++ [(digest text,text)] else pending) := by
  obtain ⟨keyed,split⟩ := tracked
  refine ⟨fun key other found => ?_,fun key other => ?_⟩
  · obtain ⟨rfl,rfl⟩ | ⟨_,found⟩ := lookup_insert_ok found
    · rfl
    · exact keyed key other found
  · by_cases same : key = digest text
    · subst same
      rw [AList.lookup_insert,Option.some.injEq]
      split
      next absent =>
        rw [List.mem_append,← or_assoc,← split,absent]
        simp [eq_comm]
      next present =>
        obtain ⟨old,found⟩ := Option.ne_none_iff_exists'.mp present
        rw [← split,found,injective (keyed _ _ found),Option.some.injEq]
    · rw [AList.lookup_insert_ne same,split]
      split
      next => simp [same]
      next => rfl

theorem Tracked.drain (tracked : Tracked digest stored held pending) :
    Tracked digest (pending.foldl (fun found entry => found.insert entry.1 entry.2) stored) held [] := by
  refine ⟨tracked.keyed,fun key text => ?_⟩
  simp only [List.not_mem_nil,or_false]
  constructor
  · intro found
    have present := (tracked.split key text).mp found
    obtain ⟨other,again⟩ := Option.isSome_iff_exists.mp
      (lookup_kept (present.imp (fun old => by rw [old]; rfl) fun queued => ⟨text,queued⟩))
    have also := (tracked.split key other).mpr (lookup_inserted again)
    rw [again,← also,found]
  · exact fun found => (tracked.split key text).mpr (lookup_inserted found)

theorem Tracked.prune (tracked : Tracked digest stored held pending) (kept : κ → Bool) :
    Tracked digest (only stored fun key => ((only held kept).lookup key).isSome) (only held kept) (pending.filter (kept ·.1)) := by
  obtain ⟨keyed,split⟩ := tracked
  refine ⟨fun key text found => keyed key text (lookup_only.mp found).1,fun key text => ?_⟩
  rw [lookup_only,lookup_only,List.mem_filter,split]
  constructor
  · rintro ⟨old | queued,keep⟩
    · exact .inl ⟨old,by rw [lookup_only.mpr ⟨(split key text).mpr (.inl old),keep⟩]; rfl⟩
    · exact .inr ⟨queued,keep⟩
  · rintro (⟨old,present⟩ | ⟨queued,keep⟩)
    · obtain ⟨other,found⟩ := Option.isSome_iff_exists.mp present
      exact ⟨.inl old,(lookup_only.mp found).2⟩
    · exact ⟨.inr queued,keep⟩
end
section
variable {hasher : Hasher β} {store : Persisted β} {trie after : Trie β} {map : StateMap} {tree : BitTree (List Byte)}

structure Backed (hasher : Hasher β) (store : Persisted β) (trie : Trie β) : Prop where
  nodes : Tracked hasher.hashNode store.nodes trie.nodes trie.pendingNodes
  values : Tracked hasher.hashValue store.values trie.values trie.pendingValues

theorem backed_steady (injective : hasher.Injective) (store : Persisted β) : Steady hasher (Backed hasher store) where
  node _ node backed := ⟨backed.nodes.add injective.node node.encode,backed.values⟩
  value _ value backed := ⟨backed.nodes,backed.values.add injective.value value⟩
  root _ _ backed := ⟨backed.nodes,backed.values⟩

theorem rebuild_nodes {root hash : Hash β} : (store.rebuild root).nodes.lookup hash = some text ↔ store.nodes.lookup hash = some text :=
  ⟨fun found => mem_listed.mp (lookup_refill found),lookup_relisted⟩

theorem rebuild_values {root hash : Hash β} :
    (store.rebuild root).values.lookup hash = some value ↔ store.values.lookup hash = some value :=
  ⟨fun found => mem_listed.mp (lookup_refill found),lookup_relisted⟩

theorem Backed.keeps (backed : Backed hasher store trie) (root : Hash β) : (store.rebuild root).Keeps hasher trie where
  nodes _ held := (backed.nodes.split _ _).mpr (.inl (rebuild_nodes.mp held))
  values _ held := (backed.values.split _ _).mpr (.inl (rebuild_values.mp held))

theorem Backed.rebuilds (backed : Backed hasher store trie) (nodes : trie.pendingNodes = []) (values : trie.pendingValues = [])
    (root : Hash β) : trie.Keeps hasher (store.rebuild root) where
  nodes _ held := rebuild_nodes.mpr (((backed.nodes.split _ _).mp held).resolve_right (by simp [nodes]))
  values _ held := rebuild_values.mpr (((backed.values.split _ _).mp held).resolve_right (by simp [values]))

theorem Represents.keep (represents : Represents hasher trie map) (keeps : trie.Keeps hasher after)
    (root : after.root = trie.root) : Represents hasher after map :=
  ⟨represents.fits,root.trans represents.root,fun tree present => (represents.held tree present).keep keeps⟩

theorem put_keeps (backed : Backed hasher store trie) (root : Hash β) :
    (store.rebuild root).Keeps hasher ((store.put trie.pendingNodes trie.pendingValues).rebuild root) where
  nodes _ held := rebuild_nodes.mpr (((backed.nodes.drain).split _ _).mp
    ((backed.keeps root).nodes _ held) |>.resolve_right List.not_mem_nil)
  values _ held := rebuild_values.mpr (((backed.values.drain).split _ _).mp
    ((backed.keeps root).values _ held) |>.resolve_right List.not_mem_nil)
end
section
variable {hasher : Hasher β} {trie : Trie β} {tree : BitTree (List Byte)} {nodes values : List (Hash β)}

def Node.children : Node β → List (Hash β)
  | .leaf _ _ => []
  | .branch left right => [right,left]
  | .extension _ child => [child]

def Retains (trie : Trie β) (hash : Hash β) (children values : List (Hash β)) : Prop :=
  ∃ node, trie.fetchNode hash = .ok node ∧ children = node.children ∧ ∀ suffix valueHash, node = .leaf suffix valueHash → valueHash ∈ values

variable {node : Node β}

theorem retainBelow_ok (run : trie.retainBelow hasher values node = .ok (more,after)) :
    more = node.children ∧ values ⊆ after ∧ ∀ suffix valueHash, node = .leaf suffix valueHash → valueHash ∈ after := by
  cases node with
  | leaf suffix valueHash =>
    rw [Trie.retainBelow] at run
    split at run
    next known =>
      cases run
      refine ⟨rfl,List.Subset.refl _,?_⟩
      rintro _ _ ⟨⟩
      exact known
    next =>
      obtain ⟨value,-,run⟩ := bind_ok.mp run
      obtain ⟨_,-,run⟩ := bind_ok.mp run
      cases run
      refine ⟨rfl,List.subset_cons_self _ _,?_⟩
      rintro _ _ ⟨⟩
      exact List.mem_cons_self
  | branch left right | extension stem child =>
    cases run
    exact ⟨rfl,List.Subset.refl _,by simp⟩

theorem retain_expands (hash : Hash β) (values more after : List (Hash β)) (run : trie.retain hasher hash values = .ok (more,after)) :
    Retains trie hash more after ∧ ∀ other children, Retains trie other children values → Retains trie other children after := by
  obtain ⟨bytes,found,run⟩ := bind_ok.mp run
  obtain ⟨_,-,run⟩ := bind_ok.mp run
  obtain ⟨node,decoded,run⟩ := bind_ok.mp run
  rw [mapError_ok] at decoded
  rw [required_ok] at found
  obtain ⟨rfl,grows,leaf⟩ := retainBelow_ok run
  refine ⟨⟨node,?_,rfl,leaf⟩,?_⟩
  · rw [Trie.fetchNode,found,required_some,ok_bind,decoded]
    rfl
  · rintro other children ⟨node,read,same,below⟩
    exact ⟨node,read,same,fun suffix valueHash equal => grows (below suffix valueHash equal)⟩

theorem retain_stored (held : trie.Stores hasher node) (packed : node.Packed) :
    trie.retain hasher (hasher.digest node) values = trie.retainBelow hasher values node := by
  have found : trie.nodes.lookup (hasher.digest node) = some node.encode := held
  rw [Trie.retain,found,required_some,ok_bind,ensure_pos (show hasher.hashNode node.encode = hasher.digest node from rfl),ok_bind,
    Node.decode_encode packed]
  rfl

theorem keepOnly_stores (held : trie.Stores hasher node) (kept : hasher.digest node ∈ nodes) :
    (trie.keepOnly nodes values).Stores hasher node :=
  lookup_only.mpr ⟨held,decide_eq_true kept⟩

def Rooted (hasher : Hasher β) (trie : Trie β) (hash : Hash β) : Prop :=
  ∃ tree offset, hash = hasher.root tree ∧ trie.Holds hasher tree ∧ Fits offset tree

theorem retain_rooted (hash : Hash β) (values : List (Hash β)) (rooted : Rooted hasher trie hash) :
    ∃ more after, trie.retain hasher hash values = .ok (more,after) ∧ more.length ≤ 2 ∧
      ∀ child ∈ more, child = zeroHash ∨ Rooted hasher trie child := by
  obtain ⟨tree,offset,rfl,holds,fits⟩ := rooted
  cases tree with
  | leaf suffix value =>
    have whole := fits suffix value (BitTree.get_leaf.mpr ⟨rfl,rfl⟩)
    have found : trie.values.lookup (hasher.hashValue value) = some value := holds.2
    rw [Hasher.root,retain_stored holds.1 ⟨suffix,by omega,rfl⟩,Hasher.leaf,Trie.retainBelow]
    split
    · exact ⟨_,_,rfl,by simp,by simp⟩
    · rw [found,required_some,ok_bind,ensure_pos rfl]
      exact ⟨_,_,rfl,by simp,by simp⟩
  | fork stem left right =>
    by_cases empty : stem = []
    · subst empty
      rw [Hasher.root,Hasher.stemmed,if_pos rfl,retain_stored holds.2.2.1 trivial]
      refine ⟨_,_,rfl,by simp,fun child among => .inr ?_⟩
      rcases List.mem_pair.mp among with rfl | rfl
      · exact ⟨right,_,rfl,holds.2.1,fits.side true⟩
      · exact ⟨left,_,rfl,holds.1,fits.side false⟩
    · have short := fits.short_stem
      rw [Hasher.root,Hasher.stemmed,if_neg empty,retain_stored (holds.2.2.2 empty) ⟨stem,by omega,rfl⟩]
      refine ⟨_,_,rfl,by simp,fun child among => .inr ?_⟩
      rw [List.mem_singleton.mp among]
      exact ⟨.fork [] left right,_,rfl,holds_below holds,fits.below⟩

theorem retainRoots_total {Fine : Hash β → Prop} {roots : List (Hash β)}
    (retains : ∀ hash values, Fine hash → ∃ more after, trie.retain hasher hash values = .ok (more,after) ∧ more.length ≤ 2 ∧
      ∀ child ∈ more, child = zeroHash ∨ Fine child)
    (fine : ∀ hash ∈ trie.root::roots, hash = zeroHash ∨ Fine hash) : ∃ pruned, trie.retainRoots hasher roots = .ok pruned := by
  have bound (hash : Hash β) (good : Fine hash) : hash ∈ trie.nodes.keys := by
    obtain ⟨more,after,run,-⟩ := retains hash [] good
    obtain ⟨bytes,found,-⟩ := bind_ok.mp run
    exact AList.mem_keys.mpr (AList.lookup_isSome.mp (by rw [required_ok.mp found]; rfl))
  have length : trie.nodes.keys.length = trie.nodes.entries.length := List.length_map _
  obtain ⟨⟨nodes,values⟩,swept⟩ : ∃ result, sweep (· = zeroHash) (trie.retain hasher) .diverged
      (roots.length + 1 + 2 * trie.nodes.entries.length) (trie.root::roots.reverse) [] [] = .ok result :=
    sweep_total bound retains (by simpa using fine) List.nodup_nil (List.nil_subset _) (by simp [length])
  exact ⟨_,by rw [Trie.retainRoots,swept]; rfl⟩

variable (closed : ∀ hash ∈ nodes, ∃ children, Retains trie hash children values ∧ ∀ child ∈ children, child = zeroHash ∨ child ∈ nodes)
include closed

theorem closed_child {hash child : Hash β} (met : hash ∈ nodes) (read : trie.fetchNode hash = .ok node)
    (below : child ∈ node.children) (nonzero : child ≠ zeroHash) : child ∈ nodes := by
  obtain ⟨_,⟨other,again,rfl,-⟩,placed⟩ := closed hash met
  rw [read] at again
  cases again
  exact (placed child below).resolve_left nonzero

theorem keepOnly_holds (never : hasher.NeverZero) {offset : Nat} (holds : trie.Holds hasher tree) (fits : Fits offset tree)
    (met : hasher.root tree ∈ nodes) : (trie.keepOnly nodes values).Holds hasher tree := by
  induction tree generalizing offset with
  | leaf suffix value =>
    have whole := fits suffix value (BitTree.get_leaf.mpr ⟨rfl,rfl⟩)
    obtain ⟨_,⟨node,read,-,leaf⟩,-⟩ := closed _ met
    rw [fetch_leaf holds (by omega)] at read
    cases read
    exact ⟨keepOnly_stores holds.1 met,lookup_only.mpr ⟨holds.2,decide_eq_true (leaf _ _ rfl)⟩⟩
  | fork stem left right onLeft onRight =>
    have branch : hasher.root (.fork [] left right) ∈ nodes := by
      by_cases empty : stem = []
      · exact empty ▸ met
      · have short := fits.short_stem
        exact closed_child closed met (fetch_extension holds empty (by omega)) (by simp [Node.children]) (root_nonzero never)
    have read := fetch_branch (holds_below holds)
    refine ⟨onLeft holds.1 (fits.side false) ?_,onRight holds.2.1 (fits.side true) ?_,keepOnly_stores holds.2.2.1 branch,fun some => ?_⟩
    · exact closed_child closed branch read (by simp [Node.children]) (root_nonzero never)
    · exact closed_child closed branch read (by simp [Node.children]) (root_nonzero never)
    · refine keepOnly_stores (holds.2.2.2 some) ?_
      rwa [Hasher.root,Hasher.stemmed,if_neg some] at met
end
section
variable {hasher : Hasher β} {store : Persisted β} {trie other : Trie β} {map : StateMap} {key : List Byte} {root : Hash β}
variable {path : BitPath}

theorem lookupFrom_get {budget consumed : Nat} (run : (store.rebuild root).getFrom path budget current consumed = .ok result) :
    store.lookupFrom path budget current consumed = .ok result := by
  induction budget generalizing current consumed with
  | zero => cases run
  | succ budget ih =>
    rw [Trie.getFrom] at run
    rw [Persisted.lookupFrom]
    by_cases zero : current = zeroHash
    · rw [if_pos zero] at run ⊢
      exact run
    · rw [if_neg zero] at run ⊢
      obtain ⟨node,read,run⟩ := bind_ok.mp run
      obtain ⟨bytes,found,decoded⟩ := bind_ok.mp read
      rw [mapError_ok] at decoded
      rw [required_ok,rebuild_nodes] at found
      rw [found,required_some,ok_bind,decoded]
      cases node with
      | leaf suffix valueHash =>
        obtain ⟨remaining,cut,run⟩ := bind_ok.mp run
        refine bind_ok.mpr ⟨_,rfl,bind_ok.mpr ⟨remaining,cut,?_⟩⟩
        split at run
        next same =>
          obtain ⟨value,held,run⟩ := bind_ok.mp run
          rw [required_ok,rebuild_values] at held
          rw [if_pos same,held]
          exact run
        next apart =>
          rw [if_neg apart]
          exact run
      | branch left right =>
        refine bind_ok.mpr ⟨_,rfl,?_⟩
        dsimp only at run ⊢
        split at run
        next ended =>
          rw [if_pos ended]
          exact run
        next inside =>
          obtain ⟨bit,turn,run⟩ := bind_ok.mp run
          rw [if_neg inside]
          exact bind_ok.mpr ⟨bit,turn,ih run⟩
      | extension stem child =>
        obtain ⟨passed,along,run⟩ := bind_ok.mp run
        refine bind_ok.mpr ⟨_,rfl,bind_ok.mpr ⟨passed,along,?_⟩⟩
        cases passed with
        | none => exact run
        | some rest => exact ih run

theorem forKey_fits (made : BitPath.forKey key = .ok path) : KeyFits key := by
  obtain ⟨_,-,made⟩ := bind_ok.mp made
  obtain ⟨_,room,-⟩ := bind_ok.mp made
  rw [ensure_ok,List.length_append,leBytes_length] at room
  exact room

theorem forKey_bind (same : KeyFits key → BitPath.forKey key >>= one = BitPath.forKey key >>= two) :
    BitPath.forKey key >>= one = BitPath.forKey key >>= two := by
  cases made : BitPath.forKey key with
  | error => rfl
  | ok path => exact made ▸ same (forKey_fits made)

theorem lookup_represents (never : hasher.NeverZero) (represents : Represents hasher trie map)
    (rebuilt : Represents hasher (store.rebuild trie.root) map) (key : List Byte) : store.lookupPersisted trie.root key = trie.get key := by
  refine forKey_bind fun fit => ?_
  have short := fit.short
  have scale : 1 * 2 ^ 32 ≤ (store.nodes.entries.length + 1) * 2 ^ 32 := Nat.mul_le_mul_right _ (by omega)
  have read := getFrom_represents never fit rebuilt (show (keyBits key).length < (store.nodes.entries.length + 1) * 2 ^ 32 by omega)
  rw [show BitPath.forKey key >>= (fun path => trie.getFrom path trie.budget trie.root 0) = trie.get key from rfl,
    get_represents never fit represents,forKey_ofBits fit,ok_bind]
  exact lookupFrom_get read
end

theorem branch_child {left right : Hash β} (bit : Bool) : (if bit then right else left) ∈ (Node.branch left right).children := by
  cases bit <;> simp [Node.children]

section
variable {trie other : Trie β} {inside : Hash β → Prop}

-- A store that gives what another gives for the hashes it is asked for.
structure Alike (trie : Trie β) (inside : Hash β → Prop) (other : Trie β) : Prop where
  nodes : ∀ hash, inside hash → other.fetchNode hash = trie.fetchNode hash
  values : ∀ hash suffix valueHash, inside hash → trie.fetchNode hash = .ok (.leaf suffix valueHash) →
    other.values.lookup valueHash = trie.values.lookup valueHash

variable (alike : Alike trie inside other)
  (closed : ∀ hash node, inside hash → trie.fetchNode hash = .ok node → ∀ child ∈ node.children, child = zeroHash ∨ inside child)
include alike closed

theorem node_alike {hash : Hash β} (within : hash = zeroHash ∨ inside hash) {empty : Except Fault ρ} {one two : Node β → Except Fault ρ}
    (rest : ∀ node, trie.fetchNode hash = .ok node → inside hash → (∀ child ∈ node.children, child = zeroHash ∨ inside child) →
      one node = two node) :
    (if hash = zeroHash then empty else other.fetchNode hash >>= one) = if hash = zeroHash then empty else trie.fetchNode hash >>= two := by
  by_cases zero : hash = zeroHash
  · rw [if_pos zero,if_pos zero]
  have known := within.resolve_left zero
  rw [if_neg zero,if_neg zero,alike.nodes _ known]
  cases read : trie.fetchNode hash with
  | error reason => rfl
  | ok node => exact rest node read known (closed _ _ known read)

theorem getFrom_alike {current : Hash β} (within : current = zeroHash ∨ inside current) (path : BitPath) (budget consumed : Nat) :
    other.getFrom path budget current consumed = trie.getFrom path budget current consumed := by
  induction budget generalizing current consumed with
  | zero => rfl
  | succ budget ih =>
    refine node_alike alike closed within fun node read known below => ?_
    cases node with
    | leaf suffix valueHash => simp only [alike.values _ _ _ known read]
    | branch left right =>
      have sides (bit : Bool) (consumed : Nat) := ih (below _ (branch_child bit)) consumed
      simp only [sides]
    | extension stem child => simp only [ih (below child List.mem_cons_self)]

theorem proveFrom_alike {current : Hash β} (within : current = zeroHash ∨ inside current) (path : BitPath) (budget consumed : Nat)
    (steps : List (ProofStep β)) : other.proveFrom path budget current consumed steps = trie.proveFrom path budget current consumed steps := by
  induction budget generalizing current consumed steps with
  | zero => rfl
  | succ budget ih =>
    refine node_alike alike closed within fun node read known below => ?_
    cases node with
    | leaf suffix valueHash => rfl
    | branch left right =>
      have sides (bit : Bool) (consumed : Nat) (steps : List (ProofStep β)) := ih (below _ (branch_child bit)) consumed steps
      simp only [sides]
    | extension stem child => simp only [ih (below child List.mem_cons_self)]

theorem collectKeys_alike {hash : Hash β} (within : hash = zeroHash ∨ inside hash) (budget : Nat) (above : List Bool) :
    other.collectKeys budget hash above = trie.collectKeys budget hash above := by
  induction budget generalizing hash above with
  | zero => rfl
  | succ budget ih =>
    refine node_alike alike closed within fun node read known below => ?_
    cases node with
    | leaf suffix valueHash => rfl
    | branch left right => simp only [ih (below left (branch_child false)),ih (below right (branch_child true))]
    | extension stem child => simp only [ih (below child List.mem_cons_self)]
end
section
variable {hasher : Hasher β} {state : Persistence β}

theorem Trie.Holds.both {one two three : Trie β}
    (nodes : ∀ node, one.Stores hasher node → two.Stores hasher node → three.Stores hasher node)
    (values : ∀ value, one.StoresValue hasher value → two.StoresValue hasher value → three.StoresValue hasher value)
    (first : one.Holds hasher tree) (second : two.Holds hasher tree) : three.Holds hasher tree := by
  induction tree with
  | leaf suffix value => exact ⟨nodes _ first.1 second.1,values _ first.2 second.2⟩
  | fork stem left right onLeft onRight =>
    exact ⟨onLeft first.1 second.1,onRight first.2.1 second.2.1,nodes _ first.2.2.1 second.2.2.1,
      fun some => nodes _ (first.2.2.2 some) (second.2.2.2 some)⟩

structure Persistence.Sound (hasher : Hasher β) (state : Persistence β) : Prop where
  backed : Backed hasher state.store state.live
  live : ∃ map, Represents hasher state.live map
  drained : ∀ snapshot ∈ state.drained, ∃ map, Represents hasher snapshot map ∧ Represents hasher (state.store.rebuild snapshot.root) map

theorem drain_sound (sound : state.Sound hasher) : ∃ after, state.step hasher .drain = .ok after ∧ after.Sound hasher ∧
      after.live.pendingNodes = [] ∧ after.live.pendingValues = [] := by
  obtain ⟨backed,⟨map,represents⟩,drained⟩ := sound
  have empty : Backed hasher (state.store.put state.live.pendingNodes state.live.pendingValues)
      { state.live with pendingNodes := [],pendingValues := [] } :=
    ⟨backed.nodes.drain,backed.values.drain⟩
  have current : Represents hasher { state.live with pendingNodes := [],pendingValues := [] } map :=
    ⟨represents.fits,represents.root,fun tree present => (represents.held tree present).keep ⟨fun _ => id,fun _ => id⟩⟩
  refine ⟨_,rfl,⟨empty,⟨map,current⟩,fun snapshot among => ?_⟩,rfl,rfl⟩
  rcases List.mem_cons.mp among with rfl | earlier
  · exact ⟨map,current,current.keep (empty.rebuilds rfl rfl _) rfl⟩
  · obtain ⟨old,was,kept⟩ := drained snapshot earlier
    exact ⟨old,was,kept.keep (put_keeps backed _) rfl⟩

theorem retain_sound (never : hasher.NeverZero) {roots : List (Hash β)} (sound : state.Sound hasher)
    (run : state.live.retainRoots hasher roots = .ok pruned) :
    Persistence.Sound hasher ⟨pruned,state.store.deleteMissing pruned,state.drained.filter (·.root ∈ pruned.root::roots)⟩ := by
  obtain ⟨backed,⟨map,represents⟩,drained⟩ := sound
  obtain ⟨⟨nodes,values⟩,swept,done⟩ := bind_ok.mp run
  cases done
  obtain ⟨met,closed⟩ := sweep_closed retain_expands swept (by simp)
  -- A tree the live trie holds under a retained root stays held.
  have stays {map : StateMap} (fits : AllFit map) {tree : BitTree (List Byte)} (whole : canonicalTree map = some tree)
      (holds : state.live.Holds hasher tree) (kept : hasher.root tree ∈ state.live.root::roots) :
      (state.live.keepOnly nodes values).Holds hasher tree := by
    refine keepOnly_holds closed never holds (fits_tree fits whole) ((met _ (.inr ?_)).resolve_left (root_nonzero never))
    simpa using kept
  refine ⟨⟨backed.nodes.prune _,backed.values.prune _⟩,
    ⟨map,represents.fits,represents.root,fun tree present => ?_⟩,fun snapshot among => ?_⟩
  · refine stays represents.fits present (represents.held tree present) ?_
    rw [represents.root,present]
    exact List.mem_cons_self
  · obtain ⟨listed,kept⟩ := List.mem_filter.mp among
    obtain ⟨old,was,rebuilt⟩ := drained snapshot listed
    refine ⟨old,was,rebuilt.fits,rebuilt.root,fun tree present => ?_⟩
    have stored := rebuilt.held tree present
    have root : snapshot.root = hasher.root tree := by rw [was.root,present]; rfl
    have live := stays was.fits present (stored.keep (backed.keeps _)) (root ▸ of_decide_eq_true kept)
    refine stored.both (fun node here there => ?_) (fun value here there => ?_) live
    · exact rebuild_nodes.mpr (lookup_only.mpr ⟨rebuild_nodes.mp here,Option.isSome_iff_exists.mpr ⟨_,there⟩⟩)
    · exact rebuild_values.mpr (lookup_only.mpr ⟨rebuild_values.mp here,Option.isSome_iff_exists.mpr ⟨_,there⟩⟩)

theorem step_sound (injective : hasher.Injective) (never : hasher.NeverZero) (sound : state.Sound hasher)
    (call : PersistCall β) (fits : call.Fits) : ∃ after, state.step hasher call = .ok after ∧ after.Sound hasher := by
  cases call with
  | insert key value =>
    obtain ⟨map,represents⟩ := sound.live
    obtain ⟨after,run,next,grows⟩ := insert_represents injective never fits represents value
    have backed := grows.built _ (backed_steady injective _) sound.backed
    exact ⟨{ state with live := after },by rw [Persistence.step,run]; rfl,backed,⟨_,next⟩,sound.drained⟩
  | remove key =>
    obtain ⟨map,represents⟩ := sound.live
    obtain ⟨after,run,next,grows⟩ := remove_represents injective never fits represents
    have backed := grows.built _ (backed_steady injective _) sound.backed
    exact ⟨{ state with live := after },by rw [Persistence.step,run]; rfl,backed,⟨_,next⟩,sound.drained⟩
  | drain =>
    obtain ⟨after,run,kept,-⟩ := drain_sound sound
    exact ⟨after,run,kept⟩
  | retain roots =>
    cases run : state.live.retainRoots hasher roots with
    | error => exact ⟨state,by rw [Persistence.step,run]; rfl,sound⟩
    | ok pruned => exact ⟨_,by rw [Persistence.step,run]; rfl,retain_sound never sound run⟩

theorem run_sound_from (injective : hasher.Injective) (never : hasher.NeverZero) (calls : List (PersistCall β))
    (fits : ∀ call ∈ calls, call.Fits) (sound : state.Sound hasher) : ∃ after, state.run hasher calls = .ok after ∧ after.Sound hasher := by
  induction calls generalizing state with
  | nil => exact ⟨state,rfl,sound⟩
  | cons call rest ih =>
    obtain ⟨middle,run,next⟩ := step_sound injective never sound call (fits call List.mem_cons_self)
    obtain ⟨after,others,last⟩ := ih (fun other listed => fits other (List.mem_cons_of_mem _ listed)) next
    refine ⟨after,?_,last⟩
    rw [Persistence.run,List.foldlM_cons,run,ok_bind]
    exact others

theorem retain_total (sound : state.Sound hasher)
    (known : ∀ root ∈ roots, root = zeroHash ∨ ∃ snapshot ∈ state.drained, snapshot.root = root) :
    ∃ pruned, state.live.retainRoots hasher roots = .ok pruned := by
  have rooted {trie : Trie β} {map : StateMap} (represents : Represents hasher trie map)
      (keeps : trie.Keeps hasher state.live) : trie.root = zeroHash ∨ Rooted hasher state.live trie.root := by
    rw [represents.root]
    cases whole : canonicalTree map with
    | none => exact .inl rfl
    | some tree => exact .inr ⟨tree,0,rfl,(represents.held tree whole).keep keeps,fits_tree represents.fits whole⟩
  obtain ⟨backed,⟨map,represents⟩,drained⟩ := sound
  refine retainRoots_total retain_rooted fun hash among => ?_
  rcases List.mem_cons.mp among with rfl | listed
  · exact rooted represents .refl
  · rcases known hash listed with zero | ⟨snapshot,taken,rfl⟩
    · exact .inl zero
    · obtain ⟨old,-,kept⟩ := drained snapshot taken
      have below := rooted kept (backed.keeps snapshot.root)
      exact below

def Persistence.Rebuilds (state : Persistence β) : Prop := (∀ key, (state.store.rebuild state.live.root).get key = state.live.get key) ∧
    (state.store.rebuild state.live.root).keys = state.live.keys ∧
    ∀ key, (state.store.rebuild state.live.root).prove key = state.live.prove key

-- A lookup at a drained root answers as the trie did when it was drained.
def Persistence.Recalls (state : Persistence β) : Prop :=
  ∀ snapshot ∈ state.drained, ∀ key, state.store.lookupPersisted snapshot.root key = snapshot.get key

theorem Persistence.Sound.rebuilds (sound : state.Sound hasher)
    (nodes : state.live.pendingNodes = []) (values : state.live.pendingValues = []) : state.Rebuilds := by
  have nodesSame (hash : Hash β) : (state.store.rebuild state.live.root).nodes.lookup hash = state.live.nodes.lookup hash :=
    Option.ext fun text => rebuild_nodes.trans (by rw [sound.backed.nodes.split,nodes]; simp)
  have valuesSame (hash : Hash β) : (state.store.rebuild state.live.root).values.lookup hash = state.live.values.lookup hash :=
    Option.ext fun text => rebuild_values.trans (by rw [sound.backed.values.split,values]; simp)
  have alike : Alike state.live (fun _ => True) (state.store.rebuild state.live.root) :=
    ⟨fun hash _ => by rw [Trie.fetchNode,Trie.fetchNode,nodesSame],fun _ _ valueHash _ _ => valuesSame valueHash⟩
  have closed (hash : Hash β) (node : Node β) (_ : True) (_ : state.live.fetchNode hash = .ok node) :
      ∀ child ∈ node.children, child = zeroHash ∨ True := fun _ _ => .inr trivial
  have budget : (state.store.rebuild state.live.root).budget = state.live.budget := by
    have length : (state.store.rebuild state.live.root).nodes.entries.length = state.live.nodes.entries.length :=
      le_antisymm (keys_le fun hash => by rw [nodesSame]; exact id) (keys_le fun hash => by rw [nodesSame]; exact id)
    rw [Trie.budget,Trie.budget,length]
  refine ⟨fun key => ?_,?_,fun key => ?_⟩
  · simp only [Trie.get,budget,getFrom_alike alike closed (.inr trivial)]
    rfl
  · simp only [Trie.keys,budget,collectKeys_alike alike closed (.inr trivial)]
    rfl
  · simp only [Trie.prove,budget,proveFrom_alike alike closed (.inr trivial)]
    rfl

theorem Persistence.Sound.recalls (never : hasher.NeverZero) (sound : state.Sound hasher) : state.Recalls := fun snapshot among key => by
  obtain ⟨map,was,kept⟩ := sound.drained snapshot among
  exact lookup_represents never was kept key

-- Columns that hold every entry of a trie under its digest.
structure Persisted.Complete (hasher : Hasher β) (store : Persisted β) (root : Hash β) : Prop where
  nodes : ∀ hash text, store.nodes.lookup hash = some text → hasher.hashNode text = hash
  values : ∀ hash value, store.values.lookup hash = some value → hasher.hashValue value = hash
  tree : ∃ map, Represents hasher (store.rebuild root) map

-- From complete columns, calls that end with a drain leave columns that rebuild the live
-- trie and recall drained roots; pruning at drained roots keeps both.
theorem persisted_trie_agrees (injective : hasher.Injective) (never : hasher.NeverZero) {store : Persisted β} {root : Hash β}
    (complete : store.Complete hasher root) (calls : List (PersistCall β)) (fits : ∀ call ∈ calls, call.Fits) :
    ∃ state, Persistence.run hasher ⟨store.rebuild root,store,[]⟩ (calls ++ [.drain]) = .ok state ∧ state.Rebuilds ∧ state.Recalls ∧
      ∀ roots, (∀ kept ∈ roots, kept = zeroHash ∨ ∃ snapshot ∈ state.drained, snapshot.root = kept) →
        ∃ pruned, state.live.retainRoots hasher roots = .ok pruned.live ∧ state.step hasher (.retain roots) = .ok pruned ∧
          pruned.Rebuilds ∧ pruned.Recalls := by
  have initial : Persistence.Sound hasher ⟨store.rebuild root,store,[]⟩ :=
    ⟨⟨⟨fun hash text found => complete.nodes hash text (rebuild_nodes.mp found),fun hash text =>
        rebuild_nodes.trans (or_iff_left List.not_mem_nil).symm⟩,
      ⟨fun hash text found => complete.values hash text (rebuild_values.mp found),fun hash value =>
        rebuild_values.trans (or_iff_left List.not_mem_nil).symm⟩⟩,complete.tree,by simp⟩
  obtain ⟨middle,run,sound⟩ := run_sound_from injective never calls fits initial
  obtain ⟨state,drained,kept,nodes,values⟩ := drain_sound sound
  refine ⟨state,?_,kept.rebuilds nodes values,kept.recalls never,fun roots known => ?_⟩
  · rw [Persistence.run] at run ⊢
    rw [List.foldlM_append,run,ok_bind]
    simp [drained]
  · obtain ⟨live,pruned⟩ := retain_total kept known
    have next := retain_sound never kept pruned
    obtain ⟨⟨nodeHashes,valueHashes⟩,-,done⟩ := bind_ok.mp pruned
    cases done
    refine ⟨_,pruned,by rw [Persistence.step,pruned]; rfl,next.rebuilds ?_ ?_,next.recalls never⟩
    · simp [Trie.keepOnly,nodes]
    · simp [Trie.keepOnly,values]
end

def sampleHistory : List (PersistCall Symbol) := [.insert [0] [1],.drain,.insert [1] [2],.remove [0],.retain [],.drain,.insert [0] [1]]

theorem sample_history_agrees : ∃ state, Persistence.run spelledHasher ⟨Persisted.rebuild ⟨∅,∅⟩ zeroHash,⟨∅,∅⟩,[]⟩
    (sampleHistory ++ [.drain]) = .ok state ∧ state.Rebuilds ∧ state.Recalls ∧
    ∃ pruned : Persistence Symbol, state.live.retainRoots spelledHasher (state.drained.map (·.root)) = .ok pruned.live ∧ pruned.Rebuilds ∧ pruned.Recalls := by
  have complete : Persisted.Complete spelledHasher ⟨∅,∅⟩ zeroHash := ⟨by simp,by simp,∅,new_represents spelledHasher⟩
  obtain ⟨state,run,rebuilds,recalls,prunes⟩ := persisted_trie_agrees spelledHasher_injective spelledHasher_neverZero complete sampleHistory
    (by simp [sampleHistory,PersistCall.Fits,KeyFits])
  obtain ⟨pruned,kept,-,whole⟩ := prunes (state.drained.map (·.root)) fun kept listed => .inr (by simpa using listed)
  exact ⟨state,run,rebuilds,recalls,pruned,kept,whole⟩
end Neutrino.StateTrie
