import Neutrino.Sync.Receive

-- The peer has a whole trie and returns the next piece after each item's offset.

namespace Neutrino.StateSync
open Checks Bits Patricia StateTrie
variable {β : Type} [Alphabet β] [DecidableEq β]

def defaultMaxResponseSize : Nat := 32 * 1024 * 1024

-- An entry's other bytes: the item, the total length and the fragment's length.
def responseSize (entries : List (StateEntry β)) : Nat := 4 + (entries.map fun entry => 53 + entry.bytes.length).sum

section
variable (hasher : Hasher β) (trie : Trie β)

def objectBytes (object : StateItemKind × Hash β) : Option (List (Content β object.1)) := heldContent ⟨trie.nodes,trie.values⟩ object

abbrev pieceAt (item : StateItem β) (bytes : List (Content β item.kind)) : StateEntry β where
  item := item
  totalLen := bytes.length
  bytes := (bytes.drop item.offset).take maxStateFragmentBytes
  bounded := by rw [List.length_take]; omega

def serveItem (item : StateItem β) : Except SyncBackendError (StateEntry β) := do
  let bytes ← required (objectBytes trie item.object) (.notAvailable "state object unavailable")
  ensure (hashContent hasher item.kind bytes = item.hash) (.storage "persisted state content hash mismatch")
  ensure (¬(bytes.length < item.offset ∨ item.offset = bytes.length ∧ item.offset ≠ 0)) (.invalidRequest "state offset exceeds object")
  return pieceAt item bytes

def p2pStateNodes (root : Hash β) (items : List (StateItem β)) : Except SyncBackendError (List (StateEntry β)) := do
  ensure (items.length ≤ maxStateItems) (.invalidRequest "request exceeds the item limit")
  if root ≠ zeroHash then
    let bytes ← required (trie.nodes.lookup root) (.notAvailable "requested state root is unavailable")
    ensure (hasher.hashNode bytes = root) (.storage "persisted state root content hash mismatch")
    let _ ← (Node.decode bytes).mapError SyncBackendError.storedMalformed
  let entries ← items.mapM (serveItem hasher trie)
  ensure (responseSize entries < defaultMaxResponseSize) (.notAvailable "response exceeds the wire size limit")
  return entries

-- One exchange: the next items are asked for, answered and received.
def exchange (store : DownloadStore β) (root : Hash β) : Except SyncBackendError (DownloadStore β) := do
  let items ← stateDownloadItems store root
  let entries ← p2pStateNodes hasher trie root items
  let (after,outcome) := receiveStateEntries hasher store root items entries
  let _ ← outcome
  return after

def exchanges (root : Hash β) : Nat → DownloadStore β → Except SyncBackendError (DownloadStore β)
  | 0,store => .ok store
  | count+1,store => do
    let after ← exchange hasher trie store root
    exchanges root count after
end

def objectsOf (hasher : Hasher β) (whole : Option (BitTree (List Byte))) : List (StateItemKind × Hash β) :=
  (whole.elim [] fun tree => tree.subtrees.flatMap fun sub => (.node,hasher.root sub)::
    match sub with
    | .leaf _ value => [(.value,hasher.hashValue value)]
    | .fork _ _ _ => []).dedup

variable {hasher : Hasher β} {trie : Trie β}

theorem mem_objectsOf : object ∈ objectsOf hasher whole ↔ Named hasher whole object := by
  rw [objectsOf,List.mem_dedup]
  cases whole with
  | none =>
    obtain ⟨_ | _,_⟩ := object
    all_goals
      refine ⟨by simp,?_⟩
      rintro ⟨_,⟨_,none,_⟩,_⟩
      cases none
  | some tree =>
    simp only [Option.elim_some,List.mem_flatMap,List.mem_cons]
    constructor
    · rintro ⟨sub,inside,rfl | value⟩
      · exact ⟨(hasher.top sub).encode,⟨tree,rfl,sub,inside,rfl⟩,(root_top hasher sub).symm⟩
      · cases sub with
        | leaf suffix bytes =>
          rw [List.mem_singleton] at value
          exact value ▸ ⟨bytes,⟨tree,rfl,suffix,inside⟩,rfl⟩
        | fork => cases value
    · obtain ⟨_ | _,hash⟩ := object
      · rintro ⟨_,⟨_,same,sub,inside,rfl⟩,digest⟩
        cases same
        refine ⟨sub,inside,.inl ?_⟩
        rw [root_top]
        exact congrArg _ digest.symm
      · rintro ⟨bytes,⟨_,same,suffix,inside⟩,digest⟩
        cases same
        exact ⟨_,inside,.inr (List.mem_singleton.mpr (congrArg _ digest.symm))⟩

theorem holds_subtree (holds : trie.Holds hasher tree) (inside : sub ∈ tree.subtrees) : trie.Holds hasher sub := by
  induction tree with
  | leaf suffix value =>
    rw [BitTree.subtrees,List.mem_singleton] at inside
    exact inside ▸ holds
  | fork stem left right onLeft onRight =>
    simp only [BitTree.subtrees,List.mem_cons,List.mem_append] at inside
    obtain rfl | rfl | deep | deep := inside
    · exact holds
    · exact holds_below holds
    · exact onLeft holds.1 deep
    · exact onRight holds.2.1 deep

theorem stores_top (holds : trie.Holds hasher sub) : trie.Stores hasher (hasher.top sub) := by
  cases sub with
  | leaf suffix value => exact holds.1
  | fork stem left right =>
    by_cases none : stem = []
    · rw [Hasher.top,if_pos none]
      exact holds.2.2.1
    · rw [Hasher.top,if_neg none]
      simpa only [Hasher.root,Hasher.stemmed,if_true] using holds.2.2.2 none

theorem objectBytes_genuine (represents : Represents hasher trie map) (genuine : Genuine hasher (canonicalTree map) kind content) :
    objectBytes trie (kind,hashContent hasher kind content) = some content := by
  cases kind with
  | node =>
    obtain ⟨tree,whole,sub,inside,rfl⟩ := genuine
    exact stores_top (holds_subtree (represents.held tree whole) inside)
  | value =>
    obtain ⟨tree,whole,suffix,inside⟩ := genuine
    exact (holds_subtree (represents.held tree whole) inside).2

theorem serveItem_ok (represents : Represents hasher trie map) {item : StateItem β}
    {content : List (Content β item.kind)} (genuine : Genuine hasher (canonicalTree map) item.kind content)
    (named : hashContent hasher item.kind content = item.hash) (inside : item.offset < content.length ∨ item.offset = 0) :
    serveItem hasher trie item = .ok (pieceAt item content) := by
  have held : objectBytes trie item.object = some content := by
    have found := objectBytes_genuine represents genuine
    rwa [named] at found
  rw [serveItem,held,required_some,ok_bind,ensure_pos named,ok_bind,ensure_pos (by omega),ok_bind]
  rfl

theorem responseSize_small {entries : List (StateEntry β)} (few : entries.length ≤ maxStateItems) :
    responseSize entries < defaultMaxResponseSize := by
  have bound : (entries.map fun entry => 53 + entry.bytes.length).sum ≤ entries.length * (53 + maxStateFragmentBytes) := by
    clear few
    induction entries with
    | nil => simp
    | cons entry rest ih =>
      have piece := entry.bounded
      simp only [List.map_cons,List.sum_cons,List.length_cons,Nat.add_mul]
      omega
  have most := Nat.mul_le_mul_right (53 + maxStateFragmentBytes) few
  have small : 4 + maxStateItems * (53 + maxStateFragmentBytes) < defaultMaxResponseSize := by decide
  unfold responseSize
  omega

theorem p2pStateNodes_ok (represents : Represents hasher trie map) {items : List (StateItem β)}
    (few : items.length ≤ maxStateItems) (served : ∀ item ∈ items, serveItem hasher trie item = .ok (answers item)) :
    p2pStateNodes hasher trie trie.root items = .ok (items.map answers) := by
  have entries : items.mapM (serveItem hasher trie) = .ok (items.map answers) := mapM_ok served
  have small : responseSize (items.map answers) < defaultMaxResponseSize := responseSize_small (by rwa [List.length_map])
  rw [p2pStateNodes,ensure_pos few,ok_bind]
  by_cases zero : trie.root = zeroHash
  · simp only [ne_eq,zero,not_true_eq_false,if_false]
    rw [entries,ok_bind,ensure_pos small,ok_bind]
    rfl
  · cases whole : canonicalTree map with
    | none => exact absurd (by rw [represents.root,whole]; rfl) zero
    | some tree =>
      have root : trie.root = hasher.digest (hasher.top tree) := by
        rw [represents.root,whole,← root_top]
        rfl
      have stored : trie.nodes.lookup trie.root = some (hasher.top tree).encode := by
        rw [root]
        exact stores_top (represents.held tree whole)
      have packed : (hasher.top tree).Packed := top_packed (fits_tree represents.fits whole)
      have decoded := Node.decode_encode packed
      simp only [ne_eq,zero,not_false_eq_true,if_true]
      rw [stored,required_some,ok_bind,ensure_pos (show hasher.hashNode (hasher.top tree).encode = trie.root from root.symm),
        ok_bind,decoded,Except.mapError,ok_bind,entries,ok_bind,ensure_pos small,ok_bind]
      rfl
end Neutrino.StateSync
