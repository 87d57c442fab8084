import Neutrino.Trie.Operations

-- Downloading a state by content hash, in fragments; progress is a metadata row and a
-- row of bytes per object, written in one batch.

namespace Neutrino.StateSync
open Checks Bits StateTrie
variable {β : Type} [Alphabet β] [DecidableEq β]

inductive StateItemKind where
  | node
  | value
  deriving DecidableEq

structure StateItem (β : Type) where
  kind : StateItemKind
  hash : Hash β
  offset : Nat
  deriving DecidableEq

def StateItem.node (hash : Hash β) : StateItem β := ⟨.node,hash,0⟩
abbrev StateItem.object (item : StateItem β) : StateItemKind × Hash β := (item.kind,item.hash)

-- The symbols of an object's content: nodes hold digests, values only bytes.
abbrev Content (β : Type) : StateItemKind → Type
  | .node => β
  | .value => Byte

def maxStateItems : Nat := 128
def maxStateFragmentBytes : Nat := 64 * 1024
def maxEntryBytes : Nat := 64 * 1024 * 1024
def defaultMaxBytes : Nat := 64 * 1024 * 1024 * 1024
def maxEntries : Nat := 2000000

structure StateEntry (β : Type) where
  item : StateItem β
  totalLen : Nat
  bytes : List (Content β item.kind)
  bounded : bytes.length ≤ maxStateFragmentBytes

namespace StateEntry
variable (entry : StateEntry β)

def endOffset : Option Nat :=
  let reached := entry.item.offset + entry.bytes.length
  if reached < 2 ^ 64 then some reached else none

def validateFor (requested : StateItem β) : Bool :=
  decide (entry.item = requested) && decide (entry.item.offset ≤ entry.totalLen) &&
    entry.endOffset.any (fun reached => decide (reached ≤ entry.totalLen)) &&
    (!entry.bytes.isEmpty || decide (entry.item.offset = entry.totalLen))
end StateEntry

inductive SyncBackendError where
  | rejected (message : String)
  | malformed (error : TrieError)
  | notAvailable (message : String)
  | invalidRequest (message : String)
  | storage (message : String)
  | storedMalformed (error : TrieError)
  deriving DecidableEq

structure Download (β : Type) where
  root : Hash β
  pending : List (StateItem β)
  completed : List (StateItemKind × Hash β)
  bytes : Nat

namespace Download
variable (download : Download β)

def new (root : Hash β) : Download β where
  root := root
  pending := if root = zeroHash then [] else [StateItem.node root]
  completed := []
  bytes := 0

def next : List (StateItem β) := download.pending.take maxStateItems

def discover (kind : StateItemKind) (hash : Hash β) : Except SyncBackendError (Download β) := do
  if kind = .node ∧ hash = zeroHash then return download
  if (kind,hash) ∉ download.completed ∧ ∀ item ∈ download.pending, item.object ≠ (kind,hash) then
    ensure (download.completed.length + download.pending.length < maxEntries) (.notAvailable "state entry budget exceeded")
    return { download with pending := download.pending.insert ⟨kind,hash,0⟩ }
  else return download

def discoverChildren (text : List β) : Except SyncBackendError (Download β) := do
  match ← (Node.decode text).mapError SyncBackendError.malformed with
  | .leaf _ valueHash => download.discover .value valueHash
  | .branch left right =>
    let download ← download.discover .node left
    download.discover .node right
  | .extension _ child => download.discover .node child

-- Digests of 32 bytes, one for a kind, lengths of four, offsets and count of eight.
def encodedLen : Nat := 32 + (4 + 41 * download.pending.length) + (4 + 33 * download.completed.length) + 8
end Download

structure StateKey (β : Type) where
  root : Hash β
  kind : StateItemKind
  hash : Hash β
  deriving DecidableEq

abbrev Fragments (β : Type) := AList fun key : StateKey β => List (Content β key.kind)

structure DownloadStore (β : Type) where
  download : Option (Download β)
  fragments : Fragments β

def DownloadStore.empty : DownloadStore β := ⟨none,∅⟩

def durable (fragments : Fragments β) (key : StateKey β) : List (Content β key.kind) := (fragments.lookup key).getD []

def load (store : DownloadStore β) (root : Hash β) : Except SyncBackendError (Download β) := do
  match store.download with
  | none => return Download.new root
  | some download =>
    ensure (download.encodedLen ≤ maxEntries * 80 + 128) (.storage "oversized state download metadata")
    ensure (download.root = root) (.notAvailable "another state snapshot is being reconstructed")
    ensure (download.completed.length + download.pending.length ≤ maxEntries ∧ download.bytes ≤ defaultMaxBytes)
      (.storage "state download metadata exceeds budget")
    return download

def stateDownloadItems (store : DownloadStore β) (root : Hash β) : Except SyncBackendError (List (StateItem β)) := do
  let download ← load store root
  return download.next

structure StateProgress (β : Type) where
  rootComplete : Bool
  nextItems : List (StateItem β)

-- An error that leaves the store as it is, or an object with the wrong content.
inductive Setback (β : Type) where
  | refused (error : SyncBackendError)
  | mismatched (item : StateItem β)

variable (hasher : Hasher β)

def hashContent : (kind : StateItemKind) → List (Content β kind) → Hash β
  | .node,text => hasher.hashNode text
  | .value,bytes => hasher.hashValue bytes

def discoverWithin : (kind : StateItemKind) → List (Content β kind) → Download β → Except SyncBackendError (Download β)
  | .node,text,download => download.discoverChildren text
  | .value,_,download => .ok download

-- Fragments are read from the durable rows and written to those the batch leaves.
def receiveEntry (root : Hash β) (rows : Fragments β) (staged : Download β × Fragments β)
    (expected : StateItem β) (entry : StateEntry β) : Except (Setback β) (Download β × Fragments β) := do
  let (download,written) := staged
  ensure (entry.validateFor expected) (.refused (.rejected "state fragment framing mismatch"))
  ensure (expected ∈ download.pending ∧ entry.totalLen ≤ maxEntryBytes) (.refused (.rejected "unsolicited or oversized state fragment"))
  let item := entry.item
  let storageKey : StateKey β := ⟨root,item.kind,item.hash⟩
  let stored := durable rows storageKey
  ensure (stored.length = item.offset) (.refused (.storage "state fragment offset disagrees with durable progress"))
  let bytes := stored ++ entry.bytes
  let received := download.bytes + entry.bytes.length
  ensure (received ≤ defaultMaxBytes) (.refused (.notAvailable "state byte budget exceeded"))
  let download := { download with bytes := received,pending := download.pending.erase item }
  if bytes.length = entry.totalLen then
    ensure (hashContent hasher item.kind bytes = item.hash) (.mismatched item)
    let download ← (discoverWithin item.kind bytes download).mapError Setback.refused
    return ({ download with completed := download.completed.insert item.object },written.insert storageKey bytes)
  else
    return ({ download with pending := download.pending.insert { item with offset := bytes.length } }, written.insert storageKey bytes)

def receiveAll (root : Hash β) (rows : Fragments β) :
    List (StateItem β × StateEntry β) → Download β × Fragments β → Except (Setback β) (Download β × Fragments β)
  | [],staged => .ok staged
  | (expected,entry)::rest,staged => do
    let staged ← receiveEntry hasher root rows staged expected entry
    receiveAll root rows rest staged

def resetItem (root : Hash β) (download : Download β) (rows : Fragments β) (item : StateItem β) : DownloadStore β where
  download := some { download with
    pending := (download.pending.erase item).insert { item with offset := 0 }
    bytes := download.bytes - item.offset }
  fragments := rows.erase ⟨root,item.kind,item.hash⟩

def receiveStateEntries (store : DownloadStore β) (root : Hash β) (requested : List (StateItem β))
    (entries : List (StateEntry β)) : DownloadStore β × Except SyncBackendError (StateProgress β) :=
  if maxStateItems < requested.length ∨ requested.length ≠ entries.length then
    (store,.error (.rejected "state response does not match requested fragment count"))
  else
    match load store root with
    | .error error => (store,.error error)
    | .ok download =>
      match receiveAll hasher root store.fragments (requested.zip entries) (download,store.fragments) with
      | .error (.refused error) => (store,.error error)
      | .error (.mismatched item) =>
        (resetItem root download store.fragments item,.error (.rejected "state object content hash mismatch"))
      | .ok (after,written) => (⟨some after,written⟩,.ok ⟨after.pending.isEmpty,after.next⟩)

-- A node is entered once, so the stack, two digests a node, runs out before the count.
inductive QueryError where
  | stateUnavailable
  | storage (message : String)
  | malformed (error : TrieError)
  | diverged

def authenticateValue (valueBytes : Hash β → Except QueryError (List Byte)) (out : Trie.Collected β) (valueHash : Hash β) :
    Except QueryError (Trie.Collected β) := do
  if (out.values.lookup valueHash).isSome then return out
  let value ← valueBytes valueHash
  ensure (hasher.hashValue value = valueHash) (.storage "state value does not match its content hash")
  return { out with values := out.values.insert valueHash value }

def authenticateFrom (nodeBytes : Hash β → Except QueryError (List β)) (valueBytes : Hash β → Except QueryError (List Byte)) :
    Nat → List (Hash β) → Trie.Collected β → Except QueryError (Trie.Collected β)
  | _,[],out => .ok out
  | 0,_,_ => .error .diverged
  | count+1,hash::pending,out =>
    if hash = zeroHash ∨ (out.nodes.lookup hash).isSome then
      authenticateFrom nodeBytes valueBytes count pending out
    else do
      let bytes ← nodeBytes hash
      ensure (hasher.hashNode bytes = hash) (.storage "trie node does not match its content hash")
      match ← (Node.decode bytes).mapError QueryError.malformed with
      | .leaf _ valueHash =>
        let out ← authenticateValue hasher valueBytes out valueHash
        authenticateFrom nodeBytes valueBytes count pending { out with nodes := out.nodes.insert hash bytes }
      | .branch left right =>
        authenticateFrom nodeBytes valueBytes count (right::left::pending) { out with nodes := out.nodes.insert hash bytes }
      | .extension prefixPath child =>
        ensure (¬(prefixPath.length = 0 ∨ child = zeroHash)) (.storage "invalid trie extension")
        authenticateFrom nodeBytes valueBytes count (child::pending) { out with nodes := out.nodes.insert hash bytes }

def authenticateState (root : Hash β) (held : Trie.Collected β) : Except QueryError (Trie.Collected β) :=
  authenticateFrom hasher (fun hash => required (held.nodes.lookup hash) .stateUnavailable)
    (fun hash => required (held.values.lookup hash) .stateUnavailable) (2 * held.nodes.entries.length + 1) [root] ⟨∅,∅⟩

def queryError : QueryError → SyncBackendError
  | .storage message => .storage message
  | .malformed error => .storedMalformed error
  | .stateUnavailable => .notAvailable "state data for the requested block is not available locally"
  | .diverged => .notAvailable "diverged"

def heldContent (out : Trie.Collected β) : (object : StateItemKind × Hash β) → Option (List (Content β object.1))
  | (.node,hash) => out.nodes.lookup hash
  | (.value,hash) => out.values.lookup hash

def addObject (out : Trie.Collected β) : (kind : StateItemKind) → Hash β → List (Content β kind) → Trie.Collected β
  | .node,hash,text => { out with nodes := out.nodes.insert hash text }
  | .value,hash,bytes => { out with values := out.values.insert hash bytes }

def completedObjects (root : Hash β) (rows : Fragments β) :
    List (StateItemKind × Hash β) → Trie.Collected β → Except SyncBackendError (Trie.Collected β)
  | [],out => .ok out
  | (kind,hash)::rest,out => do
    let bytes ← required (rows.lookup ⟨root,kind,hash⟩) (.storage "completed state object is missing")
    completedObjects root rows rest (addObject out kind hash bytes)

def reconstructedState (store : DownloadStore β) (root : Hash β) : Except SyncBackendError (Trie β) := do
  let download ← load store root
  ensure (download.pending = []) (.notAvailable "state snapshot is incomplete")
  let held ← completedObjects root store.fragments download.completed ⟨∅,∅⟩
  let authenticated ← (authenticateState hasher root held).mapError queryError
  ensure (authenticated.nodes.entries.length = held.nodes.entries.length ∧ authenticated.values.entries.length = held.values.entries.length)
    (.rejected "state snapshot contains unreachable entries")
  return Trie.fromPersisted root (held.nodes.entries.map fun entry => (entry.1,entry.2))
    (held.values.entries.map fun entry => (entry.1,entry.2))
end Neutrino.StateSync
