import Neutrino.Trie.Operations

-- The state a transition runs over.
namespace Neutrino.Backend
open Checks Bits StateTrie
variable {β : Type} [Alphabet β] [DecidableEq β]

abbrev KeySet := Std.ExtTreeSet (List Byte) compare

-- How a backend call stops: on a key the witness does not list, or in the trie.
inductive Halt where
  | unwitnessed (key : List Byte)
  | trie (reason : Fault)
  deriving Repr,DecidableEq

def inTrie (outcome : Except Fault α) : Except Halt α := outcome.mapError .trie

structure StateBackend (σ β : Type) where
  read : σ → List Byte → Except Halt (σ × Option (List Byte))
  write : σ → List Byte → List Byte → Except Halt σ
  delete : σ → List Byte → Except Halt σ
  preStateRoot : σ → Hash β
  postStateRoot : σ → Hash β

structure StateWitness (β : Type) where
  preStateRoot : Hash β
  nodes : List (Hash β × List β)
  values : List (Hash β × List Byte)
  witnessedKeys : List (List Byte)

inductive WitnessError (β : Type) where
  | nodeHashMismatch (claimed : Hash β)
  | valueHashMismatch (claimed : Hash β)
  | preRootMissing (claimed : Hash β)
  deriving DecidableEq

structure WitnessState (β : Type) where
  witnessed : KeySet
  trie : Trie β
  preRoot : Hash β

def WitnessState.ofWitness (witness : StateWitness β) : WitnessState β where
  witnessed := Std.ExtTreeSet.ofList witness.witnessedKeys compare
  trie := Trie.fromPersisted witness.preStateRoot witness.nodes witness.values
  preRoot := witness.preStateRoot

section
variable (hasher : Hasher β)

def WitnessState.new (witness : StateWitness β) : Except (WitnessError β) (WitnessState β) := do
  each (fun node => ensure (hasher.hashNode node.2 = node.1) (.nodeHashMismatch node.1)) witness.nodes
  each (fun value => ensure (hasher.hashValue value.2 = value.1) (.valueHashMismatch value.1)) witness.values
  ensure (witness.preStateRoot = zeroHash ∨ ∃ node ∈ witness.nodes, node.1 = witness.preStateRoot) (.preRootMissing witness.preStateRoot)
  return .ofWitness witness

def witnessBackend : StateBackend (WitnessState β) β where
  read state key := do
    ensure (key ∈ state.witnessed) (.unwitnessed key)
    let value ← inTrie (state.trie.get key)
    return (state,value)
  write state key value := do
    let trie ← inTrie (state.trie.insert hasher key value)
    return { state with witnessed := state.witnessed.insert key,trie := trie }
  delete state key := do
    let (trie,_) ← inTrie (state.trie.remove hasher key)
    return { state with witnessed := state.witnessed.insert key,trie := trie }
  preStateRoot state := state.preRoot
  postStateRoot state := state.trie.root

def liveBackend : StateBackend (Trie β) β where
  read trie key := do
    let value ← inTrie (trie.get key)
    return (trie,value)
  write trie key value := inTrie (trie.insert hasher key value)
  delete trie key := do
    let (trie,_) ← inTrie (trie.remove hasher key)
    return trie
  preStateRoot trie := trie.root
  postStateRoot trie := trie.root

structure TracingState (β : Type) where
  live : Trie β
  accessed : KeySet
  preRoot : Hash β
  scratch : Option (Trie β)

def TracingState.new (live : Trie β) : TracingState β := ⟨live,∅,live.root,none⟩
def TracingState.ensureScratch (state : TracingState β) : Trie β := state.scratch.getD state.live

def tracingBackend : StateBackend (TracingState β) β where
  read state key := do
    let value ← inTrie ((state.scratch.getD state.live).get key)
    return ({ state with accessed := state.accessed.insert key },value)
  write state key value := do
    let trie ← inTrie (state.ensureScratch.insert hasher key value)
    return { state with accessed := state.accessed.insert key,scratch := some trie }
  delete state key := do
    let (trie,_) ← inTrie (state.ensureScratch.remove hasher key)
    return { state with accessed := state.accessed.insert key,scratch := some trie }
  preStateRoot state := state.preRoot
  postStateRoot state := state.scratch.elim state.preRoot Trie.root
end

def collectedWitness (root : Hash β) (out : Trie.Collected β) (keys : List (List Byte)) : StateWitness β where
  preStateRoot := root
  nodes := out.nodes.entries.map fun entry => (entry.1,entry.2)
  values := out.values.entries.map fun entry => (entry.1,entry.2)
  witnessedKeys := keys

-- The witness for the accessed keys: what lies on their paths, and the root.
def witnessOf (live : Trie β) (accessed : KeySet) : Except Fault (StateWitness β) := do
  let out ← accessed.toList.foldlM (fun out key => live.collectPathNodes key out) ⟨∅,∅⟩
  let out :=
    if live.root = zeroHash ∨ (out.nodes.lookup live.root).isSome then out else out.addNode live live.root
  return collectedWitness live.root out accessed.toList

def TracingState.intoWitness (state : TracingState β) : Except Fault (StateWitness β) := witnessOf state.live state.accessed

inductive StateCall where
  | read (key : List Byte)
  | write (key value : List Byte)
  | delete (key : List Byte)
  deriving Repr,DecidableEq

def StateCall.key : StateCall → List Byte
  | .read key => key
  | .write key _ => key
  | .delete key => key

namespace StateBackend
variable {σ : Type} (backend : StateBackend σ β)

def call (state : σ) : StateCall → Except Halt (σ × Option (Option (List Byte)))
  | .read key => do
    let (state,value) ← backend.read state key
    return (state,some value)
  | .write key value => do
    let state ← backend.write state key value
    return (state,none)
  | .delete key => do
    let state ← backend.delete state key
    return (state,none)

def calls (state : σ) : List StateCall → Except Halt (σ × List (Option (Option (List Byte))))
  | [] => return (state,[])
  | call::rest => do
    let (state,returned) ← backend.call state call
    let (state,others) ← calls state rest
    return (state,returned::others)
end StateBackend
end Neutrino.Backend
