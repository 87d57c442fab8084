import Neutrino.Trie.Node

-- The state trie: content-addressed nodes and values and the root's digest. Writes
-- store new nodes on the way up; what they leave behind stays in the store.
namespace Neutrino.StateTrie
open Checks Bits
variable {β : Type} [Alphabet β] [DecidableEq β]

structure Trie (β : Type) where
  nodes : AList fun _ : Hash β => List β
  values : AList fun _ : Hash β => List Byte
  pendingNodes : List (Hash β × List β)
  pendingValues : List (Hash β × List Byte)
  root : Hash β

namespace Trie

def new : Trie β := ⟨∅,∅,[],[],zeroHash⟩
def budget (trie : Trie β) : Nat := (trie.nodes.entries.length + 1) * 2 ^ 32

def fetchNode (trie : Trie β) (hash : Hash β) : Except Fault (Node β) := do
  let bytes ← required (trie.nodes.lookup hash) (.panicked .missingNode)
  (Node.decode bytes).mapError fun error => .panicked (.malformedNode error)

def withNode (trie : Trie β) (hash : Hash β) (encoded : List β) : Trie β :=
  let pending := if trie.nodes.lookup hash = none then trie.pendingNodes ++ [(hash,encoded)] else trie.pendingNodes
  { trie with nodes := trie.nodes.insert hash encoded,pendingNodes := pending }

def storeNode (hasher : Hasher β) (trie : Trie β) (node : Node β) : Trie β × Hash β :=
  let encoded := node.encode
  let hash := hasher.hashNode encoded
  (trie.withNode hash encoded,hash)

def withValue (trie : Trie β) (hash : Hash β) (value : List Byte) : Trie β :=
  let pending := if trie.values.lookup hash = none then trie.pendingValues ++ [(hash,value)] else trie.pendingValues
  { trie with values := trie.values.insert hash value,pendingValues := pending }

-- Bit offsets are 32-bit; a sum that leaves them is an overflow.
def advance (offset len : Nat) : Except Fault Nat := do
  ensure (offset + len < 2 ^ 32) (.panicked .lengthOverflow)
  return offset + len

-- Where a read goes on after an extension, if the key's next bits are its prefix.
def passExtension (path : BitPath) (consumed : Nat) (prefixPath : BitPath) : Except Fault (Option Nat) := do
  let rest ← advance consumed prefixPath.length
  if path.length < rest then return none
  let remaining ← path.suffix consumed
  let segment ← remaining.prefixTo prefixPath.length
  return if segment = prefixPath then some rest else none

def getFrom (trie : Trie β) (path : BitPath) : Nat → Hash β → Nat → Except Fault (Option (List Byte))
  | 0,_,_ => .error .diverged
  | budget+1,current,consumed => do
    if current = zeroHash then return none
    match ← trie.fetchNode current with
    | .leaf keySuffix valueHash =>
      let remaining ← path.suffix consumed
      if remaining = keySuffix then
        let value ← required (trie.values.lookup valueHash) (.panicked .missingValue)
        return some value
      else return none
    | .branch left right =>
      if path.length ≤ consumed then return none
      let bit ← path.bit consumed
      trie.getFrom path budget (if bit then right else left) (consumed + 1)
    | .extension prefixPath child =>
      match ← passExtension path consumed prefixPath with
      | some rest => trie.getFrom path budget child rest
      | none => return none

def get (trie : Trie β) (key : List Byte) : Except Fault (Option (List Byte)) := do
  let path ← BitPath.forKey key
  trie.getFrom path trie.budget trie.root 0

def appendBits (out : List Bool) (path : BitPath) : Except Fault (List Bool) := do
  let bits ← (List.range path.length).mapM path.bit
  return out ++ bits

def collectKeys (trie : Trie β) : Nat → Hash β → List Bool → Except Fault (List (List Byte))
  | 0,_,_ => .error .diverged
  | budget+1,hash,above => do
    if hash = zeroHash then return []
    match ← trie.fetchNode hash with
    | .leaf keySuffix _ =>
      let bits ← appendBits above keySuffix
      return (decodeRawKey bits).toList
    | .branch left right =>
      let lefts ← trie.collectKeys budget left (above ++ [false])
      let rights ← trie.collectKeys budget right (above ++ [true])
      return lefts ++ rights
    | .extension prefixPath child =>
      let bits ← appendBits above prefixPath
      trie.collectKeys budget child bits

def keys (trie : Trie β) : Except Fault (List (List Byte)) := do
  let found ← trie.collectKeys trie.budget trie.root []
  return found.mergeSort fun one two => (compare one two).isLE

-- A map of listed entries; of two entries for one key the later counts.
def refill {κ ν : Type} [DecidableEq κ] (entries : List (κ × ν)) : AList fun _ : κ => ν :=
  entries.foldl (fun found entry => found.insert entry.1 entry.2) ∅

def fromPersisted (root : Hash β) (nodes : List (Hash β × List β)) (values : List (Hash β × List Byte)) : Trie β where
  nodes := refill nodes
  values := refill values
  pendingNodes := []
  pendingValues := []
  root := root

structure Collected (β : Type) where
  nodes : AList fun _ : Hash β => List β
  values : AList fun _ : Hash β => List Byte

def Collected.addNode (out : Collected β) (trie : Trie β) (hash : Hash β) : Collected β :=
  match trie.nodes.lookup hash with
  | some bytes => { out with nodes := out.nodes.insert hash bytes }
  | none => out

def Collected.addValue (out : Collected β) (trie : Trie β) (hash : Hash β) : Collected β :=
  match trie.values.lookup hash with
  | some bytes => { out with values := out.values.insert hash bytes }
  | none => out

def collectFrom (trie : Trie β) (path : BitPath) : Nat → Hash β → Nat → Collected β → Except Fault (Collected β)
  | 0,_,_,_ => .error .diverged
  | budget+1,current,consumed,out => do
    if current = zeroHash then return out
    let out := out.addNode trie current
    match ← trie.fetchNode current with
    | .leaf _ valueHash => return out.addValue trie valueHash
    | .branch left right =>
      if path.length ≤ consumed then return out
      let bit ← path.bit consumed
      let sibling := if bit then left else right
      -- A later removal may have to look at the sibling to close up the branch.
      let out := if sibling ≠ zeroHash then out.addNode trie sibling else out
      trie.collectFrom path budget (if bit then right else left) (consumed + 1) out
    | .extension prefixPath child =>
      match ← passExtension path consumed prefixPath with
      | some rest => trie.collectFrom path budget child rest out
      | none => return out

def collectPathNodes (trie : Trie β) (key : List Byte) (out : Collected β) : Except Fault (Collected β) := do
  let path ← BitPath.forKey key
  trie.collectFrom path trie.budget trie.root 0 out

variable (hasher : Hasher β)

-- A branch where the old and the new path part, under the bits they share.
def forkAt (trie : Trie β) (path : BitPath) (common : Nat) (existingBit : Bool) (existing new : Hash β) :
    Except Fault (Trie β × Hash β) := do
  let (trie,branch) := trie.storeNode hasher (if existingBit then .branch new existing else .branch existing new)
  if common = 0 then return (trie,branch)
  let shared ← path.prefixTo common
  return trie.storeNode hasher (.extension shared branch)

def insertIntoLeaf (trie : Trie β) (existingSuffix : BitPath) (existingHash : Hash β) (path : BitPath)
    (valueHash : Hash β) : Except Fault (Trie β × Hash β) := do
  if existingSuffix.length = path.length ∧ existingSuffix = path then
    return trie.storeNode hasher (.leaf existingSuffix valueHash)
  let common ← existingSuffix.commonPrefixLen path
  if common = existingSuffix.length ∨ common = path.length then .error (.refused .prefixCollision)
  else
    let existingBit ← existingSuffix.bit common
    let existingTail ← existingSuffix.suffix (common + 1)
    let newTail ← path.suffix (common + 1)
    let (trie,existing) := trie.storeNode hasher (.leaf existingTail existingHash)
    let (trie,new) := trie.storeNode hasher (.leaf newTail valueHash)
    trie.forkAt hasher path common existingBit existing new

-- The new key leaves an extension inside its prefix, which is split there.
def splitExtension (trie : Trie β) (prefixPath : BitPath) (child : Hash β) (path : BitPath)
    (valueHash : Hash β) : Except Fault (Trie β × Hash β) := do
  let common ← prefixPath.commonPrefixLen path
  if common = path.length then .error (.refused .prefixCollision)
  else
    let existingBit ← prefixPath.bit common
    let existingTail ← prefixPath.suffix (common + 1)
    let newTail ← path.suffix (common + 1)
    let (trie,existing) :=
      if existingTail.length = 0 then (trie,child) else trie.storeNode hasher (.extension existingTail child)
    let (trie,new) := trie.storeNode hasher (.leaf newTail valueHash)
    trie.forkAt hasher path common existingBit existing new

def insertAt (path : BitPath) (valueHash : Hash β) : Nat → Trie β → Hash β → Nat → Except Fault (Trie β × Hash β)
  | 0,_,_,_ => .error .diverged
  | budget+1,trie,hash,offset => do
    if hash = zeroHash then
      let keySuffix ← path.suffix offset
      return trie.storeNode hasher (.leaf keySuffix valueHash)
    match ← trie.fetchNode hash with
    | .leaf keySuffix existingHash =>
      let remaining ← path.suffix offset
      trie.insertIntoLeaf hasher keySuffix existingHash remaining valueHash
    | .branch left right =>
      if path.length ≤ offset then .error (.refused .prefixCollision)
      else
        let bit ← path.bit offset
        let (trie,changed) ← insertAt path valueHash budget trie (if bit then right else left) (offset + 1)
        return trie.storeNode hasher (if bit then .branch left changed else .branch changed right)
    | .extension prefixPath child =>
      if ← path.matchesAt offset prefixPath then
        let rest := offset + prefixPath.length
        if rest = path.length then .error (.refused .prefixCollision)
        else
          let (trie,changed) ← insertAt path valueHash budget trie child rest
          return trie.storeNode hasher (.extension prefixPath changed)
      else
        let remaining ← path.suffix offset
        trie.splitExtension hasher prefixPath child remaining valueHash

def insert (trie : Trie β) (key value : List Byte) : Except Fault (Trie β) := do
  let path ← BitPath.forKey key
  let valueHash := hasher.hashValue value
  let trie := trie.withValue valueHash value
  let (trie,root) ← insertAt hasher path valueHash trie.budget trie trie.root 0
  return { trie with root := root }

-- Leaves and extensions take the path in; a branch keeps it as an extension.
def lengthen (trie : Trie β) (front : BitPath) (hash : Hash β) : Except Fault (Trie β × Hash β) := do
  match ← trie.fetchNode hash with
  | .leaf keySuffix valueHash =>
    let combined ← front.concat keySuffix
    return trie.storeNode hasher (.leaf combined valueHash)
  | .extension prefixPath child =>
    let combined ← front.concat prefixPath
    return trie.storeNode hasher (.extension combined child)
  | .branch _ _ => return trie.storeNode hasher (.extension front hash)

def absorbIntoParent (trie : Trie β) (survivingChild : Hash β) (childBit : Bool) : Except Fault (Trie β × Hash β) :=
  trie.lengthen hasher (BitPath.single childBit) survivingChild

def collapseExtension (trie : Trie β) (prefixPath : BitPath) (child : Hash β) : Except Fault (Trie β × Hash β) :=
  if child = zeroHash then .ok (trie,zeroHash) else trie.lengthen hasher prefixPath child

def collapseBranch (trie : Trie β) (left right : Hash β) : Except Fault (Trie β × Hash β) :=
  if left = zeroHash then
    if right = zeroHash then .ok (trie,zeroHash) else trie.absorbIntoParent hasher right true
  else if right = zeroHash then trie.absorbIntoParent hasher left false
  else .ok (trie.storeNode hasher (.branch left right))

def removeAt (path : BitPath) : Nat → Trie β → Hash β → Nat → Except Fault (Trie β × Hash β × Option (Hash β))
  | 0,_,_,_ => .error .diverged
  | budget+1,trie,hash,offset => do
    if hash = zeroHash then return (trie,zeroHash,none)
    match ← trie.fetchNode hash with
    | .leaf keySuffix valueHash =>
      if keySuffix.length = path.length - offset then
        if ← path.matchesAt offset keySuffix then return (trie,zeroHash,some valueHash)
        else return (trie,hash,none)
      else return (trie,hash,none)
    | .branch left right =>
      if path.length ≤ offset then return (trie,hash,none)
      let bit ← path.bit offset
      let (trie,changed,removed) ← removeAt path budget trie (if bit then right else left) (offset + 1)
      if removed = none then return (trie,hash,none)
      let (trie,collapsed) ← trie.collapseBranch hasher (if bit then left else changed) (if bit then changed else right)
      return (trie,collapsed,removed)
    | .extension prefixPath child =>
      if ← path.matchesAt offset prefixPath then
        let (trie,changed,removed) ← removeAt path budget trie child (offset + prefixPath.length)
        if removed = none then return (trie,hash,none)
        let (trie,collapsed) ← trie.collapseExtension hasher prefixPath changed
        return (trie,collapsed,removed)
      else return (trie,hash,none)

def remove (trie : Trie β) (key : List Byte) : Except Fault (Trie β × Option (List Byte)) := do
  let path ← BitPath.forKey key
  let (trie,root,removed) ← removeAt hasher path trie.budget trie trie.root 0
  return ({ trie with root := root },removed.bind fun valueHash => trie.values.lookup valueHash)
end Trie
variable {κ ν : Type} [DecidableEq κ] {entries : List (κ × ν)} {found : AList fun _ : κ => ν} {key : κ} {value : ν}

theorem lookup_insert_ok (present : (found.insert key value).lookup other = some text) :
    other = key ∧ text = value ∨ other ≠ key ∧ found.lookup other = some text := by
  by_cases same : other = key
  · rw [same,AList.lookup_insert] at present
    exact .inl ⟨same,(Option.some.inj present).symm⟩
  · exact .inr ⟨same,by rwa [AList.lookup_insert_ne same] at present⟩

theorem lookup_insert_keep (same : other = key → text = value) (present : found.lookup other = some text) :
    (found.insert key value).lookup other = some text := by
  by_cases here : other = key
  · rw [here,AList.lookup_insert,same here]
  · rwa [AList.lookup_insert_ne here]

theorem lookup_inserted (present : (entries.foldl (fun found entry => found.insert entry.1 entry.2) found).lookup key = some value) :
    found.lookup key = some value ∨ (key,value) ∈ entries := by
  induction entries generalizing found with
  | nil => exact .inl present
  | cons entry rest ih =>
    rcases ih present with earlier | later
    · obtain ⟨rfl,rfl⟩ | ⟨_,earlier⟩ := lookup_insert_ok earlier
      · exact .inr (by simp)
      · exact .inl earlier
    · exact .inr (by simp [later])

theorem lookup_refill (present : (Trie.refill entries).lookup key = some value) : (key,value) ∈ entries :=
  (lookup_inserted present).resolve_left (by simp)

theorem lookup_kept (present : (found.lookup key).isSome ∨ ∃ value, (key,value) ∈ entries) :
    ((entries.foldl (fun found entry => found.insert entry.1 entry.2) found).lookup key).isSome := by
  induction entries generalizing found with
  | nil => simpa using present
  | cons entry rest ih =>
    apply ih
    by_cases same : key = entry.1
    · exact .inl (by rw [same,AList.lookup_insert]; rfl)
    · rcases present with earlier | ⟨value,listed⟩
      · exact .inl (by rwa [AList.lookup_insert_ne same])
      · rcases List.mem_cons.mp listed with first | later
        · exact absurd (congrArg Prod.fst first) same
        · exact .inr ⟨value,later⟩

theorem mem_listed : (key,value) ∈ found.entries.map (fun entry => (entry.1,entry.2)) ↔ found.lookup key = some value := by
  rw [← Option.mem_def,AList.mem_lookup_iff]
  constructor
  · intro member
    obtain ⟨⟨_,_⟩,held,same⟩ := List.mem_map.mp member
    cases same
    exact held
  · exact fun held => List.mem_map.mpr ⟨_,held,rfl⟩

theorem lookup_relisted (held : found.lookup key = some value) :
    (Trie.refill (found.entries.map fun entry => (entry.1,entry.2))).lookup key = some value := by
  have present : ((Trie.refill (found.entries.map fun entry => (entry.1,entry.2))).lookup key).isSome :=
    lookup_kept (.inr ⟨value,mem_listed.mpr held⟩)
  obtain ⟨other,again⟩ := Option.isSome_iff_exists.mp present
  rw [again,← held,mem_listed.mp (lookup_refill again)]
end Neutrino.StateTrie
