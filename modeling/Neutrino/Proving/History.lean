import Neutrino.Proving.Evidence

-- The counted append-only history tree and the witness a chunk reads it through
-- (history.rs of consensus-types and prover-chunk).
namespace Neutrino.Proving
open Checks Consensus Chain Queries Query
open Neutrino.Runtime (EvidenceContext HistoryPath isRecentHistoryIndex)

def historyDepth : Nat := 64

structure HistoryTree (Hash : Type) where
  leafHash : Option Hash → Hash
  nodeHash : Nat → Hash → Hash → Hash
  countedRoot : Nat → Hash → Hash

variable {Hash Key Sig : Type}

def HistoryTree.empty (tree : HistoryTree Hash) : Nat → Hash
  | 0 => tree.leafHash none
  | level+1 => tree.nodeHash level (tree.empty level) (tree.empty level)

-- No two inputs of a tree hash share an output.
structure HistoryTree.Injective (tree : HistoryTree Hash) : Prop where
  node : ∀ level left right left' right', tree.nodeHash level left right = tree.nodeHash level left' right' →
    left = left' ∧ right = right'
  counted : ∀ count root root', tree.countedRoot count root = tree.countedRoot count root' → root = root'

def HistoryTree.emptyRoot (tree : HistoryTree Hash) : Hash := tree.countedRoot 0 (tree.empty historyDepth)

-- Peaks stand for the set bits of the count, low to high.
structure HistoryFrontier (Hash : Type) where
  count : Nat
  peaks : List Hash
deriving DecidableEq

namespace HistoryFrontier

def initial : HistoryFrontier Hash := ⟨0,[]⟩
def setLevels (count : Nat) (levels : List Nat) : List Nat := levels.filter (count.testBit ·)

def wellShaped (frontier : HistoryFrontier Hash) : Bool :=
  frontier.peaks.length == (setLevels frontier.count (List.range historyDepth)).length

variable (tree : HistoryTree Hash)

-- From the first empty leaf up: a peak is the left sibling where the count has a bit,
-- an empty subtree the right one elsewhere.
def climb (count : Nat) : List Nat → List Hash → Hash → Option Hash
  | [],_,right => some right
  | level::levels,peaks,right =>
    if count.testBit level then
      match peaks with
      | [] => none
      | peak::rest => climb count levels rest (tree.nodeHash level peak right)
    else climb count levels peaks (tree.nodeHash level right (tree.empty level))

def root (frontier : HistoryFrontier Hash) : Option Hash :=
  if frontier.wellShaped then
    (climb tree frontier.count (List.range historyDepth) frontier.peaks (tree.empty 0)).map (tree.countedRoot frontier.count)
  else none

def trailingOnes (count : Nat) : Nat := ((List.range historyDepth).takeWhile (count.testBit ·)).length

def grow (frontier : HistoryFrontier Hash) (next : Nat) (leaf : Hash) : HistoryFrontier Hash :=
  let consumed := trailingOnes frontier.count
  let merged := (frontier.peaks.take consumed).zipIdx.foldl (fun node peak => tree.nodeHash peak.2 peak.1 node)
    (tree.leafHash (some leaf))
  ⟨next,merged::frontier.peaks.drop consumed⟩

def append (frontier : HistoryFrontier Hash) (leaf : Hash) : Option (Hash × HistoryFrontier Hash) := do
  let next ← checkedAdd frontier.count 1
  if frontier.wellShaped then
    let grown := frontier.grow tree next leaf
    (grown.root tree).map fun root => (root,grown)
  else none

def fromLeaves (leaves : List Hash) : Option (HistoryFrontier Hash) :=
  leaves.foldlM (fun frontier leaf => (frontier.append tree leaf).map (·.2)) initial
end HistoryFrontier

def historyRoot (tree : HistoryTree Hash) (leaves : List Hash) : Option Hash :=
  (HistoryFrontier.fromLeaves tree leaves).bind (HistoryFrontier.root tree)

def ascend (tree : HistoryTree Hash) (index : Nat) (siblings : List Hash) (leaf : Hash) : Hash := siblings.zipIdx.foldl (fun node sibling =>
    if index.testBit sibling.2 then tree.nodeHash sibling.2 sibling.1 node else tree.nodeHash sibling.2 node sibling.1)
    (tree.leafHash (some leaf))

def pathRoot (tree : HistoryTree Hash) (path : HistoryPath Hash) (leaf : Hash) : Hash := ascend tree path.index path.siblings leaf

def verifyPath [DecidableEq Hash] (tree : HistoryTree Hash) (path : HistoryPath Hash) (leaf expected : Hash) : Bool :=
  decide (path.index < path.count ∧ path.siblings.length = historyDepth ∧ tree.countedRoot path.count (pathRoot tree path leaf) = expected)

structure HistoricalOpening (Hash Key Sig : Type) where
  record : HistoricalChunk Hash Key Sig
  path : HistoryPath Hash
deriving DecidableEq

structure HistoryWitness (Hash Key Sig : Type) where
  frontier : HistoryFrontier Hash
  records : List (HistoricalOpening Hash Key Sig)
deriving DecidableEq

def maxHistoryReads : Nat := 8
def maxHistoryRecordBytes : Nat := 8 * 1024 * 1024

section
variable [DecidableEq Hash] (host : EvidenceHost Hash Key Sig) (tree : HistoryTree Hash)
  (contextCommitment : EvidenceContext Hash → Hash) (recordSize : HistoricalChunk Hash Key Sig → Nat)

-- Bounded reads: each opening spends its encoded length and proves membership.
def authenticateRecords (chunkId : Nat) (root : Hash) : Nat → List (HistoricalOpening Hash Key Sig) → Except HistoryError Unit
  | _,[] => .ok ()
  | budget,opening::rest => do
    let record := opening.record
    let context := record.evidenceContext host
    let left ← required (checkedSub budget (recordSize record)) .anchor
    ensure (isRecentHistoryIndex record.chunk.chunkId chunkId = true ∧ opening.path.index = record.chunk.chunkId ∧
      opening.path.count = chunkId ∧ verifyPath tree opening.path (contextCommitment context) root = true ∧
      record.chunk.activeValidatorSetRoot = context.validatorsRoot ∧ record.finality.chunkHash = context.chunkHash ∧
      record.finality.chunkId = record.chunk.chunkId) .anchor
    authenticateRecords chunkId root left rest

def HistoryWitness.authenticate (witness : HistoryWitness Hash Key Sig) (chunkId : Nat) (root : Hash) : Except HistoryError Unit := do
  ensure (witness.frontier.count = chunkId ∧ witness.frontier.root tree = some root ∧ witness.records.length ≤ maxHistoryReads ∧
    (witness.records.map (·.record.chunk.chunkId)).IsChain (· < ·)) .anchor
  authenticateRecords host tree contextCommitment recordSize chunkId root maxHistoryRecordBytes witness.records
end

-- The openings are strictly increasing, so the search finds the only match.
def HistoryWitness.record (witness : HistoryWitness Hash Key Sig) (chunkId : Nat) : Except HistoryError (HistoricalChunk Hash Key Sig) := do
  ensure (isRecentHistoryIndex chunkId witness.frontier.count = true) .anchor
  required ((witness.records.find? fun opening => opening.record.chunk.chunkId = chunkId).map (·.record)) .anchor

def verifyEmbeddedVoteWith [DecidableEq Hash] [DecidableEq Sig] (domain : ConsensusDomain Hash) (params : ConsensusParams)
    (history : HistoryWitness Hash Key Sig) (vote : FinalityVote Hash Sig) : Verify Hash Key Sig HistoryError Unit := do
  let record ← .ofExcept (history.record vote.data.chunkId)
  (verifyVoteUsing domain record.validators vote params).mapError fun _ => .evidence

namespace HistoryFrontier
variable {tree : HistoryTree Hash}

theorem climb_some {count : Nat} {levels : List Nat} {peaks : List Hash}
    (shaped : peaks.length = (setLevels count levels).length) : ∃ top, climb tree count levels peaks right = some top := by
  induction levels generalizing peaks right with
  | nil => exact ⟨right,rfl⟩
  | cons level levels ih =>
    unfold climb
    by_cases bit : count.testBit level
    · simp only [setLevels,List.filter_cons,bit,if_true,List.length_cons] at shaped
      match peaks,shaped with
      | peak::rest,shaped =>
        simp only [bit,if_true]
        exact ih (by simpa [setLevels] using shaped)
    · simp only [setLevels,List.filter_cons,bit,Bool.false_eq_true,if_false] at shaped ⊢
      exact ih shaped

section
variable (injective : tree.Injective)
include injective

theorem climb_unique {count : Nat} {levels : List Nat} {peaks others : List Hash}
    (shaped : peaks.length = (setLevels count levels).length) (alike : others.length = (setLevels count levels).length)
    (same : climb tree count levels peaks right = climb tree count levels others other) : peaks = others ∧ right = other := by
  induction levels generalizing peaks others right other with
  | nil =>
    simp only [setLevels,List.filter_nil,List.length_nil,List.length_eq_zero_iff] at shaped alike
    exact ⟨shaped.trans alike.symm,Option.some.inj same⟩
  | cons level levels ih =>
    unfold climb at same
    by_cases bit : count.testBit level
    · simp only [setLevels,List.filter_cons,bit,if_true,List.length_cons] at shaped alike
      obtain ⟨peak,rest,rfl⟩ := List.exists_cons_of_length_eq_add_one shaped
      obtain ⟨peak',rest',rfl⟩ := List.exists_cons_of_length_eq_add_one alike
      simp only [bit,if_true] at same
      obtain ⟨rfl,merged⟩ := ih (by simpa [setLevels] using shaped) (by simpa [setLevels] using alike) same
      obtain ⟨rfl,rfl⟩ := injective.node _ _ _ _ _ merged
      exact ⟨rfl,rfl⟩
    · simp only [setLevels,List.filter_cons,bit,Bool.false_eq_true,if_false] at shaped alike same
      obtain ⟨rfl,merged⟩ := ih shaped alike same
      exact ⟨rfl,(injective.node _ _ _ _ _ merged).1⟩

theorem root_unique {first second : HistoryFrontier Hash} (counted : first.count = second.count)
    (left : first.root tree = some found) (right : second.root tree = some found) : first = second := by
  obtain ⟨count,peaks⟩ := first
  obtain ⟨count',peaks'⟩ := second
  obtain rfl : count = count' := counted
  simp only [root,wellShaped,beq_iff_eq] at left right
  split at left
  case isFalse => cases left
  case isTrue shaped =>
    split at right
    case isFalse => cases right
    case isTrue alike =>
      obtain ⟨top,reached⟩ : ∃ top, climb tree count _ peaks (tree.empty 0) = some top := climb_some shaped
      obtain ⟨top',reached'⟩ : ∃ top, climb tree count _ peaks' (tree.empty 0) = some top := climb_some alike
      rw [reached,Option.map_some] at left
      rw [reached',Option.map_some] at right
      have equal := injective.counted _ _ _ (Option.some.inj (left.trans right.symm))
      obtain ⟨rfl,_⟩ := climb_unique injective shaped alike (by rw [reached,reached',equal])
      rfl
end

theorem climb_empty (steps level : Nat) :
    climb tree 0 (List.range' level steps) [] (tree.empty level) = some (tree.empty (level + steps)) := by
  induction steps generalizing level with
  | zero => rfl
  | succ steps ih =>
    rw [List.range'_succ,climb,if_neg (by simp)]
    rw [show level + (steps + 1) = level + 1 + steps by omega]
    exact ih (level + 1)

theorem initial_root : (initial : HistoryFrontier Hash).root tree = some tree.emptyRoot := by
  have climbed : climb tree 0 (List.range' 0 historyDepth) [] (tree.empty 0) = _ := climb_empty historyDepth 0
  rw [← List.range_eq_range'] at climbed
  simp only [root,wellShaped,initial,climbed]
  simp [setLevels,HistoryTree.emptyRoot]

theorem append_grows {frontier grown : HistoryFrontier Hash} {leaf found : Hash}
    (appended : frontier.append tree leaf = some (found,grown)) :
    grown.count = frontier.count + 1 ∧ grown.count < 2^64 ∧ grown.root tree = some found := by
  unfold append at appended
  cases counted : checkedAdd frontier.count 1 with
  | none => rw [counted] at appended; cases appended
  | some next =>
    obtain ⟨sum,small⟩ := checked_add_some.mp counted
    simp only [counted,Option.bind_eq_bind,Option.bind_some] at appended
    split at appended
    case isFalse => cases appended
    case isTrue =>
      obtain ⟨reached,rooted,same⟩ := Option.map_eq_some_iff.mp appended
      cases same
      exact ⟨sum.symm,small,rooted⟩
end HistoryFrontier

theorem from_leaves_append {leaf found : Hash} {frontier : HistoryFrontier Hash} (built : HistoryFrontier.fromLeaves tree leaves = some frontier)
    (appended : frontier.append tree leaf = some (found,grown)) : HistoryFrontier.fromLeaves tree (leaves ++ [leaf]) = some grown := by
  unfold HistoryFrontier.fromLeaves at built ⊢
  rw [List.foldlM_append,built]
  simp [appended]

theorem from_leaves_count {frontier : HistoryFrontier Hash} (built : HistoryFrontier.fromLeaves tree leaves = some frontier) : frontier.count = leaves.length := by
  induction leaves using List.reverseRecOn generalizing frontier with
  | nil =>
    cases built
    rfl
  | append_singleton leaves leaf ih =>
    unfold HistoryFrontier.fromLeaves at built ih
    rw [List.foldlM_append,Option.bind_eq_bind,Option.bind_eq_some_iff] at built
    obtain ⟨middle,earlier,appended⟩ := built
    simp only [List.foldlM_cons,List.foldlM_nil,Option.bind_eq_bind,Option.map_eq_some_iff,
      Option.bind_eq_some_iff,Option.pure_def,Option.some.injEq] at appended
    obtain ⟨_,⟨⟨root,grown⟩,step,rfl⟩,rfl⟩ := appended
    rw [(HistoryFrontier.append_grows step).1,ih earlier,List.length_append]
    rfl
end Neutrino.Proving
