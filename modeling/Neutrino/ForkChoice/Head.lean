import Neutrino.Chain.Spec
import Neutrino.Library.Ancestry

-- Vote-weighted heaviest-proven-chain fork choice (consensus-fork-choice), by one
-- walk per candidate and by the reference's one walk per vote.
namespace Neutrino.HeadSelection
open Consensus Chain Ancestry

inductive ProofStatus where
  | pendingProof
  | proven
  | invalid
  | finalized
deriving DecidableEq

structure ChunkVote (Hash : Type) where
  data : FinalityVoteData Hash
  weight : Nat
deriving DecidableEq

structure BlockNode (Hash : Type) where
  hash : Hash
  parentHash : Hash
  height : Nat
  proposerIndex : Nat
  proofStatus : ProofStatus
  vrfTieBreaker : Hash
deriving DecidableEq

inductive ForkChoiceError (Hash : Type) where
  | unknownParent (parent : Hash)
  | unknownBlock (hash : Hash)
  | invalidFinalityCertificate
  | scoreOverflow
deriving DecidableEq

structure ProposerBoost (Hash : Type) where
  blockHash : Hash
  weight : Nat
deriving DecidableEq

structure CandidateScore (Hash : Type) where
  hash : Hash
  score : Nat
  height : Nat
  vrfTieBreaker : Hash
deriving DecidableEq

-- Maps as lists with one entry a key; indices have 32 bits, weights 64.
structure ForkChoice (Hash : Type) where
  blocks : List (Hash × BlockNode Hash)
  chunks : List (Hash × Hash)
  votes : List (Nat × ChunkVote Hash)
  finalized : Hash
  proposerBoost : Option (ProposerBoost Hash)
  blocksOnce : (blocks.map Prod.fst).Nodup
  votesOnce : (votes.map Prod.fst).Nodup
  voters : ∀ entry ∈ votes, entry.1 < 2 ^ 32
  voteWeights : ∀ entry ∈ votes, entry.2.weight < 2 ^ 64
  boostWeight : ∀ boost ∈ proposerBoost, boost.weight < 2 ^ 64

variable {Hash : Type} [LinearOrder Hash]

def addU128 (left right : Nat) : Nat := (left + right) % 2 ^ 128

-- The later of two equal candidates wins, as with Iterator::max_by.
def maxBy (compare : α → α → Ordering) : List α → Option α
  | [] => none
  | first::rest => some (rest.foldl (fun best next => if compare best next = .gt then best else next) first)

def compareCandidates (left right : CandidateScore Hash) : Ordering :=
  ((compare left.score right.score).then (compare left.height right.height)).then
    ((compare right.vrfTieBreaker left.vrfTieBreaker).then (compare right.hash left.hash))

namespace ForkChoice
variable (state : ForkChoice Hash)

def block (hash : Hash) : Option (BlockNode Hash) := state.blocks.lookup hash
def budget : Nat := state.blocks.length + 1

def addWeight (sums : Hash → Nat) (entry : Nat × ChunkVote Hash) : Hash → Nat :=
  match state.chunks.lookup entry.2.data.chunkHash with
  | some endBlockHash => Function.update sums endBlockHash (addU128 (sums endBlockHash) entry.2.weight)
  | none => sums

-- Vote weight by the end block of the voted chunk, zero where nothing is voted.
def weights : Hash → Nat := state.votes.foldl state.addWeight fun _ => 0

structure Walk where
  extendsFinalized : Bool
  invalid : Bool
  weight : Nat
deriving DecidableEq

def boosted (hash : Hash) (weight : Nat) : Nat :=
  match state.proposerBoost with
  | some boost => if boost.blockHash = hash then addU128 weight boost.weight else weight
  | none => weight

def visit (candidate : Hash) (sums : Hash → Nat) : Nat → Walk → Hash → Option Walk
  | 0,_,_ => none
  | fuel+1,walk,hash =>
    let extendsFinalized := walk.extendsFinalized || decide (hash = state.finalized)
    let weight := state.boosted hash (addU128 walk.weight (sums hash))
    match state.block hash with
    | none => some ⟨extendsFinalized,walk.invalid,weight⟩
    | some visited =>
      let invalid := walk.invalid || (decide (visited.proofStatus = .invalid) &&
        (!extendsFinalized || decide (candidate = state.finalized)))
      if visited.parentHash = hash then some ⟨extendsFinalized,invalid,weight⟩
      else visit candidate sums fuel ⟨extendsFinalized,invalid,weight⟩ visited.parentHash

def walkCandidate (candidate : Hash) (node : BlockNode Hash) (sums : Hash → Nat) : Option (Option (CandidateScore Hash)) := do
  let walk ← state.visit candidate sums state.budget ⟨false,false,0⟩ candidate
  if !walk.extendsFinalized || walk.invalid then pure none
  else pure (if walk.weight < 2 ^ 64 then some ⟨candidate,walk.weight,node.height,node.vrfTieBreaker⟩ else none)

def selected (scores : List (Option (CandidateScore Hash))) : Hash :=
  ((maxBy compareCandidates (scores.filterMap id)).map (·.hash)).getD state.finalized

def head : Option Hash := do
  let sums := state.weights
  let scores ← state.blocks.mapM fun entry => state.walkCandidate entry.1 entry.2 sums
  pure (state.selected scores)

section
def extendsLoop (ancestor : Hash) : Nat → Hash → Option Bool
  | 0,_ => none
  | fuel+1,descendant =>
    match state.block descendant with
    | none => some false
    | some node =>
      if node.parentHash = ancestor then some true
      else if node.parentHash = descendant then some false
      else extendsLoop ancestor fuel node.parentHash

def blockExtends (descendant ancestor : Hash) : Option Bool :=
  if descendant = ancestor then some true else state.extendsLoop ancestor state.budget descendant

def invalidLoop : Nat → Hash → Option Bool
  | 0,_ => none
  | fuel+1,hash =>
    match state.block hash with
    | none => some false
    | some node =>
      if node.proofStatus = .invalid then some true
      else if node.parentHash = state.finalized then some false
      else invalidLoop fuel node.parentHash

def hasInvalidAncestor (hash : Hash) : Option Bool := state.invalidLoop state.budget hash

def voteAppliesToCandidate (vote : ChunkVote Hash) (candidate : Hash) : Option Bool :=
  match state.chunks.lookup vote.data.chunkHash with
  | some endBlockHash => state.blockExtends candidate endBlockHash
  | none => some false

def addScore (applies : Bool) (weight score : Nat) : Except (ForkChoiceError Hash) Nat :=
  if applies then Checks.required (checkedAdd score weight) .scoreOverflow else .ok score

def scoreVotes (candidate : Hash) : List (Nat × ChunkVote Hash) → Nat → Option (Except (ForkChoiceError Hash) Nat)
  | [],score => some (.ok score)
  | entry::rest,score => do
    let applies ← state.voteAppliesToCandidate entry.2 candidate
    match addScore applies entry.2.weight score with
    | .ok next => scoreVotes candidate rest next
    | .error reason => some (.error reason)

def scoreBoost (candidate : Hash) (score : Nat) : Option (Except (ForkChoiceError Hash) Nat) :=
  match state.proposerBoost with
  | none => some (.ok score)
  | some boost => (state.blockExtends candidate boost.blockHash).map fun applies => addScore applies boost.weight score

-- Whether the candidate is scored; the second walk needs the first to accept.
def eligible (candidate : Hash) : Option Bool := do
  let descends ← state.blockExtends candidate state.finalized
  if descends then (state.hasInvalidAncestor candidate).map (!·) else pure false

def scoreEligible (candidate : Hash) (node : BlockNode Hash) : Option (Except (ForkChoiceError Hash) (Option (CandidateScore Hash))) := do
  let votes ← state.scoreVotes candidate state.votes 0
  match votes with
  | .error reason => some (.error reason)
  | .ok score =>
    (state.scoreBoost candidate score).map fun total => total.map fun sum => some ⟨candidate,sum,node.height,node.vrfTieBreaker⟩

def scoreCandidate (candidate : Hash) : Option (Except (ForkChoiceError Hash) (Option (CandidateScore Hash))) :=
  match state.block candidate with
  | none => some (.error (.unknownBlock candidate))
  | some node => do
    let scored ← state.eligible candidate
    if scored then state.scoreEligible candidate node else pure (.ok none)

def headReference : Option Hash := do
  let scores ← state.blocks.mapM fun entry => (state.scoreCandidate entry.1).map fun result => result.toOption.join
  pure (state.selected scores)
end

def parentOf (hash : Hash) : Option Hash := (state.block hash).map (·.parentHash)
def isInvalid (hash : Hash) : Bool := (state.block hash).any fun node => decide (node.proofStatus = .invalid)

section
variable {state}

theorem parent_listed (hash : Hash) (linked : state.parentOf hash ≠ none) : hash ∈ state.blocks.map Prod.fst := by
  obtain ⟨parent,found⟩ := Option.ne_none_iff_exists'.mp linked
  obtain ⟨node,present,-⟩ := Option.map_eq_some_iff.mp found
  obtain ⟨before,after,split,-⟩ := List.lookup_eq_some_iff.mp present
  simp [split]

variable {hash : Hash}

theorem parent_other (acyclic : Acyclic state.parentOf) (link : state.parentOf hash = some above) : above ≠ hash := by
  rintro rfl
  exact acyclic _ (.single link)

theorem parent_block (link : state.parentOf hash = some above) :
    ∃ node, state.block hash = some node ∧ node.parentHash = above := Option.map_eq_some_iff.mp link

theorem root_block (last : state.parentOf hash = none) : state.block hash = none := Option.map_eq_none_iff.mp last

variable {fuel : Nat}

theorem extends_loop (acyclic : Acyclic state.parentOf) (path : Path state.parentOf hash (hash::rest)) (enough : rest.length < fuel) :
    state.extendsLoop ancestor fuel hash = some (decide (ancestor ∈ rest)) := by
  refine Path.walk (motive := fun hash rest fuel => state.extendsLoop ancestor fuel hash = some (decide (ancestor ∈ rest)))
    ?_ ?_ path enough
  · intro hash fuel last
    rw [extendsLoop,root_block last]
    rfl
  · intro hash above rest fuel link ih
    obtain ⟨node,known,rfl⟩ := parent_block link
    rw [extendsLoop,known]
    simp only
    by_cases found : node.parentHash = ancestor
    · rw [if_pos found]
      simp [found]
    · rw [if_neg found,if_neg (parent_other acyclic link),ih]
      simp [Ne.symm found]

theorem block_extends (acyclic : Acyclic state.parentOf) (path : Path state.parentOf candidate visited) : state.blockExtends candidate ancestor = some (decide (ancestor ∈ visited)) := by
  have bounded := path.length_le acyclic parent_listed
  obtain ⟨rest,rfl⟩ := path.head
  rw [List.length_map] at bounded
  unfold blockExtends
  by_cases same : candidate = ancestor
  · rw [if_pos same]
    simp [same]
  · rw [if_neg same,extends_loop acyclic path (by simp only [budget,List.length_cons] at *; omega)]
    simp [Ne.symm same]

theorem invalid_loop (path : Path state.parentOf hash (hash::rest)) (enough : rest.length < fuel) :
    state.invalidLoop fuel hash = some ((hash::rest.takeWhile (· ≠ state.finalized)).any state.isInvalid) := by
  refine Path.walk (motive := fun hash rest fuel => state.invalidLoop fuel hash =
    some ((hash::rest.takeWhile (· ≠ state.finalized)).any state.isInvalid)) ?_ ?_ path enough
  · intro hash fuel last
    rw [invalidLoop]
    simp [root_block last,isInvalid]
  · intro hash above rest fuel link ih
    obtain ⟨node,known,rfl⟩ := parent_block link
    have status : state.isInvalid hash = decide (node.proofStatus = .invalid) := by simp [isInvalid,known]
    rw [invalidLoop,known]
    simp only
    by_cases bad : node.proofStatus = .invalid
    · rw [if_pos bad]
      simp [status,bad]
    · rw [if_neg bad]
      by_cases last : node.parentHash = state.finalized
      · rw [if_pos last,List.takeWhile_cons_of_neg (by simp [last])]
        simp [status,bad]
      · rw [if_neg last,ih,List.takeWhile_cons_of_pos (by simp [last])]
        simp [status,bad]

-- The blocks that decide: those after the finalized one, or all known ancestors
-- when the finalized block is the candidate.
def exposed (state : ForkChoice Hash) (candidate : Hash) (extendsFinalized : Bool) (visited : List Hash) : List Hash :=
  if candidate = state.finalized then visited
  else if extendsFinalized then [] else visited.takeWhile (· ≠ state.finalized)

def boostAt (state : ForkChoice Hash) (hash : Hash) : Nat :=
  match state.proposerBoost with
  | some boost => if boost.blockHash = hash then boost.weight else 0
  | none => 0

theorem boosted_gain (hash : Hash) (weight gain : Nat) :
    state.boosted hash (addU128 weight gain) = (weight + (gain + state.boostAt hash)) % 2 ^ 128 := by
  unfold boosted boostAt addU128
  cases state.proposerBoost with
  | none => rfl
  | some boost =>
    simp only
    split
    · rw [Nat.mod_add_mod,Nat.add_assoc]
    · rfl

theorem exposed_cons (candidate hash : Hash) (extendsFinalized : Bool) (rest : List Hash) :
    (state.exposed candidate extendsFinalized (hash::rest)).any state.isInvalid =
      ((state.isInvalid hash && (!(extendsFinalized || decide (hash = state.finalized)) || decide (candidate = state.finalized))) ||
        (state.exposed candidate (extendsFinalized || decide (hash = state.finalized)) rest).any state.isInvalid) := by
  unfold exposed
  by_cases self : candidate = state.finalized
  · simp [self]
  · by_cases here : hash = state.finalized
    · cases extendsFinalized <;> simp [self,here]
    · cases extendsFinalized <;> simp [self,here]

theorem visit_path (acyclic : Acyclic state.parentOf) (candidate : Hash) (sums : Hash → Nat)
    (path : Path state.parentOf hash (hash::rest)) (walk : Walk) (enough : rest.length < fuel) :
    state.visit candidate sums fuel walk hash = some ⟨walk.extendsFinalized || decide (state.finalized ∈ hash::rest),
        walk.invalid || (state.exposed candidate walk.extendsFinalized (hash::rest)).any state.isInvalid,
        (walk.weight + ((hash::rest).map fun visited => sums visited + state.boostAt visited).sum) % 2 ^ 128⟩ := by
  revert walk
  refine Path.walk (motive := fun hash rest fuel => ∀ walk, state.visit candidate sums fuel walk hash = some
    ⟨walk.extendsFinalized || decide (state.finalized ∈ hash::rest),
      walk.invalid || (state.exposed candidate walk.extendsFinalized (hash::rest)).any state.isInvalid,
      (walk.weight + ((hash::rest).map fun visited => sums visited + state.boostAt visited).sum) % 2 ^ 128⟩) ?_ ?_ path enough
  · intro hash fuel last walk
    have unknown := root_block last
    have turned : decide (state.finalized = hash) = decide (hash = state.finalized) := decide_eq_decide.mpr eq_comm
    rw [visit,unknown,boosted_gain,exposed_cons]
    simp [isInvalid,unknown,exposed,turned]
  · intro hash above rest fuel link ih walk
    obtain ⟨node,known,rfl⟩ := parent_block link
    have status : state.isInvalid hash = decide (node.proofStatus = .invalid) := by simp [isInvalid,known]
    have turned : decide (state.finalized = hash) = decide (hash = state.finalized) := decide_eq_decide.mpr eq_comm
    have sum (above : List Hash) : ((hash::above).map fun visited => sums visited + state.boostAt visited).sum =
        sums hash + state.boostAt hash + (above.map fun visited => sums visited + state.boostAt visited).sum := rfl
    have member (above : List Hash) : decide (state.finalized ∈ hash::above) =
        (decide (hash = state.finalized) || decide (state.finalized ∈ above)) := by
      rw [← turned,← Bool.decide_or]
      exact decide_eq_decide.mpr List.mem_cons
    rw [visit,known,boosted_gain]
    simp only
    rw [if_neg (parent_other acyclic link),ih,exposed_cons candidate hash,
      status,Bool.or_assoc,Bool.or_assoc,sum,member,Nat.mod_add_mod,Nat.add_assoc]
end
section
variable {state}

section
attribute [local instance] Chain.lawful_equality
def supports (state : ForkChoice Hash) (blocks : List Hash) (entry : Nat × ChunkVote Hash) : Bool :=
  (state.chunks.lookup entry.2.data.chunkHash).any fun endBlockHash => decide (endBlockHash ∈ blocks)
end

def voteSum (state : ForkChoice Hash) (blocks : List Hash) (votes : List (Nat × ChunkVote Hash)) : Nat :=
  ((votes.filter (state.supports blocks)).map fun entry => entry.2.weight).sum

theorem vote_sum_cons (blocks : List Hash) (entry : Nat × ChunkVote Hash) (rest : List (Nat × ChunkVote Hash)) :
    state.voteSum blocks (entry::rest) = (if state.supports blocks entry then entry.2.weight else 0) + state.voteSum blocks rest := by
  unfold voteSum
  rw [List.filter_cons]
  split
  · rfl
  · rw [Nat.zero_add]

theorem add_weight (sums : Hash → Nat) (entry : Nat × ChunkVote Hash) (hash : Hash) :
    state.addWeight sums entry hash = if state.supports [hash] entry then addU128 (sums hash) entry.2.weight else sums hash := by
  unfold addWeight supports
  cases state.chunks.lookup entry.2.data.chunkHash with
  | none => rfl
  | some endBlockHash =>
    by_cases here : hash = endBlockHash
    · subst here
      simp
    · simp [Function.update_of_ne here,Ne.symm here]

theorem weights_fold (votes : List (Nat × ChunkVote Hash)) (sums : Hash → Nat) (small : ∀ hash, sums hash < 2 ^ 128) (hash : Hash) :
    votes.foldl state.addWeight sums hash = (sums hash + state.voteSum [hash] votes) % 2 ^ 128 := by
  induction votes generalizing sums with
  | nil => exact (Nat.mod_eq_of_lt (small hash)).symm
  | cons entry rest ih =>
    have kept : ∀ other, state.addWeight sums entry other < 2 ^ 128 := by
      intro other
      rw [add_weight]
      split
      · exact Nat.mod_lt _ (by decide)
      · exact small other
    rw [List.foldl_cons,vote_sum_cons,ih _ kept,add_weight]
    split
    · rw [addU128,Nat.mod_add_mod,Nat.add_assoc]
    · rw [Nat.zero_add]

theorem vote_sum_blocks {hash : Hash} (fresh : hash ∉ rest) (votes : List (Nat × ChunkVote Hash)) :
    state.voteSum (hash::rest) votes = state.voteSum [hash] votes + state.voteSum rest votes := by
  induction votes with
  | nil => rfl
  | cons entry later ih =>
    rw [vote_sum_cons,vote_sum_cons,vote_sum_cons,ih]
    have parts : (if state.supports (hash::rest) entry then entry.2.weight else 0) =
        (if state.supports [hash] entry then entry.2.weight else 0) + (if state.supports rest entry then entry.2.weight else 0) := by
      cases named : state.chunks.lookup entry.2.data.chunkHash with
      | none => simp [supports,named]
      | some endBlockHash =>
        by_cases here : endBlockHash = hash
        · subst here
          simp [supports,named,fresh]
        · simp [supports,named,here]
    omega

theorem length_le_of_lt {keys : List Nat} (distinct : keys.Nodup) (bound : Nat) (below : ∀ key ∈ keys, key < bound) : keys.length ≤ bound := by
  have bounded := (List.subperm_of_subset distinct fun key member => List.mem_range.mpr (below key member)).length_le
  rwa [List.length_range] at bounded

theorem vote_sum_lt (blocks : List Hash) : state.voteSum blocks state.votes ≤ 2 ^ 96 := by
  have count : state.votes.length ≤ 2 ^ 32 := by
    rw [← List.length_map Prod.fst]
    refine length_le_of_lt state.votesOnce _ fun key member => ?_
    obtain ⟨entry,listed,rfl⟩ := List.mem_map.mp member
    exact state.voters entry listed
  have each := List.sum_le_card_nsmul ((state.votes.filter (state.supports blocks)).map fun entry => entry.2.weight) (2 ^ 64) (by
    intro weight member
    obtain ⟨entry,listed,rfl⟩ := List.mem_map.mp member
    exact Nat.le_of_lt (state.voteWeights entry (List.mem_filter.mp listed).1))
  rw [List.length_map,smul_eq_mul] at each
  have fewer := List.length_filter_le (state.supports blocks) state.votes
  unfold voteSum
  calc _ ≤ _ := each
    _ ≤ 2 ^ 32 * 2 ^ 64 := Nat.mul_le_mul_right _ (Nat.le_trans fewer count)
    _ = 2 ^ 96 := by decide

theorem weights_eq (hash : Hash) : state.weights hash = state.voteSum [hash] state.votes := by
  have small := state.vote_sum_lt [hash]
  unfold weights
  rw [weights_fold _ _ (fun _ => by decide),Nat.zero_add,Nat.mod_eq_of_lt (Nat.lt_of_le_of_lt small (by decide))]

def boostSum (state : ForkChoice Hash) (blocks : List Hash) : Nat :=
  match state.proposerBoost with
  | some boost => if boost.blockHash ∈ blocks then boost.weight else 0
  | none => 0

theorem boost_sum_cons {hash : Hash} (fresh : hash ∉ rest) : state.boostSum (hash::rest) = state.boostAt hash + state.boostSum rest := by
  unfold boostSum boostAt
  cases state.proposerBoost with
  | none => rfl
  | some boost =>
    by_cases here : boost.blockHash = hash
    · simp [here,fresh]
    · simp [here]

def total (state : ForkChoice Hash) (visited : List Hash) : Nat := state.voteSum visited state.votes + state.boostSum visited

theorem walk_total (distinct : visited.Nodup) :
    (visited.map fun hash => state.weights hash + state.boostAt hash).sum = state.total visited := by
  induction visited with
  | nil =>
    have unsupported : state.votes.filter (state.supports []) = [] := by simp [List.filter_eq_nil_iff,supports]
    rw [total,voteSum,unsupported,boostSum]
    cases state.proposerBoost <;> rfl
  | cons hash rest ih =>
    obtain ⟨fresh,distinct⟩ := List.nodup_cons.mp distinct
    rw [List.map_cons,List.sum_cons,ih distinct,total,total,weights_eq,vote_sum_blocks fresh,boost_sum_cons fresh]
    omega

theorem total_lt (visited : List Hash) : state.total visited < 2 ^ 128 := by
  have votes := state.vote_sum_lt visited
  have boost : state.boostSum visited < 2 ^ 64 := by
    unfold boostSum
    cases given : state.proposerBoost with
    | none => simp
    | some boost =>
      have small := state.boostWeight boost given
      simp only
      split
      · exact small
      · decide
  unfold total
  omega

theorem vote_applies (acyclic : Acyclic state.parentOf) (path : Path state.parentOf candidate visited) (entry : Nat × ChunkVote Hash) :
    state.voteAppliesToCandidate entry.2 candidate = some (state.supports visited entry) := by
  unfold voteAppliesToCandidate supports
  cases state.chunks.lookup entry.2.data.chunkHash with
  | none => rfl
  | some endBlockHash => exact block_extends acyclic path

def checkedTotal (sum : Nat) : Except (ForkChoiceError Hash) Nat := if sum < 2 ^ 64 then .ok sum else .error .scoreOverflow
theorem checked_total (fits : sum < 2 ^ 64) : (checkedTotal sum : Except (ForkChoiceError Hash) Nat) = .ok sum := if_pos fits

theorem add_score (applies : Bool) (weight score : Nat) (small : score < 2 ^ 64) :
    (addScore applies weight score : Except (ForkChoiceError Hash) Nat) = checkedTotal (score + if applies then weight else 0) := by
  cases applies with
  | false => exact (checked_total small).symm
  | true =>
    unfold addScore checkedTotal checkedAdd
    simp only [if_true]
    by_cases fits : score + weight < 2 ^ 64
    · rw [if_pos fits,if_pos fits]; rfl
    · rw [if_neg fits,if_neg fits]; rfl

theorem score_votes (acyclic : Acyclic state.parentOf)
    (path : Path state.parentOf candidate visited) (votes : List (Nat × ChunkVote Hash)) (score : Nat) (small : score < 2 ^ 64) :
    state.scoreVotes candidate votes score = some (checkedTotal (score + state.voteSum visited votes)) := by
  induction votes generalizing score with
  | nil => exact congrArg some (checked_total small).symm
  | cons entry rest ih =>
    rw [scoreVotes,vote_applies acyclic path,vote_sum_cons,← Nat.add_assoc]
    change (match (addScore (state.supports visited entry) entry.2.weight score : Except (ForkChoiceError Hash) Nat) with
      | .ok next => scoreVotes state candidate rest next
      | .error reason => some (.error reason)) = _
    rw [add_score _ _ _ small]
    generalize score + (if state.supports visited entry then entry.2.weight else 0) = next
    by_cases fits : next < 2 ^ 64
    · rw [checked_total fits]
      exact ih next fits
    · rw [checkedTotal,if_neg fits,checkedTotal,if_neg (by omega)]

theorem score_boost (acyclic : Acyclic state.parentOf)
    (path : Path state.parentOf candidate visited) (score : Nat) (small : score < 2 ^ 64) :
    state.scoreBoost candidate score = some (checkedTotal (score + state.boostSum visited)) := by
  unfold scoreBoost boostSum
  cases state.proposerBoost with
  | none => exact congrArg some (checked_total small).symm
  | some boost =>
    simp only
    rw [block_extends acyclic path,Option.map_some,add_score _ _ _ small]
    simp

def judged (state : ForkChoice Hash) (candidate : Hash) (node : BlockNode Hash) (visited : List Hash) : Option (CandidateScore Hash) :=
  if state.finalized ∈ visited ∧ (state.exposed candidate false visited).any state.isInvalid = false then
    if state.total visited < 2 ^ 64 then some ⟨candidate,state.total visited,node.height,node.vrfTieBreaker⟩ else none
  else none

theorem walk_candidate (acyclic : Acyclic state.parentOf) (path : Path state.parentOf candidate visited) :
    state.walkCandidate candidate node state.weights = some (state.judged candidate node visited) := by
  have bounded := path.length_le acyclic parent_listed
  have distinct := path.nodup acyclic
  obtain ⟨rest,rfl⟩ := path.head
  rw [List.length_map] at bounded
  rw [walkCandidate,visit_path acyclic candidate state.weights path _ (by simp only [budget,List.length_cons] at *; omega),
    walk_total distinct,Nat.zero_add,Nat.mod_eq_of_lt (total_lt _)]
  simp only [Option.bind_eq_bind,Option.bind_some,Bool.false_or,judged]
  by_cases reached : state.finalized ∈ candidate::rest
  · cases bad : (state.exposed candidate false (candidate::rest)).any state.isInvalid with
    | true => simp [reached]
    | false => simp [reached]
  · simp [reached]

theorem exposed_path (distinct : (candidate::rest).Nodup) :
    state.exposed candidate false (candidate::rest) = candidate::rest.takeWhile (· ≠ state.finalized) := by
  unfold exposed
  by_cases self : candidate = state.finalized
  · have never : ∀ hash ∈ rest, decide (hash ≠ state.finalized) = true := by
      intro hash member
      have fresh := (List.nodup_cons.mp distinct).1
      exact decide_eq_true fun same => fresh (by rw [self,← same]; exact member)
    rw [if_pos self,List.takeWhile_eq_self_iff.mpr never]
  · simp [self]

theorem eligible_path (acyclic : Acyclic state.parentOf) (path : Path state.parentOf candidate visited) :
    state.eligible candidate = some (decide (state.finalized ∈ visited ∧
      (state.exposed candidate false visited).any state.isInvalid = false)) := by
  have bounded := path.length_le acyclic parent_listed
  have distinct := path.nodup acyclic
  rw [eligible,block_extends acyclic path]
  obtain ⟨rest,rfl⟩ := path.head
  rw [List.length_map] at bounded
  simp only [Option.bind_eq_bind,Option.bind_some]
  by_cases reached : state.finalized ∈ candidate::rest
  · rw [if_pos (decide_eq_true reached),hasInvalidAncestor,invalid_loop path (by simp only [budget,List.length_cons] at *; omega),
      exposed_path distinct]
    cases bad : (candidate::rest.takeWhile (· ≠ state.finalized)).any state.isInvalid <;> simp [reached]
  · simp [reached]

theorem score_candidate (acyclic : Acyclic state.parentOf)
    (known : state.block candidate = some node) (path : Path state.parentOf candidate visited) :
    (state.scoreCandidate candidate).map (fun result => result.toOption.join) = some (state.judged candidate node visited) := by
  rw [scoreCandidate,known]
  simp only
  rw [eligible_path acyclic path,Option.bind_eq_bind,Option.bind_some,judged]
  by_cases eligible : state.finalized ∈ visited ∧ (state.exposed candidate false visited).any state.isInvalid = false
  · rw [if_pos (decide_eq_true eligible),if_pos eligible,scoreEligible,score_votes acyclic path _ 0 (by decide),Nat.zero_add,
      Option.bind_eq_bind,Option.bind_some]
    by_cases small : state.voteSum visited state.votes < 2 ^ 64
    · rw [checked_total small]
      simp only
      rw [score_boost acyclic path _ small,checkedTotal,← total]
      by_cases fits : state.total visited < 2 ^ 64
      · rw [if_pos fits,if_pos fits]; rfl
      · rw [if_neg fits,if_neg fits]; rfl
    · rw [checkedTotal,if_neg small,if_neg (by unfold total; omega)]
      rfl
  · rw [if_neg (by simpa using eligible),if_neg eligible]
    rfl
end
section
variable {state}

theorem max_by_mem {compare : α → α → Ordering} {items : List α} (found : maxBy compare items = some best) : best ∈ items := by
  cases items with
  | nil => cases found
  | cons first rest =>
    obtain rfl := Option.some.inj found
    have kept : ∀ (later : List α) (held : α), later.foldl (fun best next => if compare best next = .gt then best else next) held ∈ held::later := by
      intro later
      induction later with
      | nil => intro held; exact List.mem_cons_self ..
      | cons next later ih =>
        intro held
        rw [List.foldl_cons]
        rcases List.mem_cons.mp (ih (if compare held next = .gt then held else next)) with same | further
        · rw [same]
          split <;> simp
        · exact List.mem_cons_of_mem _ (List.mem_cons_of_mem _ further)
    exact kept rest first

theorem mapM_agree (first second : α → Option β) (holds : β → Prop) {items : List α}
    (each : ∀ item ∈ items, ∃ result, first item = some result ∧ second item = some result ∧ holds result) :
    ∃ results, items.mapM first = some results ∧ items.mapM second = some results ∧ ∀ result ∈ results, holds result := by
  induction items with
  | nil => exact ⟨[],rfl,rfl,by simp⟩
  | cons item rest ih =>
    obtain ⟨result,one,other,fact⟩ := each item (List.mem_cons_self ..)
    obtain ⟨results,ones,others,facts⟩ := ih fun later member => each later (List.mem_cons_of_mem _ member)
    refine ⟨result::results,?_,?_,List.forall_mem_cons.mpr ⟨fact,facts⟩⟩
    · simp [List.mapM_cons,one,ones]
    · simp [List.mapM_cons,other,others]

-- The block descends from the finalized one and no block above that is invalid.
def Viable (state : ForkChoice Hash) (hash : Hash) : Prop := ∃ newer older, Path state.parentOf hash (newer ++ state.finalized::older) ∧
    ∀ block ∈ newer, ∀ node, state.block block = some node → node.proofStatus ≠ .invalid

theorem split_first {items : List Hash} (member : target ∈ items) :
    items = items.takeWhile (· ≠ target) ++ target::(items.dropWhile (· ≠ target)).tail := by
  induction items with
  | nil => cases member
  | cons item rest ih =>
    by_cases here : item = target
    · subst here
      simp
    · have later : target ∈ rest := (List.mem_cons.mp member).resolve_left (Ne.symm here)
      rw [List.takeWhile_cons_of_pos (by simpa using here),List.dropWhile_cons_of_pos (by simpa using here),List.cons_append,← ih later]

theorem judged_viable (path : Path state.parentOf candidate visited) (found : state.judged candidate node visited = some score) :
    score.hash = state.finalized ∨ state.Viable score.hash := by
  unfold judged at found
  split at found
  next fair =>
    split at found
    next =>
      obtain rfl := Option.some.inj found
      by_cases self : candidate = state.finalized
      · exact .inl self
      · right
        have clean := fair.2
        simp only [exposed,if_neg self,Bool.false_eq_true,if_false] at clean
        refine ⟨visited.takeWhile (· ≠ state.finalized),(visited.dropWhile (· ≠ state.finalized)).tail,?_,?_⟩
        · rw [← split_first fair.1]
          exact path
        · intro block member known stored bad
          have listed := List.any_eq_false.mp clean block member
          exact listed (by simp [isInvalid,stored,bad])
    next => cases found
  next => cases found

theorem selected_cases {scores : List (Option (CandidateScore Hash))}
    (each : ∀ result ∈ scores, ∀ score, result = some score → score.hash = state.finalized ∨ state.Viable score.hash) :
    state.selected scores = state.finalized ∨ state.Viable (state.selected scores) := by
  unfold selected
  cases best : maxBy compareCandidates (scores.filterMap id) with
  | none => exact .inl rfl
  | some score =>
    obtain ⟨result,listed,same⟩ := List.mem_filterMap.mp (max_by_mem best)
    exact each result listed score same

theorem block_listed (listed : entry ∈ state.blocks) : state.block entry.1 = some entry.2 := by
  obtain ⟨before,after,split⟩ := List.append_of_mem listed
  have once := state.blocksOnce
  rw [split,List.map_append,List.map_cons] at once
  refine List.lookup_eq_some_iff.mpr ⟨before,after,split,fun other earlier => ?_⟩
  have different := (List.nodup_append.mp once).2.2 other.1 (List.mem_map_of_mem earlier) entry.1 (List.mem_cons_self ..)
  simpa using Ne.symm different

theorem head_matches_reference (state : ForkChoice Hash) (acyclic : Acyclic state.parentOf) :
    ∃ selected, state.head = some selected ∧ state.headReference = some selected ∧
      (selected = state.finalized ∨ state.Viable selected) := by
  obtain ⟨scores,walked,scored,viable⟩ := mapM_agree
    (fun entry : Hash × BlockNode Hash => state.walkCandidate entry.1 entry.2 state.weights)
    (fun entry => (state.scoreCandidate entry.1).map fun result => result.toOption.join)
    (fun result => ∀ score, result = some score → score.hash = state.finalized ∨ state.Viable score.hash) (by
      intro entry listed
      obtain ⟨visited,path⟩ := exists_path acyclic parent_listed entry.1
      exact ⟨_,walk_candidate acyclic path,score_candidate acyclic (block_listed listed) path,fun score => judged_viable path⟩)
  refine ⟨state.selected scores,?_,?_,selected_cases viable⟩
  · rw [head,walked]
    rfl
  · rw [headReference,scored]
    rfl
end
section
-- Blocks 1 and 2 over an unknown finalized block, a refuted block 3 on 1 and
-- block 4 on 2; two votes and a boost.
def sampleNode (hash parent height : Nat) (status : ProofStatus) : Nat × BlockNode Nat := (hash,⟨hash,parent,height,0,status,hash⟩)
def sampleVote (chunk weight : Nat) : ChunkVote Nat := ⟨⟨0,0,chunk,.precommit⟩,weight⟩

def sampleForks : ForkChoice Nat where
  blocks := [sampleNode 1 0 1 .proven,sampleNode 2 0 1 .pendingProof,sampleNode 3 1 2 .invalid,sampleNode 4 2 2 .pendingProof]
  chunks := [(10,3),(11,1),(12,4)]
  votes := [(0,sampleVote 10 90),(1,sampleVote 11 5),(2,sampleVote 12 3)]
  finalized := 0
  proposerBoost := some ⟨2,4⟩
  blocksOnce := by decide
  votesOnce := by decide
  voters := by decide
  voteWeights := by decide
  boostWeight := by decide

theorem sample_acyclic : Acyclic sampleForks.parentOf := by
  have older : ∀ hash above, sampleForks.parentOf hash = some above → above < hash := by
    intro hash above link
    have listed := parent_listed hash (by rw [link]; exact Option.some_ne_none _)
    have options : hash = 1 ∨ hash = 2 ∨ hash = 3 ∨ hash = 4 := by simpa [sampleForks,sampleNode] using listed
    rcases options with rfl | rfl | rfl | rfl <;> cases link <;> decide
  intro hash cycle
  have smaller : ∀ {below above}, Relation.TransGen (fun below above => sampleForks.parentOf below = some above) below above → above < below := by
    intro below above chain
    induction chain with
    | single link => exact older _ _ link
    | tail _ link ih => exact Nat.lt_trans (older _ _ link) ih
  exact Nat.lt_irrefl _ (smaller cycle)

theorem sample_head : sampleForks.head = some 4 ∧ sampleForks.headReference = some 4 ∧ sampleForks.Viable 4 := by
  obtain ⟨selected,found,reference,sound⟩ := head_matches_reference sampleForks sample_acyclic
  have four : sampleForks.head = some 4 := by decide +kernel
  obtain rfl : selected = 4 := Option.some.inj (found.symm.trans four)
  exact ⟨found,reference,sound.resolve_left (by decide)⟩
end
end ForkChoice
end Neutrino.HeadSelection
