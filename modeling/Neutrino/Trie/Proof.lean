import Neutrino.Trie.Canonical

-- Inclusion and exclusion proofs: a proof is whatever value a decoder may return.

namespace Neutrino.StateTrie
open Checks Bits Patricia
open BitPath (ofBits length_ofBits suffix_ofBits bit_ofBits prefixTo_ofBits ofBits_inj)
variable {β : Type} [Alphabet β] [DecidableEq β]

inductive ProofStep (β : Type) where
  | branch (sibling : Hash β) (descendedRight : Bool)
  | extension (prefixPath : BitPath)
  deriving DecidableEq

inductive ProofTerminal (β : Type) where
  | empty
  | leaf (keySuffix : BitPath) (valueHash : Hash β)
  | divergentExtension (prefixPath : BitPath) (childHash : Hash β)
  deriving DecidableEq

structure Proof (β : Type) where
  steps : List (ProofStep β)
  terminal : ProofTerminal β
  deriving DecidableEq

inductive ProofOutcome (β : Type) where
  | included (valueHash : Hash β)
  | excluded
  deriving DecidableEq

def ProofOutcome.of (hasher : Hasher β) (found : Option (List Byte)) : ProofOutcome β :=
  found.elim .excluded fun value => .included (hasher.hashValue value)

inductive ProofError where
  | branchBitMismatch
  | extensionPrefixMismatch
  | keyTooShort
  | nonDivergentExtensionTerminal
  | rootMismatch
  deriving Repr,DecidableEq

-- Verification ends in an error of its own or where a bit path operation panics.
inductive Refusal where
  | fault (reason : Fault)
  | proof (error : ProofError)
  deriving Repr,DecidableEq

def guarded (outcome : Except Fault α) : Except Refusal α := outcome.mapError .fault

def checkStepBits (keyPath : BitPath) : List (ProofStep β) → Nat → Except Refusal Nat
  | [],consumed => return consumed
  | .branch _ descendedRight::steps,consumed => do
    ensure (consumed < keyPath.length) (.proof .keyTooShort)
    let bit ← guarded (keyPath.bit consumed)
    ensure (bit = descendedRight) (.proof .branchBitMismatch)
    checkStepBits keyPath steps (consumed + 1)
  | .extension prefixPath::steps,consumed => do
    let finish := consumed + prefixPath.length
    ensure (finish < 2 ^ 32) (.proof .keyTooShort)
    ensure (finish ≤ keyPath.length) (.proof .keyTooShort)
    let remaining ← guarded (keyPath.suffix consumed)
    let segment ← guarded (remaining.prefixTo prefixPath.length)
    ensure (segment = prefixPath) (.proof .extensionPrefixMismatch)
    checkStepBits keyPath steps finish

-- The node a step stands for, above a node with the given digest.
def ProofStep.node : ProofStep β → Hash β → Node β
  | .branch sibling descendedRight,current => if descendedRight then .branch sibling current else .branch current sibling
  | .extension prefixPath,current => .extension prefixPath current

def recomputeRoot (hasher : Hasher β) (steps : List (ProofStep β)) (terminal : Hash β) : Hash β :=
  steps.foldr (fun step current => hasher.digest (step.node current)) terminal

def extensionMatches (stored remaining : BitPath) : Except Fault Bool := do
  if remaining.length < stored.length then return false
  let front ← remaining.prefixTo stored.length
  return front = stored

-- The terminal's digest and what it attests to, for what remains of the key.
def ProofTerminal.attested (hasher : Hasher β) (keyPath : BitPath) (consumed : Nat) :
    ProofTerminal β → Except Refusal (Hash β × ProofOutcome β)
  | .empty => return (zeroHash,.excluded)
  | .leaf keySuffix valueHash => do
    let remaining ← guarded (keyPath.suffix consumed)
    return (hasher.digest (.leaf keySuffix valueHash),if keySuffix = remaining then .included valueHash else .excluded)
  | .divergentExtension prefixPath childHash => do
    let remaining ← guarded (keyPath.suffix consumed)
    let along ← guarded (extensionMatches prefixPath remaining)
    ensure (along = false) (.proof .nonDivergentExtensionTerminal)
    return (hasher.digest (.extension prefixPath childHash),.excluded)

namespace Proof

def verify (hasher : Hasher β) (proof : Proof β) (expectedRoot : Hash β) (key : List Byte) : Except Refusal (ProofOutcome β) := do
  let keyPath ← guarded (BitPath.forKey key)
  let consumed ← checkStepBits keyPath proof.steps 0
  let (terminal,outcome) ← proof.terminal.attested hasher keyPath consumed
  ensure (recomputeRoot hasher proof.steps terminal = expectedRoot) (.proof .rootMismatch)
  return outcome
end Proof

def Trie.proveFrom (trie : Trie β) (path : BitPath) : Nat → Hash β → Nat → List (ProofStep β) → Except Fault (Proof β)
  | 0,_,_,_ => .error .diverged
  | budget+1,current,consumed,steps => do
    if current = zeroHash then return ⟨steps,.empty⟩
    match ← trie.fetchNode current with
    | .leaf keySuffix valueHash => return ⟨steps,.leaf keySuffix valueHash⟩
    | .branch left right =>
      if path.length ≤ consumed then return ⟨steps,.empty⟩
      let bit ← path.bit consumed
      trie.proveFrom path budget (if bit then right else left) (consumed + 1) (steps ++ [.branch (if bit then left else right) bit])
    | .extension prefixPath child =>
      let remaining ← path.suffix consumed
      let common ← prefixPath.commonPrefixLen remaining
      if common = prefixPath.length then
        let rest ← advance consumed prefixPath.length
        trie.proveFrom path budget child rest (steps ++ [.extension prefixPath])
      else return ⟨steps,.divergentExtension prefixPath child⟩

def Trie.prove (trie : Trie β) (key : List Byte) : Except Fault (Proof β) := do
  let path ← BitPath.forKey key
  trie.proveFrom path trie.budget trie.root 0 []

def Hasher.top (hasher : Hasher β) : BitTree (List Byte) → Node β
  | .leaf suffix value => hasher.leaf suffix value
  | .fork stem left right =>
    if stem = [] then .branch (hasher.root left) (hasher.root right)
    else .extension (ofBits stem) (hasher.root (.fork [] left right))

theorem root_top (hasher : Hasher β) (tree : BitTree (List Byte)) : hasher.root tree = hasher.digest (hasher.top tree) := by
  cases tree with
  | leaf suffix value => rfl
  | fork stem left right =>
    by_cases none : stem = []
    · simp [Hasher.root,Hasher.stemmed,Hasher.top,none]
    · simp [Hasher.root,Hasher.stemmed,Hasher.top,none]

variable {hasher : Hasher β}

theorem digest_inj (injective : hasher.Injective) : hasher.digest one = hasher.digest two ↔ one = two :=
  ⟨fun same => Node.encode_injective (injective.node same),congrArg hasher.digest⟩

variable {result : α}

theorem guarded_ok : guarded outcome = .ok result ↔ outcome = .ok result := mapError_ok

section
variable {path : List Bool} (brief : path.length < 2 ^ 32) {steps : List (ProofStep β)} {offset consumed : Nat}
include brief

theorem checked_branch : checkStepBits (ofBits path) (.branch sibling right::steps) offset = .ok consumed ↔
      offset < path.length ∧ path.getD offset false = right ∧ checkStepBits (ofBits path) steps (offset + 1) = .ok consumed := by
  rw [checkStepBits,length_ofBits brief]
  by_cases inside : offset < path.length
  · simp [inside,guarded_ok,bit_ofBits brief inside]
  · simp [inside]

theorem checked_extension (inside : offset ≤ path.length) :
    checkStepBits (ofBits path) (.extension prefixPath::steps) offset = .ok consumed ↔
      offset + prefixPath.length ≤ path.length ∧ ofBits ((path.drop offset).take prefixPath.length) = prefixPath ∧
        checkStepBits (ofBits path) steps (offset + prefixPath.length) = .ok consumed := by
  rw [checkStepBits,length_ofBits brief]
  by_cases room : offset + prefixPath.length ≤ path.length
  · have rest : (path.drop offset).length < 2 ^ 32 := by rw [List.length_drop]; omega
    have fit : prefixPath.length ≤ (path.drop offset).length := by rw [List.length_drop]; omega
    rw [ensure_pos (by omega),ok_bind,ensure_pos room,ok_bind,suffix_ofBits brief inside]
    simp [guarded_ok,prefixTo_ofBits rest fit,room]
  · simp [room]

theorem checked_within (inside : offset ≤ path.length)
    (checked : checkStepBits (ofBits path) steps offset = .ok consumed) : consumed ≤ path.length := by
  induction steps generalizing offset with
  | nil =>
    cases checked
    exact inside
  | cons step rest ih =>
    cases step with
    | branch sibling right =>
      obtain ⟨below,_,others⟩ := (checked_branch brief).mp checked
      exact ih (by omega) others
    | extension prefixPath =>
      obtain ⟨below,_,others⟩ := (checked_extension brief inside).mp checked
      exact ih below others
end

-- A run that ends with a result or with a verification error, never in a panic.
def Unfaulted (outcome : Except Refusal α) : Prop := ∀ reason, outcome ≠ .error (.fault reason)

theorem unfaulted_iff : Unfaulted outcome ↔ Ends (fun _ => True) (fun refusal => ∀ reason, ¬refusal = .fault reason) outcome := by
  cases outcome <;> simp [Unfaulted,Ends]

theorem extensionMatches_ofBits (short : remaining.length < 2 ^ 32) : extensionMatches stored (ofBits remaining) =
      .ok (decide (stored.length ≤ remaining.length ∧ ofBits (remaining.take stored.length) = stored)) := by
  rw [extensionMatches,length_ofBits short]
  by_cases longer : remaining.length < stored.length
  · simp [longer]
  · have fit : stored.length ≤ remaining.length := by omega
    rw [if_neg longer,prefixTo_ofBits short fit]
    simp [fit]

section
variable {path : List Bool} (brief : path.length < 2 ^ 32)
include brief

theorem checkStepBits_unfaulted (inside : offset ≤ path.length) : Unfaulted (checkStepBits (ofBits path) steps offset) := by
  induction steps generalizing offset with
  | nil => exact nofun
  | cons step rest ih =>
    simp only [unfaulted_iff] at ih ⊢
    cases step with
    | branch sibling right =>
      simp only [checkStepBits,length_ofBits brief,ends_bind,ends_ensure]
      refine ⟨fun below => ?_,by simp⟩
      simp [guarded,bit_ofBits brief below,ih below]
    | extension prefixPath =>
      simp only [checkStepBits,length_ofBits brief,suffix_ofBits brief inside,ends_bind,ends_ensure]
      refine ⟨fun _ => ⟨fun below => ?_,by simp⟩,by simp⟩
      have short : (path.drop offset).length < 2 ^ 32 := by rw [List.length_drop]; omega
      have fit : prefixPath.length ≤ (path.drop offset).length := by rw [List.length_drop]; omega
      simp [guarded,prefixTo_ofBits short fit,ih below]

theorem attested_unfaulted (hasher : Hasher β) (terminal : ProofTerminal β) (inside : consumed ≤ path.length) :
    Unfaulted (terminal.attested hasher (ofBits path) consumed) := by
  have short : (path.drop consumed).length < 2 ^ 32 := by rw [List.length_drop]; omega
  rw [unfaulted_iff]
  cases terminal <;> simp [-bind_pure_comp,guarded,ProofTerminal.attested,suffix_ofBits brief inside,extensionMatches_ofBits short]
end
variable {key : List Byte}

theorem verify_unfaulted (hasher : Hasher β) (proof : Proof β) (root : Hash β) (fit : KeyFits key) :
    Unfaulted (proof.verify hasher root key) := by
  have checks : Unfaulted (checkStepBits (ofBits (keyBits key)) proof.steps 0) := checkStepBits_unfaulted fit.short (Nat.zero_le _)
  rw [unfaulted_iff] at checks ⊢
  rw [Proof.verify,forKey_ofBits fit]
  cases checked : checkStepBits (ofBits (keyBits key)) proof.steps 0 with
  | error refusal =>
    rw [checked] at checks
    simp only [guarded,Except.mapError,ok_bind,checked]
    exact checks
  | ok consumed =>
    have inside := checked_within fit.short (by omega) checked
    simp [-bind_pure_comp,guarded,checked,unfaulted_iff.mp (attested_unfaulted fit.short hasher proof.terminal inside)]

theorem verify_ok {proof : Proof β} (fit : KeyFits key) : proof.verify hasher root key = .ok outcome ↔ ∃ consumed terminal,
      checkStepBits (ofBits (keyBits key)) proof.steps 0 = .ok consumed ∧
      proof.terminal.attested hasher (ofBits (keyBits key)) consumed = .ok (terminal,outcome) ∧
      recomputeRoot hasher proof.steps terminal = root := by
  simp only [Proof.verify,forKey_ofBits fit,bind_ok,guarded_ok,Except.ok.injEq,exists_eq_left',Prod.exists,ensure_ok,
    exists_and_left,exists_const,pure_ok]
  constructor
  · rintro ⟨consumed,checked,terminal,_,attested,same,rfl⟩
    exact ⟨consumed,checked,terminal,attested,same⟩
  · rintro ⟨consumed,checked,terminal,attested,same⟩
    exact ⟨consumed,checked,terminal,outcome,attested,same,rfl⟩

section
variable {hasher : Hasher β} (injective : hasher.Injective) {path : List Bool} (brief : path.length < 2 ^ 32)
include injective
variable {tree : BitTree (List Byte)}
omit brief in
theorem root_eq_digest : hasher.digest node = hasher.root tree ↔ node = hasher.top tree := by
  rw [root_top,digest_inj injective]

omit injective brief in
theorem top_branch (same : .branch left right = hasher.top tree) :
    ∃ one two, tree = .fork [] one two ∧ left = hasher.root one ∧ right = hasher.root two := by
  cases tree with
  | leaf suffix value => cases same
  | fork stem one two =>
    rw [Hasher.top] at same
    split at same
    · rename_i none
      cases same
      exact ⟨one,two,by rw [none],rfl,rfl⟩
    · cases same

omit injective brief in
theorem top_extension (same : .extension prefixPath child = hasher.top tree) :
    ∃ stem one two, tree = .fork stem one two ∧ stem ≠ [] ∧ prefixPath = ofBits stem ∧ child = hasher.root (.fork [] one two) := by
  cases tree with
  | leaf suffix value => cases same
  | fork stem one two =>
    rw [Hasher.top] at same
    split at same
    · cases same
    · rename_i some
      cases same
      exact ⟨stem,one,two,rfl,some,rfl,rfl⟩

include brief

theorem steps_reach (inside : offset ≤ path.length) (fits : Fits offset tree)
    (checked : checkStepBits (ofBits path) steps offset = .ok consumed)
    (recomputed : recomputeRoot hasher steps terminal = hasher.root tree) :
    ∃ reached, terminal = hasher.root reached ∧ Fits consumed reached ∧ tree.get (path.drop offset) = reached.get (path.drop consumed) := by
  induction steps generalizing tree offset with
  | nil =>
    cases checked
    exact ⟨tree,recomputed,fits,rfl⟩
  | cons step rest ih =>
    have node := (root_eq_digest injective).mp recomputed
    cases step with
    | branch sibling right =>
      obtain ⟨below,turn,others⟩ := (checked_branch brief).mp checked
      obtain ⟨one,two,rfl,child⟩ : ∃ one two, tree = .fork [] one two ∧
          recomputeRoot hasher rest terminal = hasher.root (BitTree.side right one two) := by
        cases right with
        | false =>
          obtain ⟨one,two,whole,first,_⟩ := top_branch node
          exact ⟨one,two,whole,first⟩
        | true =>
          obtain ⟨one,two,whole,_,second⟩ := top_branch node
          exact ⟨one,two,whole,second⟩
      have room : Fits (offset + 1) (BitTree.side right one two) := fits.side right
      obtain ⟨reached,last,fit,same⟩ := ih (by omega) room others child
      refine ⟨reached,last,fit,?_⟩
      rw [drop_at below,turn,← List.nil_append (_::_),BitTree.get_along,same]
    | extension prefixPath =>
      obtain ⟨stem,one,two,rfl,_,rfl,child⟩ := top_extension node
      have short := fits.short_stem
      obtain ⟨below,segment,others⟩ := (checked_extension brief inside).mp checked
      rw [length_ofBits (by omega)] at below segment others
      have along : (path.drop offset).take stem.length = stem := (ofBits_inj (by simp; omega) (by omega)).mp segment
      obtain ⟨reached,last,fit,same⟩ := ih below fits.below others child
      refine ⟨reached,last,fit,?_⟩
      rw [← List.take_append_drop stem.length (path.drop offset),along,BitTree.get_below,List.drop_drop,same]

theorem attested_reached (never : hasher.NeverZero) {terminal : ProofTerminal β} {reached : BitTree (List Byte)}
    (inside : consumed ≤ path.length) (fits : Fits consumed reached)
    (attested : terminal.attested hasher (ofBits path) consumed = .ok (digest,outcome))
    (same : digest = hasher.root reached) : outcome = ProofOutcome.of hasher (reached.get (path.drop consumed)) := by
  have short : (path.drop consumed).length < 2 ^ 32 := by rw [List.length_drop]; omega
  cases terminal with
  | empty =>
    cases attested
    exact absurd same.symm (root_nonzero never)
  | leaf keySuffix valueHash =>
    rw [ProofTerminal.attested,suffix_ofBits brief inside] at attested
    cases attested
    have node := (root_eq_digest injective).mp same
    cases reached with
    | fork stem one two =>
      rw [Hasher.top] at node
      split at node <;> cases node
    | leaf suffix value =>
      have whole := fits suffix value (BitTree.get_leaf.mpr ⟨rfl,rfl⟩)
      cases node
      have paths : ofBits suffix = ofBits (path.drop consumed) ↔ path.drop consumed = suffix := by
        rw [ofBits_inj (by omega) short,eq_comm]
      simp only [paths,BitTree.get]
      split <;> rfl
  | divergentExtension prefixPath childHash =>
    rw [ProofTerminal.attested,suffix_ofBits brief inside] at attested
    simp only [guarded,extensionMatches_ofBits short,Except.mapError,ok_bind,bind_ok,ensure_ok,decide_eq_false_iff_not,
      pure_ok,Prod.mk.injEq,exists_const] at attested
    obtain ⟨apart,rfl,rfl⟩ := attested
    obtain ⟨stem,one,two,rfl,_,rfl,_⟩ := top_extension ((root_eq_digest injective).mp same)
    have room := fits.short_stem
    have off : ¬stem <+: path.drop consumed := fun begins => apart (by
      rw [length_ofBits (by omega)]
      exact ⟨begins.length_le,by rw [← List.prefix_iff_eq_take.mp begins]⟩)
    rw [BitTree.get_off off]
    rfl
end

theorem verify_sound (injective : hasher.Injective) (never : hasher.NeverZero) {map : StateMap}
    (fits : AllFit map) (fit : KeyFits key) {proof : Proof β}
    (verified : proof.verify hasher (hasher.rootOf (canonicalTree map)) key = .ok outcome) :
    outcome = ProofOutcome.of hasher map[key]? := by
  obtain ⟨consumed,terminal,checked,attested,recomputed⟩ := (verify_ok fit).mp verified
  have inside := checked_within fit.short (by omega) checked
  rw [← lookup_key fits fit]
  cases whole : canonicalTree map with
  | some tree =>
    rw [whole] at recomputed
    obtain ⟨reached,same,room,read⟩ := steps_reach injective fit.short (by omega) (fits_tree fits whole) checked recomputed
    rw [attested_reached injective fit.short never inside room attested same,← read]
    rfl
  | none =>
    -- The empty root is no node's digest, so there are no steps and no terminal node.
    rw [whole] at recomputed
    obtain ⟨steps,last⟩ := proof
    cases steps with
    | cons step rest => exact absurd recomputed (never _)
    | nil =>
      cases last with
      | empty =>
        cases attested
        rfl
      | leaf keySuffix valueHash =>
        rw [ProofTerminal.attested,suffix_ofBits fit.short inside] at attested
        cases attested
        exact absurd recomputed (never _)
      | divergentExtension prefixPath childHash =>
        simp only [ProofTerminal.attested,bind_ok,pure_ok,Prod.mk.injEq] at attested
        obtain ⟨_,_,_,_,_,_,rfl,_⟩ := attested
        exact absurd recomputed (never _)

section
variable {hasher : Hasher β} (never : hasher.NeverZero) {trie : Trie β} {path : List Bool} (brief : path.length < 2 ^ 32)
include never brief

-- A walk's steps below a stored tree recompute its root from the terminal.
def Proves (hasher : Hasher β) (trie : Trie β) (path : List Bool) (tree : BitTree (List Byte)) : Prop :=
  ∀ (budget offset : Nat) (steps : List (ProofStep β)), trie.Holds hasher tree → Fits offset tree →
    offset ≤ path.length → path.length - offset < budget → tree.Admits (path.drop offset) →
    ∃ more terminal consumed digest outcome,
      trie.proveFrom (ofBits path) budget (hasher.root tree) offset steps = .ok ⟨steps ++ more,terminal⟩ ∧
      checkStepBits (ofBits path) more offset = .ok consumed ∧
      terminal.attested hasher (ofBits path) consumed = .ok (digest,outcome) ∧
      recomputeRoot hasher more digest = hasher.root tree

theorem proveFrom_branch (onLeft : Proves hasher trie path left)
    (onRight : Proves hasher trie path right) : Proves hasher trie path (.fork [] left right) := by
  intro budget offset steps holds fits inside enough free
  obtain ⟨budget,rfl⟩ : ∃ less, budget = less + 1 := ⟨budget - 1,by omega⟩
  rw [Trie.proveFrom,if_neg (root_nonzero never),fetch_branch holds,ok_bind]
  simp only [length_ofBits brief]
  by_cases ended : path.length ≤ offset
  · rw [List.drop_eq_nil_of_le ended] at free
    exact absurd free BitTree.not_admits_stem
  · have below : offset < path.length := by omega
    rw [drop_at below] at free
    rw [if_neg ended,bit_ofBits brief below,ok_bind,root_side]
    generalize turn : path.getD offset false = bit at free
    have inner : Proves hasher trie path (BitTree.side bit left right) := BitTree.side_induction onLeft onRight bit
    obtain ⟨more,terminal,consumed,digest,outcome,run,checked,attested,recomputed⟩ :=
      inner budget (offset + 1) (steps ++ [.branch (if bit then hasher.root left else hasher.root right) bit])
        (holds_side holds bit) (fits.side bit) (by omega) (by omega) (BitTree.Admits.along free)
    refine ⟨.branch (if bit then hasher.root left else hasher.root right) bit::more,terminal,consumed,digest,outcome,?_,
      (checked_branch brief).mpr ⟨below,turn,checked⟩,attested,?_⟩
    · rw [run,List.append_assoc]
      rfl
    · rw [recomputeRoot,List.foldr_cons,← recomputeRoot,recomputed]
      cases bit <;> rfl

theorem proveFrom_holds (tree : BitTree (List Byte)) : Proves hasher trie path tree := by
  induction tree with
  | leaf suffix value =>
    intro budget offset steps holds fits inside enough free
    obtain ⟨budget,rfl⟩ : ∃ less, budget = less + 1 := ⟨budget - 1,by omega⟩
    have whole := fits suffix value (BitTree.get_leaf.mpr ⟨rfl,rfl⟩)
    rw [Trie.proveFrom,if_neg (root_nonzero never),fetch_leaf holds (by omega),ok_bind]
    refine ⟨[],.leaf (ofBits suffix) (hasher.hashValue value),offset,hasher.root (.leaf suffix value),
      if ofBits suffix = ofBits (path.drop offset) then .included (hasher.hashValue value) else .excluded,
      by rw [List.append_nil]; rfl,rfl,?_,rfl⟩
    rw [ProofTerminal.attested,suffix_ofBits brief inside]
    rfl
  | fork stem left right onLeft onRight =>
    have branch := proveFrom_branch never brief onLeft onRight
    by_cases none : stem = []
    · subst none
      exact branch
    intro budget offset steps holds fits inside enough free
    obtain ⟨budget,rfl⟩ : ∃ less, budget = less + 1 := ⟨budget - 1,by omega⟩
    have short := fits.short_stem
    have long : 0 < stem.length := by rwa [List.length_pos_iff]
    have room : (path.drop offset).length < 2 ^ 32 := by rw [List.length_drop]; omega
    have fit : stem.length < 2 ^ 32 := by omega
    rw [Trie.proveFrom,if_neg (root_nonzero never),fetch_extension holds none fit,ok_bind]
    simp only [length_ofBits fit]
    rw [suffix_ofBits brief inside,ok_bind,BitPath.commonPrefixLen_ofBits fit room,ok_bind]
    by_cases along : stem <+: path.drop offset
    · obtain ⟨rest,split⟩ := along
      obtain ⟨after,size⟩ := drop_stem split inside
      rw [← split,← after] at free
      obtain ⟨more,terminal,consumed,digest,outcome,run,checked,attested,recomputed⟩ :=
        branch budget (offset + stem.length) (steps ++ [.extension (ofBits stem)]) (holds_below holds) fits.below
          (by omega) (by omega) free.below
      refine ⟨.extension (ofBits stem)::more,terminal,consumed,digest,outcome,?_,?_,attested,?_⟩
      · rw [← split,diverge_along,if_pos rfl,Trie.advance,ensure_pos (by omega),ok_bind]
        rw [List.append_assoc] at run
        exact run
      · refine (checked_extension brief inside).mpr ?_
        rw [length_ofBits fit,← split,List.take_left]
        exact ⟨by omega,rfl,checked⟩
      · rw [recomputeRoot,List.foldr_cons,← recomputeRoot,recomputed]
        simp only [ProofStep.node,Hasher.root,Hasher.stemmed,if_neg none,if_true]
    · rw [if_neg (diverge_off along).ne]
      refine ⟨[],.divergentExtension (ofBits stem) (hasher.root (.fork [] left right)),offset,
        hasher.root (.fork stem left right),.excluded,by rw [List.append_nil]; rfl,rfl,?_,rfl⟩
      have off : ¬(stem.length ≤ (path.drop offset).length ∧
          ofBits ((path.drop offset).take stem.length) = ofBits stem) := by
        rintro ⟨size,same⟩
        rw [ofBits_inj (by rw [List.length_take]; omega) fit] at same
        exact along (List.prefix_iff_eq_take.mpr same.symm)
      rw [ProofTerminal.attested,suffix_ofBits brief inside]
      simp only [guarded,Except.mapError,ok_bind,extensionMatches_ofBits room,length_ofBits fit,off,decide_false,
        ensure_pos,Hasher.root,Hasher.stemmed,if_neg none,if_true]
      rfl
end
section
variable {hasher : Hasher β} {trie : Trie β} {map : StateMap} {key : List Byte}

theorem proveFrom_accepted (never : hasher.NeverZero) (represents : Represents hasher trie map) (fit : KeyFits key)
    {budget : Nat} (enough : (keyBits key).length < budget) :
    ∃ proof outcome, trie.proveFrom (ofBits (keyBits key)) budget trie.root 0 [] = .ok proof ∧
      proof.verify hasher trie.root key = .ok outcome := by
  obtain ⟨fits,root,held⟩ := represents
  rw [root]
  cases whole : canonicalTree map with
  | none =>
    obtain ⟨budget,rfl⟩ : ∃ less, budget = less + 1 := ⟨budget - 1,by omega⟩
    refine ⟨⟨[],.empty⟩,.excluded,?_,(verify_ok fit).mpr ⟨0,zeroHash,rfl,rfl,rfl⟩⟩
    rw [Trie.proveFrom,Hasher.rootOf,Option.elim_none,if_pos rfl]
    rfl
  | some tree =>
    rw [whole] at held
    obtain ⟨steps,terminal,consumed,digest,outcome,run,checked,attested,recomputed⟩ :=
      proveFrom_holds never fit.short tree budget 0 [] (held tree rfl) (fits_tree fits whole) (by omega) (by omega)
        (admits_key fits fit whole)
    exact ⟨⟨steps,terminal⟩,outcome,run,(verify_ok fit).mpr ⟨consumed,digest,checked,attested,recomputed⟩⟩

-- The trie's own proof of a key says what the map says, and no other proof gets a
-- different answer accepted or makes the verifier panic.
theorem merkle_proofs_exact (injective : hasher.Injective) (never : hasher.NeverZero)
    (represents : Represents hasher trie map) (fit : KeyFits key) : (∃ proof, trie.prove key = .ok proof ∧
      proof.verify hasher trie.root key = .ok (ProofOutcome.of hasher map[key]?)) ∧ ∀ proof : Proof β,
      (∀ valueHash, proof.verify hasher trie.root key = .ok (.included valueHash) →
        ∃ value, map[key]? = some value ∧ hasher.hashValue value = valueHash) ∧
      (proof.verify hasher trie.root key = .ok .excluded → map[key]? = none) ∧
      ∀ root reason, proof.verify hasher root key ≠ .error (.fault reason) := by
  have sound {proof : Proof β} {outcome : ProofOutcome β} (verified : proof.verify hasher trie.root key = .ok outcome) :
      outcome = ProofOutcome.of hasher map[key]? := by
    rw [represents.root] at verified
    exact verify_sound injective never represents.fits fit verified
  obtain ⟨proof,outcome,proved,accepted⟩ := proveFrom_accepted never represents fit (budget_enough trie fit)
  rw [Trie.prove,forKey_ofBits fit,ok_bind]
  refine ⟨⟨proof,proved,by rw [accepted,sound accepted]⟩,fun proof => ⟨fun valueHash verified => ?_,fun verified => ?_,
    fun root => verify_unfaulted hasher proof root fit⟩⟩
  · have known := sound verified
    cases found : map[key]? with
    | none =>
      rw [found] at known
      cases known
    | some value =>
      rw [found] at known
      cases known
      exact ⟨value,rfl,rfl⟩
  · have known := sound verified
    cases found : map[key]? with
    | none => rfl
    | some value =>
      rw [found] at known
      cases known
end

def pairCalls : List Call := [.insert [0] [1],.insert [1] [2]]

theorem pair_proofs_exact : ∃ trie : Trie Symbol, Represents spelledHasher trie (StateMap.calls ∅ pairCalls).1 ∧
      (∃ proof, trie.prove [1] = .ok proof ∧ proof.verify spelledHasher trie.root [1] = .ok (.included (spelledHasher.hashValue [2]))) ∧
      (∃ proof, trie.prove [2] = .ok proof ∧ proof.verify spelledHasher trie.root [2] = .ok .excluded) ∧
      ∀ proof : Proof Symbol, proof.verify spelledHasher trie.root [1] ≠ .ok .excluded ∧
        ∀ valueHash, proof.verify spelledHasher trie.root [2] ≠ .ok (.included valueHash) := by
  have fit : ∀ call ∈ pairCalls, KeyFits call.key := by decide
  obtain ⟨trie,_,represents⟩ := calls_represent spelledHasher_injective spelledHasher_neverZero fit (new_represents _)
  have present : (StateMap.calls ∅ pairCalls).1[([1] : List Byte)]? = some [2] := by decide +kernel
  have absent : (StateMap.calls ∅ pairCalls).1[([2] : List Byte)]? = none := by decide +kernel
  have one := (merkle_proofs_exact spelledHasher_injective spelledHasher_neverZero represents
    (show KeyFits [1] by decide))
  have two := (merkle_proofs_exact spelledHasher_injective spelledHasher_neverZero represents
    (show KeyFits [2] by decide))
  rw [present] at one
  rw [absent] at two
  refine ⟨trie,represents,one.1,two.1,fun proof => ⟨fun excluded => ?_,fun valueHash included => ?_⟩⟩
  · cases (one.2 proof).2.1 excluded
  · obtain ⟨_,found,-⟩ := (two.2 proof).1 valueHash included
    cases found
end Neutrino.StateTrie
