import Neutrino.Library.Queries
import Neutrino.Consensus.Finality
import Neutrino.Chain.Checkpoint

-- Cryptographic requests and the verifiers that answer them (prover-chunk, bls.rs and facts.rs).
namespace Neutrino.Proving
open Checks Consensus Chain Queries

inductive HistoryError where
  | anchor
  | evidence
  | unsupported
deriving DecidableEq

-- The signed bytes: a consensus message, a VRF input, a publication or a key itself.
inductive FactMessage (Hash Key Sig : Type) where
  | consensus (message : SigningMessage Hash Sig)
  | vrf (domain : ConsensusDomain Hash) (seed : Hash) (slot : Nat)
  | daPublication (domain : ConsensusDomain Hash) (headerHash bundleHash : Hash)
  | key (key : Key)
deriving DecidableEq

structure BlockProofPublicInputs (Hash : Type) where
  chainId : Nat
  height : Nat
  parentBlockHash : Hash
  blockHash : Hash
  stateRootBefore : Hash
  stateRootAfter : Hash
  transactionsRoot : Hash
  receiptRoot : Hash
  daRoot : Hash
  vmCodeHash : Hash
  blockProgram : VkDigest
  gasUsed : Nat
  gasLimit : Nat
  proposerAddress : Hash
  runtimeExtra : Hash
deriving DecidableEq

structure BlockProof (Hash : Type) where
  height : Nat
  blockHash : Hash
  publicInputs : BlockProofPublicInputs Hash
  proofBytes : List UInt8
deriving DecidableEq

inductive SignatureRequest (Hash Key Sig : Type) where
  | signature (key : Key) (message : FactMessage Hash Key Sig) (signature : Sig) (possession : Bool)
  | aggregate (keys : List Key) (message : FactMessage Hash Key Sig) (signature : Sig)
deriving DecidableEq

-- What the EvidenceVerifier trait may be asked: a block receipt besides.
inductive FactRequest (Hash Key Sig : Type) where
  | signed (request : SignatureRequest Hash Key Sig)
  | block (key : VkDigest) (proof : BlockProof Hash)
deriving DecidableEq

abbrev Verdict {Hash Key Sig : Type} : SignatureRequest Hash Key Sig → Type := fun _ => Bool

abbrev EvidenceVerdict {Hash Key Sig : Type} : FactRequest Hash Key Sig → Type
  | .signed _ => Bool
  | .block _ _ => Except HistoryError Bool

inductive CipherSuite where
  | signature
  | possession
deriving DecidableEq

structure Equation (Hash Key Sig Point : Type) where
  key : Point
  message : FactMessage Hash Key Sig
  signature : Sig
  dst : CipherSuite
deriving DecidableEq

structure Suite (Hash Key Sig Point : Type) where
  -- Checked decompression of a key that is not the identity.
  publicKey : Key → Option Point
  -- Sum of checked keys, unless it is the identity.
  sum : List Point → Option Point
  -- Checked decompression of a signature that is not the identity.
  admits : Sig → Bool
  verifyCheckedPoints : Equation Hash Key Sig Point → Bool
  -- One pairing product for several weighted equations.
  verifyWeighted : List (Equation Hash Key Sig Point) → Bool
  blockIsValid : VkDigest → BlockProof Hash → Except HistoryError Bool

variable {Hash Key Sig Point : Type}

def Suite.BatchSound (suite : Suite Hash Key Sig Point) : Prop :=
  ∀ equations, suite.verifyWeighted equations = equations.all suite.verifyCheckedPoints

section
variable (suite : Suite Hash Key Sig Point)

def Suite.verifyPoint (point : Point) (message : FactMessage Hash Key Sig) (signature : Sig) (dst : CipherSuite) : Bool :=
  suite.admits signature && suite.verifyCheckedPoints ⟨point,message,signature,dst⟩

-- The point of an aggregate: none for no keys, an unusable key or the identity.
def Suite.aggregatePoint (keys : List Key) : Option Point :=
  if keys.isEmpty then none else (keys.mapM suite.publicKey).bind suite.sum

variable [DecidableEq Hash] [DecidableEq Key] [DecidableEq Sig]

def Suite.direct : SignatureRequest Hash Key Sig → Bool
  | .signature key message signature possession =>
    if possession then
      decide (message = .key key) && (suite.publicKey key).any fun point => suite.verifyPoint point (.key key) signature .possession
    else (suite.publicKey key).any fun point => suite.verifyPoint point message signature .signature
  | .aggregate keys message signature =>
    (suite.aggregatePoint keys).any fun point => suite.verifyPoint point message signature .signature

def Suite.verdict : FactRequest Hash Key Sig → Except HistoryError Bool
  | .signed request => .ok (suite.direct request)
  | .block key proof => suite.blockIsValid key proof

-- Direct answers for evidence: a block is rejected when its receipt is not valid.
def Suite.answers : (request : FactRequest Hash Key Sig) → EvidenceVerdict request
  | .signed request => suite.direct request
  | .block key proof => (suite.blockIsValid key proof).map (!·)
end
section
variable [DecidableEq Hash] [DecidableEq Key] [DecidableEq Sig] [DecidableEq Point]

-- Deferred positive obligations. An equation is known by its own content.
structure BatchVerifier (Hash Key Sig Point : Type) where
  equations : List (Equation Hash Key Sig Point)
  seen : List (Equation Hash Key Sig Point)
  failed : Bool

def BatchVerifier.empty : BatchVerifier Hash Key Sig Point := ⟨[],[],false⟩
def maxPendingEquations : Nat := 64

variable (suite : Suite Hash Key Sig Point) (batch : BatchVerifier Hash Key Sig Point)

def BatchVerifier.flush : BatchVerifier Hash Key Sig Point :=
  if batch.equations.isEmpty || batch.failed then batch
  else match batch.equations with
    | [equation] => {batch with equations := [], failed := !suite.verifyCheckedPoints equation}
    | equations => {batch with equations := [], failed := !suite.verifyWeighted equations}

def BatchVerifier.push (key : Option Point) (message : FactMessage Hash Key Sig)
    (signature : Sig) (dst : CipherSuite) : Bool × BatchVerifier Hash Key Sig Point :=
  match key with
  | none => (false,{batch with failed := true})
  | some point =>
    if ⟨point,message,signature,dst⟩ ∈ batch.seen then (!batch.failed,batch)
    else
      let noted := {batch with seen := ⟨point,message,signature,dst⟩::batch.seen}
      if suite.admits signature then
        let pending := {noted with equations := noted.equations ++ [⟨point,message,signature,dst⟩]}
        let settled := if pending.equations.length = maxPendingEquations then pending.flush suite else pending
        (!settled.failed,settled)
      else (false,{noted with failed := true})

def BatchVerifier.verify : SignatureRequest Hash Key Sig → Bool × BatchVerifier Hash Key Sig Point
  | .signature key message signature possession =>
    if possession then
      -- The message is compared before the batch is touched.
      if message = .key key then batch.push suite (suite.publicKey key) (.key key) signature .possession else (false,batch)
    else batch.push suite (suite.publicKey key) message signature .signature
  | .aggregate keys message signature => batch.push suite (suite.aggregatePoint keys) message signature .signature

def BatchVerifier.finish : Bool := !(batch.flush suite).failed
end
section
structure ProvenFact (Hash : Type) where
  id : Hash
  valid : Bool
deriving DecidableEq

abbrev FactStatement (Hash : Type) := List (ProvenFact Hash)
def maxFacts : Nat := 64

variable [DecidableEq Hash] [DecidableEq Key] [DecidableEq Sig] [DecidableEq Point]

-- Insertion into the verdict table; a second verdict must repeat the first.
def insertFact (facts : List (Hash × Bool)) (fact : ProvenFact Hash) : Except HistoryError (List (Hash × Bool)) := do
  ensure ((facts.lookup fact.id).all (· = fact.valid) = true) .evidence
  pure ((fact.id,fact.valid)::facts)

def insertStatement (facts : List (Hash × Bool)) (statement : FactStatement Hash) : Except HistoryError (List (Hash × Bool)) := do
  ensure (statement ≠ [] ∧ statement.length ≤ maxFacts) .evidence
  statement.foldlM insertFact facts

def readFacts (statements : List (FactStatement Hash)) : Except HistoryError (List (Hash × Bool)) := statements.foldlM insertStatement []

structure FactReader (Hash : Type) where
  facts : List (Hash × Bool)
  missing : Bool

def FactReader.new (statements : List (FactStatement Hash)) : Except HistoryError (FactReader Hash) := do
  let facts ← readFacts statements
  pure ⟨facts,false⟩

variable (id : FactRequest Hash Key Sig → Hash)

def FactReader.checkFact (reader : FactReader Hash) (request : FactRequest Hash Key Sig) : Bool × FactReader Hash :=
  match reader.facts.lookup (id request) with
  | some valid => (valid,reader)
  | none => (false,{reader with missing := true})

def FactReader.respond (reader : FactReader Hash) : (request : FactRequest Hash Key Sig) → EvidenceVerdict request × FactReader Hash
  | .signed request => reader.checkFact id (.signed request)
  | .block key proof =>
    let (valid,next) := reader.checkFact id (.block key proof)
    (if next.missing then .error .unsupported else .ok (!valid),next)

variable (suite : Suite Hash Key Sig Point)

-- Verdicts found on the host, each with the request it is about.
structure FactRecorder (Hash Key Sig : Type) where
  requests : List (Hash × FactRequest Hash Key Sig × Bool)
  known : List (Hash × Bool)
  failed : Bool

def FactRecorder.withVerified (known : List (Hash × Bool)) : FactRecorder Hash Key Sig := ⟨[],known,false⟩

section
variable (recorder : FactRecorder Hash Key Sig)

def FactRecorder.verdict (request : FactRequest Hash Key Sig) : Bool × FactRecorder Hash Key Sig :=
  match (recorder.known.lookup (id request)).or ((recorder.requests.lookup (id request)).map (·.2)) with
  | some value => (value,recorder)
  | none => match suite.verdict request with
    | .ok value => (value,recorder)
    -- An undecided request is never a verdict; the whole recording is void.
    | .error _ => (false,{recorder with failed := true})

def FactRecorder.checkFact (request : FactRequest Hash Key Sig) : Bool × FactRecorder Hash Key Sig :=
  let (valid,next) := recorder.verdict id suite request
  if (next.requests.lookup (id request)).isSome then (valid,next)
  else (valid,{next with requests := (id request,request,valid)::next.requests})

def FactRecorder.respond : (request : FactRequest Hash Key Sig) → EvidenceVerdict request × FactRecorder Hash Key Sig
  | .signed request => recorder.checkFact id suite (.signed request)
  | .block key proof =>
    let (valid,next) := recorder.checkFact id suite (.block key proof)
    (if next.failed then .error .unsupported else .ok (!valid),next)

def FactRecorder.finish : Except HistoryError (List (FactRequest Hash Key Sig × Bool)) := do
  ensure (recorder.failed = false) .unsupported
  pure (recorder.requests.map (·.2))
end

structure HybridVerifier (Hash Key Sig Point : Type) where
  facts : List (Hash × Bool)
  batch : BatchVerifier Hash Key Sig Point
  hits : Nat
  misses : Nat

def HybridVerifier.new (statements : List (FactStatement Hash)) : Except HistoryError (HybridVerifier Hash Key Sig Point) := do
  let reader ← FactReader.new statements
  pure ⟨reader.facts,.empty,0,0⟩

def HybridVerifier.respond (hybrid : HybridVerifier Hash Key Sig Point) (request : SignatureRequest Hash Key Sig) :
    Bool × HybridVerifier Hash Key Sig Point :=
  match hybrid.facts.lookup (id (.signed request)) with
  | some valid => (valid,{hybrid with hits := hybrid.hits + 1})
  | none =>
    let (valid,batch) := hybrid.batch.verify suite request
    (valid,{hybrid with batch := batch, misses := hybrid.misses + 1})

def HybridVerifier.finish (hybrid : HybridVerifier Hash Key Sig Point) : Bool := hybrid.batch.finish suite
end
variable [DecidableEq Hash] [DecidableEq Key] [DecidableEq Sig] [DecidableEq Point]
variable (suite : Suite Hash Key Sig Point) (id : FactRequest Hash Key Sig → Hash)

-- Every verdict in the table is the one its request deserves.
def Truthful (facts : List (Hash × Bool)) : Prop := ∀ entry ∈ facts, ∃ request, id request = entry.1 ∧ suite.verdict request = .ok entry.2

def TruthfulStatements (statements : List (FactStatement Hash)) : Prop :=
  ∀ statement ∈ statements, ∀ fact ∈ statement, ∃ request, id request = fact.id ∧ suite.verdict request = .ok fact.valid
end Neutrino.Proving
