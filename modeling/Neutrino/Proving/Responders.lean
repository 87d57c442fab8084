import Neutrino.Proving.Requests

-- What each verifier guarantees: a reader that missed nothing, a recorder that did not
-- fail and a hybrid whose batch settles answer as direct verification would.
namespace Neutrino.Proving
open Checks Consensus Chain Queries Query
open FactReader (respond checkFact)
variable {Hash Key Sig Point : Type} [DecidableEq Hash] [DecidableEq Key] [DecidableEq Sig] [DecidableEq Point]
variable {suite : Suite Hash Key Sig Point} {id : FactRequest Hash Key Sig → Hash}

theorem lookup_mem {entries : List (Hash × α)} (found : entries.lookup key = some value) : (key,value) ∈ entries := by
  obtain ⟨before,after,rfl,_⟩ := List.lookup_eq_some_iff.mp found
  simp

theorem lookup_of_mem {entries : List (Hash × α)} (listed : (key,value) ∈ entries) : (entries.lookup key).isSome := by
  rw [List.lookup_isSome_iff]
  exact ⟨_,listed,by simp⟩

section
variable (distinct : Function.Injective id)
include distinct in
theorem Truthful.lookup (truthful : Truthful suite id facts) (found : facts.lookup (id request) = some valid) :
    suite.verdict request = .ok valid := by
  obtain ⟨other,same,right⟩ := truthful _ (lookup_mem found)
  rw [← distinct same]
  exact right

theorem insert_facts {statement : FactStatement Hash} {read : List (Hash × Bool)} (done : statement.foldlM insertFact facts = .ok read)
    (entry : Hash × Bool) : entry ∈ read ↔ entry ∈ facts ∨ ∃ fact ∈ statement, entry = (fact.id,fact.valid) := by
  have each (before : List (Hash × Bool)) (fact : ProvenFact Hash) (after : List (Hash × Bool)) (inserted : insertFact before fact = .ok after)
      (entry : Hash × Bool) : entry ∈ after ↔ entry ∈ before ∨ entry = (fact.id,fact.valid) := by
    simp only [insertFact,bind_ok,ensure_ok,pure_ok] at inserted
    obtain ⟨_,_,rfl⟩ := inserted
    rw [List.mem_cons,or_comm]
  exact foldlM_mem each done entry

variable {statements : List (FactStatement Hash)}

theorem insert_statements {read : List (Hash × Bool)} (done : statements.foldlM insertStatement facts = .ok read) (entry : Hash × Bool) :
    entry ∈ read ↔ entry ∈ facts ∨ ∃ statement ∈ statements, ∃ fact ∈ statement, entry = (fact.id,fact.valid) := by
  have each (before : List (Hash × Bool)) (statement : FactStatement Hash) (after : List (Hash × Bool))
      (inserted : insertStatement before statement = .ok after) (entry : Hash × Bool) :
      entry ∈ after ↔ entry ∈ before ∨ ∃ fact ∈ statement, entry = (fact.id,fact.valid) := by
    simp only [insertStatement,bind_ok,ensure_ok] at inserted
    obtain ⟨_,_,inserted⟩ := inserted
    exact insert_facts inserted entry
  exact foldlM_mem each done entry

theorem read_truthful (truthful : TruthfulStatements suite id statements) (read : readFacts statements = .ok facts) :
    Truthful suite id facts := by
  intro entry listed
  rcases (insert_statements read entry).mp listed with nothing | ⟨statement,member,fact,stated,rfl⟩
  · cases nothing
  · exact truthful statement member fact stated

def Packed (statements : List (FactStatement Hash)) : Prop := ∀ statement ∈ statements, statement ≠ [] ∧ statement.length ≤ maxFacts

include distinct

theorem truthful_insert {statement : FactStatement Hash} (sound : Truthful suite id facts)
    (truthful : ∀ fact ∈ statement, ∃ request, id request = fact.id ∧ suite.verdict request = .ok fact.valid) :
    ∃ read, statement.foldlM insertFact facts = .ok read ∧ Truthful suite id read := by
  induction statement generalizing facts with
  | nil => exact ⟨facts,rfl,sound⟩
  | cons fact rest ih =>
    obtain ⟨request,named,right⟩ := truthful fact (by simp)
    have agrees : (facts.lookup fact.id).all (· = fact.valid) = true := by
      cases found : facts.lookup fact.id with
      | none => rfl
      | some value =>
        have stored := sound.lookup distinct (named ▸ found)
        simp [Except.ok.inj (stored.symm.trans right)]
    have grown : Truthful suite id ((fact.id,fact.valid)::facts) := List.forall_mem_cons.mpr ⟨⟨request,named,right⟩,sound⟩
    obtain ⟨read,done,onward⟩ := ih grown fun other listed => truthful other (by simp [listed])
    refine ⟨read,?_,onward⟩
    rw [List.foldlM_cons,insertFact,ensure_pos agrees]
    exact done

theorem truthful_read (truthful : TruthfulStatements suite id statements)
    (packed : Packed statements) : ∃ facts, readFacts statements = .ok facts := by
  suffices every : ∀ facts, Truthful suite id facts → ∃ read, statements.foldlM insertStatement facts = .ok read from
    every [] (by intro entry listed; cases listed)
  induction statements with
  | nil => exact fun facts _ => ⟨facts,rfl⟩
  | cons statement rest ih =>
    intro facts sound
    obtain ⟨middle,first,onward⟩ := truthful_insert distinct sound (truthful statement (by simp))
    obtain ⟨read,later⟩ := ih (fun other listed => truthful other (by simp [listed]))
      (fun other listed => packed other (by simp [listed])) middle onward
    refine ⟨read,?_⟩
    rw [List.foldlM_cons,insertStatement,ensure_pos (packed statement (by simp)),ok_bind,first]
    exact later
end
section
variable (distinct : Function.Injective id)
include distinct

theorem reader_vouches (reader : FactReader Hash) (request : FactRequest Hash Key Sig)
    (truthful : Truthful suite id reader.facts) (clean : (reader.respond id request).2.missing = false) :
    reader.missing = false ∧ (reader.respond id request).1 = suite.answers request := by
  cases found : reader.facts.lookup (id request) with
  | none => cases request <;> simp [respond,checkFact,found] at clean
  | some valid =>
    have right := truthful.lookup distinct found
    cases request with
    | signed request =>
      simp only [respond,checkFact,found] at clean ⊢
      exact ⟨clean,(Except.ok.inj right).symm⟩
    | block key proof =>
      simp only [respond,checkFact,found] at clean ⊢
      refine ⟨clean,?_⟩
      rw [clean]
      exact (congrArg (Except.map (!·)) right).symm

omit distinct in
theorem reader_keeps (reader : FactReader Hash) (request : FactRequest Hash Key Sig) :
    (reader.respond id request).2.facts = reader.facts := by
  cases found : reader.facts.lookup (id request) <;> cases request <;> simp [respond,checkFact,found]

theorem reader_trusted {ε α : Type} {program : Query (EvidenceVerdict : FactRequest Hash Key Sig → Type) ε α}
    (truthful : Truthful suite id reader.facts) (clean : (program.run (respond id) reader).2.missing = false) :
    (program.run (respond id) reader).1 = program.eval suite.answers :=
  (run_trusted (fun reader => Truthful suite id reader.facts) (fun reader => reader.missing = false)
    (fun reader request holds => by rw [reader_keeps]; exact holds)
    (fun reader request holds clean => reader_vouches distinct reader request holds clean) truthful clean).2

theorem reader_complete {ε α : Type} {program : Query (EvidenceVerdict : FactRequest Hash Key Sig → Type) ε α}
    (truthful : Truthful suite id facts) (covered : ∀ request ∈ program.asked suite.answers, (facts.lookup (id request)).isSome) :
    (program.run (respond id) ⟨facts,false⟩).2.missing = false ∧
      (program.run (respond id) ⟨facts,false⟩).1 = program.eval suite.answers := by
  suffices followed : ((program.run (respond id) ⟨facts,false⟩).2.facts = facts ∧
      (program.run (respond id) ⟨facts,false⟩).2.missing = false) ∧
        (program.run (respond id) ⟨facts,false⟩).1 = program.eval suite.answers from
    ⟨followed.1.2,followed.2⟩
  refine run_complete (fun reader : FactReader Hash => reader.facts = facts ∧ reader.missing = false)
    (fun request => (facts.lookup (id request)).isSome) (fun reader request ⟨same,clean⟩ known => ?_) ⟨rfl,rfl⟩ covered
  · have found : (reader.facts.lookup (id request)).isSome := same ▸ known
    obtain ⟨valid,found⟩ := Option.isSome_iff_exists.mp found
    have still : (reader.respond id request).2.missing = false := by
      cases request <;> simp [respond,checkFact,found,clean]
    exact ⟨⟨(reader_keeps reader request).trans same,still⟩, (reader_vouches distinct reader request (same ▸ truthful) still).2⟩
end
section
-- Everything recorded is under its own id and, unless void, with its true verdict.
structure FactRecorder.Sound (suite : Suite Hash Key Sig Point) (id : FactRequest Hash Key Sig → Hash)
    (recorder : FactRecorder Hash Key Sig) : Prop where
  known : Truthful suite id recorder.known
  named : ∀ entry ∈ recorder.requests, entry.1 = id entry.2.1
  right : recorder.failed = false → ∀ entry ∈ recorder.requests, suite.verdict entry.2.1 = .ok entry.2.2

variable (distinct : Function.Injective id)
include distinct

section
variable (recorder : FactRecorder Hash Key Sig) (request : FactRequest Hash Key Sig) (sound : recorder.Sound suite id)
include recorder request sound

theorem recorder_verdict : ((recorder.verdict id suite request).2 = recorder ∧
        (recorder.failed = false → suite.verdict request = .ok (recorder.verdict id suite request).1)) ∨
      (recorder.verdict id suite request).2 = {recorder with failed := true} := by
  unfold FactRecorder.verdict
  cases found : (recorder.known.lookup (id request)).or ((recorder.requests.lookup (id request)).map (·.2)) with
  | none =>
    cases judged : suite.verdict request with
    | ok value => exact .inl ⟨rfl,fun _ => rfl⟩
    | error reason => exact .inr rfl
  | some value =>
    refine .inl ⟨rfl,fun clean => ?_⟩
    cases cached : recorder.known.lookup (id request) with
    | some stored =>
      rw [cached,Option.some_or] at found
      cases found
      exact sound.known.lookup distinct cached
    | none =>
      rw [cached,Option.none_or] at found
      obtain ⟨⟨other,stored⟩,listed,same⟩ := Option.map_eq_some_iff.mp found
      have member := lookup_mem listed
      have equal := distinct (sound.named _ member)
      cases same
      rw [equal]
      exact sound.right clean _ member

theorem recorder_check : ((recorder.checkFact id suite request).2.Sound suite id) ∧
      ((recorder.checkFact id suite request).2.failed = false →
        recorder.failed = false ∧ suite.verdict request = .ok (recorder.checkFact id suite request).1) ∧
      ((recorder.checkFact id suite request).2.requests.lookup (id request)).isSome ∧
      ∀ key, (recorder.requests.lookup key).isSome → ((recorder.checkFact id suite request).2.requests.lookup key).isSome := by
  unfold FactRecorder.checkFact
  generalize decided : recorder.verdict id suite request = answer
  obtain ⟨valid,next⟩ := answer
  have outcome := recorder_verdict distinct recorder request sound
  rw [decided] at outcome
  have table : next.requests = recorder.requests ∧ next.known = recorder.known := by
    rcases outcome with ⟨same,_⟩ | same <;> rw [show next = _ from same] <;> exact ⟨rfl,rfl⟩
  have judged : next.failed = false → recorder.failed = false ∧ suite.verdict request = .ok valid := by
    intro clean
    rcases outcome with ⟨same,right⟩ | same
    · rw [show next = recorder from same] at clean
      exact ⟨clean,right clean⟩
    · rw [show next = _ from same] at clean
      cases clean
  simp only
  split
  case isTrue noted =>
    refine ⟨⟨table.2 ▸ sound.known,table.1 ▸ sound.named,fun clean => ?_⟩,judged,noted,fun key held => table.1 ▸ held⟩
    rw [table.1]
    exact sound.right (judged clean).1
  case isFalse fresh =>
    refine ⟨⟨table.2 ▸ sound.known,fun entry listed => ?_,fun clean entry listed => ?_⟩,judged,by simp,fun key held => ?_⟩
    · rcases List.mem_cons.mp listed with rfl | old
      · rfl
      · exact sound.named entry (table.1 ▸ old)
    · rcases List.mem_cons.mp listed with rfl | old
      · exact (judged clean).2
      · exact sound.right (judged clean).1 entry (table.1 ▸ old)
    · rw [List.lookup_cons]
      split
      · rfl
      · exact table.1 ▸ held

theorem recorder_keeps : (recorder.respond id suite request).2.Sound suite id := by
  have kept := (recorder_check distinct recorder request sound).1
  cases request <;> exact kept

theorem recorder_vouches (clean : (recorder.respond id suite request).2.failed = false) :
    recorder.failed = false ∧ (recorder.respond id suite request).1 = suite.answers request := by
  have judged := (recorder_check distinct recorder request sound).2.1
  cases request with
  | signed request =>
    obtain ⟨before,right⟩ := judged clean
    exact ⟨before,(Except.ok.inj right).symm⟩
  | block key proof =>
    have still : (recorder.checkFact id suite (.block key proof)).2.failed = false := clean
    obtain ⟨before,right⟩ := judged still
    refine ⟨before,?_⟩
    simp only [FactRecorder.respond,still]
    exact (congrArg (Except.map (!·)) right).symm
end

theorem recorder_records {program : Query (EvidenceVerdict : FactRequest Hash Key Sig → Type) ε α}
    {recorder last : FactRecorder Hash Key Sig} {outcome : Except ε α} (sound : recorder.Sound suite id)
    (ran : program.run (FactRecorder.respond id suite) recorder = (outcome,last)) (clean : last.failed = false) :
    outcome = program.eval suite.answers ∧ last.Sound suite id ∧
      ∀ request ∈ program.asked suite.answers, ∃ valid, (request,valid) ∈ last.requests.map (·.2) := by
  have finalClean : (program.run (FactRecorder.respond id suite) recorder).2.failed = false := by rw [ran]; exact clean
  have trusted := run_trusted (FactRecorder.Sound suite id) (fun recorder => recorder.failed = false)
    (recorder_keeps distinct) (recorder_vouches distinct) sound finalClean
  have kept : (program.run (FactRecorder.respond id suite) recorder).2.Sound suite id :=
    run_invariant (FactRecorder.Sound suite id) (recorder_keeps distinct) sound
  have noted := (run_notes (FactRecorder.Sound suite id) (fun recorder => recorder.failed = false)
    (fun recorder request => (recorder.requests.lookup (id request)).isSome) (recorder_keeps distinct)
    (recorder_vouches distinct) (fun recorder request holds => ?_) (fun recorder request other holds held => ?_)
    sound finalClean).2
  · rw [ran] at trusted kept noted
    refine ⟨trusted.2,kept,fun request listed => ?_⟩
    obtain ⟨⟨other,valid⟩,found⟩ := Option.isSome_iff_exists.mp (noted request listed)
    have member := lookup_mem found
    obtain rfl : request = other := distinct (kept.named _ member)
    exact ⟨valid,List.mem_map.mpr ⟨_,member,rfl⟩⟩
  · have done := (recorder_check distinct recorder request holds).2.2.1
    cases request <;> exact done
  · have grown := (recorder_check distinct recorder request holds).2.2.2 _ held
    cases request <;> exact grown
end
section
-- Nothing has failed and everything still pending will pass.
structure BatchVerifier.Clean (suite : Suite Hash Key Sig Point) (batch : BatchVerifier Hash Key Sig Point) : Prop where
  passing : batch.failed = false
  pending : ∀ equation ∈ batch.equations, suite.verifyCheckedPoints equation = true

def BatchVerifier.Accounts (suite : Suite Hash Key Sig Point) (batch : BatchVerifier Hash Key Sig Point) : Prop :=
  batch.failed = false → ∀ equation ∈ batch.seen, suite.admits equation.signature = true ∧
    (equation ∈ batch.equations ∨ suite.verifyCheckedPoints equation = true)

variable (batched : suite.BatchSound)
include batched
variable {batch : BatchVerifier Hash Key Sig Point}

theorem flush_failed : (batch.flush suite).failed = (batch.failed || !batch.equations.all suite.verifyCheckedPoints) := by
  obtain ⟨equations,seen,failed⟩ := batch
  cases failed with
  | true => simp [BatchVerifier.flush]
  | false =>
    match equations with
    | [] => simp [BatchVerifier.flush]
    | [equation] => simp [BatchVerifier.flush]
    | first::second::rest => simp [BatchVerifier.flush,batched (first::second::rest)]

theorem flush_clean : (batch.flush suite).failed = false ↔ batch.Clean suite := by
  rw [flush_failed batched,Bool.or_eq_false_iff,Bool.not_eq_false',List.all_eq_true]
  exact ⟨fun ⟨passing,pending⟩ => ⟨passing,pending⟩,fun clean => ⟨clean.passing,clean.pending⟩⟩

omit batched in
theorem flush_pending (passed : (batch.flush suite).failed = false) :
    (batch.flush suite).equations = [] ∧ (batch.flush suite).seen = batch.seen := by
  obtain ⟨equations,seen,failed⟩ := batch
  cases failed with
  | true => simp [BatchVerifier.flush] at passed
  | false =>
    match equations with
    | [] => simp [BatchVerifier.flush]
    | [equation] => simp [BatchVerifier.flush]
    | first::second::rest => simp [BatchVerifier.flush]

theorem settle_at_limit (accounts : batch.Accounts suite) (full : Prop)
    [Decidable full] : (if full then batch.flush suite else batch).Accounts suite ∧
      ((if full then batch.flush suite else batch).Clean suite ↔ batch.Clean suite) := by
  by_cases reached : full
  case neg => simp only [if_neg reached,accounts,true_and]
  case pos =>
    simp only [if_pos reached]
    refine ⟨fun passed equation listed => ?_,fun clean => (flush_clean batched).mp clean.passing,fun clean => ?_⟩
    · obtain ⟨emptied,same⟩ := flush_pending passed
      have clean := (flush_clean batched).mp passed
      obtain ⟨admitted,held⟩ := accounts clean.passing equation (same ▸ listed)
      exact ⟨admitted,.inr (held.elim (clean.pending equation) fun verified => verified)⟩
    · have passed := (flush_clean batched).mpr clean
      exact ⟨passed,by rw [(flush_pending passed).1]; simp⟩

theorem push_settles (accounts : batch.Accounts suite) (key : Option Point)
    (message : FactMessage Hash Key Sig) (signature : Sig) (dst : CipherSuite) :
    (batch.push suite key message signature dst).2.Accounts suite ∧ ((batch.push suite key message signature dst).2.Clean suite ↔
        batch.Clean suite ∧ key.any (fun point => suite.verifyPoint point message signature dst) = true) ∧
      ((batch.push suite key message signature dst).2.Clean suite → (batch.push suite key message signature dst).1 = true) := by
  unfold BatchVerifier.push
  cases key with
  | none =>
    exact ⟨nofun,⟨fun clean => (nomatch clean.passing),fun ⟨_,valid⟩ => (nomatch valid)⟩,fun clean => (nomatch clean.passing)⟩
  | some point =>
    simp only [Option.any_some,Suite.verifyPoint,Bool.and_eq_true]
    split
    case isTrue known =>
      refine ⟨accounts,⟨fun clean => ⟨clean,?_⟩,fun ⟨clean,_⟩ => clean⟩,fun clean => congrArg (!·) clean.passing⟩
      obtain ⟨admitted,held⟩ := accounts clean.passing _ known
      exact ⟨admitted,held.elim (clean.pending _) fun verified => verified⟩
    case isFalse fresh =>
      split
      case isFalse unusable =>
        exact ⟨nofun,⟨fun clean => (nomatch clean.passing),fun ⟨_,admitted,_⟩ => absurd admitted unusable⟩,
          fun clean => (nomatch clean.passing)⟩
      case isTrue admitted =>
        have noted : BatchVerifier.Accounts suite
            {batch with seen := ⟨point,message,signature,dst⟩::batch.seen,
                        equations := batch.equations ++ [⟨point,message,signature,dst⟩]} := by
          intro passing equation listed
          rcases List.mem_cons.mp listed with rfl | old
          · exact ⟨admitted,.inl (by simp)⟩
          · obtain ⟨usable,held⟩ := accounts passing equation old
            exact ⟨usable,held.imp (fun pending => by simp [pending]) fun verified => verified⟩
        obtain ⟨kept,same⟩ := settle_at_limit batched noted
          ((batch.equations ++ [Equation.mk point message signature dst]).length = maxPendingEquations)
        refine ⟨kept,same.trans ?_,fun clean => congrArg (!·) clean.passing⟩
        refine ⟨fun clean => ⟨⟨clean.passing,fun equation pending => clean.pending equation (by simp [pending])⟩,admitted,
          clean.pending _ (by simp)⟩,fun ⟨clean,_,valid⟩ => ⟨clean.passing,?_⟩⟩
        exact List.forall_mem_append.mpr ⟨clean.pending,List.forall_mem_singleton.mpr valid⟩

theorem batch_verify (accounts : batch.Accounts suite) (request : SignatureRequest Hash Key Sig) :
    (batch.verify suite request).2.Accounts suite ∧ ((batch.verify suite request).2.Clean suite →
        batch.Clean suite ∧ (batch.verify suite request).1 = suite.direct request) ∧
      (batch.Clean suite → suite.direct request = true → (batch.verify suite request).2.Clean suite) := by
  have pushed (key : Option Point) (message : FactMessage Hash Key Sig) (signature : Sig) (dst : CipherSuite) :
      (batch.push suite key message signature dst).2.Accounts suite ∧
        ((batch.push suite key message signature dst).2.Clean suite → batch.Clean suite ∧
          (batch.push suite key message signature dst).1 = key.any fun point => suite.verifyPoint point message signature dst) ∧
        (batch.Clean suite → (key.any fun point => suite.verifyPoint point message signature dst) = true →
          (batch.push suite key message signature dst).2.Clean suite) := by
    obtain ⟨kept,same,answered⟩ := push_settles batched accounts key message signature dst
    exact ⟨kept,fun clean => ⟨(same.mp clean).1,(answered clean).trans (same.mp clean).2.symm⟩, fun clean valid => same.mpr ⟨clean,valid⟩⟩
  cases request with
  | aggregate keys message signature => exact pushed (suite.aggregatePoint keys) message signature .signature
  | signature key message signature possession =>
    cases possession with
    | false => exact pushed (suite.publicKey key) message signature .signature
    | true =>
      simp only [BatchVerifier.verify,Suite.direct,if_true]
      by_cases own : message = .key key
      · simp only [if_pos own,decide_eq_true own,Bool.true_and]
        exact pushed (suite.publicKey key) (.key key) signature .possession
      · simp only [if_neg own,decide_eq_false own,Bool.false_and]
        exact ⟨accounts,fun clean => ⟨clean,trivial⟩,fun clean _ => clean⟩
end

structure HybridVerifier.Sound (suite : Suite Hash Key Sig Point) (id : FactRequest Hash Key Sig → Hash)
    (hybrid : HybridVerifier Hash Key Sig Point) : Prop where
  truthful : Truthful suite id hybrid.facts
  accounts : hybrid.batch.Accounts suite

variable (batched : suite.BatchSound) (distinct : Function.Injective id)
include batched distinct

theorem hybrid_responds (hybrid : HybridVerifier Hash Key Sig Point) (request : SignatureRequest Hash Key Sig)
    (sound : hybrid.Sound suite id) : (hybrid.respond id suite request).2.Sound suite id ∧
      ((hybrid.respond id suite request).2.batch.Clean suite →
        hybrid.batch.Clean suite ∧ (hybrid.respond id suite request).1 = suite.direct request) ∧
      (hybrid.batch.Clean suite → suite.direct request = true → (hybrid.respond id suite request).2.batch.Clean suite) := by
  unfold HybridVerifier.respond
  cases found : hybrid.facts.lookup (id (.signed request)) with
  | some valid =>
    have right := Except.ok.inj (sound.truthful.lookup distinct found)
    exact ⟨⟨sound.truthful,sound.accounts⟩,fun clean => ⟨clean,right.symm⟩,fun clean _ => clean⟩
  | none =>
    obtain ⟨kept,vouched,stays⟩ := batch_verify batched sound.accounts request
    exact ⟨⟨sound.truthful,kept⟩,vouched,stays⟩

theorem hybrid_trusted {program : Query (Verdict : SignatureRequest Hash Key Sig → Type) ε α} (sound : hybrid.Sound suite id)
    (settled : (program.run (HybridVerifier.respond id suite) hybrid).2.finish suite = true) :
    (program.run (HybridVerifier.respond id suite) hybrid).1 = program.eval suite.direct := by
  have clean : (program.run (HybridVerifier.respond id suite) hybrid).2.batch.Clean suite :=
    (flush_clean batched).mp (by simpa [HybridVerifier.finish,BatchVerifier.finish] using settled)
  exact (run_trusted (HybridVerifier.Sound suite id) (fun hybrid => hybrid.batch.Clean suite)
    (fun hybrid request sound => (hybrid_responds batched distinct hybrid request sound).1)
    (fun hybrid request sound => (hybrid_responds batched distinct hybrid request sound).2.1) sound clean).2

theorem hybrid_complete {program : Query (Verdict : SignatureRequest Hash Key Sig → Type) ε α}
    (sound : hybrid.Sound suite id) (clean : hybrid.batch.Clean suite)
    (valid : ∀ request ∈ program.asked suite.direct, suite.direct request = true) :
    (program.run (HybridVerifier.respond id suite) hybrid).2.finish suite = true ∧
      (program.run (HybridVerifier.respond id suite) hybrid).1 = program.eval suite.direct := by
  obtain ⟨⟨_,last⟩,same⟩ := run_complete
    (fun hybrid : HybridVerifier Hash Key Sig Point => hybrid.Sound suite id ∧ hybrid.batch.Clean suite)
    (fun request => suite.direct request = true) (fun hybrid request ⟨sound,clean⟩ valid => by
      obtain ⟨kept,vouched,stays⟩ := hybrid_responds batched distinct hybrid request sound
      exact ⟨⟨kept,stays clean valid⟩,(vouched (stays clean valid)).2⟩) ⟨sound,clean⟩ valid
  exact ⟨by simpa [HybridVerifier.finish,BatchVerifier.finish] using (flush_clean batched).mpr last,same⟩
end Neutrino.Proving
