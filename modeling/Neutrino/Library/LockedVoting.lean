import Neutrino.Library.WeightedQuorum

-- Agreement of locked voting, for any voters, seats and values.
namespace LockedVoting
open WeightedQuorum

structure Ballot (X : Type) where
  round : Nat
  commit : Bool
  value : X

section
variable {V X : Type} [DecidableEq V]

def commits (log : List (V × Ballot X)) (voter : V) : List (Ballot X) :=
  log.filterMap fun entry => if entry.1 = voter ∧ entry.2.commit = true then some entry.2 else none

theorem mem_commits {log : List (V × Ballot X)} : ballot ∈ commits log voter ↔ (voter,ballot) ∈ log ∧ ballot.commit = true := by
  simp only [commits,List.mem_filterMap,Option.ite_none_right_eq_some,Option.some.injEq]
  constructor
  · rintro ⟨⟨_,_⟩,member,⟨rfl,commit⟩,rfl⟩
    exact ⟨member,commit⟩
  · rintro ⟨member,commit⟩
    exact ⟨_,member,⟨rfl,commit⟩,rfl⟩

theorem commits_append (log : List (V × Ballot X)) (entry : V × Ballot X) : commits (log++[entry]) voter =
    commits log voter ++ (if entry.1 = voter ∧ entry.2.commit = true then [entry.2] else []) := by
  unfold commits
  rw [List.filterMap_append]
  congr 1
  by_cases own : entry.1 = voter ∧ entry.2.commit = true <;> simp [own]
end
variable {V I X : Type} [DecidableEq V] (weight : I → Nat) (electorate : Finset I) (voter : I → V) (correct : V → Prop)

-- A supermajority of seats whose correct voters all cast one ballot.
def Backed (log : List (V × Ballot X)) (ballot : Ballot X) : Prop :=
  ∃ quorum, Supermajority weight electorate quorum ∧ ∀ seat ∈ quorum, correct (voter seat) → (voter seat,ballot) ∈ log

structure Allowed (log : List (V × Ballot X)) (caster : V) (ballot : Ballot X) : Prop where
  forward : ∀ older, (caster,older) ∈ log → older.round ≤ ballot.round
  single : ∀ older, (caster,older) ∈ log → older.round = ballot.round → older.commit = ballot.commit → older = ballot
  -- Leaving the last committed value needs a newer supermajority for the other.
  locked : ∀ last, (commits log caster).getLast? = some last → ballot.value ≠ last.value →
    ∃ round, last.round < round ∧ Backed weight electorate voter correct log ⟨round,false,ballot.value⟩

inductive Disciplined : List (V × Ballot X) → Prop where
  | nil : Disciplined []
  | snoc : Disciplined log → Allowed weight electorate voter correct log caster ballot →
      Disciplined (log++[(caster,ballot)])

variable {weight electorate voter correct} {round : Nat}

theorem Disciplined.one_per_position (disciplined : Disciplined weight electorate voter correct log)
    (one : (caster,first) ∈ log) (two : (caster,second) ∈ log) (round : first.round = second.round)
    (phase : first.commit = second.commit) : first = second := by
  induction disciplined generalizing first second with
  | nil => cases one
  | snoc _ allowed ih =>
    rcases List.mem_append.mp one with old | new <;> rcases List.mem_append.mp two with old' | new'
    · exact ih old old' round phase
    · cases List.mem_singleton.mp new'
      exact allowed.single first old round phase
    · cases List.mem_singleton.mp new
      exact (allowed.single second old' round.symm phase.symm).symm
    · cases List.mem_singleton.mp new
      cases List.mem_singleton.mp new'
      rfl

theorem Disciplined.commit_le_last (disciplined : Disciplined weight electorate voter correct log)
    (last : (commits log caster).getLast? = some top) (member : ballot ∈ commits log caster) : ballot.round ≤ top.round := by
  induction disciplined generalizing top with
  | nil => cases member
  | snoc _ allowed ih =>
    rw [commits_append] at last member
    split at last
    · rename_i own
      rw [if_pos own] at member
      rw [List.getLast?_append,List.getLast?_singleton] at last
      cases last
      rcases List.mem_append.mp member with old | new
      · obtain ⟨rfl,_⟩ := own
        exact allowed.forward ballot (mem_commits.mp old).1
      · cases List.mem_singleton.mp new
        exact Nat.le_refl _
    · rename_i other
      rw [if_neg other,List.append_nil] at member
      rw [List.append_nil] at last
      exact ih last member

def MayCommit (log : List (V × Ballot X)) (caster : V) (ballot : Ballot X) : Prop :=
  (caster,ballot) ∈ log ∨ ∀ older, (caster,older) ∈ log → older.round ≤ ballot.round

theorem MayCommit.earlier (allowed : Allowed weight electorate voter correct log other newest)
    (may : MayCommit (log++[(other,newest)]) caster ballot) : MayCommit log caster ballot := by
  rcases may with member | bounded
  · rcases List.mem_append.mp member with old | new
    · exact .inl old
    · cases List.mem_singleton.mp new
      exact .inr allowed.forward
  · exact .inr (fun older member => bounded older (List.mem_append_left _ member))

variable [DecidableEq I]

theorem Disciplined.locked_in (disciplined : Disciplined weight electorate voter correct log)
    (few : Minority weight electorate faulty) (reliable : ∀ seat ∈ electorate, seat ∉ faulty → correct (voter seat))
    (quorum : Supermajority weight electorate members) (commit : ballot.commit = true)
    (may : ∀ seat ∈ members, correct (voter seat) → MayCommit log (voter seat) ballot)
    (inside : seat ∈ members) (honest : correct (voter seat)) (member : (voter seat,other) ∈ log)
    (later : ballot.round < other.round) : other.value = ballot.value := by
  induction disciplined generalizing seat other with
  | nil => cases member
  | @snoc log caster newest before allowed ih =>
    have earlier : ∀ seat ∈ members, correct (voter seat) → MayCommit log (voter seat) ballot :=
      fun seat inside honest => (may seat inside honest).earlier allowed
    rcases List.mem_append.mp member with old | new
    · exact ih earlier inside honest old later
    · obtain ⟨rfl,rfl⟩ := Prod.mk.inj (List.mem_singleton.mp new)
      have committed : (voter seat,ballot) ∈ log := by
        rcases may seat inside honest with present | bounded
        · rcases List.mem_append.mp present with old | new
          · exact old
          · cases List.mem_singleton.mp new
            omega
        · have := bounded _ member
          omega
      obtain ⟨last,found⟩ : ∃ last, (commits log (voter seat)).getLast? = some last := by
        rw [← Option.isSome_iff_exists,List.getLast?_isSome]
        exact List.ne_nil_of_mem (mem_commits.mpr ⟨committed,commit⟩)
      obtain ⟨lastCast,lastCommit⟩ := mem_commits.mp (List.mem_of_getLast? found)
      have above : ballot.round ≤ last.round := before.commit_le_last found (mem_commits.mpr ⟨committed,commit⟩)
      have lastValue : last.value = ballot.value := by
        by_cases same : ballot.round = last.round
        · exact congrArg Ballot.value (before.one_per_position lastCast committed same.symm (lastCommit.trans commit.symm))
        · exact ih earlier inside honest lastCast (by omega)
      by_contra different
      obtain ⟨round,newer,backers,supermajority,backed⟩ := allowed.locked last found (lastValue ▸ different)
      obtain ⟨shared,inMembers,inBackers,right⟩ := correct_in_both weight quorum supermajority few
      have reliableShared := reliable shared (quorum.1 inMembers) right
      have moved := ih earlier inMembers reliableShared (backed shared inBackers reliableShared) (by simp only; omega)
      exact different moved

theorem Disciplined.agreement (disciplined : Disciplined weight electorate voter correct log)
    (few : Minority weight electorate faulty) (reliable : ∀ seat ∈ electorate, seat ∉ faulty → correct (voter seat))
    (one : Backed weight electorate voter correct log ⟨round,true,value⟩)
    (two : Backed weight electorate voter correct log ⟨round',true,value'⟩) (ordered : round ≤ round') : value = value' := by
  obtain ⟨first,firstQuorum,firstCast⟩ := one
  obtain ⟨second,secondQuorum,secondCast⟩ := two
  obtain ⟨shared,inFirst,inSecond,right⟩ := correct_in_both weight firstQuorum secondQuorum few
  have honest := reliable shared (firstQuorum.1 inFirst) right
  have committed := firstCast shared inFirst honest
  have committed' := secondCast shared inSecond honest
  rcases Nat.eq_or_lt_of_le ordered with rfl | later
  · exact congrArg Ballot.value (disciplined.one_per_position committed committed' rfl rfl)
  · exact (disciplined.locked_in few reliable firstQuorum rfl
      (fun seat inside correct => .inl (firstCast seat inside correct)) inFirst honest committed' later).symm
end LockedVoting
