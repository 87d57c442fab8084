import Neutrino.Trie.Shadow

-- When a store has enough for a key.

namespace Neutrino.StateTrie
open Checks Bits Patricia
open BitPath (ofBits length_ofBits ofBits_inj suffix_ofBits matchesAt_ofBits bit_ofBits)
variable {β : Type} [Alphabet β] [DecidableEq β]

section
variable (hasher : Hasher β) (trie : Trie β)

def Node.Regular : Node β → Prop
  | .leaf path _ => path.Packed
  | .branch _ _ => True
  | .extension path _ => path.Packed ∧ path.length ≠ 0

def Known (hash : Hash β) : Prop := ∃ node, hasher.digest node = hash ∧ trie.Stores hasher node ∧ node.Regular

def Settled (hash : Hash β) : Prop := hash = zeroHash ∨ Known hasher trie hash
def HasValue (valueHash : Hash β) : Prop := ∃ value, hasher.hashValue value = valueHash ∧ trie.StoresValue hasher value
def Clips (stem path : List Bool) : Prop := ∃ shared bit tail, stem = shared ++ [bit] ∧ path = shared ++ (!bit)::tail

inductive Covered (strong : Prop) : List Bool → Hash β → Prop where
  | empty (path) : Covered strong path zeroHash
  | leaf {path suffix valueHash} (stored : trie.Stores hasher (.leaf (ofBits suffix) valueHash))
      (short : suffix.length < 2 ^ 32) (value : path = suffix → HasValue hasher trie valueHash) :
      Covered strong path (hasher.digest (.leaf (ofBits suffix) valueHash))
  | branch {path left right} (stored : trie.Stores hasher (.branch left right))
      (beside : ∀ bit rest, path = bit::rest → strong → Settled hasher trie (if bit then left else right))
      (below : ∀ bit rest, path = bit::rest → Covered strong rest (if bit then right else left)) :
      Covered strong path (hasher.digest (.branch left right))
  | extension {path stem child} (stored : trie.Stores hasher (.extension (ofBits stem) child))
      (short : stem.length < 2 ^ 32) (long : stem ≠ []) (beside : Clips stem path → strong → Settled hasher trie child)
      (below : ∀ rest, path = stem ++ rest → Covered strong rest child) :
      Covered strong path (hasher.digest (.extension (ofBits stem) child))
end
section
variable {hasher : Hasher β} {trie before after : Trie β} {strong : Prop} {path : List Bool} {hash : Hash β}

theorem Known.keep (known : Known hasher before hash) (keeps : before.Keeps hasher after) : Known hasher after hash := by
  obtain ⟨node,same,stored,regular⟩ := known
  exact ⟨node,same,keeps.nodes _ stored,regular⟩

theorem Settled.keep (settled : Settled hasher before hash) (keeps : before.Keeps hasher after) : Settled hasher after hash :=
  settled.imp id fun known => known.keep keeps

theorem HasValue.keep (has : HasValue hasher before hash) (keeps : before.Keeps hasher after) : HasValue hasher after hash := by
  obtain ⟨value,same,stored⟩ := has
  exact ⟨value,same,keeps.values _ stored⟩

theorem Covered.keep (covered : Covered hasher before strong path hash) (keeps : before.Keeps hasher after) :
    Covered hasher after strong path hash := by
  induction covered with
  | empty path => exact .empty path
  | leaf stored short value => exact .leaf (keeps.nodes _ stored) short fun same => (value same).keep keeps
  | branch stored beside below ih =>
    exact .branch (keeps.nodes _ stored) (fun bit rest split need => (beside bit rest split need).keep keeps) ih
  | extension stored short long beside below ih =>
    exact .extension (keeps.nodes _ stored) short long (fun clips need => (beside clips need).keep keeps) ih

-- What covers a path at a node, read off the node.
def CoveredAt (hasher : Hasher β) (trie : Trie β) (strong : Prop) (path : List Bool) : Node β → Prop
  | .leaf keySuffix valueHash => ∃ suffix : List Bool, suffix.length < 2 ^ 32 ∧ keySuffix = ofBits suffix ∧
      (path = suffix → HasValue hasher trie valueHash)
  | .branch left right => ∀ bit rest, path = bit::rest →
      (strong → Settled hasher trie (if bit then left else right)) ∧ Covered hasher trie strong rest (if bit then right else left)
  | .extension prefixPath child => ∃ stem : List Bool, stem.length < 2 ^ 32 ∧ stem ≠ [] ∧ prefixPath = ofBits stem ∧
      (Clips stem path → strong → Settled hasher trie child) ∧ ∀ rest, path = stem ++ rest → Covered hasher trie strong rest child

theorem Covered.at_node (covered : Covered hasher trie strong path hash) (some : hash ≠ zeroHash) :
    ∃ node, hash = hasher.digest node ∧ trie.Stores hasher node ∧ CoveredAt hasher trie strong path node := by
  cases covered with
  | empty => exact absurd rfl some
  | leaf stored short value => exact ⟨_,rfl,stored,_,short,rfl,value⟩
  | branch stored beside below =>
    exact ⟨_,rfl,stored,fun bit rest split => ⟨beside bit rest split,below bit rest split⟩⟩
  | extension stored short long beside below => exact ⟨_,rfl,stored,_,short,long,rfl,beside,below⟩

variable {node : Node β}

theorem CoveredAt.covered (at_node : CoveredAt hasher trie strong path node)
    (stored : trie.Stores hasher node) : Covered hasher trie strong path (hasher.digest node) := by
  cases node with
  | leaf keySuffix valueHash =>
    obtain ⟨suffix,short,rfl,value⟩ := at_node
    exact .leaf stored short value
  | branch left right =>
    exact .branch stored (fun bit rest split => (at_node bit rest split).1) fun bit rest split => (at_node bit rest split).2
  | extension prefixPath child =>
    obtain ⟨stem,short,long,rfl,beside,below⟩ := at_node
    exact .extension stored short long beside below

theorem CoveredAt.keep (at_node : CoveredAt hasher before strong path node)
    (keeps : before.Keeps hasher after) : CoveredAt hasher after strong path node := by
  cases node with
  | leaf keySuffix valueHash =>
    obtain ⟨suffix,short,same,value⟩ := at_node
    exact ⟨suffix,short,same,fun equal => (value equal).keep keeps⟩
  | branch left right =>
    exact fun bit rest split => ⟨fun need => ((at_node bit rest split).1 need).keep keeps,(at_node bit rest split).2.keep keeps⟩
  | extension prefixPath child =>
    obtain ⟨stem,short,long,same,beside,below⟩ := at_node
    exact ⟨stem,short,long,same,fun clips need => (beside clips need).keep keeps,fun rest split => (below rest split).keep keeps⟩

theorem CoveredAt.regular (at_node : CoveredAt hasher trie strong path node) : node.Regular := by
  cases node with
  | leaf keySuffix valueHash =>
    obtain ⟨suffix,short,rfl,_⟩ := at_node
    exact ⟨suffix,short,rfl⟩
  | branch left right => trivial
  | extension prefixPath child =>
    obtain ⟨stem,short,long,rfl,_⟩ := at_node
    exact ⟨⟨stem,short,rfl⟩,by rw [length_ofBits short]; simpa using long⟩

theorem Node.Regular.packed (regular : node.Regular) : node.Packed := by
  cases node with
  | leaf path valueHash => exact regular
  | branch left right => trivial
  | extension path child => exact regular.1

theorem Covered.at_digest (injective : hasher.Injective) (some : hasher.digest node ≠ zeroHash)
    (covered : Covered hasher trie strong path (hasher.digest node)) : CoveredAt hasher trie strong path node := by
  obtain ⟨other,same,_,at_node⟩ := covered.at_node some
  rwa [← Node.encode_injective (injective.node same)] at at_node

theorem storeNode_keeps (injective : hasher.Injective) (trie : Trie β) (node : Node β) :
    trie.Keeps hasher (trie.storeNode hasher node).1 := withNode_keeps injective trie node

theorem storeNode_known (regular : node.Regular) : Known hasher (trie.storeNode hasher node).1 (trie.storeNode hasher node).2 :=
  ⟨node,rfl,withNode_stores,regular⟩
end

-- A run that never stops for want of a node or a value.
def Complete (outcome : Except Fault α) : Prop := ∀ reason, outcome = .error reason → ¬Lost reason
theorem Complete.done (result : α) : Complete (.ok result) := nofun

theorem Complete.bind (first : Complete head) (next : ∀ middle, head = .ok middle → Complete (rest middle)) : Complete (head >>= rest) := by
  intro reason failed
  rcases bind_error.mp failed with early | ⟨middle,passed,late⟩
  · exact first reason early
  · exact next middle passed reason late

section
variable {hasher : Hasher β} {trie : Trie β} {strong : Prop} {path : List Bool} (brief : path.length < 2 ^ 32)
include brief

theorem passExtension_complete (short : stem.length < 2 ^ 32) (inside : consumed ≤ path.length) :
    Complete (Trie.passExtension (ofBits path) consumed (ofBits stem)) ∧
    ∀ rest, Trie.passExtension (ofBits path) consumed (ofBits stem) = .ok (some rest) →
      rest = consumed + stem.length ∧ rest ≤ path.length ∧ path.drop consumed = stem ++ path.drop rest := by
  by_cases room : consumed + stem.length < 2 ^ 32
  · rw [passExtension_ofBits brief inside room]
    refine ⟨Complete.done _,fun rest passed => ?_⟩
    split at passed
    · rename_i along
      cases passed
      obtain ⟨more,split⟩ := along
      obtain ⟨rfl,size⟩ := drop_stem split inside
      exact ⟨rfl,by omega,split.symm⟩
    · cases passed
  · have overflow : Trie.passExtension (ofBits path) consumed (ofBits stem) = .error (.panicked .lengthOverflow) := by
      rw [Trie.passExtension,Trie.advance,length_ofBits short,ensure_neg room]
      rfl
    rw [overflow]
    exact ⟨fun reason failed => by cases failed; exact id,by simp⟩

theorem getFrom_complete {hash : Hash β} (inside : consumed ≤ path.length)
    (covered : Covered hasher trie strong (path.drop consumed) hash) :
    Complete (trie.getFrom (ofBits path) budget hash consumed) := by
  induction budget generalizing consumed hash with
  | zero => exact fun reason failed => by cases failed; exact id
  | succ budget ih =>
    rw [Trie.getFrom]
    by_cases zero : hash = zeroHash
    · rw [if_pos zero]
      exact Complete.done _
    · obtain ⟨node,rfl,stored,at_node⟩ := covered.at_node zero
      rw [if_neg zero,fetchNode_stored stored at_node.regular.packed,ok_bind]
      cases node with
      | leaf keySuffix valueHash =>
        obtain ⟨suffix,short,rfl,value⟩ := at_node
        simp only
        rw [suffix_ofBits brief inside,ok_bind]
        split
        · rename_i same
          have room : (path.drop consumed).length < 2 ^ 32 := by rw [List.length_drop]; omega
          obtain ⟨bytes,rfl,held⟩ := value ((ofBits_inj room short).mp same)
          have found : trie.values.lookup (hasher.hashValue bytes) = some bytes := held
          rw [found]
          exact Complete.done _
        · exact Complete.done _
      | branch left right =>
        simp only [length_ofBits brief]
        split
        · exact Complete.done _
        · rename_i more
          rw [bit_ofBits brief (by omega),ok_bind]
          exact ih (by omega) (at_node _ _ (drop_at (by omega))).2
      | extension prefixPath child =>
        obtain ⟨stem,short,long,rfl,_,below⟩ := at_node
        obtain ⟨complete,passes⟩ := passExtension_complete brief short inside
        refine complete.bind fun result passed => ?_
        cases result with
        | none => exact .done _
        | some rest =>
          obtain ⟨_,room,split⟩ := passes rest passed
          exact ih room (below _ split)
end

-- The store has grown, the new digest can be fetched, and whatever path was covered
-- from the old digest is covered from the new one.
structure Carried (hasher : Hasher β) (before : Trie β) (hash : Hash β) (after : Trie β) (hash' : Hash β) : Prop where
  keeps : before.Keeps hasher after
  settled : Settled hasher after hash'
  covers : ∀ strong path, Covered hasher before strong path hash → Covered hasher after strong path hash'

def Carries (hasher : Hasher β) (before : Trie β) (hash : Hash β) (outcome : Except Fault (Trie β × Hash β)) : Prop :=
  Complete outcome ∧ ∀ after hash', outcome = .ok (after,hash') → Carried hasher before hash after hash'

section
variable {hasher : Hasher β} (injective : hasher.Injective) {trie : Trie β}
include injective
variable {before : Trie β} {hash : Hash β}

theorem storeNode_carries (keeps : before.Keeps hasher trie) (regular : node.Regular)
    (covers : ∀ strong path, Covered hasher before strong path hash → CoveredAt hasher trie strong path node) :
    Carries hasher before hash (.ok (trie.storeNode hasher node)) := by
  have more := storeNode_keeps injective trie node
  refine ⟨.done _,?_⟩
  rintro _ _ ⟨⟩
  exact ⟨keeps.trans more,.inr (storeNode_known regular),
    fun strong path covered => ((covers strong path covered).keep more).covered withNode_stores⟩

omit injective in
theorem Carries.bind {side : Hash β} (carries : Carries hasher before side first)
    (rest : ∀ after changed, Carried hasher before side after changed → Carries hasher before hash (next (after,changed))) :
    Carries hasher before hash (first >>= next) := by
  obtain ⟨complete,carried⟩ := carries
  refine ⟨complete.bind ?_,?_⟩
  · rintro ⟨after,changed⟩ ran
    exact (rest after changed (carried after changed ran)).1
  · intro last hash' ran
    obtain ⟨⟨after,changed⟩,one,two⟩ := bind_ok.mp ran
    exact (rest after changed (carried after changed one)).2 last hash' two

theorem forkAt_covers (bit : Bool) (short : (shared ++ rest).length < 2 ^ 32) (settled : Settled hasher trie new) :
    ∃ after hash, trie.forkAt hasher (ofBits (shared ++ rest)) shared.length bit existing new = .ok (after,hash) ∧
      trie.Keeps hasher after ∧ Settled hasher after hash ∧
      ∀ strong path, (∀ tail, path = shared ++ bit::tail → Covered hasher trie strong tail existing) →
        (∀ tail, path = shared ++ (!bit)::tail → Covered hasher trie strong tail new ∧ (strong → Settled hasher trie existing)) →
        Covered hasher after strong path hash := by
  have keeps := storeNode_keeps injective trie (Hasher.pair bit existing new)
  have known : Known hasher (trie.storeNode hasher (Hasher.pair bit existing new)).1
      (hasher.digest (Hasher.pair bit existing new)) := storeNode_known (by cases bit <;> trivial)
  have branch (strong : Prop) (path : List Bool) (old : ∀ tail, path = bit::tail → Covered hasher trie strong tail existing)
      (added : ∀ tail, path = (!bit)::tail → Covered hasher trie strong tail new ∧ (strong → Settled hasher trie existing)) :
      Covered hasher (trie.storeNode hasher (Hasher.pair bit existing new)).1 strong path
        (hasher.digest (Hasher.pair bit existing new)) := by
    refine CoveredAt.covered ?_ withNode_stores
    cases bit with
    | false =>
      rintro turn tail rfl
      cases turn with
      | false => exact ⟨fun _ => settled.keep keeps,(old tail rfl).keep keeps⟩
      | true => exact ⟨fun need => ((added tail rfl).2 need).keep keeps,(added tail rfl).1.keep keeps⟩
    | true =>
      rintro turn tail rfl
      cases turn with
      | true => exact ⟨fun _ => settled.keep keeps,(old tail rfl).keep keeps⟩
      | false => exact ⟨fun need => ((added tail rfl).2 need).keep keeps,(added tail rfl).1.keep keeps⟩
  simp only [Trie.forkAt,← Hasher.pair.eq_def]
  by_cases none : shared = []
  · subst none
    exact ⟨_,_,rfl,keeps,.inr known,branch⟩
  · have wide : shared.length ≠ 0 := by simpa using none
    have narrow : shared.length < 2 ^ 32 := by rw [List.length_append] at short; omega
    rw [if_neg wide,BitPath.prefixTo_ofBits short (by simp),ok_bind,List.take_left]
    have more := storeNode_keeps injective (trie.storeNode hasher (Hasher.pair bit existing new)).1
      (.extension (ofBits shared) (hasher.digest (Hasher.pair bit existing new)))
    refine ⟨_,_,rfl,keeps.trans more,.inr (storeNode_known ⟨⟨shared,narrow,rfl⟩,?_⟩),fun strong path old added => ?_⟩
    · rwa [length_ofBits narrow]
    · refine .extension withNode_stores narrow none (fun _ _ => .inr (known.keep more)) fun tail split => ?_
      refine (branch strong tail (fun last same => old last ?_) fun last same => added last ?_).keep more
      · rw [split,same]
      · rw [split,same]

omit injective in
theorem complete_refused : Complete (.error (.refused error) : Except Fault α) := fun reason failed => by cases failed; exact id

variable {bit : Bool} {value : List Byte}

theorem beside_carries (keeps : before.Keeps hasher trie) (held : trie.StoresValue hasher value)
    (short : (shared ++ (!bit)::tail).length < 2 ^ 32)
    (there : ∀ strong rest, Covered hasher before strong (shared ++ bit::rest) hash → Covered hasher trie strong rest old)
    (beside : ∀ (strong : Prop) rest, Covered hasher before strong (shared ++ (!bit)::rest) hash → strong →
      Settled hasher trie old) : Carries hasher before hash
      ((trie.storeNode hasher (.leaf (ofBits tail) (hasher.hashValue value))).1.forkAt hasher
        (ofBits (shared ++ (!bit)::tail)) shared.length bit old
        (trie.storeNode hasher (.leaf (ofBits tail) (hasher.hashValue value))).2) := by
  have fits : tail.length < 2 ^ 32 := by simp at short; omega
  have more := storeNode_keeps injective trie (.leaf (ofBits tail) (hasher.hashValue value))
  have new : Settled hasher (trie.storeNode hasher (.leaf (ofBits tail) (hasher.hashValue value))).1
      (trie.storeNode hasher (.leaf (ofBits tail) (hasher.hashValue value))).2 :=
    .inr (storeNode_known ⟨tail,fits,rfl⟩)
  obtain ⟨after,fork,run,last,settled,covers⟩ : ∃ after fork, _ ∧ _ := forkAt_covers injective bit short new
  rw [run]
  refine ⟨.done _,?_⟩
  rintro _ _ ⟨⟩
  refine ⟨(keeps.trans more).trans last,settled,fun strong path covered => covers strong path ?_ ?_⟩
  · rintro rest rfl
    exact (there strong rest covered).keep more
  · rintro rest rfl
    exact ⟨.leaf withNode_stores fits fun _ => ⟨value,rfl,more.values _ held⟩, fun need => (beside strong rest covered need).keep more⟩

variable {path : List Bool}

theorem insertIntoLeaf_carries (short : suffix.length < 2 ^ 32) (brief : path.length < 2 ^ 32) (held : trie.StoresValue hasher value)
    (some : hasher.digest (.leaf (ofBits suffix) existing) ≠ zeroHash) :
    Carries hasher trie (hasher.digest (.leaf (ofBits suffix) existing))
      (trie.insertIntoLeaf hasher (ofBits suffix) existing (ofBits path) (hasher.hashValue value)) := by
  rw [Trie.insertIntoLeaf,length_ofBits short,length_ofBits brief]
  have common := BitPath.commonPrefixLen_ofBits short brief
  by_cases same : suffix = path
  · subst same
    simp only [and_self,if_true]
    exact storeNode_carries injective .refl ⟨suffix,short,rfl⟩ fun strong other covered =>
      ⟨suffix,short,rfl,fun _ => ⟨value,rfl,held⟩⟩
  rw [if_neg (fun both => same ((ofBits_inj short brief).mp both.2)),common,ok_bind]
  obtain ⟨rest,rfl⟩ | ⟨bit,rest,rfl⟩ | ⟨shared,bit,rest,tail,rfl,rfl⟩ := meeting suffix path
  · rw [diverge_along,if_pos (.inl rfl)]
    exact ⟨complete_refused,by simp⟩
  · rw [diverge_inside,if_pos (.inr rfl)]
    exact ⟨complete_refused,by simp⟩
  · obtain ⟨_,here,oldTail,newTail⟩ := BitPath.parting short brief
    rw [diverge_parted,if_neg (by simp),here,ok_bind,oldTail,ok_bind,newTail,ok_bind]
    have room : rest.length < 2 ^ 32 := by simp at short; omega
    have keeps := storeNode_keeps injective trie (.leaf (ofBits rest) existing)
    refine beside_carries injective keeps (keeps.values _ held) brief (fun strong more covered => ?_)
      fun strong more covered need => .inr (storeNode_known ⟨rest,room,rfl⟩)
    obtain ⟨suffix,fits,paths,value⟩ := covered.at_digest injective some
    cases (ofBits_inj short fits).mp paths
    refine .leaf withNode_stores room fun equal => (value ?_).keep keeps
    rw [equal]

variable {child : Hash β}

theorem splitExtension_carries (short : stem.length < 2 ^ 32) (brief : path.length < 2 ^ 32) (off : ¬stem <+: path)
    (held : trie.StoresValue hasher value) (some : hasher.digest (.extension (ofBits stem) child) ≠ zeroHash) :
    Carries hasher trie (hasher.digest (.extension (ofBits stem) child))
      (trie.splitExtension hasher (ofBits stem) child (ofBits path) (hasher.hashValue value)) := by
  rw [Trie.splitExtension,length_ofBits brief,BitPath.commonPrefixLen_ofBits short brief,ok_bind]
  obtain ⟨rest,rfl⟩ | ⟨bit,rest,rfl⟩ | ⟨shared,bit,rest,tail,rfl,rfl⟩ := meeting stem path
  · exact absurd ⟨rest,rfl⟩ off
  · rw [diverge_inside,if_pos rfl]
    exact ⟨complete_refused,by simp⟩
  · obtain ⟨_,here,oldTail,newTail⟩ := BitPath.parting short brief
    have room : rest.length < 2 ^ 32 := by simp at short; omega
    have split (strong : Prop) (path : List Bool)
        (covered : Covered hasher trie strong path (hasher.digest (.extension (ofBits (shared ++ bit::rest)) child))) :
        (Clips (shared ++ bit::rest) path → strong → Settled hasher trie child) ∧
          ∀ more, path = (shared ++ bit::rest) ++ more → Covered hasher trie strong more child := by
      obtain ⟨stem,fits,_,paths,beside,below⟩ := covered.at_digest injective some
      cases (ofBits_inj short fits).mp paths
      exact ⟨beside,below⟩
    rw [diverge_parted,if_neg (by simp),here,ok_bind,oldTail,ok_bind,newTail,ok_bind,length_ofBits room]
    by_cases none : rest = []
    · subst none
      refine beside_carries injective .refl held brief (fun strong more covered => ?_) fun strong more covered need => ?_
      · exact (split strong _ covered).2 more (by simp)
      · exact (split strong _ covered).1 ⟨shared,bit,more,rfl,rfl⟩ need
    · have wide : rest.length ≠ 0 := by simpa using none
      simp only [if_neg wide]
      have keeps := storeNode_keeps injective trie (.extension (ofBits rest) child)
      have regular : (Node.extension (ofBits rest) child).Regular :=
        ⟨⟨rest,room,rfl⟩,by rwa [length_ofBits room]⟩
      refine beside_carries injective keeps (keeps.values _ held) brief (fun strong more covered => ?_)
        fun strong more covered need => .inr (storeNode_known regular)
      refine .extension withNode_stores room none (fun clips need => ?_) fun last along => ?_
      · obtain ⟨front,turn,tail,rfl,rfl⟩ := clips
        exact ((split strong _ covered).1 ⟨shared ++ bit::front,turn,tail,by simp,by simp⟩ need).keep keeps
      · exact ((split strong _ covered).2 last (by simp [along])).keep keeps

variable {changed : Hash β} {strong : Prop}
omit injective in
theorem branch_carried (carried : Carried hasher before (if bit then right else left) trie changed)
    (at_node : CoveredAt hasher before strong path (.branch left right)) :
    CoveredAt hasher trie strong path (.branch (if bit then left else changed) (if bit then changed else right)) := by
  intro turn rest split
  obtain ⟨beside,below⟩ := at_node turn rest split
  have keeps := carried.keeps
  cases bit
  · cases turn
    · exact ⟨fun need => (beside need).keep keeps,carried.covers strong rest below⟩
    · exact ⟨fun _ => carried.settled,below.keep keeps⟩
  · cases turn
    · exact ⟨fun _ => carried.settled,below.keep keeps⟩
    · exact ⟨fun need => (beside need).keep keeps,carried.covers strong rest below⟩

omit injective in
theorem extension_carried (carried : Carried hasher before child trie changed)
    (at_node : CoveredAt hasher before strong path (.extension prefixPath child)) :
    CoveredAt hasher trie strong path (.extension prefixPath changed) := by
  obtain ⟨stem,short,long,same,_,below⟩ := at_node
  exact ⟨stem,short,long,same,fun _ _ => carried.settled,fun rest split => carried.covers strong rest (below rest split)⟩

theorem insertAt_carries (brief : path.length < 2 ^ 32) (held : trie.StoresValue hasher value)
    (inside : offset ≤ path.length) (covered : Covered hasher trie strong (path.drop offset) hash) : Carries hasher trie hash
      (Trie.insertAt hasher (ofBits path) (hasher.hashValue value) budget trie hash offset) := by
  induction budget generalizing offset hash with
  | zero => exact ⟨fun reason failed => by cases failed; exact id,by rintro _ _ ⟨⟩⟩
  | succ budget ih =>
    have room : (path.drop offset).length < 2 ^ 32 := by rw [List.length_drop]; omega
    rw [Trie.insertAt]
    by_cases zero : hash = zeroHash
    · rw [if_pos zero,suffix_ofBits brief inside,ok_bind]
      exact storeNode_carries injective .refl ⟨_,room,rfl⟩ fun strong other _ => ⟨_,room,rfl,fun _ => ⟨value,rfl,held⟩⟩
    · obtain ⟨node,rfl,stored,at_node⟩ := covered.at_node zero
      rw [if_neg zero,fetchNode_stored stored at_node.regular.packed,ok_bind]
      cases node with
      | leaf keySuffix existing =>
        obtain ⟨suffix,short,rfl,_⟩ := at_node
        simp only
        rw [suffix_ofBits brief inside,ok_bind]
        exact insertIntoLeaf_carries injective short room held zero
      | branch left right =>
        simp only [length_ofBits brief]
        split
        · exact ⟨complete_refused,by simp⟩
        · rename_i more
          rw [bit_ofBits brief (by omega),ok_bind]
          have below := (at_node _ _ (drop_at (by omega))).2
          generalize path.getD offset false = bit at below ⊢
          refine (ih (by omega) below).bind fun after changed carried => ?_
          have whole : (if bit then Node.branch left changed else .branch changed right) =
              .branch (if bit then left else changed) (if bit then changed else right) := by cases bit <;> rfl
          simp only [whole]
          exact storeNode_carries injective carried.keeps trivial fun strong other covered =>
            branch_carried carried (covered.at_digest injective zero)
      | extension prefixPath child =>
        have regular := at_node.regular
        obtain ⟨stem,short,long,rfl,_,below⟩ := at_node
        simp only [length_ofBits brief,length_ofBits short]
        rw [matchesAt_ofBits brief short inside,ok_bind]
        by_cases along : stem <+: path.drop offset
        · obtain ⟨rest,split⟩ := along
          obtain ⟨rfl,size⟩ := drop_stem split inside
          simp only [← split,List.prefix_append,decide_true,if_true]
          split
          · exact ⟨complete_refused,by simp⟩
          · refine (ih (by omega) (below _ split.symm)).bind fun last changed carried => ?_
            exact storeNode_carries injective carried.keeps regular fun strong other covered =>
              extension_carried carried (covered.at_digest injective zero)
        · simp only [along,decide_false,Bool.false_eq_true,if_false]
          rw [suffix_ofBits brief inside,ok_bind]
          exact splitExtension_carries injective short room along held zero

theorem lengthen_carries (keeps : before.Keeps hasher trie)
    (long : front ≠ []) (short : front.length < 2 ^ 32) (known : Known hasher trie hash) (some : hash ≠ zeroHash)
    (below : ∀ strong rest, Covered hasher before strong (front ++ rest) whole → Covered hasher trie strong rest hash) :
    Carries hasher before whole (trie.lengthen hasher (ofBits front) hash) := by
  have regularFront : (ofBits front).Packed ∧ (ofBits front).length ≠ 0 :=
    ⟨⟨front,short,rfl⟩,by rw [length_ofBits short]; simpa using long⟩
  have kept := known
  obtain ⟨node,rfl,stored,regular⟩ := known
  rw [Trie.lengthen,fetchNode_stored stored regular.packed,ok_bind]
  have overflow {tail : List Bool} (fits : tail.length < 2 ^ 32) (past : ¬front.length + tail.length < 2 ^ 32) :
      (ofBits front).concat (ofBits tail) = .error (.panicked .lengthOverflow) := by
    rw [BitPath.concat,length_ofBits short,length_ofBits fits,if_neg (by omega),if_neg (by omega)]
    simp only [ensure_neg past]
    rfl
  cases node with
  | branch left right =>
    refine storeNode_carries injective keeps regularFront fun strong path covered =>
      ⟨front,short,long,rfl,fun _ _ => .inr kept,?_⟩
    rintro rest rfl
    exact below strong rest covered
  | leaf keySuffix valueHash =>
    obtain ⟨suffix,fits,rfl⟩ := regular
    simp only
    by_cases room : front.length + suffix.length < 2 ^ 32
    · rw [BitPath.concat_ofBits short fits room,ok_bind]
      have size : (front ++ suffix).length < 2 ^ 32 := by rwa [List.length_append]
      refine storeNode_carries injective keeps ⟨_,size,rfl⟩ fun strong path covered => ⟨_,size,rfl,?_⟩
      rintro rfl
      obtain ⟨other,fits',paths,value⟩ := (below strong suffix covered).at_digest injective some
      exact value ((ofBits_inj fits fits').mp paths)
    · rw [overflow fits room]
      exact ⟨fun reason failed => by cases failed; exact id,by simp⟩
  | extension prefixPath child =>
    obtain ⟨⟨stem,fits,rfl⟩,wide⟩ := regular
    simp only
    by_cases room : front.length + stem.length < 2 ^ 32
    · have size : (front ++ stem).length < 2 ^ 32 := by rwa [List.length_append]
      have inner : stem ≠ [] := by
        rw [length_ofBits fits] at wide
        simpa using wide
      rw [BitPath.concat_ofBits short fits room,ok_bind]
      refine storeNode_carries injective keeps ⟨⟨_,size,rfl⟩,?_⟩ fun strong path covered =>
        ⟨_,size,by simp [long],rfl,fun clips need => ?_,?_⟩
      · rw [length_ofBits size]
        simp [long]
      · -- The clipped bit is the stem's last, so the path is below the front.
        obtain ⟨shared,bit,tail,last,rfl⟩ := clips
        obtain ⟨head,turn,rfl⟩ : ∃ head turn, stem = head ++ [turn] :=
          ⟨stem.dropLast,stem.getLast inner,(List.dropLast_append_getLast inner).symm⟩
        rw [← List.append_assoc] at last
        obtain ⟨rfl,same⟩ := List.append_inj' last rfl
        cases same
        rw [List.append_assoc] at covered
        obtain ⟨other,fits',_,paths,beside,_⟩ := (below strong _ covered).at_digest injective some
        cases (ofBits_inj fits fits').mp paths
        exact beside ⟨head,_,tail,rfl,rfl⟩ need
      · rintro rest rfl
        rw [List.append_assoc] at covered
        obtain ⟨other,fits',_,paths,_,inside⟩ := (below strong _ covered).at_digest injective some
        cases (ofBits_inj fits fits').mp paths
        exact inside rest rfl
    · rw [overflow fits room]
      exact ⟨fun reason failed => by cases failed; exact id,by simp⟩

omit injective in
theorem empty_carries (keeps : before.Keeps hasher trie) : Carries hasher before hash (.ok (trie,zeroHash)) := by
  refine ⟨.done _,?_⟩
  rintro _ _ ⟨⟩
  exact ⟨keeps,.inl rfl,fun strong path _ => .empty path⟩

theorem collapseBranch_carries (some : hasher.digest (.branch left right) ≠ zeroHash)
    (carried : Carried hasher before (if bit then right else left) trie changed)
    (other : Settled hasher before (if bit then left else right)) : Carries hasher before (hasher.digest (.branch left right))
      (trie.collapseBranch hasher (if bit then left else changed) (if bit then changed else right)) := by
  have at_branch (strong : Prop) (path : List Bool) (covered : Covered hasher before strong path (hasher.digest (.branch left right))) :
      CoveredAt hasher trie strong path (.branch (if bit then left else changed) (if bit then changed else right)) :=
    branch_carried carried (covered.at_digest injective some)
  have sides : Settled hasher trie (if bit then left else changed) ∧ Settled hasher trie (if bit then changed else right) := by
    have kept := other.keep carried.keeps
    cases bit
    · exact ⟨carried.settled,kept⟩
    · exact ⟨kept,carried.settled⟩
  generalize (if bit then left else changed) = one at at_branch sides ⊢
  generalize (if bit then changed else right) = two at at_branch sides ⊢
  rw [Trie.collapseBranch]
  by_cases noLeft : one = zeroHash
  · rw [if_pos noLeft]
    by_cases noRight : two = zeroHash
    · rw [if_pos noRight]
      exact empty_carries carried.keeps
    · rw [if_neg noRight,Trie.absorbIntoParent,BitPath.single_ofBits]
      exact lengthen_carries injective carried.keeps (by simp) (by simp) (sides.2.resolve_left noRight) noRight
        fun strong rest covered => (at_branch strong _ covered true rest rfl).2
  · rw [if_neg noLeft]
    by_cases noRight : two = zeroHash
    · rw [if_pos noRight,Trie.absorbIntoParent,BitPath.single_ofBits]
      exact lengthen_carries injective carried.keeps (by simp) (by simp) (sides.1.resolve_left noLeft) noLeft
        fun strong rest covered => (at_branch strong _ covered false rest rfl).2
    · rw [if_neg noRight]
      exact storeNode_carries injective carried.keeps trivial at_branch

theorem collapseExtension_carries (some : hasher.digest (.extension (ofBits stem) child) ≠ zeroHash) (short : stem.length < 2 ^ 32)
    (long : stem ≠ []) (carried : Carried hasher before child trie changed) :
    Carries hasher before (hasher.digest (.extension (ofBits stem) child))
      (trie.collapseExtension hasher (ofBits stem) changed) := by
  rw [Trie.collapseExtension]
  by_cases zero : changed = zeroHash
  · rw [if_pos zero]
    exact empty_carries carried.keeps
  · rw [if_neg zero]
    refine lengthen_carries injective carried.keeps long short (carried.settled.resolve_left zero) zero fun strong rest covered => ?_
    obtain ⟨other,fits,_,paths,_,below⟩ := covered.at_digest injective some
    cases (ofBits_inj short fits).mp paths
    exact carried.covers strong rest (below rest rfl)

omit injective in
theorem Carried.same
    (keeps : trie.Keeps hasher after) (covered : Covered hasher trie strong path hash) : Carried hasher trie hash after hash := by
  refine ⟨keeps,?_,fun _ _ before => before.keep keeps⟩
  by_cases zero : hash = zeroHash
  · exact .inl zero
  · obtain ⟨node,rfl,stored,at_node⟩ := covered.at_node zero
    exact .inr ⟨node,rfl,keeps.nodes _ stored,at_node.regular⟩

omit injective in
-- The same for a removal, which also returns the digest of what it took out.
def Sheds (hasher : Hasher β) (before : Trie β) (hash : Hash β) (outcome : Except Fault (Trie β × Hash β × Option (Hash β))) : Prop :=
  Complete outcome ∧ ∀ after hash' removed, outcome = .ok (after,hash',removed) → Carried hasher before hash after hash'

omit injective in
theorem Sheds.stay (covered : Covered hasher trie strong path hash) : Sheds hasher trie hash (.ok (trie,hash,none)) :=
  ⟨.done _,by rintro _ _ _ ⟨⟩; exact .same .refl covered⟩

omit injective in
theorem Sheds.close {side : Hash β} {close : Trie β → Hash β → Except Fault (Trie β × Hash β)}
    (covered : Covered hasher trie strong path hash) (sheds : Sheds hasher trie side first)
    (closing : ∀ after changed, Carried hasher trie side after changed → Carries hasher trie hash (close after changed)) :
    Sheds hasher trie hash (do
      let (after,changed,removed) ← first
      if removed = none then return (after,hash,none)
      let (after,collapsed) ← close after changed
      return (after,collapsed,removed)) := by
  obtain ⟨complete,carried⟩ := sheds
  refine ⟨complete.bind ?_,fun last hash' taken ran => ?_⟩
  · rintro ⟨after,changed,removed⟩ ran
    simp only
    split
    · exact .done _
    · exact (closing after changed (carried after changed removed ran)).1.bind fun _ _ => .done _
  · obtain ⟨⟨after,changed,removed⟩,one,two⟩ := bind_ok.mp ran
    simp only at two
    split at two
    · cases two
      exact .same (carried _ _ _ one).keeps covered
    · obtain ⟨⟨final,closed⟩,three,four⟩ := bind_ok.mp two
      cases four
      exact (closing after changed (carried _ _ _ one)).2 _ _ three

theorem removeAt_sheds (brief : path.length < 2 ^ 32)
    (inside : offset ≤ path.length) (covered : Covered hasher trie True (path.drop offset) hash) :
    Sheds hasher trie hash (Trie.removeAt hasher (ofBits path) budget trie hash offset) := by
  induction budget generalizing offset hash with
  | zero => exact ⟨fun reason failed => by cases failed; exact id,nofun⟩
  | succ budget ih =>
    rw [Trie.removeAt]
    by_cases zero : hash = zeroHash
    · rw [if_pos zero,← zero]
      exact .stay covered
    · obtain ⟨node,rfl,stored,at_node⟩ := covered.at_node zero
      rw [if_neg zero,fetchNode_stored stored at_node.regular.packed,ok_bind]
      cases node with
      | leaf keySuffix valueHash =>
        obtain ⟨suffix,short,rfl,_⟩ := at_node
        simp only [matchesAt_ofBits brief short inside,ok_bind]
        split
        · split
          · refine ⟨.done _,?_⟩
            rintro _ _ _ ⟨⟩
            exact ⟨.refl,.inl rfl,fun strong path _ => .empty path⟩
          · exact .stay covered
        · exact .stay covered
      | branch left right =>
        simp only [length_ofBits brief]
        split
        · exact .stay covered
        · rename_i more
          rw [bit_ofBits brief (by omega),ok_bind]
          obtain ⟨beside,below⟩ := at_node _ _ (drop_at (by omega))
          generalize path.getD offset false = bit at beside below ⊢
          exact .close covered (ih (by omega) below) fun after changed carried =>
            collapseBranch_carries injective zero carried (beside trivial)
      | extension prefixPath child =>
        obtain ⟨stem,short,long,rfl,_,below⟩ := at_node
        simp only [length_ofBits short]
        rw [matchesAt_ofBits brief short inside,ok_bind]
        by_cases along : stem <+: path.drop offset
        · obtain ⟨rest,split⟩ := along
          obtain ⟨rfl,size⟩ := drop_stem split inside
          simp only [← split,List.prefix_append,decide_true,if_true]
          exact .close covered (ih (by omega) (below _ split.symm)) fun after changed carried =>
            collapseExtension_carries injective zero short long carried
        · simp only [along,decide_false,Bool.false_eq_true,if_false]
          exact .stay covered
end

theorem removeAt_absent {hasher : Hasher β} {trie : Trie β} {path : List Bool} (brief : path.length < 2 ^ 32)
    {budget offset : Nat} {hash : Hash β} (inside : offset ≤ path.length) (covered : Covered hasher trie strong (path.drop offset) hash)
    (absent : trie.getFrom (ofBits path) budget hash offset = .ok none) :
    Trie.removeAt hasher (ofBits path) budget trie hash offset = .ok (trie,hash,none) := by
  induction budget generalizing offset hash with
  | zero => cases absent
  | succ budget ih =>
    rw [Trie.getFrom] at absent
    rw [Trie.removeAt]
    by_cases zero : hash = zeroHash
    · rw [if_pos zero,zero]
      rfl
    · obtain ⟨node,rfl,stored,at_node⟩ := covered.at_node zero
      rw [if_neg zero,fetchNode_stored stored at_node.regular.packed,ok_bind] at absent ⊢
      cases node with
      | leaf keySuffix valueHash =>
        obtain ⟨suffix,short,rfl,_⟩ := at_node
        have room : (path.drop offset).length < 2 ^ 32 := by rw [List.length_drop]; omega
        simp only [suffix_ofBits brief inside,ok_bind,ofBits_inj room short] at absent
        simp only [matchesAt_ofBits brief short inside,ok_bind,length_ofBits brief, length_ofBits short]
        by_cases same : path.drop offset = suffix
        · rw [if_pos same] at absent
          obtain ⟨_,_,returned⟩ := bind_ok.mp absent
          cases returned
        · by_cases size : suffix.length = path.length - offset
          · have apart : ¬suffix <+: path.drop offset := fun begins =>
              same (begins.eq_of_length (by rw [size,List.length_drop])).symm
            rw [if_pos size]
            simp [apart]
          · rw [if_neg size]
            rfl
      | branch left right =>
        simp only [length_ofBits brief] at absent ⊢
        by_cases ended : path.length ≤ offset
        · rw [if_pos ended]
          rfl
        · rw [if_neg ended,bit_ofBits brief (by omega),ok_bind] at absent ⊢
          rw [ih (by omega) (at_node _ _ (drop_at (by omega))).2 absent]
          rfl
      | extension prefixPath child =>
        obtain ⟨stem,short,long,rfl,_,below⟩ := at_node
        simp only [length_ofBits short]
        rw [matchesAt_ofBits brief short inside,ok_bind]
        simp only at absent
        by_cases along : stem <+: path.drop offset
        · obtain ⟨rest,split⟩ := along
          obtain ⟨rfl,size⟩ := drop_stem split inside
          simp only [passExtension_ofBits brief inside (by omega : offset + stem.length < 2 ^ 32),← split,
            List.prefix_append,if_true,ok_bind] at absent
          simp only [← split,List.prefix_append,decide_true,if_true]
          rw [ih (by omega) (below _ split.symm) absent]
          rfl
        · simp only [along,decide_false,Bool.false_eq_true,if_false]
          rfl
end Neutrino.StateTrie
