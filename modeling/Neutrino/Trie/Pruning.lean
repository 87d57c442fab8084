import Neutrino.Trie.Persistence

-- Pruning keeps exactly what the roots lead to, and reads below them cannot tell.
-- Nothing is assumed of the store or the hashes.
namespace Neutrino.StateTrie
open Checks Bits Sweep
variable {β : Type} [Alphabet β] [DecidableEq β]

section
variable (hasher : Hasher β) (trie : Trie β) (roots : List (Hash β))

inductive Trie.Reaches : Hash β → Prop where
  | root {hash : Hash β} : hash ∈ trie.root::roots → hash ≠ zeroHash → Trie.Reaches hash
  | child {hash below : Hash β} {node : Node β} : Trie.Reaches hash → trie.fetchNode hash = .ok node → below ∈ node.children → below ≠ zeroHash → Trie.Reaches below

def Trie.ReachesValue (valueHash : Hash β) : Prop :=
  ∃ hash suffix, trie.Reaches roots hash ∧ trie.fetchNode hash = .ok (.leaf suffix valueHash)

def Trie.SoundNode (hash : Hash β) : Prop :=
  ∃ bytes node, trie.nodes.lookup hash = some bytes ∧ hasher.hashNode bytes = hash ∧ Node.decode bytes = .ok node

def Trie.SoundValue (valueHash : Hash β) : Prop := ∃ value, trie.values.lookup valueHash = some value ∧ hasher.hashValue value = valueHash

structure Trie.Intact : Prop where
  nodes : ∀ hash, trie.Reaches roots hash → trie.SoundNode hasher hash
  values : ∀ hash, trie.ReachesValue roots hash → trie.SoundValue hasher hash
end
section
variable {hasher : Hasher β} {trie after : Trie β} {roots : List (Hash β)} {hash : Hash β}

theorem roots_reached (listed : hash ∈ trie.root::roots) : hash = zeroHash ∨ trie.Reaches roots hash := by
  by_cases zero : hash = zeroHash
  · exact .inl zero
  · exact .inr (.root listed zero)

theorem Trie.Reaches.down (reached : trie.Reaches roots hash) (read : trie.fetchNode hash = .ok node) :
    ∀ child ∈ node.children, child = zeroHash ∨ trie.Reaches roots child := by
  intro child under
  by_cases zero : child = zeroHash
  · exact .inl zero
  · exact .inr (.child reached read under zero)

theorem retain_checks (reached : trie.Reaches roots hash) {values later : List (Hash β)}
    (good : ∀ valueHash ∈ values, trie.ReachesValue roots valueHash ∧ trie.SoundValue hasher valueHash)
    (run : trie.retain hasher hash values = .ok (more,later)) :
    trie.SoundNode hasher hash ∧ ∀ valueHash ∈ later, trie.ReachesValue roots valueHash ∧ trie.SoundValue hasher valueHash := by
  obtain ⟨bytes,found,run⟩ := bind_ok.mp run
  obtain ⟨_,same,run⟩ := bind_ok.mp run
  obtain ⟨node,decoded,run⟩ := bind_ok.mp run
  rw [mapError_ok] at decoded
  rw [required_ok] at found
  refine ⟨⟨bytes,node,found,ensure_ok.mp same,decoded⟩,?_⟩
  cases node with
  | leaf suffix valueHash =>
    have read : trie.fetchNode hash = .ok (.leaf suffix valueHash) := by
      rw [Trie.fetchNode,found,required_some,ok_bind,decoded]
      rfl
    rw [Trie.retainBelow] at run
    split at run
    · cases run
      exact good
    · obtain ⟨value,present,run⟩ := bind_ok.mp run
      obtain ⟨_,fitting,run⟩ := bind_ok.mp run
      cases run
      exact List.forall_mem_cons.mpr ⟨⟨⟨hash,suffix,reached,read⟩,value,required_ok.mp present,ensure_ok.mp fitting⟩,good⟩
  | branch left right | extension stem child =>
    cases run
    exact good

theorem retainRoots_exact (run : trie.retainRoots hasher roots = .ok after) : trie.Intact hasher roots ∧ ∃ nodes values,
    after = trie.keepOnly nodes values ∧ (∀ hash, hash ∈ nodes ↔ trie.Reaches roots hash) ∧
      ∀ hash, hash ∈ values ↔ trie.ReachesValue roots hash := by
  obtain ⟨⟨nodes,values⟩,swept,done⟩ := bind_ok.mp run
  cases done
  obtain ⟨met,closed⟩ := sweep_closed retain_expands swept (by simp)
  have known : ∀ hash, trie.Reaches roots hash → hash ∈ nodes := by
    intro hash reached
    induction reached with
    | root listed nonzero => exact (met _ (.inr (by simpa using listed))).resolve_left nonzero
    | child _ read below nonzero seen => exact closed_child closed seen read below nonzero
  have sound := sweep_sound (fun hash => hash = zeroHash ∨ trie.Reaches roots hash)
    (fun hash => trie.Reaches roots hash ∧ trie.SoundNode hasher hash)
    (fun values => ∀ valueHash ∈ values, trie.ReachesValue roots valueHash ∧ trie.SoundValue hasher valueHash)
    (fun hash values more later reached nonzero good expanded => by
      have reached := reached.resolve_left nonzero
      obtain ⟨sure,rest⟩ := retain_checks reached good expanded
      obtain ⟨⟨node,read,rfl,-⟩,-⟩ := retain_expands hash values more later expanded
      exact ⟨⟨reached,sure⟩,rest,reached.down read⟩)
    swept (fun hash stacked => roots_reached (by simpa using stacked)) (by simp) (by simp)
  have found : ∀ valueHash, trie.ReachesValue roots valueHash → valueHash ∈ values := by
    rintro valueHash ⟨hash,suffix,reached,read⟩
    obtain ⟨_,⟨node,again,-,leaf⟩,-⟩ := closed hash (known hash reached)
    rw [read] at again
    cases again
    exact leaf suffix valueHash rfl
  exact ⟨⟨fun hash reached => (sound.1 hash (known hash reached)).2,fun hash reached => (sound.2 hash (found hash reached)).2⟩,
    nodes,values,rfl,fun hash => ⟨fun seen => (sound.1 hash seen).1,known hash⟩,
    fun hash => ⟨fun seen => (sound.2 hash seen).1,found hash⟩⟩

theorem retain_intact (intact : trie.Intact hasher roots) (hash : Hash β) (values : List (Hash β)) (reached : trie.Reaches roots hash) :
    ∃ more later, trie.retain hasher hash values = .ok (more,later) ∧ more.length ≤ 2 ∧
      ∀ child ∈ more, child = zeroHash ∨ trie.Reaches roots child := by
  obtain ⟨bytes,node,found,same,decoded⟩ := intact.nodes hash reached
  have read : trie.fetchNode hash = .ok node := by
    rw [Trie.fetchNode,found,required_some,ok_bind,decoded]
    rfl
  have goes : ∃ later, trie.retain hasher hash values = .ok (node.children,later) := by
    rw [Trie.retain,found,required_some,ok_bind,ensure_pos same,ok_bind,decoded]
    cases node with
    | leaf suffix valueHash =>
      obtain ⟨value,present,fitting⟩ := intact.values valueHash ⟨hash,suffix,reached,read⟩
      by_cases known : valueHash ∈ values
      · exact ⟨values,if_pos known⟩
      · refine ⟨valueHash::values,(if_neg known).trans ?_⟩
        rw [present,required_some,ok_bind,ensure_pos fitting]
        rfl
    | branch left right => exact ⟨values,rfl⟩
    | extension stem child => exact ⟨values,rfl⟩
  obtain ⟨later,run⟩ := goes
  exact ⟨_,later,run,by cases node <;> simp [Node.children],reached.down read⟩

theorem retains_intact : (∃ after, trie.retainRoots hasher roots = .ok after) ↔ trie.Intact hasher roots :=
  ⟨fun ⟨_,run⟩ => (retainRoots_exact run).1,fun intact => retainRoots_total (retain_intact intact) fun _ => roots_reached⟩
end
open scoped Classical in
-- The part of a store that its roots lead to.
noncomputable def Trie.reached (trie : Trie β) (roots : List (Hash β)) : Trie β where
  nodes := only trie.nodes (decide <| trie.Reaches roots ·)
  values := only trie.values (decide <| trie.ReachesValue roots ·)
  pendingNodes := trie.pendingNodes.filter (decide <| trie.Reaches roots ·.1)
  pendingValues := trie.pendingValues.filter (decide <| trie.ReachesValue roots ·.1)
  root := trie.root

open scoped Classical in
theorem retainRoots_reached {hasher : Hasher β} {trie after : Trie β} {roots : List (Hash β)} :
    trie.retainRoots hasher roots = .ok after ↔ trie.Intact hasher roots ∧ after = trie.reached roots := by
  have whole {kept : Trie β} (run : trie.retainRoots hasher roots = .ok kept) : kept = trie.reached roots := by
    obtain ⟨-,nodes,values,rfl,same,also⟩ := retainRoots_exact run
    have nodesKept (hash : Hash β) : decide (hash ∈ nodes) = decide (trie.Reaches roots hash) := decide_eq_decide.mpr (same hash)
    have valuesKept (hash : Hash β) : decide (hash ∈ values) = decide (trie.ReachesValue roots hash) := decide_eq_decide.mpr (also hash)
    simp only [Trie.keepOnly,Trie.reached,nodesKept,valuesKept]
  refine ⟨fun run => ⟨(retainRoots_exact run).1,whole run⟩,?_⟩
  rintro ⟨intact,rfl⟩
  obtain ⟨kept,run⟩ := retains_intact.mpr intact
  rw [run,whole run]

-- Retention succeeds exactly on roots below which everything can be checked. The
-- source does not bound the reading loops, so they agree at every budget.
theorem pruning_exact (hasher : Hasher β) (trie : Trie β) (roots : List (Hash β)) :
    (∀ after, trie.retainRoots hasher roots = .ok after ↔ trie.Intact hasher roots ∧ after = trie.reached roots) ∧
    (∀ fault, trie.retainRoots hasher roots = .error fault → ∀ store drained,
      Persistence.step hasher ⟨trie,store,drained⟩ (.retain roots) = .ok ⟨trie,store,drained⟩) ∧
    ∀ after, trie.retainRoots hasher roots = .ok after → ∀ root ∈ trie.root::roots, ∀ budget,
      (∀ path, after.getFrom path budget root 0 = trie.getFrom path budget root 0) ∧
        after.collectKeys budget root [] = trie.collectKeys budget root [] ∧
        ∀ path, after.proveFrom path budget root 0 [] = trie.proveFrom path budget root 0 [] := by
  refine ⟨fun after => retainRoots_reached,fun fault failed store drained => by rw [Persistence.step,failed]; rfl,
    fun after run root listed budget => ?_⟩
  obtain ⟨intact,nodes,values,rfl,same,also⟩ := retainRoots_exact run
  have alike : Alike trie (· ∈ nodes) (trie.keepOnly nodes values) := by
    refine ⟨fun hash inside => ?_,fun hash suffix valueHash inside read => ?_⟩
    · obtain ⟨bytes,_,found,-⟩ := intact.nodes hash ((same hash).mp inside)
      have kept : (trie.keepOnly nodes values).nodes.lookup hash = some bytes := lookup_only.mpr ⟨found,decide_eq_true inside⟩
      rw [Trie.fetchNode,Trie.fetchNode,kept,found]
    · have met : trie.ReachesValue roots valueHash := ⟨hash,suffix,(same hash).mp inside,read⟩
      obtain ⟨value,found,-⟩ := intact.values valueHash met
      exact (lookup_only.mpr ⟨found,decide_eq_true ((also valueHash).mpr met)⟩).trans found.symm
  have closed (hash : Hash β) (node : Node β) (inside : hash ∈ nodes) (read : trie.fetchNode hash = .ok node) :
      ∀ child ∈ node.children, child = zeroHash ∨ child ∈ nodes :=
    fun child below => (((same hash).mp inside).down read child below).imp id (same child).mpr
  have within : root = zeroHash ∨ root ∈ nodes := (roots_reached listed).imp id (same root).mpr
  exact ⟨fun path => getFrom_alike alike closed within path budget 0,collectKeys_alike alike closed within budget [],
    fun path => proveFrom_alike alike closed within path budget 0 []⟩

def replacedTrie : Trie Symbol := ((Trie.new.calls spelledHasher [.insert [0] [1],.insert [0] [2]]).toOption.map Prod.fst).getD Trie.new

-- The replaced leaf goes; a root that was never stored refuses and changes nothing.
theorem replaced_leaf_pruned : (∃ after, replacedTrie.retainRoots spelledHasher [] = .ok after ∧
      after.nodes.entries.length < replacedTrie.nodes.entries.length ∧ after = replacedTrie.reached [] ∧
      ∀ path budget, after.getFrom path budget replacedTrie.root 0 = replacedTrie.getFrom path budget replacedTrie.root 0) ∧
    ∀ store drained, Persistence.step spelledHasher ⟨replacedTrie,store,drained⟩ (.retain [spelledHasher.hashValue [3]]) =
      .ok ⟨replacedTrie,store,drained⟩ := by
  have facts : (replacedTrie.retainRoots spelledHasher []).toOption.any (fun after =>
      decide (after.nodes.entries.length < replacedTrie.nodes.entries.length)) = true := by decide +kernel
  obtain ⟨after,done,fewer⟩ := completed_check facts
  obtain ⟨kept,-,reads⟩ := pruning_exact spelledHasher replacedTrie []
  refine ⟨⟨after,done,of_decide_eq_true fewer,((kept after).mp done).2,fun path budget => (reads after done _ List.mem_cons_self budget).1 path⟩,?_⟩
  have refused : (replacedTrie.retainRoots spelledHasher [spelledHasher.hashValue [3]]).toOption.isNone = true := by decide +kernel
  cases missing : replacedTrie.retainRoots spelledHasher [spelledHasher.hashValue [3]] with
  | ok =>
    rw [missing] at refused
    cases refused
  | error fault => exact (pruning_exact spelledHasher replacedTrie _).2.1 fault missing
end Neutrino.StateTrie
