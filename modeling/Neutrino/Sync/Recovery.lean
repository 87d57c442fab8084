import Neutrino.Sync.Exchange
import Neutrino.Sync.Reconstruct
import Neutrino.Trie.Persistence

-- Recovery of a download.

namespace Neutrino.StateSync
open Checks Bits Patricia StateTrie Tally
variable {β : Type} [Alphabet β] [DecidableEq β] {hasher : Hasher β} {map : StateMap} {full : Trie β}

-- Digests are right, everything below a node is there, extensions are proper.
structure Walkable (hasher : Hasher β) (held : Trie.Collected β) : Prop where
  nodes : ∀ hash text, held.nodes.lookup hash = some text → hasher.hashNode text = hash ∧
    ∃ node, Node.decode text = .ok node ∧ match node with
      | .leaf _ valueHash => ∃ value, held.values.lookup valueHash = some value ∧ hasher.hashValue value = valueHash
      | .branch left right => (held.nodes.lookup left).isSome ∧ (held.nodes.lookup right).isSome
      | .extension prefixPath child => ¬(prefixPath.length = 0 ∨ child = zeroHash) ∧ (held.nodes.lookup child).isSome

section
variable {κ ν ρ : Type} [DecidableEq κ] {inner : AList fun _ : κ => ν} {outer : AList fun _ : κ => ρ}

theorem keys_room (inside : ∀ query, (inner.lookup query).isSome → (outer.lookup query).isSome)
    (fresh : ¬(inner.lookup key).isSome) (present : (outer.lookup key).isSome) : inner.entries.length < outer.entries.length := by
  have nodup : (key::inner.keys).Nodup := List.nodup_cons.mpr ⟨fun listed => fresh (AList.lookup_isSome.mpr listed),inner.keys_nodup⟩
  have subset : key::inner.keys ⊆ outer.keys := by
    intro query listed
    rcases List.mem_cons.mp listed with rfl | listed
    · exact AList.lookup_isSome.mp present
    · exact AList.lookup_isSome.mp (inside query (AList.lookup_isSome.mpr listed))
  have bound := (nodup.subperm subset).length_le
  simp only [AList.keys,List.keys,List.length_map,List.length_cons] at bound
  omega
end
section
variable {held out : Trie.Collected β} {pending : List (Hash β)}

theorem authenticateValue_succeeds (out : Trie.Collected β) (found : held.values.lookup valueHash = some value)
    (right : hasher.hashValue value = valueHash) :
    ∃ more, authenticateValue hasher (fun hash => required (held.values.lookup hash) .stateUnavailable) out valueHash = .ok more ∧
      more.nodes = out.nodes := by
  rw [authenticateValue]
  split
  · exact ⟨out,rfl,rfl⟩
  · rw [found,required_some,ok_bind,ensure_pos right,ok_bind]
    exact ⟨_,rfl,rfl⟩

theorem authenticateFrom_succeeds (walkable : Walkable hasher held)
    (known : ∀ hash ∈ pending, hash = zeroHash ∨ (held.nodes.lookup hash).isSome)
    (inside : ∀ hash, (out.nodes.lookup hash).isSome → (held.nodes.lookup hash).isSome)
    (enough : pending.length + 2 * (held.nodes.entries.length - out.nodes.entries.length) ≤ count) :
    ∃ result, authenticateFrom hasher (fun hash => required (held.nodes.lookup hash) .stateUnavailable)
      (fun hash => required (held.values.lookup hash) .stateUnavailable) count pending out = .ok result := by
  induction count generalizing pending out with
  | zero =>
    cases pending with
    | nil => exact ⟨out,rfl⟩
    | cons hash rest => simp at enough
  | succ count ih =>
    cases pending with
    | nil => exact ⟨out,rfl⟩
    | cons hash rest =>
      rw [List.length_cons] at enough
      rw [authenticateFrom]
      split
      · exact ih (fun other listed => known other (by simp [listed])) inside (by omega)
      · rename_i new
        rw [not_or] at new
        have present := (known hash (by simp)).resolve_left new.1
        have room := keys_room inside new.2 present
        obtain ⟨text,found⟩ := Option.isSome_iff_exists.mp present
        obtain ⟨right,node,decoded,below⟩ := walkable.nodes hash text found
        have entered (more : Trie.Collected β) (same : more.nodes = out.nodes) :
            (∀ query, (({ more with nodes := more.nodes.insert hash text } : Trie.Collected β).nodes.lookup query).isSome →
              (held.nodes.lookup query).isSome) ∧
            (more.nodes.insert hash text).entries.length = out.nodes.entries.length + 1 := by
          constructor
          · intro query
            by_cases here : query = hash
            · exact fun _ => here ▸ present
            · rw [AList.lookup_insert_ne here,same]
              exact inside query
          · rw [same,AList.entries_insert_of_notMem (mt AList.lookup_isSome.mpr new.2),List.length_cons]
        rw [found,required_some,ok_bind,ensure_pos right,ok_bind,decoded,Except.mapError,ok_bind]
        cases node with
        | leaf path valueHash =>
          obtain ⟨value,stored,named⟩ := below
          obtain ⟨more,ran,same⟩ := authenticateValue_succeeds out stored named
          obtain ⟨kept,size⟩ := entered more same
          simp only
          rw [ran,ok_bind]
          exact ih (fun other listed => known other (by simp [listed])) kept (by rw [size]; omega)
        | branch left right =>
          obtain ⟨kept,size⟩ := entered out rfl
          refine ih (fun other listed => ?_) kept (by rw [size,List.length_cons,List.length_cons]; omega)
          rcases List.mem_cons.mp listed with rfl | listed
          · exact .inr below.2
          rcases List.mem_cons.mp listed with rfl | listed
          · exact .inr below.1
          · exact known other (by simp [listed])
        | extension prefixPath child =>
          obtain ⟨kept,size⟩ := entered out rfl
          simp only
          rw [ensure_pos below.1,ok_bind]
          refine ih (fun other listed => ?_) kept (by rw [size,List.length_cons]; omega)
          rcases List.mem_cons.mp listed with rfl | listed
          · exact .inr below.2
          · exact known other (by simp [listed])
end

theorem completedObjects_ok (stored : ∀ object ∈ objects, (rows.lookup (storageKey root object)).isSome) (out : Trie.Collected β) :
    ∃ held, completedObjects root rows objects out = .ok held ∧
      ∀ object, object ∈ objects ∨ (heldContent out object).isSome → (heldContent held object).isSome := by
  induction objects generalizing out with
  | nil => exact ⟨out,rfl,fun object present => present.resolve_left List.not_mem_nil⟩
  | cons first rest ih =>
    obtain ⟨kind,digest⟩ := first
    obtain ⟨bytes,found⟩ := Option.isSome_iff_exists.mp (stored (kind,digest) (by simp))
    obtain ⟨held,ran,has⟩ := ih (fun object listed => stored object (by simp [listed])) (addObject out kind digest bytes)
    refine ⟨held,?_,fun object present => has object ?_⟩
    · rw [completedObjects,found,required_some,ok_bind]
      exact ran
    · by_cases same : object = (kind,digest)
      · subst same
        exact .inr (by rw [heldContent_add]; rfl)
      · rw [heldContent_add_ne out bytes same]
        exact present.imp (fun listed => (List.mem_cons.mp listed).resolve_left same) id

section
variable (injective : hasher.Injective) (never : hasher.NeverZero)
include injective never in
theorem met_subtrees (fits : Fits offset tree)
    (closed : Entered out [] out) (checked : ∀ hash text, out.nodes.lookup hash = some text → hasher.hashNode text = hash)
    (met : Met [] out (.node,hasher.root tree)) (inside : sub ∈ tree.subtrees) :
    Met [] out (.node,hasher.root sub) ∧ ∀ object ∈ children (hasher.top sub), Met [] out object := by
  have below {sub : BitTree (List Byte)} {offset : Nat} (fit : Fits offset sub) (met : Met [] out (.node,hasher.root sub)) :
      ∀ object ∈ children (hasher.top sub), Met [] out object :=
    (met_children injective fit closed checked (root_nonzero never) met).2
  induction tree generalizing offset with
  | leaf suffix value =>
    rw [BitTree.subtrees,List.mem_singleton] at inside
    subst inside
    exact ⟨met,below fits met⟩
  | fork stem left right onLeft onRight =>
    have forked : Met [] out (.node,hasher.root (.fork [] left right)) := by
      by_cases none : stem = []
      · exact none ▸ met
      · exact below fits met _ (by simp [Hasher.top,none,children])
    have sides := below fits.below forked
    simp only [Hasher.top,if_true,children,List.mem_cons,List.not_mem_nil,or_false,forall_eq_or_imp,forall_eq] at sides
    simp only [BitTree.subtrees,List.mem_cons,List.mem_append] at inside
    obtain rfl | rfl | deep | deep := inside
    · exact ⟨met,below fits met⟩
    · exact ⟨forked,below fits.below forked⟩
    · exact onLeft (fits.side false) sides.1 deep
    · exact onRight (fits.side true) sides.2 deep

variable {download : Download β}
include injective never in
theorem finished_walkable (fits : AllFit map)
    (durably : Durable hasher map download rows) (faithful : Faithful hasher map download rows) (ended : download.pending = [])
    {held : Trie.Collected β} (rowed : ∀ object content, heldContent held object = some content →
      object ∈ download.completed ∧ rows.lookup (storageKey download.root object) = some content)
    (has : ∀ object ∈ download.completed, (heldContent held object).isSome) : Walkable hasher held := by
  refine ⟨fun hash text found => ?_⟩
  obtain ⟨finished,row⟩ := rowed (.node,hash) text found
  have right (object : StateItemKind × Hash β) (content : List (Content β object.1))
      (present : heldContent held object = some content) : hashContent hasher object.1 content = object.2 := by
    obtain ⟨finished,row⟩ := rowed object content present
    exact durably.right finished row
  have digest : hasher.hashNode text = hash := right (.node,hash) text found
  obtain ⟨content,genuine,same⟩ := durably.named _ (.inl finished)
  have whole : text = content := injective.node (digest.trans same.symm)
  rw [← whole] at genuine
  have below (object : StateItemKind × Hash β) (child : object ∈ objectsWithin .node text) :
      object = (.node,zeroHash) ∨ (heldContent held object).isSome := by
    refine (faithful.below _ finished text row object child).imp id fun lists => has object ?_
    rcases lists with done | ⟨item,listed,_⟩
    · exact done
    · rw [ended] at listed
      cases listed
  obtain ⟨tree,member,sub,inside,rfl⟩ := genuine
  obtain ⟨offset,fit⟩ := fits_subtree (fits_tree fits member) inside
  have packed : (hasher.top sub).Packed := top_packed fit
  have decoded := Node.decode_encode packed
  rw [objectsWithin_node decoded] at below
  refine ⟨digest,hasher.top sub,decoded,?_⟩
  have nodeBelow (other : BitTree (List Byte)) (child : (.node,hasher.root other) ∈ children (hasher.top sub)) :
      (held.nodes.lookup (hasher.root other)).isSome :=
    (below (.node,hasher.root other) child).resolve_left fun zero => root_nonzero never (congrArg Prod.snd zero)
  cases sub with
  | leaf suffix value =>
    have present := (below (.value,hasher.hashValue value) (by simp [Hasher.top,Hasher.leaf,children])).resolve_left (by simp)
    obtain ⟨bytes,stored⟩ := Option.isSome_iff_exists.mp present
    exact ⟨bytes,stored,right (.value,hasher.hashValue value) bytes stored⟩
  | fork stem left right =>
    have short := fit.short_stem
    by_cases none : stem = []
    · simp only [Hasher.top,if_pos none]
      exact ⟨nodeBelow left (by simp [Hasher.top,none,children]),nodeBelow right (by simp [Hasher.top,none,children])⟩
    · simp only [Hasher.top,if_neg none]
      refine ⟨?_,nodeBelow (.fork [] left right) (by simp [Hasher.top,none,children])⟩
      rintro (empty | zero)
      · rw [BitPath.length_ofBits (by omega)] at empty
        exact none (List.length_eq_zero_iff.mp empty)
      · exact root_nonzero never zero

variable {store : DownloadStore β}
include injective never in
theorem reconstructed_ok (represents : Represents hasher full map)
    (trusted : Trusted hasher map full.root store) (loaded : load store full.root = .ok download)
    (ended : download.pending = []) : ∃ trie, reconstructedState hasher store full.root = .ok trie := by
  have faithful := load_faithful represents.root trusted loaded
  obtain ⟨rooted,durably⟩ := load_durable represents.root trusted.sound loaded
  have stored (object : StateItemKind × Hash β) (finished : object ∈ download.completed) :
      (store.fragments.lookup (storageKey full.root object)).isSome := by
    obtain ⟨bytes,stored,_⟩ := durably.done object finished
    rw [← rooted,stored]
    rfl
  obtain ⟨held,collected,has⟩ := completedObjects_ok stored ⟨∅,∅⟩
  have rowed (object : StateItemKind × Hash β) (content : List (Content β object.1)) (present : heldContent held object = some content) :
      object ∈ download.completed ∧ store.fragments.lookup (storageKey download.root object) = some content := by
    rcases completedObjects_held collected object content present with none | both
    · obtain ⟨_ | _,_⟩ := object <;> cases none
    · rwa [rooted]
  have holds (object : StateItemKind × Hash β) (finished : object ∈ download.completed) : (heldContent held object).isSome :=
    has object (.inl finished)
  have walkable := finished_walkable injective never represents.fits durably faithful ended rowed holds
  have rootHeld : full.root = zeroHash ∨ (held.nodes.lookup full.root).isSome := by
    rcases faithful.top with zero | finished | ⟨item,listed,_⟩
    · exact .inl (rooted ▸ zero)
    · exact .inr (rooted ▸ holds _ finished)
    · rw [ended] at listed
      cases listed
  obtain ⟨result,walked⟩ : ∃ result, authenticateState hasher full.root held = .ok result :=
    authenticateFrom_succeeds walkable (by simpa using rootHeld) (by simp) (by simp; omega)
  obtain ⟨closed,met⟩ := authenticateState_closed walked
  have again : Entered result [] result := ⟨fun hash text found => ⟨found,(closed.nodes hash text found).2⟩,fun _ _ => id⟩
  have checked (hash : Hash β) (text : List β) (found : result.nodes.lookup hash = some text) : hasher.hashNode text = hash :=
    (walkable.nodes hash text (closed.nodes hash text found).1).1
  -- Whatever is held is an object of the tree, and the walk has met all of those.
  have reached (object : StateItemKind × Hash β) (present : (heldContent held object).isSome) : Met [] result object := by
    obtain ⟨content,found⟩ := Option.isSome_iff_exists.mp present
    have named := durably.named object (.inl (rowed object content found).1)
    cases whole : canonicalTree map with
    | none =>
      rw [whole] at named
      exact absurd (mem_objectsOf.mpr named) (by simp [objectsOf])
    | some tree =>
      rw [represents.root,whole] at met
      rw [whole,← mem_objectsOf,objectsOf,List.mem_dedup] at named
      obtain ⟨sub,inside,here⟩ := List.mem_flatMap.mp named
      obtain ⟨subMet,childrenMet⟩ := met_subtrees injective never (fits_tree represents.fits whole) again checked met inside
      rcases List.mem_cons.mp here with rfl | value
      · exact subMet
      · cases sub with
        | leaf suffix bytes =>
          rw [List.mem_singleton] at value
          exact childrenMet object (by rw [value]; simp [Hasher.top,Hasher.leaf,children])
        | fork => cases value
  have nodes : result.nodes.entries.length = held.nodes.entries.length := by
    refine le_antisymm (keys_le fun hash present => ?_) (keys_le fun hash present => ?_)
    · obtain ⟨text,found⟩ := Option.isSome_iff_exists.mp present
      rw [(closed.nodes hash text found).1]
      rfl
    · obtain ⟨text,found⟩ := Option.isSome_iff_exists.mp present
      have nonzero : hash ≠ zeroHash := fun zero => never text ((walkable.nodes hash text found).1.trans zero)
      exact ((reached (.node,hash) present).resolve_left nonzero).resolve_left List.not_mem_nil
  have values : result.values.entries.length = held.values.entries.length := by
    refine le_antisymm (keys_le fun hash present => ?_) (keys_le fun hash present => reached (.value,hash) present)
    obtain ⟨bytes,found⟩ := Option.isSome_iff_exists.mp present
    rw [closed.values hash bytes found]
    rfl
  rw [reconstructedState,loaded,ok_bind,ensure_pos ended,ok_bind,collected,ok_bind,walked,Except.mapError,ok_bind,
    ensure_pos ⟨nodes,values⟩,ok_bind]
  exact ⟨_,rfl⟩

include injective in
theorem exchanges_ok (represents : Represents hasher full map) (affordable : Affordable hasher full map)
    (trusted : Trusted hasher map full.root store) (count : Nat) : ∃ after, exchanges hasher full full.root count store = .ok after := by
  induction count generalizing store with
  | zero => exact ⟨store,rfl⟩
  | succ count ih =>
    obtain ⟨download,loaded⟩ := load_ok represents affordable trusted
    obtain ⟨after,written,ran,next,_⟩ := exchange_ok represents affordable injective trusted loaded
    obtain ⟨last,others⟩ := ih next
    exact ⟨last,bind_ok.mpr ⟨_,ran,others⟩⟩

theorem reached_le (represents : Represents hasher full map)
    (durably : Durable hasher map download rows) (faithful : Faithful hasher map download rows) :
    download.reached ≤ totalBytes hasher full map + (objectsOf hasher (canonicalTree map)).length := by
  have count := listed_length durably faithful.once [] List.nodup_nil (by simp) (by simp)
  have stored := storedBytes_le represents download.root faithful.fronts
  rw [← durably.counted] at stored
  rw [List.length_nil] at count
  unfold Download.reached
  omega

-- Each exchange brings the end closer, so finitely many leave nothing pending.
include injective in
theorem exchanges_finish (represents : Represents hasher full map) (affordable : Affordable hasher full map) (left : Nat)
    (trusted : Trusted hasher map full.root store) (loaded : load store full.root = .ok download)
    (near : totalBytes hasher full map + (objectsOf hasher (canonicalTree map)).length ≤ download.reached + left) :
    ∃ count after last, exchanges hasher full full.root count store = .ok after ∧ Trusted hasher map full.root after ∧
      load after full.root = .ok last ∧ last.pending = [] := by
  induction left generalizing store download with
  | zero =>
    refine ⟨0,store,download,rfl,trusted,loaded,?_⟩
    obtain ⟨after,written,_,⟨rooted,durably,faithful⟩,further⟩ := exchange_ok represents affordable injective trusted loaded
    have most := reached_le represents durably faithful
    have none : download.next.length = 0 := by omega
    have limit : 0 < maxStateItems := by decide
    rw [Download.next,List.length_take] at none
    exact List.length_eq_zero_iff.mp (by omega)
  | succ left ih =>
    by_cases ended : download.pending = []
    · exact ⟨0,store,download,rfl,trusted,loaded,ended⟩
    obtain ⟨after,written,ran,next,further⟩ := exchange_ok represents affordable injective trusted loaded
    have some : 0 < download.next.length := by
      have limit : 0 < maxStateItems := by decide
      have length := List.length_pos_iff.mpr ended
      rw [Download.next,List.length_take]
      omega
    obtain ⟨reloaded,again⟩ := load_ok represents affordable next
    have same : reloaded = after := by
      simp only [load,bind_ok,ensure_ok,pure_ok] at again
      obtain ⟨_,_,_,_,_,_,rfl⟩ := again
      rfl
    obtain ⟨count,last,final,others,trusted,loaded,ended⟩ := ih next again (by rw [same]; omega)
    exact ⟨count+1,last,final,bind_ok.mpr ⟨_,ran,others⟩,trusted,loaded,ended⟩
end

-- Download recovery: when no stored piece was forged, exchanges with a peer that holds
-- the state succeed, and finitely many leave a state that can be reconstructed.
theorem fair_download_recovers (injective : hasher.Injective) (never : hasher.NeverZero) {full : Trie β} {map : StateMap}
    (represents : Represents hasher full map) (affordable : Affordable hasher full map) {events : List (DownloadEvent β)}
    (fair : ∀ event ∈ events, event.Fair hasher map) :
    (∀ count, ∃ after, exchanges hasher full full.root count (downloadRun hasher full.root events) = .ok after) ∧
      ∃ count after trie, exchanges hasher full full.root count (downloadRun hasher full.root events) = .ok after ∧
        stateDownloadItems after full.root = .ok [] ∧ reconstructedState hasher after full.root = .ok trie := by
  have trusted := run_trusted injective represents.fits represents.root fair
  refine ⟨exchanges_ok injective represents affordable trusted,?_⟩
  obtain ⟨download,loaded⟩ := load_ok represents affordable trusted
  obtain ⟨count,after,last,ran,trusted,loaded,ended⟩ :=
    exchanges_finish injective represents affordable _ trusted loaded (Nat.le_add_left _ _)
  obtain ⟨trie,rebuilt⟩ := reconstructed_ok injective never represents trusted loaded ended
  refine ⟨count,after,trie,ran,?_,rebuilt⟩
  rw [stateDownloadItems,loaded,ok_bind,Download.next,ended]
  rfl

def leafMap : StateMap := (StateMap.calls ∅ [.insert [0] [1]]).1
def leafTrie : Trie Symbol := ((Trie.new.calls spelledHasher [.insert [0] [1]]).toOption.map Prod.fst).getD Trie.new

theorem leaf_represented : Represents spelledHasher leafTrie leafMap ∧ Affordable spelledHasher leafTrie leafMap := by
  have fit : ∀ call ∈ [StateTrie.Call.insert [0] [1]], KeyFits call.key := by decide
  obtain ⟨full,run,represents⟩ := calls_represent spelledHasher_injective spelledHasher_neverZero fit (new_represents _)
  have same : leafTrie = full := by
    rw [leafTrie,run]
    rfl
  have tree : canonicalTree leafMap = some leafTree := by decide +kernel
  refine ⟨same ▸ represents,?_,?_,?_⟩
  · rw [tree]
    decide +kernel
  · rw [totalBytes,tree]
    decide +kernel
  · rw [tree]
    decide +kernel

def refusal (outcome : Except SyncBackendError α) : Option SyncBackendError :=
  match outcome with
  | .error error => some error
  | .ok _ => none

-- Sixty wrong symbols, said to be of a hundred: the download waits at an offset no
-- peer serves.
def forgedEvents : List (DownloadEvent Symbol) := [.receive [leafNode 0] [⟨leafNode 0,100,List.replicate 60 .blank,by decide⟩]]

theorem forged_piece_blocks : Represents spelledHasher leafTrie leafMap ∧ Affordable spelledHasher leafTrie leafMap ∧
    stateDownloadItems (downloadRun spelledHasher leafTrie.root forgedEvents) leafTrie.root = .ok [leafNode 60] ∧
    p2pStateNodes spelledHasher leafTrie leafTrie.root [leafNode 60] = .error (.invalidRequest "state offset exceeds object") := by
  obtain ⟨represents,affordable⟩ := leaf_represented
  refine ⟨represents,affordable,?_,?_⟩
  · have items : (stateDownloadItems (downloadRun spelledHasher leafTrie.root forgedEvents) leafTrie.root).toOption =
        some [leafNode 60] := by decide +kernel
    cases outcome : stateDownloadItems (downloadRun spelledHasher leafTrie.root forgedEvents) leafTrie.root with
    | error error =>
      rw [outcome] at items
      cases items
    | ok found =>
      rw [outcome] at items
      exact congrArg _ (Option.some.inj items)
  · have refused : refusal (p2pStateNodes spelledHasher leafTrie leafTrie.root [leafNode 60]) =
        some (.invalidRequest "state offset exceeds object") := by decide +kernel
    cases outcome : p2pStateNodes spelledHasher leafTrie leafTrie.root [leafNode 60] with
    | error error =>
      rw [outcome] at refused
      exact congrArg _ (Option.some.inj refused)
    | ok found =>
      rw [outcome] at refused
      cases refused

theorem blank_short : ([Symbol.blank,.blank] : List Symbol).length ≤ maxStateFragmentBytes := by decide
def droppedEvents : List (DownloadEvent Symbol) := [.receive [leafNode 0] [⟨leafNode 0,2,[.blank,.blank],blank_short⟩],.restart]

theorem dropped_object_recovers : (∀ event ∈ droppedEvents, event.Fair spelledHasher leafMap) ∧
      ∃ count after trie, exchanges spelledHasher leafTrie leafTrie.root count
          (downloadRun spelledHasher leafTrie.root droppedEvents) = .ok after ∧
        stateDownloadItems after leafTrie.root = .ok [] ∧ reconstructedState spelledHasher after leafTrie.root = .ok trie := by
  have fair : ∀ event ∈ droppedEvents, event.Fair spelledHasher leafMap := by
    intro event listed
    simp only [droppedEvents,List.mem_cons,List.not_mem_nil,or_false] at listed
    obtain rfl | rfl := listed
    · intro entry listed
      rw [List.mem_singleton] at listed
      exact .inl (by rw [listed]; rfl)
    · trivial
  obtain ⟨represents,affordable⟩ := leaf_represented
  exact ⟨fair,(fair_download_recovers spelledHasher_injective spelledHasher_neverZero represents affordable fair).2⟩
end Neutrino.StateSync
