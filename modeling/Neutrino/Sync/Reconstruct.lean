import Neutrino.Sync.Receive
import Neutrino.Trie.Collected

-- A reconstructed trie has the content the root commits to: the walk has met every
-- object below the root, each with the content of its digest.

namespace Neutrino.StateSync
open Checks Bits Patricia StateTrie Tally Lockstep
variable {β : Type} [Alphabet β] [DecidableEq β] {hasher : Hasher β}

def Met (pending : List (Hash β)) (out : Trie.Collected β) : StateItemKind × Hash β → Prop
  | (.node,hash) => hash = zeroHash ∨ hash ∈ pending ∨ (out.nodes.lookup hash).isSome
  | (.value,hash) => (out.values.lookup hash).isSome

structure Entered (held : Trie.Collected β) (pending : List (Hash β)) (out : Trie.Collected β) : Prop where
  nodes : ∀ hash text, out.nodes.lookup hash = some text → held.nodes.lookup hash = some text ∧
    ∃ node, Node.decode text = .ok node ∧ ∀ object ∈ children node, Met pending out object
  values : ∀ hash bytes, out.values.lookup hash = some bytes → held.values.lookup hash = some bytes

def Onward (pending : List (Hash β)) (out : Trie.Collected β) (later : List (Hash β)) (more : Trie.Collected β) : Prop :=
  ∀ object, Met pending out object → Met later more object

section
variable {held out more : Trie.Collected β} {pending : List (Hash β)} {hash : Hash β}

theorem isSome_insert [DecidableEq κ] {ν : κ → Type} {rows : AList ν} {key query : κ} {value : ν key}
    (present : (rows.lookup query).isSome) : ((rows.insert key value).lookup query).isSome := by
  by_cases same : query = key
  · subst same
    rw [AList.lookup_insert]
    rfl
  · rwa [AList.lookup_insert_ne same]

theorem isSome_inserted [DecidableEq κ] {ν : κ → Type} {rows : AList ν} {key : κ} {value : ν key} :
    ((rows.insert key value).lookup key).isSome := by
  rw [AList.lookup_insert]
  rfl

theorem onward_skip (known : hash = zeroHash ∨ (out.nodes.lookup hash).isSome) : Onward (hash::pending) out pending out := by
  rintro ⟨_ | _,query⟩ met
  · rcases met with zero | listed | present
    · exact .inl zero
    · rcases List.mem_cons.mp listed with rfl | later
      · exact known.imp id .inr
      · exact .inr (.inl later)
    · exact .inr (.inr present)
  · exact met

theorem onward_node {text : List β} (below : List (Hash β))
    (values : ∀ query, (out.values.lookup query).isSome → (more.values.lookup query).isSome) (same : more.nodes = out.nodes) :
    Onward (hash::pending) out (below ++ pending) { more with nodes := more.nodes.insert hash text } := by
  rintro ⟨_ | _,query⟩ met
  · rcases met with zero | listed | present
    · exact .inl zero
    · rcases List.mem_cons.mp listed with rfl | later
      · exact .inr (.inr isSome_inserted)
      · exact .inr (.inl (List.mem_append_right _ later))
    · exact .inr (.inr (isSome_insert (same ▸ present)))
  · exact values query met

theorem Entered.skip (entered : Entered held (hash::pending) out) (known : hash = zeroHash ∨ (out.nodes.lookup hash).isSome) :
    Entered held pending out := by
  refine ⟨fun query text found => ?_,entered.values⟩
  obtain ⟨present,node,decoded,below⟩ := entered.nodes query text found
  exact ⟨present,node,decoded,fun object child => onward_skip known object (below object child)⟩

theorem Entered.node {node : Node β} (below : List (Hash β)) (entered : Entered held (hash::pending) out)
    (present : held.nodes.lookup hash = some text) (decoded : Node.decode text = .ok node)
    (values : ∀ query, (out.values.lookup query).isSome → (more.values.lookup query).isSome) (same : more.nodes = out.nodes)
    (kept : ∀ query bytes, more.values.lookup query = some bytes → held.values.lookup query = some bytes)
    (met : ∀ object ∈ children node, Met (below ++ pending) { more with nodes := more.nodes.insert hash text } object) :
    Entered held (below ++ pending) { more with nodes := more.nodes.insert hash text } := by
  refine ⟨fun query other found => ?_,kept⟩
  obtain ⟨rfl,rfl⟩ | ⟨_,found⟩ := lookup_insert_ok found
  · exact ⟨present,node,decoded,met⟩
  · rw [same] at found
    obtain ⟨known,other,read,under⟩ := entered.nodes query _ found
    exact ⟨known,other,read,fun object child => onward_node below values same object (under object child)⟩

theorem authenticateValue_ok {valueHash : Hash β}
    (kept : ∀ query bytes, out.values.lookup query = some bytes → held.values.lookup query = some bytes)
    (ran : authenticateValue hasher (fun hash => required (held.values.lookup hash) .stateUnavailable) out valueHash = .ok more) :
    more.nodes = out.nodes ∧ (more.values.lookup valueHash).isSome ∧
      (∀ query, (out.values.lookup query).isSome → (more.values.lookup query).isSome) ∧
      ∀ query bytes, more.values.lookup query = some bytes → held.values.lookup query = some bytes := by
  rw [authenticateValue] at ran
  split at ran
  · rename_i present
    cases ran
    exact ⟨rfl,present,fun _ => id,kept⟩
  · simp only [bind_ok,required_ok,ensure_ok,pure_ok] at ran
    obtain ⟨value,found,_,_,rfl⟩ := ran
    refine ⟨rfl,isSome_inserted,fun _ => isSome_insert,fun query bytes present => ?_⟩
    obtain ⟨rfl,rfl⟩ | ⟨_,present⟩ := lookup_insert_ok present
    · exact found
    · exact kept query bytes present

theorem authenticateFrom_closed {result : Trie.Collected β} (entered : Entered held pending out)
    (ran : authenticateFrom hasher (fun hash => required (held.nodes.lookup hash) .stateUnavailable)
      (fun hash => required (held.values.lookup hash) .stateUnavailable) count pending out = .ok result) :
    Entered held [] result ∧ ∀ object, Met pending out object → Met [] result object := by
  induction count generalizing pending out with
  | zero =>
    cases pending with
    | nil =>
      cases ran
      exact ⟨entered,fun _ => id⟩
    | cons hash rest => cases ran
  | succ count ih =>
    cases pending with
    | nil =>
      cases ran
      exact ⟨entered,fun _ => id⟩
    | cons hash rest =>
      rw [authenticateFrom] at ran
      split at ran
      · rename_i known
        obtain ⟨closed,onward⟩ := ih (entered.skip known) ran
        exact ⟨closed,fun object met => onward object (onward_skip known object met)⟩
      · simp only [bind_ok,required_ok,ensure_ok,mapError_ok] at ran
        obtain ⟨text,present,_,_,node,decoded,ran⟩ := ran
        cases node with
        | leaf path valueHash =>
          obtain ⟨more,ran,rest⟩ := bind_ok.mp ran
          obtain ⟨same,here,values,kept⟩ := authenticateValue_ok entered.values ran
          have next := entered.node [] present decoded values same kept fun object child => by
            rw [children,List.mem_singleton] at child
            exact child ▸ here
          obtain ⟨closed,onward⟩ := ih next rest
          exact ⟨closed,fun object met => onward object (onward_node [] values same object met)⟩
        | branch left right =>
          have next := entered.node [right,left] present decoded (fun _ => id) rfl entered.values fun object child => by
              simp only [children,List.mem_cons,List.not_mem_nil,or_false] at child
              obtain rfl | rfl := child <;> exact .inr (.inl (by simp))
          obtain ⟨closed,onward⟩ := ih next ran
          exact ⟨closed,fun object met => onward object (onward_node [right,left] (fun _ => id) rfl object met)⟩
        | extension prefixPath child =>
          simp only [bind_ok,ensure_ok] at ran
          obtain ⟨_,_,ran⟩ := ran
          have next := entered.node [child] present decoded (fun _ => id) rfl entered.values fun object listed => by
              rw [children,List.mem_singleton] at listed
              exact listed ▸ .inr (.inl (by simp))
          obtain ⟨closed,onward⟩ := ih next ran
          exact ⟨closed,fun object met => onward object (onward_node [child] (fun _ => id) rfl object met)⟩

theorem authenticateState_closed (ran : authenticateState hasher root held = .ok result) :
    Entered held [] result ∧ Met [] result (.node,root) := by
  have start : Entered held [root] ⟨∅,∅⟩ := ⟨by simp,by simp⟩
  obtain ⟨closed,onward⟩ := authenticateFrom_closed start ran
  exact ⟨closed,onward (.node,root) (.inr (.inl (by simp)))⟩
end

theorem heldContent_add (out : Trie.Collected β) (kind : StateItemKind) (hash : Hash β) (content : List (Content β kind)) :
    heldContent (addObject out kind hash content) (kind,hash) = some content := by
  cases kind <;> exact AList.lookup_insert _

theorem heldContent_add_ne (out : Trie.Collected β) {kind : StateItemKind} {hash : Hash β} (content : List (Content β kind))
    (differs : object ≠ (kind,hash)) : heldContent (addObject out kind hash content) object = heldContent out object := by
  obtain ⟨other,digest⟩ := object
  cases kind <;> cases other
  case node.node | value.value => exact AList.lookup_insert_ne fun same => differs (by rw [same])
  all_goals rfl

theorem completedObjects_held {root : Hash β} {rows : Fragments β}
    {out held : Trie.Collected β} (ran : completedObjects root rows objects out = .ok held) (object : StateItemKind × Hash β)
    (content : List (Content β object.1)) (present : heldContent held object = some content) :
    heldContent out object = some content ∨ object ∈ objects ∧ rows.lookup (storageKey root object) = some content := by
  induction objects generalizing out with
  | nil =>
    cases ran
    exact .inl present
  | cons first rest ih =>
    obtain ⟨kind,digest⟩ := first
    simp only [completedObjects,bind_ok,required_ok] at ran
    obtain ⟨bytes,found,ran⟩ := ran
    rcases ih ran with earlier | ⟨later,row⟩
    · by_cases same : object = (kind,digest)
      · subst same
        rw [heldContent_add] at earlier
        cases earlier
        exact .inr ⟨by simp,found⟩
      · rw [heldContent_add_ne out bytes same] at earlier
        exact .inl earlier
    · exact .inr ⟨by simp [later],row⟩

section
variable (injective : hasher.Injective) {map : StateMap} {trie : Trie β}
include injective in
theorem met_children (fit : Fits offset sub)
    (closed : Entered out [] out) (checked : ∀ hash text, out.nodes.lookup hash = some text → hasher.hashNode text = hash)
    (nonzero : hasher.root sub ≠ zeroHash) (met : Met [] out (.node,hasher.root sub)) :
    out.nodes.lookup (hasher.root sub) = some (hasher.top sub).encode ∧ ∀ object ∈ children (hasher.top sub), Met [] out object := by
  obtain ⟨text,found⟩ := Option.isSome_iff_exists.mp ((met.resolve_left nonzero).resolve_left List.not_mem_nil)
  obtain ⟨_,node,decoded,below⟩ := closed.nodes _ _ found
  have same : text = (hasher.top sub).encode := injective.node ((checked _ _ found).trans (root_top hasher sub))
  rw [same,Node.decode_encode (top_packed fit)] at decoded
  cases decoded
  exact ⟨same ▸ found,below⟩

include injective in
theorem met_covered (fits : Fits 0 tree)
    (closed : Entered out [] out) (checked : ∀ hash text, out.nodes.lookup hash = some text → hasher.hashNode text = hash)
    (genuine : ∀ hash bytes, out.values.lookup hash = some bytes → hasher.hashValue bytes = hash)
    (stores : ∀ hash text, out.nodes.lookup hash = some text → trie.nodes.lookup hash = some text)
    (storesValue : ∀ hash bytes, out.values.lookup hash = some bytes → trie.values.lookup hash = some bytes)
    (inside : sub ∈ tree.subtrees) (met : Met [] out (.node,hasher.root sub)) (path : List Bool) :
    Covered hasher trie False path (hasher.root sub) := by
  have here {sub : BitTree (List Byte)} (inside : sub ∈ tree.subtrees) (some : hasher.root sub ≠ zeroHash)
      (met : Met [] out (.node,hasher.root sub)) :
      trie.Stores hasher (hasher.top sub) ∧ ∀ object ∈ children (hasher.top sub), Met [] out object := by
    obtain ⟨_,fit⟩ := fits_subtree fits inside
    obtain ⟨found,below⟩ := met_children injective fit closed checked some met
    refine ⟨?_,below⟩
    rw [Trie.Stores,← root_top,stores _ _ found]
  have forked {left right : BitTree (List Byte)}
      (onLeft : left ∈ tree.subtrees → Met [] out (.node,hasher.root left) → ∀ path, Covered hasher trie False path (hasher.root left))
      (onRight : right ∈ tree.subtrees → Met [] out (.node,hasher.root right) → ∀ path, Covered hasher trie False path (hasher.root right))
      (inside : .fork [] left right ∈ tree.subtrees) (met : Met [] out (.node,hasher.root (.fork [] left right)))
      (path : List Bool) : Covered hasher trie False path (hasher.root (.fork [] left right)) := by
    by_cases zero : hasher.root (.fork [] left right) = zeroHash
    · rw [zero]
      exact .empty path
    obtain ⟨stored,below⟩ := here inside zero met
    obtain ⟨_,leftIn,rightIn⟩ := BitTree.subtrees_below inside
    simp only [Hasher.top,if_true] at stored below
    rw [root_top,Hasher.top,if_pos rfl]
    refine .branch stored (fun _ _ _ => False.elim) fun bit rest _ => ?_
    cases bit
    · exact onLeft leftIn (below _ (by simp [children])) rest
    · exact onRight rightIn (below _ (by simp [children])) rest
  induction sub generalizing path with
  | leaf suffix value =>
    by_cases zero : hasher.root (.leaf suffix value) = zeroHash
    · rw [zero]
      exact .empty path
    obtain ⟨stored,below⟩ := here inside zero met
    obtain ⟨_,fit⟩ := fits_subtree fits inside
    have short := fit suffix value (BitTree.get_leaf.mpr ⟨rfl,rfl⟩)
    refine .leaf stored (by omega) fun _ => ⟨value,rfl,?_⟩
    obtain ⟨bytes,found⟩ := Option.isSome_iff_exists.mp
      (show (out.values.lookup (hasher.hashValue value)).isSome from below (.value,hasher.hashValue value) (by simp [Hasher.top,Hasher.leaf,children]))
    rw [Trie.StoresValue,storesValue _ _ found,injective.value (genuine _ _ found)]
  | fork stem left right onLeft onRight =>
    by_cases none : stem = []
    · subst none
      exact forked onLeft onRight inside met path
    by_cases zero : hasher.root (.fork stem left right) = zeroHash
    · rw [zero]
      exact .empty path
    obtain ⟨stored,below⟩ := here inside zero met
    obtain ⟨_,fit⟩ := fits_subtree fits inside
    have short := fit.short_stem
    rw [root_top]
    simp only [Hasher.top,if_neg none] at stored below ⊢
    refine .extension stored (by omega) none (fun _ => False.elim) fun rest _ => ?_
    exact forked onLeft onRight (BitTree.subtrees_below inside).1 (below _ (by simp [children])) rest

include injective in
theorem reconstructed_reads (represents : Represents hasher full map)
    (sound : Sound hasher map full.root store) (rebuilt : reconstructedState hasher store full.root = .ok trie)
    (key : List Byte) : trie.get key = full.get key := by
  simp only [reconstructedState,bind_ok,ensure_ok,mapError_ok,pure_ok] at rebuilt
  obtain ⟨download,loaded,_,_,held,collected,authenticated,walked,_,_,rfl⟩ := rebuilt
  obtain ⟨rooted,durably⟩ := load_durable represents.root sound loaded
  -- Every row taken up is the content of its digest.
  have right (object : StateItemKind × Hash β) (content : List (Content β object.1))
      (present : heldContent held object = some content) : hashContent hasher object.1 content = object.2 := by
    rcases completedObjects_held collected object content present with none | ⟨finished,row⟩
    · obtain ⟨_ | _,_⟩ := object <;> cases none
    · exact durably.right finished (rooted ▸ row)
  have checked : (Trie.fromPersisted full.root (held.nodes.entries.map fun entry => (entry.1,entry.2))
      (held.values.entries.map fun entry => (entry.1,entry.2))).Checked hasher :=
    ⟨fun hash text found => right (.node,hash) text (mem_listed.mp (lookup_refill found)),
      fun hash bytes found => right (.value,hash) bytes (mem_listed.mp (lookup_refill found))⟩
  obtain ⟨reach,complete,within⟩ := represents_closed represents
  have tracks : Tracks hasher (Trie.fromPersisted full.root (held.nodes.entries.map fun entry => (entry.1,entry.2))
      (held.values.entries.map fun entry => (entry.1,entry.2))) full := ⟨rfl,reach,⟨checked,complete⟩,within⟩
  have follows := get_follows injective tracks key
  cases path : BitPath.forKey key with
  | error reason =>
    have stop (rest : BitPath → Except Fault (Option (List Byte))) :
        ((.error reason : Except Fault BitPath) >>= rest) = .error reason := rfl
    rw [Trie.get,Trie.get,path,stop,stop]
  | ok bits =>
    obtain ⟨fit,_⟩ := forKey_packed path
    obtain ⟨closed,met⟩ := authenticateState_closed walked
    have covers : CoversKey hasher (Trie.fromPersisted full.root (held.nodes.entries.map fun entry => (entry.1,entry.2))
        (held.values.entries.map fun entry => (entry.1,entry.2))) False key := by
      refine ⟨fit,?_⟩
      show Covered hasher _ False (keyBits key) full.root
      rw [represents.root] at met ⊢
      cases whole : canonicalTree map with
      | none => exact .empty _
      | some tree =>
        rw [whole] at met
        refine met_covered injective (fits_tree represents.fits whole)
          ⟨fun hash text found => ⟨found,(closed.nodes hash text found).2⟩,fun _ _ => id⟩ ?_ ?_ ?_ ?_ tree.self_subtree met _
        · exact fun hash text found => right (.node,hash) text (closed.nodes hash text found).1
        · exact fun hash bytes found => right (.value,hash) bytes (closed.values hash bytes found)
        · exact fun hash text found => lookup_relisted (closed.nodes hash text found).1
        · exact fun hash bytes found => lookup_relisted (closed.values hash bytes found)
    obtain ⟨reason,failed,lacking | same⟩ | ⟨one,two,ran,also,rfl⟩ := follows
    · exact absurd lacking (get_complete covers reason failed)
    · rw [failed,same]
    · rw [ran,also]
end

def DownloadStore.recorded (store : DownloadStore β) : Nat := store.download.elim 0 Download.bytes

-- State downloads are sound: the count is that of the rows, a rejected batch at most
-- resets one object, and a reconstructed state reads as the root commits to.
theorem state_download_sound (injective : hasher.Injective) {full : Trie β} {map : StateMap}
    (represents : Represents hasher full map) (events : List (DownloadEvent β)) :
    (∀ trie, reconstructedState hasher (downloadRun hasher full.root events) full.root = .ok trie → ∀ key,
      trie.get key = full.get key ∧ (hasher.NeverZero → KeyFits key → trie.get key = .ok map[key]?)) ∧
    (downloadRun hasher full.root events).recorded = storedBytes (downloadRun hasher full.root events).fragments ∧
    ∀ requested entries after error,
      receiveStateEntries hasher (downloadRun hasher full.root events) full.root requested entries = (after,.error error) →
        after = downloadRun hasher full.root events ∨
          ResetOnly hasher (downloadRun hasher full.root events) after full.root requested entries := by
  have sound := run_sound injective represents.fits represents.root events
  refine ⟨fun trie rebuilt key => ?_,?_,fun requested entries after error rejected => ?_⟩
  · have same := reconstructed_reads injective represents sound rebuilt key
    exact ⟨same,fun never fit => same.trans (get_represents never fit represents)⟩
  · unfold Sound at sound
    unfold DownloadStore.recorded
    split at sound
    · rename_i none
      rw [none,sound]
      rfl
    · rename_i download some
      rw [some]
      exact sound.2.counted
  · have outcome := (receive_sound injective represents.fits represents.root sound requested entries).2
    rw [rejected] at outcome
    exact outcome error rfl

-- A forged node, then the node in two pieces with a restart between, then its value.
def leafTree : BitTree (List Byte) := .leaf (keyBits [0]) [1]
def leafText : List Symbol := (spelledHasher.top leafTree).encode
def leafNode (offset : Nat) : StateItem Symbol := ⟨.node,spelledHasher.root leafTree,offset⟩
def leafValue : StateItem Symbol := ⟨.value,spelledHasher.hashValue [1],0⟩

def leafEvents : List (DownloadEvent Symbol) := [ .receive [leafNode 0] [⟨leafNode 0,2,[.blank,.blank],by decide⟩],
  .receive [leafNode 0] [⟨leafNode 0,leafText.length,leafText.take 10,by decide⟩],
  .restart,
  .receive [leafNode 10] [⟨leafNode 10,leafText.length,leafText.drop 10,by decide⟩],
  .receive [leafValue] [⟨leafValue,1,([1] : List Byte),by decide⟩]]

theorem leaf_download_sound : ∃ full trie, Represents spelledHasher full (StateMap.calls ∅ [.insert [0] [1]]).1 ∧
      reconstructedState spelledHasher (downloadRun spelledHasher full.root leafEvents) full.root = .ok trie ∧
      trie.get [0] = full.get [0] ∧ (downloadRun spelledHasher full.root leafEvents).recorded =
        storedBytes (downloadRun spelledHasher full.root leafEvents).fragments := by
  have fit : ∀ call ∈ [StateTrie.Call.insert [0] [1]], KeyFits call.key := by decide
  obtain ⟨full,_,represents⟩ := calls_represent spelledHasher_injective spelledHasher_neverZero fit (new_represents _)
  have tree : canonicalTree (StateMap.calls ∅ [.insert [0] [1]]).1 = some leafTree := by decide +kernel
  have root : full.root = spelledHasher.root leafTree := by
    rw [represents.root,tree]
    rfl
  obtain ⟨trie,rebuilt⟩ : ∃ trie, reconstructedState spelledHasher
      (downloadRun spelledHasher (spelledHasher.root leafTree) leafEvents) (spelledHasher.root leafTree) = .ok trie :=
    isOk_iff.mp (by decide +kernel)
  rw [← root] at rebuilt
  obtain ⟨reads,counted,_⟩ := state_download_sound spelledHasher_injective represents leafEvents
  exact ⟨full,trie,represents,rebuilt,(reads trie rebuilt [0]).1,counted⟩
end Neutrino.StateSync
