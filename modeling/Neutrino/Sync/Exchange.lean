import Neutrino.Sync.Faithful

-- Asking an honest peer: while the rows begin the right objects and the state fits
-- the budgets, every answer is accepted and brings the end closer.

namespace Neutrino.StateSync
open Checks Bits Patricia StateTrie Tally
variable {β : Type} [Alphabet β] [DecidableEq β] {hasher : Hasher β} {map : StateMap} {full : Trie β}

def objectSize (trie : Trie β) (object : StateItemKind × Hash β) : Nat := (objectBytes trie object).elim 0 List.length

def totalBytes (hasher : Hasher β) (trie : Trie β) (map : StateMap) : Nat :=
  ((objectsOf hasher (canonicalTree map)).map (objectSize trie)).sum

structure Affordable (hasher : Hasher β) (trie : Trie β) (map : StateMap) : Prop where
  entries : (objectsOf hasher (canonicalTree map)).length ≤ maxEntries
  bytes : totalBytes hasher trie map ≤ defaultMaxBytes
  each : ∀ object ∈ objectsOf hasher (canonicalTree map), objectSize trie object ≤ maxEntryBytes

theorem objectSize_genuine (represents : Represents hasher full map) (genuine : Genuine hasher (canonicalTree map) object.1 content)
    (named : hashContent hasher object.1 content = object.2) : objectSize full object = content.length := by
  have held := objectBytes_genuine represents genuine
  rw [named] at held
  rw [objectSize,held]
  rfl

section
variable {download : Download β} {rows : Fragments β}

theorem listed_length (durably : Durable hasher map download rows) (once : download.completed.Nodup)
    (more : List (StateItemKind × Hash β)) (distinct : more.Nodup) (fresh : ∀ object ∈ more, ¬download.Lists object)
    (named : ∀ object ∈ more, Named hasher (canonicalTree map) object) :
    more.length + download.completed.length + download.pending.length ≤ (objectsOf hasher (canonicalTree map)).length := by
  have apart : (more ++ (download.completed ++ download.pending.map StateItem.object)).Nodup := by
    rw [List.nodup_append,List.nodup_append]
    refine ⟨distinct,⟨once,durably.single,fun done finished other pending same => ?_⟩,fun new added other listed same => ?_⟩
    · obtain ⟨item,member,rfl⟩ := List.mem_map.mp pending
      exact durably.apart item member (same ▸ finished)
    · refine fresh new added ?_
      rcases List.mem_append.mp listed with finished | pending
      · exact .inl (same ▸ finished)
      · obtain ⟨item,member,rfl⟩ := List.mem_map.mp pending
        exact .inr ⟨item,member,same.symm⟩
  have inside : more ++ (download.completed ++ download.pending.map StateItem.object) ⊆ objectsOf hasher (canonicalTree map) := by
    intro object listed
    refine mem_objectsOf.mpr ?_
    simp only [List.mem_append,List.mem_map] at listed
    rcases listed with added | finished | ⟨item,member,rfl⟩
    · exact named object added
    · exact durably.named object (.inl finished)
    · exact durably.named _ (.inr ⟨item,member,rfl⟩)
  have bound := (apart.subperm inside).length_le
  simp only [List.length_append,List.length_map] at bound
  omega

theorem storedBytes_le (represents : Represents hasher full map) (root : Hash β)
    (fronts : ∀ key bytes, rows.lookup key = some bytes → key.root = root ∧ Begins hasher map (key.kind,key.hash) bytes) :
    storedBytes rows ≤ totalBytes hasher full map := by
  refine tally_le (fun key => (key.kind,key.hash)) (fun one first two second same => ?_) fun key bytes present => ?_
  · obtain ⟨_,found⟩ := Option.isSome_iff_exists.mp (AList.lookup_isSome.mpr first)
    obtain ⟨_,also⟩ := Option.isSome_iff_exists.mp (AList.lookup_isSome.mpr second)
    have roots := (fronts one _ found).1.trans (fronts two _ also).1.symm
    obtain ⟨_,_,_⟩ := one
    obtain ⟨_,_,_⟩ := two
    cases same
    cases roots
    rfl
  · obtain ⟨_,content,genuine,named,begins⟩ := fronts key bytes present
    exact ⟨mem_objectsOf.mpr ⟨content,genuine,named⟩, (begins.length_le).trans_eq (objectSize_genuine represents genuine named).symm⟩

theorem discover_room (affordable : Affordable hasher full map)
    (durably : Durable hasher map (download.finishing finished) rows) (once : download.completed.Nodup)
    (unfinished : finished ∉ download.completed) (named : Named hasher (canonicalTree map) object) (other : object ≠ finished) :
    ∃ after, download.discover object.1 object.2 = .ok after := by
  rw [Download.discover]
  split
  · exact ⟨_,rfl⟩
  split
  · rename_i fresh
    have absent : ¬(download.finishing finished).Lists object := fun lists => by
      rcases lists_finishing.mp lists with same | done | ⟨item,listed,same⟩
      · exact other same
      · exact fresh.1 done
      · exact fresh.2 item listed same
    have again : (download.finishing finished).completed.Nodup := once.insert
    have size : (download.finishing finished).completed.length = download.completed.length + 1 := by
      rw [Download.finishing,List.insert_of_not_mem unfinished,List.length_cons]
    have most := listed_length durably again [object] (List.nodup_singleton object) (by simpa using absent) (by simpa using named)
    have bound := affordable.entries
    rw [size,List.length_singleton] at most
    have room : download.completed.length + download.pending.length < maxEntries := by
      have pending : (download.finishing finished).pending = download.pending := rfl
      rw [pending] at most
      omega
    rw [ensure_pos room]
    exact ⟨_,rfl⟩
  · exact ⟨_,rfl⟩

theorem discoverAll_room (affordable : Affordable hasher full map) (durably : Durable hasher map (download.finishing finished) rows)
    (once : download.completed.Nodup) (fresh : finished ∉ download.completed)
    (known : ∀ object ∈ objects, Named hasher (canonicalTree map) object ∧ object ≠ finished) :
    ∃ after, discoverAll objects download = .ok after := by
  induction objects generalizing download with
  | nil => exact ⟨download,rfl⟩
  | cons object rest ih =>
    obtain ⟨named,other⟩ := known object (by simp)
    obtain ⟨middle,found⟩ := discover_room affordable durably once fresh named other
    have same := (discover_completed found).1
    obtain ⟨after,others⟩ := ih (discover_durable durably named other found) (same ▸ once) (same ▸ fresh)
      fun query listed => known query (by simp [listed])
    exact ⟨after,bind_ok.mpr ⟨middle,found,others⟩⟩
end

def Download.reached (download : Download β) : Nat := download.bytes + download.completed.length

section
variable {start download : Download β} {rows written : Fragments β} {item : StateItem β} {content : List (Content β item.kind)}

theorem piece_length (item : StateItem β) (content : List (Content β item.kind)) : (pieceAt item content).bytes.length = min maxStateFragmentBytes (content.length - item.offset) := by
  rw [pieceAt,List.length_take,List.length_drop]

theorem piece_fair (genuine : Genuine hasher (canonicalTree map) item.kind content)
    (named : hashContent hasher item.kind content = item.hash) (inside : item.offset < content.length ∨ item.offset = 0) :
    FairEntry hasher map (pieceAt item content) := by
  have size := piece_length item content
  by_cases last : item.offset + (pieceAt item content).bytes.length = content.length
  · exact .inl last
  · have short : item.offset + (pieceAt item content).bytes.length < content.length := by omega
    exact .inr ⟨content,genuine,named,List.take_prefix _ _,short⟩

section
variable (represents : Represents hasher full map) (affordable : Affordable hasher full map) (injective : hasher.Injective)
variable (staged : Staged hasher map start rows download written) (faithful : Faithful hasher map download written)
variable (genuine : Genuine hasher (canonicalTree map) item.kind content)
include represents affordable injective staged faithful genuine

theorem piece_admitted (named : hashContent hasher item.kind content = item.hash) (inside : item.offset < content.length ∨ item.offset = 0)
    (asked : item ∈ download.pending) (next : (durable rows (storageKey start.root item.object)).length = item.offset) :
    Admitted start.root rows download item (pieceAt item content) := by
  have size := piece_length item content
  have small : content.length ≤ maxEntryBytes := by
    have size : objectSize full item.object = content.length := objectSize_genuine represents genuine named
    rw [← size]
    exact affordable.each _ (mem_objectsOf.mpr ⟨content,genuine,named⟩)
  have positive : 0 < maxStateFragmentBytes := by decide
  have limit : maxEntryBytes < 2 ^ 64 := by decide
  have within : item.offset + (pieceAt item content).bytes.length ≤ content.length := by omega
  have counts : item.offset + (pieceAt item content).bytes.length < 2 ^ 64 := by omega
  refine ⟨rfl,within,?_,counts,asked,small,next,?_⟩
  · by_cases some : item.offset < content.length
    · exact .inl (List.length_pos_iff.mp (by omega))
    · have ended : item.offset = content.length := by omega
      exact .inr ended
  · -- The row it makes is a beginning of the object, and all rows together fit.
    have untouched : written.lookup (storageKey start.root item.object) = rows.lookup (storageKey start.root item.object) :=
      staged.untouched (pieceAt item content) asked next
    have begins := joined_begins injective (pieceAt item content) named
      (fun bytes present => (faithful.fronts _ bytes (untouched.trans present)).2) next (List.take_prefix _ _)
    have count : download.bytes + (pieceAt item content).bytes.length =
        storedBytes (written.insert (storageKey start.root item.object) ((pieceAt item content).joined start.root rows)) :=
      staged.counted (pieceAt item content) asked next
    rw [count]
    refine (storedBytes_le represents download.root fun key bytes present => ?_).trans affordable.bytes
    by_cases same : key = storageKey start.root item.object
    · subst same
      rw [AList.lookup_insert] at present
      cases present
      exact ⟨staged.root.symm,content,genuine,named,begins⟩
    · rw [AList.lookup_insert_ne same] at present
      exact faithful.fronts key bytes present

theorem piece_accepted (named : hashContent hasher item.kind content = item.hash) (inside : item.offset < content.length ∨ item.offset = 0)
    (asked : item ∈ download.pending) (next : (durable rows (storageKey start.root item.object)).length = item.offset) :
    ∃ after more, receiveEntry hasher start.root rows (download,written) item (pieceAt item content) = .ok (after,more) ∧
      (∀ other ∈ download.pending, other.object ≠ item.object → other ∈ after.pending) ∧ download.reached < after.reached := by
  have admitted := piece_admitted represents affordable injective staged faithful genuine named inside asked next
  have taken := receiveEntry_taken hasher written admitted
  have untouched := staged.untouched (pieceAt item content) asked next
  have fresh := staged.durably.apart item asked
  have begins := joined_begins injective (pieceAt item content) named
    (fun bytes present => (faithful.fronts _ bytes (untouched.trans present)).2) next (List.take_prefix _ _)
  have others {other : StateItem β} (listed : other ∈ download.pending) (differs : other.object ≠ item.object) :
      other ∈ download.pending.erase item := (mem_erase_single staged.durably.single asked).mpr ⟨listed,differs⟩
  have whole (complete : ((pieceAt item content).joined start.root rows).length = content.length) :
      (pieceAt item content).joined start.root rows = content := begins.eq_of_length complete
  generalize receiveEntry hasher start.root rows (download,written) item (pieceAt item content) = outcome at taken
  cases taken with
  | mismatched complete wrong => exact absurd (by rw [whole complete]; exact named) wrong
  | refused complete failed =>
    have right : hashContent hasher item.kind ((pieceAt item content).joined start.root rows) = item.hash := by
      rw [whole complete]
      exact named
    have counted := staged.counted (pieceAt item content) asked next
    have durably : Durable hasher map ((download.taken (pieceAt item content)).finishing item.object)
        (written.insert (storageKey start.root item.object) ((pieceAt item content).joined start.root rows)) :=
      staged.durably.finish staged.root asked right counted
    obtain ⟨same,known⟩ := genuine_within injective represents.fits (genuine_joined injective staged.durably admitted right)
    obtain ⟨found,discovered⟩ := discoverAll_room affordable durably faithful.once fresh fun object child =>
      ⟨(known object child).1,fun equal => (known object child).2 (equal.trans (congrArg _ right.symm))⟩
    have succeeds := (same (download.taken (pieceAt item content))).trans discovered
    exact nomatch failed.symm.trans succeeds
  | finished complete right discovered =>
    rename_i found
    have discovers := discoverAll_discovers (discoverWithin_ok discovered)
    refine ⟨_,_,rfl,fun other listed differs => discovers.kept other (others listed differs),?_⟩
    obtain ⟨completed,_,bytes⟩ := discoverWithin_completed discovered
    have counted : found.bytes = download.bytes + (pieceAt item content).bytes.length := bytes
    have count : (found.finishing item.object).completed.length = download.completed.length + 1 := by
      have done : found.completed = download.completed := completed
      rw [Download.finishing,done,List.insert_of_not_mem fresh,List.length_cons]
    show _ < found.bytes + (found.finishing item.object).completed.length
    unfold Download.reached
    omega
  | extended incomplete =>
    refine ⟨_,_,rfl,fun other listed differs => List.mem_insert_of_mem (others listed differs),?_⟩
    have some : 0 < (pieceAt item content).bytes.length := by
      rcases admitted.moves with nonempty | ended
      · exact List.length_pos_iff.mpr nonempty
      · have size := joined_length admitted
        have within := admitted.within
        omega
    show download.bytes + download.completed.length < download.bytes + _ + download.completed.length
    omega
end

theorem pieces_accepted (represents : Represents hasher full map) (affordable : Affordable hasher full map)
    (injective : hasher.Injective) {items : List (StateItem β)}
    (answered : ∀ item ∈ items, ∃ content, Genuine hasher (canonicalTree map) item.kind content ∧
      hashContent hasher item.kind content = item.hash ∧ (item.offset < content.length ∨ item.offset = 0) ∧
      answers item = pieceAt item content) (distinct : (items.map StateItem.object).Nodup)
    (next : ∀ item ∈ items, (durable rows (storageKey start.root item.object)).length = item.offset)
    (staged : Staged hasher map start rows download written) (faithful : Faithful hasher map download written)
    (asked : ∀ item ∈ items, item ∈ download.pending) :
    ∃ after more, receiveAll hasher start.root rows (items.zip (items.map answers)) (download,written) = .ok (after,more) ∧
      download.reached + items.length ≤ after.reached := by
  induction items generalizing download written with
  | nil => exact ⟨download,written,rfl,le_rfl⟩
  | cons item rest ih =>
    obtain ⟨content,genuine,named,inside,piece⟩ := answered item (by simp)
    rw [List.map_cons,List.nodup_cons] at distinct
    obtain ⟨middle,half,taken,kept,further⟩ := piece_accepted represents affordable injective staged faithful genuine named
      inside (asked item (by simp)) (next item (by simp))
    have fair := piece_fair genuine named inside
    obtain ⟨after,more,others,reached⟩ := ih (fun other listed => answered other (by simp [listed])) distinct.2
      (fun other listed => next other (by simp [listed])) (entry_staged injective represents.fits staged taken)
      (entry_faithful injective represents.fits staged faithful fair taken) fun other listed =>
        kept other (asked other (by simp [listed])) fun same => distinct.1 (List.mem_map.mpr ⟨other,listed,same⟩)
    refine ⟨after,more,?_,?_⟩
    · rw [List.map_cons,List.zip_cons_cons,receiveAll,piece,taken,ok_bind]
      exact others
    · rw [List.length_cons]
      omega
end
variable {store : DownloadStore β}

theorem load_ok (represents : Represents hasher full map) (affordable : Affordable hasher full map)
    (trusted : Trusted hasher map full.root store) : ∃ download, load store full.root = .ok download := by
  unfold Trusted at trusted
  unfold load
  cases held : store.download with
  | none => exact ⟨_,rfl⟩
  | some download =>
    rw [held] at trusted
    obtain ⟨rooted,durably,faithful⟩ := trusted
    have count := listed_length durably faithful.once [] List.nodup_nil (by simp) (by simp)
    have stored := storedBytes_le represents download.root faithful.fronts
    have entries := affordable.entries
    have bytes := affordable.bytes
    rw [← durably.counted] at stored
    rw [List.length_nil,Nat.zero_add] at count
    have size : download.encodedLen ≤ maxEntries * 80 + 128 := by
      unfold Download.encodedLen
      omega
    simp only
    rw [ensure_pos size,ok_bind,ensure_pos rooted,ok_bind,ensure_pos ⟨by omega,by omega⟩,ok_bind]
    exact ⟨download,rfl⟩

theorem exchange_ok (represents : Represents hasher full map) (affordable : Affordable hasher full map)
    (injective : hasher.Injective) (trusted : Trusted hasher map full.root store) (loaded : load store full.root = .ok download) :
    ∃ after written, exchange hasher full store full.root = .ok ⟨some after,written⟩ ∧
      Trusted hasher map full.root ⟨some after,written⟩ ∧ download.reached + download.next.length ≤ after.reached := by
  have faithful := load_faithful represents.root trusted loaded
  obtain ⟨rooted,durably⟩ := load_durable represents.root trusted.sound loaded
  have few : download.next.length ≤ maxStateItems := by
    rw [Download.next,List.length_take]
    omega
  have listed {item : StateItem β} (taken : item ∈ download.next) : item ∈ download.pending := List.mem_of_mem_take taken
  let answers (item : StateItem β) : StateEntry β := (serveItem hasher full item).toOption.getD ⟨item,0,[],Nat.zero_le _⟩
  have answered (item : StateItem β) (taken : item ∈ download.next) :
      ∃ content, Genuine hasher (canonicalTree map) item.kind content ∧ hashContent hasher item.kind content = item.hash ∧
        (item.offset < content.length ∨ item.offset = 0) ∧ answers item = pieceAt item content := by
    obtain ⟨content,genuine,named,inside⟩ := faithful.resumes item (listed taken)
    refine ⟨content,genuine,named,inside,?_⟩
    show (serveItem hasher full item).toOption.getD _ = _
    rw [serveItem_ok represents genuine named inside]
    rfl
  have served : p2pStateNodes hasher full full.root download.next = .ok (download.next.map answers) := by
    refine p2pStateNodes_ok represents few fun item taken => ?_
    obtain ⟨content,genuine,named,inside,piece⟩ := answered item taken
    rw [serveItem_ok represents genuine named inside,piece]
  obtain ⟨after,written,ran,reached⟩ := pieces_accepted represents affordable injective answered
    (((List.take_sublist _ _).map _).nodup durably.single) (fun item taken => durably.sized item (listed taken))
    durably.staged faithful fun item => listed
  have fair : ∀ pair ∈ download.next.zip (download.next.map answers), FairEntry hasher map pair.2 := by
    intro pair member
    obtain ⟨item,taken,same⟩ := List.mem_map.mp (List.of_mem_zip member).2
    obtain ⟨content,genuine,named,inside,piece⟩ := answered item taken
    rw [← same,piece]
    exact piece_fair genuine named inside
  have staged := receiveAll_staged injective represents.fits durably.staged ran
  refine ⟨after,written,?_,⟨staged.root.trans rooted,staged.durably,
    receiveAll_faithful injective represents.fits durably.staged faithful fair ran⟩,reached⟩
  have outcome : receiveStateEntries hasher store full.root download.next (download.next.map answers) =
      (⟨some after,written⟩,.ok ⟨after.pending.isEmpty,after.next⟩) := by
    rw [rooted] at ran
    rw [receiveStateEntries,if_neg (by rw [List.length_map]; omega),loaded]
    simp only
    rw [ran]
  rw [exchange,stateDownloadItems,loaded]
  simp only [ok_bind]
  show (p2pStateNodes hasher full full.root download.next >>= _) = _
  rw [served,ok_bind,outcome]
  rfl
end Neutrino.StateSync
