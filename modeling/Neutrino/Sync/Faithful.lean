import Neutrino.Sync.Server

-- Rows that are beginnings of the right objects.

namespace Neutrino.StateSync
open Checks Bits Patricia StateTrie Tally
variable {β : Type} [Alphabet β] [DecidableEq β] {hasher : Hasher β} {map : StateMap}

def Begins (hasher : Hasher β) (map : StateMap) (object : StateItemKind × Hash β) (bytes : List (Content β object.1)) : Prop :=
  ∃ content, Genuine hasher (canonicalTree map) object.1 content ∧ hashContent hasher object.1 content = object.2 ∧ bytes <+: content

def Resumes (hasher : Hasher β) (map : StateMap) (item : StateItem β) : Prop :=
  ∃ content, Genuine hasher (canonicalTree map) item.kind content ∧ hashContent hasher item.kind content = item.hash ∧
    (item.offset < content.length ∨ item.offset = 0)

structure Faithful (hasher : Hasher β) (map : StateMap) (download : Download β) (rows : Fragments β) : Prop where
  fronts : ∀ key bytes, rows.lookup key = some bytes → key.root = download.root ∧ Begins hasher map (key.kind,key.hash) bytes
  resumes : ∀ item ∈ download.pending, Resumes hasher map item
  once : download.completed.Nodup
  top : download.root = zeroHash ∨ download.Lists (.node,download.root)
  below : ∀ object ∈ download.completed, ∀ content, rows.lookup (storageKey download.root object) = some content →
    ∀ child ∈ objectsWithin object.1 content, child = (.node,zeroHash) ∨ download.Lists child

-- A piece that will be stored unchecked is a true one and not the last.
def FairEntry (hasher : Hasher β) (map : StateMap) (entry : StateEntry β) : Prop :=
  entry.item.offset + entry.bytes.length = entry.totalLen ∨ ∃ content, Genuine hasher (canonicalTree map) entry.item.kind content ∧
      hashContent hasher entry.item.kind content = entry.item.hash ∧ entry.bytes <+: content.drop entry.item.offset ∧
      entry.item.offset + entry.bytes.length < content.length

theorem Named.resumes {hash : Hash β} (named : Named hasher (canonicalTree map) (kind,hash)) : Resumes hasher map ⟨kind,hash,0⟩ := by
  obtain ⟨content,genuine,same⟩ := named
  exact ⟨content,genuine,same,.inr rfl⟩

section
variable {download after : Download β} {objects : List (StateItemKind × Hash β)}

-- What discovery adds, and that it leaves nothing out.
structure Discovers (download : Download β) (objects : List (StateItemKind × Hash β)) (after : Download β) : Prop where
  kept : ∀ item ∈ download.pending, item ∈ after.pending
  added : ∀ item ∈ after.pending, item ∈ download.pending ∨ item.offset = 0 ∧ item.object ∈ objects
  lists : ∀ object ∈ objects, object = (.node,zeroHash) ∨ after.Lists object

theorem discoverAll_discovers (found : discoverAll objects download = .ok after) : Discovers download objects after := by
  induction objects generalizing download with
  | nil =>
    cases found
    exact ⟨fun _ => id,fun _ => .inl,by simp⟩
  | cons object rest ih =>
    obtain ⟨middle,first,others⟩ := bind_ok.mp found
    obtain ⟨kept,added,lists⟩ := ih others
    have completed := (discoverAll_completed others).1
    have onward {query : StateItemKind × Hash β} (listed : middle.Lists query) : after.Lists query := by
      rcases listed with finished | ⟨item,pending,rfl⟩
      · exact .inl (completed ▸ finished)
      · exact .inr ⟨item,kept item pending,rfl⟩
    obtain ⟨rfl,known⟩ | ⟨rfl,_,_,_⟩ := discover_ok first
    · refine ⟨kept,fun item pending => (added item pending).imp id fun ⟨zero,listed⟩ => ⟨zero,by simp [listed]⟩,?_⟩
      exact List.forall_mem_cons.mpr ⟨known.imp id onward,lists⟩
    · refine ⟨fun item pending => kept item (by simp [pending]),fun item pending => ?_,?_⟩
      · rcases added item pending with before | ⟨zero,listed⟩
        · rcases List.mem_cons.mp before with rfl | before
          · exact .inr ⟨rfl,by simp⟩
          · exact .inl before
        · exact .inr ⟨zero,by simp [listed]⟩
      · exact List.forall_mem_cons.mpr ⟨.inr (onward (.inr ⟨_,List.mem_cons_self,rfl⟩)),lists⟩
end
section
variable {start download after : Download β} {rows written more : Fragments β} {expected : StateItem β} {entry : StateEntry β}

theorem lists_finished {found : Download β} (durably : Durable hasher map download written) (listed : item ∈ download.pending)
    (completed : found.completed = download.completed) (kept : ∀ other ∈ download.pending.erase item, other ∈ found.pending)
    (lists : download.Lists object) : (found.finishing item.object).Lists object := by
  rw [lists_finishing]
  by_cases same : object = item.object
  · exact .inl same
  · rcases lists with finished | ⟨other,pending,rfl⟩
    · exact .inr (.inl (completed ▸ finished))
    · exact .inr (.inr ⟨other,kept other ((mem_erase_single durably.single listed).mpr ⟨pending,same⟩),rfl⟩)

theorem finished_faithful (injective : hasher.Injective) (fits : AllFit map) (staged : Staged hasher map start rows download written)
    (faithful : Faithful hasher map download written) (admitted : Admitted start.root rows download expected entry)
    (right : hashContent hasher entry.item.kind (entry.joined start.root rows) = entry.item.hash) {found : Download β}
    (discovered : discoverWithin entry.item.kind (entry.joined start.root rows) (download.taken entry) = .ok found) :
    Faithful hasher map (found.finishing entry.item.object)
      (written.insert (storageKey start.root entry.item.object) (entry.joined start.root rows)) := by
  have genuine := genuine_joined injective staged.durably admitted right
  obtain ⟨completed,root,_⟩ := discoverWithin_completed discovered
  have rooted : found.root = start.root := root.trans staged.root
  obtain ⟨_,named⟩ := genuine_within injective fits genuine
  have discovers := discoverAll_discovers (discoverWithin_ok discovered)
  have onward {object : StateItemKind × Hash β} (lists : download.Lists object) : (found.finishing entry.item.object).Lists object :=
    lists_finished staged.durably admitted.asked completed discovers.kept lists
  refine ⟨fun key bytes present => ?_,fun item listed => ?_,?_,?_,fun object finished content present child listed => ?_⟩
  · by_cases same : key = storageKey start.root entry.item.object
    · subst same
      rw [AList.lookup_insert] at present
      cases present
      exact ⟨rooted.symm,_,genuine,right,List.prefix_rfl⟩
    · rw [AList.lookup_insert_ne same] at present
      obtain ⟨there,begins⟩ := faithful.fronts key bytes present
      exact ⟨there.trans (staged.root.trans rooted.symm),begins⟩
  · rcases discovers.added item listed with before | ⟨zero,child⟩
    · exact faithful.resumes item (List.mem_of_mem_erase before)
    · have resumes := Named.resumes (named item.object child).1
      obtain ⟨kind,hash,offset⟩ := item
      cases zero
      exact resumes
  · show (found.completed.insert _).Nodup
    rw [completed]
    exact faithful.once.insert
  · show found.root = zeroHash ∨ (found.finishing entry.item.object).Lists (.node,found.root)
    rw [rooted,← staged.root]
    exact faithful.top.imp id onward
  · have rowed : (written.insert (storageKey start.root entry.item.object) (entry.joined start.root rows)).lookup
        (storageKey start.root object) = some content := rooted ▸ present
    rcases List.mem_insert_iff.mp finished with rfl | before
    · rw [AList.lookup_insert] at rowed
      cases rowed
      exact (discovers.lists child listed).imp id fun lists => lists_finishing.mpr (.inr lists)
    · have before : object ∈ download.completed := completed ▸ before
      have differs : object ≠ entry.item.object := fun same => staged.durably.apart _ admitted.asked (same ▸ before)
      rw [AList.lookup_insert_ne fun same => differs (storageKey_inj.mp same),← staged.root] at rowed
      exact (faithful.below object before content rowed child listed).imp id onward

theorem Faithful.swap (durably : Durable hasher map download rows) (faithful : Faithful hasher map download rows)
    (here : (durable rows (storageKey download.root item.object)).length = item.offset) (fresh : item.object ∉ download.completed)
    (others : ∀ key, key ≠ storageKey download.root item.object → written.lookup key = rows.lookup key)
    (front : ∀ bytes, written.lookup (storageKey download.root item.object) = some bytes → Begins hasher map item.object bytes)
    (resumes : Resumes hasher map { item with offset := length }) :
    Faithful hasher map { download with
      pending := (download.pending.erase item).insert { item with offset := length },bytes := bytes } written := by
  have onward {object : StateItemKind × Hash β} (lists : download.Lists object) :
      ({ download with pending := (download.pending.erase item).insert { item with offset := length },bytes := bytes } :
        Download β).Lists object := (durably.lists_swap here).mpr (.inr lists)
  refine ⟨fun key bytes present => ?_,fun other listed => ?_,faithful.once,faithful.top.imp id onward,
    fun object finished content present child listed => ?_⟩
  · by_cases same : key = storageKey download.root item.object
    · subst same
      exact ⟨rfl,front bytes present⟩
    · exact faithful.fronts key bytes (others key same ▸ present)
  · rcases (durably.mem_swap here).mp listed with rfl | ⟨before,_⟩
    · exact resumes
    · exact faithful.resumes other before
  · have differs : storageKey download.root object ≠ storageKey download.root item.object := fun same =>
      fresh (storageKey_inj.mp same ▸ finished)
    exact (faithful.below object finished content (others _ differs ▸ present) child listed).imp id onward

theorem joined_begins (injective : hasher.Injective) (entry : StateEntry β) {content : List (Content β entry.item.kind)}
    (named : hashContent hasher entry.item.kind content = entry.item.hash)
    (fronts : ∀ bytes, rows.lookup (storageKey start.root entry.item.object) = some bytes → Begins hasher map entry.item.object bytes)
    (next : (durable rows (storageKey start.root entry.item.object)).length = entry.item.offset)
    (piece : entry.bytes <+: content.drop entry.item.offset) : entry.joined start.root rows <+: content := by
  have front : durable rows (storageKey start.root entry.item.object) <+: content := by
    unfold durable
    cases present : rows.lookup (storageKey start.root entry.item.object) with
    | none => exact List.nil_prefix
    | some bytes =>
      obtain ⟨other,_,same,begins⟩ := fronts bytes present
      rwa [hashContent_injective injective _ (named.trans same.symm)]
  rw [List.prefix_iff_eq_take,next] at front
  obtain ⟨rest,whole⟩ := piece
  refine ⟨rest,?_⟩
  rw [StateEntry.joined,List.append_assoc,whole]
  show durable rows (storageKey start.root entry.item.object) ++ _ = content
  rw [front,List.take_append_drop]

theorem entry_faithful (injective : hasher.Injective) (fits : AllFit map) (staged : Staged hasher map start rows download written)
    (faithful : Faithful hasher map download written) (fair : FairEntry hasher map entry)
    (ran : receiveEntry hasher start.root rows (download,written) expected entry = .ok (after,more)) : Faithful hasher map after more := by
  obtain ⟨error,failed⟩ | ⟨admitted,taken⟩ := receiveEntry_cases hasher start.root rows written download expected entry
  · rw [failed] at ran
    cases ran
  rw [ran] at taken
  cases taken with
  | finished complete right discovered => exact finished_faithful injective fits staged faithful admitted right discovered
  | extended incomplete =>
    have size := joined_length admitted
    have untouched := staged.untouched entry admitted.asked admitted.next
    obtain ⟨content,genuine,named,piece,inside⟩ := fair.resolve_left (by omega)
    have begins := joined_begins injective entry named
      (fun bytes present => (faithful.fronts _ bytes (untouched.trans present)).2) admitted.next piece
    refine faithful.swap staged.durably (staged.durably.sized _ admitted.asked) (staged.durably.apart _ admitted.asked)
      (fun key differs => AList.lookup_insert_ne (staged.root ▸ differs)) (fun bytes present => ?_)
      ⟨content,genuine,named,.inl (by rw [size]; exact inside)⟩
    rw [staged.root,AList.lookup_insert] at present
    cases present
    exact ⟨content,genuine,named,begins⟩

theorem receiveAll_faithful (injective : hasher.Injective) (fits : AllFit map)
    (staged : Staged hasher map start rows download written) (faithful : Faithful hasher map download written)
    (fair : ∀ pair ∈ batch, FairEntry hasher map pair.2)
    (ran : receiveAll hasher start.root rows batch (download,written) = .ok (after,more)) : Faithful hasher map after more := by
  induction batch generalizing download written with
  | nil =>
    cases ran
    exact faithful
  | cons first rest ih =>
    obtain ⟨⟨middle,half⟩,one,others⟩ := bind_ok.mp ran
    exact ih (entry_staged injective fits staged one) (entry_faithful injective fits staged faithful (fair first (by simp)) one)
      (fun pair listed => fair pair (by simp [listed])) others
end
section
variable {store : DownloadStore β} {root : Hash β}

def Trusted (hasher : Hasher β) (map : StateMap) (root : Hash β) (store : DownloadStore β) : Prop :=
  match store.download with
  | none => store.fragments = ∅
  | some download => download.root = root ∧ Durable hasher map download store.fragments ∧
      Faithful hasher map download store.fragments

theorem Trusted.sound (trusted : Trusted hasher map root store) : Sound hasher map root store := by
  unfold Trusted at trusted
  unfold Sound
  cases held : store.download with
  | none => simpa only [held] using trusted
  | some download =>
    simp only [held] at trusted ⊢
    exact ⟨trusted.1,trusted.2.1⟩

theorem new_faithful (committed : root = hasher.rootOf (canonicalTree map)) : Faithful hasher map (Download.new root) ∅ := by
  refine ⟨by simp,fun item listed => ?_,List.nodup_nil,?_,fun _ finished => absurd finished List.not_mem_nil⟩
  · have named := (new_durable committed).named _ (.inr ⟨item,listed,rfl⟩)
    simp only [Download.new] at listed
    split at listed
    · cases listed
    · rw [List.mem_singleton] at listed
      subst listed
      exact Named.resumes named
  · by_cases zero : root = zeroHash
    · exact .inl zero
    · exact .inr (.inr ⟨StateItem.node root,by simp [Download.new,zero],rfl⟩)

theorem load_faithful (committed : root = hasher.rootOf (canonicalTree map)) (trusted : Trusted hasher map root store)
    (loaded : load store root = .ok download) : Faithful hasher map download store.fragments := by
  unfold Trusted at trusted
  obtain held | ⟨held,rfl⟩ := load_from loaded <;> simp only [held] at trusted
  · exact trusted.2.2
  · exact trusted ▸ new_faithful committed

theorem receive_trusted (injective : hasher.Injective) (fits : AllFit map)
    (committed : root = hasher.rootOf (canonicalTree map)) (trusted : Trusted hasher map root store)
    (requested : List (StateItem β)) {entries : List (StateEntry β)} (fair : ∀ entry ∈ entries, FairEntry hasher map entry) :
    Trusted hasher map root (receiveStateEntries hasher store root requested entries).1 := by
  rw [receiveStateEntries]
  split
  · exact trusted
  split
  · exact trusted
  rename_i download loaded
  have faithful := load_faithful committed trusted loaded
  obtain ⟨rfl,durably⟩ := load_durable committed trusted.sound loaded
  split
  · exact trusted
  · rename_i item stopped
    obtain ⟨middle,half,entry,staged,listed,rfl,admitted,_,_⟩ := receiveAll_mismatched injective fits durably.staged stopped
    refine ⟨rfl,reset_durable durably staged admitted,?_⟩
    refine faithful.swap durably admitted.next (fun finished => staged.durably.apart _ admitted.asked (staged.keeps _ finished))
      (fun key differs => AList.lookup_erase_ne differs) (fun bytes present => ?_)
      (Named.resumes (staged.durably.named _ (.inr ⟨_,admitted.asked,rfl⟩)))
    have gone := AList.lookup_erase (storageKey download.root entry.item.object) store.fragments
    cases gone.symm.trans present
  · rename_i after written ran
    have staged := receiveAll_staged injective fits durably.staged ran
    refine ⟨staged.root,staged.durably,receiveAll_faithful injective fits durably.staged faithful (fun pair listed => ?_) ran⟩
    exact fair _ (List.of_mem_zip listed).2
end

def DownloadEvent.Fair (hasher : Hasher β) (map : StateMap) : DownloadEvent β → Prop
  | .receive _ entries => ∀ entry ∈ entries, FairEntry hasher map entry
  | .restart => True

theorem run_trusted (injective : hasher.Injective) (fits : AllFit map) (committed : root = hasher.rootOf (canonicalTree map))
    (fair : ∀ event ∈ events, event.Fair hasher map) : Trusted hasher map root (downloadRun hasher root events) := by
  refine List.foldlRecOn events _ rfl fun store trusted event listed => ?_
  cases event with
  | restart => exact trusted
  | receive requested entries => exact receive_trusted injective fits committed trusted requested (fair (.receive requested entries) listed)
end Neutrino.StateSync
