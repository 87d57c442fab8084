import Neutrino.Sync.Durable

-- A received batch keeps the durable invariant, taken or not; an object with the
-- wrong content is reset against the rows that are there.

namespace Neutrino.StateSync
open Checks Bits Patricia StateTrie Tally
variable {β : Type} [Alphabet β] [DecidableEq β] {hasher : Hasher β} {map : StateMap} {entry : StateEntry β}

theorem validateFor_ok : entry.validateFor requested = true ↔ entry.item = requested ∧ entry.item.offset ≤ entry.totalLen ∧
      entry.item.offset + entry.bytes.length < 2 ^ 64 ∧ entry.item.offset + entry.bytes.length ≤ entry.totalLen ∧
      (entry.bytes ≠ [] ∨ entry.item.offset = entry.totalLen) := by
  simp only [StateEntry.validateFor,StateEntry.endOffset,Bool.and_eq_true,Bool.or_eq_true,Bool.not_eq_true',
    decide_eq_true_eq,List.isEmpty_eq_false_iff,and_assoc]
  by_cases small : entry.item.offset + entry.bytes.length < 2 ^ 64
  · rw [if_pos small,Option.any_some,decide_eq_true_eq]
    exact ⟨fun ⟨a,b,c,d⟩ => ⟨a,b,small,c,d⟩,fun ⟨a,b,_,c,d⟩ => ⟨a,b,c,d⟩⟩
  · rw [if_neg small]
    exact ⟨fun ⟨_,_,empty,_⟩ => absurd empty (by simp),fun ⟨_,_,fits,_⟩ => absurd fits small⟩

def StateEntry.joined (root : Hash β) (rows : Fragments β) (entry : StateEntry β) : List (Content β entry.item.kind) :=
  durable rows ⟨root,entry.item.kind,entry.item.hash⟩ ++ entry.bytes

structure Admitted (root : Hash β) (rows : Fragments β) (download : Download β) (expected : StateItem β) (entry : StateEntry β) : Prop where
  same : entry.item = expected
  within : entry.item.offset + entry.bytes.length ≤ entry.totalLen
  moves : entry.bytes ≠ [] ∨ entry.item.offset = entry.totalLen
  counts : entry.item.offset + entry.bytes.length < 2 ^ 64
  asked : entry.item ∈ download.pending
  small : entry.totalLen ≤ maxEntryBytes
  next : (durable rows (storageKey root entry.item.object)).length = entry.item.offset
  budget : download.bytes + entry.bytes.length ≤ defaultMaxBytes

def Download.taken (download : Download β) (entry : StateEntry β) : Download β :=
  { download with bytes := download.bytes + entry.bytes.length,pending := download.pending.erase entry.item }

inductive Taken (hasher : Hasher β) (root : Hash β) (rows : Fragments β) (download : Download β) (written : Fragments β)
    (entry : StateEntry β) : Except (Setback β) (Download β × Fragments β) → Prop where
  | refused {error} (complete : (entry.joined root rows).length = entry.totalLen)
      (failed : discoverWithin entry.item.kind (entry.joined root rows) (download.taken entry) = .error error) :
      Taken hasher root rows download written entry (.error (.refused error))
  | mismatched (complete : (entry.joined root rows).length = entry.totalLen)
      (wrong : hashContent hasher entry.item.kind (entry.joined root rows) ≠ entry.item.hash) :
      Taken hasher root rows download written entry (.error (.mismatched entry.item))
  | finished (complete : (entry.joined root rows).length = entry.totalLen)
      (right : hashContent hasher entry.item.kind (entry.joined root rows) = entry.item.hash) {found : Download β}
      (discovered : discoverWithin entry.item.kind (entry.joined root rows) (download.taken entry) = .ok found) :
      Taken hasher root rows download written entry
        (.ok (found.finishing entry.item.object,written.insert (storageKey root entry.item.object) (entry.joined root rows)))
  | extended (incomplete : (entry.joined root rows).length ≠ entry.totalLen) :
      Taken hasher root rows download written entry (.ok ({ download.taken entry with
            pending := (download.pending.erase entry.item).insert { entry.item with offset := (entry.joined root rows).length } },
          written.insert (storageKey root entry.item.object) (entry.joined root rows)))

variable {root : Hash β} {rows : Fragments β} {download : Download β}

theorem receiveEntry_taken (hasher : Hasher β) (written : Fragments β) (admitted : Admitted root rows download expected entry) :
    Taken hasher root rows download written entry (receiveEntry hasher root rows (download,written) expected entry) := by
  obtain ⟨same,within,moves,counts,asked,small,next,budget⟩ := admitted
  have valid : entry.validateFor expected = true := validateFor_ok.mpr ⟨same,by omega,counts,within,moves⟩
  rw [receiveEntry]
  simp only
  rw [ensure_pos valid,ok_bind,ensure_pos ⟨same ▸ asked,small⟩,ok_bind,ensure_pos next,ok_bind,ensure_pos budget,ok_bind]
  by_cases complete : (entry.joined root rows).length = entry.totalLen
  · rw [StateEntry.joined] at complete
    rw [if_pos complete]
    by_cases right : hashContent hasher entry.item.kind
        (durable rows ⟨root,entry.item.kind,entry.item.hash⟩ ++ entry.bytes) = entry.item.hash
    · rw [ensure_pos right,ok_bind]
      cases discovered : discoverWithin entry.item.kind (durable rows ⟨root,entry.item.kind,entry.item.hash⟩ ++ entry.bytes)
          { download with bytes := download.bytes + entry.bytes.length,pending := download.pending.erase entry.item } with
      | error reason => exact .refused complete discovered
      | ok found => exact .finished complete right discovered
    · rw [ensure_neg right]
      exact .mismatched complete right
  · rw [StateEntry.joined] at complete
    rw [if_neg complete]
    exact .extended complete

theorem receiveEntry_refused (barred : ¬Admitted root rows download expected entry) :
    ∃ error, receiveEntry hasher root rows (download,written) expected entry = .error (.refused error) := by
  rw [receiveEntry]
  simp only
  by_cases valid : entry.validateFor expected = true
  swap
  · exact ⟨_,by rw [ensure_neg valid]; rfl⟩
  rw [ensure_pos valid,ok_bind]
  by_cases asked : expected ∈ download.pending ∧ entry.totalLen ≤ maxEntryBytes
  swap
  · exact ⟨_,by rw [ensure_neg asked]; rfl⟩
  rw [ensure_pos asked,ok_bind]
  by_cases next : (durable rows ⟨root,entry.item.kind,entry.item.hash⟩).length = entry.item.offset
  swap
  · exact ⟨_,by rw [ensure_neg next]; rfl⟩
  rw [ensure_pos next,ok_bind]
  by_cases budget : download.bytes + entry.bytes.length ≤ defaultMaxBytes
  swap
  · exact ⟨_,by rw [ensure_neg budget]; rfl⟩
  obtain ⟨same,_,counts,within,moves⟩ := validateFor_ok.mp valid
  exact absurd ⟨same,within,moves,counts,same ▸ asked.1,asked.2,next,budget⟩ barred

theorem receiveEntry_cases (hasher : Hasher β) (root : Hash β) (rows written : Fragments β) (download : Download β)
    (expected : StateItem β) (entry : StateEntry β) :
    (∃ error, receiveEntry hasher root rows (download,written) expected entry = .error (.refused error)) ∨
      Admitted root rows download expected entry ∧
        Taken hasher root rows download written entry (receiveEntry hasher root rows (download,written) expected entry) :=
  (em (Admitted root rows download expected entry)).symm.imp receiveEntry_refused
    fun admitted => ⟨admitted,receiveEntry_taken hasher written admitted⟩

-- Rows only grow, and an object whose row has grown is done or pending elsewhere.
structure Staged (hasher : Hasher β) (map : StateMap) (start : Download β) (rows : Fragments β) (download : Download β)
    (written : Fragments β) : Prop where
  root : download.root = start.root
  durably : Durable hasher map download written
  keeps : ∀ object ∈ start.completed, object ∈ download.completed
  grown : ∀ object, object ∉ download.completed →
    written.lookup (storageKey start.root object) = rows.lookup (storageKey start.root object) ∨
      (durable rows (storageKey start.root object)).length < (durable written (storageKey start.root object)).length

theorem Durable.staged (durably : Durable hasher map download rows) : Staged hasher map download rows download rows :=
  ⟨rfl,durably,fun _ => id,fun _ _ => .inl rfl⟩

section
variable {start download after : Download β} {rows written more : Fragments β} {expected : StateItem β} {entry : StateEntry β}

theorem Staged.untouched (staged : Staged hasher map start rows download written) (entry : StateEntry β)
    (asked : entry.item ∈ download.pending) (next : (durable rows (storageKey start.root entry.item.object)).length = entry.item.offset) :
    written.lookup (storageKey start.root entry.item.object) = rows.lookup (storageKey start.root entry.item.object) := by
  have sized := staged.durably.sized _ asked
  rw [staged.root,← next] at sized
  exact (staged.grown _ (staged.durably.apart _ asked)).resolve_right (by omega)

theorem Staged.counted (staged : Staged hasher map start rows download written) (entry : StateEntry β)
    (asked : entry.item ∈ download.pending)
    (next : (durable rows (storageKey start.root entry.item.object)).length = entry.item.offset) : (download.taken entry).bytes =
      storedBytes (written.insert (storageKey start.root entry.item.object) (entry.joined start.root rows)) := by
  have total : storedBytes written = _ := tally_erase written (storageKey start.root entry.item.object)
  have row : (durable rows (storageKey start.root entry.item.object)).length =
      sizeAt (fun _ bytes => bytes.length) written (storageKey start.root entry.item.object) := by
    rw [← durable_length,durable,durable,staged.untouched entry asked next]
  have joined : (entry.joined start.root rows).length =
      (durable rows (storageKey start.root entry.item.object)).length + entry.bytes.length := List.length_append
  have sum : storedBytes (written.insert (storageKey start.root entry.item.object) (entry.joined start.root rows)) = _ :=
    tally_insert written (storageKey start.root entry.item.object) (entry.joined start.root rows)
  show download.bytes + entry.bytes.length = _
  rw [sum,staged.durably.counted,total,joined,row]
  omega

theorem joined_length (admitted : Admitted start.root rows download expected entry) :
    (entry.joined start.root rows).length = entry.item.offset + entry.bytes.length := by
  rw [StateEntry.joined,List.length_append,← admitted.next]

theorem discover_completed {object : StateItemKind × Hash β} (found : download.discover object.1 object.2 = .ok after) :
    after.completed = download.completed ∧ after.root = download.root ∧ after.bytes = download.bytes := by
  obtain ⟨rfl,_⟩ | ⟨rfl,_⟩ := discover_ok found <;> exact ⟨rfl,rfl,rfl⟩

theorem discoverAll_completed (found : discoverAll objects download = .ok after) :
    after.completed = download.completed ∧ after.root = download.root ∧ after.bytes = download.bytes := by
  induction objects generalizing download with
  | nil =>
    cases found
    exact ⟨rfl,rfl,rfl⟩
  | cons object rest ih =>
    obtain ⟨middle,first,others⟩ := bind_ok.mp found
    obtain ⟨completed,root,bytes⟩ := ih others
    rw [completed,root,bytes]
    exact discover_completed first

theorem discoverWithin_completed (found : discoverWithin kind content download = .ok after) :
    after.completed = download.completed ∧ after.root = download.root ∧ after.bytes = download.bytes :=
  discoverAll_completed (discoverWithin_ok found)

theorem genuine_joined (injective : hasher.Injective) (durably : Durable hasher map download written)
    (admitted : Admitted start.root rows download expected entry)
    (right : hashContent hasher entry.item.kind (entry.joined start.root rows) = entry.item.hash) :
    Genuine hasher (canonicalTree map) entry.item.kind (entry.joined start.root rows) := by
  obtain ⟨content,genuine,same⟩ := durably.named _ (.inr ⟨_,admitted.asked,rfl⟩)
  rwa [hashContent_injective injective entry.item.kind (right.trans same.symm)]

theorem entry_staged (injective : hasher.Injective) (fits : AllFit map) (staged : Staged hasher map start rows download written)
    (ran : receiveEntry hasher start.root rows (download,written) expected entry = .ok (after,more)) :
    Staged hasher map start rows after more := by
  obtain ⟨error,failed⟩ | ⟨admitted,taken⟩ := receiveEntry_cases hasher start.root rows written download expected entry
  · rw [failed] at ran
    cases ran
  rw [ran] at taken
  have counted := staged.counted entry admitted.asked admitted.next
  have fresh := staged.durably.apart _ admitted.asked
  have grows {object : StateItemKind × Hash β} (differs : object ≠ entry.item.object) :
      (written.insert (storageKey start.root entry.item.object) (entry.joined start.root rows)).lookup
        (storageKey start.root object) = written.lookup (storageKey start.root object) :=
    AList.lookup_insert_ne fun same => differs (storageKey_inj.mp same)
  cases taken with
  | finished complete right discovered =>
    rename_i found
    have genuine := genuine_joined injective staged.durably admitted right
    obtain ⟨completed,root,_⟩ := discoverWithin_completed discovered
    refine ⟨root.trans staged.root,?_,fun query before => ?_,fun query other => ?_⟩
    · have whole : Durable hasher map ((download.taken entry).finishing entry.item.object)
          (written.insert (storageKey start.root entry.item.object) (entry.joined start.root rows)) :=
        staged.durably.finish staged.root admitted.asked right counted
      obtain ⟨_,known⟩ := genuine_within injective fits genuine
      rw [right] at known
      exact discoverAll_durable whole known (discoverWithin_ok discovered)
    · exact List.mem_insert_of_mem (completed ▸ staged.keeps query before)
    · have differs : query ≠ entry.item.object := fun same => other (List.mem_insert_iff.mpr (.inl same))
      simp only [durable,grows differs]
      exact staged.grown query fun before => other (List.mem_insert_of_mem (completed ▸ before))
  | extended incomplete =>
    have size := joined_length admitted
    have row : (written.insert (storageKey start.root entry.item.object) (entry.joined start.root rows)).lookup
        (storageKey start.root entry.item.object) = some (entry.joined start.root rows) := AList.lookup_insert _
    refine ⟨staged.root,?_,staged.keeps,fun query other => ?_⟩
    · refine staged.durably.swap (staged.durably.sized _ admitted.asked) fresh
        (staged.durably.named _ (.inr ⟨_,admitted.asked,rfl⟩)) (fun key differs => ?_) ?_ counted
      · exact AList.lookup_insert_ne (staged.root ▸ differs)
      · rw [staged.root,durable,row]
        rfl
    · by_cases same : query = entry.item.object
      · subst same
        right
        have longer : 0 < entry.bytes.length := by
          rcases admitted.moves with some | ended
          · exact List.length_pos_iff.mpr some
          · have within := admitted.within
            omega
        rw [admitted.next,durable,row,Option.getD_some,size]
        omega
      · simp only [durable,grows same]
        exact staged.grown query other

variable {batch : List (StateItem β × StateEntry β)}

theorem receiveAll_staged (injective : hasher.Injective) (fits : AllFit map) (staged : Staged hasher map start rows download written)
    (ran : receiveAll hasher start.root rows batch (download,written) = .ok (after,more)) : Staged hasher map start rows after more := by
  induction batch generalizing download written with
  | nil =>
    cases ran
    exact staged
  | cons first rest ih =>
    obtain ⟨⟨middle,half⟩,one,others⟩ := bind_ok.mp ran
    exact ih (entry_staged injective fits staged one) others

theorem receiveAll_mismatched (injective : hasher.Injective) (fits : AllFit map) (staged : Staged hasher map start rows download written)
    (stopped : receiveAll hasher start.root rows batch (download,written) = .error (.mismatched item)) :
    ∃ middle half entry, Staged hasher map start rows middle half ∧ (item,entry) ∈ batch ∧ entry.item = item ∧
      Admitted start.root rows middle item entry ∧ (entry.joined start.root rows).length = entry.totalLen ∧
      hashContent hasher entry.item.kind (entry.joined start.root rows) ≠ entry.item.hash := by
  induction batch generalizing download written with
  | nil => cases stopped
  | cons first rest ih =>
    obtain ⟨expected,entry⟩ := first
    rcases bind_error.mp stopped with now | ⟨⟨middle,half⟩,one,later⟩
    · obtain ⟨error,failed⟩ | ⟨admitted,taken⟩ := receiveEntry_cases hasher start.root rows written download expected entry
      · rw [failed] at now
        cases now
      · rw [now] at taken
        cases taken with
        | mismatched complete wrong =>
          have same := admitted.same
          subst same
          exact ⟨download,written,entry,staged,by simp,rfl,admitted,complete,wrong⟩
    · obtain ⟨last,half,entry,staged,listed,found⟩ := ih (entry_staged injective fits staged one) later
      exact ⟨last,half,entry,staged,by simp [listed],found⟩

theorem reset_durable (durably : Durable hasher map start rows) (staged : Staged hasher map start rows download written)
    (admitted : Admitted start.root rows download expected entry) : Durable hasher map { start with
      pending := (start.pending.erase entry.item).insert { entry.item with offset := 0 }
      bytes := start.bytes - entry.item.offset } (rows.erase (storageKey start.root entry.item.object)) := by
  have gone : (rows.erase (storageKey start.root entry.item.object)).lookup (storageKey start.root entry.item.object) = none :=
    AList.lookup_erase _ _
  refine durably.swap admitted.next (fun finished => staged.durably.apart _ admitted.asked (staged.keeps _ finished))
    (staged.durably.named _ (.inr ⟨_,admitted.asked,rfl⟩)) (fun key differs => AList.lookup_erase_ne differs) ?_ ?_
  · rw [durable,gone]
    rfl
  · have total : storedBytes rows = _ := tally_erase rows (storageKey start.root entry.item.object)
    have row := durable_length rows (storageKey start.root entry.item.object)
    rw [admitted.next] at row
    rw [durably.counted,total,row,Nat.add_sub_cancel_left]
    rfl
end
section
variable {store : DownloadStore β} {root : Hash β}

-- The store of a download for a root, before and after its first batch.
def Sound (hasher : Hasher β) (map : StateMap) (root : Hash β) (store : DownloadStore β) : Prop :=
  match store.download with
  | none => store.fragments = ∅
  | some download => download.root = root ∧ Durable hasher map download store.fragments

theorem new_durable (committed : root = hasher.rootOf (canonicalTree map)) : Durable hasher map (Download.new root) ∅ := by
  have pending {item : StateItem β} (listed : item ∈ (Download.new root).pending) : root ≠ zeroHash ∧ item = .node root := by
    simp only [Download.new] at listed
    split at listed
    · cases listed
    · exact ⟨by assumption,List.mem_singleton.mp listed⟩
  refine ⟨fun item listed => ?_,?_,fun item _ => List.not_mem_nil,by simp,fun _ finished => absurd finished List.not_mem_nil,?_,rfl⟩
  · rw [(pending listed).2]
    rfl
  · simp only [Download.new]
    split <;> simp
  · rintro object (finished | ⟨item,listed,rfl⟩)
    · cases finished
    · obtain ⟨some,rfl⟩ := pending listed
      cases whole : canonicalTree map with
      | none => exact absurd (by rw [committed,whole]; rfl) some
      | some tree =>
        refine ⟨(hasher.top tree).encode,⟨tree,rfl,tree,tree.self_subtree,rfl⟩,?_⟩
        rw [whole] at committed
        exact (root_top hasher tree).symm.trans committed.symm

theorem load_from (loaded : load store root = .ok download) :
    store.download = some download ∨ store.download = none ∧ download = Download.new root := by
  unfold load at loaded
  cases held : store.download with
  | none =>
    simp only [held] at loaded
    cases loaded
    exact .inr ⟨rfl,rfl⟩
  | some stored =>
    simp only [held,bind_ok,ensure_ok,pure_ok] at loaded
    obtain ⟨_,_,_,_,_,_,rfl⟩ := loaded
    exact .inl rfl

theorem load_durable (committed : root = hasher.rootOf (canonicalTree map)) (sound : Sound hasher map root store)
    (loaded : load store root = .ok download) : download.root = root ∧ Durable hasher map download store.fragments := by
  unfold Sound at sound
  obtain held | ⟨held,rfl⟩ := load_from loaded <;> simp only [held] at sound
  · exact sound
  · exact ⟨rfl,sound ▸ new_durable committed⟩

-- Nothing, or one object with the wrong content is pending from its first byte.
def ResetOnly (hasher : Hasher β) (store after : DownloadStore β) (root : Hash β) (requested : List (StateItem β))
    (entries : List (StateEntry β)) : Prop :=
  ∃ download entry again, load store root = .ok download ∧ (entry.item,entry) ∈ requested.zip entries ∧
    (entry.joined root store.fragments).length = entry.totalLen ∧
    hashContent hasher entry.item.kind (entry.joined root store.fragments) ≠ entry.item.hash ∧
    after.download = some again ∧ again.root = download.root ∧ again.completed = download.completed ∧
    (∀ item, item ∈ again.pending ↔ item = { entry.item with offset := 0 } ∨ item ∈ download.pending ∧ item.object ≠ entry.item.object) ∧
    after.fragments = store.fragments.erase (storageKey root entry.item.object)

theorem receive_sound (injective : hasher.Injective) (fits : AllFit map)
    (committed : root = hasher.rootOf (canonicalTree map)) (sound : Sound hasher map root store)
    (requested : List (StateItem β)) (entries : List (StateEntry β)) :
    Sound hasher map root (receiveStateEntries hasher store root requested entries).1 ∧
      ∀ error, (receiveStateEntries hasher store root requested entries).2 = .error error →
        (receiveStateEntries hasher store root requested entries).1 = store ∨
          ResetOnly hasher store (receiveStateEntries hasher store root requested entries).1 root requested entries := by
  rw [receiveStateEntries]
  split
  · exact ⟨sound,fun _ _ => .inl rfl⟩
  split
  · exact ⟨sound,fun _ _ => .inl rfl⟩
  rename_i download loaded
  obtain ⟨rfl,durably⟩ := load_durable committed sound loaded
  split
  · exact ⟨sound,fun _ _ => .inl rfl⟩
  · rename_i item stopped
    obtain ⟨middle,half,entry,staged,listed,rfl,admitted,complete,wrong⟩ := receiveAll_mismatched injective fits durably.staged stopped
    refine ⟨⟨rfl,reset_durable durably staged admitted⟩,fun _ _ => .inr ?_⟩
    exact ⟨download,entry,_,loaded,listed,complete,wrong,rfl,rfl,rfl,fun item => durably.mem_swap admitted.next,rfl⟩
  · rename_i after written ran
    have staged := receiveAll_staged injective fits durably.staged ran
    exact ⟨⟨staged.root,staged.durably⟩,fun _ failed => by cases failed⟩
end

-- Answers, from whoever and to whatever request, and restarts, which keep the rows.
inductive DownloadEvent (β : Type) where
  | receive (requested : List (StateItem β)) (entries : List (StateEntry β))
  | restart

def DownloadEvent.apply (hasher : Hasher β) (root : Hash β) (store : DownloadStore β) : DownloadEvent β → DownloadStore β
  | .receive requested entries => (receiveStateEntries hasher store root requested entries).1
  | .restart => store

def downloadRun (hasher : Hasher β) (root : Hash β) (events : List (DownloadEvent β)) : DownloadStore β :=
  events.foldl (DownloadEvent.apply hasher root) .empty

theorem run_sound (injective : hasher.Injective) (fits : AllFit map)
    (committed : root = hasher.rootOf (canonicalTree map)) (events : List (DownloadEvent β)) :
    Sound hasher map root (downloadRun hasher root events) := by
  refine List.foldlRecOn events _ rfl fun store sound event _ => ?_
  cases event with
  | restart => exact sound
  | receive requested entries => exact (receive_sound injective fits committed sound requested entries).1
end Neutrino.StateSync
