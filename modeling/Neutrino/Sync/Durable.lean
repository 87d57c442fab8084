import Neutrino.Library.Tally
import Neutrino.Sync.Objects

-- A download's rows, whoever answers: an object is pending at its row's length,
-- completed rows have their digest's content, the count is the sum of the rows.

namespace Neutrino.StateSync
open Checks Bits Patricia StateTrie Tally
variable {β : Type} [Alphabet β] [DecidableEq β]

def Download.Lists (download : Download β) (object : StateItemKind × Hash β) : Prop :=
  object ∈ download.completed ∨ ∃ item ∈ download.pending, item.object = object

abbrev storageKey (root : Hash β) (object : StateItemKind × Hash β) : StateKey β := ⟨root,object.1,object.2⟩
def storedBytes (rows : Fragments β) : Nat := tally (fun _ bytes => bytes.length) rows

structure Durable (hasher : Hasher β) (map : StateMap) (download : Download β) (rows : Fragments β) : Prop where
  sized : ∀ item ∈ download.pending, (durable rows (storageKey download.root item.object)).length = item.offset
  single : (download.pending.map StateItem.object).Nodup
  apart : ∀ item ∈ download.pending, item.object ∉ download.completed
  held : ∀ object, (rows.lookup (storageKey download.root object)).isSome → download.Lists object
  done : ∀ object ∈ download.completed, ∃ bytes, rows.lookup (storageKey download.root object) = some bytes ∧
    hashContent hasher object.1 bytes = object.2
  named : ∀ object, download.Lists object → Named hasher (canonicalTree map) object
  counted : download.bytes = storedBytes rows

variable {hasher : Hasher β} {map : StateMap} {download : Download β} {rows written : Fragments β} {root : Hash β}

theorem Durable.right (durably : Durable hasher map download rows) (finished : object ∈ download.completed)
    (row : rows.lookup (storageKey download.root object) = some content) : hashContent hasher object.1 content = object.2 := by
  obtain ⟨bytes,stored,correct⟩ := durably.done object finished
  cases row.symm.trans stored
  exact correct

theorem storageKey_inj : storageKey root one = storageKey root two ↔ one = two := by
  constructor
  · intro same
    obtain ⟨kind,hash⟩ := one
    obtain ⟨other,digest⟩ := two
    cases same
    rfl
  · exact congrArg _

theorem durable_length (rows : Fragments β) (key : StateKey β) :
    (durable rows key).length = sizeAt (fun _ bytes => bytes.length) rows key := by
  unfold durable sizeAt
  cases rows.lookup key <;> rfl

variable {item other : StateItem β}

theorem mem_erase_single {pending : List (StateItem β)} (single : (pending.map StateItem.object).Nodup)
    (listed : item ∈ pending) : other ∈ pending.erase item ↔ other ∈ pending ∧ other.object ≠ item.object := by
  rw [(List.Nodup.of_map _ single).mem_erase_iff]
  constructor
  · rintro ⟨differs,member⟩
    exact ⟨member,fun same => differs (List.inj_on_of_nodup_map single member listed same)⟩
  · rintro ⟨member,differs⟩
    exact ⟨fun same => differs (congrArg _ same),member⟩

theorem Durable.mem_erase (durably : Durable hasher map download rows)
    (here : (durable rows (storageKey download.root item.object)).length = item.offset) :
    other ∈ download.pending.erase item ↔ other ∈ download.pending ∧ other.object ≠ item.object := by
  by_cases listed : item ∈ download.pending
  · exact mem_erase_single durably.single listed
  · rw [List.erase_of_not_mem listed]
    refine ⟨fun member => ⟨member,fun same => ?_⟩,And.left⟩
    have there := durably.sized other member
    rw [same,here] at there
    obtain ⟨kind,hash,offset⟩ := item
    obtain ⟨other,digest,start⟩ := other
    cases same
    simp only at there
    exact listed (there ▸ member)

variable {length : Nat}

theorem Durable.mem_swap (durably : Durable hasher map download rows)
    (here : (durable rows (storageKey download.root item.object)).length = item.offset) :
    other ∈ (download.pending.erase item).insert { item with offset := length } ↔
      other = { item with offset := length } ∨ other ∈ download.pending ∧ other.object ≠ item.object := by
  rw [List.mem_insert_iff,durably.mem_erase here]

variable {bytes : Nat} {object : StateItemKind × Hash β}

theorem Durable.lists_swap (durably : Durable hasher map download rows)
    (here : (durable rows (storageKey download.root item.object)).length = item.offset) :
    ({ download with pending := (download.pending.erase item).insert { item with offset := length },bytes := bytes } :
      Download β).Lists object ↔ object = item.object ∨ download.Lists object := by
  constructor
  · rintro (member | ⟨other,listed,rfl⟩)
    · exact .inr (.inl member)
    · rcases (durably.mem_swap here).mp listed with rfl | ⟨member,_⟩
      · exact .inl rfl
      · exact .inr (.inr ⟨other,member,rfl⟩)
  · by_cases same : object = item.object
    · exact fun _ => .inr ⟨_,(durably.mem_swap here).mpr (.inl rfl),same.symm⟩
    · rintro (equal | member | ⟨other,member,rfl⟩)
      · exact absurd equal same
      · exact .inl member
      · exact .inr ⟨other,(durably.mem_swap here).mpr (.inr ⟨member,same⟩),rfl⟩

theorem Durable.swap (durably : Durable hasher map download rows)
    (here : (durable rows (storageKey download.root item.object)).length = item.offset)
    (fresh : item.object ∉ download.completed) (named : Named hasher (canonicalTree map) item.object)
    (others : ∀ key, key ≠ storageKey download.root item.object → written.lookup key = rows.lookup key)
    (long : (durable written (storageKey download.root item.object)).length = length) (counted : bytes = storedBytes written) :
    Durable hasher map { download with
      pending := (download.pending.erase item).insert { item with offset := length },bytes := bytes } written := by
  have kept {object : StateItemKind × Hash β} (differs : object ≠ item.object) :
      written.lookup (storageKey download.root object) = rows.lookup (storageKey download.root object) :=
    others _ fun same => differs (storageKey_inj.mp same)
  have unlisted : { item with offset := length } ∉ download.pending.erase item := fun member =>
    ((durably.mem_erase here).mp member).2 rfl
  refine ⟨fun other listed => ?_,?_,fun other listed => ?_,fun object present => ?_,fun object finished => ?_,
    fun object listed => ?_,counted⟩
  · rcases (durably.mem_swap here).mp listed with rfl | ⟨member,differs⟩
    · exact long
    · rw [← durably.sized other member,durable,durable,kept differs]
  · rw [List.insert_of_not_mem unlisted,List.map_cons,List.nodup_cons]
    refine ⟨fun member => ?_,(List.erase_sublist.map _).nodup durably.single⟩
    obtain ⟨other,listed,same⟩ := List.mem_map.mp member
    exact ((durably.mem_erase here).mp listed).2 same
  · rcases (durably.mem_swap here).mp listed with rfl | ⟨member,_⟩
    · exact fresh
    · exact durably.apart other member
  · by_cases same : object = item.object
    · exact (durably.lists_swap here).mpr (.inl same)
    · exact (durably.lists_swap here).mpr (.inr (durably.held object (by rwa [← kept same])))
  · have differs : object ≠ item.object := fun same => fresh (same ▸ finished)
    rw [kept differs]
    exact durably.done object finished
  · rcases (durably.lists_swap here).mp listed with rfl | before
    · exact named
    · exact durably.named object before

theorem Durable.finish (durably : Durable hasher map download rows) (rooted : download.root = root)
    (listed : item ∈ download.pending) {content : List (Content β item.kind)} (correct : hashContent hasher item.kind content = item.hash)
    (counted : bytes = storedBytes (rows.insert (storageKey root item.object) content)) : Durable hasher map { download with
      pending := download.pending.erase item,completed := download.completed.insert item.object,bytes := bytes }
      (rows.insert (storageKey root item.object) content) := by
  subst rooted
  have mem {other : StateItem β} : other ∈ download.pending.erase item ↔
      other ∈ download.pending ∧ other.object ≠ item.object := mem_erase_single durably.single listed
  have kept {object : StateItemKind × Hash β} (differs : object ≠ item.object) :
      (rows.insert (storageKey download.root item.object) content).lookup (storageKey download.root object) =
        rows.lookup (storageKey download.root object) :=
    AList.lookup_insert_ne fun same => differs (storageKey_inj.mp same)
  refine ⟨fun other member => ?_,?_,fun other member => ?_,fun object present => ?_,fun object finished => ?_,
    fun object lists => ?_,counted⟩
  · obtain ⟨before,differs⟩ := mem.mp member
    rw [← durably.sized other before,durable,durable,kept differs]
  · exact (List.erase_sublist.map _).nodup durably.single
  · obtain ⟨before,differs⟩ := mem.mp member
    rw [List.mem_insert_iff]
    rintro (same | finished)
    · exact differs same
    · exact durably.apart other before finished
  · by_cases same : object = item.object
    · exact .inl (List.mem_insert_iff.mpr (.inl same))
    · rcases durably.held object (by rwa [← kept same]) with finished | ⟨other,member,rfl⟩
      · exact .inl (List.mem_insert_of_mem finished)
      · exact .inr ⟨other,mem.mpr ⟨member,same⟩,rfl⟩
  · rcases List.mem_insert_iff.mp finished with rfl | before
    · exact ⟨content,AList.lookup_insert _,correct⟩
    · rw [kept fun same => durably.apart item listed (same ▸ before)]
      exact durably.done object before
  · rcases lists with finished | ⟨other,member,rfl⟩
    · rcases List.mem_insert_iff.mp finished with rfl | before
      · exact durably.named _ (.inr ⟨item,listed,rfl⟩)
      · exact durably.named object (.inl before)
    · exact durably.named _ (.inr ⟨other,(mem.mp member).1,rfl⟩)

variable {after : Download β}

theorem discover_ok (found : download.discover object.1 object.2 = .ok after) :
    (after = download ∧ (object = (.node,zeroHash) ∨ download.Lists object)) ∨
      (after = { download with pending := ⟨object.1,object.2,0⟩::download.pending } ∧ object ≠ (.node,zeroHash) ∧
        ¬download.Lists object ∧ download.completed.length + download.pending.length < maxEntries) := by
  obtain ⟨kind,hash⟩ := object
  rw [Download.discover] at found
  split at found
  · rename_i zero
    cases found
    exact .inl ⟨rfl,.inl (Prod.ext zero.1 zero.2)⟩
  rename_i some
  have nonzero : (kind,hash) ≠ (.node,zeroHash) := fun same => some (by simpa using same)
  split at found
  · rename_i fresh
    simp only [bind_ok,ensure_ok,pure_ok] at found
    obtain ⟨_,room,rfl⟩ := found
    have unlisted : ¬download.Lists (kind,hash) := by
      rintro (finished | ⟨item,listed,same⟩)
      · exact fresh.1 finished
      · exact fresh.2 item listed same
    refine .inr ⟨?_,nonzero,unlisted,room⟩
    rw [List.insert_of_not_mem fun member => unlisted (.inr ⟨_,member,rfl⟩)]
  · rename_i known
    cases found
    refine .inl ⟨rfl,.inr (by_contra fun unlisted => known ⟨fun finished => unlisted (.inl finished),?_⟩)⟩
    exact fun item listed same => unlisted (.inr ⟨item,listed,same⟩)

def Download.finishing (download : Download β) (object : StateItemKind × Hash β) : Download β :=
  { download with completed := download.completed.insert object }

variable {finished : StateItemKind × Hash β}

theorem lists_finishing : (download.finishing finished).Lists object ↔ object = finished ∨ download.Lists object := by
  simp only [Download.Lists,Download.finishing,List.mem_insert_iff,or_assoc]

theorem discover_durable (durably : Durable hasher map (download.finishing finished) rows)
    (named : Named hasher (canonicalTree map) object) (other : object ≠ finished)
    (found : download.discover object.1 object.2 = .ok after) : Durable hasher map (after.finishing finished) rows := by
  obtain ⟨rfl,_⟩ | ⟨rfl,_,fresh,_⟩ := discover_ok found
  · exact durably
  have unlisted : ¬(download.finishing finished).Lists object := fun listed =>
    (lists_finishing.mp listed).elim other fresh
  have empty : rows.lookup (storageKey download.root object) = none := by
    rw [← Option.not_isSome_iff_eq_none]
    exact fun present => unlisted (durably.held object present)
  have lists {query : StateItemKind × Hash β} :
      (({ download with pending := ⟨object.1,object.2,0⟩::download.pending } : Download β).finishing finished).Lists query ↔
        query = object ∨ (download.finishing finished).Lists query := by
    simp only [Download.Lists,Download.finishing,List.mem_cons,exists_eq_or_imp]
    constructor
    · rintro (done | rfl | pending)
      · exact .inr (.inl done)
      · exact .inl rfl
      · exact .inr (.inr pending)
    · rintro (rfl | done | pending)
      · exact .inr (.inl rfl)
      · exact .inl done
      · exact .inr (.inr pending)
  refine ⟨fun item listed => ?_,?_,fun item listed => ?_,fun query present => lists.mpr (.inr (durably.held query present)),
    durably.done,fun query listed => ?_,durably.counted⟩
  · rcases List.mem_cons.mp listed with rfl | before
    · show (durable rows (storageKey download.root object)).length = 0
      rw [durable,empty]
      rfl
    · exact durably.sized item before
  · refine List.nodup_cons.mpr ⟨fun member => ?_,durably.single⟩
    obtain ⟨item,listed,same⟩ := List.mem_map.mp member
    exact unlisted (.inr ⟨item,listed,same⟩)
  · rcases List.mem_cons.mp listed with rfl | before
    · exact fun done => unlisted (.inl done)
    · exact durably.apart item before
  · rcases lists.mp listed with rfl | before
    · exact named
    · exact durably.named query before

theorem discoverAll_durable (durably : Durable hasher map (download.finishing finished) rows)
    (named : ∀ object ∈ objects, Named hasher (canonicalTree map) object ∧ object ≠ finished)
    (found : discoverAll objects download = .ok after) : Durable hasher map (after.finishing finished) rows := by
  induction objects generalizing download with
  | nil =>
    cases found
    exact durably
  | cons object rest ih =>
    obtain ⟨middle,first,others⟩ := bind_ok.mp found
    obtain ⟨genuine,other⟩ := named object (by simp)
    exact ih (discover_durable durably genuine other first) (fun query listed => named query (by simp [listed])) others
end Neutrino.StateSync
