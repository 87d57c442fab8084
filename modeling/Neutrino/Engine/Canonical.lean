import Neutrino.Engine.Finality

-- The canonical height index (store/canonical.rs): the ancestry of the tip after
-- every call, left alone by a call that fails.
namespace Neutrino.ConsensusEngine
open Checks Consensus Chain Proving ColumnStore Effects
variable {Hash Key Sig State Blob Node Value Tr : Type} [DecidableEq Hash] [DecidableEq Key] [DecidableEq Sig]
variable (host : EngineHost Hash Key Sig State Blob Node Value Tr)

section
variable (db : Database Hash Key Sig Blob Node Value)

def indexedHeights : List Nat := db.scan fun key => match key with
  | .headerByHeight height => some height
  | _ => none

-- The selected ancestry down to the anchor, every header where the index has it.
def walkIndex (anchorHeight : Nat) : Nat → Hash → Except StoreError Hash
  | 0,cursor => .ok cursor
  | below+1,cursor =>
    if below + 1 ≤ anchorHeight then .ok cursor
    else do
      let header ← chainHeader host db cursor
      ensure (header.height = below + 1 ∧ db.rows (.headerByHeight (below + 1)) = some cursor)
        (.corrupt "canonical index disagrees with selected ancestry")
      walkIndex anchorHeight below header.parentHash

def tipHeight (tip genesis : Hash) : Except StoreError Nat :=
  if tip = genesis then .ok 0 else (chainHeader host db tip).map (·.height)

def storedBoundary (count : Nat) : Except StoreError (Option (ConsensusBoundary Hash)) := do
  let found := db.rows (.counted .consensusBoundaries count)
  ensure (∀ boundary ∈ found, boundary.nextChunkId = count) (.corrupt "consensus boundary key mismatch")
  pure found

def retainedAnchor (info : RetentionInfo) (genesis : Hash) : Except StoreError Hash :=
  if info.prunedBeforeChunk = 0 then .ok genesis
  else do
    let found ← storedBoundary db info.prunedBeforeChunk
    let boundary ← required found (.corrupt "retained consensus anchor is missing")
    ensure (boundary.height = info.firstRetainedHeight - 1) (.corrupt "retained consensus anchor is inconsistent")
    let header ← chainHeader host db boundary.blockHash
    ensure (header.stateRoot = boundary.stateRoot) (.corrupt "retained consensus anchor is inconsistent")
    pure boundary.blockHash

def expectedEntries (height anchorHeight : Nat) : Option Nat := do
  let above ← checkedSub height anchorHeight
  checkedAdd above (if anchorHeight = 0 then 1 else 2)

def validateCanonicalIndex (genesis : Hash) : Except StoreError Unit := do
  let tip ← required (db.rows .tip) (.corrupt "tip is missing")
  let height ← tipHeight host db tip genesis
  let info ← retentionInfo db
  let anchorHeight := info.firstRetainedHeight - 1
  ensure (anchorHeight ≤ height) (.corrupt "tip precedes retained anchor")
  let cursor ← walkIndex host db anchorHeight height tip
  let anchor ← retainedAnchor host db info genesis
  ensure (cursor = anchor ∧ db.rows (.headerByHeight anchorHeight) = some anchor ∧ db.rows (.headerByHeight 0) = some genesis)
    (.corrupt "canonical retained anchor is inconsistent")
  ensure ((indexedHeights db).length ≤ maxU64) (.corrupt "height index size overflow")
  ensure (some (indexedHeights db).length = expectedEntries height anchorHeight)
    (.corrupt "canonical index contains missing or stale heights")
end
section
abbrev StoreM (Hash Key Sig Blob Node Value : Type) := EStateM StoreError (Database Hash Key Sig Blob Node Value)

def writeBatch (accepts : Bool) (batch : RowBatch Hash Key Sig Blob Node Value) : StoreM Hash Key Sig Blob Node Value Unit := fun db =>
  if accepts then .ok () (db.write batch) else .error .database db

def putHeader (stored slotted : Bool) (header : Header Hash Sig) : StoreM Hash Key Sig Blob Node Value Hash := do
  let hash := blockHash host header
  writeBatch stored [.put (.header hash) header]
  writeBatch slotted [.put (.headerBySlot header.slot) hash]
  pure hash

def commitTip (accepts : Bool) (hash genesis : Hash) (batch : RowBatch Hash Key Sig Blob Node Value) :
    StoreM Hash Key Sig Blob Node Value Unit := do
  let db ← get
  let full ← attempt (commitTipBatch host db hash genesis batch)
  writeBatch accepts full

-- Rows beside headers: not the index, the tip or the retention record.
def callerKey : RowKey Hash Key → Bool
  | .headerByHeight _ | .tip | .historyRetention => false
  | _ => true

def CallerRow (op : Op (Row Hash Key Sig Blob Node Value)) : Prop := callerKey op.key = true ∧ ∀ hash, op ≠ .delete (.header hash)

inductive StoreCall (Hash Key Sig Blob Node Value : Type) where
  | archive (stored slotted : Bool) (header : Header Hash Sig)
  | publish (accepts : Bool) (hash : Hash) (batch : RowBatch Hash Key Sig Blob Node Value)
      (rows : ∀ op ∈ batch, CallerRow op)

def StoreCall.perform (genesis : Hash) : StoreCall Hash Key Sig Blob Node Value → StoreM Hash Key Sig Blob Node Value Unit
  | .archive stored slotted header => do
    let _ ← putHeader host stored slotted header
    pure ()
  | .publish accepts hash batch _ => commitTip host accepts hash genesis batch

def StoreStep (genesis : Hash) (before : Database Hash Key Sig Blob Node Value)
    (call : StoreCall Hash Key Sig Blob Node Value) (after : Database Hash Key Sig Blob Node Value) : Prop :=
  after = finalState (call.perform host genesis) before
end

-- The selected branch, genesis first, each later block a child of the one before.
structure Lineage (db : Database Hash Key Sig Blob Node Value) (genesis : Hash) (spine : List Hash) : Prop where
  root : spine[0]? = some genesis
  linked : ∀ height child, spine[height+1]? = some child →
    ∃ header, db.rows (.header child) = some header ∧ header.height = height + 1 ∧ spine[height]? = some header.parentHash

def Keyed (db : Database Hash Key Sig Blob Node Value) : Prop :=
  ∀ hash header, db.rows (.header hash) = some header → blockHash host header = hash

structure Indexed (db : Database Hash Key Sig Blob Node Value) (genesis : Hash) (spine : List Hash) : Prop where
  keyed : Keyed host db
  unpruned : ∃ policy, retentionInfo db = .ok ⟨policy,0,1⟩
  lineage : Lineage db genesis spine
  tip : db.rows .tip = spine.getLast?
  index : ∀ height, db.rows (.headerByHeight height) = spine[height]?
  bottom : spine.getLast? = some genesis → spine.length = 1

-- A store whose genesis has been published and that has archived nothing yet.
structure Initialized (db : Database Hash Key Sig Blob Node Value) (genesis : Hash) : Prop where
  headers : ∀ hash, db.rows (.header hash) = none
  unpruned : ∃ policy, retentionInfo db = .ok ⟨policy,0,1⟩
  tip : db.rows .tip = some genesis
  index : ∀ height, db.rows (.headerByHeight height) = if height = 0 then some genesis else none

theorem initialized_indexed (initial : Initialized db genesis) : Indexed host db genesis [genesis] where
  keyed hash header stored := by simp [initial.headers] at stored
  unpruned := initial.unpruned
  lineage := ⟨rfl,fun height child beyond => by simp at beyond⟩
  tip := initial.tip
  index height := by cases height <;> simp [initial.index]
  bottom _ := rfl

def AddsHeaders (batch : RowBatch Hash Key Sig Blob Node Value) : Prop :=
  (∀ hash header, .put (.header hash) header ∈ batch → blockHash host header = hash) ∧ ∀ hash, .delete (.header hash) ∉ batch

section
variable {host}

theorem chain_header_ok {hash : Hash} : chainHeader host db hash = .ok header ↔
      db.rows (.header hash) = some header ∧ blockHash host header = hash ∧ header.height ≠ 0 := by
  simp only [chainHeader,bind_ok,required_ok,ensure_ok,pure_ok]
  constructor
  · rintro ⟨_,stored,_,valid,rfl⟩
    exact ⟨stored,valid⟩
  · rintro ⟨stored,valid⟩
    exact ⟨header,stored,(),valid,rfl⟩

theorem keyed_write (keyed : Keyed host db) (adds : AddsHeaders host batch) : Keyed host (db.write batch) := by
  intro hash header stored
  rcases write_mem stored with old | added
  · exact keyed hash header old
  · exact adds.1 hash header added

theorem header_stays (injective : Function.Injective host.headerHash) (keyed : Keyed host db) (adds : AddsHeaders host batch) {hash : Hash}
    (known : blockHash host header = hash) (source : db.rows (.header hash) ≠ none ∨ ∃ row, .put (.header hash) row ∈ batch) :
    ∃ stored, (db.write batch).rows (.header hash) = some stored ∧ stored.toHeaderHashPayload = header.toHeaderHashPayload := by
  obtain ⟨stored,held⟩ := Option.ne_none_iff_exists'.mp (write_present source (adds.2 hash))
  exact ⟨stored,held,injective ((keyed_write keyed adds hash stored held).trans known.symm)⟩

theorem lineage_write (injective : Function.Injective host.headerHash)
    (keyed : Keyed host db) (adds : AddsHeaders host batch) {genesis : Hash}
    (lineage : Lineage db genesis spine) : Lineage (db.write batch) genesis spine := by
  refine ⟨lineage.root,fun height child reached => ?_⟩
  obtain ⟨header,held,level,parent⟩ := lineage.linked height child reached
  obtain ⟨stored,kept,same⟩ := header_stays injective keyed adds (keyed child header held) (.inl (by simp [held]))
  refine ⟨stored,kept,?_,?_⟩
  · rw [same]; exact level
  · rw [same]; exact parent
end

-- Where the walk stops, the block there and the known branch above, lowest first.
structure Rewalked (db : Database Hash Key Sig Blob Node Value) (staged : List (Hash × Header Hash Sig)) (height : Nat) (cursor : Hash)
    (updates : List (Nat × Hash)) (expected : Nat) (last : Hash) (branch : List Hash) : Prop where
  length : expected + branch.length = height
  top : (last::branch).getLast? = some cursor
  agreed : expected ≠ 0 → db.rows (.headerByHeight expected) = some last
  linked : ∀ offset child, branch[offset]? = some child → ∃ header, stagedHeader host db staged child = .ok header ∧
    header.height = expected + offset + 1 ∧ (last::branch)[offset]? = some header.parentHash
  updates : updates = ((branch.zipIdx (expected + 1)).map fun entry => (entry.2,entry.1)).reverse

section
variable {host} {batch : RowBatch Hash Key Sig Blob Node Value}

theorem staged_sound (accepted : stagedHeaders host batch = .ok staged) :
    (∀ hash header, .put (.header hash) header ∈ batch → blockHash host header = hash) ∧
      ∀ entry ∈ staged, .put (.header entry.1) entry.2 ∈ batch ∧ entry.2.height ≠ 0 := by
  fun_induction stagedHeaders host batch generalizing staged with
  | case1 => simp_all
  | case2 key header rest ih =>
    simp only [bind_ok,ensure_ok,pure_ok] at accepted
    obtain ⟨_,valid,others,collected,rfl⟩ := accepted
    obtain ⟨keyed,listed⟩ := ih collected
    constructor
    · intro hash found member
      rcases List.mem_cons.mp member with same | later
      · cases same
        exact valid.1
      · exact keyed hash found later
    · intro entry member
      rcases List.mem_cons.mp member with rfl | later
      · exact ⟨List.mem_cons_self ..,valid.2⟩
      · exact ⟨List.mem_cons_of_mem _ (listed entry later).1,(listed entry later).2⟩
  | case3 op rest other ih =>
    obtain ⟨keyed,listed⟩ := ih accepted
    refine ⟨fun hash found member => ?_,fun entry member => ⟨List.mem_cons_of_mem _ (listed entry member).1,(listed entry member).2⟩⟩
    rcases List.mem_cons.mp member with same | later
    · exact (other hash found same.symm).elim
    · exact keyed hash found later

variable {hash : Hash}

theorem staged_header_ok (accepted : stagedHeaders host batch = .ok staged)
    (found : stagedHeader host db staged hash = .ok header) : blockHash host header = hash ∧ header.height ≠ 0 ∧
      (db.rows (.header hash) ≠ none ∨ ∃ row, .put (.header hash) row ∈ batch) := by
  obtain ⟨keyed,listed⟩ := staged_sound accepted
  unfold stagedHeader at found
  split at found
  next entry present =>
    cases found
    obtain ⟨before,after,split,-⟩ := List.lookup_eq_some_iff.mp present
    have member : (hash,header) ∈ staged := by
      rw [← List.mem_reverse,split]
      simp
    obtain ⟨put,positive⟩ := listed _ member
    exact ⟨keyed hash header put,positive,.inr ⟨header,put⟩⟩
  next absent =>
    obtain ⟨stored,known,positive⟩ := chain_header_ok.mp found
    exact ⟨known,positive,.inl (by simp [stored])⟩

variable {height expected : Nat}

theorem reindex_ok (accepted : reindex host db staged anchorHeight height cursor = .ok (updates,expected,last)) :
    ∃ branch, Rewalked host db staged height cursor updates expected last branch := by
  induction height generalizing cursor updates with
  | zero =>
    simp only [reindex,Except.ok.injEq,Prod.mk.injEq] at accepted
    obtain ⟨rfl,rfl,rfl⟩ := accepted
    exact ⟨[],rfl,rfl,by simp,by simp,rfl⟩
  | succ below ih =>
    rw [reindex] at accepted
    split at accepted
    next agreed =>
      simp only [Except.ok.injEq,Prod.mk.injEq] at accepted
      obtain ⟨rfl,rfl,rfl⟩ := accepted
      exact ⟨[],rfl,rfl,fun _ => agreed,by simp,rfl⟩
    next =>
      simp only [bind_ok,ensure_ok,pure_ok,Prod.mk.injEq] at accepted
      obtain ⟨_,_,header,found,_,level,⟨inner,stop,ground⟩,deeper,rfl,stopped,grounded⟩ := accepted
      obtain rfl : stop = expected := stopped
      obtain rfl : ground = last := grounded
      obtain ⟨branch,walk⟩ := ih deeper
      have size := walk.length
      refine ⟨branch ++ [cursor],⟨by simp only [List.length_append,List.length_singleton]; omega,by rw [← List.cons_append,List.getLast?_concat],walk.agreed,?_,?_⟩⟩
      · intro offset child reached
        rcases Nat.lt_trichotomy offset branch.length with inside | rfl | outside
        · rw [List.getElem?_append_left inside] at reached
          rw [← List.cons_append,List.getElem?_append_left (by simp only [List.length_cons]; omega)]
          exact walk.linked offset child reached
        · rw [List.getElem?_concat_length] at reached
          obtain rfl := Option.some.inj reached
          refine ⟨header,found,by omega,?_⟩
          rw [← List.cons_append,List.getElem?_append_left (by simp),← walk.top,List.getLast?_eq_getElem?]
          rfl
        · rw [List.getElem?_eq_none (by simp only [List.length_append,List.length_singleton]; omega)] at reached
          cases reached
      · simp only [List.zipIdx_append,List.map_append,List.reverse_append,walk.updates]
        have reached : stop + 1 + branch.length = below + 1 := by omega
        simp [reached]

theorem write_branch (store : Store (Row Hash Key Sig Blob Node Value)) (branch : List Hash) (first height : Nat) :
    write store (((branch.zipIdx first).map fun entry => (entry.2,entry.1)).reverse.map fun entry =>
        .put (.headerByHeight entry.1) entry.2) (.headerByHeight height) =
      if first ≤ height ∧ height < first + branch.length then branch[height - first]? else store (.headerByHeight height) := by
  induction branch generalizing store first with
  | nil =>
    rw [if_neg (by simp only [List.length_nil]; omega)]
    rfl
  | cons block rest ih =>
    rw [List.zipIdx_cons,List.map_cons,List.reverse_cons,List.map_append,write_append,List.map_singleton,write_cons,write_nil]
    by_cases lowest : height = first
    · subst lowest
      rw [put_apply_self,if_pos (by simp only [List.length_cons]; omega),Nat.sub_self]
      rfl
    · rw [apply_other _ _ (by simp [Op.key,lowest]),ih]
      by_cases inside : first ≤ height ∧ height < first + (block::rest).length
      · have shifted : height - first = height - (first + 1) + 1 := by omega
        rw [if_pos inside,if_pos (by simp only [List.length_cons] at inside; omega),shifted,List.getElem?_cons_succ]
      · rw [if_neg inside,if_neg (by simp only [List.length_cons] at inside; omega)]

theorem write_stale (store : Store (Row Hash Key Sig Blob Node Value)) (first count height : Nat) :
    write store ((List.range' first count).map fun stale => .delete (.headerByHeight stale)) (.headerByHeight height) =
      if first ≤ height ∧ height < first + count then none else store (.headerByHeight height) := by
  rw [show (fun stale => Op.delete (.headerByHeight stale)) = Op.delete ∘ RowKey.headerByHeight from rfl,← List.map_map, write_deletes]
  congr 1
  simp only [List.mem_map,RowKey.headerByHeight.injEq,exists_eq_right,List.mem_range'_1]

theorem caller_untouched (rows : ∀ op ∈ batch, CallerRow op) (reserved : callerKey key = false) : ∀ op ∈ batch, key ≠ op.key := by
  rintro op member rfl
  have allowed := (rows op member).1
  rw [reserved] at allowed
  cases allowed

variable {previous : Nat}

theorem old_height_ok (indexed : Indexed host db genesis spine)
    (accepted : oldHeight host db genesis = .ok previous) : spine.length = previous + 1 := by
  have positive : 0 < spine.length := List.length_pos_iff.mpr fun none => by simpa [none] using indexed.lineage.root
  unfold oldHeight at accepted
  rw [indexed.tip] at accepted
  split at accepted
  next absent => simp [List.getLast?_eq_none_iff.mp absent] at positive
  next old selected =>
    split at accepted
    next same =>
      cases accepted
      exact indexed.bottom (same ▸ selected)
    next other =>
      simp only [bind_ok,ensure_ok,pure_ok] at accepted
      obtain ⟨header,found,_,_,rfl⟩ := accepted
      obtain ⟨stored,-⟩ := chain_header_ok.mp found
      rw [List.getLast?_eq_getElem?] at selected
      rcases Nat.exists_eq_add_of_lt positive with ⟨below,size⟩
      rw [Nat.zero_add] at size
      cases below with
      | zero =>
        rw [size,indexed.lineage.root] at selected
        exact absurd (Option.some.inj selected).symm other
      | succ below =>
        rw [size] at selected
        obtain ⟨header',stored',level,-⟩ := indexed.lineage.linked below old selected
        rw [stored] at stored'
        cases stored'
        omega

theorem new_height_ok (collected : stagedHeaders host batch = .ok staged)
    (accepted : newHeight host db staged hash genesis = .ok height) : hash = genesis ↔ height = 0 := by
  unfold newHeight at accepted
  split at accepted
  next same =>
    cases accepted
    simp [same]
  next other =>
    obtain ⟨header,found,rfl⟩ := map_ok.mp accepted
    exact ⟨fun same => absurd same other,fun zero => absurd zero (staged_header_ok collected found).2.1⟩

-- The branch up to the height the walk stopped at, and the new blocks above.
def regrown (spine : List Hash) (expected : Nat) (branch : List Hash) : List Hash := spine.take (expected + 1) ++ branch

theorem regrown_low (short : expected < spine.length) (low : height ≤ expected) :
    (regrown spine expected branch)[height]? = spine[height]? := by
  rw [regrown,List.getElem?_append_left (by rw [List.length_take]; omega),List.getElem?_take_of_lt (by omega)]

theorem regrown_high (short : expected < spine.length) (high : expected < height) :
    (regrown spine expected branch)[height]? = branch[height - (expected + 1)]? := by
  have size : (spine.take (expected + 1)).length = expected + 1 := by rw [List.length_take]; omega
  rw [regrown,List.getElem?_append_right (by omega),size]

theorem regrown_root (short : expected < spine.length) :
    (regrown spine expected branch)[0]? = spine[0]? := regrown_low short (Nat.zero_le _)

theorem index_after (rows : ∀ op ∈ batch, CallerRow op) (indexed : Indexed host db genesis spine)
    (walk : Rewalked host db staged height hash updates expected last branch) (short : expected < spine.length)
    (size : spine.length = previous + 1) (level : Nat) :
    (db.write (batch ++ headRows updates genesis height previous hash)).rows (.headerByHeight level) =
      (regrown spine expected branch)[level]? := by
  have length := walk.length
  change write db.rows (batch ++ headRows updates genesis height previous hash) (.headerByHeight level) = _
  rw [headRows,write_append,write_append,write_append,write_append,write_cons,write_nil,
    apply_other _ _ (show RowKey.headerByHeight level ≠ .tip by simp),write_stale,write_cons,write_nil]
  by_cases zero : level = 0
  · subst zero
    rw [if_neg (by omega),put_apply_self,regrown_root short,indexed.lineage.root]
  · rw [apply_other _ _ (show RowKey.headerByHeight level ≠ .headerByHeight 0 by simpa using zero),walk.updates,write_branch,
      write_untouched _ _ (caller_untouched rows rfl),indexed.index]
    rcases Nat.lt_or_ge expected level with above | below
    · rw [regrown_high short above]
      by_cases inside : level ≤ height
      · rw [if_neg (by omega),if_pos (by omega)]
      · rw [if_neg (show ¬(expected + 1 ≤ level ∧ level < expected + 1 + branch.length) by omega),
          List.getElem?_eq_none (show branch.length ≤ level - (expected + 1) by omega)]
        split
        next => rfl
        next => exact List.getElem?_eq_none (by omega)
    · rw [regrown_low short below,if_neg (by omega),if_neg (by omega)]

theorem lineage_after (injective : Function.Injective host.headerHash) {added : RowBatch Hash Key Sig Blob Node Value}
    (indexed : Indexed host db genesis spine) (adds : AddsHeaders host (batch ++ added))
    (collected : stagedHeaders host batch = .ok staged) (walk : Rewalked host db staged height hash updates expected last branch)
    (joined : spine[expected]? = some last) : Lineage (db.write (batch ++ added)) genesis (regrown spine expected branch) := by
  have short : expected < spine.length := (List.getElem?_eq_some_iff.mp joined).1
  have old := lineage_write injective indexed.keyed adds indexed.lineage
  refine ⟨by rw [regrown_root short]; exact old.root,fun level child reached => ?_⟩
  rcases Nat.lt_or_ge expected (level + 1) with above | below
  · -- A block of the walked branch: its header was staged or stored.
    rw [regrown_high short above] at reached
    obtain ⟨header,found,high,parent⟩ := walk.linked _ child reached
    obtain ⟨known,-,source⟩ := staged_header_ok collected found
    obtain ⟨stored,held,same⟩ := header_stays injective indexed.keyed adds known
      (source.imp_right fun ⟨row,put⟩ => ⟨row,List.mem_append_left _ put⟩)
    refine ⟨stored,held,by rw [same]; omega,?_⟩
    rw [same,← parent]
    rcases Nat.lt_or_ge expected level with higher | edge
    · rw [regrown_high short higher,show level + 1 - (expected + 1) = level - (expected + 1) + 1 by omega, List.getElem?_cons_succ]
    · obtain rfl : level = expected := by omega
      rw [regrown_low short (Nat.le_refl _),joined,Nat.sub_self]
      rfl
  · -- An old block under the stop.
    rw [regrown_low short below] at reached
    obtain ⟨header,held,high,parent⟩ := old.linked level child reached
    exact ⟨header,held,high,by rw [regrown_low short (by omega)]; exact parent⟩

theorem head_rows_keys (member : op ∈ headRows updates genesis height previous hash) :
    callerKey op.key = false ∧ op.key ≠ .historyRetention := by
  simp only [headRows,List.mem_append,List.mem_map,List.mem_singleton] at member
  rcases member with ((⟨entry,-,rfl⟩ | rfl) | ⟨stale,-,rfl⟩) | rfl
  all_goals exact ⟨rfl,by rintro ⟨⟩⟩

theorem publish_indexed (injective : Function.Injective host.headerHash)
    (rows : ∀ op ∈ batch, CallerRow op) (indexed : Indexed host db genesis spine)
    (accepted : commitTipBatch host db hash genesis batch = .ok full) :
    ∃ next, Indexed host (db.write full) genesis next ∧ next.getLast? = some hash := by
  simp only [commitTipBatch,bind_ok,ensure_ok,pure_ok] at accepted
  obtain ⟨info,_,previous,tall,staged,collected,height,placed,_,_,⟨updates,expected,last⟩,walked,_,grounded,rfl⟩ := accepted
  obtain ⟨branch,walk⟩ := reindex_ok walked
  have size := old_height_ok indexed tall
  have joined : spine[expected]? = some last := by
    by_cases zero : expected = 0
    · rw [zero,indexed.lineage.root]
      exact congrArg some (grounded zero).symm
    · rw [← indexed.index,walk.agreed zero]
  have short : expected < spine.length := (List.getElem?_eq_some_iff.mp joined).1
  have adds : AddsHeaders host (batch ++ headRows updates genesis height previous hash) := by
    refine ⟨fun key header member => ?_,fun key member => ?_⟩
    · rcases List.mem_append.mp member with mine | index
      · exact (staged_sound collected).1 key header mine
      · cases (head_rows_keys index).1
    · rcases List.mem_append.mp member with mine | index
      · exact (rows _ mine).2 key rfl
      · cases (head_rows_keys index).1
  have length : (regrown spine expected branch).length = height + 1 := by
    rw [regrown,List.length_append,List.length_take,← walk.length]
    omega
  have top : (regrown spine expected branch).getLast? = some hash := by
    rw [← walk.top,regrown,List.getLast?_append,List.getLast?_cons]
    cases branch.getLast? with
    | some block => rfl
    | none => simp [List.getLast?_take,joined]
  refine ⟨regrown spine expected branch,⟨keyed_write indexed.keyed adds,?_,
    lineage_after injective indexed adds collected walk joined,?_,index_after rows indexed walk short size,?_⟩,top⟩
  · obtain ⟨policy,held⟩ := indexed.unpruned
    refine ⟨policy,?_⟩
    rw [← held,retentionInfo,retentionInfo]
    rw [show (db.write (batch ++ headRows updates genesis height previous hash)).rows .historyRetention = db.rows .historyRetention from
      write_untouched _ _ fun op member => ?_]
    rcases List.mem_append.mp member with mine | index
    · exact caller_untouched rows rfl op mine
    · exact (head_rows_keys index).2.symm
  · rw [top]
    change write db.rows (batch ++ (_ ++ [.put .tip hash])) RowKey.tip = some hash
    rw [← List.append_assoc]
    exact write_put db.rows _ [] RowKey.tip hash (by simp)
  · rw [top,length]
    intro same
    rw [(new_height_ok collected placed).mp (Option.some.inj same)]

theorem archive_indexed (injective : Function.Injective host.headerHash) (indexed : Indexed host db genesis spine)
    (header : Header Hash Sig) : Indexed host (db.write [.put (.header (blockHash host header)) header]) genesis spine := by
  have adds : AddsHeaders host ([.put (.header (blockHash host header)) header] : RowBatch Hash Key Sig Blob Node Value) := by
    refine ⟨fun key stored member => ?_,fun key member => by simp at member⟩
    obtain ⟨rfl,rfl⟩ : key = blockHash host header ∧ stored = header := by simpa using member
    rfl
  refine ⟨keyed_write indexed.keyed adds,indexed.unpruned,lineage_write injective indexed.keyed adds indexed.lineage,
    indexed.tip,indexed.index,indexed.bottom⟩
end
section
variable {host} {db : Database Hash Key Sig Blob Node Value} {genesis : Hash} {spine : List Hash}
variable (indexed : Indexed host db genesis spine)
include indexed

theorem indexed_header {height : Nat} (reached : spine[height+1]? = some child) :
    ∃ header, chainHeader host db child = .ok header ∧ header.height = height + 1 ∧ spine[height]? = some header.parentHash := by
  obtain ⟨header,held,level,parent⟩ := indexed.lineage.linked height child reached
  exact ⟨header,chain_header_ok.mpr ⟨held,indexed.keyed child header held,by omega⟩,level,parent⟩

theorem walk_index (reached : spine[height]? = some cursor) : walkIndex host db 0 height cursor = .ok genesis := by
  induction height generalizing cursor with
  | zero =>
    rw [indexed.lineage.root] at reached
    rw [walkIndex,Option.some.inj reached]
  | succ below ih =>
    obtain ⟨header,found,level,parent⟩ := indexed_header indexed reached
    rw [walkIndex,if_neg (by omega),found,ok_bind,ensure_pos ⟨level,(indexed.index _).trans reached⟩,ok_bind]
    exact ih parent

theorem tip_height (selected : spine.getLast? = some tip) : tipHeight host db tip genesis = .ok (spine.length - 1) := by
  unfold tipHeight
  split
  next same =>
    rw [indexed.bottom (same ▸ selected)]
  next other =>
    rw [List.getLast?_eq_getElem?] at selected
    cases size : spine.length - 1 with
    | zero =>
      rw [size,indexed.lineage.root] at selected
      exact absurd (Option.some.inj selected).symm other
    | succ below =>
      rw [size] at selected
      obtain ⟨header,found,level,-⟩ := indexed_header indexed selected
      rw [found,← level]
      rfl

theorem indexed_heights : (indexedHeights db).length = spine.length := by
  have same : (indexedHeights db).Perm (List.range spine.length) := by
    refine (List.perm_ext_iff_of_nodup (List.nodup_dedup _) List.nodup_range).mpr fun height => ?_
    rw [List.mem_range]
    refine Database.mem_scan.trans ⟨?_,fun inside => ⟨.headerByHeight height,rfl,?_⟩⟩
    · rintro ⟨key,named,present⟩
      split at named
      next found =>
        obtain rfl := Option.some.inj named
        rw [indexed.index] at present
        exact Nat.lt_of_not_le fun beyond => present (List.getElem?_eq_none_iff.mpr beyond)
      next => cases named
    · rw [indexed.index]
      exact fun absent => Nat.not_le_of_lt inside (List.getElem?_eq_none_iff.mp absent)
  rw [same.length_eq,List.length_range]

theorem indexed_valid (fits : (indexedHeights db).length ≤ maxU64) : validateCanonicalIndex host db genesis = .ok () := by
  obtain ⟨policy,info⟩ := indexed.unpruned
  have positive : 0 < spine.length := List.length_pos_iff.mpr fun none => by simpa [none] using indexed.lineage.root
  obtain ⟨tip,selected⟩ := Option.ne_none_iff_exists'.mp
    (fun absent => List.length_pos_iff.mp positive (List.getLast?_eq_none_iff.mp absent))
  have reached : spine[spine.length - 1]? = some tip := by rw [← List.getLast?_eq_getElem?,selected]
  rw [indexed_heights indexed] at fits
  have counted : some spine.length = expectedEntries (spine.length - 1) 0 := by
    rw [expectedEntries,checkedSub,if_pos (Nat.zero_le _)]
    change _ = checkedAdd (spine.length - 1 - 0) 1
    rw [checkedAdd,if_pos (by simp only [maxU64] at fits; omega)]
    congr 1
    omega
  rw [validateCanonicalIndex,indexed.tip,selected,required_some,ok_bind,tip_height indexed selected,ok_bind,info,ok_bind]
  simp only [Nat.sub_self]
  rw [ensure_pos (Nat.zero_le _),ok_bind,walk_index indexed reached,ok_bind,retainedAnchor,if_pos rfl,ok_bind,
    ensure_pos ⟨rfl,(indexed.index 0).trans indexed.lineage.root,(indexed.index 0).trans indexed.lineage.root⟩,ok_bind,
    indexed_heights indexed,ensure_pos fits,ok_bind,ensure_pos counted]
end
section
variable {host}

theorem commit_tip_cases (host : EngineHost Hash Key Sig State Blob Node Value Tr) (genesis : Hash)
    (db : Database Hash Key Sig Blob Node Value) (accepts : Bool) (hash : Hash) (batch : RowBatch Hash Key Sig Blob Node Value) :
    (∃ reason, commitTip host accepts hash genesis batch db = .error reason db) ∨
      ∃ full, commitTipBatch host db hash genesis batch = .ok full ∧
        commitTip host accepts hash genesis batch db = .ok () (db.write full) := by
  change (∃ reason, EStateM.bind (attempt (commitTipBatch host db hash genesis batch)) (writeBatch accepts) db = .error reason db) ∨
    ∃ full, _ ∧ EStateM.bind (attempt (commitTipBatch host db hash genesis batch)) (writeBatch accepts) db = .ok () (db.write full)
  cases planned : commitTipBatch host db hash genesis batch with
  | error reason => exact .inl ⟨reason,rfl⟩
  | ok full =>
    cases accepts with
    | false => exact .inl ⟨.database,rfl⟩
    | true => exact .inr ⟨full,rfl,rfl⟩

theorem step_indexed (injective : Function.Injective host.headerHash) (indexed : Indexed host db genesis spine)
    (call : StoreCall Hash Key Sig Blob Node Value) : ∃ next, Indexed host (finalState (call.perform host genesis) db) genesis next := by
  cases call with
  | archive stored slotted header =>
    cases stored with
    | false => exact ⟨spine,indexed⟩
    | true =>
      cases slotted with
      | false => exact ⟨spine,archive_indexed injective indexed header⟩
      | true =>
        have archived := archive_indexed injective indexed header
        exact ⟨spine,archived.keyed,archived.unpruned,⟨archived.lineage.root,archived.lineage.linked⟩,archived.tip,archived.index,archived.bottom⟩
  | publish accepts hash batch rows =>
    rcases commit_tip_cases host genesis db accepts hash batch with ⟨reason,failed⟩ | ⟨full,planned,done⟩
    · exact ⟨spine,by rw [finalState,StoreCall.perform,failed]; exact indexed⟩
    · obtain ⟨next,grown,-⟩ := publish_indexed injective rows indexed planned
      exact ⟨next,by rw [finalState,StoreCall.perform,done]; exact grown⟩

theorem failed_call {call : StoreCall Hash Key Sig Blob Node Value} (failed : call.perform host genesis db = .error reason left) :
    left.rows .tip = db.rows .tip ∧ (∀ height, left.rows (.headerByHeight height) = db.rows (.headerByHeight height)) ∧
      ∀ accepts hash batch rows, call = .publish accepts hash batch rows → left = db := by
  cases call with
  | archive stored slotted header =>
    cases stored with
    | false =>
      cases failed
      exact ⟨rfl,fun _ => rfl,nofun⟩
    | true =>
      cases slotted with
      | false =>
        cases failed
        exact ⟨rfl,fun _ => rfl,nofun⟩
      | true => cases failed
  | publish accepts hash batch rows =>
    have unchanged : left = db := by
      rcases commit_tip_cases host genesis db accepts hash batch with ⟨other,refused⟩ | ⟨full,-,done⟩
      · exact (EStateM.Result.error.inj (failed.symm.trans refused)).2
      · exact nomatch failed.symm.trans done
    subst unchanged
    exact ⟨rfl,fun _ => rfl,fun _ _ _ _ _ => rfl⟩

variable (host)

-- A scan returns a vector, so the number of its entries is a machine word.
theorem canonical_index_valid (injective : Function.Injective host.headerHash) (before : Database Hash Key Sig Blob Node Value)
    (initial : Initialized before genesis) (calls : List (StoreCall Hash Key Sig Blob Node Value))
    (after : Database Hash Key Sig Blob Node Value) (path : Runs (StoreStep host genesis) before calls after) :
    ((indexedHeights after).length ≤ maxU64 → validateCanonicalIndex host after genesis = .ok ()) ∧
      (∃ spine, Lineage after genesis spine ∧ after.rows .tip = spine.getLast? ∧
        ∀ height, after.rows (.headerByHeight height) = spine[height]?) ∧ (∀ accepts hash batch left, (∀ op ∈ batch, CallerRow op) →
        commitTip host accepts hash genesis batch after = .ok () left → left.rows .tip = some hash) ∧
      ∀ call reason left, StoreCall.perform host genesis call after = .error reason left →
        left.rows .tip = after.rows .tip ∧ (∀ height, left.rows (.headerByHeight height) = after.rows (.headerByHeight height)) ∧
          ∀ accepts hash batch rows, call = .publish accepts hash batch rows → left = after := by
  obtain ⟨spine,indexed⟩ := path.invariant (fun _ reached => ∃ spine, Indexed host reached genesis spine)
    ⟨_,initialized_indexed host initial⟩ (by rintro _ _ call _ - ⟨spine,indexed⟩ rfl; exact step_indexed injective indexed call)
  refine ⟨indexed_valid indexed,⟨spine,indexed.lineage,indexed.tip,indexed.index⟩,?_,fun call reason left => failed_call⟩
  intro accepts hash batch left rows done
  rcases commit_tip_cases host genesis after accepts hash batch with ⟨reason,failed⟩ | ⟨full,planned,written⟩
  · exact nomatch done.symm.trans failed
  · obtain ⟨next,grown,last⟩ := publish_indexed injective rows indexed planned
    obtain rfl := (EStateM.Result.ok.inj (done.symm.trans written)).2
    rw [grown.tip,last]
end
section
deriving instance Encodable for HeaderHashPayload

def payloadCode (payload : HeaderHashPayload Nat Nat) : Nat := Encodable.encode payload + 1

theorem payload_code_injective : Function.Injective payloadCode := Nat.succ_injective.comp Encodable.encode_injective

def codedHost : EngineHost Nat Nat Nat Unit Unit Unit Unit Unit := {sampleHost pairTree with headerHash := payloadCode}
def chainedHeader (height parent slot : Nat) : Header Nat Nat := ⟨⟨height,slot,parent,0,0,0,0,0,0,0,0,0,0,0⟩,0⟩
def genesisStore : Database Nat Nat Nat Unit Unit Unit := Database.empty.write [.put (.headerByHeight 0) 0,.put .tip 0]
def firstHeader : Header Nat Nat := chainedHeader 1 0 1
def secondHeader : Header Nat Nat := chainedHeader 2 (blockHash codedHost firstHeader) 2
def forkHeader : Header Nat Nat := chainedHeader 1 0 2

def stageHeader (accepts : Bool) (header : Header Nat Nat) : StoreCall Nat Nat Nat Unit Unit Unit :=
  .publish accepts (blockHash codedHost header) [.put (.header (blockHash codedHost header)) header]
    (fun op member => by obtain rfl := List.mem_singleton.mp member; exact ⟨rfl,nofun⟩)

-- Archive, extension, a refused write, a shorter branch and an unknown target.
def sampleCalls : List (StoreCall Nat Nat Nat Unit Unit Unit) :=
  [.archive true true firstHeader,stageHeader true secondHeader,stageHeader false forkHeader,stageHeader true forkHeader,
    .publish true 7 [] (by simp)]

def calledStore (calls : List (StoreCall Nat Nat Nat Unit Unit Unit)) : Database Nat Nat Nat Unit Unit Unit :=
  calls.foldl (fun db call => finalState (call.perform codedHost 0) db) genesisStore

theorem called_runs (calls : List (StoreCall Nat Nat Nat Unit Unit Unit)) :
    Runs (StoreStep codedHost 0) genesisStore calls (calledStore calls) := by
  induction calls using List.reverseRecOn with
  | nil => exact .nil
  | append_singleton earlier call ih =>
    refine .snoc ih ?_
    rw [StoreStep,calledStore,List.foldl_append]
    rfl

theorem genesis_store_initialized : Initialized genesisStore 0 where
  headers _ := rfl
  unpruned := ⟨.pruned,rfl⟩
  tip := rfl
  index height := by
    cases height with
    | zero => rfl
    | succ below => rfl

theorem sample_calls_valid : validateCanonicalIndex codedHost (calledStore sampleCalls) 0 = .ok () ∧
    (calledStore sampleCalls).rows .tip = some (blockHash codedHost forkHeader) ∧
    (calledStore (sampleCalls.take 2)).rows .tip = some (blockHash codedHost secondHeader) ∧
    (∃ spine, Lineage (calledStore sampleCalls) 0 spine ∧ (calledStore sampleCalls).rows .tip = spine.getLast? ∧
      ∀ height, (calledStore sampleCalls).rows (.headerByHeight height) = spine[height]?) := by
  obtain ⟨valid,ancestry,-⟩ := canonical_index_valid codedHost payload_code_injective genesisStore genesis_store_initialized
    sampleCalls _ (called_runs sampleCalls)
  exact ⟨valid (by decide +kernel),by decide +kernel,by decide +kernel,ancestry⟩
end
end Neutrino.ConsensusEngine
