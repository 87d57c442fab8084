import Neutrino.Trie.Operations

-- Patricia trees in a node store.

namespace Neutrino.StateTrie
open Checks Bits Patricia
open BitTree (side join get_leaf side_induction get_fork insert_along extend)
open BitPath (ofBits length_ofBits suffix_ofBits bit_ofBits ofBits_inj matchesAt_ofBits concat_ofBits)
variable {β : Type} [Alphabet β] [DecidableEq β]

def Hasher.digest (hasher : Hasher β) (node : Node β) : Hash β := hasher.hashNode node.encode

def Hasher.leaf (hasher : Hasher β) (suffix : List Bool) (value : List Byte) : Node β :=
  .leaf (ofBits suffix) (hasher.hashValue value)

def Hasher.stemmed (hasher : Hasher β) (stem : List Bool) (branch : Hash β) : Hash β :=
  if stem = [] then branch else hasher.digest (.extension (ofBits stem) branch)

def Hasher.root (hasher : Hasher β) : BitTree (List Byte) → Hash β
  | .leaf suffix value => hasher.digest (hasher.leaf suffix value)
  | .fork stem left right => hasher.stemmed stem (hasher.digest (.branch (hasher.root left) (hasher.root right)))

section
variable (hasher : Hasher β)

def Trie.Stores (trie : Trie β) (node : Node β) : Prop := trie.nodes.lookup (hasher.digest node) = some node.encode
def Trie.StoresValue (trie : Trie β) (value : List Byte) : Prop := trie.values.lookup (hasher.hashValue value) = some value

-- Every node of a tree is in the store under its digest, and every value.
def Trie.Holds (trie : Trie β) : BitTree (List Byte) → Prop
  | .leaf suffix value => trie.Stores hasher (hasher.leaf suffix value) ∧ trie.StoresValue hasher value
  | .fork stem left right =>
    trie.Holds left ∧ trie.Holds right ∧ trie.Stores hasher (.branch (hasher.root left) (hasher.root right)) ∧
      (stem ≠ [] → trie.Stores hasher (.extension (ofBits stem) (hasher.digest (.branch (hasher.root left) (hasher.root right)))))

structure Trie.Keeps (old new : Trie β) : Prop where
  nodes : ∀ node, old.Stores hasher node → new.Stores hasher node
  values : ∀ value, old.StoresValue hasher value → new.StoresValue hasher value

-- What every single write of a trie keeps.
structure Steady (Kept : Trie β → Prop) : Prop where
  node : ∀ trie node, Kept trie → Kept (trie.withNode (hasher.digest node) node.encode)
  value : ∀ trie value, Kept trie → Kept (trie.withValue (hasher.hashValue value) value)
  root : ∀ trie root, Kept trie → Kept { trie with root := root }

structure Trie.Grows (old new : Trie β) : Prop extends Trie.Keeps hasher old new where
  built : ∀ Kept, Steady hasher Kept → Kept old → Kept new

-- A write that ends with the root of a tree, all of it stored, and loses nothing.
def Trie.Writes (before : Trie β) (outcome : Except Fault (Trie β × Hash β)) (tree : BitTree (List Byte)) : Prop :=
  ∃ after, outcome = .ok (after,hasher.root tree) ∧ after.Holds hasher tree ∧ before.Grows hasher after
end
section
variable {hasher : Hasher β} {trie before after : Trie β} {node : Node β} {tree : BitTree (List Byte)}

theorem storeNode_eq : trie.storeNode hasher node = (trie.withNode (hasher.digest node) node.encode,hasher.digest node) :=
  rfl

theorem Trie.Keeps.refl : trie.Keeps hasher trie := ⟨fun _ => id,fun _ => id⟩

theorem Trie.Keeps.trans (first : before.Keeps hasher middle) (second : middle.Keeps hasher after) : before.Keeps hasher after :=
  ⟨fun node held => second.nodes node (first.nodes node held),fun value held => second.values value (first.values value held)⟩

theorem Trie.Grows.refl : trie.Grows hasher trie := ⟨.refl,fun _ _ => id⟩

theorem Trie.Grows.trans (first : before.Grows hasher middle) (second : middle.Grows hasher after) : before.Grows hasher after :=
  ⟨first.toKeeps.trans second.toKeeps,fun Kept steady kept => second.built Kept steady (first.built Kept steady kept)⟩

theorem Trie.Holds.keep (held : before.Holds hasher tree) (keeps : before.Keeps hasher after) : after.Holds hasher tree := by
  induction tree with
  | leaf suffix value => exact ⟨keeps.nodes _ held.1,keeps.values _ held.2⟩
  | fork stem left right onLeft onRight =>
    obtain ⟨inLeft,inRight,branch,extension⟩ := held
    exact ⟨onLeft inLeft,onRight inRight,keeps.nodes _ branch,fun some => keeps.nodes _ (extension some)⟩

theorem Trie.Writes.later (keeps : before.Grows hasher middle)
    (writes : middle.Writes hasher outcome tree) : before.Writes hasher outcome tree := by
  obtain ⟨last,run,held,kept⟩ := writes
  exact ⟨last,run,held,keeps.trans kept⟩

theorem withNode_stores : (trie.withNode (hasher.digest node) node.encode).Stores hasher node := AList.lookup_insert _

theorem withNode_keeps (injective : hasher.Injective) (trie : Trie β) (node : Node β) :
    trie.Keeps hasher (trie.withNode (hasher.digest node) node.encode) where
  values _ held := held
  nodes _ held := lookup_insert_keep (fun same => injective.node same) held

theorem withNode_grows (injective : hasher.Injective) (trie : Trie β) (node : Node β) :
    trie.Grows hasher (trie.withNode (hasher.digest node) node.encode) :=
  ⟨withNode_keeps injective trie node,fun _ steady => steady.node trie node⟩

theorem fetchNode_stored (held : trie.Stores hasher node) (packed : node.Packed) : trie.fetchNode (hasher.digest node) = .ok node := by
  have found : trie.nodes.lookup (hasher.digest node) = some node.encode := held
  rw [Trie.fetchNode,found,required_some,ok_bind,Node.decode_encode packed]
  rfl

theorem root_nonzero (never : hasher.NeverZero) : hasher.root tree ≠ zeroHash := by
  cases tree with
  | leaf suffix value => exact never _
  | fork stem left right =>
    simp only [Hasher.root,Hasher.stemmed]
    split
    · exact never _
    · exact never _
end
section
variable {hasher : Hasher β} (injective : hasher.Injective)

def Hasher.pair (bit : Bool) (there other : Hash β) : Node β := if bit then .branch other there else .branch there other

variable {stem : List Bool} {bit : Bool} {there other : BitTree (List Byte)}

theorem root_join : hasher.root (join stem bit there other) =
      hasher.stemmed stem (hasher.digest (Hasher.pair bit (hasher.root there) (hasher.root other))) := by
  cases bit <;> rfl

variable {trie : Trie β}

theorem holds_join : trie.Holds hasher (join stem bit there other) ↔ trie.Holds hasher there ∧ trie.Holds hasher other ∧
        trie.Stores hasher (Hasher.pair bit (hasher.root there) (hasher.root other)) ∧
        (stem ≠ [] → trie.Stores hasher (.extension (ofBits stem)
          (hasher.digest (Hasher.pair bit (hasher.root there) (hasher.root other))))) := by
  cases bit
  · rfl
  · simp only [join,if_true,Trie.Holds,Hasher.pair]
    tauto

variable {left right : BitTree (List Byte)}

theorem root_side : (if bit then hasher.root right else hasher.root left) = hasher.root (side bit left right) := by
  cases bit <;> rfl

theorem branch_pair : (if bit then .branch (hasher.root left) changed else .branch changed (hasher.root right)) =
      Hasher.pair bit changed (hasher.root (side (!bit) left right)) := by
  cases bit <;> rfl

variable {stem : List Bool}

theorem holds_side (holds : trie.Holds hasher (.fork stem left right)) (bit : Bool) : trie.Holds hasher (side bit left right) :=
  side_induction holds.1 holds.2.1 bit

theorem holds_below (holds : trie.Holds hasher (.fork stem left right)) : trie.Holds hasher (.fork [] left right) :=
  ⟨holds.1,holds.2.1,holds.2.2.1,by simp⟩

variable {value : List Byte}

theorem holds_value (holds : trie.Holds hasher tree) (found : tree.get path = some value) : trie.StoresValue hasher value := by
  induction tree generalizing path with
  | leaf suffix held =>
    obtain ⟨_,rfl⟩ := get_leaf.mp found
    exact holds.2
  | fork stem left right onLeft onRight =>
    obtain ⟨bit,rest,rfl,inner⟩ := get_fork.mp found
    cases bit
    · exact onLeft holds.1 inner
    · exact onRight holds.2.1 inner

include injective

theorem leaf_writes (suffix : List Bool) (held : trie.StoresValue hasher value) :
    trie.Writes hasher (.ok (trie.storeNode hasher (hasher.leaf suffix value))) (.leaf suffix value) :=
  ⟨_,rfl,⟨withNode_stores,held⟩,withNode_grows injective _ _⟩

theorem pair_writes (bit : Bool) (one : trie.Holds hasher there) (two : trie.Holds hasher other) :
    trie.Writes hasher (.ok (trie.storeNode hasher (Hasher.pair bit (hasher.root there) (hasher.root other))))
      (join [] bit there other) := by
  have keeps := withNode_grows injective trie (Hasher.pair bit (hasher.root there) (hasher.root other))
  refine ⟨_,by rw [storeNode_eq,root_join]; rfl,holds_join.mpr ⟨one.keep keeps.toKeeps,two.keep keeps.toKeeps,withNode_stores,?_⟩,keeps⟩
  simp

theorem extension_writes (some : stem ≠ []) (holds : trie.Holds hasher (.fork [] left right)) :
    trie.Writes hasher (.ok (trie.storeNode hasher (.extension (ofBits stem) (hasher.root (.fork [] left right)))))
      (.fork stem left right) := by
  obtain ⟨onLeft,onRight,branch,_⟩ := holds
  have keeps := withNode_grows injective trie (.extension (ofBits stem) (hasher.root (.fork [] left right)))
  refine ⟨_,?_,⟨onLeft.keep keeps.toKeeps,onRight.keep keeps.toKeeps,keeps.nodes _ branch,fun _ => withNode_stores⟩,keeps⟩
  simp only [storeNode_eq,Hasher.root,Hasher.stemmed,if_neg some,if_true]

theorem forkAt_writes (bit : Bool)
    (short : (stem ++ rest).length < 2 ^ 32) (one : trie.Holds hasher there) (two : trie.Holds hasher other) :
    trie.Writes hasher (trie.forkAt hasher (ofBits (stem ++ rest)) stem.length bit (hasher.root there)
      (hasher.root other)) (join stem bit there other) := by
  obtain ⟨middle,stored,holds,keeps⟩ := pair_writes injective bit one two
  rw [Trie.forkAt]
  simp only [← Hasher.pair.eq_def,Except.ok.inj stored]
  by_cases none : stem = []
  · subst none
    exact ⟨middle,rfl,holds,keeps⟩
  · have wide : stem.length ≠ 0 := by simpa using none
    rw [if_neg wide,BitPath.prefixTo_ofBits short (by simp),ok_bind,List.take_left]
    cases bit <;> exact (extension_writes injective none holds).later keeps

theorem insertIntoLeaf_writes (short : suffix.length < 2 ^ 32) (brief : path.length < 2 ^ 32)
    (inserted : (BitTree.leaf suffix old).insert path value = some changed)
    (heldOld : trie.StoresValue hasher old) (held : trie.StoresValue hasher value) :
    trie.Writes hasher (trie.insertIntoLeaf hasher (ofBits suffix) (hasher.hashValue old) (ofBits path)
      (hasher.hashValue value)) changed := by
  rw [Trie.insertIntoLeaf,length_ofBits short,length_ofBits brief]
  obtain ⟨_ | ⟨bit,rest⟩,rfl⟩ | ⟨bit,rest,rfl⟩ | ⟨shared,bit,rest,tail,rfl,rfl⟩ := meeting suffix path
  · rw [List.append_nil,BitTree.insert_leaf_same] at inserted
    cases inserted
    simp only [List.append_nil,and_self,if_true]
    exact leaf_writes injective suffix held
  · simp [BitTree.insert_leaf_past] at inserted
  · simp [BitTree.insert_leaf_within] at inserted
  · rw [BitTree.insert_leaf_beside] at inserted
    cases inserted
    obtain ⟨common,here,oldTail,newTail⟩ := BitPath.parting short brief
    have apart : shared ++ bit::rest ≠ shared ++ (!bit)::tail := by simp
    have inside : ¬(shared.length = (shared ++ bit::rest).length ∨ shared.length = (shared ++ (!bit)::tail).length) := by
      simp
    obtain ⟨middle,stored,one,kept⟩ := leaf_writes injective rest heldOld
    obtain ⟨last,added,two,keeps⟩ := leaf_writes injective tail (kept.values _ held)
    rw [if_neg (fun both => apart ((ofBits_inj short brief).mp both.2)),common,ok_bind,if_neg inside,here,
      ok_bind,oldTail,ok_bind,newTail,ok_bind]
    cases stored
    cases added
    exact (forkAt_writes injective bit brief (one.keep keeps.toKeeps) two).later (kept.trans keeps)

theorem splitExtension_writes (short : (shared ++ bit::rest).length < 2 ^ 32) (brief : (shared ++ (!bit)::tail).length < 2 ^ 32)
    (holds : trie.Holds hasher (.fork [] left right)) (held : trie.StoresValue hasher value) :
    trie.Writes hasher (trie.splitExtension hasher (ofBits (shared ++ bit::rest))
        (hasher.root (.fork [] left right)) (ofBits (shared ++ (!bit)::tail)) (hasher.hashValue value))
      (join shared bit (.fork rest left right) (.leaf tail value)) := by
  obtain ⟨common,here,oldTail,newTail⟩ := BitPath.parting short brief
  have restShort : rest.length < 2 ^ 32 := by simp at short; omega
  rw [Trie.splitExtension,length_ofBits brief,common,ok_bind,if_neg (by simp),here,ok_bind,oldTail,ok_bind,
    newTail,ok_bind,length_ofBits restShort]
  have side : ∃ middle, (if rest.length = 0 then (trie,hasher.root (.fork [] left right))
        else trie.storeNode hasher (.extension (ofBits rest) (hasher.root (.fork [] left right)))) =
        (middle,hasher.root (.fork rest left right)) ∧
      middle.Holds hasher (.fork rest left right) ∧ trie.Grows hasher middle := by
    by_cases none : rest = []
    · subst none
      exact ⟨trie,rfl,holds,.refl⟩
    · obtain ⟨middle,stored,there,keeps⟩ := extension_writes injective none holds
      exact ⟨middle,by rw [if_neg (by simpa using none)]; exact Except.ok.inj stored,there,keeps⟩
  obtain ⟨middle,stored,one,kept⟩ := side
  obtain ⟨last,added,two,keeps⟩ := leaf_writes injective tail (kept.values _ held)
  simp only [stored]
  cases added
  exact (forkAt_writes injective bit brief (one.keep keeps.toKeeps) two).later (kept.trans keeps)

omit injective in
theorem fetch_leaf (holds : trie.Holds hasher (.leaf suffix value)) (short : suffix.length < 2 ^ 32) :
    trie.fetchNode (hasher.root (.leaf suffix value)) = .ok (hasher.leaf suffix value) :=
  fetchNode_stored holds.1 ⟨suffix,short,rfl⟩

omit injective in
theorem fetch_branch (holds : trie.Holds hasher (.fork [] left right)) :
    trie.fetchNode (hasher.root (.fork [] left right)) = .ok (.branch (hasher.root left) (hasher.root right)) :=
  fetchNode_stored holds.2.2.1 trivial

omit injective in
theorem fetch_extension (holds : trie.Holds hasher (.fork stem left right)) (some : stem ≠ []) (short : stem.length < 2 ^ 32) :
    trie.fetchNode (hasher.root (.fork stem left right)) = .ok (.extension (ofBits stem) (hasher.root (.fork [] left right))) := by
  have node := fetchNode_stored (holds.2.2.2 some) ⟨stem,short,rfl⟩
  simpa only [Hasher.root,Hasher.stemmed,if_neg some,if_true] using node
end

-- Every path of the tree, with what lies above it, has a 32-bit length.
def Fits (offset : Nat) (tree : BitTree (List Byte)) : Prop := ∀ path value, tree.get path = some value → offset + path.length < 2 ^ 32

section
variable {offset : Nat} {stem : List Bool} {left right : BitTree (List Byte)}

theorem Fits.side (fits : Fits offset (.fork stem left right)) (bit : Bool) :
    Fits (offset + stem.length + 1) (side bit left right) := fun path value found => by
  have whole := fits _ _ (get_fork.mpr ⟨bit,path,rfl,found⟩)
  simp at whole
  omega

theorem Fits.short_stem (fits : Fits offset (.fork stem left right)) : offset + stem.length < 2 ^ 32 := by
  obtain ⟨path,value,found⟩ := (BitTree.side false left right).nonempty
  have below := fits.side false path value found
  omega

theorem Fits.below (fits : Fits offset (.fork stem left right)) : Fits (offset + stem.length) (.fork [] left right) := by
  intro path value found
  obtain ⟨bit,rest,rfl,inner⟩ := get_fork.mp found
  have whole := fits.side bit rest value inner
  simp
  omega
end
section
variable {hasher : Hasher β} (injective : hasher.Injective) (never : hasher.NeverZero)
variable {path : List Bool} (brief : path.length < 2 ^ 32) {value : List Byte}
include injective never brief

-- What inserting below a tree's root does, for any tree that is stored.
def Inserts (hasher : Hasher β) (path : List Bool) (value : List Byte) (tree : BitTree (List Byte)) : Prop :=
  ∀ (budget : Nat) (trie : Trie β) (offset : Nat) (changed : BitTree (List Byte)), trie.Holds hasher tree →
    Fits offset tree → offset ≤ path.length → path.length - offset < budget → trie.StoresValue hasher value →
    tree.insert (path.drop offset) value = some changed →
    trie.Writes hasher (Trie.insertAt hasher (ofBits path) (hasher.hashValue value) budget trie (hasher.root tree) offset) changed

omit injective never brief in
theorem drop_at (inside : offset < path.length) : path.drop offset = path.getD offset false::path.drop (offset + 1) := by
  rw [List.drop_eq_getElem_cons inside,List.getD_eq_getElem _ _ inside]

omit injective never brief in
theorem drop_stem (split : stem ++ rest = path.drop offset) (inside : offset ≤ path.length) :
    path.drop (offset + stem.length) = rest ∧ offset + stem.length + rest.length = path.length := by
  have size := congrArg List.length split
  rw [List.length_append,List.length_drop] at size
  exact ⟨by rw [← List.drop_drop,← split,List.drop_left],by omega⟩

theorem insertAt_branch (onLeft : Inserts hasher path value left)
    (onRight : Inserts hasher path value right) : Inserts hasher path value (.fork [] left right) := by
  intro budget trie offset changed holds fits inside enough held inserted
  obtain ⟨budget,rfl⟩ : ∃ less, budget = less + 1 := ⟨budget - 1,by omega⟩
  rw [Trie.insertAt,if_neg (root_nonzero never),fetch_branch holds,ok_bind]
  simp only [length_ofBits brief]
  by_cases ended : path.length ≤ offset
  · rw [List.drop_eq_nil_of_le ended,BitTree.insert_at_stem] at inserted
    cases inserted
  · rw [drop_at (by omega),← List.nil_append (_::_),insert_along,Option.map_eq_some_iff] at inserted
    obtain ⟨grown,below,rfl⟩ := inserted
    rw [if_neg ended,bit_ofBits brief (by omega),ok_bind]
    generalize path.getD offset false = bit at below ⊢
    have inner : Inserts hasher path value (side bit left right) := side_induction onLeft onRight bit
    obtain ⟨middle,run,grew,keeps⟩ := inner budget _ _ _ (holds_side holds bit) (fits.side bit) (by simp; omega) (by simp; omega) held below
    simp only [List.length_nil,Nat.add_zero] at run
    rw [root_side,run,ok_bind]
    simp only [branch_pair]
    exact (pair_writes injective bit grew ((holds_side holds _).keep keeps.toKeeps)).later keeps

theorem insertAt_writes (tree : BitTree (List Byte)) : Inserts hasher path value tree := by
  induction tree with
  | leaf suffix old =>
    intro budget trie offset changed holds fits inside enough held inserted
    obtain ⟨budget,rfl⟩ : ∃ less, budget = less + 1 := ⟨budget - 1,by omega⟩
    have short : suffix.length < 2 ^ 32 := by
      have whole := fits suffix old (get_leaf.mpr ⟨rfl,rfl⟩)
      omega
    rw [Trie.insertAt,if_neg (root_nonzero never),fetch_leaf holds short,ok_bind]
    simp only [Hasher.leaf]
    rw [suffix_ofBits brief inside,ok_bind]
    exact insertIntoLeaf_writes injective short (by simp; omega) inserted holds.2 held
  | fork stem left right onLeft onRight =>
    have branch := insertAt_branch injective never brief onLeft onRight
    by_cases none : stem = []
    · subst none
      exact branch
    intro budget trie offset changed holds fits inside enough held inserted
    obtain ⟨budget,rfl⟩ : ∃ less, budget = less + 1 := ⟨budget - 1,by omega⟩
    have short := fits.short_stem
    have long : 0 < stem.length := by rwa [List.length_pos_iff]
    rw [Trie.insertAt,if_neg (root_nonzero never),fetch_extension holds none (by omega),ok_bind]
    simp only [length_ofBits brief,length_ofBits (by omega : stem.length < 2 ^ 32)]
    rw [matchesAt_ofBits brief (by omega) inside,ok_bind]
    obtain ⟨rest,along⟩ | ⟨bit,rest,rfl⟩ | ⟨shared,bit,rest,tail,rfl,beside⟩ := meeting stem (path.drop offset)
    · obtain ⟨after,size⟩ := drop_stem along.symm inside
      have matched : stem <+: path.drop offset := ⟨rest,along.symm⟩
      rcases rest with _ | ⟨bit,tail⟩
      · rw [along,List.append_nil,BitTree.insert_at_stem] at inserted
        cases inserted
      · rw [along,insert_along,Option.map_eq_some_iff] at inserted
        obtain ⟨grown,below,rfl⟩ := inserted
        have inner : (BitTree.fork [] left right).insert (path.drop (offset + stem.length)) value =
            some (join [] bit grown (side (!bit) left right)) := by
          rw [after,← List.nil_append (_::_),insert_along,below]
          rfl
        rw [List.length_cons] at size
        obtain ⟨middle,run,grew,keeps⟩ := branch budget _ _ _ (holds_below holds) fits.below (by omega) (by omega) held inner
        simp only [matched,decide_true,if_true]
        rw [if_neg (by omega),run,ok_bind]
        cases bit <;> exact (extension_writes injective none grew).later keeps
    · rw [BitTree.insert_within] at inserted
      cases inserted
    · have apart : ¬shared ++ bit::rest <+: path.drop offset := by
        rintro ⟨more,same⟩
        rw [beside,List.append_assoc] at same
        simp at same
      rw [beside,BitTree.insert_beside] at inserted
      cases inserted
      simp only [apart,decide_false,Bool.false_eq_true,if_false]
      rw [suffix_ofBits brief inside,ok_bind,beside]
      exact splitExtension_writes injective (by omega) (by rw [← beside]; simp; omega) (holds_below holds) held
end
section
variable {hasher : Hasher β}

def Hasher.rootOf (hasher : Hasher β) (root : Option (BitTree (List Byte))) : Hash β := root.elim zeroHash hasher.root
def Trie.HoldsRoot (hasher : Hasher β) (trie : Trie β) (root : Option (BitTree (List Byte))) : Prop := ∀ tree ∈ root, trie.Holds hasher tree

variable (injective : hasher.Injective) (never : hasher.NeverZero)
include injective

theorem lengthen_writes {trie : Trie β} (some : front ≠ []) (holds : trie.Holds hasher tree) (fits : Fits front.length tree) :
    trie.Writes hasher (trie.lengthen hasher (ofBits front) (hasher.root tree)) (tree.extend front) := by
  rw [Trie.lengthen]
  cases tree with
  | leaf suffix value =>
    have whole := fits suffix value (get_leaf.mpr ⟨rfl,rfl⟩)
    rw [fetch_leaf holds (by omega),ok_bind]
    simp only [Hasher.leaf]
    rw [concat_ofBits (by omega) (by omega) whole,ok_bind]
    exact leaf_writes injective _ holds.2
  | fork stem left right =>
    have whole := fits.short_stem
    by_cases none : stem = []
    · subst none
      rw [fetch_branch holds,ok_bind]
      rw [extend,List.append_nil]
      exact extension_writes injective some holds
    · rw [fetch_extension holds none (by omega),ok_bind]
      simp only
      rw [concat_ofBits (by omega) (by omega) whole,ok_bind]
      exact extension_writes injective (by simp [none]) (holds_below holds)
end
section
variable {hasher : Hasher β} (injective : hasher.Injective) (never : hasher.NeverZero)
variable {path : List Bool} (brief : path.length < 2 ^ 32)

-- Nothing when the path is not there; otherwise the remaining tree is stored.
def Removes (hasher : Hasher β) (path : List Bool) (tree : BitTree (List Byte)) : Prop :=
  ∀ (budget : Nat) (trie : Trie β) (offset : Nat), trie.Holds hasher tree → Fits offset tree →
    offset ≤ path.length → path.length - offset < budget →
    (tree.remove (path.drop offset) = none → Trie.removeAt hasher (ofBits path) budget trie (hasher.root tree) offset =
        .ok (trie,hasher.root tree,none)) ∧
    ∀ value remaining, tree.remove (path.drop offset) = some (value,remaining) → ∃ after,
      Trie.removeAt hasher (ofBits path) budget trie (hasher.root tree) offset =
        .ok (after,hasher.rootOf remaining,some (hasher.hashValue value)) ∧
      after.HoldsRoot hasher remaining ∧ trie.Grows hasher after

include injective never brief
omit brief in
theorem collapseBranch_writes {trie : Trie β} (kept : trie.HoldsRoot hasher remaining)
    (other : trie.Holds hasher (side (!bit) left right)) (fits : Fits 1 (side (!bit) left right)) :
    trie.Writes hasher (trie.collapseBranch hasher (if bit then hasher.root left else hasher.rootOf remaining)
        (if bit then hasher.rootOf remaining else hasher.root right))
      (remaining.elim ((side (!bit) left right).extend [!bit]) fun kept =>
        join [] bit kept (side (!bit) left right)) := by
  cases remaining with
  | none =>
    have survivor := lengthen_writes injective (List.cons_ne_nil (!bit) []) other fits
    rw [← BitPath.single_ofBits] at survivor
    cases bit <;> simpa [Trie.collapseBranch,Hasher.rootOf,root_nonzero never,Trie.absorbIntoParent,side] using survivor
  | some child =>
    have pair := pair_writes injective bit (kept child rfl) other
    cases bit <;> simpa [Trie.collapseBranch,Hasher.rootOf,root_nonzero never,Hasher.pair,side] using pair

theorem removeAt_branch (onLeft : Removes hasher path left)
    (onRight : Removes hasher path right) : Removes hasher path (.fork [] left right) := by
  intro budget trie offset holds fits inside enough
  obtain ⟨budget,rfl⟩ : ∃ less, budget = less + 1 := ⟨budget - 1,by omega⟩
  rw [Trie.removeAt,if_neg (root_nonzero never),fetch_branch holds,ok_bind]
  simp only [length_ofBits brief]
  by_cases ended : path.length ≤ offset
  · have nothing : (BitTree.fork [] left right).remove [] = none := by simp [BitTree.remove,strip]
    rw [List.drop_eq_nil_of_le ended,if_pos ended,nothing]
    exact ⟨fun _ => rfl,by simp⟩
  · rw [drop_at (by omega),if_neg ended,bit_ofBits brief (by omega),ok_bind,← List.nil_append (_::_), BitTree.remove_along]
    generalize path.getD offset false = bit
    have inner : Removes hasher path (side bit left right) := side_induction onLeft onRight bit
    obtain ⟨absent,present⟩ := inner budget trie (offset + 1) (holds_side holds bit) (fits.side bit) (by omega) (by omega)
    rw [root_side]
    rcases taken : (side bit left right).remove (path.drop (offset + 1)) with _ | ⟨value,remaining⟩
    · rw [absent taken]
      exact ⟨fun _ => rfl,by simp⟩
    · obtain ⟨middle,run,kept,keeps⟩ := present value remaining taken
      refine ⟨by simp,?_⟩
      rintro _ _ ⟨⟩
      have room : Fits 1 (side (!bit) left right) := fun inside held found => by
        have whole := fits.side (!bit) inside held found
        omega
      obtain ⟨after,closed,held,last⟩ := collapseBranch_writes injective never kept ((holds_side holds (!bit)).keep keeps.toKeeps) room
      rw [run,ok_bind]
      simp only [reduceCtorEq,if_false]
      rw [closed,ok_bind]
      exact ⟨after,rfl,by rintro _ ⟨⟩; exact held,keeps.trans last⟩

theorem removeAt_writes (tree : BitTree (List Byte)) : Removes hasher path tree := by
  induction tree with
  | leaf suffix value =>
    intro budget trie offset holds fits inside enough
    obtain ⟨budget,rfl⟩ : ∃ less, budget = less + 1 := ⟨budget - 1,by omega⟩
    have short : suffix.length < 2 ^ 32 := by
      have whole := fits suffix value (get_leaf.mpr ⟨rfl,rfl⟩)
      omega
    rw [Trie.removeAt,if_neg (root_nonzero never),fetch_leaf holds short,ok_bind]
    simp only [Hasher.leaf,length_ofBits brief,length_ofBits short]
    rw [matchesAt_ofBits brief short inside,ok_bind,BitTree.remove]
    by_cases same : path.drop offset = suffix
    · have size : suffix.length = path.length - offset := by rw [← same,List.length_drop]
      rw [if_pos size,if_pos same]
      simp only [same,List.prefix_rfl,decide_true,if_true]
      refine ⟨by simp,?_⟩
      rintro _ _ ⟨⟩
      exact ⟨trie,rfl,by rintro _ ⟨⟩,.refl⟩
    · rw [if_neg same]
      refine ⟨fun _ => ?_,by simp⟩
      by_cases size : suffix.length = path.length - offset
      · have apart : ¬suffix <+: path.drop offset := fun begins =>
          same (begins.eq_of_length (by rw [size,List.length_drop])).symm
        rw [if_pos size]
        simp [apart]
      · rw [if_neg size]
        rfl
  | fork stem left right onLeft onRight =>
    have branch := removeAt_branch injective never brief onLeft onRight
    by_cases none : stem = []
    · subst none
      exact branch
    intro budget trie offset holds fits inside enough
    obtain ⟨budget,rfl⟩ : ∃ less, budget = less + 1 := ⟨budget - 1,by omega⟩
    have short := fits.short_stem
    have long : 0 < stem.length := by rwa [List.length_pos_iff]
    rw [Trie.removeAt,if_neg (root_nonzero never),fetch_extension holds none (by omega),ok_bind]
    simp only [length_ofBits (by omega : stem.length < 2 ^ 32)]
    rw [matchesAt_ofBits brief (by omega) inside,ok_bind]
    by_cases along : stem <+: path.drop offset
    · simp only [along,decide_true,if_true]
      obtain ⟨rest,along⟩ := along
      obtain ⟨after,size⟩ := drop_stem along inside
      obtain ⟨absent,present⟩ := branch budget trie (offset + stem.length) (holds_below holds) fits.below (by omega) (by omega)
      have whole : (BitTree.fork stem left right).remove (stem ++ rest) = ((BitTree.fork [] left right).remove rest).map
          fun taken => (taken.1,taken.2.map (extend stem)) := by
        rw [← BitTree.remove_extend,extend,List.append_nil]
      rw [← along,whole]
      rw [after] at absent present
      rcases taken : (BitTree.fork [] left right).remove rest with _ | ⟨value,remaining⟩
      · rw [absent taken]
        exact ⟨fun _ => rfl,by simp⟩
      · obtain ⟨middle,run,kept,keeps⟩ := present value remaining taken
        refine ⟨by simp,?_⟩
        rintro _ _ ⟨⟩
        rw [run,ok_bind]
        simp only [reduceCtorEq,if_false]
        cases remaining with
        | none => exact ⟨middle,by simp [Trie.collapseExtension,Hasher.rootOf],by rintro _ ⟨⟩,keeps⟩
        | some tree =>
          have room : Fits stem.length tree := fun inside held found => by
            have whole := fits.below inside held ((BitTree.get_remove taken).mp found).2
            omega
          obtain ⟨last,grown,held,more⟩ := lengthen_writes injective none (kept tree rfl) room
          have closed : middle.collapseExtension hasher (ofBits stem) (hasher.rootOf (some tree)) =
              .ok (last,hasher.root (tree.extend stem)) := by
            rw [Trie.collapseExtension,Hasher.rootOf,Option.elim_some,if_neg (root_nonzero never),grown]
          rw [closed,ok_bind]
          exact ⟨last,rfl,by rintro _ ⟨⟩; exact held,keeps.trans more⟩
    · rw [BitTree.remove_off along]
      simp only [along,decide_false]
      exact ⟨fun _ => rfl,by simp⟩
end

theorem passExtension_ofBits (brief : path.length < 2 ^ 32) (inside : offset ≤ path.length) (short : offset + stem.length < 2 ^ 32) :
    Trie.passExtension (ofBits path) offset (ofBits stem) =
      .ok (if stem <+: path.drop offset then some (offset + stem.length) else none) := by
  have fit : stem.length < 2 ^ 32 := by omega
  have room : (path.drop offset).length < 2 ^ 32 := by rw [List.length_drop]; omega
  simp only [Trie.passExtension,Trie.advance,length_ofBits brief,length_ofBits fit]
  rw [ensure_pos short]
  simp only [ok_bind,pure_bind]
  by_cases past : path.length < offset + stem.length
  · have longer : ¬stem <+: path.drop offset := fun begins => by
      have size := begins.length_le
      rw [List.length_drop] at size
      omega
    rw [if_pos past,if_neg longer]
    rfl
  · rw [if_neg past,suffix_ofBits brief inside,ok_bind, BitPath.prefixTo_ofBits room (by rw [List.length_drop]; omega),ok_bind]
    have same : ofBits ((path.drop offset).take stem.length) = ofBits stem ↔ stem <+: path.drop offset := by
      rw [ofBits_inj (by rw [List.length_take]; omega) fit,List.prefix_iff_eq_take,eq_comm]
    simp only [same]
    rfl

section
variable {hasher : Hasher β} (never : hasher.NeverZero) {trie : Trie β}
include never

def Reads (hasher : Hasher β) (trie : Trie β) (path : List Bool) (tree : BitTree (List Byte)) : Prop :=
  ∀ (budget offset : Nat), trie.Holds hasher tree → Fits offset tree → offset ≤ path.length → path.length - offset < budget →
    trie.getFrom (ofBits path) budget (hasher.root tree) offset = .ok (tree.get (path.drop offset))

theorem getFrom_branch (brief : path.length < 2 ^ 32) (onLeft : Reads hasher trie path left) (onRight : Reads hasher trie path right) :
    Reads hasher trie path (.fork [] left right) := by
  intro budget offset holds fits inside enough
  obtain ⟨budget,rfl⟩ : ∃ less, budget = less + 1 := ⟨budget - 1,by omega⟩
  rw [Trie.getFrom,if_neg (root_nonzero never),fetch_branch holds,ok_bind]
  simp only [length_ofBits brief]
  by_cases ended : path.length ≤ offset
  · rw [if_pos ended,List.drop_eq_nil_of_le ended,BitTree.get_stem]
    rfl
  · rw [if_neg ended,bit_ofBits brief (by omega),ok_bind,drop_at (by omega),← List.nil_append (_::_), BitTree.get_along,root_side]
    have inner : Reads hasher trie path (side (path.getD offset false) left right) := side_induction onLeft onRight _
    exact inner budget (offset + 1) (holds_side holds _) (fits.side _) (by omega) (by omega)

theorem getFrom_holds (brief : path.length < 2 ^ 32) (tree : BitTree (List Byte)) : Reads hasher trie path tree := by
  induction tree with
  | leaf suffix value =>
    intro budget offset holds fits inside enough
    obtain ⟨budget,rfl⟩ : ∃ less, budget = less + 1 := ⟨budget - 1,by omega⟩
    have whole := fits suffix value (get_leaf.mpr ⟨rfl,rfl⟩)
    rw [Trie.getFrom,if_neg (root_nonzero never),fetch_leaf holds (by omega),ok_bind]
    simp only [Hasher.leaf]
    rw [suffix_ofBits brief inside,ok_bind,BitTree.get]
    have same : ofBits (path.drop offset) = ofBits suffix ↔ path.drop offset = suffix :=
      ofBits_inj (by simp; omega) (by omega)
    have stored : trie.values.lookup (hasher.hashValue value) = some value := holds.2
    by_cases equal : path.drop offset = suffix
    · rw [if_pos (same.mpr equal),if_pos equal,stored]
      rfl
    · rw [if_neg (fun paths => equal (same.mp paths)),if_neg equal]
      rfl
  | fork stem left right onLeft onRight =>
    have branch := getFrom_branch never brief onLeft onRight
    by_cases none : stem = []
    · subst none
      exact branch
    intro budget offset holds fits inside enough
    obtain ⟨budget,rfl⟩ : ∃ less, budget = less + 1 := ⟨budget - 1,by omega⟩
    have short := fits.short_stem
    have long : 0 < stem.length := by rwa [List.length_pos_iff]
    rw [Trie.getFrom,if_neg (root_nonzero never),fetch_extension holds none (by omega),ok_bind]
    simp only [passExtension_ofBits brief inside short,ok_bind]
    by_cases along : stem <+: path.drop offset
    · simp only [if_pos along]
      obtain ⟨rest,along⟩ := along
      obtain ⟨after,size⟩ := drop_stem along inside
      rw [branch budget (offset + stem.length) (holds_below holds) fits.below (by omega) (by omega),after,← along, BitTree.get_below]
    · simp only [if_neg along,BitTree.get_off along]
      rfl
end

theorem appendBits_ofBits (short : bits.length < 2 ^ 32) : Trie.appendBits above (ofBits bits) = .ok (above ++ bits) := by
  have read : (List.range bits.length).map (fun index => bits.getD index false) = bits := by
    refine List.ext_getElem (by simp) fun index inRange inBits => ?_
    simp [inBits]
  rw [Trie.appendBits,length_ofBits short,
    mapM_ok fun index listed => bit_ofBits short (List.mem_range.mp listed),ok_bind,read]
  rfl

variable {hasher : Hasher β} (never : hasher.NeverZero) {trie : Trie β}
include never

-- The keys of the tree's paths, in the order of a walk from left to right.
def Lists (hasher : Hasher β) (trie : Trie β) (tree : BitTree (List Byte)) : Prop :=
  ∀ (budget : Nat) (above : List Bool), trie.Holds hasher tree → Fits above.length tree → 2 ^ 32 ≤ above.length + budget →
    trie.collectKeys budget (hasher.root tree) above = .ok (tree.paths.filterMap fun path => decodeRawKey (above ++ path))

theorem collectKeys_branch (onLeft : Lists hasher trie left)
    (onRight : Lists hasher trie right) : Lists hasher trie (.fork [] left right) := by
  intro budget above holds fits enough
  have short := fits.short_stem
  obtain ⟨budget,rfl⟩ : ∃ less, budget = less + 1 := ⟨budget - 1,by simp at short; omega⟩
  have size (bit : Bool) : (above ++ [bit]).length = above.length + 1 := by simp
  rw [Trie.collectKeys,if_neg (root_nonzero never),fetch_branch holds,ok_bind]
  simp only
  rw [onLeft budget _ holds.1 (by rw [size]; exact fits.side false) (by rw [size]; omega),ok_bind,
    onRight budget _ holds.2.1 (by rw [size]; exact fits.side true) (by rw [size]; omega),ok_bind]
  simp [BitTree.paths,List.filterMap_map]

theorem collectKeys_holds (tree : BitTree (List Byte)) : Lists hasher trie tree := by
  induction tree with
  | leaf suffix value =>
    intro budget above holds fits enough
    have whole := fits suffix value (get_leaf.mpr ⟨rfl,rfl⟩)
    obtain ⟨budget,rfl⟩ : ∃ less, budget = less + 1 := ⟨budget - 1,by omega⟩
    rw [Trie.collectKeys,if_neg (root_nonzero never),fetch_leaf holds (by omega),ok_bind]
    simp only [Hasher.leaf]
    rw [appendBits_ofBits (by omega),ok_bind,BitTree.paths]
    cases found : decodeRawKey (above ++ suffix) <;> simp [found]
  | fork stem left right onLeft onRight =>
    have branch := collectKeys_branch never onLeft onRight
    by_cases none : stem = []
    · subst none
      exact branch
    intro budget above holds fits enough
    have short := fits.short_stem
    have long : 0 < stem.length := by rwa [List.length_pos_iff]
    have size : (above ++ stem).length = above.length + stem.length := List.length_append
    obtain ⟨budget,rfl⟩ : ∃ less, budget = less + 1 := ⟨budget - 1,by omega⟩
    rw [Trie.collectKeys,if_neg (root_nonzero never),fetch_extension holds none (by omega),ok_bind]
    simp only
    rw [appendBits_ofBits (by omega),ok_bind, branch budget _ (holds_below holds) (by rw [size]; exact fits.below) (by rw [size]; omega)]
    simp [BitTree.paths,List.filterMap_map]
end Neutrino.StateTrie
