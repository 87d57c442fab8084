import Neutrino.Trie.Stored

-- What the trie is for: a map from keys to values with one digest for each map.

namespace Neutrino.StateTrie
open Checks Bits Patricia
variable {β : Type} [Alphabet β] [DecidableEq β]

abbrev StateMap := Std.ExtTreeMap (List Byte) (List Byte) compare

inductive Call where
  | insert (key value : List Byte)
  | remove (key : List Byte)
  deriving DecidableEq

def Call.key : Call → List Byte
  | .insert key _ => key
  | .remove key => key

-- A call returns what remove returns, and insert returns nothing.
def Trie.call (hasher : Hasher β) (trie : Trie β) : Call → Except Fault (Trie β × Option (List Byte))
  | .insert key value => do
    let trie ← trie.insert hasher key value
    return (trie,none)
  | .remove key => trie.remove hasher key

def Trie.calls (hasher : Hasher β) (trie : Trie β) : List Call → Except Fault (Trie β × List (Option (List Byte)))
  | [] => return (trie,[])
  | call::rest => do
    let (trie,returned) ← trie.call hasher call
    let (trie,others) ← trie.calls hasher rest
    return (trie,returned::others)

def StateMap.call (map : StateMap) : Call → StateMap × Option (List Byte)
  | .insert key value => (Std.ExtTreeMap.insert map key value,none)
  | .remove key => (map.erase key,map[key]?)

def StateMap.calls (map : StateMap) : List Call → StateMap × List (Option (List Byte))
  | [] => (map,[])
  | call::rest =>
    let (after,returned) := StateMap.call map call
    let (last,others) := StateMap.calls after rest
    (last,returned::others)

theorem StateMap.find_insert (map : StateMap) (key value other : List Byte) :
    (Std.ExtTreeMap.insert map key value)[other]? = if key = other then some value else map[other]? := by
  rw [Std.ExtTreeMap.getElem?_insert]
  simp only [Std.compare_eq_iff_eq]

theorem StateMap.find_erase (map : StateMap) (key other : List Byte) :
    (map.erase key)[other]? = if key = other then none else map[other]? := by
  rw [Std.ExtTreeMap.getElem?_erase]
  simp only [Std.compare_eq_iff_eq]

-- The canonical binary Patricia tree of a map's keys, as trie paths.
def entries (map : StateMap) : List (List Bool × List Byte) := map.toList.map fun entry => (keyBits entry.1,entry.2)
def canonicalTree (map : StateMap) : Option (BitTree (List Byte)) := canonical (entries map)
def AllFit (map : StateMap) : Prop := ∀ key value, map[key]? = some value → KeyFits key

theorem mem_entries : (path,value) ∈ entries map ↔ ∃ key, path = keyBits key ∧ map[key]? = some value := by
  simp only [entries,List.mem_map,Prod.mk.injEq,Prod.exists,Std.ExtTreeMap.mem_toList_iff_getElem?_eq_some]
  constructor
  · rintro ⟨key,held,present,rfl,rfl⟩
    exact ⟨key,rfl,present⟩
  · rintro ⟨key,rfl,present⟩
    exact ⟨key,value,present,rfl,rfl⟩

theorem entries_separate (fits : AllFit map) : (entries map).Pairwise Separate := by
  refine List.pairwise_map.mpr (Std.ExtTreeMap.distinct_keys_toList.imp_of_mem ?_)
  intro one two inOne inTwo differ
  have first := fits _ _ (Std.ExtTreeMap.mem_toList_iff_getElem?_eq_some.mp inOne)
  have second := fits _ _ (Std.ExtTreeMap.mem_toList_iff_getElem?_eq_some.mp inTwo)
  have apart : one.1 ≠ two.1 := fun same => differ (by simp [same])
  exact ⟨fun begins => apart (keyBits_begins first second begins), fun begins => apart (keyBits_begins second first begins).symm⟩

theorem lookup_canonicalTree (fits : AllFit map) :
    lookup (canonicalTree map) path = some value ↔ ∃ key, path = keyBits key ∧ map[key]? = some value :=
  (lookup_ofEntries (entries_separate fits) fun _ => length_le_depth).trans mem_entries

theorem lookup_key (fits : AllFit map) (fit : KeyFits key) : lookup (canonicalTree map) (keyBits key) = map[key]? := by
  refine Option.ext fun value => (lookup_canonicalTree fits).trans ⟨?_,fun present => ⟨key,rfl,present⟩⟩
  rintro ⟨other,same,present⟩
  rwa [keyBits_injective fit (fits other value present) same]

theorem eq_canonicalTree (fits : AllFit map)
    (holds : ∀ path value, lookup root path = some value ↔ ∃ key, path = keyBits key ∧ map[key]? = some value) : root = canonicalTree map :=
  lookup_ext fun path value => (holds path value).trans (lookup_canonicalTree fits).symm

-- The trie holds the canonical tree of a map, all of it in the store.
structure Represents (hasher : Hasher β) (trie : Trie β) (map : StateMap) : Prop where
  fits : AllFit map
  root : trie.root = hasher.rootOf (canonicalTree map)
  held : trie.HoldsRoot hasher (canonicalTree map)

theorem canonicalTree_empty : canonicalTree ∅ = none := (eq_canonicalTree (by intro key value present; simp at present) (by simp)).symm

theorem new_represents (hasher : Hasher β) : Represents hasher Trie.new ∅ where
  fits := by intro key value present; simp at present
  root := by rw [canonicalTree_empty]; rfl
  held := by rw [canonicalTree_empty]; nofun

section
variable {trie : Trie β} {map : StateMap}

theorem fits_tree (fits : AllFit map) (root : canonicalTree map = some tree) : Fits 0 tree := by
  intro path held found
  have listed : lookup (canonicalTree map) path = some held := by rw [root]; exact found
  obtain ⟨other,rfl,present⟩ := (lookup_canonicalTree fits).mp listed
  simpa using (fits other held present).short

theorem admits_key (fits : AllFit map) (fit : KeyFits key) (root : canonicalTree map = some tree) : tree.Admits (keyBits key) := by
  intro path held found near
  have listed : lookup (canonicalTree map) path = some held := by rw [root]; exact found
  obtain ⟨other,rfl,present⟩ := (lookup_canonicalTree fits).mp listed
  have known := fits other held present
  rcases near with begins | begins
  · rw [keyBits_begins known fit begins]
  · rw [keyBits_begins fit known begins]

theorem budget_enough (trie : Trie β) (fit : KeyFits key) : (keyBits key).length < trie.budget := by
  have short := fit.short
  have scale : 1 * 2 ^ 32 ≤ (trie.nodes.entries.length + 1) * 2 ^ 32 := Nat.mul_le_mul_right _ (by omega)
  unfold Trie.budget
  omega

theorem AllFit.insert (fits : AllFit map) (fit : KeyFits key) (value : List Byte) : AllFit (Std.ExtTreeMap.insert map key value) := by
  intro other held present
  rw [StateMap.find_insert] at present
  split at present
  · rename_i same
    rwa [← same]
  · exact fits other held present

theorem AllFit.erase (fits : AllFit map) (key : List Byte) : AllFit (map.erase key) := by
  intro other held present
  rw [StateMap.find_erase] at present
  split at present
  · cases present
  · exact fits other held present

theorem withValue_grows (injective : hasher.Injective) (trie : Trie β) (value : List Byte) :
    trie.Grows hasher (trie.withValue (hasher.hashValue value) value) where
  built _ steady := steady.value trie value
  nodes _ held := held
  values _ held := lookup_insert_keep (fun same => injective.value same) held

theorem setRoot_grows (trie : Trie β) (root : Hash β) : trie.Grows hasher { trie with root := root } :=
  ⟨⟨fun _ held => held,fun _ held => held⟩,fun _ steady => steady.root trie root⟩

theorem insert_root (injective : hasher.Injective) (never : hasher.NeverZero) (fit : KeyFits key) (fits : AllFit map)
    (trie : Trie β) (root : trie.root = hasher.rootOf (canonicalTree map)) (held : trie.HoldsRoot hasher (canonicalTree map))
    (stored : trie.StoresValue hasher value) :
    ∃ changed, trie.Writes hasher (Trie.insertAt hasher (BitPath.ofBits (keyBits key)) (hasher.hashValue value)
        trie.budget trie trie.root 0) changed ∧ ∀ path other, lookup (some changed) path = some other ↔
        (path = keyBits key ∧ value = other) ∨ (path ≠ keyBits key ∧ lookup (canonicalTree map) path = some other) := by
  have enough := budget_enough trie fit
  rw [root]
  cases whole : canonicalTree map with
  | none =>
    obtain ⟨budget,more⟩ : ∃ less, trie.budget = less + 1 := ⟨trie.budget - 1,by omega⟩
    refine ⟨.leaf (keyBits key) value,?_,fun path other => ?_⟩
    · rw [more,Trie.insertAt,Hasher.rootOf,Option.elim_none,if_pos rfl,BitPath.suffix_ofBits fit.short (by omega),ok_bind, List.drop_zero]
      exact leaf_writes injective _ stored
    · simp
  | some tree =>
    rw [whole] at held
    obtain ⟨changed,inserted⟩ := BitTree.insert_admitted value (admits_key fits fit whole)
    refine ⟨changed,?_,fun path other => BitTree.get_insert inserted⟩
    exact insertAt_writes injective never fit.short tree _ _ _ _ (held tree rfl) (fits_tree fits whole) (by omega)
      (by omega) stored inserted

theorem insert_represents (injective : hasher.Injective) (never : hasher.NeverZero) (fit : KeyFits key)
    (represents : Represents hasher trie map) (value : List Byte) : ∃ after, trie.insert hasher key value = .ok after ∧
      Represents hasher after (Std.ExtTreeMap.insert map key value) ∧ trie.Grows hasher after := by
  obtain ⟨fits,root,held⟩ := represents
  have keeps := withValue_grows injective trie value
  have stored : (trie.withValue (hasher.hashValue value) value).StoresValue hasher value := AList.lookup_insert _
  obtain ⟨changed,⟨after,run,holds,more⟩,same⟩ := insert_root injective never fit fits
    (trie.withValue (hasher.hashValue value) value) root (fun tree present => (held tree present).keep keeps.toKeeps) stored
  have whole : some changed = canonicalTree (Std.ExtTreeMap.insert map key value) := by
    refine eq_canonicalTree (fits.insert fit value) fun path other => (same path other).trans ?_
    rw [lookup_canonicalTree fits]
    simp only [StateMap.find_insert]
    constructor
    · rintro (⟨rfl,rfl⟩ | ⟨apart,other,rfl,present⟩)
      · exact ⟨key,rfl,by simp⟩
      · have differ : key ≠ other := fun equal => apart (by rw [equal])
        exact ⟨other,rfl,by rwa [if_neg differ]⟩
    · rintro ⟨found,rfl,present⟩
      split at present
      · rename_i equal
        exact .inl ⟨by rw [equal],Option.some.inj present⟩
      · rename_i differ
        exact .inr ⟨fun bits => differ (keyBits_injective (fits _ _ present) fit bits).symm,found,rfl,present⟩
  refine ⟨{ after with root := hasher.root changed },?_,⟨fits.insert fit value,?_,?_⟩,(keeps.trans more).trans (setRoot_grows _ _)⟩
  · rw [Trie.insert,forKey_ofBits fit,ok_bind]
    simp only
    rw [run,ok_bind]
    rfl
  · rw [← whole]
    rfl
  · rw [← whole]
    rintro _ ⟨⟩
    exact holds.keep (setRoot_grows _ _).toKeeps

theorem remove_represents (injective : hasher.Injective) (never : hasher.NeverZero) (fit : KeyFits key)
    (represents : Represents hasher trie map) :
    ∃ after, trie.remove hasher key = .ok (after,map[key]?) ∧ Represents hasher after (map.erase key) ∧ trie.Grows hasher after := by
  obtain ⟨fits,root,held⟩ := represents
  have enough := budget_enough trie fit
  have found := lookup_key fits fit
  -- A key that is not there leaves the map, and so the trie, as they were.
  have unchanged (absent : map[key]? = none) : map.erase key = map := Std.ExtTreeMap.ext_getElem? fun other => by
    rw [StateMap.find_erase]
    split
    · rename_i same
      rw [← same,absent]
    · rfl
  rw [Trie.remove,forKey_ofBits fit,ok_bind,root]
  cases whole : canonicalTree map with
  | none =>
    obtain ⟨budget,more⟩ : ∃ less, trie.budget = less + 1 := ⟨trie.budget - 1,by omega⟩
    rw [whole,lookup_none] at found
    refine ⟨{ trie with root := zeroHash },?_,?_,setRoot_grows _ _⟩
    · rw [more,Trie.removeAt,Hasher.rootOf,Option.elim_none,if_pos rfl,← found]
      rfl
    · rw [unchanged found.symm]
      exact ⟨fits,by rw [whole]; rfl,fun tree present => (held tree present).keep (setRoot_grows _ _).toKeeps⟩
  | some tree =>
    rw [whole,lookup_some] at found
    rw [whole] at held
    obtain ⟨absent,present⟩ := removeAt_writes injective never fit.short tree trie.budget trie 0 (held tree rfl)
      (fits_tree fits whole) (by omega) (by omega)
    rw [← tree.remove_value] at found
    rw [List.drop_zero] at absent present
    rcases taken : tree.remove (keyBits key) with _ | ⟨old,remaining⟩
    · rw [taken,Option.map_none] at found
      refine ⟨{ trie with root := hasher.root tree },?_,?_,setRoot_grows _ _⟩
      · rw [Hasher.rootOf,Option.elim_some,absent taken,ok_bind,← found]
        rfl
      · rw [unchanged found.symm]
        refine ⟨fits,by rw [whole]; rfl,?_⟩
        rw [whole]
        exact fun other same => (held other same).keep (setRoot_grows _ _).toKeeps
    · obtain ⟨after,run,kept,keeps⟩ := present old remaining taken
      have there : tree.get (keyBits key) = some old := by rw [← tree.remove_value,taken]; rfl
      have stored : after.values.lookup (hasher.hashValue old) = some old := keeps.values _ (holds_value (held tree rfl) there)
      have rest : remaining = canonicalTree (map.erase key) := by
        refine eq_canonicalTree (fits.erase key) fun path other => (BitTree.get_remove taken).trans ?_
        rw [← lookup_some,← whole,lookup_canonicalTree fits]
        simp only [StateMap.find_erase]
        constructor
        · rintro ⟨apart,other,rfl,listed⟩
          have differ : key ≠ other := fun equal => apart (by rw [equal])
          exact ⟨other,rfl,by rwa [if_neg differ]⟩
        · rintro ⟨other,rfl,listed⟩
          split at listed
          · cases listed
          · rename_i differ
            exact ⟨fun bits => differ (keyBits_injective (fits _ _ listed) fit bits).symm,other,rfl,listed⟩
      refine ⟨{ after with root := hasher.rootOf remaining },?_,⟨fits.erase key,by rw [← rest],?_⟩,keeps.trans (setRoot_grows _ _)⟩
      · rw [taken,Option.map_some] at found
        rw [Hasher.rootOf,Option.elim_some,run,ok_bind,← found]
        simp only [Option.bind_some,stored]
        rfl
      · rw [← rest]
        exact fun other same => (kept other same).keep (setRoot_grows _ _).toKeeps

theorem getFrom_represents (never : hasher.NeverZero) (fit : KeyFits key) (represents : Represents hasher trie map)
    (enough : (keyBits key).length < budget) : trie.getFrom (BitPath.ofBits (keyBits key)) budget trie.root 0 = .ok map[key]? := by
  obtain ⟨fits,root,held⟩ := represents
  rw [root,← lookup_key fits fit]
  cases whole : canonicalTree map with
  | none =>
    obtain ⟨budget,rfl⟩ : ∃ less, budget = less + 1 := ⟨budget - 1,by omega⟩
    rw [Trie.getFrom,Hasher.rootOf,Option.elim_none,if_pos rfl]
    rfl
  | some tree =>
    rw [whole] at held
    exact getFrom_holds never fit.short tree budget 0 (held tree rfl) (fits_tree fits whole) (by omega) (by omega)

theorem get_represents (never : hasher.NeverZero) (fit : KeyFits key) (represents : Represents hasher trie map) :
    trie.get key = .ok map[key]? := by
  rw [Trie.get,forKey_ofBits fit,ok_bind]
  exact getFrom_represents never fit represents (budget_enough trie fit)

omit [Alphabet β] [DecidableEq β] in
theorem decoded_paths {paths : List (List Bool)} (known : ∀ path ∈ paths, ∃ key, KeyFits key ∧ path = keyBits key) :
    (paths.filterMap decodeRawKey).map keyBits = paths := by
  induction paths with
  | nil => rfl
  | cons path rest ih =>
    obtain ⟨key,fit,rfl⟩ := known path (by simp)
    rw [List.filterMap_cons_some (decodeRawKey_keyBits fit),List.map_cons,ih fun other listed => known other (by simp [listed])]

theorem sorted_unique {found : List (List Byte)} (same : found.Perm map.keys) :
    found.mergeSort (fun one two => (compare one two).isLE) = map.keys := by
  refine List.Perm.eq_of_pairwise ?_ (List.pairwise_mergeSort ?_ ?_ found)
    (Std.ExtTreeMap.ordered_keys.imp Ordering.isLE_of_eq_lt) ((List.mergeSort_perm _ _).trans same)
  · intro one two _ _ lower upper
    have swapped : compare two one = (compare one two).swap := Std.OrientedCmp.eq_swap
    rw [swapped] at upper
    exact Std.compare_eq_iff_eq.mp (Ordering.eq_eq_of_isLE_of_isLE_swap lower upper)
  · exact fun one two three => Std.TransOrd.isLE_trans
  · intro one two
    have swapped : compare two one = (compare one two).swap := Std.OrientedCmp.eq_swap
    rw [swapped]
    cases compare one two <;> rfl

def pathsOf (root : Option (BitTree (List Byte))) : List (List Bool) := root.elim [] BitTree.paths

omit [Alphabet β] [DecidableEq β] in
theorem mem_pathsOf (fits : AllFit map) :
    path ∈ pathsOf (canonicalTree map) ↔ ∃ key, KeyFits key ∧ path = keyBits key ∧ key ∈ map.keys := by
  have held : path ∈ pathsOf (canonicalTree map) ↔ ∃ value, lookup (canonicalTree map) path = some value := by
    cases canonicalTree map with
    | none => simp [pathsOf]
    | some tree => exact BitTree.mem_paths
  simp only [held,lookup_canonicalTree fits,Std.ExtTreeMap.mem_keys,Std.ExtTreeMap.mem_iff_isSome_getElem?, Option.isSome_iff_exists]
  constructor
  · rintro ⟨value,key,same,present⟩
    exact ⟨key,fits key value present,same,value,present⟩
  · rintro ⟨key,_,same,value,present⟩
    exact ⟨value,key,same,present⟩

omit [Alphabet β] [DecidableEq β] in
theorem decoded_keys (fits : AllFit map) : ((pathsOf (canonicalTree map)).filterMap decodeRawKey).Perm map.keys := by
  have decoded := decoded_paths fun path listed =>
    (mem_pathsOf fits).mp listed |>.imp fun key known => ⟨known.1,known.2.1⟩
  have distinct : (pathsOf (canonicalTree map)).Nodup := by
    cases canonicalTree map with
    | none => exact List.nodup_nil
    | some tree => exact tree.paths_nodup
  rw [← decoded] at distinct
  refine (List.perm_ext_iff_of_nodup distinct.of_map ?_).mpr fun key => ?_
  · exact Std.ExtTreeMap.distinct_keys.imp fun differ same => differ (by simp [same])
  · rw [List.mem_filterMap]
    constructor
    · rintro ⟨path,listed,found⟩
      obtain ⟨other,fit,rfl,present⟩ := (mem_pathsOf fits).mp listed
      rw [decodeRawKey_keyBits fit] at found
      rwa [← Option.some.inj found]
    · intro present
      obtain ⟨value,held⟩ := Option.isSome_iff_exists.mp (Std.ExtTreeMap.mem_iff_isSome_getElem?.mp (Std.ExtTreeMap.mem_keys.mp present))
      have fit := fits key value held
      exact ⟨keyBits key,(mem_pathsOf fits).mpr ⟨key,fit,rfl,present⟩,decodeRawKey_keyBits fit⟩

theorem keys_represents (never : hasher.NeverZero) (represents : Represents hasher trie map) : trie.keys = .ok map.keys := by
  obtain ⟨fits,root,held⟩ := represents
  have enough : 2 ^ 32 ≤ trie.budget := by
    have scale : 1 * 2 ^ 32 ≤ (trie.nodes.entries.length + 1) * 2 ^ 32 := Nat.mul_le_mul_right _ (by omega)
    unfold Trie.budget
    omega
  have collected : trie.collectKeys trie.budget trie.root [] = .ok ((pathsOf (canonicalTree map)).filterMap decodeRawKey) := by
    rw [root]
    cases whole : canonicalTree map with
    | none =>
      obtain ⟨budget,more⟩ : ∃ less, trie.budget = less + 1 := ⟨trie.budget - 1,by omega⟩
      rw [more,Trie.collectKeys,Hasher.rootOf,Option.elim_none,if_pos rfl]
      rfl
    | some tree =>
      rw [whole] at held
      exact collectKeys_holds never tree trie.budget [] (held tree rfl) (fits_tree fits whole) (by simpa using enough)
  rw [Trie.keys,collected,ok_bind,sorted_unique (decoded_keys fits)]
  rfl
end
section
variable {hasher : Hasher β} (injective : hasher.Injective) (never : hasher.NeverZero)
include injective never

theorem call_represents (fit : KeyFits call.key) (represents : Represents hasher trie map) :
    ∃ after, trie.call hasher call = .ok (after,(StateMap.call map call).2) ∧ Represents hasher after (StateMap.call map call).1 := by
  cases call with
  | insert key value =>
    have fits : KeyFits key := fit
    obtain ⟨after,run,next,-⟩ := insert_represents injective never fits represents value
    exact ⟨after,by rw [Trie.call,run]; rfl,next⟩
  | remove key =>
    obtain ⟨after,run,next,-⟩ := remove_represents injective never fit represents
    exact ⟨after,run,next⟩

theorem calls_represent (fit : ∀ call ∈ calls, KeyFits call.key) (represents : Represents hasher trie map) :
    ∃ after, trie.calls hasher calls = .ok (after,(StateMap.calls map calls).2) ∧ Represents hasher after (StateMap.calls map calls).1 := by
  induction calls generalizing trie map with
  | nil => exact ⟨trie,rfl,represents⟩
  | cons call rest ih =>
    obtain ⟨middle,run,next⟩ := call_represents injective never (fit call (by simp)) represents
    obtain ⟨after,others,last⟩ := ih (fun other listed => fit other (by simp [listed])) next
    refine ⟨after,?_,last⟩
    rw [Trie.calls,run,ok_bind]
    simp only
    rw [others]
    rfl

-- The root is the canonical tree's, whatever the history; reads, keys and removals are
-- the map's own, and no call is refused.
theorem trie_canonical_form (calls : List Call) (fit : ∀ call ∈ calls, KeyFits call.key) :
    ∃ trie, (Trie.new : Trie β).calls hasher calls = .ok (trie,(StateMap.calls ∅ calls).2) ∧
      trie.root = hasher.rootOf (canonicalTree (StateMap.calls ∅ calls).1) ∧
      (∀ key, KeyFits key → trie.get key = .ok (StateMap.calls ∅ calls).1[key]?) ∧ trie.keys = .ok (StateMap.calls ∅ calls).1.keys := by
  obtain ⟨trie,run,represents⟩ := calls_represent injective never fit (new_represents hasher)
  exact ⟨trie,run,represents.root,fun key known => get_represents never known represents, keys_represents never represents⟩
end

-- Two keys that part at their last bits, one written over, the other taken out.
def sampleCalls : List Call := [.insert [0] [1],.insert [1] [2],.insert [0] [3],.remove [1]]

theorem sample_canonical_form : (∀ call ∈ sampleCalls, KeyFits call.key) ∧
    ∃ trie, (Trie.new : Trie Symbol).calls spelledHasher sampleCalls = .ok (trie,[none,none,none,some [2]]) ∧
      trie.root = spelledHasher.rootOf (some (.leaf (keyBits [0]) [3])) ∧ trie.get [1] = .ok none ∧ trie.keys = .ok [[0]] := by
  have fit : ∀ call ∈ sampleCalls, KeyFits call.key := by decide
  obtain ⟨trie,run,root,get,keys⟩ := trie_canonical_form spelledHasher_injective spelledHasher_neverZero sampleCalls fit
  have returned : (StateMap.calls ∅ sampleCalls).2 = [none,none,none,some [2]] := by decide +kernel
  have tree : canonicalTree (StateMap.calls ∅ sampleCalls).1 = some (.leaf (keyBits [0]) [3]) := by decide +kernel
  have absent : (StateMap.calls ∅ sampleCalls).1[([1] : List Byte)]? = none := by decide +kernel
  have listed : (StateMap.calls ∅ sampleCalls).1.keys = [[0]] := by decide +kernel
  rw [returned] at run
  rw [tree] at root
  rw [listed] at keys
  exact ⟨fit,trie,run,root,by rw [get [1] (by decide),absent],keys⟩
end Neutrino.StateTrie
