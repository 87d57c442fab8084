import Neutrino.Library.Lockstep
import Neutrino.Trie.Canonical

-- A store with checked digests beside a complete one.

namespace Neutrino.StateTrie
open Checks Bits Patricia Lockstep
open BitPath (length_ofBits forKey ofBits)
variable {β : Type} [Alphabet β] [DecidableEq β]

def Lost : Fault → Prop
  | .panicked .missingNode => True
  | .panicked .missingValue => True
  | _ => False

def BitPath.Packed (path : BitPath) : Prop := ∃ bits : List Bool, bits.length < 2 ^ 32 ∧ path = ofBits bits

variable {path : BitPath}

theorem BitPath.Packed.suffix (packed : path.Packed) (split : path.suffix start = .ok rest) : rest.Packed := by
  obtain ⟨bits,short,rfl⟩ := packed
  by_cases inside : start ≤ bits.length
  · rw [BitPath.suffix_ofBits short inside] at split
    cases split
    exact ⟨_,by rw [List.length_drop]; omega,rfl⟩
  · rw [BitPath.suffix,ensure_neg (by rwa [length_ofBits short])] at split
    cases split

theorem BitPath.Packed.prefixTo (packed : path.Packed) (split : path.prefixTo len = .ok front) : front.Packed ∧ front.length = len := by
  obtain ⟨bits,short,rfl⟩ := packed
  by_cases inside : len ≤ bits.length
  · have size : (bits.take len).length = len := by rw [List.length_take]; omega
    rw [BitPath.prefixTo_ofBits short inside] at split
    cases split
    exact ⟨⟨_,by omega,rfl⟩,by rw [length_ofBits (by omega),size]⟩
  · rw [BitPath.prefixTo,ensure_neg (by rwa [length_ofBits short])] at split
    cases split

theorem BitPath.Packed.concat (packed : path.Packed) (also : tail.Packed)
    (joined : path.concat tail = .ok whole) : whole.Packed ∧ path.length ≤ whole.length := by
  obtain ⟨bits,short,rfl⟩ := packed
  obtain ⟨more,brief,rfl⟩ := also
  by_cases fits : bits.length + more.length < 2 ^ 32
  · rw [BitPath.concat_ofBits short brief fits] at joined
    cases joined
    have size : (bits ++ more).length < 2 ^ 32 := by rwa [List.length_append]
    refine ⟨⟨_,size,rfl⟩,?_⟩
    rw [length_ofBits short,length_ofBits size,List.length_append]
    omega
  · rw [BitPath.concat,length_ofBits short,length_ofBits brief,if_neg (by omega),if_neg (by omega)] at joined
    simp only [ensure_neg fits] at joined
    cases joined

theorem BitPath.matchesAt_room (run : path.matchesAt offset other = .ok matched) : matched = true → offset + other.length ≤ path.length := by
  rintro rfl
  rw [BitPath.matchesAt] at run
  split at run
  · cases run
  · split at run
    · cases run
    · omega

section
variable (hasher : Hasher β)

structure Trie.Checked (trie : Trie β) : Prop where
  nodes : ∀ hash text, trie.nodes.lookup hash = some text → hasher.hashNode text = hash
  values : ∀ hash bytes, trie.values.lookup hash = some bytes → hasher.hashValue bytes = hash

def Within (reach : Set (Hash β)) (hash : Hash β) : Prop := hash = zeroHash ∨ hash ∈ reach

-- Subtrees among the known digests, a leaf's value in the store.
def Linked (trie : Trie β) (reach : Set (Hash β)) : Node β → Prop
  | .leaf path valueHash => path.Packed ∧ ∃ value, hasher.hashValue value = valueHash ∧ trie.StoresValue hasher value
  | .branch left right => Within reach left ∧ Within reach right
  | .extension path child => path.Packed ∧ path.length ≠ 0 ∧ Within reach child

def Closed (trie : Trie β) (reach : Set (Hash β)) : Prop :=
  ∀ hash ∈ reach, ∃ node, hasher.digest node = hash ∧ trie.Stores hasher node ∧ Linked hasher trie reach node

structure Shadows (view full : Trie β) (reach : Set (Hash β)) : Prop where
  checked : view.Checked hasher
  closed : Closed hasher full reach

def Ends (reach : Set (Hash β)) (here there : Trie β × Hash β) : Prop :=
  here.2 = there.2 ∧ ∃ more, reach ⊆ more ∧ Shadows hasher here.1 there.1 more ∧ Within more here.2
end
section
variable {hasher : Hasher β} {view full : Trie β} {reach more : Set (Hash β)}

theorem Within.mono {hash : Hash β} (within : Within reach hash) (grows : reach ⊆ more) : Within more hash :=
  within.imp id fun known => grows known

variable {node : Node β}

theorem Linked.mono (linked : Linked hasher full reach node) (grows : reach ⊆ more)
    (keeps : full.Keeps hasher after) : Linked hasher after more node := by
  cases node with
  | leaf path valueHash =>
    obtain ⟨packed,value,same,held⟩ := linked
    exact ⟨packed,value,same,keeps.values _ held⟩
  | branch left right => exact ⟨linked.1.mono grows,linked.2.mono grows⟩
  | extension path child => exact ⟨linked.1,linked.2.1,linked.2.2.mono grows⟩

theorem Linked.packed (linked : Linked hasher full reach node) : node.Packed := by
  cases node with
  | leaf path valueHash => exact linked.1
  | branch left right => trivial
  | extension path child => exact linked.1

theorem Closed.add (closed : Closed hasher full reach) (keeps : full.Keeps hasher after)
    (stored : after.Stores hasher node) (linked : Linked hasher full reach node) :
    Closed hasher after (insert (hasher.digest node) reach) := by
  have grows : reach ⊆ insert (hasher.digest node) reach := Set.subset_insert _ _
  rintro hash (rfl | known)
  · exact ⟨node,rfl,stored,linked.mono grows keeps⟩
  · obtain ⟨other,same,held,below⟩ := closed hash known
    exact ⟨other,same,keeps.nodes _ held,below.mono grows keeps⟩

theorem withNode_shadows (injective : hasher.Injective) (shadows : Shadows hasher view full reach)
    (linked : Linked hasher full reach node) :
    Shadows hasher (view.withNode (hasher.digest node) node.encode) (full.withNode (hasher.digest node) node.encode)
      (insert (hasher.digest node) reach) := by
  refine ⟨⟨fun hash text found => ?_,shadows.checked.values⟩,
    shadows.closed.add (withNode_keeps injective full node) withNode_stores linked⟩
  obtain ⟨rfl,rfl⟩ | ⟨_,found⟩ := lookup_insert_ok found
  · rfl
  · exact shadows.checked.nodes hash text found

theorem storeNode_ends (injective : hasher.Injective) (shadows : Shadows hasher view full reach)
    (linked : Linked hasher full reach node) : Ends hasher reach (view.storeNode hasher node) (full.storeNode hasher node) :=
  ⟨rfl,_,Set.subset_insert _ _,withNode_shadows injective shadows linked,.inr (Set.mem_insert _ _)⟩

theorem Ends.widen (ends : Ends hasher more here there) (grows : reach ⊆ more) : Ends hasher reach here there := by
  obtain ⟨same,last,onward,shadows,within⟩ := ends
  exact ⟨same,last,grows.trans onward,shadows,within⟩

theorem fetchNode_follows (injective : hasher.Injective) (shadows : Shadows hasher view full reach) {hash : Hash β} (known : hash ∈ reach) :
    Follows Lost (fun one two => one = two ∧ Linked hasher full reach one) (view.fetchNode hash) (full.fetchNode hash) := by
  obtain ⟨node,rfl,stored,linked⟩ := shadows.closed hash known
  rw [fetchNode_stored stored linked.packed,Trie.fetchNode]
  cases found : view.nodes.lookup (hasher.digest node) with
  | none => exact .lack trivial _
  | some text =>
    have same : text = node.encode := injective.node (shadows.checked.nodes _ _ found)
    rw [required_some,ok_bind,same,Node.decode_encode linked.packed]
    exact .done ⟨rfl,linked⟩
end
variable {hasher : Hasher β} (injective : hasher.Injective) {view full : Trie β} {reach : Set (Hash β)}
include injective
variable {path : BitPath} {budget other : Nat} {hash : Hash β}

section
variable (shadows : Shadows hasher view full reach)
include shadows

theorem getFrom_follows {consumed : Nat}
    (within : Within reach hash) (enough : path.length - consumed < budget) (enough' : path.length - consumed < other) :
    Follows Lost Eq (view.getFrom path budget hash consumed) (full.getFrom path other hash consumed) := by
  induction budget generalizing other consumed hash with
  | zero => omega
  | succ budget ih =>
    obtain ⟨other,rfl⟩ : ∃ less, other = less + 1 := ⟨other - 1,by omega⟩
    rw [Trie.getFrom,Trie.getFrom]
    by_cases zero : hash = zeroHash
    · rw [if_pos zero,if_pos zero]
      exact .done rfl
    · rw [if_neg zero,if_neg zero]
      refine (fetchNode_follows injective shadows (within.resolve_left zero)).bind ?_
      rintro node _ ⟨rfl,linked⟩
      cases node with
      | leaf keySuffix valueHash =>
        simp only
        refine .after _ fun remaining _ => ?_
        split
        · obtain ⟨_,value,rfl,stored⟩ := linked
          have found : full.values.lookup (hasher.hashValue value) = some value := stored
          rw [found]
          cases held : view.values.lookup (hasher.hashValue value) with
          | none => exact .lack trivial _
          | some bytes =>
            rw [injective.value (shadows.checked.values _ _ held)]
            exact .done rfl
        · exact .done rfl
      | branch left right =>
        simp only
        split
        · exact .done rfl
        · refine .after _ fun bit _ => ?_
          exact ih (by cases bit; exact linked.1; exact linked.2) (by omega) (by omega)
      | extension prefixPath child =>
        simp only
        have room : ∀ result, Trie.passExtension path consumed prefixPath = .ok result →
            ∀ rest ∈ result, rest = consumed + prefixPath.length ∧ rest ≤ path.length := by
          intro result passed rest chosen
          simp only [Trie.passExtension,Trie.advance,bind_ok,ensure_ok,pure_ok] at passed
          obtain ⟨_,⟨_,_,rfl⟩,passed⟩ := passed
          split at passed
          · cases passed
            cases chosen
          · simp only [bind_ok,pure_ok] at passed
            obtain ⟨_,_,_,_,rfl⟩ := passed
            split at chosen
            · cases chosen
              exact ⟨rfl,by omega⟩
            · cases chosen
        refine .after _ fun result passed => ?_
        have bound := room _ passed
        obtain ⟨_,long,below⟩ := linked
        cases result with
        | none => exact .done rfl
        | some rest =>
          obtain ⟨rfl,inside⟩ := bound rest rfl
          exact ih below (by omega) (by omega)

theorem forkAt_follows (packed : path.Packed)
    (old : Within reach existing) (added : Within reach new) :
    Follows Lost (Ends hasher reach) (view.forkAt hasher path common bit existing new)
      (full.forkAt hasher path common bit existing new) := by
  have linked : Linked hasher full reach (if bit then .branch new existing else .branch existing new) := by
    cases bit
    · exact ⟨old,added⟩
    · exact ⟨added,old⟩
  have next := withNode_shadows injective shadows linked
  simp only [Trie.forkAt,storeNode_eq]
  by_cases none : common = 0
  · rw [if_pos none,if_pos none]
    exact .done (storeNode_ends injective shadows linked)
  · rw [if_neg none,if_neg none]
    refine .after _ fun shared split => ?_
    obtain ⟨front,size⟩ := packed.prefixTo split
    refine .done (.widen (storeNode_ends injective next ?_) (Set.subset_insert _ _))
    exact ⟨front,by omega,.inr (Set.mem_insert _ _)⟩

theorem insertIntoLeaf_follows (packed : suffix.Packed)
    (also : path.Packed) (stored : full.StoresValue hasher old) (added : full.StoresValue hasher new) :
    Follows Lost (Ends hasher reach) (view.insertIntoLeaf hasher suffix (hasher.hashValue old) path (hasher.hashValue new))
      (full.insertIntoLeaf hasher suffix (hasher.hashValue old) path (hasher.hashValue new)) := by
  rw [Trie.insertIntoLeaf,Trie.insertIntoLeaf]
  split
  · exact .done (storeNode_ends injective shadows ⟨packed,new,rfl,added⟩)
  · refine .after _ fun common _ => ?_
    split
    · exact .stop _
    · refine .after _ fun bit _ => ?_
      refine .after _ fun oldTail split => ?_
      have front := packed.suffix split
      refine .after _ fun newTail split => ?_
      have rest := also.suffix split
      have oldLeaf : Linked hasher full reach (.leaf oldTail (hasher.hashValue old)) := ⟨front,old,rfl,stored⟩
      have newLeaf : Linked hasher full reach (.leaf newTail (hasher.hashValue new)) := ⟨rest,new,rfl,added⟩
      have one := withNode_shadows injective shadows oldLeaf
      have two := withNode_shadows injective one (newLeaf.mono (Set.subset_insert _ _) (withNode_keeps injective _ _))
      simp only [storeNode_eq]
      refine (forkAt_follows injective two also ?_ ?_).weaken fun _ _ ends =>
        ends.widen ((Set.subset_insert _ _).trans (Set.subset_insert _ _))
      · exact .inr (Set.mem_insert_of_mem _ (Set.mem_insert _ _))
      · exact .inr (Set.mem_insert _ _)

theorem splitExtension_follows {prefixPath : BitPath}
    (packed : prefixPath.Packed) (also : path.Packed) (below : Within reach child) (added : full.StoresValue hasher value) :
    Follows Lost (Ends hasher reach) (view.splitExtension hasher prefixPath child path (hasher.hashValue value))
      (full.splitExtension hasher prefixPath child path (hasher.hashValue value)) := by
  rw [Trie.splitExtension,Trie.splitExtension]
  refine .after _ fun common _ => ?_
  split
  · exact .stop _
  refine .after _ fun bit _ => ?_
  refine .after _ fun oldTail split => ?_
  have front := packed.suffix split
  refine .after _ fun newTail split => ?_
  have rest := also.suffix split
  have leaf : Linked hasher full reach (.leaf newTail (hasher.hashValue value)) := ⟨rest,value,rfl,added⟩
  by_cases ended : oldTail.length = 0
  · have one := withNode_shadows injective shadows leaf
    simp only [if_pos ended,storeNode_eq]
    exact (forkAt_follows injective one also (below.mono (Set.subset_insert _ _)) (.inr (Set.mem_insert _ _))).weaken
      fun _ _ ends => ends.widen (Set.subset_insert _ _)
  · have extension : Linked hasher full reach (.extension oldTail child) := ⟨front,ended,below⟩
    have one := withNode_shadows injective shadows extension
    have two := withNode_shadows injective one (leaf.mono (Set.subset_insert _ _) (withNode_keeps injective _ _))
    simp only [if_neg ended,storeNode_eq]
    refine (forkAt_follows injective two also ?_ (.inr (Set.mem_insert _ _))).weaken
      fun _ _ ends => ends.widen ((Set.subset_insert _ _).trans (Set.subset_insert _ _))
    exact .inr (Set.mem_insert_of_mem _ (Set.mem_insert _ _))
end

theorem insertAt_follows (packed : path.Packed) {value : List Byte}
    (shadows : Shadows hasher view full reach) (added : full.StoresValue hasher value)
    (within : Within reach hash) (enough : path.length - offset < budget) (enough' : path.length - offset < other) :
    Follows Lost (Ends hasher reach) (Trie.insertAt hasher path (hasher.hashValue value) budget view hash offset)
      (Trie.insertAt hasher path (hasher.hashValue value) other full hash offset) := by
  induction budget generalizing other offset hash with
  | zero => omega
  | succ budget ih =>
    obtain ⟨other,rfl⟩ : ∃ less, other = less + 1 := ⟨other - 1,by omega⟩
    rw [Trie.insertAt,Trie.insertAt]
    by_cases zero : hash = zeroHash
    · rw [if_pos zero,if_pos zero]
      refine .after _ fun keySuffix split => ?_
      have rest := packed.suffix split
      exact .done (storeNode_ends injective shadows ⟨rest,value,rfl,added⟩)
    · rw [if_neg zero,if_neg zero]
      refine (fetchNode_follows injective shadows (within.resolve_left zero)).bind ?_
      rintro node _ ⟨rfl,linked⟩
      cases node with
      | leaf keySuffix existing =>
        simp only
        obtain ⟨front,old,rfl,stored⟩ := linked
        refine .after _ fun remaining split => ?_
        have rest := packed.suffix split
        exact insertIntoLeaf_follows injective shadows front rest stored added
      | branch left right =>
        simp only
        split
        · exact .stop _
        · refine .after _ fun bit _ => ?_
          refine Follows.bind (ih (by cases bit; exact linked.1; exact linked.2) (by omega) (by omega)) ?_
          rintro ⟨here,hash⟩ ⟨there,_⟩ ⟨rfl,more,grows,next,known⟩
          refine .done (.widen (storeNode_ends injective next ?_) grows)
          cases bit
          · exact ⟨known,linked.2.mono grows⟩
          · exact ⟨linked.1.mono grows,known⟩
      | extension prefixPath child =>
        simp only
        obtain ⟨front,long,below⟩ := linked
        refine .after _ fun matched made => ?_
        have room := BitPath.matchesAt_room made
        cases matched with
        | false =>
          refine .after _ fun remaining split => ?_
          have rest := packed.suffix split
          exact splitExtension_follows injective shadows front rest below added
        | true =>
          have inside := room rfl
          simp only [if_true]
          split
          · exact .stop _
          · refine .bind (ih below (by omega) (by omega)) ?_
            rintro ⟨here,hash⟩ ⟨there,_⟩ ⟨rfl,more,grows,next,known⟩
            refine .done (.widen (storeNode_ends injective next ?_) grows)
            exact ⟨front,long,known⟩

theorem lengthen_follows (shadows : Shadows hasher view full reach) {front : BitPath} (packed : front.Packed)
    (long : front.length ≠ 0) (known : hash ∈ reach) :
    Follows Lost (Ends hasher reach) (view.lengthen hasher front hash) (full.lengthen hasher front hash) := by
  rw [Trie.lengthen,Trie.lengthen]
  refine (fetchNode_follows injective shadows known).bind ?_
  rintro node _ ⟨rfl,linked⟩
  cases node with
  | leaf keySuffix valueHash =>
    simp only
    refine .after _ fun combined joined => ?_
    have whole := (packed.concat linked.1 joined).1
    refine .done (storeNode_ends injective shadows ?_)
    exact ⟨whole,linked.2⟩
  | branch left right =>
    refine .done (storeNode_ends injective shadows ?_)
    exact ⟨packed,long,.inr known⟩
  | extension prefixPath child =>
    simp only
    refine .after _ fun combined joined => ?_
    obtain ⟨whole,longer⟩ := packed.concat linked.1 joined
    refine .done (storeNode_ends injective shadows ?_)
    exact ⟨whole,by omega,linked.2.2⟩

omit injective in
theorem Shadows.unchanged (shadows : Shadows hasher view full reach) (within : Within reach hash) :
    Ends hasher reach (view,hash) (full,hash) :=
  ⟨rfl,reach,subset_rfl,shadows,within⟩

theorem collapseBranch_follows (shadows : Shadows hasher view full reach) (one : Within reach left) (two : Within reach right) :
    Follows Lost (Ends hasher reach) (view.collapseBranch hasher left right) (full.collapseBranch hasher left right) := by
  have single (bit : Bool) : (BitPath.single bit).Packed ∧ (BitPath.single bit).length ≠ 0 := by
    rw [BitPath.single_ofBits]
    exact ⟨⟨_,by simp,rfl⟩,by rw [length_ofBits (by simp)]; simp⟩
  rw [Trie.collapseBranch,Trie.collapseBranch]
  by_cases noLeft : left = zeroHash
  · rw [if_pos noLeft,if_pos noLeft]
    by_cases noRight : right = zeroHash
    · rw [if_pos noRight,if_pos noRight]
      exact .done (shadows.unchanged (.inl rfl))
    · rw [if_neg noRight,if_neg noRight]
      exact lengthen_follows injective shadows (single true).1 (single true).2 (two.resolve_left noRight)
  · rw [if_neg noLeft,if_neg noLeft]
    by_cases noRight : right = zeroHash
    · rw [if_pos noRight,if_pos noRight]
      exact lengthen_follows injective shadows (single false).1 (single false).2 (one.resolve_left noLeft)
    · rw [if_neg noRight,if_neg noRight]
      refine .done (storeNode_ends injective shadows ?_)
      exact ⟨one,two⟩

theorem collapseExtension_follows (shadows : Shadows hasher view full reach)
    (packed : prefixPath.Packed) (long : prefixPath.length ≠ 0) (below : Within reach child) :
    Follows Lost (Ends hasher reach) (view.collapseExtension hasher prefixPath child) (full.collapseExtension hasher prefixPath child) := by
  rw [Trie.collapseExtension,Trie.collapseExtension]
  by_cases zero : child = zeroHash
  · rw [if_pos zero,if_pos zero]
    exact .done (shadows.unchanged (.inl rfl))
  · rw [if_neg zero,if_neg zero]
    exact lengthen_follows injective shadows packed long (below.resolve_left zero)

omit injective in
def Takes (hasher : Hasher β) (reach : Set (Hash β)) (here there : Trie β × Hash β × Option (Hash β)) : Prop :=
  here.2.2 = there.2.2 ∧ Ends hasher reach (here.1,here.2.1) (there.1,there.2.1)

theorem removeAt_follows {offset : Nat}
    (shadows : Shadows hasher view full reach) (within : Within reach hash) (enough : path.length - offset < budget)
    (enough' : path.length - offset < other) : Follows Lost (Takes hasher reach) (Trie.removeAt hasher path budget view hash offset)
      (Trie.removeAt hasher path other full hash offset) := by
  have stay : Takes hasher reach (view,hash,none) (full,hash,none) := ⟨rfl,shadows.unchanged within⟩
  induction budget generalizing other offset hash with
  | zero => omega
  | succ budget ih =>
    obtain ⟨other,rfl⟩ : ∃ less, other = less + 1 := ⟨other - 1,by omega⟩
    rw [Trie.removeAt,Trie.removeAt]
    by_cases zero : hash = zeroHash
    · rw [if_pos zero,if_pos zero]
      exact .done ⟨rfl,shadows.unchanged (.inl rfl)⟩
    · rw [if_neg zero,if_neg zero]
      refine (fetchNode_follows injective shadows (within.resolve_left zero)).bind ?_
      rintro node _ ⟨rfl,linked⟩
      cases node with
      | leaf keySuffix valueHash =>
        simp only
        split
        · refine .after _ fun matched _ => ?_
          cases matched
          · exact .done stay
          · exact .done ⟨rfl,shadows.unchanged (.inl rfl)⟩
        · exact .done stay
      | branch left right =>
        simp only
        split
        · exact .done stay
        · refine .after _ fun bit _ => ?_
          have side : Within reach (if bit then right else left) := by
            cases bit
            · exact linked.1
            · exact linked.2
          refine .bind (ih side (by omega) (by omega) ⟨rfl,shadows.unchanged side⟩) ?_
          rintro ⟨here,hash,taken⟩ ⟨there,_,_⟩ ⟨rfl,rfl,more,grows,next,known⟩
          simp only
          split
          · exact .done ⟨rfl,rfl,more,grows,next,within.mono grows⟩
          · refine .bind (collapseBranch_follows injective next ?_ ?_) ?_
            · cases bit
              · exact known
              · exact linked.1.mono grows
            · cases bit
              · exact linked.2.mono grows
              · exact known
            · rintro ⟨last,_⟩ ⟨last',_⟩ ⟨rfl,ends⟩
              exact .done ⟨rfl,Ends.widen ⟨rfl,ends⟩ grows⟩
      | extension prefixPath child =>
        simp only
        obtain ⟨front,long,below⟩ := linked
        refine .after _ fun matched made => ?_
        have room := BitPath.matchesAt_room made
        cases matched with
        | false => exact .done stay
        | true =>
          have inside := room rfl
          simp only [if_true]
          refine .bind (ih below (by omega) (by omega) ⟨rfl,shadows.unchanged below⟩) ?_
          rintro ⟨here,hash,taken⟩ ⟨there,_,_⟩ ⟨rfl,rfl,more,grows,next,known⟩
          simp only
          split
          · exact .done ⟨rfl,rfl,more,grows,next,within.mono grows⟩
          · refine .bind (collapseExtension_follows injective next front long known) ?_
            rintro ⟨last,_⟩ ⟨last',_⟩ ⟨rfl,ends⟩
            exact .done ⟨rfl,Ends.widen ⟨rfl,ends⟩ grows⟩

omit injective in
-- Two tries with one root, the second complete below it.
def Tracks (hasher : Hasher β) (view full : Trie β) : Prop :=
  view.root = full.root ∧ ∃ reach, Shadows hasher view full reach ∧ Within reach view.root

omit injective in
theorem forKey_packed (made : forKey key = .ok path) : KeyFits key ∧ path = ofBits (keyBits key) := by
  have fit : KeyFits key := by
    simp only [forKey,BitPath.fromOwnedKey,bind_ok,ensure_ok,List.length_append,leBytes_length] at made
    obtain ⟨_,_,_,fit,_⟩ := made
    exact fit
  rw [forKey_ofBits fit] at made
  cases made
  exact ⟨fit,rfl⟩

omit injective in
theorem budget_large (trie : Trie β) : 2 ^ 32 ≤ trie.budget := by
  have scale : 1 * 2 ^ 32 ≤ (trie.nodes.entries.length + 1) * 2 ^ 32 := Nat.mul_le_mul_right _ (by omega)
  unfold Trie.budget
  omega

omit injective in
theorem Shadows.withValue (injective : hasher.Injective) (shadows : Shadows hasher view full reach) (value : List Byte) :
    Shadows hasher (view.withValue (hasher.hashValue value) value) (full.withValue (hasher.hashValue value) value) reach := by
  refine ⟨⟨shadows.checked.nodes,fun hash bytes found => ?_⟩,fun hash known => ?_⟩
  · obtain ⟨rfl,rfl⟩ | ⟨_,found⟩ := lookup_insert_ok found
    · rfl
    · exact shadows.checked.values hash bytes found
  · obtain ⟨node,digest,stored,linked⟩ := shadows.closed hash known
    exact ⟨node,digest,stored,linked.mono subset_rfl (withValue_grows injective full value).toKeeps⟩

theorem get_follows (tracks : Tracks hasher view full) (key : List Byte) : Follows Lost Eq (view.get key) (full.get key) := by
  obtain ⟨same,reach,shadows,within⟩ := tracks
  rw [Trie.get,Trie.get,← same]
  refine .after _ fun path made => ?_
  obtain ⟨fit,rfl⟩ := forKey_packed made
  have short := fit.short
  have one := budget_large view
  have two := budget_large full
  rw [← length_ofBits short] at short
  exact getFrom_follows injective shadows within (by omega) (by omega)

theorem insert_follows (tracks : Tracks hasher view full) (key value : List Byte) :
    Follows Lost (Tracks hasher) (view.insert hasher key value) (full.insert hasher key value) := by
  obtain ⟨same,reach,shadows,within⟩ := tracks
  rw [Trie.insert,Trie.insert]
  refine .after _ fun path made => ?_
  obtain ⟨fit,rfl⟩ := forKey_packed made
  have short := fit.short
  have one := budget_large (view.withValue (hasher.hashValue value) value)
  have two := budget_large (full.withValue (hasher.hashValue value) value)
  have stored : (full.withValue (hasher.hashValue value) value).StoresValue hasher value := AList.lookup_insert _
  have roots : (full.withValue (hasher.hashValue value) value).root = (view.withValue (hasher.hashValue value) value).root := same.symm
  simp only [roots]
  rw [← length_ofBits short] at short
  refine .bind (insertAt_follows injective ⟨_,fit.short,rfl⟩ (shadows.withValue injective value) stored within
    (by omega) (by omega)) ?_
  rintro ⟨here,root⟩ ⟨there,_⟩ ⟨rfl,more,grows,next,known⟩
  exact .done ⟨rfl,more,⟨⟨next.checked.nodes,next.checked.values⟩,next.closed⟩,known⟩

theorem remove_follows (tracks : Tracks hasher view full) (key : List Byte) :
    Follows Lost (fun one two => Tracks hasher one.1 two.1) (view.remove hasher key) (full.remove hasher key) := by
  obtain ⟨same,reach,shadows,within⟩ := tracks
  rw [Trie.remove,Trie.remove,← same]
  refine .after _ fun path made => ?_
  obtain ⟨fit,rfl⟩ := forKey_packed made
  have short := fit.short
  have one := budget_large view
  have two := budget_large full
  rw [← length_ofBits short] at short
  refine .bind (removeAt_follows injective shadows within (by omega) (by omega)) ?_
  rintro ⟨here,root,taken⟩ ⟨there,_,_⟩ ⟨_,rfl,more,grows,next,known⟩
  exact .done ⟨rfl,more,⟨⟨next.checked.nodes,next.checked.values⟩,next.closed⟩,known⟩

-- A map's trie is complete, so every checked store with its root tracks it.
omit injective in
theorem represents_closed (represents : Represents hasher full map) : ∃ reach, Closed hasher full reach ∧ Within reach full.root := by
  refine ⟨{hash | ∃ tree offset, full.Holds hasher tree ∧ Fits offset tree ∧ hash = hasher.root tree},?_,?_⟩
  · rintro hash ⟨tree,offset,holds,fits,rfl⟩
    cases tree with
    | leaf suffix value =>
      have whole := fits suffix value (BitTree.get_leaf.mpr ⟨rfl,rfl⟩)
      exact ⟨hasher.leaf suffix value,rfl,holds.1,⟨suffix,by omega,rfl⟩,value,rfl,holds.2⟩
    | fork stem left right =>
      by_cases none : stem = []
      · subst none
        exact ⟨.branch (hasher.root left) (hasher.root right),rfl,holds.2.2.1,
          .inr ⟨left,_,holds.1,fits.side false,rfl⟩,.inr ⟨right,_,holds.2.1,fits.side true,rfl⟩⟩
      · have short := fits.short_stem
        have fit : stem.length < 2 ^ 32 := by omega
        refine ⟨.extension (ofBits stem) (hasher.root (.fork [] left right)),?_,?_,⟨stem,fit,rfl⟩,?_,
          .inr ⟨_,_,holds_below holds,fits.below,rfl⟩⟩
        · simp only [Hasher.root,Hasher.stemmed,if_neg none,if_true]
        · exact holds.2.2.2 none
        · rw [length_ofBits fit]
          simpa using none
  · rw [represents.root]
    cases whole : canonicalTree map with
    | none => exact .inl rfl
    | some tree => exact .inr ⟨tree,0,represents.held tree whole,fits_tree represents.fits whole,rfl⟩
end Neutrino.StateTrie
