import Neutrino.Trie.Coverage

-- What a walk collects covers its key, strongly unless the walk leaves an extension at
-- the last bit of its prefix, where the child is not collected.

namespace Neutrino.StateTrie
open Checks Bits Patricia
variable {β : Type} [Alphabet β] [DecidableEq β]

structure CoversKey (hasher : Hasher β) (trie : Trie β) (strong : Prop) (key : List Byte) : Prop where
  fit : KeyFits key
  walk : Covered hasher trie strong (keyBits key) trie.root

section
variable {hasher : Hasher β} {trie after : Trie β} {strong : Prop} {key : List Byte}

theorem get_complete (covers : CoversKey hasher trie strong key) : Complete (trie.get key) := by
  rw [Trie.get,forKey_ofBits covers.fit,ok_bind]
  exact getFrom_complete covers.fit.short (by omega) covers.walk

theorem insert_carries (injective : hasher.Injective) (covers : CoversKey hasher trie strong key) (value : List Byte) :
    Complete (trie.insert hasher key value) ∧ ∀ after, trie.insert hasher key value = .ok after →
      ∀ strong other, CoversKey hasher trie strong other → CoversKey hasher after strong other := by
  have keeps := (withValue_grows injective trie value).toKeeps
  have stored : (trie.withValue (hasher.hashValue value) value).StoresValue hasher value := AList.lookup_insert _
  obtain ⟨complete,carried⟩ : Carries hasher (trie.withValue (hasher.hashValue value) value) trie.root
      (Trie.insertAt hasher (BitPath.ofBits (keyBits key)) (hasher.hashValue value)
        (trie.withValue (hasher.hashValue value) value).budget (trie.withValue (hasher.hashValue value) value) trie.root 0) :=
    insertAt_carries injective covers.fit.short stored (by omega) (covers.walk.keep keeps)
  rw [Trie.insert,forKey_ofBits covers.fit,ok_bind]
  refine ⟨complete.bind fun _ _ => .done _,fun last ran strong other known => ?_⟩
  obtain ⟨⟨middle,root⟩,one,two⟩ := bind_ok.mp ran
  cases two
  exact ⟨known.fit,((carried _ _ one).covers strong _ (known.walk.keep keeps)).keep (setRoot_grows _ _).toKeeps⟩

theorem remove_carries (injective : hasher.Injective) (covers : CoversKey hasher trie strong key)
    (allowed : trie.get key = .ok none ∨ strong) :
    Complete (trie.remove hasher key) ∧ ∀ after removed, trie.remove hasher key = .ok (after,removed) →
      ∀ strong other, CoversKey hasher trie strong other → CoversKey hasher after strong other := by
  have sheds : Sheds hasher trie trie.root (Trie.removeAt hasher (BitPath.ofBits (keyBits key)) trie.budget trie trie.root 0) := by
    rcases allowed with absent | need
    · rw [Trie.get,forKey_ofBits covers.fit,ok_bind] at absent
      rw [removeAt_absent covers.fit.short (by omega) covers.walk absent]
      exact .stay covers.walk
    · have walk := covers.walk
      rw [eq_true need] at walk
      exact removeAt_sheds injective covers.fit.short (by omega) walk
  rw [Trie.remove,forKey_ofBits covers.fit,ok_bind]
  refine ⟨sheds.1.bind fun _ _ => .done _,fun last taken ran strong other known => ?_⟩
  obtain ⟨⟨middle,root,removed⟩,one,two⟩ := bind_ok.mp ran
  cases two
  exact ⟨known.fit,((sheds.2 _ _ _ one).covers strong _ known.walk).keep (setRoot_grows _ _).toKeeps⟩
end
namespace Trie

structure Collected.Checked (hasher : Hasher β) (out : Collected β) : Prop where
  nodes : ∀ hash text, out.nodes.lookup hash = some text → hasher.hashNode text = hash
  values : ∀ hash bytes, out.values.lookup hash = some bytes → hasher.hashValue bytes = hash

structure Collected.Grows (out more : Collected β) : Prop where
  nodes : ∀ hash text, out.nodes.lookup hash = some text → more.nodes.lookup hash = some text
  values : ∀ hash bytes, out.values.lookup hash = some bytes → more.values.lookup hash = some bytes

structure Has (trie : Trie β) (out : Collected β) : Prop where
  nodes : ∀ hash text, out.nodes.lookup hash = some text → trie.nodes.lookup hash = some text
  values : ∀ hash bytes, out.values.lookup hash = some bytes → trie.values.lookup hash = some bytes
end Trie
variable {hasher : Hasher β} (injective : hasher.Injective) {live : Trie β}
open Trie
variable {out : Collected β}

theorem Trie.Collected.Grows.refl : out.Grows out := ⟨fun _ _ => id,fun _ _ => id⟩

theorem Trie.Collected.Grows.trans {one two three : Collected β} (first : one.Grows two) (second : two.Grows three) : one.Grows three :=
  ⟨fun hash text found => second.nodes hash text (first.nodes hash text found),
    fun hash bytes found => second.values hash bytes (first.values hash bytes found)⟩

theorem Trie.Has.less {trie : Trie β} (has : trie.Has more) (grows : out.Grows more) : trie.Has out :=
  ⟨fun hash text found => has.nodes hash text (grows.nodes hash text found),
    fun hash bytes found => has.values hash bytes (grows.values hash bytes found)⟩

include injective

theorem addNode_grows (checked : out.Checked hasher) (stored : live.Stores hasher node) :
    (out.addNode live (hasher.digest node)).Checked hasher ∧ out.Grows (out.addNode live (hasher.digest node)) ∧
      (out.addNode live (hasher.digest node)).nodes.lookup (hasher.digest node) = some node.encode := by
  have found : live.nodes.lookup (hasher.digest node) = some node.encode := stored
  simp only [Collected.addNode,found]
  refine ⟨⟨fun hash text held => ?_,checked.values⟩,⟨fun hash text held => ?_,fun _ _ => id⟩,AList.lookup_insert _⟩
  · obtain ⟨rfl,rfl⟩ | ⟨_,held⟩ := lookup_insert_ok held
    · rfl
    · exact checked.nodes hash text held
  · exact lookup_insert_keep (fun same => injective.node ((checked.nodes hash text held).trans same)) held

theorem addValue_grows (checked : out.Checked hasher) (stored : live.StoresValue hasher value) :
    (out.addValue live (hasher.hashValue value)).Checked hasher ∧ out.Grows (out.addValue live (hasher.hashValue value)) ∧
      (out.addValue live (hasher.hashValue value)).values.lookup (hasher.hashValue value) = some value := by
  have found : live.values.lookup (hasher.hashValue value) = some value := stored
  simp only [Collected.addValue,found]
  refine ⟨⟨checked.nodes,fun hash bytes held => ?_⟩,⟨fun _ _ => id,fun hash bytes held => ?_⟩,AList.lookup_insert _⟩
  · obtain ⟨rfl,rfl⟩ | ⟨_,held⟩ := lookup_insert_ok held
    · rfl
    · exact checked.values hash bytes held
  · exact lookup_insert_keep (fun same => injective.value ((checked.values hash bytes held).trans same)) held

omit injective in
theorem holds_known (holds : live.Holds hasher tree) (fits : Fits offset tree) : Known hasher live (hasher.root tree) := by
  cases tree with
  | leaf suffix value =>
    have whole := fits suffix value (BitTree.get_leaf.mpr ⟨rfl,rfl⟩)
    exact ⟨_,rfl,holds.1,suffix,by omega,rfl⟩
  | fork stem left right =>
    by_cases none : stem = []
    · subst none
      exact ⟨_,rfl,holds.2.2.1,trivial⟩
    · have short := fits.short_stem
      have fit : stem.length < 2 ^ 32 := by omega
      refine ⟨_,?_,holds.2.2.2 none,⟨stem,fit,rfl⟩,?_⟩
      · simp only [Hasher.root,Hasher.stemmed,if_neg none]
      · rw [BitPath.length_ofBits fit]
        simpa using none

def Collects (hasher : Hasher β) (live : Trie β) (path : List Bool) (tree : BitTree (List Byte)) : Prop :=
  ∀ (budget offset : Nat) (out : Collected β), live.Holds hasher tree → Fits offset tree → offset ≤ path.length →
    path.length - offset < budget → out.Checked hasher →
    ∃ more, live.collectFrom (BitPath.ofBits path) budget (hasher.root tree) offset out = .ok more ∧ more.Checked hasher ∧ out.Grows more ∧
      ∀ view : Trie β, view.Has more → Covered hasher view (tree.clips (path.drop offset) = false) (path.drop offset) (hasher.root tree)

variable {path : List Bool}
omit injective in
theorem collects_empty {budget offset : Nat} (zero : hasher.root tree = zeroHash) (checked : out.Checked hasher) :
    ∃ more, live.collectFrom (BitPath.ofBits path) (budget + 1) (hasher.root tree) offset out = .ok more ∧
      more.Checked hasher ∧ out.Grows more ∧ ∀ view : Trie β, view.Has more →
        Covered hasher view (tree.clips (path.drop offset) = false) (path.drop offset) (hasher.root tree) := by
  refine ⟨out,by rw [Trie.collectFrom,if_pos zero]; rfl,checked,.refl,fun view _ => ?_⟩
  rw [zero]
  exact .empty _

theorem collectFrom_branch (brief : path.length < 2 ^ 32) {left right : BitTree (List Byte)}
    (onLeft : Collects hasher live path left) (onRight : Collects hasher live path right) :
    Collects hasher live path (.fork [] left right) := by
  intro budget offset out holds fits inside enough checked
  obtain ⟨budget,rfl⟩ : ∃ less, budget = less + 1 := ⟨budget - 1,by omega⟩
  by_cases zero : hasher.root (.fork [] left right) = zeroHash
  · exact collects_empty zero checked
  obtain ⟨checked',grows,found⟩ := addNode_grows injective checked holds.2.2.1
  have digest : hasher.root (.fork [] left right) = hasher.digest (.branch (hasher.root left) (hasher.root right)) := rfl
  rw [Trie.collectFrom,if_neg zero,fetch_branch holds,ok_bind]
  simp only [BitPath.length_ofBits brief]
  by_cases ended : path.length ≤ offset
  · rw [if_pos ended,List.drop_eq_nil_of_le ended,digest]
    refine ⟨_,rfl,checked',grows,fun view has => .branch (has.nodes _ _ found) ?_ ?_⟩
    · intro bit rest split
      cases split
    · intro bit rest split
      cases split
  · have below : offset < path.length := by omega
    rw [if_neg ended,BitPath.bit_ofBits brief below,ok_bind,drop_at below,root_side]
    generalize path.getD offset false = bit
    have sibling : (if bit then hasher.root left else hasher.root right) = hasher.root (BitTree.side (!bit) left right) := by
      cases bit <;> rfl
    obtain ⟨top,same,stored,regular⟩ := holds_known (holds_side holds (!bit)) (fits.side (!bit))
    have inner : Collects hasher live path (BitTree.side bit left right) := BitTree.side_induction onLeft onRight bit
    rw [sibling,digest,← same]
    obtain ⟨middle,picked,fine,wider,beside⟩ : ∃ middle : Collected β,
        (if hasher.digest top ≠ zeroHash
          then (out.addNode live (hasher.digest (.branch (hasher.root left) (hasher.root right)))).addNode live (hasher.digest top)
          else out.addNode live (hasher.digest (.branch (hasher.root left) (hasher.root right)))) = middle ∧
        middle.Checked hasher ∧
        (out.addNode live (hasher.digest (.branch (hasher.root left) (hasher.root right)))).Grows middle ∧
        ∀ view : Trie β, view.Has middle → Settled hasher view (hasher.digest top) := by
      by_cases none : hasher.digest top = zeroHash
      · exact ⟨_,if_neg (by simp [none]),checked',.refl,fun view _ => .inl none⟩
      · obtain ⟨fine,wider,held⟩ := addNode_grows injective checked' stored
        exact ⟨_,if_pos none,fine,wider,fun view has => .inr ⟨top,rfl,has.nodes _ _ held,regular⟩⟩
    rw [picked]
    obtain ⟨more,run,last,onward,covers⟩ := inner budget (offset + 1) middle (holds_side holds bit) (fits.side bit)
      (by omega) (by omega) fine
    refine ⟨more,run,last,(grows.trans wider).trans onward,fun view has => ?_⟩
    have kept := has.less onward
    refine .branch (kept.nodes _ _ (wider.nodes _ _ found)) ?_ ?_
    · rintro turn rest split need
      cases split
      rw [sibling,← same]
      exact beside view kept
    · rintro turn rest split
      cases split
      rw [root_side,← List.nil_append (bit::_),BitTree.clips_along]
      exact covers view has

theorem collectFrom_collects (brief : path.length < 2 ^ 32) (tree : BitTree (List Byte)) : Collects hasher live path tree := by
  induction tree with
  | leaf suffix value =>
    intro budget offset out holds fits inside enough checked
    obtain ⟨budget,rfl⟩ : ∃ less, budget = less + 1 := ⟨budget - 1,by omega⟩
    by_cases zero : hasher.root (.leaf suffix value) = zeroHash
    · exact collects_empty zero checked
    have whole := fits suffix value (BitTree.get_leaf.mpr ⟨rfl,rfl⟩)
    obtain ⟨checked',grows,found⟩ := addNode_grows injective checked holds.1
    obtain ⟨checked'',wider,held⟩ := addValue_grows injective checked' holds.2
    rw [Trie.collectFrom,if_neg zero,fetch_leaf holds (by omega),ok_bind]
    refine ⟨_,rfl,checked'',grows.trans wider,fun view has => ?_⟩
    exact .leaf (has.nodes _ _ (wider.nodes _ _ found)) (by omega) fun _ => ⟨value,rfl,has.values _ _ held⟩
  | fork stem left right onLeft onRight =>
    have branch := collectFrom_branch injective brief onLeft onRight
    by_cases none : stem = []
    · subst none
      exact branch
    intro budget offset out holds fits inside enough checked
    obtain ⟨budget,rfl⟩ : ∃ less, budget = less + 1 := ⟨budget - 1,by omega⟩
    by_cases zero : hasher.root (.fork stem left right) = zeroHash
    · exact collects_empty zero checked
    have short := fits.short_stem
    have fit : stem.length < 2 ^ 32 := by omega
    have long : 0 < stem.length := by rwa [List.length_pos_iff]
    obtain ⟨checked',grows,found⟩ := addNode_grows injective checked (holds.2.2.2 none)
    have digest : hasher.root (.fork stem left right) =
        hasher.digest (.extension (BitPath.ofBits stem) (hasher.root (.fork [] left right))) := by
      simp only [Hasher.root,Hasher.stemmed,if_neg none,if_true]
    rw [Trie.collectFrom,if_neg zero,fetch_extension holds none fit,ok_bind]
    simp only [passExtension_ofBits brief inside short,ok_bind]
    by_cases along : stem <+: path.drop offset
    · obtain ⟨rest,split⟩ := along
      obtain ⟨after,size⟩ := drop_stem split inside
      obtain ⟨more,run,last,onward,covers⟩ := branch budget (offset + stem.length) _ (holds_below holds) fits.below
        (by omega) (by omega) checked'
      simp only [← split,List.prefix_append,if_true]
      refine ⟨more,by rw [digest]; exact run,last,grows.trans onward,fun view has => ?_⟩
      rw [after] at covers
      rw [digest,BitTree.clips_below]
      refine .extension (has.nodes _ _ (onward.nodes _ _ found)) fit none (fun clips _ => ?_) fun tail same => ?_
      · obtain ⟨shared,bit,tail,rfl,off⟩ := clips
        rw [List.append_assoc,List.append_cancel_left_eq,List.singleton_append,List.cons.injEq] at off
        cases bit <;> cases off.1
      · rw [List.append_cancel_left_eq] at same
        rw [← same]
        exact covers view has
    · simp only [if_neg along]
      refine ⟨_,rfl,by rw [digest]; exact checked',by rw [digest]; exact grows,fun view has => ?_⟩
      rw [digest] at has ⊢
      rw [BitTree.clips_off along]
      refine .extension (has.nodes _ _ found) fit none (fun clips need => ?_) fun rest same => ?_
      · obtain ⟨shared,bit,tail,rfl,off⟩ := clips
        rw [List.dropLast_concat,off,← Bool.not_eq_true,List.isPrefixOf_iff_prefix] at need
        exact absurd (List.prefix_append _ _) need
      · exact absurd ⟨rest,same.symm⟩ along
end Neutrino.StateTrie
