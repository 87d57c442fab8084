import Neutrino.Sync.Download
import Neutrino.Trie.Proof

-- The objects of a state root: each subtree's top node, and each value.

namespace Neutrino.StateSync
open Checks Bits Patricia StateTrie
open Hasher (top)
variable {β : Type} [Alphabet β] [DecidableEq β] {hasher : Hasher β}

def Genuine (hasher : Hasher β) (whole : Option (BitTree (List Byte))) : (kind : StateItemKind) → List (Content β kind) → Prop
  | .node,text => ∃ tree ∈ whole, ∃ sub ∈ tree.subtrees, text = (hasher.top sub).encode
  | .value,bytes => ∃ tree ∈ whole, ∃ suffix, .leaf suffix bytes ∈ tree.subtrees

-- An object that some content of the tree is the content of.
def Named (hasher : Hasher β) (whole : Option (BitTree (List Byte))) (object : StateItemKind × Hash β) : Prop :=
  ∃ content, Genuine hasher whole object.1 content ∧ hashContent hasher object.1 content = object.2

def children : Node β → List (StateItemKind × Hash β)
  | .leaf _ valueHash => [(.value,valueHash)]
  | .branch left right => [(.node,left),(.node,right)]
  | .extension _ child => [(.node,child)]

theorem hashContent_injective (injective : hasher.Injective) (kind : StateItemKind) : Function.Injective (hashContent hasher kind) := by
  cases kind
  · exact injective.node
  · exact injective.value

def nodeCount : BitTree (List Byte) → Nat
  | .leaf _ _ => 1
  | .fork stem left right => nodeCount left + nodeCount right + (if stem = [] then 1 else 2)

section
variable (injective : hasher.Injective)
include injective

theorem nodeCount_root (same : hasher.root one = hasher.root two) : nodeCount one = nodeCount two := by
  have fork_case {left right left' right' : BitTree (List Byte)}
      (onLeft : ∀ two, hasher.root left = hasher.root two → nodeCount left = nodeCount two)
      (onRight : ∀ two, hasher.root right = hasher.root two → nodeCount right = nodeCount two)
      (same : hasher.root (.fork [] left right) = hasher.root (.fork [] left' right')) :
      nodeCount (.fork [] left right) = nodeCount (.fork [] left' right') := by
    have tops := (digest_inj injective).mp ((root_top hasher _).symm.trans (same.trans (root_top hasher _)))
    simp only [top,if_true,Node.branch.injEq] at tops
    simp only [nodeCount,onLeft _ tops.1,onRight _ tops.2]
  induction one generalizing two with
  | leaf suffix value =>
    rw [root_top,root_eq_digest injective] at same
    cases two with
    | leaf => rfl
    | fork stem left right =>
      simp only [top,Hasher.leaf] at same
      split at same <;> cases same
  | fork stem left right onLeft onRight =>
    by_cases none : stem = []
    · subst none
      have tops := same
      rw [root_top,root_eq_digest injective,top,if_pos rfl] at tops
      obtain ⟨left',right',rfl,_,_⟩ := top_branch tops
      exact fork_case (fun _ => onLeft) (fun _ => onRight) same
    · have tops := same
      rw [root_top,root_eq_digest injective,top,if_neg none] at tops
      obtain ⟨stem',left',right',rfl,some,_,below⟩ := top_extension tops
      have inner := fork_case (fun _ => onLeft) (fun _ => onRight) below
      simp only [nodeCount,if_true,if_neg none,if_neg some] at inner ⊢
      omega

theorem child_below (child : object ∈ children (hasher.top sub)) : object ≠ (.node,hasher.root sub) := by
  rintro rfl
  cases sub with
  | leaf suffix value => simp [top,Hasher.leaf,children] at child
  | fork stem left right =>
    by_cases none : stem = []
    · subst none
      simp only [top,if_true,children,List.mem_cons,Prod.mk.injEq,true_and,List.not_mem_nil,or_false] at child
      obtain same | same := child
      all_goals
        have counts := nodeCount_root injective same
        simp only [nodeCount,if_true] at counts
        omega
    · simp only [top,if_neg none,children,List.mem_cons,Prod.mk.injEq,true_and,List.not_mem_nil,or_false] at child
      have counts := nodeCount_root injective child
      simp only [nodeCount,if_true,if_neg none] at counts
      omega
end

theorem fits_subtree (fits : Fits offset tree) (inside : sub ∈ tree.subtrees) : ∃ deeper, Fits deeper sub := by
  induction tree generalizing offset with
  | leaf suffix value =>
    simp only [BitTree.subtrees,List.mem_singleton] at inside
    exact ⟨offset,inside ▸ fits⟩
  | fork stem left right onLeft onRight =>
    simp only [BitTree.subtrees,List.mem_cons,List.mem_append] at inside
    obtain rfl | rfl | deep | deep := inside
    · exact ⟨offset,fits⟩
    · exact ⟨_,fits.below⟩
    · exact onLeft (fits.side false) deep
    · exact onRight (fits.side true) deep

theorem top_packed (fits : Fits offset sub) : (hasher.top sub).Packed := by
  cases sub with
  | leaf suffix value =>
    have short := fits suffix value (BitTree.get_leaf.mpr ⟨rfl,rfl⟩)
    exact ⟨suffix,by omega,rfl⟩
  | fork stem left right =>
    have short := fits.short_stem
    by_cases none : stem = []
    · rw [top,if_pos none]
      trivial
    · rw [top,if_neg none]
      exact ⟨stem,by omega,rfl⟩

theorem child_named (inside : sub ∈ tree.subtrees) (child : object ∈ children (hasher.top sub)) : Named hasher (some tree) object := by
  have named {below : BitTree (List Byte)} (deep : below ∈ tree.subtrees) : Named hasher (some tree) (.node,hasher.root below) :=
    ⟨(hasher.top below).encode,⟨tree,rfl,below,deep,rfl⟩,(root_top hasher below).symm⟩
  cases sub with
  | leaf suffix value =>
    simp only [top,Hasher.leaf,children,List.mem_singleton] at child
    exact child ▸ ⟨value,⟨tree,rfl,suffix,inside⟩,rfl⟩
  | fork stem left right =>
    obtain ⟨onFork,onLeft,onRight⟩ := BitTree.subtrees_below inside
    by_cases none : stem = []
    · simp only [top,if_pos none,children,List.mem_cons,List.not_mem_nil,or_false] at child
      obtain rfl | rfl := child
      · exact named onLeft
      · exact named onRight
    · simp only [top,if_neg none,children,List.mem_cons,List.not_mem_nil,or_false] at child
      exact child ▸ named onFork

theorem genuine_node (injective : hasher.Injective) (fits : AllFit map) (genuine : Genuine hasher (canonicalTree map) .node text) :
    ∃ node, Node.decode text = .ok node ∧ text = node.encode ∧ ∀ object ∈ children node,
      Named hasher (canonicalTree map) object ∧ object ≠ (.node,hasher.hashNode text) := by
  obtain ⟨tree,whole,sub,inside,rfl⟩ := genuine
  obtain ⟨deeper,fit⟩ := fits_subtree (fits_tree fits whole) inside
  refine ⟨hasher.top sub,Node.decode_encode (top_packed fit),rfl,fun object child => ⟨?_,?_⟩⟩
  · have member : canonicalTree map = some tree := whole
    rw [member]
    exact child_named inside child
  · have other := child_below injective child
    rwa [root_top] at other

def discoverAll : List (StateItemKind × Hash β) → Download β → Except SyncBackendError (Download β)
  | [],download => .ok download
  | object::rest,download => do
    let download ← download.discover object.1 object.2
    discoverAll rest download

theorem discoverChildren_decoded {download : Download β} (decoded : Node.decode text = .ok node) :
    download.discoverChildren text = discoverAll (children node) download := by
  have single {kind : StateItemKind} {hash : Hash β} : discoverAll [(kind,hash)] download = download.discover kind hash := by
    simp only [discoverAll]
    cases download.discover kind hash <;> rfl
  rw [Download.discoverChildren,decoded,Except.mapError,ok_bind]
  cases node with
  | leaf path valueHash => exact single.symm
  | extension path child => exact single.symm
  | branch left right =>
    simp only [children,discoverAll]
    cases download.discover .node left with
    | error reason => rfl
    | ok middle =>
      simp only [ok_bind]
      cases middle.discover .node right <;> rfl

def objectsWithin : (kind : StateItemKind) → List (Content β kind) → List (StateItemKind × Hash β)
  | .node,text =>
    match Node.decode text with
    | .ok node => children node
    | .error _ => []
  | .value,_ => []

theorem objectsWithin_node {text : List β} (decoded : Node.decode text = .ok node) : objectsWithin .node text = children node := by
  simp only [objectsWithin,decoded]

theorem discoverWithin_ok {kind : StateItemKind} {content : List (Content β kind)}
    (discovered : discoverWithin kind content download = .ok found) : discoverAll (objectsWithin kind content) download = .ok found := by
  cases kind with
  | value => exact discovered
  | node =>
    have text := discovered
    simp only [discoverWithin,Download.discoverChildren,bind_ok,mapError_ok] at text
    obtain ⟨node,decoded,_⟩ := text
    rwa [objectsWithin_node decoded,← discoverChildren_decoded decoded]

theorem genuine_within (injective : hasher.Injective) {map : StateMap} (fits : AllFit map)
    (genuine : Genuine hasher (canonicalTree map) kind content) :
    (∀ download, discoverWithin kind content download = discoverAll (objectsWithin kind content) download) ∧
      ∀ object ∈ objectsWithin kind content, Named hasher (canonicalTree map) object ∧ object ≠ (kind,hashContent hasher kind content) := by
  cases kind with
  | value => exact ⟨fun _ => rfl,by simp [objectsWithin]⟩
  | node =>
    obtain ⟨node,decoded,_,known⟩ := genuine_node injective fits genuine
    rw [objectsWithin_node decoded]
    exact ⟨fun download => discoverChildren_decoded decoded,known⟩
end Neutrino.StateSync
