import Neutrino.Proving.History

-- Openings of the history tree (consensus-types, history.rs): frontier, appended and
-- advanced paths agree with the full padded tree.
namespace Neutrino.Proving
open Checks Consensus Chain
open List (map_cons length_cons length_append length_singleton zipIdx_cons foldl_cons)
open List (range' range_eq_range')
open Neutrino.Runtime (HistoryPath)

section
variable {Hash : Type} [DecidableEq Hash] (tree : HistoryTree Hash)

def pairUp (level : Nat) : List Hash → List Hash
  | [] => []
  | [last] => [tree.nodeHash level last (tree.empty level)]
  | left::right::rest => tree.nodeHash level left right::pairUp level rest

def openSiblings : List Nat → List Hash → Nat → List Hash
  | [],_,_ => []
  | level::levels,nodes,position =>
    (nodes[position ^^^ 1]?).getD (tree.empty level)::openSiblings levels (pairUp tree level nodes) (position / 2)

def buildPath (leaves : List Hash) (index : Nat) : Option (HistoryPath Hash) :=
  if leaves.length ≤ index ∨ 2^64 ≤ leaves.length then none
  else some ⟨index,leaves.length, openSiblings tree (List.range historyDepth) (leaves.map fun leaf => tree.leafHash (some leaf)) index⟩

namespace HistoryFrontier

def appendInPlace (frontier : HistoryFrontier Hash) (leaf : Hash) : Option Hash × HistoryFrontier Hash :=
  match checkedAdd frontier.count 1 with
  | none => (none,frontier)
  | some next =>
    if frontier.wellShaped then
      let grown := frontier.grow tree next leaf
      (grown.root tree,grown)
    else (none,frontier)

-- The new leaf's siblings: a peak where the count has a bit, else an empty subtree.
def insertionSiblings (count : Nat) : List Nat → List Hash → Option (List Hash)
  | [],_ => some []
  | level::levels,peaks =>
    if count.testBit level then
      match peaks with
      | [] => none
      | peak::rest => (insertionSiblings count levels rest).map (peak::·)
    else (insertionSiblings count levels peaks).map (tree.empty level::·)

def appendPath (frontier : HistoryFrontier Hash) (leaf : Hash) : Option (HistoryPath Hash) := do
  let count ← checkedAdd frontier.count 1
  if frontier.wellShaped then
    let siblings ← insertionSiblings tree frontier.count (List.range historyDepth) frontier.peaks
    let path : HistoryPath Hash := ⟨frontier.count,count,siblings⟩
    let (root,_) ← frontier.append tree leaf
    if verifyPath tree path leaf root then some path else none
  else none
end HistoryFrontier

def advancePath (path : HistoryPath Hash) (leaf : Hash) (frontier : HistoryFrontier Hash) (appended : Hash) :
    Option Hash × HistoryPath Hash :=
  match frontier.root tree,frontier.appendPath tree appended,frontier.append tree appended with
  | some root,some insertion,some (next,_) =>
    if path.count = frontier.count ∧ verifyPath tree path leaf root = true then
      let changed := (path.index ^^^ frontier.count).log2
      let sibling := ascend tree frontier.count (insertion.siblings.take changed) appended
      let grown : HistoryPath Hash := ⟨path.index,insertion.count,path.siblings.set changed sibling⟩
      if verifyPath tree grown leaf next then (some next,grown) else (none,path)
    else (none,path)
  | _,_,_ => (none,path)
end
section
variable {Hash : Type} (tree : HistoryTree Hash)

def paddedNode (leaves : List Hash) : Nat → Nat → Hash
  | 0,position => tree.leafHash leaves[position]?
  | level+1,position => tree.nodeHash level (paddedNode leaves level (2 * position)) (paddedNode leaves level (2 * position + 1))

def paddedRoot (leaves : List Hash) : Hash := tree.countedRoot leaves.length (paddedNode tree leaves historyDepth 0)
def paddedSibling (leaves : List Hash) (index level : Nat) : Hash := paddedNode tree leaves level ((index / 2^level) ^^^ 1)

structure HistoryTree.Separated (tree : HistoryTree Hash) : Prop extends tree.Injective where
  leaf : Function.Injective tree.leafHash
  root : ∀ count count' node node', tree.countedRoot count node = tree.countedRoot count' node' → count = count' ∧ node = node'

theorem level_up (position level : Nat) : position / 2^(level + 1) = position / 2^level / 2 := by
  rw [Nat.pow_succ,Nat.div_div_eq_div_mul]

theorem test_bit (position level : Nat) : position.testBit level = decide (position / 2^level % 2 = 1) := Nat.testBit_eq_decide_div_mod_eq

theorem sibling_parts (position : Nat) : (position ^^^ 1) / 2 = position / 2 ∧ (position ^^^ 1) % 2 = (position + 1) % 2 :=
  ⟨by simpa using Nat.xor_div_two_pow (a := position) (b := 1) (n := 1),Nat.xor_mod_two_eq⟩

variable {position : Nat}

theorem sibling_even (even : position % 2 = 0) : position ^^^ 1 = position + 1 := by
  have parts := sibling_parts position
  omega

theorem sibling_odd (odd : position % 2 = 1) : position ^^^ 1 = position - 1 := by
  have parts := sibling_parts position
  omega

variable {tree} {level : Nat}

theorem padded_congr (same : ∀ index, index / 2^level = position → leaves[index]? = others[index]?) :
    paddedNode tree leaves level position = paddedNode tree others level position := by
  induction level generalizing position with
  | zero => rw [paddedNode,paddedNode,same position (by simp)]
  | succ level ih =>
    rw [paddedNode,paddedNode,ih fun index below => same index ?_,ih fun index below => same index ?_]
    · rw [level_up,below]
      omega
    · rw [level_up,below]
      omega

theorem padded_nil (level position : Nat) : paddedNode tree ([] : List Hash) level position = tree.empty level := by
  induction level generalizing position with
  | zero => rfl
  | succ level ih => rw [paddedNode,ih,ih,HistoryTree.empty]

theorem padded_beyond (beyond : leaves.length / 2^level < position) : paddedNode tree leaves level position = tree.empty level := by
  rw [← padded_nil level position]
  refine padded_congr fun index below => ?_
  have past : leaves.length ≤ index := by
    by_contra inside
    have less := Nat.div_le_div_right (c := 2^level) (Nat.le_of_not_le inside)
    omega
  simp [past]

theorem padded_append (leaf : Hash) (apart : leaves.length / 2^level ≠ position) :
    paddedNode tree (leaves ++ [leaf]) level position = paddedNode tree leaves level position := by
  refine padded_congr fun index below => ?_
  have other : index ≠ leaves.length := fun same => apart (same ▸ below)
  rcases Nat.lt_or_gt_of_ne other with inside | past
  · rw [List.getElem?_append_left inside]
  · rw [List.getElem?_eq_none (by simp; omega),List.getElem?_eq_none (by omega)]

theorem padded_up (leaves : List Hash) (index level : Nat) :
    paddedNode tree leaves (level + 1) (index / 2^(level + 1)) = if index.testBit level then
      tree.nodeHash level (paddedSibling tree leaves index level) (paddedNode tree leaves level (index / 2^level))
    else tree.nodeHash level (paddedNode tree leaves level (index / 2^level)) (paddedSibling tree leaves index level) := by
  rw [paddedNode,level_up,test_bit,paddedSibling]
  generalize index / 2^level = position
  by_cases odd : position % 2 = 1
  · rw [if_pos (decide_eq_true odd),sibling_odd odd]
    congr <;> omega
  · rw [if_neg (by simpa using odd),sibling_even (by omega)]
    congr <;> omega
end
section
variable {Hash : Type} [DecidableEq Hash] {leaves : List Hash}

theorem pair_up_get (level : Nat) (nodes : List Hash) (position : Nat) :
    (pairUp tree level nodes)[position]? = nodes[2 * position]?.map fun left =>
      tree.nodeHash level left (nodes[2 * position + 1]?.getD (tree.empty level)) := by
  induction nodes using pairUp.induct generalizing position with
  | case1 => rfl
  | case2 last =>
    cases position with
    | zero => rfl
    | succ position => simp [pairUp,Nat.mul_add]
  | case3 left right rest ih =>
    cases position with
    | zero => rfl
    | succ position => simpa [pairUp,Nat.mul_add] using ih position

theorem open_siblings (index level steps : Nat)
    (whole : ∀ position, nodes[position]?.getD (tree.empty level) = paddedNode tree leaves level position) :
    openSiblings tree (range' level steps) nodes (index / 2^level) =
      (range' level steps).map (paddedSibling tree leaves index) := by
  induction steps generalizing level nodes with
  | zero => rfl
  | succ steps ih =>
    rw [List.range'_succ,openSiblings,map_cons,whole,← level_up]
    refine congrArg _ (ih (level + 1) fun position => ?_)
    rw [pair_up_get,paddedNode,← whole,← whole]
    cases found : nodes[2 * position]? with
    | some left => rfl
    | none =>
      have past : nodes[2 * position + 1]? = none := by
        rw [List.getElem?_eq_none_iff] at found ⊢
        omega
      rw [past]
      rfl

variable {index : Nat}

theorem build_path (tree : HistoryTree Hash) (short : leaves.length < 2^64) (inside : index < leaves.length) :
    buildPath tree leaves index = some ⟨index,leaves.length,(List.range historyDepth).map (paddedSibling tree leaves index)⟩ := by
  have whole (position : Nat) : (leaves.map fun leaf => tree.leafHash (some leaf))[position]?.getD (tree.empty 0) =
      paddedNode tree leaves 0 position := by
    rw [paddedNode,List.getElem?_map,HistoryTree.empty]
    cases leaves[position]? <;> rfl
  have siblings := open_siblings index 0 historyDepth whole
  rw [Nat.pow_zero,Nat.div_one,← range_eq_range'] at siblings
  rw [buildPath,if_neg (by omega),siblings]

theorem ascend_levels (tree : HistoryTree Hash) (leaves : List Hash) (index level steps : Nat) :
    (((range' level steps).map (paddedSibling tree leaves index)).zipIdx level).foldl (fun node sibling =>
      if index.testBit sibling.2 then tree.nodeHash sibling.2 sibling.1 node else tree.nodeHash sibling.2 node sibling.1)
      (paddedNode tree leaves level (index / 2^level)) = paddedNode tree leaves (level + steps) (index / 2^(level + steps)) := by
  induction steps generalizing level with
  | zero => rfl
  | succ steps ih =>
    rw [List.range'_succ,map_cons,zipIdx_cons,foldl_cons,← padded_up,ih (level + 1),Nat.add_right_comm,Nat.add_assoc]

theorem ascend_padded (tree : HistoryTree Hash) {leaf : Hash} (occupied : leaves[index]? = some leaf) (steps : Nat) :
    ascend tree index ((List.range steps).map (paddedSibling tree leaves index)) leaf = paddedNode tree leaves steps (index / 2^steps) := by
  have climbed := ascend_levels tree leaves index 0 steps
  rw [Nat.pow_zero,Nat.div_one,paddedNode,occupied,Nat.zero_add,← range_eq_range'] at climbed
  exact climbed

theorem ascend_unique (injective : tree.Injective) (ends : (siblings.zipIdx level).foldl (fun node sibling =>
      if index.testBit sibling.2 then tree.nodeHash sibling.2 sibling.1 node else tree.nodeHash sibling.2 node sibling.1) node =
      paddedNode tree leaves (level + siblings.length) (index / 2^(level + siblings.length))) :
    node = paddedNode tree leaves level (index / 2^level) ∧
      siblings = (range' level siblings.length).map (paddedSibling tree leaves index) := by
  induction siblings generalizing level node with
  | nil => exact ⟨ends,rfl⟩
  | cons sibling rest ih =>
    rw [zipIdx_cons,foldl_cons,length_cons,← Nat.add_assoc,Nat.add_right_comm] at ends
    obtain ⟨above,others⟩ := ih ends
    rw [padded_up] at above
    rw [length_cons,List.range'_succ,map_cons,← others]
    split at above
    · obtain ⟨rfl,rfl⟩ := injective.node _ _ _ _ _ above
      exact ⟨rfl,rfl⟩
    · obtain ⟨rfl,rfl⟩ := injective.node _ _ _ _ _ above
      exact ⟨rfl,rfl⟩

theorem index_zero (short : index < 2^64) : index / 2^historyDepth = 0 := Nat.div_eq_of_lt short

theorem verify_path (separated : tree.Separated) (short : leaves.length < 2^64) (path : HistoryPath Hash) (leaf : Hash) :
    verifyPath tree path leaf (paddedRoot tree leaves) = true ↔
      leaves[path.index]? = some leaf ∧ buildPath tree leaves path.index = some path := by
  obtain ⟨index,count,siblings⟩ := path
  rw [verifyPath,decide_eq_true_eq]
  constructor
  · rintro ⟨inside,deep,rooted⟩
    simp only at inside deep rooted
    obtain ⟨rfl,same⟩ := separated.root _ _ _ _ rooted
    have ends : ascend tree index siblings leaf = paddedNode tree leaves (0 + siblings.length) (index / 2^(0 + siblings.length)) := by
      rw [deep,Nat.zero_add,index_zero (by omega)]
      exact same
    obtain ⟨bottom,others⟩ := ascend_unique separated.toInjective ends
    rw [deep,← range_eq_range'] at others
    rw [Nat.pow_zero,Nat.div_one,paddedNode] at bottom
    exact ⟨(separated.leaf bottom).symm,by rw [build_path tree short inside,others]⟩
  · rintro ⟨occupied,built⟩
    have inside : index < leaves.length := (List.getElem?_eq_some_iff.mp occupied).1
    simp only at built
    rw [build_path tree short inside] at built
    cases built
    refine ⟨inside,by simp,?_⟩
    have climbed := ascend_padded tree occupied historyDepth
    rw [index_zero (Nat.lt_trans inside short)] at climbed
    exact congrArg (tree.countedRoot leaves.length) climbed
end
section
variable {Hash : Type} [DecidableEq Hash] {leaves : List Hash}
open HistoryFrontier

-- The complete subtree left of the next position wherever the count has a bit.
def peaksOf (tree : HistoryTree Hash) (leaves : List Hash) (level : Nat) : Hash :=
  paddedNode tree leaves level (leaves.length / 2^level - 1)

def frontierOf (tree : HistoryTree Hash) (leaves : List Hash) : HistoryFrontier Hash :=
  ⟨leaves.length,(setLevels leaves.length (List.range historyDepth)).map (peaksOf tree leaves)⟩

theorem set_levels_cons (count level steps : Nat) : setLevels count (range' level (steps + 1)) =
    if count.testBit level then level::setLevels count (range' (level + 1) steps) else setLevels count (range' (level + 1) steps) := by
  rw [List.range'_succ,setLevels,List.filter_cons]
  rfl

theorem odd_peak (leaves : List Hash) (bit : index.testBit level = true) :
    paddedSibling tree leaves index level = paddedNode tree leaves level (index / 2^level - 1) := by
  rw [test_bit,decide_eq_true_eq] at bit
  rw [paddedSibling,sibling_odd bit]

theorem even_empty (clear : ¬leaves.length.testBit level = true) : paddedSibling tree leaves leaves.length level = tree.empty level := by
  rw [test_bit,decide_eq_true_eq] at clear
  rw [paddedSibling,sibling_even (by omega)]
  exact padded_beyond (by omega)

theorem climb_padded (tree : HistoryTree Hash) (leaves : List Hash) (level steps : Nat) :
    climb tree leaves.length (range' level steps) ((setLevels leaves.length (range' level steps)).map (peaksOf tree leaves))
      (paddedNode tree leaves level (leaves.length / 2^level)) = some (paddedNode tree leaves (level + steps) (leaves.length / 2^(level + steps))) := by
  induction steps generalizing level with
  | zero => rfl
  | succ steps ih =>
    have next := ih (level + 1)
    rw [padded_up,Nat.add_right_comm,Nat.add_assoc] at next
    rw [set_levels_cons,List.range'_succ]
    unfold climb
    split at next
    next bit =>
      simp only [bit,if_true,map_cons]
      rw [peaksOf,← odd_peak leaves bit]
      exact next
    next clear =>
      simp only [clear,Bool.false_eq_true,if_false]
      rw [← even_empty clear]
      exact next

theorem frontier_root (tree : HistoryTree Hash) (short : leaves.length < 2^64) : (frontierOf tree leaves).root tree = some (paddedRoot tree leaves) := by
  have climbed := climb_padded tree leaves 0 historyDepth
  rw [Nat.zero_add,Nat.pow_zero,Nat.div_one,index_zero short,← range_eq_range'] at climbed
  have bottom : paddedNode tree leaves 0 leaves.length = tree.empty 0 := by simp [paddedNode,HistoryTree.empty]
  rw [bottom] at climbed
  simp only [root,wellShaped,frontierOf,List.length_map,beq_self_eq_true,if_true,climbed]
  rfl

theorem insertion_siblings (tree : HistoryTree Hash) (leaves : List Hash) (leaf : Hash) (level steps : Nat) :
    insertionSiblings tree leaves.length (range' level steps) ((setLevels leaves.length (range' level steps)).map (peaksOf tree leaves)) =
      some ((range' level steps).map (paddedSibling tree (leaves ++ [leaf]) leaves.length)) := by
  induction steps generalizing level with
  | zero => rfl
  | succ steps ih =>
    rw [set_levels_cons,List.range'_succ,map_cons]
    unfold insertionSiblings
    by_cases bit : leaves.length.testBit level = true
    · have odd := bit
      rw [test_bit,decide_eq_true_eq] at odd
      rw [odd_peak _ bit,padded_append leaf (by omega),← peaksOf]
      simp only [bit,if_true,map_cons,ih,Option.map_some]
    · have even := bit
      rw [test_bit,decide_eq_true_eq] at even
      have kept : paddedSibling tree (leaves ++ [leaf]) leaves.length level = tree.empty level := by
        rw [← even_empty bit,paddedSibling,paddedSibling,padded_append]
        rw [sibling_even (by omega)]
        omega
      simp only [bit,Bool.false_eq_true,if_false,ih,kept,Option.map_some]

theorem take_while_range (holds : Nat → Bool) (level steps : Nat) : ∃ run ≤ steps,
    ((range' level steps).takeWhile holds).length = run ∧ (∀ offset < run, holds (level + offset) = true) ∧
      (run < steps → holds (level + run) = false) := by
  induction steps generalizing level with
  | zero => exact ⟨0,Nat.le_refl _,rfl,by simp,by simp⟩
  | succ steps ih =>
    rw [List.range'_succ]
    cases first : holds level with
    | false => exact ⟨0,Nat.zero_le _,by simp [first],by simp,fun _ => first⟩
    | true =>
      obtain ⟨run,few,length,ones,clear⟩ := ih (level + 1)
      refine ⟨run + 1,by omega,by simp [first,length],fun offset less => ?_,fun less => ?_⟩
      · cases offset with
        | zero => exact first
        | succ offset =>
          have later := ones offset (by omega)
          rwa [Nat.add_right_comm] at later
      · have later := clear (by omega)
        rwa [Nat.add_right_comm] at later

variable {count run : Nat}

theorem carry_ones (ones : ∀ level < run, count / 2^level % 2 = 1) : ∀ level ≤ run, (count + 1) / 2^level = count / 2^level + 1 := by
  intro level
  induction level with
  | zero => simp
  | succ level ih =>
    intro less
    have below := ih (by omega)
    have odd := ones level (by omega)
    rw [level_up,level_up,below]
    omega

theorem carry_above (ones : ∀ level < run, count / 2^level % 2 = 1) (clear : count / 2^run % 2 = 0) :
    ∀ level, run < level → (count + 1) / 2^level = count / 2^level := by
  intro level above
  induction level, above using Nat.le_induction with
  | base =>
    rw [level_up,level_up,carry_ones ones run (Nat.le_refl _)]
    omega
  | succ level _ ih => rw [level_up,level_up,ih]

theorem trailing_ones (short : count + 1 < 2^64) : trailingOnes count < historyDepth ∧
    (∀ level < trailingOnes count, count / 2^level % 2 = 1) ∧ count / 2^(trailingOnes count) % 2 = 0 := by
  obtain ⟨run,few,length,ones,clear⟩ := take_while_range (count.testBit ·) 0 historyDepth
  rw [← range_eq_range'] at length
  obtain rfl : trailingOnes count = run := length
  have set : ∀ level < trailingOnes count, count / 2^level % 2 = 1 := by
    intro level less
    have bit := ones level less
    rwa [Nat.zero_add,test_bit,decide_eq_true_eq] at bit
  have deep : trailingOnes count < historyDepth := by
    by_contra all
    have carried := carry_ones set historyDepth (by omega)
    rw [index_zero short] at carried
    exact Nat.succ_ne_zero _ carried.symm
  have bit := clear deep
  rw [Nat.zero_add,test_bit,decide_eq_false_iff_not] at bit
  exact ⟨deep,set,by omega⟩

theorem set_levels_split (less : run < historyDepth) : setLevels count (List.range historyDepth) =
    setLevels count (List.range run) ++ setLevels count [run] ++ setLevels count (range' (run + 1) (historyDepth - run - 1)) := by
  have whole : List.range historyDepth = List.range run ++ [run] ++ range' (run + 1) (historyDepth - run - 1) := by
    have joined := List.range'_append_1 (s := 0) (m := run + 1) (n := historyDepth - run - 1)
    rw [Nat.zero_add,show run + 1 + (historyDepth - run - 1) = historyDepth by omega] at joined
    rw [← List.range_succ,range_eq_range',range_eq_range',joined]
  rw [whole,setLevels,List.filter_append,List.filter_append]
  rfl

theorem levels_before (short : count + 1 < 2^64) : setLevels count (List.range historyDepth) =
    List.range (trailingOnes count) ++ setLevels count (range' (trailingOnes count + 1) (historyDepth - trailingOnes count - 1)) := by
  obtain ⟨deep,ones,clear⟩ := trailing_ones short
  have low : setLevels count (List.range (trailingOnes count)) = List.range (trailingOnes count) := by
    refine List.filter_eq_self.mpr fun level member => ?_
    rw [test_bit,decide_eq_true_eq]
    exact ones level (List.mem_range.mp member)
  have own : setLevels count [trailingOnes count] = [] := by simp [setLevels,test_bit,clear]
  rw [set_levels_split deep,low,own,List.append_nil]

theorem levels_after (short : count + 1 < 2^64) : setLevels (count + 1) (List.range historyDepth) =
    trailingOnes count::setLevels count (range' (trailingOnes count + 1) (historyDepth - trailingOnes count - 1)) := by
  obtain ⟨deep,ones,clear⟩ := trailing_ones short
  have low : setLevels (count + 1) (List.range (trailingOnes count)) = [] := by
    refine List.filter_eq_nil_iff.mpr fun level member => ?_
    have less := List.mem_range.mp member
    have odd := ones level less
    rw [test_bit,decide_eq_true_eq,carry_ones ones level (by omega)]
    omega
  have own : setLevels (count + 1) [trailingOnes count] = [trailingOnes count] := by
    have carried := carry_ones ones (trailingOnes count) (Nat.le_refl _)
    have odd : (count / 2^(trailingOnes count) + 1) % 2 = 1 := by omega
    simp [setLevels,test_bit,carried,odd]
  have high : setLevels (count + 1) (range' (trailingOnes count + 1) (historyDepth - trailingOnes count - 1)) =
      setLevels count (range' (trailingOnes count + 1) (historyDepth - trailingOnes count - 1)) := by
    refine List.filter_congr fun level member => ?_
    rw [test_bit,test_bit,carry_above ones clear level (by have := List.mem_range'_1.mp member; omega)]
  rw [set_levels_split deep,low,own,high]
  rfl

theorem merge_peaks (tree : HistoryTree Hash) (leaf : Hash) (level steps : Nat) (within : level + steps ≤ run)
    (ones : ∀ level < run, leaves.length / 2^level % 2 = 1) :
    (((range' level steps).map (peaksOf tree leaves)).zipIdx level).foldl (fun node peak => tree.nodeHash peak.2 peak.1 node)
      (paddedNode tree (leaves ++ [leaf]) level (leaves.length / 2^level)) =
      paddedNode tree (leaves ++ [leaf]) (level + steps) (leaves.length / 2^(level + steps)) := by
  induction steps generalizing level with
  | zero => rfl
  | succ steps ih =>
    have odd := ones level (by omega)
    have bit : leaves.length.testBit level = true := by rw [test_bit,decide_eq_true_eq]; exact odd
    have left : paddedNode tree (leaves ++ [leaf]) level (leaves.length / 2^level - 1) = peaksOf tree leaves level :=
      padded_append leaf (by omega)
    have up := @padded_up _ tree (leaves ++ [leaf]) leaves.length level
    rw [if_pos bit,odd_peak _ bit,left] at up
    rw [List.range'_succ,map_cons,zipIdx_cons,foldl_cons,← up,ih (level + 1) (by omega),Nat.add_right_comm,Nat.add_assoc]

theorem append_frontier (leaf : Hash) (short : leaves.length + 1 < 2^64) :
    (frontierOf tree leaves).append tree leaf = some (paddedRoot tree (leaves ++ [leaf]),frontierOf tree (leaves ++ [leaf])) := by
  obtain ⟨deep,ones,clear⟩ := trailing_ones short
  have shaped : (frontierOf tree leaves).wellShaped = true := by simp [wellShaped,frontierOf]
  have counted : checkedAdd (frontierOf tree leaves).count 1 = some (leaves.length + 1) := checked_add_some.mpr ⟨rfl,by omega⟩
  have peaks : (frontierOf tree leaves).peaks = (range' 0 (trailingOnes leaves.length)).map (peaksOf tree leaves) ++
      (setLevels leaves.length (range' (trailingOnes leaves.length + 1) (historyDepth - trailingOnes leaves.length - 1))).map
        (peaksOf tree leaves) := by
    rw [frontierOf,levels_before short,List.map_append,range_eq_range']
  have merged := merge_peaks tree leaf 0 (trailingOnes leaves.length) (by omega) ones
  rw [Nat.zero_add,Nat.pow_zero,Nat.div_one] at merged
  have bottom : paddedNode tree (leaves ++ [leaf]) 0 leaves.length = tree.leafHash (some leaf) := by simp [paddedNode]
  rw [bottom] at merged
  have grown : frontierOf tree (leaves ++ [leaf]) = ⟨leaves.length + 1,
      paddedNode tree (leaves ++ [leaf]) (trailingOnes leaves.length) (leaves.length / 2^(trailingOnes leaves.length))::
      (setLevels leaves.length (range' (trailingOnes leaves.length + 1) (historyDepth - trailingOnes leaves.length - 1))).map
        (peaksOf tree leaves)⟩ := by
    rw [frontierOf,length_append,length_singleton,levels_after short,map_cons]
    congr 2
    · rw [peaksOf,length_append,length_singleton,carry_ones ones _ (Nat.le_refl _),Nat.add_sub_cancel]
    · refine List.map_congr_left fun level member => ?_
      obtain ⟨listed,bit⟩ := List.mem_filter.mp member
      have above : trailingOnes leaves.length < level := by
        have := List.mem_range'_1.mp listed
        omega
      rw [test_bit,decide_eq_true_eq] at bit
      rw [peaksOf,length_append,length_singleton,carry_above ones clear level above,padded_append leaf (by omega),peaksOf]
  have rooted := frontier_root tree (show (leaves ++ [leaf]).length < 2^64 by simpa using short)
  rw [grown] at rooted ⊢
  have length : ((range' 0 (trailingOnes leaves.length)).map (peaksOf tree leaves)).length = trailingOnes leaves.length := by simp
  simp only [append,grow,counted,shaped,if_true,peaks,Option.bind_eq_bind,Option.bind_some]
  rw [show (frontierOf tree leaves).count = leaves.length from rfl,List.take_left' length,List.drop_left' length,merged,rooted]
  rfl

theorem from_leaves_frontier (short : leaves.length < 2^64) : fromLeaves tree leaves = some (frontierOf tree leaves) := by
  induction leaves using List.reverseRecOn with
  | nil => simp [fromLeaves,frontierOf,initial,setLevels]
  | append_singleton leaves leaf ih =>
    rw [length_append,length_singleton] at short
    exact from_leaves_append (ih (by omega)) (append_frontier leaf short)

theorem append_path_frontier (separated : tree.Separated) (leaf : Hash) (short : leaves.length + 1 < 2^64) :
    (frontierOf tree leaves).appendPath tree leaf = buildPath tree (leaves ++ [leaf]) leaves.length := by
  have grown : (leaves ++ [leaf]).length < 2^64 := by simpa using short
  have built := build_path tree grown (show leaves.length < (leaves ++ [leaf]).length by simp)
  have siblings := insertion_siblings tree leaves leaf 0 historyDepth
  rw [← range_eq_range'] at siblings
  have shaped : (frontierOf tree leaves).wellShaped = true := by simp [wellShaped,frontierOf]
  have counted : checkedAdd (frontierOf tree leaves).count 1 = some (leaves.length + 1) := checked_add_some.mpr ⟨rfl,by omega⟩
  rw [length_append,length_singleton] at built
  have verified := (verify_path separated grown ⟨leaves.length,leaves.length + 1,_⟩ leaf).mpr ⟨by simp,built⟩
  simp only [appendPath,counted,shaped,if_true,append_frontier leaf short,Option.bind_eq_bind,Option.bind_some,built]
  rw [show (frontierOf tree leaves).count = leaves.length from rfl,
    show (frontierOf tree leaves).peaks = (setLevels leaves.length (List.range historyDepth)).map (peaksOf tree leaves) from rfl,siblings]
  simp only [Option.bind_some,verified,if_true]

theorem append_in_place (frontier : HistoryFrontier Hash) (leaf : Hash) :
    frontier.append tree leaf = (frontier.appendInPlace tree leaf).1.map (·,(frontier.appendInPlace tree leaf).2) ∧
    ((frontier.appendInPlace tree leaf).1 = none → (frontier.appendInPlace tree leaf).2 = frontier) := by
  unfold append appendInPlace grow
  cases counted : checkedAdd frontier.count 1 with
  | none => exact ⟨rfl,fun _ => rfl⟩
  | some next =>
    obtain ⟨rfl,small⟩ := checked_add_some.mp counted
    simp only [Option.bind_eq_bind,Option.bind_some]
    cases shaped : frontier.wellShaped with
    | false => exact ⟨rfl,fun _ => rfl⟩
    | true =>
      refine ⟨rfl,fun failed => ?_⟩
      simp only [if_true] at failed
      rw [wellShaped,beq_iff_eq] at shaped
      have peaks : (frontier.peaks.drop (trailingOnes frontier.count)).length + 1 =
          (setLevels (frontier.count + 1) (List.range historyDepth)).length := by
        rw [levels_after (by omega),length_cons,List.length_drop,shaped,levels_before (by omega),length_append,List.length_range]
        omega
      generalize List.foldl _ _ _ = merged at failed
      obtain ⟨top,climbed⟩ : ∃ top, climb tree (frontier.count + 1) (List.range historyDepth)
        (merged::frontier.peaks.drop (trailingOnes frontier.count)) (tree.empty 0) = some top := climb_some (length_cons.trans peaks)
      rw [root,wellShaped,length_cons,peaks,beq_self_eq_true,if_pos rfl,climbed] at failed
      cases failed
end
variable {Hash : Type} [DecidableEq Hash] {index : Nat}

theorem differing_level (less : index < count) (short : count < 2^64) :
    (index ^^^ count).log2 < historyDepth ∧ (index / 2^(index ^^^ count).log2) ^^^ 1 = count / 2^(index ^^^ count).log2 ∧
      index / 2^((index ^^^ count).log2 + 1) = count / 2^((index ^^^ count).log2 + 1) := by
  have apart : index ^^^ count ≠ 0 := fun same => by
    have := Nat.xor_eq_zero_iff.mp same
    omega
  generalize level : (index ^^^ count).log2 = changed
  have low : 2^changed ≤ index ^^^ count := level ▸ Nat.log2_self_le apart
  have high : index ^^^ count < 2^(changed + 1) := level ▸ Nat.lt_log2_self
  have one : (index ^^^ count) / 2^changed = 1 := by
    rw [Nat.pow_succ] at high
    exact Nat.div_eq_of_lt_le (by omega) (by omega)
  refine ⟨?_,?_,?_⟩
  · rw [← level]
    exact (Nat.log2_lt apart).mpr (Nat.xor_lt_two_pow (Nat.lt_trans less short) short)
  · rw [Nat.xor_div_two_pow] at one
    rw [← one,← Nat.xor_assoc,Nat.xor_self,Nat.zero_xor]
  · have blank := Nat.div_eq_of_lt high
    rw [Nat.xor_div_two_pow] at blank
    exact Nat.xor_eq_zero_iff.mp blank

theorem same_above (below : level ≤ higher) (same : one / 2^level = other / 2^level) : one / 2^higher = other / 2^higher := by
  induction higher, below using Nat.le_induction with
  | base => exact same
  | succ higher _ ih => rw [level_up,level_up,ih]

theorem sibling_append (leaf : Hash) (less : index < leaves.length) (short : leaves.length < 2^64)
    (other : level ≠ (index ^^^ leaves.length).log2) :
    paddedSibling tree (leaves ++ [leaf]) index level = paddedSibling tree leaves index level := by
  obtain ⟨-,differ,agree⟩ := differing_level less short
  refine padded_append leaf fun same => ?_
  rcases Nat.lt_or_gt_of_ne other with below | above
  · have joined : leaves.length / 2^(level + 1) = index / 2^(level + 1) := by
      rw [level_up,level_up,same]
      exact (sibling_parts _).1
    have equal := same_above below joined
    have parts := sibling_parts (index / 2^(index ^^^ leaves.length).log2)
    omega
  · have equal := same_above above agree
    have parts := sibling_parts (index / 2^level)
    omega

theorem advance_path (separated : tree.Separated) {leaf : Hash} (appended : Hash) (short : leaves.length + 1 < 2^64)
    (occupied : leaves[index]? = some leaf) (built : buildPath tree leaves index = some path) :
    ∃ grown, buildPath tree (leaves ++ [appended]) index = some grown ∧
      advancePath tree path leaf (frontierOf tree leaves) appended = (some (paddedRoot tree (leaves ++ [appended])),grown) := by
  have inside : index < leaves.length := (List.getElem?_eq_some_iff.mp occupied).1
  have fits : leaves.length < 2^64 := by omega
  have longer : (leaves ++ [appended]).length < 2^64 := by simpa using short
  obtain ⟨deep,differ,-⟩ := differing_level inside fits
  have target := build_path tree longer (show index < (leaves ++ [appended]).length by simp; omega)
  have insertion := build_path tree longer (show leaves.length < (leaves ++ [appended]).length by simp)
  have same := build_path tree fits inside
  rw [built] at same
  have count : path.count = leaves.length := by rw [Option.some.inj same]
  have verified := (verify_path separated fits path leaf).mpr ⟨by rw [Option.some.inj same]; exact occupied,
    by rw [Option.some.inj same]; exact build_path tree fits inside⟩
  have sibling : ascend tree leaves.length (((List.range historyDepth).map (paddedSibling tree (leaves ++ [appended]) leaves.length)).take
      (index ^^^ leaves.length).log2) appended = paddedSibling tree (leaves ++ [appended]) index (index ^^^ leaves.length).log2 := by
    rw [← List.map_take,List.take_range,Nat.min_eq_left (Nat.le_of_lt deep),ascend_padded tree (by simp),paddedSibling,differ]
  have siblings : ((List.range historyDepth).map (paddedSibling tree leaves index)).set (index ^^^ leaves.length).log2
      (paddedSibling tree (leaves ++ [appended]) index (index ^^^ leaves.length).log2) =
      (List.range historyDepth).map (paddedSibling tree (leaves ++ [appended]) index) := by
    refine List.ext_getElem (by simp) fun level first second => ?_
    rw [List.getElem_set]
    split
    next own => simp [← own]
    next other =>
      simp only [List.getElem_map,List.getElem_range]
      exact (sibling_append appended inside fits (Ne.symm other)).symm
  refine ⟨_,target,?_⟩
  have proven := (verify_path separated longer ⟨index,_,_⟩ leaf).mpr ⟨(List.getElem?_append_left inside).trans occupied,target⟩
  simp only [advancePath,frontier_root tree fits,append_path_frontier separated appended short,insertion,append_frontier appended short]
  rw [show (frontierOf tree leaves).count = leaves.length from rfl,if_pos ⟨count,verified⟩,Option.some.inj same,sibling,siblings,if_pos proven]

theorem advance_unchanged (path : HistoryPath Hash) (leaf : Hash) (frontier : HistoryFrontier Hash) (appended : Hash)
    (failed : (advancePath tree path leaf frontier appended).1 = none) : (advancePath tree path leaf frontier appended).2 = path := by
  revert failed
  unfold advancePath
  split
  · split
    · dsimp only
      split <;> simp
    · simp
  · simp

theorem openings (separated : tree.Separated) (short : leaves.length < 2^64) (index count : Nat) (leaf : Hash) :
    (∃ siblings, verifyPath tree ⟨index,count,siblings⟩ leaf (paddedRoot tree leaves) = true) ↔
      leaves.length = count ∧ leaves[index]? = some leaf := by
  constructor
  · rintro ⟨siblings,verified⟩
    obtain ⟨occupied,built⟩ := (verify_path separated short _ leaf).mp verified
    have inside : index < leaves.length := (List.getElem?_eq_some_iff.mp occupied).1
    simp only at built
    rw [build_path tree short inside] at built
    cases built
    exact ⟨rfl,occupied⟩
  · rintro ⟨rfl,occupied⟩
    exact ⟨_,(verify_path separated short ⟨index,_,_⟩ leaf).mpr ⟨occupied,build_path tree short (List.getElem?_eq_some_iff.mp occupied).1⟩⟩

-- Frontier and paths are those of the padded tree, and only its openings verify.
theorem history_tree_agrees (separated : tree.Separated) (leaves : List Hash) (short : leaves.length < 2^64) :
    (∃ frontier, HistoryFrontier.fromLeaves tree leaves = some frontier ∧ frontier.root tree = some (paddedRoot tree leaves) ∧
      historyRoot tree leaves = some (paddedRoot tree leaves) ∧ ∀ leaf, (leaves ++ [leaf]).length < 2^64 →
        (frontier.appendInPlace tree leaf).1 = some (paddedRoot tree (leaves ++ [leaf])) ∧
        HistoryFrontier.fromLeaves tree (leaves ++ [leaf]) = some (frontier.appendInPlace tree leaf).2 ∧
        (∃ path, frontier.appendPath tree leaf = some path ∧ buildPath tree (leaves ++ [leaf]) leaves.length = some path) ∧
        ∀ index opened, leaves[index]? = some opened → ∃ path grown, buildPath tree leaves index = some path ∧
          buildPath tree (leaves ++ [leaf]) index = some grown ∧
          advancePath tree path opened frontier leaf = (some (paddedRoot tree (leaves ++ [leaf])),grown)) ∧
    (∀ index count leaf, (∃ siblings, verifyPath tree ⟨index,count,siblings⟩ leaf (paddedRoot tree leaves) = true) ↔
      leaves.length = count ∧ leaves[index]? = some leaf) ∧ (∀ path leaf, verifyPath tree path leaf (paddedRoot tree leaves) = true ↔
      leaves[path.index]? = some leaf ∧ buildPath tree leaves path.index = some path) ∧
    (∀ (frontier : HistoryFrontier Hash) leaf, (frontier.appendInPlace tree leaf).1 = none →
      (frontier.appendInPlace tree leaf).2 = frontier) ∧
    ∀ path leaf (frontier : HistoryFrontier Hash) appended, (advancePath tree path leaf frontier appended).1 = none →
      (advancePath tree path leaf frontier appended).2 = path := by
  have built : HistoryFrontier.fromLeaves tree leaves = some (frontierOf tree leaves) := from_leaves_frontier short
  have rooted := frontier_root tree short
  refine ⟨⟨frontierOf tree leaves,built,rooted,by rw [historyRoot,built]; exact rooted,fun leaf longer => ?_⟩,
    openings separated short,verify_path separated short,fun frontier leaf => (append_in_place frontier leaf).2,advance_unchanged⟩
  have fits : leaves.length + 1 < 2^64 := by simpa using longer
  have appended : (frontierOf tree leaves).append tree leaf = _ := append_frontier leaf fits
  have grown := from_leaves_append built appended
  rw [(append_in_place _ leaf).1,Option.map_eq_some_iff] at appended
  obtain ⟨root,done,same⟩ := appended
  obtain ⟨rfl,written⟩ := Prod.mk.inj same
  have inserted := build_path tree longer (show leaves.length < (leaves ++ [leaf]).length by simp)
  refine ⟨done,written ▸ grown,⟨_,(append_path_frontier separated leaf fits).trans inserted,inserted⟩,fun index opened occupied => ?_⟩
  have present := build_path tree short (List.getElem?_eq_some_iff.mp occupied).1
  obtain ⟨later,target,advanced⟩ := advance_path separated leaf fits occupied present
  exact ⟨_,later,present,target,advanced⟩

inductive Digest where
  | absent
  | leaf (inner : Digest)
  | node (level : Nat) (left right : Digest)
  | counted (count : Nat) (root : Digest)
deriving DecidableEq

def digestTree : HistoryTree Digest where
  leafHash leaf := leaf.elim .absent .leaf
  nodeHash := .node
  countedRoot := .counted

theorem digests_separated : digestTree.Separated where
  node _ _ _ _ _ same := (Digest.node.inj same).2
  counted _ _ _ same := (Digest.counted.inj same).2
  leaf one other same := by
    cases one <;> cases other <;> first | rfl | cases same
    rfl
  root _ _ _ _ same := Digest.counted.inj same

theorem second_leaf_opens : ∃ leaves frontier, leaves = [.absent,.leaf .absent,.absent] ∧
    HistoryFrontier.fromLeaves digestTree leaves = some frontier ∧ frontier.root digestTree = some (paddedRoot digestTree leaves) ∧
    (frontier.appendInPlace digestTree .absent).1 = some (paddedRoot digestTree (leaves ++ [.absent])) ∧
    (∃ siblings, verifyPath digestTree ⟨1,3,siblings⟩ (.leaf .absent) (paddedRoot digestTree leaves) = true) ∧
    ∀ path, verifyPath digestTree path (.leaf .absent) (paddedRoot digestTree leaves) = true →
      buildPath digestTree leaves path.index = some path := by
  obtain ⟨⟨frontier,built,root,-,grows⟩,opens,unique,-⟩ :=
    history_tree_agrees digests_separated [.absent,.leaf .absent,.absent] (by decide)
  exact ⟨_,frontier,rfl,built,root,(grows .absent (by decide)).1,(opens 1 3 (.leaf .absent)).mpr ⟨rfl,rfl⟩,
    fun path opened => ((unique path _).mp opened).2⟩
end Neutrino.Proving
