import Mathlib.Data.Bool.Basic
import Mathlib.Data.List.Nodup

-- Binary Patricia trees: a leaf holds the rest of its path, a fork the shared stem.
namespace Patricia

def diverge : List Bool → List Bool → List Bool × List Bool × List Bool
  | a::one,b::two =>
    if a = b then (a::(diverge one two).1,(diverge one two).2) else ([],a::one,b::two)
  | one,two => ([],one,two)

def Apart (first second : List Bool) : Prop := ∀ a x b y, first = a::x → second = b::y → b = !a

theorem apart_bits (bit : Bool) (rest tail : List Bool) : Apart (bit::rest) ((!bit)::tail) := by
  rintro _ _ _ _ ⟨⟩ ⟨⟩
  rfl

theorem diverge_append (shared first second : List Bool) (apart : Apart first second) :
    diverge (shared ++ first) (shared ++ second) = (shared,first,second) := by
  induction shared with
  | cons bit shared ih => simp [diverge,ih]
  | nil =>
    rcases first with _ | ⟨a,first⟩
    · simp [diverge]
    · rcases second with _ | ⟨b,second⟩
      · simp [diverge]
      · have flipped := apart a first b second rfl rfl
        simp [diverge,flipped]

theorem diverge_along (stem rest : List Bool) : diverge stem (stem ++ rest) = (stem,[],rest) := by
  simpa using diverge_append stem [] rest (by simp [Apart])

theorem diverge_inside (path rest : List Bool) (bit : Bool) : diverge (path ++ bit::rest) path = (path,bit::rest,[]) := by
  simpa using diverge_append path (bit::rest) [] (by simp [Apart])

theorem diverge_parted (shared rest tail : List Bool) (bit : Bool) :
    diverge (shared ++ bit::rest) (shared ++ (!bit)::tail) = (shared,bit::rest,(!bit)::tail) :=
  diverge_append shared _ _ (apart_bits bit rest tail)

theorem diverge_length (inOne : count ≤ one.length) (inTwo : count ≤ two.length)
    (same : ∀ index < count, one.getD index false = two.getD index false)
    (stop : count = one.length ∨ count = two.length ∨ one.getD count false ≠ two.getD count false) :
    (diverge one two).1.length = count := by
  induction count generalizing one two with
  | zero =>
    rcases one with _ | ⟨a,one⟩
    · simp [diverge]
    · rcases two with _ | ⟨b,two⟩
      · simp [diverge]
      · have differ : a ≠ b := by simpa using stop
        simp [diverge,differ]
  | succ count ih =>
    rcases one with _ | ⟨a,one⟩
    · simp at inOne
    · rcases two with _ | ⟨b,two⟩
      · simp at inTwo
      · have heads : a = b := by simpa using same 0 (by omega)
        have rest := ih (by simpa using inOne) (by simpa using inTwo)
          (fun index inside => by simpa using same (index + 1) (by omega)) (by simpa using stop)
        simp [diverge,heads,rest]

def strip (stem path : List Bool) : Option (List Bool) := path.dropPrefix? stem

theorem strip_some : strip stem path = some rest ↔ path = stem ++ rest := by
  simp [strip,List.dropPrefix?_eq_some_iff]

@[simp] theorem strip_append (stem rest : List Bool) : strip stem (stem ++ rest) = some rest := strip_some.mpr rfl

inductive BitTree (α : Type) where
  | leaf (suffix : List Bool) (value : α)
  | fork (stem : List Bool) (left right : BitTree α)
  deriving Repr,DecidableEq

variable {α : Type}

namespace BitTree

def get : BitTree α → List Bool → Option α
  | leaf suffix value,path => if path = suffix then some value else none
  | fork stem left right,path =>
    match strip stem path with
    | some (false::rest) => left.get rest
    | some (true::rest) => right.get rest
    | _ => none

@[simp] theorem get_leaf {value held : α} : (leaf suffix value).get path = some held ↔ path = suffix ∧ value = held := by
  simp only [get]
  split <;> simp_all

-- The subtree a bit selects, and the fork with that subtree on the bit's side.
def side (bit : Bool) (left right : BitTree α) : BitTree α := if bit then right else left

def join (stem : List Bool) (bit : Bool) (there other : BitTree α) : BitTree α :=
  if bit then fork stem other there else fork stem there other

variable {left right : BitTree α} {value : α}

theorem get_fork : (fork stem left right).get path = some value ↔
      ∃ bit rest, path = stem ++ bit::rest ∧ (side bit left right).get rest = some value := by
  constructor
  · intro found
    unfold get at found
    split at found
    case h_1 rest present => exact ⟨false,rest,strip_some.mp present,found⟩
    case h_2 rest present => exact ⟨true,rest,strip_some.mp present,found⟩
    case h_3 => simp at found
  · rintro ⟨bit,rest,rfl,found⟩
    cases bit <;> simpa [get,side] using found

variable {bit : Bool}

theorem get_join : (join stem bit there other).get path = some value ↔ ∃ rest, (path = stem ++ bit::rest ∧ there.get rest = some value) ∨
        (path = stem ++ (!bit)::rest ∧ other.get rest = some value) := by
  have expand : (join stem bit there other).get path = some value ↔ ∃ chosen rest,
      path = stem ++ chosen::rest ∧ (if chosen = bit then there else other).get rest = some value := by
    cases bit
    · rw [join,if_neg Bool.false_ne_true,get_fork]
      simp [side]
    · rw [join,if_pos rfl,get_fork]
      simp [side]
  rw [expand,exists_comm]
  refine exists_congr fun rest => ?_
  cases bit <;> simp [or_comm]

-- Insertion forks where the path leaves a leaf or stem. A path that ends inside the
-- tree, or runs past a leaf, has no place in it.
def insert : BitTree α → List Bool → α → Option (BitTree α)
  | leaf suffix old,path,new =>
    match diverge suffix path with
    | (_,[],[]) => some (leaf suffix new)
    | (stem,bit::rest,_::tail) => some (join stem bit (leaf rest old) (leaf tail new))
    | _ => none
  | fork stem left right,path,new =>
    match diverge stem path with
    | (_,[],false::tail) => (left.insert tail new).map fun changed => fork stem changed right
    | (_,[],true::tail) => (right.insert tail new).map fun changed => fork stem left changed
    | (shared,bit::rest,_::tail) => some (join shared bit (fork rest left right) (leaf tail new))
    | _ => none
attribute [local grind] insert

def extend (stem : List Bool) : BitTree α → BitTree α
  | leaf suffix value => leaf (stem ++ suffix) value
  | fork inner left right => fork (stem ++ inner) left right

-- Removal returns the value and what remains; a fork that loses one side gives way
-- to the other, lengthened by its own stem and bit.
def remove : BitTree α → List Bool → Option (α × Option (BitTree α))
  | leaf suffix value,path => if path = suffix then some (value,none) else none
  | fork stem left right,path =>
    match strip stem path with
    | some (false::rest) => (left.remove rest).map fun (value,remaining) =>
        (value,some (remaining.elim (right.extend (stem ++ [true])) fun kept => fork stem kept right))
    | some (true::rest) => (right.remove rest).map fun (value,remaining) =>
        (value,some (remaining.elim (left.extend (stem ++ [false])) fun kept => fork stem left kept))
    | _ => none

def paths : BitTree α → List (List Bool)
  | leaf suffix _ => [suffix]
  | fork stem left right =>
    left.paths.map (fun rest => stem ++ false::rest) ++ right.paths.map (fun rest => stem ++ true::rest)

variable {tree : BitTree α}

theorem get_extend : (tree.extend stem).get path = some value ↔ ∃ rest, path = stem ++ rest ∧ tree.get rest = some value := by
  cases tree with
  | leaf suffix held => simp [extend]
  | fork inner left right =>
    simp only [extend,get_fork]
    constructor
    · rintro ⟨bit,rest,rfl,found⟩
      exact ⟨inner ++ bit::rest,by simp,bit,rest,rfl,found⟩
    · rintro ⟨_,rfl,bit,rest,rfl,found⟩
      exact ⟨bit,rest,by simp,found⟩

theorem get_along : (fork stem left right).get (stem ++ bit::rest) = (side bit left right).get rest := by
  cases bit <;> simp [get,side]

theorem get_stem : (fork stem left right).get stem = none := by
  have whole : strip stem stem = some [] := by simpa using strip_append stem []
  simp [get,whole]

theorem get_below : (fork stem left right).get (stem ++ rest) = (fork [] left right).get rest := by
  rcases rest with _ | ⟨bit,rest⟩
  · rw [List.append_nil,get_stem,get_stem]
  · rw [get_along,← List.nil_append (bit::rest),get_along]

theorem strip_none (off : ¬stem <+: path) : strip stem path = none := by
  rcases found : strip stem path with _ | rest
  · rfl
  · exact absurd ⟨rest,(strip_some.mp found).symm⟩ off

theorem get_off (off : ¬stem <+: path) : (fork stem left right).get path = none := by
  simp [get,strip_none off]

theorem remove_off (off : ¬stem <+: path) : (fork stem left right).remove path = none := by
  simp [remove,strip_none off]

variable {new : α}

theorem insert_along : (fork stem left right).insert (stem ++ bit::tail) new =
      ((side bit left right).insert tail new).map fun changed => join stem bit changed (side (!bit) left right) := by
  cases bit <;> simp [insert,diverge_along,side,join]

theorem insert_beside : (fork (shared ++ bit::rest) left right).insert (shared ++ (!bit)::tail) new =
      some (join shared bit (fork rest left right) (leaf tail new)) := by
  simp [insert,diverge_parted]

variable {old : α}

theorem insert_leaf_beside : (leaf (shared ++ bit::rest) old).insert (shared ++ (!bit)::tail) new =
      some (join shared bit (leaf rest old) (leaf tail new)) := by
  simp [insert,diverge_parted]

theorem insert_leaf_same : (leaf suffix old).insert suffix new = some (leaf suffix new) := by
  have whole : diverge suffix suffix = (suffix,[],[]) := by simpa using diverge_along suffix []
  simp [insert,whole]

theorem remove_along : (fork stem left right).remove (stem ++ bit::rest) = ((side bit left right).remove rest).map fun taken =>
        (taken.1,some (taken.2.elim ((side (!bit) left right).extend (stem ++ [!bit]))
          fun kept => join stem bit kept (side (!bit) left right))) := by
  cases bit <;> simp [remove,side,join]

theorem insert_within : (fork (path ++ bit::rest) left right).insert path new = none := by
  simp [insert,diverge_inside]

theorem insert_at_stem : (fork stem left right).insert stem new = none := by
  have split : diverge stem stem = (stem,[],[]) := by simpa using diverge_along stem []
  simp [insert,split]

theorem insert_leaf_within : (leaf (path ++ bit::rest) old).insert path new = none := by
  simp [insert,diverge_inside]

theorem insert_leaf_past : (leaf suffix old).insert (suffix ++ bit::rest) new = none := by
  simp [insert,diverge_along]

theorem extend_extend {inner : List Bool} : (tree.extend inner).extend outer = tree.extend (outer ++ inner) := by
  cases tree <;> simp [extend]

theorem extend_join {inner : List Bool} : (join inner bit there other).extend outer = join (outer ++ inner) bit there other := by
  cases bit <;> rfl

theorem remove_extend : (tree.extend stem).remove (stem ++ rest) =
      (tree.remove rest).map fun taken => (taken.1,taken.2.map (extend stem)) := by
  cases tree with
  | leaf suffix value =>
    simp only [extend,remove,List.append_cancel_left_eq]
    split <;> rfl
  | fork inner left right =>
    have same : strip (stem ++ inner) (stem ++ rest) = strip inner rest := by
      refine Option.ext fun more => ?_
      simp [strip_some]
    rcases present : strip inner rest with _ | ⟨_ | ⟨bit,more⟩⟩
    · simp [extend,remove,same,present]
    · simp [extend,remove,same,present]
    · rw [strip_some] at present
      subst present
      rw [extend,← List.append_assoc,remove_along,remove_along,Option.map_map]
      congr 1
      funext ⟨value,remaining⟩
      cases remaining <;> simp [extend_extend,extend_join]
end BitTree

theorem meeting (stem path : List Bool) : (∃ rest, path = stem ++ rest) ∨ (∃ bit rest, stem = path ++ bit::rest) ∨
      ∃ shared bit rest tail, stem = shared ++ bit::rest ∧ path = shared ++ (!bit)::tail := by
  induction stem generalizing path with
  | nil => exact .inl ⟨path,rfl⟩
  | cons a stem ih =>
    rcases path with _ | ⟨b,path⟩
    · exact .inr (.inl ⟨a,stem,rfl⟩)
    · by_cases same : b = a
      · obtain ⟨rest,rfl⟩ | ⟨bit,rest,rfl⟩ | ⟨shared,bit,rest,tail,rfl,rfl⟩ := ih path
        · exact .inl ⟨rest,by simp [same]⟩
        · exact .inr (.inl ⟨bit,rest,by simp [same]⟩)
        · exact .inr (.inr ⟨b::shared,bit,rest,tail,by simp [same],by simp⟩)
      · have flipped : b = !a := by cases a <;> cases b <;> simp_all
        exact .inr (.inr ⟨[],a,stem,path,rfl,by simp [flipped]⟩)

theorem diverge_off (off : ¬stem <+: path) : (diverge stem path).1.length < stem.length := by
  obtain ⟨rest,rfl⟩ | ⟨bit,rest,rfl⟩ | ⟨shared,bit,rest,tail,rfl,rfl⟩ := meeting stem path
  · exact absurd ⟨rest,rfl⟩ off
  · have split := diverge_append path (bit::rest) [] (by simp [Apart])
    rw [List.append_nil] at split
    simp [split]
  · simp [diverge_parted]

namespace BitTree

theorem side_induction {motive : BitTree α → Prop} (onLeft : motive left)
    (onRight : motive right) (bit : Bool) : motive (side bit left right) := by
  cases bit
  · exact onLeft
  · exact onRight

theorem get_beside (there : BitTree α) : (join shared bit there (leaf tail new)).get query = some value ↔
      (query = shared ++ (!bit)::tail ∧ new = value) ∨
        (query ≠ shared ++ (!bit)::tail ∧ (there.extend (shared ++ [bit])).get query = some value) := by
  rw [get_join,get_extend]
  constructor
  · rintro ⟨rest,⟨rfl,found⟩ | ⟨rfl,found⟩⟩
    · exact .inr ⟨by simp,rest,by simp,found⟩
    · obtain ⟨rfl,rfl⟩ := get_leaf.mp found
      exact .inl ⟨rfl,rfl⟩
  · rintro (⟨rfl,rfl⟩ | ⟨_,rest,rfl,found⟩)
    · exact ⟨tail,.inr ⟨rfl,get_leaf.mpr ⟨rfl,rfl⟩⟩⟩
    · exact ⟨rest,.inl ⟨by simp,found⟩⟩

variable {tree : BitTree α}

theorem get_insert {changed : BitTree α} (inserted : tree.insert path new = some changed) : changed.get query = some value ↔
      (query = path ∧ new = value) ∨ (query ≠ path ∧ tree.get query = some value) := by
  induction tree generalizing path query changed with
  | leaf suffix old =>
    obtain ⟨_ | ⟨bit,rest⟩,rfl⟩ | ⟨bit,rest,rfl⟩ | ⟨shared,bit,rest,tail,rfl,rfl⟩ := meeting suffix path
    · rw [List.append_nil,insert_leaf_same] at inserted
      cases inserted
      by_cases same : query = suffix <;> simp [same]
    · simp [insert_leaf_past] at inserted
    · simp [insert_leaf_within] at inserted
    · rw [insert_leaf_beside] at inserted
      cases inserted
      simpa [extend] using get_beside (leaf rest old)
  | fork stem left right onLeft onRight =>
    obtain ⟨_ | ⟨bit,tail⟩,rfl⟩ | ⟨bit,rest,rfl⟩ | ⟨shared,bit,rest,tail,rfl,rfl⟩ := meeting stem path
    · rw [List.append_nil,insert_at_stem] at inserted
      cases inserted
    · rw [insert_along,Option.map_eq_some_iff] at inserted
      obtain ⟨grown,below,rfl⟩ := inserted
      have inner {rest : List Bool} := side_induction (motive := fun subtree => subtree.insert tail new = some grown →
        (grown.get rest = some value ↔ (rest = tail ∧ new = value) ∨ (rest ≠ tail ∧ subtree.get rest = some value)))
        onLeft onRight bit below
      rw [get_join,get_fork]
      constructor
      · rintro ⟨rest,⟨rfl,found⟩ | ⟨rfl,found⟩⟩
        · obtain ⟨rfl,rfl⟩ | ⟨other,kept⟩ := inner.mp found
          · exact .inl ⟨rfl,rfl⟩
          · exact .inr ⟨by simpa using other,bit,rest,rfl,kept⟩
        · exact .inr ⟨by simp,!bit,rest,rfl,found⟩
      · rintro (⟨rfl,rfl⟩ | ⟨other,chosen,rest,rfl,kept⟩)
        · exact ⟨tail,.inl ⟨rfl,inner.mpr (.inl ⟨rfl,rfl⟩)⟩⟩
        · obtain rfl | rfl := Bool.eq_or_eq_not chosen bit
          · exact ⟨rest,.inl ⟨rfl,inner.mpr (.inr ⟨by simpa using other,kept⟩)⟩⟩
          · exact ⟨rest,.inr ⟨rfl,kept⟩⟩
    · simp [insert_within] at inserted
    · rw [insert_beside] at inserted
      cases inserted
      simpa [extend] using get_beside (fork rest left right)

theorem nonempty (tree : BitTree α) : ∃ path value, tree.get path = some value := by
  induction tree with
  | leaf suffix value => exact ⟨suffix,value,get_leaf.mpr ⟨rfl,rfl⟩⟩
  | fork stem left right onLeft _ =>
    obtain ⟨path,value,found⟩ := onLeft
    exact ⟨stem ++ false::path,value,get_fork.mpr ⟨false,path,rfl,found⟩⟩

-- A path that is no proper part of a held path, nor continues one, has a place.
def Admits (tree : BitTree α) (path : List Bool) : Prop :=
  ∀ held value, tree.get held = some value → held <+: path ∨ path <+: held → held = path

theorem Admits.along (free : (fork stem left right).Admits (stem ++ bit::rest)) : (side bit left right).Admits rest := by
  intro held value found near
  have whole := free (stem ++ bit::held) value (get_fork.mpr ⟨bit,held,rfl,found⟩)
  simpa [near] using whole

theorem Admits.below (free : (fork stem left right).Admits (stem ++ rest)) : (fork [] left right).Admits rest := by
  intro held value found near
  have whole := free (stem ++ held) value (by rw [get_below,found])
  simpa [near] using whole

theorem not_admits_stem : ¬(fork stem left right).Admits stem := by
  intro free
  obtain ⟨held,value,found⟩ := nonempty (fork stem left right)
  have alike := free held value found
  obtain ⟨chosen,inner,rfl,below⟩ := get_fork.mp found
  simp at alike

theorem insert_admitted (new : α) (free : tree.Admits path) : ∃ changed, tree.insert path new = some changed := by
  induction tree generalizing path with
  | leaf suffix old =>
    have alike := free suffix old (get_leaf.mpr ⟨rfl,rfl⟩)
    obtain ⟨_ | ⟨bit,rest⟩,rfl⟩ | ⟨bit,rest,rfl⟩ | ⟨shared,bit,rest,tail,rfl,rfl⟩ := meeting suffix path
    · exact ⟨_,by rw [List.append_nil]; exact insert_leaf_same⟩
    · simp at alike
    · simp at alike
    · exact ⟨_,insert_leaf_beside⟩
  | fork stem left right onLeft onRight =>
    obtain ⟨held,value,found⟩ := nonempty (fork stem left right)
    have alike := free held value found
    obtain ⟨chosen,inner,rfl,below⟩ := get_fork.mp found
    obtain ⟨_ | ⟨bit,tail⟩,rfl⟩ | ⟨bit,rest,rfl⟩ | ⟨shared,bit,rest,tail,rfl,rfl⟩ := meeting stem path
    · exact absurd (by simpa using free) not_admits_stem
    · obtain ⟨grown,done⟩ := side_induction (motive := fun subtree => subtree.Admits tail →
        ∃ changed, subtree.insert tail new = some changed) onLeft onRight bit free.along
      exact ⟨_,by rw [insert_along,done]; rfl⟩
    · simp at alike
    · exact ⟨_,insert_beside⟩

theorem remove_value : (tree.remove path).map Prod.fst = tree.get path := by
  induction tree generalizing path with
  | leaf suffix value => simp only [remove,get]; split <;> rfl
  | fork stem left right onLeft onRight =>
    rcases present : strip stem path with _ | ⟨_ | ⟨_ | _,rest⟩⟩
    · simp [remove,get,present]
    · simp [remove,get,present]
    · simp [remove,get,present,← onLeft,Function.comp_def]
    · simp [remove,get,present,← onRight,Function.comp_def]
end BitTree

def lookup (root : Option (BitTree α)) (path : List Bool) : Option α := root.bind fun tree => tree.get path
@[simp] theorem lookup_none (path : List Bool) : lookup (none : Option (BitTree α)) path = none := rfl
@[simp] theorem lookup_some (tree : BitTree α) (path : List Bool) : lookup (some tree) path = tree.get path := rfl

namespace BitTree

theorem get_remove {tree : BitTree α} {taken value : α} (removed : tree.remove path = some (taken,remaining)) :
    lookup remaining query = some value ↔ query ≠ path ∧ tree.get query = some value := by
  induction tree generalizing path query remaining with
  | leaf suffix held =>
    unfold remove at removed
    split at removed
    · rename_i same
      cases removed
      simp only [lookup_none,get_leaf,same]
      grind
    · cases removed
  | fork stem left right onLeft onRight =>
    rcases present : strip stem path with _ | ⟨_ | ⟨bit,rest⟩⟩
    · simp [remove,present] at removed
    · simp [remove,present] at removed
    · rw [strip_some] at present
      subst present
      rw [remove_along,Option.map_eq_some_iff] at removed
      obtain ⟨⟨held,below⟩,inside,shape⟩ := removed
      obtain ⟨rfl,rfl⟩ := Prod.mk.injEq .. ▸ shape
      have inner {query : List Bool} := side_induction (motive := fun subtree =>
        subtree.remove rest = some (held,below) → (lookup below query = some value ↔ query ≠ rest ∧ subtree.get query = some value))
        onLeft onRight bit inside
      rw [get_fork]
      have other {tail : List Bool} : stem ++ (!bit)::tail ≠ stem ++ bit::rest := by simp
      cases below with
      | none =>
        simp only [Option.elim_none,lookup_some,get_extend]
        constructor
        · rintro ⟨tail,rfl,found⟩
          exact ⟨by simp,!bit,tail,by simp,found⟩
        · rintro ⟨differs,chosen,tail,rfl,found⟩
          obtain rfl | rfl := Bool.eq_or_eq_not chosen bit
          · simpa using inner.mpr ⟨by simpa using differs,found⟩
          · exact ⟨tail,by simp,found⟩
      | some kept =>
        simp only [Option.elim_some,lookup_some,get_join]
        constructor
        · rintro ⟨tail,⟨rfl,found⟩ | ⟨rfl,found⟩⟩
          · obtain ⟨differs,held⟩ := inner.mp found
            exact ⟨by simpa using differs,bit,tail,rfl,held⟩
          · exact ⟨other,!bit,tail,rfl,found⟩
        · rintro ⟨differs,chosen,tail,rfl,found⟩
          obtain rfl | rfl := Bool.eq_or_eq_not chosen bit
          · exact ⟨tail,.inl ⟨rfl,inner.mpr ⟨by simpa using differs,found⟩⟩⟩
          · exact ⟨tail,.inr ⟨rfl,found⟩⟩

theorem stem_shared (found : (fork stem left right).get path = some value) : stem <+: path := by
  obtain ⟨bit,rest,rfl,_⟩ := get_fork.mp found
  exact List.prefix_append _ _

theorem stem_le (same : ∀ path value, (fork stem left right).get path = some value → (fork other left' right').get path = some value) :
    other.length ≤ stem.length := by
  by_contra longer
  have through (bit : Bool) : ∃ rest, other <+: stem ++ bit::rest := by
    obtain ⟨rest,value,found⟩ := nonempty (side bit left right)
    exact ⟨rest,stem_shared (same _ _ (get_fork.mpr ⟨bit,rest,rfl,found⟩))⟩
  obtain ⟨zeros,⟨afterZero,onZero⟩⟩ := through false
  obtain ⟨ones,⟨afterOne,onOne⟩⟩ := through true
  have zero : other[stem.length]? = some false := by
    have bit := congrArg (fun path : List Bool => path[stem.length]?) onZero
    simpa [List.getElem?_append_left (by omega : stem.length < other.length)] using bit
  have one : other[stem.length]? = some true := by
    have bit := congrArg (fun path : List Bool => path[stem.length]?) onOne
    simpa [List.getElem?_append_left (by omega : stem.length < other.length)] using bit
  simp [zero] at one

theorem fork_not_single (only : ∀ path value, (fork stem left right).get path = some value → path = suffix) : False := by
  have through (bit : Bool) : ∃ rest, stem ++ bit::rest = suffix := by
    obtain ⟨rest,value,found⟩ := nonempty (side bit left right)
    exact ⟨rest,only _ _ (get_fork.mpr ⟨bit,rest,rfl,found⟩)⟩
  obtain ⟨zeros,onZero⟩ := through false
  obtain ⟨ones,onOne⟩ := through true
  simpa using onZero.trans onOne.symm

theorem ext {one two : BitTree α} (same : ∀ path value, one.get path = some value ↔ two.get path = some value) : one = two := by
  induction one generalizing two with
  | leaf suffix value =>
    cases two with
    | leaf other held =>
      obtain ⟨rfl,rfl⟩ := get_leaf.mp ((same suffix value).mp (get_leaf.mpr ⟨rfl,rfl⟩))
      rfl
    | fork stem left right =>
      exact (fork_not_single fun path value found => (get_leaf.mp ((same path value).mpr found)).1).elim
  | fork stem left right onLeft onRight =>
    cases two with
    | leaf other held =>
      exact (fork_not_single fun path value found => (get_leaf.mp ((same path value).mp found)).1).elim
    | fork other left' right' =>
      have size : stem.length = other.length :=
        Nat.le_antisymm (stem_le fun path value => (same path value).mpr) (stem_le fun path value => (same path value).mp)
      obtain ⟨path,value,found⟩ := nonempty (fork stem left right)
      have along := List.prefix_of_prefix_length_le (stem_shared found) (stem_shared ((same _ _).mp found)) (Nat.le_of_eq size)
      obtain rfl := along.eq_of_length size
      have below (bit : Bool) (rest : List Bool) (held : α) :
          (side bit left right).get rest = some held ↔ (side bit left' right').get rest = some held := by
        simpa [get_fork] using same (stem ++ bit::rest) held
      obtain rfl : left = left' := onLeft (below false)
      obtain rfl : right = right' := onRight (below true)
      rfl
end BitTree

theorem lookup_ext {one two : Option (BitTree α)}
    (same : ∀ path value, lookup one path = some value ↔ lookup two path = some value) : one = two := by
  cases one with
  | none =>
    cases two with
    | none => rfl
    | some tree =>
      obtain ⟨path,value,found⟩ := tree.nonempty
      exact absurd ((same path value).mpr found) (by simp)
  | some tree =>
    cases two with
    | none =>
      obtain ⟨path,value,found⟩ := tree.nonempty
      exact absurd ((same path value).mp found) (by simp)
    | some other => exact congrArg some (BitTree.ext same)

-- The tree of a list of entries, one bit at a time; a tree that stands alone below
-- a bit is lengthened by it.
def below (bit : Bool) (entries : List (List Bool × α)) : List (List Bool × α) := entries.filterMap fun entry =>
    match entry.1 with
    | first::rest => if first = bit then some (rest,entry.2) else none
    | [] => none

def merge : Option (BitTree α) → Option (BitTree α) → Option (BitTree α)
  | some left,some right => some (.fork [] left right)
  | some left,none => some (left.extend [false])
  | none,some right => some (right.extend [true])
  | none,none => none

def ofEntries : Nat → List (List Bool × α) → Option (BitTree α)
  | _,[] => none
  | _,[entry] => some (.leaf entry.1 entry.2)
  | 0,_ => none
  | depth+1,entries => merge (ofEntries depth (below false entries)) (ofEntries depth (below true entries))

def depth (entries : List (List Bool × α)) : Nat := entries.foldr (fun entry most => max entry.1.length most) 0
def canonical (entries : List (List Bool × α)) : Option (BitTree α) := ofEntries (depth entries) entries
def Separate (one two : List Bool × α) : Prop := ¬one.1 <+: two.1 ∧ ¬two.1 <+: one.1

variable {entries : List (List Bool × α)} {value : α}

theorem mem_below : (rest,value) ∈ below bit entries ↔ (bit::rest,value) ∈ entries := by
  simp only [below,List.mem_filterMap]
  constructor
  · rintro ⟨⟨path,held⟩,listed,shape⟩
    split at shape
    · split at shape <;> simp_all
    · cases shape
  · exact fun listed => ⟨_,listed,by simp⟩

theorem lookup_merge : lookup (merge left right) path = some value ↔
      ∃ bit rest, path = bit::rest ∧ lookup (if bit then right else left) rest = some value := by
  cases left <;> cases right <;> simp [merge,BitTree.get_extend,BitTree.get_fork,BitTree.side]

theorem separate_below (bit : Bool) (separate : entries.Pairwise Separate) : (below bit entries).Pairwise Separate := by
  refine List.pairwise_filterMap.mpr (separate.imp ?_)
  rintro ⟨_ | ⟨a,one⟩,first⟩ ⟨_ | ⟨b,two⟩,second⟩ apart x onOne y onTwo
  · cases onOne
  · cases onOne
  · cases onTwo
  · by_cases same : a = bit <;> by_cases alike : b = bit <;> simp_all [Separate]
    grind

theorem lookup_single : lookup (ofEntries most [entry]) path = some value ↔ (path,value) ∈ [entry] := by
  simp only [ofEntries,lookup_some,BitTree.get_leaf,List.mem_singleton,Prod.ext_iff]
  exact and_congr_right' eq_comm

theorem proper_path (value : α) (separate : (one::two::rest).Pairwise Separate) : ([],value) ∉ one::two::rest := by
  have apart := (List.pairwise_cons.mp separate).1
  intro listed
  rcases List.mem_cons.mp listed with first | later
  · exact (apart two (by simp)).1 (by simp [← first])
  · exact (apart _ later).2 (List.nil_prefix)

theorem lookup_ofEntries (separate : entries.Pairwise Separate) (bounded : ∀ entry ∈ entries, entry.1.length ≤ most) :
    lookup (ofEntries most entries) path = some value ↔ (path,value) ∈ entries := by
  induction most generalizing entries path with
  | zero =>
    rcases entries with _ | ⟨one,_ | ⟨two,rest⟩⟩
    · simp [ofEntries]
    · exact lookup_single
    · have empty : one = ([],one.2) := by
        simpa [Prod.ext_iff] using bounded one (by simp)
      exact absurd (by rw [← empty]; simp) (proper_path one.2 separate)
  | succ most ih =>
    rcases entries with _ | ⟨one,_ | ⟨two,rest⟩⟩
    · simp [ofEntries]
    · exact lookup_single
    · have inner (bit : Bool) (tail : List Bool) : lookup (ofEntries most (below bit (one::two::rest))) tail = some value ↔
            (tail,value) ∈ below bit (one::two::rest) := by
        refine ih (separate_below bit separate) ?_
        rintro ⟨inside,held⟩ listed
        simpa using bounded _ (mem_below.mp listed)
      rw [ofEntries,lookup_merge]
      · constructor
        · rintro ⟨bit,tail,rfl,found⟩
          cases bit
          · exact mem_below.mp ((inner false tail).mp found)
          · exact mem_below.mp ((inner true tail).mp found)
        · intro listed
          rcases path with _ | ⟨bit,tail⟩
          · exact absurd listed (proper_path value separate)
          · refine ⟨bit,tail,rfl,?_⟩
            cases bit
            · exact (inner false tail).mpr (mem_below.mpr listed)
            · exact (inner true tail).mpr (mem_below.mpr listed)
      · simp
      · simp

theorem length_le_depth (listed : entry ∈ entries) : entry.1.length ≤ depth entries := by
  induction entries with
  | nil => cases listed
  | cons first rest ih =>
    simp only [depth,List.foldr_cons]
    rcases List.mem_cons.mp listed with rfl | later
    · exact Nat.le_max_left _ _
    · exact Nat.le_trans (ih later) (Nat.le_max_right _ _)

namespace BitTree

variable {tree : BitTree α}

theorem mem_paths : path ∈ tree.paths ↔ ∃ value, tree.get path = some value := by
  induction tree generalizing path with
  | leaf suffix value => simp [paths]
  | fork stem left right onLeft onRight =>
    simp only [paths,List.mem_append,List.mem_map,onLeft,onRight,get_fork]
    constructor
    · rintro (⟨rest,⟨value,found⟩,rfl⟩ | ⟨rest,⟨value,found⟩,rfl⟩)
      · exact ⟨value,false,rest,rfl,found⟩
      · exact ⟨value,true,rest,rfl,found⟩
    · rintro ⟨value,_ | _,rest,rfl,found⟩
      · exact .inl ⟨rest,⟨value,found⟩,rfl⟩
      · exact .inr ⟨rest,⟨value,found⟩,rfl⟩

theorem paths_nodup (tree : BitTree α) : tree.paths.Nodup := by
  induction tree with
  | leaf suffix value => simp [paths]
  | fork stem left right onLeft onRight =>
    have injective (bit : Bool) : Function.Injective fun rest : List Bool => stem ++ bit::rest := fun _ _ => by simp
    exact List.nodup_append.mpr ⟨onLeft.map (injective false),onRight.map (injective true),by simp⟩

def clips : BitTree α → List Bool → Bool
  | leaf _ _,_ => false
  | fork stem left right,path =>
    match strip stem path with
    | some (false::rest) => left.clips rest
    | some (true::rest) => right.clips rest
    | some [] => false
    | none => stem.dropLast.isPrefixOf path

theorem clips_along : (fork stem left right).clips (stem ++ bit::rest) = (side bit left right).clips rest := by
  cases bit <;> simp [clips,side]

theorem clips_below : (fork stem left right).clips (stem ++ rest) = (fork [] left right).clips rest := by
  have whole : strip [] rest = some rest := strip_append [] rest
  simp only [clips,strip_append,whole]
  rcases rest with _ | ⟨_ | _,rest⟩ <;> rfl

theorem clips_off (off : ¬stem <+: path) : (fork stem left right).clips path = stem.dropLast.isPrefixOf path := by
  simp only [clips,strip_none off]

def subtrees : BitTree α → List (BitTree α)
  | leaf suffix value => [leaf suffix value]
  | fork stem left right => fork stem left right::fork [] left right::(left.subtrees ++ right.subtrees)

theorem self_subtree (tree : BitTree α) : tree ∈ tree.subtrees := by
  cases tree <;> simp [subtrees]

theorem subtrees_below (inside : fork stem left right ∈ tree.subtrees) :
    fork [] left right ∈ tree.subtrees ∧ left ∈ tree.subtrees ∧ right ∈ tree.subtrees := by
  induction tree with
  | leaf suffix value => simp [subtrees] at inside
  | fork outer one two onOne onTwo =>
    have first := one.self_subtree
    have second := two.self_subtree
    simp only [subtrees,List.mem_cons,List.mem_append,fork.injEq] at inside ⊢
    obtain ⟨_,rfl,rfl⟩ | ⟨_,rfl,rfl⟩ | deep | deep := inside
    · simp [first,second]
    · simp [first,second]
    · obtain ⟨a,b,c⟩ := onOne deep
      simp [a,b,c]
    · obtain ⟨a,b,c⟩ := onTwo deep
      simp [a,b,c]
end BitTree
end Patricia
