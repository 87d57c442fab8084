import Mathlib

-- Walks along parent links that finitely many nodes have: without a cycle a walk
-- ends after at most as many steps as there are nodes with a parent.
namespace Ancestry
variable {α : Type} {parent : α → Option α}

inductive Path (parent : α → Option α) : α → List α → Prop where
  | root : parent node = none → Path parent node [node]
  | step : parent node = some above → Path parent above rest → Path parent node (node::rest)

def Acyclic (parent : α → Option α) : Prop := ∀ node, ¬Relation.TransGen (fun below above => parent below = some above) node node

theorem Path.head (path : Path parent node visited) : ∃ rest, visited = node::rest := by
  cases path with
  | root => exact ⟨_,rfl⟩
  | step => exact ⟨_,rfl⟩

-- What a loop with a budget computes along a path, from the root down.
theorem Path.walk {motive : α → List α → Nat → Prop} (root : ∀ node fuel, parent node = none → motive node [] (fuel + 1))
    (step : ∀ node above rest fuel, parent node = some above → motive above rest fuel → motive node (above::rest) (fuel + 1))
    (path : Path parent node (node::rest)) (enough : rest.length < fuel) : motive node rest fuel := by
  induction rest generalizing node fuel with
  | nil =>
    obtain _ | fuel := fuel
    · cases enough
    cases path with
    | root last => exact root node fuel last
    | step link tail => cases tail
  | cons above rest ih =>
    obtain _ | fuel := fuel
    · cases enough
    cases path with
    | step link tail =>
      obtain ⟨_,shape⟩ := tail.head
      obtain ⟨rfl,-⟩ := List.cons.inj shape
      exact step node above rest fuel link (ih tail (Nat.lt_of_succ_lt_succ enough))

theorem Path.reaches (path : Path parent node (node::rest)) (member : other ∈ rest) :
    Relation.TransGen (fun below above => parent below = some above) node other := by
  generalize whole : node::rest = visited at path
  induction path generalizing rest with
  | root =>
    obtain rfl : rest = [] := (List.cons.inj whole).2
    cases member
  | @step node above later link tail ih =>
    obtain rfl := (List.cons.inj whole).2
    obtain ⟨beyond,shape⟩ := tail.head
    subst shape
    rcases List.mem_cons.mp member with rfl | further
    · exact .single link
    · exact .head link (ih further rfl)

theorem Path.nodup (acyclic : Acyclic parent) (path : Path parent node visited) : visited.Nodup := by
  induction path with
  | root => simp
  | step link tail ih =>
    refine List.nodup_cons.mpr ⟨fun again => ?_,ih⟩
    exact acyclic _ ((Path.step link tail).reaches again)

theorem Path.length_le [DecidableEq α] (acyclic : Acyclic parent) {support : List α} (complete : ∀ node, parent node ≠ none → node ∈ support)
    (path : Path parent node visited) : visited.length ≤ support.length + 1 := by
  have inside : ∀ {node visited}, Path parent node visited → visited.dropLast ⊆ support := by
    intro node visited path
    induction path with
    | root => exact List.nil_subset _
    | @step node above rest link tail ih =>
      obtain ⟨beyond,shape⟩ := tail.head
      rw [List.dropLast_cons_of_ne_nil (by simp [shape])]
      exact List.cons_subset.mpr ⟨complete node (by simp [link]),ih⟩
  have distinct : visited.dropLast.Nodup := (path.nodup acyclic).sublist (List.dropLast_sublist _)
  have bounded := (List.subperm_of_subset distinct (inside path)).length_le
  rw [List.length_dropLast] at bounded
  omega

theorem exists_path [DecidableEq α] (acyclic : Acyclic parent) {support : List α} (complete : ∀ node, parent node ≠ none → node ∈ support)
    (node : α) : ∃ visited, Path parent node visited := by
  suffices grown : ∀ budget node (seen : List α), seen.Nodup → seen ⊆ support → support.length < seen.length + budget →
      (∀ other ∈ seen, Relation.TransGen (fun below above => parent below = some above) other node) →
      ∃ visited, Path parent node visited by
    exact grown (support.length + 1) node [] List.nodup_nil (List.nil_subset _) (by simp) (by simp)
  intro budget
  induction budget with
  | zero =>
    intro node seen distinct inside enough _
    have bounded := (List.subperm_of_subset distinct inside).length_le
    omega
  | succ budget ih =>
    intro node seen distinct inside enough below
    cases link : parent node with
    | none => exact ⟨[node],.root link⟩
    | some above =>
      have fresh : node ∉ seen := fun again => acyclic node (below node again)
      obtain ⟨visited,path⟩ := ih above (node::seen) (List.nodup_cons.mpr ⟨fresh,distinct⟩)
        (List.cons_subset.mpr ⟨complete node (by simp [link]),inside⟩) (by simp only [List.length_cons]; omega)
        (List.forall_mem_cons.mpr ⟨.single link,fun other earlier => (below other earlier).tail link⟩)
      exact ⟨node::visited,.step link path⟩
end Ancestry
