/-
Module: DefinitionLists.Proofs.Visit
Purpose: What a visit that changes siblings and always goes on into the node at its place does to a
  tree, and what it may note on its way.
Main exports: editFrom, notesFrom, noting, visitFrom_fst, visitFrom_noting, editFrom_fits,
  editFrom_related
-/
import DefinitionLists.Node.Visit

namespace DefinitionLists.Node

/-- The siblings of a place after a visit from there on that changes them by `change` and goes on
into the node at each place. -/
def editFrom (change : Place → List Node) : (fuel : Nat) → Place → List Node
  | 0, place => place.siblings
  | _ + 1, ⟨_, before, []⟩ => before.reverse
  | fuel + 1, ⟨parent, before, node :: rest⟩ =>
    match change ⟨parent, before, node :: rest⟩ with
    | [] => before.reverse
    | .leaf content :: after => editFrom change fuel ⟨parent, .leaf content :: before, after⟩
    | .branch head children :: after =>
      editFrom change fuel
        ⟨parent, .branch head (editFrom change fuel ⟨head, [], children⟩) :: before, after⟩

/-- What a visit from a place on notes that changes siblings by `change`. -/
def notesFrom {α : Type} (change : Place → List Node) (note : Place → List α) :
    (fuel : Nat) → Place → List α
  | 0, _ => []
  | _ + 1, ⟨_, _, []⟩ => []
  | fuel + 1, ⟨parent, before, node :: rest⟩ =>
    note ⟨parent, before, node :: rest⟩ ++
      match change ⟨parent, before, node :: rest⟩ with
      | [] => []
      | .leaf content :: after =>
        notesFrom change note fuel ⟨parent, .leaf content :: before, after⟩
      | .branch head children :: after =>
        notesFrom change note fuel ⟨head, [], children⟩ ++
          notesFrom change note fuel
            ⟨parent, .branch head (editFrom change fuel ⟨head, [], children⟩) :: before, after⟩

/-- The visitor that changes the siblings at each place, goes on into the node there, and adds what
it notes to the notes so far. -/
def noting {α : Type} (change : Place → List Node) (note : Place → List α) : Visitor (List α) :=
  fun place notes => (.descend, change place, notes ++ note place)

/-- What a visitor keeps in its state has no effect on the siblings. -/
theorem visitFrom_fst {σ : Type} {visitor : Visitor σ} {change : Place → List Node}
    (h : ∀ place state, ∃ state', visitor place state = (.descend, change place, state'))
    (fuel : Nat) (place : Place) (state : σ) :
    (visitFrom visitor fuel place state).1 = editFrom change fuel place := by
  induction fuel generalizing place state with
  | zero => rfl
  | succ fuel ih =>
      obtain ⟨parent, before, here⟩ := place
      cases here with
      | nil => simp [visitFrom, editFrom, Place.siblings]
      | cons node rest =>
          obtain ⟨state', hv⟩ := h ⟨parent, before, node :: rest⟩ state
          simp only [visitFrom, List.isEmpty_cons, Bool.false_eq_true, if_false, hv, editFrom]
          cases change ⟨parent, before, node :: rest⟩ with
          | nil => rfl
          | cons first after =>
              cases first with
              | leaf content => exact ih _ _
              | branch head children =>
                  simp only
                  rw [ih, ih]

/-- A visitor that notes things ends with what `notesFrom` lists. -/
theorem visitFrom_noting {α : Type} (change : Place → List Node) (note : Place → List α)
    (fuel : Nat) (place : Place) (notes : List α) :
    visitFrom (noting change note) fuel place notes =
      (editFrom change fuel place, notes ++ notesFrom change note fuel place) := by
  induction fuel generalizing place notes with
  | zero => simp [visitFrom, editFrom, notesFrom]
  | succ fuel ih =>
      obtain ⟨parent, before, here⟩ := place
      cases here with
      | nil => simp [visitFrom, editFrom, notesFrom, Place.siblings]
      | cons node rest =>
          have hv : noting change note ⟨parent, before, node :: rest⟩ notes =
              (.descend, change ⟨parent, before, node :: rest⟩,
                notes ++ note ⟨parent, before, node :: rest⟩) := rfl
          simp only [visitFrom, List.isEmpty_cons, Bool.false_eq_true, if_false, hv, editFrom,
            notesFrom]
          cases change ⟨parent, before, node :: rest⟩ with
          | nil => simp
          | cons first after =>
              cases first with
              | leaf content =>
                  simp only
                  rw [ih, List.append_assoc]
              | branch head children =>
                  simp only
                  rw [ih, ih]
                  simp only [List.append_assoc]

/-- The node after a visit of what is below it. -/
def editWithin (change : Place → List Node) (fuel : Nat) : Node → Node
  | .leaf content => .leaf content
  | .branch head children => .branch head (editFrom change fuel ⟨head, [], children⟩)

/-- What a visit of what is below the node notes. -/
def notesWithin {α : Type} (change : Place → List Node) (note : Place → List α) (fuel : Nat) :
    Node → List α
  | .leaf _ => []
  | .branch head children => notesFrom change note fuel ⟨head, [], children⟩

/-- A visit goes on into the first node that a change leaves, and then over the nodes after it. -/
theorem editFrom_cons {change : Place → List Node} {fuel : Nat} {parent : Branch}
    {before rest after : List Node} {node first : Node}
    (h : change ⟨parent, before, node :: rest⟩ = first :: after) :
    editFrom change (fuel + 1) ⟨parent, before, node :: rest⟩ =
      editFrom change fuel ⟨parent, editWithin change fuel first :: before, after⟩ := by
  simp only [editFrom, h]
  cases first <;> rfl

theorem notesFrom_cons {α : Type} {change : Place → List Node} {note : Place → List α} {fuel : Nat}
    {parent : Branch} {before rest after : List Node} {node first : Node}
    (h : change ⟨parent, before, node :: rest⟩ = first :: after) :
    notesFrom change note (fuel + 1) ⟨parent, before, node :: rest⟩ =
      note ⟨parent, before, node :: rest⟩ ++ (notesWithin change note fuel first ++
        notesFrom change note fuel ⟨parent, editWithin change fuel first :: before, after⟩) := by
  simp only [notesFrom, h]
  cases first <;> rfl

theorem edit_branch (change : Place → List Node) (head : Branch) (children : List Node) :
    edit change (.branch head children) =
      .branch head (editFrom change (visitBudget (.branch head children)) ⟨head, [], children⟩) := by
  simp only [edit, visit]
  rw [visitFrom_fst fun place state => ⟨state, rfl⟩]

/-- An edit is a visit without its notes. -/
theorem edit_eq_visit_noting {α : Type} (change : Place → List Node) (note : Place → List α)
    (tree : Node) : tree.edit change = (tree.visit (noting change note) []).1 := by
  cases tree with
  | leaf content => rfl
  | branch head children => rw [edit_branch, visit, visitFrom_noting]

/-! ### Two ways to carry a property through a visit -/

section Principles

variable {change : Place → List Node}

/-- A condition on siblings under their parent that every change keeps, that the children of a
sibling inherit, and that does not break when these children change and still satisfy it, holds
after a visit if it holds before. -/
theorem editFrom_fits {fits : Branch → List Node → Prop}
    (hchange : ∀ place : Place, fits place.parent place.siblings →
      fits place.parent (place.before.reverse ++ change place))
    (hinner : ∀ {parent head : Branch} {before children after : List Node},
      fits parent (before ++ .branch head children :: after) → fits head children)
    (hreplace : ∀ {parent head : Branch} {before children children' after : List Node},
      fits parent (before ++ .branch head children :: after) → fits head children' →
        fits parent (before ++ .branch head children' :: after))
    (fuel : Nat) (place : Place) (h : fits place.parent place.siblings) :
    fits place.parent (editFrom change fuel place) := by
  induction fuel generalizing place with
  | zero => exact h
  | succ fuel ih =>
      obtain ⟨parent, before, here⟩ := place
      cases here with
      | nil => simpa [editFrom, Place.siblings] using h
      | cons node rest =>
          have hchanged := hchange _ h
          simp only [editFrom]
          cases hc : change ⟨parent, before, node :: rest⟩ with
          | nil =>
              rw [hc] at hchanged
              simpa using hchanged
          | cons first after =>
              rw [hc] at hchanged
              simp only at hchanged
              cases first with
              | leaf content =>
                  exact ih ⟨parent, .leaf content :: before, after⟩
                    (by simpa [Place.siblings] using hchanged)
              | branch head children =>
                  have hchildren : fits head (editFrom change fuel ⟨head, [], children⟩) :=
                    ih ⟨head, [], children⟩ (hinner hchanged)
                  exact ih ⟨parent, .branch head _ :: before, after⟩
                    (by simpa [Place.siblings] using hreplace hchanged hchildren)

/-- A relation between siblings before and after that holds for every change holds for a visit, if
it is a preorder and goes up from children to their parents and from siblings to longer runs. -/
theorem editFrom_related (related : List Node → List Node → Prop)
    (hrefl : ∀ nodes, related nodes nodes)
    (htrans : ∀ {first second third}, related first second → related second third →
      related first third)
    (happend : ∀ {before after after' : List Node}, related after after' →
      related (before ++ after) (before ++ after'))
    (hbranch : ∀ {head : Branch} {children children' after : List Node},
      related children children' →
        related (.branch head children :: after) (.branch head children' :: after))
    (hchange : ∀ place : Place, related place.here (change place))
    (fuel : Nat) (place : Place) : related place.siblings (editFrom change fuel place) := by
  induction fuel generalizing place with
  | zero => exact hrefl _
  | succ fuel ih =>
      obtain ⟨parent, before, here⟩ := place
      cases here with
      | nil => simpa [editFrom, Place.siblings] using hrefl before.reverse
      | cons node rest =>
          have hchanged : related (before.reverse ++ node :: rest)
              (before.reverse ++ change ⟨parent, before, node :: rest⟩) :=
            happend (hchange ⟨parent, before, node :: rest⟩)
          simp only [editFrom, Place.siblings]
          cases hc : change ⟨parent, before, node :: rest⟩ with
          | nil =>
              rw [hc] at hchanged
              simpa using hchanged
          | cons first after =>
              rw [hc] at hchanged
              cases first with
              | leaf content =>
                  have hrest := ih ⟨parent, .leaf content :: before, after⟩
                  refine htrans hchanged ?_
                  simpa [Place.siblings] using hrest
              | branch head children =>
                  have hchildren := ih ⟨head, [], children⟩
                  have hrest := ih
                    ⟨parent, .branch head (editFrom change fuel ⟨head, [], children⟩) :: before, after⟩
                  have hinner : related (before.reverse ++ .branch head children :: after)
                      (before.reverse ++
                        .branch head (editFrom change fuel ⟨head, [], children⟩) :: after) :=
                    happend (hbranch hchildren)
                  refine htrans hchanged (htrans hinner ?_)
                  simpa [Place.siblings] using hrest

end Principles

end DefinitionLists.Node
