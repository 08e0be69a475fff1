import TagPath.Path.Evaluation

/-! # What the walk keeps

The walk along a path keeps and leaves out matches while it is under way.  What it keeps
can be said in two parts: `selectionsFrom` lists all matches in document order, and
`keepUncovered` goes through such a list and leaves out what a place kept before covers.
The walk meets the matches in the order of the list, wherever it starts and whatever it has
kept by then (`collect_eq_foldl`), and putting them in one after the other leaves out what
`keepUncovered` leaves out (`foldl_insertUncovered`).  So **a path yields what is kept of
all its matches** (`Path.evaluate_eq_keepUncovered`).
-/
namespace TagPath

/-- The matches of some steps at and below a node, addresses counted from it. -/
def selectionsFrom : List Step → Node → List Place
  | [], _ => []
  | step :: rest, node =>
    if step.admits node then
      if step.isText || rest.isEmpty then [Place.root node]
      else node.children.zipIdx.flatMap fun entry =>
        (selectionsFrom rest entry.1).map (Place.below entry.2)
    else []

/-- Keeps the places, from left to right, that no place kept before covers. -/
def keepUncovered (places : List Place) : List Place :=
  places.eraseDupsBy fun place kept => kept.node.covers place.node

/-- All matches of a path in a tree, in document order. -/
def Path.selections (path : Path) (root : Node) : List Place := selectionsFrom path.steps root

/-- The same place, seen from a node that leads to the root by `address`. -/
def Place.under (address : Address) (place : Place) : Place :=
  ⟨address ++ place.address, place.node⟩

theorem Place.under_nil (place : Place) : place.under [] = place := rfl

theorem Place.under_root (address : Address) (node : Node) :
    (Place.root node).under address = ⟨address, node⟩ := by
  simp [under, root]

/-- A place below a child, seen through the child's address. -/
theorem Place.under_below (place inner : Place) (index : Nat) (child : Node) :
    (inner.below index).under place.address = inner.under (place.descend index child).address := by
  simp [under, below, descend]

/-! ## What is kept of a list -/

@[simp] theorem keepUncovered_nil : keepUncovered [] = [] := by simp [keepUncovered]

/-- The first place is kept, and what it covers goes. -/
theorem keepUncovered_cons (place : Place) (rest : List Place) :
    keepUncovered (place :: rest) =
      place :: keepUncovered (rest.filter fun other => !place.node.covers other.node) := by
  unfold keepUncovered
  rw [List.eraseDupsBy_cons]
  congr 3
  funext other
  cases place.node.covers other.node <;> rfl

/-- Places put in one after the other: behind those kept before stands what is kept of the
places that none of these covers. -/
theorem foldl_insertUncovered (kept places : List Place) :
    places.foldl insertUncovered kept =
      kept ++ keepUncovered (places.filter fun place =>
        !kept.any (·.node.covers place.node)) := by
  induction places generalizing kept with
  | nil => simp
  | cons place rest ih =>
    rw [List.foldl_cons, ih, insertUncovered]
    cases hc : kept.any (·.node.covers place.node) with
    | true => simp [hc]
    | false => simp [hc, keepUncovered_cons, List.filter_filter, Bool.and_comm]

/-! ## The walk -/

/-- **The walk puts in the matches in document order**, behind what it kept before. -/
theorem collect_eq_foldl (steps : List Step) (place : Place) (kept : List Place) :
    collect steps place kept =
      ((selectionsFrom steps place.node).map (Place.under place.address)).foldl
        insertUncovered kept := by
  induction steps generalizing place kept with
  | nil => rfl
  | cons step rest ih =>
    rw [collect, selectionsFrom]
    split
    · split
      · rw [List.map_singleton, Place.under_root]
        rfl
      · -- child by child, the walk goes on with what is kept so far
        simp only [Place.children, List.foldl_map, List.map_flatMap, List.foldl_flatMap]
        congr 1
        funext kept entry
        rw [ih, List.foldl_map]
        simp only [Place.under_below place _ entry.2 entry.1]
        rfl
    · rfl

/-- **A path yields what is kept of all its matches.** -/
theorem Path.evaluate_eq_keepUncovered (path : Path) (root : Node) :
    path.evaluate root = keepUncovered (path.selections root) := by
  have hroot : ∀ place, Place.under (Place.root root).address place = place := Place.under_nil
  have hall : (path.selections root).filter (fun place =>
      !([] : List Place).any (·.node.covers place.node)) = path.selections root := by
    simp
  rw [evaluate, collect_eq_foldl, List.map_id'' hroot, foldl_insertUncovered]
  exact congrArg keepUncovered hall

end TagPath
