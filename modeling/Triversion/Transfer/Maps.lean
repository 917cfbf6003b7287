import Triversion.Transfer.Journal

/-!
Which objects inside a written destination are maps.

An object is a map if the type accepts the whole with this object emptied, and writes it empty
again: a struct would come back with its fields.
-/

namespace Triversion

/-- The object at a route comes back empty from a round trip of the whole with it emptied. -/
def comesBackEmpty (roundTrip : Value → Option Value) (whole : Value) (path : Path) : Bool :=
  match roundTrip (Value.modifyAt path (fun _ => .object []) whole) with
  -- A type that refuses the emptied object needs its fields, so it is a struct.
  | none => false
  | some settled =>
    match Value.at? path settled with
    | some (.object []) => true
    | _ => false

/-- The entries of an object, each with its route. -/
def entriesAt (step : String → Segment) (path : Path) (fields : Fields) : List (Path × Value) :=
  fields.map fun entry => (path ++ [step entry.1], entry.2)

/-- The items of a sequence, each with its route. -/
def itemsAt (path : Path) (items : List Value) : List (Path × Value) :=
  items.zipIdx.map fun item => (path.index item.2, item.1)

/-- The number of values in all parts that are still to be visited. -/
def pendingSize : List (Path × Value) → Nat
  | [] => 0
  | part :: pending => part.2.size + pendingSize pending

@[simp] theorem pendingSize_append (first second : List (Path × Value)) :
    pendingSize (first ++ second) = pendingSize first + pendingSize second := by
  -- The parts are counted one by one, so joining two collections adds their counts.
  induction first with
  | nil => simp [pendingSize]
  | cons part rest ih => simp [pendingSize, ih, Nat.add_assoc]

/-- The entries of an object hold one value less than the object. -/
theorem pendingSize_entriesAt (step : String → Segment) (path : Path) (fields : Fields) :
    pendingSize (entriesAt step path fields) = Value.sizeFields fields := by
  -- Every entry contributes the size of its value, and its route contributes nothing.
  induction fields with
  | nil => rfl
  | cons entry rest ih =>
    obtain ⟨name, v⟩ := entry
    simp only [entriesAt, List.map_cons, pendingSize, Value.sizeFields] at ih ⊢
    rw [ih]

/-- The items of a sequence hold one value less than the sequence. -/
theorem pendingSize_itemsAt (path : Path) (items : List Value) :
    pendingSize (itemsAt path items) = Value.sizeItems items := by
  -- The positions do not matter for the sizes, so the induction is over any first position.
  have general : ∀ (items : List Value) (start : Nat),
      pendingSize ((items.zipIdx start).map fun item => (path.index item.2, item.1)) =
        Value.sizeItems items := by
    intro items
    induction items with
    | nil => intro start; rfl
    | cons v rest ih =>
      intro start
      simp [List.zipIdx_cons, pendingSize, Value.sizeItems, ih]
  exact general items 0

/-- The parts directly below a part, and the route of the part if it is a map. -/
def visit (roundTrip : Value → Option Value) (whole : Value) (path : Path) (v : Value) :
    List Path × List (Path × Value) :=
  match v with
  -- An object that is empty already could not come back any emptier, so it tells nothing.
  | .object [] => ([], [])
  | .object fields =>
    if comesBackEmpty roundTrip whole path then
      ([path.withoutPositions], entriesAt .key path fields)
    else ([], entriesAt .field path fields)
  | .array items => ([], itemsAt path items)
  | _ => ([], [])

/-- A visit leaves less to visit. -/
theorem pendingSize_visit (roundTrip : Value → Option Value) (whole : Value) (path : Path)
    (v : Value) : pendingSize (visit roundTrip whole path v).2 < v.size := by
  -- The parts below hold all values of the part but the part itself.
  unfold visit
  split
  · simp only [pendingSize, Value.size]; omega
  · split <;> simp only [pendingSize_entriesAt, Value.size] <;> omega
  · simp only [pendingSize_itemsAt, Value.size]; omega
  · cases v <;> simp only [pendingSize, Value.size] <;> omega

/-- The routes of all maps in the parts that are still to be visited. -/
def collectMaps (roundTrip : Value → Option Value) (whole : Value) :
    List (Path × Value) → List Path
  | [] => []
  | (path, v) :: pending =>
    -- What lies below the part is visited before the parts beside it.
    let found := visit roundTrip whole path v
    found.1 ++ collectMaps roundTrip whole (found.2 ++ pending)
termination_by pending => pendingSize pending
decreasing_by
  -- The visited part is replaced by parts that together hold less.
  have := pendingSize_visit roundTrip whole path v
  simp only [pendingSize_append, pendingSize]
  omega

/-- The routes, without positions, of all maps below the fields of a written destination. -/
def mapPaths (roundTrip : Value → Option Value) (fields : Fields) : List Path :=
  collectMaps roundTrip (.object fields) (entriesAt .field Path.root fields)

end Triversion
