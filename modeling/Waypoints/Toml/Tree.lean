import Waypoints.Toml.Value
/-!
# The tables of a document while it is read

Headers and dotted keys may come back to a table that is already there, and how the table came to be
decides whether they may. A header may define a table that so far was only passed through on the way
to another one; a dotted key may add to a table that dotted keys made, and on its way there it may
pass through tables that headers only passed through, and through the last table of an array of
tables. Every other second definition is refused. `Tree.within`, `Tree.openTable`,
`Tree.openElement` and `Tree.assign` are the only changes; they go through `Tree.alter`, which keeps
the names of a table distinct.
-/

set_option autoImplicit false
set_option relaxedAutoImplicit false

namespace Waypoints.Toml

/-- How a table came to be. -/
inductive Origin
  /-- A header names it. -/
  | header
  /-- Headers only pass through it. -/
  | implied
  /-- Dotted keys made it. -/
  | dotted
  deriving DecidableEq, Repr

/-- What stands under a name. -/
inductive Node
  /-- A value as it is written. Nothing can be added to it. -/
  | value (v : Value)
  | table (origin : Origin) (entries : List (String × Node))
  /-- An array of tables that headers make, of which the last may still grow. -/
  | tables (earlier : List (List (String × Node))) (last : List (String × Node))

/-- The entries of an unfinished table, in the order in which they came. -/
abbrev Tree := List (String × Node)

/-- A key: the tables it passes through, and the name in the last of them. -/
structure Key where
  parents : List String
  name : String
  deriving DecidableEq, Repr

/-- All the names of a key. -/
def Key.path (key : Key) : List String :=
  key.parents ++ [key.name]

namespace Tree

/-- Changes what stands under a name, or puts something there, unless the change is refused. -/
def alter (name : String) (change : Option Node → Option Node) : Tree → Option Tree
  | [] => return [(name, ← change none)]
  | (key, node) :: rest => do
    if key = name then return (key, ← change (some node)) :: rest
    else return (key, node) :: (← alter name change rest)

/-- A change keeps the names and their order, and puts a new name behind them. -/
theorem names_alter {name : String} {change : Option Node → Option Node} {before after : Tree}
    (h : alter name change before = some after) :
    after.map (·.1) =
      if name ∈ before.map (·.1) then before.map (·.1) else before.map (·.1) ++ [name] := by
  induction before generalizing after with
  | nil =>
    obtain ⟨node, -, hafter⟩ := Option.bind_eq_some_iff.1 h
    obtain rfl := Option.some.inj hafter
    simp
  | cons entry rest ih =>
    obtain ⟨key, node⟩ := entry
    simp only [alter] at h
    split at h
    · next hkey =>
      obtain ⟨changed, -, hafter⟩ := Option.bind_eq_some_iff.1 h
      obtain rfl := Option.some.inj hafter
      simp [hkey]
    · next hkey =>
      obtain ⟨changed, hchanged, hafter⟩ := Option.bind_eq_some_iff.1 h
      obtain rfl := Option.some.inj hafter
      have hname : name ≠ key := Ne.symm hkey
      simp only [List.map_cons, ih hchanged, List.mem_cons, hname, false_or]
      split <;> rfl

/-- A change keeps the names distinct. -/
theorem distinct_alter {name : String} {change : Option Node → Option Node} {before after : Tree}
    (h : alter name change before = some after) (hbefore : (before.map (·.1)).Nodup) :
    (after.map (·.1)).Nodup := by
  rw [names_alter h]
  split
  · exact hbefore
  · next hname =>
    refine List.nodup_append.2 ⟨hbefore, by simp, fun a ha b hb ↦ ?_⟩
    obtain rfl := List.mem_singleton.1 hb
    exact fun heq ↦ hname (heq ▸ ha)

/-- Changes the table at the end of a path. Tables that are not there are made, and an array of
tables stands for its last one. -/
def within (path : List String) (change : Tree → Option Tree) : Tree → Option Tree :=
  match path with
  | [] => change
  | name :: path => alter name fun
    | none => (within path change []).map (.table .implied)
    | some (.table origin entries) => (within path change entries).map (.table origin)
    | some (.tables earlier last) => (within path change last).map (.tables earlier)
    | some (.value _) => none

/-- Opens the table that a header names, once. -/
def openTable (key : Key) : Tree → Option Tree :=
  within key.parents <| alter key.name fun
    | none => some (.table .header [])
    | some (.table .implied entries) => some (.table .header entries)
    | some _ => none

/-- Opens one more element of the array of tables that a header names. -/
def openElement (key : Key) : Tree → Option Tree :=
  within key.parents <| alter key.name fun
    | none => some (.tables [] [])
    | some (.tables earlier last) => some (.tables (earlier ++ [last]) [])
    | some _ => none

/-- Gives a value to a name that has none. The table that holds it must be the one assigned to, or
one that dotted keys made. -/
def assign (parents : List String) (name : String) (v : Value) : Tree → Option Tree :=
  match parents with
  | [] => alter name fun
    | none => some (.value v)
    | some _ => none
  | parent :: parents => alter parent fun
    | none => (assign parents name v []).map (.table .dotted)
    | some (.table .dotted entries) => (assign parents name v entries).map (.table .dotted)
    | some (.table .implied entries) =>
      if parents.isEmpty then none
      else (assign parents name v entries).map (.table .implied)
    | some (.tables earlier last) =>
      if parents.isEmpty then none
      else (assign parents name v last).map (.tables earlier)
    | some _ => none

end Tree

/-! ### Finished tables -/

mutual

/-- The value that stands under a name in the end. -/
def Node.toValue : Node → Value
  | .value v => v
  | .table _ entries => .table (Tree.toEntries entries)
  | .tables earlier last => .array (Tree.toTables earlier ++ [.table (Tree.toEntries last)])

/-- The entries of a finished table. -/
def Tree.toEntries : List (String × Node) → List (String × Value)
  | [] => []
  | (name, node) :: rest => (name, node.toValue) :: Tree.toEntries rest

/-- The elements of a finished array of tables. -/
def Tree.toTables : List (List (String × Node)) → List Value
  | [] => []
  | entries :: rest => .table (Tree.toEntries entries) :: Tree.toTables rest

end

end Waypoints.Toml
