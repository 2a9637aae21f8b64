import Mathlib.Algebra.GroupWithZero.Nat
import Mathlib.Algebra.Order.BigOperators.Group.List
import Mathlib.Algebra.Order.Group.Nat
import Mathlib.Data.List.MinMax
import Mathlib.Logic.Relation
import Mathlib.Order.Nat
import Waypoints.Expr.Basic
/-!
# Trees of expressions

The children of an expression are its `parts` (operands, items, branches, elements) and its
`clauseParts` (what the clauses of a comprehension run over, and their conditions). From them `size`
counts the nodes of a tree, `depth` the nodes on its longest branch, and `clauseNesting` the steps
into a clause on one branch; `Contains` relates a tree to its nodes. `Expr.induct` is induction over
trees with the rows of a node given by membership.
-/

set_option autoImplicit false
set_option relaxedAutoImplicit false

namespace Waypoints

/-- The operand of a link. -/
def Link.operand : Link → Expr
  | mk _ operand => operand

namespace Clause

/-- The variable that a clause binds. -/
def loopVar : Clause → String
  | mk loopVar _ _ => loopVar

/-- What a clause runs over. -/
def items : Clause → Expr
  | mk _ items _ => items

/-- The conditions of a clause. -/
def filters : Clause → List Expr
  | mk _ _ filters => filters

end Clause

namespace Expr

/-! ### Induction -/

/-- Induction over trees. Assumes: for each kind of node, the property of the node from the property
of its children. -/
@[elab_as_elim, induction_eliminator]
theorem induct {motive : Expr → Prop} (number : ∀ value, motive (number value))
    (name : ∀ word, motive (name word))
    (unary : ∀ op operand, motive operand → motive (unary op operand))
    (binary : ∀ op lhs rhs, motive lhs → motive rhs → motive (binary op lhs rhs))
    (compare : ∀ first links, motive first → (∀ l ∈ links, motive l.operand) →
      motive (compare first links))
    (logic : ∀ op lhs rhs, motive lhs → motive rhs → motive (logic op lhs rhs))
    (conditional : ∀ value condition otherwise, motive value → motive condition →
      motive otherwise → motive (conditional value condition otherwise))
    (tuple : ∀ items, (∀ e ∈ items, motive e) → motive (tuple items))
    (list : ∀ items, (∀ e ∈ items, motive e) → motive (list items))
    (comprehension : ∀ element clauses, motive element →
      (∀ c ∈ clauses, motive c.items ∧ ∀ e ∈ c.filters, motive e) →
      motive (comprehension element clauses))
    (range : ∀ args, (∀ e ∈ args, motive e) → motive (range args)) (e : Expr) : motive e :=
  @Expr.rec motive (fun l ↦ motive l.operand)
    (fun c ↦ motive c.items ∧ ∀ e ∈ c.filters, motive e) (fun links ↦ ∀ l ∈ links, motive l.operand)
    (fun items ↦ ∀ e ∈ items, motive e)
    (fun clauses ↦ ∀ c ∈ clauses, motive c.items ∧ ∀ e ∈ c.filters, motive e)
    number name unary binary compare logic conditional tuple list comprehension range
    (fun _ _ h ↦ h) (fun _ _ _ hitems hfilters ↦ ⟨hitems, hfilters⟩)
    (by simp) (fun _ _ h ht ↦ List.forall_mem_cons.2 ⟨h, ht⟩)
    (by simp) (fun _ _ h ht ↦ List.forall_mem_cons.2 ⟨h, ht⟩)
    (by simp) (fun _ _ h ht ↦ List.forall_mem_cons.2 ⟨h, ht⟩) e

/-! ### Children -/

/-- The operands, items, branches or element of a node. -/
def parts : Expr → List Expr
  | number _ => []
  | name _ => []
  | unary _ operand => [operand]
  | binary _ lhs rhs => [lhs, rhs]
  | compare first links => first :: links.map Link.operand
  | logic _ lhs rhs => [lhs, rhs]
  | conditional value condition otherwise => [value, condition, otherwise]
  | tuple items => items
  | list items => items
  | comprehension element _ => [element]
  | range args => args

/-- What the clauses of a comprehension run over, and their conditions. -/
def clauseParts : Expr → List Expr
  | comprehension _ clauses => clauses.flatMap fun c ↦ c.items :: c.filters
  | _ => []

/-- All children of a node. -/
def children (e : Expr) : List Expr :=
  e.parts ++ e.clauseParts

theorem sizeOf_operand_lt (l : Link) : sizeOf l.operand < sizeOf l := by
  cases l
  simp only [Link.operand, Link.mk.sizeOf_spec]
  omega

theorem sizeOf_lt_of_mem_clause {c : Clause} {e : Expr} (h : e ∈ c.items :: c.filters) :
    sizeOf e < sizeOf c := by
  obtain ⟨loopVar, items, filters⟩ := c
  simp only [Clause.items, Clause.filters, List.mem_cons] at h
  simp only [Clause.mk.sizeOf_spec]
  rcases h with rfl | h
  · omega
  · have := List.sizeOf_lt_of_mem h
    omega

theorem sizeOf_lt_of_mem_parts {c e : Expr} (h : c ∈ e.parts) : sizeOf c < sizeOf e := by
  cases e with
  | number value => cases h
  | name word => cases h
  | unary op operand =>
    obtain rfl := List.mem_singleton.1 h
    rw [unary.sizeOf_spec]
    omega
  | binary op lhs rhs =>
    simp only [parts, List.mem_cons, List.not_mem_nil, or_false] at h
    rw [binary.sizeOf_spec]
    rcases h with rfl | rfl <;> omega
  | compare first links =>
    rw [compare.sizeOf_spec]
    rcases List.mem_cons.1 h with rfl | h
    · omega
    · obtain ⟨l, hl, rfl⟩ := List.mem_map.1 h
      have hoperand := sizeOf_operand_lt l
      have hlink := List.sizeOf_lt_of_mem hl
      omega
  | logic op lhs rhs =>
    simp only [parts, List.mem_cons, List.not_mem_nil, or_false] at h
    rw [logic.sizeOf_spec]
    rcases h with rfl | rfl <;> omega
  | conditional value condition otherwise =>
    simp only [parts, List.mem_cons, List.not_mem_nil, or_false] at h
    rw [conditional.sizeOf_spec]
    rcases h with rfl | rfl | rfl <;> omega
  | tuple items =>
    have hitem := List.sizeOf_lt_of_mem (show c ∈ items from h)
    rw [tuple.sizeOf_spec]
    omega
  | list items =>
    have hitem := List.sizeOf_lt_of_mem (show c ∈ items from h)
    rw [list.sizeOf_spec]
    omega
  | comprehension element clauses =>
    obtain rfl := List.mem_singleton.1 h
    rw [comprehension.sizeOf_spec]
    omega
  | range args =>
    have harg := List.sizeOf_lt_of_mem (show c ∈ args from h)
    rw [range.sizeOf_spec]
    omega

theorem sizeOf_lt_of_mem_clauseParts {c e : Expr} (h : c ∈ e.clauseParts) :
    sizeOf c < sizeOf e := by
  cases e with
  | comprehension element clauses =>
    obtain ⟨clause, hclause, hc⟩ := List.mem_flatMap.1 h
    have hpart := sizeOf_lt_of_mem_clause hc
    have hrow := List.sizeOf_lt_of_mem hclause
    rw [comprehension.sizeOf_spec]
    omega
  | _ => cases h

/-- A child is smaller than its node. -/
theorem sizeOf_lt_of_mem_children {c e : Expr} (h : c ∈ e.children) : sizeOf c < sizeOf e := by
  rcases List.mem_append.1 h with h | h
  · exact sizeOf_lt_of_mem_parts h
  · exact sizeOf_lt_of_mem_clauseParts h

theorem mem_children_of_mem_parts {c e : Expr} (h : c ∈ e.parts) : c ∈ e.children :=
  List.mem_append_left _ h

theorem mem_children_of_mem_clauseParts {c e : Expr} (h : c ∈ e.clauseParts) : c ∈ e.children :=
  List.mem_append_right _ h

/-! ### Nodes -/

/-- An expression is a node of a tree. -/
def Contains : Expr → Expr → Prop :=
  Relation.ReflTransGen fun e c ↦ c ∈ e.children

theorem contains_iff {e node : Expr} :
    e.Contains node ↔ e = node ∨ ∃ c ∈ e.children, c.Contains node := by
  constructor
  · intro h
    rcases Relation.ReflTransGen.cases_head h with rfl | ⟨c, hc, hnode⟩
    · exact .inl rfl
    · exact .inr ⟨c, hc, hnode⟩
  · rintro (rfl | ⟨c, hc, hnode⟩)
    · exact .refl
    · exact .head hc hnode

/-! ### Measures -/

/-- The number of nodes of a tree. -/
def size (e : Expr) : Nat :=
  (e.children.attach.map fun c ↦ size c.1).sum + 1
termination_by e
decreasing_by exact sizeOf_lt_of_mem_children c.2

/-- The number of nodes on the longest branch of a tree. -/
def depth (e : Expr) : Nat :=
  (e.children.attach.map fun c ↦ depth c.1).foldr max 0 + 1
termination_by e
decreasing_by exact sizeOf_lt_of_mem_children c.2

/-- The greatest number of steps into a clause on one branch of a tree. -/
def clauseNesting (e : Expr) : Nat :=
  max ((e.parts.attach.map fun c ↦ clauseNesting c.1).foldr max 0)
    ((e.clauseParts.attach.map fun c ↦ clauseNesting c.1 + 1).foldr max 0)
termination_by e
decreasing_by
  · exact sizeOf_lt_of_mem_children (mem_children_of_mem_parts c.2)
  · exact sizeOf_lt_of_mem_children (mem_children_of_mem_clauseParts c.2)

theorem size_eq (e : Expr) : e.size = (e.children.map size).sum + 1 := by
  rw [size]
  simp

theorem depth_eq (e : Expr) : e.depth = (e.children.map depth).foldr max 0 + 1 := by
  rw [depth]
  simp

theorem clauseNesting_eq (e : Expr) : e.clauseNesting =
    max ((e.parts.map clauseNesting).foldr max 0)
      ((e.clauseParts.map fun c ↦ c.clauseNesting + 1).foldr max 0) := by
  rw [clauseNesting]
  simp

theorem size_name (word : String) : (name word).size = 1 := by
  rw [size_eq]
  rfl

theorem size_tuple (items : List Expr) : (tuple items).size = (items.map size).sum + 1 := by
  rw [size_eq]
  simp [children, parts, clauseParts]

theorem size_list (items : List Expr) : (list items).size = (items.map size).sum + 1 := by
  rw [size_eq]
  simp [children, parts, clauseParts]

theorem one_le_size (e : Expr) : 1 ≤ e.size := by
  rw [size_eq]
  exact Nat.succ_le_succ (Nat.zero_le _)

theorem size_lt_of_mem_children {c e : Expr} (h : c ∈ e.children) : c.size < e.size := by
  rw [e.size_eq]
  exact Nat.lt_succ_of_le (List.le_sum_of_mem (List.mem_map_of_mem h))

theorem depth_lt_of_mem_children {c e : Expr} (h : c ∈ e.children) : c.depth < e.depth := by
  rw [e.depth_eq]
  exact Nat.lt_succ_of_le (List.le_max_of_le (List.mem_map_of_mem h) le_rfl)

theorem depth_le_succ {e : Expr} {m : Nat} (h : ∀ c ∈ e.children, c.depth ≤ m) :
    e.depth ≤ m + 1 := by
  rw [e.depth_eq]
  refine Nat.succ_le_succ (List.max_le_of_forall_le _ _ fun n hn ↦ ?_)
  obtain ⟨c, hc, rfl⟩ := List.mem_map.1 hn
  exact h c hc

theorem clauseNesting_le_of_mem_parts {c e : Expr} (h : c ∈ e.parts) :
    c.clauseNesting ≤ e.clauseNesting := by
  rw [e.clauseNesting_eq]
  exact (List.le_max_of_le (List.mem_map_of_mem h) le_rfl).trans (le_max_left _ _)

theorem clauseNesting_lt_of_mem_clauseParts {c e : Expr} (h : c ∈ e.clauseParts) :
    c.clauseNesting < e.clauseNesting := by
  rw [e.clauseNesting_eq]
  have hmem : c.clauseNesting + 1 ∈ e.clauseParts.map fun c ↦ c.clauseNesting + 1 :=
    List.mem_map_of_mem h
  exact (List.le_max_of_le hmem le_rfl).trans (le_max_right _ _)

/-- A step into a clause is a step down a branch. -/
theorem clauseNesting_lt_depth (e : Expr) : e.clauseNesting < e.depth := by
  have hchild (c : Expr) (hc : c ∈ e.children) : c.clauseNesting + 1 < e.depth :=
    Nat.lt_of_le_of_lt (Nat.succ_le_of_lt (clauseNesting_lt_depth c)) (depth_lt_of_mem_children hc)
  have hpos : 0 < e.depth := by
    rw [e.depth_eq]
    exact Nat.succ_pos _
  have hle : e.clauseNesting ≤ e.depth - 1 := by
    rw [e.clauseNesting_eq]
    refine max_le (List.max_le_of_forall_le _ _ fun n hn ↦ ?_)
      (List.max_le_of_forall_le _ _ fun n hn ↦ ?_)
    · obtain ⟨c, hc, rfl⟩ := List.mem_map.1 hn
      have := hchild c (mem_children_of_mem_parts hc)
      omega
    · obtain ⟨c, hc, rfl⟩ := List.mem_map.1 hn
      have := hchild c (mem_children_of_mem_clauseParts hc)
      omega
  omega
termination_by e
decreasing_by exact sizeOf_lt_of_mem_children hc

end Expr

end Waypoints
