import Waypoints.Proofs.Parsing.Nesting
/-!
# The forms of accepted nodes

The tree type has more trees than the grammar: comprehensions without clauses, comparisons without
links, ranges of any number of arguments, and names and variables of any spelling. `Expr.HasForm`
says what one node of the tree of a phrase looks like, given what the numbers among the tokens do,
and `Phrase.everywhere` that all nodes are of this form, by induction on the phrase.
-/

set_option autoImplicit false
set_option relaxedAutoImplicit false

namespace Waypoints

namespace Expr

/-- All nodes of a tree satisfy a predicate. -/
def Everywhere (P : Expr → Prop) (e : Expr) : Prop :=
  ∀ node, e.Contains node → P node

theorem everywhere_of_children {P : Expr → Prop} {e : Expr} (hnode : P e)
    (h : ∀ c ∈ e.children, c.Everywhere P) : e.Everywhere P := by
  intro node hcontains
  rcases contains_iff.1 hcontains with rfl | ⟨c, hc, hnode⟩
  · exact hnode
  · exact h c hc node hnode

/-- The form of a node that is written down: its parts are as many as the grammar has them, its
names are not taken for `range` and its variables not for any reserved name. The numbers satisfy a
predicate. -/
def HasForm (p : Float → Prop) : Expr → Prop
  | number value => p value
  | name word => word ≠ "range"
  | compare _ links => links ≠ []
  | comprehension _ clauses => clauses ≠ [] ∧ ∀ c ∈ clauses, c.loopVar ∉ reservedNames
  | range args => args ≠ [] ∧ args.length ≤ 3
  | _ => True

end Expr

open Waypoints.Expr (HasForm Everywhere everywhere_of_children)

section Phrases

variable {p : Float → Prop}

/-- The nodes in the trees of a symbol are of the form of nodes that are written down; for the rest
of a row, if those in what the row has joined so far are. -/
def FormsOf (p : Float → Prop) : (s : Symbol) → s.Tree → Prop
  | .expr, e => e.Everywhere (HasForm p)
  | .row _, e => e.Everywhere (HasForm p)
  | .rest _ lhs, e => lhs.Everywhere (HasForm p) → e.Everywhere (HasForm p)
  | .operand _, e => e.Everywhere (HasForm p)
  | .inversion, e => e.Everywhere (HasForm p)
  | .comparison, e => e.Everywhere (HasForm p)
  | .links, links => ∀ l ∈ links, l.operand.Everywhere (HasForm p)
  | .factor, e => e.Everywhere (HasForm p)
  | .atom, e => e.Everywhere (HasForm p)
  | .exprs, items => ∀ e ∈ items, e.Everywhere (HasForm p)
  | .clauses, clauses => ∀ c ∈ clauses,
    c.loopVar ∉ reservedNames ∧ ∀ e ∈ c.items :: c.filters, e.Everywhere (HasForm p)
  | .clause, c =>
    c.loopVar ∉ reservedNames ∧ ∀ e ∈ c.items :: c.filters, e.Everywhere (HasForm p)
  | .filters, filters => ∀ e ∈ filters, e.Everywhere (HasForm p)

theorem everywhere_unary {op : UnaryOp} {e : Expr} (h : e.Everywhere (HasForm p)) :
    (Expr.unary op e).Everywhere (HasForm p) :=
  everywhere_of_children trivial (List.forall_mem_singleton.2 h)

theorem everywhere_binary {op : BinaryOp} {lhs rhs : Expr} (hlhs : lhs.Everywhere (HasForm p))
    (hrhs : rhs.Everywhere (HasForm p)) : (Expr.binary op lhs rhs).Everywhere (HasForm p) :=
  everywhere_of_children trivial
    (List.forall_mem_cons.2 ⟨hlhs, List.forall_mem_singleton.2 hrhs⟩)

theorem everywhere_join {r : Row} {mark : Mark} {join : Expr → Expr → Expr} {lhs rhs : Expr}
    (hjoin : r.Joins mark join) (hlhs : lhs.Everywhere (HasForm p))
    (hrhs : rhs.Everywhere (HasForm p)) : (join lhs rhs).Everywhere (HasForm p) := by
  obtain ⟨hparts, hclauses⟩ := parts_join hjoin lhs rhs
  have hnode : HasForm p (join lhs rhs) := by
    cases hjoin <;> trivial
  refine everywhere_of_children hnode fun c hc ↦ ?_
  rw [Expr.children, hparts, hclauses] at hc
  simp only [List.append_nil, List.mem_cons, List.not_mem_nil, or_false] at hc
  rcases hc with rfl | rfl
  · exact hlhs
  · exact hrhs

/-- A node whose children are a row. -/
theorem everywhere_row {e : Expr} {items : List Expr} (hnode : HasForm p e)
    (hchildren : e.children = items) (h : ∀ item ∈ items, item.Everywhere (HasForm p)) :
    e.Everywhere (HasForm p) :=
  everywhere_of_children hnode (hchildren ▸ h)

theorem everywhere_compare {first : Expr} {links : List Link} (hne : links ≠ [])
    (hfirst : first.Everywhere (HasForm p))
    (hlinks : ∀ l ∈ links, l.operand.Everywhere (HasForm p)) :
    (Expr.compare first links).Everywhere (HasForm p) := by
  have hchildren : (Expr.compare first links).children = first :: links.map Link.operand :=
    List.append_nil _
  refine everywhere_row hne hchildren ?_
  refine List.forall_mem_cons.2 ⟨hfirst, fun c hc ↦ ?_⟩
  obtain ⟨l, hl, rfl⟩ := List.mem_map.1 hc
  exact hlinks l hl

theorem everywhere_comprehension {element : Expr} {clauses : List Clause} (hne : clauses ≠ [])
    (helement : element.Everywhere (HasForm p)) (hclauses : ∀ c ∈ clauses,
      c.loopVar ∉ reservedNames ∧ ∀ e ∈ c.items :: c.filters, e.Everywhere (HasForm p)) :
    (Expr.comprehension element clauses).Everywhere (HasForm p) := by
  refine everywhere_of_children ⟨hne, fun c hc ↦ (hclauses c hc).1⟩
    (List.forall_mem_cons.2 ⟨helement, fun e he ↦ ?_⟩)
  obtain ⟨c, hc, he⟩ := List.mem_flatMap.1 he
  exact (hclauses c hc).2 e he

/-- All nodes in the tree of a phrase are of the form of nodes that are written down, with the
numbers among its tokens. -/
theorem Phrase.everywhere {s : Symbol} {ts : List Token} {t : s.Tree} {n : Nat}
    (h : Phrase s ts t n) (hts : ∀ value, .number value ∈ ts → p value) : FormsOf p s t := by
  induction h with
  | plain _ ih => exact ih hts
  | conditional _ _ _ ihv ihc iho =>
    have hvalue := ihv fun x hx ↦ hts x (by simp [hx])
    have hcondition := ihc fun x hx ↦ hts x (by simp [hx])
    have hotherwise := iho fun x hx ↦ hts x (by simp [hx])
    exact everywhere_of_children trivial (List.forall_mem_cons.2 ⟨hvalue,
      List.forall_mem_cons.2 ⟨hcondition, List.forall_mem_singleton.2 hotherwise⟩⟩)
  | row _ _ ihf ihr =>
    exact ihr (fun x hx ↦ hts x (by simp [hx])) (ihf fun x hx ↦ hts x (by simp [hx]))
  | restNil => exact fun hlhs ↦ hlhs
  | restCons hjoin _ _ iho ihr =>
    have hrhs := iho fun x hx ↦ hts x (by simp [hx])
    exact fun hlhs ↦ ihr (fun x hx ↦ hts x (by simp [hx])) (everywhere_join hjoin hlhs hrhs)
  | conjunction _ ih => exact ih hts
  | inversion _ ih => exact ih hts
  | term _ ih => exact ih hts
  | factor _ ih => exact ih hts
  | not _ ih => exact everywhere_unary (ih fun x hx ↦ hts x (List.mem_cons_of_mem _ hx))
  | comparison _ ih => exact ih hts
  | sum _ ih => exact ih hts
  | compare _ _ ihf ihl =>
    exact everywhere_compare (List.cons_ne_nil _ _) (ihf fun x hx ↦ hts x (by simp [hx]))
      (ihl fun x hx ↦ hts x (by simp [hx]))
  | linksNil => exact List.forall_mem_nil _
  | linksCons _ _ _ iho ihm =>
    exact List.forall_mem_cons.2 ⟨iho fun x hx ↦ hts x (by simp [hx]),
      ihm fun x hx ↦ hts x (by simp [hx])⟩
  | sign _ _ ih => exact everywhere_unary (ih fun x hx ↦ hts x (List.mem_cons_of_mem _ hx))
  | atom _ ih => exact ih hts
  | power _ _ ihb ihe =>
    exact everywhere_binary (ihb fun x hx ↦ hts x (by simp [hx]))
      (ihe fun x hx ↦ hts x (by simp [hx]))
  | number => exact everywhere_of_children (hts _ List.mem_cons_self) (List.forall_mem_nil _)
  | name hword => exact everywhere_of_children hword (List.forall_mem_nil _)
  | range hargs harity ih =>
    exact everywhere_row ⟨hargs.exprs_ne_nil, harity⟩ (List.append_nil _)
      (ih fun x hx ↦ hts x (by simp [hx]))
  | unit => exact everywhere_of_children trivial (List.forall_mem_nil _)
  | group _ ih => exact ih fun x hx ↦ hts x (by simp [hx])
  | single _ ih =>
    exact everywhere_of_children trivial
      (List.forall_mem_singleton.2 (ih fun x hx ↦ hts x (by simp [hx])))
  | tuple _ _ ihe ihi =>
    have hitem := ihe fun x hx ↦ hts x (by simp [hx])
    have hitems := ihi fun x hx ↦ hts x (by simp [hx])
    exact everywhere_row trivial (List.append_nil _) (List.forall_mem_cons.2 ⟨hitem, hitems⟩)
  | empty => exact everywhere_of_children trivial (List.forall_mem_nil _)
  | list _ ih =>
    exact everywhere_row trivial (List.append_nil _) (ih fun x hx ↦ hts x (by simp [hx]))
  | comprehension _ _ ihe ihc =>
    exact everywhere_comprehension (List.cons_ne_nil _ _) (ihe fun x hx ↦ hts x (by simp [hx]))
      (ihc fun x hx ↦ hts x (by simp [hx]))
  | last _ ih => exact List.forall_mem_singleton.2 (ih hts)
  | trailing _ ih => exact List.forall_mem_singleton.2 (ih fun x hx ↦ hts x (by simp [hx]))
  | more _ _ ihe ihi =>
    exact List.forall_mem_cons.2 ⟨ihe fun x hx ↦ hts x (by simp [hx]),
      ihi fun x hx ↦ hts x (by simp [hx])⟩
  | clausesNil => exact List.forall_mem_nil _
  | clausesCons _ _ ihc ihm =>
    exact List.forall_mem_cons.2 ⟨ihc fun x hx ↦ hts x (by simp [hx]),
      ihm fun x hx ↦ hts x (by simp [hx])⟩
  | clause hvar _ _ ihi ihf =>
    exact ⟨hvar, List.forall_mem_cons.2 ⟨ihi fun x hx ↦ hts x (by simp [hx]),
      ihf fun x hx ↦ hts x (by simp [hx])⟩⟩
  | filtersNil => exact List.forall_mem_nil _
  | filtersCons _ _ ihc ihm =>
    exact List.forall_mem_cons.2 ⟨ihc fun x hx ↦ hts x (by simp [hx]),
      ihm fun x hx ↦ hts x (by simp [hx])⟩

end Phrases

end Waypoints
