import Waypoints.Proofs.Evaluation.Related
/-!
# The shapes of results

`Value.HasShape` says which paths a value is, by the three shapes that a result may have: a
coordinate, a row of coordinates, or a row of rows of coordinates, where a row is a tuple or a list
with at least one item. No value has two shapes (`HasShape.unique`), and `Value.toPaths?` reads
exactly the values that have one. The waypoints of the paths are the numbers of the value from left
to right, and rows of rows of waypoints are read back from their rendering (`toPaths?_exact`).
-/

set_option autoImplicit false
set_option relaxedAutoImplicit false

theorem List.mapM_eq_some_iff {α β : Type} {f : α → Option β} {as : List α} {bs : List β} :
    as.mapM f = some bs ↔ List.Forall₂ (fun a b ↦ f a = some b) as bs := by
  induction as generalizing bs with
  | nil =>
    rw [List.mapM_nil, List.forall₂_nil_left_iff]
    exact Option.some_inj.trans eq_comm
  | cons a as ih =>
    simp only [List.mapM_cons, Option.bind_eq_bind, Option.bind_eq_some_iff, ih,
      List.forall₂_cons_left_iff]
    constructor
    · rintro ⟨b, hb, rest, hrest, h⟩
      exact ⟨b, rest, hb, hrest, (Option.some.inj h).symm⟩
    · rintro ⟨b, rest, hb, hrest, rfl⟩
      exact ⟨b, hb, rest, hrest, rfl⟩

namespace Waypoints

/-- The components of a point. -/
def Point.components (p : Point) : List Float :=
  [p.x, p.y]

namespace Value

/-! ### Rows -/

/-- A tuple or a list of these items. -/
def IsSequence (v : Value) (items : List Value) : Prop :=
  v = .tuple items ∨ v = .list items

/-- A tuple or a list of at least one item, each of which is read as something. -/
def IsRow {α : Type} (reads : Value → α → Prop) (v : Value) (as : List α) : Prop :=
  ∃ items, v.IsSequence items ∧ items ≠ [] ∧ List.Forall₂ reads items as

theorem items?_eq_some_iff {v : Value} {items : List Value} :
    v.items? = some items ↔ v.IsSequence items := by
  cases v <;> simp [items?, IsSequence]

section Rows

variable {α β : Type} {v : Value} {items items' : List Value} {reads : Value → α → Prop}
  {as bs : List α}

theorem IsSequence.unique (h : v.IsSequence items) (h' : v.IsSequence items') : items = items' :=
  Option.some.inj ((items?_eq_some_iff.2 h).symm.trans (items?_eq_some_iff.2 h'))

theorem IsSequence.numbers_eq (h : v.IsSequence items) : v.numbers = allNumbers items := by
  rcases h with rfl | rfl <;> rfl

theorem not_isSequence_number (x : Float) : ¬(number x).IsSequence items := by
  rintro (h | h) <;> cases h

theorem IsRow.ne_nil (h : IsRow reads v as) : as ≠ [] := by
  obtain ⟨items, -, hne, hall⟩ := h
  rintro rfl
  exact hne (List.forall₂_nil_right_iff.1 hall)

/-- A value is a row of things of two kinds only if some value is of both kinds. -/
theorem IsRow.exists_both {reads' : Value → β → Prop} {cs : List β} (h : IsRow reads v as)
    (h' : IsRow reads' v cs) : ∃ item a c, reads item a ∧ reads' item c := by
  obtain ⟨items, hitems, hne, hall⟩ := h
  obtain ⟨items', hitems', -, hall'⟩ := h'
  obtain rfl := hitems.unique hitems'
  cases hall with
  | nil => exact absurd rfl hne
  | cons ha _ =>
    cases hall' with
    | cons hc _ => exact ⟨_, _, _, ha, hc⟩

/-- A row is read in one way if its items are. -/
theorem IsRow.unique (hreads : Relator.RightUnique reads) (h : IsRow reads v as)
    (h' : IsRow reads v bs) : as = bs := by
  obtain ⟨items, hitems, -, hall⟩ := h
  obtain ⟨items', hitems', -, hall'⟩ := h'
  obtain rfl := hitems.unique hitems'
  exact List.right_unique_forall₂' hreads hall hall'

theorem IsRow.exists_of_mem {a : α} (h : IsRow reads v as) (ha : a ∈ as) :
    ∃ item, reads item a := by
  obtain ⟨items, -, -, hall⟩ := h
  induction hall with
  | nil => cases ha
  | cons hread _ ih =>
    rcases List.mem_cons.1 ha with rfl | ha
    · exact ⟨_, hread⟩
    · exact ih ha

/-- The numbers of a row are those of its items, in their order. -/
theorem IsRow.numbers_eq {f : α → List Float} (hreads : ∀ item a, reads item a → f a = item.numbers)
    (h : IsRow reads v as) : as.flatMap f = v.numbers := by
  obtain ⟨items, hitems, -, hall⟩ := h
  rw [hitems.numbers_eq]
  clear hitems
  induction hall with
  | nil => rfl
  | cons ha _ ih => rw [List.flatMap_cons, hreads _ _ ha, ih, allNumbers]

end Rows

/-! ### Shapes -/

/-- A tuple or a list of two numbers. -/
def IsPoint (v : Value) (p : Point) : Prop :=
  v.IsSequence [.number p.x, .number p.y]

/-- A tuple or a list of coordinates, at least one. -/
def IsPath : Value → Path → Prop :=
  IsRow IsPoint

/-- A tuple or a list of rows of coordinates, at least one. -/
def IsPaths : Value → List Path → Prop :=
  IsRow IsPath

/-- The three shapes of a result. -/
inductive Shape
  | point
  | path
  | paths
  deriving DecidableEq, Repr

/-- A value has a shape, and is these paths. -/
inductive HasShape (v : Value) : Shape → List Path → Prop
  | point {p : Point} : v.IsPoint p → HasShape v .point [[p]]
  | path {path : Path} : v.IsPath path → HasShape v .path [path]
  | paths {paths : List Path} : v.IsPaths paths → HasShape v .paths paths

section Shapes

variable {v : Value} {p : Point} {path : Path} {paths : List Path}

theorem rightUnique_isPoint : Relator.RightUnique IsPoint := by
  rintro v ⟨x, y⟩ ⟨x', y'⟩ h h'
  simpa using h.unique h'

theorem rightUnique_isPath : Relator.RightUnique IsPath :=
  fun _ _ _ ↦ IsRow.unique rightUnique_isPoint

/-- The items of a coordinate are numbers, and no sequences. -/
theorem IsPoint.not_isRow {α : Type} {reads : Value → α → Prop} {as : List α} (h : v.IsPoint p)
    (hreads : ∀ item a, reads item a → ∃ items, item.IsSequence items) : ¬IsRow reads v as := by
  rintro ⟨items, hitems, -, hall⟩
  obtain rfl := IsSequence.unique h hitems
  cases hall with
  | cons hx _ =>
    obtain ⟨items, hx⟩ := hreads _ _ hx
    exact not_isSequence_number _ hx

theorem IsPoint.not_isPath (h : v.IsPoint p) : ¬v.IsPath path :=
  h.not_isRow fun _ _ hpoint ↦ ⟨_, hpoint⟩

theorem IsPoint.not_isPaths (h : v.IsPoint p) : ¬v.IsPaths paths :=
  h.not_isRow fun _ _ ⟨items, hitems, _⟩ ↦ ⟨items, hitems⟩

/-- The items of a path are coordinates, and no paths. -/
theorem IsPath.not_isPaths (h : v.IsPath path) : ¬v.IsPaths paths := by
  intro h'
  obtain ⟨item, p, path, hpoint, hpath⟩ := h.exists_both h'
  exact IsPoint.not_isPath hpoint hpath

/-- A value has one shape at most, and is the same paths by it. -/
theorem HasShape.unique {s s' : Shape} {paths' : List Path} (h : v.HasShape s paths)
    (h' : v.HasShape s' paths') : s = s' ∧ paths = paths' := by
  cases h with
  | point h =>
    cases h' with
    | point h' => exact ⟨rfl, by rw [rightUnique_isPoint h h']⟩
    | path h' => exact absurd h' h.not_isPath
    | paths h' => exact absurd h' h.not_isPaths
  | path h =>
    cases h' with
    | point h' => exact absurd h h'.not_isPath
    | path h' => exact ⟨rfl, by rw [rightUnique_isPath h h']⟩
    | paths h' => exact absurd h' h.not_isPaths
  | paths h =>
    cases h' with
    | point h' => exact absurd h h'.not_isPaths
    | path h' => exact absurd h h'.not_isPaths
    | paths h' => exact ⟨rfl, h.unique rightUnique_isPath h'⟩

/-! ### What the paths are -/

/-- A value with a shape is at least one path, each of at least one waypoint. -/
theorem HasShape.ne_nil {s : Shape} (h : v.HasShape s paths) : paths ≠ [] ∧ [] ∉ paths := by
  cases h with
  | point h => simp
  | path h => simpa using h.ne_nil.symm
  | paths h =>
    refine ⟨h.ne_nil, fun hnil ↦ ?_⟩
    obtain ⟨item, hpath⟩ := h.exists_of_mem hnil
    exact hpath.ne_nil rfl

theorem IsPoint.numbers_eq (h : v.IsPoint p) : p.components = v.numbers :=
  (IsSequence.numbers_eq h).symm

theorem IsPath.numbers_eq (h : v.IsPath path) : path.flatMap Point.components = v.numbers :=
  IsRow.numbers_eq (fun _ _ hp ↦ hp.numbers_eq) h

/-- The waypoints of the paths are the numbers of the value, from left to right. -/
theorem HasShape.numbers_eq {s : Shape} (h : v.HasShape s paths) :
    paths.flatten.flatMap Point.components = v.numbers := by
  cases h with
  | point h => simpa using h.numbers_eq
  | path h => simpa using h.numbers_eq
  | paths h =>
    rw [List.flatten_eq_flatMap, List.flatMap_assoc]
    exact IsRow.numbers_eq (fun _ _ hpath ↦ hpath.numbers_eq) h

/-! ### Reading -/

theorem toPoint?_eq_some_iff : v.toPoint? = some p ↔ v.IsPoint p := by
  obtain ⟨x, y⟩ := p
  unfold toPoint? IsPoint
  rw [← items?_eq_some_iff]
  split
  · next hitems => simp [hitems]
  · next hne => exact iff_of_false nofun (hne x y)

theorem pathOf?_eq_some_iff {items : List Value} :
    pathOf? items = some path ↔ items ≠ [] ∧ List.Forall₂ IsPoint items path := by
  have hmapM : items.mapM toPoint? = some path ↔ List.Forall₂ IsPoint items path := by
    simp only [List.mapM_eq_some_iff, toPoint?_eq_some_iff]
  rw [← hmapM]
  cases items with
  | nil => simp [pathOf?]
  | cons item items => exact (and_iff_right (List.cons_ne_nil _ _)).symm

theorem bind_pathOf?_eq_some_iff : v.items? >>= pathOf? = some path ↔ v.IsPath path := by
  simp only [Option.bind_eq_bind, Option.bind_eq_some_iff, items?_eq_some_iff, pathOf?_eq_some_iff]
  rfl

theorem HasShape.toPaths? {s : Shape} (h : v.HasShape s paths) : v.toPaths? = some paths := by
  unfold Value.toPaths?
  cases h with
  | point h => rw [toPoint?_eq_some_iff.2 h]
  | path h =>
    have hpoint : v.toPoint? = none := Option.eq_none_iff_forall_ne_some.2
      fun p hp ↦ (toPoint?_eq_some_iff.1 hp).not_isPath h
    obtain ⟨items, hitems, hne, hall⟩ := h
    rw [hpoint, items?_eq_some_iff.2 hitems]
    dsimp only [Option.bind_eq_bind, Option.bind_some]
    rw [pathOf?_eq_some_iff.2 ⟨hne, hall⟩]
    rfl
  | paths h =>
    have hpoint : v.toPoint? = none := Option.eq_none_iff_forall_ne_some.2
      fun p hp ↦ (toPoint?_eq_some_iff.1 hp).not_isPaths h
    have hpath : v.items? >>= pathOf? = none := Option.eq_none_iff_forall_ne_some.2
      fun path hpath ↦ (bind_pathOf?_eq_some_iff.1 hpath).not_isPaths h
    obtain ⟨items, hitems, hne, hall⟩ := h
    have hrows : items.mapM (fun item ↦ item.items? >>= pathOf?) = some paths :=
      List.mapM_eq_some_iff.2 (hall.imp fun _ _ ↦ bind_pathOf?_eq_some_iff.2)
    rw [items?_eq_some_iff.2 hitems] at hpath
    change pathOf? items = none at hpath
    rw [hpoint, items?_eq_some_iff.2 hitems]
    dsimp only [Option.bind_eq_bind, Option.bind_some]
    rw [hpath]
    dsimp only
    rw [if_neg (by simpa using hne)]
    exact hrows

theorem exists_hasShape_of_toPaths? (h : v.toPaths? = some paths) : ∃ s, v.HasShape s paths := by
  unfold Value.toPaths? at h
  split at h
  · next p hp =>
    obtain rfl := Option.some.inj h
    exact ⟨.point, .point (toPoint?_eq_some_iff.1 hp)⟩
  · obtain ⟨items, hitems, h⟩ := Option.bind_eq_some_iff.1 h
    have hsequence := items?_eq_some_iff.1 hitems
    split at h
    · next path hpath =>
      obtain rfl := Option.some.inj h
      exact ⟨.path, .path ⟨items, hsequence, pathOf?_eq_some_iff.1 hpath⟩⟩
    · split at h
      · cases h
      · next hne =>
        have hrows := (List.mapM_eq_some_iff.1 h).imp fun _ _ ↦ bind_pathOf?_eq_some_iff.1
        exact ⟨.paths, .paths ⟨items, hsequence, by simpa using hne, hrows⟩⟩

/-- A value is read as paths if it has a shape, and as the paths that it is by this shape. -/
theorem toPaths?_eq_some_iff : v.toPaths? = some paths ↔ ∃ s, v.HasShape s paths :=
  ⟨exists_hasShape_of_toPaths?, fun ⟨_, h⟩ ↦ h.toPaths?⟩

end Shapes

/-! ### Rendering -/

/-- A point as a tuple of its components. -/
def ofPoint (p : Point) : Value :=
  .tuple [.number p.x, .number p.y]

/-- Paths as a list of lists of coordinates. -/
def ofPaths (paths : List Path) : Value :=
  .list (paths.map fun path ↦ .list (path.map ofPoint))

theorem isPath_ofPath {path : Path} (h : path ≠ []) : (list (path.map ofPoint)).IsPath path :=
  ⟨_, .inr rfl, by simpa using h,
    List.forall₂_map_left_iff.2 (List.forall₂_same.2 fun _ _ ↦ .inl rfl)⟩

theorem hasShape_ofPaths {paths : List Path} (h : paths ≠ []) (hpaths : [] ∉ paths) :
    (ofPaths paths).HasShape .paths paths := by
  refine .paths ⟨_, .inr rfl, by simpa using h, ?_⟩
  refine List.forall₂_map_left_iff.2 (List.forall₂_same.2 fun path hpath ↦ isPath_ofPath ?_)
  rintro rfl
  exact hpaths hpath

/-- A value is read as paths if it is a coordinate, a row of coordinates or a row of rows of
coordinates, which no value is in two ways; the waypoints are its numbers from left to right, and
there is at least one path, and at least one waypoint on each. A list of lists of tuples is read
back as the paths it renders. -/
theorem toPaths?_exact (v : Value) (paths : List Path) :
    (v.toPaths? = some paths ↔ ∃ s, v.HasShape s paths) ∧
      (∀ s s' paths', v.HasShape s paths → v.HasShape s' paths' → s = s' ∧ paths = paths') ∧
      (v.toPaths? = some paths → paths ≠ [] ∧ [] ∉ paths ∧
        paths.flatten.flatMap Point.components = v.numbers) ∧
      ((ofPaths paths).toPaths? = some paths ↔ paths ≠ [] ∧ [] ∉ paths) := by
  refine ⟨toPaths?_eq_some_iff, fun _ _ _ h h' ↦ h.unique h', fun h ↦ ?_, ?_⟩
  · obtain ⟨s, hshape⟩ := toPaths?_eq_some_iff.1 h
    exact ⟨hshape.ne_nil.1, hshape.ne_nil.2, hshape.numbers_eq⟩
  · constructor
    · intro h
      obtain ⟨s, hshape⟩ := toPaths?_eq_some_iff.1 h
      exact hshape.ne_nil
    · rintro ⟨hne, hpaths⟩
      exact (hasShape_ofPaths hne hpaths).toPaths?

/-- Two paths, in rows of both kinds. -/
theorem toPaths?_exact_mixed :
    let v := tuple [list [ofPoint ⟨1, 2⟩, list [number 3, number 4]], tuple [ofPoint ⟨5, 6⟩]]
    let paths : List Path := [[⟨1, 2⟩, ⟨3, 4⟩], [⟨5, 6⟩]]
    v.toPaths? = some paths ∧ paths.flatten.flatMap Point.components = v.numbers :=
  ⟨rfl, ((toPaths?_exact _ _).2.2.1 rfl).2.2⟩

end Value

end Waypoints
