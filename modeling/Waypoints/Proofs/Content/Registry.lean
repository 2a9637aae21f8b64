import Mathlib.Logic.Relator
import Waypoints.Content.Registry
import Waypoints.Proofs.Agreement
import Waypoints.Proofs.Reporting
/-!
# What building a registry checks

`MatchConfig.faults` lists everything that is wrong with the types of a match, in the order in which
it is reported. Building the registry fails with the first of these faults, and without one it gives
the one registry that realizes the description (`ofConfig_exact`): the types that it describes,
with every expression read and every name resolved. The consequences of patterns are not looked at.
-/

set_option autoImplicit false
set_option relaxedAutoImplicit false

namespace Waypoints

/-! ### Faults -/

/-- A fault where a condition does not hold. -/
def faultUnless (condition : Prop) [Decidable condition] (fault : ConfigError) : List ConfigError :=
  if condition then [] else [fault]

theorem faultUnless_eq_nil {condition : Prop} [Decidable condition] {fault : ConfigError} :
    faultUnless condition fault = [] ↔ condition := by
  unfold faultUnless
  split
  · next h => exact ⟨fun _ ↦ h, fun _ ↦ rfl⟩
  · next h => exact ⟨(fun h ↦ nomatch h), fun h' ↦ absurd h' h⟩

/-- What is wrong with an expression of the type called `owner`. -/
def sourceFaults (owner source : String) : List ConfigError :=
  match Formula.parse source with
  | .ok _ => []
  | .error e => [.invalidExpression owner e]

/-- What is wrong with a piece type: move types that are not described, in the order in which they
are listed, pattern types alike, its size and its time. -/
def PieceParams.faults (config : MatchConfig) (name : String) (params : PieceParams) :
    List ConfigError :=
  params.moves.flatMap (fun m ↦ faultUnless (m ∈ config.moves.names) (.unknownMoveType name m)) ++
  params.patterns.flatMap
    (fun p ↦ faultUnless (p ∈ config.patterns.names) (.unknownPatternType name p)) ++
  faultUnless (params.radius.isFinite ∧ 0 < params.radius) (.invalidRadius name params.radius) ++
  faultUnless (params.cooldown.isFinite ∧ 0 ≤ params.cooldown)
    (.invalidCooldown name params.cooldown)

/-- What is wrong with the types of a match: the expressions of the moves in the order of their
names, those of the patterns, and then the pieces. -/
def MatchConfig.faults (config : MatchConfig) : List ConfigError :=
  config.moves.entries.flatMap (fun e ↦ e.2.waypoints.flatMap (sourceFaults e.1)) ++
  config.patterns.entries.flatMap (fun e ↦ e.2.waypoints.flatMap (sourceFaults e.1)) ++
  config.pieces.entries.flatMap fun e ↦ e.2.faults config e.1

/-- A description of a match whose types can be built. -/
structure MatchConfig.IsValid (config : MatchConfig) : Prop where
  moves : ∀ e ∈ config.moves.entries, ∀ source ∈ e.2.waypoints, ∃ f, Formula.parse source = .ok f
  patterns :
    ∀ e ∈ config.patterns.entries, ∀ source ∈ e.2.waypoints, ∃ f, Formula.parse source = .ok f
  pieceMoves : ∀ e ∈ config.pieces.entries, ∀ m ∈ e.2.moves, m ∈ config.moves.names
  piecePatterns : ∀ e ∈ config.pieces.entries, ∀ p ∈ e.2.patterns, p ∈ config.patterns.names
  radius : ∀ e ∈ config.pieces.entries, e.2.radius.isFinite ∧ 0 < e.2.radius
  cooldown : ∀ e ∈ config.pieces.entries, e.2.cooldown.isFinite ∧ 0 ≤ e.2.cooldown

theorem sourceFaults_eq_nil {owner source : String} :
    sourceFaults owner source = [] ↔ ∃ f, Formula.parse source = .ok f := by
  unfold sourceFaults
  rcases Formula.parse source with e | f
  · constructor
    · exact fun h ↦ nomatch h
    · rintro ⟨f, h⟩
      cases h
  · exact ⟨fun _ ↦ ⟨f, rfl⟩, fun _ ↦ rfl⟩

/-- A description without faults is valid. -/
theorem MatchConfig.faults_eq_nil (config : MatchConfig) : config.faults = [] ↔ config.IsValid := by
  simp only [faults, PieceParams.faults, List.append_eq_nil_iff, List.flatMap_eq_nil_iff,
    sourceFaults_eq_nil, faultUnless_eq_nil]
  constructor
  · rintro ⟨⟨hmoves, hpatterns⟩, hpieces⟩
    exact ⟨hmoves, hpatterns, fun e he ↦ (hpieces e he).1.1.1, fun e he ↦ (hpieces e he).1.1.2,
      fun e he ↦ (hpieces e he).1.2, fun e he ↦ (hpieces e he).2⟩
  · intro h
    exact ⟨⟨h.moves, h.patterns⟩, fun e he ↦
      ⟨⟨⟨h.pieceMoves e he, h.piecePatterns e he⟩, h.radius e he⟩, h.cooldown e he⟩⟩

/-! ### What a registry holds -/

/-- The formulas that expressions read as, in order. -/
def Reads : List String → List Formula → Prop :=
  List.Forall₂ fun source f ↦ Formula.parse source = .ok f

/-- The move type of a description under its name. -/
structure MoveType.Realizes (e : String × MoveParams) (m : String × MoveType) : Prop where
  key : m.1 = e.1
  name : m.2.name = e.1
  mode : m.2.mode = e.2.mode
  formulas : Reads e.2.waypoints m.2.formulas

/-- The pattern type of a description under its name, with the consequences as they are written. -/
structure PatternType.Realizes (e : String × PatternParams) (p : String × PatternType) : Prop where
  key : p.1 = e.1
  name : p.2.name = e.1
  formulas : Reads e.2.waypoints p.2.formulas
  onComplete : p.2.onComplete = e.2.onComplete
  mustComplete : p.2.mustComplete = e.2.mustComplete

/-- The piece type of a description under its name: the move types are those that it lists, in order
and as often, and the pattern types those that it lists, each at its first place. -/
structure PieceType.Realizes (moves : NameMap MoveType) (patterns : NameMap PatternType)
    (e : String × PieceParams) (p : String × PieceType) : Prop where
  key : p.1 = e.1
  name : p.2.name = e.1
  radius : p.2.radius = e.2.radius
  cooldown : p.2.cooldown = e.2.cooldown
  moves : List.Forall₂ (fun name m ↦ moves.find? name = some m) e.2.moves p.2.moves
  patterns : List.Forall₂ (fun name p ↦ patterns.find? name = some p) e.2.patterns.eraseDups
    p.2.patterns

/-- The registry of a description: under the same names, the types that it describes. -/
structure Registry.Realizes (config : MatchConfig) (r : Registry) : Prop where
  moves : List.Forall₂ MoveType.Realizes config.moves.entries r.moves.entries
  patterns : List.Forall₂ PatternType.Realizes config.patterns.entries r.patterns.entries
  pieces : List.Forall₂ (PieceType.Realizes r.moves r.patterns) config.pieces.entries
    r.pieces.entries

/-! ### Expressions -/

theorem reports_readFormulas (owner : String) (sources : List String) :
    (readFormulas owner sources).Reports (sources.flatMap (sourceFaults owner))
      (Reads sources) := by
  refine Except.Reports.mapM fun source _ ↦ ?_
  unfold sourceFaults
  cases Formula.parse source with
  | ok f => exact Except.reports_ok rfl
  | error e => exact Except.reports_error _

theorem reports_moveType (name : String) (params : MoveParams) :
    (MoveType.ofParams name params).Reports (params.waypoints.flatMap (sourceFaults name))
      fun m ↦ MoveType.Realizes (name, params) (name, m) := by
  rw [← List.append_nil (params.waypoints.flatMap _)]
  refine (reports_readFormulas name params.waypoints).bind fun formulas hformulas ↦ ?_
  exact Except.reports_ok ⟨rfl, rfl, rfl, hformulas⟩

theorem reports_patternType (name : String) (params : PatternParams) :
    (PatternType.ofParams name params).Reports (params.waypoints.flatMap (sourceFaults name))
      fun p ↦ PatternType.Realizes (name, params) (name, p) := by
  rw [← List.append_nil (params.waypoints.flatMap _)]
  refine (reports_readFormulas name params.waypoints).bind fun formulas hformulas ↦ ?_
  exact Except.reports_ok ⟨rfl, rfl, hformulas, rfl, rfl⟩

/-! ### Maps -/

section Maps

variable {α β : Type} {r : String × α → String × β → Prop}

theorem NameMap.insertEntry_of_lt {name : String} {a : α} {entries : List (String × α)}
    (h : ∀ e ∈ entries, e.1 < name) : insertEntry name a entries = entries ++ [(name, a)] := by
  induction entries with
  | nil => rfl
  | cons e rest ih =>
    obtain ⟨he, hrest⟩ := List.forall_mem_cons.1 h
    have hne : name ≠ e.1 := fun heq ↦ String.lt_irrefl _ (heq ▸ he)
    rw [insertEntry, if_neg (String.lt_asymm he), if_neg hne, ih hrest]
    rfl

theorem NameMap.find?_isSome_iff (m : NameMap α) (name : String) :
    (m.find? name).isSome ↔ name ∈ m.names := by
  rw [find?, List.lookup_isSome_iff, names, List.mem_map]
  constructor
  · rintro ⟨e, he, hname⟩
    exact ⟨e, he, (beq_iff_eq.1 hname).symm⟩
  · rintro ⟨e, he, rfl⟩
    exact ⟨e, he, beq_self_eq_true _⟩

theorem NameMap.mem_of_find? {m : NameMap α} {name : String} {a : α} (h : m.find? name = some a) :
    (name, a) ∈ m.entries := by
  obtain ⟨before, after, hentries, -⟩ := List.lookup_eq_some_iff.1 h
  rw [hentries]
  exact List.mem_append_right _ List.mem_cons_self

/-- Resolving a name reports a fault if the map does not have the name. -/
theorem NameMap.reports_resolve {m : NameMap α} {names : List String} {name : String}
    {x : Except ConfigError α} {fault : ConfigError} (hnames : m.names = names)
    (hsome : ∀ a, m.find? name = some a → x = .ok a)
    (hnone : m.find? name = none → x = .error fault) :
    x.Reports (faultUnless (name ∈ names) fault) fun a ↦ m.find? name = some a := by
  have hmem := m.find?_isSome_iff name
  rw [hnames] at hmem
  unfold faultUnless
  cases hfind : m.find? name with
  | none =>
    rw [hfind] at hmem
    rw [if_neg (fun h ↦ nomatch hmem.2 h), hnone hfind]
    exact Except.reports_error _
  | some a =>
    rw [hfind] at hmem
    rw [if_pos (hmem.1 rfl), hsome a hfind]
    exact Except.reports_ok rfl

theorem NameMap.find?_of_resolve {m : NameMap α} {name : String} {x : Except ConfigError α}
    {fault : ConfigError} {a : α} (hsome : ∀ a, m.find? name = some a → x = .ok a)
    (hnone : m.find? name = none → x = .error fault) (h : x = .ok a) : m.find? name = some a := by
  have hreports := NameMap.reports_resolve rfl hsome hnone
  rw [h] at hreports
  exact hreports.2

/-- Entries that realize others have their names. -/
theorem names_eq_of_forall₂ {es : List (String × α)} {xs : List (String × β)}
    (hkey : ∀ e x, r e x → x.1 = e.1) (h : List.Forall₂ r es xs) : xs.map (·.1) = es.map (·.1) := by
  induction h with
  | nil => rfl
  | cons hex _ ih => exact congrArg₂ List.cons (hkey _ _ hex) ih

/-- What a map holds under a name is related to what another holds, if their entries are related one
by one. -/
theorem NameMap.exists_of_find? {m : NameMap α} {m' : NameMap β}
    (hkey : ∀ e x, r e x → x.1 = e.1) (h : List.Forall₂ r m.entries m'.entries) {name : String}
    {b : β} (hb : m'.find? name = some b) :
    ∃ a, m.find? name = some a ∧ r (name, a) (name, b) := by
  unfold find? at hb ⊢
  generalize m.entries = entries at h ⊢
  generalize m'.entries = entries' at h hb
  induction h with
  | nil => cases hb
  | @cons e x _ _ hex _ ih =>
    obtain ⟨key, a⟩ := e
    obtain ⟨key', b'⟩ := x
    obtain rfl : key' = key := hkey _ _ hex
    rw [lookup_entry] at hb ⊢
    split at hb
    · next heq =>
      cases hb
      subst heq
      exact ⟨a, if_pos rfl, hex⟩
    · next hne =>
      rw [if_neg hne]
      exact ih hb

/-- Registering the next entry of a description puts it behind the entries that realize those
before it. -/
theorem realizes_insert {done rest : List (String × α)} {name : String} {a : α} {b : β}
    {m : NameMap β} (hsorted : (done ++ (name, a) :: rest).Pairwise fun a b ↦ a.1 < b.1)
    (hkey : ∀ e x, r e x → x.1 = e.1) (hdone : List.Forall₂ r done m.entries)
    (hnew : r (name, a) (name, b)) :
    List.Forall₂ r (done ++ [(name, a)]) (m.insert name b).entries := by
  have hbefore : ∀ x ∈ m.entries, x.1 < name := by
    intro x hx
    have hname : x.1 ∈ m.entries.map (·.1) := List.mem_map_of_mem hx
    rw [names_eq_of_forall₂ hkey hdone] at hname
    obtain ⟨e, he, hex⟩ := List.mem_map.1 hname
    rw [← hex]
    exact (List.pairwise_append.1 hsorted).2.2 e he _ List.mem_cons_self
  change List.Forall₂ r _ (NameMap.insertEntry name b m.entries)
  rw [NameMap.insertEntry_of_lt hbefore]
  exact List.rel_append hdone (.cons hnew .nil)

end Maps

/-! ### Moves and patterns -/

section Phases

variable (config : MatchConfig)

/-- The registry is what is kept of registering a type. -/
theorem map_fst_bind {ε α β : Type} (x : Except ε α) (f : α → β) :
    (·.1) <$> (x >>= fun a ↦ pure (f a, a) : Except ε (β × α)) = f <$> x := by
  cases x <;> rfl

/-- Registering the moves in the order of their names. -/
theorem reports_moves :
    (config.moves.entries.foldlM (fun (r : Registry) e ↦ (·.1) <$> r.registerMove e.1 e.2)
        .empty).Reports
      (config.moves.entries.flatMap fun e ↦ e.2.waypoints.flatMap (sourceFaults e.1))
      fun r ↦ List.Forall₂ MoveType.Realizes config.moves.entries r.moves.entries ∧
        r.patterns = .empty ∧ r.pieces = .empty := by
  refine Except.Reports.foldlM (fun done r ↦
    List.Forall₂ MoveType.Realizes done (Registry.moves r).entries ∧ r.patterns = .empty ∧
      r.pieces = .empty) ?_ ⟨.nil, rfl, rfl⟩
  rintro done ⟨name, params⟩ rest r hentries ⟨hdone, hpatterns, hpieces⟩
  have hsorted := config.moves.sorted
  rw [hentries] at hsorted
  rw [Registry.registerMove, map_fst_bind]
  refine (reports_moveType name params).map fun m hm ↦ ⟨?_, hpatterns, hpieces⟩
  have hname : m.name = name := hm.name
  change List.Forall₂ _ _ (r.moves.insert m.name m).entries
  rw [hname]
  exact realizes_insert hsorted (fun _ _ h ↦ h.key) hdone hm

/-- Registering the patterns in the order of their names. -/
theorem reports_patterns {r : Registry} (hr : r.patterns = .empty) :
    (config.patterns.entries.foldlM (fun r e ↦ (·.1) <$> Registry.registerPattern r e.1 e.2)
        r).Reports
      (config.patterns.entries.flatMap fun e ↦ e.2.waypoints.flatMap (sourceFaults e.1))
      fun r' ↦ List.Forall₂ PatternType.Realizes config.patterns.entries r'.patterns.entries ∧
        r'.moves = r.moves ∧ r'.pieces = r.pieces := by
  refine Except.Reports.foldlM (fun done (r' : Registry) ↦
    List.Forall₂ PatternType.Realizes done r'.patterns.entries ∧ r'.moves = r.moves ∧
      r'.pieces = r.pieces) ?_ ⟨by rw [hr]; exact .nil, rfl, rfl⟩
  rintro done ⟨name, params⟩ rest r' hentries ⟨hdone, hmoves, hpieces⟩
  have hsorted := config.patterns.sorted
  rw [hentries] at hsorted
  rw [Registry.registerPattern, map_fst_bind]
  refine (reports_patternType name params).map fun p hp ↦ ⟨?_, hmoves, hpieces⟩
  have hname : p.name = name := hp.name
  change List.Forall₂ _ _ (r'.patterns.insert p.name p).entries
  rw [hname]
  exact realizes_insert hsorted (fun _ _ h ↦ h.key) hdone hp

end Phases

/-! ### Pieces -/

/-- Dropping the pattern types of one name leaves the first of each other name. -/
theorem firstOfEachName_filter (name : String) (ps : List PatternType) :
    (firstOfEachName ps).filter (·.name != name) =
      firstOfEachName (ps.filter (·.name != name)) := by
  induction ps with
  | nil => rfl
  | cons p ps ih =>
    rw [firstOfEachName]
    by_cases hname : p.name = name
    · have hdrop : (p.name != name) = false := bne_eq_false_iff_eq.2 hname
      simp only [List.filter_cons, hdrop, Bool.false_eq_true, if_false]
      rw [← ih, hname, List.filter_filter]
      simp only [Bool.and_self]
    · have hkeep : (p.name != name) = true := bne_iff_ne.2 hname
      simp only [List.filter_cons, hkeep, if_true]
      rw [firstOfEachName, ← ih, List.filter_filter, List.filter_filter]
      simp only [Bool.and_comm]

/-- The first pattern type of each name belongs to the first place of each name. -/
theorem forall₂_eraseDups {r : String → PatternType → Prop} (hname : ∀ n p, r n p → p.name = n) :
    ∀ {names : List String} {ps : List PatternType}, List.Forall₂ r names ps →
      List.Forall₂ r names.eraseDups (firstOfEachName ps)
  | [], [], .nil => .nil
  | n :: names, p :: ps, .cons h hrest => by
    have hrest' : List.Forall₂ r (names.filter fun m ↦ !m == n)
        (ps.filter (·.name != p.name)) := by
      refine List.rel_filter (fun m q hmq ↦ ?_) hrest
      rw [← hname n p h, ← hname m q hmq]
      rfl
    rw [List.eraseDups_cons, firstOfEachName, firstOfEachName_filter]
    exact .cons h (forall₂_eraseDups hname hrest')
termination_by names => names.length
decreasing_by exact Nat.lt_succ_of_le (List.length_filter_le _ _)

section Pieces

variable {config : MatchConfig} {r : Registry}

theorem reports_resolveMove (hnames : r.moves.names = config.moves.names) (piece name : String) :
    (r.resolveMove piece name).Reports
      (faultUnless (name ∈ config.moves.names) (.unknownMoveType piece name))
      fun m ↦ r.moves.find? name = some m :=
  NameMap.reports_resolve hnames (fun m h ↦ by rw [Registry.resolveMove, h])
    fun h ↦ by rw [Registry.resolveMove, h]

theorem reports_resolvePattern (hnames : r.patterns.names = config.patterns.names)
    (piece name : String) :
    (r.resolvePattern piece name).Reports
      (faultUnless (name ∈ config.patterns.names) (.unknownPatternType piece name))
      fun p ↦ r.patterns.find? name = some p :=
  NameMap.reports_resolve hnames (fun p h ↦ by rw [Registry.resolvePattern, h])
    fun h ↦ by rw [Registry.resolvePattern, h]

theorem reports_make (name : String) (radius : Float) (moves : List MoveType)
    (patterns : List PatternType) (cooldown : Float) :
    (PieceType.make name radius moves patterns cooldown).Reports
      (faultUnless (radius.isFinite ∧ 0 < radius) (.invalidRadius name radius) ++
        faultUnless (cooldown.isFinite ∧ 0 ≤ cooldown) (.invalidCooldown name cooldown))
      fun p ↦ p.name = name ∧ p.radius = radius ∧ p.cooldown = cooldown ∧ p.moves = moves ∧
        p.patterns = firstOfEachName patterns := by
  have hradius : validRadius radius ↔ radius.isFinite ∧ 0 < radius := by
    rw [validRadius, Bool.and_eq_true, decide_eq_true_iff]
  have hcooldown : validCooldown cooldown ↔ cooldown.isFinite ∧ 0 ≤ cooldown := by
    rw [validCooldown, Bool.and_eq_true, decide_eq_true_iff]
  unfold PieceType.make faultUnless
  by_cases h : validRadius radius
  · rw [dif_pos h, if_pos (hradius.1 h)]
    by_cases h' : validCooldown cooldown
    · rw [dif_pos h', if_pos (hcooldown.1 h')]
      exact Except.reports_ok ⟨rfl, rfl, rfl, rfl, rfl⟩
    · rw [dif_neg h', if_neg (mt hcooldown.2 h')]
      exact Except.reports_error _
  · rw [dif_neg h, if_neg (mt hradius.2 h)]
    rfl

/-- Making a piece type among move and pattern types of the described names. -/
theorem reports_pieceOfParams (hmoves : r.moves.names = config.moves.names)
    (hpatterns : List.Forall₂ PatternType.Realizes config.patterns.entries r.patterns.entries)
    (name : String) (params : PieceParams) :
    (r.pieceOfParams name params).Reports (params.faults config name)
      fun p ↦ PieceType.Realizes r.moves r.patterns (name, params) (name, p) := by
  have hnames : r.patterns.names = config.patterns.names :=
    names_eq_of_forall₂ (fun _ _ h ↦ h.key) hpatterns
  unfold PieceParams.faults
  rw [List.append_assoc, List.append_assoc]
  refine (Except.Reports.mapM fun m _ ↦ reports_resolveMove hmoves name m).bind fun ms hms ↦ ?_
  refine (Except.Reports.mapM fun p _ ↦ reports_resolvePattern hnames name p).bind fun ps hps ↦ ?_
  refine (reports_make name params.radius ms ps params.cooldown).imp ?_
  rintro p ⟨hname, hradius, hcooldown, rfl, hfirst⟩
  refine ⟨rfl, hname, hradius, hcooldown, hms, ?_⟩
  rw [hfirst]
  refine forall₂_eraseDups (fun n q hq ↦ ?_) hps
  obtain ⟨e, -, he⟩ := hpatterns.exists_of_mem_right (NameMap.mem_of_find? hq)
  exact he.name.trans he.key.symm

/-- Registering the pieces in the order of their names. -/
theorem reports_pieces (hmoves : r.moves.names = config.moves.names)
    (hpatterns : List.Forall₂ PatternType.Realizes config.patterns.entries r.patterns.entries)
    (hr : r.pieces = .empty) :
    (config.pieces.entries.foldlM (fun r e ↦ (·.1) <$> Registry.registerPiece r e.1 e.2)
        r).Reports
      (config.pieces.entries.flatMap fun e ↦ e.2.faults config e.1)
      fun r' ↦ List.Forall₂ (PieceType.Realizes r.moves r.patterns) config.pieces.entries
        r'.pieces.entries ∧ r'.moves = r.moves ∧ r'.patterns = r.patterns := by
  refine Except.Reports.foldlM (fun done (r' : Registry) ↦
    List.Forall₂ (PieceType.Realizes r.moves r.patterns) done r'.pieces.entries ∧
      r'.moves = r.moves ∧ r'.patterns = r.patterns) ?_ ⟨by rw [hr]; exact .nil, rfl, rfl⟩
  rintro done ⟨name, params⟩ rest r' hentries ⟨hdone, hmoves', hpatterns'⟩
  have hsorted := config.pieces.sorted
  rw [hentries] at hsorted
  rw [Registry.registerPiece, map_fst_bind]
  rw [← hmoves', ← hpatterns'] at hdone ⊢
  rw [← hmoves'] at hmoves
  rw [← hpatterns'] at hpatterns
  refine (reports_pieceOfParams hmoves hpatterns name params).map fun p hp ↦ ⟨?_, rfl, rfl⟩
  have hname : p.name = name := hp.name
  change List.Forall₂ _ _ (r'.pieces.insert p.name p).entries
  rw [hname]
  exact realizes_insert hsorted (fun _ _ h ↦ h.key) hdone hp

end Pieces

/-! ### The whole registry -/

theorem reports_ofConfig (config : MatchConfig) :
    (Registry.ofConfig config).Reports config.faults (·.Realizes config) := by
  unfold MatchConfig.faults
  rw [List.append_assoc]
  refine (reports_moves config).bind fun r ⟨hmoves, hnoPatterns, hnoPieces⟩ ↦ ?_
  refine (reports_patterns config hnoPatterns).bind fun r' ⟨hpatterns, hkept, hnoPieces'⟩ ↦ ?_
  rw [← hkept] at hmoves
  have hnames : r'.moves.names = config.moves.names :=
    names_eq_of_forall₂ (fun _ _ h ↦ h.key) hmoves
  refine (reports_pieces hnames hpatterns (hnoPieces'.trans hnoPieces)).imp ?_
  rintro r'' ⟨hpieces, hmoves', hpatterns'⟩
  rw [← hmoves'] at hmoves
  rw [← hpatterns'] at hpatterns
  rw [← hmoves', ← hpatterns'] at hpieces
  exact ⟨hmoves, hpatterns, hpieces⟩

/-! ### The one registry of a description -/

theorem rightUnique_reads : Relator.RightUnique Reads :=
  Relator.RightUnique.forall₂ fun _ _ _ h h' ↦ Except.ok.inj (h.symm.trans h')

theorem MoveType.rightUnique_realizes : Relator.RightUnique MoveType.Realizes := by
  rintro e ⟨key, name, mode, formulas⟩ ⟨key', name', mode', formulas'⟩ h h'
  obtain rfl : key = key' := h.key.trans h'.key.symm
  obtain rfl : name = name' := h.name.trans h'.name.symm
  obtain rfl : mode = mode' := h.mode.trans h'.mode.symm
  obtain rfl : formulas = formulas' := rightUnique_reads h.formulas h'.formulas
  rfl

theorem PatternType.rightUnique_realizes : Relator.RightUnique PatternType.Realizes := by
  rintro e ⟨key, name, formulas, onComplete, mustComplete⟩
    ⟨key', name', formulas', onComplete', mustComplete'⟩ h h'
  obtain rfl : key = key' := h.key.trans h'.key.symm
  obtain rfl : name = name' := h.name.trans h'.name.symm
  obtain rfl : formulas = formulas' := rightUnique_reads h.formulas h'.formulas
  obtain rfl : onComplete = onComplete' := h.onComplete.trans h'.onComplete.symm
  obtain rfl : mustComplete = mustComplete' := h.mustComplete.trans h'.mustComplete.symm
  rfl

theorem PieceType.rightUnique_realizes (moves : NameMap MoveType) (patterns : NameMap PatternType) :
    Relator.RightUnique (PieceType.Realizes moves patterns) := by
  have hfind {α : Type} (m : NameMap α) :
      Relator.RightUnique fun name a ↦ m.find? name = some a :=
    fun _ _ _ h h' ↦ Option.some.inj (h.symm.trans h')
  rintro e ⟨key, name, radius, ms, ps, cooldown, _, _⟩
    ⟨key', name', radius', ms', ps', cooldown', _, _⟩ h h'
  obtain rfl : key = key' := h.key.trans h'.key.symm
  obtain rfl : name = name' := h.name.trans h'.name.symm
  obtain rfl : radius = radius' := h.radius.trans h'.radius.symm
  obtain rfl : cooldown = cooldown' := h.cooldown.trans h'.cooldown.symm
  obtain rfl : ms = ms' := List.right_unique_forall₂' (hfind moves) h.moves h'.moves
  obtain rfl : ps = ps' := List.right_unique_forall₂' (hfind patterns) h.patterns h'.patterns
  rfl

namespace Registry.Realizes

variable {config : MatchConfig} {r r' : Registry}

/-- No two registries realize one description. -/
theorem unique (h : r.Realizes config) (h' : r'.Realizes config) : r = r' := by
  obtain ⟨⟨moves, _⟩, ⟨patterns, _⟩, ⟨pieces, _⟩⟩ := r
  obtain ⟨⟨moves', _⟩, ⟨patterns', _⟩, ⟨pieces', _⟩⟩ := r'
  obtain rfl : moves = moves' :=
    List.right_unique_forall₂' MoveType.rightUnique_realizes h.moves h'.moves
  obtain rfl : patterns = patterns' :=
    List.right_unique_forall₂' PatternType.rightUnique_realizes h.patterns h'.patterns
  obtain rfl : pieces = pieces' :=
    List.right_unique_forall₂' (PieceType.rightUnique_realizes _ _) h.pieces h'.pieces
  rfl

/-- The registry has the names of the description. -/
theorem names_eq (h : r.Realizes config) : r.moves.names = config.moves.names ∧
    r.patterns.names = config.patterns.names ∧ r.pieces.names = config.pieces.names :=
  ⟨names_eq_of_forall₂ (fun _ _ h ↦ h.key) h.moves,
    names_eq_of_forall₂ (fun _ _ h ↦ h.key) h.patterns,
    names_eq_of_forall₂ (fun _ _ h ↦ h.key) h.pieces⟩

/-- Only a valid description has a registry. -/
theorem isValid (h : r.Realizes config) : config.IsValid := by
  obtain ⟨hmoves, hpatterns, -⟩ := h.names_eq
  have hsource {sources : List String} {formulas : List Formula} (hreads : Reads sources formulas) :
      ∀ source ∈ sources, ∃ f, Formula.parse source = .ok f := by
    intro source hsource
    obtain ⟨f, -, hf⟩ := hreads.flip.exists_of_mem_right hsource
    exact ⟨f, hf⟩
  have hfound {α : Type} {m : NameMap α} {names : List String} {types : List α}
      (hfind : List.Forall₂ (fun name a ↦ m.find? name = some a) names types) :
      ∀ name ∈ names, name ∈ m.names := by
    intro name hname
    obtain ⟨a, -, ha⟩ := hfind.flip.exists_of_mem_right hname
    exact (m.find?_isSome_iff name).1 (ha ▸ rfl)
  refine ⟨fun e he ↦ ?_, fun e he ↦ ?_, fun e he m hm ↦ ?_, fun e he p hp ↦ ?_, fun e he ↦ ?_,
    fun e he ↦ ?_⟩
  · obtain ⟨m, -, hm⟩ := h.moves.flip.exists_of_mem_right he
    exact hsource hm.formulas
  · obtain ⟨p, -, hp⟩ := h.patterns.flip.exists_of_mem_right he
    exact hsource hp.formulas
  · obtain ⟨piece, -, hpiece⟩ := h.pieces.flip.exists_of_mem_right he
    exact hmoves ▸ hfound hpiece.moves m hm
  · obtain ⟨piece, -, hpiece⟩ := h.pieces.flip.exists_of_mem_right he
    exact hpatterns ▸ hfound hpiece.patterns p (List.mem_eraseDups.2 hp)
  · obtain ⟨⟨_, piece⟩, -, hpiece⟩ := h.pieces.flip.exists_of_mem_right he
    have hvalid := piece.radius_valid
    rwa [show piece.radius = e.2.radius from hpiece.radius, validRadius, Bool.and_eq_true,
      decide_eq_true_iff] at hvalid
  · obtain ⟨⟨_, piece⟩, -, hpiece⟩ := h.pieces.flip.exists_of_mem_right he
    have hvalid := piece.cooldown_valid
    rwa [show piece.cooldown = e.2.cooldown from hpiece.cooldown, validCooldown, Bool.and_eq_true,
      decide_eq_true_iff] at hvalid

end Registry.Realizes

/-! ### Consequences -/

/-- The map with other values under the same names. -/
def NameMap.map {α β : Type} (f : String → α → β) (m : NameMap α) : NameMap β :=
  ⟨m.entries.map fun e ↦ (e.1, f e.1 e.2), List.pairwise_map.2 m.sorted⟩

/-- The description with other consequences of the patterns. -/
def MatchConfig.withConsequences (config : MatchConfig) (f : String → List String) : MatchConfig :=
  { config with patterns := config.patterns.map fun name p ↦ { p with onComplete := f name } }

theorem MatchConfig.faults_withConsequences (config : MatchConfig) (f : String → List String) :
    (config.withConsequences f).faults = config.faults := by
  have hnames : (config.withConsequences f).patterns.names = config.patterns.names :=
    List.map_map ..
  have hpieces (name : String) (params : PieceParams) :
      params.faults (config.withConsequences f) name = params.faults config name := by
    unfold PieceParams.faults
    rw [hnames]
    rfl
  unfold faults
  simp only [hpieces]
  congr 2
  exact List.flatMap_map ..

/-- Building a registry validates exactly. It gives a registry just if that is the registry of the
description, and fails with the first fault of the description just if it has any; it succeeds for
the valid descriptions; and whether and how it fails does not depend on the consequences of the
patterns, which are kept as they are written. -/
theorem ofConfig_exact (config : MatchConfig) :
    (∀ r, Registry.ofConfig config = .ok r ↔ r.Realizes config) ∧
      (∀ e, Registry.ofConfig config = .error e ↔ config.faults.head? = some e) ∧
      ((∃ r, Registry.ofConfig config = .ok r) ↔ config.IsValid) ∧
      ∀ consequences e, Registry.ofConfig (config.withConsequences consequences) = .error e ↔
        Registry.ofConfig config = .error e := by
  have hreports := reports_ofConfig config
  refine ⟨fun r ↦ ⟨fun h ↦ ?_, fun h ↦ ?_⟩, hreports.error_iff,
    hreports.exists_ok_iff.trans config.faults_eq_nil, fun consequences e ↦ ?_⟩
  · rw [h] at hreports
    exact hreports.2
  · obtain ⟨r', hr'⟩ := hreports.exists_ok_iff.2 (config.faults_eq_nil.2 h.isValid)
    rw [hr'] at hreports ⊢
    rw [h.unique hreports.2]
  · rw [hreports.error_iff, (reports_ofConfig _).error_iff, config.faults_withConsequences]

end Waypoints
