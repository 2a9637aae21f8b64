import Waypoints.Proofs.Agreement
import Waypoints.Proofs.Content.Registry
import Waypoints.Proofs.Runs
/-!
# What a registered piece type is made of

A piece type is made of the move and pattern types that are registered when it is. Registering
another type under the name of one of them puts it in its place in the registry, but not in the
piece type. So a registered piece type has, under each name that it lists, the type that the
registry had then, and this is the type that the registry has unless another was registered since
(`registered_pieces_made`). Building a registry from a description registers no name twice.
-/

set_option autoImplicit false
set_option relaxedAutoImplicit false

namespace Waypoints

/-! ### Registrations -/

/-- A call that registers a type from its description. -/
inductive Registration
  | move (name : String) (params : MoveParams)
  | pattern (name : String) (params : PatternParams)
  | piece (name : String) (params : PieceParams)

/-- A type that a call registered. -/
inductive Registered
  | move (m : MoveType)
  | pattern (p : PatternType)
  | piece (p : PieceType)

namespace Registered

/-- The move type of a name, if that is what was registered. -/
def move? (name : String) : Registered → Option MoveType
  | .move m => Option.guard (·.name = name) m
  | _ => none

/-- The pattern type of a name, if that is what was registered. -/
def pattern? (name : String) : Registered → Option PatternType
  | .pattern p => Option.guard (·.name = name) p
  | _ => none

/-- The piece type of a name, if that is what was registered. -/
def piece? (name : String) : Registered → Option PieceType
  | .piece p => Option.guard (·.name = name) p
  | _ => none

end Registered

namespace Registry

/-- The registry after a call, and the type that it registered. -/
def enter (r : Registry) : Registration → Registry × Except ConfigError Registered
  | .move name params =>
    match r.registerMove name params with
    | .ok (r, m) => (r, .ok (.move m))
    | .error e => (r, .error e)
  | .pattern name params =>
    match r.registerPattern name params with
    | .ok (r, p) => (r, .ok (.pattern p))
    | .error e => (r, .error e)
  | .piece name params =>
    match r.registerPiece name params with
    | .ok (r, p) => (r, .ok (.piece p))
    | .error e => (r, .error e)

/-- Every type that a registered piece type lists is the one that the registry has under its
name. -/
def Coherent (r : Registry) : Prop :=
  ∀ name piece, r.pieces.find? name = some piece →
    (∀ m ∈ piece.moves, r.moves.find? m.name = some m) ∧
      ∀ p ∈ piece.patterns, r.patterns.find? p.name = some p

end Registry

/-- The types that calls have registered, in order. -/
def registered (trace : List (Registration × Except ConfigError Registered)) : List Registered :=
  trace.filterMap (·.2.toOption)

/-- The last of the types of a sort among those that were registered. -/
def latest {α : Type} (sort : Registered → Option α) (types : List Registered) : Option α :=
  types.reverse.findSome? sort

/-! ### What a call does -/

/-- What a map has under a name after something was put under its own. -/
theorem NameMap.find?_insert_name {α : Type} (m : NameMap α) (nameOf : α → String) (a : α)
    (name : String) : (m.insert (nameOf a) a).find? name =
      (Option.guard (fun b ↦ nameOf b = name) a).or (m.find? name) := by
  rw [find?_insert, Option.guard]
  by_cases h : name = nameOf a
  · rw [if_pos h, if_pos (decide_eq_true h.symm)]
    rfl
  · rw [if_neg h, if_neg (by simpa using Ne.symm h)]
    rfl

namespace Registry

/-- The registry with a type in it. -/
def put (r : Registry) : Registered → Registry
  | .move m => r.addMove m
  | .pattern p => r.addPattern p
  | .piece p => r.addPiece p

/-- The type that the description of a call gives. -/
def make (r : Registry) : Registration → Except ConfigError Registered
  | .move name params => .move <$> MoveType.ofParams name params
  | .pattern name params => .pattern <$> PatternType.ofParams name params
  | .piece name params => .piece <$> r.pieceOfParams name params

/-- A call makes a type and puts it into the registry, or fails and does nothing. -/
theorem enter_eq (r : Registry) (call : Registration) :
    r.enter call = ((r.make call).toOption.elim r r.put, r.make call) := by
  cases call with
  | move name params =>
    rw [enter, registerMove, make]
    cases MoveType.ofParams name params <;> rfl
  | pattern name params =>
    rw [enter, registerPattern, make]
    cases PatternType.ofParams name params <;> rfl
  | piece name params =>
    rw [enter, registerPiece, make]
    cases r.pieceOfParams name params <;> rfl

theorem find?_moves_put (name : String) (r : Registry) (type : Registered) :
    (r.put type).moves.find? name = (type.move? name).or (r.moves.find? name) := by
  cases type with
  | move m => exact r.moves.find?_insert_name (·.name) m name
  | pattern | piece => rfl

theorem find?_patterns_put (name : String) (r : Registry) (type : Registered) :
    (r.put type).patterns.find? name = (type.pattern? name).or (r.patterns.find? name) := by
  cases type with
  | pattern p => exact r.patterns.find?_insert_name (·.name) p name
  | move | piece => rfl

theorem find?_pieces_put (name : String) (r : Registry) (type : Registered) :
    (r.put type).pieces.find? name = (type.piece? name).or (r.pieces.find? name) := by
  cases type with
  | piece p => exact r.pieces.find?_insert_name (·.name) p name
  | move | pattern => rfl

end Registry

/-! ### What calls do -/

section Latest

variable {α : Type} {sort : Registered → Option α}

theorem latest_cons (type : Registered) (types : List Registered) :
    latest sort (type :: types) = (latest sort types).or (sort type) := by
  rw [latest, List.reverse_cons, List.findSome?_append]
  exact congrArg _ (List.findSome?_singleton ..)

theorem latest_trace_cons (r : Registry) (call : Registration) (calls : List Registration) :
    latest sort (registered (System.trace Registry.enter r (call :: calls))) =
      (latest sort (registered (System.trace Registry.enter (r.enter call).1 calls))).or
        ((r.enter call).2.toOption.bind sort) := by
  rw [System.trace_cons]
  unfold registered
  rw [List.filterMap_cons]
  cases (r.enter call).2.toOption with
  | none => exact Option.or_none.symm
  | some type => exact latest_cons type _

/-- What a registry has of a sort after calls is the last that they registered, or else what it had
before them. -/
theorem find_after (find : Registry → Option α)
    (hput : ∀ r type, find (r.put type) = (sort type).or (find r)) (r : Registry)
    (calls : List Registration) : find (System.after Registry.enter r calls) =
      (latest sort (registered (System.trace Registry.enter r calls))).or (find r) := by
  induction calls generalizing r with
  | nil => rfl
  | cons call calls ih =>
    rw [System.after_cons, latest_trace_cons, ih, Option.or_assoc, r.enter_eq]
    cases (r.make call).toOption with
    | none => rfl
    | some type => exact congrArg _ (hput r type)

/-- The last type of a sort was registered by one of the calls. -/
theorem exists_call_of_latest {a : α} {r : Registry} {calls : List Registration}
    (h : latest sort (registered (System.trace Registry.enter r calls)) = some a) :
    ∃ before call later type, calls = before ++ call :: later ∧
      ((System.after Registry.enter r before).enter call).2 = .ok type ∧ sort type = some a ∧
        latest sort (registered (System.trace Registry.enter
          ((System.after Registry.enter r before).enter call).1 later)) = none := by
  induction calls generalizing r with
  | nil => cases h
  | cons call calls ih =>
    -- A later call registered it, or else this one did.
    rw [latest_trace_cons] at h
    cases hrest : latest sort (registered (System.trace Registry.enter (r.enter call).1 calls)) with
    | some b =>
      rw [hrest, Option.some_or] at h
      cases h
      obtain ⟨before, call', later, type, rfl, hcall⟩ := ih hrest
      exact ⟨call :: before, call', later, type, rfl, hcall⟩
    | none =>
      rw [hrest, Option.none_or] at h
      obtain ⟨type, htype, hsort⟩ := Option.bind_eq_some_iff.1 h
      refine ⟨[], call, calls, type, rfl, ?_, hsort, hrest⟩
      change (r.enter call).2 = .ok type
      cases hreply : (r.enter call).2 with
      | error e =>
        rw [hreply] at htype
        cases htype
      | ok type' =>
        rw [hreply] at htype
        cases htype
        rfl

theorem exists_sort_of_latest {a : α} {types : List Registered} (h : latest sort types = some a) :
    ∃ type, sort type = some a := by
  obtain ⟨type, -, htype⟩ := List.exists_of_findSome?_eq_some h
  exact ⟨type, htype⟩

end Latest

/-! ### Names -/

namespace Registered

theorem name_of_move? {name : String} {type : Registered} {m : MoveType}
    (h : type.move? name = some m) : m.name = name := by
  cases type with
  | move m' =>
    rw [move?] at h
    obtain ⟨rfl, hname⟩ := Option.guard_eq_some_iff.1 h
    exact of_decide_eq_true hname
  | pattern | piece => cases h

theorem name_of_pattern? {name : String} {type : Registered} {p : PatternType}
    (h : type.pattern? name = some p) : p.name = name := by
  cases type with
  | pattern p' =>
    rw [pattern?] at h
    obtain ⟨rfl, hname⟩ := Option.guard_eq_some_iff.1 h
    exact of_decide_eq_true hname
  | move | piece => cases h

theorem eq_of_piece? {name : String} {type : Registered} {p : PieceType}
    (h : type.piece? name = some p) : type = .piece p ∧ p.name = name := by
  cases type with
  | piece p' =>
    rw [piece?] at h
    obtain ⟨rfl, hname⟩ := Option.guard_eq_some_iff.1 h
    exact ⟨rfl, of_decide_eq_true hname⟩
  | move | pattern => cases h

end Registered

namespace Registry

/-- Every type stands under its name. -/
structure Named (r : Registry) : Prop where
  moves : ∀ name m, r.moves.find? name = some m → m.name = name
  patterns : ∀ name p, r.patterns.find? name = some p → p.name = name

variable (r : Registry) (calls : List Registration) (name : String)

theorem find?_moves_after : (System.after enter r calls).moves.find? name =
    (latest (Registered.move? name) (registered (System.trace enter r calls))).or
      (r.moves.find? name) :=
  find_after (fun r ↦ r.moves.find? name) (find?_moves_put name) r calls

theorem find?_patterns_after : (System.after enter r calls).patterns.find? name =
    (latest (Registered.pattern? name) (registered (System.trace enter r calls))).or
      (r.patterns.find? name) :=
  find_after (fun r ↦ r.patterns.find? name) (find?_patterns_put name) r calls

theorem find?_pieces_after : (System.after enter r calls).pieces.find? name =
    (latest (Registered.piece? name) (registered (System.trace enter r calls))).or
      (r.pieces.find? name) :=
  find_after (fun r ↦ r.pieces.find? name) (find?_pieces_put name) r calls

theorem named_after : (System.after enter .empty calls).Named where
  moves name m h := by
    rw [find?_moves_after] at h
    obtain ⟨type, htype⟩ := exists_sort_of_latest ((Option.or_none ..).symm.trans h)
    exact Registered.name_of_move? htype
  patterns name p h := by
    rw [find?_patterns_after] at h
    obtain ⟨type, htype⟩ := exists_sort_of_latest ((Option.or_none ..).symm.trans h)
    exact Registered.name_of_pattern? htype

end Registry

/-! ### Pieces -/

theorem firstOfEachName_subset (ps : List PatternType) : firstOfEachName ps ⊆ ps := by
  induction ps with
  | nil => exact List.Subset.refl _
  | cons p ps ih => exact List.cons_subset_cons p (List.Subset.trans (List.filter_subset_self _) ih)

namespace Registry

variable {r : Registry} {piece : PieceType}

/-- A piece type is made of types that stand in the registry. -/
theorem Named.find?_of_pieceOfParams (h : r.Named) {name : String} {params : PieceParams}
    (hpiece : r.pieceOfParams name params = .ok piece) :
    (∀ m ∈ piece.moves, r.moves.find? m.name = some m) ∧
      ∀ p ∈ piece.patterns, r.patterns.find? p.name = some p := by
  obtain ⟨moves, hmoves, hpiece⟩ := Except.exists_of_bind_eq_ok hpiece
  obtain ⟨patterns, hpatterns, hpiece⟩ := Except.exists_of_bind_eq_ok hpiece
  have hparts : piece.moves = moves ∧ piece.patterns = firstOfEachName patterns := by
    unfold PieceType.make at hpiece
    split_ifs at hpiece
    cases hpiece
    exact ⟨rfl, rfl⟩
  rw [hparts.1, hparts.2]
  refine ⟨fun m hm ↦ ?_, fun p hp ↦ ?_⟩
  · obtain ⟨listed, -, hlisted⟩ := (Except.mapM_eq_ok_iff.1 hmoves).exists_of_mem_right hm
    have hfind : r.moves.find? listed = some m :=
      NameMap.find?_of_resolve (fun m h ↦ by rw [resolveMove, h]) (fun h ↦ by rw [resolveMove, h])
        hlisted
    rwa [h.moves listed m hfind]
  · obtain ⟨listed, -, hlisted⟩ := (Except.mapM_eq_ok_iff.1 hpatterns).exists_of_mem_right
      (firstOfEachName_subset patterns hp)
    have hfind : r.patterns.find? listed = some p :=
      NameMap.find?_of_resolve (fun p h ↦ by rw [resolvePattern, h])
        (fun h ↦ by rw [resolvePattern, h]) hlisted
    rwa [h.patterns listed p hfind]

/-- What a call that registers a piece type does. -/
theorem Named.enter_piece (h : r.Named) {call : Registration}
    (hcall : (r.enter call).2 = .ok (.piece piece)) : (r.enter call).1 = r.addPiece piece ∧
      (∀ m ∈ piece.moves, r.moves.find? m.name = some m) ∧
      ∀ p ∈ piece.patterns, r.patterns.find? p.name = some p := by
  rw [enter_eq] at hcall ⊢
  refine ⟨congrArg (fun made ↦ made.toOption.elim r r.put) hcall, ?_⟩
  cases call with
  | move name params =>
    obtain ⟨m, -, hm⟩ := Except.exists_of_bind_eq_ok hcall
    cases hm
  | pattern name params =>
    obtain ⟨p, -, hp⟩ := Except.exists_of_bind_eq_ok hcall
    cases hp
  | piece name params =>
    obtain ⟨made, hmade, heq⟩ := Except.exists_of_bind_eq_ok hcall
    cases heq
    exact h.find?_of_pieceOfParams hmade

end Registry

/-! ### The registry of a description -/

namespace Registry.Realizes

variable {config : MatchConfig} {r : Registry}

theorem named (h : r.Realizes config) : r.Named where
  moves name m hm := by
    obtain ⟨e, -, he⟩ := h.moves.exists_of_mem_right (NameMap.mem_of_find? hm)
    exact he.name.trans he.key.symm
  patterns name p hp := by
    obtain ⟨e, -, he⟩ := h.patterns.exists_of_mem_right (NameMap.mem_of_find? hp)
    exact he.name.trans he.key.symm

theorem coherent (h : r.Realizes config) : r.Coherent := by
  intro name piece hpiece
  obtain ⟨e, -, he⟩ := h.pieces.exists_of_mem_right (NameMap.mem_of_find? hpiece)
  refine ⟨fun m hm ↦ ?_, fun p hp ↦ ?_⟩
  · obtain ⟨listed, -, hlisted⟩ := he.moves.exists_of_mem_right hm
    rwa [h.named.moves listed m hlisted]
  · obtain ⟨listed, -, hlisted⟩ := he.patterns.exists_of_mem_right hp
    rwa [h.named.patterns listed p hlisted]

end Registry.Realizes

namespace Registry

/-- Registering the types of entries is calling for one after another. -/
theorem after_eq_of_foldlM {α : Type} {f : Registry → String × α → Except ConfigError Registry}
    (callOf : String × α → Registration) (hf : ∀ r e, f r e = r.put <$> r.make (callOf e))
    {entries : List (String × α)} {r r' : Registry} (h : entries.foldlM f r = .ok r') :
    System.after enter r (entries.map callOf) = r' := by
  induction entries generalizing r with
  | nil => exact Except.ok.inj h
  | cons e entries ih =>
    rw [List.foldlM_cons, hf] at h
    obtain ⟨next, hnext, hrest⟩ := Except.exists_of_bind_eq_ok h
    obtain ⟨type, htype, heq⟩ := Except.exists_of_bind_eq_ok hnext
    cases heq
    rw [List.map_cons, System.after_cons, enter_eq, htype]
    exact ih hrest

/-- The registry of a description is built by calls. -/
theorem exists_calls_of_ofConfig {config : MatchConfig} {r : Registry}
    (h : ofConfig config = .ok r) : ∃ calls, System.after enter .empty calls = r := by
  obtain ⟨first, hmoves, h⟩ := Except.exists_of_bind_eq_ok h
  obtain ⟨second, hpatterns, hpieces⟩ := Except.exists_of_bind_eq_ok h
  have hfirst := after_eq_of_foldlM (fun e ↦ .move e.1 e.2)
    (fun r e ↦ (map_fst_bind ..).trans (comp_map Registered.move r.put _)) hmoves
  have hsecond := after_eq_of_foldlM (fun e ↦ .pattern e.1 e.2)
    (fun r e ↦ (map_fst_bind ..).trans (comp_map Registered.pattern r.put _)) hpatterns
  have hthird := after_eq_of_foldlM (fun e ↦ .piece e.1 e.2)
    (fun r e ↦ (map_fst_bind ..).trans (comp_map Registered.piece r.put _)) hpieces
  refine ⟨config.moves.entries.map (fun e ↦ .move e.1 e.2) ++
    config.patterns.entries.map (fun e ↦ .pattern e.1 e.2) ++
    config.pieces.entries.map (fun e ↦ .piece e.1 e.2), ?_⟩
  rw [System.after_append, System.after_append, hfirst, hsecond, hthird]

end Registry

/-! ### Every run of calls -/

/-- A piece type that was made in a past registry lists types that stood there under their names.
Under each of these names the registry now has the type that was registered last since then, or else
the one that is listed. -/
structure PieceType.MadeIn (past now : Registry) (since : List Registered) (piece : PieceType) :
    Prop where
  moves : ∀ m ∈ piece.moves, past.moves.find? m.name = some m ∧
    now.moves.find? m.name = some ((latest (Registered.move? m.name) since).getD m)
  patterns : ∀ p ∈ piece.patterns, past.patterns.find? p.name = some p ∧
    now.patterns.find? p.name = some ((latest (Registered.pattern? p.name) since).getD p)

/-- Every piece type that is registered after calls was registered by one of them, and lists the
types that the registry had then. Under each of their names the registry now has what a later call
registered last, if one did, and else the type that is listed. The registry of a description is
built by calls, and in it every piece type lists the types that the registry has. -/
theorem registered_pieces_made (calls : List Registration) :
    (∀ name piece,
      let now := System.after Registry.enter .empty calls
      now.pieces.find? name = some piece → ∃ before call later,
        let past := System.after Registry.enter .empty before
        let since := registered (System.trace Registry.enter (past.enter call).1 later)
        calls = before ++ call :: later ∧ (past.enter call).2 = .ok (.piece piece) ∧
          piece.name = name ∧ latest (Registered.piece? name) since = none ∧
          piece.MadeIn past now since) ∧
      ∀ config r, Registry.ofConfig config = .ok r →
        (∃ opening, System.after Registry.enter .empty opening = r) ∧ r.Coherent := by
  constructor
  · intro name piece now h
    have hlatest := (Registry.find?_pieces_after .empty calls name).symm.trans h
    obtain ⟨before, call, later, type, rfl, hcall, htype, hnone⟩ :=
      exists_call_of_latest ((Option.or_none ..).symm.trans hlatest)
    obtain ⟨rfl, hname⟩ := Registered.eq_of_piece? htype
    refine ⟨before, call, later, rfl, hcall, hname, hnone, ?_⟩
    obtain ⟨hput, hmoves, hpatterns⟩ := (Registry.named_after before).enter_piece hcall
    have hnow : now = System.after Registry.enter
        ((System.after Registry.enter .empty before).enter call).1 later :=
      System.after_append ..
    -- The call itself changes only the piece types.
    refine ⟨fun m hm ↦ ⟨hmoves m hm, ?_⟩, fun p hp ↦ ⟨hpatterns p hp, ?_⟩⟩
    · rw [hnow, Registry.find?_moves_after, hput]
      exact (congrArg _ (hmoves m hm)).trans Option.or_some
    · rw [hnow, Registry.find?_patterns_after, hput]
      exact (congrArg _ (hpatterns p hp)).trans Option.or_some
  · intro config r h
    have hrealizes := reports_ofConfig config
    rw [h] at hrealizes
    exact ⟨Registry.exists_calls_of_ofConfig h, hrealizes.2.coherent⟩

/-- A move type `step` without waypoints, a piece type that lists it, and another move type of the
same name. -/
def stepCalls : List Registration :=
  [.move "step" ⟨.jump, []⟩, .piece "pawn" ⟨1, ["step"], [], 0⟩, .move "step" ⟨.slide, []⟩]

/-- A match with the move type `step` and a piece type that lists it. -/
def MatchConfig.steps : MatchConfig where
  board := ⟨8, 8⟩
  moves := NameMap.empty.insert "step" ⟨.jump, []⟩
  patterns := .empty
  pieces := NameMap.empty.insert "pawn" ⟨1, ["step"], [], 0⟩
  setup := []

theorem registered_pieces_made_step :
    (∃ piece, (System.after Registry.enter .empty stepCalls).pieces.find? "pawn" = some piece ∧
      ∃ before call later, stepCalls = before ++ call :: later ∧
        ((System.after Registry.enter .empty before).enter call).2 = .ok (.piece piece)) ∧
      ∃ r, Registry.ofConfig .steps = .ok r ∧ r.pieces.names = ["pawn"] ∧ r.Coherent := by
  obtain ⟨hmade, hdescribed⟩ := registered_pieces_made stepCalls
  obtain ⟨before, call, later, hcalls, hcall, -⟩ := hmade "pawn" _ rfl
  obtain ⟨-, hcoherent⟩ := hdescribed .steps _ rfl
  exact ⟨⟨_, rfl, before, call, later, hcalls, hcall⟩, _, rfl, rfl, hcoherent⟩

/-- A piece type keeps a move type that the registry has replaced. -/
theorem not_registry_coherent : ¬∀ calls, (System.after Registry.enter .empty calls).Coherent := by
  intro hall
  have hcoherent := (hall stepCalls "pawn" _ rfl).1 _ List.mem_cons_self
  cases hcoherent

end Waypoints
