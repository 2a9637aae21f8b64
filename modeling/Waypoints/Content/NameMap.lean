/-!
# Maps keyed by name

A `NameMap` keeps its entries in the order of their names, each name once. Names are ordered by
code point, which is also the order of their UTF-8 bytes. `insert` replaces an entry of the same
name; `find?_insert` and `find?_empty` say what a map then holds.
-/

set_option autoImplicit false
set_option relaxedAutoImplicit false

namespace Waypoints

/-- Entries in strictly increasing order of names. -/
structure NameMap (α : Type) where
  entries : List (String × α)
  sorted : entries.Pairwise fun a b ↦ a.1 < b.1

namespace NameMap

variable {α : Type}

/-- The map without entries. -/
def empty : NameMap α :=
  ⟨[], .nil⟩

instance : Inhabited (NameMap α) where
  default := empty

/-- Puts an entry at its place, or in the place of the entry of its name. -/
def insertEntry (name : String) (a : α) : List (String × α) → List (String × α)
  | [] => [(name, a)]
  | entry :: rest =>
    if name < entry.1 then (name, a) :: entry :: rest
    else if name = entry.1 then (name, a) :: rest
    else entry :: insertEntry name a rest

theorem mem_insertEntry {name : String} {a : α} {entries : List (String × α)}
    {entry : String × α} (h : entry ∈ insertEntry name a entries) :
    entry = (name, a) ∨ entry ∈ entries := by
  induction entries with
  | nil => exact .inl (List.mem_singleton.1 h)
  | cons head rest ih =>
    unfold insertEntry at h
    split at h
    · exact List.mem_cons.1 h
    · split at h
      · exact (List.mem_cons.1 h).imp_right (List.mem_cons_of_mem _)
      · rcases List.mem_cons.1 h with rfl | hrest
        · exact .inr List.mem_cons_self
        · exact (ih hrest).imp_right (List.mem_cons_of_mem _)

theorem pairwise_insertEntry (name : String) (a : α) {entries : List (String × α)}
    (h : entries.Pairwise fun a b ↦ a.1 < b.1) :
    (insertEntry name a entries).Pairwise fun a b ↦ a.1 < b.1 := by
  induction entries with
  | nil => exact List.pairwise_singleton _ _
  | cons head rest ih =>
    obtain ⟨hhead, hrest⟩ := List.pairwise_cons.1 h
    unfold insertEntry
    split
    · next hlt =>
      refine List.pairwise_cons.2 ⟨fun entry hentry ↦ ?_, h⟩
      rcases List.mem_cons.1 hentry with rfl | hmem
      · exact hlt
      · exact String.lt_trans hlt (hhead entry hmem)
    · next hnlt =>
      split
      · next heq => exact List.pairwise_cons.2 ⟨fun entry hmem ↦ heq ▸ hhead entry hmem, hrest⟩
      · next hne =>
        refine List.pairwise_cons.2 ⟨fun entry hentry ↦ ?_, ih hrest⟩
        rcases mem_insertEntry hentry with rfl | hmem
        · by_cases hlt : head.1 < name
          · exact hlt
          · exact absurd (String.le_antisymm (String.not_lt.1 hlt) (String.not_lt.1 hnlt)) hne
        · exact hhead entry hmem

/-- Adds an entry, in place of any entry of the same name. -/
def insert (m : NameMap α) (name : String) (a : α) : NameMap α :=
  ⟨insertEntry name a m.entries, pairwise_insertEntry name a m.sorted⟩

/-- The map with the given entries, the last one of a name being kept. -/
def ofList (entries : List (String × α)) : NameMap α :=
  entries.foldl (fun m entry ↦ m.insert entry.1 entry.2) empty

/-- The value under a name. -/
def find? (m : NameMap α) (name : String) : Option α :=
  m.entries.lookup name

/-- The names, in order. -/
def names (m : NameMap α) : List String :=
  m.entries.map (·.1)

/-- The values, in the order of their names. -/
def values (m : NameMap α) : List α :=
  m.entries.map (·.2)

/-- The number of entries. -/
def size (m : NameMap α) : Nat :=
  m.entries.length

@[simp]
theorem find?_empty (name : String) : (empty : NameMap α).find? name = none :=
  rfl

theorem lookup_entry (key name : String) (a : α) (rest : List (String × α)) :
    ((name, a) :: rest).lookup key = if key = name then some a else rest.lookup key := by
  rw [List.lookup_cons]
  by_cases hkey : key = name
  · simp only [hkey, beq_self_eq_true, if_true]
  · simp only [beq_eq_false_iff_ne.2 hkey, hkey, if_false]

theorem lookup_insertEntry (name : String) (a : α) {entries : List (String × α)}
    (h : entries.Pairwise fun a b ↦ a.1 < b.1) (key : String) :
    (insertEntry name a entries).lookup key =
      if key = name then some a else entries.lookup key := by
  induction entries with
  | nil => exact lookup_entry key name a []
  | cons head rest ih =>
    obtain ⟨other, b⟩ := head
    obtain ⟨-, hrest⟩ := List.pairwise_cons.1 h
    unfold insertEntry
    split
    · exact lookup_entry key name a _
    · split
      · next heq =>
        rw [lookup_entry, lookup_entry, ← show name = other from heq]
        by_cases hkey : key = name <;> simp [hkey]
      · next hne =>
        rw [lookup_entry, lookup_entry, ih hrest]
        by_cases hkey : key = name
        · subst hkey
          simp [show ¬key = other from hne]
        · simp [hkey]

/-- What a map holds after an insertion. -/
theorem find?_insert (m : NameMap α) (name : String) (a : α) (key : String) :
    (m.insert name a).find? key = if key = name then some a else m.find? key :=
  lookup_insertEntry name a m.sorted key

end NameMap

end Waypoints
