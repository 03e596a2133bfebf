-- Tables from names to values. The names come in the order in which they
-- were first put, and a later put of the same name keeps its place.

namespace FunkLang

/-! ## Entries -/

/-- The entries with `name` set to `value`: in its place, or else at the end. -/
def putEntry {α : Type} (name : String) (value : α) : List (String × α) → List (String × α)
  | [] => [(name, value)]
  | (key, old) :: rest =>
    if key = name then (key, value) :: rest else (key, old) :: putEntry name value rest

/-- The value of `name` among the entries. -/
def findEntry {α : Type} (name : String) : List (String × α) → Option α
  | [] => none
  | (key, value) :: rest => if key = name then some value else findEntry name rest

theorem mem_putEntry_names {α : Type} {name x : String} {value : α} {entries : List (String × α)} :
    x ∈ (putEntry name value entries).map Prod.fst ↔ x = name ∨ x ∈ entries.map Prod.fst := by
  induction entries with
  | nil => simp [putEntry]
  | cons entry rest ih =>
    obtain ⟨key, old⟩ := entry
    by_cases h : key = name
    · subst h
      simp [putEntry]
    · simp only [putEntry, if_neg h, List.map_cons, List.mem_cons, ih]
      constructor
      · rintro (h | h | h) <;> simp [h]
      · rintro (h | h | h) <;> simp [h]

/-- An entry is put in its place, or else at the end. -/
theorem names_putEntry {α : Type} {name : String} {value : α} (entries : List (String × α)) :
    (putEntry name value entries).map Prod.fst =
      if name ∈ entries.map Prod.fst then entries.map Prod.fst
      else entries.map Prod.fst ++ [name] := by
  induction entries with
  | nil => rfl
  | cons entry rest ih =>
    obtain ⟨key, old⟩ := entry
    by_cases h : key = name
    · simp [putEntry, h]
    · have hne : name ≠ key := Ne.symm h
      rw [putEntry, if_neg h, List.map_cons, ih, List.map_cons]
      by_cases hmem : name ∈ rest.map Prod.fst
      · rw [if_pos hmem, if_pos (List.mem_cons_of_mem _ hmem)]
      · rw [if_neg hmem, if_neg (by simpa [hne] using hmem), List.cons_append]

theorem putEntry_distinct {α : Type} {name : String} {value : α} {entries : List (String × α)}
    (distinct : (entries.map Prod.fst).Nodup) :
    ((putEntry name value entries).map Prod.fst).Nodup := by
  induction entries with
  | nil => simp [putEntry]
  | cons entry rest ih =>
    obtain ⟨key, old⟩ := entry
    simp only [List.map_cons, List.nodup_cons] at distinct
    by_cases h : key = name
    · subst h
      simpa only [putEntry, if_true, List.map_cons, List.nodup_cons] using distinct
    · simp only [putEntry, if_neg h, List.map_cons, List.nodup_cons, mem_putEntry_names]
      exact ⟨fun hk => hk.elim h distinct.1, ih distinct.2⟩

theorem findEntry_putEntry {α : Type} {name x : String} {value : α} {entries : List (String × α)} :
    findEntry x (putEntry name value entries) =
      if x = name then some value else findEntry x entries := by
  induction entries with
  | nil => simp [putEntry, findEntry, eq_comm]
  | cons entry rest ih =>
    obtain ⟨key, old⟩ := entry
    by_cases h : key = name
    · subst h
      by_cases hx : x = key <;> simp [putEntry, findEntry, hx, eq_comm]
    · by_cases hx : x = key
      · subst hx
        simp [putEntry, findEntry, h]
      · simp [putEntry, findEntry, h, Ne.symm hx, ih]

theorem mem_of_findEntry {α : Type} {name : String} {value : α} {entries : List (String × α)}
    (h : findEntry name entries = some value) : (name, value) ∈ entries := by
  induction entries with
  | nil => cases h
  | cons entry rest ih =>
    obtain ⟨key, old⟩ := entry
    unfold findEntry at h
    split at h
    · rename_i hkey
      cases h
      rw [hkey]
      exact List.mem_cons_self
    · exact List.mem_cons_of_mem _ (ih h)

/-! ## Tables -/

/-- Values by name, each name once. -/
structure Table (α : Type) where
  entries : List (String × α)
  distinct : (entries.map Prod.fst).Nodup

namespace Table

variable {α : Type}

def empty : Table α := ⟨[], List.nodup_nil⟩

instance : Inhabited (Table α) := ⟨empty⟩

/-- The names, first put first. -/
def names (t : Table α) : List String := t.entries.map Prod.fst

def get? (t : Table α) (name : String) : Option α := findEntry name t.entries

def contains (t : Table α) (name : String) : Bool := (t.get? name).isSome

/-- The table with `name` set to `value`. -/
def put (t : Table α) (name : String) (value : α) : Table α :=
  ⟨putEntry name value t.entries, putEntry_distinct t.distinct⟩

@[simp] theorem get?_empty (x : String) : (empty : Table α).get? x = none := rfl

@[simp] theorem get?_put (t : Table α) (name x : String) (value : α) :
    (t.put name value).get? x = if x = name then some value else t.get? x :=
  findEntry_putEntry

theorem mem_names_put {t : Table α} {name x : String} {value : α} :
    x ∈ (t.put name value).names ↔ x = name ∨ x ∈ t.names :=
  mem_putEntry_names

theorem names_put (t : Table α) (name : String) (value : α) :
    (t.put name value).names = if name ∈ t.names then t.names else t.names ++ [name] :=
  names_putEntry t.entries

/-- Puts the entries one after the other. -/
def putAll (t : Table α) (entries : List (String × α)) : Table α :=
  entries.foldl (fun t (name, value) => t.put name value) t

end Table
end FunkLang
