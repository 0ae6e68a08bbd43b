/-!
# Tables by zone

A table has at most one entry for a zone. Its entries are in the order of the zone ids, which is
that of their characters.

* `ZoneTable.alter`: the entry of a zone replaced.
-/

namespace ZoneSkims

/-- The name of a zone. -/
abbrev ZoneId := String

/-- Entries by zone id, in ascending order. -/
abbrev ZoneTable (γ : Type) := List (ZoneId × γ)

namespace ZoneTable

variable {γ : Type}

/-- The table with the entry of a zone replaced by what `change` makes of it. -/
def alter (id : ZoneId) (change : Option γ → γ) : ZoneTable γ → ZoneTable γ
  | [] => [(id, change none)]
  | (other, entry) :: rest =>
    if id < other then (id, change none) :: (other, entry) :: rest
    else if id = other then (id, change (some entry)) :: rest
    else (other, entry) :: alter id change rest

/-- The table with an entry for a zone, instead of one that it had. -/
def insert (table : ZoneTable γ) (id : ZoneId) (entry : γ) : ZoneTable γ :=
  table.alter id fun _ => entry

/-- The table of a list in which a later entry for the same zone replaces an earlier one. -/
def ofList (entries : List (ZoneId × γ)) : ZoneTable γ :=
  entries.foldl (fun table (id, entry) => insert table id entry) []

/-- The elements of a list by zone, each group in the order of the list. -/
def group (entries : List (ZoneId × γ)) : ZoneTable (List γ) :=
  entries.foldl (fun table (id, x) => table.alter id fun xs => xs.getD [] ++ [x]) []

end ZoneTable

end ZoneSkims
