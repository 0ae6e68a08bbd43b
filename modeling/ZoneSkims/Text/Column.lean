/-!
# Columns of a table

Entries of a table are filled up with spaces to the width of their column. Wider ones stay as they
are.

* `flushLeft`, `flushRight`: the two sides at which an entry can stand.
-/

namespace ZoneSkims

/-- An entry at the left of its column. -/
def flushLeft (width : Nat) (entry : String) : String :=
  String.ofList (entry.toList ++ List.replicate (width - entry.length) ' ')

/-- An entry at the right of its column. -/
def flushRight (width : Nat) (entry : String) : String :=
  String.ofList (List.replicate (width - entry.length) ' ' ++ entry.toList)

end ZoneSkims
