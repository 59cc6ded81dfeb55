import Hecks.Query.Pages

/-! What a query returns: a slice of its rows in the declared order, whatever order the store
gives them in. -/
namespace Hecks.Query

/-- What `offset` and `limit` leave of a list. -/
def sliced (offset : Option Offset) (limit : Option Limit) (args : Json) (rows : Rows) : Rows :=
  let rows := match offset with
    | some offset => rows.drop (resolveLimit offset args)
    | none => rows
  match limit with
  | some limit => rows.take (resolveLimit limit args)
  | none => rows

section

variable {κ : Type} [LinearOrder κ] {rank : Json → κ} {order : OrderBy} {rows others : Rows}
  {a b : Row}

end

/-- Two items of one rank, the highest first. -/
def tiedRows : Rows := [("a", .object [("rank", .int 2)]), ("b", .object [("rank", .int 2)])]

end Hecks.Query
