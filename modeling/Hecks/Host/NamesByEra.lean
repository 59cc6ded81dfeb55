import Hecks.Host.Naming
import Hecks.Lib.Reading

/-! The names an aggregate carried at each era of a chain, and the rows of the ancestors that the
audit of the newest edge reads by them. -/
namespace Hecks.Host.Mint

/-- One aggregate's compiled rule within an edge. -/
structure EdgeAggregate where
  name : List Char
  was : Option (List Char)
deriving DecidableEq

/-- One translation edge between two era shapes. -/
structure Edge where
  aggregates : List EdgeAggregate
deriving DecidableEq

namespace Edge

def forAggregate (edge : Edge) (name : List Char) : Option EdgeAggregate :=
  edge.aggregates.find? fun a => a.name = name

/-- The name an aggregate carried before the edge. -/
def earlier (edge : Edge) (name : List Char) : List Char :=
  ((edge.forAggregate name).bind (·.was)).getD name

end Edge

section

variable (lowercase : Char → List Char)

/-- The names, first era first: from the current name back through each edge's `was`. -/
def currentNames (currentName : List Char) (edges : List Edge) : List (List Char) :=
  edges.foldr (fun edge names =>
    edge.earlier (names.headD currentName) :: names) [currentName]

/-- `names_by_era`: the names and their storage names. -/
def namesByEra (currentName : List Char) (edges : List Edge) :
    List (List Char) × List (List Char) :=
  let current := currentNames currentName edges
  (current, current.map (Naming.snake lowercase))

/-- What is read of one ancestor era: its rows under a storage name, up to a watermark. -/
structure Read where
  era : Nat
  aggregate : List Char
  cut : Option Int
deriving DecidableEq

/-- `ancestor_tail_sql`; `none` is an index out of bounds. -/
def ancestorTail (era : Nat) (storageNames : List (List Char)) (watermarks : Nat → Option Int) :
    Option (List Read) :=
  (List.range (era - 1)).mapM fun index =>
    storageNames[index]?.map fun name => ⟨index + 1, name, watermarks (index + 2)⟩

/-- What the audit of the newest edge reads before the edge: the chain without it, or the ancestors
as they are where it is the only one. -/
def auditBefore (aggregate : List Char) (ordinal : Nat) (edges : List Edge)
    (watermarks : Nat → Option Int) : Option (List Read) :=
  if 1 < edges.length then
    ancestorTail ordinal (namesByEra lowercase aggregate edges.dropLast).2 watermarks
  else ancestorTail ordinal (namesByEra lowercase aggregate edges).2 watermarks

/-- What it reads after the edge: the whole chain. -/
def auditAfter (aggregate : List Char) (ordinal : Nat) (edges : List Edge)
    (watermarks : Nat → Option Int) : Option (List Read) :=
  ancestorTail ordinal (namesByEra lowercase aggregate edges).2 watermarks

variable {lowercase} {name : List Char} {edges : List Edge}

/-- The walk back from a name leaves the names behind it as they are. -/
theorem foldr_walk (edges : List Edge) (name fallback : List Char) (rest : List (List Char)) :
    edges.foldr (fun edge names => edge.earlier (names.headD fallback) :: names) (name :: rest) =
      currentNames name edges ++ rest := by
  induction edges with
  | nil => rfl
  | cons edge edges ih =>
    have walked : ∃ first more, currentNames name edges = first :: more := by
      unfold currentNames
      cases edges with
      | nil => exact ⟨name, [], rfl⟩
      | cons edge edges => exact ⟨_, _, rfl⟩
    obtain ⟨first, more, eq⟩ := walked
    rw [List.foldr_cons, ih, eq]
    show _ = edge.earlier ((currentNames name edges).headD name) :: currentNames name edges ++ rest
    rw [eq]
    rfl

theorem currentNames_snoc (name : List Char) (edges : List Edge) (last : Edge) :
    currentNames name (edges ++ [last]) = currentNames (last.earlier name) edges ++ [name] := by
  unfold currentNames
  rw [List.foldr_append]
  exact foldr_walk edges (last.earlier name) name [name]

theorem length_currentNames (name : List Char) (edges : List Edge) :
    (currentNames name edges).length = edges.length + 1 := by
  unfold currentNames
  induction edges with
  | nil => rfl
  | cons edge edges ih =>
    rw [List.foldr_cons, List.length_cons, ih, List.length_cons]

theorem getLast_currentNames (name : List Char) (edges : List Edge) :
    (currentNames name edges).getLast? = some name := by
  cases edges using List.reverseRecOn with
  | nil => rfl
  | append_singleton edges last => rw [currentNames_snoc, List.getLast?_concat]

/-- The shortened chain gives a prefix of the names exactly when the last edge renames nothing. -/
theorem names_prefix_iff (name : List Char) (edges : List Edge) (last : Edge) :
    currentNames name edges <+: currentNames name (edges ++ [last]) ↔ last.earlier name = name := by
  rw [currentNames_snoc]
  constructor
  · rintro ⟨rest, eq⟩
    have lengths : (currentNames name edges).length =
        (currentNames (last.earlier name) edges).length := by
      rw [length_currentNames, length_currentNames]
    have same := (List.append_inj eq lengths).1
    have ends := congrArg List.getLast? same
    rw [getLast_currentNames, getLast_currentNames] at ends
    exact (Option.some.inj ends).symm
  · intro same
    rw [same]
    exact List.prefix_append _ _

/-- The tail is read by the names of the ancestors alone. -/
theorem ancestorTail_of_prefix {era : Nat} {names more : List (List Char)}
    (h : names <+: more) (enough : era - 1 ≤ names.length) (watermarks : Nat → Option Int) :
    ancestorTail era names watermarks = ancestorTail era more watermarks := by
  obtain ⟨rest, rfl⟩ := h
  unfold ancestorTail
  apply Reading.mapM_congr
  intro index mem
  rw [List.mem_range] at mem
  rw [List.getElem?_append_left (by omega)]

/-- The audit of the newest edge reads every ancestor era alike before and after the edge, and the
names of the chain without it are a prefix of those of the whole chain, exactly when the edge leaves
the aggregate its name. -/
theorem audit_reads_alike_iff (lowercase : Char → List Char) (aggregate : List Char)
    (edges : List Edge) (last : Edge) (watermarks : Nat → Option Int) :
    (auditBefore lowercase aggregate (edges.length + 2) (edges ++ [last]) watermarks =
        auditAfter lowercase aggregate (edges.length + 2) (edges ++ [last]) watermarks ∧
      (namesByEra lowercase aggregate edges).1 <+:
        (namesByEra lowercase aggregate (edges ++ [last])).1 ∧
      (namesByEra lowercase aggregate edges).2 <+:
        (namesByEra lowercase aggregate (edges ++ [last])).2) ↔
    last.earlier aggregate = aggregate := by
  constructor
  · rintro ⟨-, names, -⟩
    exact (names_prefix_iff aggregate edges last).mp names
  · intro same
    have names := (names_prefix_iff aggregate edges last).mpr same
    have storage := names.map (Naming.snake lowercase)
    refine ⟨?_, names, storage⟩
    unfold auditBefore auditAfter
    by_cases several : 1 < (edges ++ [last]).length
    · rw [if_pos several, List.dropLast_concat]
      refine ancestorTail_of_prefix storage ?_ watermarks
      simp only [namesByEra, List.length_map, length_currentNames]
      omega
    · rw [if_neg several]

end

/-- A chain of two edges whose second renames Customer to Client. -/
def clientChain : List Edge := [⟨[]⟩, ⟨[⟨"Client".toList, some "Customer".toList⟩]⟩]

/-- The held rows stand under `customer`, and the audit looks for them under `client`. -/
theorem client_read_apart :
    auditBefore (fun c => [c.toLower]) "Client".toList 3 clientChain (fun _ => none) =
        some [⟨1, "client".toList, none⟩, ⟨2, "client".toList, none⟩] ∧
      auditAfter (fun c => [c.toLower]) "Client".toList 3 clientChain (fun _ => none) =
        some [⟨1, "customer".toList, none⟩, ⟨2, "customer".toList, none⟩] := by
  decide

end Hecks.Host.Mint
