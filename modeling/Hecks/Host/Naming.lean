import Hecks.Lib.Text

/-! The names a domain's relations are built from: snake case, and the storage name of an
aggregate. -/
namespace Hecks.Host.Naming

/-- The first boundary: the last capital of a run of two or more goes with the small letter behind
it. The run read so far is held back, last capital first. -/
def acronymBoundary : (run : List Char) → List Char → List Char
  | run, [] => run.reverse
  | run, c :: cs =>
      if c.isUpper then acronymBoundary (c :: run) cs
      else
        match run with
        | last :: other :: earlier =>
            if c.isLower then (other :: earlier).reverse ++ '_' :: last :: c :: acronymBoundary [] cs
            else run.reverse ++ c :: acronymBoundary [] cs
        | _ => run.reverse ++ c :: acronymBoundary [] cs

/-- The second boundary: between a small letter or a digit and a capital. -/
def wordBoundary : (previous : Option Char) → List Char → List Char
  | _, [] => []
  | previous, c :: cs =>
      if c.isUpper && previous.any (fun p => p.isLower || p.isDigit) then
        '_' :: c :: wordBoundary (some c) cs
      else c :: wordBoundary (some c) cs

section

-- `char::to_lowercase`.
variable (lowercase : Char → List Char)

def rubyDowncase (text : List Char) : List Char := text.flatMap lowercase

def snake (name : List Char) : List Char :=
  rubyDowncase lowercase (wordBoundary none (acronymBoundary [] name))

/-- `rsplit("::").next()`. -/
def shortName (name : List Char) : List Char :=
  match Text.splitOnceChars [':', ':'] name.reverse with
  | some (last, _) => last.reverse
  | none => name

def storageName (qualifiedAggregate : List Char) : List Char :=
  snake lowercase (shortName qualifiedAggregate)

end

example : snake (fun c => [c.toLower]) "HTTPServer2Go".toList = "http_server2_go".toList := by decide

end Hecks.Host.Naming
