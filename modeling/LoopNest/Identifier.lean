import LoopNest.Problem
import LoopNest.Text.Lowercase
/-!
# Identifier — names of tensors and ranks, lists without repetition, extensions of files

A name is a letter followed by letters, digits and underscores, of the Latin alphabet only, and takes at most
`Identifier.limit` bytes.  Each check here gives the first problem that it finds, and `none` when there is none.
-/
namespace LoopNest
namespace Identifier

/-- How many bytes a name may take. -/
def limit : Nat := 64

/-- Whether a character is a Latin letter. -/
def isLetter (c : Char) : Bool := decide (('a' ≤ c ∧ c ≤ 'z') ∨ ('A' ≤ c ∧ c ≤ 'Z'))

/-- Whether a character may follow the first one of a name. -/
def isTail (c : Char) : Bool := isLetter c || Text.isDecimalDigit c || c == '_'

/-- Whether characters form a name, of any length. -/
def isWord : List Char → Bool
  | [] => false
  | c :: cs => isLetter c && cs.all isTail

/-- **What is wrong with a name.** -/
def problem? (of : Subject) (name : String) : Option Problem :=
  if name = "" then some (.emptyName of)
  else if limit < name.utf8ByteSize then some (.longName of limit name)
  else if isWord name.toList then none
  else some (.badName of name)

/-- The first value of a list that stood in it, or in `seen`, before. -/
def repeated? (seen : List String) : List String → Option String
  | [] => none
  | v :: vs => if v ∈ seen then some v else repeated? (v :: seen) vs

/-- What is wrong with a list of things that have to differ. -/
def uniqueProblem? (code : Code) (what : String) (values : List String) : Option Problem :=
  (repeated? [] values).map (.duplicate code what)

/-- What is wrong with a path that has to have one of some extensions, which are compared in small letters. -/
def extensionProblem? (path : String) (allowed : List String) : Option Problem :=
  if allowed.any (fun e => e.toList.isSuffixOf (Text.lower path).toList) then none
  else some (.badExtension path allowed)

end Identifier
end LoopNest
