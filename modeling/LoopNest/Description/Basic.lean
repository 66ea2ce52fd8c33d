import LoopNest.Program
/-!
# Description.Basic — programs as data

A `Description` is what a file says about a program, before any check.  A list that is left out is told apart from an
empty one, because the written forms differ.
-/
namespace LoopNest

/-- What a description says about a rule. -/
structure RuleEntry where
  rank : String
  steps : Option (List Step)
deriving DecidableEq, Repr

/-- The rule of an entry. -/
def RuleEntry.rule (e : RuleEntry) : Rule := ⟨e.rank, e.steps.getD []⟩

/-- **What a file says about a program.** -/
structure Description where
  output : String
  loops : Option (List String)
  tensors : Option (List Tensor)
  rules : Option (List RuleEntry)
deriving DecidableEq, Repr

namespace Description

/-- The description that says nothing. -/
def empty : Description := ⟨"", none, none, none⟩

/-- **The program of a description**, if nothing is wrong with it. -/
def program (d : Description) : Except Problem Program :=
  match RuleSet.empty.addAll ((d.rules.getD []).map RuleEntry.rule) with
  | .error e => .error e
  | .ok rules => Program.make (d.tensors.getD []) d.output (d.loops.getD []) rules

/-- A list that is left out when it is empty. -/
def filled {α : Type} (l : List α) : Option (List α) := if l.isEmpty then none else some l

/-- **The description of a program.** -/
def ofProgram (p : Program) : Description where
  output := p.output
  loops := some p.loops
  tensors := filled p.tensors
  rules := filled (p.rules.rules.map (fun r => ⟨r.rank, filled r.steps⟩))

end Description
end LoopNest
