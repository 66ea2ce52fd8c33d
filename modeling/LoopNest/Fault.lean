import LoopNest.Text.Quoted
/-!
# Fault — errors with a code, and chains of them

A `Fault` is what a failing command reports.  It may carry a code, it may wrap another fault as its cause, and it may
be set into a context.  The code of a fault is that of the outermost link that has one.
-/
namespace LoopNest

/-- The machine-readable name of a kind of error. -/
structure Code where
  name : String
deriving DecidableEq, Repr

namespace Code

def invalidInput : Code := ⟨"INVALID_INPUT"⟩
def invalidProgram : Code := ⟨"INVALID_PROGRAM"⟩
def invalidTensor : Code := ⟨"INVALID_TENSOR"⟩
def invalidRank : Code := ⟨"INVALID_RANK"⟩
def invalidPartition : Code := ⟨"INVALID_PARTITION"⟩
def invalidFormat : Code := ⟨"INVALID_FORMAT"⟩
def tensorNotFound : Code := ⟨"TENSOR_NOT_FOUND"⟩
def rankNotFound : Code := ⟨"RANK_NOT_FOUND"⟩
def partitionNotFound : Code := ⟨"PARTITION_NOT_FOUND"⟩
def fileNotFound : Code := ⟨"FILE_NOT_FOUND"⟩
def internal : Code := ⟨"INTERNAL_ERROR"⟩

end Code

/-- **An error and what led to it.** -/
inductive Fault where
  /-- A text without a code. -/
  | plain (text : String)
  /-- A coded message, with the fault behind it if there is one. -/
  | coded (code : Code) (message : String) (cause : Option Fault)
  /-- Another fault, seen from `label`. -/
  | within (label : String) (cause : Fault)

namespace Fault

/-- A coded fault without a cause. -/
def new (code : Code) (message : String) : Fault := .coded code message none

/-- **The whole text of a fault**, every link of the chain from the outside in. -/
def text : Fault → String
  | .plain t => t
  | .coded c m none => c.name ++ ": " ++ m
  | .coded c m (some f) => c.name ++ ": " ++ m ++ ": " ++ f.text
  | .within l f => l ++ ": " ++ f.text

/-- The outermost link with a code: the code and the message there. -/
def head? : Fault → Option (Code × String)
  | .plain _ => none
  | .coded c m _ => some (c, m)
  | .within _ f => f.head?

/-- **The code of a fault.** -/
def code? (f : Fault) : Option Code := f.head?.map Prod.fst

/-- Whether the code of a fault is `c`. -/
def hasCode (f : Fault) (c : Code) : Bool := f.code? == some c

/-- Whether a fault is the program's own, and not its user's. -/
def isInternal (f : Fault) : Bool := f.hasCode .internal

/-- **What a user is told**: the message of the outermost link with a code, or else the whole text. -/
def userMessage (f : Fault) : String :=
  match f.head? with
  | some (c, m) => if c = .internal then "internal compiler error: " ++ m else m
  | none => f.text

/-- The next link of the chain. -/
def cause? : Fault → Option Fault
  | .plain _ => none
  | .coded _ _ c => c
  | .within _ f => some f

end Fault
end LoopNest
