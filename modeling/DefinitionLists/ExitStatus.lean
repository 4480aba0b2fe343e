/-
Module: DefinitionLists.ExitStatus
Purpose: How a run of the program ends, and the number that tells it.
Main exports: ExitStatus, ExitStatus.ofConversion, ExitStatus.code
-/

namespace DefinitionLists

/-- How a run ended. -/
inductive ExitStatus where
  /-- Every input was converted and the output written. -/
  | success
  /-- An input could not be read or converted; the others were written. -/
  | conversionFailed
  /-- The arguments or the settings are wrong, or the output could not be written. -/
  | toolError
deriving Repr, Inhabited, DecidableEq

namespace ExitStatus

/-- The status of a run that wrote its output. -/
def ofConversion (allConverted : Bool) : ExitStatus :=
  if allConverted then .success else .conversionFailed

/-- The number that the program exits with. -/
def code : ExitStatus → Nat
  | .success => 0
  | .conversionFailed => 1
  | .toolError => 2

/-- The name of a status. -/
def name : ExitStatus → String
  | .success => "Success"
  | .conversionFailed => "ConversionFailed"
  | .toolError => "ToolError"

end ExitStatus

end DefinitionLists
