/-!
# Options

How a sheet is set up.
-/

namespace Recalc

/-- The options of a sheet. -/
structure Options where
  /-- Whether a group is updated right after it was added or edited. -/
  autoUpdate : Bool := false
  /-- Code that is executed when the sheet is created and after every reset. -/
  startupScript : Option String := none
  deriving DecidableEq, Repr

end Recalc
