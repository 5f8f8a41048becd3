import NeigeCalm.Library.Lines

/-!
# Errors

The errors a request is answered with.  A request that fails is rolled back: it changes
nothing.
-/

namespace NeigeCalm

open Library

inductive CalmError where
  | badRequest (message : Text)
  | conflict (message : Text)
  | internal (message : Text)
  | notFound (message : Text)
deriving DecidableEq

end NeigeCalm
