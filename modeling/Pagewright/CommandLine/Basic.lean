import Pagewright.Path.Basic

/-!
# The command line

The program builds a site, watches it, or compiles a single template. `Invocation` holds what a
command line asks for; `UsageError` says why one is refused, or that it asks for help.
-/

namespace Pagewright

open scoped Pagewright.Path

/-- The flags of the commands that build the site. -/
structure BuildFlags where
  /-- Empty the output directory first. -/
  clean : Bool := false
  /-- Do not escape the output of `{{ }}`. -/
  unsafeOutput : Bool := false
  /-- Log every template and file. -/
  verbose : Bool := false
  deriving Repr, DecidableEq

/-- What the program is asked to do. -/
inductive Command where
  | build (flags : BuildFlags)
  | watch (flags : BuildFlags)
  | compile (file : Path) (path : Option Path) (unsafeOutput : Bool)
  deriving Repr, DecidableEq

/-- A whole command line. -/
structure Invocation where
  root : Option Path := none
  source : Option Path := none
  output : Option Path := none
  config : Path := "bladerunner.toml"
  command : Command
  deriving Repr, DecidableEq

/-- Why a command line is not followed. -/
inductive UsageError where
  | unknownArgument
  | invalidSubcommand
  | missingSubcommand
  | missingRequiredArgument
  | invalidValue
  | tooManyValues
  | argumentConflict
  | help
  | version
  /-- Help, because nothing was asked for. -/
  | helpForNothing
  deriving Repr, DecidableEq

namespace Invocation

/-- Whether the site is to be watched. -/
def isWatch (invocation : Invocation) : Bool :=
  match invocation.command with
  | .watch _ => true
  | _ => false

/-- The flags of a command that builds the site. -/
def flags? (invocation : Invocation) : Option BuildFlags :=
  match invocation.command with
  | .build flags => some flags
  | .watch flags => some flags
  | .compile .. => none

end Invocation

end Pagewright
