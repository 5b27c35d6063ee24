import Splice.Body.Rejection

/-!
# Contexts of literals

A literal becomes several arguments, so it can only stand where arguments stand: in a call or
behind a template, and, unless it is a format string, in a mixin.

* `Context.admits`: whether a literal of some kind can stand in a context.
-/

namespace Splice

/-- Where a literal stands. -/
inductive Context
  | callArgument
  | templateArgument
  | mixinArgument
  /-- A place that takes no argument list. -/
  | other (place : Text)
deriving DecidableEq, Inhabited

namespace Context

/-- The name of the context in diagnostics. -/
def describe : Context → Text
  | callArgument => "call argument"
  | templateArgument => "template argument"
  | mixinArgument => "mixin argument"
  | other place => if place = [] then "this position" else place

/-- Whether a literal can stand in the context. -/
def admits (context : Context) (kind : InterpolationKind) : Bool :=
  match context with
  | callArgument | templateArgument => true
  | mixinArgument => kind = .interspersed
  | other _ => false

/-- Why a literal cannot stand in a context that does not admit it. -/
def refusal (context : Context) (kind : InterpolationKind) : Cause :=
  match context with
  | mixinArgument => .formattedMixin
  | _ => .misplaced kind context.describe

/-- Rejects a literal that cannot stand in the context. -/
def check (context : Context) (kind : InterpolationKind) : Except Rejection Unit :=
  if context.admits kind then .ok () else .error { cause := context.refusal kind }

end Context

end Splice
