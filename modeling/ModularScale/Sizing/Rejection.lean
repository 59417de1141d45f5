import ModularScale.Document.Basic
import ModularScale.Scale.Conversion

/-! # Rejections

A font size that cannot be converted takes a part of the style sheet with it.
-/

namespace ModularScale

inductive SizingError
  /-- A responsive at-rule names no breakpoint; `valid` lists those there are. -/
  | unknownBreakpoint (param valid : String)
  | unsupportedScope (atRule : String)
  | invalidStep (argument : String)
  | stepOutsideRule (place : String)
  | conversion (e : ConversionError)
  | tree (e : TreeError)
deriving DecidableEq, Repr

namespace SizingError

def message : SizingError → String
  | unknownBreakpoint param valid =>
    "`" ++ param ++ "` is not a configured breakpoint; use one of " ++ valid ++
      " to convert ms to rem"
  | unsupportedScope atRule =>
    "ms values inside @" ++ atRule ++
      " cannot be resolved; wrap them in @t-above, @t-below or @t-only"
  | invalidStep argument =>
    "`" ++ argument ++ "` is not a valid t-ms() argument; use a number, for example t-ms(3)"
  | stepOutsideRule place =>
    "t-ms() must sit directly inside a style rule, found it inside " ++ place
  | conversion e => e.message
  | tree e => e.message

end SizingError

/-- Why a declaration was rejected, and which node is to be removed because of it. -/
structure Rejection where
  excise : Option NodeId
  cause : SizingError
deriving DecidableEq, Repr

namespace Rejection

def excising (id : NodeId) (cause : SizingError) : Rejection :=
  ⟨some id, cause⟩

def ofTree (e : TreeError) : Rejection :=
  ⟨none, .tree e⟩

end Rejection

/-- A rejection as it is reported, with the line of the declaration if it is known. -/
structure Diagnostic where
  message : String
  line : Option Nat
deriving DecidableEq, Repr

def Diagnostic.describe (d : Diagnostic) : String :=
  match d.line with
  | some n => "line " ++ toString n ++ ": " ++ d.message
  | none => d.message

end ModularScale
