import ModularScale.Text.Blank
import ModularScale.Text.UpperCase

/-! # Casing of names

One name can be written in camel case (`largeTablet`) or with dashes (`large-tablet`).
-/

namespace ModularScale.Text

/-- Lower case for the letters of ASCII alone. -/
def asciiLower (cs : List Char) : List Char :=
  cs.map Char.toLower

def eqIgnoringCase (a b : List Char) : Bool :=
  asciiLower a == asciiLower b

/-- Drops the dashes, and writes in upper case what follows one. -/
def joinDashed (afterDash : Bool) : List Char → List Char
  | [] => []
  | c :: cs =>
    if c = '-' then joinDashed true cs
    else if afterDash then upperCase c ++ joinDashed false cs
    else c :: joinDashed false cs

def camelCase (cs : List Char) : List Char :=
  joinDashed false (trim cs)

/-- Writes capitals in lower case, with a dash before each that does not start the name or follow
a dash. -/
def splitCapitals (previous : Option Char) : List Char → List Char
  | [] => []
  | c :: cs =>
    if c.isUpper && previous.any (· != '-') then
      '-' :: c.toLower :: splitCapitals (some c.toLower) cs
    else
      c.toLower :: splitCapitals (some c.toLower) cs

def kebabCase (cs : List Char) : List Char :=
  splitCapitals none (trim cs)

end ModularScale.Text
