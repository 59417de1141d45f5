/-! # Arguments

What a call of the program asks for. Options and flags may be given once, a value may not be empty,
and the arguments count from left to right.
-/

namespace ModularScale.CommandLine

structure Options where
  config : Option String := none
  output : Option String := none
  json : Bool := false
  strict : Bool := false
  input : Option String := none
deriving DecidableEq, Repr

inductive Request
  | work (options : Options)
  | version
  | help
  | misuse
deriving DecidableEq, Repr

/-- The options that take a value. -/
inductive Parameter
  | config
  | output
  | input
deriving DecidableEq, Repr

inductive Flag
  | json
  | strict
  | version
  | help
deriving DecidableEq, Repr

/-- One argument, apart from what follows it. -/
inductive Argument
  /-- An option or the input with its value. -/
  | value (parameter : Parameter) (value : String)
  /-- An option whose value is the next argument. -/
  | awaiting (parameter : Parameter)
  | flag (flag : Flag)
  /-- The mark after which all arguments are inputs. -/
  | endOfOptions
  | unknown
deriving DecidableEq, Repr

namespace Options

def get (o : Options) : Parameter → Option String
  | .config => o.config
  | .output => o.output
  | .input => o.input

/-- Sets a value that is not empty and was not set before. -/
def set? (o : Options) (parameter : Parameter) (value : String) : Option Options :=
  if value.isEmpty || (o.get parameter).isSome then none
  else match parameter with
    | .config => some { o with config := some value }
    | .output => some { o with output := some value }
    | .input => some { o with input := some value }

end Options

namespace Argument

def ofLongName (name : List Char) : Argument :=
  match String.ofList name with
  | "config" => .awaiting .config
  | "output" => .awaiting .output
  | "json" => .flag .json
  | "strict" => .flag .strict
  | "version" => .flag .version
  | "help" => .flag .help
  | _ => .unknown

/-- A long option, with its value behind a `=` if it has one there. -/
def ofLong (cs : List Char) : Argument :=
  match ofLongName (cs.takeWhile (· != '=')), cs.dropWhile (· != '=') with
  | argument, [] => argument
  | .awaiting parameter, _ :: cs => .value parameter (String.ofList cs)
  | _, _ => .unknown

/-- The value of a short option, if it stands right behind its letter. -/
def ofShortValue (parameter : Parameter) : List Char → Argument
  | [] => .awaiting parameter
  | '=' :: cs => .value parameter (String.ofList cs)
  | cs => .value parameter (String.ofList cs)

def ofShort : List Char → Argument
  | 'c' :: cs => ofShortValue .config cs
  | 'o' :: cs => ofShortValue .output cs
  | 'V' :: _ => .flag .version
  | 'h' :: _ => .flag .help
  | _ => .unknown

def ofText (text : String) : Argument :=
  match text.toList with
  | ['-', '-'] => .endOfOptions
  | '-' :: '-' :: cs => ofLong cs
  | '-' :: c :: cs => ofShort (c :: cs)
  | _ => .value .input text

/-- Whether an argument can be the value of an option before it. -/
def isValue (text : String) : Bool :=
  match ofText text with
  | .value .input _ => true
  | _ => false

end Argument

namespace Request

/-- Reads arguments that are all inputs. -/
def ofInputs (o : Options) : List String → Request
  | [] => .work o
  | arg :: args =>
    match o.set? .input arg with
    | some o => ofInputs o args
    | none => .misuse

/-- Reads arguments behind those that were read into `o`. -/
def ofArguments (o : Options) : List String → Request
  | [] => .work o
  | arg :: args =>
    match Argument.ofText arg with
    | .value parameter value =>
      match o.set? parameter value with
      | some o => ofArguments o args
      | none => .misuse
    | .awaiting parameter =>
      match args with
      | [] => .misuse
      | value :: args =>
        if Argument.isValue value then
          match o.set? parameter value with
          | some o => ofArguments o args
          | none => .misuse
        else .misuse
    | .flag .json => if o.json then .misuse else ofArguments { o with json := true } args
    | .flag .strict => if o.strict then .misuse else ofArguments { o with strict := true } args
    | .flag .version => .version
    | .flag .help => .help
    | .endOfOptions => ofInputs o args
    | .unknown => .misuse

/-- Fills in the configuration that the environment names. -/
def withDefaultConfig (config : Option String) : Request → Request
  | .work o =>
    match o.config, config with
    | none, some path =>
      match o.set? .config path with
      | some o => .work o
      | none => .misuse
    | _, _ => .work o
  | request => request

/-- The request of a call with the given arguments, where the environment may name a
configuration. -/
def ofCall (args : List String) (config : Option String) : Request :=
  (ofArguments {} args).withDefaultConfig config

end Request

end ModularScale.CommandLine
