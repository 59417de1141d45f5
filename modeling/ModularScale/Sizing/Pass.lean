import ModularScale.Sizing.Root

/-! # Passes

A pass offers every declaration of a document, in document order, to the ways of giving a font
size. A rejected one is reported and takes its part of the document with it.
-/

namespace ModularScale

namespace Sizing

/-- Carries a match through. -/
def Match.run (d : Document) (m : Match α) (apply : α → Result) : Result :=
  match m with
  | .absent => .unchanged d .notApplicable
  | .present found => apply found
  | .invalid rejection => .rejected d rejection

/-- Offers a declaration to one way of giving a font size. -/
def run (table : Breakpoints) (d : Document) (id : NodeId) : Sizing → Result
  | measure => (Measure.find d id).run d (Measure.apply table d id)
  | step => (Step.find d id).run d (Step.apply table d id)
  | root => (Root.find d id).run d fun _ => Root.apply table d id

end Sizing

/-- What a pass did. -/
structure Report where
  converted : Nat
  diagnostics : List Diagnostic
deriving DecidableEq, Repr

def Report.isClean (r : Report) : Bool :=
  r.diagnostics.isEmpty

/-- A pass up to some declaration. -/
structure Pass where
  document : Document
  report : Report
  log : List Sizing.Event

namespace Pass

def start (d : Document) : Pass :=
  ⟨d, ⟨0, []⟩, []⟩

def note (p : Pass) (events : List Sizing.Event) : Pass :=
  { p with log := p.log ++ events }

def count (p : Pass) : Pass :=
  { p with report := { p.report with converted := p.report.converted + 1 } }

/-- Removes what a rejection asks for. -/
def excise (p : Pass) (id : NodeId) : Pass :=
  match p.document.remove id with
  | .ok d => { p with document := d }
  | .error e => p.note [.excisionFailed e]

/-- Carries out a rejection and reports it, with the line of the declaration or else that of the
node removed. -/
def reject (p : Pass) (line : Option Nat) (r : Rejection) : Pass :=
  let line := line.or (r.excise.bind p.document.line?)
  let p := match r.excise with
    | some id => p.excise id
    | none => p
  let diagnostic : Diagnostic := ⟨r.cause.message, line⟩
  let report := { p.report with diagnostics := p.report.diagnostics ++ [diagnostic] }
  { p with report }.note [.reported diagnostic]

/-- Offers a declaration to each way of giving a font size until one takes it. -/
def offer (table : Breakpoints) (id : NodeId) (p : Pass) : List Sizing → Pass
  | [] => p
  | sizing :: rest =>
    let result := sizing.run table p.document id
    let next := { p with document := result.document }.note result.log
    match result.outcome with
    | .notApplicable => offer table id next rest
    | .applied => next.count
    | .rejected rejection =>
      (next.note [.rejected sizing]).reject (p.document.line? id) rejection

/-- Visits a declaration, which an earlier rejection may have removed. -/
def visit (table : Breakpoints) (p : Pass) (id : NodeId) : Pass :=
  if p.document.isAttached id then p.offer table id Sizing.all else p

/-- One pass over all declarations that the document has at its start. -/
def run (table : Breakpoints) (d : Document) : Pass :=
  d.declarations.foldl (visit table) (start d)

/-- One pass with the breakpoints of a configuration, which has to be sound for that. -/
def ofSettings (settings : Settings) (d : Document) : Except SettingsError Pass :=
  (Breakpoints.ofSettings settings).map fun table => run table d

end Pass

end ModularScale
