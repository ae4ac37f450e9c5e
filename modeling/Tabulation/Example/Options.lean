import Tabulation.Config

/-!
# Command line of the example analysis

One optional number, the depth of the chain, and options in any order. `--gc` and `--log` take a
value, as the next argument or after an equals sign; the other options take none. An option given
twice, an unknown option and a value that is missing or wrong make the command line invalid. After
`--` no argument is an option.
-/

namespace Tabulation

namespace CallChain

/-- How much is logged. -/
inductive LogLevel where
  | off
  | error
  | warn
  | info
  | debug
  | trace
  deriving DecidableEq, Repr

namespace LogLevel

/-- The text of a level. -/
def text : LogLevel → String
  | .off => "Off"
  | .error => "Error"
  | .warn => "Warn"
  | .info => "Info"
  | .debug => "Debug"
  | .trace => "Trace"

/-- The level with a name, in capitals or not. -/
def parse? (s : String) : Option LogLevel :=
  [off, error, warn, info, debug, trace].find? fun level => level.text.toLower = s.toLower

end LogLevel

/-- The name of a collection mode on the command line. -/
def gcName : GcMode → String
  | .disabled => "disabled"
  | .enabled => "enabled"
  | .aggressive => "aggressive"

/-- The text of a collection mode as an option. -/
def gcText : GcMode → String
  | .disabled => "Disabled"
  | .enabled => "Enabled"
  | .aggressive => "Aggressive"

/-- The collection mode with a name. -/
def gcMode? (s : String) : Option GcMode :=
  [GcMode.disabled, .enabled, .aggressive].find? fun mode => gcName mode = s

/-- A number below 2^64: digits, with a plus sign in front or not. -/
def number? (s : String) : Option Nat :=
  let digits := match s.toList with
    | '+' :: rest => rest
    | cs => cs
  if digits.isEmpty || !digits.all (fun c => '0' ≤ c && c ≤ '9') then
    none
  else
    let n := digits.foldl (fun n c => 10 * n + (c.toNat - '0'.toNat)) 0
    if n < UInt64.size then some n else none

/-- What a command line says; what it leaves open is `none`. -/
structure Given where
  depth : Option Nat := none
  gc : Option GcMode := none
  fifo : Bool := false
  ifds : Bool := false
  dump : Bool := false
  log : Option LogLevel := none

/-- The options of the example analysis. -/
structure Options where
  depth : Nat
  gc : GcMode
  fifo : Bool
  ifds : Bool
  dump : Bool
  log : LogLevel

namespace Given

/-- Takes a number. -/
def addPositional (g : Given) (s : String) : Option Given := do
  if g.depth.isSome then none
  return { g with depth := some (← number? s) }

/-- Takes a collection mode. -/
def addGc (g : Given) (s : String) : Option Given := do
  if g.gc.isSome then none
  return { g with gc := some (← gcMode? s) }

/-- Takes a log level. -/
def addLog (g : Given) (s : String) : Option Given := do
  if g.log.isSome then none
  return { g with log := some (← LogLevel.parse? s) }

/-- Takes an option with a value. -/
def addValue (g : Given) (name value : String) : Option Given :=
  if name = "--gc" then g.addGc value
  else if name = "--log" then g.addLog value
  else none

/-- Takes an option without a value. -/
def addFlag (g : Given) (name : String) : Option Given :=
  if name = "--fifo" then if g.fifo then none else some { g with fifo := true }
  else if name = "--ifds" then if g.ifds then none else some { g with ifds := true }
  else if name = "--dump" then if g.dump then none else some { g with dump := true }
  else none

/-- Whether an argument is an option: it begins with a dash and has more than the dash. -/
def isOption (arg : String) : Bool :=
  match arg.toList with
  | '-' :: _ :: _ => true
  | _ => false

/-- The name and the value of an argument with an equals sign. -/
def splitValue (arg : String) : Option (String × String) :=
  let cs := arg.toList
  match cs.dropWhile (· ≠ '=') with
  | _ :: value => some (String.ofList (cs.takeWhile (· ≠ '=')), String.ofList value)
  | [] => none

/-- Takes all arguments. -/
def addAll (g : Given) : List String → Option Given
  | [] => some g
  | "--" :: rest => rest.foldlM addPositional g
  | "--gc" :: value :: rest => do (← g.addGc value).addAll rest
  | "--log" :: value :: rest => do (← g.addLog value).addAll rest
  | arg :: rest =>
    if isOption arg then
      match splitValue arg with
      | some (name, value) => do (← g.addValue name value).addAll rest
      | none => do (← g.addFlag arg).addAll rest
    else do
      (← g.addPositional arg).addAll rest

end Given

namespace Options

/-- The options of a command line, if it is valid. -/
def parse? (args : List String) : Option Options := do
  let g ← ({} : Given).addAll args
  return {
    depth := g.depth.getD 4
    gc := g.gc.getD .disabled
    fifo := g.fifo
    ifds := g.ifds
    dump := g.dump
    log := g.log.getD .info }

/-- The text of the options. -/
def text (o : Options) : String :=
  "Cli \x7b depth: " ++ toString o.depth ++ ", gc: " ++ gcText o.gc ++
    ", fifo: " ++ toString o.fifo ++ ", ifds: " ++ toString o.ifds ++
    ", dump: " ++ toString o.dump ++ ", log: " ++ o.log.text ++ " \x7d"

/-- The configuration of the analysis. -/
def config (o : Options) : Config :=
  { computeValues := !o.ifds, gcMode := o.gc, queueOrder := if o.fifo then .fifo else .lifo }

end Options

end CallChain

end Tabulation
