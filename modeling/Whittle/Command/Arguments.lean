import Whittle.Catalogue

/-!
# The arguments of the command line

* `Flag`, `Setting`: the options without and with a value.
* `Given`: the options and paths found among the arguments.
* `Request`: what the arguments ask for.
* `Request.ofArguments`: reads the arguments. Options may stand between paths and may not repeat;
  `--` ends them. A value follows its option as the next argument, which must not look like an
  option, or within the same argument.
-/

namespace Whittle.Command

/-- The options without a value. -/
inductive Flag where
  | queryInstances
  | list
  | transformations
  | verbose
deriving DecidableEq

/-- The options with a value. -/
inductive Setting where
  | transformation
  | counter
  | output
  | format
deriving DecidableEq

/-- An option by its name. -/
inductive OptionName where
  | help
  | flag (f : Flag)
  | setting (s : Setting)

/-- How results are written. -/
inductive Format where
  | human
  | json
deriving DecidableEq

/-- Why arguments lead to no request. -/
inductive Refusal where
  /-- They are no arguments of this command. -/
  | usage
  /-- They ask for help. -/
  | help
deriving DecidableEq

/-- The long names of options. -/
def OptionName.ofLong? : String → Option OptionName
  | "help" => some .help
  | "query-instances" => some (.flag .queryInstances)
  | "list" => some (.flag .list)
  | "transformations" => some (.flag .transformations)
  | "verbose" => some (.flag .verbose)
  | "transformation" => some (.setting .transformation)
  | "counter" => some (.setting .counter)
  | "output" => some (.setting .output)
  | "output-format" => some (.setting .format)
  | _ => none

/-- The short names of options. -/
def OptionName.ofShort? : Char → Option OptionName
  | 'h' => some .help
  | 'l' => some (.flag .list)
  | 'v' => some (.flag .verbose)
  | 'o' => some (.setting .output)
  | 'f' => some (.setting .format)
  | _ => none

/-- The greatest counter. -/
def maxCounter : Nat := UInt64.size - 1

/-- A decimal number, perhaps after a plus sign, that is no greater than `maxCounter`. -/
def counter? (value : Text) : Option Nat :=
  let digits := match value with
    | '+' :: rest => rest
    | _ => value
  if digits.isEmpty || !digits.all Char.isDigit then none
  else
    let n := digits.foldl (fun n c => 10 * n + (c.toNat - '0'.toNat)) 0
    if n ≤ maxCounter then some n else none

/-- A format by its name. -/
def Format.ofName? : String → Option Format
  | "human-readable" => some .human
  | "json" => some .json
  | _ => none

/-- The options and paths found so far. -/
structure Given where
  flags : List Flag
  transformation : Option String
  counter : Option Nat
  output : Option String
  format : Option Format
  paths : List String

namespace Given

/-- Nothing found. -/
def nothing : Given := ⟨[], none, none, none, none, []⟩

/-- Note a flag, which must be new. -/
def addFlag (g : Given) (f : Flag) : Except Refusal Given :=
  if f ∈ g.flags then .error .usage else .ok { g with flags := f :: g.flags }

/-- Note the value of an option, which must be new and make sense. -/
def addSetting (g : Given) (s : Setting) (value : Text) : Except Refusal Given :=
  match s with
  | .transformation =>
    if g.transformation.isSome then .error .usage
    else .ok { g with transformation := some (String.ofList value) }
  | .counter =>
    match g.counter, counter? value with
    | none, some n => .ok { g with counter := some n }
    | _, _ => .error .usage
  | .output =>
    if g.output.isSome then .error .usage
    else .ok { g with output := some (String.ofList value) }
  | .format =>
    match g.format, Format.ofName? (String.ofList value) with
    | none, some f => .ok { g with format := some f }
    | _, _ => .error .usage

/-- Note a path. -/
def addPath (g : Given) (path : String) : Given := { g with paths := g.paths ++ [path] }

/-- Read a long option, the part after its two dashes. Gives the option that still lacks its value,
if there is one. -/
def addLong (g : Given) (arg : Text) : Except Refusal (Given × Option Setting) :=
  let name := String.ofList (arg.takeWhile (· ≠ '='))
  let value : Option Text := match arg.dropWhile (· ≠ '=') with
    | [] => none
    | _ :: value => some value
  match OptionName.ofLong? name, value with
  | some .help, none => .error .help
  | some (.flag f), none => return (← g.addFlag f, none)
  | some (.setting s), none => .ok (g, some s)
  | some (.setting s), some value => return (← g.addSetting s value, none)
  | _, _ => .error .usage

/-- Read short options that stand together, the part after their dash. The rest after an option
with a value is that value, perhaps after an equals sign. Gives the option that still lacks its
value, if there is one. -/
def addShort (g : Given) : Text → Except Refusal (Given × Option Setting)
  | [] => .ok (g, none)
  | c :: rest =>
    match OptionName.ofShort? c, rest with
    | some .help, _ => .error .help
    | some (.flag f), rest => do (← g.addFlag f).addShort rest
    | some (.setting s), [] => .ok (g, some s)
    | some (.setting s), '=' :: value => return (← g.addSetting s value, none)
    | some (.setting s), value => return (← g.addSetting s value, none)
    | none, _ => .error .usage

/-- Read the arguments, with `pending` the option whose value comes next. -/
def addAll (g : Given) (pending : Option Setting) : List String → Except Refusal Given
  | [] => if pending.isSome then .error .usage else .ok g
  | arg :: args =>
    match pending, arg.toList with
    | none, ['-', '-'] => .ok (args.foldl addPath g)
    | none, '-' :: '-' :: long => do
      let (g, pending) ← g.addLong long
      g.addAll pending args
    | none, '-' :: c :: short => do
      let (g, pending) ← g.addShort (c :: short)
      g.addAll pending args
    | none, _ => (g.addPath arg).addAll none args
    | some _, '-' :: _ :: _ => .error .usage
    | some s, value => do (← g.addSetting s value).addAll none args

/-- Whether nothing but one flag was found. -/
def isOnly (g : Given) (f : Flag) : Bool :=
  g.flags = [f] && g.transformation.isNone && g.counter.isNone && g.output.isNone &&
    g.format.isNone && g.paths.isEmpty

/-- Whether options were found that exclude each other. -/
def conflicts (g : Given) : Bool :=
  (g.flags.contains .queryInstances && g.counter.isSome) ||
    (g.flags.contains .list &&
      (g.counter.isSome || g.flags.contains .queryInstances || g.output.isSome))

end Given

/-- A request to change one program. -/
structure TransformRequest where
  transformation : String
  counter : Option Nat
  queryOnly : Bool
  output : Option String
  format : Format
  paths : List String

/-- What the arguments ask for. -/
inductive Request where
  /-- The available transformations. -/
  | catalogue
  /-- The unused variables of all files at and below some paths. -/
  | list (format : Format) (paths : List String)
  | transform (request : TransformRequest)

namespace Request

/-- What the options and paths ask for. -/
def ofGiven (g : Given) : Except Refusal Request :=
  let format := g.format.getD .human
  if g.flags.contains .transformations then
    if g.isOnly .transformations then .ok .catalogue else .error .usage
  else if g.paths.isEmpty || g.conflicts then .error .usage
  else if g.flags.contains .list then .ok (.list format g.paths)
  else
    .ok (.transform
      { transformation := g.transformation.getD Transformation.removeUnusedVar.name
        counter := g.counter
        queryOnly := g.flags.contains .queryInstances
        output := g.output
        format
        paths := g.paths })

/-- Read the arguments. -/
def ofArguments (args : List String) : Except Refusal Request := do
  ofGiven (← Given.nothing.addAll none args)

end Request

end Whittle.Command
