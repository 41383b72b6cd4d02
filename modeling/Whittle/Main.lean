import Whittle.Command.Run

/-!
# The command

Reads what the arguments name, lets `Command.plan` decide, writes the file it asks for and prints
the report.
-/

namespace Whittle.Command

/-- How to use the command, line by line. -/
def usageLines : List String :=
  ["Remove unused variable declarations from C programs",
    "",
    "Usage: whittle [OPTIONS] <FILE_PATHS>...",
    "",
    "Arguments:",
    "  <FILE_PATHS>...  C source files, or directories with --list",
    "",
    "Options:",
    "      --transformation <NAME>   Transformation to run [default: remove-unused-var]",
    "      --counter <N>             Transform the Nth instance, counting from 1",
    "      --query-instances         Only report the number of instances",
    "  -o, --output <FILE>           Write the transformed program to FILE instead of stdout",
    "  -l, --list                    List all unused variables, recursing into directories",
    "      --transformations         List the available transformations",
    "  -f, --output-format <FORMAT>  Output format: human-readable or json",
    "  -v, --verbose                 Log progress to stderr",
    "  -h, --help                    Print help"]

/-- How to use the command. -/
def usage : String := String.join (usageLines.map (· ++ "\n"))

/-- The number of an error of the system. Some calls give it negated. -/
def errorNumber (code : UInt32) : UInt32 := min code (0 - code)

/-- The cause of a failed access to a file. -/
def FileError.ofSystem (e : IO.Error) : FileError :=
  let other := FileError.system (toString e)
  match e with
  | .noFileOrDirectory _ _ _ => .missing
  | .inappropriateType _ code _ =>
    if errorNumber code = 20 then .notFolder
    else if errorNumber code = 21 then .isFolder
    else other
  | .invalidArgument _ code _ => if errorNumber code = 36 then .tooLong else other
  | _ => other

/-- What the file at a path holds. -/
def loadContent (path : String) : IO Content := do
  try
    return .ofBytes (← IO.FS.readBinFile path)
  catch e =>
    return .unreadable (.ofSystem e)

/-- The entries of the folder at a path, with everything below them. Links are left out. -/
partial def loadFolder (path : String) : IO Folder := do
  let entries ← (← IO.FS.realPath path).readDir
  entries.toList.filterMapM fun e => do
    let below := joinPath path e.fileName
    match (← e.path.symlinkMetadata).type with
    | .dir => return some (e.fileName, .folder (← loadFolder below))
    | .file => return some (e.fileName, .file (← loadContent below))
    | _ => return none

/-- The program files at and below a path. A path that leads nowhere has none. -/
def loadSources (path : String) : IO (List (String × Content)) := do
  try
    match (← (← IO.FS.realPath path).metadata).type with
    | .dir => return (Entry.folder (← loadFolder path)).sources true path path
    | .file => return [(path, ← loadContent path)]
    | _ => return []
  catch _ =>
    return []

/-- The files that a request reads. -/
def FileView.load (request : Except Refusal Request) : IO FileView := do
  match request with
  | .ok (.transform r) =>
    let contents ← r.paths.mapM fun path => return (path, ← loadContent path)
    let find path := (contents.lookup path).getD (.unreadable .missing)
    return ⟨fun path => (find path).read, fun _ => []⟩
  | .ok (.list _ paths) =>
    let sources ← paths.mapM fun path => return (path, ← loadSources path)
    return ⟨fun _ => .error .missing, fun path => (sources.lookup path).getD []⟩
  | _ => return ⟨fun _ => .error .missing, fun _ => []⟩

/-- Write the file of a plan, if it has one. -/
def Plan.perform (p : Plan) : IO (Except FileError Unit) := do
  match p.write with
  | none => return .ok ()
  | some (path, t) =>
    try
      IO.FS.writeFile path (String.ofList t)
      return .ok ()
    catch e =>
      return .error (.ofSystem e)

/-- A piece of output as text. -/
def Output.render : Output → String
  | .text t => String.ofList t
  | .listing l => l.render
  | .help => usage

end Whittle.Command

open Whittle.Command

/-- The command line. -/
def main (args : List String) : IO UInt32 := do
  let request := Request.ofArguments args
  if let .error .usage := request then IO.eprint usage
  let p := plan (← FileView.load request) args
  let report := p.finish (← p.perform)
  for o in report.out do
    IO.print o.render
  for c in report.err do
    IO.eprintln c.headline
    for d in c.details do
      IO.eprintln d
  return UInt32.ofNat report.exit
