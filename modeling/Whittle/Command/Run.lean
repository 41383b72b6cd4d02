import Whittle.Command.Arguments
import Whittle.Command.Files
import Whittle.Report.Listing

/-!
# Running the command

* `Output`, `Complaint`: what goes to standard output and to standard error.
* `Plan`: what a run prints and which file it is about to write, decided from the arguments and from
  what the files hold.
* `Plan.finish`: the report of a run, once it is known whether that file could be written.
* `run`: a whole run on a file tree.
-/

namespace Whittle.Command

/-- A piece of standard output. -/
inductive Output where
  | text (t : Text)
  /-- A listing for readers. -/
  | listing (l : Listing)
  /-- How to use the command. -/
  | help

/-- A message on standard error. -/
structure Complaint where
  headline : String
  details : List String

/-- A message of one line. -/
def Complaint.line (headline : String) : Complaint := ⟨headline, []⟩

/-- The files as a run sees them. -/
structure FileView where
  read : String → Except FileError Text
  /-- The program files at and below a path. -/
  sources : String → List (String × Content)

/-- What a file tree shows to a run. -/
def FileView.ofFolder (f : Folder) : FileView := ⟨f.read, f.sources⟩

/-- What a run has to say, and its exit code. -/
structure Report where
  exit : Nat
  out : List Output
  err : List Complaint

/-- The exit codes besides zero. -/
structure ExitCodes where
  outOfRange : Nat
  usage : Nat
  failed : Nat

/-- One says that the counter is out of range, two that the request or the input is at fault, three
that the removal failed. -/
def exitCodes : ExitCodes := ⟨1, 2, 3⟩

/-- What a run is going to do. -/
structure Plan where
  report : Report
  /-- The file to write and its text. -/
  write : Option (String × Text)

namespace Plan

/-- Print something and stop. -/
def print (out : List Output) : Plan := ⟨⟨0, out, []⟩, none⟩

/-- Complain and stop. -/
def stop (exit : Nat) (err : Complaint) (out : List Output) : Plan :=
  ⟨⟨exit, out, [err]⟩, none⟩

/-- The report of a run, given what came of writing the file. -/
def finish (p : Plan) (written : Except FileError Unit) : Report :=
  match p.write, written with
  | some _, .error e =>
    { p.report with
      exit := exitCodes.usage
      err := p.report.err ++ [.line ("Error writing output: " ++ e.message)] }
  | _, _ => p.report

end Plan

/-- The complaint about a file that cannot be read. -/
def unreadable (file : String) (e : FileError) : Complaint :=
  .line ("Error reading file " ++ file ++ ": " ++ e.message)

/-- The complaint about a file with syntax errors. -/
def unparsable (file : String) (t : Text) (errors : List SyntaxError) : Complaint :=
  { headline := "Error: Failed to parse " ++ file
    details := errors.map fun e =>
      let place := t.lineColumn e.span.start
      file ++ ":" ++ toString place.1 ++ ":" ++ toString place.2 ++ ": " ++ e.message }

/-- A line of standard output. -/
def outputLine (t : Text) : Output := .text (t ++ ['\n'])

/-! ### Listing unused variables -/

/-- What listing one file gives: a listing, or the reason why there is none. -/
def listFile (file : String) (content : Content) : Except Complaint Listing :=
  match content.read with
  | .error e => .error (unreadable file e)
  | .ok t =>
    let p := parse t
    if p.errors.isEmpty then .ok ⟨file, findings t p.root⟩ else .error (unparsable file t p.errors)

/-- A listing in a format. -/
def Format.listing (format : Format) (l : Listing) : Output :=
  match format with
  | .json => outputLine l.toJson.render
  | .human => .listing l

/-- List some files. One that cannot be read or has syntax errors does not keep the others from
being listed. -/
def listFiles (format : Format) (files : List (String × Content)) : Report :=
  let results := files.map fun (file, content) => listFile file content
  let err := results.filterMap fun
    | .ok _ => none
    | .error e => some e
  { exit := if err.isEmpty then 0 else exitCodes.usage
    out := results.filterMap fun
      | .ok l => some (format.listing l)
      | .error _ => none
    err }

/-! ### Changing a program -/

/-- What is printed of the outcome of a change. -/
def Format.outcome (format : Format) (o : Outcome) : List Output :=
  match format, o with
  | .json, o => [outputLine o.toJson.render]
  | .human, .counted count =>
    [outputLine ("Available transformation instances: " ++ toString count).toList]
  | .human, _ => []

/-- What to do about the outcome of a change. -/
def conclude (r : TransformRequest) (o : Outcome) : Plan :=
  let out := r.format.outcome o
  match o with
  | .counted _ => .print out
  | .applied t =>
    match r.output, r.format with
    | some path, _ => { Plan.print out with write := some (path, t) }
    | none, .json => .print out
    | none, .human => .print (out ++ [.text t])
  | .outOfRange _ _ =>
    .stop exitCodes.outOfRange (.line "Error: No modification to the transformed program!") out
  | .violated v => .stop exitCodes.failed (.line ("Error: " ++ v.message)) out
  | .failed e => .stop exitCodes.failed (.line ("Error: " ++ e.message)) out

/-- What to do about a request to change a program. -/
def TransformRequest.plan (r : TransformRequest) (catalogue : Catalogue) (files : FileView) :
    Plan :=
  let refuse (e : InvocationError) := Plan.stop exitCodes.usage (.line ("Error: " ++ e.message)) []
  match Invocation.make r.transformation r.counter r.queryOnly with
  | .error e => refuse e
  | .ok invocation =>
    match r.paths with
    | [file] =>
      match files.read file with
      | .error e => .stop exitCodes.usage (unreadable file e) []
      | .ok t =>
        match Program.parse t with
        | .error errors => .stop exitCodes.usage (unparsable file t errors) []
        | .ok program =>
          match catalogue.invoke invocation program with
          | .error e => refuse e
          | .ok outcome => conclude r outcome
    | paths =>
      .stop exitCodes.usage
        (.line ("Error: expected exactly one input file, got " ++ toString paths.length)) []

/-! ### The whole command -/

/-- The line on a transformation. -/
def catalogueLine (t : Transformation) : Output :=
  outputLine (t.name ++ ": " ++ t.description).toList

/-- What to do about a request. -/
def Request.plan (files : FileView) : Request → Plan
  | .catalogue => .print (Catalogue.builtin.map catalogueLine)
  | .list format paths => ⟨listFiles format (paths.flatMap files.sources), none⟩
  | .transform r => r.plan .builtin files

/-- What to do about some arguments. -/
def plan (files : FileView) (args : List String) : Plan :=
  match Request.ofArguments args with
  | .ok request => request.plan files
  | .error .help => .print [.help]
  | .error .usage => ⟨⟨exitCodes.usage, [], []⟩, none⟩

/-- Run the command on a file tree. -/
def run (args : List String) (f : Folder) : Report × Folder :=
  let p := plan (.ofFolder f) args
  match p.write with
  | none => (p.finish (.ok ()), f)
  | some (path, t) =>
    match f.write path t with
    | .ok g => (p.finish (.ok ()), g)
    | .error e => (p.finish (.error e), f)

end Whittle.Command
