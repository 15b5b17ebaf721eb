/-
  PatchPresence.CommandLine.Run — what a run of the program does, given the files that it can read.
-/
import PatchPresence.CommandLine.Arguments
import PatchPresence.Exchange.Config
import PatchPresence.Exchange.Patch
import PatchPresence.Json.Reader
import PatchPresence.Json.Writer

namespace PatchPresence.CommandLine

/-- Name of the program. -/
def programName : String := "patchprobe"

/-- Version of the program. -/
def programVersion : String := "0.1.0"

/-- What there is at a path. -/
inductive Contents
  | missing
  /-- Something that has no text. -/
  | unreadable
  | text (text : String)
deriving DecidableEq, Repr

/-- Why a run fails. -/
inductive RunFault
  | requestNotFound (path : String)
  | unreadableFile (path : String)
  | unparsableFile (path : String)
  /-- The settings of a file are refused. -/
  | refusedFile (fault : ConfigFault)
  /-- The settings are refused with those of the arguments. -/
  | refusedSettings
  | uncreatableFile (path : String)
deriving DecidableEq, Repr

/-- Wording of a fault. -/
def RunFault.message : RunFault → String
  | .requestNotFound path => "request not found: " ++ path
  | .unreadableFile path => "failed to read " ++ path
  | .unparsableFile path => "failed to parse " ++ path
  | .refusedFile fault => fault.message
  | .refusedSettings => "invalid configuration"
  | .uncreatableFile path => "failed to create " ++ path

/-- A request: the artifact, and the vulnerabilities to look for. -/
structure Request where
  methods : List MethodBody
  vulnerabilities : List Vulnerability

/-- Reads a request; the fields of variants may stand in order. -/
def Request.decode : Decoder Request := fun json => do
  let record ← Decoder.fields ["methods", "vulnerabilities"] json
  return {
    methods := ← record.withDefault "methods" []
      (Decoder.list (Exchange.methodBody .byNameOrPlace))
    vulnerabilities := ← record.withDefault "vulnerabilities" []
      (Decoder.list (Exchange.vulnerability .byNameOrPlace)) }

/-! ## §1. Input. -/

/-- Reads a file of JSON. -/
def load {α : Type} (files : String → Contents) (path : String) (value : Decoder α) :
    Except RunFault α :=
  match files path with
  | .text text =>
    match (Json.parse? text).bind value with
    | some result => .ok result
    | none => .error (.unparsableFile path)
  | _ => .error (.unreadableFile path)

/-- Settings of a file, or the defaults. -/
def loadConfig (files : String → Contents) : Option String → Except RunFault Config
  | none => .ok {}
  | some path => do
    let config ← load files path Exchange.config
    match config.validate with
    | .ok () => return config
    | .error fault => throw (.refusedFile fault)

/-- Settings of a run: those of a file, changed by the arguments. -/
def settings (files : String → Contents) (arguments : Arguments) : Except RunFault Config := do
  let loaded ← loadConfig files arguments.config
  let config : Config := { loaded with
    margin := arguments.margin.getD loaded.margin
    strict := loaded.strict || arguments.strict }
  match config.validate with
  | .ok () => return config
  | .error _ => throw .refusedSettings

/-! ## §2. Report. -/

/-- Number of methods of a request whose analysis failed. -/
def failedCount (bodies : List MethodBody) (artifact : TargetArtifact) : Nat :=
  (bodies.filter fun body =>
    match artifact.get? body.signature with
    | some (.error _) => true
    | _ => false).length

/-- How the program was run, as a document. -/
def invocationJson (arguments : List String) (config : Config) (analysed failed : Nat) : Json :=
  .object [
    ("arguments", Json.ofList Json.string arguments),
    ("command_line", .string (" ".intercalate arguments)),
    ("margin", Exchange.floatJson config.margin),
    ("presence_threshold", Exchange.floatJson config.presenceThreshold),
    ("strict_opcodes", .bool config.strict),
    ("analysed_methods", Json.ofNat analysed),
    ("failed_methods", Json.ofNat failed)]

/-- Report of a run as a document. -/
def reportDocument (arguments : List String) (config : Config) (request : Request) : Json :=
  let artifact := TargetArtifact.analyze request.methods config
  let failed := failedCount request.methods artifact
  .object [
    ("tool", .object [("name", .string programName), ("version", .string programVersion)]),
    ("invocation", invocationJson arguments config (artifact.size - failed) failed),
    ("results", Json.ofList Exchange.reportJson
      (PatchReport.analyzeAll config request.vulnerabilities artifact))]

/-- Report of a run as text; `arguments` starts with the name of the program. -/
def report (files : String → Contents) (arguments : List String) (options : Arguments) :
    Except RunFault String := do
  if files options.request = .missing then
    throw (.requestNotFound options.request)
  let config ← settings files options
  let request ← load files options.request Request.decode
  return (reportDocument arguments config request).pretty 0 ++ "\n"

/-- Where a report goes: a path, or none for standard output. A hyphen names standard output. -/
def destination? (output : Option String) : Option String :=
  output.filter fun path =>
    match Text.pieces '/' path.toList with
    | ['-'] :: rest => !rest.all fun piece => piece.isEmpty || piece == ['.']
    | _ => true

/-! ## §3. Runs. -/

/-- What a run leaves. -/
inductive RunResult
  /-- Text for standard output. -/
  | printed (text : String)
  /-- Text for a file. -/
  | written (path text : String)
  | failed (fault : RunFault)
  | misused
deriving DecidableEq, Repr

/-- Usage of the program. -/
def helpText : String :=
  "Decide whether JVM bytecode contains known security patches.\n\nUsage: " ++ programName ++
    " [OPTIONS] --request <PATH>\n"

/-- Runs the program on its arguments. -/
def run (files : String → Contents) (arguments : List String) : RunResult :=
  match Command.parse arguments with
  | .misuse => .misused
  | .version => .printed (programName ++ " " ++ programVersion ++ "\n")
  | .help => .printed helpText
  | .analyze options =>
    match report files (programName :: arguments) options with
    | .error fault => .failed fault
    | .ok text =>
      match destination? options.output with
      | some path => .written path text
      | none => .printed text

end PatchPresence.CommandLine
