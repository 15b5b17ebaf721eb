/-
  PatchPresence.CommandLine.Arguments — what the arguments of the program ask for.

  An option takes its value after an equals sign or from the next argument, which then may not start
  with a hyphen; a lone hyphen is a value. Nothing may be given twice, and there are no positional
  arguments. The first argument that is wrong, or that asks for a text, decides.
-/
import PatchPresence.Decimal.Parse
import PatchPresence.Text.Cut

namespace PatchPresence.CommandLine

/-! ## §1. Arguments. -/

/-- Options with a value. -/
inductive ValueOption
  | request
  | config
  | output
  | margin
deriving DecidableEq, Repr

/-- Options without a value. -/
inductive Switch
  | strict
  | quiet
  | timing
  | verbose
deriving DecidableEq, Repr

/-- What an option name stands for. -/
inductive OptionName
  | value (option : ValueOption)
  | switch (switch : Switch)
  | version
  | help
deriving DecidableEq, Repr

/-- Options by their long names. -/
def longNames : List (String × OptionName) :=
  [("request", .value .request), ("config", .value .config), ("output", .value .output),
    ("margin", .value .margin), ("strict", .switch .strict), ("quiet", .switch .quiet),
    ("timing", .switch .timing), ("verbose", .switch .verbose), ("version", .version),
    ("help", .help)]

/-- Options by their short names. -/
def shortNames : List (Char × OptionName) :=
  [('v', .switch .verbose), ('V', .version), ('h', .help)]

/-- Arguments read so far. -/
structure Draft where
  request : Option String := none
  config : Option String := none
  output : Option String := none
  margin : Option Float := none
  /-- Switches that were given. -/
  switches : List Switch := []
deriving DecidableEq, Repr

/-- A run of the analysis. -/
structure Arguments where
  request : String
  config : Option String
  output : Option String
  /-- Margin over the configured one. -/
  margin : Option Float
  strict : Bool
  quiet : Bool
  timing : Bool
  verbose : Bool
deriving DecidableEq, Repr

/-- What the program is asked for. -/
inductive Command
  | analyze (arguments : Arguments)
  | version
  | help
  /-- The arguments are wrong. -/
  | misuse
deriving DecidableEq, Repr

namespace Draft

/-- A path that is not empty, for an option that has none. -/
def path? (old : Option String) (text : String) : Option String :=
  if old.isSome || text.isEmpty then none else some text

/-- Sets the value of an option. -/
def withValue? (draft : Draft) (option : ValueOption) (text : String) : Option Draft :=
  match option with
  | .request => do return { draft with request := some (← path? draft.request text) }
  | .config => do return { draft with config := some (← path? draft.config text) }
  | .output => do return { draft with output := some (← path? draft.output text) }
  | .margin =>
    if draft.margin.isSome then none
    else do return { draft with margin := some (← Decimal.float? text) }

/-- Sets a switch. -/
def withSwitch? (draft : Draft) (switch : Switch) : Option Draft :=
  if draft.switches.contains switch then none
  else some { draft with switches := switch :: draft.switches }

/-- What complete arguments ask for. -/
def finish (draft : Draft) : Command :=
  match draft.request with
  | none => .misuse
  | some request => .analyze {
      request
      config := draft.config
      output := draft.output
      margin := draft.margin
      strict := draft.switches.contains .strict
      quiet := draft.switches.contains .quiet
      timing := draft.switches.contains .timing
      verbose := draft.switches.contains .verbose }

end Draft

/-! ## §2. Reading. -/

/-- Goes on behind a switch or a request for a text. -/
def proceed (draft : Draft) (name : Option OptionName) : Draft ⊕ Command :=
  match name with
  | some (.switch switch) =>
    match draft.withSwitch? switch with
    | some next => .inl next
    | none => .inr .misuse
  | some .version => .inr .version
  | some .help => .inr .help
  | some (.value _) | none => .inr .misuse

/-- Reads short names that stand together. -/
def readShorts (draft : Draft) : List Char → Draft ⊕ Command
  | [] => .inl draft
  | c :: rest =>
    match proceed draft (shortNames.lookup c) with
    | .inl next => readShorts next rest
    | .inr command => .inr command

/-- Whether an argument can be the value of the option before it. -/
def isValue (text : String) : Bool := text.toList.head? != some '-' || text == "-"

/-- Name of a long option, and the value behind an equals sign. -/
def splitLong (text : List Char) : String × Option String :=
  match Text.cut? ['='] text with
  | some (name, value) => (String.ofList name, some (String.ofList value))
  | none => (String.ofList text, none)

/-- Reads arguments one by one. -/
def readArguments (draft : Draft) : List String → Command
  | [] => draft.finish
  | argument :: rest =>
    match argument.toList with
    | ['-', '-'] => if rest.isEmpty then draft.finish else .misuse
    | '-' :: '-' :: long =>
      let (name, attached) := splitLong long
      match longNames.lookup name, attached with
      | some (.value option), some text =>
        match draft.withValue? option text with
        | some next => readArguments next rest
        | none => .misuse
      | some (.value option), none =>
        match rest with
        | [] => .misuse
        | text :: others =>
          if isValue text then
            match draft.withValue? option text with
            | some next => readArguments next others
            | none => .misuse
          else
            .misuse
      | _, some _ => .misuse
      | other, none =>
        match proceed draft other with
        | .inl next => readArguments next rest
        | .inr command => command
    | '-' :: c :: shorts =>
      match readShorts draft (c :: shorts) with
      | .inl next => readArguments next rest
      | .inr command => command
    | _ => .misuse

/-- What the arguments of the program ask for. -/
def Command.parse (arguments : List String) : Command := readArguments {} arguments

end PatchPresence.CommandLine
