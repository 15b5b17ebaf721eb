/-
  PatchPresence.Json.Reader — JSON documents from text.

  The reader goes through the tokens once and keeps the containers that are still open on a stack, so
  nesting costs no call depth.
-/
import PatchPresence.Json.Token

namespace PatchPresence.Json

/-- Members of an object as they stand; a name is none when it cannot be read. -/
abbrev Members := List (Option String × Json)

/-- A container that is still open, with what it holds so far in reverse. -/
inductive Frame
  | array (items : List Json)
  | object (members : Members)
  /-- An object whose last name still lacks its value. -/
  | member (members : Members) (name : Option String)

/-- A string, where it can be read. -/
def ofString? (value : Option String) : Json := (value.map Json.string).getD .unreadable

/-- An object, where all its names can be read. -/
def ofMembers (members : Members) : Json :=
  match members.mapM fun (name, value) => name.map fun known => (known, value) with
  | some known => .object known
  | none => .unreadable

/-- What the next token has to be. -/
inductive Expecting
  /-- A value; right behind an opening bracket also the closing one. -/
  | value (mayClose : Bool)
  /-- A member name; right behind an opening brace also the closing one. -/
  | name (mayClose : Bool)
  | colon
  /-- A comma or the end of the innermost container. -/
  | separator

/-- A document being read: the innermost open container comes first. -/
structure Progress where
  frames : List Frame
  expecting : Expecting
  /-- The whole document, once it is complete. -/
  done : Option Json

namespace Progress

/-- Nothing read yet. -/
def start : Progress := ⟨[], .value false, none⟩

/-- Puts a complete value where it belongs. -/
def put (progress : Progress) (value : Json) : Option Progress :=
  match progress.frames with
  | [] => some ⟨[], .separator, some value⟩
  | .array items :: rest => some ⟨.array (value :: items) :: rest, .separator, none⟩
  | .member members name :: rest =>
    some ⟨.object ((name, value) :: members) :: rest, .separator, none⟩
  | .object _ :: _ => none

/-- Opens a container. -/
def push (progress : Progress) (frame : Frame) (expecting : Expecting) : Progress :=
  ⟨frame :: progress.frames, expecting, none⟩

/-- Closes the innermost container, an array or an object. -/
def close (progress : Progress) (isArray : Bool) : Option Progress :=
  match progress.frames, isArray with
  | .array items :: rest, true => put { progress with frames := rest } (.array items.reverse)
  | .object members :: rest, false => put { progress with frames := rest } (ofMembers members.reverse)
  | _, _ => none

/-- Takes in one token. -/
def step (progress : Progress) (token : Token) : Option Progress :=
  match progress.expecting, token with
  | .value _, .scalar value => progress.put value
  | .value _, .string value => progress.put (ofString? value)
  | .value _, .openArray => some (progress.push (.array []) (.value true))
  | .value _, .openObject => some (progress.push (.object []) (.name true))
  | .value true, .closeArray => progress.close true
  | .name _, .string name =>
    match progress.frames with
    | .object members :: rest => some ⟨.member members name :: rest, .colon, none⟩
    | _ => none
  | .name true, .closeObject => progress.close false
  | .colon, .colon => some { progress with expecting := .value false }
  | .separator, .comma =>
    match progress.frames with
    | .array _ :: _ => some { progress with expecting := .value false }
    | .object _ :: _ => some { progress with expecting := .name false }
    | _ => none
  | .separator, .closeArray => progress.close true
  | .separator, .closeObject => progress.close false
  | _, _ => none

end Progress

/-- Reads one document; only blanks may follow it. -/
def parse? (text : String) : Option Json := do
  let tokens ← Token.all? text.toList
  let final ← tokens.foldlM Progress.step Progress.start
  final.done

end PatchPresence.Json
