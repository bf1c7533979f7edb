import LazyGraph.Json.Reader
import LazyGraph.Schema
import LazyGraph.Selection
import LazyGraph.Text

/-!
Selection paths: fields with dots between them, each with arguments in parentheses where it has
some, as in `user(id:1,role:"admin").friends[0].name`.

Argument values are JSON. List positions, as a suffix in brackets or as a segment of digits, lead
to items and select nothing.
-/
namespace LazyGraph

/-- A field of a selection path. -/
structure PathSegment where
  name : String
  arguments : Fields Json := []
  deriving Inhabited

namespace SelectionPath

/-- What is wrong with a selection path. -/
inductive Fault
  | unbalanced (text : String)
  | emptySegment (path : String)
  | noField (path : String)
  | unclosedArguments (segment : String)
  | notAPair (argument : String)
  | notJson (argument : String)
  | unknownArgument (argument field : String)
  /-- A fault in a segment of a path. -/
  | within (path : String) (fault : Fault)
  deriving DecidableEq, Repr

/-- `complaint` words what the reader of JSON says. -/
def Fault.messageWith (complaint : String) : Fault → String
  | .unbalanced text => s!"unbalanced brackets in '{text}'"
  | .emptySegment path => s!"empty segment in '{path}'"
  | .noField path => s!"path '{path}' selects no field"
  | .unclosedArguments segment => s!"unclosed arguments in '{segment}'"
  | .notAPair argument => s!"argument '{argument}' is not name:value"
  | .notJson argument => s!"argument '{argument}' is not valid JSON: {complaint}"
  | .unknownArgument argument field => s!"unknown argument '{argument}' on '{field}'"
  | .within path fault => s!"in path '{path}': {fault.messageWith complaint}"

/-- Where a scan stands: how many brackets are open, and whether it is in a string. -/
inductive Mode
  | outside (depth : Nat)
  | string (depth : Nat)
  | escape (depth : Nat)
  deriving DecidableEq, Repr

/-- The mode after a character; a bracket that closes nothing has none. All kinds of brackets
count alike. -/
def Mode.next? (m : Mode) (c : Char) : Option Mode :=
  match m with
  | .escape depth => some (.string depth)
  | .string depth =>
    if c = '\\' then some (.escape depth)
    else if c = '"' then some (.outside depth)
    else some (.string depth)
  | .outside depth =>
    if c = '"' then some (.string depth)
    else if c = '(' ∨ c = '[' ∨ c = '\x7b' then some (.outside (depth + 1))
    else if c = ')' ∨ c = ']' ∨ c = '\x7d' then
      if depth = 0 then none else some (.outside (depth - 1))
    else some (.outside depth)

/-- The pieces between the separators that stand outside of brackets and strings. -/
def splitFrom? (sep : Char) (m : Mode) (piece : List Char) : List Char → Option (List (List Char))
  | [] => if m = .outside 0 then some [piece.reverse] else none
  | c :: cs =>
    if c = sep ∧ m = .outside 0 then (splitFrom? sep m [] cs).map (piece.reverse :: ·)
    else match m.next? c with
      | some m => splitFrom? sep m (c :: piece) cs
      | none => none

def split (sep : Char) (cs : List Char) : Except Fault (List (List Char)) :=
  match splitFrom? sep (.outside 0) [] cs with
  | some pieces => .ok pieces
  | none => .error (.unbalanced (String.ofList cs))

/-- The characters in front of the last opening bracket, in reverse, if there is one. -/
def beforeBracket? : List Char → Option (List Char)
  | [] => none
  | '[' :: rest => some rest
  | _ :: rest => beforeBracket? rest

/-- Strips position suffixes off a reversed segment. Each strips a character at least. -/
def stripPositions : Nat → List Char → List Char
  | fuel + 1, ']' :: rest =>
    match beforeBracket? (']' :: rest) with
    | some rest => stripPositions fuel rest
    | none => ']' :: rest
  | _, cs => cs

/-- A segment without the position suffixes at its end. -/
def withoutPositions (cs : List Char) : List Char :=
  (stripPositions cs.length cs.reverse).reverse

/-- Reads `name:value`. -/
def argument (cs : List Char) : Except Fault (String × Json) :=
  match cs.dropWhile (· ≠ ':') with
  | [] => .error (.notAPair (String.ofList cs))
  | _ :: value =>
    let name := String.ofList (Text.stripBoth Text.isBlank (cs.takeWhile (· ≠ ':')))
    match Json.parseChars? (Text.stripBoth Text.isBlank value) with
    | some v => .ok (name, v)
    | none => .error (.notJson name)

/-- Reads arguments with commas between them; blank ones are passed over. -/
def arguments (cs : List Char) : Except Fault (Fields Json) := do
  let pieces ← split ',' cs
  let pieces := (pieces.map (Text.stripBoth Text.isBlank)).filter (!·.isEmpty)
  pure (Fields.ofList (← pieces.mapM argument))

/-- Reads a field with the arguments that may follow its name. -/
def segment (cs : List Char) : Except Fault PathSegment :=
  match cs.dropWhile (· ≠ '(') with
  | [] => .ok { name := String.ofList cs }
  | _ :: rest =>
    if rest.getLast? = some ')' then do
      let arguments ← arguments rest.dropLast
      let name := String.ofList (Text.stripBoth Text.isBlank (cs.takeWhile (· ≠ '(')))
      pure { name, arguments }
    else .error (.unclosedArguments (String.ofList cs))

/-- The fields of trimmed segments; positions are passed over. -/
def segments (path : String) : List (List Char) → Except Fault (List PathSegment)
  | [] => .ok []
  | cs :: rest =>
    let cs := withoutPositions cs
    if cs.isEmpty then .error (.emptySegment path)
    else if cs.all Text.isDigit then segments path rest
    else do
      let s ← match segment cs with
        | .ok s => .ok s
        | .error fault => .error (.within path fault)
      pure (s :: (← segments path rest))

/-- Reads a path of one field at least. -/
def parse (path : String) : Except Fault (List PathSegment) := do
  let pieces ← split '.' path.toList
  let fields ← segments path (pieces.map (Text.stripBoth Text.isBlank))
  if fields.isEmpty then throw (.noField path)
  pure fields

/-- Why a path cannot be selected. -/
inductive SelectFault
  | invalid (cause : ValidationError)
  | path (fault : Fault)
  deriving DecidableEq, Repr

/-- The type of an argument for which no schema gives one. -/
def inferredType : Json → String
  | .string _ => "String"
  | .bool _ => "Boolean"
  | .number (.int _) => "Int"
  | .number (.double _) => "Float"
  | _ => "JSON"

/-- The arguments of a segment with their types. -/
def typedArguments (s : PathSegment) : Option FieldDef →
    Except SelectFault (Fields Selection.Argument)
  | none => .ok (Fields.mapValues (fun value => { type := inferredType value, value }) s.arguments)
  | some d => s.arguments.mapM fun (name, value) =>
    match Fields.get? d.arguments name with
    | some type => .ok (name, { type, value })
    | none => .error (.path (.unknownArgument name s.name))

/-- The declaration of a field, if a schema is given. -/
def declaration (schema : Option Schema) (type field : String) :
    Except SelectFault (Option FieldDef) :=
  match schema with
  | none => .ok none
  | some schema => match schema.requireField type field with
    | .ok d => .ok (some d)
    | .error e => .error (.invalid e)

/-- The selection at the end of a path below a node of a type. Nodes that were grown stay, also
where a later segment is refused. -/
def select (schema : Option Schema) (type : String) (f : Selection.Forest) (node : Selection) :
    List PathSegment → Except SelectFault Selection × Selection.Forest
  | [] => (.ok node, f)
  | s :: rest =>
    match declaration schema type s.name with
    | .error e => (.error e, f)
    | .ok d => match typedArguments s d with
      | .error e => (.error e, f)
      | .ok arguments =>
        let (node, f) := f.child node (.field s.name) none arguments false
        let type := match d with
          | some d => d.typeRef.name
          | none => type
        select schema type f node rest

end SelectionPath
end LazyGraph
