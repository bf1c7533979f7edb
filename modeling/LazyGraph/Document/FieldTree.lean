import LazyGraph.Selection

/-!
Field trees: the body of a document, with equal heads merged.
-/
namespace LazyGraph.Document

/-- What is written in front of the fields below: a field, or a type branch. -/
inductive Head
  /-- Each argument is written with the variable that holds its value. -/
  | field (aliasName : Option String) (name : String) (arguments : List (String × String))
  | branch (type : String)
  deriving DecidableEq, Repr

namespace Head

def argumentText (a : String × String) : String := s!"{a.1}:${a.2}"

def text : Head → String
  | .field aliasName name arguments =>
    let aliasText := match aliasName with
      | some a => a ++ ":"
      | none => ""
    let argumentsText := match arguments with
      | [] => ""
      | _ => "(" ++ ",".intercalate (arguments.map argumentText) ++ ")"
    aliasText ++ name ++ argumentsText
  | .branch type => "...on " ++ type

/-- The key under which a response holds the field; a branch adds none. -/
def responseKey? : Head → Option String
  | .field aliasName name _ => some (aliasName.getD name)
  | .branch _ => none

end Head

/-- Heads with the trees below them, in ascending order of the texts of the heads. -/
inductive FieldTree
  | node (children : List (Head × FieldTree))

namespace FieldTree

def empty : FieldTree := .node []

def children : FieldTree → List (Head × FieldTree)
  | .node children => children

def isEmpty (t : FieldTree) : Bool := t.children.isEmpty

/-- The tree below the head with a text. -/
def below? (t : FieldTree) (text : String) : Option FieldTree :=
  (t.children.find? (·.1.text == text)).map (·.2)

/-- Puts a tree below a head, in place of the tree below a head with its text. -/
def put (head : Head) (t : FieldTree) : List (Head × FieldTree) → List (Head × FieldTree)
  | [] => [(head, t)]
  | (h, u) :: rest =>
    if head.text = h.text then (h, t) :: rest
    else if head.text < h.text then (head, t) :: (h, u) :: rest
    else (h, u) :: put head t rest

/-- Adds a way down to the tree. -/
def insert (t : FieldTree) : List Head → FieldTree
  | [] => t
  | head :: rest =>
    .node (put head (((t.below? head.text).getD empty).insert rest) t.children)

mutual
/-- The trees between braces, a head in front of each, blanks between them. -/
def text : FieldTree → String
  | .node [] => ""
  | .node (c :: cs) => "\x7b" ++ childrenText (c :: cs) ++ "\x7d"

def childrenText : List (Head × FieldTree) → String
  | [] => ""
  | [(h, t)] => h.text ++ text t
  | (h, t) :: rest => h.text ++ text t ++ " " ++ childrenText rest
end

end FieldTree
end LazyGraph.Document
