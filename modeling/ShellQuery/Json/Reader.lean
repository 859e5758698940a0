import ShellQuery.Json.Lexer

/-!
# Reading JSON

Arrays and objects that are still open are kept on a stack, so values may nest to any depth.
-/

namespace ShellQuery.Json

/-- An array or object that is still open. -/
inductive Frame where
  | array (elements : List Json)
  /-- An object, with the key of the value to come. -/
  | object (members : List (Option String × Json)) (key : Option String)

mutual

/-- Reads lexemes from where a value has to begin. -/
def readValue (stack : List Frame) : List Lexeme → Option Json
  | .scalar value :: ls => readAfter stack value ls
  | .openArray :: .closeArray :: ls => readAfter stack (.array []) ls
  | .openArray :: ls => readValue (.array [] :: stack) ls
  | .openObject :: .closeObject :: ls => readAfter stack (.object []) ls
  | .openObject :: .scalar (.string key) :: .colon :: ls =>
    readValue (.object [] key :: stack) ls
  | _ => none

/-- Reads lexemes from where a value has ended. -/
def readAfter (stack : List Frame) (value : Json) : List Lexeme → Option Json
  | [] => if stack.isEmpty then some value else none
  | .comma :: .scalar (.string key) :: .colon :: ls =>
    match stack with
    | .object members k :: stack =>
      readValue (.object (members ++ [(k, value)]) key :: stack) ls
    | _ => none
  | .comma :: ls =>
    match stack with
    | .array elements :: stack => readValue (.array (elements ++ [value]) :: stack) ls
    | _ => none
  | .closeArray :: ls =>
    match stack with
    | .array elements :: stack => readAfter stack (.array (elements ++ [value])) ls
    | _ => none
  | .closeObject :: ls =>
    match stack with
    | .object members k :: stack => readAfter stack (.object (members ++ [(k, value)])) ls
    | _ => none
  | _ => none

end

/-- The value that a text is. -/
def ofText (text : String) : Option Json :=
  (lexemes text.toList).bind (readValue [])

end ShellQuery.Json
