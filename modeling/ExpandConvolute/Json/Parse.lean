import ExpandConvolute.Json.Token

/-!
# ExpandConvolute.Json.Parse

Building a value from its tokens. The values that have been opened and not yet closed stand on a
stack, innermost first, and every token changes its top. Nesting is therefore limited by nothing
but the text.
-/

namespace ExpandConvolute
namespace Json

/-- A value that has been opened. Parts that are complete are held last one first. -/
inductive Open where
  /-- An array after some items. -/
  | array (items : List Value)
  /-- An object after some members. -/
  | object (members : List (Option String × Value))
  /-- An object after some members and a further key. -/
  | member (members : List (Option String × Value)) (key : Option String)

inductive Expected where
  | value
  | itemOrEnd
  | key
  | keyOrEnd
  | colon
  | commaOrEnd
deriving DecidableEq

inductive Progress where
  | inside (expected : Expected) (stack : List Open)
  | complete (v : Value)

namespace Progress

/-- A value is complete: it is a part of the innermost open value, or the whole text. -/
def close (v : Value) : List Open → Option Progress
  | [] => some (.complete v)
  | .array items :: stack => some (.inside .commaOrEnd (.array (v :: items) :: stack))
  | .member members key :: stack =>
    some (.inside .commaOrEnd (.object ((key, v) :: members) :: stack))
  | .object _ :: _ => none

/-- A value begins with the given token. -/
def beginValue (stack : List Open) : Token → Option Progress
  | .openObject => some (.inside .keyOrEnd (.object [] :: stack))
  | .openArray => some (.inside .itemOrEnd (.array [] :: stack))
  | .scalar v => close v stack
  | _ => none

/-- The innermost object goes on with a key. -/
def beginMember : List Open → Token → Option Progress
  | .object members :: stack, .scalar (.string key) =>
    some (.inside .colon (.member members key :: stack))
  | _, _ => none

def advance : Progress → Token → Option Progress
  | .complete _, _ => none
  | .inside .value stack, token => beginValue stack token
  | .inside .itemOrEnd (.array [] :: stack), .closeArray => close (.array []) stack
  | .inside .itemOrEnd stack, token => beginValue stack token
  | .inside .key stack, token => beginMember stack token
  | .inside .keyOrEnd (.object [] :: stack), .closeObject => close (.object []) stack
  | .inside .keyOrEnd stack, token => beginMember stack token
  | .inside .colon stack, .colon => some (.inside .value stack)
  | .inside .commaOrEnd (.array items :: stack), .comma =>
    some (.inside .value (.array items :: stack))
  | .inside .commaOrEnd (.array items :: stack), .closeArray =>
    close (.array items.reverse) stack
  | .inside .commaOrEnd (.object members :: stack), .comma =>
    some (.inside .key (.object members :: stack))
  | .inside .commaOrEnd (.object members :: stack), .closeObject =>
    close (.object members.reverse) stack
  | _, _ => none

def run : Progress → List Token → Option Progress
  | progress, [] => some progress
  | progress, token :: tokens => (advance progress token).bind fun progress => run progress tokens

end Progress

/-- The value that a text stands for, if it is a JSON text. -/
def parse (cs : List Char) : Option Value := do
  let tokens ← Token.scan cs
  match ← Progress.run (.inside .value []) tokens with
  | .complete v => some v
  | .inside .. => none

end Json
end ExpandConvolute
