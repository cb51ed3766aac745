import EmbeddedGraphQL.Json.Basic
import EmbeddedGraphQL.Text.Quoted
import EmbeddedGraphQL.Decimal.Shortest

/-!
How values read in messages. A text by itself is shown as it is; inside of another value it is
quoted.
-/
namespace EmbeddedGraphQL.Json

mutual

def quotedForm : Json → String
  | .null => "None"
  | .bool b => if b then "True" else "False"
  | .int n => toString n
  | .float x => Decimal.plain.write x
  | .str s => Text.quoted s
  | .unpaired points => Text.quotedPoints points
  | .arr items => "[" ++ ", ".intercalate (quotedItems items) ++ "]"
  | .obj members => "\x7b" ++ ", ".intercalate (quotedMembers members) ++ "\x7d"

def quotedItems : List Json → List String
  | [] => []
  | item :: rest => item.quotedForm :: quotedItems rest

def quotedMembers : List (String × Json) → List String
  | [] => []
  | (key, value) :: rest => (Text.quoted key ++ ": " ++ value.quotedForm) :: quotedMembers rest

end

def messageForm : Json → String
  | .str s => s
  | .unpaired points => CodePoint.spelled points
  | value => value.quotedForm

end EmbeddedGraphQL.Json
