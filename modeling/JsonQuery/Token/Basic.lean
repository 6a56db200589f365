import JsonQuery.Comparator
import JsonQuery.Value.Basic

/-!
The tokens of an expression. Names, literals and numbers carry what they denote; everything else
is a symbol with one spelling.
-/
namespace JsonQuery

/-- Tokens that carry nothing. An opening bracket together with a closing bracket or a question
mark is one symbol. -/
inductive Symbol where
  | dot
  | star
  | flatten
  | filter
  | leftBracket
  | rightBracket
  | leftBrace
  | rightBrace
  | pipe
  | or
  | and
  | not
  | comparator (op : Comparator)
  | colon
  | comma
  | leftParen
  | rightParen
  | current
  | reference
  deriving DecidableEq

/-- How a symbol is written. -/
def Symbol.text : Symbol → String
  | .dot => "."
  | .star => "*"
  | .flatten => "[]"
  | .filter => "[?"
  | .leftBracket => "["
  | .rightBracket => "]"
  | .leftBrace => "\x7b"
  | .rightBrace => "\x7d"
  | .pipe => "|"
  | .or => "||"
  | .and => "&&"
  | .not => "!"
  | .comparator op => op.text
  | .colon => ":"
  | .comma => ","
  | .leftParen => "("
  | .rightParen => ")"
  | .current => "@"
  | .reference => "&"

/-- A token. An identifier before an opening parenthesis is the name of a function. -/
inductive Token where
  | identifier (name : String)
  | quotedIdentifier (name : String)
  | functionName (name : String)
  | rawString (text : String)
  | literal (value : Value)
  | number (n : Int64)
  | symbol (s : Symbol)

/-- The token as error messages speak of it. -/
def Token.describe : Token → String
  | .identifier name => s!"identifier '{name}'"
  | .quotedIdentifier name => "quoted identifier \"" ++ name ++ "\""
  | .functionName name => s!"function '{name}'"
  | .rawString text => s!"raw string '{text}'"
  | .literal _ => "literal"
  | .number n => "number " ++ String.ofList (intDigits n.toInt)
  | .symbol s => s!"'{s.text}'"

/-- A token and the offset of its first character. -/
structure PlacedToken where
  token : Token
  position : Nat

/-- The tokens still to be read, and the offset of the end of the text. -/
structure TokenStream where
  upcoming : List PlacedToken
  finish : Nat

end JsonQuery
