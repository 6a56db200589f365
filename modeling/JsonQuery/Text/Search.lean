/-!
Looking for a piece of text inside another. The empty piece occurs in every text.
-/
namespace JsonQuery

/-- Whether a piece occurs in a text. -/
def occursIn (piece : List Char) : List Char → Bool
  | [] => piece.isEmpty
  | c :: rest => piece.isPrefixOf (c :: rest) || occursIn piece rest

end JsonQuery
