/-!
# Tokens of type annotations

An annotation reaches the compiler as a list of tokens. `render` puts them back
together for a message: only the comma brings a blank with it.
-/

namespace Strand.TypeExpr

inductive Token where
  | name (value : String)
  | lparen | rparen
  | lbracket | rbracket
  | langle | rangle
  | comma | star | question
deriving DecidableEq, Inhabited

def Token.text : Token → String
  | .name value => value
  | .lparen => "("
  | .rparen => ")"
  | .lbracket => "["
  | .rbracket => "]"
  | .langle => "<"
  | .rangle => ">"
  | .comma => ", "
  | .star => "*"
  | .question => "?"

/-- An annotation as a message shows it. -/
def render (tokens : List Token) : String := String.join (tokens.map Token.text)

end Strand.TypeExpr
