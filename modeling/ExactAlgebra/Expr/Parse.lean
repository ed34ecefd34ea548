import ExactAlgebra.Passes
import ExactAlgebra.Token.Lexer

/-!
# From text to expressions

A text is cut into tokens, and the tokens are resolved.

* `Num.parse`: the number of a text.
* `Expr.parse`: the expression of a text.
-/

namespace ExactAlgebra

def Num.parse (source : String) : Build Num :=
  match Num.read? source.toList with
  | some (numerator, denominator) => Num.ofFraction numerator denominator
  | none => throw (.text (.malformedNumber source))

namespace Expr

/-- The limit on nesting where none is set. -/
def defaultLimit : Int := 200

/-- The expression of a text.  The tokens of a text lead the parser to no misstep. -/
def parse (limit : Int) (source : String) : Build Expr :=
  match tokenize source with
  | .error fault => throw (.text fault)
  | .ok tokens => do
    match ← (Passes.parseTokens source limit tokens).run with
    | .ok e => return e
    | .error _ => throw (.text (.danglingOperator source))

end Expr

end ExactAlgebra
