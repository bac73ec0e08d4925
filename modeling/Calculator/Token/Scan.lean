import Calculator.Text.Lexeme
import Calculator.Token

/-!
# From text to tokens

A canonical text is scanned lexeme by lexeme: each run is a number, each other
character a token of its own. The leftmost fault is the one reported: a run
that is no numeral, an opening parenthesis directly followed by a closing one,
or a character that is no token.
-/

namespace Calculator

namespace Token

/-- The tokens of a list of lexemes; `due` says whether an operand is due at
its start. -/
def ofLexemes (due : Bool) : List Lexeme → Except Fault (List Token)
  | [] => .ok []
  | .run r :: rest => do
      let numeral ← Decimal.ofRun r
      let tokens ← ofLexemes false rest
      return .number numeral.toFloat :: tokens
  | .symbol c :: rest =>
      if c = '(' ∧ rest.head? = some (.symbol ')') then .error .malformed
      else
        match ofSymbol? due c with
        | none => .error (.unknownSymbol c)
        | some token => do
            let tokens ← ofLexemes token.operandDue rest
            return token :: tokens

end Token

/-- The tokens of a canonical text. At its start an operand is due. -/
def scan (t : Text) : Except Fault (List Token) :=
  Token.ofLexemes true (lexemes t)

end Calculator
