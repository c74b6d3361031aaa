import Pseudocode.Number.Decimal
import Pseudocode.Text.Quoted
import Pseudocode.Token.Scan

/-!
# Messages about sources

The names of tokens, the wording of what is wrong with a source text, and what is said at once when a
token continues no program.
-/

namespace Pseudocode

/-- Fractions are written with the fewest digits that read back, positionally from a ten-thousandth up
to below ten to the sixteenth. -/
def fractionStyle : Number.DecimalStyle where
  plainFrom := -4
  plainBelow := 16
  nan := "nan"
  inf := "inf"

/-- The name of a kind of token. -/
def TokenKind.tag : TokenKind → String
  | .name => "MNEUMONIC"
  | .string => "STRING"
  | .number => "NUMBER"
  | .truth => "BOOL"
  | .plus => "PLUS"
  | .minus => "MINUS"
  | .times => "TIMES"
  | .divide => "DIVIDE"
  | .comparison => "COMP_OP"
  | .comma => "COMMA"
  | .leftParen => "LP"
  | .rightParen => "RP"
  | .marker => "MARKER"
  | .letWord => "LET"
  | .beWord => "BE"
  | .ifWord => "IF"
  | .thenWord => "THEN"
  | .elseWord => "ELSE"
  | .returnWord => "RETURN"
  | .gotoWord => "GOTO"
  | .instructionWord => "INSTRUCTION"
  | .printWord => "PRINT"
  | .newline => "NEWLINE"
  | .blank => "WS"
  | .indent => "INDENT"
  | .dedent => "DEDENT"
  | .endMarker => "ENDMARKER"

/-- What a token carries, as text. -/
def Payload.shown : Payload → String
  | .absent => "None"
  | .text s => s
  | .whole n => toString n
  | .real x => fractionStyle.write x

namespace ReadFault

/-- The message for a fault. -/
def message : ReadFault → String
  | unknownSymbol c => "Unknown symbol " ++ Text.quoted (String.singleton c)
  | longLiteral n =>
    "Exceeds the limit (4300 digits) for integer string conversion: value has " ++ toString n ++
      " digits; use sys.set_int_max_str_digits() to increase the limit"
  | blockExpected => "expected an indented block"
  | deeperLine => "indentation increase but not in new block"
  | unmatchedDepth => "inconsistent indentation"
  | mixedBlanks => ""
  | unexpected _ => ""

/-- What is printed as soon as a fault is found. -/
def notice : ReadFault → String
  | unexpected t => "Syntax error at '" ++ t.payload.shown ++ "'\n"
  | _ => ""

end ReadFault

end Pseudocode
