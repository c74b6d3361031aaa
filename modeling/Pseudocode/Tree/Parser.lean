import Pseudocode.Token.Lexer
import Pseudocode.Tree.Reader

/-!
# Parsers

A parser reads one text after the other with one lexer. It pulls tokens for a reader and stops at the
first that continues no program, so what a text leaves behind in the lexer depends on where it goes wrong.
-/

namespace Pseudocode

/-- A parser, with its lexer and what it has read of the last text. -/
structure Parser where
  lexer : Lexer
  /-- The items of the last program that were complete. -/
  latest : List Tree

/-- The items of the program that are complete; as long as there are none, what was held before. -/
def Reader.soFar (before : List Tree) (r : Reader) : List Tree :=
  match r.frames.getLast? with
  | some (.program (t :: done)) => (t :: done).reverse
  | _ => before

namespace Parser

/-- A parser that was never used. -/
def fresh : Parser :=
  ⟨.fresh, []⟩

/-- Pulls tokens for a reader, up to the end of the program or the first fault. -/
def readOn (p : Parser) (r : Reader) : Except ReadFault (List Tree) × Parser :=
  match h : p.lexer.pull with
  | (.token t, l) =>
    match r.feed t with
    | none => (.error (.unexpected t), { p with lexer := l })
    | some r =>
      have := Lexer.ahead_pull h
      readOn ⟨l, r.soFar p.latest⟩ r
  | (.fault f, l) => (.error f, { p with lexer := l })
  | (_, l) =>
    match r.program? with
    | some program => (.ok program, { p with lexer := l })
    | none => (.error (.unexpected (endMarker none)), { p with lexer := l })
termination_by p.lexer.ahead
decreasing_by exact this

/-- Reads the program of a text. -/
def parse (p : Parser) (source : String) : Except ReadFault (List Tree) × Parser :=
  readOn { p with lexer := p.lexer.input true source.toList } Reader.start

/-- A call of a parser, or of its lexer alone. -/
inductive Call where
  | input (mark : Bool) (text : List Char)
  | pull
  | parse (source : String)

/-- The parser after a call. -/
def Call.apply (p : Parser) : Call → Parser
  | .input mark text => { p with lexer := p.lexer.input mark text }
  | .pull => { p with lexer := p.lexer.pull.2 }
  | .parse source => (p.parse source).2

/-- The parser after calls, in order. -/
def after (p : Parser) (calls : List Call) : Parser :=
  calls.foldl Call.apply p

end Parser

end Pseudocode
