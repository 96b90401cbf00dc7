import Monkey.Location

/-!
# Tokens

A token is a kind, the text it was written with, and the place of its first
character. A word is a keyword exactly when `Token.Kind.ofWord` says so; every
other word is an identifier.
-/

namespace Monkey

/-- What a token is. -/
inductive Token.Kind where
  | illegal
  | eof
  | ident
  | int
  | float
  | string
  | assign
  | plus
  | minus
  | bang
  | asterisk
  | slash
  | lt
  | gt
  | eq
  | notEq
  | comma
  | semicolon
  | colon
  | lparen
  | rparen
  | lbrace
  | rbrace
  | lbracket
  | rbracket
  | kwFn
  | kwLet
  | kwTrue
  | kwFalse
  | kwIf
  | kwElse
  | kwReturn
deriving DecidableEq, Repr, Inhabited

namespace Token.Kind

/-- Name of a kind, as diagnostics quote it. -/
def name : Kind → String
  | illegal => "ILLEGAL"
  | eof => "EOF"
  | ident => "IDENT"
  | int => "INT"
  | float => "FLOAT"
  | string => "STRING"
  | assign => "ASSIGN"
  | plus => "PLUS"
  | minus => "MINUS"
  | bang => "BANG"
  | asterisk => "ASTERISK"
  | slash => "SLASH"
  | lt => "LT"
  | gt => "GT"
  | eq => "EQ"
  | notEq => "NOT_EQ"
  | comma => "COMMA"
  | semicolon => "SEMICOLON"
  | colon => "COLON"
  | lparen => "LPAREN"
  | rparen => "RPAREN"
  | lbrace => "LBRACE"
  | rbrace => "RBRACE"
  | lbracket => "LBRACKET"
  | rbracket => "RBRACKET"
  | kwFn => "FUNCTION"
  | kwLet => "LET"
  | kwTrue => "TRUE"
  | kwFalse => "FALSE"
  | kwIf => "IF"
  | kwElse => "ELSE"
  | kwReturn => "RETURN"

/-- Kind of a word: one of the seven keywords, or an identifier. -/
def ofWord (word : String) : Kind :=
  match word with
  | "fn" => kwFn
  | "let" => kwLet
  | "true" => kwTrue
  | "false" => kwFalse
  | "if" => kwIf
  | "else" => kwElse
  | "return" => kwReturn
  | _ => ident

end Token.Kind

/-- A piece of source text with its kind and the place where it starts. -/
structure Token where
  kind : Token.Kind
  literal : String
  location : Location
deriving DecidableEq, Repr, Inhabited

/-- Written as the kind and the literal, in braces. -/
def Token.render (t : Token) : String :=
  "\x7b" ++ t.kind.name ++ ": " ++ t.literal ++ "\x7d"

end Monkey
