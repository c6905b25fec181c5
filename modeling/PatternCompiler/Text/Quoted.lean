import PatternCompiler.Text.Unprintable

/-!
# Quoted text

Strings and characters between delimiters. The delimiter, the backslash and four controls have
short escapes, other characters without a visible form of their own are written by code point, and
everything else is written as it is.
-/

namespace PatternCompiler.Text

set_option autoImplicit false

def escapedByCodePoint (c : Char) : List Char :=
  ['\\', 'u', '\x7b'] ++ Nat.toDigits 16 c.toNat ++ ['\x7d']

/-- How one character is written between two `delimiter`s. -/
def escaped (delimiter c : Char) : List Char :=
  if c = '\t' then ['\\', 't']
  else if c = '\r' then ['\\', 'r']
  else if c = '\n' then ['\\', 'n']
  else if c = '\x00' then ['\\', '0']
  else if c = '\\' || c = delimiter then ['\\', c]
  else if isExtending c || isUnprintable c then escapedByCodePoint c
  else [c]

def quotedBy (delimiter : Char) (cs : List Char) : String :=
  String.ofList (delimiter :: cs.flatMap (escaped delimiter) ++ [delimiter])

def quoted (s : String) : String := quotedBy '\x22' s.toList

def quotedChar (c : Char) : String := quotedBy '\x27' [c]

end PatternCompiler.Text
