import FederatedQuery.Text.Printable

/-!
Two ways to quote a text: as a string of a query document, and inside an error message.
-/
namespace FederatedQuery.Text

def isControl (c : Char) : Bool := c.toNat < 0x20 || (0x7F ≤ c.toNat && c.toNat ≤ 0x9F)

def fourPlaces (n : Nat) : List Char :=
  let digits := Nat.toDigits 10 n
  List.replicate (4 - digits.length) '0' ++ digits

/-- A document writes a control character without a short form by its decimal code point. -/
def documentChar (c : Char) : List Char :=
  if c = '\r' then ['\\', 'r']
  else if c = '\n' then ['\\', 'n']
  else if c = '\t' then ['\\', 't']
  else if c = '"' then ['\\', '"']
  else if c = '\\' then ['\\', '\\']
  else if isControl c then '\\' :: 'u' :: fourPlaces c.toNat
  else [c]

def documentQuoted (s : String) : String :=
  String.ofList ('"' :: s.toList.flatMap documentChar ++ ['"'])

def messageChar (c : Char) : List Char :=
  if c = '"' then ['\\', '"']
  else if c = '\\' then ['\\', '\\']
  else if c = '\n' then ['\\', 'n']
  else if c = '\r' then ['\\', 'r']
  else if c = '\t' then ['\\', 't']
  else if c.toNat = 0 then ['\\', '0']
  else if isPrintable c then [c]
  else '\\' :: 'u' :: '{' :: Nat.toDigits 16 c.toNat ++ ['}']

def messageQuoted (s : String) : String :=
  String.ofList ('"' :: s.toList.flatMap messageChar ++ ['"'])

end FederatedQuery.Text
