import Formula.Text.Unseen

/-!
Text in quotes, for diagnostics. Quotes and backslashes get a backslash, and characters that
do not show are written by their code point.
-/

namespace Formula

def quoteChar (c : Char) : Text :=
  if c = '"' then ['\\', '"']
  else if c = '\\' then ['\\', '\\']
  else if c = '\t' then ['\\', 't']
  else if c = '\n' then ['\\', 'n']
  else if c = '\r' then ['\\', 'r']
  else if c.toNat = 0 then ['\\', '0']
  else if isUnseen c then '\\' :: 'u' :: '\x7b' :: Nat.toDigits 16 c.toNat ++ ['\x7d']
  else [c]

def quote (t : Text) : Text := '"' :: t.flatMap quoteChar ++ ['"']

end Formula
