import TreeEdits.Text.Unprintable

/-!
# TreeEdits.Text.Quoted

A text between double quotes, as messages show it: quote, backslash, tab, line feed, carriage return
and NUL have an escape of one letter, an unprintable character is written with its code point in
hexadecimal, and every other character stands for itself.

* `Quoted.text`: the quoted form.
-/

namespace TreeEdits
namespace Quoted

def char (c : Char) : List Char :=
  match c with
  | '\x00' => ['\\', '0']
  | '\t' => ['\\', 't']
  | '\r' => ['\\', 'r']
  | '\n' => ['\\', 'n']
  | '\\' => ['\\', '\\']
  | '"' => ['\\', '"']
  | c =>
    if Unprintable.contains c then
      '\\' :: 'u' :: '\x7b' :: (Nat.toDigits 16 c.toNat ++ ['\x7d'])
    else [c]

def text (s : String) : String :=
  String.ofList ('"' :: (s.toList.flatMap char ++ ['"']))

end Quoted
end TreeEdits
