import Overapprox.Text.Unprintable

/-!
# Quoted and bracketed text

A quoted text stands between double quotes. A quote and a backslash inside it follow a backslash,
the usual controls have letters, and every other unprintable character is written by its code
point in hexadecimal.

* `escape_of_printable`: a printable character other than quote and backslash is itself.
-/

namespace Overapprox.Text

/-- One character inside a quoted text. -/
def escape (c : Char) : List Char :=
  if c = '"' then ['\\', '"']
  else if c = '\\' then ['\\', '\\']
  else if c = '\n' then ['\\', 'n']
  else if c = '\r' then ['\\', 'r']
  else if c = '\t' then ['\\', 't']
  else if c = '\x00' then ['\\', '0']
  else if isUnprintable c then "\\u\x7b".toList ++ Nat.toDigits 16 c.toNat ++ ['\x7d']
  else [c]

/-- A text between double quotes. -/
def quote (s : String) : String := String.ofList ('"' :: s.toList.flatMap escape ++ ['"'])

/-- Texts between braces, with commas between them. -/
def braces (items : List String) : String := "\x7b" ++ ", ".intercalate items ++ "\x7d"

/-- A key and its value. -/
def entry (key value : String) : String := key ++ ": " ++ value

theorem escape_of_printable {c : Char} (hq : c ≠ '"') (hb : c ≠ '\\')
    (h : isUnprintable c = false) : escape c = [c] := by
  have hn : c ≠ '\n' := by rintro rfl; exact absurd h (by decide)
  have hr : c ≠ '\r' := by rintro rfl; exact absurd h (by decide)
  have ht : c ≠ '\t' := by rintro rfl; exact absurd h (by decide)
  have h0 : c ≠ '\x00' := by rintro rfl; exact absurd h (by decide)
  simp [escape, *]

end Overapprox.Text
