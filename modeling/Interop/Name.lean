/-!
# Names and their encoded spelling

Identifiers arrive encoded: an operator character is written `$` and its code, as `$plus`, and
any character may be written `$u` and the four hexadecimal digits of its code point.  `decode`
gives the source spelling back.  A `$` that starts neither form stands for itself, so decoding
never fails.

    decode "$plus$eq" = "+=",   decode "$u0078" = "x",   decode "a$b" = "a$b"
-/

namespace Interop.Name

/-! ## Decoding -/

/-- Operator characters and the codes that spell them. -/
def operatorCodes : List (String × Char) :=
  [("tilde", '~'), ("eq", '='), ("less", '<'), ("greater", '>'), ("bang", '!'), ("hash", '#'),
   ("percent", '%'), ("up", '^'), ("amp", '&'), ("bar", '|'), ("times", '*'), ("div", '/'),
   ("plus", '+'), ("minus", '-'), ("colon", ':'), ("bslash", '\\'), ("qmark", '?'), ("at", '@')]

/-- The value of a hexadecimal digit of either case. -/
def hexValue? (c : Char) : Option Nat :=
  if '0' ≤ c ∧ c ≤ '9' then some (c.toNat - '0'.toNat)
  else if 'a' ≤ c ∧ c ≤ 'f' then some (c.toNat - 'a'.toNat + 10)
  else if 'A' ≤ c ∧ c ≤ 'F' then some (c.toNat - 'A'.toNat + 10)
  else none

/-- The character with code point `n`; surrogates are no characters. -/
def charOfCode? (n : Nat) : Option Char :=
  if n.isValidChar then some (Char.ofNat n) else none

/-- The character that `u` and four hexadecimal digits spell. -/
def codePoint? : List Char → Option Char
  | 'u' :: a :: b :: c :: d :: _ => do
    let a ← hexValue? a
    let b ← hexValue? b
    let c ← hexValue? c
    let d ← hexValue? d
    charOfCode? (((a * 16 + b) * 16 + c) * 16 + d)
  | _ => none

/-- The operator character whose code starts the text, with the length of the code. -/
def operator? (cs : List Char) : Option (Nat × Char) :=
  (operatorCodes.find? fun (code, _) => code.toList.isPrefixOf cs).map
    fun (code, c) => (code.length, c)

/-- The escape that the text after a `$` starts with: how long it is and what it stands for.
A code point is tried before an operator code. -/
def escape? (cs : List Char) : Option (Nat × Char) :=
  match codePoint? cs with
  | some c => some (5, c)
  | none => operator? cs

/-- Replace each escape from left to right.  Characters that an escape yields are not read
again. -/
def decodeChars : List Char → List Char
  | [] => []
  | c :: cs =>
    if c = '$' then
      match escape? cs with
      | some (n, d) => d :: decodeChars (cs.drop n)
      | none => '$' :: decodeChars cs
    else c :: decodeChars cs
termination_by cs => cs.length
decreasing_by all_goals grind

/-- The source spelling of an encoded name. -/
def decode (name : String) : String := String.ofList (decodeChars name.toList)

/-! ## Suffixes -/

/-- The text before `suffix`, if `name` ends in it. -/
def dropSuffix? (suffix name : String) : Option String :=
  (suffix.toList.isSuffixOf? name.toList).map String.ofList

/-- A field behind a value has the value's name and a blank; this takes the blank off. -/
def getter (name : String) : String := (dropSuffix? " " name).getD name

/-- What the setter `x_=` sets. -/
def setterBase? (name : String) : Option String := dropSuffix? "_=" name

end Interop.Name
