import Mathlib.Algebra.Group.Nat.Defs
import IrC6.Base.Text

/-!
# The words of a line

`args_sep` counts the words of a line and then cuts a copy of it with `strsep`.  The
handlers are given the words behind the command, and the line itself for a text with blanks
in it, which they look up with `strstr`.
-/

namespace IrC6
namespace Irc

/-- The delimiters of `args_sep`. -/
def isBlank (b : UInt8) : Bool := b = 32 || b = 9 || b = 13 || b = 10

/-- The first loop of `args_sep`, with whether `q` is set. -/
def countArgs : Bool → List UInt8 → Nat
  | _, [] => 0
  | q, b :: bs =>
      if isBlank b then countArgs false bs else (if q then 0 else 1) + countArgs true bs

/-- What `strsep` gives until it gives `NULL`. -/
def strsep (delim : UInt8 → Bool) : List UInt8 → List (List UInt8)
  | [] => [[]]
  | b :: bs =>
      if delim b then [] :: strsep delim bs
      else match strsep delim bs with
        | [] => [[b]]
        | token :: tokens => (b :: token) :: tokens

/-- The second loop: the tokens that are not empty, up to the number that was counted. -/
def takeArgs : Nat → List (List UInt8) → List (List UInt8)
  | 0, _ => []
  | _ + 1, [] => []
  | n + 1, token :: tokens =>
      if token = [] then takeArgs (n + 1) tokens else token :: takeArgs n tokens

/-- `args_sep`, which gives no words at all when its loops disagree. -/
def argsSep (str : List UInt8) : List (List UInt8) :=
  let argv := takeArgs (countArgs false str) (strsep isBlank str)
  if argv.length = countArgs false str then argv else []

/-- `strstr`: the line from the first place on where the text is. -/
def strstr (str text : List UInt8) : Option (List UInt8) :=
  if text.isPrefixOf str then some str
  else match str with
    | [] => none
    | _ :: rest => strstr rest text

/-- `(*arg == ':') ? arg + 1 : arg`. -/
def skipColon (arg : List UInt8) : List UInt8 :=
  match arg with
  | 58 :: rest => rest
  | _ => arg

/-- `IRC_ISCHANNEL` and `IRC_ISLOCHAN`. -/
def isChannel (ch : List UInt8) : Bool := ch.head? = some 35 || ch.head? = some 38
def isLocChan (ch : List UInt8) : Bool := ch.head? = some 38

/-- `isspace` in the C locale. -/
def isSpace (b : UInt8) : Bool := b = 32 || (9 ≤ b && b ≤ 13)

def isDigit (b : UInt8) : Bool := 48 ≤ b && b ≤ 57

/-- `strtoul(str, NULL, 10)`. -/
def strtoul (str : List UInt8) : UInt64 :=
  let str := str.dropWhile isSpace
  let digits := match str with
    | 43 :: rest | 45 :: rest => rest
    | _ => str
  let n := (digits.takeWhile isDigit).foldl (fun n b => n * 10 + (b - 48).toNat) 0
  if 2 ^ 64 ≤ n then 18446744073709551615
  else if str.head? = some 45 then 0 - UInt64.ofNat n else UInt64.ofNat n

/-- `%u`, `%i` and `%d` of a number that is not negative. -/
def decimal (n : Nat) : List UInt8 := (Nat.toDigits 10 n).map Char.toUInt8

/-! ## The tables of `gperf` -/

/-- A byte as `gperf` compares it with `--ignore-case`. -/
def downcase (b : UInt8) : UInt8 := if 65 ≤ b ∧ b ≤ 90 then b + 32 else b

/-- The row of a table for a word. -/
def lookupWord {α : Type} (table : List (List UInt8 × α)) (word : List UInt8) : Option α :=
  (table.find? fun row => row.1.map downcase = word.map downcase).map Prod.snd

example : argsSep (ascii " PART  #a,b\r") = [ascii "PART", ascii "#a,b"] := by decide

end Irc
end IrC6
