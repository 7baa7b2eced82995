import Getodac.Basic
/-!
# `dracon/utils.h`

The percent decoder and `split`. The loops over the text are recursions over its bytes.
-/

namespace Getodac

/-- `fromHex`; the error is the text of the `std::invalid_argument`. A `char` above 127 is negative in the source and
fails the comparisons too. -/
def fromHex (ch : UInt8) : Except String UInt8 :=
  if 48 ≤ ch ∧ ch ≤ 57 then .ok (ch - 48)
  else if 97 ≤ ch ∧ ch ≤ 102 then .ok (10 + ch - 97)
  else if 65 ≤ ch ∧ ch ≤ 70 then .ok (10 + ch - 65)
  else .error "Bad hex value"

def percent : UInt8 := 37
def plus : UInt8 := 43
def space : UInt8 := 32

/-- `unescapeUrl`. -/
def unescapeUrl : Bytes → Except String Bytes
  | [] => .ok []
  | c :: cs =>
    if c = percent then
      match cs with
      | a :: b :: rest => do
        let hi ← fromHex a
        let lo ← fromHex b
        let out ← unescapeUrl rest
        .ok ((hi <<< 4 ||| lo) :: out)
      | _ => .error "Malformated URL"
    else do
      let out ← unescapeUrl cs
      .ok ((if c = plus then space else c) :: out)

example : unescapeUrl (bytes "%2Fetc+x") = .ok (bytes "/etc x") := by decide +kernel

/-! ## `unescapeUrl` by positions -/

/-- How the loop can fail: with an exception, or by a read outside the text, which the source does not check. -/
inductive UrlFault where
  | invalidArgument (what : String)
  | outside
deriving DecidableEq, Repr

/-- `in[i]`. -/
def byteAt (text : Bytes) (i : Nat) : Except UrlFault UInt8 :=
  match text[i]? with
  | some c => .ok c
  | none => .error .outside

/-- `fromHex(in[i])`. -/
def fromHexAt (text : Bytes) (i : Nat) : Except UrlFault UInt8 := do
  let ch ← byteAt text i
  (fromHex ch).mapError .invalidArgument

/-- The loop of `unescapeUrl` from the position `i` on. -/
def unescapeUrlLoop (text : Bytes) (i : Nat) (out : Bytes) : Except UrlFault Bytes :=
  if i < text.length then do
    let c ← byteAt text i
    if c = percent then
      if i + 2 < text.length then do
        let hi ← fromHexAt text (i + 1)
        let lo ← fromHexAt text (i + 2)
        -- `i += 2` here, and `++i` in the head of the loop
        unescapeUrlLoop text (i + 3) (out ++ [hi <<< 4 ||| lo])
      else .error (.invalidArgument "Malformated URL")
    else if c = plus then unescapeUrlLoop text (i + 1) (out ++ [space])
    else unescapeUrlLoop text (i + 1) (out ++ [c])
  else .ok out
termination_by text.length - i

/-- `unescapeUrl` as it is written, by positions and with its reads checked. -/
def unescapeUrlChecked (text : Bytes) : Except UrlFault Bytes := unescapeUrlLoop text 0 []

/-- The rest of `split`; `piece` is what stands between `pos` and here. -/
def splitFrom (ch : UInt8) (piece : Bytes) : Bytes → List Bytes
  | [] => if piece = [] then [] else [piece]
  | c :: cs =>
    if c = ch then
      -- empty pieces are ignored
      if piece = [] then splitFrom ch [] cs else piece :: splitFrom ch [] cs
    else splitFrom ch (piece ++ [c]) cs

/-- `split`, with no bound on the number of pieces. -/
def split (str : Bytes) (ch : UInt8) : List Bytes := splitFrom ch [] str

example : split (bytes "//a/bc/") 47 = [bytes "a", bytes "bc"] := by decide

/-! ## `split` with a limit -/

/-- `std::string::npos`, the default of `count`. -/
def npos : Nat := 2 ^ 64 - 1

/-- `str.find(ch, pos)`. -/
def find (str : Bytes) (ch : UInt8) (pos : Nat) : Option Nat :=
  if ch ∈ str.drop pos then some (pos + (str.drop pos).idxOf ch) else none

/-- The loop of `split`: the pieces, and `pos` after it. -/
def splitLoop (str : Bytes) (ch : UInt8) : Nat → Nat → List Bytes × Nat
  | 0, pos => ([], pos)
  | count + 1, pos =>
    match find str ch pos with
    | none => ([], pos)
    | some nextPos =>
      let (ret, last) := splitLoop str ch count (nextPos + 1)
      -- an empty piece is ignored, but counts
      (if pos ≠ nextPos then (str.drop pos).take (nextPos - pos) :: ret else ret, last)

/-- `split` as it is written, by positions and with its limit. -/
def splitCount (str : Bytes) (ch : UInt8) (count : Nat := npos) : List Bytes :=
  if str = [] then []
  else
    let (ret, pos) := splitLoop str ch count 0
    if pos < str.length then ret ++ [str.drop pos] else ret

example : splitCount (bytes "//a/b/c") 47 3 = [bytes "a", bytes "b/c"] := by decide

end Getodac
