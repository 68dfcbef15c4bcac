/-!
# Texts from bytes

A text is stored in UTF-8. Bytes that are no UTF-8 are refused with the first fault and its place.
In a text that was read, every line ends with a line feed.
-/
namespace GrammarOutline.Text

inductive Utf8Fault.Cause where
  | start
  | continuation
  | ending
  deriving DecidableEq

/-- The first fault of a list of bytes: the bytes that are at fault start at `position`, and `first`
is the first of `length` many. -/
structure Utf8Fault where
  cause : Utf8Fault.Cause
  first : Nat
  position : Nat
  length : Nat
  deriving DecidableEq

namespace Utf8

/-- What the first byte of a character says: how many bytes follow, between which bounds the next
one lies, and the highest bits of the code point. -/
structure Lead where
  following : Nat
  low : Nat
  high : Nat
  bits : Nat

/-- Reads a first byte. The bounds leave out code points that a shorter form has, surrogates and
numbers beyond the last code point. -/
def lead? (byte : Nat) : Option Lead :=
  if byte < 0x80 then some ⟨0, 0x80, 0xbf, byte⟩
  else if byte < 0xc2 then none
  else if byte < 0xe0 then some ⟨1, 0x80, 0xbf, byte - 0xc0⟩
  else if byte < 0xf0 then
    some ⟨2, if byte = 0xe0 then 0xa0 else 0x80, if byte = 0xed then 0x9f else 0xbf, byte - 0xe0⟩
  else if byte < 0xf5 then
    some ⟨3, if byte = 0xf0 then 0x90 else 0x80, if byte = 0xf4 then 0x8f else 0xbf, byte - 0xf0⟩
  else none

/-- Reads the bytes that follow a first one. The answer is the code point and the bytes after it, or
what is wrong and how many bytes were read before. -/
def follow (low high : Nat) : (following bits count : Nat) → List UInt8 →
    Except (Utf8Fault.Cause × Nat) (Nat × List UInt8)
  | 0, bits, _, bytes => .ok (bits, bytes)
  | _ + 1, _, count, [] => .error (.ending, count)
  | following + 1, bits, count, byte :: bytes =>
    if low ≤ byte.toNat && byte.toNat ≤ high then
      follow 0x80 0xbf following (bits * 64 + (byte.toNat - 0x80)) (count + 1) bytes
    else .error (.continuation, count)

theorem length_le_of_follow {low high following bits count : Nat} {bytes rest : List UInt8}
    {code : Nat} (h : follow low high following bits count bytes = .ok (code, rest)) :
    rest.length ≤ bytes.length := by
  induction following generalizing low high bits count bytes with
  | zero =>
    simp only [follow, Except.ok.injEq, Prod.mk.injEq] at h
    exact Nat.le_of_eq (congrArg List.length h.2.symm)
  | succ following ih =>
    cases bytes with
    | nil => simp [follow] at h
    | cons byte bytes =>
      simp only [follow] at h
      split at h
      · have := ih h
        simp only [List.length_cons]
        omega
      · exact absurd h (by simp)

/-- Decodes bytes that stand at `position`, where `text` was decoded before and is held in
reverse. -/
def decodeFrom (position : Nat) (text : List Char) : List UInt8 → Except Utf8Fault (List Char)
  | [] => .ok text.reverse
  | byte :: bytes =>
    match lead? byte.toNat with
    | none => .error ⟨.start, byte.toNat, position, 1⟩
    | some lead =>
      match h : follow lead.low lead.high lead.following lead.bits 1 bytes with
      | .error (cause, count) => .error ⟨cause, byte.toNat, position, count⟩
      | .ok (code, rest) =>
        have := length_le_of_follow h
        decodeFrom (position + (bytes.length + 1 - rest.length)) (Char.ofNat code :: text) rest
termination_by bytes => bytes.length

def decode (bytes : List UInt8) : Except Utf8Fault (List Char) := decodeFrom 0 [] bytes

end Utf8

def Utf8Fault.message (f : Utf8Fault) : String :=
  let place :=
    if f.length = 1 then
      "byte 0x" ++ String.ofList (hex f.first) ++ " in position " ++ toString f.position
    else
      "bytes in position " ++ toString f.position ++ "-" ++ toString (f.position + f.length - 1)
  "'utf-8' codec can't decode " ++ place ++ ": " ++ reason f.cause
where
  /-- Two hexadecimal digits. -/
  hex (n : Nat) : List Char := [Nat.digitChar (n / 16), Nat.digitChar (n % 16)]
  /-- The wording of a cause. -/
  reason : Cause → String
    | .start => "invalid start byte"
    | .continuation => "invalid continuation byte"
    | .ending => "unexpected end of data"

/-- Ends every line with a line feed: a carriage return is one, alone or together with the line feed
after it. -/
def unifyLines : List Char → List Char
  | '\r' :: '\n' :: rest => '\n' :: unifyLines rest
  | '\r' :: rest => '\n' :: unifyLines rest
  | c :: rest => c :: unifyLines rest
  | [] => []

/-- The text of a list of bytes. -/
def ofBytes (bytes : List UInt8) : Except Utf8Fault (List Char) :=
  (Utf8.decode bytes).map unifyLines

end GrammarOutline.Text
