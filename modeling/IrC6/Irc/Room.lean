import IrC6.Base.Text

/-!
# Room names

A room is a channel on the side of the IRC client.  Its name is `#` and the name of
the room, where a byte that is not alphanumeric is written as `%` and two hex digits.
Strings are lists of bytes without the NUL at their end.
-/

namespace IrC6
namespace Irc

/-- `isalnum` in the C locale. -/
def isAlnum (b : UInt8) : Bool :=
  (48 ≤ b && b ≤ 57) || (65 ≤ b && b ≤ 90) || (97 ≤ b && b ≤ 122)

/-- A digit of `%.02X`. -/
def hexDigit (d : UInt8) : UInt8 := if d < 10 then 48 + d else 55 + d

/-- A turn of the loop of `irc_room_encode`. -/
def escape (b : UInt8) : List UInt8 :=
  if isAlnum b then [b] else [37, hexDigit (b >>> 4), hexDigit (b &&& 15)]

def ircRoomEncode (room : List UInt8) : List UInt8 :=
  if room = [] then [] else 35 :: room.flatMap escape

/-- `IRC_ISREMCHAN`. -/
def isRemChan (ch : List UInt8) : Bool := ch.head? = some 35

/-- `__hexcode`: the digit of a byte, and whether it is one. -/
def hexCode (b : UInt8) : UInt8 × Bool :=
  if 48 ≤ b ∧ b ≤ 57 then (b - 48, true)
  else if 97 ≤ b ∧ b ≤ 102 then (b - 87, true)
  else if 65 ≤ b ∧ b ≤ 70 then (b - 55, true)
  else (0, false)

/-- The loop of `irc_room_decode`. -/
def decodeEscapes : List UInt8 → List UInt8
  | 37 :: a :: b :: rest =>
      if (hexCode a).2 && (hexCode b).2 then
        ((hexCode a).1 <<< 4 ||| (hexCode b).1) :: decodeEscapes rest
      else 37 :: decodeEscapes (a :: b :: rest)
  | b :: rest => b :: decodeEscapes rest
  | [] => []

/-- The bytes that `irc_room_decode` puts in front of its NUL. -/
def roomBytes (room : List UInt8) : List UInt8 :=
  decodeEscapes (if room.head? = some 35 then room.tail else room)

/-- `irc_room_decode`, as its callers read it: a `%00` is the end of the string. -/
def ircRoomDecode (room : List UInt8) : List UInt8 := (roomBytes room).takeWhile (· ≠ 0)

/-! ## Decoding what was encoded -/

theorem hexCode_hexDigit (b : UInt8) :
    hexCode (hexDigit (b >>> 4)) = (b >>> 4, true) ∧
      hexCode (hexDigit (b &&& 15)) = (b &&& 15, true) ∧
      (b >>> 4) <<< 4 ||| (b &&& 15) = b := by
  revert b
  exact byte_forall (by decide +kernel)

theorem decodeEscapes_cons {b : UInt8} (h : b ≠ 37) (rest : List UInt8) :
    decodeEscapes (b :: rest) = b :: decodeEscapes rest := by
  rw [decodeEscapes]
  exact fun _ _ _ hb => absurd hb h

theorem decodeEscapes_escape (b : UInt8) (rest : List UInt8) :
    decodeEscapes (escape b ++ rest) = b :: decodeEscapes rest := by
  by_cases hb : isAlnum b = true
  · have hne : b ≠ 37 := by
      rintro rfl
      exact absurd hb (by decide)
    rw [escape, if_pos hb]
    exact decodeEscapes_cons hne rest
  · rcases hexCode_hexDigit b with ⟨hhigh, hlow, hbyte⟩
    rw [escape, if_neg hb]
    show decodeEscapes (37 :: hexDigit (b >>> 4) :: hexDigit (b &&& 15) :: rest) = _
    rw [decodeEscapes, hhigh, hlow, hbyte]
    rfl

theorem decodeEscapes_flatMap (room : List UInt8) :
    decodeEscapes (room.flatMap escape) = room := by
  induction room with
  | nil => rfl
  | cons b room ih => rw [List.flatMap_cons, decodeEscapes_escape, ih]

theorem roomBytes_ircRoomEncode (room : List UInt8) : roomBytes (ircRoomEncode room) = room := by
  by_cases hroom : room = []
  · subst hroom
    rfl
  · rw [ircRoomEncode, if_neg hroom]
    exact decodeEscapes_flatMap room

theorem ircRoomDecode_ircRoomEncode {room : List UInt8} (h : 0 ∉ room) :
    ircRoomDecode (ircRoomEncode room) = room := by
  rw [ircRoomDecode, roomBytes_ircRoomEncode, takeWhile_noNul h]

/-- Two rooms have two channels. -/
theorem ircRoomEncode_inj {room room' : List UInt8} :
    ircRoomEncode room = ircRoomEncode room' ↔ room = room' := by
  constructor
  · intro h
    rw [← roomBytes_ircRoomEncode room, h, roomBytes_ircRoomEncode]
  · rintro rfl
    rfl

end Irc
end IrC6
