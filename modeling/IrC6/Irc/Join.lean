import IrC6.Irc.Spares
import IrC6.Irc.Tokens

/-!
# Room names through `JOIN`

The name of a room comes back from its channel, and a channel is one word with no comma in
it.  A line of `JOIN` with the channels of some rooms asks for these rooms, one by one.
-/

namespace IrC6
namespace Irc

/-- A digit as `%X` writes it. -/
def isUpperHex (b : UInt8) : Bool := (48 ≤ b && b ≤ 57) || (65 ≤ b && b ≤ 70)

/-- A text of letters, digits and escapes. -/
inductive Escaped : List UInt8 → Prop where
  | nil : Escaped []
  | alnum {b : UInt8} {rest : List UInt8} : isAlnum b = true → Escaped rest → Escaped (b :: rest)
  | hex {a b : UInt8} {rest : List UInt8} : isUpperHex a = true → isUpperHex b = true →
      Escaped rest → Escaped (37 :: a :: b :: rest)

theorem isUpperHex_hexDigit (b : UInt8) :
    isUpperHex (hexDigit (b >>> 4)) = true ∧ isUpperHex (hexDigit (b &&& 15)) = true := by
  revert b
  exact byte_forall (by decide +kernel)

theorem escaped_flatMap (room : List UInt8) : Escaped (room.flatMap escape) := by
  induction room with
  | nil => exact .nil
  | cons b room ih =>
      rw [List.flatMap_cons, escape]
      by_cases hb : isAlnum b = true
      · rw [if_pos hb]
        exact .alnum hb ih
      · rw [if_neg hb]
        rcases isUpperHex_hexDigit b with ⟨hhigh, hlow⟩
        exact .hex hhigh hlow ih

theorem ircRoomEncode_cons {room : List UInt8} (h : room ≠ []) :
    ircRoomEncode room = 35 :: room.flatMap escape := if_neg h

/-! ## No separator in an encoding -/

/-- A byte that is neither a blank nor a comma. -/
def isPlainByte (b : UInt8) : Bool := !isBlank b && b ≠ 44

theorem isPlainByte_alnum (b : UInt8) (h : isAlnum b = true) : isPlainByte b = true := by
  have hall : ∀ b : UInt8, isAlnum b = true → isPlainByte b = true :=
    byte_forall (by decide +kernel)
  exact hall b h

theorem isPlainByte_hex (b : UInt8) (h : isUpperHex b = true) : isPlainByte b = true := by
  have hall : ∀ b : UInt8, isUpperHex b = true → isPlainByte b = true :=
    byte_forall (by decide +kernel)
  exact hall b h

theorem Escaped.plain {text : List UInt8} (h : Escaped text) :
    ∀ b ∈ text, isPlainByte b = true := by
  induction h with
  | nil => exact fun b hb => absurd hb List.not_mem_nil
  | alnum hb _ ih => exact List.forall_mem_cons.mpr ⟨isPlainByte_alnum _ hb, ih⟩
  | hex ha hb _ ih =>
      refine List.forall_mem_cons.mpr ⟨rfl, List.forall_mem_cons.mpr ⟨isPlainByte_hex _ ha, ?_⟩⟩
      exact List.forall_mem_cons.mpr ⟨isPlainByte_hex _ hb, ih⟩

theorem ircRoomEncode_plain (room : List UInt8) :
    ∀ b ∈ ircRoomEncode room, isPlainByte b = true := by
  unfold ircRoomEncode
  by_cases h : room = []
  · rw [if_pos h]
    exact fun b hb => absurd hb List.not_mem_nil
  · rw [if_neg h]
    exact List.forall_mem_cons.mpr ⟨rfl, (escaped_flatMap room).plain⟩

/-! ## The line -/

/-- The encodings of some rooms with commas between them. -/
def channels (rooms : List (List UInt8)) : List UInt8 :=
  [44].intercalate (rooms.map ircRoomEncode)

def joinLine (rooms : List (List UInt8)) : List UInt8 := ascii "JOIN " ++ channels rooms

theorem strsep_append {w : List UInt8} (h : ∀ b ∈ w, isPlainByte b = true) (rest : List UInt8) :
    strsep (· = 44) (w ++ 44 :: rest) = w :: strsep (· = 44) rest := by
  induction w with
  | nil => rfl
  | cons b w ih =>
      have hb : ¬b = 44 := by
        have hplain := h b List.mem_cons_self
        simp only [isPlainByte, Bool.and_eq_true, decide_eq_true_eq] at hplain
        exact hplain.2
      rw [List.cons_append, strsep, if_neg (by simpa using hb),
        ih fun c hc => h c (List.mem_cons_of_mem _ hc)]

theorem strsep_word {w : List UInt8} (h : ∀ b ∈ w, isPlainByte b = true) :
    strsep (· = 44) w = [w] := by
  induction w with
  | nil => rfl
  | cons b w ih =>
      have hb : ¬b = 44 := by
        have hplain := h b List.mem_cons_self
        simp only [isPlainByte, Bool.and_eq_true, decide_eq_true_eq] at hplain
        exact hplain.2
      rw [strsep, if_neg (by simpa using hb), ih fun c hc => h c (List.mem_cons_of_mem _ hc)]

/-- The commas of a line of `JOIN` are those between its channels. -/
theorem strsep_channels {rooms : List (List UInt8)} (h : rooms ≠ []) :
    strsep (· = 44) (channels rooms) = rooms.map ircRoomEncode := by
  induction rooms with
  | nil => exact absurd rfl h
  | cons room rooms ih =>
      have hplain := ircRoomEncode_plain room
      cases rooms with
      | nil =>
          have hone : channels [room] = ircRoomEncode room := by simp [channels]
          rw [hone]
          exact strsep_word hplain
      | cons next rooms =>
          have hmore : channels (room :: next :: rooms) =
              ircRoomEncode room ++ 44 :: channels (next :: rooms) := by
            simp [channels, List.intercalate_cons_cons]
          rw [hmore, strsep_append hplain, ih (List.cons_ne_nil _ _)]
          rfl

/-- The channels are one word, which starts with `#`. -/
theorem channels_word {rooms : List (List UInt8)} (h : rooms ≠ [])
    (hrooms : ∀ room ∈ rooms, room ≠ []) :
    (∃ rest, channels rooms = 35 :: rest) ∧ ∀ b ∈ channels rooms, isBlank b = false := by
  have hblank : ∀ room, ∀ b ∈ ircRoomEncode room, isBlank b = false := by
    intro room b hb
    have hplain := ircRoomEncode_plain room b hb
    simp only [isPlainByte, Bool.and_eq_true, Bool.not_eq_true'] at hplain
    exact hplain.1
  induction rooms with
  | nil => exact absurd rfl h
  | cons room rooms ih =>
      have hroom := ircRoomEncode_cons (hrooms room List.mem_cons_self)
      cases rooms with
      | nil =>
          have hone : channels [room] = ircRoomEncode room := by simp [channels]
          rw [hone]
          exact ⟨⟨_, hroom⟩, hblank room⟩
      | cons next rooms =>
          have hmore : channels (room :: next :: rooms) =
              ircRoomEncode room ++ 44 :: channels (next :: rooms) := by
            simp [channels, List.intercalate_cons_cons]
          rcases ih (List.cons_ne_nil _ _) fun r hr => hrooms r (List.mem_cons_of_mem _ hr) with
            ⟨-, hrest⟩
          rw [hmore]
          refine ⟨⟨_, by rw [hroom]; rfl⟩, List.forall_mem_append.mpr ⟨hblank room, ?_⟩⟩
          exact List.forall_mem_cons.mpr ⟨rfl, hrest⟩

theorem lineCommand_joinLine {rooms : List (List UInt8)} (h : rooms ≠ [])
    (hrooms : ∀ room ∈ rooms, room ≠ []) :
    lineCommand (joinLine rooms) = some (.join, [channels rooms]) := by
  rcases channels_word h hrooms with ⟨⟨rest, hstart⟩, hblank⟩
  have hargs : argsSep (joinLine rooms) = [ascii "JOIN", channels rooms] := by
    have hline : joinLine rooms = [74, 79, 73, 78] ++ 32 :: channels rooms := rfl
    have hjoin : ∀ b ∈ [74, 79, 73, 78], isBlank b = false := by simp [isBlank]
    rw [hline, argsSep_append (List.cons_ne_nil _ _) hjoin rfl,
      argsSep_word (by simp [hstart]) hblank]
    rfl
  unfold lineCommand
  rw [hargs]
  rfl

/-- What `c_join` asks for is what was encoded. -/
theorem joinOne_ircRoomEncode {room : List UInt8} (h : room ≠ []) (hnul : 0 ∉ room) :
    Comandi.joinOne (ircRoomEncode room) = [.emit (.roomEnter room)] := by
  have hrem : isRemChan (ircRoomEncode room) = true := by
    rw [ircRoomEncode_cons h]
    rfl
  rw [Comandi.joinOne, if_pos hrem, ircRoomDecode_ircRoomEncode hnul]

/-- Rooms that are encoded, and then joined with a line of their channels, are entered once
each, in their order and under their names.  These are C strings, with no NUL inside. -/
theorem rooms_through_join (set : Setup) (st : State) (hst : st.connectionCompleted = true)
    (rooms : List (List UInt8)) (h : rooms ≠ []) (hrooms : ∀ room ∈ rooms, room ≠ []) :
    (∀ room ∈ rooms, ∃ rest, ircRoomEncode room = 35 :: rest ∧ Escaped rest) ∧
    (∀ room ∈ rooms, 0 ∉ room → ircRoomDecode (ircRoomEncode room) = room) ∧
    (∀ room ∈ rooms, ∀ room' ∈ rooms, ircRoomEncode room = ircRoomEncode room' → room = room') ∧
    ((∀ room ∈ rooms, 0 ∉ room) → ircProcessInput set st (joinLine rooms) =
      .ok (st, rooms.map fun room => .emit (.roomEnter room))) := by
  refine ⟨?_, ?_, ?_, ?_⟩
  · exact fun room hroom => ⟨_, ircRoomEncode_cons (hrooms room hroom), escaped_flatMap room⟩
  · exact fun room _ hnul => ircRoomDecode_ircRoomEncode hnul
  · exact fun room _ room' _ heq => ircRoomEncode_inj.mp heq
  · intro hnul
    obtain ⟨⟨rest, hstart⟩, -⟩ := channels_word h hrooms
    have hskip : skipColon (channels rooms) = channels rooms := by
      rw [hstart]
      rfl
    have houts : (rooms.map ircRoomEncode).flatMap Comandi.joinOne =
        rooms.map fun room => .emit (.roomEnter room) := by
      clear h hstart hskip
      induction rooms with
      | nil => rfl
      | cons room rooms ih =>
          rw [List.map_cons, List.flatMap_cons,
            joinOne_ircRoomEncode (hrooms room List.mem_cons_self)
              (hnul room List.mem_cons_self),
            ih (fun r hr => hrooms r (List.mem_cons_of_mem _ hr))
              fun r hr => hnul r (List.mem_cons_of_mem _ hr)]
          rfl
    rw [ircProcessInput_command (lineCommand_joinLine h hrooms)]
    show Comandi.addCommand st _ (say st ((Comandi.chanTokens (channels rooms)).flatMap _)) = _
    rw [addCommand_connected hst, Comandi.chanTokens, hskip, strsep_channels h, houts]
    rfl

/-- A room with a comma and a blank in its name, and one with a percent sign. -/
theorem rooms_through_join_two :
    ircProcessInput noSetup welcomed (joinLine [ascii "due, tre", ascii "100%"]) =
      .ok (welcomed, [.emit (.roomEnter (ascii "due, tre")), .emit (.roomEnter (ascii "100%"))]) :=
  (rooms_through_join noSetup welcomed rfl [ascii "due, tre", ascii "100%"] nofun
    (by simp [ascii])).2.2.2 (by simp [ascii]; decide)

end Irc
end IrC6
