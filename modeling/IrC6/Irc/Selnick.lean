import IrC6.Irc.Status

/-!
# The choice of a nick

The server sends the nicks of a user with a password for each of them.  `irc_out_selnick`
shows the nicks and logs in with the password of the one that the user has asked for.  It
does not look whether there was one.
-/

namespace IrC6
namespace Irc

/-- `strlcat` into an array of `size` bytes with a string in it. -/
def strlcat (size : Nat) (dst src : List UInt8) : List UInt8 := (dst ++ src).take (size - 1)

/-- The arguments of `send login`, with nothing for `NULL`. -/
structure SendLogin where
  nick : List UInt8
  pass : Option (List UInt8)
deriving DecidableEq, Repr

/-- What `irc_out_selnick` leaves: the connection, the lines for the client, and what it
emits. -/
structure Selected where
  st : State
  lines : List Out
  logins : List SendLogin

/-- The loop over the nicks, with `nick_str` and `pass`. -/
def selnickLoop (nick : List UInt8) :
    List (List UInt8 × List UInt8) → List UInt8 → Option (List UInt8) →
    List UInt8 × Option (List UInt8)
  | [], nickStr, pass => (nickStr, pass)
  | (nickv, passv) :: rest, nickStr, pass =>
      let nickStr := strlcat 2048 (strlcat 2048 nickStr [32]) nickv
      selnickLoop nick rest nickStr (if pass = none ∧ nickv = nick then some passv else pass)

def ircOutSelnick (st : State) (nicks : List (List UInt8 × List UInt8)) : Selected :=
  if nicks.length = 0 then
    let st := { st with nick := strlcpy st.user.text }
    { st := st, lines := [], logins := [⟨st.nick.text, some st.pass.text⟩] }
  else
    let r := selnickLoop st.nick.text nicks [] none
    { st := st, lines := [ircConsole (ascii "nicks:" ++ r.1)], logins := [⟨st.nick.text, r.2⟩] }

/-- The password that `c6_login` sends, `xxx_pass`.  It takes the length of its argument. -/
def xxxPass (pass : Option (List UInt8)) : Option (List UInt8) := pass.map (·.take 8)

/-- The login that a list of nicks asks for: with the user name and the password that was
given, if the list is empty, and else with the first password of the nick, if it is in the
list. -/
def wantedLogins (st : State) (nicks : List (List UInt8 × List UInt8)) : List SendLogin :=
  if nicks = [] then [⟨st.user.text, some st.pass.text⟩]
  else match nicks.find? (·.1 = st.nick.text) with
  | some x => [⟨st.nick.text, some x.2⟩]
  | none => []

/-- The right login is made, and `c6_login` has a password to send. -/
structure SelectsOwn (st : State) (nicks : List (List UInt8 × List UInt8)) : Prop where
  logins : (ircOutSelnick st nicks).logins = wantedLogins st nicks
  pass : ∀ l ∈ (ircOutSelnick st nicks).logins, (xxxPass l.pass).isSome = true

theorem selnickLoop_pass (nick : List UInt8) (nicks : List (List UInt8 × List UInt8))
    (nickStr : List UInt8) (pass : Option (List UInt8)) :
    (selnickLoop nick nicks nickStr pass).2 =
      pass.or ((nicks.find? (·.1 = nick)).map Prod.snd) := by
  induction nicks generalizing nickStr pass with
  | nil => cases pass <;> rfl
  | cons x rest ih =>
      rcases x with ⟨nickv, passv⟩
      rw [selnickLoop, ih, List.find?_cons]
      cases pass with
      | some p => rw [if_neg (fun h => nomatch h.1)]; rfl
      | none =>
          by_cases hnick : nickv = nick
          · simp [hnick]
          · simp [hnick]

theorem strlcpy_text (n : Name) : (strlcpy n.text).text = n.text :=
  List.take_of_length_le (Nat.le_of_lt_succ n.fits)

/-- The login is right exactly when the list is empty or has the nick. -/
theorem selectsOwn_iff (st : State) (nicks : List (List UInt8 × List UInt8)) :
    SelectsOwn st nicks ↔ nicks = [] ∨ ∃ x ∈ nicks, x.1 = st.nick.text := by
  by_cases hnil : nicks = []
  · subst hnil
    have hlogins : (ircOutSelnick st []).logins = [⟨st.user.text, some st.pass.text⟩] :=
      congrArg (fun nick => [SendLogin.mk nick (some st.pass.text)]) (strlcpy_text st.user)
    refine iff_of_true ⟨hlogins, fun l hl => ?_⟩ (Or.inl rfl)
    rw [hlogins, List.mem_singleton] at hl
    subst hl
    rfl
  · have hlen : nicks.length ≠ 0 := fun h => hnil (List.length_eq_zero_iff.mp h)
    have hlogins : (ircOutSelnick st nicks).logins =
        [⟨st.nick.text, (nicks.find? (·.1 = st.nick.text)).map Prod.snd⟩] := by
      rw [ircOutSelnick, if_neg hlen]
      simp only [selnickLoop_pass, Option.none_or]
    cases hfind : nicks.find? (·.1 = st.nick.text) with
    | none =>
        -- `pass` is still `NULL`.
        rw [hfind] at hlogins
        have hmem : ⟨st.nick.text, none⟩ ∈ (ircOutSelnick st nicks).logins := by
          rw [hlogins]
          exact List.mem_singleton_self _
        refine iff_of_false (fun h => absurd (h.pass _ hmem) (by simp [xxxPass])) ?_
        · rintro (h | ⟨x, hx, hnick⟩)
          · exact hnil h
          · exact absurd (decide_eq_true hnick) (List.find?_eq_none.mp hfind x hx)
    | some x =>
        rw [hfind] at hlogins
        have hx := List.find?_some hfind
        refine iff_of_true ⟨?_, fun l hl => ?_⟩
          (Or.inr ⟨x, List.mem_of_find?_eq_some hfind, of_decide_eq_true hx⟩)
        · rw [hlogins, wantedLogins, if_neg hnil, hfind]
          rfl
        · rw [hlogins, List.mem_singleton] at hl
          subst hl
          rfl

/-- A connection whose user has asked for the nick `a`. -/
def askedFor : State :=
  { nick := strlcpy [97], user := strlcpy [117], pass := strlcpy [112], chans := ∅, nicks := ∅,
    status := 0, connFlags := 0, isOnSearchusr := false, skipColors := false, away := none,
    cmdList := [], ip := [] }

/-- The list has another nick only, and the login is made without a password. -/
theorem selectsOwn_fails :
    ¬ ∀ (st : State) (nicks : List (List UInt8 × List UInt8)), SelectsOwn st nicks := by
  intro h
  have hpass := (h askedFor [([98], [120])]).pass ⟨[97], none⟩ (by decide)
  exact absurd hpass (by decide)

end Irc
end IrC6
