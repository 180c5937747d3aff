import IrC6.Irc.Spares

/-!
# The login

A client gives its password, its nick and its user with `PASS`, `NICK` and `USER`, in any
order and as often as it likes.  The handler that takes the last of the three emits
`connect`, and from then on the three of them only answer that the login is done.
-/

namespace IrC6
namespace Irc

/-- `irC6_new_connection` and `irc_connection_new`. -/
def ircConnectionNew (ip : List UInt8) : State :=
  { nick := strlcpy (ascii "user"), user := strlcpy [], pass := strlcpy [], chans := ∅,
    nicks := ∅, status := 0, connFlags := 0, isOnSearchusr := false, skipColors := false,
    away := none, cmdList := [], ip := ip }

/-- A line of `PASS`, `NICK` or `USER`, with as many arguments as there are. -/
def LoginLine (str : List UInt8) : Prop :=
  ∃ command argv, lineCommand str = some (command, argv) ∧
    (command = .pass ∨ command = .nick ∨ command = .user)

/-- The arguments that a handler wants. -/
def needed : Comandi.Command → Nat
  | .user => 3
  | _ => 1

/-- What a line gives for a command: its first argument, if it has enough of them. -/
def given (command : Comandi.Command) (str : List UInt8) : Option (List UInt8) :=
  match lineCommand str with
  | none => none
  | some (c, argv) => if c = command ∧ needed command ≤ argv.length then argv.head? else none

/-- What the lines have given last. -/
def latest (command : Comandi.Command) (lines : List (List UInt8)) : Option (List UInt8) :=
  (lines.filterMap (given command)).getLast?

/-- All three have been given. -/
def allGiven (lines : List (List UInt8)) : Bool :=
  (latest .pass lines).isSome && (latest .nick lines).isSome && (latest .user lines).isSome

/-- `connect` is emitted on the line with which everything has been given, once, and the
first 31 bytes of what was given last until then stay whatever comes behind it. -/
structure LoginOnce (set : Setup) (st₀ : State) (lines : List (List UInt8)) : Prop where
  runs : ∃ st outs, each (ircProcessInput set) st₀ lines = .ok (st, outs) ∧
    outs.count (.silent .connect) ≤ 1
  connects : ∀ before str after, lines = before ++ str :: after →
    ∃ s o s' o', each (ircProcessInput set) st₀ before = .ok (s, o) ∧
      ircProcessInput set s str = .ok (s', o') ∧
      (.silent .connect ∈ o' ↔ allGiven before = false ∧ allGiven (before ++ [str]) = true)
  stored : ∀ before str after, lines = before ++ str :: after →
    allGiven before = false → allGiven (before ++ [str]) = true →
    ∀ st outs, each (ircProcessInput set) st₀ lines = .ok (st, outs) →
      (latest .pass (before ++ [str])).map (·.take 31) = some st.pass.text ∧
      (latest .nick (before ++ [str])).map (·.take 31) = some st.nick.text ∧
      (latest .user (before ++ [str])).map (·.take 31) = some st.user.text

/-! ## What has been given -/

theorem latest_append (command : Comandi.Command) (lines : List (List UInt8)) (str : List UInt8) :
    latest command (lines ++ [str]) = (given command str).or (latest command lines) := by
  unfold latest
  rw [List.filterMap_append]
  cases hgiven : given command str with
  | none => simp [hgiven]
  | some arg => simp [hgiven]

theorem allGiven_append {lines : List (List UInt8)} (h : allGiven lines = true)
    (str : List UInt8) : allGiven (lines ++ [str]) = true := by
  simp only [allGiven, Bool.and_eq_true, latest_append, Option.isSome_or] at h ⊢
  simp [h]

/-! ## Until everything has been given -/

/-- The flags when some of the three have been given. -/
def loginFlags (pass nick user : Bool) : UInt8 :=
  (if pass then flagPass else 0) ||| (if nick then flagNick else 0) |||
    (if user then flagUser else 0)

/-- What is in a field, of which the first value is another one. -/
def fieldOf (first : Name) (value : Option (List UInt8)) : Name := (value.map strlcpy).getD first

/-- A connection on which some lines of the login have come. -/
structure LoggingIn (st₀ : State) (lines : List (List UInt8)) (st : State) : Prop where
  flags : st.connFlags = loginFlags (latest .pass lines).isSome (latest .nick lines).isSome
    (latest .user lines).isSome
  pass : st.pass = fieldOf st₀.pass (latest .pass lines)
  nick : st.nick = fieldOf st₀.nick (latest .nick lines)
  user : st.user = fieldOf st₀.user (latest .user lines)

section Steps

variable {st₀ st : State} {lines : List (List UInt8)} {str : List UInt8}

/-- `do_login` sets a flag, and emits `connect` with the last one. -/
theorem doLogin_eq (h : st.loginCompleted = false) (flag : UInt8) :
    Comandi.doLogin st flag = .ok ({ st with connFlags := st.connFlags ||| flag },
      if ({ st with connFlags := st.connFlags ||| flag } : State).loginCompleted
        then [.silent .connect] else []) := by
  rw [Comandi.doLogin, if_neg (by simp [h])]
  rfl

theorem loggingIn_start (ip : List UInt8) :
    LoggingIn (ircConnectionNew ip) [] (ircConnectionNew ip) :=
  ⟨rfl, rfl, rfl, rfl⟩

/-- A line of another command gives nothing. -/
theorem given_ne {command c : Comandi.Command} {argv : List (List UInt8)}
    (hcommand : lineCommand str = some (c, argv)) (hne : c ≠ command) :
    given command str = none := by
  simp only [given, hcommand]
  exact if_neg fun h => hne h.1

theorem given_few {command : Comandi.Command} {argv : List (List UInt8)}
    (hcommand : lineCommand str = some (command, argv)) (hfew : argv.length < needed command) :
    given command str = none := by
  simp only [given, hcommand]
  exact if_neg fun h => absurd h.2 (by omega)

theorem given_enough {command : Comandi.Command} {arg : List UInt8} {rest : List (List UInt8)}
    (hcommand : lineCommand str = some (command, arg :: rest))
    (henough : needed command ≤ rest.length + 1) : given command str = some arg := by
  unfold given
  rw [hcommand]
  exact if_pos ⟨rfl, henough⟩

theorem LoggingIn.loginCompleted (h : LoggingIn st₀ lines st) :
    st.loginCompleted = allGiven lines := by
  unfold State.loginCompleted allGiven
  rw [h.flags]
  cases (latest .pass lines).isSome <;> cases (latest .nick lines).isSome <;>
    cases (latest .user lines).isSome <;> rfl

/-- What a line of the login does until everything has been given. -/
def Accepts (set : Setup) (st₀ st : State) (lines : List (List UInt8)) (str : List UInt8) : Prop :=
  ∃ st' outs, ircProcessInput set st str = .ok (st', outs) ∧
    LoggingIn st₀ (lines ++ [str]) st' ∧
    outs.count (.silent .connect) = if allGiven (lines ++ [str]) then 1 else 0

/-- A line with too few arguments is answered and changes nothing. -/
theorem accepts_few (set : Setup) (h : LoggingIn st₀ lines st) (hall : allGiven lines = false)
    {command : Comandi.Command} {argv : List (List UInt8)}
    (hcommand : lineCommand str = some (command, argv)) (hfew : argv.length < needed command)
    {text : String}
    (hrun : Comandi.run set st argv str command = say st [Comandi.errParam st text]) :
    Accepts set st₀ st lines str := by
  have hnone : ∀ c, given c str = none := by
    intro c
    by_cases hc : command = c
    · exact given_few (hc ▸ hcommand) (hc ▸ hfew)
    · exact given_ne hcommand hc
  have hlatest : ∀ c, latest c (lines ++ [str]) = latest c lines := by
    intro c
    rw [latest_append, hnone, Option.none_or]
  refine ⟨st, [Comandi.errParam st text], (ircProcessInput_command hcommand).trans hrun, ?_, ?_⟩
  · refine ⟨?_, ?_, ?_, ?_⟩
    · simpa only [hlatest] using h.flags
    · rw [hlatest, h.pass]
    · rw [hlatest, h.nick]
    · rw [hlatest, h.user]
  · have hsame : allGiven (lines ++ [str]) = false := by simpa only [allGiven, hlatest] using hall
    rw [hsame]
    rfl

/-- A line with enough arguments leaves its flag and its field. -/
theorem accepts_enough (set : Setup) (hall : allGiven lines = false) {command : Comandi.Command}
    {argv : List (List UInt8)} (hcommand : lineCommand str = some (command, argv)) {s : State}
    {flag : UInt8} (hrun : Comandi.run set st argv str command = Comandi.doLogin s flag)
    (hs : s.loginCompleted = allGiven lines)
    (hnext : LoggingIn st₀ (lines ++ [str]) { s with connFlags := s.connFlags ||| flag }) :
    Accepts set st₀ st lines str := by
  refine ⟨_, _, (ircProcessInput_command hcommand).trans
    (hrun.trans (doLogin_eq (hs.trans hall) flag)), hnext, ?_⟩
  rw [hnext.loginCompleted]
  cases allGiven (lines ++ [str]) <;> rfl

theorem loginFlags_pass (pass nick user : Bool) :
    loginFlags pass nick user ||| flagPass = loginFlags true nick user := by
  cases pass <;> cases nick <;> cases user <;> rfl

theorem loginFlags_nick (pass nick user : Bool) :
    loginFlags pass nick user ||| flagNick = loginFlags pass true user := by
  cases pass <;> cases nick <;> cases user <;> rfl

theorem loginFlags_user (pass nick user : Bool) :
    loginFlags pass nick user ||| flagUser = loginFlags pass nick true := by
  cases pass <;> cases nick <;> cases user <;> rfl

theorem latest_other (lines : List (List UInt8)) {command c : Comandi.Command}
    {argv : List (List UInt8)} (hcommand : lineCommand str = some (command, argv))
    (hne : command ≠ c) :
    latest c (lines ++ [str]) = latest c lines := by
  rw [latest_append, given_ne hcommand hne, Option.none_or]

theorem latest_arg (lines : List (List UInt8)) {command : Comandi.Command} {arg : List UInt8}
    {rest : List (List UInt8)} (hcommand : lineCommand str = some (command, arg :: rest))
    (henough : needed command ≤ rest.length + 1) : latest command (lines ++ [str]) = some arg := by
  rw [latest_append, given_enough hcommand henough, Option.some_or]

theorem accepts_line (set : Setup) (h : LoggingIn st₀ lines st) (hall : allGiven lines = false)
    (hline : LoginLine str) : Accepts set st₀ st lines str := by
  have hlogin : st.loginCompleted = false := h.loginCompleted.trans hall
  have hif : ∀ r, (if st.loginCompleted = true then Comandi.loginDone st else r) = r :=
    fun r => if_neg (by simp [hlogin])
  rcases hline with ⟨command, argv, hcommand, rfl | rfl | rfl⟩
  · match argv with
    | [] => exact accepts_few set h hall hcommand (by decide) (hif _)
    | arg :: rest =>
        have hpass := latest_arg lines hcommand (Nat.le_add_left 1 rest.length)
        have hnick := latest_other lines hcommand (c := .nick) nofun
        have huser := latest_other lines hcommand (c := .user) nofun
        refine accepts_enough set hall hcommand (hif _) h.loginCompleted ⟨?_, ?_, ?_, ?_⟩
        · rw [hpass, hnick, huser]
          exact (congrArg (· ||| flagPass) h.flags).trans (loginFlags_pass _ _ _)
        · rw [hpass]
          rfl
        · exact h.nick.trans (congrArg (fieldOf st₀.nick) hnick.symm)
        · exact h.user.trans (congrArg (fieldOf st₀.user) huser.symm)
  · match argv with
    | [] => exact accepts_few set h hall hcommand (by decide) (hif _)
    | arg :: rest =>
        have hpass := latest_other lines hcommand (c := .pass) nofun
        have hnick := latest_arg lines hcommand (Nat.le_add_left 1 rest.length)
        have huser := latest_other lines hcommand (c := .user) nofun
        refine accepts_enough set hall hcommand (hif _) h.loginCompleted ⟨?_, ?_, ?_, ?_⟩
        · rw [hpass, hnick, huser]
          exact (congrArg (· ||| flagNick) h.flags).trans (loginFlags_nick _ _ _)
        · exact h.pass.trans (congrArg (fieldOf st₀.pass) hpass.symm)
        · rw [hnick]
          rfl
        · exact h.user.trans (congrArg (fieldOf st₀.user) huser.symm)
  · match argv with
    | [] | [_] | [_, _] => exact accepts_few set h hall hcommand (by simp [needed]) (hif _)
    | arg :: b :: c :: rest =>
        have hpass := latest_other lines hcommand (c := .pass) nofun
        have hnick := latest_other lines hcommand (c := .nick) nofun
        have huser := latest_arg lines hcommand (Nat.le_add_left 3 rest.length)
        refine accepts_enough set hall hcommand (hif _) h.loginCompleted ⟨?_, ?_, ?_, ?_⟩
        · rw [hpass, hnick, huser]
          exact (congrArg (· ||| flagUser) h.flags).trans (loginFlags_user _ _ _)
        · exact h.pass.trans (congrArg (fieldOf st₀.pass) hpass.symm)
        · exact h.nick.trans (congrArg (fieldOf st₀.nick) hnick.symm)
        · rw [huser]
          rfl

/-! ## Once everything has been given -/

/-- A line of the login is only answered. -/
theorem done_line (set : Setup) (hlogin : st.loginCompleted = true) (hline : LoginLine str) :
    ircProcessInput set st str = Comandi.loginDone st := by
  rcases hline with ⟨command, argv, hcommand, rfl | rfl | rfl⟩ <;>
    exact (ircProcessInput_command hcommand).trans (if_pos hlogin)

theorem done_each (set : Setup) (hlogin : st.loginCompleted = true)
    (hlines : ∀ str ∈ lines, LoginLine str) :
    ∃ outs, each (ircProcessInput set) st lines = .ok (st, outs) ∧
      outs.count (.silent .connect) = 0 := by
  induction lines with
  | nil => exact ⟨[], rfl, rfl⟩
  | cons str lines ih =>
      rcases ih fun s hs => hlines s (List.mem_cons_of_mem _ hs) with ⟨outs, hrun, hcount⟩
      refine ⟨_, each_cons_ok (done_line set hlogin (hlines str List.mem_cons_self)) hrun, ?_⟩
      rw [List.count_append, hcount]
      rfl

end Steps

/-! ## The runs -/

section Runs

variable (set : Setup) {st₀ : State}

/-- The lines until everything has been given. -/
theorem loggingIn_each (h₀ : LoggingIn st₀ [] st₀) {lines : List (List UInt8)}
    (hlines : ∀ str ∈ lines, LoginLine str) (hall : allGiven lines = false) :
    ∃ st outs, each (ircProcessInput set) st₀ lines = .ok (st, outs) ∧ LoggingIn st₀ lines st ∧
      outs.count (.silent .connect) = 0 := by
  induction lines using List.reverseRecOn with
  | nil => exact ⟨st₀, [], rfl, h₀, rfl⟩
  | append_singleton lines str ih =>
      have hbefore : allGiven lines = false := by
        by_contra h
        exact absurd (allGiven_append (by simpa using h) str) (by simp [hall])
      rcases ih (fun s hs => hlines s (List.mem_append_left _ hs)) hbefore with
        ⟨st, outs, hrun, hst, hcount⟩
      rcases accepts_line set hst hbefore (hlines str (by simp)) with
        ⟨st', outs', hline, hst', hcount'⟩
      refine ⟨st', outs ++ outs', each_append_ok hrun (each_single hline), hst', ?_⟩
      rw [List.count_append, hcount, hcount', hall]
      rfl

/-- With the line that gives the last of the three, and the lines behind it. -/
theorem loggedIn_each (h₀ : LoggingIn st₀ [] st₀) {before after : List (List UInt8)}
    {str : List UInt8} (hlines : ∀ s ∈ before ++ str :: after, LoginLine s)
    (hbefore : allGiven before = false) (hall : allGiven (before ++ [str]) = true) :
    ∃ st outs, each (ircProcessInput set) st₀ (before ++ str :: after) = .ok (st, outs) ∧
      LoggingIn st₀ (before ++ [str]) st ∧ outs.count (.silent .connect) = 1 := by
  rcases loggingIn_each set h₀ (fun s hs => hlines s (List.mem_append_left _ hs)) hbefore
    with ⟨st, outs, hrun, hst, hcount⟩
  rcases accepts_line set hst hbefore (hlines str (by simp)) with
    ⟨st', outs', hline, hst', hcount'⟩
  rcases done_each set (hst'.loginCompleted.trans hall)
    (fun s hs => hlines s (List.mem_append_right _ (List.mem_cons_of_mem _ hs))) with
    ⟨outs'', hafter, hcount''⟩
  refine ⟨st', _, each_append_ok hrun (each_cons_ok hline hafter), hst', ?_⟩
  rw [List.count_append, List.count_append, hcount, hcount', hcount'', hall]
  rfl

end Runs

/-- The line with which everything has been given. -/
theorem exists_last {lines : List (List UInt8)} (h : allGiven lines = true) :
    ∃ before str after, lines = before ++ str :: after ∧ allGiven before = false ∧
      allGiven (before ++ [str]) = true := by
  induction lines using List.reverseRecOn with
  | nil => exact absurd h nofun
  | append_singleton lines str ih =>
      by_cases hlines : allGiven lines = true
      · rcases ih hlines with ⟨before, s, after, rfl, hbefore, hlast⟩
        exact ⟨before, s, after ++ [str], by simp, hbefore, hlast⟩
      · exact ⟨lines, str, [], rfl, by simpa using hlines, h⟩

theorem count_connect_mem {outs : List Out} {p : Bool}
    (h : outs.count (.silent .connect) = if p then 1 else 0) :
    .silent .connect ∈ outs ↔ p = true := by
  rw [← List.count_pos_iff, h]
  cases p <;> simp

theorem fieldOf_some {first : Name} {value : Option (List UInt8)} (h : value.isSome = true) :
    value.map (·.take 31) = some (fieldOf first value).text := by
  rcases value with _ | arg
  · nomatch h
  · rfl

theorem login_once (set : Setup) (ip : List UInt8) (lines : List (List UInt8))
    (hlines : ∀ str ∈ lines, LoginLine str) : LoginOnce set (ircConnectionNew ip) lines := by
  have h₀ := loggingIn_start ip
  refine ⟨?_, ?_, ?_⟩
  · by_cases hall : allGiven lines = true
    · rcases exists_last hall with ⟨before, str, after, rfl, hbefore, hlast⟩
      rcases loggedIn_each set h₀ hlines hbefore hlast with ⟨st, outs, hrun, -, hcount⟩
      exact ⟨st, outs, hrun, hcount.le⟩
    · rcases loggingIn_each set h₀ hlines (by simpa using hall) with ⟨st, outs, hrun, -, hcount⟩
      exact ⟨st, outs, hrun, by omega⟩
  · rintro before str after rfl
    have hline : LoginLine str := hlines str (by simp)
    have hlines : ∀ s ∈ before, LoginLine s := fun s hs => hlines s (List.mem_append_left _ hs)
    by_cases hbefore : allGiven before = true
    · rcases exists_last hbefore with ⟨b, x, a, rfl, hb, hx⟩
      rcases loggedIn_each set h₀ hlines hb hx with ⟨s, o, hrun, hs, -⟩
      refine ⟨s, o, s, _, hrun, done_line set (hs.loginCompleted.trans hx) hline, ?_⟩
      refine iff_of_false (by simp [ircErrmsg, ircNotice]) fun h => ?_
      exact absurd (hbefore.symm.trans h.1) nofun
    · have hbefore : allGiven before = false := by simpa using hbefore
      rcases loggingIn_each set h₀ hlines hbefore with ⟨s, o, hrun, hs, -⟩
      rcases accepts_line set hs hbefore hline with ⟨s', o', hstep, -, hcount⟩
      exact ⟨s, o, s', o', hrun, hstep, (count_connect_mem hcount).trans
        (and_iff_right hbefore).symm⟩
  · rintro before str after rfl hbefore hlast st outs hrun
    rcases loggedIn_each set h₀ hlines hbefore hlast with ⟨s, o, hs, hlogged, -⟩
    injection hs.symm.trans hrun with heq
    injection heq with hst _
    subst hst
    have hgiven := hlast
    simp only [allGiven, Bool.and_eq_true] at hgiven
    rw [hlogged.pass, hlogged.nick, hlogged.user]
    exact ⟨fieldOf_some hgiven.1.1, fieldOf_some hgiven.1.2, fieldOf_some hgiven.2⟩

/-- Two nicks, a `USER` that is too short, and a `NICK` that comes too late. -/
def someLogin : List (List UInt8) :=
  [ascii "NICK io", ascii "USER io 0", ascii "PASS x", ascii "NICK tu", ascii "USER me 0 *",
    ascii "NICK lui"]

theorem login_once_someLogin : LoginOnce noSetup (ircConnectionNew []) someLogin := by
  refine login_once noSetup [] someLogin ?_
  intro str hstr
  simp only [someLogin, List.mem_cons, List.not_mem_nil, or_false] at hstr
  rcases hstr with rfl | rfl | rfl | rfl | rfl | rfl
  · exact ⟨.nick, _, rfl, .inr (.inl rfl)⟩
  · exact ⟨.user, _, rfl, .inr (.inr rfl)⟩
  · exact ⟨.pass, _, rfl, .inl rfl⟩
  · exact ⟨.nick, _, rfl, .inr (.inl rfl)⟩
  · exact ⟨.user, _, rfl, .inr (.inr rfl)⟩
  · exact ⟨.nick, _, rfl, .inr (.inl rfl)⟩

end Irc
end IrC6
