import IrC6.Irc.Fits
import IrC6.Irc.Quiet

/-!
# What a line sends

Each command of the user sends packets that are formed right if and only if its words
fit, and a line does so with its command.
-/

namespace IrC6
namespace Irc

theorem Quiet.fit {outs : List Out} (h : Quiet outs) (nick : List UInt8) : Fit nick outs := by
  intro o ho
  cases o with
  | emit req => exact absurd rfl (h _ ho req)
  | _ => trivial

theorem Quiet.fit_iff {outs : List Out} (h : Quiet outs) (nick : List UInt8) :
    Fit nick outs ↔ True :=
  iff_true_intro (h.fit nick)

theorem fit_append {nick : List UInt8} {outs outs' : List Out} :
    Fit nick (outs ++ outs') ↔ Fit nick outs ∧ Fit nick outs' :=
  List.forall_mem_append

theorem fit_cons {nick : List UInt8} {o : Out} {outs : List Out} :
    Fit nick (o :: outs) ↔ o.Fits nick ∧ Fit nick outs :=
  List.forall_mem_cons

theorem fit_nil (nick : List UInt8) : Fit nick [] := fun _ h => absurd h List.not_mem_nil

theorem fit_single {nick : List UInt8} {o : Out} : Fit nick [o] ↔ o.Fits nick := by
  rw [fit_cons, and_iff_left (fit_nil nick)]

theorem fit_flatMap {nick : List UInt8} {β : Type} {f : β → List Out} {P : β → Prop}
    (hf : ∀ b, Fit nick (f b) ↔ P b) (bs : List β) :
    Fit nick (bs.flatMap f) ↔ ∀ b ∈ bs, P b := by
  rw [Fit, List.forall_mem_flatMap]
  exact forall₂_congr fun b _ => hf b

theorem fit_textFrom {σ : Type} {nick str word : List UInt8} {f : List UInt8 → Wrote σ} :
    Fit nick (textFrom str word f).outs ↔
      ∀ text, strstr str word = some text → Fit nick (f text).outs := by
  unfold textFrom
  cases strstr str word with
  | none => simp [Wrote.outs, fit_nil]
  | some text => simp

/-- A loop whose turns come to their end asks for what its turns ask for. -/
theorem fit_each {nick : List UInt8} {σ β : Type} {turn : σ → β → Wrote σ} {P : β → Prop}
    (hturn : ∀ s b, ∃ r, turn s b = .ok r ∧ (Fit nick r.2 ↔ P b)) (s : σ) (bs : List β) :
    Fit nick (each turn s bs).outs ↔ ∀ b ∈ bs, P b := by
  induction bs generalizing s with
  | nil => exact iff_of_true (fit_nil nick) fun _ h => absurd h List.not_mem_nil
  | cons b bs ih =>
      rcases hturn s b with ⟨r, hr, hfit⟩
      rw [each, outs_andThen, fit_append, List.forall_mem_cons, hr]
      exact and_congr hfit (ih r.1)

/-! ## The local channels -/

section Local

variable {nick : List UInt8}

theorem fit_users {argv : List (List UInt8)} {req : C6.Request}
    (hreq : req.Fits nick ↔ UsersFit argv) {r : Wrote Conn} (hr : Quiet r.outs) :
    Fit nick (writeFirst [.emit req] r).outs ↔ UsersFit argv := by
  rw [writeFirst, outs_andThen, fit_append]
  exact (and_iff_left (hr.fit nick)).trans (fit_single.trans hreq)

theorem usersFit_nil : UsersFit [] := ⟨namesFit_nil, by decide⟩

theorem fit_noNick {r : Wrote Conn} (hr : r.outs = noNick) :
    Fit nick r.outs ↔ UsersFit [] :=
  iff_of_true (hr ▸ (quiet_line _).fit nick) usersFit_nil

theorem fit_cAdd (refuses : Refusal) (c : Conn) (argv : List (List UInt8)) :
    Fit nick (cAdd refuses c argv).outs ↔ UsersFit argv := by
  cases argv with
  | nil => exact fit_noNick rfl
  | cons arg argv => exact fit_users Iff.rfl (quiet_each (quiet_addNick refuses) _ _)

theorem fit_cDel (c : Conn) (argv : List (List UInt8)) :
    Fit nick (cDel c argv).outs ↔ UsersFit argv := by
  cases argv with
  | nil => exact fit_noNick rfl
  | cons arg argv => exact fit_users Iff.rfl (quiet_each quiet_delNick _ _)

theorem fit_cIgnore (refuses : Refusal) (c : Conn) (argv : List (List UInt8)) :
    Fit nick (cIgnore refuses c argv).outs ↔ UsersFit argv := by
  cases argv with
  | nil => exact fit_noNick rfl
  | cons arg argv => exact fit_users Iff.rfl (quiet_each (quiet_ignoreNick refuses) _ _)

theorem fit_askInfo (arg : List UInt8) : Fit nick (Console.askInfo arg) ↔
    (if isRemChan arg then ircRoomDecode arg else arg).length ≤ 255 := by
  unfold Console.askInfo
  by_cases hrem : isRemChan arg
  · rw [if_pos hrem, if_pos hrem, fit_cons, fit_single]
    exact (and_iff_right trivial).trans (fits_one rfl rfl rfl)
  · rw [if_neg hrem, if_neg hrem, fit_cons, fit_single]
    exact (and_iff_right trivial).trans (fits_one rfl rfl rfl)

theorem fit_cUserinfo (st : State) (argv : List (List UInt8)) :
    Fit nick (Console.cUserinfo st argv).outs ↔
      ∀ arg ∈ argv, (if isRemChan arg then ircRoomDecode arg else arg).length ≤ 255 := by
  cases argv with
  | nil => exact iff_of_true ((quiet_line _).fit nick) fun _ h => absurd h List.not_mem_nil
  | cons arg argv => exact fit_flatMap fit_askInfo _

theorem fit_cNewroom (hnick : nick.length < 32) (st : State) (argv : List (List UInt8))
    (str : List UInt8) :
    Fit nick (Console.cNewroom st argv str).outs ↔ NewroomFits str argv := by
  have husage : Fit nick Console.newroomUsage := (quiet_line _).fit nick
  match argv with
  | [] => exact iff_of_true husage trivial
  | [_] => exact iff_of_true husage trivial
  | room :: kind :: rest =>
      unfold Console.cNewroom NewroomFits
      dsimp only
      cases hkind : Console.roomKind kind with
      | none => exact iff_of_true husage fun h => absurd rfl h
      | some pub =>
          refine Iff.trans ?_ (forall_prop_of_true (Option.some_ne_none pub)).symm
          cases rest with
          | nil =>
              refine fit_single.trans ((fits_createRoom hnick _ _ _).trans ?_)
              simp [topicOf]
          | cons word rest =>
              refine fit_textFrom.trans (forall₂_congr fun topic _ => ?_)
              exact fit_single.trans (fits_createRoom hnick _ _ _)

theorem fit_mail (hnick : nick.length < 32) (st : State) (to_ word str : List UInt8) :
    Fit nick (textFrom str word fun msg => say st [.emit (.sendOfmsg to_ (skipColon msg))]).outs ↔
      ∀ msg, strstr str word = some msg → TextFits 12 nick to_ (skipColon msg) :=
  fit_textFrom.trans (forall₂_congr fun _ _ => fit_single.trans (fits_text hnick rfl))

theorem fit_consoleMail (hnick : nick.length < 32) (st : State) (argv : List (List UInt8))
    (str : List UInt8) :
    Fit nick (Console.cMail st argv str).outs ↔ MailFits nick str argv := by
  match argv with
  | [] => exact iff_of_true ((quiet_line _).fit nick) trivial
  | [_] => exact iff_of_true ((quiet_line _).fit nick) trivial
  | to_ :: word :: _ => exact fit_mail hnick st to_ word str

theorem fit_consoleRun (hnick : nick.length < 32) (set : Setup) (st : State)
    (argv : List (List UInt8)) (str : List UInt8) (command : Console.Command) :
    Fit nick (Console.run set st argv str command).outs ↔ ConsoleFits nick str argv command := by
  cases command with
  | aiuto => exact (quiet_map (fun _ => line_ne _) _).fit_iff nick
  | agg => exact (outs_onConn st _).symm ▸ fit_cAdd set.refuses st.conn argv
  | canc => exact (outs_onConn st _).symm ▸ fit_cDel st.conn argv
  | lnAgg => exact (outs_onConn st _).symm ▸ fit_cIgnore set.refuses st.conn argv
  | lnCanc => exact (quiet_unignore st argv).fit_iff nick
  | profilo => exact fit_cUserinfo st argv
  | stato => exact (quiet_cStatus st argv).fit_iff nick
  | stile => exact (quiet_cStyle st argv).fit_iff nick
  | stanzaCod => exact (quiet_translate st _ argv str).fit_iff nick
  | stanzaDecod => exact (quiet_translate st _ argv str).fit_iff nick
  | creaStanza => exact fit_cNewroom hnick st argv str
  | mail => exact fit_consoleMail hnick st argv str
  | cerca => exact (quiet_cSearchnicks st).fit_iff nick

theorem fit_consoleInput (hnick : nick.length < 32) (set : Setup) (st : State) (word : List UInt8)
    (argv : List (List UInt8)) (str : List UInt8) :
    Fit nick (ircConsoleInput set st (word :: argv) str).outs ↔
      ∀ command, lookupWord Console.table (skipColon word) = some command →
        ConsoleFits nick str argv command := by
  unfold ircConsoleInput
  dsimp only
  cases lookupWord Console.table (skipColon word) with
  | none => exact iff_of_true ((quiet_line _).fit nick) fun _ h => nomatch h
  | some command =>
      refine (fit_consoleRun hnick set st argv str command).trans ?_
      simp only [Option.some.injEq, forall_eq']

theorem fit_cEmail (st : State) (argv : List (List UInt8)) :
    Fit nick (Searchusr.cEmail st argv).outs ↔ NamesFit argv := by
  cases argv with
  | nil => exact iff_of_true ((quiet_line _).fit nick) namesFit_nil
  | cons arg argv =>
      refine List.forall_mem_map.trans (forall₂_congr fun email _ => ?_)
      exact fits_one rfl rfl rfl

theorem fit_searchAdd (refuses : Refusal) (st : State) (argv : List (List UInt8)) :
    Fit nick (Searchusr.cAdd st refuses argv).outs ↔ UsersFit argv := by
  cases argv with
  | nil => exact iff_of_true ((quiet_line _).fit nick) usersFit_nil
  | cons arg argv => exact (outs_onConn st _).symm ▸ fit_cAdd refuses st.conn (arg :: argv)

theorem fit_searchusrRun (set : Setup) (st : State) (argv : List (List UInt8))
    (command : Searchusr.Command) :
    Fit nick (Searchusr.run set st argv command).outs ↔ SearchFits argv command := by
  cases command with
  | aiuto =>
      exact (quiet_append.mpr ⟨quiet_map (fun _ => line_ne _) _, quiet_line _⟩).fit_iff nick
  | lista => exact (quiet_searchList set.userinfo st argv).fit_iff nick
  | email => exact fit_cEmail st argv
  | mostra => exact (quiet_map (fun _ => line_ne _) _).fit_iff nick
  | rifai => exact (quiet_cons.mpr ⟨silent_ne _, quiet_nil⟩).fit_iff nick
  | cerca => exact iff_true_intro (fit_single.mpr (fits_searchNicks nick))
  | agg => exact fit_searchAdd set.refuses st argv

theorem fit_searchusrInput (set : Setup) (st : State) (word : List UInt8)
    (argv : List (List UInt8)) :
    Fit nick (ircSearchusrInput set st (word :: argv)).outs ↔
      ∀ command, lookupWord Searchusr.table (skipColon word) = some command →
        SearchFits argv command := by
  unfold ircSearchusrInput
  dsimp only
  cases lookupWord Searchusr.table (skipColon word) with
  | none =>
      exact iff_of_true ((quiet_cCheckword set.userinfo st _).fit nick) fun _ h => nomatch h
  | some command =>
      refine (fit_searchusrRun set st argv command).trans ?_
      simp only [Option.some.injEq, forall_eq']

end Local

/-! ## The commands of IRC -/

section Commands

variable {nick : List UInt8} {st : State} {str : List UInt8}

theorem addCommand_connected (hst : st.connectionCompleted = true) (rest : Wrote State) :
    Comandi.addCommand st str rest = rest := if_pos hst

theorem fit_joinOne (hnick : nick.length < 32) (p : List UInt8) :
    Fit nick (Comandi.joinOne p) ↔ RoomFits p := by
  unfold Comandi.joinOne RoomFits
  by_cases hrem : isRemChan p = true
  · rw [if_pos hrem, forall_prop_of_true hrem]
    exact fit_single.trans (fits_room hnick rfl rfl rfl)
  · rw [if_neg hrem]
    exact iff_of_true (fit_nil nick) fun h => absurd h hrem

/-- A local channel starts with another byte than a room. -/
theorem isLocChan_not_isRemChan {p : List UInt8} (h : isLocChan p = true) :
    isRemChan p = false := by
  cases p with
  | nil => rfl
  | cons b p =>
      simp only [isLocChan, List.head?_cons, Option.some.injEq, decide_eq_true_eq] at h
      subst h
      rfl

/-- A turn of the loop of `c_part` comes to its end and asks for the room, if it is one. -/
theorem partOne_ok (hnick : nick.length < 32) (st : State) (p : List UInt8) :
    ∃ r, Comandi.partOne st p = .ok r ∧ (Fit nick r.2 ↔ RoomFits p) := by
  unfold Comandi.partOne
  by_cases hloc : isLocChan p = true
  · have hrem : ¬isRemChan p = true := by simp [isLocChan_not_isRemChan hloc]
    have hquiet : ∀ {outs : List Out}, Quiet outs → (Fit nick outs ↔ RoomFits p) :=
      fun h => iff_of_true (h.fit nick) fun h => absurd h hrem
    rw [if_pos hloc]
    split
    · exact ⟨_, rfl, hquiet (quiet_ircJoinConsole st)⟩
    · split
      · split
        · exact ⟨_, rfl, hquiet (quiet_line _)⟩
        · exact ⟨_, rfl, hquiet (quiet_line _)⟩
      · exact ⟨_, rfl, hquiet quiet_nil⟩
  · rw [if_neg hloc]
    by_cases hrem : isRemChan p = true
    · rw [if_pos hrem, RoomFits, forall_prop_of_true hrem]
      exact ⟨_, rfl, fit_single.trans (fits_room hnick rfl rfl rfl)⟩
    · rw [if_neg hrem]
      exact ⟨_, rfl, iff_of_true (fit_nil nick) fun h => absurd h hrem⟩

theorem fit_cPart (hnick : nick.length < 32) (hst : st.connectionCompleted = true)
    (argv : List (List UInt8)) :
    Fit nick (Comandi.cPart st argv str).outs ↔ RoomsFit argv := by
  unfold Comandi.cPart
  rw [addCommand_connected hst]
  cases argv with
  | nil => exact iff_of_true ((quiet_line _).fit nick) trivial
  | cons arg argv => exact fit_each (partOne_ok hnick) st _

theorem fit_cJoin (hnick : nick.length < 32) (hst : st.connectionCompleted = true)
    (argv : List (List UInt8)) :
    Fit nick (Comandi.cJoin st argv str).outs ↔ RoomsFit argv := by
  unfold Comandi.cJoin
  rw [addCommand_connected hst]
  cases argv with
  | nil => exact iff_of_true ((quiet_line _).fit nick) trivial
  | cons arg argv => exact fit_flatMap (fit_joinOne hnick) _

theorem fit_cIson (hst : st.connectionCompleted = true) (set : Setup)
    (argv : List (List UInt8)) :
    Fit nick (Comandi.cIson set st argv str).outs ↔
      UsersFit (match argv with | [] => [] | arg :: rest => skipColon arg :: rest) := by
  unfold Comandi.cIson
  rw [addCommand_connected hst]
  cases argv with
  | nil => exact iff_of_true ((quiet_line _).fit nick) usersFit_nil
  | cons arg argv => exact (outs_onConn st _).symm ▸ fit_cAdd set.refuses st.conn _

theorem fit_cWhois (hst : st.connectionCompleted = true) (argv : List (List UInt8)) :
    Fit nick (Comandi.cWhois st argv str).outs ↔ NamesFit argv := by
  unfold Comandi.cWhois
  rw [addCommand_connected hst]
  cases argv with
  | nil => exact iff_of_true ((quiet_line _).fit nick) namesFit_nil
  | cons arg argv =>
      refine fit_flatMap (fun name => ?_) _
      rw [fit_cons, fit_single]
      exact (and_iff_right trivial).trans (fits_one rfl rfl rfl)

theorem fit_cMail (hnick : nick.length < 32) (hst : st.connectionCompleted = true)
    (argv : List (List UInt8)) :
    Fit nick (Comandi.cMail st argv str).outs ↔ MailFits nick str argv := by
  unfold Comandi.cMail
  rw [addCommand_connected hst]
  match argv with
  | [] => exact iff_of_true ((quiet_line _).fit nick) trivial
  | [_] => exact iff_of_true ((quiet_line _).fit nick) trivial
  | to_ :: word :: _ => exact fit_mail hnick st to_ word str

theorem fit_sendText (hnick : nick.length < 32) (to_ arg0 msg : List UInt8) :
    Fit nick [.emit (if isRemChan arg0 then .sendRoommsg (ircRoomDecode arg0) msg
      else .sendMsg to_ msg)] ↔
      if isRemChan arg0 then TextFits 12 nick (ircRoomDecode arg0) msg
      else TextFits 14 nick to_ msg := by
  by_cases hrem : isRemChan arg0 = true
  · rw [if_pos hrem, if_pos hrem]
    exact fit_single.trans (fits_text hnick rfl)
  · rw [if_neg hrem, if_neg hrem]
    exact fit_single.trans (fits_text hnick rfl)

theorem fit_local (hnick : nick.length < 32) (set : Setup) (chan word : List UInt8)
    (argv : List (List UInt8)) :
    Fit nick (Wrote.outs (if chan = console then ircConsoleInput set st (word :: argv) str
      else if chan = searchUsr then ircSearchusrInput set st (word :: argv)
      else say st [])) ↔ LocalFits nick str chan word argv := by
  have hne : console ≠ searchUsr := by decide
  unfold LocalFits
  by_cases hconsole : chan = console
  · rw [if_pos hconsole, fit_consoleInput hnick, forall_prop_of_true hconsole]
    exact (and_iff_left fun h => absurd (hconsole.symm.trans h) hne).symm
  · rw [if_neg hconsole]
    have hleft : ∀ {P : Prop}, chan = console → P := fun h => absurd h hconsole
    refine Iff.trans ?_ (and_iff_right hleft).symm
    by_cases hsearch : chan = searchUsr
    · rw [if_pos hsearch, fit_searchusrInput, forall_prop_of_true hsearch]
    · rw [if_neg hsearch]
      exact iff_of_true (fit_nil nick) fun h => absurd h hsearch

theorem fit_cPrivmsg (hnick : nick.length < 32) (hst : st.connectionCompleted = true)
    (set : Setup) (argv : List (List UInt8)) :
    Fit nick (Comandi.cPrivmsg set st argv str).outs ↔ PrivmsgFits nick str argv := by
  unfold Comandi.cPrivmsg
  rw [addCommand_connected hst]
  match argv with
  | [] => exact iff_of_true ((quiet_line _).fit nick) trivial
  | [_] => exact iff_of_true ((quiet_line _).fit nick) trivial
  | to_ :: word :: rest =>
      unfold PrivmsgFits
      dsimp only
      by_cases hloc : isLocChan (skipColon to_) = true
      · rw [if_pos hloc, if_pos hloc]
        exact fit_local hnick set _ word rest
      · rw [if_neg hloc, if_neg hloc]
        exact fit_textFrom.trans (forall₂_congr fun msg _ => fit_sendText hnick to_ _ _)

theorem fit_run (hnick : nick.length < 32) (hst : st.connectionCompleted = true) (set : Setup)
    (argv : List (List UInt8)) (command : Comandi.Command) :
    Fit nick (Comandi.run set st argv str command).outs ↔ CommandFits nick str argv command := by
  cases command with
  | pass => exact (quiet_cPass st argv).fit_iff nick
  | nick => exact (quiet_cNick st argv).fit_iff nick
  | user => exact (quiet_cUser st argv).fit_iff nick
  | ping => exact (quiet_cPing st argv).fit_iff nick
  | mode => exact (quiet_cMode set st argv str).fit_iff nick
  | quit => exact (quiet_line _).fit_iff nick
  | squit => exact (quiet_cSquit st set.canSquit).fit_iff nick
  | privmsg => exact fit_cPrivmsg hnick hst set argv
  | ison => exact fit_cIson hst set argv
  | join => exact fit_cJoin hnick hst argv
  | part => exact fit_cPart hnick hst argv
  | who => exact (quiet_cWho st argv str).fit_iff nick
  | away => exact (quiet_cAway set st argv str).fit_iff nick
  | whois => exact fit_cWhois hst argv
  | mail => exact fit_cMail hnick hst argv
  | list => exact iff_true_intro (fit_single.mpr (fits_reqRoomlist hnick))

theorem fit_ircProcessInput (hnick : nick.length < 32) (hst : st.connectionCompleted = true)
    (set : Setup) (str : List UInt8) :
    Fit nick (ircProcessInput set st str).outs ↔ LineFits nick str := by
  unfold ircProcessInput LineFits
  cases argsSep str with
  | nil => exact iff_true_intro (fit_nil nick)
  | cons cmd argv =>
      dsimp only
      cases lookupWord Comandi.table cmd with
      | none => exact iff_of_true ((quiet_line _).fit nick) fun _ h => nomatch h
      | some command =>
          refine (fit_run hnick hst set argv command).trans ?_
          simp only [Option.some.injEq, forall_eq']

end Commands

/-- The packets of a line are all formed right if and only if its words are not too long for
its command. -/
theorem packets_formed_iff (host : Endian) (set : Setup) (st : State)
    (hst : st.connectionCompleted = true) (elms : Nat) (c : C6.Client) (str : List UInt8) :
    AllFormed host set.userinfo
        { nick := st.nick.text, status := st.status, userinfoElms := elms } c
        (ircProcessInput set st str).outs ↔
      LineFits st.nick.text str := by
  rw [allFormed_iff]
  exact fit_ircProcessInput st.nick.fits hst set str

/-- A user who has been welcomed, with nobody on the console and no room. -/
def welcomed : State :=
  { nick := strlcpy (ascii "io"), user := strlcpy (ascii "io"), pass := strlcpy (ascii "x"),
    chans := ∅, nicks := ∅, status := statusOnline ||| statusAvailable,
    connFlags := flagPass ||| flagNick ||| flagUser ||| flagReady, isOnSearchusr := false,
    skipColors := false, away := none, cmdList := [], ip := ascii "127.0.0.1" }

def noSetup : Setup :=
  { refuses := clashes, consoleWords := [], searchWords := [], canSquit := false, srvTime := 0,
    userinfo := { fields := [], values := fun _ => [], current := [], getid := fun _ => none,
                  getval := fun _ _ => none } }

theorem packets_formed_iff_ison :
    AllFormed .little noSetup.userinfo
      { nick := welcomed.nick.text, status := welcomed.status, userinfoElms := 0 }
      C6.connectionNew (ircProcessInput noSetup welcomed (ascii "ISON anna bob")).outs :=
  (packets_formed_iff .little noSetup welcomed rfl 0 C6.connectionNew (ascii "ISON anna bob")).mpr
    (by decide)

/-- A name of 256 bytes, whose length is told as 0. -/
def longWhois : List UInt8 := ascii "WHOIS " ++ List.replicate 256 97

theorem whois_not_formed :
    longWhois.length ≤ 65535 ∧ welcomed.connectionCompleted = true ∧
      ¬AllFormed .little noSetup.userinfo
        { nick := welcomed.nick.text, status := welcomed.status, userinfoElms := 0 }
        C6.connectionNew (ircProcessInput noSetup welcomed longWhois).outs := by
  have hst : welcomed.connectionCompleted = true := rfl
  refine ⟨by decide +kernel, hst, ?_⟩
  rw [allFormed_iff, fit_ircProcessInput welcomed.nick.fits hst]
  decide +kernel

end Irc
end IrC6
