import IrC6.Irc.Spares
import IrC6.Irc.Tokens

/-!
# The text that is handed on

Eight handlers take a text with blanks in it from the line.  They are given the word that it
starts with and look for it with `strstr`, from the start of the line.  They find the text
of the user when the word is nowhere before its own place, and only then.
-/

namespace IrC6
namespace Irc

/-! ## Where a word is found -/

/-- `text` starts nowhere in `str` before the rest of it. -/
def FirstAt (str text rest : List UInt8) : Prop :=
  ∀ i, i + rest.length < str.length → ¬text <+: str.drop i

theorem strstr_eq_own {str text rest : List UInt8} (hrest : rest <:+ str) (htext : text <+: rest) :
    strstr str text = some rest ↔ FirstAt str text rest := by
  have hlen := hrest.length_le
  have hdrop : str.drop (str.length - rest.length) = rest :=
    (List.suffix_iff_eq_drop.mp hrest).symm
  rw [strstr_eq_some]
  constructor
  · rintro ⟨i, hi, hfound, -, hbefore⟩ j hj
    have hplace := congrArg List.length hfound
    rw [List.length_drop] at hplace
    exact hbefore j (by omega)
  · intro hfirst
    refine ⟨str.length - rest.length, Nat.sub_le _ _, hdrop.symm, ?_, fun j hj => hfirst j ?_⟩
    · rw [hdrop]
      exact htext
    · omega

/-- Two rests that start alike are the same when they are so without their colons. -/
theorem skipColon_eq {text rest found : List UInt8} (htext : text ≠ [])
    (hrest : text <+: rest) (hfound : text <+: found) :
    skipColon found = skipColon rest → found.length = rest.length := by
  rcases hrest with ⟨tail, rfl⟩
  rcases hfound with ⟨tail', rfl⟩
  cases text with
  | nil => exact absurd rfl htext
  | cons b text =>
      have hskip : ∀ t, (skipColon (b :: t)).length = t.length + if b = 58 then 0 else 1 := by
        intro t
        by_cases hb : b = 58
        · rw [if_pos hb, hb]
          rfl
        · rw [if_neg hb]
          unfold skipColon
          split
          · rename_i heq
            injection heq with heq _
            exact absurd heq hb
          · rfl
      intro h
      have hlength := congrArg List.length h
      simp only [List.cons_append, hskip] at hlength
      simp only [List.cons_append, List.length_cons]
      omega

/-! ## The handlers -/

/-- The handlers that hand a text on. -/
inductive Forward where
  | privmsg
  | mail
  | away
  | mode
  | consoleMail
  | creaStanza
  | stanzaCod
  | stanzaDecod
deriving DecidableEq, Repr

namespace Forward

/-- Which word of the line the text starts with. -/
def place : Forward → Nat
  | .away => 1
  | .privmsg | .mail => 2
  | .mode | .stanzaCod | .stanzaDecod => 3
  | .consoleMail => 4
  | .creaStanza => 5

/-- The colon of the word is taken away before it is looked for. -/
def colonBefore : Forward → Bool
  | .away | .mode => true
  | _ => false

/-- The colon of the text is taken away after it has been found. -/
def colonAfter : Forward → Bool
  | .privmsg | .mail | .consoleMail => true
  | _ => false

/-- What a handler looks for, of a word or of the rest of the line from it on. -/
def sought (f : Forward) (text : List UInt8) : List UInt8 :=
  if f.colonBefore then skipColon text else text

/-- The text that a handler gets. -/
def extracted (f : Forward) (str : List UInt8) : Option (List UInt8) :=
  (argsSep str)[f.place]?.bind fun arg =>
    (strstr str (f.sought arg)).map fun found => if f.colonAfter then skipColon found else found

/-- The text of the user: the rest of the line from the place of the word on, without its
colon where the handler takes one away. -/
def own (f : Forward) (str : List UInt8) : Option (List UInt8) :=
  (wordsFrom false str)[f.place]?.map fun rest =>
    if f.colonBefore || f.colonAfter then skipColon rest else rest

/-- What is looked for is nowhere in the line before its own place. -/
def Alone (f : Forward) (str : List UInt8) : Prop :=
  ∀ rest ∈ (wordsFrom false str)[f.place]?, FirstAt str (f.sought (word rest)) (f.sought rest)

/-- A word of the line, or nothing. -/
def arg (str : List UInt8) (i : Nat) : List UInt8 := ((argsSep str)[i]?).getD []

/-- A line for the console. -/
def OnConsole (command : Console.Command) (str : List UInt8) : Prop :=
  (∃ argv, lineCommand str = some (.privmsg, argv)) ∧ skipColon (arg str 1) = console ∧
    lookupWord Console.table (skipColon (arg str 2)) = some command

/-- A line that comes to a handler. -/
def Calls (f : Forward) (st : State) (str : List UInt8) : Prop :=
  match f with
  | .privmsg => (∃ argv, lineCommand str = some (.privmsg, argv)) ∧
      isLocChan (skipColon (arg str 1)) = false
  | .mail => ∃ argv, lineCommand str = some (.mail, argv)
  | .away => ∃ argv, lineCommand str = some (.away, argv)
  | .mode => (∃ argv, lineCommand str = some (.mode, argv)) ∧ st.nick.text = arg str 1
  | .consoleMail => OnConsole .mail str
  | .creaStanza => OnConsole .creaStanza str ∧ Console.roomKind (arg str 4) ≠ none
  | .stanzaCod => OnConsole .stanzaCod str
  | .stanzaDecod => OnConsole .stanzaDecod str

/-- `nick_mode` with the text of its message. -/
def nickModeText (text : List UInt8) : List UInt8 → Bool → State → Wrote State
  | [], _, st => say st []
  | m :: letters, plus, st =>
      if m = 43 then nickModeText text letters true st
      else if m = 45 then nickModeText text letters false st
      else
        Wrote.andThen
          (if m = 97 then ircStatusBusy st plus (if plus then some text else none)
          else if m = 110 then ircStatusOnlyfriends st plus
          else if m = 105 then ircStatusVisibleip st plus
          else if m = 107 then say { st with skipColors := plus } []
          else say st [reply .unkMode [serv, st.nick.text, [m]]])
          (nickModeText text letters plus)

/-- What a handler does with its text. -/
def effect (f : Forward) (st : State) (str text : List UInt8) : Wrote State :=
  match f with
  | .privmsg =>
      let arg0 := skipColon (arg str 1)
      say st [.emit (if isRemChan arg0 then .sendRoommsg (ircRoomDecode arg0) text
        else .sendMsg (arg str 1) text)]
  | .mail => say st [.emit (.sendOfmsg (arg str 1) text)]
  | .away => (nickModeText text (ascii "+a") true st).andThen fun st =>
      say st [reply .nowAway [serv, st.nick.text]]
  | .mode => nickModeText text (arg str 2) true st
  | .consoleMail => say st [.emit (.sendOfmsg (arg str 3) text)]
  | .creaStanza => say st [.emit (.createRoom (ircRoomDecode (arg str 3))
      ((Console.roomKind (arg str 4)).getD false) text)]
  | .stanzaCod => say st [ircConsole (text ++ ascii " ---> " ++ ircRoomEncode text)]
  | .stanzaDecod => say st [ircConsole (text ++ ascii " ---> " ++ ircRoomDecode text)]

/-! ## What they do -/

section Effects

variable {st : State} {str : List UInt8} {text : List UInt8}

theorem nickMode_eq {a : List UInt8} (h : strstr str (skipColon a) = some text)
    (letters : List UInt8) (plus : Bool) (st : State) :
    Comandi.nickMode (some a) str letters plus st = nickModeText text letters plus st := by
  induction letters generalizing plus st with
  | nil => rfl
  | cons m letters ih =>
      have hrest : Comandi.nickMode (some a) str letters plus = nickModeText text letters plus :=
        funext fun s => ih plus s
      unfold Comandi.nickMode nickModeText
      rw [ih true st, ih false st, hrest]
      cases plus
      · rfl
      · simp only [if_true, textFrom, h]

/-- The text of a handler that looks for a word. -/
theorem textFrom_eq {a : List UInt8} (h : strstr str a = some text) (f : List UInt8 → Wrote State) :
    textFrom str a f = f text := by
  simp only [textFrom, h]

theorem effect_privmsg (hst : st.connectionCompleted = true) (set : Setup)
    {to_ word : List UInt8} {rest : List (List UInt8)}
    (hcommand : lineCommand str = some (.privmsg, to_ :: word :: rest))
    (hloc : isLocChan (skipColon to_) = false) (hfound : strstr str word = some text) :
    ircProcessInput set st str = effect .privmsg st str (skipColon text) := by
  rcases argsSep_of_lineCommand hcommand with ⟨cmd, hargs⟩
  have hto : arg str 1 = to_ := by simp [arg, hargs]
  rw [ircProcessInput_command hcommand, Comandi.run, Comandi.cPrivmsg, addCommand_connected hst]
  dsimp only
  rw [if_neg (by simp [hloc]), textFrom_eq hfound, effect, hto]

theorem effect_mail (hst : st.connectionCompleted = true) (set : Setup)
    {to_ word : List UInt8} {rest : List (List UInt8)}
    (hcommand : lineCommand str = some (.mail, to_ :: word :: rest))
    (hfound : strstr str word = some text) :
    ircProcessInput set st str = effect .mail st str (skipColon text) := by
  rcases argsSep_of_lineCommand hcommand with ⟨cmd, hargs⟩
  have hto : arg str 1 = to_ := by simp [arg, hargs]
  rw [ircProcessInput_command hcommand, Comandi.run, Comandi.cMail, addCommand_connected hst]
  rw [textFrom_eq hfound, effect, hto]

theorem effect_mode (hst : st.connectionCompleted = true) (set : Setup)
    {who mode a : List UInt8} {rest : List (List UInt8)}
    (hcommand : lineCommand str = some (.mode, who :: mode :: a :: rest))
    (hwho : st.nick.text = who) (hfound : strstr str (skipColon a) = some text) :
    ircProcessInput set st str = effect .mode st str text := by
  rcases argsSep_of_lineCommand hcommand with ⟨cmd, hargs⟩
  have hmode : arg str 2 = mode := by simp [arg, hargs]
  rw [ircProcessInput_command hcommand, Comandi.run, Comandi.cMode, addCommand_connected hst]
  rw [if_pos hwho, List.head?_cons, nickMode_eq hfound, effect, hmode]

theorem effect_away (hst : st.connectionCompleted = true) (set : Setup)
    {a : List UInt8} {rest : List (List UInt8)}
    (hcommand : lineCommand str = some (.away, a :: rest))
    (hfound : strstr str (skipColon a) = some text) :
    ircProcessInput set st str = effect .away st str text := by
  rw [ircProcessInput_command hcommand, Comandi.run, Comandi.cAway, addCommand_connected hst]
  rw [Comandi.cMode, addCommand_connected hst]
  rw [if_pos rfl, List.head?_cons, nickMode_eq hfound, effect]

/-- A line for the console runs its command. -/
theorem onConsole_eq (hst : st.connectionCompleted = true) (set : Setup)
    {command : Console.Command} (h : OnConsole command str) {to_ word : List UInt8}
    {rest : List (List UInt8)} {cmd : List UInt8}
    (hargs : argsSep str = cmd :: to_ :: word :: rest) :
    ircProcessInput set st str = Console.run set st rest str command := by
  rcases h with ⟨⟨argv, hcommand⟩, hto, hword⟩
  rcases argsSep_of_lineCommand hcommand with ⟨cmd', hargs'⟩
  have hto : skipColon to_ = console := by simpa [arg, hargs] using hto
  have hword : lookupWord Console.table (skipColon word) = some command := by
    simpa [arg, hargs] using hword
  injection hargs'.symm.trans hargs with _ hargv
  subst hargv
  have hloc : isLocChan console = true := rfl
  rw [ircProcessInput_command hcommand, Comandi.run, Comandi.cPrivmsg, addCommand_connected hst]
  dsimp only
  rw [hto, if_pos hloc, if_pos rfl, ircConsoleInput]
  rw [hword]

/-- The words in front of a word of a line. -/
theorem words_cons {words : List (List UInt8)} {k : Nat} {a : List UInt8}
    (h : words[k + 1]? = some a) : ∃ w ws, words = w :: ws ∧ ws[k]? = some a := by
  cases words with
  | nil => simp at h
  | cons w ws => exact ⟨w, ws, rfl, h⟩

theorem words_first {words : List (List UInt8)} {a : List UInt8} (h : words[0]? = some a) :
    ∃ ws, words = a :: ws := by
  cases words with
  | nil => simp at h
  | cons w ws => exact ⟨ws, congrArg (· :: ws) (Option.some.inj h)⟩

/-- The words that a command gets. -/
theorem words_command {command : Comandi.Command} {argv : List (List UInt8)} {k : Nat}
    {a : List UInt8} (hcommand : lineCommand str = some (command, argv))
    (harg : (argsSep str)[k + 1]? = some a) : argv[k]? = some a := by
  rcases argsSep_of_lineCommand hcommand with ⟨cmd, hargs⟩
  rwa [hargs] at harg

/-- The words that a command of the console gets. -/
theorem words_console {k : Nat} {a : List UInt8} (harg : (argsSep str)[k + 3]? = some a) :
    ∃ cmd to_ word rest, argsSep str = cmd :: to_ :: word :: rest ∧ rest[k]? = some a := by
  rcases words_cons harg with ⟨cmd, _, hargs, hcmd⟩
  rcases words_cons hcmd with ⟨to_, _, rfl, hto⟩
  rcases words_cons hto with ⟨word, rest, rfl, hword⟩
  exact ⟨cmd, to_, word, rest, hargs, hword⟩

theorem effect_consoleMail (hst : st.connectionCompleted = true) (set : Setup)
    (h : OnConsole .mail str) {a : List UInt8} (harg : (argsSep str)[4]? = some a)
    (hfound : strstr str a = some text) :
    ircProcessInput set st str = effect .consoleMail st str (skipColon text) := by
  rcases words_console harg with ⟨cmd, to_, word, _, hargs, hword⟩
  rcases words_cons hword with ⟨nick, _, rfl, hnick⟩
  rcases words_first hnick with ⟨rest, rfl⟩
  have hnick : arg str 3 = nick := by simp [arg, hargs]
  rw [onConsole_eq hst set h hargs, Console.run, Console.cMail]
  rw [textFrom_eq hfound, effect, hnick]

theorem effect_creaStanza (hst : st.connectionCompleted = true) (set : Setup)
    (h : OnConsole .creaStanza str) (hkind : Console.roomKind (arg str 4) ≠ none)
    {a : List UInt8} (harg : (argsSep str)[5]? = some a) (hfound : strstr str a = some text) :
    ircProcessInput set st str = effect .creaStanza st str text := by
  rcases words_console harg with ⟨cmd, to_, word, _, hargs, hword⟩
  rcases words_cons hword with ⟨room, _, rfl, hroom⟩
  rcases words_cons hroom with ⟨kind, _, rfl, hlast⟩
  rcases words_first hlast with ⟨rest, rfl⟩
  have hroom : arg str 3 = room := by simp [arg, hargs]
  have hkinds : arg str 4 = kind := by simp [arg, hargs]
  rw [hkinds] at hkind
  rcases Option.ne_none_iff_exists'.mp hkind with ⟨pub, hpub⟩
  rw [onConsole_eq hst set h hargs, Console.run, Console.cNewroom]
  simp only [hpub]
  rw [textFrom_eq hfound, effect, hroom, hkinds, hpub]
  rfl

/-- A line that comes to a handler with enough words makes it do its work with what it
finds. -/
theorem effect_eq (hst : st.connectionCompleted = true) (set : Setup) {f : Forward}
    (h : f.Calls st str) {a found : List UInt8} (harg : (argsSep str)[f.place]? = some a)
    (hfound : strstr str (f.sought a) = some found) :
    ircProcessInput set st str =
      f.effect st str (if f.colonAfter then skipColon found else found) := by
  cases f with
  | privmsg =>
      rcases h with ⟨⟨argv, hcommand⟩, hloc⟩
      rcases argsSep_of_lineCommand hcommand with ⟨cmd, hargs⟩
      rcases words_cons (words_command hcommand harg) with ⟨to_, _, rfl, hto⟩
      rcases words_first hto with ⟨rest, rfl⟩
      exact effect_privmsg hst set hcommand (by simpa [arg, hargs] using hloc) hfound
  | mail =>
      rcases h with ⟨argv, hcommand⟩
      rcases words_cons (words_command hcommand harg) with ⟨to_, _, rfl, hto⟩
      rcases words_first hto with ⟨rest, rfl⟩
      exact effect_mail hst set hcommand hfound
  | away =>
      rcases h with ⟨argv, hcommand⟩
      rcases words_first (words_command hcommand harg) with ⟨rest, rfl⟩
      exact effect_away hst set hcommand hfound
  | mode =>
      rcases h with ⟨⟨argv, hcommand⟩, hwho⟩
      rcases argsSep_of_lineCommand hcommand with ⟨cmd, hargs⟩
      rcases words_cons (words_command hcommand harg) with ⟨who, _, rfl, hwords⟩
      rcases words_cons hwords with ⟨mode, _, rfl, hmode⟩
      rcases words_first hmode with ⟨rest, rfl⟩
      exact effect_mode hst set hcommand (by simpa [arg, hargs] using hwho) hfound
  | consoleMail => exact effect_consoleMail hst set h harg hfound
  | creaStanza => exact effect_creaStanza hst set h.1 h.2 harg hfound
  | stanzaCod | stanzaDecod =>
      rcases words_console harg with ⟨cmd, to_, word, _, hargs, hword⟩
      rcases words_first hword with ⟨rest, rfl⟩
      rw [onConsole_eq hst set h hargs]
      exact textFrom_eq hfound _

end Effects

/-! ## Whose text it is -/

section Own

variable {f : Forward} {str : List UInt8}

theorem sought_word (f : Forward) (rest : List UInt8) :
    f.sought rest <:+ rest ∧ f.sought (word rest) <+: f.sought rest := by
  unfold sought
  by_cases h : f.colonBefore = true
  · rw [if_pos h, if_pos h]
    exact skipColon_word rest
  · rw [if_neg h, if_neg h]
    exact ⟨List.suffix_rfl, word_start rest⟩

/-- The text that is found is the user's own when it is not found before. -/
theorem own_eq_iff {rest found : List UInt8} (hplace : (wordsFrom false str)[f.place]? = some rest)
    (hfound : strstr str (f.sought (word rest)) = some found) :
    f.own str = some (if f.colonAfter then skipColon found else found) ↔
      FirstAt str (f.sought (word rest)) (f.sought rest) := by
  have hmem : rest ∈ wordsFrom false str := List.mem_of_getElem? hplace
  have hsuffix := suffix_of_mem_wordsFrom hmem
  rcases sought_word f rest with ⟨hskip, hprefix⟩
  rw [← strstr_eq_own (hskip.trans hsuffix) hprefix, hfound, own, hplace]
  simp only [Option.map_some, Option.some.injEq]
  by_cases hbefore : f.colonBefore = true
  · have hafter : f.colonAfter = false := by
      cases f <;> first | rfl | exact absurd hbefore nofun
    have hsought : f.sought rest = skipColon rest := if_pos hbefore
    simp only [hbefore, hafter, Bool.or_false, if_true, Bool.false_eq_true, if_false, hsought]
    exact eq_comm
  · have hsought : ∀ text, f.sought text = text := fun text => if_neg hbefore
    rw [hsought] at hfound ⊢
    simp only [hbefore, Bool.false_or]
    by_cases hafter : f.colonAfter = true
    · rw [if_pos hafter, if_pos hafter]
      constructor
      · intro h
        rcases strstr_eq_some.mp hfound with ⟨i, hi, rfl, hstart, -⟩
        have hlength := skipColon_eq (word_ne_nil hmem) (word_start rest) hstart h.symm
        rw [List.suffix_iff_eq_drop.mp hsuffix, ← hlength, List.length_drop]
        congr 1
        omega
      · rintro rfl
        rfl
    · rw [if_neg hafter, if_neg hafter]
      exact eq_comm

end Own

/-- A handler gets the user's own text if and only if the word that it looks for is nowhere
in the line before its place. -/
theorem forwarded_iff (set : Setup) (st : State) (hst : st.connectionCompleted = true)
    (f : Forward) (str : List UInt8) (h : f.Calls st str)
    (hargs : f.place < (argsSep str).length) :
    ∃ text, f.extracted str = some text ∧ ircProcessInput set st str = f.effect st str text ∧
      (f.own str = some text ↔ f.Alone str) := by
  have hplace := hargs
  rw [length_argsSep] at hplace
  have hrest : (wordsFrom false str)[f.place]? = some (wordsFrom false str)[f.place] :=
    List.getElem?_eq_getElem hplace
  generalize (wordsFrom false str)[f.place] = rest at hrest
  have harg : (argsSep str)[f.place]? = some (word rest) := by
    rw [argsSep_eq, List.getElem?_map, hrest]
    rfl
  have hsuffix := suffix_of_mem_wordsFrom (List.mem_of_getElem? hrest)
  rcases sought_word f rest with ⟨hskip, hprefix⟩
  rcases exists_strstr (hskip.trans hsuffix) hprefix with ⟨found, hfound, -⟩
  refine ⟨if f.colonAfter then skipColon found else found, ?_, effect_eq hst set h harg hfound, ?_⟩
  · rw [extracted, harg, Option.bind_some, hfound]
    rfl
  · rw [own_eq_iff hrest hfound, Alone, hrest]
    simp only [Option.mem_def, Option.some.injEq, forall_eq']

theorem forwarded_iff_mode :
    ∃ text, mode.extracted (ascii "MODE io +a :via da qui") = some text ∧
      ircProcessInput noSetup welcomed (ascii "MODE io +a :via da qui") =
        mode.effect welcomed (ascii "MODE io +a :via da qui") text ∧
      (mode.own (ascii "MODE io +a :via da qui") = some text ↔
        mode.Alone (ascii "MODE io +a :via da qui")) := by
  have hcalls : mode.Calls welcomed (ascii "MODE io +a :via da qui") := ⟨⟨_, rfl⟩, rfl⟩
  exact forwarded_iff noSetup welcomed rfl mode _ hcalls (by decide)

/-- The word `b` is also in the nick that it is for. -/
theorem privmsg_not_own :
    privmsg.Calls welcomed (ascii "PRIVMSG bob b") ∧
      privmsg.place < (argsSep (ascii "PRIVMSG bob b")).length ∧
      ircProcessInput noSetup welcomed (ascii "PRIVMSG bob b") =
        .ok (welcomed, [.emit (.sendMsg (ascii "bob") (ascii "bob b"))]) ∧
      privmsg.own (ascii "PRIVMSG bob b") = some (ascii "b") ∧ ascii "bob b" ≠ ascii "b" := by
  have hcommand : lineCommand (ascii "PRIVMSG bob b") =
      some (.privmsg, [ascii "bob", ascii "b"]) := rfl
  have hfound : strstr (ascii "PRIVMSG bob b") (ascii "b") = some (ascii "bob b") :=
    strstr_eq_some.mpr ⟨8, by decide, by decide, by decide, by decide⟩
  have hto : arg (ascii "PRIVMSG bob b") 1 = ascii "bob" := by decide
  have htext : skipColon (ascii "bob b") = ascii "bob b" := by decide
  refine ⟨⟨⟨_, hcommand⟩, rfl⟩, by decide, ?_, rfl, by decide⟩
  rw [effect_privmsg rfl noSetup hcommand (by decide) hfound, effect, hto, htext]
  rfl

end Forward

end Irc
end IrC6
