import IrC6.Irc.Comandi

/-!
# What sends nothing

Most handlers write lines and ask the server for nothing.  `Quiet` says so of what they do,
and the rules follow the way in which handlers are put together.
-/

namespace IrC6
namespace Irc

variable {σ τ : Type}

/-- No output is a request, apart from the status. -/
def Quiet (outs : List Out) : Prop := ∀ o ∈ outs, ∀ req, o ≠ .emit req

theorem quiet_append {outs outs' : List Out} :
    Quiet (outs ++ outs') ↔ Quiet outs ∧ Quiet outs' :=
  List.forall_mem_append

theorem quiet_cons {o : Out} {outs : List Out} :
    Quiet (o :: outs) ↔ (∀ req, o ≠ .emit req) ∧ Quiet outs :=
  List.forall_mem_cons

theorem quiet_nil : Quiet [] := fun _ h => absurd h List.not_mem_nil

theorem line_ne (l : Line) (req : C6.Request) : Out.line l ≠ .emit req := nofun

theorem silent_ne (e : Silent) (req : C6.Request) : Out.silent e ≠ .emit req := nofun

theorem sendStatus_ne (status : UInt8) (req : C6.Request) : Out.sendStatus status ≠ .emit req :=
  nofun

theorem quiet_lines {outs : List Out} (h : ∀ o ∈ outs, ∃ l, o = .line l) : Quiet outs := by
  intro o ho
  rcases h o ho with ⟨l, rfl⟩
  exact line_ne l

theorem quiet_line (l : Line) : Quiet [.line l] := quiet_lines (by simp)

theorem quiet_ite {p : Prop} [Decidable p] {outs outs' : List Out} (h : Quiet outs)
    (h' : Quiet outs') : Quiet (if p then outs else outs') := by
  by_cases hp : p
  · rwa [if_pos hp]
  · rwa [if_neg hp]

theorem quiet_map {β : Type} {f : β → Out} (hf : ∀ b req, f b ≠ .emit req) (bs : List β) :
    Quiet (bs.map f) := by
  intro o ho
  rcases List.mem_map.mp ho with ⟨b, -, rfl⟩
  exact hf b

theorem quiet_flatMap {β : Type} {f : β → List Out} (hf : ∀ b, Quiet (f b)) (bs : List β) :
    Quiet (bs.flatMap f) :=
  List.forall_mem_flatMap.mpr fun b _ => hf b

theorem outs_andThen (r : Wrote σ) (f : σ → Wrote τ) :
    (r.andThen f).outs = r.outs ++ (match r with
      | .ok s => (f s.1).outs
      | .error _ => []) := by
  cases r with
  | error e => exact (List.append_nil _).symm
  | ok s =>
      rcases s with ⟨s, outs⟩
      simp only [Wrote.andThen]
      cases f s with
      | ok t => rfl
      | error e => rfl

theorem quiet_andThen {r : Wrote σ} {f : σ → Wrote τ} (hr : Quiet r.outs)
    (hf : ∀ s, Quiet (f s).outs) : Quiet (r.andThen f).outs := by
  rw [outs_andThen, quiet_append]
  refine ⟨hr, ?_⟩
  cases r with
  | error e => exact quiet_nil
  | ok s => exact hf s.1

theorem quiet_each {β : Type} {turn : σ → β → Wrote σ} (hturn : ∀ s b, Quiet (turn s b).outs)
    (s : σ) (bs : List β) : Quiet (each turn s bs).outs := by
  induction bs generalizing s with
  | nil => exact quiet_nil
  | cons b bs ih => exact quiet_andThen (hturn s b) ih

theorem quiet_textFrom {str word : List UInt8} {f : List UInt8 → Wrote σ}
    (hf : ∀ text, Quiet (f text).outs) : Quiet (textFrom str word f).outs := by
  unfold textFrom
  cases strstr str word with
  | none => exact quiet_nil
  | some text => exact hf text

/-! ## The console -/

theorem outs_onConn (st : State) (r : Wrote Conn) : (st.onConn r).outs = r.outs := by
  cases r <;> rfl

theorem quiet_addNick (refuses : Refusal) (c : Conn) (nick : List UInt8) :
    Quiet (addNick refuses c nick).outs :=
  quiet_ite (quiet_lines (by simp [chanMode])) (quiet_ite (quiet_line _) (quiet_line _))

theorem quiet_delNick (c : Conn) (nick : List UInt8) : Quiet (delNick c nick).outs :=
  quiet_ite (quiet_line _) (quiet_line _)

theorem quiet_ignoreNick (refuses : Refusal) (c : Conn) (nick : List UInt8) :
    Quiet (ignoreNick refuses c nick).outs := by
  unfold ignoreNick
  dsimp only
  split
  · exact quiet_ite (quiet_line _) (quiet_ite quiet_nil (quiet_line _))
  · refine quiet_append.mpr
      ⟨quiet_ite (quiet_line _) (quiet_ite quiet_nil (quiet_line _)), quiet_ite quiet_nil ?_⟩
    exact quiet_append.mpr ⟨quiet_append.mpr ⟨quiet_ite (quiet_line _) quiet_nil,
      quiet_ite (quiet_line _) quiet_nil⟩, quiet_line _⟩

theorem quiet_unignoreNick (u : Unignore) (nick : List UInt8) :
    Quiet (unignoreNick u nick).outs := by
  unfold unignoreNick
  dsimp only
  split
  · exact quiet_ite quiet_nil (quiet_line _)
  · refine quiet_append.mpr ⟨quiet_ite quiet_nil (quiet_line _), quiet_ite ?_ quiet_nil⟩
    exact quiet_append.mpr ⟨quiet_append.mpr ⟨quiet_line _, quiet_ite (quiet_line _) quiet_nil⟩,
      quiet_ite (quiet_line _) quiet_nil⟩

theorem quiet_cUnignore (c : Conn) (argv : List (List UInt8)) :
    Quiet (cUnignore c argv).outs := by
  cases argv with
  | nil => exact quiet_line _
  | cons arg argv => exact quiet_each quiet_unignoreNick _ _

theorem quiet_unignore (st : State) (argv : List (List UInt8)) :
    Quiet (Console.unignore st argv).outs := by
  have h := quiet_cUnignore st.conn argv
  rw [Console.unignore, outs_onConn]
  cases hrun : cUnignore st.conn argv <;> rwa [hrun] at h

theorem quiet_cStyle (st : State) (argv : List (List UInt8)) :
    Quiet (Console.cStyle st argv).outs := by
  cases argv with
  | nil => exact quiet_line _
  | cons arg argv =>
      unfold Console.cStyle
      dsimp only
      by_cases hask : arg = ascii "?"
      · rw [if_pos hask]
        exact quiet_nil
      · rw [if_neg hask]
        exact quiet_cons.mpr ⟨silent_ne _, quiet_ite quiet_nil (quiet_line _)⟩

theorem quiet_translate (st : State) (f : List UInt8 → List UInt8) (argv : List (List UInt8))
    (str : List UInt8) : Quiet (Console.translate st f argv str).outs := by
  cases argv with
  | nil => exact quiet_line _
  | cons arg argv => exact quiet_textFrom fun _ => quiet_line _

/-! ## Status and modes -/

theorem quiet_status (status : UInt8) (l : Line) : Quiet [.sendStatus status, .line l] :=
  quiet_cons.mpr ⟨sendStatus_ne status, quiet_line l⟩

theorem quiet_ircStatusAvailable (st : State) : Quiet (ircStatusAvailable st).outs := by
  refine quiet_andThen ?_ fun st => ?_
  · by_cases hbusy : st.status &&& statusBusy ≠ 0
    · rw [if_pos hbusy]
      exact quiet_status _ _
    · rw [if_neg hbusy]
      exact quiet_nil
  · show Quiet (Wrote.outs (if st.status &&& statusNetfriends ≠ 0 then _ else _))
    by_cases hfriends : st.status &&& statusNetfriends ≠ 0
    · rw [if_pos hfriends]
      exact quiet_status _ _
    · rw [if_neg hfriends]
      exact quiet_nil

theorem quiet_cStatus (st : State) (argv : List (List UInt8)) :
    Quiet (Console.cStatus st argv).outs := by
  unfold Console.cStatus
  split
  · exact quiet_ircStatusAvailable st
  · exact quiet_status _ _
  · exact quiet_status _ _
  · exact quiet_line _

theorem quiet_nickMode (arg : Option (List UInt8)) (str mode : List UInt8) (plus : Bool)
    (st : State) : Quiet (Comandi.nickMode arg str mode plus st).outs := by
  induction mode generalizing plus st with
  | nil => exact quiet_nil
  | cons m mode ih =>
      rw [Comandi.nickMode]
      by_cases hplus : m = 43
      · rw [if_pos hplus]
        exact ih true st
      · rw [if_neg hplus]
        by_cases hminus : m = 45
        · rw [if_pos hminus]
          exact ih false st
        · rw [if_neg hminus]
          refine quiet_andThen ?_ (ih plus)
          split_ifs
          · split
            · exact quiet_status _ _
            · exact quiet_textFrom fun _ => quiet_status _ _
          · exact quiet_status _ _
          · exact quiet_status _ _
          · exact quiet_status _ _
          · exact quiet_nil
          · exact quiet_line _

theorem chanLetter_line (st : State) (chan : List UInt8) (hasArg : Bool) (m : UInt8) :
    ∃ l, Comandi.chanLetter st chan hasArg m = .line l := by
  unfold Comandi.chanLetter
  dsimp only
  split_ifs <;> exact ⟨_, rfl⟩

theorem quiet_chanMode (st : State) (chan mode : List UInt8) (hasArg : Bool) :
    Quiet (Comandi.chanMode st chan mode hasArg).outs := by
  refine quiet_lines fun o ho => ?_
  rcases List.mem_map.mp ho with ⟨m, -, rfl⟩
  exact chanLetter_line st chan hasArg m

/-! ## The search -/

theorem quiet_cSearchnicks (st : State) : Quiet (Console.cSearchnicks st).outs := by
  unfold Console.cSearchnicks
  by_cases hon : st.isOnSearchusr = true
  · rw [if_pos hon]
    exact quiet_nil
  · rw [if_neg hon]
    exact quiet_cons.mpr ⟨silent_ne _, quiet_lines (by simp [ircSearchmsg])⟩

theorem quiet_listField (u : Userinfo) (field : List UInt8) :
    Quiet (Searchusr.listField u field) := by
  unfold Searchusr.listField
  split
  · exact quiet_line _
  · intro o ho
    rcases List.mem_mapIdx.mp ho with ⟨k, hk, rfl⟩
    exact line_ne _

theorem quiet_searchList (u : Userinfo) (st : State) (argv : List (List UInt8)) :
    Quiet (Searchusr.cList u st argv).outs := by
  cases argv with
  | nil =>
      intro o ho
      rcases List.mem_mapIdx.mp ho with ⟨k, hk, rfl⟩
      exact line_ne _
  | cons arg argv =>
      exact quiet_flatMap (quiet_listField u) _

theorem quiet_cCheckword (u : Userinfo) (st : State) (argv : List (List UInt8)) :
    Quiet (Searchusr.cCheckword u st argv).outs := by
  unfold Searchusr.cCheckword
  split
  · rename_i arg sign value _
    by_cases hsign : sign ≠ ascii "="
    · rw [if_pos hsign]
      exact quiet_line _
    · rw [if_neg hsign]
      refine quiet_cons.mpr ⟨silent_ne _, ?_⟩
      split
      · exact quiet_line _
      · exact quiet_ite (quiet_line _) quiet_nil
  · exact quiet_line _

/-! ## The commands of IRC -/

theorem quiet_addCommand {st : State} {str : List UInt8} {rest : Wrote State}
    (h : Quiet rest.outs) :
    Quiet (Comandi.addCommand st str rest).outs := by
  unfold Comandi.addCommand
  by_cases hst : st.connectionCompleted = true
  · rwa [if_pos hst]
  · rw [if_neg hst]
    exact quiet_nil

theorem quiet_doLogin (st : State) (flag : UInt8) : Quiet (Comandi.doLogin st flag).outs := by
  unfold Comandi.doLogin
  by_cases hst : st.loginCompleted = true
  · rw [if_pos hst]
    exact quiet_nil
  · rw [if_neg hst]
    exact quiet_ite (quiet_cons.mpr ⟨silent_ne _, quiet_nil⟩) quiet_nil

/-- `NICK`, `PASS` and `USER` ask for nothing, before the login is complete and after. -/
theorem quiet_login {st : State} {r : Wrote State} (hr : Quiet r.outs) :
    Quiet (if st.loginCompleted then Comandi.loginDone st else r).outs := by
  by_cases hst : st.loginCompleted = true
  · rw [if_pos hst]
    exact quiet_line _
  · rwa [if_neg hst]

theorem quiet_cNick (st : State) (argv : List (List UInt8)) :
    Quiet (Comandi.cNick st argv).outs := by
  cases argv with
  | nil => exact quiet_login (quiet_line _)
  | cons arg argv => exact quiet_login (quiet_doLogin _ _)

theorem quiet_cPass (st : State) (argv : List (List UInt8)) :
    Quiet (Comandi.cPass st argv).outs := by
  cases argv with
  | nil => exact quiet_login (quiet_line _)
  | cons arg argv => exact quiet_login (quiet_doLogin _ _)

theorem quiet_cUser (st : State) (argv : List (List UInt8)) :
    Quiet (Comandi.cUser st argv).outs := by
  unfold Comandi.cUser
  split
  · exact quiet_line _
  · split
    · exact quiet_doLogin _ _
    · exact quiet_line _

theorem quiet_cPing (st : State) (argv : List (List UInt8)) :
    Quiet (Comandi.cPing st argv).outs := by
  cases argv with
  | nil => exact quiet_line _
  | cons arg argv => exact quiet_line _

theorem quiet_cSquit (st : State) (canSquit : Bool) :
    Quiet (Comandi.cSquit st canSquit).outs := by
  cases canSquit with
  | true => exact quiet_nil
  | false => exact quiet_line _

theorem quiet_cMode (set : Setup) (st : State) (argv : List (List UInt8)) (str : List UInt8) :
    Quiet (Comandi.cMode set st argv str).outs := by
  refine quiet_addCommand ?_
  split
  · exact quiet_nil
  · split
    · exact quiet_cons.mpr ⟨line_ne _, quiet_line _⟩
    · exact quiet_line _
  · split
    · exact quiet_nickMode _ _ _ _ _
    · split
      · exact quiet_chanMode _ _ _ _
      · exact quiet_nil

theorem quiet_cAway (set : Setup) (st : State) (argv : List (List UInt8)) (str : List UInt8) :
    Quiet (Comandi.cAway set st argv str).outs := by
  refine quiet_addCommand ?_
  cases argv with
  | nil => exact quiet_andThen (quiet_cMode set st _ str) fun _ => quiet_line _
  | cons arg argv => exact quiet_andThen (quiet_cMode set st _ str) fun _ => quiet_line _

theorem quiet_ircJoinConsole (st : State) : Quiet (Comandi.ircJoinConsole st) := by
  refine quiet_append.mpr ⟨quiet_append.mpr ⟨quiet_lines (by simp), ?_⟩,
    quiet_lines (by simp [ircConsole])⟩
  exact quiet_map (fun _ => line_ne _) _

theorem quiet_whoConsole (st : State) : Quiet (Comandi.whoConsole st) :=
  quiet_cons.mpr ⟨line_ne _, quiet_map (fun _ => line_ne _) _⟩

theorem quiet_whoSearchusr (st : State) : Quiet (Comandi.whoSearchusr st) :=
  quiet_ite (quiet_line _) quiet_nil

theorem quiet_whoChan (st : State) (chan : List UInt8) (cl : Chan) :
    Quiet (Comandi.whoChan st chan cl) :=
  quiet_cons.mpr ⟨line_ne _, quiet_map (fun _ => line_ne _) _⟩

theorem quiet_whoAllchan (st : State) : Quiet (Comandi.whoAllchan st) :=
  quiet_flatMap (fun _ => quiet_whoChan st _ _) _

theorem quiet_whoOne (st : State) (arg : List UInt8) : Quiet (Comandi.whoOne st arg) := by
  refine quiet_append.mpr ⟨quiet_ite (quiet_ite (quiet_whoConsole st)
    (quiet_ite (quiet_whoSearchusr st) ?_)) (quiet_line _), quiet_line _⟩
  unfold Comandi.whoChannel
  split
  · exact quiet_nil
  · exact quiet_whoChan st arg _

theorem quiet_cWho (st : State) (argv : List (List UInt8)) (str : List UInt8) :
    Quiet (Comandi.cWho st argv str).outs := by
  have hall : Quiet (Comandi.whoConsole st ++ Comandi.whoSearchusr st ++ Comandi.whoAllchan st ++
      [reply .endWhoReply [serv, st.nick.text, ascii "*"]]) :=
    quiet_append.mpr ⟨quiet_append.mpr ⟨quiet_append.mpr ⟨quiet_whoConsole st,
      quiet_whoSearchusr st⟩, quiet_whoAllchan st⟩, quiet_line _⟩
  refine quiet_addCommand ?_
  split
  · split
    · exact hall
    · exact quiet_flatMap (quiet_whoOne st) _
  · exact hall

end Irc
end IrC6
