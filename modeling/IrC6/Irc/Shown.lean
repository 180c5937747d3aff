import IrC6.Base.Runs
import IrC6.Irc.Modes

/-!
# What the console shows

Commands of the console and events of the server, in any order.  Each works on one nick
after the other, and a turn that is about one nick leaves what is shown of the others.

Most steps lead from a console that is right to one that is right.  The exceptions are a
`ln_canc` of a nick that is not in the list, a nick that comes online busy, and some
changes of status.
-/

namespace IrC6
namespace Irc

/-- A command of the console, or what the server says about nicks. -/
inductive ConsoleStep where
  | agg (argv : List (List UInt8))
  | canc (argv : List (List UInt8))
  | lnAgg (argv : List (List UInt8))
  | lnCanc (argv : List (List UInt8))
  | gotUsers (argv : List (List UInt8))
  | userOnline (nick : List UInt8)
  | userOffline (nick : List UInt8)
  | chgStatus (nick : List UInt8) (status : UInt32)
deriving DecidableEq, Repr

namespace ConsoleStep

def run (refuses : Refusal) (c : Conn) : ConsoleStep → Wrote Conn
  | agg argv => cAdd refuses c argv
  | canc argv => cDel c argv
  | lnAgg argv => cIgnore refuses c argv
  | lnCanc argv => (cUnignore c argv).map fun r => (r.1.conn, r.2)
  | gotUsers argv => ircOutUsers c argv
  | userOnline nick => ircOutUserOnline c nick
  | userOffline nick => ircOutUserOffline c nick
  | chgStatus nick status => ircOutUserChgStatus c nick status

end ConsoleStep

/-! ## The turns of the commands -/

variable {refuses : Refusal} {c : Conn} {v : View}

/-- What an operation leads to, unless the program ends with a message. -/
def Ends (P : Conn → View → Prop) (v : View) : Wrote Conn → Prop
  | .ok r => P r.1 (v.replay r.2)
  | .error e => ∃ text, e.1 = .fatal text

theorem Ends.error {P Q : Conn → View → Prop} {v w : View} {e e' : Halt × List Out}
    (h : Ends P v (.error e)) (he : e'.1 = e.1) : Ends Q w (.error e') := by
  rcases h with ⟨text, htext⟩
  exact ⟨text, he.trans htext⟩

theorem Ends.mono {P Q : Conn → View → Prop} {r : Wrote Conn}
    (h : Ends P v r) (himp : ∀ r', r = .ok r' → P r'.1 (v.replay r'.2) → Q r'.1 (v.replay r'.2)) :
    Ends Q v r := by
  cases r with
  | error e => exact h.error rfl
  | ok r => exact himp r rfl h

theorem nicklistAdd_cases (list : Dict NickInfo) (nick : List UInt8) :
    (∃ ret, ret ≠ 1 ∧ nicklistAdd refuses list nick = (list, ret)) ∨
    (nicklistGetstruct list nick = none ∧ nicklistAdd refuses list nick =
      (list.insert nick { status := 0, blackList := false }, 1)) := by
  by_cases hnick : nick = []
  · exact Or.inl ⟨-1, by omega, by rw [nicklistAdd, hashtableAddD, if_pos hnick]⟩
  · have hcases := @hashtableAddD_cases _ refuses list _ hnick { status := 0, blackList := false }
    rcases hcases with ⟨-, hadd⟩ | ⟨-, -, hadd⟩ | ⟨hmem, hadd⟩
    · exact Or.inl ⟨0, by omega, by rw [nicklistAdd, hadd]⟩
    · exact Or.inl ⟨-1, by omega, by rw [nicklistAdd, hadd]⟩
    · exact Or.inr ⟨AList.lookup_eq_none.mpr hmem, by rw [nicklistAdd, hadd]⟩

theorem Agrees.some (h : Agrees c v) {nick : List UInt8} {info : NickInfo}
    (hinfo : nicklistGetstruct c.nicks nick = some info) :
    ∃ modes, v console nick = some modes ∧ Agree (some info) (some modes) := by
  have hn := h nick
  rw [hinfo] at hn
  cases hv : v console nick with
  | none =>
      rw [hv] at hn
      exact hn.elim
  | some modes =>
      rw [hv] at hn
      exact ⟨modes, rfl, hn⟩

theorem Agrees.none (h : Agrees c v) {nick : List UInt8}
    (hinfo : nicklistGetstruct c.nicks nick = none) : v console nick = none := by
  have hn := h nick
  rw [hinfo] at hn
  cases hv : v console nick with
  | none => rfl
  | some modes =>
      rw [hv] at hn
      exact hn.elim

theorem agree_new : Agree (some { status := 0, blackList := false }) (some {voice}) := by
  rw [agree_some]
  decide

theorem agrees_addNick (h : Agrees c v) (nick : List UInt8) :
    Ends Agrees v (addNick refuses c nick) := by
  rw [addNick]
  rcases nicklistAdd_cases c.nicks nick with ⟨ret, hret, hadd⟩ | ⟨hnone, hadd⟩
  · rw [hadd]
    simp only [if_neg hret]
    refine h.turn (fun n (_ : n ≠ nick) => rfl) (by split_ifs <;> simp) ?_
    split_ifs <;> exact h nick
  · rw [hadd]
    refine h.turn (fun n hn => nicklistGetstruct_insert_ne _ _ _ hn) (by simp) ?_
    rw [nicklistGetstruct_insert]
    simpa [h.none hnone] using agree_new

theorem agrees_delNick (h : Agrees c v) (nick : List UInt8) : Ends Agrees v (delNick c nick) := by
  rw [delNick, nicklistDel, hashtableDelD]
  by_cases hmem : nick ∈ c.nicks
  · rw [if_pos hmem]
    refine h.turn (fun n hn => AList.lookup_erase_ne hn) (by simp) ?_
    rw [nicklistGetstruct, AList.lookup_erase]
    simp [Agree]
  · rw [if_neg hmem]
    exact h

theorem agrees_ignoreNick (h : Agrees c v) (nick : List UInt8) :
    Ends Agrees v (ignoreNick refuses c nick) := by
  rw [ignoreNick]
  rcases nicklistAdd_cases c.nicks nick with ⟨ret, hret, hadd⟩ | ⟨hnone, hadd⟩
  · rw [hadd]
    cases hinfo : nicklistGetstruct c.nicks nick with
    | none => exact ⟨_, rfl⟩
    | some info =>
        simp only [if_neg hret]
        rcases h.some hinfo with ⟨modes, hmodes, hagree⟩
        refine h.turn (fun n hn => nicklistGetstruct_insert_ne _ _ _ hn)
          (by split_ifs <;> simp) ?_
        have hagree' := agree_ignore (c := c) nick hagree
        rw [nicklistGetstruct_insert, hmodes, List.foldl_append]
        by_cases hzero : ret = 0
        · rwa [if_pos hzero]
        · rwa [if_neg hzero]
  · rw [hadd]
    simp only [nicklistGetstruct_insert, AList.insert_insert]
    refine h.turn (fun n hn => nicklistGetstruct_insert_ne _ _ _ hn)
      (by split_ifs <;> simp) ?_
    rw [nicklistGetstruct_insert, h.none hnone]
    have hoff : isOnline 0 = false := by decide
    have hnone : Agree (some { status := 0, blackList := true }) (some ∅) := by
      rw [agree_some]
      decide
    simpa [hoff] using hnone

theorem ends_online (h : Agrees c v) {nick : List UInt8} {info : NickInfo}
    (hinfo : nicklistGetstruct c.nicks nick = some info) {outs : List Out}
    (habout : ∀ o ∈ outs, View.About nick o)
    (houts : ∀ modes, outs.foldl (View.seeOne console nick) (some modes) =
      (if info.blackList then [] else [chanMode c "+o" nick]).foldl
        (View.seeOne console nick) (some modes))
    (hright : info.blackList = false → isBusy info.status = false) :
    Agrees { c with nicks := c.nicks.insert nick { info with status := setOnline info.status } }
      (v.replay outs) := by
  rcases h.some hinfo with ⟨modes, hmodes, hagree⟩
  rcases modes_online (c := c) nick hagree with ⟨modes', hfold, hsub, hiff⟩
  refine h.turn (fun n hn => nicklistGetstruct_insert_ne _ _ _ hn) habout ?_
  rw [nicklistGetstruct_insert, hmodes, houts, hfold]
  exact ⟨hiff.mpr hright, hsub, single_setOnline hagree.2.2⟩

theorem agrees_userOnline (h : Agrees c v) {nick : List UInt8}
    (hright : ∀ info, nicklistGetstruct c.nicks nick = some info → isOnline info.status = false →
      info.blackList = false → isBusy info.status = false) :
    Ends Agrees v (userOnline c nick) := by
  rw [userOnline]
  cases hinfo : nicklistGetstruct c.nicks nick with
  | none => exact h
  | some info =>
      cases hon : isOnline info.status
      · simp only [hon, Bool.false_eq_true, if_false]
        exact ends_online h hinfo (by split_ifs <;> simp) (fun _ => rfl) (hright info hinfo hon)
      · simp only [hon, if_true]
        exact h

theorem agrees_ircOutUserOnline (h : Agrees c v) {nick : List UInt8}
    (hright : ∀ info, nicklistGetstruct c.nicks nick = some info →
      info.blackList = false → isBusy info.status = false) :
    Ends Agrees v (ircOutUserOnline c nick) := by
  rw [ircOutUserOnline]
  cases hinfo : nicklistGetstruct c.nicks nick with
  | none => exact h
  | some info =>
      refine ends_online h hinfo (by split_ifs <;> simp) (fun modes => ?_) (hright info hinfo)
      rw [List.foldl_append]
      rfl

theorem agrees_ircOutUserChgStatus (h : Agrees c v) {nick : List UInt8} {status : UInt32}
    (hnew : Single status.toUInt8)
    (hright : ∀ info, nicklistGetstruct c.nicks nick = some info →
      leads info status.toUInt8 = true) :
    Ends Agrees v (ircOutUserChgStatus c nick status) := by
  rw [ircOutUserChgStatus]
  cases hinfo : nicklistGetstruct c.nicks nick with
  | none => exact h
  | some info =>
      rcases h.some hinfo with ⟨modes, hmodes, hagree⟩
      rcases modes_chgStatus hagree hnew with ⟨modes', hfold, hsub, hiff⟩
      refine h.turn (fun n hn => nicklistGetstruct_insert_ne _ _ _ hn)
        (by split_ifs <;> simp) ?_
      rw [nicklistGetstruct_insert, hmodes, foldl_chgStatus nick _ _ hagree.2.2 hnew, hfold]
      exact ⟨hiff.mpr (hright info hinfo), hsub, hnew⟩

theorem agrees_ircOutUserOffline (h : Agrees c v) (nick : List UInt8) :
    Ends Agrees v (ircOutUserOffline c nick) := by
  rw [ircOutUserOffline]
  cases hinfo : nicklistGetstruct c.nicks nick with
  | none => exact h
  | some info =>
      rcases h.some hinfo with ⟨modes, hmodes, hagree⟩
      refine h.turn (fun n hn => nicklistGetstruct_insert_ne _ _ _ hn) (by split_ifs <;> simp) ?_
      rw [nicklistGetstruct_insert, hmodes]
      exact agree_offline nick _ hagree

/-! ## The loops -/

/-- A loop over nicks, with what holds of those still to come. -/
theorem ends_each {turn : Conn → List UInt8 → Wrote Conn}
    {P : List (List UInt8) → Conn → View → Prop}
    (hturn : ∀ nick argv c v, P (nick :: argv) c v → Ends (P argv) v (turn c nick))
    (argv : List (List UInt8)) (h : P argv c v) : Ends (P []) v (each turn c argv) := by
  induction argv generalizing c v with
  | nil => exact h
  | cons nick argv ih =>
      have hone := hturn nick argv c v h
      cases hrun : turn c nick with
      | error e =>
          rw [hrun] at hone
          rw [each_cons_error hrun]
          exact hone.error rfl
      | ok r =>
          rw [hrun] at hone
          have hrest := ih hone
          cases hruns : each turn r.1 argv with
          | error e =>
              rw [hruns] at hrest
              rw [each_cons_halts hrun hruns]
              exact hrest.error rfl
          | ok rs =>
              rw [hruns] at hrest
              rw [each_cons_ok hrun hruns]
              show P [] rs.1 (v.replay (r.2 ++ rs.2))
              rw [View.replay_append]
              exact hrest

theorem ends_writeFirst {P : Conn → View → Prop} {outs : List Out}
    (houts : v.replay outs = v) {r : Wrote Conn} (h : Ends P v r) :
    Ends P v (writeFirst outs r) := by
  cases r with
  | error e => exact h.error rfl
  | ok r =>
      show P r.1 (v.replay (outs ++ r.2))
      rw [View.replay_append, houts]
      exact h

theorem agrees_cAdd (h : Agrees c v) (argv : List (List UInt8)) :
    Ends Agrees v (cAdd refuses c argv) := by
  cases argv with
  | nil => exact h
  | cons arg argv =>
      exact ends_writeFirst rfl (ends_each (P := fun _ => Agrees)
        (fun nick _ _ _ h => agrees_addNick h nick) _ h)

theorem agrees_cDel (h : Agrees c v) (argv : List (List UInt8)) :
    Ends Agrees v (cDel c argv) := by
  cases argv with
  | nil => exact h
  | cons arg argv =>
      exact ends_writeFirst rfl (ends_each (P := fun _ => Agrees)
        (fun nick _ _ _ h => agrees_delNick h nick) _ h)

theorem agrees_cIgnore (h : Agrees c v) (argv : List (List UInt8)) :
    Ends Agrees v (cIgnore refuses c argv) := by
  cases argv with
  | nil => exact h
  | cons arg argv =>
      exact ends_writeFirst rfl (ends_each (P := fun _ => Agrees)
        (fun nick _ _ _ h => agrees_ignoreNick h nick) _ h)

/-- The nicks that a packet of users takes online with a mode that is not theirs. -/
def Idle (c : Conn) (argv : List (List UInt8)) : Prop :=
  ∀ nick ∈ argv, ∀ info, nicklistGetstruct c.nicks nick = some info →
    isOnline info.status = false → info.blackList = false → isBusy info.status = false

theorem idle_userOnline {nick : List UInt8} {argv : List (List UInt8)}
    (h : Idle c (nick :: argv)) {r : Conn × List Out} (hrun : userOnline c nick = .ok r) :
    Idle r.1 argv := by
  intro n hn info hinfo hon hbl
  rw [userOnline] at hrun
  cases hnick : nicklistGetstruct c.nicks nick with
  | none =>
      rw [hnick] at hrun
      cases hrun
      exact h n (List.mem_cons_of_mem _ hn) info hinfo hon hbl
  | some old =>
      rw [hnick] at hrun
      cases hold : isOnline old.status
      · simp only [hold, Bool.false_eq_true, if_false] at hrun
        cases hrun
        by_cases hne : n = nick
        · subst hne
          rw [nicklistGetstruct_insert] at hinfo
          cases hinfo
          exact absurd (setOnline_bits old.status).1 (by simp [hon])
        · rw [nicklistGetstruct_insert_ne _ _ _ hne] at hinfo
          exact h n (List.mem_cons_of_mem _ hn) info hinfo hon hbl
      · simp only [hold, if_true] at hrun
        cases hrun
        exact h n (List.mem_cons_of_mem _ hn) info hinfo hon hbl

theorem agrees_ircOutUsers (h : Agrees c v) {argv : List (List UInt8)} (hidle : Idle c argv) :
    Ends Agrees v (ircOutUsers c argv) := by
  have hturn : ∀ nick argv c v, Agrees c v ∧ Idle c (nick :: argv) →
      Ends (fun c v => Agrees c v ∧ Idle c argv) v (userOnline c nick) := by
    intro nick argv c v h
    exact (agrees_userOnline h.1 (h.2 nick List.mem_cons_self)).mono
      fun r hrun hagrees => ⟨hagrees, idle_userOnline h.2 hrun⟩
  have hall := ends_each (P := fun argv c v => Agrees c v ∧ Idle c argv) hturn argv ⟨h, hidle⟩
  exact hall.mono fun r _ hr => hr.1

/-! ## `ln_canc` -/

variable {u : Unignore}

theorem agrees_unignoreNick (h : Agrees u.conn v) {nick : List UInt8} {info : NickInfo}
    (hinfo : nicklistGetstruct u.conn.nicks nick = some info) :
    ∃ outs, unignoreNick u nick = .ok (
        { conn :=
            { u.conn with nicks := u.conn.nicks.insert nick { info with blackList := false } },
          nl := some nick, used := u.used ++ [nick] }, outs) ∧
      Agrees { u.conn with nicks := u.conn.nicks.insert nick { info with blackList := false } }
        (v.replay outs) := by
  rcases h.some hinfo with ⟨modes, hmodes, hagree⟩
  refine ⟨if info.blackList then
      [chanMode u.conn "+v" nick]
      ++ (if isOnline info.status && (isAvailable info.status || isPlain info.status) then
        [chanMode u.conn "+o" nick] else [])
      ++ (if isOnline info.status && isBusy info.status then [chanMode u.conn "+h" nick] else [])
    else [], ?_, ?_⟩
  · simp only [unignoreNick, hinfo, Option.isSome_some, if_true, Option.bind_some,
      Option.map_some, List.nil_append]
  · refine h.turn (fun n hn => nicklistGetstruct_insert_ne _ _ _ hn) (by split_ifs <;> simp) ?_
    rw [nicklistGetstruct_insert, hmodes]
    exact agree_unignore nick hagree

theorem agrees_unignore (argv : List (List UInt8)) (h : Agrees u.conn v)
    (hall : ∀ nick ∈ argv, nick ∈ u.conn.nicks) :
    ∃ u' outs, each unignoreNick u argv = .ok (u', outs) ∧ Agrees u'.conn (v.replay outs) ∧
      u'.used = u.used ++ argv := by
  induction argv generalizing u v with
  | nil => exact ⟨u, [], rfl, h, (List.append_nil _).symm⟩
  | cons nick argv ih =>
      rcases Option.isSome_iff_exists.mp (AList.lookup_isSome.mpr (hall nick List.mem_cons_self))
        with ⟨info, hinfo⟩
      rcases agrees_unignoreNick h hinfo with ⟨outs, hrun, h'⟩
      have hall' : ∀ n ∈ argv,
          n ∈ u.conn.nicks.insert nick { info with blackList := false } := fun n hn =>
        (AList.mem_insert _).mpr (Or.inr (hall n (List.mem_cons_of_mem _ hn)))
      rcases ih (u := { conn := _, nl := some nick, used := u.used ++ [nick] }) h' hall'
        with ⟨u', outs', hruns, h'', hused⟩
      refine ⟨u', outs ++ outs', ?_, ?_, ?_⟩
      · exact each_cons_ok hrun hruns
      · rw [View.replay_append]
        exact h''
      · rw [hused]
        exact List.append_assoc _ _ _

theorem length_used (argv : List (List UInt8)) {u' : Unignore} {outs : List Out}
    (h : each unignoreNick u argv = .ok (u', outs)) :
    u'.used.length = u.used.length + argv.length := by
  induction argv generalizing u outs with
  | nil =>
      cases h
      rfl
  | cons nick argv ih =>
      cases hrun : unignoreNick u nick with
      | error e =>
          rw [each_cons_error hrun] at h
          cases h
      | ok r =>
          have hlen : r.1.used.length = u.used.length + 1 := by
            rw [unignoreNick] at hrun
            split at hrun
            · exact absurd hrun (by simp)
            · cases hrun
              simp
          cases hruns : each unignoreNick r.1 argv with
          | error e =>
              rw [each_cons_halts hrun hruns] at h
              cases h
          | ok rs =>
              rw [each_cons_ok hrun hruns] at h
              cases h
              rw [ih hruns, hlen, List.length_cons]
              omega

/-! ## Steps -/

namespace ConsoleStep

/-- The status of a change has at most one of the bits that exclude each other. -/
def Allowed : ConsoleStep → Prop
  | chgStatus _ status => Single status.toUInt8
  | _ => True

/-- The steps whose changes of modes are the right ones: every nick that `ln_canc` names is
in the list, no nick that is online only now was busy before, and a change of status leads
from the modes before to those of the new status. -/
def Meets (c : Conn) : ConsoleStep → Prop
  | lnCanc argv => ∀ nick ∈ argv, nick ∈ c.nicks
  | gotUsers argv => Idle c argv
  | userOnline nick => ∀ info, nicklistGetstruct c.nicks nick = some info →
      info.blackList = false → isBusy info.status = false
  | chgStatus nick status => ∀ info, nicklistGetstruct c.nicks nick = some info →
      leads info status.toUInt8 = true
  | _ => True

/-- The console shows the nicks and their status behind a step, and `ln_canc` works on the
entries of the nicks that it has found. -/
def Right (refuses : Refusal) (c : Conn) (v : View) (o : ConsoleStep) : Prop :=
  Ends Shown v (o.run refuses c) ∧
    ∀ argv u outs, o = lnCanc argv → cUnignore c argv = .ok (u, outs) →
      u.used = argv.filter (· ∈ c.nicks)

theorem agrees_run (h : Agrees c v) {o : ConsoleStep} (ho : o.Allowed) (hmeets : o.Meets c) :
    Ends Agrees v (o.run refuses c) := by
  cases o with
  | agg argv => exact agrees_cAdd h argv
  | canc argv => exact agrees_cDel h argv
  | lnAgg argv => exact agrees_cIgnore h argv
  | lnCanc argv =>
      cases argv with
      | nil => exact h
      | cons arg argv =>
          rcases agrees_unignore (u := { conn := c, nl := none, used := [] }) (arg :: argv) h hmeets
            with ⟨u', outs, hrun, hagrees, -⟩
          rw [run, cUnignore, hrun]
          exact hagrees
  | gotUsers argv => exact agrees_ircOutUsers h hmeets
  | userOnline nick => exact agrees_ircOutUserOnline h hmeets
  | userOffline nick => exact agrees_ircOutUserOffline h nick
  | chgStatus nick status => exact agrees_ircOutUserChgStatus h ho hmeets

end ConsoleStep

/-! ## Steps that are right -/

theorem meets_userOnline (h : Agrees c v) {nick : List UInt8}
    (hr : Ends Shown v (ircOutUserOnline c nick)) (info : NickInfo)
    (hinfo : nicklistGetstruct c.nicks nick = some info) (hbl : info.blackList = false) :
    isBusy info.status = false := by
  rcases h.some hinfo with ⟨modes, hmodes, hagree⟩
  rcases modes_online (c := c) nick hagree with ⟨modes', hfold, -, hiff⟩
  rw [ircOutUserOnline, hinfo] at hr
  refine hiff.mp (hr.modes nick _ modes' (nicklistGetstruct_insert _ _ _) ?_) hbl
  rw [View.replay_apply, hmodes, List.foldl_append, hfold]
  rfl

theorem meets_chgStatus (h : Agrees c v) {nick : List UInt8} {status : UInt32}
    (hnew : Single status.toUInt8) (hr : Ends Shown v (ircOutUserChgStatus c nick status))
    (info : NickInfo) (hinfo : nicklistGetstruct c.nicks nick = some info) :
    leads info status.toUInt8 = true := by
  rcases h.some hinfo with ⟨modes, hmodes, hagree⟩
  rcases modes_chgStatus hagree hnew with ⟨modes', hfold, -, hiff⟩
  rw [ircOutUserChgStatus, hinfo] at hr
  refine hiff.mp (hr.modes nick _ modes' (nicklistGetstruct_insert _ _ _) ?_)
  rw [View.replay_apply, hmodes, foldl_chgStatus nick _ _ hagree.2.2 hnew, hfold]

/-- A busy nick that is shown like the others. -/
def Wrong (nick : List UInt8) (c : Conn) (v : View) : Prop :=
  ∃ info modes, nicklistGetstruct c.nicks nick = some info ∧ v console nick = some modes ∧
    info.blackList = false ∧ isOnline info.status = true ∧ isBusy info.status = true ∧ op ∈ modes

theorem Wrong.not_shown {nick : List UInt8} (h : Wrong nick c v) : ¬Shown c v := by
  rcases h with ⟨info, modes, hinfo, hmodes, hbl, hon, hbusy, hop⟩
  intro hshown
  have hright := hshown.modes nick info modes hinfo hmodes
  simp only [Modes, hbl, hon, hbusy, Bool.false_eq_true, Bool.not_true, if_true, if_false] at hright
  exact hright.2 hop

/-- A nick that was busy when it went offline, and is about to go online. -/
def Due (nick : List UInt8) (c : Conn) (v : View) : Prop :=
  ∃ info modes, nicklistGetstruct c.nicks nick = some info ∧ v console nick = some modes ∧
    info.blackList = false ∧ isOnline info.status = false ∧ isBusy info.status = true

theorem userOnline_ok (c : Conn) (nick : List UInt8) : ∃ r, userOnline c nick = .ok r := by
  rw [userOnline]
  cases nicklistGetstruct c.nicks nick with
  | none => exact ⟨_, rfl⟩
  | some info =>
      by_cases hon : isOnline info.status = true
      · exact ⟨_, if_pos hon⟩
      · exact ⟨_, if_neg hon⟩

/-- A turn for another nick, or for one that is online, leaves a nick as it is. -/
theorem userOnline_same {nick n : List UInt8} {info : NickInfo}
    (hinfo : nicklistGetstruct c.nicks n = some info) (h : n ≠ nick ∨ isOnline info.status = true)
    {r : Conn × List Out} (hrun : userOnline c nick = .ok r) :
    nicklistGetstruct r.1.nicks n = some info ∧ v.replay r.2 console n = v console n := by
  rw [userOnline] at hrun
  cases hnick : nicklistGetstruct c.nicks nick with
  | none =>
      rw [hnick] at hrun
      cases hrun
      exact ⟨hinfo, rfl⟩
  | some old =>
      rw [hnick] at hrun
      cases hold : isOnline old.status
      · have hne : n ≠ nick := by
          rcases h with hne | hon
          · exact hne
          · rintro rfl
            rw [hinfo] at hnick
            cases hnick
            exact absurd hon (by simp [hold])
        simp only [hold, Bool.false_eq_true, if_false] at hrun
        cases hrun
        refine ⟨(nicklistGetstruct_insert_ne _ _ _ hne).trans hinfo, ?_⟩
        rw [View.replay_apply]
        exact View.foldl_about (by split_ifs <;> simp) hne _ _
      · simp only [hold, if_true] at hrun
        cases hrun
        exact ⟨hinfo, rfl⟩

/-- The turn of a nick that is due goes wrong, and no later turn mends it. -/
theorem wrong_userOnline {n : List UInt8} (nick : List UInt8) (argv : List (List UInt8))
    (c : Conn) (v : View) (h : Wrong n c v ∨ (Due n c v ∧ n ∈ nick :: argv)) :
    Ends (fun c v => Wrong n c v ∨ (Due n c v ∧ n ∈ argv)) v (userOnline c nick) := by
  rcases userOnline_ok c nick with ⟨r, hrun⟩
  rw [hrun]
  show Wrong n r.1 (v.replay r.2) ∨ (Due n r.1 (v.replay r.2) ∧ n ∈ argv)
  rcases h with ⟨info, modes, hinfo, hmodes, hbl, hon, hbusy, hop⟩ | ⟨hdue, hmem⟩
  · rcases userOnline_same (v := v) hinfo (Or.inr hon) hrun with ⟨hinfo', hmodes'⟩
    exact Or.inl ⟨info, modes, hinfo', hmodes'.trans hmodes, hbl, hon, hbusy, hop⟩
  · rcases hdue with ⟨info, modes, hinfo, hmodes, hbl, hon, hbusy⟩
    by_cases hne : n = nick
    · subst hne
      rw [userOnline, hinfo] at hrun
      simp only [hon, hbl, Bool.false_eq_true, if_false] at hrun
      cases hrun
      rcases setOnline_bits info.status with ⟨hon', hbusy', -⟩
      refine Or.inl ⟨_, insert op modes, nicklistGetstruct_insert _ _ _, ?_, rfl, hon',
        hbusy'.trans hbusy, Finset.mem_insert_self _ _⟩
      rw [View.replay_apply, hmodes]
      simp
    · rcases userOnline_same (v := v) hinfo (Or.inl hne) hrun with ⟨hinfo', hmodes'⟩
      refine Or.inr ⟨⟨info, modes, hinfo', hmodes'.trans hmodes, hbl, hon, hbusy⟩, ?_⟩
      exact (List.mem_cons.mp hmem).resolve_left hne

theorem each_ok {turn : Conn → List UInt8 → Wrote Conn}
    (hturn : ∀ c nick, ∃ r, turn c nick = .ok r) (c : Conn) (argv : List (List UInt8)) :
    ∃ r, each turn c argv = .ok r := by
  induction argv generalizing c with
  | nil => exact ⟨_, rfl⟩
  | cons nick argv ih =>
      rcases hturn c nick with ⟨r, hrun⟩
      rcases ih r.1 with ⟨rs, hruns⟩
      exact ⟨_, each_cons_ok hrun hruns⟩

theorem meets_gotUsers (h : Agrees c v) {argv : List (List UInt8)}
    (hr : Ends Shown v (ircOutUsers c argv)) : Idle c argv := by
  intro nick hnick info hinfo hon hbl
  by_contra hbusy
  rcases h.some hinfo with ⟨modes, hmodes, -⟩
  have hdue : Due nick c v := ⟨info, modes, hinfo, hmodes, hbl, hon, by simpa using hbusy⟩
  have hwrong := ends_each (P := fun argv c v => Wrong nick c v ∨ (Due nick c v ∧ nick ∈ argv))
    wrong_userOnline argv (Or.inr ⟨hdue, hnick⟩)
  rcases each_ok userOnline_ok c argv with ⟨r, hrun⟩
  rw [ircOutUsers, hrun] at hr
  rw [hrun] at hwrong
  rcases hwrong with hwrong | ⟨-, hnil⟩
  · exact hwrong.not_shown hr
  · exact absurd hnil List.not_mem_nil

/-- A loop of `c_unignore` that does not come to its end has read a pointer that is not
set. -/
theorem unignore_error (argv : List (List UInt8)) {e : Halt × List Out}
    (h : each unignoreNick u argv = .error e) : e.1 = .uninitialised := by
  induction argv generalizing u e with
  | nil => exact absurd h (by simp [each])
  | cons nick argv ih =>
      cases hrun : unignoreNick u nick with
      | error e' =>
          rw [each_cons_error hrun] at h
          cases h
          rw [unignoreNick] at hrun
          split at hrun
          · cases hrun
            rfl
          · exact absurd hrun (by simp)
      | ok r =>
          cases hruns : each unignoreNick r.1 argv with
          | error e' =>
              rw [each_cons_halts hrun hruns] at h
              cases h
              exact ih (e := e') hruns
          | ok rs =>
              rw [each_cons_ok hrun hruns] at h
              cases h

theorem meets_lnCanc {argv : List (List UInt8)}
    (hr : ConsoleStep.Right refuses c v (.lnCanc argv)) : ∀ nick ∈ argv, nick ∈ c.nicks := by
  cases argv with
  | nil => exact fun _ h => absurd h List.not_mem_nil
  | cons arg argv =>
      rcases hr with ⟨hends, hused⟩
      cases hrun : each unignoreNick { conn := c, nl := none, used := [] } (arg :: argv) with
      | error e =>
          rw [ConsoleStep.run, cUnignore, hrun] at hends
          rcases hends with ⟨text, htext⟩
          rw [unignore_error _ hrun] at htext
          cases htext
      | ok r =>
          have hfilter := hused (arg :: argv) r.1 r.2 rfl hrun
          have hlen := length_used (arg :: argv) hrun
          rw [hfilter, List.length_nil, Nat.zero_add] at hlen
          intro nick hnick
          have hall := List.length_filter_eq_length_iff.mp hlen nick hnick
          simpa using hall

theorem right_iff_meets (h : Agrees c v) {o : ConsoleStep} (ho : o.Allowed) :
    o.Right refuses c v ↔ o.Meets c := by
  constructor
  · intro hr
    cases o with
    | lnCanc argv => exact meets_lnCanc hr
    | gotUsers argv => exact meets_gotUsers h hr.1
    | userOnline nick => exact meets_userOnline h hr.1
    | chgStatus nick status => exact meets_chgStatus h ho hr.1
    | agg argv => trivial
    | canc argv => trivial
    | lnAgg argv => trivial
    | userOffline nick => trivial
  · intro hmeets
    refine ⟨(ConsoleStep.agrees_run h ho hmeets).mono fun _ _ hr => hr.shown, ?_⟩
    rintro argv u outs rfl hrun
    have hall : ∀ nick ∈ argv, nick ∈ c.nicks := hmeets
    have hfilter : argv.filter (· ∈ c.nicks) = argv := List.filter_eq_self.mpr (by simpa using hall)
    rw [hfilter]
    cases argv with
    | nil =>
        cases hrun
        rfl
    | cons arg argv =>
        rcases agrees_unignore (u := { conn := c, nl := none, used := [] }) (arg :: argv) h hmeets
          with ⟨u', outs', hrun', -, hused⟩
        rw [cUnignore, hrun'] at hrun
        cases hrun
        exact hused

/-! ## Runs -/

/-- A step, with what the client makes of its lines. -/
def consoleStep (refuses : Refusal) (s : Conn × View) (o : ConsoleStep) :
    Wrote (Conn × View) :=
  (o.run refuses s.1).map fun r => ((r.1, s.2.replay r.2), r.2)

theorem agrees_connNew (nick : List UInt8) : Agrees (connNew nick) View.empty := by
  intro n
  have hnone : nicklistGetstruct (connNew nick).nicks n = none := AList.lookup_empty n
  rw [hnone]
  trivial

/-- In a run whose steps all meet their condition the console shows the nicks of the list
and their status.  A step from there on is right when it meets its condition, and only
then. -/
theorem console_shown_iff (refuses : Refusal) (nick : List UInt8) {c : Conn} {v : View}
    (h : Reaches (consoleStep refuses) (fun s o => o.Allowed ∧ o.Meets s.1)
      (connNew nick, View.empty) (c, v)) :
    Shown c v ∧ ∀ o : ConsoleStep, o.Allowed → (o.Right refuses c v ↔ o.Meets c) := by
  have hagrees : Agrees c v := by
    refine Reaches.invariant (I := fun s => Agrees s.1 s.2) (agrees_connNew nick) ?_ h
    rintro s s' o r hs ⟨ho, hmeets⟩ hrun
    have hends : Ends Agrees s.2 (o.run refuses s.1) := ConsoleStep.agrees_run hs ho hmeets
    rw [consoleStep] at hrun
    cases hstep : o.run refuses s.1 with
    | error e =>
        rw [hstep] at hrun
        exact absurd hrun (by simp [Except.map])
    | ok r' =>
        rw [hstep] at hrun hends
        cases hrun
        exact hends
  exact ⟨hagrees.shown, fun o ho => right_iff_meets hagrees ho⟩

/-- A nick is added, comes online and turns busy. -/
theorem console_shown_iff_busy :
    ∃ c v, nicklistGetstruct c.nicks [97] = some { status := 3, blackList := false } ∧
      v console [97] = some {halfop, voice} ∧ Shown c v ∧
      ∀ o : ConsoleStep, o.Allowed → (o.Right clashes c v ↔ o.Meets c) := by
  have hadd : Reaches (consoleStep clashes) (fun s o => o.Allowed ∧ o.Meets s.1)
      (connNew [109], View.empty) _ :=
    Reaches.step (ConsoleStep.agg [[97]]) .start ⟨trivial, trivial⟩ rfl
  have honline := Reaches.step (ConsoleStep.userOnline [97]) hadd ⟨trivial, by
    rintro info ⟨⟩ -
    rfl⟩ rfl
  have hbusy := Reaches.step (ConsoleStep.chgStatus [97] 3) honline
    ⟨(show Single (UInt32.toUInt8 3) by decide), by
      rintro info ⟨⟩
      rfl⟩ rfl
  exact ⟨_, _, rfl, by decide +kernel, console_shown_iff clashes [109] hbusy⟩

/-- A nick that is ignored comes online and turns busy, and gets a mode. -/
theorem console_shows_ignored :
    ∃ c v, Reaches (consoleStep clashes) (fun _ o => o.Allowed) (connNew [109], View.empty) (c, v) ∧
      nicklistGetstruct c.nicks [97] = some { status := 3, blackList := true } ∧
      v console [97] = some {halfop} ∧ ¬Shown c v := by
  have hignore : Reaches (consoleStep clashes) (fun _ o => o.Allowed)
      (connNew [109], View.empty) _ := Reaches.step (ConsoleStep.lnAgg [[97]]) .start trivial rfl
  have honline := Reaches.step (ConsoleStep.userOnline [97]) hignore trivial rfl
  have hbusy := Reaches.step (ConsoleStep.chgStatus [97] 3) honline
    (show Single (UInt32.toUInt8 3) by decide) rfl
  refine ⟨_, _, hbusy, rfl, by decide +kernel, fun hshown => ?_⟩
  have hmodes := hshown.modes [97] { status := 3, blackList := true } {halfop} rfl
    (by decide +kernel)
  exact absurd hmodes (by decide)

end Irc
end IrC6
