import IrC6.Irc.Console

/-!
# The modes of a nick

The modes that the lines have left on the console against the status that is stored for a
nick, and what the changes of one handler do to them.  A nick that the console shows as it
is stored has no mode but `o`, `h` and `v`.
-/

namespace IrC6
namespace Irc

/-- The letters `o`, `h` and `v`. -/
def op : UInt8 := 111
def halfop : UInt8 := 104
def voice : UInt8 := 118

/-- The modes of a nick that is shown as it is stored. -/
def Modes (info : NickInfo) (modes : Finset UInt8) : Prop :=
  if info.blackList then modes = ∅
  else if !isOnline info.status then modes = {voice}
  else if isBusy info.status then halfop ∈ modes ∧ op ∉ modes
  else op ∈ modes ∧ halfop ∉ modes

instance (info : NickInfo) (modes : Finset UInt8) : Decidable (Modes info modes) := by
  unfold Modes
  infer_instance

/-- The console shows the nicks of the list, and each with its status. -/
structure Shown (c : Conn) (v : View) : Prop where
  nicks : ∀ n, v.Has console n ↔ n ∈ c.nicks
  modes : ∀ n info modes, nicklistGetstruct c.nicks n = some info →
    v console n = some modes → Modes info modes

/-! ## One nick -/

/-- The modes of a nick agree with its entry. -/
def Agree : Option NickInfo → Option (Finset UInt8) → Prop
  | some info, some modes =>
      Modes info modes ∧ modes ⊆ {op, halfop, voice} ∧ Single info.status
  | none, none => True
  | _, _ => False

def Agrees (c : Conn) (v : View) : Prop :=
  ∀ n, Agree (nicklistGetstruct c.nicks n) (v console n)

theorem modes_iff {info : NickInfo} {modes : Finset UInt8} (h : modes ⊆ {op, halfop, voice}) :
    Modes info modes ↔
      if info.blackList then op ∉ modes ∧ halfop ∉ modes ∧ voice ∉ modes
      else if !isOnline info.status then op ∉ modes ∧ halfop ∉ modes ∧ voice ∈ modes
      else if isBusy info.status then halfop ∈ modes ∧ op ∉ modes
      else op ∈ modes ∧ halfop ∉ modes := by
  have hempty : modes = ∅ ↔ op ∉ modes ∧ halfop ∉ modes ∧ voice ∉ modes := by
    constructor
    · rintro rfl
      simp
    · rintro ⟨ho, hh, hv⟩
      rw [Finset.eq_empty_iff_forall_notMem]
      intro m hm
      have hm' := h hm
      simp only [Finset.mem_insert, Finset.mem_singleton] at hm'
      rcases hm' with rfl | rfl | rfl
      · exact ho hm
      · exact hh hm
      · exact hv hm
  have hvoice : modes = {voice} ↔ op ∉ modes ∧ halfop ∉ modes ∧ voice ∈ modes := by
    constructor
    · rintro rfl
      decide
    · rintro ⟨ho, hh, hv⟩
      ext m
      rw [Finset.mem_singleton]
      constructor
      · intro hm
        have hm' := h hm
        simp only [Finset.mem_insert, Finset.mem_singleton] at hm'
        rcases hm' with rfl | rfl | rfl
        · exact absurd hm ho
        · exact absurd hm hh
        · rfl
      · rintro rfl
        exact hv
  rw [Modes, hempty, hvoice]

theorem agree_some {info : NickInfo} {modes : Finset UInt8} :
    Agree (some info) (some modes) ↔
      modes ⊆ {op, halfop, voice} ∧ Single info.status ∧
        if info.blackList then op ∉ modes ∧ halfop ∉ modes ∧ voice ∉ modes
        else if !isOnline info.status then op ∉ modes ∧ halfop ∉ modes ∧ voice ∈ modes
        else if isBusy info.status then halfop ∈ modes ∧ op ∉ modes
        else op ∈ modes ∧ halfop ∉ modes := by
  constructor
  · rintro ⟨hmodes, hsub, hsingle⟩
    exact ⟨hsub, hsingle, (modes_iff hsub).mp hmodes⟩
  · rintro ⟨hsub, hsingle, hmodes⟩
    exact ⟨(modes_iff hsub).mpr hmodes, hsub, hsingle⟩

theorem Agrees.shown {c : Conn} {v : View} (h : Agrees c v) : Shown c v := by
  constructor
  · intro n
    have hn := h n
    rw [View.Has, ← AList.lookup_isSome]
    revert hn
    rw [nicklistGetstruct]
    cases AList.lookup n c.nicks <;> cases v console n <;> simp [Agree]
  · intro n info modes hinfo hmodes
    have hn := h n
    rw [hinfo, hmodes] at hn
    exact hn.1

/-- A turn that is about one nick. -/
theorem Agrees.turn {c c' : Conn} {v : View} (h : Agrees c v) {nick : List UInt8}
    {outs : List Out}
    (hlist : ∀ n ≠ nick, nicklistGetstruct c'.nicks n = nicklistGetstruct c.nicks n)
    (habout : ∀ o ∈ outs, View.About nick o)
    (hnick : Agree (nicklistGetstruct c'.nicks nick)
      (outs.foldl (View.seeOne console nick) (v console nick))) :
    Agrees c' (v.replay outs) := by
  intro n
  rw [View.replay_apply]
  by_cases hn : n = nick
  · subst hn
    exact hnick
  · rw [View.foldl_about habout hn, hlist n hn]
    exact h n

theorem nicklistGetstruct_insert_ne (list : Dict NickInfo) (nick : List UInt8) (info : NickInfo)
    {n : List UInt8} (hn : n ≠ nick) :
    nicklistGetstruct (list.insert nick info) n = nicklistGetstruct list n :=
  AList.lookup_insert_ne hn

theorem nicklistGetstruct_insert (list : Dict NickInfo) (nick : List UInt8) (info : NickInfo) :
    nicklistGetstruct (list.insert nick info) nick = some info :=
  AList.lookup_insert list

/-! ## The changes of a mode -/

@[simp, grind =]
theorem seeOne_chanMode (c : Conn) (mode : String) (nick : List UInt8) (modes : Finset UInt8) :
    View.seeOne console nick (some modes) (chanMode c mode nick) =
      some (View.change (ascii mode) modes) := by
  simp [View.seeOne, chanMode]

section Letters

variable (modes : Finset UInt8)

@[simp, grind =] theorem change_set_op : View.change (ascii "+o") modes = insert op modes := rfl
@[simp, grind =] theorem change_take_op : View.change (ascii "-o") modes = modes.erase op := rfl
@[simp, grind =] theorem change_set_halfop :
    View.change (ascii "+h") modes = insert halfop modes := rfl
@[simp, grind =] theorem change_take_halfop :
    View.change (ascii "-h") modes = modes.erase halfop := rfl
@[simp, grind =] theorem change_set_voice :
    View.change (ascii "+v") modes = insert voice modes := rfl
@[simp, grind =] theorem change_take_voice :
    View.change (ascii "-v") modes = modes.erase voice := rfl

end Letters

@[simp] theorem about_chanMode (c : Conn) (mode : String) (nick : List UInt8) :
    View.About nick (chanMode c mode nick) := rfl

@[simp] theorem about_join (nick user host chan : List UInt8) :
    View.About nick (.line (.join nick user host chan)) := rfl

@[simp] theorem about_part (nick user host chan : List UInt8) :
    View.About nick (.line (.part nick user host chan)) := rfl

@[simp] theorem about_notice (nick nick' text : List UInt8) :
    View.About nick (ircNotice nick' text) := trivial

@[simp] theorem about_errmsg (nick nick' text : List UInt8) :
    View.About nick (ircErrmsg nick' text) := trivial

@[simp] theorem about_console (nick text : List UInt8) : View.About nick (ircConsole text) :=
  trivial

theorem letters_ne : op ≠ halfop ∧ op ≠ voice ∧ halfop ≠ op ∧ halfop ≠ voice ∧ voice ≠ op ∧
    voice ≠ halfop := by decide

@[simp] theorem seeOne_join (chan nick user host : List UInt8) (modes : Option (Finset UInt8)) :
    View.seeOne chan nick modes (.line (.join nick user host chan)) = some (modes.getD ∅) := by
  simp [View.seeOne]

@[simp] theorem seeOne_part (chan nick user host : List UInt8) (modes : Option (Finset UInt8)) :
    View.seeOne chan nick modes (.line (.part nick user host chan)) = none := by
  simp [View.seeOne]

@[simp, grind =] theorem seeOne_notice (chan nick nick' text : List UInt8)
    (modes : Option (Finset UInt8)) :
    View.seeOne chan nick modes (ircNotice nick' text) = modes := rfl

@[simp, grind =] theorem seeOne_console (chan nick text : List UInt8)
    (modes : Option (Finset UInt8)) :
    View.seeOne chan nick modes (ircConsole text) = modes := rfl

/-- A mode that is set or taken is one of the three. -/
theorem subset_change {modes : Finset UInt8} (h : modes ⊆ {op, halfop, voice}) (m : UInt8) :
    (m ∈ ({op, halfop, voice} : Finset UInt8) → insert m modes ⊆ {op, halfop, voice}) ∧
      modes.erase m ⊆ {op, halfop, voice} :=
  ⟨fun hm => Finset.insert_subset hm h, (Finset.erase_subset m modes).trans h⟩

theorem single_setOnline {status : UInt8} (h : Single status) : Single (setOnline status) :=
  byte_forall (P := fun status => Single status → Single (setOnline status)) (by decide +kernel)
    status h

theorem single_setOffline (status : UInt8) : Single (setOffline status) := by
  revert status
  exact byte_forall (by decide +kernel)

/-! ## The modes of one nick -/

section Cells

variable {c : Conn} {info : NickInfo} {modes : Finset UInt8} (nick text : List UInt8)

theorem agree_offline (h : Agree (some info) (some modes)) :
    Agree (some { info with status := setOffline info.status })
      (((if info.blackList then [] else
          [if isAvailable info.status || isPlain info.status then chanMode c "-o" nick
              else chanMode c "-h" nick, chanMode c "+v" nick]) ++ [ircConsole text]).foldl
        (View.seeOne console nick) (some modes)) := by
  rw [agree_some] at h
  rcases h with ⟨hsub, hsingle, hmodes⟩
  have hoff := setOffline_bits info.status
  have hset := single_setOffline info.status
  have hplain := isPlain_eq info.status
  have hboth := hsingle.not_both
  have hne := letters_ne
  cases hbl : info.blackList <;> cases hbusy : isBusy info.status <;>
    cases hav : isAvailable info.status <;>
      simp [hbl, hbusy, hav, hplain, hoff, agree_some] at hmodes ⊢ <;> grind

theorem agree_ignore (h : Agree (some info) (some modes)) :
    Agree (some { info with blackList := true })
      ((if info.blackList then []
          else (if isOnline info.status && (isAvailable info.status || isPlain info.status) then
              [chanMode c "-o" nick] else [])
            ++ (if isOnline info.status && isBusy info.status then [chanMode c "-h" nick] else [])
            ++ [chanMode c "-v" nick]).foldl (View.seeOne console nick) (some modes)) := by
  rw [agree_some] at h
  rcases h with ⟨hsub, hsingle, hmodes⟩
  have hplain := isPlain_eq info.status
  have hboth := hsingle.not_both
  have hne := letters_ne
  cases hbl : info.blackList <;> cases hon : isOnline info.status <;>
    cases hbusy : isBusy info.status <;> cases hav : isAvailable info.status <;>
      simp [hbl, hon, hbusy, hav, hplain, agree_some] at hmodes ⊢ <;> grind

theorem agree_unignore (h : Agree (some info) (some modes)) :
    Agree (some { info with blackList := false })
      ((if info.blackList then
            [chanMode c "+v" nick]
            ++ (if isOnline info.status && (isAvailable info.status || isPlain info.status) then
              [chanMode c "+o" nick] else [])
            ++ (if isOnline info.status && isBusy info.status then [chanMode c "+h" nick] else [])
          else []).foldl (View.seeOne console nick) (some modes)) := by
  rw [agree_some] at h
  rcases h with ⟨hsub, hsingle, hmodes⟩
  have hplain := isPlain_eq info.status
  have hboth := hsingle.not_both
  have hne := letters_ne
  cases hbl : info.blackList <;> cases hon : isOnline info.status <;>
    cases hbusy : isBusy info.status <;> cases hav : isAvailable info.status <;>
      simp [hbl, hon, hbusy, hav, hplain, agree_some] at hmodes ⊢ <;> grind

/-- A nick that goes online gets `o`, which is right when it is not busy. -/
theorem modes_online (h : Agree (some info) (some modes)) :
    ∃ modes', (if info.blackList then [] else [chanMode c "+o" nick]).foldl
        (View.seeOne console nick) (some modes) = some modes' ∧
      modes' ⊆ {op, halfop, voice} ∧
      (Modes { info with status := setOnline info.status } modes' ↔
        (info.blackList = false → isBusy info.status = false)) := by
  rw [agree_some] at h
  rcases h with ⟨hsub, hsingle, hmodes⟩
  rcases setOnline_bits info.status with ⟨hon, hbusy, -⟩
  have hne := letters_ne
  cases hbl : info.blackList
  · refine ⟨insert op modes, by simp, (subset_change hsub op).1 (by decide), ?_⟩
    rw [modes_iff ((subset_change hsub op).1 (by decide))]
    cases hb : isBusy info.status <;> simp [hbl, hb, hon, hbusy] at hmodes ⊢
    grind
  · refine ⟨modes, by simp, hsub, ?_⟩
    rw [modes_iff hsub]
    simpa [hbl] using hmodes

/-- A change of status that sends a change of modes. -/
def sends (old new : UInt8) : Bool :=
  (isBusy old && isAvailable new) || (!isBusy old && isBusy new)

/-- What is sent for a change of status leads to the modes of the new one: nothing for a
nick that is ignored, and nothing for one that was and stays offline.  A nick that is
online gets its modes from the change, or has them already. -/
def leads (info : NickInfo) (new : UInt8) : Bool :=
  if info.blackList then !sends info.status new
  else if isOnline new then
    sends info.status new || (isOnline info.status && isBusy info.status == isBusy new)
  else !isOnline info.status && !sends info.status new

theorem foldl_chgStatus (old new : UInt8) (hold : Single old) (hnew : Single new)
    (text : List UInt8) :
    ([ircNotice c.nick text]
        ++ (if isBusy old && isAvailable new then
            [chanMode c "-h" nick, chanMode c "+o" nick] else [])
        ++ (if isBusy new && isAvailable old then
            [chanMode c "-o" nick, chanMode c "+h" nick] else [])
        ++ (if isPlain old && isBusy new then
            [chanMode c "-o" nick, chanMode c "+h" nick] else [])).foldl
        (View.seeOne console nick) (some modes) =
      some (if sends old new then
          if isBusy new then insert halfop (modes.erase op) else insert op (modes.erase halfop)
        else modes) := by
  have hplain := isPlain_eq old
  have hboth := hold.not_both
  have hboth' := hnew.not_both
  unfold sends
  cases hbusy : isBusy old <;> cases hbusy' : isBusy new <;> cases hav : isAvailable old <;>
    cases hav' : isAvailable new <;> simp_all

theorem modes_chgStatus (h : Agree (some info) (some modes)) {new : UInt8} (hnew : Single new) :
    ∃ modes', (if sends info.status new then
          if isBusy new then insert halfop (modes.erase op) else insert op (modes.erase halfop)
        else modes) = modes' ∧ modes' ⊆ {op, halfop, voice} ∧
      (Modes { info with status := new } modes' ↔ leads info new = true) := by
  rw [agree_some] at h
  rcases h with ⟨hsub, hsingle, hmodes⟩
  have hboth := hnew.not_both
  have hne := letters_ne
  cases hs : sends info.status new
  · refine ⟨modes, by simp, hsub, ?_⟩
    rw [modes_iff hsub]
    simp only [leads, hs]
    grind
  · cases hnb : isBusy new
    · have hop : insert op (modes.erase halfop) ⊆ ({op, halfop, voice} : Finset UInt8) :=
        (subset_change (subset_change hsub halfop).2 op).1 (by decide)
      refine ⟨_, by simp, hop, ?_⟩
      rw [modes_iff hop]
      simp only [leads, hs, hnb]
      grind
    · have hhalf : insert halfop (modes.erase op) ⊆ ({op, halfop, voice} : Finset UInt8) :=
        (subset_change (subset_change hsub op).2 halfop).1 (by decide)
      refine ⟨_, by simp, hhalf, ?_⟩
      rw [modes_iff hhalf]
      simp only [leads, hs, hnb]
      grind

end Cells

end Irc
end IrC6
