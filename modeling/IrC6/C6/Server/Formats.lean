import IrC6.Buffer.Inside
import IrC6.Buffer.Text

/-!
# The formats of the server packets

Every format that a handler of `server.c` gives to `buf_unpack_data`, in the order
of the file and under the name that the handler gives to its check, with the fields
it is made of.
-/

namespace IrC6
namespace C6

open Buffer

/-- A format and the fields it is made of. -/
structure Format where
  text : List Char
  fields : List Field
  parsed : render fields = text

/-- `%bu`. -/
def u8 : Field := .num ⟨.byte, false⟩

/-- `%^hu`. -/
def be16 : Field := .num ⟨.short, true⟩

namespace Format

def helo : Format := ⟨"%Z\x02\x08%8p".toList, [.nul, .lit 2, .lit 8, .raw 8], by decide⟩

def redir : Format :=
  ⟨"%4p%2k%hu".toList, [.raw 4, .skip 2, .num ⟨.short, false⟩], by decide⟩

def wlcome : Format := ⟨"%^h$%s".toList, [.str ⟨.short, true⟩], by decide⟩

def infologin : Format := ⟨"%4k%bu".toList, [.skip 4, u8], by decide⟩

def infologinBanner : Format :=
  ⟨"%b$%s%b$%s%b$%s".toList, [shortStr, shortStr, shortStr], by decide⟩

def infologin2 : Format := ⟨"%2k%bu".toList, [.skip 2, u8], by decide⟩

def infologinBotton : Format :=
  ⟨"%1k%bu%b$%s%b$%s".toList, [.skip 1, u8, shortStr, shortStr], by decide⟩

def message : Format :=
  ⟨"%b$%s%b$%s%^h$%r".toList, [shortStr, shortStr, .blob ⟨.short, true⟩], by decide⟩

def sendUsers : Format := ⟨"%b$%s".toList, [shortStr], by decide⟩

def statusUser : Format := ⟨"%b$%s%bu".toList, [shortStr, u8], by decide⟩

def statusUserChg : Format := ⟨"%b$%s%9k%bu".toList, [shortStr, .skip 9, u8], by decide⟩

def userinfo : Format :=
  ⟨"%b$%s%^u%4p%bu%^hu".toList, [shortStr, .num ⟨.int, true⟩, .raw 4, u8, be16], by decide⟩

def userinfoEntries : Format := ⟨"%bu%bu".toList, [u8, u8], by decide⟩

def roomlist : Format := ⟨"%Z%Z%^hu".toList, [.nul, .nul, be16], by decide⟩

def roomlist2 : Format := ⟨"%b$%s%^hu%bu".toList, [shortStr, be16, u8], by decide⟩

def roominfo : Format :=
  ⟨"%b$%s%bu%b$%s%b$%s%^hu".toList, [shortStr, u8, shortStr, shortStr, be16], by decide⟩

def roomuserlist : Format := ⟨"%b$%s%2k%bu".toList, [shortStr, .skip 2, u8], by decide⟩

def roomuserlistNick : Format := ⟨"%b$%s".toList, [shortStr], by decide⟩

def roomMessage : Format :=
  ⟨"%b$%s%b$%s%b$%s%bu%^h$%r".toList,
    [shortStr, shortStr, shortStr, u8, .blob ⟨.short, true⟩], by decide⟩

/-- `cmd_roomuenter` and `cmd_roomuleave` use the same format and the same name. -/
def roomUserenter : Format := ⟨"%b$%s%b$%s".toList, [shortStr, shortStr], by decide⟩

def roomIsfull : Format := ⟨"%b$%s%1k".toList, [shortStr, .skip 1], by decide⟩

def foundnicks : Format := ⟨"%b$%s%bu".toList, [shortStr, u8], by decide⟩

def foundemail : Format := ⟨"%b$%s".toList, [shortStr], by decide⟩

def nicks : Format := ⟨"%^h$%r".toList, [.blob ⟨.short, true⟩], by decide⟩

end Format

/-- The formats of `server.c`. -/
def serverFormats : List Format :=
  [.helo, .redir, .wlcome, .infologin, .infologinBanner, .infologin2, .infologinBotton, .message,
    .sendUsers, .statusUser, .statusUserChg, .userinfo, .userinfoEntries, .roomlist, .roomlist2,
    .roominfo, .roomuserlist, .roomuserlistNick, .roomMessage, .roomUserenter, .roomIsfull,
    .foundnicks, .foundemail, .nicks]

/-- A handler's format is unpacked inside its block exactly when the block covers it. -/
theorem unpackInside_serverFormats (host : Endian) :
    ∀ f ∈ serverFormats, ∀ data : List UInt8,
      UnpackInside host f.text data ↔ Covered host f.fields data := by
  intro f _ data
  rw [← f.parsed]
  exact unpackInside_iff f.fields data

/-- A nick of length one in a block of two bytes. -/
theorem unpackInside_serverFormats_nick :
    UnpackInside .little Format.sendUsers.text [1, 65] ↔
      Covered .little Format.sendUsers.fields [1, 65] :=
  unpackInside_serverFormats .little .sendUsers (by simp [serverFormats]) [1, 65]

/-- A nick of length zero at the end of the block: the unpacker looks for a NUL behind
the block. -/
theorem unpackInside_fails_emptyNick :
    ¬ ∀ f ∈ serverFormats, ∀ data : List UInt8, UnpackInside .little f.text data := by
  intro h
  have hnick := h .sendUsers (by simp [serverFormats]) [0]
  have hread : unpackData .little Format.sendUsers.text [0] = .error .outside := by
    rw [← Format.sendUsers.parsed, unpackData_render]
    decide
  exact hnick.reads hread

end C6
end IrC6
