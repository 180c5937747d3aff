import IrC6.Buffer.Segment
import IrC6.C6.Blob
import IrC6.C6.Server.Decode
import IrC6.Irc.Args
import IrC6.Md5.Digest

/-!
# The two logins

The server's HELO brings a key.  The client answers with the user's name and password in a
blob that is coded with a digest of the key, and later logs in with digests of a nick and of
its password, each with some bytes of the key behind it.

The strings that are digested lie in arrays of the stack.  A `Local` is such an array, with
whatever was in it, and a result of `none` is an access outside an array.
-/

namespace IrC6
namespace C6

open Buffer
open Irc (downcase)
open Md5 (copyAt digest)

/-- An array of `n` bytes that nothing has been stored in. -/
abbrev Local (n : Nat) := { bytes : List UInt8 // bytes.length = n }

/-- The bytes of a string in memory, which ends at its NUL. -/
def cString (mem : List UInt8) : Option (List UInt8) :=
  if 0 ∈ mem then some (mem.takeWhile (· ≠ 0)) else none

/-- `GenerKey`, with the buffer of its context. -/
def generKey (long : Long) (buffer : Local 64) (sorg : List UInt8) : Option (List UInt8) := do
  let str ← cString sorg
  let ctx ← Md5.md5Update (Md5.md5Starts buffer.val : Md5.Context long.bits) str
  Md5.md5Finish ctx

/-- What is done with each byte of a digest. -/
def printable (b : UInt8) : UInt8 := b % 0x5E + 0x20

/-- `Codifica`. -/
def codifica (long : Long) (buffer : Local 64) (tt : Local 30) (strCode : List UInt8)
    (strKeyServer : Key) (psw : Bool) : Option (List UInt8) := do
  let tt ←
    if psw then do
      let y := strCode.length
      let tt ← copyAt tt.val 0 strCode
      let tt ← copyAt tt y [strKeyServer ⟨0, by decide⟩]
      let tt ← copyAt tt (y + 1) [strKeyServer ⟨2, by decide⟩]
      copyAt tt (y + 2) [0]
    else do
      let tt ← copyAt tt.val 0 (ascii "ANOCI")
      -- The last letter of an empty string lies in front of it.
      let last ← strCode.getLast?
      let tt ← copyAt tt 5 [downcase last]
      let tt ← copyAt tt 6 [downcase (strCode.headD 0)]
      let tt ← copyAt tt 7 [strKeyServer ⟨4, by decide⟩]
      let tt ← copyAt tt 8 [strKeyServer ⟨2, by decide⟩]
      copyAt tt 9 [0]
  let strDest ← generKey long buffer tt
  return strDest.map printable

def c6NickEncode (long : Long) (buffer : Local 64) (tt : Local 30) (src : List UInt8)
    (serverKey : Key) : Option (List UInt8) :=
  codifica long buffer tt src serverKey false

def c6PassEncode (long : Long) (buffer : Local 64) (tt : Local 30) (src : List UInt8)
    (serverKey : Key) : Option (List UInt8) :=
  codifica long buffer tt src serverKey true

def c6SetMd5Key (long : Long) (buffer : Local 64) (key : List UInt8) : Option (List UInt8) := do
  let md5Key ← generKey long buffer key
  return md5Key.map printable

/-- The arrays of `c6_login` and of the functions that it calls. -/
structure LoginLocals where
  nickBuffer : Local 64
  nickTt : Local 30
  passBuffer : Local 64
  passTt : Local 30
  xxxPass : Local 9

/-- `C6_EMULE_VERS`. -/
def c6EmuleVers : Nat := 0x022d

/-- The arrays that `c6_login` fills: `cuser` and `cpass`. -/
def loginCodes (long : Long) (mem : LoginLocals) (serverKey : Key) (user pass : List UInt8) :
    Option (List UInt8 × List UInt8) := do
  let cuser ← c6NickEncode long mem.nickBuffer mem.nickTt user serverKey
  let xxxPass ← copyAt mem.xxxPass.val 0 ((pass ++ [0]).take (min 8 (pass.length + 1)))
  let xxxPass ← copyAt xxxPass 8 [0]
  let xxxPass ← cString xxxPass
  let cpass ← c6PassEncode long mem.passBuffer mem.passTt xxxPass serverKey
  return (cuser, cpass)

/-- `c6_login`, with `ip.s_addr`, which stands in front of the version in its arguments. -/
def c6Login (host : Endian) (long : Long) (mem : LoginLocals) (c : Client) (sAddr : Nat)
    (user pass : List UInt8) : Except Stop Sent :=
  match loginCodes long mem c.serverKey user pass with
  | none => .error .outside
  | some (cuser, cpass) =>
      handOver host c (bufNewPack host "\x10\x01%^hu%^hu%bu%s%bu%16p%bu%16p%^hu%u%Z\x14".toList
        [.int c.cltId.toNat, .int 0, .int (uint8 user.length), .str user, .int 16,
          .ptr (some cpass), .int 16, .ptr (some cuser), .int sAddr, .int c6EmuleVers])

/-! ## The key -/

/-- What `cmd_helo` has in its text behind the key. -/
def heloTail : List UInt8 := [0x4a, 0x4e, 0x42, 0x55, 0x25, 0x5e, 0x26, 0x43, 0x29, 0x25]

/-- `cmd_helo`: `md5_key`, and the packet of `c6_send_username`.  Nothing is done for a packet
that cannot be unpacked. -/
def cmdHelo (host : Endian) (long : Long) (buffer : Local 64) (c : Client)
    (user pass : List UInt8) (buf : List UInt8) :
    Except Stop (Option ((Fin 16 → UInt8) × Sent)) :=
  match c6Unpack host .helo buf with
  | .ok (_, [.ptr key]) =>
      let c := c.setServerKey fun i => key.getD i 0
      match bufNewPack host "%8p%10p%Z".toList
          [.ptr (some (List.ofFn c.serverKey)), .ptr (some heloTail)] with
      | .ok (some tmp) =>
          match c6SetMd5Key long buffer tmp with
          | some md5Key => do
              let md5Key := fun i : Fin 16 => md5Key.getD i 0
              let sent ← c6SendUsername host long md5Key c user pass
              return some (md5Key, sent)
          | none => .error .outside
      | .ok none => .error .outside
      | .error e => .error e
  | .ok _ => .error .badArg
  | .error .error => .ok none
  | .error e => .error e

/-! ## Strings in arrays -/

/-- An array of `n` bytes that begins with the bytes `s`. -/
structure Filled (n : Nat) (mem s : List UInt8) : Prop where
  length : mem.length = n
  starts : s <+: mem

theorem filled_nil {n : Nat} (mem : Local n) : Filled n mem.val [] :=
  ⟨mem.property, List.nil_prefix⟩

/-- The next bytes are stored. -/
theorem Filled.put {n : Nat} {mem s : List UInt8} (h : Filled n mem s) (bs : List UInt8)
    (hfits : s.length + bs.length ≤ n) :
    ∃ mem', copyAt mem s.length bs = some mem' ∧ Filled n mem' (s ++ bs) := by
  obtain ⟨rest, rfl⟩ := h.starts
  have hlen := h.length
  rw [List.length_append] at hlen
  refine ⟨s ++ bs ++ rest.drop bs.length, ?_, ?_, List.prefix_append _ _⟩
  · have hroom : s.length + bs.length ≤ (s ++ rest).length := by
      rw [h.length]
      exact hfits
    rw [copyAt, if_pos hroom, List.take_left, List.drop_append, Nat.add_sub_cancel_left,
      List.drop_eq_nil_of_le (Nat.le_add_right _ _), List.nil_append]
  · rw [List.length_append, List.length_append, List.length_drop]
    omega

theorem takeWhile_append_nul (s rest : List UInt8) :
    (s ++ 0 :: rest).takeWhile (· ≠ 0) = s.takeWhile (· ≠ 0) := by
  rw [List.takeWhile_append]
  split
  · rename_i hall
    rw [List.takeWhile_cons_of_neg (by simp), List.append_nil]
    exact (List.takeWhile_prefix _).eq_of_length hall |>.symm
  · rfl

theorem Filled.cString {n : Nat} {mem s : List UInt8} (h : Filled n mem (s ++ [0])) :
    cString mem = some (s.takeWhile (· ≠ 0)) := by
  obtain ⟨rest, rfl⟩ := h.starts
  rw [List.append_assoc, List.singleton_append, C6.cString,
    if_pos (List.mem_append_right _ List.mem_cons_self), takeWhile_append_nul]

/-- The digest of a string, as the client writes it. -/
def coded (s : List UInt8) : List UInt8 := (digest (s.takeWhile (· ≠ 0))).map printable

theorem Filled.generKey {n : Nat} {mem s : List UInt8} (h : Filled n mem (s ++ [0]))
    (hn : n < 2 ^ 29) (long : Long) (buffer : Local 64) :
    generKey long buffer mem = some (digest (s.takeWhile (· ≠ 0))) := by
  have hlen : (s.takeWhile (· ≠ 0)).length < 2 ^ 29 := by
    have hle := h.starts.length_le
    have hstr := length_takeWhile_le s
    rw [h.length, List.length_append] at hle
    omega
  obtain ⟨ctx, hrun, habsorbed⟩ :=
    (Md5.absorbed_starts long.le_bits buffer.property).update long.le_bits hlen
  have hfinish := habsorbed.finish long.le_bits
  rw [List.nil_append] at hfinish
  rw [C6.generKey, h.cString]
  simp only [Option.bind_eq_bind, Option.bind_some, hrun, hfinish]

/-! ## The codes -/

theorem key_mk (key : Key) : key ⟨0, by decide⟩ = key 0 ∧ key ⟨2, by decide⟩ = key 2 ∧
    key ⟨4, by decide⟩ = key 4 := ⟨rfl, rfl, rfl⟩

/-- A password is digested with the first and the third byte of the key behind it. -/
theorem codifica_pass (long : Long) (buffer : Local 64) (tt : Local 30) {strCode : List UInt8}
    (key : Key) (hfits : strCode.length + 3 ≤ 30) :
    codifica long buffer tt strCode key true = some (coded (strCode ++ [key 0, key 2])) := by
  obtain ⟨tt₁, hput₁, h₁⟩ := (filled_nil tt).put strCode (by simp; omega)
  rw [List.nil_append] at h₁
  obtain ⟨tt₂, hput₂, h₂⟩ := h₁.put [key 0] (by simp; omega)
  obtain ⟨tt₃, hput₃, h₃⟩ := h₂.put [key 2] (by simp; omega)
  obtain ⟨tt₄, hput₄, h₄⟩ := h₃.put [0] (by simp; omega)
  simp only [List.length_nil, List.length_append, List.length_cons, Nat.zero_add]
    at hput₁ hput₂ hput₃ hput₄
  have hkey := h₄.generKey (by decide) long buffer
  rw [List.append_assoc, List.singleton_append] at hkey
  simp only [codifica, if_true, key_mk, hput₁, hput₂, hput₃, hput₄, hkey, Option.bind_eq_bind,
    Option.bind_some, Option.pure_def, coded]

/-- Of a nick, the last and the first letter are digested. -/
theorem codifica_nick (long : Long) (buffer : Local 64) (tt : Local 30) (strCode : List UInt8)
    (key : Key) :
    codifica long buffer tt strCode key false = strCode.getLast?.map fun last =>
      coded (ascii "ANOCI" ++ [downcase last, downcase (strCode.headD 0), key 4, key 2]) := by
  have hlen : (ascii "ANOCI").length = 5 := rfl
  obtain ⟨tt₁, hput₁, h₁⟩ := (filled_nil tt).put (ascii "ANOCI") (by decide)
  rw [List.nil_append] at h₁
  rw [List.length_nil] at hput₁
  cases hlast : strCode.getLast? with
  | none =>
      simp only [codifica, hput₁, hlast, Option.bind_eq_bind, Option.bind_none,
        Bool.false_eq_true, if_false, Option.map_none, Option.bind_some]
  | some last =>
      obtain ⟨tt₂, hput₂, h₂⟩ := h₁.put [downcase last] (by simp [hlen])
      obtain ⟨tt₃, hput₃, h₃⟩ := h₂.put [downcase (strCode.headD 0)] (by simp [hlen])
      obtain ⟨tt₄, hput₄, h₄⟩ := h₃.put [key 4] (by simp [hlen])
      obtain ⟨tt₅, hput₅, h₅⟩ := h₄.put [key 2] (by simp [hlen])
      obtain ⟨tt₆, hput₆, h₆⟩ := h₅.put [0] (by simp [hlen])
      simp only [List.length_nil, List.length_append, List.length_cons, Nat.zero_add, hlen]
        at hput₂ hput₃ hput₄ hput₅ hput₆
      have hkey := h₆.generKey (by decide) long buffer
      simp only [List.append_assoc, List.cons_append, List.nil_append] at hkey
      simp only [codifica, hlast, Bool.false_eq_true, if_false, key_mk, hput₁, hput₂, hput₃, hput₄,
        hput₅, hput₆, hkey, Option.bind_eq_bind, Option.bind_some, Option.pure_def, Option.map_some,
        coded]

/-- Of a password, eight bytes are left. -/
theorem xxxPass_eq (xxxPass : Local 9) {pass : List UInt8} (hpass : 0 ∉ pass) :
    ∃ mem mem', copyAt xxxPass.val 0 ((pass ++ [0]).take (min 8 (pass.length + 1))) = some mem ∧
      copyAt mem 8 [0] = some mem' ∧ cString mem' = some (pass.take 8) := by
  have hk : ((pass ++ [0]).take (min 8 (pass.length + 1))).length ≤ 8 :=
    Nat.le_trans (List.length_take_le _ _) (Nat.min_le_left _ _)
  obtain ⟨mem, hput, h⟩ := (filled_nil xxxPass).put
    ((pass ++ [0]).take (min 8 (pass.length + 1))) (by rw [List.length_nil]; omega)
  rw [List.nil_append] at h
  have height : (mem.take 8).length = 8 := by
    rw [List.length_take, h.length]
    decide
  obtain ⟨mem', hput', h'⟩ : ∃ mem', copyAt mem (mem.take 8).length [0] = some mem' ∧
      Filled 9 mem' (mem.take 8 ++ [0]) :=
    Filled.put ⟨h.length, List.take_prefix 8 mem⟩ [0] (by rw [height]; decide)
  rw [height] at hput'
  refine ⟨mem, mem', hput, hput', h'.cString.trans (congrArg some ?_)⟩
  obtain ⟨rest, rfl⟩ := h.starts
  by_cases hshort : pass.length < 8
  · have hwhole : (pass ++ [0]).take (min 8 (pass.length + 1)) = pass ++ [0] := by
      rw [Nat.min_eq_right (by omega)]
      exact List.take_of_length_le (Nat.le_of_eq List.length_append)
    obtain ⟨k, hk8⟩ : ∃ k, 8 - pass.length = k + 1 := ⟨7 - pass.length, by omega⟩
    have hpass8 : pass.take 8 = pass := List.take_of_length_le (by omega)
    rw [hwhole, List.append_assoc, List.singleton_append, List.take_append, hpass8, hk8,
      List.take_succ_cons, takeWhile_append_nul, takeWhile_noNul hpass]
  · have hcut : (pass ++ [0]).take (min 8 (pass.length + 1)) = pass.take 8 := by
      rw [Nat.min_eq_left (by omega)]
      exact List.take_append_of_le_length (by omega)
    have hlen : (pass.take 8).length = 8 := by
      rw [List.length_take]
      omega
    rw [hcut, List.take_left' hlen]
    exact takeWhile_noNul fun hmem => hpass (List.mem_of_mem_take hmem)

/-- The codes of a login: the last and the first letter of the nick, and the first eight bytes
of the password. -/
theorem loginCodes_eq (long : Long) (mem : LoginLocals) (key : Key) (user : List UInt8)
    {pass : List UInt8} (hpass : 0 ∉ pass) :
    loginCodes long mem key user pass = user.getLast?.map fun last =>
      (coded (ascii "ANOCI" ++ [downcase last, downcase (user.headD 0), key 4, key 2]),
        coded (pass.take 8 ++ [key 0, key 2])) := by
  obtain ⟨xxx, xxx', hput, hput', hstr⟩ := xxxPass_eq mem.xxxPass hpass
  have hfits : (pass.take 8).length + 3 ≤ 30 := by
    rw [List.length_take]
    omega
  simp only [loginCodes, c6NickEncode, c6PassEncode, codifica_nick, hput, hput', hstr,
    codifica_pass long _ _ key hfits, Option.bind_eq_bind, Option.bind_some, Option.pure_def]
  cases user.getLast? <;> rfl

theorem toNat_printable (b : UInt8) : (printable b).toNat = b.toNat % 94 + 32 := by
  rw [printable, UInt8.toNat_add, UInt8.toNat_mod]
  have hmod : b.toNat % 94 < 94 := Nat.mod_lt _ (by decide)
  exact Nat.mod_eq_of_lt (Nat.lt_trans (Nat.add_lt_add_right hmod 32) (by decide))

theorem length_coded (s : List UInt8) : (coded s).length = 16 := by
  rw [coded, List.length_map, Md5.length_digest]

/-- A code is made of printable characters. -/
theorem coded_printable {s : List UInt8} {b : UInt8} (hb : b ∈ coded s) :
    32 ≤ b.toNat ∧ b.toNat < 126 := by
  obtain ⟨d, -, rfl⟩ := List.mem_map.mp hb
  rw [toNat_printable]
  omega

/-! ## The packet of the login -/

/-- The login as a layout.  The protocol document has the version in front of the address. -/
def loginPayload (host : Endian) (c : Client) (sAddr : Nat) (user cpass cuser : List UInt8) :
    List UInt8 :=
  [0x10, 0x01] ++ Endian.big.bytes 2 c.cltId.toNat ++ [0, 0] ++ UInt8.ofNat user.length :: user ++
    16 :: cpass ++ 16 :: cuser ++ Endian.big.bytes 2 sAddr ++ host.bytes 4 c6EmuleVers ++ [0, 0x14]

theorem bytes_uint8 (host : Endian) (n : Nat) : host.bytes 1 (uint8 n) = [UInt8.ofNat n] := by
  have hcast : UInt8.ofNat (uint8 n) = UInt8.ofNat n := UInt8.ofNat_mod_size
  cases host with
  | little => exact congrArg (fun b => [b]) hcast
  | big => exact congrArg (fun b => [b]) hcast

theorem bytes_zero : Endian.big.bytes 2 0 = [0, 0] := rfl

theorem bufNewPack_login (host : Endian) (c : Client) (sAddr : Nat)
    {user cpass cuser : List UInt8} (hpass : cpass.length = 16) (huser : cuser.length = 16) :
    bufNewPack host "\x10\x01%^hu%^hu%bu%s%bu%16p%bu%16p%^hu%u%Z\x14".toList
      [.int c.cltId.toNat, .int 0, .int (uint8 user.length), .str user, .int 16,
        .ptr (some cpass), .int 16, .ptr (some cuser), .int sAddr, .int c6EmuleVers] =
      .ok (some (loginPayload host c sAddr user cpass cuser)) := by
  let s : Segment host := .join [.ofPiece (.lit 0x10 (by decide)), .ofPiece (.lit 0x01 (by decide)),
    .ofPiece (.num ⟨.short, true⟩ c.cltId.toNat), .ofPiece (.num ⟨.short, true⟩ 0),
    .ofPiece (.num ⟨.byte, false⟩ (uint8 user.length)), .ofPiece (.str user),
    .ofPiece (.num ⟨.byte, false⟩ 16), .ofValue (.raw cpass (by omega)),
    .ofPiece (.num ⟨.byte, false⟩ 16), .ofValue (.raw cuser (by omega)),
    .ofPiece (.num ⟨.short, true⟩ sAddr), .ofPiece (.num ⟨.int, false⟩ c6EmuleVers),
    .ofPiece .nul, .ofPiece (.lit 0x14 (by decide))]
  have hpack := s.bufNewPack_eq (Nat.succ_pos _)
  have hformat : s.format = "\x10\x01%^hu%^hu%bu%s%bu%16p%bu%16p%^hu%u%Z\x14".toList := by
    simp only [s, Segment.join, Segment.ofPiece, Segment.ofValue, Piece.format, Value.packFormat,
      Value.field, Field.render, hpass, huser]
    rfl
  have hbytes : s.bytes = loginPayload host c sAddr user cpass cuser := by
    have hlen : host.bytes 1 16 = [16] := bytes_uint8 host 16
    simp only [s, Segment.join, Segment.ofPiece, Segment.ofValue, Piece.bytes, Value.encode,
      Num.order, Width.size, sizeChar, sizeShort, sizeInt, Bool.false_eq_true, if_false, if_true,
      bytes_uint8, hlen, bytes_zero, loginPayload, List.append_assoc, List.cons_append,
      List.nil_append, List.append_nil]
  rw [hformat, hbytes] at hpack
  exact hpack

/-! ## The conversation -/

/-- The key of the blobs, which is a digest of the server's key. -/
def blobKey (key : Key) : Fin 16 → UInt8 := fun i => (coded (List.ofFn key ++ heloTail)).getD i 0

theorem c6Unpack_helo (host : Endian) (key : Key) (tail : List UInt8) :
    c6Unpack host .helo (0 :: 2 :: 8 :: (List.ofFn key ++ tail)) =
      .ok (11, [.ptr (List.ofFn key)]) := by
  have hlen : (List.ofFn key).length = 8 := List.length_ofFn
  have hread := readFields_encode host [.nul, .lit 2 (by decide), .lit 8 (by decide),
    .raw (List.ofFn key) (by omega)] tail
  have hfields : [Value.nul, .lit 2 (by decide), .lit 8 (by decide),
      .raw (List.ofFn key) (by omega)].map Value.field = Format.helo.fields := by
    simp only [List.map_cons, List.map_nil, Value.field, hlen]
    rfl
  rw [hfields] at hread
  have hused : (encode host [.nul, .lit 2 (by decide), .lit 8 (by decide),
      .raw (List.ofFn key) (by omega)]).length = 11 := by
    simp [encode, Value.encode]
  rw [hused] at hread
  refine c6Unpack_eq_ok.mpr ⟨[.ptr (List.ofFn key)], ?_, rfl⟩
  simpa [encode, Value.encode, outs, Value.outs] using hread

theorem c6SetMd5Key_helo (host : Endian) (long : Long) (buffer : Local 64) (key : Key) :
    ∃ tmp, bufNewPack host "%8p%10p%Z".toList
        [.ptr (some (List.ofFn key)), .ptr (some heloTail)] = .ok (some tmp) ∧
      c6SetMd5Key long buffer tmp = some (coded (List.ofFn key ++ heloTail)) := by
  have hlen : (List.ofFn key).length = 8 := List.length_ofFn
  have hne : [Value.raw (List.ofFn key) (by omega), .raw heloTail (by decide), .nul] ≠ [] :=
    List.cons_ne_nil _ _
  have hpack := bufNewPack_values host hne
  have hformat : packFormat [Value.raw (List.ofFn key) (by omega), .raw heloTail (by decide),
      .nul] = "%8p%10p%Z".toList := by
    simp only [packFormat, List.flatMap_cons, List.flatMap_nil, Value.packFormat, Value.field,
      Field.render, hlen]
    rfl
  rw [hformat] at hpack
  refine ⟨List.ofFn key ++ heloTail ++ [0], ?_, ?_⟩
  · simpa [encode, Value.encode, packArgs, Value.args] using hpack
  · have hfilled : Filled 19 (List.ofFn key ++ heloTail ++ [0])
        (List.ofFn key ++ heloTail ++ [0]) := ⟨by simp [heloTail], List.prefix_rfl⟩
    rw [c6SetMd5Key, hfilled.generKey (by decide)]
    rfl

/-- What the server sees of a packet, with the documented algorithm. -/
def received (key : Key) (packet : List UInt8) : List UInt8 :=
  docXorCode (ordinaKeyServer key) (packet.drop headSize)

theorem received_sent {c : Client} {key : Key} (hkey : c.reorderedKey = reorderKeyServer key)
    (payload : List UInt8) : received key (c.sent payload).packet = patchLen payload := by
  have hhead : (outerHead c.cltId.toNat payload.length).length = headSize := by
    simp [outerHead, sizeShort, headSize]
  rw [received, Client.sent, Client.packetFor, List.drop_left' hhead, hkey]
  exact docXorCode_packetEncode key (patchLen payload)

/-- The answer to HELO.  The server finds the name and the password in the blob, and the blobs
that it codes itself are decoded, whatever the two sizes of `unsigned long`. -/
theorem cmdHelo_received (host : Endian) (long : Long) (buffer : Local 64) (c : Client)
    (user pass : List UInt8) (key : Key) (tail : List UInt8) :
    ∃ sent blob, cmdHelo host long buffer c user pass
        (0 :: 2 :: 8 :: (List.ofFn key ++ tail)) = .ok (some (blobKey key, sent)) ∧
      sent.client = { c.setServerKey key with cltId := c.cltId + 1 } ∧
      received key sent.packet = patchLen ([0x10, 0x31] ++ Endian.big.bytes 2 c.cltId.toNat ++
        [0, 0, 12] ++ ascii "nicksforuser" ++ Endian.big.bytes 2 blob.length ++ blob ++
        [0x02, 0x2d]) ∧
      ∀ long' : Long, loginText user pass <+: c6DecodeXmlBlob long' blob (blobKey key) ∧
        ∀ text, c6DecodeXmlBlob long (c6EncodeXmlBlob long' text (blobKey key)) (blobKey key) =
          text := by
  have hkey : (fun i : Fin 8 => (List.ofFn key).getD i 0) = key := by
    funext i
    rw [List.getD_eq_getElem?_getD, List.getElem?_ofFn, dif_pos i.isLt, Option.getD_some]
  obtain ⟨tmp, hpack, hmd5⟩ := c6SetMd5Key_helo host long buffer key
  obtain ⟨blob, hsend, htext⟩ :=
    c6SendUsername_blob host long (blobKey key) (c.setServerKey key) user pass
  have hhelo := show cmdHelo host long buffer c user pass
      (0 :: 2 :: 8 :: (List.ofFn key ++ tail)) = .ok (some (blobKey key, _)) by
    rw [cmdHelo, c6Unpack_helo]
    simp only [hkey, show (c.setServerKey key).serverKey = key from rfl, hpack, hmd5]
    exact congrArg (fun r : Except Stop Sent => r.bind fun sent => .ok (some (blobKey key, sent)))
      hsend
  refine ⟨_, blob, hhelo, rfl, ?_, fun long' => ⟨?_, fun text => ?_⟩⟩
  · rw [received_sent rfl]
    refine congrArg patchLen ?_
    have hlen : host.bytes 1 12 = [12] := bytes_uint8 host 12
    have hcast : Endian.big.bytes 2 (uint16 blob.length) = Endian.big.bytes 2 blob.length :=
      Endian.bytes_mod .big 2 blob.length
    simp only [layoutBytes, List.flatMap_cons, List.flatMap_nil, Piece.bytes, Num.order,
      Width.size, sizeChar, sizeShort, Bool.false_eq_true, if_false, if_true, hlen, bytes_zero,
      hcast, List.append_assoc, List.cons_append, List.nil_append, List.append_nil]
    rfl
  · rw [c6DecodeXmlBlob_eq] at htext ⊢
    exact htext
  · have hcount := blockCount_le text.length
    rw [c6DecodeXmlBlob_eq, c6EncodeXmlBlob_eq, length_eachBlock (length_codeBlock _)]
    exact eachBlock_eachBlock (length_codeBlock _)
      (codeBlock_codeBlock (Blowfish.decrypt_encrypt _)) hcount

theorem c6Login_eq (host : Endian) (long : Long) (mem : LoginLocals) (c : Client) (sAddr : Nat)
    {user pass : List UInt8} (hpass : 0 ∉ pass) {last : UInt8} (hlast : user.getLast? = some last) :
    c6Login host long mem c sAddr user pass = .ok (c.sent (loginPayload host c sAddr user
      (coded (pass.take 8 ++ [c.serverKey 0, c.serverKey 2]))
      (coded (ascii "ANOCI" ++
        [downcase last, downcase (user.headD 0), c.serverKey 4, c.serverKey 2])))) := by
  have hhead : ∀ cpass cuser : List UInt8,
      headSize ≤ (loginPayload host c sAddr user cpass cuser).length := by
    intro cpass cuser
    simp only [loginPayload, headSize, List.length_append, List.length_cons, Endian.length_bytes]
    omega
  rw [c6Login, loginCodes_eq long mem c.serverKey user hpass, hlast]
  simp only [Option.map_some, bufNewPack_login host c sAddr (length_coded _) (length_coded _),
    handOver, c6Send_eq host c (hhead _ _)]
  rfl

/-- The login.  The server finds the nick, and codes that depend on the nick's last and first
letter, on the first eight bytes of the password and on three bytes of its key.  A nick without
a letter is read in front of its array. -/
theorem c6Login_received (host : Endian) (long : Long) (mem : LoginLocals) (c : Client)
    (key : Key) (sAddr : Nat) (user pass : List UInt8) (hpass : 0 ∉ pass) :
    (user = [] → c6Login host long mem (c.setServerKey key) sAddr user pass = .error .outside) ∧
    ∀ last, user.getLast? = some last → ∃ sent cpass cuser,
      c6Login host long mem (c.setServerKey key) sAddr user pass = .ok sent ∧
      sent.client = { c.setServerKey key with cltId := c.cltId + 1 } ∧
      received key sent.packet = patchLen (loginPayload host c sAddr user cpass cuser) ∧
      cpass = coded (pass.take 8 ++ [key 0, key 2]) ∧
      cuser = coded (ascii "ANOCI" ++
        [downcase last, downcase (user.headD 0), key 4, key 2]) ∧
      ∀ b ∈ cpass ++ cuser, 32 ≤ b.toNat ∧ b.toNat < 126 := by
  refine ⟨fun hempty => ?_, fun last hlast => ?_⟩
  · have hcodes := loginCodes_eq long mem key user hpass
    subst hempty
    rw [c6Login, show (c.setServerKey key).serverKey = key from rfl, hcodes]
    rfl
  · have hlogin := c6Login_eq host long mem (c.setServerKey key) sAddr hpass hlast
    refine ⟨_, _, _, hlogin, rfl, received_sent rfl _, rfl, rfl, fun b hb => ?_⟩
    rcases List.mem_append.mp hb with hb | hb
    · exact coded_printable hb
    · exact coded_printable hb

/-- The nick `al` with the password `b`. -/
theorem c6Login_received_al :
    let zeros : LoginLocals := ⟨⟨List.replicate 64 0, rfl⟩, ⟨List.replicate 30 0, rfl⟩,
      ⟨List.replicate 64 0, rfl⟩, ⟨List.replicate 30 0, rfl⟩, ⟨List.replicate 9 0, rfl⟩⟩
    ∃ sent, c6Login .little .lp64 zeros (connectionNew.setServerKey fun _ => 5) 0 [97, 108] [98] =
        .ok sent ∧
      received (fun _ => 5) sent.packet = patchLen (loginPayload .little connectionNew 0 [97, 108]
        (coded [98, 5, 5]) (coded (ascii "ANOCI" ++ [108, 97, 5, 5]))) := by
  intro zeros
  obtain ⟨sent, cpass, cuser, hlogin, -, hpacket, rfl, rfl, -⟩ :=
    (c6Login_received .little .lp64 zeros connectionNew (fun _ => 5) 0 [97, 108] [98]
      (by decide)).2 108 rfl
  exact ⟨sent, hlogin, hpacket⟩

end C6
end IrC6
