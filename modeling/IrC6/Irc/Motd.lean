import IrC6.Buffer.Text
import IrC6.Irc.Welcome

/-!
# The message of the day

`irc_out_welcome` walks once over the text of the welcome, and `msg` is where the part that
is not sent yet begins.  A newline ends a part, and so does a part of `linemax` bytes.
`ShownWhole` says that the parts are the lines of the text, each cut into pieces.  After a
newline `msg` stays on what the newline has become, so nothing behind it is shown right.
-/

namespace IrC6
namespace Irc

/-- What stands before the text in a row of the message. -/
def motdhead (st : State) : List UInt8 :=
  ascii ":" ++ serv ++ ascii " 372 " ++ st.nick.text ++ ascii " :- "

/-- The texts of the rows `372` of a welcome. -/
def motdTexts (rows : List (Greeting × List (List UInt8))) : List (List UInt8) :=
  rows.filterMap fun row => if row.1 = .motd then row.2.getLast? else none

/-- How many bytes of `mbuf` the loop writes, each time that it copies into it. -/
def mbufWrites (linemax : Nat) : List UInt8 → List UInt8 → List Nat
  | buf, [] => if buf = [] then [] else [buf.length + 1]
  | buf, b :: rest =>
      if b = 10 then
        if buf.getLast? = some 13 then mbufWrites linemax [10] rest
        else mbufWrites linemax [0] rest
      else if buf.length = linemax then (buf.length + 1) :: mbufWrites linemax [b] rest
      else mbufWrites linemax (buf ++ [b]) rest

/-! ## What the parts should be -/

/-- The lines of a text, without the `\n` or `\r\n` that ends them.  `line` is what has been
read of the first one. -/
def textLines : List UInt8 → List UInt8 → List (List UInt8)
  | line, [] => [line]
  | line, b :: rest =>
      if b = 10 then
        (if line.getLast? = some 13 then line.dropLast else line) :: textLines [] rest
      else textLines (line ++ [b]) rest

/-- The parts are shown whole: taken in order they come in groups, one for each line of the
text, that the line is put together from. -/
structure ShownWhole (linemax : Nat) (msg : List UInt8) (parts : List (List UInt8))
    (writes : List Nat) : Prop where
  whole : ∃ groups : List (List (List UInt8)),
    groups.flatten = parts ∧ groups.map List.flatten = textLines [] msg
  short : ∀ part ∈ parts, part.length ≤ linemax
  noNewline : ∀ part ∈ parts, 10 ∉ part
  inside : ∀ n ∈ writes, n ≤ 80

/-- A text of one line.  Newlines may stand behind it, but no `\r` before the first. -/
def OneLine (msg : List UInt8) : Prop :=
  ∃ body k, msg = body ++ List.replicate k 10 ∧ 10 ∉ body ∧
    (k = 0 ∨ body.getLast? ≠ some 13)

theorem motdTexts_greeting (p : Program) (st : State) (msg : List UInt8) :
    motdTexts (greeting p st msg) = motdLines (80 - (motdhead st).length) [] msg := by
  have hrows : ∀ texts : List (List UInt8),
      (texts.map fun text => (Greeting.motd, [serv, st.nick.text, text])).filterMap
        (fun row => if row.1 = .motd then row.2.getLast? else none) = texts := by
    intro texts
    induction texts with
    | nil => rfl
    | cons text texts ih => simp only [List.map_cons, List.filterMap_cons, if_pos,
        List.getLast?_cons_cons, List.getLast?_singleton, ih]
  simp only [motdTexts, greeting, List.filterMap_append, hrows]
  simp [motdhead]

/-- A row has room for a character at least, and `mbuf` for a row. -/
theorem linemax_bounds (st : State) :
    1 < 80 - (motdhead st).length ∧ 80 - (motdhead st).length < 80 := by
  have hnick := st.nick.fits
  have hlen : (motdhead st).length = 14 + st.nick.text.length := by
    simp only [motdhead, serv, List.length_append]
    have : (ascii ":").length = 1 ∧ (ascii "irC6").length = 4 ∧ (ascii " 372 ").length = 5 ∧
        (ascii " :- ").length = 4 := by decide
    omega
  omega

section Parts

variable {linemax : Nat}

theorem printed_of_not_mem {buf : List UInt8} (h : 0 ∉ buf) : printed buf = buf :=
  takeWhile_noNul h

theorem printed_length_le (buf : List UInt8) : (printed buf).length ≤ buf.length :=
  Buffer.length_takeWhile_le buf

/-- The parts never get longer than a row, whatever the text is. -/
theorem motdLines_short (hmax : 0 < linemax) {buf : List UInt8} (rest : List UInt8)
    (hbuf : buf.length ≤ linemax) : ∀ part ∈ motdLines linemax buf rest, part.length ≤ linemax := by
  induction rest generalizing buf with
  | nil =>
      intro part hpart
      simp only [motdLines] at hpart
      split at hpart
      · nomatch hpart
      · rw [List.mem_singleton.mp hpart]
        exact (printed_length_le _).trans hbuf
  | cons b rest ih =>
      have hone : ∀ c : UInt8, [c].length ≤ linemax := fun _ => hmax
      intro part hpart
      simp only [motdLines] at hpart
      split at hpart
      · split at hpart
        · rcases List.mem_cons.mp hpart with rfl | hpart
          · have hdrop := printed_length_le buf.dropLast
            rw [List.length_dropLast] at hdrop
            omega
          · exact ih (hone 10) part hpart
        · rcases List.mem_cons.mp hpart with rfl | hpart
          · exact (printed_length_le _).trans hbuf
          · exact ih (hone 0) part hpart
      · split at hpart
        · rcases List.mem_cons.mp hpart with rfl | hpart
          · exact (printed_length_le _).trans hbuf
          · exact ih (hone b) part hpart
        · refine ih ?_ part hpart
          simp only [List.length_append, List.length_cons, List.length_nil]
          omega

theorem mbufWrites_le (hmax : 0 < linemax) {buf : List UInt8} (rest : List UInt8)
    (hbuf : buf.length ≤ linemax) : ∀ n ∈ mbufWrites linemax buf rest, n ≤ linemax + 1 := by
  induction rest generalizing buf with
  | nil =>
      intro n hn
      simp only [mbufWrites] at hn
      split at hn
      · nomatch hn
      · rw [List.mem_singleton.mp hn]
        omega
  | cons b rest ih =>
      have hone : ∀ c : UInt8, [c].length ≤ linemax := fun _ => hmax
      intro n hn
      simp only [mbufWrites] at hn
      split at hn
      · split at hn
        · exact ih (hone 10) n hn
        · exact ih (hone 0) n hn
      · split at hn
        · rcases List.mem_cons.mp hn with rfl | hn
          · omega
          · exact ih (hone b) n hn
        · refine ih ?_ n hn
          simp only [List.length_append, List.length_cons, List.length_nil]
          omega

/-- Up to the next newline the parts that are sent and the one that is begun are the text. -/
theorem motdLines_append (hmax : 0 < linemax) (rest : List UInt8) {body buf : List UInt8}
    (hbuf : buf.length ≤ linemax) (hnul : 0 ∉ buf ++ body) (hbody : 10 ∉ body) :
    ∃ sent buf', motdLines linemax buf (body ++ rest) = sent ++ motdLines linemax buf' rest ∧
      sent.flatten ++ buf' = buf ++ body ∧ buf'.getLast? = (buf ++ body).getLast? := by
  induction body generalizing buf with
  | nil => exact ⟨[], buf, rfl, by simp, by simp⟩
  | cons b body ih =>
      have hb : b ≠ 10 := fun h => hbody (h ▸ List.mem_cons_self)
      have hrest : 10 ∉ body := fun h => hbody (List.mem_cons_of_mem _ h)
      by_cases hfull : buf.length = linemax
      · have hnul' : 0 ∉ [b] ++ body := fun h => hnul (List.mem_append_right _ h)
        have hone : [b].length ≤ linemax := hmax
        rcases ih hone hnul' hrest with ⟨sent, buf', heq, hflat, hlast⟩
        have hprinted : printed buf = buf :=
          printed_of_not_mem fun h => hnul (List.mem_append_left _ h)
        refine ⟨buf :: sent, buf', ?_, ?_, ?_⟩
        · simp only [List.cons_append, motdLines, if_neg hb, if_pos hfull, hprinted, heq]
        · rw [List.flatten_cons, List.append_assoc, hflat]
          rfl
        · rw [hlast, List.getLast?_append, List.getLast?_append]
          simp [List.getLast?_cons]
      · have hroom : (buf ++ [b]).length ≤ linemax := by
          simp only [List.length_append, List.length_cons, List.length_nil]
          omega
        have hassoc : buf ++ [b] ++ body = buf ++ b :: body := by simp
        rcases ih hroom (hassoc ▸ hnul) hrest with ⟨sent, buf', heq, hflat, hlast⟩
        refine ⟨sent, buf', ?_, hflat.trans hassoc, hlast.trans (congrArg _ hassoc)⟩
        simp only [List.cons_append, motdLines, if_neg hb, if_neg hfull, heq]

/-- The newline of a `\r\n` is at the start of the next part. -/
theorem newline_mem_motdLines (linemax : Nat) (buf rest : List UInt8) :
    ∃ part ∈ motdLines linemax (10 :: buf) rest, 10 ∈ part := by
  have hhead : ∀ xs : List UInt8, 10 ∈ printed (10 :: xs) := by
    intro xs
    unfold printed
    rw [List.takeWhile_cons_of_pos (by decide)]
    exact List.mem_cons_self
  induction rest generalizing buf with
  | nil => exact ⟨_, List.mem_singleton.mpr rfl, hhead buf⟩
  | cons b rest ih =>
      rw [motdLines]
      split
      · split
        · rename_i hlast
          cases buf with
          | nil => simp at hlast
          | cons c buf => exact ⟨_, List.mem_cons_self, hhead _⟩
        · exact ⟨_, List.mem_cons_self, hhead buf⟩
      · split
        · exact ⟨_, List.mem_cons_self, hhead buf⟩
        · exact ih (buf ++ [b])

/-! ## How many bytes are shown -/

/-- The bytes of a text other than newlines. -/
def shown (xs : List UInt8) : Nat := xs.countP (· ≠ 10)

theorem shown_append (xs ys : List UInt8) : shown (xs ++ ys) = shown xs + shown ys :=
  List.countP_append

theorem shown_eq_length {xs : List UInt8} (h : 10 ∉ xs) : shown xs = xs.length := by
  refine List.countP_eq_length.mpr fun b hb => ?_
  simp only [ne_eq, decide_eq_true_eq]
  rintro rfl
  exact h hb

theorem printed_append (xs ys : List UInt8) :
    printed (xs ++ ys) = if 0 ∈ xs then printed xs else xs ++ printed ys := by
  unfold printed
  by_cases h : 0 ∈ xs
  · rw [if_pos h, List.takeWhile_append, if_neg]
    exact fun heq => absurd (Buffer.length_takeWhile_lt h) (Nat.not_lt.mpr heq.ge)
  · rw [if_neg h, List.takeWhile_append_of_pos]
    intro b hb
    simp only [ne_eq, decide_eq_true_eq]
    rintro rfl
    exact h hb

theorem shown_printed_append (xs ys : List UInt8) :
    shown (printed xs) ≤ shown (printed (xs ++ ys)) ∧
      shown (printed (xs ++ ys)) ≤ shown (printed xs) + shown ys := by
  rw [printed_append]
  split
  · exact ⟨Nat.le_refl _, Nat.le_add_right _ _⟩
  · rename_i h
    have hys : shown (printed ys) ≤ shown ys :=
      List.Sublist.countP_le (List.takeWhile_sublist _)
    rw [printed_of_not_mem h, shown_append]
    omega

/-- The parts never show more than the text has. -/
theorem shown_motdLines_le (linemax : Nat) (buf rest : List UInt8) :
    shown (motdLines linemax buf rest).flatten ≤ shown (printed buf) + shown rest := by
  induction rest generalizing buf with
  | nil =>
      rw [motdLines]
      split
      · exact Nat.zero_le _
      · simp [shown]
  | cons b rest ih =>
      have hcons : shown (b :: rest) = shown [b] + shown rest := shown_append [b] rest
      have hnewline : shown (printed [10]) = 0 ∧ shown (printed [0]) = 0 := by decide
      rw [motdLines, hcons]
      split
      · split
        · rename_i hlast
          have hbuf : buf.dropLast ++ [13] = buf := List.dropLast_append_getLast? 13 hlast
          have hdrop := (shown_printed_append buf.dropLast [13]).1
          rw [hbuf] at hdrop
          have := ih [10]
          rw [List.flatten_cons, shown_append]
          omega
        · have := ih [0]
          rw [List.flatten_cons, shown_append]
          omega
      · split
        · have := ih [b]
          have hone := (shown_printed_append [] [b]).2
          have hnil : shown (printed []) = 0 := rfl
          rw [List.nil_append] at hone
          rw [List.flatten_cons, shown_append]
          omega
        · have := ih (buf ++ [b])
          have := (shown_printed_append buf [b]).2
          omega

/-- Behind a newline the first byte of the text is lost, for `msg` is on a NUL. -/
theorem shown_motdLines_lt (hmax : 1 < linemax) {rest : List UInt8}
    (h : ∃ b ∈ rest, b ≠ 10) : shown (motdLines linemax [0] rest).flatten < shown rest := by
  induction rest with
  | nil => exact absurd h (by simp)
  | cons b rest ih =>
      have hcons : shown (b :: rest) = shown [b] + shown rest := shown_append [b] rest
      by_cases hb : b = 10
      · subst hb
        rcases h with ⟨c, hc, hne⟩
        rcases List.mem_cons.mp hc with rfl | hc
        · exact absurd rfl hne
        · have hlines : motdLines linemax [0] (10 :: rest) = [] :: motdLines linemax [0] rest :=
            if_pos rfl
          have := ih ⟨c, hc, hne⟩
          rw [hlines, List.flatten_cons, List.nil_append, hcons]
          omega
      · have hlines : motdLines linemax [0] (b :: rest) = motdLines linemax [0, b] rest := by
          rw [motdLines, if_neg hb, if_neg]
          · rfl
          · exact Nat.ne_of_lt hmax
        have hle := shown_motdLines_le linemax [0, b] rest
        have hnil : shown (printed [0, b]) = 0 := rfl
        have hone : shown [b] = 1 := shown_eq_length (by simpa using Ne.symm hb)
        rw [hlines, hcons]
        omega

/-- Where no part has a newline, none of the text's has a `\r` in front. -/
theorem textLines_length {line buf rest : List UInt8}
    (hlast : line.getLast? = some 13 ↔ buf.getLast? = some 13)
    (hparts : ∀ part ∈ motdLines linemax buf rest, 10 ∉ part) :
    (textLines line rest).flatten.length = line.length + shown rest := by
  induction rest generalizing line buf with
  | nil => simp [textLines, shown]
  | cons b rest ih =>
      have hcons : shown (b :: rest) = shown [b] + shown rest := shown_append [b] rest
      have hend : ∀ xs ys : List UInt8,
          (xs ++ [b]).getLast? = some 13 ↔ (ys ++ [b]).getLast? = some 13 := fun xs ys => by
        rw [List.getLast?_concat, List.getLast?_concat]
      rw [motdLines] at hparts
      rw [textLines, hcons]
      by_cases hb : b = 10
      · subst hb
        rw [if_pos rfl] at hparts ⊢
        have hnone : shown [10] = 0 := rfl
        by_cases hcr : buf.getLast? = some 13
        · rw [if_pos hcr] at hparts
          rcases newline_mem_motdLines linemax [] rest with ⟨part, hpart, hmem⟩
          exact absurd hmem (hparts part (List.mem_cons_of_mem _ hpart))
        · have hnext : ([] : List UInt8).getLast? = some 13 ↔ [(0 : UInt8)].getLast? = some 13 := by
            decide
          rw [if_neg hcr] at hparts
          have hrest := ih hnext (fun part hpart => hparts part (List.mem_cons_of_mem _ hpart))
          rw [if_neg (fun h => hcr (hlast.mp h)), List.flatten_cons, List.length_append, hrest,
            List.length_nil]
          omega
      · have hone : shown [b] = 1 := shown_eq_length (by simpa using Ne.symm hb)
        have hline : (line ++ [b]).length = line.length + 1 := by simp
        rw [if_neg hb] at hparts ⊢
        split at hparts
        · rw [ih (hend line []) (fun part hpart => hparts part (List.mem_cons_of_mem _ hpart))]
          omega
        · rw [ih (hend line buf) hparts]
          omega

/-! ## When the message is shown whole -/

theorem textLines_append {body : List UInt8} (hbody : 10 ∉ body) (line rest : List UInt8) :
    textLines line (body ++ rest) = textLines (line ++ body) rest := by
  induction body generalizing line with
  | nil => rw [List.append_nil, List.nil_append]
  | cons b body ih =>
      have hb : b ≠ 10 := fun h => hbody (h ▸ List.mem_cons_self)
      rw [List.cons_append, textLines, if_neg hb, ih (fun h => hbody (List.mem_cons_of_mem _ h)),
        List.append_assoc]
      rfl

/-- Newlines behind a newline are lines of nothing, and are shown so. -/
theorem newlines_only (linemax : Nat) (k : Nat) :
    motdLines linemax [0] (List.replicate k 10) = List.replicate (k + 1) [] ∧
      textLines [] (List.replicate k 10) = List.replicate (k + 1) [] := by
  induction k with
  | zero => exact ⟨rfl, rfl⟩
  | succ k ih =>
      have hlines : ∀ rest,
          motdLines linemax [0] (10 :: rest) = [] :: motdLines linemax [0] rest ∧
            textLines [] (10 :: rest) = [] :: textLines [] rest := fun _ => ⟨rfl, rfl⟩
      rw [List.replicate_succ, (hlines _).1, (hlines _).2, ih.1, ih.2]
      exact ⟨rfl, rfl⟩

/-- What is left at the end of the text is the last part, if it is anything. -/
theorem motdLines_end (linemax : Nat) {buf : List UInt8} (hnewline : 10 ∉ buf) (hnul : 0 ∉ buf) :
    (motdLines linemax buf []).flatten = buf ∧ ∀ part ∈ motdLines linemax buf [], 10 ∉ part := by
  rw [motdLines]
  split
  · rename_i hnil
    exact ⟨hnil.symm, fun part hpart => nomatch hpart⟩
  · rw [printed_of_not_mem hnul]
    exact ⟨List.flatten_singleton .., fun part hpart => List.mem_singleton.mp hpart ▸ hnewline⟩

/-- A newline behind the text, and those behind it. -/
theorem motdLines_newlines (linemax k : Nat) {body buf : List UInt8} (hnul : 0 ∉ buf)
    (hbody : body.getLast? ≠ some 13) (hbuf : buf.getLast? = body.getLast?) :
    motdLines linemax buf (List.replicate (k + 1) 10) = buf :: List.replicate (k + 1) [] ∧
      textLines body (List.replicate (k + 1) 10) = body :: List.replicate (k + 1) [] := by
  constructor
  · rw [List.replicate_succ, motdLines, if_pos rfl, if_neg (hbuf ▸ hbody),
      printed_of_not_mem hnul, (newlines_only linemax k).1]
  · rw [List.replicate_succ, textLines, if_pos rfl, if_neg hbody, (newlines_only linemax k).2]

theorem whole_of_oneLine (hmax : 1 < linemax) {msg : List UInt8} (hstr : 0 ∉ msg)
    (h : OneLine msg) : (∃ groups : List (List (List UInt8)),
      groups.flatten = motdLines linemax [] msg ∧ groups.map List.flatten = textLines [] msg) ∧
      ∀ part ∈ motdLines linemax [] msg, 10 ∉ part := by
  rcases h with ⟨body, k, rfl, hbody, hcr⟩
  have hnul : 0 ∉ body := fun h => hstr (List.mem_append_left _ h)
  rcases motdLines_append (Nat.lt_of_succ_lt hmax) (List.replicate k 10) (Nat.zero_le _)
    (List.nil_append body ▸ hnul) hbody with ⟨sent, buf', heq, hflat, hlast⟩
  rw [List.nil_append] at hflat hlast
  have hsent : ∀ part ∈ sent, 10 ∉ part := fun part hpart h =>
    hbody (hflat ▸ List.mem_append_left _ (List.mem_flatten.mpr ⟨part, hpart, h⟩))
  have hbuf : 10 ∉ buf' ∧ 0 ∉ buf' :=
    ⟨fun h => hbody (hflat ▸ List.mem_append_right _ h),
      fun h => hnul (hflat ▸ List.mem_append_right _ h)⟩
  rw [heq, textLines_append hbody, List.nil_append]
  cases k with
  | zero =>
      have htail := motdLines_end linemax hbuf.1 hbuf.2
      refine ⟨⟨[sent ++ motdLines linemax buf' []], List.flatten_singleton .., ?_⟩, ?_⟩
      · rw [List.map_singleton, List.flatten_append, htail.1, hflat]
        rfl
      · intro part hpart
        rcases List.mem_append.mp hpart with hpart | hpart
        · exact hsent part hpart
        · exact htail.2 part hpart
  | succ k =>
      have hcr : body.getLast? ≠ some 13 := by
        rcases hcr with h | h
        · nomatch h
        · exact h
      rcases motdLines_newlines linemax k hbuf.2 hcr hlast with ⟨hlines, htext⟩
      rw [hlines, htext]
      refine ⟨⟨(sent ++ [buf']) :: List.replicate (k + 1) [[]], ?_, ?_⟩, ?_⟩
      · rw [List.flatten_cons, List.flatten_replicate_singleton, List.append_assoc]
        rfl
      · rw [List.map_cons, List.map_replicate, List.flatten_append, List.flatten_singleton, hflat]
        rfl
      · intro part hpart
        rcases List.mem_append.mp hpart with hpart | hpart
        · exact hsent part hpart
        · rcases List.mem_cons.mp hpart with rfl | hpart
          · exact hbuf.1
          · rw [List.eq_of_mem_replicate hpart]
            exact List.not_mem_nil

/-- Text behind a newline is not shown whole: its first byte is missing, or the newline of a
`\r\n` stands in a part. -/
theorem oneLine_of_whole (hmax : 1 < linemax) {msg : List UInt8} (hstr : 0 ∉ msg)
    {groups : List (List (List UInt8))} (hparts : groups.flatten = motdLines linemax [] msg)
    (hlines : groups.map List.flatten = textLines [] msg)
    (hnewline : ∀ part ∈ motdLines linemax [] msg, 10 ∉ part) : OneLine msg := by
  by_cases hmem : 10 ∈ msg
  · rcases List.eq_append_cons_of_mem hmem with ⟨body, rest, rfl, hbody⟩
    have hnul : 0 ∉ body := fun h => hstr (List.mem_append_left _ h)
    rcases motdLines_append (Nat.lt_of_succ_lt hmax) (10 :: rest) (Nat.zero_le _)
      (List.nil_append body ▸ hnul) hbody with ⟨sent, buf', heq, hflat, hlast⟩
    rw [List.nil_append] at hflat hlast
    have htotal : (textLines [] (body ++ 10 :: rest)).flatten =
        (motdLines linemax [] (body ++ 10 :: rest)).flatten := by
      rw [← hlines, ← hparts, List.flatten_flatten]
    have hcr : body.getLast? ≠ some 13 := by
      intro hcr
      rw [heq, motdLines, if_pos rfl, if_pos (hlast.trans hcr)] at hnewline
      rcases newline_mem_motdLines linemax [] rest with ⟨part, hpart, h⟩
      exact hnewline part (List.mem_append_right _ (List.mem_cons_of_mem _ hpart)) h
    by_cases hrest : ∀ b ∈ rest, b = 10
    · refine ⟨body, rest.length + 1, ?_, hbody, .inr hcr⟩
      rw [List.replicate_succ, ← List.eq_replicate_of_mem hrest]
    · have hother : ∃ b ∈ rest, b ≠ 10 := by simpa using hrest
      have hnul' : 0 ∉ buf' := fun h => hnul (hflat ▸ List.mem_append_right _ h)
      rw [heq, motdLines, if_pos rfl, if_neg (hlast ▸ hcr), printed_of_not_mem hnul'] at hnewline
      rw [heq, motdLines, if_pos rfl, if_neg (hlast ▸ hcr), printed_of_not_mem hnul',
        textLines_append hbody, List.nil_append, textLines, if_pos rfl, if_neg hcr,
        List.flatten_cons, List.flatten_append, List.flatten_cons, ← List.append_assoc, hflat]
        at htotal
      have htail : ∀ part ∈ motdLines linemax [0] rest, 10 ∉ part := fun part hpart =>
        hnewline part (List.mem_append_right _ (List.mem_cons_of_mem _ hpart))
      have hnone : 10 ∉ (motdLines linemax [0] rest).flatten := fun h => by
        rcases List.mem_flatten.mp h with ⟨part, hpart, hmem⟩
        exact htail part hpart hmem
      have hlost := shown_motdLines_lt hmax hother
      rw [shown_eq_length hnone, ← List.append_cancel_left htotal,
        textLines_length (by decide) htail, List.length_nil, Nat.zero_add] at hlost
      exact absurd hlost (Nat.lt_irrefl _)
  · exact ⟨msg, 0, by simp, hmem, .inl rfl⟩

end Parts

/-- The message is shown whole if and only if there is no text behind a newline, and no
`\r\n`. -/
theorem shownWhole_iff (p : Program) (st : State) {msg : List UInt8} (hstr : 0 ∉ msg) :
    ShownWhole (80 - (motdhead st).length) msg (motdTexts (greeting p st msg))
        (mbufWrites (80 - (motdhead st).length) [] msg) ↔ OneLine msg := by
  rcases linemax_bounds st with ⟨hmax, hless⟩
  rw [motdTexts_greeting]
  constructor
  · intro h
    rcases h.whole with ⟨groups, hparts, hlines⟩
    exact oneLine_of_whole hmax hstr hparts hlines h.noNewline
  · intro h
    rcases whole_of_oneLine hmax hstr h with ⟨hwhole, hnewline⟩
    refine ⟨hwhole, motdLines_short (Nat.lt_of_succ_lt hmax) msg (Nat.zero_le _), hnewline, ?_⟩
    intro n hn
    have hwrites := mbufWrites_le (Nat.lt_of_succ_lt hmax) msg (Nat.zero_le _) n hn
    omega

/-- `VERSION` and a time. -/
def anyProgram : Program := ⟨ascii "1.0", ascii "Mon"⟩

theorem shownWhole_iff_hello :
    0 ∉ ascii "hello\n" ∧
      (ShownWhole (80 - (motdhead welcomed).length) (ascii "hello\n")
        (motdTexts (greeting anyProgram welcomed (ascii "hello\n")))
        (mbufWrites (80 - (motdhead welcomed).length) [] (ascii "hello\n")) ↔
          OneLine (ascii "hello\n")) :=
  ⟨by decide, shownWhole_iff anyProgram welcomed (by decide)⟩

/-- Of two lines the second is not shown. -/
theorem second_line_lost :
    0 ∉ ascii "a\nb" ∧ motdTexts (greeting anyProgram welcomed (ascii "a\nb")) = [ascii "a", []] ∧
      ¬ShownWhole (80 - (motdhead welcomed).length) (ascii "a\nb")
        (motdTexts (greeting anyProgram welcomed (ascii "a\nb")))
        (mbufWrites (80 - (motdhead welcomed).length) [] (ascii "a\nb")) := by
  have htexts : motdTexts (greeting anyProgram welcomed (ascii "a\nb")) = [ascii "a", []] := by
    decide
  refine ⟨by decide, htexts, fun h => ?_⟩
  rcases h.whole with ⟨groups, hparts, hlines⟩
  have htext : textLines [] (ascii "a\nb") = [ascii "a", ascii "b"] := by decide
  have hall := congrArg List.flatten hlines
  rw [← List.flatten_flatten, hparts, htexts, htext] at hall
  exact absurd hall (by decide)

end Irc
end IrC6
