/-
# The receive hooks

`proc-receive` reads the updates of a push to `refs/for/` from git as pkt-lines,
`post-receive` reads those of all refs as lines, and each posts one JSON body for
every update that is its own. Both paste the parts of the body between quotes as
they are, and `write_pkt_line` takes the length of a line from the shell, which
counts characters.

Git accepts a quote in the name of a ref, and bytes that are no UTF-8. So the
server reads from the bodies what git has sent exactly if no name has any of
these, and a pkt-line begins with its length exactly if the shell counts bytes in
it and the length has four digits (`hooks_faithful_iff`).

Key definitions: `RefUpdate`, `readPktLine`, `writePktLine`, `procReceive`,
`postReceive`, `Transported`, `IsPktLine`.
Key theorems: `hooks_faithful_iff`, `procReceive_eq`, `postReceive_eq`.
-/
import Gitdot.Auth.Bearer
import Gitdot.Lib.Json
import Gitdot.RefNames
import Mathlib.Data.List.DropRight

namespace Gitdot
namespace Hooks

open Lib Lib.Text Lib.Json

/-! ### Updates -/

/-- An object id, in lower-case hexadecimal digits. -/
structure ObjectId where
  digits : List UInt8
  nonempty : digits ≠ []
  hex : ∀ b ∈ digits, 48 ≤ b ∧ b ≤ 57 ∨ 97 ≤ b ∧ b ≤ 102

/-- An update of a ref; it fits into a packet of git's. -/
structure RefUpdate where
  oldSha : ObjectId
  newSha : ObjectId
  refName : List UInt8
  accepted : CheckRefFormat (refName.map UInt8.toNat)
  short : oldSha.digits.length + newSha.digits.length + refName.length ≤ 65513

def RefUpdate.line (u : RefUpdate) : List UInt8 :=
  u.oldSha.digits ++ 32 :: (u.newSha.digits ++ 32 :: u.refName)

/-- `refs/for/*`. -/
def isReviewRef (refName : List UInt8) : Bool := (asciiBytes "refs/for/".toList).isPrefixOf refName

/-! ### The shell -/

/-- The shell's locale: how many characters it counts in a string. -/
structure Locale where
  strlen : List UInt8 → ℕ
  strlen_le : ∀ data, strlen data ≤ data.length

/-- The C locale, in which a character is a byte, -/
def posix : Locale := ⟨List.length, fun _ => le_rfl⟩

/-- and one with UTF-8. -/
def utf8 : Locale := ⟨fun data => (decodeFrom data.length data).length, fun data =>
  length_decodeFrom_le data.length data⟩

/-- `printf '%04x'`: at least four digits. -/
def printf04x (n : ℕ) : List UInt8 :=
  asciiBytes ((Nat.digits 16 (n / 65536)).reverse.map Nat.digitChar ++ hexDigits 4 n)

def isIfs (b : UInt8) : Bool := b == 32 || b == 9 || b == 10

/-- The first word of a line, and what follows it. -/
def readWord (line : List UInt8) : List UInt8 × List UInt8 :=
  let line := line.dropWhile isIfs
  (line.takeWhile fun b => !isIfs b, line.dropWhile fun b => !isIfs b)

/-- `read -r`, for three variables: two words and the rest of the line. -/
def readUpdate (line : List UInt8) : List UInt8 × List UInt8 × List UInt8 :=
  let (oldSha, line) := readWord line
  let (newSha, line) := readWord line
  (oldSha, newSha, (line.dropWhile isIfs).rdropWhile isIfs)

/-- The lines of the standard input that are ended; `read` fails at any other. -/
def readLines : List UInt8 → List UInt8 → List (List UInt8)
  | _, [] => []
  | line, b :: input => if b = 10 then line :: readLines [] input else readLines (line ++ [b]) input

/-- What a command substitution keeps of an output: no NUL, and no line break at the end. -/
def chomp (output : List UInt8) : List UInt8 := (output.filter (· ≠ 0)).rdropWhile (· == 10)

/-! ### pkt-lines -/

/-- `read_pkt_line`, with the line that it echoes or `none` where it fails, and
the input that is left. -/
def readPktLine (input : List UInt8) : Option (List UInt8) × List UInt8 :=
  let hexLen := input.take 4
  let input := input.drop 4
  if hexLen.length < 4 then (none, input)
  else if hexLen = asciiBytes "0000".toList then (none, input)
  else
    match ofHex (byteChars hexLen) with
    | none => (none, input)
    | some n => if n ≤ 4 then (none, input) else (some (chomp (input.take (n - 4))), input.drop (n - 4))

/-- `write_pkt_line`. -/
def writePktLine (locale : Locale) (data : List UInt8) : List UInt8 :=
  printf04x (locale.strlen data + 1 + 4) ++ (data ++ [10])

/-- The line begins with its length in four digits. -/
def IsPktLine (line : List UInt8) : Prop :=
  line.length < 65536 ∧ line.take 4 = asciiBytes (hexDigits 4 line.length)

/-! ### The hooks -/

/-- `GITDOT_PUSHER_ID`. -/
def pusherText (pusherId : Uuid) : List UInt8 := asciiBytes (Uuid.text pusherId).toList

/-- The updates up to the first line that cannot be read. -/
def readUpdates : ℕ → List UInt8 → List (List UInt8)
  | 0, _ => []
  | n + 1, input =>
    match readPktLine input with
    | (none, _) => []
    | (some line, input) => line :: readUpdates n input

def processReviewBody (pusherId : Uuid) (newSha refName : List UInt8) : List UInt8 :=
  pasteObject [(asciiBytes "ref_name".toList, refName), (asciiBytes "new_sha".toList, newSha),
    (asciiBytes "pusher_id".toList, pusherText pusherId)]

/-- `proc-receive`: the bodies of its requests. It reads the version of git and the
flush behind it, and then the updates. -/
def procReceive (pusherId : Uuid) (input : List UInt8) : List (List UInt8) :=
  let input := (readPktLine (readPktLine input).2).2
  (readUpdates input.length input).filterMap fun line =>
    let (_, newSha, refName) := readUpdate line
    if isReviewRef refName then some (processReviewBody pusherId newSha refName) else none

def processPostReceiveBody (pusherId : Uuid) (oldSha newSha refName : List UInt8) : List UInt8 :=
  pasteObject [(asciiBytes "old_sha".toList, oldSha), (asciiBytes "new_sha".toList, newSha),
    (asciiBytes "ref_name".toList, refName), (asciiBytes "pusher_id".toList, pusherText pusherId)]

/-- `post-receive`: the bodies of its requests. -/
def postReceive (pusherId : Uuid) (input : List UInt8) : List (List UInt8) :=
  (readLines [] input).filterMap fun line =>
    let (oldSha, newSha, refName) := readUpdate line
    if isReviewRef refName then none else some (processPostReceiveBody pusherId oldSha newSha refName)

/-! ### The server -/

/-- `ProcessReviewServerRequest`, with its strings in bytes. -/
structure ProcessReviewServerRequest where
  refName : List UInt8
  newSha : List UInt8
  pusherId : Uuid
  deriving DecidableEq

/-- `ProcessPostReceiveServerRequest`. -/
structure ProcessPostReceiveServerRequest where
  oldSha : List UInt8
  newSha : List UInt8
  refName : List UInt8
  pusherId : Uuid
  deriving DecidableEq

def uuidField (members : List (List UInt8 × List UInt8)) (key : List UInt8) : Option Uuid :=
  (field members key).bind fun value => Uuid.parseStr (String.ofList (byteChars value))

def ProcessReviewServerRequest.fromSlice (body : List UInt8) : Option ProcessReviewServerRequest := do
  let members ← readObject body
  let refName ← field members (asciiBytes "ref_name".toList)
  let newSha ← field members (asciiBytes "new_sha".toList)
  let pusherId ← uuidField members (asciiBytes "pusher_id".toList)
  some { refName, newSha, pusherId }

def ProcessPostReceiveServerRequest.fromSlice (body : List UInt8) : Option ProcessPostReceiveServerRequest := do
  let members ← readObject body
  let oldSha ← field members (asciiBytes "old_sha".toList)
  let newSha ← field members (asciiBytes "new_sha".toList)
  let refName ← field members (asciiBytes "ref_name".toList)
  let pusherId ← uuidField members (asciiBytes "pusher_id".toList)
  some { oldSha, newSha, refName, pusherId }

/-! ### What git writes -/

/-- A line in a packet, with or without a line break. -/
def packet (newline : Bool) (line : List UInt8) : List UInt8 :=
  let data := if newline then line ++ [10] else line
  asciiBytes (hexDigits 4 (data.length + 4)) ++ data

def flush : List UInt8 := asciiBytes "0000".toList

/-- What git says first: its version, and what it is capable of behind a NUL. -/
structure Greeting where
  data : List UInt8
  nonempty : data ≠ []
  short : data.length ≤ 65515

/-- What `proc-receive` gets to read; the push options come last. -/
def toProcReceive (newline : Bool) (greeting : Greeting) (updates : List RefUpdate)
    (options : List UInt8) : List UInt8 :=
  packet newline greeting.data ++ (flush ++
    ((updates.map fun u => packet newline u.line).flatten ++ (flush ++ options)))

/-- What `post-receive` gets to read. -/
def toPostReceive (updates : List RefUpdate) : List UInt8 :=
  (updates.map fun u => u.line ++ [10]).flatten

/-- The server reads from the bodies the updates of which they are, in their order. -/
def Transported (pusherId : Uuid) (newline : Bool) (greeting : Greeting) (updates : List RefUpdate)
    (options : List UInt8) : Prop :=
  (procReceive pusherId (toProcReceive newline greeting updates options)).map
      ProcessReviewServerRequest.fromSlice =
    (updates.filter fun u => isReviewRef u.refName).map
      (fun u => some ⟨u.refName, u.newSha.digits, pusherId⟩) ∧
  (postReceive pusherId (toPostReceive updates)).map ProcessPostReceiveServerRequest.fromSlice =
    (updates.filter fun u => !isReviewRef u.refName).map
      (fun u => some ⟨u.oldSha.digits, u.newSha.digits, u.refName, pusherId⟩)

/-! ### Digits -/

section Digits

variable {c : Char} {n m width : ℕ} {cs : List Char}

/-- What holds of the sixteen digits holds of all that a number is written with. -/
theorem forall_hexDigits {P : Char → Prop} (h : ∀ d : Fin 16, P (Nat.digitChar d)) :
    ∀ width n, ∀ c ∈ hexDigits width n, P c
  | 0, _, c, hc => by cases hc
  | width + 1, n, c, hc => by
    rcases List.mem_append.mp hc with hc | hc
    · exact forall_hexDigits h width (n / 16) c hc
    · obtain rfl := List.mem_singleton.mp hc
      exact h ⟨n % 16, Nat.mod_lt n (by decide)⟩

theorem byteChars_hexDigits : byteChars (asciiBytes (hexDigits width n)) = hexDigits width n :=
  byteChars_asciiBytes (forall_hexDigits (P := fun c => c.toNat < 128) (by decide) width n)

theorem length_asciiBytes : (asciiBytes cs).length = cs.length := List.length_map _

/-- Below the bound a number is known from its digits. -/
theorem hexDigits_inj (hn : n < 65536) (hm : m < 65536)
    (h : asciiBytes (hexDigits 4 n) = asciiBytes (hexDigits 4 m)) : n = m := by
  have hdigits := congrArg (fun bytes => ofHex (byteChars bytes)) h
  simp only [byteChars_hexDigits, ofHex_hexDigits, Option.some.injEq] at hdigits
  omega

/-- Text of letters, digits and the like stands between quotes as it is. -/
theorem plain_asciiBytes (h : ∀ c ∈ cs, 32 ≤ c.toNat ∧ c.toNat < 128 ∧ c ≠ '"' ∧ c ≠ '\\') :
    Plain (asciiBytes cs) := by
  have hbytes : ∀ b ∈ asciiBytes cs, ∃ c ∈ cs, b.toNat = c.toNat := by
    intro b hb
    obtain ⟨c, hc, rfl⟩ := List.mem_map.mp hb
    exact ⟨c, hc, UInt8.toNat_ofNat_of_lt' (lt_trans (h c hc).2.1 (by decide))⟩
  refine ⟨fun b hb => ?_, isUtf8_of_ascii fun b hb => ?_⟩
  · obtain ⟨c, hc, hbc⟩ := hbytes b hb
    obtain ⟨hlo, -, hquote, hescape⟩ := h c hc
    have hne : ∀ d : Char, c ≠ d → c.toNat ≠ d.toNat := fun d hcd heq => hcd (Char.toNat_inj.mp heq)
    refine ⟨?_, ?_, ?_⟩
    · rintro rfl
      exact hne '"' hquote hbc.symm
    · rintro rfl
      exact hne '\\' hescape hbc.symm
    · rw [UInt8.lt_iff_toNat_lt, not_lt, hbc]
      exact hlo
  · obtain ⟨c, hc, hbc⟩ := hbytes b hb
    rw [UInt8.lt_iff_toNat_lt, hbc]
    exact (h c hc).2.1

end Digits

/-! ### Lengths -/

section Lengths

variable (locale : Locale) (data : List UInt8) {n : ℕ}

theorem length_hex4 : (asciiBytes (hexDigits 4 n)).length = 4 := by
  rw [length_asciiBytes, length_hexDigits]

theorem printf04x_short (hn : n < 65536) : printf04x n = asciiBytes (hexDigits 4 n) := by
  rw [printf04x, Nat.div_eq_of_lt hn, Nat.digits_zero]
  rfl

/-- Beyond four digits there is at least one more. -/
theorem length_printf04x_long (hn : 65536 ≤ n) : 5 ≤ (printf04x n).length := by
  have hpos : n / 65536 ≠ 0 := (Nat.div_pos hn (by decide)).ne'
  have hdigits : 0 < (Nat.digits 16 (n / 65536)).length :=
    List.length_pos_of_ne_nil (Nat.digits_ne_nil_iff_ne_zero.mpr hpos)
  rw [printf04x, length_asciiBytes, List.length_append, length_hexDigits, List.length_map,
    List.length_reverse]
  omega

/-- **Lengths.** A line begins with its length if the shell counts its bytes and
they are not too many. -/
theorem isPktLine_iff : IsPktLine (writePktLine locale data) ↔
    locale.strlen data = data.length ∧ data.length < 65531 := by
  have hle := locale.strlen_le data
  rcases lt_or_ge (locale.strlen data + 1 + 4) 65536 with hshort | hlong
  · have hline : writePktLine locale data =
        asciiBytes (hexDigits 4 (locale.strlen data + 1 + 4)) ++ (data ++ [10]) := by
      rw [writePktLine, printf04x_short hshort]
    have hlen : (writePktLine locale data).length = data.length + 5 := by
      rw [hline, List.length_append, length_hex4, List.length_append, List.length_singleton]
      omega
    have htake : (writePktLine locale data).take 4 =
        asciiBytes (hexDigits 4 (locale.strlen data + 1 + 4)) := by
      rw [hline]
      exact List.take_left' length_hex4
    rw [IsPktLine, hlen, htake]
    constructor
    · rintro ⟨hlt, hdigits⟩
      have heq := hexDigits_inj hshort hlt hdigits
      omega
    · rintro ⟨heq, hlt⟩
      exact ⟨by omega, by rw [heq]⟩
  · have hlen : locale.strlen data + 6 ≤ (writePktLine locale data).length := by
      have hdigits := length_printf04x_long hlong
      rw [writePktLine, List.length_append, List.length_append, List.length_singleton]
      omega
    refine iff_of_false (fun h => ?_) fun h => ?_
    · have hlt := h.1
      omega
    · omega

end Lengths

/-! ### What the hooks read -/

/-- Neither white space nor a control character. -/
def Visible (b : UInt8) : Prop := 32 < b.toNat

section Reading

variable {u : RefUpdate} {b : UInt8} {word line input rest : List UInt8} {newline : Bool} {n : ℕ}

theorem Visible.not_ifs (h : Visible b) : isIfs b = false := by
  have hne : ∀ c : UInt8, c.toNat ≤ 32 → b ≠ c := by
    rintro c hc rfl
    exact absurd h (not_lt.mpr hc)
  simp only [isIfs, Bool.or_eq_false_iff, beq_eq_false_iff_ne]
  exact ⟨⟨hne 32 (by decide), hne 9 (by decide)⟩, hne 10 (by decide)⟩

theorem ObjectId.visible (id : ObjectId) (hb : b ∈ id.digits) : Visible b := by
  have hhex := id.hex b hb
  simp only [UInt8.le_iff_toNat_le, UInt8.reduceToNat] at hhex
  unfold Visible
  omega

theorem RefUpdate.visible (hb : b ∈ u.refName) : Visible b := by
  have hname := u.accepted.chars _ (List.mem_map_of_mem hb)
  unfold Forbidden at hname
  unfold Visible
  by_contra hle
  rcases Nat.lt_or_eq_of_le (not_lt.mp hle) with hlt | heq
  · exact hname (.inl hlt)
  · exact hname (.inr (.inr (heq ▸ List.mem_cons_self)))

/-- There are spaces in a line, and what can be seen. -/
theorem RefUpdate.mem_line (hb : b ∈ u.line) : Visible b ∨ b = 32 := by
  unfold RefUpdate.line at hb
  rcases List.mem_append.mp hb with hb | hb
  · exact .inl (u.oldSha.visible hb)
  rcases List.mem_cons.mp hb with rfl | hb
  · exact .inr rfl
  rcases List.mem_append.mp hb with hb | hb
  · exact .inl (u.newSha.visible hb)
  rcases List.mem_cons.mp hb with rfl | hb
  · exact .inr rfl
  · exact .inl (RefUpdate.visible hb)

theorem RefUpdate.not_mem_line {c : UInt8} (hc : c.toNat < 32) : c ∉ u.line := by
  intro hmem
  rcases RefUpdate.mem_line hmem with h | rfl
  · exact absurd h (not_lt.mpr hc.le)
  · exact absurd hc (by decide)

theorem rdropWhile_visible {p : UInt8 → Bool} (hp : ∀ b, Visible b → p b = false)
    (h : ∀ b ∈ word.getLast?, Visible b) : word.rdropWhile p = word := by
  refine List.rdropWhile_eq_self_iff.mpr fun hne hlast => ?_
  have hvisible := hp _ (h _ (List.getLast?_eq_some_getLast hne))
  exact absurd (hlast.symm.trans hvisible) (by decide)

theorem dropWhile_visible (h : ∀ b ∈ word, Visible b) : word.dropWhile isIfs = word := by
  cases word with
  | nil => rfl
  | cons b word => rw [List.dropWhile_cons, if_neg (by rw [(h b List.mem_cons_self).not_ifs]; decide)]

/-- A word up to the next space. -/
theorem readWord_append (hne : word ≠ []) (h : ∀ b ∈ word, Visible b) :
    readWord (word ++ 32 :: rest) = (word, 32 :: rest) := by
  have hword : ∀ b ∈ word, (!isIfs b) = true := fun b hb => by rw [(h b hb).not_ifs]; rfl
  have hskip : (word ++ 32 :: rest).dropWhile isIfs = word ++ 32 :: rest := by
    obtain ⟨b, tail, rfl⟩ := List.exists_cons_of_ne_nil hne
    rw [List.cons_append, List.dropWhile_cons, if_neg (by rw [(h b List.mem_cons_self).not_ifs]; decide)]
  unfold readWord
  rw [hskip]
  dsimp only
  rw [List.takeWhile_append_of_pos hword, List.dropWhile_append_of_pos hword]
  simp [isIfs]

theorem readWord_space : readWord (32 :: line) = readWord line := rfl

/-- **Fields.** The three parts of a line. -/
theorem readUpdate_line (u : RefUpdate) :
    readUpdate u.line = (u.oldSha.digits, u.newSha.digits, u.refName) := by
  have hname : ∀ b ∈ u.refName, Visible b := fun b => RefUpdate.visible
  have htrim : (((32 : UInt8) :: u.refName).dropWhile isIfs).rdropWhile isIfs = u.refName := by
    have hspace : ((32 : UInt8) :: u.refName).dropWhile isIfs = u.refName.dropWhile isIfs := rfl
    rw [hspace, dropWhile_visible hname]
    exact rdropWhile_visible (fun b hb => hb.not_ifs) fun b hb => hname b (List.mem_of_getLast? hb)
  unfold readUpdate RefUpdate.line
  rw [readWord_append u.oldSha.nonempty fun b => u.oldSha.visible]
  dsimp only
  rw [readWord_space, readWord_append u.newSha.nonempty fun b => u.newSha.visible]
  dsimp only
  rw [htrim]

theorem readLines_append {cur : List UInt8} (h : 10 ∉ line) :
    readLines cur (line ++ 10 :: rest) = (cur ++ line) :: readLines [] rest := by
  induction line generalizing cur with
  | nil => rw [List.nil_append, readLines, if_pos rfl, List.append_nil]
  | cons b line ih =>
    obtain ⟨hb, hline⟩ := not_or.mp (mt List.mem_cons.mpr h)
    rw [List.cons_append, readLines, if_neg (Ne.symm hb), ih hline, List.append_assoc,
      List.singleton_append]

/-- `post-receive` reads the lines. -/
theorem readLines_toPostReceive (updates : List RefUpdate) :
    readLines [] (toPostReceive updates) = updates.map RefUpdate.line := by
  induction updates with
  | nil => rfl
  | cons u updates ih =>
    have hline : toPostReceive (u :: updates) = u.line ++ 10 :: toPostReceive updates := by
      simp [toPostReceive]
    rw [hline, readLines_append (RefUpdate.not_mem_line (by decide)), ih]
    rfl

/-- A line break at the end does not matter. -/
theorem chomp_line (u : RefUpdate) : chomp (if newline then u.line ++ [10] else u.line) = u.line := by
  have hnul : u.line.filter (· ≠ 0) = u.line := by
    refine List.filter_eq_self.mpr fun b hb => ?_
    have hne : b ≠ 0 := fun heq => RefUpdate.not_mem_line (c := 0) (by decide) (heq ▸ hb)
    exact decide_eq_true hne
  have hlast : u.line.rdropWhile (· == 10) = u.line := by
    refine List.rdropWhile_eq_self_iff.mpr fun hne hlast => ?_
    exact RefUpdate.not_mem_line (u := u) (c := 10) (by decide)
      (eq_of_beq hlast ▸ List.getLast_mem hne)
  unfold chomp
  cases newline with
  | false => rw [if_neg Bool.false_ne_true, hnul, hlast]
  | true =>
    have hten : ([10] : List UInt8).filter (· ≠ 0) = [10] := by decide
    rw [if_pos rfl, List.filter_append, hnul, hten, List.rdropWhile_concat_pos _ _ _ (by decide), hlast]

/-- **Packets.** A packet is read, up to its end. -/
theorem readPktLine_packet (hne : line ≠ []) (hshort : line.length ≤ 65515) :
    readPktLine (packet newline line ++ rest) =
      (some (chomp (if newline then line ++ [10] else line)), rest) := by
  unfold packet
  dsimp only
  generalize hdata : (if newline then line ++ [10] else line) = data
  have hpos : 0 < data.length ∧ data.length ≤ 65516 := by
    have hline := List.length_pos_of_ne_nil hne
    rw [← hdata]
    split_ifs
    · rw [List.length_append, List.length_singleton]
      omega
    · omega
  have hhead : (asciiBytes (hexDigits 4 (data.length + 4)) ++ data ++ rest).take 4 =
      asciiBytes (hexDigits 4 (data.length + 4)) := by
    rw [List.append_assoc]
    exact List.take_left' length_hex4
  have htail : (asciiBytes (hexDigits 4 (data.length + 4)) ++ data ++ rest).drop 4 = data ++ rest := by
    rw [List.append_assoc]
    exact List.drop_left' length_hex4
  have hhex : ofHex (byteChars (asciiBytes (hexDigits 4 (data.length + 4)))) = some (data.length + 4) := by
    rw [byteChars_hexDigits, ofHex_hexDigits, Nat.mod_eq_of_lt (by omega)]
  have hzero : asciiBytes (hexDigits 4 (data.length + 4)) ≠ asciiBytes "0000".toList := by
    intro heq
    rw [heq] at hhex
    exact absurd (Option.some.inj ((by decide : ofHex (byteChars (asciiBytes "0000".toList)) = some 0).symm.trans
      hhex)) (by omega)
  unfold readPktLine
  simp only [hhead, htail, hhex]
  rw [if_neg (by rw [length_hex4]; decide), if_neg hzero, if_neg (by omega), Nat.add_sub_cancel,
    List.take_left, List.drop_left]

theorem readPktLine_flush : readPktLine (flush ++ rest) = (none, rest) := rfl

/-- The packets up to the flush, if there is fuel for each. -/
theorem readUpdates_packets (updates : List RefUpdate) (hn : updates.length < n) :
    readUpdates n ((updates.map fun u => packet newline u.line).flatten ++ (flush ++ rest)) =
      updates.map RefUpdate.line := by
  induction updates generalizing n with
  | nil =>
    obtain ⟨n, rfl⟩ := Nat.exists_eq_succ_of_ne_zero (Nat.ne_zero_of_lt hn)
    rw [List.map_nil, List.flatten_nil, List.nil_append, readUpdates, readPktLine_flush]
    rfl
  | cons u updates ih =>
    obtain ⟨n, rfl⟩ := Nat.exists_eq_succ_of_ne_zero (Nat.ne_zero_of_lt hn)
    have hne : u.line ≠ [] := by simp [RefUpdate.line]
    have hshort : u.line.length ≤ 65515 := by
      have hle := u.short
      simp only [RefUpdate.line, List.length_append, List.length_cons]
      omega
    rw [List.map_cons, List.flatten_cons, List.append_assoc, readUpdates,
      readPktLine_packet hne hshort, chomp_line]
    dsimp only
    rw [ih (Nat.lt_of_succ_lt_succ hn), List.map_cons]

theorem length_le_packets (newline : Bool) (updates : List RefUpdate) :
    updates.length ≤ (updates.map fun u => packet newline u.line).flatten.length := by
  induction updates with
  | nil => exact le_rfl
  | cons u updates ih =>
    have hpos : 4 ≤ (packet newline u.line).length := by
      unfold packet
      rw [List.length_append, length_hex4]
      omega
    rw [List.map_cons, List.flatten_cons, List.length_append, List.length_cons]
    omega

/-! ### The requests -/

variable (pusherId : Uuid) (greeting : Greeting) (updates : List RefUpdate) (options : List UInt8)

theorem procReceive_eq : procReceive pusherId (toProcReceive newline greeting updates options) =
    (updates.filter fun u => isReviewRef u.refName).map fun u =>
      processReviewBody pusherId u.newSha.digits u.refName := by
  unfold procReceive toProcReceive
  rw [readPktLine_packet greeting.nonempty greeting.short]
  dsimp only
  rw [readPktLine_flush]
  dsimp only
  rw [readUpdates_packets updates, List.filterMap_map]
  · induction updates with
    | nil => rfl
    | cons u updates ih =>
      rw [List.filterMap_cons, Function.comp_apply, readUpdate_line]
      dsimp only
      cases hreview : isReviewRef u.refName with
      | false => rw [List.filter_cons_of_neg (by rw [hreview]; decide), ← ih]; rfl
      | true => rw [List.filter_cons_of_pos (by rw [hreview]), List.map_cons, ← ih]; rfl
  · have hle := length_le_packets newline updates
    have hflush : flush.length = 4 := by decide
    rw [List.length_append, List.length_append, hflush]
    omega

theorem postReceive_eq : postReceive pusherId (toPostReceive updates) =
    (updates.filter fun u => !isReviewRef u.refName).map fun u =>
      processPostReceiveBody pusherId u.oldSha.digits u.newSha.digits u.refName := by
  unfold postReceive
  rw [readLines_toPostReceive, List.filterMap_map]
  induction updates with
  | nil => rfl
  | cons u updates ih =>
    rw [List.filterMap_cons, Function.comp_apply, readUpdate_line]
    dsimp only
    cases hreview : isReviewRef u.refName with
    | true => rw [List.filter_cons_of_neg (by rw [hreview]; decide), ← ih]; rfl
    | false => rw [List.filter_cons_of_pos (by rw [hreview]; rfl), List.map_cons, ← ih]; rfl

end Reading

section Requests

variable (pusherId : Uuid) (id : ObjectId) (u : RefUpdate)

theorem plain_key : Plain (asciiBytes "ref_name".toList) ∧ Plain (asciiBytes "new_sha".toList) ∧
    Plain (asciiBytes "old_sha".toList) ∧ Plain (asciiBytes "pusher_id".toList) :=
  have hplain : ∀ key : List Char,
      (key.all fun c => decide (32 ≤ c.toNat ∧ c.toNat < 128 ∧ c ≠ '"' ∧ c ≠ '\\')) →
        Plain (asciiBytes key) := fun key h =>
    plain_asciiBytes fun c hc => of_decide_eq_true (List.all_eq_true.mp h c hc)
  ⟨hplain _ (by decide), hplain _ (by decide), hplain _ (by decide), hplain _ (by decide)⟩

theorem ObjectId.plain : Plain id.digits := by
  have hbounds : ∀ b ∈ id.digits, 48 ≤ b.toNat ∧ b.toNat ≤ 57 ∨ 97 ≤ b.toNat ∧ b.toNat ≤ 102 := by
    intro b hb
    have hhex := id.hex b hb
    simpa only [UInt8.le_iff_toNat_le, UInt8.reduceToNat] using hhex
  refine ⟨fun b hb => ?_, isUtf8_of_ascii fun b hb => ?_⟩
  · have hb := hbounds b hb
    simp only [ne_eq, ← UInt8.toNat_inj, UInt8.lt_iff_toNat_lt, UInt8.reduceToNat]
    omega
  · have hb := hbounds b hb
    simp only [UInt8.lt_iff_toNat_lt, UInt8.reduceToNat]
    omega

theorem forall_hyphenated {P : Char → Prop} {digits : List Char} (hdigits : ∀ c ∈ digits, P c)
    (hhyphen : P '-') : ∀ c ∈ hyphenated digits, P c := by
  have hgroup : ∀ start length, ∀ c ∈ (digits.drop start).take length, P c := fun start length c hc =>
    hdigits c (List.mem_of_mem_drop (List.mem_of_mem_take hc))
  have hnext : ∀ {cs ds : List Char}, (∀ c ∈ cs, P c) → (∀ c ∈ ds, P c) → ∀ c ∈ cs ++ '-' :: ds, P c := by
    intro cs ds hcs hds c hc
    rcases List.mem_append.mp hc with hc | hc
    · exact hcs c hc
    rcases List.mem_cons.mp hc with rfl | hc
    · exact hhyphen
    · exact hds c hc
  unfold hyphenated
  exact hnext (hnext (hnext (hnext (hgroup 0 8) (hgroup 8 4)) (hgroup 12 4)) (hgroup 16 4)) (hgroup 20 12)

/-- The text of a UUID has digits and hyphens in it. -/
theorem forall_uuidText {P : Char → Prop} (hdigit : ∀ d : Fin 16, P (Nat.digitChar d)) (hhyphen : P '-') :
    ∀ c ∈ (Uuid.text pusherId).toList, P c := by
  rw [Uuid.toList_text]
  exact forall_hyphenated (forall_hexDigits hdigit 32 pusherId.val) hhyphen

theorem plain_pusherText : Plain (pusherText pusherId) :=
  plain_asciiBytes (forall_uuidText pusherId (by decide) (by decide))

/-- Git accepts neither a backslash nor a control character. -/
theorem RefUpdate.unescaped : ∀ b ∈ u.refName, b ≠ 92 ∧ ¬ b < 32 := by
  intro b hb
  have hname := u.accepted.chars _ (List.mem_map_of_mem hb)
  refine ⟨?_, ?_⟩
  · rintro rfl
    exact hname (by decide)
  · intro hlt
    exact hname (.inl (UInt8.lt_iff_toNat_lt.mp hlt))

/-- What keeps a name from being plain text. -/
theorem RefUpdate.plain_iff : Plain u.refName ↔ 34 ∉ u.refName ∧ isUtf8 u.refName := by
  constructor
  · exact fun h => ⟨fun hmem => (h.bare 34 hmem).1 rfl, h.utf8⟩
  · rintro ⟨hquote, hutf8⟩
    exact ⟨fun b hb => ⟨fun heq => hquote (heq ▸ hb), u.unescaped b hb⟩, hutf8⟩

theorem uuidField_eq {members : List (List UInt8 × List UInt8)} {key : List UInt8}
    (h : field members key = some (pusherText pusherId)) : uuidField members key = some pusherId := by
  have htext : byteChars (pusherText pusherId) = (Uuid.text pusherId).toList :=
    byteChars_asciiBytes (forall_uuidText (P := fun c => c.toNat < 128) pusherId (by decide) (by decide))
  rw [uuidField, h, Option.bind_some, htext, String.ofList_toList, Uuid.parseStr_text]

/-- **The body of `proc-receive`.** -/
theorem processReview_iff :
    ProcessReviewServerRequest.fromSlice (processReviewBody pusherId u.newSha.digits u.refName) =
        some ⟨u.refName, u.newSha.digits, pusherId⟩ ↔
      34 ∉ u.refName ∧ isUtf8 u.refName := by
  obtain ⟨hrefName, hnewSha, -, hpusherId⟩ := plain_key
  rw [← RefUpdate.plain_iff]
  constructor
  · intro h
    unfold ProcessReviewServerRequest.fromSlice at h
    obtain ⟨members, hread, h⟩ := Option.bind_eq_some_iff.mp h
    obtain ⟨refName, hfield, h⟩ := Option.bind_eq_some_iff.mp h
    obtain ⟨newSha, -, h⟩ := Option.bind_eq_some_iff.mp h
    obtain ⟨pusher, -, h⟩ := Option.bind_eq_some_iff.mp h
    obtain rfl : refName = u.refName := congrArg ProcessReviewServerRequest.refName (Option.some.inj h)
    exact plain_of_field [] (fun x hx => by cases hx) hrefName u.unescaped hread hfield
  · intro h
    have hplain : ∀ x ∈ [(asciiBytes "ref_name".toList, u.refName),
        (asciiBytes "new_sha".toList, u.newSha.digits),
        (asciiBytes "pusher_id".toList, pusherText pusherId)], Plain x.1 ∧ Plain x.2 := by
      intro x hx
      rcases List.mem_cons.mp hx with rfl | hx
      · exact ⟨hrefName, h⟩
      rcases List.mem_cons.mp hx with rfl | hx
      · exact ⟨hnewSha, u.newSha.plain⟩
      · obtain rfl := List.mem_singleton.mp hx
        dsimp only
        exact ⟨hpusherId, plain_pusherText pusherId⟩
    obtain ⟨members, hread, hfields⟩ := fields_pasteObject hplain (by
      rw [List.map_cons, List.map_cons, List.map_singleton]
      dsimp only
      decide)
    have hname := hfields _ List.mem_cons_self
    have hnew := hfields _ (List.mem_cons_of_mem _ List.mem_cons_self)
    have hpusher := hfields _ (List.mem_cons_of_mem _ (List.mem_cons_of_mem _ List.mem_cons_self))
    dsimp only at hname hnew hpusher
    exact Option.bind_eq_some_iff.mpr ⟨members, hread, Option.bind_eq_some_iff.mpr ⟨_, hname,
      Option.bind_eq_some_iff.mpr ⟨_, hnew, Option.bind_eq_some_iff.mpr
        ⟨_, uuidField_eq pusherId hpusher, rfl⟩⟩⟩⟩

/-- **The body of `post-receive`.** -/
theorem processPostReceive_iff :
    ProcessPostReceiveServerRequest.fromSlice
        (processPostReceiveBody pusherId u.oldSha.digits u.newSha.digits u.refName) =
        some ⟨u.oldSha.digits, u.newSha.digits, u.refName, pusherId⟩ ↔
      34 ∉ u.refName ∧ isUtf8 u.refName := by
  obtain ⟨hrefName, hnewSha, holdSha, hpusherId⟩ := plain_key
  rw [← RefUpdate.plain_iff]
  constructor
  · intro h
    unfold ProcessPostReceiveServerRequest.fromSlice at h
    obtain ⟨members, hread, h⟩ := Option.bind_eq_some_iff.mp h
    obtain ⟨oldSha, -, h⟩ := Option.bind_eq_some_iff.mp h
    obtain ⟨newSha, -, h⟩ := Option.bind_eq_some_iff.mp h
    obtain ⟨refName, hfield, h⟩ := Option.bind_eq_some_iff.mp h
    obtain ⟨pusher, -, h⟩ := Option.bind_eq_some_iff.mp h
    obtain rfl : refName = u.refName :=
      congrArg ProcessPostReceiveServerRequest.refName (Option.some.inj h)
    exact plain_of_field [(asciiBytes "old_sha".toList, u.oldSha.digits),
      (asciiBytes "new_sha".toList, u.newSha.digits)]
      (List.forall_mem_cons.mpr ⟨⟨holdSha, u.oldSha.plain⟩,
        List.forall_mem_singleton.mpr ⟨hnewSha, u.newSha.plain⟩⟩) hrefName u.unescaped hread hfield
  · intro h
    have hplain : ∀ x ∈ [(asciiBytes "old_sha".toList, u.oldSha.digits),
        (asciiBytes "new_sha".toList, u.newSha.digits), (asciiBytes "ref_name".toList, u.refName),
        (asciiBytes "pusher_id".toList, pusherText pusherId)], Plain x.1 ∧ Plain x.2 := by
      intro x hx
      rcases List.mem_cons.mp hx with rfl | hx
      · exact ⟨holdSha, u.oldSha.plain⟩
      rcases List.mem_cons.mp hx with rfl | hx
      · exact ⟨hnewSha, u.newSha.plain⟩
      rcases List.mem_cons.mp hx with rfl | hx
      · exact ⟨hrefName, h⟩
      · obtain rfl := List.mem_singleton.mp hx
        dsimp only
        exact ⟨hpusherId, plain_pusherText pusherId⟩
    obtain ⟨members, hread, hfields⟩ := fields_pasteObject hplain (by
      rw [List.map_cons, List.map_cons, List.map_cons, List.map_singleton]
      dsimp only
      decide)
    have hold := hfields _ List.mem_cons_self
    have hnew := hfields _ (List.mem_cons_of_mem _ List.mem_cons_self)
    have hname := hfields _ (List.mem_cons_of_mem _ (List.mem_cons_of_mem _ List.mem_cons_self))
    have hpusher := hfields _ (List.mem_cons_of_mem _ (List.mem_cons_of_mem _
      (List.mem_cons_of_mem _ List.mem_cons_self)))
    dsimp only at hold hnew hname hpusher
    exact Option.bind_eq_some_iff.mpr ⟨members, hread, Option.bind_eq_some_iff.mpr ⟨_, hold,
      Option.bind_eq_some_iff.mpr ⟨_, hnew, Option.bind_eq_some_iff.mpr ⟨_, hname,
        Option.bind_eq_some_iff.mpr ⟨_, uuidField_eq pusherId hpusher, rfl⟩⟩⟩⟩⟩

variable (newline : Bool) (greeting : Greeting) (updates : List RefUpdate) (options : List UInt8)

/-- What is not plain is not transported, and keeps nothing else from being. -/
theorem transported_iff : Transported pusherId newline greeting updates options ↔
    ∀ u ∈ updates, 34 ∉ u.refName ∧ isUtf8 u.refName := by
  rw [Transported, procReceive_eq, postReceive_eq, List.map_map, List.map_map, List.map_inj_left,
    List.map_inj_left]
  constructor
  · rintro ⟨hproc, hpost⟩ u hu
    cases hreview : isReviewRef u.refName with
    | true => exact (processReview_iff pusherId u).mp (hproc u (List.mem_filter.mpr ⟨hu, hreview⟩))
    | false =>
      exact (processPostReceive_iff pusherId u).mp
        (hpost u (List.mem_filter.mpr ⟨hu, by rw [hreview]; rfl⟩))
  · intro h
    exact ⟨fun u hu => (processReview_iff pusherId u).mpr (h u (List.mem_of_mem_filter hu)),
      fun u hu => (processPostReceive_iff pusherId u).mpr (h u (List.mem_of_mem_filter hu))⟩

/-- **The hooks.** For every list of updates and every line that is written. -/
theorem hooks_faithful_iff (locale : Locale) (pusherId : Uuid) (newline : Bool) (greeting : Greeting)
    (updates : List RefUpdate) (options data : List UInt8) :
    Transported pusherId newline greeting updates options ∧ IsPktLine (writePktLine locale data) ↔
      (∀ u ∈ updates, 34 ∉ u.refName ∧ isUtf8 u.refName) ∧
        locale.strlen data = data.length ∧ data.length < 65531 := by
  rw [transported_iff, isPktLine_iff]

end Requests

/-! ### A quote, and a letter of two bytes -/

def zeroId : ObjectId where
  digits := List.replicate 40 48
  nonempty := by decide
  hex := fun b hb => .inl (by rw [List.eq_of_mem_replicate hb]; decide)

/-- An update of `refs/heads/a"b`. -/
def quotedUpdate : RefUpdate where
  oldSha := zeroId
  newSha := zeroId
  refName := [114, 101, 102, 115, 47, 104, 101, 97, 100, 115, 47, 97, 34, 98]
  accepted := {
    slash := by decide
    chars := by decide
    components := by decide
    dots := by decide
    last := by decide
    atBrace := by decide }
  short := by decide

theorem not_hooks_faithful : ¬ ∀ (locale : Locale) (pusherId : Uuid) (newline : Bool)
    (greeting : Greeting) (updates : List RefUpdate) (options data : List UInt8),
    Transported pusherId newline greeting updates options ∧ IsPktLine (writePktLine locale data) := by
  intro h
  have hgreeting : ∃ greeting : Greeting, greeting.data = asciiBytes "version=1".toList :=
    ⟨⟨asciiBytes "version=1".toList, by decide, by decide⟩, rfl⟩
  obtain ⟨greeting, -⟩ := hgreeting
  have htransported := (h posix 0 false greeting [quotedUpdate] [] []).1
  have hplain := (transported_iff _ _ _ _ _).mp htransported quotedUpdate List.mem_cons_self
  exact hplain.1 (by decide)

/-- Where the shell counts characters, a line with a letter of two bytes is a byte short. -/
theorem not_isPktLine_utf8 : ¬ IsPktLine (writePktLine utf8 [0xC3, 0xA9]) := by
  rw [isPktLine_iff]
  exact fun h => absurd h.1 (by decide)

end Hooks
end Gitdot
