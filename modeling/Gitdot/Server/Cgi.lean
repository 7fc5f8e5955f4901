/-
# The output of git http-backend

The backend writes header lines, a blank line and a body. `info_refs` parses
the whole output (`parse_cgi_response`), `service_rpc` reads until it finds the
separator and passes the rest on as it comes. Both look for `\r\n\r\n` in all
that they have, and only then for `\n\n`.

So a body with `\r\n\r\n` in it, behind a header block with `\n` endings, is cut
in the middle by the one and, if it comes later than the blank line, not by the
other. The two agree, however the output is cut, exactly if the last header line
and the blank line end in `\r\n`, or the blank line is a `\n` and there is no
`\r\n\r\n` in the body (`readers_agree_iff`).

Key definitions: `parseCgiHeaders`, `findHeaderSeparator`, `parseCgiResponse`,
`serviceRpc`, `CgiOutput`, `Reads`, `Agree`, `Separated`.
Key theorems: `readers_agree_iff`, `accepted_iff`.
-/
import Gitdot.Ci.Config
import Gitdot.Lib.Scan
import Gitdot.Lib.Text

namespace Gitdot
namespace Cgi

open Lib Text Scan

/-! ### Headers -/

/-- `GitHttpError`, as far as the readers refuse an output. -/
inductive GitHttpError where
  | invalidCgiResponse (message : String)
  deriving DecidableEq

inductive GitHttpBody where
  | buffered (bytes : List UInt8)
  | stream (chunks : List (List UInt8))
  deriving DecidableEq

structure GitHttpResponse where
  statusCode : ℕ
  headers : List (String × String)
  body : GitHttpBody
  deriving DecidableEq

/-- `str::parse::<u16>`: digits, with a plus in front or not. -/
def parseU16 : List Char → Option ℕ
  | '+' :: cs => (parseDigits cs).filter fun n => n < 65536
  | cs => (parseDigits cs).filter fun n => n < 65536

/-- A line without its `\r`. -/
def stripCarriageReturn (line : List Char) : List Char :=
  if line.getLast? = some '\r' then line.dropLast else line

/-- `str::lines`: a `\r` belongs to the ending in front of a `\n` only. -/
def lines : List Char → List Char → List (List Char)
  | [], [] => []
  | line, [] => [line]
  | line, c :: cs => if c = '\n' then stripCarriageReturn line :: lines [] cs else lines (line ++ [c]) cs

/-- `split_whitespace().next()`. -/
def firstWord (s : List Char) : Option (List Char) :=
  let word := (s.dropWhile Ci.isWhitespace).takeWhile fun c => !Ci.isWhitespace c
  if word = [] then none else some word

/-- One line of the loop in `parse_cgi_headers`. -/
def parseCgiHeader (parsed : ℕ × List (String × String)) (line : List Char) : ℕ × List (String × String) :=
  match splitOnce [':', ' '] line with
  | none => parsed
  | some (name, value) =>
    if name.map Char.toLower = "status".toList then
      match firstWord value with
      | some code => ((parseU16 code).getD 200, parsed.2)
      | none => parsed
    else (parsed.1, parsed.2 ++ [(String.ofList name, String.ofList value)])

def parseCgiHeaders (headerBytes : List UInt8) : Except GitHttpError (ℕ × List (String × String)) :=
  .ok ((lines [] (fromUtf8Lossy headerBytes)).foldl parseCgiHeader (200, []))

/-! ### The two readers -/

/-- `\r\n\r\n`. -/
def crlfCrlf : List UInt8 := [13, 10, 13, 10]

/-- `\n\n`. -/
def lfLf : List UInt8 := [10, 10]

/-- The place of the separator and its length. -/
def findHeaderSeparator (data : List UInt8) : Option (ℕ × ℕ) :=
  match findAt crlfCrlf data with
  | some i => some (i, 4)
  | none => (findAt lfLf data).map fun i => (i, 2)

/-- What the reads of a pipe return that the bytes are written to, up to its end. -/
structure Reads (bytes : List UInt8) where
  chunks : List (List UInt8)
  nonempty : ∀ chunk ∈ chunks, chunk ≠ []
  flatten_eq : chunks.flatten = bytes

/-- The separator, the buffer and the chunks that have not been read. -/
def readUntilCgiSeparator (chunks : List (List UInt8)) :
    Except GitHttpError ((ℕ × ℕ) × List UInt8 × List (List UInt8)) :=
  match readUntil findHeaderSeparator [] chunks with
  | some found => .ok found
  | none => .error (.invalidCgiResponse "EOF before CGI header separator")

def parseCgiResponse (output : List UInt8) : Except GitHttpError GitHttpResponse :=
  match findHeaderSeparator output with
  | none => .error (.invalidCgiResponse "Missing header/body separator")
  | some sep => do
    let (statusCode, headers) ← parseCgiHeaders (output.take sep.1)
    .ok { statusCode, headers, body := .buffered (output.drop (sep.1 + sep.2)) }

/-- `service_rpc`, from the reads of the standard output on. -/
def serviceRpc {bytes : List UInt8} (stdout : Reads bytes) : Except GitHttpError GitHttpResponse := do
  let (sep, headerBuf, rest) ← readUntilCgiSeparator stdout.chunks
  let (statusCode, headers) ← parseCgiHeaders (headerBuf.take sep.1)
  let leftover := headerBuf.drop (sep.1 + sep.2)
  .ok { statusCode, headers, body := .stream (if leftover = [] then rest else leftover :: rest) }

/-! ### What the backend writes -/

inductive LineEnding where
  | crlf
  | lf
  deriving DecidableEq

def LineEnding.bytes : LineEnding → List UInt8
  | .crlf => [13, 10]
  | .lf => [10]

/-- A line that is not blank, cut at its ending. -/
structure HeaderLine where
  content : List UInt8
  ending : LineEnding
  content_ne : content ≠ []
  no_lf : 10 ∉ content
  no_cr : ending = .lf → content.getLast? ≠ some 13

def HeaderLine.bytes (line : HeaderLine) : List UInt8 := line.content ++ line.ending.bytes

/-- Header lines, a blank line and the body. -/
structure CgiOutput where
  lines : List HeaderLine
  blank : LineEnding
  body : List UInt8

namespace CgiOutput

def head (out : CgiOutput) : List UInt8 := (out.lines.map HeaderLine.bytes).flatten

def bytes (out : CgiOutput) : List UInt8 := out.head ++ (out.blank.bytes ++ out.body)

end CgiOutput

/-- Both readers give one status, one list of headers and this body, and the
headers are read from what is in front of the separator that the first blank
line ends. -/
def Agree (out : CgiOutput) (stdout : Reads out.bytes) : Prop :=
  ∃ block sep statusCode headers, out.head ++ out.blank.bytes = block ++ sep ∧
    (sep = crlfCrlf ∨ sep = lfLf) ∧ parseCgiHeaders block = .ok (statusCode, headers) ∧
    parseCgiResponse out.bytes = .ok { statusCode, headers, body := .buffered out.body } ∧
    ∃ chunks, serviceRpc stdout = .ok { statusCode, headers, body := .stream chunks } ∧
      chunks.flatten = out.body

/-- The header block ends in two `\r\n`, or in a `\n` and there are no two `\r\n` behind it. -/
def Separated (out : CgiOutput) : Prop :=
  ∃ last ∈ out.lines.getLast?, last.ending = .crlf ∧ out.blank = .crlf ∨
    out.blank = .lf ∧ ¬ crlfCrlf <:+: out.body

/-! ### Places of separators -/

theorem findHeaderSeparator_eq_none {data : List UInt8} : findHeaderSeparator data = none ↔
    (∀ i, ¬ OccursAt crlfCrlf data i) ∧ ∀ i, ¬ OccursAt lfLf data i := by
  unfold findHeaderSeparator
  cases hcrlf : findAt crlfCrlf data with
  | some i =>
    have hocc := (findAt_eq_some.mp hcrlf).1
    exact iff_of_false (fun h => by cases h) fun h => h.1 i hocc
  | none =>
    have hnone := findAt_eq_none.mp hcrlf
    rw [Option.map_eq_none_iff, findAt_eq_none]
    exact ⟨fun h => ⟨hnone, h⟩, And.right⟩

theorem findHeaderSeparator_eq_some {data : List UInt8} {i len : ℕ} :
    findHeaderSeparator data = some (i, len) ↔
      findAt crlfCrlf data = some i ∧ len = 4 ∨
        (∀ j, ¬ OccursAt crlfCrlf data j) ∧ findAt lfLf data = some i ∧ len = 2 := by
  unfold findHeaderSeparator
  cases hcrlf : findAt crlfCrlf data with
  | some j =>
    have hocc := (findAt_eq_some.mp hcrlf).1
    constructor
    · intro h
      obtain ⟨rfl, rfl⟩ := Prod.mk.inj (Option.some.inj h)
      exact .inl ⟨rfl, rfl⟩
    · rintro (⟨h, rfl⟩ | ⟨hnone, -⟩)
      · rw [Option.some.inj h]
      · exact absurd hocc (hnone j)
  | none =>
    have hnone := findAt_eq_none.mp hcrlf
    simp only [Option.map_eq_some_iff, Prod.mk.injEq, reduceCtorEq, false_and, false_or]
    constructor
    · rintro ⟨j, hlf, rfl, rfl⟩
      exact ⟨hnone, hlf, rfl⟩
    · rintro ⟨-, hlf, rfl⟩
      exact ⟨i, hlf, rfl, rfl⟩

/-- The rest begins with a blank line. -/
def BlankAhead (rest : List UInt8) : Prop := rest[0]? = some 10 ∨ rest[0]? = some 13 ∧ rest[1]? = some 10

section Line

variable (line : HeaderLine) {i : ℕ}

theorem HeaderLine.not_blankAhead (rest : List UInt8) : ¬ BlankAhead (line.bytes ++ rest) := by
  obtain ⟨c, content, hcontent⟩ := List.exists_cons_of_ne_nil line.content_ne
  have hlf := line.no_lf
  have hcr := line.no_cr
  rw [hcontent] at hlf hcr
  obtain ⟨hc, hcontent'⟩ := not_or.mp (mt List.mem_cons.mpr hlf)
  rw [HeaderLine.bytes, hcontent]
  rintro (hfirst | ⟨hfirst, hsecond⟩)
  · exact hc (Option.some.inj hfirst).symm
  · obtain rfl : c = 13 := Option.some.inj hfirst
    cases content with
    | nil =>
      -- a line that is a single `\r` would have to end in `\n`
      cases hending : line.ending with
      | crlf =>
        rw [hending] at hsecond
        exact absurd (Option.some.inj hsecond) (by decide)
      | lf => exact hcr hending rfl
    | cons d content =>
      obtain rfl : d = 10 := Option.some.inj hsecond
      exact hcontent' List.mem_cons_self

/-- The only `\n` is at the end. -/
theorem HeaderLine.lf_last (h : line.bytes[i]? = some 10) : i + 1 = line.bytes.length := by
  have hlt : i < line.bytes.length := List.getElem?_eq_some_iff.mp h |>.1
  unfold HeaderLine.bytes at h hlt ⊢
  rw [List.length_append] at hlt ⊢
  by_cases hi : i < line.content.length
  · rw [List.getElem?_append_left hi] at h
    exact absurd (List.mem_of_getElem? h) line.no_lf
  · rw [List.getElem?_append_right (not_lt.mp hi)] at h
    obtain ⟨k, hk⟩ := Nat.exists_eq_add_of_le (not_lt.mp hi)
    rw [hk, Nat.add_sub_cancel_left] at h
    cases hending : line.ending with
    | lf =>
      rw [hending] at hlt
      simp only [LineEnding.bytes, List.length_singleton] at hlt ⊢
      omega
    | crlf =>
      rw [hending] at h hlt
      simp only [LineEnding.bytes, List.length_cons, List.length_nil] at hlt ⊢
      have hk1 : k ≠ 0 := by
        rintro rfl
        exact absurd (Option.some.inj h) (by decide)
      omega

/-- In front of a blank line are all the header lines. -/
theorem le_of_blankAhead (i : ℕ) (rest : List UInt8) {lines : List HeaderLine}
    (hlf : ((lines.map HeaderLine.bytes).flatten ++ rest)[i]? = some 10)
    (hblank : BlankAhead (((lines.map HeaderLine.bytes).flatten ++ rest).drop (i + 1))) :
    (lines.map HeaderLine.bytes).flatten.length ≤ i + 1 := by
  induction lines generalizing i with
  | nil => exact Nat.zero_le _
  | cons line lines ih =>
    rw [List.map_cons, List.flatten_cons, List.append_assoc] at hlf hblank
    rw [List.map_cons, List.flatten_cons, List.length_append]
    by_cases hi : i < line.bytes.length
    · rw [List.getElem?_append_left hi] at hlf
      have hend := line.lf_last hlf
      rw [hend, List.drop_left] at hblank
      cases lines with
      | nil => simp [hend]
      | cons next lines =>
        rw [List.map_cons, List.flatten_cons, List.append_assoc] at hblank
        exact absurd hblank (next.not_blankAhead _)
    · obtain ⟨k, rfl⟩ := Nat.exists_eq_add_of_le (not_lt.mp hi)
      rw [List.getElem?_append_right (Nat.le_add_right _ k), Nat.add_sub_cancel_left] at hlf
      rw [add_assoc, List.drop_length_add_append] at hblank
      have hle := ih _ hlf hblank
      omega

end Line

section Output

variable {out : CgiOutput} {last : HeaderLine} {front : List UInt8} {i : ℕ}

theorem length_head_le_of_crlfCrlf (h : OccursAt crlfCrlf out.bytes i) : out.head.length ≤ i + 2 := by
  refine le_of_blankAhead (i + 1) (out.blank.bytes ++ out.body) ?_ (.inr ⟨?_, ?_⟩)
  · exact h.getElem? (k := 1) (by decide)
  · rw [List.getElem?_drop]
    exact h.getElem? (k := 2) (by decide)
  · rw [List.getElem?_drop]
    exact h.getElem? (k := 3) (by decide)

theorem length_head_le_of_lfLf (h : OccursAt lfLf out.bytes i) : out.head.length ≤ i + 1 := by
  refine le_of_blankAhead i (out.blank.bytes ++ out.body) ?_ (.inl ?_)
  · exact h.getElem? (k := 0) (by decide)
  · rw [List.getElem?_drop]
    exact h.getElem? (k := 1) (by decide)

theorem exists_front (hlast : last ∈ out.lines.getLast?) :
    ∃ front, out.head = front ++ last.content ++ last.ending.bytes := by
  obtain ⟨init, hinit⟩ := List.getLast?_eq_some_iff.mp hlast
  refine ⟨(init.map HeaderLine.bytes).flatten, ?_⟩
  rw [CgiOutput.head, hinit, List.map_append, List.flatten_append, List.append_assoc]
  simp [HeaderLine.bytes]

/-- A header block ends in `\n`. -/
theorem exists_lf (hlast : last ∈ out.lines.getLast?) : ∃ front, out.head = front ++ [10] := by
  obtain ⟨front, hfront⟩ := exists_front hlast
  cases hending : last.ending with
  | lf => exact ⟨front ++ last.content, by rw [hfront, hending]; rfl⟩
  | crlf => exact ⟨front ++ last.content ++ [13], by rw [hfront, hending, List.append_assoc _ [13]]; rfl⟩

/-- Nothing is found in front of two `\r\n` until they are there, and then they are found. -/
theorem settles_crlf {block : List UInt8} (hblock : out.head ++ out.blank.bytes = block ++ crlfCrlf)
    (hhead : out.head.length = block.length + 2) :
    Settles findHeaderSeparator out.bytes (block.length + 4) (block.length, 4) := by
  have hbytes : out.bytes = block ++ (crlfCrlf ++ out.body) := by
    rw [CgiOutput.bytes, ← List.append_assoc, hblock, List.append_assoc]
  have hocc : OccursAt crlfCrlf out.bytes block.length := ⟨block, out.body, hbytes, rfl⟩
  refine ⟨hocc.le_length, fun m hm => ?_, fun m hm => ?_⟩
  · refine findHeaderSeparator_eq_none.mpr ⟨fun i hi => ?_, fun i hi => ?_⟩
    · obtain ⟨hi, hle⟩ := occursAt_take.mp hi
      have hhead_le := length_head_le_of_crlfCrlf hi
      have hlt : i + 4 ≤ m := le_trans hle (min_le_left _ _)
      omega
    · obtain ⟨hi, hle⟩ := occursAt_take.mp hi
      have hhead_le := length_head_le_of_lfLf hi
      have hlt : i + 2 ≤ m := le_trans hle (min_le_left _ _)
      -- then its second `\n` would be the `\r` of the blank line
      obtain rfl : i = block.length + 1 := by omega
      have hlf := hi.getElem? (k := 1) (by decide)
      have hcr := hocc.getElem? (k := 2) (by decide)
      exact absurd (hlf.symm.trans hcr) (by decide)
  · refine findHeaderSeparator_eq_some.mpr (.inl ⟨findAt_eq_some.mpr ⟨?_, fun j hj hother => ?_⟩, rfl⟩)
    · exact occursAt_take.mpr ⟨hocc, le_min hm hocc.le_length⟩
    · have hhead_le := length_head_le_of_crlfCrlf (occursAt_take.mp hother).1
      omega

/-- With no two `\r\n` in the body there are none, so the first two `\n` are found. -/
theorem settles_lf {block : List UInt8} (hblock : out.head = block ++ [10]) (hblank : out.blank = .lf)
    (hbody : ¬ crlfCrlf <:+: out.body) :
    Settles findHeaderSeparator out.bytes (block.length + 2) (block.length, 2) := by
  have hbytes : out.bytes = block ++ (lfLf ++ out.body) := by
    rw [CgiOutput.bytes, hblock, hblank, List.append_assoc]
    rfl
  have hocc : OccursAt lfLf out.bytes block.length := ⟨block, out.body, hbytes, rfl⟩
  have hhead : out.head.length = block.length + 1 := by rw [hblock, List.length_append]; rfl
  have hnone : ∀ i, ¬ OccursAt crlfCrlf out.bytes i := by
    intro i hi
    have hhead_le := length_head_le_of_crlfCrlf hi
    have hat : ∀ k < 4, ∀ n < 2, i + k = block.length + n → crlfCrlf[k]? = lfLf[n]? := by
      intro k hk n hn heq
      rw [← hi.getElem? hk, ← hocc.getElem? hn, heq]
    -- a `\r` cannot be one of the two `\n`, so all is behind them
    have hge : block.length + 2 ≤ i := by
      by_contra hlt
      obtain hi' | hi' | hi' : i + 1 = block.length ∨ i = block.length ∨ i = block.length + 1 := by omega
      · exact absurd (hat 2 (by decide) 1 (by decide) (by omega)) (by decide)
      · exact absurd (hat 0 (by decide) 0 (by decide) (by omega)) (by decide)
      · exact absurd (hat 0 (by decide) 1 (by decide) (by omega)) (by decide)
    obtain ⟨k, rfl⟩ := Nat.exists_eq_add_of_le hge
    obtain ⟨a, b, heq, hlen⟩ := hi
    refine hbody ⟨a.drop (block.length + 2), b, ?_⟩
    have hdrop : out.bytes.drop (block.length + 2) = out.body := by
      rw [hbytes, ← List.append_assoc]
      exact List.drop_left' (by rw [List.length_append]; rfl)
    rw [← hdrop, heq, List.drop_append_of_le_length (by omega), List.append_assoc]
  refine ⟨hocc.le_length, fun m hm => ?_, fun m hm => ?_⟩
  · refine findHeaderSeparator_eq_none.mpr
      ⟨fun i hi => hnone i (occursAt_take.mp hi).1, fun i hi => ?_⟩
    obtain ⟨hi, hle⟩ := occursAt_take.mp hi
    have hhead_le := length_head_le_of_lfLf hi
    have hlt : i + 2 ≤ m := le_trans hle (min_le_left _ _)
    omega
  · refine findHeaderSeparator_eq_some.mpr
      (.inr ⟨fun i hi => hnone i (occursAt_take.mp hi).1, findAt_eq_some.mpr ⟨?_, ?_⟩, rfl⟩)
    · exact occursAt_take.mpr ⟨hocc, le_min hm hocc.le_length⟩
    · intro j hj hother
      have hhead_le := length_head_le_of_lfLf (occursAt_take.mp hother).1
      omega

/-- The separator is found in the whole and in its first parts as soon as it is there. -/
theorem Separated.settles (h : Separated out) : ∃ block sep,
    out.head ++ out.blank.bytes = block ++ sep ∧ (sep = crlfCrlf ∨ sep = lfLf) ∧
      Settles findHeaderSeparator out.bytes (block.length + sep.length) (block.length, sep.length) := by
  obtain ⟨last, hlast, ⟨hending, hblank⟩ | ⟨hblank, hbody⟩⟩ := h
  · obtain ⟨front, hfront⟩ := exists_front hlast
    have hblock : out.head ++ out.blank.bytes = front ++ last.content ++ crlfCrlf := by
      rw [hfront, hending, hblank, List.append_assoc]
      rfl
    have hhead : out.head.length = (front ++ last.content).length + 2 := by
      rw [hfront, hending, List.length_append]
      rfl
    exact ⟨front ++ last.content, crlfCrlf, hblock, .inl rfl, settles_crlf hblock hhead⟩
  · obtain ⟨block, hblock⟩ := exists_lf hlast
    refine ⟨block, lfLf, ?_, .inr rfl, settles_lf hblock hblank hbody⟩
    rw [hblock, hblank, List.append_assoc]
    rfl

/-! ### The readers -/

theorem agree_of_settles {stdout : Reads out.bytes} {block sep : List UInt8}
    (hhead : out.head ++ out.blank.bytes = block ++ sep) (hsep : sep = crlfCrlf ∨ sep = lfLf)
    (hsettles : Settles findHeaderSeparator out.bytes (block.length + sep.length)
      (block.length, sep.length)) : Agree out stdout := by
  have hbytes : out.bytes = block ++ sep ++ out.body := by
    rw [CgiOutput.bytes, ← List.append_assoc, hhead]
  have htake : out.bytes.take block.length = block := by
    rw [hbytes, List.append_assoc, List.take_left]
  have hdrop : out.bytes.drop (block.length + sep.length) = out.body := by
    rw [hbytes, ← List.length_append, List.drop_left]
  have hpos : 0 < sep.length := by
    rcases hsep with rfl | rfl <;> decide
  obtain ⟨⟨statusCode, headers⟩, hparsed⟩ : ∃ parsed, parseCgiHeaders block = .ok parsed := ⟨_, rfl⟩
  obtain ⟨read, rest, hread, hwhole, hle⟩ :=
    hsettles.readUntil
      (by rw [List.length_nil]; omega) (by rw [List.nil_append, stdout.flatten_eq])
  have hread_take : read.take block.length = block := calc
    read.take block.length = (read ++ rest.flatten).take block.length :=
      (List.take_append_of_le_length (by omega)).symm
    _ = block := by rw [hwhole, htake]
  have hread_drop : read.drop (block.length + sep.length) ++ rest.flatten = out.body := calc
    _ = (read ++ rest.flatten).drop (block.length + sep.length) :=
      (List.drop_append_of_le_length hle).symm
    _ = out.body := by rw [hwhole, hdrop]
  let leftover := read.drop (block.length + sep.length)
  refine ⟨block, sep, statusCode, headers, hhead, hsep, hparsed, ?_,
    if leftover = [] then rest else leftover :: rest, ?_, ?_⟩
  · simp only [parseCgiResponse, hsettles.find_whole, htake, hdrop, hparsed]
    rfl
  · simp only [serviceRpc, readUntilCgiSeparator, hread]
    simp only [bind, Except.bind, hread_take, hparsed]
    rfl
  · split_ifs with hnone
    · have hnone : read.drop (block.length + sep.length) = [] := hnone
      rw [← hread_drop, hnone, List.nil_append]
    · rw [List.flatten_cons, hread_drop]

/-- What the buffered reader has found is a separator that ends in front of the body. -/
theorem exists_found {statusCode : ℕ} {headers : List (String × String)} {body : List UInt8}
    {output : List UInt8}
    (h : parseCgiResponse output = .ok { statusCode, headers, body := .buffered body }) :
    ∃ i len, findHeaderSeparator output = some (i, len) ∧ output.drop (i + len) = body := by
  unfold parseCgiResponse at h
  split at h
  · cases h
  · next sep hfind =>
    cases h
    exact ⟨sep.1, sep.2, hfind, rfl⟩

/-- Where the header block ends in two `\r\n`, its last line ends in one. -/
theorem ending_of_crlf {block : List UInt8} (hlast : last ∈ out.lines.getLast?)
    (hhead : out.head = block ++ [13, 10]) : last.ending = .crlf := by
  obtain ⟨front, hfront⟩ := exists_front hlast
  cases hending : last.ending with
  | crlf => rfl
  | lf =>
    have hcontent : front ++ last.content = block ++ [13] := by
      rw [hfront, hending] at hhead
      have hends : (front ++ last.content) ++ [10] = (block ++ [13]) ++ [10] :=
        hhead.trans (List.append_assoc block [13] [10]).symm
      exact List.append_inj_left' hends rfl
    have hend := congrArg List.getLast? hcontent
    rw [List.getLast?_append_of_ne_nil _ last.content_ne, List.getLast?_concat] at hend
    exact absurd hend (last.no_cr hending)

/-- Behind two `\n` that the buffered reader has found there are no two `\r\n`. -/
theorem not_crlfCrlf_of_found {i len : ℕ} (hblank : out.blank = .lf) (hhead : out.head ≠ [])
    (hfind : findHeaderSeparator out.bytes = some (i, len)) (hdrop : out.bytes.drop (i + len) = out.body) :
    ¬ crlfCrlf <:+: out.body := by
  have hlen := congrArg List.length hdrop
  rw [List.length_drop, CgiOutput.bytes, hblank, List.length_append, List.length_append] at hlen
  have hpos := List.length_pos_of_ne_nil hhead
  rcases findHeaderSeparator_eq_some.mp hfind with ⟨hcrlf, rfl⟩ | ⟨hnone, -, -⟩
  · have hocc := (findAt_eq_some.mp hcrlf).1
    have hhead_le := length_head_le_of_crlfCrlf hocc
    have hle := hocc.le_length
    rw [CgiOutput.bytes, hblank, List.length_append, List.length_append] at hle
    simp only [LineEnding.bytes, crlfCrlf, List.length_cons, List.length_nil] at hlen hle
    omega
  · intro hinside
    have hbody : out.body <:+: out.bytes :=
      ⟨out.head ++ out.blank.bytes, [], by rw [CgiOutput.bytes, List.append_nil, List.append_assoc]⟩
    obtain ⟨j, hj⟩ := occursAt_infix.mpr (hinside.trans hbody)
    exact hnone j hj

theorem Separated.of_agree {stdout : Reads out.bytes} (h : Agree out stdout) : Separated out := by
  obtain ⟨block, sep, statusCode, headers, hhead, hsep, -, hbuffered, -⟩ := h
  obtain ⟨i, len, hfind, hdrop⟩ := exists_found hbuffered
  have hlast : out.head ≠ [] → ∃ last, last ∈ out.lines.getLast? := by
    intro hne
    refine Option.ne_none_iff_exists'.mp (mt List.getLast?_eq_none_iff.mp fun hnil => hne ?_)
    rw [CgiOutput.head, hnil]
    rfl
  rcases hsep with rfl | rfl <;> cases hblank : out.blank <;> rw [hblank] at hhead
  · have hhead : out.head = block ++ [13, 10] :=
      List.append_inj_left' (hhead.trans (List.append_assoc block [13, 10] [13, 10]).symm) rfl
    obtain ⟨last, hlast⟩ := hlast (by rw [hhead]; simp)
    exact ⟨last, hlast, .inl ⟨ending_of_crlf hlast hhead, hblank⟩⟩
  · have hhead : out.head = block ++ [13, 10, 13] :=
      List.append_inj_left' (hhead.trans (List.append_assoc block [13, 10, 13] [10]).symm) rfl
    obtain ⟨last, hlast⟩ := hlast (by rw [hhead]; simp)
    obtain ⟨front, hfront⟩ := exists_lf hlast
    have hend : ([10] : List UInt8) = [13] := List.append_inj_right'
      ((hfront.symm.trans hhead).trans (List.append_assoc block [13, 10] [13]).symm) rfl
    exact absurd hend (by decide)
  · exact absurd (List.append_inj_right' hhead rfl) (by decide)
  · have hhead : out.head = block ++ [10] :=
      List.append_inj_left' (hhead.trans (List.append_assoc block [10] [10]).symm) rfl
    have hne : out.head ≠ [] := by rw [hhead]; simp
    obtain ⟨last, hlast⟩ := hlast hne
    exact ⟨last, hlast, .inr ⟨hblank, not_crlfCrlf_of_found hblank hne hfind hdrop⟩⟩

/-- **The two readers.** Whatever the output and however it is cut. -/
theorem readers_agree_iff (out : CgiOutput) (stdout : Reads out.bytes) :
    Agree out stdout ↔ Separated out := by
  constructor
  · exact Separated.of_agree
  · intro h
    obtain ⟨block, sep, hhead, hsep, hsettles⟩ := h.settles
    exact agree_of_settles hhead hsep hsettles

end Output

/-! ### A body with two line endings of the other kind -/

/-- `Content-Type: x` and `a\r\n\r\nb`, with `\n` endings. -/
def twoBlankLines : CgiOutput where
  lines := [{
    content := [67, 111, 110, 116, 101, 110, 116, 45, 84, 121, 112, 101, 58, 32, 120]
    ending := .lf
    content_ne := by decide
    no_lf := by decide
    no_cr := by decide }]
  blank := .lf
  body := [97, 13, 10, 13, 10, 98]

theorem not_readers_agree : ¬ ∀ (out : CgiOutput) (stdout : Reads out.bytes), Agree out stdout := by
  intro h
  have hreads : ∃ stdout : Reads twoBlankLines.bytes, stdout.chunks = [twoBlankLines.bytes] :=
    ⟨⟨[twoBlankLines.bytes], by decide, by decide⟩, rfl⟩
  obtain ⟨stdout, -⟩ := hreads
  obtain ⟨last, hlast, ⟨-, hblank⟩ | ⟨-, hbody⟩⟩ := Separated.of_agree (h twoBlankLines stdout)
  · exact absurd hblank (by decide)
  · exact hbody ⟨[97], [98], rfl⟩

/-! ### Outputs of any form -/

/-- What has been found is not lost. -/
theorem isSome_findHeaderSeparator_append (a b : List UInt8)
    (h : (findHeaderSeparator a).isSome) : (findHeaderSeparator (a ++ b)).isSome := by
  have hstays : ∀ {pat : List UInt8} {i : ℕ}, OccursAt pat a i → OccursAt pat (a ++ b) i := by
    intro pat i hocc
    have htake : (a ++ b).take a.length = a := List.take_left
    rw [← htake] at hocc
    exact (occursAt_take.mp hocc).1
  rw [Option.isSome_iff_ne_none, Ne, findHeaderSeparator_eq_none, not_and_or] at h ⊢
  simp only [not_forall, not_not] at h ⊢
  exact h.imp (Exists.imp fun i => hstays) (Exists.imp fun i => hstays)

/-- Any output is refused by both readers or by none, however it is cut. -/
theorem accepted_iff {output : List UInt8} (stdout : Reads output) :
    (∃ response, serviceRpc stdout = .ok response) ↔ ∃ response, parseCgiResponse output = .ok response := by
  have hiff : (readUntil findHeaderSeparator [] stdout.chunks).isSome ↔
      (findHeaderSeparator ([] ++ stdout.chunks.flatten)).isSome :=
    isSome_readUntil isSome_findHeaderSeparator_append (by decide)
  rw [List.nil_append, stdout.flatten_eq] at hiff
  have hstream : (∃ response, serviceRpc stdout = .ok response) ↔
      (readUntil findHeaderSeparator [] stdout.chunks).isSome := by
    unfold serviceRpc readUntilCgiSeparator
    cases readUntil findHeaderSeparator [] stdout.chunks with
    | none => exact iff_of_false (fun ⟨response, h⟩ => by cases h) Bool.false_ne_true
    | some found => exact iff_of_true ⟨_, rfl⟩ rfl
  have hbuffered : (∃ response, parseCgiResponse output = .ok response) ↔
      (findHeaderSeparator output).isSome := by
    unfold parseCgiResponse
    cases findHeaderSeparator output with
    | none => exact iff_of_false (fun ⟨response, h⟩ => by cases h) Bool.false_ne_true
    | some sep => exact iff_of_true ⟨_, rfl⟩ rfl
  rw [hstream, hbuffered, hiff]

end Cgi
end Gitdot
