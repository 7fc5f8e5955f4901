/-
# JSON objects of strings

Objects with strings for members, read from bytes (`readObject`) and looked up by
key as a derived deserializer does, which refuses a key that is there twice
(`field`). Text that is pasted between quotes without escapes is read back if it
is `Plain`. Text with a quote in it is not, whatever stands around it: it ends
at its first quote (`plain_of_field`).

Key definitions: `readString`, `readObject`, `field`, `pasteObject`, `Plain`.
Key theorems: `fields_pasteObject`, `plain_of_field`.
-/
import Gitdot.Lib.Text

namespace Lib
namespace Json

open Text

/-! ### Reading -/

/-- White space. -/
def isSpace (b : UInt8) : Bool := b == 32 || b == 9 || b == 10 || b == 13

def skip (bytes : List UInt8) : List UInt8 := bytes.dropWhile isSpace

/-- What follows the byte, behind white space. -/
def expect (c : UInt8) (bytes : List UInt8) : Option (List UInt8) :=
  match skip bytes with
  | [] => none
  | d :: rest => if d = c then some rest else none

def hexDigit (b : UInt8) : Option ℕ :=
  if 48 ≤ b ∧ b ≤ 57 then some (b.toNat - 48)
  else if 97 ≤ b ∧ b ≤ 102 then some (b.toNat - 87)
  else if 65 ≤ b ∧ b ≤ 70 then some (b.toNat - 55)
  else none

/-- Four hexadecimal digits. -/
def readUnit (bytes : List UInt8) : Option (ℕ × List UInt8) :=
  if bytes.length < 4 then none
  else ((bytes.take 4).foldlM (fun n b => (hexDigit b).map (16 * n + ·)) 0).map fun n => (n, bytes.drop 4)

def simpleEscape (c : UInt8) : Option UInt8 :=
  if c = 34 ∨ c = 92 ∨ c = 47 then some c
  else if c = 98 then some 8
  else if c = 102 then some 12
  else if c = 110 then some 10
  else if c = 114 then some 13
  else if c = 116 then some 9
  else none

/-- What stands for the escape behind a backslash: a code point beyond 16 bits is
written as two surrogates. -/
def readEscape : List UInt8 → Option (List UInt8 × List UInt8)
  | [] => none
  | c :: bytes =>
    if c = 117 then
      (readUnit bytes).bind fun high =>
        if 0xDC00 ≤ high.1 ∧ high.1 ≤ 0xDFFF then none
        else if 0xD800 ≤ high.1 ∧ high.1 ≤ 0xDBFF then
          if high.2.take 2 = [92, 117] then
            (readUnit (high.2.drop 2)).bind fun low =>
              if 0xDC00 ≤ low.1 ∧ low.1 ≤ 0xDFFF then
                some (String.utf8EncodeChar
                  (Char.ofNat (0x10000 + (high.1 - 0xD800) * 1024 + (low.1 - 0xDC00))), low.2)
              else none
          else none
        else some (String.utf8EncodeChar (Char.ofNat high.1), high.2)
    else (simpleEscape c).map fun b => ([b], bytes)

/-- The text up to the closing quote. -/
def readText : ℕ → List UInt8 → Option (List UInt8 × List UInt8)
  | 0, _ => none
  | _ + 1, [] => none
  | n + 1, c :: bytes =>
    if c = 34 then some ([], bytes)
    else if c = 92 then
      (readEscape bytes).bind fun escape =>
        (readText n escape.2).map fun found => (escape.1 ++ found.1, found.2)
    else if c < 32 then none
    else (readText n bytes).map fun found => (c :: found.1, found.2)

/-- A string behind its opening quote, and what follows it. -/
def readString (bytes : List UInt8) : Option (List UInt8 × List UInt8) :=
  (readText bytes.length bytes).filter fun found => isUtf8 found.1

/-- A key and a string. -/
def readMember (bytes : List UInt8) : Option ((List UInt8 × List UInt8) × List UInt8) :=
  (expect 34 bytes).bind fun bytes =>
    (readString bytes).bind fun key =>
      (expect 58 key.2).bind fun bytes =>
        (expect 34 bytes).bind fun bytes =>
          (readString bytes).map fun value => ((key.1, value.1), value.2)

/-- Members up to the closing brace. -/
def readMembers : ℕ → List UInt8 → Option (List (List UInt8 × List UInt8) × List UInt8)
  | 0, _ => none
  | n + 1, bytes =>
    (readMember bytes).bind fun found =>
      match skip found.2 with
      | [] => none
      | c :: rest =>
        if c = 44 then (readMembers n rest).map fun others => (found.1 :: others.1, others.2)
        else if c = 125 then some ([found.1], rest)
        else none

/-- The members of an object, with nothing behind it. -/
def readObject (bytes : List UInt8) : Option (List (List UInt8 × List UInt8)) :=
  (expect 123 bytes).bind fun bytes =>
    match expect 125 bytes with
    | some rest => if skip rest = [] then some [] else none
    | none =>
      (readMembers bytes.length bytes).bind fun found =>
        if skip found.2 = [] then some found.1 else none

/-- The member of this key, if there is one. -/
def field (members : List (List UInt8 × List UInt8)) (key : List UInt8) : Option (List UInt8) :=
  match members.filter fun m => m.1 = key with
  | [m] => some m.2
  | _ => none

/-! ### Pasting -/

/-- `"key":"value"`. -/
def pasteMember (m : List UInt8 × List UInt8) : List UInt8 :=
  34 :: (m.1 ++ 34 :: 58 :: 34 :: (m.2 ++ [34]))

/-- Members with commas in between. -/
def pasteMembers : List (List UInt8 × List UInt8) → List UInt8
  | [] => []
  | [m] => pasteMember m
  | m :: ms => pasteMember m ++ 44 :: pasteMembers ms

def pasteObject (ms : List (List UInt8 × List UInt8)) : List UInt8 := 123 :: (pasteMembers ms ++ [125])

/-- Neither a quote nor what has to be escaped. -/
def Bare (s : List UInt8) : Prop := ∀ b ∈ s, b ≠ 34 ∧ b ≠ 92 ∧ ¬ b < 32

/-- What can stand between quotes as it is. -/
structure Plain (s : List UInt8) : Prop where
  bare : Bare s
  utf8 : isUtf8 s = true

section Pasting

variable {s k v a rest tail : List UInt8} {pre post ms : List (List UInt8 × List UInt8)} {n : ℕ}

theorem readText_bare (hs : Bare s) (hn : s.length < n) :
    readText n (s ++ 34 :: rest) = some (s, rest) := by
  induction s generalizing n with
  | nil =>
    obtain ⟨n, rfl⟩ := Nat.exists_eq_succ_of_ne_zero (Nat.pos_iff_ne_zero.mp hn)
    rfl
  | cons c s ih =>
    obtain ⟨n, rfl⟩ := Nat.exists_eq_succ_of_ne_zero (Nat.ne_zero_of_lt hn)
    obtain ⟨hquote, hescape, hcontrol⟩ := hs c List.mem_cons_self
    have hrest := ih (fun b hb => hs b (List.mem_cons_of_mem c hb)) (Nat.lt_of_succ_lt_succ hn)
    rw [List.cons_append, readText, if_neg hquote, if_neg hescape, if_neg hcontrol, hrest]
    rfl

/-- A string ends at the first quote. -/
theorem readString_bare (hs : Bare s) :
    readString (s ++ 34 :: rest) = if isUtf8 s then some (s, rest) else none := by
  have hlen : s.length < (s ++ 34 :: rest).length := by
    rw [List.length_append, List.length_cons]
    omega
  rw [readString, readText_bare hs hlen]
  rfl

theorem readMember_bare (rest : List UInt8) (hk : Plain k) (ha : Bare a) :
    readMember (34 :: (k ++ 34 :: 58 :: 34 :: (a ++ 34 :: rest))) =
      if isUtf8 a then some ((k, a), rest) else none := by
  have hquote : ∀ bytes, expect 34 (34 :: bytes) = some bytes := fun _ => rfl
  have hcolon : ∀ bytes, expect 58 (58 :: bytes) = some bytes := fun _ => rfl
  rw [readMember, hquote, Option.bind_some, readString_bare hk.bare, if_pos hk.utf8, Option.bind_some,
    hcolon, Option.bind_some, hquote, Option.bind_some, readString_bare ha]
  split_ifs <;> rfl

theorem pasteMember_append (k v tail : List UInt8) :
    pasteMember (k, v) ++ tail = 34 :: (k ++ 34 :: 58 :: 34 :: (v ++ 34 :: tail)) := by
  simp [pasteMember]

theorem pasteMembers_cons_cons {m m' : List UInt8 × List UInt8} :
    pasteMembers (m :: m' :: ms) = pasteMember m ++ 44 :: pasteMembers (m' :: ms) := rfl

/-- Members that are plain are read as they are. -/
theorem readMembers_paste {m : List UInt8 × List UInt8} (hms : ∀ x ∈ m :: ms, Plain x.1 ∧ Plain x.2)
    (hn : ms.length < n) : readMembers n (pasteMembers (m :: ms) ++ 125 :: tail) = some (m :: ms, tail) := by
  induction ms generalizing m n with
  | nil =>
    obtain ⟨n, rfl⟩ := Nat.exists_eq_succ_of_ne_zero (Nat.ne_zero_of_lt hn)
    obtain ⟨hkey, hvalue⟩ := hms m List.mem_cons_self
    have hmember := readMember_bare (125 :: tail) hkey hvalue.bare
    rw [if_pos hvalue.utf8, ← pasteMember_append] at hmember
    rw [readMembers, pasteMembers, hmember]
    rfl
  | cons m' ms ih =>
    obtain ⟨n, rfl⟩ := Nat.exists_eq_succ_of_ne_zero (Nat.ne_zero_of_lt hn)
    obtain ⟨⟨hkey, hvalue⟩, hrest⟩ := List.forall_mem_cons.mp hms
    have hmember := readMember_bare (44 :: (pasteMembers (m' :: ms) ++ 125 :: tail)) hkey hvalue.bare
    rw [if_pos hvalue.utf8, ← pasteMember_append] at hmember
    rw [readMembers, pasteMembers_cons_cons, List.append_assoc, List.cons_append, hmember,
      Option.bind_some]
    have hothers := ih hrest (Nat.lt_of_succ_lt_succ hn)
    exact congrArg (Option.map _) hothers

theorem readObject_paste {m : List UInt8 × List UInt8} : readObject (pasteObject (m :: ms)) =
    (readMembers (pasteMembers (m :: ms) ++ [125]).length (pasteMembers (m :: ms) ++ [125])).bind
      fun found => if skip found.2 = [] then some found.1 else none := by
  have hquote : expect 125 (pasteMembers (m :: ms) ++ [125]) = none := by
    cases ms <;> rfl
  have hbrace : expect 123 (pasteObject (m :: ms)) = some (pasteMembers (m :: ms) ++ [125]) := rfl
  rw [readObject, hbrace, Option.bind_some, hquote]

theorem length_lt_pasteMembers : ∀ (m : List UInt8 × List UInt8) ms,
    ms.length < (pasteMembers (m :: ms) ++ [125]).length
  | _, [] => by simp
  | m, m' :: ms => by
    have hlen := length_lt_pasteMembers m' ms
    rw [pasteMembers_cons_cons]
    simp only [List.length_append, List.length_cons] at hlen ⊢
    omega

/-- **Plain text.** An object that is pasted from it has the members it was made of. -/
theorem readObject_pasteObject {m : List UInt8 × List UInt8} (hms : ∀ x ∈ m :: ms, Plain x.1 ∧ Plain x.2) :
    readObject (pasteObject (m :: ms)) = some (m :: ms) := by
  rw [readObject_paste, readMembers_paste hms (length_lt_pasteMembers m ms)]
  rfl

theorem pasteMembers_append {m : List UInt8 × List UInt8} : pasteMembers (pre ++ m :: post) =
    pre.flatMap (fun x => pasteMember x ++ [44]) ++ pasteMembers (m :: post) := by
  induction pre with
  | nil => rfl
  | cons x pre ih =>
    have hcons : pasteMembers (x :: (pre ++ m :: post)) = pasteMember x ++ 44 :: pasteMembers (pre ++ m :: post) := by
      cases pre <;> rfl
    rw [List.cons_append, hcons, ih, List.flatMap_cons, List.append_assoc, List.append_assoc,
      List.singleton_append]

/-- Up to the first quote in a value the members are as they were pasted, whatever follows. -/
theorem readMembers_prefix {found : List (List UInt8 × List UInt8) × List UInt8}
    (hpre : ∀ x ∈ pre, Plain x.1 ∧ Plain x.2) (hk : Plain k) (ha : Bare a)
    (h : readMembers n (pre.flatMap (fun x => pasteMember x ++ [44]) ++
      34 :: (k ++ 34 :: 58 :: 34 :: (a ++ 34 :: rest))) = some found) :
    isUtf8 a ∧ ∃ post, found.1 = pre ++ (k, a) :: post := by
  induction pre generalizing n found with
  | nil =>
    cases n with
    | zero => cases h
    | succ n =>
      rw [List.flatMap_nil, List.nil_append, readMembers, readMember_bare _ hk ha] at h
      split_ifs at h with hutf8
      · refine ⟨hutf8, ?_⟩
        rw [Option.bind_some] at h
        dsimp only at h
        split at h
        · cases h
        · split_ifs at h
          · obtain ⟨others, -, rfl⟩ := Option.map_eq_some_iff.mp h
            exact ⟨others.1, rfl⟩
          · cases h
            exact ⟨[], rfl⟩
      · cases h
  | cons x pre ih =>
    cases n with
    | zero => cases h
    | succ n =>
      obtain ⟨⟨hkey, hvalue⟩, hrest⟩ := List.forall_mem_cons.mp hpre
      have hmember := readMember_bare (44 :: (pre.flatMap (fun x => pasteMember x ++ [44]) ++
        34 :: (k ++ 34 :: 58 :: 34 :: (a ++ 34 :: rest)))) hkey hvalue.bare
      rw [if_pos hvalue.utf8, ← pasteMember_append] at hmember
      rw [List.flatMap_cons, List.append_assoc, List.append_assoc, List.singleton_append, readMembers,
        hmember, Option.bind_some] at h
      obtain ⟨others, hothers, rfl⟩ := Option.map_eq_some_iff.mp h
      obtain ⟨hutf8, tail, htail⟩ := ih hrest hothers
      exact ⟨hutf8, tail, congrArg (x :: ·) htail⟩

/-- Of different keys each has the value it is there with. -/
theorem field_of_mem {members : List (List UInt8 × List UInt8)} (hkeys : (members.map Prod.fst).Nodup)
    (hmem : (k, v) ∈ members) : field members k = some v := by
  have hfilter : members.filter (fun m => m.1 = k) = [(k, v)] := by
    induction members with
    | nil => cases hmem
    | cons m members ih =>
      obtain ⟨hnot, hkeys⟩ := List.nodup_cons.mp hkeys
      rcases List.mem_cons.mp hmem with rfl | hmem
      · have hnone : members.filter (fun m => m.1 = k) = [] := by
          refine List.filter_eq_nil_iff.mpr fun m hm heq => hnot ?_
          exact List.mem_map.mpr ⟨m, hm, of_decide_eq_true heq⟩
        rw [List.filter_cons_of_pos (by simp), hnone]
      · have hne : m.1 ≠ k := fun heq => hnot (heq ▸ List.mem_map_of_mem hmem)
        rw [List.filter_cons_of_neg (by simpa using hne), ih hkeys hmem]
  rw [field, hfilter]

/-- An object that is pasted from plain text under different keys has these fields. -/
theorem fields_pasteObject {m : List UInt8 × List UInt8} (hms : ∀ x ∈ m :: ms, Plain x.1 ∧ Plain x.2)
    (hkeys : ((m :: ms).map Prod.fst).Nodup) :
    ∃ members, readObject (pasteObject (m :: ms)) = some members ∧
      ∀ x ∈ m :: ms, field members x.1 = some x.2 :=
  ⟨m :: ms, readObject_pasteObject hms, fun _ => field_of_mem hkeys⟩

/-- A key that is there once has the value it is there with. -/
theorem eq_of_field {members : List (List UInt8 × List UInt8)} (hfield : field members k = some v)
    (hmem : (k, a) ∈ members) : v = a := by
  unfold field at hfield
  split at hfield
  · next m hm =>
    have hin : (k, a) ∈ members.filter fun m => m.1 = k := List.mem_filter.mpr ⟨hmem, by simp⟩
    rw [hm] at hin
    obtain rfl := List.mem_singleton.mp hin
    exact (Option.some.inj hfield).symm
  · cases hfield

/-- **Text that is not plain.** If a member without escapes is read back from an
object that is pasted, it is plain. -/
theorem plain_of_field (pre : List (List UInt8 × List UInt8))
    {members : List (List UInt8 × List UInt8)} (hpre : ∀ x ∈ pre, Plain x.1 ∧ Plain x.2) (hk : Plain k)
    (hv : ∀ b ∈ v, b ≠ 92 ∧ ¬ b < 32)
    (hread : readObject (pasteObject (pre ++ (k, v) :: post)) = some members)
    (hfield : field members k = some v) : Plain v := by
  -- the value is read up to the first quote, which may be the closing one
  obtain ⟨a, b, hcut, hquote⟩ :=
    List.eq_append_cons_of_mem (List.mem_append_right v (List.mem_singleton_self (34 : UInt8)))
  have ha : Bare a := by
    intro c hc
    have hne : c ≠ 34 := fun heq => hquote (heq ▸ hc)
    have hmem : c ∈ v ++ [34] := hcut ▸ List.mem_append_left _ hc
    have hmem : c ∈ v := (List.mem_append.mp hmem).resolve_right fun h => hne (List.mem_singleton.mp h)
    exact ⟨hne, hv c hmem⟩
  have hpaste : ∃ rest, pasteMembers ((k, v) :: post) ++ [125] = pasteMember (k, v) ++ rest := by
    cases post with
    | nil => exact ⟨[125], rfl⟩
    | cons m post => exact ⟨44 :: pasteMembers (m :: post) ++ [125], List.append_assoc _ _ _⟩
  obtain ⟨rest, hrest⟩ := hpaste
  have hvalue : pasteMembers (pre ++ (k, v) :: post) ++ [125] =
      pre.flatMap (fun x => pasteMember x ++ [44]) ++
        34 :: (k ++ 34 :: 58 :: 34 :: (a ++ 34 :: (b ++ rest))) := by
    have hsplit : v ++ 34 :: rest = a ++ 34 :: (b ++ rest) := by
      rw [← List.cons_append, ← List.append_assoc a, ← hcut, List.append_assoc, List.singleton_append]
    rw [pasteMembers_append, List.append_assoc, hrest, pasteMember_append, hsplit]
  obtain ⟨m, ms, hms⟩ : ∃ m ms, pre ++ (k, v) :: post = m :: ms :=
    List.exists_cons_of_ne_nil (List.append_ne_nil_of_right_ne_nil pre (List.cons_ne_nil _ _))
  rw [hms, readObject_paste, ← hms, hvalue] at hread
  obtain ⟨found, hfound, hend⟩ := Option.bind_eq_some_iff.mp hread
  obtain ⟨hutf8, others, hothers⟩ := readMembers_prefix hpre hk ha hfound
  have hmem : (k, a) ∈ members := by
    split_ifs at hend
    rw [← Option.some.inj hend, hothers]
    exact List.mem_append_right pre List.mem_cons_self
  obtain rfl := eq_of_field hfield hmem
  exact ⟨ha, hutf8⟩

end Pasting

end Json
end Lib
