import Mathlib.Data.List.Basic
import Mathlib.Data.Char
import SlrCompiler.JsonValue

/-! # Reading JSON back

    A reader for compact JSON texts, and the proof that it undoes writing
    (`ofText?_render`): the reader takes exactly one value off the front of a
    text and leaves the rest untouched.

    What makes this work is that the first character of a value tells its kind
    and that every value knows its own end. A text ends at the first quote that
    no backslash hides, so escaping has to hide every quote and every backslash
    (`readQuoted_escape`). A number is the exception: it ends where its digits
    end, and is read back only in front of something that is no digit
    (`NumberEnds`). In an array or an object that is a comma or a bracket.
-/

namespace SlrCompiler.JsonValue

/-! ## Section 1: Texts -/

/-- The value of a hexadecimal digit. -/
def hexValue? (c : Char) : Option Nat :=
  if '0' ≤ c ∧ c ≤ '9' then some (c.toNat - 48)
  else if 'a' ≤ c ∧ c ≤ 'f' then some (c.toNat - 87)
  else none

/-- The character that a backslash and a single letter stand for. -/
def escaped? : Char → Option Char
  | '"' => some '"'
  | '\\' => some '\\'
  | 'b' => some '\x08'
  | 'f' => some '\x0c'
  | 'n' => some '\n'
  | 'r' => some '\r'
  | 't' => some '\t'
  | _ => none

/-- The character with a number of four hexadecimal digits. -/
def unicode? (a b c d : Char) : Option Char := do
  let thousands ← hexValue? a
  let hundreds ← hexValue? b
  let tens ← hexValue? c
  let ones ← hexValue? d
  return Char.ofNat (16 * (16 * (16 * thousands + hundreds) + tens) + ones)

/-- Reads a text after its opening quote, up to and with its closing one. -/
def readQuoted : List Char → Option (List Char × List Char)
  | [] => none
  | '"' :: rest => some ([], rest)
  | '\\' :: 'u' :: a :: b :: c :: d :: rest =>
    (unicode? a b c d).bind fun char => (readQuoted rest).map (Prod.map (char :: ·) id)
  | '\\' :: letter :: rest =>
    (escaped? letter).bind fun char => (readQuoted rest).map (Prod.map (char :: ·) id)
  | char :: rest => (readQuoted rest).map (Prod.map (char :: ·) id)

theorem hexValue?_hexDigit {n : Nat} (h : n < 16) : hexValue? (hexDigit n) = some n := by
  revert n
  decide

theorem unicode?_hexDigit {c : Char} (h : c.toNat < 32) :
    unicode? '0' '0' (hexDigit (c.toNat / 16)) (hexDigit (c.toNat % 16)) = some c := by
  have hzero : hexValue? '0' = some 0 := by decide
  have htens := hexValue?_hexDigit (show c.toNat / 16 < 16 by omega)
  have hones := hexValue?_hexDigit (show c.toNat % 16 < 16 by omega)
  have hvalue : 16 * (16 * (16 * 0 + 0) + c.toNat / 16) + c.toNat % 16 = c.toNat := by omega
  simp only [unicode?, hzero, htens, hones, bind, Option.bind, pure, hvalue, Char.ofNat_toNat]

/-- **Every character survives its escaping**: what is written for it is read back as
    that character, whatever follows. -/
theorem readQuoted_escape (c : Char) (rest : List Char) :
    readQuoted (escape c ++ rest) = (readQuoted rest).map (Prod.map (c :: ·) id) := by
  unfold escape
  -- the cases are those of `escape`; the seven characters with a letter of their own compute
  split_ifs with hquote hslash hback hfeed hline hreturn htab hlow
  · subst hquote; simp [readQuoted, escaped?]
  · subst hslash; simp [readQuoted, escaped?]
  · subst hback; simp [readQuoted, escaped?]
  · subst hfeed; simp [readQuoted, escaped?]
  · subst hline; simp [readQuoted, escaped?]
  · subst hreturn; simp [readQuoted, escaped?]
  · subst htab; simp [readQuoted, escaped?]
  · simp [readQuoted, unicode?_hexDigit hlow]
  · simp [readQuoted, hslash]

/-- **Texts survive**: a quoted text is read back up to its closing quote. -/
theorem readQuoted_flatMap_escape (word rest : List Char) :
    readQuoted (word.flatMap escape ++ '"' :: rest) = some (word, rest) := by
  induction word with
  | nil => simp [readQuoted]
  | cons c word ih => simp [readQuoted_escape, ih]

/-! ## Section 2: Values -/

/-- Reads a number: the longest run of digits. -/
def readNumber (input : List Char) : Option (JsonValue × List Char) :=
  let digits := input.takeWhile Char.isDigit
  if digits = [] then none
  else some (.number (Nat.ofDigitChars 10 digits 0), input.dropWhile Char.isDigit)

/-- Reads a key with its quotes and its colon. -/
def readKey : List Char → Option (String × List Char)
  | '"' :: rest =>
    match readQuoted rest with
    | some (key, ':' :: rest) => some (String.ofList key, rest)
    | _ => none
  | _ => none

mutual

/-- Reads one value off the front of the input. -/
def read (input : List Char) : Option (JsonValue × List Char) :=
  match input with
  | 'n' :: 'u' :: 'l' :: 'l' :: rest => some (.null, rest)
  | '"' :: rest => (readQuoted rest).map (Prod.map (.text <| String.ofList ·) id)
  | '[' :: ']' :: rest => some (.array [], rest)
  | '[' :: rest => (readItems rest).map (Prod.map .array id)
  | '{' :: '}' :: rest => some (.object [], rest)
  | '{' :: rest => (readFields rest).map (Prod.map .object id)
  | _ => readNumber input
termination_by (input.length, 0)

/-- Reads the items of an array, at least one, up to its bracket. -/
def readItems (input : List Char) : Option (List JsonValue × List Char) :=
  match read input with
  | some (item, ']' :: rest) => some ([item], rest)
  | some (item, ',' :: rest) =>
    -- a value is never empty, so this holds of all that is read; the recursion rests on it
    if rest.length < input.length then (readItems rest).map (Prod.map (item :: ·) id) else none
  | _ => none
termination_by (input.length, 1)

/-- Reads the fields of an object, at least one, up to its brace. -/
def readFields (input : List Char) : Option (List (String × JsonValue) × List Char) :=
  match readKey input with
  | none => none
  | some (key, inner) =>
    if inner.length < input.length then
      match read inner with
      | some (value, '}' :: rest) => some ([(key, value)], rest)
      | some (value, ',' :: rest) =>
        if rest.length < input.length then
          (readFields rest).map (Prod.map ((key, value) :: ·) id)
        else none
      | _ => none
    else none
termination_by (input.length, 1)

end

/-- The value that a whole text spells. -/
def ofText? (input : String) : Option JsonValue :=
  match read input.toList with
  | some (v, []) => some v
  | _ => none

/-! ## Section 3: Reading undoes writing -/

/-- A number that stands before this text ends where the text begins. -/
def NumberEnds (rest : List Char) : Prop := ∀ c ∈ rest.head?, c.isDigit = false

theorem numberEnds_nil : NumberEnds [] := by simp [NumberEnds]

theorem numberEnds_cons {c : Char} {rest : List Char} (h : c.isDigit = false) :
    NumberEnds (c :: rest) := by
  intro d hd
  simpa [← show c = d by simpa using hd] using h

theorem readNumber_toDigits (n : Nat) {rest : List Char} (h : NumberEnds rest) :
    readNumber (Nat.toDigits 10 n ++ rest) = some (.number n, rest) := by
  have hdigits : ∀ c ∈ Nat.toDigits 10 n, c.isDigit = true := fun c hc =>
    Nat.isDigit_of_mem_toDigits (by omega) (by omega) hc
  have htake : (Nat.toDigits 10 n ++ rest).takeWhile Char.isDigit = Nat.toDigits 10 n := by
    rw [List.takeWhile_append_of_pos hdigits]
    cases rest with
    | nil => simp
    | cons c rest => simp [h c (by simp)]
  have hdrop : (Nat.toDigits 10 n ++ rest).dropWhile Char.isDigit = rest := by
    rw [List.dropWhile_append_of_pos hdigits]
    cases rest with
    | nil => simp
    | cons c rest => simp [h c (by simp)]
  simp only [readNumber, htake, hdrop, Nat.toDigits_ne_nil, if_false, Nat.ofDigitChars_ten_toDigits]

/-- No other kind of value begins with a digit. -/
theorem read_of_isDigit {c : Char} (h : c.isDigit = true) (rest : List Char) :
    read (c :: rest) = readNumber (c :: rest) := by
  rw [read.eq_def]
  -- the other cases begin with a letter, a quote or a bracket
  split <;> simp_all

/-- A value does not begin as an array ends. -/
theorem head?_chars_ne (v : JsonValue) : v.chars.head? ≠ some ']' := by
  cases v with
  | number n =>
    intro hhead
    have hdigit : ']'.isDigit = true :=
      Nat.isDigit_of_mem_toDigits (by omega) (by omega) (List.mem_of_mem_head? hhead)
    exact absurd hdigit (by decide)
  | _ => simp [chars, quote]

theorem head?_itemChars_ne (item : JsonValue) (items : List JsonValue) (rest : List Char) :
    (itemChars (item :: items) ++ rest).head? ≠ some ']' := by
  obtain ⟨c, tail, hchars⟩ : ∃ c tail, item.chars = c :: tail := by
    apply List.exists_cons_of_ne_nil
    intro hnil
    cases item <;> simp [chars, quote, Nat.toDigits_ne_nil] at hnil
  have hne := head?_chars_ne item
  cases items <;> simpa [itemChars, hchars] using hne

theorem read_bracket {input : List Char} (h : input.head? ≠ some ']') :
    read ('[' :: input) = (readItems input).map (Prod.map .array id) := by
  rw [read.eq_def]
  split <;> simp_all

theorem readKey_quote (key : String) (rest : List Char) :
    readKey (quote key ++ ':' :: rest) = some (key, rest) := by
  simp [readKey, quote, readQuoted_flatMap_escape]

mutual

/-- **Reading undoes writing**: in front of anything that does not go on with a digit, what
    is written for a value is read back as that value. -/
theorem read_chars : ∀ (v : JsonValue) (rest : List Char), NumberEnds rest →
    read (v.chars ++ rest) = some (v, rest)
  | .null, rest, _ => by simp [chars, read]
  | .number n, rest, hends => by
    -- The first digit tells the reader that this is a number.
    obtain ⟨c, tail, hc⟩ := List.exists_cons_of_ne_nil (Nat.toDigits_ne_nil (n := n) (b := 10))
    have hdigit : c.isDigit = true :=
      Nat.isDigit_of_mem_toDigits (by omega) (by omega) (hc ▸ List.mem_cons_self)
    have hread := readNumber_toDigits n hends
    rw [hc, List.cons_append] at hread
    rw [chars, hc, List.cons_append, read_of_isDigit hdigit, hread]
  | .text word, rest, _ => by simp [chars, quote, read, readQuoted_flatMap_escape]
  | .array [], rest, _ => by simp [chars, itemChars, read]
  | .array (item :: items), rest, _ => by
    rw [chars, List.cons_append, read_bracket (head?_itemChars_ne item items rest),
      readItems_itemChars (item :: items) (by simp) rest]
    rfl
  | .object [], rest, _ => by simp [chars, fieldChars, read]
  | .object ((key, value) :: fields), rest, _ => by
    have hread := readFields_fieldChars ((key, value) :: fields) (by simp) rest
    cases fields <;> simp_all [chars, fieldChars, quote, read]

theorem readItems_itemChars : ∀ (items : List JsonValue), items ≠ [] → ∀ rest : List Char,
    readItems (itemChars items ++ rest) = some (items, rest)
  | [item], _, rest => by
    have hread := read_chars item (']' :: rest) (numberEnds_cons (by decide))
    simp [itemChars, readItems, hread]
  | item :: next :: items, _, rest => by
    have hread := read_chars item (',' :: (itemChars (next :: items) ++ rest))
      (numberEnds_cons (by decide))
    have hnext := readItems_itemChars (next :: items) (by simp) rest
    rw [itemChars, List.append_assoc, List.cons_append, readItems, hread]
    simp [hnext]
    omega

theorem readFields_fieldChars : ∀ (fields : List (String × JsonValue)), fields ≠ [] →
    ∀ rest : List Char, readFields (fieldChars fields ++ rest) = some (fields, rest)
  | [(key, value)], _, rest => by
    have hread := read_chars value ('}' :: rest) (numberEnds_cons (by decide))
    simp [fieldChars, readFields, readKey_quote, hread]
    omega
  | (key, value) :: next :: fields, _, rest => by
    have hread := read_chars value (',' :: (fieldChars (next :: fields) ++ rest))
      (numberEnds_cons (by decide))
    have hnext := readFields_fieldChars (next :: fields) (by simp) rest
    simp [fieldChars, readFields, readKey_quote, hread, hnext]
    omega

end

/-- **A value is known from its text.** -/
theorem ofText?_render (v : JsonValue) : ofText? v.render = some v := by
  have hread := read_chars v [] numberEnds_nil
  rw [List.append_nil] at hread
  simp [ofText?, render, hread]

end SlrCompiler.JsonValue
