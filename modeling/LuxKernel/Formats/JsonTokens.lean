import Mathlib.Data.List.Basic

namespace LuxKernel.Formats

-- The value of a JSON text. A number is its digits and its power of ten, so that no
-- precision is lost.
inductive Json where
  | null
  | bool (value : Bool)
  | number (mantissa exponent : Int)
  | string (value : String)
  | array (elements : List Json)
  | object (members : List (String × Json))

namespace Json

section Strings

def hexValue (c : Char) : Option Nat :=
  if '0' ≤ c ∧ c ≤ '9' then some (c.toNat - '0'.toNat)
  else if 'a' ≤ c ∧ c ≤ 'f' then some (c.toNat - 'a'.toNat + 10)
  else if 'A' ≤ c ∧ c ≤ 'F' then some (c.toNat - 'A'.toNat + 10)
  else none

def readHex4 : List Char → Option (Nat × List Char)
  | a :: b :: c :: d :: rest => do
      let a ← hexValue a
      let b ← hexValue b
      let c ← hexValue c
      let d ← hexValue d
      return (((a * 16 + b) * 16 + c) * 16 + d, rest)
  | _ => none

-- After `\u`: one code unit, or a high surrogate and the low one that must follow.
def readUnicode (text : List Char) : Option (Char × List Char) := do
  let (unit, rest) ← readHex4 text
  if 0xd800 ≤ unit ∧ unit < 0xdc00 then
    match rest with
    | '\\' :: 'u' :: rest => do
        let (low, rest) ← readHex4 rest
        if 0xdc00 ≤ low ∧ low < 0xe000 then
          return (Char.ofNat (0x10000 + (unit - 0xd800) * 0x400 + (low - 0xdc00)), rest)
        else none
    | _ => none
  else if 0xdc00 ≤ unit ∧ unit < 0xe000 then none
  else return (Char.ofNat unit, rest)

-- After a backslash.
def readEscape : List Char → Option (Char × List Char)
  | [] => none
  | c :: rest =>
      if c = 'u' then readUnicode rest
      else if c = '"' ∨ c = '\\' ∨ c = '/' then some (c, rest)
      else if c = 'b' then some ('\x08', rest)
      else if c = 'f' then some ('\x0c', rest)
      else if c = 'n' then some ('\n', rest)
      else if c = 'r' then some ('\r', rest)
      else if c = 't' then some ('\t', rest)
      else none

-- A character in front of what has been read.
def keep (c : Char) (read : List Char × List Char) : List Char × List Char :=
  (c :: read.1, read.2)

-- After the opening quote, up to the closing one. Control characters are not allowed.
def readString : Nat → List Char → Option (List Char × List Char)
  | 0, _ => none
  | _ + 1, [] => none
  | fuel + 1, c :: rest =>
      if c = '"' then some ([], rest)
      else if c = '\\' then do
        let (c, rest) ← readEscape rest
        (readString fuel rest).map (keep c)
      else if c.toNat < 32 then none
      else (readString fuel rest).map (keep c)

def escapeChar (c : Char) : List Char :=
  if c = '"' ∨ c = '\\' then ['\\', c]
  else if c.toNat < 32 then
    ['\\', 'u', '0', '0', (c.toNat / 16).digitChar, (c.toNat % 16).digitChar]
  else [c]

def quote (s : String) : List Char := '"' :: s.toList.flatMap escapeChar ++ ['"']

-- The characters that stand for themselves in a string.
def PlainChar (c : Char) : Prop := c ≠ '"' ∧ c ≠ '\\' ∧ 32 ≤ c.toNat

instance (c : Char) : Decidable (PlainChar c) := inferInstanceAs (Decidable (_ ∧ _ ∧ _))

def Plain (s : String) : Prop := ∀ c ∈ s.toList, PlainChar c

instance (s : String) : Decidable (Plain s) := List.decidableBAll PlainChar s.toList

theorem escapeChar_of_plain {c : Char} (h : PlainChar c) : escapeChar c = [c] := by
  simp [escapeChar, h.1, h.2.1, Nat.not_lt.mpr h.2.2]

theorem flatMap_escapeChar_of_plain {s : List Char} (h : ∀ c ∈ s, PlainChar c) :
    s.flatMap escapeChar = s := by
  induction s with
  | nil => rfl
  | cons c s ih =>
      obtain ⟨hc, hs⟩ := List.forall_mem_cons.mp h
      rw [List.flatMap_cons, escapeChar_of_plain hc, ih hs]
      rfl

theorem quote_of_plain {s : String} (h : Plain s) : quote s = '"' :: s.toList ++ ['"'] := by
  rw [quote, flatMap_escapeChar_of_plain h]

theorem hexValue_digitChar : ∀ n < 16, hexValue n.digitChar = some n := by decide

theorem readEscape_control {c : Char} (h : c.toNat < 32) (rest : List Char) :
    readEscape ('u' :: '0' :: '0' :: (c.toNat / 16).digitChar :: (c.toNat % 16).digitChar :: rest) =
      some (c, rest) := by
  have hhigh := hexValue_digitChar (c.toNat / 16) (by omega)
  have hlow := hexValue_digitChar (c.toNat % 16) (by omega)
  have hzero : hexValue '0' = some 0 := by decide
  have hunit : ((0 * 16 + 0) * 16 + c.toNat / 16) * 16 + c.toNat % 16 = c.toNat := by omega
  have hread : readHex4 ('0' :: '0' :: (c.toNat / 16).digitChar :: (c.toNat % 16).digitChar ::
      rest) = some (c.toNat, rest) := by
    simp only [readHex4, hzero, hhigh, hlow, Option.bind_eq_bind, Option.bind_some,
      Option.pure_def, hunit]
  have hnot : ¬(0xd800 ≤ c.toNat ∧ c.toNat < 0xdc00) := by omega
  have hnot' : ¬(0xdc00 ≤ c.toNat ∧ c.toNat < 0xe000) := by omega
  simp only [readEscape, if_true, readUnicode, hread, Option.bind_eq_bind, Option.bind_some, hnot,
    hnot', if_false, Char.ofNat_toNat, Option.pure_def]

section

variable {fuel : Nat} {c : Char} {rest : List Char}

theorem readString_quote : readString (fuel + 1) ('"' :: rest) = some ([], rest) := rfl

theorem readString_plain (h : PlainChar c) :
    readString (fuel + 1) (c :: rest) = (readString fuel rest).map (keep c) := by
  simp only [readString, h.1, h.2.1, Nat.not_lt.mpr h.2.2, if_false]

theorem readString_backslash : readString (fuel + 1) ('\\' :: rest) =
    (readEscape rest).bind fun read => (readString fuel read.2).map (keep read.1) := rfl

theorem readString_escapeChar :
    readString (fuel + 1) (escapeChar c ++ rest) = (readString fuel rest).map (keep c) := by
  by_cases hquoted : c = '"' ∨ c = '\\'
  · have hescape : readEscape (c :: rest) = some (c, rest) := by
      rcases hquoted with rfl | rfl <;> rfl
    rw [escapeChar, if_pos hquoted, List.cons_append, List.singleton_append, readString_backslash,
      hescape, Option.bind_some]
  · by_cases hcontrol : c.toNat < 32
    · rw [escapeChar, if_neg hquoted, if_pos hcontrol]
      simp only [List.cons_append, List.nil_append]
      rw [readString_backslash, readEscape_control hcontrol, Option.bind_some]
    · have hplain : PlainChar c :=
        ⟨fun h => hquoted (Or.inl h), fun h => hquoted (Or.inr h), Nat.not_lt.mp hcontrol⟩
      rw [escapeChar_of_plain hplain, List.singleton_append, readString_plain hplain]

end

theorem readString_escaped {s : List Char} {fuel : Nat}
    (h : (s.flatMap escapeChar).length < fuel) (rest : List Char) :
    readString fuel (s.flatMap escapeChar ++ '"' :: rest) = some (s, rest) := by
  induction s generalizing fuel with
  | nil =>
      obtain ⟨fuel, rfl⟩ := Nat.exists_eq_add_one_of_ne_zero (Nat.ne_of_gt h)
      exact readString_quote
  | cons c s ih =>
      have hlen : 1 ≤ (escapeChar c).length := by
        unfold escapeChar
        split
        · simp
        · split <;> simp
      rw [List.flatMap_cons, List.length_append] at h
      obtain ⟨fuel, rfl⟩ := Nat.exists_eq_add_one_of_ne_zero (Nat.ne_of_gt (Nat.zero_lt_of_lt h))
      rw [List.flatMap_cons, List.append_assoc, readString_escapeChar, ih (by omega)]
      rfl

end Strings

-- What is read from a text that was put between quotes as it is.
section Raw

variable {raw more rest : List Char}

-- A reader that does not take the quote after `raw` has taken something from `raw`.
def Within (raw more rest : List Char) : Prop :=
  ∃ front back, front ≠ [] ∧ raw = front ++ back ∧ rest = back ++ '"' :: more

theorem Within.cons (c : Char) (h : Within raw more rest) : Within (c :: raw) more rest := by
  obtain ⟨front, back, -, rfl, rfl⟩ := h
  exact ⟨c :: front, back, by simp, rfl, rfl⟩

theorem readHex4_raw {unit : Nat} (h : readHex4 (raw ++ '"' :: more) = some (unit, rest)) :
    Within raw more rest := by
  have hquote : hexValue '"' = none := by decide
  match raw with
  | [] =>
      match more with
      | [] | [_] | [_, _] => cases h
      | _ :: _ :: _ :: _ => simp [readHex4, hquote] at h
  | [a] =>
      match more with
      | [] | [_] => cases h
      | _ :: _ :: _ => simp [readHex4, hquote] at h
  | [a, b] =>
      match more with
      | [] => cases h
      | _ :: _ => simp [readHex4, hquote] at h
  | [a, b, c] => simp [readHex4, hquote] at h
  | a :: b :: c :: d :: back =>
      simp only [readHex4, List.cons_append, Option.bind_eq_bind, Option.bind_eq_some_iff,
        Option.pure_def, Option.some.injEq, Prod.mk.injEq] at h
      obtain ⟨_, -, _, -, _, -, _, -, -, rfl⟩ := h
      exact ⟨[a, b, c, d], back, by simp, rfl, rfl⟩

theorem readUnicode_raw {c : Char} (h : readUnicode (raw ++ '"' :: more) = some (c, rest)) :
    Within raw more rest := by
  obtain ⟨⟨unit, rest₁⟩, hunit, h⟩ := Option.bind_eq_some_iff.mp h
  obtain ⟨front, back, hfront, rfl, rfl⟩ := readHex4_raw hunit
  dsimp only at h
  split at h
  · -- A low surrogate has to follow.
    split at h
    · rename_i rest₂ hrest
      match back with
      | [] => cases hrest
      | [_] => cases hrest
      | x :: y :: back =>
          obtain ⟨rfl, rfl, rfl⟩ : x = '\\' ∧ y = 'u' ∧ back ++ '"' :: more = rest₂ := by
            simpa using hrest
          obtain ⟨⟨low, rest₃⟩, hlow, h⟩ := Option.bind_eq_some_iff.mp h
          obtain ⟨middle, back, -, rfl, rfl⟩ := readHex4_raw hlow
          dsimp only at h
          split at h
          · obtain ⟨-, rfl⟩ := Prod.mk.inj (Option.some.inj h)
            exact ⟨front ++ '\\' :: 'u' :: middle, back, by simp, by simp, rfl⟩
          · cases h
    · cases h
  · split at h
    · cases h
    · obtain ⟨-, rfl⟩ := Prod.mk.inj (Option.some.inj h)
      exact ⟨front, back, hfront, rfl, rfl⟩

theorem readEscape_raw {c : Char} (h : readEscape (raw ++ '"' :: more) = some (c, rest)) :
    (raw = [] ∧ rest = more) ∨ Within raw more rest := by
  cases raw with
  | nil =>
      obtain ⟨-, rfl⟩ := Prod.mk.inj (Option.some.inj h)
      exact Or.inl ⟨rfl, rfl⟩
  | cons first raw =>
      refine Or.inr ?_
      rw [List.cons_append, readEscape] at h
      by_cases hu : first = 'u'
      · rw [if_pos hu] at h
        exact (readUnicode_raw h).cons first
      · rw [if_neg hu] at h
        have hrest : rest = raw ++ '"' :: more := by
          repeat' split at h
          all_goals cases h
          all_goals rfl
        exact ⟨[first], raw, by simp, rfl, hrest⟩

theorem getLast?_cons_of_some {l : List Char} {c : Char} (h : l.getLast? = some c) (first : Char) :
    (first :: l).getLast? = some c := by
  rw [List.getLast?_cons, h]
  rfl

-- A comma and a quote follow, as they do after a member of an object. Then a reader
-- that has met an escape has read less than `raw`, or has gone on to the comma.
theorem readString_raw {fuel : Nat} {s : List Char}
    (h : readString fuel (raw ++ '"' :: ',' :: '"' :: more) = some (s, rest)) :
    ((∀ c ∈ raw, PlainChar c) ∧ s.length = raw.length) ∨ s.length < raw.length ∨
      (s.getLast? = some ',' ∧ raw.getLast? = some '\\') := by
  induction fuel generalizing raw s with
  | zero => cases h
  | succ fuel ih =>
      cases raw with
      | nil =>
          rw [List.nil_append, readString_quote] at h
          obtain ⟨rfl, -⟩ := Prod.mk.inj (Option.some.inj h)
          exact Or.inl ⟨by simp, rfl⟩
      | cons c raw =>
          rw [List.cons_append] at h
          by_cases hquote : c = '"'
          · rw [hquote, readString_quote] at h
            obtain ⟨rfl, -⟩ := Prod.mk.inj (Option.some.inj h)
            exact Or.inr (Or.inl (by simp))
          by_cases hback : c = '\\'
          · rw [hback, readString_backslash] at h
            obtain ⟨⟨d, rest₁⟩, hescape, h⟩ := Option.bind_eq_some_iff.mp h
            obtain ⟨⟨tail, rest₂⟩, hread, h⟩ := Option.map_eq_some_iff.mp h
            obtain ⟨rfl, rfl⟩ := Prod.mk.inj h
            rcases readEscape_raw hescape with ⟨rfl, rfl⟩ | ⟨front, back, hfront, rfl, rfl⟩
            · -- The quote is escaped, the comma is read, and the next quote ends the string.
              have hcomma : PlainChar ',' := by decide
              match fuel with
              | 0 => cases hread
              | 1 => cases hread
              | fuel + 2 =>
                  rw [readString_plain hcomma, readString_quote] at hread
                  obtain ⟨rfl, -⟩ := Prod.mk.inj (Option.some.inj hread)
                  exact Or.inr (Or.inr ⟨rfl, by rw [hback]; rfl⟩)
            · have hpos := List.length_pos_iff.mpr hfront
              rcases ih hread with ⟨-, hlen⟩ | hlen | ⟨hlast, hraw⟩
              · exact Or.inr (Or.inl (by simp only [List.length_cons, List.length_append]; omega))
              · exact Or.inr (Or.inl (by simp only [List.length_cons, List.length_append]; omega))
              · refine Or.inr (Or.inr ⟨getLast?_cons_of_some hlast d, getLast?_cons_of_some ?_ c⟩)
                rw [List.getLast?_append, hraw]
                rfl
          by_cases hcontrol : c.toNat < 32
          · simp [readString, hquote, hback, hcontrol] at h
          · have hplain : PlainChar c := ⟨hquote, hback, Nat.not_lt.mp hcontrol⟩
            rw [readString_plain hplain] at h
            obtain ⟨⟨tail, rest₁⟩, hread, h⟩ := Option.map_eq_some_iff.mp h
            obtain ⟨rfl, rfl⟩ := Prod.mk.inj h
            rcases ih hread with ⟨hrest, hlen⟩ | hlen | ⟨hlast, hraw⟩
            · exact Or.inl ⟨List.forall_mem_cons.mpr ⟨hplain, hrest⟩, by simpa using hlen⟩
            · exact Or.inr (Or.inl (by simpa using hlen))
            · exact Or.inr (Or.inr ⟨getLast?_cons_of_some hlast c, getLast?_cons_of_some hraw c⟩)

-- What comes back as it was had nothing to escape.
theorem plain_of_readString_raw {fuel : Nat}
    (h : readString fuel (raw ++ '"' :: ',' :: '"' :: more) = some (raw, rest)) :
    ∀ c ∈ raw, PlainChar c := by
  rcases readString_raw h with ⟨hplain, -⟩ | hlen | ⟨hlast, hraw⟩
  · exact hplain
  · exact absurd hlen (Nat.lt_irrefl _)
  · rw [hlast] at hraw
    exact absurd hraw (by decide)

end Raw

section Numbers

def readDigits (text : List Char) : Option (List Char × List Char) :=
  let digits := text.takeWhile Char.isDigit
  if digits = [] then none else some (digits, text.dropWhile Char.isDigit)

-- A minus sign, and whatever else may stand in its place.
def readSign (others : List Char) : List Char → Bool × List Char
  | [] => (false, [])
  | c :: rest =>
      if c = '-' then (true, rest) else if c ∈ others then (false, rest) else (false, c :: rest)

def signed (negative : Bool) (n : Nat) : Int := if negative then -n else n

-- No digit follows a leading zero.
def readWhole (text : List Char) : Option (List Char × List Char) :=
  if text.head? = some '0' then some (['0'], text.tail) else readDigits text

def readFraction (text : List Char) : Option (List Char × List Char) :=
  if text.head? = some '.' then readDigits text.tail else some ([], text)

def readExponent (text : List Char) : Option (Int × List Char) :=
  if text.head? = some 'e' ∨ text.head? = some 'E' then do
    let (negative, text) := readSign ['+'] text.tail
    let (digits, rest) ← readDigits text
    return (signed negative (Nat.ofDigitChars 10 digits 0), rest)
  else some (0, text)

def readNumber (text : List Char) : Option (Json × List Char) := do
  let (negative, text) := readSign [] text
  let (whole, text) ← readWhole text
  let (fraction, text) ← readFraction text
  let (exponent, text) ← readExponent text
  return (.number (signed negative (Nat.ofDigitChars 10 (whole ++ fraction) 0))
    (exponent - fraction.length), text)

def sign (n : Int) : List Char := if n < 0 then ['-'] else []

def renderNumber (mantissa exponent : Int) : List Char :=
  sign mantissa ++ Nat.toDigits 10 mantissa.natAbs ++
    if exponent = 0 then [] else 'e' :: sign exponent ++ Nat.toDigits 10 exponent.natAbs

-- The text is over, or a comma or a bracket follows.
def Ends (rest : List Char) : Prop := ∀ c ∈ rest.head?, c = ',' ∨ c = ']' ∨ c = '}'

variable {rest : List Char}

theorem Ends.comma : Ends (',' :: rest) := by simp [Ends]

theorem Ends.bracket : Ends (']' :: rest) := by simp [Ends]

theorem Ends.brace : Ends ('}' :: rest) := by simp [Ends]

theorem Ends.nil : Ends [] := by simp [Ends]

theorem Ends.head_ne (h : Ends rest) {c : Char} (hc : c ≠ ',' ∧ c ≠ ']' ∧ c ≠ '}') :
    rest.head? ≠ some c := by
  intro hhead
  rcases h c hhead with rfl | rfl | rfl
  · exact hc.1 rfl
  · exact hc.2.1 rfl
  · exact hc.2.2 rfl

theorem readDigits_append {digits : List Char} (hne : digits ≠ [])
    (hdigits : ∀ c ∈ digits, c.isDigit = true) (hrest : ∀ c ∈ rest.head?, c.isDigit = false) :
    readDigits (digits ++ rest) = some (digits, rest) := by
  have htake : rest.takeWhile Char.isDigit = [] := by
    cases rest with
    | nil => rfl
    | cons c rest => simp [hrest c rfl]
  have hdrop : rest.dropWhile Char.isDigit = rest := by
    cases rest with
    | nil => rfl
    | cons c rest => simp [hrest c rfl]
  simp only [readDigits, List.takeWhile_append_of_pos hdigits, List.dropWhile_append_of_pos hdigits,
    htake, hdrop, List.append_nil, hne, if_false]

theorem isDigit_of_mem_toDigits {n : Nat} {c : Char} (h : c ∈ Nat.toDigits 10 n) :
    c.isDigit = true := Nat.isDigit_of_mem_toDigits (by decide) (by decide) h

theorem toDigits_eq_cons (n : Nat) : ∃ c rest, Nat.toDigits 10 n = c :: rest ∧ c.isDigit = true := by
  cases h : Nat.toDigits 10 n with
  | nil => exact absurd h Nat.toDigits_ne_nil
  | cons c rest => exact ⟨c, rest, rfl, isDigit_of_mem_toDigits (h ▸ List.mem_cons_self)⟩

theorem eq_zero_of_head_toDigits {n : Nat} (h : (Nat.toDigits 10 n).head? = some '0') : n = 0 := by
  induction n using Nat.base_induction 10 (by decide) with
  | single m hm =>
      rw [Nat.toDigits_of_lt_base hm] at h
      simpa using h
  | digit m k hk hm ih =>
      rw [← Nat.toDigits_append_toDigits (by decide) hm hk, List.head?_append] at h
      obtain ⟨c, rest, hcons, -⟩ := toDigits_eq_cons m
      rw [hcons] at h ih
      exact absurd (ih (by simpa using h)) (Nat.ne_of_gt hm)

theorem Ends.not_isDigit (h : Ends rest) : ∀ c ∈ rest.head?, c.isDigit = false := by
  intro c hc
  rcases h c hc with rfl | rfl | rfl <;> rfl

theorem readWhole_toDigits (n : Nat) (hrest : ∀ c ∈ rest.head?, c.isDigit = false) :
    readWhole (Nat.toDigits 10 n ++ rest) = some (Nat.toDigits 10 n, rest) := by
  have hread := readDigits_append (Nat.toDigits_ne_nil (b := 10) (n := n))
    (fun c => isDigit_of_mem_toDigits) hrest
  obtain ⟨c, digits, hcons, -⟩ := toDigits_eq_cons n
  have hhead : (Nat.toDigits 10 n ++ rest).head? = (Nat.toDigits 10 n).head? := by
    rw [hcons]
    rfl
  unfold readWhole
  split
  · rename_i hzero
    obtain rfl := eq_zero_of_head_toDigits (hhead ▸ hzero)
    rfl
  · exact hread

theorem readSign_sign (others : List Char) (hothers : ∀ c ∈ others, c.isDigit = false) (n : Int)
    (rest : List Char) :
    readSign others (sign n ++ (Nat.toDigits 10 n.natAbs ++ rest)) =
      (decide (n < 0), Nat.toDigits 10 n.natAbs ++ rest) := by
  obtain ⟨c, digits, hcons, hdigit⟩ := toDigits_eq_cons n.natAbs
  have hminus : c ≠ '-' := by
    rintro rfl
    cases hdigit
  have hother : c ∉ others := fun hmem => by simp [hothers c hmem] at hdigit
  unfold sign
  split
  · rename_i hneg
    simp [readSign, hneg]
  · rename_i hneg
    simp [readSign, hcons, hminus, hother, hneg]

theorem signed_natAbs (n : Int) : signed (decide (n < 0)) n.natAbs = n := by
  by_cases hneg : n < 0
  · rw [signed, if_pos (decide_eq_true hneg)]
    omega
  · rw [signed, if_neg (fun h => hneg (of_decide_eq_true h))]
    omega

theorem readExponent_ends (h : Ends rest) : readExponent rest = some (0, rest) := by
  rw [readExponent, if_neg (not_or.mpr ⟨h.head_ne (by decide), h.head_ne (by decide)⟩)]

theorem readExponent_render (exponent : Int) (h : Ends rest) :
    readExponent ('e' :: (sign exponent ++ (Nat.toDigits 10 exponent.natAbs ++ rest))) =
      some (exponent, rest) := by
  have hread := readDigits_append (Nat.toDigits_ne_nil (b := 10) (n := exponent.natAbs))
    (fun c => isDigit_of_mem_toDigits) h.not_isDigit
  have hsign := readSign_sign ['+'] (List.forall_mem_singleton.mpr rfl) exponent rest
  rw [readExponent, List.head?_cons, if_pos (Or.inl rfl), List.tail_cons, hsign]
  simp only [hread, Option.bind_eq_bind, Option.bind_some, Nat.ofDigitChars_ten_toDigits,
    signed_natAbs, Option.pure_def]

-- The digits of the mantissa end where the exponent or the rest of the text begins.
theorem readNumber_of_exponent (mantissa : Int) {exponent : Int} {tail : List Char}
    (hdigit : ∀ c ∈ tail.head?, c.isDigit = false) (hpoint : tail.head? ≠ some '.')
    (hexponent : readExponent tail = some (exponent, rest)) :
    readNumber (sign mantissa ++ (Nat.toDigits 10 mantissa.natAbs ++ tail)) =
      some (.number mantissa exponent, rest) := by
  have hfraction : readFraction tail = some ([], tail) := if_neg hpoint
  rw [readNumber, readSign_sign [] (by simp)]
  simp only [readWhole_toDigits mantissa.natAbs hdigit, hfraction, hexponent, Option.bind_eq_bind,
    Option.bind_some, List.append_nil, Nat.ofDigitChars_ten_toDigits, signed_natAbs, Option.pure_def,
    List.length_nil, Int.ofNat_zero, Int.sub_zero]

theorem readNumber_render (mantissa exponent : Int) (h : Ends rest) :
    readNumber (renderNumber mantissa exponent ++ rest) =
      some (.number mantissa exponent, rest) := by
  unfold renderNumber
  split
  · rename_i hzero
    rw [List.append_nil, List.append_assoc, hzero]
    exact readNumber_of_exponent mantissa h.not_isDigit (h.head_ne (by decide)) (readExponent_ends h)
  · rw [List.append_assoc, List.append_assoc, List.cons_append, List.cons_append, List.append_assoc]
    refine readNumber_of_exponent mantissa ?_ (by simp) (readExponent_render exponent h)
    rintro c ⟨⟩
    rfl

-- A number begins with a digit or a minus sign.
theorem renderNumber_eq_cons (mantissa exponent : Int) :
    ∃ c rest, renderNumber mantissa exponent = c :: rest ∧
      ∀ other : Char, other ≠ '-' → other.isDigit = false → c ≠ other := by
  obtain ⟨c, digits, hcons, hdigit⟩ := toDigits_eq_cons mantissa.natAbs
  by_cases hneg : mantissa < 0
  · refine ⟨'-', _, by rw [renderNumber, sign, if_pos hneg]; rfl, ?_⟩
    exact fun other hminus _ => hminus.symm
  · refine ⟨c, _, by rw [renderNumber, sign, if_neg hneg, hcons]; rfl, ?_⟩
    rintro other - hother rfl
    rw [hother] at hdigit
    cases hdigit

end Numbers

end Json

end LuxKernel.Formats
