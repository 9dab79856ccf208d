import LuxKernel.Formats.JsonTokens

namespace LuxKernel.Formats

namespace Json

section Values

def isSpace (c : Char) : Bool :=
  decide (c = ' ') || decide (c = '\t') || decide (c = '\n') || decide (c = '\r')

def skipSpace (text : List Char) : List Char := text.dropWhile isSpace

def literal (word : List Char) (value : Json) (text : List Char) : Option (Json × List Char) :=
  if word.isPrefixOf text then some (value, text.drop word.length) else none

-- The fuel bounds the depth and the number of elements. The length of the text is
-- always enough.
mutual
def parseValue : Nat → List Char → Option (Json × List Char)
  | 0, _ => none
  | fuel + 1, text =>
      match skipSpace text with
      | [] => none
      | c :: rest =>
          if c = '"' then
            (readString fuel rest).map fun (s, rest) => (.string (String.ofList s), rest)
          else if c = '[' then
            if (skipSpace rest).head? = some ']' then some (.array [], (skipSpace rest).tail)
            else (parseElements fuel rest).map fun (elements, rest) => (.array elements, rest)
          else if c = '{' then
            if (skipSpace rest).head? = some '}' then some (.object [], (skipSpace rest).tail)
            else (parseMembers fuel rest).map fun (members, rest) => (.object members, rest)
          else if c = 'n' then literal ['u', 'l', 'l'] .null rest
          else if c = 't' then literal ['r', 'u', 'e'] (.bool true) rest
          else if c = 'f' then literal ['a', 'l', 's', 'e'] (.bool false) rest
          else readNumber (c :: rest)

def parseElements : Nat → List Char → Option (List Json × List Char)
  | 0, _ => none
  | fuel + 1, text => do
      let (element, rest) ← parseValue fuel text
      match skipSpace rest with
      | ',' :: rest => (parseElements fuel rest).map fun (more, rest) => (element :: more, rest)
      | ']' :: rest => some ([element], rest)
      | _ => none

def parseMembers : Nat → List Char → Option (List (String × Json) × List Char)
  | 0, _ => none
  | fuel + 1, text =>
      match skipSpace text with
      | '"' :: rest => do
          let (name, rest) ← readString fuel rest
          match skipSpace rest with
          | ':' :: rest => do
              let (value, rest) ← parseValue fuel rest
              let member := (String.ofList name, value)
              match skipSpace rest with
              | ',' :: rest => (parseMembers fuel rest).map fun (more, rest) => (member :: more, rest)
              | '}' :: rest => some ([member], rest)
              | _ => none
          | _ => none
      | _ => none
end

-- The whole text is one value.
def parse (text : String) : Option Json := do
  let (value, rest) ← parseValue text.toList.length text.toList
  if skipSpace rest = [] then some value else none

mutual
def render : Json → List Char
  | .null => ['n', 'u', 'l', 'l']
  | .bool true => ['t', 'r', 'u', 'e']
  | .bool false => ['f', 'a', 'l', 's', 'e']
  | .number mantissa exponent => renderNumber mantissa exponent
  | .string s => quote s
  | .array elements => '[' :: renderElements elements
  | .object members => '{' :: renderMembers members

def renderElements : List Json → List Char
  | [] => [']']
  | [element] => render element ++ [']']
  | element :: next :: more => render element ++ ',' :: renderElements (next :: more)

def renderMembers : List (String × Json) → List Char
  | [] => ['}']
  | [(name, value)] => quote name ++ ':' :: render value ++ ['}']
  | (name, value) :: next :: more =>
      quote name ++ ':' :: render value ++ ',' :: renderMembers (next :: more)
end

-- Members that others follow.
def renderOpen (members : List (String × Json)) : List Char :=
  members.flatMap fun member => quote member.1 ++ ':' :: render member.2 ++ [',']

-- The values of the members of one name.
def valuesOf (members : List (String × Json)) (name : String) : List Json :=
  (members.filter fun member => member.1 = name).map Prod.snd

theorem valuesOf_append (members more : List (String × Json)) (name : String) :
    valuesOf (members ++ more) name = valuesOf members name ++ valuesOf more name := by
  rw [valuesOf, List.filter_append, List.map_append, valuesOf, valuesOf]

end Values

section Parsing

variable {fuel : Nat} {text rest rest' : List Char} {c : Char}

theorem skipSpace_cons (h : isSpace c = false) : skipSpace (c :: rest) = c :: rest := by
  simp [skipSpace, h]

theorem isSpace_eq_false (h : ∀ other : Char, other ≠ '-' → other.isDigit = false → c ≠ other) :
    isSpace c = false := by
  simp only [isSpace, Bool.or_eq_false_iff, decide_eq_false_iff_not]
  exact ⟨⟨⟨h _ (by decide) rfl, h _ (by decide) rfl⟩, h _ (by decide) rfl⟩, h _ (by decide) rfl⟩

theorem parseValue_string :
    parseValue (fuel + 1) ('"' :: rest) =
      (readString fuel rest).map fun read => (.string (String.ofList read.1), read.2) := rfl

theorem parseValue_array (h : (skipSpace rest).head? ≠ some ']') :
    parseValue (fuel + 1) ('[' :: rest) =
      (parseElements fuel rest).map fun parsed => (.array parsed.1, parsed.2) := by
  have hskip : skipSpace ('[' :: rest) = '[' :: rest := rfl
  simp only [parseValue, hskip, h, if_false]
  rfl

theorem parseValue_object (h : (skipSpace rest).head? ≠ some '}') :
    parseValue (fuel + 1) ('{' :: rest) =
      (parseMembers fuel rest).map fun parsed => (.object parsed.1, parsed.2) := by
  have hskip : skipSpace ('{' :: rest) = '{' :: rest := rfl
  simp only [parseValue, hskip, h, if_false]
  rfl

theorem parseValue_number (mantissa exponent : Int) (h : Ends rest) :
    parseValue (fuel + 1) (renderNumber mantissa exponent ++ rest) =
      some (.number mantissa exponent, rest) := by
  have hread := readNumber_render mantissa exponent h
  obtain ⟨c, tail, hcons, hne⟩ := renderNumber_eq_cons mantissa exponent
  rw [hcons, List.cons_append] at hread ⊢
  rw [parseValue, skipSpace_cons (isSpace_eq_false hne)]
  simp only [hne '"' (by decide) rfl, hne '[' (by decide) rfl, hne '{' (by decide) rfl,
    hne 'n' (by decide) rfl, hne 't' (by decide) rfl, hne 'f' (by decide) rfl, if_false]
  exact hread

theorem parseElements_cons {element : Json}
    (hvalue : parseValue fuel text = some (element, ',' :: rest)) :
    parseElements (fuel + 1) text =
      (parseElements fuel rest).map fun parsed => (element :: parsed.1, parsed.2) := by
  have hskip : skipSpace (',' :: rest) = ',' :: rest := rfl
  simp only [parseElements, hvalue, Option.bind_eq_bind, Option.bind_some, hskip]

theorem parseElements_last {element : Json}
    (hvalue : parseValue fuel text = some (element, ']' :: rest)) :
    parseElements (fuel + 1) text = some ([element], rest) := by
  have hskip : skipSpace (']' :: rest) = ']' :: rest := rfl
  simp only [parseElements, hvalue, Option.bind_eq_bind, Option.bind_some, hskip]

theorem parseMembers_cons {name : List Char} {value : Json}
    (hname : readString fuel text = some (name, ':' :: rest))
    (hvalue : parseValue fuel rest = some (value, ',' :: rest')) :
    parseMembers (fuel + 1) ('"' :: text) = (parseMembers fuel rest').map
      fun parsed => ((String.ofList name, value) :: parsed.1, parsed.2) := by
  have hquote : skipSpace ('"' :: text) = '"' :: text := rfl
  have hcolon : skipSpace (':' :: rest) = ':' :: rest := rfl
  have hskip : skipSpace (',' :: rest') = ',' :: rest' := rfl
  simp only [parseMembers, hquote, hname, hcolon, hvalue, Option.bind_eq_bind, Option.bind_some,
    hskip]

theorem parseMembers_last {name : List Char} {value : Json}
    (hname : readString fuel text = some (name, ':' :: rest))
    (hvalue : parseValue fuel rest = some (value, '}' :: rest')) :
    parseMembers (fuel + 1) ('"' :: text) = some ([(String.ofList name, value)], rest') := by
  have hquote : skipSpace ('"' :: text) = '"' :: text := rfl
  have hcolon : skipSpace (':' :: rest) = ':' :: rest := rfl
  have hskip : skipSpace ('}' :: rest') = '}' :: rest' := rfl
  simp only [parseMembers, hquote, hname, hcolon, hvalue, Option.bind_eq_bind, Option.bind_some,
    hskip]

-- Every value begins with a character of its own.
theorem render_eq_cons (v : Json) :
    ∃ c rest, render v = c :: rest ∧ isSpace c = false ∧ c ≠ ']' := by
  match v with
  | .null => exact ⟨_, _, rfl, rfl, by decide⟩
  | .bool true => exact ⟨_, _, rfl, rfl, by decide⟩
  | .bool false => exact ⟨_, _, rfl, rfl, by decide⟩
  | .string _ => exact ⟨_, _, rfl, rfl, by decide⟩
  | .array _ => exact ⟨_, _, rfl, rfl, by decide⟩
  | .object _ => exact ⟨_, _, rfl, rfl, by decide⟩
  | .number mantissa exponent =>
      obtain ⟨c, rest, hcons, hne⟩ := renderNumber_eq_cons mantissa exponent
      exact ⟨c, rest, hcons, isSpace_eq_false hne, hne ']' (by decide) rfl⟩

theorem quote_append (s : String) (rest : List Char) :
    quote s ++ rest = '"' :: (s.toList.flatMap escapeChar ++ '"' :: rest) := by
  simp [quote]

theorem readString_quoted {s : String} (h : (quote s).length ≤ fuel + 1) (rest : List Char) :
    readString fuel (s.toList.flatMap escapeChar ++ '"' :: rest) = some (s.toList, rest) := by
  apply readString_escaped
  simp only [quote, List.length_append, List.length_cons, List.length_nil] at h
  omega

theorem head_renderElements (element : Json) (more : List Json) (rest : List Char) :
    (skipSpace (renderElements (element :: more) ++ rest)).head? ≠ some ']' := by
  obtain ⟨tail, htail⟩ : ∃ tail, renderElements (element :: more) = render element ++ tail := by
    cases more with
    | nil => exact ⟨_, rfl⟩
    | cons next more => exact ⟨_, rfl⟩
  obtain ⟨c, text, hcons, hspace, hbracket⟩ := render_eq_cons element
  rw [htail, hcons, List.append_assoc, List.cons_append, skipSpace_cons hspace]
  exact fun heq => hbracket (Option.some.inj heq)

theorem renderMembers_cons (member next : String × Json) (more : List (String × Json)) :
    renderMembers (member :: next :: more) =
      quote member.1 ++ ':' :: (render member.2 ++ ',' :: renderMembers (next :: more)) := by
  rw [renderMembers, List.append_assoc, List.cons_append]

theorem head_quote (name : String) (rest : List Char) :
    (skipSpace (quote name ++ rest)).head? ≠ some '}' := by
  rw [quote_append, skipSpace_cons rfl]
  exact fun heq => absurd (Option.some.inj heq) (by decide)

theorem head_renderMembers (member : String × Json) (more : List (String × Json))
    (rest : List Char) :
    (skipSpace (renderMembers (member :: more) ++ rest)).head? ≠ some '}' := by
  obtain ⟨tail, htail⟩ : ∃ tail, renderMembers (member :: more) = quote member.1 ++ tail := by
    cases more with
    | nil => exact ⟨_, List.append_assoc _ _ _⟩
    | cons next more => exact ⟨_, renderMembers_cons member next more⟩
  rw [htail, List.append_assoc]
  exact head_quote member.1 _

theorem exists_fuel {text : List Char} (hfuel : text.length ≤ fuel) (hne : text ≠ []) :
    ∃ n, fuel = n + 1 ∧ text.length ≤ n + 1 := by
  have hpos := List.length_pos_iff.mpr hne
  exact ⟨fuel - 1, by omega, by omega⟩

-- What is written is read back, whatever follows it.
mutual
theorem parseValue_render (v : Json) (fuel : Nat) (rest : List Char)
    (hfuel : (render v).length ≤ fuel) (hends : Ends rest) :
    parseValue fuel (render v ++ rest) = some (v, rest) := by
  obtain ⟨first, tail, hcons, -⟩ := render_eq_cons v
  obtain ⟨fuel, rfl, hfuel⟩ := exists_fuel hfuel (by rw [hcons]; exact List.cons_ne_nil _ _)
  match v with
  | .null => rfl
  | .bool true => rfl
  | .bool false => rfl
  | .number mantissa exponent => exact parseValue_number mantissa exponent hends
  | .string s =>
      rw [render, quote_append, parseValue_string, readString_quoted hfuel]
      simp
  | .array [] => rfl
  | .array (element :: more) =>
      rw [render, List.length_cons] at hfuel
      rw [render, List.cons_append, parseValue_array (head_renderElements element more rest),
        parseElements_render (element :: more) fuel rest (List.cons_ne_nil _ _)
          (Nat.le_of_succ_le_succ hfuel)]
      rfl
  | .object [] => rfl
  | .object (member :: more) =>
      rw [render, List.length_cons] at hfuel
      rw [render, List.cons_append, parseValue_object (head_renderMembers member more rest),
        parseMembers_render (member :: more) fuel rest (List.cons_ne_nil _ _)
          (Nat.le_of_succ_le_succ hfuel)]
      rfl

theorem parseElements_render (elements : List Json) (fuel : Nat) (rest : List Char)
    (hne : elements ≠ []) (hfuel : (renderElements elements).length ≤ fuel) :
    parseElements fuel (renderElements elements ++ rest) = some (elements, rest) := by
  match elements with
  | [] => exact absurd rfl hne
  | [element] =>
      obtain ⟨fuel, rfl, hfuel⟩ := exists_fuel hfuel (by simp [renderElements])
      rw [renderElements, List.length_append, List.length_singleton] at hfuel
      rw [renderElements, List.append_assoc]
      exact parseElements_last (parseValue_render element fuel _ (by omega) Ends.bracket)
  | element :: next :: more =>
      obtain ⟨fuel, rfl, hfuel⟩ := exists_fuel hfuel (by simp [renderElements])
      rw [renderElements, List.length_append, List.length_cons] at hfuel
      rw [renderElements, List.append_assoc, List.cons_append,
        parseElements_cons (parseValue_render element fuel _ (by omega) Ends.comma),
        parseElements_render (next :: more) fuel rest (List.cons_ne_nil _ _) (by omega)]
      rfl

theorem parseMembers_render (members : List (String × Json)) (fuel : Nat) (rest : List Char)
    (hne : members ≠ []) (hfuel : (renderMembers members).length ≤ fuel) :
    parseMembers fuel (renderMembers members ++ rest) = some (members, rest) := by
  match members with
  | [] => exact absurd rfl hne
  | [(name, value)] =>
      obtain ⟨fuel, rfl, hfuel⟩ := exists_fuel hfuel (by simp [renderMembers, quote])
      rw [renderMembers, List.length_append, List.length_append, List.length_cons,
        List.length_singleton] at hfuel
      rw [renderMembers, List.append_assoc, List.append_assoc, quote_append, List.cons_append,
        List.singleton_append,
        parseMembers_last (readString_quoted (s := name) (by omega) _)
          (parseValue_render value fuel _ (by omega) Ends.brace)]
      simp
  | (name, value) :: next :: more =>
      obtain ⟨fuel, rfl, hfuel⟩ := exists_fuel hfuel (by simp [renderMembers, quote])
      simp only [renderMembers_cons, List.length_append, List.length_cons] at hfuel
      rw [renderMembers_cons, List.append_assoc, List.cons_append, List.append_assoc,
        List.cons_append, quote_append,
        parseMembers_cons (readString_quoted (s := name) (by omega) _)
          (parseValue_render value fuel _ (by omega) Ends.comma),
        parseMembers_render (next :: more) fuel rest (List.cons_ne_nil _ _) (by omega)]
      simp
end

theorem renderOpen_cons (member : String × Json) (members : List (String × Json)) :
    renderOpen (member :: members) =
      quote member.1 ++ ':' :: (render member.2 ++ ',' :: renderOpen members) := by
  simp [renderOpen]

theorem renderMembers_append (members : List (String × Json)) (next : String × Json)
    (more : List (String × Json)) :
    renderMembers (members ++ next :: more) = renderOpen members ++ renderMembers (next :: more) := by
  induction members with
  | nil => rfl
  | cons member members ih =>
      obtain ⟨first, tail, hcons⟩ : ∃ first tail, members ++ next :: more = first :: tail :=
        List.exists_cons_of_ne_nil (by simp)
      rw [List.cons_append, hcons, renderMembers_cons, ← hcons, ih, renderOpen_cons]
      simp

theorem length_renderOpen (members : List (String × Json)) :
    members.length ≤ (renderOpen members).length := by
  induction members with
  | nil => simp
  | cons member members ih =>
      simp only [renderOpen_cons, List.length_append, List.length_cons]
      omega

theorem parseMembers_open {members : List (String × Json)}
    (hfuel : (renderOpen members).length ≤ fuel + members.length) (text : List Char) :
    parseMembers (fuel + members.length) (renderOpen members ++ text) =
      (parseMembers fuel text).map fun parsed => (members ++ parsed.1, parsed.2) := by
  induction members with
  | nil => simp [renderOpen]
  | cons member members ih =>
      simp only [renderOpen_cons, List.length_append, List.length_cons] at hfuel
      rw [renderOpen_cons, List.append_assoc, List.cons_append, List.append_assoc, List.cons_append,
        quote_append, List.length_cons, ← Nat.add_assoc,
        parseMembers_cons (readString_quoted (s := member.1) (by omega) _)
          (parseValue_render member.2 _ _ (by omega) Ends.comma),
        ih (by omega), Option.map_map]
      simp [Function.comp_def]

-- The first element of an array that is read, and the value of the first member.
theorem parseElements_eq_some {elements : List Json}
    (h : parseElements (fuel + 1) text = some (elements, rest)) :
    ∃ element more rest', parseValue fuel text = some (element, rest') ∧
      elements = element :: more := by
  simp only [parseElements, Option.bind_eq_bind, Option.bind_eq_some_iff] at h
  obtain ⟨⟨element, tail⟩, hvalue, h⟩ := h
  refine ⟨element, ?_⟩
  split at h
  · obtain ⟨⟨more, _⟩, -, heq⟩ := Option.map_eq_some_iff.mp h
    exact ⟨more, tail, hvalue, (Prod.mk.inj heq).1.symm⟩
  · exact ⟨[], tail, hvalue, (Prod.mk.inj (Option.some.inj h)).1.symm⟩
  · exact absurd h (by simp)

theorem parseMembers_eq_some {name : List Char} {members : List (String × Json)}
    (hname : readString fuel text = some (name, ':' :: rest))
    (h : parseMembers (fuel + 1) ('"' :: text) = some (members, rest')) :
    ∃ value more rest'', parseValue fuel rest = some (value, rest'') ∧
      members = (String.ofList name, value) :: more := by
  have hquote : skipSpace ('"' :: text) = '"' :: text := rfl
  have hcolon : skipSpace (':' :: rest) = ':' :: rest := rfl
  simp only [parseMembers, hquote, hname, hcolon, Option.bind_eq_bind, Option.bind_some,
    Option.bind_eq_some_iff] at h
  obtain ⟨⟨value, tail⟩, hvalue, h⟩ := h
  refine ⟨value, ?_⟩
  split at h
  · obtain ⟨⟨more, _⟩, -, heq⟩ := Option.map_eq_some_iff.mp h
    exact ⟨more, tail, hvalue, (Prod.mk.inj heq).1.symm⟩
  · exact ⟨[], tail, hvalue, (Prod.mk.inj (Option.some.inj h)).1.symm⟩
  · exact absurd h (by simp)

-- An object that is read after some members and a name has those members, and the value
-- that was read for the name.
theorem parseValue_open {members : List (String × Json)} {name : String} {json : Json}
    (hfuel : (renderOpen members).length + (quote name).length ≤ fuel)
    (h : parseValue (fuel + 2) ('{' :: (renderOpen members ++ (quote name ++ ':' :: text))) =
      some (json, rest)) :
    ∃ n value more rest', parseValue n text = some (value, rest') ∧
      json = .object (members ++ (name, value) :: more) := by
  have hhead : (skipSpace (renderOpen members ++ (quote name ++ ':' :: text))).head? ≠ some '}' := by
    cases members with
    | nil => exact head_quote name _
    | cons member members =>
        rw [renderOpen_cons, List.append_assoc]
        exact head_quote member.1 _
  have hlength := length_renderOpen members
  obtain ⟨n, hn⟩ : ∃ n, fuel + 1 = n + 1 + members.length := ⟨fuel - members.length, by omega⟩
  rw [parseValue_object hhead, hn, parseMembers_open (by omega), Option.map_map] at h
  obtain ⟨⟨tail, rest'⟩, htail, hjson⟩ := Option.map_eq_some_iff.mp h
  rw [quote_append] at htail
  obtain ⟨value, more, rest'', hvalue, rfl⟩ :=
    parseMembers_eq_some (readString_quoted (by omega) _) htail
  refine ⟨n, value, more, rest'', hvalue, ?_⟩
  rw [← (Prod.mk.inj hjson).1, String.ofList_toList]

theorem parseValue_of_parse {text : String} {v : Json} (h : parse text = some v) :
    ∃ rest, parseValue text.toList.length text.toList = some (v, rest) := by
  simp only [parse, Option.bind_eq_bind, Option.bind_eq_some_iff] at h
  obtain ⟨⟨value, rest⟩, hvalue, h⟩ := h
  split at h
  · exact ⟨rest, Option.some.inj h ▸ hvalue⟩
  · exact absurd h (by simp)

theorem parse_render (v : Json) : parse (String.ofList (render v)) = some v := by
  have hparse := parseValue_render v (render v).length [] (Nat.le_refl _) Ends.nil
  rw [List.append_nil] at hparse
  simp only [parse, String.toList_ofList, hparse, Option.bind_eq_bind, Option.bind_some]
  exact if_pos rfl

end Parsing

end Json

end LuxKernel.Formats
