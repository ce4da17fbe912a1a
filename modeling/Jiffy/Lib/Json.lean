-- SUMMARY: JSON text: parsing with a reviver, stringifying, and the round trip of flat objects.
import Jiffy.Lib.DateText
import Mathlib.Data.List.Sort
import Mathlib.Data.List.TakeDrop

/-!
# JSON

`JSON.parse` and `JSON.stringify` over characters. A string is a sequence of
Unicode scalar values, so a lone surrogate in an escape reads as U+FFFD. What
the language leaves to its engine is a parameter: how numbers and dates that
are not in the ISO format read, and how numbers are written.
-/

namespace Js

/-- A JSON value, as `JSON.parse` leaves it. -/
inductive Json where
  | null
  | bool (b : Bool)
  | number (n : Number)
  | string (s : String)
  | array (elements : List Json)
  /-- The names of the fields are distinct. -/
  | object (fields : List (String × Json))

/-- A value as `JSON.stringify` is given it, and as a reviver can make it. -/
inductive Value where
  | null
  | bool (b : Bool)
  | number (n : Number)
  | string (s : String)
  | date (d : Date)
  | array (elements : List Value)
  | object (fields : List (String × Value))

/-- How the engine reads text: `Number(text)`, and `new Date(text)`, which it
may extend beyond the ISO format in its own way. -/
structure TextReader where
  number : String → Number
  date : String → Date

/-- What `toISOString` writes, `new Date` reads back. -/
def TextReader.ReadsISO (reader : TextReader) : Prop :=
  ∀ t, IsTime t → reader.date (toISOString t) = Date.of t

/-- A reader of dates in the ISO format alone. -/
def TextReader.iso (number : String → Number) : TextReader := ⟨number, fun text => ⟨parseISO text⟩⟩

theorem TextReader.iso_readsISO (number : String → Number) : (iso number).ReadsISO := by
  intro t ht
  exact congrArg Date.mk (parseISO_toISOString ht)

-- ---------------------------------------------------------------------------
-- String literals
-- ---------------------------------------------------------------------------

def hexDigit (n : Nat) : Char := if n < 10 then Char.ofNat (48 + n) else Char.ofNat (87 + n)

def hexValue (c : Char) : Option Nat :=
  if c.isDigit then some (c.toNat - 48)
  else if 'a' ≤ c ∧ c ≤ 'f' then some (c.toNat - 87)
  else if 'A' ≤ c ∧ c ≤ 'F' then some (c.toNat - 55)
  else none

/-- One character of a literal, as `JSON.stringify` writes it. -/
def escapeChar (c : Char) : List Char :=
  if c = '"' then ['\\', '"']
  else if c = '\\' then ['\\', '\\']
  else if c.toNat = 8 then ['\\', 'b']
  else if c.toNat = 9 then ['\\', 't']
  else if c.toNat = 10 then ['\\', 'n']
  else if c.toNat = 12 then ['\\', 'f']
  else if c.toNat = 13 then ['\\', 'r']
  else if c.toNat < 32 then ['\\', 'u', '0', '0', hexDigit (c.toNat / 16), hexDigit (c.toNat % 16)]
  else [c]

def quote (s : String) : List Char := '"' :: s.toList.flatMap escapeChar ++ ['"']

def simpleEscape (c : Char) : Option Char :=
  if c = '"' ∨ c = '\\' ∨ c = '/' then some c
  else if c = 'b' then some (Char.ofNat 8)
  else if c = 't' then some (Char.ofNat 9)
  else if c = 'n' then some (Char.ofNat 10)
  else if c = 'f' then some (Char.ofNat 12)
  else if c = 'r' then some (Char.ofNat 13)
  else none

/-- Four hexadecimal digits. -/
def codeUnit (a b c d : Char) : Option Nat := do
  let a ← hexValue a
  let b ← hexValue b
  let c ← hexValue c
  let d ← hexValue d
  return 4096 * a + 256 * b + 16 * c + d

/-- The rest of a literal past its opening quote: characters, and the code
units that escapes give, with what follows the literal. -/
def readUnits : List Char → Option (List (Char ⊕ Nat) × List Char)
  | [] => none
  | '"' :: cs => some ([], cs)
  | '\\' :: 'u' :: a :: b :: c :: d :: cs =>
    match codeUnit a b c d, readUnits cs with
    | some unit, some (units, rest) => some (.inr unit :: units, rest)
    | _, _ => none
  | '\\' :: e :: cs =>
    match simpleEscape e, readUnits cs with
    | some c, some (units, rest) => some (.inl c :: units, rest)
    | _, _ => none
  | c :: cs =>
    if c.toNat < 32 then none
    else
      match readUnits cs with
      | some (units, rest) => some (.inl c :: units, rest)
      | none => none

def isHigh (unit : Nat) : Bool := 0xD800 ≤ unit && unit ≤ 0xDBFF

def isLow (unit : Nat) : Bool := 0xDC00 ≤ unit && unit ≤ 0xDFFF

/-- What stands for a lone surrogate. -/
def replacement : Char := '\uFFFD'

/-- Surrogate pairs put together, given the high surrogate that was just read. -/
def decodeUnits : Option Nat → List (Char ⊕ Nat) → List Char
  | none, [] => []
  | some _, [] => [replacement]
  | none, .inl c :: units => c :: decodeUnits none units
  | some _, .inl c :: units => replacement :: c :: decodeUnits none units
  | none, .inr unit :: units =>
    if isHigh unit then decodeUnits (some unit) units
    else (if isLow unit then replacement else Char.ofNat unit) :: decodeUnits none units
  | some high, .inr unit :: units =>
    if isLow unit then
      Char.ofNat (0x10000 + 1024 * (high - 0xD800) + (unit - 0xDC00)) :: decodeUnits none units
    else if isHigh unit then
      replacement :: decodeUnits (some unit) units
    else
      replacement :: Char.ofNat unit :: decodeUnits none units

def readString (cs : List Char) : Option (String × List Char) :=
  (readUnits cs).map fun (units, rest) => (String.ofList (decodeUnits none units), rest)

-- ---------------------------------------------------------------------------
-- Parsing
-- ---------------------------------------------------------------------------

def skipSpace (cs : List Char) : List Char :=
  cs.dropWhile fun c => c = ' ' ∨ c = '\t' ∨ c = '\n' ∨ c = '\r'

/-- One digit at least. -/
def readDigitRun (cs : List Char) : Option (List Char × List Char) :=
  match cs.span Char.isDigit with
  | ([], _) => none
  | (ds, rest) => some (ds, rest)

/-- `0`, or digits that do not begin with it. -/
def readInteger : List Char → Option (List Char × List Char)
  | '0' :: cs => some (['0'], cs)
  | cs => readDigitRun cs

/-- A fraction, if there is one. -/
def readFraction : List Char → Option (List Char × List Char)
  | '.' :: cs => (readDigitRun cs).map fun (ds, rest) => ('.' :: ds, rest)
  | cs => some ([], cs)

/-- An exponent, if there is one. -/
def readExponent : List Char → Option (List Char × List Char)
  | [] => some ([], [])
  | e :: cs =>
    if e = 'e' ∨ e = 'E' then
      match cs with
      | [] => none
      | sign :: cs' =>
        if sign = '+' ∨ sign = '-' then
          (readDigitRun cs').map fun (ds, rest) => (e :: sign :: ds, rest)
        else
          (readDigitRun cs).map fun (ds, rest) => (e :: ds, rest)
    else
      some ([], e :: cs)

def readSign : List Char → List Char × List Char
  | '-' :: cs => (['-'], cs)
  | cs => ([], cs)

/-- A number literal. -/
def readNumber (cs : List Char) : Option (String × List Char) := do
  let (sign, cs) := readSign cs
  let (integer, cs) ← readInteger cs
  let (fraction, cs) ← readFraction cs
  let (exponent, cs) ← readExponent cs
  return (String.ofList (sign ++ integer ++ fraction ++ exponent), cs)

/-- The first of two fields with one name keeps its place, the second its value. -/
def setField (fields : List (String × Json)) (name : String) (v : Json) : List (String × Json) :=
  if fields.any fun field => field.1 = name then
    fields.map fun field => if field.1 = name then (name, v) else field
  else
    fields ++ [(name, v)]

def distinctFields (fields : List (String × Json)) : List (String × Json) :=
  fields.foldl (fun acc field => setField acc field.1 field.2) []

/-- The array index that a name spells, without leading zeros. -/
def arrayIndex (name : String) : Option Nat :=
  let digits := name.toList
  let index := digits.foldl (fun n c => 10 * n + (c.toNat - 48)) 0
  if digits ≠ [] ∧ digits.all Char.isDigit ∧ (digits.head? = some '0' → digits = ['0']) ∧ index < 2 ^ 32 - 1 then
    some index
  else
    none

/-- The fields as an object keeps them: those with the name of an index first,
by their indices. -/
def enumerated (fields : List (String × Json)) : List (String × Json) :=
  (fields.filter fun field => (arrayIndex field.1).isSome).insertionSort
    (fun field field' => (arrayIndex field.1).getD 0 ≤ (arrayIndex field'.1).getD 0) ++
  fields.filter fun field => (arrayIndex field.1).isNone

section Parse

variable (number : String → Number)

/-- The rest of an array past its bracket, given how to read one element. -/
def readElements (value : List Char → Option (Json × List Char)) :
    Nat → List Char → Option (List Json × List Char)
  | 0, _ => none
  | fuel + 1, cs =>
    match value cs with
    | none => none
    | some (v, cs) =>
      match skipSpace cs with
      | ',' :: cs => (readElements value fuel cs).map fun (vs, cs) => (v :: vs, cs)
      | ']' :: cs => some ([v], cs)
      | _ => none

/-- A name and its value, past the name's opening quote. -/
def readField (value : List Char → Option (Json × List Char)) (cs : List Char) :
    Option ((String × Json) × List Char) :=
  match readString cs with
  | none => none
  | some (name, cs) =>
    match skipSpace cs with
    | ':' :: cs => (value cs).map fun (v, cs) => ((name, v), cs)
    | _ => none

/-- The rest of an object past its brace, given how to read one value. -/
def readFields (value : List Char → Option (Json × List Char)) :
    Nat → List Char → Option (List (String × Json) × List Char)
  | 0, _ => none
  | fuel + 1, cs =>
    match skipSpace cs with
    | '"' :: cs =>
      match readField value cs with
      | none => none
      | some (field, cs) =>
        match skipSpace cs with
        | ',' :: cs => (readFields value fuel cs).map fun (fields, cs) => (field :: fields, cs)
        | '}' :: cs => some ([field], cs)
        | _ => none
    | _ => none

/-- A value, with what follows it. -/
def readValue : Nat → List Char → Option (Json × List Char)
  | 0, _ => none
  | fuel + 1, cs =>
    match skipSpace cs with
    | '"' :: cs => (readString cs).map fun (s, cs) => (.string s, cs)
    | '[' :: cs =>
      match skipSpace cs with
      | ']' :: cs => some (.array [], cs)
      | cs => (readElements (readValue fuel) fuel cs).map fun (vs, cs) => (.array vs, cs)
    | '{' :: cs =>
      match skipSpace cs with
      | '}' :: cs => some (.object [], cs)
      | cs => (readFields (readValue fuel) fuel cs).map fun (fields, cs) =>
          (.object (enumerated (distinctFields fields)), cs)
    | 'n' :: 'u' :: 'l' :: 'l' :: cs => some (.null, cs)
    | 't' :: 'r' :: 'u' :: 'e' :: cs => some (.bool true, cs)
    | 'f' :: 'a' :: 'l' :: 's' :: 'e' :: cs => some (.bool false, cs)
    | cs => (readNumber cs).map fun (literal, cs) => (.number (number literal), cs)

/-- `JSON.parse(text)`; no value is a `SyntaxError`. -/
def Json.parse (text : String) : Option Json :=
  (readValue number (text.toList.length + 1) text.toList).bind fun (v, cs) =>
    if skipSpace cs = [] then some v else none

end Parse

-- ---------------------------------------------------------------------------
-- Revivers
-- ---------------------------------------------------------------------------

section Revive

variable {ε : Type} (reviver : String → Value → Except ε Value)

mutual

/-- What the second argument of `JSON.parse` makes of a value: it is called for
every part, the parts of a value before the value. -/
def Json.revive (name : String) : Json → Except ε Value
  | .null => reviver name .null
  | .bool b => reviver name (.bool b)
  | .number n => reviver name (.number n)
  | .string s => reviver name (.string s)
  | .array elements => do
    let elements ← reviveElements 0 elements
    reviver name (.array elements)
  | .object fields => do
    let fields ← reviveFields fields
    reviver name (.object fields)

def reviveElements (index : Nat) : List Json → Except ε (List Value)
  | [] => return []
  | v :: vs => do
    let v ← v.revive (toString index)
    let vs ← reviveElements (index + 1) vs
    return v :: vs

def reviveFields : List (String × Json) → Except ε (List (String × Value))
  | [] => return []
  | (name, v) :: fields => do
    let v ← v.revive name
    let fields ← reviveFields fields
    return (name, v) :: fields

end

end Revive

-- ---------------------------------------------------------------------------
-- Stringifying
-- ---------------------------------------------------------------------------

section Stringify

variable (numberText : Number → String)

mutual

/-- The characters of `JSON.stringify(value)`. -/
def Value.chars : Value → List Char
  | .null => ['n', 'u', 'l', 'l']
  | .bool true => ['t', 'r', 'u', 'e']
  | .bool false => ['f', 'a', 'l', 's', 'e']
  | .number (.finite q) => (numberText (.finite q)).toList
  | .number _ => ['n', 'u', 'l', 'l']
  | .string s => quote s
  | .date ⟨some t⟩ => quote (toISOString t)
  | .date ⟨none⟩ => ['n', 'u', 'l', 'l']
  | .array elements => '[' :: elementsChars true elements ++ [']']
  | .object fields => '{' :: fieldsChars true fields ++ ['}']

/-- The elements of an array, each but the first after a comma. -/
def elementsChars (first : Bool) : List Value → List Char
  | [] => []
  | v :: vs => (if first then [] else [',']) ++ v.chars ++ elementsChars false vs

/-- The fields of an object, each but the first after a comma. -/
def fieldsChars (first : Bool) : List (String × Value) → List Char
  | [] => []
  | (name, v) :: fields =>
    (if first then [] else [',']) ++ quote name ++ ':' :: v.chars ++ fieldsChars false fields

end

/-- `JSON.stringify(value)`. -/
def Value.stringify (v : Value) : String := String.ofList (v.chars numberText)

end Stringify

-- ---------------------------------------------------------------------------
-- Reading literals back
-- ---------------------------------------------------------------------------

/-- What an escaped character reads as. -/
def escapeUnit (c : Char) : Char ⊕ Nat :=
  if c.toNat < 32 ∧ c.toNat ≠ 8 ∧ c.toNat ≠ 9 ∧ c.toNat ≠ 10 ∧ c.toNat ≠ 12 ∧ c.toNat ≠ 13 then
    .inr c.toNat
  else
    .inl c

theorem hexValue_hexDigit {n : Nat} (h : n < 16) : hexValue (hexDigit n) = some n := by
  have hall : ∀ n < 16, hexValue (hexDigit n) = some n := by decide
  exact hall n h

theorem readUnits_escapeChar {c : Char} {cs rest : List Char} {units : List (Char ⊕ Nat)}
    (h : readUnits cs = some (units, rest)) :
    readUnits (escapeChar c ++ cs) = some (escapeUnit c :: units, rest) := by
  have hnat : ∀ n, c.toNat = n → c = Char.ofNat n := fun n hn => hn ▸ (Char.ofNat_toNat c).symm
  unfold escapeChar
  split
  · next hc => subst hc; simp [readUnits, simpleEscape, h, escapeUnit]
  split
  · next hc => subst hc; simp [readUnits, simpleEscape, h, escapeUnit]
  split
  · next hc => obtain rfl := hnat _ hc; simp [readUnits, simpleEscape, h, escapeUnit]
  split
  · next hc => obtain rfl := hnat _ hc; simp [readUnits, simpleEscape, h, escapeUnit]
  split
  · next hc => obtain rfl := hnat _ hc; simp [readUnits, simpleEscape, h, escapeUnit]
  split
  · next hc => obtain rfl := hnat _ hc; simp [readUnits, simpleEscape, h, escapeUnit]
  split
  · next hc => obtain rfl := hnat _ hc; simp [readUnits, simpleEscape, h, escapeUnit]
  split
  · next hc =>
    have hhigh := hexValue_hexDigit (show c.toNat / 16 < 16 by omega)
    have hlow := hexValue_hexDigit (show c.toNat % 16 < 16 by omega)
    have hzero : hexValue '0' = some 0 := by decide
    have hunit : codeUnit '0' '0' (hexDigit (c.toNat / 16)) (hexDigit (c.toNat % 16)) = some c.toNat := by
      simp only [codeUnit, hhigh, hlow, hzero, Option.bind_eq_bind, Option.bind_some, Option.pure_def,
        Option.some.injEq]
      omega
    have hescape : escapeUnit c = .inr c.toNat := if_pos (by omega)
    simp only [List.cons_append, List.nil_append, readUnits, hunit, h, hescape]
  · next hquote hslash _ _ _ _ _ hcontrol =>
    have hescape : escapeUnit c = .inl c := if_neg (by omega)
    simp only [List.cons_append, List.nil_append]
    rw [readUnits.eq_def]
    split <;> simp_all

theorem readUnits_escaped (s rest : List Char) :
    readUnits (s.flatMap escapeChar ++ '"' :: rest) = some (s.map escapeUnit, rest) := by
  induction s with
  | nil => rfl
  | cons c s ih =>
    rw [List.flatMap_cons, List.append_assoc, List.map_cons]
    exact readUnits_escapeChar ih

theorem decodeUnits_escapeUnit (s : List Char) : decodeUnits none (s.map escapeUnit) = s := by
  induction s with
  | nil => rfl
  | cons c s ih =>
    rw [List.map_cons]
    cases hunit : escapeUnit c with
    | inl c' =>
      unfold escapeUnit at hunit
      split at hunit
      · cases hunit
      · cases hunit
        exact congrArg (List.cons c) ih
    | inr unit =>
      unfold escapeUnit at hunit
      split at hunit
      · next hc =>
        cases hunit
        have hhigh : isHigh c.toNat = false := by simp [isHigh]; omega
        have hlow : isLow c.toNat = false := by simp [isLow]; omega
        simp only [decodeUnits, hhigh, hlow, Bool.false_eq_true, if_false, Char.ofNat_toNat, ih]
      · cases hunit

/-- A quoted string reads as the string. -/
theorem readString_quote (s : String) (rest : List Char) :
    readString (s.toList.flatMap escapeChar ++ '"' :: rest) = some (s, rest) := by
  unfold readString
  simp only [readUnits_escaped, Option.map_some, decodeUnits_escapeUnit, String.ofList_toList]

-- ---------------------------------------------------------------------------
-- Reading flat objects back
-- ---------------------------------------------------------------------------

theorem skipSpace_cons {c : Char} (h : c ≠ ' ' ∧ c ≠ '\t' ∧ c ≠ '\n' ∧ c ≠ '\r') (cs : List Char) :
    skipSpace (c :: cs) = c :: cs := by
  simp [skipSpace, h]

/-- What parsing makes of a string, a date or `null`: a date is text. -/
def Value.flat : Value → Option Json
  | .null | .date ⟨none⟩ => some .null
  | .string s => some (.string s)
  | .date ⟨some t⟩ => some (.string (toISOString t))
  | _ => none

section RoundTrip

variable {number : String → Number} {numberText : Number → String}

theorem readValue_quote (fuel : Nat) (s : String) (rest : List Char) :
    readValue number (fuel + 1) (quote s ++ rest) = some (.string s, rest) := by
  have hquote : quote s ++ rest = '"' :: (s.toList.flatMap escapeChar ++ '"' :: rest) := by
    simp [quote]
  rw [hquote, readValue, skipSpace_cons (by decide)]
  simp only [readString_quote, Option.map_some]

theorem readValue_null (fuel : Nat) (rest : List Char) :
    readValue number (fuel + 1) (['n', 'u', 'l', 'l'] ++ rest) = some (.null, rest) := by
  rw [readValue, List.cons_append, skipSpace_cons (by decide)]
  rfl

theorem readValue_flat {v : Value} {j : Json} (h : v.flat = some j) (fuel : Nat) (rest : List Char) :
    readValue number (fuel + 1) (v.chars numberText ++ rest) = some (j, rest) := by
  cases v with
  | null => cases h; exact readValue_null fuel rest
  | string s => cases h; exact readValue_quote fuel s rest
  | date d =>
    obtain ⟨time⟩ := d
    cases time with
    | none => cases h; exact readValue_null fuel rest
    | some t => cases h; exact readValue_quote fuel _ rest
  | bool b => cases h
  | number n => cases h
  | array elements => cases h
  | object fields => cases h

/-- The fields of a flat object with what parsing makes of them. -/
abbrev FlatFields (fields : List (String × Value)) (parsed : List (String × Json)) : Prop :=
  List.Forall₂ (fun field json => json.1 = field.1 ∧ field.2.flat = some json.2) fields parsed

theorem readField_flat {name : String} {v : Value} {j : Json} (h : v.flat = some j) (depth : Nat)
    (rest : List Char) : readField (readValue number (depth + 1))
      (name.toList.flatMap escapeChar ++ '"' :: ':' :: (v.chars numberText ++ rest)) =
        some ((name, j), rest) := by
  unfold readField
  simp only [readString_quote, skipSpace_cons (show ':' ≠ ' ' ∧ ':' ≠ '\t' ∧ ':' ≠ '\n' ∧ ':' ≠ '\r' by decide),
    readValue_flat h, Option.map_some]

theorem fieldsChars_cons (name : String) (v : Value) (fields : List (String × Value)) (rest : List Char) :
    fieldsChars numberText true ((name, v) :: fields) ++ rest =
      '"' :: (name.toList.flatMap escapeChar ++ '"' :: ':' ::
        (v.chars numberText ++ (fieldsChars numberText false fields ++ rest))) := by
  simp [fieldsChars, quote]

theorem fieldsChars_comma (field : String × Value) (fields : List (String × Value)) :
    fieldsChars numberText false (field :: fields) = ',' :: fieldsChars numberText true (field :: fields) := by
  simp [fieldsChars]

theorem readFields_flat {field : String × Value} {fields : List (String × Value)}
    {parsed : List (String × Json)} (h : FlatFields (field :: fields) parsed) (depth : Nat) {fuel : Nat}
    (hfuel : fields.length < fuel) (rest : List Char) :
    readFields (readValue number (depth + 1)) fuel
      (fieldsChars numberText true (field :: fields) ++ '}' :: rest) = some (parsed, rest) := by
  induction fields generalizing field parsed fuel with
  | nil =>
    obtain ⟨fuel, rfl⟩ := Nat.exists_eq_succ_of_ne_zero (Nat.ne_zero_of_lt hfuel)
    obtain ⟨name, v⟩ := field
    cases h with
    | @cons _ json _ _ hfield hrest =>
      cases hrest
      obtain ⟨name', j⟩ := json
      obtain ⟨rfl, hflat⟩ := hfield
      rw [fieldsChars_cons, readFields, skipSpace_cons (by decide)]
      simp only [readField_flat hflat, fieldsChars, List.nil_append]
      rw [skipSpace_cons (by decide)]
      rfl
  | cons field' fields ih =>
    obtain ⟨fuel, rfl⟩ := Nat.exists_eq_succ_of_ne_zero (Nat.ne_zero_of_lt hfuel)
    obtain ⟨name, v⟩ := field
    cases h with
    | @cons _ json _ parsed hfield hrest =>
      obtain ⟨name', j⟩ := json
      obtain ⟨rfl, hflat⟩ := hfield
      rw [fieldsChars_cons, readFields, skipSpace_cons (by decide)]
      simp only [readField_flat hflat, fieldsChars_comma, List.cons_append]
      rw [skipSpace_cons (by decide)]
      simp only [ih hrest (Nat.lt_of_succ_lt_succ hfuel), Option.map_some]

theorem length_fieldsChars (first : Bool) (fields : List (String × Value)) :
    fields.length ≤ (fieldsChars numberText first fields).length := by
  induction fields generalizing first with
  | nil => exact Nat.zero_le _
  | cons field fields ih =>
    have hrest := ih false
    simp only [fieldsChars, quote, List.length_append, List.length_cons]
    omega

theorem distinctFields_eq {fields : List (String × Json)} (h : (fields.map Prod.fst).Nodup) :
    distinctFields fields = fields := by
  suffices hfold : ∀ acc, (acc ++ fields).map Prod.fst |>.Nodup →
      fields.foldl (fun acc field => setField acc field.1 field.2) acc = acc ++ fields by
    exact hfold [] h
  clear h
  induction fields with
  | nil => intro acc _; rw [List.append_nil]; rfl
  | cons field fields ih =>
    intro acc hnodup
    have hnew : setField acc field.1 field.2 = acc ++ [field] := by
      unfold setField
      rw [if_neg]
      simp only [List.any_eq_true, decide_eq_true_eq, not_exists, not_and]
      intro field' hmem heq
      rw [List.map_append, List.map_cons] at hnodup
      exact List.disjoint_of_nodup_append hnodup (List.mem_map_of_mem hmem) (heq ▸ List.mem_cons_self)
    have happend : acc ++ field :: fields = acc ++ [field] ++ fields := by simp
    rw [happend] at hnodup ⊢
    rw [List.foldl_cons, hnew, ih _ hnodup]

theorem enumerated_eq {fields : List (String × Json)} (h : ∀ field ∈ fields, arrayIndex field.1 = none) :
    enumerated fields = fields := by
  have hindexed : (fields.filter fun field => (arrayIndex field.1).isSome) = [] :=
    List.filter_eq_nil_iff.mpr fun field hfield => by simp [h field hfield]
  have hnamed : (fields.filter fun field => (arrayIndex field.1).isNone) = fields :=
    List.filter_eq_self.mpr fun field hfield => by simp [h field hfield]
  rw [enumerated, hindexed, hnamed]
  rfl

/-- Indices come in numeric order; `01` is a name like any other. -/
example : (enumerated [("b", .null), ("10", .null), ("2", .null), ("01", .null)]).map Prod.fst =
    ["2", "10", "b", "01"] := by decide +kernel

/-- An object of strings, dates and nulls parses to its fields, with the dates
as text, if none of them is named by an index. -/
theorem parse_stringify_flat {field : String × Value} {fields : List (String × Value)}
    {parsed : List (String × Json)} (h : FlatFields (field :: fields) parsed)
    (hnodup : (parsed.map Prod.fst).Nodup) (hnames : ∀ field ∈ parsed, arrayIndex field.1 = none) :
    Json.parse number ((Value.object (field :: fields)).stringify numberText) = some (.object parsed) := by
  have hlength := @length_fieldsChars numberText true (field :: fields)
  have hread := fun depth fuel (hfuel : fields.length < fuel) =>
    @readFields_flat number numberText field fields parsed h depth fuel hfuel []
  have hchars : (Value.object (field :: fields)).chars numberText =
      '{' :: (fieldsChars numberText true (field :: fields) ++ ['}']) := by simp [Value.chars]
  unfold Json.parse Value.stringify
  rw [String.toList_ofList, hchars]
  simp only [List.length_cons, List.length_append, List.length_nil, Nat.zero_add] at hlength ⊢
  generalize (fieldsChars numberText true (field :: fields)).length = n at hlength ⊢
  obtain ⟨name, v⟩ := field
  rw [readValue, skipSpace_cons (by decide)]
  simp only [fieldsChars_cons] at hread ⊢
  rw [skipSpace_cons (by decide)]
  have hfields : readFields (readValue number (n + 2)) (n + 2) _ = some (parsed, []) :=
    hread (n + 1) (n + 2) (by omega)
  change Option.bind (Option.map _ (readFields (readValue number (n + 2)) (n + 2) _)) _ = _
  rw [hfields, Option.map_some, distinctFields_eq hnodup, enumerated_eq hnames]
  rfl

end RoundTrip

end Js
