/-!
Reading JSON text. Of numbers only the natural ones written without sign, fraction and exponent
are told apart; of strings, those that pair up their surrogates are text. The last argument of each
reader is what is left of the input, and every reader hands on what it leaves.
-/

namespace PackedTrie

inductive Json where
  | null
  | bool (value : Bool)
  | natural (value : Nat)
  /-- A number that is negative, or written with a fraction or an exponent. -/
  | number
  /-- A string, `none` if it holds half of a surrogate pair. -/
  | string (content : Option String)
  | array (elements : List Json)
  | object (members : List (Option String × Json))

namespace Json

def isBlank (c : Char) : Bool :=
  c == ' ' || c == '\n' || c == '\t' || c == '\r'

def skipBlanks (input : List Char) : List Char :=
  input.dropWhile isBlank

/-! Strings. -/

def hexDigit? (c : Char) : Option Nat :=
  if '0' ≤ c ∧ c ≤ '9' then some (c.toNat - '0'.toNat)
  else if 'a' ≤ c ∧ c ≤ 'f' then some (c.toNat - 'a'.toNat + 10)
  else if 'A' ≤ c ∧ c ≤ 'F' then some (c.toNat - 'A'.toNat + 10)
  else none

def hex? (digits : List Char) : Option Nat :=
  digits.foldlM (fun value digit => (hexDigit? digit).map (value * 16 + ·)) 0

def escaped? : Char → Option Nat
  | '"' => some 0x22
  | '\\' => some 0x5C
  | '/' => some 0x2F
  | 'b' => some 0x08
  | 'f' => some 0x0C
  | 'n' => some 0x0A
  | 'r' => some 0x0D
  | 't' => some 0x09
  | _ => none

def readUnits : List Char → Option (List Nat × List Char)
  | '"' :: input => some ([], input)
  | '\\' :: 'u' :: a :: b :: c :: d :: input => do
      let unit ← hex? [a, b, c, d]
      let (units, input) ← readUnits input
      pure (unit :: units, input)
  | '\\' :: letter :: input => do
      let unit ← escaped? letter
      let (units, input) ← readUnits input
      pure (unit :: units, input)
  | c :: input =>
      if c < ' ' then none
      else do
        let (units, input) ← readUnits input
        pure (c.toNat :: units, input)
  | [] => none

/-- The text of a sequence of code units, if every surrogate in it has its partner. -/
def ofUnits? : List Nat → Option (List Char)
  | [] => some []
  | [unit] => if 0xD800 ≤ unit ∧ unit < 0xE000 then none else some [Char.ofNat unit]
  | unit :: next :: units =>
      if unit < 0xD800 ∨ 0xE000 ≤ unit then
        (ofUnits? (next :: units)).map (Char.ofNat unit :: ·)
      else if unit < 0xDC00 ∧ 0xDC00 ≤ next ∧ next < 0xE000 then
        let code := 0x10000 + (unit - 0xD800) * 0x400 + (next - 0xDC00)
        (ofUnits? units).map (Char.ofNat code :: ·)
      else none

def readString (input : List Char) : Option (Option String × List Char) := do
  let (units, input) ← readUnits input
  pure ((ofUnits? units).map String.ofList, input)

/-! Numbers. -/

def readDigits (input : List Char) : List Char × List Char :=
  (input.takeWhile Char.isDigit, input.dropWhile Char.isDigit)

def skipDigits (input : List Char) : Option (List Char) :=
  match readDigits input with
  | ([], _) => none
  | (_, input) => some input

def readFraction : List Char → Option (Bool × List Char)
  | '.' :: input => (skipDigits input).map (true, ·)
  | input => some (false, input)

def readExponent : List Char → Option (Bool × List Char)
  | letter :: input =>
      if letter = 'e' ∨ letter = 'E' then
        match input with
        | '+' :: input | '-' :: input => (skipDigits input).map (true, ·)
        | input => (skipDigits input).map (true, ·)
      else some (false, letter :: input)
  | [] => some (false, [])

/-- A number without its sign; no zero stands in front of another digit. -/
def readNumber (input : List Char) : Option (Json × List Char) := do
  let (digits, input) := readDigits input
  if digits = [] ∨ (digits.length ≠ 1 ∧ digits.head? = some '0') then none
  let (fraction, input) ← readFraction input
  let (exponent, input) ← readExponent input
  if fraction || exponent then pure (.number, input)
  else
    let value := digits.foldl (fun value digit => value * 10 + (digit.toNat - '0'.toNat)) 0
    pure (.natural value, input)

/-! Values. The first argument bounds the number of steps; each two of them use up a character. -/

mutual

def readValue : Nat → List Char → Option (Json × List Char)
  | 0, _ => none
  | steps + 1, input =>
      match skipBlanks input with
      | 'n' :: 'u' :: 'l' :: 'l' :: input => some (.null, input)
      | 't' :: 'r' :: 'u' :: 'e' :: input => some (.bool true, input)
      | 'f' :: 'a' :: 'l' :: 's' :: 'e' :: input => some (.bool false, input)
      | '"' :: input => (readString input).map fun (content, input) => (.string content, input)
      | '[' :: input =>
          match skipBlanks input with
          | ']' :: input => some (.array [], input)
          | input => (readElements steps input).map fun (elements, input) =>
              (.array elements, input)
      | '{' :: input =>
          match skipBlanks input with
          | '}' :: input => some (.object [], input)
          | input => (readMembers steps input).map fun (members, input) =>
              (.object members, input)
      | '-' :: input => (readNumber input).map fun (_, input) => (.number, input)
      | input => readNumber input

def readElements : Nat → List Char → Option (List Json × List Char)
  | 0, _ => none
  | steps + 1, input =>
      match readValue steps input with
      | none => none
      | some (element, input) =>
          match skipBlanks input with
          | ']' :: input => some ([element], input)
          | ',' :: input => (readElements steps input).map fun (elements, input) =>
              (element :: elements, input)
          | _ => none

def readMembers : Nat → List Char → Option (List (Option String × Json) × List Char)
  | 0, _ => none
  | steps + 1, input =>
      match skipBlanks input with
      | '"' :: input =>
          match readString input with
          | none => none
          | some (name, input) =>
              match skipBlanks input with
              | ':' :: input =>
                  match readValue steps input with
                  | none => none
                  | some (value, input) =>
                      match skipBlanks input with
                      | '}' :: input => some ([(name, value)], input)
                      | ',' :: input => (readMembers steps input).map fun (members, input) =>
                          ((name, value) :: members, input)
                      | _ => none
              | _ => none
      | _ => none

end

def parse? (text : String) : Option Json :=
  let input := text.toList
  match readValue (2 * input.length + 2) input with
  | some (value, rest) => if skipBlanks rest = [] then some value else none
  | none => none

/-- The values of the named fields of a record. A record is an object in which no named field is
repeated and other fields do not matter, or an array of all the fields in their order. -/
def fields? (names : List String) : Json → Option (List (Option Json))
  | .array elements =>
      if elements.length = names.length then some (elements.map some) else none
  | .object members =>
      let occurrences (name : String) : List (Option String × Json) :=
        members.filter fun member => member.1 = some name
      if members.all (·.1.isSome) ∧ ∀ name ∈ names, (occurrences name).length ≤ 1 then
        some (names.map fun name => (occurrences name).head?.map Prod.snd)
      else
        none
  | _ => none

def bool? : Json → Option Bool
  | .bool value => some value
  | _ => none

def natural? : Json → Option Nat
  | .natural value => if value < UInt64.size then some value else none
  | _ => none

def render (fields : List (String × String)) : String :=
  let members := fields.map fun (name, value) => "\"" ++ name ++ "\":" ++ value
  "\x7b" ++ ",".intercalate members ++ "\x7d"

end Json

end PackedTrie
