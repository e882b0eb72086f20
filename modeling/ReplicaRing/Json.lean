import ReplicaRing.Bytes

/-!
# JSON texts

A `Json` value is what a text says before anyone asks for a string or a number
in it: numbers keep their digits, strings the bytes between their quotes,
escapes included. Reading a text (`Json.parse`) therefore only checks that it is
well formed; whether a string is valid text is checked when it is asked for
(`Json.text?`). A part of the text that nobody asks for may hold any bytes.

Writing (`Json.write`) adds no blanks. `Json.ofText` escapes quotes, backslashes
and control characters and nothing else.
-/

namespace ReplicaRing

/-- A JSON value, its numbers and strings as written. -/
inductive Json
  | null
  | bool (b : Bool)
  /-- The digits, sign, point and exponent of a number. -/
  | number (digits : Bytes)
  /-- The bytes between the quotes of a string. -/
  | string (raw : Bytes)
  | array (items : List Json)
  /-- The members in the order written. -/
  | object (members : List (Bytes × Json))

namespace Json

/-! ## Strings -/

/-- The number of a hexadecimal digit of either case. -/
def hexValue? (b : UInt8) : Option Nat :=
  if 0x30 ≤ b ∧ b ≤ 0x39 then some (b.toNat - 0x30)
  else if 0x41 ≤ b ∧ b ≤ 0x46 then some (b.toNat - 0x37)
  else if 0x61 ≤ b ∧ b ≤ 0x66 then some (b.toNat - 0x57)
  else none

/-- The number that four hexadecimal digits spell at the front of a text, and
    the rest. -/
def hex4? : Bytes → Option (Nat × Bytes)
  | a :: b :: c :: d :: rest => do
    let (a, b, c, d) := (← hexValue? a, ← hexValue? b, ← hexValue? c, ← hexValue? d)
    return (((a * 16 + b) * 16 + c) * 16 + d, rest)
  | _ => none

/-- The byte that a backslash and one more character stand for. -/
def shortEscape? (b : UInt8) : Option UInt8 :=
  if b = 0x22 then some 0x22
  else if b = 0x5C then some 0x5C
  else if b = 0x2F then some 0x2F
  else if b = 0x62 then some 0x08
  else if b = 0x66 then some 0x0C
  else if b = 0x6E then some 0x0A
  else if b = 0x72 then some 0x0D
  else if b = 0x74 then some 0x09
  else none

/-- The character that a unicode escape stands for, read behind its backslash
    and letter. A character beyond the sixteen-bit range takes two escapes, a
    high and a low surrogate; neither stands alone. -/
def unicodeEscape? (s : Bytes) : Option (Bytes × Bytes) := do
  let (n, rest) ← hex4? s
  if 0xDC00 ≤ n ∧ n ≤ 0xDFFF then none
  else if 0xD800 ≤ n ∧ n ≤ 0xDBFF then
    match rest with
    | 0x5C :: 0x75 :: rest =>
      let (m, rest) ← hex4? rest
      if 0xDC00 ≤ m ∧ m ≤ 0xDFFF then
        let code := 0x10000 + (n - 0xD800) * 0x400 + (m - 0xDC00)
        some (Bytes.ofString (String.singleton (Char.ofNat code)), rest)
      else none
    | _ => none
  else some (Bytes.ofString (String.singleton (Char.ofNat n)), rest)

/-- What the first character or escape between the quotes of a string stands
    for, and the rest. -/
def unescapeFirst? : Bytes → Option (Bytes × Bytes)
  | 0x5C :: 0x75 :: rest => unicodeEscape? rest
  | 0x5C :: b :: rest => (shortEscape? b).map fun c => ([c], rest)
  | [] => none
  | b :: rest => if b = 0x5C then none else some ([b], rest)

/-- What the bytes between the quotes of a string stand for. Every character or
    escape takes at least one byte, so `fuel` need not exceed their number. -/
def unescapeFrom : (fuel : Nat) → Bytes → Option Bytes
  | _, [] => some []
  | 0, _ :: _ => none
  | fuel + 1, s => do
    let (front, rest) ← unescapeFirst? s
    return front ++ (← unescapeFrom fuel rest)

/-- What the bytes between the quotes of a string stand for. -/
def unescape? (raw : Bytes) : Option Bytes := unescapeFrom raw.length raw

/-- The text that the bytes between the quotes of a string stand for. -/
def unquote? (raw : Bytes) : Option String := do Bytes.toString? (← unescape? raw)

/-- The text of a string. -/
def text? : Json → Option String
  | string raw => unquote? raw
  | _ => none

/-- How a byte is written between quotes. -/
def escapeByte (b : UInt8) : Bytes :=
  if b = 0x22 then [0x5C, 0x22]
  else if b = 0x5C then [0x5C, 0x5C]
  else if b = 0x08 then [0x5C, 0x62]
  else if b = 0x0C then [0x5C, 0x66]
  else if b = 0x0A then [0x5C, 0x6E]
  else if b = 0x0D then [0x5C, 0x72]
  else if b = 0x09 then [0x5C, 0x74]
  else if b < 0x20 then Bytes.ofString "\\u00" ++ Bytes.ofString (Bytes.hex [b])
  else [b]

/-- The string of the given text. -/
def ofText (s : String) : Json := string ((Bytes.ofString s).flatMap escapeByte)

/-! ## Numbers -/

/-- The number of a run of decimal digits. -/
def decimalValue (digits : Bytes) : Nat :=
  digits.foldl (fun n b => n * 10 + (b.toNat - 0x30)) 0

/-- A decimal digit. -/
def isDigit (b : UInt8) : Bool := 0x30 ≤ b && b ≤ 0x39

/-- The whole number that a value is, written without sign, point or exponent
    and below `bound`. -/
def nat? (bound : Nat) : Json → Option Nat
  | number digits =>
    if digits.all isDigit && decimalValue digits < bound then some (decimalValue digits) else none
  | _ => none

/-- The number `n`. -/
def ofNat (n : Nat) : Json := number (Bytes.ofString (toString n))

/-! ## Reading -/

/-- Space, tab and the two line breaks. -/
def isBlank (b : UInt8) : Bool := b = 0x20 || b = 0x09 || b = 0x0A || b = 0x0D

/-- The text behind its leading blanks. -/
def skipBlanks (s : Bytes) : Bytes := s.dropWhile isBlank

/-- The rest of the text behind `word`, if it starts with it. -/
def after? (word : String) (s : Bytes) : Option Bytes :=
  let front := Bytes.ofString word
  if front.isPrefixOf s then some (s.drop front.length) else none

/-- The first character or escape of a text, as written, and the rest. A quote
    or a control character is neither. -/
def rawFirst? : Bytes → Option (Bytes × Bytes)
  | 0x5C :: 0x75 :: rest => do
    let (_, rest') ← hex4? rest
    return (0x5C :: 0x75 :: rest.take 4, rest')
  | 0x5C :: b :: rest => if (shortEscape? b).isSome then some ([0x5C, b], rest) else none
  | [] => none
  | b :: rest => if b = 0x5C ∨ b = 0x22 ∨ b < 0x20 then none else some ([b], rest)

/-- The bytes up to the closing quote, and the rest behind it. -/
def rawFrom : (fuel : Nat) → Bytes → Option (Bytes × Bytes)
  | _, 0x22 :: rest => some ([], rest)
  | 0, _ => none
  | fuel + 1, s => do
    let (front, rest) ← rawFirst? s
    let (raw, rest) ← rawFrom fuel rest
    return (front ++ raw, rest)

/-- The bytes of a string up to its closing quote, and the rest behind it. -/
def raw? (s : Bytes) : Option (Bytes × Bytes) := rawFrom s.length s

/-- The digits at the front of a text, at least one, and the rest. -/
def digits? (s : Bytes) : Option (Bytes × Bytes) :=
  match s.takeWhile isDigit with
  | [] => none
  | ds => some (ds, s.dropWhile isDigit)

/-- The whole part of a number: no leading zero. -/
def whole? : Bytes → Option (Bytes × Bytes)
  | 0x30 :: rest => if rest.head?.any isDigit then none else some ([0x30], rest)
  | s => digits? s

/-- The fraction of a number, if there is one. -/
def fraction? : Bytes → Option (Bytes × Bytes)
  | 0x2E :: rest => (digits? rest).map fun (ds, rest) => (0x2E :: ds, rest)
  | s => some ([], s)

/-- The exponent of a number, if there is one. -/
def exponent? : Bytes → Option (Bytes × Bytes)
  | e :: rest =>
    if e = 0x65 ∨ e = 0x45 then
      match rest with
      | sign :: more =>
        if sign = 0x2B ∨ sign = 0x2D then
          (digits? more).map fun (ds, rest) => (e :: sign :: ds, rest)
        else (digits? rest).map fun (ds, rest) => (e :: ds, rest)
      | [] => none
    else some ([], e :: rest)
  | [] => some ([], [])

/-- The number at the front of a text, and the rest. -/
def number? (s : Bytes) : Option (Bytes × Bytes) := do
  let (sign, s) := match s with
    | 0x2D :: rest => ([0x2D], rest)
    | s => (([] : Bytes), s)
  let (w, s) ← whole? s
  let (f, s) ← fraction? s
  let (e, s) ← exponent? s
  return (sign ++ w ++ f ++ e, s)

mutual

/-- The value at the front of a text, blanks skipped, and the rest. -/
def readValue : (fuel : Nat) → Bytes → Option (Json × Bytes)
  | 0, _ => none
  | fuel + 1, s =>
    match skipBlanks s with
    | [] => none
    | b :: rest =>
      if b = 0x7B then
        match skipBlanks rest with
        | 0x7D :: rest => some (object [], rest)
        | rest => (readMembers fuel rest).map fun (ms, rest) => (object ms, rest)
      else if b = 0x5B then
        match skipBlanks rest with
        | 0x5D :: rest => some (array [], rest)
        | rest => (readItems fuel rest).map fun (vs, rest) => (array vs, rest)
      else if b = 0x22 then (raw? rest).map fun (raw, rest) => (string raw, rest)
      else if b = 0x74 then (after? "rue" rest).map fun rest => (bool true, rest)
      else if b = 0x66 then (after? "alse" rest).map fun rest => (bool false, rest)
      else if b = 0x6E then (after? "ull" rest).map fun rest => (null, rest)
      else (number? (b :: rest)).map fun (digits, rest) => (number digits, rest)

/-- The items of an array from its first item on, and the rest behind the
    closing bracket. -/
def readItems : (fuel : Nat) → Bytes → Option (List Json × Bytes)
  | 0, _ => none
  | fuel + 1, s => do
    let (v, rest) ← readValue fuel s
    match skipBlanks rest with
    | 0x5D :: rest => some ([v], rest)
    | 0x2C :: rest => (readItems fuel rest).map fun (vs, rest) => (v :: vs, rest)
    | _ => none

/-- The members of an object from its first member on, and the rest behind the
    closing brace. -/
def readMembers : (fuel : Nat) → Bytes → Option (List (Bytes × Json) × Bytes)
  | 0, _ => none
  | fuel + 1, s =>
    match skipBlanks s with
    | 0x22 :: rest => do
      let (name, rest) ← raw? rest
      match skipBlanks rest with
      | 0x3A :: rest =>
        let (v, rest) ← readValue fuel rest
        match skipBlanks rest with
        | 0x7D :: rest => some ([(name, v)], rest)
        | 0x2C :: rest => (readMembers fuel rest).map fun (ms, rest) => ((name, v) :: ms, rest)
        | _ => none
      | _ => none
    | _ => none

end

/-- The value that a text is. Blanks may surround it; nothing else may. A
    nested part is shorter than the part around it, so twice the length of the
    text bounds the depth of the reading. -/
def parse (s : Bytes) : Option Json := do
  let (v, rest) ← readValue (2 * s.length + 2) s
  if (skipBlanks rest).isEmpty then some v else none

/-! ## Records -/

/-- The fields of a record by name. An object gives each named field once; other
    members are passed over, but their names must be valid text. An array gives
    the fields in order, and nothing more. -/
def fields? (names : List String) : Json → Option (List Json)
  | array items => if items.length = names.length then some items else none
  | object members => do
    let members ← members.mapM fun (raw, v) => do return (← unquote? raw, v)
    names.mapM fun name =>
      match members.filter fun (n, _) => n = name with
      | [(_, v)] => some v
      | _ => none
  | _ => none

/-! ## Writing -/

mutual

/-- The text of a value, without blanks. -/
def write : Json → Bytes
  | null => Bytes.ofString "null"
  | bool true => Bytes.ofString "true"
  | bool false => Bytes.ofString "false"
  | number digits => digits
  | string raw => 0x22 :: (raw ++ [0x22])
  | array items => 0x5B :: (writeItems items ++ [0x5D])
  | object members => 0x7B :: (writeMembers members ++ [0x7D])

/-- The items of an array, with commas between them. -/
def writeItems : List Json → Bytes
  | [] => []
  | [v] => write v
  | v :: vs => write v ++ 0x2C :: writeItems vs

/-- The members of an object, with commas between them. -/
def writeMembers : List (Bytes × Json) → Bytes
  | [] => []
  | [(name, v)] => 0x22 :: (name ++ 0x22 :: 0x3A :: write v)
  | (name, v) :: ms => 0x22 :: (name ++ 0x22 :: 0x3A :: (write v ++ 0x2C :: writeMembers ms))

end

end Json

end ReplicaRing
