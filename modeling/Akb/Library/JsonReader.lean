import Akb.Library.Json
import Akb.Library.PyText

/-! Values as `json` writes and reads them. -/
namespace Akb.Library.Json

/-- The value of a decimal integer literal; a leading zero makes it none. -/
def readNat (digits : List Char) : Option Nat :=
  let n := Nat.ofDigitChars 10 digits 0
  if digits.all Char.isDigit ∧ Nat.toDigits 10 n = digits then some n else none

def readInt : List Char → Option Int
  | '-' :: digits => (readNat digits).map (fun n : Nat => -(n : Int))
  | digits => (readNat digits).map (fun n : Nat => (n : Int))

def isNumberChar (c : Char) : Bool := c.isDigit || c ∈ ['.', 'e', 'E', '+', '-']

def isExponent : List Char → Bool
  | [] => true
  | e :: rest =>
    let digits := if rest.head? ∈ [some '+', some '-'] then rest.tail else rest
    (e == 'e' || e == 'E') && digits != [] && digits.all Char.isDigit

/-- The number literals of `json`, the three words it adds to them included. -/
def isNumber (text : List Char) : Bool :=
  text ∈ ["NaN", "Infinity", "-Infinity"].map String.toList ||
    (text.all isNumberChar &&
      let unsigned := if text.head? = some '-' then text.tail else text
      let rest := unsigned.dropWhile Char.isDigit
      (readNat (unsigned.takeWhile Char.isDigit)).isSome &&
        (if rest.head? = some '.' then
          rest.tail.takeWhile Char.isDigit != [] && isExponent (rest.tail.dropWhile Char.isDigit)
        else isExponent rest))

/-- A float, as its `repr`: a number literal that is no integer. -/
structure FloatRepr where
  text : List Char
  shape : readInt text = none ∧ isNumber text
  deriving DecidableEq

/-- The values that `json` writes. `other` is whatever it or the UTF-8 encoding of its text
refuses: an object of another type, a text with a lone surrogate. -/
inductive Value where
  | null
  | bool (b : Bool)
  | int (n : Int)
  | float (x : FloatRepr)
  | str (s : String)
  | list (items : List Value)
  | dict (fields : List (String × Value))
  | other

/-- `bool(value)`. -/
def Value.truthy : Value → Bool
  | .null => false
  | .bool b => b
  | .int n => n != 0
  | .float x => x.text ∉ ["0.0", "-0.0"].map String.toList
  | .str s => s != ""
  | .list items => !items.isEmpty
  | .dict fields => !fields.isEmpty
  | .other => true

/-- `dict.get(key)`. -/
def Value.get? (key : String) : Value → Option Value
  | .dict fields => fields.lookup key
  | _ => none

def Value.toInt? : Value → Option Int
  | .int n => some n
  | _ => none

mutual
/-- The keys of every dictionary within differ, as a Python dictionary's do. -/
def Value.Distinct : Value → Prop
  | .list items => DistinctItems items
  | .dict fields => (fields.map Prod.fst).Nodup ∧ DistinctFields fields
  | _ => True

def DistinctItems : List Value → Prop
  | [] => True
  | v :: items => v.Distinct ∧ DistinctItems items

def DistinctFields : List (String × Value) → Prop
  | [] => True
  | (_, v) :: fields => v.Distinct ∧ DistinctFields fields
end

/-! ### Writing -/

def renderInt (n : Int) : List Char :=
  if n < 0 then '-' :: Nat.toDigits 10 n.natAbs else Nat.toDigits 10 n.natAbs

/-- A separator with the blanks behind it: none with `separators=(",", ":")`, one by default. -/
def separator (c : Char) (pad : Nat) : List Char := c :: List.replicate pad ' '

mutual
/-- `json.dumps(value, ensure_ascii=False)`. -/
def Value.render (pad : Nat) : Value → Option (List Char)
  | .null => some "null".toList
  | .bool b => some (if b then "true" else "false").toList
  | .int n => some (renderInt n)
  | .float x => some x.text
  | .str s => some (renderString s)
  | .list items => (renderItems pad items).map ('[' :: ·)
  | .dict fields => (renderFields pad fields).map ('{' :: ·)
  | .other => none

/-- The items and the bracket that closes them. -/
def renderItems (pad : Nat) : List Value → Option (List Char)
  | [] => some [']']
  | [v] => (v.render pad).map (· ++ [']'])
  | v :: items => do return (← v.render pad) ++ separator ',' pad ++ (← renderItems pad items)

def renderFields (pad : Nat) : List (String × Value) → Option (List Char)
  | [] => some ['}']
  | [(key, v)] => (v.render pad).map (fun t => renderString key ++ separator ':' pad ++ t ++ ['}'])
  | (key, v) :: fields => do
    return renderString key ++ separator ':' pad ++ (← v.render pad) ++ separator ',' pad ++ (← renderFields pad fields)
end

mutual
/-- What `sort_keys=True` makes of a value. -/
def Value.sortKeys : Value → Value
  | .list items => .list (sortItems items)
  | .dict fields => .dict ((sortFields fields).insertionSort (fun a b => a.1 ≤ b.1))
  | v => v

def sortItems : List Value → List Value
  | [] => []
  | v :: items => v.sortKeys :: sortItems items

def sortFields : List (String × Value) → List (String × Value)
  | [] => []
  | (key, v) :: fields => (key, v.sortKeys) :: sortFields fields
end

/-! Reading a JSON text. -/
def isJsonSpace (c : Char) : Bool := c ∈ [' ', '\t', '\n', '\r']

/-- What ends a value that is no text, list or dictionary. -/
def isDelimiter (c : Char) : Bool := isJsonSpace c || c ∈ [',', ']', '}']

/-- The value of a run of four hex digits. -/
def hex4 : List Char → Option (Nat × List Char)
  | a :: b :: c :: d :: rest =>
    let digits := [a, b, c, d].map Char.toLower
    if digits.all (· ∈ "0123456789abcdef".toList) then some (digits.foldl (fun n e => 16 * n + hexValue e) 0, rest)
    else none
  | _ => none

/-- What follows `\u`; a pair of surrogates is one character, and a lone one is no `Char`. -/
def readUnicode (s : List Char) : Option (Char × List Char) := do
  let (high, rest) ← hex4 s
  if 0xd800 ≤ high ∧ high < 0xdc00 then
    match rest with
    | '\\' :: 'u' :: rest =>
      let (low, rest) ← hex4 rest
      if 0xdc00 ≤ low ∧ low < 0xe000 then
        some (Char.ofNat (0x10000 + (high - 0xd800) * 0x400 + (low - 0xdc00)), rest)
      else none
    | _ => none
  else if 0xdc00 ≤ high ∧ high < 0xe000 then none
  else some (Char.ofNat high, rest)

def escapes : List (Char × Char) :=
  [('"', '"'), ('\\', '\\'), ('/', '/'), ('b', '\x08'), ('f', '\x0c'), ('n', '\n'), ('r', '\r'), ('t', '\t')]

/-- The next character of a text, `none` for the quote that closes it. -/
def readChar : List Char → Option (Option Char × List Char)
  | '"' :: rest => some (none, rest)
  | '\\' :: 'u' :: rest => (readUnicode rest).map (fun r => (some r.1, r.2))
  | '\\' :: e :: rest => (escapes.lookup e).map (fun c => (some c, rest))
  | c :: rest => if c.toNat < 32 then none else some (some c, rest)
  | [] => none

def readChars : Nat → List Char → Option (List Char × List Char)
  | 0, _ => none
  | fuel + 1, s =>
    match readChar s with
    | none => none
    | some (none, rest) => some ([], rest)
    | some (some c, rest) => (readChars fuel rest).map (fun r => (c :: r.1, r.2))

def readString (s : List Char) : Option (String × List Char) :=
  (readChars s.length s).map (fun r => (String.ofList r.1, r.2))

def readAtom (text : List Char) : Option Value :=
  if text = "null".toList then some .null
  else if text = "true".toList then some (.bool true)
  else if text = "false".toList then some (.bool false)
  else
    match h : readInt text with
    | some n => some (.int n)
    | none => if hn : isNumber text then some (.float ⟨text, h, hn⟩) else none

/-- One more pair of a dictionary; a repeated key keeps its place and takes the new value. -/
def setField (fields : List (String × Value)) (f : String × Value) : List (String × Value) :=
  if f.1 ∈ fields.map Prod.fst then fields.map (fun g => if g.1 = f.1 then f else g) else fields ++ [f]

def dictOf (pairs : List (String × Value)) : List (String × Value) := pairs.foldl setField []

mutual
def readValue : Nat → List Char → Option (Value × List Char)
  | 0, _ => none
  | fuel + 1, s =>
    match s.dropWhile isJsonSpace with
    | '"' :: rest => (readString rest).map (fun r => (.str r.1, r.2))
    | '[' :: rest =>
      match rest.dropWhile isJsonSpace with
      | ']' :: rest => some (.list [], rest)
      | rest => (readItems fuel rest).map (fun r => (.list r.1, r.2))
    | '{' :: rest =>
      match rest.dropWhile isJsonSpace with
      | '}' :: rest => some (.dict [], rest)
      | rest => (readFields fuel rest).map (fun r => (.dict (dictOf r.1), r.2))
    | s => (readAtom (s.takeWhile (!isDelimiter ·))).map (fun v => (v, s.dropWhile (!isDelimiter ·)))

/-- The items of a list that has some. -/
def readItems : Nat → List Char → Option (List Value × List Char)
  | 0, _ => none
  | fuel + 1, s => do
    let (v, rest) ← readValue fuel s
    match rest.dropWhile isJsonSpace with
    | ']' :: rest => some ([v], rest)
    | ',' :: rest => (readItems fuel rest).map (fun r => (v :: r.1, r.2))
    | _ => none

def readFields : Nat → List Char → Option (List (String × Value) × List Char)
  | 0, _ => none
  | fuel + 1, s => do
    match s.dropWhile isJsonSpace with
    | '"' :: rest =>
      let (key, rest) ← readString rest
      match rest.dropWhile isJsonSpace with
      | ':' :: rest =>
        let (v, rest) ← readValue fuel rest
        match rest.dropWhile isJsonSpace with
        | '}' :: rest => some ([(key, v)], rest)
        | ',' :: rest => (readFields fuel rest).map (fun r => ((key, v) :: r.1, r.2))
        | _ => none
      | _ => none
    | _ => none
end

/-- `json.loads(text)`. -/
def loads (text : List Char) : Option Value :=
  match readValue (text.length + 1) text with
  | some (v, rest) => if rest.all isJsonSpace then some v else none
  | none => none

end Akb.Library.Json
