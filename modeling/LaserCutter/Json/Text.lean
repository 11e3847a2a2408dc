import LaserCutter.Json.Number

/-!
# Reading JSON text

A text is read into a draft. Reading goes on until the first place where the text is no JSON or ends
too early, and every bracket open there is left open with that fault. Two things are noted without
stopping: a number beyond binary64 and a string with half a surrogate pair. They count only where
the value is asked for.
-/

namespace LaserCutter.Json

/-- Where reading stands: the characters left, or the fault that ended it. -/
abbrev Rest := Except Fault (List Char)

def isSpace (c : Char) : Bool := c = ' ' || c = '\n' || c = '\t' || c = '\r'

def skipSpace (cs : List Char) : List Char := cs.dropWhile isSpace

def breakOff (f : Fault) : Draft × Rest := (.broken f, .error f)

/-- Reads the rest of a word such as `true`. -/
def readWord (d : Draft) : List Char → List Char → Draft × Rest
  | [], cs => (d, .ok cs)
  | _ :: _, [] => breakOff .truncated
  | w :: ws, c :: cs => if c = w then readWord d ws cs else breakOff .malformed

/-- A piece of a string: a character, or a 16-bit unit written as `\u` and four hexadecimal
digits. -/
inductive Piece where
  | char (c : Char)
  | escaped (u : Nat)
  deriving DecidableEq, Repr

def hexDigit? (c : Char) : Option Nat :=
  if c.isDigit then some (c.toNat - '0'.toNat)
  else if 'a' ≤ c ∧ c ≤ 'f' then some (c.toNat - 'a'.toNat + 10)
  else if 'A' ≤ c ∧ c ≤ 'F' then some (c.toNat - 'A'.toNat + 10)
  else none

def hexUnit? (a b c d : Char) : Option Nat := do
  let a ← hexDigit? a
  let b ← hexDigit? b
  let c ← hexDigit? c
  let d ← hexDigit? d
  pure (((a * 16 + b) * 16 + c) * 16 + d)

/-- What a backslash and one character stand for. -/
def escape? : Char → Option Char
  | '"' => some '"'
  | '\\' => some '\\'
  | '/' => some '/'
  | 'b' => some '\x08'
  | 'f' => some '\x0c'
  | 'n' => some '\n'
  | 'r' => some '\r'
  | 't' => some '\t'
  | _ => none

/-- Fewer than four bytes where four hexadecimal digits are due is an early end of the text. -/
def hexFault (cs : List Char) : Fault :=
  if (String.ofList (cs.take 4)).utf8ByteSize < 4 then .truncated else .malformed

/-- Reads the pieces up to the closing quote; `seen` holds the earlier ones, last first. -/
def readPieces (seen : List Piece) : List Char → List Piece × Rest
  | [] => (seen.reverse, .error .truncated)
  | '"' :: rest => (seen.reverse, .ok rest)
  | '\\' :: 'u' :: a :: b :: c :: d :: rest =>
    match hexUnit? a b c d with
    | some u => readPieces (.escaped u :: seen) rest
    | none => (seen.reverse, .error (hexFault [a, b, c, d]))
  | '\\' :: 'u' :: rest => (seen.reverse, .error (hexFault rest))
  | ['\\'] => (seen.reverse, .error .truncated)
  | '\\' :: c :: rest =>
    match escape? c with
    | some e => readPieces (.char e :: seen) rest
    | none => (seen.reverse, .error .malformed)
  | c :: rest =>
    if c.toNat < 0x20 then (seen.reverse, .error .malformed)
    else readPieces (.char c :: seen) rest

def isHighSurrogate (u : Nat) : Bool := 0xD800 ≤ u && u ≤ 0xDBFF
def isLowSurrogate (u : Nat) : Bool := 0xDC00 ≤ u && u ≤ 0xDFFF

/-- Joins the pieces to characters; `seen` holds the earlier ones, last first. There is no text for
half a surrogate pair. -/
def joinPieces (seen : List Char) : List Piece → Option (List Char)
  | [] => some seen.reverse
  | .char c :: rest => joinPieces (c :: seen) rest
  | .escaped u :: .escaped v :: rest =>
    if isHighSurrogate u then
      if isLowSurrogate v then
        joinPieces (Char.ofNat ((u - 0xD800) * 1024 + (v - 0xDC00) + 0x10000) :: seen) rest
      else none
    else if isLowSurrogate u then none
    else joinPieces (Char.ofNat u :: seen) (.escaped v :: rest)
  | .escaped u :: rest =>
    if isHighSurrogate u || isLowSurrogate u then none
    else joinPieces (Char.ofNat u :: seen) rest

def joined? (pieces : List Piece) : Option String := (joinPieces [] pieces).map String.ofList

/-- Without a last high surrogate, whose other half may have been cut off. -/
def withoutOpenPair (pieces : List Piece) : List Piece :=
  match pieces.getLast? with
  | some (.escaped u) => if isHighSurrogate u then pieces.dropLast else pieces
  | _ => pieces

/-- Reads a string after its opening quote. -/
def readString (cs : List Char) : Draft × Rest :=
  let (pieces, rest) := readPieces [] cs
  match rest with
  | .ok _ => (.string (joined? pieces), rest)
  | .error f =>
    (if (joined? (withoutOpenPair pieces)).isSome then .broken f else .string none, rest)

def readNumber (cs : List Char) : Draft × Rest :=
  match readNumeral cs with
  | .number value rest => (.number value, .ok rest)
  | .cut => (.broken .truncated, .error .malformed)
  | .wrong => breakOff .malformed

def closeArray (seen : List Draft) (fault : Option Fault) (rest : Rest) : Draft × Rest :=
  (.array seen.reverse fault, rest)

def closeObject (seen : List (Option String × Draft)) (fault : Option Fault) (rest : Rest) :
    Draft × Rest :=
  (.object seen.reverse fault, rest)

def leaveArray (seen : List Draft) (f : Fault) : Draft × Rest := closeArray seen (some f) (.error f)

def leaveObject (seen : List (Option String × Draft)) (f : Fault) : Draft × Rest :=
  closeObject seen (some f) (.error f)

mutual

/-- Reads the value at the front. -/
def readValue : Nat → List Char → Draft × Rest
  | 0, _ => breakOff .truncated
  | fuel + 1, cs =>
    match skipSpace cs with
    | [] => breakOff .truncated
    | '"' :: rest => readString rest
    | '[' :: rest =>
      match skipSpace rest with
      | [] => leaveArray [] .truncated
      | ']' :: rest => closeArray [] none (.ok rest)
      | rest => readItems fuel [] rest
    | '{' :: rest =>
      match skipSpace rest with
      | [] => leaveObject [] .truncated
      | '}' :: rest => closeObject [] none (.ok rest)
      | rest => readEntries fuel [] rest
    | 'n' :: rest => readWord .null "ull".toList rest
    | 't' :: rest => readWord (.bool true) "rue".toList rest
    | 'f' :: rest => readWord (.bool false) "alse".toList rest
    | c :: rest => if c = '-' || c.isDigit then readNumber (c :: rest) else breakOff .malformed

/-- Reads an item and what follows it up to the closing bracket. -/
def readItems : Nat → List Draft → List Char → Draft × Rest
  | 0, seen, _ => leaveArray seen .truncated
  | fuel + 1, seen, cs =>
    match readValue fuel cs with
    | (item, .error f) => leaveArray (item :: seen) f
    | (item, .ok rest) =>
      match skipSpace rest with
      | [] => leaveArray (item :: seen) .truncated
      | ']' :: rest => closeArray (item :: seen) none (.ok rest)
      | ',' :: rest =>
        match skipSpace rest with
        | [] => leaveArray (.broken .truncated :: item :: seen) .truncated
        | ']' :: _ => leaveArray (item :: seen) .malformed
        | rest => readItems fuel (item :: seen) rest
      | _ => leaveArray (item :: seen) .malformed

/-- Reads a key, its value and what follows them up to the closing bracket. -/
def readEntries : Nat → List (Option String × Draft) → List Char → Draft × Rest
  | 0, seen, _ => leaveObject seen .truncated
  | fuel + 1, seen, cs =>
    match cs with
    | [] => leaveObject seen .truncated
    | '"' :: rest =>
      match readString rest with
      | (.string none, .error f) => leaveObject ((none, .broken f) :: seen) f
      | (_, .error f) => leaveObject seen f
      | (name, .ok rest) =>
        let key :=
          match name with
          | .string text => text
          | _ => none
        match skipSpace rest with
        | [] => leaveObject ((key, .broken .truncated) :: seen) .truncated
        | ':' :: rest =>
          match readValue fuel rest with
          | (item, .error f) => leaveObject ((key, item) :: seen) f
          | (item, .ok rest) =>
            match skipSpace rest with
            | [] => leaveObject ((key, item) :: seen) .truncated
            | '}' :: rest => closeObject ((key, item) :: seen) none (.ok rest)
            | ',' :: rest =>
              match skipSpace rest with
              | '}' :: _ => leaveObject ((key, item) :: seen) .malformed
              | rest => readEntries fuel ((key, item) :: seen) rest
            | _ => leaveObject ((key, item) :: seen) .malformed
        | _ => leaveObject ((key, .broken .malformed) :: seen) .malformed
    | _ => leaveObject seen .malformed

end

/-- Reads a whole text as one value in the way of `read`; only blank space may follow the value. -/
def readText (read : Draft → Except Fault α) (text : String) : Except Fault α := do
  let cs := text.toList
  let (draft, rest) := readValue (2 * cs.length + 2) cs
  let a ← read draft
  let rest ← rest
  if skipSpace rest = [] then .ok a else .error .malformed

/-- Only the characters of the text matter. -/
theorem readText_ofList (read : Draft → Except Fault α) (cs : List Char) :
    readText read (String.ofList cs) = (do
      let (draft, rest) := readValue (2 * cs.length + 2) cs
      let a ← read draft
      let rest ← rest
      if skipSpace rest = [] then .ok a else .error .malformed) := by
  unfold readText
  rw [String.toList_ofList]

end LaserCutter.Json
