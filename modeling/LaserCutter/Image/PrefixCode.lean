/-!
# Bits and prefix codes

Bits are read one after the other, the lowest bit of each byte first. Past their end a reader goes on
with zeros and remembers that it has done so: what it has read then is a guess that more bits may
overturn. A prefix code is a binary tree with the symbols at its leaves.
-/

namespace LaserCutter.Image

/-- The bits of the bytes, the lowest bit of each byte first. -/
def bitsOf (bytes : List UInt8) : List Bool :=
  bytes.flatMap fun b => (List.range 8).map fun i => b.toNat.testBit i

structure BitReader where
  /-- The bits that are still to be read. -/
  ahead : List Bool
  /-- More bits were read than there are. -/
  past : Bool
  deriving DecidableEq, Repr

namespace BitReader

def ofBytes (bytes : List UInt8) : BitReader := ⟨bitsOf bytes, false⟩

def next (r : BitReader) : Bool × BitReader :=
  match r.ahead with
  | [] => (false, ⟨[], true⟩)
  | bit :: ahead => (bit, { r with ahead })

/-- There are at least `n` bits ahead. -/
def has (r : BitReader) (n : Nat) : Bool := n = 0 || !(r.ahead.drop (n - 1)).isEmpty

/-- The next `n` bits as a number, the lowest bit first. -/
def number : Nat → BitReader → Nat × BitReader
  | 0, r => (0, r)
  | n + 1, r =>
    let (bit, r) := r.next
    let (high, r) := number n r
    (2 * high + bit.toNat, r)

/-- How many bits are left of a byte that is read in part. -/
def padding (r : BitReader) : Nat := r.ahead.length % 8

end BitReader

inductive PrefixCode where
  | empty
  | symbol (s : Nat)
  | branch (zero one : PrefixCode)

/-- A symbol that is read, with the length of its code word. -/
structure ReadSymbol where
  symbol : Nat
  length : Nat
  after : BitReader
  deriving DecidableEq, Repr

namespace PrefixCode

/-- Adds a symbol at the end of a path; there must be no symbol on the way and nothing at its end.
-/
def insert (s : Nat) : List Bool → PrefixCode → Option PrefixCode
  | [], .empty => some (.symbol s)
  | [], _ => none
  | _ :: _, .symbol _ => none
  | false :: path, .branch zero one => (insert s path zero).map (.branch · one)
  | true :: path, .branch zero one => (insert s path one).map (.branch zero ·)
  | false :: path, .empty => (insert s path .empty).map (.branch · .empty)
  | true :: path, .empty => (insert s path .empty).map (.branch .empty ·)

/-- Reads the symbol that the bits lead to, if they lead to one; `length` bits came before. -/
def readFrom (length : Nat) : PrefixCode → BitReader → Option ReadSymbol
  | .empty, _ => none
  | .symbol s, r => some ⟨s, length, r⟩
  | .branch zero one, r =>
    let (bit, r) := r.next
    if bit then one.readFrom (length + 1) r else zero.readFrom (length + 1) r

def read (code : PrefixCode) (r : BitReader) : Option ReadSymbol := code.readFrom 0 r

/-- The `length` bits of a code word, the highest first. -/
def codeWord (length code : Nat) : List Bool :=
  ((List.range length).map fun i => code.testBit i).reverse

/-- Adds the symbols of one code length, which take consecutive code words from `code` on. -/
def addSymbols (length : Nat) : List Nat → Nat → PrefixCode → Option (Nat × PrefixCode)
  | [], code, tree => some (code, tree)
  | s :: rest, code, tree => do
    if Nat.pow 2 length ≤ code then none
    let tree ← tree.insert s (codeWord length code)
    addSymbols length rest (code + 1) tree

/-- The longest code word. -/
def longest : Nat := 15

/-- The code in which symbol `s` has the length at place `s`; length zero stands for no code word.
Shorter words come first, and words of one length follow the order of the symbols. -/
def ofLengths (lengths : List Nat) : Option PrefixCode := do
  let symbols := lengths.zipIdx
  let (_, tree) ← (List.range longest).foldlM
    (fun (code, tree) i => do
      let ofLength := symbols.filterMap fun (l, s) => if l = i + 1 then some s else none
      addSymbols (i + 1) ofLength (2 * code) tree)
    (0, PrefixCode.empty)
  some tree

/-- The part of all bit strings that begin with a code word, in units of the longest one. -/
def kraftSum (lengths : List Nat) : Nat :=
  ((lengths.filter (0 < ·)).map fun l => Nat.pow 2 (longest - l)).foldr (· + ·) 0

/-- A code in which every bit string leads to a symbol. -/
def complete? (lengths : List Nat) : Option PrefixCode :=
  if kraftSum lengths = Nat.pow 2 longest then ofLengths lengths else none

/-- A code that is complete, or that has no symbols at all, or one symbol with a word of one bit. -/
def completeOrSingle? (lengths : List Nat) : Option PrefixCode :=
  let used := lengths.filter (0 < ·)
  if used = [] ∨ used = [1] then ofLengths lengths else complete? lengths

end PrefixCode

end LaserCutter.Image
