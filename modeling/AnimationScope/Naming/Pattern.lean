import AnimationScope.Digest.Sha256
import AnimationScope.Naming.FileName

/-!
# Patterns of scoped names

A pattern is text with placeholders in square brackets. An opening bracket that
no closing bracket follows is plain text.
-/

namespace AnimationScope.Naming

inductive PatternError where
  | unknownPlaceholder (text : Text)
  | invalidHashLength (text : Text)
deriving DecidableEq

def PatternError.message : PatternError → Text
  | .unknownPlaceholder t =>
    "unknown placeholder '[".toList ++ t ++ "]' in scoped name pattern".toList
  | .invalidHashLength t =>
    "invalid hash length '".toList ++ t ++ "' in scoped name pattern".toList

/-- A number of digits that a digest has. -/
structure HashLength where
  count : Nat
  pos : 0 < count
  le : count ≤ 64
deriving DecidableEq

inductive Segment where
  | literal (c : Char)
  | fileName
  | localName
  | hash (length : HashLength)
deriving DecidableEq

/-- What a pattern consists of, from left to right. -/
abbrev Pattern := List Segment

/-- A pattern's plain characters and the texts between its brackets. -/
inductive Pattern.Part where
  | plain (c : Char)
  | bracketed (text : Text)

/-- The parts of a pattern whose first characters belong to an earlier part. -/
def Pattern.parts : Nat → Text → List Part
  | _, [] => []
  | k + 1, _ :: r => parts k r
  | 0, c :: r =>
    if c = '[' ∧ ']' ∈ r then
      let inner := r.takeWhile (· ≠ ']')
      .bracketed inner :: parts (inner.length + 1) r
    else .plain c :: parts 0 r

/-- Reads a number of hash digits, which may have a plus sign in front. -/
def HashLength.read? (t : Text) : Option HashLength :=
  let digits := (t.stripStart? ['+']).getD t
  if h : digits.isNumeral ∧ 0 < digits.ofDecimal ∧ digits.ofDecimal ≤ 64 then
    some ⟨digits.ofDecimal, h.2.1, h.2.2⟩
  else none

def Segment.read (t : Text) : Except PatternError Segment :=
  if t = "name".toList then .ok .fileName
  else if t = "local".toList then .ok .localName
  else if t = "hash".toList then .ok (.hash ⟨8, by decide, by decide⟩)
  else match t.stripStart? "hash:".toList with
    | none => .error (.unknownPlaceholder t)
    | some length =>
      match HashLength.read? length with
      | some n => .ok (.hash n)
      | none => .error (.invalidHashLength length)

def Pattern.Part.segment : Pattern.Part → Except PatternError Segment
  | .plain c => .ok (.literal c)
  | .bracketed t => Segment.read t

/-- Reads a pattern. The first placeholder that is at fault is reported. -/
def Pattern.read (t : Text) : Except PatternError Pattern :=
  (Pattern.parts 0 t).mapM Pattern.Part.segment

/-- The digest of a path and a name, which a null byte divides. -/
def hashOf (name path : Text) : Text :=
  Digest.hexDigest (path.utf8Bytes ++ 0 :: name.utf8Bytes)

def Segment.fill (name path : Text) : Segment → Text
  | .literal c => [c]
  | .fileName => joinedWords (fileStem path)
  | .localName => name
  | .hash n => (hashOf name path).take n.count

def Pattern.fill (p : Pattern) (name path : Text) : Text :=
  p.flatMap (Segment.fill name path)

end AnimationScope.Naming
