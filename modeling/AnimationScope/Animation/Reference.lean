import AnimationScope.Animation.NameMap
import AnimationScope.Css.Lexeme
import AnimationScope.Css.VendorPrefix
import AnimationScope.Stylesheet.Declarations

/-!
# References to animations

The value of an animation property is a sequence of words and of the gaps
between them. A word that is a local name is replaced by its scoped name. All
words are replaced at once, and nothing else changes.
-/

namespace AnimationScope.Animation

open Css

def isAnimationProperty (prop : Text) : Bool :=
  matchesUnprefixed prop ["animation".toList, "animation-name".toList]

/-- A word of a value, or what stands between two words. -/
inductive Piece where
  | gap (text : Text)
  | word (text : Text)

namespace Piece

def text : Piece → Text
  | .gap t | .word t => t

def join (ps : List Piece) : Text := ps.flatMap text

/-- Whether a lexeme of this kind lies between words. -/
def separates : Lexeme.Kind → Bool
  | .whitespace | .comma | .comment => true
  | _ => false

/-- Whether a word begins with the next lexeme whatever is in front of it. -/
def startsWord (ls : List Lexeme) : Bool := ls.head?.any (·.kind = .bang)

/-- Lexemes side by side make one word, but an exclamation mark begins another. -/
def ofLexemes : List Lexeme → List Piece
  | [] => []
  | l :: ls =>
    if separates l.kind then .gap l.text :: ofLexemes ls
    else if startsWord ls then .word l.text :: ofLexemes ls
    else match ofLexemes ls with
      | .word w :: ps => .word (l.text ++ w) :: ps
      | ps => .word l.text :: ps

theorem join_ofLexemes (ls : List Lexeme) : join (ofLexemes ls) = Lexeme.join ls := by
  induction ls with
  | nil => rfl
  | cons l ls ih =>
    simp only [ofLexemes]
    split
    · simpa [join, text] using ih
    · split
      · simpa [join, text] using ih
      · rw [Lexeme.join_cons, ← ih]
        split <;> simp [join, text, *]

def isKey (names : NameMap) : Piece → Bool
  | .gap _ => false
  | .word w => names.contains w

/-- The text with the scoped name in place of a local one. -/
def rename (names : NameMap) : Piece → Text
  | .gap t => t
  | .word w => (names.get? w).getD w

end Piece

/-- The value with every local name replaced, or `none` if it has none. -/
def renameValue? (names : NameMap) (value : Text) : Option Text :=
  match lexemes value with
  | .error _ => none
  | .ok ls =>
    let pieces := Piece.ofLexemes ls
    if pieces.any (Piece.isKey names) then some (pieces.flatMap (Piece.rename names)) else none

def newValue? (names : NameMap) (d : Declaration) : Option Text :=
  if isAnimationProperty d.prop then renameValue? names d.value else none

def renameDeclaration (names : NameMap) (d : Declaration) : Declaration :=
  match newValue? names d with
  | some value => { d with value }
  | none => d

def renameReferences (names : NameMap) (s : Stylesheet) : Stylesheet :=
  s.mapDeclarations (renameDeclaration names)

/-- The number of declarations that `renameReferences` changes. -/
def referenceCount (names : NameMap) (s : Stylesheet) : Nat :=
  s.declarations.countP fun d => (newValue? names d).isSome

end AnimationScope.Animation
