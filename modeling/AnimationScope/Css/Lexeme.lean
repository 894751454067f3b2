import AnimationScope.Css.Token
import AnimationScope.Css.SyntaxError

/-!
# Lexemes

A lexeme is a token, or a whole group in round or square brackets. Braces stay
lexemes of their own unless a group surrounds them. Only the closing bracket of
its own kind ends a bracket, so a bracket of another kind inside it is plain
text. The end of the input ends every group, but not a block or a comment or a
string.
-/

namespace AnimationScope.Css

inductive Lexeme.Kind where
  | whitespace
  | comment
  | string
  | atKeyword
  | colon
  | semicolon
  | comma
  | bang
  | openBrace
  | closeBrace
  | other
deriving DecidableEq

structure Lexeme where
  kind : Lexeme.Kind
  text : Text
deriving DecidableEq

/-- The kind of a lexeme that is one token. -/
def Token.Kind.lexeme : Token.Kind → Lexeme.Kind
  | .whitespace => .whitespace
  | .comment | .unclosedComment => .comment
  | .string | .unclosedString => .string
  | .atKeyword => .atKeyword
  | .colon => .colon
  | .semicolon => .semicolon
  | .comma => .comma
  | .bang => .bang
  | .opening .curly => .openBrace
  | .closing .curly => .closeBrace
  | .opening _ | .closing _ | .other => .other

def Token.Kind.group? : Token.Kind → Option Bracket
  | .opening .round => some .round
  | .opening .square => some .square
  | _ => none

/-- The open brackets behind a token, innermost first. -/
def Token.Kind.nesting (k : Token.Kind) (stack : List Bracket) : List Bracket :=
  match k with
  | .opening b => b :: stack
  | .closing b => if stack.head? = some b then stack.tail else stack
  | _ => stack

namespace Lexeme

/-- The text that still belongs to the group around the tokens, and the lexemes
behind that group. The list of open brackets is empty outside of groups. -/
def collapse : List Bracket → List Token → Text × List Lexeme
  | _, [] => ([], [])
  | [], t :: ts =>
    match t.kind.group? with
    | some b =>
      let (inner, rest) := collapse [b] ts
      ([], ⟨.other, t.text ++ inner⟩ :: rest)
    | none => ([], ⟨t.kind.lexeme, t.text⟩ :: (collapse [] ts).2)
  | b :: bs, t :: ts =>
    let (inner, rest) := collapse (t.kind.nesting (b :: bs)) ts
    (t.text ++ inner, rest)

def openBrace : Lexeme := ⟨.openBrace, ['{']⟩

def closeBrace : Lexeme := ⟨.closeBrace, ['}']⟩

def join (ls : List Lexeme) : Text := ls.flatMap text

@[simp] theorem join_nil : join [] = [] := rfl

@[simp] theorem join_cons (l : Lexeme) (ls : List Lexeme) : join (l :: ls) = l.text ++ join ls :=
  rfl

@[simp] theorem join_append (ls ms : List Lexeme) : join (ls ++ ms) = join ls ++ join ms :=
  List.flatMap_append

theorem collapse_nil_fst (ts : List Token) : (collapse [] ts).1 = [] := by
  cases ts with
  | nil => rfl
  | cons t ts => simp only [collapse]; split <;> rfl

theorem collapse_text (bs : List Bracket) (ts : List Token) :
    (collapse bs ts).1 ++ join (collapse bs ts).2 = Token.join ts := by
  induction ts generalizing bs with
  | nil => cases bs <;> rfl
  | cons t ts ih =>
    cases bs with
    | nil =>
      simp only [collapse]
      split
      · simp [ih]
      · have h := ih []
        rw [collapse_nil_fst] at h
        simp only [List.nil_append] at h
        simp [h]
    | cons b bs => simp [collapse, ih]

/-- A lexeme as a range of byte offsets. -/
structure Span where
  kind : Kind
  start : Nat
  stop : Nat

/-- The ranges of lexemes that lie side by side from an offset on. -/
def spans : Nat → List Lexeme → List Span
  | _, [] => []
  | offset, l :: ls =>
    let stop := offset + l.text.utf8Length
    ⟨l.kind, offset, stop⟩ :: spans stop ls

end Lexeme

/-- The brackets that are still open behind the tokens, innermost first, each
with its own position. -/
def openBrackets : Position → List (Bracket × Position) → List Token → List (Bracket × Position)
  | _, stack, [] => stack
  | p, stack, t :: ts =>
    openBrackets (p.advance t.text)
      (match t.kind with
        | .opening b => (b, p) :: stack
        | .closing b => if (stack.map Prod.fst).head? = some b then stack.tail else stack
        | _ => stack)
      ts

/-- What keeps tokens from being cut into lexemes: a comment or a string that
the input cuts off, or else the last block that was opened and not closed. -/
def syntaxError? (ts : List Token) : Option SyntaxError :=
  match ts.getLast?.map Token.kind with
  | some .unclosedComment => some ⟨.unclosedComment, .after (Token.join ts.dropLast)⟩
  | some .unclosedString => some ⟨.unclosedString, .after (Token.join ts.dropLast)⟩
  | _ => ((openBrackets .start [] ts).find? (·.1 = .curly)).map fun b => ⟨.unclosedBlock, b.2⟩

def lexemes (t : Text) : Except SyntaxError (List Lexeme) :=
  match syntaxError? (tokens t) with
  | some e => .error e
  | none => .ok (Lexeme.collapse [] (tokens t)).2

theorem join_lexemes {t : Text} {ls : List Lexeme} (h : lexemes t = .ok ls) :
    Lexeme.join ls = t := by
  rw [lexemes] at h
  split at h
  · cases h
  · obtain rfl := Except.ok.inj h
    have hc := Lexeme.collapse_text [] (tokens t)
    rwa [Lexeme.collapse_nil_fst, List.nil_append, join_tokens] at hc

end AnimationScope.Css
