import AnimationScope.Css.Quoted
import AnimationScope.Css.Url
import AnimationScope.Css.Numeric

/-!
# Tokens

A text is cut into tokens from left to right. What the next token is depends
only on the text that is left, never on the brackets that are open, and every
token has at least one character. The texts of the tokens put together are the
source.
-/

namespace AnimationScope.Css

inductive Bracket where
  | round
  | square
  | curly
deriving DecidableEq

inductive Token.Kind where
  | whitespace
  | comment
  | string
  /-- A comment that the end of the input cuts off. -/
  | unclosedComment
  /-- A string that the end of the input cuts off. -/
  | unclosedString
  | atKeyword
  | colon
  | semicolon
  | comma
  | bang
  /-- An opening bracket, or a function's name with its parenthesis. -/
  | opening (bracket : Bracket)
  | closing (bracket : Bracket)
  | other
deriving DecidableEq

structure Token where
  kind : Token.Kind
  text : Text
deriving DecidableEq

namespace Token

def punctuation? (c : Char) : Option Kind :=
  if c = ':' then some .colon
  else if c = ';' then some .semicolon
  else if c = ',' then some .comma
  else if c = '!' then some .bang
  else if c = '(' then some (.opening .round)
  else if c = '[' then some (.opening .square)
  else if c = '{' then some (.opening .curly)
  else if c = ')' then some (.closing .round)
  else if c = ']' then some (.closing .square)
  else if c = '}' then some (.closing .curly)
  else none

/-- The first token of a text that starts with an identifier, and its length. -/
def identLike (t : Text) : Kind × Nat :=
  let n := nameLength 0 t
  match t.drop n with
  | '(' :: r =>
    match if spellsUrl (t.take n) then unquotedUrlLength? r else none with
    | some m => (.other, n + 1 + m)
    | none => (.opening .round, n + 1)
  | _ => (.other, n)

/-- Length of an operator of several characters, or one for any other character. -/
def operatorLength : Text → Nat
  | '<' :: '!' :: '-' :: '-' :: _ => 4
  | '-' :: '-' :: '>' :: _ => 3
  | c :: '=' :: _ => if c ∈ ['$', '*', '^', '|', '~'] then 2 else 1
  | _ => 1

/-- The first token of the text `c :: r`, and its length. -/
def first (c : Char) (r : Text) : Kind × Nat :=
  if isSpace c then (.whitespace, (r.takeWhile isSpace).length + 1)
  else if c = '\x22' || c = '\x27' then
    match quotedLength c 0 r with
    | some n => (.string, n + 1)
    | none => (.unclosedString, r.length + 1)
  else if c = '/' && headIs (· == '*') r then
    match commentLength r.tail with
    | some n => (.comment, n + 2)
    | none => (.unclosedComment, r.length + 1)
  else if c = '#' then
    (.other, if startsIdent r || headIs (fun d => d.isDigit || d == '-') r
      then nameLength 0 r + 1 else 1)
  else if c = '@' then
    if startsIdent r then (.atKeyword, nameLength 0 r + 1) else (.other, 1)
  else match punctuation? c with
    | some kind => (kind, 1)
    | none =>
      if startsNumber (c :: r) then (.other, numericLength (c :: r))
      else if operatorLength (c :: r) = 1 && startsIdent (c :: r) then identLike (c :: r)
      else (.other, operatorLength (c :: r))

/-- The tokens of a text whose first characters belong to an earlier token. -/
def scan : Nat → Text → List Token
  | _, [] => []
  | k + 1, _ :: r => scan k r
  | 0, c :: r =>
    let n := (first c r).2 - 1
    ⟨(first c r).1, c :: r.take n⟩ :: scan n r

theorem scan_eq_drop (k : Nat) (t : Text) : scan k t = scan 0 (t.drop k) := by
  induction k generalizing t with
  | zero => rfl
  | succ k ih =>
    cases t with
    | nil => rfl
    | cons c r => simpa [scan] using ih r

def join (ts : List Token) : Text := ts.flatMap text

@[simp] theorem join_nil : join [] = [] := rfl

@[simp] theorem join_cons (t : Token) (ts : List Token) : join (t :: ts) = t.text ++ join ts := rfl

end Token

def tokens (t : Text) : List Token := Token.scan 0 t

theorem tokens_cons (c : Char) (r : Text) :
    tokens (c :: r) =
      ⟨(Token.first c r).1, c :: r.take ((Token.first c r).2 - 1)⟩ ::
        tokens (r.drop ((Token.first c r).2 - 1)) := by
  simp only [tokens, Token.scan]
  rw [Token.scan_eq_drop]

theorem join_tokens (t : Text) : Token.join (tokens t) = t := by
  induction h : t.length using Nat.strongRecOn generalizing t with
  | ind n ih =>
    cases t with
    | nil => rfl
    | cons c r =>
      have hr := ih (r.drop ((Token.first c r).2 - 1)).length
        (by simp at h ⊢; omega) _ rfl
      simp [tokens_cons, hr]

end AnimationScope.Css
