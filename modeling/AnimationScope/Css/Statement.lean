import AnimationScope.Css.Nest

/-!
# Statements

A sequence is cut into statements. Between two statements there may be a gap of
spaces and stray semicolons, which goes with the statement behind it. Every
statement takes at least one lexeme, and none is left out or read twice.
-/

namespace AnimationScope.Css

/-- What a statement consists of up to its semicolon, its block or its end. -/
structure Statement.Head where
  /-- Spaces and stray semicolons in front of the statement. -/
  gap : List Lexeme
  keyword : Option Lexeme
  prelude : List Lexeme

inductive Statement where
  | comment (gap : List Lexeme) (comment : Lexeme)
  | simple (head : Statement.Head) (semicolon : Option Lexeme)
  /-- A statement with a block, whose own statements are followed by a gap. -/
  | block (head : Statement.Head) (body : List Statement) (after : List Lexeme)

namespace Statement

/-- Statements and the gap behind the last of them. -/
structure Run where
  statements : List Statement
  after : List Lexeme

def Run.cons (s : Statement) (r : Run) : Run := ⟨s :: r.statements, r.after⟩

def widen (l : Lexeme) : Statement → Statement
  | .comment gap c => .comment (l :: gap) c
  | .simple head semicolon => .simple { head with gap := l :: head.gap } semicolon
  | .block head body after => .block { head with gap := l :: head.gap } body after

/-- Puts a lexeme in front of the first gap. -/
def Run.widen (l : Lexeme) (r : Run) : Run :=
  match r.statements with
  | [] => ⟨[], l :: r.after⟩
  | s :: ss => ⟨s.widen l :: ss, r.after⟩

/-- What ends a prelude, with the statements behind it. -/
inductive Ending where
  | close
  | semicolon (l : Lexeme) (rest : Run)
  | block (body rest : Run)

def isWhitespace (l : Lexeme) : Bool := l.kind = .whitespace

/-- Whitespace in front of the end of a block belongs to the block, unless it
is in the prelude of an at-rule. -/
def finish (keyword : Option Lexeme) (prelude : List Lexeme) : Ending → Run
  | .semicolon l rest => rest.cons (.simple ⟨[], keyword, prelude⟩ (some l))
  | .block body rest => rest.cons (.block ⟨[], keyword, prelude⟩ body.statements body.after)
  | .close =>
    if keyword.isSome then ⟨[.simple ⟨[], keyword, prelude⟩ none], []⟩
    else
      ⟨[.simple ⟨[], none, (prelude.reverse.dropWhile isWhitespace).reverse⟩ none],
        (prelude.reverse.takeWhile isWhitespace).reverse⟩

mutual

/-- Reads from a place between two statements. -/
def ofNest : Nest → Run
  | .done => ⟨[], []⟩
  | .block body rest => finish none [] (.block (ofNest body) (ofNest rest))
  | .lexeme l rest =>
    match l.kind with
    | .whitespace | .semicolon => (ofNest rest).widen l
    | .comment => (ofNest rest).cons (.comment [] l)
    | .atKeyword =>
      let (prelude, ending) := preludeOf rest
      finish (some l) prelude ending
    | _ =>
      let (prelude, ending) := preludeOf rest
      finish none (l :: prelude) ending

/-- Reads from a place inside a prelude. -/
def preludeOf : Nest → List Lexeme × Ending
  | .done => ([], .close)
  | .block body rest => ([], .block (ofNest body) (ofNest rest))
  | .lexeme l rest =>
    match l.kind with
    | .semicolon => ([], .semicolon l (ofNest rest))
    | _ =>
      let (prelude, ending) := preludeOf rest
      (l :: prelude, ending)

end

mutual

def lexemes : Statement → List Lexeme
  | .comment gap c => gap ++ [c]
  | .simple head semicolon =>
    head.gap ++ head.keyword.toList ++ head.prelude ++ semicolon.toList
  | .block head body after =>
    head.gap ++ head.keyword.toList ++ head.prelude ++
      .openBrace :: (lexemesOf body ++ after) ++ [.closeBrace]

def lexemesOf : List Statement → List Lexeme
  | [] => []
  | s :: ss => s.lexemes ++ lexemesOf ss

end

def Run.lexemes (r : Run) : List Lexeme := lexemesOf r.statements ++ r.after

def Ending.lexemes : Ending → List Lexeme
  | .close => []
  | .semicolon l rest => l :: rest.lexemes
  | .block body rest => .openBrace :: body.lexemes ++ .closeBrace :: rest.lexemes

@[simp] theorem Run.lexemes_cons (s : Statement) (r : Run) :
    (r.cons s).lexemes = s.lexemes ++ r.lexemes := by
  simp [Run.cons, Run.lexemes, lexemesOf]

@[simp] theorem lexemes_widen (l : Lexeme) (s : Statement) :
    (s.widen l).lexemes = l :: s.lexemes := by
  cases s <;> simp [widen, lexemes]

@[simp] theorem Run.lexemes_widen (l : Lexeme) (r : Run) :
    (r.widen l).lexemes = l :: r.lexemes := by
  rcases r with ⟨_ | _, _⟩ <;> simp [Run.widen, Run.lexemes, lexemesOf]

theorem lexemes_finish (keyword : Option Lexeme) (prelude : List Lexeme) (e : Ending) :
    (finish keyword prelude e).lexemes = keyword.toList ++ (prelude ++ e.lexemes) := by
  cases e with
  | close =>
    cases keyword with
    | some k => simp [finish, Run.lexemes, lexemesOf, lexemes, Ending.lexemes]
    | none =>
      simp [finish, Run.lexemes, lexemesOf, lexemes, Ending.lexemes, ← List.reverse_append,
        List.takeWhile_append_dropWhile]
  | semicolon l rest => simp [finish, lexemes, Ending.lexemes]
  | block body rest =>
    rw [finish, Run.lexemes_cons]
    simp [lexemes, Ending.lexemes, Run.lexemes]

/-- No lexeme of a sequence is left out or read twice. -/
theorem lexemes_ofNest (n : Nest) :
    (ofNest n).lexemes = n.lexemes ∧
      (preludeOf n).1 ++ (preludeOf n).2.lexemes = n.lexemes := by
  induction n with
  | done => exact ⟨rfl, rfl⟩
  | block body rest hb hr =>
    simp [ofNest, preludeOf, lexemes_finish, Nest.lexemes, Ending.lexemes, hb.1, hr.1]
  | lexeme l rest ih =>
    constructor
    · simp only [ofNest]
      split <;> simp [lexemes_finish, Nest.lexemes, ih.1, ih.2, lexemes]
    · simp only [preludeOf]
      split
      · simp [Nest.lexemes, Ending.lexemes, ih.1]
      · simp [Nest.lexemes, ih.2]

end Statement

end AnimationScope.Css
