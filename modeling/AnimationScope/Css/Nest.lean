import AnimationScope.Css.Lexeme

/-!
# Nested blocks

Lexemes in braces are put together into blocks. A closing brace without a
partner ends the sequence that it stands in, and what is behind it is a
sequence of its own.
-/

namespace AnimationScope.Css

/-- A sequence of lexemes and of blocks in braces. -/
inductive Nest where
  | done
  | lexeme (first : Lexeme) (rest : Nest)
  | block (body rest : Nest)

namespace Nest

def lexemes : Nest → List Lexeme
  | .done => []
  | .lexeme l rest => l :: rest.lexemes
  | .block body rest =>
    .openBrace :: body.lexemes ++ .closeBrace :: rest.lexemes

/-- The sequence up to the first closing brace without a partner, and the
sequences behind each such brace. -/
def ofLexemes : List Lexeme → Nest × List Nest
  | [] => (.done, [])
  | l :: ls =>
    let (n, behind) := ofLexemes ls
    match l.kind with
    | .closeBrace => (.done, n :: behind)
    | .openBrace =>
      match behind with
      | [] => (.block n .done, [])
      | rest :: behind => (.block n rest, behind)
    | _ => (.lexeme l n, behind)

end Nest

def nest (t : Text) : Except SyntaxError Nest :=
  match (lexemes t).map Nest.ofLexemes with
  | .error e => .error e
  | .ok (n, []) => .ok n
  | .ok (n, _ :: _) => .error ⟨.unexpectedCloseBrace, .after (Lexeme.join n.lexemes)⟩

end AnimationScope.Css
