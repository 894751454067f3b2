import AnimationScope.Wire.Schema

/-!
# Answering a host

A host hands over a stylesheet, its path and perhaps a configuration, and
receives a JSON text. The configuration is looked at before the stylesheet.
-/

namespace AnimationScope

open Naming

/-- The generator that a configuration chooses, if it chooses one. -/
def Config.generator? (c : Config) : Except PatternError (Option (Generator Unit)) :=
  match c.scopedNamePattern with
  | none => .ok none
  | some t => (Pattern.read t).map fun p => some (.ofPattern p)

namespace Host

inductive Error where
  /-- The configuration cannot be read. -/
  | config
  | pattern (error : PatternError)
  | stylesheet (path : Text) (error : Css.SyntaxError)
deriving DecidableEq

/-- The message of an error. That of an unreadable configuration is not fixed. -/
def Error.message? : Error → Option Text
  | .config => none
  | .pattern e => some e.message
  | .stylesheet path e =>
    some ("CSS parse error in ".toList ++ path ++ ": ".toList ++ e.message)

def config? : Option Text → Option Config
  | none => some ⟨none⟩
  | some t => Wire.read? t

def answer (file : SourceFile) (config : Option Text) : Except Error Text :=
  match config? config with
  | none => .error .config
  | some config =>
    match config.generator? with
    | .error e => .error (.pattern e)
    | .ok generator =>
      match process (generator.getD .default) file () with
      | .error e => .error (.stylesheet file.path e)
      | .ok output => .ok output.toValue.write

end Host

end AnimationScope
