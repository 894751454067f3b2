import AnimationScope.Animation.Keyframes
import AnimationScope.Animation.Name
import AnimationScope.Animation.NameMap
import AnimationScope.Animation.Reference
import AnimationScope.Css.Character
import AnimationScope.Css.Lexeme
import AnimationScope.Css.Name
import AnimationScope.Css.Nest
import AnimationScope.Css.Numeric
import AnimationScope.Css.Quoted
import AnimationScope.Css.Statement
import AnimationScope.Css.SyntaxError
import AnimationScope.Css.Token
import AnimationScope.Css.Url
import AnimationScope.Css.VendorPrefix
import AnimationScope.Digest.Sha256
import AnimationScope.Icss.Export
import AnimationScope.Json.Read
import AnimationScope.Json.Token
import AnimationScope.Json.Value
import AnimationScope.Json.Write
import AnimationScope.Naming.FileName
import AnimationScope.Naming.Generator
import AnimationScope.Naming.Pattern
import AnimationScope.Proofs.Advancing
import AnimationScope.Proofs.Agreement
import AnimationScope.Proofs.Appending
import AnimationScope.Proofs.Blocks
import AnimationScope.Proofs.Brackets
import AnimationScope.Proofs.BreakingOff
import AnimationScope.Proofs.Changes
import AnimationScope.Proofs.Closers
import AnimationScope.Proofs.Collecting
import AnimationScope.Proofs.ConfigSpelling
import AnimationScope.Proofs.Contents
import AnimationScope.Proofs.Cut
import AnimationScope.Proofs.DefaultNames
import AnimationScope.Proofs.Delimited
import AnimationScope.Proofs.Ends
import AnimationScope.Proofs.Entries
import AnimationScope.Proofs.Exchange
import AnimationScope.Proofs.Exports
import AnimationScope.Proofs.Extents
import AnimationScope.Proofs.FileStems
import AnimationScope.Proofs.FileWords
import AnimationScope.Proofs.FirstToken
import AnimationScope.Proofs.Formed
import AnimationScope.Proofs.FrontNodes
import AnimationScope.Proofs.Groups
import AnimationScope.Proofs.HostAnswer
import AnimationScope.Proofs.Identifiers
import AnimationScope.Proofs.Imports
import AnimationScope.Proofs.Inversion
import AnimationScope.Proofs.JsonRoundTrip
import AnimationScope.Proofs.JsonTokens
import AnimationScope.Proofs.Levels
import AnimationScope.Proofs.Lexed
import AnimationScope.Proofs.Lookahead
import AnimationScope.Proofs.Lossless
import AnimationScope.Proofs.Merging
import AnimationScope.Proofs.NameEnds
import AnimationScope.Proofs.NameIndex
import AnimationScope.Proofs.PatternNames
import AnimationScope.Proofs.Placeholders
import AnimationScope.Proofs.Places
import AnimationScope.Proofs.PlainWords
import AnimationScope.Proofs.Positions
import AnimationScope.Proofs.Preludes
import AnimationScope.Proofs.Publishing
import AnimationScope.Proofs.Reads
import AnimationScope.Proofs.RecordRoundTrip
import AnimationScope.Proofs.RecordSpelling
import AnimationScope.Proofs.References
import AnimationScope.Proofs.Renaming
import AnimationScope.Proofs.Reordering
import AnimationScope.Proofs.Republishing
import AnimationScope.Proofs.Shape
import AnimationScope.Proofs.Substitution
import AnimationScope.Proofs.SyntaxErrors
import AnimationScope.Proofs.TokenStart
import AnimationScope.Proofs.Turns
import AnimationScope.Proofs.Unmarked
import AnimationScope.Proofs.Words
import AnimationScope.Report
import AnimationScope.Scoping.Collection
import AnimationScope.Scoping.Process
import AnimationScope.Stylesheet.Declarations
import AnimationScope.Stylesheet.Node
import AnimationScope.Stylesheet.Parse
import AnimationScope.Stylesheet.Path
import AnimationScope.Text.Basic
import AnimationScope.Text.Blank
import AnimationScope.Text.Digit
import AnimationScope.Text.Position
import AnimationScope.Wire.Host
import AnimationScope.Wire.Record
import AnimationScope.Wire.Schema
