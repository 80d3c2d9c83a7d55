import Graft.Glob.Expression

/-!
# What a pattern is compared with

Most patterns say something about a certain part of a path only: the last component, its
extension, the start or the end. `comparison` says which part. A pattern that asks for the last
component literally, or for its extension, stands for no path that ends with the component `..`,
because that component is no name. A pattern that asks for the last component by classes can stand
for `..` too.

Only patterns that are compared with the whole path as expressions can nest, so only they have to
respect the greatest depth.
-/

namespace Graft.Glob

/-- What a pattern is compared with. -/
inductive Comparison where
  /-- The last component, literally. -/
  | name
  /-- The whole path, literally. -/
  | whole
  /-- The extension of the last component. -/
  | extension
  /-- The start of the path. -/
  | start
  /-- The end of the path. -/
  | ending
  /-- The extension of the last component, and the whole path as an expression. -/
  | extended
  /-- The last component, `..` included, as an expression. -/
  | component
  /-- The whole path as an expression. -/
  | expression
deriving DecidableEq, Repr

/-- Whether a token is a literal character. -/
def Token.isLiteral : Token → Bool
  | .literal _ => true
  | _ => false

/-- Whether a token is a literal character inside a component. -/
def Token.isInName : Token → Bool
  | .literal c => c ≠ '/'
  | _ => false

/-- Whether a token is a literal character inside an extension. -/
def Token.isInExtension : Token → Bool
  | .literal c => c ≠ '/' ∧ c ≠ '.'
  | _ => false

/-- Whether a token is a literal dot. -/
def Token.isDot : Token → Bool
  | .literal c => c = '.'
  | _ => false

/-- Tokens without a first one that takes directories. -/
def afterDirs : List Token → List Token
  | .leadingDirs :: rest => rest
  | tokens => tokens

/-- Tokens without a first one that takes any text. -/
def afterMany : List Token → List Token
  | .many :: rest => rest
  | tokens => tokens

/-- Whether a pattern is the name of a component in any directory. -/
def isName : List Token → Bool
  | .leadingDirs :: rest => !rest.isEmpty && rest.all Token.isInName
  | _ => false

/-- Whether a pattern is any text and an extension. -/
def isExtension (tokens : List Token) : Bool :=
  match afterDirs tokens with
  | .many :: dot :: rest => dot.isDot && rest.all Token.isInExtension
  | _ => false

/-- Whether a pattern is a literal text and then any text. -/
def isStart (tokens : List Token) : Bool :=
  match tokens.reverse with
  | .many :: before => !before.isEmpty && before.all Token.isLiteral
  | .trailingDirs :: before => before.all Token.isLiteral
  | _ => false

/-- Whether a pattern is any text and then a literal text that is more than a separator. -/
def isEnding (tokens : List Token) : Bool :=
  match afterMany (afterDirs tokens) with
  | [] => false
  | [.literal '/'] => match tokens with
    | [.leadingDirs, _] => true
    | _ => false
  | rest => rest.all Token.isLiteral

/-- Whether a pattern ends with an extension. -/
def endsWithExtension (tokens : List Token) : Bool :=
  (tokens.reverse.dropWhile Token.isInExtension).head?.any Token.isDot

/-- Whether a token stands for one character or byte, and never for a separator. -/
def Token.isInComponent : Token → Bool
  | .literal c => c ≠ '/'
  | .oneOf negated ranges => !inClass negated (ranges.flatMap byteRanges) slash
  | _ => false

/-- Whether a pattern says something about the last component only. -/
def isComponent : List Token → Bool
  | .leadingDirs :: rest => !rest.isEmpty && rest.all Token.isInComponent
  | _ => false

/-- What a pattern is compared with. -/
def comparison (tokens : List Token) : Comparison :=
  if isName tokens then .name
  else if !tokens.isEmpty && tokens.all Token.isLiteral then .whole
  else if isExtension tokens then .extension
  else if isStart tokens then .start
  else if isEnding tokens then .ending
  else if endsWithExtension tokens then .extended
  else if isComponent tokens then .component
  else .expression

/-- Whether a pattern asks for the name in the last component or for its extension. -/
def Comparison.asksForName : Comparison → Bool
  | .name | .extension | .extended => true
  | .whole | .start | .ending | .component | .expression => false

/-- Why patterns cannot be compared with paths. -/
inductive Unusable where
  /-- A pattern with an extension nests too deeply; its expression. -/
  | pattern (written : String)
  /-- One of the patterns that are only compared as expressions with the whole path nests too
  deeply; its place among them. -/
  | place (index : Nat)
deriving DecidableEq, Repr

def Unusable.message : Unusable → String
  | .pattern written => "error parsing glob '" ++ written ++ "': error parsing pattern 0"
  | .place index => "error parsing pattern " ++ toString index

/-- Why patterns cannot be compared with paths, if one of them nests too deeply. -/
def unusable? (patterns : List (List Token)) : Option Unusable :=
  let tooDeep (tokens : List Token) : Bool := depth tokens > maxDepth
  match (patterns.filter fun tokens => comparison tokens = .extended).find? tooDeep with
  | some tokens => some (.pattern (written tokens))
  | none =>
    ((patterns.filter fun tokens => comparison tokens = .expression).findIdx? tooDeep).map .place

end Graft.Glob
