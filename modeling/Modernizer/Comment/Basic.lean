import Modernizer.Text.Line

/-!
Comments as ranges of the source.
-/

namespace Modernizer

/-- A comment. `ownLine` says that nothing but blanks and comments precedes it since the last line
break between tokens, or since the start of the text. -/
structure Comment where
  pos : Nat
  stop : Nat
  multiLine : Bool
  ownLine : Bool
  deriving DecidableEq, Repr

namespace Comment

def text (source : Text) (c : Comment) : Text := Text.slice source c.pos c.stop

def isDocumentation (source : Text) (c : Comment) : Bool :=
  let t := c.text source
  Text.startsWith t ['/', '*', '*'] && !Text.startsWith t ['/', '*', '*', '*']

end Comment
end Modernizer
