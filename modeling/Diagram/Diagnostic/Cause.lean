import Diagram.Chars.Quoted
import Diagram.Diagnostic.Code

/-!
What can be wrong with a diagram. A cause fixes the code, the message and the help that a problem
is reported with.
-/
namespace Diagram

inductive Cause where
  | unterminatedMap
  | unterminatedArray
  /-- More text on the line of a node that is complete. -/
  | textAfter (typeName : String)
  /-- Text that starts no entry of a map. -/
  | textBeforeKey
  /-- Text that starts no item of a sequence. -/
  | textBeforeItem
  /-- A closing brace where no map is open. -/
  | strayMapEnd
  | invalidItemStart (c : Char)
  | nestingTooDeep
  /-- A key path was wanted and the text holds none. -/
  | emptyPath (text : String)
  /-- A key was wanted and the text holds none. -/
  | emptyKey
  /-- A value was wanted and the text holds none. -/
  | emptyValue
  | unterminatedDoubleQuoted
  | unterminatedSingleQuoted
  | unterminatedBlockText (quote : String)
  | unterminatedBlockComment
  | unfinishedEscape
  | valueWithoutKey
  | missingValue
  | missingSource
  | missingTarget
  | unterminatedEdge
  | invalidEdgeEscape
  | unterminatedEdgeGroup
  | unterminatedEdgeIndex
  | invalidEdgeIndex
  | missingBrace
  | unterminatedSubstitution
  | sourceFailure (reason : String)
  deriving DecidableEq, Repr

namespace Cause

def code : Cause → Code
  | .unterminatedMap => .unterminatedMap
  | .unterminatedArray => .unterminatedArray
  | .textAfter _ | .textBeforeKey | .textBeforeItem => .unexpectedText
  | .strayMapEnd => .strayMapEnd
  | .invalidItemStart _ => .invalidArrayValue
  | .nestingTooDeep => .nestingTooDeep
  | .emptyPath _ | .emptyKey | .emptyValue => .emptyInput
  | .unterminatedDoubleQuoted => .unterminatedDoubleQuoted
  | .unterminatedSingleQuoted => .unterminatedSingleQuoted
  | .unterminatedBlockText _ => .unterminatedBlockText
  | .unterminatedBlockComment => .unterminatedBlockComment
  | .unfinishedEscape => .unfinishedEscape
  | .valueWithoutKey => .valueWithoutKey
  | .missingValue => .missingValue
  | .missingSource => .missingSource
  | .missingTarget => .missingTarget
  | .unterminatedEdge => .unterminatedEdge
  | .invalidEdgeEscape => .invalidEdgeEscape
  | .unterminatedEdgeGroup => .unterminatedEdgeGroup
  | .unterminatedEdgeIndex => .unterminatedEdgeIndex
  | .invalidEdgeIndex => .invalidEdgeIndex
  | .missingBrace => .missingBrace
  | .unterminatedSubstitution => .unterminatedSubstitution
  | .sourceFailure _ => .sourceFailure

def message : Cause → String
  | .unterminatedMap => "maps must be terminated with \x7d"
  | .unterminatedArray => "arrays must be terminated with ]"
  | .textAfter typeName => "unexpected text after " ++ typeName
  | .textBeforeKey => "invalid text beginning unquoted key"
  | .textBeforeItem => "invalid text beginning unquoted string"
  | .strayMapEnd => "unexpected map termination character \x7d in file map"
  | .invalidItemStart c => "unquoted strings cannot start on " ++ quotedChar c
  | .nestingTooDeep => "maximum nesting depth exceeded"
  | .emptyPath text => "empty key: " ++ quotedText text
  | .emptyKey => "empty map key"
  | .emptyValue => "empty value"
  | .unterminatedDoubleQuoted => "double quoted strings must be terminated with \""
  | .unterminatedSingleQuoted => "single quoted strings must be terminated with '"
  | .unterminatedBlockText quote => "block string must be terminated with " ++ quote ++ "|"
  | .unterminatedBlockComment => "block comments must be terminated with \"\"\""
  | .unfinishedEscape => "unfinished escape sequence"
  | .valueWithoutKey => "map value without key"
  | .missingValue => "missing value after colon"
  | .missingSource => "connection missing source"
  | .missingTarget => "connection missing destination"
  | .unterminatedEdge => "unterminated connection"
  | .invalidEdgeEscape => "only newline escapes are allowed in connections"
  | .unterminatedEdgeGroup => "edge groups must be terminated with )"
  | .unterminatedEdgeIndex => "unterminated edge index"
  | .invalidEdgeIndex => "unexpected character in edge index"
  | .missingBrace => "substitutions must begin on \x7b"
  | .unterminatedSubstitution => "substitutions must be terminated by \x7d"
  | .sourceFailure reason => "io error: " ++ reason

/-- What the writer of the diagram can do about it. -/
def help? : Cause → Option String
  | .strayMapEnd => some "remove the `\x7d` or open a map with `\x7b`"
  | .nestingTooDeep => some "flatten the nesting or raise `max_depth`"
  | _ => none

end Cause

end Diagram
