/-!
The codes under which problems are reported. They are grouped by the construct that a problem is
found in: containers (`E00x`), texts and comments (`E01x`), keys and values (`E02x`), edges
(`E03x`), substitutions (`E04x`) and the source itself (`E09x`).
-/
namespace Diagram

inductive Code where
  | unterminatedMap
  | unterminatedArray
  | unexpectedText
  | strayMapEnd
  | invalidArrayValue
  | nestingTooDeep
  | emptyInput
  | unterminatedDoubleQuoted
  | unterminatedSingleQuoted
  | unterminatedBlockText
  | unterminatedBlockComment
  | unfinishedEscape
  | valueWithoutKey
  | missingValue
  | missingSource
  | missingTarget
  | unterminatedEdge
  | invalidEdgeEscape
  | unterminatedEdgeGroup
  | unterminatedEdgeIndex
  | invalidEdgeIndex
  | missingBrace
  | unterminatedSubstitution
  | sourceFailure
  deriving DecidableEq, Repr

namespace Code

/-- Every code, in the order of their names. -/
def all : List Code :=
  [.unterminatedMap, .unterminatedArray, .unexpectedText, .strayMapEnd, .invalidArrayValue,
    .nestingTooDeep, .emptyInput, .unterminatedDoubleQuoted, .unterminatedSingleQuoted,
    .unterminatedBlockText, .unterminatedBlockComment, .unfinishedEscape, .valueWithoutKey,
    .missingValue, .missingSource, .missingTarget, .unterminatedEdge, .invalidEdgeEscape,
    .unterminatedEdgeGroup, .unterminatedEdgeIndex, .invalidEdgeIndex, .missingBrace,
    .unterminatedSubstitution, .sourceFailure]

/-- The name a code is reported by. -/
def name : Code → String
  | .unterminatedMap => "E001"
  | .unterminatedArray => "E002"
  | .unexpectedText => "E003"
  | .strayMapEnd => "E004"
  | .invalidArrayValue => "E005"
  | .nestingTooDeep => "E006"
  | .emptyInput => "E007"
  | .unterminatedDoubleQuoted => "E010"
  | .unterminatedSingleQuoted => "E011"
  | .unterminatedBlockText => "E012"
  | .unterminatedBlockComment => "E013"
  | .unfinishedEscape => "E014"
  | .valueWithoutKey => "E020"
  | .missingValue => "E021"
  | .missingSource => "E030"
  | .missingTarget => "E031"
  | .unterminatedEdge => "E032"
  | .invalidEdgeEscape => "E033"
  | .unterminatedEdgeGroup => "E034"
  | .unterminatedEdgeIndex => "E035"
  | .invalidEdgeIndex => "E036"
  | .missingBrace => "E040"
  | .unterminatedSubstitution => "E041"
  | .sourceFailure => "E090"

/-- What a code means, in a few words. -/
def description : Code → String
  | .unterminatedMap => "unterminated map"
  | .unterminatedArray => "unterminated array"
  | .unexpectedText => "unexpected text"
  | .strayMapEnd => "unexpected map termination"
  | .invalidArrayValue => "invalid array value"
  | .nestingTooDeep => "nesting too deep"
  | .emptyInput => "empty input"
  | .unterminatedDoubleQuoted => "unterminated double quoted string"
  | .unterminatedSingleQuoted => "unterminated single quoted string"
  | .unterminatedBlockText => "unterminated block string"
  | .unterminatedBlockComment => "unterminated block comment"
  | .unfinishedEscape => "unfinished escape sequence"
  | .valueWithoutKey => "map value without key"
  | .missingValue => "missing value"
  | .missingSource => "connection missing source"
  | .missingTarget => "connection missing destination"
  | .unterminatedEdge => "unterminated connection"
  | .invalidEdgeEscape => "invalid connection escape"
  | .unterminatedEdgeGroup => "unterminated edge group"
  | .unterminatedEdgeIndex => "unterminated edge index"
  | .invalidEdgeIndex => "invalid edge index"
  | .missingBrace => "substitution missing `\x7b`"
  | .unterminatedSubstitution => "substitution missing `\x7d`"
  | .sourceFailure => "source read failure"

/-- The code with a name. -/
def ofName? (name : String) : Option Code :=
  all.find? fun code => code.name == name

theorem ofName?_name (code : Code) : ofName? code.name = some code := by
  cases code <;> rfl

theorem name_of_ofName? {name : String} {code : Code} (h : ofName? name = some code) :
    code.name = name := by
  simpa using List.find?_some h

end Code

end Diagram
