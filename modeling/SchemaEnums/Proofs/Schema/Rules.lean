import SchemaEnums.Proofs.Schema.Print
import SchemaEnums.Proofs.Text.Peg

/-!
# Schema — Rules

The language of schemas as a grammar of rules.  It accepts every text: a line that is nothing else
is a `catchAll` of its kind, and where a block's brace is missing there is a rule for that too.
Whether the text is a schema is seen from the tree.
-/

namespace SchemaEnums.Schema
open Text Text.Peg Grammar

/-- The rules. -/
inductive Rule where
  | schema
  | modelDeclaration
  | modelContents
  | fieldDeclaration
  | fieldType
  | unsupportedType
  | listMarker
  | optionalMarker
  | enumDeclaration
  | enumContents
  | enumValueDeclaration
  | configBlock
  | configContents
  | keyValue
  | arbitraryBlock
  | fieldAttribute
  | blockAttribute
  | attributePath
  | argumentsList
  | argument
  | argumentName
  | expression
  | functionCall
  | arrayExpression
  | numericLiteral
  | stringLiteral
  | stringContent
  | path
  | identifier
  | identChar
  | keyword (k : Keyword)
  | blockOpen
  | blockClose
  | missingBlockClose
  | blockEnd
  | lineEnd
  | blockLevelCatchAll
  | catchAll
  | whitespace
  | comment
  | endOfInput
deriving DecidableEq

namespace Rule

/-- The trees of the grammar. -/
abbrev Tree := Pair Rule

/-! ### Patterns -/

/-- A character. -/
def one (x : Char) : Pattern Rule := .terminal (.text [x])

/-- A character of a class. -/
def char (p : Char → Bool) : Pattern Rule := .terminal (.char p)

/-- Any character. -/
def any : Pattern Rule := char fun _ => true

/-- One pattern behind the other. -/
def inOrder : List (Pattern Rule) → Pattern Rule
  | []      => .terminal (.text [])
  | [e]     => e
  | e :: es => .seq e (inOrder es)

/-- The first of some patterns that does not refuse. -/
def oneOf (e : Pattern Rule) : List (Pattern Rule) → Pattern Rule
  | []      => e
  | f :: fs => .choice e (oneOf f fs)

/-- A pattern once or more often. -/
def repeated (e : Pattern Rule) : Pattern Rule := .seq e (.many e)

/-- A line break. -/
def newline : Pattern Rule :=
  oneOf (one '\n') [.terminal (.text ['\r', '\n']), one '\r']

/-- Any character but a line break. -/
def onLine : Pattern Rule := .seq (.not newline) any

def digit : Pattern Rule := char Char.isDigit

/-- Names joined by dots. -/
def dotted : Pattern Rule :=
  .seq (.rule .identifier) (.many (.seq (one '.') (.rule .identifier)))

/-- Items separated by commas; one more comma may follow the last item. -/
def items (item : Pattern Rule) : Pattern Rule :=
  inOrder [item, .many (inOrder [.many newline, one ',', .many newline, item]),
    .many newline, .option (one ',')]

/-- Items in brackets. -/
def listed (opening closing : Char) (item : Pattern Rule) : Pattern Rule :=
  inOrder [one opening, .many newline, .option (items item), .many newline, one closing]

/-- The lines of a block. -/
def contents (line : Pattern Rule) : Pattern Rule :=
  .many (oneOf (.seq line (.rule .lineEnd)) [newline, .rule .blockLevelCatchAll])

/-- A block that opens with a keyword. -/
def block (keyword : Pattern Rule) (contents : Rule) : Pattern Rule :=
  inOrder [keyword, .rule .identifier, .rule .blockOpen, .rule contents, .rule .blockEnd]

/-! ### Declarations -/

/-- What each rule stands for. -/
def body : Rule → Pattern Rule
  | schema => inOrder [.terminal .start,
      .many (oneOf newline [.rule modelDeclaration, .rule enumDeclaration, .rule configBlock,
        .rule arbitraryBlock, .rule catchAll]),
      .rule endOfInput]
  | modelDeclaration =>
      block (oneOf (.rule (keyword (.model .model)))
        [.rule (keyword (.model .view)), .rule (keyword (.model .type))]) modelContents
  | modelContents    => contents (.choice (.rule fieldDeclaration) (.rule blockAttribute))
  | fieldDeclaration =>
      inOrder [.rule identifier, .rule fieldType, .many (.rule fieldAttribute)]
  | fieldType        =>
      .seq (.choice (.rule unsupportedType) (.rule identifier))
        (.option (.choice (.rule listMarker) (.rule optionalMarker)))
  | unsupportedType  =>
      inOrder [.terminal (.text "Unsupported".toList), one '(', .rule stringLiteral, one ')']
  | listMarker       => .seq (one '[') (one ']')
  | optionalMarker   => one '?'
  | enumDeclaration  => block (.rule (keyword .enum)) enumContents
  | enumContents     => contents (.choice (.rule enumValueDeclaration) (.rule blockAttribute))
  | enumValueDeclaration => .seq (.rule identifier) (.many (.rule fieldAttribute))
  | configBlock      =>
      block (.choice (.rule (keyword (.config .datasource))) (.rule (keyword (.config .generator))))
        configContents
  | configContents   => contents (.rule keyValue)
  | keyValue         => inOrder [.rule identifier, one '=', .rule expression]
  | arbitraryBlock   =>
      inOrder [.rule identifier, .rule identifier, .rule blockOpen,
        .many (.seq (.not (.rule blockClose)) any), .rule blockClose]
  | fieldAttribute   =>
      inOrder [.terminal (.text ['@']), .rule attributePath, .option (.rule argumentsList)]
  | blockAttribute   =>
      inOrder [.terminal (.text ['@', '@']), .rule attributePath, .option (.rule argumentsList)]
  | attributePath    => dotted
  | argumentsList    => listed '(' ')' (.rule argument)
  | argument         =>
      .seq (.option (.seq (.rule argumentName) (one ':'))) (.rule expression)
  | argumentName     => .rule identifier
  | expression       =>
      oneOf (.rule functionCall)
        [.rule arrayExpression, .rule numericLiteral, .rule stringLiteral, .rule path]
  | functionCall     => .seq (.rule path) (.rule argumentsList)
  | arrayExpression  => listed '[' ']' (.rule expression)
  | numericLiteral   =>
      inOrder [.option (one '-'), repeated digit, .option (.seq (one '.') (repeated digit))]
  | stringLiteral    => inOrder [one '"', .rule stringContent, one '"']
  | stringContent    =>
      .many (.choice (.seq (one '\\') any)
        (.seq (.not (oneOf (one '"') [one '\\', newline])) any))
  | path             => dotted
  | identifier       => .seq (.choice (char Char.isAlpha) (one '_')) (.many (.rule identChar))
  | identChar        => oneOf (char Char.isAlphanum) [one '_', one '-']
  | keyword k        => .seq (.terminal (.text k.word.toList)) (.not (.rule identChar))
  | blockOpen        => one '{'
  | blockClose       => one '}'
  | missingBlockClose => .ahead (.rule endOfInput)
  | blockEnd         => .choice (.rule blockClose) (.rule missingBlockClose)
  | lineEnd          => oneOf newline [.ahead (.rule blockClose), .ahead (.rule endOfInput)]
  | blockLevelCatchAll =>
      inOrder [.not (.rule blockClose), repeated onLine, .option newline]
  | catchAll         => .seq (repeated onLine) (.option newline)
  | whitespace       => .choice (one ' ') (one '\t')
  | comment          => .seq (.terminal (.text ['/', '/'])) (.many onLine)
  | endOfInput       => .terminal .finish

/-- How each rule is declared. -/
def kind : Rule → Kind
  | attributePath | numericLiteral | stringContent | path | identifier | keyword _
  | blockLevelCatchAll | catchAll => .atomic
  | unsupportedType | fieldAttribute | blockAttribute | stringLiteral => .compound
  | argumentsList => .free
  | identChar | blockEnd | lineEnd | whitespace | comment => .silent
  | _ => .normal

/-- Blanks and comments. -/
def blank : Pattern Rule :=
  .seq (.many (.rule whitespace))
    (.many (.seq (.rule comment) (.many (.rule whitespace))))

end Rule

/-- The grammar of schemas. -/
def datamodel : Peg.Grammar Rule := ⟨Rule.kind, Rule.body, Rule.blank⟩

end SchemaEnums.Schema
