/-!
# The catalogue of problems

Everything that can be wrong with a MicroJava program, and the wording of each. A wording is a
template: a number in braces stands for a detail, such as a name or a character.
-/

namespace MicroJava

/-- What is wrong with a program. -/
inductive Problem where
  /-- Two quotes with nothing between them. -/
  | emptyCharacter
  /-- A backslash in front of a character that has no escape. -/
  | undefinedEscape
  /-- A character constant without its closing quote. -/
  | missingQuote
  /-- A character that starts no token. -/
  | invalidCharacter
  /-- An integer that does not fit 32 bits. -/
  | numberTooBig
  /-- The text ends inside a comment. -/
  | endInComment
  /-- The text ends inside a character constant. -/
  | endInCharacter
  /-- A line ends inside a character constant. -/
  | lineEndInCharacter
  /-- A particular token had to come here. -/
  | tokenExpected
  /-- An additive operator had to come here. -/
  | additiveOperatorExpected
  /-- An assignment operator had to come here. -/
  | assignmentOperatorExpected
  /-- A constant declared without a literal. -/
  | literalExpected
  /-- A designator that starts no statement. -/
  | designatorAlone
  /-- No declaration starts like this. -/
  | invalidDeclaration
  /-- No factor starts like this. -/
  | invalidFactor
  /-- No method starts like this. -/
  | invalidMethod
  /-- A multiplicative operator had to come here. -/
  | multiplicativeOperatorExpected
  /-- A comparison had to come here. -/
  | comparisonExpected
  /-- No statement starts like this. -/
  | invalidStatement
  /-- A name declared twice in one scope. -/
  | alreadyDeclared
  /-- A name that no scope declares. -/
  | notFound
  /-- A name that the class does not declare. -/
  | notAField
  /-- A program without its entry method. -/
  | noEntryMethod
  /-- More global declarations than allowed. -/
  | tooManyGlobals
  /-- More fields in a class than allowed. -/
  | tooManyFields
  /-- More parameters and locals in a method than allowed. -/
  | tooManyLocals
  /-- An index that is not an integer. -/
  | indexNotInt
  /-- An array size that is not an integer. -/
  | sizeNotInt
  /-- A literal of another type than its constant. -/
  | constantTypeMismatch
  /-- References compared by order. -/
  | orderOfReferences
  /-- Types that do not go together. -/
  | incompatibleTypes
  /-- A void method called for its value. -/
  | voidInExpression
  /-- A call with too few arguments. -/
  | tooFewArguments
  /-- A call with too many arguments. -/
  | tooManyArguments
  /-- An entry method that returns a value. -/
  | entryNotVoid
  /-- An entry method with parameters. -/
  | entryHasParameters
  /-- An index on something that is not an array. -/
  | notAnArray
  /-- A field of something that is not an object. -/
  | notAnObject
  /-- `new` without a size on something that is not a class. -/
  | notAClass
  /-- A step on something that is not an integer variable. -/
  | notAnIntVariable
  /-- Arithmetic on something that is not an integer. -/
  | operandNotInt
  /-- A call of something that is not a method. -/
  | notAMethod
  /-- A name that stands for no operand. -/
  | notAnOperand
  /-- A name that stands for no type. -/
  | notAType
  /-- An operand without a value. -/
  | noValue
  /-- An assignment to something that is not a variable. -/
  | notAVariable
  /-- An argument that does not fit its parameter. -/
  | argumentMismatch
  /-- `print` of something other than an integer or a character. -/
  | notPrintable
  /-- `read` into something other than an integer or a character. -/
  | notReadable
  /-- A value method that returns without a value. -/
  | returnWithoutValue
  /-- A returned value that does not fit the method's type. -/
  | returnMismatch
  /-- A void method that returns a value. -/
  | returnFromVoid
  /-- `break` outside of a loop. -/
  | breakOutsideLoop
  /-- Fewer variable arguments than announced. -/
  | tooFewVariable
  /-- More variable arguments than announced. -/
  | tooManyVariable
  /-- Variable arguments for a method that takes none. -/
  | notVariadic
  deriving DecidableEq, Repr, Inhabited

namespace Problem

/-- The wording, with a number in braces for each detail. -/
def template : Problem → String
  | emptyCharacter => "empty character constant"
  | undefinedEscape => "undefined escape character sequence '\\\x7b0\x7d'"
  | missingQuote => "missing ' at end of character constant"
  | invalidCharacter => "invalid character \x7b0\x7d"
  | numberTooBig => "\x7b0\x7d too big for integer constant"
  | endInComment => "unexpected end of file in comment"
  | endInCharacter => "unexpected end of file in character constant"
  | lineEndInCharacter => "illegal line end in character constant"
  | tokenExpected => "\x7b0\x7d expected"
  | additiveOperatorExpected => "additive operator (+ or -) expected"
  | assignmentOperatorExpected => "assignment operator expected"
  | literalExpected => "number or character constant expected"
  | designatorAlone => "assignment, method call, ++ or -- expected"
  | invalidDeclaration => "invalid declaration"
  | invalidFactor =>
    "invalid start of factor: identifier, number, character constant, new or ( expected"
  | invalidMethod => "invalid start of method: type name or void expected"
  | multiplicativeOperatorExpected => "multiplicative operator (*, /, %) expected"
  | comparisonExpected => "relational operator expected"
  | invalidStatement => "invalid start of statement"
  | alreadyDeclared => "\x7b0\x7d already declared"
  | notFound => "\x7b0\x7d not found"
  | notAField => "\x7b0\x7d is not a field"
  | noEntryMethod => "method \x7b0\x7d not found"
  | tooManyGlobals => "too many global variables"
  | tooManyFields => "too many fields"
  | tooManyLocals => "too many local variables"
  | indexNotInt => "array index must be an integer"
  | sizeNotInt => "array size must be an integer"
  | constantTypeMismatch => "value does not match constant type"
  | orderOfReferences => "only (un)equality checks are allowed for reference types"
  | incompatibleTypes => "incompatible types"
  | voidInExpression => "void method cannot be used in an expression"
  | tooFewArguments => "less actual than formal parameters"
  | tooManyArguments => "more actual than formal parameters"
  | entryNotVoid => "method main must be void"
  | entryHasParameters => "main method must not have any parameters"
  | notAnArray => "indexed object is not an array"
  | notAnObject => "dereferenced object is not a class"
  | notAClass => "class type expected"
  | notAnIntVariable => "integer variable expected"
  | operandNotInt => "operand(s) must be of type int"
  | notAMethod => "called object is not a method"
  | notAnOperand => "cannot be used as an operand"
  | notAType => "type expected"
  | noValue => "value expected"
  | notAVariable => "variable expected"
  | argumentMismatch => "parameter type mismatch"
  | notPrintable => "can only print int or char values"
  | notReadable => "can only read int or char values"
  | returnWithoutValue => "return expression required in non-void method"
  | returnMismatch => "return type must match method type"
  | returnFromVoid => "no return expression allowed in void method"
  | breakOutsideLoop => "break is not within a loop"
  | tooFewVariable => "less actual than announced variable arguments"
  | tooManyVariable => "more actual than announced variable arguments"
  | notVariadic => "method has no variable arguments"

/-- The place that a template keeps for detail `i`. -/
def hole (i : Nat) : List Char := ['{'] ++ (toString i).toList ++ ['}']

/-- Every occurrence of a non-empty pattern replaced, from the left and without overlaps. -/
def replaceAll (pattern filler : List Char) : List Char → List Char
  | [] => []
  | c :: cs =>
    if pattern.isPrefixOf (c :: cs) then
      filler ++ replaceAll pattern filler (cs.drop (pattern.length - 1))
    else c :: replaceAll pattern filler cs
  termination_by cs => cs.length
  decreasing_by all_goals simp only [List.length_cons, List.length_drop]; omega

/-- The details put into their places one after the other, so that a place which an earlier detail
brings in is taken by a later one. -/
def fill (text : List Char) (details : List String) : List Char :=
  details.zipIdx.foldl (fun text d => replaceAll (hole d.2) d.1.toList text) text

/-- The wording with its details. -/
def message (p : Problem) (details : List String) : String :=
  .ofList (fill p.template.toList details)

end Problem

end MicroJava
