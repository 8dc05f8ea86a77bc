import MicroJava.Production.Basic

/-!
# Calls

    Arguments = "(" [ List ] [ "#" number [ List ] ] ")" .
    List      = Expression { "," Expression } .

The arguments of a call are checked against what is known of the method so far, and loaded from left
to right. Variable arguments are announced by their number, and packed into a new array, which is
the last argument; it is empty where none are announced. The production of the arguments is an
argument of the production of a call.
-/

namespace MicroJava.Production

open Token

/-- The tokens that start an expression. -/
def expressionStarts : KindSet :=
  .ofList [.minus, .identifier, .number, .character, .newWord, .leftParen]

/-- What the arguments of a call are checked against. -/
structure Signature where
  parameters : List TypeId := []
  /-- How many parameters take one argument each. -/
  fixed : Nat := 0
  /-- The type of the variable arguments, where the method takes any. -/
  extra : Option TypeId := none
  deriving DecidableEq, Inhabited

/-- The type of the parameter that takes the argument behind `count` others. -/
def Signature.parameter? (s : Signature) (count : Nat) : Option TypeId :=
  if count < s.fixed then s.parameters[count]? else none

/-- The type of the variable arguments of a method, which are the elements of its last parameter. -/
def extraType : (variadic : Bool) → (last : Option TypeId) → Production (Option TypeId)
  | true, some type => some <$> Descriptor.element <$> descriptor type
  | _, _ => return none

/-- The signature of a method, as far as it is declared. -/
def signature (m : Method) : Production Signature := do
  let parameters ← m.leading.mapM fun id => return (← entry id).type
  let extra ← extraType m.variadic parameters.getLast?
  return { parameters, fixed := m.fixed, extra }

/-- Goes on behind a comma, with the number of list members so far. -/
def afterMember (count : Nat) : Production (Nat ⊕ Nat) := do
  if ← check .comma then
    advance
    return .inl count
  else return .inr count

/-- Checks an argument against the type of its parameter, if there is one. -/
def checkArgument (x : Operand) : Option TypeId → Production Unit
  | some type => do reportIf (!(← fits x type)) .argumentMismatch
  | none => return ()

/-- One argument, behind `count` others. -/
def argument (expression : Production Operand) (s : Signature) (count : Nat) :
    Production (Nat ⊕ Nat) := do
  let x ← expression
  checkArgument x (s.parameter? count)
  load x
  afterMember (count + 1)

/-- A variable argument behind `count` others, stored in the array under it. It is only read where
the method takes no variable arguments. -/
def packArgument (expression : Production Operand) (count : Nat) :
    Option TypeId → Production Unit
  | none => discard expression
  | some type => do
    emit .dup
    write (Emission.constant (.ofNat count))
    let x ← expression
    checkArgument x (some type)
    load x
    write (Emission.storeElement type)

/-- One variable argument, behind `count` others. -/
def extraArgument (expression : Production Operand) (element : Option TypeId) (count : Nat) :
    Production (Nat ⊕ Nat) := do
  packArgument expression count element
  afterMember (count + 1)

/-- Counts list members from zero, where an expression follows. -/
def members (member : Nat → Production (Nat ⊕ Nat)) : Production Nat := do
  if ← checkAny expressionStarts then loop member 0 else return 0

/-- The number that announces how many variable arguments follow. -/
def announcement : Production Nat := do
  if ← check .number then return (← literal).toInt.toNat
  expect .number
  return 0

/-- Pushes a new array of a given length, where there is an element type. -/
def newArrayOf (length : Int32) : Option TypeId → Production Unit
  | some type => write (Emission.newArray (some length) type)
  | none => return ()

/-- Reports a number of list members other than the one that is wanted, if one is. -/
def checkCount (wanted : Option Nat) (count : Nat) (tooFew tooMany : Problem) : Production Unit :=
  match wanted with
  | some n =>
    if count < n then report tooFew else if n < count then report tooMany else return ()
  | none => return ()

/-- The variable arguments of a call, packed into a new array. -/
def extraArguments (expression : Production Operand) (element : Option TypeId) :
    Production Unit := do
  advance
  let announced ← announcement
  newArrayOf (.ofNat announced) element
  let count ← members (extraArgument expression element)
  checkCount (element.map fun _ => announced) count .tooFewVariable .tooManyVariable

/-- What may stand behind the list of arguments of a call. -/
def variablePart (expression : Production Operand) (isMethod : Bool) (extra : Option TypeId) :
    Production Unit := do
  if ← check .hash then
    reportIf (isMethod && extra.isNone) .notVariadic
    extraArguments expression extra
  else newArrayOf 0 extra

/-- Calls a method whose arguments are on the stack. A predeclared method needs no call. -/
def invoke (id : EntryId) (m : Method) : Production Unit :=
  match Builtin.ofId? id with
  | some .len => emit .arrayLength
  | some .chr | some .ord => return ()
  | none => write (Emission.call m.address)

/-- The method that an operand is, with its handle. -/
def callee (x : Operand) : Production (Option (EntryId × Method)) := do
  match x.place with
  | .method id => return (← entry id).method?.map ((id, ·))
  | _ => return none

/-- The signature of what is called, and an empty one if that is not a method. -/
def targetSignature : Option (EntryId × Method) → Production Signature
  | some (_, m) => signature m
  | none => return {}

/-- The result of a call whose arguments are on the stack. -/
def result (type : TypeId) : Option (EntryId × Method) → Production Operand
  | some (id, m) => do
    invoke id m
    return .onStack type
  | none => return .missing

/-- The arguments of a call of `x`, and the call. -/
def call (expression : Production Operand) (x : Operand) : Production Operand := do
  let target ← callee x
  reportIf target.isNone .notAMethod
  expect .leftParen
  let s ← targetSignature target
  let count ← members (argument expression s)
  checkCount (target.map fun _ => s.fixed) count .tooFewArguments .tooManyArguments
  variablePart expression target.isSome s.extra
  expect .rightParen
  result x.type target

end MicroJava.Production
