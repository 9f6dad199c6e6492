import TypeNotes.Signature.Script

/-!
# The grammar of signatures

Types, method types, type parameters, the heads of classes and modules, and the declarations of an
interface file, each as a script. A script follows the first token that decides between the forms
of a phrase and never goes back, so the first token that fits no form is the one an error names.

The scripts of `Phrase.script` are the recursive part. The named scripts before it read one
phrase each, and the ones after it are the entry points that answer with texts.
-/

namespace TypeNotes.Signature

open Script

namespace Grammar

/-! ### Names -/

/-- The kinds of tokens that end a type's name. -/
def nameKinds : List Kind := [.upperName, .lowerName, .interfaceName]

/-- A qualified name, from the root of the name space if it starts with `::`. -/
def qualified (sort : NameSort) : Script Unit := do
  let _ ← accept "::"
  call (.path sort)

/-- The name of a type. -/
def typeName : Script String := spanned (qualified .type)

/-- The name of a class or an interface. -/
def className : Script String := spanned (qualified .class_)

/-! ### Types -/

def intersection : Script Unit := do
  call .optional
  call .intersectionTail

/-- A type without its text. -/
def typeBody : Script Unit := do
  intersection
  call .unionTail

/-- A type: alternatives of intersections of simple types, each possibly optional. -/
def type : Script String := spanned typeBody

/-- The rest of a list of types after its opening bracket. -/
def arguments : Script Unit := do
  typeBody
  call .argumentTail
  expect "]"

/-- The parameters of a method or a block, in parentheses. -/
def parameters : Script Unit := do
  expect "("
  if ← accept ")" then return ()
  else if ← nextThen "?" (·.kind == .mark ")") then
    skip
    skip
  else
    call (.parameters false)
    expect ")"

/-- Parameters if a parenthesis stands next. -/
def parameters? : Script Unit := do
  if ← nextIsMark "(" then parameters

/-- The type of `self` inside a block, in brackets. -/
def selfBinding : Script Unit := do
  if ← nextThen "[" (·.text == "self:") then
    skip
    skip
    typeBody
    expect "]"

/-- Parameters if there are any, the type of `self`. -/
def parametersAndSelf : Script Unit := do
  parameters?
  selfBinding

/-- What a method or block gives back. -/
def result : Script Unit := do
  expect "->"
  call .optional

/-- The question mark in front of a block that may be left out. -/
def blockMark : Script Unit := do
  if ← nextThen "?" (·.kind == .mark "\x7b") then skip

/-- The block of a method, in braces, with a question mark in front if it may be left out. -/
def block : Script Unit := do
  blockMark
  if ← accept "\x7b" then
    parametersAndSelf
    result
    expect "\x7d"

/-- The rest of a procedure type after its caret. -/
def procedure : Script Unit := do
  parametersAndSelf
  block
  result

/-- A type that is neither an alternative, nor an intersection, nor marked as optional. -/
def simple : Script Unit := do
  let t ← peek
  match t.kind with
  | .mark "(" =>
    skip
    typeBody
    expect ")"
  | .mark "^" =>
    skip
    procedure
  | .mark "[" =>
    skip
    if ← accept "]" then return () else arguments
  | .mark "\x7b" =>
    skip
    if ← accept "\x7d" then return () else call .recordFields
  | .keyword "singleton" =>
    skip
    expect "("
    qualified .type
    expect ")"
  | kind =>
    if kind.isBaseType || kind.isLiteral then skip
    else if kind.isName || kind == .mark "::" then
      qualified .type
      if ← accept "[" then arguments
    else fail (t.unexpected "a type")

/-- The key of a record's field. -/
def recordKey : Script Unit := do
  let t ← peek
  if t.kind.isKey then skip
  else if t.kind.isLiteral || t.kind.isName then
    skip
    expect "=>"
  else fail (t.unexpected "a record key")

/-- What stands in front of the type of one parameter; answers whether only keyword parameters may
follow. -/
def parameterHead (afterKey : Bool) : Script Bool := do
  let t ← peek
  if ← nextThen "?" (·.kind.isKey) then
    skip
    skip
    return true
  else if t.kind.isKey || t.kind == .mark "**" then
    skip
    return true
  else if afterKey then fail (t.unexpected "a keyword parameter")
  else
    if t.kind == .mark "?" || t.kind == .mark "*" then skip
    return false

/-- A class with type arguments, if it has any. -/
def classReferenceBody : Script Unit := do
  qualified .class_
  if ← accept "[" then arguments

/-- A class with type arguments, if it has any. -/
def classReference : Script String := spanned classReferenceBody

/-! ### Type parameters -/

/-- The direction in which a type parameter may vary, if one is given. -/
def variance? : Script (Option Variance) := do
  if ← acceptKind (.keyword "in") then return some .contravariant
  else if ← acceptKind (.keyword "out") then return some .covariant
  else return none

/-- The type after a mark, if the mark stands next. -/
def typeAfter (mark : String) : Script (Option String) := do
  if ← accept mark then return some (← type) else return none

/-- A type parameter; variance is read only where it is allowed. -/
def typeParameter (withVariance : Bool) : Script TypeParameter := do
  let unchecked ← acceptKind (.keyword "unchecked")
  let variance ← if withVariance then variance? else pure none
  let name := (← expectAny [.upperName] "a type parameter name").text
  let upperBound ← typeAfter "<"
  let default ← typeAfter "="
  return ⟨name, variance, unchecked, upperBound, default⟩

/-- Type parameters in brackets. -/
def typeParameters (withVariance : Bool) : Script (List TypeParameter) := do
  expect "["
  let first ← typeParameter withVariance
  let rest ← call (.typeParameterTail withVariance)
  expect "]"
  return first :: rest

/-- Type parameters if a bracket stands next. -/
def typeParameters? (withVariance : Bool) : Script Unit := do
  if ← nextIsMark "[" then let _ ← typeParameters withVariance

/-! ### Method types -/

/-- A method type without its text. -/
def methodTypeBody : Script Unit := do
  typeParameters? false
  parametersAndSelf
  block
  result

/-- The type of a method: type parameters, parameters, block and result. -/
def methodType : Script String := spanned methodTypeBody

/-- The type of a block parameter, with a question mark in front if the block may be left out. -/
def blockSignature : Script String := spanned do
  let _ ← accept "?"
  parametersAndSelf
  result

/-! ### Lists -/

/-- Types in brackets. -/
def typeList : Script (List String) := do
  expect "["
  let first ← type
  let rest ← call .typeTail
  expect "]"
  return first :: rest

/-- Classes, separated by commas. -/
def selfTypes : Script (List String) := do
  let first ← classReference
  let rest ← call .selfTypeTail
  return first :: rest

/-- One name, or all names of a module, to be used without qualification. -/
def useClause : Script String := spanned do
  let _ ← accept "::"
  match ← call .usePath with
  | none => return ()
  | some kind =>
    let t ← peek
    if t.kind == .lowerName && t.text == "as" then
      skip
      let _ ← expectAny [kind] "an alias name"

/-- Clauses of names to be used, separated by commas. -/
def useClauses : Script (List String) := do
  let first ← useClause
  let rest ← call .useTail
  return first :: rest

/-! ### Heads -/

/-- The name of a module, its type parameters, and the types it may be mixed into. -/
def moduleHead : Script String := spanned do
  qualified .class_
  typeParameters? true
  if ← accept ":" then let _ ← selfTypes

/-- The name of a class, its type parameters, and its superclass. -/
def classHead : Script String := spanned do
  qualified .class_
  typeParameters? true
  if ← accept "<" then classReferenceBody

/-! ### Members and declarations -/

/-- Takes a mark that follows the last token without a gap. -/
def attached (mark : String) : Script Bool := do
  let t ← peek
  if t.kind == .mark mark && t.start == (← lastEnd) then
    skip
    return true
  else return false

/-- What makes a member one of the class itself: `self.` or `self?.`. -/
def singletonMarker : Script Unit := do
  if ← nextIs (.keyword "self") then
    match (← peekSecond).kind with
    | .mark "." =>
      skip
      skip
    | .mark "?" =>
      if (← peekThird).kind == .mark "." then
        skip
        skip
        skip
    | _ => return ()

/-- The name of a method. -/
def methodName : Script Unit := do
  let t ← peek
  if t.kind == .mark "[" then
    skip
    expect "]"
    let _ ← attached "="
  else if t.kind.isOperatorName then skip
  else if t.kind.isName || t.kind.isKeyword then
    skip
    if ← attached "?" then return ()
    if ← attached "!" then return ()
    let _ ← attached "="
  else fail (t.unexpected "a method name")

/-- A method and its types. -/
def methodMember : Script Unit := do
  skip
  singletonMarker
  if (← peek).kind.isKey then skip
  else
    methodName
    expect ":"
  let _ ← call .methodTypes

/-- An attribute and its type. -/
def attributeMember : Script Unit := do
  skip
  singletonMarker
  if ← nextIs .lowerKey then skip
  else
    let _ ← expectAny [.lowerName] "an attribute name"
    expect "("
    let _ ← acceptKind .instanceVariable
    expect ")"
    expect ":"
  typeBody

/-- A colon and a type. -/
def typed : Script Unit := do
  expect ":"
  typeBody

/-- One of the two names of an alias. -/
def aliasTarget : Script Unit := do
  singletonMarker
  methodName

/-- A class or module; `superclass` reads what may follow its parameters. -/
def classDeclaration (heritage : Script Unit) : Script Unit := do
  skip
  qualified .class_
  if ← accept "=" then qualified .class_
  else
    typeParameters? true
    heritage
    call .members

/-- A type alias. -/
def aliasDeclaration : Script Unit := do
  skip
  let _ ← accept "::"
  call .aliasPath
  typeParameters? true
  expect "="
  typeBody

/-- A member of a class, or a declaration. -/
def member : Script Unit := do
  let t ← peek
  match t.kind with
  | .keyword "public" | .keyword "private" => skip
  | .keyword "def" => methodMember
  | .keyword "attr_reader" | .keyword "attr_writer" | .keyword "attr_accessor" =>
    attributeMember
  | .keyword "include" | .keyword "extend" | .keyword "prepend" =>
    skip
    classReferenceBody
  | .instanceVariable =>
    skip
    typed
  | .keyword "self" =>
    let ofClass ← if (← peekSecond).kind == .mark "." then
      pure ((← peekThird).kind == .instanceVariable) else pure false
    if ofClass then
      skip
      skip
      skip
      typed
    else fail (t.unexpected "a declaration or member")
  | .keyword "alias" =>
    skip
    aliasTarget
    aliasTarget
  | .keyword "type" => aliasDeclaration
  | .keyword "class" => classDeclaration do
    if ← accept "<" then classReferenceBody
  | .keyword "module" => classDeclaration do
    if ← accept ":" then let _ ← selfTypes
  | .keyword "interface" =>
    skip
    qualified .class_
    typeParameters? true
    call .members
  | .keyword "use" =>
    skip
    let _ ← useClauses
  | .globalVariable =>
    skip
    typed
  | .upperKey =>
    skip
    typeBody
  | .upperName => call .constantPath
  | .mark "::" =>
    skip
    call .constantPath
  | _ => fail (t.unexpected "a declaration or member")

/-- The declarations of an interface file to its end, and how many there are. -/
def declarations : Script Nat := call .declarations

end Grammar

/-! ### The recursive phrases -/

namespace NameSort

/-- The kinds of tokens that a name of this sort is made of. -/
def kinds : NameSort → List Kind
  | type => Grammar.nameKinds
  | class_ => [.upperName, .interfaceName]

/-- The words for a name of this sort. -/
def description : NameSort → String
  | type => "a type name"
  | class_ => "a class name"

end NameSort

open Grammar in
/-- How a phrase is read. -/
def Phrase.script : (p : Phrase) → Script p.Answer
  | optional => do
    simple
    let _ ← accept "?"
    return ()
  | intersectionTail => do
    if ← accept "&" then
      call .optional
      call .intersectionTail
    else return ()
  | unionTail => do
    if ← accept "|" then
      intersection
      call .unionTail
    else return ()
  | path sort => do
    let t ← expectAny sort.kinds sort.description
    if t.kind == .upperName then
      if ← accept "::" then call (.path sort) else return ()
    else return ()
  | argumentTail => do
    if ← accept "," then
      if ← nextIsMark "]" then return ()
      else
        typeBody
        call .argumentTail
    else return ()
  | recordFields => do
    let _ ← accept "?"
    recordKey
    typeBody
    if ← accept "," then
      if ← accept "\x7d" then return () else call .recordFields
    else expect "\x7d"
  | parameters afterKey => do
    let afterKey ← parameterHead afterKey
    typeBody
    let _ ← acceptKind .lowerName
    if ← accept "," then
      if ← nextIsMark ")" then return () else call (.parameters afterKey)
    else return ()
  | tags => do
    if ← nextIs .tag then
      let t ← advance
      let rest ← call .tags
      return (t.text :: rest : List String)
    else return ([] : List String)
  | methodTypes => do
    let _ ← call .tags
    if ← accept "..." then return ([] : List String)
    else
      let first ← methodType
      if ← accept "|" then
        let rest ← call .methodTypes
        return (first :: rest : List String)
      else return [first]
  | typeTail => do
    if ← accept "," then
      let first ← type
      let rest ← call .typeTail
      return (first :: rest : List String)
    else return ([] : List String)
  | typeParameterTail withVariance => do
    if ← accept "," then
      if ← nextIsMark "]" then return ([] : List TypeParameter)
      else
        let first ← typeParameter withVariance
        let rest ← call (.typeParameterTail withVariance)
        return (first :: rest : List TypeParameter)
    else return ([] : List TypeParameter)
  | selfTypeTail => do
    if ← accept "," then
      let first ← classReference
      let rest ← call .selfTypeTail
      return (first :: rest : List String)
    else return ([] : List String)
  | useTail => do
    if ← accept "," then
      let first ← useClause
      let rest ← call .useTail
      return (first :: rest : List String)
    else return ([] : List String)
  | usePath => do
    let t ← expectAny nameKinds "a name"
    if t.kind == .upperName then
      if ← accept "::" then
        if ← accept "*" then return (none : Option Kind) else call .usePath
      else return some t.kind
    else return some t.kind
  | aliasPath => do
    let t ← expectAny [.upperName, .lowerName] "a type alias name"
    if t.kind == .upperName then
      expect "::"
      call .aliasPath
    else return ()
  | constantPath => do
    if ← nextIs .upperKey then
      skip
      typeBody
    else
      let _ ← expectAny [.upperName] "a constant name"
      expect "::"
      call .constantPath
  | members => do
    let _ ← call .tags
    let t ← peek
    match t.kind with
    | .keyword "end" => skip
    | .endOfInput => fail (t.unexpected "`end`")
    | _ =>
      member
      call .members
  | declarations => do
    let _ ← call .tags
    if ← atEnd then return (0 : Nat)
    else
      member
      let count : Nat ← call .declarations
      return (count + 1 : Nat)

/-! ### Reading phrases within a budget -/

/-- Reads a phrase with at most `budget` calls nested in each other. -/
def Phrase.perform {σ : Type} [Supply σ] : Nat → (p : Phrase) → Reader σ p.Answer
  | 0, _, s => (.error ⟨.tooDeep, Supply.lastEnd s, 0⟩, s)
  | budget + 1, p, s => p.script.run (perform budget) s

/-- The budget for a signature of so many bytes. No call returns to itself without taking a token,
and at most three calls follow each other between two tokens, so it is never used up. -/
def budget (bytes : Nat) : Nat := 4 * (bytes + 1)

end TypeNotes.Signature
