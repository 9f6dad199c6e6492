import TypeNotes.Signature.Token

/-!
# Scripts: what a reader of tokens does

The grammar of signatures is written as *scripts*. A script is a tree of requests to a supply of
tokens (look ahead, take a token, ask where the last one ended, cut a text out), of calls to the
recursive phrases of the grammar, and of its outcome: an answer or an error. Scripts are data, so
the same grammar runs on every supply of tokens (`Script.run`), and a fact about all of its runs
is proved once, by induction on the script.

Calls are where the recursion of the grammar is. `Phrase.perform` answers them within a budget
for nested calls.
-/

namespace TypeNotes.Signature

/-! ### Phrases -/

/-- The direction in which a type parameter may vary. -/
inductive Variance
  | contravariant
  | covariant
  deriving DecidableEq, Repr

/-- The keyword for a direction. -/
def Variance.keyword : Variance → String
  | contravariant => "in"
  | covariant => "out"

/-- A type parameter as declared. -/
structure TypeParameter where
  name : String
  variance : Option Variance
  unchecked : Bool
  upperBound : Option String
  default : Option String
  deriving DecidableEq, Repr

/-- The two sorts of qualified names: those of any type, and those of classes and interfaces. -/
inductive NameSort
  | type
  | class_
  deriving DecidableEq, Repr

/-- The phrases of the grammar that contain themselves, directly or through others, and the loops.
A name that ends in `Tail` is what may follow the first item of a list. -/
inductive Phrase
  | optional
  | intersectionTail
  | unionTail
  | path (sort : NameSort)
  | argumentTail
  | recordFields
  | parameters (afterKey : Bool)
  | tags
  | methodTypes
  | typeTail
  | typeParameterTail (withVariance : Bool)
  | selfTypeTail
  | useTail
  | usePath
  | aliasPath
  | constantPath
  | members
  | declarations
  deriving DecidableEq, Repr

/-- What a phrase answers with when it has been read. -/
abbrev Phrase.Answer : Phrase → Type
  | tags | methodTypes | typeTail | selfTypeTail | useTail => List String
  | typeParameterTail _ => List TypeParameter
  | usePath => Option Kind
  | declarations => Nat
  | _ => Unit

/-! ### Scripts -/

/-- A tree of requests that ends in an answer or an error. -/
inductive Script (α : Type)
  | done (answer : α)
  | fail (e : Error)
  /-- Look at the token `ahead` places after the next. -/
  | peekAt (ahead : Nat) (next : Token → Script α)
  /-- Take the next token. -/
  | take (next : Token → Script α)
  /-- Ask where the last token taken ended. -/
  | askEnd (next : Nat → Script α)
  /-- Cut out the text from a place to the end of the last token taken. -/
  | cutFrom (start : Nat) (next : String → Script α)
  /-- Read a phrase. -/
  | read (p : Phrase) (next : p.Answer → Script α)

namespace Script

variable {α β : Type}

/-- Goes on with a second script that depends on the answer of the first. -/
def bind : Script α → (α → Script β) → Script β
  | done a, f => f a
  | fail e, _ => fail e
  | peekAt ahead next, f => peekAt ahead fun t => (next t).bind f
  | take next, f => take fun t => (next t).bind f
  | askEnd next, f => askEnd fun n => (next n).bind f
  | cutFrom start next, f => cutFrom start fun s => (next s).bind f
  | read p next, f => read p fun a => (next a).bind f

instance : Monad Script where
  pure := done
  bind := bind

/-- The next token. -/
def peek : Script Token := peekAt 0 done

/-- The token after the next. -/
def peekSecond : Script Token := peekAt 1 done

/-- The third token from here. -/
def peekThird : Script Token := peekAt 2 done

/-- Takes the next token; the end of input stays in place. -/
def advance : Script Token := take done

/-- Passes over the next token. -/
def skip : Script Unit := take fun _ => done ()

/-- The end of the last token taken. -/
def lastEnd : Script Nat := askEnd done

/-- The text from a place to the end of the last token taken. -/
def textSince (start : Nat) : Script String := cutFrom start done

/-- Reads a phrase. -/
def call (p : Phrase) : Script p.Answer := read p done

/-- Takes the next token if it is of one of these kinds. -/
def acceptAny (kinds : List Kind) : Script (Option Token) := do
  if kinds.contains (← peek).kind then return some (← advance) else return none

/-- Takes the next token if it is of this kind, and says whether it was. -/
def acceptKind (kind : Kind) : Script Bool := do
  return (← acceptAny [kind]).isSome

/-- Takes the next token if it is this mark, and says whether it was. -/
def accept (mark : String) : Script Bool := acceptKind (.mark mark)

/-- Takes the next token, which has to be of one of these kinds. -/
def expectAny (kinds : List Kind) (expected : String) : Script Token := do
  match ← acceptAny kinds with
  | some t => return t
  | none => fail ((← peek).unexpected expected)

/-- Takes the next token, which has to be this mark. -/
def expect (mark : String) : Script Unit := do
  let _ ← expectAny [.mark mark] s!"`{mark}`"

/-- Whether the next token is of this kind. -/
def nextIs (kind : Kind) : Script Bool := do
  return (← peek).kind == kind

/-- Whether the next token is this mark. -/
def nextIsMark (mark : String) : Script Bool := nextIs (.mark mark)

/-- Whether the next token is this mark and the one after it fits. -/
def nextThen (mark : String) (fits : Token → Bool) : Script Bool := do
  if ← nextIsMark mark then return fits (← peekSecond) else return false

/-- Whether all tokens have been taken. -/
def atEnd : Script Bool := nextIs .endOfInput

/-- Refuses anything but the end of input. -/
def expectEnd : Script Unit := do
  if ← atEnd then return () else fail ((← peek).unexpected "end of input")

/-- Reads something and answers with its text, from its first token on. -/
def spanned (body : Script Unit) : Script String := do
  let start := (← peek).start
  body
  textSince start

end Script

/-! ### Running -/

/-- A supply of tokens. Requests may change its state, also those that end in an error. -/
class Supply (σ : Type) where
  /-- Looks at the token some places ahead of the next. -/
  peek : Nat → σ → Except Error Token × σ
  /-- Takes the next token; the end of input stays in place. -/
  advance : σ → Except Error Token × σ
  /-- Where the last token taken ended. -/
  lastEnd : σ → Nat
  /-- The text from a place to the end of the last token taken. -/
  textSince : Nat → σ → String

/-- The outcome of reading something from a supply of tokens, and the supply afterwards. -/
abbrev Reader (σ α : Type) : Type := σ → Except Error α × σ

variable {σ α : Type}

/-- Goes on with the answer to a request, if it is not an error. -/
def Reader.andThen {β : Type} (outcome : Except Error α × σ) (next : α → Reader σ β) :
    Except Error β × σ :=
  match outcome with
  | (.ok a, s) => next a s
  | (.error e, s) => (.error e, s)

/-- Runs a script on a supply of tokens, with a way to read the phrases it calls. -/
def Script.run [Supply σ] (perform : (p : Phrase) → Reader σ p.Answer) :
    Script α → Reader σ α
  | done a, s => (.ok a, s)
  | fail e, s => (.error e, s)
  | peekAt ahead next, s => Reader.andThen (Supply.peek ahead s) fun t => (next t).run perform
  | take next, s => Reader.andThen (Supply.advance s) fun t => (next t).run perform
  | askEnd next, s => (next (Supply.lastEnd s)).run perform s
  | cutFrom start next, s => (next (Supply.textSince start s)).run perform s
  | read p next, s => Reader.andThen (perform p s) fun a => (next a).run perform

end TypeNotes.Signature
