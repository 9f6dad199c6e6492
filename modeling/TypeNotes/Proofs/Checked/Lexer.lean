import TypeNotes.Proofs.Checked.Basic
import TypeNotes.Ruby.Mask

/-!
# Scanning with a stack of modes

The scanner of Ruby code, by positions in a line and with its stack as it is: at the bottom of the
stack lies the mode in which a file starts, code that is interpolated nowhere, and everything else
on it is a frame. Whenever the stack is looked at or something is taken off it, that mode has to be
at the bottom, or else the operation fails. Characters are blanked out by their positions, which have
to exist.

**The invariant.** The stack is always `modes depth frames`: the modes of the frames of the plain
scanner on top of the first one, of which only the number of open braces changes. With it, every move
of this scanner is a step of the plain one (`Lexer.exists_move`), line by line (`Lexer.exists_scan`)
and over all lines (`Lexer.exists_maskAll`).
-/

namespace TypeNotes.Lexer

open Ruby Checked

/-! ### Modes -/

/-- What the scanner is inside of. Braces and delimiters are counted up and down. -/
inductive Mode
  | code (interpolated : Bool) (depth : Int)
  | literal (opener closer : Char) (interpolates : Bool) (nesting : Int)
  deriving DecidableEq, Repr

/-- Whether the mode in which a file starts is at the bottom of a stack. -/
def isGrounded : List Mode → Bool
  | [] => false
  | [.code interpolated _] => !interpolated
  | [.literal ..] => false
  | _ :: mode :: rest => isGrounded (mode :: rest)

/-- The mode on top of the stack. -/
def top (stack : List Mode) : Checked Mode :=
  if isGrounded stack then orFault .stack stack.head? else .error .stack

/-- The stack without the mode on top of it. -/
def pop (stack : List Mode) : Checked (List Mode) :=
  if isGrounded stack.tail then .ok stack.tail else .error .stack

/-- The stack with another mode on top of it. -/
def replaceTop (mode : Mode) : List Mode → Checked (List Mode)
  | [] => .error .stack
  | _ :: rest => .ok (mode :: rest)

/-! ### Moves -/

/-- What the scanner does at a position: the line with some characters blanked out, how many more
characters it passes over, the stack afterwards, and the heredoc that is opened. -/
structure Move where
  out : List Char
  skip : Nat
  stack : List Mode
  heredoc : Option Heredoc

/-- Blanks out so many characters from a position on. -/
def blankOut (out : List Char) (i : Nat) : Nat → Checked (List Char)
  | 0 => .ok out
  | count + 1 => do blankOut (← put out i ' ') (i + 1) count

/-- A move inside a literal. -/
def moveLiteral (line out : List Char) (i : Nat) (stack : List Mode) (opener closer : Char)
    (interpolates : Bool) (nesting : Int) (c : Char) : Checked Move := do
  let here := Mode.literal opener closer interpolates
  let out ← put out i ' '
  if c == '\\' then
    let out ← if i + 1 < line.length then put out (i + 1) ' ' else .ok out
    return ⟨out, 1, stack, none⟩
  else if interpolates && c == '#' && (line.drop (i + 1)).head? == some '\x7b' then
    return ⟨← put out (i + 1) ' ', 1, .code true 0 :: stack, none⟩
  else if c == closer && nesting == 0 then
    return ⟨← put out i c, 0, ← pop stack, none⟩
  else if c == closer then
    return ⟨out, 0, ← replaceTop (here (nesting - 1)) stack, none⟩
  else if c == opener && opener != closer then
    return ⟨out, 0, ← replaceTop (here (nesting + 1)) stack, none⟩
  else return ⟨out, 0, stack, none⟩

/-- Whether a heredoc may be opened after this text, which is given in reverse. -/
def heredocAllowed (before : List Char) (opening : HeredocOpening) : Checked Bool := do
  if opening.marked then return true
  else
    let first ← item opening.heredoc.terminator 0
    return first.isUpper && literalAllowed before (some first)

/-- Reads the opening of a heredoc after its first angle bracket. -/
def heredocOpening? : List Char → Option HeredocOpening
  | '<' :: name => HeredocOpening.ofText? name
  | _ => none

/-- A heredoc may be opened at a position. -/
def moveHeredoc (line out : List Char) (i : Nat) (stack : List Mode) : Checked Move := do
  match heredocOpening? (line.drop (i + 1)) with
  | none => return ⟨out, 0, stack, none⟩
  | some opening =>
    if ← heredocAllowed (out.take i).reverse opening then
      return ⟨out, opening.text.length + 1, stack, some opening.heredoc⟩
    else return ⟨out, 0, stack, none⟩

/-- A character literal may stand at a position. -/
def moveCharacter (line out : List Char) (i : Nat) (stack : List Mode) : Checked Move := do
  if i + 1 < line.length then
    let next ← item line (i + 1)
    let count := if next == '\\' then 2 else 1
    let behind := getElem? line (i + 1 + count)
    if literalAllowed (out.take i).reverse (some next) && !(behind.any Unicode.isWord) then
      return ⟨← blankOut out (i + 1) (min count (line.length - (i + 1))), count, stack, none⟩
    else return ⟨out, 0, stack, none⟩
  else return ⟨out, 0, stack, none⟩

/-- A move in code, for a character that starts no comment. -/
def moveCode (line out : List Char) (i : Nat) (stack : List Mode) (interpolated : Bool)
    (depth : Int) (c : Char) : Checked Move := do
  let plain : Move := ⟨out, 0, stack, none⟩
  match c with
  | '{' => return ⟨out, 0, ← replaceTop (.code interpolated (depth + 1)) stack, none⟩
  | '}' =>
    if interpolated && depth == 0 then return ⟨← put out i ' ', 0, ← pop stack, none⟩
    else return ⟨out, 0, ← replaceTop (.code interpolated (depth - 1)) stack, none⟩
  | '$' =>
    if i + 1 < line.length then
      let next ← item line (i + 1)
      return ⟨out, if specialVariables.contains next then 1 else 0, stack, none⟩
    else return plain
  | '"' | '`' => return ⟨out, 0, .literal c c true 0 :: stack, none⟩
  | '\'' => return ⟨out, 0, .literal c c false 0 :: stack, none⟩
  | '<' => moveHeredoc line out i stack
  | '%' =>
    if literalAllowed (out.take i).reverse (line.drop (i + 1)).head? then
      match percentOpening? (line.drop (i + 1)) with
      | some (opening, .literal opener closer interpolates nesting) =>
        return ⟨out, opening.length, .literal opener closer interpolates nesting :: stack, none⟩
      | _ => return plain
    else return plain
  | '/' =>
    if regexpAllowed (out.take i).reverse (line.drop (i + 1)) then
      return ⟨out, 0, .literal '/' '/' true 0 :: stack, none⟩
    else return plain
  | '?' => moveCharacter line out i stack
  | _ => return plain

/-- The move at a position of a line; none if a comment starts there. -/
def move (line out : List Char) (i : Nat) (stack : List Mode) : Checked (Option Move) := do
  let c ← item line i
  match ← top stack with
  | .literal opener closer interpolates nesting =>
    return some (← moveLiteral line out i stack opener closer interpolates nesting c)
  | .code interpolated depth =>
    if c == '#' then return none
    else return some (← moveCode line out i stack interpolated depth c)

/-! ### Lines -/

/-- A scanned line, the stack at its end, and the heredocs that it opens. -/
structure Scanned where
  masked : MaskedLine
  stack : List Mode
  heredocs : List Heredoc

/-- Scans a line from a position on. -/
def scan (line out : List Char) (i : Nat) (stack : List Mode) (heredocs : List Heredoc) :
    Checked Scanned :=
  if i < line.length then
    match move line out i stack with
    | .error fault => .error fault
    | .ok none => do
      return ⟨⟨← blankOut out i (line.length - i), some i⟩, stack, heredocs⟩
    | .ok (some m) => scan line m.out (i + 1 + m.skip) m.stack (heredocs ++ m.heredoc.toList)
  else .ok ⟨⟨out, none⟩, stack, heredocs⟩
termination_by line.length - i

/-- Whether the scanner is in the code in which a file starts, and nowhere inside. -/
def isAtTop (stack : List Mode) : Checked Bool := do
  if stack.length == 1 then
    match ← item stack 0 with
    | .code .. => return true
    | .literal .. => return false
  else return false

/-- Masks one line, and says in which region and with which stack the scanner is afterwards. -/
def mask (region : Region) (stack : List Mode) (line : List Char) :
    Checked (MaskedLine × Region × List Mode) := do
  let hidden := MaskedLine.hidden line
  match region with
  | .data => return (hidden, .data, stack)
  | .heredoc h next =>
    return (hidden, if h.endsAt line then .ofHeredocs next else .heredoc h next, stack)
  | .document =>
    return (hidden, if Text.startsWith line "=end" then .code else .document, stack)
  | .code =>
    let atTop ← isAtTop stack
    if atTop && Text.startsWith line "=begin" then return (hidden, .document, stack)
    else if atTop && Text.dropReturns line == endMarker then return (hidden, .data, stack)
    else
      let scanned ← scan line line 0 stack []
      return (scanned.masked, .ofHeredocs scanned.heredocs, scanned.stack)

/-- Masks lines, and says with which stack the scanner ends. -/
def maskAll (region : Region) (stack : List Mode) :
    List (List Char) → Checked (List MaskedLine × List Mode)
  | [] => .ok ([], stack)
  | line :: rest => do
    let (masked, region, stack) ← mask region stack line
    let (more, stack) ← maskAll region stack rest
    return (masked :: more, stack)

/-- Masks the lines of a file. -/
def maskLines (lines : List (List Char)) : Checked (List MaskedLine × List Mode) :=
  maskAll .code [.code false 0] lines

/-! ### The stack -/

/-- The mode of a frame. -/
def Mode.ofFrame : Frame → Mode
  | .literal opener closer interpolates nesting => .literal opener closer interpolates nesting
  | .interpolation depth => .code true depth

/-- The stack for frames: their modes, and the mode in which a file starts. -/
def modes (depth : Int) (frames : List Frame) : List Mode :=
  frames.map Mode.ofFrame ++ [.code false depth]

section Stack

variable (depth : Int) (frame : Frame) (frames : List Frame)

theorem modes_cons : modes depth (frame :: frames) = .ofFrame frame :: modes depth frames := rfl

/-- The first mode stays at the bottom of the stack (`isGrounded`). -/
theorem isGrounded_modes : isGrounded (modes depth frames) = true := by
  induction frames with
  | nil => rfl
  | cons frame frames ih =>
    rw [modes_cons]
    cases hmodes : modes depth frames with
    | nil => cases frames <;> cases hmodes
    | cons mode rest =>
      rw [hmodes] at ih
      rw [isGrounded]
      exact ih

theorem top_nil : top (modes depth []) = .ok (.code false depth) := rfl

/-- `top` is the mode of the innermost frame. -/
theorem top_cons : top (modes depth (frame :: frames)) = .ok (.ofFrame frame) := by
  rw [top, isGrounded_modes]
  rfl

/-- `pop` leaves the modes of the frames further out. -/
theorem pop_cons : pop (modes depth (frame :: frames)) = .ok (modes depth frames) := by
  rw [modes_cons, pop, List.tail_cons, isGrounded_modes, if_pos rfl]

/-- The scanner is at its start if no frame is open. -/
theorem isAtTop_modes : isAtTop (modes depth frames) = .ok frames.isEmpty := by
  cases frames with
  | nil => rfl
  | cons frame frames =>
    have hlength : ((modes depth (frame :: frames)).length == 1) = false := by
      simp [modes]
    rw [isAtTop, hlength]
    rfl

end Stack

/-! ### Positions -/

/-- The scanner is at a position of a line: after what is shown so far, which is given in reverse,
and in front of a character and the rest of the line. -/
structure Facing (line out : List Char) (i : Nat) (before : List Char) (c : Char)
    (rest : List Char) : Prop where
  drop : line.drop i = c :: rest
  length : before.length = i
  out : out = before.reverse ++ c :: rest

namespace Facing

variable {line out : List Char} {i : Nat} {before : List Char} {c : Char} {rest : List Char}

/-- What stands at a later position is told from what follows. -/
theorem getElem?_eq (h : Facing line out i before c rest) (k : Nat) :
    getElem? line (i + 1 + k) = rest[k]? := by
  have hdrop : (line.drop i)[1 + k]? = rest[k]? := by
    rw [h.drop, Nat.add_comm, List.getElem?_cons_succ]
  rwa [List.getElem?_drop, ← Nat.add_assoc] at hdrop

/-- The position that is looked at exists, and holds the character. -/
theorem item_eq (h : Facing line out i before c rest) : item line i = .ok c := by
  refine item_eq_ok ?_
  have hdrop := congrArg (·[0]?) h.drop
  simpa [List.getElem?_drop] using hdrop

theorem drop_succ (h : Facing line out i before c rest) (k : Nat) :
    line.drop (i + 1 + k) = rest.drop k := by
  rw [Nat.add_assoc, ← List.drop_drop, h.drop, Nat.add_comm, List.drop_succ_cons]

theorem drop_one (h : Facing line out i before c rest) : line.drop (i + 1) = rest :=
  h.drop_succ 0

theorem length_line (h : Facing line out i before c rest) : line.length = i + 1 + rest.length := by
  have hlength := congrArg List.length h.drop
  rw [List.length_drop, List.length_cons] at hlength
  omega

/-- What was shown so far is the text in front, as the plain scanner keeps it. -/
theorem reverse_take (h : Facing line out i before c rest) : (out.take i).reverse = before := by
  rw [h.out, ← h.length, ← List.length_reverse, List.take_left, List.reverse_reverse]

/-- The character at the position can be replaced. -/
theorem put_eq (h : Facing line out i before c rest) (d : Char) :
    put out i d = .ok (before.reverse ++ d :: rest) := by
  rw [h.out, ← h.length, ← List.length_reverse, put_append]

end Facing

/-- The character after the one at the position can be blanked out. -/
theorem put_succ (before : List Char) (b d : Char) (rest : List Char) :
    put (before.reverse ++ b :: d :: rest) (before.length + 1) ' ' =
      .ok (before.reverse ++ b :: ' ' :: rest) := by
  have hput := put_append (before.reverse ++ [b]) d ' ' rest
  rw [List.length_append, List.length_reverse, List.length_singleton] at hput
  simpa using hput

/-- `blankOut` blanks out a part of a line by its place and length. -/
theorem blankOut_append (before text after : List Char) :
    blankOut (before ++ (text ++ after)) before.length text.length =
      .ok (before ++ (Text.blanks text.length ++ after)) := by
  induction text generalizing before with
  | nil => rfl
  | cons c text ih =>
    have hput := put_append before c ' ' (text ++ after)
    have hnext := ih (before ++ [' '])
    rw [List.length_append, List.length_singleton] at hnext
    rw [List.length_cons, blankOut, List.cons_append, hput]
    simpa [Text.blanks, List.replicate_succ] using hnext

/-! ### Moves are steps -/

/-- A move does what a step does: it shows the same characters, and passes over as many of the rest
or to the end of it. -/
structure Performs (before rest : List Char) (s : Step) (m : Move) : Prop where
  out : m.out = before.reverse ++ s.first :: (s.more ++ rest.drop s.more.length)
  skip : m.skip = s.more.length ∨ (rest.drop m.skip = [] ∧ rest.drop s.more.length = [])
  stack : ∃ depth, m.stack = modes depth s.frames
  heredoc : m.heredoc = s.heredoc

section Moves

variable {line out : List Char} {i : Nat} {before : List Char} {c : Char} {rest : List Char}

/-- A move that blanks out a character or leaves it, and nothing else. -/
theorem performs_one (d : Char) {depth : Int} {frames : List Frame} :
    Performs before rest ⟨d, [], frames, none⟩
      ⟨before.reverse ++ d :: rest, 0, modes depth frames, none⟩ where
  out := rfl
  skip := .inl rfl
  stack := ⟨depth, rfl⟩
  heredoc := rfl

/-- `moveLiteral` is the step of the plain scanner inside a literal. -/
theorem exists_moveLiteral (h : Facing line out i before c rest) (depth : Int)
    (opener closer : Char) (interpolates : Bool) (nesting : Nat) (outer : List Frame) :
    ∃ m, moveLiteral line out i (modes depth (.literal opener closer interpolates nesting :: outer))
        opener closer interpolates nesting c = .ok m ∧
      Performs before rest (stepLiteral opener closer interpolates nesting outer c rest) m := by
  have hline := h.length_line
  unfold moveLiteral stepLiteral
  simp only [h.put_eq, ok_bind, pure_eq, h.drop_one]
  split
  · -- A backslash takes the next character with it, if there is one.
    cases rest with
    | nil =>
      rw [if_neg (by simpa using Nat.le_of_eq hline)]
      exact ⟨_, rfl, rfl, .inr ⟨rfl, rfl⟩, ⟨depth, rfl⟩, rfl⟩
    | cons d rest =>
      rw [List.length_cons] at hline
      rw [if_pos (by omega), ← h.length, put_succ]
      exact ⟨_, rfl, rfl, .inl rfl, ⟨depth, rfl⟩, rfl⟩
  split
  · -- An interpolation goes on top of the literal.
    rename_i hopen
    cases rest with
    | nil => simp at hopen
    | cons d rest =>
      rw [← h.length, put_succ]
      exact ⟨_, rfl, rfl, .inl rfl, ⟨depth, rfl⟩, rfl⟩
  by_cases hclose : c = closer
  · subst hclose
    -- The last closing delimiter takes the literal off the stack and stays visible.
    cases nesting with
    | zero =>
      have hput : put (before.reverse ++ ' ' :: rest) i c = .ok (before.reverse ++ c :: rest) := by
        rw [← h.length, ← List.length_reverse, put_append]
      simp only [beq_self_eq_true, Int.ofNat_zero, Bool.and_self, if_true, hput, pop_cons, ok_bind]
      exact ⟨_, rfl, performs_one c⟩
    | succ nesting =>
      have hnesting : ((nesting + 1 : Nat) : Int) ≠ 0 := by omega
      have hless : ((nesting + 1 : Nat) : Int) - 1 = nesting := by omega
      simp only [beq_self_eq_true, beq_iff_eq, hnesting, Bool.true_and, if_false, if_true, hless]
      exact ⟨_, rfl, performs_one ' '⟩
  · have hclose' : (c == closer) = false := beq_eq_false_iff_ne.2 hclose
    simp only [hclose', Bool.false_and, Bool.false_eq_true, if_false]
    by_cases hopen : c = opener
    · subst hopen
      simp only [beq_self_eq_true, bne_iff_ne, ne_eq, hclose, not_false_eq_true, Bool.true_and,
        if_true]
      exact ⟨_, rfl, performs_one ' '⟩
    · have hopen' : (c == opener) = false := beq_eq_false_iff_ne.2 hopen
      simp only [hopen', Bool.false_and, Bool.false_eq_true, if_false]
      exact ⟨_, rfl, performs_one ' '⟩

/-- A move that leaves a character and some more as they are. -/
theorem performs_more {more after : List Char} (hrest : rest = more ++ after) {skip : Nat}
    (hskip : skip = more.length) {depth : Int} {frames : List Frame} (heredoc : Option Heredoc) :
    Performs before rest ⟨c, more, frames, heredoc⟩
      ⟨before.reverse ++ c :: rest, skip, modes depth frames, heredoc⟩ where
  out := by rw [hrest, List.drop_left]
  skip := .inl hskip
  stack := ⟨depth, rfl⟩
  heredoc := rfl

/-- A text with its first character put back is the text. -/
theorem append_drop_filter_take (p : Char → Bool) (s : List Char) :
    (s.take 1).filter p ++ s.drop ((s.take 1).filter p).length = s := by
  cases s with
  | nil => rfl
  | cons c s =>
    rw [List.take_succ_cons, List.take_zero, List.filter_cons]
    split <;> simp

/-- The opening of a heredoc stands at the front of the text, and its terminator is not empty. -/
theorem HeredocOpening.spec {s : List Char} {opening : HeredocOpening}
    (h : HeredocOpening.ofText? s = some opening) :
    (∃ after, s = opening.text ++ after) ∧ ∃ first, opening.heredoc.terminator.head? = some first := by
  unfold HeredocOpening.ofText? at h
  simp only at h
  split at h
  · cases h
  · rename_i c rest hrest
    split at h
    · split at h
      · rename_i hmark
        obtain rfl := Option.some.inj h
        refine ⟨?_, c, rfl⟩
        -- The text is the flag, the quotation mark, the word, the mark again, and what follows.
        obtain ⟨after, hafter⟩ := List.isPrefixOf_iff_prefix.1 hmark
        have hflag := append_drop_filter_take (fun c => c == '~' || c == '-') s
        have hquote := append_drop_filter_take (fun c => c == '"' || c == '\'' || c == '`')
          (s.drop ((s.take 1).filter fun c => c == '~' || c == '-').length)
        have hword : rest.takeWhile Unicode.isWord ++ rest.dropWhile Unicode.isWord = rest :=
          List.takeWhile_append_dropWhile
        refine ⟨after, ?_⟩
        rw [hrest, ← hword, ← hafter] at hquote
        rw [← hquote] at hflag
        conv => lhs; rw [← hflag]
        simp only [List.append_assoc, List.cons_append]
      · cases h
    · cases h

/-- `stepHeredoc?` opens a heredoc if what is read as an opening is allowed there. -/
theorem stepHeredoc?_eq (frames : List Frame) (before : List Char) (c : Char) (rest : List Char) :
    stepHeredoc? frames before c rest = (heredocOpening? rest).bind fun opening =>
      opening.heredoc.terminator.head?.bind fun first =>
        if opening.marked || (first.isUpper && literalAllowed before (some first)) then
          some ⟨c, '<' :: opening.text, frames, some opening.heredoc⟩
        else none := by
  unfold stepHeredoc?
  split
  · rfl
  · rename_i hrest
    have hnone : heredocOpening? rest = none := by
      unfold heredocOpening?
      split
      · exact absurd rfl (hrest _)
      · rfl
    rw [hnone]
    rfl

/-- `moveHeredoc` is the step of the plain scanner at an angle bracket. -/
theorem exists_moveHeredoc (h : Facing line out i before c rest) (depth : Int)
    (frames : List Frame) :
    ∃ m, moveHeredoc line out i (modes depth frames) = .ok m ∧
      Performs before rest ((stepHeredoc? frames before c rest).getD (.show c frames)) m := by
  rw [moveHeredoc, stepHeredoc?_eq, h.drop_one, h.reverse_take, h.out]
  cases hopening : heredocOpening? rest with
  | none => exact ⟨_, rfl, performs_one c⟩
  | some opening =>
    obtain ⟨name, rfl, hname⟩ : ∃ name, rest = '<' :: name ∧
        HeredocOpening.ofText? name = some opening := by
      unfold heredocOpening? at hopening
      split at hopening
      · exact ⟨_, rfl, hopening⟩
      · cases hopening
    obtain ⟨⟨after, hafter⟩, first, hfirst⟩ := HeredocOpening.spec hname
    have hallowed : heredocAllowed before opening =
        .ok (opening.marked || (first.isUpper && literalAllowed before (some first))) := by
      have hitem : item opening.heredoc.terminator 0 = .ok first :=
        item_eq_ok (by rw [← hfirst, List.head?_eq_getElem?])
      rw [heredocAllowed, hitem]
      cases opening.marked <;> rfl
    simp only [hallowed, hfirst, ok_bind, Option.bind_some]
    split
    · have hrest : '<' :: name = ('<' :: opening.text) ++ after := by
        rw [List.cons_append, hafter]
      exact ⟨_, rfl, performs_more hrest rfl _⟩
    · exact ⟨_, rfl, performs_one c⟩

/-- A move that blanks out up to so many characters after one that it leaves. -/
theorem performs_blanks (count : Nat) (depth : Int) {frames : List Frame} :
    Performs before rest ⟨c, Text.blanks (rest.take count).length, frames, none⟩
      ⟨before.reverse ++ c :: (Text.blanks (rest.take count).length ++ rest.drop count), count,
        modes depth frames, none⟩ := by
  have hlength : (Text.blanks (rest.take count).length).length = min count rest.length := by
    rw [Text.blanks, List.length_replicate, List.length_take]
  rcases Nat.le_total count rest.length with hle | hle
  · rw [Nat.min_eq_left hle] at hlength
    exact ⟨by rw [hlength], .inl hlength.symm, ⟨depth, rfl⟩, rfl⟩
  · rw [Nat.min_eq_right hle] at hlength
    have hnil : rest.drop count = [] := List.drop_eq_nil_of_le hle
    have hnil' : rest.drop rest.length = [] := List.drop_length
    exact ⟨by rw [hlength, hnil, hnil'], .inr ⟨hnil, by rw [hlength, hnil']⟩, ⟨depth, rfl⟩, rfl⟩

/-- `moveCharacter` is the step of the plain scanner at a question mark. -/
theorem exists_moveCharacter (h : Facing line out i before c rest) (depth : Int)
    (frames : List Frame) :
    ∃ m, moveCharacter line out i (modes depth frames) = .ok m ∧
      Performs before rest ((stepCharacter? frames before c rest).getD (.show c frames)) m := by
  have hline := h.length_line
  unfold moveCharacter stepCharacter?
  cases rest with
  | nil =>
    rw [if_neg (by simpa using Nat.le_of_eq hline), h.out]
    exact ⟨_, rfl, performs_one c⟩
  | cons d rest =>
    have hitem : item line (i + 1) = .ok d := item_eq_ok (h.getElem?_eq 0)
    have hlt : i + 1 < line.length := by
      rw [List.length_cons] at hline
      omega
    rw [if_pos hlt, hitem, ok_bind]
    simp only [h.getElem?_eq, h.reverse_take, List.head?_cons, Option.bind_eq_bind, Option.bind_some]
    generalize (if (d == '\\') = true then 2 else 1) = count
    split
    · refine ⟨_, ?_, performs_blanks count depth⟩
      have hblank := blankOut_append (before.reverse ++ [c]) ((d :: rest).take count)
        ((d :: rest).drop count)
      have hcount : min count (line.length - (i + 1)) = ((d :: rest).take count).length := by
        rw [List.length_take]
        omega
      rw [List.length_append, List.length_reverse, List.length_singleton, h.length,
        List.take_append_drop] at hblank
      simp only [List.append_assoc, List.singleton_append] at hblank
      rw [hcount, h.out, hblank]
      rfl
    · rw [h.out]
      exact ⟨_, rfl, performs_one c⟩

/-- The opening that `percentOpening?` finds stands at the front of the text. -/
theorem percentOpening?_spec {s opening : List Char} {frame : Frame}
    (h : percentOpening? s = some (opening, frame)) :
    (∃ after, s = opening ++ after) ∧
      ∃ opener closer interpolates, frame = .literal opener closer interpolates 0 := by
  unfold percentOpening? at h
  split at h
  · cases h
  · split at h
    · split at h
      · cases h
      · split at h
        · cases h
          exact ⟨⟨_, rfl⟩, _, _, _, rfl⟩
        · cases h
    · split at h
      · cases h
        exact ⟨⟨_, rfl⟩, _, _, _, rfl⟩
      · cases h

/-- The mode of code, at the bottom or interpolated: its number of open braces may change. -/
theorem exists_replaceTop_code (depth : Int) {frames : List Frame} {interpolated : Bool} {n : Int}
    (htop : top (modes depth frames) = .ok (.code interpolated n)) :
    (frames = [] ∧ interpolated = false ∧
        ∀ n', replaceTop (.code interpolated n') (modes depth frames) = .ok (modes n' [])) ∨
      ∃ braces outer, frames = .interpolation braces :: outer ∧ interpolated = true ∧ n = braces := by
  cases frames with
  | nil =>
    rw [top_nil] at htop
    cases htop
    exact .inl ⟨rfl, rfl, fun _ => rfl⟩
  | cons frame outer =>
    rw [top_cons] at htop
    cases frame with
    | literal opener closer interpolates nesting => cases htop
    | interpolation braces =>
      cases htop
      exact .inr ⟨braces, outer, rfl, rfl, rfl⟩

/-- `moveCode` is the step of the plain scanner in code. -/
theorem exists_moveCode (h : Facing line out i before c rest) (depth : Int) {frames : List Frame}
    {interpolated : Bool} {n : Int} (htop : top (modes depth frames) = .ok (.code interpolated n)) :
    ∃ m, moveCode line out i (modes depth frames) interpolated n c = .ok m ∧
      Performs before rest (stepCode frames before c rest) m := by
  have hline := h.length_line
  have hplain : Performs before rest (.show c frames) ⟨out, 0, modes depth frames, none⟩ := by
    rw [h.out]
    exact performs_one c
  unfold moveCode stepCode
  split
  · -- An open brace is counted.
    rcases exists_replaceTop_code depth htop with ⟨rfl, rfl, hreplace⟩ | ⟨braces, outer, rfl, rfl, rfl⟩
    · rw [hreplace, h.out]
      exact ⟨_, rfl, performs_one _⟩
    · rw [h.out]
      exact ⟨_, rfl, performs_one _⟩
  · -- A closed brace ends the interpolation, or is counted.
    rcases exists_replaceTop_code depth htop with ⟨rfl, rfl, hreplace⟩ | ⟨braces, outer, rfl, rfl, rfl⟩
    · rw [hreplace, h.out]
      exact ⟨_, rfl, performs_one _⟩
    · cases braces with
      | zero =>
        simp only [Int.ofNat_zero, beq_self_eq_true, Bool.and_self, if_true, h.put_eq, pop_cons,
          ok_bind]
        exact ⟨_, rfl, performs_one ' '⟩
      | succ braces =>
        have hbraces : ((braces + 1 : Nat) : Int) ≠ 0 := by omega
        have hless : ((braces + 1 : Nat) : Int) - 1 = braces := by omega
        simp only [beq_iff_eq, hbraces, Bool.true_and, if_false, hless, h.out]
        exact ⟨_, rfl, performs_one _⟩
  · -- A dollar sign.
    cases rest with
    | nil =>
      rw [if_neg (by simpa using Nat.le_of_eq hline)]
      exact ⟨_, rfl, hplain⟩
    | cons d rest =>
      have hitem : item line (i + 1) = .ok d := item_eq_ok (h.getElem?_eq 0)
      have hlt : i + 1 < line.length := by
        rw [List.length_cons] at hline
        omega
      rw [if_pos hlt, hitem, ok_bind]
      simp only
      split
      · rw [h.out]
        exact ⟨_, rfl, performs_more (List.singleton_append).symm rfl none⟩
      · exact ⟨_, rfl, hplain⟩
  · -- A quotation mark opens a literal, also the next two.
    rw [h.out]
    exact ⟨_, rfl, performs_one _⟩
  · rw [h.out]
    exact ⟨_, rfl, performs_one _⟩
  · rw [h.out]
    exact ⟨_, rfl, performs_one _⟩
  · exact exists_moveHeredoc h depth frames
  · -- A percent literal.
    rw [h.reverse_take, h.drop_one]
    split
    · cases hopening : percentOpening? rest with
      | none => exact ⟨_, rfl, hplain⟩
      | some found =>
        obtain ⟨opening, frame⟩ := found
        obtain ⟨⟨after, hafter⟩, opener, closer, interpolates, rfl⟩ := percentOpening?_spec hopening
        rw [h.out]
        exact ⟨_, rfl, performs_more hafter rfl none⟩
    · exact ⟨_, rfl, hplain⟩
  · -- A slash opens a regular expression, or divides.
    rw [h.reverse_take, h.drop_one]
    split
    · rw [h.out]
      exact ⟨_, rfl, performs_one _⟩
    · exact ⟨_, rfl, hplain⟩
  · exact exists_moveCharacter h depth frames
  · refine ⟨_, rfl, ?_⟩
    simp only
    exact hplain

/-- In code, a move is found unless a comment starts. -/
theorem exists_move_of_code (h : Facing line out i before c rest) (depth : Int)
    {frames : List Frame} {interpolated : Bool} {n : Int}
    (htop : top (modes depth frames) = .ok (.code interpolated n))
    (hstep : step frames before c rest =
      if c == '#' then none else some (stepCode frames before c rest)) :
    (step frames before c rest = none ∧ move line out i (modes depth frames) = .ok none) ∨
      ∃ s m, step frames before c rest = some s ∧
        move line out i (modes depth frames) = .ok (some m) ∧ Performs before rest s m := by
  rw [hstep, move, h.item_eq, ok_bind, htop, ok_bind]
  by_cases hc : c = '#'
  · subst hc
    exact .inl ⟨rfl, rfl⟩
  · have hc' : (c == '#') = false := beq_eq_false_iff_ne.2 hc
    obtain ⟨m, hm, hperforms⟩ := exists_moveCode h depth htop
    refine .inr ⟨_, m, ?_, ?_, hperforms⟩
    · rw [hc', if_neg Bool.false_ne_true]
    · simp only [hc', Bool.false_eq_true, if_false, hm]
      rfl

/-- `move` is a step of the plain scanner, and finds a comment where that does. -/
theorem exists_move (h : Facing line out i before c rest) (depth : Int) (frames : List Frame) :
    (step frames before c rest = none ∧ move line out i (modes depth frames) = .ok none) ∨
      ∃ s m, step frames before c rest = some s ∧
        move line out i (modes depth frames) = .ok (some m) ∧ Performs before rest s m := by
  cases frames with
  | nil => exact exists_move_of_code h depth (top_nil depth) rfl
  | cons frame outer =>
    cases frame with
    | interpolation braces => exact exists_move_of_code h depth (top_cons depth _ outer) rfl
    | literal opener closer interpolates nesting =>
      obtain ⟨m, hm, hperforms⟩ :=
        exists_moveLiteral h depth opener closer interpolates nesting outer
      refine .inr ⟨_, m, rfl, ?_, hperforms⟩
      rw [move, h.item_eq, ok_bind, top_cons, ok_bind]
      simp only [Mode.ofFrame, hm]
      rfl

end Moves

/-! ### Lines -/

/-- `scan`, by positions, gives what the plain scanner gives. -/
theorem exists_scan {line out : List Char} {i : Nat} {before rest : List Char}
    (hdrop : line.drop i = rest) (hlength : rest ≠ [] → before.length = i)
    (hout : out = before.reverse ++ rest) (depth : Int) (frames : List Frame)
    (heredocs : List Heredoc) :
    ∃ depth', scan line out i (modes depth frames) heredocs =
      .ok ⟨(scanFrom before frames heredocs rest).masked,
        modes depth' (scanFrom before frames heredocs rest).frames,
        (scanFrom before frames heredocs rest).heredocs⟩ := by
  fun_induction scanFrom before frames heredocs rest generalizing out i depth with
  | case1 before frames heredocs =>
    have hlt : ¬ i < line.length := by
      have := congrArg List.length hdrop
      rw [List.length_drop, List.length_nil] at this
      omega
    refine ⟨depth, ?_⟩
    rw [scan, if_neg hlt, hout, List.append_nil]
  | case2 before frames heredocs c rest hstep =>
    -- A comment: the rest of the line is blanked out.
    have hfacing : Facing line out i before c rest := ⟨hdrop, hlength (by simp), hout⟩
    have hline := hfacing.length_line
    rcases exists_move hfacing depth frames with ⟨-, hmove⟩ | ⟨s, m, hsome, -⟩
    · have hblank := blankOut_append before.reverse (c :: rest) []
      rw [List.append_nil, List.append_nil, List.length_reverse, hfacing.length,
        List.length_cons] at hblank
      refine ⟨depth, ?_⟩
      rw [scan, if_pos (by omega), hmove, hout, show line.length - i = rest.length + 1 by omega]
      simp only [hblank, hfacing.length]
      rfl
    · rw [hstep] at hsome
      cases hsome
  | case3 before frames heredocs c rest s hstep ih =>
    have hfacing : Facing line out i before c rest := ⟨hdrop, hlength (by simp), hout⟩
    have hline := hfacing.length_line
    rcases exists_move hfacing depth frames with ⟨hnone, -⟩ | ⟨s', m, hsome, hmove, hperforms⟩
    · rw [hstep] at hnone
      cases hnone
    · obtain rfl : s = s' := Option.some.inj (hstep.symm.trans hsome)
      obtain ⟨depth', hstack⟩ := hperforms.stack
      -- Past the end of the line, the two scanners may disagree by how far they are past it.
      have hrest : rest.drop m.skip = rest.drop s.more.length := by
        rcases hperforms.skip with hskip | ⟨hnil, hnil'⟩
        · rw [hskip]
        · rw [hnil, hnil']
      have hnext : rest.drop s.more.length ≠ [] →
          (s.more.reverse ++ s.first :: before).length = i + 1 + m.skip := by
        intro hne
        rcases hperforms.skip with hskip | ⟨-, hnil⟩
        · have := hfacing.length
          simp only [List.length_append, List.length_reverse, List.length_cons]
          omega
        · exact absurd hnil hne
      have hdrop' : line.drop (i + 1 + m.skip) = rest.drop s.more.length := by
        rw [hfacing.drop_succ, hrest]
      have hout' : m.out = (s.more.reverse ++ s.first :: before).reverse ++
          rest.drop s.more.length := by
        rw [hperforms.out]
        simp
      obtain ⟨depth'', hscan⟩ := ih hdrop' hnext hout' depth'
      refine ⟨depth'', ?_⟩
      rw [scan, if_pos (by omega), hmove]
      simp only [hstack, hperforms.heredoc]
      exact hscan

/-- `mask` masks a line as the plain scanner does, and the invariant holds behind it. -/
theorem exists_mask (region : Region) (depth : Int) (frames : List Frame) (line : List Char) :
    ∃ depth', mask region (modes depth frames) line =
      .ok (((Place.mk region frames).mask line).1, ((Place.mk region frames).mask line).2.region,
        modes depth' ((Place.mk region frames).mask line).2.frames) := by
  unfold mask Place.mask
  cases region with
  | data => exact ⟨depth, rfl⟩
  | heredoc h next =>
    refine ⟨depth, ?_⟩
    simp only
    split <;> rfl
  | document =>
    refine ⟨depth, ?_⟩
    simp only
    split <;> rfl
  | code =>
    simp only [isAtTop_modes, ok_bind]
    split
    · exact ⟨depth, rfl⟩
    split
    · exact ⟨depth, rfl⟩
    have hout : line = [].reverse ++ line := rfl
    obtain ⟨depth', hscan⟩ := exists_scan List.drop_zero (fun _ => rfl) hout depth frames []
    refine ⟨depth', ?_⟩
    rw [hscan]
    rfl

/-- Over all lines the scanner never fails, masks them as the plain scanner does, and ends with the
mode in which it started at the bottom of its stack. -/
theorem exists_maskAll (region : Region) (depth : Int) (frames : List Frame)
    (lines : List (List Char)) :
    ∃ stack, maskAll region (modes depth frames) lines =
      .ok ((Place.mk region frames).maskAll lines, stack) ∧ isGrounded stack := by
  induction lines generalizing region depth frames with
  | nil => exact ⟨_, rfl, isGrounded_modes depth frames⟩
  | cons line lines ih =>
    obtain ⟨depth', hmask⟩ := exists_mask region depth frames line
    -- The stack at the end of this line is that of its frames, which is what the next one needs.
    obtain ⟨stack, hrest, hgrounded⟩ := ih ((Place.mk region frames).mask line).2.region depth'
      ((Place.mk region frames).mask line).2.frames
    refine ⟨stack, ?_, hgrounded⟩
    rw [maskAll, hmask, ok_bind]
    simp only [hrest]
    rfl

/-- `maskLines` masks all lines as the plain scanner does, and the stack is grounded at the end. -/
theorem exists_maskLines (lines : List (List Char)) :
    ∃ stack, maskLines lines = .ok (Ruby.maskLines lines, stack) ∧ isGrounded stack :=
  exists_maskAll .code 0 [] lines

end TypeNotes.Lexer
