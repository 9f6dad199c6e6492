import TypeNotes.Ruby.Source

/-!
# Comment blocks

Comments that stand on lines of their own, directly under each other and in the same column, form a
block. A comment behind code is a block by itself. A block belongs to the declaration on the line
after it.
-/

namespace TypeNotes

open Ruby

/-- A block of comments; there is at least one. -/
structure CommentBlock where
  first : Comment
  more : List Comment
  deriving DecidableEq, Repr

namespace CommentBlock

/-- The comments of a block, in order. -/
def comments (b : CommentBlock) : List Comment := b.first :: b.more

/-- The last comment of a block. -/
def last (b : CommentBlock) : Comment := b.more.getLastD b.first

/-- The number of the last line of a block. -/
def lastLine (b : CommentBlock) : Nat := b.last.line

/-- Whether no comment of the block stands behind code. -/
def isLeading (b : CommentBlock) : Bool := b.comments.all fun c => !c.inline

/-- Whether two comments that follow each other are in the same block. -/
def joins (a b : Comment) : Bool :=
  !a.inline && !b.inline && a.line + 1 == b.line && a.column == b.column

/-- The blocks of a list of comments. -/
def group : List Comment → List CommentBlock
  | [] => []
  | c :: rest =>
    match group rest with
    | [] => [⟨c, []⟩]
    | b :: more => if joins c b.first then ⟨c, b.comments⟩ :: more else ⟨c, []⟩ :: b :: more

/-- `CommentBlock.group` loses no comment and keeps their order. -/
theorem flatMap_comments_group (l : List Comment) : (group l).flatMap comments = l := by
  induction l with
  | nil => rfl
  | cons c rest ih =>
    cases h : group rest with
    | nil => simp_all [group, comments]
    | cons b more =>
      rw [h] at ih
      by_cases hj : joins c b.first <;> simp_all [group, comments]

end CommentBlock

end TypeNotes
