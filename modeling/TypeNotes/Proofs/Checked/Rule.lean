import TypeNotes.Proofs.Checked.Note
import TypeNotes.Proofs.Checked.Source
import TypeNotes.Rule.Basic

/-!
# Checking rules

The nine rules on a loaded file, with look-ups that can fail: the last comment of a block or a note,
the characters of a line, the characters of a range of bytes. Each rule comes out as it does on the
source itself (`check_eq`).

**Blocks.** Blocks and notes have a comment at least, so that they have a first and a last one.

**Lines.** A rule asks for the characters of a line only if the line is not blank, or if a line after
it defines a method. Such a line exists (`lineSpan_ofSource_of_line`).
-/

namespace TypeNotes.Checked

open Ruby

/-! ### Blocks above declarations -/

/-- A block of comments and its notes. -/
abbrev NotedBlock : Type := CommentBlock × List Note

/-- The number of the last line of a block. -/
def lastLine (b : CommentBlock) : Checked Nat := do return (← lastItem b.comments).line

/-- The block that ends directly above a line. -/
def leadingBlock? (line : Nat) : List NotedBlock → Checked (Option NotedBlock)
  | [] => .ok none
  | b :: rest => do
    if b.1.isLeading && (← lastLine b.1) + 1 == line then return some b
    else leadingBlock? line rest

/-- What comes of each declaration with a block above it. -/
def aboveDeclarations {α : Type} (x : Loaded) (f : Declaration → NotedBlock → Checked (List α)) :
    Checked (List α) := do
  let blocks ← blocksWithNotes x.comments
  gather x.declarations fun d => do
    match ← leadingBlock? d.line blocks with
    | none => return []
    | some b => f d b

/-! ### Rules about the form of a note -/

/-- The comments that name a parameter of the method below their block by a keyword. -/
def parameterComments (x : Loaded) : Checked (List Comment) :=
  aboveDeclarations x fun d b => .ok (b.1.comments.filter (namesParameter d))

/-- No colon stands between a keyword and its argument, unless the keyword names a parameter. -/
def keywordSeparator (x : Loaded) : Checked (List Offense) := do
  let named ← parameterComments x
  return x.comments.filterMap (keywordOffense? named)

/-! ### The rule about types -/

/-- The comment that contains a position, or else the last one. -/
def commentAt (comments : List Comment) (offset : Nat) : Checked Comment :=
  match comments.find? fun c => c.start ≤ offset && offset ≤ c.stop with
  | some c => .ok c
  | none => lastItem comments

/-- The offense for an error in a note. -/
def typeOffense (x : Loaded) (n : Note) (e : Signature.Error) : Checked Offense := do
  let place ← x.spanOfBytes e.offset (e.offset + e.length)
  let comment ← commentAt n.comments place.start
  return ⟨place.clamp comment.span, "Invalid annotation found: " ++ e.message⟩

/-- Types in notes are well-formed. -/
def invalidTypes (x : Loaded) : Checked (List Offense) := do
  let blocks ← blocksWithNotes x.comments
  let found ← gather blocks fun b => b.2.filterMapM fun n => onSome (typeOffense x n) n.error
  return Offense.sort found

/-! ### Notes and the methods they are about -/

/-- The blocks not claimed yet, and the notes about parameters in those that are. -/
structure Claims where
  unclaimed : List NotedBlock
  claimed : List (Declaration × NamedType)

/-- A declaration claims the block directly above it. -/
def Claims.record (y : Claims) (d : Declaration) : Checked Claims := do
  match ← leadingBlock? d.line y.unclaimed with
  | none => return y
  | some b =>
    return ⟨y.unclaimed.eraseP fun b => CrossReference.isAbove d b.1,
      y.claimed ++ (b.2.filterMap CrossReference.parameterName?).map (d, ·)⟩

/-- The offense for a name that is not that of a parameter. -/
def unmatchedOffense (x : Loaded) (named : NamedType) : Checked Offense := do
  return ⟨← x.spanOfBytes named.offset (named.offset + Utf8.size named.name),
    "target parameter not found: `" ++ String.ofList named.name ++ "`."⟩

/-- Notes about parameters name parameters of the method below them. -/
def unmatchedNotes (x : Loaded) : Checked (List Offense) := do
  let blocks ← blocksWithNotes x.comments
  let y ← x.declarations.foldlM Claims.record ⟨blocks, []⟩
  let names := (y.claimed.filter fun (d, named) => !d.parameterNames.contains named.name).map (·.2) ++
    y.unclaimed.flatMap fun b => b.2.filterMap CrossReference.methodName?
  return Offense.sort (← names.mapM (unmatchedOffense x))

/-! ### Rules about blank lines -/

/-- Whether the line with a number is blank, as lines are that do not exist. -/
def isBlankLine (x : Loaded) (number : Nat) : Checked Bool := do
  return (← x.line number).all Text.isBlank

/-- Whether the line with a number defines a method. -/
def isDefinitionLine (x : Loaded) (number : Nat) : Checked Bool := do
  return (← x.line number).any Source.isDefinition

/-- An offense for the line after each of these comments, if it is not blank. -/
def missingBlankLines (x : Loaded) (message : String) (ends : List Comment) :
    Checked (List Offense) := do
  let found ← ends.filterMapM fun c => do
    if ← isBlankLine x (c.line + 1) then return none
    else return some ⟨← x.lineSpan (c.line + 1), message⟩
  return found.eraseDups

/-- Embedded declarations are followed by a blank line. -/
def embeddedSpacing (x : Loaded) : Checked (List Offense) :=
  missingBlankLines x "`@rbs!` comment must be followed by a blank line."
    (runEnds (fun c => (Shape.embeddedIndent? c.text).map continuesEmbedded) x.comments)

/-- Notes about variables are followed by a blank line. -/
def variableSpacing (x : Loaded) : Checked (List Offense) :=
  let isVariable := fun (c : Comment) => Shape.isVariableComment c.text
  missingBlankLines x "`@rbs` variable comment must be followed by a blank line."
    (runEnds (fun c => if isVariable c then some isVariable else none) x.comments)

/-- The offense for the line after a block that is about a method. -/
def methodSpacingOffense? (x : Loaded) (b : NotedBlock) : Checked (Option Offense) := do
  let last ← lastItem b.1.comments
  let following := (← lastLine b.1) + 1
  if ← isBlankLine x following then
    if ← isDefinitionLine x (following + 1) then
      return some (blankLineOffense (← x.lineSpan following))
    else return some (misplacedOffense last)
  else if (← isDefinitionLine x following) || b.2.all isSkip then return none
  else return some (misplacedOffense last)

/-- Notes about a method stand directly before its definition. -/
def methodSpacing (x : Loaded) : Checked (List Offense) := do
  let blocks ← blocksWithNotes x.comments
  (blocks.filter fun b => b.1.isLeading && b.2.any isAboutMethod).filterMapM
    (methodSpacingOffense? x)

/-! ### The rule about skipped methods -/

/-- The characters from the first comment of a note to its last. -/
def spanOfNote (n : Note) : Checked Span := do
  return ⟨(← item n.comments 0).start, (← lastItem n.comments).stop⟩

/-- The offense of a note that is not of use. -/
def redundantOffense (y : Note × String) : Checked Offense := do return ⟨← spanOfNote y.1, y.2⟩

/-- The offenses in a block above a declaration. -/
def redundantIn (x : Loaded) (d : Declaration) (b : NotedBlock) : Checked (List Offense) := do
  if b.2.any fun n => (SkipMark.ofNote? n).isSome then
    let redundant ← (redundantNotes none b.2).mapM redundantOffense
    return redundant ++ (redundantResult? x.comments d).toList
  else return []

/-- Methods marked as skipped or overriding have no other notes. -/
def redundantWithSkip (x : Loaded) : Checked (List Offense) := do
  return Offense.sort (← aboveDeclarations x (redundantIn x))

/-! ### All rules -/

/-- The offenses against a rule in a file. Two rules look at the texts of comments only, and have
nothing that could fail. -/
def check (x : Loaded) : Rule → Checked (List Offense)
  | .invalidComment => .ok (TypeNotes.invalidComment x.source)
  | .invalidTypes => invalidTypes x
  | .keywordSeparator => keywordSeparator x
  | .parametersSeparator => .ok (TypeNotes.parametersSeparator x.source)
  | .unmatchedNotes => unmatchedNotes x
  | .embeddedSpacing => embeddedSpacing x
  | .methodSpacing => methodSpacing x
  | .variableSpacing => variableSpacing x
  | .redundantWithSkip => redundantWithSkip x

/-! ### Blocks above declarations -/

/-- A block with the notes that it has. -/
def withNotes (b : CommentBlock) : NotedBlock := (b, b.notes)

/-- `blocksWithNotes` of a loaded file are those of the source, with their notes. -/
theorem blocksWithNotes_ofSource (s : Source) :
    blocksWithNotes (Loaded.ofSource s).comments = .ok (s.blocks.map withNotes) :=
  blocksWithNotes_eq s

theorem lastItem_cons (c : Comment) (more : List Comment) :
    lastItem (c :: more) = .ok (more.getLastD c) := by
  rw [List.getLastD_eq_getLast?]
  exact lastItem_eq_ok List.getLast?_cons

/-- `lastLine` of a block is there. -/
theorem lastLine_eq (b : CommentBlock) : lastLine b = .ok b.lastLine := by
  rw [lastLine, CommentBlock.comments, lastItem_cons]
  rfl

/-- `leadingBlock?` is found without a failure. -/
theorem leadingBlock?_eq (line : Nat) (blocks : List CommentBlock) :
    leadingBlock? line (blocks.map withNotes) =
      .ok ((TypeNotes.leadingBlock? blocks line).map withNotes) := by
  induction blocks with
  | nil => rfl
  | cons b rest ih =>
    rw [List.map_cons, leadingBlock?, lastLine_eq, ok_bind, TypeNotes.leadingBlock?, List.find?_cons]
    change (if b.isLeading && b.lastLine + 1 == line then _ else _) = _
    split
    · rename_i h
      rw [h]
      rfl
    · rename_i h
      rw [Bool.eq_false_iff.2 h, ih]
      rfl

/-- `aboveDeclarations` never fails, if what is done for a declaration and its block does not. -/
theorem aboveDeclarations_eq {α : Type} (s : Source)
    {f : Declaration → NotedBlock → Checked (List α)} {g : Declaration → CommentBlock → List α}
    (h : ∀ d b, f d (withNotes b) = .ok (g d b)) :
    aboveDeclarations (.ofSource s) f = .ok (s.declarations.flatMap fun d =>
      match TypeNotes.leadingBlock? s.blocks d.line with
      | none => []
      | some b => g d b) := by
  rw [aboveDeclarations, blocksWithNotes_ofSource, ok_bind]
  refine gather_eq_ok fun d _ => ?_
  rw [leadingBlock?_eq, ok_bind]
  cases TypeNotes.leadingBlock? s.blocks d.line with
  | none => rfl
  | some b => exact h d b

/-! ### The form of notes, and types -/

theorem keywordSeparator_eq (s : Source) :
    keywordSeparator (.ofSource s) = .ok (TypeNotes.keywordSeparator s) := by
  rw [keywordSeparator, parameterComments, aboveDeclarations_eq s fun d b => rfl]
  rfl

/-- `commentAt` finds a comment for every place in a note. -/
theorem commentAt_eq (n : Note) (offset : Nat) :
    commentAt n.comments offset = .ok ((commentAt? n.comments offset).getD n.first) := by
  rw [commentAt, commentAt?]
  cases n.comments.find? fun c => c.start ≤ offset && offset ≤ c.stop with
  | some c => rfl
  | none =>
    rw [Note.comments, lastItem_cons, List.getLast?_cons, List.getLastD_eq_getLast?]
    rfl

/-- `typeOffense` can always be reported. -/
theorem typeOffense_eq (s : Source) (n : Note) (e : Signature.Error) :
    typeOffense (.ofSource s) n e = .ok (TypeNotes.typeOffense s n e) := by
  rw [typeOffense, Loaded.spanOfBytes_ofSource, ok_bind, commentAt_eq]
  rfl

theorem invalidTypes_eq (s : Source) :
    invalidTypes (.ofSource s) = .ok (TypeNotes.invalidTypes s) := by
  have hblock (b : NotedBlock) : b.2.filterMapM
      (fun n => onSome (typeOffense (.ofSource s) n) n.error) =
      .ok (b.2.filterMap fun n => n.error.map (TypeNotes.typeOffense s n)) :=
    filterMapM_eq_ok fun n _ => onSome_eq (typeOffense_eq s n) n.error
  rw [invalidTypes, blocksWithNotes_ofSource, ok_bind, gather_eq_ok fun b _ => hblock b, ok_bind,
    pure_eq, List.flatMap_map]
  rfl

/-! ### Notes and the methods they are about -/

/-- A cross reference, with the notes of blocks. -/
def Claims.ofReference (y : CrossReference) : Claims := ⟨y.unclaimed.map withNotes, y.claimed⟩

/-- `record` never fails, and claims the same block. -/
theorem record_eq (y : CrossReference) (d : Declaration) :
    (Claims.ofReference y).record d = .ok (.ofReference (y.record d)) := by
  rw [Claims.record, Claims.ofReference, leadingBlock?_eq, ok_bind, CrossReference.record]
  change (match (y.unclaimed.find? (CrossReference.isAbove d)).map withNotes with
    | none => _ | some b => _) = _
  cases y.unclaimed.find? (CrossReference.isAbove d) with
  | none => rfl
  | some b =>
    simp only [Option.map_some, List.eraseP_map, pure_eq]
    rfl

/-- `unmatchedOffense` can always be reported. -/
theorem unmatchedOffense_eq (s : Source) (named : NamedType) :
    unmatchedOffense (.ofSource s) named = .ok (CrossReference.offense s named) := by
  rw [unmatchedOffense, Loaded.spanOfBytes_ofSource]
  rfl

theorem unmatchedNotes_eq (s : Source) :
    unmatchedNotes (.ofSource s) = .ok (TypeNotes.unmatchedNotes s) := by
  have hrecord := foldlM_eq_ok Claims.ofReference record_eq s.declarations (.ofSource s)
  rw [unmatchedNotes, blocksWithNotes_ofSource, ok_bind]
  change (s.declarations.foldlM Claims.record (Claims.ofReference (.ofSource s)) >>= _) = _
  rw [hrecord, ok_bind]
  simp only [mapM_eq_ok fun named _ => unmatchedOffense_eq s named, ok_bind, pure_eq,
    Claims.ofReference, List.flatMap_map]
  rfl

/-! ### Blank lines -/

theorem isBlankLine_eq (s : Source) (number : Nat) :
    isBlankLine (.ofSource s) number = .ok (s.isBlankLine number) := by
  rw [isBlankLine, Loaded.line_ofSource]
  rfl

theorem isDefinitionLine_eq (s : Source) (number : Nat) :
    isDefinitionLine (.ofSource s) number = .ok (s.isDefinitionLine number) := by
  rw [isDefinitionLine, Loaded.line_ofSource]
  rfl

/-- `lineSpan` can be looked up if the line, or one after it, exists. -/
theorem lineSpan_ofSource_of_line {s : Source} {number index : Nat} (hle : number ≤ index)
    (h : (s.line? (index + 1)).isSome) :
    ∃ span, s.lineSpan? (number + 1 : Nat) = some span ∧
      (Loaded.ofSource s).lineSpan (number + 1) = .ok span := by
  have hindex : index < s.lines.length := by
    rw [Source.line?, Option.isSome_map] at h
    simpa using h
  have hspan : (s.lineSpan? (number + 1 : Nat)).isSome := by
    rw [Source.lineSpan?_succ, Option.isSome_map, List.getElem?_eq_getElem (by omega)]
    rfl
  obtain ⟨span, hspan⟩ := Option.isSome_iff_exists.1 hspan
  exact ⟨span, hspan, Loaded.lineSpan_ofSource hspan⟩

/-- Lines that are not blank exist, so that `missingBlankLines` never fails. -/
theorem missingBlankLines_eq (s : Source) (message : String) (ends : List Comment) :
    missingBlankLines (.ofSource s) message ends =
      .ok (TypeNotes.missingBlankLines s message ends) := by
  rw [missingBlankLines, filterMapM_eq_ok fun c _ => ?_]
  · rfl
  · rw [isBlankLine_eq, ok_bind]
    split
    · rename_i hblank
      rw [if_pos hblank]
      rfl
    · rename_i hblank
      have hline : (s.line? (c.line + 1)).isSome := by
        rw [Source.isBlankLine] at hblank
        cases hline : s.line? (c.line + 1) with
        | none => simp [hline] at hblank
        | some line => rfl
      obtain ⟨span, hspan, hlookup⟩ := lineSpan_ofSource_of_line (Nat.le_refl _) hline
      rw [if_neg hblank, hlookup, hspan]
      rfl

/-- `methodSpacingOffense?` never fails. -/
theorem methodSpacingOffense?_eq (s : Source) (b : CommentBlock) :
    methodSpacingOffense? (.ofSource s) (withNotes b) =
      .ok (TypeNotes.methodSpacingOffense? s b) := by
  have hlast : lastItem (withNotes b).1.comments = .ok b.last := lastItem_cons ..
  have hline : lastLine (withNotes b).1 = .ok b.lastLine := lastLine_eq b
  rw [methodSpacingOffense?, hlast, ok_bind, hline, ok_bind, TypeNotes.methodSpacingOffense?]
  simp only [isBlankLine_eq, isDefinitionLine_eq, ok_bind]
  split
  · split
    · rename_i hdefinition
      have hsome : (s.line? (b.lastLine + 1 + 1)).isSome := by
        rw [Source.isDefinitionLine, Option.any_eq_true] at hdefinition
        obtain ⟨line, hline, -⟩ := hdefinition
        rw [hline]
        rfl
      obtain ⟨span, hspan, hlookup⟩ := lineSpan_ofSource_of_line (Nat.le_succ _) hsome
      rw [hlookup, hspan]
      rfl
    · rfl
  · change (if s.isDefinitionLine (b.lastLine + 1) || b.notes.all isSkip then _ else _) = _
    by_cases hdefinition : s.isDefinitionLine (b.lastLine + 1) || b.notes.all isSkip
    · rw [if_pos hdefinition, if_pos hdefinition, pure_eq]
    · rw [if_neg hdefinition, if_neg hdefinition, pure_eq]

theorem methodSpacing_eq (s : Source) :
    methodSpacing (.ofSource s) = .ok (TypeNotes.methodSpacing s) := by
  have hblock : ∀ b ∈ s.blocks.map withNotes, methodSpacingOffense? (.ofSource s) b =
      .ok (TypeNotes.methodSpacingOffense? s b.1) := by
    intro b hb
    obtain ⟨b, -, rfl⟩ := List.mem_map.1 hb
    exact methodSpacingOffense?_eq s b
  rw [methodSpacing, blocksWithNotes_ofSource, ok_bind,
    filterMapM_eq_ok fun b hb => hblock b (List.mem_filter.1 hb).1, List.filter_map,
    List.filterMap_map]
  rfl

/-! ### Skipped methods -/

theorem spanOfNote_eq (n : Note) : spanOfNote n = .ok n.span := by
  rw [spanOfNote, Note.comments, lastItem_cons]
  rfl

theorem redundantOffense_eq (y : Note × String) : redundantOffense y = .ok ⟨y.1.span, y.2⟩ := by
  rw [redundantOffense, spanOfNote_eq]
  rfl

/-- `redundantIn` never fails. -/
theorem redundantIn_eq (s : Source) (d : Declaration) (b : CommentBlock) :
    redundantIn (.ofSource s) d (withNotes b) =
      .ok (if b.notes.any fun n => (SkipMark.ofNote? n).isSome then
        (redundantNotes none b.notes).map (fun y => ⟨y.1.span, y.2⟩) ++
          (redundantResult? s.comments d).toList
      else []) := by
  rw [redundantIn, mapM_eq_ok fun y _ => redundantOffense_eq y, ok_bind, pure_eq, pure_eq,
    apply_ite Except.ok]
  rfl

theorem redundantWithSkip_eq (s : Source) :
    redundantWithSkip (.ofSource s) = .ok (TypeNotes.redundantWithSkip s) := by
  rw [redundantWithSkip, aboveDeclarations_eq s (redundantIn_eq s)]
  rfl

/-! ### All rules -/

/-- `check` never fails. -/
theorem check_eq (s : Source) (rule : Rule) : check (.ofSource s) rule = .ok (rule.check s) := by
  cases rule with
  | invalidComment => rfl
  | invalidTypes => exact invalidTypes_eq s
  | keywordSeparator => exact keywordSeparator_eq s
  | parametersSeparator => rfl
  | unmatchedNotes => exact unmatchedNotes_eq s
  | embeddedSpacing => exact missingBlankLines_eq s _ _
  | methodSpacing => exact methodSpacing_eq s
  | variableSpacing => exact missingBlankLines_eq s _ _
  | redundantWithSkip => exact redundantWithSkip_eq s

end TypeNotes.Checked
