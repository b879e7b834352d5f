import Pf2eParser.Text.Case
import Pf2eParser.Text.Search

/-!
# From book pages to labelled blocks

`book_adapter.rs`: three converters, one per page layout of the book (actions, feats, the glossary
of conditions).  Each splits the page into entries with its own rule for headings, renders every
entry as a labelled block, and joins the blocks with the separator of the block parser.

All three splitters keep the entries that are finished and the one that is still open; that state is
`Splitting`, whatever an entry is.
-/

namespace Pf2eParser

open Text

/-- What stands between two rendered blocks. -/
def blockJoint : Str := "\n---\n".toList

/-! ## The state of a splitter -/

/-- The finished entries, and the one that is still open. -/
structure Splitting (Entry : Type) where
  entries : List Entry := []
  current : Option Entry := none

namespace Splitting

variable {Entry : Type}

/-- A heading finishes the open entry and opens another one. -/
def start (state : Splitting Entry) (entry : Entry) : Splitting Entry where
  entries := state.entries ++ state.current.toList
  current := some entry

/-- Any other line goes to the open entry, if there is one. -/
def push (state : Splitting Entry) (append : Entry → Entry) : Splitting Entry where
  entries := state.entries
  current := state.current.map append

/-- The end of the page finishes the open entry. -/
def finish (state : Splitting Entry) : List Entry := state.entries ++ state.current.toList

end Splitting

variable (U : CaseTables)

/-! ## Reading headings and paragraphs -/

/-- The text has letters, and all of them are upper case. -/
def isShouty (text : Str) : Bool :=
  text.any U.isAlphabetic && (text.filter U.isAlphabetic).all U.isUppercase

/-- The word with its first character in upper case and the rest in lower case. -/
def titleCaseWord : Str → Str
  | [] => []
  | first :: rest => U.upper first ++ U.toLowercase rest

/-- The words of the text in title case, joined by single spaces. -/
def titleCase (text : Str) : Str := [' '].intercalate ((splitWhitespace text).map (titleCaseWord U))

/-- One round of the paragraph loop: a blank line closes the paragraph. -/
def groupStep (state : List Str × List Str) (line : Str) : List Str × List Str :=
  if line.isEmpty then
    if state.2.isEmpty then state else (state.1 ++ [[' '].intercalate state.2], [])
  else (state.1, state.2 ++ [line])

/-- The lines grouped into paragraphs on blank-line boundaries, each joined by single spaces. -/
def groupParagraphs (lines : List Str) : List Str :=
  let (paragraphs, current) := lines.foldl groupStep ([], [])
  if current.isEmpty then paragraphs else paragraphs ++ [[' '].intercalate current]

/-- The value of a label that opens a paragraph, up to its first sentence end, and what follows it
in the paragraph. -/
def extractBookLabel (paragraph label : Str) : Option (Str × Option Str) :=
  ((stripPrefix label paragraph).bind (stripPrefix [' '])).map fun rest =>
    match find ". ".toList rest with
    | some index =>
      let remainder := trim (rest.drop (index + 1))
      (trim (rest.take (index + 1)), if remainder.isEmpty then none else some remainder)
    | none => (trim rest, none)

/-! ## Actions -/

/-- The bracketed action costs that end a heading, with the rule types that they stand for. -/
def actionCostMarkers : List (Str × Str) :=
  [("[one-action]".toList, "Action".toList), ("[two-actions]".toList, "Action".toList),
    ("[three-actions]".toList, "Action".toList), ("[free-action]".toList, "Free Action".toList),
    ("[reaction]".toList, "Reaction".toList)]

/-- An action, a reaction or a free action of a page. -/
structure RawEntry where
  name : Str
  ruleTypeLabel : Str
  bodyLines : List Str
  deriving DecidableEq

/-- The name and the rule type of a heading: a shouty name with an action cost. -/
def detectHeading (line : Str) : Option (Str × Str) :=
  actionCostMarkers.findSome? fun (marker, ruleTypeLabel) =>
    (stripSuffix marker line).bind fun front =>
      let name := trim front
      if !name.isEmpty && isShouty U name then some (titleCase U name, ruleTypeLabel) else none

/-- One round of the splitter for actions. -/
def entryStep (state : Splitting RawEntry) (rawLine : Str) : Splitting RawEntry :=
  let line := trim rawLine
  match detectHeading U line with
  | some (name, ruleTypeLabel) => state.start ⟨name, ruleTypeLabel, []⟩
  | none => state.push fun entry => { entry with bodyLines := entry.bodyLines ++ [line] }

/-- The actions of a page. -/
def splitEntries (text : Str) : List RawEntry := ((lines text).foldl (entryStep U) {}).finish

/-- The word that opens a requirements clause. -/
def requirementsWord : Str := "Requirements".toList

/-- The word that opens a trigger clause. -/
def triggerWord : Str := "Trigger".toList

/-- What the paragraphs of an action are sorted into. -/
structure BlockParts where
  traits : List Str := []
  trigger : Option Str := none
  requirements : Option Str := none
  effectParts : List Str := []
  deriving DecidableEq

/-- One round of the loop over the paragraphs: only the paragraph at index 0 can be a trait, a label
is looked for at the start of a paragraph, and everything else is effect. -/
def BlockParts.paragraph (parts : BlockParts) (index : ℕ) (paragraph : Str) : BlockParts :=
  if index = 0 ∧ isShouty U paragraph ∧ (splitWhitespace paragraph).length ≤ 2 then
    { parts with traits := parts.traits ++ [U.toLowercase paragraph] }
  else match extractBookLabel paragraph requirementsWord with
    | some (value, leftover) =>
      { parts with
        requirements := some value
        effectParts := parts.effectParts ++ leftover.toList }
    | none => match extractBookLabel paragraph triggerWord with
      | some (value, leftover) =>
        { parts with
          trigger := some value
          effectParts := parts.effectParts ++ leftover.toList }
      | none => { parts with effectParts := parts.effectParts ++ [paragraph] }

/-- The loop over the paragraphs of an action. -/
def readParagraphs (paragraphs : List Str) : BlockParts :=
  paragraphs.zipIdx.foldl (fun parts entry => parts.paragraph U entry.2 entry.1) {}

/-- A labelled line for a list of items, unless the list is empty. -/
def listLine (label joint : String) (items : List Str) : List Str :=
  if items.isEmpty then [] else [label.toList ++ joint.toList.intercalate items]

/-- A labelled line for a value, if there is one. -/
def valueLine (label : String) (value : Option Str) : List Str :=
  value.toList.map fun value => label.toList ++ value

/-- The lines of the block of an action. -/
def entryBlockLines (entry : RawEntry) : List Str :=
  let parts := readParagraphs U (groupParagraphs entry.bodyLines)
  [entry.ruleTypeLabel, "Name: ".toList ++ entry.name] ++ listLine "Traits: " ", " parts.traits ++
    valueLine "Trigger: " parts.trigger ++ valueLine "Requirements: " parts.requirements ++
    listLine "Effect: " " " parts.effectParts

/-- The block of an action. -/
def renderBlock (entry : RawEntry) : Str := ['\n'].intercalate (entryBlockLines U entry)

/-- Convert a page of actions. -/
def convertPage (text : Str) : Str :=
  blockJoint.intercalate ((splitEntries U text).map (renderBlock U))

/-! ## Feats -/

/-- How many shouty lines a heading block can have before it is given up. -/
def maxHeadingBlockLines : ℕ := 8

/-- A feat of a page. -/
structure RawFeatEntry where
  name : Str
  traits : List Str
  bodyLines : List Str
  deriving DecidableEq

/-- The line is `FEAT` and a level. -/
def isFeatLevelMarker (line : Str) : Bool :=
  match stripPrefix "FEAT ".toList line with
  | some rest => !rest.isEmpty && rest.all Char.isDigit
  | none => false

/-- The scan over the lines of a heading block, from the line at `index` on: the shouty lines,
whether there is a level marker among the lines, and the index of the first line behind the block.
-/
def scanHeadingBlock : List Str → ℕ → List Str → Bool → List Str × Bool × ℕ
  | [], index, shoutyLines, sawFeatMarker => (shoutyLines, sawFeatMarker, index)
  | line :: rest, index, shoutyLines, sawFeatMarker =>
    if maxHeadingBlockLines < shoutyLines.length then (shoutyLines, sawFeatMarker, index)
    else if line.isEmpty then scanHeadingBlock rest (index + 1) shoutyLines sawFeatMarker
    else if isFeatLevelMarker line then scanHeadingBlock rest (index + 1) shoutyLines true
    else if isShouty U line then
      scanHeadingBlock rest (index + 1) (shoutyLines ++ [line]) sawFeatMarker
    else (shoutyLines, sawFeatMarker, index)

/-- The distinct items in lower case, in the order of their first occurrence. -/
def distinctTraits (traitLines : List Str) : List Str :=
  traitLines.foldl (fun traits line =>
    let word := U.toLowercase line
    if word ∈ traits then traits else traits ++ [word]) []

/-- The name and the traits of the heading block that starts at the given line, and the index of the
first line behind it; there is none without a level marker. -/
def tryReadHeadingBlock (lines : List Str) (start : ℕ) : Option (Str × List Str × ℕ) :=
  match scanHeadingBlock U (lines.drop start) start [] false with
  | (nameLine :: traitLines, true, index) =>
    some (titleCase U nameLine, distinctTraits U traitLines, index)
  | _ => none

/-- A scan does not go back, and it moves on with every shouty line. -/
theorem scanHeadingBlock_index (rest : List Str) (index : ℕ) (shoutyLines : List Str) (saw : Bool) :
    index + (scanHeadingBlock U rest index shoutyLines saw).1.length ≤
      (scanHeadingBlock U rest index shoutyLines saw).2.2 + shoutyLines.length := by
  induction rest generalizing index shoutyLines saw with
  | nil => simp [scanHeadingBlock]
  | cons line rest ih =>
    rw [scanHeadingBlock]
    split
    · simp
    split
    · have h := ih (index + 1) shoutyLines saw
      omega
    split
    · have h := ih (index + 1) shoutyLines true
      omega
    split
    · have h := ih (index + 1) (shoutyLines ++ [line]) saw
      rw [List.length_append, List.length_singleton] at h
      omega
    · simp

/-- A heading block is not empty. -/
theorem lt_of_tryReadHeadingBlock {lines : List Str} {start : ℕ} {name : Str} {traits : List Str}
    {next : ℕ} (h : tryReadHeadingBlock U lines start = some (name, traits, next)) :
    start < next := by
  have hscan := scanHeadingBlock_index U (lines.drop start) start [] false
  unfold tryReadHeadingBlock at h
  split at h
  case h_1 heq =>
    simp only [Option.some.injEq, Prod.mk.injEq] at h
    rw [heq] at hscan
    simp only [List.length_cons, List.length_nil] at hscan
    omega
  case h_2 => simp at h

/-- The loop of the splitter for feats, from the line at `index` on. -/
def splitFeatFrom (lines : List Str) (index : ℕ) (state : Splitting RawFeatEntry) :
    List RawFeatEntry :=
  if h : index < lines.length then
    let line := lines[index]
    if line.isEmpty then splitFeatFrom lines (index + 1) state
    else
      -- a level marker is shouty itself, but it never starts a heading block
      match hread : if isShouty U line && !isFeatLevelMarker line then
          tryReadHeadingBlock U lines index else none with
      | some (name, traits, next) => splitFeatFrom lines next (state.start ⟨name, traits, []⟩)
      | none => splitFeatFrom lines (index + 1)
          (state.push fun entry => { entry with bodyLines := entry.bodyLines ++ [line] })
  else state.finish
termination_by lines.length - index
decreasing_by
  · omega
  · have hlt : index < next := by
      split at hread
      · exact lt_of_tryReadHeadingBlock U hread
      · simp at hread
    omega
  · omega

/-- The feats of a page. -/
def splitFeatEntries (text : Str) : List RawFeatEntry :=
  splitFeatFrom U ((lines text).map trim) 0 {}

/-- The lines of the block of a feat. -/
def featBlockLines (entry : RawFeatEntry) : List Str :=
  ["Feat".toList, "Name: ".toList ++ entry.name] ++ listLine "Traits: " ", " entry.traits ++
    listLine "Effect: " " " (groupParagraphs entry.bodyLines)

/-- The block of a feat. -/
def renderFeatBlock (entry : RawFeatEntry) : Str := ['\n'].intercalate (featBlockLines entry)

/-- Convert a page of feats. -/
def convertFeatPage (text : Str) : Str :=
  blockJoint.intercalate ((splitFeatEntries U text).map renderFeatBlock)

/-! ## Conditions -/

/-- A condition of the glossary. -/
structure RawConditionEntry where
  name : Str
  bodyLines : List Str
  deriving DecidableEq

/-- The line has digits only. -/
def isPageNumber (line : Str) : Bool := !line.isEmpty && line.all Char.isDigit

/-- An upper-case character, and behind it no letter that is not lower case. -/
def isStrictTitleCase : Str → Bool
  | first :: rest => U.isUppercase first && rest.all fun c => !U.isAlphabetic c || U.isLowercase c
  | [] => false

/-- One or two words in strict title case. -/
def isConditionHeading (line : Str) : Bool :=
  let words := splitWhitespace line
  !words.isEmpty && decide (words.length ≤ 2) && words.all (isStrictTitleCase U)

/-- One round of the splitter for conditions; the flag says whether the anchor line has been seen.
-/
def conditionStep (state : Bool × Splitting RawConditionEntry) (rawLine : Str) :
    Bool × Splitting RawConditionEntry :=
  let line := trim rawLine
  if !state.1 then (eqIgnoreAsciiCase line "List of Conditions".toList, state.2)
  else if line.isEmpty || isPageNumber line then state
  else if isConditionHeading U line then (true, state.2.start ⟨line, []⟩)
  else (true, state.2.push fun entry => { entry with bodyLines := entry.bodyLines ++ [line] })

/-- The conditions of a page. -/
def splitConditionEntries (text : Str) : List RawConditionEntry :=
  ((lines text).foldl (conditionStep U) (false, {})).2.finish

/-- The lines of the block of a condition. -/
def conditionBlockLines (entry : RawConditionEntry) : List Str :=
  let effect := trim ([' '].intercalate entry.bodyLines)
  ["Condition".toList, "Name: ".toList ++ entry.name] ++
    if effect.isEmpty then [] else ["Effect: ".toList ++ effect]

/-- The block of a condition. -/
def renderConditionBlock (entry : RawConditionEntry) : Str :=
  ['\n'].intercalate (conditionBlockLines entry)

/-- Convert a page of the glossary of conditions. -/
def convertConditionPage (text : Str) : Str :=
  blockJoint.intercalate ((splitConditionEntries U text).map renderConditionBlock)

/-- A trait line under the heading is lower-cased, and a clause that opens the text is labelled. -/
example : convertPage .ascii "STEP [one-action]\nMOVE\n\nRequirements You stand.\nGo on.".toList =
    "Action\nName: Step\nTraits: move\nRequirements: You stand.\nEffect: Go on.".toList := by
  decide +kernel

end Pf2eParser
