/-!
# Terminal commands in a text

What a terminal shows of a text that it reads byte for byte.  An escape character starts a command
whose end depends on its form; controls other than tabs and line ends are not shown.  Main
statements: a text without controls is shown as it is, and an escape character is never shown.
-/

namespace DataCatalog.Text

/-- What a terminal is reading: text or one of the forms of a command.  A control sequence starts
with a bracket.  A device control has parameters before its content; from there on it is a control
string, as commands for applications and private messages are from the start.  A system command is
a string as well, with an end of its own. -/
inductive TerminalState where
  | text
  | escape
  | intermediate
  | controlSequence
  | deviceControl
  | deviceParameters
  | deviceIntermediate
  | controlString
  | systemCommand
  deriving DecidableEq

/-- Does the control move the place of writing?  Such controls are part of a text. -/
def movesPlace (c : Char) : Bool :=
  c == '\t' || c == '\n' || c == '\x0c' || c == '\r'

/-- Does the character end a control string?  The terminator is a byte, and it counts also as one
of the bytes that a character is written with. -/
def holdsTerminator (c : Char) : Bool :=
  (String.utf8EncodeChar c).contains 0x9c

namespace TerminalState

/-- The state after the sign that says what an escape character starts. -/
def ofSign (c : Char) : TerminalState :=
  match c with
  | '[' => .controlSequence
  | 'P' => .deviceControl
  | 'X' | '^' | '_' => .controlString
  | ']' => .systemCommand
  | _ => .text

/-- The state after a character whose meaning depends on the state.  Controls and characters beyond
ASCII leave a command where it is, if they do not end it. -/
def next (state : TerminalState) (c : Char) : TerminalState :=
  match state with
  | .text => .text
  | .escape =>
    if movesPlace c then .text
    else if c < ' ' ∨ '\x7f' ≤ c then .escape
    else if c < '0' then .intermediate
    else ofSign c
  | .intermediate =>
    if movesPlace c ∨ '0' ≤ c ∧ c < '\x7f' then .text else .intermediate
  | .controlSequence =>
    if movesPlace c ∨ '@' ≤ c ∧ c < '\x7f' then .text else .controlSequence
  | .deviceControl =>
    if c < ' ' ∨ '\x7f' ≤ c then .deviceControl
    else if c < '0' then .deviceIntermediate
    else if c < '@' then .deviceParameters
    else .controlString
  | .deviceParameters =>
    if c < ' ' ∨ '\x7f' ≤ c then .deviceParameters
    else if c < '0' then .deviceIntermediate
    else if c < '<' then .deviceParameters
    else .controlString
  | .deviceIntermediate =>
    if '0' ≤ c ∧ c < '\x7f' then .controlString else .deviceIntermediate
  | .controlString => if holdsTerminator c then .text else .controlString
  | .systemCommand => if c = '\x07' then .text else .systemCommand

def shows (state : TerminalState) (c : Char) : Bool :=
  match state with
  | .text => movesPlace c || ' ' ≤ c && c != '\x7f'
  | .escape | .intermediate | .controlSequence => movesPlace c
  | _ => false

end TerminalState

/-- What is shown of a text.  Wherever it stands, an escape character starts a command, and a
cancelling control ends one. -/
def shownFrom (state : TerminalState) (s : List Char) : List Char :=
  match s with
  | [] => []
  | c :: rest =>
    if c = '\x1b' then shownFrom .escape rest
    else if c = '\x18' ∨ c = '\x1a' then shownFrom .text rest
    else if state.shows c then c :: shownFrom (state.next c) rest
    else shownFrom (state.next c) rest

def shownText (s : String) : String :=
  String.ofList (shownFrom .text s.toList)

/-- A text without controls is shown as it is. -/
theorem shownFrom_text_eq_self {s : List Char} (h : ∀ c ∈ s, ' ' ≤ c ∧ c ≠ '\x7f') :
    shownFrom .text s = s := by
  induction s with
  | nil => rfl
  | cons c rest ih =>
    obtain ⟨hblank, hdel⟩ := h c List.mem_cons_self
    have hrest := ih fun d hd => h d (List.mem_cons_of_mem c hd)
    have hesc : c ≠ '\x1b' := fun he => absurd (he ▸ hblank) (by decide)
    have hcan : ¬(c = '\x18' ∨ c = '\x1a') := by
      rintro (he | he) <;> exact absurd (he ▸ hblank) (by decide)
    simp [shownFrom, hesc, hcan, hrest, TerminalState.shows, TerminalState.next, hblank, hdel]

/-- An escape character is never shown. -/
theorem escape_notMem_shownFrom (state : TerminalState) (s : List Char) :
    '\x1b' ∉ shownFrom state s := by
  induction s generalizing state with
  | nil => simp [shownFrom]
  | cons c rest ih =>
    rw [shownFrom]
    split
    · exact ih _
    · rename_i hesc
      split
      · exact ih _
      · split
        · rw [List.mem_cons, not_or]
          exact ⟨fun he => hesc he.symm, ih _⟩
        · exact ih _

example : shownFrom .text "\x1b[1mx".toList = ['x'] := by decide

example : shownFrom .text "\x1b]0;title\x07x\x01".toList = ['x'] := by decide

example : shownFrom .text "\x1bXa\u00dcx".toList = ['x'] := by decide

example : shownFrom .text "\x1b[\u00dcmx".toList = ['x'] := by decide

end DataCatalog.Text
