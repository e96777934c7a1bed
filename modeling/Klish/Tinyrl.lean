import Klish.Hist
import Klish.Lib.Buffers
import Klish.Lib.Utf8

/-!
# The line editor

The line is a buffer with its size, the length of the string in it and the position of the cursor.
An operation has no result if it reads or writes outside the buffer. The keys come byte by byte.
-/

namespace Klish

/-- `line_t` -/
structure Line where
  str : Bytes
  size : ℕ
  len : ℕ
  pos : ℕ

/-- The string that begins at a place of a buffer. -/
def cstrAt (str : Bytes) (pos : ℕ) : Bytes := (str.drop pos).takeWhile (· ≠ 0)

namespace Line

/-- `tinyrl_new`: the first call of `tinyrl_line_extend`. -/
def new : Line where
  str := List.replicate 80 0
  size := 80
  len := 0
  pos := 0

variable (junk : ℕ → UInt8) (line : Line)

/-- `tinyrl_line_extend` -/
def extend (len : ℕ) : Line :=
  if line.len ≥ len then line
  else
    let chunkNum := len / 80 + if len % 80 > 0 then 1 else 0
    { line with str := Buffer.resize junk line.str (chunkNum * 80), size := chunkNum * 80 }

/-- `tinyrl_line_insert` -/
def insert (text : Bytes) : Option Line :=
  if text.length = 0 then some line
  else do
    let line := line.extend junk (line.len + text.length + 1)
    let moved :=
      if line.pos < line.len then
        Buffer.move line.str (line.pos + text.length) line.pos (line.len - line.pos)
      else some line.str
    let str ← moved
    let str ← Buffer.write str line.pos text
    let str ← Buffer.write str (line.len + text.length) [0]
    some { line with str, len := line.len + text.length, pos := line.pos + text.length }

/-- `tinyrl_line_delete` -/
def delete (start len : ℕ) : Option Line :=
  if start ≥ line.len then some line
  else do
    let cut :=
      if start + len ≥ line.len then some { line with len := start }
      else
        (Buffer.move line.str start (start + len) (line.len - (start + len))).map fun str =>
          { line with str, len := line.len - len }
    let line ← cut
    let str ← Buffer.write line.str line.len [0]
    some { line with str, pos := start }

/-- `tinyrl_reset_line` -/
def reset : Option Line := line.delete 0 line.len

/-- `tinyrl_line_replace` -/
def replace (text : Bytes) : Option Line :=
  if text = [] then line.reset
  else do
    let line := line.extend junk (text.length + 1)
    let str ← Buffer.write line.str 0 text
    let str ← Buffer.write str text.length [0]
    some { line with str, len := text.length, pos := text.length }

end Line

/-- `utf8_move_left` -/
def utf8MoveLeft (line : Bytes) : ℕ → ℕ
  | 0 => 0
  | pos + 1 => if pos > 0 ∧ Utf8.isTail (line.getD pos 0) then utf8MoveLeft line pos else pos

/-- `utf8_move_right` -/
def utf8MoveRight (line : Bytes) (curPos : ℕ) : ℕ :=
  match line.drop curPos with
  | [] => curPos
  | b :: rest =>
    if b = 0 then curPos
    else curPos + 1 + (rest.takeWhile fun b => b ≠ 0 && Utf8.isTail b).length

theorem utf8MoveLeft_lt (line : Bytes) (pos : ℕ) : utf8MoveLeft line (pos + 1) < pos + 1 := by
  induction pos with
  | zero => simp [utf8MoveLeft]
  | succ pos ih =>
    rw [utf8MoveLeft]
    split
    · omega
    · omega

/-- `isspace` -/
def isspace (b : UInt8) : Bool := b = 32 || (9 ≤ b && b ≤ 13)

/-- `struct tinyrl_s`, what the keys use of it. -/
structure Tinyrl where
  line : Line
  hist : Hist
  utf8 : Bool
  /-- The text of the last kill. -/
  buffer : Option Bytes
  utf8Cont : ℕ
  escCont : Bool
  escSeq : Bytes
  escP : ℕ

namespace Tinyrl

/-- `tinyrl_new` -/
def new (hist : Hist) : Tinyrl where
  line := .new
  hist := hist
  utf8 := true
  buffer := none
  utf8Cont := 0
  escCont := false
  escSeq := List.replicate 10 0
  escP := 0

variable (junk : ℕ → UInt8) (t : Tinyrl)

def withLine (line : Option Line) : Option Tinyrl := line.map fun line => { t with line }

/-- The position of the character on the left. -/
def moveLeft (pos : ℕ) : ℕ := if t.utf8 then utf8MoveLeft t.line.str pos else pos - 1

/-- The position of the character on the right. -/
def moveRight (pos : ℕ) : ℕ := if t.utf8 then utf8MoveRight t.line.str pos else pos + 1

/-- `tinyrl_key_default`, without a handler for hotkeys. -/
def keyDefault (key : UInt8) : Option Tinyrl :=
  if key > 31 then t.withLine (t.line.insert junk [key]) else some t

/-- `tinyrl_key_crlf`, what it does with the line and the history. -/
def keyCrlf : Option Tinyrl :=
  (t.withLine t.line.reset).map fun t => { t with hist := t.hist.histPosReset }

/-- `tinyrl_key_interrupt` -/
def keyInterrupt : Option Tinyrl := t.keyCrlf

/-- `tinyrl_key_start_of_line` -/
def keyStartOfLine : Option Tinyrl := some { t with line.pos := 0 }

/-- `tinyrl_key_end_of_line` -/
def keyEndOfLine : Option Tinyrl := some { t with line.pos := t.line.len }

/-- `tinyrl_key_kill` -/
def keyKill : Option Tinyrl :=
  if t.line.pos = t.line.len then some { t with buffer := none }
  else
    withLine { t with buffer := some (cstrAt t.line.str t.line.pos) }
      (t.line.delete t.line.pos t.line.len)

/-- `tinyrl_key_yank` -/
def keyYank : Option Tinyrl :=
  match t.buffer with
  | none => some t
  | some text => t.withLine (t.line.insert junk text)

/-- `tinyrl_key_up` -/
def keyUp : Option Tinyrl :=
  match t.hist.tinyrlKeyUp (cstrAt t.line.str 0) with
  | (hist, none) => some { t with hist }
  | (hist, some str) => withLine { t with hist } (t.line.replace junk str)

/-- `tinyrl_key_down` -/
def keyDown : Option Tinyrl :=
  match t.hist.tinyrlKeyDown with
  | (hist, none) => some { t with hist }
  | (hist, some str) => withLine { t with hist } (t.line.replace junk str)

/-- `tinyrl_key_left` -/
def keyLeft : Option Tinyrl :=
  if t.line.pos = 0 then some t else some { t with line.pos := t.moveLeft t.line.pos }

/-- `tinyrl_key_right` -/
def keyRight : Option Tinyrl :=
  if t.line.pos = t.line.len then some t
  else some { t with line.pos := t.moveRight t.line.pos }

/-- `tinyrl_key_backspace` -/
def keyBackspace : Option Tinyrl :=
  if t.line.pos = 0 then some t
  else
    let newPos := t.moveLeft t.line.pos
    t.withLine (t.line.delete newPos (t.line.pos - newPos))

/-- `tinyrl_key_delete` -/
def keyDelete : Option Tinyrl :=
  if t.line.pos = t.line.len then some t
  else
    let newPos := t.moveRight t.line.pos
    t.withLine (t.line.delete t.line.pos (newPos - t.line.pos))

theorem moveLeft_lt (pos : ℕ) : t.moveLeft (pos + 1) < pos + 1 := by
  unfold moveLeft
  split
  · exact utf8MoveLeft_lt _ _
  · omega

/-- One of the loops of `tinyrl_key_backword`: to the left up to a character that stops it. -/
def skipLeft (stops : UInt8 → Bool) : ℕ → ℕ
  | 0 => 0
  | pos + 1 =>
    if stops (t.line.str.getD (t.moveLeft (pos + 1)) 0) then pos + 1
    else skipLeft stops (t.moveLeft (pos + 1))
  termination_by pos => pos
  decreasing_by exact t.moveLeft_lt pos

/-- `tinyrl_key_backword` -/
def keyBackword : Option Tinyrl :=
  if t.line.pos = 0 then some { t with buffer := none }
  else
    let newPos := t.skipLeft isspace (t.skipLeft (fun b => !isspace b) t.line.pos)
    if newPos = t.line.pos then some { t with buffer := none }
    else
      withLine { t with buffer := some ((cstrAt t.line.str newPos).take (t.line.pos - newPos)) }
        (t.line.delete newPos (t.line.pos - newPos))

/-- `tinyrl_key_erase_line` -/
def keyEraseLine : Option Tinyrl :=
  if t.line.len = 0 then some { t with buffer := none }
  else withLine { t with buffer := some (cstrAt t.line.str 0) } (t.line.delete 0 t.line.len)

/-- `tinyrl_key_clear_screen`, which changes only what is displayed. -/
def keyClearScreen : Option Tinyrl := some t

/-- `tinyrl_key_tab` -/
def keyTab : Option Tinyrl := some t

/-- The handlers that `tinyrl_new` sets. -/
def handler (key : UInt8) : Option Tinyrl :=
  if key = 13 ∨ key = 10 then t.keyCrlf
  else if key = 3 then t.keyInterrupt
  else if key = 127 ∨ key = 8 then t.keyBackspace
  else if key = 4 then t.keyDelete
  else if key = 12 then t.keyClearScreen
  else if key = 21 then t.keyEraseLine
  else if key = 1 then t.keyStartOfLine
  else if key = 5 then t.keyEndOfLine
  else if key = 11 then t.keyKill
  else if key = 25 then t.keyYank junk
  else if key = 9 then t.keyTab
  else if key = 23 then t.keyBackword
  else t.keyDefault junk key

/-- `vt100_esc_e` -/
inductive EscCode where
  | cursorUp | cursorDown | cursorLeft | cursorRight | home | end | insert | delete | pgup | pgdown
  | unknown
  deriving DecidableEq, Repr

/-- `esc_map` -/
def escMap : List (Bytes × EscCode) :=
  [(cbytes "[A", .cursorUp), (cbytes "[B", .cursorDown), (cbytes "[C", .cursorRight),
    (cbytes "[D", .cursorLeft), (cbytes "[H", .home), (cbytes "[1~", .home), (cbytes "[F", .end),
    (cbytes "[4~", .end), (cbytes "[2~", .insert), (cbytes "[3~", .delete), (cbytes "[5~", .pgup),
    (cbytes "[6~", .pgdown)]

/-- `vt100_esc_decode` -/
def vt100EscDecode (escSeq : Bytes) : EscCode :=
  ((escMap.find? fun entry => entry.1 = escSeq).map Prod.snd).getD .unknown

/-- `tinyrl_esc_seq` -/
def tinyrlEscSeq (escSeq : Bytes) : Option Tinyrl :=
  match vt100EscDecode escSeq with
  | .cursorUp => t.keyUp junk
  | .cursorDown => t.keyDown junk
  | .cursorLeft => t.keyLeft
  | .cursorRight => t.keyRight
  | .home => t.keyStartOfLine
  | .end => t.keyEndOfLine
  | .delete => t.keyDelete
  | .insert | .pgdown | .pgup | .unknown => some t

/-- The number of bytes that follow the first byte of a character, at most six. -/
def utf8Follow : ℕ → UInt8 → ℕ
  | 0, _ => 0
  | fuel + 1, b => if b &&& 0xC0 ≠ 0x80 then utf8Follow fuel (b <<< 1) + 1 else 0

/-- What `process_char` notes of a byte that went to a handler. -/
def noteUtf8 (key : UInt8) : Tinyrl :=
  if t.utf8 then
    if key &&& 0x80 = 0 then { t with utf8Cont := 0 }
    else if key &&& 0xC0 = 0xC0 then { t with utf8Cont := utf8Follow 6 key }
    else if t.utf8Cont > 0 ∧ key &&& 0xC0 = 0x80 then { t with utf8Cont := t.utf8Cont - 1 }
    else t
  else t

/-- The byte ends an escape sequence. A `char` may be signed or not. -/
def endsEsc (signedChar : Bool) (key : UInt8) : Bool :=
  key ≠ 91 && key > 63 && (!signedChar || key < 128)

/-- `process_char` -/
def processChar (signedChar : Bool) (key : UInt8) : Option Tinyrl :=
  if t.escCont = false ∧ key = 27 then some { t with escCont := true, escP := 0 }
  else if t.escCont then
    -- One byte is for the end of the string.
    if t.escP ≥ 10 - 1 then some { t with escCont := false }
    else do
      let escSeq ← Buffer.write t.escSeq t.escP [key]
      let t := { t with escSeq, escP := t.escP + 1 }
      if endsEsc signedChar key then
        let escSeq ← Buffer.write t.escSeq t.escP [0]
        let t ← tinyrlEscSeq junk { t with escSeq } (cstrAt escSeq 0)
        some { t with escCont := false }
      else some t
  else (t.handler junk key).map fun t => t.noteUtf8 key

end Tinyrl

/-- What reaches the editor: a byte, with the number of bytes of its character that are still to
come, or a completion. -/
inductive TinyrlEvent where
  | byte (key : UInt8) (left : ℕ)
  | insert (text : Bytes)

/-- A character that is typed or sent by a key, or a completion. An escape sequence is a sequence of
characters, as is what follows it. -/
inductive TinyrlInput where
  | char (c : Char)
  | completion (text : {cs : List Char // '\x00' ∉ cs})

namespace Tinyrl

/-- The bytes of a character. -/
def charEvents : Bytes → List TinyrlEvent
  | [] => []
  | b :: bytes => .byte b bytes.length :: charEvents bytes

end Tinyrl

def TinyrlInput.events : TinyrlInput → List TinyrlEvent
  | .char c => Tinyrl.charEvents (String.utf8EncodeChar c)
  | .completion text => [.insert (Utf8.encode text.1)]

namespace Tinyrl

variable (junk : ℕ → UInt8) (signedChar : Bool)

def step (t : Tinyrl) : TinyrlEvent → Option Tinyrl
  | .byte key _ => t.processChar junk signedChar key
  | .insert text => t.withLine (t.line.insert junk text)

/-- The number of bytes that are missing of the character that is put into the line. Bytes of an
escape sequence are not put into it. -/
def note (t : Tinyrl) (event : TinyrlEvent) (_ : Tinyrl) (missing : ℕ) : ℕ :=
  match event with
  | .byte _ left => if t.escCont then 0 else left
  | .insert _ => missing

end Tinyrl

end Klish
