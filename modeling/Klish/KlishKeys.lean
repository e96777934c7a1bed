import Klish.Lib.Runs
import Klish.TinyrlKeys

/-!
# The keys of the interactive client

The client binds its own handlers to some keys of the editor: a line is sent to the server by the
Enter key, and a hotkey sends a line of the scheme. The rest of a key is as in the editor.
-/

namespace Klish

namespace Tinyrl

variable (junk : ℕ → UInt8) (signedChar : Bool) (unclosedQuotes : Bytes → Bool)
  (hotkeys : ℕ → Option String) (t : Tinyrl)

/-- `tinyrl_line` -/
def text : Bytes := cstrAt t.line.str 0

/-- `tinyrl_line_to_hist`. An empty line is not added. -/
def lineToHist : Tinyrl :=
  if t.line.len = 0 then t else { t with hist := t.hist.histAdd t.text false }

/-- `tinyrl_key_enter` of the client, what it does with the line and the history. -/
def klishKeyEnter : Option Tinyrl := t.lineToHist.withLine t.lineToHist.line.reset

/-- The line of a hotkey, if it has one. -/
def hotkeyLine (key : UInt8) : Option String :=
  -- `VT100_HOTKEY_MAP_LEN`
  if key.toNat ≥ 32 then none else (hotkeys key.toNat).filter (· ≠ "")

/-- `tinyrl_key_hotkey`, what it does with the line. -/
def klishKeyHotkey (key : UInt8) : Option Tinyrl :=
  match hotkeyLine hotkeys key with
  | none => some t
  | some _ => t.withLine t.line.reset

/-- `tinyrl_key_tab` of the client, which asks the server. -/
def klishKeyTab : Option Tinyrl := some t

/-- `tinyrl_key_help`: a question mark in quotes is text. -/
def klishKeyHelp (key : UInt8) : Option Tinyrl :=
  if unclosedQuotes (t.text.take t.line.pos) then t.keyDefault junk key else some t

/-- The keys of `tinyrl_new` that call no hotkey, and have no handler of the client. -/
def bound (key : UInt8) : Bool := key ∈ ([3, 8, 4, 12, 21, 1, 5, 11, 25, 23] : List UInt8)

/-- The handlers of the interactive client. A control key without a handler is a hotkey. -/
def klishHandler (key : UInt8) : Option Tinyrl :=
  if key = 10 ∨ key = 13 then t.klishKeyEnter
  else if key = 9 then t.klishKeyTab
  else if key = 63 then t.klishKeyHelp junk unclosedQuotes key
  else if key > 31 ∨ bound key = true then t.handler junk key
  else t.klishKeyHotkey hotkeys key

/-- `process_char` with the handlers of the client. -/
def klishProcessChar (key : UInt8) : Option Tinyrl :=
  if t.escCont = false ∧ key ≠ 27 then
    (t.klishHandler junk unclosedQuotes hotkeys key).map fun t => t.noteUtf8 key
  else t.processChar junk signedChar key

/-- The key whose escape sequence ends with the byte. -/
def escKey (key : UInt8) : Option EscCode :=
  if t.escCont = true ∧ t.escP < 10 - 1 ∧ endsEsc signedChar key = true then
    ((Buffer.write t.escSeq t.escP [key]).bind fun escSeq =>
      Buffer.write escSeq (t.escP + 1) [0]).map fun escSeq => vt100EscDecode (cstrAt escSeq 0)
  else none

end Tinyrl

/-- The editor of the interactive client, with the hotkeys that the server sent. -/
structure KlishTinyrl where
  tinyrl : Tinyrl
  hotkeys : ℕ → Option String

/-- What reaches the editor: a byte of the terminal, a completion, or new hotkeys. -/
inductive KlishTinyrlEvent where
  | byte (key : UInt8)
  | completion (text : {bytes : Bytes // 0 ∉ bytes})
  | hotkeys (hotkeys : ℕ → Option String)

namespace KlishTinyrl

/-- `tinyrl_new`, as the client calls it, with the content of the file of the history. -/
def new (fname : Option String) (file : Option Bytes) (hotkeys : ℕ → Option String) : KlishTinyrl where
  tinyrl := .new ((Hist.histNew fname 100).histRestore file).2
  hotkeys := hotkeys

variable (junk : ℕ → UInt8) (signedChar : Bool) (unclosedQuotes : Bytes → Bool)

def step (s : KlishTinyrl) : KlishTinyrlEvent → Option KlishTinyrl
  | .byte key =>
    (s.tinyrl.klishProcessChar junk signedChar unclosedQuotes s.hotkeys key).map fun tinyrl =>
      { s with tinyrl }
  | .completion text =>
    (s.tinyrl.withLine (s.tinyrl.line.insert junk text.1)).map fun tinyrl => { s with tinyrl }
  | .hotkeys hotkeys => some { s with hotkeys }

end KlishTinyrl

end Klish
