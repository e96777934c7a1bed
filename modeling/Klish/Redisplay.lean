import Klish.Lib.Screen
import Klish.Tinyrl

/-!
# The display of the line

The editor remembers the line that is on the screen. It prints the part of the new line that
differs, and moves the cursor by rows and columns.
-/

namespace Klish

/-- The bytes `10xxxxxx` that follow the first one of a character, six bits each. -/
def wcharRest : ℕ → ℕ → Bytes → Option ℕ
  | 0, sym, _ => some sym
  | octets + 1, sym, p =>
    match p with
    | [] => none
    | b :: p =>
      if b &&& 0xC0 ≠ 0x80 then none
      else wcharRest octets (sym <<< 6 ||| (b &&& 0x3F).toNat) p

/-- `utf8_to_wchar`: the number of bytes of the first character, and its code. -/
def utf8ToWchar : Bytes → ℕ × ℕ
  | [] => (0, 0)
  | b :: p =>
    if b = 0 then (0, 0)
    else if b &&& 0x80 = 0 then (1, b.toNat)
    else
      let first : Option (ℕ × UInt8) :=
        if b &&& 0xE0 = 0xC0 then some (1, b &&& 0x1F)
        else if b &&& 0xF0 = 0xE0 then some (2, b &&& 0xF)
        else if b &&& 0xF8 = 0xF0 then some (3, b &&& 7)
        else if b &&& 0xFC = 0xF8 then some (4, b &&& 3)
        else if b &&& 0xFE = 0xFC then some (5, b &&& 1)
        else none
      match first with
      | none => (1, b.toNat)
      | some (octets, bits) =>
        match wcharRest octets bits.toNat p with
        -- A broken character is skipped byte by byte.
        | none => (1, b.toNat)
        | some sym => (octets + 1, sym)

/-- `utf8_wchar_is_cjk` -/
def utf8WcharIsCjk (sym : ℕ) : Bool :=
  (0x1100 ≤ sym && sym ≤ 0x11FF) || (0x2E80 ≤ sym && sym ≤ 0xA4CF && sym ≠ 0x303F) ||
    (0xAC00 ≤ sym && sym ≤ 0xD7AF) || (0xF900 ≤ sym && sym ≤ 0xFAFF) ||
    (0xFE10 ≤ sym && sym ≤ 0xFE1F) || (0xFE30 ≤ sym && sym ≤ 0xFE6F) ||
    (0xFF00 ≤ sym && sym ≤ 0xFF60) || (0xFFE0 ≤ sym && sym ≤ 0xFFE6) ||
    (0x1D300 ≤ sym && sym ≤ 0x1D35F) || (0x20000 ≤ sym && sym ≤ 0x2B81F) ||
    (0x2F800 ≤ sym && sym ≤ 0x2FA1F)

/-- `utf8_nsyms`, the columns of the first `len` bytes of a string. -/
def utf8Nsyms : Bytes → ℕ → ℕ
  | [], _ => 0
  | b :: str, len =>
    if len = 0 ∨ b = 0 then 0
    else if b &&& 0x80 = 0 then utf8Nsyms str (len - 1) + 1
    else
      let (n, sym) := utf8ToWchar (b :: str)
      utf8Nsyms (str.drop (n - 1)) (len - n) + if utf8WcharIsCjk sym then 2 else 1
  termination_by str => str.length
  decreasing_by
    · simp
    · simp only [List.length_drop, List.length_cons]
      omega

/-- The strings are equal up to here. -/
def equalBytes : Bytes → Bytes → ℕ
  | a :: s1, b :: s2 => if a = 0 ∨ b = 0 ∨ a ≠ b then 0 else equalBytes s1 s2 + 1
  | _, _ => 0

/-- Back to the first byte of a character. -/
def skipTails (s : Bytes) : ℕ → ℕ
  | 0 => 0
  | n + 1 => if Utf8.isTail (s.getD (n + 1) 0) then skipTails s n else n + 1

/-- `tinyrl_equal_part` -/
def tinyrlEqualPart (utf8 : Bool) (s1 s2 : Bytes) : ℕ :=
  if utf8 then skipTails s1 (equalBytes s1 s2) else equalBytes s1 s2

/-- `move_cursor` -/
def moveCursor (width curPos targetPos : ℕ) : List (ScreenCommand Char) :=
  let rows : ℤ := (targetPos / width : ℕ) - (curPos / width : ℕ)
  let cols : ℤ := (targetPos % width : ℕ) - (curPos % width : ℕ)
  (if cols > 0 then [.cursorForward cols.toNat]
    else if cols < 0 then [.cursorBack (-cols).toNat] else []) ++
  (if rows > 0 then [.cursorDown rows.toNat]
    else if rows < 0 then [.cursorUp (-rows).toNat] else [])

/-- `vt100_printf` with a string: the terminal takes the bytes for UTF-8. -/
def vt100Printf (str : Bytes) : List (ScreenCommand Char) := [.print (Utf8.decode str)]

/-- `struct tinyrl_s`, what the display uses of it. -/
structure Display where
  line : Line
  last : Option Line
  utf8 : Bool
  width : ℕ
  prompt : Bytes
  promptChars : ℕ

namespace Display

variable (d : Display) (width : ℕ)

/-- `tinyrl_save_last` -/
def saveLast : Display :=
  { d with last := some { d.line with str := cstrAt d.line.str 0 ++ [0] } }

/-- What `tinyrl_redisplay` does before it prints the line: the number of bytes that are on the
screen already, and the commands. -/
def prepare : ℕ × List (ScreenCommand Char) :=
  match d.last with
  | some last =>
    if width = d.width then
      let eqBytes := tinyrlEqualPart d.utf8 d.line.str last.str
      let eqChars := utf8Nsyms last.str eqBytes
      let lastPosChars := utf8Nsyms last.str last.pos
      (eqBytes, moveCursor d.width (d.promptChars + lastPosChars) (d.promptChars + eqChars))
    else (0, [.nextLine, .eraseDown] ++ vt100Printf d.prompt)
  | none =>
    (0, (if width ≠ d.width then [.nextLine, .eraseDown] else []) ++ vt100Printf d.prompt)

/-- `tinyrl_redisplay`, with the width that the terminal has. -/
def redisplay : List (ScreenCommand Char) × Display :=
  let lineChars := utf8Nsyms d.line.str d.line.len
  let (eqBytes, commands) := d.prepare width
  let cols := (d.promptChars + lineChars) % width
  let lastLen := (d.last.map (·.len)).getD 0
  let commands := commands ++ vt100Printf (cstrAt d.line.str eqBytes)
  let commands :=
    commands ++ if cols = 0 ∧ d.line.len - eqBytes ≠ 0 then [.nextLine] else []
  -- The lengths are compared in bytes.
  let commands := commands ++ if lastLen > d.line.len then [.eraseDown] else []
  let commands :=
    commands ++
      if d.line.pos < d.line.len then
        let posChars := utf8Nsyms d.line.str d.line.pos
        moveCursor d.width (d.promptChars + lineChars) (d.promptChars + posChars)
      else []
  (commands, { d.saveLast with width })

end Display

end Klish
