import Klish.Ktp
import Klish.Lib.Lines

/-!
# The history of the line editor

The real and the temporary entries are nodes of one list. The position is the address of a node,
and an address is never used twice.
-/

namespace Klish

/-- A node of the list. -/
structure HistNode where
  addr : ℕ
  line : Bytes
  /-- Added as a temporary entry. The program does not note this. -/
  temporary : Bool
  deriving DecidableEq

/-- `hist_t`, and the address of the next node. -/
structure Hist where
  list : List HistNode
  pos : Option ℕ
  stifle : ℕ
  fname : Option String
  temp : Bool
  fresh : ℕ

/-- A text that is stored as one string and on one line of a file. -/
structure HistLine where
  bytes : Bytes
  noNul : 0 ∉ bytes
  noNewline : 10 ∉ bytes

namespace Hist

/-- `faux_list_data` -/
def data (list : List HistNode) (addr : ℕ) : Option Bytes :=
  (list.find? fun node => node.addr = addr).map (·.line)

/-- `faux_list_tail` -/
def tail (list : List HistNode) : Option ℕ := list.getLast?.map (·.addr)

/-- `faux_list_prev_node` -/
def prevNode (addr : ℕ) : List HistNode → Option ℕ
  | first :: second :: rest =>
    if second.addr = addr then some first.addr else prevNode addr (second :: rest)
  | _ => none

/-- `faux_list_next_node` -/
def nextNode (addr : ℕ) : List HistNode → Option ℕ
  | first :: second :: rest =>
    if first.addr = addr then some second.addr else nextNode addr (second :: rest)
  | _ => none

/-- `hist_new` -/
def histNew (fname : Option String) (stifle : ℕ) : Hist where
  list := []
  pos := none
  stifle := stifle
  fname := fname
  temp := false
  fresh := 0

variable (hist : Hist)

/-- `faux_list_add`, a copy of the line goes to the end. -/
def listAdd (line : Bytes) (temporary : Bool) : Hist :=
  { hist with
    list := hist.list ++ [⟨hist.fresh, line, temporary⟩]
    fresh := hist.fresh + 1 }

/-- `hist_pos_reset`, which takes the tail for the temporary entry. There is no tail in an empty
list, and then nothing is deleted. -/
def histPosReset : Hist :=
  { hist with
    list := if hist.temp then hist.list.dropLast else hist.list
    pos := none
    temp := false }

/-- `hist_pos` -/
def histPos : Option Bytes := hist.pos.bind (data hist.list)

/-- `hist_pos_up` -/
def histPosUp : Hist :=
  match hist.pos with
  | none => { hist with pos := tail hist.list }
  | some addr => { hist with pos := some ((prevNode addr hist.list).getD addr) }

/-- `hist_pos_down` -/
def histPosDown : Hist :=
  match hist.pos with
  | none => hist
  | some addr => { hist with pos := nextNode addr hist.list }

/-- The head of the list goes if the list is too long. -/
def stifled : Hist :=
  if hist.stifle ≠ 0 ∧ hist.stifle < hist.list.length then { hist with list := hist.list.tail }
  else hist

/-- `hist_add` -/
def histAdd (line : Bytes) (temp : Bool) : Hist :=
  let hist := hist.histPosReset
  let hist :=
    if temp then { hist with temp := true }
    -- The same string is sought in the whole list.
    else { hist with list := hist.list.eraseP fun node => node.line = line }
  (hist.listAdd line temp).stifled

/-- `hist_clear` -/
def histClear : Hist := histPosReset { hist with list := [] }

/-- The bytes of a file that has the lines. -/
def render (lines : List Bytes) : Bytes := lines.flatMap fun line => line ++ [10]

/-- `hist_save`, with the result of `faux_file_open`. It gives the content of the new file. -/
def histSave (opened : Bool) : ℤ × Option Bytes :=
  if hist.fname = none then (0, none)
  else if opened then (0, some (render (hist.list.map (·.line))))
  else (-1, none)

/-- The loop of `hist_restore` with its `count`, over the lines that are left in the file. -/
def restoreLines (hist : Hist) (count : ℕ) : List Bytes → Hist
  | [] => hist
  | line :: rest =>
    if hist.stifle = 0 ∨ count < hist.stifle then
      -- A line with a NUL ends there.
      restoreLines (hist.listAdd (line.takeWhile (· ≠ 0)) false) (count + 1) rest
    else hist

/-- `hist_restore`, with the content of the file if it can be opened. -/
def histRestore (file : Option Bytes) : ℤ × Hist :=
  if hist.fname = none then (0, hist)
  else
    match file with
    | none => (-1, hist.histClear)
    | some content => (0, restoreLines hist.histClear 0 (lines 10 content))

/-- What `tinyrl_key_up` does with the history, and the line it gives. -/
def tinyrlKeyUp (line : Bytes) : Hist × Option Bytes :=
  let hist := if hist.histPos = none then (hist.histAdd line true).histPosUp else hist
  let hist := hist.histPosUp
  (hist, hist.histPos)

/-- What `tinyrl_key_down` does with the history, and the line it gives. -/
def tinyrlKeyDown : Hist × Option Bytes := (hist.histPosDown, hist.histPosDown.histPos)

/-- The lines of the real entries. -/
def real : List Bytes := (hist.list.filter fun node => !node.temporary).map (·.line)

end Hist

/-- What is done with the history. -/
inductive HistEvent where
  | add (line : HistLine)
  | addTemp (line : HistLine)
  | posUp
  | posDown
  | posReset
  | save (opened : Bool)

namespace Hist

def step (hist : Hist) : HistEvent → Option Hist
  | .add line => some (hist.histAdd line.bytes false)
  | .addTemp line => some (hist.histAdd line.bytes true)
  | .posUp => some hist.histPosUp
  | .posDown => some hist.histPosDown
  | .posReset => some hist.histPosReset
  | .save _ => some hist

/-- The real lines that have been added, and the files that have been written, each with the lines
that had been added before. -/
structure Log where
  added : List HistLine
  saved : List (Bytes × List HistLine)

def note (hist : Hist) (event : HistEvent) (_ : Hist) (log : Log) : Log :=
  match event with
  | .add line => { log with added := log.added ++ [line] }
  | .save opened =>
    { log with saved := ((hist.histSave opened).2.toList.map (·, log.added)) ++ log.saved }
  | _ => log

end Hist

end Klish
