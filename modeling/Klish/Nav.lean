import Klish.Lib.Runs
import Klish.Kscheme
import Klish.Kpath

/-!
# Navigation

The script of a `nav` ACTION changes the path line by line, up to the first line that fails or
ends the script.
-/

namespace Klish

/-- The functions of the library that `klish_nav` calls. -/
structure NavLib where
  /-- The lines `faux_str_getline` returns one after another. -/
  getlines : String → List String
  /-- `faux_argv_parse`. There are no arguments when the line cannot be parsed. -/
  argvParse : String → List String
  /-- `faux_str_casecmp` returned 0. -/
  casecmp : String → String → Bool
  casecmp_iff : ∀ s t, casecmp s t = true ↔ s.toList.map Char.toLower = t.toList.map Char.toLower
  /-- `faux_conv_atouc` -/
  atouc : String → Option UInt8

/-- How a line of a script ends: the next one is executed, or the script ends with 0 or -1. -/
inductive LineResult where
  | next (session : Ksession)
  | stop (session : Ksession)
  | fail (session : Ksession)

namespace LineResult

def session : LineResult → Ksession
  | next session | stop session | fail session => session

end LineResult

namespace Nav

/-- The loop of `top`. The counter is the length. -/
def topLoop : ℕ → Kpath → Bool × Kpath
  | 0, path => (true, path)
  | n + 1, path =>
    if 1 < path.len then
      match path.pop with
      | none => (false, path)
      | some path => topLoop n path
    else (true, path)

/-- The loop of `pop`. -/
def popLoop : ℕ → Kpath → Bool × Kpath
  | 0, path => (true, path)
  | n + 1, path =>
    match path.pop with
    | none => (false, path)
    | some path => popLoop n path

variable (lib : NavLib) (scheme : Kscheme)

/-- The session with the path a loop has left. -/
def loopResult (session : Ksession) (r : Bool × Kpath) : LineResult :=
  if r.1 then .next { session with path := r.2 } else .fail { session with path := r.2 }

/-- The number of levels to pop. -/
def levelsToPop (lnumStr : Option String) : Option ℕ :=
  match lnumStr with
  | none => some 1
  | some s => (lib.atouc s).map UInt8.toNat

/-- `pop [number_of_levels]`, given the number that may be specified. -/
def popLine (session : Ksession) (lnumStr : Option String) : LineResult :=
  match levelsToPop lib lnumStr with
  | none => .fail session
  | some lnum =>
    -- Such "pop" means exit.
    if sizeDec session.path.len < lnum then .stop { session with done := true }
    else loopResult session (popLoop lnum session.path)

/-- The level that `push` and `replace` go to. -/
def pushLevel (session : Ksession) (path : Kpath) (e : EntryId) : LineResult :=
  match path.push e with
  | none => .fail { session with path }
  | some path => .next { session with path }

def pushLine (session : Ksession) (viewName : Option String) : LineResult :=
  match viewName.bind scheme.findEntryByPath with
  | none => .fail session
  | some newView => pushLevel session session.path newView

def replaceLine (session : Ksession) (viewName : Option String) : LineResult :=
  match viewName.bind scheme.findEntryByPath with
  | none => .fail session
  | some newView =>
    match session.path.pop with
    | none => .fail session
    | some path => pushLevel session path newView

/-- One line of the script. -/
def navLine (session : Ksession) (line : String) : LineResult :=
  match lib.argvParse line with
  | [] => .next session
  | navCmd :: args =>
    if lib.casecmp navCmd "exit" then .stop { session with done := true }
    else if lib.casecmp navCmd "top" then
      loopResult session (topLoop session.path.len session.path)
    else if lib.casecmp navCmd "pop" then popLine lib session args.head?
    else if lib.casecmp navCmd "push" then pushLine scheme session args.head?
    else if lib.casecmp navCmd "replace" then replaceLine scheme session args.head?
    else .fail session

/-- The loop over the lines. -/
def navLines : List String → Ksession → ℤ × Ksession
  | [], session => (0, session)
  | line :: lines, session =>
    match navLine lib scheme session line with
    | .next session => navLines lines session
    | .stop session => (0, session)
    | .fail session => (-1, session)

/-- `klish_nav` -/
def klishNav (script : Option String) (session : Ksession) : ℤ × Ksession :=
  if strIsEmpty script then (0, session)
  else navLines lib scheme (lib.getlines (script.getD "")) session

variable {lib scheme} {session session' : Ksession} {path path' : Kpath} {line navCmd : String}
  {args : List String}

theorem pop_of_lt {n : ℕ} (h : n < path.len) :
    path.pop = some (path.take (path.len - 1)) := by
  refine Kpath.pop_eq_some.mpr ⟨fun hnil => ?_, rfl⟩
  simp [Kpath.len, hnil] at h

theorem len_take (n : ℕ) : (path.take n).len = min n path.len := by
  simp [Kpath.len]

theorem take_take (m n : ℕ) : (path.take m).take n = path.take (min n m) := by
  apply Kpath.ext
  simp [List.take_take]

/-- `top` leaves exactly level 0. -/
theorem topLoop_eq {n : ℕ} (h : path.len ≤ n + 1) : topLoop n path = (true, path.take 1) := by
  induction n generalizing path with
  | zero => rw [topLoop, Kpath.take_of_len_le h]
  | succ n ih =>
    rw [topLoop]
    split
    · rename_i hlen
      rw [pop_of_lt hlen]
      have hlen' : (path.take (path.len - 1)).len ≤ n + 1 := by
        rw [len_take]
        omega
      simp only
      rw [ih hlen', take_take]
      congr 2
      omega
    · rename_i hlen
      rw [Kpath.take_of_len_le (by omega)]

theorem popLoop_eq {n : ℕ} (h : n ≤ path.len) : popLoop n path = (true, path.take (path.len - n)) := by
  induction n generalizing path with
  | zero => rw [popLoop, Kpath.take_of_len_le (by omega)]
  | succ n ih =>
    have hlen' : (path.take (path.len - 1)).len = path.len - 1 := by
      rw [len_take]
      omega
    rw [popLoop, pop_of_lt h]
    simp only
    rw [ih (by omega), hlen', take_take]
    congr 2
    omega

/-- The line is a navigation command of that name. -/
def IsCommand (lib : NavLib) (line name : String) : Prop :=
  ∃ navCmd args, lib.argvParse line = navCmd :: args ∧ lib.casecmp navCmd name = true

/-- All a line can do to a session with a path that is not empty. -/
inductive LineSpec (lib : NavLib) (line : String) (session : Ksession) : LineResult → Prop
  | blank (h : lib.argvParse line = []) : LineSpec lib line session (.next session)
  | exit (h : IsCommand lib line "exit" ∨ IsCommand lib line "pop") :
      LineSpec lib line session (.stop { session with done := true })
  | shorten (n : ℕ) (hpos : 0 < n) :
      LineSpec lib line session (.next { session with path := session.path.take n })
  | push (e : EntryId) (path : Kpath) (h : path.levels = session.path.levels ++ [e]) :
      LineSpec lib line session (.next { session with path })
  | replace (e : EntryId) (path : Kpath) (hcmd : IsCommand lib line "replace")
      (h : path.levels = session.path.levels.dropLast ++ [e]) :
      LineSpec lib line session (.next { session with path })
  | error : LineSpec lib line session (.fail session)

theorem pushLine_spec (viewName : Option String) :
    LineSpec lib line session (pushLine scheme session viewName) := by
  unfold pushLine
  cases viewName.bind scheme.findEntryByPath with
  | none => exact .error
  | some newView =>
    simp only [pushLevel]
    cases hpush : session.path.push newView with
    | none => exact .error
    | some path => exact .push newView path (Kpath.push_eq_some.mp hpush).2

/-- There is room for the new level, because the old one has just been removed. -/
theorem replaceLine_spec (hne : session.path.levels ≠ []) (hcmd : IsCommand lib line "replace")
    (viewName : Option String) : LineSpec lib line session (replaceLine scheme session viewName) := by
  unfold replaceLine
  cases viewName.bind scheme.findEntryByPath with
  | none => exact .error
  | some newView =>
    obtain ⟨path, hpop⟩ : ∃ path, session.path.pop = some path :=
      ⟨_, Kpath.pop_eq_some.mpr ⟨hne, rfl⟩⟩
    obtain ⟨-, rfl⟩ := Kpath.pop_eq_some.mp hpop
    have hlen : (session.path.take (session.path.len - 1)).len < sizeMax := by
      have hmax := session.path.length_le
      have hpos : 0 < session.path.levels.length := List.length_pos_iff.mpr hne
      rw [len_take, Kpath.len]
      omega
    obtain ⟨path', hpush⟩ : ∃ path', (session.path.take (session.path.len - 1)).push newView =
        some path' := ⟨_, dif_pos hlen⟩
    have hlevels := (Kpath.push_eq_some.mp hpush).2
    simp only [hpop, pushLevel, hpush]
    apply LineSpec.replace newView path' hcmd
    rw [hlevels, Kpath.take_levels, Kpath.len, List.dropLast_eq_take]

/-- A `pop` of more levels than can be removed changes nothing and ends the session. -/
theorem popLine_eq (hne : session.path.levels ≠ []) (lnumStr : Option String) :
    popLine lib session lnumStr =
      match levelsToPop lib lnumStr with
      | none => .fail session
      | some lnum =>
        if session.path.len ≤ lnum then .stop { session with done := true }
        else .next { session with path := session.path.take (session.path.len - lnum) } := by
  unfold popLine
  split
  · rfl
  · rename_i lnum _
    have hpos : 0 < session.path.len := List.length_pos_iff.mpr hne
    rw [sizeDec, if_neg (Nat.ne_of_gt hpos)]
    by_cases hlt : session.path.len ≤ lnum
    · rw [if_pos (by omega), if_pos hlt]
    · rw [if_neg (by omega), if_neg hlt, popLoop_eq (by omega)]
      rfl

theorem navLine_spec (lib : NavLib) (scheme : Kscheme) (line : String)
    (hne : session.path.levels ≠ []) :
    LineSpec lib line session (navLine lib scheme session line) := by
  unfold navLine
  cases hargs : lib.argvParse line with
  | nil => exact .blank hargs
  | cons navCmd args =>
    simp only
    split
    · rename_i hcmd
      exact .exit (.inl ⟨navCmd, args, hargs, hcmd⟩)
    split
    · rw [topLoop_eq (Nat.le_succ _)]
      exact .shorten 1 Nat.one_pos
    split
    · rename_i hcmd
      rw [popLine_eq hne]
      split
      · exact .error
      · split
        · exact .exit (.inr ⟨navCmd, args, hargs, hcmd⟩)
        · exact .shorten _ (by omega)
    split
    · exact pushLine_spec _
    split
    · rename_i hcmd
      exact replaceLine_spec hne ⟨navCmd, args, hargs, hcmd⟩ _
    · exact .error

/-- Level 0, the base of the path. -/
def base (path : Kpath) : Option EntryId := path.levels.head?

theorem base_take {n : ℕ} (hpos : 0 < n) : base (path.take n) = base path := by
  obtain ⟨m, rfl⟩ := Nat.exists_eq_succ_of_ne_zero (Nat.ne_of_gt hpos)
  cases hlevels : path.levels <;> simp [base, hlevels]

theorem take_ne_nil {n : ℕ} (hpos : 0 < n) (hne : path.levels ≠ []) : (path.take n).levels ≠ [] := by
  intro hnil
  rcases List.take_eq_nil_iff.mp hnil with h | h
  · omega
  · exact hne h

/-- A line leaves a path that is not empty, and level 0 changes only by a `replace` on a path
of one level. -/
theorem navLine_base (lib : NavLib) (scheme : Kscheme) (line : String)
    (hne : session.path.levels ≠ []) :
    (navLine lib scheme session line).session.path.levels ≠ [] ∧
      (base (navLine lib scheme session line).session.path = base session.path ∨
        (session.path.len = 1 ∧ IsCommand lib line "replace")) := by
  have hspec := navLine_spec lib scheme line hne
  generalize navLine lib scheme session line = r at hspec
  cases hspec with
  | blank => exact ⟨hne, .inl rfl⟩
  | exit => exact ⟨hne, .inl rfl⟩
  | error => exact ⟨hne, .inl rfl⟩
  | shorten n hpos => exact ⟨take_ne_nil hpos hne, .inl (base_take hpos)⟩
  | push e path h =>
    have hlevels : (LineResult.next { session with path }).session.path.levels =
        session.path.levels ++ [e] := h
    refine ⟨by simp [hlevels], .inl ?_⟩
    obtain ⟨first, rest, hcons⟩ := List.exists_cons_of_ne_nil hne
    simp [base, hlevels, hcons]
  | replace e path hcmd h =>
    have hlevels : (LineResult.next { session with path }).session.path.levels =
        session.path.levels.dropLast ++ [e] := h
    refine ⟨by simp [hlevels], ?_⟩
    obtain ⟨first, rest, hcons⟩ := List.exists_cons_of_ne_nil hne
    cases rest with
    | nil =>
      right
      exact ⟨by simp [Kpath.len, hcons], hcmd⟩
    | cons second rest =>
      left
      simp [base, hlevels, hcons]

variable (lib scheme) in
/-- A line after which the script goes on. -/
def navStep (session : Ksession) (line : String) : Option Ksession :=
  match navLine lib scheme session line with
  | .next session => some session
  | .stop _ | .fail _ => none

/-- A script is the fold of its lines, up to the first one that fails or ends it. -/
theorem navLines_fold (lib : NavLib) (scheme : Kscheme) (lines : List String) (session : Ksession) :
    ∃ before after middle, lines = before ++ after ∧
      Runs.run (navStep lib scheme) session before = some middle ∧
      ((after = [] ∧ navLines lib scheme lines session = (0, middle)) ∨
        ∃ line rest final, after = line :: rest ∧
          ((navLine lib scheme middle line = .stop final ∧
              navLines lib scheme lines session = (0, final)) ∨
            (navLine lib scheme middle line = .fail final ∧
              navLines lib scheme lines session = (-1, final)))) := by
  induction lines generalizing session with
  | nil => exact ⟨[], [], session, rfl, rfl, .inl ⟨rfl, rfl⟩⟩
  | cons line lines ih =>
    cases hline : navLine lib scheme session line with
    | next session₁ =>
      obtain ⟨before, after, middle, rfl, hrun, hend⟩ := ih session₁
      have hstep : navStep lib scheme session line = some session₁ := by rw [navStep, hline]
      refine ⟨line :: before, after, middle, rfl, Runs.run_cons.mpr ⟨_, hstep, hrun⟩, ?_⟩
      rw [navLines, hline]
      exact hend
    | stop final =>
      refine ⟨[], line :: lines, session, rfl, rfl, .inr ⟨line, lines, final, rfl, .inl ?_⟩⟩
      exact ⟨hline, by rw [navLines, hline]⟩
    | fail final =>
      refine ⟨[], line :: lines, session, rfl, rfl, .inr ⟨line, lines, final, rfl, .inr ?_⟩⟩
      exact ⟨hline, by rw [navLines, hline]⟩

variable (lib scheme) in
/-- The script executes a `replace` on a path of one level. -/
def ReplacesBase (session : Ksession) (lines : List String) : Prop :=
  ∃ before line after middle, lines = before ++ line :: after ∧
    Runs.run (navStep lib scheme) session before = some middle ∧ middle.path.len = 1 ∧
      IsCommand lib line "replace"

theorem navLines_base (lib : NavLib) (scheme : Kscheme) (lines : List String)
    (hne : session.path.levels ≠ []) :
    (navLines lib scheme lines session).2.path.levels ≠ [] ∧
      (base (navLines lib scheme lines session).2.path = base session.path ∨
        ReplacesBase lib scheme session lines) := by
  induction lines generalizing session with
  | nil => exact ⟨hne, .inl rfl⟩
  | cons line lines ih =>
    have hline := navLine_base lib scheme line hne
    have hhere : session.path.len = 1 ∧ IsCommand lib line "replace" →
        ReplacesBase lib scheme session (line :: lines) := fun h =>
      ⟨[], line, lines, session, rfl, rfl, h.1, h.2⟩
    rw [navLines]
    cases hr : navLine lib scheme session line with
    | next session₁ =>
      rw [hr] at hline
      obtain ⟨hne₁, hbase⟩ := hline
      obtain ⟨hne₂, hbase₂⟩ := ih hne₁
      refine ⟨hne₂, ?_⟩
      rcases hbase with hbase | hbase
      · rcases hbase₂ with hbase₂ | ⟨before, l, after, middle, rfl, hrun, hrest⟩
        · exact .inl (hbase₂.trans hbase)
        · have hstep : navStep lib scheme session line = some session₁ := by rw [navStep, hr]
          exact .inr ⟨line :: before, l, after, middle, rfl,
            Runs.run_cons.mpr ⟨_, hstep, hrun⟩, hrest⟩
      · exact .inr (hhere hbase)
    | stop session₁ =>
      rw [hr] at hline
      exact ⟨hline.1, hline.2.imp_right hhere⟩
    | fail session₁ =>
      rw [hr] at hline
      exact ⟨hline.1, hline.2.imp_right hhere⟩

end Nav

end Klish
