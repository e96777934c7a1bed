import Klish.Nav
import Klish.RestoreLevel

/-!
# The path of a session

Navigation, and the restoring of the path in `kexec_exec`, are all that ever changes the path. It
has a level 0 at any time.
-/

namespace Klish

namespace Nav

variable {lib : NavLib} {scheme : Kscheme} {session session' : Ksession} {path : Kpath}
  {navCmd : String}

/-- What can happen to the path of a session. -/
inductive PathEvent where
  /-- A line is parsed. -/
  | parse (V : Oracle) (argv : FauxArgv) (purpose : KpargvPurpose) (isFilter : Bool) (fuel : ℕ)
  /-- `kexec_exec` starts a pipeline whose first component is the n-th of those parsed. -/
  | restore (n : ℕ)
  /-- `kexec_exec` starts a service ACTION. Its level is 0. -/
  | restoreLocal (e : EntryId)
  | nav (script : Option String)

/-- The session, and the components that have been parsed for execution. -/
structure PathState where
  session : Ksession
  parsed : List Kpargv

variable (lib scheme) in
def pathStep (s : PathState) : PathEvent → Option PathState
  | .parse V argv purpose isFilter fuel =>
    (Ksession.parseLine scheme V s.session argv purpose isFilter fuel).map fun (pargv, session) =>
      ⟨session, if purpose = .exec ∧ pargv.status = .ok then s.parsed ++ [pargv] else s.parsed⟩
  | .restore n =>
    s.parsed[n]?.map fun pargv =>
      { s with session := { s.session with
        path := Kexec.restorePath scheme (.new pargv 0 true) s.session.path } }
  | .restoreLocal e =>
    some { s with session := { s.session with
      path := Kexec.restorePath scheme (.new { Kpargv.new with command := some e } 0 true)
        s.session.path } }
  | .nav script => some { s with session := (klishNav lib scheme script s.session).2 }

/-- The path is not empty, and no level that may be restored has wrapped. -/
structure PathInv (s : PathState) : Prop where
  nonempty : s.session.path.levels ≠ []
  levels : ∀ pargv ∈ s.parsed, pargv.level < sizeMax

theorem restorePath_eq (scheme : Kscheme) (path : Kpath) {context : Kcontext}
    (hlevel : context.pargv.level < sizeMax) :
    ∃ n, 0 < n ∧ Kexec.restorePath scheme context path = path.take n := by
  have hid : path.take (path.len + 1) = path := Kpath.take_of_len_le (Nat.le_succ _)
  unfold Kexec.restorePath
  split
  · exact ⟨path.len + 1, Nat.succ_pos _, hid.symm⟩
  · split
    · refine ⟨_, ?_, Kexec.popLevels_eq (Nat.le_refl _)⟩
      rw [sizeInc, if_neg (Nat.ne_of_lt hlevel)]
      exact Nat.succ_pos _
    · exact ⟨path.len + 1, Nat.succ_pos _, hid.symm⟩

/-- The lines of a script. An empty script has none. -/
def scriptLines (lib : NavLib) (script : Option String) : List String :=
  if strIsEmpty script then [] else lib.getlines (script.getD "")

theorem klishNav_eq (script : Option String) :
    klishNav lib scheme script session = navLines lib scheme (scriptLines lib script) session := by
  unfold klishNav scriptLines
  split <;> rfl

/-- Level 0 is kept by everything but a `replace` on a path of one level. -/
theorem pathStep_spec {s s' : PathState} {event : PathEvent} (hs : PathInv s)
    (h : pathStep lib scheme s event = some s') :
    PathInv s' ∧ (base s'.session.path = base s.session.path ∨
      ∃ script, event = .nav script ∧
        ReplacesBase lib scheme s.session (scriptLines lib script)) := by
  cases event with
  | parse V argv purpose isFilter fuel =>
    obtain ⟨⟨pargv, session'⟩, hparse, heq⟩ := Option.map_eq_some_iff.mp h
    cases heq
    have hpath := Ksession.parseLine_path hparse
    refine ⟨⟨?_, ?_⟩, .inl ?_⟩
    · simp only [hpath]
      exact hs.nonempty
    · intro pargv' hmem
      simp only at hmem
      split at hmem
      · rename_i hexec
        obtain ⟨rfl, hok⟩ := hexec
        rcases List.mem_append.mp hmem with hmem | hmem
        · exact hs.levels pargv' hmem
        · obtain rfl := List.mem_singleton.mp hmem
          have hlevel := Ksession.parseLine_level_lt hparse hok
          have hlen : s.session.path.len ≤ sizeMax := s.session.path.length_le
          omega
      · exact hs.levels pargv' hmem
    · simp only [hpath]
  | restore n =>
    obtain ⟨pargv, hpargv, heq⟩ := Option.map_eq_some_iff.mp h
    cases heq
    have hlevel : (Kcontext.new pargv 0 true).pargv.level < sizeMax :=
      hs.levels pargv (List.mem_of_getElem? hpargv)
    obtain ⟨m, hpos, hpath⟩ := restorePath_eq scheme s.session.path hlevel
    refine ⟨⟨?_, hs.levels⟩, .inl ?_⟩
    · simp only [hpath]
      exact take_ne_nil hpos hs.nonempty
    · simp only [hpath]
      exact base_take hpos
  | restoreLocal e =>
    cases h
    have hlevel : (Kcontext.new { Kpargv.new with command := some e } 0 true).pargv.level <
        sizeMax := by
      show 0 < sizeMax
      decide
    obtain ⟨m, hpos, hpath⟩ := restorePath_eq scheme s.session.path hlevel
    refine ⟨⟨?_, hs.levels⟩, .inl ?_⟩
    · simp only [hpath]
      exact take_ne_nil hpos hs.nonempty
    · simp only [hpath]
      exact base_take hpos
  | nav script =>
    cases h
    simp only [klishNav_eq]
    obtain ⟨hne, hbase⟩ := navLines_base lib scheme (scriptLines lib script) hs.nonempty
    refine ⟨⟨hne, hs.levels⟩, ?_⟩
    exact hbase.imp_right fun hreplace => ⟨script, rfl, hreplace⟩

variable (lib scheme) in
/-- What every line does to a session. -/
structure LineLaws (session : Ksession) : Prop where
  nonempty : session.path.levels ≠ []
  base : ∀ line, base (navLine lib scheme session line).session.path = base session.path ∨
    (session.path.len = 1 ∧ IsCommand lib line "replace")
  atomic : ∀ line final, navLine lib scheme session line = .fail final → final = session
  pop : ∀ line navCmd args lnum, lib.argvParse line = navCmd :: args →
    lib.casecmp navCmd "pop" = true → levelsToPop lib args.head? = some lnum →
      session.path.len ≤ lnum →
        navLine lib scheme session line = .stop { session with done := true }
  top : ∀ line navCmd args, lib.argvParse line = navCmd :: args →
    lib.casecmp navCmd "top" = true →
      navLine lib scheme session line = .next { session with path := session.path.take 1 }

/-- A word is not two commands at once. -/
theorem casecmp_unique {name name' : String} (h : lib.casecmp navCmd name = true)
    (hne : name.toList.map Char.toLower ≠ name'.toList.map Char.toLower) :
    lib.casecmp navCmd name' = false := by
  rw [Bool.eq_false_iff]
  intro h'
  exact hne (((lib.casecmp_iff _ _).mp h).symm.trans ((lib.casecmp_iff _ _).mp h'))

theorem lineLaws (hne : session.path.levels ≠ []) : LineLaws lib scheme session where
  nonempty := hne
  base line := (navLine_base lib scheme line hne).2
  atomic line final hfail := by
    have hspec := navLine_spec lib scheme line hne
    rw [hfail] at hspec
    cases hspec with
    | error => rfl
  pop line navCmd args lnum hargs hpop hlnum hlen := by
    have hexit : lib.casecmp navCmd "exit" = false := casecmp_unique hpop (by decide)
    have htop : lib.casecmp navCmd "top" = false := casecmp_unique hpop (by decide)
    simp only [navLine, hargs, hexit, htop, hpop, if_true, Bool.false_eq_true, if_false]
    rw [popLine_eq hne, hlnum]
    simp only [hlen, if_true]
  top line navCmd args hargs htop := by
    have hexit : lib.casecmp navCmd "exit" = false := casecmp_unique htop (by decide)
    simp only [navLine, hargs, hexit, htop, if_true, Bool.false_eq_true, if_false]
    rw [topLoop_eq (Nat.le_succ _)]
    rfl

/-- The lines before the one that ends the script keep to the laws. -/
theorem navSteps_lineLaws {lines : List String} (hne : session.path.levels ≠ [])
    (hrun : Runs.run (navStep lib scheme) session lines = some session') :
    LineLaws lib scheme session' := by
  refine lineLaws (Runs.run_invariant (I := fun s => s.path.levels ≠ [])
    (fun s line t hs hstep => ?_) hne hrun)
  have hline := (navLine_base lib scheme line hs).1
  unfold navStep at hstep
  split at hstep
  · rename_i s₁ hnext
    cases hstep
    rw [hnext] at hline
    exact hline
  · cases hstep
  · cases hstep

/-- The path of a session that has a level to begin with is never empty. Its level 0 changes
only by a `replace` on a path of one level. -/
theorem path_never_empty {s s' : PathState} {events : List PathEvent}
    (hne : s.session.path.levels ≠ []) (hparsed : s.parsed = [])
    (hrun : Runs.run (pathStep lib scheme) s events = some s') :
    s'.session.path.levels ≠ [] ∧
      (∀ event s'', pathStep lib scheme s' event = some s'' →
        base s''.session.path = base s'.session.path ∨
          ∃ script, event = .nav script ∧
            ReplacesBase lib scheme s'.session (scriptLines lib script)) ∧
      (∀ lines middle, Runs.run (navStep lib scheme) s'.session lines = some middle →
        LineLaws lib scheme middle) ∧
      ∀ script, ∃ before after middle, scriptLines lib script = before ++ after ∧
        Runs.run (navStep lib scheme) s'.session before = some middle ∧
        ((after = [] ∧ klishNav lib scheme script s'.session = (0, middle)) ∨
          ∃ line rest final, after = line :: rest ∧
            ((navLine lib scheme middle line = .stop final ∧
                klishNav lib scheme script s'.session = (0, final)) ∨
              (navLine lib scheme middle line = .fail final ∧
                klishNav lib scheme script s'.session = (-1, final)))) := by
  have hs : PathInv s := ⟨hne, by simp [hparsed]⟩
  have hs' : PathInv s' :=
    Runs.run_invariant (fun s event t hs hstep => (pathStep_spec hs hstep).1) hs hrun
  refine ⟨hs'.nonempty, fun event s'' hstep => (pathStep_spec hs' hstep).2,
    fun lines middle hlines => navSteps_lineLaws hs'.nonempty hlines, fun script => ?_⟩
  obtain ⟨before, after, middle, hlines, hbefore, hend⟩ :=
    navLines_fold lib scheme (scriptLines lib script) s'.session
  refine ⟨before, after, middle, hlines, hbefore, ?_⟩
  rw [klishNav_eq]
  exact hend

/-- Lines and words without quotes. -/
def sampleLib : NavLib where
  getlines script := (script.toList.splitOn '\n').map String.ofList
  argvParse line := ((line.toList.splitOn ' ').filter (· ≠ [])).map String.ofList
  casecmp s t := decide (s.toList.map Char.toLower = t.toList.map Char.toLower)
  casecmp_iff _ _ := decide_eq_true_iff
  atouc s := if s = "1" then some 1 else none

/-- The line "x" is parsed, its pipeline started, and two levels are pushed and removed. The
second script replaces the base and ends with its `pop`. -/
def sampleEvents : List PathEvent :=
  [.parse (Ksession.commandPtype Ksession.sampleEntry) ⟨["x"], false⟩ .exec false 5, .restore 0,
    .nav (some "push /view/pair\npush /view\nTOP"), .nav (some "replace /view\npop 1\npush /view")]

theorem path_never_empty_sample :
    ∃ s', Runs.run (pathStep sampleLib Ksession.sampleScheme)
        ⟨Ksession.sampleRoot, []⟩ sampleEvents = some s' ∧
      s'.session.path.levels ≠ [] := by
  have hrun : (Runs.run (pathStep sampleLib Ksession.sampleScheme)
      ⟨Ksession.sampleRoot, []⟩ sampleEvents).isSome = true := by decide
  obtain ⟨s', hs'⟩ := Option.isSome_iff_exists.mp hrun
  exact ⟨s', hs', (path_never_empty (by decide) rfl hs').1⟩

end Nav

end Klish
