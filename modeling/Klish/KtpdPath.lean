import Klish.KtpdDispatch

/-!
# What leaves the session path alone

Parsing and asking for hints do not change the path. While a command is running the path may change,
but the one that was saved for it does not.
-/

namespace Klish

namespace Ksession

variable (scheme : Kscheme) (V : Oracle) (getlines : String → List String)

/-- Nothing that is parsed or asked for changes the session path. -/
theorem execLoop_path {fuel index : ℕ} {split : List FauxArgv} {session : Ksession} {exec : Kexec}
    {r : ForExec} (h : execLoop scheme V fuel index split session exec = some r) :
    r.session.path = session.path := by
  induction split generalizing index session exec with
  | nil =>
    cases h
    rfl
  | cons argv split ih =>
    unfold execLoop at h
    split at h
    · cases h
    · rename_i pargv session' hparse
      have hpath := parseLine_path hparse
      split at h
      · cases h
        exact hpath
      · exact (ih h).trans hpath

theorem parseForExec_path {argvParse : String → Option FauxArgv} {session : Ksession}
    {rawLine : String} {fuel : ℕ} {r : ForExec}
    (h : parseForExec scheme V argvParse session rawLine fuel = some r) :
    r.session.path = session.path := by
  unfold parseForExec at h
  split at h
  · cases h
    rfl
  · exact execLoop_path scheme V h

theorem hintLoop_path {purpose : KpargvPurpose} {fuel index : ℕ} {split : List FauxArgv}
    {session : Ksession} {r : Option Kpargv × Ksession}
    (h : hintLoop scheme V purpose fuel index split session = some r) :
    r.2.path = session.path := by
  induction split generalizing index session with
  | nil =>
    cases h
    rfl
  | cons argv split ih =>
    unfold hintLoop at h
    split at h
    · cases h
    · rename_i pargv session' hparse
      have hpath := parseLine_path hparse
      split at h
      · cases h
        exact hpath
      · split at h
        · cases h
          exact hpath
        · exact (ih h).trans hpath

theorem parseForHint_path {argvParse : String → Option FauxArgv} {session : Ksession}
    {rawLine : String} {purpose : KpargvPurpose} {fuel : ℕ} {r : Option Kpargv × Ksession}
    (h : parseForHint scheme V argvParse session rawLine purpose fuel = some r) :
    r.2.path = session.path := by
  unfold parseForHint at h
  split at h
  · cases h
    rfl
  · exact hintLoop_path scheme V h

theorem completionLoop_path (pargv : Kpargv) (iter : List EntryId) (completions : List String)
    (session : Ksession) :
    (completionLoop scheme V getlines pargv iter completions session).2.path = session.path := by
  induction iter generalizing completions session with
  | nil => rfl
  | cons candidate iter ih =>
    unfold completionLoop
    split
    · exact ih _ _
    · dsimp only
      split <;> exact ih _ _

theorem helpLoop_path (pargv : Kpargv) (iter : List EntryId) (helps : List (String × String))
    (session : Ksession) :
    (helpLoop scheme V getlines pargv iter helps session).2.path = session.path := by
  induction iter generalizing helps session with
  | nil => rfl
  | cons candidate iter ih =>
    unfold helpLoop
    split
    · exact ih _ _
    · dsimp only
      split <;> exact ih _ _

end Ksession

namespace Kexec

variable {scheme : Kscheme} {env : KexecEnv} {exec exec' : Kexec} {w w' : World}

/-- The path is saved before it is restored. -/
theorem kexecExec_savedPath (h : kexecExec scheme env exec w = some (exec', w')) :
    exec'.savedPath = some w.session.path := by
  obtain ⟨⟨prepared, world⟩, hprepare, hcontinue⟩ := Option.map_eq_some_iff.mp h
  cases hcontinue
  obtain ⟨-, -, -, hworld⟩ := kexecPrepare_spec hprepare
  have hsaved : prepared.savedPath = some world.session.path := by
    unfold kexecPrepare at hprepare
    split at hprepare
    · cases hprepare
    · obtain ⟨pty, -, hprepare⟩ := Option.bind_eq_some_iff.mp hprepare
      obtain ⟨stdinEnds, -, hprepare⟩ := Option.bind_eq_some_iff.mp hprepare
      obtain ⟨stdoutEnds, -, hprepare⟩ := Option.bind_eq_some_iff.mp hprepare
      obtain ⟨stderrEnds, -, hprepare⟩ := Option.bind_eq_some_iff.mp hprepare
      obtain ⟨linked, -, heq⟩ := Option.map_eq_some_iff.mp hprepare
      cases heq
      rfl
  rw [hworld] at hsaved
  exact hsaved

end Kexec

namespace Ktpd

variable {env : KtpdEnv} {ktpd ktpd' ktpd'' : Ktpd env} {sys : KtpdSys}

/-- The path that the client is to know when all messages have come. -/
def shownPath (ktpd : Ktpd env) : Option Kpath :=
  match ktpd.exec with
  | none => some ktpd.world.session.path
  | some exec => exec.savedPath

/-- The path is not changed but for that of a running command, and a running command goes on. -/
structure Still (ktpd ktpd' : Ktpd env) : Prop where
  saved : ktpd'.exec.map (fun exec => exec.savedPath) = ktpd.exec.map fun exec => exec.savedPath
  path : ktpd.exec = none → ktpd'.world.session.path = ktpd.world.session.path

namespace Still

theorem of_eq (hexec : ktpd'.exec = ktpd.exec)
    (hpath : ktpd'.world.session.path = ktpd.world.session.path) : Still ktpd ktpd' :=
  ⟨by rw [hexec], fun _ => hpath⟩

theorem refl (ktpd : Ktpd env) : Still ktpd ktpd := .of_eq rfl rfl

theorem trans (h : Still ktpd ktpd') (h' : Still ktpd' ktpd'') : Still ktpd ktpd'' where
  saved := h'.saved.trans h.saved
  path hnone := by
    have hnone' : ktpd'.exec = none := by
      rw [← Option.map_eq_none_iff, h.saved, hnone]
      rfl
    exact (h'.path hnone').trans (h.path hnone)

theorem shown (h : Still ktpd ktpd') : ktpd'.shownPath = ktpd.shownPath := by
  have hsaved := h.saved
  unfold shownPath
  cases hexec : ktpd.exec with
  | none =>
    rw [hexec, Option.map_none, Option.map_eq_none_iff] at hsaved
    rw [hsaved]
    exact congrArg some (h.path hexec)
  | some exec =>
    rw [hexec, Option.map_some, Option.map_eq_some_iff] at hsaved
    obtain ⟨exec', hexec', heq⟩ := hsaved
    rw [hexec']
    exact heq

end Still

section Frames

theorem promptLoop_path (scheme : Kscheme) (V : Oracle) (levels : List EntryId)
    (session : Ksession) : (promptLoop scheme V levels session).2.path = session.path := by
  induction levels generalizing session with
  | nil => rfl
  | cons view levels ih =>
    unfold promptLoop
    split
    · exact ih session
    · dsimp only
      split <;> split
      · rfl
      · rfl
      · exact ih _
      · exact ih _

theorem withSession_still (session : Ksession) (h : session.path = ktpd.world.session.path) :
    Still ktpd (ktpd.withSession session) := .of_eq rfl h

theorem getStream_still (ktpd : Ktpd env) (sys : KtpdSys) (exec : KtpdExec) (fd : Option Fd)
    (isStderr : Bool) : Still ktpd (ktpd.getStream sys exec fd isStderr).2 := by
  unfold getStream
  dsimp only
  split
  · exact .refl ktpd
  · exact .of_eq rfl rfl

theorem sessionLog_still (ktpd : Ktpd env) (sys : KtpdSys) (exec : KtpdExec) :
    Still ktpd (ktpd.sessionLog sys exec) := by
  unfold sessionLog
  induction exec.contexts generalizing ktpd with
  | nil => exact .refl ktpd
  | cons context contexts ih =>
    rw [List.foldl_cons]
    split
    · exact ih ktpd
    · split
      · exact ih ktpd
      · rename_i log _ _
        exact (withSession_still (ktpd.world.session.noteStopped
          (sys.V log context.pargv.pargs none)) rfl).trans (ih _)

theorem kexecFree_path (ktpd : Ktpd env) (exec : KtpdExec) :
    (ktpd.kexecFree exec).world.session.path = ktpd.world.session.path := by
  have hcontexts : ∀ (contexts : List Kcontext) (w : World),
      (contexts.foldl (fun world context =>
        ((world.close context.stdin).close context.stdout).close context.stderr) w).session =
        w.session := by
    intro contexts
    induction contexts with
    | nil => exact fun w => rfl
    | cons context contexts ih =>
      intro w
      rw [List.foldl_cons, ih]
      simp
  unfold kexecFree
  simp [hcontexts]

theorem kexecFree_still (ktpd : Ktpd env) (exec : KtpdExec) : Still ktpd (ktpd.kexecFree exec) :=
  .of_eq rfl (kexecFree_path ktpd exec)

theorem pushStdin_still (sys : KtpdSys) (ktpd : Ktpd env) : Still ktpd (ktpd.pushStdin sys) := by
  cases hfd : ktpd.stdinFd with
  | none =>
    rw [pushStdin_of_none hfd]
    exact .refl ktpd
  | some fd =>
    obtain ⟨exec, hexec, hstdin⟩ := stdinFd_eq_some.mp hfd
    rw [pushStdin_eq hexec hstdin]
    refine ⟨?_, fun hnone => ?_⟩
    · rw [hexec]
      rfl
    · rw [hexec] at hnone
      cases hnone

theorem processStdin_still (sys : KtpdSys) (ktpd : Ktpd env) (msg : KtpMsg) :
    Still ktpd (ktpd.processStdin sys msg) := by
  unfold processStdin
  split
  · exact .refl ktpd
  · rename_i exec fd data hstdin
    obtain ⟨hexec, -⟩ := stdinOf_eq_some.mp hstdin
    refine ⟨?_, fun _ => rfl⟩
    rw [hexec]
    rfl

theorem processStdinClose_still (sys : KtpdSys) (ktpd : Ktpd env) :
    Still ktpd (ktpd.processStdinClose sys) := by
  unfold processStdinClose
  split
  · exact .refl ktpd
  · have h := pushStdin_still sys { ktpd with stdinMustBeClosed := true }
    exact ⟨h.saved, h.path⟩

theorem Closes.still (h : Closes ktpd ktpd') : Still ktpd ktpd' := by
  cases h with
  | none => exact .refl ktpd
  | @closed exec fd isStderr hexec hfd =>
    refine ⟨?_, fun hnone => ?_⟩
    · rw [hexec]
      exact congrArg (fun e : Kexec => some e.savedPath) (emptyStream_same exec isStderr).toKexec
    · rw [hexec] at hnone
      cases hnone

theorem processNotification_still (ktpd : Ktpd env) (msg : KtpMsg) :
    Still ktpd (ktpd.processNotification msg) := by
  unfold processNotification processWinch
  split
  · exact .refl ktpd
  · dsimp only
    split
    · exact .refl ktpd
    · split
      · exact withSession_still _ rfl
      · exact .refl ktpd

theorem receive_still (sys : KtpdSys) (ktpd : Ktpd env) (fd : Fd) (isStderr : Bool) :
    Still ktpd (ktpd.receive sys fd isStderr) := by
  unfold receive
  split
  · exact .refl ktpd
  · rename_i exec hexec
    obtain ⟨hsame, -, -⟩ := getStream_spec ktpd sys exec (some fd) isStderr
    refine ⟨?_, fun hnone => ?_⟩
    · rw [hexec]
      exact congrArg (fun e : Kexec => some e.savedPath) hsame.toKexec
    · rw [hexec] at hnone
      cases hnone

theorem poll_still {fd : Fd} {revents : Revents}
    (h : ktpd.step (.poll fd revents, sys) = some ktpd') : Still ktpd ktpd' :=
  poll_rel .refl Still.trans (pushStdin_still sys) (fun k => receive_still sys k fd)
    (fun _ _ => .of_eq rfl rfl) h

theorem reapLoop_savedPath (reports : List (Pid × WaitStatus)) (exec : Kexec) (w : World) :
    (reapLoop env reports exec w).1.savedPath = exec.savedPath := by
  induction reports generalizing exec w with
  | nil => rfl
  | cons report reports ih => exact ih _ _

theorem reapChildren_still (sys : KtpdSys) (ktpd : Ktpd env) (reports : List (Pid × WaitStatus)) :
    Still ktpd (ktpd.reapChildren sys reports) := by
  unfold reapChildren
  split
  · exact .of_eq rfl rfl
  · rename_i exec hexec
    refine ⟨?_, fun hnone => ?_⟩
    · rw [hexec]
      exact congrArg some (reapLoop_savedPath reports exec.toKexec ktpd.world)
    · rw [hexec] at hnone
      cases hnone

end Frames

end Ktpd

end Klish
