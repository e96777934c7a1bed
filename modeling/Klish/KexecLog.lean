import Mathlib.Data.List.Chain
import Klish.KexecSpec

/-!
# The record of one stage

The ACTIONs that a stage has run so far are those that the documented fold selects up to its
current place in the list.
-/

namespace Klish

namespace Kexec

/-- The reference fold over a list of ACTIONs: the ACTIONs that are run, each named by the
number of ACTIONs after it, and the final retcode. -/
def refFold (dryRun : Bool) (result : ℕ → ℤ) : List Kaction → ℤ → List ℕ × ℤ
  | [], retcode => ([], retcode)
  | action :: rest, retcode =>
    if !action.meetExecConditions retcode then refFold dryRun result rest retcode
    else if dryRun && !action.isPermanent then
      refFold dryRun result rest (if action.updateRetcode then 0 else retcode)
    else
      let r := refFold dryRun result rest
        (if action.updateRetcode then result rest.length else retcode)
      (rest.length :: r.1, r.2)

end Kexec

namespace ActionOutcome

/-- The ACTION was really executed. -/
def launches : ActionOutcome → Bool
  | returned _ _ | started _ => true
  | simulated | refused | ended _ => false

/-- A process was forked for the ACTION. -/
def forks : ActionOutcome → Bool
  | returned _ (some _) | started _ => true
  | returned _ none | simulated | refused | ended _ => false

end ActionOutcome

namespace ActionRecord

/-- The result of an ACTION: what a sync symbol returned, or how the process of an async one
ended. -/
def result (r : ActionRecord) : Option (ℕ × ℤ) :=
  match r.outcome with
  | .returned value _ => some (r.left, value)
  | .ended status => if r.action.isSync then none else some (r.left, status.exitstatus)
  | .simulated | .started _ | .refused => none

/-- After a process was forked, the next thing that happens in the stage is that it ends. -/
def Serial (r next : ActionRecord) : Prop :=
  r.outcome.forks = true → next.left = r.left ∧ ∃ status, next.outcome = .ended status

end ActionRecord

namespace Kexec

def stageLog (log : List ActionRecord) (stage : ℕ) : List ActionRecord :=
  log.filter fun r => r.stage == stage

/-- The ACTIONs a stage has really executed. -/
def launched (log : List ActionRecord) (stage : ℕ) : List ℕ :=
  ((stageLog log stage).filter fun r => r.outcome.launches).map ActionRecord.left

def results (log : List ActionRecord) (stage : ℕ) : List (ℕ × ℤ) :=
  (stageLog log stage).filterMap ActionRecord.result

/-- The recorded result of an ACTION of a stage. -/
def resultOf (log : List ActionRecord) (stage left : ℕ) : ℤ :=
  ((results log stage).lookup left).getD 0

section Append

variable {log : List ActionRecord} {r : ActionRecord} {stage : ℕ}

theorem stageLog_append_own (h : r.stage = stage) :
    stageLog (log ++ [r]) stage = stageLog log stage ++ [r] := by
  simp [stageLog, h]

theorem stageLog_append_other (h : r.stage ≠ stage) :
    stageLog (log ++ [r]) stage = stageLog log stage := by
  simp [stageLog, h]

theorem launched_append (h : r.stage = stage) :
    launched (log ++ [r]) stage =
      launched log stage ++ if r.outcome.launches then [r.left] else [] := by
  rw [launched, stageLog_append_own h, List.filter_append, List.map_append]
  cases hl : r.outcome.launches <;> simp [launched, hl]

theorem results_append (h : r.stage = stage) :
    results (log ++ [r]) stage = results log stage ++ r.result.toList := by
  rw [results, stageLog_append_own h, List.filterMap_append]
  cases hr : r.result <;> simp [results, hr]

end Append

/-- Names of ACTIONs in the order of the list, none of the last `b` ACTIONs among them. -/
def Descending (b : ℕ) (l : List ℕ) : Prop :=
  l.Pairwise (· > ·) ∧ ∀ k ∈ l, b ≤ k

namespace Descending

variable {b : ℕ} {l : List ℕ}

theorem nil : Descending b [] := ⟨.nil, by simp⟩

theorem weaken (h : Descending (b + 1) l) : Descending b l :=
  ⟨h.1, fun k hk => Nat.le_of_succ_le (h.2 k hk)⟩

theorem concat (h : Descending (b + 1) l) : Descending b (l ++ [b]) := by
  refine ⟨?_, ?_⟩
  · rw [List.pairwise_append]
    refine ⟨h.1, List.pairwise_singleton _ _, fun k hk j hj => ?_⟩
    rw [List.mem_singleton.mp hj]
    exact h.2 k hk
  · intro k hk
    rcases List.mem_append.mp hk with hk | hk
    · exact Nat.le_of_succ_le (h.2 k hk)
    · exact Nat.le_of_eq (List.mem_singleton.mp hk).symm

end Descending

/-- The results are those of the record. -/
def Agrees (result : ℕ → ℤ) (log : List ActionRecord) (stage : ℕ) : Prop :=
  ∀ p ∈ results log stage, result p.1 = p.2

theorem agrees_resultOf {log : List ActionRecord} {stage b : ℕ}
    (h : Descending b ((results log stage).map Prod.fst)) :
    Agrees (resultOf log stage) log stage := by
  rintro ⟨k, v⟩ hmem
  obtain ⟨l₁, l₂, heq⟩ := List.append_of_mem hmem
  have hpairwise := h.1
  rw [heq, List.map_append, List.pairwise_append] at hpairwise
  have hlookup : (results log stage).lookup k = some v := by
    refine List.lookup_eq_some_iff.mpr ⟨l₁, l₂, heq, fun p hp => ?_⟩
    have hgt : p.1 > k := hpairwise.2.2 p.1 (List.mem_map_of_mem hp) k (by simp)
    simpa using Nat.ne_of_lt hgt
  rw [resultOf, hlookup, Option.getD_some]

/-- The state of a stage between two ACTIONs: what the fold makes of the whole list is what has
been run so far and what it makes of the ACTIONs still to do. -/
structure Between (dryRun : Bool) (actions : List Kaction) (stage : ℕ) (todo : List Kaction)
    (retcode : ℤ) (log : List ActionRecord) : Prop where
  fold : ∀ result, Agrees result log stage → refFold dryRun result actions 0 =
    (launched log stage ++ (refFold dryRun result todo retcode).1,
      (refFold dryRun result todo retcode).2)
  order : Descending todo.length (launched log stage)
  resultOrder : Descending todo.length ((results log stage).map Prod.fst)
  serial : (stageLog log stage).IsChain ActionRecord.Serial
  settled : ∀ r ∈ (stageLog log stage).getLast?, r.outcome.forks = false

/-- The retcode of a context when the process of its current ACTION ends. -/
def retcodeAfter (action : Kaction) (retcode value : ℤ) : ℤ :=
  if !action.isSync && action.updateRetcode then value else retcode

/-- The state of a stage whose current ACTION has a process. -/
structure Running (dryRun : Bool) (actions : List Kaction) (stage : ℕ) (action : Kaction)
    (rest : List Kaction) (retcode : ℤ) (log : List ActionRecord) : Prop where
  fold : ∀ result, Agrees result log stage → refFold dryRun result actions 0 =
    (launched log stage ++
        (refFold dryRun result rest (retcodeAfter action retcode (result rest.length))).1,
      (refFold dryRun result rest (retcodeAfter action retcode (result rest.length))).2)
  order : Descending rest.length (launched log stage)
  resultOrder : Descending (if action.isSync then rest.length else rest.length + 1)
    ((results log stage).map Prod.fst)
  serial : (stageLog log stage).IsChain ActionRecord.Serial
  current : ∃ r ∈ (stageLog log stage).getLast?, r.outcome.forks = true ∧ r.left = rest.length ∧
    r.action = action

theorem Between.initial (dryRun : Bool) (actions : List Kaction) {stage : ℕ}
    {log : List ActionRecord} (h : stageLog log stage = []) :
    Between dryRun actions stage actions 0 log where
  fold result _ := by simp [launched, h]
  order := by
    rw [launched, h]
    exact .nil
  resultOrder := by
    rw [results, h]
    exact .nil
  serial := by
    rw [h]
    exact .nil
  settled := by simp [h]

namespace Between

variable {dryRun : Bool} {actions rest : List Kaction} {stage : ℕ} {action : Kaction}
  {retcode : ℤ} {log : List ActionRecord} {r : ActionRecord}

/-- An ACTION whose condition does not hold leaves no trace. -/
theorem skip (h : Between dryRun actions stage (action :: rest) retcode log)
    (hcond : action.meetExecConditions retcode = false) :
    Between dryRun actions stage rest retcode log where
  __ := h
  fold result hagree := by
    rw [h.fold result hagree]
    simp [refFold, hcond]
  order := h.order.weaken
  resultOrder := h.resultOrder.weaken

theorem agrees_of_append {result : ℕ → ℤ} (hagree : Agrees result (log ++ [r]) stage)
    (hr : r.stage = stage) : Agrees result log stage := by
  intro p hp
  apply hagree
  rw [results_append hr]
  exact List.mem_append_left _ hp

/-- The record of the next ACTION keeps the stage serial. -/
theorem serial_append {todo : List Kaction}
    (h : Between dryRun actions stage todo retcode log) (hr : r.stage = stage) :
    (stageLog (log ++ [r]) stage).IsChain ActionRecord.Serial := by
  rw [stageLog_append_own hr, List.isChain_append]
  refine ⟨h.serial, .singleton _, fun x hx y _ hforks => ?_⟩
  rw [h.settled x hx] at hforks
  exact absurd hforks (by simp)

theorem simulate (h : Between dryRun actions stage (action :: rest) retcode log)
    (hcond : action.meetExecConditions retcode = true)
    (hdry : (dryRun && !action.isPermanent) = true)
    (hr : r.stage = stage) (houtcome : r.outcome = .simulated) :
    Between dryRun actions stage rest (if action.updateRetcode then 0 else retcode) (log ++ [r]) where
  fold result hagree := by
    rw [h.fold result (agrees_of_append hagree hr), launched_append hr, houtcome]
    simp [refFold, hcond, hdry, ActionOutcome.launches]
  order := by
    rw [launched_append hr, houtcome]
    simpa [ActionOutcome.launches] using h.order.weaken
  resultOrder := by
    rw [results_append hr, ActionRecord.result, houtcome]
    simpa using h.resultOrder.weaken
  serial := h.serial_append hr
  settled := by
    rw [stageLog_append_own hr]
    simp [houtcome, ActionOutcome.forks]

/-- A sync symbol that returned without a grabber. -/
theorem returned (h : Between dryRun actions stage (action :: rest) retcode log)
    (hcond : action.meetExecConditions retcode = true)
    (hdry : (dryRun && !action.isPermanent) = false)
    (hr : r.stage = stage) (hleft : r.left = rest.length) {value : ℤ}
    (houtcome : r.outcome = .returned value none) :
    Between dryRun actions stage rest (if action.updateRetcode then value else retcode)
      (log ++ [r]) where
  fold result hagree := by
    have hvalue : result rest.length = value := by
      apply hagree (rest.length, value)
      rw [results_append hr, ActionRecord.result, houtcome]
      simp [hleft]
    rw [h.fold result (agrees_of_append hagree hr), launched_append hr, houtcome]
    simp [refFold, hcond, hdry, hvalue, hleft, ActionOutcome.launches]
  order := by
    rw [launched_append hr, houtcome]
    simpa [ActionOutcome.launches, hleft] using h.order.concat
  resultOrder := by
    rw [results_append hr, ActionRecord.result, houtcome]
    simpa [hleft] using h.resultOrder.concat
  serial := h.serial_append hr
  settled := by
    rw [stageLog_append_own hr]
    simp [houtcome, ActionOutcome.forks]

/-- A process was forked for the ACTION. The retcode is already that of a sync symbol. -/
theorem forked (h : Between dryRun actions stage (action :: rest) retcode log)
    (hcond : action.meetExecConditions retcode = true)
    (hdry : (dryRun && !action.isPermanent) = false)
    (hr : r.stage = stage) (hleft : r.left = rest.length) (haction : r.action = action)
    {retcode' : ℤ} (houtcome : (∃ pid, action.isSync = false ∧ r.outcome = .started pid ∧ retcode' = retcode) ∨
      ∃ value pid, action.isSync = true ∧ r.outcome = .returned value (some pid) ∧
        retcode' = if action.updateRetcode then value else retcode) :
    Running dryRun actions stage action rest retcode' (log ++ [r]) where
  fold result hagree := by
    have hlaunches : r.outcome.launches = true := by
      rcases houtcome with ⟨pid, _, ho, _⟩ | ⟨value, pid, _, ho, _⟩ <;> rw [ho] <;> rfl
    have hretcode : retcodeAfter action retcode' (result rest.length) =
        if action.updateRetcode then result rest.length else retcode := by
      rcases houtcome with ⟨pid, hsync, ho, rfl⟩ | ⟨value, pid, hsync, ho, rfl⟩
      · simp [retcodeAfter, hsync]
      · have hvalue : result rest.length = value := by
          apply hagree (rest.length, value)
          rw [results_append hr, ActionRecord.result, ho]
          simp [hleft]
        simp [retcodeAfter, hsync, hvalue]
    rw [h.fold result (agrees_of_append hagree hr), launched_append hr, hlaunches, hretcode]
    simp [refFold, hcond, hdry, hleft]
  order := by
    have hlaunches : r.outcome.launches = true := by
      rcases houtcome with ⟨pid, _, ho, _⟩ | ⟨value, pid, _, ho, _⟩ <;> rw [ho] <;> rfl
    rw [launched_append hr, hlaunches]
    simpa [hleft] using h.order.concat
  resultOrder := by
    rcases houtcome with ⟨pid, hsync, ho, _⟩ | ⟨value, pid, hsync, ho, _⟩
    · rw [results_append hr, ActionRecord.result, ho]
      simpa [hsync] using h.resultOrder
    · rw [results_append hr, ActionRecord.result, ho]
      simpa [hleft, hsync] using h.resultOrder.concat
  serial := h.serial_append hr
  current := by
    refine ⟨r, ?_, ?_, hleft, haction⟩
    · rw [stageLog_append_own hr]
      simp
    · rcases houtcome with ⟨pid, _, ho, _⟩ | ⟨value, pid, _, ho, _⟩ <;> rw [ho] <;> rfl

end Between

namespace Running

variable {dryRun : Bool} {actions rest : List Kaction} {stage : ℕ} {action : Kaction}
  {retcode : ℤ} {log : List ActionRecord} {r : ActionRecord}

/-- The process of the current ACTION has ended. -/
theorem terminate (h : Running dryRun actions stage action rest retcode log)
    (hr : r.stage = stage) (hleft : r.left = rest.length) (haction : r.action = action)
    {status : WaitStatus} (houtcome : r.outcome = .ended status) :
    Between dryRun actions stage rest (retcodeAfter action retcode status.exitstatus)
      (log ++ [r]) where
  fold result hagree := by
    have hagree' : Agrees result log stage := Between.agrees_of_append hagree hr
    have hretcode : retcodeAfter action retcode (result rest.length) =
        retcodeAfter action retcode status.exitstatus := by
      cases hsync : action.isSync with
      | true => simp [retcodeAfter, hsync]
      | false =>
        have hvalue : result rest.length = status.exitstatus := by
          apply hagree (rest.length, status.exitstatus)
          rw [results_append hr, ActionRecord.result, houtcome]
          simp [haction, hsync, hleft]
        rw [hvalue]
    rw [h.fold result hagree', hretcode, launched_append hr, houtcome]
    simp [ActionOutcome.launches]
  order := by
    rw [launched_append hr, houtcome]
    simpa [ActionOutcome.launches] using h.order
  resultOrder := by
    rw [results_append hr, ActionRecord.result, houtcome]
    have hold := h.resultOrder
    cases hsync : action.isSync with
    | true => simpa [haction, hsync] using hold
    | false =>
      rw [hsync] at hold
      simpa [haction, hsync, hleft] using Descending.concat hold
  serial := by
    rw [stageLog_append_own hr, List.isChain_append]
    refine ⟨h.serial, .singleton _, fun x hx y hy _ => ?_⟩
    obtain ⟨last, hlast, -, hlastLeft, -⟩ := h.current
    have hx' : last = x := Option.some.inj (hlast.symm.trans hx)
    have hy' : r = y := by simpa using hy
    rw [← hx', ← hy', hleft, hlastLeft]
    exact ⟨rfl, status, houtcome⟩
  settled := by
    rw [stageLog_append_own hr]
    simp [houtcome, ActionOutcome.forks]

end Running

section Congr

variable {dryRun : Bool} {actions todo rest : List Kaction} {stage : ℕ} {action : Kaction}
  {retcode : ℤ} {log log' : List ActionRecord}

theorem Between.congr (h : Between dryRun actions stage todo retcode log)
    (hlog : stageLog log' stage = stageLog log stage) :
    Between dryRun actions stage todo retcode log' := by
  have hlaunched : launched log' stage = launched log stage := by rw [launched, hlog, launched]
  have hresults : results log' stage = results log stage := by rw [results, hlog, results]
  refine ⟨fun result hagree => ?_, ?_, ?_, ?_, ?_⟩
  · rw [hlaunched]
    apply h.fold
    rwa [Agrees, hresults] at hagree
  · rw [hlaunched]
    exact h.order
  · rw [hresults]
    exact h.resultOrder
  · rw [hlog]
    exact h.serial
  · rw [hlog]
    exact h.settled

theorem Running.congr (h : Running dryRun actions stage action rest retcode log)
    (hlog : stageLog log' stage = stageLog log stage) :
    Running dryRun actions stage action rest retcode log' := by
  have hlaunched : launched log' stage = launched log stage := by rw [launched, hlog, launched]
  have hresults : results log' stage = results log stage := by rw [results, hlog, results]
  refine ⟨fun result hagree => ?_, ?_, ?_, ?_, ?_⟩
  · rw [hlaunched]
    apply h.fold
    rwa [Agrees, hresults] at hagree
  · rw [hlaunched]
    exact h.order
  · rw [hresults]
    exact h.resultOrder
  · rw [hlog]
    exact h.serial
  · rw [hlog]
    exact h.current

end Congr

end Kexec

end Klish
