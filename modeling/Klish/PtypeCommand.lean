import Klish.KtpdHint
import Klish.ParseConservation

/-!
# COMMAND

The PTYPE of a COMMAND and its completion. Validation does not take the case of characters into
account, and the server filters the completions by the typed word.
-/

namespace Klish

/-- The functions of the library that the plugin and the server call. -/
structure CommandLib where
  tolower : Char → Char
  /-- `faux_str_casecmpn` returned 0. -/
  casecmpn : String → String → ℕ → Bool
  casecmpn_iff : ∀ s t n, casecmpn s t n = true ↔
    (s.toList.take n).map tolower = (t.toList.take n).map tolower
  isEol : Char → Bool
  /-- The lines `faux_str_getline` returns one after another. -/
  getlines : String → List String
  mem_getlines : ∀ s line, line ≠ "" → (line ∈ getlines s ↔ line.toList ∈ s.toList.splitOnP isEol)

/-- `klish_ptype_COMMAND_t` -/
structure KlishPtypeCommand where
  cmd : String
  len : ℕ
  minLen : ℕ

/-- `klish_ptype_COMMAND_init`. The data is made from the ENTRY once, and is kept there. -/
def klishPtypeCommandInit (entry : Kentry) : KlishPtypeCommand :=
  match entry.value with
  | some cmd =>
    if '|' ∈ cmd.toList then
      let minLen := cmd.toList.idxOf '|'
      let len := cmd.length
      -- The mark is left out, and the terminating zero does not count.
      ⟨String.ofList (cmd.toList.take minLen ++ cmd.toList.drop (minLen + 1)), len - 1, minLen⟩
    else ⟨cmd, cmd.length, cmd.length⟩
  | none => ⟨entry.name, entry.name.length, entry.name.length⟩

/-- `kcontext_fwrite` of a symbol, with an empty buffer before. -/
def contextFwrite (line : String) (len : ℕ) : Option String :=
  if len < 1 then none else some (String.ofList (line.toList.take len))

/-- The return code of a symbol and its output. -/
structure SymEnd where
  retcode : ℤ
  out : Option String

/-- The local execution of an ENTRY with one ACTION that is such a symbol. -/
def SymEnd.exec (r : SymEnd) : LocalExec := ⟨true, r.retcode, r.out, false⟩

variable (lib : CommandLib)

/-- `klish_ptype_COMMAND` -/
def klishPtypeCommand (entry : Kentry) (value : String) : SymEnd :=
  let udata := klishPtypeCommandInit entry
  let len := value.length
  if len < udata.minLen ∨ udata.len < len then ⟨-1, none⟩
  else if !lib.casecmpn value udata.cmd len then ⟨-1, none⟩
  else ⟨0, contextFwrite udata.cmd udata.len⟩

/-- `klish_completion_COMMAND` -/
def klishCompletionCommand (entry : Kentry) : SymEnd :=
  let udata := klishPtypeCommandInit entry
  ⟨0, contextFwrite udata.cmd udata.len⟩

/-- The name of a COMMAND without the mark. -/
def commandOf (entry : Kentry) : String := (klishPtypeCommandInit entry).cmd

/-- The number of characters that must be typed. -/
def minLenOf (entry : Kentry) : ℕ := (klishPtypeCommandInit entry).minLen

section Init

variable (entry : Kentry)

theorem init_len : (klishPtypeCommandInit entry).len = (commandOf entry).length := by
  unfold commandOf klishPtypeCommandInit
  split
  · rename_i cmd _
    split
    · rename_i hmark
      have hlt := List.idxOf_lt_length_of_mem hmark
      simp only [String.length_ofList, List.length_append, List.length_take, List.length_drop,
        String.length_toList] at hlt ⊢
      omega
    · rfl
  · rfl

theorem minLenOf_le : minLenOf entry ≤ (commandOf entry).length := by
  unfold minLenOf commandOf klishPtypeCommandInit
  split
  · rename_i cmd _
    split
    · rename_i hmark
      have hlt := List.idxOf_lt_length_of_mem hmark
      simp only [String.length_ofList, List.length_append, List.length_take, List.length_drop,
        String.length_toList] at hlt ⊢
      omega
    · exact Nat.le_refl _
  · exact Nat.le_refl _

theorem contextFwrite_command : contextFwrite (commandOf entry) (klishPtypeCommandInit entry).len =
    if commandOf entry = "" then none else some (commandOf entry) := by
  unfold contextFwrite
  rw [init_len]
  by_cases hempty : commandOf entry = ""
  · rw [if_pos hempty, hempty]
    rfl
  · have hpos : ¬(commandOf entry).length < 1 := by
      rw [Nat.lt_one_iff, ← String.length_toList, List.length_eq_zero_iff]
      simpa using hempty
    have htake : (commandOf entry).toList.take (commandOf entry).length =
        (commandOf entry).toList := List.take_of_length_le (Nat.le_of_eq String.length_toList)
    rw [if_neg hpos, if_neg hempty, htake, String.ofList_toList]

end Init

example : minLenOf { Kentry.new "set" 0 with value := some "env|ironment" } = 3 ∧
    commandOf { Kentry.new "set" 0 with value := some "env|ironment" } = "environment" := by
  decide

/-- The word is a beginning of the command, but for the case, and is long enough. -/
def Fits (entry : Kentry) (word : String) : Prop :=
  minLenOf entry ≤ word.length ∧
    word.toList.map lib.tolower = ((commandOf entry).toList.take word.length).map lib.tolower

instance (entry : Kentry) (word : String) : Decidable (Fits lib entry word) :=
  inferInstanceAs (Decidable (_ ∧ _))

section Fits

variable {lib} {entry : Kentry} {word : String}

theorem length_le_of_begins (h : word.toList.map lib.tolower =
    ((commandOf entry).toList.take word.length).map lib.tolower) :
    word.length ≤ (commandOf entry).length := by
  have hlen := congrArg List.length h
  simp only [List.length_map, List.length_take, String.length_toList] at hlen
  omega

/-- An empty command has no other beginning. -/
theorem eq_empty_of_begins (hempty : commandOf entry = "") (h : word.toList.map lib.tolower =
    ((commandOf entry).toList.take word.length).map lib.tolower) : word = "" := by
  have hle := length_le_of_begins h
  rw [hempty] at hle
  rw [← String.toList_eq_nil_iff, ← List.length_eq_zero_iff, String.length_toList]
  exact Nat.le_zero.mp hle

theorem casecmpn_word : lib.casecmpn word (commandOf entry) word.length = true ↔
    word.toList.map lib.tolower =
      ((commandOf entry).toList.take word.length).map lib.tolower := by
  have htake : word.toList.take word.length = word.toList :=
    List.take_of_length_le (Nat.le_of_eq String.length_toList)
  rw [lib.casecmpn_iff, htake]

/-- The PTYPE writes the command if the word fits. -/
theorem klishPtypeCommand_eq :
    klishPtypeCommand lib entry word = if Fits lib entry word then
      ⟨0, if commandOf entry = "" then none else some (commandOf entry)⟩ else ⟨-1, none⟩ := by
  unfold klishPtypeCommand
  dsimp only
  have hlen := init_len entry
  split
  · rename_i hbounds
    rw [if_neg]
    rintro ⟨hmin, hbegins⟩
    have hle := length_le_of_begins hbegins
    unfold minLenOf at hmin
    omega
  · rename_i hbounds
    have hmin : minLenOf entry ≤ word.length := by
      unfold minLenOf
      omega
    split
    · rename_i hcompare
      rw [if_neg]
      rintro ⟨-, hbegins⟩
      have hequal := casecmpn_word.mpr hbegins
      unfold commandOf at hequal
      rw [hequal] at hcompare
      cases hcompare
    · rename_i hcompare
      have hequal : lib.casecmpn word (commandOf entry) word.length = true := by
        simpa [commandOf] using hcompare
      rw [if_pos ⟨hmin, casecmpn_word.mp hequal⟩]
      exact congrArg (SymEnd.mk 0) (contextFwrite_command entry)

theorem fits_command (entry : Kentry) : Fits lib entry (commandOf entry) := by
  refine ⟨minLenOf_le entry, ?_⟩
  rw [List.take_of_length_le (Nat.le_of_eq String.length_toList)]

theorem fits_iff : Fits lib entry word ↔ minLenOf entry ≤ word.toList.length ∧
    word.toList.map lib.tolower <+: (commandOf entry).toList.map lib.tolower := by
  rw [List.prefix_iff_eq_take, List.length_map, ← List.map_take, String.length_toList]
  rfl

/-- Some word with this beginning fits if the beginning does but for its length. -/
theorem exists_fits_iff {p : String} : (∃ t, Fits lib entry (p ++ t)) ↔
    p.toList.map lib.tolower = ((commandOf entry).toList.take p.length).map lib.tolower := by
  constructor
  · rintro ⟨t, -, hbegins⟩
    have htake := congrArg (List.take p.length) hbegins
    rw [← List.map_take, ← List.map_take, List.take_take, String.toList_append,
      List.take_append_of_le_length (Nat.le_of_eq String.length_toList.symm),
      List.take_of_length_le (Nat.le_of_eq String.length_toList)] at htake
    have hmin : min p.length (p ++ t).length = p.length := by
      rw [String.length_append]
      omega
    rwa [hmin] at htake
  · intro hbegins
    have hle := length_le_of_begins hbegins
    have hmin := minLenOf_le entry
    refine ⟨String.ofList ((commandOf entry).toList.drop p.length), ?_, ?_⟩
    · simp only [String.length_append, String.length_ofList, List.length_drop, String.length_toList]
      omega
    · have hall : (commandOf entry).toList.take
          (p ++ String.ofList ((commandOf entry).toList.drop p.length)).length =
            (commandOf entry).toList.take p.length ++ (commandOf entry).toList.drop p.length := by
        rw [List.take_append_drop]
        apply List.take_of_length_le
        simp only [String.length_append, String.length_ofList, List.length_drop,
          String.length_toList]
        omega
      rw [hall, String.toList_append, String.toList_ofList, List.map_append, List.map_append,
        hbegins]

end Fits

namespace Ksession

section Offers

variable {scheme : Kscheme} {V : Oracle} {getlines : String → List String} {pargv : Kpargv}

theorem mem_addSorted {α : Type} [DecidableEq α] {le : α → α → Bool} {x y : α} {l : List α} :
    y ∈ addSorted le x l ↔ y = x ∨ y ∈ l := by
  induction l with
  | nil => simp [addSorted]
  | cons z l ih =>
    unfold addSorted
    split
    · rename_i hx
      simp [hx]
    · split
      · simp
      · rw [List.mem_cons, List.mem_cons, ih]
        exact or_left_comm

theorem mem_foldl_addSorted {α : Type} [DecidableEq α] {le : α → α → Bool} {y : α}
    (xs l : List α) : y ∈ xs.foldl (fun l x => addSorted le x l) l ↔ y ∈ xs ∨ y ∈ l := by
  induction xs generalizing l with
  | nil => simp
  | cons x xs ih =>
    rw [List.foldl_cons, ih, mem_addSorted, List.mem_cons]
    tauto

/-- The suffixes that one candidate gives. -/
def candidateSuffixes (scheme : Kscheme) (V : Oracle) (getlines : String → List String)
    (pargv : Kpargv) (candidate : EntryId) : List String :=
  match hintEntry scheme candidate .completion with
  | none => []
  | some completion =>
    match execOutput (V completion pargv.pargs (some ⟨candidate, pargv.lastArg⟩)) with
    | none => []
    | some out => completionSuffixes getlines pargv.lastArg out

/-- The list of the server has the suffixes of all candidates. -/
theorem mem_completionLoop (iter : List EntryId) (completions : List String) (session : Ksession)
    {s : String} : s ∈ (completionLoop scheme V getlines pargv iter completions session).1 ↔
      s ∈ completions ∨ ∃ c ∈ iter, s ∈ candidateSuffixes scheme V getlines pargv c := by
  induction iter generalizing completions session with
  | nil => simp [completionLoop]
  | cons c iter ih =>
    have hstep : ∀ list session', (∀ s', s' ∈ list ↔ s' ∈ completions ∨
        s' ∈ candidateSuffixes scheme V getlines pargv c) →
        (s ∈ (completionLoop scheme V getlines pargv iter list session').1 ↔ s ∈ completions ∨
          ∃ c' ∈ c :: iter, s ∈ candidateSuffixes scheme V getlines pargv c') := by
      intro list session' hlist
      rw [ih, hlist]
      simp only [List.mem_cons, exists_eq_or_imp]
      exact or_assoc
    unfold completionLoop
    split
    · rename_i hnone
      exact hstep _ _ fun s' => by simp [candidateSuffixes, hnone]
    · rename_i completion hsome
      dsimp only
      split
      · rename_i hout
        exact hstep _ _ fun s' => by simp [candidateSuffixes, hsome, hout]
      · rename_i out hout
        refine hstep _ _ fun s' => ?_
        rw [mem_foldl_addSorted]
        simp [candidateSuffixes, hsome, hout, or_comm]

/-- A suffix completes the word to a line of the output. -/
theorem mem_completionSuffixes {p out s : String} :
    s ∈ completionSuffixes getlines (some p) out ↔ p ++ s ∈ getlines out := by
  unfold completionSuffixes
  simp only [Option.getD_some, List.mem_map, List.mem_filter, List.isPrefixOf_iff_prefix]
  constructor
  · rintro ⟨line, ⟨hline, t, ht⟩, rfl⟩
    have heq : p ++ String.ofList (line.toList.drop p.toList.length) = line := by
      rw [← String.toList_inj, String.toList_append, String.toList_ofList, ← ht,
        List.drop_left]
    rwa [heq]
  · intro hline
    refine ⟨p ++ s, ⟨hline, ?_⟩, ?_⟩
    · rw [String.toList_append]
      exact List.prefix_append _ _
    · rw [String.toList_append, List.drop_left, String.ofList_toList]

end Offers

/-- The ENTRY is a COMMAND: these symbols are the ACTIONs of its PTYPE and of its COMPL. -/
structure CommandEntry (lib : CommandLib) (scheme : Kscheme) (V : Oracle) (e : EntryId) :
    Prop where
  ptype : ∃ ptype, scheme.nestedByPurpose e .ptype = some ptype ∧
    ∀ pargs word, V ptype pargs (some ⟨e, some word⟩) =
      (klishPtypeCommand lib (scheme.entry e) word).exec
  completion : ∃ completion, hintEntry scheme e .completion = some completion ∧
    ∀ pargs value, V completion pargs (some ⟨e, value⟩) =
      (klishCompletionCommand (scheme.entry e)).exec

/-- What the completion of a typed word and the validation of words have to do with each other. -/
structure CompletionLaw (lib : CommandLib) (scheme : Kscheme) (V : Oracle) (pargv : Kpargv)
    (session : Ksession) (e : EntryId) (p : String) : Prop where
  offered : ∀ pargs, (∃ t v, accepts scheme V e pargs (p ++ t) = some v) →
    p.length ≤ (commandOf (scheme.entry e)).length →
      ∃ s ∈ (completionLoop scheme V lib.getlines pargv [e] [] session).1,
        ∃ v, accepts scheme V e pargs (p ++ s) = some v
  sound : ∀ pargs, ∀ s ∈ (completionLoop scheme V lib.getlines pargv [e] [] session).1,
    ∃ v, accepts scheme V e pargs (p ++ s) = some v
  stable : ∀ pargs w v, accepts scheme V e pargs w = some v →
    v = commandOf (scheme.entry e) ∧ accepts scheme V e pargs v = some v

/-- The lines of the text that is offered as the command. -/
def linesOf (lib : CommandLib) (entry : Kentry) : List (List Char) :=
  (commandOf entry).toList.splitOnP lib.isEol

/-- The typed word is in the case of the command. A command may have several lines, and those that
the word begins must be short forms of it. -/
structure CaseAgrees (lib : CommandLib) (entry : Kentry) (p : String) : Prop where
  sameCase : lib.casecmpn p (commandOf entry) p.length = true →
    ∃ line ∈ linesOf lib entry, p.toList <+: line
  shortForms : ∀ line ∈ linesOf lib entry, p.toList <+: line → minLenOf entry ≤ line.length ∧
    line.map lib.tolower <+: (commandOf entry).toList.map lib.tolower

/-- A command in one line has to begin with the word if it does so up to case. -/
theorem caseAgrees_line {lib : CommandLib} {entry : Kentry} {p : String}
    (hline : ∀ c ∈ (commandOf entry).toList, lib.isEol c = false) :
    CaseAgrees lib entry p ↔
      (lib.casecmpn p (commandOf entry) p.length = true →
        p.toList <+: (commandOf entry).toList) := by
  have hlines : linesOf lib entry = [(commandOf entry).toList] :=
    List.splitOnP_eq_singleton fun c hc => by simp [hline c hc]
  constructor
  · intro h hcompare
    obtain ⟨line, hmem, hprefix⟩ := h.sameCase hcompare
    rw [hlines, List.mem_singleton] at hmem
    rwa [hmem] at hprefix
  · intro h
    refine ⟨fun hcompare => ⟨_, hlines ▸ List.mem_singleton_self _, h hcompare⟩, ?_⟩
    intro line hmem _
    rw [hlines, List.mem_singleton] at hmem
    rw [hmem, String.length_toList]
    exact ⟨minLenOf_le entry, List.prefix_rfl⟩

/-- The lines that a word begins. -/
theorem mem_lines {lib : CommandLib} {entry : Kentry} {p line : String} (hp : p ≠ "")
    (hbegins : p.toList <+: line.toList) :
    line ∈ lib.getlines (commandOf entry) ↔ line.toList ∈ linesOf lib entry := by
  refine lib.mem_getlines _ _ fun hempty => hp ?_
  rw [hempty, String.toList_empty, List.prefix_nil] at hbegins
  exact String.toList_eq_nil_iff.mp hbegins

section Law

variable {lib : CommandLib} {scheme : Kscheme} {V : Oracle} {pargv : Kpargv} {session : Ksession}
  {e : EntryId} {p : String} (h : CommandEntry lib scheme V e)
include h

/-- A word that fits is accepted, and is replaced by the command. -/
theorem CommandEntry.accepts_eq (pargs : List Kparg) (w : String) :
    accepts scheme V e pargs w =
      if Fits lib (scheme.entry e) w then some (commandOf (scheme.entry e)) else none := by
  obtain ⟨ptype, hptype, hV⟩ := h.ptype
  unfold accepts
  rw [hptype]
  dsimp only
  rw [hV, klishPtypeCommand_eq]
  by_cases hfits : Fits lib (scheme.entry e) w
  · rw [if_pos hfits, if_pos hfits]
    by_cases hempty : commandOf (scheme.entry e) = ""
    · -- There is no output, and the word is left.
      have hw : w = "" := eq_empty_of_begins hempty hfits.2
      rw [if_pos hempty, hempty, hw]
      rfl
    · have hout : strIsEmpty (some (commandOf (scheme.entry e))) = false := by
        simpa [strIsEmpty] using hempty
      rw [if_neg hempty]
      simp only [SymEnd.exec, and_self, if_true, hout]
      rfl
  · rw [if_neg hfits, if_neg hfits]
    rfl

theorem CommandEntry.accepts_iff {pargs : List Kparg} {w v : String} :
    accepts scheme V e pargs w = some v ↔
      Fits lib (scheme.entry e) w ∧ v = commandOf (scheme.entry e) := by
  rw [h.accepts_eq]
  split
  · rename_i hfits
    rw [Option.some_inj]
    exact ⟨fun heq => ⟨hfits, heq.symm⟩, fun heq => heq.2.symm⟩
  · rename_i hfits
    exact ⟨fun heq => (nomatch heq), fun heq => absurd heq.1 hfits⟩

theorem CommandEntry.exists_accepts {pargs : List Kparg} {w : String} :
    (∃ v, accepts scheme V e pargs w = some v) ↔ Fits lib (scheme.entry e) w := by
  simp only [h.accepts_iff, exists_and_left, exists_eq, and_true]

theorem CommandEntry.mem_offers (hlast : pargv.lastArg = some p) {s : String} :
    s ∈ (completionLoop scheme V lib.getlines pargv [e] [] session).1 ↔
      commandOf (scheme.entry e) ≠ "" ∧ p ++ s ∈ lib.getlines (commandOf (scheme.entry e)) := by
  obtain ⟨completion, hcompletion, hV⟩ := h.completion
  have hout : execOutput (klishCompletionCommand (scheme.entry e)).exec =
      if commandOf (scheme.entry e) = "" then none else some (commandOf (scheme.entry e)) :=
    contextFwrite_command (scheme.entry e)
  rw [mem_completionLoop]
  unfold candidateSuffixes
  simp only [List.not_mem_nil, false_or, List.mem_singleton, exists_eq_left, hcompletion, hV, hout,
    hlast]
  by_cases hempty : commandOf (scheme.entry e) = ""
  · rw [if_pos hempty]
    simp [hempty]
  · rw [if_neg hempty]
    dsimp only
    rw [mem_completionSuffixes]
    simp [hempty]

/-- An accepted word is replaced by the command. -/
theorem CommandEntry.stable {pargs : List Kparg} {w v : String}
    (hw : accepts scheme V e pargs w = some v) :
    v = commandOf (scheme.entry e) ∧ accepts scheme V e pargs v = some v := by
  obtain ⟨-, rfl⟩ := h.accepts_iff.mp hw
  exact ⟨rfl, h.accepts_iff.mpr ⟨fits_command _, rfl⟩⟩

/-- What is offered completes the word to the lines that begin with it. -/
theorem CommandEntry.law_iff_lines (hp : p ≠ "") (hlast : pargv.lastArg = some p) :
    CompletionLaw lib scheme V pargv session e p ↔
      commandOf (scheme.entry e) = "" ∨
      ((lib.casecmpn p (commandOf (scheme.entry e)) p.length = true →
          ∃ line ∈ lib.getlines (commandOf (scheme.entry e)), p.toList <+: line.toList) ∧
        ∀ line ∈ lib.getlines (commandOf (scheme.entry e)), p.toList <+: line.toList →
          Fits lib (scheme.entry e) line) := by
  have hline : ∀ {line : String}, p.toList <+: line.toList → ∃ s, line = p ++ s := by
    rintro line ⟨t, ht⟩
    refine ⟨String.ofList t, ?_⟩
    rw [← String.toList_inj, String.toList_append, String.toList_ofList, ht]
  have hbegins : ∀ s : String, p.toList <+: (p ++ s).toList := by
    intro s
    rw [String.toList_append]
    exact List.prefix_append _ _
  constructor
  · intro hlaw
    by_cases hempty : commandOf (scheme.entry e) = ""
    · exact .inl hempty
    · refine .inr ⟨fun hcompare => ?_, fun line hmem hprefix => ?_⟩
      · rw [casecmpn_word] at hcompare
        obtain ⟨t, ht⟩ := exists_fits_iff.mpr hcompare
        obtain ⟨s, hs, -⟩ := hlaw.offered [] ⟨t, h.exists_accepts.mpr ht⟩
          (length_le_of_begins hcompare)
        exact ⟨p ++ s, ((h.mem_offers hlast).mp hs).2, hbegins s⟩
      · obtain ⟨s, rfl⟩ := hline hprefix
        exact h.exists_accepts.mp (hlaw.sound [] s ((h.mem_offers hlast).mpr ⟨hempty, hmem⟩))
  · intro hcond
    refine ⟨fun pargs hsome _ => ?_, fun pargs s hs => ?_, fun pargs w v hw => h.stable hw⟩
    · obtain ⟨t, ht⟩ := hsome
      have hcompare := exists_fits_iff.mp ⟨t, h.exists_accepts.mp ht⟩
      rcases hcond with hempty | ⟨hlines, hfit⟩
      · exact absurd (eq_empty_of_begins hempty hcompare) hp
      · obtain ⟨line, hmem, hprefix⟩ := hlines (casecmpn_word.mpr hcompare)
        have hfits := hfit line hmem hprefix
        obtain ⟨s, rfl⟩ := hline hprefix
        refine ⟨s, (h.mem_offers hlast).mpr ⟨fun hempty => ?_, hmem⟩, h.exists_accepts.mpr hfits⟩
        exact hp (eq_empty_of_begins hempty hcompare)
    · obtain ⟨hne, hmem⟩ := (h.mem_offers hlast).mp hs
      rcases hcond with hempty | ⟨-, hfit⟩
      · exact absurd hempty hne
      · exact h.exists_accepts.mpr (hfit _ hmem (hbegins s))

/-- Completion and validation of a COMMAND agree exactly if the typed word has the case of the
command, or could not be accepted in any case. -/
theorem completion_agrees_iff (hp : p ≠ "") (hlast : pargv.lastArg = some p) :
    CompletionLaw lib scheme V pargv session e p ↔ CaseAgrees lib (scheme.entry e) p := by
  rw [h.law_iff_lines hp hlast]
  have hpne : p.toList ≠ [] := fun hnil => hp (String.toList_eq_nil_iff.mp hnil)
  constructor
  · rintro (hempty | ⟨hsame, hfits⟩)
    · -- No word begins an empty command, and it has no lines to offer.
      have hlines : linesOf lib (scheme.entry e) = [[]] := by
        rw [linesOf, hempty]
        rfl
      refine ⟨fun hcompare => ?_, fun line hmem hprefix => ?_⟩
      · exact absurd (eq_empty_of_begins hempty (casecmpn_word.mp hcompare)) hp
      · rw [hlines, List.mem_singleton] at hmem
        rw [hmem, List.prefix_nil] at hprefix
        exact absurd hprefix hpne
    · refine ⟨fun hcompare => ?_, fun line hmem hprefix => ?_⟩
      · obtain ⟨line, hmem, hprefix⟩ := hsame hcompare
        exact ⟨line.toList, (mem_lines hp hprefix).mp hmem, hprefix⟩
      · have hmem' : String.ofList line ∈ lib.getlines (commandOf (scheme.entry e)) := by
          rw [mem_lines hp (by rwa [String.toList_ofList]), String.toList_ofList]
          exact hmem
        have hfit := hfits _ hmem' (by rwa [String.toList_ofList])
        rw [fits_iff, String.toList_ofList] at hfit
        exact hfit
  · intro hagrees
    refine .inr ⟨fun hcompare => ?_, fun line hmem hprefix => ?_⟩
    · obtain ⟨line, hmem, hprefix⟩ := hagrees.sameCase hcompare
      refine ⟨String.ofList line, ?_, by rwa [String.toList_ofList]⟩
      rw [mem_lines hp (by rwa [String.toList_ofList]), String.toList_ofList]
      exact hmem
    · exact fits_iff.mpr (hagrees.shortForms _ ((mem_lines hp hprefix).mp hmem) hprefix)

end Law

/-- ASCII letters, and lines that end with a line feed. -/
def asciiLib : CommandLib where
  tolower := Char.toLower
  casecmpn s t n := decide ((s.toList.take n).map Char.toLower = (t.toList.take n).map Char.toLower)
  casecmpn_iff _ _ _ := decide_eq_true_iff
  isEol c := c == '\n'
  getlines s := (s.toList.splitOn '\n').map String.ofList
  mem_getlines s line _ := by
    constructor
    · intro hmem
      obtain ⟨chars, hchars, rfl⟩ := List.mem_map.mp hmem
      rw [String.toList_ofList]
      exact hchars
    · exact fun hmem => List.mem_map.mpr ⟨_, hmem, String.ofList_toList⟩

/-- The COMMAND `show` with its PTYPE and the COMPL of that. -/
def showCommand : Kscheme where
  plugins := []
  entrys := [0]
  entry e := Kentry.new (["show", "__ptype"].getD e "__compl") e
  body b := { Kbody.new with
    entrys := [[1], [2]].getD b []
    nestedByPurpose := fun purpose =>
      if b = 0 ∧ purpose = .ptype then some 1
      else if b = 1 ∧ purpose = .completion then some 2 else none }

/-- The ACTIONs of the PTYPE and of the COMPL. -/
def showOracle : Oracle := fun entry _ candidate =>
  match candidate with
  | none => ⟨false, -1, none, false⟩
  | some parg =>
    if entry = 1 then
      (klishPtypeCommand asciiLib (showCommand.entry parg.entry) (parg.value.getD "")).exec
    else (klishCompletionCommand (showCommand.entry parg.entry)).exec

theorem showCommand_entry : CommandEntry asciiLib showCommand showOracle 0 where
  ptype := ⟨1, rfl, fun _ _ => rfl⟩
  completion := ⟨2, rfl, fun _ _ => rfl⟩

theorem completion_agrees_iff_sample :
    CompletionLaw asciiLib showCommand showOracle { Kpargv.new with lastArg := some "sh" }
      (sampleSession [0] (by decide)) 0 "sh" := by
  have hall : (commandOf (showCommand.entry 0)).toList.all (fun c => !asciiLib.isEol c) = true := rfl
  have hline : ∀ c ∈ (commandOf (showCommand.entry 0)).toList, asciiLib.isEol c = false :=
    fun c hc => by simpa using List.all_eq_true.mp hall c hc
  apply (completion_agrees_iff showCommand_entry (by decide) rfl).mpr
  exact (caseAgrees_line hline).mpr fun _ => ⟨['o', 'w'], rfl⟩

/-- The word is accepted when it is typed to its end, and nothing is offered for it. -/
theorem other_case_not_completed :
    accepts showCommand showOracle 0 [] ("SH" ++ "ow") = some "show" ∧
      (completionLoop showCommand showOracle asciiLib.getlines
        { Kpargv.new with lastArg := some "SH" } [0] [] (sampleSession [0] (by decide))).1 = [] ∧
      ¬CompletionLaw asciiLib showCommand showOracle { Kpargv.new with lastArg := some "SH" }
        (sampleSession [0] (by decide)) 0 "SH" := by
  have hcommand : commandOf (showCommand.entry 0) = "show" := rfl
  have haccepts : accepts showCommand showOracle 0 [] ("SH" ++ "ow") = some "show" :=
    showCommand_entry.accepts_iff.mpr ⟨by decide, rfl⟩
  have hnone : (completionLoop showCommand showOracle asciiLib.getlines
      { Kpargv.new with lastArg := some "SH" } [0] [] (sampleSession [0] (by decide))).1 = [] := by
    rw [List.eq_nil_iff_forall_not_mem]
    intro s hs
    obtain ⟨-, hmem⟩ := (showCommand_entry.mem_offers rfl).mp hs
    have hline : asciiLib.getlines "show" = ["show"] := rfl
    rw [hcommand, hline, List.mem_singleton] at hmem
    have hchars := congrArg String.toList hmem
    rw [String.toList_append] at hchars
    cases hchars
  refine ⟨haccepts, hnone, fun hlaw => ?_⟩
  obtain ⟨s, hs, -⟩ := hlaw.offered [] ⟨"ow", "show", haccepts⟩ (by decide)
  rw [hnone] at hs
  cases hs

end Ksession

end Klish
