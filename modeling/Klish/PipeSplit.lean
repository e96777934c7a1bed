import Klish.Lib.Pieces
import Klish.ParseExec

/-!
# The pipes of a line

A pipe that stands in quotes is an argument like others. `ksession_split_pipes` gets the arguments
without their quotes.
-/

namespace Klish

open Pieces

/-- A word of the line. The flag is set if a part of it was quoted or escaped. -/
structure RawWord where
  text : String
  quoted : Bool
  deriving DecidableEq

/-- A line as it is typed. The flag tells of the last word, if there is one. -/
structure RawLine where
  words : List RawWord
  continuable : Bool
  last : continuable = true → words ≠ []

/-- The word is a pipe between two components. -/
def RawWord.isPipe (word : RawWord) : Bool := word.text == "|" && !word.quoted

/-- What `faux_argv_parse` gives. -/
def RawLine.argv (raw : RawLine) : FauxArgv := ⟨raw.words.map RawWord.text, raw.continuable⟩

namespace Ksession

/-- The components have the arguments of the pieces, and the last one has the flag. -/
def components (continuable : Bool) : List (List String) → List FauxArgv
  | [] => []
  | [args] => [⟨args, continuable⟩]
  | args :: pieces => ⟨args, false⟩ :: components continuable pieces

/-- The components of a line that is cut into the pieces. -/
def cutLine (continuable : Bool) (pieces : List (List String)) : Except String (List FauxArgv) :=
  if [] ∈ pieces.dropLast then .error "The pipe '|' can't be at the first position"
  else if pieces.getLast? = some [] ∧ continuable = true then
    .error "The pipe '|' can't be the last argument"
  else .ok (components continuable pieces)

theorem components_args (continuable : Bool) (pieces : List (List String)) :
    (components continuable pieces).map FauxArgv.args = pieces := by
  induction pieces with
  | nil => rfl
  | cons args pieces ih =>
    cases pieces with
    | nil => rfl
    | cons args' pieces => exact congrArg (args :: ·) ih

/-- The flag of a component is that of the line if there is no other behind it. -/
theorem components_continuable {continuable : Bool} {pieces : List (List String)}
    {before after : List FauxArgv} {argv : FauxArgv}
    (h : components continuable pieces = before ++ argv :: after) :
    argv.continuable = (after.isEmpty && continuable) := by
  induction pieces generalizing before with
  | nil => exact absurd h.symm (by simp [components])
  | cons args pieces ih =>
    cases pieces with
    | nil =>
      cases before with
      | nil =>
        obtain ⟨rfl, rfl⟩ := List.cons.inj h
        rfl
      | cons first before => exact absurd (List.cons.inj h).2 (by simp)
    | cons args' pieces =>
      cases before with
      | nil =>
        obtain ⟨rfl, hafter⟩ := List.cons.inj h
        have hne : after ≠ [] := by
          rintro rfl
          have hargs := components_args continuable (args' :: pieces)
          rw [hafter] at hargs
          cases hargs
        cases after with
        | nil => exact absurd rfl hne
        | cons _ _ => rfl
      | cons first before => exact ih (List.cons.inj h).2

theorem cutLine_cons (continuable : Bool) {args : List String} (hargs : args ≠ [])
    (first : List String) (rest : List (List String)) :
    cutLine continuable (args :: first :: rest) =
      (cutLine continuable (first :: rest)).map (⟨args, false⟩ :: ·) := by
  have hmem : [] ∈ (args :: first :: rest).dropLast ↔ [] ∈ (first :: rest).dropLast := by
    rw [List.dropLast_cons_cons, List.mem_cons]
    exact or_iff_right hargs.symm
  unfold cutLine
  rw [List.getLast?_cons_cons]
  simp only [hmem]
  split
  · rfl
  · split <;> rfl

/-- The loop cuts the arguments at the pipes. -/
theorem splitLoop_eq (continuable : Bool) (args cur : List String) (list : List FauxArgv) :
    splitLoop continuable args cur list =
      (cutLine continuable ((args.splitOnP (· == "|")).modifyHead (cur ++ ·))).map (list ++ ·) := by
  induction args generalizing cur list with
  | nil =>
    rw [splitLoop]
    unfold cutLine
    cases cur with
    | nil => cases continuable <;> rfl
    | cons arg cur => cases continuable <;> simp [components, Except.map]
  | cons arg args ih =>
    obtain ⟨first, rest, hpieces⟩ := exists_cons (· == "|") args
    rw [splitLoop]
    by_cases harg : arg = "|"
    · rw [if_pos harg, splitOnP_sep (p := (· == "|")) (by simp [harg]), hpieces]
      cases cur with
      | nil => rfl
      | cons word cur =>
        rw [List.isEmpty_cons, if_neg (by decide), ih, hpieces]
        have hcut := cutLine_cons continuable (List.cons_ne_nil word cur) first rest
        rw [List.modifyHead_cons, List.nil_append, List.modifyHead_cons, List.append_nil, hcut]
        cases cutLine continuable (first :: rest) with
        | error message => rfl
        | ok split => simp [Except.map]
    · rw [if_neg harg, ih, splitOnP_word (p := (· == "|")) (by simp [harg]) hpieces, hpieces]
      simp

/-- The line has a pipe with nothing before it, or it ends in a pipe that may go on. -/
def Refused (raw : RawLine) : Prop :=
  [] ∈ (raw.words.splitOnP RawWord.isPipe).dropLast ∨
    (raw.continuable = true ∧ ∃ word, raw.words.getLast? = some word ∧ word.isPipe = true)

/-- What the split of a line should be. A malformed line has no words. -/
structure SplitLaw (raw : Option RawLine) (res : Except (Option String) (List FauxArgv)) :
    Prop where
  runs : ∀ split, res = .ok split → ∃ line, raw = some line ∧ split.map FauxArgv.args =
    (line.words.splitOnP RawWord.isPipe).map (List.map RawWord.text)
  joined : ∀ split, res = .ok split → ∃ line, raw = some line ∧
    ["|"].intercalate (split.map FauxArgv.args) = line.words.map RawWord.text
  inner : ∀ before argv after, res = .ok (before ++ argv :: after) → after ≠ [] →
    argv.args ≠ [] ∧ argv.continuable = false
  last : ∀ before argv, res = .ok (before ++ [argv]) → ∃ line, raw = some line ∧
    argv.continuable = line.continuable ∧ (argv.args = [] → argv.continuable = false)
  error : (∃ message, res = .error message) ↔ raw = none ∨ ∃ line, raw = some line ∧ Refused line

section Law

variable {raw : RawLine}

/-- The pieces that the loop makes. It does not see the quotes. -/
def pieces (raw : RawLine) : List (List String) :=
  (raw.words.map RawWord.text).splitOnP (· == "|")

theorem pieces_eq (raw : RawLine) :
    pieces raw = (raw.words.splitOnP fun word => word.text == "|").map (List.map RawWord.text) :=
  splitOnP_map RawWord.text raw.words

theorem splitPipes_eq {lex : String → Option RawLine} {rawLine : String}
    (hlex : lex rawLine = some raw) :
    splitPipes (fun line => (lex line).map RawLine.argv) rawLine =
      (cutLine raw.continuable (pieces raw)).mapError some := by
  have hloop : splitLoop raw.continuable (raw.words.map RawWord.text) [] [] =
      cutLine raw.continuable (pieces raw) := by
    rw [splitLoop_eq]
    obtain ⟨first, rest, hpieces⟩ := exists_cons (· == "|") (raw.words.map RawWord.text)
    unfold pieces
    rw [hpieces, List.modifyHead_cons, List.nil_append]
    cases cutLine raw.continuable (first :: rest) <;> rfl
  unfold splitPipes
  dsimp only
  rw [hlex]
  exact congrArg (Except.mapError some) hloop

/-- The loop refuses a line by its pieces. -/
theorem cut_error_iff : (∃ message, (cutLine raw.continuable (pieces raw)).mapError some =
      (.error message : Except (Option String) (List FauxArgv))) ↔
    [] ∈ (pieces raw).dropLast ∨ ((pieces raw).getLast? = some [] ∧ raw.continuable = true) := by
  unfold cutLine
  by_cases hfirst : [] ∈ (pieces raw).dropLast
  · rw [if_pos hfirst]
    exact ⟨fun _ => .inl hfirst, fun _ => ⟨_, rfl⟩⟩
  · rw [if_neg hfirst]
    by_cases hlast : (pieces raw).getLast? = some [] ∧ raw.continuable = true
    · rw [if_pos hlast]
      exact ⟨fun _ => .inr hlast, fun _ => ⟨_, rfl⟩⟩
    · rw [if_neg hlast]
      refine ⟨fun h => ?_, fun h => ?_⟩
      · obtain ⟨_, h⟩ := h
        cases h
      · rcases h with h | h
        · exact absurd h hfirst
        · exact absurd h hlast

theorem cut_ok {split : List FauxArgv}
    (h : (cutLine raw.continuable (pieces raw)).mapError some = .ok split) :
    [] ∉ (pieces raw).dropLast ∧ ¬((pieces raw).getLast? = some [] ∧ raw.continuable = true) ∧
      split = components raw.continuable (pieces raw) := by
  unfold cutLine at h
  split at h
  · cases h
  · split at h
    · cases h
    · rename_i hfirst hlast
      exact ⟨hfirst, hlast, (Except.ok.inj h).symm⟩

/-- What is refused by its unquoted pipes is refused by all pipes. -/
theorem Refused.cut_error (h : Refused raw) :
    [] ∈ (pieces raw).dropLast ∨ ((pieces raw).getLast? = some [] ∧ raw.continuable = true) := by
  have hpipe : ∀ word : RawWord, word.isPipe = true → (word.text == "|") = true :=
    fun word hword => (Bool.and_eq_true_iff.mp hword).1
  rcases h with hfirst | ⟨hcont, word, hword, hlast⟩
  · left
    have hmem := nil_mem_dropLast_mono hpipe hfirst
    rw [pieces_eq, ← List.map_dropLast, List.mem_map]
    exact ⟨[], hmem, rfl⟩
  · right
    refine ⟨?_, hcont⟩
    unfold pieces
    rw [getLast_splitOnP]
    intro last hend
    rw [List.getLast?_map, hword] at hend
    obtain rfl := Option.some.inj hend
    exact hpipe word hlast

/-- Without quoted pipes the pieces are those between the unquoted ones. -/
theorem pieces_unquoted (hquoted : ∀ word ∈ raw.words, word.text = "|" → word.quoted = false) :
    pieces raw = (raw.words.splitOnP RawWord.isPipe).map (List.map RawWord.text) := by
  have hsame : ∀ word ∈ raw.words, (word.text == "|") = word.isPipe := by
    intro word hword
    unfold RawWord.isPipe
    by_cases htext : word.text = "|"
    · rw [hquoted word hword htext, Bool.not_false, Bool.and_true]
    · simp [htext]
  rw [pieces_eq, splitOnP_congr hsame]

theorem Refused.of_cut_error (hquoted : ∀ word ∈ raw.words, word.text = "|" → word.quoted = false)
    (h : [] ∈ (pieces raw).dropLast ∨
      ((pieces raw).getLast? = some [] ∧ raw.continuable = true)) : Refused raw := by
  rw [pieces_unquoted hquoted] at h
  rcases h with hfirst | ⟨hlast, hcont⟩
  · left
    rw [← List.map_dropLast, List.mem_map] at hfirst
    obtain ⟨piece, hmem, hnil⟩ := hfirst
    obtain rfl := List.map_eq_nil_iff.mp hnil
    exact hmem
  · right
    rw [List.getLast?_map, Option.map_eq_some_iff] at hlast
    obtain ⟨piece, hend, hnil⟩ := hlast
    obtain rfl := List.map_eq_nil_iff.mp hnil
    rw [getLast_splitOnP] at hend
    have hsome := List.getLast?_eq_some_getLast (raw.last hcont)
    exact ⟨hcont, _, hsome, hend _ hsome⟩

/-- The components that the loop makes keep the law where the pieces are the right ones. -/
theorem splitLaw_of_pieces (hpieces : ∀ split,
      (cutLine raw.continuable (pieces raw)).mapError some = .ok split →
        pieces raw = (raw.words.splitOnP RawWord.isPipe).map (List.map RawWord.text))
    (herror : (∃ message, (cutLine raw.continuable (pieces raw)).mapError some =
      (.error message : Except (Option String) (List FauxArgv))) → Refused raw) :
    SplitLaw (some raw) ((cutLine raw.continuable (pieces raw)).mapError some) := by
  constructor
  · intro split hsplit
    obtain ⟨-, -, rfl⟩ := cut_ok hsplit
    refine ⟨raw, rfl, ?_⟩
    rw [components_args]
    exact hpieces _ hsplit
  · intro split hsplit
    obtain ⟨-, -, rfl⟩ := cut_ok hsplit
    refine ⟨raw, rfl, ?_⟩
    rw [components_args]
    exact List.intercalate_splitOn "|"
  · intro before argv after hsplit hafter
    obtain ⟨hfirst, -, heq⟩ := cut_ok hsplit
    refine ⟨fun hnil => hfirst ?_, ?_⟩
    · have hargs := components_args raw.continuable (pieces raw)
      rw [← heq] at hargs
      rw [← hargs, List.map_append, List.map_cons, List.dropLast_append_of_ne_nil (by simp),
        List.dropLast_cons_of_ne_nil (by simpa using hafter), hnil]
      exact List.mem_append_right _ List.mem_cons_self
    · rw [components_continuable heq.symm]
      cases after with
      | nil => exact absurd rfl hafter
      | cons _ _ => rfl
  · intro before argv hsplit
    obtain ⟨-, hlast, heq⟩ := cut_ok hsplit
    have hcont : argv.continuable = raw.continuable := components_continuable heq.symm
    refine ⟨raw, rfl, hcont, fun hnil => ?_⟩
    have hend : (pieces raw).getLast? = some [] := by
      rw [← components_args raw.continuable (pieces raw), ← heq, List.getLast?_map,
        List.getLast?_concat, Option.map_some, hnil]
    rw [hcont]
    by_contra hgoes
    exact hlast ⟨hend, by simpa using hgoes⟩
  · constructor
    · intro h
      exact .inr ⟨raw, rfl, herror h⟩
    · rintro (hnone | ⟨line, hline, hrefused⟩)
      · cases hnone
      · obtain rfl := Option.some.inj hline
        exact cut_error_iff.mpr hrefused.cut_error

/-- A quoted pipe cuts a line that should not be cut there. -/
theorem unquoted_of_splitLaw (hrefused : ¬Refused raw)
    (h : SplitLaw (some raw) ((cutLine raw.continuable (pieces raw)).mapError some)) :
    ∀ word ∈ raw.words, word.text = "|" → word.quoted = false := by
  intro word hword htext
  by_contra hquoted
  cases hres : (cutLine raw.continuable (pieces raw)).mapError some with
  | error message =>
    rcases h.error.mp ⟨message, hres⟩ with hnone | ⟨line, hline, hline'⟩
    · cases hnone
    · obtain rfl := Option.some.inj hline
      exact hrefused hline'
  | ok split =>
    obtain ⟨-, -, heq⟩ := cut_ok hres
    obtain ⟨line, hline, hruns⟩ := h.runs split hres
    obtain rfl := Option.some.inj hline
    have hlen : (raw.words.splitOnP RawWord.isPipe).length <
        (raw.words.splitOnP fun word => word.text == "|").length := by
      apply length_lt_of_mem (fun word hpipe => (Bool.and_eq_true_iff.mp hpipe).1) hword
      · have hflag : word.quoted = true := by simpa using hquoted
        rw [hflag, Bool.not_true, Bool.and_false]
      · simp [htext]
    rw [heq, components_args, pieces_eq] at hruns
    have hsame := congrArg List.length hruns
    rw [List.length_map, List.length_map] at hsame
    omega

end Law

/-- A line is cut exactly at its unquoted pipes if there is no quoted pipe in it, or if it is
refused because of the unquoted ones. -/
theorem splitLaw_iff (lex : String → Option RawLine) (rawLine : String) :
    SplitLaw (lex rawLine) (splitPipes (fun line => (lex line).map RawLine.argv) rawLine) ↔
      ∀ raw, lex rawLine = some raw →
        (∀ word ∈ raw.words, word.text = "|" → word.quoted = false) ∨ Refused raw := by
  cases hlex : lex rawLine with
  | none =>
    have hres : splitPipes (fun line => (lex line).map RawLine.argv) rawLine = .error none := by
      unfold splitPipes
      dsimp only
      rw [hlex]
      rfl
    rw [hres]
    refine ⟨fun _ raw hraw => ?_, fun _ => ?_⟩
    · cases hraw
    · refine ⟨fun _ h => ?_, fun _ h => ?_, fun _ _ _ h => ?_, fun _ _ h => ?_, ?_⟩
      · cases h
      · cases h
      · cases h
      · cases h
      · exact ⟨fun _ => .inl rfl, fun _ => ⟨none, rfl⟩⟩
  | some raw =>
    rw [splitPipes_eq hlex]
    constructor
    · intro hlaw raw' hraw
      obtain rfl := Option.some.inj hraw
      by_cases hrefused : Refused raw
      · exact .inr hrefused
      · exact .inl (unquoted_of_splitLaw hrefused hlaw)
    · intro hcond
      rcases hcond raw rfl with hquoted | hrefused
      · exact splitLaw_of_pieces (fun _ _ => pieces_unquoted hquoted)
          fun herror => .of_cut_error hquoted (cut_error_iff.mp herror)
      · refine splitLaw_of_pieces (fun split hsplit => ?_) fun _ => hrefused
        obtain ⟨message, herror⟩ := cut_error_iff.mpr hrefused.cut_error
        rw [herror] at hsplit
        cases hsplit

/-- An argument that is a quoted pipe. -/
def quotedPipe : RawLine := ⟨[⟨"echo", false⟩, ⟨"|", true⟩], false, nofun⟩

/-- The quoted pipe is cut away, and an empty component is left behind it. -/
theorem quoted_pipe_cuts :
    splitPipes (fun _ => some quotedPipe.argv) "echo \"|\" " =
      .ok [⟨["echo"], false⟩, ⟨[], false⟩] ∧
      ¬SplitLaw (some quotedPipe) (splitPipes (fun _ => some quotedPipe.argv) "echo \"|\" ") := by
  have hres : splitPipes (fun _ => some quotedPipe.argv) "echo \"|\" " =
      .ok [⟨["echo"], false⟩, ⟨[], false⟩] := rfl
  refine ⟨hres, fun hlaw => ?_⟩
  obtain ⟨line, hline, hruns⟩ := hlaw.runs _ hres
  obtain rfl := Option.some.inj hline
  have hpipe : quotedPipe.words.splitOnP RawWord.isPipe = [quotedPipe.words] :=
    List.splitOnP_eq_singleton (by
      refine List.forall_mem_cons.mpr ⟨rfl, ?_⟩
      exact List.forall_mem_singleton.mpr rfl)
  rw [hpipe] at hruns
  cases hruns

end Ksession

end Klish
