import Klish.Kscheme
import Klish.ParseCompletion
import Mathlib.Data.List.Nodup

/-!
# What completion offers

A completion parse is compared with executions in which only one ENTRY accepts the last word. They
go the same way until that ENTRY is tried, or the completion parse gives the word away.
-/

namespace Klish.Ksession

variable {scheme : Kscheme} {V W : Oracle} {isFilter : Bool} {xs : List String} {p : String}
  {st st' : ArgState}

section Comparison

variable (scheme : Kscheme) (isFilter : Bool) (xs : List String) (p : String) (e : EntryId)

/-- A completion parse and an execution go the same way, and the last word has not been tried at the
ENTRY. -/
structure Abreast (st st' : ArgState) : Prop where
  standing : Standing scheme isFilter xs p .completion st
  standing' : Standing scheme isFilter xs p .exec st'
  pargs : st'.pargv.pargs = st.pargv.pargs
  ahead : (taken scheme st.pargv.pargs).length ≤ xs.length
  unlisted : e ∉ st.pargv.completions

/-- The execution has accepted the last word at the ENTRY, or the completion parse has at one that it
may not offer. -/
structure Parted (st st' : ArgState) : Prop where
  standing : Standing scheme isFilter xs p .completion st
  standing' : Standing scheme isFilter xs p .exec st'
  split : (TookWord scheme xs.length st'.pargv.pargs e ∧ (Hintable scheme isFilter xs e →
      ∃ c ∈ st.pargv.completions, scheme.name c = scheme.name e)) ∨
    ((∃ n, TookWord scheme xs.length st.pargv.pargs n) ∧ e ∉ st.pargv.completions)

end Comparison

variable {e : EntryId}

theorem Parted.leads {s s' : ArgState} (h : Parted scheme isFilter xs p e st st')
    (hleads : Leads scheme V isFilter st s) (hleads' : Leads scheme W isFilter st' s') :
    Parted scheme isFilter xs p e s s' := by
  refine ⟨h.standing.leads hleads, h.standing'.leads hleads', ?_⟩
  rcases h.split with ⟨htook, hlisted⟩ | ⟨⟨n, htook⟩, hunlisted⟩
  · left
    refine ⟨(h.standing'.took hleads' htook).1, fun hhintable => ?_⟩
    obtain ⟨c, hc, hname⟩ := hlisted hhintable
    exact ⟨c, h.standing.listed hleads hc, hname⟩
  · right
    obtain ⟨htook', hsame⟩ := h.standing.took hleads htook
    refine ⟨⟨n, htook'⟩, ?_⟩
    rw [hsame]
    exact hunlisted

theorem Abreast.iter (h : Abreast scheme isFilter xs p e st st') : st'.iter = st.iter := by
  rw [h.standing.iter, h.standing'.iter, h.pargs]

theorem Abreast.decline (h : Abreast scheme isFilter xs p e st st') (done done' : Bool) :
    Abreast scheme isFilter xs p e ⟨st.iter, { st.pargv with candidateParg := none }, done⟩
      ⟨st'.iter, { st'.pargv with candidateParg := none }, done'⟩ :=
  ⟨h.standing.decline done, h.standing'.decline done', h.pargs, h.ahead, h.unlisted⟩

/-- Another ENTRY is offered. -/
theorem Abreast.offer (h : Abreast scheme isFilter xs p e st st') {n : EntryId}
    (heq : (taken scheme st.pargv.pargs).length = xs.length) (hne : n ≠ e)
    (hhintable : Hintable scheme isFilter xs n) (done' : Bool) :
    Abreast scheme isFilter xs p e (st.addCompletions scheme n)
      ⟨st'.iter, { st'.pargv with candidateParg := none }, done'⟩ := by
  refine ⟨h.standing.hint heq hhintable, h.standing'.decline done', ?_, ?_, ?_⟩
  · rw [ArgState.addCompletions, Kpargv.addCompletions_pargs]
    exact h.pargs
  · rw [ArgState.addCompletions, Kpargv.addCompletions_pargs]
    exact h.ahead
  · rw [ArgState.addCompletions, Kpargv.addCompletions]
    split
    · exact h.unlisted
    · intro hmem
      rcases List.mem_append.mp hmem with hmem | hmem
      · exact h.unlisted hmem
      · exact hne (List.mem_singleton.mp hmem).symm

/-- An ENTRY that is offered is in the list, or one of its name is. -/
theorem exists_listed (n : EntryId) : ∃ c ∈ (st.addCompletions scheme n).pargv.completions,
    scheme.name c = scheme.name n := by
  unfold ArgState.addCompletions Kpargv.addCompletions
  split
  · rename_i hany
    obtain ⟨c, hc, hname⟩ := List.any_eq_true.mp hany
    exact ⟨c, hc, beq_iff_eq.mp hname⟩
  · exact ⟨n, List.mem_append_right _ List.mem_cons_self, rfl⟩

section Answers

variable (hW : OnlyAt scheme V W xs p e) {n : EntryId} (hcontainer : scheme.container n = false)
  (h : Abreast scheme isFilter xs p e st st')
include hW hcontainer h

/-- A word before the last is answered alike. -/
theorem inStep_word (hlt : (taken scheme st.pargv.pargs).length < xs.length) :
    InStep (Abreast scheme isFilter xs p e) (Parted scheme isFilter xs p e)
      (resolveSelf scheme V isFilter false n st) (resolveSelf scheme W isFilter false n st') := by
  obtain ⟨word, next, rest, hiter, hword⟩ := h.standing.iter_word hlt
  have hiter' : st'.iter = word :: next :: rest := h.iter.trans hiter
  have hsame := hW.word n st.pargv.pargs word hword
  have hanswer := resolveSelf_answer scheme V isFilter hcontainer hiter
  have hanswer' := resolveSelf_answer scheme W isFilter hcontainer hiter'
  generalize resolveSelf scheme V isFilter false n st = result at hanswer ⊢
  generalize resolveSelf scheme W isFilter false n st' = result' at hanswer' ⊢
  cases hanswer with
  | hint hhint => simp at hhint
  | decline done _ haccepts =>
    cases hanswer' with
    | hint hhint => simp at hhint
    | decline done' => exact .ret _ (h.decline done done')
    | accept done' value command _ haccepts' =>
      rw [h.pargs, hsame, haccepts] at haccepts'
      cases haccepts'
  | accept done value command _ haccepts =>
    cases hanswer' with
    | hint hhint => simp at hhint
    | decline done' _ haccepts' =>
      rw [h.pargs, hsame, haccepts] at haccepts'
      cases haccepts'
    | accept done' value' command' _ haccepts' =>
      rw [h.pargs, hsame, haccepts] at haccepts'
      obtain rfl : value = value' := Option.some.inj haccepts'
      have hlt' : (taken scheme st'.pargv.pargs).length < xs.length := by rwa [h.pargs]
      have hstanding := h.standing.accept hcontainer hiter
        (fun heq => absurd heq (Nat.ne_of_lt hlt)) (some value) command done
      have hstanding' := h.standing'.accept hcontainer hiter'
        (fun heq => absurd heq (Nat.ne_of_lt hlt')) (some value) command' done'
      refine .cont _ ⟨hstanding, hstanding', ?_, ?_, h.unlisted⟩
      · dsimp only
        rw [h.pargs]
      · dsimp only
        rw [taken_word hcontainer, List.length_append, List.length_singleton]
        exact hlt

/-- The last word is declined in both parses, until the ENTRY is tried or one that may not be
offered. -/
theorem inStep_last (heq : (taken scheme st.pargv.pargs).length = xs.length) :
    InStep (Abreast scheme isFilter xs p e) (Parted scheme isFilter xs p e)
      (resolveSelf scheme V isFilter false n st) (resolveSelf scheme W isFilter false n st') := by
  have hiter := h.standing.iter_last heq
  have hiter' : st'.iter = [p] := h.iter.trans hiter
  have heq' : (taken scheme st'.pargv.pargs).length = xs.length := by rw [h.pargs, heq]
  have hlast := hW.last n st'.pargv.pargs heq'
  have hexec : isHinted scheme isFilter n st'.pargv ≠ true := by
    intro hhint
    cases ((h.standing'.hinted_iff heq' n).mp hhint).1
  have hanswer := resolveSelf_answer scheme V isFilter hcontainer hiter
  have hanswer' := resolveSelf_answer scheme W isFilter hcontainer hiter'
  generalize resolveSelf scheme V isFilter false n st = result at hanswer ⊢
  generalize resolveSelf scheme W isFilter false n st' = result' at hanswer' ⊢
  cases hanswer' with
  | hint hhint =>
    simp only [Bool.and_eq_true] at hhint
    exact absurd hhint.1.1 hexec
  | decline done' _ haccepts' =>
    have hne : n ≠ e := fun heq => (hlast.mpr heq) haccepts'
    cases hanswer with
    | hint hhint =>
      simp only [Bool.and_eq_true] at hhint
      exact .ret _ (h.offer heq hne ((h.standing.hinted_iff heq n).mp hhint.1.1).2 done')
    | decline done => exact .ret _ (h.decline done done')
    | accept done value command hhint =>
      have hstanding := h.standing.accept hcontainer hiter
        (fun _ haim => h.standing.not_hintable haim heq hhint) (some value) command done
      exact .parted ⟨hstanding, h.standing'.decline done',
        .inr ⟨⟨n, taken scheme st.pargv.pargs, heq, taken_word hcontainer⟩, h.unlisted⟩⟩
  | accept done' value' command' _ haccepts' =>
    obtain rfl : n = e := by
      apply hlast.mp
      rw [haccepts']
      exact Option.some_ne_none _
    have hstanding' := h.standing'.accept hcontainer hiter' (fun _ haim => nomatch haim)
      (some value') command' done'
    have htook : TookWord scheme xs.length (st'.pargv.pargs ++ [⟨n, some value'⟩]) n :=
      ⟨taken scheme st'.pargv.pargs, heq', taken_word hcontainer⟩
    apply InStep.parted
    cases hanswer with
    | hint hhint =>
      simp only [Bool.and_eq_true] at hhint
      have hhintable := ((h.standing.hinted_iff heq n).mp hhint.1.1).2
      exact ⟨h.standing.hint heq hhintable, hstanding', .inl ⟨htook, fun _ => exists_listed n⟩⟩
    | decline done hhint =>
      have hexcluded := h.standing.not_hintable rfl heq hhint
      exact ⟨h.standing.decline done, hstanding',
        .inl ⟨htook, fun hhintable => absurd hhintable hexcluded⟩⟩
    | accept done value command hhint =>
      have hexcluded := h.standing.not_hintable rfl heq hhint
      have hstanding := h.standing.accept hcontainer hiter (fun _ _ => hexcluded) (some value)
        command done
      exact ⟨hstanding, hstanding', .inl ⟨htook, fun hhintable => absurd hhintable hexcluded⟩⟩

end Answers

/-- A completion parse and the execution are in step. -/
theorem lockstep_offers (hW : OnlyAt scheme V W xs p e) : Lockstep scheme V W isFilter
    (Abreast scheme isFilter xs p e) (Parted scheme isFilter xs p e) where
  left h := h.standing.candidate
  right h := h.standing'.candidate
  pargs h := h.pargs
  addPargs {st st'} n value h hcontainer hpargs := by
    have hpargs' := hpargs
    rw [← h.pargs] at hpargs'
    refine ⟨h.standing.container hcontainer hpargs, h.standing'.container hcontainer hpargs', ?_, ?_,
      h.unlisted⟩
    · exact congrArg (· ++ [_]) h.pargs
    · show (taken scheme (st.pargv.pargs ++ [⟨n, value⟩])).length ≤ xs.length
      rw [taken_container hcontainer]
      exact h.ahead
  enter {st st'} n h := by
    obtain ⟨done, htest⟩ := testCond_met scheme V n h.standing.candidate
    obtain ⟨done', htest'⟩ := testCond_met scheme W n h.standing'.candidate
    have hnoted : Abreast scheme isFilter xs p e { st with done } { st' with done := done' } :=
      ⟨{ h.standing with }, { h.standing' with }, h.pargs, h.ahead, h.unlisted⟩
    unfold enter
    rw [htest, htest', h.pargs, hW.cond]
    cases condMet scheme (condOutcome V st.pargv.pargs) n with
    | false => exact .ret _ hnoted
    | true =>
      dsimp only
      cases hcontainer : scheme.container n with
      | true =>
        unfold resolveSelf
        rw [if_neg (by decide), hcontainer, if_pos rfl]
        exact .cont _ hnoted
      | false =>
        rcases Nat.lt_or_eq_of_le h.ahead with hlt | heq
        · exact inStep_word hW hcontainer hnoted hlt
        · exact inStep_last hW hcontainer hnoted heq
  apart h hleads hleads' := h.leads hleads hleads'

section Line

variable {session : Ksession} {fuel : ℕ} {pargv : Kpargv} {session' : Ksession}

theorem initial_standing {argv : FauxArgv} (hargs : argv.args = xs ++ [p]) {aim : KpargvPurpose}
    (haim : aim = .exec ∨ (aim = .completion ∧ argv.continuable = true)) :
    Standing scheme isFilter xs p aim (initialState session argv aim) where
  candidate := rfl
  purpose := rfl
  continuable := haim
  iter := hargs
  taken_le := Nat.zero_le _
  headed h := absurd rfl h
  late h := absurd rfl h
  hints _ hc := nomatch hc
  names := List.nodup_nil
  excluded _ e htook := by
    obtain ⟨es, -, htaken⟩ := htook
    have hlength := congrArg List.length htaken
    rw [List.length_append, List.length_singleton] at hlength
    cases hlength

/-- The parse of a line does not depend on the fuel. -/
theorem parseLevels_more {argv : FauxArgv} {purpose : KpargvPurpose} {fuel' : ℕ} {r : LevelsEnd}
    (h : parseLevels scheme V session argv purpose isFilter fuel = some r) (hle : fuel ≤ fuel') :
    parseLevels scheme V session argv purpose isFilter fuel' = some r :=
  levelsLoop_mono (parseArg_mono hle) h

theorem dontParseUpper_exec (argv : FauxArgv) : dontParseUpper argv .exec = false := by
  unfold dontParseUpper
  simp

theorem dontParseUpper_completion {argv : FauxArgv} (hargs : argv.args = xs ++ [p]) :
    dontParseUpper argv .completion = false := by
  unfold dontParseUpper
  simp [hargs]

/-- The parses of a line for the two purposes end in step, or they have parted. -/
theorem parseLevels_offers {argv argv' : FauxArgv} {fuel' : ℕ} {r r' : LevelsEnd}
    (hW : OnlyAt scheme V W xs p e) (hargs : argv.args = xs ++ [p]) (hargs' : argv'.args = xs ++ [p])
    (hcontinuable : argv.continuable = true)
    (h : parseLevels scheme V session argv .completion isFilter fuel = some r)
    (h' : parseLevels scheme W session argv' .exec isFilter fuel' = some r') :
    Abreast scheme isFilter xs p e r.st r'.st ∨ Parted scheme isFilter xs p e r.st r'.st := by
  have hmore := parseLevels_more h (Nat.le_max_left fuel fuel')
  have hmore' := parseLevels_more h' (Nat.le_max_right fuel fuel')
  unfold parseLevels at hmore hmore'
  rw [dontParseUpper_completion hargs] at hmore
  rw [dontParseUpper_exec] at hmore'
  refine levelsLoop_together (lockstep_offers hW) ?_ hmore hmore'
  exact ⟨initial_standing hargs (.inr ⟨rfl, hcontinuable⟩), initial_standing hargs' (.inl rfl), rfl,
    Nat.zero_le _, fun hmem => nomatch hmem⟩

/-- Unless an ENTRY that the rule for filters excludes takes the last word, a completion parse offers
the ENTRYs that the rule allows and that take the last word when only they accept it, one for each
name, and reports the last word as the prefix. -/
theorem completion_offers (scheme : Kscheme) (V : Oracle) (isFilter : Bool) (session : Ksession)
    (xs : List String) (p : String) {fuel : ℕ} {pargv : Kpargv} {session' : Ksession}
    (hparse : parseLine scheme V session ⟨xs ++ [p], true⟩ .completion isFilter fuel =
      some (pargv, session')) :
    (pargv.completions.map scheme.name).Nodup ∧
    (∀ n, TookWord scheme xs.length pargv.pargs n → ¬ Hintable scheme isFilter xs n) ∧
    ((∀ n, ¬ TookWord scheme xs.length pargv.pargs n) →
      (pargv.completions ≠ [] → pargv.lastArg = some p) ∧
      ∀ e W argv fuel' pargv' session'', OnlyAt scheme V W xs p e → argv.args = xs ++ [p] →
        parseLine scheme W session argv .exec isFilter fuel' = some (pargv', session'') →
          (e ∈ pargv.completions ↔ TookWord scheme xs.length pargv'.pargs e ∧
            Hintable scheme isFilter xs e ∧
              ∀ c ∈ pargv.completions, scheme.name c = scheme.name e → c = e)) := by
  obtain ⟨r, hr, rfl, -⟩ := parseLine_eq_some.mp hparse
  have hstart : Standing scheme isFilter xs p .completion
      (initialState session ⟨xs ++ [p], true⟩ .completion) := initial_standing rfl (.inr ⟨rfl, rfl⟩)
  have hstanding := hstart.leads (levelsLoop_leads hstart.candidate hr)
  refine ⟨hstanding.names, hstanding.excluded rfl, fun hnone => ⟨fun hsome => ?_, ?_⟩⟩
  · have hlength : (taken scheme r.st.pargv.pargs).length = xs.length := by
      rcases Nat.lt_or_eq_of_le hstanding.taken_le with hlt | heq
      · have hlate := hstanding.late hsome
        omega
      · obtain ⟨n, htook⟩ := took_of_length heq
        exact absurd htook (hnone n)
    unfold LevelsEnd.pargv
    rw [hstanding.iter_last hlength]
  · intro e W argv fuel' pargv' session'' hW hargs hparse'
    obtain ⟨r', hr', rfl, -⟩ := parseLine_eq_some.mp hparse'
    rcases parseLevels_offers hW rfl hargs rfl hr hr' with habreast | hparted
    · constructor
      · intro hmem
        exact absurd hmem habreast.unlisted
      · rintro ⟨htook, -, -⟩
        have hlength := htook.length
        have hahead := habreast.ahead
        have hpargs : r'.pargv.pargs = r.st.pargv.pargs := habreast.pargs
        rw [hpargs] at hlength
        omega
    · rcases hparted.split with ⟨htook, hlisted⟩ | ⟨⟨n, htook⟩, -⟩
      · constructor
        · intro hmem
          refine ⟨htook, hstanding.hints e hmem, fun c hc hname => ?_⟩
          exact List.inj_on_of_nodup_map hstanding.names hc hmem hname
        · rintro ⟨-, hhintable, hunique⟩
          obtain ⟨c, hc, hname⟩ := hlisted hhintable
          rw [← hunique c hc hname]
          exact hc
      · exact absurd htook (hnone n)

end Line

/-- The oracle that accepts the word behind the given number of other ones at the ENTRY only. -/
def onlyAt (scheme : Kscheme) (V : Oracle) (position : ℕ) (e : EntryId) : Oracle :=
  fun ptype pargs candidate =>
    match candidate with
    | none => V ptype pargs none
    | some parg =>
      if (taken scheme pargs).length = position then
        ⟨true, if parg.entry = e then 0 else 1, none, false⟩
      else V ptype pargs candidate

/-- There is such an oracle for every ENTRY that has a PTYPE. -/
theorem onlyAt_spec (hptype : scheme.nestedByPurpose e .ptype ≠ none) :
    OnlyAt scheme V (onlyAt scheme V xs.length e) xs p e where
  cond _ := rfl
  word n pargs word hword := by
    have hlt : (taken scheme pargs).length < xs.length := (List.getElem?_eq_some_iff.mp hword).1
    unfold accepts onlyAt
    simp only [if_neg (Nat.ne_of_lt hlt)]
  last n pargs hlast := by
    unfold accepts onlyAt
    by_cases hn : n = e
    · subst hn
      obtain ⟨ptype, hptype⟩ := Option.ne_none_iff_exists'.mp hptype
      simp [hptype, hlast, strIsEmpty]
    · cases scheme.nestedByPurpose n .ptype with
      | none => simp [hn]
      | some ptype => simp [hn, hlast]

/-- A view with the filter `include`, the ENTRY `show` and a SWITCH `debug` with another `show` in it. -/
def offerScheme : Kscheme where
  plugins := []
  entrys := [0]
  entry e := { Kentry.new (["view", "include", "show", "debug", "show"].getD e "COMMAND") e with
    container := decide (e = 0 ∨ e = 3)
    mode := if e = 0 ∨ e = 3 then .switch else .sequence
    purpose := if e < 5 then .common else .ptype
    filter := if e = 1 then .yes else .no }
  body b := { Kbody.new with entrys := [[1, 2, 3], [5], [6], [4], [7]].getD b [] }

/-- The view is prepared. -/
def offered : Kscheme :=
  match Kscheme.prepare some 12 offerScheme with
  | none => offerScheme
  | some r => r.scheme

/-- The ENTRY alone accepts words. -/
def acceptedBy (e : EntryId) : Oracle := fun _ _ candidate =>
  ⟨true, if candidate.any (fun parg => parg.entry == e) then 0 else 1, none, false⟩

/-- The ENTRY takes the word when only it accepts it and is allowed there, but it is not offered. -/
def Missed (V : Oracle) (p : String) (e : EntryId) : Prop :=
  ∃ W q q', OnlyAt offered V W [] p e ∧
    parseLine offered V sampleRoot ⟨[p], true⟩ .completion false 8 = some q ∧
    parseLine offered W sampleRoot ⟨[p], true⟩ .exec false 8 = some q' ∧
    TookWord offered 0 q'.1.pargs e ∧ Hintable offered false [] e ∧ e ∉ q.1.completions

theorem missed_of_runs {V : Oracle} {p : String} {e : EntryId}
    (hptype : offered.nestedByPurpose e .ptype ≠ none) (hfilter : (offered.entry e).filter = .no)
    (hcompletion : (parseLine offered V sampleRoot ⟨[p], true⟩ .completion false 8).map
      (fun q => decide (e ∈ q.1.completions)) = some false)
    (hexec : (parseLine offered (onlyAt offered V 0 e) sampleRoot ⟨[p], true⟩ .exec false 8).map
      (fun q => taken offered q.1.pargs) = some [e]) : Missed V p e := by
  obtain ⟨q, hq, hmem⟩ := Option.map_eq_some_iff.mp hcompletion
  obtain ⟨q', hq', htaken⟩ := Option.map_eq_some_iff.mp hexec
  exact ⟨_, q, q', onlyAt_spec hptype, hq, hq', ⟨[], rfl, htaken⟩, .inr (.inr (.inl ⟨rfl, hfilter⟩)),
    of_decide_eq_false hmem⟩

theorem completion_offers_sample :
    ∃ q, parseLine offered (acceptedBy 0) sampleRoot ⟨["s"], true⟩ .completion false 8 = some q ∧
      (q.1.completions.map offered.name).Nodup ∧ q.1.lastArg = some "s" ∧
      ∀ W argv fuel' q', OnlyAt offered (acceptedBy 0) W [] "s" 2 → argv.args = ["s"] →
        parseLine offered W sampleRoot argv .exec false fuel' = some q' →
          TookWord offered 0 q'.1.pargs 2 := by
  have hrun : (parseLine offered (acceptedBy 0) sampleRoot ⟨["s"], true⟩ .completion false 8).map
      (fun q => (q.1.completions, taken offered q.1.pargs)) = some ([2], []) := by decide
  obtain ⟨q, hq, heq⟩ := Option.map_eq_some_iff.mp hrun
  obtain ⟨hcompletions, htaken⟩ := Prod.mk.inj heq
  have hnone : ∀ n, ¬ TookWord offered 0 q.1.pargs n := by
    intro n htook
    have hlength := htook.length
    rw [htaken] at hlength
    cases hlength
  obtain ⟨hnames, -, hoffers⟩ :=
    completion_offers offered (acceptedBy 0) false sampleRoot [] "s" hq
  obtain ⟨hstarts, hiff⟩ := hoffers hnone
  have hmem : 2 ∈ q.1.completions := by
    rw [hcompletions]
    exact List.mem_cons_self
  refine ⟨q, hq, hnames, hstarts (List.ne_nil_of_mem hmem), ?_⟩
  intro W argv fuel' q' hW hargs hq'
  exact ((hiff 2 W argv fuel' q'.1 q'.2 hW hargs hq').mp hmem).1

/-- The second ENTRY of a name is not offered, and nothing is behind a filter that takes the word. -/
theorem completion_misses : (∃ r, Kscheme.prepare some 12 offerScheme = some r ∧ r.ok = true ∧
    r.scheme = offered) ∧ Missed (acceptedBy 0) "s" 4 ∧ Missed (acceptedBy 1) "include" 2 := by
  refine ⟨?_, ?_, ?_⟩
  · have hok : (Kscheme.prepare some 12 offerScheme).map Kscheme.Report.ok = some true := by decide
    obtain ⟨r, hrun, hok⟩ := Option.map_eq_some_iff.mp hok
    refine ⟨r, hrun, hok, ?_⟩
    unfold offered
    rw [hrun]
  · exact missed_of_runs (by decide) (by decide) (by decide) (by decide)
  · exact missed_of_runs (by decide) (by decide) (by decide) (by decide)

end Klish.Ksession
