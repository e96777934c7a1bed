import Klish.ParseLockstep

/-!
# Completion and execution

A completion parse declines the last word at every ENTRY it may offer, so that all of them are
found. It is compared with executions that accept the last word at one ENTRY only.
-/

namespace Klish.Ksession

section Positions

variable (scheme : Kscheme)

/-- The ENTRYs that have taken a word. -/
def taken (pargs : List Kparg) : List EntryId :=
  (pargs.map Kparg.entry).filter fun e => !scheme.container e

/-- The ENTRY has taken the word behind the given number of other ones. -/
def TookWord (position : ℕ) (pargs : List Kparg) (e : EntryId) : Prop :=
  ∃ es, es.length = position ∧ taken scheme pargs = es ++ [e]

/-- The rule for the positions of filters: non-filters before a pipe and filters behind it, and any
ENTRY behind the first word of a filter. -/
def Hintable (isFilter : Bool) (words : List String) (e : EntryId) : Prop :=
  (scheme.entry e).filter = .dual ∨ (isFilter = true ∧ (scheme.entry e).filter = .yes) ∨
    (isFilter = false ∧ (scheme.entry e).filter = .no) ∨ (isFilter = true ∧ words ≠ [])

/-- The second oracle agrees with the first one on all words but the last, which it accepts at the
ENTRY only. -/
structure OnlyAt (V W : Oracle) (xs : List String) (p : String) (e : EntryId) : Prop where
  cond : ∀ pargs, condOutcome W pargs = condOutcome V pargs
  word : ∀ n pargs word, xs[(taken scheme pargs).length]? = some word →
    accepts scheme W n pargs word = accepts scheme V n pargs word
  last : ∀ n pargs, (taken scheme pargs).length = xs.length →
    (accepts scheme W n pargs p ≠ none ↔ n = e)

end Positions

variable {scheme : Kscheme} {V W : Oracle} {isFilter : Bool} {xs : List String} {p : String}
  {st st' : ArgState}

theorem taken_concat (pargs : List Kparg) (parg : Kparg) : taken scheme (pargs ++ [parg]) =
    taken scheme pargs ++ if scheme.container parg.entry = true then [] else [parg.entry] := by
  unfold taken
  rw [List.map_append, List.filter_append, List.map_singleton, List.filter_singleton]
  cases scheme.container parg.entry <;> rfl

theorem taken_container {pargs : List Kparg} {e : EntryId} {value : Option String}
    (hcontainer : scheme.container e = true) :
    taken scheme (pargs ++ [⟨e, value⟩]) = taken scheme pargs := by
  rw [taken_concat, if_pos hcontainer, List.append_nil]

theorem taken_word {pargs : List Kparg} {e : EntryId} {value : Option String}
    (hcontainer : scheme.container e = false) :
    taken scheme (pargs ++ [⟨e, value⟩]) = taken scheme pargs ++ [e] := by
  rw [taken_concat, hcontainer, if_neg (by decide)]

theorem TookWord.length {position : ℕ} {pargs : List Kparg} {e : EntryId}
    (h : TookWord scheme position pargs e) : (taken scheme pargs).length = position + 1 := by
  obtain ⟨es, rfl, htaken⟩ := h
  rw [htaken, List.length_append, List.length_singleton]

theorem took_of_length {position : ℕ} {pargs : List Kparg}
    (h : (taken scheme pargs).length = position + 1) : ∃ e, TookWord scheme position pargs e := by
  rcases List.eq_nil_or_concat (taken scheme pargs) with hnil | ⟨es, e, htaken⟩
  · rw [hnil] at h
    cases h
  · rw [List.concat_eq_append] at htaken
    refine ⟨e, es, ?_, htaken⟩
    rw [htaken, List.length_append, List.length_singleton] at h
    omega

/-- What becomes of an ENTRY that is no container when there is a word. -/
inductive Answer (scheme : Kscheme) (V : Oracle) (isFilter : Bool) (e : EntryId) (st : ArgState)
    (word : String) (rest : List String) : SelfResult → Prop
  | hint (hhint : (isHinted scheme isFilter e st.pargv && rest.isEmpty && st.pargv.continuable) = true) :
      Answer scheme V isFilter e st word rest (.ret .notfound (st.addCompletions scheme e))
  | decline (done : Bool)
      (hhint : (isHinted scheme isFilter e st.pargv && rest.isEmpty && st.pargv.continuable) = false)
      (haccepts : accepts scheme V e st.pargv.pargs word = none) :
      Answer scheme V isFilter e st word rest
        (.ret .notfound ⟨st.iter, { st.pargv with candidateParg := none }, done⟩)
  | accept (done : Bool) (value : String) (command : Option EntryId)
      (hhint : (isHinted scheme isFilter e st.pargv && rest.isEmpty && st.pargv.continuable) = false)
      (haccepts : accepts scheme V e st.pargv.pargs word = some value) :
      Answer scheme V isFilter e st word rest
        (.cont .ok ⟨rest, { st.pargv with
          pargs := st.pargv.pargs ++ [⟨e, some value⟩]
          command := command
          candidateParg := none }, done⟩)

theorem resolveSelf_answer (scheme : Kscheme) (V : Oracle) (isFilter : Bool) {e : EntryId}
    {word : String} {rest : List String} (hcontainer : scheme.container e = false)
    (hiter : st.iter = word :: rest) :
    Answer scheme V isFilter e st word rest (resolveSelf scheme V isFilter false e st) := by
  unfold resolveSelf
  rw [if_neg (by decide), hcontainer, if_neg (by decide), hiter]
  dsimp only
  cases hhint : isHinted scheme isFilter e st.pargv && rest.isEmpty && st.pargv.continuable with
  | true => exact .hint hhint
  | false =>
    rw [if_neg (by decide)]
    obtain ⟨done, htry⟩ := tryCandidate_spec scheme V e word st
    rw [htry]
    cases haccepts : accepts scheme V e st.pargv.pargs word with
    | none => exact .decline done hhint haccepts
    | some value =>
      dsimp only
      split
      · exact .accept done value _ hhint haccepts
      · exact .accept done value _ hhint haccepts

/-- Where a parse for the purpose stands in the line `xs ++ [p]`. -/
structure Standing (scheme : Kscheme) (isFilter : Bool) (xs : List String) (p : String)
    (aim : KpargvPurpose) (st : ArgState) : Prop where
  candidate : st.pargv.candidateParg = none
  purpose : st.pargv.purpose = aim
  continuable : aim = .exec ∨ (aim = .completion ∧ st.pargv.continuable = true)
  iter : st.iter = (xs ++ [p]).drop (taken scheme st.pargv.pargs).length
  taken_le : (taken scheme st.pargv.pargs).length ≤ xs.length + 1
  headed : st.pargv.pargs ≠ [] → taken scheme st.pargv.pargs ≠ []
  late : st.pargv.completions ≠ [] → xs.length ≤ (taken scheme st.pargv.pargs).length
  hints : ∀ c ∈ st.pargv.completions, Hintable scheme isFilter xs c
  names : (st.pargv.completions.map scheme.name).Nodup
  excluded : aim = .completion → ∀ e, TookWord scheme xs.length st.pargv.pargs e →
    ¬ Hintable scheme isFilter xs e

section Standing

variable {aim : KpargvPurpose} (h : Standing scheme isFilter xs p aim st)
include h

/-- Once all words are taken, the cursor is at the end. -/
theorem Standing.iter_nil {e : EntryId} (htook : TookWord scheme xs.length st.pargv.pargs e) :
    st.iter = [] := by
  have hlength : (xs ++ [p]).length = xs.length + 1 := List.length_append
  rw [h.iter, htook.length, ← hlength, List.drop_length]

theorem Standing.iter_last (hlast : (taken scheme st.pargv.pargs).length = xs.length) :
    st.iter = [p] := by
  rw [h.iter, hlast, List.drop_left]

theorem Standing.iter_word (hword : (taken scheme st.pargv.pargs).length < xs.length) :
    ∃ word next rest, st.iter = word :: next :: rest ∧
      xs[(taken scheme st.pargv.pargs).length]? = some word := by
  obtain ⟨word, rest, hdrop⟩ : ∃ word rest, xs.drop (taken scheme st.pargv.pargs).length =
      word :: rest := by
    cases hdrop : xs.drop (taken scheme st.pargv.pargs).length with
    | nil =>
      rw [List.drop_eq_nil_iff] at hdrop
      omega
    | cons word rest => exact ⟨word, rest, rfl⟩
  have hiter : st.iter = word :: (rest ++ [p]) := by
    rw [h.iter, List.drop_append_of_le_length (Nat.le_of_lt hword), hdrop, List.cons_append]
  have hget : xs[(taken scheme st.pargv.pargs).length]? = some word := by
    rw [← List.head?_drop, hdrop]
    rfl
  cases rest with
  | nil => exact ⟨word, p, [], hiter, hget⟩
  | cons next rest => exact ⟨word, next, rest ++ [p], hiter, hget⟩

/-- There are arguments once a word has been taken. -/
theorem Standing.pargs_isEmpty (hlast : (taken scheme st.pargv.pargs).length = xs.length) :
    st.pargv.pargs.isEmpty = true ↔ xs = [] := by
  rw [List.isEmpty_iff, ← List.length_eq_zero_iff (l := xs), ← hlast, List.length_eq_zero_iff]
  constructor
  · intro hnil
    rw [hnil]
    rfl
  · intro htaken
    by_contra hpargs
    exact h.headed hpargs htaken

/-- At the last word, an ENTRY is hinted as the rule says. -/
theorem Standing.hinted_iff (hlast : (taken scheme st.pargv.pargs).length = xs.length)
    (e : EntryId) : isHinted scheme isFilter e st.pargv = true ↔
      aim = .completion ∧ Hintable scheme isFilter xs e := by
  have hempty := h.pargs_isEmpty hlast
  unfold isHinted Hintable
  rw [h.purpose]
  rcases h.continuable with rfl | ⟨rfl, -⟩
  · simp
  · cases isFilter <;> simp [← hempty, or_assoc]

theorem Standing.not_hintable (haim : aim = .completion)
    (hlast : (taken scheme st.pargv.pargs).length = xs.length) {e : EntryId}
    (hhint : (isHinted scheme isFilter e st.pargv && List.isEmpty ([] : List String) &&
      st.pargv.continuable) = false) : ¬ Hintable scheme isFilter xs e := by
  intro hhintable
  have hhinted := (h.hinted_iff hlast e).mpr ⟨haim, hhintable⟩
  have hcontinuable : st.pargv.continuable = true := by
    rcases h.continuable with hexec | ⟨-, hcontinuable⟩
    · rw [hexec] at haim
      cases haim
    · exact hcontinuable
  rw [hhinted, hcontinuable] at hhint
  cases hhint

/-- There is no word left when the cursor is at the end. -/
theorem Standing.at_end (hiter : st.iter = []) (e : EntryId) :
    resolveSelf scheme V isFilter false e st =
      if scheme.container e = true then .cont .none st else .ret .notfound st := by
  unfold resolveSelf
  rw [if_neg (by decide), hiter]
  dsimp only
  have hhint : (isHinted scheme isFilter e st.pargv && !st.pargv.continuable) = false := by
    rcases h.continuable with haim | ⟨-, hcontinuable⟩
    · unfold isHinted
      rw [h.purpose, haim]
      rfl
    · rw [hcontinuable]
      exact Bool.and_false _
  simp only [hhint, Bool.false_eq_true, if_false]

theorem Standing.decline (done : Bool) : Standing scheme isFilter xs p aim
    ⟨st.iter, { st.pargv with candidateParg := none }, done⟩ :=
  { h with candidate := rfl }

theorem Standing.hint {e : EntryId} (hlast : (taken scheme st.pargv.pargs).length = xs.length)
    (hhint : Hintable scheme isFilter xs e) :
    Standing scheme isFilter xs p aim (st.addCompletions scheme e) := by
  unfold ArgState.addCompletions Kpargv.addCompletions
  split
  · exact h
  · rename_i hnew
    have hname : ∀ c ∈ st.pargv.completions, scheme.name c ≠ scheme.name e := by
      simpa using hnew
    refine ⟨h.candidate, h.purpose, h.continuable, h.iter, h.taken_le, h.headed,
      fun _ => Nat.le_of_eq hlast.symm, ?_, ?_, h.excluded⟩
    · intro c hc
      rcases List.mem_append.mp hc with hc | hc
      · exact h.hints c hc
      · rw [List.mem_singleton.mp hc]
        exact hhint
    · dsimp only
      rw [List.map_append, List.map_singleton]
      refine List.nodup_append.mpr ⟨h.names, List.pairwise_singleton _ _, ?_⟩
      intro name hmem name' hmem'
      obtain ⟨c, hc, rfl⟩ := List.mem_map.mp hmem
      rw [List.mem_singleton.mp hmem']
      exact hname c hc

theorem Standing.accept {e : EntryId} {word : String} {rest : List String}
    (hcontainer : scheme.container e = false) (hiter : st.iter = word :: rest)
    (hexcluded : (taken scheme st.pargv.pargs).length = xs.length → aim = .completion →
      ¬ Hintable scheme isFilter xs e)
    (value : Option String) (command : Option EntryId) (done : Bool) :
    Standing scheme isFilter xs p aim ⟨rest, { st.pargv with
      pargs := st.pargv.pargs ++ [⟨e, value⟩]
      command := command
      candidateParg := none }, done⟩ := by
  have htaken : taken scheme (st.pargv.pargs ++ [⟨e, value⟩]) =
      taken scheme st.pargv.pargs ++ [e] := taken_word hcontainer
  have hlength : (taken scheme (st.pargv.pargs ++ [⟨e, value⟩])).length =
      (taken scheme st.pargv.pargs).length + 1 := by
    rw [htaken, List.length_append, List.length_singleton]
  have hdrop : (xs ++ [p]).drop (taken scheme st.pargv.pargs).length = word :: rest :=
    h.iter.symm.trans hiter
  have hle : (taken scheme st.pargv.pargs).length ≤ xs.length := by
    by_contra hgt
    rw [List.drop_eq_nil_of_le] at hdrop
    · cases hdrop
    · rw [List.length_append, List.length_singleton]
      omega
  refine ⟨rfl, h.purpose, h.continuable, ?_, ?_, fun _ => ?_, fun hsome => ?_, h.hints, h.names, ?_⟩
  · dsimp only
    rw [hlength, ← List.tail_drop, hdrop]
    rfl
  · dsimp only
    rw [hlength]
    omega
  · dsimp only
    rw [htaken]
    exact List.append_ne_nil_of_right_ne_nil _ (List.cons_ne_nil _ _)
  · have hlate := h.late hsome
    dsimp only
    rw [hlength]
    omega
  · intro haim e' htook
    obtain ⟨es, hes, htook⟩ := htook
    dsimp only at htook
    rw [htaken] at htook
    obtain ⟨rfl, he⟩ := List.append_inj' htook rfl
    rw [← List.singleton_inj.mp he]
    exact hexcluded hes haim

theorem Standing.container {e : EntryId} {value : Option String}
    (hcontainer : scheme.container e = true) (hpargs : st.pargv.pargs ≠ []) :
    Standing scheme isFilter xs p aim (st.addPargs ⟨e, value⟩) := by
  have htaken : taken scheme (st.addPargs ⟨e, value⟩).pargv.pargs = taken scheme st.pargv.pargs :=
    taken_container hcontainer
  refine ⟨h.candidate, h.purpose, h.continuable, ?_, ?_, fun _ => ?_, ?_, h.hints, h.names, ?_⟩
  · rw [htaken]
    exact h.iter
  · rw [htaken]
    exact h.taken_le
  · rw [htaken]
    exact h.headed hpargs
  · rw [htaken]
    exact h.late
  · intro haim e' htook
    unfold TookWord at htook
    rw [htaken] at htook
    exact h.excluded haim e' htook

theorem Standing.turn (hturn : Turn scheme V isFilter st st') :
    Standing scheme isFilter xs p aim st' := by
  cases hturn with
  | noted done => exact { h with }
  | container e value _ hcontainer hpargs => exact h.container hcontainer hpargs
  | self e _ hcontainer =>
    rcases Nat.lt_trichotomy (taken scheme st.pargv.pargs).length xs.length with hlt | heq | hgt
    · obtain ⟨word, next, rest, hiter, -⟩ := h.iter_word hlt
      have hanswer := resolveSelf_answer scheme V isFilter hcontainer hiter
      generalize resolveSelf scheme V isFilter false e st = result at hanswer
      cases hanswer with
      | hint hhint => simp at hhint
      | decline done => exact h.decline done
      | accept done value command =>
        exact h.accept hcontainer hiter (fun heq => absurd heq (Nat.ne_of_lt hlt)) _ _ _
    · have hiter := h.iter_last heq
      have hanswer := resolveSelf_answer scheme V isFilter hcontainer hiter
      generalize resolveSelf scheme V isFilter false e st = result at hanswer
      cases hanswer with
      | hint hhint =>
        simp only [Bool.and_eq_true] at hhint
        exact h.hint heq ((h.hinted_iff heq e).mp hhint.1.1).2
      | decline done => exact h.decline done
      | accept done value command hhint =>
        exact h.accept hcontainer hiter (fun _ haim => h.not_hintable haim heq hhint) _ _ _
    · obtain ⟨e', htook⟩ := took_of_length (Nat.le_antisymm h.taken_le hgt)
      rw [h.at_end (h.iter_nil htook), if_neg (by simp [hcontainer])]
      exact h

/-- What is listed stays in the list. -/
theorem Standing.turn_listed (hturn : Turn scheme V isFilter st st') {c : EntryId}
    (hc : c ∈ st.pargv.completions) : c ∈ st'.pargv.completions := by
  cases hturn with
  | noted done => exact hc
  | container e value => exact hc
  | self e _ hcontainer =>
    cases hiter : st.iter with
    | nil =>
      rw [h.at_end hiter, if_neg (by simp [hcontainer])]
      exact hc
    | cons word rest =>
      have hanswer := resolveSelf_answer scheme V isFilter hcontainer hiter
      generalize resolveSelf scheme V isFilter false e st = result at hanswer
      cases hanswer with
      | hint =>
        show c ∈ (Kpargv.addCompletions scheme st.pargv e).completions
        unfold Kpargv.addCompletions
        split
        · exact hc
        · exact List.mem_append_left _ hc
      | decline => exact hc
      | accept => exact hc

/-- Once the last word is taken, nothing is listed and no word is taken any more. -/
theorem Standing.turn_took (hturn : Turn scheme V isFilter st st') {n : EntryId}
    (htook : TookWord scheme xs.length st.pargv.pargs n) :
    TookWord scheme xs.length st'.pargv.pargs n ∧ st'.pargv.completions = st.pargv.completions := by
  cases hturn with
  | noted done => exact ⟨htook, rfl⟩
  | container e value _ hcontainer =>
    refine ⟨?_, rfl⟩
    unfold TookWord at htook ⊢
    have htaken : taken scheme (st.addPargs ⟨e, value⟩).pargv.pargs =
        taken scheme st.pargv.pargs := taken_container hcontainer
    rw [htaken]
    exact htook
  | self e _ hcontainer =>
    rw [h.at_end (h.iter_nil htook), if_neg (by simp [hcontainer])]
    exact ⟨htook, rfl⟩

end Standing

section Runs

variable {aim : KpargvPurpose} (h : Standing scheme isFilter xs p aim st)
  (hleads : Leads scheme V isFilter st st')
include h hleads

theorem Standing.leads : Standing scheme isFilter xs p aim st' := by
  induction hleads with
  | refl => exact h
  | tail _ hturn ih => exact ih.turn hturn

theorem Standing.listed {c : EntryId} (hc : c ∈ st.pargv.completions) :
    c ∈ st'.pargv.completions := by
  induction hleads with
  | refl => exact hc
  | tail hbefore hturn ih => exact (h.leads hbefore).turn_listed hturn ih

theorem Standing.took {n : EntryId} (htook : TookWord scheme xs.length st.pargv.pargs n) :
    TookWord scheme xs.length st'.pargv.pargs n ∧ st'.pargv.completions = st.pargv.completions := by
  induction hleads with
  | refl => exact ⟨htook, rfl⟩
  | tail hbefore hturn ih =>
    obtain ⟨htook', hsame⟩ := (h.leads hbefore).turn_took hturn ih.1
    exact ⟨htook', hsame.trans ih.2⟩

end Runs

end Klish.Ksession
