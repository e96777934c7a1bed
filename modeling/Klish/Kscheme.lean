import Klish.Kentry

/-!
# Preparation of a scheme

Symbols are resolved, links take over the lists of their targets, and each ENTRY gets its
table of nested ENTRYs by purpose. Reference chains and the nesting may be cyclic, so the
functions take fuel, and `none` stands for a call that has not returned yet.
-/

namespace Klish

/-- The tokens `strtok_r` finds one after another. -/
def strtok (delim : Char) (s : String) : List String :=
  ((s.toList.splitOn delim).filter fun token => !token.isEmpty).map String.ofList

namespace Kscheme

variable (scheme : Kscheme)

/-- `kscheme_find_entry` and `kentry_find_entry` -/
def findEntry (entrys : List EntryId) (name : String) : Option EntryId :=
  entrys.find? fun e => scheme.name e == name

/-- `kscheme_find_entry_by_path` -/
def findEntryByPath (name : String) : Option EntryId :=
  match strtok '/' name with
  | [] => none
  | entryName :: names =>
    names.foldl (fun entry name => entry.bind fun e => scheme.findEntry (scheme.nested e) name)
      (scheme.findEntry scheme.entrys entryName)

/-- `kscheme_find_sym`: the symbol and the name of its plugin. -/
def findSym (name : String) : Option (Ksym × String) :=
  match strtok '@' name with
  | [] => none
  | [cmdName] => scheme.plugins.findSome? fun plugin =>
      (plugin.syms.find? fun sym => sym.name == cmdName).map fun sym => (sym, plugin.name)
  | cmdName :: pluginName :: _ =>
    (scheme.plugins.find? fun plugin => plugin.name == pluginName).bind fun plugin =>
      (plugin.syms.find? fun sym => sym.name == cmdName).map fun sym => (sym, plugin.name)

/-- `printf` of a string that may be NULL. -/
def printed (s : Option String) : String := s.getD "(null)"

/-- One round of the loop of `kscheme_prepare_action_list`, with its message. -/
def prepareAction (e : EntryId) (action : Kaction) : Kaction × Option String :=
  match action.symRef.bind scheme.findSym with
  | none => (action, some ("Can't find symbol \"" ++ printed action.symRef ++ "\""))
  | some (sym, plugin) =>
    let action := { action with sym := some sym, plugin := some plugin }
    -- Filter can't contain sync symbols.
    if (scheme.entry e).filter ≠ .no ∧ action.isSync = true then
      (action, some ("Filter \"" ++ scheme.name e ++ "\" can't contain sync symbol \"" ++
        printed action.symRef ++ "\""))
    else (action, none)

def setEntry (e : EntryId) (entry : Kentry) : Kscheme :=
  { scheme with entry := fun e' => if e' = e then entry else scheme.entry e' }

def setBody (b : BodyId) (body : Kbody) : Kscheme :=
  { scheme with body := fun b' => if b' = b then body else scheme.body b' }

/-- What a step of the preparation reports: success, the new scheme, the messages. -/
structure Report where
  ok : Bool
  scheme : Kscheme
  error : List String

/-- `kscheme_prepare_action_list` -/
def prepareActionList (e : EntryId) : Report :=
  let prepared := (scheme.actions e).map (scheme.prepareAction e)
  { ok := prepared.all fun r => r.2.isNone
    scheme := scheme.setBody (scheme.entry e).body
      { scheme.bodyOf e with actions := prepared.map Prod.fst }
    error := prepared.filterMap Prod.snd }

/-- `kentry_link` -/
def link (dst src : EntryId) : Kscheme :=
  scheme.setEntry dst
    { scheme.entry dst with
      help := (scheme.entry dst).help.or (scheme.entry src).help
      mode := (scheme.entry src).mode
      value := (scheme.entry dst).value.or (scheme.entry src).value
      filter := (scheme.entry src).filter
      body := (scheme.entry src).body }

/-- The most deep real (non-link) ENTRY a link leads to, or the reference that leads nowhere. -/
def findTarget : ℕ → EntryId → Option (Except String EntryId)
  | 0, _ => none
  | fuel + 1, e =>
    match (scheme.entry e).refStr with
    | none => some (.ok e)
    | some ref =>
      match scheme.findEntryByPath ref with
      | none => some (.error ref)
      | some e => findTarget fuel e

/-- `kentry_set_nested_by_purpose` -/
def setNestedByPurpose (e : EntryId) (purpose : KentryPurpose) (nested : Option EntryId) : Kscheme :=
  scheme.setBody (scheme.entry e).body
    { scheme.bodyOf e with
      nestedByPurpose := fun p =>
        if p = purpose then nested else (scheme.bodyOf e).nestedByPurpose p }

/-- The LOG of an ENTRY that has none: that of the parent, or the last one of the scheme. -/
def inheritedLog (e : EntryId) : Option EntryId :=
  match (scheme.entry e).parent with
  | some parent => scheme.nestedByPurpose parent .log
  | none => (scheme.entrys.filter fun n => scheme.purpose n == .log).getLast?

/-- The fast links of an ENTRY to its nested ENTRYs with special purposes. -/
def linkPurposes (e : EntryId) : Kscheme :=
  let scheme := (scheme.nested e).foldl (fun scheme nested =>
    scheme.setNestedByPurpose e (scheme.purpose nested) (some nested)) scheme
  if (scheme.nestedByPurpose e .log).isSome then scheme
  else
    match scheme.inheritedLog e with
    | none => scheme
    | some log => scheme.setNestedByPurpose e .log (some log)

/-- The loop over the nested ENTRYs. It goes on after an error. -/
def prepareNested (prepare : Kscheme → EntryId → Option Report) :
    List EntryId → Kscheme → Option Report
  | [], scheme => some ⟨true, scheme, []⟩
  | nested :: iter, scheme =>
    (prepare scheme nested).bind fun r =>
      (prepareNested prepare iter r.scheme).map fun r' =>
        ⟨r.ok && r'.ok, r'.scheme, r.error ++ r'.error⟩

/-- `kscheme_prepare_entry` -/
def prepareEntry : ℕ → Kscheme → EntryId → Option Report
  | 0, _, _ => none
  | fuel + 1, scheme, e =>
    if (scheme.entry e).refStr.isSome then
      (scheme.findTarget fuel e).map fun target =>
        match target with
        | .error ref => ⟨false, scheme, ["Can't find ENTRY \"" ++ ref ++ "\""]⟩
        | .ok src => ⟨true, scheme.link e src, []⟩
    else
      let actions := scheme.prepareActionList e
      let scheme := actions.scheme.linkPurposes e
      (prepareNested (prepareEntry fuel) (scheme.nested e) scheme).map fun r =>
        ⟨actions.ok && r.ok, r.scheme, actions.error ++ r.error⟩

/-- The loop of `kscheme_prepare` over the top-level ENTRYs. It stops at an error. -/
def prepareEntrys (fuel : ℕ) : List EntryId → Kscheme → Option Report
  | [], scheme => some ⟨true, scheme, []⟩
  | e :: iter, scheme =>
    (prepareEntry fuel scheme e).bind fun r =>
      if r.ok then
        (prepareEntrys fuel iter r.scheme).map fun r' => { r' with error := r.error ++ r'.error }
      else some r

/-- `kscheme_prepare`, over the loading of the plugins. -/
def prepare (loadPlugins : List Kplugin → Option (List Kplugin)) (fuel : ℕ) (scheme : Kscheme) :
    Option Report :=
  match loadPlugins scheme.plugins with
  | none => some ⟨false, scheme, []⟩
  | some plugins => prepareEntrys fuel scheme.entrys { scheme with plugins }

/-- A scheme as the loader leaves it: every ENTRY has its own lists and a legal filter
attribute, and no symbol is resolved. -/
structure Loaded : Prop where
  legalFilter : ∀ e, (scheme.entry e).filter ≠ .none
  ownBody : ∀ e e', (scheme.entry e).body = (scheme.entry e').body → e = e'
  unresolved : ∀ e, ∀ action ∈ scheme.actions e, action.sym = none

/-- No ENTRY that may be a filter has a sync ACTION, and ENTRYs that share their lists agree
about being a filter. -/
structure FilterInv : Prop where
  legalFilter : ∀ e, (scheme.entry e).filter ≠ .none
  noSync : ∀ e, (scheme.entry e).filter ≠ .no → ∀ action ∈ scheme.actions e, action.isSync = false
  shared : ∀ e e', (scheme.entry e).body = (scheme.entry e').body →
    (scheme.entry e).filter = (scheme.entry e').filter

variable {scheme}

theorem Loaded.filterInv (h : scheme.Loaded) : scheme.FilterInv where
  legalFilter := h.legalFilter
  noSync e _ action ha := Kaction.isSync_of_sym_none (h.unresolved e action ha)
  shared e e' heq := by rw [h.ownBody e e' heq]

/-- A change of the lists keeps the filters' ACTIONs if it keeps the list of ACTIONs. -/
theorem FilterInv.setBody (h : scheme.FilterInv) {b : BodyId} {body : Kbody}
    (hactions : ∀ e, (scheme.entry e).body = b → (scheme.entry e).filter ≠ .no →
      ∀ action ∈ body.actions, action.isSync = false) : (scheme.setBody b body).FilterInv := by
  refine ⟨h.legalFilter, fun e hfilter action ha => ?_, h.shared⟩
  by_cases hb : (scheme.entry e).body = b
  · apply hactions e hb hfilter action
    simpa [actions, bodyOf, Kscheme.setBody, hb] using ha
  · apply h.noSync e hfilter action
    simpa [actions, bodyOf, Kscheme.setBody, hb] using ha

theorem FilterInv.setNestedByPurpose (h : scheme.FilterInv) (e : EntryId)
    (purpose : KentryPurpose) (nested : Option EntryId) :
    (scheme.setNestedByPurpose e purpose nested).FilterInv := by
  apply h.setBody
  intro e' hb hfilter action ha
  apply h.noSync e' hfilter action
  rw [actions, bodyOf, hb]
  exact ha

theorem FilterInv.linkPurposes (h : scheme.FilterInv) (e : EntryId) :
    (scheme.linkPurposes e).FilterInv := by
  have hfold : ∀ (entrys : List EntryId) (s : Kscheme), s.FilterInv →
      (entrys.foldl (fun s nested => s.setNestedByPurpose e (s.purpose nested) (some nested))
        s).FilterInv := by
    intro entrys
    induction entrys with
    | nil => exact fun s hs => hs
    | cons nested entrys ih => exact fun s hs => ih _ (hs.setNestedByPurpose _ _ _)
  unfold Kscheme.linkPurposes
  dsimp only
  split
  · exact hfold _ _ h
  · split
    · exact hfold _ _ h
    · exact (hfold _ _ h).setNestedByPurpose _ _ _

/-- An ACTION of a filter that is accepted is not sync. -/
theorem prepareAction_isSync {e : EntryId} {action : Kaction}
    (hnone : (scheme.prepareAction e action).2 = none) (hfilter : (scheme.entry e).filter ≠ .no) :
    (scheme.prepareAction e action).1.isSync = false := by
  unfold prepareAction at hnone ⊢
  cases hsym : action.symRef.bind scheme.findSym with
  | none => simp [hsym] at hnone
  | some found =>
    simp only [hsym] at hnone ⊢
    split at hnone
    · simp at hnone
    · rename_i hsync
      rw [if_neg hsync]
      simpa [hfilter] using hsync

/-- A filter whose list has been prepared without an error has no sync ACTION. -/
theorem FilterInv.prepareActionList (h : scheme.FilterInv) {e : EntryId}
    (hok : (scheme.prepareActionList e).ok = true) :
    (scheme.prepareActionList e).scheme.FilterInv := by
  apply h.setBody
  intro e' hb hfilter action ha
  rw [h.shared e' e hb] at hfilter
  simp only [List.map_map, List.mem_map, Function.comp_apply] at ha
  obtain ⟨original, hmem, rfl⟩ := ha
  have hnone : (scheme.prepareAction e original).2 = none := by
    have hall := List.all_eq_true.mp hok _ (List.mem_map_of_mem hmem)
    simpa using hall
  exact prepareAction_isSync hnone hfilter

theorem FilterInv.link (h : scheme.FilterInv) (dst src : EntryId) :
    (scheme.link dst src).FilterInv := by
  have hentry : ∀ e, ∃ e', ((scheme.link dst src).entry e).body = (scheme.entry e').body ∧
      ((scheme.link dst src).entry e).filter = (scheme.entry e').filter := by
    intro e
    by_cases he : e = dst
    · refine ⟨src, ?_, ?_⟩ <;> simp [Kscheme.link, setEntry, he]
    · refine ⟨e, ?_, ?_⟩ <;> simp [Kscheme.link, setEntry, he]
  refine ⟨fun e => ?_, fun e hfilter action ha => ?_, fun e₁ e₂ heq => ?_⟩
  · obtain ⟨e', -, hf⟩ := hentry e
    rw [hf]
    exact h.legalFilter e'
  · obtain ⟨e', hbody, hf⟩ := hentry e
    rw [hf] at hfilter
    apply h.noSync e' hfilter action
    rw [actions, bodyOf, hbody] at ha
    exact ha
  · obtain ⟨e₁', hb₁, hf₁⟩ := hentry e₁
    obtain ⟨e₂', hb₂, hf₂⟩ := hentry e₂
    rw [hf₁, hf₂]
    apply h.shared
    rw [← hb₁, ← hb₂, heq]

theorem prepareNested_filterInv {prepare : Kscheme → EntryId → Option Report}
    (hprepare : ∀ {s e r}, prepare s e = some r → s.FilterInv → r.ok = true → r.scheme.FilterInv)
    {entrys : List EntryId} {r : Report} (h : scheme.FilterInv)
    (hrun : prepareNested prepare entrys scheme = some r) (hok : r.ok = true) :
    r.scheme.FilterInv := by
  induction entrys generalizing scheme r with
  | nil =>
    cases hrun
    exact h
  | cons e entrys ih =>
    obtain ⟨r₁, h₁, hrun⟩ := Option.bind_eq_some_iff.mp hrun
    obtain ⟨r₂, h₂, rfl⟩ := Option.map_eq_some_iff.mp hrun
    obtain ⟨hok₁, hok₂⟩ : r₁.ok = true ∧ r₂.ok = true := by simpa using hok
    have hnext : r₂.scheme.FilterInv := ih (hprepare h₁ h hok₁) h₂ hok₂
    exact hnext

theorem prepareEntry_filterInv {fuel : ℕ} {e : EntryId} {r : Report}
    (hrun : prepareEntry fuel scheme e = some r) (h : scheme.FilterInv) (hok : r.ok = true) :
    r.scheme.FilterInv := by
  induction fuel generalizing scheme e r with
  | zero => simp [prepareEntry] at hrun
  | succ fuel ih =>
    rw [prepareEntry] at hrun
    split at hrun
    · obtain ⟨target, _, rfl⟩ := Option.map_eq_some_iff.mp hrun
      cases target with
      | error ref => exact h
      | ok src => exact h.link e src
    · obtain ⟨r₁, h₁, rfl⟩ := Option.map_eq_some_iff.mp hrun
      obtain ⟨hok₁, hok₂⟩ : (scheme.prepareActionList e).ok = true ∧ r₁.ok = true := by
        simpa using hok
      have hnext : r₁.scheme.FilterInv :=
        prepareNested_filterInv ih ((h.prepareActionList hok₁).linkPurposes e) h₁ hok₂
      exact hnext

/-- In a prepared scheme no ENTRY that may be a filter has a sync ACTION. -/
theorem prepare_filterInv {loadPlugins : List Kplugin → Option (List Kplugin)} {fuel : ℕ}
    {r : Report} (h : scheme.Loaded) (hrun : prepare loadPlugins fuel scheme = some r)
    (hok : r.ok = true) : r.scheme.FilterInv := by
  have hentrys : ∀ (entrys : List EntryId) {s : Kscheme} {r : Report}, s.FilterInv →
      prepareEntrys fuel entrys s = some r → r.ok = true → r.scheme.FilterInv := by
    intro entrys
    induction entrys with
    | nil =>
      intro s r hs hrun _
      cases hrun
      exact hs
    | cons e entrys ih =>
      intro s r hs hrun hok
      obtain ⟨r₁, h₁, hrun⟩ := Option.bind_eq_some_iff.mp hrun
      split at hrun
      · rename_i hok₁
        obtain ⟨r₂, h₂, rfl⟩ := Option.map_eq_some_iff.mp hrun
        have hnext : r₂.scheme.FilterInv := ih (prepareEntry_filterInv h₁ hs hok₁) h₂ hok
        exact hnext
      · rename_i hok₁
        cases hrun
        exact absurd hok hok₁
  unfold prepare at hrun
  split at hrun
  · cases hrun
    simp at hok
  · rename_i plugins _
    have hinv : FilterInv { scheme with plugins } := ⟨h.filterInv.legalFilter, h.filterInv.noSync, h.filterInv.shared⟩
    exact hentrys _ hinv hrun hok

end Kscheme

end Klish
