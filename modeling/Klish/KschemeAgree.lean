import Klish.KschemeSettled

/-!
# Two preparations in step

Schemes may differ in the links outside a set of ENTRYs. A reference that does not lead through
those leads to the same ENTRY in both, and the walks over ENTRYs of the set go on in step.
-/

namespace Klish

open Forests

namespace Kscheme

variable {s s' : Kscheme}

/-- The ENTRY a list of path components leads to. -/
def lookup (s : Kscheme) : List String → Option EntryId
  | [] => none
  | name :: names =>
    names.foldl (fun entry name => entry.bind fun e => s.findEntry (s.nested e) name)
      (s.findEntry s.entrys name)

theorem findEntryByPath_eq (ref : String) : s.findEntryByPath ref = s.lookup (strtok '/' ref) := by
  unfold findEntryByPath lookup
  cases strtok '/' ref <;> rfl

theorem lookup_concat {names : List String} (hnames : names ≠ []) (name : String) :
    s.lookup (names ++ [name]) = (s.lookup names).bind fun e => s.findEntry (s.nested e) name := by
  obtain ⟨first, names, rfl⟩ := List.exists_cons_of_ne_nil hnames
  exact List.foldl_concat ..

/-- The path goes on from the ENTRY. -/
def Through (s : Kscheme) (ref : String) (e : EntryId) : Prop :=
  ∃ names name rest, strtok '/' ref = names ++ name :: rest ∧ s.lookup names = some e

/-- The schemes agree about the ENTRYs of a set and about all that are no links. -/
structure Agree (I : EntryId → Prop) (s s' : Kscheme) : Prop where
  plugins : s'.plugins = s.plugins
  find : ∀ name, s'.findEntry s'.entrys name = s.findEntry s.entrys name
  name : s'.name = s.name
  refStr : ∀ e, (s'.entry e).refStr = (s.entry e).refStr
  entry : ∀ e, I e ∨ s.isLink e = false → s'.entry e = s.entry e
  nested : ∀ b, (s'.body b).entrys = (s.body b).entrys
  actions : ∀ e, I e → s.isLink e = false → s'.actions e = s.actions e
  own : ∀ e e', s.isLink e = false → s.isLink e' = false →
    (s.entry e).body = (s.entry e').body → e = e'

variable {I : EntryId → Prop}

theorem Agree.isLink (h : Agree I s s') : s'.isLink = s.isLink := by
  funext e
  unfold Kscheme.isLink
  rw [h.refStr]

theorem Agree.nested_eq (h : Agree I s s') {e : EntryId} (he : I e ∨ s.isLink e = false) :
    s'.nested e = s.nested e := by
  unfold Kscheme.nested Kscheme.bodyOf
  rw [h.entry e he, h.nested]

/-- A path leads to the same ENTRY if it goes through no link outside the set. -/
theorem Agree.lookup (h : Agree I s s') (names : List String)
    (hthrough : ∀ pre name rest e, names = pre ++ name :: rest → s.lookup pre = some e →
      s.isLink e = true → I e) : s'.lookup names = s.lookup names := by
  induction names using List.reverseRecOn with
  | nil => rfl
  | append_singleton names name ih =>
    by_cases hnames : names = []
    · subst hnames
      exact h.find name
    · have hbefore : s'.lookup names = s.lookup names := by
        apply ih
        intro pre name' rest e heq
        exact hthrough pre name' (rest ++ [name]) e (by rw [heq]; simp)
      rw [lookup_concat hnames, lookup_concat hnames, hbefore]
      apply Option.bind_congr
      intro e he
      have hmem : I e ∨ s.isLink e = false := by
        cases hlink : s.isLink e with
        | false => exact .inr rfl
        | true => exact .inl (hthrough names name [] e rfl he hlink)
      unfold findEntry
      rw [h.nested_eq hmem, h.name]

/-- The references from the ENTRY lead through no link outside the set. -/
def Inside (I : EntryId → Prop) (s : Kscheme) (e : EntryId) : Prop :=
  ∀ e' ref k, Relation.ReflTransGen s.Refers e e' → (s.entry e').refStr = some ref →
    s.Through ref k → s.isLink k = true → I k

theorem Agree.findTarget (h : Agree I s s') {e : EntryId} (hinside : Inside I s e) (n : ℕ) :
    s'.findTarget n e = s.findTarget n e := by
  induction n generalizing e with
  | zero => rfl
  | succ n ih =>
    rw [Kscheme.findTarget, Kscheme.findTarget, h.refStr]
    cases href : (s.entry e).refStr with
    | none => rfl
    | some ref =>
      dsimp only
      have hfind : s'.findEntryByPath ref = s.findEntryByPath ref := by
        rw [findEntryByPath_eq, findEntryByPath_eq]
        apply h.lookup
        intro pre name rest k heq hlookup
        exact hinside e ref k .refl href ⟨pre, name, rest, heq, hlookup⟩
      rw [hfind]
      cases hnext : s.findEntryByPath ref with
      | none => rfl
      | some e' =>
        apply ih
        intro e'' ref' k hpath
        exact hinside e'' ref' k (.head ⟨ref, href, hnext⟩ hpath)

/-- References that lead through no link outside the set in both schemes at once lead through none
in the first one. -/
theorem Agree.inside (h : Agree I s s') {e : EntryId}
    (hboth : ∀ e' ref k, Relation.ReflTransGen s.Refers e e' →
      Relation.ReflTransGen s'.Refers e e' → (s.entry e').refStr = some ref →
        s.Through ref k → s'.Through ref k → s.isLink k = true → I k) : Inside I s e := by
  have hpath : ∀ e' ref, Relation.ReflTransGen s.Refers e e' →
      Relation.ReflTransGen s'.Refers e e' → (s.entry e').refStr = some ref →
        ∀ n names name rest k, names.length = n → strtok '/' ref = names ++ name :: rest →
          s.lookup names = some k → s.isLink k = true → I k := by
    intro e' ref hto hto' href n
    -- The induction is on the number of the components before the ENTRY.
    induction n using Nat.strong_induction_on with
    | _ n ih =>
      intro names name rest k hlength hsplit hlookup hlink
      have hlookup' : s'.lookup names = some k := by
        rw [← hlookup]
        apply h.lookup
        intro pre name' rest' k' heq
        refine ih pre.length ?_ pre name' (rest' ++ name :: rest) k' rfl ?_
        · rw [← hlength, heq, List.length_append, List.length_cons]
          omega
        · rw [hsplit, heq, List.append_assoc, List.cons_append]
      exact hboth e' ref k hto hto' href ⟨names, name, rest, hsplit, hlookup⟩
        ⟨names, name, rest, hsplit, hlookup'⟩ hlink
  intro e' ref k hto href hthrough hlink
  have hto' : Relation.ReflTransGen s'.Refers e e' := by
    clear hthrough href
    induction hto with
    | refl => exact .refl
    | @tail e₁ e₂ hto hrefers ih =>
      obtain ⟨ref', href', hfind⟩ := hrefers
      refine ih.tail ⟨ref', ?_, ?_⟩
      · rw [h.refStr, href']
      · rw [← hfind, findEntryByPath_eq, findEntryByPath_eq]
        apply h.lookup
        intro pre name rest k' heq
        exact hpath e₁ ref' hto ih href' pre.length pre name rest k' rfl heq
  obtain ⟨names, name, rest, hsplit, hlookup⟩ := hthrough
  exact hpath e' ref hto hto' href names.length names name rest k rfl hsplit hlookup hlink

/-- Two schemes that agree with a third one agree about the links that are the same in both. -/
theorem Agree.between {s₀ : Kscheme} (h : Agree I s₀ s) (h' : Agree I s₀ s') {J : EntryId → Prop}
    (hJ : ∀ e, J e → I e ∨ (s₀.isLink e = true ∧ s'.entry e = s.entry e)) : Agree J s s' where
  plugins := h'.plugins.trans h.plugins.symm
  find name := (h'.find name).trans (h.find name).symm
  name := h'.name.trans h.name.symm
  refStr e := (h'.refStr e).trans (h.refStr e).symm
  entry e he := by
    rw [h.isLink] at he
    rcases he with he | hnode
    · rcases hJ e he with he | ⟨-, heq⟩
      · rw [h'.entry e (.inl he), h.entry e (.inl he)]
      · exact heq
    · rw [h'.entry e (.inr hnode), h.entry e (.inr hnode)]
  nested b := (h'.nested b).trans (h.nested b).symm
  actions e he hnode := by
    rw [h.isLink] at hnode
    rcases hJ e he with he | ⟨hlink, -⟩
    · rw [h'.actions e he hnode, h.actions e he hnode]
    · rw [hlink] at hnode
      cases hnode
  own e e' hnode hnode' hbody := by
    rw [h.isLink] at hnode hnode'
    rw [h.entry e (.inr hnode), h.entry e' (.inr hnode')] at hbody
    exact h.own e e' hnode hnode' hbody

theorem Agree.target (h : Agree I s s') {e : EntryId} (hinside : Inside I s e)
    (t : Except String EntryId) : s'.Target e t ↔ s.Target e t := by
  unfold Target
  simp only [h.findTarget hinside]

theorem findEntry_congr (h : s'.name = s.name) : s'.findEntry = s.findEntry := by
  funext entrys name
  unfold findEntry
  rw [h]

theorem link_name (s : Kscheme) (dst src : EntryId) : (s.link dst src).name = s.name := by
  funext e
  unfold Kscheme.name
  by_cases he : e = dst
  · rw [he, Pass.link_entry_self]
  · rw [Pass.link_entry s dst src e he]

theorem link_refStr (s : Kscheme) (dst src e : EntryId) :
    ((s.link dst src).entry e).refStr = (s.entry e).refStr := by
  by_cases he : e = dst
  · rw [he, Pass.link_entry_self]
  · rw [Pass.link_entry s dst src e he]

theorem link_isLink (s : Kscheme) (dst src : EntryId) : (s.link dst src).isLink = s.isLink := by
  funext e
  unfold Kscheme.isLink
  rw [link_refStr]

/-- Linking an ENTRY changes no ENTRY that is no link. -/
theorem link_entry_node {dst src e : EntryId} (hlink : s.isLink dst = true)
    (hnode : s.isLink e = false) : (s.link dst src).entry e = s.entry e := by
  apply Pass.link_entry
  rintro rfl
  rw [hnode] at hlink
  cases hlink

theorem Agree.link (h : Agree I s s') {e src : EntryId} (he : I e) (hsrc : s.isLink src = false)
    (hlink : s.isLink e = true) : Agree I (s.link e src) (s'.link e src) where
  plugins := h.plugins
  find name := by
    rw [findEntry_congr (link_name s e src), findEntry_congr (link_name s' e src)]
    exact h.find name
  name := by rw [link_name, link_name, h.name]
  refStr e' := by rw [link_refStr, link_refStr, h.refStr]
  entry e' he' := by
    by_cases heq : e' = e
    · subst heq
      rw [Pass.link_entry_self, Pass.link_entry_self, h.entry e' (.inl he), h.entry src (.inr hsrc)]
    · rw [Pass.link_entry s' e src e' heq, Pass.link_entry s e src e' heq]
      rw [link_isLink] at he'
      exact h.entry e' he'
  nested := h.nested
  actions e' he' hnode := by
    rw [link_isLink] at hnode
    have hlink' : s'.isLink e = true := by rwa [h.isLink]
    have hnode' : s'.isLink e' = false := by rwa [h.isLink]
    unfold Kscheme.actions bodyOf
    rw [link_entry_node hlink hnode, link_entry_node hlink' hnode']
    exact h.actions e' he' hnode
  own e₁ e₂ h₁ h₂ hbody := by
    rw [link_isLink] at h₁ h₂
    rw [link_entry_node hlink h₁, link_entry_node hlink h₂] at hbody
    exact h.own e₁ e₂ h₁ h₂ hbody

theorem Agree.prepareAction (h : Agree I s s') {e : EntryId} (he : I e) :
    s'.prepareAction e = s.prepareAction e := prepareAction_congr h.plugins (h.entry e (.inl he))

/-- What the loop over the ACTIONs reports depends on the ACTIONs. -/
theorem prepareActionList_congr {e : EntryId} (hprepare : s'.prepareAction e = s.prepareAction e)
    (hactions : s'.actions e = s.actions e) :
    (s'.prepareActionList e).ok = (s.prepareActionList e).ok ∧
      (s'.prepareActionList e).error = (s.prepareActionList e).error := by
  unfold prepareActionList
  rw [hprepare, hactions]
  exact ⟨rfl, rfl⟩

/-- The walk changes the lists of one ENTRY that is no link. -/
theorem enter_actions_ne {e e' : EntryId} (hne : (s.entry e').body ≠ (s.entry e).body) :
    (s.enter e).actions e' = s.actions e' := by
  have hsame := sameBut_enter s e
  unfold actions bodyOf
  rw [hsame.entry, hsame.body _ hne]

theorem Agree.enter (h : Agree I s s') {e : EntryId} (he : I e) (hnode : s.isLink e = false) :
    Agree I (s.enter e) (s'.enter e) := by
  have hsame := sameBut_enter s e
  have hsame' := sameBut_enter s' e
  have hname : (s.enter e).name = s.name := by
    unfold Kscheme.name
    rw [hsame.entry]
  have hname' : (s'.enter e).name = s'.name := by
    unfold Kscheme.name
    rw [hsame'.entry]
  have hlink : (s.enter e).isLink = s.isLink := by
    unfold Kscheme.isLink
    rw [hsame.entry]
  refine ⟨?_, fun name => ?_, ?_, fun e' => ?_, fun e' he' => ?_, fun b => ?_,
    fun e' he' hnode' => ?_, fun e₁ e₂ h₁ h₂ hbody => ?_⟩
  · rw [hsame'.plugins, hsame.plugins, h.plugins]
  · rw [findEntry_congr hname, findEntry_congr hname', hsame.entrys, hsame'.entrys]
    exact h.find name
  · rw [hname', hname, h.name]
  · rw [hsame'.entry, hsame.entry, h.refStr]
  · rw [hlink] at he'
    rw [hsame'.entry, hsame.entry]
    exact h.entry e' he'
  · rw [hsame'.nested, hsame.nested, h.nested]
  · rw [hlink] at hnode'
    by_cases heq : e' = e
    · rw [heq, (enter_spec s' e).1, (enter_spec s e).1, h.prepareAction he, h.actions e he hnode]
    · have hne : (s.entry e').body ≠ (s.entry e).body :=
        fun hbody => heq (h.own e' e hnode' hnode hbody)
      rw [enter_actions_ne hne, enter_actions_ne]
      · exact h.actions e' he' hnode'
      · rwa [h.entry e' (.inl he'), h.entry e (.inl he)]
  · rw [hlink] at h₁ h₂
    rw [hsame.entry] at hbody
    exact h.own e₁ e₂ h₁ h₂ hbody

end Kscheme

namespace Pass

open Kscheme

/-- Two walks that go on in step. -/
structure Alike (I : EntryId → Prop) (p p' : Pass) : Prop where
  work : p'.work = p.work
  ok : p'.ok = p.ok
  agree : Agree I p.scheme p'.scheme
  inside : ∀ e ∈ p.work, I e
  closed : ∀ e, I e → ∀ n ∈ spread p.scheme e, I n

/-- The references of the link that the walk comes to next lead through no link outside the set. -/
def Clear (I : EntryId → Prop) (p : Pass) : Prop :=
  ∀ e work, p.work = e :: work → Inside I p.scheme e

variable {I : EntryId → Prop} {p p' q q' : Pass}

theorem Alike.step (h : Alike I p p') (hclear : Clear I p) (hstep : Step p q) :
    ∃ q', Step p' q' ∧ Alike I q q' := by
  obtain ⟨s', work', ok', error'⟩ := p'
  obtain ⟨rfl, rfl⟩ : work' = p.work ∧ ok' = p.ok := ⟨h.work, h.ok⟩
  have hagree : Agree I p.scheme s' := h.agree
  have hspread := hstep.spread
  cases hstep with
  | @missing s e work ok error ref hlink htarget =>
    have hlink' : (s'.entry e).refStr.isSome = true := by rwa [hagree.refStr]
    have htarget' : s'.Target e (.error ref) := (hagree.target (hclear e work rfl) _).mpr htarget
    exact ⟨_, .missing hlink' htarget', rfl, rfl, hagree,
      fun e' he' => h.inside e' (List.mem_cons_of_mem _ he'), h.closed⟩
  | @link s e src work ok error hlink htarget =>
    have hlink' : (s'.entry e).refStr.isSome = true := by rwa [hagree.refStr]
    have htarget' : s'.Target e (.ok src) := (hagree.target (hclear e work rfl) _).mpr htarget
    have hsrc : s.isLink src = false := by
      unfold Kscheme.isLink
      rw [htarget.node]
      rfl
    refine ⟨_, .link hlink' htarget', rfl, rfl, ?_,
      fun e' he' => h.inside e' (List.mem_cons_of_mem _ he'), ?_⟩
    · exact hagree.link (h.inside e List.mem_cons_self) hsrc hlink
    · rw [hspread]
      exact h.closed
  | @node s e work ok error hnode =>
    have hmem : I e := h.inside e List.mem_cons_self
    have hnode' : (s'.entry e).refStr.isSome = false := by rwa [hagree.refStr]
    have hnested : s'.nested e = s.nested e := hagree.nested_eq (.inl hmem)
    obtain ⟨hok, -⟩ :=
      prepareActionList_congr (hagree.prepareAction hmem) (hagree.actions e hmem hnode)
    refine ⟨_, .node hnode', ?_, ?_, hagree.enter hmem hnode, fun e' he' => ?_, ?_⟩
    · dsimp only
      rw [hnested]
    · dsimp only
      rw [hok]
    · rcases List.mem_append.mp he' with he' | he'
      · apply h.closed e hmem
        rwa [spread_of_node hnode]
      · exact h.inside e' (List.mem_cons_of_mem _ he')
    · rw [hspread]
      exact h.closed

/-- A walk that is not at its end goes on or is stuck. -/
theorem step_or_stuck (hwork : p.work ≠ []) : (∃ q, Step p q) ∨ p.Stuck := by
  obtain ⟨s, work, ok, error⟩ := p
  obtain ⟨e, work, rfl⟩ := List.exists_cons_of_ne_nil hwork
  cases hlink : (s.entry e).refStr.isSome with
  | false => exact .inl ⟨_, .node hlink⟩
  | true =>
    by_cases htarget : ∃ t, s.Target e t
    · obtain ⟨t | src, ht⟩ := htarget
      · exact .inl ⟨_, .missing hlink ht⟩
      · exact .inl ⟨_, .link hlink ht⟩
    · exact .inr ⟨e, work, rfl, hlink, fun t ht => htarget ⟨t, ht⟩⟩

theorem Alike.step_back (h : Alike I p p') (hclear : Clear I p) (hstep : Step p' q') :
    ∃ q, Step p q ∧ Alike I q q' := by
  have hwork : p.work ≠ [] := by
    rw [← h.work]
    intro hnil
    exact no_step_nil hnil hstep
  rcases step_or_stuck hwork with ⟨q, hq⟩ | ⟨e, work, heq, hlink, hnone⟩
  · obtain ⟨q'', hq'', halike⟩ := h.step hclear hq
    rw [step_unique hstep hq'']
    exact ⟨q, hq, halike⟩
  · have hstuck : p'.Stuck := by
      refine ⟨e, work, h.work.trans heq, ?_, fun t ht => ?_⟩
      · rwa [h.agree.refStr]
      · exact hnone t ((h.agree.target (hclear e work heq) t).mp ht)
    exact (hstuck.no_step hstep).elim

/-- A walk that finds no error is one of both schemes, if the references are clear wherever both
have come to. -/
theorem Alike.walks_back (h : Alike I p p')
    (hclear : ∀ q q', Walks p q → Walks p' q' → Alike I q q' → q'.ok = true → Clear I q)
    (hwalk : Walks p' q') (hok : q'.ok = true) : ∃ q, Walks p q ∧ Alike I q q' := by
  induction hwalk with
  | refl => exact ⟨p, .refl, h⟩
  | tail hbefore hstep ih =>
    have hok' := Walks.ok (.single hstep) hok
    obtain ⟨q, hq, halike⟩ := ih hok'
    obtain ⟨r, hr, halike'⟩ := halike.step_back (hclear _ _ hq hbefore halike hok') hstep
    exact ⟨r, hq.tail hr, halike'⟩

/-- A walk over ENTRYs of a closed set comes to no others and leaves the others as they are. -/
theorem Walks.inside (h : Walks p q) (hwork : ∀ e ∈ p.work, I e)
    (hclosed : ∀ e, I e → ∀ n ∈ Pass.spread p.scheme e, I n) :
    (∀ e ∈ q.work, I e) ∧ ∀ e, ¬I e → q.scheme.entry e = p.scheme.entry e := by
  induction h with
  | refl => exact ⟨hwork, fun _ _ => rfl⟩
  | tail hbefore hstep ih =>
    obtain ⟨hin, hout⟩ := ih
    rw [← Walks.spread hbefore] at hclosed
    cases hstep with
    | missing => exact ⟨fun e he => hin e (List.mem_cons_of_mem _ he), hout⟩
    | @link s e src work ok error =>
      refine ⟨fun e' he' => hin e' (List.mem_cons_of_mem _ he'), fun e' he' => ?_⟩
      have hne : e' ≠ e := by
        rintro rfl
        exact he' (hin e' List.mem_cons_self)
      exact (link_entry s e src e' hne).trans (hout e' he')
    | @node s e work ok error hnode =>
      refine ⟨fun e' he' => ?_, fun e' he' => ?_⟩
      · rcases List.mem_append.mp he' with he' | he'
        · apply hclosed e (hin e List.mem_cons_self)
          rwa [spread_of_node hnode]
        · exact hin e' (List.mem_cons_of_mem _ he')
      · exact (congrFun (sameBut_enter s e).entry e').trans (hout e' he')

/-- A walk stands where it begins, or goes on from the next point. -/
theorem Walks.next (h : Walks p q) {r : Pass} (hstep : Step p r) : q = p ∨ Walks r q := by
  rcases h.cases_head with rfl | ⟨r', hstep', hrest⟩
  · exact .inl rfl
  · rw [step_unique hstep hstep']
    exact .inr hrest

/-- A walk to the end goes through the first part of its list first. -/
theorem Walks.split (h : Walks p q) (hend : q.work = []) {work₁ work₂ : List EntryId}
    (hwork : p.work = work₁ ++ work₂) :
    ∃ s ok error, Walks ⟨p.scheme, work₁, p.ok, p.error⟩ ⟨s, [], ok, error⟩ ∧
      Walks ⟨s, work₂, ok, error⟩ q := by
  induction h using Relation.ReflTransGen.head_induction_on generalizing work₁ with
  | refl =>
    rw [hend] at hwork
    obtain ⟨rfl, rfl⟩ := List.append_eq_nil_iff.mp hwork.symm
    obtain ⟨s, work, ok, error⟩ := q
    obtain rfl : work = [] := hend
    exact ⟨s, ok, error, .refl, .refl⟩
  | @head p r hstep hrest ih =>
    cases work₁ with
    | nil =>
      obtain ⟨s, work, ok, error⟩ := p
      obtain rfl : work = work₂ := hwork
      exact ⟨s, ok, error, .refl, .head hstep hrest⟩
    | cons e work₁ =>
      -- The step is the same if the list ends earlier.
      cases hstep with
      | @missing s e' work ok error ref hlink htarget =>
        obtain ⟨rfl, rfl⟩ := List.cons.inj hwork
        obtain ⟨s', ok', error', hfirst, hsecond⟩ := ih rfl
        exact ⟨s', ok', error', .head (.missing hlink htarget) hfirst, hsecond⟩
      | @link s e' src work ok error hlink htarget =>
        obtain ⟨rfl, rfl⟩ := List.cons.inj hwork
        obtain ⟨s', ok', error', hfirst, hsecond⟩ := ih rfl
        exact ⟨s', ok', error', .head (.link hlink htarget) hfirst, hsecond⟩
      | @node s e' work ok error hnode =>
        obtain ⟨rfl, rfl⟩ := List.cons.inj hwork
        obtain ⟨s', ok', error', hfirst, hsecond⟩ := ih (List.append_assoc ..).symm
        exact ⟨s', ok', error', .head (.node hnode) hfirst, hsecond⟩

/-- A walk that succeeds comes to each ENTRY of its list, succeeds with it, and goes on. -/
theorem Walks.comes_to {s s' : Kscheme} {work : List EntryId} {error error' : List String}
    (h : Walks ⟨s, work, true, error⟩ ⟨s', [], true, error'⟩) {top : EntryId} (htop : top ∈ work) :
    ∃ s₁ rest error₁ s₂ error₂, Walks ⟨s, work, true, error⟩ ⟨s₁, top :: rest, true, error₁⟩ ∧
      Walks ⟨s₁, [top], true, error₁⟩ ⟨s₂, [], true, error₂⟩ ∧
      Walks ⟨s₂, rest, true, error₂⟩ ⟨s', [], true, error'⟩ := by
  induction work generalizing s error with
  | nil => cases htop
  | cons e work ih =>
    obtain ⟨s₁, ok₁, error₁, hfirst, hrest⟩ := h.split rfl (show e :: work = [e] ++ work from rfl)
    obtain rfl : ok₁ = true := hrest.ok rfl
    rcases List.mem_cons.mp htop with rfl | htop
    · exact ⟨s, work, error, s₁, error₁, .refl, hfirst, hrest⟩
    · obtain ⟨s₂, rest, error₂, s₃, error₃, hto, htop, hlast⟩ := ih hrest htop
      exact ⟨s₂, rest, error₂, s₃, error₃, (hfirst.append work).trans hto, htop, hlast⟩

end Pass

end Klish
