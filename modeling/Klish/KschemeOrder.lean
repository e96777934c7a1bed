import Klish.KschemeAgree
import Klish.KschemeLive

/-!
# The order of the top-level ENTRYs

Two preparations take the top-level ENTRYs in different orders. They prepare each of them in step,
if in neither of them a reference is followed through a link before that is linked.
-/

namespace Klish

open Forests

namespace Kscheme

variable {scheme : Kscheme} {plugins : List Kplugin} {l : List EntryId}

/-- The scheme with its top-level ENTRYs in another order. -/
def ordered (scheme : Kscheme) (l : List EntryId) : Kscheme := { scheme with entrys := l }

/-- The preparation has given the link the lists of another ENTRY. -/
def Linked (scheme s : Kscheme) (k : EntryId) : Prop :=
  (s.entry k).body ≠ (scheme.entry k).body

/-- The ENTRYs are declared in the same top-level one. -/
def SameTree (scheme : Kscheme) (e k : EntryId) : Prop :=
  ∃ top ∈ scheme.entrys, Reached [top] scheme.nested e ∧ Reached [top] scheme.nested k

/-- When the top-level ENTRYs are prepared in the order, and as long as no error is found, no
reference is followed through a link that is not linked yet, except from within the same top-level
ENTRY. -/
def Straight (scheme : Kscheme) (plugins : List Kplugin) (l : List EntryId) : Prop :=
  ∀ s e work error, Pass.Walks ((scheme.ordered l).start plugins) ⟨s, e :: work, true, error⟩ →
    ∀ e' ref k, Relation.ReflTransGen s.Refers e e' → (s.entry e').refStr = some ref →
      s.Through ref k → scheme.isLink k = true → scheme.Linked s k ∨ scheme.SameTree e k

theorem Fresh.ordered (h : scheme.Fresh) (hperm : l.Perm scheme.entrys) :
    (scheme.ordered l).Fresh where
  legalFilter := h.legalFilter
  ownBody := h.ownBody
  unresolved := h.unresolved
  emptyTable := h.emptyTable
  forest := h.forest.perm hperm

/-- Where no name comes twice, a name is found in any order. -/
theorem findEntry_perm (hnames : (scheme.entrys.map scheme.name).Nodup)
    (hperm : l.Perm scheme.entrys) (name : String) :
    scheme.findEntry l name = scheme.findEntry scheme.entrys name := by
  cases hfind : scheme.findEntry scheme.entrys name with
  | none =>
    unfold findEntry at hfind ⊢
    rw [List.find?_eq_none] at hfind ⊢
    intro e he
    exact hfind e (hperm.mem_iff.mp he)
  | some e =>
    have he : e ∈ scheme.entrys := findEntry_mem hfind
    have hname : scheme.name e = name := by simpa using List.find?_some hfind
    cases hfind' : scheme.findEntry l name with
    | none =>
      have hne := List.find?_eq_none.mp hfind' e (hperm.mem_iff.mpr he)
      simp [hname] at hne
    | some e' =>
      have he' : e' ∈ scheme.entrys := hperm.mem_iff.mp (findEntry_mem hfind')
      have hname' : scheme.name e' = name := by simpa using List.find?_some hfind'
      rw [List.inj_on_of_nodup_map hnames he' he (hname'.trans hname.symm)]

/-- A walk without an error has a log. -/
theorem Fresh.settled_walk (h : scheme.Fresh) {p : Pass}
    (hwalk : Pass.Walks (scheme.start plugins) p) (hok : p.ok = true) :
    ∃ log, Pass.Settled (scheme.start plugins) p log := by
  obtain ⟨log, hat⟩ := (Pass.Settled.start h.forest.nodupRoots).trans h.forest h.ownBody
    h.emptyTable hwalk hok
  exact ⟨[] ++ log, hat⟩

/-- A link that is linked stays as it is. -/
theorem Fresh.linked_stays (h : scheme.Fresh) {p q : Pass}
    (hto : Pass.Walks (scheme.start plugins) p) (hwalk : Pass.Walks p q) (hok : q.ok = true)
    {k : EntryId} (hk : scheme.Linked p.scheme k) : q.scheme.entry k = p.scheme.entry k := by
  obtain ⟨log, hat⟩ := h.settled_walk hto (hwalk.ok hok)
  obtain ⟨more, hend⟩ := hat.trans h.forest h.ownBody h.emptyTable hwalk hok
  rcases hat.entry_or_linked k with heq | ⟨src, hmem, hlink, heq⟩
  · exact absurd (congrArg Kentry.body heq) hk
  · rw [heq]
    exact (hend.link k src (List.mem_append_left _ hmem) hlink).2.2

/-- What is not linked at the end is as it was loaded. -/
theorem Fresh.entry_of_not_linked (h : scheme.Fresh) {s : Kscheme} {error : List String}
    (hend : Pass.Walks (scheme.start plugins) ⟨s, [], true, error⟩) {k : EntryId} (hk : ¬scheme.Linked s k) :
    s.entry k = scheme.entry k := by
  obtain ⟨log, hat⟩ := h.settled_walk hend rfl
  rcases hat.entry_or_linked k with heq | ⟨src, hmem, hlink, heq⟩
  · exact heq
  · have hnode := (hat.link k src hmem hlink).2.1
    refine absurd (fun hbody => ?_) hk
    rw [heq, Pass.link_entry_self] at hbody
    obtain rfl : src = k := h.ownBody src k hbody
    rw [hlink] at hnode
    cases hnode

/-- The ENTRYs of the tree of a top-level ENTRY, and the links that are the same in both schemes. -/
def Common (scheme s₁ s₂ : Kscheme) (top k : EntryId) : Prop :=
  Reached [top] scheme.nested k ∨ (scheme.isLink k = true ∧ s₂.entry k = s₁.entry k)

section Order

variable (h : scheme.Fresh) (hnames : (scheme.entrys.map scheme.name).Nodup)
include h hnames

/-- When the walk comes to a top-level ENTRY, all in its tree is as it was loaded. -/
theorem Fresh.agree (hperm : l.Perm scheme.entrys) {s : Kscheme} {top : EntryId}
    {rest : List EntryId} {ok : Bool} {error : List String} {log : List (EntryId × EntryId)}
    (hat : Pass.Settled ((scheme.ordered l).start plugins) ⟨s, top :: rest, ok, error⟩ log) :
    Agree (Reached [top] scheme.nested) { scheme with plugins } s := by
  have F := (h.ordered hperm).forest
  have hfresh : ∀ {e}, Reached [top] scheme.nested e → e ∉ log.map Prod.fst :=
    fun he => hat.order.tree_fresh F List.mem_cons_self he
  refine ⟨hat.plugins, fun name => ?_, hat.name, hat.refStr, fun e he => ?_, hat.nested,
    fun e he hnode => ?_, fun e e' _ _ hbody => h.ownBody e e' hbody⟩
  · have hentrys : s.entrys = l := hat.entrys
    have hfind : s.findEntry = scheme.findEntry := findEntry_congr hat.name
    rw [hentrys, hfind]
    exact findEntry_perm hnames hperm name
  · rcases he with he | hnode
    · exact hat.entry e fun _ => hfresh he
    · exact hat.node_entry hnode
  · unfold actions bodyOf
    have hentry : s.entry e = scheme.entry e := hat.node_entry hnode
    rw [hentry]
    refine congrArg Kbody.actions (hat.body _ fun e' he' _ hbody => ?_)
    obtain rfl : e' = e := h.ownBody e' e hbody
    exact hfresh he he'

variable {l₁ l₂ : List EntryId} (hperm₁ : l₁.Perm scheme.entrys) (hperm₂ : l₂.Perm scheme.entrys)
include hperm₁ hperm₂

section Tree

variable {s₁ s₂ final : Kscheme} {top : EntryId} {rest₁ rest₂ : List EntryId}
  {error₁ error₂ error : List String}
  (hto₁ : Pass.Walks ((scheme.ordered l₁).start plugins) ⟨s₁, top :: rest₁, true, error₁⟩)
  (hto₂ : Pass.Walks ((scheme.ordered l₂).start plugins) ⟨s₂, top :: rest₂, true, error₂⟩)
include hto₁ hto₂

/-- Both walks come to the top-level ENTRY with the tree of it as it was loaded. -/
theorem Fresh.alike : Pass.Alike (scheme.Common s₁ s₂ top) ⟨s₁, [top], true, error₁⟩
    ⟨s₂, [top], true, error₂⟩ := by
  obtain ⟨log₁, hat₁⟩ := (h.ordered hperm₁).settled_walk hto₁ rfl
  obtain ⟨log₂, hat₂⟩ := (h.ordered hperm₂).settled_walk hto₂ rfl
  refine ⟨rfl, rfl, ?_, fun e he => .inl (.root he), fun e he n hn => ?_⟩
  · exact (h.agree hnames hperm₁ hat₁).between (h.agree hnames hperm₂ hat₂) fun _ he => he
  · have hspread : Pass.spread s₁ = Forests.spread scheme.isLink scheme.nested := hto₁.spread
    rw [hspread, mem_spread] at hn
    rcases he with he | ⟨hlink, -⟩
    · exact .inl (.child he hn.2)
    · rw [hlink] at hn
      cases hn.1

variable (htop : top ∈ scheme.entrys)
  (hsame : ∀ k, scheme.Linked s₁ k → s₁.entry k = final.entry k)
  (hend : Pass.Walks ⟨s₂, top :: rest₂, true, error₂⟩ ⟨final, [], true, error⟩)
  (hstraight₁ : scheme.Straight plugins l₁) (hstraight₂ : scheme.Straight plugins l₂)
include htop hsame hend hstraight₁ hstraight₂

omit hnames in
/-- While both are in the tree, the references lead through its ENTRYs, or through links that both
walks have linked before. -/
theorem Fresh.clear {q q' : Pass} (hq : Pass.Walks ⟨s₁, [top], true, error₁⟩ q)
    (hq' : Pass.Walks ⟨s₂, [top], true, error₂⟩ q')
    (halike : Pass.Alike (scheme.Common s₁ s₂ top) q q') (hok : q'.ok = true) :
    Pass.Clear (scheme.Common s₁ s₂ top) q := by
  obtain ⟨t₁, work, ok, error₁'⟩ := q
  obtain ⟨t₂, work', ok', error₂'⟩ := q'
  obtain ⟨rfl, rfl⟩ : work' = work ∧ ok' = ok := ⟨halike.work, halike.ok⟩
  obtain rfl : ok' = true := hok
  intro e w hwork
  obtain rfl : work' = e :: w := hwork
  have hclosed : ∀ {s : Kscheme}, Pass.spread s = Forests.spread scheme.isLink scheme.nested →
      ∀ e, Reached [top] scheme.nested e → ∀ n ∈ Pass.spread s e,
        Reached [top] scheme.nested n := by
    intro s hs e he n hn
    rw [hs, mem_spread] at hn
    exact .child he hn.2
  obtain ⟨hin, hout₁⟩ := hq.inside (fun _ he => .root he) (hclosed hto₁.spread)
  obtain ⟨-, hout₂⟩ := hq'.inside (fun _ he => .root he) (hclosed hto₂.spread)
  have hto₁' := hto₁.trans (hq.append rest₁)
  have hto₂' := hto₂.trans (hq'.append rest₂)
  have hagree : Agree (scheme.Common s₁ s₂ top) t₁ t₂ := halike.agree
  apply hagree.inside
  intro e' ref k href₁ href₂ href hthrough₁ hthrough₂ hlink
  have hlink₀ : scheme.isLink k = true := by
    obtain ⟨log, hat⟩ := (h.ordered hperm₁).settled_walk hto₁' rfl
    rw [← hlink]
    exact congrFun hat.isLink.symm k
  by_cases hk : Reached [top] scheme.nested k
  · exact .inl hk
  -- A link of another tree is one that both walks have linked.
  have hforeign : ¬scheme.SameTree e k := by
    rintro ⟨top', htop', he, hk'⟩
    obtain rfl := h.forest.tree_unique htop htop' (hin e List.mem_cons_self) he
    exact hk hk'
  have hlinked₁ : scheme.Linked t₁ k :=
    (hstraight₁ _ _ _ _ hto₁' e' ref k href₁ href hthrough₁ hlink₀).resolve_right hforeign
  have hlinked₂ : scheme.Linked t₂ k :=
    (hstraight₂ _ _ _ _ hto₂' e' ref k href₂ (by rw [hagree.refStr, href]) hthrough₂
      hlink₀).resolve_right hforeign
  have hkept₁ : t₁.entry k = s₁.entry k := hout₁ k hk
  have hkept₂ : t₂.entry k = s₂.entry k := hout₂ k hk
  unfold Linked at hlinked₁ hlinked₂
  rw [hkept₁] at hlinked₁
  rw [hkept₂] at hlinked₂
  have hfinal : final.entry k = s₂.entry k :=
    (h.ordered hperm₂).linked_stays hto₂ hend rfl hlinked₂
  exact .inr ⟨hlink₀, hfinal.symm.trans (hsame k hlinked₁).symm⟩

/-- A tree that is prepared in one order is prepared in the other one, and gets the same links. -/
theorem Fresh.tree_step {s₂' : Kscheme} {error₂' : List String}
    (htree : Pass.Walks ⟨s₂, [top], true, error₂⟩ ⟨s₂', [], true, error₂'⟩) :
    ∃ s₁' error₁', Pass.Walks ⟨s₁, [top], true, error₁⟩ ⟨s₁', [], true, error₁'⟩ ∧
      ∀ k, scheme.Linked s₁' k → s₁'.entry k = final.entry k := by
  have hto₂' := hto₂.trans (htree.append rest₂)
  have hrest := Pass.Walks.of_end (htree.append rest₂) hend rfl
  obtain ⟨q, hq, halike⟩ := (h.alike hnames hperm₁ hperm₂ hto₁ hto₂).walks_back
    (fun _ _ => h.clear hperm₁ hperm₂ hto₁ hto₂ htop hsame hend hstraight₁ hstraight₂)
    htree rfl
  obtain ⟨s₁', work, ok, error₁'⟩ := q
  obtain ⟨rfl, rfl⟩ : work = [] ∧ ok = true := ⟨halike.work.symm, halike.ok.symm⟩
  refine ⟨s₁', error₁', hq, fun k hk => ?_⟩
  by_cases hin : Reached [top] scheme.nested k
  · have heq : s₂'.entry k = s₁'.entry k := halike.agree.entry k (.inl (.inl hin))
    have hlinked : scheme.Linked s₂' k := by
      unfold Linked
      rwa [heq]
    have hfinal : final.entry k = s₂'.entry k :=
      (h.ordered hperm₂).linked_stays hto₂' hrest rfl hlinked
    rw [hfinal, heq]
  · have hspread : Pass.spread s₁ = Forests.spread scheme.isLink scheme.nested := hto₁.spread
    obtain ⟨-, hout⟩ := hq.inside (I := Reached [top] scheme.nested) (fun _ he => .root he)
      fun e he n hn => by
        dsimp only at hn
        rw [hspread, mem_spread] at hn
        exact .child he hn.2
    have hkept : s₁'.entry k = s₁.entry k := hout k hin
    rw [hkept]
    apply hsame
    unfold Linked at hk ⊢
    rwa [← hkept]

end Tree

/-- An order that succeeds makes the other one succeed, and gives it the same links. -/
theorem Fresh.succeeds_of (hstraight₁ : scheme.Straight plugins l₁)
    (hstraight₂ : scheme.Straight plugins l₂) {final : Kscheme} {error : List String}
    (hend : Pass.Walks ((scheme.ordered l₂).start plugins) ⟨final, [], true, error⟩) :
    ∃ s error', Pass.Walks ((scheme.ordered l₁).start plugins) ⟨s, [], true, error'⟩ ∧
      ∀ k, scheme.Linked s k → s.entry k = final.entry k := by
  -- The induction is on the top-level ENTRYs that are still to come.
  suffices hgo : ∀ rest, rest ⊆ l₁ → ∀ s error',
      Pass.Walks ((scheme.ordered l₁).start plugins) ⟨s, rest, true, error'⟩ →
        (∀ k, scheme.Linked s k → s.entry k = final.entry k) →
          ∃ s error', Pass.Walks ((scheme.ordered l₁).start plugins) ⟨s, [], true, error'⟩ ∧
            ∀ k, scheme.Linked s k → s.entry k = final.entry k from
    hgo l₁ (List.Subset.refl l₁) _ _ .refl fun _ hk => absurd rfl hk
  intro rest
  induction rest with
  | nil => exact fun _ s error' hwalk hsame => ⟨s, error', hwalk, hsame⟩
  | cons top rest ih =>
    intro hsub s error' hwalk hsame
    have htop : top ∈ scheme.entrys := hperm₁.mem_iff.mp (hsub List.mem_cons_self)
    obtain ⟨s₂, rest₂, error₂, s₂', error₂', hto₂, htree, -⟩ :=
      Pass.Walks.comes_to hend (hperm₂.mem_iff.mpr htop)
    obtain ⟨s', error'', hq, hsame'⟩ := h.tree_step hnames hperm₁ hperm₂ hwalk hto₂ htop hsame
      (hto₂.of_end hend rfl) hstraight₁ hstraight₂ htree
    exact ih (fun e he => hsub (List.mem_cons_of_mem _ he)) s' error''
      (hwalk.trans (hq.append rest)) hsame'

/-- What one order has linked is linked alike in the other one. -/
theorem Fresh.links_agree (hstraight₁ : scheme.Straight plugins l₁)
    (hstraight₂ : scheme.Straight plugins l₂) {s final : Kscheme} {error error' : List String}
    (hwalk : Pass.Walks ((scheme.ordered l₁).start plugins) ⟨s, [], true, error'⟩)
    (hend : Pass.Walks ((scheme.ordered l₂).start plugins) ⟨final, [], true, error⟩) {k : EntryId}
    (hk : scheme.Linked s k) : s.entry k = final.entry k := by
  obtain ⟨s', error'', hwalk', hsame⟩ :=
    h.succeeds_of hnames hperm₁ hperm₂ hstraight₁ hstraight₂ hend
  obtain ⟨rfl, -⟩ : s = s' ∧ error' = error'' := by
    simpa using (hwalk'.of_end hwalk rfl).eq_of_nil rfl
  exact hsame k hk

end Order

/-- The order of the top-level ENTRYs does not matter for the preparation, if in neither order a
reference is followed through a link that is not linked yet. -/
theorem prepare_order (h : scheme.Fresh) (hnames : (scheme.entrys.map scheme.name).Nodup)
    {loadPlugins : List Kplugin → Option (List Kplugin)}
    (hstraight : ∀ plugins, loadPlugins scheme.plugins = some plugins →
      scheme.Straight plugins scheme.entrys ∧ scheme.Straight plugins l)
    (hperm : l.Perm scheme.entrys) :
    ((∃ fuel r, prepare loadPlugins fuel scheme = some r ∧ r.ok = true) ↔
      ∃ fuel r, prepare loadPlugins fuel (scheme.ordered l) = some r ∧ r.ok = true) ∧
    ∀ fuel r fuel' r', prepare loadPlugins fuel scheme = some r → r.ok = true →
      prepare loadPlugins fuel' (scheme.ordered l) = some r' → r'.ok = true →
        ∀ e, r'.scheme.entry e = r.scheme.entry e := by
  cases hload : loadPlugins scheme.plugins with
  | none =>
    have hfails : ∀ {s : Kscheme} {fuel : ℕ} {r : Report},
        prepare loadPlugins fuel s = some r → s.plugins = scheme.plugins → r.ok = false := by
      intro s fuel r hrun hplugins
      unfold prepare at hrun
      rw [hplugins, hload] at hrun
      cases hrun
      rfl
    constructor
    · constructor
      · rintro ⟨fuel, r, hrun, hok⟩
        rw [hfails hrun rfl] at hok
        cases hok
      · rintro ⟨fuel, r, hrun, hok⟩
        rw [hfails hrun rfl] at hok
        cases hok
    · intro fuel r _ _ hrun hok
      rw [hfails hrun rfl] at hok
      cases hok
  | some plugins =>
    obtain ⟨hstraight, hstraight'⟩ := hstraight plugins hload
    have hfresh := h.ordered hperm
    have hself : scheme.entrys.Perm scheme.entrys := List.Perm.refl _
    constructor
    · constructor
      · rintro ⟨fuel, r, hrun, hok⟩
        obtain ⟨error, hend⟩ := (h.prepare_ok_iff hload).mp ⟨fuel, r, hrun, hok, rfl⟩
        obtain ⟨s, error', hwalk, -⟩ :=
          h.succeeds_of hnames hperm hself hstraight' hstraight hend
        obtain ⟨fuel', r', hrun', hok', -⟩ := (hfresh.prepare_ok_iff hload).mpr ⟨error', hwalk⟩
        exact ⟨fuel', r', hrun', hok'⟩
      · rintro ⟨fuel, r, hrun, hok⟩
        obtain ⟨error, hend⟩ := (hfresh.prepare_ok_iff hload).mp ⟨fuel, r, hrun, hok, rfl⟩
        obtain ⟨s, error', hwalk, -⟩ :=
          h.succeeds_of hnames hself hperm hstraight hstraight' hend
        obtain ⟨fuel', r', hrun', hok', -⟩ := (h.prepare_ok_iff hload).mpr ⟨error', hwalk⟩
        exact ⟨fuel', r', hrun', hok'⟩
    · intro fuel r fuel' r' hrun hok hrun' hok' e
      obtain ⟨error, hend⟩ := (h.prepare_ok_iff hload).mp ⟨fuel, r, hrun, hok, rfl⟩
      obtain ⟨error', hend'⟩ := (hfresh.prepare_ok_iff hload).mp ⟨fuel', r', hrun', hok', rfl⟩
      by_cases hlinked : scheme.Linked r.scheme e
      · exact (h.links_agree hnames hself hperm hstraight hstraight' hend hend' hlinked).symm
      by_cases hlinked' : scheme.Linked r'.scheme e
      · exact h.links_agree hnames hperm hself hstraight' hstraight hend' hend hlinked'
      · rw [h.entry_of_not_linked hend hlinked]
        exact hfresh.entry_of_not_linked hend' hlinked'

/-- The link `l` to `/t`, the ENTRY `t` with an ENTRY `x` in it, and the link `m`. -/
def orderScheme (ref : String) : Kscheme where
  plugins := []
  entrys := [0, 1, 2]
  entry e := { Kentry.new (["l", "t", "m"].getD e "x") e with
    refStr := [some "/t", none, some ref].getD e none }
  body b := { Kbody.new with entrys := if b = 1 then [3] else [] }

theorem orderScheme_fresh (ref : String) : (orderScheme ref).Fresh :=
  have hlive : (liveScheme ref).Fresh := liveScheme_fresh ref
  { legalFilter := fun _ hfilter => nomatch hfilter
    ownBody := fun _ _ hbody => hbody
    unresolved := fun _ _ haction => nomatch haction
    emptyTable := fun _ _ => rfl
    forest := hlive.forest }

/-- Only the link `m` goes on through another one, and it is `l`. -/
theorem orderScheme_straight {l : List EntryId} (hl : l = [0, 1, 2] ∨ l = [1, 0, 2])
    (hlinked : ∀ s work error, Pass.Walks (((orderScheme "/l/x").ordered l).start [])
      ⟨s, 2 :: work, true, error⟩ → (s.entry 0).body = 1) : (orderScheme "/l/x").Straight [] l := by
  intro s e work error hwalk e' ref k hto href hthrough _
  have hfresh : ((orderScheme "/l/x").ordered l).Fresh := by
    refine (orderScheme_fresh "/l/x").ordered ?_
    rcases hl with rfl | rfl <;> decide
  obtain ⟨log, hat⟩ := hfresh.settled_walk hwalk rfl
  have hentrys : s.entrys = l := hat.entrys
  have hname : s.name = (orderScheme "/l/x").name := hat.name
  have hrefStr : ∀ c, (s.entry c).refStr = ((orderScheme "/l/x").entry c).refStr := hat.refStr
  have hpaths : ∀ c ref, (s.entry c).refStr = some ref →
      (c = 0 ∧ strtok '/' ref = ["t"]) ∨ (c = 2 ∧ strtok '/' ref = ["l", "x"]) := by
    intro c ref hc
    rw [hrefStr] at hc
    match c, hc with
    | 0, rfl => exact .inl ⟨rfl, by decide⟩
    | 2, rfl => exact .inr ⟨rfl, by decide⟩
  -- No reference leads to `m`, since no path ends with its name.
  have hlast : ∀ c, ¬s.Refers c 2 := by
    rintro c ⟨ref, hc, hfind⟩
    rw [findEntryByPath_eq] at hfind
    have hfound : ∃ entrys name, s.findEntry entrys name = some 2 ∧ name ≠ "m" := by
      rcases hpaths c ref hc with ⟨-, hsplit⟩ | ⟨-, hsplit⟩ <;> rw [hsplit] at hfind
      · exact ⟨s.entrys, "t", hfind, by decide⟩
      · obtain ⟨c', -, hfind⟩ := Option.bind_eq_some_iff.mp hfind
        exact ⟨s.nested c', "x", hfind, by decide⟩
    obtain ⟨entrys, name, hfind, hne⟩ := hfound
    have hm : s.name 2 = name := by simpa using List.find?_some hfind
    rw [hname] at hm
    exact hne hm.symm
  obtain ⟨names, name, rest, hsplit, hlookup⟩ := hthrough
  have hnames : names ≠ [] := by
    rintro rfl
    cases hlookup
  rcases hpaths e' ref href with ⟨-, hpath⟩ | ⟨rfl, hpath⟩
  · have hlength := congrArg List.length (hpath.symm.trans hsplit)
    simp only [List.length_append, List.length_cons, List.length_nil] at hlength
    have hpos := List.length_pos_of_ne_nil hnames
    omega
  · have hl : s.lookup ["l"] = some 0 := by
      show s.findEntry s.entrys "l" = some 0
      rw [findEntry_congr hname, hentrys]
      rcases hl with rfl | rfl <;> rfl
    obtain ⟨first, more, rfl⟩ := List.exists_cons_of_ne_nil hnames
    obtain ⟨rfl, hmore⟩ : "l" = first ∧ ["x"] = more ++ name :: rest :=
      List.cons.inj (hpath.symm.trans hsplit)
    obtain rfl : more = [] := by
      have hlength := congrArg List.length hmore
      simp only [List.length_append, List.length_cons, List.length_nil] at hlength
      exact List.eq_nil_of_length_eq_zero (by omega)
    obtain rfl : 0 = k := Option.some.inj (hl.symm.trans hlookup)
    obtain rfl : e = 2 := by
      rcases hto.cases_tail with heq | ⟨c, -, hc⟩
      · exact heq.symm
      · exact absurd hc (hlast c)
    left
    unfold Linked
    rw [hlinked s work error hwalk]
    decide

/-- The link `m` leads through the link `l`, which comes before it in both orders. -/
theorem prepare_order_sample :
    ((∃ fuel r, prepare some fuel (orderScheme "/l/x") = some r ∧ r.ok = true) ↔
      ∃ fuel r, prepare some fuel ((orderScheme "/l/x").ordered [1, 0, 2]) = some r ∧
        r.ok = true) ∧
    ∀ fuel r fuel' r', prepare some fuel (orderScheme "/l/x") = some r → r.ok = true →
      prepare some fuel' ((orderScheme "/l/x").ordered [1, 0, 2]) = some r' → r'.ok = true →
        ∀ e, r'.scheme.entry e = r.scheme.entry e := by
  refine prepare_order (orderScheme_fresh "/l/x") (by decide) (fun plugins hplugins => ?_)
    (by decide)
  obtain rfl := Option.some.inj hplugins
  constructor
  · refine orderScheme_straight (.inl rfl) fun s work error hwalk => ?_
    rcases hwalk.next (.link rfl ⟨2, rfl⟩) with heq | hwalk
    · cases heq
    rcases hwalk.next (.node rfl) with heq | hwalk
    · cases heq
    rcases hwalk.next (.node rfl) with heq | hwalk
    · cases heq
    rcases hwalk.next (.link rfl ⟨2, rfl⟩) with heq | hwalk
    · cases heq
      rfl
    · cases hwalk.eq_of_nil rfl
  · refine orderScheme_straight (.inr rfl) fun s work error hwalk => ?_
    rcases hwalk.next (.node rfl) with heq | hwalk
    · cases heq
    rcases hwalk.next (.node rfl) with heq | hwalk
    · cases heq
    rcases hwalk.next (.link rfl ⟨2, rfl⟩) with heq | hwalk
    · cases heq
    rcases hwalk.next (.link rfl ⟨2, rfl⟩) with heq | hwalk
    · cases heq
      rfl
    · cases hwalk.eq_of_nil rfl

/-- A reference through a link leads to nothing until the link is linked. -/
theorem prepare_order_matters : (orderScheme "/l/x").Fresh ∧
    ((orderScheme "/l/x").entrys.map (orderScheme "/l/x").name).Nodup ∧
    (∀ e, ∃ t, (orderScheme "/l/x").Target e t) ∧
    (∃ fuel r, prepare some fuel (orderScheme "/l/x") = some r ∧ r.ok = true) ∧
    ¬ ∃ fuel r, prepare some fuel ((orderScheme "/l/x").ordered [2, 0, 1]) = some r ∧
      r.ok = true := by
  refine ⟨orderScheme_fresh _, by decide, fun e => ?_, ?_, ?_⟩
  · match e with
    | 0 => exact ⟨.ok 1, 2, rfl⟩
    | 1 => exact ⟨.ok 1, 1, rfl⟩
    | 2 => exact ⟨.error "/l/x", 1, rfl⟩
    | e + 3 => exact ⟨.ok (e + 3), 1, rfl⟩
  · have hok : (prepare some 4 (orderScheme "/l/x")).map Report.ok = some true := by decide
    obtain ⟨r, hrun, hok⟩ := Option.map_eq_some_iff.mp hok
    exact ⟨4, r, hrun, hok⟩
  · rintro ⟨fuel, r, hrun, hok⟩
    have hfirst : (prepareEntrys 4 [2, 0, 1] ((orderScheme "/l/x").ordered [2, 0, 1])).map
        Report.ok = some false := by decide
    obtain ⟨r', hrun', hok'⟩ := Option.map_eq_some_iff.mp hfirst
    have hmax := prepareEntrys_mono hrun' (Nat.le_max_left 4 fuel)
    have hrun₁ : prepareEntrys fuel [2, 0, 1] ((orderScheme "/l/x").ordered [2, 0, 1]) =
        some r := hrun
    rw [prepareEntrys_mono hrun₁ (Nat.le_max_right 4 fuel)] at hmax
    rw [Option.some.inj hmax, hok'] at hok
    cases hok

end Kscheme

end Klish
