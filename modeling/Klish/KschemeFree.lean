import Klish.KschemeAgree
import Klish.KschemeLive
import Klish.Lib.Postorder

/-!
# How a scheme is freed

A link frees its own lists when it takes over those of another ENTRY, and at the end the scheme is
freed, whether its preparation has succeeded or not. Nothing is freed twice. What is declared below
a link that has not been linked stays behind.
-/

namespace Klish

open Forests

/-- What is freed at once: an ENTRY, or the lists of one. -/
inductive Block where
  | entry (e : EntryId)
  | lists (b : BodyId)
  deriving DecidableEq, Repr

namespace Kscheme

variable {scheme s : Kscheme}

/-- `faux_list_free` of a list of ENTRYs. -/
def freeEntrys (freeEntry : EntryId → Option (List Block)) : List EntryId → Option (List Block)
  | [] => some []
  | e :: entrys => (freeEntry e).bind fun freed => (freeEntrys freeEntry entrys).map (freed ++ ·)

/-- `kentry_free_non_link`, with what frees a nested ENTRY. -/
def freeNonLink (s : Kscheme) (freeEntry : EntryId → Option (List Block)) (e : EntryId) :
    Option (List Block) :=
  (freeEntrys freeEntry (s.nested e)).map (· ++ [.lists (s.entry e).body])

/-- `kentry_free` -/
def freeEntry (s : Kscheme) : ℕ → EntryId → Option (List Block)
  | 0, _ => none
  | fuel + 1, e =>
    -- The lists of a link are those of another ENTRY.
    if s.isLink e then some [.entry e]
    else (s.freeNonLink (s.freeEntry fuel) e).map (· ++ [.entry e])

/-- `kscheme_free`: the ENTRYs. -/
def free (s : Kscheme) (fuel : ℕ) : Option (List Block) :=
  freeEntrys (s.freeEntry fuel) s.entrys

/-- What is freed for an ENTRY by itself. -/
def blocks (s : Kscheme) (e : EntryId) : List Block :=
  if s.isLink e then [.entry e] else [.lists (s.entry e).body, .entry e]

theorem freeEntrys_eq {freeEntry : EntryId → Option (List Block)}
    {walk : EntryId → Option (List EntryId)}
    (h : ∀ e, freeEntry e = (walk e).map (List.flatMap s.blocks)) (entrys : List EntryId) :
    freeEntrys freeEntry entrys = (postorderEach walk entrys).map (List.flatMap s.blocks) := by
  induction entrys with
  | nil => rfl
  | cons e entrys ih =>
    rw [freeEntrys, postorderEach, h, ih]
    cases walk e with
    | none => rfl
    | some l =>
      cases postorderEach walk entrys with
      | none => rfl
      | some l' => simp

/-- The ENTRYs are freed bottom-up, and nothing that is inside a link. -/
theorem freeEntry_eq (s : Kscheme) (fuel : ℕ) (e : EntryId) : s.freeEntry fuel e =
    (postorder (Forests.spread s.isLink s.nested) fuel e).map (List.flatMap s.blocks) := by
  induction fuel generalizing e with
  | zero => rfl
  | succ fuel ih =>
    rw [freeEntry, postorder, Forests.spread]
    cases hlink : s.isLink e with
    | true => simp [postorderEach, blocks, hlink]
    | false =>
      simp only [Bool.false_eq_true, if_false]
      rw [freeNonLink, freeEntrys_eq ih]
      cases postorderEach (postorder (Forests.spread s.isLink s.nested) fuel) (s.nested e) with
      | none => rfl
      | some l => simp [blocks, hlink]

section Accounts

/-- The blocks are those of the ENTRYs `E` and of the lists of the ENTRYs `L`, each of them once. -/
structure Accounts (body : EntryId → BodyId) (freed : List Block) (E L : EntryId → Prop) : Prop where
  nodup : freed.Nodup
  entrys : ∀ e, .entry e ∈ freed ↔ E e
  lists : ∀ b, .lists b ∈ freed ↔ ∃ e, L e ∧ body e = b

variable {body : EntryId → BodyId} {freed freed' : List Block} {E E' L L' : EntryId → Prop}

theorem Accounts.congr (h : Accounts body freed E L) (hE : ∀ e, E e ↔ E' e)
    (hL : ∀ e, L e ↔ L' e) : Accounts body freed E' L' where
  nodup := h.nodup
  entrys e := (h.entrys e).trans (hE e)
  lists b := by
    rw [h.lists]
    exact exists_congr fun e => and_congr_left' (hL e)

theorem accounts_nil : Accounts body [] (fun _ => False) fun _ => False where
  nodup := List.nodup_nil
  entrys e := by simp
  lists b := by simp

theorem accounts_entry (e : EntryId) : Accounts body [.entry e] (· = e) fun _ => False where
  nodup := List.nodup_singleton _
  entrys e' := by simp
  lists b := by simp

theorem accounts_lists (e : EntryId) :
    Accounts body [.lists (body e)] (fun _ => False) (· = e) where
  nodup := List.nodup_singleton _
  entrys e' := by simp
  lists b := by simp [eq_comm]

variable (hown : ∀ e e', body e = body e' → e = e')
include hown

theorem Accounts.append (h : Accounts body freed E L) (h' : Accounts body freed' E' L')
    (hE : ∀ e, E e → ¬ E' e) (hL : ∀ e, L e → ¬ L' e) :
    Accounts body (freed ++ freed') (fun e => E e ∨ E' e) fun e => L e ∨ L' e where
  nodup := by
    refine List.nodup_append'.mpr ⟨h.nodup, h'.nodup, fun b hb hb' => ?_⟩
    cases b with
    | entry e => exact hE e ((h.entrys e).mp hb) ((h'.entrys e).mp hb')
    | lists b =>
      obtain ⟨e, he, hbody⟩ := (h.lists b).mp hb
      obtain ⟨e', he', hbody'⟩ := (h'.lists b).mp hb'
      obtain rfl := hown e e' (hbody.trans hbody'.symm)
      exact hL e he he'
  entrys e := by rw [List.mem_append, h.entrys, h'.entrys]
  lists b := by
    rw [List.mem_append, h.lists, h'.lists, ← exists_or]
    exact exists_congr fun e => (or_and_right).symm

end Accounts

section Blocks

/-- The lists that the ENTRY has by itself. -/
def bodyId (s : Kscheme) (e : EntryId) : BodyId := (s.entry e).body

variable (hown : ∀ e e', scheme.bodyId e = scheme.bodyId e' → e = e')
include hown

theorem accounts_blocks (e : EntryId) :
    Accounts scheme.bodyId (scheme.blocks e) (· = e) fun c => c = e ∧ scheme.isLink c = false := by
  unfold blocks
  cases hlink : scheme.isLink e with
  | true =>
    refine (accounts_entry e).congr (fun _ => Iff.rfl) fun c => ?_
    constructor
    · exact False.elim
    · rintro ⟨rfl, hnode⟩
      rw [hlink] at hnode
      cases hnode
  | false =>
    have hboth := (accounts_lists e).append hown (accounts_entry e) (fun _ h => h.elim) fun _ _ h => h
    refine hboth.congr (fun c => by simp) fun c => ?_
    constructor
    · rintro (rfl | h)
      · exact ⟨rfl, hlink⟩
      · exact h.elim
    · exact fun h => .inl h.1

theorem accounts_flatMap {l : List EntryId} (h : l.Nodup) :
    Accounts scheme.bodyId (l.flatMap scheme.blocks) (· ∈ l) fun c => c ∈ l ∧ scheme.isLink c = false := by
  induction l with
  | nil => exact accounts_nil.congr (by simp) (by simp)
  | cons e l ih =>
    obtain ⟨hnew, hnodup⟩ := List.nodup_cons.mp h
    have hboth := (accounts_blocks hown e).append hown (ih hnodup)
      (fun c hc hmem => hnew (hc ▸ hmem)) fun c hc hmem => hnew (hc.1 ▸ hmem.1)
    refine hboth.congr (fun c => List.mem_cons.symm) fun c => ?_
    rw [List.mem_cons, or_and_right]

end Blocks

end Kscheme

namespace Pass

open Kscheme

/-- What a step of the walk frees: `kentry_link` begins with `kentry_free_non_link`. -/
inductive StepFrees : Pass → Pass → List Block → Prop
  | missing {s : Kscheme} {e : EntryId} {work : List EntryId} {ok : Bool} {error : List String}
      {ref : String} (hlink : s.isLink e = true) (htarget : s.Target e (.error ref)) :
      StepFrees ⟨s, e :: work, ok, error⟩
        ⟨s, work, false, error ++ ["Can't find ENTRY \"" ++ ref ++ "\""]⟩ []
  | link {s : Kscheme} {e src : EntryId} {work : List EntryId} {ok : Bool} {error : List String}
      {fuel : ℕ} {freed : List Block} (hlink : s.isLink e = true) (htarget : s.Target e (.ok src))
      (hfree : s.freeNonLink (s.freeEntry fuel) e = some freed) :
      StepFrees ⟨s, e :: work, ok, error⟩ ⟨s.link e src, work, ok, error⟩ freed
  | node {s : Kscheme} {e : EntryId} {work : List EntryId} {ok : Bool} {error : List String}
      (hnode : s.isLink e = false) :
      StepFrees ⟨s, e :: work, ok, error⟩
        ⟨s.enter e, s.nested e ++ work, ok && (s.prepareActionList e).ok,
          error ++ (s.prepareActionList e).error⟩ []

/-- The walk goes on to another point and frees the blocks on its way. -/
inductive WalkFrees (p : Pass) : Pass → List Block → Prop
  | refl : WalkFrees p p []
  | tail {q r : Pass} {freed more : List Block} (h : WalkFrees p q freed)
      (hstep : StepFrees q r more) : WalkFrees p r (freed ++ more)

theorem StepFrees.step {p q : Pass} {freed : List Block} (h : StepFrees p q freed) : Step p q := by
  cases h with
  | missing hlink htarget => exact .missing hlink htarget
  | link hlink htarget => exact .link hlink htarget
  | node hnode => exact .node hnode

theorem WalkFrees.walks {p q : Pass} {freed : List Block} (h : WalkFrees p q freed) : Walks p q := by
  induction h with
  | refl => exact .refl
  | tail _ hstep ih => exact ih.tail hstep.step

variable {p₀ p q : Pass} {done links : List EntryId} {freed : List Block}

/-- From one link of the walk to the next ones. -/
abbrev Below (p₀ : Pass) (k e : EntryId) : Prop :=
  Reached (p₀.scheme.nested k) (Forests.spread p₀.scheme.isLink p₀.scheme.nested) e

/-- What has been freed when the walk has been to some ENTRYs and has linked some links. -/
structure Freed (p₀ p : Pass) (done links : List EntryId) (freed : List Block) : Prop where
  order : Preorder p₀.work (Forests.spread p₀.scheme.isLink p₀.scheme.nested) p.work done
  reached : ∀ e ∈ done, Reached p₀.work (Forests.spread p₀.scheme.isLink p₀.scheme.nested) e
  entrys : p.scheme.entrys = p₀.scheme.entrys
  isLink : p.scheme.isLink = p₀.scheme.isLink
  body : ∀ e, (p.scheme.entry e).body = (p₀.scheme.entry e).body ↔ e ∉ links
  nested : ∀ b, (p.scheme.body b).entrys = (p₀.scheme.body b).entrys
  linked : ∀ k ∈ links, k ∈ done ∧ p₀.scheme.isLink k = true
  complete : p.ok = true → ∀ k ∈ done, p₀.scheme.isLink k = true → k ∈ links
  freed : Accounts p₀.scheme.bodyId freed (fun e => ∃ k ∈ links, Below p₀ k e)
    fun e => ∃ k ∈ links, e = k ∨ (Below p₀ k e ∧ p₀.scheme.isLink e = false)

theorem Freed.start (hnodup : p₀.work.Nodup) : Freed p₀ p₀ [] [] [] where
  order := Preorder.start hnodup
  reached _ he := nomatch he
  entrys := rfl
  isLink := rfl
  body _ := iff_of_true rfl List.not_mem_nil
  nested _ := rfl
  linked _ hk := nomatch hk
  complete _ _ hk := nomatch hk
  freed := accounts_nil.congr (by simp) (by simp)

theorem Freed.same (h : Freed p₀ p done links freed) {e : EntryId} (he : e ∉ links) :
    (p.scheme.entry e).body = (p₀.scheme.entry e).body ∧ p.scheme.nested e = p₀.scheme.nested e := by
  have hbody := (h.body e).mpr he
  refine ⟨hbody, ?_⟩
  rw [Kscheme.nested, Kscheme.bodyOf, h.nested, hbody]
  rfl

theorem Freed.node_same (h : Freed p₀ p done links freed) {e : EntryId}
    (hnode : p₀.scheme.isLink e = false) : e ∉ links := by
  intro he
  rw [(h.linked e he).2] at hnode
  cases hnode

theorem Freed.spread_eq (h : Freed p₀ p done links freed) :
    Forests.spread p.scheme.isLink p.scheme.nested =
      Forests.spread p₀.scheme.isLink p₀.scheme.nested := by
  funext e
  rw [Forests.spread, Forests.spread, h.isLink]
  cases hlink : p₀.scheme.isLink e with
  | true => rfl
  | false => exact (h.same (h.node_same hlink)).2

theorem Freed.blocks_eq (h : Freed p₀ p done links freed) : p.scheme.blocks = p₀.scheme.blocks := by
  funext e
  rw [blocks, blocks, h.isLink]
  cases hlink : p₀.scheme.isLink e with
  | true => rfl
  | false => rw [(h.same (h.node_same hlink)).1]

section Step

variable (F : Forest p₀.work p₀.scheme.nested)
  (hown : ∀ e e', (p₀.scheme.entry e).body = (p₀.scheme.entry e').body → e = e')
include F hown

/-- Some ENTRYs are freed with all that is below them up to the next links. -/
theorem Freed.frees (h : Freed p₀ p done links freed) {entrys : List EntryId}
    (hapart : Apart (Forests.spread p₀.scheme.isLink p₀.scheme.nested) entrys)
    (hacc : ∀ e ∈ entrys, Acc (fun n e => n ∈ p₀.scheme.nested e) e) :
    (∃ fuel freed', freeEntrys (p.scheme.freeEntry fuel) entrys = some freed') ∧
      ∀ fuel freed', freeEntrys (p.scheme.freeEntry fuel) entrys = some freed' →
        Accounts p₀.scheme.bodyId freed'
          (Reached entrys (Forests.spread p₀.scheme.isLink p₀.scheme.nested)) fun e =>
            Reached entrys (Forests.spread p₀.scheme.isLink p₀.scheme.nested) e ∧
              p₀.scheme.isLink e = false := by
  have hwalk : ∀ fuel, freeEntrys (p.scheme.freeEntry fuel) entrys =
      (postorderEach (postorder (Forests.spread p₀.scheme.isLink p₀.scheme.nested) fuel) entrys).map
        (List.flatMap p₀.scheme.blocks) := by
    intro fuel
    rw [freeEntrys_eq (p.scheme.freeEntry_eq fuel), h.spread_eq, h.blocks_eq]
  have hspread : Forest p₀.work (Forests.spread p₀.scheme.isLink p₀.scheme.nested) := F.spread
  obtain ⟨⟨fuel, l, hl⟩, hspec⟩ := hspread.postorder hapart fun e he => acc_spread (hacc e he)
  constructor
  · refine ⟨fuel, l.flatMap p₀.scheme.blocks, ?_⟩
    rw [hwalk, hl]
    rfl
  · intro fuel freed' hfree
    rw [hwalk] at hfree
    obtain ⟨l, hl, rfl⟩ := Option.map_eq_some_iff.mp hfree
    obtain ⟨hnodup, hmem⟩ := hspec fuel l hl
    exact (accounts_flatMap hown hnodup).congr hmem fun e => and_congr_left' (hmem e)

variable {s : Kscheme} {e src : EntryId} {work : List EntryId} {ok : Bool} {error : List String}

omit hown in
theorem Freed.walk_on (h : Freed p₀ ⟨s, e :: work, ok, error⟩ done links freed) :
    Preorder p₀.work (Forests.spread p₀.scheme.isLink p₀.scheme.nested)
        (Forests.spread p₀.scheme.isLink p₀.scheme.nested e ++ work) (done ++ [e]) ∧
      ∀ e' ∈ done ++ [e], Reached p₀.work (Forests.spread p₀.scheme.isLink p₀.scheme.nested) e' := by
  refine ⟨h.order.step F, List.forall_mem_append.mpr ⟨h.reached, List.forall_mem_singleton.mpr ?_⟩⟩
  exact h.order.reached h.reached List.mem_cons_self

omit hown in
theorem Freed.walk_missing (h : Freed p₀ ⟨s, e :: work, ok, error⟩ done links freed)
    (hlink : s.isLink e = true) (error' : List String) :
    Freed p₀ ⟨s, work, false, error'⟩ (done ++ [e]) links freed := by
  obtain ⟨horder, hreached⟩ := h.walk_on F
  have hlink₀ : p₀.scheme.isLink e = true := by rwa [← h.isLink]
  have hspread : Forests.spread p₀.scheme.isLink p₀.scheme.nested e = [] := if_pos hlink₀
  rw [hspread] at horder
  exact { h with
    order := horder
    reached := hreached
    linked := fun k hk => ⟨List.mem_append_left _ (h.linked k hk).1, (h.linked k hk).2⟩
    complete := fun hok => nomatch hok }

omit hown in
theorem Freed.walk_node (h : Freed p₀ ⟨s, e :: work, ok, error⟩ done links freed)
    (hnode : s.isLink e = false) (error' : List String) {ok' : Bool} (hok : ok' = true → ok = true) :
    Freed p₀ ⟨s.enter e, s.nested e ++ work, ok', error'⟩ (done ++ [e]) links freed := by
  obtain ⟨horder, hreached⟩ := h.walk_on F
  have hnode₀ : p₀.scheme.isLink e = false := by rwa [← h.isLink]
  have hsame := sameBut_enter s e
  have hspread : Forests.spread p₀.scheme.isLink p₀.scheme.nested e = s.nested e := by
    rw [Forests.spread, hnode₀]
    exact (h.same (h.node_same hnode₀)).2.symm
  rw [hspread] at horder
  refine ⟨horder, hreached, hsame.entrys.trans h.entrys, ?_, ?_, ?_, ?_, ?_, h.freed⟩
  · rw [← h.isLink]
    funext e'
    exact congrArg (fun entry => (entry.refStr).isSome) (congrFun hsame.entry e')
  · intro e'
    rw [← h.body, show (s.enter e).entry e' = s.entry e' from congrFun hsame.entry e']
  · exact fun b => (hsame.nested b).trans (h.nested b)
  · exact fun k hk => ⟨List.mem_append_left _ (h.linked k hk).1, (h.linked k hk).2⟩
  · intro hok' k hk hlink
    rcases List.mem_append.mp hk with hk | hk
    · exact h.complete (hok hok') k hk hlink
    · rw [List.mem_singleton.mp hk, hnode₀] at hlink
      cases hlink

theorem Freed.frees_link (h : Freed p₀ ⟨s, e :: work, ok, error⟩ done links freed)
    (hlink : s.isLink e = true) :
    (∃ fuel freed', s.freeNonLink (s.freeEntry fuel) e = some freed') ∧
      ∀ fuel freed', s.freeNonLink (s.freeEntry fuel) e = some freed' →
        Accounts p₀.scheme.bodyId freed' (Below p₀ e) fun c =>
          c = e ∨ (Below p₀ e c ∧ p₀.scheme.isLink c = false) := by
  have hlink₀ : p₀.scheme.isLink e = true := by rwa [← h.isLink]
  have he : e ∉ links := fun he => h.order.fresh (h.linked e he).1
  obtain ⟨hbody, hnested⟩ := h.same he
  have hacc : Acc (fun n e => n ∈ p₀.scheme.nested e) e :=
    F.acc (h.order.reached h.reached List.mem_cons_self).of_spread
  obtain ⟨⟨fuel, freed', hfree⟩, hspec⟩ := h.frees F hown (F.apart_below hacc) fun n hn => hacc.inv hn
  rw [← hnested] at hfree hspec
  constructor
  · refine ⟨fuel, freed' ++ [.lists (s.entry e).body], ?_⟩
    rw [freeNonLink, hfree]
    rfl
  · intro fuel freed' hfree
    obtain ⟨below, hbelow, rfl⟩ := Option.map_eq_some_iff.mp hfree
    rw [hbody]
    have hbelow := hspec fuel below hbelow
    rw [hnested] at hbelow
    refine (hbelow.append hown (accounts_lists e) (fun _ _ h => h) ?_).congr (by simp) fun c => or_comm
    rintro c ⟨-, hnode⟩ rfl
    rw [hlink₀] at hnode
    cases hnode

theorem Freed.walk_link (h : Freed p₀ ⟨s, e :: work, ok, error⟩ done links freed)
    (hlink : s.isLink e = true) (htarget : s.Target e (.ok src)) {fuel : ℕ} {freed' : List Block}
    (hfree : s.freeNonLink (s.freeEntry fuel) e = some freed') :
    Freed p₀ ⟨s.link e src, work, ok, error⟩ (done ++ [e]) (links ++ [e]) (freed ++ freed') := by
  obtain ⟨horder, hreached⟩ := h.walk_on F
  have hlink₀ : p₀.scheme.isLink e = true := by rwa [← h.isLink]
  have hspread : Forests.spread p₀.scheme.isLink p₀.scheme.nested e = [] := if_pos hlink₀
  rw [hspread] at horder
  have hnew : e ∉ links := fun he => h.order.fresh (h.linked e he).1
  have hfreed := ((h.frees_link F hown hlink).2 fuel freed' hfree)
  have hmem : ∀ k, k ∈ links ++ [e] ↔ k ∈ links ∨ k = e := by simp
  have hbelow : ∀ {k c}, k ∈ links → Below p₀ k c → ¬ Below p₀ e c := by
    intro k c hk hkc hec
    obtain rfl := F.below_unique (h.linked k hk).2 hlink₀ hkc hec
    exact hnew hk
  refine ⟨horder, hreached, h.entrys, ?_, ?_, h.nested, ?_, ?_, ?_⟩
  · rw [← h.isLink]
    exact link_isLink s e src
  · intro e'
    rw [hmem, not_or, ← h.body]
    by_cases he : e' = e
    · subst he
      have hsrc : p₀.scheme.isLink src = false := by
        rw [← h.isLink]
        exact Option.isSome_eq_false_iff.mpr (Option.isNone_iff_eq_none.mpr htarget.node)
      refine iff_of_false (fun heq => ?_) fun hnot => hnot.2 rfl
      rw [link_entry_self, (h.same (h.node_same hsrc)).1] at heq
      obtain rfl := hown src e' heq
      rw [hlink₀] at hsrc
      cases hsrc
    · rw [link_entry s e src e' he]
      exact (and_iff_left he).symm
  · intro k hk
    rcases (hmem k).mp hk with hk | rfl
    · exact ⟨List.mem_append_left _ (h.linked k hk).1, (h.linked k hk).2⟩
    · exact ⟨List.mem_append_right _ List.mem_cons_self, hlink₀⟩
  · intro hok k hk hlink
    rw [hmem]
    rcases List.mem_append.mp hk with hk | hk
    · exact .inl (h.complete hok k hk hlink)
    · exact .inr (List.mem_singleton.mp hk)
  · refine (h.freed.append hown hfreed ?_ ?_).congr (fun c => ?_) fun c => ?_
    · rintro c ⟨k, hk, hkc⟩
      exact hbelow hk hkc
    · rintro c ⟨k, hk, hkc⟩ hec
      rcases hkc with rfl | ⟨hkc, hnode⟩ <;> rcases hec with rfl | ⟨hec, hnode'⟩
      · exact hnew hk
      · rw [(h.linked c hk).2] at hnode'
        cases hnode'
      · rw [hlink₀] at hnode
        cases hnode
      · exact hbelow hk hkc hec
    · simp only [hmem, or_and_right, exists_or, exists_eq_left]
    · simp only [hmem, or_and_right, exists_or, exists_eq_left]

theorem Freed.walks (h : WalkFrees p q freed') (hp : Freed p₀ p done links freed) :
    ∃ done links, Freed p₀ q done links (freed ++ freed') := by
  induction h with
  | refl => exact ⟨done, links, by rwa [List.append_nil]⟩
  | tail _ hstep ih =>
    obtain ⟨done, links, hq⟩ := ih
    rw [← List.append_assoc]
    cases hstep with
    | missing hlink _ =>
      rw [List.append_nil]
      exact ⟨_, _, hq.walk_missing F hlink _⟩
    | link hlink htarget hfree => exact ⟨_, _, hq.walk_link F hown hlink htarget hfree⟩
    | node hnode =>
      rw [List.append_nil]
      exact ⟨_, _, hq.walk_node F hnode _ fun hok => (Bool.and_eq_true_iff.mp hok).1⟩

/-- The walk can always free what it has to. -/
theorem Freed.exists_frees (hp : Freed p₀ p done links freed) (h : Walks p q) :
    ∃ freed', WalkFrees p q freed' := by
  induction h with
  | refl => exact ⟨[], .refl⟩
  | @tail _ r _ hstep ih =>
    obtain ⟨freed', hwalk⟩ := ih
    cases hstep with
    | missing hlink htarget => exact ⟨_, hwalk.tail (.missing hlink htarget)⟩
    | link hlink htarget =>
      obtain ⟨done, links, hq⟩ := hp.walks F hown hwalk
      obtain ⟨⟨fuel, more, hfree⟩, -⟩ := hq.frees_link F hown hlink
      exact ⟨_, hwalk.tail (.link hlink htarget hfree)⟩
    | node hnode => exact ⟨_, hwalk.tail (.node hnode)⟩

end Step

/-- The point of the walk where the loop over the top-level ENTRYs returns. -/
theorem prepareEntrys_point {fuel : ℕ} {entrys : List EntryId} {s : Kscheme} {r : Report}
    (h : prepareEntrys fuel entrys s = some r) (error : List String) :
    ∃ work error', Walks ⟨s, entrys, true, error⟩ ⟨r.scheme, work, r.ok, error'⟩ ∧
      (r.ok = true → work = []) := by
  induction entrys generalizing s r error with
  | nil =>
    cases h
    exact ⟨[], error, .refl, fun _ => rfl⟩
  | cons e entrys ih =>
    obtain ⟨r₁, h₁, h⟩ := Option.bind_eq_some_iff.mp h
    have hwalk := prepareEntry_walks h₁ entrys true error
    rw [Bool.true_and] at hwalk
    split at h
    · rename_i hok
      obtain ⟨r₂, h₂, rfl⟩ := Option.map_eq_some_iff.mp h
      rw [hok] at hwalk
      obtain ⟨work, error', hrest, hwork⟩ := ih h₂ (error ++ r₁.error)
      exact ⟨work, error', hwalk.trans hrest, hwork⟩
    · rename_i hok
      cases h
      exact ⟨entrys, _, hwalk, fun hok' => absurd hok' hok⟩

end Pass

namespace Kscheme

open Pass (WalkFrees Freed)

variable {scheme : Kscheme} {r : Report}

/-- The ENTRY is a link that still has its own lists. -/
def unlinked (scheme s : Kscheme) (e : EntryId) : Bool :=
  scheme.isLink e && (s.entry e).body == (scheme.entry e).body

/-- What is freed on the walk up to the point where the preparation has returned, and then by
`kscheme_free`. -/
def LifeFrees (scheme : Kscheme) (r : Report) (freed : List Block) : Prop :=
  ∃ plugins p linking fuel rest, WalkFrees (scheme.start plugins) p linking ∧ p.scheme = r.scheme ∧
    r.scheme.free fuel = some rest ∧ freed = linking ++ rest

theorem prepare_point {loadPlugins : List Kplugin → Option (List Kplugin)} {fuel : ℕ}
    (h : prepare loadPlugins fuel scheme = some r) :
    ∃ plugins p, Pass.Walks (scheme.start plugins) p ∧ p.scheme = r.scheme ∧
      (r.ok = true → p.work = [] ∧ p.ok = true) := by
  unfold prepare at h
  split at h
  · cases h
    exact ⟨scheme.plugins, _, .refl, rfl, fun hok => nomatch hok⟩
  · rename_i plugins _
    obtain ⟨work, error, hwalk, hwork⟩ := Pass.prepareEntrys_point h []
    exact ⟨plugins, _, hwalk, rfl, fun hok => ⟨hwork hok, hok⟩⟩

section Life

variable {plugins : List Kplugin} {p : Pass} {done links : List EntryId} {linking rest : List Block}

theorem unlinked_eq_true (h : Freed (scheme.start plugins) p done links linking) {e : EntryId} :
    scheme.unlinked p.scheme e = true ↔ scheme.isLink e = true ∧ e ∉ links := by
  rw [unlinked, Bool.and_eq_true, beq_iff_eq, ← h.body]
  rfl

theorem Fresh.freed_at (h : scheme.Fresh) (hfrees : WalkFrees (scheme.start plugins) p linking) :
    ∃ done links, Freed (scheme.start plugins) p done links linking :=
  (Freed.start h.forest.nodupRoots).walks h.forest h.ownBody hfrees

theorem Fresh.exists_frees (h : scheme.Fresh) (hwalk : Pass.Walks (scheme.start plugins) p) :
    ∃ linking, WalkFrees (scheme.start plugins) p linking :=
  (Freed.start h.forest.nodupRoots).exists_frees h.forest h.ownBody hwalk

theorem Fresh.frees_top (hfresh : scheme.Fresh)
    (h : Freed (scheme.start plugins) p done links linking) :
    (∃ fuel rest, p.scheme.free fuel = some rest) ∧
      ∀ fuel rest, p.scheme.free fuel = some rest → Accounts scheme.bodyId rest
        (Reached scheme.entrys (Forests.spread scheme.isLink scheme.nested)) fun e =>
          Reached scheme.entrys (Forests.spread scheme.isLink scheme.nested) e ∧
            scheme.isLink e = false := by
  have hentrys : p.scheme.entrys = scheme.entrys := h.entrys
  have hforest : Forest scheme.entrys (Forests.spread scheme.isLink scheme.nested) :=
    hfresh.forest.spread
  have hfrees := h.frees hfresh.forest hfresh.ownBody hforest.apart hfresh.forest.grounded
  rw [← hentrys] at hfrees ⊢
  exact hfrees

/-- What is freed in the life of the scheme. -/
theorem Fresh.frees_all (hfresh : scheme.Fresh)
    (h : Freed (scheme.start plugins) p done links linking) {fuel : ℕ}
    (hfree : p.scheme.free fuel = some rest) :
    Accounts scheme.bodyId (linking ++ rest)
      (Reached scheme.entrys (Forests.spread (scheme.unlinked p.scheme) scheme.nested))
      fun e => Reached scheme.entrys (Forests.spread (scheme.unlinked p.scheme) scheme.nested) e ∧
        scheme.unlinked p.scheme e = false := by
  have hrest := (hfresh.frees_top h).2 fuel rest hfree
  have hlinked : ∀ e, scheme.isLink e = true → (scheme.unlinked p.scheme e = false ↔ e ∈ links) := by
    intro e hlink
    rw [← Bool.not_eq_true, unlinked_eq_true h]
    simp [hlink]
  have hnode : ∀ e, scheme.isLink e = false → scheme.unlinked p.scheme e = false := by
    intro e hnode
    rw [unlinked, hnode, Bool.false_and]
  have hreached : ∀ k ∈ links, scheme.isLink k = true ∧
      Reached scheme.entrys (Forests.spread scheme.isLink scheme.nested) k :=
    fun k hk => ⟨(h.linked k hk).2, h.reached k (h.linked k hk).1⟩
  have hthrough : ∀ e, Reached scheme.entrys (Forests.spread (scheme.unlinked p.scheme) scheme.nested) e ↔
      (∃ k ∈ links, Pass.Below (scheme.start plugins) k e) ∨
        Reached scheme.entrys (Forests.spread scheme.isLink scheme.nested) e := by
    intro e
    rw [reached_through hnode fun k hlink hk => (hreached k ((hlinked k hlink).mp hk)).2, or_comm]
    refine or_congr_left (exists_congr fun k => ⟨?_, ?_⟩)
    · exact fun ⟨hlink, hk, hbelow⟩ => ⟨(hlinked k hlink).mp hk, hbelow⟩
    · exact fun ⟨hk, hbelow⟩ =>
        ⟨(hreached k hk).1, (hlinked k (hreached k hk).1).mpr hk, hbelow⟩
  refine (h.freed.append hfresh.ownBody hrest ?_ ?_).congr (fun e => (hthrough e).symm) fun e => ?_
  · rintro e ⟨k, hk, hbelow⟩ htop
    exact hfresh.forest.not_under htop (under_of_reached (hreached k hk).1 hbelow)
  · rintro e ⟨k, hk, rfl | ⟨hbelow, -⟩⟩ ⟨htop, hnode⟩
    · rw [(hreached e hk).1] at hnode
      cases hnode
    · exact hfresh.forest.not_under htop (under_of_reached (hreached k hk).1 hbelow)
  · rw [hthrough]
    cases hlink : scheme.isLink e with
    | true =>
      rw [hlinked e hlink]
      constructor
      · rintro (⟨k, hk, rfl | ⟨-, hnode⟩⟩ | ⟨-, hnode⟩)
        · exact ⟨.inr (hreached e hk).2, hk⟩
        · exact absurd (hlink.symm.trans hnode) nofun
        · cases hnode
      · exact fun h => .inl ⟨e, h.2, .inl rfl⟩
    | false =>
      constructor
      · rintro (⟨k, hk, rfl | ⟨hbelow, -⟩⟩ | ⟨htop, -⟩)
        · exact absurd ((hreached e hk).1.symm.trans hlink) nofun
        · exact ⟨.inl ⟨k, hk, hbelow⟩, hnode e hlink⟩
        · exact ⟨.inr htop, hnode e hlink⟩
      · rintro ⟨⟨k, hk, hbelow⟩ | htop, -⟩
        · exact .inl ⟨k, hk, .inr ⟨hbelow, hlink⟩⟩
        · exact .inr ⟨htop, rfl⟩

end Life

/-- Whether the preparation of a loaded scheme has succeeded or not, all frees up to the end of the
scheme return and free nothing twice. An ENTRY stays behind if it is declared below a link that still
has its own lists, and so do these lists. If the preparation has succeeded, those are the links that
are declared inside a link. The frees are what is followed here: that nothing reads an ENTRY after it
has been freed is not part of it. -/
theorem life_frees_once (h : scheme.Fresh) {loadPlugins : List Kplugin → Option (List Kplugin)}
    {fuel : ℕ} (hrun : prepare loadPlugins fuel scheme = some r) :
    (∃ freed, scheme.LifeFrees r freed) ∧
      (∀ freed, scheme.LifeFrees r freed → freed.Nodup ∧ ∀ e,
        (.entry e ∈ freed ↔ Reached scheme.entrys scheme.nested e ∧
          ¬ Under (scheme.unlinked r.scheme) scheme.nested e) ∧
        (.lists (scheme.entry e).body ∈ freed ↔
          .entry e ∈ freed ∧ scheme.unlinked r.scheme e = false)) ∧
      (r.ok = true → ∀ e, Reached scheme.entrys scheme.nested e →
        (scheme.unlinked r.scheme e = true ↔
          scheme.isLink e = true ∧ Under scheme.isLink scheme.nested e)) := by
  refine ⟨?_, ?_, fun hok e he => ?_⟩
  · obtain ⟨plugins, p, hwalk, hscheme, -⟩ := prepare_point hrun
    obtain ⟨linking, hfrees⟩ := h.exists_frees hwalk
    obtain ⟨done, links, hfreed⟩ := h.freed_at hfrees
    obtain ⟨⟨fuel, rest, hrest⟩, -⟩ := h.frees_top hfreed
    exact ⟨linking ++ rest, plugins, p, linking, fuel, rest, hfrees, hscheme, hscheme ▸ hrest, rfl⟩
  · rintro _ ⟨plugins, p, linking, fuel, rest, hfrees, hscheme, hrest, rfl⟩
    obtain ⟨done, links, hfreed⟩ := h.freed_at hfrees
    rw [← hscheme] at hrest ⊢
    have hall := h.frees_all hfreed hrest
    refine ⟨hall.nodup, fun e => ⟨?_, ?_⟩⟩
    · rw [hall.entrys]
      constructor
      · exact fun hreached => ⟨hreached.of_spread, h.forest.not_under hreached⟩
      · exact fun ⟨hreached, hnot⟩ => (h.forest.reached_iff hreached).mpr hnot
    · rw [hall.lists, hall.entrys]
      constructor
      · rintro ⟨e', he', hbody⟩
        obtain rfl := h.ownBody e' e hbody
        exact he'
      · exact fun he => ⟨e, he, rfl⟩
  · obtain ⟨plugins, p, hwalk, hscheme, hend⟩ := prepare_point hrun
    obtain ⟨linking, hfrees⟩ := h.exists_frees hwalk
    obtain ⟨done, links, hfreed⟩ := h.freed_at hfrees
    obtain ⟨hwork, hok⟩ := hend hok
    rw [← hscheme, unlinked_eq_true hfreed]
    refine and_congr_right fun hlink => ?_
    have horder := hfreed.order
    rw [hwork] at horder
    rw [← not_iff_not, not_not, ← h.forest.reached_iff he]
    constructor
    · exact fun hlinked => hfreed.reached e (hfreed.linked e hlinked).1
    · exact fun hreached => hfreed.complete hok e (horder.complete hreached) hlink

/-- The ENTRY `t`, and the link `l` to it with the ENTRY `c` and the link `m` in it, which has an
ENTRY `d` in it. -/
def leakScheme : Kscheme where
  plugins := []
  entrys := [0, 1]
  entry e := { Kentry.new (["t", "l", "c", "m"].getD e "d") e with
    refStr := [none, some "/t", none, some "/t"].getD e none }
  body b := { Kbody.new with entrys := [[], [2, 3], [], [4]].getD b [] }

theorem leakScheme_fresh : leakScheme.Fresh where
  legalFilter _ hfilter := nomatch hfilter
  ownBody _ _ hbody := hbody
  unresolved _ _ haction := nomatch haction
  emptyTable _ _ := rfl
  forest := Forest.of_table (by decide) (by decide)

/-- The ENTRY `d` and the lists that `m` had stay behind. -/
theorem life_frees_once_sample : ∃ r freed, prepare some 4 leakScheme = some r ∧ r.ok = true ∧
    leakScheme.LifeFrees r freed ∧ freed.Nodup ∧ .entry 4 ∉ freed ∧ .lists 3 ∉ freed := by
  have hrun : (prepare some 4 leakScheme).any (fun r => r.ok && leakScheme.unlinked r.scheme 3) =
      true := by decide
  obtain ⟨r, hrun, hr⟩ := (Option.any_eq_true _ _).mp hrun
  obtain ⟨hok, hunlinked⟩ := Bool.and_eq_true_iff.mp hr
  obtain ⟨⟨freed, hfreed⟩, hall, -⟩ := life_frees_once leakScheme_fresh hrun
  obtain ⟨hnodup, hblocks⟩ := hall freed hfreed
  have hunder : Under (leakScheme.unlinked r.scheme) leakScheme.nested 4 :=
    ⟨3, hunlinked, .single (by decide)⟩
  refine ⟨r, freed, hrun, hok, hfreed, hnodup, fun hentry => ?_, fun hlists => ?_⟩
  · exact ((hblocks 4).1.mp hentry).2 hunder
  · have hlinked := ((hblocks 3).2.mp hlists).2
    rw [hunlinked] at hlinked
    cases hlinked

end Kscheme

end Klish
