import Klish.ParseConservation

/-!
# The documented grammar

Which words an ENTRY stands for, as the documentation of the attributes `mode`, `order`,
`min` and `max` says, with the parser left out. A derivation starts from the arguments
recognised so far, because a COND or a PTYPE may look at them.
-/

namespace Klish.Ksession

variable (scheme : Kscheme) (V : Oracle)

/-- The COND of an ENTRY, if there is one, holds. -/
def condHolds (e : EntryId) (pargs : List Kparg) : Bool :=
  match scheme.nestedByPurpose e .cond with
  | none => true
  | some cond =>
    let res := V cond pargs none
    res.completed && decide (res.retcode = 0)

/-- The mode of the ENTRY is not a sequence and there is no nested ENTRY to choose from. -/
def NoAlternatives (e : EntryId) : Prop :=
  match (scheme.entry e).mode with
  | .sequence => False
  | .switch => ∀ n ∈ scheme.nested e, scheme.purpose n ≠ .common
  | .empty | .none => True

/-- An ENTRY that may be left out although it is mandatory: its COND is false, or it is a
container with nothing mandatory inside. -/
inductive Nullable : EntryId → List Kparg → Prop
  | cond {e pargs} (hcond : condHolds scheme V e pargs = false) : Nullable e pargs
  | leaf {e pargs} (hcontainer : scheme.container e = true)
      (hleaf : NoAlternatives scheme e) : Nullable e pargs
  | sequence {e pargs} (hcontainer : scheme.container e = true)
      (hmode : (scheme.entry e).mode = .sequence)
      (hnone : ∀ n ∈ scheme.nested e, scheme.purpose n = .common → 0 < (scheme.entry n).min →
        Nullable n pargs) : Nullable e pargs

/-- A nested ENTRY of a SEQUENCE that took words: its place in the declaration and the
number of consecutive occurrences. -/
structure Group where
  pos : ℕ
  entry : EntryId
  count : ℕ

/-- The matched groups of a SEQUENCE, in the order of the words, fit its declaration. The
nested ENTRYs were tried with the arguments listed in `tried`. -/
structure FitsSequence (e : EntryId) (groups : List Group) (tried : List (List Kparg)) : Prop where
  declared : ∀ g ∈ groups, (scheme.nested e)[g.pos]? = some g.entry ∧
    scheme.purpose g.entry = .common
  atMostMax : ∀ g ∈ groups, 0 < g.count ∧ g.count ≤ (scheme.entry g.entry).max
  consecutive : (groups.map Group.entry).Nodup
  mandatory : ∀ n ∈ scheme.nested e, scheme.purpose n = .common → 0 < (scheme.entry n).min →
    (∃ g ∈ groups, g.entry = n ∧ (scheme.entry n).min ≤ g.count) ∨
      ∃ pargs ∈ tried, Nullable scheme V n pargs
  ordered : groups.Pairwise fun g h => g.pos < h.pos ∨
    ((scheme.entry g.entry).min = 0 ∧ (scheme.entry g.entry).order = false)

/-- The ENTRY's own part: a container takes no word, any other ENTRY the one its PTYPE accepts. -/
def TakesSelf (e : EntryId) (pargs : List Kparg) (words : List String) (pargs' : List Kparg)
    (words' : List String) : Prop :=
  if scheme.container e = true then pargs' = pargs ∧ words' = words
  else ∃ word value, words = word :: words' ∧ accepts scheme V e pargs word = some value ∧
    pargs' = pargs ++ [⟨e, some value⟩]

/-- The argument by which a container records the nested ENTRY that was chosen. -/
def containerArg (e nested : EntryId) : List Kparg :=
  if scheme.container e = true then [⟨e, some (scheme.name nested)⟩] else []

mutual

/-- The ENTRY stands for the words between the two lists. -/
inductive Match : EntryId → List Kparg → List String → List Kparg → List String → Prop
  | entry {e p w p₁ w₁ p₂ w₂} (hcond : condHolds scheme V e p = true)
      (hself : TakesSelf scheme V e p w p₁ w₁) (hnested : MatchNested e p₁ w₁ p₂ w₂) :
      Match e p w p₂ w₂

/-- The nested ENTRYs stand for the words between the two lists. -/
inductive MatchNested : EntryId → List Kparg → List String → List Kparg → List String → Prop
  | leaf {e p w} (hcontainer : scheme.container e = false)
      (hleaf : NoAlternatives scheme e) : MatchNested e p w p w
  | switch {e p w n p₁ w₁} (hmode : (scheme.entry e).mode = .switch)
      (hn : n ∈ scheme.nested e) (hcommon : scheme.purpose n = .common)
      (hmatch : Match n p w p₁ w₁) : MatchNested e p w (p₁ ++ containerArg scheme e n) w₁
  | sequence {e p w groups tried p₁ w₁} (hmode : (scheme.entry e).mode = .sequence)
      (hgroups : MatchGroups e p w groups tried p₁ w₁)
      (hfits : FitsSequence scheme V e groups tried)
      (hsome : scheme.container e = true → groups ≠ []) : MatchNested e p w p₁ w₁

/-- One group of words after another. -/
inductive MatchGroups : EntryId → List Kparg → List String → List Group → List (List Kparg) →
    List Kparg → List String → Prop
  | nil {e p w} : MatchGroups e p w [] [p] p w
  | group {e p w groups tried p₁ w₁ pos n count inner p₂ w₂}
      (hgroups : MatchGroups e p w groups tried p₁ w₁)
      (hrepeat : MatchRepeat n p₁ w₁ count inner p₂ w₂) :
      MatchGroups e p w (groups ++ [⟨pos, n, count⟩])
        (tried ++ inner ++ [p₂ ++ containerArg scheme e n]) (p₂ ++ containerArg scheme e n) w₂

/-- Consecutive occurrences of one ENTRY. -/
inductive MatchRepeat : EntryId → List Kparg → List String → ℕ → List (List Kparg) →
    List Kparg → List String → Prop
  | zero {n p w} : MatchRepeat n p w 0 [] p w
  | succ {n p w count inner p₁ w₁ p₂ w₂} (hrepeat : MatchRepeat n p w count inner p₁ w₁)
      (hmatch : Match n p₁ w₁ p₂ w₂) :
      MatchRepeat n p w (count + 1) (inner ++ [p₂]) p₂ w₂

end

variable {scheme V} {e : EntryId} {p p' : List Kparg} {w w' : List String}

theorem TakesSelf.words_suffix (h : TakesSelf scheme V e p w p' w') : w' <:+ w := by
  unfold TakesSelf at h
  split at h
  · exact h.2 ▸ List.suffix_refl w
  · obtain ⟨word, _, rfl, _⟩ := h
    exact List.suffix_cons word w'

mutual

/-- A derivation takes words from the front only. -/
theorem Match.words_suffix {e : EntryId} {p p' : List Kparg} {w w' : List String} :
    Match scheme V e p w p' w' → w' <:+ w
  | .entry _ hself hnested => hnested.words_suffix.trans hself.words_suffix

theorem MatchNested.words_suffix {e : EntryId} {p p' : List Kparg} {w w' : List String} :
    MatchNested scheme V e p w p' w' → w' <:+ w
  | .leaf _ _ => List.suffix_refl _
  | .switch _ _ _ hmatch => hmatch.words_suffix
  | .sequence _ hgroups _ _ => hgroups.words_suffix

theorem MatchGroups.words_suffix {e : EntryId} {p p' : List Kparg} {w w' : List String}
    {groups : List Group} {tried : List (List Kparg)} :
    MatchGroups scheme V e p w groups tried p' w' → w' <:+ w
  | .nil => List.suffix_refl _
  | .group hgroups hrepeat => hrepeat.words_suffix.trans hgroups.words_suffix

theorem MatchRepeat.words_suffix {n : EntryId} {p p' : List Kparg} {w w' : List String}
    {count : ℕ} {inner : List (List Kparg)} :
    MatchRepeat scheme V n p w count inner p' w' → w' <:+ w
  | .zero => List.suffix_refl _
  | .succ hrepeat hmatch => hmatch.words_suffix.trans hrepeat.words_suffix

end

end Klish.Ksession
