import Klish.KexecStreams

/-!
# Descriptors that stages share

Every stage has the ends of its own pipes. The pseudo-terminal is one descriptor that several
stages may have, and so is the stderr of the pipeline.
-/

namespace Klish.Kexec

variable {scheme : Kscheme} {env : KexecEnv}

/-- The streams of the stage `i`. The pipe `i` leads from it to the next one. -/
structure LinkedAt (stdin lastStdout globalStderr : Fd) (ends : ℕ → Fd × Fd) (last i : ℕ)
    (context : Kcontext) : Prop where
  stdin : context.stdin = some (if i = 0 then stdin else (ends (i - 1)).1)
  stdout : context.stdout = some (if i = last then lastStdout else (ends i).2)
  stderr : context.stderr = some globalStderr

/-- The pipes between the stages are new, and no descriptor is in two of them. -/
structure NewPipes (ends : ℕ → Fd × Fd) (n : ℕ) (old new : List Fd) : Prop where
  fresh : ∀ i < n, (ends i).1 ∉ old ∧ (ends i).2 ∉ old
  isOpen : ∀ i < n, (ends i).1 ∈ new ∧ (ends i).2 ∈ new
  apart : ∀ i < n, ∀ j < n, (ends i).1 ≠ (ends j).2
  read_inj : ∀ i < n, ∀ j < n, (ends i).1 = (ends j).1 → i = j
  write_inj : ∀ i < n, ∀ j < n, (ends i).2 = (ends j).2 → i = j

/-- One more pipe, before the others. -/
theorem NewPipes.cons {ends : ℕ → Fd × Fd} {n : ℕ} {old mid new : List Fd} {r s : Fd}
    (h : NewPipes ends n mid new) (hold : old ⊆ mid) (hmid : mid ⊆ new) (hr : r ∉ old)
    (hs : s ∉ old) (hne : r ≠ s) (hr' : r ∈ mid) (hs' : s ∈ mid) :
    NewPipes (fun i => if i = 0 then (r, s) else ends (i - 1)) (n + 1) old new := by
  have hapart : ∀ i < n, (ends i).1 ≠ r ∧ (ends i).1 ≠ s ∧ (ends i).2 ≠ r ∧ (ends i).2 ≠ s := by
    intro i hi
    obtain ⟨h₁, h₂⟩ := h.fresh i hi
    exact ⟨fun heq => h₁ (heq ▸ hr'), fun heq => h₁ (heq ▸ hs'), fun heq => h₂ (heq ▸ hr'),
      fun heq => h₂ (heq ▸ hs')⟩
  refine ⟨fun i hi => ?_, fun i hi => ?_, fun i hi j hj => ?_, fun i hi j hj heq => ?_,
    fun i hi j hj heq => ?_⟩
  · by_cases hzero : i = 0
    · simp only [if_pos hzero]
      exact ⟨hr, hs⟩
    · simp only [if_neg hzero]
      obtain ⟨h₁, h₂⟩ := h.fresh (i - 1) (by omega)
      exact ⟨fun hmem => h₁ (hold hmem), fun hmem => h₂ (hold hmem)⟩
  · by_cases hzero : i = 0
    · simp only [if_pos hzero]
      exact ⟨hmid hr', hmid hs'⟩
    · simp only [if_neg hzero]
      exact h.isOpen (i - 1) (by omega)
  · by_cases hi₀ : i = 0
    · by_cases hj₀ : j = 0
      · simpa only [if_pos hi₀, if_pos hj₀] using hne
      · simp only [if_pos hi₀, if_neg hj₀]
        exact (hapart (j - 1) (by omega)).2.2.1.symm
    · by_cases hj₀ : j = 0
      · simp only [if_neg hi₀, if_pos hj₀]
        exact (hapart (i - 1) (by omega)).2.1
      · simp only [if_neg hi₀, if_neg hj₀]
        exact h.apart (i - 1) (by omega) (j - 1) (by omega)
  · by_cases hi₀ : i = 0
    · by_cases hj₀ : j = 0
      · omega
      · simp only [if_pos hi₀, if_neg hj₀] at heq
        exact absurd heq.symm (hapart (j - 1) (by omega)).1
    · by_cases hj₀ : j = 0
      · simp only [if_neg hi₀, if_pos hj₀] at heq
        exact absurd heq (hapart (i - 1) (by omega)).1
      · simp only [if_neg hi₀, if_neg hj₀] at heq
        have hsame := h.read_inj (i - 1) (by omega) (j - 1) (by omega) heq
        omega
  · by_cases hi₀ : i = 0
    · by_cases hj₀ : j = 0
      · omega
      · simp only [if_pos hi₀, if_neg hj₀] at heq
        exact absurd heq.symm (hapart (j - 1) (by omega)).2.2.2
    · by_cases hj₀ : j = 0
      · simp only [if_neg hi₀, if_pos hj₀] at heq
        exact absurd heq (hapart (i - 1) (by omega)).2.2.2
      · simp only [if_neg hi₀, if_neg hj₀] at heq
        have hsame := h.write_inj (i - 1) (by omega) (j - 1) (by omega) heq
        omega

/-- The loop gives each stage its streams. -/
theorem linkContexts_linked {globalStderr lastStdout stdin : Fd}
    {contexts contexts' : List Kcontext} {w w' : World}
    (h : linkContexts env globalStderr lastStdout stdin contexts w = some (contexts', w')) :
    contexts'.length = contexts.length ∧ w.fds ⊆ w'.fds ∧ ∃ ends,
      NewPipes ends (contexts.length - 1) w.fds w'.fds ∧ ∀ i context, contexts'[i]? = some context →
        LinkedAt stdin lastStdout globalStderr ends (contexts.length - 1) i context := by
  induction contexts generalizing stdin w contexts' with
  | nil =>
    cases h
    refine ⟨rfl, fun _ h => h, fun _ => (stdin, stdin), ?_, fun i context hi => ?_⟩
    · exact ⟨fun i hi => absurd hi (Nat.not_lt_zero i), fun i hi => absurd hi (Nat.not_lt_zero i),
        fun i hi => absurd hi (Nat.not_lt_zero i), fun i hi => absurd hi (Nat.not_lt_zero i),
        fun i hi => absurd hi (Nat.not_lt_zero i)⟩
    · rw [List.getElem?_nil] at hi
      cases hi
  | cons context contexts ih =>
    cases contexts with
    | nil =>
      cases h
      refine ⟨rfl, fun _ h => h, fun _ => (stdin, stdin), ?_, fun i context hi => ?_⟩
      · exact ⟨fun i hi => absurd hi (Nat.not_lt_zero i), fun i hi => absurd hi (Nat.not_lt_zero i),
          fun i hi => absurd hi (Nat.not_lt_zero i), fun i hi => absurd hi (Nat.not_lt_zero i),
          fun i hi => absurd hi (Nat.not_lt_zero i)⟩
      · cases i with
        | zero =>
          cases hi
          exact ⟨rfl, rfl, rfl⟩
        | succ i => cases hi
    | cons next contexts =>
      rw [linkContexts] at h
      cases hpipe : env.pipe w with
      | none => simp [hpipe] at h
      | some ends =>
        simp only [hpipe] at h
        obtain ⟨⟨rest, w₁⟩, hrest, heq⟩ := Option.map_eq_some_iff.mp h
        cases heq
        obtain ⟨hr, hs, hne⟩ := env.pipe_fresh w ends.1 ends.2 hpipe
        obtain ⟨hlength, hsub, pipes, hnew, hlinked⟩ := ih hrest
        have hold : w.fds ⊆ (w.openPair ends).fds := fun fd hfd =>
          List.mem_cons_of_mem _ (List.mem_cons_of_mem _ hfd)
        have hcons := hnew.cons hold hsub hr hs hne List.mem_cons_self
          (List.mem_cons_of_mem _ List.mem_cons_self)
        refine ⟨by simp [hlength], fun _ hfd => hsub (hold hfd), _, hcons, fun i c hi => ?_⟩
        cases i with
        | zero =>
          cases hi
          refine ⟨rfl, ?_, rfl⟩
          simp
        | succ i =>
          obtain ⟨hin, hout, herr⟩ := hlinked i c hi
          refine ⟨?_, ?_, herr⟩
          · rw [hin]
            by_cases hzero : i = 0
            · simp [hzero]
            · simp [hzero]
          · rw [hout]
            by_cases hlast : i = contexts.length
            · simp [hlast]
            · simp [hlast]

section Terminal

variable (scheme) (exec : Kexec) (w : World)

/-- The pseudo-terminal is stdin of the first stage. -/
def ttyStdin : Bool := exec.isAction && w.session.isattyStdin

/-- The pseudo-terminal is stdout of the last stage. -/
def ttyStdout : Bool :=
  exec.isAction && kexecInteractive scheme exec.contexts && w.session.isattyStdout

/-- The pseudo-terminal is stderr of every stage. -/
def ttyStderr : Bool := exec.isAction && w.session.isattyStderr

/-- The stage `i` closes the pseudo-terminal when it is done. -/
def ClosesPts (i : ℕ) : Prop :=
  (ttyStdin exec w = true ∧ i = 0) ∨
    (ttyStdout scheme exec w = true ∧ i = exec.contexts.length - 1)

/-- The stage `j` has the pseudo-terminal as one of its streams. -/
def UsesPts (j : ℕ) : Prop := ttyStderr exec w = true ∨ ClosesPts scheme exec w j

end Terminal

/-- The read end of stdin and the write ends of stdout and stderr. Two of them are the same
descriptor where both are the pseudo-terminal. -/
structure GlobalEnds (tin tout terr : Bool) (old new : List Fd) (i o e : Fd) : Prop where
  fresh : i ∉ old ∧ o ∉ old ∧ e ∉ old
  isOpen : i ∈ new ∧ o ∈ new ∧ e ∈ new
  in_out : i = o ↔ tin = true ∧ tout = true
  in_err : i = e ↔ tin = true ∧ terr = true
  out_err : o = e ↔ tout = true ∧ terr = true

/-- A stream has the pseudo-terminal, or a new descriptor. -/
structure StreamEnd (tty : Bool) (pts : Option Fd) (old new : List Fd) (fd : Fd) : Prop where
  subset : old ⊆ new
  ofTty : tty = true → pts = some fd
  fresh : tty = false → fd ∉ old ∧ fd ∈ new

/-- Two streams have the same descriptor if both have the pseudo-terminal. -/
theorem StreamEnd.eq_iff {t₁ t₂ : Bool} {pts : Option Fd} {w₀ w₁ w₂ w₃ w₄ : List Fd} {x y : Fd}
    (hpts : ∀ fd, pts = some fd → fd ∈ w₀) (h₀ : w₀ ⊆ w₁) (h₂ : w₂ ⊆ w₃)
    (hx : StreamEnd t₁ pts w₁ w₂ x) (hy : StreamEnd t₂ pts w₃ w₄ y) :
    x = y ↔ t₁ = true ∧ t₂ = true := by
  constructor
  · rintro rfl
    cases t₁ with
    | true =>
      cases t₂ with
      | true => exact ⟨rfl, rfl⟩
      | false => exact absurd (h₂ (hx.subset (h₀ (hpts x (hx.ofTty rfl))))) (hy.fresh rfl).1
    | false =>
      cases t₂ with
      | true => exact absurd (h₀ (hpts x (hy.ofTty rfl))) (hx.fresh rfl).1
      | false => exact absurd (h₂ (hx.fresh rfl).2) (hy.fresh rfl).1
  · rintro ⟨ht₁, ht₂⟩
    exact Option.some.inj ((hx.ofTty ht₁).symm.trans (hy.ofTty ht₂))

/-- The descriptor is a new one, and it is open. -/
theorem StreamEnd.new {tty : Bool} {pts : Option Fd} {w₀ w₁ w₂ w₃ w₄ : List Fd} {fd : Fd}
    (h : StreamEnd tty pts w₂ w₃ fd) (hpts : ∀ fd, pts = some fd → fd ∉ w₀ ∧ fd ∈ w₁)
    (h₀ : w₀ ⊆ w₁) (h₁ : w₁ ⊆ w₂) (h₃ : w₃ ⊆ w₄) : fd ∉ w₀ ∧ fd ∈ w₄ := by
  cases tty with
  | true =>
    obtain ⟨hfresh, hopen⟩ := hpts fd (h.ofTty rfl)
    exact ⟨hfresh, h₃ (h.subset (h₁ hopen))⟩
  | false =>
    obtain ⟨hfresh, hopen⟩ := h.fresh rfl
    exact ⟨fun hmem => hfresh (h₁ (h₀ hmem)), h₃ hopen⟩

theorem streamEnds_end {tty : Bool} {ends : Fd × Fd} {pty : Option (Fd × Fd)} {w w' : World}
    (h : streamEnds env (if tty then pty else none) w = some (ends, w'))
    (hpty : tty = true → ∃ pair, pty = some pair) :
    StreamEnd tty (pty.map Prod.fst) w.fds w'.fds ends.1 ∧
      StreamEnd tty (pty.map Prod.snd) w.fds w'.fds ends.2 := by
  obtain ⟨hsub, hends⟩ := streamEnds_fds h
  cases tty with
  | true =>
    obtain ⟨pair, rfl⟩ := hpty rfl
    cases h
    exact ⟨⟨hsub, fun _ => rfl, fun h => Bool.noConfusion h⟩,
      ⟨hsub, fun _ => rfl, fun h => Bool.noConfusion h⟩⟩
  | false =>
    rcases hends with hnone | ⟨hr, hs, -, hr', hs'⟩
    · cases hnone
    · exact ⟨⟨hsub, fun h => Bool.noConfusion h, fun _ => ⟨hr, hr'⟩⟩,
        ⟨hsub, fun h => Bool.noConfusion h, fun _ => ⟨hs, hs'⟩⟩⟩

/-- The streams of the stages, as the preparation gives them. -/
theorem kexecPrepare_linked {exec exec' : Kexec} {w w' : World}
    (h : kexecPrepare scheme env exec w = some (exec', w')) :
    exec'.contexts.length = exec.contexts.length ∧ w.fds ⊆ w'.fds ∧ ∃ i o e ends mid,
      GlobalEnds (ttyStdin exec w) (ttyStdout scheme exec w) (ttyStderr exec w) w.fds mid i o e ∧
      w.fds ⊆ mid ∧ mid ⊆ w'.fds ∧ NewPipes ends (exec.contexts.length - 1) mid w'.fds ∧
      ∀ k context, exec'.contexts[k]? = some context →
        LinkedAt i o e ends (exec.contexts.length - 1) k context := by
  unfold kexecPrepare at h
  split at h
  · simp at h
  obtain ⟨⟨pty, w₁⟩, hpty, h⟩ := Option.bind_eq_some_iff.mp h
  obtain ⟨⟨inEnds, w₂⟩, h₂, h⟩ := Option.bind_eq_some_iff.mp h
  obtain ⟨⟨outEnds, w₃⟩, h₃, h⟩ := Option.bind_eq_some_iff.mp h
  obtain ⟨⟨errEnds, w₄⟩, h₄, h⟩ := Option.bind_eq_some_iff.mp h
  obtain ⟨⟨contexts, w₅⟩, h₅, heq⟩ := Option.map_eq_some_iff.mp h
  cases heq
  -- The terminal is there when one of the streams needs it.
  have hterm : w.fds ⊆ w₁.fds ∧ (∀ fd, pty.map Prod.snd = some fd → fd ∉ w.fds ∧ fd ∈ w₁.fds) ∧
      ((ttyStdin exec w || ttyStdout scheme exec w || ttyStderr exec w) = true →
        ∃ pair, pty = some pair) := by
    split at hpty
    · obtain ⟨pair, hopen, heq⟩ := Option.map_eq_some_iff.mp hpty
      cases heq
      obtain ⟨-, hs, -⟩ := env.openPty_fresh w pair.1 pair.2 hopen
      refine ⟨fun fd hfd => List.mem_cons_of_mem _ (List.mem_cons_of_mem _ hfd), ?_,
        fun _ => ⟨pair, rfl⟩⟩
      intro fd hfd
      cases hfd
      exact ⟨hs, List.mem_cons_of_mem _ List.mem_cons_self⟩
    · rename_i hnone
      cases hpty
      exact ⟨fun _ h => h, by simp, fun h => absurd h hnone⟩
  obtain ⟨hsub₁, hpts, hsome⟩ := hterm
  have hold : ∀ fd, pty.map Prod.snd = some fd → fd ∈ w₁.fds := fun fd hfd => (hpts fd hfd).2
  have hin := (streamEnds_end h₂ fun htty => by
    obtain ⟨pair, hpair⟩ := hsome (by simp [ttyStdin, htty])
    exact ⟨(pair.2, pair.1), by rw [hpair]; rfl⟩).1
  have hswap : (pty.map fun p => (p.2, p.1)).map Prod.fst = pty.map Prod.snd := by
    rw [Option.map_map]
    rfl
  have hin : StreamEnd (ttyStdin exec w) (pty.map Prod.snd) w₁.fds w₂.fds inEnds.1 :=
    hswap ▸ hin
  have hout : StreamEnd (ttyStdout scheme exec w) (pty.map Prod.snd) w₂.fds w₃.fds outEnds.2 :=
    (streamEnds_end h₃ fun htty => hsome (by simp [ttyStdout, htty])).2
  have herr : StreamEnd (ttyStderr exec w) (pty.map Prod.snd) w₃.fds w₄.fds errEnds.2 :=
    (streamEnds_end h₄ fun htty => hsome (by simp [ttyStderr, htty])).2
  obtain ⟨hlength, hsub₅, ends, hnew, hlinked⟩ := linkContexts_linked h₅
  have hsub₁₂ := hin.subset
  have hsub₁₃ := List.Subset.trans hsub₁₂ hout.subset
  have hsub₃₄ := herr.subset
  have hsub₀₄ := List.Subset.trans hsub₁ (List.Subset.trans hsub₁₃ hsub₃₄)
  obtain ⟨hi, hi'⟩ := hin.new hpts hsub₁ (fun _ h => h) (List.Subset.trans hout.subset hsub₃₄)
  obtain ⟨ho, ho'⟩ := hout.new hpts hsub₁ hsub₁₂ hsub₃₄
  obtain ⟨he, he'⟩ := herr.new hpts hsub₁ hsub₁₃ fun _ h => h
  refine ⟨hlength, List.Subset.trans hsub₀₄ hsub₅, _, _, _, ends, w₄.fds,
    ⟨⟨hi, ho, he⟩, ⟨hi', ho', he'⟩, ?_, ?_, ?_⟩, hsub₀₄, hsub₅, hnew, hlinked⟩
  · exact hin.eq_iff hold (fun _ h => h) (fun _ h => h) hout
  · exact hin.eq_iff hold (fun _ h => h) hout.subset herr
  · exact hout.eq_iff hold hsub₁₂ (fun _ h => h) herr

/-- The end of the context's ACTION sequence closes the descriptor. -/
def Closes (context : Kcontext) (fd : Fd) : Prop :=
  context.stdin = some fd ∨ context.stdout = some fd

/-- The descriptor is one of the context's streams. -/
def Uses (context : Kcontext) (fd : Fd) : Prop := Closes context fd ∨ context.stderr = some fd

theorem uses_iff_mem {context : Kcontext} {fd : Fd} :
    Uses context fd ↔ some fd ∈ [context.stdin, context.stdout, context.stderr] := by
  simp [Uses, Closes, or_assoc, eq_comm]

/-- The descriptors that the preparation of the pipeline opens. -/
def openedFds (scheme : Kscheme) (env : KexecEnv) (exec : Kexec) (w : World) : List Fd :=
  match kexecPrepare scheme env exec w with
  | none => []
  | some (_, w') => w'.fds.filter (· ∉ w.fds)

section Linked

variable {tin tout terr : Bool} {old mid new : List Fd} {i o e fd : Fd} {ends : ℕ → Fd × Fd}
  {last k j : ℕ} {context other : Kcontext}

theorem LinkedAt.closes_iff (h : LinkedAt i o e ends last k context) :
    Closes context fd ↔ (k = 0 ∧ fd = i) ∨ (k ≠ 0 ∧ fd = (ends (k - 1)).1) ∨
      (k = last ∧ fd = o) ∨ (k ≠ last ∧ fd = (ends k).2) := by
  have hsplit (p : Prop) [Decidable p] (x y : Fd) :
      some (if p then x else y) = some fd ↔ (p ∧ fd = x) ∨ (¬p ∧ fd = y) := by
    by_cases hp : p <;> simp [hp, eq_comm]
  rw [Closes, h.stdin, h.stdout, hsplit, hsplit]
  exact or_assoc

/-- An end of a pipe between two stages belongs to one stage only. -/
theorem NewPipes.not_uses (hnew : NewPipes ends last mid new)
    (hends : GlobalEnds tin tout terr old mid i o e) (hother : LinkedAt i o e ends last j other)
    (hk : k ≤ last) (hj : j ≤ last) (hne : k ≠ j)
    (hfd : (k ≠ 0 ∧ fd = (ends (k - 1)).1) ∨ (k ≠ last ∧ fd = (ends k).2)) : ¬Uses other fd := by
  obtain ⟨hi, ho, he⟩ := hends.isOpen
  have hfresh : fd ∉ mid := by
    rcases hfd with ⟨hzero, rfl⟩ | ⟨hlast, rfl⟩
    · exact (hnew.fresh (k - 1) (by omega)).1
    · exact (hnew.fresh k (by omega)).2
  rintro (hcloses | herr)
  · rcases hother.closes_iff.mp hcloses with ⟨-, rfl⟩ | ⟨hj₀, heq⟩ | ⟨-, rfl⟩ | ⟨hjl, heq⟩
    · exact hfresh hi
    · rcases hfd with ⟨hzero, rfl⟩ | ⟨hlast, rfl⟩
      · have hsame := hnew.read_inj (k - 1) (by omega) (j - 1) (by omega) heq
        omega
      · exact hnew.apart (j - 1) (by omega) k (by omega) heq.symm
    · exact hfresh ho
    · rcases hfd with ⟨hzero, rfl⟩ | ⟨hlast, rfl⟩
      · exact hnew.apart (k - 1) (by omega) j (by omega) heq
      · exact hne (hnew.write_inj k (by omega) j (by omega) heq)
  · rw [hother.stderr] at herr
    exact hfresh (Option.some.inj herr ▸ he)

/-- A stage uses a descriptor of the whole pipeline if it is the same as one of its own. -/
theorem LinkedAt.uses_iff (hnew : NewPipes ends last mid new) (hfd : fd ∈ mid)
    (hother : LinkedAt i o e ends last j other) (hj : j ≤ last) :
    Uses other fd ↔ (j = 0 ∧ fd = i) ∨ (j = last ∧ fd = o) ∨ fd = e := by
  have hread : ¬(j ≠ 0 ∧ fd = (ends (j - 1)).1) := by
    rintro ⟨hj₀, rfl⟩
    exact (hnew.fresh (j - 1) (by omega)).1 hfd
  have hwrite : ¬(j ≠ last ∧ fd = (ends j).2) := by
    rintro ⟨hjl, rfl⟩
    exact (hnew.fresh j (by omega)).2 hfd
  have herr : other.stderr = some fd ↔ fd = e := by
    rw [hother.stderr, Option.some.injEq, eq_comm]
  rw [Uses, hother.closes_iff, herr]
  tauto

/-- A stage closes a descriptor of another one if both have the pseudo-terminal and the first
one closes it. -/
theorem LinkedAt.closes_uses_iff (hends : GlobalEnds tin tout terr old mid i o e)
    (hnew : NewPipes ends last mid new) (hcontext : LinkedAt i o e ends last k context)
    (hother : LinkedAt i o e ends last j other) (hk : k ≤ last) (hj : j ≤ last) (hne : k ≠ j) :
    (∃ fd, Closes context fd ∧ Uses other fd) ↔
      ((tin = true ∧ k = 0) ∨ (tout = true ∧ k = last)) ∧
        (terr = true ∨ (tin = true ∧ j = 0) ∨ (tout = true ∧ j = last)) := by
  obtain ⟨hi, ho, -⟩ := hends.isOpen
  have huses (fd : Fd) (hfd : fd ∈ mid) := hother.uses_iff hnew hfd hj
  constructor
  · rintro ⟨fd, hcloses, huse⟩
    rcases hcontext.closes_iff.mp hcloses with ⟨rfl, rfl⟩ | hpipe | ⟨rfl, rfl⟩ | hpipe
    · rcases (huses _ hi).mp huse with ⟨rfl, -⟩ | ⟨hjl, heq⟩ | heq
      · exact absurd rfl hne
      · have hboth := hends.in_out.mp heq
        exact ⟨.inl ⟨hboth.1, rfl⟩, .inr (.inr ⟨hboth.2, hjl⟩)⟩
      · have hboth := hends.in_err.mp heq
        exact ⟨.inl ⟨hboth.1, rfl⟩, .inl hboth.2⟩
    · exact absurd huse (hnew.not_uses hends hother hk hj hne (.inl hpipe))
    · rcases (huses _ ho).mp huse with ⟨hj₀, heq⟩ | ⟨rfl, -⟩ | heq
      · have hboth := hends.in_out.mp heq.symm
        exact ⟨.inr ⟨hboth.2, rfl⟩, .inr (.inl ⟨hboth.1, hj₀⟩)⟩
      · exact absurd rfl hne
      · have hboth := hends.out_err.mp heq
        exact ⟨.inr ⟨hboth.1, rfl⟩, .inl hboth.2⟩
    · exact absurd huse (hnew.not_uses hends hother hk hj hne (.inr hpipe))
  · rintro ⟨⟨htin, hk₀⟩ | ⟨htout, hkl⟩, hshare⟩
    · refine ⟨i, hcontext.closes_iff.mpr (.inl ⟨hk₀, rfl⟩), (huses i hi).mpr ?_⟩
      rcases hshare with hterr | ⟨-, hj₀⟩ | ⟨htout, hjl⟩
      · exact .inr (.inr (hends.in_err.mpr ⟨htin, hterr⟩))
      · omega
      · exact .inr (.inl ⟨hjl, hends.in_out.mpr ⟨htin, htout⟩⟩)
    · refine ⟨o, hcontext.closes_iff.mpr (.inr (.inr (.inl ⟨hkl, rfl⟩))), (huses o ho).mpr ?_⟩
      rcases hshare with hterr | ⟨htin, hj₀⟩ | ⟨-, hjl⟩
      · exact .inr (.inr (hends.out_err.mpr ⟨htout, hterr⟩))
      · exact .inl ⟨hj₀, (hends.in_out.mpr ⟨htin, htout⟩).symm⟩
      · omega

end Linked

/-- The streams that the stages of a prepared pipeline have. -/
structure Prepared (scheme : Kscheme) (env : KexecEnv) (exec : Kexec) (w : World)
    (contexts : List Kcontext) (w' : World) : Prop where
  opened : ∀ context ∈ contexts, ∀ stream ∈ [context.stdin, context.stdout, context.stderr],
    ∃ fd, stream = some fd ∧ fd ∈ openedFds scheme env exec w ∧ fd ∈ w'.fds
  shared : ∀ k j context other, contexts[k]? = some context → contexts[j]? = some other → k ≠ j →
    ((∃ fd, Closes context fd ∧ Uses other fd) ↔
      ClosesPts scheme exec w k ∧ UsesPts scheme exec w j)

theorem kexecPrepare_prepared {exec exec' : Kexec} {w w' : World}
    (h : kexecPrepare scheme env exec w = some (exec', w')) :
    Prepared scheme env exec w exec'.contexts w' := by
  obtain ⟨hlength, hsub, i, o, e, ends, mid, hends, hold, hmid, hnew, hlinked⟩ :=
    kexecPrepare_linked h
  have hopened : openedFds scheme env exec w = w'.fds.filter (· ∉ w.fds) := by
    rw [openedFds, h]
  have hlast : ∀ k context, exec'.contexts[k]? = some context → k ≤ exec.contexts.length - 1 := by
    intro k context hk
    have hlt := (List.getElem?_eq_some_iff.mp hk).1
    omega
  constructor
  · intro context hcontext stream hstream
    obtain ⟨k, hk⟩ := List.mem_iff_getElem?.mp hcontext
    have hlink := hlinked k context hk
    have hk' := hlast k context hk
    suffices hnewFd : ∃ fd, stream = some fd ∧ fd ∉ w.fds ∧ fd ∈ w'.fds by
      obtain ⟨fd, heq, hfresh, hopen⟩ := hnewFd
      refine ⟨fd, heq, ?_, hopen⟩
      rw [hopened]
      exact List.mem_filter.mpr ⟨hopen, by simpa using hfresh⟩
    have hpipe : ∀ m < exec.contexts.length - 1, ((ends m).1 ∉ w.fds ∧ (ends m).1 ∈ w'.fds) ∧
        ((ends m).2 ∉ w.fds ∧ (ends m).2 ∈ w'.fds) := by
      intro m hm
      obtain ⟨hr, hs⟩ := hnew.fresh m hm
      obtain ⟨hr', hs'⟩ := hnew.isOpen m hm
      exact ⟨⟨fun hmem => hr (hold hmem), hr'⟩, ⟨fun hmem => hs (hold hmem), hs'⟩⟩
    obtain ⟨hi, ho, he⟩ := hends.fresh
    obtain ⟨hi', ho', he'⟩ := hends.isOpen
    simp only [List.mem_cons, List.not_mem_nil, or_false] at hstream
    rcases hstream with rfl | rfl | rfl
    · refine ⟨_, hlink.stdin, ?_⟩
      by_cases hzero : k = 0
      · rw [if_pos hzero]
        exact ⟨hi, hmid hi'⟩
      · rw [if_neg hzero]
        exact (hpipe (k - 1) (by omega)).1
    · refine ⟨_, hlink.stdout, ?_⟩
      by_cases hend : k = exec.contexts.length - 1
      · rw [if_pos hend]
        exact ⟨ho, hmid ho'⟩
      · rw [if_neg hend]
        exact (hpipe k (by omega)).2
    · exact ⟨_, hlink.stderr, he, hmid he'⟩
  · intro k j context other hk hj hne
    exact (hlinked k context hk).closes_uses_iff hends hnew (hlinked j other hj)
      (hlast k context hk) (hlast j other hj) hne

end Klish.Kexec
