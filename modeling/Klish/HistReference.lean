import Klish.Hist
import Klish.Lib.Recent
import Klish.Lib.Runs

/-!
# The history has the lines used last

A temporary entry is added under the same bound as a real one, and a file is written from the whole
list. So browsing can push a real entry out, and the temporary entry can get into the file.
-/

namespace Klish.Hist

/-- The lines that the history should have. -/
def latest (n : ℕ) (added : List HistLine) : List Bytes := recent n (added.map (·.bytes))

/-- The file has the lines used last, and a history of the same bound gets them from the file. -/
structure SavedWell (n : ℕ) (file : Bytes × List HistLine) : Prop where
  content : file.1 = render (latest n file.2)
  restored : ∀ hist : Hist, hist.stifle = n → hist.fname ≠ none →
    ((hist.histRestore (some file.1)).2.list.map fun node => (node.temporary, node.line)) =
      (latest n file.2).map (false, ·)

/-- The history is what its reference says. -/
structure Refines (n : ℕ) (s : Hist × Log) : Prop where
  real : s.1.real = latest n s.2.added
  temporary : ∀ node ∈ s.1.list.dropLast, node.temporary = false
  position : ∀ addr, s.1.pos = some addr → ∃ node ∈ s.1.list, node.addr = addr
  saved : ∀ file ∈ s.2.saved, SavedWell n file

/-- A temporary line is added to a list with room for it, and no file is written while there is a
temporary entry. -/
def Spares (n : ℕ) (s : Hist × Log) : HistEvent → Prop
  | .addTemp _ => s.1.real.length < n
  | .save opened => opened = true → s.1.fname ≠ none → s.1.temp = false
  | _ => True

section Nodes

variable {list : List HistNode} {addr found : ℕ}

theorem tail_mem (h : tail list = some found) : ∃ node ∈ list, node.addr = found := by
  obtain ⟨node, hnode, rfl⟩ := Option.map_eq_some_iff.mp h
  exact ⟨node, List.mem_of_getLast? hnode, rfl⟩

theorem prevNode_mem (h : prevNode addr list = some found) :
    ∃ node ∈ list, node.addr = found := by
  fun_induction prevNode addr list with
  | case1 first second rest heq => exact ⟨first, List.mem_cons_self, Option.some.inj h⟩
  | case2 first second rest hne ih =>
    obtain ⟨node, hnode, haddr⟩ := ih h
    exact ⟨node, List.mem_cons_of_mem _ hnode, haddr⟩
  | case3 => cases h

theorem nextNode_mem (h : nextNode addr list = some found) :
    ∃ node ∈ list, node.addr = found := by
  fun_induction nextNode addr list with
  | case1 first second rest heq => exact ⟨second, by simp, Option.some.inj h⟩
  | case2 first second rest hne ih =>
    obtain ⟨node, hnode, haddr⟩ := ih h
    exact ⟨node, List.mem_cons_of_mem _ hnode, haddr⟩
  | case3 => cases h

end Nodes

section Operations

variable (hist : Hist) (line : Bytes)

@[simp] theorem histPosReset_pos : hist.histPosReset.pos = none := rfl

@[simp] theorem histPosReset_temp : hist.histPosReset.temp = false := rfl

@[simp] theorem histPosReset_stifle : hist.histPosReset.stifle = hist.stifle := rfl

@[simp] theorem histPosReset_idem : hist.histPosReset.histPosReset = hist.histPosReset := rfl

@[simp] theorem stifled_pos : hist.stifled.pos = hist.pos := by
  unfold stifled
  split <;> rfl

@[simp] theorem stifled_temp : hist.stifled.temp = hist.temp := by
  unfold stifled
  split <;> rfl

@[simp] theorem stifled_stifle : hist.stifled.stifle = hist.stifle := by
  unfold stifled
  split <;> rfl

theorem stifled_list : hist.stifled.list =
    if hist.stifle ≠ 0 ∧ hist.stifle < hist.list.length then hist.list.tail else hist.list := by
  unfold stifled
  split <;> rfl

@[simp] theorem histAdd_pos (temp : Bool) : (hist.histAdd line temp).pos = none := by
  cases temp <;> exact stifled_pos _

@[simp] theorem histAdd_temp (temp : Bool) : (hist.histAdd line temp).temp = temp := by
  cases temp <;> exact stifled_temp _

@[simp] theorem histAdd_stifle (temp : Bool) : (hist.histAdd line temp).stifle = hist.stifle := by
  cases temp <;> exact stifled_stifle _

/-- Moving up leaves the list as it is. -/
theorem histPosUp_spec : ∃ pos, hist.histPosUp = { hist with pos } := by
  unfold histPosUp
  split <;> exact ⟨_, rfl⟩

/-- Moving down leaves the list as it is. -/
theorem histPosDown_spec : ∃ pos, hist.histPosDown = { hist with pos } := by
  unfold histPosDown
  split
  · exact ⟨hist.pos, rfl⟩
  · exact ⟨_, rfl⟩

theorem histPosUp_position (h : ∀ addr, hist.pos = some addr → ∃ node ∈ hist.list, node.addr = addr)
    (addr : ℕ) (hpos : hist.histPosUp.pos = some addr) : ∃ node ∈ hist.list, node.addr = addr := by
  unfold histPosUp at hpos
  split at hpos
  · exact tail_mem hpos
  · rename_i old hold
    cases hprev : prevNode old hist.list with
    | none =>
      obtain rfl : old = addr := by simpa [hprev] using hpos
      exact h old hold
    | some found =>
      obtain rfl : found = addr := by simpa [hprev] using hpos
      exact prevNode_mem hprev

theorem histPosDown_position
    (h : ∀ addr, hist.pos = some addr → ∃ node ∈ hist.list, node.addr = addr)
    (addr : ℕ) (hpos : hist.histPosDown.pos = some addr) :
    ∃ node ∈ hist.list, node.addr = addr := by
  unfold histPosDown at hpos
  split at hpos
  · exact h addr hpos
  · exact nextNode_mem hpos

end Operations

section Restore

theorem lines_render {lines' : List Bytes} (h : ∀ line ∈ lines', 10 ∉ line) :
    lines 10 (render lines') = lines' := by
  induction lines' with
  | nil => rfl
  | cons line rest ih =>
    have hrest := ih fun line hline => h line (List.mem_cons_of_mem _ hline)
    have hrender : render (line :: rest) = line ++ 10 :: render rest := by
      simp [render]
    rw [hrender, lines_line _ (h line List.mem_cons_self), hrest]

/-- Lines that fit are restored as real entries. -/
theorem restoreLines_list {hist : Hist} {count : ℕ} {rest : List Bytes}
    (hnul : ∀ line ∈ rest, 0 ∉ line) (hfits : count + rest.length ≤ hist.stifle) :
    ((restoreLines hist count rest).list.map fun node => (node.temporary, node.line)) =
      (hist.list.map fun node => (node.temporary, node.line)) ++ rest.map (false, ·) := by
  induction rest generalizing hist count with
  | nil => simp [restoreLines]
  | cons line rest ih =>
    rw [List.length_cons] at hfits
    have hcopy : line.takeWhile (· ≠ 0) = line := by
      refine List.takeWhile_eq_self_iff.mpr fun b hb => ?_
      have hne : b ≠ 0 := fun h => hnul line List.mem_cons_self (h ▸ hb)
      simpa using hne
    rw [restoreLines, if_pos (.inr (by omega)), hcopy,
      ih (fun line hline => hnul line (List.mem_cons_of_mem _ hline))
        (by simp only [listAdd]; omega)]
    simp [listAdd]

theorem latest_line {n : ℕ} {added : List HistLine} {line : Bytes} (h : line ∈ latest n added) :
    0 ∉ line ∧ 10 ∉ line := by
  have hmem : line ∈ added.map (·.bytes) := List.mem_dedup.mp (List.mem_of_mem_drop h)
  obtain ⟨entry, -, rfl⟩ := List.mem_map.mp hmem
  exact ⟨entry.noNul, entry.noNewline⟩

/-- A file with the lines used last gives them back. -/
theorem savedWell_of_content {n : ℕ} {file : Bytes × List HistLine}
    (h : file.1 = render (latest n file.2)) : SavedWell n file := by
  refine ⟨h, fun hist hstifle hfname => ?_⟩
  have hlines : lines 10 file.1 = latest n file.2 := by
    rw [h]
    exact lines_render fun line hline => (latest_line hline).2
  have hclear : hist.histClear.list = [] ∧ hist.histClear.stifle = n := by
    refine ⟨?_, hstifle⟩
    cases htemp : hist.temp <;> simp [histClear, histPosReset, htemp]
  have hlen : 0 + (latest n file.2).length ≤ hist.histClear.stifle := by
    have hle := recent_length_le n (file.2.map (·.bytes))
    rw [hclear.2, latest]
    omega
  rw [histRestore, if_neg hfname]
  dsimp only
  rw [hlines, restoreLines_list (fun line hline => (latest_line hline).1) hlen, hclear.1]
  rfl

end Restore

section Invariant

/-- The list of a history is its real entries, and a temporary one at the end if there is one. -/
structure Inv (n : ℕ) (s : Hist × Log) : Prop extends Refines n s where
  stifle : s.1.stifle = n
  settled : ∀ node ∈ s.1.histPosReset.list, node.temporary = false
  last : s.1.temp = true → ∃ node, s.1.list = s.1.histPosReset.list ++ [node] ∧
    node.temporary = true

variable {n : ℕ} {hist : Hist} {log : Log}

theorem filter_settled {list : List HistNode} (h : ∀ node ∈ list, node.temporary = false) :
    list.filter (fun node => !node.temporary) = list :=
  List.filter_eq_self.mpr fun node hnode => by simp [h node hnode]

theorem Inv.reset_lines (h : Inv n (hist, log)) :
    hist.histPosReset.list.map (·.line) = hist.real := by
  cases htemp : hist.temp with
  | false =>
    have hlist : hist.histPosReset.list = hist.list := by simp [histPosReset, htemp]
    have hsettled := h.settled
    rw [hlist] at hsettled ⊢
    rw [real, filter_settled hsettled]
  | true =>
    obtain ⟨node, hlist, hnode⟩ := h.last htemp
    rw [real, hlist, List.filter_append, filter_settled h.settled]
    simp [hnode]

theorem Inv.length_le (h : Inv n (hist, log)) : hist.real.length ≤ n := by
  rw [h.real]
  exact recent_length_le n _

theorem histPosReset_list (h : hist.temp = false) : hist.histPosReset.list = hist.list := by
  simp [histPosReset, h]

theorem Inv.of_lines (hstifle : hist.stifle = n)
    (hlines : hist.histPosReset.list.map (·.line) = latest n log.added)
    (hsettled : ∀ node ∈ hist.histPosReset.list, node.temporary = false)
    (hlast : hist.temp = true → ∃ node, hist.list = hist.histPosReset.list ++ [node] ∧
      node.temporary = true)
    (hposition : ∀ addr, hist.pos = some addr → ∃ node ∈ hist.list, node.addr = addr)
    (hsaved : ∀ file ∈ log.saved, SavedWell n file) : Inv n (hist, log) := by
  refine ⟨⟨?_, ?_, hposition, hsaved⟩, hstifle, hsettled, hlast⟩
  · cases htemp : hist.temp with
    | false =>
      rw [histPosReset_list htemp] at hsettled hlines
      rw [real, filter_settled hsettled, hlines]
    | true =>
      obtain ⟨node, hlist, hnode⟩ := hlast htemp
      rw [real, hlist, List.filter_append, filter_settled hsettled]
      simpa [hnode] using hlines
  · intro node hnode
    cases htemp : hist.temp with
    | false =>
      rw [histPosReset_list htemp] at hsettled
      exact hsettled node ((List.dropLast_subset _ hnode))
    | true =>
      obtain ⟨_, hlist, -⟩ := hlast htemp
      rw [hlist, List.dropLast_concat] at hnode
      exact hsettled node hnode

/-- Resetting takes the temporary entry out and nothing else. -/
theorem Inv.histPosReset (h : Inv n (hist, log)) : Inv n (hist.histPosReset, log) :=
  .of_lines h.stifle (h.reset_lines.trans h.real) h.settled (fun htemp => Bool.noConfusion htemp)
    (fun _ hpos => by cases hpos) h.saved

/-- Only the position changes. -/
theorem Inv.withPos (h : Inv n (hist, log)) {pos : Option ℕ}
    (hposition : ∀ addr, pos = some addr → ∃ node ∈ hist.list, node.addr = addr) :
    Inv n ({ hist with pos }, log) :=
  .of_lines h.stifle (h.reset_lines.trans h.real) h.settled h.last hposition h.saved

/-- A real line goes to the end. -/
theorem histAdd_lines (h : Inv n (hist, log)) (hn : 0 < n) (line : Bytes) :
    (hist.histAdd line false).list.map (·.line) = touch n hist.real line ∧
      ∀ node ∈ (hist.histAdd line false).list, node.temporary = false := by
  have hlist : (hist.histAdd line false).list = _ := stifled_list _
  have hlines := map_eraseP line (·.line) hist.histPosReset.list
  have hold : ∀ node ∈ hist.histPosReset.list.eraseP (fun node => node.line = line),
      node.temporary = false := fun node hnode => h.settled node (List.mem_of_mem_eraseP hnode)
  rw [h.reset_lines] at hlines
  simp only [listAdd, Bool.false_eq_true, if_false] at hlist
  rw [hlist, histPosReset_stifle, h.stifle]
  generalize hist.histPosReset.list.eraseP (fun node => node.line = line) = kept at hlines hold ⊢
  generalize hadded : HistNode.mk hist.histPosReset.fresh line false = added
  have hnew : ∀ node ∈ kept ++ [added], node.temporary = false := by
    intro node hnode
    rcases List.mem_append.mp hnode with hkept | hlast
    · exact hold node hkept
    · rw [List.mem_singleton.mp hlast, ← hadded]
  have hmap : (kept ++ [added]).map (·.line) = kept.map (·.line) ++ [line] := by
    rw [List.map_append, ← hadded]
    rfl
  rw [touch_eq _ _ h.length_le, ← hlines, ← hmap, List.length_map]
  by_cases hlong : n < (kept ++ [added]).length
  · rw [if_pos ⟨by omega, hlong⟩, if_pos hlong, List.map_tail]
    exact ⟨rfl, fun node hnode => hnew node (List.mem_of_mem_tail hnode)⟩
  · rw [if_neg fun hand => hlong hand.2, if_neg hlong]
    exact ⟨rfl, hnew⟩

theorem Inv.histAdd (h : Inv n (hist, log)) (hn : 0 < n) (line : HistLine) :
    Inv n (hist.histAdd line.bytes false, { log with added := log.added ++ [line] }) := by
  obtain ⟨hlines, hsettled⟩ := histAdd_lines h hn line.bytes
  have htemp := histAdd_temp hist line.bytes false
  refine .of_lines ((histAdd_stifle hist line.bytes false).trans h.stifle) ?_ ?_ ?_ ?_ h.saved
  · rw [histPosReset_list htemp, hlines, h.real, latest, latest, List.map_append,
      List.map_singleton, recent_concat _ _ hn]
  · rw [histPosReset_list htemp]
    exact hsettled
  · intro h'
    exact absurd (htemp.symm.trans h') Bool.false_ne_true
  · intro addr hpos
    exact absurd ((histAdd_pos hist line.bytes false).symm.trans hpos) (by simp)

/-- What becomes of the list when a temporary entry is added. -/
theorem histAdd_temp_list (h : Inv n (hist, log)) (line : Bytes) :
    (hist.histAdd line true).list =
      if n ≠ 0 ∧ n ≤ hist.real.length then
        (hist.histPosReset.list ++ [HistNode.mk hist.histPosReset.fresh line true]).tail
      else hist.histPosReset.list ++ [HistNode.mk hist.histPosReset.fresh line true] := by
  have hlist : (hist.histAdd line true).list = _ := stifled_list _
  have hlen := congrArg List.length h.reset_lines
  rw [List.length_map] at hlen
  simp only [listAdd, if_true, List.length_append, List.length_singleton] at hlist
  rw [hlist, histPosReset_stifle, h.stifle, hlen]
  simp only [Nat.lt_succ_iff]

/-- There is room for a temporary entry. -/
theorem Inv.histAddTemp (h : Inv n (hist, log)) (hroom : hist.real.length < n) (line : Bytes) :
    Inv n (hist.histAdd line true, log) := by
  have hlist := histAdd_temp_list h line
  rw [if_neg fun hand => absurd hand.2 (by omega)] at hlist
  have htemp := histAdd_temp hist line true
  have hreset : (hist.histAdd line true).histPosReset.list = hist.histPosReset.list := by
    have hdrop : (hist.histAdd line true).histPosReset.list =
        (hist.histAdd line true).list.dropLast := by
      rw [Hist.histPosReset, htemp]
      rfl
    rw [hdrop, hlist, List.dropLast_concat]
  refine .of_lines ((histAdd_stifle hist line true).trans h.stifle) ?_ ?_ ?_ ?_ h.saved
  · rw [hreset]
    exact h.reset_lines.trans h.real
  · rw [hreset]
    exact h.settled
  · intro _
    rw [hreset]
    exact ⟨_, hlist, rfl⟩
  · intro addr hpos
    exact absurd ((histAdd_pos hist line true).symm.trans hpos) (by simp)

/-- Without room the temporary entry takes the place of a real one. -/
theorem real_histAddTemp (h : Inv n (hist, log)) (hn : 0 < n) (hfull : n ≤ hist.real.length)
    (line : Bytes) : (hist.histAdd line true).real.length < hist.real.length := by
  have hlist := histAdd_temp_list h line
  rw [if_pos ⟨by omega, hfull⟩] at hlist
  have hlines := h.reset_lines
  have hsettled := h.settled
  rw [real, hlist]
  cases hkept : hist.histPosReset.list with
  | nil =>
    rw [hkept, List.map_nil] at hlines
    rw [← hlines, List.length_nil] at hfull
    omega
  | cons first rest =>
    rw [hkept] at hlines hsettled
    have hrest := filter_settled fun node hnode => hsettled node (List.mem_cons_of_mem _ hnode)
    rw [List.cons_append, List.tail_cons, List.filter_append, hrest, ← hlines]
    simp

theorem render_append (first last : List Bytes) :
    render (first ++ last) = render first ++ render last := by
  simp [render]

/-- A file is written from the real entries and the temporary one. -/
theorem Inv.render_list (h : Inv n (hist, log)) :
    ∃ temps, (hist.temp = true ↔ temps ≠ []) ∧
      render (hist.list.map (·.line)) = render (latest n log.added) ++ render temps := by
  cases htemp : hist.temp with
  | false =>
    have hlines := h.reset_lines
    rw [histPosReset_list htemp] at hlines
    refine ⟨[], by simp, ?_⟩
    rw [hlines, h.real]
    exact (List.append_nil _).symm
  | true =>
    obtain ⟨node, hlist, -⟩ := h.last htemp
    refine ⟨[node.line], by simp, ?_⟩
    rw [hlist, List.map_append, render_append, h.reset_lines, h.real]
    rfl

theorem render_eq_nil {lines' : List Bytes} (h : render lines' = []) : lines' = [] := by
  cases lines' with
  | nil => rfl
  | cons line rest => simp [render] at h

theorem Inv.histSave (h : Inv n (hist, log)) {opened : Bool}
    (hspares : opened = true → hist.fname ≠ none → hist.temp = false) :
    Inv n (hist, note hist (.save opened) hist log) := by
  refine { h with saved := fun file hfile => ?_ }
  rcases List.mem_append.mp hfile with hnew | hold
  · obtain ⟨content, hcontent, rfl⟩ := List.mem_map.mp hnew
    unfold Hist.histSave at hcontent
    split at hcontent
    · cases hcontent
    · rename_i hfname
      split at hcontent
      · rename_i hopened
        obtain rfl : content = render (hist.list.map (·.line)) := by simpa using hcontent
        obtain ⟨temps, htemps, hrender⟩ := h.render_list
        have hnone : temps = [] := by
          by_contra hne
          exact Bool.false_ne_true ((hspares hopened hfname).symm.trans (htemps.mpr hne))
        refine savedWell_of_content (hrender.trans ?_)
        rw [hnone]
        exact List.append_nil _
      · cases hcontent
  · exact h.saved file hold

/-- A file that has the lines used last was not written with a temporary entry. -/
theorem spares_of_saved (h : Inv n (hist, log)) {opened : Bool}
    (hsaved : ∀ file ∈ (note hist (.save opened) hist log).saved, SavedWell n file)
    (hopened : opened = true) (hfname : hist.fname ≠ none) : hist.temp = false := by
  have hwell := hsaved (render (hist.list.map (·.line)), log.added)
    (by simp [note, Hist.histSave, hopened, hfname])
  obtain ⟨temps, htemps, hrender⟩ := h.render_list
  have hnone : temps = [] := render_eq_nil (List.append_cancel_left
    ((hrender.symm.trans hwell.content).trans (List.append_nil _).symm))
  exact Bool.eq_false_iff.mpr fun htemp => htemps.mp htemp hnone

end Invariant

section Runs

variable {n : ℕ} {fname : Option String} {events : List HistEvent} {s t : Hist × Log}
  {event : HistEvent}

theorem new_inv : Inv n (histNew fname n, ⟨[], []⟩) :=
  .of_lines rfl (recent_nil n).symm (by simp [histNew, Hist.histPosReset])
    (fun h => Bool.noConfusion h) (by simp [histNew]) (by simp)

theorem step_inv (hn : 0 < n) (h : Inv n s) (hspares : Spares n s event)
    (hstep : Runs.observed step note s event = some t) : Inv n t := by
  obtain ⟨hist, log⟩ := s
  obtain ⟨_, hhist, rfl⟩ := Runs.observed_eq_some.mp hstep
  cases event with
  | add line =>
    cases hhist
    exact h.histAdd hn line
  | addTemp line =>
    cases hhist
    exact h.histAddTemp hspares line.bytes
  | posUp =>
    cases hhist
    obtain ⟨pos, hpos⟩ := histPosUp_spec hist
    have hposition := histPosUp_position hist h.position
    rw [hpos] at hposition ⊢
    exact h.withPos hposition
  | posDown =>
    cases hhist
    obtain ⟨pos, hpos⟩ := histPosDown_spec hist
    have hposition := histPosDown_position hist h.position
    rw [hpos] at hposition ⊢
    exact h.withPos hposition
  | posReset =>
    cases hhist
    exact h.histPosReset
  | save opened =>
    cases hhist
    exact h.histSave hspares

theorem step_spares (hn : 0 < n) (h : Inv n s)
    (hstep : Runs.observed step note s event = some t) (hrefines : Refines n t) :
    Spares n s event := by
  obtain ⟨hist, log⟩ := s
  obtain ⟨_, hhist, rfl⟩ := Runs.observed_eq_some.mp hstep
  cases event with
  | addTemp line =>
    cases hhist
    by_contra hfull
    have hlt := real_histAddTemp h hn (Nat.le_of_not_lt hfull) line.bytes
    have hsame := hrefines.real.trans h.real.symm
    rw [hsame] at hlt
    exact Nat.lt_irrefl _ hlt
  | save opened =>
    cases hhist
    exact spares_of_saved h hrefines.saved
  | _ => trivial

variable (fname events) in
/-- The history is what its reference says throughout a run, exactly if browsing begins only while
the list has room and no file is written while there is a temporary entry. -/
theorem refines_iff (hn : 0 < n) :
    (∀ k t, Runs.run (Runs.observed step note) (histNew fname n, ⟨[], []⟩) (events.take k) =
        some t → Refines n t) ↔
      Runs.Along (Runs.observed step note) (Spares n) (histNew fname n, ⟨[], []⟩) events := by
  have htotal : ∀ s event, ∃ t, Runs.observed step note s event = some t := by
    rintro ⟨hist, log⟩ event
    cases event <;> exact ⟨_, rfl⟩
  obtain ⟨u, hu⟩ := Runs.exists_run (histNew fname n, ⟨[], []⟩) events htotal
  exact Runs.forall_states_iff_along (fun _ h => h.toRefines)
    (fun _ _ _ h hspares hstep => step_inv hn h hspares hstep)
    (fun _ _ _ h hstep hrefines => step_spares hn h hstep hrefines) new_inv hu

/-- The Up key is a run of the history. -/
theorem tinyrlKeyUp_run (hist : Hist) (line : HistLine) :
    Runs.run step hist
      (if hist.histPos = none then [.addTemp line, .posUp, .posUp] else [.posUp]) =
      some (hist.tinyrlKeyUp line.bytes).1 := by
  unfold tinyrlKeyUp
  split <;> rfl

/-- So is the Down key. -/
theorem tinyrlKeyDown_run (hist : Hist) :
    Runs.run step hist [.posDown] = some hist.tinyrlKeyDown.1 := rfl

/-- Two lines that are different. -/
def lineA : HistLine := ⟨[97], by decide, by decide⟩

def lineB : HistLine := ⟨[98], by decide, by decide⟩

def emptyLine : HistLine := ⟨[], by decide, by decide⟩

/-- A line is entered, and the Up key is pressed on the next one. -/
def browseOne : List HistEvent := [.add lineA, .addTemp emptyLine, .posUp, .posUp, .save true]

theorem refines_iff_two :
    (∀ k t, Runs.run (Runs.observed step note) (histNew (some "history") 2, ⟨[], []⟩)
        (browseOne.take k) = some t → Refines 2 t) ↔
      Runs.Along (Runs.observed step note) (Spares 2) (histNew (some "history") 2, ⟨[], []⟩)
        browseOne :=
  refines_iff (some "history") browseOne (by decide)

/-- The history holds two lines and has two, and the Up key is pressed on an empty line. The older
of them is lost. -/
theorem browsing_drops_line : ∃ t : Hist × Log,
    Runs.run (Runs.observed step note) (histNew (some "history") 2, ⟨[], []⟩)
      [.add lineA, .add lineB, .addTemp emptyLine, .posUp, .posUp] = some t ∧
    t.1 = ((histNew (some "history") 2).histAdd lineA.bytes false |>.histAdd lineB.bytes false
      |>.tinyrlKeyUp emptyLine.bytes).1 ∧
    t.1.real = [lineB.bytes] ∧ latest 2 t.2.added = [lineA.bytes, lineB.bytes] ∧
    ¬Refines 2 t := by
  refine ⟨_, rfl, rfl, by decide, by decide, fun h => ?_⟩
  exact absurd h.real (by decide)

end Runs

end Klish.Hist
