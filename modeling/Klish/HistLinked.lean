import Klish.HistReference

/-!
# The Up key at the end of the history

A line that is being typed is the last entry while older ones are browsed. The entries have growing
addresses, so that going up and down again comes back to the same entry.
-/

namespace Klish

namespace Hist

/-- The temporary entry is the last one, and an entry is browsed only while there is one. -/
structure Linked (hist : Hist) : Prop where
  sorted : hist.list.Pairwise (·.addr < ·.addr)
  fresh : ∀ node ∈ hist.list, node.addr < hist.fresh
  noNul : ∀ node ∈ hist.list, 0 ∉ node.line
  temp : hist.temp = true → ∃ kept last, hist.list = kept ++ [last] ∧ last.temporary = true
  settled : ∀ node ∈ hist.histPosReset.list, node.temporary = false
  pos : ∀ addr, hist.pos = some addr → hist.temp = true ∧ ∃ node ∈ hist.list, node.addr = addr
  stifle : hist.stifle = 100

/-- The line that was being typed when the Up key was pressed first. -/
def snapshot (hist : Hist) : Option Bytes :=
  (hist.list.getLast?.filter (·.temporary)).map (·.line)

section Sorted

variable {list kept : List HistNode} {node first last : HistNode}

theorem data_of_mem (h : list.Pairwise (·.addr < ·.addr)) (hmem : node ∈ list) :
    data list node.addr = some node.line := by
  induction list with
  | nil => cases hmem
  | cons head list ih =>
    obtain ⟨hhead, hrest⟩ := List.pairwise_cons.mp h
    unfold data at ih ⊢
    rcases List.mem_cons.mp hmem with rfl | hmem
    · simp
    · have hne : head.addr ≠ node.addr := Nat.ne_of_lt (hhead node hmem)
      rw [List.find?_cons_of_neg (by simpa using hne)]
      exact ih hrest hmem

/-- Before the last entry there is the last one of the others. -/
theorem prevNode_last (h : (kept ++ [last]).Pairwise (·.addr < ·.addr)) :
    prevNode last.addr (kept ++ [last]) = kept.getLast?.map (·.addr) := by
  induction kept with
  | nil => rfl
  | cons head kept ih =>
    obtain ⟨hhead, hrest⟩ := List.pairwise_cons.mp h
    cases kept with
    | nil => simp [prevNode]
    | cons second kept =>
      have hne : second.addr ≠ last.addr := by
        have hlt := (List.pairwise_cons.mp hrest).1 last (by simp)
        omega
      rw [List.cons_append, List.cons_append, prevNode, if_neg hne, List.getLast?_cons_cons]
      exact ih hrest

/-- After the entry before the last one there is the last one. -/
theorem nextNode_last (h : (kept ++ [first, last]).Pairwise (·.addr < ·.addr)) :
    nextNode first.addr (kept ++ [first, last]) = some last.addr := by
  induction kept with
  | nil => simp [nextNode]
  | cons head kept ih =>
    obtain ⟨hhead, hrest⟩ := List.pairwise_cons.mp h
    have hne : head.addr ≠ first.addr := Nat.ne_of_lt (hhead first (by simp))
    cases kept with
    | nil => simp [nextNode, hne]
    | cons second kept =>
      rw [List.cons_append, List.cons_append, nextNode, if_neg hne]
      exact ih hrest

end Sorted

variable {hist : Hist} {line : Bytes}

/-- The real entries are there also when the position is reset. -/
theorem Linked.real_eq (h : hist.Linked) : hist.real = hist.histPosReset.list.map (·.line) := by
  have hsettled := h.settled
  have hkeep : ∀ list : List HistNode, (∀ node ∈ list, node.temporary = false) →
      (list.filter fun node => !node.temporary) = list := by
    intro list hlist
    exact List.filter_eq_self.mpr fun node hnode => by simp [hlist node hnode]
  cases htemp : hist.temp with
  | true =>
    obtain ⟨kept, last, hlist, hlast⟩ := h.temp htemp
    have hreset : hist.histPosReset.list = kept := by simp [histPosReset, htemp, hlist]
    rw [hreset] at hsettled ⊢
    rw [real, hlist, List.filter_append, hkeep kept hsettled]
    simp [hlast]
  | false =>
    have hreset : hist.histPosReset.list = hist.list := by simp [histPosReset, htemp]
    rw [hreset] at hsettled ⊢
    rw [real, hkeep _ hsettled]

theorem Linked.histPosReset (h : hist.Linked) : hist.histPosReset.Linked := by
  have hsub : hist.histPosReset.list.Sublist hist.list := by
    unfold Hist.histPosReset
    dsimp only
    split
    · exact List.dropLast_sublist _
    · exact List.Sublist.refl _
  refine ⟨h.sorted.sublist hsub, fun node hnode => h.fresh node (hsub.subset hnode),
    fun node hnode => h.noNul node (hsub.subset hnode), ?_, h.settled, ?_, h.stifle⟩
  · exact fun htemp => absurd htemp Bool.false_ne_true
  · exact fun addr haddr => absurd haddr (by simp)

/-- A line is added after what is kept of the list. Where it is temporary the newest real entry is
kept. -/
theorem Linked.histAdd_list (h : hist.Linked) (line : Bytes) (temp : Bool) : ∃ kept,
    (hist.histAdd line temp).list = kept ++ [⟨hist.fresh, line, temp⟩] ∧
      kept.Sublist hist.histPosReset.list ∧
      (temp = true → kept.getLast? = hist.histPosReset.list.getLast?) := by
  obtain ⟨kept, hadd, hsub, hlast⟩ : ∃ kept : List HistNode,
      (hist.histAdd line temp).list =
        (if 100 < (kept ++ [(⟨hist.fresh, line, temp⟩ : HistNode)]).length then
          (kept ++ [(⟨hist.fresh, line, temp⟩ : HistNode)]).tail
        else kept ++ [⟨hist.fresh, line, temp⟩]) ∧
      kept.Sublist hist.histPosReset.list ∧ (temp = true → kept = hist.histPosReset.list) := by
    have hstifle := h.stifle
    have hfresh : hist.histPosReset.fresh = hist.fresh := rfl
    cases temp with
    | true =>
      refine ⟨_, ?_, List.Sublist.refl _, fun _ => rfl⟩
      have hlist : (hist.histAdd line true).list = _ := stifled_list _
      simpa [listAdd, hstifle, hfresh] using hlist
    | false =>
      refine ⟨_, ?_, List.eraseP_sublist (p := fun node => node.line = line), fun htemp => ?_⟩
      · have hlist : (hist.histAdd line false).list = _ := stifled_list _
        simpa [listAdd, hstifle, hfresh] using hlist
      · exact absurd htemp Bool.false_ne_true
  rw [hadd]
  split
  · rename_i hlong
    rw [List.length_append, List.length_singleton] at hlong
    obtain ⟨first, second, kept, rfl⟩ : ∃ first second rest, kept = first :: second :: rest := by
      rcases kept with _ | ⟨first, _ | ⟨second, rest⟩⟩
      · exact absurd hlong (by decide)
      · exact absurd hlong (by simp)
      · exact ⟨first, second, rest, rfl⟩
    refine ⟨second :: kept, rfl, (List.sublist_cons_self _ _).trans hsub, fun htemp => ?_⟩
    rw [← hlast htemp, List.getLast?_cons_cons]
  · exact ⟨kept, rfl, hsub, fun htemp => by rw [hlast htemp]⟩

theorem histAdd_fresh (hist : Hist) (line : Bytes) (temp : Bool) :
    (hist.histAdd line temp).fresh = hist.fresh + 1 := by
  have hstifled : ∀ hist : Hist, hist.stifled.fresh = hist.fresh := by
    intro hist
    unfold stifled
    split <;> rfl
  cases temp <;> exact hstifled _

theorem Linked.histAdd (h : hist.Linked) (hline : 0 ∉ line) (temp : Bool) :
    (hist.histAdd line temp).Linked := by
  obtain ⟨kept, hlist, hsub, -⟩ := h.histAdd_list line temp
  have hreset := h.histPosReset
  have hkept : ∀ node ∈ kept, node.temporary = false :=
    fun node hnode => h.settled node (hsub.subset hnode)
  have hfresh : ∀ node ∈ kept, node.addr < hist.fresh :=
    fun node hnode => hreset.fresh node (hsub.subset hnode)
  constructor
  · rw [hlist, List.pairwise_append]
    refine ⟨hreset.sorted.sublist hsub, List.pairwise_singleton _ _, fun node hnode last hlast => ?_⟩
    rw [List.mem_singleton.mp hlast]
    exact hfresh node hnode
  · rw [hlist, histAdd_fresh]
    intro node hnode
    rcases List.mem_append.mp hnode with hold | hnew
    · exact Nat.lt_succ_of_lt (hfresh node hold)
    · rw [List.mem_singleton.mp hnew]
      exact Nat.lt_succ_self _
  · rw [hlist]
    intro node hnode
    rcases List.mem_append.mp hnode with hold | hnew
    · exact hreset.noNul node (hsub.subset hold)
    · rw [List.mem_singleton.mp hnew]
      exact hline
  · intro htemp
    rw [histAdd_temp] at htemp
    exact ⟨kept, _, hlist, htemp⟩
  · intro node hnode
    unfold Hist.histPosReset at hnode
    rw [histAdd_temp, hlist, List.dropLast_concat] at hnode
    cases temp with
    | true => exact hkept node hnode
    | false =>
      rcases List.mem_append.mp hnode with hold | hnew
      · exact hkept node hold
      · rw [List.mem_singleton.mp hnew]
  · exact fun addr haddr => absurd haddr (by simp)
  · rw [histAdd_stifle, h.stifle]

/-- The position goes to an entry. -/
theorem Linked.withPos (h : hist.Linked) {pos : Option ℕ} (htemp : pos ≠ none → hist.temp = true)
    (hpos : ∀ addr, pos = some addr → ∃ node ∈ hist.list, node.addr = addr) :
    Linked { hist with pos } :=
  ⟨h.sorted, h.fresh, h.noNul, h.temp, h.settled,
    fun addr (haddr : pos = some addr) => ⟨htemp (by simp [haddr]), hpos addr haddr⟩, h.stifle⟩

theorem Linked.histPosUp (h : hist.Linked) (htemp : hist.temp = true) : hist.histPosUp.Linked := by
  have hnode := hist.histPosUp_position fun addr haddr => (h.pos addr haddr).2
  obtain ⟨pos, hup⟩ := histPosUp_spec hist
  rw [hup] at hnode ⊢
  exact h.withPos (fun _ => htemp) hnode

theorem Linked.histPosDown (h : hist.Linked) : hist.histPosDown.Linked := by
  have hnode := hist.histPosDown_position fun addr haddr => (h.pos addr haddr).2
  have htemp : hist.histPosDown.pos ≠ none → hist.temp = true := by
    intro hpos
    cases hold : hist.pos with
    | none => exact absurd (by simp [Hist.histPosDown, hold]) hpos
    | some addr => exact (h.pos addr hold).1
  obtain ⟨pos, hdown⟩ := histPosDown_spec hist
  rw [hdown] at hnode htemp ⊢
  exact h.withPos htemp hnode

/-- A position has a line. -/
theorem Linked.histPos_of_pos (h : hist.Linked) {addr : ℕ} (hpos : hist.pos = some addr) :
    ∃ node ∈ hist.list, node.addr = addr ∧ hist.histPos = some node.line := by
  obtain ⟨-, node, hnode, rfl⟩ := h.pos addr hpos
  refine ⟨node, hnode, rfl, ?_⟩
  rw [Hist.histPos, hpos]
  exact data_of_mem h.sorted hnode

theorem Linked.histPos_noNul (h : hist.Linked) {text : Bytes} (htext : hist.histPos = some text) :
    0 ∉ text := by
  obtain ⟨addr, -, hdata⟩ := Option.bind_eq_some_iff.mp htext
  obtain ⟨node, hnode, rfl⟩ := Option.map_eq_some_iff.mp hdata
  exact h.noNul node (List.mem_of_find?_eq_some hnode)

/-- While an entry is browsed the Up key goes on from it. -/
theorem Linked.tinyrlKeyUp_browsing (h : hist.Linked) {addr : ℕ} (hpos : hist.pos = some addr)
    (line : Bytes) : (hist.tinyrlKeyUp line).1 = hist.histPosUp := by
  obtain ⟨node, -, -, hhas⟩ := h.histPos_of_pos hpos
  unfold tinyrlKeyUp
  rw [if_neg (by simp [hhas])]

theorem tinyrlKeyUp_fresh (hpos : hist.pos = none) (line : Bytes) :
    (hist.tinyrlKeyUp line).1 = (hist.histAdd line true).histPosUp.histPosUp := by
  unfold tinyrlKeyUp
  rw [if_pos (by simp [Hist.histPos, hpos])]

theorem Linked.tinyrlKeyUp (h : hist.Linked) (hline : 0 ∉ line) :
    (hist.tinyrlKeyUp line).1.Linked := by
  cases hpos : hist.pos with
  | none =>
    have hadd := h.histAdd hline true
    have htemp : (hist.histAdd line true).temp = true := histAdd_temp _ _ _
    obtain ⟨pos, hup⟩ := histPosUp_spec (hist.histAdd line true)
    rw [tinyrlKeyUp_fresh hpos]
    refine (hadd.histPosUp htemp).histPosUp ?_
    rw [hup]
    exact htemp
  | some addr =>
    rw [h.tinyrlKeyUp_browsing hpos]
    exact h.histPosUp (h.pos addr hpos).1

/-- From the end of the history the Up key stores the line and gives the newest real entry, and the
Down key gives the line back. -/
theorem Linked.tinyrlKeyUp_first (h : hist.Linked) (hpos : hist.pos = none) (hline : 0 ∉ line) :
    (hist.tinyrlKeyUp line).2 = some (hist.real.getLast?.getD line) ∧
      (hist.tinyrlKeyUp line).1.snapshot = some line ∧
      (hist.tinyrlKeyUp line).1.tinyrlKeyDown.2.getD (hist.real.getLast?.getD line) = line := by
  obtain ⟨kept, hlist, -, hlast⟩ := h.histAdd_list line true
  have hadd := h.histAdd hline true
  have hlinked := h.tinyrlKeyUp hline
  have hreal : hist.real.getLast? = kept.getLast?.map (·.line) := by
    rw [h.real_eq, List.getLast?_map, hlast rfl]
  have hstart : (hist.histAdd line true).histPosUp =
      { hist.histAdd line true with pos := some hist.fresh } := by
    have htail : tail (hist.histAdd line true).list = some hist.fresh := by
      rw [tail, hlist]
      simp
    unfold Hist.histPosUp
    simp only [histAdd_pos, htail]
  have hsorted := hadd.sorted
  rw [hlist] at hsorted
  have hup : (hist.tinyrlKeyUp line).1 = { hist.histAdd line true with
      pos := some ((kept.getLast?.map (·.addr)).getD hist.fresh) } := by
    have hprev := prevNode_last hsorted
    rw [← hlist] at hprev
    rw [tinyrlKeyUp_fresh hpos, hstart, Hist.histPosUp]
    simp only [hprev]
  have hgives : (hist.tinyrlKeyUp line).2 = (hist.tinyrlKeyUp line).1.histPos := rfl
  have hdown : (hist.tinyrlKeyUp line).1.tinyrlKeyDown.2 =
      (nextNode ((kept.getLast?.map (·.addr)).getD hist.fresh)
        (kept ++ [⟨hist.fresh, line, true⟩])).bind (data (kept ++ [⟨hist.fresh, line, true⟩])) := by
    rw [hup]
    simp only [tinyrlKeyDown, Hist.histPosDown, Hist.histPos, hlist]
  have hsnapshot : (hist.tinyrlKeyUp line).1.snapshot = some line := by
    rw [hup, snapshot]
    simp [hlist]
  rw [hgives, hdown, hreal]
  refine ⟨?_, hsnapshot, ?_⟩
  · rw [hup, Hist.histPos]
    simp only [Option.bind_some, hlist]
    cases hkept : kept.getLast? with
    | none =>
      have hmem : (⟨hist.fresh, line, true⟩ : HistNode) ∈ kept ++ [⟨hist.fresh, line, true⟩] := by
        simp
      exact data_of_mem hsorted hmem
    | some node =>
      have hmem : node ∈ kept ++ [⟨hist.fresh, line, true⟩] :=
        List.mem_append_left _ (List.mem_of_getLast? hkept)
      exact data_of_mem hsorted hmem
  · cases hkept : kept.getLast? with
    | none =>
      rw [List.getLast?_eq_none_iff.mp hkept]
      rfl
    | some node =>
      obtain ⟨kept', rfl⟩ := List.getLast?_eq_some_iff.mp hkept
      rw [List.append_assoc, List.singleton_append] at hsorted ⊢
      have hnext := nextNode_last hsorted
      simp only [Option.map_some, Option.getD_some]
      rw [hnext, Option.bind_some]
      have hdata := data_of_mem hsorted
        (by simp : (⟨hist.fresh, line, true⟩ : HistNode) ∈ kept' ++ [node, ⟨hist.fresh, line, true⟩])
      rw [hdata]
      rfl

theorem Linked.listAdd (h : hist.Linked) (htemp : hist.temp = false) (hline : 0 ∉ line) :
    (hist.listAdd line false).Linked := by
  have hreset : hist.histPosReset.list = hist.list := by simp [Hist.histPosReset, htemp]
  have hsettled := h.settled
  rw [hreset] at hsettled
  have hmem : ∀ node ∈ hist.list ++ [⟨hist.fresh, line, false⟩], node ∈ hist.list ∨
      node = ⟨hist.fresh, line, false⟩ := by
    intro node hnode
    exact (List.mem_append.mp hnode).imp_right List.mem_singleton.mp
  constructor
  · simp only [Hist.listAdd, List.pairwise_append]
    refine ⟨h.sorted, List.pairwise_singleton _ _, fun node hnode last hlast => ?_⟩
    rw [List.mem_singleton.mp hlast]
    exact h.fresh node hnode
  · intro node hnode
    rcases hmem node hnode with hold | rfl
    · exact Nat.lt_succ_of_lt (h.fresh node hold)
    · exact Nat.lt_succ_self _
  · intro node hnode
    rcases hmem node hnode with hold | rfl
    · exact h.noNul node hold
    · exact hline
  · exact fun hyes => absurd (htemp.symm.trans hyes) Bool.false_ne_true
  · intro node hnode
    simp only [Hist.histPosReset, Hist.listAdd, htemp, Bool.false_eq_true, if_false] at hnode
    rcases hmem node hnode with hold | rfl
    · exact hsettled node hold
    · rfl
  · intro addr haddr
    obtain ⟨hyes, -⟩ := h.pos addr haddr
    exact absurd (htemp.symm.trans hyes) Bool.false_ne_true
  · exact h.stifle

theorem Linked.restoreLines (h : hist.Linked) (htemp : hist.temp = false) (count : ℕ)
    (rest : List Bytes) : (Hist.restoreLines hist count rest).Linked := by
  induction rest generalizing hist count with
  | nil => exact h
  | cons line rest ih =>
    rw [Hist.restoreLines]
    split
    · refine ih (h.listAdd htemp fun hmem => ?_) htemp (count + 1)
      have hall := List.all_eq_true.mp List.all_takeWhile 0 hmem
      simp at hall
    · exact h

theorem histNew_linked (fname : Option String) : (histNew fname 100).Linked :=
  ⟨List.Pairwise.nil, by simp [histNew], by simp [histNew], by simp [histNew],
    by simp [histNew, Hist.histPosReset], by simp [histNew], rfl⟩

theorem histRestore_linked (fname : Option String) (file : Option Bytes) :
    ((histNew fname 100).histRestore file).2.Linked := by
  have hnew := histNew_linked fname
  unfold histRestore
  split
  · exact hnew
  · cases file with
    | none => exact hnew
    | some content => exact hnew.restoreLines rfl 0 _

end Hist

end Klish
