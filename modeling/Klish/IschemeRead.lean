import Klish.IschemeDeploy
import Klish.IschemeLegal

/-!
# Reading a deployed scheme

The declaration that the emitted text of a legal scheme denotes. There is none if an ENTRY that is
not a link has hotkeys. Of a link only the name, the help and the reference are declared.
-/

namespace Klish

variable (conv : FauxConv)

def KpluginDecl.declare (k : KpluginDecl) : Iplugin where
  name := k.name
  id := k.id
  file := k.file
  conf := k.conf

def KactionDecl.declare (a : KactionDecl) : Iaction where
  sym := a.symRef
  lock := a.lock
  interrupt := conv.bool2str a.interrupt
  inp := toText KactionIo.spellings a.inp
  out := toText KactionIo.spellings a.out
  execOn := toText KactionCond.spellings a.execOn
  updateRetcode := conv.bool2str a.updateRetcode
  permanent := conv.tri2str a.permanent
  sync := conv.tri2str a.sync
  script := a.script

def Kentry.isLink (e : Kentry) : Bool := !strIsEmpty e.refStr

/-- The attributes that are declared for every ENTRY. -/
def Kentry.declareLink (e : Kentry) : IentryData :=
  { IentryData.null with name := e.name, help := e.help, ref := e.refStr }

def Kentry.declareOwn (e : Kentry) : IentryData :=
  { e.declareLink with
    container := conv.bool2str e.container
    mode := toText KentryMode.spellings e.mode
    purpose := toText KentryPurpose.spellings e.purpose
    min := unsignedToText e.min
    max := unsignedToText e.max
    value := e.value
    restore := conv.bool2str e.restore
    transparent := conv.bool2str e.transparent
    order := conv.bool2str e.order
    filter := toText KentryFilter.spellings e.filter }

mutual

/-- The declaration of an ENTRY, if its text denotes one. -/
def declare : KentryTree → Option Ientry
  | .node k nested =>
    if k.entry.isLink then some (.node k.entry.declareLink [])
    else if k.hotkeys.isEmpty then
      (declares nested).map fun is =>
        .node { k.entry.declareOwn conv with actions := k.actions.map (·.declare conv) } is
    else none

def declares : List KentryTree → Option (List Ientry)
  | [] => some []
  | t :: ts => (declare t).bind fun i => (declares ts).map fun is => i :: is

end

theorem declares_eq_mapM (ts : List KentryTree) : declares conv ts = ts.mapM (declare conv) := by
  induction ts with
  | nil => rfl
  | cons t ts ih =>
    rw [declares, ih, List.mapM_cons]
    cases declare conv t <;> cases ts.mapM (declare conv) <;> rfl

theorem entrysDeploy_eq_map (ts : List KentryTree) : entrysDeploy conv ts = ts.map (ientryDeploy conv) := by
  induction ts with
  | nil => rfl
  | cons t ts ih => rw [entrysDeploy, ih, List.map_cons]

section Tokens

variable {frames : List Frame} {frame : Frame}

@[simp] theorem readTokens_nil : readTokens [] frames = some frames := rfl

theorem readTokens_cons (token : Token) (tokens : List Token) :
    readTokens (token :: tokens) frames = (readToken frames token).bind (readTokens tokens) := rfl

theorem readTokens_append (tokens tokens' : List Token) :
    readTokens (tokens ++ tokens') frames = (readTokens tokens frames).bind (readTokens tokens') :=
  List.foldlM_append ..

/-- An attribute is read into a field that has not been set. -/
theorem readTokens_attr {field : String} {value : Option String} (hvalue : value ≠ some "")
    (hnull : frame.set field none = some frame) :
    readTokens (attr2ctext field value) (frame :: frames) =
      (frame.set field value).map (· :: frames) := by
  cases value with
  | none => simp [attr2ctext, hnull]
  | some s =>
    have hs : s.isEmpty = false := by simpa using hvalue
    rw [attr2ctext, hs]
    cases hset : frame.set field (some s) <;> simp [readTokens_cons, readToken, hset]

theorem toText_ne_empty {α : Type} [DecidableEq α] {spellings : List (String × α)}
    (hspell : "" ∉ spellings.map Prod.fst) (a : α) : toText spellings a ≠ some "" := by
  intro h
  obtain ⟨⟨t, b⟩, hfind, rfl⟩ := Option.map_eq_some_iff.mp h
  exact hspell (List.mem_map_of_mem (List.mem_of_find?_eq_some hfind))

variable {α β : Type} {toks : α → List Token} {decl : α → Option β} (wrap : List β → Frame)

/-- Objects that are each read as one element of a list. -/
theorem readTokens_flatten {as : List α} (hobj : ∀ a ∈ as, ∀ list,
    readTokens (toks a) (wrap list :: frames) =
      (decl a).map fun b => wrap (list ++ [b]) :: frames) (list : List β) :
    readTokens (as.map toks).flatten (wrap list :: frames) =
      (as.mapM decl).map fun bs => wrap (list ++ bs) :: frames := by
  induction as generalizing list with
  | nil => simp
  | cons a as ih =>
    rw [List.map_cons, List.flatten_cons, readTokens_append, hobj a List.mem_cons_self]
    cases ha : decl a with
    | none => simp [List.mapM_cons, ha]
    | some b =>
      have hrest := ih (fun a' ha' => hobj a' (List.mem_cons_of_mem a ha')) (list ++ [b])
      cases hbs : as.mapM decl <;> simp [List.mapM_cons, ha, hbs, hrest]

/-- A list is read into a field that has not been set. -/
theorem readTokens_list (into : List β → Frame) {as : List α} {macro' endMacro : String}
    (hobj : ∀ a ∈ as, ∀ list, readTokens (toks a) (wrap list :: into [] :: frames) =
      (decl a).map fun b => wrap (list ++ [b]) :: into [] :: frames)
    (hopen : (into []).openList macro' = some (wrap []))
    (hclose : ∀ list, (wrap list).close (into []) = some (into list))
    (hlist : ∀ list, (wrap list).isList) (hend : endMacro ∈ endMacros) :
    readTokens (listToText macro' endMacro (as.map toks)) (into [] :: frames) =
      (as.mapM decl).map fun bs => into bs :: frames := by
  cases as with
  | nil => simp [listToText]
  | cons a as =>
    have hobjs := readTokens_flatten wrap hobj []
    have hopened : listToText macro' endMacro ((a :: as).map toks) =
        .openList macro' :: (((a :: as).map toks).flatten ++ [.closeList endMacro]) := rfl
    rw [hopened, readTokens_cons, readToken, hopen, Option.map_some, Option.bind_some,
      readTokens_append, hobjs]
    cases (a :: as).mapM decl with
    | none => rfl
    | some bs => simp [readTokens_cons, readToken, hlist, hend, hclose]

/-- An object is read as one element of a list. -/
theorem readTokens_obj (into : β → Frame) {list' : β → Frame} {macro' : String}
    {tokens : List Token} {obj : Frame} {read : Option β} (hopen : frame.openObj macro' = some obj)
    (htokens : readTokens tokens (obj :: frame :: frames) =
      read.map fun b => into b :: frame :: frames)
    (hobj : ∀ b, (into b).isList = false) (hclose : ∀ b, (into b).close frame = some (list' b)) :
    readTokens (.openObj macro' :: tokens ++ [.closeObj]) (frame :: frames) =
      read.map fun b => list' b :: frames := by
  rw [List.cons_append, readTokens_cons, readToken, hopen, Option.map_some, Option.bind_some,
    readTokens_append, htokens]
  cases read with
  | none => rfl
  | some b => simp [readTokens_cons, readToken, hobj, hclose]

theorem ipluginDeploy_read {k : KpluginDecl} (h : k.Legal) (list : List Iplugin) :
    readTokens (ipluginDeploy k) (.plugins list :: frames) =
      some (.plugins (list ++ [k.declare]) :: frames) := by
  have hattrs : readTokens (attr2ctext "name" k.name ++ attr2ctext "id" k.id ++
      attr2ctext "file" k.file ++ attr2ctext "conf" k.conf)
      (.plugin .null :: .plugins list :: frames) =
        (some k.declare).map fun i => .plugin i :: .plugins list :: frames := by
    simp [readTokens_append, readTokens_attr, h.name, h.id, h.file, h.conf, Frame.set, Iplugin.set,
      Iplugin.null, KpluginDecl.declare]
  exact readTokens_obj .plugin rfl hattrs (fun _ => rfl) fun _ => rfl

variable {conv : FauxConv}

theorem iactionDeploy_read (hinv : conv.Inverse) {a : KactionDecl} (h : a.Legal conv)
    (list : List Iaction) :
    readTokens (iactionDeploy conv a) (.actions list :: frames) =
      some (.actions (list ++ [a.declare conv]) :: frames) := by
  have hbool : ∀ b, conv.bool2str b ≠ "" := fun b => (hinv.bool b).1
  have hpermanent : conv.tri2str a.permanent ≠ "" := (hinv.tri _ h.permanent).1
  have hsync : conv.tri2str a.sync ≠ "" := (hinv.tri _ h.sync).1
  have hio : ∀ io, toText KactionIo.spellings io ≠ some "" := toText_ne_empty (by decide)
  have hcond : ∀ c, toText KactionCond.spellings c ≠ some "" := toText_ne_empty (by decide)
  have hattrs : readTokens (attr2ctext "sym" a.symRef ++ attr2ctext "lock" a.lock ++
      attr2ctext "interrupt" (conv.bool2str a.interrupt) ++
      attr2ctext "in" (toText KactionIo.spellings a.inp) ++
      attr2ctext "out" (toText KactionIo.spellings a.out) ++
      attr2ctext "exec_on" (toText KactionCond.spellings a.execOn) ++
      attr2ctext "update_retcode" (conv.bool2str a.updateRetcode) ++
      attr2ctext "permanent" (conv.tri2str a.permanent) ++
      attr2ctext "sync" (conv.tri2str a.sync) ++ attr2ctext "script" a.script)
      (.action .null :: .actions list :: frames) =
        (some (a.declare conv)).map fun i => .action i :: .actions list :: frames := by
    simp [readTokens_append, readTokens_attr, h.symRef, h.lock, h.script, hbool, hpermanent,
      hsync, hio, hcond, Frame.set, Iaction.set, Iaction.null, KactionDecl.declare]
  exact readTokens_obj .action rfl hattrs (fun _ => rfl) fun _ => rfl

/-- The attributes that every ENTRY has in its text. -/
theorem linkAttributes_read {e : Kentry} (h : e.Legal) :
    readTokens (attr2ctext "name" e.name ++ attr2ctext "help" e.help ++ attr2ctext "ref" e.refStr)
      (.entry .null [] :: frames) = some (.entry e.declareLink [] :: frames) := by
  simp [readTokens_append, readTokens_attr, h.name, h.help, h.refStr, Frame.set, IentryData.set,
    IentryData.null, Kentry.declareLink]

theorem unsignedToText_ne_empty (n : ℕ) : unsignedToText n ≠ "" := Nat.repr_ne_empty

theorem ownAttributes_read (hinv : conv.Inverse) {e : Kentry} (h : e.Legal) :
    readTokens (ownAttributes conv e) (.entry e.declareLink [] :: frames) =
      some (.entry (e.declareOwn conv) [] :: frames) := by
  have hbool : ∀ b, conv.bool2str b ≠ "" := fun b => (hinv.bool b).1
  have hmode : ∀ m, toText KentryMode.spellings m ≠ some "" := toText_ne_empty (by decide)
  have hpurpose : ∀ p, toText KentryPurpose.spellings p ≠ some "" := toText_ne_empty (by decide)
  have hfilter : ∀ f, toText KentryFilter.spellings f ≠ some "" := toText_ne_empty (by decide)
  rw [ownAttributes]
  simp [readTokens_append, readTokens_attr, h.value, hbool, hmode, hpurpose, hfilter,
    unsignedToText_ne_empty, Frame.set, IentryData.set, IentryData.null, Kentry.declareLink,
    Kentry.declareOwn]

/-- Hotkeys are read only if there are none. -/
theorem hotkeys_read (i : IentryData) (nested : List Ientry)
    (hotkeys : List Khotkey) :
    readTokens (listToText "HOTKEY_LIST" "END_HOTKEY_LIST" (hotkeys.map ihotkeyDeploy))
      (.entry i nested :: frames) =
        if hotkeys.isEmpty then some (.entry i nested :: frames) else none := by
  cases hotkeys with
  | nil => rfl
  | cons h hotkeys => rfl

theorem actions_read (hinv : conv.Inverse) {actions : List KactionDecl}
    (h : ∀ a ∈ actions, a.Legal conv) {i : IentryData} (hi : i.actions = []) (nested : List Ientry) :
    readTokens (listToText "ACTION_LIST" "END_ACTION_LIST" (actions.map (iactionDeploy conv)))
      (.entry i nested :: frames) =
        some (.entry { i with actions := actions.map (·.declare conv) } nested :: frames) := by
  have hnull : Frame.entry { i with actions := [] } nested = .entry i nested := by rw [← hi]
  have hdecl : actions.mapM (fun a => some (a.declare conv)) =
      some (actions.map (·.declare conv)) := List.mapM_pure
  have hread : readTokens
      (listToText "ACTION_LIST" "END_ACTION_LIST" (actions.map (iactionDeploy conv)))
      (.entry { i with actions := [] } nested :: frames) =
        (actions.mapM fun a => some (a.declare conv)).map fun list =>
          .entry { i with actions := list } nested :: frames :=
    readTokens_list .actions (fun list => .entry { i with actions := list } nested)
      (fun a ha list => iactionDeploy_read hinv (h a ha) list) rfl (fun _ => rfl) (fun _ => rfl)
      (by decide)
  rw [← hnull, hread, hdecl, Option.map_some]

theorem entrys_read {nested : List KentryTree} (h : ∀ t ∈ nested, ∀ (list : List Ientry) frames,
    readTokens (ientryDeploy conv t) (.entrys list :: frames) =
      (declare conv t).map fun i => .entrys (list ++ [i]) :: frames) (i : IentryData) :
    readTokens (listToText "ENTRY_LIST" "END_ENTRY_LIST" (entrysDeploy conv nested))
      (.entry i [] :: frames) = (declares conv nested).map fun is => .entry i is :: frames := by
  rw [entrysDeploy_eq_map, declares_eq_mapM]
  exact readTokens_list .entrys (.entry i) (fun t ht list => h t ht list _) rfl
    (fun _ => rfl) (fun _ => rfl) (by decide)

/-- The text of an ENTRY is read as its declaration. -/
theorem ientryDeploy_read (hinv : conv.Inverse) {t : KentryTree} (h : t.Legal conv)
    (list : List Ientry) (frames : List Frame) :
    readTokens (ientryDeploy conv t) (.entrys list :: frames) =
      (declare conv t).map fun i => .entrys (list ++ [i]) :: frames := by
  induction t using Rose.ind generalizing list frames with
  | hnode k nested ih =>
    have hlegal : k.Legal conv := h.root.1
    have hnested := fun t ht => ih t ht (h.child ht)
    have hclose : ∀ i : Ientry, (Frame.entry i.label i.children).close (.entrys list) =
        some (.entrys (list ++ [i])) := by
      rintro ⟨i, is⟩
      rfl
    rw [ientryDeploy]
    refine readTokens_obj (fun i => .entry i.label i.children) rfl ?_ (fun _ => rfl) hclose
    rw [readTokens_append, linkAttributes_read hlegal.entry, Option.bind_some, declare, Kentry.isLink]
    cases hlink : strIsEmpty k.entry.refStr with
    | false => rfl
    | true =>
      simp only [Bool.not_true, Bool.false_eq_true, if_false, if_true]
      rw [readTokens_append, readTokens_append, readTokens_append, ownAttributes_read hinv hlegal.entry,
        Option.bind_some, entrys_read hnested]
      cases declares conv nested with
      | none => cases k.hotkeys <;> rfl
      | some is =>
        simp only [Option.map_some, Option.bind_some]
        rw [actions_read hinv hlegal.actions rfl, Option.bind_some, hotkeys_read]
        cases k.hotkeys <;> rfl

theorem plugins_read {plugins : List KpluginDecl} (h : ∀ k ∈ plugins, k.Legal) :
    readTokens (listToText "PLUGIN_LIST" "END_PLUGIN_LIST" (plugins.map ipluginDeploy))
      (.scheme ⟨[], []⟩ :: frames) =
        some (.scheme ⟨[], plugins.map KpluginDecl.declare⟩ :: frames) := by
  have hdecl : plugins.mapM (fun k => some k.declare) = some (plugins.map KpluginDecl.declare) :=
    List.mapM_pure
  have hread : readTokens (listToText "PLUGIN_LIST" "END_PLUGIN_LIST" (plugins.map ipluginDeploy))
      (.scheme ⟨[], []⟩ :: frames) =
        (plugins.mapM fun k => some k.declare).map fun list => .scheme ⟨[], list⟩ :: frames :=
    readTokens_list .plugins (fun list => .scheme ⟨[], list⟩)
      (fun k hk list => ipluginDeploy_read (h k hk) list) rfl (fun _ => rfl) (fun _ => rfl)
      (by decide)
  rw [hread, hdecl, Option.map_some]

end Tokens

/-- The text of a scheme is read as the declarations of its PLUGINs and ENTRYs. -/
theorem readScheme_deploy {conv : FauxConv} (hinv : conv.Inverse) {s : KschemeTree}
    (h : s.Legal conv) : readScheme (ischemeDeploy conv s) =
      (declares conv s.entrys).map fun is => ⟨is, s.plugins.map KpluginDecl.declare⟩ := by
  have hentrys : readTokens
      (listToText "ENTRY_LIST" "END_ENTRY_LIST" (s.entrys.map (ientryDeploy conv)))
      [.scheme ⟨[], s.plugins.map KpluginDecl.declare⟩] =
        (s.entrys.mapM (declare conv)).map fun is =>
          [.scheme ⟨is, s.plugins.map KpluginDecl.declare⟩] :=
    readTokens_list .entrys (fun is => .scheme ⟨is, s.plugins.map KpluginDecl.declare⟩)
      (fun t ht list => ientryDeploy_read hinv (h.entrys t ht) list _) rfl (fun _ => rfl)
      (fun _ => rfl) (by decide)
  have hread : readTokens (listToText "PLUGIN_LIST" "END_PLUGIN_LIST" (s.plugins.map ipluginDeploy) ++
      listToText "ENTRY_LIST" "END_ENTRY_LIST" (entrysDeploy conv s.entrys)) [.scheme ⟨[], []⟩] =
        (declares conv s.entrys).map fun is =>
          [.scheme ⟨is, s.plugins.map KpluginDecl.declare⟩] := by
    rw [readTokens_append, plugins_read h.plugins, Option.bind_some, entrysDeploy_eq_map, hentrys,
      declares_eq_mapM]
  rw [ischemeDeploy, List.cons_append, readScheme, List.getLast?_concat, List.dropLast_concat]
  simp only [hread]
  cases declares conv s.entrys <;> rfl

end Klish
