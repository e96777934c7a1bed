import Klish.ClientHotkeys
import Klish.KtpdTells
import Klish.Lib.Runs

/-!
# Hotkeys at both ends

The server sends the hotkeys of a path that it thinks the client does not know, each as a parameter.
The client replaces its table only if there is such a parameter. So the table of an old path stays
when the new one has no hotkeys.
-/

namespace Klish

/-- A C string: no character is the zero byte or more than a byte. -/
def CText (s : String) : Prop := ∀ c ∈ s.toList, 0 < c.toNat ∧ c.toNat < 256

/-- What the lists of a scheme guarantee of its hotkeys. -/
structure Kscheme.HotkeysWell (scheme : Kscheme) : Prop where
  /-- The list of a view is `FAUX_LIST_UNIQUE` by the key. -/
  unique : ∀ view, ((scheme.bodyOf view).hotkeys.map Khotkey.key).Nodup
  text : ∀ view, ∀ hotkey ∈ (scheme.bodyOf view).hotkeys, CText hotkey.key ∧ CText hotkey.cmd

/-- The command that a path defines for a key: that of the innermost level that declares it. -/
def definedHotkeys (scheme : Kscheme) (path : Kpath) (code : ℕ) : Option String :=
  (path.levels.reverse.findSome? fun view =>
    (scheme.bodyOf view).hotkeys.find? fun hotkey => hotkeyDecode hotkey.key == some code).map
      Khotkey.cmd

section Text

variable {s : String}

theorem byte_ne_zero {c : Char} (h : 0 < c.toNat ∧ c.toNat < 256) : UInt8.ofNat c.toNat ≠ 0 := by
  intro hzero
  have hnat := congrArg UInt8.toNat hzero
  simp at hnat
  omega

theorem char_of_byte {c : Char} (h : 0 < c.toNat ∧ c.toNat < 256) :
    Char.ofNat (UInt8.ofNat c.toNat).toNat = c := by
  have hnat : (UInt8.ofNat c.toNat).toNat = c.toNat := by
    simp
    omega
  rw [hnat, Char.ofNat_toNat]

theorem cbytes_ne_zero (h : CText s) : ∀ b ∈ cbytes s, decide (b ≠ 0) = true := by
  intro b hb
  obtain ⟨c, hc, rfl⟩ := List.mem_map.mp hb
  exact decide_eq_true (byte_ne_zero (h c hc))

theorem cstr_of_takeWhile {data : Bytes} (h : CText s)
    (hdata : data.takeWhile (· ≠ 0) = cbytes s) : cstr data = s := by
  have hchars : (cbytes s).map (fun b => Char.ofNat b.toNat) = s.toList := by
    rw [cbytes, List.map_map]
    exact (List.map_congr_left fun c hc => char_of_byte (h c hc)).trans (List.map_id _)
  rw [cstr, hdata, hchars, String.ofList_toList]

theorem takeWhile_cbytes (h : CText s) : (cbytes s).takeWhile (· ≠ 0) = cbytes s := by
  have happend := @List.takeWhile_append_of_pos _ (fun b : UInt8 => decide (b ≠ 0)) _ []
    (cbytes_ne_zero h)
  simpa using happend

theorem takeWhile_hotkeyData {hotkey : Khotkey} (h : CText hotkey.key) :
    (Ktpd.hotkeyData hotkey).takeWhile (· ≠ 0) = cbytes hotkey.key := by
  rw [Ktpd.hotkeyData, List.takeWhile_append_of_pos (cbytes_ne_zero h), List.takeWhile_cons_of_neg]
  · exact List.append_nil _
  · simp

end Text

section Table

variable {hotkey : Khotkey} {hotkeys : List Khotkey} {table : ℕ → Option String} {code : ℕ}

/-- Two keys with one code are the same key. -/
theorem hotkeyDecode_inj {a b : String} (ha : hotkeyDecode a = some code)
    (hb : hotkeyDecode b = some code) : a = b := by
  obtain ⟨hlt, hfirst, -⟩ := List.findIdx?_eq_some_iff_getElem.mp ha
  obtain ⟨hlt', hsecond, -⟩ := List.findIdx?_eq_some_iff_getElem.mp hb
  exact (beq_iff_eq.mp hfirst).symm.trans (beq_iff_eq.mp hsecond)

/-- Every key that can be decoded has two characters. -/
theorem length_of_hotkeyDecode {key : String} (h : hotkeyDecode key = some code) :
    key.toList.length = 2 := by
  obtain ⟨hlt, hkey, -⟩ := List.findIdx?_eq_some_iff_getElem.mp h
  have hall : ∀ key ∈ hotkeyMap, key.toList.length = 2 := by decide
  rw [← beq_iff_eq.mp hkey]
  exact hall _ (List.getElem_mem hlt)

/-- The client reads the key and the command that the server wrote. -/
theorem setHotkey_hotkeyData (hkey : CText hotkey.key) (hcmd : CText hotkey.cmd) :
    Ctx.setHotkey table (Ktpd.hotkeyData hotkey) =
      match hotkeyDecode hotkey.key with
      | none => table
      | some code => Function.update table code (some hotkey.cmd) := by
  have htake := takeWhile_hotkeyData hkey
  have hdrop : (Ktpd.hotkeyData hotkey).drop ((cbytes hotkey.key).length + 1) =
      cbytes hotkey.cmd := by
    rw [Ktpd.hotkeyData, ← List.drop_drop, List.drop_left]
    rfl
  unfold Ctx.setHotkey
  dsimp only
  rw [htake, hdrop, cstr_of_takeWhile hkey htake, cstr_of_takeWhile hcmd (takeWhile_cbytes hcmd)]
  cases hdecode : hotkeyDecode hotkey.key with
  | none => exact ite_self _
  | some code =>
    have hlength := length_of_hotkeyDecode hdecode
    have hbytes : (cbytes hotkey.key).length = 2 := by
      rw [cbytes, List.length_map, hlength]
    refine if_neg ?_
    have hnil : cbytes hotkey.key ≠ [] := fun hnil => by
      rw [hnil] at hbytes
      cases hbytes
    simp only [Ktpd.hotkeyData, List.length_append, List.length_cons, hbytes, List.isEmpty_iff,
      hnil, Bool.or_eq_true, decide_eq_true_eq, or_false]
    omega

/-- Reading hotkeys of different keys gives the table of the list. -/
theorem foldl_setHotkey (htext : ∀ hotkey ∈ hotkeys, CText hotkey.key ∧ CText hotkey.cmd)
    (hnodup : (hotkeys.map Khotkey.key).Nodup) (table : ℕ → Option String) (code : ℕ) :
    ((hotkeys.map Ktpd.hotkeyData).foldl Ctx.setHotkey table) code =
      ((hotkeys.find? fun hotkey => hotkeyDecode hotkey.key == some code).map Khotkey.cmd).or
        (table code) := by
  induction hotkeys generalizing table with
  | nil => rfl
  | cons hotkey hotkeys ih =>
    obtain ⟨hkey, hcmd⟩ := htext hotkey List.mem_cons_self
    obtain ⟨hnew, hnodup⟩ := List.nodup_cons.mp hnodup
    have hrest := ih (fun h hh => htext h (List.mem_cons_of_mem _ hh)) hnodup
    rw [List.map_cons, List.foldl_cons, hrest, setHotkey_hotkeyData hkey hcmd]
    by_cases hcode : hotkeyDecode hotkey.key = some code
    · -- No later hotkey has this key.
      have hnone : hotkeys.find? (fun hotkey => hotkeyDecode hotkey.key == some code) = none := by
        rw [List.find?_eq_none]
        intro other hother hcode'
        apply hnew
        rw [hotkeyDecode_inj hcode (beq_iff_eq.mp hcode')]
        exact List.mem_map_of_mem hother
      simp [hnone, hcode]
    · rw [List.find?_cons_of_neg (by simpa using hcode)]
      congr 1
      cases hdecode : hotkeyDecode hotkey.key with
      | none => rfl
      | some other =>
        exact Function.update_of_ne (fun heq => hcode (hdecode.trans (congrArg some heq.symm))) _ _

end Table

/-- What a list without repetitions keeps of another. -/
theorem foldl_addUnique (list rest : List Khotkey) (hlist : (list.map Khotkey.key).Nodup) :
    let unique := rest.foldl (fun list hotkey =>
      if list.any fun h => h.key == hotkey.key then list else list ++ [hotkey]) list
    (unique.map Khotkey.key).Nodup ∧ unique ⊆ list ++ rest ∧ ∀ P : String → Bool,
      unique.find? (fun h => P h.key) = (list ++ rest).find? fun h => P h.key := by
  induction rest generalizing list with
  | nil =>
    rw [List.append_nil]
    exact ⟨hlist, List.Subset.refl _, fun _ => rfl⟩
  | cons hotkey rest ih =>
    dsimp only
    rw [List.foldl_cons]
    split
    · rename_i hany
      obtain ⟨h, hmem, hkey⟩ := List.any_eq_true.mp hany
      obtain ⟨hnodup, hsubset, hfind⟩ := ih list hlist
      refine ⟨hnodup, fun x hx => ?_, fun P => (hfind P).trans ?_⟩
      · rcases List.mem_append.mp (hsubset hx) with hx | hx
        · exact List.mem_append_left _ hx
        · exact List.mem_append_right _ (List.mem_cons_of_mem _ hx)
      · rw [List.find?_append, List.find?_append]
        cases hp : P hotkey.key with
        | false => rw [List.find?_cons_of_neg (by simp [hp])]
        | true =>
          -- The key has been found in the list already.
          have hsome : (list.find? fun h => P h.key).isSome = true := by
            rw [List.find?_isSome]
            exact ⟨h, hmem, by rw [beq_iff_eq.mp hkey, hp]⟩
          obtain ⟨found, hfound⟩ := Option.isSome_iff_exists.mp hsome
          rw [hfound, Option.some_or, Option.some_or]
    · rename_i hany
      have hnew : hotkey.key ∉ list.map Khotkey.key := by
        intro hmem
        obtain ⟨h, hmem, hkey⟩ := List.mem_map.mp hmem
        exact hany (List.any_eq_true.mpr ⟨h, hmem, beq_iff_eq.mpr hkey⟩)
      have hnodup : ((list ++ [hotkey]).map Khotkey.key).Nodup := by
        rw [List.map_append, List.map_singleton]
        exact List.nodup_append.mpr ⟨hlist, List.pairwise_singleton _ _, fun a ha b hb heq =>
          hnew (by rw [← List.mem_singleton.mp hb, ← heq]; exact ha)⟩
      have h := ih (list ++ [hotkey]) hnodup
      rw [List.append_assoc, List.singleton_append] at h
      exact h

namespace Ktpd

variable {scheme : Kscheme} {path : Kpath}

/-- The list of the path, from the innermost level on, but with each key once. -/
theorem pathHotkeys_spec (hwell : scheme.HotkeysWell) (path : Kpath) :
    ((pathHotkeys scheme path).map Khotkey.key).Nodup ∧
    pathHotkeys scheme path ⊆
      (path.levels.reverse.flatMap fun view => (scheme.bodyOf view).hotkeys) ∧
    ∀ P : String → Bool, (pathHotkeys scheme path).find? (fun h => P h.key) =
      (path.levels.reverse.flatMap fun view => (scheme.bodyOf view).hotkeys).find?
        fun h => P h.key := by
  have hunique := foldl_addUnique []
    (path.levels.reverse.flatMap fun view => (scheme.bodyOf view).hotkeys) List.nodup_nil
  unfold pathHotkeys
  split
  · rename_i view hlevels
    rw [hlevels, List.reverse_singleton, List.flatMap_singleton]
    exact ⟨hwell.unique view, List.Subset.refl _, fun _ => rfl⟩
  · exact hunique

/-- A client that reads the hotkeys of a path has the table of the path. -/
theorem read_pathHotkeys (hwell : scheme.HotkeysWell) (path : Kpath) :
    ((pathHotkeys scheme path).map hotkeyData).foldl Ctx.setHotkey (fun _ => none) =
      definedHotkeys scheme path := by
  obtain ⟨hnodup, hsubset, hfind⟩ := pathHotkeys_spec hwell path
  funext code
  rw [foldl_setHotkey (fun hotkey hmem => ?_) hnodup, Option.or_none,
    hfind fun key => hotkeyDecode key == some code, List.find?_flatMap]
  · rfl
  · obtain ⟨view, -, hview⟩ := List.mem_flatMap.mp (hsubset hmem)
    exact hwell.text view hotkey hview

/-- A path without hotkeys defines none. -/
theorem definedHotkeys_eq_none (hwell : scheme.HotkeysWell) (h : pathHotkeys scheme path = []) :
    definedHotkeys scheme path = fun _ => none := by
  rw [← read_pathHotkeys hwell path, h]
  rfl

end Ktpd

open Channel

/-- A client program and a session of the server. Each has the messages that are on their way to the
other. -/
structure Dialogue (env : KtpdEnv) where
  ctx : Ctx
  ktpd : Ktpd env

namespace Dialogue

variable {env : KtpdEnv}

inductive Event where
  /-- The client takes the next message. -/
  | deliver (sys : ClientSys)
  | stdin (event : Ctx.StdinEvent)
  | asyncStdinSent
  | ctrlC
  | sigwinch (width height : ℕ)
  /-- The server takes the next message. -/
  | serve (sys : KtpdSys)
  /-- The event loop of the server calls for another reason. -/
  | server (event : Ktpd.Event) (sys : KtpdSys)

/-- One callback of the client or of the server. -/
def step (s : Dialogue env) : Event → Option (Dialogue env)
  | .deliver sys =>
    match s.ktpd.toClient with
    | [] => none
    | msg :: toClient => some ⟨s.ctx.dispatch msg sys, { s.ktpd with toClient }⟩
  | .stdin event =>
    if s.ctx.stdinWatched then some { s with ctx := (s.ctx.stdinCb event).1 } else none
  | .asyncStdinSent => some { s with ctx := s.ctx.asyncStdinSentCb }
  | .ctrlC => some { s with ctx := s.ctx.ctrlCCb.1 }
  | .sigwinch width height =>
    some { s with ctx := s.ctx.call fun ktp => ktp.sendWinchNotification width height }
  | .serve sys =>
    match s.ctx.ktp.toServer with
    | [] => none
    | msg :: toServer =>
      (s.ktpd.dispatch sys msg).map fun ktpd =>
        ⟨{ s.ctx with ktp := { s.ctx.ktp with toServer } }, ktpd⟩
  | .server (.dispatch _) _ => none
  | .server event sys => (s.ktpd.step (event, sys)).map fun ktpd => { s with ktpd }

/-- The client has just asked for its authorization. -/
def start (opts : ClientOpts) (mode : ClientMode) (commands : List String)
    (files : List (Option Bytes)) (stdin : Bytes) (ttyStdin ttyStdout ttyStderr : Bool)
    (eloop : env.L.State) (world : World) : Dialogue env :=
  ⟨.init opts mode commands files stdin ttyStdin ttyStdout ttyStderr, .new eloop world⟩

/-- A client that has the answer to its last authorization or command has the hotkeys of the
session's path. -/
def Agrees (s : Dialogue env) : Prop :=
  s.ctx.ktp.state.pending ≠ some .auth → s.ctx.ktp.state.pending ≠ some .cmd →
    s.ctx.hotkeys = definedHotkeys env.scheme s.ktpd.world.session.path

/-- The server has not taken the authorization. -/
def unserved (s : Dialogue env) : Bool := s.ctx.ktp.toServer.any fun msg => msg.cmd == .auth

/-- The hotkeys of the path that the server shows. -/
def shownHotkeys (ktpd : Ktpd env) (code : ℕ) : Option String :=
  ktpd.shownPath.bind fun path => definedHotkeys env.scheme path code

/-- The hotkeys that the client is to know when all messages have come. -/
def told (s : Dialogue env) : ℕ → Option String :=
  if s.unserved then fun _ => none else shownHotkeys s.ktpd

/-- The hotkeys of the client when all messages have come. -/
def settled (s : Dialogue env) : ℕ → Option String :=
  s.ktpd.toClient.foldl Ctx.noteHotkeys s.ctx.hotkeys

/-- The hotkeys agree when all messages have come. -/
def WillAgree (s : Dialogue env) : Prop := s.settled = s.told

/-- A step that leaves the session in a path without hotkeys finds it in one that defines none, and
an authorization that is refused does so too. -/
structure Announced (s : Dialogue env) (event : Event) (s' : Dialogue env) : Prop where
  bare : ∀ path, s'.ktpd.shownPath = some path → Ktpd.pathHotkeys env.scheme path = [] →
    s.told = fun _ => none
  refused : ∀ sys, event = .serve sys → sys.peercred = false →
    (∃ msg, s.ctx.ktp.toServer.head? = some msg ∧ msg.cmd = .auth) →
      shownHotkeys s.ktpd = fun _ => none

def Announces (s : Dialogue env) (event : Event) : Prop :=
  ∀ s', s.step event = some s' → s.Announced event s'

variable {s s' : Dialogue env} {h : History}

section SessionCalls

/-- The requests keep their tokens when the client calls its session. -/
theorem inv_calls {ktp ktp' : Ktp} {ktpd : Ktpd env} (hcalls : SessionCalls ktp ktp')
    (hinv : Inv ⟨ktp, ktpd⟩ h) : ∃ h', Inv ⟨ktp', ktpd⟩ h' := by
  induction hcalls with
  | refl => exact ⟨h, hinv⟩
  | @call ktp' _ call hfree _ ih =>
    obtain ⟨h', hinv'⟩ := ih
    refine ⟨_, hinv'.call ?_⟩
    rcases hfree with hnone | hnone
    · rw [hnone]
      exact nofun
    · show ¬ (call.request.isSome && ktp'.state.pending.isSome) = true
      rw [hnone, Option.isSome_none, Bool.and_false]
      exact Bool.false_ne_true
  | done _ ih =>
    obtain ⟨h', hinv'⟩ := ih
    exact ⟨h', hinv'.tokens, hinv'.live, hinv'.unfinished, hinv'.ofCmd, hinv'.order, hinv'.whole,
      hinv'.requested, hinv'.sent, hinv'.commands, hinv'.numbered⟩

theorem calls_unserved {ktp ktp' : Ktp} (hcalls : SessionCalls ktp ktp') :
    ktp'.toServer.any (fun msg => msg.cmd == .auth) =
      ktp.toServer.any fun msg => msg.cmd == .auth := by
  induction hcalls with
  | refl => rfl
  | @call ktp' _ call _ hauth ih =>
    obtain ⟨msg, htoServer, hrequest⟩ := run_toServer ktp' call
    have hcmd : (msg.cmd == .auth) = false := by
      rw [beq_eq_false_iff_ne]
      exact fun hcmd => hauth (hrequest ▸ request_eq_some.mpr hcmd)
    rw [htoServer, List.any_append, ih]
    simp [hcmd]
  | done _ ih => exact ih

end SessionCalls

section Server

variable {ktpd ktpd' : Ktpd env} {hotkeys : ℕ → Option String}

theorem noteHotkeys_bare {msg : KtpMsg} (hbare : Ktpd.Bare msg) :
    Ctx.noteHotkeys hotkeys msg = hotkeys := by
  unfold Ctx.noteHotkeys
  split
  · rename_i hanswer
    refine if_pos (hbare ?_)
    rcases hanswer with hanswer | hanswer
    · exact .inl (answer_eq_some.mp hanswer).1
    · exact .inr (answer_eq_some.mp hanswer).1
  · rfl

theorem foldl_noteHotkeys_bare {out : List KtpMsg} (hbare : ∀ msg ∈ out, Ktpd.Bare msg) :
    out.foldl Ctx.noteHotkeys hotkeys = hotkeys := by
  induction out with
  | nil => rfl
  | cons msg out ih =>
    obtain ⟨hmsg, hout⟩ := List.forall_mem_cons.mp hbare
    rw [List.foldl_cons, noteHotkeys_bare hmsg, ih hout]

theorem foldl_noteHotkeys_of_ne {out : List KtpMsg}
    (hne : ∀ msg ∈ out, msg.answer ≠ some .auth ∧ msg.answer ≠ some .cmd) :
    out.foldl Ctx.noteHotkeys hotkeys = hotkeys := by
  induction out with
  | nil => rfl
  | cons msg out ih =>
    obtain ⟨⟨hauth, hcmd⟩, hout⟩ := List.forall_mem_cons.mp hne
    have hmsg : Ctx.noteHotkeys hotkeys msg = hotkeys := if_neg (not_or.mpr ⟨hauth, hcmd⟩)
    rw [List.foldl_cons, hmsg, ih hout]

/-- Only an empty list of hotkeys is not taken. -/
theorem noteHotkeys_table (hwell : env.scheme.HotkeysWell) {path : Kpath} {ack : KtpMsg}
    (htable : Ktpd.Table env.scheme path ack) :
    Ctx.noteHotkeys hotkeys ack =
      if Ktpd.pathHotkeys env.scheme path = [] then hotkeys
      else definedHotkeys env.scheme path := by
  have hanswer : ack.answer = some .auth ∨ ack.answer = some .cmd := by
    rcases htable.cmd with hcmd | hcmd
    · exact .inl (answer_eq_some.mpr ⟨hcmd, htable.final⟩)
    · exact .inr (answer_eq_some.mpr ⟨hcmd, htable.final⟩)
  unfold Ctx.noteHotkeys
  rw [if_pos hanswer]
  unfold Ctx.readHotkeys
  rw [htable.hotkeys, Ktpd.read_pathHotkeys hwell]
  simp only [List.map_eq_nil_iff]

/-- What the messages of a callback make of the client's hotkeys. -/
theorem settled_untold (hotkeys : ℕ → Option String) (hunshown : Ktpd.Untold ktpd ktpd') :
    ktpd'.toClient.foldl Ctx.noteHotkeys hotkeys = ktpd.toClient.foldl Ctx.noteHotkeys hotkeys ∧
      shownHotkeys ktpd' = shownHotkeys ktpd := by
  obtain ⟨out, htoClient, hbare, hshown⟩ := hunshown
  refine ⟨?_, ?_⟩
  · rw [htoClient, List.foldl_append, foldl_noteHotkeys_bare hbare]
  · funext code
    rw [shownHotkeys, shownHotkeys, hshown]

theorem settled_told (hotkeys : ℕ → Option String) (hwell : env.scheme.HotkeysWell)
    (htold : Ktpd.Told ktpd ktpd') :
    ∃ path, ktpd'.shownPath = some path ∧
      shownHotkeys ktpd' = definedHotkeys env.scheme path ∧
      ktpd'.toClient.foldl Ctx.noteHotkeys hotkeys =
        if Ktpd.pathHotkeys env.scheme path = [] then
          ktpd.toClient.foldl Ctx.noteHotkeys hotkeys
        else definedHotkeys env.scheme path := by
  obtain ⟨out, ack, path, htoClient, hbare, htable, hshown⟩ := htold
  refine ⟨path, hshown, ?_, ?_⟩
  · funext code
    rw [shownHotkeys, hshown]
    rfl
  · rw [htoClient, List.foldl_append, List.foldl_append, foldl_noteHotkeys_bare hbare,
      List.foldl_cons, List.foldl_nil, noteHotkeys_table hwell htable]

/-- The hotkeys agree after a callback of the server exactly if it is no step from a path that
defines hotkeys to one that has none. -/
theorem agree_iff_bare (hwell : env.scheme.HotkeysWell) {told : ℕ → Option String}
    (hsettled : ktpd.toClient.foldl Ctx.noteHotkeys hotkeys = told)
    (hstep : Ktpd.Untold ktpd ktpd' ∧ shownHotkeys ktpd = told ∨ Ktpd.Told ktpd ktpd') :
    ktpd'.toClient.foldl Ctx.noteHotkeys hotkeys = shownHotkeys ktpd' ↔
      ∀ path, ktpd'.shownPath = some path → Ktpd.pathHotkeys env.scheme path = [] →
        told = fun _ => none := by
  rcases hstep with ⟨huntold, hshown⟩ | htold
  · obtain ⟨hsame, hshown'⟩ := settled_untold hotkeys huntold
    refine ⟨fun _ path hpath hnil => ?_, fun _ => ?_⟩
    · rw [← hshown, ← hshown']
      funext code
      rw [shownHotkeys, hpath, Option.bind_some, Ktpd.definedHotkeys_eq_none hwell hnil]
    · rw [hsame, hsettled, hshown', hshown]
  · obtain ⟨path, hpath, hshown, hread⟩ := settled_told hotkeys hwell htold
    rw [hread, hsettled, hshown]
    by_cases hnil : Ktpd.pathHotkeys env.scheme path = []
    · rw [if_pos hnil, Ktpd.definedHotkeys_eq_none hwell hnil]
      refine ⟨fun htold _ _ _ => htold, fun hbare => hbare path hpath hnil⟩
    · rw [if_neg hnil]
      refine ⟨fun _ path' hpath' hnil' => ?_, fun _ => rfl⟩
      rw [hpath] at hpath'
      cases hpath'
      exact absurd hnil' hnil

end Server

/-- What holds in every run. -/
structure Linked (s : Dialogue env) : Prop where
  inv : ∃ h, Inv ⟨s.ctx.ktp, s.ktpd⟩ h
  fresh : s.unserved = true → s.ktpd.state = .unauthorized

/-- The path that is shown may stay, and then it is no step to a path without hotkeys. -/
theorem bare_of_shown (hwell : env.scheme.HotkeysWell)
    (hshown : s'.ktpd.shownPath = s.ktpd.shownPath) (path : Kpath)
    (hpath : s'.ktpd.shownPath = some path) (hnil : Ktpd.pathHotkeys env.scheme path = []) :
    s.told = fun _ => none := by
  unfold told
  split
  · rfl
  · funext code
    rw [shownHotkeys, ← hshown, hpath, Option.bind_some, Ktpd.definedHotkeys_eq_none hwell hnil]

/-- The client acts of itself. -/
theorem acts_agrees (hwell : env.scheme.HotkeysWell) (hlinked : s.Linked) (hagree : s.WillAgree)
    {ctx : Ctx} (hacts : Ctx.Acts s.ctx ctx) {event : Event} (hevent : ∀ sys, event ≠ .serve sys) :
    Linked { s with ctx } ∧ (WillAgree { s with ctx } ↔ Announced s event { s with ctx }) := by
  obtain ⟨h, hinv⟩ := hlinked.inv
  have hunserved : unserved { s with ctx } = s.unserved := calls_unserved hacts.calls
  have hsettled : settled { s with ctx } = s.settled :=
    congrArg (s.ktpd.toClient.foldl Ctx.noteHotkeys) hacts.hotkeys
  have htold : told { s with ctx } = s.told := by
    unfold told
    rw [hunserved]
  refine ⟨⟨inv_calls hacts.calls hinv, fun hfresh => hlinked.fresh (hunserved ▸ hfresh)⟩,
    fun _ => ⟨bare_of_shown hwell rfl, fun sys heq => absurd heq (hevent sys)⟩, fun _ => ?_⟩
  unfold WillAgree
  rw [hsettled, htold]
  exact hagree

theorem deliver_agrees (hwell : env.scheme.HotkeysWell) (hlinked : s.Linked) (hagree : s.WillAgree)
    {msg : KtpMsg} {toClient : List KtpMsg} {sys : ClientSys}
    (hmsg : s.ktpd.toClient = msg :: toClient) :
    Linked ⟨s.ctx.dispatch msg sys, { s.ktpd with toClient }⟩ ∧
      (WillAgree ⟨s.ctx.dispatch msg sys, { s.ktpd with toClient }⟩ ↔
        Announced s (.deliver sys) ⟨s.ctx.dispatch msg sys, { s.ktpd with toClient }⟩) := by
  obtain ⟨h, hinv⟩ := hlinked.inv
  have hmem : msg ∈ s.ktpd.toClient := hmsg ▸ List.mem_cons_self
  obtain ⟨hhotkeys, hcalls⟩ := Ctx.dispatch_acts s.ctx sys (hinv.whole msg hmem)
    (hinv.oneAnswer.expected msg hmem)
  have hdeliver : Inv ⟨s.ctx.ktp.dispatch msg, { s.ktpd with toClient }⟩ _ := hinv.deliver hmsg
  have hunserved : unserved ⟨s.ctx.dispatch msg sys, { s.ktpd with toClient }⟩ = s.unserved := by
    unfold unserved
    rw [calls_unserved hcalls, dispatch_toServer]
  have htold : told ⟨s.ctx.dispatch msg sys, { s.ktpd with toClient }⟩ = s.told := by
    unfold told
    rw [hunserved]
    rfl
  have hsettled : settled ⟨s.ctx.dispatch msg sys, { s.ktpd with toClient }⟩ = s.settled := by
    unfold settled
    rw [hmsg, hhotkeys, List.foldl_cons]
  refine ⟨⟨inv_calls hcalls hdeliver, fun hfresh => hlinked.fresh (hunserved ▸ hfresh)⟩,
    fun _ => ⟨bare_of_shown hwell rfl, by simp⟩, fun _ => ?_⟩
  unfold WillAgree
  rw [hsettled, htold]
  exact hagree

/-- No command is running while the authorization is awaited. -/
theorem Linked.exec_none (hlinked : s.Linked) (hstate : s.ktpd.state ≠ .waitForProcess) :
    s.ktpd.exec = none := by
  obtain ⟨h, hinv⟩ := hlinked.inv
  cases hexec : s.ktpd.exec with
  | none => rfl
  | some exec => exact absurd (hinv.live.mp (by rw [hexec]; rfl)) hstate

theorem Linked.fresh_exec (hlinked : s.Linked) (hfresh : s.unserved = true) :
    s.ktpd.exec = none := by
  refine hlinked.exec_none ?_
  rw [hlinked.fresh hfresh]
  decide

/-- The server is called for another reason than a message. -/
theorem server_agrees (hwell : env.scheme.HotkeysWell) (hlinked : s.Linked) (hagree : s.WillAgree)
    {event : Ktpd.Event} {sys : KtpdSys} {ktpd : Ktpd env} (hevent : ∀ msg, event ≠ .dispatch msg)
    (hstep : s.ktpd.step (event, sys) = some ktpd) :
    Linked { s with ktpd } ∧
      (WillAgree { s with ktpd } ↔ Announced s (.server event sys) { s with ktpd }) := by
  obtain ⟨h, hinv⟩ := hlinked.inv
  obtain ⟨out, hserves⟩ := step_serves hinv.live hevent hstep
  have hnext : Inv ⟨s.ctx.ktp, ktpd⟩ _ := hinv.serves hserves rfl rfl
  obtain ⟨htells, hidle⟩ := Ktpd.step_tells hevent hstep
  have hfresh : s.unserved = true → Ktpd.Untold s.ktpd ktpd ∧ ktpd.state = .unauthorized := by
    intro hfresh
    obtain ⟨huntold, hstate⟩ := hidle (hlinked.fresh_exec hfresh)
    exact ⟨huntold, hstate.trans (hlinked.fresh hfresh)⟩
  refine ⟨⟨⟨_, hnext⟩, fun hun => (hfresh hun).2⟩, ?_⟩
  cases hun : s.unserved with
  | true =>
    obtain ⟨hsame, hshown⟩ := settled_untold s.ctx.hotkeys (hfresh hun).1
    have htold : s.told = fun _ => none := by
      rw [told, if_pos hun]
    refine ⟨fun _ => ⟨fun _ _ _ => htold, by simp⟩, fun _ => ?_⟩
    show ktpd.toClient.foldl Ctx.noteHotkeys s.ctx.hotkeys = told { s with ktpd }
    have htold' : told { s with ktpd } = fun _ => none := by
      rw [told, if_pos (show unserved { s with ktpd } = true from hun)]
    rw [hsame, htold', ← htold]
    exact hagree
  | false =>
    have htold : s.told = shownHotkeys s.ktpd := by
      rw [told, if_neg (ne_true_of_eq_false hun)]
    have htold' : told { s with ktpd } = shownHotkeys ktpd := by
      rw [told, if_neg (ne_true_of_eq_false (show unserved { s with ktpd } = false from hun))]
    have hiff := agree_iff_bare hwell hagree (htells.imp_left fun huntold => ⟨huntold, htold.symm⟩)
    unfold WillAgree
    rw [htold']
    exact hiff.trans ⟨fun hbare => ⟨hbare, by simp⟩, fun hann => hann.bare⟩

/-- The authorization is the only one. -/
theorem unserved_tail (hinv : Inv ⟨s.ctx.ktp, s.ktpd⟩ h) {msg : KtpMsg} {toServer : List KtpMsg}
    (hmsg : s.ctx.ktp.toServer = msg :: toServer) (hauth : msg.cmd = .auth) :
    (toServer.any fun msg => msg.cmd == .auth) = false := by
  rw [List.any_eq_false]
  intro other hother hcmd
  have htokens := hinv.tokens .auth
  have hpending : s.ctx.ktp.state.pending.toList.count .auth ≤ 1 := by
    cases s.ctx.ktp.state <;> decide
  have hmem : KtpRequest.auth ∈ toServer.filterMap KtpMsg.request :=
    List.mem_filterMap.mpr ⟨other, hother, request_eq_some.mpr (beq_iff_eq.mp hcmd)⟩
  have hpos := List.count_pos_iff.mpr hmem
  have hrequest : msg.request = some .auth := request_eq_some.mpr hauth
  unfold Channel.tokens at htokens
  dsimp only at htokens
  rw [hmsg, List.filterMap_cons, hrequest, List.count_cons_self] at htokens
  omega

/-- The server takes a message. -/
theorem serve_agrees (hwell : env.scheme.HotkeysWell) (hlinked : s.Linked) (hagree : s.WillAgree)
    {msg : KtpMsg} {toServer : List KtpMsg} {sys : KtpdSys}
    (hmsg : s.ctx.ktp.toServer = msg :: toServer)
    (hctx : s'.ctx = { s.ctx with ktp := { s.ctx.ktp with toServer } })
    (hstep : s.ktpd.dispatch sys msg = some s'.ktpd) :
    Linked s' ∧ (WillAgree s' ↔ Announced s (.serve sys) s') := by
  obtain ⟨h, hinv⟩ := hlinked.inv
  have hunserved : s'.unserved = toServer.any fun msg => msg.cmd == .auth := by
    rw [unserved, hctx]
  obtain ⟨out, hserves⟩ := dispatch_serves hinv.live hstep
  have hrequests : s.ctx.ktp.toServer.filterMap KtpMsg.request =
      msg.request.toList ++ toServer.filterMap KtpMsg.request := by
    rw [hmsg, List.filterMap_cons]
    cases msg.request <;> rfl
  have hserved : Inv ⟨{ s.ctx.ktp with toServer }, s'.ktpd⟩ _ := hinv.serves hserves rfl hrequests
  have hnext : ∃ h', Inv ⟨s'.ctx.ktp, s'.ktpd⟩ h' := by
    rw [hctx]
    exact ⟨_, hserved⟩
  have hsettled : s'.settled = s'.ktpd.toClient.foldl Ctx.noteHotkeys s.ctx.hotkeys := by
    rw [settled, hctx]
  have hhead : ∀ m, s.ctx.ktp.toServer.head? = some m → m = msg := by
    rw [hmsg]
    exact fun m hm => (Option.some.inj hm).symm
  unfold WillAgree
  rw [hsettled]
  by_cases hauth : msg.cmd = .auth
  · have hun : s.unserved = true := by
      simp [unserved, hmsg, hauth]
    have hun' : s'.unserved = false := hunserved.trans (unserved_tail hinv hmsg hauth)
    have htold : s.told = fun _ => none := by
      rw [told, if_pos hun]
    have htold' : s'.told = shownHotkeys s'.ktpd := by
      rw [told, if_neg (ne_true_of_eq_false hun')]
    have hprocess : s'.ktpd = s.ktpd.processAuth sys msg := by
      unfold Ktpd.dispatch at hstep
      rw [hauth] at hstep
      dsimp only at hstep
      rw [if_pos (.inl (hlinked.fresh hun))] at hstep
      exact (Option.some.inj hstep).symm
    obtain ⟨hpeer, hrefused⟩ := Ktpd.processAuth_tells sys msg (hlinked.fresh_exec hun)
    rw [← hprocess] at hpeer hrefused
    rw [htold']
    refine ⟨⟨hnext, fun hfresh => absurd (hun'.symm.trans hfresh) Bool.false_ne_true⟩, ?_⟩
    cases hcred : sys.peercred with
    | true =>
      rw [agree_iff_bare hwell hagree (.inr (hpeer hcred))]
      refine ⟨fun hbare => ⟨hbare, fun sys' heq hfalse => ?_⟩, fun hann => hann.bare⟩
      cases heq
      rw [hcred] at hfalse
      cases hfalse
    | false =>
      obtain ⟨hsame, hshown⟩ := settled_untold s.ctx.hotkeys (hrefused hcred)
      have hsettled₀ : s.ktpd.toClient.foldl Ctx.noteHotkeys s.ctx.hotkeys = fun _ => none :=
        hagree.trans htold
      rw [hsame, hshown, hsettled₀]
      refine ⟨fun heq => ⟨fun _ _ _ => htold, fun _ _ _ _ => heq.symm⟩, fun hann => ?_⟩
      exact (hann.refused sys rfl hcred ⟨msg, by rw [hmsg]; rfl, hauth⟩).symm
  · have hsame : s'.unserved = s.unserved := by
      rw [hunserved, unserved, hmsg, List.any_cons, beq_eq_false_iff_ne.mpr hauth, Bool.false_or]
    have hrefused : ∀ sys', Event.serve sys = .serve sys' → sys'.peercred = false →
        (∃ msg, s.ctx.ktp.toServer.head? = some msg ∧ msg.cmd = .auth) →
          shownHotkeys s.ktpd = fun _ => none := by
      rintro _ _ _ ⟨m, hm, hcmd⟩
      exact absurd (hhead m hm ▸ hcmd) hauth
    cases hun : s.unserved with
    | true =>
      obtain ⟨hstate, huntold⟩ := Ktpd.dispatch_unauthorized (hlinked.fresh hun) hauth hstep
      obtain ⟨hfold, -⟩ := settled_untold s.ctx.hotkeys huntold
      have htold : s.told = fun _ => none := by
        rw [told, if_pos hun]
      have htold' : s'.told = fun _ => none := by
        rw [told, if_pos (hsame.trans hun)]
      refine ⟨⟨hnext, fun _ => hstate⟩, fun _ => ⟨fun _ _ _ => htold, hrefused⟩, fun _ => ?_⟩
      rw [hfold, htold', ← htold]
      exact hagree
    | false =>
      have htold : s.told = shownHotkeys s.ktpd := by
        rw [told, if_neg (ne_true_of_eq_false hun)]
      have htold' : s'.told = shownHotkeys s'.ktpd := by
        rw [told, if_neg (ne_true_of_eq_false (hsame.trans hun))]
      have hiff := agree_iff_bare hwell hagree ((Ktpd.dispatch_tells hinv.live hauth hstep).imp_left
        fun huntold => ⟨huntold, htold.symm⟩)
      rw [htold', hiff]
      refine ⟨⟨hnext, fun hfresh => ?_⟩, fun hbare => ⟨hbare, hrefused⟩, fun hann => hann.bare⟩
      rw [hsame, hun] at hfresh
      cases hfresh

/-- One step. -/
theorem step_agrees (hwell : env.scheme.HotkeysWell) (hlinked : s.Linked) (hagree : s.WillAgree)
    {event : Event} (hstep : s.step event = some s') :
    Linked s' ∧ (WillAgree s' ↔ Announced s event s') := by
  cases event with
  | deliver sys =>
    unfold step at hstep
    dsimp only at hstep
    split at hstep
    · cases hstep
    · rename_i msg toClient hmsg
      cases hstep
      exact deliver_agrees hwell hlinked hagree hmsg
  | stdin event =>
    unfold step at hstep
    dsimp only at hstep
    split at hstep
    · cases hstep
      exact acts_agrees hwell hlinked hagree (Ctx.stdinCb_acts s.ctx event) (by simp)
    · cases hstep
  | asyncStdinSent =>
    have hacts : Ctx.Acts s.ctx s.ctx.asyncStdinSentCb := .of_eq rfl rfl
    cases hstep
    exact acts_agrees hwell hlinked hagree hacts (by simp)
  | ctrlC =>
    cases hstep
    exact acts_agrees hwell hlinked hagree (Ctx.ctrlCCb_acts s.ctx) (by simp)
  | sigwinch width height =>
    cases hstep
    exact acts_agrees hwell hlinked hagree (.notify s.ctx (.winch width height) rfl)
      (by simp)
  | serve sys =>
    unfold step at hstep
    dsimp only at hstep
    split at hstep
    · cases hstep
    · rename_i msg toServer hmsg
      obtain ⟨ktpd, hdispatch, rfl⟩ := Option.map_eq_some_iff.mp hstep
      exact serve_agrees hwell hlinked hagree hmsg rfl hdispatch
  | server event sys =>
    cases event with
    | dispatch msg => cases hstep
    | poll fd revents =>
      obtain ⟨ktpd, hktpd, rfl⟩ := Option.map_eq_some_iff.mp hstep
      exact server_agrees hwell hlinked hagree (by simp) hktpd
    | sigchld reports =>
      have hevent : ∀ msg, Ktpd.Event.sigchld reports ≠ .dispatch msg := by simp
      have hmap : (s.ktpd.step (.sigchld reports, sys)).map
          (fun ktpd => ({ s with ktpd } : Dialogue env)) = some s' := hstep
      obtain ⟨ktpd, hktpd, rfl⟩ := Option.map_eq_some_iff.mp hmap
      exact server_agrees hwell hlinked hagree hevent hktpd

/-- A client that waits for no such answer has taken all hotkeys that were sent. -/
theorem WillAgree.agrees (hlinked : s.Linked) (hagree : s.WillAgree) : s.Agrees := by
  intro hauth hcmd
  obtain ⟨h, hinv⟩ := hlinked.inv
  have hnone : ∀ r : KtpRequest, s.ctx.ktp.state.pending ≠ some r →
      tokens r ⟨s.ctx.ktp, s.ktpd⟩ = 0 := by
    intro r hr
    rw [hinv.tokens r, List.count_eq_zero]
    exact fun hmem => hr (Option.mem_toList.mp hmem)
  have hauth₀ := hnone .auth hauth
  have hcmd₀ := hnone .cmd hcmd
  unfold Channel.tokens at hauth₀ hcmd₀
  dsimp only at hauth₀ hcmd₀
  have hunserved : s.unserved = false := by
    rw [unserved, List.any_eq_false]
    intro msg hmsg hauthMsg
    have hmem : KtpRequest.auth ∈ s.ctx.ktp.toServer.filterMap KtpMsg.request :=
      List.mem_filterMap.mpr ⟨msg, hmsg, request_eq_some.mpr (beq_iff_eq.mp hauthMsg)⟩
    have hpos := List.count_pos_iff.mpr hmem
    omega
  have hexec : s.ktpd.exec = none := by
    refine hlinked.exec_none fun hwait => ?_
    have hbusy : busy .cmd s.ktpd = 1 := if_pos ⟨rfl, hwait⟩
    omega
  have hsettled : s.settled = s.ctx.hotkeys := by
    refine foldl_noteHotkeys_of_ne fun msg hmsg => ⟨fun hanswer => ?_, fun hanswer => ?_⟩
    · have hmem : KtpRequest.auth ∈ s.ktpd.toClient.filterMap KtpMsg.answer :=
        List.mem_filterMap.mpr ⟨msg, hmsg, hanswer⟩
      have hpos := List.count_pos_iff.mpr hmem
      omega
    · have hmem : KtpRequest.cmd ∈ s.ktpd.toClient.filterMap KtpMsg.answer :=
        List.mem_filterMap.mpr ⟨msg, hmsg, hanswer⟩
      have hpos := List.count_pos_iff.mpr hmem
      omega
  rw [← hsettled, hagree, told, if_neg (ne_true_of_eq_false hunserved)]
  funext code
  rw [shownHotkeys, Ktpd.shownPath, hexec]
  rfl

/-- The peer is known, and every path that is shown has hotkeys. -/
def keepsHotkeys (s : Dialogue env) : List Event → Bool
  | [] => true
  | event :: events =>
    (match event with
      | .serve sys => sys.peercred
      | _ => true) &&
    match s.step event with
    | none => true
    | some s' =>
      s'.ktpd.shownPath.any (fun path => (Ktpd.pathHotkeys env.scheme path).isEmpty) == false &&
        s'.keepsHotkeys events

theorem along_of_keepsHotkeys {events : List Event} (h : s.keepsHotkeys events = true) :
    Runs.Along step Announces s events := by
  induction events generalizing s with
  | nil => exact trivial
  | cons event events ih =>
    unfold keepsHotkeys at h
    obtain ⟨hpeer, hrest⟩ := Bool.and_eq_true_iff.mp h
    have hstep : ∀ t, s.step event = some t → s.Announced event t ∧
        t.keepsHotkeys events = true := by
      intro t ht
      rw [ht] at hrest
      obtain ⟨hshown, hrest⟩ := Bool.and_eq_true_iff.mp hrest
      refine ⟨⟨fun path hpath hnil => ?_, fun sys heq hfalse => ?_⟩, hrest⟩
      · rw [hpath, Option.any_some, hnil] at hshown
        cases hshown
      · subst heq
        exact absurd (hpeer.symm.trans hfalse) nofun
    exact ⟨fun t ht => (hstep t ht).1, fun t ht => ih (hstep t ht).2⟩

section Start

variable (opts : ClientOpts) (mode : ClientMode) (commands : List String)
  (files : List (Option Bytes)) (stdin : Bytes) (ttyStdin ttyStdout ttyStderr : Bool)
  (eloop : env.L.State) (world : World)

theorem start_linked :
    Linked (start opts mode commands files stdin ttyStdin ttyStdout ttyStderr eloop world) := by
  have hinit : Inv (init true true eloop world : Channel env) .empty :=
    init_inv true true eloop world
  have hcall : Inv ⟨ClientCall.run (Ktp.new true true) (.auth ttyStdin ttyStdout ttyStderr),
      .new eloop world⟩ _ := hinit.call Bool.false_ne_true
  exact ⟨⟨_, hcall⟩, fun _ => rfl⟩

theorem start_agrees :
    WillAgree (start opts mode commands files stdin ttyStdin ttyStdout ttyStderr eloop world) :=
  rfl

/-- In every run the hotkeys agree as soon as all messages have come, exactly if every step is
announced. Then they agree in every state in which the client has the answer to its last
authorization or command. -/
theorem hotkeys_agree_iff (hwell : env.scheme.HotkeysWell) (events : List Event)
    (last : Dialogue env)
    (hrun : Runs.run step
      (start opts mode commands files stdin ttyStdin ttyStdout ttyStderr eloop world) events =
        some last) :
    ((∀ n t, Runs.run step
        (start opts mode commands files stdin ttyStdin ttyStdout ttyStderr eloop world)
          (events.take n) = some t → WillAgree t) ↔
      Runs.Along step Announces
        (start opts mode commands files stdin ttyStdin ttyStdout ttyStderr eloop world) events) ∧
    (Runs.Along step Announces
        (start opts mode commands files stdin ttyStdin ttyStdout ttyStderr eloop world) events →
      ∀ n t, Runs.run step
        (start opts mode commands files stdin ttyStdin ttyStdout ttyStderr eloop world)
          (events.take n) = some t → Agrees t) := by
  generalize hstart : (start opts mode commands files stdin ttyStdin ttyStdout ttyStderr eloop
    world : Dialogue env) = first at *
  have hfirst : first.Linked ∧ first.WillAgree := by
    rw [← hstart]
    exact ⟨start_linked .., start_agrees ..⟩
  have hstep : ∀ (s : Dialogue env) event t, s.Linked ∧ s.WillAgree → s.Announces event →
      s.step event = some t → t.Linked ∧ t.WillAgree := by
    rintro s event t ⟨hlinked, hagree⟩ hann ht
    obtain ⟨hlinked', hiff⟩ := step_agrees hwell hlinked hagree ht
    exact ⟨hlinked', hiff.mpr (hann t ht)⟩
  constructor
  · refine Runs.forall_states_iff_along (fun _ h => h.2) hstep ?_ hfirst hrun
    rintro s event t ⟨hlinked, hagree⟩ ht htagree s' hs'
    obtain rfl : t = s' := Option.some.inj (ht.symm.trans hs')
    exact (step_agrees hwell hlinked hagree ht).2.mp htagree
  · intro halong n t ht
    obtain ⟨hlinked, hagree⟩ := Runs.run_along hstep hfirst ht (halong.take n)
    exact hagree.agrees hlinked

end Start

section Samples

/-- The view 0 and the view 7 have a hotkey each. The command `x` is run by the server. -/
def hotkeyBody : BodyId → Kbody
  | 0 => { Ksession.sampleBody 0 with hotkeys := [⟨"^A", "x"⟩] }
  | 2 => { Ksession.sampleBody 2 with
    actions := [{ Kaction.new with sym := some ⟨"nav", .undefined, .yes, true⟩ }] }
  | 7 => { Kbody.new with hotkeys := [⟨"^B", "x"⟩] }
  | b => Ksession.sampleBody b

/-- A server whose command goes to another view. -/
def navEnv (view : EntryId) : KtpdEnv :=
  { Ktpd.sampleEnv with
    scheme := { Ksession.sampleScheme with body := hotkeyBody }
    kexec := { Ktpd.sampleEnv.kexec with
      symEffect := fun w _ _ => { w.session with path := ⟨[view], Ksession.sampleRoot.path.length_le⟩ } } }

theorem hotkeyBody_hotkeys (b : BodyId) : (hotkeyBody b).hotkeys = [] ∨
    (hotkeyBody b).hotkeys = [⟨"^A", "x"⟩] ∨ (hotkeyBody b).hotkeys = [⟨"^B", "x"⟩] := by
  unfold hotkeyBody
  split
  · exact .inr (.inl rfl)
  · exact .inl rfl
  · exact .inr (.inr rfl)
  · left
    unfold Ksession.sampleBody
    split <;> rfl

theorem navEnv_well (view : EntryId) : (navEnv view).scheme.HotkeysWell := by
  have htext : ∀ s : String, s.toList.all (fun c => decide (0 < c.toNat ∧ c.toNat < 256)) = true →
      CText s := fun s h c hc => of_decide_eq_true (List.all_eq_true.mp h c hc)
  refine ⟨fun v => ?_, fun v hotkey hmem => ?_⟩
  · rcases hotkeyBody_hotkeys ((navEnv view).scheme.entry v).body with h | h | h <;>
      exact h ▸ (by decide)
  · have hmem' : hotkey ∈ (hotkeyBody ((navEnv view).scheme.entry v).body).hotkeys := hmem
    rcases hotkeyBody_hotkeys ((navEnv view).scheme.entry v).body with h | h | h <;> rw [h] at hmem'
    · cases hmem'
    · obtain rfl := List.mem_singleton.mp hmem'
      exact ⟨htext _ rfl, htext _ rfl⟩
    · obtain rfl := List.mem_singleton.mp hmem'
      exact ⟨htext _ rfl, htext _ rfl⟩

def sampleClient : ClientSys := ⟨0, true, true, 80, 24⟩

/-- The authorization and then the command. -/
def navEvents : List Event :=
  [.serve (Ktpd.sampleSys 0), .deliver sampleClient, .stdin ⟨false, 0, 0, some (.enter "x")⟩,
    .serve (Ktpd.sampleSys 0), .serve (Ktpd.sampleSys 0), .deliver sampleClient]

def navStart (view : EntryId) : Dialogue (navEnv view) :=
  start ⟨false, false, false⟩ .interactive [] [] [] true true true (fun _ => none)
    ⟨Ksession.sampleRoot, [], [3], []⟩

end Samples

/-- A command that goes to a view with another hotkey. -/
theorem hotkeys_agree_nav : ∃ last, Runs.run step (navStart 7) navEvents = some last ∧
    last.Agrees := by
  have hsome : (Runs.run step (navStart 7) navEvents).isSome = true := by decide
  have halong : Runs.Along step Announces (navStart 7) navEvents :=
    along_of_keepsHotkeys (by decide)
  obtain ⟨last, hlast⟩ := Option.isSome_iff_exists.mp hsome
  have htake : Runs.run step (navStart 7) (navEvents.take 6) = some last := by
    rw [List.take_of_length_le (by decide)]
    exact hlast
  unfold navStart at hlast halong htake
  exact ⟨last, hlast, (hotkeys_agree_iff _ _ _ _ _ _ _ _ _ _ (navEnv_well 7) _ last hlast).2 halong
    6 last htake⟩

/-- A command goes to a view without hotkeys. The client keeps the hotkey of the old view. -/
theorem hotkeys_disagree :
    ¬ ∀ (env : KtpdEnv) (opts : ClientOpts) (mode : ClientMode) (commands : List String)
      (files : List (Option Bytes)) (stdin : Bytes) (ttyStdin ttyStdout ttyStderr : Bool)
      (eloop : env.L.State) (world : World) (events : List Event) (last : Dialogue env),
      env.scheme.HotkeysWell →
        Runs.run step
          (start opts mode commands files stdin ttyStdin ttyStdout ttyStderr eloop world) events =
            some last → last.Agrees := by
  intro h
  have hsome : (Runs.run step (navStart 6) navEvents).isSome = true := by decide
  obtain ⟨last, hlast⟩ := Option.isSome_iff_exists.mp hsome
  have hmap : (Runs.run step (navStart 6) navEvents).map (fun s =>
      (s.ctx.ktp.state.pending, s.ctx.hotkeys 1,
        definedHotkeys (navEnv 6).scheme s.ktpd.world.session.path 1)) =
      some (none, some "x", none) := by decide
  rw [hlast, Option.map_some, Option.some.injEq, Prod.mk.injEq, Prod.mk.injEq] at hmap
  obtain ⟨hpending, hold, hnone⟩ := hmap
  have hagrees := h (navEnv 6) ⟨false, false, false⟩ .interactive [] [] [] true true true
    (fun _ => none) ⟨Ksession.sampleRoot, [], [3], []⟩ navEvents last (navEnv_well 6) hlast
    (by rw [hpending]; exact nofun) (by rw [hpending]; exact nofun)
  rw [hagrees, hnone] at hold
  cases hold

end Dialogue

end Klish
