import Klish.KschemeMemory
import Klish.Lib.Handles

/-!
# The shared objects of the daemon

The daemon opens a shared object for each DB to load the scheme, and one for each PLUGIN to prepare
it. When it ends it frees the scheme, and the objects of the PLUGINs are closed.
-/

namespace Klish

/-- The shared objects, and what their functions do. They may do something else each time. -/
structure DlEnv (Obj : Type) where
  dlopen : String → Option Obj
  /-- The first byte of what a symbol names. -/
  dlsym : Obj → String → Option UInt8
  dlerror : String → String
  dbInit : List (HandleEvent Obj) → Obj → Bool
  dbLoadScheme : List (HandleEvent Obj) → Obj → KschemeTree → Bool × KschemeTree × List String
  dbFini : List (HandleEvent Obj) → Obj → Bool
  /-- The result, and the symbols that the plugin has added. -/
  pluginInit : List (HandleEvent Obj) → Obj → KpluginDecl → ℤ × List Ksym
  pluginFini : List (HandleEvent Obj) → Obj → KpluginDecl → ℤ
  /-- How many data blobs with a free function of the plugin there are in the scheme. -/
  blobs : List (HandleEvent Obj) → KpluginDecl → ℕ

/-- What a function returns, with the events of the shared objects and the errors. -/
structure DlCall (Obj β : Type) where
  value : β
  events : List (HandleEvent Obj)
  error : List String

section Db

variable {Obj : Type} (env : DlEnv Obj)

/-- `kdb_t` -/
structure Kdb (Obj : Type) where
  name : String
  file : Option String
  major : UInt8
  minor : UInt8
  dlhan : Option Obj
  initFn : Bool
  finiFn : Bool
  loadFn : Bool
  deployFn : Bool

/-- `kdb_new` -/
def Kdb.new (name : String) (file : Option String) : Option (Kdb Obj) :=
  if name = "" then none else some ⟨name, file, 0, 0, none, false, false, false, false⟩

def Kdb.soname (name : String) (file : Option String) : String :=
  file.getD ("libklish-db-" ++ name ++ ".so")

/-- `kdb_free` -/
def Kdb.free (db : Kdb Obj) : List (HandleEvent Obj) := db.dlhan.toList.map .closed

/-- A function of the shared object is called, if it has it. -/
def Kdb.uses (db : Kdb Obj) (present : Bool) : List (HandleEvent Obj) :=
  if present then db.dlhan.toList.map .used else []

def Kdb.symbol (name suffix : String) : String := "kdb_" ++ name ++ "_" ++ suffix

/-- `kdb_load_plugin`. The handle is closed on an error, but it stays in the field. -/
def kdbLoadPlugin (db : Kdb Obj) : DlCall Obj (Kdb Obj × Bool) :=
  let dlsym o suffix := env.dlsym o (Kdb.symbol db.name suffix)
  let file := Kdb.soname db.name db.file
  match env.dlopen file with
  | none => ⟨(db, false), [], ["DB \"" ++ db.name ++ "\": " ++ env.dlerror file]⟩
  | some o =>
    let db := { db with dlhan := some o }
    match dlsym o "major" with
    | none => ⟨(db, false), [.opened o, .closed o], []⟩
    | some major =>
      let db := { db with major }
      match dlsym o "minor" with
      | none => ⟨(db, false), [.opened o, .closed o], []⟩
      | some minor =>
        let db := { db with
          minor
          initFn := (dlsym o "init").isSome
          finiFn := (dlsym o "fini").isSome
          loadFn := (dlsym o "load_scheme").isSome
          deployFn := (dlsym o "deploy_scheme").isSome }
        -- Strange DB plugin
        if !db.loadFn && !db.deployFn then
          ⟨(db, false), [.opened o, .closed o],
            ["DB \"" ++ db.name ++ "\": Plugin has no deploy and load functions"]⟩
        else ⟨(db, true), [.opened o], []⟩

/-- `kdb_init` -/
def kdbInit (log : List (HandleEvent Obj)) (db : Kdb Obj) : Bool :=
  db.initFn && db.dlhan.any (env.dbInit log)

/-- `kdb_fini` -/
def kdbFini (log : List (HandleEvent Obj)) (db : Kdb Obj) : Bool :=
  db.finiFn && db.dlhan.any (env.dbFini log)

/-- `kdb_load_scheme` -/
def kdbLoadScheme (log : List (HandleEvent Obj)) (db : Kdb Obj) (scheme : KschemeTree) :
    Bool × KschemeTree × List String :=
  match db.dlhan with
  | some o => if db.loadFn then env.dbLoadScheme log o scheme else (false, scheme, [])
  | none => (false, scheme, [])

/-- `load_db` -/
def loadDb (log : List (HandleEvent Obj)) (scheme : KschemeTree) (name : String)
    (sofile : Option String) : DlCall Obj (KschemeTree × Bool) :=
  match Kdb.new name sofile with
  | none => ⟨(scheme, false), [], []⟩
  | some db =>
    let dbError text := "DB \"" ++ name ++ "\": " ++ text
    let opened := kdbLoadPlugin env db
    let db := opened.value.1
    if !opened.value.2 then
      ⟨(scheme, false), opened.events ++ db.free, opened.error ++ [dbError "Can't load DB plugin"]⟩
    -- Check plugin API version
    else if db.major ≠ 1 ∨ db.minor ≠ 0 then
      ⟨(scheme, false), opened.events ++ db.free, opened.error ++
        [dbError ("Plugin's API version is " ++ toString db.major ++ "." ++ toString db.minor ++
          ", need 1.0")]⟩
    else
      let events := opened.events ++ db.uses db.initFn
      if db.initFn && !kdbInit env (log ++ opened.events) db then
        ⟨(scheme, false), events ++ db.free, opened.error ++ [dbError "Can't init DB plugin"]⟩
      else
        let loaded := kdbLoadScheme env (log ++ events) db scheme
        let error := opened.error ++ loaded.2.2
        let events := events ++ db.uses db.loadFn
        if !loaded.1 then
          ⟨(loaded.2.1, false), events ++ db.uses db.finiFn ++ db.free,
            error ++ [dbError "Can't load scheme from DB plugin"]⟩
        else if db.finiFn && !kdbFini env (log ++ events) db then
          ⟨(loaded.2.1, false), events ++ db.uses db.finiFn ++ db.free,
            error ++ [dbError "Can't fini DB plugin"]⟩
        else ⟨(loaded.2.1, true), events ++ db.uses db.finiFn ++ db.free, error⟩

/-- The loop of `load_all_dbs`. It goes on after an error. -/
def loadDbs (sofile : String → Option String) (log : List (HandleEvent Obj)) (scheme : KschemeTree) :
    List String → DlCall Obj (KschemeTree × Bool)
  | [] => ⟨(scheme, true), [], []⟩
  | name :: names =>
    let r := loadDb env log scheme name (sofile name)
    let r' := loadDbs sofile (log ++ r.events) r.value.1 names
    ⟨(r'.value.1, r.value.2 && r'.value.2), r.events ++ r'.events, r.error ++ r'.error⟩

end Db

section Plugins

variable {Obj : Type} (env : DlEnv Obj)

/-- `kplugin_t` -/
structure PluginObject (Obj : Type) extends KpluginDecl where
  major : UInt8
  minor : UInt8
  dlhan : Option Obj
  initFn : Bool
  finiFn : Bool

def KpluginDecl.soname (p : KpluginDecl) : String :=
  p.file.getD ("libklish-plugin-" ++ p.id.getD p.name ++ ".so")

def KpluginDecl.symbol (p : KpluginDecl) (suffix : String) : String :=
  "kplugin_" ++ p.id.getD p.name ++ "_" ++ suffix

/-- `kplugin_load`. The handle is closed on an error, but it stays in the field. -/
def kpluginLoad (p : KpluginDecl) : DlCall Obj (PluginObject Obj × Bool) :=
  let plugin : PluginObject Obj := { p with major := 0, minor := 0, dlhan := none, initFn := false, finiFn := false }
  match env.dlopen p.soname with
  | none => ⟨(plugin, false), [], []⟩
  | some o =>
    let dlsym suffix := env.dlsym o (p.symbol suffix)
    let plugin := { plugin with dlhan := some o }
    match dlsym "major" with
    | none => ⟨(plugin, false), [.opened o, .closed o], []⟩
    | some major =>
      let plugin := { plugin with major }
      match dlsym "minor" with
      | none => ⟨(plugin, false), [.opened o, .closed o], []⟩
      | some minor =>
        let plugin := { plugin with minor }
        match dlsym "init" with
        | none => ⟨(plugin, false), [.opened o, .closed o], []⟩
        | some _ =>
          let plugin := { plugin with initFn := true, finiFn := (dlsym "fini").isSome }
          -- The object is opened again with its options. It is there, so the handle is the same.
          let reopened := if (dlsym "opt_global").any (· ≠ 0) then [.opened o, .closed o] else []
          ⟨(plugin, true), .opened o :: reopened, []⟩

/-- `kplugin_init` -/
def kpluginInit (log : List (HandleEvent Obj)) (p : PluginObject Obj) :
    DlCall Obj (PluginObject Obj × ℤ) :=
  match p.dlhan with
  | some o =>
    if p.initFn then
      let r := env.pluginInit log o p.toKpluginDecl
      ⟨({ p with syms := p.syms ++ r.2 }, r.1), [.used o], []⟩
    else ⟨(p, -1), [], []⟩
  | none => ⟨(p, -1), [], []⟩

/-- `kplugin_fini` -/
def kpluginFini (log : List (HandleEvent Obj)) (p : PluginObject Obj) : DlCall Obj ℤ :=
  match p.dlhan with
  | some o => if p.finiFn then ⟨env.pluginFini log o p.toKpluginDecl, [.used o], []⟩ else ⟨0, [], []⟩
  | none => ⟨0, [], []⟩

/-- `kplugin_free` -/
def kpluginFree (p : PluginObject Obj) : List (HandleEvent Obj) := p.dlhan.toList.map .closed

/-- `kscheme_load_plugins`. It tries to load all plugins. -/
def kschemeLoadPlugins (log : List (HandleEvent Obj)) :
    List KpluginDecl → DlCall Obj (List (PluginObject Obj) × Bool)
  | [] => ⟨([], true), [], []⟩
  | p :: ps =>
    let loaded := kpluginLoad env p
    if !loaded.value.2 then
      let r := kschemeLoadPlugins (log ++ loaded.events) ps
      ⟨(loaded.value.1 :: r.value.1, false), loaded.events ++ r.events,
        ("PLUGIN: Can't load plugin \"" ++ p.name ++ "\"") :: r.error⟩
    else
      let init := kpluginInit env (log ++ loaded.events) loaded.value.1
      let r := kschemeLoadPlugins (log ++ loaded.events ++ init.events) ps
      let error := if init.value.2 < 0 then
        ["PLUGIN: Can't init plugin \"" ++ p.name ++ "\" (" ++ toString init.value.2 ++ ")"] else []
      ⟨(init.value.1 :: r.value.1, decide (0 ≤ init.value.2) && r.value.2),
        loaded.events ++ init.events ++ r.events, error ++ r.error⟩

/-- `kscheme_fini_plugins` -/
def kschemeFiniPlugins (log : List (HandleEvent Obj)) : List (PluginObject Obj) → DlCall Obj Unit
  | [] => ⟨(), [], []⟩
  | p :: ps =>
    let fini := kpluginFini env log p
    let r := kschemeFiniPlugins (log ++ fini.events) ps
    let error := if fini.value < 0 then
      ["PLUGIN: Can't fini plugin \"" ++ p.name ++ "\" (" ++ toString fini.value ++ ")"] else []
    ⟨(), fini.events ++ r.events, error ++ r.error⟩

/-- The data blobs are freed with a function of the plugin that has left them. -/
def freeBlobs (log : List (HandleEvent Obj)) (ps : List (PluginObject Obj)) : List (HandleEvent Obj) :=
  ps.flatMap fun p =>
    if p.initFn then (p.dlhan.toList.flatMap fun o => List.replicate (env.blobs log p.toKpluginDecl) (.used o))
    else []

/-- `kscheme_free`: the plugins are freed after all that has a free function of theirs. -/
def kschemeFree (log : List (HandleEvent Obj)) (ps : List (PluginObject Obj)) :
    List (HandleEvent Obj) :=
  freeBlobs env log ps ++ ps.flatMap kpluginFree

end Plugins

section Daemon

variable {Obj : Type} (env : DlEnv Obj)

/-- `load_all_dbs`, with the names that the list of DBs has been parsed into. -/
def loadAllDbs (sofile : String → Option String) (hasParent : EntryId → Bool) (fuel : ℕ)
    (dbs : List String) : Option (DlCall Obj (Option (Kscheme × List (PluginObject Obj)))) :=
  if dbs.isEmpty then some ⟨none, [], []⟩
  else
    let loaded := loadDbs env sofile [] .new dbs
    -- Something went wrong while loading DBs. No plugin of the scheme is loaded yet.
    if !loaded.value.2 then some ⟨none, loaded.events, loaded.error⟩
    else
      let plugins := kschemeLoadPlugins env loaded.events loaded.value.1.plugins
      let loadPlugins _ :=
        if plugins.value.2 then some (plugins.value.1.map fun p => p.toKplugin) else none
      let events := loaded.events ++ plugins.events
      (Kscheme.prepare loadPlugins fuel (loaded.value.1.inMemory hasParent)).map fun r =>
        let error := loaded.error ++ plugins.error ++ r.error
        if r.ok then ⟨some (r.scheme, plugins.value.1), events, error⟩
        else ⟨none, events ++ kschemeFree env events plugins.value.1,
          error ++ ["Scheme preparing errors.\n"]⟩

/-- `clear_scheme` -/
def clearScheme (log : List (HandleEvent Obj)) :
    Option (Kscheme × List (PluginObject Obj)) → DlCall Obj Unit
  | none => ⟨(), [], []⟩
  | some (_, ps) =>
    let fini := kschemeFiniPlugins env log ps
    ⟨(), fini.events ++ kschemeFree env (log ++ fini.events) ps, fini.error⟩

/-- The symbols that are called while the daemon serves a client, by the places of their plugins. -/
def servedBy (calls : List ℕ) : Option (Kscheme × List (PluginObject Obj)) → List (HandleEvent Obj)
  | none => []
  | some (_, ps) => (calls.filterMap fun i => ps[i]?.bind fun p => p.dlhan).map .used

/-- All that happens to the shared objects from the start of the daemon to its end. -/
def daemonEvents (sofile : String → Option String) (hasParent : EntryId → Bool) (fuel : ℕ)
    (dbs : List String) (calls : List ℕ) : Option (List (HandleEvent Obj)) :=
  (loadAllDbs env sofile hasParent fuel dbs).map fun r =>
    let events := r.events ++ servedBy calls r.value
    events ++ (clearScheme env events r.value).events

/-- The shared object of the DB can be opened, but a symbol is missing. -/
def brokenDb (name : String) (sofile : Option String) : List Obj :=
  if name = "" then []
  else ((env.dlopen (Kdb.soname name sofile)).filter fun o =>
    let dlsym suffix := env.dlsym o (Kdb.symbol name suffix)
    !((dlsym "major").isSome && (dlsym "minor").isSome &&
      ((dlsym "load_scheme").isSome || (dlsym "deploy_scheme").isSome))).toList

/-- The shared object of the PLUGIN can be opened, but a symbol is missing. -/
def brokenPlugin (p : KpluginDecl) : List Obj :=
  ((env.dlopen p.soname).filter fun o =>
    let dlsym suffix := env.dlsym o (p.symbol suffix)
    !((dlsym "major").isSome && (dlsym "minor").isSome && (dlsym "init").isSome)).toList

/-- The objects with a missing symbol that the daemon opens. -/
def brokenObjects (sofile : String → Option String) (dbs : List String) : List Obj :=
  let loaded := loadDbs env sofile [] .new dbs
  dbs.flatMap (fun name => brokenDb env name (sofile name)) ++
    if loaded.value.2 then loaded.value.1.plugins.flatMap (brokenPlugin env) else []

end Daemon

section Moves

open Handles

variable {Obj : Type} [DecidableEq Obj] (env : DlEnv Obj)

theorem moves_reopened (o : Obj) : Moves [.opened o, .closed o] {o} {o} := by
  have hboth := (moves_opened o).append (moves_closed o)
  exact hboth.frame {o}

/-- A handle that has been closed on an error is closed once more, so one is needed in advance. -/
theorem kdbLoadPlugin_moves {db : Kdb Obj} (hnew : db.dlhan = none) (hname : db.name ≠ "") :
    Moves (kdbLoadPlugin env db).events ↑(brokenDb env db.name db.file)
      ↑(kdbLoadPlugin env db).value.1.dlhan.toList := by
  rw [kdbLoadPlugin, brokenDb, if_neg hname]
  dsimp only
  cases env.dlopen (Kdb.soname db.name db.file) with
  | none =>
    rw [hnew]
    exact .nil 0
  | some o =>
    rw [Option.filter_some]
    dsimp only
    cases hmajor : env.dlsym o (Kdb.symbol db.name "major") with
    | none => exact moves_reopened o
    | some major =>
      cases hminor : env.dlsym o (Kdb.symbol db.name "minor") with
      | none => exact moves_reopened o
      | some minor =>
        cases (env.dlsym o (Kdb.symbol db.name "load_scheme")).isSome <;>
          cases (env.dlsym o (Kdb.symbol db.name "deploy_scheme")).isSome
        · exact moves_reopened o
        all_goals exact moves_opened o

theorem moves_closes (o : Option Obj) : Moves (o.toList.map .closed) ↑o.toList 0 := by
  cases o with
  | none => exact .nil 0
  | some o => exact moves_closed o

theorem Kdb.uses_moves (db : Kdb Obj) (present : Bool) :
    Moves (db.uses present) ↑db.dlhan.toList ↑db.dlhan.toList := by
  cases present with
  | false => exact .nil _
  | true => exact moves_uses fun o ho => Multiset.mem_coe.mpr ho

/-- `load_db` closes what it has opened, but twice on some errors. -/
theorem loadDb_moves (log : List (HandleEvent Obj)) (scheme : KschemeTree) (name : String)
    (sofile : Option String) :
    Moves (loadDb env log scheme name sofile).events ↑(brokenDb env name sofile) 0 := by
  rw [loadDb, Kdb.new]
  by_cases hname : name = ""
  · rw [if_pos hname, brokenDb, if_pos hname]
    exact .nil 0
  · rw [if_neg hname]
    dsimp only
    have hopened := kdbLoadPlugin_moves env
      (show (⟨name, sofile, 0, 0, none, false, false, false, false⟩ : Kdb Obj).dlhan = none from rfl) hname
    revert hopened
    generalize kdbLoadPlugin env ⟨name, sofile, 0, 0, none, false, false, false, false⟩ = opened
    intro hopened
    have hfree : Moves opened.value.1.free ↑opened.value.1.dlhan.toList 0 := moves_closes _
    have huses := fun present => Kdb.uses_moves opened.value.1 present
    split
    · exact hopened.append hfree
    · split
      · exact hopened.append hfree
      · have hinit := hopened.append (huses opened.value.1.initFn)
        split
        · exact hinit.append hfree
        · have hload := (hinit.append (huses opened.value.1.loadFn)).append
            (huses opened.value.1.finiFn)
          split
          · exact hload.append hfree
          · split
            · exact hload.append hfree
            · exact hload.append hfree

theorem loadDbs_moves {sofile : String → Option String} (log : List (HandleEvent Obj))
    (scheme : KschemeTree) (dbs : List String) :
    Moves (loadDbs env sofile log scheme dbs).events
      ↑(dbs.flatMap fun name => brokenDb env name (sofile name)) 0 := by
  induction dbs generalizing log scheme with
  | nil => exact .nil 0
  | cons name dbs ih =>
    exact (loadDb_moves env log scheme name (sofile name)).both (ih _ _)

/-- The handles in the fields of the plugins. -/
def handles (ps : List (PluginObject Obj)) : List Obj := ps.flatMap fun p => p.dlhan.toList

theorem kpluginLoad_moves (p : KpluginDecl) : Moves (kpluginLoad env p).events ↑(brokenPlugin env p)
    ↑(kpluginLoad env p).value.1.dlhan.toList := by
  rw [kpluginLoad, brokenPlugin]
  dsimp only
  cases env.dlopen p.soname with
  | none => exact .nil 0
  | some o =>
    rw [Option.filter_some]
    dsimp only
    cases env.dlsym o (p.symbol "major") with
    | none => exact moves_reopened o
    | some major =>
      cases env.dlsym o (p.symbol "minor") with
      | none => exact moves_reopened o
      | some minor =>
        cases env.dlsym o (p.symbol "init") with
        | none => exact moves_reopened o
        | some init =>
          have hreopened : Moves (if (env.dlsym o (p.symbol "opt_global")).any (· ≠ 0) then
              [HandleEvent.opened o, .closed o] else []) {o} {o} := by
            split
            · exact moves_reopened o
            · exact .nil _
          exact (moves_opened o).append hreopened

theorem kpluginInit_moves (log : List (HandleEvent Obj)) (p : PluginObject Obj) :
    Moves (kpluginInit env log p).events ↑p.dlhan.toList
      ↑(kpluginInit env log p).value.1.dlhan.toList := by
  rw [kpluginInit]
  cases hdlhan : p.dlhan with
  | none =>
    dsimp only
    rw [hdlhan]
    exact .nil 0
  | some o =>
    dsimp only
    split
    · exact moves_used o
    · dsimp only
      rw [hdlhan]
      exact .nil _

theorem kschemeLoadPlugins_moves (log : List (HandleEvent Obj)) (ps : List KpluginDecl) :
    Moves (kschemeLoadPlugins env log ps).events ↑(ps.flatMap (brokenPlugin env))
      ↑(handles (kschemeLoadPlugins env log ps).value.1) := by
  induction ps generalizing log with
  | nil => exact .nil 0
  | cons p ps ih =>
    have hload := kpluginLoad_moves env p
    rw [kschemeLoadPlugins]
    dsimp only
    split
    · exact hload.both (ih _)
    · exact (hload.append (kpluginInit_moves env _ _)).both (ih _)

theorem kpluginFini_moves (log : List (HandleEvent Obj)) (p : PluginObject Obj) :
    Moves (kpluginFini env log p).events ↑p.dlhan.toList ↑p.dlhan.toList := by
  rw [kpluginFini]
  cases p.dlhan with
  | none => exact .nil 0
  | some o =>
    dsimp only
    split
    · exact moves_used o
    · exact .nil _

theorem kschemeFiniPlugins_moves (log : List (HandleEvent Obj)) (ps : List (PluginObject Obj)) :
    Moves (kschemeFiniPlugins env log ps).events ↑(handles ps) ↑(handles ps) := by
  induction ps generalizing log with
  | nil => exact .nil 0
  | cons p ps ih => exact (kpluginFini_moves env log p).both (ih _)

/-- The functions that free data blobs are still there. -/
theorem freeBlobs_moves (log : List (HandleEvent Obj)) (ps : List (PluginObject Obj)) :
    Moves (freeBlobs env log ps) ↑(handles ps) ↑(handles ps) := by
  induction ps with
  | nil => exact .nil 0
  | cons p ps ih =>
    rw [freeBlobs, List.flatMap_cons]
    refine Moves.both (m := ↑p.dlhan.toList) (k := ↑p.dlhan.toList) ?_ ih
    split
    · cases p.dlhan with
      | none => exact .nil 0
      | some o =>
        have huses := @moves_uses Obj _ {o} (List.replicate (env.blobs log p.toKpluginDecl) o)
          fun a ha => Multiset.mem_singleton.mpr (List.eq_of_mem_replicate ha)
        rw [List.map_replicate] at huses
        simpa using huses
    · exact .nil _

theorem kschemeFree_moves (log : List (HandleEvent Obj)) (ps : List (PluginObject Obj)) :
    Moves (kschemeFree env log ps) ↑(handles ps) 0 := by
  have hplugins : Moves (ps.flatMap kpluginFree) ↑(handles ps) 0 := by
    induction ps with
    | nil => exact .nil 0
    | cons p ps ih => exact (moves_closes p.dlhan).both ih
  exact (freeBlobs_moves env log ps).append hplugins

theorem clearScheme_moves (log : List (HandleEvent Obj)) (scheme : Kscheme)
    (ps : List (PluginObject Obj)) :
    Moves (clearScheme env log (some (scheme, ps))).events ↑(handles ps) 0 :=
  (kschemeFiniPlugins_moves env log ps).append (kschemeFree_moves env _ ps)

theorem servedBy_moves (scheme : Kscheme) (ps : List (PluginObject Obj)) (calls : List ℕ) :
    Moves (servedBy calls (some (scheme, ps))) ↑(handles ps) ↑(handles ps) := by
  apply moves_uses
  intro o ho
  obtain ⟨i, -, hi⟩ := List.mem_filterMap.mp ho
  obtain ⟨p, hp, ho⟩ := Option.bind_eq_some_iff.mp hi
  exact List.mem_flatMap.mpr ⟨p, List.mem_of_getElem? hp, Option.mem_toList.mpr ho⟩

variable {env} {sofile : String → Option String} {hasParent : EntryId → Bool} {fuel : ℕ}
  {dbs : List String} {calls : List ℕ} {events : List (HandleEvent Obj)}

/-- From the start of the daemon to its end each object with a missing symbol is closed once too
often. -/
theorem daemonEvents_moves (h : daemonEvents env sofile hasParent fuel dbs calls = some events) :
    Moves events ↑(brokenObjects env sofile dbs) 0 := by
  obtain ⟨r, hr, rfl⟩ := Option.map_eq_some_iff.mp h
  rw [loadAllDbs] at hr
  rw [brokenObjects]
  split at hr
  · rename_i hempty
    cases hr
    rw [List.isEmpty_iff.mp hempty]
    exact .nil 0
  · have hdbs : Moves (loadDbs env sofile [] .new dbs).events _ 0 := loadDbs_moves env [] .new dbs
    generalize loadDbs env sofile [] .new dbs = loaded at hr hdbs ⊢
    dsimp only at hr ⊢
    cases hok : loaded.value.2 with
    | false =>
      rw [hok] at hr
      cases hr
      simpa [servedBy, clearScheme] using hdbs
    | true =>
      rw [hok] at hr
      obtain ⟨report, -, hr⟩ := Option.map_eq_some_iff.mp hr
      have hload := hdbs.both (kschemeLoadPlugins_moves env loaded.events loaded.value.1.plugins)
      rw [zero_add, Multiset.coe_add] at hload
      generalize kschemeLoadPlugins env loaded.events loaded.value.1.plugins = plugins at hr hload
      have hfree := fun log => kschemeFree_moves env log plugins.value.1
      split at hr
      · cases hr
        have hserved := hload.append (servedBy_moves report.scheme plugins.value.1 calls)
        exact hserved.append (clearScheme_moves env _ report.scheme plugins.value.1)
      · cases hr
        simpa [servedBy, clearScheme] using hload.append (hfree _)

/-- The daemon, however it ends, has closed each shared object as often as it has opened it, and has
called only functions of objects that were open, unless it has opened an object with a missing
symbol. Each of those is closed once too often. -/
theorem daemonEvents_handles
    (h : daemonEvents env sofile hasParent fuel dbs calls = some events) (refs : Obj → ℕ) :
    Runs.run Handles.step (hold refs ↑(brokenObjects env sofile dbs)) events = some refs ∧
      (Runs.run Handles.step refs events = some refs ↔ brokenObjects env sofile dbs = []) := by
  have hmoves := daemonEvents_moves h
  refine ⟨?_, fun hrun => ?_, fun hnone => ?_⟩
  · rw [hmoves refs, hold_zero]
  · rw [← Multiset.coe_eq_zero]
    ext o
    have hbalanced := run_count hrun o
    have hclosed := run_count (hmoves refs) o
    simp only [hold, Multiset.count_zero] at hclosed ⊢
    omega
  · rw [hnone] at hmoves
    exact hmoves.run refs

end Moves

/-- The DB `xml` with a scheme of the PLUGIN `klish`, whose object has the symbols. -/
def dlSample (symbols : List String) : DlEnv Bool where
  dlopen file := if file = "libklish-db-xml.so" then some false
    else if file = "libklish-plugin-klish.so" then some true else none
  dlsym _ name := if name ∈ symbols then some 1 else if name = "kdb_xml_minor" then some 0 else none
  dlerror _ := ""
  dbInit _ _ := true
  dbLoadScheme _ _ scheme :=
    (true, { scheme with plugins := [⟨⟨"klish", []⟩, none, none, none⟩] }, [])
  dbFini _ _ := true
  pluginInit _ _ _ := (0, [])
  pluginFini _ _ _ := 0
  blobs _ _ := 1

theorem daemonEvents_handles_sample : ∃ events,
    daemonEvents (dlSample ["kdb_xml_major", "kdb_xml_load_scheme", "kplugin_klish_major"]) (fun _ => none)
      (fun _ => true) 1 ["xml"] [0] = some events ∧
    events = [.opened false, .used false, .closed false, .opened true, .closed true, .closed true] ∧
    Runs.run Handles.step (Handles.hold (fun _ => 0) {true}) events = some fun _ => 0 := by
  have hevents : daemonEvents (dlSample ["kdb_xml_major", "kdb_xml_load_scheme", "kplugin_klish_major"])
      (fun _ => none) (fun _ => true) 1 ["xml"] [0] = some [.opened false, .used false, .closed false,
        .opened true, .closed true, .closed true] := by
    decide +kernel
  exact ⟨_, hevents, rfl, (daemonEvents_handles hevents fun _ => 0).1⟩

end Klish
